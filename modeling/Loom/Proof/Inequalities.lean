import Loom.Proof.AffineQueries

/- Bounded Fourier elimination (`proof/inequalities.loom`). A row means
   `value ≤ 0` over the mathematical integers, and only nonnegative linear
   combinations of rows are consequences. The query refutes the negated goal:
   a row without symbols and with a positive constant is a contradiction. It is
   not integer feasibility, and an exhausted elimination is not evidence. -/
namespace Loom.Proof

open Number Linear List Budgeted

/-- A row that still has a symbol to eliminate. -/
abbrev OpenRow := {row : Linear // row.terms ≠ []}

/-- Replace the constant of a row with the same terms by the stronger one;
`none` when no row has them. -/
def strengthen (value : OpenRow) : List OpenRow → Option (List OpenRow)
  | [] => none
  | previous :: rows =>
    if sameTerms previous.val.terms value.val.terms then
      some ((if compare value.val.constant previous.val.constant > 0 then value else previous) ::
        rows)
    else (strengthen value rows).map (previous :: ·)

/-- Add a row; `none` is a contradiction. -/
def inequalityRow (rows : List OpenRow) (value : Linear) : Except String (Option (List OpenRow)) :=
  if !affineSize value then .error "inequality proof size budget exhausted"
  else if h : value.terms = [] then
    .ok (if compare value.constant (integer 0) > 0 then none else some rows)
  else match strengthen ⟨value, h⟩ rows with
  | some rows => .ok (some rows)
  | none =>
    if rows.length ≥ 128 then .error "inequality proof row budget exhausted"
    else .ok (some (rows ++ [⟨value, h⟩]))

/-- The rows of a comparison. A disequality is a disjunction and gives none; a
strict comparison of integers has an exact unit gap. -/
def inequalityRows (rows : List OpenRow) (relation : Relation) (value : Linear) :
    Except String (Option (List OpenRow)) :=
  match relation with
  | .ne => .ok (some rows)
  | .eq => do
    match ← inequalityRow rows value with
    | none => return none
    | some rows => inequalityRow rows (scale value (integer (-1)))
  | .lt => inequalityRow rows (add value (ofConstant (integer 1)))
  | .le => inequalityRow rows value
  | .gt => inequalityRow rows (add (scale value (integer (-1))) (ofConstant (integer 1)))
  | .ge => inequalityRow rows (scale value (integer (-1)))

/-- Every row is at most zero. -/
def Nonpositive (f : Int → Int) (rows : List OpenRow) : Prop := ∀ row ∈ rows, row.val.eval f ≤ 0

variable {f : Int → Int} {rows : List OpenRow} {value : Linear} {r : Option (List OpenRow)}
  {relation : Relation} {v : Valuation} {facts : List Predicate}

theorem nonpositive_strengthen {value : OpenRow} {stronger : List OpenRow} (hr : Nonpositive f rows)
    (hv : value.val.eval f ≤ 0) (h : strengthen value rows = some stronger) :
    Nonpositive f stronger := by
  induction rows generalizing stronger with
  | nil => simp [strengthen] at h
  | cons previous rows ih =>
    obtain ⟨hprevious, hrows⟩ := forall_mem_cons.mp hr
    simp only [strengthen] at h
    split at h
    · cases h
      refine forall_mem_cons.mpr ⟨?_, hrows⟩
      split
      · exact hv
      · exact hprevious
    · obtain ⟨rest, hrest, rfl⟩ := Option.map_eq_some_iff.mp h
      exact forall_mem_cons.mpr ⟨hprevious, ih hrows hrest⟩

/-- Rows and a value at most zero stay consistent and at most zero. -/
theorem nonpositive_inequalityRow (hr : Nonpositive f rows) (hv : value.eval f ≤ 0)
    (h : inequalityRow rows value = .ok r) : ∃ rows', r = some rows' ∧ Nonpositive f rows' := by
  unfold inequalityRow at h
  split at h
  · cases h
  · split at h
    · rename_i hterms
      cases h
      have hconstant : ¬ compare value.constant (integer 0) > 0 := by
        simpa [eval, hterms, evalTerms] using hv
      rw [if_neg hconstant]; exact ⟨rows, rfl, hr⟩
    · split at h
      · rename_i stronger hs
        cases h
        exact ⟨stronger, rfl, nonpositive_strengthen hr hv hs⟩
      · split at h
        · cases h
        · cases h
          refine ⟨_, rfl, fun row hrow => ?_⟩
          rcases mem_append.mp hrow with hrow | hrow
          · exact hr row hrow
          · rw [mem_singleton.mp hrow]; exact hv

theorem nonpositive_inequalityRows (hr : Nonpositive f rows) (hv : relation.Holds (value.eval f))
    (h : inequalityRows rows relation value = .ok r) :
    ∃ rows', r = some rows' ∧ Nonpositive f rows' := by
  cases relation with
  | ne =>
    cases h
    exact ⟨rows, rfl, hr⟩
  | eq =>
    have hzero : value.eval f = 0 := hv
    obtain ⟨first, hfirst, h⟩ := Results.bind_eq_ok.mp h
    obtain ⟨rows', rfl, hr'⟩ := nonpositive_inequalityRow hr (le_of_eq hzero) hfirst
    exact nonpositive_inequalityRow hr' (by rw [eval_scale, hzero, Int.zero_mul]) h
  | lt =>
    have hneg : value.eval f < 0 := hv
    exact nonpositive_inequalityRow hr (by simp; omega) h
  | le => exact nonpositive_inequalityRow hr hv h
  | gt =>
    have hpos : 0 < value.eval f := hv
    exact nonpositive_inequalityRow hr (by simp; omega) h
  | ge =>
    have hpos : 0 ≤ value.eval f := hv
    exact nonpositive_inequalityRow hr (by simp; omega) h

/-! ## Elimination -/

/-- Combine an upper and a lower row of a pivot with positive multipliers; the
pivot cancels exactly. -/
def combined (pivot : Int) (upper lower : Linear) : Linear :=
  add (scale upper (negate (affineCoefficient lower pivot)))
    (scale lower (affineCoefficient upper pivot))

/-- Add every combination to the remaining rows; `none` is a contradiction. -/
def combineRows (pivot : Int) :
    List (OpenRow × OpenRow) → List OpenRow → Budgeted (Option (List OpenRow))
  | [], remaining => return some remaining
  | (upper, lower) :: pairs, remaining => do
    spend "inequality proof work budget exhausted"
    match ← Budgeted.ofExcept (inequalityRow remaining (combined pivot upper.val lower.val)) with
    | none => return none
    | some remaining => combineRows pivot pairs remaining

/-- The rows in which the pivot has a factor of the given sign. -/
def rowsWith (pivot : Int) (sign : Number → Bool) (rows : List OpenRow) : List OpenRow :=
  rows.filter fun row => sign (affineCoefficient row.val pivot)

def isNegative (factor : Number) : Bool := !factor.digits.isEmpty && factor.negative
def isPositive (factor : Number) : Bool := !factor.digits.isEmpty && !factor.negative

/-- Eliminate the first symbol of the first row, for a number of rounds. -/
def inequalityEliminate : Nat → List OpenRow → Budgeted Bool
  | 0, _ => return false
  | _ + 1, [] => return false
  | rounds + 1, row :: rows => do
    let pivot := (row.val.terms.head row.property).id
    let positive := rowsWith pivot isPositive (row :: rows)
    let negative := rowsWith pivot isNegative (row :: rows)
    let remaining := rowsWith pivot (·.digits.isEmpty) (row :: rows)
    let pairs := positive.flatMap fun upper => negative.map fun lower => (upper, lower)
    match ← combineRows pivot pairs remaining with
    | none => return true
    | some remaining => inequalityEliminate rounds remaining

theorem toInt_isNegative {factor : Number} (h : isNegative factor = true) : factor.toInt < 0 := by
  simp only [isNegative, Bool.and_eq_true] at h
  exact factor.negative_iff.mp h.2

theorem toInt_isPositive {factor : Number} (h : isPositive factor = true) : 0 < factor.toInt := by
  simp only [isPositive, Bool.and_eq_true, Bool.not_eq_true', isEmpty_eq_false_iff] at h
  have hz := mt factor.digits_eq_nil.mpr h.1
  have hn : ¬ factor.toInt < 0 := fun hlt => by simp [factor.negative_iff.mpr hlt] at h
  omega

theorem combined_nonpositive {pivot : Int} {upper lower : Linear} (hu : upper.eval f ≤ 0)
    (hl : lower.eval f ≤ 0) (hpos : isPositive (affineCoefficient upper pivot) = true)
    (hneg : isNegative (affineCoefficient lower pivot) = true) :
    (combined pivot upper lower).eval f ≤ 0 := by
  have ha := toInt_isPositive hpos
  have hb := toInt_isNegative hneg
  rw [combined, eval_add, eval_scale, eval_scale, toInt_negate]
  have h1 := mul_nonpos_of_nonpos_of_nonneg hu (show 0 ≤ -(affineCoefficient lower pivot).toInt by omega)
  have h2 := mul_nonpos_of_nonpos_of_nonneg hl ha.le
  omega

/-- The combination of the pair is at most zero. -/
def Combinable (f : Int → Int) (pivot : Int) (pair : OpenRow × OpenRow) : Prop :=
  (combined pivot pair.1.val pair.2.val).eval f ≤ 0

theorem ensures_combineRows {pivot : Int} (pairs : List (OpenRow × OpenRow))
    (hp : ∀ pair ∈ pairs, Combinable f pivot pair) (remaining : List OpenRow)
    (hr : Nonpositive f remaining) : Budgeted.Ensures (combineRows pivot pairs remaining)
      (fun r => ∃ rows, r = some rows ∧ Nonpositive f rows) := by
  induction pairs generalizing remaining with
  | nil => exact ensures_pure ⟨remaining, rfl, hr⟩
  | cons pair pairs ih =>
    obtain ⟨hpair, hpairs⟩ := forall_mem_cons.mp hp
    refine ensures_then fun _ => ?_
    refine ensures_bind (ensures_ofExcept fun r hrow =>
      nonpositive_inequalityRow hr hpair hrow) fun r hr' => ?_
    obtain ⟨rows, rfl, hrows⟩ := hr'
    exact ih hpairs rows hrows

/-- Rows that are all at most zero are never found contradictory. -/
theorem ensures_inequalityEliminate (rounds : Nat) (rows : List OpenRow) (hr : Nonpositive f rows) :
    Budgeted.Ensures (inequalityEliminate rounds rows) (· = false) := by
  induction rounds generalizing rows with
  | zero => exact ensures_pure rfl
  | succ rounds ih =>
    cases rows with
    | nil => exact ensures_pure rfl
    | cons row rows =>
      have hremaining : ∀ pivot sign, Nonpositive f (rowsWith pivot sign (row :: rows)) :=
        fun _ _ r h => hr r (mem_of_mem_filter h)
      refine ensures_bind (ensures_combineRows _ ?_ _ (hremaining _ _)) fun r hr' => ?_
      · intro pair hpair
        obtain ⟨upper, hupper, hpair⟩ := mem_flatMap.mp hpair
        obtain ⟨lower, hlower, rfl⟩ := mem_map.mp hpair
        obtain ⟨hu, hpos⟩ := mem_filter.mp hupper
        obtain ⟨hl, hneg⟩ := mem_filter.mp hlower
        exact combined_nonpositive (hr upper hu) (hr lower hl) hpos hneg
      · obtain ⟨rows', rfl, hrows'⟩ := hr'
        exact ih rows' hrows'

/-! ## The query -/

/-- The rows of every comparison among the facts. -/
def factRows : List Predicate → List OpenRow → Except String (Option (List OpenRow))
  | [], rows => .ok (some rows)
  | .compare operator term :: facts, rows => do
    match ← inequalityRows rows operator term with
    | none => return none
    | some rows => factRows facts rows
  | _ :: facts, rows => factRows facts rows

/-- Refute the negation of an order comparison. -/
def inequalityRefute (relation : Relation) (value : Linear) (facts : List Predicate) :
    Except String Bool := do
  match ← inequalityRows [] relation.inverse value with
  | none => return true
  | some rows =>
    match ← factRows (facts.take 256) rows with
    | none => return true
    | some rows => (inequalityEliminate 32 rows).result 4096

def inequalityQuery (relation : Relation) (value : Linear) (facts : List Predicate) :
    Except String Bool :=
  match relation with
  | .eq => do
    if ← inequalityRefute .le value facts then inequalityRefute .ge value facts else return false
  | .ne => do
    if ← inequalityRefute .lt value facts then return true else inequalityRefute .gt value facts
  | relation => inequalityRefute relation value facts

theorem nonpositive_factRows (facts : List Predicate) (hf : Satisfies v facts)
    (hr : Nonpositive v.integer rows) (h : factRows facts rows = .ok r) :
    ∃ rows', r = some rows' ∧ Nonpositive v.integer rows' := by
  induction facts, rows using factRows.induct with
  | case1 rows =>
    cases h
    exact ⟨rows, rfl, hr⟩
  | case2 operator term facts rows ih =>
    obtain ⟨hfact, hrest⟩ := forall_mem_cons.mp hf
    obtain ⟨first, hfirst, h⟩ := Results.bind_eq_ok.mp h
    obtain ⟨rows', rfl, hr'⟩ := nonpositive_inequalityRows hr hfact hfirst
    exact ih rows' hrest hr' h
  | case3 fact facts rows hne ih =>
    obtain ⟨_, hrest⟩ := forall_mem_cons.mp hf
    rw [factRows] at h
    · exact ih hrest hr h
    · exact hne

theorem inequalityRefute_sound (hf : Satisfies v facts)
    (h : inequalityRefute relation value facts = .ok true) :
    relation.Holds (value.eval v.integer) := by
  have htake : Satisfies v (facts.take 256) := fun p hp => hf p (mem_of_mem_take hp)
  by_contra hnot
  have hinverse := (relation.inverse_iff _).mpr hnot
  obtain ⟨first, hfirst, h⟩ := Results.bind_eq_ok.mp h
  obtain ⟨rows, rfl, hrows⟩ :=
    nonpositive_inequalityRows (f := v.integer) (by simp [Nonpositive]) hinverse hfirst
  obtain ⟨second, hsecond, h⟩ := Results.bind_eq_ok.mp h
  obtain ⟨rows', rfl, hrows'⟩ := nonpositive_factRows _ htake hrows hsecond
  exact Bool.false_ne_true (ensures_inequalityEliminate 32 rows' hrows' 4096 true h).symm

theorem inequalityQuery_sound (hf : Satisfies v facts)
    (h : inequalityQuery relation value facts = .ok true) :
    relation.Holds (value.eval v.integer) := by
  cases relation with
  | eq =>
    obtain ⟨first, hfirst, h⟩ := Results.bind_eq_ok.mp h
    cases first with
    | false => cases h
    | true =>
      exact le_antisymm (inequalityRefute_sound hf hfirst) (inequalityRefute_sound hf h)
  | ne =>
    obtain ⟨first, hfirst, h⟩ := Results.bind_eq_ok.mp h
    cases first with
    | false => exact ne_of_gt (inequalityRefute_sound hf h)
    | true => exact ne_of_lt (inequalityRefute_sound hf hfirst)
  | _ => exact inequalityRefute_sound hf h

/-- At most one factor `1` and one factor `-1`, in either order. -/
def differenceTerms : List Term → (positive negative : Bool) → Bool
  | [], _, _ => true
  | term :: terms, positive, negative =>
    if !unit term.factor then false
    else if !term.factor.negative && !positive then differenceTerms terms true negative
    else if term.factor.negative && !negative then differenceTerms terms positive true
    else false

def differenceShape (value : Linear) : Bool :=
  if value.terms.length > 2 then false else differenceTerms value.terms false false

/-- Difference-only systems have a cheaper graph query and are left to it. -/
def inequalityNeeded (value : Linear) (facts : List Predicate) : Bool :=
  !differenceShape value || (facts.take 256).any fun fact =>
    match fact with
    | .compare operator term => operator != .ne && !differenceShape term
    | _ => false

def inequalityHolds (relation : Relation) (value : Linear) (facts : List Predicate) : Bool :=
  if !inequalityNeeded value facts then false
  else match inequalityQuery relation value facts with
  | .ok proved => proved
  | .error _ => false

theorem inequalityHolds_sound (hf : Satisfies v facts)
    (h : inequalityHolds relation value facts = true) : relation.Holds (value.eval v.integer) := by
  unfold inequalityHolds at h
  split at h
  · simp at h
  · split at h
    · rename_i proved hok
      subst h; exact inequalityQuery_sound hf hok
    · simp at h

end Loom.Proof
