import Loom.Proof.DivisionBounds
import Loom.Library.Budget

/- A bounded equality basis over mathematical integers
   (`proof/affine_queries.loom`). Every row means zero; eliminating a pivot
   multiplies the queried expression by a positive number and adds an
   established zero, so relations keep their direction without division,
   rounding or assumptions about divisibility.

   A basis row carries its pivot and the pivot's sign (`Row`), so a row without
   terms, or with a negative pivot, cannot be built. -/
namespace Loom.Proof

open Number Linear List Budgeted

/-- Size limits of the linear expressions a query works on. -/
def affineSize (value : Linear) : Bool :=
  !(value.terms.length > 32 || value.constant.digits.length > 16) &&
    value.terms.all fun term => !(term.factor.digits.length > 16)

/-- The factor of a symbol; ids increase, so a larger id ends the search. -/
def coefficientIn (id : Int) : List Term → Number
  | [] => integer 0
  | term :: terms =>
    if term.id = id then term.factor
    else if term.id > id then integer 0
    else coefficientIn id terms

def affineCoefficient (value : Linear) (id : Int) : Number := coefficientIn id value.terms

/-- A symbol below the ids of a list does not occur in it. -/
theorem evalTerms_above (f : Int → Int) {id : Int} (x : Int) {terms : List Term}
    (h : Above id terms) : evalTerms (Function.update f id x) terms = evalTerms f terms := by
  induction terms with
  | nil => rfl
  | cons term terms ih =>
    have hne : term.id ≠ id := ne_of_gt (h term (.head _))
    rw [evalTerms, evalTerms, Function.update_of_ne hne, ih fun t ht => h t (.tail _ ht)]

/-- The search may stop at a larger id: what the list gains when a symbol moves is the
factor that is found for it. -/
theorem evalTerms_update (f : Int → Int) (id x : Int) {terms : List Term} (h : Ordered terms) :
    evalTerms (Function.update f id x) terms =
      evalTerms f terms + (coefficientIn id terms).toInt * (x - f id) := by
  induction terms with
  | nil => simp [coefficientIn, evalTerms]
  | cons term terms ih =>
    obtain ⟨hlow, hterms⟩ := pairwise_cons.mp h
    unfold coefficientIn
    split
    · next hsame =>
      subst hsame
      rw [evalTerms, evalTerms, Function.update_self, evalTerms_above f x hlow]; ring
    · next hne =>
      split
      · next hpast => rw [evalTerms_above f x (above_of_lt hpast h), toInt_integer]; ring
      · rw [evalTerms, evalTerms, Function.update_of_ne hne, ih hterms]; ring

/-- Sums and multiples are canonical again and denote what they should, and the factor found
for a symbol is its coefficient, under every assignment and with every factor. -/
theorem linear_operations (a b : Linear) (factor : Number) (f : Int → Int) :
    (Ordered (add a b).terms ∧ ∀ t ∈ (add a b).terms, t.factor.toInt ≠ 0) ∧
      (Ordered (scale a factor).terms ∧ ∀ t ∈ (scale a factor).terms, t.factor.toInt ≠ 0) ∧
      (add a b).eval f = a.eval f + b.eval f ∧
      (scale a factor).eval f = a.eval f * factor.toInt ∧
      ∀ id x, a.eval (Function.update f id x) =
        a.eval f + (affineCoefficient a id).toInt * (x - f id) := by
  have hnonzero (value : Linear) : ∀ t ∈ value.terms, t.factor.toInt ≠ 0 :=
    fun t ht hzero => value.nonzero t ht (t.factor.digits_eq_nil.mpr hzero)
  refine ⟨⟨(add a b).ordered, hnonzero _⟩, ⟨(scale a factor).ordered, hnonzero _⟩, eval_add f a b,
    eval_scale f a factor, fun id x => ?_⟩
  rw [eval, eval, evalTerms_update f id x a.ordered, Int.add_assoc]; rfl

/-- A row of the basis: its first term is the pivot, with a positive factor. -/
structure Row where
  value : Linear
  pivot : Term
  rest : List Term
  leads : value.terms = pivot :: rest
  positive : 0 < pivot.factor.toInt

variable {value : Linear} {f : Int → Int} {basis : List Row} {facts : List Predicate}
  {v : Valuation} {relation : Relation}

/-- Scaling by minus one keeps the first term and flips its sign. -/
theorem scale_minus_one {pivot : Term} {rest : List Term} (h : value.terms = pivot :: rest) :
    (scale value (integer (-1))).terms =
      ⟨pivot.id, product pivot.factor (integer (-1))⟩ :: scaleTerms (integer (-1)) rest := by
  have hne : (product pivot.factor (integer (-1))).digits ≠ [] := by
    have hpivot := value.nonzero pivot (h ▸ (.head _))
    rw [ne_eq, digits_eq_nil] at hpivot ⊢
    rw [toInt_product, toInt_integer]; omega
  unfold scale
  rw [if_neg (by decide), if_neg (by decide)]
  simp only [h, scaleTerms, pushTerm]
  rw [if_neg (by simpa using hne)]

/-- A row with its pivot made positive. -/
def Row.normalized (value : Linear) (pivot : Term) (rest : List Term)
    (leads : value.terms = pivot :: rest) : Row :=
  if hn : pivot.factor.negative then
    { value := scale value (integer (-1))
      pivot := ⟨pivot.id, product pivot.factor (integer (-1))⟩
      rest := scaleTerms (integer (-1)) rest
      leads := scale_minus_one leads
      positive := by
        have := pivot.factor.negative_iff.mp hn
        rw [toInt_product, toInt_integer]
        omega }
  else
    { value := value
      pivot := pivot
      rest := rest
      leads := leads
      positive := by
        have hz := value.nonzero pivot (leads ▸ mem_cons_self)
        have hneg := pivot.factor.negative_iff
        rw [ne_eq, digits_eq_nil] at hz
        have : ¬ pivot.factor.toInt < 0 := fun h => hn (hneg.mpr h)
        omega }

def Vanishes (f : Int → Int) (basis : List Row) : Prop := ∀ row ∈ basis, row.value.eval f = 0

theorem eval_normalized (f : Int → Int) {pivot : Term} {rest : List Term}
    (leads : value.terms = pivot :: rest) (h : value.eval f = 0) :
    (Row.normalized value pivot rest leads).value.eval f = 0 := by
  unfold Row.normalized
  split
  · rw [eval_scale, h, Int.zero_mul]
  · exact h

/-! ## Reduction -/

def affineReduceRows : List Row → Linear → Budgeted Linear
  | [], reduced => return reduced
  | row :: basis, reduced => do
    spend "affine proof work budget exhausted"
    let factor := affineCoefficient reduced row.pivot.id
    if factor.digits.isEmpty then affineReduceRows basis reduced
    else
      let reduced := add (scale reduced row.pivot.factor) (scale row.value (negate factor))
      if affineSize reduced then affineReduceRows basis reduced
      else throw "affine proof size budget exhausted"

def affineReduce (value : Linear) (basis : List Row) : Budgeted Linear :=
  if affineSize value then affineReduceRows basis value
  else throw "affine proof size budget exhausted"

/-- A positive multiple of the expression, under the assignment. -/
def Multiple (f : Int → Int) (value reduced : Linear) : Prop :=
  ∃ k : Int, 0 < k ∧ reduced.eval f = value.eval f * k

theorem multiple_refl (f : Int → Int) (value : Linear) : Multiple f value value :=
  ⟨1, by decide, by ring⟩

theorem Multiple.trans {a b c : Linear} (h : Multiple f a b) (g : Multiple f b c) :
    Multiple f a c := by
  obtain ⟨k, hk, hb⟩ := h
  obtain ⟨m, hm, hc⟩ := g
  exact ⟨k * m, mul_pos hk hm, by rw [hc, hb, mul_assoc]⟩

theorem Multiple.holds_iff {a b : Linear} (h : Multiple f a b) (r : Relation) :
    r.Holds (b.eval f) ↔ r.Holds (a.eval f) := by
  obtain ⟨k, hk, hb⟩ := h
  rw [hb]; exact r.holds_mul_pos hk _

theorem ensures_affineReduceRows (basis : List Row) (hb : Vanishes f basis) (value : Linear) :
    Budgeted.Ensures (affineReduceRows basis value) (Multiple f value) := by
  induction basis generalizing value with
  | nil => exact ensures_pure (multiple_refl f value)
  | cons row basis ih =>
    have hrest : Vanishes f basis := fun r hr => hb r (.tail row hr)
    have hrow := hb row (.head _)
    refine ensures_then fun _ => ?_
    refine ensures_ite (fun _ => ih hrest value) fun _ => ?_
    refine ensures_ite (fun _ => ?_) fun _ => ensures_throw _
    refine ensures_mono (ih hrest _) fun reduced hr => Multiple.trans ?_ hr
    refine ⟨row.pivot.factor.toInt, row.positive, ?_⟩
    rw [eval_add, eval_scale, eval_scale, hrow]
    ring

theorem ensures_affineReduce (hb : Vanishes f basis) (value : Linear) :
    Budgeted.Ensures (affineReduce value basis) (Multiple f value) :=
  ensures_ite (fun _ => ensures_affineReduceRows basis hb value)
    fun _ => ensures_throw _

/-! ## Building the basis -/

/-- Insert before the rows with larger pivots, searching from the end. -/
def insertFromEnd (row : Row) : List Row → List Row
  | [] => [row]
  | last :: before =>
    if last.pivot.id > row.pivot.id then last :: insertFromEnd row before
    else row :: last :: before

def insertAffineRow (basis : List Row) (row : Row) : List Row :=
  (insertFromEnd row basis.reverse).reverse

theorem mem_insertFromEnd {row r : Row} {rows : List Row} (h : r ∈ insertFromEnd row rows) :
    r = row ∨ r ∈ rows := by
  induction rows with
  | nil => simpa [insertFromEnd] using h
  | cons last before ih =>
    simp only [insertFromEnd] at h
    split at h
    · rcases mem_cons.mp h with rfl | h
      · exact .inr (.head _)
      · exact (ih h).imp_right (.tail last)
    · exact mem_cons.mp h

theorem vanishes_insertAffineRow {row : Row} (hb : Vanishes f basis) (hr : row.value.eval f = 0) :
    Vanishes f (insertAffineRow basis row) := by
  intro r h
  rcases mem_insertFromEnd (mem_reverse.mp h) with rfl | h
  · exact hr
  · exact hb r (mem_reverse.mp h)

/-- The basis of the established equalities; `none` when a combination of them
is inconsistent. -/
def affineBasis : List Predicate → List Row → Budgeted (Option (List Row))
  | [], basis => return some basis
  | .compare .eq term :: facts, basis => do
    let row ← affineReduce term basis
    match leads : row.terms with
    | [] => if row.constant.digits.isEmpty then affineBasis facts basis else return none
    | pivot :: rest =>
      if basis.length ≥ 32 then throw "affine proof rank budget exhausted"
      else affineBasis facts (insertAffineRow basis (Row.normalized row pivot rest leads))
  | _ :: facts, basis => affineBasis facts basis

theorem satisfies_tail {fact : Predicate} (h : Satisfies v (fact :: facts)) :
    fact.Holds v ∧ Satisfies v facts := forall_mem_cons.mp h

/-- Facts that hold give a basis of zeros and are never inconsistent. -/
theorem ensures_affineBasis (facts : List Predicate) (hf : Satisfies v facts) (basis : List Row)
    (hb : Vanishes v.integer basis) : Budgeted.Ensures (affineBasis facts basis)
      (fun r => ∃ rows, r = some rows ∧ Vanishes v.integer rows) := by
  induction facts, basis using affineBasis.induct with
  | case1 basis => exact ensures_pure ⟨basis, rfl, hb⟩
  | case2 term facts basis ihEmpty ihRow =>
    obtain ⟨hfact, hrest⟩ := satisfies_tail hf
    refine ensures_bind (ensures_affineReduce hb term) fun row hrow => ?_
    have hzero : row.eval v.integer = 0 := (hrow.holds_iff .eq).mpr hfact
    split
    · rename_i hterms
      have hconstant : row.constant.digits.isEmpty = true := by
        rw [List.isEmpty_iff, digits_eq_nil]
        simpa [eval, hterms, evalTerms] using hzero
      rw [if_pos hconstant]; exact ihEmpty hrest hb
    · rename_i pivot rest leads
      refine ensures_ite (fun _ => ensures_throw _) fun _ => ?_
      exact ihRow row pivot rest leads hrest
        (vanishes_insertAffineRow hb (eval_normalized _ leads hzero))
  | case3 fact facts basis hne ih =>
    obtain ⟨_, hrest⟩ := satisfies_tail hf
    rw [affineBasis]
    · exact ih hrest hb
    · exact hne

/-! ## Consequences of one comparison -/

/-- Whether a premise proves the goal after cross multiplication of the leading
factors. A nonzero comparison is evidence even when its interval crosses zero. -/
def affineConsequence (relation : Relation) (value : Linear) (operator : Relation)
    (premise : Linear) : Bool :=
  match value.terms, premise.terms with
  | first :: _, second :: _ =>
    if first.id ≠ second.id then false
    else
      let goal := scale value (magnitudeNumber second.factor)
      let fact := scale premise (magnitudeNumber first.factor)
      if !affineSize goal || !affineSize fact then false
      else
        let known := Predicate.compare operator fact
        if Predicate.same (.compare relation goal) known ||
            Predicate.same (.compare relation.flip (scale goal (integer (-1)))) known then true
        else interval relation (range goal [known])
  | _, _ => false

theorem magnitudeNumber_pos {v : Linear} {term : Term} (h : term ∈ v.terms) :
    0 < (magnitudeNumber term.factor).toInt := by
  have hz := v.nonzero term h
  rw [ne_eq, digits_eq_nil] at hz
  rw [toInt_magnitudeNumber]; omega

theorem affineConsequence_sound {operator : Relation} {premise : Linear}
    (h : affineConsequence relation value operator premise = true)
    (hp : operator.Holds (premise.eval v.integer)) : relation.Holds (value.eval v.integer) := by
  unfold affineConsequence at h
  split at h
  · rename_i first tail second tail' hvalue hpremise
    split at h
    · simp at h
    · have hsecond : 0 < (magnitudeNumber second.factor).toInt :=
        magnitudeNumber_pos (v := premise) (by rw [hpremise]; exact .head _)
      have hfirst : 0 < (magnitudeNumber first.factor).toInt :=
        magnitudeNumber_pos (v := value) (by rw [hvalue]; exact .head _)
      simp only at h
      generalize hg : scale value (magnitudeNumber second.factor) = goal at h
      generalize hk : scale premise (magnitudeNumber first.factor) = fact at h
      have hgoal : relation.Holds (goal.eval v.integer) ↔ relation.Holds (value.eval v.integer) := by
        rw [← hg, eval_scale]; exact relation.holds_mul_pos hsecond _
      have hfact : operator.Holds (fact.eval v.integer) := by
        rw [← hk, eval_scale]; exact (operator.holds_mul_pos hfirst _).mpr hp
      rw [← hgoal]
      split at h
      · simp at h
      · split at h
        · rename_i hs
          rcases Bool.or_eq_true_iff.mp hs with hs | hs
          · cases Predicate.same_eq hs
            exact hfact
          · cases Predicate.same_eq hs
            rw [eval_scale, toInt_integer, Int.mul_neg_one] at hfact
            exact (Relation.flip_iff relation _).mp hfact
        · have hknown : Satisfies v [.compare operator fact] := forall_mem_singleton.mpr hfact
          exact interval_sound h (contains_range hknown goal)
  · simp at h

/-- Normalise every comparison by the basis; `none` when one of them already
proves the goal. -/
def affineNormalized (relation : Relation) (reduced : Linear) (basis : List Row) :
    List Predicate → List Predicate → Budgeted (Option (List Predicate))
  | [], normalized => return some normalized
  | .compare operator term :: facts, normalized => do
    let fact ← affineReduce term basis
    if affineConsequence relation reduced operator fact then return none
    else affineNormalized relation reduced basis facts (normalized ++ [.compare operator fact])
  | _ :: facts, normalized => affineNormalized relation reduced basis facts normalized

theorem ensures_affineNormalized {reduced : Linear} (hb : Vanishes v.integer basis)
    (facts normalized : List Predicate) (hf : Satisfies v facts) (hn : Satisfies v normalized) :
    Budgeted.Ensures (affineNormalized relation reduced basis facts normalized)
      (fun r => match r with
        | none => relation.Holds (reduced.eval v.integer)
        | some normalized => Satisfies v normalized) := by
  induction facts, normalized using affineNormalized.induct with
  | case1 normalized => exact ensures_pure hn
  | case2 operator term facts normalized ih =>
    obtain ⟨hfact, hrest⟩ := satisfies_tail hf
    refine ensures_bind (ensures_affineReduce hb term) fun fact hmul => ?_
    have hholds : operator.Holds (fact.eval v.integer) := (hmul.holds_iff operator).mpr hfact
    refine ensures_ite (fun hc => ?_) fun _ => ?_
    · exact ensures_pure (affineConsequence_sound hc hholds)
    · refine ih fact hrest ?_
      intro p hp
      rcases mem_append.mp hp with hp | hp
      · exact hn p hp
      · rw [mem_singleton.mp hp]; exact hholds
  | case3 fact facts normalized hne ih =>
    obtain ⟨_, hrest⟩ := satisfies_tail hf
    rw [affineNormalized]
    · exact ih hrest hn
    · exact hne

/-! ## The query -/

def affineQuery (relation : Relation) (value : Linear) (facts : List Predicate) : Budgeted Bool := do
  match ← affineBasis (facts.take 256) [] with
  | none => return true
  | some basis =>
    if basis.isEmpty then return false
    else
      let reduced ← affineReduce value basis
      if interval relation (range reduced facts) then return true
      else
        match ← affineNormalized relation reduced basis (facts.take 256) [] with
        | none => return true
        | some normalized => return interval relation (range reduced normalized)

def affineHolds (relation : Relation) (value : Linear) (facts : List Predicate) : Bool :=
  match (affineQuery relation value facts).result 4096 with
  | .ok proved => proved
  | .error _ => false

theorem ensures_affineQuery (hf : Satisfies v facts) :
    Budgeted.Ensures (affineQuery relation value facts)
      (fun proved => proved = true → relation.Holds (value.eval v.integer)) := by
  have htake : Satisfies v (facts.take 256) := fun p hp => hf p (mem_of_mem_take hp)
  have hnil : Vanishes v.integer [] := by simp [Vanishes]
  refine ensures_bind (ensures_affineBasis _ htake [] hnil) fun r hr => ?_
  obtain ⟨basis, rfl, hb⟩ := hr
  refine ensures_ite (fun _ => ensures_pure (by simp)) fun _ => ?_
  refine ensures_bind (ensures_affineReduce hb value) fun reduced hmul => ?_
  refine ensures_ite (fun hi => ?_) fun _ => ?_
  · refine ensures_pure fun _ => ?_
    exact (hmul.holds_iff relation).mp (interval_sound hi (contains_range hf reduced))
  · refine ensures_bind
      (ensures_affineNormalized hb _ [] htake (by simp [Satisfies])) fun n hn => ?_
    cases n with
    | none => exact ensures_pure fun _ => (hmul.holds_iff relation).mp hn
    | some normalized =>
      refine ensures_pure fun hi => ?_
      exact (hmul.holds_iff relation).mp (interval_sound hi (contains_range hn reduced))

theorem affineHolds_sound (hf : Satisfies v facts) (h : affineHolds relation value facts = true) :
    relation.Holds (value.eval v.integer) := by
  unfold affineHolds at h
  split at h
  · rename_i proved hok
    exact ensures_affineQuery hf 4096 proved hok h
  · simp at h

end Loom.Proof
