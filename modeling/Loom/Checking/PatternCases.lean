import Loom.Checking.PatternRows

/-
  One case of a column: the values of one constructor.
-/

namespace Loom.Checking.Matching

open CheckedPattern hiding bind

/-! ## Constructors -/

/-- The value is the constructor applied to the fields. The literals of the
column are the keys that the remainder leaves out. -/
def Head.Builds (keys : List Literal) : Head → List Value → Value → Prop
  | .product, fields, value => value = .product fields
  | .variant tag, fields, value => value = .variant tag fields
  | .literal key, fields, value => fields = [] ∧ key.equals value = true
  | .remainder, fields, value => fields = [] ∧ ∀ key ∈ keys, key.equals value = false

/-- The remainder is only ever asked of a scalar column with these keys. -/
def Head.Sees (keys : List Literal) (head : Head) (pattern : CheckedPattern) : Prop :=
  head = .remainder → (∃ name, pattern = .wildcard name) ∨ ∃ key ∈ keys, pattern = .literal key

/-- What the pattern itself binds the whole value to. -/
def CheckedPattern.whole (value : Value) : CheckedPattern → List (Nat × Value)
  | .wildcard name => own name value
  | _ => []

section Heads

variable {keys : List Literal} {head : Head} {fields : List Value} {value : Value}
  {pattern : CheckedPattern}

theorem bind_unselected (hbuilds : head.Builds keys fields value) (hsees : head.Sees keys pattern)
    (hselects : head.selects pattern = false) : pattern.bind value = none := by
  cases head with
  | product =>
    obtain rfl : value = .product fields := hbuilds
    cases pattern <;> simp_all [Head.selects, CheckedPattern.bind, Literal.equals]
  | variant tag =>
    obtain rfl : value = .variant tag fields := hbuilds
    cases pattern <;> simp_all [Head.selects, CheckedPattern.bind, Literal.equals]
    grind
  | literal key =>
    obtain ⟨-, hequals⟩ := hbuilds
    cases pattern with
    | wildcard name => cases hselects
    | literal other =>
      have hother : other.equals value = false := by
        refine Bool.eq_false_iff.mpr fun h => ?_
        rw [Literal.equals_unique hequals h] at hselects
        simp [Head.selects] at hselects
      simp [CheckedPattern.bind, hother]
    | product children => cases value <;> simp_all [CheckedPattern.bind, Literal.equals]
    | variant tag children => cases value <;> simp_all [CheckedPattern.bind, Literal.equals]
  | remainder =>
    obtain ⟨-, hkeys⟩ := hbuilds
    rcases hsees rfl with ⟨name, rfl⟩ | ⟨key, hkey, rfl⟩
    · cases hselects
    · simp [CheckedPattern.bind, hkeys key hkey]

theorem bind_selected {slots : List Slot} (hbuilds : head.Builds keys fields value)
    (hlength : fields.length = slots.length) (hselects : head.selects pattern = true) :
    pattern.bind value =
      (bindAll (expand slots pattern) fields).map (pattern.whole value ++ ·) := by
  cases pattern with
  | wildcard name =>
    have hmap : slots.map (fun _ => CheckedPattern.wildcard none) =
        List.replicate fields.length (.wildcard none) := by
      rw [hlength, List.map_const']
    simp [CheckedPattern.bind, expand, whole, hmap, bindAll_replicate]
  | literal key =>
    obtain rfl : head = .literal key := of_decide_eq_true hselects
    obtain ⟨rfl, hequals⟩ := hbuilds
    simp [CheckedPattern.bind, expand, whole, hequals, bindAll]
  | product children =>
    obtain rfl : head = .product := of_decide_eq_true hselects
    obtain rfl : value = .product fields := hbuilds
    simp [CheckedPattern.bind, expand, whole]
  | variant tag children =>
    obtain rfl : head = .variant tag := of_decide_eq_true hselects
    obtain rfl : value = .variant tag fields := hbuilds
    simp [CheckedPattern.bind, expand, whole]

end Heads

/-! ## The rows that match -/

/-- What bindings hold, the first of each name. -/
def held (bound : List (Nat × Option Value)) : Locals := fun name => (bound.lookup name).join

/-- The order of bindings with distinct names does not matter. -/
theorem held_perm {left right : List (Nat × Option Value)} (h : left.Perm right)
    (hnodup : (left.map Prod.fst).Nodup) : held left = held right := by
  induction h with
  | nil => rfl
  | cons entry _ ih =>
    have ih := ih (List.nodup_cons.mp hnodup).2
    obtain ⟨key, value⟩ := entry
    funext name
    have htail : (List.lookup name _).join = (List.lookup name _).join := congrFun ih name
    simp only [held, List.lookup_cons]
    split
    · rfl
    · exact htail
  | swap first second _ =>
    obtain ⟨one, _⟩ := first
    obtain ⟨two, _⟩ := second
    have hne : one ≠ two := fun h => by simp [h] at hnodup
    funext name
    simp only [held, List.lookup_cons]
    cases hone : name == one with
    | false => rfl
    | true =>
      have htwo : (name == two) = false :=
        beq_eq_false_iff_ne.mpr ((eq_of_beq hone).trans_ne hne)
      rw [htwo]
  | trans h _ ih ih' => exact (ih hnodup).trans (ih' ((h.map Prod.fst).nodup_iff.mp hnodup))

theorem held_some (bound : List (Nat × Value)) :
    held (bound.map fun entry => (entry.1, some entry.2)) = reading bound := by
  funext name
  induction bound with
  | nil => rfl
  | cons entry bound ih =>
    obtain ⟨key, value⟩ := entry
    simp only [held, reading, List.map_cons, List.lookup_cons] at ih ⊢
    split
    · rfl
    · exact ih

/-- A row that matches: its arm, whether a guard follows, and its bindings. -/
structure Candidate where
  arm : Nat
  guarded : Bool
  locals : Locals

/-- All the bindings of a row, once its remaining columns have bound these. -/
def PatternRow.bound (row : PatternRow) (locals : Locals) (rest : List (Nat × Value)) :
    List (Nat × Option Value) :=
  row.bindings.map (fun binding => (binding.name, binding.value.eval locals)) ++
    rest.map fun entry => (entry.1, some entry.2)

def candidates (locals : Locals) (values : List Value) : List PatternRow → List Candidate
  | [] => []
  | row :: rows =>
      match bindAll row.patterns values with
      | some rest =>
          ⟨row.arm, row.guard.isSome, held (row.bound locals rest)⟩ :: candidates locals values rows
      | none => candidates locals values rows

/-- The arms of the rows that match, and which of them are guarded. -/
def shape (values : List Value) : List PatternRow → List (Nat × Bool)
  | [] => []
  | row :: rows =>
      if (bindAll row.patterns values).isSome then
        (row.arm, row.guard.isSome) :: shape values rows
      else
        shape values rows

/-- The names of a row, bound already or still to be bound. -/
def PatternRow.names (row : PatternRow) : List Nat :=
  row.bindings.map Let.name ++ namesAll row.patterns

/-- What planning keeps of a row: its columns have the types of the decision
locals, its names are distinct and older than any decision local, and its
bindings read decision locals only. -/
structure PatternRow.Ready (env : Environment) (start next : Nat) (slots : List Slot)
    (row : PatternRow) : Prop where
  fits : FitAll env row.patterns (slots.map Slot.ty)
  nodup : row.names.Nodup
  older : ∀ name ∈ row.names, name < start
  reads : ∀ binding ∈ row.bindings, ∀ index ∈ binding.value.reads, start ≤ index ∧ index < next

theorem PatternRow.Ready.mono {env : Environment} {start next later : Nat} {slots : List Slot}
    {row : PatternRow} (h : row.Ready env start next slots) (hlater : next ≤ later) :
    row.Ready env start later slots :=
  { h with reads := fun binding hbinding index hindex =>
      ⟨(h.reads binding hbinding index hindex).1,
        Nat.lt_of_lt_of_le (h.reads binding hbinding index hindex).2 hlater⟩ }

/-! ## A column and the columns it expands to -/

theorem wholeBinding_names (value : Expr) (slots : List Slot) (pattern : CheckedPattern) :
    (wholeBinding value pattern).map Let.name ++ namesAll (expand slots pattern) =
      pattern.names := by
  cases pattern with
  | wildcard name =>
    cases name <;> simp [wholeBinding, expand, names, namesAll_replicate]
  | literal key => rfl
  | product children => rfl
  | variant tag children => rfl

theorem wholeBinding_value {value : Expr} {pattern : CheckedPattern} {binding : Let}
    (h : binding ∈ wholeBinding value pattern) : binding.value = value := by
  cases pattern with
  | wildcard name =>
    cases name with
    | none => cases h
    | some name => exact congrArg Let.value (List.mem_singleton.mp h)
  | literal key => cases h
  | product children => cases h
  | variant tag children => cases h

theorem wholeBinding_eval {locals : Locals} {expr : Expr} {value : Value}
    (h : expr.eval locals = some value) (pattern : CheckedPattern) :
    (wholeBinding expr pattern).map (fun binding => (binding.name, binding.value.eval locals)) =
      (pattern.whole value).map fun entry => (entry.1, some entry.2) := by
  cases pattern with
  | wildcard name => cases name <;> simp [wholeBinding, whole, own, h]
  | literal key => rfl
  | product children => rfl
  | variant tag children => rfl

section Columns

variable {env : Environment} {before after fields : List Slot} {value : Slot}

theorem columns_split {patterns : List CheckedPattern}
    (h : FitAll env patterns ((before ++ value :: after).map Slot.ty)) :
    ∃ left pattern right, patterns = left ++ pattern :: right ∧
      left.length = before.length ∧ FitAll env left (before.map Slot.ty) ∧
      pattern.Fits env value.ty ∧ FitAll env right (after.map Slot.ty) := by
  rw [List.map_append] at h
  obtain ⟨left, rest, rfl, hleft, hrest⟩ := FitAll.split h
  match rest, hrest with
  | pattern :: right, ⟨hpattern, hright⟩ =>
    exact ⟨left, pattern, right, rfl, hleft.length_eq.trans (List.length_map ..), hleft, hpattern,
      hright⟩

theorem patternSlots_append {α : Type} (left right inner : List α) (column : α) :
    patternSlots (left ++ column :: right) left.length inner = left ++ inner ++ right := by
  have hdrop : (left ++ column :: right).drop (left.length + 1) = right := by
    rw [← List.drop_drop, List.drop_left, List.drop_one, List.tail_cons]
  rw [patternSlots, List.take_left, hdrop]

theorem getD_append_cons {α : Type} (left right : List α) (column default : α) :
    (left ++ column :: right).getD left.length default = column := by
  simp

variable {keys : List Literal} {head : Head} {inner left right : List Value} {built : Value}

variable {one two : List CheckedPattern} {pattern : CheckedPattern}
  (hone : one.length = left.length) (hbuilds : head.Builds keys inner built)
include hone hbuilds

/-- Matching the column, then the rest, is matching what it expands to with
the rest, up to the order of the bindings. -/
theorem bindAll_expand (hlength : inner.length = fields.length)
    (hexpand : (expand fields pattern).length = inner.length)
    (hselects : head.selects pattern = true) :
    Option.Rel List.Perm (bindAll (one ++ pattern :: two) (left ++ built :: right))
      ((bindAll (one ++ expand fields pattern ++ two) (left ++ inner ++ right)).map
        (pattern.whole built ++ ·)) := by
  have hmiddle : (one ++ expand fields pattern).length = (left ++ inner).length := by
    rw [List.length_append, List.length_append, hone, hexpand]
  rw [bindAll_append _ _ hone, bindAll_append _ _ hmiddle, bindAll_append _ _ hone, bindAll,
    bind_selected hbuilds hlength hselects]
  cases bindAll one left <;> cases bindAll (expand fields pattern) inner <;>
    cases bindAll two right <;> simp only
  all_goals first | exact Option.Rel.none | skip
  rename_i first middle last
  refine Option.Rel.some ?_
  calc first ++ (pattern.whole built ++ middle ++ last)
      = (first ++ pattern.whole built) ++ (middle ++ last) := by simp [List.append_assoc]
    _ |>.Perm ((pattern.whole built ++ first) ++ (middle ++ last)) :=
        List.perm_append_comm.append_right _
    _ |>.Perm (pattern.whole built ++ (first ++ middle ++ last)) := by
        rw [List.append_assoc, List.append_assoc]

theorem bindAll_unselected (hsees : head.Sees keys pattern)
    (hselects : head.selects pattern = false) :
    bindAll (one ++ pattern :: two) (left ++ built :: right) = none := by
  rw [bindAll_append _ _ hone, bindAll, bind_unselected hbuilds hsees hselects]
  cases bindAll one left <;> rfl

end Columns

/-! ## One case -/

/-- A constructor of a type, with the types of its fields: its values are those
built from fields of these types, and its patterns expand to patterns for them. -/
structure Case (env : Environment) (keys : List Literal) (ty : Nat) (head : Head)
    (types : List Nat) : Prop where
  down : ∀ value fields, value.HasType env ty → head.Builds keys fields value →
    Value.HaveTypes env fields types
  up : ∀ fields, Value.HaveTypes env fields types →
    ∃ value : Value, value.HasType env ty ∧ head.Builds keys fields value
  expands : ∀ (pattern : CheckedPattern) (slots : List Slot), slots.map Slot.ty = types →
    pattern.Fits env ty → head.selects pattern = true → FitAll env (expand slots pattern) types

section Specialisation

variable {env : Environment} {keys : List Literal} {head : Head} {types : List Nat}
  {before after fields : List Slot} {value : Slot} {index : Nat} {rebuilt : Expr}
  {rows selected : List PatternRow} {left inner right : List Value} {built : Value}
  {start next : Nat}

variable {bindings replaced : List Let}

/-- The bindings of a row evaluate as before, since the value is rebuilt. -/
theorem bindings_eval {locals later : Locals}
    (h : List.Forall₂ (Let.Replaced index rebuilt) bindings replaced)
    (hreads : ∀ binding ∈ bindings, ∀ other ∈ binding.value.reads, start ≤ other ∧ other < next)
    (hlater : ∀ index < next, later index = locals index) (hindex : index < next)
    (hvalue : locals index = rebuilt.eval later) :
    replaced.map (fun binding => (binding.name, binding.value.eval later)) =
      bindings.map fun binding => (binding.name, binding.value.eval locals) := by
  induction h with
  | nil => rfl
  | @cons old new olds news h _ ih =>
    have heval : new.value.eval later = old.value.eval locals := by
      rw [h.2.1 later ((hlater _ hindex).trans hvalue)]
      exact Expr.eval_congr fun other hother =>
        hlater other (hreads old (.head _) other hother).2
    rw [List.map_cons, List.map_cons, h.1, heval,
      ih fun binding hbinding => hreads binding (.tail _ hbinding)]

section
variable (right : List Value) (hleft : left.length = before.length)
  (hbuilds : head.Builds keys inner built)
include hleft hbuilds

theorem row_dropped {row : PatternRow}
    (hfits : FitAll env row.patterns ((before ++ value :: after).map Slot.ty))
    (hsees : head.Sees keys (row.pattern before.length))
    (hselects : head.selects (row.pattern before.length) = false) :
    bindAll row.patterns (left ++ built :: right) = none := by
  obtain ⟨one, pattern, two, hpatterns, hone, -, -, -⟩ := columns_split hfits
  have hcolumn : row.pattern before.length = pattern := by
    rw [PatternRow.pattern, hpatterns, ← hone, getD_append_cons]
  rw [hcolumn] at hselects hsees
  rw [hpatterns]
  exact bindAll_unselected (hone.trans hleft.symm) hbuilds hsees hselects

variable (hcase : Case env keys value.ty head types) (htypes : fields.map Slot.ty = types)
  (hinner : Value.HaveTypes env inner types)
include hcase htypes hinner

theorem row_specialised {row : PatternRow}
    (hfits : FitAll env row.patterns ((before ++ value :: after).map Slot.ty))
    (hselects : head.selects (row.pattern before.length) = true) :
    Option.Rel List.Perm (bindAll row.patterns (left ++ built :: right))
      ((bindAll (patternSlots row.patterns before.length
          (expand fields (row.pattern before.length))) (left ++ inner ++ right)).map
        ((row.pattern before.length).whole built ++ ·)) := by
  obtain ⟨one, pattern, two, hpatterns, hone, -, hpattern, -⟩ := columns_split hfits
  have hcolumn : row.pattern before.length = pattern := by
    rw [PatternRow.pattern, hpatterns, ← hone, getD_append_cons]
  rw [hcolumn] at hselects ⊢
  rw [hpatterns, ← hone, patternSlots_append]
  have hexpand := (hcase.expands pattern fields htypes hpattern hselects).length_eq
  have hlength : inner.length = fields.length := by
    rw [hinner.length_eq, ← htypes, List.length_map]
  exact bindAll_expand (hone.trans hleft.symm) hbuilds hlength (hexpand.trans hinner.length_eq.symm)
    hselects

/-- The rows that match are the same before and after. -/
theorem shape_specialised
    (hspec : Specialised before.length head index fields rebuilt rows selected)
    (hready : ∀ row ∈ rows, row.Ready env start next (before ++ value :: after))
    (hsees : ∀ row ∈ rows, head.Sees keys (row.pattern before.length)) :
    shape (left ++ built :: right) rows = shape (left ++ inner ++ right) selected := by
  induction hspec with
  | nil => rfl
  | @drop row rows selected hselects _ ih =>
    have hnone := row_dropped right hleft hbuilds (hready row (.head _)).fits
      (hsees row (.head _)) hselects
    rw [shape, hnone]
    exact ih (fun other h => hready other (.tail _ h))
      fun other h => hsees other (.tail _ h)
  | @keep row rows selected bindings hselects _ _ ih =>
    have hrow := row_specialised right hleft hbuilds hcase htypes hinner
      (hready row (.head _)).fits hselects
    have ih := ih (fun other h => hready other (.tail _ h))
      fun other h => hsees other (.tail _ h)
    simp only [shape, ih]
    revert hrow
    generalize bindAll row.patterns (left ++ built :: right) = one
    generalize bindAll (patternSlots row.patterns before.length _) (left ++ inner ++ right) = two
    intro hrow
    cases one <;> cases two <;> cases hrow <;> rfl

/-- And so is what they bind. -/
theorem candidates_specialised
    (hspec : Specialised before.length head value.index fields rebuilt rows selected)
    (hready : ∀ row ∈ rows, row.Ready env start next (before ++ value :: after))
    (hsees : ∀ row ∈ rows, head.Sees keys (row.pattern before.length)) {locals later : Locals}
    (hlater : ∀ index < next, later index = locals index) (hindex : value.index < next)
    (hvalue : locals value.index = some built) (hrebuilt : rebuilt.eval later = some built) :
    candidates locals (left ++ built :: right) rows =
      candidates later (left ++ inner ++ right) selected := by
  induction hspec with
  | nil => rfl
  | @drop row rows selected hselects _ ih =>
    have hnone := row_dropped right hleft hbuilds (hready row (.head _)).fits
      (hsees row (.head _)) hselects
    rw [candidates, hnone]
    exact ih (fun other h => hready other (.tail _ h))
      fun other h => hsees other (.tail _ h)
  | @keep row rows selected bindings hselects hbindings _ ih =>
    have hrow := row_specialised right hleft hbuilds hcase htypes hinner
      (hready row (.head _)).fits hselects
    have ih := ih (fun other h => hready other (.tail _ h))
      fun other h => hsees other (.tail _ h)
    have hready := hready row (.head _)
    have hold := bindings_eval hbindings hready.reads hlater hindex
      (hvalue.trans hrebuilt.symm)
    simp only [candidates, ih]
    revert hrow
    generalize htwo : bindAll (patternSlots row.patterns before.length _) _ = two
    generalize hone : bindAll row.patterns (left ++ built :: right) = one
    intro hrow
    cases one <;> cases two <;> cases hrow
    · rfl
    · rename_i bound rest hperm
      have hheld : held (row.bound locals bound) = held (PatternRow.bound
          { row with
            patterns := patternSlots row.patterns before.length
              (expand fields (row.pattern before.length))
            bindings := bindings ++ wholeBinding rebuilt (row.pattern before.length) }
          later rest) := by
        refine held_perm ?_ ?_
        · rw [PatternRow.bound, PatternRow.bound, List.map_append, hold,
            wholeBinding_eval hrebuilt, List.append_assoc, ← List.map_append]
          exact (hperm.map _).append_left _
        · rw [PatternRow.bound, List.map_append, List.map_map, List.map_map]
          have hnames : bound.map ((fun entry : Nat × Option Value => entry.1) ∘
              fun entry : Nat × Value => (entry.1, some entry.2)) = namesAll row.patterns :=
            bindAll_names hone
          have hnodup := hready.nodup
          rw [PatternRow.names, ← hnames] at hnodup; exact hnodup
      exact congrArg (fun read => Candidate.mk row.arm row.guard.isSome read ::
        candidates later (left ++ inner ++ right) selected) hheld

end

theorem replaced_names (h : List.Forall₂ (Let.Replaced index rebuilt) bindings replaced) :
    replaced.map Let.name = bindings.map Let.name := by
  induction h with
  | nil => rfl
  | cons h _ ih => rw [List.map_cons, List.map_cons, h.1, ih]

theorem replaced_reads (h : List.Forall₂ (Let.Replaced index rebuilt) bindings replaced)
    (hreads : ∀ binding ∈ bindings, ∀ other ∈ binding.value.reads, start ≤ other ∧ other < next)
    {later : Nat} (hlater : next ≤ later)
    (hrebuilt : ∀ index ∈ rebuilt.reads, start ≤ index ∧ index < later) :
    ∀ binding ∈ replaced, ∀ other ∈ binding.value.reads, start ≤ other ∧ other < later := by
  induction h with
  | nil => intro binding hbinding; cases hbinding
  | @cons old new olds news h _ ih =>
    intro binding hbinding other hother
    rcases List.mem_cons.mp hbinding with rfl | hbinding
    · rcases h.2.2 other hother with hother | hother
      · have hold := hreads old (.head _) other hother
        exact ⟨hold.1, Nat.lt_of_lt_of_le hold.2 hlater⟩
      · exact hrebuilt other hother
    · exact ih (fun other hother => hreads other (.tail _ hother)) binding hbinding
        other hother

/-- Every specialised row comes from a row with the same arm and the same
names, and is ready for the columns the case expands to. -/
theorem ready_specialised (hcase : Case env keys value.ty head types)
    (htypes : fields.map Slot.ty = types)
    (hspec : Specialised before.length head index fields rebuilt rows selected)
    (hready : ∀ row ∈ rows, row.Ready env start next (before ++ value :: after)) {later : Nat}
    (hlater : next ≤ later) (hrebuilt : ∀ index ∈ rebuilt.reads, start ≤ index ∧ index < later) :
    ∀ row ∈ selected, row.Ready env start later (before ++ fields ++ after) ∧
      ∃ origin ∈ rows, row.arm = origin.arm ∧ row.names.Perm origin.names := by
  induction hspec with
  | nil => intro row hrow; cases hrow
  | @drop origin rows selected hselects _ ih =>
    intro row hrow
    obtain ⟨hrow, origin, horigin, h⟩ :=
      ih (fun other h => hready other (.tail _ h)) row hrow
    exact ⟨hrow, origin, .tail _ horigin, h⟩
  | @keep origin rows selected bindings hselects hbindings _ ih =>
    intro row hrow
    rcases List.mem_cons.mp hrow with rfl | hrow
    · have horigin := hready origin (.head _)
      obtain ⟨one, pattern, two, hpatterns, hone, hfitOne, hpattern, hfitTwo⟩ :=
        columns_split horigin.fits
      have hcolumn : origin.pattern before.length = pattern := by
        rw [PatternRow.pattern, hpatterns, ← hone, getD_append_cons]
      rw [hcolumn] at hselects
      have hnames : PatternRow.names
          { origin with
            patterns := patternSlots origin.patterns before.length
              (expand fields (origin.pattern before.length))
            bindings := bindings ++ wholeBinding rebuilt (origin.pattern before.length) } |>.Perm
          origin.names := by
        rw [PatternRow.names, PatternRow.names, hcolumn, hpatterns, ← hone, patternSlots_append,
          List.map_append, replaced_names hbindings, List.append_assoc, namesAll_append, namesAll_append,
          namesAll_append, namesAll, ← wholeBinding_names rebuilt fields pattern]
        refine List.Perm.append_left _ ?_
        calc (wholeBinding rebuilt pattern).map Let.name ++
              (namesAll one ++ namesAll (expand fields pattern) ++ namesAll two)
            = ((wholeBinding rebuilt pattern).map Let.name ++ namesAll one) ++
                (namesAll (expand fields pattern) ++ namesAll two) := by
              simp [List.append_assoc]
          _ |>.Perm ((namesAll one ++ (wholeBinding rebuilt pattern).map Let.name) ++
                (namesAll (expand fields pattern) ++ namesAll two)) :=
              List.perm_append_comm.append_right _
          _ |>.Perm (namesAll one ++ ((wholeBinding rebuilt pattern).map Let.name ++
                namesAll (expand fields pattern) ++ namesAll two)) := by
              simp [List.append_assoc, List.Perm.refl]
      refine ⟨⟨?_, (hnames.nodup_iff).mpr horigin.nodup,
        fun name hname => horigin.older name (hnames.mem_iff.mp hname), ?_⟩,
        origin, .head _, rfl, hnames⟩
      · rw [hcolumn, hpatterns, ← hone, patternSlots_append, List.map_append, List.map_append]
        refine FitAll.append (FitAll.append hfitOne ?_) hfitTwo
        rw [htypes]; exact hcase.expands pattern fields htypes hpattern hselects
      · intro binding hbinding other hother
        rcases List.mem_append.mp hbinding with hbinding | hbinding
        · exact replaced_reads hbindings horigin.reads hlater hrebuilt binding hbinding other hother
        · rw [wholeBinding_value hbinding] at hother
          exact hrebuilt other hother
    · obtain ⟨hrow, origin', horigin', h⟩ :=
        ih (fun other h => hready other (.tail _ h)) row hrow
      exact ⟨hrow, origin', .tail _ horigin', h⟩

end Specialisation

/-! ## The cases of each type -/

section Cases

variable {env : Environment} {keys : List Literal} {ty : Nat}

theorem case_product {types : List Nat} (hshape : env.shape (env.base ty) = .product types) :
    Case env keys ty .product types where
  down := by
    rintro value fields hvalue rfl
    obtain ⟨fields', hfields, h⟩ := hvalue.product hshape
    cases hfields
    exact h
  up := fun fields hfields => ⟨.product fields, ⟨fun _ => trivial, types, hshape, hfields⟩, rfl⟩
  expands := by
    intro pattern slots hslots hfits hselects
    cases pattern with
    | wildcard name =>
      rw [expand, List.map_const', ← hslots, ← List.length_map (f := Slot.ty)]
      exact fitAll_replicate env _
    | literal key => cases hselects
    | product children =>
      obtain ⟨types', hshape', hchildren⟩ := hfits
      cases hshape.symm.trans hshape'
      exact hchildren
    | variant tag children => cases hselects

theorem case_variant {variants : List (List Nat)} {tag : Nat} {types : List Nat}
    (hshape : env.shape (env.base ty) = .enum variants) (htag : variants[tag]? = some types) :
    Case env keys ty (.variant tag) types where
  down := by
    rintro value payload hvalue rfl
    obtain ⟨-, variants', types', hshape', htag', hpayload⟩ := hvalue
    cases hshape.symm.trans hshape'
    cases htag.symm.trans htag'
    exact hpayload
  up := fun payload hpayload =>
    ⟨.variant tag payload, ⟨fun _ => trivial, variants, types, hshape, htag, hpayload⟩, rfl⟩
  expands := by
    intro pattern slots hslots hfits hselects
    cases pattern with
    | wildcard name =>
      rw [expand, List.map_const', ← hslots, ← List.length_map (f := Slot.ty)]
      exact fitAll_replicate env _
    | literal key => cases hselects
    | product children => cases hselects
    | variant other children =>
      obtain ⟨variants', types', hshape', htag', hchildren⟩ := hfits
      cases hshape.symm.trans hshape'
      obtain rfl : tag = other := by simpa [Head.selects] using hselects
      cases htag.symm.trans htag'
      exact hchildren

theorem expand_scalar {pattern : CheckedPattern} {slots : List Slot} {head : Head}
    (hslots : slots.map Slot.ty = []) (hproduct : head ≠ .product)
    (hvariant : ∀ tag, head ≠ .variant tag) (hselects : head.selects pattern = true) :
    expand slots pattern = [] := by
  have hslots := List.map_eq_nil_iff.mp hslots
  cases pattern with
  | wildcard name => rw [expand, hslots, List.map_nil]
  | literal key => rfl
  | product children => exact absurd (of_decide_eq_true hselects) hproduct
  | variant tag children => exact absurd (of_decide_eq_true hselects) (hvariant tag)

theorem case_literal {key : Literal} (hkey : key.Fits (env.shape (env.base ty))) :
    Case env keys ty (.literal key) [] where
  down := by
    rintro value fields - ⟨rfl, -⟩
    trivial
  up := by
    intro fields hfields
    obtain rfl := List.length_eq_zero_iff.mp hfields.length_eq
    exact ⟨key.value, Literal.value_hasType hkey, rfl, key.equals_value⟩
  expands := by
    intro pattern slots hslots _ hselects
    rw [expand_scalar hslots (fun h => by cases h) (fun _ h => by cases h) hselects]
    trivial

theorem case_remainder {value : Value} (hvalue : value.HasType env ty)
    (hkeys : ∀ key ∈ keys, key.equals value = false) : Case env keys ty .remainder [] where
  down := by
    rintro value fields - ⟨rfl, -⟩
    trivial
  up := by
    intro fields hfields
    obtain rfl := List.length_eq_zero_iff.mp hfields.length_eq
    exact ⟨value, hvalue, rfl, hkeys⟩
  expands := by
    intro pattern slots hslots _ hselects
    rw [expand_scalar hslots (fun h => by cases h) (fun _ h => by cases h) hselects]
    trivial

end Cases

end Loom.Checking.Matching
