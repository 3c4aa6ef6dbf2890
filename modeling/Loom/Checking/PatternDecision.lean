import Loom.Checking.PatternCases

/-
  The decision of a matrix is exact.
-/

namespace Loom.Checking.Matching

open Threaded List Nat

/-! ## The matching rows, in order -/

/-- Some matching row has no guard. -/
def Covered (shape : List (Nat × Bool)) : Prop := ∃ entry ∈ shape, entry.2 = false

/-- The arms that some outcome of the guards reaches. -/
def tried : List (Nat × Bool) → List Nat
  | [] => []
  | (arm, guarded) :: rest => arm :: if guarded then tried rest else []

section Selection

variable {m : Type → Type} [Monad m] {β : Type}

/-- The first candidate whose guard succeeds. -/
def select (guard : Nat → Locals → m Bool) (body : Nat → Locals → m β) (stuck : m β) :
    List Candidate → m β
  | [] => stuck
  | candidate :: rest =>
      if candidate.guarded then do
        if ← guard candidate.arm candidate.locals then
          body candidate.arm candidate.locals
        else
          select guard body stuck rest
      else
        body candidate.arm candidate.locals

end Selection

/-- The decision locals hold the values. -/
abbrev Holds (locals : Locals) (slots : List Slot) (values : List Value) : Prop :=
  List.Forall₂ (fun slot value => locals slot.index = some value) slots values

abbrev Typed (env : Environment) (slots : List Slot) (values : List Value) : Prop :=
  Value.HaveTypes env values (slots.map Slot.ty)

/-- The value of the column is built by the constructor. -/
def In (keys : List Literal) (head : Head) (column : Nat) (values : List Value) : Prop :=
  ∃ value fields, values[column]? = some value ∧ head.Builds keys fields value

/-- What planning a decision for the values with `P` leaves behind. -/
structure Planned (env : Environment) (rows : List PatternRow) (slots : List Slot)
    (P : List Value → Prop) (before after : PatternPlan) : Prop where
  locals : before.locals ≤ after.locals
  length : after.used.length = before.used.length
  covers : ∀ values, Typed env slots values → P values → Covered (shape values rows)
  used : ∀ arm, after.used[arm]? = some true ↔ before.used[arm]? = some true ∨
    ∃ values, Typed env slots values ∧ P values ∧ arm ∈ tried (shape values rows)

/-- Running the decision selects among the rows that match. -/
def Runs (env : Environment) (rows : List PatternRow) (slots : List Slot)
    (P : List Value → Prop) (decision : Decision) : Prop :=
  ∀ ⦃m : Type → Type⦄ [Monad m] ⦃β : Type⦄ (scope : Nat → List Nat)
    (guard : Nat → Locals → m Bool) (body : Nat → Locals → m β) (stuck : m β)
    (locals : Locals) (values : List Value), Typed env slots values → P values →
    Holds locals slots values →
    (∀ row ∈ rows, ∀ name, name ∈ scope row.arm ↔ name ∈ row.names) →
    decision.run scope guard body stuck locals =
      select guard body stuck (candidates locals values rows)

def Failed (env : Environment) (rows : List PatternRow) (slots : List Slot)
    (e : MatchError) : Prop :=
  e = .exhausted ∨
    e = .nonExhaustive ∧ ∃ values, Typed env slots values ∧ ¬Covered (shape values rows)

/-- The matrices that planning meets. -/
structure Matrix (env : Environment) (start : Nat) (rows : List PatternRow) (slots : List Slot)
    (plan : PatternPlan) : Prop where
  ready : ∀ row ∈ rows, row.Ready env start plan.locals slots
  slots : ∀ slot ∈ slots, start ≤ slot.index ∧ slot.index < plan.locals
  arms : ∀ row ∈ rows, row.arm < plan.used.length

/-- Deciding is correct on every matrix. -/
def Correct (env : Environment) (start : Nat)
    (decide : List PatternRow → List Slot → Planner Decision) : Prop :=
  ∀ rows slots plan, Matrix env start rows slots plan →
    Meets (decide rows slots) plan
      (fun decision after => Planned env rows slots (fun _ => True) plan after ∧
        Runs env rows slots (fun _ => True) decision)
      (Failed env rows slots)

theorem givesUp_failed {env : Environment} {rows : List PatternRow} {slots : List Slot} :
    ∀ e, GivesUp e → Failed env rows slots e := fun _ h => Or.inl h

section Planning

variable {env : Environment} {rows : List PatternRow} {slots : List Slot}
  {P Q : List Value → Prop} {first second third : PatternPlan}

theorem holds_congr {locals later : Locals} {values : List Value}
    (hholds : Holds locals slots values)
    (h : ∀ slot ∈ slots, later slot.index = locals slot.index) : Holds later slots values := by
  induction hholds with
  | nil => exact List.Forall₂.nil
  | @cons slot value slots values hslot _ ih =>
    exact List.Forall₂.cons ((h slot (.head _)).trans hslot)
      (ih fun other hother => h other (.tail _ hother))

/-- Planning that marks no arm as used. -/
def Grows (before after : PatternPlan) : Prop :=
  before.locals ≤ after.locals ∧ after.used = before.used

theorem Spent.grows (h : Spent first second) : Grows first second := ⟨le_of_eq h.1.symm, h.2.1⟩

theorem Grows.trans (h : Grows first second) (h' : Grows second third) : Grows first third :=
  ⟨le_trans h.1 h'.1, h'.2.trans h.2⟩

theorem Matrix.grows {start : Nat} (h : Matrix env start rows slots first)
    (hlocals : first.locals ≤ second.locals) (hlength : second.used.length = first.used.length) :
    Matrix env start rows slots second where
  ready := fun row hrow => (h.ready row hrow).mono hlocals
  slots := fun slot hslot => ⟨(h.slots slot hslot).1, lt_of_lt_of_le (h.slots slot hslot).2 hlocals⟩
  arms := fun row hrow => hlength ▸ h.arms row hrow

theorem Planned.grows (h : Grows first second) (hP : ∀ values, ¬P values) :
    Planned env rows slots P first second where
  locals := h.1
  length := congrArg List.length h.2
  covers := fun values _ hvalues => absurd hvalues (hP values)
  used := by
    intro arm
    rw [h.2]
    exact ⟨Or.inl, fun h => h.elim id fun ⟨values, _, hvalues, _⟩ => absurd hvalues (hP values)⟩

theorem Planned.then (h : Planned env rows slots P first second)
    (h' : Planned env rows slots Q second third) :
    Planned env rows slots (fun values => P values ∨ Q values) first third where
  locals := le_trans h.locals h'.locals
  length := h'.length.trans h.length
  covers := fun values htyped hvalues =>
    hvalues.elim (h.covers values htyped) (h'.covers values htyped)
  used := by
    intro arm
    rw [h'.used, h.used]
    refine ⟨?_, ?_⟩
    · rintro ((harm | ⟨values, htyped, hvalues, harm⟩) | ⟨values, htyped, hvalues, harm⟩)
      · exact Or.inl harm
      · exact Or.inr ⟨values, htyped, Or.inl hvalues, harm⟩
      · exact Or.inr ⟨values, htyped, Or.inr hvalues, harm⟩
    · rintro (harm | ⟨values, htyped, hvalues | hvalues, harm⟩)
      · exact Or.inl (Or.inl harm)
      · exact Or.inl (Or.inr ⟨values, htyped, hvalues, harm⟩)
      · exact Or.inr ⟨values, htyped, hvalues, harm⟩

theorem Planned.congr (h : Planned env rows slots P first second)
    (hPQ : ∀ values, Typed env slots values → (P values ↔ Q values)) :
    Planned env rows slots Q first second where
  locals := h.locals
  length := h.length
  covers := fun values htyped hvalues => h.covers values htyped ((hPQ values htyped).mpr hvalues)
  used := by
    intro arm
    rw [h.used]
    refine or_congr_right (exists_congr fun values => ?_)
    refine and_congr_right fun htyped => ?_
    rw [hPQ values htyped]

/-- Planning may start a few steps earlier. -/
theorem Planned.after (hgrows : Grows first second)
    (h : Planned env rows slots P second third) : Planned env rows slots P first third :=
  ((Planned.grows hgrows (P := fun _ => False) fun _ => id).then h).congr fun _ _ =>
    ⟨fun h => h.elim False.elim id, Or.inr⟩

end Planning

/-! ## Leaves -/

section Leaves

variable {env : Environment} {start next : Nat} {slots : List Slot} {row : PatternRow}

theorem enter_other {name : Nat} : ∀ {lets : List Let} {locals : Locals},
    name ∉ lets.map Let.name → enter locals lets name = locals name
  | [], _, _ => rfl
  | binding :: lets, _, h => by
      rw [map_cons, mem_cons, not_or] at h
      rw [enter, enter_other h.2, Function.update_of_ne h.1]

theorem enter_append : ∀ (left right : List Let) (locals : Locals),
    enter locals (left ++ right) = enter (enter locals left) right
  | [], _, _ => rfl
  | _ :: left, right, _ => enter_append left right _

/-- Lets that read none of the names they bind hold what their values are now. -/
theorem enter_held : ∀ {lets : List Let} {locals : Locals} {name : Nat},
    (lets.map Let.name).Nodup → name ∈ lets.map Let.name →
    (∀ binding ∈ lets, ∀ index ∈ binding.value.reads, index ∉ lets.map Let.name) →
    enter locals lets name =
      held (lets.map fun binding => (binding.name, binding.value.eval locals)) name
  | binding :: lets, locals, name, hnodup, hname, hreads => by
      rw [map_cons, nodup_cons] at hnodup
      rw [enter]
      simp only [held, map_cons, lookup_cons]
      cases hsame : name == binding.name with
      | true =>
        rw [eq_of_beq hsame, enter_other hnodup.1, Function.update_self, Option.join_some]
      | false =>
        have hother : name ∈ lets.map Let.name := by
          rw [map_cons, mem_cons] at hname
          exact hname.resolve_left (beq_eq_false_iff_ne.mp hsame)
        have hlets : ∀ other ∈ lets, ∀ index ∈ other.value.reads,
            index ∉ binding.name :: lets.map Let.name := fun other hother =>
          hreads other (.tail _ hother)
        rw [enter_held hnodup.2 hother fun other hother index hindex hmem =>
          hlets other hother index hindex (.tail _ hmem)]
        have heval : lets.map (fun other => (other.name, other.value.eval
              (Function.update locals binding.name (binding.value.eval locals)))) =
            lets.map fun other => (other.name, other.value.eval locals) := by
          refine map_congr_left fun other hother => Prod.ext rfl ?_
          refine Expr.eval_congr fun index hindex => Function.update_of_ne ?_ _ _
          rintro rfl
          exact hlets other hother _ hindex (.head _)
        rw [heval]; rfl

theorem held_none {bound : List (Nat × Option Value)} {name : Nat}
    (h : name ∉ bound.map Prod.fst) : held bound name = none := by
  have : bound.lookup name = none := by
    induction bound with
    | nil => rfl
    | cons entry bound ih =>
      rw [map_cons, mem_cons, not_or] at h
      rw [lookup_cons, beq_eq_false_iff_ne.mpr h.1]; exact ih h.2
  rw [held, this]; rfl

variable {locals : Locals}

/-- The locals an arm reads after the lets that bind its names. -/
theorem restrict_enter {lets : List Let} {scope : List Nat}
    (hscope : ∀ name, name ∈ scope ↔ name ∈ lets.map Let.name) (hnodup : (lets.map Let.name).Nodup)
    (holder : ∀ name ∈ lets.map Let.name, name < start)
    (hreads : ∀ binding ∈ lets, ∀ index ∈ binding.value.reads, start ≤ index) :
    restrict scope (enter locals lets) =
      held (lets.map fun binding => (binding.name, binding.value.eval locals)) := by
  funext name
  rw [restrict]
  by_cases hname : name ∈ scope
  · rw [if_pos hname]
    refine enter_held hnodup ((hscope name).mp hname) fun binding hbinding index hindex hmem => ?_
    exact absurd (holder index hmem) (not_lt.mpr (hreads binding hbinding index hindex))
  · rw [if_neg hname]
    refine (held_none ?_).symm
    rw [map_map]; exact fun h => hname ((hscope name).mpr h)

/-- The bindings of a row whose remaining columns are irrefutable. -/
def PatternRow.lets (row : PatternRow) (slots : List Slot) : List Let :=
  row.bindings ++
    (List.zipWith (fun pattern slot => wholeBinding (.slot slot) pattern) row.patterns slots).flatten

theorem columns_names : ∀ {patterns : List CheckedPattern} {slots : List Slot},
    (∀ pattern ∈ patterns, ∃ name, pattern = .wildcard name) → patterns.length = slots.length →
    (List.zipWith (fun pattern slot => wholeBinding (.slot slot) pattern) patterns
      slots).flatten.map Let.name = CheckedPattern.namesAll patterns
  | [], [], _, _ => rfl
  | pattern :: patterns, slot :: slots, hwild, hlength => by
      obtain ⟨name, rfl⟩ := hwild pattern (.head _)
      have ih := columns_names (fun other h => hwild other (.tail _ h))
        (succ.inj hlength)
      rw [zipWith_cons_cons, flatten_cons, map_append, ih]
      cases name <;> rfl

theorem columns_value {binding : Let} : ∀ {patterns : List CheckedPattern} {slots : List Slot},
    binding ∈ (List.zipWith (fun pattern slot => wholeBinding (.slot slot) pattern) patterns
      slots).flatten → ∃ slot ∈ slots, binding.value = .slot slot
  | [], _, h => by cases h
  | _ :: _, [], h => by cases h
  | pattern :: patterns, slot :: slots, h => by
      rcases mem_append.mp h with h | h
      · exact ⟨slot, .head _, wholeBinding_value h⟩
      · obtain ⟨other, hother, hvalue⟩ := columns_value h
        exact ⟨other, .tail _ hother, hvalue⟩

theorem columns_bound : ∀ {patterns : List CheckedPattern} {slots : List Slot}
    {values : List Value}, (∀ pattern ∈ patterns, ∃ name, pattern = .wildcard name) →
    patterns.length = slots.length → Holds locals slots values →
    ∃ rest, CheckedPattern.bindAll patterns values = some rest ∧
      (List.zipWith (fun pattern slot => wholeBinding (.slot slot) pattern) patterns
        slots).flatten.map (fun binding => (binding.name, binding.value.eval locals)) =
          rest.map fun entry => (entry.1, some entry.2)
  | [], [], _, _, _, h => by
      cases h
      exact ⟨[], rfl, rfl⟩
  | pattern :: patterns, slot :: slots, _, hwild, hlength, h => by
      cases h with
      | @cons _ value _ values hvalue hvalues =>
      obtain ⟨name, rfl⟩ := hwild pattern (.head _)
      obtain ⟨rest, hrest, heval⟩ := columns_bound
        (fun other h => hwild other (.tail _ h)) (succ.inj hlength) hvalues
      have hslot : (Expr.slot slot).eval locals = some value := hvalue
      refine ⟨CheckedPattern.own name value ++ rest, ?_, ?_⟩
      · rw [CheckedPattern.bindAll, CheckedPattern.bind, hrest]
      · rw [zipWith_cons_cons, flatten_cons, map_append, map_append, heval,
          wholeBinding_eval hslot]
        rfl

theorem bindAll_wildcards : ∀ {patterns : List CheckedPattern} {values : List Value},
    (∀ pattern ∈ patterns, ∃ name, pattern = .wildcard name) → patterns.length = values.length →
    (CheckedPattern.bindAll patterns values).isSome
  | [], [], _, _ => rfl
  | pattern :: patterns, value :: values, hwild, hlength => by
      obtain ⟨name, rfl⟩ := hwild pattern (.head _)
      have ih := bindAll_wildcards (fun other h => hwild other (.tail _ h))
        (succ.inj hlength)
      obtain ⟨rest, hrest⟩ := Option.isSome_iff_exists.mp ih
      rw [CheckedPattern.bindAll, hrest]; rfl

/-- Rows read decision locals only, so older locals may change. -/
theorem candidates_congr {rows : List PatternRow} {later : Locals} {values : List Value}
    (hready : ∀ row ∈ rows, row.Ready env start next slots)
    (h : ∀ index, start ≤ index → later index = locals index) :
    candidates later values rows = candidates locals values rows := by
  induction rows with
  | nil => rfl
  | cons row rows ih =>
    have hbound : ∀ rest, row.bound later rest = row.bound locals rest := by
      intro rest
      rw [PatternRow.bound]
      congr 1
      refine map_congr_left fun binding hbinding => Prod.ext rfl ?_
      exact Expr.eval_congr fun index hindex =>
        h index ((hready row (.head _)).reads binding hbinding index hindex).1
    simp [candidates, hbound, ih fun other hother => hready other (.tail _ hother)]

variable (hready : row.Ready env start next slots) (hslots : ∀ slot ∈ slots, start ≤ slot.index)
  (hwild : ∀ pattern ∈ row.patterns, ∃ name, pattern = .wildcard name)
include hready hslots hwild

/-- The lets of a leaf bind what the row binds, and no decision local. -/
theorem PatternRow.Ready.leaf :
    (row.lets slots).map Let.name = row.names ∧
      (∀ binding ∈ row.lets slots, ∀ index ∈ binding.value.reads, start ≤ index) ∧
      ∀ (locals : Locals) (values : List Value), Holds locals slots values →
        ∃ rest, CheckedPattern.bindAll row.patterns values = some rest ∧
          (row.lets slots).map (fun binding => (binding.name, binding.value.eval locals)) =
            row.bound locals rest := by
  have hlength : row.patterns.length = slots.length :=
    hready.fits.length_eq.trans (length_map ..)
  refine ⟨?_, ?_, ?_⟩
  · rw [PatternRow.lets, map_append, columns_names hwild hlength, PatternRow.names]
  · intro binding hbinding index hindex
    rcases mem_append.mp hbinding with hbinding | hbinding
    · exact (hready.reads binding hbinding index hindex).1
    · obtain ⟨slot, hslot, hvalue⟩ := columns_value hbinding
      rw [hvalue] at hindex
      rw [mem_singleton.mp hindex]; exact hslots slot hslot
  · intro locals values hholds
    obtain ⟨rest, hrest, heval⟩ := columns_bound hwild hlength hholds
    refine ⟨rest, hrest, ?_⟩
    rw [PatternRow.lets, map_append, heval, PatternRow.bound]

theorem PatternRow.Ready.leaf_locals {scope : List Nat}
    (hscope : ∀ name, name ∈ scope ↔ name ∈ row.names) {lets : List Let}
    (hlets : lets.Perm (row.lets slots)) {values : List Value} (hholds : Holds locals slots values) :
    ∃ rest, CheckedPattern.bindAll row.patterns values = some rest ∧
      restrict scope (enter locals lets) = held (row.bound locals rest) := by
  obtain ⟨hnames, hreads, hbound⟩ := hready.leaf hslots hwild
  obtain ⟨rest, hrest, heval⟩ := hbound locals values hholds
  have hperm : (lets.map Let.name).Perm row.names := hnames ▸ hlets.map Let.name
  have hnodup : (lets.map Let.name).Nodup := hperm.nodup_iff.mpr hready.nodup
  refine ⟨rest, hrest, ?_⟩
  calc restrict scope (enter locals lets)
      = held (lets.map fun binding => (binding.name, binding.value.eval locals)) :=
        restrict_enter (fun name => (hscope name).trans hperm.mem_iff.symm) hnodup
          (fun name hname => hready.older name (hperm.mem_iff.mp hname))
          fun binding hbinding => hreads binding (hlets.mem_iff.mp hbinding)
    _ = held (row.bound locals rest) := by
        rw [← heval]
        refine held_perm (hlets.map _) ?_
        rw [map_map]; exact hnodup

end Leaves

/-- The first row of a matrix wins. -/
structure Irrefutable (env : Environment) (start next : Nat) (slots : List Slot)
    (row : PatternRow) : Prop where
  ready : row.Ready env start next slots
  wild : ∀ pattern ∈ row.patterns, ∃ name, pattern = .wildcard name

section FirstRow

variable {env : Environment} {start : Nat} {slots : List Slot} {row : PatternRow}
  {rest : List PatternRow} {plan after : PatternPlan}

variable {next : Nat}

theorem shape_irrefutable (h : Irrefutable env start next slots row) {values : List Value}
    (htyped : Typed env slots values) :
    shape values (row :: rest) = (row.arm, row.guard.isSome) :: shape values rest := by
  have hlength : row.patterns.length = values.length := by
    rw [h.ready.fits.length_eq, htyped.length_eq]
  rw [shape, if_pos (bindAll_wildcards h.wild hlength)]

theorem used_set {used : List Bool} {arm : Nat} (harm : arm < used.length) (other : Nat) :
    (used.set arm true)[other]? = some true ↔ used[other]? = some true ∨ other = arm := by
  by_cases h : arm = other
  · subst h; simp [harm]
  · simp [h, Ne.symm h]

theorem patternBindings_meets (row : PatternRow) (slots : List Slot) (plan : PatternPlan)
    (E : MatchError → Prop) :
    Meets (patternBindings row slots) plan
      (fun lets after => lets = row.lets slots ∧ after.locals = plan.locals ∧
        after.used = plan.used.set row.arm true) E := by
  refine meets_bind (meets_get (P := fun a t => a = plan ∧ t = plan) ⟨rfl, rfl⟩) ?_
  rintro current _ ⟨hcurrent, -⟩
  subst hcurrent
  exact meets_bind (meets_set (P := fun _ t => t.locals = current.locals ∧
    t.used = current.used.set row.arm true) ⟨rfl, rfl⟩) fun _ after h => meets_pure ⟨rfl, h⟩

theorem planned_leaf (inhabited : ∀ ty, ∃ value : Value, value.HasType env ty)
    (h : Irrefutable env start plan.locals slots row) (hguard : row.guard = none)
    (harm : row.arm < plan.used.length) (hlocals : after.locals = plan.locals)
    (hused : after.used = plan.used.set row.arm true) :
    Planned env (row :: rest) slots (fun _ => True) plan after where
  locals := le_of_eq hlocals.symm
  length := by rw [hused, length_set]
  covers := by
    intro values htyped _
    rw [shape_irrefutable h htyped, hguard]; exact ⟨_, .head _, rfl⟩
  used := by
    intro arm
    rw [hused, used_set harm]
    refine or_congr_right ⟨fun heq => ?_, ?_⟩
    · obtain ⟨values, htyped⟩ := Value.exists_haveTypes inhabited (slots.map Slot.ty)
      refine ⟨values, htyped, trivial, ?_⟩
      rw [shape_irrefutable h htyped, heq]; exact .head _
    · rintro ⟨values, htyped, -, hmem⟩
      rw [shape_irrefutable h htyped, hguard] at hmem
      exact mem_singleton.mp hmem

theorem runs_leaf (h : Irrefutable env start plan.locals slots row)
    (hslots : ∀ slot ∈ slots, start ≤ slot.index) (hguard : row.guard = none) :
    Runs env (row :: rest) slots (fun _ => True) (.block (row.lets slots) (.body row.arm)) := by
  intro m _ β scope guard body stuck locals values htyped _ hholds hscope
  obtain ⟨bound, hbound, hlocals⟩ := h.ready.leaf_locals hslots h.wild
    (hscope row (.head _)) (List.Perm.refl _) hholds
  rw [candidates, hbound, hguard, Decision.run, Decision.run, hlocals]; rfl

/-- A guarded irrefutable row is tried ahead of the rest of the matrix. -/
theorem planned_guarded (inhabited : ∀ ty, ∃ value : Value, value.HasType env ty)
    {middle : PatternPlan} (h : Irrefutable env start plan.locals slots row)
    (hguard : row.guard.isSome) (harm : row.arm < plan.used.length)
    (hlocals : middle.locals = plan.locals) (hused : middle.used = plan.used.set row.arm true)
    (hrest : Planned env rest slots (fun _ => True) middle after) :
    Planned env (row :: rest) slots (fun _ => True) plan after where
  locals := le_trans (le_of_eq hlocals.symm) hrest.locals
  length := by rw [hrest.length, hused, length_set]
  covers := by
    intro values htyped _
    obtain ⟨entry, hentry, hnone⟩ := hrest.covers values htyped trivial
    rw [shape_irrefutable h htyped]; exact ⟨entry, .tail _ hentry, hnone⟩
  used := by
    intro arm
    rw [hrest.used, hused, used_set harm, or_assoc]
    refine or_congr_right ⟨?_, ?_⟩
    · rintro (heq | ⟨values, htyped, -, hmem⟩)
      · obtain ⟨values, htyped⟩ := Value.exists_haveTypes inhabited (slots.map Slot.ty)
        refine ⟨values, htyped, trivial, ?_⟩
        rw [shape_irrefutable h htyped, heq]; exact .head _
      · refine ⟨values, htyped, trivial, ?_⟩
        rw [shape_irrefutable h htyped, hguard, tried]; exact .tail _ hmem
    · rintro ⟨values, htyped, -, hmem⟩
      rw [shape_irrefutable h htyped, hguard, tried] at hmem
      rcases mem_cons.mp hmem with heq | hmem
      · exact Or.inl heq
      · exact Or.inr ⟨values, htyped, trivial, hmem⟩

theorem failed_guarded {e : MatchError} (h : Irrefutable env start next slots row)
    (hguard : row.guard.isSome) (hrest : Failed env rest slots e) :
    Failed env (row :: rest) slots e := by
  rcases hrest with rfl | ⟨rfl, values, htyped, hcovered⟩
  · exact Or.inl rfl
  · refine Or.inr ⟨rfl, values, htyped, ?_⟩
    rw [shape_irrefutable h htyped]
    rintro ⟨entry, hentry, hnone⟩
    rcases mem_cons.mp hentry with rfl | hentry
    · rw [hguard] at hnone
      cases hnone
    · exact hcovered ⟨entry, hentry, hnone⟩

theorem runs_guarded (h : Irrefutable env start next slots row)
    (hrows : ∀ other ∈ rest, other.Ready env start next slots)
    (hslots : ∀ slot ∈ slots, start ≤ slot.index) (hguard : row.guard.isSome)
    {before transfers : List Let} (hlets : (before ++ transfers).Perm (row.lets slots))
    {fallback : Decision} (hrest : Runs env rest slots (fun _ => True) fallback) :
    Runs env (row :: rest) slots (fun _ => True)
      (.block before (.guarded row.arm transfers (.block transfers (.body row.arm)) fallback)) := by
  intro m _ β scope guard body stuck locals values htyped _ hholds hscope
  obtain ⟨bound, hbound, hlocals⟩ := h.ready.leaf_locals hslots h.wild
    (hscope row (.head _)) hlets hholds
  -- the bindings made ahead of the guard are older than every decision local
  have hbefore : ∀ index, start ≤ index → enter locals before index = locals index := by
    intro index hindex
    refine enter_other fun hmem => ?_
    have hname : index ∈ (row.lets slots).map Let.name :=
      (hlets.map Let.name).mem_iff.mp (by rw [map_append]; exact mem_append_left _ hmem)
    rw [(h.ready.leaf hslots h.wild).1] at hname
    exact absurd (h.ready.older index hname) (not_lt.mpr hindex)
  have hholds' : Holds (enter locals before) slots values :=
    holds_congr hholds fun slot hslot => hbefore slot.index (hslots slot hslot)
  have hno := hrest scope guard body stuck (enter locals before) values htyped trivial hholds'
    fun other hother => hscope other (.tail _ hother)
  rw [candidates_congr hrows hbefore] at hno
  rw [candidates, hbound]
  simp [select, Decision.run, hguard, ← enter_append, hlocals, hno]

end FirstRow

end Loom.Checking.Matching
