import Loom.Checking.PatternDecision

/-
  Splitting a column into its cases.
-/

namespace Loom.Checking.Matching

open Threaded List Nat Function

/-! ## Values of a case -/

section Cases

variable {env : Environment} {keys : List Literal} {head : Head} {types : List Nat}
  {before after fields : List Slot} {value : Slot} {index : Nat} {rebuilt : Expr}
  {rows selected : List PatternRow} {start next : Nat}

theorem typed_column {values : List Value} (h : Typed env (before ++ value :: after) values) :
    ∃ left column right, values = left ++ column :: right ∧ left.length = before.length ∧
      Typed env before left ∧ column.HasType env value.ty ∧ Typed env after right := by
  rw [Typed, map_append] at h
  obtain ⟨left, rest, rfl, hleft, hrest⟩ := Value.HaveTypes.split h
  match rest, hrest with
  | column :: right, ⟨hcolumn, hright⟩ =>
    exact ⟨left, column, right, rfl, hleft.length_eq.trans (length_map ..), hleft, hcolumn,
      hright⟩

variable {left right : List Value}

theorem typed_slots {inner : List Value} (hleft : Typed env before left)
    (hinner : Typed env fields inner) (hright : Typed env after right) :
    Typed env (before ++ fields ++ after) (left ++ inner ++ right) := by
  rw [Typed, map_append, map_append]
  exact Value.HaveTypes.append (Value.HaveTypes.append hleft hinner) hright

theorem typed_cons {column : Value} (hleft : Typed env before left)
    (hcolumn : column.HasType env value.ty) (hright : Typed env after right) :
    Typed env (before ++ value :: after) (left ++ column :: right) := by
  rw [Typed, map_append]; exact Value.HaveTypes.append hleft ⟨hcolumn, hright⟩

theorem in_column {column : Value} (hleft : left.length = before.length) :
    In keys head before.length (left ++ column :: right) ↔
      ∃ fields, head.Builds keys fields column := by
  have hget : (left ++ column :: right)[before.length]? = some column := by
    rw [← hleft]; simp
  refine ⟨?_, fun ⟨fields, h⟩ => ⟨column, fields, hget, h⟩⟩
  rintro ⟨value, fields, hvalue, h⟩
  cases hget.symm.trans hvalue
  exact ⟨fields, h⟩

variable (hcase : Case env keys value.ty head types)
  (htypes : fields.map Slot.ty = types)
  (hspec : Specialised before.length head index fields rebuilt rows selected)
  (hready : ∀ row ∈ rows, row.Ready env start next (before ++ value :: after))
  (hsees : ∀ row ∈ rows, head.Sees keys (row.pattern before.length))
include hcase htypes hspec hready hsees

theorem case_exists (Q : List (Nat × Bool) → Prop) :
    (∃ values, Typed env (before ++ fields ++ after) values ∧ Q (shape values selected)) ↔
      ∃ values, Typed env (before ++ value :: after) values ∧
        In keys head before.length values ∧ Q (shape values rows) := by
  refine ⟨?_, ?_⟩
  · rintro ⟨values, htyped, hQ⟩
    rw [Typed, map_append, map_append] at htyped
    obtain ⟨middle, right, rfl, hmiddle, hright⟩ := Value.HaveTypes.split htyped
    obtain ⟨left, inner, rfl, hleft, hinner⟩ := Value.HaveTypes.split hmiddle
    obtain ⟨column, hcolumn, hbuilds⟩ := hcase.up inner (htypes ▸ hinner)
    have hlength : left.length = before.length := hleft.length_eq.trans (length_map ..)
    refine ⟨left ++ column :: right, typed_cons hleft hcolumn hright,
      (in_column hlength).mpr ⟨inner, hbuilds⟩, ?_⟩
    rw [shape_specialised right hlength hbuilds hcase htypes (htypes ▸ hinner) hspec hready hsees]
    exact hQ
  · rintro ⟨values, htyped, hin, hQ⟩
    obtain ⟨left, column, right, rfl, hlength, hleft, hcolumn, hright⟩ := typed_column htyped
    obtain ⟨inner, hbuilds⟩ := (in_column hlength).mp hin
    have hinner := hcase.down column inner hcolumn hbuilds
    have htyped : Typed env fields inner := by
      rw [Typed, htypes]; exact hinner
    refine ⟨left ++ inner ++ right, typed_slots hleft htyped hright, ?_⟩
    rw [← shape_specialised right hlength hbuilds hcase htypes hinner hspec hready hsees]
    exact hQ

theorem planned_case {first second : PatternPlan}
    (h : Planned env selected (before ++ fields ++ after) (fun _ => True) first second) :
    Planned env rows (before ++ value :: after) (In keys head before.length) first second where
  locals := h.locals
  length := h.length
  covers := by
    intro values htyped hin
    by_contra hcovered
    obtain ⟨values, htyped, hcovered⟩ :=
      (case_exists hcase htypes hspec hready hsees (¬Covered ·)).mpr ⟨values, htyped, hin, hcovered⟩
    exact hcovered (h.covers values htyped trivial)
  used := by
    intro arm
    rw [h.used, ← case_exists hcase htypes hspec hready hsees (arm ∈ tried ·)]
    simp [true_and]

theorem failed_case {e : MatchError} (h : Failed env selected (before ++ fields ++ after) e) :
    Failed env rows (before ++ value :: after) e := by
  rcases h with rfl | ⟨rfl, values, htyped, hcovered⟩
  · exact Or.inl rfl
  · obtain ⟨values, htyped, -, hcovered⟩ :=
      (case_exists hcase htypes hspec hready hsees (¬Covered ·)).mp ⟨values, htyped, hcovered⟩
    exact Or.inr ⟨rfl, values, htyped, hcovered⟩

end Cases

/-! ## New locals -/

theorem freshSlots_types : ∀ (index : Nat) (types : List Nat),
    (freshSlots index types).map Slot.ty = types
  | _, [] => rfl
  | index, ty :: types => congrArg (ty :: ·) (freshSlots_types (index + 1) types)

theorem freshSlots_index : ∀ {index : Nat} {types : List Nat} {slot : Slot},
    slot ∈ freshSlots index types → index ≤ slot.index ∧ slot.index < index + types.length
  | index, ty :: types, slot, h => by
      rcases mem_cons.mp h with rfl | h
      · exact ⟨Nat.le_refl _, Nat.lt_add_of_pos_right (Nat.succ_pos _)⟩
      · have := freshSlots_index h
        rw [length_cons]; omega

theorem patternLocals_meets (types : List Nat) (plan : PatternPlan) (E : MatchError → Prop) :
    Meets (patternLocals types) plan
      (fun fields after => fields = freshSlots plan.locals types ∧
        after.locals = plan.locals + types.length ∧ after.used = plan.used) E := by
  refine meets_bind (meets_get (P := fun a t => a = plan ∧ t = plan) ⟨rfl, rfl⟩) ?_
  rintro current _ ⟨hcurrent, -⟩
  subst hcurrent
  exact meets_bind (meets_set (P := fun _ t => t.locals = current.locals + types.length ∧
    t.used = current.used) ⟨rfl, rfl⟩) fun _ after h => meets_pure ⟨rfl, h⟩

theorem receive_other {name : Nat} : ∀ {slots : List Slot} {values : List Value} {locals : Locals},
    (∀ slot ∈ slots, slot.index ≠ name) → receive locals slots values name = locals name
  | [], _, _, _ => rfl
  | _ :: _, [], _, _ => rfl
  | slot :: slots, _ :: _, _, h => by
      rw [receive, receive_other fun other hother => h other (.tail _ hother),
        update_of_ne (h slot (.head _)).symm]

theorem receive_holds {env : Environment} : ∀ {index : Nat} {types : List Nat}
    {values : List Value} {locals : Locals}, Value.HaveTypes env values types →
    Holds (receive locals (freshSlots index types) values) (freshSlots index types) values
  | _, [], [], _, _ => List.Forall₂.nil
  | index, ty :: types, value :: values, locals, ⟨_, h⟩ => by
      refine List.Forall₂.cons ?_ (receive_holds h)
      show receive (update locals index (some value)) _ values index = some value
      rw [receive_other fun slot hslot => ?_, update_self]
      exact ne_of_gt (freshSlots_index hslot).1

theorem projections_names {receiver : Expr} : ∀ (slots : List Slot) (position : Nat),
    (projections receiver position slots).map Let.name = slots.map Slot.index
  | [], _ => rfl
  | slot :: slots, position => congrArg (slot.index :: ·) (projections_names slots (position + 1))

/-- The initialisers of a product leave its fields in the new locals. -/
theorem projections_hold {receiver : Expr} {all : List Value} {next : Nat}
    (hreads : ∀ other ∈ receiver.reads, other < next) :
    ∀ {types : List Nat} {values : List Value} {position index : Nat} {locals : Locals},
      next ≤ index → receiver.eval locals = some (.product all) →
      all.drop position = values → types.length = values.length →
      Holds (enter locals (projections receiver position (freshSlots index types)))
        (freshSlots index types) values
  | [], [], _, _, _, _, _, _, _ => List.Forall₂.nil
  | ty :: types, value :: values, position, index, locals, hnext, heval, hdrop, hlength => by
      have hvalue : all[position]? = some value := by
        rw [← List.head?_drop, hdrop, List.head?_cons]
      have hfield : (Expr.field ty position receiver).eval locals = some value := by
        rw [Expr.eval, heval]; exact hvalue
      have heval' : receiver.eval (update locals index (some value)) =
          some (.product all) := by
        rw [← heval]
        refine Expr.eval_congr fun other hother => update_of_ne ?_ _ _
        exact Nat.ne_of_lt (Nat.lt_of_lt_of_le (hreads other hother) hnext)
      have hdrop' : all.drop (position + 1) = values := by
        rw [← drop_drop, hdrop, drop_one, tail_cons]
      rw [freshSlots, projections, enter]
      simp only [hfield]
      refine List.Forall₂.cons ?_ (projections_hold hreads (le_succ_of_le hnext) heval' hdrop'
        (succ.inj hlength))
      rw [enter_other, update_self]
      intro hmem
      rw [projections_names] at hmem
      obtain ⟨slot, hslot, hindex⟩ := mem_map.mp hmem
      exact ne_of_gt (freshSlots_index hslot).1 hindex

/-! ## Deciding one case -/

/-- Running the decision of a case, where the decision locals of its fields
hold the fields of the value. -/
def RunsCase (env : Environment) (rows : List PatternRow) (before : List Slot) (value : Slot)
    (after fields : List Slot) (keys : List Literal) (head : Head) (next : Nat)
    (decision : Decision) : Prop :=
  ∀ ⦃m : Type → Type⦄ [Monad m] ⦃β : Type⦄ (scope : Nat → List Nat)
    (guard : Nat → Locals → m Bool) (body : Nat → Locals → m β) (stuck : m β)
    (locals later : Locals) (left inner right : List Value) (built : Value),
    Typed env before left → built.HasType env value.ty → Typed env after right →
    head.Builds keys inner built →
    Holds locals (before ++ value :: after) (left ++ built :: right) →
    (∀ index < next, later index = locals index) → Holds later fields inner →
    (∀ row ∈ rows, ∀ name, name ∈ scope row.arm ↔ name ∈ row.names) →
    decision.run scope guard body stuck later =
      select guard body stuck (candidates locals (left ++ built :: right) rows)

theorem holds_column {locals : Locals} {before after : List Slot} {value : Slot}
    {left right : List Value} {built : Value} (hlength : left.length = before.length)
    (h : Holds locals (before ++ value :: after) (left ++ built :: right)) :
    Holds locals before left ∧ locals value.index = some built ∧ Holds locals after right := by
  have hleft := forall₂_take_append _ _ _ h
  have hrest := forall₂_drop_append _ _ _ h
  rw [hlength, take_left] at hleft
  rw [hlength, drop_left] at hrest
  cases hrest with
  | cons hvalue hright => exact ⟨hleft, hvalue, hright⟩

section OneCase

variable {env : Environment} {start : Nat} {keys : List Literal} {head : Head} {types : List Nat}
  {before after fields : List Slot} {value : Slot} {rebuilt : Expr} {rows : List PatternRow}
  {next : List PatternRow → List Slot → Planner Decision} {plan grown : PatternPlan}

theorem case_then {α : Type} {rest : Decision → Planner α} {P : α → PatternPlan → Prop}
    {E : MatchError → Prop} (hnext : Correct env start next)
    (hmatrix : Matrix env start rows (before ++ value :: after) plan)
    (hcase : Case env keys value.ty head types) (htypes : fields.map Slot.ty = types)
    (hsees : ∀ row ∈ rows, head.Sees keys (row.pattern before.length))
    (hgrows : Grows plan grown)
    (hfields : ∀ slot ∈ fields, plan.locals ≤ slot.index ∧ slot.index < grown.locals)
    (hreads : ∀ index ∈ rebuilt.reads, start ≤ index ∧ index < grown.locals)
    (hrebuilt : ∀ (later : Locals) (inner : List Value) (built : Value),
      head.Builds keys inner built → later value.index = some built → Holds later fields inner →
        rebuilt.eval later = some built) (borrowed : Bool) (room : Nat)
    (hE : ∀ e, Failed env rows (before ++ value :: after) e → E e)
    (h : ∀ decision done,
      Planned env rows (before ++ value :: after) (In keys head before.length) plan done →
      RunsCase env rows before value after fields keys head plan.locals decision →
        Meets (rest decision) done P E) :
    Meets (patternRows borrowed before.length head value fields rebuilt room rows >>= fun selected =>
      next selected (patternSlots (before ++ value :: after) before.length fields) >>= rest)
      grown P E := by
  refine meets_bind (meets_mono (patternRows_meets borrowed before.length head value fields rebuilt
    room rows grown) (fun _ _ => id) fun e he => hE e (givesUp_failed e he)) ?_
  rintro selected middle ⟨hspent, hspec⟩
  have hselected := ready_specialised hcase htypes hspec hmatrix.ready hgrows.1 hreads
  have hvalue : start ≤ value.index ∧ value.index < plan.locals :=
    hmatrix.slots value (mem_append_right _ (.head _))
  have hmatrix' : Matrix env start selected (before ++ fields ++ after) middle := by
    refine ⟨fun row hrow => hspent.1 ▸ (hselected row hrow).1, fun slot hslot => ?_,
      fun row hrow => ?_⟩
    · rw [hspent.1]
      rw [append_assoc, mem_append, mem_append] at hslot
      have hold : ∀ slot ∈ before ++ value :: after, start ≤ slot.index ∧
          slot.index < grown.locals := fun slot hslot =>
        ⟨(hmatrix.slots slot hslot).1, lt_of_lt_of_le (hmatrix.slots slot hslot).2 hgrows.1⟩
      rcases hslot with hslot | hslot | hslot
      · exact hold slot (mem_append_left _ hslot)
      · exact ⟨le_trans (le_trans hvalue.1 (le_of_lt hvalue.2)) (hfields slot hslot).1,
          (hfields slot hslot).2⟩
      · exact hold slot (mem_append_right _ (.tail _ hslot))
    · obtain ⟨-, origin, horigin, harm, -⟩ := hselected row hrow
      rw [harm, hspent.2.1, hgrows.2]; exact hmatrix.arms origin horigin
  have hdecided := hnext selected (before ++ fields ++ after) middle hmatrix'
  rw [patternSlots_append]
  refine meets_bind (meets_mono hdecided (fun _ _ => id) fun e he =>
    hE e (failed_case hcase htypes hspec hmatrix.ready hsees he)) ?_
  rintro decision done ⟨hplanned, hruns⟩
  refine h decision done ?_ ?_
  · exact (planned_case hcase htypes hspec hmatrix.ready hsees hplanned).after
      (hgrows.trans hspent.grows)
  · intro m _ β scope guard body stuck locals later left inner right built hleft hbuilt hright
      hbuilds hholds hlater hinner hscope
    have hlength : left.length = before.length := hleft.length_eq.trans (length_map ..)
    obtain ⟨hbefore, hcolumn, hafter⟩ := holds_column hlength hholds
    have hrebuilds : rebuilt.eval later = some built :=
      hrebuilt later inner built hbuilds (by rw [hlater _ hvalue.2, hcolumn]) hinner
    have htyped : Typed env fields inner := by
      rw [Typed, htypes]; exact hcase.down built inner hbuilt hbuilds
    have hkeep : ∀ slot ∈ before ++ value :: after, later slot.index = locals slot.index :=
      fun slot hslot => hlater _ (hmatrix.slots slot hslot).2
    have hholds' : Holds later (before ++ fields ++ after) (left ++ inner ++ right) := by
      refine rel_append (rel_append ?_ hinner) ?_
      · exact holds_congr hbefore fun slot hslot => hkeep slot (mem_append_left _ hslot)
      · exact holds_congr hafter fun slot hslot =>
          hkeep slot (mem_append_right _ (.tail _ hslot))
    rw [candidates_specialised right hlength hbuilds hcase htypes
      (hcase.down built inner hbuilt hbuilds) hspec hmatrix.ready hsees hlater hvalue.2 hcolumn hrebuilds]
    refine hruns scope guard body stuck later _ (typed_slots hleft htyped hright) trivial hholds'
      fun row hrow name => ?_
    obtain ⟨-, origin, horigin, harm, hnames⟩ := hselected row hrow
    rw [harm, hscope origin horigin, hnames.mem_iff]

end OneCase

/-! ## The three ways a column is split -/

section Splits

variable {env : Environment} {start : Nat} {before after : List Slot} {value : Slot}
  {rows : List PatternRow} {next : List PatternRow → List Slot → Planner Decision}
  {plan : PatternPlan}

theorem evalAll_slots {locals : Locals} {fields : List Slot} {values : List Value}
    (h : Holds locals fields values) : Expr.evalAll locals (fields.map .slot) = some values := by
  induction h with
  | nil => rfl
  | @cons slot value slots values hslot _ ih =>
    have heval : (Expr.slot slot).eval locals = some value := hslot
    rw [map_cons, Expr.evalAll, heval, ih]

theorem readsAll_slots {index : Nat} : ∀ {fields : List Slot},
    index ∈ Expr.readsAll (fields.map .slot) → ∃ slot ∈ fields, slot.index = index
  | slot :: fields, h => by
      rcases mem_append.mp h with h | h
      · exact ⟨slot, .head _, (mem_singleton.mp h).symm⟩
      · obtain ⟨other, hother, heq⟩ := readsAll_slots h
        exact ⟨other, .tail _ hother, heq⟩

theorem rebuilt_eval {keys : List Literal} {head : Head} {fields : List Slot} {construct : Expr}
    (reconstruct : Bool)
    (hconstruct : ∀ (later : Locals) (inner : List Value) (built : Value),
      head.Builds keys inner built → Holds later fields inner → construct.eval later = some built)
    (later : Locals) (inner : List Value) (built : Value) (hbuilds : head.Builds keys inner built)
    (hvalue : later value.index = some built) (hinner : Holds later fields inner) :
    (if reconstruct then construct else .slot value).eval later = some built := by
  cases reconstruct with
  | true => exact hconstruct later inner built hbuilds hinner
  | false => exact hvalue

theorem rebuilt_reads {start bound : Nat} (construct : Expr) (reconstruct : Bool)
    (hvalue : start ≤ value.index ∧ value.index < bound)
    (hconstruct : ∀ index ∈ construct.reads, start ≤ index ∧ index < bound) :
    ∀ index ∈ (if reconstruct then construct else Expr.slot value).reads,
      start ≤ index ∧ index < bound := by
  intro index hindex
  cases reconstruct with
  | true => exact hconstruct index hindex
  | false =>
    rw [mem_singleton.mp hindex]; exact hvalue

theorem slots_bounds {types : List Nat} {grown : PatternPlan}
    (hmatrix : Matrix env start rows (before ++ value :: after) plan)
    (hlocals : grown.locals = plan.locals + types.length) :
    (start ≤ value.index ∧ value.index < grown.locals) ∧
      (∀ slot ∈ freshSlots plan.locals types,
        plan.locals ≤ slot.index ∧ slot.index < grown.locals) ∧
      ∀ index ∈ Expr.readsAll ((freshSlots plan.locals types).map .slot),
        start ≤ index ∧ index < grown.locals := by
  have hvalue := hmatrix.slots value (mem_append_right _ (.head _))
  have hfields : ∀ slot ∈ freshSlots plan.locals types,
      plan.locals ≤ slot.index ∧ slot.index < grown.locals := fun slot hslot =>
    hlocals ▸ freshSlots_index hslot
  refine ⟨⟨hvalue.1, by omega⟩, hfields, fun index hindex => ?_⟩
  obtain ⟨slot, hslot, rfl⟩ := readsAll_slots hindex
  have := hfields slot hslot
  exact ⟨by omega, this.2⟩

theorem sees_other {keys : List Literal} {head : Head} (h : head ≠ .remainder) {column : Nat} :
    ∀ row ∈ rows, head.Sees keys (row.pattern column) := fun _ _ hhead => absurd hhead h

theorem productBlock_meets {types : List Nat} (hnext : Correct env start next)
    (hmatrix : Matrix env start rows (before ++ value :: after) plan)
    (hshape : env.shape (env.base value.ty) = .product types) {receiver : Expr}
    (hreceiver : ∀ locals : Locals, receiver.eval locals = locals value.index)
    (hreads : receiver.reads = [value.index]) (borrowed reconstruct : Bool) (room : Nat) :
    Meets (productBlock env borrowed rows (before ++ value :: after) before.length value receiver
        reconstruct room next types) plan
      (fun decision done =>
        Planned env rows (before ++ value :: after) (fun _ => True) plan done ∧
          Runs env rows (before ++ value :: after) (fun _ => True) decision)
      (Failed env rows (before ++ value :: after)) := by
  refine meets_bind (patternLocals_meets types plan _) ?_
  rintro _ grown ⟨rfl, hlocals, hused⟩
  obtain ⟨hvalue, hfields, hslots⟩ := slots_bounds hmatrix hlocals
  have hcase : Case env [] value.ty .product types := case_product hshape
  refine case_then hnext hmatrix hcase (freshSlots_types _ _) (sees_other fun h => by cases h)
    ⟨by omega, hused⟩ hfields
    (rebuilt_reads (.record (env.base value.ty) _) reconstruct hvalue hslots)
    (rebuilt_eval reconstruct fun later inner built hbuilds hinner => ?_) borrowed room
    (fun _ => id) fun decision done hplanned hruns => meets_pure ⟨?_, ?_⟩
  · obtain rfl : built = .product inner := hbuilds
    rw [Expr.eval, evalAll_slots hinner]; rfl
  · refine hplanned.congr fun values htyped => ⟨fun _ => trivial, fun _ => ?_⟩
    obtain ⟨left, column, right, rfl, hlength, -, hcolumn, -⟩ := typed_column htyped
    obtain ⟨inner, rfl, -⟩ := hcolumn.product hshape
    exact (in_column hlength).mpr ⟨inner, rfl⟩
  · intro m _ β scope guard body stuck locals values htyped _ hholds hscope
    obtain ⟨left, column, right, rfl, hlength, hleft, hcolumn, hright⟩ := typed_column htyped
    obtain ⟨inner, rfl, hinner⟩ := hcolumn.product hshape
    have hsame : ∀ index < plan.locals,
        enter locals (projections receiver 0 (freshSlots plan.locals types)) index =
          locals index := by
      intro index hindex
      refine enter_other fun hmem => ?_
      rw [projections_names] at hmem
      obtain ⟨slot, hslot, rfl⟩ := mem_map.mp hmem
      exact absurd (hfields slot hslot).1 (not_le.mpr hindex)
    have hproduct : receiver.eval locals = some (.product inner) :=
      (hreceiver locals).trans (holds_column hlength hholds).2.1
    have hbelow : ∀ other ∈ receiver.reads, other < plan.locals := by
      intro other hother
      rw [hreads] at hother
      rw [mem_singleton.mp hother]
      exact (hmatrix.slots value (mem_append_right _ (.head _))).2
    exact hruns scope guard body stuck locals _ left inner right _ hleft hcolumn hright rfl hholds
      hsame (projections_hold hbelow (le_refl _) hproduct rfl hinner.length_eq.symm) hscope

/-- Running the arms of a decision on the variants from `tag` on. -/
def RunsArms (env : Environment) (rows : List PatternRow) (before : List Slot) (value : Slot)
    (after : List Slot) (tag count : Nat) (arms : List DecisionArm) : Prop :=
  ∀ ⦃m : Type → Type⦄ [Monad m] ⦃β : Type⦄ (scope : Nat → List Nat)
    (guard : Nat → Locals → m Bool) (body : Nat → Locals → m β) (stuck : m β)
    (locals : Locals) (left payload right : List Value) (other : Nat),
    tag ≤ other → other < tag + count → Typed env before left →
    (Value.variant other payload).HasType env value.ty → Typed env after right →
    Holds locals (before ++ value :: after) (left ++ .variant other payload :: right) →
    (∀ row ∈ rows, ∀ name, name ∈ scope row.arm ↔ name ∈ row.names) →
    Decision.runArms scope guard body stuck arms other payload locals =
      select guard body stuck (candidates locals (left ++ .variant other payload :: right) rows)

theorem variantArms_meets {all : List (List Nat)} (hnext : Correct env start next)
    (hshape : env.shape (env.base value.ty) = .enum all) (borrowed reconstruct : Bool)
    (room : Nat) : ∀ (variants : List (List Nat)) (tag : Nat) (plan : PatternPlan),
      all.drop tag = variants → Matrix env start rows (before ++ value :: after) plan →
      Meets (variantArms env borrowed rows (before ++ value :: after) before.length value
          reconstruct room next tag variants) plan
        (fun arms done =>
          Planned env rows (before ++ value :: after) (fun values => ∃ other, tag ≤ other ∧
            other < tag + variants.length ∧ In [] (.variant other) before.length values) plan done ∧
            RunsArms env rows before value after tag variants.length arms)
        (Failed env rows (before ++ value :: after)) := by
  intro variants
  induction variants with
  | nil =>
    intro tag plan _ _
    refine meets_pure ⟨Planned.grows ⟨le_refl _, rfl⟩ fun values => ?_, ?_⟩
    · rintro ⟨other, hle, hlt, -⟩
      exact absurd hlt (not_lt.mpr hle)
    · intro m _ β scope guard body stuck locals left payload right other hle hlt
      exact absurd hlt (not_lt.mpr hle)
  | cons types variants ih =>
    intro tag plan hdrop hmatrix
    have htag : all[tag]? = some types := by
      rw [← List.head?_drop, hdrop, List.head?_cons]
    have hdrop' : all.drop (tag + 1) = variants := by
      rw [← drop_drop, hdrop, drop_one, tail_cons]
    refine meets_bind (patternLocals_meets types plan _) ?_
    rintro _ grown ⟨rfl, hlocals, hused⟩
    obtain ⟨hvalue, hfields, hslots⟩ := slots_bounds hmatrix hlocals
    have hcase : Case env [] value.ty (.variant tag) types := case_variant hshape htag
    refine case_then hnext hmatrix hcase (freshSlots_types _ _) (sees_other fun h => by cases h)
      ⟨by omega, hused⟩ hfields
      (rebuilt_reads (.variant (env.base value.ty) tag _) reconstruct hvalue hslots)
      (rebuilt_eval reconstruct fun later inner built hbuilds hinner => ?_) borrowed room
      (fun _ => id) fun decision middle hplanned hruns => ?_
    · obtain rfl : built = .variant tag inner := hbuilds
      rw [Expr.eval, evalAll_slots hinner]; rfl
    · refine meets_bind (ih (tag + 1) middle hdrop'
        (hmatrix.grows hplanned.locals hplanned.length)) ?_
      rintro arms done ⟨hplanned', hruns'⟩
      refine meets_pure ⟨(hplanned.then hplanned').congr fun values _ => ⟨?_, ?_⟩, ?_⟩
      · rintro (hin | ⟨other, hle, hlt, hin⟩)
        · exact ⟨tag, Nat.le_refl _, Nat.lt_add_of_pos_right (Nat.succ_pos _), hin⟩
        · exact ⟨other, le_of_succ_le hle, by rw [length_cons]; omega, hin⟩
      · rintro ⟨other, hle, hlt, hin⟩
        rw [length_cons] at hlt
        rcases eq_or_lt_of_le hle with rfl | hle
        · exact Or.inl hin
        · exact Or.inr ⟨other, hle, by omega, hin⟩
      · intro m _ β scope guard body stuck locals left payload right other hle hlt hleft hbuilt
          hright hholds hscope
        rw [length_cons] at hlt
        rw [Decision.runArms]
        rcases eq_or_lt_of_le hle with rfl | hle
        · rw [if_pos rfl]
          refine hruns scope guard body stuck locals _ left payload right _ hleft hbuilt hright rfl
            hholds (fun index hindex => receive_other fun slot hslot => ?_)
            (receive_holds (hcase.down _ _ hbuilt rfl)) hscope
          exact ne_of_gt (lt_of_lt_of_le hindex (hfields slot hslot).1)
        · rw [if_neg (Nat.ne_of_lt hle)]
          exact hruns' scope guard body stuck locals left payload right other hle (by omega) hleft
            hbuilt hright hholds hscope

end Splits

end Loom.Checking.Matching
