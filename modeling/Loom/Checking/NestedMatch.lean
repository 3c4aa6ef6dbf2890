import Loom.Library.Results
import Loom.Checking.PatternScalars

/-
  Nested matches compile to exact decisions.

  Refinements count all the values of their bases here: the compiler looks at
  base types only (`refined_patterns_preserve_base_coverage_and_nominal_identity`
  rejects a match that covers the values of a refinement but not of its base),
  and `base_coverage_rejects` is such a match.

  The decision of a match runs the body of the first arm whose pattern matches
  and whose guard succeeds, with its bindings; unless the budget runs out, a match
  is rejected as non-exhaustive exactly when some value is matched by no arm without
  a guard, and, where none is, for an unreachable arm exactly when no value reaches
  that arm and some value reaches every arm before it.
-/

namespace Loom.Checking.Matching

open Threaded List Nat

section Levels

variable {env : Environment} {start : Nat}

theorem split_getElem {α : Type} : ∀ {values : List α} {column : Nat} {value : α},
    values[column]? = some value →
      ∃ before after, values = before ++ value :: after ∧ before.length = column
  | other :: values, 0, value, h => by
      cases h
      exact ⟨[], values, rfl, rfl⟩
  | other :: values, column + 1, value, h => by
      have htail : values[column]? = some value := h
      obtain ⟨before, after, rfl, hlength⟩ := split_getElem htail
      exact ⟨other :: before, after, rfl, congrArg (· + 1) hlength⟩

/-- The first row is irrefutable, or its first other column is to be split. -/
theorem first_column (patterns : List CheckedPattern) :
    (∀ pattern ∈ patterns, ∃ name, pattern = .wildcard name) ∧
        patterns[patterns.findIdx (!·.irrefutable)]? = none ∨
      ∃ pattern, patterns[patterns.findIdx (!·.irrefutable)]? =
          some pattern ∧ ∀ name, pattern ≠ .wildcard name := by
  by_cases hlt : patterns.findIdx (!·.irrefutable) < patterns.length
  · refine Or.inr ⟨_, getElem?_eq_getElem hlt, fun name hname => ?_⟩
    have := findIdx_getElem (w := hlt)
    rw [hname] at this
    cases this
  · refine Or.inl ⟨fun pattern hpattern => ?_, getElem?_eq_none (not_lt.mp hlt)⟩
    cases pattern with
    | wildcard name => exact ⟨name, rfl⟩
    | literal key => exact absurd (findIdx_lt_length_of_exists ⟨_, hpattern, rfl⟩) hlt
    | product children => exact absurd (findIdx_lt_length_of_exists ⟨_, hpattern, rfl⟩) hlt
    | variant tag children => exact absurd (findIdx_lt_length_of_exists ⟨_, hpattern, rfl⟩) hlt

mutual
theorem guardView_meets : ∀ (guard : Guard) (room : Nat) (plan : PatternPlan),
    Meets (guardView guard room) plan (fun _ after => Spent plan after) GivesUp
  | .node children, room, plan => by
      refine step_then (fun _ => id) fun middle hspent => ?_
      exact meets_mono (guardViews_meets children (room - 1) middle)
        (fun _ _ h => hspent.trans h) fun _ => id

theorem guardViews_meets : ∀ (guards : List Guard) (room : Nat) (plan : PatternPlan),
    Meets (guardViews guards room) plan (fun _ after => Spent plan after) GivesUp
  | [], _, plan => meets_pure (Spent.refl plan)
  | guard :: guards, room, plan => by
      refine meets_bind (guardView_meets guard room plan) fun _ middle hspent => ?_
      exact meets_mono (guardViews_meets guards room middle) (fun _ _ h => hspent.trans h)
        fun _ => id
end

theorem guardedLeaf_meets (row : PatternRow) (guard : Guard) (bindings : List Let)
    (fallback : Decision) (room : Nat) (plan : PatternPlan) :
    Meets (guardedLeaf env row guard bindings fallback room) plan
      (fun decision after => Spent plan after ∧ ∃ before transfers : List Let,
        (before ++ transfers).Perm bindings ∧
          decision = .block before
            (.guarded row.arm transfers (.block transfers (.body row.arm)) fallback))
      GivesUp := by
  have hperm : (bindings.filter (fun binding => !env.taskValue binding.value.ty) ++
      bindings.filter fun binding => env.taskValue binding.value.ty).Perm bindings :=
    perm_append_comm.trans (filter_append_perm _ bindings)
  refine meets_ite (fun _ => meets_pure ⟨Spent.refl plan, _, _, hperm, rfl⟩) fun _ => ?_
  exact meets_bind (guardView_meets guard room plan) fun _ after hspent =>
    meets_pure ⟨hspent, _, _, hperm, rfl⟩

variable (inhabited : ∀ ty, ∃ value : Value, value.HasType env ty)
  {next deeper : List PatternRow → List Slot → Planner Decision}

include inhabited in
theorem leaf_correct (hnext : Correct env start next) {row : PatternRow} {rest : List PatternRow}
    {slots : List Slot} {plan : PatternPlan} (hmatrix : Matrix env start (row :: rest) slots plan)
    (hwild : ∀ pattern ∈ row.patterns, ∃ name, pattern = .wildcard name) (room : Nat) :
    Meets (patternLeaf env room next row rest slots) plan
      (fun decision after => Planned env (row :: rest) slots (fun _ => True) plan after ∧
        Runs env (row :: rest) slots (fun _ => True) decision)
      (Failed env (row :: rest) slots) := by
  have hrow : Irrefutable env start plan.locals slots row :=
    ⟨hmatrix.ready row mem_cons_self, hwild⟩
  have hslots : ∀ slot ∈ slots, start ≤ slot.index := fun slot hslot => (hmatrix.slots slot hslot).1
  have harm := hmatrix.arms row mem_cons_self
  refine meets_bind (patternBindings_meets row slots plan _) ?_
  rintro _ first ⟨rfl, hlocals, hused⟩
  cases hguard : row.guard with
  | none =>
    exact meets_pure ⟨planned_leaf inhabited hrow hguard harm hlocals hused,
      runs_leaf hrow hslots hguard⟩
  | some guard =>
    have hsome : row.guard.isSome := by rw [hguard]; rfl
    have hrest : Matrix env start rest slots first :=
      { ready := fun other hother => hlocals ▸ hmatrix.ready other (mem_cons_of_mem _ hother)
        slots := fun slot hslot => hlocals ▸ hmatrix.slots slot hslot
        arms := fun other hother => by
          rw [hused, length_set]
          exact hmatrix.arms other (mem_cons_of_mem _ hother) }
    refine meets_bind (meets_mono (hnext rest slots first hrest) (fun _ _ => id) fun e he =>
      failed_guarded hrow hsome he) ?_
    rintro fallback second ⟨hplanned, hruns⟩
    refine meets_mono (guardedLeaf_meets row guard _ fallback (room - 1) second) ?_ givesUp_failed
    rintro decision third ⟨hspent, before, transfers, hlets, rfl⟩
    have hready : ∀ other ∈ rest, other.Ready env start plan.locals slots := fun other hother =>
      hmatrix.ready other (mem_cons_of_mem _ hother)
    have hgrown : Planned env rest slots (fun _ => True) first third :=
      (hplanned.then (Planned.grows hspent.grows (P := fun _ => False) fun _ => id)).congr
        fun _ _ => ⟨fun _ => trivial, Or.inl⟩
    exact ⟨planned_guarded inhabited hrow hsome harm hlocals hused hgrown,
      runs_guarded hrow hready hslots hsome hlets hruns⟩

theorem split_correct (hnext : Correct env start next) (hdeeper : Correct env start deeper)
    {before after : List Slot} {value : Slot} {row : PatternRow} {rest : List PatternRow}
    {plan : PatternPlan} (hmatrix : Matrix env start (row :: rest) (before ++ value :: after) plan)
    {pattern : CheckedPattern} (hpattern : row.patterns[before.length]? = some pattern)
    (hsplit : ∀ name, pattern ≠ .wildcard name) (borrowed : Bool) (room : Nat) :
    Meets (patternSplit env borrowed room next deeper (row :: rest) (before ++ value :: after)
        before.length value pattern) plan
      (fun decision done =>
        Planned env (row :: rest) (before ++ value :: after) (fun _ => True) plan done ∧
          Runs env (row :: rest) (before ++ value :: after) (fun _ => True) decision)
      (Failed env (row :: rest) (before ++ value :: after)) := by
  obtain ⟨one, column, two, hpatterns, hone, -, hfits, -⟩ :=
    columns_split (hmatrix.ready row (.head _)).fits
  obtain rfl : column = pattern := by
    rw [hpatterns, ← hone] at hpattern
    simpa using hpattern
  have hreceiver : ∀ locals : Locals, (if env.base value.ty = value.ty then Expr.slot value
      else .coerce (env.base value.ty) (.slot value)).eval locals = locals value.index := by
    intro locals
    split <;> rfl
  have hreads : (if env.base value.ty = value.ty then Expr.slot value
      else .coerce (env.base value.ty) (.slot value)).reads = [value.index] := by
    split <;> rfl
  cases column with
  | wildcard name => exact absurd rfl (hsplit name)
  | literal key => exact literalDecision_meets hdeeper hmatrix hfits borrowed (room - 1)
  | product children =>
    obtain ⟨types, hshape, -⟩ := hfits
    simp only [patternSplit, hshape]
    exact productBlock_meets hnext hmatrix hshape hreceiver hreads borrowed _ (room - 1)
  | variant tag children =>
    obtain ⟨variants, types, hshape, htag, -⟩ := hfits
    have hsome : variants.isEmpty = false := by
      cases variants with
      | nil => cases htag
      | cons first others => rfl
    simp only [patternSplit, hshape, hsome]
    refine meets_bind (variantArms_meets hnext hshape borrowed _ (room - 1) variants 0 plan rfl
      hmatrix) ?_
    rintro arms done ⟨hplanned, hruns⟩
    refine meets_pure ⟨hplanned.congr fun values htyped => ⟨fun _ => trivial, fun _ => ?_⟩, ?_⟩
    · obtain ⟨left, built, right, rfl, hlength, -, hbuilt, -⟩ := typed_column htyped
      obtain ⟨tag, types, payload, rfl, htag, -⟩ := hbuilt.enum hshape
      refine ⟨tag, zero_le _, ?_, (in_column hlength).mpr ⟨payload, rfl⟩⟩
      rw [zero_add]; exact (List.getElem?_eq_some_iff.mp htag).1
    · intro m _ β scope guard body stuck locals values htyped _ hholds hscope
      obtain ⟨left, built, right, rfl, hlength, hleft, hbuilt, hright⟩ := typed_column htyped
      obtain ⟨tag, types, payload, rfl, htag, -⟩ := hbuilt.enum hshape
      rw [Decision.run, hreceiver, (holds_column hlength hholds).2.1]
      refine hruns scope guard body stuck locals left payload right tag (zero_le _) ?_ hleft
        hbuilt hright hholds hscope
      rw [zero_add]; exact (List.getElem?_eq_some_iff.mp htag).1

include inhabited in
theorem patternLevel_correct (hnext : Correct env start next) (hdeeper : Correct env start deeper)
    (borrowed : Bool) (room : Nat) :
    Correct env start (patternLevel env borrowed room next deeper) := by
  intro rows slots plan hmatrix
  refine step_then givesUp_failed fun middle hspent => ?_
  have hmatrix := hmatrix.grows hspent.grows.1 (congrArg length hspent.2.1)
  have hplanned : ∀ (decision : Decision) (after : PatternPlan),
      Planned env rows slots (fun _ => True) middle after ∧
        Runs env rows slots (fun _ => True) decision →
      Planned env rows slots (fun _ => True) plan after ∧
        Runs env rows slots (fun _ => True) decision :=
    fun _ _ h => ⟨h.1.after hspent.grows, h.2⟩
  refine meets_mono ?_ hplanned fun _ => id
  cases rows with
  | nil =>
    obtain ⟨values, htyped⟩ := Value.exists_haveTypes inhabited (slots.map Slot.ty)
    refine meets_throw (Or.inr ⟨rfl, values, htyped, ?_⟩)
    rintro ⟨entry, hentry, -⟩
    cases hentry
  | cons row rest =>
    rcases first_column row.patterns with ⟨hwild, hnone⟩ | ⟨pattern, hpattern, hsplit⟩
    · simp only [hnone]; exact leaf_correct inhabited hnext hmatrix hwild room
    · have hlength : row.patterns.length = slots.length :=
        (hmatrix.ready row mem_cons_self).fits.length_eq.trans (length_map ..)
      obtain ⟨value, hvalue⟩ : ∃ value,
          slots[row.patterns.findIdx (!·.irrefutable)]? = some value := by
        refine ⟨_, getElem?_eq_getElem ?_⟩
        rw [← hlength]; exact (List.getElem?_eq_some_iff.mp hpattern).1
      obtain ⟨before, after, rfl, hcolumn⟩ := split_getElem hvalue
      simp only [hpattern, hvalue]
      rw [← hcolumn] at hpattern ⊢
      exact split_correct hnext hdeeper hmatrix hpattern hsplit borrowed room

theorem exhausted_correct : Correct env start fun _ _ => throw .exhausted :=
  fun _ _ _ _ => meets_throw (Or.inl rfl)

include inhabited in
theorem patternDecision_correct (borrowed : Bool) :
    ∀ room, Correct env start (patternDecision env borrowed room)
  | 0 => exhausted_correct
  | 1 => patternLevel_correct inhabited exhausted_correct exhausted_correct borrowed 1
  | room + 2 =>
      patternLevel_correct inhabited (patternDecision_correct borrowed (room + 1))
        (patternDecision_correct borrowed room) borrowed (room + 2)

end Levels

/-! ## From arms to rows -/

/-- An arm checked against the type of the subject: its pattern fits, and binds
locals of its own that are older than the match. -/
structure Arm.Checked (env : Environment) (ty locals : Nat) (arm : Arm) : Prop where
  fits : arm.pattern.Fits env ty
  nodup : arm.pattern.names.Nodup
  older : ∀ name ∈ arm.pattern.names, name < locals

section Arms

variable {value : Value}

theorem bindAll_single (pattern : CheckedPattern) (value : Value) :
    CheckedPattern.bindAll [pattern] [value] = pattern.bind value := by
  rw [CheckedPattern.bindAll]
  cases pattern.bind value with
  | none => rfl
  | some bound => exact congrArg some (append_nil bound)

theorem shape_matchRows (index : Nat) (arm : Arm) (arms : List Arm) :
    shape [value] (matchRows index (arm :: arms)) =
      if (arm.pattern.bind value).isSome then
        (index, arm.guard.isSome) :: shape [value] (matchRows (index + 1) arms)
      else
        shape [value] (matchRows (index + 1) arms) := by
  rw [matchRows, shape, bindAll_single]

theorem select_matchRows {m : Type → Type} [Monad m] {β : Type} (guard : Nat → Locals → m Bool)
    (body : Nat → Locals → m β) (stuck : m β) (locals : Locals) (arms : List Arm) :
    ∀ index, select guard body stuck (candidates locals [value] (matchRows index arms)) =
      firstMatch guard body stuck value index arms := by
  induction arms with
  | nil => exact fun _ => rfl
  | cons arm arms ih =>
    intro index
    rw [matchRows, candidates, bindAll_single, firstMatch]
    cases hbind : arm.pattern.bind value with
    | none => exact ih (index + 1)
    | some bound =>
      have hlocals : held (PatternRow.bound ⟨[arm.pattern], [], arm.guard, index⟩ locals bound) =
          reading bound := held_some bound
      simp only [hlocals, select, ih]
      cases arm.guard <;> rfl

theorem covered_matchRows (arms : List Arm) :
    ∀ index, Covered (shape [value] (matchRows index arms)) ↔ Matched arms value := by
  induction arms with
  | nil => simp [matchRows, shape, Covered, Matched]
  | cons arm arms ih =>
    intro index
    rw [shape_matchRows]
    simp only [Covered, Matched] at ih ⊢
    cases hbind : arm.pattern.bind value <;> simp [hbind, ih]

/-- An arm that the rows try is selected when its guard alone succeeds. -/
theorem tried_selected (arms : List Arm) (arm : Nat) : ∀ index,
    arm ∈ tried (shape [value] (matchRows index arms)) →
      firstMatch (m := Id) (fun index _ => decide (index = arm)) (fun index _ => some index) none
        value index arms = some arm := by
  induction arms with
  | nil => intro index h; cases h
  | cons first arms ih =>
    intro index
    rw [shape_matchRows, firstMatch]
    cases first.pattern.bind value with
    | none => exact ih (index + 1)
    | some bound =>
      simp only [Option.isSome_some, if_true, tried, mem_cons]
      cases first.guard with
      | none =>
        rintro (rfl | h)
        · rfl
        · cases h
      | some guard =>
        intro h
        show (if decide (index = arm) = true then some index else firstMatch (m := Id) _ _ none
          value (index + 1) arms) = some arm
        by_cases heq : index = arm
        · rw [if_pos (decide_eq_true heq), heq]
        · rw [if_neg (by simp [heq])]
          exact ih (index + 1) (h.resolve_left (Ne.symm heq))

/-- An arm that some outcome of the guards selects is one the rows try. -/
theorem selected_tried (arms : List Arm) (arm : Nat) (outcome : Nat → Bool) : ∀ index,
    firstMatch (m := Id) (fun index _ => outcome index) (fun index _ => some index) none
      value index arms = some arm →
      arm ∈ tried (shape [value] (matchRows index arms)) := by
  induction arms with
  | nil => intro index h; cases h
  | cons first arms ih =>
    intro index
    rw [shape_matchRows, firstMatch]
    cases first.pattern.bind value with
    | none => exact ih (index + 1)
    | some bound =>
      simp only [Option.isSome_some, if_true, tried, mem_cons]
      cases first.guard with
      | none => exact fun h => Or.inl (Option.some.inj h).symm
      | some guard =>
        show (if outcome index = true then some index else firstMatch (m := Id) _ _ none
          value (index + 1) arms) = some arm → _
        intro h
        cases houtcome : outcome index with
        | true =>
          rw [houtcome] at h; exact Or.inl (Option.some.inj h).symm
        | false =>
          rw [houtcome] at h; exact Or.inr (ih (index + 1) h)

theorem tried_reaches (arms : List Arm) (arm : Nat) :
    arm ∈ tried (shape [value] (matchRows 0 arms)) ↔ Reaches arms value arm :=
  ⟨fun h => ⟨_, tried_selected arms arm 0 h⟩, fun ⟨outcome, h⟩ =>
    selected_tried arms arm outcome 0 h⟩

theorem matchRows_row (arms : List Arm) : ∀ index, ∀ row ∈ matchRows index arms,
    ∃ position arm, arms[position]? = some arm ∧
      row = ⟨[arm.pattern], [], arm.guard, index + position⟩ := by
  induction arms with
  | nil => intro index row h; cases h
  | cons first arms ih =>
    intro index row h
    rcases mem_cons.mp h with rfl | h
    · exact ⟨0, first, rfl, rfl⟩
    · obtain ⟨position, arm, harm, rfl⟩ := ih (index + 1) row h
      refine ⟨position + 1, arm, harm, ?_⟩
      rw [add_assoc, add_comm 1]

end Arms

/-! ## The match -/

section Match

variable {env : Environment} {ty locals : Nat} {arms : List Arm}

theorem whole_budget : 4096 ≤ 4096 := le_refl _

/-- The plan a match starts from. -/
def initialPlan (arms : List Arm) (locals : Nat) : PatternPlan :=
  { budget := 4096, used := arms.map fun _ => false, locals := locals + 1
    bounded := whole_budget }

theorem matrix_initial (hchecked : ∀ arm ∈ arms, arm.Checked env ty locals) :
    Matrix env locals (matchRows 0 arms) [⟨locals, ty⟩] (initialPlan arms locals) where
  ready := by
    intro row hrow
    obtain ⟨position, arm, harm, rfl⟩ := matchRows_row arms 0 row hrow
    have h := hchecked arm (mem_of_getElem? harm)
    have hnames : PatternRow.names ⟨[arm.pattern], [], arm.guard, 0 + position⟩ =
        arm.pattern.names := append_nil _
    refine ⟨⟨h.fits, trivial⟩, ?_, ?_, fun binding hbinding => by cases hbinding⟩
    · rw [hnames]; exact h.nodup
    · rw [hnames]; exact h.older
  slots := by
    intro slot hslot
    rw [mem_singleton.mp hslot]; exact ⟨le_refl _, lt_succ_self _⟩
  arms := by
    intro row hrow
    obtain ⟨position, arm, harm, rfl⟩ := matchRows_row arms 0 row hrow
    have := (List.getElem?_eq_some_iff.mp harm).1
    simp only [initialPlan, length_map, zero_add]; exact this

/-- What planning a match gives, apart from the last check of its arms. -/
theorem decision_correct (inhabited : ∀ ty, ∃ value : Value, value.HasType env ty)
    (borrowed : Bool) (hchecked : ∀ arm ∈ arms, arm.Checked env ty locals) :
    Meets (patternDecision env borrowed 64 (matchRows 0 arms) [⟨locals, ty⟩])
      (initialPlan arms locals)
      (fun decision after => (∀ value : Value, value.HasType env ty → Matched arms value) ∧
        after.used.length = arms.length ∧
        (∀ arm, after.used[arm]? = some true ↔
          ∃ value : Value, value.HasType env ty ∧ Reaches arms value arm) ∧
        Runs env (matchRows 0 arms) [⟨locals, ty⟩] (fun _ => True) decision)
      (fun e => e = .exhausted ∨
        e = .nonExhaustive ∧ ∃ value : Value, value.HasType env ty ∧ ¬Matched arms value) := by
  have htyped : ∀ values, Typed env [⟨locals, ty⟩] values →
      ∃ value : Value, values = [value] ∧ value.HasType env ty
    | [value], h => ⟨value, rfl, h.1⟩
    | [], h => False.elim h
    | _ :: _ :: _, h => False.elim h.2
  refine meets_mono (patternDecision_correct inhabited borrowed 64 _ _ _ (matrix_initial hchecked))
    ?_ ?_
  · rintro decision after ⟨hplanned, hruns⟩
    refine ⟨fun value hvalue => ?_, ?_, fun arm => ?_, hruns⟩
    · exact (covered_matchRows arms 0).mp (hplanned.covers [value] ⟨hvalue, trivial⟩ trivial)
    · rw [hplanned.length, initialPlan, length_map]
    · have hbefore : (initialPlan arms locals).used[arm]? ≠ some true := by
        intro h
        obtain ⟨other, -, hother⟩ := mem_map.mp (mem_of_getElem? h)
        cases hother
      rw [hplanned.used]
      refine ⟨?_, ?_⟩
      · rintro (h | ⟨values, hvalues, -, h⟩)
        · exact absurd h hbefore
        · obtain ⟨value, rfl, hvalue⟩ := htyped values hvalues
          exact ⟨value, hvalue, (tried_reaches arms arm).mp h⟩
      · rintro ⟨value, hvalue, h⟩
        exact Or.inr ⟨[value], ⟨hvalue, trivial⟩, trivial, (tried_reaches arms arm).mpr h⟩
  · rintro e (rfl | ⟨rfl, values, hvalues, hcovered⟩)
    · exact Or.inl rfl
    · obtain ⟨value, rfl, hvalue⟩ := htyped values hvalues
      exact Or.inr ⟨rfl, value, hvalue, fun h => hcovered ((covered_matchRows arms 0).mpr h)⟩

variable {borrowed : Bool} {decision : Decision}

theorem nestedMatch_error {e : MatchError}
    (h : patternDecision env borrowed 64 (matchRows 0 arms) [⟨locals, ty⟩]
      (initialPlan arms locals) = .error e) :
    nestedMatch env borrowed ty arms locals = .error e := by
  unfold initialPlan at h
  simp only [nestedMatch, h]; rfl

theorem nestedMatch_unused {after : PatternPlan} {arm : Nat}
    (h : patternDecision env borrowed 64 (matchRows 0 arms) [⟨locals, ty⟩]
      (initialPlan arms locals) = .ok (decision, after))
    (hunused : after.used.findIdx? (!·) = some arm) :
    nestedMatch env borrowed ty arms locals = .error (.unreachable arm) := by
  unfold initialPlan at h
  simp only [nestedMatch, h, Results.ok_bind, hunused]; rfl

theorem nestedMatch_ok {after : PatternPlan}
    (h : patternDecision env borrowed 64 (matchRows 0 arms) [⟨locals, ty⟩]
      (initialPlan arms locals) = .ok (decision, after)) (hused : after.used.findIdx? (!·) = none) :
    nestedMatch env borrowed ty arms locals = .ok ⟨⟨locals, ty⟩, decision⟩ := by
  unfold initialPlan at h
  simp only [nestedMatch, h, Results.ok_bind, hused]; rfl

/-- Running the decision of a match is matching its arms in source order. -/
theorem run_decision {value : Value} {m : Type → Type} [Monad m] {β : Type}
    (hruns : Runs env (matchRows 0 arms) [⟨locals, ty⟩] (fun _ => True) decision)
    (hvalue : value.HasType env ty) (guard : Nat → Locals → m Bool) (body : Nat → Locals → m β)
    (stuck : m β) (outer : Locals) :
    NestedMatch.run guard body stuck ⟨⟨locals, ty⟩, decision⟩ arms outer value =
      firstMatch guard body stuck value 0 arms := by
  have hholds : Holds (Function.update outer locals (some value)) [⟨locals, ty⟩] [value] :=
    List.Forall₂.cons (Function.update_self ..) List.Forall₂.nil
  rw [NestedMatch.run, hruns _ guard body stuck _ [value] ⟨hvalue, trivial⟩ trivial hholds,
    select_matchRows]
  intro row hrow name
  obtain ⟨position, arm, harm, rfl⟩ := matchRows_row arms 0 row hrow
  have hnames : PatternRow.names ⟨[arm.pattern], [], arm.guard, 0 + position⟩ =
      arm.pattern.names := append_nil _
  have hscope : (arms.map (·.pattern.names)).getD (0 + position) [] = arm.pattern.names := by
    rw [zero_add, getD_eq_getElem?_getD, getElem?_map, harm]; rfl
  rw [hscope, hnames]

/-- Nested matches are compiled exactly. -/
theorem nestedMatch_correct (env : Environment)
    (inhabited : ∀ ty, ∃ value : Value, value.HasType env ty) (borrowed : Bool) (ty locals : Nat)
    (arms : List Arm) (hchecked : ∀ arm ∈ arms, arm.Checked env ty locals)
    (hbudget : nestedMatch env borrowed ty arms locals ≠ .error .exhausted) :
    (∀ planned, nestedMatch env borrowed ty arms locals = .ok planned →
      ∀ value : Value, value.HasType env ty →
        ∀ {m : Type → Type} [Monad m] {β : Type} (guard : Nat → Locals → m Bool)
          (body : Nat → Locals → m β) (stuck : m β) (outer : Locals),
          planned.run guard body stuck arms outer value =
            firstMatch guard body stuck value 0 arms) ∧
      (nestedMatch env borrowed ty arms locals = .error .nonExhaustive ↔
        ∃ value : Value, value.HasType env ty ∧ ¬Matched arms value) ∧
      ∀ arm, nestedMatch env borrowed ty arms locals = .error (.unreachable arm) ↔
        (∀ value : Value, value.HasType env ty → Matched arms value) ∧ arm < arms.length ∧
          (∀ value : Value, value.HasType env ty → ¬Reaches arms value arm) ∧
          ∀ earlier < arm, ∃ value : Value, value.HasType env ty ∧ Reaches arms value earlier := by
  have hmeets := decision_correct inhabited borrowed hchecked
  cases hdecision : patternDecision env borrowed 64 (matchRows 0 arms) [⟨locals, ty⟩]
      (initialPlan arms locals) with
  | error e =>
    have hresult := nestedMatch_error hdecision
    rw [hresult] at hbudget ⊢
    rcases hmeets.error hdecision with rfl | ⟨rfl, value, hvalue, hmatched⟩
    · exact absurd rfl hbudget
    · exact ⟨fun planned h => (by cases h), ⟨fun _ => ⟨value, hvalue, hmatched⟩, fun _ => rfl⟩,
        fun arm => ⟨fun h => (by cases h), fun h => absurd (h.1 value hvalue) hmatched⟩⟩
  | ok result =>
    obtain ⟨decision, after⟩ := result
    obtain ⟨hmatched, hlength, hused, hruns⟩ := hmeets.ok hdecision
    have hreaches : ∀ (arm : Nat) (harm : arm < after.used.length), after.used[arm] = true ↔
        ∃ value : Value, value.HasType env ty ∧ Reaches arms value arm := by
      intro arm harm
      rw [← hused, getElem?_eq_getElem harm, Option.some.injEq]
    have hcovered : ¬∃ value : Value, value.HasType env ty ∧ ¬Matched arms value :=
      fun ⟨value, hvalue, h⟩ => h (hmatched value hvalue)
    cases hfind : after.used.findIdx? (!·) with
    | none =>
      have hall := findIdx?_eq_none_iff.mp hfind
      rw [nestedMatch_ok hdecision hfind]
      refine ⟨fun planned h => ?_, ⟨fun h => (by cases h), fun h => absurd h hcovered⟩,
        fun arm => ⟨fun h => (by cases h), fun ⟨_, harm, hunreached, _⟩ => ?_⟩⟩
      · cases h
        exact fun value hvalue m _ β guard body stuck outer =>
          run_decision hruns hvalue guard body stuck outer
      · have harm : arm < after.used.length := hlength ▸ harm
        have htrue : after.used[arm] = true := by
          simpa using hall _ (getElem_mem harm)
        obtain ⟨value, hvalue, h⟩ := (hreaches arm harm).mp htrue
        exact absurd h (hunreached value hvalue)
    | some first =>
      obtain ⟨hfirst, hunused, hearlier⟩ := findIdx?_eq_some_iff_getElem.mp hfind
      have hunreached : ∀ value : Value, value.HasType env ty → ¬Reaches arms value first := by
        intro value hvalue h
        rw [(hreaches first hfirst).mpr ⟨value, hvalue, h⟩] at hunused
        cases hunused
      have hreached : ∀ earlier < first,
          ∃ value : Value, value.HasType env ty ∧ Reaches arms value earlier := by
        intro earlier hlt
        refine (hreaches earlier (lt_trans hlt hfirst)).mp ?_
        simpa using hearlier earlier hlt
      rw [nestedMatch_unused hdecision hfind]
      refine ⟨fun planned h => (by cases h), ⟨fun h => (by cases h), fun h => absurd h hcovered⟩,
        fun arm => ⟨fun h => ?_, fun ⟨_, _, hnever, hbefore⟩ => ?_⟩⟩
      · cases h
        exact ⟨hmatched, hlength ▸ hfirst, hunreached, hreached⟩
      · have heq : first = arm := by
          rcases lt_trichotomy first arm with hlt | heq | hlt
          · obtain ⟨value, hvalue, h⟩ := hbefore first hlt
            exact absurd h (hunreached value hvalue)
          · exact heq
          · obtain ⟨value, hvalue, h⟩ := hreached arm hlt
            exact absurd h (hnever value hvalue)
        rw [heq]

end Match

/-! ## Inputs -/

/-- A pair of a Bool and an Int. -/
def pairs : Environment where
  types := [.bool, .int, .product [0, 1]]
  taskValue := fun _ => false
  flat := by
    intro ty base h inner
    match ty, h with
    | 0, h => cases h
    | 1, h => cases h
    | 2, h => cases h

theorem pairs_inhabited : ∀ ty, ∃ value : Value, value.HasType pairs ty
  | 0 => ⟨.boolean true, fun _ => trivial, rfl⟩
  | 1 => ⟨.integer 0, fun _ => trivial, rfl, by decide, by decide⟩
  | 2 => ⟨.product [.boolean true, .integer 0], fun _ => trivial, [0, 1], rfl,
      ⟨fun _ => trivial, rfl⟩, ⟨fun _ => trivial, rfl, by decide, by decide⟩, trivial⟩
  | _ + 3 => ⟨.other 0, fun _ => trivial, rfl⟩

/-- `(true, n) if ..` before `_`. -/
def guardedPair : List Arm :=
  [⟨.product [.literal (.boolean true), .wildcard (some 0)], some (.node [])⟩, ⟨.wildcard none, none⟩]

theorem guardedPair_checked : ∀ arm ∈ guardedPair, arm.Checked pairs 2 1 := by
  intro arm harm
  rcases mem_cons.mp harm with rfl | harm
  · exact ⟨⟨[0, 1], rfl, rfl, trivial, trivial⟩, nodup_singleton 0, fun name hname => by
      rw [mem_singleton.mp hname]
      exact zero_lt_one⟩
  · rw [mem_singleton.mp harm]
    exact ⟨trivial, nodup_nil, fun name hname => by cases hname⟩

/-- When the guard fails, the second arm runs. -/
theorem nestedMatch_correct_guardedPair :
    ∃ planned, nestedMatch pairs false 2 guardedPair 1 = .ok planned ∧
      planned.run (m := Id) (fun _ _ => false) (fun arm _ => arm) 9 guardedPair (fun _ => none)
        (.product [.boolean true, .integer 4]) = 1 := by
  have hok : (nestedMatch pairs false 2 guardedPair 1).toBool = true := by decide +kernel
  cases hplanned : nestedMatch pairs false 2 guardedPair 1 with
  | error e =>
    rw [hplanned] at hok
    cases hok
  | ok planned =>
    have hcorrect := nestedMatch_correct pairs pairs_inhabited false 2 1 guardedPair
      guardedPair_checked (by rw [hplanned]; intro h; cases h)
    refine ⟨planned, rfl, ?_⟩
    exact hcorrect.1 planned hplanned (.product [.boolean true, .integer 4])
      ⟨fun _ => trivial, [0, 1], rfl, ⟨fun _ => trivial, rfl⟩,
        ⟨fun _ => trivial, rfl, by decide, by decide⟩, trivial⟩ (m := Id) _ _ _ _

/-- Bool, and a refinement of it that keeps `true`. -/
def flags : Environment where
  types := [.bool, .refined 0]
  taskValue := fun _ => false
  flat := by
    intro ty base h inner
    match ty, h with
    | 1, h => cases h; simp

def keepsTrue (_ : Nat) (value : Value) : Prop :=
  match value with
  | .boolean false => False
  | _ => True

/-- A match over the refinement that covers its only value, but not its base,
is rejected as non-exhaustive. -/
theorem base_coverage_rejects :
    (∀ ty, ∃ value : Value, value.Belongs flags keepsTrue ty) ∧
      (∀ value : Value, value.Belongs flags keepsTrue 1 →
        Matched [⟨.literal (.boolean true), none⟩] value) ∧
      nestedMatch flags false 1 [⟨.literal (.boolean true), none⟩] 0 = .error .nonExhaustive := by
  refine ⟨?_, fun value hvalue => ⟨_, mem_singleton_self _, rfl, ?_⟩, rfl⟩
  · intro ty
    match ty with
    | 0 => exact ⟨.boolean true, fun _ => trivial, rfl⟩
    | 1 => exact ⟨.boolean true, fun _ => trivial, rfl⟩
    | _ + 2 => exact ⟨.other 0, fun _ => trivial, rfl⟩
  · obtain ⟨flag, rfl⟩ := hvalue.hasType.bool rfl
    have hkept : keepsTrue 1 (.boolean flag) := hvalue.1 ⟨0, rfl⟩
    cases flag with
    | true => rfl
    | false => cases hkept

end Loom.Checking.Matching
