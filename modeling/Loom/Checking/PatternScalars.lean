import Mathlib.Data.Finset.Card
import Mathlib.Data.Finset.Range
import Loom.Checking.PatternSplits

/-
  Splitting a scalar column by its literals.
-/

namespace Loom.Checking.Matching

open Threaded List

/-! ## The remainder of a scalar domain -/

/-- Few literals miss one of many numbers. -/
theorem exists_missed {keys : List Literal} (hkeys : keys.length ≤ 4096)
    (measure : Literal → Nat) : ∃ number ≤ 4096, ∀ key ∈ keys, measure key ≠ number := by
  have hcard : (keys.map measure).toFinset.card < (Finset.range 4097).card := by
    rw [Finset.card_range]
    have := toFinset_card_le (keys.map measure)
    rw [length_map] at this; omega
  obtain ⟨number, hrange, hmissed⟩ := Finset.exists_mem_notMem_of_card_lt_card hcard
  refine ⟨number, Nat.le_of_lt_succ (Finset.mem_range.mp hrange), fun key hkey heq => hmissed ?_⟩
  exact mem_toFinset.mpr (mem_map.mpr ⟨key, hkey, heq⟩)

/-- A scalar type other than Bool. -/
def Shape.open : Shape → Prop
  | .int | .text | .float => True
  | _ => False

theorem scalar_remainder {env : Environment} {ty : Nat} {keys : List Literal}
    (hopen : (env.shape (env.base ty)).open) (hkeys : keys.length ≤ 4096) :
    ∃ value : Value, value.HasType env ty ∧ ∀ key ∈ keys, key.equals value = false := by
  cases hshape : env.shape (env.base ty) with
  | int =>
    obtain ⟨number, hnumber, hmissed⟩ := exists_missed hkeys fun key => match key with
      | .integer number => number.toNat
      | _ => 0
    refine ⟨.integer number, ⟨fun _ => trivial, hshape, by omega, by omega⟩, fun key hkey => ?_⟩
    have := hmissed key hkey
    cases key with
    | integer other =>
      refine decide_eq_false fun heq => this ?_
      rw [heq]; exact Int.toNat_natCast number
    | boolean flag => rfl
    | text string => rfl
    | float key => rfl
  | text =>
    obtain ⟨number, -, hmissed⟩ := exists_missed hkeys fun key => match key with
      | .text string => string.length
      | _ => 0
    refine ⟨.text (String.ofList (List.replicate number 'a')), ⟨fun _ => trivial, hshape⟩,
      fun key hkey => ?_⟩
    have := hmissed key hkey
    cases key with
    | integer other => rfl
    | boolean flag => rfl
    | text string =>
      refine decide_eq_false fun heq => this ?_
      simp [heq]
    | float key => rfl
  | float =>
    -- no key equals a NaN
    refine ⟨.float 0x7FF8000000000000#64, ⟨fun _ => trivial, hshape⟩, fun key _ => ?_⟩
    have hnan : isNaN 0x7FF8000000000000#64 = true := by decide
    cases key with
    | integer other => rfl
    | boolean flag => rfl
    | text string => rfl
    | float key => simp [Literal.equals, floatEqual, hnan]
  | bool => rw [hshape] at hopen; exact hopen.elim
  | product fields => rw [hshape] at hopen; exact hopen.elim
  | enum variants => rw [hshape] at hopen; exact hopen.elim
  | refined base => rw [hshape] at hopen; exact hopen.elim
  | other => rw [hshape] at hopen; exact hopen.elim

/-! ## The keys of a column -/

theorem steps_meets {α : Type} (room : Nat) : ∀ (items : List α) (plan : PatternPlan),
    Meets (items.forM fun _ => patternStep room : Planner PUnit) plan
      (fun _ after => Spent plan after) GivesUp := by
  intro items
  induction items with
  | nil => exact fun plan => meets_pure (Spent.refl plan)
  | cons item items ih =>
    intro plan
    refine step_then (fun _ => id) fun middle hspent => ?_
    exact meets_mono (ih middle) (fun _ _ h => hspent.trans h) fun _ => id

/-- The keys collected are those before and those of the column, and no more
than the steps spent on them. -/
theorem literalKeys_meets (column room : Nat) : ∀ (rows : List PatternRow) (keys : List Literal)
    (plan : PatternPlan), Meets (literalKeys column room rows keys) plan
      (fun all after => Spent plan after ∧ all.length + after.budget ≤ keys.length + plan.budget ∧
        ∀ key, key ∈ all ↔ key ∈ keys ∨ ∃ row ∈ rows, row.pattern column = .literal key)
      GivesUp := by
  intro rows
  induction rows with
  | nil =>
    exact fun keys plan => meets_pure ⟨Spent.refl plan, Nat.le_refl _, fun key => by simp⟩
  | cons row rows ih =>
    intro keys plan
    rw [literalKeys]
    refine meets_bind (patternStep_meets room plan) ?_
    rintro _ first ⟨hfirst, hbudget⟩
    rw [show row.patterns.getD column (.wildcard none) = row.pattern column from rfl]
    cases hpattern : row.pattern column with
    | literal key =>
      refine meets_bind (steps_meets room keys first) fun _ second hsecond => ?_
      refine meets_mono (ih _ second) ?_ fun _ => id
      rintro all third ⟨hthird, hlength, hall⟩
      refine ⟨(hfirst.trans hsecond).trans hthird, ?_, fun other => ?_⟩
      · have := hsecond.2.2
        split at hlength
        · omega
        · rw [length_append, length_singleton] at hlength; omega
      · rw [hall]
        have hkeys : (other ∈ if key ∈ keys then keys else keys ++ [key]) ↔
            other ∈ keys ∨ key = other := by
          split
          · rename_i hmem
            exact ⟨Or.inl, fun h => h.elim id fun heq => heq ▸ hmem⟩
          · simp [eq_comm]
        rw [hkeys, or_assoc]; simp [hpattern]
    | wildcard name | product children | variant tag children =>
      refine meets_mono (ih keys first) ?_ fun _ => id
      rintro all second ⟨hsecond, hlength, hall⟩
      refine ⟨hfirst.trans hsecond, by omega, fun other => ?_⟩
      rw [hall]; simp [hpattern]

/-! ## The tests -/

section Tests

variable {env : Environment} {start : Nat} {before after : List Slot} {value : Slot}
  {rows : List PatternRow} {next : List PatternRow → List Slot → Planner Decision}
  {keys : List Literal}

variable {plan : PatternPlan}

/-- Deciding a case without fields: nothing is rebuilt. -/
theorem scalar_then {head : Head} {α : Type} {rest : Decision → Planner α}
    {P : α → PatternPlan → Prop} (hnext : Correct env start next)
    (hmatrix : Matrix env start rows (before ++ value :: after) plan)
    (hcase : Case env keys value.ty head [])
    (hsees : ∀ row ∈ rows, head.Sees keys (row.pattern before.length)) (borrowed : Bool)
    (room : Nat) (h : ∀ decision done,
      Planned env rows (before ++ value :: after) (In keys head before.length) plan done →
      Runs env rows (before ++ value :: after) (In keys head before.length) decision →
        Meets (rest decision) done P (Failed env rows (before ++ value :: after))) :
    Meets (patternRows borrowed before.length head value [] (.slot value) room rows >>=
      fun selected => next selected (patternSlots (before ++ value :: after) before.length []) >>=
        rest) plan P (Failed env rows (before ++ value :: after)) := by
  have hvalue := hmatrix.slots value (mem_append_right _ (.head _))
  have hrebuilt : ∀ (later : Locals) (inner : List Value) (built : Value),
      head.Builds keys inner built → later value.index = some built → Holds later [] inner →
        (Expr.slot value).eval later = some built := fun _ _ _ _ hbuilt _ => hbuilt
  refine case_then hnext hmatrix hcase rfl hsees ⟨Nat.le_refl _, rfl⟩ (fun slot hslot => by cases hslot)
    (fun index hindex => ?_) hrebuilt borrowed room
    (fun _ => id) fun decision done hplanned hruns => h decision done hplanned ?_
  · rw [mem_singleton.mp hindex]; exact hvalue
  · intro m _ β scope guard body stuck locals values htyped hin hholds hscope
    obtain ⟨left, column, right, rfl, hlength, hleft, hcolumn, hright⟩ := typed_column htyped
    obtain ⟨inner, hbuilds⟩ := (in_column hlength).mp hin
    have hinner := hcase.down column inner hcolumn hbuilds
    obtain rfl := length_eq_zero_iff.mp hinner.length_eq
    exact hruns scope guard body stuck locals locals left [] right column hleft hcolumn hright
      hbuilds hholds (fun _ _ => rfl) List.Forall₂.nil hscope

theorem literalTests_meets (keys : List Literal) {P : List Value → Prop} {fallback : Decision}
    (hnext : Correct env start next) (borrowed : Bool) (room : Nat) {operand : Expr}
    (hoperand : ∀ locals : Locals, operand.eval locals = locals value.index)
    (hfallback : Runs env rows (before ++ value :: after) P fallback) :
    ∀ (tests : List Literal) (plan : PatternPlan),
      (∀ key ∈ tests, key.Fits (env.shape (env.base value.ty))) →
      Matrix env start rows (before ++ value :: after) plan →
      Meets (literalTests borrowed rows (before ++ value :: after) before.length value operand room
          next fallback tests) plan (fun decision done =>
          Planned env rows (before ++ value :: after)
            (fun values => ∃ key ∈ tests, In keys (.literal key) before.length values) plan done ∧
          Runs env rows (before ++ value :: after)
            (fun values => (∃ key ∈ tests, In keys (.literal key) before.length values) ∨ P values)
            decision) (Failed env rows (before ++ value :: after)) := by
  intro tests
  induction tests with
  | nil =>
    intro plan _ _
    refine meets_pure ⟨Planned.grows ⟨Nat.le_refl _, rfl⟩ fun values h => ?_, ?_⟩
    · obtain ⟨key, hkey, -⟩ := h
      cases hkey
    · intro m _ β scope guard body stuck locals values htyped hP hholds hscope
      refine hfallback scope guard body stuck locals values htyped (hP.resolve_left ?_) hholds hscope
      rintro ⟨key, hkey, -⟩
      cases hkey
  | cons key tests ih =>
    intro plan hfits hmatrix
    refine meets_bind (ih plan (fun other h => hfits other (.tail _ h)) hmatrix) ?_
    rintro no middle ⟨hno, hrunsNo⟩
    have hcase : Case env keys value.ty (.literal key) [] := case_literal (hfits key (.head _))
    refine scalar_then hnext (hmatrix.grows hno.locals hno.length) hcase
      (sees_other fun h => by cases h) borrowed room
      fun yes done hyes hrunsYes => meets_pure ⟨(hno.then hyes).congr fun values _ => ?_, ?_⟩
    · refine ⟨?_, ?_⟩
      · rintro (⟨other, hother, hin⟩ | hin)
        · exact ⟨other, .tail _ hother, hin⟩
        · exact ⟨key, .head _, hin⟩
      · rintro ⟨other, hother, hin⟩
        rcases mem_cons.mp hother with rfl | hother
        · exact Or.inr hin
        · exact Or.inl ⟨other, hother, hin⟩
    · intro m _ β scope guard body stuck locals values htyped hP hholds hscope
      obtain ⟨left, column, right, rfl, hlength, -, -, -⟩ := typed_column htyped
      rw [Decision.run, hoperand, (holds_column hlength hholds).2.1]
      show (if key.equals column = true then _ else _) = _
      by_cases hequals : key.equals column = true
      · rw [if_pos hequals]
        exact hrunsYes scope guard body stuck locals _ htyped
          ((in_column hlength).mpr ⟨[], rfl, hequals⟩) hholds hscope
      · rw [if_neg hequals]
        refine hrunsNo scope guard body stuck locals _ htyped (hP.imp_left ?_) hholds hscope
        rintro ⟨other, hother, hin⟩
        rcases mem_cons.mp hother with rfl | hother
        · obtain ⟨inner, -, heq⟩ := (in_column hlength).mp hin
          exact absurd heq hequals
        · exact ⟨other, hother, hin⟩

theorem scalar_pattern (hmatrix : Matrix env start rows (before ++ value :: after) plan)
    {row : PatternRow} (hrow : row ∈ rows)
    (hproduct : ∀ types, env.shape (env.base value.ty) ≠ .product types)
    (henum : ∀ variants, env.shape (env.base value.ty) ≠ .enum variants) :
    (∃ name, row.pattern before.length = .wildcard name) ∨
      ∃ key, row.pattern before.length = .literal key ∧
        key.Fits (env.shape (env.base value.ty)) := by
  obtain ⟨one, pattern, two, hpatterns, hone, -, hfits, -⟩ :=
    columns_split (hmatrix.ready row hrow).fits
  have hcolumn : row.pattern before.length = pattern := by
    rw [PatternRow.pattern, hpatterns, ← hone, getD_append_cons]
  rw [hcolumn]
  cases pattern with
  | wildcard name => exact Or.inl ⟨name, rfl⟩
  | literal key => exact Or.inr ⟨key, rfl, hfits⟩
  | product children =>
    obtain ⟨types, hshape, -⟩ := hfits
    exact absurd hshape (hproduct types)
  | variant tag children =>
    obtain ⟨variants, types, hshape, -⟩ := hfits
    exact absurd hshape (henum variants)

/-- A fallback and tests that between them see every value of the column. -/
theorem literalChain_meets (keys : List Literal) {head : Head} (hnext : Correct env start next)
    (hmatrix : Matrix env start rows (before ++ value :: after) plan)
    (hcase : Case env keys value.ty head [])
    (hsees : ∀ row ∈ rows, head.Sees keys (row.pattern before.length))
    (hfits : ∀ key ∈ keys, key.Fits (env.shape (env.base value.ty)))
    (hall : ∀ column : Value, column.HasType env value.ty →
      (∃ key ∈ keys, key.equals column = true) ∨ head.Builds keys [] column) (borrowed : Bool)
    (room : Nat) {operand : Expr}
    (hoperand : ∀ locals : Locals, operand.eval locals = locals value.index) :
    Meets (patternRows borrowed before.length head value [] (.slot value) room rows >>=
        fun fallback => next fallback (patternSlots (before ++ value :: after) before.length []) >>=
          fun body => literalTests borrowed rows (before ++ value :: after) before.length value operand
            room next body keys) plan (fun decision done =>
        Planned env rows (before ++ value :: after) (fun _ => True) plan done ∧
          Runs env rows (before ++ value :: after) (fun _ => True) decision)
      (Failed env rows (before ++ value :: after)) := by
  have hcover : ∀ values, Typed env (before ++ value :: after) values →
      (∃ key ∈ keys, In keys (.literal key) before.length values) ∨
        In keys head before.length values := by
    intro values htyped
    obtain ⟨left, column, right, rfl, hlength, -, hcolumn, -⟩ := typed_column htyped
    rcases hall column hcolumn with ⟨key, hkey, hequals⟩ | hbuilds
    · exact Or.inl ⟨key, hkey, (in_column hlength).mpr ⟨[], rfl, hequals⟩⟩
    · exact Or.inr ((in_column hlength).mpr ⟨[], hbuilds⟩)
  refine scalar_then hnext hmatrix hcase hsees borrowed room fun body middle hbody hrunsBody => ?_
  refine meets_mono (literalTests_meets keys hnext borrowed room hoperand hrunsBody keys middle
    hfits (hmatrix.grows hbody.locals hbody.length)) ?_ fun _ => id
  rintro decision done ⟨hplanned, hruns⟩
  refine ⟨(hbody.then hplanned).congr fun values htyped => ⟨fun _ => trivial, fun _ =>
    (hcover values htyped).symm⟩, ?_⟩
  intro m _ β scope guard body stuck locals values htyped _
  exact hruns scope guard body stuck locals values htyped (hcover values htyped)

theorem literalDecision_meets {literal : Literal} (hnext : Correct env start next)
    (hmatrix : Matrix env start rows (before ++ value :: after) plan)
    (hliteral : literal.Fits (env.shape (env.base value.ty))) (borrowed : Bool) (room : Nat) :
    Meets (literalDecision env borrowed rows (before ++ value :: after) before.length value room next)
      plan (fun decision done =>
        Planned env rows (before ++ value :: after) (fun _ => True) plan done ∧
          Runs env rows (before ++ value :: after) (fun _ => True) decision)
      (Failed env rows (before ++ value :: after)) := by
  have hproduct : ∀ types, env.shape (env.base value.ty) ≠ .product types := by
    intro types hshape
    rw [hshape] at hliteral
    cases literal <;> simp [Literal.Fits] at hliteral
  have henum : ∀ variants, env.shape (env.base value.ty) ≠ .enum variants := by
    intro variants hshape
    rw [hshape] at hliteral
    cases literal <;> simp [Literal.Fits] at hliteral
  have hoperand : ∀ locals : Locals,
      (Expr.coerce (env.base value.ty) (.slot value)).eval locals = locals value.index :=
    fun _ => rfl
  by_cases hbool : env.shape (env.base value.ty) = .bool
  · have hcase : Case env [.boolean true] value.ty (.literal (.boolean false)) [] :=
      case_literal hbool
    have hchain := literalChain_meets [.boolean true] hnext hmatrix hcase
      (sees_other fun h => by cases h) (fun key hkey => by rw [mem_singleton.mp hkey]; exact hbool)
      (fun column hcolumn => ?_) borrowed (room - 1) hoperand
    · simp only [literalDecision, if_pos hbool]; exact hchain
    · obtain ⟨flag, rfl⟩ := hcolumn.bool hbool
      cases flag with
      | true => exact Or.inl ⟨_, mem_singleton_self _, rfl⟩
      | false => exact Or.inr ⟨rfl, rfl⟩
  · have hopen : (env.shape (env.base value.ty)).open := by
      cases literal with
      | integer number => rw [hliteral.1]; trivial
      | boolean flag => exact absurd hliteral hbool
      | text string => rw [hliteral]; trivial
      | float key => rw [hliteral]; trivial
    simp only [literalDecision, if_neg hbool]
    refine meets_bind (meets_mono (literalKeys_meets before.length room rows [] plan)
      (fun _ _ => id) givesUp_failed) ?_
    rintro keys middle ⟨hspent, hlength, hkeys⟩
    have hfew : keys.length ≤ 4096 := by
      have := plan.bounded
      rw [length_nil] at hlength; omega
    obtain ⟨missed, hmissed, hnone⟩ := scalar_remainder hopen hfew
    have hmatrix' := hmatrix.grows hspent.grows.1 (congrArg List.length hspent.2.1)
    refine meets_mono (literalChain_meets keys hnext hmatrix' (case_remainder hmissed hnone)
      (fun row hrow _ => ?_) (fun key hkey => ?_) (fun column _ => ?_) borrowed (room - 1) hoperand)
      ?_ fun _ => id
    · rcases scalar_pattern hmatrix hrow hproduct henum with hwild | ⟨key, hkey, -⟩
      · exact Or.inl hwild
      · exact Or.inr ⟨key, (hkeys key).mpr (Or.inr ⟨row, hrow, hkey⟩), hkey⟩
    · rcases (hkeys key).mp hkey with hmem | ⟨row, hrow, heq⟩
      · cases hmem
      · rcases scalar_pattern hmatrix hrow hproduct henum with ⟨name, hwild⟩ | ⟨other, hother, hfits⟩
        · rw [heq] at hwild
          cases hwild
        · rw [heq] at hother
          cases hother
          exact hfits
    · by_cases hany : ∃ key ∈ keys, key.equals column = true
      · exact Or.inl hany
      · refine Or.inr ⟨rfl, fun key hkey => Bool.eq_false_iff.mpr fun heq => hany ⟨key, hkey, heq⟩⟩
    · rintro decision done ⟨hplanned, hruns⟩
      exact ⟨hplanned.after hspent.grows, hruns⟩

end Tests

end Loom.Checking.Matching
