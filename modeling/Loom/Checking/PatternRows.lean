import Mathlib.Data.List.Forall2
import Mathlib.Data.List.Perm.Basic
import Loom.Checking.PatternMatrix

/-
  What one specialisation of the matrix does.
-/

namespace Loom.Checking.Matching

open Threaded

/-! ## Expressions -/

mutual
/-- The locals an expression reads. -/
def Expr.reads : Expr → List Nat
  | .slot source => [source.index]
  | .field _ _ receiver => Expr.reads receiver
  | .coerce _ value => Expr.reads value
  | .record _ fields => Expr.readsAll fields
  | .variant _ _ payload => Expr.readsAll payload

def Expr.readsAll : List Expr → List Nat
  | [] => []
  | value :: values => Expr.reads value ++ Expr.readsAll values
end

mutual
theorem Expr.eval_congr {left right : Locals} : ∀ {value : Expr},
    (∀ index ∈ value.reads, left index = right index) → value.eval left = value.eval right
  | .slot source, h => h source.index (List.mem_singleton_self _)
  | .field _ _ receiver, h => by
      have hreceiver : receiver.eval left = receiver.eval right := Expr.eval_congr h
      simp only [Expr.eval, hreceiver]
  | .coerce _ value, h => by
      have hvalue : value.eval left = value.eval right := Expr.eval_congr h
      exact hvalue
  | .record _ fields, h => by
      have hfields : Expr.evalAll left fields = Expr.evalAll right fields := Expr.evalAll_congr h
      simp only [Expr.eval, hfields]
  | .variant _ _ payload, h => by
      have hpayload : Expr.evalAll left payload = Expr.evalAll right payload := Expr.evalAll_congr h
      simp only [Expr.eval, hpayload]

theorem Expr.evalAll_congr {left right : Locals} : ∀ {values : List Expr},
    (∀ index ∈ Expr.readsAll values, left index = right index) →
      Expr.evalAll left values = Expr.evalAll right values
  | [], _ => rfl
  | value :: values, h => by
      have hvalue : value.eval left = value.eval right :=
        Expr.eval_congr fun index hindex => h index (List.mem_append_left _ hindex)
      have hvalues : Expr.evalAll left values = Expr.evalAll right values :=
        Expr.evalAll_congr fun index hindex => h index (List.mem_append_right _ hindex)
      simp only [Expr.evalAll, hvalue, hvalues]
end

/-! ## Steps and replacement -/

/-- Planning that only spends from the budget. -/
def Spent (before after : PatternPlan) : Prop :=
  after.locals = before.locals ∧ after.used = before.used ∧ after.budget ≤ before.budget

theorem Spent.refl (plan : PatternPlan) : Spent plan plan := ⟨rfl, rfl, Nat.le_refl _⟩

theorem Spent.trans {first second third : PatternPlan} (h : Spent first second)
    (h' : Spent second third) : Spent first third :=
  ⟨h'.1.trans h.1, h'.2.1.trans h.2.1, Nat.le_trans h'.2.2 h.2.2⟩

abbrev GivesUp (e : MatchError) : Prop := e = .exhausted

theorem patternStep_meets (room : Nat) (plan : PatternPlan) : Meets (patternStep room) plan
      (fun _ after => Spent plan after ∧ after.budget + 1 = plan.budget) GivesUp := by
  refine meets_bind (meets_get (P := fun a t => a = plan ∧ t = plan) ⟨rfl, rfl⟩) ?_
  rintro current _ ⟨hcurrent, -⟩
  subst hcurrent
  refine meets_ite (fun _ => meets_throw rfl) fun h => meets_set ?_
  have hbudget : 0 < current.budget := Nat.pos_of_ne_zero fun hzero => h (Or.inr hzero)
  exact ⟨⟨rfl, rfl, Nat.sub_le _ _⟩, Nat.sub_add_cancel hbudget⟩

theorem step_then {α : Type} {room : Nat} {plan : PatternPlan} {rest : Unit → Planner α}
    {P : α → PatternPlan → Prop} {E : MatchError → Prop}
    (hE : ∀ e, GivesUp e → E e) (h : ∀ after, Spent plan after → Meets (rest ()) after P E) :
    Meets (patternStep room >>= rest) plan P E :=
  meets_bind (meets_mono (patternStep_meets room plan) (fun _ _ h => h.1) hE)
    fun _ after hspent => h after hspent

/-- `new` may stand for `old` once the local `index` is read as `replacement`. -/
def Replaced (index : Nat) (replacement old new : Expr) : Prop :=
  (∀ locals : Locals, locals index = replacement.eval locals → new.eval locals = old.eval locals) ∧
    ∀ other ∈ new.reads, other ∈ old.reads ∨ other ∈ replacement.reads

def ReplacedAll (index : Nat) (replacement : Expr) (old new : List Expr) : Prop :=
  (∀ locals : Locals, locals index = replacement.eval locals →
      Expr.evalAll locals new = Expr.evalAll locals old) ∧
    ∀ other ∈ Expr.readsAll new, other ∈ Expr.readsAll old ∨ other ∈ replacement.reads

theorem Replaced.refl (index : Nat) (replacement value : Expr) :
    Replaced index replacement value value := ⟨fun _ _ => rfl, fun _ h => Or.inl h⟩

theorem ReplacedAll.cons {index : Nat} {replacement old new : Expr} {olds news : List Expr}
    (h : Replaced index replacement old new) (hs : ReplacedAll index replacement olds news) :
    ReplacedAll index replacement (old :: olds) (new :: news) := by
  refine ⟨fun locals hlocals => ?_, fun other hother => ?_⟩
  · simp [Expr.evalAll, h.1 locals hlocals, hs.1 locals hlocals]
  · simp only [Expr.readsAll, List.mem_append] at hother ⊢
    rcases hother with hother | hother
    · exact (h.2 other hother).imp Or.inl id
    · exact (hs.2 other hother).imp Or.inr id

mutual
theorem patternReplace_meets (index : Nat) (replacement : Expr) :
    ∀ (value : Expr) (room : Nat) (plan : PatternPlan),
      Meets (patternReplace index replacement value room) plan
        (fun new after => Spent plan after ∧ Replaced index replacement value new) GivesUp
  | .slot source, room, plan => by
      refine step_then (fun _ => id) fun after hspent => meets_pure ⟨hspent, ?_⟩
      split
      · rename_i h
        exact ⟨fun locals hlocals => by rw [← hlocals, ← h]; rfl, fun _ hother => Or.inr hother⟩
      · exact Replaced.refl ..
  | .field _ _ receiver, room, plan => by
      refine step_then (fun _ => id) fun middle hspent => ?_
      refine meets_bind (patternReplace_meets index replacement receiver (room - 1) middle) ?_
      rintro new after ⟨hspent', h⟩
      refine meets_pure ⟨hspent.trans hspent', fun locals hlocals => ?_, h.2⟩
      simp only [Expr.eval, h.1 locals hlocals]
  | .coerce _ value, room, plan => by
      refine step_then (fun _ => id) fun middle hspent => ?_
      refine meets_bind (patternReplace_meets index replacement value (room - 1) middle) ?_
      rintro new after ⟨hspent', h⟩
      exact meets_pure ⟨hspent.trans hspent', h.1, h.2⟩
  | .record _ fields, room, plan => by
      refine step_then (fun _ => id) fun middle hspent => ?_
      refine meets_bind (replaceFields_meets index replacement fields (room - 1) middle) ?_
      rintro new after ⟨hspent', h⟩
      refine meets_pure ⟨hspent.trans hspent', fun locals hlocals => ?_, h.2⟩
      simp only [Expr.eval, h.1 locals hlocals]
  | .variant _ _ payload, room, plan => by
      refine step_then (fun _ => id) fun middle hspent => ?_
      refine meets_bind (replacePayload_meets index replacement payload (room - 1) middle) ?_
      rintro new after ⟨hspent', h⟩
      refine meets_pure ⟨hspent.trans hspent', fun locals hlocals => ?_, h.2⟩
      simp only [Expr.eval, h.1 locals hlocals]

theorem replaceFields_meets (index : Nat) (replacement : Expr) :
    ∀ (values : List Expr) (room : Nat) (plan : PatternPlan),
      Meets (replaceFields index replacement values room) plan
        (fun new after => Spent plan after ∧ ReplacedAll index replacement values new) GivesUp
  | [], _, plan => meets_pure ⟨Spent.refl plan, fun _ _ => rfl, fun _ h => Or.inl h⟩
  | value :: values, room, plan => by
      refine step_then (fun _ => id) fun first hfirst => ?_
      refine meets_bind (patternReplace_meets index replacement value (room - 1) first) ?_
      rintro new second ⟨hsecond, h⟩
      refine meets_bind (replaceFields_meets index replacement values room second) ?_
      rintro news third ⟨hthird, hs⟩
      exact meets_pure ⟨(hfirst.trans hsecond).trans hthird, ReplacedAll.cons h hs⟩

theorem replacePayload_meets (index : Nat) (replacement : Expr) :
    ∀ (values : List Expr) (room : Nat) (plan : PatternPlan),
      Meets (replacePayload index replacement values room) plan
        (fun new after => Spent plan after ∧ ReplacedAll index replacement values new) GivesUp
  | [], _, plan => meets_pure ⟨Spent.refl plan, fun _ _ => rfl, fun _ h => Or.inl h⟩
  | value :: values, room, plan => by
      refine meets_bind (patternReplace_meets index replacement value room plan) ?_
      rintro new second ⟨hsecond, h⟩
      refine meets_bind (replacePayload_meets index replacement values room second) ?_
      rintro news third ⟨hthird, hs⟩
      exact meets_pure ⟨hsecond.trans hthird, ReplacedAll.cons h hs⟩
end

def Let.Replaced (index : Nat) (replacement : Expr) (old new : Let) : Prop :=
  new.name = old.name ∧ Matching.Replaced index replacement old.value new.value

theorem replaceBindings_meets (borrowed : Bool) (index : Nat) (replacement : Expr) (room : Nat) :
    ∀ (bindings : List Let) (plan : PatternPlan),
      Meets (replaceBindings borrowed index replacement bindings room) plan
        (fun new after => Spent plan after ∧
          List.Forall₂ (Let.Replaced index replacement) bindings new) GivesUp := by
  intro bindings
  induction bindings with
  | nil => exact fun plan => meets_pure ⟨Spent.refl plan, List.Forall₂.nil⟩
  | cons binding bindings ih =>
    intro plan
    refine meets_ite (fun _ => meets_pure ⟨Spent.refl plan, ?_⟩) fun _ => ?_
    · exact List.forall₂_same.mpr fun other _ => ⟨rfl, Replaced.refl ..⟩
    · refine step_then (fun _ => id) fun first hfirst => ?_
      refine meets_bind (patternReplace_meets index replacement binding.value (room - 1) first) ?_
      rintro new second ⟨hsecond, h⟩
      refine meets_bind (ih second) ?_
      rintro news third ⟨hthird, hs⟩
      exact meets_pure ⟨(hfirst.trans hsecond).trans hthird, List.Forall₂.cons ⟨rfl, h⟩ hs⟩

/-! ## Specialised rows -/

def PatternRow.pattern (row : PatternRow) (column : Nat) : CheckedPattern :=
  row.patterns.getD column (.wildcard none)

/-- The rows kept for a constructor, with the rows they come from. -/
inductive Specialised (column : Nat) (head : Head) (index : Nat) (fields : List Slot)
    (rebuilt : Expr) : List PatternRow → List PatternRow → Prop where
  | nil : Specialised column head index fields rebuilt [] []
  | drop {row : PatternRow} {rows selected : List PatternRow} :
      head.selects (row.pattern column) = false →
      Specialised column head index fields rebuilt rows selected →
      Specialised column head index fields rebuilt (row :: rows) selected
  | keep {row : PatternRow} {rows selected : List PatternRow} {bindings : List Let} :
      head.selects (row.pattern column) = true →
      List.Forall₂ (Let.Replaced index rebuilt) row.bindings bindings →
      Specialised column head index fields rebuilt rows selected →
      Specialised column head index fields rebuilt (row :: rows)
        ({ row with
            patterns := patternSlots row.patterns column (expand fields (row.pattern column))
            bindings := bindings ++ wholeBinding rebuilt (row.pattern column) } :: selected)

theorem patternRows_meets (borrowed : Bool) (column : Nat) (head : Head) (value : Slot)
    (fields : List Slot) (rebuilt : Expr) (room : Nat) :
    ∀ (rows : List PatternRow) (plan : PatternPlan),
      Meets (patternRows borrowed column head value fields rebuilt room rows) plan
        (fun selected after => Spent plan after ∧
          Specialised column head value.index fields rebuilt rows selected) GivesUp := by
  intro rows
  induction rows with
  | nil => exact fun plan => meets_pure ⟨Spent.refl plan, Specialised.nil⟩
  | cons row rows ih =>
    intro plan
    refine step_then (fun _ => id) fun first hfirst => ?_
    refine meets_ite (fun hselects => ?_) fun hselects => ?_
    · refine meets_bind (replaceBindings_meets borrowed value.index rebuilt (room - 1)
        row.bindings first) ?_
      rintro bindings second ⟨hsecond, hbindings⟩
      refine meets_bind (ih second) ?_
      rintro selected third ⟨hthird, hselected⟩
      exact meets_pure ⟨(hfirst.trans hsecond).trans hthird,
        Specialised.keep hselects hbindings hselected⟩
    · refine meets_mono (ih first) ?_ fun _ => id
      rintro selected after ⟨hspent, hselected⟩
      exact ⟨hfirst.trans hspent, Specialised.drop (Bool.eq_false_iff.mpr hselects) hselected⟩

end Loom.Checking.Matching
