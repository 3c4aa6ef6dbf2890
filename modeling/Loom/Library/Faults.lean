import Mathlib.Tactic.Common

/-
  Operations that return, fault with a message, or stop everything.

  `Safe holds outcome` says that the operation does not stop, and that what it
  returns `holds`; a fault promises nothing. Its rules follow the sequencing of
  the operation: `safe_bind` for two steps, one rule for each kind of check. An
  operation that is `Faultless` as well returns (`Safe.returns`).
-/

namespace Loom.Faults

/-- A fault is raised in the caller; a fatal stop ends the program. -/
inductive Stop where
  | fault (message : String)
  | fatal (message : String)
  deriving DecidableEq

abbrev Outcome := Except Stop

variable {α β : Type}

def require (condition : Bool) (message : String) : Outcome Unit :=
  if condition then .ok () else .error (.fault message)

def assertion (condition : Bool) : Outcome Unit :=
  if condition then .ok () else .error (.fatal "assertion failed")

def present (value : Option α) (message : String) : Outcome α :=
  match value with
  | some value => .ok value
  | none => .error (.fault message)

/-- A lookup whose absence is a programming error. -/
def found (value : Option α) (message : String) : Outcome α :=
  match value with
  | some value => .ok value
  | none => .error (.fatal message)

def Safe (holds : α → Prop) : Outcome α → Prop
  | .ok value => holds value
  | .error (.fault _) => True
  | .error (.fatal _) => False

section
variable {holds holds' : α → Prop} {x : Outcome α} {value : α} {message : String}

theorem safe_fault : Safe holds (.error (.fault message) : Outcome α) := trivial

theorem Safe.imp (h : Safe holds x) (himp : ∀ value, holds value → holds' value) :
    Safe holds' x := by
  cases x with
  | ok value => exact himp value h
  | error stop =>
    cases stop with
    | fault => exact trivial
    | fatal => exact h

variable {f : α → Outcome β} {after : β → Prop} {condition : Bool}

theorem safe_bind (holds : α → Prop) (h : Safe holds x)
    (hf : ∀ value, holds value → Safe after (f value)) : Safe after (x >>= f) := by
  cases x with
  | ok value => exact hf value h
  | error stop =>
    cases stop with
    | fault => exact trivial
    | fatal => exact h

theorem safe_require {f : Unit → Outcome β} (hf : condition = true → Safe after (f ())) :
    Safe after (require condition message >>= f) := by
  cases condition with
  | true => exact hf rfl
  | false => exact trivial

theorem safe_check {holds : Unit → Prop} (h : condition = true → holds ()) :
    Safe holds (require condition message) := by
  cases condition with
  | true => exact h rfl
  | false => exact trivial

theorem safe_assertion {f : Unit → Outcome β} (h : condition = true) (hf : Safe after (f ())) :
    Safe after (assertion condition >>= f) := by
  rw [h]; exact hf

theorem safe_present {option : Option α} (hf : ∀ value, option = some value → Safe after (f value)) :
    Safe after (present option message >>= f) := by
  cases option with
  | some value => exact hf value rfl
  | none => exact trivial

theorem safe_found {option : Option α} (h : option = some value) (hf : Safe after (f value)) :
    Safe after (found option message >>= f) := by
  rw [h]; exact hf

end

/-! ## Operations without faults -/

def Faultless (x : Outcome α) : Prop := ∀ message, x ≠ .error (.fault message)

section
variable {x : Outcome α} {f : α → Outcome β} {value : α} {message : String}

theorem faultless_ok : Faultless (.ok value : Outcome α) := nofun

theorem faultless_fatal : Faultless (.error (.fatal message) : Outcome α) := nofun

theorem faultless_bind (h : Faultless x) (hf : ∀ value, Faultless (f value)) :
    Faultless (x >>= f) := by
  cases x with
  | ok value => exact hf value
  | error stop =>
    cases stop with
    | fault message => exact absurd rfl (h message)
    | fatal => exact faultless_fatal

theorem faultless_found {option : Option α} : Faultless (found option message) := by
  cases option with
  | some => exact faultless_ok
  | none => exact faultless_fatal

theorem faultless_assertion {condition : Bool} : Faultless (assertion condition) := by
  cases condition with
  | true => exact faultless_ok
  | false => exact faultless_fatal

/-- A safe operation without faults returns. -/
theorem Safe.returns {holds : α → Prop} (h : Safe holds x) (hno : Faultless x) :
    ∃ value, x = .ok value ∧ holds value := by
  cases x with
  | ok value => exact ⟨value, rfl, h⟩
  | error stop =>
    cases stop with
    | fault message => exact absurd rfl (hno message)
    | fatal => exact absurd h id

end

end Loom.Faults
