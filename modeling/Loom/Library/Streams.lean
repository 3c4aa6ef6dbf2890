import Mathlib.Tactic.Common

/-
  Streams that are pulled, and machines that are fed one symbol at a time.
-/

namespace Loom.Streams

open List

/-! ## Pulling -/

section
variable {σ ι : Type*}

/-- The result of one pull of a stream, after a number of others. -/
def call (next : σ → Option ι × σ) (state : σ) : Nat → Option ι
  | 0 => (next state).1
  | count + 1 => call next (next state).2 count

/-- One pull gives the first of the items that remain. -/
theorem call_eq {next : σ → Option ι × σ} (remains : σ → List ι → Prop)
    (hnext : ∀ {state items}, remains state items →
      (next state).1 = items.head? ∧ remains (next state).2 items.tail)
    {state : σ} {items : List ι} (h : remains state items) (count : Nat) :
    call next state count = items[count]? := by
  induction count generalizing state items with
  | zero =>
    rw [← head?_eq_getElem?]; exact (hnext h).1
  | succ count ih =>
    obtain ⟨_, hrest⟩ := hnext h
    show call next (next state).2 count = items[count + 1]?
    rw [ih hrest, getElem?_tail]

end

/-! ## Feeding -/

section
variable {β σ ι : Type*}

/-- What one symbol leads to: on to the next, an item, or the end with a last item. -/
inductive Fed (σ ι : Type*) where
  | more (state : σ)
  | item (value : ι) (state : σ)
  | stop (value : ι)

structure Machine (β σ ι : Type*) where
  feed : σ → β → Fed σ ι
  close : σ → Option ι

/-- Everything a machine gives for a sequence that ends. -/
def Machine.outputs (machine : Machine β σ ι) : σ → List β → List ι
  | state, [] => (machine.close state).toList
  | state, symbol :: rest =>
    match machine.feed state symbol with
    | .more state => machine.outputs state rest
    | .item value state => value :: machine.outputs state rest
    | .stop value => [value]

/-- A part of a sequence up to the first item. -/
inductive Scanned (β σ ι : Type*) where
  | more (state : σ)
  | item (value : ι) (state : σ) (rest : List β)
  | stop (value : ι)

def Machine.scan (machine : Machine β σ ι) : σ → List β → Scanned β σ ι
  | state, [] => .more state
  | state, symbol :: rest =>
    match machine.feed state symbol with
    | .more state => machine.scan state rest
    | .item value state => .item value state rest
    | .stop value => .stop value

section
variable {machine : Machine β σ ι} {state after : σ} {symbol : β} {value : ι} {rest : List β}

attribute [local simp] Machine.outputs Machine.scan

theorem Machine.outputs_more (h : machine.feed state symbol = .more after) :
    machine.outputs state (symbol :: rest) = machine.outputs after rest := by
  simp [h]

theorem Machine.outputs_item (h : machine.feed state symbol = .item value after) :
    machine.outputs state (symbol :: rest) = value :: machine.outputs after rest := by
  simp [h]

theorem Machine.outputs_stop (h : machine.feed state symbol = .stop value) :
    machine.outputs state (symbol :: rest) = [value] := by
  simp [h]

theorem Machine.scan_more (h : machine.feed state symbol = .more after) :
    machine.scan state (symbol :: rest) = machine.scan after rest := by
  simp [h]

theorem Machine.scan_item (h : machine.feed state symbol = .item value after) :
    machine.scan state (symbol :: rest) = .item value after rest := by
  simp [h]

theorem Machine.scan_stop (h : machine.feed state symbol = .stop value) :
    machine.scan state (symbol :: rest) = .stop value := by
  simp [h]

end

/-- Everything that is left after a part of a sequence, with what follows the part. -/
def Machine.resume (machine : Machine β σ ι) (rest : List β) : Scanned β σ ι → List ι
  | .more state => machine.outputs state rest
  | .item value state left => value :: machine.outputs state (left ++ rest)
  | .stop value => [value]

theorem Machine.outputs_append (machine : Machine β σ ι) (state : σ) (part rest : List β) :
    machine.outputs state (part ++ rest) = machine.resume rest (machine.scan state part) := by
  induction part generalizing state with
  | nil => rfl
  | cons symbol part ih =>
    simp only [cons_append, outputs, scan]
    cases machine.feed state symbol with
    | more state => exact ih state
    | item => rfl
    | stop => rfl

end

/-! ## Splitting -/

section
variable {β : Type*} [DecidableEq β] {separator : β} {segment : List β}

/-- The segments in front of the separators, and what is behind the last. -/
def segments (separator : β) : List β → List (List β) × List β
  | [] => ([], [])
  | symbol :: rest =>
    if symbol = separator then ([] :: (segments separator rest).1, (segments separator rest).2)
    else
      match segments separator rest with
      | ([], last) => ([], symbol :: last)
      | (segment :: more, last) => ((symbol :: segment) :: more, last)

theorem segments_cons (h : separator ∉ segment) (rest : List β) :
    segments separator (segment ++ separator :: rest) =
      (segment :: (segments separator rest).1, (segments separator rest).2) := by
  induction segment with
  | nil => simp [segments]
  | cons symbol segment ih =>
    have hsymbol : symbol ≠ separator := by
      intro hsame; exact h (by simp [hsame])
    rw [cons_append, segments, if_neg hsymbol, ih (fun hmem => h (.tail _ hmem))]

theorem segments_last (h : separator ∉ segment) : segments separator segment = ([], segment) := by
  induction segment with
  | nil => rfl
  | cons symbol segment ih =>
    have hsymbol : symbol ≠ separator := by
      intro hsame; exact h (by simp [hsame])
    rw [segments, if_neg hsymbol, ih (fun hmem => h (.tail _ hmem))]

theorem exists_segment (separator : β) (sequence : List β) : separator ∉ sequence ∨
      ∃ segment rest, separator ∉ segment ∧ sequence = segment ++ separator :: rest := by
  induction sequence with
  | nil => exact .inl not_mem_nil
  | cons symbol sequence ih =>
    by_cases hsymbol : symbol = separator
    · exact .inr ⟨[], sequence, not_mem_nil, by rw [hsymbol]; rfl⟩
    · obtain hnone | ⟨segment, rest, hsegment, hsequence⟩ := ih
      · left
        intro hmem
        obtain hsame | hin := mem_cons.mp hmem
        · exact hsymbol hsame.symm
        · exact hnone hin
      · refine .inr ⟨symbol :: segment, rest, ?_, by rw [hsequence]; rfl⟩
        intro hmem
        obtain hsame | hin := mem_cons.mp hmem
        · exact hsymbol hsame.symm
        · exact hsegment hin

end

/-- Items up to the first error, which is the last of them. -/
def untilError {ε α : Type*} : List (Except ε α) → List (Except ε α)
  | [] => []
  | .ok value :: rest => .ok value :: untilError rest
  | .error error :: _ => [.error error]

end Loom.Streams
