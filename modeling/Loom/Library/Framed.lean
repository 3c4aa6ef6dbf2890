import Loom.Library.Texts

/-
  Writers and readers of one format.

  A writer appends bytes, or fails. A reader takes a text and a cursor and moves the
  cursor on. `Codes write read value` says that the reader finds the value where the
  writer put it, whatever stands in front of it and behind it. Its rules follow the
  sequencing of the two, so a round trip is proved field by field.
-/

namespace Loom.Framed

open Utf8 Texts

variable {α β : Type}

/-- What is appended to the output. -/
abbrev Write := Except Stop (List UInt8)

def writeAll : List Write → Write
  | [] => .ok []
  | write :: rest => do
    let front ← write
    let back ← writeAll rest
    return front ++ back

abbrev Read := ReaderT String (StateT Nat (Except Stop))

def orFault (value : Option α) : Except Stop α :=
  match value with
  | some value => .ok value
  | none => .error .fault

/-- A loop that reads so many values. -/
def readList (read : Read α) : Nat → Read (List α)
  | 0 => return []
  | count + 1 => do
    let value ← read
    let others ← readList read count
    return value :: others

/-- What the writer appends is read as the value; a text is no longer than can be counted. -/
def Codes (write : Write) (read : Read α) (value : α) : Prop :=
  ∃ encoded, write = .ok encoded ∧ Valid encoded ∧
    ∀ (text : String) (front back : List UInt8), bytes text = front ++ encoded ++ back →
      Valid back → length text < 2 ^ 63 →
      read text front.length = .ok (value, front.length + encoded.length)

/-- A step that reads nothing. -/
def Silent (read : Read α) (value : α) : Prop :=
  ∀ (text : String) (cursor : Nat), read text cursor = .ok (value, cursor)

theorem run_bind {read : Read α} {next : α → Read β} {text : String} {cursor after : Nat}
    {value : α} (h : read text cursor = .ok (value, after)) :
    (read >>= next) text cursor = next value text after := by
  show (read text cursor >>= fun result => next result.1 text result.2) = next value text after
  rw [h, Results.ok_bind]

theorem Silent.pure (value : α) : Silent (pure value : Read α) value := fun _ _ => rfl

section
variable {write : Write} {read : Read α} {value : α} {rest : List Write} {follow : α → Read β}
  {result : β}

theorem Codes.done (h : Silent read value) : Codes (writeAll []) read value :=
  ⟨[], rfl, valid_nil, fun text front _ _ _ _ => h text front.length⟩

theorem Codes.silent (h : Silent read value) (hnext : Codes write (follow value) result) :
    Codes write (read >>= follow) result := by
  obtain ⟨encoded, hwrite, hvalid, hread⟩ := hnext
  refine ⟨encoded, hwrite, hvalid, fun text front back htext hback hsmall => ?_⟩
  rw [run_bind (h text front.length)]
  exact hread text front back htext hback hsmall

theorem Codes.step (h : Codes write read value)
    (hnext : Codes (writeAll rest) (follow value) result) :
    Codes (writeAll (write :: rest)) (read >>= follow) result := by
  obtain ⟨encoded, hwrite, hvalid, hread⟩ := h
  obtain ⟨others, hrest, hothers, hreadRest⟩ := hnext
  refine ⟨encoded ++ others, ?_, hvalid.append hothers, fun text front back htext hback hsmall => ?_⟩
  · rw [writeAll, hwrite, hrest]; rfl
  · have hfirst := hread text front (others ++ back) (by simpa using htext) (hothers.append hback)
      hsmall
    have hsecond := hreadRest text (front ++ encoded) back (by simpa using htext) hback hsmall
    rw [List.length_append] at hsecond
    rw [run_bind hfirst, hsecond, List.length_append, Nat.add_assoc]

theorem Codes.list {writeOne : α → Write} {read : Read α} (values : List α)
    (h : ∀ value ∈ values, Codes (writeOne value) read value) :
    Codes (writeAll (values.map writeOne)) (readList read values.length) values := by
  induction values with
  | nil => exact .done (.pure [])
  | cons value others ih =>
    have hothers := ih fun other hmem => h other (.tail _ hmem)
    refine .step (h value (.head _)) ?_
    obtain ⟨encoded, hwrite, hvalid, hread⟩ := hothers
    refine ⟨encoded, hwrite, hvalid, fun text front back htext hback hsmall => ?_⟩
    rw [run_bind (hread text front back htext hback hsmall)]; rfl

/-- Alone in a text, the value is read and the whole text with it. -/
theorem Codes.round_trip (h : Codes write read value) : ∃ encoded, write = .ok encoded ∧
    ∃ text, bytes text = encoded ∧
      (length text < 2 ^ 63 → read text 0 = .ok (value, length text)) := by
  obtain ⟨encoded, hwrite, ⟨text, htext⟩, hread⟩ := h
  refine ⟨encoded, hwrite, text, htext, fun hsmall => ?_⟩
  have hall := hread text [] [] (by simp [htext]) valid_nil hsmall
  rw [List.length_nil, Nat.zero_add] at hall
  rw [hall, ← htext, length]

end

end Loom.Framed
