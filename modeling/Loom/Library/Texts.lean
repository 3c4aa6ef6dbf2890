import Loom.Library.Results
import Loom.Library.Utf8

/-
  Texts that are read by their bytes.

  A cut must lie between characters; elsewhere it is a fault. `parts` splits a text at
  a separator, `join` puts parts together again, `before` is the order of the bytes.
-/

namespace Loom.Texts

open Utf8 List

/-- How a computation ends that gives nothing. -/
inductive Stop where
  | fault
  | error (message : String)
  deriving DecidableEq

def fail {α : Type} (message : String) : Except Stop α := .error (.error message)

def length (text : String) : Nat := (bytes text).length

/-- Whether an offset lies between two characters. -/
def boundary (encoded : List UInt8) (offset : Nat) : Bool :=
  offset = 0 || offset = encoded.length ||
    encoded[offset]?.any fun byte => byte.toNat < 128 || 192 ≤ byte.toNat

def slice (text : String) (start stop : Nat) : Except Stop String :=
  let encoded := bytes text
  if start ≤ stop ∧ stop ≤ encoded.length ∧ boundary encoded start ∧ boundary encoded stop then
    match decode ((encoded.drop start).take (stop - start)) with
    | some text => .ok text
    | none => .error .fault
  else .error .fault

/-- The loop of a split: `start` is where the part that is read began. -/
def partsFrom (text : String) (separator : UInt8) :
    Nat → Nat → List UInt8 → Except Stop (List String)
  | start, offset, [] => do
    let part ← slice text start offset
    return [part]
  | start, offset, current :: rest =>
    if current = separator then do
      let part ← slice text start offset
      let others ← partsFrom text separator (offset + 1) (offset + 1) rest
      return part :: others
    else partsFrom text separator start (offset + 1) rest

def parts (text : String) (separator : UInt8) : Except Stop (List String) :=
  partsFrom text separator 0 0 (bytes text)

/-- The order of texts by their bytes. -/
def beforeBytes : List UInt8 → List UInt8 → Bool
  | x :: left, y :: right => if x ≠ y then x < y else beforeBytes left right
  | left, right => left.length < right.length

def before (left right : String) : Bool := beforeBytes (bytes left) (bytes right)

/-! ## Cuts -/

theorem Valid.first {byte : UInt8} {rest : List UInt8} (h : Valid (byte :: rest)) :
    byte.toNat < 128 ∨ 192 ≤ byte.toNat := by
  have hall : ∀ code < 256, (UInt8.ofNat code).IsUTF8FirstByte → code < 128 ∨ 192 ≤ code := by
    set_option maxRecDepth 8000 in decide
  obtain ⟨chars, hchars⟩ := valid_iff.mp h
  cases chars with
  | nil => cases hchars
  | cons char chars =>
    have hfirst : (String.utf8EncodeChar char)[0]? = some byte := by
      have hhead := congrArg (fun l => l[0]?) hchars
      have hpos := length_pos_of_ne_nil (String.utf8EncodeChar_ne_nil (c := char))
      simpa [List.getElem?_append_left hpos] using hhead.symm
    obtain ⟨hpos, hbyte⟩ := List.getElem?_eq_some_iff.mp hfirst
    have hstart : byte.IsUTF8FirstByte :=
      hbyte ▸ UInt8.isUTF8FirstByte_getElem_utf8EncodeChar.mpr rfl
    exact hall byte.toNat byte.toNat_lt (by rw [UInt8.ofNat_toNat]; exact hstart)

/-- In front of a text a character ends. -/
theorem boundary_append {front back : List UInt8} (h : Valid back) :
    boundary (front ++ back) front.length = true := by
  unfold boundary
  cases back with
  | nil => simp
  | cons byte rest =>
    have hfirst := Valid.first h
    simp [hfirst]

variable {text : String} {separator : UInt8} {left right : String}

theorem slice_eq {piece : String} {front back : List UInt8}
    (h : bytes text = front ++ bytes piece ++ back) (hback : Valid back) :
    slice text front.length (front.length + length piece) = .ok piece := by
  have hstart : boundary (bytes text) front.length = true := by
    rw [h, append_assoc]
    exact boundary_append ((valid_bytes piece).append hback)
  have hstop : boundary (bytes text) (front.length + length piece) = true := by
    have hlength : front.length + length piece = (front ++ bytes piece).length := by
      rw [length_append, length]
    rw [h, hlength]; exact boundary_append hback
  have hcut : ((bytes text).drop front.length).take (front.length + length piece - front.length) =
      bytes piece := by
    rw [h, append_assoc, drop_left, Nat.add_sub_cancel_left, length, take_left]
  have hsize : front.length + length piece ≤ (bytes text).length := by
    rw [h, length_append, length_append, length]; omega
  unfold slice
  rw [if_pos ⟨by omega, hsize, hstart, hstop⟩, hcut, decode_bytes]

/-- What is cut out of a text is in it. -/
theorem mem_of_slice {piece : String} {start stop : Nat} (h : slice text start stop = .ok piece) :
    bytes piece = ((bytes text).drop start).take (stop - start) := by
  unfold slice at h
  dsimp only at h
  split at h
  case isTrue =>
    cases hdecode : decode (((bytes text).drop start).take (stop - start)) with
    | none =>
      rw [hdecode] at h
      cases h
    | some cut =>
      rw [hdecode] at h
      rw [← Except.ok.inj h]; exact decode_eq_some.mp hdecode
  case isFalse => cases h

/-! ## Splitting and joining -/

def join (separator : UInt8) : List String → List UInt8
  | [] => []
  | [part] => bytes part
  | part :: next :: others => bytes part ++ separator :: join separator (next :: others)

theorem join_valid (hascii : separator < 128) (pieces : List String) :
    Valid (join separator pieces) := by
  fun_induction join separator pieces with
  | case1 => exact valid_nil
  | case2 part => exact valid_bytes part
  | case3 part next others ih => exact (valid_bytes part).append (ih.cons hascii)

/-- The loop passes a part that has no separator. -/
theorem partsFrom_skip (text : String) (start : Nat) (pending : List UInt8)
    (h : separator ∉ pending) (offset : Nat) (rest : List UInt8) :
    partsFrom text separator start offset (pending ++ rest) =
      partsFrom text separator start (offset + pending.length) rest := by
  induction pending generalizing offset with
  | nil => rfl
  | cons byte pending ih =>
    have hne : byte ≠ separator := fun heq => h (heq ▸ (.head _))
    rw [cons_append, partsFrom, if_neg hne, ih (fun hmem => h (.tail _ hmem)), length_cons]
    congr 1
    omega

theorem partsFrom_join (hascii : separator < 128) (pieces : List String) (hne : pieces ≠ [])
    (hfree : ∀ piece ∈ pieces, separator ∉ bytes piece) :
    ∀ front : List UInt8, bytes text = front ++ join separator pieces →
    partsFrom text separator front.length front.length (join separator pieces) = .ok pieces := by
  fun_induction join separator pieces with
  | case1 => exact absurd rfl hne
  | case2 part =>
    intro front h
    have hskip := partsFrom_skip text front.length (bytes part)
      (hfree part (.head _)) front.length []
    have hcut : slice text front.length (front.length + (bytes part).length) = .ok part :=
      slice_eq (show bytes text = front ++ bytes part ++ [] by rw [h, append_nil]) valid_nil
    rw [append_nil] at hskip
    rw [hskip, partsFrom, hcut]; rfl
  | case3 part next others ih =>
    intro front h
    have hskip := partsFrom_skip text front.length (bytes part)
      (hfree part (.head _)) front.length (separator :: join separator (next :: others))
    have hcut : slice text front.length (front.length + (bytes part).length) = .ok part :=
      slice_eq (by rw [h, append_assoc]) ((join_valid hascii (next :: others)).cons hascii)
    have hrest := ih nofun (fun piece hmem => hfree piece (.tail _ hmem))
      (front ++ bytes part ++ [separator]) (by rw [h]; simp)
    have hlength : (front ++ bytes part ++ [separator]).length =
        front.length + (bytes part).length + 1 := by
      rw [length_append, length_append, length_singleton]
    rw [hlength] at hrest
    rw [hskip, partsFrom, if_pos rfl, hcut, hrest]; rfl

theorem parts_join (hascii : separator < 128) {pieces : List String} (hne : pieces ≠ [])
    (hfree : ∀ piece ∈ pieces, separator ∉ bytes piece) (h : bytes text = join separator pieces) :
    parts text separator = .ok pieces := by
  have hall := partsFrom_join hascii pieces hne hfree [] (by rw [h, nil_append])
  rw [← h] at hall; exact hall

/-- The part that the loop is in has been passed since `start`. -/
theorem mem_of_partsFrom (left : List UInt8) :
    ∀ (front pending : List UInt8) {pieces : List String}, bytes text = front ++ pending ++ left →
    partsFrom text separator front.length (front.length + pending.length) left = .ok pieces →
    ∀ byte ∈ pending ++ left, byte = separator ∨ ∃ piece ∈ pieces, byte ∈ bytes piece := by
  have hcut : ∀ {front pending left : List UInt8} {part : String},
      bytes text = front ++ pending ++ left →
      slice text front.length (front.length + pending.length) = .ok part →
      bytes part = pending := by
    intro front pending left part h hslice
    rw [mem_of_slice hslice, h, append_assoc, drop_left, Nat.add_sub_cancel_left, take_left]
  induction left with
  | nil =>
    intro front pending pieces h hrun byte hbyte
    obtain ⟨part, hslice, hpieces⟩ := Results.bind_eq_ok.mp hrun
    rw [Results.pure_eq_ok] at hpieces
    rw [append_nil] at hbyte
    refine .inr ⟨part, by simp [← hpieces], ?_⟩
    rwa [hcut h hslice]
  | cons current left ih =>
    intro front pending pieces h hrun byte hbyte
    rw [partsFrom] at hrun
    split at hrun
    case isTrue hseparator =>
      obtain ⟨part, hslice, hrun⟩ := Results.bind_eq_ok.mp hrun
      obtain ⟨others, hrest, hpieces⟩ := Results.bind_eq_ok.mp hrun
      rw [Results.pure_eq_ok] at hpieces
      have hothers := ih (front ++ pending ++ [current]) []
        (by rw [h]; simp) (by simpa [Nat.add_assoc] using hrest)
      rw [← hpieces]
      obtain hpending | hcurrent | hleft : byte ∈ pending ∨ byte = current ∨ byte ∈ left := by
        simpa using hbyte
      · exact .inr ⟨part, .head _, by rwa [hcut h hslice]⟩
      · exact .inl (hcurrent.trans hseparator)
      · obtain hsame | ⟨piece, hmem, hin⟩ := hothers byte hleft
        · exact .inl hsame
        · exact .inr ⟨piece, .tail _ hmem, hin⟩
    case isFalse =>
      have hgo := ih front (pending ++ [current]) (by rw [h]; simp)
        (by simpa [Nat.add_assoc] using hrun)
      exact hgo byte (by simpa using hbyte)

theorem mem_of_parts {pieces : List String} (h : parts text separator = .ok pieces) {byte : UInt8}
    (hbyte : byte ∈ bytes text) : byte = separator ∨ ∃ piece ∈ pieces, byte ∈ bytes piece :=
  mem_of_partsFrom (bytes text) [] [] rfl h byte hbyte

/-! ## The order of texts -/

/-- It is the lexicographic order. -/
theorem beforeBytes_iff (left right : List UInt8) : beforeBytes left right = true ↔ left < right := by
  fun_induction beforeBytes left right with
  | case1 x left y right hne => simp [cons_lt_cons_iff, hne]
  | case2 x left y right heq ih =>
    obtain rfl : x = y := by simpa using heq
    simp [ih]
  | case3 left right h =>
    cases left with
    | nil => cases right <;> simp
    | cons x left =>
      cases right with
      | nil => simp
      | cons y right => exact (h x left y right rfl rfl).elim

theorem before_iff : before left right = true ↔ bytes left < bytes right := beforeBytes_iff _ _

theorem before_irrefl (text : String) : before text text = false := by
  rw [Bool.eq_false_iff, ne_eq, before_iff]
  exact List.lt_irrefl _

theorem before_trans {middle : String} (h₁ : before left middle = true)
    (h₂ : before middle right = true) : before left right = true := by
  rw [before_iff] at *
  exact List.lt_trans h₁ h₂

theorem before_total (h : left ≠ right) : before left right = true ∨ before right left = true := by
  rw [before_iff, before_iff]
  by_contra hneither
  obtain ⟨hless, hmore⟩ := not_or.mp hneither
  exact h (bytes_injective (List.le_antisymm hmore hless))

theorem before_asymm (h : before left right = true) : before right left = false := by
  by_contra hother
  have hself := before_trans h (Bool.not_eq_false _ ▸ hother)
  rw [before_irrefl] at hself
  cases hself

end Loom.Texts
