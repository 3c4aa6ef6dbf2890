import Loom.Library.Texts

/-
  Texts that are read scalar by scalar.

  An offset counts bytes. The first byte of a character says how many bytes it has,
  and no later byte of it is one that starts a character; so a reader that goes from
  character to character stays on boundaries, and every boundary splits the text.
-/

namespace Loom.Texts

open Utf8 List

/-- The bytes of some characters. -/
def encode (chars : List Char) : List UInt8 := chars.flatMap String.utf8EncodeChar

def byte (text : String) (index : Nat) : Except Stop Nat :=
  match (bytes text)[index]? with
  | some value => .ok value.toNat
  | none => .error .fault

/-- The number of bytes of a character that starts with this one. -/
def widthOf (first : Nat) : Nat :=
  if first < 128 then 1 else if first < 224 then 2 else if first < 240 then 3 else 4

def width (text : String) (offset : Nat) : Except Stop Nat := do
  let first ← byte text offset
  if first < 128 ∨ 192 ≤ first then return widthOf first
  else .error .fault

theorem widthOf_pos (first : Nat) : 0 < widthOf first := by
  unfold widthOf
  split
  · exact Nat.one_pos
  · split
    · exact Nat.two_pos
    · split
      · exact Nat.succ_pos 2
      · exact Nat.succ_pos 3

variable {offset : Nat} {chars : List Char}

theorem width_pos {text : String} {size : Nat} (h : width text offset = .ok size) : 0 < size := by
  obtain ⟨first, -, hsize⟩ := Results.bind_eq_ok.mp h
  split at hsize
  case isTrue =>
    rw [← Results.pure_eq_ok.mp hsize]; exact widthOf_pos first
  case isFalse => cases hsize

/-! ## The bytes of a character -/

/-- `first :: rest` are the bytes of `char`. -/
structure Encoded (char : Char) (first : UInt8) (rest : List UInt8) : Prop where
  bytes : String.utf8EncodeChar char = first :: rest
  lead : first.toNat < 128 ∨ 192 ≤ first.toNat
  width : rest.length + 1 = widthOf first.toNat
  same : first.toNat = char.toNat ∨ 128 ≤ first.toNat ∧ 128 ≤ char.toNat
  inner : ∀ byte ∈ rest, 128 ≤ byte.toNat ∧ byte.toNat < 192

theorem encoded_char (char : Char) : ∃ first rest, Encoded char first rest := by
  have hrange : char.val.toNat < 1114112 := by
    have hvalid : char.val.toNat.isValidChar := char.valid
    omega
  suffices h : ∃ first rest, String.utf8EncodeChar char = first :: rest ∧
      (first.toNat < 128 ∨ 192 ≤ first.toNat) ∧ rest.length + 1 = widthOf first.toNat ∧
      (first.toNat = char.toNat ∨ 128 ≤ first.toNat ∧ 128 ≤ char.toNat) ∧
      ∀ byte ∈ rest, 128 ≤ byte.toNat ∧ byte.toNat < 192 by
    obtain ⟨first, rest, hbytes, hlead, hwidth, hsame, hinner⟩ := h
    exact ⟨first, rest, hbytes, hlead, hwidth, hsame, hinner⟩
  unfold String.utf8EncodeChar Char.toNat
  dsimp only
  -- one case for each length of an encoding
  split
  · refine ⟨_, _, rfl, ?_⟩
    rw [UInt8.toNat_ofNat', Nat.mod_eq_of_lt (by omega), widthOf, if_pos (by omega)]
    exact ⟨.inl (by omega), rfl, .inl rfl, nofun⟩
  split
  · refine ⟨_, _, rfl, ?_⟩
    rw [UInt8.toNat_ofNat', widthOf, if_neg (by omega), if_pos (by omega)]
    refine ⟨.inr (by omega), rfl, .inr (by omega), ?_⟩
    simp only [forall_mem_cons, UInt8.toNat_ofNat']; exact ⟨by omega, nofun⟩
  split
  · refine ⟨_, _, rfl, ?_⟩
    rw [UInt8.toNat_ofNat', widthOf, if_neg (by omega), if_neg (by omega), if_pos (by omega)]
    refine ⟨.inr (by omega), rfl, .inr (by omega), ?_⟩
    simp only [forall_mem_cons, UInt8.toNat_ofNat']
    exact ⟨by omega, by omega, nofun⟩
  · refine ⟨_, _, rfl, ?_⟩
    rw [UInt8.toNat_ofNat', widthOf, if_neg (by omega), if_neg (by omega), if_neg (by omega)]
    refine ⟨.inr (by omega), rfl, .inr (by omega), ?_⟩
    simp only [forall_mem_cons, UInt8.toNat_ofNat']
    exact ⟨by omega, by omega, by omega, nofun⟩

/-! ## The bytes of a text -/

@[simp] theorem encode_nil : encode [] = [] := rfl

theorem encode_cons (char : Char) (chars : List Char) :
    encode (char :: chars) = String.utf8EncodeChar char ++ encode chars := flatMap_cons

theorem encode_append (front back : List Char) :
    encode (front ++ back) = encode front ++ encode back := flatMap_append

theorem bytes_eq_encode (text : String) : bytes text = encode text.toList := by
  rw [encode, ← bytes_ofList, String.ofList_toList]

theorem valid_encode (chars : List Char) : Valid (encode chars) := valid_iff.mpr ⟨chars, rfl⟩

theorem encode_length_le (front back : List Char) :
    (encode front).length ≤ (encode (front ++ back)).length := by
  rw [encode_append, length_append]; omega

theorem encode_length_lt (front back : List Char) (char : Char) :
    (encode front).length < (encode (front ++ char :: back)).length := by
  obtain ⟨first, rest, hchar⟩ := encoded_char char
  rw [encode_append, encode_cons, hchar.bytes, length_append, cons_append, length_cons]
  omega

/-- A boundary is where some of the characters end. -/
theorem exists_split (h : boundary (encode chars) offset = true) :
    ∃ front back, chars = front ++ back ∧ (encode front).length = offset := by
  induction chars generalizing offset with
  | nil =>
    have hzero : offset = 0 := by
      by_contra hne
      simp [boundary, hne] at h
    exact ⟨[], [], rfl, hzero.symm⟩
  | cons char chars ih =>
    obtain ⟨first, rest, hchar⟩ := encoded_char char
    have hbytes : encode (char :: chars) = first :: rest ++ encode chars := by
      rw [encode_cons, hchar.bytes]
    rw [hbytes] at h
    by_cases hzero : offset = 0
    · exact ⟨[], char :: chars, rfl, hzero.symm⟩
    by_cases hinside : offset < (first :: rest).length
    · -- a byte in the character that does not start it
      obtain ⟨index, rfl⟩ := Nat.exists_eq_succ_of_ne_zero hzero
      have hindex : index < rest.length := by simpa using hinside
      have hinner := hchar.inner _ (rest.getElem_mem hindex)
      simp [boundary, List.getElem?_append, hindex] at h; omega
    · obtain ⟨more, rfl⟩ : ∃ more, offset = (first :: rest).length + more :=
        ⟨offset - (first :: rest).length, by omega⟩
      have hmore : boundary (encode chars) more = true := by
        have hright : (first :: rest ++ encode chars)[(first :: rest).length + more]? =
            (encode chars)[more]? := List.getElem?_append_right (by omega) |>.trans (by simp)
        rw [boundary, hright] at h
        rw [boundary]
        simp only [Bool.or_eq_true, decide_eq_true_eq, length_append] at h ⊢
        obtain (hstart | hend) | hbyte := h
        · exact absurd hstart hzero
        · exact .inl (.inr (by omega))
        · exact .inr hbyte
      obtain ⟨front, back, hchars, hlength⟩ := ih hmore
      refine ⟨char :: front, back, by rw [hchars, cons_append], ?_⟩
      rw [encode_cons, hchar.bytes, length_append, hlength]

/-- Where characters end is a boundary. -/
theorem boundary_encode (front back : List Char) :
    boundary (encode (front ++ back)) (encode front).length = true := by
  rw [encode_append]; exact boundary_append (valid_encode back)

theorem encode_injective {others : List Char} (h : encode chars = encode others) :
    chars = others := by
  have hsame : String.ofList chars = String.ofList others := by
    apply bytes_injective
    rw [bytes_ofList, bytes_ofList]; exact h
  calc chars
    _ = (String.ofList chars).toList := String.toList_ofList.symm
    _ = others := by rw [hsame, String.toList_ofList]

/-- The first byte tells how long a character is, so no encoding starts another one. -/
theorem encode_prefix {pattern : List Char} (h : encode pattern <+: encode chars) :
    pattern <+: chars := by
  induction pattern generalizing chars with
  | nil => exact nil_prefix
  | cons char pattern ih =>
    obtain ⟨first, rest, hchar⟩ := encoded_char char
    cases chars with
    | nil =>
      have hnone : encode (char :: pattern) = [] := prefix_nil.mp h
      rw [encode_cons, hchar.bytes] at hnone
      cases hnone
    | cons other chars =>
      obtain ⟨first', rest', hother⟩ := encoded_char other
      rw [encode_cons, encode_cons, hchar.bytes, hother.bytes, cons_append,
        cons_append, cons_prefix_cons] at h
      obtain ⟨rfl, hrests⟩ := h
      have hlength : rest.length = rest'.length := by
        have hwidth := hchar.width.trans hother.width.symm
        omega
      obtain ⟨behind, hbehind⟩ := hrests
      rw [append_assoc] at hbehind
      obtain ⟨rfl, hleft⟩ := append_inj hbehind hlength
      have hsame : [char] = [other] := by
        apply encode_injective
        rw [encode_cons, encode_cons, hchar.bytes, hother.bytes]
      obtain rfl : char = other := singleton_inj.mp hsame
      rw [cons_prefix_cons]; exact ⟨rfl, ih ⟨behind, hleft⟩⟩

/-- The bytes of some characters occur only where the characters do. -/
theorem exists_occurrence {pattern : List Char} (hsome : pattern ≠ [])
    (h : encode pattern <+: (encode chars).drop offset) :
    ∃ front back, chars = front ++ (pattern ++ back) ∧ (encode front).length = offset := by
  obtain ⟨char, others, rfl⟩ := exists_cons_of_ne_nil hsome
  obtain ⟨first, rest, hchar⟩ := encoded_char char
  have hstart : boundary (encode chars) offset = true := by
    obtain ⟨behind, hbehind⟩ := h
    have hfirst : (encode chars)[offset]? = some first := by
      have hhead := congrArg (fun l => l[0]?) hbehind
      rw [encode_cons, hchar.bytes] at hhead
      simpa using hhead.symm
    have hlead := hchar.lead
    simp [boundary, hfirst, hlead]
  obtain ⟨front, back, rfl, hlength⟩ := exists_split hstart
  rw [encode_append, ← hlength, drop_left] at h
  obtain ⟨left, hleft⟩ := encode_prefix h
  exact ⟨front, left, by rw [hleft], hlength⟩

/-- Between two characters that follow each other there is no boundary. -/
theorem no_split_inside {front back front' back' : List Char} {char : Char}
    (h : front ++ char :: back = front' ++ back')
    (hbehind : (encode front).length < (encode front').length) :
    (encode (front ++ [char])).length ≤ (encode front').length := by
  obtain ⟨more, rfl⟩ | ⟨more, rfl⟩ : (∃ more, front' = front ++ more) ∨
      ∃ more, front = front' ++ more := by
    obtain ⟨more, hmore, -⟩ | ⟨more, hmore, -⟩ := append_eq_append_iff.mp h
    · exact .inl ⟨more, hmore⟩
    · exact .inr ⟨more, hmore⟩
  · cases more with
    | nil => simp at hbehind
    | cons next more =>
      rw [append_assoc, append_cancel_left_eq, cons_append, cons.injEq] at h
      have hsplit : front ++ next :: more = front ++ [char] ++ more := by
        rw [h.1, append_assoc, singleton_append]
      rw [hsplit]; exact encode_length_le _ _
  · have hle := encode_length_le front' more
    omega

/-! ## Reading -/

variable {text : String} {front back : List Char} {char : Char} {first : UInt8} {rest : List UInt8}

theorem byte_eq (htext : text.toList = front ++ char :: back) (hchar : Encoded char first rest) :
    byte text (encode front).length = .ok first.toNat := by
  have hbytes : bytes text = encode front ++ (first :: (rest ++ encode back)) := by
    rw [bytes_eq_encode, htext, encode_append, encode_cons, hchar.bytes, cons_append]
  unfold byte
  rw [hbytes, List.getElem?_append_right (Nat.le_refl _), Nat.sub_self, List.getElem?_cons_zero]

/-- The width at a character leads behind it. -/
theorem width_eq (htext : text.toList = front ++ char :: back) :
    ∃ size, width text (encode front).length = .ok size ∧
      (encode front).length + size = (encode (front ++ [char])).length := by
  obtain ⟨first, rest, hchar⟩ := encoded_char char
  refine ⟨widthOf first.toNat, ?_, ?_⟩
  · rw [width, byte_eq htext hchar, Results.ok_bind, if_pos hchar.lead]; rfl
  · rw [encode_append, encode_cons, encode_nil, append_nil, length_append,
      hchar.bytes, length_cons, hchar.width]

theorem slice_chars {middle : List Char} (htext : text.toList = front ++ middle ++ back) :
    slice text (encode front).length (encode (front ++ middle)).length =
      .ok (String.ofList middle) := by
  have hmiddle : bytes (String.ofList middle) = encode middle := bytes_ofList middle
  have hbytes : bytes text = encode front ++ bytes (String.ofList middle) ++ encode back := by
    rw [bytes_eq_encode, htext, encode_append, encode_append, hmiddle]
  have hlength : (encode (front ++ middle)).length =
      (encode front).length + length (String.ofList middle) := by
    rw [encode_append, length_append, length, hmiddle]
  rw [hlength]; exact slice_eq hbytes (valid_encode back)

end Loom.Texts
