import Loom.Json.Incremental

/-
  The parser of JSON texts does not fault.

  The program has operations that fault on wrong input: text from bytes that are not
  UTF-8, code points that are none, bytes behind the end. The bounds of the model's
  loops are faults as well. No input reaches any of them.
-/

namespace Loom.Json

open Utf8 Results List

def Faultless {α : Type} (outcome : Except Stop α) : Prop := outcome ≠ .error .fault

section
variable {α β : Type} {first : Except Stop α}

theorem faultless_ok (value : α) : Faultless (.ok value) := nofun

theorem faultless_error (offset : Nat) (message : String) :
    Faultless (error offset message : Except Stop α) := nofun

theorem Faultless.bind (h : Faultless first) {second : α → Except Stop β}
    (hsecond : ∀ value, first = .ok value → Faultless (second value)) :
    Faultless (first >>= second) := by
  cases first with
  | ok value => exact hsecond value rfl
  | error stop =>
    intro hfault
    cases stop with
    | error failed => cases hfault
    | fault => exact h rfl

end

/-! ## Strings -/

variable {output : List UInt8} {start : Place}

theorem toText_faultless (h : Valid output) : Faultless (toText output) := by
  obtain ⟨text, htext⟩ := h
  rw [toText_eq_ok.mpr htext]; exact faultless_ok text

theorem hexDigits_faultless {count offset value : Nat} {rest : List UInt8}
    (h : count ≤ rest.length) : Faultless (hexDigits count offset rest value) := by
  induction count generalizing offset rest value with
  | zero => exact faultless_ok value
  | succ count ih =>
    cases rest with
    | nil => simp at h
    | cons byte rest =>
      rw [hexDigits]
      cases hex byte with
      | none => exact faultless_error _ _
      | some part => exact ih (by simpa using h)

theorem hexFour_faultless (start : Place) : Faultless (hexFour start) := by
  unfold hexFour
  split
  · exact faultless_error _ _
  · next hlength => exact hexDigits_faultless (Nat.le_of_not_lt hlength)

theorem fromCodepoint_faultless {value : Nat} (h : Scalar value) : Faultless (fromCodepoint value) := by
  obtain ⟨text, htext, _⟩ := fromCodepoint_eq h
  rw [htext]; exact faultless_ok text

theorem hexFour_lt {value : Nat} (h : hexFour start = .ok value) : value < 65536 := by
  obtain ⟨_, _, _, _, _, _, hvalue⟩ := hexFour_eq_ok.mp h
  exact hexValue_lt hvalue

theorem unicode_faultless (start : Place) : Faultless (unicode start) := by
  refine (hexFour_faultless start).bind ?_
  intro first hfirst
  have hless := hexFour_lt hfirst
  by_cases hhigh : 55296 ≤ first ∧ first ≤ 56319
  · rw [if_pos hhigh]
    split
    · exact faultless_error _ _
    · refine (hexFour_faultless _).bind ?_
      intro second hsecond
      split
      · exact faultless_error _ _
      · next hlow =>
        have hscalar : Scalar (65536 + (first - 55296) * 1024 + second - 56320) := by
          refine ⟨?_, .inr ?_⟩ <;> omega
        exact (fromCodepoint_faultless hscalar).bind (fun text _ => faultless_ok _)
  · rw [if_neg hhigh]
    split
    · exact faultless_error _ _
    · next hlow =>
      have hscalar : Scalar first := ⟨by omega, by omega⟩
      exact (fromCodepoint_faultless hscalar).bind (fun text _ => faultless_ok _)

theorem Chars.append {front back more : List UInt8} (hfront : Chars front output)
    (hback : Chars back more) : Chars (front ++ back) (output ++ more) := by
  induction hfront with
  | done => exact hback
  | plain hcontrol hquote hslash _ ih => exact .plain hcontrol hquote hslash ih
  | escape hsimple _ ih => exact .escape hsimple ih
  | @unicode code value written meant hcode _ ih =>
    rw [cons_append, cons_append, append_assoc, append_assoc]
    exact .unicode hcode ih

/-- The loop over a string. What is read before a place is kept with what it means. -/
theorem characters_faultless {bound : Nat} {written : List UInt8} (hchars : Chars written output)
    (hvalid : Valid (written ++ start.rest)) : Faultless (characters bound start output) := by
  induction bound generalizing start written output with
  | zero => exact faultless_error _ _
  | succ bound ih =>
    obtain ⟨offset, rest⟩ := start
    -- One more character.
    have hmore : ∀ {taken meant left : List UInt8} {offset : Nat}, Chars taken meant →
        rest = taken ++ left → Faultless (characters bound ⟨offset, left⟩ (output ++ meant)) := by
      intro taken meant left offset htaken hrest
      refine ih (hchars.append htaken) ?_
      rw [append_assoc, ← hrest]; exact hvalid
    unfold characters
    cases rest with
    | nil => exact faultless_error _ _
    | cons current rest =>
      dsimp only
      by_cases hquote : current = 34
      · rw [if_pos hquote]
        have hwritten : Valid written := by
          obtain ⟨hwritten, _⟩ := hvalid.split (by rw [hquote]; simp)
          exact hwritten
        have hmeant := hchars.valid [] hwritten
        exact (toText_faultless hmeant).bind (fun text _ => faultless_ok _)
      rw [if_neg hquote]
      by_cases hcontrol : current.toNat < 32
      · rw [if_pos hcontrol]; exact faultless_error _ _
      rw [if_neg hcontrol]
      by_cases hslash : current ≠ 92
      · rw [if_pos hslash]
        exact hmore (.plain (Nat.le_of_not_lt hcontrol) hquote hslash .done) rfl
      rw [if_neg hslash, skip_cons]
      obtain rfl : current = 92 := not_not.mp hslash
      cases rest with
      | nil => exact faultless_error _ _
      | cons escaped rest =>
        dsimp only
        by_cases hunicode : escaped = 117
        · rw [if_pos hunicode]
          refine (unicode_faultless _).bind ?_
          intro decoded hdecoded
          obtain ⟨meant, stop⟩ := decoded
          obtain ⟨code, value, hcode, rfl, hreads⟩ := unicode_sound hdecoded
          have hchar := Chars.unicode hcode .done
          rw [append_nil, append_nil] at hchar
          have hrest : rest = code ++ stop.rest := hreads.rest
          exact hmore hchar (by rw [hunicode, hrest]; rfl)
        · rw [if_neg hunicode]
          cases hsimple : simpleEscape escaped with
          | none => exact faultless_error _ _
          | some decoded => exact hmore (.escape ((lookup_escapes _).trans hsimple) .done) rfl

theorem string_faultless (hquote : start.rest.head? = some 34) (h : Valid start.rest) :
    Faultless (string start) := characters_faultless .done (skip_valid hquote (by decide) h)

/-! ## Numbers -/

theorem integerEnd_faultless (start : Place) : Faultless (integerEnd start) := by
  unfold integerEnd
  split
  · exact faultless_error _ _
  · split
    · split
      · exact faultless_error _ _
      · exact faultless_ok _
    · split
      · exact faultless_error _ _
      · exact faultless_ok _

theorem digits_faultless (index : Place) (message : String) :
    Faultless (if !index.rest.head?.any digit then error index.offset message
      else .ok (digits index)) := by
  split
  · exact faultless_error _ _
  · exact faultless_ok _

theorem fractionEnd_faultless (start : Place) : Faultless (fractionEnd start) := by
  unfold fractionEnd
  split
  · exact digits_faultless _ _
  · exact faultless_ok _

theorem exponentEnd_faultless (start : Place) : Faultless (exponentEnd start) := by
  unfold exponentEnd
  split
  · exact digits_faultless _ _
  · exact faultless_ok _

theorem numberEnd_faultless (start : Place) : Faultless (numberEnd start) := by
  refine (integerEnd_faultless _).bind ?_
  intro whole _
  refine (fractionEnd_faultless _).bind ?_
  intro fraction _; exact exponentEnd_faultless _

/-! ## Values -/

section
variable {room : Nat} {read : Place → Except Stop (Value × Place)}

theorem arrayItems_faultless (hread : Sound room read)
    (hsafe : ∀ {start : Place}, Valid start.rest → Faultless (read start)) {bound : Nat}
    {items : List Value} {start : Place} (hvalid : Valid start.rest)
    (hbound : start.rest.length < bound) : Faultless (arrayItems read bound items start) := by
  induction bound generalizing items start with
  | zero => exact absurd hbound (by omega)
  | succ bound ih =>
    refine (hsafe hvalid).bind ?_
    intro parsed hparsed
    obtain ⟨item, behind⟩ := parsed
    obtain ⟨before, taken, _, _, hreads, hvalid'⟩ := hread hvalid hparsed
    have hnext := whitespace_valid hvalid'
    have hlength := whitespace_length behind
    have hshorter := congrArg List.length hreads.rest
    rw [length_append] at hshorter
    dsimp only
    cases hrest : (whitespace behind).rest with
    | nil => exact faultless_error _ _
    | cons current rest =>
      dsimp only
      split
      · exact faultless_ok _
      · split
        · exact faultless_error _ _
        · next hcomma =>
          have hhead : (whitespace behind).rest.head? = some 44 := by
            rw [hrest, ← not_not.mp hcomma]; rfl
          have hskip := congrArg List.length (reads_skip _ hhead).rest
          rw [length_append, length_singleton] at hskip
          exact ih (skip_valid hhead (by decide) hnext) (by omega)

theorem objectFields_faultless (hread : Sound room read)
    (hsafe : ∀ {start : Place}, Valid start.rest → Faultless (read start)) {bound : Nat}
    {fields : List (String × Value)} {seen : List String} {start : Place}
    (hvalid : Valid start.rest) (hbound : start.rest.length < bound) :
    Faultless (objectFields read bound fields seen start) := by
  induction bound generalizing fields seen start with
  | zero => exact absurd hbound (by omega)
  | succ bound ih =>
    unfold objectFields
    split
    · exact faultless_error _ _
    next hquote =>
    have hquote := not_not.mp hquote
    refine (string_faultless hquote hvalid).bind ?_
    intro key hkey
    obtain ⟨key, behind⟩ := key
    obtain ⟨token, _, hkeyReads, hvalid'⟩ := string_sound hquote hvalid hkey
    have hkeyLength := congrArg List.length hkeyReads.rest
    rw [length_append] at hkeyLength
    dsimp only
    split
    · exact faultless_error _ _
    split
    · exact faultless_error _ _
    next hcolon =>
    have hcolon := not_not.mp hcolon
    have hbehind := whitespace_length behind
    have hcolonLength := congrArg List.length (reads_skip _ hcolon).rest
    rw [length_append] at hcolonLength
    have hvalue := skip_valid hcolon (by decide) (whitespace_valid hvalid')
    refine (hsafe hvalue).bind ?_
    intro parsed hparsed
    obtain ⟨item, beyond⟩ := parsed
    obtain ⟨before, taken, _, _, hreads, hvalid''⟩ := hread hvalue hparsed
    have hnext := whitespace_valid hvalid''
    have hlength := whitespace_length beyond
    have hshorter := congrArg List.length hreads.rest
    rw [length_append] at hshorter
    cases hrest : (whitespace beyond).rest with
    | nil => exact faultless_error _ _
    | cons current rest =>
      dsimp only
      split
      · exact faultless_ok _
      · split
        · exact faultless_error _ _
        · next hcomma =>
          have hhead : (whitespace beyond).rest.head? = some 44 := by
            rw [hrest, ← not_not.mp hcomma]; rfl
          have hskip := congrArg List.length (reads_skip _ hhead).rest
          rw [length_append, length_singleton] at hskip
          have hspaces := whitespace_length ((whitespace beyond).skip 1)
          exact ih (whitespace_valid (skip_valid hhead (by decide) hnext)) (by omega)

theorem number_faultless {index : Place} : Faultless (do
      let stop ← numberEnd index
      let raw ← toText (index.rest.take (stop.offset - index.offset))
      (.ok (Value.number raw, stop) : Except Stop (Value × Place))) := by
  refine (numberEnd_faultless index).bind ?_
  intro stop hstop
  obtain ⟨taken, hnumeral, hreads⟩ := numberEnd_sound hstop
  rw [hreads.take_eq]
  have hascii : Valid taken :=
    valid_of_ascii (fun byte hbyte => numberByte_ascii (hnumeral.bytes byte hbyte))
  exact (toText_faultless hascii).bind (fun raw _ => faultless_ok _)

end

/-- The value at a room, when those inside of it do not fault. -/
theorem value_faultless_of {room : Nat}
    (ih : ∀ below, room = below + 1 → ∀ {start : Place}, Valid start.rest →
      Faultless (value below start)) (h : Valid start.rest) : Faultless (value room start) := by
  have hvalid := whitespace_valid h
  unfold value
  dsimp only
  split
  · exact faultless_error _ _
  next current rest hrest =>
  have hhead : (whitespace start).rest.head? = some current := by rw [hrest]; rfl
  split
  · next hquote =>
    rw [hquote] at hhead
    exact (string_faultless hhead hvalid).bind (fun parsed _ => faultless_ok _)
  split
  · next hopen =>
    rw [hopen] at hhead
    split
    · exact faultless_error _ _
    · next below =>
      split
      · exact faultless_ok _
      · exact arrayItems_faultless (value_sound below) (ih below rfl)
          (whitespace_valid (skip_valid hhead (by decide) hvalid)) (Nat.lt_succ_self _)
  split
  · next hopen =>
    rw [hopen] at hhead
    split
    · exact faultless_error _ _
    · next below =>
      split
      · exact faultless_ok _
      · exact objectFields_faultless (value_sound below) (ih below rfl)
          (whitespace_valid (skip_valid hhead (by decide) hvalid)) (Nat.lt_succ_self _)
  split
  · exact faultless_ok _
  split
  · exact faultless_ok _
  split
  · exact faultless_ok _
  split
  · exact number_faultless
  · exact faultless_error _ _

theorem value_faultless (room : Nat) (h : Valid start.rest) : Faultless (value room start) := by
  induction room generalizing start with
  | zero => exact value_faultless_of (by omega) h
  | succ room ih =>
    refine value_faultless_of ?_ h
    intro below hbelow start hstart
    obtain rfl : room = below := by omega
    exact ih hstart

theorem parse_faultless (input : String) : Faultless (parse input) := by
  refine (value_faultless maximumDepth (valid_bytes input)).bind ?_
  intro parsed _
  dsimp only
  split
  · exact faultless_error _ _
  · exact faultless_ok _

/-! ## The incremental decoder -/

section
variable (state : DecoderState) (current : UInt8)

theorem jsonAccept_faultless (value : Value) : Faultless (jsonAccept state value) := by
  unfold jsonAccept
  split
  · split
    · exact faultless_error _ _
    · exact faultless_ok _
  · split
    · exact faultless_error _ _
    · exact faultless_ok _
  · split
    · split
      · split
        · exact faultless_error _ _
        · exact faultless_ok _
      · exact faultless_error _ _
    · split
      · exact faultless_ok _
      · exact faultless_error _ _

theorem jsonToken_faultless : Faultless (jsonToken state) := by
  unfold jsonToken
  split
  · exact faultless_error _ _
  · next text _ =>
    split
    · exact faultless_error _ _
    · next hfault => exact absurd hfault (parse_faultless text)
    · exact jsonAccept_faultless _ _

theorem jsonExpectedValue_faultless : Faultless (jsonExpectedValue state) := by
  unfold jsonExpectedValue
  split
  · split
    · exact faultless_ok _
    · exact faultless_error _ _
  · split
    · exact faultless_error _ _
    · exact faultless_ok _
  · split
    · exact faultless_error _ _
    · exact faultless_ok _

theorem jsonSeparator_faultless (outer : List JsonFrame) (frame : JsonFrame) :
    Faultless (jsonSeparator state current outer frame) := by
  unfold jsonSeparator
  split
  · split
    · exact faultless_error _ _
    · exact faultless_ok _
  · split
    · exact faultless_ok _
    · split
      · exact faultless_ok _
      · exact faultless_error _ _

theorem jsonStructure_faultless : Faultless (jsonStructure state current) := by
  unfold jsonStructure
  split
  · refine (jsonExpectedValue_faultless state).bind ?_
    intro _ _
    split
    · exact faultless_error _ _
    · exact faultless_ok _
  · split
    · exact faultless_error _ _
    · split
      · split
        · split
          · exact faultless_error _ _
          · exact jsonAccept_faultless _ _
        · split
          · exact faultless_error _ _
          · exact jsonAccept_faultless _ _
      · exact jsonSeparator_faultless _ _ _ _

theorem jsonBegins_faultless : Faultless (jsonBegins state current) := by
  unfold jsonBegins
  split
  · split
    · split
      · exact faultless_error _ _
      · exact faultless_ok _
    · exact jsonExpectedValue_faultless state
  · exact jsonExpectedValue_faultless state

theorem jsonOutside_faultless : Faultless (jsonOutside state current) := by
  unfold jsonOutside
  split
  · exact faultless_ok _
  · split
    · exact jsonStructure_faultless state current
    · exact (jsonBegins_faultless state current).bind (fun _ _ => faultless_ok _)

theorem jsonByte_faultless : Faultless (jsonByte state current) := by
  unfold jsonByte
  split
  · split
    · exact faultless_ok _
    · exact (jsonToken_faultless state).bind (fun closed _ => jsonOutside_faultless closed current)
  · exact jsonOutside_faultless state current

theorem stepByte_faultless : Faultless (stepByte state current) := by
  unfold stepByte
  split
  · exact (jsonByte_faultless state current).bind (fun _ _ => faultless_ok _)
  · unfold scanByte
    split
    · exact faultless_ok _
    · split
      · exact faultless_ok _
      · split
        · exact (jsonToken_faultless _).bind (fun _ _ => faultless_ok _)
        · exact faultless_ok _

theorem drive_faultless (rest : List UInt8) : Faultless (drive state rest) := by
  induction rest generalizing state with
  | nil => exact faultless_ok state
  | cons current rest ih =>
    exact (stepByte_faultless state current).bind (fun next _ => ih next)

theorem jsonFinished_faultless : Faultless (jsonFinished state) := by
  have hlast : Faultless (jsonLast state) := by
    unfold jsonLast
    split
    · exact jsonToken_faultless state
    · exact faultless_ok state
  refine hlast.bind ?_
  intro last _
  split
  · exact faultless_error _ _
  · split
    · exact faultless_ok _
    · exact faultless_error _ _

end

end Loom.Json
