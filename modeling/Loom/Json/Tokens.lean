import Loom.Json.Grammar
import Loom.Library.Results

/-
  The tokens that the parser reads are those of the grammar.
-/

namespace Loom.Json

open Utf8 Results List Option Except

/-! ## Numbers -/

/-- The bytes that go on with the digits in front of an exponent. -/
def decimal (byte : UInt8) : Bool := digit byte || byte = 46

/-- The bytes that go on with a number. -/
def numeric (byte : UInt8) : Bool := decimal byte || byte = 101 || byte = 69

variable {taken rest : List UInt8} {byte : UInt8} {start stop : Place} {value : Nat}
  {code output : List UInt8} {text : String}

theorem digits_append (h : ∀ byte ∈ taken, digit byte = true) (hstops : Stops digit rest)
    (offset : Nat) : digits ⟨offset, taken ++ rest⟩ = ⟨offset + taken.length, rest⟩ := by
  show digitsFrom offset (taken ++ rest) = _
  induction taken generalizing offset with
  | nil =>
    cases rest with
    | nil => rfl
    | cons byte rest =>
      have hbyte := stops_cons.mp hstops
      simp [digitsFrom, hbyte]
  | cons byte taken ih =>
    have hbyte : digit byte = true := h byte (.head _)
    rw [cons_append, digitsFrom, if_pos hbyte,
      ih (fun other hother => h other (.tail _ hother)), length_cons]
    congr 1
    omega

theorem digits_sound (start : Place) :
    ∃ taken, (∀ byte ∈ taken, digit byte = true) ∧ Reads start taken (digits start) ∧
      (start.rest.head?.any digit = true → taken ≠ []) := by
  obtain ⟨offset, rest⟩ := start
  show ∃ taken, _ ∧ Reads ⟨offset, rest⟩ taken (digitsFrom offset rest) ∧
    (rest.head?.any digit = true → taken ≠ [])
  induction rest generalizing offset with
  | nil => exact ⟨[], nofun, .refl _, by simp⟩
  | cons byte rest ih =>
    rw [digitsFrom]
    by_cases hbyte : digit byte = true
    · rw [if_pos hbyte]
      obtain ⟨taken, htaken, hreads, _⟩ := ih (offset + 1)
      refine ⟨byte :: taken, ?_, (reads_skip ⟨offset, byte :: rest⟩ rfl).trans hreads, by simp⟩
      intro other hother
      obtain hsame | hmem := mem_cons.mp hother
      · rw [hsame]; exact hbyte
      · exact htaken other hmem
    · rw [if_neg hbyte]
      exact ⟨[], nofun, .refl _, fun hany => absurd hany (by simpa using hbyte)⟩

theorem digits_some (start : Place) (h : start.rest.head?.any digit = true) :
    ∃ taken, Digits taken ∧ Reads start taken (digits start) := by
  obtain ⟨taken, hdigits, hreads, hsome⟩ := digits_sound start
  exact ⟨taken, ⟨hsome h, fun byte hbyte => mem_digits.mpr (hdigits byte hbyte)⟩, hreads⟩

theorem Digits.head (h : Digits taken) (rest : List UInt8) :
    (taken ++ rest).head?.any digit = true := by
  have hall := h.all
  cases taken with
  | nil => exact absurd rfl h.1
  | cons byte taken => simpa using hall byte (.head _)

theorem digit_range : digit byte = true ↔ 48 ≤ byte.toNat ∧ byte.toNat ≤ 57 := by
  simp [digit]

theorem integerEnd_sound (h : integerEnd start = .ok stop) :
    ∃ taken, Whole taken ∧ Reads start taken stop := by
  obtain ⟨offset, rest⟩ := start
  cases rest with
  | nil => cases h
  | cons first rest =>
    simp only [integerEnd] at h
    by_cases hzero : first = 48
    · rw [if_pos hzero] at h
      split at h
      · cases h
      · rw [ok.injEq] at h
        refine ⟨[48], .inl rfl, ?_⟩
        rw [← h]; exact reads_skip _ (by simp [hzero])
    · rw [if_neg hzero] at h
      split at h
      · cases h
      · next hrange =>
        have hdigit : digit first = true := digit_range.mpr (by omega)
        obtain ⟨taken, hdigits, hreads⟩ := digits_some ⟨offset, first :: rest⟩
          (by simpa using hdigit)
        rw [ok.injEq] at h
        refine ⟨taken, .inr ⟨hdigits, ?_⟩, h ▸ hreads⟩
        have hrest : first :: rest = taken ++ (digits ⟨offset, first :: rest⟩).rest := hreads.rest
        cases taken with
        | nil => exact absurd rfl hdigits.1
        | cons byte taken =>
          obtain rfl : first = byte := by
            rw [cons_append, cons.injEq] at hrest; exact hrest.1
          simpa using hzero

theorem integerEnd_complete (h : Whole taken) (hstops : Stops digit rest) (offset : Nat) :
    integerEnd ⟨offset, taken ++ rest⟩ = .ok ⟨offset + taken.length, rest⟩ := by
  obtain rfl | ⟨hdigits, hzero⟩ := h
  · have hnone : rest.head?.any digit = false := by
      cases rest with
      | nil => rfl
      | cons byte rest => exact stops_cons.mp hstops
    simp [integerEnd, hnone, Place.skip]
  · have hread := digits_append hdigits.all hstops offset
    cases taken with
    | nil => exact absurd rfl hdigits.1
    | cons first taken =>
      have hfirst : first ≠ 48 := by simpa using hzero
      have hnat : first.toNat ≠ 48 := fun hsame => hfirst (UInt8.toNat_inj.mp hsame)
      have hrange := digit_range.mp (hdigits.all first (.head _))
      rw [cons_append] at hread ⊢
      simp only [integerEnd]
      rw [if_neg hfirst, if_neg (by omega), hread]

theorem fractionEnd_sound (h : fractionEnd start = .ok stop) :
    ∃ taken, Fraction taken ∧ Reads start taken stop := by
  unfold fractionEnd at h
  by_cases hpoint : start.rest.head? = some 46
  · rw [if_pos hpoint] at h
    dsimp only at h
    split at h
    · cases h
    · next hdigit =>
      obtain ⟨taken, hdigits, hreads⟩ := digits_some (start.skip 1) (by simpa using hdigit)
      rw [ok.injEq] at h
      refine ⟨46 :: taken, .inr ⟨taken, hdigits, rfl⟩, ?_⟩
      exact (reads_skip start hpoint).trans (h ▸ hreads)
  · rw [if_neg hpoint, ok.injEq] at h; exact ⟨[], .inl rfl, h ▸ .refl _⟩

theorem fractionEnd_complete (h : Fraction taken) (hstops : Stops decimal rest) (offset : Nat) :
    fractionEnd ⟨offset, taken ++ rest⟩ = .ok ⟨offset + taken.length, rest⟩ := by
  obtain rfl | ⟨ds, hdigits, rfl⟩ := h
  · have hpoint : rest.head? ≠ some 46 := hstops.head_ne (by decide)
    exact if_neg hpoint
  · have hdigit : Stops digit rest := hstops.imp fun byte hbyte => by simp [decimal, hbyte]
    have hread := digits_append hdigits.all hdigit (offset + 1)
    have hhead := hdigits.head rest
    have hskip : Place.skip ⟨offset, 46 :: ds ++ rest⟩ 1 = ⟨offset + 1, ds ++ rest⟩ := rfl
    have hpoint : (46 :: ds ++ rest).head? = some 46 := rfl
    unfold fractionEnd
    rw [hskip]
    dsimp only
    rw [hhead, hread]
    simp; omega

theorem exponentEnd_sound (h : exponentEnd start = .ok stop) :
    ∃ taken, Exponent taken ∧ Reads start taken stop := by
  unfold exponentEnd at h
  by_cases hmark : start.rest.head? = some 101 ∨ start.rest.head? = some 69
  · obtain ⟨mark, hhead, hkind⟩ : ∃ mark, start.rest.head? = some mark ∧ (mark = 101 ∨ mark = 69) := by
      obtain hmark | hmark := hmark
      · exact ⟨101, hmark, .inl rfl⟩
      · exact ⟨69, hmark, .inr rfl⟩
    have hfirst := reads_skip start hhead
    rw [if_pos hmark] at h
    dsimp only at h
    obtain ⟨sign, index, hsign, hreads, hindex⟩ : ∃ sign index, Sign sign ∧
        Reads (start.skip 1) sign index ∧ (if (start.skip 1).rest.head? = some 43 ∨
          (start.skip 1).rest.head? = some 45 then (start.skip 1).skip 1 else start.skip 1) =
          index := by
      split
      · next hsign =>
        obtain hsign | hsign := hsign
        · exact ⟨[43], _, .inr (.inl rfl), reads_skip _ hsign, rfl⟩
        · exact ⟨[45], _, .inr (.inr rfl), reads_skip _ hsign, rfl⟩
      · exact ⟨[], _, .inl rfl, .refl _, rfl⟩
    rw [hindex] at h
    split at h
    · cases h
    · next hdigit =>
      obtain ⟨ds, hdigits, hlast⟩ := digits_some index (by simpa using hdigit)
      rw [ok.injEq] at h
      refine ⟨mark :: (sign ++ ds), .inr ⟨mark, sign, ds, hkind, hsign, hdigits, rfl⟩, ?_⟩
      exact hfirst.trans (hreads.trans (h ▸ hlast))
  · rw [if_neg hmark, ok.injEq] at h; exact ⟨[], .inl rfl, h ▸ .refl _⟩

theorem exponentEnd_complete (h : Exponent taken) (hstops : Stops numeric rest) (offset : Nat) :
    exponentEnd ⟨offset, taken ++ rest⟩ = .ok ⟨offset + taken.length, rest⟩ := by
  obtain rfl | ⟨mark, sign, ds, hkind, hsign, hdigits, rfl⟩ := h
  · have hmark : ¬(rest.head? = some 101 ∨ rest.head? = some 69) := by
      intro hmark
      obtain hmark | hmark := hmark
      · exact hstops.head_ne (by decide) hmark
      · exact hstops.head_ne (by decide) hmark
    exact if_neg hmark
  · have hdigit : Stops digit rest :=
      hstops.imp fun byte hbyte => by simp [numeric, decimal, hbyte]
    have hhead := hdigits.head rest
    have hmark : (mark :: (sign ++ ds) ++ rest).head? = some 101 ∨
        (mark :: (sign ++ ds) ++ rest).head? = some 69 := by
      obtain rfl | rfl := hkind
      · exact .inl rfl
      · exact .inr rfl
    have hskip : Place.skip ⟨offset, mark :: (sign ++ ds) ++ rest⟩ 1 =
        ⟨offset + 1, sign ++ (ds ++ rest)⟩ := by
      rw [← append_assoc]; rfl
    have hsigned : (if (sign ++ (ds ++ rest)).head? = some 43 ∨
          (sign ++ (ds ++ rest)).head? = some 45 then
          Place.skip ⟨offset + 1, sign ++ (ds ++ rest)⟩ 1
        else ⟨offset + 1, sign ++ (ds ++ rest)⟩) = ⟨offset + 1 + sign.length, ds ++ rest⟩ := by
      obtain rfl | rfl | rfl := hsign
      · rw [if_neg]
        · rfl
        · intro hsome
          rw [nil_append] at hsome
          obtain hsome | hsome := hsome
          · rw [hsome] at hhead; exact absurd hhead (by decide)
          · rw [hsome] at hhead; exact absurd hhead (by decide)
      · rfl
      · rfl
    have hread := digits_append hdigits.all hdigit (offset + 1 + sign.length)
    unfold exponentEnd
    rw [if_pos hmark, hskip]
    dsimp only
    rw [hsigned]
    rw [hhead, hread]
    simp; omega

theorem Whole.head (h : Whole taken) (rest : List UInt8) :
    (taken ++ rest).head?.any digit = true := by
  obtain rfl | ⟨hdigits, _⟩ := h
  · rfl
  · exact hdigits.head rest

theorem stops_append {kind : UInt8 → Bool} (h : ∀ byte ∈ taken.head?, kind byte = false)
    (hstops : Stops kind rest) : Stops kind (taken ++ rest) := by
  cases taken with
  | nil => exact hstops
  | cons byte taken => exact stops_cons.mpr (h byte rfl)

theorem numberEnd_sound (h : numberEnd start = .ok stop) :
    ∃ taken, Numeral taken ∧ Reads start taken stop := by
  obtain ⟨sign, index, hsign, hreads, hindex⟩ : ∃ sign index, (sign = [] ∨ sign = [45]) ∧
      Reads start sign index ∧
      (if start.rest.head? = some 45 then start.skip 1 else start) = index := by
    split
    · next hsign => exact ⟨[45], _, .inr rfl, reads_skip _ hsign, rfl⟩
    · exact ⟨[], _, .inl rfl, .refl _, rfl⟩
  unfold numberEnd at h
  dsimp only at h
  rw [hindex] at h
  cases hinteger : integerEnd index with
  | error => rw [hinteger] at h; cases h
  | ok behind =>
    rw [hinteger] at h
    obtain ⟨whole, hwhole, hwholeReads⟩ := integerEnd_sound hinteger
    cases hfraction : fractionEnd behind with
    | error =>
      have hstop : (fractionEnd behind >>= exponentEnd) = .ok stop := h
      rw [hfraction] at hstop
      cases hstop
    | ok beyond =>
      have hstop : (fractionEnd behind >>= exponentEnd) = .ok stop := h
      rw [hfraction] at hstop
      obtain ⟨fraction, hfraction, hfractionReads⟩ := fractionEnd_sound hfraction
      obtain ⟨exponent, hexponent, hexponentReads⟩ := exponentEnd_sound hstop
      exact ⟨_, .mk hsign hwhole hfraction hexponent,
        hreads.trans (hwholeReads.trans (hfractionReads.trans hexponentReads))⟩

theorem numberEnd_complete (h : Numeral taken) (hstops : Stops numeric rest) (offset : Nat) :
    numberEnd ⟨offset, taken ++ rest⟩ = .ok ⟨offset + taken.length, rest⟩ := by
  obtain @⟨sign, whole, fraction, exponent, hsign, hwhole, hfraction, hexponent⟩ := h
  have hmarked : Stops decimal (exponent ++ rest) := by
    refine stops_append ?_ (hstops.imp fun byte hbyte => by simp [numeric, hbyte])
    obtain rfl | ⟨mark, _, _, hmark, _, _, rfl⟩ := hexponent
    · exact nofun
    · intro byte hbyte
      obtain rfl : mark = byte := by simpa using hbyte
      obtain rfl | rfl := hmark <;> rfl
  have hpointed : Stops digit (fraction ++ (exponent ++ rest)) := by
    refine stops_append ?_ (hmarked.imp fun byte hbyte => by simp [decimal, hbyte])
    obtain rfl | ⟨_, _, rfl⟩ := hfraction
    · exact nofun
    · intro byte hbyte
      obtain rfl : 46 = byte := by simpa using hbyte
      rfl
  have hwholeRead := integerEnd_complete hwhole hpointed (offset + sign.length)
  have hfractionRead := fractionEnd_complete hfraction hmarked (offset + sign.length + whole.length)
  have hexponentRead := exponentEnd_complete hexponent hstops
    (offset + sign.length + whole.length + fraction.length)
  have hinput : sign ++ (whole ++ (fraction ++ exponent)) ++ rest =
      sign ++ (whole ++ (fraction ++ (exponent ++ rest))) := by simp
  have hsigned : (if (sign ++ (whole ++ (fraction ++ (exponent ++ rest)))).head? = some 45 then
        Place.skip ⟨offset, sign ++ (whole ++ (fraction ++ (exponent ++ rest)))⟩ 1
      else ⟨offset, sign ++ (whole ++ (fraction ++ (exponent ++ rest)))⟩) =
      ⟨offset + sign.length, whole ++ (fraction ++ (exponent ++ rest))⟩ := by
    obtain rfl | rfl := hsign
    · have hhead := hwhole.head (fraction ++ (exponent ++ rest))
      rw [if_neg]
      · rfl
      · intro hminus
        rw [nil_append] at hminus
        rw [hminus] at hhead; exact absurd hhead (by decide)
    · rfl
  unfold numberEnd
  rw [hinput]
  dsimp only
  rw [hsigned, hwholeRead]
  show (fractionEnd _ >>= exponentEnd) = _
  rw [hfractionRead]
  show exponentEnd _ = _
  rw [hexponentRead]
  simp; omega

/-- Every byte of a number is one that goes on with it, or a sign. -/
def numberByte (byte : UInt8) : Bool := numeric byte || byte = 43 || byte = 45

theorem Numeral.bytes (h : Numeral taken) : ∀ byte ∈ taken, numberByte byte = true := by
  have hall : ∀ {ds : List UInt8}, Digits ds → ∀ byte ∈ ds, numberByte byte = true := by
    intro ds hdigits byte hbyte
    simp [numberByte, numeric, decimal, hdigits.all byte hbyte]
  obtain @⟨sign, whole, fraction, exponent, hsign, hwhole, hfraction, hexponent⟩ := h
  intro byte hbyte
  simp only [mem_append] at hbyte
  obtain hbyte | hbyte | hbyte | hbyte := hbyte
  · obtain rfl | rfl := hsign
    · exact absurd hbyte not_mem_nil
    · rw [mem_singleton.mp hbyte]; rfl
  · obtain rfl | ⟨hdigits, _⟩ := hwhole
    · rw [mem_singleton.mp hbyte]; rfl
    · exact hall hdigits byte hbyte
  · obtain rfl | ⟨ds, hdigits, rfl⟩ := hfraction
    · exact absurd hbyte not_mem_nil
    · obtain rfl | hbyte := mem_cons.mp hbyte
      · rfl
      · exact hall hdigits byte hbyte
  · obtain rfl | ⟨mark, sign', ds, hmark, hsign', hdigits, rfl⟩ := hexponent
    · exact absurd hbyte not_mem_nil
    · rw [mem_cons, mem_append] at hbyte
      obtain hbyte | hbyte | hbyte := hbyte
      · rw [hbyte]
        obtain rfl | rfl := hmark <;> rfl
      · obtain rfl | rfl | rfl := hsign'
        · exact absurd hbyte not_mem_nil
        · rw [mem_singleton.mp hbyte]; rfl
        · rw [mem_singleton.mp hbyte]; rfl
      · exact hall hdigits byte hbyte

theorem Numeral.first (h : Numeral taken) :
    ∃ first more, taken = first :: more ∧ (first = 45 ∨ digit first = true) := by
  obtain @⟨sign, whole, fraction, exponent, hsign, hwhole, _, _⟩ := h
  obtain rfl | rfl := hsign
  · have hhead := hwhole.head (fraction ++ exponent)
    cases hcase : whole ++ (fraction ++ exponent) with
    | nil =>
      rw [hcase] at hhead; simp at hhead
    | cons first more =>
      rw [hcase] at hhead; exact ⟨first, more, rfl, .inr (by simpa using hhead)⟩
  · exact ⟨45, _, rfl, .inl rfl⟩

/-! ## Strings -/

theorem hex_lt (h : hex byte = some value) : value < 16 := by
  unfold hex at h
  split at h
  · next hdigit =>
    have hrange := digit_range.mp hdigit
    rw [some.injEq] at h; omega
  split at h
  · rw [some.injEq] at h; omega
  split at h
  · rw [some.injEq] at h; omega
  · cases h

theorem hexValue_lt {a b c d : UInt8} (h : hexValue a b c d = some value) : value < 65536 := by
  simp only [hexValue, hexadecimal_eq, bind_eq_bind, bind_eq_some_iff, some.injEq] at h
  obtain ⟨_, ha, _, hb, _, hc, _, hd, rfl⟩ := h
  have ha := hex_lt ha
  have hb := hex_lt hb
  have hc := hex_lt hc
  have hd := hex_lt hd
  omega

theorem hexFour_eq_ok :
    hexFour start = .ok value ↔
      ∃ a b c d rest, start.rest = a :: b :: c :: d :: rest ∧ hexValue a b c d = some value := by
  obtain ⟨offset, rest⟩ := start
  match rest with
  | [] | [_] | [_, _] | [_, _, _] => simp [hexFour, error]
  | a :: b :: c :: d :: rest =>
    have hlength : ¬(a :: b :: c :: d :: rest).length < 4 := by simp
    unfold hexFour
    rw [if_neg hlength]
    simp only [cons.injEq]
    constructor
    · intro h
      simp only [hexValue, hexadecimal_eq]
      cases ha : hex a with
      | none => simp [hexDigits, ha, error] at h
      | some first =>
        cases hb : hex b with
        | none => simp [hexDigits, ha, hb, error] at h
        | some second =>
          cases hc : hex c with
          | none => simp [hexDigits, ha, hb, hc, error] at h
          | some third =>
            cases hd : hex d with
            | none => simp [hexDigits, ha, hb, hc, hd, error] at h
            | some fourth => simpa [hexDigits, ha, hb, hc, hd] using h
    · intro h
      obtain ⟨_, _, _, _, _, ⟨rfl, rfl, rfl, rfl, rfl⟩, hvalue⟩ := h
      simp only [hexValue, hexadecimal_eq, bind_eq_bind, bind_eq_some_iff, some.injEq] at hvalue
      obtain ⟨_, ha, _, hb, _, hc, _, hd, rfl⟩ := hvalue
      simp [hexDigits, ha, hb, hc, hd]

/-- What is no surrogate, and in range. -/
def Scalar (value : Nat) : Prop := value ≤ 1114111 ∧ (value < 55296 ∨ 57343 < value)

theorem CodePoint.scalar (h : CodePoint code value) : Scalar value := by
  cases h with
  | single hvalue hplain =>
    have hless := hexValue_lt hvalue
    exact ⟨by omega, hplain⟩
  | pair _ hhigh hhigh' _ hlow hlow' =>
    refine ⟨?_, .inr ?_⟩ <;> omega

theorem codepointBytes_eq (h : Scalar value) :
    codepointBytes value = encoded value := by
  have hvalid : value.isValidChar := by
    obtain ⟨hrange, hplain⟩ := h
    omega
  have hnat : (Char.ofNat value).val.toNat = value := by
    unfold Char.ofNat
    rw [dif_pos hvalid]; rfl
  unfold codepointBytes encoded String.utf8EncodeChar
  rw [hnat]
  by_cases hone : value < 128
  · rw [if_pos hone, if_pos (show value ≤ 127 by omega)]
  rw [if_neg hone, if_neg (show ¬value ≤ 127 by omega)]
  by_cases htwo : value < 2048
  · have hfirst : value / 64 % 32 = value / 64 := by omega
    rw [if_pos htwo, if_pos (show value ≤ 2047 by omega), hfirst]
    simp [Nat.add_comm]
  rw [if_neg htwo, if_neg (show ¬value ≤ 2047 by omega)]
  by_cases hthree : value < 65536
  · have hfirst : value / 4096 % 16 = value / 4096 := by omega
    rw [if_pos hthree, if_pos (show value ≤ 65535 by omega), hfirst]
    simp [Nat.add_comm]
  · have hfirst : value / 262144 % 8 = value / 262144 := by omega
    rw [if_neg hthree, if_neg (show ¬value ≤ 65535 by omega), hfirst]
    simp [Nat.add_comm]

theorem encoded_valid (value : Nat) : Valid (encoded value) := valid_char _

theorem toText_eq_ok : toText output = .ok text ↔ bytes text = output := by
  rw [← decode_eq_some]
  unfold toText
  cases decode output with
  | none => simp
  | some text => simp

theorem fromCodepoint_eq (h : Scalar value) :
    ∃ text, fromCodepoint value = .ok text ∧ bytes text = encoded value := by
  obtain ⟨text, htext⟩ := encoded_valid value
  refine ⟨text, ?_, htext⟩
  have hscalar : value ≤ 1114111 ∧ (value < 55296 ∨ 57343 < value) := h
  unfold fromCodepoint
  rw [if_pos hscalar]; exact toText_eq_ok.mpr (htext.trans (codepointBytes_eq h).symm)

theorem fromCodepoint_sound (h : fromCodepoint value = .ok text) :
    bytes text = encoded value := by
  unfold fromCodepoint at h
  split at h
  · next hscalar => exact (toText_eq_ok.mp h).trans (codepointBytes_eq hscalar)
  · cases h

theorem reads_hex (h : hexFour start = .ok value) :
    ∃ a b c d, hexValue a b c d = some value ∧ Reads start [a, b, c, d] (start.skip 4) := by
  obtain ⟨a, b, c, d, rest, hrest, hvalue⟩ := hexFour_eq_ok.mp h
  refine ⟨a, b, c, d, hvalue, ?_, rfl⟩
  rw [Place.skip, hrest]; rfl

theorem unicode_sound (h : unicode start = .ok (output, stop)) :
    ∃ code value, CodePoint code value ∧ output = encoded value ∧ Reads start code stop := by
  obtain ⟨first, hfirst, h⟩ := bind_eq_ok.mp h
  obtain ⟨a, b, c, d, hvalue, hreads⟩ := reads_hex hfirst
  by_cases hhigh : 55296 ≤ first ∧ first ≤ 56319
  · rw [if_pos hhigh] at h
    split at h
    · cases h
    · next hescape =>
      obtain ⟨second, hsecond, h⟩ := bind_eq_ok.mp h
      obtain ⟨e, f, g, k, hvalue', hreads'⟩ := reads_hex hsecond
      split at h
      · cases h
      · next hlow =>
        obtain ⟨text, htext, h⟩ := bind_eq_ok.mp h
        obtain ⟨rfl, rfl⟩ := h
        have hpair : Reads (start.skip 4) [92, 117] ((start.skip 4).skip 2) := by
          obtain ⟨rest, hrest⟩ := isPrefixOf_iff_prefix.mp
            (show startsWith (start.skip 4) [92, 117] = true by simpa using hescape)
          refine ⟨?_, rfl⟩
          show _ = [92, 117] ++ (start.skip 4).rest.drop 2
          rw [← hrest]; rfl
        refine ⟨_, _, .pair hvalue hhigh.1 hhigh.2 hvalue' (by omega) (by omega),
          fromCodepoint_sound htext, ?_⟩
        have hlast : ((start.skip 4).skip 2).skip 4 = (start.skip 4).skip 6 := by
          simp [Place.skip]
        exact hlast ▸ hreads.trans (hpair.trans hreads')
  · rw [if_neg hhigh] at h
    split at h
    · cases h
    · next hlow =>
      obtain ⟨text, htext, h⟩ := bind_eq_ok.mp h
      obtain ⟨rfl, rfl⟩ := h
      exact ⟨_, _, .single hvalue (by omega), fromCodepoint_sound htext, hreads⟩

theorem unicode_complete (h : CodePoint code value) (offset : Nat) (rest : List UInt8) :
    unicode ⟨offset, code ++ rest⟩ =
      .ok (encoded value, ⟨offset + code.length, rest⟩) := by
  obtain ⟨text, htext, hbytes⟩ := fromCodepoint_eq h.scalar
  unfold unicode
  cases h with
  | @single a b c d value hvalue hplain =>
    have hfour : hexFour ⟨offset, [a, b, c, d] ++ rest⟩ = .ok value :=
      hexFour_eq_ok.mpr ⟨a, b, c, d, rest, rfl, hvalue⟩
    rw [hfour, ok_bind]
    rw [if_neg (by omega), if_neg (by omega), htext, ok_bind, hbytes]; rfl
  | @pair a b c d e f g k high low hvalue hhigh hhigh' hvalue' hlow hlow' =>
    have hfour : hexFour ⟨offset, [a, b, c, d, 92, 117, e, f, g, k] ++ rest⟩ = .ok high :=
      hexFour_eq_ok.mpr ⟨a, b, c, d, _, rfl, hvalue⟩
    have hfour' : hexFour ⟨offset + 4 + 2, e :: f :: g :: k :: rest⟩ = .ok low :=
      hexFour_eq_ok.mpr ⟨e, f, g, k, rest, rfl, hvalue'⟩
    have hescape : startsWith ⟨offset + 4, 92 :: 117 :: e :: f :: g :: k :: rest⟩ [92, 117] = true :=
      rfl
    have hskip : Place.skip ⟨offset, [a, b, c, d, 92, 117, e, f, g, k] ++ rest⟩ 4 =
        ⟨offset + 4, 92 :: 117 :: e :: f :: g :: k :: rest⟩ := rfl
    have hskip' : Place.skip ⟨offset + 4, 92 :: 117 :: e :: f :: g :: k :: rest⟩ 2 =
        ⟨offset + 4 + 2, e :: f :: g :: k :: rest⟩ := rfl
    rw [hfour, ok_bind]
    dsimp only
    rw [hskip, hskip', if_pos ⟨hhigh, hhigh'⟩, hescape]
    simp only [Bool.not_true, Bool.false_eq_true, if_false]
    rw [hfour', ok_bind, if_neg (by omega), htext, ok_bind, hbytes]; rfl

theorem characters_sound {bound : Nat} (h : characters bound start output = .ok (text, stop)) :
    ∃ written meant, Chars written meant ∧ bytes text = output ++ meant ∧
      Reads start (written ++ [34]) stop := by
  induction bound generalizing start output with
  | zero => cases h
  | succ bound ih =>
    obtain ⟨offset, rest⟩ := start
    unfold characters at h
    cases rest with
    | nil => cases h
    | cons current rest =>
      have hfirst : Reads ⟨offset, current :: rest⟩ [current] (Place.skip ⟨offset, current :: rest⟩ 1) :=
        reads_skip _ rfl
      dsimp only at h
      by_cases hquote : current = 34
      · rw [if_pos hquote] at h
        obtain ⟨text', htext, h⟩ := bind_eq_ok.mp h
        obtain ⟨rfl, rfl⟩ := h
        refine ⟨[], [], .done, ?_, hquote ▸ hfirst⟩
        rw [append_nil]; exact toText_eq_ok.mp htext
      rw [if_neg hquote] at h
      by_cases hcontrol : current.toNat < 32
      · rw [if_pos hcontrol] at h
        cases h
      rw [if_neg hcontrol] at h
      by_cases hplain : current ≠ 92
      · rw [if_pos hplain] at h
        obtain ⟨written, meant, hchars, hbytes, hreads⟩ := ih h
        refine ⟨current :: written, current :: meant,
          .plain (by omega) hquote hplain hchars, ?_, hfirst.trans hreads⟩
        rw [hbytes, append_assoc]; rfl
      have hbackslash : current = 92 := by simpa using hplain
      subst hbackslash
      cases rest with
      | nil => cases h
      | cons escaped rest =>
        have hsecond : Reads ⟨offset + 1, escaped :: rest⟩ [escaped]
            (Place.skip ⟨offset + 1, escaped :: rest⟩ 1) := reads_skip _ rfl
        have hskip : Place.skip ⟨offset, 92 :: escaped :: rest⟩ 1 = ⟨offset + 1, escaped :: rest⟩ :=
          rfl
        rw [hskip] at h hfirst
        dsimp only at h
        by_cases hunicode : escaped = 117
        · rw [if_pos hunicode] at h
          obtain ⟨⟨decoded, behind⟩, hdecoded, h⟩ := bind_eq_ok.mp h
          obtain ⟨code, value, hcode, rfl, hcodeReads⟩ := unicode_sound hdecoded
          obtain ⟨written, meant, hchars, hbytes, hreads⟩ := ih h
          refine ⟨_, _, .unicode hcode hchars, ?_, ?_⟩
          · rw [hbytes, append_assoc]
          · have hall := hfirst.trans (hsecond.trans (hcodeReads.trans hreads))
            rw [hunicode] at hall ⊢
            simpa using hall
        · rw [if_neg hunicode] at h
          cases hsimple : simpleEscape escaped with
          | none =>
            rw [hsimple] at h
            cases h
          | some decoded =>
            rw [hsimple] at h
            obtain ⟨written, meant, hchars, hbytes, hreads⟩ := ih h
            refine ⟨_, _, .escape ((lookup_escapes _).trans hsimple) hchars, ?_,
              hfirst.trans (hsecond.trans hreads)⟩
            rw [hbytes, append_assoc]; rfl

theorem characters_complete {written meant : List UInt8} (h : Chars written meant) {bound : Nat}
    (hbound : written.length < bound) (offset : Nat) (rest : List UInt8) (output : List UInt8)
    (htext : bytes text = output ++ meant) :
    characters bound ⟨offset, written ++ 34 :: rest⟩ output =
      .ok (text, ⟨offset + written.length + 1, rest⟩) := by
  induction h generalizing bound offset output with
  | done =>
    cases bound with
    | zero => simp at hbound
    | succ bound =>
      rw [append_nil] at htext
      have hread := toText_eq_ok.mpr htext
      show (do
        let text ← toText output
        ok (text, Place.mk (offset + 1) rest)) = _
      rw [hread]; rfl
  | @plain byte more meant hcontrol hquote hplain _ ih =>
    cases bound with
    | zero => simp at hbound
    | succ bound =>
      rw [length_cons] at hbound ⊢
      have hless : more.length < bound := by omega
      have hrest := ih hless (offset + 1) (output ++ [byte]) (by rw [htext, append_assoc]; rfl)
      unfold characters
      dsimp only [cons_append]
      rw [if_neg hquote, if_neg (by omega), if_pos hplain]
      refine hrest.trans ?_
      congr 3
      omega
  | @escape escaped decoded more meant hsimple _ ih =>
    cases bound with
    | zero => simp at hbound
    | succ bound =>
      rw [length_cons, length_cons] at hbound ⊢
      have hless : more.length < bound := by omega
      have hrest := ih hless (offset + 1 + 1) (output ++ [decoded])
        (by rw [htext, append_assoc]; rfl)
      rw [lookup_escapes] at hsimple
      have hunicode : escaped ≠ 117 := by
        intro hsame
        rw [hsame] at hsimple
        cases hsimple
      show (if escaped = 117 then _ else _) = _
      rw [if_neg hunicode]
      rw [hsimple]
      refine hrest.trans ?_
      congr 3
      omega
  | @unicode code value more meant hcode _ ih =>
    cases bound with
    | zero => simp at hbound
    | succ bound =>
      rw [length_cons, length_cons, length_append] at hbound ⊢
      have hless : more.length < bound := by omega
      have hrest := ih hless (offset + 1 + 1 + code.length) (output ++ encoded value)
        (by rw [htext, append_assoc])
      have hread := unicode_complete hcode (offset + 1 + 1) (more ++ 34 :: rest)
      show (do
        let decoded ← unicode ⟨offset + 1 + 1, code ++ more ++ 34 :: rest⟩
        characters bound decoded.2 (output ++ decoded.1)) = _
      rw [append_assoc, hread, ok_bind, hrest]
      congr 3
      omega

/-! ## The bytes of a string -/

theorem simpleEscape_ascii {escaped decoded : UInt8} (h : simpleEscape escaped = some decoded) :
    escaped < 128 ∧ decoded < 128 := by
  have hall : ∀ code < 256, ∀ decoded, simpleEscape (.ofNat code) = some decoded →
      UInt8.ofNat code < 128 ∧ decoded < 128 := by
    have hcodes : ∀ code < 256, (simpleEscape (.ofNat code)).all
        (fun decoded => UInt8.ofNat code < 128 && decoded < 128) = true := by
      set_option maxRecDepth 8000 in decide
    intro code hcode decoded hdecoded
    have hboth := hcodes code hcode
    rw [hdecoded] at hboth
    simpa using hboth
  have hbyte := hall escaped.toNat escaped.toNat_lt decoded
  rw [UInt8.ofNat_toNat] at hbyte; exact hbyte h

theorem hex_ascii (h : hex byte = some value) : byte < 128 := by
  show byte.toNat < 128
  unfold hex at h
  split at h
  · next hdigit =>
    have hrange := digit_range.mp hdigit
    omega
  split at h
  · omega
  split at h
  · omega
  · cases h

theorem hexValue_ascii {a b c d : UInt8} (h : hexValue a b c d = some value) :
    ∀ byte ∈ [a, b, c, d], byte < 128 := by
  simp only [hexValue, hexadecimal_eq, bind_eq_bind, bind_eq_some_iff] at h
  obtain ⟨_, ha, _, hb, _, hc, _, hd, _⟩ := h
  simp only [mem_cons, not_mem_nil, or_false]
  intro byte hbyte
  obtain rfl | rfl | rfl | rfl := hbyte
  · exact hex_ascii ha
  · exact hex_ascii hb
  · exact hex_ascii hc
  · exact hex_ascii hd

theorem CodePoint.ascii (h : CodePoint code value) : ∀ byte ∈ code, byte < 128 := by
  cases h with
  | single hvalue _ => exact hexValue_ascii hvalue
  | @pair a b c d e f g k _ _ hvalue _ _ hvalue' _ _ =>
    intro byte hbyte
    have hsplit : byte ∈ [a, b, c, d] ++ ([92, 117] ++ [e, f, g, k]) := hbyte
    rw [mem_append, mem_append] at hsplit
    obtain hbyte | hbyte | hbyte := hsplit
    · exact hexValue_ascii hvalue byte hbyte
    · simp only [mem_cons, not_mem_nil, or_false] at hbyte
      obtain rfl | rfl := hbyte <;> decide
    · exact hexValue_ascii hvalue' byte hbyte

/-- The bytes that a string means are a text, if the bytes between its quotes are.
The induction keeps the plain bytes in front, since a character may be cut by it. -/
theorem Chars.valid {written meant : List UInt8} (h : Chars written meant) (front : List UInt8)
    (hvalid : Valid (front ++ written)) : Valid (front ++ meant) := by
  induction h generalizing front with
  | done => exact hvalid
  | @plain byte more meant _ _ _ _ ih =>
    have hmoved := ih (front ++ [byte]) (by simpa using hvalid)
    simpa using hmoved
  | @escape escaped decoded more meant hsimple _ ih =>
    obtain ⟨hescaped, hdecoded⟩ := simpleEscape_ascii ((lookup_escapes _).symm.trans hsimple)
    obtain ⟨hfront, hback⟩ := hvalid.split (by simp)
    have hmore : Valid more := (hback.tail (by decide)).tail hescaped
    exact hfront.append ((valid_ascii hdecoded).append (ih [] hmore))
  | @unicode code value more meant hcode _ ih =>
    obtain ⟨hfront, hback⟩ := hvalid.split (by simp)
    have hmore : Valid more := ((hback.tail (by decide)).tail (by decide)).drop hcode.ascii
    exact hfront.append ((encoded_valid value).append (ih [] hmore))

/-! ## Whole strings -/

theorem string_sound (hquote : start.rest.head? = some 34) (hvalid : Valid start.rest)
    (h : string start = .ok (text, stop)) :
    ∃ token, Quoted token text ∧ Reads start token stop ∧ Valid stop.rest := by
  obtain ⟨written, meant, hchars, hbytes, hreads⟩ := characters_sound h
  have hfirst := reads_skip start hquote
  have hall := hfirst.trans hreads
  rw [hall.rest, append_assoc, append_assoc, singleton_append] at hvalid
  have hback := hvalid.tail (by decide)
  obtain ⟨hwritten, hrest⟩ := hback.split (by simp)
  refine ⟨_, ⟨written, rfl, hbytes ▸ hchars, hwritten⟩, hall, ?_⟩
  exact hrest.tail (by decide)

theorem string_complete {token : List UInt8} (h : Quoted token text) (offset : Nat)
    (rest : List UInt8) :
    string ⟨offset, token ++ rest⟩ = .ok (text, ⟨offset + token.length, rest⟩) := by
  obtain ⟨written, rfl, hchars, _⟩ := h
  have hbound : written.length < (34 :: (written ++ [34]) ++ rest).length := by
    rw [length_append, length_cons, length_append]; omega
  have hread := characters_complete hchars hbound (offset + 1) rest []
    (show bytes text = [] ++ bytes text from rfl)
  have hinput : written ++ [34] ++ rest = written ++ 34 :: rest := by simp
  show characters _ ⟨offset + 1, written ++ [34] ++ rest⟩ [] = _
  rw [hinput]
  refine hread.trans ?_
  simp; omega

end Loom.Json
