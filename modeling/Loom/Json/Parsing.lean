import Loom.Json.Tokens

/-
  The parser and the grammar.
-/

namespace Loom.Json

open Utf8 Results List Except

/-! ## What is parsed is derived -/

variable {byte : UInt8} {taken : List UInt8} {start stop : Place} {before inner : List UInt8}
  {items : List Value} {room : Nat} {fields : List (String × Value)} {parsed : Value}
  {seen : List String} {key input : String} {after : List UInt8}

theorem space_ascii (h : space byte = true) : byte < 128 := by
  simp only [space, Bool.or_eq_true, decide_eq_true_eq] at h
  obtain ((rfl | rfl) | rfl) | rfl := h <;> decide

theorem Spaces.ascii (h : Spaces taken) : ∀ byte ∈ taken, byte < 128 :=
  fun byte hbyte => space_ascii (h.all byte hbyte)

theorem Reads.valid (h : Reads start taken stop) (hascii : ∀ byte ∈ taken, byte < 128)
    (hvalid : Valid start.rest) : Valid stop.rest := by
  rw [h.rest] at hvalid; exact hvalid.drop hascii

theorem whitespace_valid (h : Valid start.rest) : Valid (whitespace start).rest := by
  obtain ⟨before, hbefore, hreads, _⟩ := whitespace_sound start
  exact hreads.valid hbefore.ascii h

theorem skip_valid (hbyte : start.rest.head? = some byte) (hascii : byte < 128)
    (h : Valid start.rest) : Valid (start.skip 1).rest :=
  (reads_skip start hbyte).valid (by simpa using hascii) h

theorem derives_spaces_items (hbefore : Spaces before) (h : Derives room inner (.items items)) :
    Derives room (before ++ inner) (.items items) := by
  cases h with
  | item hspaces hvalue hafter =>
    rw [← append_assoc]
    exact .item (spaces_append.mpr ⟨hbefore, hspaces⟩) hvalue hafter
  | items hspaces hvalue hafter hmore =>
    rw [← append_assoc]
    exact .items (spaces_append.mpr ⟨hbefore, hspaces⟩) hvalue hafter hmore

theorem derives_spaces_fields (hbefore : Spaces before) (h : Derives room inner (.fields fields)) :
    Derives room (before ++ inner) (.fields fields) := by
  cases h with
  | field hspaces hkey hbetween hbefore' hvalue hafter =>
    rw [← append_assoc]
    exact .field (spaces_append.mpr ⟨hbefore, hspaces⟩) hkey hbetween hbefore' hvalue hafter
  | fields hspaces hkey hbetween hbefore' hvalue hafter hmore =>
    rw [← append_assoc]
    exact .fields (spaces_append.mpr ⟨hbefore, hspaces⟩) hkey hbetween hbefore' hvalue hafter hmore

/-- What a successful parse of a value has read. -/
def Sound (room : Nat) (read : Place → Except Stop (Value × Place)) : Prop :=
  ∀ {start stop : Place} {parsed : Value}, Valid start.rest → read start = .ok (parsed, stop) →
    ∃ before taken, Spaces before ∧ Derives room taken (.value parsed) ∧
      Reads start (before ++ taken) stop ∧ Valid stop.rest

theorem arrayItems_sound {read : Place → Except Stop (Value × Place)} (hread : Sound room read)
    {bound : Nat} (hvalid : Valid start.rest)
    (h : arrayItems read bound items start = .ok (parsed, stop)) :
    ∃ inner more, Derives room inner (.items more) ∧ parsed = .array (items ++ more) ∧
      Reads start (inner ++ [93]) stop ∧ Valid stop.rest := by
  induction bound generalizing items start with
  | zero => cases h
  | succ bound ih =>
    obtain ⟨⟨item, behind⟩, hitem, h⟩ := bind_eq_ok.mp h
    obtain ⟨before, taken, hbefore, hderives, hreads, hvalid'⟩ := hread hvalid hitem
    obtain ⟨after, hafter, hspaces, _⟩ := whitespace_sound behind
    have hnext := whitespace_valid hvalid'
    dsimp only at h
    cases hrest : (whitespace behind).rest with
    | nil =>
      rw [hrest] at h
      cases h
    | cons current rest =>
      rw [hrest] at h
      dsimp only at h
      have hhead : (whitespace behind).rest.head? = some current := by rw [hrest]; rfl
      have hskip := reads_skip (whitespace behind) hhead
      have hfront := (hreads.trans hspaces).trans hskip
      by_cases hclose : current = 93
      · rw [if_pos hclose, ok.injEq] at h
        obtain ⟨rfl, rfl⟩ := h
        refine ⟨_, [item], .item hbefore hderives hafter, rfl, ?_, ?_⟩
        · rw [hclose] at hfront
          simpa using hfront
        · exact skip_valid hhead (by rw [hclose]; decide) hnext
      rw [if_neg hclose] at h
      by_cases hcomma : current ≠ 44
      · rw [if_pos hcomma] at h
        cases h
      rw [if_neg hcomma] at h
      have hsame : current = 44 := by simpa using hcomma
      obtain ⟨inner, more, hinner, hparsed, hlast, hend⟩ :=
        ih (skip_valid hhead (by rw [hsame]; decide) hnext) h
      refine ⟨_, item :: more, .items hbefore hderives hafter hinner, ?_, ?_, hend⟩
      · rw [hparsed, append_assoc]; rfl
      · have hall := hfront.trans hlast
        rw [hsame] at hall
        simpa using hall

theorem nodup_seen (hseen : seen.Nodup) (hfresh : key ∉ seen) : (seen ++ [key]).Nodup := by
  refine nodup_append.mpr ⟨hseen, by simp, ?_⟩
  intro old hold new hnew hsame
  rw [hsame, mem_singleton.mp hnew] at hold; exact hfresh hold

theorem objectFields_sound {read : Place → Except Stop (Value × Place)} (hread : Sound room read)
    {bound : Nat} (hvalid : Valid start.rest) (hseen : seen.Nodup)
    (h : objectFields read bound fields seen start = .ok (parsed, stop)) :
    ∃ inner more, Derives room inner (.fields more) ∧ parsed = .object (fields ++ more) ∧
      (seen ++ more.map Prod.fst).Nodup ∧ Reads start (inner ++ [125]) stop ∧ Valid stop.rest := by
  induction bound generalizing fields seen start with
  | zero => cases h
  | succ bound ih =>
    unfold objectFields at h
    split at h
    · cases h
    next hquote =>
    obtain ⟨⟨key, behind⟩, hkey, h⟩ := bind_eq_ok.mp h
    obtain ⟨token, hquoted, hkeyReads, hvalid'⟩ := string_sound (by simpa using hquote) hvalid hkey
    dsimp only at h
    split at h
    · cases h
    next hfresh =>
    obtain ⟨between, hbetween, hbetweenReads, _⟩ := whitespace_sound behind
    have hcolonValid := whitespace_valid hvalid'
    split at h
    · cases h
    next hcolon =>
    have hcolon : (whitespace behind).rest.head? = some 58 := by simpa using hcolon
    have hcolonReads := reads_skip _ hcolon
    obtain ⟨⟨item, beyond⟩, hitem, h⟩ := bind_eq_ok.mp h
    obtain ⟨before, taken, hbefore, hderives, hreads, hvalid''⟩ :=
      hread (skip_valid hcolon (by decide) hcolonValid) hitem
    obtain ⟨after, hafter, hspaces, _⟩ := whitespace_sound beyond
    have hnext := whitespace_valid hvalid''
    have hkeys := nodup_seen hseen hfresh
    cases hrest : (whitespace beyond).rest with
    | nil =>
      rw [hrest] at h
      cases h
    | cons current rest =>
      rw [hrest] at h
      dsimp only at h
      have hhead : (whitespace beyond).rest.head? = some current := by rw [hrest]; rfl
      have hfront := hkeyReads.trans (hbetweenReads.trans (hcolonReads.trans (hreads.trans
        (hspaces.trans (reads_skip _ hhead)))))
      by_cases hclose : current = 125
      · rw [if_pos hclose, ok.injEq] at h
        obtain ⟨rfl, rfl⟩ := h
        refine ⟨_, [(key, item)],
          .field spaces_nil hquoted hbetween hbefore hderives hafter, rfl, hkeys, ?_, ?_⟩
        · rw [hclose] at hfront
          simpa using hfront
        · exact skip_valid hhead (by rw [hclose]; decide) hnext
      rw [if_neg hclose] at h
      by_cases hcomma : current ≠ 44
      · rw [if_pos hcomma] at h
        cases h
      rw [if_neg hcomma] at h
      have hsame : current = 44 := by simpa using hcomma
      have hskip := skip_valid hhead (by rw [hsame]; decide) hnext
      obtain ⟨before', hbefore', hbeforeReads, _⟩ := whitespace_sound ((whitespace beyond).skip 1)
      obtain ⟨inner, more, hinner, hparsed, hnodup, hlast, hend⟩ :=
        ih (whitespace_valid hskip) hkeys h
      refine ⟨_, (key, item) :: more, .fields spaces_nil hquoted hbetween hbefore hderives hafter
        (derives_spaces_fields hbefore' hinner), ?_, ?_, ?_, hend⟩
      · rw [hparsed, append_assoc]; rfl
      · simpa using hnodup
      · have hall := hfront.trans (hbeforeReads.trans hlast)
        rw [hsame] at hall
        simpa using hall

theorem bytes_null : bytes "null" = [110, 117, 108, 108] := by decide

theorem bytes_true : bytes "true" = [116, 114, 117, 101] := by decide

theorem bytes_false : bytes "false" = [102, 97, 108, 115, 101] := by decide

theorem ascii_of_all (h : taken.all (fun byte => byte.toNat < 128) = true) :
    ∀ byte ∈ taken, byte < 128 := by
  intro byte hbyte
  have hless := all_eq_true.mp h byte hbyte
  exact UInt8.lt_iff_toNat_lt.mpr (by simpa using hless)

theorem reads_literal {expected : List UInt8} (h : startsWith start expected = true) :
    Reads start expected (start.skip expected.length) := by
  obtain ⟨rest, hrest⟩ := isPrefixOf_iff_prefix.mp h
  refine ⟨?_, rfl⟩
  show start.rest = expected ++ start.rest.drop expected.length
  rw [← hrest, drop_left]

theorem literal_sound {text : String} (hbefore : Spaces before)
    (hreads : Reads start before (whitespace start)) (hvalid : Valid (whitespace start).rest)
    (hascii : ∀ byte ∈ bytes text, byte < 128)
    (hderives : Derives room (bytes text) (.value parsed))
    (hliteral : startsWith (whitespace start) (bytes text) = true)
    (hstop : stop = (whitespace start).skip (bytes text).length) :
    ∃ before taken, Spaces before ∧ Derives room taken (.value parsed) ∧
      Reads start (before ++ taken) stop ∧ Valid stop.rest := by
  have htoken := reads_literal hliteral
  rw [hstop]
  exact ⟨before, _, hbefore, hderives, hreads.trans htoken, htoken.valid hascii hvalid⟩

theorem numberByte_ascii (h : numberByte byte = true) : byte < 128 := by
  show byte.toNat < 128
  simp only [numberByte, numeric, decimal, Bool.or_eq_true, decide_eq_true_eq] at h
  obtain ((((hdigit | rfl) | rfl) | rfl) | rfl) | rfl := h
  · have hrange := digit_range.mp hdigit
    omega
  all_goals decide

theorem value_sound_of (ih : ∀ below, room = below + 1 → Sound below (value below)) :
    Sound room (value room) := by
  intro start stop parsed hvalid h
  obtain ⟨before, hbefore, hreads, hstops⟩ := whitespace_sound start
  have hvalid' := whitespace_valid hvalid
  unfold value at h
  dsimp only at h
  cases hrest : (whitespace start).rest with
  | nil =>
    rw [hrest] at h
    cases h
  | cons current rest =>
    rw [hrest] at h
    dsimp only at h
    have hhead : (whitespace start).rest.head? = some current := by rw [hrest]; rfl
    have hfirst := reads_skip _ hhead
    by_cases hquote : current = 34
    · -- a string
      rw [if_pos hquote] at h
      obtain ⟨⟨text, behind⟩, htext, h⟩ := bind_eq_ok.mp h
      obtain ⟨rfl, rfl⟩ := h
      obtain ⟨token, hquoted, htoken, hend⟩ := string_sound (hquote ▸ hhead) hvalid' htext
      exact ⟨before, token, hbefore, .string hquoted, hreads.trans htoken, hend⟩
    rw [if_neg hquote] at h
    by_cases harray : current = 91
    · rw [if_pos harray] at h
      cases room with
      | zero => cases h
      | succ room =>
        dsimp only at h
        obtain ⟨inside, hinside, hinsideReads, _⟩ := whitespace_sound ((whitespace start).skip 1)
        have hnext := whitespace_valid (skip_valid hhead (by rw [harray]; decide) hvalid')
        have hopen := hreads.trans (hfirst.trans hinsideReads)
        rw [harray] at hopen
        split at h
        · next hclose =>
          obtain ⟨rfl, rfl⟩ := h
          have hall := hopen.trans (reads_skip _ hclose)
          refine ⟨before, _, hbefore, .emptyArray hinside, ?_, skip_valid hclose (by decide) hnext⟩
          simpa using hall
        · obtain ⟨inner, more, hinner, rfl, hlast, hend⟩ := arrayItems_sound (ih room rfl) hnext h
          have hall := hopen.trans hlast
          refine ⟨before, _, hbefore, .array (derives_spaces_items hinside hinner), ?_, hend⟩
          simpa using hall
    rw [if_neg harray] at h
    by_cases hobject : current = 123
    · rw [if_pos hobject] at h
      cases room with
      | zero => cases h
      | succ room =>
        dsimp only at h
        obtain ⟨inside, hinside, hinsideReads, _⟩ := whitespace_sound ((whitespace start).skip 1)
        have hnext := whitespace_valid (skip_valid hhead (by rw [hobject]; decide) hvalid')
        have hopen := hreads.trans (hfirst.trans hinsideReads)
        rw [hobject] at hopen
        split at h
        · next hclose =>
          obtain ⟨rfl, rfl⟩ := h
          have hall := hopen.trans (reads_skip _ hclose)
          refine ⟨before, _, hbefore, .emptyObject hinside, ?_, skip_valid hclose (by decide) hnext⟩
          simpa using hall
        · obtain ⟨inner, more, hinner, rfl, hnodup, hlast, hend⟩ :=
            objectFields_sound (ih room rfl) hnext nodup_nil h
          have hall := hopen.trans hlast
          refine ⟨before, _, hbefore,
            .object (derives_spaces_fields hinside hinner) (by simpa using hnodup), ?_, hend⟩
          simpa using hall
    rw [if_neg hobject] at h
    by_cases hnull : startsWith (whitespace start) (bytes "null") = true
    · rw [if_pos hnull, ok.injEq] at h
      obtain ⟨rfl, rfl⟩ := h
      exact literal_sound hbefore hreads hvalid' (ascii_of_all (by rfl)) .null hnull (by rfl)
    rw [if_neg hnull] at h
    by_cases htrue : startsWith (whitespace start) (bytes "true") = true
    · rw [if_pos htrue, ok.injEq] at h
      obtain ⟨rfl, rfl⟩ := h
      exact literal_sound hbefore hreads hvalid' (ascii_of_all (by rfl)) .true htrue (by rfl)
    rw [if_neg htrue] at h
    by_cases hfalse : startsWith (whitespace start) (bytes "false") = true
    · rw [if_pos hfalse, ok.injEq] at h
      obtain ⟨rfl, rfl⟩ := h
      exact literal_sound hbefore hreads hvalid' (ascii_of_all (by rfl)) .false hfalse (by rfl)
    rw [if_neg hfalse] at h
    split at h
    · -- a number
      obtain ⟨behind, hbehind, h⟩ := bind_eq_ok.mp h
      obtain ⟨raw, hraw, h⟩ := bind_eq_ok.mp h
      obtain ⟨rfl, rfl⟩ := h
      obtain ⟨taken, hnumeral, htoken⟩ := numberEnd_sound hbehind
      have hbytes := toText_eq_ok.mp hraw
      rw [← hrest, htoken.take_eq] at hbytes
      refine ⟨before, bytes raw, hbefore, .number (hbytes ▸ hnumeral), ?_, ?_⟩
      · rw [hbytes]; exact hreads.trans htoken
      · exact htoken.valid (fun byte hbyte => numberByte_ascii (hnumeral.bytes byte hbyte)) hvalid'
    · cases h

theorem value_sound (room : Nat) : Sound room (value room) := by
  induction room with
  | zero => exact value_sound_of (by omega)
  | succ room ih =>
    apply value_sound_of
    intro below h
    obtain rfl : room = below := by omega
    exact ih

theorem parse_sound (h : parse input = .ok parsed) : Document (bytes input) parsed := by
  obtain ⟨⟨parsed', stop⟩, hvalue, h⟩ := bind_eq_ok.mp h
  obtain ⟨before, taken, hbefore, hderives, hreads, _⟩ :=
    value_sound maximumDepth (valid_bytes input) hvalue
  obtain ⟨after, hafter, hspaces, _⟩ := whitespace_sound stop
  dsimp only at h
  split at h
  · cases h
  · next hend =>
    rw [ok.injEq] at h
    have hall := (hreads.trans hspaces).rest
    have hnil : (whitespace stop).rest = [] := by simpa using hend
    rw [hnil, append_nil, append_assoc] at hall
    exact ⟨before, taken, after, hall, hbefore, h ▸ hderives, hafter⟩

/-! ## What is derived is parsed -/

/-- The bytes that a value may start with. -/
def opens (byte : UInt8) : Bool :=
  digit byte || byte = 34 || byte = 45 || byte = 91 || byte = 102 || byte = 110 || byte = 116 ||
    byte = 123

theorem derives_first (h : Derives room taken (.value parsed)) :
    ∃ first more, taken = first :: more ∧ opens first = true := by
  cases h with
  | null => exact ⟨110, _, bytes_null, rfl⟩
  | true => exact ⟨116, _, bytes_true, rfl⟩
  | false => exact ⟨102, _, bytes_false, rfl⟩
  | number hnumeral =>
    obtain ⟨first, more, htaken, rfl | hdigit⟩ := hnumeral.first
    · exact ⟨45, more, htaken, rfl⟩
    · exact ⟨first, more, htaken, by simp [opens, hdigit]⟩
  | string hquoted =>
    obtain ⟨written, rfl, _, _⟩ := hquoted
    exact ⟨34, _, rfl, rfl⟩
  | emptyArray | array => exact ⟨91, _, rfl, rfl⟩
  | emptyObject | object => exact ⟨123, _, rfl, rfl⟩

theorem not_space_of_opens (h : opens byte = true) : space byte = false := by
  cases hspace : space byte with
  | false => rfl
  | true =>
    simp only [space, Bool.or_eq_true, decide_eq_true_eq] at hspace
    obtain ((rfl | rfl) | rfl) | rfl := hspace <;> exact absurd h (by decide)

theorem numeric_space (h : space byte = true) : numeric byte = false := by
  simp only [space, Bool.or_eq_true, decide_eq_true_eq] at h
  obtain ((rfl | rfl) | rfl) | rfl := h <;> rfl

/-- A value is followed by spaces and a separator, which do not go on with a number. -/
theorem stops_after {rest : List UInt8} (hafter : Spaces after) (h : Stops numeric rest) :
    Stops numeric (after ++ rest) := by
  refine stops_append ?_ h
  intro byte hbyte; exact numeric_space (hafter.all byte (mem_of_mem_head? hbyte))

theorem value_whitespace (room : Nat) (start : Place) :
    value room (whitespace start) = value room start := by
  have hidem := whitespace_idem start
  cases room with
  | zero =>
    unfold value
    rw [hidem]
  | succ room =>
    unfold value
    rw [hidem]

theorem whitespace_length (start : Place) : (whitespace start).rest.length ≤ start.rest.length := by
  obtain ⟨before, _, hreads, _⟩ := whitespace_sound start
  have hlength := congrArg List.length hreads.rest
  rw [length_append] at hlength; omega

/-- How the parser reads what is derived. -/
def Complete (room : Nat) (taken : List UInt8) : Part → Prop
  | .value parsed => ∀ offset rest, Stops numeric rest →
    value room ⟨offset, taken ++ rest⟩ = .ok (parsed, ⟨offset + taken.length, rest⟩)
  | .items more => ∀ offset rest bound items start,
    whitespace start = whitespace ⟨offset, taken ++ 93 :: rest⟩ →
    (whitespace start).rest.length ≤ bound →
    arrayItems (value room) bound items start =
      .ok (.array (items ++ more), ⟨offset + taken.length + 1, rest⟩)
  | .fields more => ∀ offset rest bound fields seen,
    (whitespace ⟨offset, taken ++ 125 :: rest⟩).rest.length ≤ bound →
    (seen ++ more.map Prod.fst).Nodup →
    objectFields (value room) bound fields seen (whitespace ⟨offset, taken ++ 125 :: rest⟩) =
      .ok (.object (fields ++ more), ⟨offset + taken.length + 1, rest⟩)

section
variable {offset : Nat} {written rest : List UInt8} (hbefore : Spaces before)
  (hderives : Derives room written (.value parsed))
  (hcomplete : Complete room written (.value parsed)) (hafter : Spaces after)
include hbefore hderives hcomplete hafter

theorem read_value {separator : UInt8} (hseparator : numeric separator = false)
    (hspace : space separator = false) {start : Place} (hstart : whitespace start =
      whitespace ⟨offset, before ++ (written ++ (after ++ separator :: rest))⟩) :
    ∃ behind, value room start = .ok (parsed, behind) ∧ whitespace behind =
        ⟨offset + before.length + written.length + after.length, separator :: rest⟩ ∧
      (separator :: rest).length < (whitespace start).rest.length := by
  obtain ⟨first, more, hwritten, hopens⟩ := derives_first hderives
  have hstops : Stops space (written ++ (after ++ separator :: rest)) := by
    rw [hwritten]; exact stops_cons.mpr (not_space_of_opens hopens)
  rw [whitespace_append hbefore hstops] at hstart
  refine ⟨⟨offset + before.length + written.length, after ++ separator :: rest⟩, ?_, ?_, ?_⟩
  · rw [← value_whitespace, hstart]
    exact hcomplete _ _ (stops_after hafter (stops_cons.mpr hseparator))
  · exact whitespace_append hafter (stops_cons.mpr hspace) _
  · rw [hstart, hwritten]
    simp; omega

theorem complete_item : Complete room (before ++ (written ++ after)) (.items [parsed]) := by
  intro offset rest bound items start hstart hbound
  have hinput : before ++ (written ++ after) ++ 93 :: rest =
      before ++ (written ++ (after ++ 93 :: rest)) := by simp
  rw [hinput] at hstart
  obtain ⟨behind, hvalue, hbehind, hless⟩ :=
    read_value hbefore hderives hcomplete hafter (by decide) (by decide) hstart
  cases bound with
  | zero => omega
  | succ bound =>
    unfold arrayItems
    rw [hvalue, ok_bind]
    rw [hbehind]
    dsimp only [Place.skip]
    simp; omega

theorem complete_items {more : List Value} (hinner : Complete room inner (.items more)) :
    Complete room (before ++ (written ++ (after ++ 44 :: inner))) (.items (parsed :: more)) := by
  intro offset rest bound items start hstart hbound
  have hinput : before ++ (written ++ (after ++ 44 :: inner)) ++ 93 :: rest =
      before ++ (written ++ (after ++ 44 :: (inner ++ 93 :: rest))) := by simp
  rw [hinput] at hstart
  obtain ⟨behind, hvalue, hbehind, hless⟩ :=
    read_value hbefore hderives hcomplete hafter (by decide) (by decide) hstart
  cases bound with
  | zero => omega
  | succ bound =>
    have hlength := whitespace_length
      ⟨offset + before.length + written.length + after.length + 1, inner ++ 93 :: rest⟩
    rw [length_cons] at hless
    dsimp only at hlength
    have hlast := hinner _ rest bound (items ++ [parsed]) _ rfl (Nat.le_trans hlength (by omega))
    unfold arrayItems
    rw [hvalue, ok_bind]
    dsimp only
    rw [hbehind, skip_cons]
    dsimp only
    rw [if_neg (by decide), if_neg (by decide), hlast]
    congr 3
    · simp
    · simp; omega

end

section
variable {token between before' written : List UInt8} (hbefore : Spaces before)
  (hquoted : Quoted token key) (hbetween : Spaces between) (hbefore' : Spaces before')
  (hderives : Derives room written (.value parsed))
  (hcomplete : Complete room written (.value parsed)) (hafter : Spaces after)
include hbefore hquoted hbetween hbefore' hderives hcomplete hafter

theorem read_field (offset bound : Nat) (fields : List (String × Value)) (separator : UInt8)
    (rest : List UInt8) (hseparator : numeric separator = false)
    (hspace : space separator = false) {more : List String} (hnodup : (seen ++ key :: more).Nodup) :
    let start := whitespace ⟨offset, before ++ (token ++ (between ++ 58 ::
      (before' ++ (written ++ (after ++ separator :: rest)))))⟩
    let next : Place := ⟨offset + before.length + token.length + between.length + 1 +
      before'.length + written.length + after.length, separator :: rest⟩
    start.rest.length ≤ bound → objectFields (value room) bound fields seen start =
      (if separator = 125 then .ok (.object (fields ++ [(key, parsed)]), next.skip 1)
      else if separator ≠ 44 then error next.offset "expected object separator"
      else objectFields (value room) (bound - 1) (fields ++ [(key, parsed)]) (seen ++ [key])
        (whitespace (next.skip 1))) ∧ (separator :: rest).length < start.rest.length := by
  obtain ⟨content, htoken, _⟩ := id hquoted
  have hfresh : key ∉ seen := fun hmem => (nodup_append.mp hnodup).2.2 key hmem key (by simp) rfl
  intro start next hbound
  have hstart : start = ⟨offset + before.length, token ++ (between ++ 58 ::
      (before' ++ (written ++ (after ++ separator :: rest))))⟩ := by
    refine whitespace_append hbefore ?_ offset
    rw [htoken]; exact stops_cons.mpr (by decide)
  have hkey := string_complete hquoted (offset + before.length)
    (between ++ 58 :: (before' ++ (written ++ (after ++ separator :: rest))))
  have hstops : Stops space (58 :: (before' ++ (written ++ (after ++ separator :: rest)))) :=
    stops_cons.mpr (by decide)
  have hcolon := whitespace_append hbetween hstops (offset + before.length + token.length)
  have hinner : whitespace ⟨offset + before.length + token.length + between.length + 1,
      before' ++ (written ++ (after ++ separator :: rest))⟩ = whitespace _ := rfl
  obtain ⟨behind, hvalue, hbehind, hless⟩ :=
    read_value hbefore' hderives hcomplete hafter hseparator hspace hinner
  have hquote : start.rest.head? = some 34 := by
    rw [hstart, htoken]; rfl
  have hlonger : (separator :: rest).length < start.rest.length := by
    rw [hstart]
    simp; omega
  obtain ⟨bound, rfl⟩ : ∃ b, bound = b + 1 := ⟨bound - 1, by omega⟩
  refine ⟨?_, hlonger⟩
  · rw [objectFields, if_neg (by rw [hquote]; simp), hstart, hkey, ok_bind]
    rw [if_neg hfresh, hcolon]
    rw [if_neg (by simp), skip_cons, hvalue, ok_bind]
    rw [hbehind]; rfl

theorem complete_field :
    Complete room (before ++ (token ++ (between ++ 58 :: (before' ++ (written ++ after)))))
      (.fields [(key, parsed)]) := by
  intro offset rest bound fields seen hbound hnodup
  have hinput : before ++ (token ++ (between ++ 58 :: (before' ++ (written ++ after)))) ++
      125 :: rest = before ++ (token ++ (between ++ 58 ::
        (before' ++ (written ++ (after ++ 125 :: rest))))) := by simp
  rw [hinput] at hbound ⊢
  obtain ⟨hread, hless⟩ := read_field hbefore hquoted hbetween hbefore' hderives hcomplete hafter
    offset bound fields 125 rest (by decide) (by decide) hnodup hbound
  refine hread.trans ?_
  rw [skip_cons]
  simp; omega

theorem complete_fields {more : List (String × Value)}
    (hinner : Complete room inner (.fields more)) : Complete room
      (before ++ (token ++ (between ++ 58 :: (before' ++ (written ++ (after ++ 44 :: inner))))))
      (.fields ((key, parsed) :: more)) := by
  intro offset rest bound fields seen hbound hnodup
  have hinput : before ++ (token ++ (between ++ 58 ::
        (before' ++ (written ++ (after ++ 44 :: inner))))) ++ 125 :: rest =
      before ++ (token ++ (between ++ 58 ::
        (before' ++ (written ++ (after ++ 44 :: (inner ++ 125 :: rest)))))) := by simp
  rw [hinput] at hbound ⊢
  obtain ⟨hread, hless⟩ := read_field hbefore hquoted hbetween hbefore' hderives hcomplete hafter
    offset bound fields 44 (inner ++ 125 :: rest) (by decide) (by decide) hnodup hbound
  refine hread.trans ?_
  have hlength := whitespace_length ⟨offset + before.length + token.length + between.length + 1 +
    before'.length + written.length + after.length + 1, inner ++ 125 :: rest⟩
  rw [length_cons] at hless
  refine (hinner _ rest (bound - 1) (fields ++ [(key, parsed)]) (seen ++ [key]) ?_ ?_).trans ?_
  · exact Nat.le_trans hlength (by dsimp only; omega)
  · simpa using hnodup
  · congr 3
    · simp
    · simp; omega

end

theorem whitespace_first (offset : Nat) {first : UInt8} (h : opens first = true)
    (rest : List UInt8) : whitespace ⟨offset, first :: rest⟩ = ⟨offset, first :: rest⟩ :=
  whitespace_append spaces_nil (stops_cons.mpr (not_space_of_opens h)) offset

theorem startsWith_first (offset : Nat) {first other : UInt8} (h : first ≠ other)
    (rest expected : List UInt8) : startsWith ⟨offset, first :: rest⟩ (other :: expected) = false := by
  simp [startsWith, List.isPrefixOf, Ne.symm h]

theorem startsWith_append (offset : Nat) (expected rest : List UInt8) :
    startsWith ⟨offset, expected ++ rest⟩ expected = true :=
  isPrefixOf_iff_prefix.mpr (prefix_append expected rest)

theorem complete_null (room : Nat) : Complete room (bytes "null") (.value .null) := by
  intro offset rest _
  have hliteral := startsWith_append offset (bytes "null") rest
  rw [bytes_null] at hliteral ⊢
  dsimp only [cons_append] at hliteral ⊢
  unfold value
  rw [bytes_null]
  dsimp only; rfl

theorem complete_true (room : Nat) : Complete room (bytes "true") (.value (.boolean true)) := by
  intro offset rest _
  have hliteral := startsWith_append offset (bytes "true") rest
  rw [bytes_true] at hliteral ⊢
  dsimp only [cons_append] at hliteral ⊢
  unfold value
  rw [bytes_true]
  dsimp only; rfl

theorem complete_false (room : Nat) : Complete room (bytes "false") (.value (.boolean false)) := by
  intro offset rest _
  have hliteral := startsWith_append offset (bytes "false") rest
  rw [bytes_false] at hliteral ⊢
  dsimp only [cons_append] at hliteral ⊢
  unfold value
  rw [bytes_false]
  dsimp only; rfl

theorem complete_number {raw : String} (h : Numeral (bytes raw)) :
    Complete room (bytes raw) (.value (.number raw)) := by
  intro offset rest hstops
  obtain ⟨first, more, htaken, hfirst⟩ := h.first
  have hopens : opens first = true := by
    obtain rfl | hdigit := hfirst
    · rfl
    · simp [opens, hdigit]
  have hother : ∀ other : UInt8, other ≠ 45 → digit other = false → first ≠ other := by
    intro other hminus hdigit hsame
    rw [hsame] at hfirst
    obtain rfl | hfirst := hfirst
    · exact hminus rfl
    · exact absurd hfirst (by simp [hdigit])
  have hread := numberEnd_complete h hstops offset
  have hraw : toText ((bytes raw ++ rest).take (offset + (bytes raw).length - offset)) = .ok raw := by
    rw [Nat.add_sub_cancel_left, take_left]; exact toText_eq_ok.mpr rfl
  have hinput : bytes raw ++ rest = first :: (more ++ rest) := by
    rw [htaken]; rfl
  rw [hinput] at hread hraw ⊢
  unfold value
  rw [whitespace_first offset hopens, bytes_null, bytes_true, bytes_false]
  dsimp only
  rw [if_neg (hother 34 (by decide) (by decide)), if_neg (hother 91 (by decide) (by decide)),
    if_neg (hother 123 (by decide) (by decide)),
    startsWith_first offset (hother 110 (by decide) (by decide)),
    startsWith_first offset (hother 116 (by decide) (by decide)),
    startsWith_first offset (hother 102 (by decide) (by decide)), if_pos hfirst, hread, ok_bind]
  rw [hraw]; rfl

theorem complete_string {text : String} (h : Quoted token text) :
    Complete room token (.value (.string text)) := by
  intro offset rest _
  have hread := string_complete h offset rest
  obtain ⟨written, rfl, _, _⟩ := h
  unfold value
  dsimp only [cons_append] at hread ⊢
  rw [whitespace_first offset (by decide)]
  dsimp only
  rw [hread]; rfl

/-- What stands between brackets starts with a value, behind spaces. -/
theorem items_first (h : Derives room inner (.items items)) (offset : Nat) (rest : List UInt8) :
    (whitespace ⟨offset, inner ++ rest⟩).rest.head? ≠ some 93 := by
  obtain ⟨before, first, more, rfl, hbefore, hopens⟩ : ∃ before first more,
      inner = before ++ first :: more ∧ Spaces before ∧ opens first = true := by
    cases h with
    | item hbefore hvalue hafter =>
      obtain ⟨first, more, rfl, hopens⟩ := derives_first hvalue
      exact ⟨_, first, _, rfl, hbefore, hopens⟩
    | items hbefore hvalue hafter _ =>
      obtain ⟨first, more, rfl, hopens⟩ := derives_first hvalue
      exact ⟨_, first, _, rfl, hbefore, hopens⟩
  have hstops : Stops space (first :: (more ++ rest)) := stops_cons.mpr (not_space_of_opens hopens)
  rw [append_assoc, cons_append, whitespace_append hbefore hstops]
  intro hhead
  obtain rfl : first = 93 := by simpa using hhead
  exact absurd hopens (by decide)

theorem fields_first (h : Derives room inner (.fields fields)) (offset : Nat) (rest : List UInt8) :
    (whitespace ⟨offset, inner ++ rest⟩).rest.head? ≠ some 125 := by
  obtain ⟨before, more, rfl, hbefore⟩ : ∃ before more, inner = before ++ 34 :: more ∧
      Spaces before := by
    cases h with
    | field hbefore hquoted =>
      obtain ⟨written, rfl, _, _⟩ := hquoted
      exact ⟨_, _, rfl, hbefore⟩
    | fields hbefore hquoted =>
      obtain ⟨written, rfl, _, _⟩ := hquoted
      exact ⟨_, _, rfl, hbefore⟩
  have hstops : Stops space (34 :: (more ++ rest)) := stops_cons.mpr (by decide)
  rw [append_assoc, cons_append, whitespace_append hbefore hstops]
  exact fun hhead => absurd hhead (by simp)

theorem derives_complete {part : Part} (h : Derives room taken part) :
    Complete room taken part := by
  induction h with
  | null => exact complete_null _
  | true => exact complete_true _
  | false => exact complete_false _
  | number hnumeral => exact complete_number hnumeral
  | string hquoted => exact complete_string hquoted
  | @emptyArray room before hbefore =>
    intro offset rest _
    have hinput : 91 :: (before ++ [93]) ++ rest = 91 :: (before ++ 93 :: rest) := by simp
    have hstops : Stops space (93 :: rest) := stops_cons.mpr (by decide)
    have hclose : (93 :: rest).head? = some 93 := rfl
    rw [hinput]
    unfold value
    rw [whitespace_first offset (by decide)]
    dsimp only
    rw [skip_cons, whitespace_append hbefore hstops, skip_cons]
    simp; omega
  | @array room inner items hinner ih =>
    intro offset rest _
    have hinput : 91 :: (inner ++ [93]) ++ rest = 91 :: (inner ++ 93 :: rest) := by simp
    have hread := ih (offset + 1) rest _ [] _ (whitespace_idem ⟨offset + 1, inner ++ 93 :: rest⟩)
      (Nat.le_succ_of_le (Nat.le_of_eq (by rw [whitespace_idem])))
    rw [hinput]
    unfold value
    rw [whitespace_first offset (by decide)]
    dsimp only
    rw [skip_cons, if_neg (items_first hinner _ _), hread]
    simp; omega
  | @emptyObject room before hbefore =>
    intro offset rest _
    have hinput : 123 :: (before ++ [125]) ++ rest = 123 :: (before ++ 125 :: rest) := by simp
    have hstops : Stops space (125 :: rest) := stops_cons.mpr (by decide)
    have hclose : (125 :: rest).head? = some 125 := rfl
    rw [hinput]
    unfold value
    rw [whitespace_first offset (by decide)]
    dsimp only
    rw [skip_cons, whitespace_append hbefore hstops, skip_cons]
    simp; omega
  | @object room inner fields hinner hnodup ih =>
    intro offset rest _
    have hinput : 123 :: (inner ++ [125]) ++ rest = 123 :: (inner ++ 125 :: rest) := by simp
    have hread := ih (offset + 1) rest _ [] [] (Nat.le_succ _) (by simpa using hnodup)
    rw [hinput]
    unfold value
    rw [whitespace_first offset (by decide)]
    dsimp only
    rw [skip_cons, if_neg (fields_first hinner _ _), hread]
    simp; omega
  | item hbefore hderives hafter ih => exact complete_item hbefore hderives ih hafter
  | items hbefore hderives hafter _ ih ih' => exact complete_items hbefore hderives ih hafter ih'
  | field hbefore hquoted hbetween hbefore' hderives hafter ih =>
    exact complete_field hbefore hquoted hbetween hbefore' hderives ih hafter
  | fields hbefore hquoted hbetween hbefore' hderives hafter _ ih ih' =>
    exact complete_fields hbefore hquoted hbetween hbefore' hderives ih hafter ih'

theorem parse_complete (h : Document (bytes input) parsed) : parse input = .ok parsed := by
  obtain ⟨before, inner, after, hinput, hbefore, hderives, hafter⟩ := h
  obtain ⟨first, more, hinner, hopens⟩ := derives_first hderives
  have hstops : Stops space (inner ++ after) := by
    rw [hinner]; exact stops_cons.mpr (not_space_of_opens hopens)
  have hend : Stops numeric after := by
    have hspaces := stops_after hafter (stops_nil numeric)
    rwa [append_nil] at hspaces
  have hread : value maximumDepth ⟨0 + before.length, inner ++ after⟩ = _ :=
    derives_complete hderives (0 + before.length) after hend
  have hlast := whitespace_append hafter (stops_nil space) (0 + before.length + inner.length)
  rw [append_nil] at hlast
  unfold parse
  rw [hinput, ← value_whitespace, whitespace_append hbefore hstops, hread, ok_bind]
  rw [hlast]; rfl

theorem parse_iff : parse input = .ok parsed ↔ Document (bytes input) parsed :=
  ⟨parse_sound, parse_complete⟩

end Loom.Json
