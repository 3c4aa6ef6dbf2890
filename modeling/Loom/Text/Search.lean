import Loom.Library.Occurrences
import Loom.Library.Scalars
import Mathlib.Tactic.Common

/-
  Searching, splitting, joining and replacing texts.

  Texts are compared byte by byte and cut at byte offsets; a search steps over whole
  scalars. A cut inside a scalar is a fault, and so is reading behind the end.

  Correspondence (text/search.loom ↔ Lean), where names differ:
    `matches_at`, its loop ↔ `matchesAt`, `matchesFrom`
    `split`, its loops ↔ `split`, `scalarsFrom`, `splitFrom`
    `append_text_range` ↔ `appendTextRange`, `appendText`
    `join`, its loop ↔ `join`, `joinFrom`, `appendSeparator`
    `replace`, its loops ↔ `replace`, `insertFrom`, `replaceFrom`
  A buffer is the bytes pushed so far. An offset is a `Nat`, the answer of a search an
  `Int` that is -1 where nothing is found.
-/

namespace Loom.Text

open Utf8 Texts Occurrences

/-! ## The source -/

/-- The loop of `matchesAt`. -/
def matchesFrom (value pattern : String) (offset index : Nat) : Except Stop Bool :=
  if index < length pattern then do
    let here ← byte value (offset + index)
    let there ← byte pattern index
    if here != there then return false else matchesFrom value pattern offset (index + 1)
  else return true
termination_by length pattern - index

def matchesAt (value pattern : String) (offset : Nat) : Except Stop Bool :=
  if (length pattern : Int) > length value - offset then return false
  else matchesFrom value pattern offset 0

variable {offset : Nat} {value pattern text : String}

theorem width_lt {size : Nat} (h : width value offset = .ok size) : offset < length value := by
  obtain ⟨first, hfirst, -⟩ := Results.bind_eq_ok.mp h
  unfold byte at hfirst
  by_contra hout
  have hnone : (bytes value)[offset]? = none := List.getElem?_eq_none (Nat.not_lt.mp hout)
  rw [hnone] at hfirst
  cases hfirst

def findFrom (value pattern : String) (start : Nat) : Except Stop Int :=
  if (start : Int) ≤ length value - length pattern then
    match matchesAt value pattern start with
    | .error stop => .error stop
    | .ok true => .ok start
    | .ok false =>
      match _ : width value start with
      | .error stop => .error stop
      | .ok size => findFrom value pattern (start + size)
  else .ok (-1)
termination_by length value - start
decreasing_by
  have hpos := width_pos ‹_›
  have hlt := width_lt ‹_›
  omega

def find (value pattern : String) : Except Stop Int := findFrom value pattern 0

def contains (value pattern : String) : Except Stop Bool := do
  let offset ← find value pattern
  return offset ≥ 0

/-- What is found is in the text, from the start on. -/
theorem findFrom_bound {start : Nat} {next : Int} (h : findFrom value pattern start = .ok next) :
    next = -1 ∨ (start : Int) ≤ next ∧ next ≤ length value - length pattern := by
  fun_induction findFrom value pattern start with
  | case1 start _ stop _ => cases h
  | case2 start hroom _ =>
    have hnext : (start : Int) = next := Except.ok.inj h
    exact .inr ⟨by omega, by omega⟩
  | case3 start _ _ stop _ => cases h
  | case4 start _ _ size _ ih =>
    obtain hnone | ⟨hbehind, hroom⟩ := ih h
    · exact .inl hnone
    · exact .inr ⟨by omega, hroom⟩
  | case5 start _ => exact .inl (Except.ok.inj h).symm

/-- The scalars of a text: the loop of `split` for an empty separator. -/
def scalarsFrom (value : String) (start : Nat) : Except Stop (List String) :=
  if start < length value then
    match _ : width value start with
    | .error stop => .error stop
    | .ok size => do
      let part ← slice value start (start + size)
      let others ← scalarsFrom value (start + size)
      return part :: others
  else return []
termination_by length value - start
decreasing_by
  have hpos := width_pos ‹_›
  omega

/-- How far a search that gave `next` is from the end. -/
def remaining (value : String) (next : Int) : Nat :=
  if next ≥ 0 then length value + 1 - next.toNat + 1 else 0

theorem remaining_lt {next later : Int} (hnext : next ≥ 0) (hsome : length pattern ≠ 0)
    (h : findFrom value pattern (next.toNat + length pattern) = .ok later) :
    remaining value later < remaining value next := by
  unfold remaining
  rw [if_pos hnext]
  obtain hnone | ⟨hbehind, hroom⟩ := findFrom_bound h
  · rw [hnone, if_neg (by decide)]; omega
  · rw [if_pos (by omega)]; omega

def splitFrom (value separator : String) (hsome : length separator ≠ 0) (start : Nat) (next : Int) :
    Except Stop (List String) :=
  if _ : next ≥ 0 then do
    let part ← slice value start next.toNat
    match _ : findFrom value separator (next.toNat + length separator) with
    | .error stop => .error stop
    | .ok later =>
      let others ← splitFrom value separator hsome (next.toNat + length separator) later
      return part :: others
  else do
    let part ← slice value start (length value)
    return [part]
termination_by remaining value next
decreasing_by exact remaining_lt ‹_› hsome ‹_›

def split (value separator : String) : Except Stop (List String) :=
  if h : length separator = 0 then scalarsFrom value 0
  else do
    let next ← findFrom value separator 0
    splitFrom value separator h 0 next

def appendTextRange (buffer : List UInt8) (value : String) (index stop : Nat) :
    Except Stop (List UInt8) :=
  if index < stop then
    match byte value index with
    | .error stop => .error stop
    | .ok next => appendTextRange (buffer ++ [UInt8.ofNat next]) value (index + 1) stop
  else return buffer
termination_by stop - index

def appendText (buffer : List UInt8) (value : String) : Except Stop (List UInt8) :=
  appendTextRange buffer value 0 (length value)

def toText (buffer : List UInt8) : Except Stop String :=
  match decode buffer with
  | some text => .ok text
  | none => .error .fault

/-- No separator stands in front of the first text. -/
def appendSeparator (buffer : List UInt8) (separator : String) (index : Nat) :
    Except Stop (List UInt8) :=
  if index > 0 then appendText buffer separator else return buffer

def joinFrom (values : List String) (separator : String) (index : Nat) (buffer : List UInt8) :
    Except Stop (List UInt8) :=
  match h : values[index]? with
  | none => return buffer
  | some value => do
    let buffer ← appendSeparator buffer separator index
    let buffer ← appendText buffer value
    joinFrom values separator (index + 1) buffer
termination_by values.length - index
decreasing_by
  have hlt := (List.getElem?_eq_some_iff.mp h).1
  omega

def join (values : List String) (separator : String) : Except Stop String := do
  let buffer ← joinFrom values separator 0 []
  toText buffer

/-- The loop of `replace` for an empty pattern. -/
def insertFrom (value replacement : String) (start : Nat) (buffer : List UInt8) :
    Except Stop (List UInt8) :=
  if start < length value then
    match _ : width value start with
    | .error stop => .error stop
    | .ok size => do
      let buffer ← appendTextRange buffer value start (start + size)
      let buffer ← appendText buffer replacement
      insertFrom value replacement (start + size) buffer
  else return buffer
termination_by length value - start
decreasing_by
  have hpos := width_pos ‹_›
  omega

def replaceFrom (value pattern replacement : String) (hsome : length pattern ≠ 0) (start : Nat)
    (next : Int) (buffer : List UInt8) : Except Stop (List UInt8) :=
  if _ : next ≥ 0 then do
    let buffer ← appendTextRange buffer value start next.toNat
    let buffer ← appendText buffer replacement
    match _ : findFrom value pattern (next.toNat + length pattern) with
    | .error stop => .error stop
    | .ok later =>
      replaceFrom value pattern replacement hsome (next.toNat + length pattern) later buffer
  else appendTextRange buffer value start (length value)
termination_by remaining value next
decreasing_by exact remaining_lt ‹_› hsome ‹_›

def replace (value pattern replacement : String) : Except Stop String :=
  if pattern = replacement then .ok value
  else if h : length pattern = 0 then do
    let buffer ← appendText [] replacement
    let buffer ← insertFrom value replacement 0 buffer
    toText buffer
  else do
    let next ← findFrom value pattern 0
    if next < 0 then return value
    else do
      let buffer ← replaceFrom value pattern replacement h 0 next []
      toText buffer

/-! ## Searching -/

theorem byte_get {index : Nat} (h : index < (bytes text).length) :
    byte text index = .ok (bytes text)[index].toNat := by
  unfold byte
  rw [List.getElem?_eq_getElem h]

theorem matchesFrom_eq (hroom : offset + length pattern ≤ length value) {index : Nat}
    (h : index ≤ length pattern) :
    matchesFrom value pattern offset index =
      .ok (decide ((bytes pattern).drop index <+: (bytes value).drop (offset + index))) := by
  fun_induction matchesFrom value pattern offset index with
  | case1 index hindex ih =>
    have hvalue : offset + index < (bytes value).length := by
      unfold length at hroom hindex; omega
    rw [byte_get hvalue, byte_get hindex, Results.ok_bind, Results.ok_bind,
      List.drop_eq_getElem_cons hvalue, List.drop_eq_getElem_cons hindex]
    by_cases hsame : (bytes pattern)[index] = (bytes value)[offset + index]
    · have hrest := ih (Nat.succ_le_of_lt hindex)
      rw [if_neg (by simp [hsame]), hrest]
      simp [List.cons_prefix_cons, hsame, true_and, Nat.add_assoc]
    · have hdiff : (bytes value)[offset + index].toNat ≠ (bytes pattern)[index].toNat :=
        fun heq => hsame (UInt8.toNat_inj.mp heq.symm)
      have hno : ¬(bytes pattern)[index] :: (bytes pattern).drop (index + 1) <+:
          (bytes value)[offset + index] :: (bytes value).drop (offset + index + 1) :=
        fun hall => hsame (List.cons_prefix_cons.mp hall).1
      rw [if_pos (by simpa using hdiff), decide_eq_false hno]; rfl
  | case2 index hindex =>
    have hend : index = (bytes pattern).length := by
      unfold length at h hindex; omega
    rw [hend]; simp [pure, Except.pure]

theorem matchesAt_eq (h : offset ≤ length value) :
    matchesAt value pattern offset =
      .ok (decide (bytes pattern <+: (bytes value).drop offset)) := by
  unfold matchesAt
  split
  case isTrue hshort =>
    have hno : ¬bytes pattern <+: (bytes value).drop offset := by
      intro hhere
      have hlength := hhere.length_le
      rw [List.length_drop] at hlength
      unfold length at h hshort; omega
    simp [hno, pure, Except.pure]
  case isFalse hroom =>
    rw [matchesFrom_eq (by omega) (Nat.zero_le _), List.drop_zero, Nat.add_zero]

theorem bytes_ne_nil (h : length text ≠ 0) : bytes text ≠ [] :=
  List.ne_nil_of_length_pos (Nat.pos_of_ne_zero h)

theorem length_eq_encode {chars : List Char} (h : text.toList = chars) :
    length text = (encode chars).length := by
  rw [length, bytes_eq_encode, h]

theorem findFrom_step {start size : Nat} (hroom : (start : Int) ≤ length value - length pattern)
    (hmatch : matchesAt value pattern start = .ok false) (hsize : width value start = .ok size) :
    findFrom value pattern start = findFrom value pattern (start + size) := by
  rw [findFrom, if_pos hroom, hmatch]
  dsimp only
  split
  next stop hstop => cases hstop.symm.trans hsize
  next size' hsize' => rw [Except.ok.inj (hsize'.symm.trans hsize)]

/-- The answer of a search that starts behind `front`. -/
inductive Found (value pattern : String) (front : List Char) : List Char → Int → Prop
  | nowhere {back : List Char} (h : ∀ offset, (encode front).length ≤ offset →
      ¬At (bytes pattern) (bytes value) offset) : Found value pattern front back (-1)
  | here {middle behind : List Char} (h : First (bytes pattern) (bytes value)
      (encode front).length (encode (front ++ middle)).length) :
      Found value pattern front (middle ++ (pattern.toList ++ behind))
        (encode (front ++ middle)).length

theorem findFrom_spec (hsome : length pattern ≠ 0) (back : List Char) :
    ∀ front, value.toList = front ++ back →
      ∃ next, findFrom value pattern (encode front).length = .ok next ∧
        Found value pattern front back next := by
  induction back with
  | nil =>
    intro front htext
    rw [List.append_nil] at htext
    have hend := length_eq_encode htext
    refine ⟨-1, ?_, .nowhere ?_⟩
    · rw [findFrom, if_neg (by omega)]
    · intro offset hoffset hat
      have hbound := hat.bound (bytes_ne_nil hsome)
      unfold length at hend hsome; omega
  | cons char back ih =>
    intro front htext
    have hstart : (encode front).length ≤ length value := by
      rw [length_eq_encode htext]; exact encode_length_le _ _
    by_cases hroom : ((encode front).length : Int) ≤ length value - length pattern
    case neg =>
      refine ⟨-1, by rw [findFrom, if_neg hroom], .nowhere ?_⟩
      intro offset hoffset hat
      have hbound := hat.bound (bytes_ne_nil hsome)
      unfold length at hroom hsome; omega
    have hmatch : matchesAt value pattern (encode front).length = _ := matchesAt_eq hstart
    by_cases hhere : At (bytes pattern) (bytes value) (encode front).length
    case pos =>
      obtain ⟨behind, hbehind⟩ : pattern.toList <+: char :: back := by
        apply encode_prefix
        have hdrop : (bytes value).drop (encode front).length = encode (char :: back) := by
          rw [bytes_eq_encode, htext, encode_append, List.drop_left]
        rw [← bytes_eq_encode, ← hdrop]; exact hhere
      have hfirst : First (bytes pattern) (bytes value) (encode front).length
          (encode (front ++ [])).length := by
        rw [List.append_nil]
        exact ⟨Nat.le_refl _, hhere, fun earlier hle hlt => absurd hle (Nat.not_le.mpr hlt)⟩
      have hfound : Found value pattern front ([] ++ (pattern.toList ++ behind)) _ := .here hfirst
      rw [hbehind, List.append_nil] at hfound
      refine ⟨_, ?_, hfound⟩
      rw [findFrom, if_pos hroom, hmatch]
      simp [decide_eq_true (show bytes pattern <+: _ from hhere)]
    obtain ⟨size, hsize, hnext⟩ := width_eq htext
    rw [decide_eq_false (show ¬bytes pattern <+: _ from hhere)] at hmatch
    rw [findFrom_step hroom hmatch hsize, hnext]
    obtain ⟨next, hrun, hfound⟩ := ih (front ++ [char]) (by rw [htext, List.append_cons])
    -- no character starts before the next one, so no occurrence does
    have hskip : ∀ offset, (encode front).length ≤ offset → At (bytes pattern) (bytes value) offset →
        (encode (front ++ [char])).length ≤ offset := by
      intro offset hoffset hat
      obtain heq | hlt := Nat.eq_or_lt_of_le hoffset
      · exact absurd (heq ▸ hat) hhere
      · have hchars : pattern.toList ≠ [] := by
          intro hnone; exact hsome (by rw [length_eq_encode hnone]; rfl)
        rw [bytes_eq_encode, bytes_eq_encode] at hat
        obtain ⟨front', back', hsplit, hlength⟩ := exists_occurrence hchars hat
        rw [← hlength] at hlt ⊢
        exact no_split_inside (htext.symm.trans hsplit) hlt
    refine ⟨next, hrun, ?_⟩
    cases hfound with
    | nowhere hnone =>
      exact .nowhere fun offset hoffset hat => hnone offset (hskip offset hoffset hat) hat
    | @here middle behind hfirst =>
      have hchars : front ++ [char] ++ middle = front ++ char :: middle := by
        rw [List.append_assoc, List.singleton_append]
      rw [hchars] at hfirst ⊢
      have hall : First (bytes pattern) (bytes value) (encode front).length
          (encode (front ++ char :: middle)).length := by
        refine ⟨encode_length_le _ _, hfirst.here, ?_⟩
        intro earlier hle hlt hat
        exact hfirst.before earlier (hskip earlier hle hat) hlt hat
      exact .here hall

end Loom.Text
