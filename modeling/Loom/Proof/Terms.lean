import Loom.Proof.Model

/- Integer terms and texts of the prover (`proof/model.loom`) with all their
   leaves: array selections, occurrence counts, lengths and bytes of texts. Texts
   and terms contain one another, since a slice is cut at offsets that are
   terms. A term has no value where the program would fault on one of its texts.

   Correspondence (Loom ↔ Lean):
     `TextValue`, `IntegerTerm`                       ↔ the same names
     `same_text`, `text_parts`, `same_text_sequence`  ↔ `sameText`, `textParts`, `sameSequence`
     `same_integer_term`, `same_selection`            ↔ `sameTerm`, `sameSelection` -/
namespace Loom.Proof.Terms

open Option

mutual
inductive TextValue
  | literal (text : List UInt8)
  | symbol (id : Int)
  | joined (parts : List TextValue)
  | select (array : Int) (path : List Int) (index : Linear)
  | slice (source : TextValue) (start stop : IntegerTerm)

inductive IntegerTerm
  | linear (value : Linear)
  | apply (operator : Operator) (inputs : List IntegerTerm)
  | select (array : Int) (path : List Int) (index : Linear)
  | count (array : Int) (inputs : List IntegerTerm)
  | textLength (text : TextValue)
  | textByte (text : TextValue) (inputs : List IntegerTerm)
end

/-! ## Meaning -/

/-- Values of the symbols, and of what arrays hold at a position. -/
structure Interpretation extends Valuation where
  text : Int → List UInt8
  integers : Int → List Int → Int → Int
  texts : Int → List Int → Int → List UInt8

instance : Inhabited Interpretation where
  default := {
    integer := fun _ => 0, boolean := fun _ => true, machine := fun _ => by decide
    text := fun _ => [], integers := fun _ _ _ => 0, texts := fun _ _ _ => [] }

/-- The bytes between two offsets, where these are in order and inside. -/
def cut (text : List UInt8) (start stop : Int) : Option (List UInt8) :=
  if 0 ≤ start ∧ start ≤ stop ∧ stop ≤ text.length then
    some ((text.take stop.toNat).drop start.toNat)
  else none

/-- How often an element is in the first `size` places of an array. -/
def occurrences (element : Int → Int) (size needle : Int) : Nat :=
  (List.range size.toNat).countP fun (index : Nat) => element index == needle

def lengthOf (text : List UInt8) : Option Int :=
  if (text.length : Int) ≤ Number.maxInt then some text.length else none

def byteAt (text : List UInt8) (index : Int) : Option Int :=
  if 0 ≤ index then text[index.toNat]?.map fun byte => (byte.toNat : Int) else none

mutual
def TextValue.bytes (v : Interpretation) : TextValue → Option (List UInt8)
  | .literal text => some text
  | .symbol id => some (v.text id)
  | .joined parts => bytesAll v parts
  | .select array path index => some (v.texts array path (index.eval v.integer))
  | .slice source start stop => do
    cut (← source.bytes v) (← start.eval v) (← stop.eval v)

/-- The bytes of the parts, one after the other. -/
def bytesAll (v : Interpretation) : List TextValue → Option (List UInt8)
  | [] => some []
  | part :: parts => do return (← part.bytes v) ++ (← bytesAll v parts)

def IntegerTerm.eval (v : Interpretation) : IntegerTerm → Option Int
  | .linear value => some (value.eval v.integer)
  | .apply operator inputs => do return operator.apply (← evalAll v inputs)
  | .select array path index => some (v.integers array path (index.eval v.integer))
  | .count array inputs => do
    match ← evalAll v inputs with
    | [size, needle] => some (occurrences (v.integers array []) size needle)
    | _ => none
  | .textLength text => do lengthOf (← text.bytes v)
  | .textByte text inputs => do
    let bytes ← text.bytes v
    match ← evalAll v inputs with
    | [index] => byteAt bytes index
    | _ => none

def evalAll (v : Interpretation) : List IntegerTerm → Option (List Int)
  | [] => some []
  | input :: inputs => do return (← input.eval v) :: (← evalAll v inputs)
end

/-! ## Structural sameness -/

mutual
def TextValue.weight : TextValue → Nat
  | .joined parts => weightAll parts + 3
  | .slice source start stop => source.weight + start.weight + stop.weight + 1
  | _ => 1

def weightAll : List TextValue → Nat
  | [] => 0
  | part :: parts => part.weight + weightAll parts + 1

def IntegerTerm.weight : IntegerTerm → Nat
  | .apply _ inputs | .count _ inputs => weightInputs inputs + 1
  | .textLength text => text.weight + 1
  | .textByte text inputs => text.weight + weightInputs inputs + 1
  | _ => 1

def weightInputs : List IntegerTerm → Nat
  | [] => 0
  | input :: inputs => input.weight + weightInputs inputs + 1
end

def TextValue.isJoined : TextValue → Bool
  | .joined _ => true
  | _ => false

/-- The parts of a text; an empty literal has none. -/
def textParts : TextValue → List TextValue
  | .joined parts => parts
  | .literal [] => []
  | value => [value]

def sameSelection (array : Int) (path : List Int) (index : Linear) (other : Int)
    (fields : List Int) (position : Linear) : Bool :=
  array == other && path == fields && Number.compare index.constant position.constant == 0 &&
    Linear.sameTerms index.terms position.terms

theorem weightAll_textParts (t : TextValue) : weightAll (textParts t) ≤ t.weight + 1 := by
  unfold textParts
  split <;> simp only [weightAll, TextValue.weight] <;> omega

theorem weightAll_joined {t : TextValue} (h : t.isJoined = true) :
    weightAll (textParts t) + 3 ≤ t.weight := by
  cases t with
  | joined parts => exact le_refl _
  | _ => cases h

theorem weight_sequence {left right : TextValue} (h : (left.isJoined || right.isJoined) = true) :
    weightAll (textParts left) + weightAll (textParts right) < left.weight + right.weight := by
  have hleft := weightAll_textParts left
  have hright := weightAll_textParts right
  obtain h | h := Bool.or_eq_true_iff.mp h
  · have := weightAll_joined h
    omega
  · have := weightAll_joined h
    omega

mutual
def sameText (left right : TextValue) : Bool :=
  if left.isJoined || right.isJoined then sameSequence (textParts left) (textParts right)
  else match left, right with
    | .literal text, .literal other => text == other
    | .symbol id, .symbol other => id == other
    | .select array path index, .select other fields position =>
      sameSelection array path index other fields position
    | .slice source start stop, .slice other first last =>
      sameText source other && (sameTerm start first 256).1 && (sameTerm stop last 256).1
    | _, _ => false
termination_by left.weight + right.weight
decreasing_by
  · exact weight_sequence ‹_›
  all_goals simp only [TextValue.weight]; omega

/-- Two runs of parts. Where both have a literal the common bytes are compared,
and what the longer one has left is compared with the next part of the other. -/
def sameSequence : List TextValue → List TextValue → Bool
  | .literal text :: firsts, .literal other :: seconds =>
    let size := min text.length other.length
    if text.take size != other.take size then false
    else if size < other.length then sameSequence firsts (.literal (other.drop size) :: seconds)
    else if size < text.length then sameSequence (.literal (text.drop size) :: firsts) seconds
    else sameSequence firsts seconds
  | .symbol id :: firsts, .symbol other :: seconds => id == other && sameSequence firsts seconds
  | .select array path index :: firsts, second :: seconds =>
    sameText (.select array path index) second && sameSequence firsts seconds
  | .slice source start stop :: firsts, second :: seconds =>
    sameText (.slice source start stop) second && sameSequence firsts seconds
  | _ :: _, _ :: _ => false
  | firsts, seconds => firsts.isEmpty && seconds.isEmpty
termination_by firsts seconds => weightAll firsts + weightAll seconds
decreasing_by all_goals simp only [weightAll, TextValue.weight]; omega

/-- Structural equality within a budget of visited nodes; the second result is
what is left of the budget. -/
def sameTerm : IntegerTerm → IntegerTerm → Nat → Bool × Nat
  | _, _, 0 => (false, 0)
  | .textByte text inputs, .textByte other values, budget + 1 =>
    if sameText text other && inputs.length == 1 && values.length == 1 then
      sameTerms inputs values budget
    else (false, budget)
  | .textLength text, .textLength other, budget + 1 => (sameText text other, budget)
  | .count array inputs, .count other values, budget + 1 =>
    if array != other || inputs.length != values.length then (false, budget)
    else sameTerms inputs values budget
  | .linear first, .linear second, budget + 1 =>
    (Number.compare first.constant second.constant == 0 &&
      Linear.sameTerms first.terms second.terms, budget)
  | .apply operator inputs, .apply other values, budget + 1 =>
    if operator != other || inputs.length != values.length then (false, budget)
    else sameTerms inputs values budget
  | .select array path index, .select other fields position, budget + 1 =>
    (sameSelection array path index other fields position, budget)
  | _, _, budget + 1 => (false, budget)
termination_by left right => left.weight + right.weight
decreasing_by all_goals simp only [IntegerTerm.weight]; omega

def sameTerms : List IntegerTerm → List IntegerTerm → Nat → Bool × Nat
  | left :: lefts, right :: rights, budget =>
    match sameTerm left right budget with
    | (true, rest) => sameTerms lefts rights rest
    | (false, rest) => (false, rest)
  | _, _, budget => (true, budget)
termination_by lefts rights => weightInputs lefts + weightInputs rights
decreasing_by all_goals simp only [weightInputs]; omega
end

/-! ## What is the same denotes the same -/

variable {v : Interpretation}

theorem sameSelection_iff {array other : Int} {path fields : List Int} {index position : Linear} :
    sameSelection array path index other fields position = true ↔
      array = other ∧ path = fields ∧ index = position := by
  simp only [sameSelection, Bool.and_eq_true, beq_iff_eq, Number.compare_eq_zero,
    Linear.sameTerms_iff]
  constructor
  · intro h
    obtain ⟨⟨⟨harray, hpath⟩, hconstant⟩, hterms⟩ := h
    exact ⟨harray, hpath, Linear.ext_terms hconstant hterms⟩
  · intro h
    obtain ⟨harray, hpath, hindex⟩ := h
    exact ⟨⟨⟨harray, hpath⟩, hindex ▸ rfl⟩, hindex ▸ rfl⟩

theorem bytesAll_cons {t : TextValue} {ts : List TextValue} {a : List UInt8}
    (h : bytesAll v (t :: ts) = some a) :
    ∃ first rest, t.bytes v = some first ∧ bytesAll v ts = some rest ∧ a = first ++ rest := by
  simp only [bytesAll, bind_eq_bind, bind_eq_some_iff, pure_def, some.injEq] at h
  obtain ⟨first, hfirst, rest, hrest, happend⟩ := h
  exact ⟨first, rest, hfirst, hrest, happend.symm⟩

theorem bytesAll_textParts {t : TextValue} {a : List UInt8} (h : t.bytes v = some a) :
    bytesAll v (textParts t) = some a := by
  unfold textParts
  split
  · exact h
  · exact h
  · simp [bytesAll, h]

theorem evalAll_cons {t : IntegerTerm} {ts : List IntegerTerm} {xs : List Int}
    (h : evalAll v (t :: ts) = some xs) :
    ∃ first rest, t.eval v = some first ∧ evalAll v ts = some rest ∧ xs = first :: rest := by
  simp only [evalAll, bind_eq_bind, bind_eq_some_iff, pure_def, some.injEq] at h
  obtain ⟨first, hfirst, rest, hrest, hcons⟩ := h
  exact ⟨first, rest, hfirst, hrest, hcons.symm⟩

theorem append_bytesAll {t t' : TextValue} {ts ts' : List TextValue} {a b : List UInt8}
    (hleft : bytesAll v (t :: ts) = some a) (hright : bytesAll v (t' :: ts') = some b)
    (hfirst : ∀ {c d}, t.bytes v = some c → t'.bytes v = some d → c = d)
    (hrest : ∀ {c d}, bytesAll v ts = some c → bytesAll v ts' = some d → c = d) : a = b := by
  obtain ⟨first, rest, hone, htwo, rfl⟩ := bytesAll_cons hleft
  obtain ⟨first', rest', hone', htwo', rfl⟩ := bytesAll_cons hright
  rw [hfirst hone hone', hrest htwo htwo']

theorem append_common {text other rest rest' : List UInt8} {size : Nat}
    (hcommon : text.take size = other.take size)
    (htail : text.drop size ++ rest = other.drop size ++ rest') : text ++ rest = other ++ rest' :=
  calc text ++ rest = text.take size ++ (text.drop size ++ rest) := by simp [← List.append_assoc]
    _ = other.take size ++ (other.drop size ++ rest') := by rw [hcommon, htail]
    _ = other ++ rest' := by simp [← List.append_assoc]

/-- What is found to be the same denotes the same, up to a weight of the two. -/
structure Sound (v : Interpretation) (n : Nat) : Prop where
  text : ∀ {left right a b}, left.weight + right.weight < n → sameText left right = true →
    left.bytes v = some a → right.bytes v = some b → a = b
  sequence : ∀ {firsts seconds a b}, weightAll firsts + weightAll seconds < n →
    sameSequence firsts seconds = true → bytesAll v firsts = some a → bytesAll v seconds = some b →
    a = b
  term : ∀ {left right budget x y}, left.weight + right.weight < n →
    (sameTerm left right budget).1 = true → left.eval v = some x → right.eval v = some y → x = y
  terms : ∀ {lefts rights budget xs ys}, weightInputs lefts + weightInputs rights < n →
    lefts.length = rights.length → (sameTerms lefts rights budget).1 = true →
    evalAll v lefts = some xs → evalAll v rights = some ys → xs = ys

section
variable {n : Nat} {a b : List UInt8} {x y : Int}

theorem Sound.text_step (ih : Sound v n) {left right : TextValue}
    (hn : left.weight + right.weight < n + 1) (h : sameText left right = true)
    (ha : left.bytes v = some a) (hb : right.bytes v = some b) : a = b := by
  unfold sameText at h
  split at h
  · rename_i hjoined
    have hless := weight_sequence hjoined
    exact ih.sequence (by omega) h (bytesAll_textParts ha) (bytesAll_textParts hb)
  · split at h
    · rw [beq_iff_eq.mp h] at ha; exact some.inj (ha.symm.trans hb)
    · rw [beq_iff_eq.mp h] at ha; exact some.inj (ha.symm.trans hb)
    · obtain ⟨rfl, rfl, rfl⟩ := sameSelection_iff.mp h
      exact some.inj (ha.symm.trans hb)
    · simp only [Bool.and_eq_true] at h
      simp only [TextValue.weight] at hn
      simp only [TextValue.bytes, bind_eq_bind, bind_eq_some_iff] at ha hb
      obtain ⟨c, hc, low, hlow, high, hhigh, hcut⟩ := ha
      obtain ⟨d, hd, low', hlow', high', hhigh', hcut'⟩ := hb
      rw [ih.text (by omega) h.1.1 hc hd, ih.term (by omega) h.1.2 hlow hlow',
        ih.term (by omega) h.2 hhigh hhigh'] at hcut
      exact some.inj (hcut.symm.trans hcut')
    · cases h

theorem Sound.sequence_step (ih : Sound v n) {firsts seconds : List TextValue}
    (hn : weightAll firsts + weightAll seconds < n + 1) (h : sameSequence firsts seconds = true)
    (ha : bytesAll v firsts = some a) (hb : bytesAll v seconds = some b) : a = b := by
  unfold sameSequence at h
  split at h
  · rename_i text firsts other seconds
    simp only [weightAll, TextValue.weight] at hn
    obtain ⟨_, rest, hfirst, hrest, rfl⟩ := bytesAll_cons ha
    obtain ⟨_, rest', hfirst', hrest', rfl⟩ := bytesAll_cons hb
    cases hfirst
    cases hfirst'
    dsimp only at h
    generalize hsize : min text.length other.length = size at h
    have hleft : bytesAll v (.literal (text.drop size) :: firsts) = some (text.drop size ++ rest) := by
      simp [bytesAll, TextValue.bytes, hrest]
    have hright : bytesAll v (.literal (other.drop size) :: seconds) =
        some (other.drop size ++ rest') := by
      simp [bytesAll, TextValue.bytes, hrest']
    split at h
    · cases h
    · rename_i hcommon
      refine append_common (show text.take size = other.take size by simpa using hcommon) ?_
      split at h
      · rw [List.drop_of_length_le (show text.length ≤ size by omega), List.nil_append]
        exact ih.sequence (by simp only [weightAll, TextValue.weight]; omega) h hrest hright
      · have hother : other.length ≤ size := by omega
        split at h
        · rw [List.drop_of_length_le hother, List.nil_append]
          exact ih.sequence (by simp only [weightAll, TextValue.weight]; omega) h hleft hrest'
        · rw [List.drop_of_length_le hother, List.drop_of_length_le (by omega),
            ih.sequence (by omega) h hrest hrest']
  · rw [Bool.and_eq_true, beq_iff_eq] at h
    simp only [weightAll] at hn
    refine append_bytesAll ha hb ?_ (ih.sequence (by omega) h.2)
    intro c d hc hd
    rw [h.1] at hc; exact some.inj (hc.symm.trans hd)
  · rw [Bool.and_eq_true] at h
    simp only [weightAll] at hn
    exact append_bytesAll ha hb (ih.text (by omega) h.1) (ih.sequence (by omega) h.2)
  · rw [Bool.and_eq_true] at h
    simp only [weightAll] at hn
    exact append_bytesAll ha hb (ih.text (by omega) h.1) (ih.sequence (by omega) h.2)
  · cases h
  · simp only [Bool.and_eq_true, List.isEmpty_iff] at h
    rw [h.1] at ha
    rw [h.2] at hb; exact some.inj (ha.symm.trans hb)

theorem Sound.term_step (ih : Sound v n) {left right : IntegerTerm} {budget : Nat}
    (hn : left.weight + right.weight < n + 1) (h : (sameTerm left right budget).1 = true)
    (hx : left.eval v = some x) (hy : right.eval v = some y) : x = y := by
  unfold sameTerm at h
  split at h
  · cases h
  · split at h
    · rename_i text inputs other values budget hcase
      simp only [Bool.and_eq_true, beq_iff_eq] at hcase
      simp only [IntegerTerm.weight] at hn
      obtain ⟨c, hc, hx⟩ := bind_eq_some_iff.mp hx
      obtain ⟨xs, hxs, hx⟩ := bind_eq_some_iff.mp hx
      obtain ⟨d, hd, hy⟩ := bind_eq_some_iff.mp hy
      obtain ⟨ys, hys, hy⟩ := bind_eq_some_iff.mp hy
      rw [ih.text (by omega) hcase.1.1 hc hd,
        ih.terms (by omega) (hcase.1.2.trans hcase.2.symm) h hxs hys] at hx
      exact some.inj (hx.symm.trans hy)
    · cases h
  · simp only [IntegerTerm.weight] at hn
    obtain ⟨c, hc, hx⟩ := bind_eq_some_iff.mp hx
    obtain ⟨d, hd, hy⟩ := bind_eq_some_iff.mp hy
    rw [ih.text (by omega) h hc hd] at hx; exact some.inj (hx.symm.trans hy)
  · split at h
    · cases h
    · rename_i array inputs other values budget hcase
      simp only [bne_iff_ne, ne_eq, Bool.or_eq_true, not_or, not_not] at hcase
      simp only [IntegerTerm.weight] at hn
      obtain ⟨xs, hxs, hx⟩ := bind_eq_some_iff.mp hx
      obtain ⟨ys, hys, hy⟩ := bind_eq_some_iff.mp hy
      rw [hcase.1, ih.terms (by omega) hcase.2 h hxs hys] at hx
      exact some.inj (hx.symm.trans hy)
  · simp only [Bool.and_eq_true, beq_iff_eq, Number.compare_eq_zero, Linear.sameTerms_iff] at h
    rw [Linear.ext_terms h.1 h.2] at hx; exact some.inj (hx.symm.trans hy)
  · split at h
    · cases h
    · rename_i operator inputs other values budget hcase
      simp only [bne_iff_ne, ne_eq, Bool.or_eq_true, not_or, not_not] at hcase
      simp only [IntegerTerm.weight] at hn
      obtain ⟨xs, hxs, hx⟩ := bind_eq_some_iff.mp hx
      obtain ⟨ys, hys, hy⟩ := bind_eq_some_iff.mp hy
      rw [hcase.1, ih.terms (by omega) hcase.2 h hxs hys] at hx
      exact some.inj (hx.symm.trans hy)
  · obtain ⟨rfl, rfl, rfl⟩ := sameSelection_iff.mp h
    exact some.inj (hx.symm.trans hy)
  · cases h

theorem Sound.terms_step (ih : Sound v n) {lefts rights : List IntegerTerm} {budget : Nat}
    {xs ys : List Int} (hn : weightInputs lefts + weightInputs rights < n + 1)
    (hlength : lefts.length = rights.length) (h : (sameTerms lefts rights budget).1 = true)
    (hx : evalAll v lefts = some xs) (hy : evalAll v rights = some ys) : xs = ys := by
  match lefts, rights with
  | [], [] => exact some.inj (hx.symm.trans hy)
  | left :: lefts, right :: rights =>
    obtain ⟨first, rest, hfirst, hrest, rfl⟩ := evalAll_cons hx
    obtain ⟨first', rest', hfirst', hrest', rfl⟩ := evalAll_cons hy
    simp only [weightInputs] at hn
    rw [sameTerms] at h
    split at h
    · rename_i left' hsame
      rw [ih.term (by omega) (by rw [hsame]) hfirst hfirst',
        ih.terms (by omega) (by simpa using hlength) h hrest hrest']
    · cases h

theorem sound (v : Interpretation) (n : Nat) : Sound v n := by
  induction n with
  | zero => exact ⟨nofun, nofun, nofun, nofun⟩
  | succ n ih => exact ⟨ih.text_step, ih.sequence_step, ih.term_step, ih.terms_step⟩

end

end Loom.Proof.Terms
