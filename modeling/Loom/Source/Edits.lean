import Loom.Library.Scalars
import Loom.Library.Splices

/-
  Edits of a text, and the way back through them.

  Correspondence to the source:
    Span                        → std/loom/source/source.loom
    TextEdit, EditError, editBefore, applyEdits, applyOrderedEdits
                                → std/loom/source/edits.loom
    isBoundary                  → std/text/text.loom (is_boundary)
    SourceRenameEdit, sourceEdits, sourceRenamed, sourceOriginalOffset
                                → tools/semantic_change/source_edits.loom
    RenameEdit, renameBody, renameOriginalOffset
                                → tools/semantic_change/renames.loom

  Every span is meant in the text as it was. `applyEdits` sorts the edits by their spans
  and goes through them with a running offset; `sourceOriginalOffset` goes through the
  same edits with the difference of the lengths so far, and so does
  `renameOriginalOffset` through the edits of one declaration.
-/

namespace Loom.Source

open Utf8 Texts Splices Bool Int Option

/-! ## Edits -/

structure Span where
  start : Int
  stop : Int
  deriving DecidableEq

structure TextEdit where
  span : Span
  text : String
  deriving DecidableEq

inductive EditError where
  | range
  | overlap
  deriving DecidableEq

/-- `edit_before`, which reads the spans only. -/
def Span.before (a b : Span) : Bool :=
  a.start < b.start || (a.start == b.start && a.stop < b.stop)

def editBefore (a b : TextEdit) : Bool := a.span.before b.span

def isBoundary (text : String) (offset : Int) : Bool :=
  0 ≤ offset && offset ≤ length text && boundary (bytes text) offset.toNat

/-- A cut with offsets that may be out of range. -/
def cut (text : String) (start stop : Int) : Except Stop String :=
  if 0 ≤ start ∧ 0 ≤ stop then slice text start.toNat stop.toNat else .error .fault

/-- The check that a span is a range of the text. -/
def misplaced (text : String) (span : Span) : Bool :=
  span.start < 0 || span.stop < span.start || (length text : Int) < span.stop ||
    !isBoundary text span.start || !isBoundary text span.stop

/-- The loop of `applyOrderedEdits`. -/
def applyOrderedFrom (text : String) :
    Int → Int → List String → List TextEdit → Except Stop (Except EditError String)
  | offset, _, parts, [] => do
    let last ← cut text offset (length text)
    return .ok (String.join (parts ++ [last]))
  | offset, previous, parts, edit :: rest =>
    if misplaced text edit.span then .ok (.error .range)
    else if edit.span.start < offset ∨ edit.span.start = previous then .ok (.error .overlap)
    else do
      let kept ← cut text offset edit.span.start
      applyOrderedFrom text edit.span.stop edit.span.start (parts ++ [kept, edit.text]) rest

def applyOrderedEdits (text : String) (edits : List TextEdit) :
    Except Stop (Except EditError String) :=
  if edits.length = 0 then .ok (.ok text) else applyOrderedFrom text 0 (-1) [] edits

/-- A stable sort keeps the left of two entries unless the right one is before it. -/
def sortedEdits (edits : List TextEdit) : List TextEdit :=
  edits.mergeSort fun a b => !editBefore b a

def applyEdits (text : String) (edits : List TextEdit) : Except Stop (Except EditError String) :=
  if edits.length < 2 then applyOrderedEdits text edits
  else applyOrderedEdits text (sortedEdits edits)

/-! ## Renames -/

structure SourceRenameEdit where
  path : String
  span : Span
  text : String

def SourceRenameEdit.edit (rename : SourceRenameEdit) : TextEdit :=
  { span := rename.span, text := rename.text }

def sourceEdits (edits : List SourceRenameEdit) (path : String) : List SourceRenameEdit :=
  (edits.filter fun edit => edit.path = path).mergeSort fun a b => !a.span.before b.span

def sourceRenamed (text : String) (edits : List SourceRenameEdit) :
    Except Stop (Except String String) := do
  match ← applyOrderedEdits text (edits.map SourceRenameEdit.edit) with
  | .ok value => return .ok value
  | .error _ => return .error "rename has overlapping or stale source edits"

def partialToken : String := "renamed binding has a partial token definition"

def sourceOriginalFrom (offset : Int) : Int → List SourceRenameEdit → Except String Int
  | delta, [] => .ok (offset - delta)
  | delta, edit :: rest =>
    let start := edit.span.start + delta
    let stop := start + length edit.text
    if offset ≤ start then .ok (offset - delta)
    else if offset < stop then .error partialToken
    else sourceOriginalFrom offset (delta + length edit.text - (edit.span.stop - edit.span.start)) rest

def sourceOriginalOffset (edits : List SourceRenameEdit) (offset : Int) : Except String Int :=
  sourceOriginalFrom offset 0 edits

structure Entry where
  id : String
  body : String

structure RenameEdit where
  id : String
  start : Int
  stop : Int
  text : String
  deriving DecidableEq

def renameBodyFrom (entry : Entry) : String → Int → List RenameEdit → Except Stop String
  | output, offset, [] => do
    let last ← cut entry.body offset (length entry.body)
    return output ++ last
  | output, offset, edit :: rest =>
    if edit.id = entry.id then do
      let kept ← cut entry.body offset edit.start
      renameBodyFrom entry (output ++ (kept ++ edit.text)) edit.stop rest
    else renameBodyFrom entry output offset rest

def renameBody (entry : Entry) (edits : List RenameEdit) : Except Stop String :=
  renameBodyFrom entry "" 0 edits

def renameOriginalFrom (id : String) (offset : Int) : Int → List RenameEdit → Except String Int
  | delta, [] => .ok (offset - delta)
  | delta, edit :: rest =>
    if edit.id = id then
      let start := edit.start + delta
      let stop := start + length edit.text
      if offset ≤ start then .ok (offset - delta)
      else if offset < stop then .error partialToken
      else renameOriginalFrom id offset (delta + length edit.text - (edit.stop - edit.start)) rest
    else renameOriginalFrom id offset delta rest

def renameOriginalOffset (edits : List RenameEdit) (id : String) (offset : Int) :
    Except String Int :=
  renameOriginalFrom id offset 0 edits

/-! ## Ranges of a text -/

def TextEdit.splice (edit : TextEdit) : Splice UInt8 :=
  { start := edit.span.start.toNat, stop := edit.span.stop.toNat, items := bytes edit.text }

/-- A span that holds some characters of the text. -/
def Aligned (text : String) (span : Span) : Prop :=
  ∃ front middle back : List Char, text.toList = front ++ middle ++ back ∧
    span.start = (encode front).length ∧ span.stop = (encode (front ++ middle)).length

/-- Two spans that have a place in common, or begin at one place. -/
def Conflicts (a b : Span) : Prop :=
  a.start = b.start ∨ a.start < b.stop ∧ b.start < a.stop

variable {a b : Span} {offset : Int} {text : String} {previous : Int} {edits : List TextEdit}
  {spans : List Span}

theorem Conflicts.symm (h : Conflicts a b) : Conflicts b a := by
  obtain heq | ⟨hleft, hright⟩ := h
  · exact .inl heq.symm
  · exact .inr ⟨hright, hleft⟩

theorem isBoundary_iff : isBoundary text offset = true ↔
      ∃ front back : List Char, text.toList = front ++ back ∧ offset = (encode front).length := by
  unfold isBoundary
  rw [and_eq_true, and_eq_true, decide_eq_true_eq, decide_eq_true_eq, bytes_eq_encode]
  constructor
  · intro h
    obtain ⟨front, back, htext, hlength⟩ := exists_split h.2
    exact ⟨front, back, htext, by omega⟩
  · intro h
    obtain ⟨front, back, htext, rfl⟩ := h
    refine ⟨⟨by omega, ?_⟩, ?_⟩
    · have hle := encode_length_le front back
      rw [length, bytes_eq_encode, htext]; omega
    · rw [htext]; exact boundary_encode front back

theorem misplaced_eq_false {span : Span} : misplaced text span = false ↔ Aligned text span := by
  unfold misplaced
  rw [or_eq_false_iff, or_eq_false_iff, or_eq_false_iff, or_eq_false_iff,
    not_eq_false', not_eq_false', isBoundary_iff, isBoundary_iff]
  simp only [decide_eq_false_iff_not]
  constructor
  · rintro ⟨⟨⟨⟨hstart, hspan⟩, hstop⟩, front, rest, htext, hfront⟩, wide, back, htext', hwide⟩
    -- of two cuts the later one is behind the earlier one
    obtain ⟨middle, rfl, -⟩ : ∃ middle, wide = front ++ middle ∧ rest = middle ++ back := by
      obtain ⟨middle, hmiddle, hrest⟩ | ⟨middle, hmiddle, hrest⟩ :=
        List.append_eq_append_iff.mp (htext.symm.trans htext')
      · exact ⟨middle, hmiddle, hrest⟩
      · cases middle with
        | nil => exact ⟨[], by simpa using hmiddle.symm, by simpa using hrest.symm⟩
        | cons char middle =>
          have hlt := encode_length_lt wide middle char
          rw [hmiddle] at hfront; omega
    exact ⟨front, middle, back, htext', hfront, hwide⟩
  · rintro ⟨front, middle, back, htext, hstart, hstop⟩
    have hle := encode_length_le front middle
    have hle' := encode_length_le (front ++ middle) back
    refine ⟨⟨⟨⟨by omega, by omega⟩, ?_⟩, front, middle ++ back, ?_, hstart⟩,
      front ++ middle, back, htext, hstop⟩
    · rw [length, bytes_eq_encode, htext]; omega
    · rw [htext, List.append_assoc]

theorem cut_aligned {front middle back : List Char} (htext : text.toList = front ++ middle ++ back) :
    cut text (encode front).length (encode (front ++ middle)).length =
      .ok (String.ofList middle) := by
  exact slice_chars htext

theorem bytes_middle {front middle back : List Char} (htext : text.toList = front ++ middle ++ back) :
    bytes (String.ofList middle) = ((bytes text).drop (encode front).length).take
      ((encode (front ++ middle)).length - (encode front).length) := by
  have hbytes : bytes text = encode front ++ (encode middle ++ encode back) := by
    rw [bytes_eq_encode, htext, encode_append, encode_append, List.append_assoc]
  have hlength : (encode (front ++ middle)).length - (encode front).length =
      (encode middle).length := by
    rw [encode_append, List.length_append, Nat.add_sub_cancel_left]
  rw [hbytes, List.drop_left, hlength, List.take_left]
  exact bytes_ofList middle

/-- Between two cuts of a text, in this order, some characters are. -/
theorem cut_between {start stop : Int} (hstart : isBoundary text start = true)
    (hstop : isBoundary text stop = true) (hle : start ≤ stop) :
    ∃ piece, cut text start stop = .ok piece ∧
      bytes piece = ((bytes text).drop start.toNat).take (stop.toNat - start.toNat) := by
  have hplaced : misplaced text { start := start, stop := stop } = false := by
    obtain ⟨front, rest, -, hfront⟩ := isBoundary_iff.mp hstart
    have hlength : stop ≤ length text := by
      unfold isBoundary at hstop
      simp only [and_eq_true, decide_eq_true_eq] at hstop; exact hstop.1.2
    simp [misplaced, hstart, hstop]; omega
  obtain ⟨front, middle, back, htext, hfront, hwide⟩ := misplaced_eq_false.mp hplaced
  dsimp only at hfront hwide
  rw [hfront, hwide]
  exact ⟨String.ofList middle, cut_aligned htext, bytes_middle htext⟩

theorem isBoundary_zero (text : String) : isBoundary text 0 = true :=
  isBoundary_iff.mpr ⟨[], text.toList, rfl, rfl⟩

theorem isBoundary_length (text : String) : isBoundary text (length text) = true :=
  isBoundary_iff.mpr ⟨text.toList, [], (List.append_nil _).symm, by rw [length, bytes_eq_encode]⟩

theorem Aligned.boundaries {span : Span} (h : Aligned text span) :
    isBoundary text span.start = true ∧ isBoundary text span.stop = true ∧
      0 ≤ span.start ∧ span.start ≤ span.stop ∧ span.stop ≤ length text := by
  obtain ⟨front, middle, back, htext, hstart, hstop⟩ := h
  have hle := encode_length_le front middle
  have hle' := encode_length_le (front ++ middle) back
  refine ⟨isBoundary_iff.mpr ⟨front, middle ++ back, ?_, hstart⟩,
    isBoundary_iff.mpr ⟨front ++ middle, back, htext, hstop⟩, by omega, by omega, ?_⟩
  · rw [htext, List.append_assoc]
  · rw [length, bytes_eq_encode, htext]; omega

theorem cut_last (h : isBoundary text offset = true) :
    ∃ piece, cut text offset (length text) = .ok piece ∧
      bytes piece = (bytes text).drop offset.toNat := by
  have hle : offset ≤ length text := by
    unfold isBoundary at h
    simp only [and_eq_true, decide_eq_true_eq] at h; exact h.1.2
  obtain ⟨piece, hcut, hbytes⟩ := cut_between h (isBoundary_length text) hle
  refine ⟨piece, hcut, ?_⟩
  rw [hbytes, List.take_of_length_le]; exact Nat.le_of_eq (List.length_drop ..)

/-! ## The loop over edits in order -/

/-- What the loop says about the spans. -/
def verdict (text : String) : Int → Int → List Span → Option EditError
  | _, _, [] => none
  | offset, previous, span :: rest =>
    if misplaced text span then some .range
    else if span.start < offset ∨ span.start = previous then some .overlap
    else verdict text span.stop span.start rest

theorem bytes_join (parts : List String) : bytes (String.join parts) = parts.flatMap bytes := by
  induction parts with
  | nil => rfl
  | cons first rest ih => rw [String.join_cons, bytes_append, ih, List.flatMap_cons]

theorem applyOrderedFrom_error {parts : List String} {error : EditError}
    (hoffset : isBoundary text offset = true)
    (h : verdict text offset previous (edits.map TextEdit.span) = some error) :
    applyOrderedFrom text offset previous parts edits = .ok (.error error) := by
  induction edits generalizing offset previous parts with
  | nil => cases h
  | cons edit rest ih =>
    rw [List.map_cons, verdict] at h
    rw [applyOrderedFrom]
    cases hplaced : misplaced text edit.span with
    | true =>
      rw [hplaced] at h
      rw [if_pos rfl, ← some.inj h]
    | false =>
      rw [hplaced] at h
      rw [if_neg Bool.false_ne_true]
      by_cases hover : edit.span.start < offset ∨ edit.span.start = previous
      · rw [if_pos hover] at h
        rw [if_pos hover, ← some.inj h]
      · rw [if_neg hover] at h
        obtain ⟨hstart, hstop, -⟩ := (misplaced_eq_false.mp hplaced).boundaries
        obtain ⟨kept, hcut, -⟩ := cut_between hoffset hstart
          (not_lt.mp fun hlt => hover (.inl hlt))
        rw [if_neg hover, hcut]; exact ih hstop h

theorem applyOrderedFrom_ok (parts : List String) (hoffset : isBoundary text offset = true)
    (h : verdict text offset previous (edits.map TextEdit.span) = none) :
    ∃ new, applyOrderedFrom text offset previous parts edits = .ok (.ok new) ∧
      bytes new = parts.flatMap bytes ++
        sequential (bytes text) offset.toNat (edits.map TextEdit.splice) := by
  induction edits generalizing offset previous parts with
  | nil =>
    obtain ⟨last, hcut, hbytes⟩ := cut_last hoffset
    refine ⟨String.join (parts ++ [last]), ?_, ?_⟩
    · rw [applyOrderedFrom, hcut]; rfl
    · rw [bytes_join, List.flatMap_append, List.flatMap_singleton, hbytes]; rfl
  | cons edit rest ih =>
    rw [List.map_cons, verdict] at h
    rw [applyOrderedFrom]
    cases hplaced : misplaced text edit.span with
    | true =>
      rw [hplaced] at h
      cases h
    | false =>
      rw [hplaced] at h
      by_cases hover : edit.span.start < offset ∨ edit.span.start = previous
      · rw [if_pos hover] at h
        cases h
      · rw [if_neg hover] at h
        obtain ⟨hstart, hstop, -⟩ := (misplaced_eq_false.mp hplaced).boundaries
        obtain ⟨kept, hcut, hbytes⟩ := cut_between hoffset hstart
          (not_lt.mp fun hlt => hover (.inl hlt))
        obtain ⟨new, hrun, hnew⟩ := ih (parts ++ [kept, edit.text]) hstop h
        refine ⟨new, ?_, ?_⟩
        · rw [if_neg hover, hcut]; exact hrun
        · rw [hnew, List.flatMap_append, List.map_cons, sequential]
          simp [TextEdit.splice, hbytes]

/-! ## What the verdict means -/

/-- The order that the sort leaves: no span is before one on its left. -/
def InOrder (spans : List Span) : Prop := spans.Pairwise fun a b => b.before a = false

theorem before_eq_false :
    b.before a = false ↔ a.start < b.start ∨ a.start = b.start ∧ a.stop ≤ b.stop := by
  simp only [Span.before, or_eq_false_iff, and_eq_false_iff, decide_eq_false_iff_not,
    beq_eq_false_iff_ne]
  omega

theorem accepted (hprevious : previous ≤ offset) (h : verdict text offset previous spans = none) :
    (∀ span ∈ spans, Aligned text span ∧ offset ≤ span.start ∧ previous < span.start) ∧
      spans.Pairwise fun a b => a.stop ≤ b.start ∧ a.start < b.start := by
  induction spans generalizing offset previous with
  | nil => exact ⟨fun span hmem => absurd hmem List.not_mem_nil, List.Pairwise.nil⟩
  | cons first rest ih =>
    rw [verdict] at h
    cases hplaced : misplaced text first with
    | true =>
      rw [hplaced] at h
      cases h
    | false =>
      rw [hplaced] at h
      by_cases hover : first.start < offset ∨ first.start = previous
      · rw [if_pos hover] at h
        cases h
      · rw [if_neg hover] at h
        have haligned := misplaced_eq_false.mp hplaced
        obtain ⟨-, -, -, hspan, -⟩ := haligned.boundaries
        obtain ⟨hall, hpair⟩ := ih hspan h
        refine ⟨fun span hmem => ?_, List.Pairwise.cons (fun later hmem => ?_) hpair⟩
        · obtain rfl | hmem := List.mem_cons.mp hmem
          · exact ⟨haligned, by omega, by omega⟩
          · obtain ⟨hlater, hstop, hstart⟩ := hall span hmem
            exact ⟨hlater, by omega, by omega⟩
        · obtain ⟨-, hstop, hstart⟩ := hall later hmem
          exact ⟨hstop, hstart⟩

theorem not_conflicts_of_behind (h : a.stop ≤ b.start ∧ a.start < b.start) : ¬Conflicts a b := by
  rintro (heq | ⟨-, hlt⟩)
  · omega
  · omega

theorem verdict_range (h : verdict text offset previous spans = some .range) :
    ∃ span ∈ spans, ¬Aligned text span := by
  induction spans generalizing offset previous with
  | nil => cases h
  | cons first rest ih =>
    rw [verdict] at h
    cases hplaced : misplaced text first with
    | true =>
      refine ⟨first, .head _, fun haligned => ?_⟩
      rw [misplaced_eq_false.mpr haligned] at hplaced
      cases hplaced
    | false =>
      rw [hplaced] at h
      by_cases hover : first.start < offset ∨ first.start = previous
      · rw [if_pos hover] at h
        cases h
      · rw [if_neg hover] at h
        obtain ⟨span, hmem, hbad⟩ := ih h
        exact ⟨span, .tail _ hmem, hbad⟩

/-- Behind an accepted span the first one that is refused for its place conflicts with it. -/
theorem verdict_overlap {previous : Span} (horder : InOrder (previous :: spans))
    (h : verdict text previous.stop previous.start spans = some .overlap) :
    ¬(previous :: spans).Pairwise fun a b => ¬Conflicts a b := by
  induction spans generalizing previous with
  | nil => cases h
  | cons first rest ih =>
    rw [verdict] at h
    cases hplaced : misplaced text first with
    | true =>
      rw [hplaced] at h
      cases h
    | false =>
      rw [hplaced] at h
      obtain ⟨-, -, -, hspan, -⟩ := (misplaced_eq_false.mp hplaced).boundaries
      have hleft := before_eq_false.mp (List.rel_of_pairwise_cons horder (.head _))
      intro hpair
      by_cases hover : first.start < previous.stop ∨ first.start = previous.start
      · refine List.rel_of_pairwise_cons hpair (.head _) ?_
        by_cases hsame : previous.start = first.start
        · exact .inl hsame
        · exact .inr ⟨by omega, by omega⟩
      · rw [if_neg hover] at h; exact ih horder.of_cons h hpair.of_cons

theorem verdict_start (text : String) (horder : InOrder spans) :
    match verdict text 0 (-1) spans with
    | none => (∀ span ∈ spans, Aligned text span) ∧ spans.Pairwise fun a b => ¬Conflicts a b
    | some .range => ∃ span ∈ spans, ¬Aligned text span
    | some .overlap => ¬spans.Pairwise fun a b => ¬Conflicts a b := by
  cases hverdict : verdict text 0 (-1) spans with
  | none =>
    obtain ⟨hall, hpair⟩ := accepted (by omega) hverdict
    exact ⟨fun span hmem => (hall span hmem).1, hpair.imp not_conflicts_of_behind⟩
  | some error =>
    cases error with
    | range => exact verdict_range hverdict
    | overlap =>
      cases spans with
      | nil => cases hverdict
      | cons first rest =>
        rw [verdict] at hverdict
        cases hplaced : misplaced text first with
        | true =>
          rw [hplaced] at hverdict
          cases hverdict
        | false =>
          obtain ⟨-, -, hstart, -⟩ := (misplaced_eq_false.mp hplaced).boundaries
          rw [hplaced, if_neg Bool.false_ne_true, if_neg (by omega)] at hverdict
          exact verdict_overlap horder hverdict

theorem ordered_of_accepted (offset : Int) (hlength : offset.toNat ≤ length text)
    (hall : ∀ edit ∈ edits, Aligned text edit.span ∧ offset ≤ edit.span.start)
    (hpair : edits.Pairwise fun a b => a.span.stop ≤ b.span.start ∧ a.span.start < b.span.start) :
    Ordered (bytes text).length offset.toNat (edits.map TextEdit.splice) := by
  induction edits generalizing offset with
  | nil => exact hlength
  | cons first rest ih =>
    obtain ⟨haligned, hoffset⟩ := hall first (.head _)
    obtain ⟨-, -, hzero, hspan, hsize⟩ := haligned.boundaries
    have hlater : ∀ later ∈ rest, first.span.stop ≤ later.span.start ∧
        first.span.start < later.span.start :=
      fun later hmem => List.rel_of_pairwise_cons hpair hmem
    refine ⟨toNat_le_toNat hoffset, toNat_le_toNat hspan, fun later hmem => ?_,
      ih first.span.stop (by omega) (fun later hmem => ?_) hpair.of_cons⟩
    · obtain ⟨edit, hedit, rfl⟩ := List.mem_map.mp hmem
      have := hlater edit hedit
      exact (toNat_lt_toNat (by omega)).mpr this.2
    · exact ⟨(hall later (.tail _ hmem)).1, (hlater later hmem).1⟩

/-! ## Edits in order -/

/-- What a result says about the edits, in whatever order they are given. -/
def Replaces (text : String) (edits : List TextEdit) : Except EditError String → Prop
  | .ok new => (∀ edit ∈ edits, Aligned text edit.span) ∧
      (edits.Pairwise fun a b => ¬Conflicts a.span b.span) ∧
      bytes new = splice (bytes text) (edits.map TextEdit.splice)
  | .error .range => ∃ edit ∈ edits, ¬Aligned text edit.span
  | .error .overlap => ¬edits.Pairwise fun a b => ¬Conflicts a.span b.span

theorem applyOrderedEdits_error {error : EditError}
    (h : verdict text 0 (-1) (edits.map TextEdit.span) = some error) :
    applyOrderedEdits text edits = .ok (.error error) := by
  cases edits with
  | nil => cases h
  | cons first rest =>
    exact applyOrderedFrom_error (isBoundary_zero text) h

theorem applyOrderedEdits_ok (h : verdict text 0 (-1) (edits.map TextEdit.span) = none) :
    ∃ new, applyOrderedEdits text edits = .ok (.ok new) ∧
      Ordered (bytes text).length 0 (edits.map TextEdit.splice) ∧
      bytes new = splice (bytes text) (edits.map TextEdit.splice) := by
  obtain ⟨hall, hpair⟩ := accepted (by omega) h
  have hordered : Ordered (bytes text).length 0 (edits.map TextEdit.splice) := by
    refine ordered_of_accepted 0 (Nat.zero_le _) (fun edit hmem => ?_) (List.pairwise_map.mp hpair)
    have := hall edit.span (List.mem_map_of_mem hmem)
    exact ⟨this.1, this.2.1⟩
  cases edits with
  | nil =>
    refine ⟨text, rfl, hordered, ?_⟩
    rw [splice_eq hordered]; rfl
  | cons first rest =>
    obtain ⟨new, hrun, hnew⟩ := applyOrderedFrom_ok [] (isBoundary_zero text) h
    refine ⟨new, ?_, hordered, ?_⟩
    · exact hrun
    · rw [splice_eq hordered, hnew]; rfl

theorem applyOrderedEdits_spec (text : String) (horder : InOrder (edits.map TextEdit.span)) :
    ∃ result, applyOrderedEdits text edits = .ok result ∧ Replaces text edits result := by
  have hmeaning := verdict_start text horder
  cases hverdict : verdict text 0 (-1) (edits.map TextEdit.span) with
  | none =>
    rw [hverdict] at hmeaning
    obtain ⟨hall, hpair⟩ := hmeaning
    obtain ⟨new, hrun, -, hnew⟩ := applyOrderedEdits_ok hverdict
    refine ⟨.ok new, hrun, fun edit hmem => hall _ (List.mem_map_of_mem hmem), ?_, hnew⟩
    exact List.pairwise_map.mp hpair
  | some error =>
    rw [hverdict] at hmeaning
    refine ⟨.error error, applyOrderedEdits_error hverdict, ?_⟩
    cases error with
    | range =>
      obtain ⟨span, hmem, hbad⟩ := hmeaning
      obtain ⟨edit, hedit, rfl⟩ := List.mem_map.mp hmem
      exact ⟨edit, hedit, hbad⟩
    | overlap => exact fun hpair => hmeaning (List.pairwise_map.mpr hpair)

/-! ## Edits in any order -/

theorem sortedEdits_perm (edits : List TextEdit) : (sortedEdits edits).Perm edits :=
  List.mergeSort_perm edits _

theorem sortedEdits_order (edits : List TextEdit) :
    InOrder ((sortedEdits edits).map TextEdit.span) := by
  have hsorted : (edits.mergeSort fun a b => !editBefore b a).Pairwise
      fun a b => !editBefore b a := List.pairwise_mergeSort (fun a b c hab hbc => by
      simp only [editBefore, not_eq_true', before_eq_false] at hab hbc ⊢
      omega) (fun a b => by
      simp only [editBefore, or_eq_true, not_eq_true', before_eq_false]
      omega) edits
  refine List.pairwise_map.mpr (hsorted.imp fun hpair => ?_)
  simpa [editBefore] using hpair

/-- Two edits are sorted without looking at them when there are not two. -/
theorem applyEdits_eq (text : String) (edits : List TextEdit) :
    applyEdits text edits = applyOrderedEdits text (sortedEdits edits) := by
  unfold applyEdits
  match edits with
  | [] => rw [if_pos (by simp), sortedEdits, List.mergeSort_nil]
  | [edit] => rw [if_pos (by simp), sortedEdits, List.mergeSort_singleton]
  | first :: second :: rest => rw [if_neg (by simp)]

theorem distinct_of_not_conflicts (h : edits.Pairwise fun a b => ¬Conflicts a.span b.span)
    (hall : ∀ edit ∈ edits, 0 ≤ edit.span.start) :
    (edits.map TextEdit.splice).Pairwise fun a b => a.start ≠ b.start := by
  refine List.pairwise_map.mpr (h.imp_of_mem fun {a b} ha hb hpair heq => hpair (.inl ?_))
  have hstart := hall a ha
  have hstart' := hall b hb
  have hsame : a.span.start.toNat = b.span.start.toNat := heq
  omega

/-- The meaning of a result does not depend on the order of the edits. -/
theorem Replaces.perm {others : List TextEdit} {result : Except EditError String}
    (h : Replaces text edits result) (hperm : edits.Perm others) : Replaces text others result := by
  have hpairwise : (edits.Pairwise fun a b => ¬Conflicts a.span b.span) ↔
      others.Pairwise fun a b => ¬Conflicts a.span b.span :=
    hperm.pairwise_iff fun hpair hconflict => hpair hconflict.symm
  match result with
  | .ok new =>
    obtain ⟨hall, hpair, hnew⟩ := h
    refine ⟨fun edit hmem => hall edit (hperm.mem_iff.mpr hmem), hpairwise.mp hpair, ?_⟩
    rw [hnew]
    refine splice_perm (bytes text) (hperm.map _) (distinct_of_not_conflicts hpair ?_)
    exact fun edit hmem => (hall edit hmem).boundaries.2.2.1
  | .error .range =>
    obtain ⟨edit, hmem, hbad⟩ := h
    exact ⟨edit, hperm.mem_iff.mp hmem, hbad⟩
  | .error .overlap => exact fun hpair => h (hpairwise.mpr hpair)

/-- Sorted edits have their spans in one order, and different spans only one order. -/
theorem applyEdits_perm (text : String) {others : List TextEdit} (h : edits.Perm others) :
    applyEdits text edits = applyEdits text others := by
  have hperm : (sortedEdits edits).Perm (sortedEdits others) :=
    (sortedEdits_perm edits).trans (h.trans (sortedEdits_perm others).symm)
  have hspans : (sortedEdits edits).map TextEdit.span = (sortedEdits others).map TextEdit.span := by
    refine List.Perm.eq_of_pairwise (fun a b _ _ hab hba => ?_) (sortedEdits_order edits)
      (sortedEdits_order others) (hperm.map _)
    rw [before_eq_false] at hab hba
    obtain ⟨astart, astop⟩ := a
    obtain ⟨bstart, bstop⟩ := b
    dsimp only at hab hba
    rw [show astart = bstart by omega, show astop = bstop by omega]
  rw [applyEdits_eq, applyEdits_eq]
  cases hverdict : verdict text 0 (-1) ((sortedEdits edits).map TextEdit.span) with
  | none =>
    have hstrict := List.pairwise_map.mp (accepted (by omega) hverdict).2
    rw [hspans] at hverdict
    have hstrict' := List.pairwise_map.mp (accepted (by omega) hverdict).2
    have hsame : sortedEdits edits = sortedEdits others := by
      refine List.Perm.eq_of_pairwise (fun a b _ _ hab hba => ?_) hstrict hstrict' hperm
      omega
    rw [hsame]
  | some error =>
    rw [applyOrderedEdits_error hverdict]
    rw [hspans] at hverdict
    rw [applyOrderedEdits_error hverdict]

theorem applyEdits_spec (text : String) (edits : List TextEdit) :
    ∃ result, Replaces text edits result ∧
      ∀ others : List TextEdit, others.Perm edits → applyEdits text others = .ok result := by
  obtain ⟨result, hrun, hmeaning⟩ := applyOrderedEdits_spec text (sortedEdits_order edits)
  refine ⟨result, hmeaning.perm (sortedEdits_perm edits), fun others hperm => ?_⟩
  rw [applyEdits_perm text hperm, applyEdits_eq]; exact hrun

/-! ## The way back -/

def SourceRenameEdit.splice (edit : SourceRenameEdit) : Splice UInt8 := edit.edit.splice

def RenameEdit.span (edit : RenameEdit) : Span := { start := edit.start, stop := edit.stop }

def RenameEdit.edit (edit : RenameEdit) : TextEdit := { span := edit.span, text := edit.text }

def RenameEdit.splice (edit : RenameEdit) : Splice UInt8 := edit.edit.splice

def ownEdits (id : String) (edits : List RenameEdit) : List RenameEdit :=
  edits.filter fun edit => edit.id = id

/-- Position `index` of the result is where the byte stands that was at `origin`; the ends of
    both texts are positions, too. -/
def CameFrom (text : String) (splices : List (Splice UInt8)) (index origin : Nat) : Prop :=
  (origins (length text) splices)[index]? = some (some origin)

instance (text : String) (splices : List (Splice UInt8)) (index origin : Nat) :
    Decidable (CameFrom text splices index origin) :=
  inferInstanceAs (Decidable (_ = _))

theorem sourceOriginalFrom_eq {edits : List SourceRenameEdit} {position delta back : Int}
    (hall : ∀ edit ∈ edits, 0 ≤ edit.span.start ∧ edit.span.start ≤ edit.span.stop)
    (h : traceBack position delta (edits.map SourceRenameEdit.splice) = some back) :
    sourceOriginalFrom position delta edits = .ok back := by
  induction edits generalizing delta with
  | nil => rw [sourceOriginalFrom, some.inj h]
  | cons first rest ih =>
    obtain ⟨hstart, hstop⟩ := hall first (.head _)
    have hfrom : ((first.splice.start : Nat) : Int) = first.span.start := toNat_of_nonneg hstart
    have hto : ((first.splice.stop : Nat) : Int) = first.span.stop :=
      toNat_of_nonneg (le_trans hstart hstop)
    have hitems : first.splice.items.length = length first.text := rfl
    rw [List.map_cons, traceBack, hfrom, hto, hitems] at h
    rw [sourceOriginalFrom]
    split at h
    case isTrue hbefore => rw [if_pos hbefore, some.inj h]
    case isFalse hbehind =>
      rw [if_neg hbehind]
      split at h
      case isTrue => cases h
      case isFalse hout =>
        rw [if_neg hout]; exact ih (fun edit hmem => hall edit (.tail _ hmem)) h

/-- The loop of a rename looks at the edits of its own declaration only. -/
theorem renameOriginalFrom_eq {id : String} {edits : List RenameEdit} {position delta back : Int}
    (hall : ∀ edit ∈ ownEdits id edits, 0 ≤ edit.start ∧ edit.start ≤ edit.stop)
    (h : traceBack position delta ((ownEdits id edits).map RenameEdit.splice) = some back) :
    renameOriginalFrom id position delta edits = .ok back := by
  induction edits generalizing delta with
  | nil => rw [renameOriginalFrom, some.inj h]
  | cons first rest ih =>
    rw [renameOriginalFrom]
    by_cases hown : first.id = id
    · have hcons : ownEdits id (first :: rest) = first :: ownEdits id rest :=
        List.filter_cons_of_pos (by simpa using hown)
      rw [hcons] at hall h
      obtain ⟨hstart, hstop⟩ := hall first (.head _)
      have hfrom : ((first.splice.start : Nat) : Int) = first.start := toNat_of_nonneg hstart
      have hto : ((first.splice.stop : Nat) : Int) = first.stop :=
        toNat_of_nonneg (le_trans hstart hstop)
      have hitems : first.splice.items.length = length first.text := rfl
      rw [List.map_cons, traceBack, hfrom, hto, hitems] at h
      rw [if_pos hown]
      split at h
      case isTrue hbefore => rw [if_pos hbefore, some.inj h]
      case isFalse hbehind =>
        rw [if_neg hbehind]
        split at h
        case isTrue => cases h
        case isFalse hout =>
          rw [if_neg hout]
          exact ih (fun edit hmem => hall edit (.tail _ hmem)) h
    · have hskip : ownEdits id (first :: rest) = ownEdits id rest :=
        List.filter_cons_of_neg (by simpa using hown)
      rw [hskip] at hall h
      rw [if_neg hown]; exact ih hall h

/-- Edits that a text has been renamed with are in order. -/
theorem verdict_of_renamed {new : String} {edits : List SourceRenameEdit}
    (h : sourceRenamed text edits = .ok (.ok new)) :
    verdict text 0 (-1) ((edits.map SourceRenameEdit.edit).map TextEdit.span) = none := by
  cases hverdict : verdict text 0 (-1) ((edits.map SourceRenameEdit.edit).map TextEdit.span) with
  | none => rfl
  | some error =>
    rw [sourceRenamed, applyOrderedEdits_error hverdict] at h
    cases h

theorem sourceOriginalOffset_spec {new : String} {edits : List SourceRenameEdit}
    (h : sourceRenamed text edits = .ok (.ok new)) :
    bytes new = splice (bytes text) (edits.map SourceRenameEdit.splice) ∧
      ∀ index origin, CameFrom text (edits.map SourceRenameEdit.splice) index origin →
        ∃ back : Nat, sourceOriginalOffset edits index = .ok back ∧
          Removed (edits.map SourceRenameEdit.splice) back origin := by
  have hverdict := verdict_of_renamed h
  have hsplices : (edits.map SourceRenameEdit.edit).map TextEdit.splice =
      edits.map SourceRenameEdit.splice := List.map_map
  obtain ⟨value, hrun, hordered, hvalue⟩ := applyOrderedEdits_ok hverdict
  rw [hsplices] at hordered hvalue
  refine ⟨?_, fun index origin hcame => ?_⟩
  · rw [sourceRenamed, hrun] at h
    obtain rfl : value = new := Except.ok.inj (Except.ok.inj h)
    exact hvalue
  · obtain ⟨back, hback, hremoved⟩ := traceBack_spec hordered hcame
    refine ⟨back, sourceOriginalFrom_eq (fun edit hmem => ?_) hback, hremoved⟩
    have haligned := (accepted (by omega) hverdict).1 edit.span (by
      rw [List.map_map]
      exact List.mem_map_of_mem (f := TextEdit.span ∘ SourceRenameEdit.edit) hmem)
    obtain ⟨-, -, hstart, hstop, -⟩ := haligned.1.boundaries
    exact ⟨hstart, hstop⟩

/-! ## Renames of tokens -/

/-- The edits of a declaration replace tokens of its body by names, from left to right. -/
structure TokenRenames (entry : Entry) (edits : List RenameEdit) : Prop where
  aligned : ∀ edit ∈ ownEdits entry.id edits, Aligned entry.body edit.span
  token : ∀ edit ∈ ownEdits entry.id edits, edit.start < edit.stop
  named : ∀ edit ∈ ownEdits entry.id edits, edit.text ≠ ""
  ordered : (ownEdits entry.id edits).Pairwise fun a b => a.stop ≤ b.start

theorem renameBodyFrom_ok {entry : Entry} {edits : List RenameEdit} (output : String)
    (hoffset : isBoundary entry.body offset = true)
    (hall : ∀ edit ∈ ownEdits entry.id edits, Aligned entry.body edit.span ∧ offset ≤ edit.start)
    (hordered : (ownEdits entry.id edits).Pairwise fun a b => a.stop ≤ b.start) :
    ∃ new, renameBodyFrom entry output offset edits = .ok new ∧
      bytes new = bytes output ++ sequential (bytes entry.body) offset.toNat
        ((ownEdits entry.id edits).map RenameEdit.splice) := by
  induction edits generalizing output offset with
  | nil =>
    obtain ⟨last, hcut, hbytes⟩ := cut_last hoffset
    refine ⟨output ++ last, ?_, ?_⟩
    · rw [renameBodyFrom, hcut]; rfl
    · rw [bytes_append, hbytes]; rfl
  | cons first rest ih =>
    rw [renameBodyFrom]
    by_cases hown : first.id = entry.id
    · have hcons : ownEdits entry.id (first :: rest) = first :: ownEdits entry.id rest :=
        List.filter_cons_of_pos (by simpa using hown)
      rw [hcons] at hall hordered ⊢
      obtain ⟨haligned, hfrom⟩ := hall first (.head _)
      obtain ⟨hstart, hstop, -⟩ := haligned.boundaries
      obtain ⟨kept, hcut, hbytes⟩ := cut_between hoffset hstart hfrom
      have hcut' : cut entry.body offset first.start = .ok kept := hcut
      obtain ⟨new, hrun, hnew⟩ := ih (output ++ (kept ++ first.text)) hstop
        (fun edit hmem => ⟨(hall edit (.tail _ hmem)).1,
          List.rel_of_pairwise_cons hordered hmem⟩) hordered.of_cons
      refine ⟨new, ?_, ?_⟩
      · rw [if_pos hown, hcut']; exact hrun
      · rw [hnew, bytes_append, bytes_append, hbytes, List.append_assoc, List.map_cons]
        rfl
    · have hskip : ownEdits entry.id (first :: rest) = ownEdits entry.id rest :=
        List.filter_cons_of_neg (by simpa using hown)
      rw [hskip] at hall hordered ⊢
      rw [if_neg hown]; exact ih output hoffset hall hordered

theorem renameOriginalOffset_spec {entry : Entry} {edits : List RenameEdit}
    (h : TokenRenames entry edits) : ∃ new, renameBody entry edits = .ok new ∧
      bytes new = splice (bytes entry.body) ((ownEdits entry.id edits).map RenameEdit.splice) ∧
      ∀ index origin,
        CameFrom entry.body ((ownEdits entry.id edits).map RenameEdit.splice) index origin →
        renameOriginalOffset edits entry.id index = .ok origin := by
  have hsplices : ((ownEdits entry.id edits).map RenameEdit.edit).map TextEdit.splice =
      (ownEdits entry.id edits).map RenameEdit.splice := List.map_map
  have hzero : ∀ edit ∈ ownEdits entry.id edits, 0 ≤ edit.start ∧ edit.start ≤ edit.stop := by
    intro edit hmem
    obtain ⟨-, -, hstart, hstop, -⟩ := (h.aligned edit hmem).boundaries
    exact ⟨hstart, hstop⟩
  have hpair : (ownEdits entry.id edits).Pairwise fun a b =>
      a.stop ≤ b.start ∧ a.start < b.start := by
    refine h.ordered.imp_of_mem fun {a b} ha _ hstop => ⟨hstop, ?_⟩
    have := h.token a ha
    omega
  have hordered : Ordered (bytes entry.body).length 0
      ((ownEdits entry.id edits).map RenameEdit.splice) := by
    rw [← hsplices]
    refine ordered_of_accepted 0 (Nat.zero_le _) (fun edit hmem => ?_) (List.pairwise_map.mpr hpair)
    obtain ⟨rename, hrename, rfl⟩ := List.mem_map.mp hmem
    exact ⟨h.aligned rename hrename, (hzero rename hrename).1⟩
  obtain ⟨new, hrun, hnew⟩ := renameBodyFrom_ok "" (isBoundary_zero entry.body)
    (fun edit hmem => ⟨h.aligned edit hmem, (hzero edit hmem).1⟩) h.ordered
  refine ⟨new, hrun, ?_, fun index origin hcame => ?_⟩
  · rw [splice_eq hordered, hnew]; rfl
  · obtain ⟨back, hback, hle, -, -, hgone, -⟩ := traceBack_spec hordered hcame
    -- names are not empty, so nothing was removed without replacement
    have hsame : back = origin := by
      by_contra hne
      obtain ⟨removed, hmem, hempty, -⟩ := hgone back (Nat.le_refl _) (by omega)
      obtain ⟨edit, hedit, rfl⟩ := List.mem_map.mp hmem
      exact h.named edit hedit (bytes_injective hempty)
    rw [← hsame]; exact renameOriginalFrom_eq hzero hback

/-! ## Both directions -/

/-- Edits are done at once, whatever their order, and a position outside of replaced text
    leads back to where it came from; only where text was removed without replacement right
    in front of it, it leads to where the removal began. -/
theorem edits_there_and_back :
    (∀ (text : String) (edits : List TextEdit), ∃ result, Replaces text edits result ∧
      ∀ others : List TextEdit, others.Perm edits → applyEdits text others = .ok result) ∧
    (∀ (text : String) (edits : List SourceRenameEdit) (path new : String),
      sourceRenamed text (sourceEdits edits path) = .ok (.ok new) → bytes new =
        splice (bytes text) ((sourceEdits edits path).map SourceRenameEdit.splice) ∧ ∀ index origin,
        CameFrom text ((sourceEdits edits path).map SourceRenameEdit.splice) index origin →
        ∃ back : Nat, sourceOriginalOffset (sourceEdits edits path) index = .ok back ∧
          Removed ((sourceEdits edits path).map SourceRenameEdit.splice) back origin) ∧
    ∀ (entry : Entry) (edits : List RenameEdit), TokenRenames entry edits →
      ∃ new, renameBody entry edits = .ok new ∧
        bytes new = splice (bytes entry.body) ((ownEdits entry.id edits).map RenameEdit.splice) ∧
        ∀ index origin,
          CameFrom entry.body ((ownEdits entry.id edits).map RenameEdit.splice) index origin →
          renameOriginalOffset edits entry.id index = .ok origin :=
  ⟨applyEdits_spec, fun _ _ _ _ h => sourceOriginalOffset_spec h,
    fun _ _ h => renameOriginalOffset_spec h⟩

/-- The first character of "ab" is removed: the other one was at 1, and the way back from
    its place leads to 0. -/
theorem removal_leads_back_to_its_start :
    ¬∀ (text : String) (edits : List SourceRenameEdit) (path new : String),
      sourceRenamed text (sourceEdits edits path) = .ok (.ok new) → ∀ index origin : Nat,
        CameFrom text ((sourceEdits edits path).map SourceRenameEdit.splice) index origin →
        sourceOriginalOffset (sourceEdits edits path) index = .ok origin := by
  intro h
  have hedits : sourceEdits [{ path := "a", span := { start := 0, stop := 1 }, text := "" }] "a" =
      [{ path := "a", span := { start := 0, stop := 1 }, text := "" }] := by
    rw [sourceEdits, List.filter_cons_of_pos (by decide), List.filter_nil, List.mergeSort_singleton]
  have hback := h "ab" [{ path := "a", span := { start := 0, stop := 1 }, text := "" }] "a" "b"
    (by decide +kernel) 0 1 (by decide +kernel)
  exact absurd hback (by decide +kernel)

/-- A token of two bytes is renamed and the renaming led back. -/
theorem edits_there_and_back_token : ∃ new, renameBody { id := "f", body := "aé(x)" }
        [{ id := "g", start := 0, stop := 1, text := "y" },
          { id := "f", start := 1, stop := 3, text := "bcd" }] = .ok new ∧
      renameOriginalOffset [{ id := "g", start := 0, stop := 1, text := "y" },
        { id := "f", start := 1, stop := 3, text := "bcd" }] "f" 5 = .ok 4 := by
  have htoken : TokenRenames { id := "f", body := "aé(x)" }
      [{ id := "g", start := 0, stop := 1, text := "y" },
        { id := "f", start := 1, stop := 3, text := "bcd" }] := by
    have hown : ownEdits "f" [{ id := "g", start := 0, stop := 1, text := "y" },
        { id := "f", start := 1, stop := 3, text := "bcd" }] =
        [{ id := "f", start := 1, stop := 3, text := "bcd" }] := by decide
    refine ⟨?_, ?_, ?_, ?_⟩
    · intro edit hmem
      rw [List.mem_singleton.mp hmem]
      exact misplaced_eq_false.mp (by decide)
    · intro edit hmem
      rw [List.mem_singleton.mp hmem]; decide
    · intro edit hmem
      rw [List.mem_singleton.mp hmem]; decide
    · exact List.pairwise_singleton _ _
  obtain ⟨new, hrun, -, hback⟩ := edits_there_and_back.2.2 _ _ htoken
  exact ⟨new, hrun, hback 5 4 (by decide)⟩

end Loom.Source
