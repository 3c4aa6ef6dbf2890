import Loom.Text.Search

/-
  What splitting, joining and replacing texts mean.

  All three loops go through the same cuts: the leftmost occurrences of the pattern
  that do not overlap. The bytes between two cuts are a part, and a cut starts and
  ends between scalars.
-/

namespace Loom.Text

open Utf8 Texts Occurrences Results Except Nat

variable {value pattern : String}

/-! ## From cut to cut -/

/-- The searches of a loop: `front` is what it has passed, `offsets` are its cuts. -/
inductive Scan (value pattern : String) : List Char → List Char → List Nat → Prop
  | last {front back : List Char} (htext : value.toList = front ++ back)
      (hfind : findFrom value pattern (encode front).length = .ok (-1))
      (hnone : ∀ offset, (encode front).length ≤ offset → ¬At (bytes pattern) (bytes value) offset) :
      Scan value pattern front back []
  | next {front middle behind : List Char} {offsets : List Nat}
      (htext : value.toList = front ++ (middle ++ (pattern.toList ++ behind)))
      (hfind : findFrom value pattern (encode front).length =
        .ok ((encode (front ++ middle)).length : Nat))
      (hfirst : First (bytes pattern) (bytes value) (encode front).length
        (encode (front ++ middle)).length)
      (rest : Scan value pattern (front ++ middle ++ pattern.toList) behind offsets) :
      Scan value pattern front (middle ++ (pattern.toList ++ behind))
        ((encode (front ++ middle)).length :: offsets)

theorem exists_scan (hsome : length pattern ≠ 0) (size : Nat) :
    ∀ front back, back.length ≤ size → value.toList = front ++ back →
      ∃ offsets, Scan value pattern front back offsets := by
  have hpos : 0 < pattern.toList.length := by
    apply List.length_pos_of_ne_nil
    intro hnone; exact hsome (by rw [length_eq_encode hnone]; rfl)
  induction size with
  | zero =>
    intro front back hsize htext
    obtain ⟨next, hfind, hfound⟩ := findFrom_spec hsome back front htext
    cases hfound with
    | nowhere hnone => exact ⟨[], .last htext hfind hnone⟩
    | here hfirst =>
      rw [List.length_append, List.length_append] at hsize; omega
  | succ size ih =>
    intro front back hsize htext
    obtain ⟨next, hfind, hfound⟩ := findFrom_spec hsome back front htext
    cases hfound with
    | nowhere hnone => exact ⟨[], .last htext hfind hnone⟩
    | @here middle behind hfirst =>
      rw [List.length_append, List.length_append] at hsize
      obtain ⟨offsets, hrest⟩ := ih (front ++ middle ++ pattern.toList) behind (by omega)
        (by rw [htext]; simp [List.append_assoc])
      exact ⟨_, .next htext hfind hfirst hrest⟩

theorem Scan.found {front back : List Char} {offsets : List Nat}
    (h : Scan value pattern front back offsets) :
    ∃ next, findFrom value pattern (encode front).length = .ok next := by
  cases h with
  | last _ hfind _ => exact ⟨_, hfind⟩
  | next _ hfind _ _ => exact ⟨_, hfind⟩

theorem encode_behind (front middle : List Char) :
    (encode (front ++ middle ++ pattern.toList)).length =
      (encode (front ++ middle)).length + length pattern := by
  rw [encode_append, List.length_append, ← length_eq_encode rfl]

variable {front back : List Char} {offsets : List Nat}

theorem Scan.cuts (h : Scan value pattern front back offsets) :
    Cuts (bytes pattern) (bytes value) (encode front).length offsets := by
  induction h with
  | last _ _ hnone => exact .last hnone
  | next _ _ hfirst _ ih =>
    rw [encode_behind] at ih; exact .next hfirst ih

/-- A cut starts and ends between scalars. -/
theorem Scan.boundary (h : Scan value pattern front back offsets) : ∀ offset ∈ offsets,
      boundary (bytes value) offset = true ∧
        boundary (bytes value) (offset + length pattern) = true := by
  induction h with
  | last _ _ _ => exact nofun
  | @next front middle behind offsets htext _ _ _ ih =>
    rw [List.forall_mem_cons]
    refine ⟨⟨?_, ?_⟩, ih⟩
    · rw [bytes_eq_encode, htext, ← List.append_assoc]
      exact boundary_encode _ _
    · rw [← encode_behind, bytes_eq_encode, htext, ← List.append_assoc, ← List.append_assoc]
      exact boundary_encode _ _

/-! ## Splitting -/

theorem slice_last (htext : value.toList = front ++ back) :
    slice value (encode front).length (length value) = .ok (String.ofList back) := by
  have hslice : slice value (encode front).length (encode (front ++ back)).length = _ :=
    slice_chars (htext.trans (List.append_nil _).symm)
  rw [length_eq_encode htext, hslice]

theorem splitFrom_step (hsome : length pattern ≠ 0) {start next : Nat} {later : Int}
    (hlater : findFrom value pattern (next + length pattern) = .ok later) :
    splitFrom value pattern hsome start next = (do
      let part ← slice value start next
      let others ← splitFrom value pattern hsome (next + length pattern) later
      return part :: others) := by
  rw [splitFrom, dif_pos (Int.natCast_nonneg _), Int.toNat_natCast]
  congr 1
  split
  next stop hstop => cases hstop.symm.trans hlater
  next later' hlater' => rw [ok.inj (hlater'.symm.trans hlater)]

/-- The loop cuts the text into what stands between the cuts. -/
theorem splitFrom_eq (hsome : length pattern ≠ 0) (h : Scan value pattern front back offsets)
    {next : Int} (hnext : findFrom value pattern (encode front).length = .ok next) :
    ∃ parts, splitFrom value pattern hsome (encode front).length next = .ok parts ∧
      parts.map bytes = pieces (bytes value) (length pattern) (encode front).length offsets := by
  induction h generalizing next with
  | @last front back htext hfind _ =>
    obtain rfl : (-1 : Int) = next := ok.inj (hfind.symm.trans hnext)
    have hslice := slice_last htext
    refine ⟨[String.ofList back], ?_, ?_⟩
    · rw [splitFrom, hslice]; rfl
    · rw [List.map_singleton, mem_of_slice hslice, pieces, length, ← List.length_drop,
        List.take_length]
  | @next front middle behind offsets htext hfind _ hrest ih =>
    obtain rfl : ((encode (front ++ middle)).length : Int) = next :=
      ok.inj (hfind.symm.trans hnext)
    have hslice : slice value (encode front).length (encode (front ++ middle)).length = _ :=
      slice_chars (htext.trans (List.append_assoc _ _ _).symm)
    obtain ⟨later, hlater⟩ := hrest.found
    obtain ⟨others, hothers, hpieces⟩ := ih hlater
    rw [encode_behind] at hlater hothers hpieces
    refine ⟨String.ofList middle :: others, ?_, ?_⟩
    · rw [splitFrom_step hsome hlater, hslice, hothers]; rfl
    · rw [List.map_cons, mem_of_slice hslice, hpieces, pieces]

theorem split_spec (value : String) (hsome : length pattern ≠ 0) : ∃ parts offsets,
    split value pattern = .ok parts ∧ Scan value pattern [] value.toList offsets ∧
      parts.map bytes = pieces (bytes value) (length pattern) 0 offsets := by
  obtain ⟨offsets, hscan⟩ := exists_scan hsome _ [] value.toList (le_refl _) rfl
  obtain ⟨next, hnext⟩ := hscan.found
  obtain ⟨parts, hparts, hpieces⟩ := splitFrom_eq hsome hscan hnext
  refine ⟨parts, offsets, ?_, hscan, hpieces⟩
  rw [encode_nil, List.length_nil] at hnext hparts
  rw [split, dif_neg hsome, hnext, ok_bind, hparts]

theorem scalarsFrom_eq (back : List Char) : ∀ front, value.toList = front ++ back →
    scalarsFrom value (encode front).length = .ok (back.map String.singleton) := by
  induction back with
  | nil =>
    intro front htext
    rw [List.append_nil] at htext
    rw [scalarsFrom, if_neg (by rw [length_eq_encode htext]; omega)]; rfl
  | cons char back ih =>
    intro front htext
    have hinside : (encode front).length < length value := by
      rw [length_eq_encode htext]; exact encode_length_lt _ _ _
    have hmore : value.toList = front ++ [char] ++ back := by
      rw [htext, List.append_cons]
    obtain ⟨size, hsize, hnext⟩ := width_eq htext
    rw [scalarsFrom, if_pos hinside]
    split
    next stop hstop => cases hstop.symm.trans hsize
    next size' hsize' =>
      obtain rfl : size' = size := ok.inj (hsize'.symm.trans hsize)
      rw [hnext, slice_chars hmore, ih (front ++ [char]) hmore]; rfl

/-! ## Joining -/

theorem appendTextRange_eq {text : String} {stop : Nat} (hstop : stop ≤ length text)
    {index : Nat} (hindex : index ≤ stop) (buffer : List UInt8) :
    appendTextRange buffer text index stop =
      .ok (buffer ++ ((bytes text).drop index).take (stop - index)) := by
  fun_induction appendTextRange buffer text index stop with
  | case1 buffer index hlt stop' hbyte =>
    rw [byte_get (lt_of_lt_of_le hlt hstop)] at hbyte
    cases hbyte
  | case2 buffer index hlt next hbyte ih =>
    have hinside : index < (bytes text).length := lt_of_lt_of_le hlt hstop
    rw [byte_get hinside] at hbyte
    have hsame : UInt8.ofNat next = (bytes text)[index] := by
      rw [← ok.inj hbyte, UInt8.ofNat_toNat]
    have hsize : stop - index = (stop - (index + 1)) + 1 := by omega
    rw [ih (succ_le_of_lt hlt), List.drop_eq_getElem_cons hinside, hsize, List.take_succ_cons,
      hsame, List.append_assoc, List.singleton_append]
  | case3 buffer index hge =>
    rw [Nat.sub_eq_zero_of_le (Nat.not_lt.mp hge), List.take_zero, List.append_nil]
    rfl

theorem appendText_eq (text : String) (buffer : List UInt8) :
    appendText buffer text = .ok (buffer ++ bytes text) := by
  rw [appendText, appendTextRange_eq (Nat.le_refl _) (Nat.zero_le _), List.drop_zero, Nat.sub_zero,
    length, List.take_length]

theorem joinFrom_behind (values : List String) (separator : String) {index : Nat}
    (hindex : index > 0) (buffer : List UInt8) : joinFrom values separator index buffer =
      .ok (buffer ++ ((values.drop index).map bytes).flatMap (bytes separator ++ ·)) := by
  fun_induction joinFrom values separator index buffer with
  | case1 index buffer hnone =>
    rw [List.drop_eq_nil_of_le (List.getElem?_eq_none_iff.mp hnone)]
    simp [pure, Except.pure]
  | case2 index buffer value hvalue ih =>
    obtain ⟨hlt, hget⟩ := List.getElem?_eq_some_iff.mp hvalue
    rw [appendSeparator, if_pos hindex, appendText_eq, ok_bind, appendText_eq,
      ok_bind, ih _ (succ_pos index), List.drop_eq_getElem_cons hlt, hget,
      List.map_cons, List.flatMap_cons]
    simp [List.append_assoc]

theorem joinFrom_eq (values : List String) (separator : String) :
    joinFrom values separator 0 [] = .ok ((bytes separator).intercalate (values.map bytes)) := by
  rw [joinFrom]
  cases values with
  | nil => rfl
  | cons value values =>
    rw [List.map_cons, intercalate_cons]
    show (appendText [] value >>= fun buffer => joinFrom (value :: values) separator 1 buffer) = _
    rw [appendText_eq, ok_bind, joinFrom_behind _ _ one_pos]; rfl

theorem toText_bytes (text : String) : toText (bytes text) = .ok text := by
  rw [toText, decode_bytes]

theorem join_spec {values : List String} {separator text : String}
    (h : (bytes separator).intercalate (values.map bytes) = bytes text) :
    join values separator = .ok text := by
  rw [join, joinFrom_eq, ok_bind, h, toText_bytes]

/-! ## Replacing -/

theorem replaceFrom_step {replacement : String} (hsome : length pattern ≠ 0) {start next : Nat}
    {later : Int} (hlater : findFrom value pattern (next + length pattern) = .ok later)
    (buffer : List UInt8) :
    replaceFrom value pattern replacement hsome start next buffer = (do
      let buffer ← appendTextRange buffer value start next
      let buffer ← appendText buffer replacement
      replaceFrom value pattern replacement hsome (next + length pattern) later buffer) := by
  rw [replaceFrom, dif_pos (Int.natCast_nonneg _), Int.toNat_natCast]
  congr 1
  split
  next stop hstop => cases hstop.symm.trans hlater
  next later' hlater' => rw [ok.inj (hlater'.symm.trans hlater)]

/-- The loop puts the replacement between what stands between the cuts. -/
theorem replaceFrom_eq (replacement : String) (hsome : length pattern ≠ 0)
    (h : Scan value pattern front back offsets) {next : Int}
    (hnext : findFrom value pattern (encode front).length = .ok next) (buffer : List UInt8) :
    replaceFrom value pattern replacement hsome (encode front).length next buffer =
      .ok (buffer ++ (bytes replacement).intercalate
        (pieces (bytes value) (length pattern) (encode front).length offsets)) := by
  induction h generalizing next buffer with
  | @last front back htext hfind _ =>
    obtain rfl : (-1 : Int) = next := ok.inj (hfind.symm.trans hnext)
    have hstart : (encode front).length ≤ length value := by
      rw [length_eq_encode htext]; exact encode_length_le _ _
    rw [replaceFrom, dif_neg (by decide), appendTextRange_eq (le_refl _) hstart, pieces,
      List.intercalate_singleton, length, ← List.length_drop, List.take_length]
  | @next front middle behind offsets htext hfind hfirst hrest ih =>
    obtain rfl : ((encode (front ++ middle)).length : Int) = next :=
      ok.inj (hfind.symm.trans hnext)
    have hstop : (encode (front ++ middle)).length ≤ length value := by
      rw [length_eq_encode htext, ← List.append_assoc]
      exact encode_length_le _ _
    obtain ⟨later, hlater⟩ := hrest.found
    have hmore := ih hlater
    rw [encode_behind] at hlater hmore
    rw [replaceFrom_step hsome hlater, appendTextRange_eq hstop hfirst.behind, ok_bind,
      appendText_eq, ok_bind, hmore, pieces, List.intercalate_cons_of_ne_nil (pieces_ne_nil _ _ _)]
    simp [List.append_assoc]

/-- What stands between the cuts, with the pattern put back, is the text. -/
theorem Scan.intercalate (h : Scan value pattern [] value.toList offsets) :
    (bytes pattern).intercalate (pieces (bytes value) (length pattern) 0 offsets) =
      bytes value := by
  have hcuts := h.cuts
  exact hcuts.intercalate

theorem replace_spec (replacement : String) (hsome : length pattern ≠ 0) {parts : List String}
    (hscan : Scan value pattern [] value.toList offsets)
    (hpieces : parts.map bytes = pieces (bytes value) (length pattern) 0 offsets) :
    replace value pattern replacement = join parts replacement := by
  obtain ⟨next, hnext⟩ := hscan.found
  unfold replace
  by_cases hsame : pattern = replacement
  · rw [if_pos hsame, ← hsame]
    exact (join_spec (by rw [hpieces, hscan.intercalate])).symm
  have hrun := replaceFrom_eq replacement hsome hscan hnext []
  rw [encode_nil, List.length_nil] at hnext hrun
  rw [if_neg hsame, dif_neg hsome, hnext, ok_bind]
  split
  case isTrue hnone =>
    -- nothing is found, and the only part is the text
    generalize value.toList = back at hscan
    cases hscan with
    | last _ _ _ =>
      have hwhole : parts.map bytes = [bytes value] := by rw [hpieces, pieces, List.drop_zero]
      exact (join_spec (by rw [hwhole, List.intercalate_singleton])).symm
    | next _ hfind _ _ =>
      rw [encode_nil, List.length_nil, hnext] at hfind
      have hcut := ok.inj hfind
      omega
  case isFalse =>
    rw [hrun, ok_bind, List.nil_append, join, joinFrom_eq, ok_bind, hpieces]

/-- Splitting cuts a text at the leftmost occurrences of a separator that do not overlap,
between scalars; joining gives the text again, and replacing is joining with the replacement.
An empty separator gives the scalars. -/
theorem split_join (value : String) : (∀ separator, separator ≠ "" → ∃ parts offsets,
      split value separator = .ok parts ∧ Cuts (bytes separator) (bytes value) 0 offsets ∧
      parts.map bytes = pieces (bytes value) (length separator) 0 offsets ∧
      (∀ offset ∈ offsets, boundary (bytes value) offset = true ∧
        boundary (bytes value) (offset + length separator) = true) ∧
      join parts separator = .ok value ∧
      ∀ replacement, replace value separator replacement = join parts replacement) ∧
    split value "" = .ok (value.toList.map String.singleton) := by
  constructor
  · intro separator hne
    have hsome : length separator ≠ 0 := by
      intro hnone
      exact hne (bytes_injective (List.eq_nil_of_length_eq_zero hnone))
    obtain ⟨parts, offsets, hsplit, hscan, hpieces⟩ := split_spec value hsome
    refine ⟨parts, offsets, hsplit, hscan.cuts, hpieces, hscan.boundary, ?_, ?_⟩
    · exact join_spec (by rw [hpieces, hscan.intercalate])
    · intro replacement; exact replace_spec replacement hsome hscan hpieces
  · exact scalarsFrom_eq value.toList [] rfl

/-- Of two occurrences that overlap the first is the cut. -/
theorem split_join_overlapping : ∃ parts, split "aaa-ä" "aa" = .ok parts ∧
    join parts "aa" = .ok "aaa-ä" ∧ replace "aaa-ä" "aa" "é" = join parts "é" := by
  obtain ⟨parts, offsets, hsplit, -, -, -, hjoin, hreplace⟩ :=
    (split_join "aaa-ä").1 "aa" (by decide)
  exact ⟨parts, hsplit, hjoin, hreplace "é"⟩

end Loom.Text
