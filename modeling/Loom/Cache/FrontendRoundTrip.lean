import Loom.Cache.FrontendBundle

/-
  A prepared result comes back from its bundle.

  `Stands reader cursor left` says that `left` is what stands between the cursor and the
  end. `Reads` is the judgement of a step that takes its own encoding away from it,
  `Ends` of one that takes all of it; both follow the sequencing of the reader.
-/

namespace Loom.FrontendCache

open Utf8 Texts Numerals Building Packages Results

/-! ## Judgements about the reader -/

section
variable {α β : Type} {reader : FrontendReader} {cursor : Nat} {encoded left : List UInt8}
  {read : Reading α} {next : α → Reading β} {value : α} {result : β}

/-- What stands between the cursor and the end; a text is no longer than can be counted. -/
def Stands (reader : FrontendReader) (cursor : Nat) (left : List UInt8) : Prop :=
  ∃ front back, bytes reader.text = front ++ left ++ back ∧ front.length = cursor ∧
    cursor + left.length = reader.stop ∧ Valid back ∧ length reader.text < 2 ^ 63

theorem Stands.pass (h : Stands reader cursor (encoded ++ left)) :
    Stands reader (cursor + encoded.length) left := by
  obtain ⟨front, back, htext, hcursor, hstop, hback, hsmall⟩ := h
  refine ⟨front ++ encoded, back, by rw [htext]; simp, ?_, ?_, hback, hsmall⟩
  · rw [List.length_append, hcursor]
  · rw [← hstop, List.length_append, Nat.add_assoc]

theorem Stands.length_le (h : Stands reader cursor left) : left.length ≤ length reader.text := by
  obtain ⟨front, back, htext, -⟩ := h
  rw [length, htext, List.length_append, List.length_append]; omega

/-- Whatever stands behind it, the encoding is read as the value. -/
def Reads (read : Reading α) (encoded : List UInt8) (value : α) : Prop :=
  ∀ reader cursor left, Valid left → Stands reader cursor (encoded ++ left) →
    read reader cursor = .ok (value, cursor + encoded.length)

/-- All that is left is read as the value. -/
def Ends (read : Reading α) (encoded : List UInt8) (value : α) : Prop :=
  ∀ reader cursor, Stands reader cursor encoded →
    read reader cursor = .ok (value, reader.stop)

theorem run_bind {after : Nat} (h : read reader cursor = .ok (value, after)) :
    (read >>= next) reader cursor = next value reader after := by
  show (read reader cursor >>= fun answer => next answer.1 reader answer.2) = _
  rw [h, ok_bind]

variable {answer : Except Stop α}

theorem given_run (h : answer = .ok value) : given answer reader cursor = .ok (value, cursor) := by
  rw [given, h]; rfl

theorem Reads.pure (value : α) : Reads (pure value) [] value := fun _ _ _ _ _ => rfl

theorem Reads.bind {others : List UInt8} (h : Reads read encoded value) (hvalid : Valid others)
    (hnext : Reads (next value) others result) : Reads (read >>= next) (encoded ++ others) result := by
  intro reader cursor left hleft hstands
  rw [List.append_assoc] at hstands
  rw [run_bind (h _ _ _ (hvalid.append hleft) hstands), hnext _ _ _ hleft hstands.pass,
    List.length_append, Nat.add_assoc]

theorem Reads.given (h : answer = .ok value) (hnext : Reads (next value) encoded result) :
    Reads (given answer >>= next) encoded result := by
  intro reader cursor left hleft hstands
  rw [run_bind (given_run h)]; exact hnext _ _ _ hleft hstands

theorem Reads.then_pure {make : α → β} (h : Reads read encoded value) :
    Reads (read >>= fun value => Pure.pure (make value)) encoded (make value) := by
  have hlast : Reads (Pure.pure (make value) : Reading β) [] (make value) := .pure _
  have hall := @Reads.bind _ _ _ _ (fun value => Pure.pure (make value)) _ _ _ h valid_nil hlast
  rwa [List.append_nil] at hall

theorem Reads.ends {others : List UInt8} (h : Reads read encoded value) (hvalid : Valid others)
    (hnext : Ends (next value) others result) : Ends (read >>= next) (encoded ++ others) result := by
  intro reader cursor hstands
  rw [run_bind (h _ _ _ hvalid hstands)]; exact hnext _ _ hstands.pass

theorem Ends.given (h : answer = .ok value) (hnext : Ends (next value) encoded result) :
    Ends (given answer >>= next) encoded result := by
  intro reader cursor hstands
  rw [run_bind (given_run h)]; exact hnext _ _ hstands

end

/-! ## Fields -/

theorem frontendField_eq (value : String) (left : List UInt8) : frontendField value ++ left =
    bytes (numeral (length value)) ++ 10 :: (bytes value ++ left) := by
  have hline : bytes "\n" = [10] := by decide
  rw [frontendField, hline]
  simp [List.append_assoc, List.cons_append, List.nil_append]

theorem valid_field (value : String) : Valid (frontendField value) :=
  ((valid_bytes _).append (valid_bytes _)).append (valid_bytes _)

theorem valid_number (value : Int) : Valid (frontendNumber value) := valid_field _

theorem takeWhile_field (value : String) (left : List UInt8) :
    (frontendField value ++ left).takeWhile (· != 10) = bytes (numeral (length value)) := by
  have hdigits : ∀ byte ∈ bytes (numeral (length value)), (byte != 10) = true := by
    intro byte hbyte
    simpa using (mem_numeral hbyte).1
  rw [frontendField_eq, List.takeWhile_append_of_pos hdigits, List.takeWhile_cons_of_neg (by decide),
    List.append_nil]

/-- Where the size of a field stands, where its text does, and that both are in front of the end. -/
theorem Stands.field {reader : FrontendReader} {cursor : Nat} {value size : String}
    {left : List UInt8} (hsize : numeral (length value) = size) (hleft : Valid left)
    (h : Stands reader cursor (frontendField value ++ left)) :
    ((bytes reader.text).drop cursor).take (reader.stop - cursor) = frontendField value ++ left ∧
      slice reader.text cursor (cursor + length size) = .ok size ∧
      slice reader.text (cursor + length size + 1) (cursor + length size + 1 + length value) =
        .ok value ∧
      cursor + length size + 1 + length value ≤ reader.stop ∧ length value < 2 ^ 63 := by
  obtain ⟨front, back, htext, rfl, hstop, hback, hsmall⟩ := h
  have hbehind : Valid (bytes value ++ left ++ back) :=
    ((valid_bytes value).append hleft).append hback
  have hlength : length reader.text =
      front.length + (frontendField value ++ left).length + back.length := by
    rw [length, htext, List.length_append, List.length_append]
  have hfield : (frontendField value ++ left).length =
      length size + 1 + length value + left.length := by
    rw [frontendField_eq, hsize]
    simp only [length, List.length_append, List.length_cons]; omega
  rw [frontendField_eq, hsize] at htext
  refine ⟨?_, ?_, ?_, by omega, by omega⟩
  · rw [← hstop, Nat.add_sub_cancel_left, htext, List.append_assoc, List.drop_left,
      frontendField_eq, hsize, List.take_left]
  · apply slice_eq _ (hbehind.cons (show (10 : UInt8) < 128 by decide))
    rw [htext]; simp [List.append_assoc, List.cons_append]
  · have hfront : (front ++ bytes size ++ [10]).length = front.length + length size + 1 := by
      rw [List.length_append, List.length_append, length, List.length_singleton]
    rw [← hfront]
    apply slice_eq _ (hleft.append hback)
    rw [htext]; simp [List.append_assoc, List.cons_append, List.nil_append]

theorem reads_field (value : String) : Reads frontendRead (frontendField value) value := by
  intro reader cursor left hleft hstands
  obtain ⟨size, hsize⟩ : ∃ size, numeral (length value) = size := ⟨_, rfl⟩
  obtain ⟨hwindow, hdigits, hvalue, hroom, hsmall⟩ := hstands.field hsize hleft
  have hparse : Decimal.parse ((bytes size).map UInt8.toNat) = .ok (length value : Int) := by
    rw [← hsize]; exact parse_numeral (by omega) (by omega)
  have hfield : (frontendField value).length = length size + 1 + length value := by
    rw [← List.append_nil (frontendField value), frontendField_eq, hsize]
    simp only [length, List.append_nil, List.length_append, List.length_cons]
    omega
  have hline : ((frontendField value ++ left).takeWhile (· != 10)).length = length size := by
    rw [takeWhile_field, hsize, length]
  have hinside : ¬((length value : Int) < 0 ∨ cursor + length size ≥ reader.stop ∨
      (length value : Int) > (reader.stop : Int) - ((cursor + length size : Nat) : Int) - 1) := by
    omega
  simp only [frontendRead, hwindow, hline, hdigits, ok_bind, hparse, if_neg hinside,
    Int.toNat_natCast, hvalue, hfield]
  rw [show cursor + (length size + 1 + length value) = cursor + length size + 1 + length value by omega]
  rfl

theorem reads_number {value : Int} (hlow : -2 ^ 63 ≤ value) (hhigh : value < 2 ^ 63) :
    Reads frontendReadNumber (frontendNumber value) value := by
  intro reader cursor left hleft hstands
  have hfield := reads_field (numeral value) _ _ _ hleft hstands
  rw [frontendReadNumber, run_bind hfield, parse_numeral hlow hhigh]; rfl

/-! ## Targets -/

/-- The targets have the values that they had. -/
def TargetsUnchanged (context : BuildInputs) (targets : List BuildOption) : Prop :=
  ∀ target ∈ targets, ∃ after, targetValue context target.name = .ok (target.value, after)

theorem valid_options (targets : List BuildOption) : Valid (targets.flatMap frontendOption) := by
  induction targets with
  | nil => exact valid_nil
  | cons target targets ih => exact ((valid_field _).append (valid_field _)).append ih

theorem reads_target {context after : BuildInputs} {target : BuildOption}
    (h : targetValue context target.name = .ok (target.value, after)) :
    Reads (cachedTarget context) (frontendOption target) (target, after) := by
  obtain ⟨hvalid, -⟩ := targetValue_eq_ok.mp h
  apply (reads_field target.name).bind (valid_field target.value)
  rw [← List.append_nil (frontendField target.value)]
  apply (reads_field target.value).bind valid_nil
  rw [if_neg (by rw [hvalid]; decide)]
  apply Reads.given h
  rw [if_neg (not_not.mpr rfl)]; exact .pure _

theorem reads_targets {context : BuildInputs} {targets : List BuildOption}
    (h : TargetsUnchanged context targets) :
    Reads (cachedTargets targets.length context) (targets.flatMap frontendOption) targets := by
  induction targets generalizing context with
  | nil => exact .pure []
  | cons target targets ih =>
    obtain ⟨after, hvalue⟩ := h target (.head _)
    -- the snapshot that the first target has taken answers for the others
    have hothers : TargetsUnchanged after targets := by
      intro other hother
      rw [targetValue_again hvalue]; exact h other (.tail _ hother)
    exact (reads_target hvalue).bind (valid_options targets) (ih hothers).then_pure

/-! ## Inputs -/

section
variable {Tree : Type} {readInput : InputRequest → Except Stop InputFile} {project : Project Tree}

/-- The inputs were asked for by files of the project, and files of one path are of one module. -/
structure Asked (project : Project Tree) (inputs : List BuildInput) : Prop where
  asked : ∀ input ∈ inputs, ∃ file ∈ project.files, file.path = input.request.source ∧
    moduleSource project file = .ok input.request.root
  located : ∀ file ∈ project.files, ∀ other ∈ project.files, file.path = other.path →
    moduleSource project file = moduleSource project other

variable {input : BuildInput} {inputs : List BuildInput} {encoded : List UInt8} {format : String}
  {value : Prepared Tree} {head : String}

theorem Asked.first (h : Asked project inputs) (hinput : input ∈ inputs) :
    ∃ first, (project.files.find? fun file => file.path == input.request.source) = some first ∧
      moduleSource project first = .ok input.request.root := by
  obtain ⟨file, hfile, hpath, hroot⟩ := h.asked input hinput
  cases hfind : project.files.find? fun file => file.path == input.request.source with
  | none =>
    have hnone := List.find?_eq_none.mp hfind file hfile
    exact absurd (beq_iff_eq.mpr hpath) hnone
  | some first =>
    have hfirst := List.mem_of_find?_eq_some hfind
    have hbeq := List.find?_some hfind
    have hsame : first.path = input.request.source := eq_of_beq hbeq
    refine ⟨first, rfl, ?_⟩
    rw [h.located first hfirst file hfile (hsame.trans hpath.symm), hroot]

theorem recordedInput_eq_ok (h : recordedInput input = .ok encoded) :
    ∃ hashed, digestHex input.file.bytes = .ok hashed ∧
      encoded = frontendField input.request.root ++ (frontendField input.request.source ++
        (frontendField input.request.path ++ (frontendField input.file.path ++
          frontendField hashed))) := by
  obtain ⟨hashed, hdigest, hencoded⟩ := bind_eq_ok.mp h
  rw [pure_eq_ok] at hencoded; exact ⟨hashed, hdigest, hencoded.symm⟩

theorem reads_input (hasked : Asked project inputs) (hinput : input ∈ inputs)
    (hread : readInput input.request = .ok input.file) (h : recordedInput input = .ok encoded) :
    Reads (cachedInput readInput project) encoded input := by
  obtain ⟨hashed, hdigest, rfl⟩ := recordedInput_eq_ok h
  obtain ⟨first, hfind, hroot⟩ := hasked.first hinput
  have hpath := valid_field input.request.path
  have hfile := (valid_field input.file.path).append (valid_field hashed)
  apply (reads_field _).bind ((valid_field _).append (hpath.append hfile))
  apply (reads_field _).bind (hpath.append hfile)
  apply (reads_field _).bind hfile
  apply (reads_field _).bind (valid_field hashed)
  rw [← List.append_nil (frontendField hashed)]
  apply (reads_field _).bind valid_nil
  rw [hfind]
  apply Reads.given hroot
  rw [if_neg (not_not.mpr rfl)]
  apply Reads.given hread
  rw [if_neg (not_not.mpr rfl)]
  apply Reads.given hdigest
  rw [if_neg (not_not.mpr rfl)]; exact .pure _

theorem recordedInputs_cons (h : recordedInputs (input :: inputs) = .ok encoded) :
    ∃ first others, recordedInput input = .ok first ∧ recordedInputs inputs = .ok others ∧
      encoded = first ++ others := by
  obtain ⟨first, hfirst, h⟩ := bind_eq_ok.mp h
  obtain ⟨others, hothers, h⟩ := bind_eq_ok.mp h
  rw [pure_eq_ok] at h; exact ⟨first, others, hfirst, hothers, h.symm⟩

/-- What the inputs are written as is text, and longer than they are many. -/
theorem recordedInputs_valid (h : recordedInputs inputs = .ok encoded) :
    Valid encoded ∧ inputs.length ≤ encoded.length := by
  induction inputs generalizing encoded with
  | nil =>
    rw [← Except.ok.inj h]; exact ⟨valid_nil, Nat.le_refl _⟩
  | cons input inputs ih =>
    obtain ⟨first, others, hfirst, hothers, rfl⟩ := recordedInputs_cons h
    obtain ⟨hvalid, hlength⟩ := ih hothers
    obtain ⟨hashed, -, rfl⟩ := recordedInput_eq_ok hfirst
    have hpositive : 0 < (frontendField input.request.root).length := by
      rw [← List.append_nil (frontendField input.request.root), frontendField_eq]
      simp
    refine ⟨((valid_field _).append ((valid_field _).append ((valid_field _).append
      ((valid_field _).append (valid_field _))))).append hvalid, ?_⟩
    simp only [List.length_cons, List.length_append]; omega

theorem reads_inputs_of {all : List BuildInput} (hasked : Asked project all)
    (hsub : ∀ input ∈ inputs, input ∈ all)
    (hread : ∀ input ∈ all, readInput input.request = .ok input.file)
    (h : recordedInputs inputs = .ok encoded) :
    Reads (cachedInputs readInput project inputs.length) encoded inputs := by
  induction inputs generalizing encoded with
  | nil =>
    rw [← Except.ok.inj h]; exact .pure []
  | cons input inputs ih =>
    obtain ⟨first, others, hfirst, hothers, rfl⟩ := recordedInputs_cons h
    have hinput := hsub input (.head _)
    have hrest := ih (fun other hother => hsub other (.tail _ hother)) hothers
    exact (reads_input hasked hinput (hread input hinput) hfirst).bind
      (recordedInputs_valid hothers).1 hrest.then_pure

/-! ## The whole bundle -/

/-- An artifact of a format: none for a check, checked code for a build. -/
def OfFormat (format input : String) : Prop :=
  (format = "check" → input = "") ∧
    (format = "native" → ∃ rest, bytes input = bytes "loom-checked-1\n" ++ rest)

theorem acceptable_of_format {input : String} (h : OfFormat format input) :
    acceptable format input = true := by
  obtain ⟨hcheck, hnative⟩ := h
  unfold acceptable
  rw [Bool.and_eq_true]
  constructor
  · by_cases hformat : format = "check"
    · simp [hcheck hformat]
    · simp [hformat]
  · by_cases hformat : format = "native"
    · obtain ⟨rest, hrest⟩ := hnative hformat
      rw [hrest]; simp
    · simp [hformat]

/-- What the compiler prepares of a project, with an artifact of the format. -/
structure Prepared.Built (value : Prepared Tree) (format : String) : Prop where
  entry : -1 ≤ value.entry ∧ value.entry < 2 ^ 63
  tests : 0 ≤ value.tests ∧ value.tests < 2 ^ 63
  distinct : (value.targets.map BuildOption.name).Nodup
  inputs : Asked value.project value.inputs
  artifact : OfFormat format value.input

/-- The recorded inputs and targets are what they were. -/
structure Prepared.Unchanged (value : Prepared Tree)
    (readInput : InputRequest → Except Stop InputFile) (context : BuildInputs) : Prop where
  inputs : ∀ input ∈ value.inputs, readInput input.request = .ok input.file
  targets : TargetsUnchanged context value.targets

theorem ends_artifact (input : String) : Ends cachedArtifact (bytes input) input := by
  rintro reader cursor ⟨front, back, htext, rfl, hstop, hback, -⟩
  have hcut : slice reader.text front.length reader.stop = .ok input := by
    rw [← hstop]; exact slice_eq htext hback
  rw [cachedArtifact, hcut]; rfl

theorem ends_prepared {context : BuildInputs} (hbuilt : value.Built format)
    (hsame : value.Unchanged readInput context)
    (hinputs : recordedInputs value.inputs = .ok encoded) (hsmall : value.inputs.length < 2 ^ 63) :
    Ends (cachedPrepared readInput value.project format context) (frontendFields value encoded)
      value := by
  have hvalid : ∀ target ∈ value.targets, validTargetProperty target.name = true := by
    intro target htarget
    obtain ⟨after, hvalue⟩ := hsame.targets target htarget
    exact (targetValue_eq_ok.mp hvalue).1
  have hfour := targets_le_four hvalid hbuilt.distinct
  obtain ⟨saved, hsaved, -⟩ := buildOptionSnapshot_ok
    (fun target htarget => validBuildOption_of_target (hvalid target htarget)) hbuilt.distinct
  obtain ⟨hencoded, hcount⟩ := recordedInputs_valid hinputs
  have hartifact := hencoded.append (valid_bytes value.input)
  have hback := (valid_number value.inputs.length).append hartifact
  have htargets := (valid_options value.targets).append hback
  have hnumbers := (valid_number value.targets.length).append htargets
  apply (reads_number (by have := hbuilt.entry; omega) hbuilt.entry.2).ends
    ((valid_number value.tests).append hnumbers)
  apply (reads_number (by have := hbuilt.tests; omega) hbuilt.tests.2).ends hnumbers
  apply (reads_number (by omega) (by omega)).ends htargets
  rw [if_neg (by omega)]
  apply (reads_targets hsame.targets).ends hback
  apply Ends.given hsaved
  apply (reads_number (by omega) (by omega)).ends hartifact
  intro reader cursor hstands
  have hlength := hstands.length_le
  rw [List.length_append] at hlength
  show (if (value.inputs.length : Int) < 0 ∨ (value.inputs.length : Int) > length reader.text then _
    else _ : Reading (Prepared Tree)) reader cursor = _
  rw [if_neg (by omega), Int.toNat_natCast]
  have haccepted : ¬(value.entry < -1 ∨ value.tests < 0 ∨ (!acceptable format value.input) = true) := by
    rw [acceptable_of_format hbuilt.artifact]
    rintro (hentry | htests | hformat)
    · exact absurd hbuilt.entry.1 (by omega)
    · exact absurd hbuilt.tests.1 (by omega)
    · exact absurd hformat (by decide)
  have hread := reads_inputs_of hbuilt.inputs (fun _ h => h) hsame.inputs hinputs
  rw [run_bind (hread _ _ _ (valid_bytes value.input) hstands),
    run_bind (ends_artifact value.input _ _ hstands.pass), if_neg haccepted]
  rfl

theorem valid_fields (value : Prepared Tree) (h : Valid encoded) :
    Valid (frontendFields value encoded) :=
  (valid_number _).append ((valid_number _).append ((valid_number _).append
    ((valid_options _).append ((valid_number _).append (h.append (valid_bytes _))))))

theorem digest_eq_ok {message hashed : List UInt8} (h : digest message = .ok hashed) :
    message.length < 2 ^ 61 := by
  unfold digest at h
  split at h
  case isTrue hless => exact hless
  case isFalse => cases h

theorem frontendBundle_eq_ok {bundle : List UInt8} (h : frontendBundle head value = .ok bundle) :
    ∃ encoded hashed, recordedInputs value.inputs = .ok encoded ∧
      digest (bytes head ++ frontendFields value encoded) = .ok hashed ∧
      bundle = bytes head ++ frontendFields value encoded ++ bytes (hex hashed) := by
  obtain ⟨encoded, hencoded, h⟩ := bind_eq_ok.mp h
  obtain ⟨checksum, hchecksum, h⟩ := bind_eq_ok.mp h
  obtain ⟨hashed, hdigest, htext⟩ := bind_eq_ok.mp hchecksum
  rw [pure_eq_ok] at h htext
  exact ⟨encoded, hashed, hencoded, hdigest, by rw [← h, ← htext]⟩

theorem cachePayloadEnd_bundle {rest hashed : List UInt8}
    (h : digest (bytes head ++ rest) = .ok hashed) (hhex : (bytes (hex hashed)).length = 64) :
    cachePayloadEnd (bytes head ++ rest ++ bytes (hex hashed)) head true =
      .ok ((bytes head ++ rest).length : Int) := by
  have hstop : (((bytes head ++ rest ++ bytes (hex hashed)).length : Nat) : Int) - (64 : Int) =
      ((bytes head ++ rest).length : Nat) := by
    rw [@List.length_append _ _ (bytes (hex hashed))]; omega
  have hline : (bytes head ++ rest ++ bytes (hex hashed)).take (length head) = bytes head := by
    rw [List.append_assoc, length, List.take_left]
  unfold cachePayloadEnd
  simp only [if_true, hstop]
  rw [if_neg (by rw [length, List.length_append]; omega), if_neg (not_not.mpr hline),
    Int.toNat_natCast, List.take_left, h, ok_bind, List.drop_left, if_pos rfl]
  rfl

theorem frontendBundle_total (hfiles : ∀ input ∈ value.inputs, input.file.bytes.length < 2 ^ 61)
    (hcontent : ∀ encoded, recordedInputs value.inputs = .ok encoded →
      (bytes head ++ frontendFields value encoded).length < 2 ^ 61) :
    ∃ bundle, frontendBundle head value = .ok bundle := by
  have hinputs : ∀ inputs : List BuildInput, (∀ input ∈ inputs, input.file.bytes.length < 2 ^ 61) →
      ∃ encoded, recordedInputs inputs = .ok encoded := by
    intro inputs h
    induction inputs with
    | nil => exact ⟨[], rfl⟩
    | cons input inputs ih =>
      obtain ⟨others, hothers⟩ := ih fun other hother => h other (.tail _ hother)
      rw [recordedInputs, recordedInput, digestHex, digest, if_pos (h input (.head _)),
        hothers]
      exact ⟨_, rfl⟩
  obtain ⟨encoded, hencoded⟩ := hinputs value.inputs hfiles
  rw [frontendBundle, hencoded, ok_bind]
  dsimp only
  rw [digestHex, digest, if_pos (hcontent encoded hencoded)]; exact ⟨_, rfl⟩

theorem frontendDecodeKind_bundle {context : BuildInputs} {bundle : List UInt8}
    (hbuilt : value.Built format) (hsame : value.Unchanged readInput context)
    (h : frontendBundle head value = .ok bundle) :
    frontendDecodeKind readInput value.project bundle head format context = .ok (some value) := by
  obtain ⟨encoded, hashed, hencoded, hdigest, rfl⟩ := frontendBundle_eq_ok h
  obtain ⟨hvalid, hcount⟩ := recordedInputs_valid hencoded
  have hsmall := digest_eq_ok hdigest
  have hhex : (bytes (hex hashed)).length = 64 := by
    refine @digestHex_length (bytes head ++ frontendFields value encoded) _ ?_
    rw [digestHex, hdigest]; rfl
  have hall := ((valid_bytes head).append (valid_fields value hvalid)).append
    (valid_bytes (hex hashed))
  obtain ⟨text, hdecode, htext⟩ := exists_decode hall
  have hlength : length text = (bytes head ++ frontendFields value encoded).length + 64 := by
    rw [length, htext, @List.length_append _ _ (bytes (hex hashed)), hhex]
  have hfields : encoded.length ≤ (frontendFields value encoded).length := by
    simp only [frontendFields, List.length_append]; omega
  rw [List.length_append] at hsmall hlength
  have hstop : length head + (frontendFields value encoded).length = length text - 64 := by
    rw [hlength, length, Nat.add_sub_cancel]
  have hstands : Stands ⟨text, length text - 64⟩ (length head) (frontendFields value encoded) :=
    ⟨bytes head, bytes (hex hashed), htext, rfl, hstop, valid_bytes _, by rw [hlength]; omega⟩
  have hread := ends_prepared hbuilt hsame hencoded (by omega) _ _ hstands
  rw [frontendDecodeKind, cachePayloadEnd_bundle hdigest hhex, ok_bind,
    hdecode]
  show orMiss (frontendPayload readInput value.project text (length head) (length text - 64) format
    context) = _
  rw [frontendPayload, hread]; rfl

/-- The hashed bytes determine what a cached artifact depends on; a bundle is read back as what
was prepared while its inputs and targets are what they were; and whatever can be hashed has a
bundle. -/
theorem frontend_cache :
    (∀ (options others : Options) (project other : Project Tree)
        (identity another filter second : String),
      frontendPreimage options project identity filter =
          frontendPreimage others other another second →
        identity = another ∧ filter = second ∧ options.buildOptions = others.buildOptions ∧
          commandClass options = commandClass others ∧ project.root = other.root ∧
          project.modules = other.modules ∧ project.packages = other.packages ∧
          project.files.map SourceFile.written = other.files.map SourceFile.written) ∧
      (∀ (readInput : InputRequest → Except Stop InputFile) (context : BuildInputs)
        (value : Prepared Tree) (head : String) (checking : Bool) (bundle : List UInt8),
        value.Built (if checking then "check" else "native") →
        value.Unchanged readInput context → frontendBundle head value = .ok bundle →
        frontendDecode readInput value.project bundle head checking context = .ok (some value)) ∧
      ∀ (value : Prepared Tree) (head : String),
        (∀ input ∈ value.inputs, input.file.bytes.length < 2 ^ 61) →
        (∀ encoded, recordedInputs value.inputs = .ok encoded →
          (bytes head ++ frontendFields value encoded).length < 2 ^ 61) →
        ∃ bundle, frontendBundle head value = .ok bundle := by
  refine ⟨?_, ?_, ?_⟩
  · intro options others project other identity another filter second hsame
    exact (frontendPreimage_eq_iff ..).mp hsame
  · intro readInput context value head checking bundle hbuilt hsame hbundle
    exact frontendDecodeKind_bundle hbuilt hsame hbundle
  · intro value head hfiles hcontent; exact frontendBundle_total hfiles hcontent

end

/-! ## A project with one input -/

def greeter : Project Unit where
  files := [⟨0, "/app/main.loom", "fn main() \x7b\n\x7d\n", (), false, false⟩]
  modules := [⟨"app", "/app"⟩]
  packages := [⟨0, "", [⟨"std.text", 1⟩]⟩]
  root := 0

def greeterPrepared : Prepared Unit where
  inputs := [⟨⟨"/app", "/app/main.loom", "hello.txt"⟩, "/app/hello.txt", [104, 105, 10]⟩]
  targets := [⟨"os", "linux"⟩]
  input := "loom-checked-1\n1\n2"
  entry := 0
  tests := 0
  project := greeter

def greeterFile (_ : InputRequest) : Except Stop InputFile := .ok ⟨"/app/hello.txt", [104, 105, 10]⟩

theorem greeter_built : greeterPrepared.Built "native" where
  entry := by decide
  tests := by decide
  distinct := by decide
  inputs := by
    refine ⟨?_, ?_⟩
    · decide
    · decide
  artifact := ⟨by decide, fun _ => ⟨bytes "1\n2", by decide⟩⟩

theorem greeter_small {encoded : List UInt8}
    (h : recordedInputs greeterPrepared.inputs = .ok encoded) :
    (bytes (frontendPrefix "0") ++ frontendFields greeterPrepared encoded).length < 2 ^ 61 := by
  obtain ⟨first, others, hfirst, hothers, rfl⟩ := recordedInputs_cons h
  obtain ⟨hashed, hdigest, rfl⟩ := recordedInput_eq_ok hfirst
  obtain rfl : [] = others := Except.ok.inj hothers
  have hhashed : (bytes hashed).length = 64 := digestHex_length hdigest
  have hfields : (bytes (frontendPrefix "0")).length +
      (frontendFields greeterPrepared []).length < 300 := by
    decide
  have hinput : (frontendField "/app").length + ((frontendField "/app/main.loom").length +
      ((frontendField "hello.txt").length + (frontendField "/app/hello.txt").length)) +
      (bytes (numeral 64)).length + (bytes "\n").length < 300 := by
    decide
  have hfield : (frontendField hashed).length =
      (bytes (numeral 64)).length + (bytes "\n").length + 64 := by
    rw [frontendField, length]
    simp only [List.length_append, hhashed]; rfl
  simp only [frontendFields, List.length_append] at hfields ⊢; omega

theorem frontend_cache_greeter :
    frontendPreimage ⟨"check", "", []⟩ greeter "one" "" ≠
        frontendPreimage ⟨"check", "", []⟩ greeter "two" "" ∧
      ∃ bundle, frontendBundle (frontendPrefix "0") greeterPrepared = .ok bundle ∧
        frontendDecode greeterFile greeter bundle (frontendPrefix "0") false
          ⟨[⟨"os", "linux"⟩], .ok []⟩ = .ok (some greeterPrepared) := by
  obtain ⟨hkey, hdecode, hbundle⟩ := @frontend_cache Unit
  refine ⟨fun hsame => absurd (hkey _ _ _ _ _ _ _ _ hsame).1 (by decide), ?_⟩
  obtain ⟨bundle, hwritten⟩ := hbundle greeterPrepared (frontendPrefix "0") (by decide)
    (fun encoded hencoded => greeter_small hencoded)
  have hsame : greeterPrepared.Unchanged greeterFile ⟨[⟨"os", "linux"⟩], .ok []⟩ := by
    refine ⟨by decide, ?_⟩
    intro target htarget
    obtain rfl : target = ⟨"os", "linux"⟩ := List.mem_singleton.mp htarget
    exact ⟨⟨[⟨"os", "linux"⟩], .ok []⟩, by rfl⟩
  exact ⟨bundle, hwritten, hdecode greeterFile _ greeterPrepared _ false bundle greeter_built hsame
    hwritten⟩

end Loom.FrontendCache
