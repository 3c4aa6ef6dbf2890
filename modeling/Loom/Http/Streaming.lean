import Loom.Http.Heads
import Loom.Http.Chunking

/-
  What the streaming writer gives to its sink is one request, and what the reader
  takes from it is what was written.

  The terminating section is emitted before the first piece of the body, so that its
  octets are counted (`outgoing_ok`); the pieces then spend what is left of the
  budget. The reader spends the same budget in the order of the octets.
-/

namespace Loom.Http

open Relational Results List Prod

variable {limits : Limits}

/-! ## What is prepared -/

/-- The coding of a body whose size is not known. -/
def coding : Header := ⟨text "Transfer-Encoding", text "chunked"⟩

structure Prepared (limits : Limits) (start : Bytes) (sent trailers : List Header)
    (output : Outgoing) : Prop where
  head : output.head = wire (headLines start sent)
  tail : output.tail = if output.shape.chunked then wire (lastLines trailers) else []
  budget : limits.metadataBytes = output.budget + output.tail.length + output.head.length
  fit : Fit limits (headLines start sent)
  shape : framing sent limits.bodyBytes = .ok output.shape
  sized : output.shape.framed = true
  chunked : output.shape.chunked = true →
    Fit limits (lastLines trailers) ∧ ∀ entry ∈ trailers, trailer entry = true
  single : output.shape.chunked = false → trailers = []
  written : (∀ entry ∈ sent, Written entry) ∧ ∀ entry ∈ trailers, Written entry
  limits : output.limits = limits
  empty : output.empty = false

theorem coding_acceptable : Acceptable coding := by
  unfold Acceptable; decide

theorem coding_trimmed : trimmed coding = coding := by
  have htrim : trim coding.value = coding.value := by decide
  rw [trimmed, htrim]

theorem coding_written : Written coding :=
  coding_trimmed ▸ trimmed_written coding_acceptable

theorem framing_coding (maximum : Nat) :
    framingFrom maximum ⟨none, false⟩ [coding] = .ok ⟨none, true⟩ := by
  have hlength : named coding.name (text "content-length") = false := by decide
  have htransfer : named coding.name (text "transfer-encoding") = true := by decide
  have htoken : validToken coding.value = true := by decide
  have hchunked : named coding.value (text "chunked") = true := by decide
  simp [framingFrom, hlength, htransfer, htoken, hchunked]

theorem framed_chunked (shape : Framing) :
    (if shape.framed then shape else ⟨none, true⟩) =
        { shape with chunked := shape.chunked || shape.size.isNone } ∧
      (!shape.chunked && shape.size.isNone) = !shape.framed := by
  obtain ⟨_ | size, _ | _⟩ := shape
  all_goals exact ⟨rfl, rfl⟩

variable {start : Bytes} {trailers : List Header} {output : Outgoing}

theorem outgoing_ok {headers : List Header} (hplain : Plain start)
    (hwritten : ∀ entry ∈ headers, Written entry)
    (h : outgoing start headers trailers limits false = .ok output) :
    Prepared limits start (framedBy coding headers) (trailers.map trimmed) output := by
  obtain ⟨shape, hshape, h⟩ := bind_eq_ok.mp h
  obtain ⟨suffix, hsuffix, h⟩ := bind_eq_ok.mp h
  obtain ⟨rfl, hsuffix⟩ := snapshot_ok hsuffix
  split at h
  · cases h
  rename_i htrailers
  obtain ⟨state, hstart, h⟩ := bind_eq_ok.mp h
  obtain ⟨state', hfields, h⟩ := bind_eq_ok.mp h
  obtain ⟨state'', hcoding, h⟩ := bind_eq_ok.mp h
  obtain ⟨⟨head, budget⟩, hend, h⟩ := bind_eq_ok.mp h
  obtain ⟨⟨tail, budget'⟩, htail, h⟩ := bind_eq_ok.mp h
  cases h
  obtain ⟨hframing, hframed⟩ := framedBy_framing hshape (framing_coding _)
  obtain ⟨hchunks, hadded⟩ := framed_chunked shape
  rw [hchunks] at hframing
  have hhead : Emits limits (headLines start (framedBy coding headers)) ([], limits.metadataBytes)
      (head, budget) := by
    rw [headLines, framedBy_lines, ← hframed, ← hadded]
    exact (emitLine_ok hstart).append
      ((emitFields_ok hfields).append ((emitAdded_ok hcoding).append (emitLine_ok hend)))
  have hplain := headLines_plain hplain (framedBy_written coding_written hwritten)
  cases hchunked : shape.chunked || shape.size.isNone with
  | true =>
    rw [hchunked] at hframing htail htrailers
    have hlast : Emits limits (lastLines (trailers.map trimmed)) ([], budget) (tail, budget') :=
      emitLast_ok htail
    exact {
      head := by simpa using hhead.output
      tail := by simpa using hlast.output
      budget := by
        have := hhead.budget
        have := hlast.budget
        have htail := hlast.output
        have hhead := hhead.output
        simp only [nil_append] at *
        subst htail hhead; omega
      fit := hhead.fit hplain
      shape := hframing
      sized := by simp [Framing.framed]
      chunked := fun _ => ⟨hlast.fit (lastLines_plain hsuffix), by simpa using htrailers⟩
      single := fun hfalse => absurd hfalse Bool.true_eq_false.mp
      written := ⟨framedBy_written coding_written hwritten, hsuffix⟩
      limits := rfl
      empty := rfl }
  | false =>
    rw [hchunked] at hframing htail htrailers
    cases htail
    exact {
      head := by simpa using hhead.output
      tail := rfl
      budget := by
        have := hhead.budget
        have hhead := hhead.output
        subst hhead
        simpa using this
      fit := hhead.fit hplain
      shape := hframing
      sized := by
        have : shape.size.isSome = true := by
          simpa using (Bool.or_eq_false_iff.mp hchunked).2
        simp [Framing.framed, this]
      chunked := fun hfalse => absurd hfalse Bool.false_ne_true
      single := fun _ => map_eq_nil_iff.mpr
        (eq_nil_iff_forall_not_mem.mpr (by simpa using htrailers))
      written := ⟨framedBy_written coding_written hwritten, hsuffix⟩
      limits := rfl
      empty := rfl }

/-! ## What is given to the sink -/

section
variable {S E F : Type} {bytes : S → Except E Bytes} {sink : List Bytes → Bytes → Except F Int}
  {output : Outgoing} {given given' : List Bytes} {count count' : Nat}

/-- A piece of the body as the sink gets it. -/
def sentPiece (chunked : Bool) (piece : Bytes) : Bytes :=
  if chunked then chunkWire piece else piece

theorem outputChunk_ok {wire : Bytes}
    (h : outputChunk (E := E) sink wire count given = (.ok count', given')) :
    count' = count + wire.length ∧ given' = given ++ [wire] := by
  unfold outputChunk at h
  simp only at h
  split at h
  · cases (mk.inj h).1
  · split at h
    · cases (mk.inj h).1
    · split at h
      · cases (mk.inj h).1
      · obtain ⟨hcount, rfl⟩ := mk.inj h
        exact ⟨(Except.ok.inj hcount).symm, rfl⟩

theorem outputChunk_count {wire : Bytes}
    (h : outputChunk (E := E) sink wire count given = (.ok count', given'))
    (hcount : count = given.flatten.length) : count' = given'.flatten.length := by
  obtain ⟨rfl, rfl⟩ := outputChunk_ok h
  rw [flatten_append, length_append, flatten_singleton, hcount]

theorem outgoingChunk_ok {budget left : Nat} {piece wire' : Bytes}
    (h : outgoingChunk output budget piece = .ok (wire', left)) :
    wire' = sentPiece output.shape.chunked piece ∧
      (output.shape.chunked = true → budget = left + (wire (chunkLines [piece])).length ∧
        (hexadecimal piece.length).length ≤ output.limits.lineBytes) := by
  unfold outgoingChunk at h
  unfold sentPiece
  cases hchunked : output.shape.chunked with
  | false =>
    rw [hchunked] at h
    cases h
    exact ⟨rfl, nofun⟩
  | true =>
    rw [hchunked] at h
    obtain ⟨⟨start, middle⟩, hsize, h⟩ := bind_eq_ok.mp h
    have hsize := emitLine_ok hsize
    have hend := emitLine_ok h
    have houtput := hend.output
    have hbudget := hsize.budget
    have hbudget' := hend.budget
    simp only at houtput hbudget hbudget'
    refine ⟨?_, fun _ => ⟨?_, hsize.short _ (.head _)⟩⟩
    · have hstart : start = wire [hexadecimal piece.length] := hsize.output
      rw [houtput, hstart, if_pos rfl, chunkWire, append_assoc]
    · have hlines : chunkLines [piece] = [hexadecimal piece.length] ++ [[]] := rfl
      rw [hlines, wire_append, length_append]; omega

/-- What the body of a message is, what of it was sent, and what that took. -/
structure Sends (output : Outgoing) (buffers pieces : List Bytes) (budget left : Nat) : Prop where
  flatten : pieces.flatten = buffers.flatten
  nonempty : ∀ piece ∈ pieces, piece ≠ []
  budget : output.shape.chunked = true → budget = left + (wire (chunkLines pieces)).length
  short : output.shape.chunked = true →
    ∀ piece ∈ pieces, (hexadecimal piece.length).length ≤ output.limits.lineBytes

theorem Sends.cons {buffers pieces : List Bytes} {budget middle left : Nat} {piece wire' : Bytes}
    (hpiece : piece ≠ []) (h : outgoingChunk output budget piece = .ok (wire', middle))
    (hrest : Sends output buffers pieces middle left) :
    Sends output (piece :: buffers) (piece :: pieces) budget left := by
  obtain ⟨-, hchunk⟩ := outgoingChunk_ok h
  refine ⟨by rw [flatten_cons, flatten_cons, hrest.flatten], ?_, fun hchunked => ?_,
    fun hchunked => ?_⟩
  · exact forall_mem_cons.mpr ⟨hpiece, hrest.nonempty⟩
  · have hlines : chunkLines (piece :: pieces) = chunkLines [piece] ++ chunkLines pieces := rfl
    rw [hlines, wire_append, length_append, (hchunk hchunked).1, hrest.budget hchunked]
    omega
  · exact forall_mem_cons.mpr ⟨(hchunk hchunked).2, hrest.short hchunked⟩

theorem writeBody_ok {source : List S} {total total' budget : Nat}
    (h : writeBody bytes sink output total budget count source given =
      (.ok (count', total'), given'))
    (htotal : total ≤ output.limits.bodyBytes) (hcount : count = given.flatten.length) :
    ∃ (buffers pieces : List Bytes) (left : Nat), source.map bytes = buffers.map .ok ∧
      Sends output buffers pieces budget left ∧
      given' = given ++ pieces.map (sentPiece output.shape.chunked) ∧
      count' = given'.flatten.length ∧
      total' = total + buffers.flatten.length ∧ total' ≤ output.limits.bodyBytes := by
  induction source generalizing total budget count given with
  | nil =>
    obtain ⟨hresult, rfl⟩ := mk.inj h
    cases hresult
    exact ⟨[], [], budget, rfl, ⟨rfl, nofun, fun _ => rfl, nofun⟩, by simp, hcount, rfl, htotal⟩
  | cons item source ih =>
    unfold writeBody at h
    simp only at h
    split at h
    · cases (mk.inj h).1
    rename_i payload hitem
    split at h
    · cases (mk.inj h).1
    split at h
    · cases (mk.inj h).1
    split at h
    · -- An empty buffer is not sent.
      rename_i hempty
      obtain rfl := length_eq_zero_iff.mp hempty
      obtain ⟨buffers, pieces, left, hbuffers, hsends, hgiven, hcount, hsize, hlimit⟩ :=
        ih h htotal hcount
      exact ⟨[] :: buffers, pieces, left, by rw [map_cons, map_cons, hitem, hbuffers],
        ⟨hsends.flatten, hsends.nonempty, hsends.budget, hsends.short⟩, hgiven, hcount, hsize, hlimit⟩
    · rename_i hpayload
      split at h
      · cases (mk.inj h).1
      rename_i wire' middle hchunk
      split at h
      · cases (mk.inj h).1
      rename_i count'' given'' hsink
      have hcount := outputChunk_count hsink hcount
      obtain ⟨-, rfl⟩ := outputChunk_ok hsink
      obtain ⟨rfl, -⟩ := outgoingChunk_ok hchunk
      obtain ⟨buffers, pieces, left, hbuffers, hsends, hgiven, hcount, hsize, hlimit⟩ :=
        ih h (by omega) hcount
      refine ⟨payload :: buffers, payload :: pieces, left,
        by rw [map_cons, map_cons, hitem, hbuffers],
        hsends.cons (fun hnil => hpayload (length_eq_zero_iff.mpr hnil)) hchunk, ?_, hcount, ?_,
        hlimit⟩
      · rw [hgiven, map_cons, append_assoc, singleton_append]
      · rw [flatten_cons, length_append]; omega

/-- What a run of the writer gave to the sink when it succeeded. -/
theorem writeStarted_ok {source : List S} (hempty : output.empty = false)
    (h : writeStarted bytes sink output source = (.ok count, given)) :
    ∃ (buffers pieces : List Bytes) (left : Nat), source.map bytes = buffers.map .ok ∧
      Sends output buffers pieces output.budget left ∧
      given.flatten = output.head ++ (pieces.flatMap (sentPiece output.shape.chunked) ++
        if output.shape.chunked then output.tail else []) ∧
      count = given.flatten.length ∧ buffers.flatten.length ≤ output.limits.bodyBytes ∧
      ∀ size, output.shape.size = some size → buffers.flatten.length = size := by
  unfold writeStarted at h
  split at h
  · cases (mk.inj h).1
  rename_i count' given' hhead
  have hcount' := outputChunk_count hhead rfl
  obtain ⟨-, rfl⟩ := outputChunk_ok hhead
  rw [if_neg (by simp [hempty])] at h
  split at h
  · cases (mk.inj h).1
  rename_i count' total given' hbody
  obtain ⟨buffers, pieces, left, hbuffers, hsends, hgiven, hcount, htotal, hlimit⟩ :=
    writeBody_ok hbody (Nat.zero_le _) hcount'
  rw [Nat.zero_add] at htotal
  have hflatten : given'.flatten =
      output.head ++ pieces.flatMap (sentPiece output.shape.chunked) := by
    rw [hgiven, nil_append, flatten_append, flatten_singleton, List.flatMap]
  split at h
  · cases (mk.inj h).1
  rename_i hdeclared
  have hsize : ∀ size, output.shape.size = some size → buffers.flatten.length = size := by
    intro size hsize
    rw [← htotal]
    simpa [hsize] using hdeclared
  split at h
  · rename_i hchunked
    have hcount := outputChunk_count h hcount
    obtain ⟨-, rfl⟩ := outputChunk_ok h
    refine ⟨buffers, pieces, left, hbuffers, hsends, ?_, hcount, htotal ▸ hlimit, hsize⟩
    rw [if_pos hchunked, flatten_append, flatten_singleton, hflatten, append_assoc]
  · rename_i hchunked
    obtain ⟨hresult, rfl⟩ := mk.inj h
    cases hresult
    refine ⟨buffers, pieces, left, hbuffers, hsends, ?_, hcount, htotal ▸ hlimit, hsize⟩
    rw [if_neg hchunked, append_nil, hflatten]

/-! ## What is read -/

theorem sent_body {start : Bytes} {sent trailers : List Header} {buffers pieces : List Bytes}
    {left : Nat} {rest : Bytes} (hprepared : Prepared limits start sent trailers output)
    (hsends : Sends output buffers pieces output.budget left)
    (hlimit : buffers.flatten.length ≤ limits.bodyBytes)
    (hsize : ∀ size, output.shape.size = some size → buffers.flatten.length = size) :
    Whole.body limits output.shape (output.budget + output.tail.length) true
        (pieces.flatMap (sentPiece output.shape.chunked) ++
          ((if output.shape.chunked then output.tail else []) ++ rest)) =
      .ok ((buffers.flatten, trailers), rest) := by
  cases hchunked : output.shape.chunked with
  | true =>
    obtain ⟨hfit, htrailers⟩ := hprepared.chunked hchunked
    have htail : output.tail = wire (lastLines trailers) := by
      rw [hprepared.tail, if_pos hchunked]
    have hshort := hsends.short hchunked
    have hpieces : pieces.flatMap (sentPiece true) = pieces.flatMap chunkWire := rfl
    have hbudget : output.budget + output.tail.length =
        left + (wire (lastLines trailers)).length + (wire (chunkLines pieces)).length := by
      rw [hsends.budget hchunked, htail]; omega
    rw [hprepared.limits] at hshort
    rw [Whole.body, if_pos hchunked, hbudget, htail, ← hsends.flatten]
    exact chunks_wire hsends.nonempty (by rw [hsends.flatten]; omega) hshort hfit
      hprepared.written.2 htrailers
  | false =>
    obtain ⟨size, hframed⟩ : ∃ size, output.shape.size = some size := by
      have hsized := hprepared.sized
      rw [Framing.framed, hchunked, Bool.or_false] at hsized
      exact Option.isSome_iff_exists.mp hsized
    have hpieces : pieces.flatMap (sentPiece false) = buffers.flatten := by
      rw [← hsends.flatten, flatten_eq_flatMap]; rfl
    rw [Whole.body, if_neg (by simp [hchunked]), hframed, hpieces, ← hsize size hframed,
      hprepared.single hchunked]
    simp only [Bool.false_eq_true, if_false, nil_append]
    rw [map_parse, take_append]

end

theorem coding_host : named coding.name (text "host") = false := by
  decide

theorem chunkWires_length (pieces : List Bytes) :
    (pieces.flatMap chunkWire).length =
      (wire (chunkLines pieces)).length + pieces.flatten.length := by
  induction pieces with
  | nil => rfl
  | cons piece pieces ih =>
    have hlines : chunkLines (piece :: pieces) =
        [hexadecimal piece.length] ++ ([[]] ++ chunkLines pieces) := rfl
    rw [hlines, wire_append, wire_append, flatMap_cons, flatten_cons, chunkWire]
    simp only [length_append]; omega

/-- All that is given but the body is within the budget of the metadata. -/
theorem sent_budget {sent : List Header} {buffers pieces : List Bytes} {left : Nat}
    (hprepared : Prepared limits start sent trailers output)
    (hsends : Sends output buffers pieces output.budget left) :
    (output.head ++ (pieces.flatMap (sentPiece output.shape.chunked) ++
        if output.shape.chunked then output.tail else [])).length ≤
      limits.metadataBytes + buffers.flatten.length := by
  rw [hprepared.budget, ← hsends.flatten]
  cases hchunked : output.shape.chunked with
  | true =>
    have hpieces : pieces.flatMap (sentPiece true) = pieces.flatMap chunkWire := rfl
    rw [hpieces, if_pos rfl, length_append, length_append, chunkWires_length,
      hsends.budget hchunked]
    omega
  | false =>
    have hpieces : pieces.flatMap (sentPiece false) = pieces.flatten := by
      rw [flatten_eq_flatMap]; rfl
    rw [hpieces, if_neg Bool.false_ne_true, append_nil, length_append]; omega

/-- Every part of what is given to the sink by a run that succeeds. -/
theorem writeRequest_ok {S E F : Type} {bytes : S → Except E Bytes}
    {sink : List Bytes → Bytes → Except F Int} {value : RequestMetadata} {source : List S}
    {count : Nat} {given : List Bytes}
    (h : writeRequest bytes sink value source limits = (.ok count, given)) :
    ∃ writer, requestWriter value limits = .ok writer ∧
      Prepared limits (requestStart value.method value.target)
        (framedBy coding (value.headers.map trimmed)) (value.trailers.map trimmed) writer.output ∧
      ∃ buffers : List Bytes, source.map bytes = buffers.map .ok ∧ count = given.flatten.length ∧
        buffers.flatten.length ≤ limits.bodyBytes ∧
        (∀ size, writer.output.shape.size = some size → buffers.flatten.length = size) ∧
        given.flatten.length ≤ limits.metadataBytes + buffers.flatten.length ∧
        ∀ rest, Whole.request limits (given.flatten ++ rest) =
          .ok (some ⟨value.method, value.target, framedBy coding (value.headers.map trimmed),
            buffers.flatten, value.trailers.map trimmed⟩, rest) := by
  unfold writeRequest at h
  split at h
  · cases (mk.inj h).1
  rename_i writer hwriter
  have haccepted := hwriter
  obtain ⟨⟨start, headers⟩, hfields, hwriter⟩ := bind_eq_ok.mp hwriter
  obtain ⟨output, houtput, hwriter⟩ := bind_eq_ok.mp hwriter
  cases hwriter
  obtain ⟨rfl, hstart, rfl, hwritten, hhosts⟩ := requestFields_ok hfields
  obtain ⟨-, -, hplain, hne⟩ := requestStart_ok hstart
  have hprepared := outgoing_ok hplain hwritten houtput
  obtain ⟨buffers, pieces, left, hbuffers, hsends, hgiven, hcount, hlimit, hsize⟩ :=
    writeStarted_ok hprepared.empty h
  rw [hprepared.limits] at hlimit
  have hbudget := sent_budget hprepared hsends
  rw [← hgiven] at hbudget
  refine ⟨_, haccepted, hprepared, buffers, hbuffers, hcount, hlimit, hsize, hbudget,
    fun rest => ?_⟩
  rw [hgiven, hprepared.head, append_assoc]
  refine request_of_head (requestHead_wire hstart hne hprepared.fit hprepared.written.1
    ((framedBy_hosts coding_host _).trans hhosts) hprepared.shape
    (hprepared.budget.trans (by rw [hprepared.head]))) ?_
  rw [append_assoc]; exact sent_body hprepared hsends hlimit hsize

theorem declared_size {headers : List Header} {entry : Header}
    (hprepared : Prepared limits start (framedBy coding (headers.map trimmed)) trailers output)
    (hmem : entry ∈ headers) (hname : named entry.name (text "content-length") = true) :
    ∃ size, number (trim entry.value) 10 limits.bodyBytes = .ok size ∧
      output.shape.size = some size :=
  framing_declared hprepared.shape (subset_framedBy (mem_map_of_mem hmem)) hname

section
variable {S E F : Type}

theorem request_results {input : Bytes} {message : Request}
    (h : ∀ rest, Whole.request limits (input ++ rest) = .ok (some message, rest))
    {chunks : List Bytes} {sizes : Nat → Nat} (hchunks : chunks.flatten = input)
    (hsizes : ∀ index, 0 < sizes index) (reads : Nat) :
    results (fun index => readRequest (sizes index)) 0 reads
        (reader chunks .ok limits : Reader Bytes E) =
      ((List.range reads).map (said [message] none)).map ofProtocol := by
  rw [results_eq (fun index => readRequest_reads (hsizes index))
    (fun index => readRequest_refuses (sizes index)) reads 0 (reader_standing limits chunks), hchunks]
  have hmessages := @results_messages _ _ (fun _ _ => false)
    (fun _ => Whole.request_consumes limits) (fun _ => rfl) [(input, message)] 0
    (fun offset hoffset rest => by
      obtain rfl : offset = 0 := by simpa using hoffset
      exact ⟨h rest, rfl⟩) reads
  rw [map_cons, map_nil, flatten_singleton] at hmessages
  rw [hmessages]; rfl

/-- A request that was written is read with the body that was produced, the method and
the target as they were, its values without the whitespace around them, and with a
coding where no header framed the body; then there is a clean end. -/
theorem write_request_decodes (bytes : S → Except E Bytes)
    (sink : List Bytes → Bytes → Except F Int) (value : RequestMetadata) (source : List S)
    (limits : Limits) (count : Nat) (given : List Bytes)
    (h : writeRequest bytes sink value source limits = (.ok count, given)) :
    ∃ buffers : List Bytes, source.map bytes = buffers.map .ok ∧
      (∀ (chunks : List Bytes) (sizes : Nat → Nat), chunks.flatten = given.flatten →
        (∀ index, 0 < sizes index) → ∀ reads,
          results (fun index => readRequest (sizes index)) 0 reads
              (reader chunks .ok limits : Reader Bytes E) =
            ((List.range reads).map (said [⟨value.method, value.target,
              framedBy coding (value.headers.map trimmed), buffers.flatten,
              value.trailers.map trimmed⟩] none)).map ofProtocol) ∧
      buffers.flatten.length ≤ limits.bodyBytes ∧
      (∀ entry ∈ value.headers, named entry.name (text "content-length") = true →
        number (trim entry.value) 10 limits.bodyBytes = .ok buffers.flatten.length) ∧
      (∀ writer, requestWriter value limits = .ok writer →
        writer.output.head.length + writer.output.tail.length + writer.output.budget =
          limits.metadataBytes) ∧
      given.flatten.length ≤ limits.metadataBytes + buffers.flatten.length ∧
      count = given.flatten.length := by
  obtain ⟨writer, hwriter, hprepared, buffers, hbuffers, hcount, hlimit, hsize, hbudget, hread⟩ :=
    writeRequest_ok h
  refine ⟨buffers, hbuffers, fun chunks sizes hchunks hsizes reads => ?_, hlimit,
    fun entry hmem hname => ?_, fun other hother => ?_, hbudget, hcount⟩
  · exact request_results hread hchunks hsizes reads
  · obtain ⟨size, hnumber, hshape⟩ := declared_size hprepared hmem hname
    rw [hnumber, hsize size hshape]
  · obtain rfl := Except.ok.inj (hwriter.symm.trans hother)
    rw [hprepared.budget]; omega

end

/-- A sink that takes every buffer. -/
def accept (_ : List Bytes) (wire : Bytes) : Except Unit Int := .ok wire.length

/-- A request without a framing header. -/
def unframed : RequestMetadata := ⟨text "PUT", text "/", [⟨text "Host", text "a"⟩], []⟩

theorem write_request_decodes_unframed :
    ∃ buffers : List Bytes, [text "hi", [], text "there"] = buffers ∧
      results (fun _ => readRequest 1) 0 2
          (reader [text "PUT / HTTP/1.1\r\nHost: a\r\nTransfer-Encoding: chunked\r\n\r\n2\r\nhi\r\n",
            text "5\r\nthere\r\n0\r\n\r\n"] .ok ⟨64, 256, 16⟩ : Reader Bytes Unit) =
        [.ok (some ⟨text "PUT", text "/", framedBy coding [trimmed ⟨text "Host", text "a"⟩],
          buffers.flatten, []⟩), .ok none] := by
  obtain ⟨buffers, hbuffers, hread, -⟩ := write_request_decodes (E := Unit) .ok accept unframed
    [text "hi", [], text "there"] ⟨64, 256, 16⟩ 77
    [text "PUT / HTTP/1.1\r\nHost: a\r\nTransfer-Encoding: chunked\r\n\r\n", text "2\r\nhi\r\n",
      text "5\r\nthere\r\n", text "0\r\n\r\n"] (by decide)
  refine ⟨buffers, ?_, hread _ (fun _ => 1) (by decide) (fun _ => Nat.one_pos) 2⟩
  exact map_injective_iff.mpr (fun _ _ => Except.ok.inj) hbuffers

/-- The coding that was added is read among the headers. -/
theorem written_metadata_differs :
    ¬ ∀ (value : RequestMetadata) (source : List Bytes) (limits : Limits) (count : Nat)
      (given : List Bytes),
      writeRequest (E := Unit) .ok accept value source limits = (.ok count, given) →
        results (fun _ => readRequest 1) 0 1
            (reader [given.flatten] .ok limits : Reader Bytes Unit) =
          [.ok (some ⟨value.method, value.target, value.headers, source.flatten,
            value.trailers⟩)] := by
  intro h
  have hrun : writeRequest (E := Unit) .ok accept unframed [] ⟨64, 256, 16⟩ =
      (.ok 60, [text "PUT / HTTP/1.1\r\nHost: a\r\nTransfer-Encoding: chunked\r\n\r\n",
        text "0\r\n\r\n"]) := by decide
  have hsame := h _ _ _ _ _ hrun
  obtain ⟨-, -, -, buffers, -, -, -, -, -, hread⟩ := writeRequest_ok hrun
  rw [request_results hread (by simp) (fun _ => Nat.one_pos)] at hsame
  have hmessage := Option.some.inj (Except.ok.inj (cons.inj hsame).1)
  exact absurd (Request.mk.inj hmessage).2.2.1 (by decide)

end Loom.Http
