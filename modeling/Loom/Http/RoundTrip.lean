import Loom.Http.Chunking
import Loom.Http.Heads

/-
  Messages that were encoded are read back, one after another.

  The encoder spends its budget in the order of the octets, as the reader does. A
  message without a framing header gets the size of its body, unless it can have
  none; the values of headers and trailers lose the whitespace around them.
-/

namespace Loom.Http

open Relational Results List Nat

variable {limits : Limits}

/-! ## Decimal sizes -/

variable {n : Nat} {content start output : Bytes} {headers : List Header} {status : Nat}

theorem decimal_eq (hn : n ≠ 0) :
    decimal n = (digits 10 n).reverse.map fun next => UInt8.ofNat (48 + next) := by
  unfold decimal Decimal.toText
  rw [if_neg (by omega), if_neg (by omega), Decimal.digitsOf, map_map]; rfl

theorem decimal_digit : ∀ next < 10, digit (UInt8.ofNat (48 + next)) 10 = some next := by
  decide

theorem number_decimal {maximum : Nat} (h : n ≤ maximum) :
    number (decimal n) 10 maximum = .ok n := by
  by_cases hn : n = 0
  · subst hn
    have hzero : decimal 0 = [48] := by decide
    simp [hzero, number, accumulate, digit]
  · rw [decimal_eq hn]; exact number_digits (by decide) decimal_digit hn h

theorem mem_decimal {octet : UInt8} (h : octet ∈ decimal n) :
    fieldOctet octet = true ∧ ows octet = false := by
  by_cases hn : n = 0
  · subst hn
    have hzero : decimal 0 = [48] := by decide
    rw [hzero, mem_singleton] at h
    subst h; decide
  · rw [decimal_eq hn] at h
    obtain ⟨next, hnext, rfl⟩ := mem_map.mp h
    have hall : ∀ next < 10, fieldOctet (UInt8.ofNat (48 + next)) = true ∧
        ows (UInt8.ofNat (48 + next)) = false := by
      decide
    exact hall next (digits_lt_base (by decide) (mem_reverse.mp hnext))

/-- The header that says the size of a body. -/
def sized (size : Nat) : Header := ⟨text "Content-Length", decimal size⟩

theorem sized_written (size : Nat) : Written (sized size) := by
  have hname : validToken (text "Content-Length") = true := by decide
  have hvalue : validField (decimal size) = true :=
    all_eq_true.mpr fun octet hmem => (mem_decimal hmem).1
  have htrim : trim (decimal size) = decimal size := by
    have hfirst : (decimal size).dropWhile ows = decimal size := by
      rw [dropWhile_eq_self_iff]
      intro hlength
      simpa using (mem_decimal (getElem_mem hlength)).2
    rw [trim, hfirst, rdropWhile_eq_self_iff]
    intro hne
    simpa using (mem_decimal (getLast_mem hne)).2
  have hsized : trimmed (sized size) = sized size := by
    rw [trimmed, sized, htrim]
  exact hsized ▸ trimmed_written ⟨hname, hvalue⟩

theorem framing_sized {size maximum : Nat} (h : size ≤ maximum) :
    framingFrom maximum ⟨none, false⟩ [sized size] = .ok ⟨some size, false⟩ := by
  have hlength : named (text "Content-Length") (text "content-length") = true := by decide
  simp [framingFrom, sized, hlength, number_decimal h]

theorem sized_host (size : Nat) : named (sized size).name (text "host") = false := by
  have hname : named (text "Content-Length") (text "host") = false := by decide
  exact hname

/-! ## Encodings -/

theorem emitChunk_ok {before after : Bytes × Nat} (h : emitChunk limits content before = .ok after) :
    ∃ pieces : List Bytes, pieces.flatten = content ∧ (∀ piece ∈ pieces, piece ≠ []) ∧
      after.1 = before.1 ++ pieces.flatMap chunkWire ∧
      before.2 = after.2 + (wire (chunkLines pieces)).length ∧
      ∀ piece ∈ pieces, (hexadecimal piece.length).length ≤ limits.lineBytes := by
  unfold emitChunk at h
  split at h
  · rename_i hlength
    obtain ⟨⟨output, budget⟩, hsize, h⟩ := bind_eq_ok.mp h
    have hsize := emitLine_ok hsize
    have hend := emitLine_ok h
    have houtput := hsize.output
    have hbudget := hsize.budget
    simp only at houtput hbudget
    refine ⟨[content], by simp, ?_, ?_, ?_, ?_⟩
    · intro piece hmem
      obtain rfl := mem_singleton.mp hmem
      exact length_pos_iff.mp hlength
    · rw [hend.output, houtput]; simp [chunkWire]
    · have hlines : chunkLines [content] = [hexadecimal content.length] ++ [[]] := rfl
      have hlast : budget = after.2 + (wire [[]]).length := hend.budget
      rw [hbudget, hlines, wire_append, length_append]; omega
    · intro piece hmem
      obtain rfl := mem_singleton.mp hmem
      exact hsize.short _ (.head _)
  · rename_i hlength
    cases h
    have hempty : content = [] := length_eq_zero_iff.mp (Nat.eq_zero_of_not_pos hlength)
    exact ⟨[], hempty.symm, by simp, by simp, rfl, by simp⟩

/-- An encoding is its head, which is within the budget, and a body. -/
structure Encoded (limits : Limits) (start : Bytes) (sent : List Header) (left : Nat)
    (contents output : Bytes) : Prop where
  output : output = wire (headLines start sent) ++ contents
  budget : limits.metadataBytes = left + (wire (headLines start sent)).length
  fit : Fit limits (headLines start sent)

theorem encoded_of_emits {contents : Bytes} {sent : List Header} {left : Nat} (hplain : Plain start)
    (hwritten : ∀ entry ∈ sent, Written entry) {head : Bytes}
    (h : Emits limits (headLines start sent) ([], limits.metadataBytes) (head, left))
    (houtput : output = head ++ contents) : Encoded limits start sent left contents output := by
  refine ⟨?_, h.budget, h.fit (headLines_plain hplain hwritten)⟩
  have hhead : head = wire (headLines start sent) := h.output
  rw [houtput, hhead]

theorem encodeMessage_ok {suffix : List Header} (hplain : Plain start)
    (hwritten : ∀ entry ∈ headers, Written entry)
    (h : encodeMessage start headers content suffix limits false = .ok output) :
    ∃ (shape : Framing) (left : Nat) (contents : Bytes),
      framing (framedBy (sized content.length) headers) limits.bodyBytes = .ok shape ∧
      Encoded limits start (framedBy (sized content.length) headers) left contents output ∧
      ∀ request rest, Whole.body limits shape left request (contents ++ rest) =
        .ok ((content, suffix.map trimmed), rest) := by
  obtain ⟨trailers, htrailers, h⟩ := bind_eq_ok.mp h
  obtain ⟨rfl, htrailers⟩ := snapshot_ok htrailers
  split at h
  · cases h
  rename_i hlimit
  have hlimit : content.length ≤ limits.bodyBytes := not_lt.mp hlimit
  obtain ⟨state, hstart, h⟩ := bind_eq_ok.mp h
  obtain ⟨state', hfields, h⟩ := bind_eq_ok.mp h
  obtain ⟨shape, hshape, h⟩ := bind_eq_ok.mp h
  obtain ⟨hframing, hframed⟩ := framedBy_framing hshape (framing_sized hlimit)
  have hsent := framedBy_written (sized_written content.length) hwritten
  split at h
  · rename_i hchunked
    split at h
    · cases h
    rename_i hsections
    obtain ⟨⟨head, left⟩, hend, h⟩ := bind_eq_ok.mp h
    obtain ⟨⟨middle, budget⟩, hchunk, h⟩ := bind_eq_ok.mp h
    obtain ⟨⟨last, budget'⟩, hlast, h⟩ := bind_eq_ok.mp h
    cases h
    have hlast := emitLast_ok hlast
    obtain ⟨pieces, hpieces, hnonempty, hmiddle, hbudget, hshort⟩ := emitChunk_ok hchunk
    have hframed : shape.framed = true := by simp [Framing.framed, hchunked]
    have hhead : Emits limits (headLines start (framedBy (sized content.length) headers))
        ([], limits.metadataBytes) (head, left) := by
      rw [headLines, framedBy_lines, ← ‹shape.framed = headers.any isFraming›, hframed]
      exact (emitLine_ok hstart).append ((emitFields_ok hfields).append (emitLine_ok hend))
    refine ⟨shape, left, pieces.flatMap chunkWire ++ wire (lastLines (suffix.map trimmed)),
      by rw [hframing, hframed, if_pos rfl], encoded_of_emits hplain hsent hhead ?_,
      fun request rest => ?_⟩
    · have hlast := hlast.output
      simp only at hlast hmiddle
      rw [hlast, hmiddle, append_assoc]
    · have hlast' := hlast.budget
      simp only at hlast' hbudget
      rw [Whole.body, if_pos hchunked, hbudget, hlast', append_assoc, ← hpieces]
      exact chunks_wire hnonempty (by rw [hpieces]; omega) hshort
        (hlast.fit (lastLines_plain htrailers)) htrailers (by simpa using hsections)
  · rename_i hchunked
    split at h
    · cases h
    rename_i hsections
    obtain ⟨hsuffix, hsize⟩ : suffix = [] ∧ shape.size.any (· ≠ content.length) = false := by
      simpa using hsections
    obtain ⟨state'', hadded, h⟩ := bind_eq_ok.mp h
    obtain ⟨⟨head, left⟩, hend, h⟩ := bind_eq_ok.mp h
    cases h
    have hnone : shape.size.isNone = !shape.framed := by
      simp [Framing.framed, hchunked]
    have hhead : Emits limits (headLines start (framedBy (sized content.length) headers))
        ([], limits.metadataBytes) (head, left) := by
      rw [headLines, framedBy_lines, ← hframed, ← hnone]
      exact (emitLine_ok hstart).append
        ((emitFields_ok hfields).append ((emitAdded_ok hadded).append (emitLine_ok hend)))
    have hsized : (if shape.framed then shape else ⟨some content.length, false⟩) =
        ⟨some content.length, false⟩ := by
      obtain ⟨_ | size, _ | _⟩ := shape
      · rfl
      · exact absurd rfl hchunked
      · obtain rfl : size = content.length := by simpa using hsize
        rfl
      · exact absurd rfl hchunked
    refine ⟨⟨some content.length, false⟩, left, content, by rw [hframing, hsized],
      encoded_of_emits hplain hsent hhead rfl, fun request rest => ?_⟩
    rw [Whole.body, if_neg Bool.false_ne_true, hsuffix]
    simp only [map_parse, take_append]; rfl

theorem encodeMessage_empty {suffix : List Header} (hplain : Plain start)
    (hwritten : ∀ entry ∈ headers, Written entry)
    (h : encodeMessage start headers content suffix limits true = .ok output) :
    content = [] ∧ suffix = [] ∧ ∃ left, Encoded limits start headers left [] output := by
  obtain ⟨trailers, htrailers, h⟩ := bind_eq_ok.mp h
  obtain ⟨rfl, -⟩ := snapshot_ok htrailers
  split at h
  · cases h
  obtain ⟨state, hstart, h⟩ := bind_eq_ok.mp h
  obtain ⟨state', hfields, h⟩ := bind_eq_ok.mp h
  simp only [if_true] at h
  split at h
  · cases h
  rename_i hempty
  obtain ⟨hcontent, hsuffix⟩ : content = [] ∧ suffix = [] := by
    simpa using hempty
  obtain ⟨⟨head, left⟩, hend, h⟩ := bind_eq_ok.mp h
  cases h
  have hhead : Emits limits (headLines start headers) ([], limits.metadataBytes) (head, left) :=
    (emitLine_ok hstart).append ((emitFields_ok hfields).append (emitLine_ok hend))
  exact ⟨hcontent, hsuffix, left, encoded_of_emits hplain hwritten hhead (append_nil _).symm⟩

/-! ## Requests -/

def receivedRequest (value : Request) : Request :=
  ⟨value.method, value.target, framedBy (sized value.body.length) (value.headers.map trimmed),
    value.body, value.trailers.map trimmed⟩

theorem encodeRequest_read {value : Request} (h : encodeRequest value limits = .ok output)
    (rest : Bytes) :
    Whole.request limits (output ++ rest) = .ok (some (receivedRequest value), rest) := by
  obtain ⟨⟨start, headers⟩, hfields, h⟩ := bind_eq_ok.mp h
  obtain ⟨rfl, hstart, rfl, hwritten, hhosts⟩ := requestFields_ok hfields
  obtain ⟨-, -, hplain, hne⟩ := requestStart_ok hstart
  obtain ⟨shape, left, contents, hshape, hencoded, hbody⟩ := encodeMessage_ok hplain hwritten h
  rw [hencoded.output, append_assoc]
  exact request_of_head (requestHead_wire hstart hne hencoded.fit
    (framedBy_written (sized_written _) hwritten)
    ((framedBy_hosts (sized_host _) _).trans hhosts) hshape hencoded.budget) (hbody true rest)

/-! ## Responses -/

def receivedResponse (method : Text) (value : Response) : Response :=
  let headers := value.headers.map trimmed
  ⟨value.status, value.reason,
    if noBody method value.status then headers else framedBy (sized value.body.length) headers,
    value.body, value.trailers.map trimmed⟩

def responseStart (status : Nat) (reason : Bytes) : Bytes :=
  text "HTTP/1.1 " ++ decimal status ++ text " " ++ reason

theorem decimal_length (hlow : 100 ≤ status) (hhigh : status ≤ 999) :
    (decimal status).length = 3 := by
  rw [decimal_eq (by omega), length_map, length_reverse]
  have hle : (digits 10 status).length ≤ 3 :=
    (digits_length_le_iff (by decide) status).mpr (by omega)
  have hlt : 2 < (digits 10 status).length :=
    (lt_digits_length_iff (by decide) status).mpr (by omega)
  omega

theorem responseStart_ok {status' : Nat} {reason reason' : Bytes} (hlow : 100 ≤ status)
    (hhigh : status ≤ 999) (h : statusLine (responseStart status reason) = .ok (status', reason')) :
    statusLine (responseStart status reason) = .ok (status, reason) ∧
      Plain (responseStart status reason) := by
  have hdigits := decimal_length hlow hhigh
  have hversion : (text "HTTP/1.1 ").length = 9 := by decide
  have hspace : text " " = [32] := by decide
  have hline : responseStart status reason =
      text "HTTP/1.1 " ++ (decimal status ++ (32 :: reason)) := by
    simp [responseStart, hspace]
  have hstatus : ((responseStart status reason).drop 9).take 3 = decimal status := by
    rw [hline, ← hversion, drop_left, ← hdigits, take_left]
  have hreason : (responseStart status reason).drop 13 = reason := by
    rw [hline, ← append_assoc]
    have hlength : (text "HTTP/1.1 " ++ decimal status).length = 12 := by
      rw [length_append, hversion, hdigits]
    rw [show 13 = (text "HTTP/1.1 " ++ decimal status).length + 1 by omega, ← drop_drop, drop_left]
    rfl
  unfold statusLine at h ⊢
  split at h
  · cases h
  rename_i hform
  rw [if_neg hform]
  rw [hstatus, number_decimal hhigh, hreason] at h ⊢
  simp only at h ⊢
  split at h
  · cases h
  rename_i hvalid
  refine ⟨by rw [if_neg hvalid], ?_⟩
  have hfield : validField reason = true := by
    simpa using (Bool.or_eq_false_iff.mp (Bool.eq_false_iff.mpr hvalid)).2
  have hstart : Plain (text "HTTP/1.1 ") := by
    unfold Plain; set_option maxRecDepth 4000 in decide
  rw [hline]
  refine plain_append hstart (plain_append (fun octet hmem => ?_) fun octet hmem => ?_)
  · exact fieldOctet_plain (mem_decimal hmem).1
  · obtain rfl | hmem := mem_cons.mp hmem
    · decide
    · exact fieldOctet_plain (all_eq_true.mp hfield octet hmem)

/-- The head that a response is accepted with. -/
theorem responseFields_ok {reason : Bytes} {fields : List Header} {method : Text}
    (h : responseFields status reason fields method limits = .ok (start, headers)) :
    start = responseStart status reason ∧ statusLine start = .ok (status, reason) ∧
      Plain start ∧ headers = fields.map trimmed ∧ ∀ entry ∈ headers, Written entry := by
  unfold responseFields at h
  split at h
  · cases h
  obtain ⟨⟨status', reason'⟩, hline, h⟩ := bind_eq_ok.mp h
  obtain ⟨headers', hheaders, h⟩ := bind_eq_ok.mp h
  have hsame : (responseStart status reason, headers') = (start, headers) := by
    split at h
    · obtain ⟨-, -, h⟩ := bind_eq_ok.mp h
      exact Except.ok.inj h
    · exact Except.ok.inj h
  cases hsame
  obtain ⟨hread, hplain⟩ := responseStart_ok (by omega) (by omega) hline
  obtain ⟨rfl, hwritten⟩ := snapshot_ok hheaders
  exact ⟨rfl, hread, hplain, rfl, hwritten⟩

theorem encodeResponse_read {method : Text} {value : Response}
    (h : encodeResponse value method limits = .ok output) (rest : Bytes) :
    Whole.response method limits (output ++ rest) =
      .ok (some (receivedResponse method value), rest) := by
  obtain ⟨⟨start, headers⟩, hfields, h⟩ := bind_eq_ok.mp h
  obtain ⟨rfl, hstart, hplain, rfl, hwritten⟩ := responseFields_ok hfields
  unfold receivedResponse
  cases hempty : noBody method value.status with
  | true =>
    simp only [hempty] at h
    obtain ⟨hcontent, hsuffix, left, hencoded⟩ := encodeMessage_empty hplain hwritten h
    have hshape : responseShape method value.status (value.headers.map trimmed) limits.bodyBytes =
        .ok ⟨some 0, false⟩ := by
      rw [responseShape, if_pos hempty]
    have hbody : Whole.body limits ⟨some 0, false⟩ left false rest = .ok (([], []), rest) := by
      rw [Whole.body]; rfl
    rw [hencoded.output, append_nil, hcontent, hsuffix]
    exact response_of_head (responseHead_wire hstart hencoded.fit hwritten hshape hencoded.budget)
      hbody
  | false =>
    simp only [hempty] at h
    obtain ⟨shape, left, contents, hshape, hencoded, hbody⟩ := encodeMessage_ok hplain hwritten h
    have hshape' : responseShape method value.status
        (framedBy (sized value.body.length) (value.headers.map trimmed)) limits.bodyBytes =
          .ok shape := by
      rw [responseShape, if_neg (by simp [hempty]), hshape]
    rw [hencoded.output, append_assoc]
    exact response_of_head (responseHead_wire hstart hencoded.fit
      (framedBy_written (sized_written _) hwritten) hshape' hencoded.budget) (hbody false rest)

/-! ## Messages one after another -/

section
variable {E : Type}

/-- Encoded messages are read back in their order on any cut of their concatenation, and
then there is a clean end. -/
theorem encodings_read (limits : Limits) (sizes : Nat → Nat) (hsizes : ∀ index, 0 < sizes index)
    (chunks : List Bytes) : (∀ requests : List (Request × Bytes),
      (∀ sent ∈ requests, encodeRequest sent.1 limits = .ok sent.2) →
      chunks.flatten = (requests.map Prod.snd).flatten → ∀ reads,
        results (fun index => readRequest (sizes index)) 0 reads
            (reader chunks .ok limits : Reader Bytes E) = ((List.range reads).map
            (said (requests.map fun sent => receivedRequest sent.1) none)).map ofProtocol) ∧
    ∀ responses : List (Text × Response × Bytes),
      (∀ sent ∈ responses, encodeResponse sent.2.1 sent.1 limits = .ok sent.2.2 ∧
        tunnel sent.1 sent.2.1.status = false) →
      chunks.flatten = (responses.map fun sent => sent.2.2).flatten → ∀ (methods : Nat → Text),
        (∀ index (hindex : index < responses.length), methods index = responses[index].1) → ∀ reads,
        results (fun index => readResponse (methods index) (sizes index)) 0 reads
            (reader chunks .ok limits : Reader Bytes E) = ((List.range reads).map
            (said (responses.map fun sent => receivedResponse sent.1 sent.2.1) none)).map
              ofProtocol := by
  refine ⟨fun requests hencoded hchunks reads => ?_,
    fun responses hencoded hchunks methods hmethods reads => ?_⟩
  · rw [results_eq (fun index => readRequest_reads (hsizes index))
      (fun index => readRequest_refuses (sizes index)) reads 0 (reader_standing limits chunks), hchunks]
    have hmessages := @results_messages _ _ (fun _ _ => false)
      (fun _ => Whole.request_consumes limits) (fun _ => rfl)
      (requests.map fun sent => (sent.2, receivedRequest sent.1)) 0 (fun offset hoffset rest => by
        simp only [getElem_map]
        exact ⟨encodeRequest_read (hencoded _ (getElem_mem _)) rest, trivial⟩) reads
    rw [map_map, map_map] at hmessages; exact congrArg _ hmessages
  · rw [results_eq (fun index => readResponse_reads (methods index) (hsizes index))
      (fun index => readResponse_refuses (methods index) (sizes index)) reads 0
      (reader_standing limits chunks), hchunks]
    have hmessages := @results_messages _ (fun index => Whole.response (methods index) limits)
      (fun index => tunnelled (methods index))
      (fun index => Whole.response_consumes (methods index) limits) (fun _ => rfl)
      (responses.map fun sent => (sent.2.2, receivedResponse sent.1 sent.2.1)) 0
      (fun offset hoffset rest => by
        have hoffset : offset < responses.length := by simpa using hoffset
        obtain ⟨hresponse, htunnel⟩ := hencoded _ (getElem_mem hoffset)
        simp only [getElem_map, zero_add, hmethods offset hoffset]
        exact ⟨encodeResponse_read hresponse rest, htunnel⟩) reads
    rw [map_map, map_map] at hmessages; exact congrArg _ hmessages

theorem response_results {method : Text} {value : Response} {output : Bytes}
    (h : encodeResponse value method limits = .ok output) {size : Nat} (hsize : 0 < size) :
    results (fun _ => readResponse method size) 0 1 (reader [output] .ok limits : Reader Bytes E) =
      [.ok (some (receivedResponse method value))] := by
  have hread := encodeResponse_read h []
  rw [append_nil] at hread
  rw [results_eq (fun _ => readResponse_reads method hsize)
    (fun _ => readResponse_refuses method size) 1 0 (reader_standing limits [output]),
    flatten_singleton, Whole.results, hread]
  rfl

end

/-- A request whose size is added to it. -/
def getRequest : Request := ⟨text "GET", text "/", [⟨text "Host", text "a"⟩], [], []⟩

/-- A request with chunks and trailers. -/
def putRequest : Request :=
  ⟨text "PUT", text "/b", [⟨text "Host", text "a"⟩, ⟨text "Transfer-Encoding", text "chunked"⟩],
    text "hi", [⟨text "Sum", text " 1 "⟩]⟩

theorem encodings_read_two : results (fun _ => readRequest 2) 0 3
        (reader [text "GET / HTTP/1.1\r\nHost: a\r\nContent-Length: 0\r\n\r\nPUT /b HTTP/1.1\r",
          text "\nHost: a\r\nTransfer-Encoding: chunked\r\n\r\n2\r\nhi\r\n0\r\nSum: 1\r\n\r\n"] .ok
          ⟨64, 256, 16⟩ : Reader Bytes Unit) =
      [.ok (some (receivedRequest getRequest)), .ok (some (receivedRequest putRequest)),
        .ok none] := (encodings_read ⟨64, 256, 16⟩ (fun _ => 2) (fun _ => two_pos) _).1
    [(getRequest, text "GET / HTTP/1.1\r\nHost: a\r\nContent-Length: 0\r\n\r\n"),
      (putRequest, text ("PUT /b HTTP/1.1\r\nHost: a\r\nTransfer-Encoding: chunked\r\n\r\n" ++
        "2\r\nhi\r\n0\r\nSum: 1\r\n\r\n"))]
    (forall_mem_cons.mpr ⟨by decide, forall_mem_cons.mpr
      ⟨by decide, nofun⟩⟩) (by decide) 3

/-- No size is added to a response that can have no body. -/
theorem received_response_differs :
    ¬ ∀ (limits : Limits) (method : Text) (value : Response) (output : Bytes),
      encodeResponse value method limits = .ok output → tunnel method value.status = false →
        results (fun _ => readResponse method 1) 0 1
            (reader [output] .ok limits : Reader Bytes Unit) =
          [.ok (some ⟨value.status, value.reason,
            framedBy (sized value.body.length) (value.headers.map trimmed), value.body,
            value.trailers⟩)] := by
  intro h
  have hencoded : encodeResponse ⟨204, [], [], [], []⟩ (text "GET") ⟨64, 256, 16⟩ =
      .ok (text "HTTP/1.1 204 \r\n\r\n") := by decide
  have hsame := h _ _ _ _ hencoded (by decide)
  rw [response_results hencoded one_pos] at hsame
  have hresponse := Option.some.inj (Except.ok.inj (cons.inj hsame).1)
  exact absurd (Response.mk.inj hresponse).2.2.1 (by decide)

end Loom.Http
