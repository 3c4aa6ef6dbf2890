import Loom.Http.Reading

/-
  Reads of messages one after another do not depend on the chunks of the input, nor
  on the sizes in which bodies are pulled.

  A message that is opened holds a lease until its body is read; whatever fails
  retires the reader, and so does a response that opens a tunnel.
-/

namespace Loom.Http

open Relational List

section
variable {S E α α' : Type} {limits : Limits} {retired : Bool} {input : Reader S E} {left : Bytes}
  {body : Body}

/-! ## Messages -/

variable {shape : Framing}

theorem newBody_spec {maximum : Nat} (budget : Nat) (request : Bool) (hmaximum : 0 < maximum)
    (hsize : ∀ size, shape.size = some size → size ≤ limits.bodyBytes)
    (h : Holds limits true retired input left) : ∃ (body : Body) (after : Reader S E),
      newBody shape budget maximum request input = (.ok body, after) ∧ body.Valid limits ∧
        body.progress.pulling = false ∧ Holds limits body.leased retired after left ∧
        body.rest limits = Whole.body limits shape budget request := by
  obtain ⟨size, chunked⟩ := shape
  cases chunked with
  | true =>
    exact ⟨_, input, rfl, ⟨hmaximum, nofun, Nat.zero_le _, nofun⟩, rfl, h, rfl⟩
  | false =>
    cases size with
    | none =>
      cases request with
      | true => exact ⟨_, _, rfl, ⟨hmaximum, nofun, Nat.zero_le _, nofun⟩, rfl, h.released, rfl⟩
      | false => exact ⟨_, input, rfl, ⟨hmaximum, nofun, Nat.zero_le _, nofun⟩, rfl, h, rfl⟩
    | some size =>
      cases size with
      | zero =>
        refine ⟨_, _, rfl, ⟨hmaximum, nofun, Nat.zero_le _, nofun⟩, rfl, h.released, ?_⟩
        rfl
      | succ size =>
        refine ⟨_, input, rfl, ⟨hmaximum, nofun, Nat.zero_le _, fun _ => ⟨Nat.succ_pos _, ?_⟩⟩, rfl,
          h, rfl⟩
        have := hsize _ rfl
        simpa using this

theorem get_apply (input : Reader S E) : (get : Reading S E (Reader S E)) input = (.ok input, input) :=
  rfl

theorem framing_sizes {headers : List Header} (h : framing headers limits.bodyBytes = .ok shape) :
    ∀ size, shape.size = some size → size ≤ limits.bodyBytes := fun _ hsize => framing_le h hsize

/-- What a message that was opened says of its body. -/
structure Opened (limits : Limits) (retired : Bool) (shape : Framing) (budget : Nat)
    (request : Bool) (body : Body) (after : Reader S E) (rest : Bytes) : Prop where
  valid : body.Valid limits
  pulling : body.progress.pulling = false
  holds : Holds limits body.leased retired after rest
  rest : body.rest limits = Whole.body limits shape budget request

/-- A request that was opened, against the one the whole input starts with. -/
def OpenedRequest (limits : Limits) :
    Option IncomingRequest → Option ((Text × Text × List Header) × Framing × Nat) →
      Reader S E → Bytes → Prop
  | none, none, input, left => Holds limits false false input left
  | some incoming, some ((method, target, headers), shape, budget), input, left =>
    (incoming.method = method ∧ incoming.target = target ∧ incoming.headers = headers) ∧
      Opened limits false shape budget true incoming.body input left
  | _, _, _, _ => False

/-- A response that was opened; a tunnel retires the reader. -/
def OpenedResponse (limits : Limits) (method : Text) :
    Option IncomingResponse → Option ((Nat × Bytes × List Header) × Framing × Nat) →
      Reader S E → Bytes → Prop
  | none, none, input, left => Holds limits false false input left
  | some incoming, some ((status, reason, headers), shape, budget), input, left =>
    (incoming.status = status ∧ incoming.reason = reason ∧ incoming.headers = headers) ∧
      Opened limits (tunnel method status) shape budget false incoming.body input left
  | _, _, _, _ => False

section
variable {γ γ' : Type} {final : γ → γ' → Reader S E → Bytes → Prop} {busy : Bool} {α : Type}

theorem Reads.bind {program : Reading S E α} {parser : Parsing α} {f : α → Reading S E γ}
    {g : α → Parsing γ'} (h : Reads limits busy retired program parser)
    (hnext : ∀ value, Follows ReadError.protocol (Holds limits busy retired) final (fun _ => True)
      (f value) (g value)) :
    Follows ReadError.protocol (Holds limits busy retired) final (fun _ => True)
      (program >>= f) (parser >>= g) := by
  refine Follows.bind h fun value value' => ?_
  rintro input left ⟨rfl, hholds⟩
  exact hnext value hholds

theorem protocol_bind {value : Except ProtocolError α} {f : α → Reading S E γ} {g : α → Parsing γ'}
    (hnext : ∀ result, value = .ok result → Follows ReadError.protocol (Holds limits busy retired)
      final (fun _ => True) (f result) (g result)) :
    Follows ReadError.protocol (Holds limits busy retired) final (fun _ => True)
      (protocol value >>= f) (Whole.protocol value >>= g) := by
  intro input left h
  cases value with
  | error error => exact ⟨input, rfl, trivial⟩
  | ok result => exact hnext result rfl h

theorem failed_follows (error : ProtocolError) :
    Follows ReadError.protocol (Holds limits busy retired) final (fun _ => True)
      (failed error : Reading S E γ) (Whole.failed error) := fun input _ _ => ⟨input, rfl, trivial⟩

end

variable {chunkBytes : Nat}

theorem openRequestLeased_spec (hmaximum : 0 < chunkBytes) :
    Follows ReadError.protocol (Holds limits true false) (OpenedRequest limits) (fun _ => True)
      (openRequestLeased chunkBytes : Reading S E _) (Whole.requestHead limits) := by
  intro input left h
  unfold openRequestLeased
  rw [bind_ok (get_apply input), h.limits]
  refine Reads.bind (firstLine_reads limits.metadataBytes) ?_ h
  rintro ⟨_ | value, budget⟩
  · exact fun _ _ h => ⟨none, _, rfl, h.released⟩
  · refine protocol_bind fun ⟨method, target⟩ _ => ?_
    refine Reads.bind (fields_reads budget false) fun ⟨headers, budget⟩ => ?_
    refine Follows.ite (fun _ => failed_follows _) fun _ => ?_
    refine protocol_bind fun shape hshape => ?_
    intro input left h
    obtain ⟨body, after, hrun, hvalid, hpulling, hholds, hrest⟩ :=
      newBody_spec budget true hmaximum (framing_sizes hshape) h
    exact ⟨some ⟨method, target, headers, body⟩, after, bind_ok hrun, ⟨rfl, rfl, rfl⟩,
      hvalid, hpulling, hholds, hrest⟩

theorem responseShape_sizes {method : Text} {status : Nat} {headers : List Header}
    (h : responseShape method status headers limits.bodyBytes = .ok shape) :
    ∀ size, shape.size = some size → size ≤ limits.bodyBytes := by
  unfold responseShape at h
  split at h
  · cases h
    rintro _ ⟨⟩
    exact Nat.zero_le _
  · exact framing_sizes h

theorem retireTunnel_ok (method : Text) (status : Nat) (h : Holds limits true false input left) :
    ∃ after : Reader S E, retireTunnel method status input = (.ok (), after) ∧
      Holds limits true (tunnel method status) after left := by
  unfold retireTunnel
  cases tunnel method status with
  | true =>
    exact ⟨_, rfl, h.limits, h.busy, rfl, h.unread.position, h.unread.eof, h.unread.left⟩
  | false => exact ⟨input, rfl, h⟩

theorem openResponseLeased_spec (method : Text) (hmaximum : 0 < chunkBytes) :
    Follows ReadError.protocol (Holds limits true false) (OpenedResponse limits method)
      (fun _ => True) (openResponseLeased method chunkBytes : Reading S E _)
      (Whole.responseHead method limits) := by
  intro input left h
  unfold openResponseLeased
  rw [bind_ok (get_apply input), h.limits]
  refine Reads.bind (line_reads limits.metadataBytes) ?_ h
  rintro ⟨_ | value, budget⟩
  · exact fun _ _ h => ⟨none, _, rfl, h.released⟩
  · refine protocol_bind fun ⟨status, reason⟩ _ => ?_
    refine Reads.bind (fields_reads budget false) fun ⟨headers, budget⟩ => ?_
    refine protocol_bind fun shape hshape => ?_
    intro input left h
    obtain ⟨retired, htunnel, hretired⟩ := retireTunnel_ok method status h
    obtain ⟨body, after, hrun, hvalid, hpulling, hholds, hrest⟩ :=
      newBody_spec budget false hmaximum (responseShape_sizes hshape) hretired
    exact ⟨some ⟨status, reason, headers, body⟩, after, (bind_ok htunnel).trans (bind_ok hrun),
      ⟨rfl, rfl, rfl⟩, hvalid, hpulling, hholds, hrest⟩

/-- What runs under a lease retires the reader when it fails. -/
theorem leased_follows {program : Reading S E α} {parser : Parsing α'}
    {final : α → α' → Reader S E → Bytes → Prop}
    (h : Follows ReadError.protocol (Holds limits true false) final (fun _ => True) program parser) :
    Follows ReadError.protocol (Holds limits false false) final Reader.Closed
      (do begin; deferFailure retire program) parser := by
  intro input left hholds
  have hbegin : begin input = (.ok (), input.setCursor { input.cursor with busy := true }) := by
    simp [begin, hholds.busy, hholds.retired]
  have hleased : Holds limits true false
      (input.setCursor { input.cursor with busy := true }) left :=
    ⟨hholds.limits, rfl, hholds.retired, hholds.unread.position, hholds.unread.eof,
      hholds.unread.left⟩
  have hrun := h hleased
  rw [bind_ok hbegin]
  unfold deferFailure
  split at hrun
  · obtain ⟨value, after, hrun, hfinal⟩ := hrun
    exact ⟨value, after, by rw [hrun], hfinal⟩
  · obtain ⟨after, hrun, -⟩ := hrun
    exact ⟨_, by rw [hrun], rfl, rfl⟩

theorem collectedBody_follows {budget : Nat} {request : Bool} {body : Body} :
    Follows ReadError.protocol (Opened limits retired shape budget request body)
      (fun value value' input left => value = value' ∧ Holds limits false retired input left)
      Reader.Closed (collectedBody body : Reading S E _)
      (Whole.body limits shape budget request) := by
  intro input left h
  have hspec := collectedBody_spec h.valid h.pulling h.holds
  rw [← h.rest]
  cases hrest : body.rest limits left with
  | error error =>
    rw [hrest] at hspec; exact hspec
  | ok result =>
    rw [hrest] at hspec
    obtain ⟨after, hrun, hholds⟩ := hspec
    exact ⟨result.1, after, hrun, rfl, hholds⟩

/-! ## Reads -/

/-- A read gives what the whole input starts with, and leaves the rest of it. -/
def ReadsMessage (limits : Limits) (ends : α → Bool) (read : Reading S E α)
    (parser : Parsing α) : Prop :=
  Follows ReadError.protocol (Holds limits false false)
    (fun value value' input left => value = value' ∧ Holds limits false (ends value) input left)
    Reader.Closed read parser

theorem readRequest_reads (hmaximum : 0 < chunkBytes) :
    ReadsMessage limits (fun _ => false) (readRequest chunkBytes : Reading S E _)
      (Whole.request limits) := by
  refine Follows.bind (leased_follows (openRequestLeased_spec hmaximum)) ?_
  rintro (_ | ⟨method, target, headers, body⟩) (_ | ⟨⟨method', target', headers'⟩, shape, budget⟩)
  · exact fun input _ h => ⟨none, input, rfl, rfl, h⟩
  · exact fun _ _ h => h.elim
  · exact fun _ _ h => h.elim
  · rintro input left ⟨⟨rfl, rfl, rfl⟩, hopened⟩
    refine Follows.bind collectedBody_follows ?_ hopened
    rintro ⟨contents, trailers⟩ _ input left ⟨rfl, h⟩
    exact ⟨_, input, rfl, rfl, h⟩

/-- Whether a response is the last one. -/
def tunnelled (method : Text) (response : Option Response) : Bool :=
  response.elim false fun value => tunnel method value.status

theorem readResponse_reads (method : Text) (hmaximum : 0 < chunkBytes) :
    ReadsMessage limits (tunnelled method) (readResponse method chunkBytes : Reading S E _)
      (Whole.response method limits) := by
  refine Follows.bind (leased_follows (openResponseLeased_spec method hmaximum)) ?_
  rintro (_ | ⟨status, reason, headers, body⟩) (_ | ⟨⟨status', reason', headers'⟩, shape, budget⟩)
  · exact fun input _ h => ⟨none, input, rfl, rfl, h⟩
  · exact fun _ _ h => h.elim
  · exact fun _ _ h => h.elim
  · rintro input left ⟨⟨rfl, rfl, rfl⟩, hopened⟩
    refine Follows.bind collectedBody_follows ?_ hopened
    rintro ⟨contents, trailers⟩ _ input left ⟨rfl, h⟩
    exact ⟨_, input, rfl, rfl, h⟩

/-! ## Reads one after another -/

namespace Whole

/-- The results on a whole input, of which nothing is left once it is closed. -/
def results (parser : Nat → Parsing α) (ends : Nat → α → Bool) :
    Nat → Nat → Option Bytes → List (Except ProtocolError α)
  | _, 0, _ => []
  | index, count + 1, none => .error .closed :: results parser ends (index + 1) count none
  | index, count + 1, some left =>
    match parser index left with
    | .error error => .error error :: results parser ends (index + 1) count none
    | .ok (value, rest) =>
      .ok value :: results parser ends (index + 1) count
        (if ends index value then none else some rest)

end Whole

def Standing (limits : Limits) (input : Reader S E) : Option Bytes → Prop
  | none => input.Closed
  | some left => Holds limits false false input left

/-- A closed reader stays closed. -/
def Refuses (read : Reading S E α) : Prop :=
  ∀ input, input.Closed → read input = (.error (.protocol .closed), input)

theorem leased_refuses {γ : Type} (program : Reading S E α) (f : α → Reading S E γ) :
    Refuses ((do begin; deferFailure retire program) >>= f) := by
  intro input hclosed
  have hbegin : begin input = (.error (.protocol .closed), input) := by
    simp [begin, hclosed.1, hclosed.2]
  exact bind_error (bind_error hbegin)

/-- The error as the reader gives it. -/
def ofProtocol : Except ProtocolError α → Except (ReadError E) α
  | .ok value => .ok value
  | .error error => .error (.protocol error)

/-- Reads one after another give what the octets say, whatever chunks they are in. -/
theorem results_eq {read : Nat → Reading S E α} {parser : Nat → Parsing α}
    {ends : Nat → α → Bool} (hreads : ∀ index, ReadsMessage limits (ends index) (read index)
      (parser index)) (hrefuses : ∀ index, Refuses (read index)) (count index : Nat)
    {standing : Option Bytes} (h : Standing limits input standing) :
    results read index count input =
      (Whole.results parser ends index count standing).map ofProtocol := by
  induction count generalizing index input standing with
  | zero => rfl
  | succ count ih =>
    cases standing with
    | none =>
      have hrun := hrefuses index input h
      simp only [results, hrun]; exact congrArg _ (ih (index + 1) h)
    | some left =>
      have hspec := hreads index h
      unfold Whole.results
      split at hspec
      · rename_i value rest hparser
        obtain ⟨found, after, hrun, rfl, hholds⟩ := hspec
        simp only [results, hparser, hrun]
        refine congrArg _ (ih (index + 1) ?_)
        cases hends : ends index found with
        | true =>
          rw [hends] at hholds; exact ⟨hholds.retired, hholds.busy⟩
        | false =>
          rw [hends] at hholds; exact hholds
      · rename_i error hparser
        obtain ⟨after, hrun, hclosed⟩ := hspec
        simp only [results, hparser, hrun]
        exact congrArg _ (ih (index + 1) hclosed)

theorem reader_standing (limits : Limits) (chunks : List Bytes) :
    Standing limits (reader chunks .ok limits : Reader Bytes E) (some chunks.flatten) :=
  ⟨rfl, rfl, rfl, Nat.zero_le _, nofun, chunks, rfl, rfl⟩

theorem readRequest_refuses (chunkBytes : Nat) : Refuses (readRequest chunkBytes : Reading S E _) :=
  leased_refuses (openRequestLeased chunkBytes) _

theorem readResponse_refuses (method : Text) (chunkBytes : Nat) :
    Refuses (readResponse method chunkBytes : Reading S E _) :=
  leased_refuses (openResponseLeased method chunkBytes) _

end

/-! ## How a sequence of reads ends -/

section
variable {α E : Type} {parser : Nat → Parsing (Option α)} {ends : Nat → Option α → Bool}

/-- The messages, and then their clean end, or one error and `Closed` from there on. -/
def said : List α → Option ProtocolError → Nat → Except ProtocolError (Option α)
  | [], none, _ => .ok none
  | [], some error, 0 => .error error
  | [], some _, _ + 1 => .error .closed
  | message :: _, _, 0 => .ok (some message)
  | _ :: messages, ending, index + 1 => said messages ending index

theorem said_closed (index : Nat) : said ([] : List α) (some .closed) index = .error .closed := by
  cases index <;> rfl

theorem range_map_succ {β : Type} (f : Nat → β) (count : Nat) :
    (range (count + 1)).map f = f 0 :: (range count).map fun index => f (index + 1) := by
  rw [range_succ_eq_map, map_cons, map_map]; rfl

theorem results_closed (index count : Nat) : Whole.results parser ends index count none =
      (range count).map (said ([] : List α) (some .closed)) := by
  induction count generalizing index with
  | zero => rfl
  | succ count ih =>
    rw [range_map_succ, Whole.results, ih]
    exact congrArg _ (map_congr_left fun index _ => said_closed index)

theorem results_end (hconsumes : ∀ index, Whole.Consumes Option.isSome (parser index))
    (hends : ∀ index, ends index none = false) (index count : Nat) :
    Whole.results parser ends index count (some []) =
      (range count).map (said ([] : List α) none) := by
  induction count generalizing index with
  | zero => rfl
  | succ count ih =>
    obtain ⟨value, hrun, habsent⟩ := (hconsumes index).nil
    obtain rfl := Option.not_isSome_iff_eq_none.mp (Bool.eq_false_iff.mp habsent)
    rw [range_map_succ, Whole.results, hrun]
    simp only [hends, Bool.false_eq_true, if_false, ih]; rfl

/-- Messages that are read back whatever follows them are read back one after another. -/
theorem results_messages (hconsumes : ∀ index, Whole.Consumes Option.isSome (parser index))
    (hends : ∀ index, ends index none = false) {encoded : List (Bytes × α)} {index : Nat}
    (h : ∀ (offset : Nat) (hoffset : offset < encoded.length) (rest : Bytes),
      parser (index + offset) (encoded[offset].1 ++ rest) = .ok (some encoded[offset].2, rest) ∧
        ends (index + offset) (some encoded[offset].2) = false) (count : Nat) :
    Whole.results parser ends index count (some (encoded.map Prod.fst).flatten) =
      (range count).map (said (encoded.map Prod.snd) none) := by
  induction encoded generalizing index count with
  | nil => exact results_end hconsumes hends index count
  | cons first encoded ih =>
    cases count with
    | zero => rfl
    | succ count =>
      have hlater : ∀ (offset : Nat) (hoffset : offset < encoded.length) (rest : Bytes),
          parser (index + 1 + offset) (encoded[offset].1 ++ rest) =
              .ok (some encoded[offset].2, rest) ∧
            ends (index + 1 + offset) (some encoded[offset].2) = false := by
        intro offset hoffset rest
        have hindex : index + 1 + offset = index + (offset + 1) := by omega
        rw [hindex]; exact h (offset + 1) (Nat.succ_lt_succ hoffset) rest
      obtain ⟨hrun, hopen⟩ := h 0 (Nat.succ_pos _) (encoded.map Prod.fst).flatten
      rw [range_map_succ, Whole.results, map_cons, flatten_cons]
      simp only [getElem_cons_zero, Nat.add_zero] at hrun hopen
      rw [hrun]
      simp only [hopen, Bool.false_eq_true, if_false, ih hlater]; rfl

/-- Every message takes octets, so the messages of an input end. -/
theorem results_said (hconsumes : ∀ index, Whole.Consumes Option.isSome (parser index))
    (hends : ∀ index, ends index none = false) (left : Bytes) (index : Nat) :
    ∃ messages ending, ∀ count, Whole.results parser ends index count (some left) =
      (range count).map (said messages ending) := by
  induction hlength : left.length using Nat.strongRecOn generalizing left index with
  | ind length ih =>
    subst hlength
    cases hrun : parser index left with
    | error error =>
      refine ⟨[], some error, fun count => ?_⟩
      cases count with
      | zero => rfl
      | succ count =>
        rw [range_map_succ, Whole.results, hrun]
        simp only [results_closed]
        exact congrArg _ (map_congr_left fun index _ => said_closed index)
    | ok result =>
      obtain ⟨_ | message, rest⟩ := result
      · -- The input is read to its end.
        obtain rfl := (hconsumes index).ended hrun rfl
        refine ⟨[], none, fun count => ?_⟩
        cases count with
        | zero => rfl
        | succ count =>
          rw [range_map_succ, Whole.results, hrun]
          simp only [hends, Bool.false_eq_true, if_false, results_end hconsumes hends]
          rfl
      · have hshorter := (hconsumes index).shorter hrun rfl
        have hrest : ∃ messages ending, ∀ count, Whole.results parser ends (index + 1) count
            (if ends index (some message) then none else some rest) =
              (range count).map (said messages ending) := by
          split
          · exact ⟨[], some .closed, results_closed (index + 1)⟩
          · exact ih rest.length hshorter rest (index + 1) rfl
        obtain ⟨messages, ending, hresults⟩ := hrest
        refine ⟨message :: messages, ending, fun count => ?_⟩
        cases count with
        | zero => rfl
        | succ count =>
          rw [range_map_succ, Whole.results, hrun]
          simp only [hresults]; rfl

end

/-! ## The octets alone decide -/

section
variable {E : Type}

/-- Reads give the same on all cuts of an input and in all sizes, and they end in a
clean end or in one error, after which there is only `Closed`. -/
theorem reads_independent (limits : Limits) (methods : Nat → Text) (first second : List Bytes)
    (sizes sizes' : Nat → Nat) (h : first.flatten = second.flatten)
    (hsizes : ∀ index, 0 < sizes index) (hsizes' : ∀ index, 0 < sizes' index) :
    ((∀ count, results (fun index => readRequest (sizes index)) 0 count
          (reader first .ok limits : Reader Bytes E) =
        results (fun index => readRequest (sizes' index)) 0 count
          (reader second .ok limits : Reader Bytes E)) ∧
      ∃ messages ending, ∀ count, results (fun index => readRequest (sizes index)) 0 count
          (reader first .ok limits : Reader Bytes E) =
        ((range count).map (said messages ending)).map ofProtocol) ∧
    ((∀ count, results (fun index => readResponse (methods index) (sizes index)) 0 count
          (reader first .ok limits : Reader Bytes E) =
        results (fun index => readResponse (methods index) (sizes' index)) 0 count
          (reader second .ok limits : Reader Bytes E)) ∧ ∃ messages ending, ∀ count,
        results (fun index => readResponse (methods index) (sizes index)) 0 count
          (reader first .ok limits : Reader Bytes E) =
        ((range count).map (said messages ending)).map ofProtocol) := by
  have hrequests (chunks : List Bytes) (sizes : Nat → Nat) (hsizes : ∀ index, 0 < sizes index)
      (count : Nat) := results_eq (E := E) (fun index => readRequest_reads (hsizes index))
    (fun index => readRequest_refuses (sizes index)) count 0 (reader_standing limits chunks)
  have hresponses (chunks : List Bytes) (sizes : Nat → Nat) (hsizes : ∀ index, 0 < sizes index)
      (count : Nat) := results_eq (E := E)
    (fun index => readResponse_reads (methods index) (hsizes index))
    (fun index => readResponse_refuses (methods index) (sizes index)) count 0
    (reader_standing limits chunks)
  refine ⟨⟨fun count => ?_, ?_⟩, fun count => ?_, ?_⟩
  · rw [hrequests first sizes hsizes, hrequests second sizes' hsizes', h]
  · obtain ⟨messages, ending, hresults⟩ := @results_said _ _ (fun _ _ => false)
      (fun _ => Whole.request_consumes limits) (fun _ => rfl) first.flatten 0
    exact ⟨messages, ending, fun count => by rw [hrequests first sizes hsizes, hresults]⟩
  · rw [hresponses first sizes hsizes, hresponses second sizes' hsizes', h]
  · obtain ⟨messages, ending, hresults⟩ := results_said
      (fun index => Whole.response_consumes (methods index) limits)
      (fun index => (rfl : tunnelled (methods index) none = false)) first.flatten 0
    exact ⟨messages, ending, fun count => by rw [hresponses first sizes hsizes, hresults]⟩

theorem reads_independent_pieces : results (fun _ => readRequest 1) 0 3
        (reader [text "GET / HTTP/1.1\r", [], text "\nHost: a\r\nContent-Length: 2\r\n\r\nhi"] .ok
          ⟨64, 256, 16⟩ : Reader Bytes Unit) = results (fun _ => readRequest 16384) 0 3
        (reader [text "GET / HTTP/1.1\r\nHost: a\r\nContent-Length: 2\r\n\r\nhi"] .ok
          ⟨64, 256, 16⟩ : Reader Bytes Unit) :=
  (reads_independent ⟨64, 256, 16⟩ (fun _ => text "GET") _ _ (fun _ => 1) (fun _ => 16384)
    (by decide) (fun _ => Nat.one_pos) (fun _ => by decide)).1.1 3

end

end Loom.Http
