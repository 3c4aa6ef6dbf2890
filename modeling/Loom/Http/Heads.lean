import Loom.Http.Emission

/-
  The heads of messages are read back as they were accepted.

  Whitespace around a value is dropped before it is written, so that it is read as
  it is. A message without a framing header gets one; the framing that the reader
  finds is then the one that the body is written by.
-/

namespace Loom.Http

open Relational Results List

variable {limits : Limits}

/-! ## Entries -/

/-- An entry as it is written and read. -/
def trimmed (entry : Header) : Header := ⟨entry.name, trim entry.value⟩

def Acceptable (entry : Header) : Prop :=
  validToken entry.name = true ∧ validField entry.value = true

variable {value : Bytes} {octet : UInt8} {entry : Header} {headers : List Header} {shape : Framing}
  {maximum : Nat} {result : Framing} {added : Header}

theorem field_colon {name : Bytes} (hname : validToken name = true) :
    field (name ++ 58 :: value) =
      if !validField (trim value) then .error .syntaxError else .ok ⟨name, trim value⟩ := by
  simp only [validToken, Bool.and_eq_true, Bool.not_eq_true', all_eq_true] at hname
  have hcolon : token 58 = false := by decide
  have htaken : (name ++ 58 :: value).takeWhile token = name := by
    rw [takeWhile_append_of_pos hname.2]; simp [hcolon]
  have hdropped : (name ++ 58 :: value).dropWhile token = 58 :: value := by
    rw [dropWhile_append_of_pos hname.2]; simp [hcolon]
  unfold field
  rw [htaken, hdropped]; simp [hname.1, Bool.false_eq_true]

theorem dropWhile_trim (value : Bytes) : (trim value).dropWhile ows = trim value := by
  cases htrim : trim value with
  | nil => rfl
  | cons first rest =>
    obtain ⟨after, hafter⟩ := rdropWhile_prefix ows (value.dropWhile ows)
    change trim value ++ after = value.dropWhile ows at hafter
    rw [htrim] at hafter
    have hfirst : ows first = false := by
      have hidempotent := dropWhile_idempotent ows value
      rw [← hafter] at hidempotent
      simpa using hidempotent
    rw [dropWhile_cons, if_neg (by simp [hfirst])]

theorem trim_trim (value : Bytes) : trim (trim value) = trim value := by
  rw [trim, dropWhile_trim]; exact rdropWhile_idempotent ows _

theorem trim_space (value : Bytes) : trim (32 :: value) = trim value := by
  have hspace : ows 32 = true := by decide
  simp [trim, hspace]

theorem trim_subset (h : octet ∈ trim value) : octet ∈ value :=
  (dropWhile_sublist ows).subset (( rdropWhile_prefix ows _).sublist.subset h)

theorem validField_trim (h : validField value = true) : validField (trim value) = true :=
  all_eq_true.mpr fun _ hmem => all_eq_true.mp h _ (trim_subset hmem)

theorem token_plain (h : token octet = true) : octet ≠ 10 ∧ octet ≠ 13 := by
  constructor
  all_goals
    rintro rfl
    exact absurd h (by decide)

theorem fieldOctet_plain (h : fieldOctet octet = true) : octet ≠ 10 ∧ octet ≠ 13 := by
  constructor
  all_goals
    rintro rfl
    exact absurd h (by decide)

theorem trimmed_written (h : Acceptable entry) : Written (trimmed entry) := by
  have hline : fieldLine (trimmed entry) = entry.name ++ 58 :: (32 :: trim entry.value) := by
    simp [fieldLine, trimmed, text_separator]
  refine ⟨?_, ?_⟩
  · rw [hline, field_colon h.1, trim_space, trim_trim, validField_trim h.2]; rfl
  · rw [hline]
    have hname := h.1
    simp only [validToken, Bool.and_eq_true, all_eq_true] at hname
    refine plain_append (fun octet hmem => token_plain (hname.2 octet hmem)) ?_
    intro octet hmem
    obtain rfl | rfl | hmem : octet = 58 ∨ octet = 32 ∨ octet ∈ trim entry.value := by
      simpa using hmem
    · decide
    · decide
    · exact fieldOctet_plain (all_eq_true.mp (validField_trim h.2) octet hmem)

theorem snapshotFrom_ok {remaining : Nat} {output : List Header}
    (h : snapshotFrom limits remaining headers = .ok output) :
    output = headers.map trimmed ∧ ∀ entry ∈ headers, Acceptable entry := by
  induction headers generalizing remaining output with
  | nil =>
    cases h
    exact ⟨rfl, nofun⟩
  | cons entry rest ih =>
    unfold snapshotFrom at h
    simp only at h
    split at h
    · cases h
    · split at h
      · cases h
      · split at h
        · cases h
        · rename_i hvalid
          obtain ⟨hname, hvalue⟩ : validToken entry.name = true ∧ validField entry.value = true := by
            simpa using hvalid
          obtain ⟨first, hfield, h⟩ := bind_eq_ok.mp h
          obtain ⟨later, hrest, h⟩ := bind_eq_ok.mp h
          cases h
          obtain ⟨rfl, hlater⟩ := ih hrest
          have hcolon : text ":" = [58] := by decide
          rw [hcolon, append_assoc, singleton_append, field_colon hname,
            validField_trim hvalue] at hfield
          cases hfield
          refine ⟨rfl, fun other hmem => ?_⟩
          obtain rfl | hmem := mem_cons.mp hmem
          · exact ⟨hname, hvalue⟩
          · exact hlater other hmem

/-- A snapshot has the entries without the whitespace around their values. -/
theorem snapshot_ok {output : List Header} (h : snapshot headers limits = .ok output) :
    output = headers.map trimmed ∧ ∀ entry ∈ output, Written entry := by
  obtain ⟨rfl, haccepted⟩ := snapshotFrom_ok h
  refine ⟨rfl, fun entry hmem => ?_⟩
  obtain ⟨given, hgiven, rfl⟩ := mem_map.mp hmem
  exact trimmed_written (haccepted given hgiven)

/-! ## Framing -/

/-- Whether an entry says how long the body is. -/
def isFraming (entry : Header) : Bool :=
  named entry.name (text "content-length") || named entry.name (text "transfer-encoding")

def Framing.framed (shape : Framing) : Bool := shape.size.isSome || shape.chunked

theorem framingFrom_append (maximum : Nat) (shape : Framing) (first second : List Header) :
    framingFrom maximum shape (first ++ second) =
      match framingFrom maximum shape first with
      | .error error => .error error
      | .ok shape => framingFrom maximum shape second := by
  induction first generalizing shape with
  | nil => rfl
  | cons entry first ih =>
    simp only [cons_append, framingFrom]
    split
    · split
      · rfl
      · split
        · rfl
        · exact ih _
    · split
      · split
        · rfl
        · split
          · rfl
          · exact ih _
      · exact ih _

theorem framing_append {first second : List Header} (h : framing first maximum = .ok shape) :
    framing (first ++ second) maximum = framingFrom maximum shape second := by
  unfold framing at h ⊢
  rw [framingFrom_append, h]

theorem framed_iff (h : framingFrom maximum shape headers = .ok result) :
    result.framed = (shape.framed || headers.any isFraming) := by
  fun_induction framingFrom maximum shape headers with
  | case1 shape =>
    cases h
    simp
  | case4 shape entry rest hname _ size _ ih =>
    calc result.framed = _ := ih h
      _ = (shape.framed || (entry :: rest).any isFraming) := by
        simp [isFraming, hname, Framing.framed]
  | case7 shape entry rest _ hname _ _ ih =>
    calc result.framed = _ := ih h
      _ = (shape.framed || (entry :: rest).any isFraming) := by
        simp [isFraming, hname, Framing.framed]
  | case8 shape entry rest hname hname' ih => simp [ih h, isFraming, hname, hname']
  | _ => cases h

/-- A size that was found stays, as another one would be refused. -/
theorem framingFrom_size {size : Nat} (h : framingFrom maximum shape headers = .ok result)
    (hsize : shape.size = some size) : result.size = some size := by
  fun_induction framingFrom maximum shape headers with
  | case1 shape =>
    cases h
    exact hsize
  | case4 shape _ _ _ hframed _ _ _ => simp [hsize] at hframed
  | case7 shape _ _ _ _ _ _ ih => exact ih h hsize
  | case8 shape _ _ _ _ ih => exact ih h hsize
  | _ => cases h

theorem framing_declared (h : framingFrom maximum shape headers = .ok result)
    (hmem : entry ∈ headers) (hname : named entry.name (text "content-length") = true) :
    ∃ size, number entry.value 10 maximum = .ok size ∧ result.size = some size := by
  fun_induction framingFrom maximum shape headers with
  | case1 => cases hmem
  | case4 shape first rest _ _ size hnumber ih =>
    obtain rfl | hmem := mem_cons.mp hmem
    · exact ⟨size, hnumber, framingFrom_size h rfl⟩
    · exact ih h hmem
  | case7 shape first rest hother _ _ _ ih =>
    obtain rfl | hmem := mem_cons.mp hmem
    · exact absurd hname hother
    · exact ih h hmem
  | case8 shape first rest hother _ ih =>
    obtain rfl | hmem := mem_cons.mp hmem
    · exact absurd hname hother
    · exact ih h hmem
  | _ => cases h

/-- The headers, with one that frames the body where none of them does. -/
def framedBy (added : Header) (headers : List Header) : List Header :=
  if headers.any isFraming then headers else headers ++ [added]

theorem framedBy_lines (start : Bytes) (added : Header) (headers : List Header) :
    start :: fieldLines (framedBy added headers) = [start] ++ (headers.map fieldLine ++
        ((if !headers.any isFraming then [fieldLine added] else []) ++ [[]])) := by
  unfold fieldLines framedBy
  cases headers.any isFraming with
  | true => rfl
  | false => simp

theorem framedBy_written (hadded : Written added) (h : ∀ entry ∈ headers, Written entry) :
    ∀ entry ∈ framedBy added headers, Written entry := by
  intro entry hmem
  unfold framedBy at hmem
  split at hmem
  · exact h entry hmem
  · obtain hmem | hmem := mem_append.mp hmem
    · exact h entry hmem
    · obtain rfl := mem_singleton.mp hmem
      exact hadded

theorem framedBy_hosts (hadded : named added.name (text "host") = false) (headers : List Header) :
    hosts (framedBy added headers) = hosts headers := by
  unfold framedBy hosts
  split
  · rfl
  · simp [hadded]

theorem subset_framedBy (h : entry ∈ headers) : entry ∈ framedBy added headers := by
  unfold framedBy
  split
  · exact h
  · exact mem_append_left _ h

theorem framedBy_framing (h : framing headers maximum = .ok shape)
    (hadded : framingFrom maximum ⟨none, false⟩ [added] = .ok result) :
    framing (framedBy added headers) maximum = .ok (if shape.framed then shape else result) ∧
      shape.framed = headers.any isFraming := by
  have hframed : shape.framed = headers.any isFraming := by simpa [Framing.framed] using framed_iff h
  refine ⟨?_, hframed⟩
  unfold framedBy
  cases hany : headers.any isFraming with
  | true =>
    rw [if_pos rfl, hframed, hany, if_pos rfl, h]
  | false =>
    have hshape : shape = ⟨none, false⟩ := by
      obtain ⟨size, chunked⟩ := shape
      obtain ⟨hsize, rfl⟩ := Bool.or_eq_false_iff.mp (hframed.trans hany)
      obtain rfl := Option.not_isSome_iff_eq_none.mp (Bool.eq_false_iff.mp hsize)
      rfl
    rw [if_neg Bool.false_ne_true, framing_append h, hshape, hadded]; rfl

/-! ## Start lines -/

theorem append_space {first first' second second' : Bytes} (h : 32 ∉ first') (h' : 32 ∉ second')
    (heq : first ++ 32 :: second = first' ++ 32 :: second') : first = first' ∧ second = second' := by
  obtain ⟨middle, hfirst, hsecond⟩ | ⟨middle, hfirst, hsecond⟩ := append_eq_append_iff.mp heq
  · cases middle with
    | nil => exact ⟨by simpa using hfirst.symm, by simpa using hsecond⟩
    | cons octet middle =>
      cases hsecond
      exact absurd (hfirst ▸ mem_append_right _ (.head _)) h
  · cases middle with
    | nil => exact ⟨by simpa using hfirst, by simpa using hsecond.symm⟩
    | cons octet middle =>
      cases hsecond
      exact absurd (mem_append_right _ (.head _)) h'

theorem visible_plain (h : visible octet = true) : octet ≠ 10 ∧ octet ≠ 13 := by
  constructor
  all_goals
    rintro rfl
    exact absurd h (by decide)

def requestStart (method target : Text) : Bytes :=
  method ++ text " " ++ target ++ text " HTTP/1.1"

/-- Nothing in a method or a target shifts the two, as neither has a space. -/
theorem requestStart_ok {method target method' target' : Text}
    (h : requestLine (requestStart method target) = .ok (method', target')) :
    method' = method ∧ target' = target ∧ Plain (requestStart method target) ∧
      requestStart method target ≠ [] := by
  obtain ⟨hstart, -, -, hmethod, htarget⟩ := requestLine_eq h
  have hspace : text " " = [32] := by decide
  have hversion : text " HTTP/1.1" = 32 :: text "HTTP/1.1" := by decide
  have hplain : Plain (text "HTTP/1.1") := by
    unfold Plain; set_option maxRecDepth 4000 in decide
  have hmethod' : 32 ∉ method' := fun hmem => absurd (hmethod 32 hmem) (by decide)
  have htarget' : 32 ∉ target' := fun hmem => absurd (htarget 32 hmem) (by decide)
  have hline : (method ++ 32 :: target) ++ 32 :: text "HTTP/1.1" =
      (method' ++ 32 :: target') ++ 32 :: text "HTTP/1.1" := by
    calc (method ++ 32 :: target) ++ 32 :: text "HTTP/1.1" = requestStart method target := by
          simp [requestStart, hspace, hversion]
      _ = (method' ++ 32 :: target') ++ 32 :: text "HTTP/1.1" := by
          rw [hstart]; simp
  obtain ⟨rfl, rfl⟩ := append_space hmethod' htarget' (append_cancel_right hline)
  refine ⟨rfl, rfl, ?_, ?_⟩
  · rw [hstart]
    refine plain_append (fun octet hmem => token_plain (hmethod octet hmem)) ?_
    intro octet hmem
    obtain rfl | hmem := mem_cons.mp hmem
    · decide
    obtain hmem | hmem := mem_append.mp hmem
    · exact visible_plain (htarget octet hmem)
    obtain rfl | hmem := mem_cons.mp hmem
    · decide
    · exact hplain octet hmem
  · rw [hstart]; simp

/-- The head that a request is accepted with. -/
theorem requestFields_ok {method target : Text} {fields : List Header} {start : Bytes}
    (h : requestFields method target fields limits = .ok (start, headers)) :
    start = requestStart method target ∧ requestLine start = .ok (method, target) ∧
      headers = fields.map trimmed ∧ (∀ entry ∈ headers, Written entry) ∧ hosts headers = 1 := by
  obtain ⟨⟨method', target'⟩, hline, h⟩ := bind_eq_ok.mp h
  obtain ⟨headers', hheaders, h⟩ := bind_eq_ok.mp h
  split at h
  · cases h
  rename_i hhosts
  cases h
  obtain ⟨hmethod, htarget, -, -⟩ := requestStart_ok hline
  obtain ⟨hsame, hwritten⟩ := snapshot_ok hheaders
  subst hmethod htarget; exact ⟨rfl, hline, hsame, hwritten, not_not.mp hhosts⟩

/-! ## Heads -/

section
variable {left : Nat} {rest : Bytes} {start : Bytes} {headers : List Header} {shape : Framing}

def headLines (start : Bytes) (headers : List Header) : List Bytes := start :: fieldLines headers

theorem headLines_plain (hstart : Plain start) (h : ∀ entry ∈ headers, Written entry) :
    ∀ value ∈ headLines start headers, Plain value := by
  intro value hmem
  obtain rfl | hmem := mem_cons.mp hmem
  · exact hstart
  · exact fieldLines_plain h value hmem

theorem head_split (left : Nat) (rest start : Bytes) (headers : List Header) :
    left + (wire (headLines start headers)).length =
        left + (wire (fieldLines headers)).length + (wire [start]).length ∧
      wire (headLines start headers) ++ rest =
        wire [start] ++ (wire (fieldLines headers) ++ rest) := by
  have hlines : headLines start headers = [start] ++ fieldLines headers := rfl
  rw [hlines, wire_append, length_append, append_assoc]; exact ⟨by omega, rfl⟩

variable {method : Text}

theorem protocol_ok {α : Type} (value : α) (rest : Bytes) :
    (Whole.protocol (.ok value) : Parsing α) rest = .ok (value, rest) := rfl

theorem requestHead_wire {target : Text} (hstart : requestLine start = .ok (method, target))
    (hne : start ≠ []) (hfit : Fit limits (headLines start headers))
    (hwritten : ∀ entry ∈ headers, Written entry) (hhosts : hosts headers = 1)
    (hshape : framing headers limits.bodyBytes = .ok shape)
    (hbudget : limits.metadataBytes = left + (wire (headLines start headers)).length) :
    Whole.requestHead limits (wire (headLines start headers) ++ rest) =
      .ok (some ((method, target, headers), shape, left), rest) := by
  obtain ⟨hcount, hinput⟩ := head_split left rest start headers
  have hline : Whole.firstLine limits
      (left + (wire (fieldLines headers)).length + (wire [start]).length)
      (wire [start] ++ (wire (fieldLines headers) ++ rest)) =
        .ok ((some start, left + (wire (fieldLines headers)).length),
          wire (fieldLines headers) ++ rest) := firstLine_wire hfit.head hne
  unfold Whole.requestHead
  rw [hbudget, hcount, hinput, parse_ok hline]
  simp only [hstart]
  rw [parse_ok (protocol_ok _ _)]
  rw [parse_ok (fields_wire hfit.tail hwritten (show false = true → _ from nofun))]
  simp only [hhosts, hshape]; rfl

theorem responseHead_wire {status : Nat} {reason : Bytes}
    (hstart : statusLine start = .ok (status, reason)) (hfit : Fit limits (headLines start headers))
    (hwritten : ∀ entry ∈ headers, Written entry)
    (hshape : responseShape method status headers limits.bodyBytes = .ok shape)
    (hbudget : limits.metadataBytes = left + (wire (headLines start headers)).length) :
    Whole.responseHead method limits (wire (headLines start headers) ++ rest) =
      .ok (some ((status, reason, headers), shape, left), rest) := by
  obtain ⟨hcount, hinput⟩ := head_split left rest start headers
  have hline : Whole.line limits (left + (wire (fieldLines headers)).length + (wire [start]).length)
      (wire [start] ++ (wire (fieldLines headers) ++ rest)) =
        .ok ((some start, left + (wire (fieldLines headers)).length),
          wire (fieldLines headers) ++ rest) := line_wire hfit.head
  unfold Whole.responseHead
  rw [hbudget, hcount, hinput, parse_ok hline]
  simp only [hstart]
  rw [parse_ok (protocol_ok _ _)]
  rw [parse_ok (fields_wire hfit.tail hwritten (show false = true → _ from nofun))]
  simp only [hshape]; rfl

theorem response_of_head {input middle : Bytes} {status : Nat} {reason : Bytes} {contents : Bytes}
    {trailers : List Header} (hhead : Whole.responseHead method limits input =
      .ok (some ((status, reason, headers), shape, left), middle))
    (hbody : Whole.body limits shape left false middle = .ok ((contents, trailers), rest)) :
    Whole.response method limits input =
      .ok (some ⟨status, reason, headers, contents, trailers⟩, rest) := by
  unfold Whole.response
  rw [parse_ok hhead]
  simp only
  rw [parse_ok hbody]; rfl

theorem request_of_head {input middle : Bytes} {target : Text} {contents : Bytes}
    {trailers : List Header} (hhead : Whole.requestHead limits input =
      .ok (some ((method, target, headers), shape, left), middle))
    (hbody : Whole.body limits shape left true middle = .ok ((contents, trailers), rest)) :
    Whole.request limits input = .ok (some ⟨method, target, headers, contents, trailers⟩, rest) := by
  unfold Whole.request
  rw [parse_ok hhead]
  simp only
  rw [parse_ok hbody]; rfl

end

end Loom.Http
