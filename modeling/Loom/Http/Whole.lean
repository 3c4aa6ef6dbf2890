import Loom.Http.Reader
import Loom.Library.Relational

/-
  HTTP/1.1 messages at the front of an input that is there as a whole.

  This is what the reader is for, said without chunks, cursors or leases: a line
  ends at the first CRLF, a body is as long as its framing says, and a message
  leaves the rest of the input to the next one. The quotas are part of it: every
  octet of a line counts against the budget of its message.
-/

namespace Loom.Http

open Relational Prod

abbrev Parsing (α : Type) := Parser ProtocolError Bytes α

namespace Whole

variable {α : Type}

def failed (error : ProtocolError) : Parsing α := fun _ => .error error

def protocol (value : Except ProtocolError α) : Parsing α := fun left =>
  match value with
  | .ok value => .ok (value, left)
  | .error error => .error error

def line (limits : Limits) (budget : Nat) : Parsing (Option Bytes × Nat) := fun left =>
  match scan limits.lineBytes budget false [] left with
  | .failed error => .error error
  | .line budget output rest => .ok ((some output, budget), rest)
  | .more budget carriage output =>
    if carriage || !output.isEmpty then .error .truncated else .ok ((none, budget), [])

def requiredLine (limits : Limits) (budget : Nat) : Parsing (Bytes × Nat) := fun left =>
  match line limits budget left with
  | .error error => .error error
  | .ok ((some value, budget), rest) => .ok ((value, budget), rest)
  | .ok ((none, _), _) => .error .truncated

variable {value left rest : Bytes} {limits : Limits} {budget after : Nat}

theorem line_budget (h : line limits budget left = .ok ((some value, after), rest)) :
    after < budget := by
  have hbudget := scan_budget limits.lineBytes budget false [] left
  unfold line at h
  split at h
  · cases h
  · rename_i hscan
    rw [hscan] at hbudget
    obtain ⟨-, rfl⟩ := mk.inj (mk.inj (Except.ok.inj h)).1
    exact hbudget
  · split at h
    · cases h
    · cases (mk.inj (mk.inj (Except.ok.inj h)).1).1

theorem requiredLine_budget (h : requiredLine limits budget left = .ok ((value, after), rest)) :
    after < budget := by
  unfold requiredLine at h
  split at h
  · cases h
  · rename_i hline
    obtain ⟨-, rfl⟩ := mk.inj (mk.inj (Except.ok.inj h)).1
    exact line_budget hline
  · cases h

def fieldsLoop (limits : Limits) (trailers : Bool) (budget : Nat) (output : List Header) :
    Parsing (List Header × Nat) := fun left =>
  match _h : requiredLine limits budget left with
  | .error error => .error error
  | .ok ((next, after), rest) =>
    if next.isEmpty then .ok ((output, after), rest)
    else
      match field next with
      | .error error => .error error
      | .ok entry =>
        if trailers && !trailer entry then .error .framing
        else fieldsLoop limits trailers after (output ++ [entry]) rest
termination_by budget
decreasing_by exact requiredLine_budget _h

theorem fieldsLoop_error {trailers : Bool} {output : List Header} {error : ProtocolError}
    (h : requiredLine limits budget left = .error error) :
    fieldsLoop limits trailers budget output left = .error error := by
  rw [fieldsLoop]
  split
  · rename_i h'
    rw [h] at h'
    rw [Except.error.inj h']
  · rename_i h'
    rw [h] at h'
    cases h'

theorem fieldsLoop_ok {trailers : Bool} {output : List Header} {next : Bytes}
    (h : requiredLine limits budget left = .ok ((next, after), rest)) :
    fieldsLoop limits trailers budget output left =
      if next.isEmpty then .ok ((output, after), rest)
      else
        match field next with
        | .error error => .error error
        | .ok entry =>
          if trailers && !trailer entry then .error .framing
          else fieldsLoop limits trailers after (output ++ [entry]) rest := by
  rw [fieldsLoop]
  split
  · rename_i h'
    rw [h] at h'
    cases h'
  · rename_i h'
    rw [h] at h'
    obtain ⟨hresult, rfl⟩ := mk.inj (Except.ok.inj h')
    cases hresult
    rfl

def fields (limits : Limits) (budget : Nat) (trailers : Bool) : Parsing (List Header × Nat) :=
  fieldsLoop limits trailers budget []

def firstLine (limits : Limits) (budget : Nat) : Parsing (Option Bytes × Nat) := fun left =>
  match _h : line limits budget left with
  | .error error => .error error
  | .ok ((none, after), rest) => .ok ((none, after), rest)
  | .ok ((some value, after), rest) =>
    if value.isEmpty then firstLine limits after rest else .ok ((some value, after), rest)
termination_by budget
decreasing_by exact line_budget _h

theorem firstLine_eq (limits : Limits) (budget : Nat) (left : Bytes) :
    firstLine limits budget left =
      match line limits budget left with
      | .error error => .error error
      | .ok ((none, after), rest) => .ok ((none, after), rest)
      | .ok ((some value, after), rest) =>
        if value.isEmpty then firstLine limits after rest else .ok ((some value, after), rest) := by
  rw [firstLine]
  split <;> simp_all only []

def take (size : Nat) : Parsing Bytes := fun left =>
  if left.length < size then .error .truncated else .ok (left.take size, left.drop size)

/-- The line after the data of a chunk. -/
def terminator (limits : Limits) (budget : Nat) : Parsing Nat := fun left =>
  match requiredLine limits budget left with
  | .error error => .error error
  | .ok ((next, after), rest) => if !next.isEmpty then .error .syntaxError else .ok (after, rest)

theorem terminator_budget (h : terminator limits budget left = .ok (after, rest)) :
    after < budget := by
  unfold terminator at h
  split at h
  · cases h
  · rename_i hline
    split at h
    · cases h
    · cases h
      exact requiredLine_budget hline

/-- The chunks of a body of which `total` octets are read, and the trailers. -/
def chunks (limits : Limits) (budget total : Nat) : Parsing (Bytes × List Header) := fun left =>
  match _h : requiredLine limits budget left with
  | .error error => .error error
  | .ok ((next, after), rest) =>
    match chunkSize next (limits.bodyBytes - total) with
    | .error error => .error error
    | .ok size =>
      if size = 0 then
        match fields limits after true rest with
        | .error error => .error error
        | .ok ((trailers, _), rest) => .ok (([], trailers), rest)
      else
        match take size rest with
        | .error error => .error error
        | .ok (data, rest) =>
          match _h' : terminator limits after rest with
          | .error error => .error error
          | .ok (left, rest) =>
            match chunks limits left (total + size) rest with
            | .error error => .error error
            | .ok ((output, trailers), rest) => .ok ((data ++ output, trailers), rest)
termination_by budget
decreasing_by exact Nat.lt_trans (terminator_budget _h') (requiredLine_budget _h)

def chunkRest (limits : Limits) (budget total size : Nat) : Parsing (Bytes × List Header) :=
  fun left =>
    match take size left with
    | .error error => .error error
    | .ok (data, rest) =>
      match terminator limits budget rest with
      | .error error => .error error
      | .ok (after, rest) =>
        match chunks limits after (total + size) rest with
        | .error error => .error error
        | .ok ((output, trailers), rest) => .ok ((data ++ output, trailers), rest)

theorem chunks_eq (limits : Limits) (budget total : Nat) (left : Bytes) :
    chunks limits budget total left =
      match requiredLine limits budget left with
      | .error error => .error error
      | .ok ((next, after), rest) =>
        match chunkSize next (limits.bodyBytes - total) with
        | .error error => .error error
        | .ok size =>
          if size = 0 then
            match fields limits after true rest with
            | .error error => .error error
            | .ok ((trailers, _), rest) => .ok (([], trailers), rest)
          else chunkRest limits after total size rest := by
  rw [chunks]
  split
  · rename_i hline
    rw [hline]
  · rename_i hline
    rw [hline]
    simp only
    split
    · rfl
    · split
      · rfl
      · unfold chunkRest
        split
        · rfl
        · split <;> simp_all only []

/-- A body that ends with the input. -/
def remainder (maximum : Nat) : Parsing Bytes := fun left =>
  if maximum < left.length then .error .limit else .ok (left, [])

def body (limits : Limits) (shape : Framing) (budget : Nat) (request : Bool) :
    Parsing (Bytes × List Header) :=
  if shape.chunked then chunks limits budget 0
  else
    match shape.size with
    | some size => (·, []) <$> take size
    | none => if request then pure ([], []) else (·, []) <$> remainder limits.bodyBytes

/-- A request up to its body: what is known of it, its framing and the budget left. -/
def requestHead (limits : Limits) :
    Parsing (Option ((Text × Text × List Header) × Framing × Nat)) := do
  match ← firstLine limits limits.metadataBytes with
  | (none, _) => pure none
  | (some value, budget) =>
    let (method, target) ← protocol (requestLine value)
    let (headers, budget) ← fields limits budget false
    if hosts headers ≠ 1 then failed .framing
    else
      let shape ← protocol (framing headers limits.bodyBytes)
      pure (some ((method, target, headers), shape, budget))

def request (limits : Limits) : Parsing (Option Request) := do
  match ← requestHead limits with
  | none => pure none
  | some ((method, target, headers), shape, budget) =>
    let (contents, trailers) ← body limits shape budget true
    pure (some ⟨method, target, headers, contents, trailers⟩)

def responseHead (method : Text) (limits : Limits) :
    Parsing (Option ((Nat × Bytes × List Header) × Framing × Nat)) := do
  match ← line limits limits.metadataBytes with
  | (none, _) => pure none
  | (some value, budget) =>
    let (status, reason) ← protocol (statusLine value)
    let (headers, budget) ← fields limits budget false
    let shape ← protocol (responseShape method status headers limits.bodyBytes)
    pure (some ((status, reason, headers), shape, budget))

def response (method : Text) (limits : Limits) : Parsing (Option Response) := do
  match ← responseHead method limits with
  | none => pure none
  | some ((status, reason, headers), shape, budget) =>
    let (contents, trailers) ← body limits shape budget false
    pure (some ⟨status, reason, headers, contents, trailers⟩)

/-! ## What a message leaves -/

theorem scan_length {maximum : Nat} {carriage : Bool} {output part result : Bytes}
    (h : scan maximum budget carriage output part = .line after result rest) :
    rest.length < part.length := by
  induction part generalizing budget carriage output with
  | nil => cases h
  | cons next part ih =>
    unfold scan at h
    split_ifs at h
    · obtain ⟨-, -, rfl⟩ := Scanned.line.inj h
      exact Nat.lt_succ_self _
    all_goals exact Nat.lt_succ_of_lt (ih h)

/-- A part of a line is not forgotten. -/
theorem scan_more {maximum : Nat} {carriage carriage' : Bool} {output output' part : Bytes}
    (h : scan maximum budget carriage output part = .more after carriage' output') :
    (carriage = true → carriage' = true) ∧ output.length ≤ output'.length := by
  induction part generalizing budget carriage output with
  | nil =>
    obtain ⟨-, rfl, rfl⟩ := Scanned.more.inj h
    exact ⟨id, le_rfl⟩
  | cons next part ih =>
    unfold scan at h
    split_ifs at h
    · obtain ⟨hcarriage, hlength⟩ := ih h
      exact ⟨fun _ => hcarriage rfl, hlength⟩
    · obtain ⟨hcarriage, hlength⟩ := ih h
      rw [List.length_append] at hlength; exact ⟨hcarriage, by omega⟩

theorem line_length (h : line limits budget left = .ok ((some value, after), rest)) :
    rest.length < left.length := by
  unfold line at h
  split at h
  · cases h
  · rename_i hscan
    obtain ⟨-, rfl⟩ := mk.inj (Except.ok.inj h)
    exact scan_length hscan
  · split at h
    · cases h
    · cases (mk.inj (mk.inj (Except.ok.inj h)).1).1

theorem line_none (h : line limits budget left = .ok ((none, after), rest)) :
    left = [] ∧ rest = [] := by
  unfold line at h
  split at h
  · cases h
  · cases (mk.inj (mk.inj (Except.ok.inj h)).1).1
  · rename_i budget carriage output hscan
    split at h
    · cases h
    · rename_i hempty
      obtain ⟨-, rfl⟩ := mk.inj (Except.ok.inj h)
      simp only [Bool.or_eq_true, Bool.not_eq_true', List.isEmpty_eq_false_iff, not_or, not_not,
        Bool.not_eq_true] at hempty
      obtain ⟨rfl, rfl⟩ := hempty
      refine ⟨?_, rfl⟩
      -- An octet would have left its trace in the flag or in the output.
      cases left with
      | nil => rfl
      | cons next left =>
        unfold scan at hscan
        split_ifs at hscan
        · cases (scan_more hscan).1 rfl
        · have := (scan_more hscan).2
          simp at this

theorem requiredLine_length (h : requiredLine limits budget left = .ok ((value, after), rest)) :
    rest.length < left.length := by
  unfold requiredLine at h
  split at h
  · cases h
  · rename_i hline
    obtain ⟨-, rfl⟩ := mk.inj (Except.ok.inj h)
    exact line_length hline
  · cases h

/-- What a parser leaves is no longer than what it was given. -/
def Shrinks (parser : Parsing α) : Prop :=
  ∀ ⦃left value rest⦄, parser left = .ok (value, rest) → rest.length ≤ left.length

theorem fieldsLoop_shrinks (limits : Limits) (trailers : Bool) (budget : Nat)
    (output : List Header) : Shrinks (fieldsLoop limits trailers budget output) := by
  intro left result rest h
  fun_induction fieldsLoop limits trailers budget output left with
  | case2 _ _ _ _ _ _ hline =>
    obtain ⟨-, rfl⟩ := mk.inj (Except.ok.inj h)
    exact (requiredLine_length hline).le
  | case5 _ _ _ _ _ _ hline _ _ _ _ ih => exact (ih h).trans (requiredLine_length hline).le
  | _ => cases h

theorem fields_shrinks (limits : Limits) (budget : Nat) (trailers : Bool) :
    Shrinks (fields limits budget trailers) :=
  fieldsLoop_shrinks limits trailers budget []

theorem protocol_shrinks (value : Except ProtocolError α) : Shrinks (protocol value) := by
  intro left result rest h
  cases value with
  | error error => cases h
  | ok value =>
    obtain ⟨-, rfl⟩ := mk.inj (Except.ok.inj h)
    exact le_rfl

theorem take_shrinks (size : Nat) : Shrinks (take size) := by
  intro left result rest h
  unfold take at h
  split at h
  · cases h
  · obtain ⟨-, rfl⟩ := mk.inj (Except.ok.inj h)
    exact (List.drop_suffix _ _).length_le

theorem terminator_shrinks (limits : Limits) (budget : Nat) :
    Shrinks (terminator limits budget) := by
  intro left result rest h
  unfold terminator at h
  split at h
  · cases h
  · rename_i hline
    split at h
    · cases h
    · obtain ⟨-, rfl⟩ := mk.inj (Except.ok.inj h)
      exact (requiredLine_length hline).le

theorem chunks_shrinks (limits : Limits) (budget total : Nat) :
    Shrinks (chunks limits budget total) := by
  intro left result rest h
  fun_induction chunks limits budget total left generalizing result rest with
  | case4 _ _ _ _ _ _ hline _ _ _ hfields =>
    obtain ⟨-, rfl⟩ := mk.inj (Except.ok.inj h)
    exact (fields_shrinks limits _ true hfields).trans (requiredLine_length hline).le
  | case8 _ _ left _ _ afterSize hline _ _ _ _ afterData htake _ afterLine hterminator
      _ _ _ hrest ih =>
    obtain ⟨-, rfl⟩ := mk.inj (Except.ok.inj h)
    calc _ ≤ afterLine.length := ih hrest
      _ ≤ afterData.length := terminator_shrinks limits _ hterminator
      _ ≤ afterSize.length := take_shrinks _ htake
      _ ≤ left.length := (requiredLine_length hline).le
  | _ => cases h

theorem Shrinks.bind {β : Type} {parser : Parsing α} {g : α → Parsing β} (h : Shrinks parser)
    (hnext : ∀ value, Shrinks (g value)) : Shrinks (parser >>= g) := by
  intro left result rest hrun
  obtain ⟨value, middle, hfirst, hsecond⟩ := parse_bind_ok hrun
  exact (hnext value hsecond).trans (h hfirst)

theorem pure_shrinks (value : α) : Shrinks (pure value : Parsing α) := by
  intro left result rest h
  obtain ⟨-, rfl⟩ := mk.inj (Except.ok.inj h)
  exact le_rfl

theorem failed_shrinks (error : ProtocolError) : Shrinks (failed error : Parsing α) :=
  fun _ _ _ h => nomatch h

theorem Shrinks.map {β : Type} {parser : Parsing α} (h : Shrinks parser) (f : α → β) :
    Shrinks (f <$> parser) := by
  exact h.bind fun value => pure_shrinks (f value)

theorem remainder_shrinks (maximum : Nat) : Shrinks (remainder maximum) := by
  intro left result rest h
  unfold remainder at h
  split at h
  · cases h
  · obtain ⟨-, rfl⟩ := mk.inj (Except.ok.inj h)
    exact Nat.zero_le _

theorem body_shrinks (limits : Limits) (shape : Framing) (budget : Nat) (request : Bool) :
    Shrinks (body limits shape budget request) := by
  unfold body
  split
  · exact chunks_shrinks limits budget 0
  · split
    · exact (take_shrinks _).map _
    · split
      · exact pure_shrinks _
      · exact (remainder_shrinks _).map _

/-- A value that is `present` takes octets; where there is none everything was read. -/
structure Consumes (present : α → Bool) (parser : Parsing α) : Prop where
  shorter : ∀ {left value rest}, parser left = .ok (value, rest) → present value = true →
    rest.length < left.length
  ended : ∀ {left value rest}, parser left = .ok (value, rest) → present value = false → rest = []
  nil : ∃ value, parser [] = .ok (value, []) ∧ present value = false

/-- A parser that gives a message whenever it does not fail. -/
structure Messages {β : Type} (parser : Parsing (Option β)) : Prop where
  shrinks : Shrinks parser
  message : ∀ {left result rest}, parser left = .ok (result, rest) → result.isSome = true

theorem messages_some (value : α) : Messages (pure (some value) : Parsing (Option α)) := by
  refine ⟨pure_shrinks _, fun {left result rest} h => ?_⟩
  cases h
  rfl

theorem Messages.bind {β : Type} {parser : Parsing α} {g : α → Parsing (Option β)}
    (h : Shrinks parser) (hnext : ∀ value, Messages (g value)) : Messages (parser >>= g) := by
  refine ⟨h.bind fun value => (hnext value).shrinks, fun {left result rest} hrun => ?_⟩
  obtain ⟨value, middle, -, hsecond⟩ := parse_bind_ok hrun
  exact (hnext value).message hsecond

theorem Consumes.bind {β : Type} {present : α → Bool} {parser : Parsing α}
    {g : α → Parsing (Option β)} (h : Consumes present parser)
    (habsent : ∀ value, present value = false → g value = pure none)
    (hnext : ∀ value, present value = true → Messages (g value)) :
    Consumes Option.isSome (parser >>= g) := by
  refine ⟨fun {left result rest} hrun hresult => ?_, fun {left result rest} hrun hresult => ?_, ?_⟩
  · obtain ⟨value, middle, hfirst, hsecond⟩ := parse_bind_ok hrun
    cases hpresent : present value with
    | true =>
      calc rest.length ≤ middle.length := (hnext value hpresent).shrinks hsecond
        _ < left.length := h.shorter hfirst hpresent
    | false =>
      rw [habsent value hpresent] at hsecond
      cases hsecond
      cases hresult
  · obtain ⟨value, middle, hfirst, hsecond⟩ := parse_bind_ok hrun
    cases hpresent : present value with
    | true => cases ((hnext value hpresent).message hsecond).symm.trans hresult
    | false =>
      rw [habsent value hpresent] at hsecond
      obtain ⟨-, rfl⟩ := mk.inj (Except.ok.inj hsecond)
      exact h.ended hfirst hpresent
  · obtain ⟨value, hfirst, hpresent⟩ := h.nil
    exact ⟨none, (parse_ok hfirst).trans (by rw [habsent value hpresent]; rfl), rfl⟩

def lineRead (result : Option Bytes × Nat) : Bool := result.1.isSome

theorem line_consumes (limits : Limits) (budget : Nat) :
    Consumes lineRead (line limits budget) := by
  refine ⟨fun {left value rest} h hpresent => ?_, fun {left value rest} h habsent => ?_,
    ⟨(none, budget), rfl, rfl⟩⟩
  · obtain ⟨_ | value, after⟩ := value
    · cases hpresent
    · exact line_length h
  · obtain ⟨_ | value, after⟩ := value
    · exact (line_none h).2
    · cases habsent

theorem firstLine_consumes (limits : Limits) (budget : Nat) :
    Consumes lineRead (firstLine limits budget) := by
  refine ⟨fun {left result rest} h hpresent => ?_, fun {left result rest} h habsent => ?_,
    ⟨(none, budget), by rw [firstLine_eq]; rfl, rfl⟩⟩
  · fun_induction firstLine limits budget left with
    | case1 => cases h
    | case2 =>
      cases h
      cases hpresent
    | case3 _ _ _ _ _ hline _ ih => exact (ih h).trans (line_length hline)
    | case4 _ _ _ _ _ hline _ =>
      obtain ⟨-, rfl⟩ := mk.inj (Except.ok.inj h)
      exact line_length hline
  · fun_induction firstLine limits budget left with
    | case1 => cases h
    | case2 _ _ _ _ hline =>
      obtain ⟨-, rfl⟩ := mk.inj (Except.ok.inj h)
      exact (line_none hline).2
    | case3 _ _ _ _ _ _ _ ih => exact ih h
    | case4 =>
      cases h
      cases habsent

theorem requestHead_consumes (limits : Limits) :
    Consumes Option.isSome (requestHead limits) := by
  refine (firstLine_consumes limits limits.metadataBytes).bind ?_ ?_
  · rintro ⟨_ | start, budget⟩ habsent
    · rfl
    · cases habsent
  · rintro ⟨_ | start, budget⟩ hpresent
    · cases hpresent
    · refine Messages.bind (protocol_shrinks (requestLine start)) fun ⟨method, target⟩ => ?_
      refine Messages.bind (fields_shrinks limits budget false) fun ⟨headers, budget⟩ => ?_
      dsimp only
      split
      · exact ⟨failed_shrinks _, fun h => nomatch h⟩
      · exact Messages.bind (protocol_shrinks _) fun shape => messages_some _

theorem request_consumes (limits : Limits) : Consumes Option.isSome (request limits) := by
  refine (requestHead_consumes limits).bind ?_ ?_
  · rintro (_ | head) habsent
    · rfl
    · cases habsent
  · rintro (_ | ⟨⟨method, target, headers⟩, shape, budget⟩) hpresent
    · cases hpresent
    · exact Messages.bind (body_shrinks limits shape budget true) fun _ => messages_some _

theorem responseHead_consumes (method : Text) (limits : Limits) :
    Consumes Option.isSome (responseHead method limits) := by
  refine (line_consumes limits limits.metadataBytes).bind ?_ ?_
  · rintro ⟨_ | start, budget⟩ habsent
    · rfl
    · cases habsent
  · rintro ⟨_ | start, budget⟩ hpresent
    · cases hpresent
    · refine Messages.bind (protocol_shrinks (statusLine start)) fun ⟨status, reason⟩ => ?_
      refine Messages.bind (fields_shrinks limits budget false) fun ⟨headers, budget⟩ => ?_
      exact Messages.bind (protocol_shrinks _) fun shape => messages_some _

theorem response_consumes (method : Text) (limits : Limits) :
    Consumes Option.isSome (response method limits) := by
  refine (responseHead_consumes method limits).bind ?_ ?_
  · rintro (_ | head) habsent
    · rfl
    · cases habsent
  · rintro (_ | ⟨⟨status, reason, headers⟩, shape, budget⟩) hpresent
    · cases hpresent
    · exact Messages.bind (body_shrinks limits shape budget false) fun _ => messages_some _

end Whole

end Loom.Http
