import Loom.Http.Whole

/-
  The reader does on every cut of an input what is done on the whole of it.

  `Holds` relates a reader with the octets it has not read yet, whatever the chunks
  they are in. Every program of the reader is shown to follow its counterpart on the
  whole input; for a body, one pull gives a piece of what is left of it (`Pulls`).
-/

namespace Loom.Http

open Relational List Nat

section
variable {S E : Type} {bytes : S → Except E Bytes} {cursor : Cursor} {source : List S}
  {left : Bytes}

/-! ## What is left to read -/

/-- The chunk and the source still give `left`. -/
structure Unread (bytes : S → Except E Bytes) (cursor : Cursor) (source : List S) (left : Bytes) :
    Prop where
  position : cursor.position ≤ cursor.chunk.length
  eof : cursor.eof = true → source = [] ∧ cursor.chunk = []
  left : ∃ rest : List Bytes, source.map bytes = rest.map .ok ∧
    left = cursor.chunk.drop cursor.position ++ rest.flatten

/-- The flags of a lease. -/
def Cursor.Alike (first second : Cursor) : Prop :=
  second.busy = first.busy ∧ second.retired = first.retired

section
variable (h : Unread bytes cursor source left)
include h

theorem Unread.spent (hspent : cursor.position = cursor.chunk.length) :
    ∃ rest : List Bytes, source.map bytes = rest.map .ok ∧ left = rest.flatten := by
  obtain ⟨rest, hrest, hleft⟩ := h.left
  exact ⟨rest, hrest, by rw [hleft, hspent, drop_length, nil_append]⟩

theorem Unread.ne_nil (hposition : cursor.position ≠ cursor.chunk.length) : left ≠ [] := by
  obtain ⟨rest, -, hleft⟩ := h.left
  rw [hleft]
  intro hnil
  have hlength := congrArg List.length (append_eq_nil_iff.mp hnil).1
  have := h.position
  rw [length_drop, length_nil] at hlength; omega

theorem refill_spec :
    ∃ current rest, refill bytes cursor source = (.ok (!left.isEmpty), current, rest) ∧
      Unread bytes current rest left ∧ cursor.Alike current ∧
      (left ≠ [] → current.position < current.chunk.length) := by
  induction source generalizing cursor with
  | nil =>
    unfold refill
    by_cases hposition : cursor.position = cursor.chunk.length
    · obtain ⟨rest, hrest, rfl⟩ := h.spent hposition
      obtain rfl : rest = [] := by simpa using hrest.symm
      rw [if_neg (not_not.mpr hposition)]
      split
      · exact ⟨cursor, [], rfl, h, ⟨rfl, rfl⟩, fun hne => absurd rfl hne⟩
      · exact ⟨_, [], rfl, ⟨le_rfl, fun _ => ⟨rfl, rfl⟩, [], rfl, rfl⟩, ⟨rfl, rfl⟩,
          fun hne => absurd rfl hne⟩
    · rw [if_pos hposition]
      have hne := h.ne_nil hposition
      exact ⟨cursor, [], by simp [hne], h, ⟨rfl, rfl⟩,
        fun _ => lt_of_le_of_ne h.position hposition⟩
  | cons item source ih =>
    unfold refill
    by_cases hposition : cursor.position = cursor.chunk.length
    · obtain ⟨rest, hrest, hleft⟩ := h.spent hposition
      obtain ⟨chunk, rest, rfl⟩ : ∃ chunk rest', rest = chunk :: rest' := by
        cases rest with
        | nil => simp at hrest
        | cons chunk rest => exact ⟨chunk, rest, rfl⟩
      obtain ⟨hitem, hsource⟩ := cons.inj hrest
      have heof : ¬ cursor.eof = true := fun hend => absurd (h.eof hend).1 (cons_ne_nil _ _)
      rw [if_neg (not_not.mpr hposition), if_neg heof]
      simp only [hitem]
      obtain ⟨current, rest', hrefill, hunread, halike, hchunk⟩ := ih
        (⟨zero_le _, fun hend => absurd hend heof, rest, hsource, hleft⟩ :
          Unread bytes { cursor with chunk, position := 0 } source left)
      exact ⟨current, rest', hrefill, hunread, halike, hchunk⟩
    · rw [if_pos hposition]
      have hne := h.ne_nil hposition
      exact ⟨cursor, item :: source, by simp [hne], h, ⟨rfl, rfl⟩,
        fun _ => lt_of_le_of_ne h.position hposition⟩

theorem refill_true {current : Cursor} {rest : List S}
    (hrefill : refill bytes cursor source = (.ok true, current, rest)) :
    Unread bytes current rest left ∧ cursor.Alike current := by
  obtain ⟨current', rest', hspec, hunread, halike, -⟩ := refill_spec h
  obtain ⟨-, rfl, rfl⟩ : true = !left.isEmpty ∧ current = current' ∧ rest = rest' := by
    simpa using hrefill.symm.trans hspec
  exact ⟨hunread, halike⟩

end

/-! ## Lines -/

/-- Scanning goes on after a part as if there had been no cut. -/
theorem scan_append (maximum budget : Nat) (carriage : Bool) (output part rest : Bytes) :
    scan maximum budget carriage output (part ++ rest) =
      match scan maximum budget carriage output part with
      | .more budget carriage output => scan maximum budget carriage output rest
      | .line budget output left => .line budget output (left ++ rest)
      | .failed error => .failed error := by
  induction part generalizing budget carriage output with
  | nil => rfl
  | cons next part ih =>
    simp only [cons_append, scan]
    split_ifs
    all_goals first | rfl | exact ih _ _ _

theorem scan_rest {maximum budget after : Nat} {carriage : Bool} {output part result rest : Bytes}
    (h : scan maximum budget carriage output part = .line after result rest) :
    ∃ taken, part = taken ++ rest := by
  induction part generalizing budget carriage output with
  | nil => cases h
  | cons next part ih =>
    unfold scan at h
    split_ifs at h
    · obtain ⟨-, -, rfl⟩ := Scanned.line.inj h
      exact ⟨[next], rfl⟩
    all_goals
      obtain ⟨taken, rfl⟩ := ih h
      exact ⟨next :: taken, rfl⟩

theorem Unread.advance (h : Unread bytes cursor source left) {taken rest : Bytes}
    (htaken : cursor.chunk.drop cursor.position = taken ++ rest) :
    ∃ after, left = taken ++ after ∧
      Unread bytes { cursor with position := cursor.chunk.length - rest.length } source after := by
  obtain ⟨items, hitems, rfl⟩ := h.left
  have hlength := congrArg List.length htaken
  rw [length_drop, length_append] at hlength
  have := h.position
  refine ⟨rest ++ items.flatten, by rw [htaken, append_assoc], sub_le _ _, h.eof, items,
    hitems, ?_⟩
  have hposition : cursor.chunk.length - rest.length = cursor.position + taken.length := by omega
  rw [hposition, ← drop_drop, htaken, drop_left]

/-- What the loop of `line` gives depends on the octets only. -/
theorem lineLoop_spec (maximum budget : Nat) (carriage : Bool) (output : Bytes)
    (h : Unread bytes cursor source left) :
    match scan maximum budget carriage output left with
    | .failed error => ∃ current rest,
        lineLoop bytes maximum budget carriage output cursor source =
          (.error (.protocol error), current, rest)
    | .line after result later => ∃ current rest,
        lineLoop bytes maximum budget carriage output cursor source =
          (.ok (some result, after), current, rest) ∧
        Unread bytes current rest later ∧ cursor.Alike current
    | .more after carriage' result => ∃ current rest,
        lineLoop bytes maximum budget carriage output cursor source =
          (if carriage' || !result.isEmpty then .error (.protocol .truncated)
            else .ok (none, after), current, rest) ∧
        Unread bytes current rest [] ∧ cursor.Alike current := by
  fun_induction lineLoop bytes maximum budget carriage output cursor source generalizing left with
  | case1 _ _ _ _ _ _ _ _ hrefill =>
    obtain ⟨_, _, hspec, -⟩ := refill_spec h
    rw [hrefill] at hspec
    cases (Prod.mk.inj hspec).1
  | case2 budget carriage output cursor source current rest hrefill hcut =>
    obtain ⟨current', rest', hspec, hunread, halike, -⟩ := refill_spec h
    rw [hrefill] at hspec
    obtain ⟨hempty, rfl, rfl⟩ : true = left.isEmpty ∧ current = current' ∧ rest = rest' := by
      simpa using hspec
    obtain rfl := isEmpty_iff.mp hempty.symm
    exact ⟨current, rest, by rw [if_pos hcut], hunread, halike⟩
  | case3 budget carriage output cursor source current rest hrefill hcut =>
    obtain ⟨current', rest', hspec, hunread, halike, -⟩ := refill_spec h
    rw [hrefill] at hspec
    obtain ⟨hempty, rfl, rfl⟩ : true = left.isEmpty ∧ current = current' ∧ rest = rest' := by
      simpa using hspec
    obtain rfl := isEmpty_iff.mp hempty.symm
    exact ⟨current, rest, by rw [if_neg hcut], hunread, halike⟩
  | case4 budget carriage output cursor source current rest hrefill error hscan =>
    obtain ⟨hunread, -⟩ := refill_true h hrefill
    obtain ⟨items, -, rfl⟩ := hunread.left
    rw [scan_append, hscan]; exact ⟨current, rest, rfl⟩
  | case5 budget carriage output cursor source current rest hrefill after result later hscan =>
    obtain ⟨hunread, halike⟩ := refill_true h hrefill
    obtain ⟨taken, htaken⟩ := scan_rest hscan
    obtain ⟨items, hitems, rfl⟩ := hunread.left
    obtain ⟨beyond, hbeyond, hadvanced⟩ := hunread.advance htaken
    rw [scan_append, hscan]
    rw [htaken, append_assoc] at hbeyond
    exact ⟨_, rest, rfl, append_cancel_left hbeyond ▸ hadvanced, halike⟩
  | case6 budget carriage output cursor source current rest hrefill after carriage' result hscan ih =>
    obtain ⟨hunread, halike⟩ := refill_true h hrefill
    obtain ⟨items, hitems, rfl⟩ := hunread.left
    obtain ⟨beyond, hbeyond, hadvanced⟩ := hunread.advance (append_nil _).symm
    obtain rfl := append_cancel_left hbeyond
    rw [scan_append, hscan]
    have hrest := ih hadvanced
    split at hrest
    all_goals
      rename_i heq
      simp only [heq]
    · exact hrest
    · obtain ⟨current', rest', hrun, hleft, hflags⟩ := hrest
      exact ⟨current', rest', hrun, hleft, hflags.1.trans halike.1, hflags.2.trans halike.2⟩
    · obtain ⟨current', rest', hrun, hleft, hflags⟩ := hrest
      exact ⟨current', rest', hrun, hleft, hflags.1.trans halike.1, hflags.2.trans halike.2⟩

end

/-! ## Programs of the reader -/

section
variable {S E α α' : Type} {limits : Limits} {busy retired : Bool} {input : Reader S E}
  {left : Bytes}

structure Holds (limits : Limits) (busy retired : Bool) (input : Reader S E) (left : Bytes) :
    Prop where
  limits : input.limits = limits
  busy : input.cursor.busy = busy
  retired : input.cursor.retired = retired
  unread : Unread input.bytes input.cursor input.source left

/-- The program does what the parser does on the octets that are left, under the
lease it has. -/
def Reads (limits : Limits) (busy retired : Bool) (program : Reading S E α)
    (parser : Parsing α) : Prop :=
  Follows ReadError.protocol (Holds limits busy retired)
    (fun value value' input left => value = value' ∧ Holds limits busy retired input left)
    (fun _ => True) program parser

theorem Holds.moved (h : Holds limits busy retired input left) {current : Cursor} {rest : List S}
    {after : Bytes} (hunread : Unread input.bytes current rest after)
    (halike : input.cursor.Alike current) :
    Holds limits busy retired { input with cursor := current, source := rest } after :=
  ⟨h.limits, halike.1.trans h.busy, halike.2.trans h.retired, hunread⟩

theorem line_reads (budget : Nat) :
    Reads limits busy retired (line budget : Reading S E _) (Whole.line limits budget) := by
  intro input left h
  obtain rfl := h.limits
  have hspec := lineLoop_spec input.limits.lineBytes budget false [] h.unread
  unfold Whole.line line
  cases hscan : scan input.limits.lineBytes budget false [] left with
  | failed error =>
    rw [hscan] at hspec
    obtain ⟨current, rest, hrun⟩ := hspec
    simp only [hrun]; exact ⟨_, rfl, trivial⟩
  | line after result later =>
    rw [hscan] at hspec
    obtain ⟨current, rest, hrun, hunread, halike⟩ := hspec
    simp only [hrun]; exact ⟨_, _, rfl, rfl, h.moved hunread halike⟩
  | more after carriage result =>
    rw [hscan] at hspec
    obtain ⟨current, rest, hrun, hunread, halike⟩ := hspec
    simp only [hrun]
    by_cases hcut : (carriage || !result.isEmpty) = true
    · simp only [hcut]; exact ⟨_, rfl, trivial⟩
    · simp only [hcut]; exact ⟨_, _, rfl, rfl, h.moved hunread halike⟩

theorem requiredLine_reads (budget : Nat) :
    Reads limits busy retired (requiredLine budget : Reading S E _)
      (Whole.requiredLine limits budget) := by
  intro input left h
  have hline := line_reads (E := E) budget h
  unfold requiredLine Whole.requiredLine
  split at hline
  · rename_i value' rest heq
    obtain ⟨value, after, hrun, rfl, hholds⟩ := hline
    obtain ⟨_ | value, budget'⟩ := value
    · rw [heq, hrun]; exact ⟨after, rfl, trivial⟩
    · rw [heq, hrun]; exact ⟨_, after, rfl, rfl, hholds⟩
  · rename_i error heq
    obtain ⟨after, hrun, -⟩ := hline
    rw [heq, hrun]; exact ⟨after, rfl, trivial⟩

theorem fieldsLoop_reads (trailers : Bool) (budget : Nat) (output : List Header) :
    Reads limits busy retired (fieldsLoop trailers budget output : Reading S E _)
      (Whole.fieldsLoop limits trailers budget output) := by
  intro input left h
  induction budget using Nat.strongRecOn generalizing output input left with
  | ind budget ih =>
    have hline := requiredLine_reads (E := E) budget h
    cases hwhole : Whole.requiredLine limits budget left with
    | error error =>
      rw [hwhole] at hline
      obtain ⟨after, hrun, -⟩ := hline
      rw [Whole.fieldsLoop_error hwhole, fieldsLoop_error hrun]
      exact ⟨after, rfl, trivial⟩
    | ok result =>
      obtain ⟨⟨next, budget'⟩, rest⟩ := result
      rw [hwhole] at hline
      obtain ⟨value, after, hrun, rfl, hholds⟩ := hline
      rw [Whole.fieldsLoop_ok hwhole, fieldsLoop_ok hrun]
      by_cases hempty : next.isEmpty = true
      · simp only [hempty]; exact ⟨_, after, rfl, rfl, hholds⟩
      · simp only [hempty]
        cases field next with
        | error error => exact ⟨after, rfl, trivial⟩
        | ok entry =>
          by_cases htrailer : (trailers && !trailer entry) = true
          · simp only [htrailer]; exact ⟨after, rfl, trivial⟩
          · simp only [htrailer]
            exact ih budget' (requiredLine_budget hrun) (output ++ [entry]) hholds

theorem fields_reads (budget : Nat) (trailers : Bool) :
    Reads limits busy retired (fields budget trailers : Reading S E _)
      (Whole.fields limits budget trailers) :=
  fieldsLoop_reads trailers budget []

theorem firstLine_reads (budget : Nat) :
    Reads limits busy retired (firstLine budget : Reading S E _)
      (Whole.firstLine limits budget) := by
  intro input left h
  induction budget using Nat.strongRecOn generalizing input left with
  | ind budget ih =>
    have hline := line_reads (E := E) budget h
    rw [firstLine_eq, Whole.firstLine_eq]
    cases hwhole : Whole.line limits budget left with
    | error error =>
      rw [hwhole] at hline
      obtain ⟨after, hrun, -⟩ := hline
      rw [hrun]; exact ⟨after, rfl, trivial⟩
    | ok result =>
      obtain ⟨⟨_ | next, budget'⟩, rest⟩ := result
      all_goals
        rw [hwhole] at hline
        obtain ⟨value, after, hrun, rfl, hholds⟩ := hline
        rw [hrun]
      · exact ⟨_, after, rfl, rfl, hholds⟩
      · by_cases hempty : next.isEmpty = true
        · simp only [hempty]; exact ih budget' (line_budget hrun) hholds
        · simp only [hempty]; exact ⟨_, after, rfl, rfl, hholds⟩

end

/-! ## Bodies -/

/-- What is left of a body, on the whole input. -/
def Body.rest (limits : Limits) (body : Body) : Parsing (Bytes × List Header) :=
  match body.progress.phase with
  | .size => Whole.chunks limits body.budget body.progress.total
  | .terminator => fun left =>
    match Whole.terminator limits body.budget left with
    | .error error => .error error
    | .ok (after, rest) => Whole.chunks limits after body.progress.total rest
  | .data => Whole.chunkRest limits body.budget body.progress.total body.progress.remaining
  | .fixed => (·, []) <$> Whole.take body.progress.remaining
  | .end => (·, []) <$> Whole.remainder (limits.bodyBytes - body.progress.total)
  | .done | .failed => pure ([], body.progress.trailers)

/-- A body between two pulls. -/
structure Body.Valid (limits : Limits) (body : Body) : Prop where
  maximum : 0 < body.maximum
  failed : body.progress.phase ≠ .failed
  total : body.progress.total ≤ limits.bodyBytes
  remaining : body.progress.phase = .fixed ∨ body.progress.phase = .data →
    0 < body.progress.remaining ∧
      body.progress.total + body.progress.remaining ≤ limits.bodyBytes

/-- Octets that were pulled, in front of the rest of the body. -/
def prepend (value : Bytes) :
    Except ProtocolError ((Bytes × List Header) × Bytes) →
      Except ProtocolError ((Bytes × List Header) × Bytes)
  | .error error => .error error
  | .ok ((output, trailers), rest) => .ok ((value ++ output, trailers), rest)

/-- One pull, against what is left of the body. -/
inductive Pulls {S E : Type} (limits : Limits) (retired : Bool)
    (whole : Except ProtocolError ((Bytes × List Header) × Bytes)) (left : Bytes) :
    Except (ReadError E) (Option Bytes × Body) × Reader S E → Prop where
  | finished {body input rest} : body.progress.phase = .done → body.Valid limits →
      whole = .ok (([], body.progress.trailers), rest) → Holds limits true retired input rest →
      Pulls limits retired whole left (.ok (none, body), input)
  | piece {value body input rest} : body.Valid limits → rest.length < left.length →
      whole = prepend value (body.rest limits rest) → Holds limits true retired input rest →
      Pulls limits retired whole left (.ok (some value, body), input)
  | failed {error input} : whole = .error error →
      Pulls limits retired whole left (.error (.protocol error), input)

section
variable {S E : Type} {limits : Limits} {retired : Bool} {input : Reader S E} {left : Bytes}
  {body : Body}

theorem available_spec (h : Holds limits true retired input left) :
    ∃ after : Reader S E, available input = (.ok (!left.isEmpty), after) ∧
      Holds limits true retired after left ∧
      (left ≠ [] → after.cursor.position < after.cursor.chunk.length) := by
  obtain ⟨current, rest, hrun, hunread, halike, hposition⟩ := refill_spec h.unread
  exact ⟨{ input with cursor := current, source := rest }, by rw [available, hrun],
    h.moved hunread halike, hposition⟩

theorem Holds.skip (h : Holds limits true retired input left) {count : Nat}
    (hcount : count ≤ input.cursor.chunk.length - input.cursor.position) :
    (input.cursor.chunk.drop input.cursor.position).take count = left.take count ∧
      count ≤ left.length ∧
      Holds limits true retired
        (input.setCursor { input.cursor with position := input.cursor.position + count })
        (left.drop count) := by
  obtain ⟨items, hitems, rfl⟩ := h.unread.left
  have hposition := h.unread.position
  have hlength : count ≤ (input.cursor.chunk.drop input.cursor.position).length := by
    rwa [length_drop]
  refine ⟨(take_append_of_le_length hlength).symm, ?_, h.limits, h.busy, h.retired, ?_⟩
  · rw [length_append]; exact le_add_right_of_le hlength
  · refine ⟨?_, h.unread.eof, items, hitems, ?_⟩
    · change input.cursor.position + count ≤ input.cursor.chunk.length
      omega
    · rw [drop_append_of_le_length hlength, drop_drop]; rfl

theorem take_split {size count : Nat} {left : Bytes} (hcount : count ≤ size)
    (hleft : count ≤ left.length) :
    Whole.take size left =
      match Whole.take (size - count) (left.drop count) with
      | .error error => .error error
      | .ok (data, rest) => .ok (left.take count ++ data, rest) := by
  unfold Whole.take
  rw [length_drop]
  by_cases hshort : left.length < size
  · rw [if_pos hshort, if_pos (by omega)]
  · rw [if_neg hshort, if_neg (by omega)]
    have hsize : size = count + (size - count) := by omega
    have htake : left.take size = left.take count ++ (left.drop count).take (size - count) := by
      conv_lhs => rw [hsize]
      exact take_add
    have hdrop : left.drop size = (left.drop count).drop (size - count) := by
      rw [drop_drop, ← hsize]
    simp [htake, hdrop]

variable {α : Type} {busy : Bool}

theorem map_parse {β : Type} (f : α → β) (parser : Parsing α) (left : Bytes) :
    (f <$> parser) left =
      match parser left with
      | .error error => .error error
      | .ok (value, rest) => .ok (f value, rest) := by
  change StateT.map f parser left = _
  unfold StateT.map
  cases parser left <;> rfl

/-- The octets that one pull takes at most. -/
def Body.count (body : Body) (buffered : Nat) : Nat :=
  if body.progress.phase = .end then min buffered body.maximum
  else min (min buffered body.maximum) body.progress.remaining

def Body.pulled (body : Body) (count : Nat) : Body :=
  let remaining := body.progress.remaining - count
  let progress := { body.progress with remaining, total := body.progress.total + count }
  let advanced := { body with progress }
  if body.progress.phase = .end ∨ remaining ≠ 0 then advanced
  else if body.progress.phase = .fixed then bodyDone advanced []
  else { body with progress := { progress with phase := .terminator } }

theorem bodyData_nil {input' : Reader S E} (h : available input = (.ok false, input')) :
    bodyData body input =
      if body.progress.phase ≠ .end then (.error (.protocol .truncated), input')
      else (.ok (none, bodyDone body []), input') := by
  unfold bodyData
  rw [bind_ok h]
  simp only [Bool.not_false, if_true]
  split <;> rfl

theorem bodyData_cons {input' : Reader S E} (h : available input = (.ok true, input')) :
    bodyData body input =
      let count := body.count (input'.cursor.chunk.length - input'.cursor.position)
      if input'.limits.bodyBytes - body.progress.total < count then
        (.error (.protocol .limit), input')
      else
        (.ok (some ((input'.cursor.chunk.drop input'.cursor.position).take count),
            body.pulled count),
          input'.setCursor { input'.cursor with position := input'.cursor.position + count }) := by
  unfold bodyData
  rw [bind_ok h]; rfl

theorem Body.pulled_end {count : Nat} (hphase : body.progress.phase = .end) :
    body.pulled count = { body with progress := { body.progress with
      remaining := body.progress.remaining - count
      total := body.progress.total + count } } := by
  rw [Body.pulled, if_pos (.inl hphase)]

theorem Body.pulled_more {count : Nat} (hremaining : count < body.progress.remaining) :
    body.pulled count = { body with progress := { body.progress with
      remaining := body.progress.remaining - count
      total := body.progress.total + count } } := by
  rw [Body.pulled, if_pos (.inr (sub_ne_zero_of_lt hremaining))]

theorem Body.pulled_last (hphase : body.progress.phase ≠ .end) :
    body.pulled body.progress.remaining =
      if body.progress.phase = .fixed then
        bodyDone { body with progress := { body.progress with
          remaining := 0
          total := body.progress.total + body.progress.remaining } } []
      else { body with progress := { body.progress with
        remaining := 0
        total := body.progress.total + body.progress.remaining
        phase := .terminator } } := by
  rw [Body.pulled, Nat.sub_self, if_neg (by tauto)]

theorem Body.rest_pulled
    (hphase : body.progress.phase = .fixed ∨ body.progress.phase = .data ∨
      body.progress.phase = .end) {count : Nat} (hcount : count ≤ left.length)
    (hremaining : body.progress.phase ≠ .end → count ≤ body.progress.remaining)
    (hlimit : count ≤ limits.bodyBytes - body.progress.total) :
    body.rest limits left =
      prepend (left.take count) ((body.pulled count).rest limits (left.drop count)) := by
  obtain hfixed | hdata | hend := hphase
  · have hle := hremaining (by simp [hfixed])
    obtain hlt | rfl := lt_or_eq_of_le hle
    · simp only [Body.pulled_more hlt, Body.rest, hfixed, map_parse]
      rw [take_split hle hcount]
      cases Whole.take (body.progress.remaining - count) (left.drop count) <;> rfl
    · rw [Body.pulled_last (by simp [hfixed])]
      simp only [Body.rest, hfixed, map_parse]
      rw [Whole.take, if_neg (not_lt.mpr hcount)]
      change _ = Except.ok ((left.take body.progress.remaining ++ [], []), _)
      rw [append_nil]
  · have hle := hremaining (by simp [hdata])
    obtain hlt | rfl := lt_or_eq_of_le hle
    · simp only [Body.pulled_more hlt, Body.rest, hdata, Whole.chunkRest]
      rw [take_split hle hcount]
      have htotal : body.progress.total + count + (body.progress.remaining - count) =
          body.progress.total + body.progress.remaining := by omega
      rw [htotal]
      cases Whole.take (body.progress.remaining - count) (left.drop count) with
      | error error => rfl
      | ok result =>
        obtain ⟨data, rest⟩ := result
        simp only
        cases Whole.terminator limits body.budget rest with
        | error error => rfl
        | ok result =>
          obtain ⟨after, rest⟩ := result
          simp only
          cases Whole.chunks limits after (body.progress.total + body.progress.remaining) rest with
          | error error => rfl
          | ok result => simp [prepend, append_assoc]
    · rw [Body.pulled_last (by simp [hdata]), if_neg (by simp [hdata])]
      simp only [Body.rest, hdata, Whole.chunkRest]
      rw [Whole.take, if_neg (not_lt.mpr hcount)]
      simp only
      cases Whole.terminator limits body.budget (left.drop body.progress.remaining) with
      | error error => rfl
      | ok result => rfl
  · simp only [Body.pulled_end hend, Body.rest, hend, map_parse, Whole.remainder, length_drop]
    by_cases hlong : limits.bodyBytes - body.progress.total < left.length
    · rw [if_pos hlong, if_pos (by omega)]; rfl
    · rw [if_neg hlong, if_neg (by omega)]; simp [prepend, take_append_drop]

section
variable (hvalid : body.Valid limits)
  (hphase : body.progress.phase = .fixed ∨ body.progress.phase = .data ∨ body.progress.phase = .end)
include hvalid hphase

theorem Body.Valid.pulled_valid {count : Nat}
    (hremaining : body.progress.phase ≠ .end → count ≤ body.progress.remaining)
    (hlimit : count ≤ limits.bodyBytes - body.progress.total) :
    (body.pulled count).Valid limits := by
  have htotal := hvalid.total
  have hlarge : body.progress.total + count ≤ limits.bodyBytes := by omega
  by_cases hend : body.progress.phase = .end
  · rw [Body.pulled_end hend]
    exact ⟨hvalid.maximum, hvalid.failed, hlarge, fun hother => by simp [hend] at hother⟩
  · have hbound := hvalid.remaining (by tauto)
    obtain hlt | rfl := lt_or_eq_of_le (hremaining hend)
    · rw [Body.pulled_more hlt]
      refine ⟨hvalid.maximum, hvalid.failed, hlarge, fun _ => ⟨?_, ?_⟩⟩
      · exact Nat.sub_pos_of_lt hlt
      · change body.progress.total + count + (body.progress.remaining - count) ≤ limits.bodyBytes
        omega
    · rw [Body.pulled_last hend]
      split
      · exact ⟨hvalid.maximum, nofun, hlarge, nofun⟩
      · exact ⟨hvalid.maximum, nofun, hlarge, nofun⟩

theorem bodyData_spec (h : Holds limits true retired input left) :
    Pulls limits retired (body.rest limits left) left (bodyData body input) := by
  obtain ⟨after, hrun, hholds, hposition⟩ := available_spec h
  by_cases hleft : left = []
  · subst hleft
    rw [bodyData_nil hrun]
    by_cases hend : body.progress.phase = .end
    · rw [if_neg (not_not.mpr hend)]
      refine .finished rfl ⟨hvalid.maximum, nofun, hvalid.total, nofun⟩ ?_ hholds
      simp only [Body.rest, hend]; rfl
    · rw [if_pos hend]
      refine .failed ?_
      have hremaining := (hvalid.remaining (by tauto)).1
      have htake : Whole.take body.progress.remaining [] = .error .truncated := by
        rw [Whole.take, if_pos (by simpa using hremaining)]
      obtain hfixed | hdata := (or_assoc.mpr hphase).resolve_right hend
      · simp [Body.rest, hfixed, map_parse, htake]
      · simp [Body.rest, hdata, Whole.chunkRest, htake]
  · have hempty : left.isEmpty = false := by simpa using hleft
    rw [hempty] at hrun
    have hchunk := hposition hleft
    rw [bodyData_cons hrun]
    set buffered := after.cursor.chunk.length - after.cursor.position with hbuffered
    have hle : body.count buffered ≤ buffered := by
      unfold Body.count
      split
      · exact min_le_left _ _
      · exact (min_le_left _ _).trans (min_le_left _ _)
    have hremaining : body.progress.phase ≠ .end → body.count buffered ≤ body.progress.remaining := by
      intro hend
      rw [Body.count, if_neg hend]; exact min_le_right _ _
    have hpos : 0 < body.count buffered := by
      have := hvalid.maximum
      unfold Body.count
      split
      · omega
      · have := (hvalid.remaining (by tauto)).1
        omega
    obtain ⟨hvalue, hlength, hskipped⟩ := hholds.skip hle
    simp only [hholds.limits, hvalue]
    split
    · refine .failed ?_
      -- Only a body that ends with the input can be too long here.
      have hend : body.progress.phase = .end := by
        by_contra hend
        have := (hvalid.remaining (by tauto)).2
        have := hremaining hend
        omega
      simp only [Body.rest, hend, map_parse, Whole.remainder]
      rw [if_pos (by omega)]
    · rename_i hwithin
      have hlimit := not_lt.mp hwithin
      refine .piece (hvalid.pulled_valid hphase hremaining hlimit) ?_
        (Body.rest_pulled hphase hlength hremaining hlimit) hskipped
      rw [length_drop]; omega

end

theorem Reads.error {program : Reading S E α} {parser : Parsing α} {error : ProtocolError}
    (hreads : Reads limits busy retired program parser) (h : Holds limits busy retired input left)
    (hparser : parser left = .error error) :
    ∃ after, program input = (.error (.protocol error), after) := by
  have hrun := hreads h
  rw [hparser] at hrun
  obtain ⟨after, hrun, -⟩ := hrun
  exact ⟨after, hrun⟩

theorem Reads.ok {program : Reading S E α} {parser : Parsing α} {value : α} {rest : Bytes}
    (hreads : Reads limits busy retired program parser) (h : Holds limits busy retired input left)
    (hparser : parser left = .ok (value, rest)) :
    ∃ after, program input = (.ok value, after) ∧ Holds limits busy retired after rest := by
  have hrun := hreads h
  rw [hparser] at hrun
  obtain ⟨value, after, hrun, rfl, hholds⟩ := hrun
  exact ⟨after, hrun, hholds⟩

/-- A step of a body before its data: it fails alike, or goes on. -/
theorem Pulls.shorter {whole : Except ProtocolError ((Bytes × List Header) × Bytes)}
    {rest : Bytes} {result : Except (ReadError E) (Option Bytes × Body) × Reader S E}
    (h : Pulls limits retired whole rest result) (hle : rest.length ≤ left.length) :
    Pulls limits retired whole left result := by
  cases h with
  | finished hphase hvalid hwhole hholds => exact .finished hphase hvalid hwhole hholds
  | piece hvalid hlength hwhole hholds =>
    exact .piece hvalid (lt_of_lt_of_le hlength hle) hwhole hholds
  | failed hwhole => exact .failed hwhole

theorem bodySize_spec (hvalid : body.Valid limits) (hphase : body.progress.phase = .size)
    (h : Holds limits true retired input left) :
    Pulls limits retired (body.rest limits left) left (bodySize body input) := by
  have hrest : body.rest limits left =
      Whole.chunks limits body.budget body.progress.total left := by
    simp [Body.rest, hphase]
  rw [hrest, Whole.chunks_eq]
  unfold bodySize
  cases hline : Whole.requiredLine limits body.budget left with
  | error error =>
    obtain ⟨after, hrun⟩ := Reads.error (requiredLine_reads body.budget) h hline
    rw [bind_error hrun]; exact .failed rfl
  | ok result =>
    obtain ⟨⟨line, budget⟩, rest⟩ := result
    obtain ⟨after, hrun, hholds⟩ := Reads.ok (requiredLine_reads body.budget) h hline
    have hlength := (Whole.requiredLine_length hline).le
    rw [bind_ok hrun]
    have hget : (get : Reading S E (Reader S E)) after = (.ok after, after) := rfl
    simp only [bind_ok hget, hholds.limits]
    cases hsize : chunkSize line (limits.bodyBytes - body.progress.total) with
    | error error => exact .failed rfl
    | ok size =>
      have hprotocol : (protocol (.ok size) : Reading S E Nat) after = (.ok size, after) := rfl
      rw [bind_ok hprotocol]
      by_cases hzero : size = 0
      · simp only [hzero, if_true]
        cases hfields : Whole.fields limits budget true rest with
        | error error =>
          obtain ⟨later, hrun'⟩ := Reads.error (fields_reads budget true) hholds hfields
          rw [bind_error hrun']; exact .failed rfl
        | ok result =>
          obtain ⟨later, hrun', hholds'⟩ := Reads.ok (fields_reads budget true) hholds hfields
          rw [bind_ok hrun']
          exact .finished rfl
            ⟨hvalid.maximum, by simp [bodyDone], hvalid.total, by simp [bodyDone]⟩ rfl hholds'
      · simp only [hzero]
        have hle := chunkSize_le hsize
        have hdata : Body.Valid limits { body with
            budget
            progress := { body.progress with phase := .data, remaining := size } } :=
          ⟨hvalid.maximum, by simp, hvalid.total,
            fun _ => ⟨Nat.pos_of_ne_zero hzero, by
              change body.progress.total + size ≤ limits.bodyBytes
              omega⟩⟩
        exact (bodyData_spec hdata (.inr (.inl rfl)) hholds).shorter hlength

theorem bodyTerminator_spec (hvalid : body.Valid limits)
    (hphase : body.progress.phase = .terminator) (h : Holds limits true retired input left) :
    Pulls limits retired (body.rest limits left) left (bodyTerminator body input) := by
  simp only [Body.rest, hphase, Whole.terminator]
  unfold bodyTerminator
  cases hline : Whole.requiredLine limits body.budget left with
  | error error =>
    obtain ⟨after, hrun⟩ := Reads.error (requiredLine_reads body.budget) h hline
    rw [bind_error hrun]; exact .failed rfl
  | ok result =>
    obtain ⟨⟨line, budget⟩, rest⟩ := result
    obtain ⟨after, hrun, hholds⟩ := Reads.ok (requiredLine_reads body.budget) h hline
    rw [bind_ok hrun]
    by_cases hempty : (!line.isEmpty) = true
    · simp only [hempty]; exact .failed rfl
    · simp only [hempty]
      have hnext : Body.Valid limits { body with
          budget
          progress := { body.progress with phase := .size } } :=
        ⟨hvalid.maximum, nofun, hvalid.total, nofun⟩
      exact (bodySize_spec hnext rfl hholds).shorter (Whole.requiredLine_length hline).le

theorem bodyNext_spec (hvalid : body.Valid limits) (hdone : body.progress.phase ≠ .done)
    (h : Holds limits true retired input left) :
    Pulls limits retired (body.rest limits left) left (bodyNext body input) := by
  unfold bodyNext
  cases hphase : body.progress.phase with
  | fixed => exact bodyData_spec hvalid (by simp [hphase]) h
  | data => exact bodyData_spec hvalid (by simp [hphase]) h
  | «end» => exact bodyData_spec hvalid (by simp [hphase]) h
  | size => exact bodySize_spec hvalid hphase h
  | terminator => exact bodyTerminator_spec hvalid hphase h
  | done => exact absurd hphase hdone
  | failed => exact absurd hphase hvalid.failed

/-- Whether the message still has the lease of the reader. -/
def Body.leased (body : Body) : Bool :=
  body.progress.phase ≠ .done

theorem Holds.released (h : Holds limits true retired input left) :
    Holds limits false retired (input.setCursor { input.cursor with busy := false }) left :=
  ⟨h.limits, rfl, h.retired, h.unread.position, h.unread.eof, h.unread.left⟩

/-- Nothing can be read any more. -/
def Reader.Closed (input : Reader S E) : Prop :=
  input.cursor.retired = true ∧ input.cursor.busy = false

/-- One call of `next`, against what is left of the body. -/
inductive Gives (limits : Limits) (retired : Bool)
    (whole : Except ProtocolError ((Bytes × List Header) × Bytes)) (left : Bytes) :
    Option (Except (ReadError E) Bytes) × Body × Reader S E → Prop where
  | finished {body input rest} : body.progress.phase = .done →
      whole = .ok (([], body.progress.trailers), rest) → Holds limits false retired input rest →
      Gives limits retired whole left (none, body, input)
  | piece {value body input rest} : body.Valid limits → body.progress.pulling = false →
      rest.length < left.length → whole = prepend value (body.rest limits rest) →
      Holds limits body.leased retired input rest →
      Gives limits retired whole left (some (.ok value), body, input)
  | failed {error body input} : whole = .error error → body.progress.phase = .failed →
      input.Closed → Gives limits retired whole left (some (.error (.protocol error)), body, input)

theorem next_pull (hpulling : body.progress.pulling = false)
    (hdone : body.progress.phase ≠ .done) (hfailed : body.progress.phase ≠ .failed) :
    next body input =
      match bodyNext { body with progress := { body.progress with pulling := true } } input with
      | (.ok (value, body), input) =>
        (value.map .ok, { body with progress := { body.progress with pulling := false } },
          if body.progress.phase = .done then input.setCursor { input.cursor with busy := false }
          else input)
      | (.error error, input) =>
        (some (.error error),
          bodyFailed { body with progress := { body.progress with pulling := true } },
          input.setCursor input.cursor.retire) := by
  unfold next
  exact (if_neg (by simp [hpulling])).trans (if_neg (by simp [hdone, hfailed]))

theorem next_spec (hvalid : body.Valid limits) (hpulling : body.progress.pulling = false)
    (h : Holds limits body.leased retired input left) :
    Gives limits retired (body.rest limits left) left (next body input) := by
  by_cases hdone : body.progress.phase = .done
  · have hleased : body.leased = false := by simp [Body.leased, hdone]
    rw [hleased] at h
    rw [next, if_neg (by simp [hpulling]), if_pos (.inl hdone)]
    refine .finished hdone ?_ h
    simp only [Body.rest, hdone]; rfl
  · have hleased : body.leased = true := by simp [Body.leased, hdone]
    rw [hleased] at h
    have hstart : Body.Valid limits
        { body with progress := { body.progress with pulling := true } } :=
      ⟨hvalid.maximum, hvalid.failed, hvalid.total, hvalid.remaining⟩
    have hpulled := bodyNext_spec hstart hdone h
    have hsame : Body.rest limits
        { body with progress := { body.progress with pulling := true } } = body.rest limits := rfl
    rw [next_pull hpulling hdone hvalid.failed]
    generalize bodyNext { body with progress := { body.progress with pulling := true } } input =
      pulled at hpulled
    cases hpulled with
    | @finished body' input' rest hphase _ hwhole hholds =>
      change Gives limits retired _ left
        (none, _, if body'.progress.phase = .done then _ else input')
      rw [if_pos hphase]; exact .finished hphase hwhole hholds.released
    | failed hwhole => exact .failed hwhole rfl ⟨rfl, rfl⟩
    | @piece value body' input' rest hvalid' hlength hwhole hholds =>
      refine .piece ⟨hvalid'.maximum, hvalid'.failed, hvalid'.total, hvalid'.remaining⟩ rfl hlength
        hwhole ?_
      -- The lease ends with the last piece, if the body is complete then.
      change Holds limits body'.leased retired _ rest
      by_cases hphase : body'.progress.phase = .done
      · have hleased' : body'.leased = false := by simp [Body.leased, hphase]
        rw [hleased', if_pos hphase]; exact hholds.released
      · have hleased' : body'.leased = true := by simp [Body.leased, hphase]
        rwa [hleased', if_neg hphase]

/-- Pulling until the end gives what is left of the body. -/
theorem collectedLoop_spec (fuel : Nat) (output : Bytes) (hvalid : body.Valid limits)
    (hpulling : body.progress.pulling = false)
    (h : Holds limits body.leased retired input left) (hfuel : left.length < fuel) :
    match body.rest limits left with
    | .error error => ∃ body' after,
        collectedLoop fuel output body input = (.error (.protocol error), body', after) ∧
          body'.progress.phase = .failed ∧ after.Closed
    | .ok ((contents, trailers), rest) => ∃ body' after,
        collectedLoop fuel output body input = (.ok (output ++ contents, trailers), body', after) ∧
          body'.progress.phase = .done ∧ Holds limits false retired after rest := by
  induction fuel generalizing output body input left with
  | zero => exact absurd hfuel (not_lt_zero _)
  | succ fuel ih =>
    have hgives := next_spec hvalid hpulling h
    unfold collectedLoop
    generalize next body input = given at hgives
    cases hgives with
    | @finished body' after rest hphase hwhole hholds =>
      rw [hwhole]
      simp only [trailers, hphase, append_nil]
      exact ⟨body', after, rfl, hphase, hholds⟩
    | @failed error body' after hwhole hphase hclosed =>
      rw [hwhole]; exact ⟨body', after, rfl, hphase, hclosed⟩
    | @piece value body' after rest hvalid' hpulling' hlength hwhole hholds =>
      have hrest := ih (output ++ value) hvalid' hpulling' hholds (by omega)
      rw [hwhole]
      cases hcontents : body'.rest limits rest with
      | error error =>
        rw [hcontents] at hrest; exact hrest
      | ok result =>
        rw [hcontents] at hrest
        simp only [append_assoc] at hrest; exact hrest

theorem Holds.unread_eq (h : Holds limits busy retired input left) :
    input.unread = left.length := by
  obtain ⟨items, hitems, rfl⟩ := h.unread.left
  have hsum : (input.source.map fun item => (input.bytes item).toOption.elim 0 List.length) =
      items.map List.length := by
    have hmapped := congrArg (List.map fun item : Except E Bytes => item.toOption.elim 0 List.length)
      hitems
    simpa [Function.comp_def, Except.toOption] using hmapped
  rw [Reader.unread, hsum, length_append, length_drop, length_flatten]

theorem collectedBody_spec (hvalid : body.Valid limits) (hpulling : body.progress.pulling = false)
    (h : Holds limits body.leased retired input left) :
    match body.rest limits left with
    | .error error => ∃ after : Reader S E,
        collectedBody body input = (.error (.protocol error), after) ∧ after.Closed
    | .ok (value, rest) => ∃ after : Reader S E,
        collectedBody body input = (.ok value, after) ∧ Holds limits false retired after rest := by
  have hspec := collectedLoop_spec (input.unread + 1) [] hvalid hpulling h
    (by rw [h.unread_eq]; exact lt_succ_self _)
  unfold collectedBody
  cases hrest : body.rest limits left with
  | error error =>
    rw [hrest] at hspec
    obtain ⟨body', after, hrun, hphase, hclosed⟩ := hspec
    rw [hrun]
    refine ⟨after, ?_, hclosed⟩
    simp only [dispose, hphase]; rfl
  | ok result =>
    rw [hrest] at hspec
    obtain ⟨body', after, hrun, hphase, hholds⟩ := hspec
    rw [hrun]
    refine ⟨after, ?_, hholds⟩
    simp only [dispose, hphase]; rfl

end

end Loom.Http
