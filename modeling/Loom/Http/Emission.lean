import Loom.Http.Encoder
import Loom.Http.Whole
import Loom.Library.Results

/-
  What is emitted is read back: lines, fields, numbers and chunks.

  The octets of a line are counted alike by the two sides, whatever the order in
  which a section spends its budget; so a section is read back from any budget that
  it fits in, and what follows it is left.
-/

namespace Loom.Http

open Results List Nat

/-! ## Lines -/

/-- Some lines, each with its end. -/
def wire (lines : List Bytes) : Bytes := lines.flatMap (· ++ [13, 10])

theorem wire_cons (value : Bytes) (lines : List Bytes) :
    wire (value :: lines) = value ++ 13 :: 10 :: wire lines := by
  simp [wire]

theorem wire_append (first second : List Bytes) : wire (first ++ second) = wire first ++ wire second :=
  flatMap_append

theorem wire_cons_length (value : Bytes) (lines : List Bytes) :
    (wire (value :: lines)).length = value.length + 2 + (wire lines).length := by
  rw [wire_cons, length_append, length_cons, length_cons]; omega

/-- The octets of a line. -/
def Plain (value : Bytes) : Prop := ∀ octet ∈ value, octet ≠ 10 ∧ octet ≠ 13

theorem plain_append {first second : Bytes} (h : Plain first) (h' : Plain second) :
    Plain (first ++ second) := by
  intro octet hmem
  obtain hmem | hmem := mem_append.mp hmem
  · exact h octet hmem
  · exact h' octet hmem

/-- Lines that can be written and read under some limits. -/
def Fit (limits : Limits) (lines : List Bytes) : Prop :=
  ∀ value ∈ lines, Plain value ∧ value.length ≤ limits.lineBytes

/-- Some lines were written, and counted against the budget. -/
structure Emits (limits : Limits) (lines : List Bytes) (before after : Bytes × Nat) : Prop where
  output : after.1 = before.1 ++ wire lines
  budget : before.2 = after.2 + (wire lines).length
  short : ∀ value ∈ lines, value.length ≤ limits.lineBytes

variable {limits : Limits} {before after : Bytes × Nat}

theorem Emits.nil (state : Bytes × Nat) : Emits limits [] state state :=
  ⟨by simp [wire], rfl, nofun⟩

theorem Emits.append {first second : List Bytes} {middle : Bytes × Nat}
    (h : Emits limits first before middle) (h' : Emits limits second middle after) :
    Emits limits (first ++ second) before after := by
  refine ⟨?_, ?_, fun value hmem => ?_⟩
  · rw [h'.output, h.output, append_assoc, wire_append]
  · rw [h.budget, h'.budget, wire_append, length_append]; omega
  · obtain hmem | hmem := mem_append.mp hmem
    · exact h.short value hmem
    · exact h'.short value hmem

variable {value : Bytes} {maximum : Nat}

theorem emitLine_ok (h : emitLine limits value before = .ok after) :
    Emits limits [value] before after := by
  simp only [emitLine] at h
  split at h
  · cases h
  · cases h
    refine ⟨by simp [wire], ?_, fun other hmem => ?_⟩
    · rw [wire_cons_length]
      simp only [wire, flatMap_nil, length_nil]; omega
    · obtain rfl := mem_singleton.mp hmem
      omega

theorem emitFields_ok {headers : List Header} (h : emitFields limits headers before = .ok after) :
    Emits limits (headers.map fieldLine) before after := by
  induction headers generalizing before with
  | nil =>
    cases h
    exact .nil _
  | cons entry rest ih =>
    obtain ⟨middle, hline, hrest⟩ := bind_eq_ok.mp h
    exact (emitLine_ok hline).append (ih hrest)

theorem emitAdded_ok {added : Bool} (h : emitAdded limits added value before = .ok after) :
    Emits limits (if added then [value] else []) before after := by
  cases added with
  | true => exact emitLine_ok h
  | false =>
    cases h
    exact .nil _

theorem Emits.fit {lines : List Bytes} (h : Emits limits lines before after)
    (hplain : ∀ value ∈ lines, Plain value) : Fit limits lines :=
  fun value hmem => ⟨hplain value hmem, h.short value hmem⟩

theorem scan_plain {left : Nat} {output rest : Bytes} (hplain : Plain value)
    (hshort : output.length + value.length ≤ maximum) :
    scan maximum (left + value.length + 2) false output (value ++ 13 :: 10 :: rest) =
      .line left (output ++ value) rest := by
  induction value generalizing output with
  | nil => simp [scan]
  | cons octet value ih =>
    obtain ⟨hnewline, hreturn⟩ := hplain octet (.head _)
    have hbudget : left + (octet :: value).length + 2 - 1 = left + value.length + 2 := by
      rw [length_cons]; omega
    rw [cons_append, scan, if_neg (by omega), if_neg Bool.false_ne_true, if_neg hreturn,
      if_neg hnewline, if_neg (by omega), hbudget,
      ih (fun other hmem => hplain other (.tail _ hmem))
        (by rw [length_append, length_singleton]; omega)]
    simp

/-! ## What is read back -/

section
variable {left : Nat} {rest : Bytes}

variable {value : Bytes}

theorem line_wire (hfit : Fit limits [value]) :
    Whole.line limits (left + (wire [value]).length) (wire [value] ++ rest) =
      .ok ((some value, left), rest) := by
  obtain ⟨hplain, hshort⟩ := hfit value (.head _)
  have hbudget : left + (wire [value]).length = left + value.length + 2 := by
    rw [wire_cons_length]; rfl
  have hinput : wire [value] ++ rest = value ++ 13 :: 10 :: rest := by
    simp [wire]
  unfold Whole.line
  rw [hbudget, hinput, scan_plain hplain (by simpa using hshort), nil_append]

theorem requiredLine_wire (hfit : Fit limits [value]) :
    Whole.requiredLine limits (left + (wire [value]).length) (wire [value] ++ rest) =
      .ok ((value, left), rest) := by
  unfold Whole.requiredLine
  rw [line_wire hfit]

theorem firstLine_wire (hfit : Fit limits [value]) (hvalue : value ≠ []) :
    Whole.firstLine limits (left + (wire [value]).length) (wire [value] ++ rest) =
      .ok ((some value, left), rest) := by
  rw [Whole.firstLine_eq, line_wire hfit]
  simp [List.isEmpty_iff, hvalue]

theorem terminator_wire : Whole.terminator limits (left + (wire [[]]).length) (wire [[]] ++ rest) =
      .ok (left, rest) := by
  unfold Whole.terminator; rfl

/-- An entry that its line is read back as. -/
structure Written (entry : Header) : Prop where
  field : field (fieldLine entry) = .ok entry
  plain : Plain (fieldLine entry)

theorem Fit.head {lines : List Bytes} (h : Fit limits (value :: lines)) : Fit limits [value] := by
  intro other hmem
  obtain rfl := mem_singleton.mp hmem
  exact h other (.head _)

theorem Fit.tail {value : Bytes} {lines : List Bytes} (h : Fit limits (value :: lines)) :
    Fit limits lines := fun other hmem => h other (.tail _ hmem)

/-- The lines of some fields, and the empty one. -/
def fieldLines (headers : List Header) : List Bytes := headers.map fieldLine ++ [[]]

theorem text_separator : text ": " = [58, 32] := by
  decide

theorem fieldLine_ne_nil (entry : Header) : fieldLine entry ≠ [] := by
  simp [fieldLine, text_separator]

theorem fieldsLoop_wire {headers output : List Header} {trailers : Bool}
    (hfit : Fit limits (fieldLines headers)) (hwritten : ∀ entry ∈ headers, Written entry)
    (htrailers : trailers = true → ∀ entry ∈ headers, trailer entry = true) :
    Whole.fieldsLoop limits trailers (left + (wire (fieldLines headers)).length) output
        (wire (fieldLines headers) ++ rest) = .ok ((output ++ headers, left), rest) := by
  induction headers generalizing output with
  | nil =>
    have hline : Whole.requiredLine limits (left + (wire (fieldLines [])).length)
        (wire (fieldLines []) ++ rest) = .ok (([], left), rest) := requiredLine_wire hfit
    rw [Whole.fieldsLoop_ok hline]; simp
  | cons entry headers ih =>
    have hlines : fieldLines (entry :: headers) = [fieldLine entry] ++ fieldLines headers := rfl
    have hfirst : Whole.requiredLine limits (left + (wire (fieldLines (entry :: headers))).length)
        (wire (fieldLines (entry :: headers)) ++ rest) =
          .ok ((fieldLine entry, left + (wire (fieldLines headers)).length),
            wire (fieldLines headers) ++ rest) := by
      rw [hlines, wire_append, length_append, append_assoc,
        add_comm (wire [fieldLine entry]).length, ← add_assoc]
      exact requiredLine_wire hfit.head
    have htrailer : (trailers && !trailer entry) = false := by
      cases trailers with
      | false => rfl
      | true => simp [htrailers rfl entry (.head _)]
    have hempty : (fieldLine entry).isEmpty = false :=
      isEmpty_eq_false_iff.mpr (fieldLine_ne_nil entry)
    rw [Whole.fieldsLoop_ok hfirst, (hwritten entry (.head _)).field]
    simp only [hempty, htrailer]
    rw [ih hfit.tail (fun other hmem => hwritten other (.tail _ hmem))
      (fun h other hmem => htrailers h other (.tail _ hmem)), append_assoc]
    rfl

theorem fields_wire {headers : List Header} {trailers : Bool}
    (hfit : Fit limits (fieldLines headers)) (hwritten : ∀ entry ∈ headers, Written entry)
    (htrailers : trailers = true → ∀ entry ∈ headers, trailer entry = true) :
    Whole.fields limits (left + (wire (fieldLines headers)).length) trailers
        (wire (fieldLines headers) ++ rest) = .ok ((headers, left), rest) :=
  fieldsLoop_wire hfit hwritten htrailers

end

/-! ## Numbers -/

theorem accumulate_append (base maximum total : Nat) (first second : Bytes) :
    accumulate base maximum total (first ++ second) =
      match accumulate base maximum total first with
      | .error error => .error error
      | .ok total => accumulate base maximum total second := by
  induction first generalizing total with
  | nil => rfl
  | cons value first ih =>
    simp only [cons_append, accumulate]
    split
    · rfl
    · split
      · rfl
      · exact ih _

variable {n : Nat}

section
variable {base : Nat} {octet : Nat → UInt8} (hbase : 1 < base)
  (hoctet : ∀ next < base, digit (octet next) base = some next)
include hbase hoctet

/-- The digits of a number, the leading one first, are read as the number. -/
theorem accumulate_digits (h : n ≤ maximum) :
    accumulate base maximum 0 ((Nat.digits base n).reverse.map octet) = .ok n := by
  induction n using Nat.strongRecOn with
  | ind n ih =>
    by_cases hn : n = 0
    · rw [hn, digits_zero]; rfl
    · have hquotient : n / base < n := div_lt_self (pos_of_ne_zero hn) hbase
      have hsplit : n / base * base + n % base = n := div_add_mod' n base
      have hlast : n % base < base := mod_lt n (lt_trans one_pos hbase)
      have hroom : n / base ≤ (maximum - n % base) / base := by
        rw [le_div_iff_mul_le (lt_trans one_pos hbase)]; omega
      rw [digits_def' hbase (pos_of_ne_zero hn), reverse_cons, map_append,
        accumulate_append, ih _ hquotient (le_trans hquotient.le h)]
      simp only [map_cons, map_nil, accumulate, hoctet _ hlast]
      rw [if_neg (by omega), hsplit]

theorem number_digits (hn : n ≠ 0) (h : n ≤ maximum) :
    number ((Nat.digits base n).reverse.map octet) base maximum = .ok n := by
  have hdigits : (Nat.digits base n).reverse.map octet ≠ [] := by
    simpa [digits_ne_nil_iff_ne_zero] using hn
  unfold number
  rw [if_neg (by simpa  using hdigits)]; exact accumulate_digits hbase hoctet h

end

theorem hexOctet_digit : ∀ next < 16, digit (hexOctet next) 16 = some next := by
  decide

theorem number_hexadecimal (hn : n ≠ 0) (h : n ≤ maximum) :
    number (hexadecimal n) 16 maximum = .ok n := number_digits (by decide) hexOctet_digit hn h

theorem mem_hexadecimal {octet : UInt8} (h : octet ∈ hexadecimal n) :
    hexDigit octet = true ∧ octet ≠ 10 ∧ octet ≠ 13 := by
  obtain ⟨next, hnext, rfl⟩ := mem_map.mp h
  have hall : ∀ next < 16, hexDigit (hexOctet next) = true ∧ hexOctet next ≠ 10 ∧
      hexOctet next ≠ 13 := by
    decide
  exact hall next (digits_lt_base (by decide) (mem_reverse.mp hnext))

theorem chunkSize_hexadecimal (hn : n ≠ 0) (h : n ≤ maximum) :
    chunkSize (hexadecimal n) maximum = .ok n := by
  have hdigits : ∀ octet ∈ hexadecimal n, hexDigit octet = true :=
    fun octet hmem => (mem_hexadecimal hmem).1
  unfold chunkSize
  rw [takeWhile_eq_self_iff.mpr hdigits, dropWhile_eq_nil_iff.mpr hdigits,
    number_hexadecimal hn h, extensions]
  rfl

theorem chunkSize_zero (maximum : Nat) : chunkSize (text "0") maximum = .ok 0 := by
  have hzero : text "0" = [48] := by decide
  have hdigit : hexDigit 48 = true := by decide
  rw [hzero]
  unfold chunkSize
  simp only [takeWhile_cons, dropWhile_cons, hdigit, if_true]
  rw [extensions]; simp [number, accumulate, digit]

/-! ## Chunks -/

def chunkWire (piece : Bytes) : Bytes := wire [hexadecimal piece.length] ++ (piece ++ wire [[]])

def chunkLines (pieces : List Bytes) : List Bytes :=
  pieces.flatMap fun piece => [hexadecimal piece.length, []]

/-- The terminating section. -/
def lastLines (trailers : List Header) : List Bytes := text "0" :: fieldLines trailers

section
variable {left total : Nat} {rest : Bytes}

variable {trailers : List Header}

theorem emitLast_ok {before after : Bytes × Nat} (h : emitLast limits trailers before = .ok after) :
    Emits limits (lastLines trailers) before after := by
  obtain ⟨state, hzero, h⟩ := bind_eq_ok.mp h
  obtain ⟨state', hfields, hend⟩ := bind_eq_ok.mp h
  exact (emitLine_ok hzero).append ((emitFields_ok hfields).append (emitLine_ok hend))

theorem fieldLines_plain {headers : List Header} (h : ∀ entry ∈ headers, Written entry) :
    ∀ value ∈ fieldLines headers, Plain value := by
  intro value hmem
  obtain hmem | hmem := mem_append.mp hmem
  · obtain ⟨entry, hentry, rfl⟩ := mem_map.mp hmem
    exact (h entry hentry).plain
  · obtain rfl := mem_singleton.mp hmem
    exact nofun

theorem lastLines_plain (h : ∀ entry ∈ trailers, Written entry) :
    ∀ value ∈ lastLines trailers, Plain value := by
  have hzero : Plain (text "0") := by
    unfold Plain; set_option maxRecDepth 4000 in decide
  intro value hmem
  obtain rfl | hmem := mem_cons.mp hmem
  · exact hzero
  · exact fieldLines_plain h value hmem

theorem take_append (piece rest : Bytes) :
    Whole.take piece.length (piece ++ rest) = .ok (piece, rest) := by
  unfold Whole.take
  rw [if_neg (by simp), take_left, drop_left]

theorem chunks_last (hfit : Fit limits (lastLines trailers))
    (hwritten : ∀ entry ∈ trailers, Written entry)
    (htrailers : ∀ entry ∈ trailers, trailer entry = true) :
    Whole.chunks limits (left + (wire (lastLines trailers)).length) total
        (wire (lastLines trailers) ++ rest) = .ok (([], trailers), rest) := by
  have hlines : lastLines trailers = [text "0"] ++ fieldLines trailers := rfl
  have hfirst : Whole.requiredLine limits (left + (wire (lastLines trailers)).length)
      (wire (lastLines trailers) ++ rest) =
        .ok ((text "0", left + (wire (fieldLines trailers)).length),
          wire (fieldLines trailers) ++ rest) := by
    rw [hlines, wire_append, length_append, add_comm (wire [text "0"]).length, ← add_assoc]
    exact requiredLine_wire hfit.head
  rw [Whole.chunks_eq, hfirst]
  simp only [chunkSize_zero, if_true]
  rw [fields_wire hfit.tail hwritten fun _ => htrailers]

theorem chunks_wire {pieces : List Bytes} (hpieces : ∀ piece ∈ pieces, piece ≠ [])
    (hsize : total + pieces.flatten.length ≤ limits.bodyBytes)
    (hshort : ∀ piece ∈ pieces, (hexadecimal piece.length).length ≤ limits.lineBytes)
    (hfit : Fit limits (lastLines trailers)) (hwritten : ∀ entry ∈ trailers, Written entry)
    (htrailers : ∀ entry ∈ trailers, trailer entry = true) : Whole.chunks limits
        (left + (wire (lastLines trailers)).length + (wire (chunkLines pieces)).length) total
        (pieces.flatMap chunkWire ++ (wire (lastLines trailers) ++ rest)) =
      .ok ((pieces.flatten, trailers), rest) := by
  induction pieces generalizing total with
  | nil => exact chunks_last hfit hwritten htrailers
  | cons piece pieces ih =>
    have hlength : piece.length ≠ 0 := fun h => hpieces piece (.head _) (length_eq_zero_iff.mp h)
    rw [flatten_cons, length_append] at hsize
    have hhex : Fit limits [hexadecimal piece.length] := by
      intro value hmem
      obtain rfl := mem_singleton.mp hmem
      exact ⟨fun octet hoctet => (mem_hexadecimal hoctet).2, hshort piece (.head _)⟩
    -- The budget in the order in which the reader spends it.
    have hbudget : left + (wire (lastLines trailers)).length +
        (wire (chunkLines (piece :: pieces))).length =
          left + (wire (lastLines trailers)).length + (wire (chunkLines pieces)).length +
            (wire [[]]).length + (wire [hexadecimal piece.length]).length := by
      have hlines : chunkLines (piece :: pieces) =
          [hexadecimal piece.length] ++ ([[]] ++ chunkLines pieces) := rfl
      rw [hlines, wire_append, wire_append, length_append, length_append]; omega
    have hinput : (piece :: pieces).flatMap chunkWire ++ (wire (lastLines trailers) ++ rest) =
        wire [hexadecimal piece.length] ++ (piece ++ (wire [[]] ++
          (pieces.flatMap chunkWire ++ (wire (lastLines trailers) ++ rest)))) := by
      simp [flatMap_cons, chunkWire, append_assoc]
    rw [hbudget, hinput, Whole.chunks_eq, requiredLine_wire hhex]
    simp only
    rw [chunkSize_hexadecimal hlength (by omega)]
    simp only [hlength, Whole.chunkRest, take_append, terminator_wire]
    rw [ih (fun other hmem => hpieces other (.tail _ hmem)) (by omega)
      (fun other hmem => hshort other (.tail _ hmem))]
    rfl

end

end Loom.Http
