import Mathlib.Data.Nat.Log
import Loom.Checking.IncrementalCodec

/-
  The round trip of the incremental-check cache.
-/

namespace Loom.IncrementalCache

open Utf8 Texts Framed Machine Results Nat Decimal

/-! ## Decimal numbers -/

/-- The digits of a number below 10 ^ (k + 1), the leading one first. -/
def places : Nat → Nat → List Nat
  | 0, m => [m]
  | k + 1, m => m / 10 ^ (k + 1) :: places k (m % 10 ^ (k + 1))

variable {m : Nat} {α : Type} {value : Expr} {values : List Expr}

theorem places_lt (k : Nat) (h : m < 10 ^ (k + 1)) : ∀ digit ∈ places k m, digit < 10 := by
  induction k generalizing m with
  | zero => simpa [places] using h
  | succ k ih =>
    have hpos : 0 < 10 ^ (k + 1) := by positivity
    rw [places, List.forall_mem_cons]
    exact ⟨Nat.div_lt_of_lt_mul (by rwa [← Nat.pow_succ]), ih (Nat.mod_lt m hpos)⟩

theorem places_length (k m : Nat) : (places k m).length = k + 1 := by
  induction k generalizing m with
  | zero => rfl
  | succ k ih => rw [places, List.length_cons, ih]

theorem continued_places (k : Nat) {start : Nat} (h : m < 10 ^ (k + 1)) :
    continued start (places k m) = start * 10 ^ (k + 1) + m := by
  induction k generalizing m start with
  | zero =>
    show 10 * start + m = start * 10 ^ 1 + m
    omega
  | succ k ih =>
    have hpos : 0 < 10 ^ (k + 1) := by positivity
    rw [places, continued_cons, ih (mod_lt m hpos)]
    calc (10 * start + m / 10 ^ (k + 1)) * 10 ^ (k + 1) + m % 10 ^ (k + 1)
        = start * 10 ^ (k + 1 + 1) + (10 ^ (k + 1) * (m / 10 ^ (k + 1)) + m % 10 ^ (k + 1)) := by
          ring
      _ = start * 10 ^ (k + 1 + 1) + m := by rw [div_add_mod]

/-- The digits, as the loop pushes them. -/
theorem decimalDigits_spec (k bound : Nat) (h : m < 10 ^ (k + 1)) (hbound : k + 1 < bound) :
    decimalDigits bound (-m) ((10 ^ k : Nat) : Int) =
      .ok ((places k m).map fun digit => UInt8.ofNat (48 + digit)) := by
  have hdigit : ∀ n : Nat, n < 10 → orFault (sub 48 (-(n : Int))) = .ok ((48 + n : Nat) : Int) := by
    intro n hn
    have hsub : sub 48 (-(n : Int)) = some (48 - -(n : Int)) := sub_eq ⟨by omega, by omega⟩
    rw [hsub, show (48 : Int) - -(n : Int) = ((48 + n : Nat) : Int) by push_cast; ring]
    rfl
  induction k generalizing m bound with
  | zero =>
    obtain ⟨bound, rfl⟩ : ∃ b, bound = b + 2 := ⟨bound - 2, by omega⟩
    have hlast : (((10 ^ 0 : Nat) : Int)).tdiv 10 = 0 := by decide
    rw [decimalDigits, if_pos (by decide), neg_tdiv_natCast, hdigit _ (by simpa using h),
      decimalDigits, Nat.pow_zero, Nat.div_one]
    rfl
  | succ k ih =>
    obtain ⟨bound, rfl⟩ : ∃ b, bound = b + 1 := ⟨bound - 1, by omega⟩
    have hpos : 0 < 10 ^ (k + 1) := by positivity
    have hlead : m / 10 ^ (k + 1) < 10 := Nat.div_lt_of_lt_mul (by rwa [← Nat.pow_succ])
    have hnext : (((10 ^ (k + 1) : Nat) : Int)).tdiv 10 = ((10 ^ k : Nat) : Int) := by
      show (((10 ^ (k + 1) / 10 : Nat)) : Int) = _
      rw [Nat.pow_succ, Nat.mul_div_cancel _ (by decide)]
    rw [decimalDigits, if_pos (by exact_mod_cast hpos), neg_tdiv_natCast, hdigit _ hlead,
      neg_tmod_natCast, hnext, ih bound (Nat.mod_lt m hpos) (by omega)]
    rfl

theorem divisorFor_spec {k : Nat} (hsmall : k ≤ 18) (hlow : k = 0 ∨ 10 ^ k ≤ m)
    (hhigh : m < 10 ^ (k + 1)) : ∀ (left j bound : Nat), j + left = k → left < bound →
    divisorFor bound (-m) ((10 ^ j : Nat) : Int) = .ok ((10 ^ k : Nat) : Int) := by
  intro left
  induction left with
  | zero =>
    intro j bound hj hbound
    obtain ⟨bound, rfl⟩ : ∃ b, bound = b + 1 := ⟨bound - 1, by omega⟩
    obtain rfl : j = k := by omega
    have hlead : m / 10 ^ j < 10 := Nat.div_lt_of_lt_mul (by rwa [← Nat.pow_succ])
    rw [divisorFor, neg_tdiv_natCast, if_neg (by omega)]; rfl
  | succ left ih =>
    intro j bound hj hbound
    obtain ⟨bound, rfl⟩ : ∃ b, bound = b + 1 := ⟨bound - 1, by omega⟩
    have hmore : 10 ≤ m / 10 ^ j := by
      rw [Nat.le_div_iff_mul_le (by positivity), ← Nat.pow_succ']
      exact (Nat.pow_le_pow_right (by decide) (by omega)).trans (hlow.resolve_left (by omega))
    have hfits : 10 ^ (j + 1) ≤ 10 ^ 18 := Nat.pow_le_pow_right (by decide) (by omega)
    have hmul : mul ((10 ^ j : Nat) : Int) 10 = some ((10 ^ (j + 1) : Nat) : Int) := by
      have hcast : ((10 ^ j : Nat) : Int) * 10 = ((10 ^ (j + 1) : Nat) : Int) := by
        push_cast
        ring
      exact mul_eq (hcast ▸ fits_of_bounds (Int.natCast_nonneg _) (by omega))
    rw [divisorFor, neg_tdiv_natCast, if_pos (by omega), hmul]
    exact ih (j + 1) bound (by omega) (by omega)

/-- Below 10 ^ (k + 1), and not below 10 ^ k unless it has one digit. -/
def Wide (k m : Nat) : Prop := (k = 0 ∨ 10 ^ k ≤ m) ∧ m < 10 ^ (k + 1)

theorem exists_wide (h : m < 10 ^ 19) : ∃ k ≤ 18, Wide k m := by
  refine ⟨Nat.log 10 m, ?_, ?_, lt_pow_succ_log_self (by decide) m⟩
  · exact le_of_lt_succ (log_lt_of_lt_pow' (by decide) h)
  · by_cases hzero : m = 0
    · exact .inl (by rw [hzero]; exact log_zero_right 10)
    · exact .inr (pow_log_le_self 10 hzero)

theorem sizeFor_spec (k : Nat) {number : Int} (size : Nat) {bound : Nat} (hwide : Wide k number.natAbs)
    (hbound : k < bound) (hroom : size + k ≤ 20) :
    sizeFor bound number size = .ok ((size + k : Nat) : Int) := by
  induction k generalizing number size bound with
  | zero =>
    obtain ⟨bound, rfl⟩ : ∃ b, bound = b + 1 := ⟨bound - 1, by omega⟩
    have hhigh := hwide.2
    rw [sizeFor, if_neg (by omega)]; rfl
  | succ k ih =>
    obtain ⟨bound, rfl⟩ : ∃ b, bound = b + 1 := ⟨bound - 1, by omega⟩
    have hlow : 10 ^ (k + 1) ≤ number.natAbs := hwide.1.resolve_left (by omega)
    have hpow : 10 ≤ 10 ^ (k + 1) := by
      rw [pow_succ]; exact Nat.le_mul_of_pos_left 10 (by positivity)
    have hadd : add (size : Int) 1 = some ((size + 1 : Nat) : Int) := by
      exact add_eq ⟨by omega, by omega⟩
    have hnext : Wide k (number.tdiv 10).natAbs := by
      rw [Int.natAbs_tdiv]
      show Wide k (number.natAbs / 10)
      refine ⟨.inr ?_, ?_⟩
      · exact (le_div_iff_mul_le (by decide)).mpr (by rwa [← pow_succ])
      · exact Nat.div_lt_of_lt_mul (by rw [← Nat.pow_succ']; exact hwide.2)
    have hrest := ih (size + 1) hnext (Nat.lt_of_succ_lt_succ hbound) (show size + 1 + k ≤ 20 by omega)
    rw [sizeFor, if_pos (by omega), hadd]
    rw [Nat.add_assoc, Nat.add_comm 1 k] at hrest; exact hrest

theorem cacheDecimal_spec {value : Int} (h : Fits value) {k : Nat} (hk : k ≤ 18)
    (hwide : Wide k value.natAbs) : ∃ encoded, cacheDecimal value = .ok encoded ∧
      parse (encoded.map UInt8.toNat) = .ok value ∧
      (∀ byte ∈ encoded, byte ≠ 10 ∧ byte < 128) ∧
      encoded.length = (if value < 0 then 2 else 1) + k := by
  obtain ⟨m, hm⟩ : ∃ m, m = value.natAbs := ⟨_, rfl⟩
  rw [← hm] at hwide
  have hnumber : (if value > 0 then -value else value) = -(m : Int) := by
    split <;> omega
  have hdivisor : divisorFor turns (-(m : Int)) 1 = .ok ((10 ^ k : Nat) : Int) :=
    divisorFor_spec hk hwide.1 hwide.2 k 0 turns (zero_add k) (by unfold turns; omega)
  have hdigits := decimalDigits_spec k turns hwide.2 (by unfold turns; omega)
  have hsmall := places_lt k hwide.2
  have hcontinued : continued 0 (places k m) = m := by
    rw [continued_places k hwide.2, zero_mul, zero_add]
  have hbytes : ((places k m).map fun digit => UInt8.ofNat (48 + digit)).map UInt8.toNat =
      (places k m).map (48 + ·) := by
    rw [List.map_map]
    refine List.map_congr_left fun digit hmem => ?_
    have hlt := hsmall digit hmem
    show (UInt8.ofNat (48 + digit)).toNat = 48 + digit
    rw [UInt8.toNat_ofNat', mod_eq_of_lt (by omega)]
  have hne : places k m ≠ [] := List.ne_nil_of_length_pos (by rw [places_length]; omega)
  have hread := parse_digits hne hsmall (hcontinued.trans hm) h.1 h.2
  have hascii : ∀ byte ∈ (places k m).map fun digit => UInt8.ofNat (48 + digit),
      byte ≠ 10 ∧ byte < 128 := by
    intro byte hmem
    obtain ⟨digit, hdigit, rfl⟩ := List.mem_map.mp hmem
    have hall : ∀ digit < 10, UInt8.ofNat (48 + digit) ≠ 10 ∧ UInt8.ofNat (48 + digit) < 128 := by
      decide
    exact hall digit (hsmall digit hdigit)
  obtain ⟨hlow, hhigh⟩ := h
  unfold cacheDecimal
  dsimp only
  rw [hnumber, hdivisor, ok_bind, hdigits]
  by_cases hneg : value < 0
  · rw [if_pos hneg, if_pos hneg]
    refine ⟨_, rfl, ?_, ?_, ?_⟩
    · rw [if_pos hneg] at hread
      rw [List.map_append, hbytes]; exact hread
    · exact List.forall_mem_cons.mpr ⟨by decide, hascii⟩
    · rw [List.singleton_append, List.length_cons, List.length_map, places_length]
      omega
  · rw [if_neg hneg, if_neg hneg]
    refine ⟨_, rfl, ?_, hascii, ?_⟩
    · rw [if_neg hneg] at hread
      rw [List.nil_append, hbytes]; exact hread
    · rw [List.nil_append, List.length_map, places_length]; omega

/-! ## Fields -/

theorem length_size (front size : List UInt8) :
    (front ++ size ++ [10]).length = front.length + size.length + 1 := by
  rw [List.length_append, List.length_append, List.length_singleton]

theorem cacheField_spec {text : String} {front size payload back : List UInt8}
    (hsize : parse (size.map UInt8.toNat) = .ok (payload.length : Int))
    (hascii : ∀ byte ∈ size, byte ≠ 10 ∧ byte < 128)
    (htext : bytes text = front ++ (size ++ 10 :: payload) ++ back) : cacheField text front.length =
      .ok ((front.length + size.length + 1, front.length + size.length + 1 + payload.length),
        front.length + (size ++ 10 :: payload).length) := by
  have hdrop : (bytes text).drop front.length = size ++ 10 :: (payload ++ back) := by
    rw [htext, List.append_assoc, List.drop_left, List.append_assoc]; rfl
  have hscan : ((bytes text).drop front.length).takeWhile (· != 10) = size := by
    rw [hdrop, List.takeWhile_append_of_pos fun byte hmem => by simpa using (hascii byte hmem).1]
    simp
  have hrange : parseRange text front.length (front.length + size.length) =
      .ok (payload.length : Int) := by
    unfold parseRange
    rw [hdrop, Nat.add_sub_cancel_left, List.take_left, hsize]
  have hlength : length text = front.length + (size.length + (payload.length + 1)) + back.length := by
    rw [length, htext]; simp only [List.length_append, List.length_cons]
  unfold cacheField
  dsimp only
  rw [hscan, hrange]
  dsimp only
  rw [if_neg (by omega), Int.toNat_natCast, List.length_append, List.length_cons]
  congr 2
  omega

theorem natFits {n : Nat} (h : n < 2 ^ 63) : Fits n := fits_of_bounds (Int.natCast_nonneg n) (by omega)

theorem natSmall {n : Nat} (h : n < 2 ^ 63) : n < 10 ^ 19 := h.trans (by decide)

theorem codes_text {value : String} (h : length value < 2 ^ 63) :
    Codes (cacheText value) cacheReadText value := by
  obtain ⟨k, hk, hwide⟩ := exists_wide (natSmall h)
  obtain ⟨size, hwrite, hparse, hascii, -⟩ := cacheDecimal_spec (natFits h) hk hwide
  have hvalid : Valid (size ++ 10 :: bytes value) :=
    (valid_of_ascii fun byte hmem => (hascii byte hmem).2).append
      ((valid_bytes value).cons (by decide))
  refine ⟨size ++ 10 :: bytes value, ?_, hvalid, fun text front back htext hback _ => ?_⟩
  · unfold cacheText
    rw [hwrite]; rfl
  · unfold cacheReadText
    rw [run_bind (cacheField_spec hparse hascii htext)]
    split
    case isTrue hempty =>
      have hnil : bytes value = [] := List.length_eq_zero_iff.mp (by omega)
      have hvalue : value = "" := bytes_injective hnil
      rw [hvalue]; rfl
    case isFalse =>
      have hbytes : bytes text = front ++ size ++ [10] ++ bytes value ++ back := by
        rw [htext]; simp
      have hcut := slice_eq hbytes hback
      rw [length_size] at hcut
      show (slice text _ _ >>= fun found => Except.ok (found, _)) = _
      rw [show (bytes value).length = length value from rfl, hcut]; rfl

theorem cacheInt_spec {value : Int} (h : Fits value) : ∃ size digits,
    cacheInt value = .ok (size ++ 10 :: digits) ∧
    parse (size.map UInt8.toNat) = .ok (digits.length : Int) ∧
    parse (digits.map UInt8.toNat) = .ok value ∧
    (∀ byte ∈ size, byte ≠ 10 ∧ byte < 128) ∧ ∀ byte ∈ digits, byte ≠ 10 ∧ byte < 128 := by
  obtain ⟨k, hk, hwide⟩ := exists_wide (m := value.natAbs) (by
    have := h.1
    have := h.2
    omega)
  obtain ⟨digits, hwrite, hparse, hascii, hlength⟩ := cacheDecimal_spec h hk hwide
  have hroom : digits.length < 2 ^ 63 := by
    rw [hlength]
    split <;> omega
  obtain ⟨k', hk', hwide'⟩ := exists_wide (natSmall hroom)
  obtain ⟨size, hsize, hparse', hascii', -⟩ := cacheDecimal_spec (natFits hroom) hk' hwide'
  have hcount : sizeFor turns value (if value < 0 then 2 else 1) = .ok (digits.length : Int) := by
    rw [hlength]
    split
    · exact sizeFor_spec k 2 hwide (by unfold turns; omega) (by omega)
    · exact sizeFor_spec k 1 hwide (by unfold turns; omega) (by omega)
  refine ⟨size, digits, ?_, hparse', hparse, hascii', hascii⟩
  unfold cacheInt
  rw [hcount, ok_bind, hsize, hwrite]; rfl

theorem codes_int (value : Number) : Codes (cacheInt value) cacheReadInt value := by
  obtain ⟨size, digits, hwrite, hsize, hparse, hascii, hascii'⟩ := cacheInt_spec value.2
  have hvalid : Valid (size ++ 10 :: digits) :=
    (valid_of_ascii fun byte hmem => (hascii byte hmem).2).append
      ((valid_of_ascii fun byte hmem => (hascii' byte hmem).2).cons (by decide))
  refine ⟨size ++ 10 :: digits, hwrite, hvalid, fun text front back htext hback _ => ?_⟩
  have hrange : parseRange text (front.length + size.length + 1)
      (front.length + size.length + 1 + digits.length) = .ok value.val := by
    have hbytes : bytes text = front ++ size ++ [10] ++ (digits ++ back) := by
      rw [htext]; simp
    unfold parseRange
    rw [hbytes, ← length_size, List.drop_left, Nat.add_sub_cancel_left, List.take_left, hparse]
  unfold cacheReadInt
  rw [run_bind (cacheField_spec hsize hascii htext)]
  split
  case h_1 found hfound =>
    rw [hrange] at hfound
    have hsame : found = value.val := (Except.ok.inj hfound).symm
    subst hsame; rfl
  case h_2 failed hfound =>
    rw [hrange] at hfound
    cases hfound

/-! ## Loops of fields -/

/-- A writer that writes something. -/
def Grows (write : Write) : Prop := ∀ encoded, write = .ok encoded → encoded ≠ []

theorem grows_all {write : Write} (h : Grows write) (rest : List Write) :
    Grows (writeAll (write :: rest)) := by
  intro encoded hall
  obtain ⟨front, hfront, hall⟩ := bind_eq_ok.mp hall
  obtain ⟨back, -, hall⟩ := bind_eq_ok.mp hall
  rw [← pure_eq_ok.mp hall]
  exact List.append_ne_nil_of_left_ne_nil (h front hfront) back

theorem grows_int (value : Int) : Grows (cacheInt value) := by
  intro encoded h
  obtain ⟨size, -, h⟩ := bind_eq_ok.mp h
  obtain ⟨prefixed, -, h⟩ := bind_eq_ok.mp h
  obtain ⟨digits, -, h⟩ := bind_eq_ok.mp h
  rw [← pure_eq_ok.mp h]
  exact List.append_ne_nil_of_right_ne_nil _ (List.cons_ne_nil _ _)

theorem grows_text (value : String) : Grows (cacheText value) := by
  intro encoded h
  obtain ⟨size, -, h⟩ := bind_eq_ok.mp h
  rw [← pure_eq_ok.mp h]
  exact List.append_ne_nil_of_right_ne_nil _ (List.cons_ne_nil _ _)

theorem length_writeAll {writes : List Write} (h : ∀ write ∈ writes, Grows write)
    {encoded : List UInt8} (hall : writeAll writes = .ok encoded) :
    writes.length ≤ encoded.length := by
  induction writes generalizing encoded with
  | nil => exact zero_le _
  | cons write rest ih =>
    obtain ⟨front, hfront, hall⟩ := bind_eq_ok.mp hall
    obtain ⟨back, hback, hall⟩ := bind_eq_ok.mp hall
    have hpos := List.length_pos_of_ne_nil (h write (.head _) front hfront)
    have hrest := ih (fun other hmem => h other (.tail _ hmem)) hback
    rw [← pure_eq_ok.mp hall, List.length_append, List.length_cons]; omega

/-- A counted loop. Values that take a byte each are no more than the bytes that are left. -/
theorem codes_list {write : α → Write} {read : Read α} {values : List α}
    (hcount : values.length < 2 ^ 63) (h : ∀ value ∈ values, Codes (write value) read value)
    (hgrows : ∀ value ∈ values, Grows (write value)) :
    Codes (cacheList write values) (cacheReadList read) values := by
  obtain ⟨count, hwrite, hvalid, hread⟩ := codes_int ⟨values.length, natFits hcount⟩
  obtain ⟨others, hothers, hvalid', hread'⟩ := Codes.list values h
  have hroom : values.length ≤ others.length := by
    have hle := length_writeAll (by simpa using hgrows) hothers
    rwa [List.length_map] at hle
  refine ⟨count ++ others, ?_, hvalid.append hvalid', fun text front back htext hback hsmall => ?_⟩
  · unfold cacheList
    rw [hwrite, hothers]; simp [writeAll, bind, Except.bind, pure, Except.pure]
  · have hfirst := hread text front (others ++ back) (by simpa using htext) (hvalid'.append hback)
      hsmall
    have hsecond := hread' text (front ++ count) back (by simpa using htext) hback hsmall
    rw [List.length_append] at hsecond
    have hlength : length text = front.length + (count.length + others.length) + back.length := by
      rw [length, htext]; simp only [List.length_append]
    have hnumber : cacheReadCount text front.length =
        .ok (values.length, front.length + count.length) := by
      unfold cacheReadCount
      rw [run_bind hfirst]
      dsimp only
      rw [if_neg (by omega), Int.toNat_natCast]
    unfold cacheReadList
    rw [run_bind hnumber, hsecond, List.length_append, add_assoc]

theorem codes_ints {values : List Number} (h : values.length < 2 ^ 63) :
    Codes (cacheInts values) cacheReadInts values := by
  exact codes_list h (fun value _ => codes_int value) fun value _ => grows_int value

theorem codes_bool (value : Bool) : Codes (cacheBool value) cacheReadBool value := by
  obtain ⟨number, hnumber, hread⟩ : ∃ number : Number, cacheBool value = cacheInt number ∧
      ∀ text cursor after, cacheReadInt text cursor = .ok (number, after) →
        cacheReadBool text cursor = .ok (value, after) := by
    cases value with
    | false => exact ⟨⟨0, by decide⟩, rfl, fun text cursor after h => by
        unfold cacheReadBool
        rw [run_bind h]
        rfl⟩
    | true => exact ⟨⟨1, by decide⟩, rfl, fun text cursor after h => by
        unfold cacheReadBool
        rw [run_bind h]
        rfl⟩
  obtain ⟨encoded, hwrite, hvalid, hint⟩ := codes_int number
  exact ⟨encoded, hnumber ▸ hwrite, hvalid, fun text front back htext hback hsmall =>
    hread text _ _ (hint text front back htext hback hsmall)⟩

theorem codes_span (value : Span) : Codes (cacheSpan value) cacheReadSpan value :=
  .step (codes_int value.start) (.step (codes_int value.stop) (.done (.pure value)))

/-! ## Kinds -/

theorem silent_kind [DecidableEq α] {kinds : List α} {kind : α} (h : kind ∈ kinds)
    (message : String) {tag : Number} (htag : tag.val = (kinds.idxOf kind : Nat)) :
    Silent (kindOf kinds message tag) kind := by
  intro text cursor
  have hlt := List.idxOf_lt_length_of_mem h
  have hat : kinds[tag.val.toNat]? = some kind := by
    rw [htag, Int.toNat_natCast, List.getElem?_eq_getElem hlt, List.getElem_idxOf hlt]
  unfold kindOf
  rw [if_neg (by omega), hat]

theorem ExprKind.mem_all (kind : ExprKind) : kind ∈ ExprKind.all := by
  cases kind <;> decide

def ExprKind.number (kind : ExprKind) : Number :=
  ⟨kind.tag, natFits ((List.idxOf_lt_length_of_mem kind.mem_all).trans (by decide))⟩

/-! ## Expressions -/

/-- A list that can be counted, of values with a property. -/
def Each {α : Type} (property : α → Prop) (values : List α) : Prop :=
  values.length < 2 ^ 63 ∧ ∀ value ∈ values, property value

def Countable {α : Type} (values : List α) : Prop := values.length < 2 ^ 63

def WithinArm (within : Expr → Prop) : Arm → Prop
  | .arm _ bindings _ body => Countable bindings ∧ Each within body

/-- An expression of so many levels; its lists and texts can be counted. -/
def Within : Nat → Expr → Prop
  | 0, _ => False
  | room + 1, .node _ _ _ text _ children arms _ =>
    length text < 2 ^ 63 ∧ Each (Within room) children ∧ Each (WithinArm (Within room)) arms

theorem codes_each {write : α → Write} {read : Read α} {property : α → Prop} {values : List α}
    (h : Each property values) (hcodes : ∀ value, property value → Codes (write value) read value)
    (hgrows : ∀ value, Grows (write value)) :
    Codes (cacheList write values) (cacheReadList read) values :=
  codes_list h.1 (fun value hmem => hcodes value (h.2 value hmem)) fun value _ => hgrows value

theorem grows_arm (write : Expr → Write) (value : Arm) : Grows (cacheArm write value) := by
  cases value
  exact grows_all (grows_int _) _

theorem grows_expression (room : Nat) (value : Expr) : Grows (cacheExpression room value) := by
  cases value
  cases room with
  | zero => exact fun encoded h => absurd h nofun
  | succ room => exact grows_all (grows_int _) _

theorem codes_arm {write : Expr → Write} {read : Read Expr} {within : Expr → Prop}
    (hcodes : ∀ value, within value → Codes (write value) read value)
    (hgrows : ∀ value, Grows (write value)) {value : Arm} (h : WithinArm within value) :
    Codes (cacheArm write value) (cacheReadArm read) value := by
  obtain ⟨variant, bindings, whole, body⟩ := value
  exact .step (codes_int variant) (.step (codes_ints h.1) (.step (codes_int whole)
    (.step (codes_each h.2 hcodes hgrows) (.done (.pure _)))))

theorem codes_expression (room : Nat) (h : Within room value) :
    Codes (cacheExpression room value) (cacheReadExpression room) value := by
  induction room generalizing value with
  | zero => exact absurd h (by exact id)
  | succ room ih =>
    obtain ⟨kind, ty, span, text, index, children, arms, falls⟩ := value
    obtain ⟨htext, hchildren, harms⟩ := h
    exact .step (codes_int kind.number) (.silent (silent_kind kind.mem_all _ rfl)
      (.step (codes_int ty) (.step (codes_span span) (.step (codes_text htext)
      (.step (codes_int index) (.step (codes_bool falls)
      (.step (codes_each hchildren (fun _ => ih) (grows_expression room))
      (.step (codes_each harms (fun _ => codes_arm (fun _ => ih) (grows_expression room))
        (grows_arm _)) (.done (.pure _))))))))))

/-! ## Nesting -/

mutual

/-- How deep expressions are nested below an expression. -/
def Expr.depth : Expr → Nat
  | .node _ _ _ _ _ children arms _ => max (depths children) (armDepths arms)

def depths : List Expr → Nat
  | [] => 0
  | first :: rest => max (first.depth + 1) (depths rest)

def armDepths : List Arm → Nat
  | [] => 0
  | .arm _ _ _ body :: rest => max (depths body) (armDepths rest)

end

mutual

/-- The lists and texts of an expression have lengths that are integers. -/
def Expr.Sized : Expr → Prop
  | .node _ _ _ text _ children arms _ =>
    length text < 2 ^ 63 ∧ Countable children ∧ Countable arms ∧ sizedAll children ∧ sizedArms arms

def sizedAll : List Expr → Prop
  | [] => True
  | first :: rest => first.Sized ∧ sizedAll rest

def sizedArms : List Arm → Prop
  | [] => True
  | .arm _ bindings _ body :: rest =>
    Countable bindings ∧ Countable body ∧ sizedAll body ∧ sizedArms rest

end

theorem depth_of_mem (h : value ∈ values) : value.depth + 1 ≤ depths values := by
  induction values with
  | nil => exact absurd h List.not_mem_nil
  | cons first rest ih =>
    obtain rfl | hrest := List.mem_cons.mp h
    · exact le_max_left _ _
    · exact (ih hrest).trans (le_max_right _ _)

theorem sized_of_mem (hsized : sizedAll values) (h : value ∈ values) : value.Sized := by
  induction values with
  | nil => exact absurd h List.not_mem_nil
  | cons first rest ih =>
    obtain rfl | hrest := List.mem_cons.mp h
    · exact hsized.1
    · exact ih hsized.2 hrest

theorem within_arms {room : Nat} {arms : List Arm} (hsized : sizedArms arms)
    (hdepth : armDepths arms ≤ room)
    (hbody : ∀ value : Expr, value.depth < room → value.Sized → Within room value) :
    ∀ value ∈ arms, WithinArm (Within room) value := by
  induction arms with
  | nil => exact fun _ hmem => absurd hmem List.not_mem_nil
  | cons first rest ih =>
    obtain ⟨variant, bindings, whole, body⟩ := first
    obtain ⟨hbindings, hcount, hall, hrest⟩ := hsized
    rw [armDepths, Nat.max_le] at hdepth
    refine List.forall_mem_cons.mpr ⟨⟨hbindings, hcount, fun value hmem => ?_⟩, ih hrest hdepth.2⟩
    exact hbody value ((depth_of_mem hmem).trans hdepth.1) (sized_of_mem hall hmem)

theorem within_of_depth (room : Nat) (hdepth : value.depth < room) (hsized : value.Sized) :
    Within room value := by
  induction room generalizing value with
  | zero => exact absurd hdepth (not_lt_zero _)
  | succ room ih =>
    obtain ⟨kind, ty, span, text, index, children, arms, falls⟩ := value
    obtain ⟨htext, hchildren, harms, hall, hallArms⟩ := hsized
    rw [Expr.depth, Nat.lt_succ_iff, Nat.max_le] at hdepth
    refine ⟨htext, ⟨hchildren, fun child hmem => ?_⟩, harms, ?_⟩
    · exact ih ((depth_of_mem hmem).trans hdepth.1) (sized_of_mem hall hmem)
    · exact within_arms hallArms hdepth.2 fun body => ih

/-! ## Functions and types -/

/-- An expression that the codec has room for, at depth 0. -/
def Expr.Fits (value : Expr) : Prop := value.depth ≤ 256 ∧ value.Sized

/-- A function with such expressions; its lists and texts can be counted. -/
structure Function.Fits (value : Function) : Prop where
  arguments : Countable value.arguments
  params : Countable value.params
  locals : Each (fun loc => length loc.name < 2 ^ 63) value.locals
  preconditions : Each Expr.Fits value.preconditions
  postconditions : Each Expr.Fits value.postconditions
  resultCleanup : Each Expr.Fits value.resultCleanup
  body : value.body.Fits
  runtimeName : length value.runtimeName < 2 ^ 63

theorem codes_local {value : Local} (h : length value.name < 2 ^ 63) :
    Codes (cacheLocal value) cacheReadLocal value :=
  .step (codes_text h) (.step (codes_int value.ty) (.step (codes_bool value.mutable)
    (.step (codes_bool value.isScoped) (.done (.pure value)))))

theorem codes_fitting (h : value.Fits) :
    Codes (cacheExpression levels value) (cacheReadExpression levels) value :=
  codes_expression levels (within_of_depth levels (lt_succ_of_le h.1) h.2)

theorem codes_expressions (h : Each Expr.Fits values) :
    Codes (cacheList (cacheExpression levels) values)
      (cacheReadList (cacheReadExpression levels)) values :=
  codes_each h (fun _ => codes_fitting) (grows_expression levels)

theorem codes_function {value : Function} (h : value.Fits) :
    Codes (cacheFunction value) cacheReadFunction value :=
  .step (codes_bool value.isAsync) (.step (codes_int value.symbol) (.step (codes_ints h.arguments)
    (.step (codes_ints h.params) (.step (codes_int value.result)
    (.step (codes_each h.locals (fun _ => codes_local) fun _ => grows_all (grows_text _) _)
    (.step (codes_expressions h.preconditions) (.step (codes_expressions h.postconditions)
    (.step (codes_expressions h.resultCleanup) (.step (codes_int value.resultLocal)
    (.step (codes_fitting h.body) (.step (codes_text h.runtimeName)
    (.step (codes_span value.span) (.done (.pure value))))))))))))))

/-! ## The round trip -/

/-- What is written for an expression or a function whose nesting is no deeper than 256
is read back as an equal value, and the whole text with it. -/
theorem cache_round_trip : (∀ value : Expr, value.Fits →
      ∃ encoded, cacheExpression levels value = .ok encoded ∧ ∃ text, bytes text = encoded ∧
        (length text < 2 ^ 63 → cacheReadExpression levels text 0 = .ok (value, length text))) ∧
    ∀ value : Function, value.Fits →
      ∃ encoded, cacheFunction value = .ok encoded ∧ ∃ text, bytes text = encoded ∧
        (length text < 2 ^ 63 → cacheReadFunction text 0 = .ok (value, length text)) :=
  ⟨fun _ h => (codes_fitting h).round_trip, fun _ h => (codes_function h).round_trip⟩

/-- A negative literal with a name that is not ASCII, in the arm of a match. -/
def sample : Expr :=
  let least : Number := ⟨-2 ^ 63, by decide⟩
  let leaf : Expr := .node .integer least ⟨least, least⟩ "größe\n12\n" least [] [] false
  .node .matchArms least ⟨least, least⟩ "" least [leaf] [.arm least [least] least [leaf, leaf]] true

theorem cache_round_trip_sample :
    ∃ encoded, cacheExpression levels sample = .ok encoded ∧ ∃ text, bytes text = encoded ∧
      (length text < 2 ^ 63 → cacheReadExpression levels text 0 = .ok (sample, length text)) :=
  cache_round_trip.1 sample ⟨by decide, by
    simp only [sample, Expr.Sized, sizedAll, sizedArms, Countable]
    decide⟩

end Loom.IncrementalCache
