import Loom.Hashing.Sha256

/-
  Compression of a block against the standard.

  A word of the standard is an integer from 0 to 2^32 - 1 in the code. On such
  integers no operation of the schedule or of a round faults, and its masked result
  is the word that the standard computes.
-/

namespace Loom.Hashing

open Machine SecureHash
open SecureHash (Word Hash ch maj bigSigma0 bigSigma1 sigma0 sigma1 roundConstants wordOf)

/-! ## Words as integers -/

/-- A word of the standard as an integer. -/
def val (w : Word) : Int := (w.toNat : Int)

theorem word_val (w : Word) : word (val w) = w.setWidth 64 := by
  unfold word val
  rw [BitVec.ofInt_natCast, BitVec.ofNat_toNat]

theorem toInt_setWidth (w : Word) : (w.setWidth 64).toInt = val w := by
  have hnat : (w.setWidth 64).toNat = w.toNat := by
    rw [BitVec.toNat_setWidth, Nat.mod_eq_of_lt (by omega)]
  rw [toInt_of_lt (by omega)]; rfl

theorem and_val (x y : Word) : bitAnd (val x) (val y) = val (x &&& y) := by
  unfold bitAnd
  rw [word_val, word_val, ← BitVec.setWidth_and, toInt_setWidth]

theorem xor_val (x y : Word) : bitXor (val x) (val y) = val (x ^^^ y) := by
  unfold bitXor
  rw [word_val, word_val, ← BitVec.setWidth_xor, toInt_setWidth]

/-- The high bits of a complement meet zeros. -/
theorem and_complement_val (x y : Word) : bitAnd (complement (val x)) (val y) = val (~~~x &&& y) := by
  unfold bitAnd complement
  rw [word_toInt, word_val, word_val, ← toInt_setWidth]
  congr 1
  apply BitVec.eq_of_getLsbD_eq
  intro i hi
  simp only [BitVec.getLsbD_and, BitVec.getLsbD_not, BitVec.getLsbD_setWidth, hi]
  by_cases hlow : i < 32
  · simp [hlow]
  · simp [BitVec.getLsbD_of_ge y i (by omega)]

variable {n : Nat} {values : List Int} {i m : Nat}

theorem shiftRight_val (x : Word) (h : n < 64) : shiftRight (val x) n = some (val (x >>> n)) := by
  have hpos : (x.setWidth 64).msb = false := by
    rw [BitVec.msb_eq_getLsbD_last, BitVec.getLsbD_setWidth, BitVec.getLsbD_of_ge x _ (by omega),
      Bool.and_false]
  rw [shiftRight_eq _ h, word_val, BitVec.sshiftRight_eq_of_msb_false hpos, ← toInt_setWidth]
  rfl

/-- A masked sum is the sum of words. -/
theorem low_natCast (h : n < 2 ^ 63) : low n = val (BitVec.ofNat 32 n) := by
  unfold low val
  rw [show (4294967295 : Int) = ((2 ^ 32 - 1 : Nat) : Int) by decide,
    and_mask (Int.natCast_nonneg n) (by omega) (by omega)]
  norm_cast

theorem rotate_val (x : Word) (h₁ : 0 < n) (h₂ : n < 32) :
    rotate (val x) n = some (val (x.rotateRight n)) := by
  have hsub : sub 32 (n : Int) = some ((32 - n : Nat) : Int) := by
    rw [sub_eq ⟨by omega, by omega⟩]
    congr 1
    omega
  unfold rotate
  rw [shiftRight_val x (by omega), hsub]
  simp only [Option.bind_eq_bind, Option.bind_some]
  rw [shiftLeft_eq _ (by omega)]
  simp only [Option.bind_some, Option.some.injEq]
  unfold low bitOr bitAnd
  rw [word_toInt, word_toInt, word_val, word_val, ← toInt_setWidth]
  congr 1
  have hmask : word 4294967295 = BitVec.setWidth 64 (BitVec.allOnes 32) := by decide
  apply BitVec.eq_of_getLsbD_eq
  intro i hi
  have hbit : (word 4294967295).getLsbD i = decide (i < 32) := by
    rw [hmask, BitVec.getLsbD_setWidth, BitVec.getLsbD_allOnes, decide_eq_true hi, Bool.true_and]
  rw [BitVec.getLsbD_and, hbit, BitVec.rotateRight_def, Nat.mod_eq_of_lt h₂]
  by_cases hlow : i < 32
  · simp only [hlow, decide_true, Bool.and_true, BitVec.getLsbD_or, BitVec.getLsbD_setWidth,
      BitVec.getLsbD_shiftLeft, hi, Bool.true_and]
    have hsmall : i - (32 - n) < 64 := by omega
    rw [decide_eq_true hsmall, Bool.true_and]
  · simp only [hlow, decide_false, Bool.and_false, BitVec.getLsbD_setWidth, BitVec.getLsbD_or,
      BitVec.getLsbD_ushiftRight, BitVec.getLsbD_shiftLeft, Bool.false_and, Bool.or_false]
    rw [BitVec.getLsbD_of_ge x (n + i) (by omega), Bool.and_false]

/-! ## Reading and writing -/

theorem get_natCast {value : Int} (h : values[i]? = some value) : get values i = some value := by
  rw [get, if_pos (Int.natCast_nonneg i), Int.toNat_natCast, h]

theorem set_natCast (h : i < values.length) (value : Int) :
    set values i value = some (values.set i value) := by
  rw [set, if_pos ⟨Int.natCast_nonneg i, by omega⟩, Int.toNat_natCast]

theorem add_natCast (h : m + n < 2 ^ 63) : add m n = some ((m + n : Nat) : Int) := by
  rw [add_eq (fits_of_bounds (by omega) (by omega)), Int.natCast_add]

theorem sub_natCast (h₁ : n ≤ m) (h₂ : m < 2 ^ 63) : sub m n = some ((m - n : Nat) : Int) := by
  rw [sub_eq (fits_of_bounds (by omega) (by omega)), Int.natCast_sub h₁]

theorem mul_natCast (h : m * n < 2 ^ 63) : mul m n = some ((m * n : Nat) : Int) := by
  rw [mul_eq (fits_of_bounds (Int.mul_nonneg (by omega) (by omega)) (by exact_mod_cast h)), Int.natCast_mul]

/-- The first integers of a list are words. -/
def Shows (values : List Int) (words : List Word) (count : Nat) : Prop :=
  ∀ i < count, values[i]? = some (val (words.getD i 0))

/-! ## The schedule -/

theorem sigma0_val (x : Word) : ∃ y z, rotate (val x) 7 = some (val y) ∧
    rotate (val x) 18 = some (val z) ∧ shiftRight (val x) 3 = some (val (x >>> 3)) ∧
    bitXor (bitXor (val y) (val z)) (val (x >>> 3)) = val (sigma0 x) :=
  ⟨_, _, rotate_val x (n := 7) (by decide) (by decide),
    rotate_val x (n := 18) (by decide) (by decide), shiftRight_val x (n := 3) (by decide),
    by rw [xor_val, xor_val]; rfl⟩

theorem sigma1_val (x : Word) : ∃ y z, rotate (val x) 17 = some (val y) ∧
    rotate (val x) 19 = some (val z) ∧ shiftRight (val x) 10 = some (val (x >>> 10)) ∧
    bitXor (bitXor (val y) (val z)) (val (x >>> 10)) = val (sigma1 x) :=
  ⟨_, _, rotate_val x (n := 17) (by decide) (by decide),
    rotate_val x (n := 19) (by decide) (by decide), shiftRight_val x (n := 10) (by decide),
    by rw [xor_val, xor_val]; rfl⟩

theorem add_val (w : Word) (h : n < 2 ^ 62) : add n (val w) = some ((n + w.toNat : Nat) : Int) := by
  exact add_natCast (by omega)

/-- Masking a sum of words adds them as words. -/
theorem ofNat_add_toNat (n : Nat) (w : Word) :
    BitVec.ofNat 32 (n + w.toNat) = BitVec.ofNat 32 n + w := by
  rw [BitVec.ofNat_add, BitVec.ofNat_toNat, BitVec.setWidth_eq]

theorem extendWord_run {w₀ w₁ w₉ w₁₄ : Word} (hn : n < 48) (hlength : values.length = 64)
    (h₀ : values[n]? = some (val w₀)) (h₁ : values[n + 1]? = some (val w₁))
    (h₉ : values[n + 9]? = some (val w₉)) (h₁₄ : values[n + 14]? = some (val w₁₄)) :
    extendWord ((16 + n : Nat) : Int) values =
      some (values.set (16 + n) (val (sigma1 w₁₄ + w₉ + sigma0 w₁ + w₀))) := by
  have hsub : ∀ k : Nat, k ≤ 16 → sub ((16 + n : Nat) : Int) (k : Int) =
      some ((16 - k + n : Nat) : Int) := by
    intro k hk
    rw [sub_natCast (by omega) (by omega)]
    congr 2
    omega
  have s15 : sub ((16 + n : Nat) : Int) 15 = some ((1 + n : Nat) : Int) := hsub 15 (by omega)
  have s2 : sub ((16 + n : Nat) : Int) 2 = some ((14 + n : Nat) : Int) := hsub 2 (by omega)
  have s16 : sub ((16 + n : Nat) : Int) 16 = some ((0 + n : Nat) : Int) := hsub 16 (by omega)
  have s7 : sub ((16 + n : Nat) : Int) 7 = some ((9 + n : Nat) : Int) := hsub 7 (by omega)
  have g15 : get values ((1 + n : Nat) : Int) = some (val w₁) :=
    get_natCast (by rw [Nat.add_comm]; exact h₁)
  have g2 : get values ((14 + n : Nat) : Int) = some (val w₁₄) :=
    get_natCast (by rw [Nat.add_comm]; exact h₁₄)
  have g16 : get values ((0 + n : Nat) : Int) = some (val w₀) :=
    get_natCast (by rw [Nat.zero_add]; exact h₀)
  have g7 : get values ((9 + n : Nat) : Int) = some (val w₉) :=
    get_natCast (by rw [Nat.add_comm]; exact h₉)
  obtain ⟨y₀, z₀, h7, h18, h3, hsigma0⟩ := sigma0_val w₁
  obtain ⟨y₁, z₁, h17, h19, h10, hsigma1⟩ := sigma1_val w₁₄
  have a₀ : add (val w₀) (val (sigma0 w₁)) = _ := add_val (sigma0 w₁) (n := w₀.toNat) (by omega)
  have a₁ := add_val w₉ (n := w₀.toNat + (sigma0 w₁).toNat) (by omega)
  have a₂ := add_val (sigma1 w₁₄) (n := w₀.toNat + (sigma0 w₁).toNat + w₉.toNat) (by omega)
  unfold extendWord
  simp only [s15, s2, s16, s7, g15, g2, g16, g7, h7, h18, h3, h17, h19, h10, hsigma0, hsigma1,
    some_bind, a₀, a₁, a₂]
  rw [low_natCast (by omega), set_natCast (by omega), ofNat_add_toNat, ofNat_add_toNat,
    ofNat_add_toNat, BitVec.ofNat_toNat, BitVec.setWidth_eq]
  have hsum : w₀ + sigma0 w₁ + w₉ + sigma1 w₁₄ = sigma1 w₁₄ + w₉ + sigma0 w₁ + w₀ := by ac_rfl
  rw [hsum]

theorem extendWord_spec {block : List Word} (hn : n < 48) (hblock : block.length = 16)
    (hlength : values.length = 64) (hshows : Shows values (schedule block n) (16 + n)) :
    ∃ values', extendWord (16 + 1 * n) values = some values' ∧ values'.length = 64 ∧
      Shows values' (schedule block (n + 1)) (16 + (n + 1)) := by
  have hindex : (16 + 1 * n : Int) = ((16 + n : Nat) : Int) := by omega
  rw [hindex]
  refine ⟨_, extendWord_run hn hlength (hshows n (by omega)) (hshows (n + 1) (by omega))
    (hshows (n + 9) (by omega)) (hshows (n + 14) (by omega)), by rw [List.length_set, hlength], ?_⟩
  intro i hi
  by_cases hlast : i = 16 + n
  · subst hlast
    rw [List.getElem?_set_self (by omega), schedule,
      List.getD_append_right _ _ _ _ (by rw [schedule_length]; omega),
      schedule_length, hblock, Nat.sub_self]
    rfl
  · rw [List.getElem?_set_ne (Ne.symm hlast), hshows i (by omega),
      schedule_getD block 1 (by omega)]

theorem extendWords_spec {block : List Word} (hblock : block.length = 16)
    (hlength : values.length = 64) (hshows : Shows values block 16) :
    ∃ values', below 16 64 1 values extendWord = some values' ∧ values'.length = 64 ∧
      Shows values' (schedule block 48) 64 :=
  below_spec extendWord 16 48 (by decide) (by decide) (by decide) (by decide)
    (fun n values => values.length = 64 ∧ Shows values (schedule block n) (16 + n))
    ⟨hlength, hshows⟩ fun _ hn _ hinv => extendWord_spec hn hblock hinv.1 hinv.2

/-! ## The rounds -/

/-- A hash value of the standard as the chain of the code. -/
def chainOf (x : Hash) : Chain :=
  ⟨val x.a, val x.b, val x.c, val x.d, val x.e, val x.f, val x.g, val x.h⟩

theorem bigSigma0_val (x : Word) : ∃ p q r, rotate (val x) 2 = some (val p) ∧
    rotate (val x) 13 = some (val q) ∧ rotate (val x) 22 = some (val r) ∧
    bitXor (bitXor (val p) (val q)) (val r) = val (bigSigma0 x) :=
  ⟨_, _, _, rotate_val x (n := 2) (by decide) (by decide),
    rotate_val x (n := 13) (by decide) (by decide),
    rotate_val x (n := 22) (by decide) (by decide), by rw [xor_val, xor_val]; rfl⟩

theorem bigSigma1_val (x : Word) : ∃ p q r, rotate (val x) 6 = some (val p) ∧
    rotate (val x) 11 = some (val q) ∧ rotate (val x) 25 = some (val r) ∧
    bitXor (bitXor (val p) (val q)) (val r) = val (bigSigma1 x) :=
  ⟨_, _, _, rotate_val x (n := 6) (by decide) (by decide),
    rotate_val x (n := 11) (by decide) (by decide),
    rotate_val x (n := 25) (by decide) (by decide), by rw [xor_val, xor_val]; rfl⟩

theorem ch_val (x y z : Word) :
    bitXor (bitAnd (val x) (val y)) (bitAnd (complement (val x)) (val z)) = val (ch x y z) := by
  rw [and_val, and_complement_val, xor_val]; rfl

theorem maj_val (x y z : Word) :
    bitXor (bitXor (bitAnd (val x) (val y)) (bitAnd (val x) (val z))) (bitAnd (val y) (val z)) =
      val (maj x y z) := by
  rw [and_val, and_val, and_val, xor_val, xor_val]; rfl

theorem low_add_val (x y : Word) : ∃ sum, add (val x) (val y) = some sum ∧ low sum = val (x + y) := by
  refine ⟨_, add_val y (n := x.toNat) (by omega), ?_⟩
  rw [low_natCast (by omega), ofNat_add_toNat, BitVec.ofNat_toNat, BitVec.setWidth_eq]

theorem low_five (u v w x y : Word) : ∃ s₁ s₂ s₃ s₄, add (val u) (val v) = some s₁ ∧
    add s₁ (val w) = some s₂ ∧ add s₂ (val x) = some s₃ ∧ add s₃ (val y) = some s₄ ∧
    low s₄ = val (u + v + w + x + y) := by
  refine ⟨_, _, _, _, add_val v (n := u.toNat) (by omega), add_val w (by omega),
    add_val x (by omega), add_val y (by omega), ?_⟩
  rw [low_natCast (by omega), ofNat_add_toNat, ofNat_add_toNat, ofNat_add_toNat, ofNat_add_toNat,
    BitVec.ofNat_toNat, BitVec.setWidth_eq]

theorem round_val {words k : List Int} {kw w : Word} (x : Hash) (hk : k[i]? = some (val kw))
    (hw : words[i]? = some (val w)) :
    round words k i (chainOf x) = some (chainOf (SecureHash.round x kw w)) := by
  obtain ⟨p₁, q₁, r₁, h6, h11, h25, hsum1⟩ := bigSigma1_val x.e
  obtain ⟨p₀, q₀, r₀, h2, h13, h22, hsum0⟩ := bigSigma0_val x.a
  obtain ⟨s₁, s₂, s₃, s₄, hs₁, hs₂, hs₃, hs₄, hfirst⟩ :=
    low_five x.h (bigSigma1 x.e) (ch x.e x.f x.g) kw w
  obtain ⟨t, ht, hsecond⟩ := low_add_val (bigSigma0 x.a) (maj x.a x.b x.c)
  generalize ht1 : x.h + bigSigma1 x.e + ch x.e x.f x.g + kw + w = t₁ at hfirst
  generalize ht2 : bigSigma0 x.a + maj x.a x.b x.c = t₂ at hsecond
  obtain ⟨u, hu, he⟩ := low_add_val x.d t₁
  obtain ⟨v, hv, ha⟩ := low_add_val t₁ t₂
  have hspec : chainOf (SecureHash.round x kw w) = ⟨val (t₁ + t₂), val x.a, val x.b, val x.c,
      val (x.d + t₁), val x.e, val x.f, val x.g⟩ := by
    rw [← ht1, ← ht2]; rfl
  rw [hspec]
  unfold round chainOf
  simp only [h6, h11, h25, hsum1, h2, h13, h22, hsum0, ch_val, maj_val, get_natCast hk,
    get_natCast hw, hs₁, hs₂, hs₃, hs₄, hfirst, ht, hsecond, hu, he, hv, ha, some_bind]

theorem constants_eq : constants = roundConstants.map val := by decide

theorem initial_eq : initial = chainOf initialHash := by decide

theorem constants_get (h : i < 64) : constants[i]? = some (val (roundConstants.getD i 0)) := by
  rw [constants_eq, List.getElem?_map, List.getD_eq_getElem?_getD]
  have hi : i < roundConstants.length := h
  rw [List.getElem?_eq_getElem hi]; rfl

theorem rounds_spec {words : List Int} {schedule : List Word} (x : Hash)
    (hwords : Shows words schedule 64) :
    below 0 64 1 (chainOf x) (round words constants) =
      some (chainOf (rounds x schedule 64)) := by
  have hloop : ∃ chain, below 0 64 1 (chainOf x) (round words constants) = some chain ∧
      chain = chainOf (rounds x schedule 64) := by
    refine below_spec (round words constants) 0 64 (by decide) (by decide) (by decide) (by decide)
      (fun n chain => chain = chainOf (rounds x schedule n)) rfl ?_
    rintro n hn chain rfl
    refine ⟨_, ?_, rfl⟩
    rw [show (0 + 1 * n : Int) = n by omega]
    exact round_val _ (constants_get hn) (hwords n hn)
  obtain ⟨chain, hrun, rfl⟩ := hloop
  exact hrun

theorem compress_spec {bytes : List UInt8} (x : Hash) (hbytes : bytes.length = 64)
    (hlength : values.length = 64) (hshows : Shows values (words bytes) 16) :
    ∃ values', compress (chainOf x) values constants =
        some (chainOf (SecureHash.compress x bytes), values') ∧ values'.length = 64 := by
  obtain ⟨values', hextend, hlength', hshows'⟩ :=
    extendWords_spec (by rw [words_length, hbytes]) hlength hshows
  refine ⟨values', ?_, hlength'⟩
  have hrounds := rounds_spec x hshows'
  generalize hy : rounds x (schedule (words bytes) 48) 64 = y
    at hrounds
  obtain ⟨sa, hsa, ha⟩ := low_add_val x.a y.a
  obtain ⟨sb, hsb, hb⟩ := low_add_val x.b y.b
  obtain ⟨sc, hsc, hc⟩ := low_add_val x.c y.c
  obtain ⟨sd, hsd, hd⟩ := low_add_val x.d y.d
  obtain ⟨se, hse, he⟩ := low_add_val x.e y.e
  obtain ⟨sf, hsf, hf⟩ := low_add_val x.f y.f
  obtain ⟨sg, hsg, hg⟩ := low_add_val x.g y.g
  obtain ⟨sh, hsh, hh⟩ := low_add_val x.h y.h
  have hspec : chainOf (SecureHash.compress x bytes) = ⟨val (x.a + y.a), val (x.b + y.b),
      val (x.c + y.c), val (x.d + y.d), val (x.e + y.e), val (x.f + y.f), val (x.g + y.g),
      val (x.h + y.h)⟩ := by
    rw [← hy]; rfl
  rw [hspec]
  unfold compress
  rw [hextend, some_bind, hrounds]
  simp only [chainOf, hsa, hsb, hsc, hsd, hse, hsf, hsg, hsh, ha, hb, hc, hd, he, hf, hg, hh,
    some_bind]

end Loom.Hashing
