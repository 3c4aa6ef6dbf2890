import Mathlib.Data.Finset.Card
import Mathlib.Logic.Relation
import Mathlib.Logic.Function.Iterate
import Mathlib.Tactic.Common

/-
  Partitions kept as chains of parents: a value that is its own parent is a root, and
  two values are in one part when their chains end in one root.
-/

namespace Loom.Partitions

open Function

variable {α : Type*} {up : α → α}

/-- The chain of parents from a value ends in a root. -/
inductive Root (up : α → α) : α → α → Prop
  | here {i : α} (h : up i = i) : Root up i i
  | above {i root : α} (h : up i ≠ i) (rest : Root up (up i) root) : Root up i root

/-- Every chain ends. -/
def Grounded (up : α → α) : Prop := ∀ i, ∃ root, Root up i root

def Same (up : α → α) (i j : α) : Prop := ∃ root, Root up i root ∧ Root up j root

/-- The parts of `a` and of `b` become one. -/
def Merged (R : α → α → Prop) (a b i j : α) : Prop := R i j ∨ R i a ∧ R j b ∨ R i b ∧ R j a

/-! ## Roots -/

variable {i : α} {n : Nat}

theorem Root.fixed {root : α} (h : Root up i root) : up root = root := by
  induction h with
  | here h => exact h
  | above _ _ ih => exact ih

theorem Root.unique {root other : α} (h : Root up i root) (hother : Root up i other) :
    root = other := by
  induction h with
  | here h =>
    cases hother with
    | here _ => rfl
    | above hne _ => exact absurd h hne
  | above hne _ ih =>
    cases hother with
    | here h => exact absurd h hne
    | above _ hrest => exact ih hrest

theorem same_equivalence (h : Grounded up) : Equivalence (Same up) where
  refl i := by
    obtain ⟨root, hroot⟩ := h i
    exact ⟨root, hroot, hroot⟩
  symm := by
    intro i j ⟨root, hi, hj⟩; exact ⟨root, hj, hi⟩
  trans := by
    intro i j k ⟨root, hi, hj⟩ ⟨other, hj', hk⟩
    obtain rfl := hj.unique hj'
    exact ⟨root, hi, hk⟩

theorem same_iff {j root : α} (hi : Root up i root) : Same up i j ↔ Root up j root := by
  constructor
  · intro ⟨other, hi', hj⟩
    rwa [hi.unique hi']
  · intro hj; exact ⟨root, hi, hj⟩

/-! ## The length of a chain -/

/-- How many parents there are up to the root. -/
inductive Climb (up : α → α) : Nat → α → α → Prop
  | here {i : α} (h : up i = i) : Climb up 0 i i
  | above {n : Nat} {i root : α} (h : up i ≠ i) (rest : Climb up n (up i) root) :
      Climb up (n + 1) i root

theorem Root.exists_climb {root : α} (h : Root up i root) : ∃ n, Climb up n i root := by
  induction h with
  | here h => exact ⟨0, .here h⟩
  | above hne _ ih =>
    obtain ⟨n, hclimb⟩ := ih
    exact ⟨n + 1, .above hne hclimb⟩

theorem Climb.root {root : α} (h : Climb up n i root) : Root up i root := by
  induction h with
  | here h => exact .here h
  | above hne _ ih => exact .above hne ih

theorem Climb.unique {m : Nat} {root other : α} (h : Climb up n i root)
    (hother : Climb up m i other) : n = m := by
  induction h generalizing m with
  | here h =>
    cases hother with
    | here _ => rfl
    | above hne _ => exact absurd h hne
  | above hne _ ih =>
    cases hother with
    | here h => exact absurd h hne
    | above _ hrest => rw [ih hrest]

/-- On its way the chain passes values with ever fewer parents left. -/
theorem Climb.iterate {k : Nat} {root : α} (h : Climb up n i root) (hk : k ≤ n) :
    Climb up (n - k) (up^[k] i) root := by
  induction h generalizing k with
  | here h =>
    obtain rfl : k = 0 := by omega
    exact .here h
  | @above n i root hne hrest ih =>
    cases k with
    | zero => exact .above hne hrest
    | succ k =>
      rw [Nat.add_sub_add_right]; exact ih (by omega)

theorem Root.mem {root : α} (h : Root up i root) (nodes : Finset α) (hstart : i ∈ nodes)
    (hclosed : ∀ node ∈ nodes, up node ∈ nodes) : root ∈ nodes := by
  induction h with
  | here _ => exact hstart
  | above _ _ ih => exact ih (hclosed _ hstart)

/-- The values that a chain passes differ, so it is shorter than their number. -/
theorem Climb.lt_card {root : α} (h : Climb up n i root) (nodes : Finset α) (hstart : i ∈ nodes)
    (hclosed : ∀ node ∈ nodes, up node ∈ nodes) : n < nodes.card := by
  have hpassed : ∀ k, up^[k] i ∈ nodes := by
    intro k
    induction k with
    | zero => exact hstart
    | succ k ih =>
      rw [iterate_succ_apply']; exact hclosed _ ih
  have hcard : (Finset.range (n + 1)).card ≤ nodes.card := by
    apply Finset.card_le_card_of_injOn (fun k => up^[k] i) (fun k _ => hpassed k)
    intro k hk l hl hsame
    rw [Finset.coe_range, Set.mem_Iio] at hk hl
    have hsame : up^[k] i = up^[l] i := hsame
    have hleft := h.iterate (Nat.le_of_lt_succ hk)
    rw [hsame] at hleft
    have hrest := hleft.unique (h.iterate (Nat.le_of_lt_succ hl))
    omega
  rw [Finset.card_range] at hcard; omega

/-! ## Changing a parent -/

variable [DecidableEq α]

/-- A value that gets its root as its parent makes no chain longer. -/
theorem Climb.shorten {root c top : α} (h : Climb up n i root) (hc : Root up c top) :
    ∃ m ≤ n, Climb (update up c top) m i root := by
  have htop : Climb (update up c top) 0 top top := by
    apply Climb.here
    by_cases hsame : top = c
    · rw [hsame, update_self]
    · rw [update_of_ne hsame, hc.fixed]
  induction h with
  | @here i h =>
    by_cases hsame : i = c
    · subst hsame
      obtain rfl := (Root.here h).unique hc
      exact ⟨0, Nat.le_refl 0, htop⟩
    · refine ⟨0, Nat.le_refl 0, .here ?_⟩
      rw [update_of_ne hsame, h]
  | @above n i root hne hrest ih =>
    by_cases hsame : i = c
    · subst hsame
      obtain rfl := (Root.above hne hrest.root).unique hc
      have hother : root ≠ i := by
        intro heq; exact hne (heq ▸ hc.fixed)
      refine ⟨1, by omega, .above ?_ ?_⟩
      · rwa [update_self]
      · rwa [update_self]
    · obtain ⟨m, hm, hclimb⟩ := ih
      refine ⟨m + 1, by omega, .above ?_ ?_⟩
      · rwa [update_of_ne hsame]
      · rwa [update_of_ne hsame]

theorem Root.shorten {root c top : α} (h : Root up i root) (hc : Root up c top) :
    Root (update up c top) i root := by
  obtain ⟨n, hclimb⟩ := h.exists_climb
  obtain ⟨m, -, hshort⟩ := hclimb.shorten hc
  exact hshort.root

variable {a b : α}

/-- Where a chain ends after one root was put under another one. -/
theorem Root.link {root : α} (h : Root up i root) (ha : up a = a) (hb : up b = b) :
    Root (update up a b) i (if root = a then b else root) := by
  have htop : Root (update up a b) b b := by
    apply Root.here
    by_cases hsame : b = a
    · rw [hsame, update_self]
    · rw [update_of_ne hsame, hb]
  induction h with
  | @here i h =>
    by_cases hsame : i = a
    · rw [if_pos hsame]
      by_cases hself : b = i
      · rwa [← hself]
      · apply Root.above
        · rwa [hsame, update_self, ← hsame]
        · rwa [hsame, update_self]
    · rw [if_neg hsame]
      apply Root.here
      rw [update_of_ne hsame, h]
  | @above i root hne hrest ih =>
    have hsame : i ≠ a := by
      intro heq; exact hne (heq ▸ ha)
    apply Root.above
    · rwa [update_of_ne hsame]
    · rwa [update_of_ne hsame]

theorem Grounded.link (h : Grounded up) (ha : up a = a) (hb : up b = b) :
    Grounded (update up a b) := by
  intro i
  obtain ⟨root, hroot⟩ := h i
  exact ⟨_, hroot.link ha hb⟩

theorem same_link {s t j : α} (h : Grounded up) (hs : Root up s a) (ht : Root up t b) :
    Same (update up a b) i j ↔ Merged (Same up) s t i j := by
  obtain ⟨ri, hi⟩ := h i
  obtain ⟨rj, hj⟩ := h j
  have hpart : ∀ {k l rk rl : α}, Root up k rk → Root up l rl → (Same up k l ↔ rk = rl) := by
    intro k l rk rl hk hl
    rw [same_iff hk]; exact ⟨fun hroot => hroot.unique hl, fun heq => heq ▸ hl⟩
  have hnew : Same (update up a b) i j ↔
      (if ri = a then b else ri) = (if rj = a then b else rj) := by
    rw [same_iff (hi.link hs.fixed ht.fixed)]
    exact ⟨fun hroot => hroot.unique (hj.link hs.fixed ht.fixed),
      fun heq => heq ▸ hj.link hs.fixed ht.fixed⟩
  rw [hnew, Merged, hpart hi hj, hpart hi hs, hpart hj ht, hpart hi ht, hpart hj hs]
  -- what matters is which of the two roots is `a`
  by_cases hia : ri = a <;> by_cases hja : rj = a
  · simp [hia, hja]
  · rw [if_pos hia, if_neg hja]
    constructor
    · intro heq; exact .inr (.inl ⟨hia, heq.symm⟩)
    · rintro (heq | ⟨-, heq⟩ | ⟨-, heq⟩)
      · exact absurd (heq ▸ hia) hja
      · exact heq.symm
      · exact absurd heq hja
  · rw [if_neg hia, if_pos hja]
    constructor
    · intro heq; exact .inr (.inr ⟨heq, hja⟩)
    · rintro (heq | ⟨heq, -⟩ | ⟨heq, -⟩)
      · exact absurd (heq ▸ hja) hia
      · exact absurd heq hia
      · exact heq
  · simp [hia, hja]

/-! ## The pairs that were joined -/

omit [DecidableEq α] in
/-- One more pair joins two parts. -/
theorem merged_eqvGen {E : α → α → Prop} {s t i j : α} :
    Merged (Relation.EqvGen E) s t i j ↔
      Relation.EqvGen (fun p q => E p q ∨ p = s ∧ q = t) i j := by
  have hmore : ∀ {p q}, Relation.EqvGen E p q →
      Relation.EqvGen (fun p q => E p q ∨ p = s ∧ q = t) p q := by
    intro p q h; exact Relation.EqvGen.mono (fun _ _ hE => .inl hE) _ _ h
  have hpair : Relation.EqvGen (fun p q => E p q ∨ p = s ∧ q = t) s t := .rel _ _ (.inr ⟨rfl, rfl⟩)
  constructor
  · rintro (h | ⟨hi, hj⟩ | ⟨hi, hj⟩)
    · exact hmore h
    · exact (hmore hi).trans _ _ _ (hpair.trans _ _ _ ((hmore hj).symm _ _))
    · exact (hmore hi).trans _ _ _ ((hpair.symm _ _).trans _ _ _ ((hmore hj).symm _ _))
  · intro h
    induction h with
    | rel p q h =>
      obtain h | ⟨rfl, rfl⟩ := h
      · exact .inl (.rel _ _ h)
      · exact .inr (.inl ⟨.refl _, .refl _⟩)
    | refl p => exact .inl (.refl _)
    | symm p q _ ih =>
      obtain h | ⟨hp, hq⟩ | ⟨hp, hq⟩ := ih
      · exact .inl (h.symm _ _)
      · exact .inr (.inr ⟨hq, hp⟩)
      · exact .inr (.inl ⟨hq, hp⟩)
    | trans p q r _ _ ih ih' =>
      obtain h | ⟨hp, hq⟩ | ⟨hp, hq⟩ := ih <;> obtain h' | ⟨hq', hr⟩ | ⟨hq', hr⟩ := ih'
      · exact .inl (h.trans _ _ _ h')
      · exact .inr (.inl ⟨h.trans _ _ _ hq', hr⟩)
      · exact .inr (.inr ⟨h.trans _ _ _ hq', hr⟩)
      · exact .inr (.inl ⟨hp, (h'.symm _ _).trans _ _ _ hq⟩)
      · exact .inr (.inl ⟨hp, hr⟩)
      · exact .inl (hp.trans _ _ _ (hr.symm _ _))
      · exact .inr (.inr ⟨hp, (h'.symm _ _).trans _ _ _ hq⟩)
      · exact .inl (hp.trans _ _ _ (hr.symm _ _))
      · exact .inr (.inr ⟨hp, hr⟩)

end Loom.Partitions
