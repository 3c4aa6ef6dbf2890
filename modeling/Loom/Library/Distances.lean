import Mathlib.Algebra.Order.Group.Int
import Mathlib.Data.Finset.Card
import Mathlib.Data.Finset.Lattice.Basic
import Mathlib.Data.Int.LeastGreatest
import Mathlib.Logic.Function.Basic
import Mathlib.Tactic.Common

/-
  Difference constraints and the distances that decide them.

  An edge says `x left - x right ≤ limit`. Distances from a source are relaxed along
  the edges, pass after pass, in place.
-/

namespace Loom.Distances

open Finset Function Option

/-- `x left - x right ≤ limit`. -/
structure Edge (ι : Type*) where
  left : ι
  right : ι
  limit : Int

variable {ι : Type*}

def Meets (edges : List (Edge ι)) (x : ι → Int) : Prop :=
  ∀ e ∈ edges, x e.left - x e.right ≤ e.limit

/-- A walk along edges, with the sum of their limits. -/
inductive Walk (edges : List (Edge ι)) (source : ι) : ι → Int → Prop
  | stay : Walk edges source source 0
  | go {e : Edge ι} {weight : Int} (h : Walk edges source e.right weight) (he : e ∈ edges) :
      Walk edges source e.left (weight + e.limit)

theorem Walk.bound {edges : List (Edge ι)} {source v : ι} {weight : Int}
    (h : Walk edges source v weight) {x : ι → Int} (hx : Meets edges x) :
    x v - x source ≤ weight := by
  induction h with
  | stay => omega
  | go _ he ih =>
    have hedge := hx _ he
    omega

/-! ## Passes -/

section
variable [DecidableEq ι]

/-- The distance that an edge leads to, when it is a better one. -/
def better (d : ι → Option Int) (e : Edge ι) : Option Int :=
  match d e.right with
  | none => none
  | some near =>
    match d e.left with
    | none => some (near + e.limit)
    | some far => if near + e.limit < far then some (near + e.limit) else none

/-- The distances after the edges, and whether one of them changed. -/
def relaxAll : List (Edge ι) → (ι → Option Int) → Bool → (ι → Option Int) × Bool
  | [], d, changed => (d, changed)
  | e :: edges, d, changed =>
    match better d e with
    | none => relaxAll edges d changed
    | some distance => relaxAll edges (update d e.left (some distance)) true

/-- Whether the distance of `goal` gets down to `limit`, or `rounds` passes all change one. -/
def search (edges : List (Edge ι)) (goal : ι) (limit : Int) : Nat → (ι → Option Int) → Bool
  | 0, _ => true
  | rounds + 1, d =>
    if (d goal).any (fun distance => decide (distance ≤ limit)) then true
    else
      match relaxAll edges d false with
      | (_, false) => false
      | (after, true) => search edges goal limit rounds after

def start (source : ι) : ι → Option Int := fun v => if v = source then some 0 else none

/-! ## One pass -/

/-- Distances only get better. -/
def Below (after before : ι → Option Int) : Prop :=
  ∀ v k, before v = some k → ∃ m, after v = some m ∧ m ≤ k

omit [DecidableEq ι] in
theorem Below.refl (d : ι → Option Int) : Below d d := fun _ k h => ⟨k, h, le_refl k⟩

omit [DecidableEq ι] in
theorem Below.trans {a b c : ι → Option Int} (h : Below a b) (hnext : Below b c) : Below a c := by
  intro v k hk
  obtain ⟨m, hm, hle⟩ := hnext v k hk
  obtain ⟨n, hn, hle'⟩ := h v m hm
  exact ⟨n, hn, hle'.trans hle⟩

variable {e : Edge ι} {distance : Int} {d : ι → Option Int} {edges : List (Edge ι)} {source : ι}
  {x : ι → Int} {vertices : Finset ι} {limit : Int} {goal : ι}

omit [DecidableEq ι] in
theorem better_eq_some (h : better d e = some distance) : ∃ near, d e.right = some near ∧
      distance = near + e.limit ∧ ∀ far, d e.left = some far → distance < far := by
  unfold better at h
  cases hright : d e.right with
  | none => simp only [hright, reduceCtorEq] at h
  | some near =>
    simp only [hright] at h
    refine ⟨near, rfl, ?_⟩
    cases hleft : d e.left with
    | none =>
      simp only [hleft, some.injEq] at h; exact ⟨h.symm, nofun⟩
    | some far =>
      simp only [hleft] at h
      split at h
      case isTrue hlt =>
        rw [some.injEq] at h
        refine ⟨h.symm, fun other hother => ?_⟩
        rw [← some.inj hother, ← h]; exact hlt
      case isFalse => exact absurd h nofun

omit [DecidableEq ι] in
theorem better_eq_none (h : better d e = none) {near : Int} (hnear : d e.right = some near) :
    ∃ far, d e.left = some far ∧ far ≤ near + e.limit := by
  unfold better at h
  simp only [hnear] at h
  cases hleft : d e.left with
  | none => simp only [hleft, reduceCtorEq] at h
  | some far =>
    simp only [hleft] at h
    split at h
    case isTrue => exact absurd h nofun
    case isFalse hge => exact ⟨far, rfl, not_lt.mp hge⟩

theorem below_update (h : better d e = some distance) :
    Below (update d e.left (some distance)) d := by
  obtain ⟨near, -, -, hfar⟩ := better_eq_some h
  intro v k hk
  by_cases hv : v = e.left
  · subst hv; exact ⟨distance, update_self .., le_of_lt (hfar k hk)⟩
  · exact ⟨k, by rw [update_of_ne hv, hk], le_refl k⟩

theorem pass_below (edges : List (Edge ι)) : ∀ (d : ι → Option Int) (changed : Bool),
    Below (relaxAll edges d changed).1 d := by
  induction edges with
  | nil => exact fun d _ => .refl d
  | cons e edges ih =>
    intro d changed
    rw [relaxAll]
    cases h : better d e with
    | none => exact ih d changed
    | some distance => exact (ih _ true).trans (below_update h)

/-- Every distance is the weight of a walk. -/
def Sound (edges : List (Edge ι)) (source : ι) (d : ι → Option Int) : Prop :=
  ∀ v k, d v = some k → Walk edges source v k

theorem sound_start (edges : List (Edge ι)) (source : ι) : Sound edges source (start source) := by
  intro v k h
  unfold start at h
  split at h
  case isTrue hv =>
    rw [hv, ← some.inj h]; exact .stay
  case isFalse => cases h

theorem Sound.update (h : Sound edges source d) (he : e ∈ edges)
    (hbetter : better d e = some distance) :
    Sound edges source (update d e.left (some distance)) := by
  obtain ⟨near, hnear, rfl, -⟩ := better_eq_some hbetter
  intro v k hk
  by_cases hv : v = e.left
  · subst hv
    rw [update_self, some.injEq] at hk
    rw [← hk]; exact .go (h _ _ hnear) he
  · rw [update_of_ne hv] at hk; exact h v k hk

theorem sound_pass {all : List (Edge ι)} (hsub : ∀ e ∈ edges, e ∈ all) :
    ∀ {d : ι → Option Int} (changed : Bool), Sound all source d →
      Sound all source (relaxAll edges d changed).1 := by
  induction edges with
  | nil => exact fun _ h => h
  | cons e edges ih =>
    intro d changed h
    obtain ⟨he, hrest⟩ := List.forall_mem_cons.mp hsub
    rw [relaxAll]
    cases hbetter : better d e with
    | none => exact ih hrest changed h
    | some distance => exact ih hrest true (h.update he hbetter)

theorem pass_changed (edges : List (Edge ι)) (d : ι → Option Int) :
    (relaxAll edges d true).2 = true := by
  induction edges generalizing d with
  | nil => rfl
  | cons e edges ih =>
    rw [relaxAll]
    split
    · exact ih d
    · exact ih _

/-- A pass that changes nothing finds nothing better. -/
theorem pass_unchanged : (relaxAll edges d false).2 = false ↔ ∀ e ∈ edges, better d e = none := by
  induction edges with
  | nil => exact iff_of_true rfl nofun
  | cons e edges ih =>
    rw [relaxAll, List.forall_mem_cons]
    cases h : better d e with
    | none => exact ih.trans ⟨fun hall => ⟨rfl, hall⟩, fun hall => hall.2⟩
    | some distance =>
      rw [pass_changed]
      exact iff_of_false nofun (fun hall => absurd hall.1 nofun)

/-! ## Settled vertices -/

/-- The distance of a vertex is at most the weight of any walk to it. -/
def Settled (edges : List (Edge ι)) (source : ι) (d : ι → Option Int) (v : ι) : Prop :=
  ∀ k, Walk edges source v k → ∃ m, d v = some m ∧ m ≤ k

omit [DecidableEq ι] in
theorem Settled.below {v : ι} {after : ι → Option Int} (h : Settled edges source d v)
    (hafter : Below after d) : Settled edges source after v := by
  intro k hk
  obtain ⟨m, hm, hle⟩ := h k hk
  obtain ⟨n, hn, hle'⟩ := hafter v m hm
  exact ⟨n, hn, hle'.trans hle⟩

theorem settled_start (hx : Meets edges x) (source : ι) :
    Settled edges source (start source) source := by
  intro k hk
  have hbound := hk.bound hx
  exact ⟨0, if_pos rfl, by omega⟩

/-- An edge behind which a walk is a shortest one. -/
structure Tight (edges : List (Edge ι)) (source : ι) (e : Edge ι) : Prop where
  mem : e ∈ edges
  least : ∃ k, Walk edges source e.right k ∧
    ∀ m, Walk edges source e.left m → k + e.limit ≤ m

omit [DecidableEq ι] in
/-- On a shortest walk to a vertex that is not settled an edge leads out of the settled ones. -/
theorem exists_tight {edges : List (Edge ι)} {source : ι} {d : ι → Option Int}
    (hsource : Settled edges source d source) {v : ι} {k : Int} (h : Walk edges source v k)
    (hleast : ∀ m, Walk edges source v m → k ≤ m) (hv : ¬Settled edges source d v) :
    ∃ e, Tight edges source e ∧ Settled edges source d e.right ∧ ¬Settled edges source d e.left := by
  induction h with
  | stay => exact absurd hsource hv
  | @go e weight hwalk he ih =>
    by_cases hright : Settled edges source d e.right
    · exact ⟨e, ⟨he, weight, hwalk, hleast⟩, hright, hv⟩
    · apply ih _ hright
      intro m hm
      have hlonger := hleast _ (.go hm he)
      omega

omit [DecidableEq ι] in
/-- Where the constraints have a solution a vertex that is reached has a shortest walk. -/
theorem exists_least {edges : List (Edge ι)} {x : ι → Int} (hx : Meets edges x) {source v : ι}
    {k : Int} (h : Walk edges source v k) :
    ∃ least, Walk edges source v least ∧ ∀ m, Walk edges source v m → least ≤ m :=
  Int.exists_least_of_bdd ⟨x v - x source, fun _ hm => hm.bound hx⟩ ⟨k, h⟩

/-- A pass settles what a tight edge leads to from a settled vertex. -/
theorem pass_settles {all : List (Edge ι)} (he : e ∈ edges) (htight : Tight all source e) :
    ∀ {d : ι → Option Int} (changed : Bool),
      Settled all source d e.right → Settled all source (relaxAll edges d changed).1 e.left := by
  obtain ⟨-, least, hleast, hbest⟩ := htight
  -- the edge is as good as settled once the vertex before it is
  have hdone : ∀ {d : ι → Option Int}, Settled all source d e.right → better d e = none →
      Settled all source d e.left := by
    intro d hright hnone k hk
    obtain ⟨near, hnear, hle⟩ := hright least hleast
    obtain ⟨far, hfar, hle'⟩ := better_eq_none hnone hnear
    have hall := hbest k hk
    exact ⟨far, hfar, by omega⟩
  induction edges with
  | nil =>
    intro d changed; exact absurd he List.not_mem_nil
  | cons first edges ih =>
    intro d changed hright
    rw [relaxAll]
    obtain rfl | hrest := List.mem_cons.mp he
    · cases hbetter : better d e with
      | none => exact (hdone hright hbetter).below (pass_below edges d changed)
      | some distance =>
        apply Settled.below _ (pass_below edges _ true)
        obtain ⟨near, hnear, rfl, -⟩ := better_eq_some hbetter
        intro k hk
        obtain ⟨near', hnear', hle⟩ := hright least hleast
        obtain rfl : near = near' := some.inj (hnear.symm.trans hnear')
        have hall := hbest k hk
        exact ⟨near + e.limit, update_self .., by omega⟩
    · cases hbetter : better d first with
      | none => exact ih hrest changed hright
      | some distance => exact ih hrest true (hright.below (below_update hbetter))

open Classical in
/-- The vertices that are not settled yet. -/
noncomputable def unsettled (vertices : Finset ι) (edges : List (Edge ι)) (source : ι)
    (d : ι → Option Int) : Finset ι :=
  vertices.filter fun v => ¬Settled edges source d v

/-- A pass settles one more vertex, unless all of them are settled. -/
theorem unsettled_pass (hx : Meets edges x) (hsource : Settled edges source d source)
    (hends : ∀ e ∈ edges, e.left ∈ vertices) (changed : Bool)
    (hsome : unsettled vertices edges source d ≠ ∅) :
    (unsettled vertices edges source (relaxAll edges d changed).1).card <
      (unsettled vertices edges source d).card := by
  classical
  obtain ⟨v, hv⟩ := nonempty_iff_ne_empty.mpr hsome
  obtain ⟨-, hv⟩ := mem_filter.mp hv
  obtain ⟨k, hwalk⟩ : ∃ k, Walk edges source v k := by
    by_contra hnone
    exact hv fun k hk => absurd ⟨k, hk⟩ hnone
  obtain ⟨least, hleast, hbest⟩ := exists_least hx hwalk
  obtain ⟨e, htight, hright, hleft⟩ := exists_tight hsource hleast hbest hv
  apply card_lt_card
  rw [ssubset_iff_of_subset]
  · refine ⟨e.left, ?_, ?_⟩
    · exact mem_filter.mpr ⟨hends e htight.mem, hleft⟩
    · intro hmem
      exact (mem_filter.mp hmem).2 (pass_settles htight.mem htight changed hright)
  · intro w hw
    obtain ⟨hin, hunsettled⟩ := mem_filter.mp hw
    refine mem_filter.mpr ⟨hin, fun hsettled => hunsettled ?_⟩
    exact hsettled.below (pass_below edges d changed)

omit [DecidableEq ι] in
theorem better_settled {vertices : Finset ι} {edges : List (Edge ι)} {source : ι}
    {d : ι → Option Int} (hsound : Sound edges source d)
    (hends : ∀ e ∈ edges, e.left ∈ vertices) (hnone : unsettled vertices edges source d = ∅) :
    ∀ e ∈ edges, better d e = none := by
  classical
  intro e he
  have hsettled : Settled edges source d e.left := by
    by_contra hleft
    have hmem : e.left ∈ unsettled vertices edges source d := mem_filter.mpr ⟨hends e he, hleft⟩
    rw [hnone] at hmem; exact absurd hmem (notMem_empty _)
  cases hbetter : better d e with
  | none => rfl
  | some distance =>
    obtain ⟨near, hnear, rfl, hfar⟩ := better_eq_some hbetter
    obtain ⟨far, hleft, hle⟩ := hsettled _ (.go (hsound _ _ hnear) he)
    have hlt := hfar far hleft
    omega

/-! ## The search -/

/-- What the search finds is implied by the constraints. -/
theorem search_sound_from (hx : Meets edges x) (hends : ∀ e ∈ edges, e.left ∈ vertices)
    (rounds : Nat) : ∀ {d : ι → Option Int}, Sound edges source d → Settled edges source d source →
      (unsettled vertices edges source d).card < rounds →
      search edges goal limit rounds d = true → x goal - x source ≤ limit := by
  induction rounds with
  | zero =>
    intro d _ _ hcount; exact absurd hcount (Nat.not_lt_zero _)
  | succ rounds ih =>
    intro d hsound hsource hcount h
    rw [search] at h
    split at h
    case isTrue hfound =>
      obtain ⟨distance, hdistance, hle⟩ := (any_eq_true _ _).mp hfound
      have hbound := (hsound goal distance hdistance).bound hx
      have hle := of_decide_eq_true hle
      omega
    case isFalse =>
      have hlater := sound_pass (fun e he => he) false hsound
      by_cases hall : unsettled vertices edges source d = ∅
      · -- everything is settled, so the pass changes nothing
        have hfixed := pass_unchanged.mpr (better_settled hsound hends hall)
        rw [← Prod.eta (relaxAll edges d false), hfixed] at h
        cases h
      · have hless := unsettled_pass hx hsource hends false hall
        rw [← Prod.eta (relaxAll edges d false)] at h
        cases hchanged : (relaxAll edges d false).2 with
        | false =>
          rw [hchanged] at h
          cases h
        | true =>
          rw [hchanged] at h
          exact ih hlater (hsource.below (pass_below edges d false)) (by omega) h

theorem search_sound (hsource : source ∈ vertices) (hends : ∀ e ∈ edges, e.left ∈ vertices)
    (h : search edges goal limit vertices.card (start source) = true) (hx : Meets edges x) :
    x goal - x source ≤ limit := by
  classical
  have hself := settled_start hx source
  apply search_sound_from hx hends vertices.card (sound_start edges source) hself _ h
  have hsub : unsettled vertices edges source (start source) ⊆ vertices := filter_subset _ _
  apply card_lt_card
  rw [ssubset_iff_of_subset hsub]
  exact ⟨source, hsource, fun hmem => (mem_filter.mp hmem).2 hself⟩

omit [DecidableEq ι] in
/-- Where a pass changes nothing, a vertex that is reached has a distance. -/
theorem known_of_walk {edges : List (Edge ι)} {source : ι} {d : ι → Option Int}
    (hfixed : ∀ e ∈ edges, better d e = none) {k : Int} (hsource : d source = some k) {v : ι}
    {weight : Int} (h : Walk edges source v weight) : ∃ m, d v = some m := by
  induction h with
  | stay => exact ⟨k, hsource⟩
  | go _ he ih =>
    obtain ⟨near, hnear⟩ := ih
    obtain ⟨far, hfar, -⟩ := better_eq_none (hfixed _ he) hnear
    exact ⟨far, hfar⟩

/-- A search that says no has distances that meet the constraints and not the goal. -/
theorem search_complete_from (hreach : ∀ e ∈ edges, ∃ k, Walk edges source e.right k)
    (hgoal : ∃ k, Walk edges source goal k) (rounds : Nat) :
    ∀ {d : ι → Option Int}, Sound edges source d →
      (∃ k, d source = some k ∧ k ≤ 0) → search edges goal limit rounds d = false →
      ∃ x, Meets edges x ∧ limit < x goal - x source := by
  induction rounds with
  | zero =>
    intro d _ _ h
    cases h
  | succ rounds ih =>
    intro d hsound hsource h
    rw [search] at h
    split at h
    case isTrue => cases h
    case isFalse hfar =>
      rw [← Prod.eta (relaxAll edges d false)] at h
      cases hchanged : (relaxAll edges d false).2 with
      | true =>
        rw [hchanged] at h
        obtain ⟨k, hk, hle⟩ := hsource
        obtain ⟨m, hm, hle'⟩ := pass_below edges d false source k hk
        exact ih (sound_pass (fun e he => he) false hsound) ⟨m, hm, hle'.trans hle⟩ h
      | false =>
        have hfixed := pass_unchanged.mp hchanged
        obtain ⟨k, hk, hle⟩ := hsource
        have hmeets : Meets edges fun v => (d v).getD 0 := by
          intro e he
          obtain ⟨weight, hwalk⟩ := hreach e he
          obtain ⟨near, hnear⟩ := known_of_walk hfixed hk hwalk
          obtain ⟨far, hleft, hbound⟩ := better_eq_none (hfixed e he) hnear
          simp only [hnear, hleft, getD_some]; omega
        refine ⟨_, hmeets, ?_⟩
        -- the distances themselves bound the one of the source from below
        have hself := (hsound source k hk).bound hmeets
        obtain ⟨weight, hwalk⟩ := hgoal
        obtain ⟨m, hm⟩ := known_of_walk hfixed hk hwalk
        have hover : ¬m ≤ limit := by
          intro hin; exact hfar (by rw [hm]; exact decide_eq_true hin)
        simp only [hk, hm, getD_some] at hself ⊢; omega

theorem search_complete {rounds : Nat} (hreach : ∀ e ∈ edges, ∃ k, Walk edges source e.right k)
    (hgoal : ∃ k, Walk edges source goal k)
    (h : search edges goal limit rounds (start source) = false) :
    ∃ x, Meets edges x ∧ limit < x goal - x source :=
  search_complete_from hreach hgoal rounds (sound_start edges source)
    ⟨0, if_pos rfl, Int.le_refl 0⟩ h

end

end Loom.Distances
