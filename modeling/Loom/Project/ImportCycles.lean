import Loom.Library.Precedence
import Loom.Project.Regraph

/-
  The check for import cycles.

  `Counts incoming later` says that the list counts, for every package, the edges to it
  that are still to be counted down. Together with `Released` of the library it is kept by
  `release`, edge by edge, and by `drain`, package by package.
-/

namespace Loom.Regraph

open Texts Precedence Relation List

/-- The edges of a package; nothing else has any. -/
def targetsOf (edges : List (List Nat)) (source : Nat) : List Nat := edges.getD source []

/-- Every edge leads to a package. -/
def Inside (edges : List (List Nat)) : Prop := ∀ targets ∈ edges, ∀ target ∈ targets, target < edges.length

def Cyclic (edges : List (List Nat)) : Prop := ∃ v, TransGen (Edge (targetsOf edges)) v v

/-- The list counts the edges that are still to be counted down. -/
structure Counts (n : Nat) (incoming : List Int) (later : List Nat) : Prop where
  length_eq : incoming.length = n
  count_eq : ∀ v < n, incoming[v]? = some (later.count v : Int)

section
variable {n : Nat} {incoming : List Int} {later : List Nat} {target : Nat}

theorem Counts.perm (h : Counts n incoming later) {others : List Nat} (hperm : later.Perm others) :
    Counts n incoming others where
  length_eq := h.length_eq
  count_eq v hv := by rw [h.count_eq v hv, hperm.count_eq]

/-- One count is changed, as the edges that are left are. -/
theorem bump_counts {delta : Int} {others : List Nat} (h : Counts n incoming later)
    (htarget : target < n) (hsame : (others.count target : Int) = later.count target + delta)
    (hother : ∀ v, v ≠ target → others.count v = later.count v) :
    ∃ after, bump delta incoming target = .ok after ∧ Counts n after others := by
  have hcount := h.count_eq target htarget
  refine ⟨incoming.set target (later.count target + delta), ?_, ?_, ?_⟩
  · rw [bump, at?, hcount]; rfl
  · rw [length_set, h.length_eq]
  · intro v hv
    by_cases hvt : v = target
    · subst hvt
      rw [getElem?_set_self (by rw [h.length_eq]; exact hv), hsame]
    · rw [getElem?_set_ne (Ne.symm hvt), h.count_eq v hv, hother v hvt]

theorem bump_up (h : Counts n incoming later) (htarget : target < n) :
    ∃ after, bump 1 incoming target = .ok after ∧ Counts n after (target :: later) := by
  apply bump_counts h htarget
  · rw [count_cons_self]; rfl
  · exact fun v hv => count_cons_of_ne (Ne.symm hv)

theorem bump_down (h : Counts n incoming (target :: later)) (htarget : target < n) :
    ∃ after, bump (-1) incoming target = .ok after ∧ Counts n after later := by
  apply bump_counts h htarget
  · rw [count_cons_self]; omega
  · exact fun v hv => (count_cons_of_ne (Ne.symm hv)).symm

theorem countTargets_counts (targets : List Nat) (hinside : ∀ target ∈ targets, target < n) :
    ∀ {incoming : List Int} {later : List Nat}, Counts n incoming later →
      ∃ after, targets.foldlM (bump 1) incoming = .ok after ∧ Counts n after (targets ++ later) := by
  induction targets with
  | nil => exact fun h => ⟨_, rfl, h⟩
  | cons target targets ih =>
    intro incoming later h
    obtain ⟨middle, hbump, hmiddle⟩ := bump_up h (hinside target (.head _))
    obtain ⟨after, hrest, hafter⟩ :=
      ih (fun other hother => hinside other (.tail _ hother)) hmiddle
    refine ⟨after, ?_, hafter.perm perm_middle⟩
    rw [foldlM_cons, hbump]; exact hrest

theorem countIncoming_counts (edges : List (List Nat))
    (hinside : ∀ targets ∈ edges, ∀ target ∈ targets, target < n) :
    ∀ {incoming : List Int} {later : List Nat}, Counts n incoming later →
      ∃ after, countIncoming edges incoming = .ok after ∧ Counts n after (edges.flatten ++ later) := by
  induction edges with
  | nil => exact fun h => ⟨_, rfl, h⟩
  | cons targets edges ih =>
    intro incoming later h
    obtain ⟨middle, hcount, hmiddle⟩ :=
      countTargets_counts targets (hinside targets (.head _)) h
    obtain ⟨after, hrest, hafter⟩ :=
      ih (fun other hother => hinside other (.tail _ hother)) hmiddle
    refine ⟨after, ?_, hafter.perm ?_⟩
    · rw [countIncoming, foldlM_cons, hcount]; exact hrest
    · rw [← append_assoc]; exact perm_append_comm.append_right later

/-- A package that is ready is one that no edge is left to. -/
theorem mem_unneeded (h : Counts n incoming later) {v : Nat} :
    v ∈ unneeded incoming ↔ v < n ∧ v ∉ later := by
  rw [unneeded, mem_filter, mem_range, h.length_eq]
  constructor
  · rintro ⟨hv, hzero⟩
    rw [h.count_eq v hv] at hzero
    refine ⟨hv, count_eq_zero.mp ?_⟩
    exact Int.ofNat_eq_zero.mp (Option.some.inj (eq_of_beq hzero))
  · rintro ⟨hv, hnot⟩
    refine ⟨hv, ?_⟩
    rw [h.count_eq v hv, count_eq_zero.mpr hnot]; rfl

end

/-! ## Counting down -/

section
variable {edges : List (List Nat)} {incoming : List Int} {later ready : List Nat}

theorem edge_inside (hinside : Inside edges) {s t : Nat} (h : Edge (targetsOf edges) s t) :
    s ∈ range edges.length ∧ t ∈ range edges.length := by
  unfold Edge targetsOf at h
  cases hs : edges[s]? with
  | none =>
    rw [getD_eq_getElem?_getD, hs] at h; exact absurd h (not_mem_nil)
  | some targets =>
    rw [getD_eq_getElem?_getD, hs] at h
    obtain ⟨hlt, -⟩ := List.getElem?_eq_some_iff.mp hs
    exact ⟨mem_range.mpr hlt,
      mem_range.mpr (hinside targets (mem_of_getElem? hs) t h)⟩

/-- The edges of one package are counted down, whose sources are ready or have edges left. -/
theorem release_spec (targets : List Nat) (hinside : ∀ t ∈ targets, t < edges.length) :
    ∀ {incoming : List Int} {ready : List Nat},
      Counts edges.length incoming (targets ++ later) →
      Released (targetsOf edges) (range edges.length) (targets ++ later) ready →
      (∀ s t, Edge (targetsOf edges) s t → s ∈ ready ∨ t ∈ later) →
      ∃ after fresh, release targets incoming ready = .ok (after, ready ++ fresh) ∧
        Counts edges.length after later ∧
        Released (targetsOf edges) (range edges.length) later (ready ++ fresh) := by
  induction targets with
  | nil =>
    intro incoming ready hcounts hreleased _
    exact ⟨incoming, [], by rw [append_nil]; rfl, hcounts, by rwa [append_nil]⟩
  | cons target targets ih =>
    intro incoming ready hcounts hreleased hsources
    have htarget := hinside target (.head _)
    have hrest : ∀ t ∈ targets, t < edges.length := fun t ht => hinside t (.tail _ ht)
    obtain ⟨middle, hbump, hmiddle⟩ := bump_down hcounts htarget
    have hcount : at? middle target = .ok (((targets ++ later).count target : Nat) : Int) := by
      rw [at?, hmiddle.count_eq target htarget]; rfl
    rw [release, hbump, Results.ok_bind, hcount, Results.ok_bind]
    by_cases hmore : target ∈ targets ++ later
    · have hpositive := count_pos_iff.mpr hmore
      rw [if_neg (by omega)]
      exact ih hrest hmiddle (hreleased.keep hmore) hsources
    · have hzero := count_eq_zero.mpr hmore
      rw [if_pos (by omega)]
      have hready : ∀ s, Edge (targetsOf edges) s target → s ∈ ready := by
        intro s hedge
        exact (hsources s target hedge).resolve_right
          fun hlater => hmore (mem_append_right _ hlater)
      have hnext := hreleased.release (mem_range.mpr htarget) hmore hready
      have hkept : ∀ s t, Edge (targetsOf edges) s t → s ∈ ready ++ [target] ∨ t ∈ later := by
        intro s t hedge
        exact (hsources s t hedge).imp_left fun hs => mem_append_left _ hs
      obtain ⟨after, fresh, hrun, hafter, hall⟩ := ih hrest hmiddle hnext hkept
      rw [append_assoc] at hrun hall
      exact ⟨after, target :: fresh, hrun, hafter, hall⟩

/-- The loop, from a moment when the first packages that are ready have been passed. -/
theorem drain_spec (hinside : Inside edges) :
    ∀ (bound index : Nat) {incoming : List Int} {ready : List Nat}, index ≤ ready.length →
      edges.length < bound + index →
      Counts edges.length incoming
        (pending (targetsOf edges) (range edges.length) (ready.take index)) →
      Released (targetsOf edges) (range edges.length)
        (pending (targetsOf edges) (range edges.length) (ready.take index)) ready →
      ∃ after, drain edges bound index incoming ready = .ok after ∧
        Released (targetsOf edges) (range edges.length)
          (pending (targetsOf edges) (range edges.length) after) after := by
  intro bound
  induction bound with
  | zero =>
    intro index incoming ready hindex hbound _ hreleased
    have hlength := hreleased.length_le
    rw [length_range] at hlength; omega
  | succ bound ih =>
    intro index incoming ready hindex hbound hcounts hreleased
    rw [drain]
    cases hsource : ready[index]? with
    | none =>
      have hend : ready.take index = ready := take_of_length_le (getElem?_eq_none_iff.mp hsource)
      rw [hend] at hreleased; exact ⟨ready, rfl, hreleased⟩
    | some source =>
      obtain ⟨hlt, hget⟩ := List.getElem?_eq_some_iff.mp hsource
      have htake : ready.take (index + 1) = ready.take index ++ [source] := by
        rw [take_add_one, hsource]; rfl
      have hvertex := hreleased.within source (mem_of_getElem? hsource)
      have hnew : source ∉ ready.take index := by
        intro hmem
        obtain ⟨j, hj, hsame⟩ := getElem_of_mem hmem
        rw [getElem_take, ← hget] at hsame
        rw [length_take] at hj
        have := (List.Nodup.getElem_inj_iff hreleased.nodup).mp hsame
        omega
      have hpass := @pending_pass _ (targetsOf edges) _ _ _ _ nodup_range hvertex hnew
      rw [← htake] at hpass
      have hat : at? edges source = .ok (targetsOf edges source) := by
        have hsmall := mem_range.mp hvertex
        rw [at?, targetsOf, getD_eq_getElem?_getD, getElem?_eq_getElem hsmall]
        rfl
      have htargets : ∀ t ∈ targetsOf edges source, t < edges.length :=
        fun t ht => mem_range.mp (edge_inside hinside ht).2
      -- a source that has not been passed keeps its edges, one that has been is ready
      have hsources : ∀ s t, Edge (targetsOf edges) s t → s ∈ ready ∨
          t ∈ pending (targetsOf edges) (range edges.length) (ready.take (index + 1)) := by
        intro s t hedge
        by_cases hs : s ∈ ready.take (index + 1)
        · exact .inl (mem_of_mem_take hs)
        · exact .inr (mem_pending.mpr ⟨s, (edge_inside hinside hedge).1, hs, hedge⟩)
      obtain ⟨after, fresh, hrun, hafter, hall⟩ := release_spec _ htargets (hcounts.perm hpass)
        (hreleased.perm hpass) hsources
      have hsame : (ready ++ fresh).take (index + 1) = ready.take (index + 1) :=
        take_append_of_le_length hlt
      dsimp only
      rw [hat, Results.ok_bind, hrun]
      apply ih (index + 1) (by rw [length_append]; omega) (by omega)
      · rw [hsame]; exact hafter
      · rw [hsame]; exact hall

/-- Before anything is passed, all edges are to be counted down. -/
theorem pending_all : pending (targetsOf edges) (range edges.length) [] = edges.flatten := by
  rw [pending_nil]
  calc (range edges.length).flatMap (targetsOf edges)
      = ((range edges.length).map (targetsOf edges)).flatten := flatMap_def ..
    _ = edges.flatten := by
        congr 1
        apply ext_getElem
        · rw [length_map, length_range]
        · intro i hleft hright
          rw [getElem_map, getElem_range, targetsOf,
            getD_eq_getElem?_getD, getElem?_eq_getElem hright]
          rfl

theorem acyclicImports_run (hinside : Inside edges) :
    ∃ ready : List Nat, acyclicImports edges = (if ready.length ≠ edges.length then
        fail "package import cycle in edited source" else .ok true) ∧
      (ready.length = edges.length ↔ ¬Cyclic edges) := by
  have hstart : Counts edges.length (replicate edges.length 0) [] := by
    refine ⟨length_replicate, fun v hv => ?_⟩
    rw [getElem?_replicate, if_pos hv]; rfl
  obtain ⟨incoming, hcount, hcounts⟩ := countIncoming_counts edges hinside hstart
  rw [append_nil, ← pending_all] at hcounts
  have hready : Released (targetsOf edges) (range edges.length)
      (pending (targetsOf edges) (range edges.length) []) (unneeded incoming) := by
    refine ⟨nodup_range.filter _, fun v hv => ?_, fun v hv => ?_, fun v hv => ?_⟩
    · exact mem_range.mpr ((mem_unneeded hcounts).mp hv).1
    · rw [mem_unneeded hcounts]
      exact ⟨fun h => h.2, fun h => ⟨mem_range.mp hv, h⟩⟩
    · refine ⟨v, fun s hedge => ?_⟩
      have hleft := mem_pending.mpr ⟨s, (edge_inside hinside hedge).1, not_mem_nil, hedge⟩
      exact absurd hleft ((mem_unneeded hcounts).mp hv).2
  obtain ⟨ready, hrun, hreleased⟩ := drain_spec hinside (edges.length + 1) 0 (Nat.zero_le _)
    (by omega) hcounts hready
  have hcomplete := hreleased.complete_iff nodup_range (fun s t hedge => edge_inside hinside hedge)
  rw [length_range] at hcomplete
  refine ⟨ready, ?_, hcomplete⟩
  rw [acyclicImports, hcount, Results.ok_bind, hrun]; rfl

theorem acyclicImports_ok (hinside : Inside edges) (h : ¬Cyclic edges) :
    acyclicImports edges = .ok true := by
  obtain ⟨ready, hrun, hiff⟩ := acyclicImports_run hinside
  rw [hrun, if_neg (not_not.mpr (hiff.mpr h))]

theorem acyclicImports_cycle (hinside : Inside edges) (h : Cyclic edges) :
    acyclicImports edges = fail "package import cycle in edited source" := by
  obtain ⟨ready, hrun, hiff⟩ := acyclicImports_run hinside
  rw [hrun, if_pos (fun hlength => hiff.mp hlength h)]

end

end Loom.Regraph
