import Loom.Library.Distances
import Loom.Library.Texts
import Loom.Proof.Inequalities

/-
  Difference constraints between symbols (`proof/difference_queries.loom`,
  `proof/relational.loom`).

  A comparison of `x - y + c` with zero is an edge between the vertices of `x` and of
  `y`; vertex zero denotes the constant zero, and bounds tie every symbol to it. A goal
  holds when the distance of its ends gets down to its limit.

  Correspondence (Loom ↔ Lean), where names differ:
    `difference_identity` ↔ `differenceIdentity`, `differenceEnd`
    `difference_edges`, its loop ↔ `differenceEdges`, `differenceTermsOf`, `edgesOf`
    `difference_path`, its loops ↔ `differencePath`, `pathRounds`, `relaxEdges`
    `difference_query`, its loops ↔ `differenceQuery`, `factEdges`, `boundEdges`,
      `goalsProved`
  A list that the source changes is threaded through. Reading outside a list is a fault.
-/

namespace Loom.Proof

open Number Texts Distances List

/-! ## The source -/

structure Difference where
  left : Nat
  right : Nat
  limit : Number

structure Distance where
  known : Bool
  value : Number

def differenceIdentity (identities : List Int) (id : Int) : Except Stop (Nat × List Int) :=
  match identities.findIdx? (· == id) with
  | some index => .ok (index + 1, identities)
  | none =>
    if id < 0 ∨ identities.length ≥ 32 then fail "difference identity budget exhausted"
    else .ok (identities.length + 1, identities ++ [id])

/-- The vertex of a symbol; `-1` is none, and stands for zero. -/
def differenceEnd (identities : List Int) (id : Int) : Except Stop (Nat × List Int) :=
  if id = -1 then .ok (0, identities) else differenceIdentity identities id

/-- The loop over the terms; `none` where they have not the shape. -/
def differenceTermsOf : List Term → Int → Int → Except Stop (Option (Int × Int))
  | [], positive, negative => .ok (some (positive, negative))
  | term :: terms, positive, negative =>
    if term.id < 0 then fail "invalid difference identity"
    else if compare term.factor (integer 1) = 0 ∧ positive = -1 then
      differenceTermsOf terms term.id negative
    else if compare term.factor (integer (-1)) ≠ 0 ∨ negative ≠ -1 then .ok none
    else differenceTermsOf terms positive term.id

def edgesOf (relation : Relation) (left right : Nat) (constant : Number) : List Difference :=
  let reverse := relation = .gt ∨ relation = .ge
  let limit := if reverse then constant else negate constant
  { left := if reverse then right else left
    right := if reverse then left else right
    limit := if relation = .lt ∨ relation = .gt then subtract limit (integer 1) else limit } ::
  if relation = .eq then [{ left := right, right := left, limit := constant }] else []

def differenceEdges (edges : List Difference) (identities : List Int) (relation : Relation)
    (value : Linear) : Except Stop (Bool × List Difference × List Int) :=
  if relation = .ne then .ok (false, edges, identities)
  else do
    let shape ← differenceTermsOf value.terms (-1) (-1)
    match shape with
    | none => return (false, edges, identities)
    | some (positive, negative) => do
      let (left, identities) ← differenceEnd identities positive
      let (right, identities) ← differenceEnd identities negative
      return (true, edges ++ edgesOf relation left right value.constant, identities)

def distanceAt (distances : List Distance) (index : Nat) : Except Stop Distance :=
  match distances[index]? with
  | some distance => .ok distance
  | none => .error .fault

/-- The loop over the edges: the distances and whether one of them changed. -/
def relaxEdges : List Difference → List Distance → Bool → Except Stop (List Distance × Bool)
  | [], distances, changed => .ok (distances, changed)
  | edge :: edges, distances, changed => do
    let source ← distanceAt distances edge.right
    if source.known then do
      let candidate := sum source.value edge.limit
      let previous ← distanceAt distances edge.left
      if !previous.known || compare candidate previous.value < 0 then
        relaxEdges edges (distances.set edge.left ⟨true, candidate⟩) true
      else relaxEdges edges distances changed
    else relaxEdges edges distances changed

/-- The loop over the rounds, and how many are left. -/
def pathRounds (edges : List Difference) (goal : Difference) :
    Nat → List Distance → Except Stop Bool
  | 0, _ => .ok true
  | rounds + 1, distances => do
    let bound ← distanceAt distances goal.left
    if bound.known && compare bound.value goal.limit ≤ 0 then return true
    else do
      let (distances, changed) ← relaxEdges edges distances false
      if !changed then return false else pathRounds edges goal rounds distances

def differencePath (edges : List Difference) (goal : Difference) (count : Nat) : Except Stop Bool :=
  pathRounds edges goal count
    ((List.range count).map fun index => ⟨index == goal.right, integer 0⟩)

/-- The loop over the facts. -/
def factEdges : List Predicate → List Difference → List Int →
    Except Stop (List Difference × List Int)
  | [], edges, identities => .ok (edges, identities)
  | .compare operator term :: facts, edges, identities => do
    let (_, edges, identities) ← differenceEdges edges identities operator term
    factEdges facts edges identities
  | _ :: facts, edges, identities => factEdges facts edges identities

/-- Every symbol is a machine integer. -/
def boundEdges (count : Nat) : List Difference :=
  (List.range count).flatMap fun index =>
    [{ left := index + 1, right := 0, limit := integer maxInt },
      { left := 0, right := index + 1, limit := negate (integer minInt) }]

/-- The loop over the goals. -/
def goalsProved (edges : List Difference) (count : Nat) : List Difference → Except Stop Bool
  | [] => .ok true
  | goal :: goals => do
    let proved ← differencePath edges goal count
    if !proved then return false else goalsProved edges count goals

def differenceQuery (relation : Relation) (value : Linear) (facts : List Predicate) :
    Except Stop Bool := do
  let (shaped, goals, identities) ← differenceEdges [] [] relation value
  if !shaped then return false
  else do
    let (edges, identities) ← factEdges (facts.take 256) [] identities
    goalsProved (edges ++ boundEdges identities.length) (identities.length + 1) goals

/-! ## The search -/

/-- The constraint of an edge, over the integers. -/
def Difference.edge (difference : Difference) : Edge Nat :=
  ⟨difference.left, difference.right, difference.limit.toInt⟩

def known (distances : List Distance) (index : Nat) : Option Int :=
  match distances[index]? with
  | some distance => if distance.known then some distance.value.toInt else none
  | none => none

/-- The ends of an edge are vertices. -/
def Difference.Within (difference : Difference) (count : Nat) : Prop :=
  difference.left < count ∧ difference.right < count

theorem known_set {distances : List Distance} {index : Nat} (h : index < distances.length)
    (value : Number) : known (distances.set index ⟨true, value⟩) =
      Function.update (known distances) index (some value.toInt) := by
  funext v
  unfold known
  by_cases hv : v = index
  · subst hv
    rw [Function.update_self, getElem?_set_self h]; rfl
  · rw [Function.update_of_ne hv, getElem?_set_ne (Ne.symm hv)]

theorem distanceAt_eq {distances : List Distance} {index : Nat} (h : index < distances.length) :
    ∃ distance, distanceAt distances index = .ok distance ∧
      known distances index = if distance.known then some distance.value.toInt else none := by
  refine ⟨distances[index], ?_, ?_⟩
  · rw [distanceAt, getElem?_eq_getElem h]
  · rw [known, getElem?_eq_getElem h]

theorem compare_le_zero {a b : Number} : compare a b ≤ 0 ↔ a.toInt ≤ b.toInt := by
  rw [← Int.not_lt, compare_gt_zero, Int.not_lt]

theorem relaxEdges_eq (edges : List Difference) : ∀ {distances : List Distance} (changed : Bool),
    (∀ edge ∈ edges, edge.Within distances.length) → ∃ after, relaxEdges edges distances changed =
          .ok (after, (relaxAll (edges.map Difference.edge) (known distances) changed).2) ∧
        known after = (relaxAll (edges.map Difference.edge) (known distances) changed).1 ∧
        after.length = distances.length := by
  induction edges with
  | nil => exact fun _ _ => ⟨_, rfl, rfl, rfl⟩
  | cons edge edges ih =>
    intro distances changed hin
    obtain ⟨⟨hleft, hright⟩, hrest⟩ := forall_mem_cons.mp hin
    obtain ⟨source, hsource, hknown⟩ := distanceAt_eq hright
    obtain ⟨previous, hprevious, hknown'⟩ := distanceAt_eq hleft
    rw [relaxEdges, hsource, Results.ok_bind, map_cons, relaxAll]
    by_cases hreached : source.known = true
    case neg =>
      -- nothing is known about the right end
      have hnone : better (known distances) edge.edge = none := by
        rw [better, Difference.edge, hknown, if_neg hreached]
      rw [if_neg hreached, hnone]; exact ih changed hrest
    rw [if_pos hreached] at hknown ⊢
    rw [hprevious, Results.ok_bind]
    have hbetter : better (known distances) edge.edge =
        if (!previous.known || compare (sum source.value edge.limit) previous.value < 0) = true
        then some (sum source.value edge.limit).toInt else none := by
      rw [better, Difference.edge, hknown, hknown', toInt_sum]
      cases previous.known with
      | false => rfl
      | true =>
        simp only [if_true, Bool.not_true, Bool.false_or, decide_eq_true_eq, compare_lt_zero,
          toInt_sum]
    rw [hbetter]
    by_cases hless :
        (!previous.known || compare (sum source.value edge.limit) previous.value < 0) = true
    · rw [if_pos hless, if_pos hless]
      have hmore : ∀ other ∈ edges, other.Within
          (distances.set edge.left ⟨true, sum source.value edge.limit⟩).length := by
        rwa [length_set]
      obtain ⟨after, hrun, hafter, hlength⟩ := ih true hmore
      rw [known_set hleft] at hrun hafter
      exact ⟨after, hrun, hafter, hlength.trans length_set⟩
    · rw [if_neg hless, if_neg hless]; exact ih changed hrest

theorem pathRounds_eq {edges : List Difference} {goal : Difference} (rounds : Nat) :
    ∀ {distances : List Distance}, (∀ edge ∈ edges, edge.Within distances.length) →
      goal.Within distances.length → pathRounds edges goal rounds distances =
        .ok (search (edges.map Difference.edge) goal.left goal.limit.toInt rounds
          (known distances)) := by
  induction rounds with
  | zero => exact fun _ _ => rfl
  | succ rounds ih =>
    intro distances hin hgoal
    obtain ⟨bound, hbound, hknown⟩ := distanceAt_eq hgoal.1
    obtain ⟨after, hrun, hafter, hlength⟩ := relaxEdges_eq edges false hin
    have hreached : (bound.known && compare bound.value goal.limit ≤ 0) =
        (known distances goal.left).any (fun distance => decide (distance ≤ goal.limit.toInt)) := by
      rw [hknown]
      cases bound.known with
      | false => rfl
      | true => simp [Bool.true_and, Option.any_some, compare_le_zero]
    rw [pathRounds, hbound, Results.ok_bind, hreached, search]
    split
    case isTrue => rfl
    case isFalse =>
      rw [hrun, ← Prod.eta (relaxAll _ (known distances) false), ← hafter]
      cases (relaxAll (edges.map Difference.edge) (known distances) false).2 with
      | false => rfl
      | true =>
        rw [← hlength] at hin hgoal; exact ih hin hgoal

theorem differencePath_eq {edges : List Difference} {goal : Difference} {count : Nat}
    (hin : ∀ edge ∈ edges, edge.Within count) (hgoal : goal.Within count) :
    differencePath edges goal count =
      .ok (search (edges.map Difference.edge) goal.left goal.limit.toInt count
        (start goal.right)) := by
  have hlength : ((List.range count).map fun index =>
      (⟨index == goal.right, integer 0⟩ : Distance)).length = count := by
    rw [length_map, length_range]
  have hstart : known ((List.range count).map fun index => ⟨index == goal.right, integer 0⟩) =
      start goal.right := by
    funext v
    unfold known start
    by_cases hv : v < count
    · rw [getElem?_map, getElem?_range hv]; simp
    · have hne : v ≠ goal.right := by
        intro heq; exact hv (heq ▸ hgoal.2)
      rw [getElem?_eq_none (by omega), if_neg hne]
  rw [differencePath, pathRounds_eq count (by rwa [hlength]) (by rwa [hlength]), hstart]

end Loom.Proof
