import Loom.Checking.TypeIndex

/-
  Comparing two checked types before their parameters are known.

  The answer is 1 for equal, 0 for distinct and -1 for types of which that depends on what
  is not known yet. The comparison goes down both types at once, at most 64 levels, and
  remembers the pairs it has finished.

  Correspondence (loom ↔ Lean), where names differ:
    `type_relations.concrete_type`, its loop ↔ `concreteType`, `concreteFrom`
    `concrete_in`, its loop ↔ `concreteIn`, `allConcrete`
    the tests of `relation_in` before its memo ↔ `decided`, `symbolRelation`
    the loop of `relation_in` ↔ `relateArguments`
    `family_projection`, its loop ↔ `familyProjection`, `anyProjection`
  Depths are counted down: `remaining` is 64 less the depth. A list that a call pushes to is
  taken and returned. A projection is searched with as much fuel as there are types, which
  is more than it can nest. `none` is a fault.
  `plainRelation` is the comparison without the memo. It also tells whether it was cut off.
-/

namespace Loom.Relations

open Interning Option

/-! ## Reading the table -/

/-- `get(types, ty)` -/
def shapeAt (types : List Identity) (ty : Int) : Option Identity :=
  if ty < 0 then none else types[ty.toNat]?

/-- The kinds with a symbolic identity only. -/
def unresolved (kind : Kind) : Bool :=
  kind = .parameter || kind = .associated || kind = .rigid

/-! ## Type lambdas -/

structure FamilyScope where
  parent : Int
  family : Int
  deriving DecidableEq

/-- What `familyClosedIn` pushes to: `scopes` and `known`. -/
structure FamilyWalk where
  scopes : List FamilyScope
  known : List (Int × Int)

/-- The loop of `familyProjection`. -/
def anyProjection (walk : Int → List Int → Option (Bool × List Int)) :
    List Int → List Int → Option (Bool × List Int)
  | [], seen => some (false, seen)
  | argument :: rest, seen => do
    let (found, seen) ← walk argument seen
    if found then return (true, seen) else anyProjection walk rest seen

def familyProjection (types : List Identity) : Nat → Int → List Int → Option (Bool × List Int)
  | 0, _, _ => none
  | fuel + 1, ty, seen => do
    let shape ← shapeAt types ty
    if shape.kind = .associated then return (true, seen)
    else if ty ∈ seen then return (false, seen)
    else anyProjection (familyProjection types fuel) shape.arguments (seen ++ [ty])

/-- Whether a rigid variable is among the first `count` arguments. -/
def bindsAmong (ty : Int) : Nat → List Int → Option Bool
  | 0, _ => some false
  | _ + 1, [] => none
  | count + 1, argument :: rest =>
    if argument = ty then some true else bindsAmong ty count rest

/-- The loop over the enclosing scopes, each of which was pushed before those inside it. -/
def boundIn (types : List Identity) (scopes : List FamilyScope) (ty : Int) :
    Nat → Int → Option Bool
  | 0, current => if current < 0 then some false else none
  | fuel + 1, current =>
    if current < 0 then some false
    else do
      let entry ← scopes[current.toNat]?
      let family ← shapeAt types entry.family
      let bound ← bindsAmong ty family.symbol.toNat family.arguments
      if bound then return true else boundIn types scopes ty fuel entry.parent

/-- Whether the first `count` arguments are rigid variables. -/
def allRigid (types : List Identity) : Nat → List Int → Option Bool
  | 0, _ => some true
  | _ + 1, [] => none
  | count + 1, argument :: rest => do
    let shape ← shapeAt types argument
    if shape.kind ≠ .rigid then return false else allRigid types count rest

/-- The loop of `familyClosedIn` over the arguments. -/
def allClosed (walk : Int → FamilyWalk → Option (Bool × FamilyWalk)) :
    List Int → FamilyWalk → Option (Bool × FamilyWalk)
  | [], state => some (true, state)
  | argument :: rest, state => do
    let (closed, state) ← walk argument state
    if closed then allClosed walk rest state else return (false, state)

/-- The scope of a lambda inside `scope`: the one that is there, or a new one. -/
def childScope (scopes : List FamilyScope) (scope family : Int) : Int × List FamilyScope :=
  let child := scopes.findIdx (fun entry => entry.parent = scope && entry.family = family)
  (child, if child = scopes.length then scopes ++ [{ parent := scope, family := family }]
    else scopes)

/-- `push(known, (ty, scope))`, after a walk that found everything closed. -/
def remember (ty scope : Int) (result : Bool × FamilyWalk) : Bool × FamilyWalk :=
  if result.1 then (true, { result.2 with known := result.2.known ++ [(ty, scope)] }) else result

def familyClosedIn (types : List Identity) :
    Nat → Int → Int → FamilyWalk → Option (Bool × FamilyWalk)
  | remaining, ty, scope, state =>
    if ty ≤ 5 then some (true, state)
    else match remaining with
      | 0 => some (false, state)
      | remaining + 1 => do
        let shape ← shapeAt types ty
        if shape.kind = .parameter then return (false, state)
        else if shape.kind = .rigid then do
          let bound ← boundIn types state.scopes ty (state.scopes.length + 1) scope
          return (bound, state)
        else if shape.kind = .associated && scope < 0 then return (false, state)
        else if (ty, scope) ∈ state.known then return (true, state)
        else if shape.kind = .family then
          if shape.symbol ≤ 0 || (shape.arguments.length : Int) ≠ shape.symbol + 1 then
            return (false, state)
          else do
            let rigid ← allRigid types shape.symbol.toNat shape.arguments
            if !rigid then return (false, state)
            else do
              let (child, scopes) := childScope state.scopes scope ty
              let body ← shape.arguments[shape.symbol.toNat]?
              let result ← familyClosedIn types remaining body child
                { state with scopes := scopes }
              return remember ty scope result
        else do
          let result ← allClosed (fun argument state =>
            familyClosedIn types remaining argument scope state) shape.arguments state
          return remember ty scope result

def familyClosed (types : List Identity) (ty : Int) : Option Bool := do
  let (closed, _) ← familyClosedIn types 64 ty (-1) { scopes := [], known := [] }
  return closed

/-! ## Concrete types -/

def allConcrete (walk : Int → List Int → Option (Bool × List Int)) :
    List Int → List Int → Option (Bool × List Int)
  | [], seen => some (true, seen)
  | argument :: rest, seen => do
    let (concrete, seen) ← walk argument seen
    if concrete then allConcrete walk rest seen else return (false, seen)

def concreteIn (types : List Identity) : Nat → Int → List Int → Option (Bool × List Int)
  | remaining, ty, seen =>
    if ty ≤ 5 then some (true, seen)
    else match remaining with
      | 0 => some (false, seen)
      | remaining + 1 => do
        let shape ← shapeAt types ty
        if unresolved shape.kind then return (false, seen)
        else if shape.kind = .family then do
          let closed ← familyClosed types ty
          return (closed, seen)
        else if ty ∈ seen then return (true, seen)
        else allConcrete (concreteIn types remaining) shape.arguments (seen ++ [ty])

def concreteFrom (types : List Identity) : Nat → Int → Option Bool
  | remaining, current =>
    if current ≤ 5 then some true
    else do
      let shape ← shapeAt types current
      if unresolved shape.kind then return false
      else if shape.kind = .family then familyClosed types current
      else match remaining with
        | 0 => return shape.arguments = []
        | remaining + 1 =>
          match shape.arguments with
          | [] => return true
          | [first] => concreteFrom types remaining first
          | _ :: _ :: _ => do
            let (concrete, _) ← concreteIn types (remaining + 1) current []
            return concrete

def concreteType (types : List Identity) (ty : Int) : Option Bool := concreteFrom types 64 ty

/-! ## The relation -/

structure TypeComparison where
  left : Int
  right : Int
  relation : Int
  deriving DecidableEq

/-- `!concrete_type(left) || !concrete_type(right) || family_projection(left) || …` -/
def uncertain (types : List Identity) (left right : Int) : Option Bool := do
  let first ← concreteType types left
  if !first then return true
  else do
    let second ← concreteType types right
    if !second then return true
    else do
      let (projected, _) ← familyProjection types (types.length + 1) left []
      if projected then return true
      else do
        let (projected, _) ← familyProjection types (types.length + 1) right []
        return projected

/-- The relation of two shapes of one kind with different symbols. -/
def symbolRelation (types : List Identity) (left right : Int) (kind : Kind) : Option Int :=
  if kind = .dyn then do
    let unknown ← uncertain types left right
    return if unknown then -1 else 0
  else some 0

/-- What the two shapes say without their arguments, if they say anything. -/
def decided (types : List Identity) (left right : Int) (a b : Identity) : Option (Option Int) :=
  if unresolved a.kind || unresolved b.kind then some (some (-1))
  else if a.kind ≠ b.kind then some (some 0)
  else if a.symbol ≠ b.symbol then do
    let relation ← symbolRelation types left right a.kind
    return some relation
  else if a.arguments.length ≠ b.arguments.length || a.packWidths ≠ b.packWidths then some (some 0)
  else some none

/-- A relation after one more argument. -/
def combine (relation current : Int) : Int :=
  if current = 0 then 0 else if current < 0 then -1 else relation

/-- The loop of `relationIn`, which stops at a distinct argument. -/
def relateArguments
    (relate : Int → Int → List TypeComparison → Option (Int × List TypeComparison)) :
    List Int → List Int → Int → List TypeComparison → Option (Int × List TypeComparison)
  | left :: lefts, right :: rights, relation, seen =>
    if relation = 0 then some (relation, seen)
    else do
      let (current, seen) ← relate left right seen
      relateArguments relate lefts rights (combine relation current) seen
  | _, _, relation, seen => some (relation, seen)

def relationIn (types : List Identity) :
    Nat → Int → Int → List TypeComparison → Option (Int × List TypeComparison)
  | remaining, left, right, seen =>
    if left = right then some (1, seen)
    else match remaining with
      | 0 => some (-1, seen)
      | remaining + 1 => do
        let a ← shapeAt types left
        let b ← shapeAt types right
        let said ← decided types left right a b
        match said with
        | some relation => return (relation, seen)
        | none =>
          match seen.find? (fun found => found.left = left && found.right = right) with
          | some found => return (found.relation, seen)
          | none => do
            let (relation, seen) ← relateArguments (relationIn types remaining)
              a.arguments b.arguments 1 seen
            return (relation, seen ++ [{ left := left, right := right, relation := relation }])

def typeRelation (types : List Identity) (left right : Int) : Option Int :=
  if left = right then some 1
  else do
    let (relation, _) ← relationIn types 64 left right []
    return relation

/-! ## The relation without a memo -/

/-- The loop of `plainIn`. -/
def plainArguments (relate : Int → Int → Option (Int × Bool)) :
    List Int → List Int → Int → Bool → Option (Int × Bool)
  | left :: lefts, right :: rights, relation, cut =>
    if relation = 0 then some (relation, cut)
    else do
      let (current, short) ← relate left right
      plainArguments relate lefts rights (combine relation current) (cut || short)
  | _, _, relation, cut => some (relation, cut)

/-- The comparison as `relationIn` makes it, but without the pairs it has seen; and whether
    it came to the last level. -/
def plainIn (types : List Identity) : Nat → Int → Int → Option (Int × Bool)
  | remaining, left, right =>
    if left = right then some (1, false)
    else match remaining with
      | 0 => some (-1, true)
      | remaining + 1 => do
        let a ← shapeAt types left
        let b ← shapeAt types right
        let said ← decided types left right a b
        match said with
        | some relation => return (relation, false)
        | none => plainArguments (plainIn types remaining) a.arguments b.arguments 1 false

def plainRelation (types : List Identity) (left right : Int) : Option (Int × Bool) :=
  plainIn types 64 left right

/-! ## The memo -/

variable {types : List Identity} {left right relation : Int} {remaining : Nat}

theorem plainArguments_more {relate further : Int → Int → Option (Int × Bool)}
    (more : ∀ left right relation, relate left right = some (relation, false) →
      further left right = some (relation, false)) :
    ∀ (lefts rights : List Int) (start : Int) (cut : Bool),
      plainArguments relate lefts rights start cut = some (relation, false) →
      cut = false ∧ plainArguments further lefts rights start false = some (relation, false)
  | [], rights, start, cut, h => by
    obtain ⟨rfl, rfl⟩ : start = relation ∧ cut = false := by simpa [plainArguments] using h
    exact ⟨rfl, by simp [plainArguments]⟩
  | _ :: _, [], start, cut, h => by
    obtain ⟨rfl, rfl⟩ : start = relation ∧ cut = false := by simpa [plainArguments] using h
    exact ⟨rfl, by simp [plainArguments]⟩
  | left :: lefts, right :: rights, start, cut, h => by
    simp only [plainArguments] at h ⊢
    split at h
    · next hzero =>
      obtain ⟨rfl, rfl⟩ : start = relation ∧ cut = false := by simpa using h
      exact ⟨rfl, by rw [if_pos hzero]⟩
    · next hzero =>
      obtain ⟨⟨current, short⟩, hcurrent, hrest⟩ := bind_eq_some_iff.mp h
      obtain ⟨hcut, hmore⟩ := plainArguments_more more lefts rights _ _ hrest
      obtain ⟨rfl, rfl⟩ : cut = false ∧ short = false := by simpa using hcut
      refine ⟨rfl, ?_⟩
      rw [if_neg hzero, more left right current hcurrent, bind_eq_bind]
      exact hmore

/-- A comparison that was not cut off stays as it is with more levels. -/
theorem plainIn_more (h : plainIn types remaining left right = some (relation, false)) :
    plainIn types (remaining + 1) left right = some (relation, false) := by
  induction remaining generalizing left right relation with
  | zero =>
    rw [plainIn] at h
    rw [plainIn.eq_def]
    dsimp only
    split at h
    · next heq => rw [if_pos heq, h]
    · simp at h
  | succ remaining ih =>
    rw [plainIn] at h
    rw [plainIn.eq_def]
    dsimp only
    split at h
    · next heq => rw [if_pos heq, h]
    · next hne =>
      rw [if_neg hne]
      obtain ⟨a, ha, h⟩ := bind_eq_some_iff.mp h
      obtain ⟨b, hb, h⟩ := bind_eq_some_iff.mp h
      obtain ⟨said, hsaid, h⟩ := bind_eq_some_iff.mp h
      simp only [ha, hb, hsaid, bind_eq_bind, bind_some]
      cases said with
      | some said => exact h
      | none =>
        exact (plainArguments_more (fun left right relation => ih) _ _ _ _ h).2

theorem plainIn_le {further : Nat} (hle : remaining ≤ further)
    (h : plainIn types remaining left right = some (relation, false)) :
    plainIn types further left right = some (relation, false) := by
  induction further, hle using Nat.le_induction with
  | base => exact h
  | succ further _ ih => exact plainIn_more ih

/-- Every pair that is remembered has the relation that the plain comparison finds. -/
def Recorded (types : List Identity) (seen : List TypeComparison) : Prop :=
  ∀ found ∈ seen, ∃ remaining,
    plainIn types remaining found.left found.right = some (found.relation, false)

theorem relateArguments_plain {plain : Int → Int → Option (Int × Bool)}
    {relate : Int → Int → List TypeComparison → Option (Int × List TypeComparison)}
    (step : ∀ left right relation seen, plain left right = some (relation, false) →
      Recorded types seen → ∃ after, relate left right seen = some (relation, after) ∧
        Recorded types after) :
    ∀ (lefts rights : List Int) (start : Int) (cut : Bool) (seen : List TypeComparison),
      plainArguments plain lefts rights start cut = some (relation, false) → Recorded types seen →
      ∃ after, relateArguments relate lefts rights start seen = some (relation, after) ∧
        Recorded types after
  | [], rights, start, cut, seen, h, hseen => by
    obtain ⟨rfl, -⟩ : start = relation ∧ cut = false := by simpa [plainArguments] using h
    exact ⟨seen, by simp [relateArguments], hseen⟩
  | _ :: _, [], start, cut, seen, h, hseen => by
    obtain ⟨rfl, -⟩ : start = relation ∧ cut = false := by simpa [plainArguments] using h
    exact ⟨seen, by simp [relateArguments], hseen⟩
  | left :: lefts, right :: rights, start, cut, seen, h, hseen => by
    simp only [plainArguments] at h
    simp only [relateArguments]
    split at h
    · next hzero =>
      obtain ⟨rfl, -⟩ : start = relation ∧ cut = false := by simpa using h
      exact ⟨seen, by rw [if_pos hzero], hseen⟩
    · next hzero =>
      obtain ⟨⟨current, short⟩, hcurrent, hrest⟩ := bind_eq_some_iff.mp h
      -- a later argument does not take back that the comparison was cut off
      have hcut := (plainArguments_more (fun _ _ _ h => h) lefts rights _ _ hrest).1
      obtain ⟨-, rfl⟩ : cut = false ∧ short = false := by simpa using hcut
      obtain ⟨between, hrelate, hbetween⟩ := step left right current seen hcurrent hseen
      rw [if_neg hzero, hrelate]
      exact relateArguments_plain step lefts rights _ _ between hrest hbetween

/-- With the memo the comparison finds what it finds without, if that is not cut off. -/
theorem relationIn_plain {seen : List TypeComparison}
    (h : plainIn types remaining left right = some (relation, false))
    (hseen : Recorded types seen) :
    ∃ after, relationIn types remaining left right seen = some (relation, after) ∧
      Recorded types after := by
  induction remaining generalizing left right relation seen with
  | zero =>
    rw [plainIn] at h
    rw [relationIn]
    split at h
    · next heq =>
      obtain rfl : 1 = relation := by simpa using h
      exact ⟨seen, by rw [if_pos heq], hseen⟩
    · simp at h
  | succ remaining ih =>
    have hplain := h
    rw [plainIn] at h
    rw [relationIn]
    split at h
    · next heq =>
      obtain rfl : 1 = relation := by simpa using h
      exact ⟨seen, by rw [if_pos heq], hseen⟩
    · next hne =>
      obtain ⟨a, ha, h⟩ := bind_eq_some_iff.mp h
      obtain ⟨b, hb, h⟩ := bind_eq_some_iff.mp h
      obtain ⟨said, hsaid, h⟩ := bind_eq_some_iff.mp h
      simp only [if_neg hne, ha, hb, hsaid, bind_eq_bind, bind_some]
      cases said with
      | some said =>
        obtain rfl : said = relation := by simpa using h
        exact ⟨seen, rfl, hseen⟩
      | none =>
        dsimp only at h ⊢
        split
        · next found hfound =>
          -- the pair was compared before, perhaps with another number of levels left
          obtain ⟨levels, hlevels⟩ := hseen found (List.mem_of_find?_eq_some hfound)
          obtain ⟨rfl, rfl⟩ : found.left = left ∧ found.right = right := by
            simpa using List.find?_some hfound
          have h₁ := plainIn_le (Nat.le_max_left levels (remaining + 1)) hlevels
          have h₂ := plainIn_le (Nat.le_max_right levels (remaining + 1)) hplain
          have hsame : found.relation = relation := by simpa [h₁] using h₂
          exact ⟨seen, by rw [hsame]; rfl, hseen⟩
        · obtain ⟨after, hafter, hrecorded⟩ :=
            relateArguments_plain (fun _ _ _ _ => ih) _ _ _ _ seen h hseen
          refine ⟨_, by rw [hafter]; rfl, ?_⟩
          intro found hfound
          rcases List.mem_append.mp hfound with hold | hnew
          · exact hrecorded found hold
          · obtain rfl := List.mem_singleton.mp hnew
            exact ⟨remaining + 1, hplain⟩

theorem typeRelation_plain (h : plainRelation types left right = some (relation, false)) :
    typeRelation types left right = some relation := by
  obtain ⟨after, hafter, -⟩ := @relationIn_plain _ _ _ _ _ [] h (by simp [Recorded])
  by_cases heq : left = right
  · rw [relationIn, if_pos heq] at hafter
    obtain ⟨rfl, -⟩ : 1 = relation ∧ after = [] := by simpa using hafter
    rw [typeRelation, if_pos heq]
  · rw [typeRelation, if_neg heq, hafter]; rfl

end Loom.Relations
