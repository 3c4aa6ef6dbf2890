import Loom.Checking.Types

/-
  Overlap of two implementation targets, by two-sided unification.

  The bindings are triangular: a bound parameter stands for a type whose own
  parameters are looked up again. The source's loops end because of the occurs
  check; here they take fuel, and `none` means that the fuel ran out.
-/

namespace Loom.Checking

open Templates Templates.Template Option

def overlapValue : Nat → Ty → Arguments → Option Ty
  | 0, _, _ => none
  | _ + 1, .node head children, _ => some (.node head children)
  | fuel + 1, .parameter symbol, bindings =>
      match bindings.getD symbol none with
      | none => some (.parameter symbol)
      | some bound => overlapValue fuel bound bindings

def overlapOccurs : Nat → Nat → Ty → Arguments → Option Bool
  | 0, _, _, _ => none
  | fuel + 1, sought, ty, bindings => do
      match ← overlapValue fuel ty bindings with
      | .parameter symbol => pure (symbol = sought)
      | .node _ children => children.anyM fun child => overlapOccurs fuel sought child bindings

/-- The argument loop of `overlap_types`: it stops at the first clash. -/
def overlapArguments (overlap : Ty → Ty → Arguments → Option (Bool × Arguments)) :
    List Ty → List Ty → Arguments → Option (Bool × Arguments)
  | left :: lefts, right :: rights, bindings => do
      let (unified, bindings) ← overlap left right bindings
      if unified then overlapArguments overlap lefts rights bindings else pure (false, bindings)
  | _, _, bindings => some (true, bindings)

def overlapTypes : Nat → Ty → Ty → Arguments → Option (Bool × Arguments)
  | 0, _, _, _ => none
  | fuel + 1, left, right, bindings => do
      let a ← overlapValue fuel left bindings
      let b ← overlapValue fuel right bindings
      if a = b then pure (true, bindings)
      else
        match a, b with
        | .parameter symbol, b => do
            if ← overlapOccurs fuel symbol b bindings then pure (false, bindings)
            else pure (true, bindings.set symbol (some b))
        | .node first parameters, .parameter symbol =>
            overlapTypes fuel (.parameter symbol) (.node first parameters) bindings
        | .node first parameters, .node second children =>
            if sameConstructor first parameters second children then
              overlapArguments (overlapTypes fuel) parameters children bindings
            else pure (false, bindings)

/-! ## Solutions -/

/-- An assignment that satisfies every equation of the bindings. -/
def Solves (values : Nat → Ty) (bindings : Arguments) : Prop :=
  ∀ index bound, bindings.getD index none = some bound → values index = substitute values bound

theorem Solves.value {values : Nat → Ty} {bindings : Arguments} (hsolves : Solves values bindings) :
    ∀ {fuel : Nat} {ty value : Ty}, overlapValue fuel ty bindings = some value →
      substitute values value = substitute values ty := by
  intro fuel
  induction fuel with
  | zero =>
    intro ty value hvalue; simp [overlapValue] at hvalue
  | succ fuel ih =>
    intro ty value hvalue
    cases ty with
    | node head children =>
      rw [overlapValue, some.injEq] at hvalue
      rw [hvalue]
    | parameter symbol =>
      rw [overlapValue] at hvalue
      cases hbound : bindings.getD symbol none with
      | none =>
        rw [hbound, some.injEq] at hvalue
        rw [hvalue]
      | some bound =>
        rw [hbound] at hvalue
        calc substitute values value = substitute values bound := ih hvalue
          _ = values symbol := (hsolves symbol bound hbound).symm
          _ = substitute values (.parameter symbol) := (substitute_parameter values symbol).symm

variable {bindings : Arguments} {fuel : Nat} {values : Nat → Ty}

/-- A value found by `overlapValue` is either a node or an unbound parameter. -/
theorem overlapValue_free : ∀ {fuel : Nat} {ty : Ty} {symbol : Nat},
      overlapValue fuel ty bindings = some (.parameter symbol) →
      bindings.getD symbol none = none := by
  intro fuel
  induction fuel with
  | zero =>
    intro ty symbol hvalue; simp [overlapValue] at hvalue
  | succ fuel ih =>
    intro ty symbol hvalue
    cases ty with
    | node head children => simp [overlapValue] at hvalue
    | parameter other =>
      rw [overlapValue] at hvalue
      cases hbound : bindings.getD other none with
      | none =>
        rw [hbound] at hvalue
        cases hvalue
        exact hbound
      | some bound =>
        rw [hbound] at hvalue; exact ih hvalue

theorem anyM_eq_some_true {test : Ty → Option Bool} {children : List Ty}
    (hany : children.anyM test = some true) : ∃ child ∈ children, test child = some true := by
  induction children with
  | nil => simp  at hany
  | cons first rest ih =>
    cases hfirst : test first with
    | none => simp [hfirst] at hany
    | some found =>
      cases found with
      | true => exact ⟨first, .head _, hfirst⟩
      | false =>
        simp only [List.anyM, hfirst] at hany
        obtain ⟨child, hmem, htest⟩ := ih hany
        exact ⟨child, .tail _ hmem, htest⟩

theorem overlapOccurs_parameter {sought other : Nat} (hfree : bindings.getD other none = none)
    (hoccurs : overlapOccurs fuel sought (.parameter other) bindings = some true) :
    sought = other := by
  cases fuel with
  | zero => simp [overlapOccurs] at hoccurs
  | succ fuel =>
    cases fuel with
    | zero => simp [overlapOccurs, overlapValue] at hoccurs
    | succ fuel =>
      simp only [overlapOccurs, overlapValue, hfree, bind_eq_bind, bind_some,
        pure_def, some.injEq, decide_eq_true_eq] at hoccurs
      exact hoccurs.symm

/-- What the occurs check finds is really inside every solution. -/
theorem overlapOccurs_size (hsolves : Solves values bindings) : ∀ {fuel sought : Nat} {ty : Ty},
      overlapOccurs fuel sought ty bindings = some true →
      size (values sought) ≤ size (substitute values ty) := by
  intro fuel
  induction fuel with
  | zero =>
    intro sought ty hoccurs; simp [overlapOccurs] at hoccurs
  | succ fuel ih =>
    intro sought ty hoccurs
    obtain ⟨shape, hshape, hoccurs⟩ := bind_eq_some_iff.mp hoccurs
    rw [← hsolves.value hshape]
    cases shape with
    | parameter symbol =>
      obtain rfl : symbol = sought := by simpa using hoccurs
      exact Nat.le_of_eq (congrArg size (substitute_parameter values symbol).symm)
    | node head children =>
      obtain ⟨child, hmem, hchild⟩ := anyM_eq_some_true hoccurs
      have hle := ih hchild
      have hlt : size (substitute values child) <
          size (.node head (children.map (substitute values))) :=
        size_lt_node (List.mem_map_of_mem hmem)
      rw [substitute_node]; omega

/-- An occurs check inside a node refuses only equations with no solution. -/
theorem overlapOccurs_unsolvable (hsolves : Solves values bindings) {symbol : Nat}
    {head : Constructor} {children : List Ty}
    (hoccurs : overlapOccurs fuel symbol (.node head children) bindings = some true) :
    values symbol ≠ substitute values (.node head children) := by
  intro hequal
  cases fuel with
  | zero => simp [overlapOccurs] at hoccurs
  | succ fuel =>
    obtain ⟨shape, hshape, hoccurs⟩ := bind_eq_some_iff.mp hoccurs
    obtain rfl : shape = .node head children := by
      cases fuel with
      | zero => simp [overlapValue] at hshape
      | succ fuel => simpa [overlapValue] using hshape.symm
    obtain ⟨child, hmem, hchild⟩ := anyM_eq_some_true hoccurs
    have hle := overlapOccurs_size hsolves hchild
    have hlt : size (substitute values child) <
        size (.node head (children.map (substitute values))) :=
      size_lt_node (List.mem_map_of_mem hmem)
    rw [hequal, substitute_node] at hle; omega

/-! ## Unification refuses no common instance -/

/-- Whatever unification answers, it does not refuse a solution. -/
def Keeps (overlap : Ty → Ty → Arguments → Option (Bool × Arguments)) : Prop :=
  ∀ {values : Nat → Ty} {left right : Ty} {bindings after : Arguments} {unified : Bool},
    Solves values bindings → substitute values left = substitute values right →
    overlap left right bindings = some (unified, after) →
    unified = true ∧ Solves values after

theorem overlapArguments_complete {overlap : Ty → Ty → Arguments → Option (Bool × Arguments)}
    (hkeeps : Keeps overlap) :
    {lefts rights : List Ty} → {bindings after : Arguments} → {unified : Bool} →
    Solves values bindings → lefts.map (substitute values) = rights.map (substitute values) →
    overlapArguments overlap lefts rights bindings = some (unified, after) →
    unified = true ∧ Solves values after
  | [], [], bindings, after, unified, hsolves, _, hoverlap => by
      cases hoverlap
      exact ⟨rfl, hsolves⟩
  | left :: lefts, right :: rights, bindings, after, unified, hsolves, hequal, hoverlap => by
      rw [List.map_cons, List.map_cons, List.cons.injEq] at hequal
      obtain ⟨⟨first, middle⟩, hfirst, hrest⟩ := bind_eq_some_iff.mp hoverlap
      obtain ⟨rfl, hmiddle⟩ := hkeeps hsolves hequal.1 hfirst
      exact overlapArguments_complete hkeeps hmiddle hequal.2 (by simpa using hrest)
  | [], _ :: _, _, _, _, _, hequal, _ => by simp at hequal
  | _ :: _, [], _, _, _, _, hequal, _ => by simp at hequal

theorem Solves.set {values : Nat → Ty} {bindings : Arguments} (hsolves : Solves values bindings)
    {symbol : Nat} {ty : Ty} (hequal : values symbol = substitute values ty) :
    Solves values (bindings.set symbol (some ty)) := by
  intro index bound hbound
  by_cases hsame : symbol = index
  · subst hsame
    by_cases hlt : symbol < bindings.length
    · rw [getD_set_self hlt] at hbound
      rw [← some.inj hbound, hequal]
    · rw [List.set_eq_of_length_le (by omega)] at hbound
      exact hsolves symbol bound hbound
  · rw [getD_set_other hsame] at hbound; exact hsolves index bound hbound

theorem overlapTypes_complete (fuel : Nat) : Keeps (overlapTypes fuel) := by
  induction fuel with
  | zero =>
    intro values left right bindings after unified _ _ hoverlap
    simp [overlapTypes] at hoverlap
  | succ fuel ih =>
    intro values left right bindings after unified hsolves hequal hoverlap
    obtain ⟨a, ha, hoverlap⟩ := bind_eq_some_iff.mp hoverlap
    obtain ⟨b, hb, hoverlap⟩ := bind_eq_some_iff.mp hoverlap
    have hvalues : substitute values a = substitute values b := by
      rw [hsolves.value ha, hsolves.value hb, hequal]
    by_cases hsame : a = b
    · rw [if_pos hsame] at hoverlap
      cases hoverlap
      exact ⟨rfl, hsolves⟩
    rw [if_neg hsame] at hoverlap
    cases a with
    | parameter symbol =>
      obtain ⟨occurs, hoccurs, hoverlap⟩ := bind_eq_some_iff.mp hoverlap
      cases occurs with
      | false =>
        cases hoverlap
        exact ⟨rfl, hsolves.set hvalues⟩
      | true =>
        -- the equation has a solution, so the parameter cannot occur in a node
        cases b with
        | node head children => exact absurd hvalues (overlapOccurs_unsolvable hsolves hoccurs)
        | parameter other =>
          obtain rfl := overlapOccurs_parameter (overlapValue_free hb) hoccurs
          exact absurd rfl hsame
    | node first parameters =>
      cases b with
      | parameter symbol => exact ih hsolves hvalues.symm hoverlap
      | node second children =>
        rw [substitute_node, substitute_node, Template.node.injEq] at hvalues
        obtain ⟨rfl, hchildren⟩ := hvalues
        have hlength : parameters.length = children.length := by
          simpa using congrArg List.length hchildren
        simp only [sameConstructor_iff.mpr ⟨rfl, hlength⟩] at hoverlap
        exact overlapArguments_complete ih hsolves hchildren hoverlap

/-! ## Implementation targets -/

/-- The header of an implementation, its target resolved. `implementation_type`
refuses a target that misses one of the declaration's parameters. -/
structure Implementation where
  /-- `length(type_parameters(env, symbol))` -/
  count : Nat
  capability : Int
  ty : Ty
  within : Scoped ty count
  every : ∀ index < count, index ∈ parameters ty

/-- The target of the second header with its parameters moved past those of
the first. -/
def renamed (offset : Nat) (second : Implementation) : Ty :=
  instantiate second.ty ((List.range second.count).map fun index => some (.parameter (offset + index)))

/-- `overlapping`, which unifies the first target with the renamed second. -/
def overlapping (fuel : Nat) (first second : Implementation) : Option Bool := do
  let bindings : Arguments := List.replicate (first.count + second.count) none
  let (unified, _) ← overlapTypes fuel first.ty (renamed first.count second) bindings
  pure unified

theorem substitute_renamed (values : Nat → Ty) (offset : Nat) (second : Implementation) :
    substitute values (renamed offset second) =
      substitute (fun index => values (offset + index)) second.ty := by
  rw [renamed, instantiate, substitute_substitute]
  refine substitute_congr second.ty fun index hindex => ?_
  have hlt : index < second.count := second.within index hindex
  simp [argument, hlt]

/-- Two targets with a common instance are never found disjoint. -/
theorem overlapping_of_common {first second : Implementation} {overlap : Bool}
    {left right : Nat → Ty} (hcommon : substitute left first.ty = substitute right second.ty)
    (hoverlapping : overlapping fuel first second = some overlap) : overlap = true := by
  obtain ⟨⟨unified, after⟩, hunify, hoverlap⟩ := bind_eq_some_iff.mp hoverlapping
  obtain rfl : unified = overlap := by simpa using hoverlap
  -- one assignment for both: the parameters of the two targets are apart
  let values : Nat → Ty := fun index =>
    if index < first.count then left index else right (index - first.count)
  have hleft : substitute values first.ty = substitute left first.ty := by
    refine substitute_congr first.ty fun index hindex => ?_
    exact if_pos (first.within index hindex)
  have hright : substitute values (renamed first.count second) = substitute right second.ty := by
    rw [substitute_renamed]
    refine substitute_congr second.ty fun index _ => ?_
    rw [show values (first.count + index) = right (first.count + index - first.count) from
      if_neg (by omega), Nat.add_sub_cancel_left]
  have hsolves : Solves values (List.replicate (first.count + second.count) none) := by
    intro index bound hbound
    simp [List.getElem?_replicate] at hbound
    split at hbound <;> simp at hbound
  exact (overlapTypes_complete fuel hsolves (by rw [hleft, hright, hcommon]) hunify).1

end Loom.Checking
