import Mathlib.Data.List.Basic
import Mathlib.Tactic.Common

/-
  Templates: finite trees over constructors `κ` whose leaves may be numbered
  parameters, and what substituting for the parameters does to them.
-/

namespace Loom.Templates

open List

inductive Template (κ : Type) where
  | parameter (index : Nat)
  | node (head : κ) (arguments : List (Template κ))
  deriving Repr

variable {κ : Type}

namespace Template

/-- Induction over templates with the arguments of a node taken one by one. -/
@[elab_as_elim]
theorem inductionOn {motive : Template κ → Prop} (template : Template κ)
    (parameter : ∀ index, motive (.parameter index))
    (node : ∀ head arguments, (∀ child ∈ arguments, motive child) →
      motive (.node head arguments)) : motive template := by
  refine Template.rec (motive_1 := motive)
    (motive_2 := fun children => ∀ child ∈ children, motive child) parameter node ?_ ?_ template
  · intro child hmem
    cases hmem
  · intro first rest hfirst hrest child hmem
    rcases mem_cons.mp hmem with rfl | hmem
    · exact hfirst
    · exact hrest child hmem

/-! ## Equality -/

section
variable [DecidableEq κ]

mutual
def same : Template κ → Template κ → Bool
  | .parameter index, .parameter other => index == other
  | .node head arguments, .node other children => decide (head = other) && sameAll arguments children
  | _, _ => false

def sameAll : List (Template κ) → List (Template κ) → Bool
  | [], [] => true
  | first :: rest, second :: others => same first second && sameAll rest others
  | _, _ => false
end

mutual
theorem same_iff : (left right : Template κ) → (same left right = true ↔ left = right)
  | .parameter index, .parameter other => by simp [same]
  | .node head arguments, .node other children => by
      simp [same, sameAll_iff arguments children]
  | .parameter _, .node _ _ => by simp [same]
  | .node _ _, .parameter _ => by simp [same]

theorem sameAll_iff : (left right : List (Template κ)) → (sameAll left right = true ↔ left = right)
  | [], [] => by simp [sameAll]
  | first :: rest, second :: others => by
      simp [sameAll, same_iff first second, sameAll_iff rest others]
  | [], _ :: _ => by simp [sameAll]
  | _ :: _, [] => by simp [sameAll]
end

instance : DecidableEq (Template κ) :=
  fun left right => decidable_of_iff _ (same_iff left right)

end

/-! ## Substitution -/

mutual
/-- The instance of a template: every parameter replaced by its value. -/
def substitute (values : Nat → Template κ) : Template κ → Template κ
  | .parameter index => values index
  | .node head arguments => .node head (substituteAll values arguments)

def substituteAll (values : Nat → Template κ) : List (Template κ) → List (Template κ)
  | [] => []
  | first :: rest => substitute values first :: substituteAll values rest
end

theorem substituteAll_eq_map (values : Nat → Template κ) (children : List (Template κ)) :
    substituteAll values children = children.map (substitute values) := by
  induction children with
  | nil => rfl
  | cons first rest ih => rw [substituteAll, ih, map_cons]

@[simp] theorem substitute_parameter (values : Nat → Template κ) (index : Nat) :
    substitute values (.parameter index) = values index := by
  rw [substitute]

@[simp] theorem substitute_node (values : Nat → Template κ) (head : κ)
    (arguments : List (Template κ)) :
    substitute values (.node head arguments) = .node head (arguments.map (substitute values)) := by
  rw [substitute, substituteAll_eq_map]

/-! ## Occurrence -/

mutual
/-- The parameters of a template, from left to right. -/
def parameters : Template κ → List Nat
  | .parameter index => [index]
  | .node _ arguments => parametersAll arguments

def parametersAll : List (Template κ) → List Nat
  | [] => []
  | first :: rest => parameters first ++ parametersAll rest
end

variable {index : Nat}

theorem mem_parametersAll {children : List (Template κ)} :
    index ∈ parametersAll children ↔ ∃ child ∈ children, index ∈ parameters child := by
  induction children with
  | nil => simp [parametersAll]
  | cons first rest ih => simp [parametersAll, ih]

@[simp] theorem mem_parameters_parameter {other : Nat} :
    index ∈ parameters (.parameter other : Template κ) ↔ index = other := by
  simp [parameters]

@[simp] theorem mem_parameters_node {head : κ} {arguments : List (Template κ)} :
    index ∈ parameters (.node head arguments) ↔ ∃ child ∈ arguments, index ∈ parameters child := by
  rw [parameters, mem_parametersAll]

/-- Only the values at a template's own parameters matter. -/
theorem substitute_congr {left right : Nat → Template κ} (template : Template κ)
    (hagree : ∀ index ∈ parameters template, left index = right index) :
    substitute left template = substitute right template := by
  induction template using inductionOn with
  | parameter index => simpa using hagree index
  | node head arguments ih =>
    rw [substitute_node, substitute_node]
    refine congrArg _ (map_congr_left fun child hchild => ih child hchild ?_)
    intro index hindex
    exact hagree index (mem_parameters_node.mpr ⟨child, hchild, hindex⟩)

theorem substitute_substitute (outer inner : Nat → Template κ) (template : Template κ) :
    substitute outer (substitute inner template) =
      substitute (fun index => substitute outer (inner index)) template := by
  induction template using inductionOn with
  | parameter index => simp
  | node head arguments ih =>
    simp only [substitute_node, map_map, Template.node.injEq, true_and]
    exact map_congr_left ih

@[simp] theorem substitute_self (template : Template κ) :
    substitute .parameter template = template := by
  induction template using inductionOn with
  | parameter index => simp
  | node head arguments ih => rw [substitute_node, map_congr_left ih, map_id']

/-- The parameters of an instance are those of the values that were put in. -/
theorem mem_parameters_substitute {values : Nat → Template κ} {template : Template κ} :
    index ∈ parameters (substitute values template) ↔
      ∃ other ∈ parameters template, index ∈ parameters (values other) := by
  induction template using inductionOn with
  | parameter other => simp
  | node head arguments ih =>
    rw [substitute_node, mem_parameters_node]
    constructor
    · rintro ⟨child, hchild, hindex⟩
      obtain ⟨argument, hargument, rfl⟩ := mem_map.mp hchild
      obtain ⟨other, hother, hin⟩ := (ih argument hargument).mp hindex
      exact ⟨other, mem_parameters_node.mpr ⟨argument, hargument, hother⟩, hin⟩
    · rintro ⟨other, hother, hin⟩
      obtain ⟨argument, hargument, hother⟩ := mem_parameters_node.mp hother
      exact ⟨_, mem_map_of_mem hargument, (ih argument hargument).mpr ⟨other, hother, hin⟩⟩

/-! ## Size -/

mutual
def size : Template κ → Nat
  | .parameter _ => 1
  | .node _ arguments => 1 + sizeAll arguments

def sizeAll : List (Template κ) → Nat
  | [] => 0
  | first :: rest => size first + sizeAll rest
end

theorem size_pos (template : Template κ) : 0 < size template := by
  cases template <;> simp only [size] <;> omega

theorem size_le_sizeAll {child : Template κ} {children : List (Template κ)}
    (hmem : child ∈ children) : size child ≤ sizeAll children := by
  induction children with
  | nil => cases hmem
  | cons first rest ih =>
    rw [sizeAll]
    rcases mem_cons.mp hmem with rfl | hrest
    · omega
    · have := ih hrest
      omega

theorem size_lt_node {child : Template κ} {head : κ} {arguments : List (Template κ)}
    (hmem : child ∈ arguments) : size child < size (.node head arguments) := by
  have := size_le_sizeAll hmem
  rw [size]; omega

end Template

end Loom.Templates
