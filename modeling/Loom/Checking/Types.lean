import Mathlib.Data.List.Forall2
import Loom.Library.Templates

/-
  Checked types, their constructors, and one-way inference of type arguments.

  Types are interned: two ids are equal exactly when kind, symbol, pack widths
  and arguments are, so an id is modelled by the tree it stands for. Lambdas
  and associated projections are left out of the trees.

  Correspondence (loom ↔ Lean), where names differ:
    `typed.Type`, `TypeKind` ↔ `Ty`, `Constructor`, `TypeKind`
    `types.base_type` ↔ `Refinements.base`
    `types.substitute` ↔ `instantiate`
-/

namespace Loom.Checking

open Templates Templates.Template

inductive TypeKind where
  | unit | int | bool | text | bytes | list | record | enum | refined | tuple | float | dyn
  | function | task | frame | metatype | rigid
  deriving DecidableEq, Repr

/-- What a type is built by, apart from its arguments. The symbol of a `dyn`
is its concept: the arguments carry the associated bindings. -/
structure Constructor where
  kind : TypeKind
  symbol : Int
  packWidths : List Nat
  deriving DecidableEq, Repr

abbrev Ty := Template Constructor

/-- Type arguments under inference: -1 in the source is `none` here. -/
abbrev Arguments := List (Option Ty)

/-- The base of a refinement, read off its declaration and arguments.
`expand_type` admits no refinement as a base. -/
structure Refinements where
  base : Constructor → List Ty → Ty
  base_structural : ∀ head arguments, ∃ kind symbol widths children,
    base head arguments = .node ⟨kind, symbol, widths⟩ children ∧ kind ≠ .refined

/-- Whether a type is a refinement. -/
def isRefined : Ty → Bool
  | .parameter _ => false
  | .node head _ => head.kind = .refined

def sameConstructor (first : Constructor) (left : List Ty) (second : Constructor)
    (right : List Ty) : Bool :=
  if first.kind ≠ second.kind ∨ left.length ≠ right.length ∨ first.packWidths ≠ second.packWidths then
    false
  else
    first.symbol = second.symbol

/-- The argument at an index, or the parameter itself where there is none. -/
def argument (arguments : Arguments) (index : Nat) : Ty :=
  (arguments.getD index none).getD (.parameter index)

/-- The type with every parameter replaced by its argument. -/
def instantiate (ty : Ty) (arguments : Arguments) : Ty :=
  substitute (argument arguments) ty

theorem sameConstructor_iff {first second : Constructor} {left right : List Ty} :
    sameConstructor first left second right = true ↔
      first = second ∧ left.length = right.length := by
  obtain ⟨kind, symbol, widths⟩ := first
  obtain ⟨kind', symbol', widths'⟩ := second
  simp only [sameConstructor]
  split <;> grind

theorem isRefined_base (env : Refinements) (head : Constructor) (arguments : List Ty) :
    isRefined (env.base head arguments) = false := by
  obtain ⟨kind, symbol, widths, children, hbase, hkind⟩ := env.base_structural head arguments
  rw [hbase]
  simpa [isRefined] using hkind

/-! ## Inference -/

mutual
/-- Match a pattern against an actual type, filling in `arguments`. -/
def infer (env : Refinements) : Ty → Ty → Arguments → Bool × Arguments
  | .parameter symbol, actual, arguments =>
      match arguments.getD symbol none with
      | some previous => (previous = actual, arguments)
      | none => (true, arguments.set symbol (some actual))
  | .node _ _, .parameter _, arguments => (false, arguments)
  | .node source parameters, .node value children, arguments =>
      if sameConstructor source parameters value children then
        inferAll env parameters children arguments
      else
        -- implicit weakening: a structural pattern is matched with the base
        if _ : value.kind = .refined ∧ source.kind ≠ .refined then
          infer env (.node source parameters) (env.base value children) arguments
        else
          (false, arguments)
termination_by pattern actual => 3 * size pattern + (if isRefined actual then 1 else 0)
decreasing_by
  · simp only [size]; omega
  · have := isRefined_base env value children
    simp_all [isRefined]

/-- The argument loop of `infer`: it goes on after a mismatch. -/
def inferAll (env : Refinements) : List Ty → List Ty → Arguments → Bool × Arguments
  | pattern :: patterns, actual :: actuals, arguments =>
      let matching := infer env pattern actual arguments
      let rest := inferAll env patterns actuals matching.2
      (matching.1 && rest.1, rest.2)
  | _, _, arguments => (true, arguments)
termination_by patterns => 3 * sizeAll patterns + 2
decreasing_by
  · simp only [sizeAll]; split <;> omega
  · have := size_pos pattern
    simp only [sizeAll]; omega
end

def complete (arguments : Arguments) : Bool :=
  arguments.all Option.isSome

/-! ## What inference decides

`Fits env values pattern ty` is the meaning of a successful inference: `ty` is
the instance of `pattern` under `values`, except that opposite a structural
pattern a refinement may stand for its base. -/

inductive Fits (env : Refinements) (values : Nat → Ty) : Ty → Ty → Prop where
  | parameter (index : Nat) : Fits env values (.parameter index) (values index)
  | node (head : Constructor) {parameters children : List Ty} :
      List.Forall₂ (Fits env values) parameters children →
      Fits env values (.node head parameters) (.node head children)
  | weaken {source value : Constructor} {parameters children : List Ty} :
      value.kind = .refined → source.kind ≠ .refined →
      Fits env values (.node source parameters) (env.base value children) →
      Fits env values (.node source parameters) (.node value children)

/-- An assignment takes the values inference has bound so far. -/
def Agrees (values : Nat → Ty) (arguments : Arguments) : Prop :=
  ∀ index ty, arguments.getD index none = some ty → values index = ty

theorem agrees_argument (arguments : Arguments) : Agrees (argument arguments) arguments := by
  intro index ty hbound
  rw [argument, hbound]; rfl

/-- The patterns inference is asked about: every parameter has its place. -/
def Scoped (pattern : Ty) (count : Nat) : Prop :=
  ∀ index ∈ parameters pattern, index < count

/-- Inference only adds bindings. -/
def Extends (before after : Arguments) : Prop :=
  after.length = before.length ∧
    ∀ index ty, before.getD index none = some ty → after.getD index none = some ty

theorem Extends.refl (arguments : Arguments) : Extends arguments arguments :=
  ⟨rfl, fun _ _ hbound => hbound⟩

theorem Extends.trans {first second third : Arguments} (left : Extends first second)
    (right : Extends second third) : Extends first third :=
  ⟨right.1.trans left.1, fun index ty hbound => right.2 index ty (left.2 index ty hbound)⟩

variable {values : Nat → Ty} {arguments : Arguments} {symbol : Nat} {env : Refinements}

theorem Agrees.of_extends {before after : Arguments} (hextends : Extends before after)
    (hagrees : Agrees values after) : Agrees values before :=
  fun index ty hbound => hagrees index ty (hextends.2 index ty hbound)

theorem getD_set_self (hlt : symbol < arguments.length) (ty : Ty) :
    (arguments.set symbol (some ty)).getD symbol none = some ty := by
  simp [hlt]

theorem getD_set_other {index : Nat} (hne : symbol ≠ index) (ty : Ty) :
    (arguments.set symbol (some ty)).getD index none = arguments.getD index none := by
  simp [List.getElem?_set_ne hne]

theorem extends_set (hfree : arguments.getD symbol none = none) (ty : Ty) :
    Extends arguments (arguments.set symbol (some ty)) := by
  refine ⟨List.length_set, ?_⟩
  intro index other hbound
  have hne : symbol ≠ index := by
    rintro rfl
    rw [hfree] at hbound
    cases hbound
  rw [getD_set_other hne, hbound]

theorem agrees_set (hagrees : Agrees values arguments) (hlt : symbol < arguments.length) :
    Agrees values (arguments.set symbol (some (values symbol))) := by
  intro index ty hbound
  by_cases hsame : symbol = index
  · subst hsame
    rw [getD_set_self hlt] at hbound; exact Option.some.inj hbound
  · rw [getD_set_other hsame] at hbound; exact hagrees index ty hbound

theorem Scoped.argument {head : Constructor} {children : List Ty} {count : Nat} {child : Ty}
    (hscoped : Scoped (.node head children) count) (hmem : child ∈ children) : Scoped child count :=
  fun index hindex => hscoped index (mem_parameters_node.mpr ⟨child, hmem, hindex⟩)

/-! ### Soundness -/

/-- What a successful inference of one pattern establishes. -/
def Sound (env : Refinements) (pattern : Ty) : Prop :=
  ∀ actual arguments after, Scoped pattern arguments.length →
    infer env pattern actual arguments = (true, after) →
    Extends arguments after ∧ ∀ values, Agrees values after → Fits env values pattern actual

theorem inferAll_sound : {patterns actuals : List Ty} →
    {arguments after : Arguments} → (∀ pattern ∈ patterns, Sound env pattern) →
    (∀ pattern ∈ patterns, Scoped pattern arguments.length) → patterns.length = actuals.length →
    inferAll env patterns actuals arguments = (true, after) → Extends arguments after ∧
      ∀ values, Agrees values after → List.Forall₂ (Fits env values) patterns actuals
  | [], [], arguments, after, _, _, _, hinfer => by
      rw [inferAll] at hinfer
      · obtain ⟨-, rfl⟩ := hinfer
        exact ⟨Extends.refl _, fun _ _ => .nil⟩
      · simp
  | pattern :: patterns, actual :: actuals, arguments, after, hsound, hscoped, hlength, hinfer => by
      obtain ⟨middle, hfirst⟩ : ∃ middle, infer env pattern actual arguments = (true, middle) := by
        rw [inferAll] at hinfer
        refine ⟨(infer env pattern actual arguments).2, ?_⟩
        refine Prod.ext ?_ rfl
        exact (Bool.and_eq_true_iff.mp (congrArg Prod.fst hinfer)).1
      have hrest : inferAll env patterns actuals middle = (true, after) := by
        rw [inferAll, hfirst] at hinfer
        refine Prod.ext ?_ (congrArg Prod.snd hinfer)
        exact congrArg Prod.fst hinfer
      obtain ⟨hextends, hfits⟩ := hsound pattern (.head _) actual arguments middle
          (hscoped pattern (.head _)) hfirst
      obtain ⟨hextends', hfits'⟩ := inferAll_sound (fun other hmem => hsound other (.tail _ hmem))
        (fun other hmem => by
          rw [hextends.1]; exact hscoped other (.tail _ hmem)) (by simpa using hlength) hrest
      refine ⟨hextends.trans hextends', fun values hagrees => ?_⟩
      exact .cons (hfits values (hagrees.of_extends hextends')) (hfits' values hagrees)

theorem infer_sound (env : Refinements) (pattern : Ty) : Sound env pattern := by
  induction pattern using inductionOn with
  | parameter symbol =>
    intro actual arguments after hscoped hinfer
    rw [infer] at hinfer
    have hlt : symbol < arguments.length := hscoped symbol (by simp)
    cases hbound : arguments.getD symbol none with
    | some previous =>
      rw [hbound] at hinfer
      obtain ⟨hsame, rfl⟩ := Prod.mk.injEq .. ▸ hinfer
      obtain rfl : previous = actual := by simpa using hsame
      refine ⟨Extends.refl _, fun values hagrees => ?_⟩
      exact hagrees symbol previous hbound ▸ Fits.parameter symbol
    | none =>
      rw [hbound] at hinfer
      obtain ⟨-, rfl⟩ := Prod.mk.injEq .. ▸ hinfer
      refine ⟨extends_set hbound actual, fun values hagrees => ?_⟩
      exact hagrees symbol actual (getD_set_self hlt actual) ▸ Fits.parameter symbol
  | node source parameters ih =>
    -- with equal constructors the arguments decide
    have hnode : ∀ value children arguments after, Scoped (.node source parameters) arguments.length →
        sameConstructor source parameters value children = true →
        infer env (.node source parameters) (.node value children) arguments = (true, after) →
        Extends arguments after ∧ ∀ values, Agrees values after →
          Fits env values (.node source parameters) (.node value children) := by
      intro value children arguments after hscoped hsame hinfer
      rw [infer, if_pos hsame] at hinfer
      obtain ⟨rfl, hlength⟩ := sameConstructor_iff.mp hsame
      obtain ⟨hextends, hfits⟩ := inferAll_sound ih
        (fun child hmem => hscoped.argument hmem) hlength hinfer
      exact ⟨hextends, fun values hagrees => .node source (hfits values hagrees)⟩
    intro actual arguments after hscoped hinfer
    cases actual with
    | parameter index => simp [infer] at hinfer
    | node value children =>
      by_cases hsame : sameConstructor source parameters value children = true
      · exact hnode value children arguments after hscoped hsame hinfer
      · rw [infer, if_neg hsame] at hinfer
        by_cases hweaken : value.kind = .refined ∧ source.kind ≠ .refined
        · rw [dif_pos hweaken] at hinfer
          -- the base is no refinement, so the constructors must agree there
          obtain ⟨kind, symbol, widths, others, hbase, hkind⟩ := env.base_structural value children
          have hsame' : sameConstructor source parameters ⟨kind, symbol, widths⟩ others = true := by
            by_contra hdiffer
            rw [hbase, infer, if_neg hdiffer, dif_neg (fun both => hkind both.1)] at hinfer
            simp at hinfer
          rw [hbase] at hinfer
          obtain ⟨hextends, hfits⟩ := hnode _ _ arguments after hscoped hsame' hinfer
          refine ⟨hextends, fun values hagrees => .weaken hweaken.1 hweaken.2 ?_⟩
          rw [hbase]; exact hfits values hagrees
        · rw [dif_neg hweaken] at hinfer; simp at hinfer

/-! ### Completeness -/

/-- What a fitting assignment guarantees of the inference of one pattern. -/
def Finds (env : Refinements) (pattern : Ty) : Prop :=
  ∀ values actual arguments, Scoped pattern arguments.length → Agrees values arguments →
    Fits env values pattern actual →
    ∃ after, infer env pattern actual arguments = (true, after) ∧ Extends arguments after ∧
      Agrees values after ∧ ∀ index ∈ parameters pattern, after.getD index none = some (values index)

theorem inferAll_complete : {patterns actuals : List Ty} → {arguments : Arguments} →
    (∀ pattern ∈ patterns, Finds env pattern) →
    (∀ pattern ∈ patterns, Scoped pattern arguments.length) → Agrees values arguments →
    List.Forall₂ (Fits env values) patterns actuals →
    ∃ after, inferAll env patterns actuals arguments = (true, after) ∧ Extends arguments after ∧
      Agrees values after ∧ ∀ pattern ∈ patterns, ∀ index ∈ parameters pattern,
        after.getD index none = some (values index)
  | [], [], arguments, _, _, hagrees, _ => by
      refine ⟨arguments, ?_, Extends.refl _, hagrees, fun pattern hmem => by cases hmem⟩
      rw [inferAll]; simp
  | pattern :: patterns, actual :: actuals, arguments, hfinds, hscoped, hagrees, hfits => by
      cases hfits with
      | cons hfirst hrest =>
        obtain ⟨middle, hinfer, hextends, hagrees', hbinds⟩ :=
          hfinds pattern (.head _) values actual arguments
            (hscoped pattern (.head _)) hagrees hfirst
        obtain ⟨after, hall, hextends', hagrees'', hbinds'⟩ := inferAll_complete
          (fun other hmem => hfinds other (.tail _ hmem)) (fun other hmem => by
            rw [hextends.1]; exact hscoped other (.tail _ hmem)) hagrees' hrest
        refine ⟨after, ?_, hextends.trans hextends', hagrees'', ?_⟩
        · rw [inferAll, hinfer, hall]; rfl
        · intro other hmem index hindex
          rcases List.mem_cons.mp hmem with rfl | hmem
          · exact hextends'.2 index _ (hbinds index hindex)
          · exact hbinds' other hmem index hindex

theorem infer_complete (env : Refinements) (pattern : Ty) : Finds env pattern := by
  induction pattern using inductionOn with
  | parameter symbol =>
    intro values actual arguments hscoped hagrees hfits
    have hlt : symbol < arguments.length := hscoped symbol (by simp)
    cases hfits
    rw [infer]
    cases hbound : arguments.getD symbol none with
    | some previous =>
      obtain rfl := hagrees symbol previous hbound
      refine ⟨arguments, by simp, Extends.refl _, hagrees, ?_⟩
      intro index hindex
      obtain rfl : index = symbol := by simpa using hindex
      exact hbound
    | none =>
      refine ⟨_, rfl, extends_set hbound _, agrees_set hagrees hlt, ?_⟩
      intro index hindex
      obtain rfl : index = symbol := by simpa using hindex
      exact getD_set_self hlt _
  | node source parameters ih =>
    have hnode : ∀ values children arguments, Scoped (.node source parameters) arguments.length →
        Agrees values arguments → List.Forall₂ (Fits env values) parameters children →
        ∃ after, infer env (.node source parameters) (.node source children) arguments =
            (true, after) ∧ Extends arguments after ∧ Agrees values after ∧
          ∀ index ∈ Template.parameters (.node source parameters),
            after.getD index none = some (values index) := by
      intro values children arguments hscoped hagrees hfits
      obtain ⟨after, hall, hextends, hagrees', hbinds⟩ := inferAll_complete ih
        (fun child hmem => hscoped.argument hmem) hagrees hfits
      refine ⟨after, ?_, hextends, hagrees', ?_⟩
      · rw [infer, if_pos (sameConstructor_iff.mpr ⟨rfl, hfits.length_eq⟩), hall]
      · intro index hindex
        obtain ⟨child, hchild, hindex⟩ := mem_parameters_node.mp hindex
        exact hbinds child hchild index hindex
    intro values actual arguments hscoped hagrees hfits
    cases hfits with
    | node _ hall => exact hnode values _ arguments hscoped hagrees hall
    | @weaken _ value _ children hvalue hsource hbase =>
      have hdiffer : ¬ sameConstructor source parameters value children = true := by
        intro hsame
        rw [(sameConstructor_iff.mp hsame).1] at hsource; exact hsource hvalue
      rw [infer, if_neg hdiffer, dif_pos ⟨hvalue, hsource⟩]
      obtain ⟨kind, symbol, widths, others, hshape, hkind⟩ := env.base_structural value children
      rw [hshape] at hbase ⊢
      cases hbase with
      | node _ hall => exact hnode values _ arguments hscoped hagrees hall
      | weaken hrefined _ _ => exact absurd hrefined hkind

/-! ## Weakening -/

mutual
/-- Whether a structural part of the pattern, other than a refinement, stands
opposite a refined part of the type. -/
def opposed : Ty → Ty → Bool
  | .node source parameters, .node value children =>
      (source.kind ≠ .refined && value.kind = .refined) || opposedAll parameters children
  | _, _ => false

def opposedAll : List Ty → List Ty → Bool
  | pattern :: patterns, actual :: actuals => opposed pattern actual || opposedAll patterns actuals
  | _, _ => false
end

theorem opposed_substitute (values : Nat → Ty) (pattern : Ty) :
    opposed pattern (substitute values pattern) = false := by
  induction pattern using inductionOn with
  | parameter index => rw [opposed]; simp
  | node source parameters ih =>
    have hall : ∀ rest : List Ty, (∀ child ∈ rest, child ∈ parameters) →
        opposedAll rest (rest.map (substitute values)) = false := by
      intro rest hrest
      induction rest with
      | nil => rw [opposedAll]; simp
      | cons first rest ihRest =>
        rw [List.map_cons, opposedAll, ih first (hrest first (.head _)),
          ihRest fun child hmem => hrest child (.tail _ hmem)]
        rfl
    rw [substitute_node, opposed, hall parameters fun _ hmem => hmem]
    cases source.kind <;> rfl

theorem fits_substitute (env : Refinements) (values : Nat → Ty) (pattern : Ty) :
    Fits env values pattern (substitute values pattern) := by
  induction pattern using inductionOn with
  | parameter index => exact Fits.parameter index
  | node head parameters ih =>
    rw [substitute_node]
    refine Fits.node head ?_
    rw [List.forall₂_map_right_iff, List.forall₂_same]; exact ih

/-- Unopposed, a pattern fits its instances only. -/
theorem Fits.exact (pattern : Ty) :
    ∀ {ty : Ty}, Fits env values pattern ty → opposed pattern ty = false →
      substitute values pattern = ty := by
  induction pattern using inductionOn with
  | parameter index =>
    intro ty hfits _
    cases hfits
    exact substitute_parameter values index
  | node source parameters ih =>
    intro ty hfits hopposed
    cases hfits with
    | weaken hvalue hsource _ => simp [opposed, hvalue, hsource] at hopposed
    | @node _ _ children hall =>
      rw [opposed, Bool.or_eq_false_iff] at hopposed
      have hmap : ∀ {rest others : List Ty}, (∀ child ∈ rest, child ∈ parameters) →
          List.Forall₂ (Fits env values) rest others → opposedAll rest others = false →
          rest.map (substitute values) = others := by
        intro rest others hrest hall
        induction hall with
        | nil => intro _; rfl
        | @cons first second rest others hfirst _ ihRest =>
          intro hnone
          rw [opposedAll, Bool.or_eq_false_iff] at hnone
          rw [List.map_cons, ih first (hrest first (.head _)) hfirst hnone.1,
            ihRest (fun child hmem => hrest child (.tail _ hmem)) hnone.2]
      rw [substitute_node, hmap (fun _ hmem => hmem) hall hopposed.2]

end Loom.Checking
