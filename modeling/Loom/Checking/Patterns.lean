import Mathlib.Algebra.Order.Ring.Int
import Mathlib.Data.List.Nodup

/-
  Checked patterns, the values they are matched against, and what a match means.

  A type is an index into the environment's table, so types may be recursive.
  Of a type only what patterns look at is kept: its scalar, its product fields
  or its variants. Fields and payloads are lists in declaration order.

  Correspondence (loom ↔ Lean):
    `typed.Type`, `TypeKind` ↔ `Shape`, `Environment`
    `types.base_type` ↔ `Environment.base`
    `patterns.CheckedPattern` ↔ `CheckedPattern` (-1 `wildcard`,
      -2 `product`, -3 `literal`)
    `pattern_literals.literal_pattern_scope` (the key of a Float) ↔ `FloatKey`
    the arms of a match, in source order ↔ `firstMatch`
-/

namespace Loom.Checking.Matching

open List

/-! ## Types and values -/

inductive Shape where
  | int | bool | text | float
  /-- a tuple or a record -/
  | product (fields : List Nat)
  | enum (variants : List (List Nat))
  | refined (base : Nat)
  /-- a type without patterns of its own: lists, functions, tasks, .. -/
  | other
  deriving DecidableEq, Repr

/-- The types of a program, and those that may hold a task. The base of a
refinement is no refinement (`expand_type`). -/
structure Environment where
  types : List Shape
  taskValue : Nat → Bool
  flat : ∀ ty base, types.getD ty .other = .refined base →
    ∀ inner, types.getD base .other ≠ .refined inner

def Environment.shape (env : Environment) (ty : Nat) : Shape :=
  env.types.getD ty .other

def Environment.base (env : Environment) (ty : Nat) : Nat :=
  match env.shape ty with
  | .refined base => base
  | _ => ty

inductive Value where
  | integer (number : Int)
  | boolean (flag : Bool)
  | text (string : String)
  | float (bits : BitVec 64)
  | product (fields : List Value)
  | variant (tag : Nat) (payload : List Value)
  | other (identity : Nat)

/-- Whether a refinement keeps a value; other types keep all of theirs. -/
def Environment.Keeps (env : Environment) (admits : Nat → Value → Prop) (ty : Nat)
    (value : Value) : Prop :=
  (∃ base, env.shape ty = .refined base) → admits ty value

mutual
/-- The values of a type, where `admits` says which values a refinement keeps. -/
def Value.Belongs (env : Environment) (admits : Nat → Value → Prop) : Value → Nat → Prop
  | .integer number, ty =>
      env.Keeps admits ty (.integer number) ∧ env.shape (env.base ty) = .int ∧
        -2 ^ 63 ≤ number ∧ number < 2 ^ 63
  | .boolean flag, ty =>
      env.Keeps admits ty (.boolean flag) ∧ env.shape (env.base ty) = .bool
  | .text string, ty =>
      env.Keeps admits ty (.text string) ∧ env.shape (env.base ty) = .text
  | .float bits, ty =>
      env.Keeps admits ty (.float bits) ∧ env.shape (env.base ty) = .float
  | .product fields, ty =>
      env.Keeps admits ty (.product fields) ∧
        ∃ types, env.shape (env.base ty) = .product types ∧
          Value.BelongAll env admits fields types
  | .variant tag payload, ty =>
      env.Keeps admits ty (.variant tag payload) ∧
        ∃ variants types, env.shape (env.base ty) = .enum variants ∧
          variants[tag]? = some types ∧ Value.BelongAll env admits payload types
  | .other identity, ty =>
      env.Keeps admits ty (.other identity) ∧ env.shape (env.base ty) = .other

def Value.BelongAll (env : Environment) (admits : Nat → Value → Prop) :
    List Value → List Nat → Prop
  | [], [] => True
  | value :: values, ty :: types =>
      Value.Belongs env admits value ty ∧ Value.BelongAll env admits values types
  | _, _ => False
end

/-- The values of a type when every refinement, at any depth, counts all the
values of its base. -/
abbrev Value.HasType (env : Environment) (value : Value) (ty : Nat) : Prop :=
  value.Belongs env (fun _ _ => True) ty

abbrev Value.HaveTypes (env : Environment) (values : List Value) (types : List Nat) : Prop :=
  Value.BelongAll env (fun _ _ => True) values types

mutual
/-- Forgetting the refinements keeps every value. -/
theorem Value.Belongs.hasType {env : Environment} {admits : Nat → Value → Prop} :
    ∀ {value : Value} {ty : Nat}, value.Belongs env admits ty → value.HasType env ty
  | .integer _, _, ⟨_, h⟩ => ⟨fun _ => trivial, h⟩
  | .boolean _, _, ⟨_, h⟩ => ⟨fun _ => trivial, h⟩
  | .text _, _, ⟨_, h⟩ => ⟨fun _ => trivial, h⟩
  | .float _, _, ⟨_, h⟩ => ⟨fun _ => trivial, h⟩
  | .product _, _, ⟨_, types, hshape, h⟩ => ⟨fun _ => trivial, types, hshape, h.haveTypes⟩
  | .variant _ _, _, ⟨_, variants, types, hshape, htag, h⟩ =>
      ⟨fun _ => trivial, variants, types, hshape, htag, h.haveTypes⟩
  | .other _, _, ⟨_, h⟩ => ⟨fun _ => trivial, h⟩

theorem Value.BelongAll.haveTypes {env : Environment} {admits : Nat → Value → Prop} :
    ∀ {values : List Value} {types : List Nat},
      Value.BelongAll env admits values types → Value.HaveTypes env values types
  | [], [], _ => trivial
  | _ :: _, _ :: _, ⟨hvalue, hvalues⟩ => ⟨hvalue.hasType, hvalues.haveTypes⟩
end

section Types

variable {env : Environment}

theorem Value.HaveTypes.length_eq : ∀ {values : List Value} {types : List Nat},
    Value.HaveTypes env values types → values.length = types.length
  | [], [], _ => rfl
  | _ :: _, _ :: _, ⟨_, h⟩ => congrArg (· + 1) (Value.HaveTypes.length_eq h)

theorem Value.exists_haveTypes (inhabited : ∀ ty, ∃ value : Value, value.HasType env ty) :
    ∀ types : List Nat, ∃ values, Value.HaveTypes env values types
  | [] => ⟨[], trivial⟩
  | ty :: types => by
      obtain ⟨value, hvalue⟩ := inhabited ty
      obtain ⟨values, hvalues⟩ := Value.exists_haveTypes inhabited types
      exact ⟨value :: values, hvalue, hvalues⟩

theorem Value.HaveTypes.append : ∀ {left right : List Value} {first second : List Nat},
    Value.HaveTypes env left first → Value.HaveTypes env right second →
      Value.HaveTypes env (left ++ right) (first ++ second)
  | [], _, [], _, _, h => h
  | _ :: _, _, _ :: _, _, ⟨hvalue, hleft⟩, h => ⟨hvalue, Value.HaveTypes.append hleft h⟩

theorem Value.HaveTypes.split : ∀ {first second : List Nat} {values : List Value},
    Value.HaveTypes env values (first ++ second) → ∃ left right, values = left ++ right ∧
        Value.HaveTypes env left first ∧ Value.HaveTypes env right second
  | [], _, values, h => ⟨[], values, rfl, trivial, h⟩
  | _ :: _, _, _ :: _, ⟨hvalue, h⟩ => by
      obtain ⟨left, right, rfl, hleft, hright⟩ := Value.HaveTypes.split h
      exact ⟨_ :: left, right, rfl, ⟨hvalue, hleft⟩, hright⟩

variable {ty : Nat}

theorem Value.HasType.product {value : Value} {types : List Nat} (h : value.HasType env ty)
    (hshape : env.shape (env.base ty) = .product types) :
    ∃ fields, value = .product fields ∧ Value.HaveTypes env fields types := by
  cases value <;> simp only [Value.Belongs] at h <;> grind

theorem Value.HasType.enum {value : Value} {variants : List (List Nat)} (h : value.HasType env ty)
    (hshape : env.shape (env.base ty) = .enum variants) :
    ∃ tag types payload, value = .variant tag payload ∧ variants[tag]? = some types ∧
      Value.HaveTypes env payload types := by
  cases value <;> simp only [Value.Belongs] at h <;> grind

theorem Value.HasType.bool {value : Value} (h : value.HasType env ty)
    (hshape : env.shape (env.base ty) = .bool) : ∃ flag, value = .boolean flag := by
  cases value <;> simp only [Value.Belongs] at h <;> grind

end Types

/-! ## Literals -/

def isNaN (bits : BitVec 64) : Bool :=
  bits.extractLsb' 52 11 = BitVec.allOnes 11 ∧ bits.extractLsb' 0 52 ≠ 0

def isZero (bits : BitVec 64) : Bool :=
  bits.extractLsb' 0 63 = 0

/-- `==` on binary64. -/
def floatEqual (left right : BitVec 64) : Bool :=
  !isNaN left && !isNaN right && (left == right || (isZero left && isZero right))

/-- The key of a Float pattern stands for one value of `==`: no NaN, and one of
the two zeros. Its text is the shortest spelling of that value. -/
structure FloatKey where
  bits : BitVec 64
  number : isNaN bits = false
  canonical : isZero bits = true → bits = 0
  deriving DecidableEq

/-- The key of a literal pattern. `literal_pattern_scope` writes the key of an
Int from its value, so that keys are equal exactly when the values are. -/
inductive Literal where
  | integer (number : Int)
  | boolean (flag : Bool)
  | text (string : String)
  | float (key : FloatKey)
  deriving DecidableEq

/-- `value == literal`, as the decision tests it. -/
def Literal.equals : Literal → Value → Bool
  | .integer number, .integer other => number = other
  | .boolean flag, .boolean other => flag = other
  | .text string, .text other => string = other
  | .float key, .float bits => floatEqual bits key.bits
  | _, _ => false

/-- Literals of a scalar type. -/
def Literal.Fits (shape : Shape) : Literal → Prop
  | .integer number => shape = .int ∧ -2 ^ 63 ≤ number ∧ number < 2 ^ 63
  | .boolean _ => shape = .bool
  | .text _ => shape = .text
  | .float _ => shape = .float

def Literal.value : Literal → Value
  | .integer number => .integer number
  | .boolean flag => .boolean flag
  | .text string => .text string
  | .float key => .float key.bits

theorem Literal.equals_value (literal : Literal) : literal.equals literal.value = true := by
  cases literal with
  | integer number => simp [Literal.equals, Literal.value]
  | boolean flag => simp [Literal.equals, Literal.value]
  | text string => simp [Literal.equals, Literal.value]
  | float key => simp [Literal.equals, Literal.value, floatEqual, key.number]

theorem Literal.value_hasType {env : Environment} {ty : Nat} {literal : Literal}
    (h : literal.Fits (env.shape (env.base ty))) : literal.value.HasType env ty := by
  cases literal with
  | integer number => exact ⟨fun _ => trivial, h⟩
  | boolean flag => exact ⟨fun _ => trivial, h⟩
  | text string => exact ⟨fun _ => trivial, h⟩
  | float key => exact ⟨fun _ => trivial, h⟩

theorem Literal.equals_unique {left right : Literal} {value : Value}
    (hleft : left.equals value = true) (hright : right.equals value = true) : left = right := by
  cases value <;> cases left <;> cases right <;>
    simp_all only [Literal.equals, decide_eq_true_eq, Bool.false_eq_true]
  rename_i bits first second
  obtain ⟨first, hfirst, hzero⟩ := first
  obtain ⟨second, hsecond, hzero'⟩ := second
  simp only [floatEqual, Bool.and_eq_true, Bool.or_eq_true, beq_iff_eq] at hleft hright
  have : first = second := by
    obtain ⟨-, rfl | ⟨hbits, hl⟩⟩ := hleft
    · obtain ⟨-, rfl | ⟨hbits, hr⟩⟩ := hright
      · rfl
      · rw [hzero hbits, hzero' hr]
    · obtain ⟨-, rfl | ⟨-, hr⟩⟩ := hright
      · rw [hzero hl, hzero' hbits]
      · rw [hzero hl, hzero' hr]
  subst this; rfl

/-! ## Patterns -/

inductive CheckedPattern where
  /-- a wildcard, or a binding of the whole value -/
  | wildcard (name : Option Nat)
  | literal (key : Literal)
  | product (children : List CheckedPattern)
  | variant (tag : Nat) (children : List CheckedPattern)

namespace CheckedPattern

/-- What a wildcard or binding binds a value to. -/
def own (name : Option Nat) (value : Value) : List (Nat × Value) :=
  match name with
  | some name => [(name, value)]
  | none => []

mutual
/-- The bindings of a pattern that matches the value. -/
def bind : CheckedPattern → Value → Option (List (Nat × Value))
  | .wildcard name, value => some (own name value)
  | .literal key, value => if key.equals value then some [] else none
  | .product children, .product fields => bindAll children fields
  | .variant tag children, .variant other payload =>
      if tag = other then bindAll children payload else none
  | _, _ => none

def bindAll : List CheckedPattern → List Value → Option (List (Nat × Value))
  | [], [] => some []
  | pattern :: patterns, value :: values =>
      match bind pattern value, bindAll patterns values with
      | some left, some right => some (left ++ right)
      | _, _ => none
  | _, _ => none
end

mutual
/-- The pattern has been checked against the type. -/
def Fits (env : Environment) : CheckedPattern → Nat → Prop
  | .wildcard _, _ => True
  | .literal key, ty => key.Fits (env.shape (env.base ty))
  | .product children, ty =>
      ∃ types, env.shape (env.base ty) = .product types ∧ FitAll env children types
  | .variant tag children, ty =>
      ∃ variants types, env.shape (env.base ty) = .enum variants ∧ variants[tag]? = some types ∧
        FitAll env children types

def FitAll (env : Environment) : List CheckedPattern → List Nat → Prop
  | [], [] => True
  | pattern :: patterns, ty :: types => Fits env pattern ty ∧ FitAll env patterns types
  | _, _ => False
end

mutual
/-- The locals a pattern binds. `pattern_scope` allocates a new one for each. -/
def names : CheckedPattern → List Nat
  | .wildcard (some name) => [name]
  | .wildcard none => []
  | .literal _ => []
  | .product children => namesAll children
  | .variant _ children => namesAll children

def namesAll : List CheckedPattern → List Nat
  | [] => []
  | pattern :: patterns => names pattern ++ namesAll patterns
end

/-! ### Lists of patterns against lists of values -/

variable {env : Environment}

theorem FitAll.length_eq : ∀ {patterns : List CheckedPattern}
    {types : List Nat}, FitAll env patterns types → patterns.length = types.length
  | [], [], _ => rfl
  | _ :: _, _ :: _, ⟨_, h⟩ => congrArg (· + 1) (FitAll.length_eq h)

theorem FitAll.append : ∀ {left right : List CheckedPattern}
    {first second : List Nat}, FitAll env left first → FitAll env right second →
      FitAll env (left ++ right) (first ++ second)
  | [], _, [], _, _, h => h
  | _ :: _, _, _ :: _, _, ⟨hpattern, hleft⟩, h => ⟨hpattern, FitAll.append hleft h⟩

theorem FitAll.split : ∀ {first second : List Nat}
    {patterns : List CheckedPattern}, FitAll env patterns (first ++ second) →
      ∃ left right, patterns = left ++ right ∧ FitAll env left first ∧ FitAll env right second
  | [], _, patterns, h => ⟨[], patterns, rfl, trivial, h⟩
  | _ :: _, _, _ :: _, ⟨hpattern, h⟩ => by
      obtain ⟨left, right, rfl, hleft, hright⟩ := FitAll.split h
      exact ⟨_ :: left, right, rfl, ⟨hpattern, hleft⟩, hright⟩

theorem bindAll_append : ∀ {left : List CheckedPattern} {first : List Value}
    (right : List CheckedPattern) (second : List Value), left.length = first.length →
      bindAll (left ++ right) (first ++ second) =
        match bindAll left first, bindAll right second with
        | some one, some two => some (one ++ two)
        | _, _ => none
  | [], [], right, second, _ => by
      simp only [nil_append]
      cases bindAll right second <;> rfl
  | pattern :: left, value :: first, right, second, h => by
      have ih := bindAll_append right second (Nat.succ.inj h)
      simp only [cons_append, bindAll, ih]
      cases bind pattern value <;> cases bindAll left first <;> cases bindAll right second <;>
        simp

theorem namesAll_append (left right : List CheckedPattern) :
    namesAll (left ++ right) = namesAll left ++ namesAll right := by
  induction left with
  | nil => rfl
  | cons pattern left ih => simp [namesAll, ih]

theorem bindAll_replicate : ∀ values : List Value,
    bindAll (replicate values.length (.wildcard none)) values = some []
  | [] => rfl
  | value :: values => by
      simp [replicate, bindAll, bind, own, bindAll_replicate values]

theorem fitAll_replicate (env : Environment) : ∀ types : List Nat,
    FitAll env (replicate types.length (.wildcard none)) types
  | [] => trivial
  | _ :: types => ⟨trivial, fitAll_replicate env types⟩

theorem namesAll_replicate (count : Nat) :
    namesAll (replicate count (.wildcard none)) = [] := by
  induction count with
  | zero => rfl
  | succ count ih => simp [replicate, namesAll, names, ih]

mutual
theorem bind_names : ∀ {pattern : CheckedPattern} {value : Value}
    {bound : List (Nat × Value)}, bind pattern value = some bound →
      bound.map Prod.fst = names pattern
  | .wildcard (some name), value, _, h => by cases h; rfl
  | .wildcard none, value, _, h => by cases h; rfl
  | .literal key, value, bound, h => by
      simp only [bind, Option.ite_none_right_eq_some] at h
      cases h.2
      rfl
  | .product children, .product fields, _, h => bindAll_names (by simpa only [bind] using h)
  | .variant tag children, .variant other payload, bound, h => by
      simp only [bind, Option.ite_none_right_eq_some] at h
      exact bindAll_names h.2

theorem bindAll_names : ∀ {patterns : List CheckedPattern} {values : List Value}
    {bound : List (Nat × Value)}, bindAll patterns values = some bound →
      bound.map Prod.fst = namesAll patterns
  | [], [], _, h => by cases h; rfl
  | pattern :: patterns, value :: values, bound, h => by
      simp only [bindAll] at h
      split at h
      · rename_i left right hleft hright
        cases h
        rw [map_append, bind_names hleft, bindAll_names hright]; rfl
      · cases h
end

end CheckedPattern

/-! ## What a match means -/

/-- An arm after its own check: its pattern, and whether a guard follows.
The guard is kept as a tree of its nodes, for the walk of `guard_view`; what it
computes is a parameter of every run, as the bodies are. -/
inductive Guard where
  | node (children : List Guard)

structure Arm where
  pattern : CheckedPattern
  guard : Option Guard

/-- What the locals of an arm hold. -/
abbrev Locals := Nat → Option Value

/-- The locals a list of bindings describes. -/
def reading (bound : List (Nat × Value)) : Locals := fun name => bound.lookup name

section Meaning

variable {m : Type → Type} [Monad m] {β : Type}

/-- The first arm in source order whose pattern matches and whose guard
succeeds runs its body, with its bindings. Arms are numbered from `index`. -/
def firstMatch (guard : Nat → Locals → m Bool) (body : Nat → Locals → m β) (unmatched : m β)
    (value : Value) : Nat → List Arm → m β
  | _, [] => unmatched
  | index, arm :: arms =>
      match arm.pattern.bind value with
      | none => firstMatch guard body unmatched value (index + 1) arms
      | some bound =>
          match arm.guard with
          | none => body index (reading bound)
          | some _ => do
              if ← guard index (reading bound) then
                body index (reading bound)
              else
                firstMatch guard body unmatched value (index + 1) arms

end Meaning

/-- The arm a match selects when the guards have these outcomes. -/
def chosen (outcome : Nat → Bool) (arms : List Arm) (value : Value) : Option Nat :=
  firstMatch (m := Id) (fun index _ => outcome index) (fun index _ => some index) none value 0 arms

/-- Some outcome of the guards lets the value reach the arm. -/
def Reaches (arms : List Arm) (value : Value) (index : Nat) : Prop :=
  ∃ outcome, chosen outcome arms value = some index

/-- An arm without a guard matches the value. -/
def Matched (arms : List Arm) (value : Value) : Prop :=
  ∃ arm ∈ arms, arm.guard = none ∧ (arm.pattern.bind value).isSome

end Loom.Checking.Matching
