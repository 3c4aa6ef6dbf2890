import Loom.Checking.TypeIndex
import Loom.Library.Colours
import Loom.Library.Results
import Loom.Library.Threaded

/-
  Data that is stored by value.

  A record, an enum and a tuple hold their parts in place; a refined type is laid out as its
  base. A list, a task, a function or a frame is behind a pointer. A type that holds itself
  by value would be infinite, so the checker searches the table of types for such a cycle
  before it hands the table on.

  Correspondence (loom ↔ Lean), where names differ:
    `typed.Type`, `Field`, `Variant` ↔ `Entry`, `Field`, `Variant`
    `types.intern`, `append_structural_type` ↔ `intern`, `structural`
    `types.resolve_bound` ↔ `resolve`, one level `resolveNode`
    `types.data_type_grouped` ↔ `dataType`
    `types.expand_type`, its loop ↔ `expandType`, `expandMembers`
    the first loop of `core.prepare` ↔ `prepare`
    `types.layout`, its loops ↔ `layout`, `layoutAll`, `layoutVariants`
    `types.layouts` ↔ `layouts`, `checkLayouts`
  A lookup searches the table (`Interning.run_linear`: the index answers the same). Left out
  of `resolve` are packs, associated types, dyn types, `Self` and generated references, and
  of `expandType` requirements and predicates: they extend the table by the same steps, and
  `Built` is about every run of those. `validate_data_packs` is a parameter of `layouts`
  for the same reason. The argument `left` counts how often the depth may still grow: it is
  65 - `depth`.
-/

namespace Loom.Layouts

open Interning (Kind NodeKind)
open Colours List
open Relation

/-! ## Types -/

structure Field where
  name : String
  ty : Nat
  deriving DecidableEq

structure Variant where
  name : String
  fields : List Nat
  deriving DecidableEq

/-- What a type is looked up by. -/
structure Shape where
  kind : Kind
  symbol : Int
  arguments : List Nat
  deriving DecidableEq

structure Entry extends Shape where
  fields : List Field
  variants : List Variant
  deriving DecidableEq

inductive Stop where
  | fault
  | failure (owner : Int) (message : String)
  deriving DecidableEq

structure Environment where
  types : List Entry
  /-- `type_states`: the phase of every type -/
  phases : List Nat
  expandData : Bool
  deriving DecidableEq

abbrev Build := Threaded Environment Stop

/-- The syntax of a type. -/
inductive Node where
  | type (value : String) (children : List Node)
  | tuple (children : List Node)
  | function (parameters : List Node) (output : Option Node)

inductive Member where
  | field (name : String) (type : Node)
  | variant (name : String) (types : List Node)

structure Declaration where
  kind : NodeKind
  name : String
  parameters : List String
  members : List Member
  /-- the type a refinement is of -/
  base : Node

def Declaration.typeKind (item : Declaration) : Kind :=
  if item.kind = .record then .record else if item.kind = .enum then .enum else .refined

/-! ## Building the table -/

def entry (id : Nat) : Build Entry := do
  match (← get).types[id]? with
  | some ty => return ty
  | none => throw .fault

/-- `return Result.Err(..)` under a condition -/
def refuse (condition : Bool) (stop : Stop) : Build Unit :=
  if condition then throw stop else return ()

def setEntry (id : Nat) (ty : Entry) : Build Unit :=
  modify fun env => { env with types := env.types.set id ty }

def setPhase (id phase : Nat) : Build Unit :=
  modify fun env => { env with phases := env.phases.set id phase }

/-- A tuple stores its arguments under their numbers. -/
def structural (kind : Kind) (symbol : Int) (arguments : List Nat) : Entry :=
  { kind := kind
    symbol := symbol
    arguments := arguments
    fields := if kind = .tuple then arguments.mapIdx fun index ty => ⟨toString index, ty⟩ else []
    variants := [] }

/-- `push(env.types, ty)` with its phase; the answer is the number of the new type. -/
def append (ty : Entry) (phase : Nat) : Build Nat := do
  let env ← get
  set { env with types := env.types ++ [ty], phases := env.phases ++ [phase] }
  return env.types.length

def intern (kind : Kind) (symbol : Int) (arguments : List Nat) : Build Nat := do
  let env ← get
  match env.types.findIdx? fun shape => shape.toShape = ⟨kind, symbol, arguments⟩ with
  | some ty => return ty
  | none => append (structural kind symbol arguments) 2

/-- How deep the arguments of a type are nested, up to 64. -/
def typeDepth (types : List Entry) : Nat → Nat → Nat
  | 0, _ => 64
  | left + 1, ty =>
    match types[ty]? with
    | none => 0
    | some source =>
      if source.kind = .parameter ∨ source.kind = .rigid ∨ ty ≤ 5 then 0
      else min 64 ((source.arguments.map (typeDepth types left)).foldl max 0 + 1)

/-- What is refused of arguments that are nested too deep already. -/
def checkDepth (owner : Int) (arguments : List Nat) : Build Unit := do
  let env ← get
  refuse (arguments.any fun argument => 64 ≤ typeDepth env.types 65 argument)
    (.failure owner "type specialization depth exceeded; expansion must be finite")

def tupleType (owner : Int) (elements : List Nat) : Build Nat := do
  checkDepth owner elements
  intern .tuple (-1) elements

def typeConstant (owner : Int) (value : String) : Build (Option Nat) :=
  if value = "Int" then return some 1
  else if value = "Bool" then return some 2
  else if value = "Text" then return some 3
  else if value = "Bytes" then return some 4
  else if value = "Float" then return some 5
  else if value = "type" then some <$> intern .metatype (-1) []
  else if value = "Unit" then throw (.failure owner "omit Unit; it is not a source type")
  else return none

def declarationOf (program : List Declaration) (owner : Int) : Build Declaration :=
  match program[owner.toNat]? with
  | some item => return item
  | none => throw .fault

/-- A parameter of the owner hides a constant; the last one of a name counts. -/
def typeParameter (parameters : List String) (arguments : List Nat) (value : String)
    (builtin : Option Nat) : Option Nat :=
  (parameters.zip arguments).foldl
    (fun found (name, argument) => if value = name then some argument else found) builtin

def findData (program : List Declaration) (owner : Int) (value : String) : Build Nat :=
  match (range program.length).filter fun index =>
      (program[index]?.map Declaration.name) = some value with
  | [] => throw (.failure owner "unknown or inaccessible type")
  | [selected] => return selected
  | _ => throw (.failure owner "ambiguous type; qualify its name")

/-- What a resolver takes: the owner, its arguments, and the syntax of a type. -/
abbrev Resolver := Int → List Nat → Node → Build Nat

def resolveAll (resolve : Node → Build Nat) : List Node → Build (List Nat)
  | [] => return []
  | node :: rest => do
    let id ← resolve node
    let ids ← resolveAll resolve rest
    return id :: ids

/-- The loop of `expandType` over the members of a declaration. -/
def expandMembers (resolve : Node → Build Nat) :
    List Member → List Field → List Variant → Build (List Field × List Variant)
  | [], fields, variants => return (fields, variants)
  | .field name type :: rest, fields, variants => do
    let ty ← resolve type
    expandMembers resolve rest (fields ++ [⟨name, ty⟩]) variants
  | .variant name types :: rest, fields, variants => do
    let payload ← resolveAll resolve types
    expandMembers resolve rest fields (variants ++ [⟨name, payload⟩])

def refinable (base : Nat) (kind : Kind) : Bool :=
  base = 1 || base = 2 || base = 3 || base = 4 || base = 5 ||
    kind = .record || kind = .tuple || kind = .enum || kind = .list

/-- The base of a refined type, as its only field. -/
def expandBase (resolve : Node → Build Nat) (shape : Entry) (base : Node) :
    Build (List Field) :=
  if shape.kind = .refined then do
    let ty ← resolve base
    let below ← entry ty
    refuse (!refinable ty below.kind) (.failure shape.symbol
      "constraints require Int, Bool, Float, Text, Bytes, a record, a tuple, an enum or a List base")
    return [⟨"self", ty⟩]
  else return []

def expandType (program : List Declaration) (resolve : Resolver) (id : Nat) : Build Unit := do
  setPhase id 1
  let shape ← entry id
  let item ← declarationOf program shape.symbol
  let (fields, variants) ←
    expandMembers (resolve shape.symbol shape.arguments) item.members [] []
  let base ← expandBase (resolve shape.symbol shape.arguments) shape item.base
  setEntry id { shape with fields := fields ++ base, variants := variants }
  setPhase id 2

def expandWhen (condition : Bool) (expand : Nat → Build Unit) (id : Nat) : Build Unit :=
  if condition then expand id else return ()

def dataType (program : List Declaration) (left : Nat) (expand : Nat → Build Unit)
    (declaration : Nat) (arguments : List Nat) : Build Nat := do
  let item ← declarationOf program declaration
  refuse (arguments.length ≠ item.parameters.length)
    (.failure declaration "wrong number of type arguments")
  checkDepth declaration arguments
  let env ← get
  match env.types.findIdx? fun existing => existing.symbol = (declaration : Int) &&
      existing.kind.nominal && existing.arguments = arguments with
  | some id =>
    expandWhen (env.expandData && env.phases[id]? = some 0) expand id
    return id
  | none =>
    refuse (left = 0)
      (.failure declaration "type specialization depth exceeded; expansion must be finite")
    let id ← append { kind := item.typeKind, symbol := declaration, arguments := arguments
                      fields := [], variants := [] } 0
    expandWhen env.expandData expand id
    return id

/-- A function without a result answers `Unit`. -/
def resolveOutput (resolve : Node → Build Nat) : Option Node → Build Nat
  | none => return 0
  | some node => resolve node

/-- One level of `resolve`, with what it resolves arguments by and expands types by. -/
def resolveNode (program : List Declaration) (left : Nat) (resolve : Resolver)
    (expand : Nat → Build Unit) : Resolver := fun owner arguments node =>
  match node with
  | .function parameters output => do
    let shape ← resolveAll (resolve owner arguments) parameters
    let result ← resolveOutput (resolve owner arguments) output
    intern .function (-1) (shape ++ [result])
  | .tuple children => do
    let elements ← resolveAll (resolve owner arguments) children
    tupleType owner elements
  | .type value children => do
    let constant ← typeConstant owner value
    let item ← declarationOf program owner
    match typeParameter item.parameters arguments value constant with
    | some builtin =>
      refuse (!children.isEmpty) (.failure owner "this type takes no arguments")
      return builtin
    | none =>
      if value = "Task" then
        let args ← resolveAll (resolve owner arguments) children
        refuse (args.length ≠ 1) (.failure owner "Task needs one result type argument")
        intern .task (-1) args
      else if value = "List" then
        let args ← resolveAll (resolve owner arguments) children
        refuse (args.length ≠ 1) (.failure owner "List requires one element type")
        intern .list (-1) args
      else
        let declaration ← findData program owner value
        let args ← resolveAll (resolve owner arguments) children
        dataType program left expand declaration args

def tooDeep (owner : Int) : Stop := .failure owner "type specialization depth exceeded"

def resolve (program : List Declaration) : Nat → Resolver
  | 0 => fun owner _ _ => throw (tooDeep owner)
  | 1 => resolveNode program 0 (fun owner _ _ => throw (tooDeep owner)) fun id => do
    let shape ← entry id
    throw (tooDeep shape.symbol)
  | left + 2 =>
    resolveNode program (left + 1) (resolve program (left + 1))
      (expandType program (resolve program left))

def initializeTypes : Build Unit := do
  discard (intern .unit (-1) [])
  discard (intern .int (-1) [])
  discard (intern .bool (-1) [])
  discard (intern .text (-1) [])
  discard (intern .bytes (-1) [])
  discard (intern .float (-1) [])

def abstractArguments : Nat → Build (List Nat)
  | 0 => return []
  | count + 1 => do
    let arguments ← abstractArguments count
    let argument ← intern .parameter count []
    return arguments ++ [argument]

/-- The loop of `prepare` over the declarations from an index on. -/
def declareFrom (program : List Declaration) (index : Nat) : List Declaration → Build Unit
  | [] => return ()
  | item :: rest => do
    let arguments ← abstractArguments item.parameters.length
    discard (dataType program 65 (expandType program (resolve program 64)) index arguments)
    declareFrom program (index + 1) rest

def prepare (program : List Declaration) : Build Unit := do
  initializeTypes
  declareFrom program 0 program

def start : Environment := { types := [], phases := [], expandData := true }

/-! ## The search -/

/-- The kinds that `layout` enters. -/
def Entry.enters (ty : Entry) : Bool :=
  ty.kind = .record || ty.kind = .enum || ty.kind = .tuple

/-- The loop over the fields, or over those of one variant. -/
def layoutAll (layout : Nat → (Nat → Colour) → Except Stop (Nat → Colour)) :
    List Nat → (Nat → Colour) → Except Stop (Nat → Colour)
  | [], states => .ok states
  | ty :: rest, states => do
    let states ← layout ty states
    layoutAll layout rest states

def layoutVariants (layout : Nat → (Nat → Colour) → Except Stop (Nat → Colour)) :
    List Variant → (Nat → Colour) → Except Stop (Nat → Colour)
  | [], states => .ok states
  | variant :: rest, states => do
    let states ← layoutAll layout variant.fields states
    layoutVariants layout rest states

/-- The states are 0, 1 and 2 in the code: unseen, active and done. -/
def layout (types : List Entry) : Nat → Int → Nat → (Nat → Colour) → Except Stop (Nat → Colour)
  | 0, _, _, _ => .error .fault
  | fuel + 1, owner, id, states =>
    match types[id]? with
    | none => .error .fault
    | some ty =>
      if !ty.enters then .ok states
      else
        let declaration := if 0 ≤ ty.symbol then ty.symbol else owner
        match states id with
        | .done => .ok states
        | .active =>
          .error (.failure declaration "recursive by-value data layout needs a List boundary")
        | .unseen => do
          let states ← layoutAll (layout types fuel declaration) (ty.fields.map Field.ty)
            (paint states id .active)
          let states ← layoutVariants (layout types fuel declaration) ty.variants states
          return paint states id .done

/-- The loop of `layouts`, which enters at the nominal declarations. -/
def layoutRoots (types : List Entry) :
    List Nat → (Nat → Colour) → Except Stop (Nat → Colour)
  | [], states => .ok states
  | index :: rest, states =>
    match types[index]? with
    | none => .error .fault
    | some ty =>
      if ty.kind = .record ∨ ty.kind = .enum then do
        let states ← layout types (types.length + 1) ty.symbol index states
        layoutRoots types rest states
      else layoutRoots types rest states

/-- What `layouts` does once the packs are validated. -/
def checkLayouts (types : List Entry) : Except Stop (Nat → Colour) :=
  layoutRoots types (range types.length) fun _ => .unseen

/-- `packs` validates the data packs. It may extend the table, also where it fails. -/
def layouts (packs : Environment → Except Stop Unit × Environment) (env : Environment) :
    Except Stop Unit × Environment :=
  match packs env with
  | (.error stop, env) => (.error stop, env)
  | (.ok (), env) =>
    (discard (checkLayouts env.types), env)

/-! ## How the table grows -/

/-- The types a type stores. -/
def Entry.stored (ty : Entry) : List Nat :=
  ty.fields.map Field.ty ++ ty.variants.flatMap Variant.fields

/-- One change of the table: a structural type, a nominal one without its parts, or the
parts of a nominal type. -/
inductive Step (types : List Entry) : List Entry → Prop
  | intern {kind : Kind} {symbol : Int} {arguments : List Nat} (hkind : kind.nominal = false)
      (harguments : ∀ argument ∈ arguments, argument < types.length) :
      Step types (types ++ [structural kind symbol arguments])
  | declare {shape : Shape} (hkind : shape.kind.nominal = true)
      (harguments : ∀ argument ∈ shape.arguments, argument < types.length) :
      Step types (types ++ [{ shape with fields := [], variants := [] }])
  | expand {id : Nat} {old new : Entry} (hid : types[id]? = some old)
      (hkind : old.kind.nominal = true) (hsame : new.toShape = old.toShape)
      (hstored : ∀ part ∈ new.stored, part < types.length) : Step types (types.set id new)

def Steps : List Entry → List Entry → Prop := ReflTransGen Step

/-- A table that expansion can leave. -/
def Built (types : List Entry) : Prop := Steps [] types

/-- What a search of the table relies on. -/
structure Laid (types : List Entry) : Prop where
  arguments : ∀ ty ∈ types, ∀ argument ∈ ty.arguments, argument < types.length
  stored : ∀ ty ∈ types, ∀ part ∈ ty.stored, part < types.length
  tuple : ∀ (id : Nat) (ty : Entry), types[id]? = some ty → ty.kind = .tuple → ∀ part ∈ ty.stored, part < id

theorem structural_stored (kind : Kind) (symbol : Int) (arguments : List Nat) :
    (structural kind symbol arguments).stored = if kind = .tuple then arguments else [] := by
  unfold structural Entry.stored
  split
  · apply ext_getElem?
    intro index
    cases harguments : arguments[index]? with
    | none => simp [harguments]
    | some argument => simp [harguments]
  · rfl

variable {ty : Entry} {types next : List Entry} {env after : Environment}

theorem Laid.append (h : Laid types)
    (harguments : ∀ argument ∈ ty.arguments, argument < types.length)
    (hstored : ∀ part ∈ ty.stored, part < types.length) : Laid (types ++ [ty]) := by
  have hlength : (types ++ [ty]).length = types.length + 1 := length_append
  refine ⟨?_, ?_, ?_⟩
  · intro other hother argument hargument
    rw [hlength]
    obtain hother | hother := mem_append.mp hother
    · exact Nat.lt_succ_of_lt (h.arguments other hother argument hargument)
    · rw [mem_singleton.mp hother] at hargument
      exact Nat.lt_succ_of_lt (harguments argument hargument)
  · intro other hother part hpart
    rw [hlength]
    obtain hother | hother := mem_append.mp hother
    · exact Nat.lt_succ_of_lt (h.stored other hother part hpart)
    · rw [mem_singleton.mp hother] at hpart
      exact Nat.lt_succ_of_lt (hstored part hpart)
  · intro id other hid hkind part hpart
    by_cases hlt : id < types.length
    · rw [getElem?_append_left hlt] at hid
      exact h.tuple id other hid hkind part hpart
    · -- the new entry is the last one, so what it stores comes before it
      rw [getElem?_append_right (not_lt.mp hlt), getElem?_singleton] at hid
      split at hid
      · cases hid
        exact lt_of_lt_of_le (hstored part hpart) (not_lt.mp hlt)
      · cases hid

theorem Laid.step (h : Laid types) (hstep : Step types next) : Laid next := by
  cases hstep with
  | @intern kind symbol arguments _ harguments =>
    refine h.append harguments ?_
    rw [structural_stored]
    split
    · exact harguments
    · exact nofun
  | @declare shape _ harguments => exact h.append harguments nofun
  | @expand id old new hid hkind hsame hstored =>
    refine ⟨?_, ?_, ?_⟩
    · intro ty hty argument hargument
      rw [length_set]
      obtain hty | rfl := mem_or_eq_of_mem_set hty
      · exact h.arguments ty hty argument hargument
      · rw [hsame] at hargument
        exact h.arguments old (mem_of_getElem? hid) argument hargument
    · intro ty hty part hpart
      rw [length_set]
      obtain hty | rfl := mem_or_eq_of_mem_set hty
      · exact h.stored ty hty part hpart
      · exact hstored part hpart
    · intro other ty hother htuple part hpart
      rw [getElem?_set] at hother
      split at hother
      case isFalse => exact h.tuple other ty hother htuple part hpart
      -- a nominal type is no tuple
      case isTrue =>
        split at hother
        · cases hother
          rw [hsame] at htuple
          rw [htuple] at hkind; exact absurd hkind (by decide)
        · cases hother

theorem laid_nil : Laid [] := ⟨nofun, nofun, nofun⟩

theorem Laid.steps (h : Laid types) (hsteps : Steps types next) : Laid next := by
  induction hsteps with
  | refl => exact h
  | tail _ hstep ih => exact ih.step hstep

theorem Built.laid (h : Built types) : Laid types := laid_nil.steps h

theorem Step.shape (h : Step types next) {id : Nat} (hid : types[id]? = some ty) :
    ∃ new, next[id]? = some new ∧ new.toShape = ty.toShape := by
  have hlt : id < types.length := (List.getElem?_eq_some_iff.mp hid).1
  cases h with
  | intern => exact ⟨ty, by rw [getElem?_append_left hlt, hid], rfl⟩
  | declare => exact ⟨ty, by rw [getElem?_append_left hlt, hid], rfl⟩
  | @expand other old new hother _ hsame _ =>
    rw [getElem?_set]
    split
    case isFalse => exact ⟨ty, hid, rfl⟩
    case isTrue heq =>
      rw [heq, hid] at hother
      cases hother
      rw [if_pos (heq ▸ hlt)]; exact ⟨new, rfl, hsame⟩

theorem Steps.shape (h : Steps types next) {id : Nat} (hid : types[id]? = some ty) :
    ∃ new, next[id]? = some new ∧ new.toShape = ty.toShape := by
  induction h with
  | refl => exact ⟨ty, hid, rfl⟩
  | tail _ hstep ih =>
    obtain ⟨middle, hmiddle, hsame⟩ := ih
    obtain ⟨new, hnew, hlast⟩ := hstep.shape hmiddle
    exact ⟨new, hnew, hlast.trans hsame⟩

theorem Steps.length_le (h : Steps types next) : types.length ≤ next.length := by
  induction h with
  | refl => exact le_refl _
  | tail _ hstep ih =>
    apply ih.trans
    cases hstep with
    | intern => simp
    | declare => simp
    | expand => simp

/-- These are numbers of types. -/
def Within (ids : List Nat) (env : Environment) : Prop := ∀ id ∈ ids, id < env.types.length

theorem Within.steps {ids : List Nat} (h : Within ids env) (hsteps : Steps env.types after.types) :
    Within ids after := fun id hid => lt_of_lt_of_le (h id hid) hsteps.length_le

/-- `x` changes the table by steps; its answer has `P`. -/
def Grows {α : Type} (x : Build α) (env : Environment) (P : α → Environment → Prop) : Prop :=
  Threaded.Meets x env (fun a after => Steps env.types after.types ∧ P a after) fun _ => True

namespace Grows

variable {α β : Type} {env : Environment}

variable {P : α → Environment → Prop} {x : Build α}

theorem pure' {a : α} (h : P a env) : Grows (pure a) env P :=
  Threaded.meets_pure ⟨ReflTransGen.refl, h⟩

theorem throw' {stop : Stop} : Grows (throw stop : Build α) env P := Threaded.meets_throw trivial

theorem bind' {f : α → Build β} {Q : α → Environment → Prop} {P : β → Environment → Prop}
    (hx : Grows x env Q)
    (hf : ∀ a after, Steps env.types after.types → Q a after → Grows (f a) after P) :
    Grows (x >>= f) env P := by
  refine Threaded.meets_bind hx fun a after h => ?_
  refine Threaded.meets_mono (hf a after h.1 h.2) ?_ fun _ _ => trivial
  exact fun b last hlast => ⟨h.1.trans hlast.1, hlast.2⟩

theorem mono {Q : α → Environment → Prop} (hx : Grows x env Q)
    (h : ∀ a after, Q a after → P a after) : Grows x env P :=
  Threaded.meets_mono hx (fun a after hafter => ⟨hafter.1, h a after hafter.2⟩) fun _ => id

theorem ite' {c : Prop} [Decidable c] {y : Build α} (hx : c → Grows x env P)
    (hy : ¬c → Grows y env P) : Grows (if c then x else y) env P := Threaded.meets_ite hx hy

theorem get' : Grows (get : Build Environment) env fun a after => env = a ∧ env = after :=
  Threaded.meets_get ⟨ReflTransGen.refl, rfl, rfl⟩

theorem discard' (hx : Grows x env P) : Grows (discard x) env fun _ _ => True :=
  bind' hx fun _ _ _ _ => pure' trivial

end Grows

/-! ## Each function takes steps -/

theorem refuse_grows (condition : Bool) (stop : Stop) (env : Environment) :
    Grows (refuse condition stop) env fun _ after => env = after :=
  Grows.ite' (fun _ => Grows.throw') fun _ => Grows.pure' rfl

def Numbered (id : Nat) (env : Environment) : Prop := id < env.types.length

theorem entry_grows (id : Nat) (env : Environment) :
    Grows (entry id) env fun ty after => env.types[id]? = some ty ∧ env = after := by
  refine Grows.bind' Grows.get' ?_
  rintro _ _ - ⟨rfl, rfl⟩
  cases hid : env.types[id]? with
  | none => exact Grows.throw'
  | some ty => exact Grows.pure' ⟨rfl, rfl⟩

theorem setPhase_grows (id phase : Nat) (env : Environment) :
    Grows (setPhase id phase) env fun _ after => after.types = env.types := ⟨ReflTransGen.refl, rfl⟩

theorem append_grows (phase : Nat) (h : Step env.types (env.types ++ [ty])) :
    Grows (append ty phase) env fun id after => after.types[id]? = some ty ∧ Numbered id after := by
  have hlast : (env.types ++ [ty])[env.types.length]? = some ty := getElem?_concat_length
  exact ⟨ReflTransGen.single h, hlast, (List.getElem?_eq_some_iff.mp hlast).1⟩

theorem intern_grows {kind : Kind} {symbol : Int} {arguments : List Nat} {env : Environment}
    (hkind : kind.nominal = false) (harguments : Within arguments env) :
    Grows (intern kind symbol arguments) env Numbered := by
  refine Grows.bind' Grows.get' ?_
  rintro _ _ - ⟨rfl, rfl⟩
  cases hfound : env.types.findIdx? fun shape =>
      shape.toShape = ⟨kind, symbol, arguments⟩ with
  | some id => exact Grows.pure' (findIdx?_eq_some_iff_getElem.mp hfound).1
  | none => exact (append_grows 2 (.intern hkind harguments)).mono fun _ _ h => h.2

theorem checkDepth_grows (owner : Int) (arguments : List Nat) (env : Environment) :
    Grows (checkDepth owner arguments) env fun _ after => env = after := by
  refine Grows.bind' Grows.get' ?_
  rintro _ _ - ⟨rfl, rfl⟩
  exact refuse_grows _ _ env

theorem tupleType_grows {elements : List Nat} (owner : Int) (h : Within elements env) :
    Grows (tupleType owner elements) env Numbered := by
  refine Grows.bind' (checkDepth_grows owner elements env) ?_
  rintro _ _ - rfl
  exact intern_grows rfl h

theorem declarationOf_grows (program : List Declaration) (owner : Int) (env : Environment) :
    Grows (declarationOf program owner) env fun _ after => env = after := by
  unfold declarationOf
  split
  · exact Grows.pure' rfl
  · exact Grows.throw'

theorem findData_grows (program : List Declaration) (owner : Int) (value : String)
    (env : Environment) : Grows (findData program owner value) env fun _ after => env = after := by
  unfold findData
  split
  · exact Grows.throw'
  · exact Grows.pure' rfl
  · exact Grows.throw'

/-- The builtin types are the first of every table. -/
def Started (env : Environment) : Prop := 6 ≤ env.types.length

theorem Started.steps (h : Started env) (hsteps : Steps env.types after.types) :
    Started after := h.trans hsteps.length_le

theorem typeConstant_grows (owner : Int) (value : String) (h : Started env) :
    Grows (typeConstant owner value) env fun found after => ∀ id ∈ found, Numbered id after := by
  have hlow : ∀ id < 6, Numbered id env := fun id hid => lt_of_lt_of_le hid h
  have hone : ∀ id < 6, Grows (pure (some id) : Build (Option Nat)) env
      fun found after => ∀ id ∈ found, Numbered id after := fun id hid =>
    Grows.pure' (by simpa using hlow id hid)
  have hmeta : Grows (some <$> intern .metatype (-1) []) env
      fun found after => ∀ id ∈ found, Numbered id after := by
    rw [map_eq_pure_bind]
    refine Grows.bind' (@intern_grows .metatype (-1) [] env rfl nofun) fun id after _ hid => ?_
    exact Grows.pure' (by simpa using hid)
  refine Grows.ite' (fun _ => hone 1 (by decide)) fun _ => ?_
  refine Grows.ite' (fun _ => hone 2 (by decide)) fun _ => ?_
  refine Grows.ite' (fun _ => hone 3 (by decide)) fun _ => ?_
  refine Grows.ite' (fun _ => hone 4 (by decide)) fun _ => ?_
  refine Grows.ite' (fun _ => hone 5 (by decide)) fun _ => ?_
  refine Grows.ite' (fun _ => hmeta) fun _ => ?_
  exact Grows.ite' (fun _ => Grows.throw') fun _ => Grows.pure' nofun

theorem typeParameter_within {arguments : List Nat} (harguments : Within arguments env)
    (value : String) (parameters : List String) {builtin : Option Nat}
    (hbuiltin : ∀ id ∈ builtin, Numbered id env) :
    ∀ id ∈ typeParameter parameters arguments value builtin, Numbered id env := by
  induction parameters generalizing arguments builtin with
  | nil => exact hbuiltin
  | cons parameter rest ih =>
    cases arguments with
    | nil => exact hbuiltin
    | cons argument others =>
      refine ih (fun id hid => harguments id (.tail argument hid)) ?_
      show ∀ id ∈ if value = parameter then some argument else builtin, Numbered id env
      by_cases hname : value = parameter
      · rw [if_pos hname]
        exact fun id hid => Option.mem_some_iff.mp hid ▸ harguments argument (.head _)
      · rwa [if_neg hname]

/-- A table that something is resolved in. -/
structure Ready (env : Environment) : Prop where
  laid : Laid env.types
  started : Started env

theorem Ready.steps (h : Ready env) (hsteps : Steps env.types after.types) : Ready after :=
  ⟨h.laid.steps hsteps, h.started.steps hsteps⟩

/-- What is asked of a resolver. -/
def Resolving (resolve : Resolver) : Prop :=
  ∀ owner arguments node env, Ready env → Within arguments env →
    Grows (resolve owner arguments node) env Numbered

/-- What is asked of what expands a nominal type. -/
def Expanding (expand : Nat → Build Unit) : Prop :=
  ∀ id env ty, Ready env → env.types[id]? = some ty → ty.kind.nominal = true →
    Grows (expand id) env fun _ _ => True

section

variable {program : List Declaration} {resolve : Resolver} {expand : Nat → Build Unit}

variable {arguments : List Nat} {env : Environment}

theorem resolveAll_grows (hresolve : Resolving resolve) (owner : Int) :
    ∀ (nodes : List Node) (env : Environment), Ready env → Within arguments env →
      Grows (resolveAll (resolve owner arguments) nodes) env Within := by
  intro nodes
  induction nodes with
  | nil => exact fun env _ _ => Grows.pure' nofun
  | cons node rest ih =>
    intro env hready harguments
    refine Grows.bind' (hresolve owner arguments node env hready harguments) ?_
    intro id middle hfirst hid
    refine Grows.bind' (ih middle (hready.steps hfirst) (harguments.steps hfirst)) ?_
    intro ids after hrest hids
    refine Grows.pure' (forall_mem_cons.mpr ⟨?_, hids⟩)
    exact lt_of_lt_of_le hid hrest.length_le

/-- What the fields and variants of a type store. -/
def storedBy (fields : List Field) (variants : List Variant) : List Nat :=
  fields.map Field.ty ++ variants.flatMap Variant.fields

theorem expandMembers_grows (hresolve : Resolving resolve) (owner : Int) :
    ∀ (members : List Member) (fields : List Field) (variants : List Variant)
      (env : Environment), Ready env → Within arguments env →
      Within (storedBy fields variants) env →
      Grows (expandMembers (resolve owner arguments) members fields variants) env
        fun parts after => Within (storedBy parts.1 parts.2) after := by
  intro members
  induction members with
  | nil => exact fun fields variants env _ _ hparts => Grows.pure' hparts
  | cons member rest ih =>
    intro fields variants env hready harguments hparts
    cases member with
    | field name type =>
      refine Grows.bind' (hresolve owner arguments type env hready harguments) ?_
      intro ty after hsteps hty
      refine ih _ _ after (hready.steps hsteps) (harguments.steps hsteps) ?_
      intro part hpart
      have hpart' : part = ty ∨ part ∈ storedBy fields variants := by
        simp only [storedBy] at hpart ⊢; grind
      obtain rfl | hpart' := hpart'
      · exact hty
      · exact hparts.steps hsteps part hpart'
    | variant name types =>
      refine Grows.bind' (resolveAll_grows hresolve owner types env hready harguments) ?_
      intro payload after hsteps hpayload
      refine ih _ _ after (hready.steps hsteps) (harguments.steps hsteps) ?_
      intro part hpart
      have hpart' : part ∈ payload ∨ part ∈ storedBy fields variants := by
        simp only [storedBy] at hpart ⊢; grind
      obtain hpart' | hpart' := hpart'
      · exact hpayload part hpart'
      · exact hparts.steps hsteps part hpart'

theorem expandBase_grows (hresolve : Resolving resolve) (shape : Entry) (base : Node)
    (hready : Ready env) (harguments : Within arguments env) :
    Grows (expandBase (resolve shape.symbol arguments) shape base) env
      fun fields after => Within (fields.map Field.ty) after := by
  refine Grows.ite' (fun _ => ?_) fun _ => Grows.pure' nofun
  refine Grows.bind' (hresolve shape.symbol arguments base env hready harguments) ?_
  intro ty after _ hty
  refine Grows.bind' (entry_grows ty after) ?_
  rintro below _ - ⟨-, rfl⟩
  refine Grows.bind' (refuse_grows _ _ after) ?_
  rintro _ _ - rfl
  exact Grows.pure' fun id hid => mem_singleton.mp hid ▸ hty

theorem expandType_grows (hresolve : Resolving resolve) :
    Expanding (expandType program resolve) := by
  intro id env ty hready hid hkind
  refine Grows.bind' (setPhase_grows id 1 env) ?_
  intro _ first _ htypes
  refine Grows.bind' (entry_grows id first) ?_
  rintro shape _ - ⟨hshape, rfl⟩
  rw [htypes, hid] at hshape
  cases hshape
  have hready' : Ready first := by
    obtain ⟨hlaid, hstarted⟩ := hready
    exact ⟨htypes ▸ hlaid, by unfold Started; rw [htypes]; exact hstarted⟩
  have harguments : Within ty.arguments first := by
    intro argument hargument
    rw [htypes]
    exact hready.laid.arguments ty (mem_of_getElem? hid) argument hargument
  refine Grows.bind' (declarationOf_grows program ty.symbol first) ?_
  rintro item _ - rfl
  refine Grows.bind' (expandMembers_grows hresolve ty.symbol item.members [] [] first hready'
    harguments nofun) ?_
  rintro ⟨fields, variants⟩ second hmembers hparts
  refine Grows.bind' (expandBase_grows hresolve ty item.base (hready'.steps hmembers)
    (harguments.steps hmembers)) ?_
  intro base third hthird hbases
  -- the entry is where it was, with the same shape
  obtain ⟨old, hold, hsame⟩ := Steps.shape (hmembers.trans hthird) (htypes ▸ hid)
  refine Grows.bind' (Q := fun _ _ => True) ⟨ReflTransGen.single (.expand hold ?_ ?_ ?_), trivial⟩ ?_
  · rw [hsame]; exact hkind
  · exact hsame.symm
  · intro part hpart
    have hpart' : part ∈ storedBy fields variants ∨ part ∈ base.map Field.ty := by
      simp only [Entry.stored, storedBy, map_append] at hpart ⊢; grind
    obtain hpart' | hpart' := hpart'
    · exact hparts.steps hthird part hpart'
    · exact hbases part hpart'
  · exact fun _ last _ _ => (setPhase_grows id 2 last).mono fun _ _ _ => trivial

theorem expandWhen_grows (hexpand : Expanding expand) (condition : Bool) {id : Nat} {ty : Entry}
    (hready : Ready env) (hid : env.types[id]? = some ty) (hkind : ty.kind.nominal = true) :
    Grows (expandWhen condition expand id) env fun _ _ => True :=
  Grows.ite' (fun _ => hexpand id env ty hready hid hkind) fun _ => Grows.pure' trivial

theorem typeKind_nominal (item : Declaration) : item.typeKind.nominal = true := by
  unfold Declaration.typeKind
  split
  · rfl
  · split
    · rfl
    · rfl

theorem dataType_grows (hexpand : Expanding expand) (left declaration : Nat) (hready : Ready env)
    (harguments : Within arguments env) :
    Grows (dataType program left expand declaration arguments) env Numbered := by
  refine Grows.bind' (declarationOf_grows program declaration env) ?_
  rintro item _ - rfl
  refine Grows.bind' (refuse_grows _ _ env) ?_
  rintro _ _ - rfl
  refine Grows.bind' (checkDepth_grows declaration arguments env) ?_
  rintro _ _ - rfl
  refine Grows.bind' Grows.get' ?_
  rintro _ _ - ⟨rfl, rfl⟩
  cases hfound : env.types.findIdx? fun existing => existing.symbol = (declaration : Int) &&
      existing.kind.nominal && existing.arguments = arguments with
  | some id =>
    obtain ⟨hlt, htest, -⟩ := findIdx?_eq_some_iff_getElem.mp hfound
    have hkind : env.types[id].kind.nominal = true := by
      simp only [Bool.and_eq_true] at htest; exact htest.1.2
    refine Grows.bind' (expandWhen_grows hexpand _ hready (getElem?_eq_getElem hlt) hkind) ?_
    exact fun _ after hsteps _ => Grows.pure' (lt_of_lt_of_le hlt hsteps.length_le)
  | none =>
    refine Grows.bind' (refuse_grows _ _ env) ?_
    rintro _ _ - rfl
    refine Grows.bind' (append_grows 0 (.declare (typeKind_nominal item) harguments)) ?_
    rintro id middle hsteps ⟨hid, hnumber⟩
    refine Grows.bind' (expandWhen_grows hexpand _ (hready.steps hsteps) hid
      (typeKind_nominal item)) ?_
    exact fun _ after hlast _ => Grows.pure' (lt_of_lt_of_le hnumber hlast.length_le)

theorem resolveNode_grows (left : Nat) (hresolve : Resolving resolve)
    (hexpand : Expanding expand) : Resolving (resolveNode program left resolve expand) := by
  intro owner arguments node env hready harguments
  -- the arguments of a type, and what is made of them
  have hall : ∀ (children : List Node) (f : List Nat → Build Nat),
      (∀ ids after, Ready after → Within ids after → Grows (f ids) after Numbered) →
      ∀ env, Ready env → Within arguments env →
        Grows (resolveAll (resolve owner arguments) children >>= f) env Numbered := by
    intro children f hf env hready harguments
    refine Grows.bind' (resolveAll_grows hresolve owner children env hready harguments) ?_
    exact fun ids after hsteps hids => hf ids after (hready.steps hsteps) hids
  cases node with
  | function parameters output =>
    refine Grows.bind' (resolveAll_grows hresolve owner parameters env hready harguments) ?_
    intro shape middle hsteps hshape
    have houtput : Grows (resolveOutput (resolve owner arguments) output) middle Numbered := by
      cases output with
      | none => exact Grows.pure' (lt_of_lt_of_le (by decide) (hready.steps hsteps).started)
      | some node =>
        exact hresolve owner arguments node middle (hready.steps hsteps) (harguments.steps hsteps)
    refine Grows.bind' houtput ?_
    intro result after hlast hresult
    refine intern_grows rfl fun id hid => ?_
    obtain hid | hid := mem_append.mp hid
    · exact hshape.steps hlast id hid
    · rw [mem_singleton.mp hid]; exact hresult
  | tuple children =>
    exact hall children _ (fun ids after _ hids => tupleType_grows owner hids) env hready harguments
  | type value children =>
    refine Grows.bind' (typeConstant_grows owner value hready.started) ?_
    intro constant middle hsteps hconstant
    have hready' := hready.steps hsteps
    have harguments' := harguments.steps hsteps
    refine Grows.bind' (declarationOf_grows program owner middle) ?_
    rintro item _ - rfl
    have hbuiltin := typeParameter_within harguments' value item.parameters hconstant
    cases hfound : typeParameter item.parameters arguments value constant with
    | some builtin =>
      rw [hfound] at hbuiltin
      refine Grows.bind' (refuse_grows _ _ middle) ?_
      rintro _ _ - rfl
      exact Grows.pure' (hbuiltin builtin rfl)
    | none =>
      have hwrap : ∀ (kind : Kind) (stop : Stop) (ids : List Nat) (after : Environment),
          kind.nominal = false → Within ids after →
          Grows (refuse (ids.length ≠ 1) stop >>= fun _ => intern kind (-1) ids) after
            Numbered := by
        intro kind stop ids after hkind hids
        refine Grows.bind' (refuse_grows _ _ after) ?_
        rintro _ _ - rfl
        exact intern_grows hkind hids
      refine Grows.ite' (fun _ => ?_) fun _ => Grows.ite' (fun _ => ?_) fun _ => ?_
      · exact hall children _ (fun ids after _ hids => hwrap .task _ ids after rfl hids)
          middle hready' harguments'
      · exact hall children _ (fun ids after _ hids => hwrap .list _ ids after rfl hids)
          middle hready' harguments'
      · refine Grows.bind' (findData_grows program owner value middle) ?_
        rintro declaration _ - rfl
        exact hall children _
          (fun ids after hafter hids => dataType_grows hexpand left declaration hafter hids)
          middle hready' harguments'

end

/-- By the levels that are left: a level resolves one below it and expands two below it. -/
theorem resolve_grows (program : List Declaration) : ∀ left, Resolving (resolve program left)
  | 0 => fun _ _ _ _ _ _ => Grows.throw'
  | 1 => by
    refine resolveNode_grows 0 (fun _ _ _ _ _ _ => Grows.throw') ?_
    intro id env ty _ _ _
    exact Grows.bind' (entry_grows id env) fun _ _ _ _ => Grows.throw'
  | left + 2 =>
    resolveNode_grows (left + 1) (resolve_grows program (left + 1))
      (expandType_grows (resolve_grows program left))

/-! ## The whole program -/

theorem initializeTypes_grows {env : Environment} : Grows initializeTypes env fun _ _ => True := by
  have hnext : ∀ (kind : Kind) (env : Environment), kind.nominal = false →
      Grows (discard (intern kind (-1) [])) env fun _ _ => True :=
    fun kind env hkind => Grows.discard' (@intern_grows kind (-1) [] env hkind nofun)
  refine Grows.bind' (hnext .unit env rfl) fun _ _ _ _ => ?_
  refine Grows.bind' (hnext .int _ rfl) fun _ _ _ _ => ?_
  refine Grows.bind' (hnext .bool _ rfl) fun _ _ _ _ => ?_
  refine Grows.bind' (hnext .text _ rfl) fun _ _ _ _ => ?_
  refine Grows.bind' (hnext .bytes _ rfl) fun _ _ _ _ => ?_
  exact hnext .float _ rfl

theorem initializeTypes_start :
    ∃ after, initializeTypes start = .ok ((), after) ∧ after.types.length = 6 := ⟨_, rfl, rfl⟩

theorem abstractArguments_grows (count : Nat) (env : Environment) :
    Grows (abstractArguments count) env Within := by
  induction count with
  | zero => exact Grows.pure' nofun
  | succ count ih =>
    refine Grows.bind' ih ?_
    intro arguments middle _ harguments
    refine Grows.bind' (@intern_grows .parameter count [] middle rfl nofun) ?_
    intro argument after hsteps hargument
    refine Grows.pure' fun id hid => ?_
    obtain hid | hid := mem_append.mp hid
    · exact harguments.steps hsteps id hid
    · rw [mem_singleton.mp hid]; exact hargument

theorem declareFrom_grows (program : List Declaration) : ∀ (rest : List Declaration)
    (index : Nat) (env : Environment), Ready env →
    Grows (declareFrom program index rest) env fun _ _ => True := by
  intro rest
  induction rest with
  | nil => exact fun _ _ _ => Grows.pure' trivial
  | cons item rest ih =>
    intro index env hready
    refine Grows.bind' (abstractArguments_grows item.parameters.length env) ?_
    intro arguments middle hfirst harguments
    refine Grows.bind' (Grows.discard' (dataType_grows
      (expandType_grows (resolve_grows program 64)) 65 index (hready.steps hfirst) harguments)) ?_
    intro _ after hsecond _
    exact ih (index + 1) after ((hready.steps hfirst).steps hsecond)

theorem prepare_built {program : List Declaration} (h : prepare program start = .ok ((), env)) :
    Built env.types := by
  have hrun : Grows (prepare program) start fun _ _ => True := by
    obtain ⟨first, hfirst, hlength⟩ := initializeTypes_start
    have hsteps : Steps [] first.types := ((@initializeTypes_grows start).ok hfirst).1
    refine Grows.bind' (Q := fun _ after => after = first) ?_ ?_
    · unfold Grows Threaded.Meets
      rw [hfirst]; exact ⟨hsteps, rfl⟩
    · rintro _ _ - rfl
      exact declareFrom_grows program program 0 _ ⟨laid_nil.steps hsteps, hlength.ge⟩
  exact (hrun.ok h).1

end Loom.Layouts
