import Loom.Library.Machine

/-
  The table of checked types and its hash index.

  A type is looked up by its identity: kind, symbol, arguments and pack widths. The index
  keeps for every key the entries with that key, in the order of the table. It is extended
  when something is looked up, because other code appends to the table behind its back.

  Correspondence (loom ↔ Lean), where names differ:
    `typed.TypeKind`, `typed.Type` ↔ `Kind`, `Identity`
    `type_candidates`, its loop ↔ `typeCandidates`, `extendFrom`
  The layout of a type (its fields, variants and constraint) and its state are left out:
  no lookup reads them, and expansion sets them without changing an identity. Expanding a
  type is the run that follows the call. Buckets are a function of the key, empty where
  the map has none. `none` is a fault.
-/

namespace Loom.Interning

open Machine List Option

/-! ## Types -/

inductive Kind where
  | unit | int | bool | text | bytes | parameter | list | record | enum | refined | tuple | float
  | dyn | associated | function | task | frame | metatype | family | rigid
  deriving DecidableEq

structure Identity where
  kind : Kind
  symbol : Int
  arguments : List Int
  packWidths : List Int
  deriving DecidableEq

/-- The kinds that a declaration gives a type. -/
def Kind.nominal (kind : Kind) : Bool := kind = .record || kind = .enum || kind = .refined

inductive NodeKind where
  | record | enum | other
  deriving DecidableEq

/-- What a declaration tells about its types. -/
structure Declaration where
  kind : NodeKind
  /-- `pack_parameter`: the first pack, or -1 -/
  pack : Int
  /-- `fixed_pack_parameters` -/
  fixed : Int
  /-- how many type parameters there are -/
  parameters : Nat
  /-- `type_pack_count` -/
  packs : Nat

def Declaration.typeKind (item : Declaration) : Kind :=
  if item.kind = .record then .record else if item.kind = .enum then .enum else .refined

/-! ## The index -/

structure TypeIndex where
  buckets : Int → List Nat
  indexed : Nat

def typeIndex : TypeIndex := { buckets := fun _ => [], indexed := 0 }

def typeKeyWord (hash value : Int) : Option Int := do
  let product ← mul (bitXor hash (bitAnd value 4294967295)) 16777619
  return bitAnd product 4294967295

/-- A loop of `typeKey` over arguments or widths. -/
def typeKeyWords (hash : Int) : List Int → Option Int
  | [] => some hash
  | value :: rest => do
    let hash ← typeKeyWord hash value
    typeKeyWords hash rest

def typeKey (symbol : Int) (arguments widths : List Int) : Option Int := do
  let hash ← typeKeyWord 2166136261 symbol
  let hash ← typeKeyWord hash arguments.length
  let hash ← typeKeyWords hash arguments
  let hash ← typeKeyWord hash widths.length
  typeKeyWords hash widths

structure Environment where
  types : List Identity
  table : TypeIndex

def start : Environment := { types := [], table := typeIndex }

/-- `push(type_bucket(table, key), index)` -/
def pushBucket (buckets : Int → List Nat) (key : Int) (index : Nat) : Int → List Nat :=
  fun other => if other = key then buckets other ++ [index] else buckets other

/-- The loop of `typeCandidates`, over the entries that are not indexed yet. -/
def extendFrom (index : Nat) (buckets : Int → List Nat) : List Identity → Option (Int → List Nat)
  | [] => some buckets
  | shape :: rest => do
    let key ← typeKey shape.symbol shape.arguments shape.packWidths
    extendFrom (index + 1) (pushBucket buckets key index) rest

def typeCandidates (env : Environment) (symbol : Int) (arguments widths : List Int) :
    Option (List Nat × Environment) := do
  let buckets ← extendFrom env.table.indexed env.table.buckets (env.types.drop env.table.indexed)
  let key ← typeKey symbol arguments widths
  return (buckets key,
    { env with table := { buckets := buckets, indexed := max env.table.indexed env.types.length } })

/-- The loop over the candidates: the first one that passes the test. -/
def select (types : List Identity) (test : Identity → Bool) : List Nat → Option (Option Nat)
  | [] => some none
  | ty :: rest =>
    match types[ty]? with
    | none => none
    | some shape => if test shape then some (some ty) else select types test rest

/-! ## Lookups -/

def appendStructuralType (types : List Identity) (kind : Kind) (symbol : Int)
    (arguments : List Int) : Nat × List Identity :=
  (types.length,
    types ++ [{ kind := kind, symbol := symbol, arguments := arguments, packWidths := [] }])

def intern (env : Environment) (kind : Kind) (symbol : Int) (arguments : List Int) :
    Option (Nat × Environment) := do
  let (candidates, env) ← typeCandidates env symbol arguments []
  let found ← select env.types (fun shape => shape.kind = kind && shape.symbol = symbol &&
    shape.packWidths.length = 0 && shape.arguments = arguments) candidates
  match found with
  | some ty => return (ty, env)
  | none =>
    let (ty, types) := appendStructuralType env.types kind symbol arguments
    return (ty, { env with types := types })

/-- The width check of `dataTypeGrouped`, which sums the arguments of the packs. -/
def packCount (count : Int) : List Int → Option Int
  | [] => some count
  | width :: rest => if width < 0 ∨ 1024 < width then none else packCount (count + width) rest

/-- What `dataTypeGrouped` refuses before it looks a type up. -/
def refusal (item : Declaration) (typeDepth : Int → Nat) (arguments widths : List Int) :
    Option String :=
  match packCount item.fixed widths with
  | none => some "invalid data pack width"
  | some count =>
    if (item.pack < 0 ∧ arguments.length ≠ item.parameters) ∨
        (0 ≤ item.pack ∧ (widths.length ≠ item.packs ∨ (arguments.length : Int) ≠ count)) then
      some "wrong number of type arguments"
    else if arguments.any fun argument => 64 ≤ typeDepth argument then
      some "type specialization depth exceeded; expansion must be finite"
    else none

/-- The declarations of the program, and how deep the types of a table are nested. -/
structure Program where
  declarations : Int → Declaration
  typeDepth : List Identity → Int → Nat

def dataTypeGrouped (program : Program) (env : Environment) (declaration : Int)
    (arguments widths : List Int) (depth : Int) : Option (Except String Nat × Environment) :=
  let item := program.declarations declaration
  match refusal item (program.typeDepth env.types) arguments widths with
  | some message => some (.error message, env)
  | none => do
    let (candidates, env) ← typeCandidates env declaration arguments widths
    let found ← select env.types (fun existing => existing.symbol = declaration &&
      existing.kind.nominal && existing.arguments = arguments && existing.packWidths = widths)
      candidates
    match found with
    | some index => return (.ok index, env)
    | none =>
      if 64 < depth then
        return (.error "type specialization depth exceeded; expansion must be finite", env)
      else
        let placeholder : Identity := { kind := item.typeKind, symbol := declaration,
                                        arguments := arguments, packWidths := widths }
        return (.ok env.types.length, { env with types := env.types ++ [placeholder] })

/-- The builder that searches the table itself. -/
def structuralType (types : List Identity) (kind : Kind) (symbol : Int) (arguments : List Int) :
    Nat × List Identity :=
  match types.findIdx? fun existing => existing.kind = kind && existing.symbol = symbol &&
    existing.packWidths.length = 0 && existing.arguments = arguments with
  | some index => (index, types)
  | none => appendStructuralType types kind symbol arguments

/-! ## Keys -/

theorem bitAnd_mask (value : Int) :
    0 ≤ bitAnd value 4294967295 ∧ bitAnd value 4294967295 < 2 ^ 32 := by
  have hnat : (word value &&& word 4294967295).toNat < 2 ^ 32 := by
    exact Nat.lt_of_le_of_lt Nat.and_le_right (by decide)
  rw [bitAnd, toInt_of_lt (by omega)]; omega

theorem bitXor_small {x y : Int} (hx : 0 ≤ x ∧ x < 2 ^ 32) (hy : 0 ≤ y ∧ y < 2 ^ 32) :
    0 ≤ bitXor x y ∧ bitXor x y < 2 ^ 32 := by
  obtain ⟨n, rfl⟩ := Int.eq_ofNat_of_zero_le hx.1
  obtain ⟨m, rfl⟩ := Int.eq_ofNat_of_zero_le hy.1
  have hxor : (word n ^^^ word m).toNat = n ^^^ m := by
    rw [BitVec.toNat_xor, toNat_word (by omega), toNat_word (by omega)]
  have hlt : n ^^^ m < 2 ^ 32 := Nat.xor_lt_two_pow (by omega) (by omega)
  rw [bitXor, toInt_of_lt (by omega)]; omega

/-- The product is of a word of 32 bits and one of 25, so it fits. -/
theorem typeKeyWord_eq {hash : Int} (h : 0 ≤ hash ∧ hash < 2 ^ 32) (value : Int) :
    ∃ key, typeKeyWord hash value = some key ∧ 0 ≤ key ∧ key < 2 ^ 32 := by
  have hxor := bitXor_small h (bitAnd_mask value)
  refine ⟨bitAnd (bitXor hash (bitAnd value 4294967295) * 16777619) 4294967295, ?_, bitAnd_mask _⟩
  rw [typeKeyWord, mul_eq (fits_of_bounds (by omega) (by omega))]; rfl

theorem typeKeyWords_eq (values : List Int) : ∀ {hash : Int}, 0 ≤ hash ∧ hash < 2 ^ 32 →
    ∃ key, typeKeyWords hash values = some key ∧ 0 ≤ key ∧ key < 2 ^ 32 := by
  induction values with
  | nil => exact fun {hash} h => ⟨hash, rfl, h⟩
  | cons value rest ih =>
    intro hash h
    obtain ⟨next, hnext, hbounds⟩ := typeKeyWord_eq h value
    obtain ⟨key, hkey, hlast⟩ := ih hbounds
    refine ⟨key, ?_, hlast⟩
    rw [typeKeyWords, hnext, some_bind, hkey]

theorem typeKey_eq (symbol : Int) (arguments widths : List Int) :
    ∃ key, typeKey symbol arguments widths = some key ∧ 0 ≤ key ∧ key < 2 ^ 32 := by
  obtain ⟨first, hfirst, h⟩ := @typeKeyWord_eq 2166136261 (by omega) symbol
  obtain ⟨second, hsecond, h⟩ := typeKeyWord_eq h arguments.length
  obtain ⟨third, hthird, h⟩ := typeKeyWords_eq arguments h
  obtain ⟨fourth, hfourth, h⟩ := typeKeyWord_eq h widths.length
  obtain ⟨key, hkey, h⟩ := typeKeyWords_eq widths h
  refine ⟨key, ?_, h⟩
  rw [typeKey, hfirst, some_bind, hsecond, some_bind, hthird, some_bind, hfourth, some_bind, hkey]

/-! ## The index follows the table -/

def keyOf (shape : Identity) : Option Int :=
  typeKey shape.symbol shape.arguments shape.packWidths

/-- The entries among the first `count` that have a key. -/
def bucketOf (types : List Identity) (count : Nat) (key : Int) : List Nat :=
  (range count).filter fun index => types[index]?.bind keyOf = some key

/-- The index holds the entries that it has seen, and no others. -/
structure Indexed (env : Environment) : Prop where
  le : env.table.indexed ≤ env.types.length
  buckets : env.table.buckets = bucketOf env.types env.table.indexed

theorem indexed_start : Indexed start := ⟨Nat.le_refl _, rfl⟩

theorem bucketOf_append (types more : List Identity) {count : Nat} (h : count ≤ types.length) :
    bucketOf (types ++ more) count = bucketOf types count := by
  funext key
  refine filter_congr fun index hmem => ?_
  rw [getElem?_append_left (by have := mem_range.mp hmem; omega)]

variable {env : Environment} {shape : Identity} {types : List Identity} {test : Identity → Bool}

theorem Indexed.append (h : Indexed env) (more : List Identity) :
    Indexed { env with types := env.types ++ more } := by
  refine ⟨?_, ?_⟩
  · rw [length_append]; exact Nat.le_add_right_of_le h.le
  · rw [h.buckets, bucketOf_append _ _ h.le]

theorem bucketOf_succ {count : Nat} {key : Int} (hshape : types[count]? = some shape)
    (hkey : keyOf shape = some key) :
    bucketOf types (count + 1) = pushBucket (bucketOf types count) key count := by
  funext other
  rw [bucketOf, range_succ, filter_append, pushBucket]
  by_cases hsame : other = key
  · rw [if_pos hsame, filter_cons_of_pos (by simp [hshape, hkey, hsame])]; rfl
  · have hne : ¬key = other := fun heq => hsame heq.symm
    rw [if_neg hsame, filter_cons_of_neg (by simp [hshape, hkey, hne]), filter_nil, append_nil]
    rfl

theorem extendFrom_spec : ∀ (rest : List Identity) (index : Nat),
    types.drop index = rest → index ≤ types.length →
    extendFrom index (bucketOf types index) rest = some (bucketOf types types.length) := by
  intro rest
  induction rest with
  | nil =>
    intro index hrest hle
    have hlast : index = types.length := Nat.le_antisymm hle (drop_eq_nil_iff.mp hrest)
    rw [extendFrom, hlast]
  | cons shape rest ih =>
    intro index hrest hle
    have hlt : index < types.length := by
      by_contra hnot
      rw [drop_eq_nil_iff.mpr (Nat.not_lt.mp hnot)] at hrest
      cases hrest
    have hshape : types[index]? = some shape := by
      have hhead := head?_drop (l := types) (i := index)
      rw [hrest] at hhead; exact hhead.symm
    have hnext : types.drop (index + 1) = rest := by
      rw [← drop_drop, hrest, drop_succ_cons, drop_zero]
    obtain ⟨key, hkey, -⟩ := typeKey_eq shape.symbol shape.arguments shape.packWidths
    rw [extendFrom, hkey, some_bind, ← bucketOf_succ hshape hkey]
    exact ih (index + 1) hnext hlt

theorem typeCandidates_spec (h : Indexed env) (symbol : Int) (arguments widths : List Int) :
    ∃ key after, typeKey symbol arguments widths = some key ∧
      typeCandidates env symbol arguments widths =
        some (bucketOf env.types env.types.length key, after) ∧
      after.types = env.types ∧ Indexed after := by
  obtain ⟨key, hkey, -⟩ := typeKey_eq symbol arguments widths
  refine ⟨key, { env with table := { buckets := bucketOf env.types env.types.length
                                     indexed := max env.table.indexed env.types.length } },
    hkey, ?_, rfl, ?_⟩
  · rw [typeCandidates, h.buckets, extendFrom_spec _ _ rfl h.le, hkey]; rfl
  · have hmax : max env.table.indexed env.types.length = env.types.length := Nat.max_eq_right h.le
    exact ⟨Nat.le_of_eq hmax, by rw [hmax]⟩

/-! ## Looking up is searching the table -/

theorem select_eq : ∀ {candidates : List Nat}, (∀ index ∈ candidates, index < types.length) →
    select types test candidates = some (candidates.find? fun index => types[index]?.any test) := by
  intro candidates
  induction candidates with
  | nil => exact fun _ => rfl
  | cons index rest ih =>
    intro h
    have hlt := h index (.head _)
    rw [select, getElem?_eq_getElem hlt]
    dsimp only
    cases htest : test types[index] with
    | true =>
      rw [if_pos rfl, find?_cons_of_pos]
      rw [getElem?_eq_getElem hlt, any_some, htest]
    | false =>
      rw [if_neg Bool.false_ne_true, find?_cons_of_neg,
        ih fun other hmem => h other (.tail _ hmem)]
      rw [getElem?_eq_getElem hlt, any_some, htest]
      exact Bool.false_ne_true

theorem find?_range : (range types.length).find? (fun index => types[index]?.any test) =
      types.findIdx? test := by
  cases hfind : types.findIdx? test with
  | none =>
    rw [findIdx?_eq_none_iff] at hfind
    refine find?_eq_none.mpr fun index hmem => ?_
    have hlt := mem_range.mp hmem
    rw [getElem?_eq_getElem hlt, any_some, hfind _ (getElem_mem hlt)]
    exact Bool.false_ne_true
  | some index =>
    obtain ⟨hlt, htest, hbefore⟩ := findIdx?_eq_some_iff_getElem.mp hfind
    refine find?_range_eq_some.mpr ⟨?_, mem_range.mpr hlt, fun other hother => ?_⟩
    · rw [getElem?_eq_getElem hlt, any_some, htest]
    · have hless : other < types.length := Nat.lt_trans hother hlt
      rw [getElem?_eq_getElem hless, any_some]
      rw [Bool.eq_false_of_not_eq_true (hbefore other hother)]; rfl

/-- A test that determines the key looks only at the bucket of the key. -/
theorem select_bucket {key : Int} (h : ∀ shape, test shape = true → keyOf shape = some key) :
    select types test (bucketOf types types.length key) = some (types.findIdx? test) := by
  have hbound : ∀ index ∈ bucketOf types types.length key, index < types.length :=
    fun index hmem => mem_range.mp (mem_filter.mp hmem).1
  rw [select_eq hbound, bucketOf, find?_filter, ← find?_range]
  congr 1
  refine congrArg (fun p => (range types.length).find? p) (funext fun index => ?_)
  cases hshape : types[index]? with
  | none => simp
  | some shape =>
    cases htest : test shape with
    | false => simp [htest]
    | true => simp [h shape htest]

/-! ## Runs -/

/-- The first entry with an identity. -/
def find (types : List Identity) (identity : Identity) : Option Nat :=
  types.findIdx? fun existing => existing = identity

/-- What happens to a table: lookups of the checker, lookups of other builders, and entries
    that are appended directly. -/
inductive Action where
  | intern (kind : Kind) (symbol : Int) (arguments : List Int)
  | data (declaration : Int) (arguments widths : List Int) (depth : Int)
  | build (kind : Kind) (symbol : Int) (arguments : List Int)
  | append (shape : Identity)

/-- A lookup of a declaration takes a nominal type of whatever kind. -/
def nominalTest (declaration : Int) (arguments widths : List Int) (existing : Identity) : Bool :=
  existing.symbol = declaration && existing.kind.nominal && existing.arguments = arguments &&
    existing.packWidths = widths

/-- The test of a lookup. -/
def Action.accepts : Action → Identity → Bool
  | .intern kind symbol arguments, existing => existing = ⟨kind, symbol, arguments, []⟩
  | .data declaration arguments widths _, existing =>
    nominalTest declaration arguments widths existing
  | .build kind symbol arguments, existing => existing = ⟨kind, symbol, arguments, []⟩
  | .append _, _ => false

/-- The identity that a lookup asks for. -/
def Action.requested (program : Program) : Action → Option Identity
  | .intern kind symbol arguments => some ⟨kind, symbol, arguments, []⟩
  | .data declaration arguments widths _ =>
    some ⟨(program.declarations declaration).typeKind, declaration, arguments, widths⟩
  | .build kind symbol arguments => some ⟨kind, symbol, arguments, []⟩
  | .append _ => none

def Action.ofDeclaration : Action → Bool
  | .data _ _ _ _ => true
  | _ => false

/-- Every nominal type is of the kind that its declaration says. -/
def Lawful (program : Program) (types : List Identity) : Prop :=
  ∀ shape ∈ types, shape.kind.nominal = true →
    shape.kind = (program.declarations shape.symbol).typeKind

variable (program : Program)

def step (env : Environment) : Action → Option (Except String Nat × Environment)
  | .intern kind symbol arguments => do
    let (ty, env) ← intern env kind symbol arguments
    return (.ok ty, env)
  | .data declaration arguments widths depth =>
    dataTypeGrouped program env declaration arguments widths depth
  | .build kind symbol arguments =>
    let (ty, types) := structuralType env.types kind symbol arguments
    some (.ok ty, { env with types := types })
  | .append shape => some (.ok env.types.length, { env with types := env.types ++ [shape] })

def run (env : Environment) : List Action → Option (List (Except String Nat) × Environment)
  | [] => some ([], env)
  | action :: rest => do
    let (result, env) ← step program env action
    let (results, env) ← run env rest
    return (result :: results, env)

/-! The same without an index: every lookup searches the whole table. -/

def lookup (types : List Identity) (identity : Identity) : Nat × List Identity :=
  match find types identity with
  | some index => (index, types)
  | none => (types.length, types ++ [identity])

def linearStep (types : List Identity) : Action → Except String Nat × List Identity
  | .intern kind symbol arguments =>
    let (ty, types) := lookup types ⟨kind, symbol, arguments, []⟩
    (.ok ty, types)
  | .data declaration arguments widths depth =>
    let item := program.declarations declaration
    match refusal item (program.typeDepth types) arguments widths with
    | some message => (.error message, types)
    | none =>
      match types.findIdx? (nominalTest declaration arguments widths) with
      | some index => (.ok index, types)
      | none =>
        if 64 < depth then
          (.error "type specialization depth exceeded; expansion must be finite", types)
        else (.ok types.length, types ++ [⟨item.typeKind, declaration, arguments, widths⟩])
  | .build kind symbol arguments =>
    let (ty, types) := lookup types ⟨kind, symbol, arguments, []⟩
    (.ok ty, types)
  | .append shape => (.ok types.length, types ++ [shape])

def linearRun (types : List Identity) : List Action → List (Except String Nat) × List Identity
  | [] => ([], types)
  | action :: rest =>
    let (result, types) := linearStep program types action
    let (results, types) := linearRun types rest
    (result :: results, types)

variable {program}

theorem structural_test (kind : Kind) (symbol : Int) (arguments : List Int) (shape : Identity) :
    (shape.kind = kind && shape.symbol = symbol && shape.packWidths.length = 0 &&
      shape.arguments = arguments) = decide (shape = ⟨kind, symbol, arguments, []⟩) := by
  obtain ⟨kind', symbol', arguments', widths'⟩ := shape
  rw [Bool.eq_iff_iff]
  simp only [Bool.and_eq_true, decide_eq_true_eq, Identity.mk.injEq, length_eq_zero_iff]
  tauto

theorem typeKind_nominal (item : Declaration) : item.typeKind.nominal = true := by
  unfold Declaration.typeKind
  split
  · rfl
  · split
    · rfl
    · rfl

/-- Among lawful entries the test of a nominal lookup is equality of identities. -/
theorem nominalTest_eq (h : Lawful program types) (declaration : Int)
    (arguments widths : List Int) (hmem : shape ∈ types) :
    nominalTest declaration arguments widths shape = decide
      (shape = ⟨(program.declarations declaration).typeKind, declaration, arguments, widths⟩) := by
  have hlawful := h shape hmem
  have hnominal := typeKind_nominal (program.declarations declaration)
  obtain ⟨kind', symbol', arguments', widths'⟩ := shape
  rw [nominalTest, Bool.eq_iff_iff]
  simp only [Bool.and_eq_true, decide_eq_true_eq, Identity.mk.injEq]
  constructor
  · rintro ⟨⟨⟨rfl, hkind⟩, rfl⟩, rfl⟩
    exact ⟨hlawful hkind, rfl, rfl, rfl⟩
  · rintro ⟨rfl, rfl, rfl, rfl⟩
    exact ⟨⟨⟨rfl, hnominal⟩, rfl⟩, rfl⟩

theorem intern_linear (h : Indexed env) (kind : Kind) (symbol : Int) (arguments : List Int) :
    ∃ after, intern env kind symbol arguments =
        some ((lookup env.types ⟨kind, symbol, arguments, []⟩).1, after) ∧
      after.types = (lookup env.types ⟨kind, symbol, arguments, []⟩).2 ∧ Indexed after := by
  obtain ⟨key, found, hkey, hcandidates, htypes, hindexed⟩ :=
    typeCandidates_spec h symbol arguments []
  have hselect : select found.types (fun shape => shape.kind = kind && shape.symbol = symbol &&
      shape.packWidths.length = 0 && shape.arguments = arguments)
      (bucketOf env.types env.types.length key) =
      some (find env.types ⟨kind, symbol, arguments, []⟩) := by
    rw [htypes, funext (structural_test kind symbol arguments)]
    refine select_bucket fun shape hshape => ?_
    rw [of_decide_eq_true hshape]; exact hkey
  rw [intern, hcandidates, some_bind]
  dsimp only
  rw [hselect, lookup]
  cases hfind : find env.types ⟨kind, symbol, arguments, []⟩ with
  | some index => exact ⟨found, rfl, htypes, hindexed⟩
  | none =>
    refine ⟨{ found with types := found.types ++ [⟨kind, symbol, arguments, []⟩] }, ?_, ?_,
      hindexed.append _⟩
    · rw [← htypes]; rfl
    · rw [← htypes]

theorem structuralType_eq (types : List Identity) (kind : Kind) (symbol : Int)
    (arguments : List Int) :
    structuralType types kind symbol arguments = lookup types ⟨kind, symbol, arguments, []⟩ := by
  rw [structuralType, lookup, funext (structural_test kind symbol arguments)]
  rfl

theorem data_linear (h : Indexed env) (declaration : Int) (arguments widths : List Int)
    (depth : Int) :
    ∃ result after, dataTypeGrouped program env declaration arguments widths depth =
        some (result, after) ∧
      linearStep program env.types (.data declaration arguments widths depth) =
        (result, after.types) ∧ Indexed after := by
  rw [dataTypeGrouped, linearStep]
  cases refusal (program.declarations declaration) (program.typeDepth env.types) arguments
      widths with
  | some message => exact ⟨.error message, env, rfl, rfl, h⟩
  | none =>
    obtain ⟨key, found, hkey, hcandidates, htypes, hindexed⟩ :=
      typeCandidates_spec h declaration arguments widths
    have hselect : select found.types (fun existing => existing.symbol = declaration &&
        existing.kind.nominal && existing.arguments = arguments && existing.packWidths = widths)
        (bucketOf env.types env.types.length key) =
        some (env.types.findIdx? (nominalTest declaration arguments widths)) := by
      rw [htypes]
      refine select_bucket fun shape hshape => ?_
      simp only [Bool.and_eq_true, decide_eq_true_eq] at hshape
      obtain ⟨⟨⟨hsymbol, -⟩, harguments⟩, hwidths⟩ := hshape
      rw [keyOf, hsymbol, harguments, hwidths]; exact hkey
    rw [hcandidates, some_bind]
    dsimp only
    rw [hselect]
    cases env.types.findIdx? (nominalTest declaration arguments widths) with
    | some index => exact ⟨.ok index, found, rfl, by rw [htypes], hindexed⟩
    | none =>
      dsimp only
      by_cases hdepth : 64 < depth
      · rw [if_pos hdepth, if_pos hdepth]
        exact ⟨_, found, rfl, by rw [htypes], hindexed⟩
      · rw [if_neg hdepth, if_neg hdepth]
        refine ⟨.ok env.types.length, _, by rw [← htypes]; rfl, ?_, hindexed.append _⟩
        rw [htypes]

theorem step_linear (h : Indexed env) (action : Action) :
    ∃ result after, step program env action = some (result, after) ∧
      linearStep program env.types action = (result, after.types) ∧ Indexed after := by
  cases action with
  | intern kind symbol arguments =>
    obtain ⟨after, hintern, htypes, hindexed⟩ := intern_linear h kind symbol arguments
    refine ⟨.ok (lookup env.types ⟨kind, symbol, arguments, []⟩).1, after, ?_, ?_, hindexed⟩
    · rw [step, hintern]; rfl
    · rw [linearStep, htypes]
  | data declaration arguments widths depth => exact data_linear h declaration arguments widths depth
  | build kind symbol arguments =>
    have hbuilt : step program env (.build kind symbol arguments) =
        some (.ok (lookup env.types ⟨kind, symbol, arguments, []⟩).1,
          { env with types := (lookup env.types ⟨kind, symbol, arguments, []⟩).2 }) := by
      rw [step, structuralType_eq]
    refine ⟨_, _, hbuilt, rfl, ?_⟩
    · rw [lookup]
      cases find env.types ⟨kind, symbol, arguments, []⟩ with
      | some index => exact h
      | none => exact h.append _
  | append shape => exact ⟨_, _, rfl, rfl, h.append _⟩

theorem run_eq_linearRun (actions : List Action) : ∀ {env : Environment}, Indexed env →
    ∃ results after, run program env actions = some (results, after) ∧
      linearRun program env.types actions = (results, after.types) := by
  induction actions with
  | nil => exact fun {env} _ => ⟨[], env, rfl, rfl⟩
  | cons action rest ih =>
    intro env h
    obtain ⟨result, middle, hstep, hlinear, hindexed⟩ := step_linear h action
    obtain ⟨results, after, hrun, hrest⟩ := ih hindexed
    refine ⟨result :: results, after, ?_, ?_⟩
    · rw [run, hstep, some_bind]
      dsimp only
      rw [hrun]; rfl
    · rw [linearRun, hlinear]
      dsimp only
      rw [hrest]

/-! ## What is found stays the first -/

variable {identity : Identity} {index : Nat} {action : Action}

theorem findIdx?_more (h : types.findIdx? test = some index) (more : List Identity) :
    (types ++ more).findIdx? test = some index := by
  rw [findIdx?_append, h]; rfl

theorem findIdx?_new (h : types.findIdx? test = none) (hshape : test shape = true) :
    (types ++ [shape]).findIdx? test = some types.length := by
  rw [findIdx?_append, h]; simp [hshape]

theorem lookup_found (types : List Identity) (identity : Identity) :
    find (lookup types identity).2 identity = some (lookup types identity).1 := by
  rw [lookup]
  cases hfind : find types identity with
  | some index => exact hfind
  | none => exact findIdx?_new hfind (decide_eq_true rfl)

theorem linearStep_found (hrequested : action.requested program = some identity)
    (hresult : (linearStep program types action).1 = .ok index) :
    (linearStep program types action).2.findIdx? action.accepts = some index := by
  cases action with
  | intern kind symbol arguments =>
    rw [← Except.ok.inj hresult]; exact lookup_found types _
  | build kind symbol arguments =>
    rw [← Except.ok.inj hresult]; exact lookup_found types _
  | append shape => cases hrequested
  | data declaration arguments widths depth =>
    rw [linearStep] at hresult ⊢
    cases hrefusal : refusal (program.declarations declaration) (program.typeDepth types) arguments
        widths with
    | some message =>
      rw [hrefusal] at hresult
      cases hresult
    | none =>
      rw [hrefusal] at hresult
      cases hfind : types.findIdx? (nominalTest declaration arguments widths) with
      | some found =>
        rw [hfind] at hresult
        rw [← Except.ok.inj hresult]; exact hfind
      | none =>
        rw [hfind] at hresult
        dsimp only at hresult ⊢
        split at hresult
        case isTrue => cases hresult
        case isFalse hdepth =>
          rw [if_neg hdepth, ← Except.ok.inj hresult]
          exact findIdx?_new hfind (by simp [Action.accepts, nominalTest, typeKind_nominal])

theorem linearStep_extends (types : List Identity) (action : Action) :
    ∃ more, (linearStep program types action).2 = types ++ more := by
  have hlookup : ∀ identity, ∃ more, (lookup types identity).2 = types ++ more := by
    intro identity
    rw [lookup]
    cases find types identity with
    | some index => exact ⟨[], (append_nil _).symm⟩
    | none => exact ⟨[identity], rfl⟩
  cases action with
  | intern kind symbol arguments => exact hlookup _
  | build kind symbol arguments => exact hlookup _
  | append shape => exact ⟨[shape], rfl⟩
  | data declaration arguments widths depth =>
    rw [linearStep]
    cases refusal (program.declarations declaration) (program.typeDepth types) arguments widths with
    | some message => exact ⟨[], (append_nil _).symm⟩
    | none =>
      cases types.findIdx? (nominalTest declaration arguments widths) with
      | some index => exact ⟨[], (append_nil _).symm⟩
      | none =>
        dsimp only
        split
        · exact ⟨[], (append_nil _).symm⟩
        · exact ⟨[_], rfl⟩

theorem linearRun_extends (actions : List Action) : ∀ types : List Identity,
    ∃ more, (linearRun program types actions).2 = types ++ more := by
  induction actions with
  | nil => exact fun types => ⟨[], (append_nil _).symm⟩
  | cons action rest ih =>
    intro types
    obtain ⟨first, hfirst⟩ := @linearStep_extends program types action
    obtain ⟨second, hsecond⟩ := ih (linearStep program types action).2
    refine ⟨first ++ second, ?_⟩
    rw [← append_assoc, ← hfirst]; exact hsecond

/-- Every answer is the first entry that passes the test, also in the table at the end. -/
theorem linearRun_found (actions : List Action) : ∀ (types : List Identity),
    ∀ answer ∈ actions.zip (linearRun program types actions).1, ∀ identity index,
      answer.1.requested program = some identity → answer.2 = .ok index →
      (linearRun program types actions).2.findIdx? answer.1.accepts = some index := by
  induction actions with
  | nil => exact fun types answer hmem => absurd hmem not_mem_nil
  | cons action rest ih =>
    intro types answer hmem identity index hrequested hresult
    rw [linearRun] at hmem ⊢
    obtain hfirst | hlater := mem_cons.mp hmem
    · rw [hfirst] at hrequested hresult ⊢
      obtain ⟨more, hmore⟩ := @linearRun_extends program rest (linearStep program types action).2
      rw [hmore]; exact findIdx?_more (linearStep_found hrequested hresult) more
    · exact ih _ answer hlater identity index hrequested hresult

theorem findIdx?_congr {other : Identity → Bool} (h : ∀ shape ∈ types, test shape = other shape) :
    types.findIdx? test = types.findIdx? other := by
  induction types with
  | nil => rfl
  | cons first rest ih =>
    rw [findIdx?_cons, findIdx?_cons, h first (.head _),
      ih fun shape hmem => h shape (.tail _ hmem)]

/-- The test of a lookup is for the identity, where it is not a declaration that asks or the
table is lawful. -/
theorem find_of_test (hrequested : action.requested program = some identity)
    (hexact : action.ofDeclaration = false ∨ Lawful program types) :
    types.findIdx? action.accepts = find types identity := by
  cases action with
  | intern kind symbol arguments => rw [← some.inj hrequested]; rfl
  | build kind symbol arguments => rw [← some.inj hrequested]; rfl
  | append shape => cases hrequested
  | data declaration arguments widths depth =>
    obtain hnot | hlawful := hexact
    · cases hnot
    · rw [← some.inj hrequested]
      exact findIdx?_congr fun shape hmem =>
        nominalTest_eq hlawful declaration arguments widths hmem

theorem find_injective {left right : Identity} (hleft : find types left = some index)
    (hright : find types right = some index) : left = right := by
  obtain ⟨hlt, hfirst, -⟩ := findIdx?_eq_some_iff_getElem.mp hleft
  obtain ⟨_, hsecond, -⟩ := findIdx?_eq_some_iff_getElem.mp hright
  exact (of_decide_eq_true hfirst).symm.trans (of_decide_eq_true hsecond)

/-- Whatever is looked up, built and appended in whatever order: the index answers as a search
    of the whole table with the test of the lookup does, and no key overflows. For a structural
    type, and for every type in a lawful table, this is the first entry with the identity asked
    for, and two answers are the same exactly when the identities are. -/
theorem run_linear (program : Program) (actions : List Action) :
    (∀ symbol arguments widths, ∃ key, typeKey symbol arguments widths = some key) ∧
    ∃ results after, run program start actions = some (results, after) ∧
      linearRun program [] actions = (results, after.types) ∧
      (∀ answer ∈ actions.zip results, ∀ identity index,
        answer.1.requested program = some identity → answer.2 = .ok index →
        after.types.findIdx? answer.1.accepts = some index ∧
        (answer.1.ofDeclaration = false ∨ Lawful program after.types →
          find after.types identity = some index)) ∧
      ∀ first ∈ actions.zip results, ∀ second ∈ actions.zip results, ∀ a b x y,
        first.1.requested program = some a → first.2 = .ok x →
        second.1.requested program = some b → second.2 = .ok y →
        (first.1.ofDeclaration = false ∧ second.1.ofDeclaration = false ∨
          Lawful program after.types) → (x = y ↔ a = b) := by
  constructor
  · intro symbol arguments widths
    obtain ⟨key, hkey, -⟩ := typeKey_eq symbol arguments widths
    exact ⟨key, hkey⟩
  · obtain ⟨results, after, hrun, hlinear⟩ := @run_eq_linearRun program actions _ indexed_start
    have hfound := @linearRun_found program actions []
    have hlinear' : linearRun program [] actions = (results, after.types) := hlinear
    rw [hlinear'] at hfound
    have hanswer : ∀ answer ∈ actions.zip results, ∀ identity index,
        answer.1.requested program = some identity → answer.2 = .ok index →
        after.types.findIdx? answer.1.accepts = some index ∧
        (answer.1.ofDeclaration = false ∨ Lawful program after.types →
          find after.types identity = some index) := by
      intro answer hmem identity index hrequested hresult
      have hindex := hfound answer hmem identity index hrequested hresult
      exact ⟨hindex, fun hexact => by rw [← find_of_test hrequested hexact]; exact hindex⟩
    refine ⟨results, after, hrun, hlinear', hanswer, ?_⟩
    intro first hfirst second hsecond a b x y ha hx hb hy hexact
    have hleft := (hanswer first hfirst a x ha hx).2 (hexact.imp_left And.left)
    have hright := (hanswer second hsecond b y hb hy).2 (hexact.imp_left And.right)
    constructor
    · intro hsame
      rw [← hsame] at hright; exact find_injective hleft hright
    · intro hsame
      rw [← hsame] at hright; exact some.inj (hleft.symm.trans hright)

/-- Every declaration is an enumeration without parameters. -/
def enums : Program := ⟨fun _ => ⟨.enum, -1, 0, 0, 0⟩, fun _ _ => 0⟩

/-- An enumeration is made once, and found again behind a type that was appended. -/
theorem run_linear_enum : ∃ results after,
    run enums start [.append ⟨.int, -1, [], []⟩, .data 5 [] [] 0, .append ⟨.list, -1, [0], []⟩,
      .data 5 [] [] 0] = some (results, after) ∧
    results = [.ok 0, .ok 1, .ok 2, .ok 1] ∧ find after.types ⟨.enum, 5, [], []⟩ = some 1 := by
  obtain ⟨-, results, after, hrun, hlinear, hanswer, -⟩ := run_linear enums
    [.append ⟨.int, -1, [], []⟩, .data 5 [] [] 0, .append ⟨.list, -1, [0], []⟩, .data 5 [] [] 0]
  have hresult := hlinear.symm.trans (show linearRun enums []
    [.append ⟨.int, -1, [], []⟩, .data 5 [] [] 0, .append ⟨.list, -1, [0], []⟩, .data 5 [] [] 0] =
      ([.ok 0, .ok 1, .ok 2, .ok 1],
        [⟨.int, -1, [], []⟩, ⟨.enum, 5, [], []⟩, ⟨.list, -1, [0], []⟩]) from rfl)
  obtain ⟨rfl, htypes⟩ := Prod.mk.inj hresult
  refine ⟨_, after, hrun, rfl, ?_⟩
  refine (hanswer (.data 5 [] [] 0, .ok 1) (by simp) ⟨.enum, 5, [], []⟩ 1 rfl rfl).2 (.inr ?_)
  rw [htypes, Lawful]
  decide

/-- A record that was appended under the number of an enumeration is taken for it. -/
theorem not_run_identity : ¬ ∀ (program : Program) (actions : List Action) results after,
    run program start actions = some (results, after) → ∀ answer ∈ actions.zip results,
      ∀ identity index, answer.1.requested program = some identity → answer.2 = .ok index →
        find after.types identity = some index := by
  intro h
  obtain ⟨results, after, hrun, hlinear⟩ := @run_eq_linearRun enums
    [.append ⟨.record, 5, [], []⟩, .data 5 [] [] 0] _ indexed_start
  obtain ⟨rfl, htypes⟩ := Prod.mk.inj (hlinear.symm.trans (show linearRun enums []
    [.append ⟨.record, 5, [], []⟩, .data 5 [] [] 0] =
      ([.ok 0, .ok 0], [⟨.record, 5, [], []⟩]) from rfl))
  have hfound := h enums _ _ after hrun (.data 5 [] [] 0, .ok 0) (by simp) ⟨.enum, 5, [], []⟩ 0
    rfl rfl
  rw [htypes] at hfound
  exact absurd hfound (by decide)

end Loom.Interning
