import Mathlib.Data.List.Forall2
import Mathlib.Data.List.Nodup
import Loom.Checking.TypeRelations

/-
  What the answers of the type relation mean.

  A substitution gives every parameter, projection and rigid variable a ground type. A
  type denotes a ground type under it, a tree of its own. Two types are equal under a
  substitution when they denote the same tree. Type lambdas denote nothing here.

  The symbol of a dynamic type numbers an instance of an interface. Instances are made once
  for each concept with its bindings, so a substitution changes the number: in a ground type
  the concept stands in its place.

  `type_relation_sound` is the main result, for every table with unique identities: equality
  is answered only for one type with itself, and difference only for types that denote
  different trees under every substitution.
-/

namespace Loom.Relations

open Interning Option

/-! ## Meanings -/

inductive Ground where
  | node (kind : Kind) (symbol : Int) (widths : List Int) (arguments : List Ground)

/-- The symbol that a ground type keeps of a shape. -/
def groundSymbol (concept : Int → Int) (shape : Identity) : Int :=
  if shape.kind = .dyn then concept shape.symbol else shape.symbol

def instantiateAll (instantiate : Int → Option Ground) : List Int → Option (List Ground)
  | [] => some []
  | argument :: rest => do
    let ground ← instantiate argument
    let grounds ← instantiateAll instantiate rest
    return ground :: grounds

/-- The ground type of `ty`, if it is at most `fuel` high. -/
def instantiate (types : List Identity) (concept : Int → Int) (substitution : Int → Ground) :
    Nat → Int → Option Ground
  | 0, _ => none
  | fuel + 1, ty => do
    let shape ← shapeAt types ty
    if unresolved shape.kind then return substitution ty
    else if shape.kind = .family then none
    else do
      let grounds ← instantiateAll (instantiate types concept substitution fuel) shape.arguments
      return .node shape.kind (groundSymbol concept shape) shape.packWidths grounds

def Denotes (types : List Identity) (concept : Int → Int) (substitution : Int → Ground)
    (ty : Int) (ground : Ground) : Prop :=
  ∃ fuel, instantiate types concept substitution fuel ty = some ground

/-- A table as the checker builds it: every identity once, the primitive types first, and
    one instance of an interface for each concept with its bindings. -/
structure Table (concept : Int → Int) where
  types : List Identity
  unique : types.Nodup
  primitive : ∀ shape ∈ types.take 6, unresolved shape.kind = false ∧ shape.arguments = []
  instances : ∀ a ∈ types, ∀ b ∈ types, a.kind = .dyn → b.kind = .dyn →
    concept a.symbol = concept b.symbol → a.arguments = b.arguments → a.symbol = b.symbol

variable {concept : Int → Int}

variable {shape : Identity} {ty : Int} {f : Int → Option Ground} {grounds : List Ground}
  {ground : Ground} {fuel : Nat}

theorem shapeAt_nonneg {types : List Identity} (h : shapeAt types ty = some shape) :
    ∃ index : Nat, ty = index ∧ types[index]? = some shape := by
  rw [shapeAt] at h
  split at h
  · simp at h
  · exact ⟨ty.toNat, by omega, h⟩

theorem mem_of_shapeAt {types : List Identity} (h : shapeAt types ty = some shape) :
    shape ∈ types := by
  obtain ⟨index, -, hindex⟩ := shapeAt_nonneg h
  exact List.mem_of_getElem? hindex

theorem Table.shapeAt_injective (table : Table concept) {a b : Int}
    (ha : shapeAt table.types a = some shape) (hb : shapeAt table.types b = some shape) :
    a = b := by
  obtain ⟨i, rfl, hi⟩ := shapeAt_nonneg ha
  obtain ⟨j, rfl, hj⟩ := shapeAt_nonneg hb
  obtain ⟨hilt, hi⟩ := List.getElem?_eq_some_iff.mp hi
  obtain ⟨hjlt, hj⟩ := List.getElem?_eq_some_iff.mp hj
  have hsame : table.types[i] = table.types[j] := hi.trans hj.symm
  have hij : i = j := (List.Nodup.getElem_inj_iff table.unique).mp hsame
  rw [hij]

theorem Table.shapeAt_primitive (table : Table concept) (hty : ty ≤ 5)
    (h : shapeAt table.types ty = some shape) :
    unresolved shape.kind = false ∧ shape.arguments = [] := by
  obtain ⟨index, rfl, hindex⟩ := shapeAt_nonneg h
  apply table.primitive
  apply List.mem_of_getElem? (i := index)
  rw [List.getElem?_take_of_lt (by omega), hindex]

theorem instantiateAll_eq_some {arguments : List Int} : instantiateAll f arguments = some grounds ↔
      List.Forall₂ (fun argument ground => f argument = some ground) arguments grounds := by
  induction arguments generalizing grounds with
  | nil => simp [instantiateAll]
  | cons argument rest ih =>
    simp only [instantiateAll, bind_eq_bind, bind_eq_some_iff, pure_def,
      some.injEq, List.forall₂_cons_left_iff]
    constructor
    · rintro ⟨ground, hground, grounds, hgrounds, rfl⟩
      exact ⟨ground, grounds, hground, ih.mp hgrounds, rfl⟩
    · rintro ⟨ground, grounds, hground, hgrounds, rfl⟩
      exact ⟨ground, hground, grounds, ih.mpr hgrounds, rfl⟩

section
variable {types : List Identity} {substitution : Int → Ground}
  (h : instantiate types concept substitution fuel ty = some ground)
include h

theorem shape_of_instantiate : ∃ shape, shapeAt types ty = some shape := by
  cases fuel with
  | zero => simp [instantiate] at h
  | succ fuel =>
    obtain ⟨shape, hshape, -⟩ := bind_eq_some_iff.mp h
    exact ⟨shape, hshape⟩

/-- The tree of a type that is neither unresolved nor a lambda. -/
theorem instantiate_eq_some (hshape : shapeAt types ty = some shape)
    (hknown : unresolved shape.kind = false) :
    ∃ below grounds, fuel = below + 1 ∧ shape.kind ≠ .family ∧ List.Forall₂ (fun argument ground =>
        instantiate types concept substitution below argument = some ground)
        shape.arguments grounds ∧
      ground = .node shape.kind (groundSymbol concept shape) shape.packWidths grounds := by
  cases fuel with
  | zero => simp [instantiate] at h
  | succ below =>
    simp only [instantiate, hshape, hknown, bind_eq_bind, bind_some,
      Bool.false_eq_true, if_false] at h
    split at h
    · simp at h
    · next hfamily =>
      obtain ⟨grounds, hgrounds, hground⟩ := bind_eq_some_iff.mp h
      refine ⟨below, grounds, rfl, hfamily, instantiateAll_eq_some.mp hgrounds, ?_⟩
      simpa using hground.symm

end

/-- Arguments with the same trees one by one are the same, if each of them is. -/
theorem forall₂_eq {g : Int → Option Ground} {lefts rights : List Int}
    (same : ∀ left ∈ lefts, ∀ right ∈ rights, ∀ ground, f left = some ground →
      g right = some ground → left = right)
    (hlefts : List.Forall₂ (fun argument ground => f argument = some ground) lefts grounds)
    (hrights : List.Forall₂ (fun argument ground => g argument = some ground) rights grounds) :
    lefts = rights := by
  induction hlefts generalizing rights with
  | nil => cases hrights with | nil => rfl
  | @cons left ground lefts grounds hleft _ ih =>
    cases hrights with
    | @cons right _ rights _ hright hrest =>
      have hhead : left = right := same left (.head _) right (.head _) ground hleft hright
      have htail : lefts = rights :=
        ih (fun left hleft right hright => same left (.tail _ hleft) right (.tail _ hright)) hrest
      rw [hhead, htail]

/-- Arguments with the same trees one by one have a tree in common at each place. -/
theorem forall₂_common {g : Int → Option Ground} {lefts rights : List Int} {pair : Int × Int}
    (hlefts : List.Forall₂ (fun argument ground => f argument = some ground) lefts grounds)
    (hrights : List.Forall₂ (fun argument ground => g argument = some ground) rights grounds)
    (h : pair ∈ lefts.zip rights) : ∃ ground, f pair.1 = some ground ∧ g pair.2 = some ground := by
  induction hlefts generalizing rights with
  | nil => simp at h
  | @cons left ground lefts grounds hleft _ ih =>
    cases hrights with
    | @cons right _ rights _ hright hrest =>
      rcases List.mem_cons.mp h with rfl | h
      · exact ⟨ground, hleft, hright⟩
      · exact ih hrest h

/-- A shape of the table is what it keeps in a ground type. -/
theorem Table.eq_of_parts (table : Table concept) {a b : Identity} (ha : a ∈ table.types)
    (hb : b ∈ table.types) (hkind : a.kind = b.kind)
    (hsymbol : groundSymbol concept a = groundSymbol concept b)
    (harguments : a.arguments = b.arguments) (hwidths : a.packWidths = b.packWidths) : a = b := by
  have hown : a.symbol = b.symbol := by
    by_cases hdyn : a.kind = .dyn
    · have hdyn' : b.kind = .dyn := hkind ▸ hdyn
      apply table.instances a ha b hb hdyn hdyn' _ harguments
      simpa [groundSymbol, hdyn, hdyn'] using hsymbol
    · have hdyn' : b.kind ≠ .dyn := hkind ▸ hdyn
      simpa [groundSymbol, hdyn, hdyn'] using hsymbol
  cases a
  simp_all only

/-! ## Closed types -/

/-- Nothing unresolved in `reached`, and every argument of it that is not under a lambda. -/
def Sealed (types : List Identity) (reached : Int → Prop) : Prop :=
  ∀ ty shape, reached ty → shapeAt types ty = some shape →
    unresolved shape.kind = false ∧
      (shape.kind = .family ∨ ∀ argument ∈ shape.arguments, reached argument)

def Closed (types : List Identity) (ty : Int) : Prop :=
  ∃ reached, Sealed types reached ∧ reached ty

/-- Types that the search goes through without looking at their arguments. -/
def Leaf (types : List Identity) (ty : Int) : Prop :=
  ty ≤ 5 ∨ ∃ shape, shapeAt types ty = some shape ∧ shape.kind = .family

/-- `ty` is resolved, and its arguments are leaves or among those seen. -/
def Expanded (types : List Identity) (seen : List Int) (ty : Int) : Prop :=
  ∀ shape, shapeAt types ty = some shape → unresolved shape.kind = false ∧
    ∀ argument ∈ shape.arguments, Leaf types argument ∨ argument ∈ seen

variable {types : List Identity}

theorem Expanded.more {seen after : List Int} {ty : Int} (h : Expanded types seen ty)
    (hsub : seen ⊆ after) : Expanded types after ty := by
  intro shape hshape
  obtain ⟨hknown, hargs⟩ := h shape hshape
  exact ⟨hknown, fun argument hargument => (hargs argument hargument).imp_right (@hsub argument)⟩

theorem Table.sealed_of_expanded (table : Table concept) {seen : List Int}
    (h : ∀ ty ∈ seen, Expanded table.types seen ty) :
    Sealed table.types (fun ty => Leaf table.types ty ∨ ty ∈ seen) := by
  rintro ty shape ((hsmall | ⟨family, hfamily, hkind⟩) | hseen) hshape
  · obtain ⟨hknown, hnone⟩ := table.shapeAt_primitive hsmall hshape
    exact ⟨hknown, Or.inr (by simp [hnone])⟩
  · obtain rfl : family = shape := by simpa [hfamily] using hshape
    exact ⟨by simp [unresolved, hkind], Or.inl hkind⟩
  · obtain ⟨hknown, hargs⟩ := h ty hseen shape hshape
    exact ⟨hknown, Or.inr hargs⟩

/-- What a search from `ty` that found nothing unresolved has added to the types seen. -/
structure Searched (types : List Identity) (seen after : List Int) : Prop where
  grows : seen ⊆ after
  expanded : ∀ ty ∈ after, ty ∈ seen ∨ Expanded types after ty

theorem Searched.refl (seen : List Int) : Searched types seen seen :=
  ⟨fun _ h => h, fun _ h => Or.inl h⟩

variable {after : List Int}

theorem Searched.trans {seen between : List Int} (first : Searched types seen between)
    (second : Searched types between after) : Searched types seen after := by
  refine ⟨fun ty h => second.grows (first.grows h), fun ty hty => ?_⟩
  rcases second.expanded ty hty with hbetween | hexpanded
  · exact (first.expanded ty hbetween).imp_right fun h => h.more second.grows
  · exact Or.inr hexpanded

theorem allConcrete_searched {walk : Int → List Int → Option (Bool × List Int)}
    (step : ∀ ty seen after, walk ty seen = some (true, after) →
      Searched types seen after ∧ (Leaf types ty ∨ ty ∈ after)) :
    ∀ (arguments : List Int) (seen after : List Int),
      allConcrete walk arguments seen = some (true, after) →
      Searched types seen after ∧ ∀ ty ∈ arguments, Leaf types ty ∨ ty ∈ after
  | [], seen, after, h => by
    obtain rfl : seen = after := by simpa [allConcrete] using h
    exact ⟨Searched.refl seen, by simp⟩
  | argument :: rest, seen, after, h => by
    obtain ⟨⟨concrete, between⟩, hwalk, hrest⟩ := bind_eq_some_iff.mp h
    cases concrete with
    | false => simp at hrest
    | true =>
      obtain ⟨hfirst, hargument⟩ := step argument seen between hwalk
      obtain ⟨hsecond, harguments⟩ := allConcrete_searched step rest between after hrest
      refine ⟨hfirst.trans hsecond, ?_⟩
      intro ty hty
      rcases List.mem_cons.mp hty with rfl | hty
      · exact hargument.imp_right fun h => hsecond.grows h
      · exact harguments ty hty

variable {remaining : Nat}

theorem concreteIn_searched {seen : List Int}
    (h : concreteIn types remaining ty seen = some (true, after)) :
    Searched types seen after ∧ (Leaf types ty ∨ ty ∈ after) := by
  induction remaining generalizing ty seen after with
  | zero =>
    rw [concreteIn] at h
    split at h
    · next hsmall =>
      obtain rfl : seen = after := by simpa using h
      exact ⟨Searched.refl seen, Or.inl (Or.inl hsmall)⟩
    · simp at h
  | succ remaining ih =>
    rw [concreteIn] at h
    split at h
    · next hsmall =>
      obtain rfl : seen = after := by simpa using h
      exact ⟨Searched.refl seen, Or.inl (Or.inl hsmall)⟩
    · obtain ⟨shape, hshape, h⟩ := bind_eq_some_iff.mp h
      split at h
      · simp at h
      · next hknown =>
        split at h
        · next hfamily =>
          obtain ⟨closed, -, h⟩ := bind_eq_some_iff.mp h
          obtain ⟨-, rfl⟩ : closed = true ∧ seen = after := by simpa using h
          exact ⟨Searched.refl seen, Or.inl (Or.inr ⟨shape, hshape, hfamily⟩)⟩
        · split at h
          · next hseen =>
            obtain rfl : seen = after := by simpa using h
            exact ⟨Searched.refl seen, Or.inr hseen⟩
          · obtain ⟨hsearched, harguments⟩ :=
              allConcrete_searched (fun _ _ _ => ih) shape.arguments _ after h
            have hty : ty ∈ after := hsearched.grows (by simp)
            refine ⟨⟨fun other hother => hsearched.grows (by simp [hother]), ?_⟩, Or.inr hty⟩
            intro other hother
            rcases hsearched.expanded other hother with hold | hexpanded
            · rcases List.mem_append.mp hold with hold | hnew
              · exact Or.inl hold
              · -- the type itself: its arguments have all been searched by now
                obtain rfl := List.mem_singleton.mp hnew
                refine Or.inr fun found hfound => ?_
                obtain rfl : shape = found := by simpa [hshape] using hfound
                exact ⟨by simpa using hknown, harguments⟩
            · exact Or.inr hexpanded

theorem Table.concreteIn_closed (table : Table concept)
    (h : concreteIn table.types remaining ty [] = some (true, after)) : Closed table.types ty := by
  obtain ⟨hsearched, hty⟩ := concreteIn_searched h
  refine ⟨_, @Table.sealed_of_expanded _ table after fun other hother => ?_, hty⟩
  exact (hsearched.expanded other hother).resolve_left (by simp)

theorem Closed.of_argument {first : Int} (hshape : shapeAt types ty = some shape)
    (hknown : unresolved shape.kind = false) (hargs : shape.arguments = [first])
    (h : Closed types first) : Closed types ty := by
  obtain ⟨reached, hsealed, hfirst⟩ := h
  refine ⟨fun other => reached other ∨ other = ty, ?_, Or.inr rfl⟩
  rintro other found (hother | rfl) hfound
  · obtain ⟨hopen, hrest⟩ := hsealed other found hother hfound
    exact ⟨hopen, hrest.imp_right fun h argument hargument => Or.inl (h argument hargument)⟩
  · obtain rfl : shape = found := by simpa [hshape] using hfound
    exact ⟨hknown, Or.inr (by simp [hargs, hfirst])⟩

theorem Closed.of_leaf (h : ∀ shape, shapeAt types ty = some shape →
    unresolved shape.kind = false ∧ (shape.kind = .family ∨ shape.arguments = [])) :
    Closed types ty := by
  refine ⟨fun other => other = ty, ?_, rfl⟩
  rintro other shape rfl hshape
  obtain ⟨hknown, hnone⟩ := h shape hshape
  exact ⟨hknown, hnone.imp_right fun h => by simp [h]⟩

theorem Closed.of_shape (hshape : shapeAt types ty = some shape)
    (h : unresolved shape.kind = false ∧ (shape.kind = .family ∨ shape.arguments = [])) :
    Closed types ty := by
  apply Closed.of_leaf
  intro found hfound
  obtain rfl : shape = found := by simpa [hshape] using hfound
  exact h

theorem Table.concreteFrom_closed (table : Table concept)
    (h : concreteFrom table.types remaining ty = some true) : Closed table.types ty := by
  induction remaining generalizing ty with
  | zero =>
    rw [concreteFrom] at h
    split at h
    · next hsmall => exact Closed.of_leaf fun shape hshape =>
        (table.shapeAt_primitive hsmall hshape).imp_right Or.inr
    · obtain ⟨shape, hshape, h⟩ := bind_eq_some_iff.mp h
      apply Closed.of_shape hshape
      split at h
      · simp at h
      · next hknown =>
        refine ⟨by simpa using hknown, ?_⟩
        split at h
        · next hfamily => exact Or.inl hfamily
        · exact Or.inr (by simpa using h)
  | succ remaining ih =>
    rw [concreteFrom] at h
    split at h
    · next hsmall => exact Closed.of_leaf fun shape hshape =>
        (table.shapeAt_primitive hsmall hshape).imp_right Or.inr
    · obtain ⟨shape, hshape, h⟩ := bind_eq_some_iff.mp h
      split at h
      · simp at h
      · next hknown =>
        have hknown : unresolved shape.kind = false := by simpa using hknown
        split at h
        · next hfamily => exact Closed.of_shape hshape ⟨hknown, Or.inl hfamily⟩
        · dsimp only at h
          split at h
          · next hnone => exact Closed.of_shape hshape ⟨hknown, Or.inr hnone⟩
          · next first hone => exact Closed.of_argument hshape hknown hone (ih h)
          · obtain ⟨⟨concrete, after⟩, hconcrete, h⟩ := bind_eq_some_iff.mp h
            obtain rfl : concrete = true := by simpa using h
            exact table.concreteIn_closed hconcrete

theorem Table.concreteType_closed (table : Table concept)
    (h : concreteType table.types ty = some true) : Closed table.types ty :=
  table.concreteFrom_closed h

/-- Closed types denote one tree, whatever the substitutions are, only when they are one. -/
theorem Table.closed_injective (table : Table concept) {first second : Int → Ground} {a b : Int}
    {m n : Nat} (ha : Closed table.types a) (hb : Closed table.types b)
    (hleft : instantiate table.types concept first m a = some ground)
    (hright : instantiate table.types concept second n b = some ground) : a = b := by
  induction m generalizing a b n ground with
  | zero => simp [instantiate] at hleft
  | succ m ih =>
    obtain ⟨reached, hsealed, hreached⟩ := ha
    obtain ⟨reached', hsealed', hreached'⟩ := hb
    obtain ⟨shape, hshape⟩ := shape_of_instantiate hleft
    obtain ⟨shape', hshape'⟩ := shape_of_instantiate hright
    obtain ⟨hknown, hargs⟩ := hsealed a shape hreached hshape
    obtain ⟨hknown', hargs'⟩ := hsealed' b shape' hreached' hshape'
    obtain ⟨m', grounds, hm, hfamily, hgrounds, rfl⟩ := instantiate_eq_some hleft hshape hknown
    obtain ⟨n', grounds', -, hfamily', hgrounds', hsame⟩ :=
      instantiate_eq_some hright hshape' hknown'
    obtain rfl : m = m' := by omega
    obtain ⟨hkind, hsymbol, hwidths, rfl⟩ := by simpa using hsame
    -- the arguments are closed as well and denote the same trees one by one
    have harguments : shape.arguments = shape'.arguments :=
      forall₂_eq (fun argument hmem argument' hmem' ground hground hground' =>
        ih ⟨reached, hsealed, hargs.resolve_left hfamily argument hmem⟩
          ⟨reached', hsealed', hargs'.resolve_left hfamily' argument' hmem'⟩ hground hground')
        hgrounds hgrounds'
    have hshapes : shape = shape' :=
      table.eq_of_parts (mem_of_shapeAt hshape) (mem_of_shapeAt hshape') hkind hsymbol
        harguments hwidths
    rw [hshapes] at hshape; exact table.shapeAt_injective hshape hshape'

/-! ## The answers -/

/-- Two types that no substitution makes one. -/
def Apart (types : List Identity) (concept : Int → Int) (left right : Int) : Prop :=
  ∀ substitution ground, Denotes types concept substitution left ground →
    ¬ Denotes types concept substitution right ground

/-- What an answer promises. -/
structure Sound (types : List Identity) (concept : Int → Int) (left right relation : Int) :
    Prop where
  range : relation = 1 ∨ relation = 0 ∨ relation = -1
  equal : relation = 1 → left = right
  distinct : relation = 0 → Apart types concept left right

def SoundMemo (types : List Identity) (concept : Int → Int) (seen : List TypeComparison) : Prop :=
  ∀ found ∈ seen, Sound types concept found.left found.right found.relation

variable {left right : Int} {a b : Identity}

theorem Sound.unknown : Sound types concept left right (-1) :=
  ⟨Or.inr (Or.inr rfl), fun h => by simp at h, fun h => by simp at h⟩

theorem Sound.apart (h : Apart types concept left right) : Sound types concept left right 0 :=
  ⟨Or.inr (Or.inl rfl), fun h => by simp at h, fun _ => h⟩

/-- Two types that may denote one tree have shapes that agree, and arguments that may. -/
theorem apart_of_shapes (ha : shapeAt types left = some a) (hb : shapeAt types right = some b)
    (hknown : unresolved a.kind = false) (hknown' : unresolved b.kind = false)
    (h : a.kind = b.kind → groundSymbol concept a = groundSymbol concept b →
      a.packWidths = b.packWidths → a.arguments.length = b.arguments.length →
      ∃ pair ∈ a.arguments.zip b.arguments, Apart types concept pair.1 pair.2) :
    Apart types concept left right := by
  rintro substitution ground ⟨m, hm⟩ ⟨n, hn⟩
  obtain ⟨m', grounds, rfl, -, hgrounds, rfl⟩ := instantiate_eq_some hm ha hknown
  obtain ⟨n', grounds', rfl, -, hgrounds', hsame⟩ := instantiate_eq_some hn hb hknown'
  obtain ⟨hkind, hsymbol, hwidths, rfl⟩ := by simpa using hsame
  have hlength : a.arguments.length = b.arguments.length :=
    hgrounds.length_eq.trans hgrounds'.length_eq.symm
  obtain ⟨pair, hpair, hapart⟩ := h hkind hsymbol hwidths hlength
  obtain ⟨ground, hfirst, hsecond⟩ := forall₂_common hgrounds hgrounds' hpair
  exact hapart substitution ground ⟨m', hfirst⟩ ⟨n', hsecond⟩

theorem uncertain_eq_false (h : uncertain types left right = some false) :
    concreteType types left = some true ∧ concreteType types right = some true := by
  obtain ⟨first, hfirst, h⟩ := bind_eq_some_iff.mp h
  cases first with
  | false => simp at h
  | true =>
    obtain ⟨second, hsecond, h⟩ := bind_eq_some_iff.mp h
    cases second with
    | false => simp at h
    | true => exact ⟨hfirst, hsecond⟩

/-- Closed dynamic types of different instances are never the same type. -/
theorem Table.apart_of_concrete (table : Table concept)
    (hleft : concreteType table.types left = some true)
    (hright : concreteType table.types right = some true) (hne : left ≠ right) :
    Apart table.types concept left right := by
  rintro substitution ground ⟨m, hm⟩ ⟨n, hn⟩
  exact hne (table.closed_injective (table.concreteType_closed hleft)
    (table.concreteType_closed hright) hm hn)

variable {relation : Int}

theorem Table.decided_sound (table : Table concept) (ha : shapeAt table.types left = some a)
    (hb : shapeAt table.types right = some b)
    (h : decided table.types left right a b = some (some relation)) :
    Sound table.types concept left right relation := by
  rw [decided] at h
  split at h
  · obtain rfl : -1 = relation := by simpa using h
    exact Sound.unknown
  · next hknown =>
    obtain ⟨hknown, hknown'⟩ : unresolved a.kind = false ∧ unresolved b.kind = false := by
      simpa using hknown
    split at h
    · next hkind =>
      obtain rfl : 0 = relation := by simpa using h
      exact Sound.apart (apart_of_shapes ha hb hknown hknown' fun h => absurd h hkind)
    · next hkind =>
      have hkind : a.kind = b.kind := by simpa using hkind
      split at h
      · next hsymbol =>
        obtain ⟨answer, hanswer, h⟩ := bind_eq_some_iff.mp h
        obtain rfl : answer = relation := by simpa using h
        rw [symbolRelation] at hanswer
        split at hanswer
        · obtain ⟨unknown, hunknown, hanswer⟩ := bind_eq_some_iff.mp hanswer
          cases unknown with
          | true =>
            obtain rfl : -1 = answer := by simpa using hanswer
            exact Sound.unknown
          | false =>
            obtain rfl : 0 = answer := by simpa using hanswer
            obtain ⟨hleft, hright⟩ := uncertain_eq_false hunknown
            refine Sound.apart (table.apart_of_concrete hleft hright ?_)
            rintro rfl
            obtain rfl : a = b := by simpa [ha] using hb
            exact hsymbol rfl
        · next hdyn =>
          obtain rfl : 0 = answer := by simpa using hanswer
          refine Sound.apart (apart_of_shapes ha hb hknown hknown' fun _ hground => ?_)
          have hdyn' : b.kind ≠ .dyn := hkind ▸ hdyn
          exact absurd (by simpa [groundSymbol, hdyn, hdyn'] using hground) hsymbol
      · split at h
        · next hparts =>
          obtain rfl : 0 = relation := by simpa using h
          refine Sound.apart (apart_of_shapes ha hb hknown hknown' fun _ _ hwidths hlength => ?_)
          simp [hwidths, hlength] at hparts
        · simp at h

/-- Shapes that leave it to their arguments agree in everything else. -/
theorem decided_eq_none (h : decided types left right a b = some none) :
    unresolved a.kind = false ∧ unresolved b.kind = false ∧ a.kind = b.kind ∧
      a.symbol = b.symbol ∧ a.arguments.length = b.arguments.length ∧
      a.packWidths = b.packWidths := by
  rw [decided] at h
  split at h
  · simp at h
  · next hknown =>
    split at h
    · simp at h
    · next hkind =>
      split at h
      · obtain ⟨_, _, h⟩ := bind_eq_some_iff.mp h
        simp at h
      · next hsymbol =>
        split at h
        · simp at h
        · next hparts =>
          simp only [Bool.or_eq_true, not_or, Bool.not_eq_true] at hknown
          simp only [Bool.or_eq_true, decide_eq_true_eq, not_or, not_not] at hparts
          exact ⟨hknown.1, hknown.2, not_not.mp hkind, not_not.mp hsymbol, hparts.1, hparts.2⟩

theorem relateArguments_sound
    {relate : Int → Int → List TypeComparison → Option (Int × List TypeComparison)}
    (step : ∀ left right seen relation after, relate left right seen = some (relation, after) →
      SoundMemo types concept seen →
      Sound types concept left right relation ∧ SoundMemo types concept after) :
    ∀ (lefts rights : List Int) (start : Int) (seen : List TypeComparison) (relation : Int)
      (after : List TypeComparison), lefts.length = rights.length →
      (start = 1 ∨ start = 0 ∨ start = -1) →
      relateArguments relate lefts rights start seen = some (relation, after) →
      SoundMemo types concept seen →
      SoundMemo types concept after ∧ (relation = 1 ∨ relation = 0 ∨ relation = -1) ∧
        (relation = 1 → start = 1 ∧ lefts = rights) ∧ (relation = 0 → start = 0 ∨
          ∃ pair ∈ lefts.zip rights, Apart types concept pair.1 pair.2)
  | [], [], start, seen, relation, after, _, hstart, h, hseen => by
    obtain ⟨rfl, rfl⟩ : start = relation ∧ seen = after := by simpa [relateArguments] using h
    exact ⟨hseen, hstart, fun h => ⟨h, rfl⟩, Or.inl⟩
  | left :: lefts, right :: rights, start, seen, relation, after, hlength, hstart, h, hseen => by
    simp only [relateArguments] at h
    split at h
    · next hzero =>
      obtain ⟨rfl, rfl⟩ : start = relation ∧ seen = after := by simpa using h
      exact ⟨hseen, hstart, fun h => by omega, Or.inl⟩
    · next hzero =>
      obtain ⟨⟨current, between⟩, hcurrent, hrest⟩ := bind_eq_some_iff.mp h
      obtain ⟨hsound, hbetween⟩ := step left right seen current between hcurrent hseen
      have hcombine : combine start current = 1 ∨ combine start current = 0 ∨
          combine start current = -1 := by
        rw [combine]
        split <;> [simp; split <;> [simp; exact hstart]]
      obtain ⟨hafter, hrange, hone, hnone⟩ := relateArguments_sound step lefts rights _ between
        relation after (by simpa using hlength) hcombine hrest hbetween
      refine ⟨hafter, hrange, fun h => ?_, fun h => Or.inr ?_⟩
      · obtain ⟨hstart', hlefts⟩ := hone h
        rw [combine] at hstart'
        split at hstart'
        · simp at hstart'
        · split at hstart'
          · simp at hstart'
          · have hcurrent : current = 1 := by have := hsound.range; omega
            exact ⟨hstart', by rw [hsound.equal hcurrent, hlefts]⟩
      · rcases hnone h with hcurrent | ⟨pair, hpair, hapart⟩
        · refine ⟨(left, right), by simp, hsound.distinct ?_⟩
          rw [combine] at hcurrent
          split at hcurrent
          · assumption
          · split at hcurrent
            · simp at hcurrent
            · exact absurd hcurrent hzero
        · exact ⟨pair, by simp [hpair], hapart⟩

theorem Table.relationIn_sound (table : Table concept) {seen after : List TypeComparison}
    (h : relationIn table.types remaining left right seen = some (relation, after))
    (hseen : SoundMemo table.types concept seen) :
    Sound table.types concept left right relation ∧ SoundMemo table.types concept after := by
  induction remaining generalizing left right relation seen after with
  | zero =>
    rw [relationIn] at h
    split at h
    · next heq =>
      obtain ⟨rfl, rfl⟩ : 1 = relation ∧ seen = after := by simpa using h
      exact ⟨⟨Or.inl rfl, fun _ => heq, fun h => by simp at h⟩, hseen⟩
    · obtain ⟨rfl, rfl⟩ : -1 = relation ∧ seen = after := by simpa using h
      exact ⟨Sound.unknown, hseen⟩
  | succ remaining ih =>
    rw [relationIn] at h
    split at h
    · next heq =>
      obtain ⟨rfl, rfl⟩ : 1 = relation ∧ seen = after := by simpa using h
      exact ⟨⟨Or.inl rfl, fun _ => heq, fun h => by simp at h⟩, hseen⟩
    · obtain ⟨a, ha, h⟩ := bind_eq_some_iff.mp h
      obtain ⟨b, hb, h⟩ := bind_eq_some_iff.mp h
      obtain ⟨said, hsaid, h⟩ := bind_eq_some_iff.mp h
      cases said with
      | some said =>
        obtain ⟨rfl, rfl⟩ : said = relation ∧ seen = after := by simpa using h
        exact ⟨table.decided_sound ha hb hsaid, hseen⟩
      | none =>
        dsimp only at h
        split at h
        · next found hfound =>
          obtain ⟨rfl, rfl⟩ : found.relation = relation ∧ seen = after := by simpa using h
          obtain ⟨rfl, rfl⟩ : found.left = left ∧ found.right = right := by
            simpa using List.find?_some hfound
          exact ⟨hseen found (List.mem_of_find?_eq_some hfound), hseen⟩
        · obtain ⟨⟨answer, between⟩, hanswer, h⟩ := bind_eq_some_iff.mp h
          obtain ⟨rfl, rfl⟩ : answer = relation ∧
              between ++ [{ left := left, right := right, relation := answer }] = after := by
            simpa using h
          obtain ⟨hknown, hknown', hkind, hsymbol, hlength, hwidths⟩ := decided_eq_none hsaid
          obtain ⟨hbetween, hrange, hone, hnone⟩ :=
            relateArguments_sound (fun _ _ _ _ _ => ih) _ _ _ _ _ _ hlength (Or.inl rfl) hanswer
              hseen
          have hsound : Sound table.types concept left right answer := by
            refine ⟨hrange, fun h => ?_, fun h => ?_⟩
            · obtain ⟨-, harguments⟩ := hone h
              have hshapes : a = b :=
                table.eq_of_parts (mem_of_shapeAt ha) (mem_of_shapeAt hb) hkind
                  (by simp [groundSymbol, hkind, hsymbol]) harguments hwidths
              exact table.shapeAt_injective ha (hshapes ▸ hb)
            · apply apart_of_shapes ha hb hknown hknown'
              intro _ _ _ _; exact (hnone h).resolve_left (by simp)
          refine ⟨hsound, fun found hfound => ?_⟩
          rcases List.mem_append.mp hfound with hold | hnew
          · exact hbetween found hold
          · obtain rfl := List.mem_singleton.mp hnew
            exact hsound

theorem Table.typeRelation_sound (table : Table concept)
    (h : typeRelation table.types left right = some relation) :
    Sound table.types concept left right relation := by
  rw [typeRelation] at h
  split at h
  · next heq =>
    obtain rfl : 1 = relation := by simpa using h
    exact ⟨Or.inl rfl, fun _ => heq, fun h => by simp at h⟩
  · obtain ⟨⟨answer, after⟩, hanswer, h⟩ := bind_eq_some_iff.mp h
    obtain rfl : answer = relation := by simpa using h
    exact (table.relationIn_sound hanswer (by simp [SoundMemo])).1

/-- 1 means equal under every substitution and 0 different under every one. The memo changes
    no answer of a comparison that stays above the last level. -/
theorem type_relation_sound (table : Table concept) (left right : Int) :
    (typeRelation table.types left right = some 1 → ∀ substitution ground,
      Denotes table.types concept substitution left ground ↔
        Denotes table.types concept substitution right ground) ∧
    (typeRelation table.types left right = some 0 → ∀ substitution ground,
      Denotes table.types concept substitution left ground →
        ¬ Denotes table.types concept substitution right ground) ∧
    (∀ relation, plainRelation table.types left right = some (relation, false) →
      typeRelation table.types left right = some relation) := by
  refine ⟨fun h substitution ground => ?_, fun h => ?_, fun relation h => typeRelation_plain h⟩
  · rw [(table.typeRelation_sound h).equal rfl]
  · exact (table.typeRelation_sound h).distinct rfl

/-! ## Types that are too deep for the memo -/

/-- `List` around `ty`, `count` times, at the end of a table. -/
def wrapped (types : List Identity) (ty : Int) : Nat → List Identity
  | 0 => types
  | count + 1 =>
    let (next, types) := appendStructuralType types .list (-1) [ty]
    wrapped types next count

def primitives : List Identity :=
  [Kind.unit, .int, .bool, .text, .bytes, .float].map fun kind =>
    { kind := kind, symbol := -1, arguments := [], packWidths := [] }

/-- Two tuples. The first components wrap `Int` and `Bool` 70 times, the second 10 times: the
    second components are met in the first ones, where only four levels are left. -/
def deepTypes : List Identity :=
  let types := wrapped (wrapped primitives 1 10) 2 10
  let types := wrapped (wrapped types 15 60) 25 60
  let (_, types) := appendStructuralType types .tuple (-1) [85, 15]
  let (_, types) := appendStructuralType types .tuple (-1) [145, 25]
  types

/-- What `wrapped` appends to `place` types. -/
def chain (ty : Int) (place : Nat) : Nat → List Identity
  | 0 => []
  | count + 1 =>
    { kind := .list, symbol := -1, arguments := [ty], packWidths := [] } ::
      chain place (place + 1) count

theorem wrapped_eq (types : List Identity) (ty : Int) (count : Nat) :
    wrapped types ty count = types ++ chain ty types.length count := by
  induction count generalizing types ty with
  | zero => simp [wrapped, chain]
  | succ count ih => simp [wrapped, appendStructuralType, ih, chain]

theorem chain_length (ty : Int) (place count : Nat) : (chain ty place count).length = count := by
  induction count generalizing ty place with
  | zero => rfl
  | succ count ih => rw [chain, List.length_cons, ih]

theorem deepTypes_eq : deepTypes = primitives ++ chain 1 6 10 ++ chain 2 16 10 ++ chain 15 26 60 ++
    chain 25 86 60 ++ [{ kind := .tuple, symbol := -1, arguments := [85, 15], packWidths := [] },
      { kind := .tuple, symbol := -1, arguments := [145, 25], packWidths := [] }] := by
  simp [deepTypes, wrapped_eq, appendStructuralType, chain_length, primitives]

/-- Primitives are told apart by their kinds and all others by their first arguments: those of a
chain increase, once the first of the chain stands for the last of the one before. -/
theorem deepTypes_nodup : deepTypes.Nodup := by
  apply List.Nodup.of_map fun shape : Identity => match shape.arguments with
    | [] => (shape.kind.ctorIdx : Int) - 100
    | first :: _ => ([(1, 5), (2, 15), (15, 25), (25, 85), (85, 145), (145, 146)].lookup first).getD first
  rw [deepTypes_eq]
  refine List.Pairwise.imp Int.ne_of_lt (List.isChain_iff_pairwise.mp ?_)
  decide +kernel

theorem deepTypes_kinds : ∀ shape ∈ deepTypes, shape.kind ≠ .dyn := by
  rw [deepTypes_eq]; decide +kernel

def deepTable : Table id where
  types := deepTypes
  unique := deepTypes_nodup
  primitive := by rw [deepTypes_eq]; decide
  instances a ha _ _ hdyn := absurd hdyn (deepTypes_kinds a ha)

theorem type_relation_sound_lists : typeRelation deepTypes 6 16 = some 0 ∧
    ∀ substitution ground, Denotes deepTypes id substitution 6 ground →
      ¬ Denotes deepTypes id substitution 16 ground := by
  have h : typeRelation deepTypes 6 16 = some 0 := by
    rw [deepTypes_eq]; decide
  exact ⟨h, (type_relation_sound deepTable 6 16).2.1 h⟩

/-- Near the last level the second components stay unknown, and the memo keeps that. -/
theorem memo_keeps_unknown :
    ¬ ∀ (concept : Int → Int) (table : Table concept) (left right relation : Int) (cut : Bool),
      plainRelation table.types left right = some (relation, cut) →
      typeRelation table.types left right = some relation := by
  intro h
  have hplain : plainRelation deepTypes 146 147 = some (0, true) := by
    rw [deepTypes_eq]; decide +kernel
  have hmemo : typeRelation deepTypes 146 147 = some (-1) := by
    rw [deepTypes_eq]; decide +kernel
  have hsame := h id deepTable 146 147 0 true hplain
  have hboth : some (-1) = some (0 : Int) := hmemo.symm.trans hsame
  simp at hboth

end Loom.Relations
