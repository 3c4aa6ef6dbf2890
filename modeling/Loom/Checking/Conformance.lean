import Loom.Checking.Overlap

/-
  Coherence of implementations: what the pairwise overlap check of the headers
  guarantees of the implementation selected for a type.

  Headers are resolved (`state >= 2`) and none belongs to a pack family. A
  substitution that exceeds the depth limit makes the source reject the whole
  table, so the tables accepted there are accepted here.

  Correspondence (loom ↔ Lean), where names differ:
    `conformance.conformance` ↔ `tested`, `select`, `conformance`
    `associated.conformance_headers` ↔ `conformanceHeaders` (the overlap loop)

  The selection is coherent exactly at the types that no parameterised header
  takes by weakening a refinement.
-/

namespace Loom.Checking

open Templates Templates.Template List

/-- The resolved implementation headers of a program, in source order. -/
structure Headers where
  refinements : Refinements
  implementations : List Implementation

/-- The selected implementation, -1 in the source where there is none. -/
structure Conformance where
  implementation : Option Nat
  arguments : Arguments
  deriving DecidableEq

/-- The implementations listed under a concept. -/
def implementationsOf (env : Headers) (capability : Int) : List Nat :=
  (range env.implementations.length).filter fun index =>
    (env.implementations[index]?.map Implementation.capability) = some capability

/-- The test `conformance` makes of one header. -/
def tested (env : Headers) (header : Implementation) (ty : Ty) : Option Arguments :=
  if header.count ≠ 0 ∨ header.ty = ty then
    let start : Arguments := replicate header.count none
    let inferred :=
      if header.count = 0 then (true, start) else infer env.refinements header.ty ty start
    if inferred.1 && complete inferred.2 then some inferred.2 else none
  else none

def select (env : Headers) (ty : Ty) : List Nat → Conformance
  | [] => ⟨none, []⟩
  | selected :: rest =>
      match (env.implementations[selected]?).bind fun header => tested env header ty with
      | some arguments => ⟨some selected, arguments⟩
      | none => select env ty rest

def conformance (env : Headers) (ty : Ty) (capability : Int) : Conformance :=
  select env ty (implementationsOf env capability)

/-- The overlap check over all pairs of headers of one concept. -/
def conformanceHeaders (fuel : Nat) (env : Headers) : Option (Except String Bool) := do
  let overlaps ← (range env.implementations.length).anyM fun index =>
    (range index).anyM fun previous =>
      match env.implementations[previous]?, env.implementations[index]? with
      | some other, some header =>
          if other.capability = header.capability then overlapping fuel other header
          else some false
      | _, _ => some false
  pure (if overlaps then .error "overlapping implementations for this concept" else .ok true)

/-- The table passes the overlap check. -/
def Accepted (env : Headers) : Prop :=
  ∃ fuel, conformanceHeaders fuel env = some (.ok true)

/-- An implementation of the table passes the test for a type. -/
def Matched (env : Headers) (ty : Ty) (selected : Nat) : Prop :=
  ∃ header arguments, env.implementations[selected]? = some header ∧
    tested env header ty = some arguments

/-- What a selection of implementations owes to its users. -/
structure Coherent (env : Headers) (capability : Int) (ty : Ty) : Prop where
  unique : ∀ first ∈ implementationsOf env capability, ∀ second ∈ implementationsOf env capability,
    Matched env ty first → Matched env ty second → first = second
  order : ∀ implementations, List.Perm implementations (implementationsOf env capability) →
    select env ty implementations = conformance env ty capability
  exact : ∀ selected header, (conformance env ty capability).implementation = some selected →
    env.implementations[selected]? = some header →
    instantiate header.ty (conformance env ty capability).arguments = ty

/-! ## The test of one header -/

variable {env : Headers} {header : Implementation} {ty : Ty} {capability : Int}

theorem tested_fits {arguments : Arguments} (htested : tested env header ty = some arguments) :
    Fits env.refinements (argument arguments) header.ty ty ∧
      (header.count = 0 → header.ty = ty) := by
  unfold tested at htested
  by_cases hnone : header.count = 0
  · -- an ordinary implementation is compared, not inferred
    have hty : header.ty = ty := by
      by_contra hne
      simp [hnone, hne] at htested
    have hfits := fits_substitute env.refinements (argument arguments) header.ty
    have hclosed : substitute (argument arguments) header.ty = header.ty := by
      calc substitute (argument arguments) header.ty
          = substitute .parameter header.ty := substitute_congr _ fun index hindex =>
            absurd (header.within index hindex) (by omega)
        _ = header.ty := substitute_self header.ty
    rw [hclosed] at hfits; exact ⟨hty ▸ hfits, fun _ => hty⟩
  · rw [if_pos (Or.inl hnone)] at htested
    simp only [if_neg hnone] at htested
    split at htested
    case isTrue hboth =>
      cases htested
      have hinfer : infer env.refinements header.ty ty (replicate header.count none) =
          (true, (infer env.refinements header.ty ty (replicate header.count none)).2) :=
        Prod.ext (Bool.and_eq_true_iff.mp hboth).1 rfl
      have hsound := infer_sound env.refinements header.ty ty _ _
        (by rw [length_replicate]; exact header.within) hinfer
      exact ⟨hsound.2 _ (agrees_argument _), fun hzero => absurd hzero hnone⟩
    case isFalse => cases htested

theorem tested_of_fits {values : Nat → Ty} (hcount : header.count ≠ 0)
    (hfits : Fits env.refinements values header.ty ty) :
    ∃ arguments, tested env header ty = some arguments := by
  have hagrees : Agrees values (replicate header.count none) := by
    intro index bound hbound
    simp [getElem?_replicate] at hbound
    split at hbound <;> simp at hbound
  obtain ⟨after, hinfer, hextends, -, hbinds⟩ := infer_complete env.refinements header.ty values ty _
    (by rw [length_replicate]; exact header.within) hagrees hfits
  have hcomplete : complete after = true := by
    rw [complete, all_eq_true]
    intro value hmem
    obtain ⟨index, hlt, rfl⟩ := mem_iff_getElem.mp hmem
    have hindex := hbinds index (header.every index (by
      rw [← length_replicate (n := header.count) (a := (none : Option Ty)), ← hextends.1]
      exact hlt))
    rw [getD, getElem?_eq_getElem hlt, Option.getD_some] at hindex
    rw [hindex]; rfl
  simp [tested, hcount, hinfer, hcomplete]

/-! ## The selection -/

theorem select_cases (env : Headers) (ty : Ty) (implementations : List Nat) :
    (∃ selected ∈ implementations, ∃ header arguments,
      env.implementations[selected]? = some header ∧ tested env header ty = some arguments ∧
      select env ty implementations = ⟨some selected, arguments⟩) ∨
    ((∀ selected ∈ implementations, ¬ Matched env ty selected) ∧
      select env ty implementations = ⟨none, []⟩) := by
  induction implementations with
  | nil => exact .inr ⟨fun selected hmem => absurd hmem not_mem_nil, rfl⟩
  | cons first rest ih =>
    cases hfirst : (env.implementations[first]?).bind fun header => tested env header ty with
    | some arguments =>
      obtain ⟨header, hheader, htested⟩ := Option.bind_eq_some_iff.mp hfirst
      refine .inl ⟨first, .head _, header, arguments, hheader, htested, ?_⟩
      rw [select, hfirst]
    | none =>
      have hselect : select env ty (first :: rest) = select env ty rest := by
        rw [select, hfirst]
      have hskip : ¬ Matched env ty first := by
        rintro ⟨header, arguments, hheader, htested⟩
        rw [hheader, Option.bind_some, htested] at hfirst
        cases hfirst
      rw [hselect]
      rcases ih with ⟨selected, hmem, hfound⟩ | ⟨hnone, hresult⟩
      · exact .inl ⟨selected, .tail _ hmem, hfound⟩
      · refine .inr ⟨fun selected hmem => ?_, hresult⟩
        rcases mem_cons.mp hmem with rfl | hmem
        · exact hskip
        · exact hnone selected hmem

/-- Where at most one implementation matches, the order does not matter. -/
theorem select_perm {left right : List Nat}
    (hunique : ∀ first ∈ right, ∀ second ∈ right, Matched env ty first → Matched env ty second →
      first = second) (hperm : List.Perm left right) :
    select env ty left = select env ty right := by
  rcases select_cases env ty left with ⟨first, hfirst, header, arguments, hheader, htested, hleft⟩ |
      ⟨hnone, hleft⟩
  · have hmatched : Matched env ty first := ⟨header, arguments, hheader, htested⟩
    rcases select_cases env ty right with
        ⟨second, hsecond, header', arguments', hheader', htested', hright⟩ | ⟨hnone, hright⟩
    · obtain rfl := hunique first (hperm.mem_iff.mp hfirst) second hsecond hmatched
        ⟨header', arguments', hheader', htested'⟩
      obtain rfl := Option.some.inj (hheader.symm.trans hheader')
      obtain rfl := Option.some.inj (htested.symm.trans htested')
      rw [hleft, hright]
    · exact absurd hmatched (hnone first (hperm.mem_iff.mp hfirst))
  · rcases select_cases env ty right with
        ⟨second, hsecond, header', arguments', hheader', htested', hright⟩ | ⟨_, hright⟩
    · exact absurd ⟨header', arguments', hheader', htested'⟩
        (hnone second (hperm.mem_iff.mpr hsecond))
    · rw [hleft, hright]

/-! ## The overlap check -/

theorem anyM_eq_some_false {test : Nat → Option Bool} {indices : List Nat}
    (hany : indices.anyM test = some false) : ∀ index ∈ indices, test index = some false := by
  induction indices with
  | nil => intro index hmem; cases hmem
  | cons first rest ih =>
    cases hfirst : test first with
    | none => simp [hfirst] at hany
    | some found =>
      cases found with
      | true => simp [hfirst] at hany
      | false =>
        simp only [anyM, hfirst] at hany
        intro index hmem
        rcases mem_cons.mp hmem with rfl | hmem
        · exact hfirst
        · exact ih hany index hmem

/-- In an accepted table every two headers of one concept were found disjoint. -/
theorem Accepted.disjoint (haccepted : Accepted env) :
    ∃ fuel, ∀ {previous index : Nat} {other header : Implementation}, previous < index →
      env.implementations[previous]? = some other → env.implementations[index]? = some header →
      other.capability = header.capability → overlapping fuel other header = some false := by
  obtain ⟨fuel, hcheck⟩ := haccepted
  refine ⟨fuel, fun {previous index other header} hlt hother hheader hsame => ?_⟩
  obtain ⟨overlaps, hany, hresult⟩ := Option.bind_eq_some_iff.mp hcheck
  have hnone : overlaps = false := by
    cases overlaps with
    | false => rfl
    | true => simp at hresult
  subst hnone
  have hindex : index < env.implementations.length := (List.getElem?_eq_some_iff.mp hheader).1
  have hrow := anyM_eq_some_false hany index (mem_range.mpr hindex)
  have hpair := anyM_eq_some_false hrow previous (mem_range.mpr hlt)
  simpa [hother, hheader, hsame] using hpair

theorem mem_implementationsOf {index : Nat} : index ∈ implementationsOf env capability ↔
      ∃ header, env.implementations[index]? = some header ∧ header.capability = capability := by
  rw [implementationsOf, mem_filter, mem_range, decide_eq_true_iff, Option.map_eq_some_iff]
  refine ⟨fun hmem => hmem.2, fun hmem => ⟨?_, hmem⟩⟩
  obtain ⟨header, hheader, -⟩ := hmem
  exact (List.getElem?_eq_some_iff.mp hheader).1

/-- No implementation with type parameters takes the type by weakening a
refinement: whichever target fits, none of its structural parts stands opposite
a refined part of the type. -/
def Unweakened (env : Headers) (capability : Int) (ty : Ty) : Prop :=
  ∀ header ∈ env.implementations, header.capability = capability → header.count ≠ 0 →
    ∀ values, Fits env.refinements values header.ty ty → opposed header.ty ty = false

theorem tested_exact (hunweakened : Unweakened env capability ty) {selected : Nat}
    {arguments : Arguments} (hheader : env.implementations[selected]? = some header)
    (hcapability : header.capability = capability) (htested : tested env header ty = some arguments) :
    instantiate header.ty arguments = ty := by
  obtain ⟨hfits, hclosed⟩ := tested_fits htested
  by_cases hcount : header.count = 0
  · have hty := hclosed hcount
    have hnone : opposed header.ty ty = false := by
      simpa [hty] using opposed_substitute .parameter ty
    exact hfits.exact header.ty hnone
  · exact hfits.exact header.ty
      (hunweakened header (mem_of_getElem? hheader) hcapability hcount _ hfits)

theorem matched_unique (haccepted : Accepted env) (hunweakened : Unweakened env capability ty)
    {first second : Nat} (hfirst : first ∈ implementationsOf env capability)
    (hsecond : second ∈ implementationsOf env capability) (hmatched : Matched env ty first)
    (hmatched' : Matched env ty second) : first = second := by
  -- the two orders of the pair are alike
  have hlt : ∀ {previous index : Nat}, previous ∈ implementationsOf env capability →
      index ∈ implementationsOf env capability → Matched env ty previous → Matched env ty index →
      ¬ previous < index := by
    intro previous index hprevious hindex hleft hright hlt
    obtain ⟨other, hother, hcapability⟩ := mem_implementationsOf.mp hprevious
    obtain ⟨header, hheader, hcapability'⟩ := mem_implementationsOf.mp hindex
    obtain ⟨other', arguments, hother', htested⟩ := hleft
    obtain ⟨header', arguments', hheader', htested'⟩ := hright
    obtain rfl := Option.some.inj (hother.symm.trans hother')
    obtain rfl := Option.some.inj (hheader.symm.trans hheader')
    obtain ⟨fuel, hdisjoint⟩ := haccepted.disjoint
    have hcommon : substitute (argument arguments) other.ty =
        substitute (argument arguments') header.ty :=
      (tested_exact hunweakened hother hcapability htested).trans
        (tested_exact hunweakened hheader hcapability' htested').symm
    have hoverlap := overlapping_of_common hcommon
      (hdisjoint hlt hother hheader (hcapability.trans hcapability'.symm))
    cases hoverlap
  have hle := hlt hfirst hsecond hmatched hmatched'
  have hge := hlt hsecond hfirst hmatched' hmatched
  omega

/-! ## Coherence -/

theorem coherent_iff (env : Headers) (haccepted : Accepted env) (capability : Int) (ty : Ty) :
    Coherent env capability ty ↔ Unweakened env capability ty := by
  refine ⟨fun hcoherent => ?_, fun hunweakened => ?_⟩
  · intro header hmem hcapability hcount values hfits
    obtain ⟨index, hheader⟩ := mem_iff_getElem?.mp hmem
    obtain ⟨arguments, htested⟩ := tested_of_fits hcount hfits
    have hindex : index ∈ implementationsOf env capability :=
      mem_implementationsOf.mpr ⟨header, hheader, hcapability⟩
    have hmatched : Matched env ty index := ⟨header, arguments, hheader, htested⟩
    rcases select_cases env ty (implementationsOf env capability) with
        ⟨selected, hselected, header', arguments', hheader', htested', hresult⟩ | ⟨hnone, -⟩
    · -- the selected implementation is the one that fits, and it is exact
      obtain rfl := hcoherent.unique index hindex selected hselected hmatched
        ⟨header', arguments', hheader', htested'⟩
      have hexact := hcoherent.exact index header
        (congrArg Conformance.implementation hresult) hheader
      rw [← hexact]; exact opposed_substitute _ header.ty
    · exact absurd hmatched (hnone index hindex)
  · have hunique : ∀ first ∈ implementationsOf env capability,
        ∀ second ∈ implementationsOf env capability,
        Matched env ty first → Matched env ty second → first = second :=
      fun first hfirst second hsecond => matched_unique haccepted hunweakened hfirst hsecond
    refine ⟨hunique, fun implementations hperm => select_perm hunique hperm, ?_⟩
    intro selected header hselected hheader
    rcases select_cases env ty (implementationsOf env capability) with
        ⟨found, hfound, header', arguments, hheader', htested, hresult⟩ | ⟨-, hresult⟩
    · rw [conformance, hresult] at hselected ⊢
      cases hselected
      obtain rfl := Option.some.inj (hheader.symm.trans hheader')
      obtain ⟨header'', hheader'', hcapability⟩ := mem_implementationsOf.mp hfound
      obtain rfl := Option.some.inj (hheader.symm.trans hheader'')
      exact tested_exact hunweakened hheader hcapability htested
    · rw [conformance, hresult] at hselected
      cases hselected

/-! A refinement of `List[Int]` with an implementation of its own, beside an
implementation for every list. -/

def intTy : Ty := .node ⟨.int, -1, []⟩ []

def listOf (element : Ty) : Ty := .node ⟨.list, -1, []⟩ [element]

def smallTy : Ty := .node ⟨.refined, 7, []⟩ []

def smallLists : Headers where
  refinements := {
    base := fun _ _ => listOf intTy
    base_structural := fun _ _ => ⟨.list, -1, [], [intTy], rfl, by decide⟩ }
  implementations := [
    { count := 1, capability := 3, ty := listOf (.parameter 0)
      within := by simp [Scoped, listOf]
      every := by simp [listOf] },
    { count := 0, capability := 3, ty := smallTy
      within := by simp [Scoped, smallTy]
      every := by simp }]

theorem smallLists_incoherent :
    Accepted smallLists ∧ Matched smallLists smallTy 0 ∧ Matched smallLists smallTy 1 ∧
      ¬ Coherent smallLists 3 smallTy := by
  have haccepted : Accepted smallLists := ⟨2, by decide⟩
  have hgeneric : Matched smallLists smallTy 0 := ⟨_, [some intTy], rfl, by decide +kernel⟩
  have hexact : Matched smallLists smallTy 1 := ⟨_, [], rfl, by decide⟩
  refine ⟨haccepted, hgeneric, hexact, fun hcoherent => ?_⟩
  exact absurd (hcoherent.unique 0 (by decide) 1 (by decide) hgeneric hexact)
    (by decide)

/-- `List[Int]` itself is taken by no weakening, so its selection is coherent. -/
theorem smallLists_coherent : Coherent smallLists 3 (listOf intTy) := by
  refine (coherent_iff smallLists ⟨2, by decide⟩ 3 (listOf intTy)).mpr ?_
  intro header hmem _ _ _ _
  rcases mem_cons.mp hmem with rfl | hmem
  · decide
  · obtain rfl := mem_singleton.mp hmem
    decide

end Loom.Checking
