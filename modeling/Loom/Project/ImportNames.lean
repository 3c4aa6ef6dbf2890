import Loom.Project.Regraph
import Mathlib.Data.List.Nodup

/-
  What the names of a project are bound to, and which packages they resolve to.
-/

namespace Loom.Regraph

open Utf8 Texts Packages SourceImports List Results Except

theorem firstSegment_total (spelling : String) : ∃ first, firstSegment spelling = .ok first := by
  obtain ⟨piece, pieces, hparts⟩ := @parts_total spelling 46 (by decide)
  exact ⟨piece, by rw [firstSegment, hparts]; rfl⟩

/-! ## The only index -/

section
variable {α : Type} {hit : Nat → α → Except Stop Bool} {message : String} {k : Nat}

/-- What the loop answers when it is told all indices that are hit. -/
def onlyOf (message : String) : List Nat → Except Stop (Option Nat)
  | [] => .ok none
  | [k] => .ok (some k)
  | _ => fail message

theorem onlyOf_eq_some {hits : List Nat} : onlyOf message hits = .ok (some k) ↔ hits = [k] := by
  match hits with
  | [] => exact iff_of_false nofun nofun
  | [other] => simp [onlyOf]
  | _ :: _ :: _ => exact iff_of_false nofun nofun

/-- From an index on, where the loop may have found one before. -/
theorem onlyIndex_from {p : Nat → Bool} (values : List α) : ∀ (index : Nat) (found : Option Nat),
      (∀ j value, values[j]? = some value → hit (index + j) value = .ok (p (index + j))) →
      onlyIndex hit message index found values =
        onlyOf message (found.toList ++ (List.range' index values.length).filter p) := by
  induction values with
  | nil => intro index found _; cases found <;> rfl
  | cons value values ih =>
    intro index found hhit
    have hhere := hhit 0 value rfl
    have hrest : ∀ j other, values[j]? = some other →
        hit (index + 1 + j) other = .ok (p (index + 1 + j)) := by
      intro j other hother
      have hnext := hhit (j + 1) other hother
      rwa [show index + (j + 1) = index + 1 + j by omega] at hnext
    rw [Nat.add_zero] at hhere
    rw [onlyIndex, hhere, length_cons, range'_succ, filter_cons]
    cases p index with
    | false => exact ih (index + 1) found hrest
    | true =>
      cases found with
      | none => exact ih (index + 1) (some index) hrest
      | some other => rfl

theorem onlyIndex_eq_some {p : Nat → Bool} {values : List α}
    (hhit : ∀ j value, values[j]? = some value → hit j value = .ok (p j)) :
    onlyIndex hit message 0 none values = .ok (some k) ↔
      k < values.length ∧ p k = true ∧ ∀ j < values.length, p j = true → j = k := by
  have hall := @onlyIndex_from α hit message p values 0 none
    (by simpa only [Nat.zero_add] using hhit)
  rw [hall, onlyOf_eq_some, Option.toList_none, nil_append, ← range_eq_range']
  have hmem : ∀ j, j ∈ (List.range values.length).filter p ↔ j < values.length ∧ p j = true := by
    simp
  constructor
  · intro hhits
    rw [hhits] at hmem
    have hk := (hmem k).mp (.head _)
    refine ⟨hk.1, hk.2, fun j hj hp => ?_⟩
    exact mem_singleton.mp ((hmem j).mpr ⟨hj, hp⟩)
  · rintro ⟨hlt, hk, hunique⟩
    apply perm_singleton.mp
    apply (perm_ext_iff_of_nodup (nodup_range.filter _) (nodup_singleton k)).mpr
    intro j
    rw [hmem, mem_singleton]
    constructor
    · exact fun h => hunique j h.1 h.2
    · rintro rfl
      exact ⟨hlt, hk⟩

end

/-! ## Bindings -/

section
variable {Tree : Type} {project : Project Tree} {owner : Int} {first : String}

def edgesOf (project : Project Tree) (owner : Int) : List PackageImport :=
  (project.packages.filter fun package => decide (package.moduleId = owner)).flatMap Package.imports

/-- A direct edge of the module that starts with the name. -/
def Evidence (project : Project Tree) (owner : Int) (first : String) (imported : PackageImport) :
    Prop :=
  imported ∈ edgesOf project owner ∧ firstSegment imported.spelling = .ok first

def LeadsTo (project : Project Tree) (imported : PackageImport) (instanceId : Int) : Prop :=
  ∃ target, get project.packages imported.target = .ok target ∧ target.moduleId = instanceId

/-- The module that a name is bound to in a module: itself, the only standard library, or the one
that the direct edges of the module agree on. -/
def Bound (project : Project Tree) (owner : Int) (first : String) (instanceId : Int) : Prop :=
  ∃ own, get project.modules owner = .ok own ∧
    ((first = own.name ∧ instanceId = owner) ∨
      (first ≠ own.name ∧ first = "std" ∧ ∃ index : Nat, instanceId = index ∧
        (∃ library, project.modules[index]? = some library ∧ library.name = "std") ∧
        ∀ (other : Nat) (library : ModuleInstance), project.modules[other]? = some library →
          library.name = "std" → other = index) ∨
      (first ≠ own.name ∧ first ≠ "std" ∧ 0 ≤ instanceId ∧ instanceId < project.modules.length ∧
        (∃ imported, Evidence project owner first imported ∧ LeadsTo project imported instanceId) ∧
        ∀ imported, Evidence project owner first imported →
          ∃ other, LeadsTo project imported other ∧ (0 ≤ other → other = instanceId)))

theorem foldlM_edges (packages : List Package) : ∀ found : Int,
    boundModule project owner first found packages =
      ((packages.filter fun package => decide (package.moduleId = owner)).flatMap
        Package.imports).foldlM (boundEdge project first) found := by
  induction packages with
  | nil => exact fun found => rfl
  | cons current packages ih =>
    intro found
    rw [boundModule, foldlM_cons, filter_cons]
    by_cases howner : current.moduleId = owner
    · rw [if_pos howner, if_pos (decide_eq_true howner), flatMap_cons, foldlM_append]
      congr 1
      funext middle
      exact ih middle
    · rw [if_neg howner, if_neg (by simpa using howner)]; exact ih found

/-- One edge: it says nothing of the name, or it leads to a module that agrees with the last one. -/
theorem boundEdge_eq_ok {found result : Int} {imported : PackageImport} :
    boundEdge project first found imported = .ok result ↔
      (firstSegment imported.spelling ≠ .ok first ∧ result = found) ∨
        (firstSegment imported.spelling = .ok first ∧ LeadsTo project imported result ∧
          (0 ≤ found → result = found)) := by
  obtain ⟨segment, hsegment⟩ := firstSegment_total imported.spelling
  rw [boundEdge, hsegment, ok_bind, ne_eq, ok.injEq]
  by_cases hsame : segment = first
  · rw [if_pos hsame]
    obtain ⟨target, htarget, hlow, hhigh, -⟩ | ⟨hfault, hout⟩ :=
      get_cases project.packages imported.target
    · rw [if_neg (by omega), htarget, ok_bind]
      have hleads : ∀ other, LeadsTo project imported other ↔ target.moduleId = other := by
        intro other
        constructor
        · rintro ⟨another, hanother, rfl⟩
          rw [ok.inj (htarget.symm.trans hanother)]
        · exact fun h => ⟨target, htarget, h⟩
      rw [hleads]
      by_cases hclash : found ≥ 0 ∧ found ≠ target.moduleId
      · rw [if_pos hclash]
        refine iff_of_false nofun ?_
        rintro (⟨hne, -⟩ | ⟨-, rfl, hagrees⟩)
        · exact hne hsame
        · exact hclash.2 (hagrees hclash.1).symm
      · rw [if_neg hclash]
        show ok target.moduleId = .ok result ↔ _
        rw [ok.injEq]
        constructor
        · rintro rfl
          refine .inr ⟨hsame, rfl, fun hpositive => ?_⟩
          by_contra hne
          exact hclash ⟨hpositive, fun h => hne h.symm⟩
        · rintro (⟨hne, -⟩ | ⟨-, hmodule, -⟩)
          · exact absurd hsame hne
          · exact hmodule
    · have hnone : ¬LeadsTo project imported result := by
        rintro ⟨target, htarget, -⟩
        rw [hfault] at htarget
        cases htarget
      rw [if_pos (by omega)]
      refine iff_of_false nofun ?_
      rintro (⟨hne, -⟩ | ⟨-, hleads, -⟩)
      · exact hne hsame
      · exact hnone hleads
  · rw [if_neg hsame]
    show ok found = .ok result ↔ _
    rw [ok.injEq]
    constructor
    · rintro rfl
      exact .inl ⟨hsame, rfl⟩
    · rintro (⟨-, rfl⟩ | ⟨hsegment, -⟩)
      · rfl
      · exact absurd hsegment hsame

/-- The loop over edges: what it answers is what all of them agree on. -/
theorem boundEdges_sound (edges : List PackageImport) : ∀ {found result : Int},
    edges.foldlM (boundEdge project first) found = .ok result → (0 ≤ found → result = found) ∧
        (result = found ∨ ∃ imported ∈ edges, firstSegment imported.spelling = .ok first ∧
          LeadsTo project imported result) ∧
        ∀ imported ∈ edges, firstSegment imported.spelling = .ok first →
          ∃ other, LeadsTo project imported other ∧ (0 ≤ other → other = result) := by
  induction edges with
  | nil =>
    intro found result h
    cases h
    exact ⟨fun _ => rfl, .inl rfl, nofun⟩
  | cons imported edges ih =>
    intro found result h
    obtain ⟨middle, hedge, hrest⟩ := bind_eq_ok.mp h
    obtain ⟨hkeeps, hreached, hagree⟩ := ih hrest
    obtain ⟨hother, rfl⟩ | ⟨hsegment, hleads, hsame⟩ := boundEdge_eq_ok.mp hedge
    · refine ⟨hkeeps, hreached.imp_right fun ⟨edge, hmem, h⟩ => ⟨edge, .tail _ hmem, h⟩, ?_⟩
      intro edge hmem hsays
      obtain rfl | hmem := mem_cons.mp hmem
      · exact absurd hsays hother
      · exact hagree edge hmem hsays
    · refine ⟨?_, ?_, ?_⟩
      · intro hpositive
        have hmiddle := hsame hpositive
        rw [hmiddle] at hkeeps; exact hkeeps hpositive
      · right
        obtain hmiddle | ⟨edge, hmem, hedge⟩ := hreached
        · exact ⟨imported, .head _, hsegment, hmiddle ▸ hleads⟩
        · exact ⟨edge, .tail _ hmem, hedge⟩
      · intro edge hmem hedge
        obtain rfl | hmem := mem_cons.mp hmem
        · exact ⟨middle, hleads, fun hpositive => (hkeeps hpositive).symm⟩
        · exact hagree edge hmem hedge

/-- Where all edges of a name lead to one module, the loop answers with it. -/
theorem boundEdges_complete {instanceId : Int} (edges : List PackageImport)
    (hall : ∀ imported ∈ edges, firstSegment imported.spelling = .ok first →
      LeadsTo project imported instanceId) : ∀ {found : Int}, found = instanceId ∨ found < 0 →
      ∃ result, edges.foldlM (boundEdge project first) found = .ok result ∧
        (result = instanceId ∨ result = found) ∧
        ((found = instanceId ∨ ∃ imported ∈ edges, firstSegment imported.spelling = .ok first) →
          result = instanceId) := by
  induction edges with
  | nil =>
    intro found hfound
    refine ⟨found, rfl, .inr rfl, ?_⟩
    rintro (h | ⟨_, hmem, _⟩)
    · exact h
    · exact absurd hmem not_mem_nil
  | cons imported edges ih =>
    intro found hfound
    have hothers : ∀ edge ∈ edges, firstSegment edge.spelling = .ok first →
        LeadsTo project edge instanceId := fun edge hmem => hall edge (.tail _ hmem)
    by_cases hsegment : firstSegment imported.spelling = .ok first
    · have hedge : boundEdge project first found imported = .ok instanceId := by
        apply boundEdge_eq_ok.mpr
        refine .inr ⟨hsegment, hall imported (.head _) hsegment, fun hpositive => ?_⟩
        exact (hfound.resolve_right (by omega)).symm
      obtain ⟨result, hrun, -, hresult⟩ := ih hothers (.inl rfl)
      refine ⟨result, ?_, .inl (hresult (.inl rfl)), fun _ => hresult (.inl rfl)⟩
      rw [foldlM_cons, hedge]; exact hrun
    · have hedge : boundEdge project first found imported = .ok found :=
        boundEdge_eq_ok.mpr (.inl ⟨hsegment, rfl⟩)
      obtain ⟨result, hrun, hcases, hresult⟩ := ih hothers hfound
      refine ⟨result, ?_, hcases, ?_⟩
      · rw [foldlM_cons, hedge]; exact hrun
      · rintro (h | ⟨edge, hmem, hedge'⟩)
        · exact hresult (.inl h)
        · obtain rfl | hmem := mem_cons.mp hmem
          · exact absurd hedge' hsegment
          · exact hresult (.inr ⟨edge, hmem, hedge'⟩)

/-- Every package is one of a module. -/
def Housed (project : Project Tree) : Prop :=
  ∀ package ∈ project.packages, ∃ own, get project.modules package.moduleId = .ok own

theorem get_of_bounds {α : Type} {values : List α} {index : Int} (hlow : 0 ≤ index)
    (hhigh : index < values.length) : ∃ value, get values index = .ok value := by
  obtain ⟨value, hvalue, -⟩ | ⟨-, hout⟩ := get_cases values index
  · exact ⟨value, hvalue⟩
  · exact absurd ⟨hlow, hhigh⟩ hout

theorem bounds_of_get {α : Type} {values : List α} {index : Int} {value : α}
    (h : get values index = .ok value) : 0 ≤ index ∧ index < values.length := by
  obtain ⟨hlow, hvalue⟩ := get_eq_ok.mp h
  obtain ⟨hlt, -⟩ := List.getElem?_eq_some_iff.mp hvalue
  omega

theorem stdModule_eq_some {modules : List ModuleInstance} {index : Nat} :
    stdModule modules = .ok (some index) ↔
      (∃ library, modules[index]? = some library ∧ library.name = "std") ∧
        ∀ (other : Nat) (library : ModuleInstance), modules[other]? = some library →
          library.name = "std" → other = index := by
  have hhit : ∀ (j : Nat) (owner : ModuleInstance), modules[j]? = some owner →
      (.ok (owner.name == "std") : Except Stop Bool) =
        .ok (modules[j]?.any fun owner => owner.name == "std") := by
    intro j owner howner
    rw [howner]; rfl
  rw [stdModule, onlyIndex_eq_some hhit]
  have hmem : ∀ j : Nat, (modules[j]?.any fun owner => owner.name == "std") = true ↔
      ∃ library : ModuleInstance, modules[j]? = some library ∧ library.name = "std" := by
    intro j
    rw [Option.any_eq_true]; simp [beq_iff_eq]
  constructor
  · rintro ⟨-, hfound, hunique⟩
    refine ⟨(hmem index).mp hfound, fun other library hlibrary hname => ?_⟩
    exact hunique other (List.getElem?_eq_some_iff.mp hlibrary).1
      ((hmem other).mpr ⟨library, hlibrary, hname⟩)
  · rintro ⟨⟨library, hlibrary, hname⟩, hunique⟩
    refine ⟨(List.getElem?_eq_some_iff.mp hlibrary).1, (hmem index).mpr ⟨library, hlibrary, hname⟩, ?_⟩
    intro other _ hother
    obtain ⟨another, hanother, hstd⟩ := (hmem other).mp hother
    exact hunique other another hanother hstd

theorem boundModule_eq (found : Int) : boundModule project owner first found project.packages =
    (edgesOf project owner).foldlM (boundEdge project first) found :=
  foldlM_edges project.packages found

variable {instanceId : Int} {spelling : String} {target : Nat}

theorem basisModule_bound (h : basisModule project owner spelling = .ok instanceId) :
    (∃ own, get project.modules instanceId = .ok own) ∧
      ∃ first, firstSegment spelling = .ok first ∧ Bound project owner first instanceId := by
  obtain ⟨first, hfirst, h⟩ := bind_eq_ok.mp h
  obtain ⟨own, hown, h⟩ := bind_eq_ok.mp h
  split at h
  case isTrue hself =>
    cases h
    exact ⟨⟨own, hown⟩, first, hfirst, own, hown, .inl ⟨hself, rfl⟩⟩
  case isFalse hself =>
    obtain ⟨found, hfound, h⟩ := bind_eq_ok.mp h
    split at h
    case isTrue => cases h
    case isFalse hin =>
      cases h
      refine ⟨get_of_bounds (by omega) (by omega), first, hfirst, own, hown, .inr ?_⟩
      unfold namedModule at hfound
      split at hfound
      case isTrue hstd =>
        obtain ⟨position, hposition, hsame⟩ := bind_eq_ok.mp hfound
        cases hsame
        cases position with
        | none => exact absurd (.inl (by decide)) hin
        | some index => exact .inl ⟨hself, hstd, index, rfl, stdModule_eq_some.mp hposition⟩
      case isFalse hstd =>
        rw [boundModule_eq] at hfound
        obtain ⟨-, hreached, hagree⟩ := boundEdges_sound _ hfound
        obtain ⟨imported, hmem, hsegment, hleads⟩ := hreached.resolve_left (by omega)
        exact .inr ⟨hself, hstd, by omega, by omega, ⟨imported, ⟨hmem, hsegment⟩, hleads⟩,
          fun edge hedge => hagree edge hedge.1 hedge.2⟩

/-- A name whose edges all lead to one module is answered with it. -/
theorem basisModule_of_bound (hfirst : firstSegment spelling = .ok first)
    (h : Bound project owner first instanceId)
    (hedges : ∀ own, get project.modules owner = .ok own → first ≠ own.name → first ≠ "std" →
      ∀ imported, Evidence project owner first imported → LeadsTo project imported instanceId) :
    basisModule project owner spelling = .ok instanceId := by
  obtain ⟨own, hown, hcases⟩ := h
  rw [basisModule, hfirst, ok_bind, hown, ok_bind]
  obtain ⟨hself, rfl⟩ | ⟨hself, rfl, index, rfl, hstd⟩ |
    ⟨hself, hstd, hlow, hhigh, ⟨imported, himported, -⟩, -⟩ := hcases
  · rw [if_pos hself]; rfl
  · obtain ⟨library, hlibrary, -⟩ := hstd.1
    obtain ⟨hlt, -⟩ := List.getElem?_eq_some_iff.mp hlibrary
    rw [if_neg hself, namedModule, stdModule_eq_some.mpr hstd]
    show (if ((index : Nat) : Int) < 0 ∨ ((index : Nat) : Int) ≥ project.modules.length then _ else _) = _
    rw [if_neg (by omega)]; rfl
  · obtain ⟨result, hrun, -, hresult⟩ := @boundEdges_complete Tree project first instanceId
      (edgesOf project owner) (fun edge hmem hsays => hedges own hown hself hstd edge ⟨hmem, hsays⟩) (-1)
      (.inr (by decide))
    obtain rfl := hresult (.inr ⟨imported, himported⟩)
    rw [if_neg hself, namedModule, if_neg hstd, boundModule_eq, hrun, ok_bind, if_neg (by omega)]
    rfl

theorem Bound.basisModule (hhoused : Housed project) (hfirst : firstSegment spelling = .ok first)
    (h : Bound project owner first instanceId) :
    basisModule project owner spelling = .ok instanceId := by
  apply basisModule_of_bound hfirst h
  intro own hown hself hstd imported himported
  obtain ⟨other, hother, hcases⟩ := h
  obtain rfl := ok.inj (hown.symm.trans hother)
  obtain ⟨hsame, -⟩ | ⟨-, hsame, -⟩ | ⟨-, -, -, -, -, hagree⟩ := hcases
  · exact absurd hsame hself
  · exact absurd hsame hstd
  · obtain ⟨another, ⟨target, htarget, rfl⟩, hequal⟩ := hagree imported himported
    obtain ⟨house, hhouse⟩ := hhoused target (mem_of_getElem? (get_eq_ok.mp htarget).2)
    rw [← hequal (bounds_of_get hhouse).1]; exact ⟨target, htarget, rfl⟩

/-- A name is bound to one module at most. -/
theorem Bound.unique {other : Int} (h : Bound project owner first instanceId)
    (hother : Bound project owner first other) : instanceId = other := by
  obtain ⟨own, hown, hcases⟩ := h
  obtain ⟨own', hown', hcases'⟩ := hother
  obtain rfl := ok.inj (hown.symm.trans hown')
  obtain ⟨hself, rfl⟩ | ⟨hself, hstd, index, rfl, hindex⟩ |
    ⟨hself, hstd, hlow, -, ⟨imported, himported, hleads⟩, -⟩ := hcases
  · obtain ⟨-, rfl⟩ | ⟨hself', -⟩ | ⟨hself', -⟩ := hcases'
    · rfl
    · exact absurd hself hself'
    · exact absurd hself hself'
  · obtain ⟨hself', -⟩ | ⟨-, -, index', rfl, hindex'⟩ | ⟨-, hstd', -⟩ := hcases'
    · exact absurd hself' hself
    · obtain ⟨⟨library, hlibrary, hname⟩, -⟩ := hindex
      rw [hindex'.2 index library hlibrary hname]
    · exact absurd hstd hstd'
  · obtain ⟨hself', -⟩ | ⟨-, hstd', -⟩ | ⟨-, -, -, -, -, hagree⟩ := hcases'
    · exact absurd hself' hself
    · exact absurd hstd' hstd
    · obtain ⟨another, ⟨target, htarget, rfl⟩, hequal⟩ := hagree imported himported
      obtain ⟨target', htarget', rfl⟩ := hleads
      obtain rfl := ok.inj (htarget.symm.trans htarget')
      exact hequal hlow

/-! ## Packages -/

/-- A package of the module whose label is the spelling. -/
def IsPackage (project : Project Tree) (instanceId : Int) (spelling : String) (index : Nat) : Prop :=
  ∃ package, project.packages[index]? = some package ∧ package.moduleId = instanceId ∧
    packageLabel project.modules project.packages index = .ok spelling

/-- The spelling is that of exactly one package of the module that its namespace is bound to. -/
def Resolves (project : Project Tree) (owner : Int) (spelling : String) (target : Nat) : Prop :=
  ∃ first instanceId, firstSegment spelling = .ok first ∧ Bound project owner first instanceId ∧
    IsPackage project instanceId spelling target ∧
    ∀ other, IsPackage project instanceId spelling other → other = target

theorem Resolves.unique {other : Nat} (h : Resolves project owner spelling target)
    (hother : Resolves project owner spelling other) : target = other := by
  obtain ⟨first, instanceId, hfirst, hbound, hpackage, -⟩ := h
  obtain ⟨first', instanceId', hfirst', hbound', -, hunique⟩ := hother
  obtain rfl := ok.inj (hfirst.symm.trans hfirst')
  obtain rfl := hbound.unique hbound'
  exact hunique target hpackage

theorem basisPackage_eq_some (hmodule : ∃ own, get project.modules instanceId = .ok own) :
    basisPackage project instanceId spelling = .ok (some target) ↔
      IsPackage project instanceId spelling target ∧
        ∀ other, IsPackage project instanceId spelling other → other = target := by
  classical
  obtain ⟨own, hown⟩ := hmodule
  have hhit : ∀ (j : Nat) (package : Package), project.packages[j]? = some package →
      labelled project instanceId spelling j package =
        .ok (decide (IsPackage project instanceId spelling j)) := by
    intro j package hpackage
    have his : IsPackage project instanceId spelling j ↔ package.moduleId = instanceId ∧
        packageLabel project.modules project.packages j = .ok spelling := by
      constructor
      · rintro ⟨other, hother, hmodule, hlabel⟩
        obtain rfl := Option.some.inj (hpackage.symm.trans hother)
        exact ⟨hmodule, hlabel⟩
      · exact fun h => ⟨package, hpackage, h⟩
    unfold labelled
    by_cases hmodule : package.moduleId = instanceId
    · rw [if_pos hmodule, packageLabel_eq (get_eq hpackage) (hmodule ▸ hown), ok_bind]
      rw [packageLabel_eq (get_eq hpackage) (hmodule ▸ hown)] at his
      congr 1
      rw [Bool.eq_iff_iff, beq_iff_eq, decide_eq_true_iff, his, ok.injEq]
      exact ⟨fun h => ⟨hmodule, h⟩, fun h => h.2⟩
    · rw [if_neg hmodule, decide_eq_false fun h => hmodule (his.mp h).1]; rfl
  rw [basisPackage, onlyIndex_eq_some hhit]
  have hinside : ∀ j, IsPackage project instanceId spelling j → j < project.packages.length := by
    rintro j ⟨package, hpackage, -⟩
    exact (List.getElem?_eq_some_iff.mp hpackage).1
  simp only [decide_eq_true_iff]
  constructor
  · rintro ⟨-, hpackage, hunique⟩
    exact ⟨hpackage, fun other hother => hunique other (hinside other hother) hother⟩
  · rintro ⟨hpackage, hunique⟩
    exact ⟨hinside target hpackage, hpackage, fun other _ hother => hunique other hother⟩

theorem basisImport_eq_ok : basisImport project owner spelling = .ok target ↔
      ∃ instanceId, basisModule project owner spelling = .ok instanceId ∧
        IsPackage project instanceId spelling target ∧
        ∀ other, IsPackage project instanceId spelling other → other = target := by
  unfold basisImport
  constructor
  · intro h
    obtain ⟨instanceId, hmodule, h⟩ := bind_eq_ok.mp h
    obtain ⟨found, hfound, h⟩ := bind_eq_ok.mp h
    cases found with
    | none => cases h
    | some index =>
      cases h
      exact ⟨instanceId, hmodule, (basisPackage_eq_some (basisModule_bound hmodule).1).mp hfound⟩
  · rintro ⟨instanceId, hmodule, hpackage⟩
    rw [hmodule, ok_bind, (basisPackage_eq_some (basisModule_bound hmodule).1).mpr hpackage]
    rfl

theorem basisImport_resolves (h : basisImport project owner spelling = .ok target) :
    Resolves project owner spelling target := by
  obtain ⟨instanceId, hmodule, hpackage, hunique⟩ := basisImport_eq_ok.mp h
  obtain ⟨-, first, hfirst, hbound⟩ := basisModule_bound hmodule
  exact ⟨first, instanceId, hfirst, hbound, hpackage, hunique⟩

theorem Resolves.basisImport (hhoused : Housed project) (h : Resolves project owner spelling target) :
    basisImport project owner spelling = .ok target := by
  obtain ⟨first, instanceId, hfirst, hbound, hpackage, hunique⟩ := h
  exact basisImport_eq_ok.mpr ⟨instanceId, hbound.basisModule hhoused hfirst, hpackage, hunique⟩

end

end Loom.Regraph
