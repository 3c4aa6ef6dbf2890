import Loom.Project.ComponentRoots

/-
  Which changes of packages are reported as a conflict.
-/

namespace Loom.Components

open Texts Packages Partitions Relation List Results Nat Except

variable {Tree : Type}

/-! ## Identities -/

/-- What tells the packages of several projects apart. -/
def identity (project : Project Tree) (id : Int) : Option DependencyPackage :=
  match get project.packages id with
  | .error _ => none
  | .ok package =>
    match get project.modules package.moduleId with
    | .error _ => none
    | .ok owner => if owner.source = "" then none else some ⟨owner, package.relative⟩

variable {project : Project Tree} {α : Type}

theorem identity_eq_some {id : Int} {p : DependencyPackage} :
    identity project id = some p ↔ ∃ package owner, get project.packages id = .ok package ∧
      get project.modules package.moduleId = .ok owner ∧ owner.source ≠ "" ∧
        p = ⟨owner, package.relative⟩ := by
  unfold identity
  cases hpackage : get project.packages id with
  | error _ => exact iff_of_false nofun (by simp)
  | ok package =>
    dsimp only
    cases howner : get project.modules package.moduleId with
    | error _ => exact iff_of_false nofun (by simp [howner])
    | ok owner =>
      dsimp only
      constructor
      · intro h
        split at h
        case isTrue => cases h
        case isFalse hsource => exact ⟨package, owner, rfl, howner, hsource, (Option.some.inj h).symm⟩
      · rintro ⟨package', owner', hpackage', howner', hsource, rfl⟩
        obtain rfl : package = package' := ok.inj hpackage'
        obtain rfl : owner = owner' := ok.inj (howner.symm.trans howner')
        rw [if_neg hsource]

/-- Every package and every target of an import has an identity. -/
def Known (project : Project Tree) (id : Nat) (package : Package) : Prop :=
  (identity project id).isSome ∧ ∀ edge ∈ package.imports, (identity project edge.target).isSome

def Linked (project : Project Tree) : Prop :=
  ∀ (id : Nat) (package : Package), project.packages[id]? = some package → Known project id package

def Imports (project : Project Tree) (p q : DependencyPackage) : Prop :=
  ∃ (id : Nat) (package : Package), project.packages[id]? = some package ∧
    identity project id = some p ∧
      ∃ edge ∈ package.imports, identity project edge.target = some q

/-- A computation ends in an error that is not a conflict. -/
def Refused {α : Type} (run : Except Stop α) : Prop :=
  ∃ message, run = .error (.error message) ∧ message ≠ conflict

theorem Refused.bind {α β : Type} {run : Except Stop α} (h : Refused run) (f : α → Except Stop β) :
    Refused (run >>= f) := by
  obtain ⟨message, rfl, hmessage⟩ := h
  exact ⟨message, rfl, hmessage⟩

theorem refused_fail {message : String} (h : message ≠ conflict) :
    Refused (fail message : Except Stop α) := ⟨message, rfl, h⟩

section
variable {graph : PackageComponents} {E : DependencyPackage → DependencyPackage → Prop}
  {project : Project Tree}

theorem same_identity {previous : DependencyPackage} {owner : ModuleInstance} {relative : String} :
    (previous.owner.name == owner.name && previous.owner.source == owner.source &&
      previous.relative == relative) = true ↔ previous = ⟨owner, relative⟩ := by
  obtain ⟨⟨name, source⟩, known⟩ := previous
  obtain ⟨name', source'⟩ := owner
  simp [Bool.and_eq_true, beq_iff_eq, DependencyPackage.mk.injEq, ModuleInstance.mk.injEq]

variable {p : DependencyPackage} {source : Nat}

theorem dependencyPackage_ok (h : Represents graph E) {id : Int} (hp : identity project id = some p) :
    ∃ index after, dependencyPackage graph project id = .ok (index, after) ∧
      Represents after E ∧ after.packages[index]? = some p ∧ Grows graph after := by
  obtain ⟨package, owner, hpackage, howner, hsource, rfl⟩ := identity_eq_some.mp hp
  obtain ⟨hlow, hsome⟩ := get_eq_ok.mp hpackage
  obtain ⟨hlow', hsome'⟩ := get_eq_ok.mp howner
  obtain ⟨hhigh, -⟩ := List.getElem?_eq_some_iff.mp hsome
  obtain ⟨hhigh', -⟩ := List.getElem?_eq_some_iff.mp hsome'
  rw [dependencyPackage, if_neg (by omega), hpackage, ok_bind, if_neg (by omega), howner,
    ok_bind, if_neg hsource]
  cases hfind : graph.packages.findIdx? fun previous =>
      previous.owner.name == owner.name && previous.owner.source == owner.source &&
        previous.relative == package.relative with
  | some index =>
    refine ⟨index, graph, rfl, h, ?_, .refl graph⟩
    obtain ⟨hlt, hfound, -⟩ := findIdx?_eq_some_iff_getElem.mp hfind
    rw [getElem?_eq_getElem hlt, same_identity.mp hfound]
  | none =>
    have hnew : (⟨owner, package.relative⟩ : DependencyPackage) ∉ graph.packages := by
      intro hmem
      have hother := findIdx?_eq_none_iff.mp hfind _ hmem
      rw [same_identity.mpr rfl] at hother
      cases hother
    refine ⟨_, _, rfl, h.push hnew, ?_, ⟨prefix_append _ _, ?_⟩⟩
    · rw [getElem?_append_right (Nat.le_refl _), Nat.sub_self]; rfl
    · intro i root hroot
      rwa [← h.size, up_push]

theorem dependencyPackage_none {id : Int} (hp : identity project id = none) :
    Refused (dependencyPackage graph project id) := by
  unfold dependencyPackage
  split
  case isTrue => exact refused_fail (by decide)
  case isFalse hin =>
    obtain ⟨package, hpackage, hlow, hhigh, -⟩ | ⟨-, hout⟩ := get_cases project.packages id
    case inr => omega
    rw [hpackage, ok_bind]
    split
    case isTrue => exact refused_fail (by decide)
    case isFalse hknown =>
      obtain ⟨owner, howner, -, -, -⟩ | ⟨-, hout⟩ := get_cases project.modules package.moduleId
      case inr => omega
      rw [howner, ok_bind]
      split
      case isTrue => exact refused_fail (by decide)
      case isFalse hsource =>
        unfold identity at hp
        simp only [hpackage, howner, if_neg hsource, reduceCtorEq] at hp

/-- One import joins the parts of two packages. -/
theorem Represents.join {target : Nat} {q : DependencyPackage} (h : Represents graph E)
    (hp : graph.packages[source]? = some p) (hq : graph.packages[target]? = some q) :
    ∃ below above middle last, componentRoot graph.parents source = .ok (below, middle) ∧
      componentRoot middle target = .ok (above, last) ∧
      Represents { graph with parents := last.set below above } fun a b => E a b ∨ a = p ∧ b = q := by
  have hsource : source < graph.parents.length := by
    rw [h.size]; exact (List.getElem?_eq_some_iff.mp hp).1
  obtain ⟨below, middle, hbelow, hroot, hmiddle⟩ := componentRoot_spec h.range h.grounded hsource
  have hmid := h.compressed hmiddle
  have htarget : target < middle.length := by
    rw [hmid.size]; exact (List.getElem?_eq_some_iff.mp hq).1
  obtain ⟨above, last, habove, hroot', hlast⟩ := componentRoot_spec hmid.range hmid.grounded htarget
  have hend := hmid.compressed hlast
  have hs : Root (up last) source below := hlast.roots (hmiddle.roots hroot)
  have ht : Root (up last) target above := hlast.roots hroot'
  have hs_lt : source < last.length := by
    rw [hend.size]; exact (List.getElem?_eq_some_iff.mp hp).1
  have ht_lt : target < last.length := by
    rw [hend.size]; exact (List.getElem?_eq_some_iff.mp hq).1
  have hbelow_lt := hend.range.root_lt hs_lt hs
  have habove_lt := hend.range.root_lt ht_lt ht
  refine ⟨below, above, middle, last, hbelow, habove, ?_, ?_, ?_, h.nodup, ?_, ?_⟩
  · exact length_set.trans hend.size
  · exact hend.range.set below habove_lt
  · rw [up_set hbelow_lt]; exact hend.grounded.link hs.fixed ht.fixed
  · rintro a b (hab | ⟨rfl, rfl⟩)
    · exact h.ends hab
    · exact ⟨mem_of_getElem? hp, mem_of_getElem? hq⟩
  · intro i j a b hi hj
    rw [up_set hbelow_lt, same_link hend.grounded hs ht, ← merged_eqvGen, Merged, Merged,
      hend.same hi hj, hend.same hi hp, hend.same hj hq, hend.same hi hq, hend.same hj hp]

/-- The imports of a package: their targets are known, and joined to its part, or they are
refused. -/
theorem includeImports_cases (imports : List PackageImport) (h : Represents graph E)
    (hp : graph.packages[source]? = some p) :
    (∀ edge ∈ imports, (identity project edge.target).isSome) ∧
      (∃ after, includeImports project source graph imports = .ok after ∧
        Represents after (fun a b => E a b ∨
          a = p ∧ ∃ edge ∈ imports, identity project edge.target = some b) ∧
        graph.packages <+: after.packages) ∨
    ¬(∀ edge ∈ imports, (identity project edge.target).isSome) ∧
      Refused (includeImports project source graph imports) := by
  induction imports generalizing graph E with
  | nil => exact .inl ⟨by simp, graph, rfl, h.congr (by simp), prefix_rfl⟩
  | cons edge imports ih =>
    rw [includeImports]
    cases hq : identity project edge.target with
    | none =>
      refine .inr ⟨fun hknown => ?_, (dependencyPackage_none hq).bind _⟩
      have hedge := hknown edge (.head _)
      rw [hq] at hedge
      cases hedge
    | some q =>
      obtain ⟨target, grown, hrun, hgrown, htarget, hgrows⟩ := dependencyPackage_ok h hq
      have hsource := getElem?_prefix hgrows.packages hp
      obtain ⟨below, above, middle, last, hbelow, habove, hjoined⟩ := hgrown.join hsource htarget
      rw [hrun, ok_bind]
      dsimp only
      rw [hbelow, ok_bind]
      rw [habove]
      have hedge : (identity project edge.target).isSome := by rw [hq]; rfl
      obtain ⟨hrest, after, hafter, hall, hkept⟩ | ⟨hrest, hrefused⟩ := ih hjoined hsource
      · refine .inl ⟨forall_mem_cons.mpr ⟨hedge, hrest⟩, after, hafter, hall.congr ?_,
          hgrows.packages.trans hkept⟩
        intro a b
        simp only [exists_mem_cons_iff, hq, Option.some.injEq]
        constructor
        · rintro ((hab | ⟨rfl, rfl⟩) | ⟨rfl, hab⟩)
          · exact .inl hab
          · exact .inr ⟨rfl, .inl rfl⟩
          · exact .inr ⟨rfl, .inr hab⟩
        · rintro (hab | ⟨rfl, rfl | hab⟩)
          · exact .inl (.inl hab)
          · exact .inl (.inr ⟨rfl, rfl⟩)
          · exact .inr ⟨rfl, hab⟩
      · exact .inr ⟨fun hknown => hrest (forall_mem_cons.mp hknown).2, hrefused⟩

theorem includePackages_cases (packages : List Package) {start : Nat} (h : Represents graph E) :
    (∀ k package, packages[k]? = some package → Known project (start + k) package) ∧
      (∃ after, includePackages project graph start packages = .ok after ∧
        Represents after fun a b => E a b ∨ ∃ k package, packages[k]? = some package ∧
          identity project (start + k : Nat) = some a ∧
            ∃ edge ∈ package.imports, identity project edge.target = some b) ∨
    ¬(∀ k package, packages[k]? = some package → Known project (start + k) package) ∧
      Refused (includePackages project graph start packages) := by
  induction packages generalizing graph E start with
  | nil => exact .inl ⟨by simp, graph, rfl, h.congr (by simp)⟩
  | cons current packages ih =>
    rw [includePackages]
    have hfirst : (∀ k package, (current :: packages)[k]? = some package →
        Known project (start + k) package) → Known project start current :=
      fun hknown => hknown 0 current rfl
    cases hp : identity project start with
    | none =>
      refine .inr ⟨fun hknown => ?_, (dependencyPackage_none hp).bind _⟩
      have hself := (hfirst hknown).1
      rw [hp] at hself
      cases hself
    | some p =>
      obtain ⟨source, grown, hrun, hgrown, hsource, hgrows⟩ := dependencyPackage_ok h hp
      rw [hrun, ok_bind]
      dsimp only
      obtain ⟨hedges, linked, hlinked, hall, -⟩ | ⟨hedges, hrefused⟩ :=
        includeImports_cases current.imports hgrown hsource
      case inr => exact .inr ⟨fun hknown => hedges (hfirst hknown).2, hrefused.bind _⟩
      rw [hlinked, ok_bind]
      have hsteps : ∀ k, start + (k + 1) = start + 1 + k := by omega
      obtain ⟨hrest, after, hafter, hends⟩ | ⟨hrest, hrefused⟩ := ih hall
      · refine .inl ⟨?_, after, hafter, hends.congr ?_⟩
        · intro k package hk
          cases k with
          | zero =>
            obtain rfl : current = package := Option.some.inj hk
            exact ⟨by rw [add_zero, hp]; rfl, hedges⟩
          | succ k => rw [hsteps]; exact hrest k package hk
        · intro a b
          constructor
          · rintro ((hab | ⟨rfl, hab⟩) | ⟨k, package, hk, hab⟩)
            · exact .inl hab
            · exact .inr ⟨0, current, rfl, hp, hab⟩
            · exact .inr ⟨k + 1, package, hk, by rw [hsteps]; exact hab⟩
          · rintro (hab | ⟨k, package, hk, hab⟩)
            · exact .inl (.inl hab)
            · cases k with
              | zero =>
                obtain rfl : current = package := Option.some.inj hk
                obtain ⟨ha, hb⟩ := hab
                exact .inl (.inr ⟨Option.some.inj (ha.symm.trans hp), hb⟩)
              | succ k => exact .inr ⟨k, package, hk, by rw [← hsteps]; exact hab⟩
      · refine .inr ⟨fun hknown => hrest fun k package hk => ?_, hrefused⟩
        rw [← hsteps]; exact hknown (k + 1) package hk

theorem includeDependencies_cases (project : Project Tree) (h : Represents graph E) :
    Linked project ∧ (∃ after, includeDependencies graph project = .ok after ∧
        Represents after fun a b => E a b ∨ Imports project a b) ∨
    ¬Linked project ∧ Refused (includeDependencies graph project) := by
  have hcases := @includePackages_cases _ _ _ project project.packages 0 h
  simp only [zero_add] at hcases; exact hcases

theorem includeAll_cases (projects : List (Project Tree)) (h : Represents graph E) :
    (∀ project ∈ projects, Linked project) ∧ (∃ after, includeAll graph projects = .ok after ∧
        Represents after fun a b => E a b ∨ ∃ project ∈ projects, Imports project a b) ∨
    ¬(∀ project ∈ projects, Linked project) ∧ Refused (includeAll graph projects) := by
  induction projects generalizing graph E with
  | nil => exact .inl ⟨by simp, graph, rfl, h.congr (by simp)⟩
  | cons project projects ih =>
    rw [includeAll]
    obtain ⟨hhead, middle, hrun, hmiddle⟩ | ⟨hhead, hrefused⟩ :=
      includeDependencies_cases project h
    case inr =>
      exact .inr ⟨fun hlinked => hhead (forall_mem_cons.mp hlinked).1, hrefused.bind _⟩
    rw [hrun, ok_bind]
    obtain ⟨hrest, after, hafter, hall⟩ | ⟨hrest, hrefused⟩ := ih hmiddle
    · refine .inl ⟨forall_mem_cons.mpr ⟨hhead, hrest⟩, after, hafter, hall.congr ?_⟩
      intro a b
      rw [exists_mem_cons_iff, or_assoc]
    · exact .inr ⟨fun hlinked => hrest (forall_mem_cons.mp hlinked).2, hrefused⟩

end

/-! ## The packages of the changes -/

variable {packages : List Package} {index : Nat}

/-- A package of the root's module with a pinned source, by its module and its path in it,
and the label that it has. -/
def packageOf (project : Project Tree) (wanted : String) (p : DependencyPackage) : Prop :=
  ∃ root package : Package, get project.packages project.root = .ok root ∧
    package ∈ project.packages ∧ package.moduleId = root.moduleId ∧
    get project.modules root.moduleId = .ok p.owner ∧ p.owner.source ≠ "" ∧
    p.relative = package.relative ∧ label p.owner package = wanted

theorem label_injective {owner : ModuleInstance} {package other : Package}
    (h : label owner package = label owner other) : package.relative = other.relative := by
  have hlonger : ∀ name : String, owner.name ≠ owner.name ++ ("." ++ name) := by
    intro name heq
    have hlength := congrArg String.length heq
    rw [String.length_append, String.length_append] at hlength
    have hdot : ".".length = 1 := rfl
    omega
  unfold label qualify at h
  by_cases hname : owner.name = ""
  · have hrelative : ∀ relative : String, (if relative = "" then "" else relative) = relative := by
      intro relative
      split
      · next hempty => exact hempty.symm
      · rfl
    rwa [if_pos hname, if_pos hname, hname, hrelative, hrelative] at h
  · rw [if_neg hname, if_neg hname] at h
    split at h <;> split at h
    · next hpackage hother => rw [hpackage, hother]
    · exact absurd h (hlonger _)
    · exact absurd h.symm (hlonger _)
    · exact (String.append_right_inj ".").mp ((String.append_right_inj owner.name).mp h)

/-- The packages are those of the project from an index on. -/
def From (project : Project Tree) (index : Nat) (packages : List Package) : Prop :=
  packages = project.packages.drop index

theorem From.head {current : Package} (h : From project index (current :: packages)) :
    project.packages[index]? = some current := by
  rw [← head?_drop, ← h]; rfl

theorem From.tail {current : Package} (h : From project index (current :: packages)) :
    From project (index + 1) packages := by
  rw [From, ← tail_drop, ← h]; rfl

/-- The search for a label finds a package of the module that has it. -/
theorem projectPackageFrom_ok {moduleId id : Int} {wanted : String}
    (hat : From project index packages)
    (h : projectPackageFrom project moduleId wanted index packages = .ok id) :
    ∃ package owner, get project.packages id = .ok package ∧ package.moduleId = moduleId ∧
      get project.modules moduleId = .ok owner ∧ label owner package = wanted := by
  induction packages generalizing index with
  | nil => cases h
  | cons current packages ih =>
    have hcurrent := get_eq hat.head
    rw [projectPackageFrom] at h
    by_cases hmodule : current.moduleId = moduleId
    case neg =>
      rw [if_neg hmodule] at h; exact ih hat.tail h
    rw [if_pos hmodule] at h
    obtain ⟨found, hfound, h⟩ := bind_eq_ok.mp h
    by_cases hwanted : found = wanted
    case neg =>
      rw [if_neg hwanted] at h; exact ih hat.tail h
    rw [if_pos hwanted] at h
    obtain rfl := ok.inj h
    have hlabel := hfound
    unfold packageLabel at hfound
    rw [hcurrent, ok_bind] at hfound
    obtain ⟨owner, howner, -⟩ := bind_eq_ok.mp hfound
    rw [packageLabel_eq hcurrent howner] at hlabel
    exact ⟨current, owner, hcurrent, hmodule, hmodule ▸ howner,
      (ok.inj hlabel).trans hwanted⟩

theorem projectPackageFrom_found {moduleId : Int} {owner : ModuleInstance} {package : Package}
    (howner : get project.modules moduleId = .ok owner) (hmodule : package.moduleId = moduleId)
    (hat : From project index packages) (hmem : package ∈ packages) :
    ∃ id, projectPackageFrom project moduleId (label owner package) index packages = .ok id := by
  induction packages generalizing index with
  | nil => exact absurd hmem not_mem_nil
  | cons current packages ih =>
    rw [projectPackageFrom]
    by_cases hown : current.moduleId = moduleId
    · rw [if_pos hown, packageLabel_eq (get_eq hat.head) (hown ▸ howner), ok_bind]
      split
      · exact ⟨_, rfl⟩
      · next hother =>
        refine ih hat.tail ((mem_cons.mp hmem).resolve_left ?_)
        intro hsame; exact hother (by rw [hsame])
    · rw [if_neg hown]
      refine ih hat.tail ((mem_cons.mp hmem).resolve_left ?_)
      intro hsame; exact hown (hsame ▸ hmodule)

/-- The code finds the package that has the label. -/
theorem packageOf_iff {wanted : String} {p : DependencyPackage} : packageOf project wanted p ↔
    ∃ id, projectPackage project wanted = .ok id ∧ identity project id = some p := by
  have hat : From project 0 project.packages := rfl
  constructor
  · rintro ⟨root, package, hroot, hmem, hmodule, howner, hsource, hrelative, rfl⟩
    obtain ⟨id, hid⟩ := projectPackageFrom_found howner hmodule hat hmem
    obtain ⟨other, owner, hother, hmodule', howner', hlabel⟩ := projectPackageFrom_ok hat hid
    obtain rfl : p.owner = owner := ok.inj (howner.symm.trans howner')
    refine ⟨id, ?_, identity_eq_some.mpr ⟨other, p.owner, hother, hmodule' ▸ howner, hsource, ?_⟩⟩
    · rw [projectPackage, hroot]; exact hid
    · rw [label_injective hlabel, ← hrelative]
  · rintro ⟨id, hid, hp⟩
    obtain ⟨root, hroot, hid⟩ := bind_eq_ok.mp hid
    obtain ⟨package, owner, hpackage, hmodule, howner, hlabel⟩ := projectPackageFrom_ok hat hid
    obtain ⟨package', owner', hpackage', howner', hsource, rfl⟩ := identity_eq_some.mp hp
    obtain rfl : package = package' := ok.inj (hpackage.symm.trans hpackage')
    rw [hmodule] at howner'
    obtain rfl : owner = owner' := ok.inj (howner.symm.trans howner')
    exact ⟨root, package, hroot, mem_of_getElem? (get_eq_ok.mp hpackage).2, hmodule, howner,
      hsource, rfl, hlabel⟩

theorem packageOf_unique {wanted : String} {p q : DependencyPackage}
    (hp : packageOf project wanted p) (hq : packageOf project wanted q) : p = q := by
  obtain ⟨id, hid, hp⟩ := packageOf_iff.mp hp
  obtain ⟨id', hid', hq⟩ := packageOf_iff.mp hq
  obtain rfl : id = id' := ok.inj (hid.symm.trans hid')
  exact Option.some.inj (hp.symm.trans hq)

theorem projectPackageFrom_cases (hlinked : Linked project) (owner : Int) (wanted : String)
    (hat : From project index packages) :
    (∃ (id : Nat) (package : Package), projectPackageFrom project owner wanted index packages = .ok id ∧
      project.packages[id]? = some package) ∨
    Refused (projectPackageFrom project owner wanted index packages) := by
  induction packages generalizing index with
  | nil => exact .inr (refused_fail (by decide))
  | cons current packages ih =>
    rw [projectPackageFrom]
    split
    case isFalse => exact ih hat.tail
    case isTrue =>
      obtain ⟨p, hp⟩ := Option.isSome_iff_exists.mp (hlinked index current hat.head).1
      obtain ⟨package, found, hpackage, hfound, -, -⟩ := identity_eq_some.mp hp
      rw [packageLabel_eq hpackage hfound, ok_bind]
      split
      case isFalse => exact ih hat.tail
      case isTrue => exact .inl ⟨index, current, rfl, hat.head⟩

def RootOutside (project : Project Tree) : Prop :=
  ¬(0 ≤ project.root ∧ project.root < project.packages.length)

/-- A computation is refused, or faults for a stated reason only. -/
def Stopped (outside : Prop) {α : Type} (run : Except Stop α) : Prop :=
  Refused run ∨ run = .error .fault ∧ outside

theorem Stopped.bind {outside : Prop} {α β : Type} {run : Except Stop α} (h : Stopped outside run)
    (f : α → Except Stop β) : Stopped outside (run >>= f) := by
  obtain hrefused | ⟨rfl, hout⟩ := h
  · exact .inl (hrefused.bind f)
  · exact .inr ⟨rfl, hout⟩

theorem Stopped.mono {outside other : Prop} {run : Except Stop α} (h : Stopped outside run)
    (hmore : outside → other) : Stopped other run :=
  h.imp_right fun ⟨hfault, hout⟩ => ⟨hfault, hmore hout⟩

/-- A label leads to a package with an identity, or nowhere. -/
theorem projectPackage_cases (hlinked : Linked project) (wanted : String) :
    (∃ id p, projectPackage project wanted = .ok id ∧ identity project id = some p) ∨
      Stopped (RootOutside project) (projectPackage project wanted) := by
  unfold projectPackage
  obtain ⟨root, hget, -⟩ | ⟨hget, hout⟩ := get_cases project.packages project.root
  case inr =>
    rw [hget]; exact .inr (.inr ⟨rfl, hout⟩)
  rw [hget]
  have hat : From project 0 project.packages := rfl
  obtain ⟨id, package, hrun, hpackage⟩ | hrefused :=
    projectPackageFrom_cases hlinked root.moduleId wanted hat
  · obtain ⟨p, hp⟩ := Option.isSome_iff_exists.mp (hlinked id package hpackage).1
    exact .inl ⟨id, p, hrun, hp⟩
  · exact .inr (.inl hrefused)

/-- The component of the package that a change is about. -/
def Placed (production : Project Tree) (graph : PackageComponents) (change : PackageChanges)
    (component : Nat) : Prop :=
  ∃ p index, packageOf production change.name p ∧ graph.packages[index]? = some p ∧
    Root (up graph.parents) index component

/-- Both projects know the package of a change under one identity. -/
def Agreed (production tests : Project Tree) (change : PackageChanges) : Prop :=
  ∃ p, packageOf production change.name p ∧ packageOf tests change.name p

variable {production tests : Project Tree} {graph : PackageComponents}
  {E : DependencyPackage → DependencyPackage → Prop}

theorem changeComponents_ok (changes : List PackageChanges) (h : Represents graph E)
    (hagreed : ∀ change ∈ changes, Agreed production tests change) :
    ∃ components after, changeComponents production tests graph changes = .ok components ∧
      Represents after E ∧ Grows graph after ∧
      List.Forall₂ (Placed production after) changes components := by
  induction changes generalizing graph with
  | nil => exact ⟨[], graph, rfl, h, .refl graph, .nil⟩
  | cons change changes ih =>
    obtain ⟨⟨p, hproduction, htests⟩, hrest⟩ := forall_mem_cons.mp hagreed
    obtain ⟨id, hid, hp⟩ := packageOf_iff.mp hproduction
    obtain ⟨id', hid', hp'⟩ := packageOf_iff.mp htests
    obtain ⟨ordinary, first, hfirst, hrep, hordinary, hgrows⟩ := dependencyPackage_ok h hp
    obtain ⟨testing, second, hsecond, hrep', htesting, hgrows'⟩ := dependencyPackage_ok hrep hp'
    have hat := getElem?_prefix hgrows'.packages hordinary
    obtain ⟨hlt, -⟩ := List.getElem?_eq_some_iff.mp hat
    obtain rfl : ordinary = testing :=
      (getElem?_inj hlt hrep'.nodup).mp (hat.trans htesting.symm)
    obtain ⟨component, parents, hrun, hroot, hcompressed⟩ :=
      componentRoot_spec hrep'.range hrep'.grounded (by rw [hrep'.size]; exact hlt)
    obtain ⟨components, after, hall, hafter, hlater, hplaced⟩ := ih (hrep'.compressed hcompressed) hrest
    have hsame : Grows second { second with parents } := ⟨prefix_rfl, hcompressed.roots⟩
    have hgrown := hsame.trans hlater
    refine ⟨component :: components, after, ?_, hafter, (hgrows.trans hgrows').trans hgrown,
      .cons ?_ hplaced⟩
    · rw [changeComponents, hid, ok_bind, hfirst, ok_bind]
      dsimp only
      rw [hid', ok_bind, hsecond, ok_bind]
      rw [if_neg (not_not.mpr rfl), hrun, ok_bind]
      rw [hall]; rfl
    · exact ⟨p, ordinary, hproduction, getElem?_prefix hgrown.packages hat, hgrown.roots hroot⟩

theorem changeComponents_stopped (hproduction : Linked production) (htests : Linked tests)
    (changes : List PackageChanges) (h : Represents graph E)
    (hagreed : ¬(∀ change ∈ changes, Agreed production tests change)) :
    Stopped (RootOutside production ∨ RootOutside tests)
      (changeComponents production tests graph changes) := by
  induction changes generalizing graph with
  | nil => exact absurd (by simp) hagreed
  | cons change changes ih =>
    rw [changeComponents]
    obtain ⟨id, p, hid, hp⟩ | hstopped := projectPackage_cases hproduction change.name
    case inr => exact (hstopped.mono .inl).bind _
    obtain ⟨ordinary, first, hfirst, hrep, hordinary, hgrows⟩ := dependencyPackage_ok h hp
    rw [hid, ok_bind, hfirst, ok_bind]
    dsimp only
    obtain ⟨id', q, hid', hq⟩ | hstopped := projectPackage_cases htests change.name
    case inr => exact (hstopped.mono .inr).bind _
    obtain ⟨testing, second, hsecond, hrep', htesting, hgrows'⟩ := dependencyPackage_ok hrep hq
    rw [hid', ok_bind, hsecond, ok_bind]
    split
    case isTrue => exact .inl (refused_fail (by decide))
    case isFalse hsame =>
      obtain rfl : ordinary = testing := not_not.mp hsame
      have hat := getElem?_prefix hgrows'.packages hordinary
      obtain ⟨hlt, -⟩ := List.getElem?_eq_some_iff.mp hat
      obtain rfl : p = q := Option.some.inj (hat.symm.trans htesting)
      obtain ⟨component, parents, hrun, hroot, hcompressed⟩ :=
        componentRoot_spec hrep'.range hrep'.grounded (by rw [hrep'.size]; exact hlt)
      rw [hrun, ok_bind]
      apply Stopped.bind
      apply ih (hrep'.compressed hcompressed)
      intro hrest
      exact hagreed (forall_mem_cons.mpr
        ⟨⟨p, packageOf_iff.mpr ⟨id, hid, hp⟩, packageOf_iff.mpr ⟨id', hid', hq⟩⟩, hrest⟩)

/-! ## Conflicts -/

/-- One side changes the headers of a package or deletes it, the other side edits one. -/
def Disagree (change other : PackageChanges) : Prop :=
  (change.headers = true ∨ change.deleted = true) ∧ other.edited = true ∨
    (other.headers = true ∨ other.deleted = true) ∧ change.edited = true

theorem conflictingChanges_iff {change other : PackageChanges} :
    conflictingChanges change other = true ↔ Disagree change other := by
  simp [conflictingChanges, Disagree]

/-- Two changes conflict and their packages are in one component. -/
def meets (change : PackageChanges × Nat) (other : PackageChanges × Nat) : Bool :=
  conflictingChanges change.1 other.1 && change.2 == other.2

theorem getElem?_of_drop {values rest : List α} {index : Nat} {value : α}
    (h : values.drop index = value :: rest) :
    values[index]? = some value ∧ values.drop (index + 1) = rest := by
  constructor
  · rw [← add_zero index, ← getElem?_drop, h]; rfl
  · rw [← drop_drop, h]; rfl

variable {components : List Nat}

theorem conflictsWith_eq {change : PackageChanges} {a mine : Nat}
    (hmine : components[a]? = some mine) (right : List PackageChanges) :
    ∀ {b : Nat} {later : List Nat}, components.drop b = later → right.length = later.length →
      conflictsWith components change a b right =
        if (right.zip later).any (meets (change, mine)) then fail conflict else .ok () := by
  induction right with
  | nil =>
    intro b later _ _; rfl
  | cons other right ih =>
    intro b later hdrop hlength
    cases later with
    | nil => cases hlength
    | cons theirs later =>
      obtain ⟨htheirs, hrest⟩ := getElem?_of_drop hdrop
      have hmore := ih hrest (succ.inj hlength)
      rw [conflictsWith, zip_cons_cons, any_cons, hmore, get_eq hmine, get_eq htheirs,
        ok_bind, ok_bind]
      by_cases hconflicts : conflictingChanges change other = true
      · rw [if_pos hconflicts]
        by_cases hsame : mine = theirs
        · have hmeets : meets (change, mine) (other, theirs) = true := by
            simp [meets, hconflicts, hsame]
          rw [if_pos hsame, hmeets, Bool.true_or, if_pos rfl]
        · have hmeets : meets (change, mine) (other, theirs) = false := by
            simp [meets, hsame]
          rw [if_neg hsame, hmeets, Bool.false_or]
      · have hmeets : meets (change, mine) (other, theirs) = false := by
          simp [meets, hconflicts]
        rw [if_neg hconflicts, hmeets, Bool.false_or]

variable {right : List PackageChanges}

theorem changeConflicts_eq (hright : right.length = components.length) (left : List PackageChanges) :
    ∀ {a : Nat} {later : List Nat}, components.drop a = later → left.length = later.length →
      changeConflicts components right a left =
        if (left.zip later).any fun change => (right.zip components).any (meets change)
        then fail conflict else .ok () := by
  induction left with
  | nil =>
    intro a later _ _; rfl
  | cons change left ih =>
    intro a later hdrop hlength
    cases later with
    | nil => cases hlength
    | cons mine later =>
      obtain ⟨hmine, hrest⟩ := getElem?_of_drop hdrop
      have hinner : conflictsWith components change a 0 right = _ :=
        conflictsWith_eq hmine right rfl hright
      rw [changeConflicts, hinner, ih hrest (succ.inj hlength), zip_cons_cons,
        any_cons, drop_zero]
      cases (right.zip components).any (meets (change, mine)) with
      | true => rfl
      | false =>
        rfl

/-! ## The result -/

/-- Imports connect two packages, in whatever direction. -/
def Connected (projects : List (Project Tree)) : DependencyPackage → DependencyPackage → Prop :=
  EqvGen fun p q => ∃ project ∈ projects, Imports project p q

/-- A change of one side conflicts with one of the other side in a connected package. -/
def Conflict (left right : List PackageChanges) (production tests : Project Tree)
    (branches : List (Project Tree)) : Prop :=
  ∃ change ∈ left, ∃ other ∈ right, Disagree change other ∧
    ∃ p q, packageOf production change.name p ∧ packageOf production other.name q ∧
      Connected (production :: tests :: branches) p q

/-- What is asked of the projects before components are compared. -/
structure Accepted (left : List PackageChanges) (production tests : Project Tree)
    (branches : List (Project Tree)) : Prop where
  linked : ∀ project ∈ production :: tests :: branches, Linked project
  agreed : ∀ change ∈ left, Agreed production tests change

theorem meets_iff (h : Represents graph E) {change other : PackageChanges} {mine theirs : Nat}
    (hchange : Placed production graph change mine) (hother : Placed production graph other theirs) :
    meets (change, mine) (other, theirs) = true ↔ Disagree change other ∧
      ∃ p q, packageOf production change.name p ∧ packageOf production other.name q ∧ EqvGen E p q := by
  obtain ⟨p, i, hp, hi, hroot⟩ := hchange
  obtain ⟨q, j, hq, hj, hroot'⟩ := hother
  have hsame : mine = theirs ↔ EqvGen E p q := by
    rw [← h.same hi hj, same_iff hroot]
    exact ⟨fun heq => heq ▸ hroot', fun hother => hother.unique hroot'⟩
  rw [meets, Bool.and_eq_true, beq_iff_eq, hsame, conflictingChanges_iff]
  constructor
  · rintro ⟨hconflicts, hconnected⟩
    exact ⟨hconflicts, p, q, hp, hq, hconnected⟩
  · rintro ⟨hconflicts, p', q', hp', hq', hconnected⟩
    rw [packageOf_unique hp hp', packageOf_unique hq hq']
    exact ⟨hconflicts, hconnected⟩

variable {left : List PackageChanges}

theorem forall₂_map_eq (h : List.Forall₂ (Placed production graph) left components)
    (hnames : left.map PackageChanges.name = right.map PackageChanges.name) :
    List.Forall₂ (Placed production graph) right components := by
  induction h generalizing right with
  | nil =>
    obtain rfl : right = [] := map_eq_nil_iff.mp hnames.symm
    exact .nil
  | @cons change component left components hplaced _ ih =>
    obtain ⟨other, right, rfl, hname, hrest⟩ := map_eq_cons_iff.mp hnames.symm
    refine .cons ?_ (ih hrest.symm)
    unfold Placed at hplaced ⊢
    rwa [hname]

theorem forall₂_zip {changes : List PackageChanges}
    (h : List.Forall₂ (Placed production graph) changes components) :
    (∀ pair ∈ changes.zip components, pair.1 ∈ changes ∧ Placed production graph pair.1 pair.2) ∧
      ∀ change ∈ changes, ∃ component, (change, component) ∈ changes.zip components := by
  induction h with
  | nil => exact ⟨nofun, nofun⟩
  | cons hplaced _ ih =>
    constructor
    · rw [zip_cons_cons, forall_mem_cons]
      refine ⟨⟨.head _, hplaced⟩, ?_⟩
      intro pair hpair; exact ⟨.tail _ (ih.1 pair hpair).1, (ih.1 pair hpair).2⟩
    · rw [forall_mem_cons]
      refine ⟨⟨_, .head _⟩, ?_⟩
      intro change hchange
      obtain ⟨component, hmem⟩ := ih.2 change hchange
      exact ⟨component, .tail _ hmem⟩

/-- When the projects are accepted, the comparison of components decides about a conflict. -/
theorem changeConflicts_iff {branches : List (Project Tree)}
    (hnames : left.map PackageChanges.name = right.map PackageChanges.name)
    (h : Represents graph fun p q => ∃ project ∈ production :: tests :: branches, Imports project p q)
    (hplaced : List.Forall₂ (Placed production graph) left components) :
    (changeConflicts components right 0 left = fail conflict ∧
      Conflict left right production tests branches) ∨
    (changeConflicts components right 0 left = .ok () ∧
      ¬Conflict left right production tests branches) := by
  have hother := forall₂_map_eq hplaced hnames
  rw [changeConflicts_eq hother.length_eq left drop_zero hplaced.length_eq]
  obtain ⟨hleft, hleft'⟩ := forall₂_zip hplaced
  obtain ⟨hright, hright'⟩ := forall₂_zip hother
  have hiff : ((left.zip components).any fun change => (right.zip components).any (meets change)) =
      true ↔ Conflict left right production tests branches := by
    rw [any_eq_true]
    constructor
    · rintro ⟨⟨change, mine⟩, hmem, hinner⟩
      obtain ⟨⟨other, theirs⟩, hmem', hmeets⟩ := any_eq_true.mp hinner
      obtain ⟨hin, hchange⟩ := hleft _ hmem
      obtain ⟨hin', hplaced'⟩ := hright _ hmem'
      exact ⟨change, hin, other, hin', (meets_iff h hchange hplaced').mp hmeets⟩
    · rintro ⟨change, hin, other, hin', hmeets⟩
      obtain ⟨mine, hmem⟩ := hleft' change hin
      obtain ⟨theirs, hmem'⟩ := hright' other hin'
      refine ⟨(change, mine), hmem, any_eq_true.mpr ⟨(other, theirs), hmem', ?_⟩⟩
      exact (meets_iff h (hleft _ hmem).2 (hright _ hmem').2).mpr hmeets
  by_cases hall : ((left.zip components).any fun change => (right.zip components).any (meets change)) =
      true
  · exact .inl ⟨if_pos hall, hiff.mp hall⟩
  · exact .inr ⟨if_neg hall, fun hconflict => hall (hiff.mpr hconflict)⟩

/-- Without two changes that conflict nothing is compared. -/
theorem no_conflict (production tests : Project Tree) (branches : List (Project Tree))
    (h : ¬(left.any fun change => right.any fun other => conflictingChanges change other) = true) :
    ¬Conflict left right production tests branches := by
  rintro ⟨change, hchange, other, hother, hconflicts, -⟩
  exact h (any_eq_true.mpr ⟨change, hchange,
    any_eq_true.mpr ⟨other, hother, conflictingChanges_iff.mpr hconflicts⟩⟩)

theorem separate_cases (production tests : Project Tree) (branches : List (Project Tree))
    (hnames : left.map PackageChanges.name = right.map PackageChanges.name)
    (hneeded : (left.any fun change => right.any fun other => conflictingChanges change other) = true) :
    (Accepted left production tests branches ∧
      (separatePackageChanges left right production tests branches = fail conflict ∧
          Conflict left right production tests branches ∨
        separatePackageChanges left right production tests branches = .ok true ∧
          ¬Conflict left right production tests branches)) ∨
    (¬Accepted left production tests branches ∧ Stopped (RootOutside production ∨ RootOutside tests)
        (separatePackageChanges left right production tests branches)) := by
  rw [separatePackageChanges, hneeded]
  obtain ⟨hproduction, first, hfirst, hrep⟩ | ⟨hproduction, hrefused⟩ :=
    includeDependencies_cases production represents_empty
  case inr =>
    exact .inr ⟨fun haccepted => hproduction (haccepted.linked _ (by simp)),
      .inl (hrefused.bind _)⟩
  rw [hfirst, ok_bind]
  obtain ⟨htests, second, hsecond, hrep'⟩ | ⟨htests, hrefused⟩ :=
    includeDependencies_cases tests hrep
  case inr =>
    exact .inr ⟨fun haccepted => htests (haccepted.linked _ (by simp)), .inl (hrefused.bind _)⟩
  rw [hsecond, ok_bind]
  obtain ⟨hbranches, third, hthird, hrep''⟩ | ⟨hbranches, hrefused⟩ :=
    includeAll_cases branches hrep'
  case inr =>
    refine .inr ⟨fun haccepted => hbranches fun project hproject => ?_, .inl (hrefused.bind _)⟩
    exact haccepted.linked project (.tail _ (.tail _ hproject))
  rw [hthird, ok_bind]
  by_cases hagreed : ∀ change ∈ left, Agreed production tests change
  case neg =>
    exact .inr ⟨fun haccepted => hagreed haccepted.agreed,
      (changeComponents_stopped hproduction htests left hrep'' hagreed).bind _⟩
  obtain ⟨components, after, hrun, hafter, -, hplaced⟩ := changeComponents_ok left hrep'' hagreed
  rw [hrun, ok_bind]
  have hall : Represents after fun p q =>
      ∃ project ∈ production :: tests :: branches, Imports project p q := by
    apply hafter.congr
    intro p q
    rw [exists_mem_cons_iff, exists_mem_cons_iff, false_or, or_assoc]
  refine .inl ⟨⟨?_, hagreed⟩, ?_⟩
  · rw [forall_mem_cons, forall_mem_cons]
    exact ⟨hproduction, htests, hbranches⟩
  · obtain ⟨hconflicts, hconflict⟩ | ⟨hconflicts, hnone⟩ := changeConflicts_iff hnames hall hplaced
    · rw [hconflicts]; exact .inl ⟨rfl, hconflict⟩
    · rw [hconflicts]; exact .inr ⟨rfl, hnone⟩

/-- For changes of the same packages a conflict is reported exactly when the projects are accepted
and conflicting changes are in connected packages. The changes are separate when none of them
conflict, or none of those that do are connected. A run faults only where the root of a project is
not one of its packages; so every search for a root ends. -/
theorem separate_package_changes_exact (left right : List PackageChanges)
    (production tests : Project Tree) (branches : List (Project Tree))
    (hnames : left.map PackageChanges.name = right.map PackageChanges.name) :
    (separatePackageChanges left right production tests branches = .error (.error conflict) ↔
      Accepted left production tests branches ∧ Conflict left right production tests branches) ∧
    (separatePackageChanges left right production tests branches = .ok true ↔
      (∀ change ∈ left, ∀ other ∈ right, ¬Disagree change other) ∨
        Accepted left production tests branches ∧ ¬Conflict left right production tests branches) ∧
    (separatePackageChanges left right production tests branches = .error .fault →
      RootOutside production ∨ RootOutside tests) := by
  by_cases hneeded : (left.any fun change =>
      right.any fun other => conflictingChanges change other) = true
  case neg =>
    have hnone := no_conflict production tests branches hneeded
    have hrun : separatePackageChanges left right production tests branches = .ok true := by
      rw [separatePackageChanges, eq_false_of_ne_true hneeded]; rfl
    have hfree : ∀ change ∈ left, ∀ other ∈ right, ¬Disagree change other := by
      intro change hchange other hother hconflicts
      exact hneeded (any_eq_true.mpr ⟨change, hchange,
        any_eq_true.mpr ⟨other, hother, conflictingChanges_iff.mpr hconflicts⟩⟩)
    rw [hrun]
    exact ⟨iff_of_false nofun fun h => hnone h.2, iff_of_true rfl (.inl hfree), nofun⟩
  have hpair : ¬∀ change ∈ left, ∀ other ∈ right, ¬Disagree change other := by
    intro hfree
    obtain ⟨change, hchange, hinner⟩ := any_eq_true.mp hneeded
    obtain ⟨other, hother, hconflicts⟩ := any_eq_true.mp hinner
    exact hfree change hchange other hother (conflictingChanges_iff.mp hconflicts)
  obtain ⟨haccepted, ⟨hrun, hconflict⟩ | ⟨hrun, hnone⟩⟩ | ⟨hrejected, hstopped⟩ :=
    separate_cases production tests branches hnames hneeded
  · rw [hrun]
    refine ⟨iff_of_true rfl ⟨haccepted, hconflict⟩, iff_of_false nofun ?_, nofun⟩
    rintro (hfree | ⟨-, hnone⟩)
    · exact hpair hfree
    · exact hnone hconflict
  · rw [hrun]
    exact ⟨iff_of_false nofun fun h => hnone h.2, iff_of_true rfl (.inr ⟨haccepted, hnone⟩), nofun⟩
  · obtain ⟨message, hrun, hmessage⟩ | ⟨hrun, hout⟩ := hstopped
    · rw [hrun]
      refine ⟨iff_of_false ?_ fun h => hrejected h.1, iff_of_false nofun ?_, nofun⟩
      · intro heq; exact hmessage (Stop.error.inj (error.inj heq))
      · rintro (hfree | ⟨haccepted, -⟩)
        · exact hpair hfree
        · exact hrejected haccepted
    · rw [hrun]
      refine ⟨iff_of_false nofun fun h => hrejected h.1, iff_of_false nofun ?_, fun _ => hout⟩
      rintro (hfree | ⟨haccepted, -⟩)
      · exact hpair hfree
      · exact hrejected haccepted

/-- A module with a package that imports another one of its packages. -/
def importing : Project Unit where
  files := []
  modules := [⟨"sample", "pinned"⟩]
  packages := [⟨0, "", [⟨"sample.utility", 1⟩]⟩, ⟨0, "utility", []⟩]
  root := 0

def headerChange : List PackageChanges :=
  [⟨"sample", true, false, false⟩, ⟨"sample.utility", false, false, false⟩]

def utilityEdit : List PackageChanges :=
  [⟨"sample", false, false, false⟩, ⟨"sample.utility", false, true, false⟩]

/-- A change of a header conflicts with an edit of the package that is imported. -/
theorem importing_conflict : Conflict headerChange utilityEdit importing importing [] := by
  have hexact := separate_package_changes_exact headerChange utilityEdit importing importing [] rfl
  exact (hexact.1.mp (by decide)).2

end Loom.Components
