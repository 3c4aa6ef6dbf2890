import Loom.Project.ImportCycles
import Loom.Project.ImportNames

/-
  When the imports of a project can be rebuilt, and what they are then.
-/

namespace Loom.Regraph

open Texts Packages SourceImports Precedence Relation List Results Except

variable {project : Project Node} {tests : Bool}

/-! ## What the sources use -/

def Selected (tests : Bool) (file : SourceFile Node) : Prop := file.testOnly = true → tests = true

/-- A selected file belongs to a package that has a name, and its imports name packages. -/
def FileLocated (project : Project Node) (tests : Bool) (file : SourceFile Node) : Prop :=
  Selected tests file → (0 ≤ file.package ∧ file.package < project.packages.length) ∧
    (∃ owner, packageLabel project.modules project.packages file.package = .ok owner) ∧
    ∀ node ∈ (selectSource file.tree tests).children, Named node

def Located (project : Project Node) (tests : Bool) : Prop :=
  ∀ file ∈ project.files, FileLocated project tests file

/-- A selected file of the package uses a spelling, in a test or not. -/
def FileUses (project : Project Node) (tests : Bool) (file : SourceFile Node) (p : Nat) (test : Bool)
    (spelling : String) : Prop :=
  Selected tests file ∧ file.package = p ∧
    ∃ owner, packageLabel project.modules project.packages file.package = .ok owner ∧
      ∃ node ∈ (selectSource file.tree tests).children,
        Mentions owner file.testOnly node test spelling

def Uses (project : Project Node) (tests : Bool) (p : Nat) (test : Bool) (spelling : String) : Prop :=
  ∃ file ∈ project.files, FileUses project tests file p test spelling

/-- The package has a source that is not of tests alone. -/
def Produces (project : Project Node) (p : Nat) : Prop :=
  ∃ file ∈ project.files, file.testOnly = false ∧ file.package = p

/-! ## Collecting -/

def namesOf (state : Collected) (test : Bool) (p : Nat) : List String :=
  if test then state.testing.getD p [] else state.ordinary.getD p []

/-- The collected lists have one entry for each package. -/
structure Sized (n : Nat) (state : Collected) : Prop where
  ordinary : state.ordinary.length = n
  testing : state.testing.length = n
  production : state.production.length = n

variable {α : Type} {state : Collected}

theorem getD_set {values : List α} {i p : Nat} {value default : α} (hi : i < values.length) :
    (values.set i value).getD p default = if p = i then value else values.getD p default := by
  rw [getD_eq_getElem?_getD, getD_eq_getElem?_getD]
  by_cases hp : p = i
  · subst hp
    rw [if_pos rfl, getElem?_set_self hi]; rfl
  · rw [if_neg hp, getElem?_set_ne (Ne.symm hp)]

theorem collectFile_spec {after : Collected} {file : SourceFile Node}
    (hsized : Sized project.packages.length state)
    (h : collectFile project tests state file = .ok after) :
    Sized project.packages.length after ∧
      (∀ p test spelling, spelling ∈ namesOf after test p ↔
        FileUses project tests file p test spelling ∨ spelling ∈ namesOf state test p) ∧
      ∀ p, after.production.getD p false = true ↔
        (Selected tests file ∧ file.testOnly = false ∧ file.package = (p : Int)) ∨
          state.production.getD p false = true := by
  unfold collectFile at h
  split at h
  case isTrue hskip =>
    cases h
    obtain ⟨htest, hoff⟩ : file.testOnly = true ∧ tests = false := by simpa using hskip
    have hselected : ¬Selected tests file := fun hsel => by simp [hsel htest] at hoff
    exact ⟨hsized, fun p test spelling => by simp [FileUses, hselected], fun p => by simp [hselected]⟩
  case isFalse hkeep =>
    have hselected : Selected tests file := by
      intro htest
      simpa [htest] using hkeep
    split at h
    case isTrue => cases h
    case isFalse hinside =>
      obtain ⟨owner, howner, h⟩ := bind_eq_ok.mp h
      obtain ⟨names, hnames, h⟩ := bind_eq_ok.mp h
      cases h
      have hindex : file.package.toNat < project.packages.length := by omega
      have hsame : ∀ p : Nat, file.package = (p : Int) ↔ p = file.package.toNat := by omega
      refine ⟨⟨?_, ?_, ?_⟩, ?_, ?_⟩
      · rw [length_set, hsized.ordinary]
      · rw [length_set, hsized.testing]
      · split
        · exact hsized.production
        · rw [length_set, hsized.production]
      · intro p test spelling
        have huses : FileUses project tests file p test spelling ↔ p = file.package.toNat ∧
            ∃ node ∈ (selectSource file.tree tests).children,
              Mentions owner file.testOnly node test spelling := by
          constructor
          · rintro ⟨-, hp, other, hother, hnode⟩
            obtain rfl := ok.inj (howner.symm.trans hother)
            exact ⟨(hsame p).mp hp, hnode⟩
          · rintro ⟨hp, hnode⟩
            exact ⟨hselected, (hsame p).mpr hp, owner, howner, hnode⟩
        rw [huses]
        have hmem := @mem_collectSourceImports owner file.testOnly test _ _ _ spelling hnames
        unfold namesOf
        rw [getD_set (by rw [hsized.testing]; exact hindex),
          getD_set (by rw [hsized.ordinary]; exact hindex)]
        by_cases hp : p = file.package.toNat
        · subst hp
          cases test <;> simpa [group] using hmem
        · simp [hp]
      · intro p
        rw [hsame]
        cases htest : file.testOnly with
        | true => simp
        | false =>
          rw [if_neg (by decide), getD_set (by rw [hsized.production]; exact hindex)]
          by_cases hp : p = file.package.toNat
          · simp [hselected]
          · simp [hp]

theorem collectFile_ok {state : Collected} {file : SourceFile Node} :
    (∃ after, collectFile project tests state file = .ok after) ↔
      FileLocated project tests file := by
  unfold collectFile FileLocated
  by_cases hskip : (file.testOnly && !tests) = true
  · rw [if_pos hskip]
    obtain ⟨htest, hoff⟩ : file.testOnly = true ∧ tests = false := by simpa using hskip
    refine iff_of_true ⟨state, rfl⟩ fun hselected => ?_
    rw [hselected htest] at hoff; exact absurd hoff (by decide)
  · have hselected : Selected tests file := by
      intro htest
      simpa [htest] using hskip
    rw [if_neg hskip]
    by_cases hout : file.package < 0 ∨ file.package ≥ project.packages.length
    · rw [if_pos hout]
      refine iff_of_false (fun h => absurd h.choose_spec nofun) fun h => ?_
      have := (h hselected).1
      omega
    · rw [if_neg hout]
      cases howner : packageLabel project.modules project.packages file.package with
      | error stop =>
        refine iff_of_false (fun h => absurd h.choose_spec nofun) fun h => ?_
        cases (h hselected).2.1.choose_spec
      | ok owner =>
        rw [ok_bind]
        have hcollect := @collectSourceImports_ok owner file.testOnly
          (state.ordinary.getD file.package.toNat [], state.testing.getD file.package.toNat [])
          (selectSource file.tree tests)
        cases hnames : collectSourceImports (selectSource file.tree tests) owner file.testOnly
            (state.ordinary.getD file.package.toNat [],
              state.testing.getD file.package.toNat []) with
        | error stop =>
          rw [hnames] at hcollect
          refine iff_of_false (fun h => absurd h.choose_spec nofun) fun h => ?_
          cases (hcollect.mpr (h hselected).2.2).choose_spec
        | ok names =>
          rw [hnames] at hcollect
          refine iff_of_true ⟨_, rfl⟩ fun _ => ⟨by omega, ⟨owner, rfl⟩, ?_⟩
          exact hcollect.mp ⟨names, rfl⟩

/-- The loop over files, behind what is collected already. -/
theorem collectFiles_from (files : List (SourceFile Node)) :
    ∀ {state : Collected}, Sized project.packages.length state →
      ((∃ after, files.foldlM (collectFile project tests) state = .ok after) ↔
        ∀ file ∈ files, FileLocated project tests file) ∧
      ∀ after, files.foldlM (collectFile project tests) state = .ok after →
        (∀ p test spelling, spelling ∈ namesOf after test p ↔
          (∃ file ∈ files, FileUses project tests file p test spelling) ∨
            spelling ∈ namesOf state test p) ∧
        ∀ p, after.production.getD p false = true ↔
          (∃ file ∈ files, Selected tests file ∧ file.testOnly = false ∧ file.package = (p : Int)) ∨
            state.production.getD p false = true := by
  induction files with
  | nil =>
    intro state _
    refine ⟨iff_of_true ⟨state, rfl⟩ nofun, fun after h => ?_⟩
    cases h
    exact ⟨by simp, by simp⟩
  | cons file files ih =>
    intro state hsized
    have hfile := @collectFile_ok project tests state file
    rw [foldlM_cons, forall_mem_cons]
    cases hrun : collectFile project tests state file with
    | error stop =>
      rw [hrun] at hfile
      refine ⟨iff_of_false (fun h => absurd h.choose_spec nofun) fun h => ?_, nofun⟩
      cases (hfile.mpr h.1).choose_spec
    | ok middle =>
      rw [hrun] at hfile
      obtain ⟨hmiddle, hnames, hproduction⟩ := collectFile_spec hsized hrun
      obtain ⟨hok, hspec⟩ := ih hmiddle
      rw [ok_bind]
      refine ⟨?_, fun after hafter => ?_⟩
      · rw [hok]; exact ⟨fun h => ⟨hfile.mp ⟨middle, rfl⟩, h⟩, fun h => h.2⟩
      · obtain ⟨hall, hproduce⟩ := hspec after hafter
        refine ⟨fun p test spelling => ?_, fun p => ?_⟩
        · rw [hall, hnames, exists_mem_cons_iff]; simp [or_assoc, or_left_comm]
        · rw [hproduce, hproduction, exists_mem_cons_iff]
          simp [or_assoc, or_left_comm]

theorem sized_start (packages : List Package) : Sized packages.length
    { ordinary := packages.map fun _ => []
      testing := packages.map fun _ => []
      production := packages.map fun _ => false } :=
  ⟨length_map .., length_map .., length_map ..⟩

theorem getD_const {β : Type} (values : List α) (p : Nat) (value : β) :
    (values.map fun _ => value).getD p value = value := by
  rw [getD_eq_getElem?_getD, getElem?_map]
  cases values[p]? <;> rfl

theorem collectFiles_ok :
    (∃ state, collectFiles project tests = .ok state) ↔ Located project tests :=
  (collectFiles_from project.files (sized_start project.packages)).1

theorem collectFiles_spec (h : collectFiles project tests = .ok state) :
    (∀ p test spelling, spelling ∈ namesOf state test p ↔ Uses project tests p test spelling) ∧
      ∀ p, state.production.getD p false = true ↔ Produces project p := by
  obtain ⟨hnames, hproduction⟩ :=
    (collectFiles_from project.files (sized_start project.packages)).2 state h
  refine ⟨fun p test spelling => ?_, fun p => ?_⟩
  · rw [hnames]
    unfold namesOf
    rw [getD_const]; simp [Uses]
  · rw [hproduction]
    rw [getD_const]
    simp only [Bool.false_eq_true, or_false]
    constructor
    · rintro ⟨file, hfile, -, h⟩
      exact ⟨file, hfile, h⟩
    · rintro ⟨file, hfile, htest, hp⟩
      exact ⟨file, hfile, fun hother => absurd (htest.symm.trans hother) (by decide), htest, hp⟩

/-! ## The edges of a package -/

/-- A spelling resolves to a package that has sources which are not of tests alone. -/
def Found (project : Project Node) (production : List Bool) (owner : Int) (spelling : String)
    (target : Nat) : Prop :=
  basisImport project owner spelling = .ok target ∧ production.getD target false = true

section
variable {production : List Bool} {owner : Int}

theorem resolveNames_cons {spelling : String} {names : List String} {imports after : List PackageImport}
    {targets : List Nat}
    (h : resolveNames project production owner (spelling :: names) imports = .ok (after, targets)) :
    ∃ target others, Found project production owner spelling target ∧
      resolveNames project production owner names
        (if imports.any fun previous => previous.spelling == spelling then imports
          else imports ++ [⟨spelling, target⟩]) = .ok (after, others) ∧
      targets = target :: others := by
  obtain ⟨target, htarget, h⟩ := bind_eq_ok.mp h
  split at h
  case isTrue => cases h
  case isFalse hproduces =>
    obtain ⟨others, hothers, h⟩ := bind_eq_ok.mp h
    cases h
    exact ⟨target, others.2, ⟨htarget, by simpa using hproduces⟩, hothers, rfl⟩

theorem resolveNames_ok (names : List String) : ∀ imports : List PackageImport,
    (∃ answer, resolveNames project production owner names imports = .ok answer) ↔
      ∀ spelling ∈ names, ∃ target, Found project production owner spelling target := by
  induction names with
  | nil => exact fun imports => iff_of_true ⟨_, rfl⟩ nofun
  | cons spelling names ih =>
    intro imports
    rw [forall_mem_cons]
    constructor
    · rintro ⟨⟨after, targets⟩, h⟩
      obtain ⟨target, others, hfound, hrest, -⟩ := resolveNames_cons h
      exact ⟨⟨target, hfound⟩, (ih _).mp ⟨_, hrest⟩⟩
    · rintro ⟨⟨target, htarget, hproduces⟩, hrest⟩
      obtain ⟨answer, hanswer⟩ := (ih (if imports.any fun previous => previous.spelling == spelling
        then imports else imports ++ [⟨spelling, target⟩])).mpr hrest
      refine ⟨(answer.1, target :: answer.2), ?_⟩
      rw [resolveNames, htarget, ok_bind, if_neg (by rw [hproduces]; decide)]
      dsimp only
      rw [hanswer]; rfl

/-- The targets are those of the names, and every edge is one of a name. -/
theorem resolveNames_spec (names : List String) : ∀ {imports after : List PackageImport}
    {targets : List Nat},
    resolveNames project production owner names imports = .ok (after, targets) →
      (∀ target, target ∈ targets ↔ ∃ spelling ∈ names, basisImport project owner spelling = .ok target) ∧
      (∀ imported ∈ after, imported ∈ imports ∨ (imported.spelling ∈ names ∧
        ∃ target : Nat, basisImport project owner imported.spelling = .ok target ∧
          imported.target = target)) ∧
      (∀ imported ∈ imports, imported ∈ after) ∧
      ∀ spelling ∈ names, ∃ imported ∈ after, imported.spelling = spelling := by
  induction names with
  | nil =>
    intro imports after targets h
    cases h
    exact ⟨by simp, fun imported h => .inl h, fun imported h => h, nofun⟩
  | cons spelling names ih =>
    intro imports after targets h
    obtain ⟨target, others, ⟨htarget, -⟩, hrest, rfl⟩ := resolveNames_cons h
    obtain ⟨htargets, hedges, hkept, hall⟩ := ih hrest
    refine ⟨fun other => ?_, fun imported himported => ?_, fun imported himported => ?_, ?_⟩
    · rw [mem_cons, htargets, exists_mem_cons_iff, htarget, ok.injEq, eq_comm]
    · obtain hbefore | ⟨hname, hedge⟩ := hedges imported himported
      · split at hbefore
        · exact .inl hbefore
        · obtain hbefore | hnew := mem_append.mp hbefore
          · exact .inl hbefore
          · rw [mem_singleton.mp hnew]
            exact .inr ⟨.head _, target, htarget, rfl⟩
      · exact .inr ⟨.tail _ hname, hedge⟩
    · apply hkept
      split
      · exact himported
      · exact mem_append_left _ himported
    · rw [forall_mem_cons]
      refine ⟨?_, hall⟩
      by_cases hseen : (imports.any fun previous => previous.spelling == spelling) = true
      · obtain ⟨previous, hprevious, hsame⟩ := any_eq_true.mp hseen
        exact ⟨previous, hkept previous (by rwa [if_pos hseen]), eq_of_beq hsame⟩
      · refine ⟨⟨spelling, target⟩, hkept _ ?_, rfl⟩
        rw [if_neg hseen]; exact mem_append_right _ (mem_singleton.mpr rfl)

/-- Where two projects resolve the names alike, they get the same edges. -/
theorem resolveNames_congr {other : Project Node} (names : List String)
    (h : ∀ spelling ∈ names, basisImport other owner spelling = basisImport project owner spelling) :
    ∀ imports : List PackageImport, resolveNames other production owner names imports =
      resolveNames project production owner names imports := by
  induction names with
  | nil => exact fun imports => rfl
  | cons spelling names ih =>
    intro imports
    have hrest := ih fun another hanother => h another (.tail _ hanother)
    rw [resolveNames, resolveNames, h spelling (.head _)]; simp only [hrest]

end

/-! ## All packages -/

/-- A package with its new edges, and the targets of those that are not of tests alone. -/
structure Rebuilt (project : Project Node) (state : Collected) (p : Nat) (current next : Package)
    (targets : List Nat) : Prop where
  moduleId : next.moduleId = current.moduleId
  relative : next.relative = current.relative
  targets : ∀ target, target ∈ targets ↔
    ∃ spelling ∈ namesOf state false p, basisImport project current.moduleId spelling = .ok target
  resolved : ∀ imported ∈ next.imports, ∃ target : Nat,
    basisImport project current.moduleId imported.spelling = .ok target ∧ imported.target = target
  complete : ∀ test, ∀ spelling ∈ namesOf state test p,
    ∃ imported ∈ next.imports, imported.spelling = spelling

theorem rebuildPackages_cons {index : Nat} {current : Package} {rest packages : List Package}
    {edges : List (List Nat)}
    (h : rebuildPackages project state index (current :: rest) = .ok (packages, edges)) :
    ∃ next targets others more, Rebuilt project state index current next targets ∧
      rebuildPackages project state (index + 1) rest = .ok (others, more) ∧
      packages = next :: others ∧ edges = targets :: more := by
  obtain ⟨normal, hnormal, h⟩ := bind_eq_ok.mp h
  obtain ⟨all, hall, h⟩ := bind_eq_ok.mp h
  obtain ⟨others, hothers, h⟩ := bind_eq_ok.mp h
  cases h
  obtain ⟨htargets, hfirst, -, hnames⟩ := resolveNames_spec _ hnormal
  obtain ⟨-, hsecond, hkept, hmore⟩ := resolveNames_spec _ hall
  refine ⟨{ current with imports := all.1 }, normal.2, others.1, others.2,
    ⟨rfl, rfl, htargets, ?_, ?_⟩, hothers, rfl, rfl⟩
  · intro imported himported
    obtain hbefore | ⟨-, hedge⟩ := hsecond imported himported
    · obtain hnone | ⟨-, hedge⟩ := hfirst imported hbefore
      · exact absurd hnone not_mem_nil
      · exact hedge
    · exact hedge
  · intro test spelling hspelling
    cases test with
    | true => exact hmore spelling hspelling
    | false =>
      obtain ⟨imported, himported, hsame⟩ := hnames spelling hspelling
      exact ⟨imported, hkept imported himported, hsame⟩

theorem rebuildPackages_cons_ok {index : Nat} {current : Package} {rest : List Package} :
    (∃ answer, rebuildPackages project state index (current :: rest) = .ok answer) ↔
      (∀ test, ∀ spelling ∈ namesOf state test index,
        ∃ target, Found project state.production current.moduleId spelling target) ∧
      ∃ answer, rebuildPackages project state (index + 1) rest = .ok answer := by
  constructor
  · rintro ⟨answer, h⟩
    obtain ⟨normal, hnormal, h⟩ := bind_eq_ok.mp h
    obtain ⟨all, hall, h⟩ := bind_eq_ok.mp h
    obtain ⟨others, hothers, -⟩ := bind_eq_ok.mp h
    refine ⟨fun test => ?_, others, hothers⟩
    cases test with
    | false => exact (resolveNames_ok _ _).mp ⟨normal, hnormal⟩
    | true => exact (resolveNames_ok _ _).mp ⟨all, hall⟩
  · rintro ⟨hfound, others, hothers⟩
    obtain ⟨normal, hnormal⟩ := (resolveNames_ok _ []).mpr (hfound false)
    obtain ⟨all, hall⟩ := (resolveNames_ok _ normal.1).mpr (hfound true)
    refine ⟨({ current with imports := all.1 } :: others.1, normal.2 :: others.2), ?_⟩
    unfold namesOf at hnormal hall
    rw [if_neg (by decide)] at hnormal
    rw [if_pos rfl] at hall
    rw [rebuildPackages, hnormal, ok_bind, hall, hothers]; rfl

theorem rebuildPackages_ok {state : Collected} (packages : List Package) : ∀ index : Nat,
    (∃ answer, rebuildPackages project state index packages = .ok answer) ↔
      ∀ (j : Nat) (current : Package), packages[j]? = some current →
        ∀ test, ∀ spelling ∈ namesOf state test (index + j),
          ∃ target, Found project state.production current.moduleId spelling target := by
  induction packages with
  | nil => exact fun index => iff_of_true ⟨_, rfl⟩ nofun
  | cons current rest ih =>
    intro index
    rw [rebuildPackages_cons_ok, ih (index + 1)]
    constructor
    · rintro ⟨hhere, hrest⟩ j other hother
      cases j with
      | zero =>
        cases hother
        exact hhere
      | succ j =>
        rw [show index + (j + 1) = index + 1 + j by omega]
        exact hrest j other hother
    · intro h
      refine ⟨h 0 current rfl, fun j other hother => ?_⟩
      rw [show index + 1 + j = index + (j + 1) by omega]
      exact h (j + 1) other hother

theorem rebuildPackages_spec (packages : List Package) :
    ∀ {index : Nat} {after : List Package} {edges : List (List Nat)},
      rebuildPackages project state index packages = .ok (after, edges) →
      after.length = packages.length ∧ edges.length = packages.length ∧
        ∀ (j : Nat) (current : Package), packages[j]? = some current →
          ∃ next targets, after[j]? = some next ∧ edges[j]? = some targets ∧
            Rebuilt project state (index + j) current next targets := by
  induction packages with
  | nil =>
    intro index after edges h
    cases h
    exact ⟨rfl, rfl, nofun⟩
  | cons current rest ih =>
    intro index after edges h
    obtain ⟨next, targets, others, more, hrebuilt, hrest, rfl, rfl⟩ := rebuildPackages_cons h
    obtain ⟨hafter, hedges, hall⟩ := ih hrest
    refine ⟨by rw [length_cons, hafter, length_cons],
      by rw [length_cons, hedges, length_cons], fun j other hother => ?_⟩
    cases j with
    | zero =>
      cases hother
      exact ⟨next, targets, rfl, rfl, hrebuilt⟩
    | succ j =>
      rw [show index + (j + 1) = index + 1 + j by omega]
      exact hall j other hother

/-! ## The production graph -/

/-- A package imports another one outside of its tests. -/
def ProductionEdge (project : Project Node) (tests : Bool) (p q : Nat) : Prop :=
  ∃ package spelling, project.packages[p]? = some package ∧ Uses project tests p false spelling ∧
    Resolves project package.moduleId spelling q

def ImportCycle (project : Project Node) (tests : Bool) : Prop :=
  ∃ p, TransGen (ProductionEdge project tests) p p

/-- Every spelling that is used resolves to a package with sources that are not of tests alone. -/
def AllResolve (project : Project Node) (tests : Bool) : Prop :=
  ∀ (p : Nat) (package : Package), project.packages[p]? = some package →
    ∀ test spelling, Uses project tests p test spelling →
      ∃ target, Resolves project package.moduleId spelling target ∧ Produces project target

/-- What the two steps in front of the check answer. -/
structure Prepared (project : Project Node) (tests : Bool) (state : Collected)
    (packages : List Package) (edges : List (List Nat)) : Prop where
  collected : collectFiles project tests = .ok state
  rebuilt : rebuildPackages project state 0 project.packages = .ok (packages, edges)

section
variable {state : Collected} {packages : List Package} {edges : List (List Nat)}

theorem rebuildImports_eq (h : Prepared project tests state packages edges) :
    rebuildImports project tests = do
      let _ ← acyclicImports edges
      return { project with packages := packages } := by
  rw [rebuildImports, h.collected, ok_bind, h.rebuilt, ok_bind]

theorem Prepared.package (h : Prepared project tests state packages edges) {p : Nat}
    {current : Package} (hcurrent : project.packages[p]? = some current) :
    ∃ next targets, packages[p]? = some next ∧ edges[p]? = some targets ∧
      Rebuilt project state p current next targets := by
  have hall := (rebuildPackages_spec _ h.rebuilt).2.2 p current hcurrent
  rwa [Nat.zero_add] at hall

theorem basisImport_lt {owner : Int} {spelling : String} {target : Nat}
    (h : basisImport project owner spelling = .ok target) : target < project.packages.length := by
  obtain ⟨-, -, ⟨package, hpackage, -⟩, -⟩ := basisImport_eq_ok.mp h
  exact (List.getElem?_eq_some_iff.mp hpackage).1

theorem Prepared.found (h : Prepared project tests state packages edges) {p : Nat}
    {current : Package} (hcurrent : project.packages[p]? = some current) {test : Bool}
    {spelling : String} (huses : Uses project tests p test spelling) :
    ∃ target, basisImport project current.moduleId spelling = .ok target ∧ Produces project target := by
  obtain ⟨hnames, hproduction⟩ := collectFiles_spec h.collected
  have hall := (rebuildPackages_ok _ 0).mp ⟨_, h.rebuilt⟩ p current hcurrent test spelling
  rw [Nat.zero_add] at hall
  obtain ⟨target, htarget, hproduces⟩ := hall ((hnames p test spelling).mpr huses)
  exact ⟨target, htarget, (hproduction target).mp hproduces⟩

theorem Prepared.inside (h : Prepared project tests state packages edges) : Inside edges := by
  intro targets htargets target htarget
  obtain ⟨p, hp, rfl⟩ := getElem_of_mem htargets
  obtain ⟨-, hlength, -⟩ := rebuildPackages_spec _ h.rebuilt
  have hcurrent := getElem?_eq_getElem (hlength ▸ hp : p < project.packages.length)
  obtain ⟨next, others, -, hothers, hrebuilt⟩ := h.package hcurrent
  rw [getElem?_eq_getElem hp] at hothers
  cases hothers
  obtain ⟨spelling, -, himport⟩ := (hrebuilt.targets target).mp htarget
  rw [hlength]; exact basisImport_lt himport

/-- The edges that are checked are those of the production graph. -/
theorem Prepared.edge_iff (h : Prepared project tests state packages edges) (p q : Nat) :
    Edge (targetsOf edges) p q ↔ ProductionEdge project tests p q := by
  obtain ⟨hnames, -⟩ := collectFiles_spec h.collected
  constructor
  · intro hedge
    have hp := mem_range.mp (edge_inside h.inside hedge).1
    obtain ⟨-, hlength, -⟩ := rebuildPackages_spec _ h.rebuilt
    have hcurrent := getElem?_eq_getElem (hlength ▸ hp : p < project.packages.length)
    obtain ⟨next, targets, -, htargets, hrebuilt⟩ := h.package hcurrent
    rw [Edge, targetsOf, getD_eq_getElem?_getD, htargets] at hedge
    obtain ⟨spelling, hspelling, himport⟩ := (hrebuilt.targets q).mp hedge
    exact ⟨_, spelling, hcurrent, (hnames p false spelling).mp hspelling,
      basisImport_resolves himport⟩
  · rintro ⟨current, spelling, hcurrent, huses, hresolves⟩
    obtain ⟨next, targets, -, htargets, hrebuilt⟩ := h.package hcurrent
    obtain ⟨target, himport, -⟩ := h.found hcurrent huses
    obtain rfl := (basisImport_resolves himport).unique hresolves
    rw [Edge, targetsOf, getD_eq_getElem?_getD, htargets]
    exact (hrebuilt.targets target).mpr ⟨spelling, (hnames p false spelling).mpr huses, himport⟩

theorem Prepared.cyclic_iff (h : Prepared project tests state packages edges) :
    Cyclic edges ↔ ImportCycle project tests := by
  have hsame : Edge (targetsOf edges) = ProductionEdge project tests := by
    funext p q
    exact propext (h.edge_iff p q)
  rw [Cyclic, ImportCycle, hsame]

theorem rebuildImports_prepared {after : Project Node} (h : rebuildImports project tests = .ok after) :
    ∃ state packages edges, Prepared project tests state packages edges ∧
      acyclicImports edges = .ok true ∧ after = { project with packages := packages } := by
  obtain ⟨state, hstate, h⟩ := bind_eq_ok.mp h
  obtain ⟨⟨packages, edges⟩, hrebuilt, h⟩ := bind_eq_ok.mp h
  obtain ⟨answer, hanswer, h⟩ := bind_eq_ok.mp h
  have hprepared : Prepared project tests state packages edges := ⟨hstate, hrebuilt⟩
  refine ⟨state, packages, edges, hprepared, ?_, (ok.inj h).symm⟩
  obtain ⟨ready, hrun, -⟩ := acyclicImports_run hprepared.inside
  rw [hrun] at hanswer ⊢
  split at hanswer
  case isTrue => cases hanswer
  case isFalse hall => rw [if_neg hall]

theorem rebuildImports_ok {after : Project Node} (h : rebuildImports project tests = .ok after) :
    Located project tests ∧ AllResolve project tests ∧ ¬ImportCycle project tests := by
  obtain ⟨state, packages, edges, hprepared, hacyclic, -⟩ := rebuildImports_prepared h
  refine ⟨collectFiles_ok.mp ⟨state, hprepared.collected⟩, ?_, ?_⟩
  · intro p package hpackage test spelling huses
    obtain ⟨target, himport, hproduces⟩ := hprepared.found hpackage huses
    exact ⟨target, basisImport_resolves himport, hproduces⟩
  · intro hcycle
    rw [acyclicImports_cycle hprepared.inside (hprepared.cyclic_iff.mpr hcycle)] at hacyclic
    cases hacyclic

theorem exists_prepared (hhoused : Housed project) (hlocated : Located project tests)
    (hresolve : AllResolve project tests) :
    ∃ state packages edges, Prepared project tests state packages edges := by
  obtain ⟨state, hstate⟩ := collectFiles_ok.mpr hlocated
  obtain ⟨hnames, hproduction⟩ := collectFiles_spec hstate
  obtain ⟨⟨packages, edges⟩, hrebuilt⟩ :=
    (@rebuildPackages_ok project state project.packages 0).mpr (by
      intro p current hcurrent test spelling hspelling
      rw [Nat.zero_add] at hspelling
      obtain ⟨target, hresolves, hproduces⟩ :=
        hresolve p current hcurrent test spelling ((hnames p test spelling).mp hspelling)
      exact ⟨target, hresolves.basisImport hhoused, (hproduction target).mpr hproduces⟩)
  exact ⟨state, packages, edges, hstate, hrebuilt⟩

/-- Where every spelling resolves, a cycle is refused and nothing else is. -/
theorem rebuildImports_of_resolved (hhoused : Housed project) (hlocated : Located project tests)
    (hresolve : AllResolve project tests) :
    (ImportCycle project tests →
        rebuildImports project tests = fail "package import cycle in edited source") ∧
      (¬ImportCycle project tests → ∃ after, rebuildImports project tests = .ok after) := by
  obtain ⟨state, packages, edges, hprepared⟩ := exists_prepared hhoused hlocated hresolve
  constructor
  · intro hcycle
    rw [rebuildImports_eq hprepared,
      acyclicImports_cycle hprepared.inside (hprepared.cyclic_iff.mpr hcycle)]
    rfl
  · intro hacyclic
    rw [rebuildImports_eq hprepared,
      acyclicImports_ok hprepared.inside (fun h => hacyclic (hprepared.cyclic_iff.mp h))]
    exact ⟨_, rfl⟩

end

/-! ## Rebuilding again -/

section
variable {state : Collected} {packages : List Package} {edges : List (List Nat)}

/-- The packages of a rebuilt project are where they were, under their names. -/
theorem Prepared.same_package (h : Prepared project tests state packages edges) (p : Nat) :
    (packages[p]?).map (fun package => (package.moduleId, package.relative)) =
      (project.packages[p]?).map fun package => (package.moduleId, package.relative) := by
  obtain ⟨hlength, -, -⟩ := rebuildPackages_spec _ h.rebuilt
  cases hcurrent : project.packages[p]? with
  | none =>
    have hnone : packages[p]? = none := by
      rw [getElem?_eq_none_iff] at hcurrent ⊢; omega
    rw [hnone]
  | some current =>
    obtain ⟨next, targets, hnext, -, hrebuilt⟩ := h.package hcurrent
    rw [hnext, Option.map_some, Option.map_some, hrebuilt.moduleId, hrebuilt.relative]

theorem get_bare (h : Prepared project tests state packages edges) (id : Int) :
    (get packages id).map (fun package => (package.moduleId, package.relative)) =
      (get project.packages id).map fun package => (package.moduleId, package.relative) := by
  have hsame := h.same_package id.toNat
  unfold Packages.get
  split
  · rfl
  · cases hnext : packages[id.toNat]? <;> cases hcurrent : project.packages[id.toNat]?
    · rfl
    · rw [hnext, hcurrent] at hsame
      cases hsame
    · rw [hnext, hcurrent] at hsame
      cases hsame
    · rw [hnext, hcurrent] at hsame
      exact congrArg ok (Option.some.inj hsame)

theorem packageLabel_bare (modules : List ModuleInstance) (packages : List Package) (id : Int) :
    packageLabel modules packages id =
      ((get packages id).map fun package => (package.moduleId, package.relative)) >>= fun bare => do
        let owner ← Packages.get modules bare.1
        if bare.2 = "" then return owner.name else return qualify owner.name bare.2 := by
  unfold packageLabel
  cases Packages.get packages id <;> rfl

section
variable (h : Prepared project tests state packages edges)
include h

theorem packageLabel_same (id : Int) :
    packageLabel project.modules packages id = packageLabel project.modules project.packages id := by
  rw [packageLabel_bare, packageLabel_bare, get_bare h]

theorem collectFiles_same :
    collectFiles { project with packages := packages } tests = collectFiles project tests := by
  obtain ⟨hlength, -, -⟩ := rebuildPackages_spec _ h.rebuilt
  have hfile : collectFile { project with packages := packages } tests = collectFile project tests := by
    unfold collectFile; simp only [packageLabel_same h, hlength]
  have hmap : ∀ {α : Type} (value : α), (packages.map fun _ => value) =
      project.packages.map fun _ => value := by
    intro α value
    rw [map_const', map_const', hlength]
  unfold collectFiles; simp [hfile, hmap]

theorem leadsTo_same {imported : PackageImport} {instanceId : Int}
    (hleads : LeadsTo project imported instanceId) :
    LeadsTo { project with packages := packages } imported instanceId := by
  obtain ⟨target, htarget, rfl⟩ := hleads
  have hsame := get_bare h imported.target
  rw [htarget] at hsame
  cases hnext : get packages imported.target with
  | error stop =>
    rw [hnext] at hsame
    cases hsame
  | ok next =>
    rw [hnext] at hsame
    exact ⟨next, hnext, (Prod.mk.inj (ok.inj hsame)).1⟩

theorem isPackage_same (instanceId : Int) (spelling : String) (index : Nat) :
    IsPackage { project with packages := packages } instanceId spelling index ↔
      IsPackage project instanceId spelling index := by
  have hsame := h.same_package index
  unfold IsPackage
  rw [packageLabel_same h]
  cases hnext : packages[index]? <;> cases hcurrent : project.packages[index]?
  · rfl
  · rw [hnext, hcurrent] at hsame
    cases hsame
  · rw [hnext, hcurrent] at hsame
    cases hsame
  · rw [hnext, hcurrent] at hsame
    have hmodule := (Prod.mk.inj (Option.some.inj hsame)).1
    simp [hmodule]

/-- The edges of a rebuilt module were resolved with what the name was bound to. -/
theorem evidence_same {owner instanceId : Int} {first spelling : String} {imported : PackageImport}
    (hfirst : firstSegment spelling = .ok first)
    (hmodule : basisModule project owner spelling = .ok instanceId)
    (himported : Evidence { project with packages := packages } owner first imported) :
    LeadsTo project imported instanceId := by
  obtain ⟨hmem, hsegment⟩ := himported
  obtain ⟨next, hnext, hedge⟩ := mem_flatMap.mp hmem
  obtain ⟨hmember, howner⟩ := mem_filter.mp hnext
  obtain ⟨p, hp, rfl⟩ := getElem_of_mem hmember
  obtain ⟨hlength, -, -⟩ := rebuildPackages_spec _ h.rebuilt
  have hcurrent := getElem?_eq_getElem (hlength ▸ hp : p < project.packages.length)
  obtain ⟨other, _, hother, -, hrebuilt⟩ := h.package hcurrent
  rw [getElem?_eq_getElem hp] at hother
  cases hother
  obtain ⟨target, himport, htarget⟩ := hrebuilt.resolved imported hedge
  have hsame := of_decide_eq_true howner
  rw [← hrebuilt.moduleId, hsame] at himport
  obtain ⟨other, hother, ⟨package, hpackage, hinstance, -⟩, -⟩ := basisImport_eq_ok.mp himport
  obtain ⟨-, first', hfirst', hbound'⟩ := basisModule_bound hother
  obtain ⟨-, first'', hfirst'', hbound⟩ := basisModule_bound hmodule
  obtain rfl := ok.inj (hfirst.symm.trans hfirst'')
  obtain rfl := ok.inj (hsegment.symm.trans hfirst')
  refine ⟨package, ?_, hinstance.trans (hbound'.unique hbound)⟩
  rw [htarget]; exact get_eq hpackage

theorem basisImport_again {p : Nat} {current : Package}
    (hcurrent : project.packages[p]? = some current) {test : Bool} {spelling : String}
    (hspelling : spelling ∈ namesOf state test p) :
    basisImport { project with packages := packages } current.moduleId spelling =
      basisImport project current.moduleId spelling := by
  obtain ⟨hnames, -⟩ := collectFiles_spec h.collected
  obtain ⟨target, himport, -⟩ := h.found hcurrent ((hnames p test spelling).mp hspelling)
  obtain ⟨instanceId, hmodule, hpackage, hunique⟩ := basisImport_eq_ok.mp himport
  obtain ⟨-, first, hfirst, hbound⟩ := basisModule_bound hmodule
  have hleads : ∀ imported, Evidence { project with packages := packages } current.moduleId first
      imported → LeadsTo { project with packages := packages } imported instanceId :=
    fun imported himported => leadsTo_same h (evidence_same h hfirst hmodule himported)
  -- the edge of the spelling itself is one that says what its name is bound to
  have hevidence : ∃ imported, Evidence { project with packages := packages } current.moduleId first
      imported := by
    obtain ⟨next, targets, hnext, -, hrebuilt⟩ := h.package hcurrent
    obtain ⟨imported, himported, rfl⟩ := hrebuilt.complete test spelling hspelling
    refine ⟨imported, mem_flatMap.mpr ⟨next, mem_filter.mpr ⟨mem_of_getElem? hnext, ?_⟩,
      himported⟩, hfirst⟩
    exact decide_eq_true hrebuilt.moduleId
  have hrebound : Bound { project with packages := packages } current.moduleId first instanceId := by
    obtain ⟨own, hown, hcases⟩ := hbound
    refine ⟨own, hown, hcases.imp_right (Or.imp_right ?_)⟩
    rintro ⟨hself, hstd, hlow, hhigh, -, -⟩
    obtain ⟨imported, himported⟩ := hevidence
    exact ⟨hself, hstd, hlow, hhigh, ⟨imported, himported, hleads imported himported⟩,
      fun edge hedge => ⟨instanceId, hleads edge hedge, fun _ => rfl⟩⟩
  rw [himport, basisImport_eq_ok]
  refine ⟨instanceId, basisModule_of_bound hfirst hrebound (fun _ _ _ _ => hleads), ?_, ?_⟩
  · exact (isPackage_same h instanceId spelling target).mpr hpackage
  · exact fun other hother => hunique other ((isPackage_same h instanceId spelling other).mp hother)

end

theorem rebuildPackages_again {other : Project Node} (rest : List Package) :
    ∀ {index : Nat} {after : List Package} {edges : List (List Nat)},
      rebuildPackages project state index rest = .ok (after, edges) →
      (∀ (j : Nat) (current : Package), rest[j]? = some current →
        ∀ test, ∀ spelling ∈ namesOf state test (index + j),
          basisImport other current.moduleId spelling =
            basisImport project current.moduleId spelling) →
      rebuildPackages other state index after = .ok (after, edges) := by
  induction rest with
  | nil =>
    intro index after edges h _
    cases h
    rfl
  | cons current rest ih =>
    intro index after edges h hsame
    obtain ⟨normal, hnormal, h⟩ := bind_eq_ok.mp h
    obtain ⟨all, hall, h⟩ := bind_eq_ok.mp h
    obtain ⟨others, hothers, h⟩ := bind_eq_ok.mp h
    cases h
    have hrest := ih hothers fun j next hnext test spelling hspelling => by
      rw [show index + 1 + j = index + (j + 1) by omega] at hspelling
      exact hsame (j + 1) next hnext test spelling hspelling
    have hfirst : resolveNames other state.production current.moduleId
        (state.ordinary.getD index []) [] = .ok normal := by
      rw [← hnormal]; exact resolveNames_congr _ (hsame 0 current rfl false) []
    have hsecond : resolveNames other state.production current.moduleId
        (state.testing.getD index []) normal.1 = .ok all := by
      rw [← hall]
      exact resolveNames_congr _ (hsame 0 current rfl true) normal.1
    rw [rebuildPackages]
    rw [hfirst, ok_bind, hsecond, hrest]; rfl

theorem rebuildImports_again {after : Project Node} (h : rebuildImports project tests = .ok after) :
    rebuildImports after tests = .ok after := by
  obtain ⟨state, packages, edges, hprepared, hacyclic, rfl⟩ := rebuildImports_prepared h
  have hrebuilt : rebuildPackages { project with packages := packages } state 0 packages =
      .ok (packages, edges) := by
    apply rebuildPackages_again _ hprepared.rebuilt
    intro j current hcurrent test spelling hspelling
    rw [Nat.zero_add] at hspelling
    exact basisImport_again hprepared hcurrent hspelling
  rw [rebuildImports, collectFiles_same hprepared, hprepared.collected, ok_bind]
  rw [hrebuilt, ok_bind, hacyclic]; rfl

end

/-- Imports that are rebuilt all resolve and have no cycle; where all resolve, a cycle is all that
is refused; and rebuilding again changes nothing. -/
theorem rebuild_imports_exact (project : Project Node) (tests : Bool) :
    (∀ after, rebuildImports project tests = .ok after →
      Located project tests ∧ AllResolve project tests ∧ ¬ImportCycle project tests) ∧
      (Housed project → Located project tests → AllResolve project tests →
        ((∃ after, rebuildImports project tests = .ok after) ↔ ¬ImportCycle project tests) ∧
          (rebuildImports project tests = fail "package import cycle in edited source" ↔
            ImportCycle project tests)) ∧
      ∀ after, rebuildImports project tests = .ok after → rebuildImports after tests = .ok after := by
  refine ⟨fun after h => rebuildImports_ok h, fun hhoused hlocated hresolve => ?_,
    fun after h => rebuildImports_again h⟩
  obtain ⟨hrefused, haccepted⟩ := rebuildImports_of_resolved hhoused hlocated hresolve
  refine ⟨⟨?_, haccepted⟩, ?_, hrefused⟩
  · rintro ⟨after, hafter⟩
    exact (rebuildImports_ok hafter).2.2
  · intro hfails
    by_contra hacyclic
    obtain ⟨after, hafter⟩ := haccepted hacyclic
    rw [hfails] at hafter
    cases hafter

/-! ## Edited projects -/

/-- A root and a child of it, which is imported; a test of the child imports the root. -/
def familyProject : Project Node where
  files := [
    ⟨0, "/app/root.loom", "import app.child.value\n", .mk .file "" [.mk .import "app.child.value" []],
      false, false⟩,
    ⟨1, "/app/child/value.loom", "pub fn value() Int \x7b\n    7\n\x7d\n",
      .mk .file "" [.mk .function "value" [.mk .public "" []]], false, false⟩,
    ⟨1, "/app/child/value_test.loom", "import app.root\n", .mk .file "" [.mk .import "app.root" []],
      true, false⟩]
  modules := [⟨"app", "/app"⟩]
  packages := [⟨0, "", []⟩, ⟨0, "child", []⟩]
  root := 0

theorem exists_of_isOk {answer : Except Stop α} (h : answer.isOk = true) :
    ∃ value, answer = .ok value := by
  cases answer with
  | error stop => cases h
  | ok value => exact ⟨value, rfl⟩

theorem rebuild_imports_family :
    ∃ after, rebuildImports familyProject true = .ok after ∧
      rebuildImports after true = .ok after ∧ ¬ImportCycle familyProject true ∧
      rebuildImports familyProject true ≠ fail "package import cycle in edited source" := by
  obtain ⟨hsound, hexact, hagain⟩ := rebuild_imports_exact familyProject true
  obtain ⟨after, hafter⟩ := exists_of_isOk
    (show (rebuildImports familyProject true).isOk = true by decide)
  obtain ⟨hlocated, hresolve, hacyclic⟩ := hsound after hafter
  have hhoused : Housed familyProject := by
    intro package hpackage
    obtain rfl | rfl : package = ⟨0, "", []⟩ ∨ package = ⟨0, "child", []⟩ := by
      simpa [familyProject] using hpackage
    · exact ⟨⟨"app", "/app"⟩, rfl⟩
    · exact ⟨⟨"app", "/app"⟩, rfl⟩
  obtain ⟨-, hcycle⟩ := hexact hhoused hlocated hresolve
  exact ⟨after, hafter, hagain after hafter, hacyclic, fun hfails => hacyclic (hcycle.mp hfails)⟩

/-- What a source outside of tests imports, its own package included. -/
def DeclaredEdge (project : Project Node) (tests : Bool) (p q : Nat) : Prop :=
  ∃ file ∈ project.files, file.testOnly = false ∧ file.package = p ∧
    ∃ node ∈ (selectSource file.tree tests).children, node.kind = .import ∧
      ∃ spelling package, SourceImports.package node.value = .ok spelling ∧
        project.packages[p]? = some package ∧ Resolves project package.moduleId spelling q

def selfImporting : Project Node where
  files := [⟨0, "/app/main.loom", "import app.value\n", .mk .file "" [.mk .import "app.value" []],
    false, false⟩]
  modules := [⟨"app", "/app"⟩]
  packages := [⟨0, "", []⟩]
  root := 0

/-- One source, of a package that is not there. -/
def astray : Project Node where
  files := [⟨5, "/app/main.loom", "", .mk .file "" [], false, false⟩]
  modules := []
  packages := []
  root := 0

/-- A package that imports itself is accepted; a source of an unknown package is refused. -/
theorem self_import_accepted :
    (¬∀ (project : Project Node) (tests : Bool) (after : Project Node),
      rebuildImports project tests = .ok after → ¬∃ p, TransGen (DeclaredEdge project tests) p p) ∧
      ¬∀ (project : Project Node) (tests : Bool), AllResolve project tests →
        ((¬∃ after, rebuildImports project tests = .ok after) ↔ ImportCycle project tests) := by
  constructor
  · intro hall
    obtain ⟨after, hafter⟩ := exists_of_isOk
      (show (rebuildImports selfImporting false).isOk = true by decide)
    refine hall selfImporting false after hafter ⟨0, .single ?_⟩
    refine ⟨_, .head _, rfl, rfl, _, .head _, rfl, "app", ⟨0, "", []⟩, ?_, rfl, ?_⟩
    · decide
    · apply basisImport_resolves
      decide
  · intro hall
    have hresolve : AllResolve astray false := fun p package hpackage => absurd hpackage nofun
    have hrefused : ¬∃ after, rebuildImports astray false = .ok after := by
      rintro ⟨after, hafter⟩
      have hok : (rebuildImports astray false).isOk = true := by rw [hafter]; rfl
      exact absurd hok (by decide)
    obtain ⟨p, hcycle⟩ := (hall astray false hresolve).mp hrefused
    obtain ⟨q, ⟨package, spelling, hpackage, -⟩, -⟩ := TransGen.head'_iff.mp hcycle
    cases hpackage

end Loom.Regraph
