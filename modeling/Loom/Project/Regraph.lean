import Loom.Project.SourceImports

/-
  Rebuilding the imports of an edited project.

  No file is read again: the edges that a project has say which module a name is bound
  to, and its packages say what the module has. The edges are collected of the selected
  sources, looked up, and checked for cycles by counting incoming edges down.

  Correspondence (regraph.loom ↔ Lean):
    `basis_module` ↔ `basisModule`; what follows its first check is
      `namedModule`, its loops are `stdModule` and `boundModule`
    `basis_import` ↔ `basisImport`; its loop is `basisPackage`
    an index that is found, or -1 ↔ an option; `onlyIndex` is a loop that looks for it
    `acyclic_imports` ↔ `acyclicImports`; its loops are `countIncoming`, `unneeded`,
      `release` and `drain`
    `ordinary`, `testing`, `production_sources` ↔ `Collected`
    `rebuild_imports` ↔ `rebuildImports`; its loops are `collectFiles`,
      `rebuildPackages` and `resolveNames`
  Lists that are made with one entry for each package are read at packages only.
-/

namespace Loom.Regraph

open Utf8 Texts Packages SourceImports

/-! ## What a name is bound to -/

section
variable {Tree : Type} (project : Project Tree)

/-- What stands in front of the first dot. -/
def firstSegment (spelling : String) : Except Stop String := do
  let segments ← parts spelling 46
  get segments 0

/-- The only index that is hit, if any is; a second one is an error. -/
def onlyIndex {α : Type} (hit : Nat → α → Except Stop Bool) (message : String) :
    Nat → Option Nat → List α → Except Stop (Option Nat)
  | _, found, [] => return found
  | index, found, value :: rest => do
    let here ← hit index value
    if here then
      if found.isSome then fail message else onlyIndex hit message (index + 1) (some index) rest
    else onlyIndex hit message (index + 1) found rest

/-- An index that was found before is never the one that is found now. -/
def stdModule (modules : List ModuleInstance) : Except Stop (Option Nat) :=
  onlyIndex (fun _ owner => .ok (owner.name == "std"))
    "ambiguous pinned standard-library instance" 0 none modules

def boundEdge (first : String) (found : Int) (imported : PackageImport) : Except Stop Int := do
  let segment ← firstSegment imported.spelling
  if segment = first then
    if imported.target < 0 ∨ imported.target ≥ project.packages.length then
      fail "pinned import has an unknown target"
    else do
      let target ← get project.packages imported.target
      if found ≥ 0 ∧ found ≠ target.moduleId then fail "ambiguous pinned module binding"
      else return target.moduleId
  else return found

/-- The direct edges of a module establish what its namespaces are. -/
def boundModule (owner : Int) (first : String) (found : Int) (packages : List Package) :
    Except Stop Int :=
  packages.foldlM (fun found current =>
    if current.moduleId = owner then current.imports.foldlM (boundEdge project first) found
    else return found) found

/-- What a name is bound to that is not the one of the module itself; -1 where it is not bound. -/
def namedModule (owner : Int) (first : String) : Except Stop Int :=
  if first = "std" then do
    let found ← stdModule project.modules
    return found.elim (-1) fun index => (index : Int)
  else boundModule project owner first (-1) project.packages

def basisModule (owner : Int) (spelling : String) : Except Stop Int := do
  let first ← firstSegment spelling
  let own ← get project.modules owner
  if first = own.name then return owner
  else do
    let found ← namedModule project owner first
    if found < 0 ∨ found ≥ project.modules.length then
      fail ("import needs an expanded pinned module basis: " ++ spelling)
    else return found

/-- Whether a package has the label, where it is one of the module. -/
def labelled (instanceId : Int) (spelling : String) (index : Nat) (current : Package) :
    Except Stop Bool :=
  if current.moduleId = instanceId then do
    let label ← packageLabel project.modules project.packages index
    return label == spelling
  else return false

def basisPackage (instanceId : Int) (spelling : String) : Except Stop (Option Nat) :=
  onlyIndex (labelled project instanceId spelling) "duplicate pinned package identity" 0 none
    project.packages

def basisImport (owner : Int) (spelling : String) : Except Stop Nat := do
  let instanceId ← basisModule project owner spelling
  let found ← basisPackage project instanceId spelling
  match found with
  | some index => return index
  | none => fail ("import needs expanded pinned package sources: " ++ spelling)

end

/-! ## Cycles -/

def at? {α : Type} (values : List α) (index : Nat) : Except Stop α :=
  match values[index]? with
  | some value => .ok value
  | none => .error .fault

/-- The number of edges to a vertex, with `delta` added. -/
def bump (delta : Int) (incoming : List Int) (target : Nat) : Except Stop (List Int) := do
  let count ← at? incoming target
  return incoming.set target (count + delta)

def countIncoming (edges : List (List Nat)) (incoming : List Int) : Except Stop (List Int) :=
  edges.foldlM (fun incoming targets => targets.foldlM (bump 1) incoming) incoming

/-- The vertices that no edge leads to. -/
def unneeded (incoming : List Int) : List Nat :=
  (List.range incoming.length).filter fun index => incoming[index]? == some 0

/-- The edges of one vertex are counted down. -/
def release : List Nat → List Int → List Nat → Except Stop (List Int × List Nat)
  | [], incoming, ready => return (incoming, ready)
  | target :: targets, incoming, ready => do
    let incoming ← bump (-1) incoming target
    let count ← at? incoming target
    release targets incoming (if count = 0 then ready ++ [target] else ready)

/-- The loop over the vertices that are ready; each turn may add some. -/
def drain (edges : List (List Nat)) : Nat → Nat → List Int → List Nat → Except Stop (List Nat)
  | 0, _, _, _ => .error .fault
  | bound + 1, index, incoming, ready =>
    match ready[index]? with
    | none => return ready
    | some source => do
      let targets ← at? edges source
      let state ← release targets incoming ready
      drain edges bound (index + 1) state.1 state.2

def acyclicImports (edges : List (List Nat)) : Except Stop Bool := do
  let incoming ← countIncoming edges (List.replicate edges.length 0)
  let ready ← drain edges (edges.length + 1) 0 incoming (unneeded incoming)
  if ready.length ≠ edges.length then fail "package import cycle in edited source"
  else return true

/-! ## Rebuilding -/

structure Collected where
  ordinary : List (List String)
  testing : List (List String)
  production : List Bool

def collectFile (project : Project Node) (tests : Bool) (state : Collected)
    (file : SourceFile Node) : Except Stop Collected :=
  if file.testOnly && !tests then return state
  else if file.package < 0 ∨ file.package ≥ project.packages.length then
    fail "source has an unknown package identity"
  else do
    let index := file.package.toNat
    let owner ← packageLabel project.modules project.packages file.package
    let names ← collectSourceImports (selectSource file.tree tests) owner file.testOnly
      (state.ordinary.getD index [], state.testing.getD index [])
    return {
      ordinary := state.ordinary.set index names.1
      testing := state.testing.set index names.2
      production := if file.testOnly then state.production else state.production.set index true }

def collectFiles (project : Project Node) (tests : Bool) : Except Stop Collected :=
  project.files.foldlM (collectFile project tests) {
    ordinary := project.packages.map fun _ => []
    testing := project.packages.map fun _ => []
    production := project.packages.map fun _ => false }

/-- The names of one group: the edges with those that are new, and all targets. -/
def resolveNames (project : Project Node) (production : List Bool) (owner : Int) :
    List String → List PackageImport → Except Stop (List PackageImport × List Nat)
  | [], imports => return (imports, [])
  | spelling :: names, imports => do
    let target ← basisImport project owner spelling
    if !production.getD target false then
      fail ("import target has no pinned production sources: " ++ spelling)
    else do
      let seen := imports.any fun previous => previous.spelling == spelling
      let others ← resolveNames project production owner names
        (if seen then imports else imports ++ [⟨spelling, target⟩])
      return (others.1, target :: others.2)

/-- The packages with their new edges, and the ordinary targets of each. -/
def rebuildPackages (project : Project Node) (state : Collected) :
    Nat → List Package → Except Stop (List Package × List (List Nat))
  | _, [] => return ([], [])
  | index, current :: rest => do
    let normal ← resolveNames project state.production current.moduleId
      (state.ordinary.getD index []) []
    let all ← resolveNames project state.production current.moduleId
      (state.testing.getD index []) normal.1
    let others ← rebuildPackages project state (index + 1) rest
    return ({ current with imports := all.1 } :: others.1, normal.2 :: others.2)

def rebuildImports (project : Project Node) (tests : Bool) : Except Stop (Project Node) := do
  let state ← collectFiles project tests
  let rebuilt ← rebuildPackages project state 0 project.packages
  let _ ← acyclicImports rebuilt.2
  return { project with packages := rebuilt.1 }

end Loom.Regraph
