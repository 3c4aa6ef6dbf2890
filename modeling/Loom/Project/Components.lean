import Loom.Library.Partitions
import Loom.Project.Packages

/-
  Which packages are connected by imports.

  Packages of several projects that have one identity are one node. Each import joins
  two of them, whatever its direction. Changes of two sides conflict when one of them
  changes what the other may depend on and their packages are connected.

  Correspondence (package_components.loom, packages.loom ↔ Lean), where names differ:
    `DependencyPackage`, `PackageComponents` ↔ the same; `module` is `owner`
    `component_root`, its two loops ↔ `componentRoot`, `climb`, `compress`
    `include_dependencies`, its loops ↔ `includeDependencies`, `includePackages`,
      `includeImports`
    `project_package`, its loop ↔ `projectPackage`, `projectPackageFrom`
    `separate_package_changes`, its loops ↔ `separatePackageChanges`, `includeAll`,
      `changeComponents`, `changeConflicts`, `conflictsWith`
  A list that the source changes is threaded through. A loop over parents that goes on
  for more turns than there are parents counts as a fault.
-/

namespace Loom.Components

open Texts Packages

variable {Tree : Type}

structure DependencyPackage where
  owner : ModuleInstance
  relative : String
  deriving DecidableEq

structure PackageComponents where
  packages : List DependencyPackage
  parents : List Nat

def dependencyPackage (graph : PackageComponents) (project : Project Tree) (id : Int) :
    Except Stop (Nat × PackageComponents) :=
  if id < 0 ∨ id ≥ project.packages.length then
    fail "package dependency graph has an unknown target"
  else do
    let package ← get project.packages id
    if package.moduleId < 0 ∨ package.moduleId ≥ project.modules.length then
      fail "package dependency graph has an unknown module"
    else do
      let owner ← get project.modules package.moduleId
      if owner.source = "" then fail "package dependency graph needs a pinned module source"
      else
        match graph.packages.findIdx? fun previous =>
            previous.owner.name == owner.name && previous.owner.source == owner.source &&
              previous.relative == package.relative with
        | some index => return (index, graph)
        | none =>
          return (graph.packages.length,
            { packages := graph.packages ++ [⟨owner, package.relative⟩]
              parents := graph.parents ++ [graph.packages.length] })

/-- The first loop of `componentRoot`. -/
def climb : Nat → List Nat → Nat → Except Stop Nat
  | 0, _, _ => .error .fault
  | turns + 1, parents, root =>
    match parents[root]? with
    | none => .error .fault
    | some next => if next = root then .ok root else climb turns parents next

/-- The second loop of `componentRoot`. -/
def compress : Nat → List Nat → Nat → Nat → Except Stop (List Nat)
  | 0, _, _, _ => .error .fault
  | turns + 1, parents, root, current =>
    if current = root then .ok parents
    else
      match parents[current]? with
      | none => .error .fault
      | some next => compress turns (parents.set current root) root next

def componentRoot (parents : List Nat) (index : Nat) : Except Stop (Nat × List Nat) := do
  let root ← climb parents.length parents index
  let parents ← compress parents.length parents root index
  return (root, parents)

/-- The loop over the imports of a package. -/
def includeImports (project : Project Tree) (source : Nat) :
    PackageComponents → List PackageImport → Except Stop PackageComponents
  | graph, [] => .ok graph
  | graph, edge :: imports => do
    let (target, graph) ← dependencyPackage graph project edge.target
    let (below, parents) ← componentRoot graph.parents source
    let (above, parents) ← componentRoot parents target
    includeImports project source { graph with parents := parents.set below above } imports

/-- The loop over the packages of a project; `package` is the number of the first one. -/
def includePackages (project : Project Tree) :
    PackageComponents → Nat → List Package → Except Stop PackageComponents
  | graph, _, [] => .ok graph
  | graph, package, current :: packages => do
    let (source, graph) ← dependencyPackage graph project package
    let graph ← includeImports project source graph current.imports
    includePackages project graph (package + 1) packages

def includeDependencies (graph : PackageComponents) (project : Project Tree) :
    Except Stop PackageComponents :=
  includePackages project graph 0 project.packages

def projectPackageFrom (project : Project Tree) (owner : Int) (wanted : String) :
    Nat → List Package → Except Stop Int
  | _, [] => fail "merge package is not in the selected module's pinned closure"
  | index, current :: packages =>
    if current.moduleId = owner then do
      let found ← packageLabel project.modules project.packages index
      if found = wanted then return index
      else projectPackageFrom project owner wanted (index + 1) packages
    else projectPackageFrom project owner wanted (index + 1) packages

def projectPackage (project : Project Tree) (wanted : String) : Except Stop Int := do
  let root ← get project.packages project.root
  projectPackageFrom project root.moduleId wanted 0 project.packages

structure PackageChanges where
  name : String
  headers : Bool
  edited : Bool
  deleted : Bool
  deriving DecidableEq

def conflictingChanges (left right : PackageChanges) : Bool :=
  ((left.headers || left.deleted) && right.edited) ||
    ((right.headers || right.deleted) && left.edited)

/-- The loop over the branches. -/
def includeAll : PackageComponents → List (Project Tree) → Except Stop PackageComponents
  | graph, [] => .ok graph
  | graph, project :: projects => do
    let graph ← includeDependencies graph project
    includeAll graph projects

def changeComponents (production tests : Project Tree) :
    PackageComponents → List PackageChanges → Except Stop (List Nat)
  | _, [] => .ok []
  | graph, change :: changes => do
    let ordinary ← projectPackage production change.name
    let (ordinary, graph) ← dependencyPackage graph production ordinary
    let testing ← projectPackage tests change.name
    let (testing, graph) ← dependencyPackage graph tests testing
    if ordinary ≠ testing then fail "production and test package dependency identities differ"
    else do
      let (component, parents) ← componentRoot graph.parents ordinary
      let components ← changeComponents production tests { graph with parents } changes
      return component :: components

def conflict : String :=
  "cross-package signature, contract or deletion versus edit needs explicit resolution"

/-- The inner loop over the changes of the right side; `b` is the number of the first one. -/
def conflictsWith (components : List Nat) (change : PackageChanges) (a : Nat) :
    Nat → List PackageChanges → Except Stop Unit
  | _, [] => .ok ()
  | b, other :: right =>
    if conflictingChanges change other then do
      let mine ← get components a
      let theirs ← get components b
      if mine = theirs then fail conflict else conflictsWith components change a (b + 1) right
    else conflictsWith components change a (b + 1) right

/-- The outer loop over the changes of the left side. -/
def changeConflicts (components : List Nat) (right : List PackageChanges) :
    Nat → List PackageChanges → Except Stop Unit
  | _, [] => .ok ()
  | a, change :: left => do
    conflictsWith components change a 0 right
    changeConflicts components right (a + 1) left

def separatePackageChanges (left right : List PackageChanges) (production tests : Project Tree)
    (branches : List (Project Tree)) : Except Stop Bool :=
  if !left.any fun change => right.any fun other => conflictingChanges change other then
    .ok true
  else do
    let graph ← includeDependencies ⟨[], []⟩ production
    let graph ← includeDependencies graph tests
    let graph ← includeAll graph branches
    let components ← changeComponents production tests graph left
    changeConflicts components right 0 left
    return true

end Loom.Components
