import Loom.Library.Results
import Loom.Library.Texts

/-
  Projects: the sources, modules and packages of a selected closure.

  Correspondence (project.loom, paths.loom ↔ Lean), where names differ:
    `SourceFile`, `ModuleInstance`, `PackageImport`, `Package`, `Project` ↔ the same;
      the type of the syntax trees is a parameter
    `get` of a list ↔ `get`; outside the list it is a fault
  A package belongs to a module by its number: the field `instance` is `moduleId`.
-/

namespace Loom.Packages

open Texts

structure SourceFile (Tree : Type) where
  package : Int
  path : String
  text : String
  tree : Tree
  testOnly : Bool
  trustedStd : Bool
  deriving DecidableEq

structure ModuleInstance where
  name : String
  source : String
  deriving DecidableEq

structure PackageImport where
  spelling : String
  target : Int
  deriving DecidableEq

structure Package where
  moduleId : Int
  relative : String
  imports : List PackageImport
  deriving DecidableEq

structure Project (Tree : Type) where
  files : List (SourceFile Tree)
  modules : List ModuleInstance
  packages : List Package
  root : Int
  deriving DecidableEq

def get {α : Type} (values : List α) (index : Int) : Except Stop α :=
  if index < 0 then .error .fault
  else
    match values[index.toNat]? with
    | some value => .ok value
    | none => .error .fault

def qualify (package name : String) : String :=
  if package = "" then name else package ++ ("." ++ name)

def packageLabel (modules : List ModuleInstance) (packages : List Package) (id : Int) :
    Except Stop String := do
  let current ← get packages id
  let owner ← get modules current.moduleId
  if current.relative = "" then return owner.name
  else return qualify owner.name current.relative

/-! ## Reading a list -/

variable {α : Type} {values : List α} {value : α} {index : Int}

theorem get_natCast (values : List α) (index : Nat) : get values index =
    match values[index]? with
    | some value => .ok value
    | none => .error .fault := by
  rw [get, if_neg (by omega), Int.toNat_natCast]

theorem get_eq {index : Nat} (h : values[index]? = some value) : get values index = .ok value := by
  rw [get_natCast, h]

theorem get_eq_ok : get values index = .ok value ↔ 0 ≤ index ∧ values[index.toNat]? = some value := by
  unfold get
  by_cases hnegative : index < 0
  · rw [if_pos hnegative]
    exact iff_of_false nofun (fun h => absurd h.1 (by omega))
  · rw [if_neg hnegative]
    cases values[index.toNat]? with
    | none => exact iff_of_false nofun (fun h => absurd h.2 nofun)
    | some other =>
      simp only [Except.ok.injEq, Option.some.injEq]
      exact ⟨fun h => ⟨by omega, h⟩, fun h => h.2⟩

theorem get_cases (values : List α) (index : Int) :
    (∃ value, get values index = .ok value ∧ 0 ≤ index ∧ index < values.length ∧ value ∈ values) ∨
      get values index = .error .fault ∧ ¬(0 ≤ index ∧ index < values.length) := by
  unfold get
  by_cases hnegative : index < 0
  · rw [if_pos hnegative]; exact .inr ⟨rfl, by omega⟩
  · rw [if_neg hnegative]
    cases hvalue : values[index.toNat]? with
    | none =>
      have hlength := List.getElem?_eq_none_iff.mp hvalue
      exact .inr ⟨rfl, by omega⟩
    | some value =>
      obtain ⟨hlt, -⟩ := List.getElem?_eq_some_iff.mp hvalue
      exact .inl ⟨value, rfl, by omega, by omega, List.mem_of_getElem? hvalue⟩

def label (owner : ModuleInstance) (package : Package) : String :=
  if package.relative = "" then owner.name else qualify owner.name package.relative

theorem packageLabel_eq {modules : List ModuleInstance} {packages : List Package} {id : Int}
    {package : Package} {owner : ModuleInstance} (hpackage : get packages id = .ok package)
    (howner : get modules package.moduleId = .ok owner) :
    packageLabel modules packages id = .ok (label owner package) := by
  rw [packageLabel, hpackage, Results.ok_bind, howner, label]
  split <;> rfl

end Loom.Packages
