import Loom.Hashing.Digests
import Loom.Library.Delimited
import Loom.Library.Numerals
import Loom.Project.BuildInputs
import Loom.Project.Packages

/-
  The key of the frontend cache.

  Everything a checked artifact depends on is written one behind the other, each text
  behind its length, and hashed. Two keys are taken of the same bytes only where all of
  it is the same.

  Correspondence (frontend_cache.loom, native_cache.loom, driver.loom ↔ Lean):
    `Options` ↔ `Options`, with what the key reads
    an output that is appended to ↔ the bytes that are appended
    `frontend_field`, `frontend_number` ↔ the same in camel case
    a loop over a list, with its count ↔ `frontendList`
    the body of such a loop ↔ `frontendOption`, `frontendModule`, `frontendImport`,
      `frontendPackage`, `frontendFile`
    what `frontend_key` hashes ↔ `frontendPreimage`
    `frontend_key` ↔ `frontendKey`; the filter is that of the options
      where none is given
    `std.hash.sha256.digest`, `hex` ↔ `digest`, `digestHex`
  A message of 2 ^ 61 bytes cannot be hashed: it is a fault.
-/

namespace Loom.Packages

/-- A source without its syntax tree, which is read of the text. -/
def SourceFile.written {Tree : Type} (source : SourceFile Tree) : SourceFile Unit :=
  { source with tree := () }

end Loom.Packages

namespace Loom.FrontendCache

open Utf8 Texts Numerals Delimited Building Packages

structure Options where
  command : String
  testFilter : String
  buildOptions : List BuildOption
  deriving DecidableEq

/-! ## Digests -/

def digest (value : List UInt8) : Except Stop (List UInt8) :=
  if value.length < 2 ^ 61 then .ok (SecureHash.sha256 value) else .error .fault

def digestHex (value : List UInt8) : Except Stop String := do
  let hashed ← digest value
  return hex hashed

theorem digestHex_length {value : List UInt8} {text : String} (h : digestHex value = .ok text) :
    length text = 64 := by
  obtain ⟨hashed, hdigest, htext⟩ := Results.bind_eq_ok.mp h
  rw [Results.pure_eq_ok] at htext
  unfold digest at hdigest
  split at hdigest
  · rw [← htext, length, length_hex, ← Except.ok.inj hdigest, length_sha256]
  · cases hdigest

/-! ## The key -/

def frontendField (value : String) : List UInt8 :=
  bytes (numeral (length value)) ++ bytes "\n" ++ bytes value

def frontendNumber (value : Int) : List UInt8 := frontendField (numeral value)

def frontendList {α : Type} (write : α → List UInt8) (values : List α) : List UInt8 :=
  frontendNumber values.length ++ values.flatMap write

def frontendOption (value : BuildOption) : List UInt8 :=
  frontendField value.name ++ frontendField value.value

def frontendModule (owner : ModuleInstance) : List UInt8 :=
  frontendField owner.name ++ frontendField owner.source

def frontendImport (imported : PackageImport) : List UInt8 :=
  frontendField imported.spelling ++ frontendNumber imported.target

def frontendPackage (package : Package) : List UInt8 :=
  frontendNumber package.moduleId ++ (frontendField package.relative ++
    frontendList frontendImport package.imports)

def frontendFlag (value : Bool) : List UInt8 := frontendNumber (if value then 1 else 0)

def frontendFile {Tree : Type} (source : SourceFile Tree) : List UInt8 :=
  frontendNumber source.package ++ (frontendField source.path ++ (frontendField source.text ++
    (frontendFlag source.testOnly ++ frontendFlag source.trustedStd)))

/-- Check does not lower; the commands that build share one production artifact. -/
def commandClass (options : Options) : String :=
  if options.command = "check" then "check"
  else if options.command = "test" then "test"
  else "native"

section
variable {Tree : Type}

def frontendPreimage (options : Options) (project : Project Tree) (identity filter : String) :
    List UInt8 :=
  bytes "loom-frontend-key 3\n" ++ (frontendField identity ++ (frontendField filter ++
    (frontendList frontendOption options.buildOptions ++ (frontendField (commandClass options) ++
      (frontendNumber project.root ++ (frontendList frontendModule project.modules ++
        (frontendList frontendPackage project.packages ++
          frontendList frontendFile project.files)))))))

def frontendKey (options : Options) (project : Project Tree) (identity filter : String) :
    Except Stop String :=
  digestHex (frontendPreimage options project identity filter)

end

/-! ## What is written determines -/

theorem determines_field : Determines frontendField id := by
  have hsize : Determines (fun size : Nat => bytes (numeral size) ++ [10]) id := by
    refine (determines_terminated fun size hmem => (mem_numeral hmem).1 rfl).imp ?_
    intro size other hsame; exact Int.ofNat.inj (numeral_injective hsame)
  have hsized := @determines_sized _ _ bytes _ hsize
  exact hsized.imp fun text other hsame => bytes_injective hsame

theorem determines_number : Determines frontendNumber id :=
  (Determines.of determines_field numeral).imp fun _ _ hsame =>
    numeral_injective (congrArg bytes hsame)

theorem determines_count : Determines (fun count : Nat => frontendNumber count) id := by
  refine (Determines.of determines_number fun count : Nat => (count : Int)).imp ?_
  intro count other hsame; exact Int.ofNat_inj.mp hsame

theorem determines_list {α γ : Type} {write : α → List UInt8} {view : α → γ}
    (h : Determines write view) :
    Determines (frontendList write) (fun values => values.map view) := by
  have hall := h.list determines_count
  exact hall

theorem determines_values {α : Type} {write : α → List UInt8} (h : Determines write id) :
    Determines (frontendList write) id :=
  (determines_list h).imp fun xs ys hsame => by simpa using hsame

theorem determines_option : Determines frontendOption id := by
  refine ((Determines.of determines_field BuildOption.name).append
    (Determines.of determines_field BuildOption.value)).imp ?_
  rintro ⟨name, value⟩ ⟨other, another⟩ hsame
  cases hsame
  rfl

theorem determines_module : Determines frontendModule id := by
  refine ((Determines.of determines_field ModuleInstance.name).append
    (Determines.of determines_field ModuleInstance.source)).imp ?_
  rintro ⟨name, source⟩ ⟨other, another⟩ hsame
  cases hsame
  rfl

theorem determines_import : Determines frontendImport id := by
  refine ((Determines.of determines_field PackageImport.spelling).append
    (Determines.of determines_number PackageImport.target)).imp ?_
  rintro ⟨spelling, target⟩ ⟨other, another⟩ hsame
  cases hsame
  rfl

theorem determines_package : Determines frontendPackage id := by
  refine ((Determines.of determines_number Package.moduleId).append
    ((Determines.of determines_field Package.relative).append
      ((determines_values determines_import).of Package.imports))).imp ?_
  rintro ⟨owner, relative, imports⟩ ⟨other, another, edges⟩ hsame
  obtain ⟨rfl, rfl, rfl⟩ := hsame
  rfl

theorem determines_flag : Determines frontendFlag id := by
  refine (Determines.of determines_number fun value : Bool => if value then 1 else 0).imp ?_
  decide

section
variable {Tree : Type}

theorem determines_file : Determines (@frontendFile Tree) SourceFile.written := by
  refine ((Determines.of determines_number SourceFile.package).append
    ((Determines.of determines_field SourceFile.path).append
      ((Determines.of determines_field SourceFile.text).append
        ((Determines.of determines_flag SourceFile.testOnly).append
          (Determines.of determines_flag SourceFile.trustedStd))))).imp ?_
  intro source other hsame
  simp only [id, Prod.mk.injEq] at hsame
  obtain ⟨hpackage, hpath, htext, htest, htrusted⟩ := hsame
  simp [SourceFile.written, hpackage, hpath, htext, htest, htrusted]

/-- What the key of a cached artifact is taken of. -/
structure Basis (Tree : Type) where
  options : Options
  project : Project Tree
  identity : String
  filter : String

theorem determines_preimage : Determines (fun basis : Basis Tree =>
        frontendPreimage basis.options basis.project basis.identity basis.filter)
      (fun basis => (basis.identity, basis.filter, basis.options.buildOptions,
        commandClass basis.options, basis.project.root, basis.project.modules,
        basis.project.packages, basis.project.files.map SourceFile.written)) := by
  apply Determines.after
  apply (Determines.of determines_field Basis.identity).append
  apply (Determines.of determines_field Basis.filter).append
  apply ((determines_values determines_option).of fun basis : Basis Tree =>
    basis.options.buildOptions).append
  apply (Determines.of determines_field fun basis : Basis Tree => commandClass basis.options).append
  apply (Determines.of determines_number fun basis : Basis Tree => basis.project.root).append
  apply ((determines_values determines_module).of fun basis : Basis Tree =>
    basis.project.modules).append
  apply ((determines_values determines_package).of fun basis : Basis Tree =>
    basis.project.packages).append
  exact (determines_list determines_file).of fun basis : Basis Tree => basis.project.files

theorem frontendFile_written (source : SourceFile Tree) :
    frontendFile source = frontendFile source.written := rfl

theorem frontendPreimage_eq_iff (options others : Options) (project other : Project Tree)
    (identity another filter second : String) : frontendPreimage options project identity filter =
        frontendPreimage others other another second ↔
      identity = another ∧ filter = second ∧ options.buildOptions = others.buildOptions ∧
        commandClass options = commandClass others ∧ project.root = other.root ∧
        project.modules = other.modules ∧ project.packages = other.packages ∧
        project.files.map SourceFile.written = other.files.map SourceFile.written := by
  constructor
  · intro hsame
    have hview := @determines_preimage Tree ⟨options, project, identity, filter⟩
      ⟨others, other, another, second⟩ [] [] (congrArg (· ++ []) hsame)
    simpa only [Prod.mk.injEq] using hview.1
  · rintro ⟨rfl, rfl, hoptions, hclass, hroot, hmodules, hpackages, hfiles⟩
    have hwritten : @frontendFile Tree = fun source => frontendFile source.written := by
      funext source
      exact frontendFile_written source
    have hall : project.files.flatMap frontendFile = other.files.flatMap frontendFile := by
      calc project.files.flatMap frontendFile
          = (project.files.map SourceFile.written).flatMap frontendFile := by
            rw [List.flatMap_map, hwritten]
        _ = (other.files.map SourceFile.written).flatMap frontendFile := by rw [hfiles]
        _ = other.files.flatMap frontendFile := by rw [List.flatMap_map, hwritten]
    have hlength : project.files.length = other.files.length := by
      simpa only [List.length_map] using congrArg List.length hfiles
    have hlist : frontendList frontendFile project.files = frontendList frontendFile other.files := by
      rw [frontendList, frontendList, hall, hlength]
    rw [frontendPreimage, frontendPreimage, hoptions, hclass, hroot, hmodules, hpackages, hlist]

end

end Loom.FrontendCache
