import Loom.Cache.FrontendKey

/-
  Bundles of the frontend cache, and how they are read.

  A bundle is the key's line, numbers and texts behind their lengths, the artifact as
  it is, and the checksum of all of it. A lookup checks the line and the checksum, reads
  the fields, and asks for every target and every input again.

  Correspondence (frontend_cache.loom, native_cache.loom, driver.loom ↔ Lean), where names differ:
    `frontend_prefix`, `frontend_bundle` ↔ the same in camel case; `recordedInputs` is the
      loop over the inputs
    `cache_payload_end` ↔ `cachePayloadEnd`; its loops compare byte by byte
    `FrontendReader` ↔ its text and its end; the cursor is the state
    `frontend_read`, `frontend_read_number` ↔ the same in camel case
    `frontend_payload` ↔ `frontendPayload`; the bodies of its loops are
      `cachedTarget` and `cachedInput`
    `frontend_decode_kind`, `frontend_decode` ↔ the same in camel case
    `read_input` ↔ the parameter `readInput`: what the files are now
  The snapshot of the targets that a lookup takes is passed on from target to target.
-/

namespace Loom.FrontendCache

open Utf8 Texts Numerals Building Packages

structure Prepared (Tree : Type) where
  inputs : List BuildInput
  targets : List BuildOption
  input : String
  entry : Int
  tests : Int
  project : Project Tree
  deriving DecidableEq

/-! ## Writing -/

def frontendPrefix (key : String) : String := "loom-frontend-cache 3\n" ++ (key ++ "\n")

def recordedInput (input : BuildInput) : Except Stop (List UInt8) := do
  let hashed ← digestHex input.file.bytes
  return frontendField input.request.root ++ (frontendField input.request.source ++
    (frontendField input.request.path ++ (frontendField input.file.path ++ frontendField hashed)))

def recordedInputs : List BuildInput → Except Stop (List UInt8)
  | [] => return []
  | input :: rest => do
    let encoded ← recordedInput input
    let others ← recordedInputs rest
    return encoded ++ others

section
variable {Tree : Type}

/-- The fields of a bundle and the artifact, with what the inputs are written as. -/
def frontendFields (value : Prepared Tree) (inputs : List UInt8) : List UInt8 :=
  frontendNumber value.entry ++ (frontendNumber value.tests ++
    (frontendNumber value.targets.length ++ (value.targets.flatMap frontendOption ++
      (frontendNumber value.inputs.length ++ (inputs ++ bytes value.input)))))

def frontendBundle (head : String) (value : Prepared Tree) : Except Stop (List UInt8) := do
  let inputs ← recordedInputs value.inputs
  let output := bytes head ++ frontendFields value inputs
  let checksum ← digestHex output
  return output ++ bytes checksum

end

/-! ## Reading -/

/-- Where the checksum starts that seals the bytes, or -1 where it does not. -/
def cachePayloadEnd (value : List UInt8) (head : String) (hexadecimal : Bool) : Except Stop Int :=
  let offset := length head
  let stop : Int := value.length - if hexadecimal then 64 else 32
  if stop < offset then return -1
  else if value.take offset ≠ bytes head then return -1
  else do
    let checksum ← digest (value.take stop.toNat)
    let expected := if hexadecimal then bytes (hex checksum) else checksum
    return if value.drop stop.toNat = expected then stop else -1

structure FrontendReader where
  text : String
  stop : Nat

abbrev Reading := ReaderT FrontendReader (StateT Nat (Except Stop))

/-- What is asked of something else than the reader. -/
def given {α : Type} (answer : Except Stop α) : Reading α := fun _ cursor => do
  let value ← answer
  return (value, cursor)

def refuse {α : Type} (message : String) : Reading α := given (fail message)

def frontendRead : Reading String := fun reader start => do
  let line := (((bytes reader.text).drop start).take (reader.stop - start)).takeWhile (· != 10)
  let stop := start + line.length
  let digits ← slice reader.text start stop
  match Decimal.parse ((bytes digits).map UInt8.toNat) with
  | .error _ => fail "invalid cache field size"
  | .ok size =>
    if size < 0 ∨ stop ≥ reader.stop ∨ size > (reader.stop : Int) - stop - 1 then
      fail "truncated cache field"
    else do
      let value ← slice reader.text (stop + 1) (stop + 1 + size.toNat)
      return (value, stop + 1 + size.toNat)

def frontendReadNumber : Reading Int := do
  let text ← frontendRead
  match Decimal.parse ((bytes text).map UInt8.toNat) with
  | .ok value => return value
  | .error _ => refuse "invalid cache number"

def cachedTarget (context : BuildInputs) : Reading (BuildOption × BuildInputs) := do
  let name ← frontendRead
  let value ← frontendRead
  if !validTargetProperty name then refuse "cached target property changed"
  else do
    let answer ← given (targetValue context name)
    if answer.1 ≠ value then refuse "cached target property changed"
    else return (⟨name, value⟩, answer.2)

def cachedTargets : Nat → BuildInputs → Reading (List BuildOption)
  | 0, _ => return []
  | count + 1, context => do
    let target ← cachedTarget context
    let others ← cachedTargets count target.2
    return target.1 :: others

section
variable {Tree : Type} (readInput : InputRequest → Except Stop InputFile) (project : Project Tree)

def moduleSource (file : SourceFile Tree) : Except Stop String := do
  let package ← get project.packages file.package
  let owner ← get project.modules package.moduleId
  return owner.source

def cachedInput : Reading BuildInput := do
  let root ← frontendRead
  let source ← frontendRead
  let asked ← frontendRead
  let path ← frontendRead
  let expected ← frontendRead
  match project.files.find? fun file => file.path == source with
  | none => refuse "cached input source changed"
  | some first => do
    let owner ← given (moduleSource project first)
    if owner ≠ root then refuse "cached input module changed"
    else do
      let file ← given (readInput ⟨root, source, asked⟩)
      if file.path ≠ path then refuse "cached input changed"
      else do
        let hashed ← given (digestHex file.bytes)
        if hashed ≠ expected then refuse "cached input changed"
        else return ⟨⟨root, source, asked⟩, file⟩

def cachedInputs : Nat → Reading (List BuildInput)
  | 0 => return []
  | count + 1 => do
    let input ← cachedInput readInput project
    let others ← cachedInputs count
    return input :: others

/-- What is left in front of the end. -/
def cachedArtifact : Reading String := fun reader cursor => do
  let input ← slice reader.text cursor reader.stop
  return (input, reader.stop)

/-- Whether an artifact is of a format. -/
def acceptable (format input : String) : Bool :=
  !(format == "check" && input != "") &&
    !(format == "native" && !(bytes "loom-checked-1\n").isPrefixOf (bytes input))

def cachedPrepared (format : String) (context : BuildInputs) : Reading (Prepared Tree) := do
  let entry ← frontendReadNumber
  let tests ← frontendReadNumber
  let targetCount ← frontendReadNumber
  if targetCount < 0 ∨ targetCount > 4 then refuse "invalid cached target count"
  else do
    let targets ← cachedTargets targetCount.toNat context
    let _ ← given (buildOptionSnapshot targets)
    let count ← frontendReadNumber
    let reader ← read
    if count < 0 ∨ count > length reader.text then refuse "invalid cache input count"
    else do
      let inputs ← cachedInputs readInput project count.toNat
      let input ← cachedArtifact
      if entry < -1 ∨ tests < 0 ∨ !acceptable format input then refuse "invalid cached artifact"
      else return ⟨inputs, targets, input, entry, tests, project⟩

def frontendPayload (text : String) (start stop : Nat) (format : String) (context : BuildInputs) :
    Except Stop (Prepared Tree) := do
  let answer ← cachedPrepared readInput project format context ⟨text, stop⟩ start
  return answer.1

/-- An error is a miss; a fault is a fault. -/
def orMiss {α : Type} (answer : Except Stop α) : Except Stop (Option α) :=
  match answer with
  | .ok value => .ok (some value)
  | .error (.error _) => .ok none
  | .error .fault => .error .fault

def frontendDecodeKind (value : List UInt8) (head format : String) (inputs : BuildInputs) :
    Except Stop (Option (Prepared Tree)) := do
  let stop ← cachePayloadEnd value head true
  if stop < 0 then return none
  else
    match decode value with
    | none => return none
    | some text =>
      orMiss (frontendPayload readInput project text (length head) (length text - 64) format inputs)

def frontendDecode (value : List UInt8) (head : String) (checking : Bool) (inputs : BuildInputs) :
    Except Stop (Option (Prepared Tree)) :=
  frontendDecodeKind readInput project value head (if checking then "check" else "native") inputs

end

end Loom.FrontendCache
