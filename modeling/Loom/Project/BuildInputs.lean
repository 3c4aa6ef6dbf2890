import Mathlib.Data.List.Perm.Subperm
import Loom.Library.Results
import Loom.Library.Texts

/-
  Build options, target properties and build inputs.

  Correspondence (build_options.loom, target_inputs.loom, build_inputs.loom ↔ Lean), where names differ:
    `BuildInputs` ↔ `BuildInputs`: its targets, and what `read_target` answers
    `build_option_before` ↔ `Texts.before`
    `build_option_snapshot` ↔ `buildOptionSnapshot`; the body of its loop is `insertOption`
    `target_value` ↔ `targetValue`; the snapshot it takes is returned with the value
  The options, the files and the reader of `BuildInputs` are not read by these functions.
-/

namespace Loom.Building

open Utf8 Texts List

structure BuildOption where
  name : String
  value : String
  deriving DecidableEq

structure InputRequest where
  root : String
  source : String
  path : String
  deriving DecidableEq

structure InputFile where
  path : String
  bytes : List UInt8
  deriving DecidableEq

structure BuildInput where
  request : InputRequest
  file : InputFile
  deriving DecidableEq

structure BuildInputs where
  targets : List BuildOption
  readTarget : Except Stop (List BuildOption)

def letter (char : UInt8) : Bool :=
  (char ≥ 65 && char ≤ 90) || (char ≥ 97 && char ≤ 122) || char == 95

def validBuildOption (name : String) : Bool :=
  match bytes name with
  | [] => false
  | first :: rest => letter first &&
      rest.all fun char => letter char || (char ≥ 48 && char ≤ 57) || char == 45 || char == 46

def insertOption (saved : List BuildOption) (item : BuildOption) :
    Except Stop (List BuildOption) :=
  if !validBuildOption item.name then
    fail "build option names require a letter or underscore, followed by letters, digits, '_', '-' or '.'"
  else
    let position := (saved.takeWhile fun other => before other.name item.name).length
    if saved[position]?.any fun other => other.name == item.name then
      fail "duplicate build option name"
    else .ok (saved.take position ++ item :: saved.drop position)

/-- The options in the order of their names. -/
def buildOptionSnapshot (options : List BuildOption) : Except Stop (List BuildOption) :=
  options.foldlM insertOption []

def validTargetProperty (name : String) : Bool :=
  name == "os" || name == "arch" || name == "pointer_width" || name == "endian"

/-- The snapshot of the targets, which is taken where there is none. -/
def loadTargets (inputs : BuildInputs) : Except Stop BuildInputs :=
  if inputs.targets.isEmpty then do
    let properties ← inputs.readTarget
    let values ← buildOptionSnapshot properties
    if values.all fun value => validTargetProperty value.name then
      return { inputs with targets := values }
    else fail "unknown target property in build snapshot"
  else return inputs

def targetValue (inputs : BuildInputs) (name : String) : Except Stop (String × BuildInputs) :=
  if !validTargetProperty name then
    fail "unknown target property; expected os, arch, pointer_width or endian"
  else do
    let inputs ← loadTargets inputs
    match inputs.targets.find? fun property => property.name == name with
    | some property => return (property.value, inputs)
    | none => fail ("target snapshot does not supply property " ++ name)

/-! ## Snapshots of options -/

theorem insertOption_ok {saved : List BuildOption} {item : BuildOption}
    (hvalid : validBuildOption item.name = true) (hnew : item.name ∉ saved.map BuildOption.name) :
    ∃ after, insertOption saved item = .ok after ∧ after.Perm (item :: saved) := by
  unfold insertOption
  rw [if_neg (by rw [hvalid]; decide)]
  generalize (saved.takeWhile fun other => before other.name item.name).length = position
  have hother : ¬(saved[position]?.any fun other => other.name == item.name) = true := by
    intro hany
    obtain ⟨other, hat, hname⟩ := Option.any_eq_true _ _ |>.mp hany
    apply hnew
    rw [← eq_of_beq hname]; exact mem_map_of_mem (mem_of_getElem? hat)
  rw [if_neg hother]
  refine ⟨_, rfl, ?_⟩
  calc (saved.take position ++ item :: saved.drop position).Perm
        (item :: (saved.take position ++ saved.drop position)) := perm_middle
    _ = item :: saved := by rw [take_append_drop]

/-- The loop, behind the options that are saved already. -/
theorem snapshot_from {options saved : List BuildOption}
    (hvalid : ∀ option ∈ options, validBuildOption option.name = true)
    (hnodup : ((options ++ saved).map BuildOption.name).Nodup) :
    ∃ after, options.foldlM insertOption saved = .ok after ∧ after.Perm (options ++ saved) := by
  induction options generalizing saved with
  | nil => exact ⟨saved, rfl, .refl _⟩
  | cons item options ih =>
    rw [cons_append, map_cons, nodup_cons, map_append, mem_append] at hnodup
    obtain ⟨hnew, hnodup⟩ := hnodup
    obtain ⟨next, hinsert, hperm⟩ := insertOption_ok (hvalid item (.head _))
      (fun hmem => hnew (.inr hmem))
    have hnext : (options ++ next).Perm (item :: (options ++ saved)) :=
      (hperm.append_left options).trans perm_middle
    have hrest : ((options ++ next).map BuildOption.name).Nodup := by
      rw [(hnext.map _).nodup_iff, map_cons, nodup_cons, map_append, mem_append]
      exact ⟨hnew, hnodup⟩
    obtain ⟨after, hafter, hall⟩ := ih (fun option hmem => hvalid option (.tail _ hmem)) hrest
    refine ⟨after, ?_, hall.trans hnext⟩
    rw [foldlM_cons, hinsert]; exact hafter

theorem buildOptionSnapshot_ok {options : List BuildOption}
    (hvalid : ∀ option ∈ options, validBuildOption option.name = true)
    (hnodup : (options.map BuildOption.name).Nodup) :
    ∃ saved, buildOptionSnapshot options = .ok saved ∧ saved.Perm options := by
  obtain ⟨saved, hsaved, hperm⟩ := @snapshot_from options [] hvalid (by rwa [append_nil])
  exact ⟨saved, hsaved, by rwa [append_nil] at hperm⟩

/-! ## Target properties -/

variable {name : String} {inputs : BuildInputs}

theorem validTargetProperty_iff : validTargetProperty name = true ↔
    name ∈ ["os", "arch", "pointer_width", "endian"] := by
  simp [validTargetProperty, or_assoc]

theorem validBuildOption_of_target (h : validTargetProperty name = true) :
    validBuildOption name = true := by
  have hall : ∀ name ∈ ["os", "arch", "pointer_width", "endian"], validBuildOption name = true := by
    decide
  exact hall name (validTargetProperty_iff.mp h)

theorem targets_le_four {targets : List BuildOption}
    (hvalid : ∀ target ∈ targets, validTargetProperty target.name = true)
    (hnodup : (targets.map BuildOption.name).Nodup) : targets.length ≤ 4 := by
  have hsub : targets.map BuildOption.name ⊆ ["os", "arch", "pointer_width", "endian"] := by
    intro name hname
    obtain ⟨target, htarget, rfl⟩ := mem_map.mp hname
    exact validTargetProperty_iff.mp (hvalid target htarget)
  have hlength := (hnodup.subperm hsub).length_le
  rwa [length_map] at hlength

theorem loadTargets_again (hne : inputs.targets ≠ []) : loadTargets inputs = .ok inputs := by
  rw [loadTargets, if_neg (by simpa using hne)]; rfl

theorem targetValue_eq_ok {after : BuildInputs} {value : String} :
    targetValue inputs name = .ok (value, after) ↔
      validTargetProperty name = true ∧ loadTargets inputs = .ok after ∧
        ∃ property, (after.targets.find? fun property => property.name == name) = some property ∧
          property.value = value := by
  unfold targetValue
  cases hvalid : validTargetProperty name with
  | false => exact iff_of_false nofun nofun
  | true =>
    cases hload : loadTargets inputs with
    | error stop => exact iff_of_false nofun nofun
    | ok loaded =>
      rw [Results.ok_bind]
      constructor
      · intro h
        cases hfind : loaded.targets.find? fun property => property.name == name with
        | none =>
          rw [hfind] at h
          cases h
        | some property =>
          rw [hfind] at h
          cases h
          exact ⟨rfl, rfl, property, hfind, rfl⟩
      · rintro ⟨-, hsame, property, hfind, rfl⟩
        cases hsame
        rw [hfind]; rfl

theorem targetValue_again {after : BuildInputs} {value : String}
    (h : targetValue inputs name = .ok (value, after)) (other : String) :
    targetValue after other = targetValue inputs other := by
  obtain ⟨-, hload, property, hfind, -⟩ := targetValue_eq_ok.mp h
  have hne : after.targets ≠ [] := ne_nil_of_mem (mem_of_find?_eq_some hfind)
  unfold targetValue
  rw [loadTargets_again hne, hload]

end Loom.Building
