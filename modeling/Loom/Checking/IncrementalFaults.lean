import Loom.Checking.IncrementalCodec
import Loom.Source.Edits

/-
  Where the decoder of the incremental-check cache can stop with a fault.

  Sizes, counts, numbers, tags and flags are looked at before they are used, and what is
  wrong with one of them is an error. A text is cut out of the input where its size says
  that it ends; whether a character ends there is asked nowhere, and where none does the
  cut is a fault. `Reaches` says that decoding comes to a text that ends at a place: a
  decoder with a trap at the place, which passes over every other text, runs into it. A
  decoder with traps follows the real one up to the first text that ends inside a
  character (`Follows`); its rules follow the sequencing of readers.

  Correspondence (incremental_codec.loom ↔ Lean):
    `cache_field` with its checked arithmetic ↔ `cacheFieldChecked`, its loop `fieldEnd`
    `cache_read_function`, `cache_read_text` in it a parameter ↔ `readFunctionWith`
-/

namespace Loom.IncrementalCache

open Utf8 Texts Framed Machine Results

/-! ## The arithmetic of a field -/

/-- The text of a field, or nothing where a character does not end with it. -/
def fieldText (text : String) (span : Nat × Nat) : String :=
  match slice text span.1 span.2 with
  | .ok value => value
  | .error _ => ""

/-- Passes over a text, wherever it ends; at the place it runs into the trap. -/
def trapText (place : Nat) : Read String := do
  let span ← cacheField
  fun text cursor =>
    if span.2 = place then .error .fault else .ok (fieldText text span, cursor)

def readExpressionWith (readText : Read String) : Nat → Read Expr
  | 0 => fun _ _ => fail "cache expression depth exceeded"
  | room + 1 => do
    let tag ← cacheReadInt
    let kind ← cacheExpressionKind tag
    let ty ← cacheReadInt
    let span ← cacheReadSpan
    let text ← readText
    let slot ← cacheReadInt
    let falls ← cacheReadBool
    let children ← cacheReadList (readExpressionWith readText room)
    let arms ← cacheReadList (cacheReadArm (readExpressionWith readText room))
    return .node kind ty span text slot children arms falls

def readLocalWith (readText : Read String) : Read Local := do
  let name ← readText
  let ty ← cacheReadInt
  let mutable ← cacheReadBool
  let isScoped ← cacheReadBool
  return ⟨name, ty, mutable, isScoped⟩

/-- The decoder of a function, with the reader of its texts. -/
def readFunctionWith (readText : Read String) : Read Function := do
  let isAsync ← cacheReadBool
  let symbol ← cacheReadInt
  let arguments ← cacheReadInts
  let params ← cacheReadInts
  let returnType ← cacheReadInt
  let locals ← cacheReadList (readLocalWith readText)
  let preconditions ← cacheReadList (readExpressionWith readText levels)
  let postconditions ← cacheReadList (readExpressionWith readText levels)
  let resultCleanup ← cacheReadList (readExpressionWith readText levels)
  let resultLocal ← cacheReadInt
  let body ← readExpressionWith readText levels
  let runtimeName ← readText
  let span ← cacheReadSpan
  return ⟨isAsync, symbol, arguments, params, returnType, locals, preconditions, postconditions,
    resultCleanup, resultLocal, body, runtimeName, span⟩

/-- Decoding comes to a text that ends at the place. -/
def Reaches (text : String) (place : Nat) : Prop :=
  readFunctionWith (trapText place) text 0 = .error .fault

/-! ## Readers and their traps -/

variable {text : String} {α β : Type}

/-- A reader stops with a fault exactly where one of its traps lies inside a character, and
otherwise those traps change nothing. -/
def Follows (text : String) (read : Read α) (traps : Nat → Read α) : Prop :=
  ∀ cursor,
    (read text cursor = .error .fault ∧
      ∃ place, boundary (bytes text) place = false ∧ traps place text cursor = .error .fault) ∨
    (read text cursor ≠ .error .fault ∧
      ∀ place, boundary (bytes text) place = false → traps place text cursor = read text cursor)

section
variable {read : Read α} {traps : Nat → Read α}

/-- A reader without a text has no trap and no fault. -/
theorem Follows.calm (h : ∀ cursor, read text cursor ≠ .error .fault) :
    Follows text read fun _ => read := fun cursor => .inr ⟨h cursor, fun _ _ => rfl⟩

theorem Follows.pure (value : α) : Follows text (pure value : Read α) fun _ => pure value :=
  .calm fun _ => nofun

theorem Follows.bind {next : α → Read β} {nexts : Nat → α → Read β} (h : Follows text read traps)
    (hnext : ∀ value, Follows text (next value) fun place => nexts place value) :
    Follows text (read >>= next) fun place => traps place >>= nexts place := by
  intro cursor
  have hrun : ∀ (read : Read α) (next : α → Read β), (read >>= next) text cursor =
      read text cursor >>= fun result => next result.1 text result.2 := fun _ _ => rfl
  simp only [hrun]
  obtain ⟨hfault, place, hplace, htrap⟩ | ⟨hcalm, hsame⟩ := h cursor
  · exact .inl ⟨by rw [hfault]; rfl, place, hplace, by rw [htrap]; rfl⟩
  · cases hread : read text cursor with
    | error stop =>
      refine .inr ⟨fun hstop => hcalm (hread.trans ?_), fun place hplace => ?_⟩
      · exact congrArg _ (Except.error.inj hstop)
      · rw [hsame place hplace, hread]; rfl
    | ok result =>
      have hsame' : ∀ place, boundary (bytes text) place = false →
          (traps place text cursor >>= fun result => nexts place result.1 text result.2) =
            nexts place result.1 text result.2 := by
        intro place hplace
        rw [hsame place hplace, hread]; rfl
      obtain ⟨hfault, place, hplace, htrap⟩ | ⟨hcalm', hsame''⟩ := hnext result.1 result.2
      · exact .inl ⟨hfault, place, hplace, (hsame' place hplace).trans htrap⟩
      · exact .inr ⟨hcalm', fun place hplace =>
          (hsame' place hplace).trans (hsame'' place hplace)⟩

theorem Follows.list (h : Follows text read traps) (count : Nat) :
    Follows text (readList read count) fun place => readList (traps place) count := by
  induction count with
  | zero => exact .pure []
  | succ count ih => exact h.bind fun value => ih.bind fun others => .pure (value :: others)

end

/-! ## Fields -/

theorem cacheField_calm (text : String) (cursor : Nat) : cacheField text cursor ≠ .error .fault := by
  unfold cacheField
  dsimp only
  split
  · exact nofun
  · split
    · exact nofun
    · exact nofun

theorem follows_field : Follows text cacheField fun _ => cacheField := .calm (cacheField_calm text)

theorem follows_int : Follows text cacheReadInt fun _ => cacheReadInt := by
  refine follows_field.bind fun span => .calm fun cursor => ?_
  split
  · exact nofun
  · exact nofun

theorem follows_count : Follows text cacheReadCount fun _ => cacheReadCount := by
  refine follows_int.bind fun count => .calm fun cursor => ?_
  split
  · exact nofun
  · exact nofun

theorem Follows.counted {read : Read α} {traps : Nat → Read α} (h : Follows text read traps) :
    Follows text (cacheReadList read) fun place => cacheReadList (traps place) :=
  follows_count.bind fun count => h.list count

end Loom.IncrementalCache
