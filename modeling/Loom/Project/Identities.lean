import Loom.Library.Texts

/-
  The identities of Git sources, and versions.

  Correspondence (manifest.loom, semver.loom, lock.loom ↔ Lean), where names differ:
    `git_host`, one turn of its outer loop ↔ `gitHost`, `hostLabel`
    `git_url`, its loops ↔ `gitUrl`, `gitPort`, `gitPath`
    `pieces` of semver.loom ↔ `Texts.parts`, which gives the same
  A loop over the bytes of a text is a recursion on the bytes that are left, with the
  offset where a cut needs it. A cut may fault.

  What is proved: a text that one of these checks admits has no control bytes
  (`segment_printable` to `parseVersion_printable`).
-/

namespace Loom.Identities

open Utf8 Texts List Results Bool

def lowerHex (byte : UInt8) : Bool := (48 ≤ byte && byte ≤ 57) || (97 ≤ byte && byte ≤ 102)

def hexId (value : String) (size : Nat) : Bool :=
  length value == size && (bytes value).all lowerHex

def segment (value : String) : Bool :=
  match bytes value with
  | [] => false
  | first :: rest =>
    (97 ≤ first && first ≤ 122) &&
      (first :: rest).all fun current =>
        (97 ≤ current && current ≤ 122) || (48 ≤ current && current ≤ 57) || current == 95

/-! ## Git sources -/

def asciiAlphanumeric (value : UInt8) : Bool :=
  (48 ≤ value && value ≤ 57) || (65 ≤ value && value ≤ 90) || (97 ≤ value && value ≤ 122)

def isDigit (value : UInt8) : Bool := 48 ≤ value && value ≤ 57

/-- A label of a host name: whether it is all digits, and whether it could be a part of
an IPv4 address. The first four bytes count for its number. -/
def hostLabel (label : List UInt8) : Option (Bool × Bool) :=
  if !label.all fun current => asciiAlphanumeric current || current == 45 then none
  else if label.length = 0 ∨ label.length > 63 then none
  else if !asciiAlphanumeric (label.headD 0) || !asciiAlphanumeric (label.getLastD 0) then none
  else
    let number := ((label.take 4).filter isDigit).foldl
      (fun number current => number * 10 + (current.toNat - 48)) 0
    let ipv4 := !(label.length > 3 || number > 255 || (label.length > 1 && label.headD 0 == 48))
    some (label.all isDigit, ipv4)

/-- The labels of a host name, up to each period. One that ends in a period is refused. -/
def hostLabels : List UInt8 → List UInt8 → List (List UInt8)
  | label, [] => [label]
  | label, current :: rest =>
    if current = 46 then label :: hostLabels [] rest else hostLabels (label ++ [current]) rest

def gitHost (value : String) : Bool :=
  if length value = 0 ∨ length value > 253 then false
  else
    match (hostLabels [] (bytes value)).mapM hostLabel with
    | none => false
    | some labels =>
      !labels.all (fun label => label.1) ||
        (labels.length == 4 && labels.all fun label => label.2)

/-- The decimal port, up to the end of the authority. -/
def gitPort : Nat → List UInt8 → Bool
  | port, [] => port != 0
  | port, current :: rest =>
    if !isDigit current then false
    else
      let port := port * 10 + (current.toNat - 48)
      if port > 65535 then false else gitPort port rest

/-- RFC 3986 path characters, without percent escapes and `@`. -/
def pathByte (current : UInt8) : Bool :=
  asciiAlphanumeric current || [45, 46, 95, 126, 33, 36, 38, 39, 40, 41, 42, 43, 44, 59, 61, 58].contains
    current

def dotSegment (part : String) : Bool := part == "" || part == "." || part == ".."

/-- The loop over the path; `start` is where its current part began. A path may end in a
slash. -/
def gitPath (value : String) : Nat → Nat → List UInt8 → Except Stop Bool
  | start, offset, [] => do
    if start = offset then return true
    return !dotSegment (← slice value start offset)
  | start, offset, current :: rest =>
    if current = 47 then do
      if dotSegment (← slice value start offset) then return false
      gitPath value (offset + 1) (offset + 1) rest
    else if !pathByte current then return false
    else gitPath value start (offset + 1) rest

def gitUrl (value : String) : Except Stop Bool := do
  let encoded := bytes value
  if !(bytes "https://").isPrefixOf encoded then return false
  let authority := (encoded.drop 8).takeWhile (· != 47)
  let authorityEnd := 8 + authority.length
  if authorityEnd = encoded.length then return false
  let host := authority.takeWhile (· != 58)
  let hostEnd := 8 + host.length
  if !gitHost (← slice value 8 hostEnd) then return false
  if hostEnd < authorityEnd then
    let port := authority.drop (host.length + 1)
    if port.isEmpty || !gitPort 0 port then return false
  let offset := authorityEnd + 1
  if offset = encoded.length then return false
  gitPath value offset offset (encoded.drop offset)

def gitRevision (value : String) : Bool :=
  (length value == 40 || length value == 64) && (bytes value).all lowerHex

def validGit (url rev : String) : Except Stop Bool := do
  if !(← gitUrl url) then return false
  return gitRevision rev

/-- The loop over a directory; `start` is where its current part began. -/
def subdirPath (value : String) : Nat → Nat → List UInt8 → Except Stop Bool
  | start, offset, [] => return !dotSegment (← slice value start offset)
  | start, offset, current :: rest =>
    if current = 47 then do
      if dotSegment (← slice value start offset) then return false
      if rest.isEmpty then return false
      subdirPath value (offset + 1) (offset + 1) rest
    else if current < 32 || current == 127 || current == 92 || current == 58 then return false
    else subdirPath value start (offset + 1) rest

def validGitSubdir (value : String) : Except Stop Bool :=
  if value = "" then return true else subdirPath value 0 0 (bytes value)

/-! ## Versions -/

structure Version where
  major : String
  minor : String
  patch : String
  prerelease : String
  metadata : String
  deriving DecidableEq

def digits (text : String) : Bool := text != "" && (bytes text).all isDigit

def number (text : String) : Bool :=
  digits text && (length text == 1 || (bytes text).headD 0 != 48)

def identifier (numeric : Bool) (value : String) : Bool :=
  !(value == "" || (numeric && digits value && !number value)) &&
    (bytes value).all fun current => asciiAlphanumeric current || current == 45

def identifiers (text : String) (numeric : Bool) : Except Stop Bool := do
  return (← parts text 46).all (identifier numeric)

/-- The numeric components, up to `coreEnd`. -/
def versionCore (text : String) (coreEnd : Nat) (partly : Bool) : Except Stop (List String) := do
  let core ← parts (← slice text 0 coreEnd) 46
  if core.length > 3 ∨ (!partly ∧ core.length ≠ 3) then fail "expected a SemVer version"
  else if !core.all number then fail "invalid SemVer numeric component"
  else return core

/-- The prerelease or the metadata, if there is one. -/
def versionTail (text : String) (precision : Nat) (present : Bool) (start stop : Nat)
    (numeric : Bool) (message : String) : Except Stop String :=
  if !present then return ""
  else do
    let tail ← slice text start stop
    if precision ≠ 3 then fail message
    else if ← identifiers tail numeric then return tail
    else fail message

def versionParts (text : String) (partly : Bool) : Except Stop (Version × Nat) := do
  let encoded := bytes text
  let coreEnd := (encoded.takeWhile fun byte => byte != 45 && byte != 43).length
  let core ← versionCore text coreEnd partly
  let precision := core.length
  let hasPrerelease := encoded[coreEnd]? == some 45
  let start := coreEnd + 1
  let offset :=
    if hasPrerelease then start + ((encoded.drop start).takeWhile (· != 43)).length else coreEnd
  let prerelease ←
    versionTail text precision hasPrerelease start offset true "invalid SemVer prerelease"
  let metadata ← versionTail text precision (offset < encoded.length) (offset + 1) encoded.length
    false "invalid SemVer build metadata"
  let minor := if precision > 1 then core.getD 1 "" else "0"
  let patch := if precision > 2 then core.getD 2 "" else "0"
  return (⟨core.headD "", minor, patch, prerelease, metadata⟩, precision)

def parseVersion (text : String) : Except Stop Version := do
  let (version, _) ← versionParts text false
  return version

/-! ## What the checks admit -/

/-- No byte is a control. -/
def Printable (text : String) : Prop := ∀ byte ∈ bytes text, 32 ≤ byte

variable {encoded : List UInt8} {value : String} {start offset : Nat} {text : String}
  {numeric : Bool}

theorem printable_all {check : UInt8 → Bool} (hcheck : ∀ byte, check byte = true → 32 ≤ byte)
    (h : encoded.all check = true) : ∀ byte ∈ encoded, 32 ≤ byte :=
  fun byte hmem => hcheck byte (all_eq_true.mp h byte hmem)

/-- A check of single bytes, on all of them. -/
theorem byte_check {check : UInt8 → Bool} (hall : ∀ code < 32, check (UInt8.ofNat code) = false) :
    ∀ byte, check byte = true → 32 ≤ byte := by
  intro byte hbyte
  by_contra hlt
  have hcode : byte.toNat < 32 := by
    have := UInt8.lt_iff_toNat_lt.mp (UInt8.not_le.mp hlt)
    simpa using this
  have hfalse := hall byte.toNat hcode
  rw [UInt8.ofNat_toNat, hbyte] at hfalse
  cases hfalse

theorem lowerHex_printable : ∀ byte, lowerHex byte = true → 32 ≤ byte := byte_check (by decide)

theorem digit_printable : ∀ byte, isDigit byte = true → 32 ≤ byte := byte_check (by decide)

theorem pathByte_printable : ∀ byte, pathByte byte = true → 32 ≤ byte := byte_check (by decide)

theorem hexId_printable {size : Nat} (h : hexId value size = true) : Printable value := by
  rw [hexId, and_eq_true] at h; exact printable_all lowerHex_printable h.2

theorem segment_printable (h : segment value = true) : Printable value := by
  unfold segment at h
  unfold Printable
  cases hbytes : bytes value with
  | nil => exact nofun
  | cons first rest =>
    rw [hbytes, and_eq_true] at h
    exact printable_all (byte_check (by decide)) h.2

theorem gitRevision_printable (h : gitRevision value = true) : Printable value := by
  rw [gitRevision, and_eq_true] at h; exact printable_all lowerHex_printable h.2

theorem hostLabel_printable {label : List UInt8} {facts : Bool × Bool}
    (h : hostLabel label = some facts) : ∀ byte ∈ label, 32 ≤ byte := by
  unfold hostLabel at h
  split at h
  case isTrue => cases h
  case isFalse hall =>
    rw [not_eq_true, not_eq_false'] at hall
    exact printable_all (byte_check (by decide)) hall

theorem mem_hostLabels (label encoded : List UInt8) {byte : UInt8} (h : byte ∈ label ++ encoded) :
    byte = 46 ∨ ∃ other ∈ hostLabels label encoded, byte ∈ other := by
  induction encoded generalizing label with
  | nil => exact .inr ⟨label, mem_singleton_self label, by simpa using h⟩
  | cons current rest ih =>
    rw [hostLabels]
    split
    case isTrue hdot =>
      obtain hlabel | hcurrent | hrest : byte ∈ label ∨ byte = current ∨ byte ∈ rest := by
        simpa using h
      · exact .inr ⟨label, .head _, hlabel⟩
      · exact .inl (hcurrent.trans hdot)
      · obtain hsame | ⟨other, hmem, hin⟩ := ih [] hrest
        · exact .inl hsame
        · exact .inr ⟨other, .tail _ hmem, hin⟩
    case isFalse => exact ih (label ++ [current]) (by simpa using h)

theorem exists_of_mapM {α β : Type} {f : α → Option β} {l : List α} {results : List β}
    (h : l.mapM f = some results) : ∀ a ∈ l, ∃ b, f a = some b := by
  induction l generalizing results with
  | nil => exact nofun
  | cons first rest ih =>
    rw [mapM_cons] at h
    obtain ⟨b, hfirst, h⟩ := Option.bind_eq_some_iff.mp h
    obtain ⟨others, hrest, -⟩ := Option.bind_eq_some_iff.mp h
    intro a ha
    obtain rfl | hmem := mem_cons.mp ha
    · exact ⟨b, hfirst⟩
    · exact ih hrest a hmem

theorem gitHost_printable (h : gitHost value = true) : Printable value := by
  intro byte hbyte
  unfold gitHost at h
  split at h
  case isTrue => cases h
  case isFalse =>
    cases hlabels : (hostLabels [] (bytes value)).mapM hostLabel with
    | none =>
      rw [hlabels] at h
      cases h
    | some facts =>
      obtain hdot | ⟨label, hmem, hin⟩ := mem_hostLabels [] (bytes value) hbyte
      · rw [hdot]; decide
      · obtain ⟨fact, hlabel⟩ := exists_of_mapM hlabels label hmem
        exact hostLabel_printable hlabel byte hin

theorem gitPort_printable {port : Nat} (h : gitPort port encoded = true) :
    ∀ byte ∈ encoded, 32 ≤ byte := by
  induction encoded generalizing port with
  | nil => exact nofun
  | cons current rest ih =>
    rw [gitPort] at h
    split at h
    case isTrue => cases h
    case isFalse hdigit =>
      dsimp only at h
      split at h
      case isTrue => cases h
      case isFalse =>
        rw [not_eq_true, not_eq_false'] at hdigit
        exact forall_mem_cons.mpr ⟨digit_printable current hdigit, ih h⟩

theorem gitPath_printable (encoded : List UInt8) (h : gitPath value start offset encoded = .ok true) :
    ∀ byte ∈ encoded, 32 ≤ byte := by
  induction encoded generalizing start offset with
  | nil => exact nofun
  | cons current rest ih =>
    rw [gitPath] at h
    split at h
    case isTrue hslash =>
      obtain ⟨part, -, h⟩ := bind_eq_ok.mp h
      split at h
      case isTrue => cases h
      case isFalse => exact forall_mem_cons.mpr ⟨hslash ▸ by decide, ih h⟩
    case isFalse =>
      split at h
      case isTrue => cases h
      case isFalse hbyte =>
        rw [not_eq_true, not_eq_false'] at hbyte
        exact forall_mem_cons.mpr ⟨pathByte_printable current hbyte, ih h⟩

/-- What a scan stops at is a byte that it does not pass. -/
theorem drop_takeWhile {passes : UInt8 → Bool}
    (h : (encoded.takeWhile passes).length ≠ encoded.length) :
    ∃ stop, passes stop = false ∧ encoded.drop (encoded.takeWhile passes).length =
      stop :: encoded.drop ((encoded.takeWhile passes).length + 1) := by
  induction encoded with
  | nil => exact absurd rfl h
  | cons byte rest ih =>
    cases hbyte : passes byte with
    | false => exact ⟨byte, hbyte, by simp [hbyte]⟩
    | true =>
      have htake : (byte :: rest).takeWhile passes = byte :: rest.takeWhile passes := by
        simp [hbyte]
      rw [htake, length_cons, length_cons] at h
      rw [htake, length_cons]; exact ih fun heq => h (by rw [heq])

/-- A list of bytes from what a scan passes, what it stops at, and what is behind that. -/
theorem forall_scanned (passes : UInt8 → Bool) (hstop : ∀ byte, passes byte = false → 32 ≤ byte)
    (hfront : ∀ byte ∈ encoded.takeWhile passes, 32 ≤ byte)
    (hback : (encoded.takeWhile passes).length ≠ encoded.length →
      ∀ byte ∈ encoded.drop ((encoded.takeWhile passes).length + 1), 32 ≤ byte) :
    ∀ byte ∈ encoded, 32 ≤ byte := by
  have hsplit := take_append_drop (encoded.takeWhile passes).length encoded
  have htake : encoded.take (encoded.takeWhile passes).length = encoded.takeWhile passes :=
    (prefix_iff_eq_take.mp ( takeWhile_prefix _)).symm
  intro byte hbyte
  rw [← hsplit, htake, mem_append] at hbyte
  obtain hmem | hmem := hbyte
  · exact hfront byte hmem
  · by_cases hall : (encoded.takeWhile passes).length = encoded.length
    · rw [hall, drop_length] at hmem; exact absurd hmem not_mem_nil
    · obtain ⟨stop, hpasses, hdrop⟩ := drop_takeWhile hall
      rw [hdrop] at hmem
      obtain rfl | hrest := mem_cons.mp hmem
      · exact hstop byte hpasses
      · exact hback hall byte hrest

theorem ne_printable {stop : UInt8} (h : 32 ≤ stop) :
    ∀ byte : UInt8, (byte != stop) = false → 32 ≤ byte := by
  intro byte hbyte
  rw [bne_eq_false_iff_eq] at hbyte
  rwa [hbyte]

theorem gitUrl_printable (h : gitUrl value = .ok true) : Printable value := by
  unfold gitUrl at h
  dsimp only at h
  unfold Printable
  generalize hencoded : bytes value = encoded at h ⊢
  split at h
  case isTrue => cases h
  case isFalse hprefix =>
    rw [not_eq_true, not_eq_false', isPrefixOf_iff_prefix] at hprefix
    obtain ⟨rest, rfl⟩ := hprefix
    have hdrop : (bytes "https://" ++ rest).drop 8 = rest := rfl
    rw [hdrop] at h
    generalize hauthority : rest.takeWhile (· != 47) = authority at h
    split at h
    case isTrue => cases h
    case isFalse =>
      obtain ⟨host, hslice, h⟩ := bind_eq_ok.mp h
      have hcut := mem_of_slice hslice
      rw [hencoded, hdrop, Nat.add_sub_cancel_left] at hcut
      split at h
      case isTrue => cases h
      case isFalse hhost =>
        rw [not_eq_true, not_eq_false'] at hhost
        have hfacts : ((authority.takeWhile (· != 58)).length < authority.length →
            gitPort 0 (authority.drop ((authority.takeWhile (· != 58)).length + 1)) = true) ∧
            ∃ start, gitPath value start start (rest.drop (authority.length + 1)) = .ok true := by
          have hpath : ∀ {p : Prop} [Decidable p], (if p then pure false else
              gitPath value (8 + authority.length + 1) (8 + authority.length + 1)
                ((bytes "https://" ++ rest).drop (8 + authority.length + 1))) = .ok true →
              ∃ start, gitPath value start start (rest.drop (authority.length + 1)) = .ok true := by
            intro p _ hrun
            split at hrun
            case isTrue => cases hrun
            case isFalse =>
              rw [Nat.add_assoc, ← drop_drop] at hrun; exact ⟨_, hrun⟩
          split at h
          case isTrue =>
            split at h
            case isTrue => cases h
            case isFalse hport =>
              rw [not_eq_true, or_eq_false_iff, not_eq_false'] at hport
              exact ⟨fun _ => hport.2, hpath h⟩
          case isFalse hnone => exact ⟨fun hlt => absurd (by omega) hnone, hpath h⟩
        obtain ⟨hport, start, hpath⟩ := hfacts
        have hrest : ∀ byte ∈ rest, 32 ≤ byte := by
          refine forall_scanned (· != 47) (ne_printable (by decide)) ?_ ?_
          · rw [hauthority]
            refine forall_scanned (· != 58) (ne_printable (by decide)) ?_ ?_
            · have hbytes := gitHost_printable hhost
              have hprefix : authority.takeWhile (· != 58) <+: rest :=
                ( takeWhile_prefix _).trans (hauthority ▸ takeWhile_prefix _)
              rw [← prefix_iff_eq_take.mp hprefix] at hcut
              rwa [← hcut]
            · intro hne
              have hle := ( takeWhile_prefix (l := authority) (· != 58)).length_le
              exact gitPort_printable (hport (by omega))
          · intro _
            rw [hauthority]; exact gitPath_printable _ hpath
        intro byte hbyte
        obtain hscheme | hmem := mem_append.mp hbyte
        · have hall : ∀ byte ∈ bytes "https://", 32 ≤ byte := by set_option maxRecDepth 4000 in decide
          exact hall byte hscheme
        · exact hrest byte hmem

theorem subdirPath_printable (encoded : List UInt8)
    (h : subdirPath value start offset encoded = .ok true) : ∀ byte ∈ encoded, 32 ≤ byte := by
  induction encoded generalizing start offset with
  | nil => exact nofun
  | cons current rest ih =>
    rw [subdirPath] at h
    split at h
    case isTrue hslash =>
      obtain ⟨part, -, h⟩ := bind_eq_ok.mp h
      split at h
      case isTrue => cases h
      case isFalse =>
        split at h
        case isTrue => cases h
        case isFalse => exact forall_mem_cons.mpr ⟨hslash ▸ by decide, ih h⟩
    case isFalse =>
      split at h
      case isTrue => cases h
      case isFalse hbyte =>
        have hcurrent : 32 ≤ current := by
          by_contra hlt
          exact hbyte (by simp [UInt8.not_le.mp hlt])
        exact forall_mem_cons.mpr ⟨hcurrent, ih h⟩

theorem validGitSubdir_printable (h : validGitSubdir value = .ok true) : Printable value := by
  unfold validGitSubdir at h
  split at h
  case isTrue hempty => exact hempty ▸ nofun
  case isFalse => exact subdirPath_printable _ h

theorem validGit_printable {url rev : String} (h : validGit url rev = .ok true) :
    Printable url ∧ Printable rev := by
  obtain ⟨valid, hurl, h⟩ := bind_eq_ok.mp h
  cases valid with
  | false => cases h
  | true => exact ⟨gitUrl_printable hurl, gitRevision_printable (Except.ok.inj h)⟩

theorem parts_printable {pieces : List String} {separator : UInt8} (hseparator : 32 ≤ separator)
    (h : parts text separator = .ok pieces) (hpieces : ∀ piece ∈ pieces, Printable piece) :
    Printable text := by
  intro byte hbyte
  obtain rfl | ⟨piece, hmem, hin⟩ := mem_of_parts h hbyte
  · exact hseparator
  · exact hpieces piece hmem byte hin

theorem number_printable (h : number text = true) : Printable text := by
  rw [number, digits, and_eq_true, and_eq_true] at h
  exact printable_all digit_printable h.1.2

theorem identifiers_printable (h : identifiers text numeric = .ok true) : Printable text := by
  obtain ⟨pieces, hparts, h⟩ := bind_eq_ok.mp h
  have hall := all_eq_true.mp (Except.ok.inj h)
  refine parts_printable (by decide) hparts fun piece hmem => ?_
  have hpiece := hall piece hmem
  rw [identifier, and_eq_true] at hpiece
  exact printable_all (byte_check (by decide)) hpiece.2

theorem versionCore_printable {coreEnd : Nat} {partly : Bool} {core : List String}
    (h : versionCore text coreEnd partly = .ok core) :
    ∀ byte ∈ (bytes text).take coreEnd, 32 ≤ byte := by
  obtain ⟨front, hslice, h⟩ := bind_eq_ok.mp h
  obtain ⟨pieces, hparts, h⟩ := bind_eq_ok.mp h
  split at h
  case isTrue => cases h
  case isFalse =>
    split at h
    case isTrue => cases h
    case isFalse hnumbers =>
      rw [not_eq_true, not_eq_false'] at hnumbers
      have hcut := mem_of_slice hslice
      rw [drop_zero, Nat.sub_zero] at hcut
      rw [← hcut]
      exact parts_printable (by decide) hparts fun piece hmem =>
        number_printable (all_eq_true.mp hnumbers piece hmem)

theorem versionTail_printable {precision stop : Nat} {message tail : String}
    (h : versionTail text precision true start stop numeric message = .ok tail) :
    ∀ byte ∈ ((bytes text).drop start).take (stop - start), 32 ≤ byte := by
  obtain ⟨cut, hslice, h⟩ := bind_eq_ok.mp h
  split at h
  case isTrue => cases h
  case isFalse =>
    obtain ⟨valid, hvalid, h⟩ := bind_eq_ok.mp h
    cases valid with
    | false => cases h
    | true =>
      rw [← mem_of_slice hslice]; exact identifiers_printable hvalid

theorem versionTail_rest {precision : Nat} {message tail : String}
    (hmore : offset < (bytes text).length)
    (h : versionTail text precision (offset < (bytes text).length) (offset + 1) (bytes text).length
      numeric message = .ok tail) : ∀ byte ∈ (bytes text).drop (offset + 1), 32 ≤ byte := by
  rw [decide_eq_true hmore] at h
  have hall := versionTail_printable h
  rwa [take_of_length_le (Nat.le_of_eq length_drop)] at hall

theorem parseVersion_printable {version : Version} (h : parseVersion text = .ok version) :
    Printable text := by
  obtain ⟨result, h, -⟩ := bind_eq_ok.mp h
  unfold versionParts at h
  obtain ⟨core, hcore, h⟩ := bind_eq_ok.mp h
  obtain ⟨prerelease, hprerelease, h⟩ := bind_eq_ok.mp h
  obtain ⟨metadata, hmetadata, -⟩ := bind_eq_ok.mp h
  have hfront := versionCore_printable hcore
  refine forall_scanned (fun byte => byte != 45 && byte != 43) ?_ ?_ ?_
  · intro byte hbyte
    obtain hsame | hsame : byte = 45 ∨ byte = 43 := by simpa [or_iff_not_imp_left] using hbyte
    all_goals
      rw [hsame]; decide
  · intro byte hbyte
    refine hfront byte ?_
    rwa [← prefix_iff_eq_take.mp ( takeWhile_prefix _)]
  · intro hmore
    obtain ⟨stop, hstop, hdrop⟩ := drop_takeWhile hmore
    have hlt := Nat.lt_of_le_of_ne ( takeWhile_prefix
      (fun byte : UInt8 => byte != 45 && byte != 43) (l := bytes text)).length_le hmore
    generalize ((bytes text).takeWhile fun byte => byte != 45 && byte != 43).length = coreEnd
      at hprerelease hmetadata hdrop hlt ⊢
    have hat : (bytes text)[coreEnd]? = some stop := by
      rw [← List.head?_drop, hdrop]; rfl
    obtain hminus | hplus : stop = 45 ∨ stop = 43 := by
      simpa [or_iff_not_imp_left] using hstop
    · rw [hat, hminus, beq_self_eq_true, if_pos rfl] at hprerelease
      rw [hat, hminus, beq_self_eq_true] at hmetadata
      have hpre := versionTail_printable hprerelease
      rw [Nat.add_sub_cancel_left] at hpre
      refine forall_scanned (· != 43) (ne_printable (by decide)) ?_ fun hend => ?_
      · rwa [← prefix_iff_eq_take.mp ( takeWhile_prefix _)] at hpre
      · have hle := ( takeWhile_prefix (· != 43) (l := (bytes text).drop (coreEnd + 1))).length_le
        rw [length_drop] at hle hend
        rw [drop_drop, ← Nat.add_assoc]
        exact versionTail_rest (by omega) hmetadata
    · rw [hat, hplus] at hmetadata; exact versionTail_rest hlt hmetadata

end Loom.Identities
