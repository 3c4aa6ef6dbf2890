import Loom.Library.Utf8
import Mathlib.Data.List.DropRight

/-
  The grammar of HTTP/1.1 messages: tokens and fields, the two start lines,
  framing headers and chunk sizes.

  Octets are bytes, and a text is its octets: the codec makes texts only of
  tokens and of visible ASCII (`field_token`, `requestLine_ascii`), so that
  `to_text` has nothing to reject. A loop over an index is one over the octets
  that are left. Sizes are naturals, and the size -1 is `none`; the limits are
  required not to be negative, and the checks of `number` keep its total below
  its maximum, so nothing overflows.

  Correspondence (net/http ↔ Lean):
    http.loom: `ProtocolError`, `Header`, `Limits`, `lower`, `named`, `token`,
    `valid_token`, `field_octet`, `valid_field` ↔ the same names
    grammar.loom: `Framing`, `ows`, `field`, `digit`, `number`, `framing`,
    `trailer`, `request_line`, `status_line`, `no_body`, `tunnel`, `chunk_size`
      ↔ the same names
-/

namespace Loom.Http

open Utf8 List

abbrev Bytes := List UInt8

/-- By its octets. -/
abbrev Text := Bytes

/-- The octets of a literal. -/
def text (literal : String) : Bytes := bytes literal

inductive ProtocolError where
  | syntaxError
  | framing
  | unsupported
  | limit
  | truncated
  | busy
  | closed
  deriving DecidableEq, Repr

structure Header where
  name : Text
  value : Bytes
  deriving DecidableEq, Repr

structure Limits where
  lineBytes : Nat
  metadataBytes : Nat
  bodyBytes : Nat
  deriving DecidableEq, Repr

/-! ## Octets -/

def lower (value : UInt8) : UInt8 :=
  if 65 ≤ value ∧ value ≤ 90 then value + 32 else value

/-- Without regard to ASCII case. -/
def named (value expected : Text) : Bool :=
  value.map lower == expected.map lower

def token (value : UInt8) : Bool :=
  (48 ≤ value && value ≤ 57) || (65 ≤ value && value ≤ 90) || (97 ≤ value && value ≤ 122) ||
    value == 33 || value == 35 || value == 36 || value == 37 || value == 38 || value == 39 ||
    value == 42 || value == 43 || value == 45 || value == 46 || value == 94 || value == 95 ||
    value == 96 || value == 124 || value == 126

def validToken (value : Bytes) : Bool :=
  !value.isEmpty && value.all token

def fieldOctet (value : UInt8) : Bool :=
  value == 9 || (32 ≤ value && value != 127)

def validField (value : Bytes) : Bool :=
  value.all fieldOctet

def ows (value : UInt8) : Bool :=
  value == 32 || value == 9

/-! ## Fields -/

/-- Whitespace on both sides is dropped. -/
def trim (value : Bytes) : Bytes :=
  (value.dropWhile ows).rdropWhile ows

def field (value : Bytes) : Except ProtocolError Header :=
  let name := value.takeWhile token
  match value.dropWhile token with
  | 58 :: rest =>
    if name.isEmpty then .error .syntaxError
    else
      let contents := trim rest
      if !validField contents then .error .syntaxError else .ok ⟨name, contents⟩
  | _ => .error .syntaxError

/-! ## Numbers -/

/-- The value of a digit; -1 is `none`. -/
def digit (value : UInt8) (base : Nat) : Option Nat :=
  if 48 ≤ value ∧ value ≤ 57 then some (value.toNat - 48)
  else if base = 16 ∧ 97 ≤ lower value ∧ lower value ≤ 102 then some ((lower value).toNat - 97 + 10)
  else none

/-- The loop of `number`. -/
def accumulate (base maximum : Nat) : Nat → Bytes → Except ProtocolError Nat
  | total, [] => .ok total
  | total, value :: rest =>
    match digit value base with
    | none => .error .framing
    | some next =>
      if maximum < next ∨ (maximum - next) / base < total then .error .limit
      else accumulate base maximum (total * base + next) rest

def number (value : Bytes) (base maximum : Nat) : Except ProtocolError Nat :=
  if value.isEmpty then .error .framing else accumulate base maximum 0 value

/-! ## Framing -/

structure Framing where
  size : Option Nat
  chunked : Bool
  deriving DecidableEq, Repr

/-- The loop of `framing`. Both headers in one entry are impossible. -/
def framingFrom (maximum : Nat) : Framing → List Header → Except ProtocolError Framing
  | shape, [] => .ok shape
  | shape, entry :: rest =>
    if named entry.name (text "content-length") then
      if shape.size.isSome || shape.chunked then .error .framing
      else
        match number entry.value 10 maximum with
        | .error error => .error error
        | .ok size => framingFrom maximum { shape with size := some size } rest
    else if named entry.name (text "transfer-encoding") then
      if shape.chunked || shape.size.isSome then .error .framing
      else if !validToken entry.value || !named entry.value (text "chunked") then
        .error .unsupported
      else framingFrom maximum { shape with chunked := true } rest
    else framingFrom maximum shape rest

def framing (headers : List Header) (maximum : Nat) : Except ProtocolError Framing :=
  framingFrom maximum ⟨none, false⟩ headers

def trailer (entry : Header) : Bool :=
  !named entry.name (text "content-length") && !named entry.name (text "transfer-encoding") &&
    !named entry.name (text "host") && !named entry.name (text "trailer")

/-! ## Start lines -/

/-- The octets of a request target. -/
def visible (value : UInt8) : Bool :=
  32 < value && value < 127

def requestLine (value : Bytes) : Except ProtocolError (Text × Text) :=
  let method := value.takeWhile token
  match value.dropWhile token with
  | 32 :: rest =>
    if method.isEmpty then .error .syntaxError
    else
      let target := rest.takeWhile visible
      match rest.dropWhile visible with
      | 32 :: version =>
        if target.isEmpty then .error .syntaxError
        else if version ≠ text "HTTP/1.1" then .error .unsupported
        else .ok (method, target)
      | _ => .error .syntaxError
  | _ => .error .syntaxError

def statusLine (value : Bytes) : Except ProtocolError (Nat × Bytes) :=
  if value.length < 13 ∨ value.take 9 ≠ text "HTTP/1.1 " ∨ value[12]? ≠ some 32 then
    .error .syntaxError
  else
    match number ((value.drop 9).take 3) 10 999 with
    | .error error => .error error
    | .ok status =>
      let reason := value.drop 13
      if status < 100 || !validField reason then .error .syntaxError else .ok (status, reason)

def tunnel (method : Text) (status : Nat) : Bool :=
  status == 101 || (method == text "CONNECT" && 200 ≤ status && status < 300)

def noBody (method : Text) (status : Nat) : Bool :=
  method == text "HEAD" || status < 200 || status == 204 || status == 304 || tunnel method status

/-! ## Chunk sizes -/

/-- The octets after a quoted string whose opening quote was read. -/
def quoted : Bytes → Except ProtocolError Bytes
  | [] => .error .syntaxError
  | current :: rest =>
    if current = 34 then .ok rest
    else if current = 92 then
      match rest with
      | [] => .error .syntaxError
      | escaped :: rest => if fieldOctet escaped then quoted rest else .error .syntaxError
    else if fieldOctet current then quoted rest
    else .error .syntaxError

/-- The octets after an extension and its value, if it has one. -/
def extension (rest : Bytes) : Except ProtocolError Bytes :=
  match rest.dropWhile ows with
  | 59 :: rest =>
    let rest := rest.dropWhile ows
    if (rest.takeWhile token).isEmpty then .error .syntaxError
    else
      let afterName := rest.dropWhile token
      match afterName.dropWhile ows with
      | 61 :: rest =>
        match rest.dropWhile ows with
        | 34 :: rest => quoted rest
        | rest =>
          if (rest.takeWhile token).isEmpty then .error .syntaxError
          else .ok (rest.dropWhile token)
      -- Whitespace is left to the next extension; at the end it is an error there.
      | _ => .ok afterName
  | _ => .error .syntaxError

theorem length_dropWhile_le (p : UInt8 → Bool) (value : Bytes) :
    (value.dropWhile p).length ≤ value.length := (dropWhile_suffix p).length_le

theorem quoted_length {rest left : Bytes} (h : quoted rest = .ok left) :
    left.length < rest.length := by
  fun_induction quoted rest with
  | case2 rest =>
    cases h
    simp
  | case4 _ _ _ _ ih =>
    have := ih h
    simp only [length_cons]; omega
  | case6 _ _ _ _ _ ih =>
    have := ih h
    simp only [length_cons]; omega
  | _ => cases h

theorem extension_length {rest left : Bytes} (h : extension rest = .ok left) :
    left.length < rest.length := by
  unfold extension at h
  have hrest := length_dropWhile_le ows rest
  split at h
  · rename_i inner heq
    rw [heq, length_cons] at hrest
    have hinner := length_dropWhile_le ows inner
    have hname := length_dropWhile_le token (inner.dropWhile ows)
    have hspace := length_dropWhile_le ows ((inner.dropWhile ows).dropWhile token)
    simp only at h
    split at h
    · cases h
    · split at h
      · rename_i value heq'
        rw [heq', length_cons] at hspace
        have hvalue := length_dropWhile_le ows value
        split at h
        · rename_i string heq''
          rw [heq'', length_cons] at hvalue
          have := quoted_length h
          omega
        · have := length_dropWhile_le token (value.dropWhile ows)
          split at h
          · cases h
          · cases h
            omega
      · cases h
        omega
  · cases h

def extensions (rest : Bytes) : Except ProtocolError Unit :=
  if rest.isEmpty then .ok ()
  else
    match _h : extension rest with
    | .error error => .error error
    | .ok left => extensions left
termination_by rest.length
decreasing_by exact extension_length _h

def hexDigit (value : UInt8) : Bool :=
  (digit value 16).isSome

def chunkSize (value : Bytes) (maximum : Nat) : Except ProtocolError Nat :=
  match number (value.takeWhile hexDigit) 16 maximum with
  | .error error => .error error
  | .ok size =>
    match extensions (value.dropWhile hexDigit) with
    | .error error => .error error
    | .ok _ => .ok size

/-! ## Sizes and texts -/

variable {value : Bytes} {maximum size : Nat}

theorem accumulate_le {base total : Nat} (htotal : total ≤ maximum)
    (h : accumulate base maximum total value = .ok size) : size ≤ maximum := by
  induction value generalizing total with
  | nil =>
    cases h
    exact htotal
  | cons first rest ih =>
    unfold accumulate at h
    split at h
    · cases h
    · rename_i next _
      split at h
      · cases h
      · rename_i hnext
        rw [not_or, Nat.not_lt, Nat.not_lt] at hnext
        refine ih ?_ h
        have hscaled : total * base ≤ maximum - next := by
          calc total * base ≤ (maximum - next) / base * base := Nat.mul_le_mul_right base hnext.2
            _ ≤ maximum - next := Nat.div_mul_le_self _ _
        omega

theorem number_le {base : Nat} (h : number value base maximum = .ok size) : size ≤ maximum := by
  unfold number at h
  split at h
  · cases h
  · exact accumulate_le (Nat.zero_le _) h

theorem framingFrom_le {headers : List Header} {shape result : Framing}
    (hshape : ∀ size, shape.size = some size → size ≤ maximum)
    (h : framingFrom maximum shape headers = .ok result) (hsize : result.size = some size) :
    size ≤ maximum := by
  fun_induction framingFrom maximum shape headers with
  | case1 shape =>
    cases h
    exact hshape _ hsize
  | case4 shape entry rest _ _ found hnumber ih =>
    refine ih (fun other heq => ?_) h
    obtain rfl := Option.some_inj.mp heq
    exact number_le hnumber
  | case7 shape entry rest _ _ _ _ ih => exact ih hshape h
  | case8 shape entry rest _ _ ih => exact ih hshape h
  | _ => cases h

theorem framing_le {headers : List Header} {shape : Framing}
    (h : framing headers maximum = .ok shape) (hsize : shape.size = some size) : size ≤ maximum :=
  framingFrom_le (by simp) h hsize

theorem chunkSize_le (h : chunkSize value maximum = .ok size) : size ≤ maximum := by
  unfold chunkSize at h
  split at h
  · cases h
  · rename_i found hnumber
    split at h
    · cases h
    · cases h
      exact number_le hnumber

theorem requestLine_eq {method target : Text} (h : requestLine value = .ok (method, target)) :
    value = method ++ 32 :: (target ++ 32 :: text "HTTP/1.1") ∧ method ≠ [] ∧ target ≠ [] ∧
      (∀ octet ∈ method, token octet = true) ∧ ∀ octet ∈ target, visible octet = true := by
  unfold requestLine at h
  have hfirst := takeWhile_append_dropWhile (p := token) (l := value)
  split at h
  · rename_i rest hrest
    have hsecond := takeWhile_append_dropWhile (p := visible) (l := rest)
    simp only at h
    split at h
    · cases h
    · rename_i hmethod
      split at h
      · rename_i version hversion
        split at h
        · cases h
        · rename_i htarget
          split at h
          · cases h
          · rename_i hsame
            cases h
            refine ⟨?_, by simpa using hmethod, by simpa using htarget,
              fun octet hmem => mem_takeWhile_imp hmem,
              fun octet hmem => mem_takeWhile_imp hmem⟩
            rw [← not_not.mp hsame, ← hversion, hsecond, ← hrest, hfirst]
      · cases h
  · cases h

end Loom.Http
