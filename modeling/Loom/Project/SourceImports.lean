import Loom.Project.Lock
import Loom.Project.Packages

/-
  The imports of a source.

  Correspondence (ast.loom, paths.loom, project.loom, source_imports.loom ↔ Lean), where names differ:
    `NodeKind`, `Node` ↔ the same; the spans are not read
    `include` ↔ `Lock.includeLine`
    the two lists that names are put in ↔ a pair, the ordinary names first
    `collect_source_imports` ↔ `collectSourceImports`; the body of its loop is
      `collectNode`
-/

namespace Loom.SourceImports

open Utf8 Texts Packages List Except
open Lock (includeLine mem_includeLine)

inductive NodeKind where
  | file | «import» | record | enum | refined | function | «public» | test | intrinsic
  | typeParameters | parameters | parameter | type | typeArguments | arguments | returnType
  | field | variant | requires | ensures | block | «let» | var | assign | «return» | assert
  | discard | while | integer | text | bool | name | call | old | construct | unary | binary
  | select | «try» | «match» | arm | pattern | bindings | wildcard | «if» | comptime | comptimeFor
  | comptimeMap | tupleType | tuple | destructure | float | concept | impl | implements
  | methodCall | dynType | associatedType | functionType | invoke | defer | bounds | «break»
  | «continue» | list | apply | index | indexAssign | «scoped» | async | await | recordPattern
  | restPattern | spread | typePack | expansionId | packError | iterationKey | macroCall
  | macroInput
  deriving DecidableEq

inductive Node where
  | mk (kind : NodeKind) (value : String) (children : List Node)

def Node.kind : Node → NodeKind
  | .mk kind _ _ => kind

def Node.value : Node → String
  | .mk _ value _ => value

def Node.children : Node → List Node
  | .mk _ _ children => children

/-- Whether a direct child is of a kind, for example the marker of a test. -/
def Node.has (node : Node) (kind : NodeKind) : Bool := node.children.any fun child => child.kind == kind

mutual

def containsAwait : Node → Bool
  | .mk kind _ children => kind == .await || anyAwait children

def anyAwait : List Node → Bool
  | [] => false
  | child :: children => containsAwait child || anyAwait children

end

/-! ## Names -/

def lastDot (encoded : List UInt8) : Nat → Option Nat
  | 0 => none
  | index + 1 => if encoded[index]? = some 46 then some index else lastDot encoded index

/-- What stands in front of the last dot. -/
def package (path : String) : Except Stop String :=
  match lastDot (bytes path) (length path) with
  | none => return ""
  | some index => slice path 0 index

/-! ## Collecting -/

/-- The tree without its test functions, where tests are not wanted. -/
def selectSource (tree : Node) (tests : Bool) : Node :=
  if tests then tree
  else .mk tree.kind tree.value
    (tree.children.filter fun child => child.kind != .function || !child.has .test)

def includeIn (test : Bool) (names : List String × List String) (spelling : String) :
    List String × List String :=
  if test then (names.1, includeLine names.2 spelling) else (includeLine names.1 spelling, names.2)

def collectNode (owner : String) (testOnly : Bool) (names : List String × List String) (node : Node) :
    Except Stop (List String × List String) :=
  let names :=
    if owner != "std.task" && containsAwait node then
      includeIn (testOnly || (node.kind == .function && node.has .test)) names "std.task"
    else names
  let names :=
    if node.kind == .refined && owner != "std.result" then includeIn testOnly names "std.result"
    else names
  if node.kind == .import then do
    let target ← package node.value
    if target = "" then fail "imports name a module/package and declaration"
    else return if target ≠ owner then includeIn testOnly names target else names
  else return names

def collectSourceImports (tree : Node) (owner : String) (testOnly : Bool)
    (names : List String × List String) : Except Stop (List String × List String) :=
  tree.children.foldlM (collectNode owner testOnly) names

/-! ## Cutting names -/

theorem slice_total {text : String} {front middle back : List UInt8}
    (h : bytes text = front ++ middle ++ back) (hmiddle : Valid middle) (hback : Valid back) :
    ∃ piece, slice text front.length (front.length + middle.length) = .ok piece := by
  obtain ⟨piece, rfl⟩ := hmiddle
  exact ⟨piece, slice_eq h hback⟩

theorem partsFrom_total {text : String} {separator : UInt8} (hascii : separator < 128)
    (left : List UInt8) : ∀ front current : List UInt8, bytes text = front ++ current ++ left →
    Valid (current ++ left) →
    ∃ piece pieces, partsFrom text separator front.length (front.length + current.length) left =
      .ok (piece :: pieces) := by
  induction left with
  | nil =>
    intro front current h hvalid
    rw [append_nil] at hvalid
    obtain ⟨piece, hpiece⟩ := slice_total h hvalid valid_nil
    exact ⟨piece, [], by rw [partsFrom, hpiece]; rfl⟩
  | cons byte left ih =>
    intro front current h hvalid
    rw [partsFrom]
    by_cases hbyte : byte = separator
    · subst hbyte
      have hcut := hvalid.split (fun other hother => Option.some.inj hother ▸ hascii)
      obtain ⟨piece, hpiece⟩ := slice_total h hcut.1 hcut.2
      obtain ⟨next, pieces, hrest⟩ := ih (front ++ current ++ [byte]) [] (by rw [h]; simp)
        (hcut.2.tail hascii)
      have hlength : (front ++ current ++ [byte]).length = front.length + current.length + 1 := by
        rw [length_append, length_append, length_singleton]
      rw [hlength, length_nil] at hrest
      exact ⟨piece, next :: pieces, by rw [if_pos rfl, hpiece, hrest]; rfl⟩
    · obtain ⟨piece, pieces, hrest⟩ := ih front (current ++ [byte]) (by rw [h]; simp)
        (by simpa using hvalid)
      rw [length_append, length_singleton, ← Nat.add_assoc] at hrest
      exact ⟨piece, pieces, by rw [if_neg hbyte, hrest]⟩

theorem parts_total (text : String) {separator : UInt8} (hascii : separator < 128) :
    ∃ piece pieces, parts text separator = .ok (piece :: pieces) :=
  partsFrom_total hascii (bytes text) [] [] rfl (valid_bytes text)

theorem lastDot_eq_some {encoded : List UInt8} {bound index : Nat}
    (h : lastDot encoded bound = some index) : encoded[index]? = some 46 := by
  induction bound with
  | zero => cases h
  | succ bound ih =>
    rw [lastDot] at h
    split at h
    case isTrue hdot => rwa [← Option.some.inj h]
    case isFalse => exact ih h

theorem package_total (path : String) : ∃ target, package path = .ok target := by
  unfold package
  cases hdot : lastDot (bytes path) (length path) with
  | none => exact ⟨"", rfl⟩
  | some index =>
    obtain ⟨hlt, hbyte⟩ := List.getElem?_eq_some_iff.mp (lastDot_eq_some hdot)
    have hsplit : bytes path = (bytes path).take index ++ 46 :: (bytes path).drop (index + 1) := by
      rw [← hbyte, getElem_cons_drop, take_append_drop]
    have hlength : ((bytes path).take index).length = index := by
      rw [length_take]; omega
    have hvalid := valid_bytes path
    rw [hsplit] at hvalid
    have hcut := hvalid.split fun other hother => Option.some.inj hother ▸ by decide
    have hslice := @slice_total path [] _ _ hsplit hcut.1 hcut.2
    rw [length_nil, Nat.zero_add, hlength] at hslice; exact hslice

/-! ## What is collected -/

def group (test : Bool) (names : List String × List String) : List String :=
  if test then names.2 else names.1

/-- A declaration needs an import: of the tasks it waits for, of the result of a refined type, or
the one that it is. A package does not import itself. -/
def Mentions (owner : String) (testOnly : Bool) (node : Node) (test : Bool) (spelling : String) :
    Prop :=
  (owner ≠ "std.task" ∧ containsAwait node = true ∧
      test = (testOnly || (node.kind == .function && node.has .test)) ∧ spelling = "std.task") ∨
    (node.kind = .refined ∧ owner ≠ "std.result" ∧ test = testOnly ∧ spelling = "std.result") ∨
    (node.kind = .import ∧ package node.value = .ok spelling ∧ spelling ≠ owner ∧ test = testOnly)

/-- An import names a package. -/
def Named (node : Node) : Prop := node.kind = .import → package node.value ≠ .ok ""

variable {spelling : String}

theorem mem_includeIn {test wanted : Bool} {names : List String × List String} {other : String} :
    other ∈ group wanted (includeIn test names spelling) ↔
      (wanted = test ∧ other = spelling) ∨ other ∈ group wanted names := by
  cases test <;> cases wanted <;> simp [group, includeIn, mem_includeLine]

theorem mem_includeWhen {condition : Bool} {test wanted : Bool} {names : List String × List String}
    {other : String} :
    other ∈ group wanted (if condition then includeIn test names spelling else names) ↔
      (condition = true ∧ wanted = test ∧ other = spelling) ∨ other ∈ group wanted names := by
  cases condition with
  | true => simpa using mem_includeIn
  | false => simp

variable {owner : String} {testOnly test : Bool} {names after : List String × List String}

theorem collectNode_ok (node : Node) :
    (∃ after, collectNode owner testOnly names node = .ok after) ↔ Named node := by
  obtain ⟨target, htarget⟩ := package_total node.value
  unfold collectNode
  by_cases hkind : node.kind = .import
  · rw [if_pos (beq_iff_eq.mpr hkind), htarget, Results.ok_bind]
    by_cases hempty : target = ""
    · rw [if_pos hempty]
      refine iff_of_false (fun h => absurd h.choose_spec nofun) ?_
      exact fun hnamed => hnamed hkind (by rw [htarget, hempty])
    · rw [if_neg hempty]
      refine iff_of_true ⟨_, rfl⟩ fun _ hsame => hempty ?_
      exact ok.inj (htarget.symm.trans hsame)
  · rw [if_neg (by simpa using hkind)]
    exact iff_of_true ⟨_, rfl⟩ fun h => absurd h hkind

/-- What a declaration needs apart from an import of its own. -/
theorem mem_needed {node : Node} : spelling ∈ group test
      (if node.kind == .refined && owner != "std.result" then includeIn testOnly
          (if owner != "std.task" && containsAwait node then
            includeIn (testOnly || (node.kind == .function && node.has .test)) names "std.task"
          else names) "std.result"
      else
        if owner != "std.task" && containsAwait node then
          includeIn (testOnly || (node.kind == .function && node.has .test)) names "std.task"
        else names) ↔ (owner ≠ "std.task" ∧ containsAwait node = true ∧
          test = (testOnly || (node.kind == .function && node.has .test)) ∧ spelling = "std.task") ∨
        (node.kind = .refined ∧ owner ≠ "std.result" ∧ test = testOnly ∧ spelling = "std.result") ∨
        spelling ∈ group test names := by
  rw [mem_includeWhen, mem_includeWhen, Bool.and_eq_true, Bool.and_eq_true, beq_iff_eq, bne_iff_ne,
    bne_iff_ne]
  simp [and_assoc, or_left_comm]

theorem mem_collectNode {node : Node} (h : collectNode owner testOnly names node = .ok after) :
    spelling ∈ group test after ↔
      Mentions owner testOnly node test spelling ∨ spelling ∈ group test names := by
  obtain ⟨target, htarget⟩ := package_total node.value
  unfold collectNode at h
  unfold Mentions
  by_cases hkind : node.kind = .import
  · rw [if_pos (beq_iff_eq.mpr hkind), htarget, Results.ok_bind] at h
    have himport : package node.value = .ok spelling ↔ spelling = target := by
      rw [htarget, ok.injEq, eq_comm]
    rw [himport]
    split at h
    case isTrue => cases h
    case isFalse =>
      by_cases howner : target = owner
      · have hself : ¬(node.kind = .import ∧ spelling = target ∧ spelling ≠ owner ∧
            test = testOnly) := by
          rintro ⟨-, rfl, hne, -⟩
          exact hne howner
        rw [← ok.inj h, if_neg (not_not.mpr howner), mem_needed]
        simp [hself, or_false, or_assoc]
      · have hother : (node.kind = .import ∧ spelling = target ∧ spelling ≠ owner ∧
            test = testOnly) ↔ test = testOnly ∧ spelling = target := by
          constructor
          · exact fun h => ⟨h.2.2.2, h.2.1⟩
          · rintro ⟨htest, rfl⟩
            exact ⟨hkind, rfl, howner, htest⟩
        rw [← ok.inj h, if_pos howner, mem_includeIn, mem_needed, hother]
        simp [or_assoc, or_left_comm]
  · rw [if_neg (by simpa using hkind)] at h
    rw [← ok.inj h, mem_needed]
    simp [hkind, false_and, or_false, or_assoc]

/-- The loop over declarations, behind the names that are there already. -/
theorem collectNodes_ok (nodes : List Node) : ∀ names : List String × List String,
      (∃ after, nodes.foldlM (collectNode owner testOnly) names = .ok after) ↔
        ∀ node ∈ nodes, Named node := by
  induction nodes with
  | nil => exact fun names => iff_of_true ⟨names, rfl⟩ nofun
  | cons node nodes ih =>
    intro names
    rw [foldlM_cons, forall_mem_cons, ← @collectNode_ok owner testOnly names node]
    cases hnode : collectNode owner testOnly names node with
    | error stop => exact iff_of_false (fun h => absurd h.choose_spec nofun) (by simp)
    | ok middle => simp [Results.ok_bind, ih middle]

theorem mem_collectNodes (nodes : List Node) : ∀ names after : List String × List String,
      nodes.foldlM (collectNode owner testOnly) names = .ok after → (spelling ∈ group test after ↔
        (∃ node ∈ nodes, Mentions owner testOnly node test spelling) ∨
          spelling ∈ group test names) := by
  induction nodes with
  | nil =>
    intro names after h
    rw [← ok.inj h]; simp
  | cons node nodes ih =>
    intro names after h
    obtain ⟨middle, hnode, hrest⟩ := Results.bind_eq_ok.mp h
    rw [ih middle after hrest, mem_collectNode hnode, exists_mem_cons_iff]
    simp [or_assoc, or_left_comm]

theorem collectSourceImports_ok {tree : Node} :
    (∃ after, collectSourceImports tree owner testOnly names = .ok after) ↔
      ∀ node ∈ tree.children, Named node := collectNodes_ok tree.children names

theorem mem_collectSourceImports {tree : Node} {spelling : String}
    (h : collectSourceImports tree owner testOnly names = .ok after) : spelling ∈ group test after ↔
      (∃ node ∈ tree.children, Mentions owner testOnly node test spelling) ∨
        spelling ∈ group test names := mem_collectNodes tree.children names after h

end Loom.SourceImports
