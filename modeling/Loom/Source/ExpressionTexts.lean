import Loom.Source.Expressions

/-
  Expressions are parsed as they are printed.

  An operand is put in parentheses where it ranks lower than its place asks for: the left
  operand of an operator may rank as the operator does, the right one has to rank higher,
  and the operand of a prefix operator higher than every binary operator. A number after a
  minus is read as one literal, so a minus that is applied to a literal needs them too.
-/

namespace Loom.Expressions

open Fuelled List Int
open Utf8

section
-- Makes the equations of the parser once, for every proof below.
attribute [local simp] prefixExpr exprFrom expr item parenthesized
end

/-! ## Texts of expressions -/

structure BinaryOperator where
  kind : Kind
  ranked : 0 ≤ precedence kind

structure PrefixOperator where
  kind : Kind
  valid : kind = .minus ∨ kind = .not ∨ kind = .bitNot

/-- These tokens have these kinds and texts, wherever they stand. -/
def Spells (tokens : List Token) (lexemes : List Lexeme) : Prop :=
  tokens.map Token.toLexeme = lexemes

/-- No operand and no type goes on here. -/
structure Closes (cursor : Cursor) : Prop where
  dot : (token cursor).kind ≠ .dot
  question : (token cursor).kind ≠ .question
  lParen : (token cursor).kind ≠ .lParen
  lBracket : (token cursor).kind ≠ .lBracket
  word : (token cursor).kind = .name → (token cursor).value = "implements"

/-- A text whose first token satisfies something. -/
def Starts (p : Kind → Prop) (lexemes : List Lexeme) : Prop := ∃ first ∈ lexemes.head?, p first.kind

/-- The text of a type: it is read up to its end, in front of whatever may follow. -/
structure TypeText (g : Grammar) where
  lexemes : List Lexeme
  node : Node
  starts : Starts (fun kind => kind = .name ∨ kind = .lParen) lexemes
  reads : ∀ tokens rest, Spells tokens lexemes → Closes rest →
    Yields (fun fuel => typeRef g fuel (tokens ++ rest)) (.ok ⟨rest, node⟩)

inductive Tree (g : Grammar) where
  | integer (value : String) (negative : Bool) (valid : inIntRange value negative = true)
  | float (value : String)
  | text (value : String)
  | bool (value : Bool)
  | unary (op : PrefixOperator) (operand : Tree g)
  | binary (op : BinaryOperator) (left right : Tree g)
  | implements (value : Tree g) (type : TypeText g)

variable {g : Grammar}

namespace Tree

def toNode : Tree g → Node
  | integer value negative _ => .mk .integer (if negative then "-" ++ value else value) []
  | float value => .mk .float value []
  | text value => .mk .text value []
  | bool value => .mk .bool (if value then "true" else "false") []
  | unary op operand => .mk .unary (operator op.kind) [operand.toNode]
  | binary op left right => .mk .binary (operator op.kind) [left.toNode, right.toNode]
  | implements value type => .mk .implements "" [value.toNode, type.node]

/-- No binary operator joins an operand that is asked for at 11. -/
def rank : Tree g → Int
  | binary op _ _ => precedence op.kind
  | implements _ _ => 3
  | _ => 11

def isLiteral : Tree g → Bool
  | integer _ negative _ => !negative
  | _ => false

end Tree

/-- In parentheses where they are needed. -/
def wrap (needed : Bool) (inner : List Lexeme) : List Lexeme :=
  if needed then ⟨.lParen, ""⟩ :: (inner ++ [⟨.rParen, ""⟩]) else inner

namespace Tree

def print : Tree g → List Lexeme
  | integer value negative _ => (if negative then [⟨.minus, ""⟩] else []) ++ [⟨.number, value⟩]
  | float value => [⟨.float, value⟩]
  | text value => [⟨.text, value⟩]
  | bool value => [⟨.name, if value then "true" else "false"⟩]
  | unary op operand =>
    ⟨op.kind, ""⟩ ::
      wrap (operand.rank < 11 || op.kind = .minus && operand.isLiteral) operand.print
  | binary op left right =>
    wrap (left.rank < precedence op.kind) left.print ++
      ⟨op.kind, ""⟩ :: wrap (right.rank < precedence op.kind + 1) right.print
  | implements value type =>
    wrap (value.rank < 3) value.print ++ ⟨.name, "implements"⟩ :: type.lexemes

/-- The text of an expression where a minimum rank is asked for. -/
def printAt (minimum : Int) (tree : Tree g) : List Lexeme :=
  wrap (tree.rank < minimum) tree.print

end Tree

/-! ## Where an operand ends -/

def skip (multiline : Bool) (cursor : Cursor) : Cursor :=
  if multiline then newlines cursor else cursor

def rankOf (cursor : Cursor) : Int :=
  if word cursor "implements" then 3 else precedence (token cursor).kind

/-- An expression may end here. -/
structure Follows (multiline : Bool) (rest : Cursor) : Prop where
  here : Closes rest
  skipped : Closes (skip multiline rest)

theorem skip_idem (multiline : Bool) (cursor : Cursor) :
    skip multiline (skip multiline cursor) = skip multiline cursor := by
  unfold skip
  split
  · exact newlines_idem cursor
  · rfl

variable {multiline : Bool} {cursor : Cursor} {records : Bool} {rest after : Cursor} {minimum : Int}
  {answer : Parsed} {op : Token}

theorem skip_eq (h : (token cursor).kind ≠ .newline) : skip multiline cursor = cursor := by
  unfold skip
  split
  · exact newlines_eq h
  · rfl

/-- A token that is neither a newline nor the start of more of an operand. -/
theorem Closes.follows {cursor : Cursor} (h : Closes cursor)
    (hkind : (token cursor).kind ≠ .newline) (multiline : Bool) : Follows multiline cursor :=
  ⟨h, (skip_eq hkind).symm ▸ h⟩

theorem fields_stop {rest : Cursor} (h : Closes rest) (node : Node) :
    Yields (fun fuel => fields g fuel ⟨rest, node⟩) (.ok ⟨rest, node⟩) := by
  refine Yields.step (fun fuel => ?_) (Yields.const _)
  rw [fields]; simp [atKind, h.dot, h.question, h.lParen, h.lBracket]

theorem exprFrom_skip (rest : Cursor) (node : Node) (minimum : Int) (multiline records : Bool)
    (fuel : Nat) : exprFrom g fuel ⟨skip multiline rest, node⟩ minimum multiline records =
      exprFrom g fuel ⟨rest, node⟩ minimum multiline records := by
  cases fuel with
  | zero => rfl
  | succ fuel =>
    have hskip : (if multiline then newlines (skip multiline rest) else skip multiline rest) =
        skip multiline rest := skip_idem multiline rest
    rw [exprFrom]
    rw [hskip]; rfl

theorem exprFrom_stop {rest : Cursor} {minimum : Int} {multiline : Bool} (node : Node)
    (records : Bool) (h : rankOf (skip multiline rest) < minimum) :
    Yields (fun fuel => exprFrom g fuel ⟨rest, node⟩ minimum multiline records)
      (.ok ⟨skip multiline rest, node⟩) := by
  refine Yields.step (fun fuel => ?_) (Yields.const _)
  exact if_pos h

/-! ## One step of the loop -/

theorem exprFrom_binary {left right : Node} (hranked : 0 ≤ precedence op.kind)
    (hminimum : minimum ≤ precedence op.kind)
    (hright : Yields (fun fuel => expr g fuel rest (precedence op.kind + 1) multiline records)
      (.ok ⟨after, right⟩)) (hrest : Yields (fun fuel => exprFrom g fuel
      ⟨after, .mk .binary (operator op.kind) [left, right]⟩ minimum multiline records) answer) :
    Yields (fun fuel => exprFrom g fuel ⟨op :: rest, left⟩ minimum multiline records) answer := by
  have hnewline : op.kind ≠ .newline := by
    intro hkind
    rw [hkind] at hranked; exact absurd hranked (by decide)
  have hname : op.kind ≠ .name := by
    intro hkind
    rw [hkind] at hranked; exact absurd hranked (by decide)
  refine Yields.step_bind (fun fuel (right : Step) => exprFrom g fuel
    (done right.rest .binary (operator op.kind) [left, right.node]) minimum multiline records)
    (fun fuel => ?_) hright hrest
  have hskip : (if multiline then newlines (op :: rest) else op :: rest) = op :: rest :=
    skip_eq hnewline
  have hword : word (op :: rest) "implements" = false := word_of_kind "implements" hname
  rw [exprFrom]
  rw [hskip, hword]; exact if_neg (not_lt.mpr hminimum)

theorem exprFrom_implements {left type : Node} (hkind : op.kind = .name)
    (hvalue : op.value = "implements") (hminimum : minimum ≤ 3)
    (htype : Yields (fun fuel => typeRef g fuel (newlines rest)) (.ok ⟨after, type⟩))
    (hrest : Yields (fun fuel => exprFrom g fuel ⟨after, .mk .implements "" [left, type]⟩ minimum
      multiline records) answer) :
    Yields (fun fuel => exprFrom g fuel ⟨op :: rest, left⟩ minimum multiline records) answer := by
  refine Yields.step_bind (fun fuel (type : Step) => exprFrom g fuel
    (done type.rest .implements "" [left, type.node]) minimum multiline records)
    (fun fuel => ?_) htype hrest
  have hskip : (if multiline then newlines (op :: rest) else op :: rest) = op :: rest :=
    skip_eq (by simp [hkind])
  have hword : word (op :: rest) "implements" = true := by simp [word, hkind, hvalue]
  rw [exprFrom]
  rw [hskip, hword]; exact if_neg (not_lt.mpr hminimum)

/-- An operand that `prefixExpr` reads is the first left operand. -/
theorem expr_of_prefix {node : Node} (hstart : (token cursor).kind ≠ .newline)
    (hhead : Yields (fun fuel => prefixExpr g fuel cursor multiline records) (.ok ⟨after, node⟩))
    (hrest : Yields (fun fuel => exprFrom g fuel ⟨after, node⟩ minimum multiline records) answer) :
    Yields (fun fuel => expr g fuel cursor minimum multiline records) answer := by
  refine Yields.step_bind (fun fuel parsed => exprFrom g fuel parsed minimum multiline records)
    (fun fuel => ?_) hhead hrest
  rw [expr, newlines_eq hstart]

theorem expr_of_stop {stop : Stop} (hstart : (token cursor).kind ≠ .newline)
    (hhead : Yields (fun fuel => prefixExpr g fuel cursor multiline records) (.error stop)) :
    Yields (fun fuel => expr g fuel cursor minimum multiline records) (.error stop) := by
  have hbind := @Yields.bind_error Stop Step Step _
    (fun fuel parsed => exprFrom g fuel parsed minimum multiline records) stop hhead
  refine Yields.step (fun fuel => ?_) hbind
  rw [expr, newlines_eq hstart]

/-! ## Operands -/

section

variable {first : Token} {rest : Cursor} {multiline records : Bool}

/-- A token that is no word goes to the cases of `prefixExpr` by its kind. -/
theorem prefix_float (h : first.kind = .float) (hrest : Closes rest) :
    Yields (fun fuel => prefixExpr g fuel (first :: rest) multiline records)
      (.ok ⟨rest, .mk .float first.value []⟩) := by
  refine Yields.step (fun fuel => ?_) (@fields_stop g rest hrest _)
  rw [prefixExpr]; simp [word, h, done]

theorem prefix_text (h : first.kind = .text) (hrest : Closes rest) :
    Yields (fun fuel => prefixExpr g fuel (first :: rest) multiline records)
      (.ok ⟨rest, .mk .text first.value []⟩) := by
  refine Yields.step (fun fuel => ?_) (@fields_stop g rest hrest _)
  rw [prefixExpr]; simp [word, h, done]

theorem prefix_number (h : first.kind = .number) (hvalid : inIntRange first.value false = true)
    (hrest : Closes rest) : Yields (fun fuel => prefixExpr g fuel (first :: rest) multiline records)
      (.ok ⟨rest, .mk .integer first.value []⟩) := by
  refine Yields.step (fun fuel => ?_) (@fields_stop g rest hrest _)
  rw [prefixExpr]; simp [word, h, done, hvalid]

theorem prefix_bool (h : first.kind = .name) (hvalue : first.value = "true" ∨ first.value = "false")
    (hrest : Closes rest) : Yields (fun fuel => prefixExpr g fuel (first :: rest) multiline records)
      (.ok ⟨rest, .mk .bool first.value []⟩) := by
  refine Yields.step (fun fuel => ?_) (@fields_stop g rest hrest _)
  rw [prefixExpr]
  obtain hvalue | hvalue := hvalue
  · simp [word, h, done, hvalue]
  · simp [word, h, done, hvalue]

/-- A number after a minus is one literal, where nothing is applied to it. -/
theorem prefix_negative {number : Token} (h : first.kind = .minus) (hnumber : number.kind = .number)
    (hvalid : inIntRange number.value true = true) (hrest : Closes rest) :
    Yields (fun fuel => prefixExpr g fuel (first :: number :: rest) multiline records)
      (.ok ⟨rest, .mk .integer ("-" ++ number.value) []⟩) := by
  refine Yields.step (fun fuel => ?_) (@fields_stop g rest hrest _)
  have hnewlines : newlines (number :: rest) = number :: rest := newlines_eq (by simp [hnumber])
  rw [prefixExpr]
  simp [word, atKind, h, done, hnewlines, hnumber, hvalid, hrest.dot, hrest.question,
    hrest.lParen, hrest.lBracket]

theorem prefix_unary {op : PrefixOperator} {after : Cursor} {operand : Node}
    (h : first.kind = op.kind) (hstart : (token rest).kind ≠ .newline)
    (hfold : op.kind = .minus → (token rest).kind ≠ .number)
    (hoperand : Yields (fun fuel => expr g fuel rest 11 multiline records) (.ok ⟨after, operand⟩))
    (hafter : Closes after) :
    Yields (fun fuel => prefixExpr g fuel (first :: rest) multiline records)
      (.ok ⟨after, .mk .unary (operator op.kind) [operand]⟩) := by
  refine Yields.step_bind (fun fuel (value : Step) => fields g fuel
    (done value.rest .unary (operator op.kind) [value.node])) (fun fuel => ?_) hoperand
    (fields_stop hafter _)
  have hnewlines : newlines rest = rest := newlines_eq hstart
  rw [prefixExpr]
  obtain hkind | hkind | hkind := op.valid
  · have hnumber := hfold hkind
    simp [word, atKind, h, hkind, hnewlines, hnumber]
  · simp [word, h, hkind, hnewlines]
  · simp [word, h, hkind, hnewlines]

/-- An expression in parentheses. Inside them newlines do not end it. -/
theorem prefix_parenthesized {inner after : Cursor} {close : Token} {node : Node}
    (h : first.kind = .lParen) (hclose : close.kind = .rParen)
    (hstart : (token inner).kind ≠ .newline) (hopen : (token inner).kind ≠ .rParen)
    (hinner : Yields (fun fuel => expr g fuel inner 0 true true) (.ok ⟨close :: after, node⟩))
    (hspread : node.kind ≠ .spread) (hafter : Closes after) :
    Yields (fun fuel => prefixExpr g fuel (first :: inner) multiline records)
      (.ok ⟨after, node⟩) := by
  have hitem : Yields (fun fuel => item g fuel inner .arguments) (.ok ⟨close :: after, node⟩) := by
    refine Yields.step_bind
      (fun _ (value : Step) => .ok (if ellipsis value.rest then spread value else value))
      (fun fuel => ?_) hinner ?_
    · rw [item]
    · have hellipsis : ellipsis (close :: after) = false := ellipsis_eq (by simp [hclose])
      rw [hellipsis]; exact Yields.const _
  have hgroup : Yields (fun fuel => parenthesized g fuel (first :: inner) .arguments .tuple)
      (.ok ⟨after, node⟩) := by
    have hnewlines : newlines inner = inner := newlines_eq hstart
    have hclosed : newlines (close :: after) = close :: after := newlines_eq (by simp [hclose])
    obtain ⟨enough, hrun⟩ := hitem
    refine ⟨enough + 1, fun fuel hfuel => ?_⟩
    obtain ⟨less, rfl⟩ : ∃ less, fuel = less + 1 := ⟨fuel - 1, by omega⟩
    dsimp only
    rw [parenthesized]
    simp only [next'_cons, hnewlines, hrun less (by omega)]
    simp [atKind, hopen, Results.ok_bind, hclosed, hclose, expect, hspread]
  refine Yields.step_bind (fun fuel value => fields g fuel value) (fun fuel => ?_) hgroup
    (fields_stop hafter _)
  rw [prefixExpr]; simp [word, h]

end

/-! ## Texts and their tokens -/

variable {tokens : List Token}

theorem spells_cons {lexeme : Lexeme} {lexemes : List Lexeme}
    (h : Spells tokens (lexeme :: lexemes)) :
    ∃ first rest, tokens = first :: rest ∧ first.toLexeme = lexeme ∧ Spells rest lexemes :=
  map_eq_cons_iff.mp h

theorem spells_append {left right : List Lexeme} (h : Spells tokens (left ++ right)) :
    ∃ front back, tokens = front ++ back ∧ Spells front left ∧ Spells back right :=
  map_eq_append_iff.mp h

theorem spells_nil (h : Spells tokens []) : tokens = [] := map_eq_nil_iff.mp h

variable {p : Kind → Prop}

theorem Starts.token {lexemes : List Lexeme} (h : Starts p lexemes)
    (hspells : Spells tokens lexemes) (rest : Cursor) : p (token (tokens ++ rest)).kind := by
  obtain ⟨lexeme, hlexeme, hkind⟩ := h
  cases lexemes with
  | nil => cases hlexeme
  | cons first others =>
    obtain ⟨start, more, rfl, hstart, -⟩ := spells_cons hspells
    obtain rfl : first = lexeme := by simpa using hlexeme
    rw [← hstart] at hkind; exact hkind

theorem Starts.append {left : List Lexeme} (h : Starts p left) (right : List Lexeme) :
    Starts p (left ++ right) := by
  obtain ⟨first, hfirst, hkind⟩ := h
  cases left with
  | nil => cases hfirst
  | cons lexeme others => exact ⟨first, hfirst, hkind⟩

theorem Starts.wrap {inner : List Lexeme} (h : Starts p inner) (hparen : p .lParen) (needed : Bool) :
    Starts p (wrap needed inner) := by
  cases needed with
  | false => exact h
  | true => exact ⟨_, rfl, hparen⟩

/-- An expression starts neither with a newline nor with a closing parenthesis. -/
def Opening (kind : Kind) : Prop := kind ≠ .newline ∧ kind ≠ .rParen

theorem PrefixOperator.opening (op : PrefixOperator) : Opening op.kind := by
  obtain hkind | hkind | hkind := op.valid
  · exact hkind ▸ ⟨nofun, nofun⟩
  · exact hkind ▸ ⟨nofun, nofun⟩
  · exact hkind ▸ ⟨nofun, nofun⟩

theorem Tree.print_starts (tree : Tree g) : Starts Opening tree.print := by
  induction tree with
  | integer value negative _ =>
    cases negative with
    | false => exact ⟨_, rfl, nofun, nofun⟩
    | true => exact ⟨_, rfl, nofun, nofun⟩
  | float value => exact ⟨_, rfl, nofun, nofun⟩
  | text value => exact ⟨_, rfl, nofun, nofun⟩
  | bool value => exact ⟨_, rfl, nofun, nofun⟩
  | unary op operand _ => exact ⟨_, rfl, op.opening⟩
  | binary op left right ihl _ => exact (ihl.wrap ⟨nofun, nofun⟩ _).append _
  | implements value type ih => exact (ih.wrap ⟨nofun, nofun⟩ _).append _

/-- What stands after a minus is not read as its number. -/
theorem Tree.minus_starts (operand : Tree g) :
    Starts (· ≠ .number) (wrap (operand.rank < 11 || operand.isLiteral) operand.print) := by
  cases operand with
  | integer value negative _ =>
    cases negative with
    | false => exact ⟨_, rfl, nofun⟩
    | true => exact ⟨_, rfl, nofun⟩
  | float value => exact ⟨_, rfl, nofun⟩
  | text value => exact ⟨_, rfl, nofun⟩
  | bool value => exact ⟨_, rfl, nofun⟩
  | unary op operand =>
    obtain hkind | hkind | hkind := op.valid
    · exact ⟨_, rfl, by simp [hkind]⟩
    · exact ⟨_, rfl, by simp [hkind]⟩
    · exact ⟨_, rfl, by simp [hkind]⟩
  | binary op left right =>
    have hlow : (decide (precedence op.kind < 11) || false) = true := by
      cases op.kind <;> rfl
    show Starts _ (wrap (decide (precedence op.kind < 11) || false) _)
    rw [hlow]; exact ⟨_, rfl, nofun⟩
  | implements value type => exact ⟨_, rfl, nofun⟩

theorem Tree.toNode_kind (tree : Tree g) : tree.toNode.kind ≠ .spread := by
  cases tree with
  | integer => exact nofun
  | float => exact nofun
  | text => exact nofun
  | bool => exact nofun
  | unary => exact nofun
  | binary => exact nofun
  | implements => exact nofun

theorem precedence_le (kind : Kind) : precedence kind ≤ 10 := by
  cases kind <;> decide

theorem rankOf_le (cursor : Cursor) : rankOf cursor ≤ 10 := by
  unfold rankOf
  split
  · decide
  · exact precedence_le _

theorem Tree.rank_nonneg (tree : Tree g) : 0 ≤ tree.rank := by
  cases tree with
  | binary op left right => exact op.ranked
  | implements => exact le.intro 3 rfl
  | integer => exact le.intro 11 rfl
  | float => exact le.intro 11 rfl
  | text => exact le.intro 11 rfl
  | bool => exact le.intro 11 rfl
  | unary => exact le.intro 11 rfl

/-- What stands after an operand of an operator: an operator of the table. -/
theorem closes_operator (h : 0 ≤ precedence op.kind) (rest : Cursor) :
    Closes (op :: rest) ∧ op.kind ≠ .newline ∧ rankOf (op :: rest) = precedence op.kind := by
  have hne : ∀ {kind : Kind}, precedence kind < 0 → op.kind ≠ kind := by
    rintro kind hlow rfl
    omega
  refine ⟨⟨hne (by decide), hne (by decide), hne (by decide), hne (by decide), ?_⟩,
    hne (by decide), ?_⟩
  · exact fun hname => absurd hname (hne (by decide))
  · have hword : word (op :: rest) "implements" = false :=
      word_of_kind _ (show op.kind ≠ .name from hne (by decide))
    rw [rankOf, hword]; rfl

theorem closes_implements (hkind : op.kind = .name) (hvalue : op.value = "implements")
    (rest : Cursor) : Closes (op :: rest) ∧ op.kind ≠ .newline ∧ rankOf (op :: rest) = 3 := by
  refine ⟨⟨?_, ?_, ?_, ?_, fun _ => hvalue⟩, ?_, ?_⟩
  · simp [hkind]
  · simp [hkind]
  · simp [hkind]
  · simp [hkind]
  · simp [hkind]
  · simp [rankOf, word, hkind, hvalue]

/-! ## Reading a text -/

/-- The loop of `expr` gets to where the text ends, with the tree as the left operand. -/
def Arrives (tree : Tree g) : Prop :=
  ∀ (minimum : Int) (multiline records : Bool) (tokens rest : Cursor) (answer : Parsed),
    Spells tokens tree.print → minimum ≤ tree.rank → Follows multiline rest →
    rankOf (skip multiline rest) ≤ tree.rank →
    Yields (fun fuel => exprFrom g fuel ⟨rest, tree.toNode⟩ minimum multiline records) answer →
    Yields (fun fuel => expr g fuel (tokens ++ rest) minimum multiline records) answer

/-- The same of an operand that is asked for at the rank `place`. -/
theorem Arrives.operand {tree : Tree g} (h : Arrives tree) (place minimum : Int) {needed : Bool}
    {tokens : Cursor} (hplace : needed = false → place ≤ tree.rank) (hminimum : minimum ≤ place)
    (hspells : Spells tokens (wrap needed tree.print)) (hfollows : Follows multiline rest)
    (hrank : rankOf (skip multiline rest) ≤ place)
    (hrest : Yields (fun fuel => exprFrom g fuel ⟨rest, tree.toNode⟩ minimum multiline records)
      answer) :
    Yields (fun fuel => expr g fuel (tokens ++ rest) minimum multiline records) answer := by
  cases needed with
  | false =>
    have hle := hplace rfl
    exact h minimum multiline records tokens rest answer hspells (hminimum.trans hle) hfollows
      (hrank.trans hle) hrest
  | true =>
    obtain ⟨first, inner, rfl, hfirst, hinner⟩ := spells_cons hspells
    obtain ⟨front, back, rfl, hfront, hback⟩ := spells_append hinner
    obtain ⟨close, others, rfl, hclose, hnil⟩ := spells_cons hback
    obtain rfl := spells_nil hnil
    have hparen : close.kind = .rParen := congrArg Lexeme.kind hclose
    have hopening := tree.print_starts.token hfront (close :: rest)
    have hcloses : Closes (close :: rest) :=
      ⟨by simp [hparen], by simp [hparen], by simp [hparen], by simp [hparen], by simp [hparen]⟩
    have hout : rankOf (skip true (close :: rest)) = -1 := by
      rw [skip_eq (by simp [hparen]), rankOf, word_of_kind _ (by simp [hparen])]
      simp [hparen, precedence]
    -- inside, the closing parenthesis ends the loop
    have hexpr : Yields (fun fuel => expr g fuel (front ++ close :: rest) 0 true true)
        (.ok ⟨close :: rest, tree.toNode⟩) := by
      have hstop := @exprFrom_stop g (close :: rest) 0 true tree.toNode true (by omega)
      rw [skip_eq (by simp [hparen])] at hstop
      exact h 0 true true front (close :: rest) _ hfront tree.rank_nonneg
        (hcloses.follows (by simp [hparen]) true) (by have := tree.rank_nonneg; omega) hstop
    have hcursor : first :: (front ++ [close]) ++ rest = first :: (front ++ close :: rest) := by
      simp
    rw [hcursor]
    exact expr_of_prefix (by rw [token_cons, congrArg Lexeme.kind hfirst]; exact nofun)
      (prefix_parenthesized (congrArg Lexeme.kind hfirst) hparen hopening.1 hopening.2 hexpr
        tree.toNode_kind hfollows.here) hrest

theorem Tree.arrives (tree : Tree g) : Arrives tree := by
  induction tree with
  | integer value negative valid =>
    intro minimum multiline records tokens rest answer hspells _ hfollows _ hrest
    cases negative with
    | false =>
      obtain ⟨number, others, rfl, hnumber, hnil⟩ := spells_cons hspells
      obtain rfl := spells_nil hnil
      have hkind : number.kind = .number := congrArg Lexeme.kind hnumber
      obtain rfl : number.value = value := congrArg Lexeme.value hnumber
      exact expr_of_prefix (by simp [hkind]) (prefix_number hkind valid hfollows.here) hrest
    | true =>
      obtain ⟨minus, others, rfl, hminus, hmore⟩ := spells_cons hspells
      obtain ⟨number, last, rfl, hnumber, hnil⟩ := spells_cons hmore
      obtain rfl := spells_nil hnil
      have hkind : minus.kind = .minus := congrArg Lexeme.kind hminus
      obtain rfl : number.value = value := congrArg Lexeme.value hnumber
      exact expr_of_prefix (by simp [hkind])
        (prefix_negative hkind (congrArg Lexeme.kind hnumber) valid hfollows.here) hrest
  | float value =>
    intro minimum multiline records tokens rest answer hspells _ hfollows _ hrest
    obtain ⟨first, others, rfl, hfirst, hnil⟩ := spells_cons hspells
    obtain rfl := spells_nil hnil
    have hkind : first.kind = .float := congrArg Lexeme.kind hfirst
    obtain rfl : first.value = value := congrArg Lexeme.value hfirst
    exact expr_of_prefix (by simp [hkind]) (prefix_float hkind hfollows.here) hrest
  | text value =>
    intro minimum multiline records tokens rest answer hspells _ hfollows _ hrest
    obtain ⟨first, others, rfl, hfirst, hnil⟩ := spells_cons hspells
    obtain rfl := spells_nil hnil
    have hkind : first.kind = .text := congrArg Lexeme.kind hfirst
    obtain rfl : first.value = value := congrArg Lexeme.value hfirst
    exact expr_of_prefix (by simp [hkind]) (prefix_text hkind hfollows.here) hrest
  | bool value =>
    intro minimum multiline records tokens rest answer hspells _ hfollows _ hrest
    obtain ⟨first, others, rfl, hfirst, hnil⟩ := spells_cons hspells
    obtain rfl := spells_nil hnil
    have hkind : first.kind = .name := congrArg Lexeme.kind hfirst
    have hvalue : first.value = if value then "true" else "false" := congrArg Lexeme.value hfirst
    have hword : first.value = "true" ∨ first.value = "false" := by
      cases value with
      | false => exact .inr hvalue
      | true => exact .inl hvalue
    rw [Tree.toNode, ← hvalue] at hrest
    exact expr_of_prefix (by simp [hkind]) (prefix_bool hkind hword hfollows.here) hrest
  | unary op operand ih =>
    intro minimum multiline records tokens rest answer hspells _ hfollows _ hrest
    obtain ⟨first, others, rfl, hfirst, hoperand⟩ := spells_cons hspells
    have hkind : first.kind = op.kind := congrArg Lexeme.kind hfirst
    have hstart := (operand.print_starts.wrap ⟨nofun, nofun⟩ _).token hoperand rest
    have hfold : op.kind = .minus → (token (others ++ rest)).kind ≠ .number := by
      intro hminus
      simp only [hminus] at hoperand
      exact operand.minus_starts.token hoperand rest
    have hbelow : rankOf (skip multiline rest) < 11 := by
      have := rankOf_le (skip multiline rest)
      omega
    -- no binary operator joins the operand
    have hplace : (decide (operand.rank < 11) || decide (op.kind = .minus) && operand.isLiteral) =
        false → 11 ≤ operand.rank :=
      fun hneeded => not_lt.mp (of_decide_eq_false (Bool.or_eq_false_iff.mp hneeded).1)
    have hexpr := ih.operand 11 11 hplace (le_refl 11) hoperand hfollows
      (le_of_lt hbelow) (exprFrom_stop operand.toNode records hbelow)
    refine expr_of_prefix (by rw [cons_append, token_cons, hkind]; exact op.opening.1)
      (prefix_unary hkind hstart.1 hfold hexpr hfollows.skipped) ?_
    exact Yields.congr (exprFrom_skip rest _ minimum multiline records) hrest
  | binary op left right ihl ihr =>
    intro minimum multiline records tokens rest answer hspells hminimum hfollows hrank hrest
    obtain ⟨front, back, rfl, hleft, hback⟩ := spells_append hspells
    obtain ⟨sign, others, rfl, hsign, hright⟩ := spells_cons hback
    obtain ⟨kind, hranked⟩ := op
    obtain rfl : sign.kind = kind := congrArg Lexeme.kind hsign
    obtain ⟨hcloses, hnewline, hhere⟩ := closes_operator hranked (others ++ rest)
    have hskip : skip multiline (sign :: (others ++ rest)) = sign :: (others ++ rest) :=
      skip_eq (show sign.kind ≠ .newline from hnewline)
    have hbelow : rankOf (skip multiline rest) < precedence sign.kind + 1 :=
      lt_add_one_of_le hrank
    -- the right operand stops in front of an operator of the same rank
    have hexpr := ihr.operand (precedence sign.kind + 1) (precedence sign.kind + 1)
      (fun hneeded => not_lt.mp (of_decide_eq_false hneeded)) (le_refl _) hright hfollows
      (le_of_lt hbelow) (exprFrom_stop right.toNode records hbelow)
    have hloop := exprFrom_binary hranked hminimum hexpr
      (Yields.congr (exprFrom_skip rest _ minimum multiline records) hrest)
    rw [append_assoc, cons_append]
    exact ihl.operand (precedence sign.kind) minimum
      (fun hneeded => not_lt.mp (of_decide_eq_false hneeded)) hminimum hleft
      (hcloses.follows hnewline multiline) (by rw [hskip, hhere]) hloop
  | implements value type ih =>
    intro minimum multiline records tokens rest answer hspells hminimum hfollows _ hrest
    obtain ⟨front, back, rfl, hvalue, hback⟩ := spells_append hspells
    obtain ⟨sign, others, rfl, hsign, htype⟩ := spells_cons hback
    have hkind : sign.kind = .name := congrArg Lexeme.kind hsign
    have htext : sign.value = "implements" := congrArg Lexeme.value hsign
    obtain ⟨hcloses, hnewline, hhere⟩ := closes_implements hkind htext (others ++ rest)
    have hskip : skip multiline (sign :: (others ++ rest)) = sign :: (others ++ rest) :=
      skip_eq (show sign.kind ≠ .newline from hnewline)
    have hstart : (token (others ++ rest)).kind ≠ .newline := by
      obtain hname | hparen := type.starts.token htype rest
      · simp [hname]
      · simp [hparen]
    have hloop := exprFrom_implements hkind htext hminimum
      (by rw [newlines_eq hstart]; exact type.reads others rest htype hfollows.here) hrest
    rw [append_assoc, cons_append]
    exact ih.operand 3 minimum (fun hneeded => not_lt.mp (of_decide_eq_false hneeded))
      hminimum hvalue (hcloses.follows hnewline multiline) (by rw [hskip, hhere]) hloop

/-- The text of an expression is read as the expression, at every minimum rank. -/
theorem expr_printAt (tree : Tree g) (minimum : Int) (records : Bool) {tokens : Cursor}
    (hspells : Spells tokens (tree.printAt minimum)) (hfollows : Follows multiline rest)
    (hrank : rankOf (skip multiline rest) < minimum) :
    Yields (fun fuel => expr g fuel (tokens ++ rest) minimum multiline records)
      (.ok ⟨skip multiline rest, tree.toNode⟩) := tree.arrives.operand minimum minimum
    (fun hneeded => not_lt.mp (of_decide_eq_false hneeded)) (le_refl minimum) hspells
    hfollows (le_of_lt hrank) (exprFrom_stop tree.toNode records hrank)

/-! ## Texts of types -/

/-- A name that is no reserved word. -/
abbrev Name := { value : String // reserved value = false }

theorem Name.ne (named : Name) {value : String} (h : reserved value = true) :
    named.val ≠ value := by
  intro hsame
  have hreserved := named.property
  rw [hsame, h] at hreserved
  cases hreserved

def partLexemes (parts : List Name) : List Lexeme :=
  parts.flatMap fun part => [⟨.dot, ""⟩, ⟨.name, part.val⟩]

def pathValue (first : Name) (parts : List Name) : String :=
  parts.foldl (fun value part => value ++ ("." ++ part.val)) first.val

theorem pathFrom_reads (hrest : (token rest).kind ≠ .dot) :
    ∀ (parts : List Name) (tokens : Cursor) (value : String) (left : Nat),
      Spells tokens (partLexemes parts) → tokens.length < left →
      pathFrom left (tokens ++ rest) value = .ok ⟨rest, .mk .name
        (parts.foldl (fun value part => value ++ ("." ++ part.val)) value) []⟩ := by
  intro parts
  induction parts with
  | nil =>
    intro tokens value left hspells hleft
    obtain rfl := spells_nil hspells
    obtain ⟨less, rfl⟩ : ∃ less, left = less + 1 := ⟨left - 1, by omega⟩
    rw [pathFrom]; simp [atKind, hrest, done]
  | cons part others ih =>
    intro tokens value left hspells hleft
    obtain ⟨dot, more, rfl, hdot, hmore⟩ := spells_cons hspells
    obtain ⟨named, last, rfl, hnamed, hlast⟩ := spells_cons hmore
    obtain ⟨less, rfl⟩ : ∃ less, left = less + 1 := ⟨left - 1, by omega⟩
    have hkind : dot.kind = .dot := congrArg Lexeme.kind hdot
    have hname : named.kind = .name := congrArg Lexeme.kind hnamed
    have hvalue : named.value = part.val := congrArg Lexeme.value hnamed
    have hawait : part.val ≠ "await" := part.ne (by decide)
    have hstep := ih last (value ++ ("." ++ part.val)) less hlast (by
      simp only [length_cons] at hleft
      omega)
    rw [cons_append, cons_append, pathFrom]
    simp only [atKind, token_cons, next'_cons, hkind, hname, word, hvalue, name, ellipsis,
      part.property, hawait]
    simpa [Results.ok_bind, done, Node.value] using hstep

theorem typeRef_path (first : Name) (parts : List Name) {tokens after rest : Cursor}
    {args : Node} (hspells : Spells tokens (⟨.name, first.val⟩ :: partLexemes parts))
    (hafter : (token after).kind ≠ .dot)
    (hargs : Yields (fun fuel => typeArgs g fuel after) (.ok ⟨rest, args⟩)) :
    Yields (fun fuel => typeRef g fuel (tokens ++ after))
      (.ok ⟨rest, .mk .type (pathValue first parts) args.children⟩) := by
  obtain ⟨start, others, rfl, hstart, hothers⟩ := spells_cons hspells
  have hkind : start.kind = .name := congrArg Lexeme.kind hstart
  have hvalue : start.value = first.val := congrArg Lexeme.value hstart
  have hpath : path (start :: (others ++ after)) =
      .ok ⟨after, .mk .name (pathValue first parts) []⟩ := by
    have hname : name (start :: (others ++ after)) =
        .ok ⟨others ++ after, .mk .name first.val []⟩ := by
      simp [name, hkind, hvalue, first.property, done]
    rw [path, hname]
    exact pathFrom_reads hafter parts others first.val _ hothers (by
      rw [length_append]
      omega)
  have hword : ∀ value : String, reserved value = true →
      word (start :: (others ++ after)) value = false := fun value hreserved => word_of_value (by
      rw [token_cons, hvalue]
      exact first.ne hreserved)
  refine Yields.step_bind (fun _ (args : Step) => .ok
    (done args.rest .type (pathValue first parts) args.node.children)) (fun fuel => ?_) hargs
    (Yields.const _)
  rw [cons_append, typeRef]
  simp only [hword "type" (by decide), hword "comptime" (by decide), hword "fn" (by decide),
    hword "dyn" (by decide), atKind_cons, hkind, reduceCtorEq, if_false, hpath]
  rfl

/-- A dotted name. -/
def TypeText.path (g : Grammar) (first : Name) (parts : List Name) : TypeText g where
  lexemes := ⟨.name, first.val⟩ :: partLexemes parts
  node := .mk .type (pathValue first parts) []
  starts := ⟨_, rfl, .inl rfl⟩
  reads tokens rest hspells hrest := by
    refine @typeRef_path g first parts tokens rest rest (.mk .typeArguments "" []) hspells
      hrest.dot (Yields.step (fun fuel => ?_) (Yields.const _))
    rw [typeArgs]
    simp [atKind, hrest.lBracket, done]

/-! ## Literals out of range -/

section

variable {minus number : Token} {rest : Cursor} {minimum : Int} {multiline : Bool}

/-- A number in range is read, and any other one is refused where it stands. -/
theorem literal_reads (hnumber : number.kind = .number) (hdigits : Digital (bytes number.value))
    (records : Bool) (hfollows : Follows multiline rest)
    (hrank : rankOf (skip multiline rest) < minimum) :
    Yields (fun fuel => expr g fuel (number :: rest) minimum multiline records)
      (if numberFrom 0 (bytes number.value) ≤ 2 ^ 63 - 1 then
        .ok ⟨skip multiline rest, .mk .integer number.value []⟩
      else error (number :: rest) "integer literal is outside the Int range") := by
  have hnewline : (token (number :: rest)).kind ≠ .newline := by simp [hnumber]
  have hrange : inIntRange number.value false = true ↔
      numberFrom 0 (bytes number.value) ≤ 2 ^ 63 - 1 := inIntRange_iff hdigits false
  by_cases hvalid : inIntRange number.value false = true
  · rw [if_pos (hrange.mp hvalid)]
    exact expr_of_prefix hnewline (prefix_number hnumber hvalid hfollows.here)
      (exprFrom_stop _ records hrank)
  · rw [if_neg fun hle => hvalid (hrange.mpr hle)]
    have hhead : Yields (fun fuel => prefixExpr g fuel (number :: rest) multiline records)
        (error (number :: rest) "integer literal is outside the Int range") := by
      refine Yields.step (fun fuel => ?_) (Yields.const _)
      rw [prefixExpr]; simp [word, hnumber, hvalid]
    exact expr_of_stop hnewline hhead

/-- After a minus there is one more number, the least of `Int`. -/
theorem literal_folds (hminus : minus.kind = .minus) (hnumber : number.kind = .number)
    (hdigits : Digital (bytes number.value)) (records : Bool) (hfollows : Follows multiline rest)
    (hrank : rankOf (skip multiline rest) < minimum) :
    Yields (fun fuel => expr g fuel (minus :: number :: rest) minimum multiline records)
      (if numberFrom 0 (bytes number.value) ≤ 2 ^ 63 then
        .ok ⟨skip multiline rest, .mk .integer ("-" ++ number.value) []⟩
      else error (number :: rest) "integer literal is outside the Int range") := by
  have hnewline : (token (minus :: number :: rest)).kind ≠ .newline := by simp [hminus]
  have hrange : inIntRange number.value true = true ↔
      numberFrom 0 (bytes number.value) ≤ 2 ^ 63 := inIntRange_iff hdigits true
  by_cases hvalid : inIntRange number.value true = true
  · rw [if_pos (hrange.mp hvalid)]
    exact expr_of_prefix hnewline (prefix_negative hminus hnumber hvalid hfollows.here)
      (exprFrom_stop _ records hrank)
  · rw [if_neg fun hle => hvalid (hrange.mpr hle)]
    have hnewlines : newlines (number :: rest) = number :: rest := newlines_eq (by simp [hnumber])
    have hhead : Yields (fun fuel => prefixExpr g fuel (minus :: number :: rest) multiline records)
        (error (number :: rest) "integer literal is outside the Int range") := by
      refine Yields.step (fun fuel => ?_) (Yields.const _)
      rw [prefixExpr]
      simp [word, atKind, hminus, hnewlines, hnumber, hvalid, hfollows.here.dot,
        hfollows.here.question, hfollows.here.lParen, hfollows.here.lBracket]
    exact expr_of_stop hnewline hhead

end

/-- Every expression is read as it was printed, whatever reads statements, whatever the spans
of the tokens are, and in front of whatever may follow an expression. A number is read exactly
where it is in the range of `Int`, after a minus as one literal. -/
theorem expressions_invert_printing (g : Grammar) (minimum : Int) (multiline records : Bool)
    (rest : Cursor) (hfollows : Follows multiline rest)
    (hrank : rankOf (skip multiline rest) < minimum) :
    (∀ (tree : Tree g) (tokens : Cursor), Spells tokens (tree.printAt minimum) →
      Yields (fun fuel => expr g fuel (tokens ++ rest) minimum multiline records)
        (.ok ⟨skip multiline rest, tree.toNode⟩)) ∧
    (∀ number : Token, number.kind = .number → Digital (bytes number.value) →
      Yields (fun fuel => expr g fuel (number :: rest) minimum multiline records)
        (if numberFrom 0 (bytes number.value) ≤ 2 ^ 63 - 1 then
          .ok ⟨skip multiline rest, .mk .integer number.value []⟩
        else error (number :: rest) "integer literal is outside the Int range")) ∧
    ∀ minus number : Token, minus.kind = .minus → number.kind = .number →
      Digital (bytes number.value) →
      Yields (fun fuel => expr g fuel (minus :: number :: rest) minimum multiline records)
        (if numberFrom 0 (bytes number.value) ≤ 2 ^ 63 then
          .ok ⟨skip multiline rest, .mk .integer ("-" ++ number.value) []⟩
        else error (number :: rest) "integer literal is outside the Int range") := by
  refine ⟨?_, ?_, ?_⟩
  · exact fun tree tokens hspells => expr_printAt tree minimum records hspells hfollows hrank
  · exact fun number hnumber hdigits => literal_reads hnumber hdigits records hfollows hrank
  · exact fun minus number hminus hnumber hdigits =>
      literal_folds hminus hnumber hdigits records hfollows hrank

def noStatements : Grammar where
  functionExpression _ cursor := error cursor "expected a function"
  comptimeExpr _ cursor := error cursor "expected 'comptime'"
  ifExpr _ cursor := error cursor "expected 'if'"
  matchExpr _ cursor := error cursor "expected 'match'"
  block _ cursor := error cursor "expected '\x7b'"

def tokenAt (offset : Nat) (kind : Kind) (value : String) : Token :=
  ⟨⟨kind, value⟩, ⟨offset, offset + 1⟩⟩

/-- `1.5 - -9223372036854775808 implements Show` -/
def leastTree : Tree noStatements :=
  .implements (.binary ⟨.minus, by decide⟩ (.float "1.5")
    (.integer "9223372036854775808" true (by decide)))
    (TypeText.path noStatements ⟨"Show", by decide⟩ [])

theorem expressions_invert_least : Yields (fun fuel => expr noStatements fuel
        ([tokenAt 0 .float "1.5", tokenAt 4 .minus "", tokenAt 6 .minus "",
          tokenAt 7 .number "9223372036854775808", tokenAt 27 .name "implements",
          tokenAt 38 .name "Show"] ++ [tokenAt 42 .eof ""]) 0 false true)
      (.ok ⟨[tokenAt 42 .eof ""], leastTree.toNode⟩) := by
  have hcloses : Closes [tokenAt 42 .eof ""] := ⟨nofun, nofun, nofun, nofun, nofun⟩
  exact (expressions_invert_printing noStatements 0 false true [tokenAt 42 .eof ""]
    ⟨hcloses, hcloses⟩ (by decide)).1 leastTree _ rfl

end Loom.Expressions
