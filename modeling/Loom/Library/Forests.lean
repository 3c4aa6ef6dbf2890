import Loom.Library.Tables
import Mathlib.Data.Finset.Max

/-
  Forests kept as two-way links: every node names its parent and lists its
  children.
-/

namespace Loom.Forests

open Tables

structure Node (ι : Type*) where
  parent : Option ι
  children : List ι

variable {ι : Type*}

/-- The lists of children and the links to parents say the same, and no chain of
parents returns. -/
structure Forest (nodes : ι → Option (Node ι)) : Prop where
  listed : ∀ {parent node child}, nodes parent = some node → child ∈ node.children →
    ∃ node', nodes child = some node' ∧ node'.parent = some parent
  held : ∀ {child node parent}, nodes child = some node → node.parent = some parent →
    ∃ node', nodes parent = some node' ∧ child ∈ node'.children
  nodup : ∀ {id node}, nodes id = some node → node.children.Nodup
  ranked : ∃ rank : ι → Nat, ∀ {child node parent}, nodes child = some node →
    node.parent = some parent → rank parent < rank child

/-- `id` is in the subtree of `top`. -/
inductive Below (nodes : ι → Option (Node ι)) (top : ι) : ι → Prop
  | self : Below nodes top top
  | child {parent id : ι} {node : Node ι} : Below nodes top parent → nodes id = some node →
      node.parent = some parent → Below nodes top id

theorem forest_empty : Forest (fun _ => none : ι → Option (Node ι)) := by
  refine ⟨?_, ?_, ?_, ⟨fun _ => 0, ?_⟩⟩ <;> intros <;> contradiction

section
variable {nodes : ι → Option (Node ι)} {id parent child top other : ι} {node owner : Node ι}

theorem Forest.ne_parent (h : Forest nodes) (hid : nodes id = some node)
    (hparent : node.parent = some parent) : id ≠ parent := by
  obtain ⟨rank, hrank⟩ := h.ranked
  intro hsame
  have hless := hrank hid hparent
  rw [hsame] at hless; exact absurd hless (lt_irrefl _)

/-- The ranks of a subtree are those of its top at least. -/
theorem Below.rank {rank : ι → Nat} (hbelow : Below nodes top id)
    (hrank : ∀ {child node parent}, nodes child = some node → node.parent = some parent →
      rank parent < rank child) : rank top ≤ rank id := by
  induction hbelow with
  | self => exact le_rfl
  | child _ hid hparent ih => exact le_of_lt (lt_of_le_of_lt ih (hrank hid hparent))

theorem not_below_parent (h : Forest nodes) (hid : nodes id = some node)
    (hparent : node.parent = some parent) : ¬Below nodes id parent := by
  obtain ⟨rank, hrank⟩ := h.ranked
  intro hbelow
  have hup := hbelow.rank hrank
  have hdown := hrank hid hparent
  omega

/-- The other children of a parent are outside the subtree of a child. -/
theorem not_below_sibling (h : Forest nodes) (hid : nodes id = some node)
    (hparent : node.parent = some parent) (hother : nodes other = some owner)
    (hsibling : owner.parent = some parent) (hne : other ≠ id) : ¬Below nodes id other := by
  intro hbelow
  cases hbelow with
  | self => exact hne rfl
  | child hup hnode hlink =>
    rw [hother, Option.some.injEq] at hnode
    rw [← hnode, hsibling, Option.some.injEq] at hlink
    exact not_below_parent h hid hparent (hlink ▸ hup)

/-! ## Edits -/

variable [DecidableEq ι]

/-- A new node without a parent. -/
theorem Forest.insert (h : Forest nodes) (hnew : nodes id = none) :
    Forest (put nodes id ⟨none, []⟩) := by
  obtain ⟨rank, hrank⟩ := h.ranked
  refine ⟨?_, ?_, ?_, ⟨rank, ?_⟩⟩
  · intro parent node child hparent hchild
    have := @h.listed parent node child
    grind
  · intro child node parent hchild hparent
    have := @h.held child node parent
    grind
  · intro id node hid
    have := @h.nodup id node
    grind
  · intro child node parent hchild hparent; grind

/-- A new leaf under a node. -/
theorem Forest.graft (h : Forest nodes) {children : List ι} (hnew : nodes id = none)
    (howner : nodes parent = some owner) (hnodup : children.Nodup)
    (hmem : ∀ child, child ∈ children ↔ child = id ∨ child ∈ owner.children) :
    Forest (put (put nodes id ⟨some parent, []⟩) parent ⟨owner.parent, children⟩) := by
  obtain ⟨rank, hrank⟩ := h.ranked
  have hfree : ∀ {x n}, nodes x = some n → n.parent ≠ some id := by
    intro x n hx hup
    obtain ⟨_, hlive, _⟩ := h.held hx hup
    rw [hnew] at hlive; simp at hlive
  refine ⟨?_, ?_, ?_, ⟨fun x => if x = id then rank parent + 1 else rank x, ?_⟩⟩
  · intro above node child habove hchild
    have := @h.listed above node child
    have := @h.listed parent owner child howner
    grind
  · intro child node above hchild habove
    have := @h.held child node above
    have := @h.held parent owner above howner
    grind
  · intro x node hx
    have := @h.nodup x node
    grind
  · intro child node above hchild habove; grind

/-- The removal of a leaf without a parent. -/
theorem Forest.fell (h : Forest nodes) (hid : nodes id = some ⟨none, []⟩) :
    Forest (drop nodes id) := by
  obtain ⟨rank, hrank⟩ := h.ranked
  refine ⟨?_, ?_, ?_, ⟨rank, ?_⟩⟩
  · intro parent node child hparent hchild
    have := @h.listed parent node child
    grind
  · intro child node parent hchild hparent
    have := @h.held child node parent
    grind
  · intro x node hx
    have := @h.nodup x node
    grind
  · intro child node parent hchild hparent; grind

/-- The removal of a leaf from its parent. -/
theorem Forest.prune (h : Forest nodes) (hid : nodes id = some ⟨some parent, []⟩)
    (howner : nodes parent = some owner) :
    Forest (put (drop nodes id) parent ⟨owner.parent, owner.children.erase id⟩) := by
  obtain ⟨rank, hrank⟩ := h.ranked
  have herase : ∀ child, child ∈ owner.children.erase id ↔ child ≠ id ∧ child ∈ owner.children :=
    fun child => (h.nodup howner).mem_erase_iff
  refine ⟨?_, ?_, ?_, ⟨rank, ?_⟩⟩
  · intro above node child habove hchild
    have := @h.listed above node child
    have := @h.listed parent owner child howner
    grind
  · intro child node above hchild habove
    have := @h.held child node above
    have := @h.held parent owner above howner
    grind
  · intro x node hx
    have := @h.nodup x node
    have := (h.nodup howner).erase id
    grind
  · intro child node above hchild habove; grind

/-- A subtree moved from its parent to a node outside it. -/
theorem Forest.move (h : Forest nodes) {old new node : Node ι} {next : ι} {children : List ι}
    (hid : nodes id = some node) (hparent : node.parent = some parent)
    (hold : nodes parent = some old) (hnext : nodes next = some new)
    (houtside : ¬Below nodes id next) (hne : next ≠ parent) (hnodup : children.Nodup)
    (hmem : ∀ child, child ∈ children ↔ child = id ∨ child ∈ new.children) :
    Forest (put (put (put nodes parent ⟨old.parent, old.children.erase id⟩) next
      ⟨new.parent, children⟩) id ⟨some next, node.children⟩) := by
  classical
  obtain ⟨rank, hrank⟩ := h.ranked
  have hidnext : id ≠ next := by
    intro hsame; exact houtside (hsame ▸ Below.self)
  have herase : ∀ child, child ∈ old.children.erase id ↔ child ≠ id ∧ child ∈ old.children :=
    fun child => (h.nodup hold).mem_erase_iff
  -- the links of all nodes but `id` stay, so the subtree of `id` is what it was
  have hstay : ∀ {child n above}, child ≠ id → nodes child = some n → n.parent = some above →
      (Below nodes id child ↔ Below nodes id above) := by
    intro child n above hchild hn habove
    constructor
    · intro hbelow
      cases hbelow with
      | self => exact absurd rfl hchild
      | child hup hnode hlink =>
        rw [hn, Option.some.injEq] at hnode
        rw [← hnode, habove, Option.some.injEq] at hlink; exact hlink ▸ hup
    · intro hup; exact hup.child hn habove
  refine ⟨?_, ?_, ?_, ⟨fun x => if Below nodes id x then rank x + rank next + 1 else rank x, ?_⟩⟩
  · intro above n child habove hchild
    have := @h.listed above n child
    have := @h.listed parent old child hold
    have := @h.listed next new child hnext
    have := @h.listed id node child hid
    grind
  · intro child n above hchild habove
    have := @h.held child n above
    have := @h.held parent old above hold
    have := @h.held next new above hnext
    grind
  · intro x n hx
    have := @h.nodup x n
    have := @h.nodup id node hid
    have := (h.nodup hold).erase id
    grind
  · intro child n above hchild habove
    show (if Below nodes id above then rank above + rank next + 1 else rank above) <
      if Below nodes id child then rank child + rank next + 1 else rank child
    by_cases hself : child = id
    · have hlink : above = next := by grind
      have hbelow : Below nodes id child := hself ▸ Below.self
      rw [hlink, if_pos hbelow, if_neg houtside]; omega
    · have horiginal : ∃ m, nodes child = some m ∧ m.parent = some above := by grind
      obtain ⟨m, hm, hup⟩ := horiginal
      have hiff := hstay hself hm hup
      have hless := hrank hm hup
      by_cases hbelow : Below nodes id child
      · rw [if_pos hbelow, if_pos (hiff.mp hbelow)]; omega
      · rw [if_neg hbelow, if_neg (fun hup => hbelow (hiff.mpr hup))]
        exact hless

end

/-! ## Tops and deepest nodes -/

section
variable {nodes : ι → Option (Node ι)} {id top : ι} {node : Node ι}

theorem Forest.top_of_live (h : Forest nodes) (hid : nodes id = some node) :
    ∃ top node', nodes top = some node' ∧ node'.parent = none ∧ Below nodes top id := by
  obtain ⟨rank, hrank⟩ := h.ranked
  induction hlevel : rank id using Nat.strong_induction_on generalizing id node with
  | _ level ih =>
    cases hparent : node.parent with
    | none => exact ⟨id, node, hid, hparent, .self⟩
    | some parent =>
      obtain ⟨owner, howner, _⟩ := h.held hid hparent
      obtain ⟨top, node', htop, hnone, hbelow⟩ :=
        ih (rank parent) (hlevel ▸ hrank hid hparent) howner rfl
      exact ⟨top, node', htop, hnone, hbelow.child hid hparent⟩

/-- A subtree without children is its top. -/
theorem Below.eq_of_leaf (hbelow : Below nodes top id) (h : Forest nodes)
    (htop : nodes top = some node) (hleaf : node.children = []) : id = top := by
  induction hbelow with
  | self => rfl
  | child _ hid hparent ih =>
    rw [ih] at hparent
    obtain ⟨owner, howner, hmem⟩ := h.held hid hparent
    rw [htop, Option.some.injEq] at howner
    rw [← howner, hleaf] at hmem; simp at hmem

theorem Forest.only_top (h : Forest nodes) (htop : nodes top = some node)
    (hleaf : node.children = [])
    (honly : ∀ {id node}, nodes id = some node → node.parent = none → id = top)
    {node' : Node ι} (hid : nodes id = some node') : id = top := by
  obtain ⟨other, _, hother, hnone, hbelow⟩ := h.top_of_live hid
  rw [honly hother hnone] at hbelow; exact hbelow.eq_of_leaf h htop hleaf

/-- Of finitely many nodes with a property, one has no child with it. -/
theorem Forest.deepest (h : Forest nodes) (holds : ι → Prop) (range : Finset ι)
    (hrange : ∀ id, holds id → id ∈ range) (hid : holds id) :
    ∃ last, holds last ∧ ∀ {child node}, nodes child = some node →
      node.parent = some last → ¬holds child := by
  classical
  obtain ⟨rank, hrank⟩ := h.ranked
  obtain ⟨last, hlast, hmax⟩ := (range.filter holds).exists_max_image rank
    ⟨id, Finset.mem_filter.mpr ⟨hrange id hid, hid⟩⟩
  refine ⟨last, (Finset.mem_filter.mp hlast).2, ?_⟩
  intro child node hchild hparent hholds
  have hle := hmax child (Finset.mem_filter.mpr ⟨hrange child hholds, hholds⟩)
  have hlt := hrank hchild hparent
  omega

end

end Loom.Forests
