import Loom.Library.Forests
import Mathlib.Data.Finset.Card

/-
  The removal of a subtree with an explicit stack, children before parents.

  An entry of the stack is a node and whether its children have been pushed
  above it. An unexpanded top is expanded; an expanded top has no children left
  and is removed.
-/

namespace Loom.Forests

open List

variable {ι : Type*}

/-- The parent of what is pushed next: the topmost expanded entry. -/
def holder (base : Option ι) : List (ι × Bool) → Option ι
  | [] => base
  | (id, true) :: _ => some id
  | (_, false) :: rest => holder base rest

/-- Every entry is a node under the expanded entry below it, and occurs once. -/
def Stacked (nodes : ι → Option (Node ι)) (base : Option ι) : List (ι × Bool) → Prop
  | [] => True
  | (id, _) :: rest =>
    (∃ node, nodes id = some node ∧ node.parent = holder base rest) ∧
      id ∉ rest.map Prod.fst ∧ Stacked nodes base rest

/-- The children of an expanded entry are on the stack. -/
structure Traversal (nodes : ι → Option (Node ι)) (base : Option ι) (stack : List (ι × Bool)) :
    Prop where
  stacked : Stacked nodes base stack
  covered : ∀ {id node child}, (id, true) ∈ stack → nodes id = some node →
    child ∈ node.children → child ∈ stack.map Prod.fst

section
variable {nodes nodes' : ι → Option (Node ι)} {base : Option ι} {stack rest : List (ι × Bool)}
  {id child : ι} {expanded : Bool} {node : Node ι}

theorem holder_eq (base : Option ι) (stack : List (ι × Bool)) :
    holder base stack = base ∨ ∃ id, holder base stack = some id ∧ (id, true) ∈ stack := by
  induction stack with
  | nil => exact .inl rfl
  | cons entry rest ih =>
    obtain ⟨id, _ | _⟩ := entry
    · obtain h | ⟨other, h, hmem⟩ := ih
      · exact .inl h
      · exact .inr ⟨other, h, .tail _ hmem⟩
    · exact .inr ⟨id, rfl, .head _⟩

theorem holder_children (base : Option ι) (children : List ι) (rest : List (ι × Bool)) :
    holder base (children.map (fun child => (child, false)) ++ (id, true) :: rest) = some id := by
  induction children with
  | nil => rfl
  | cons _ _ ih => exact ih

/-- The parent of an entry is expanded below it, or the base. -/
theorem Stacked.parent (h : Stacked nodes base stack) (hmem : id ∈ stack.map Prod.fst) :
    ∃ node, nodes id = some node ∧
      (node.parent = base ∨ ∃ owner, node.parent = some owner ∧ (owner, true) ∈ stack) := by
  induction stack with
  | nil => simp at hmem
  | cons entry rest ih =>
    obtain ⟨other, expanded⟩ := entry
    obtain ⟨⟨node, hnode, hparent⟩, _, hrest⟩ := h
    obtain hsame | hin := mem_cons.mp hmem
    · refine ⟨node, (show id = other from hsame) ▸ hnode, ?_⟩
      obtain hbase | ⟨owner, howner, hup⟩ := holder_eq base rest
      · exact .inl (hparent.trans hbase)
      · exact .inr ⟨owner, hparent.trans howner, .tail _ hup⟩
    · obtain ⟨node', hnode', hcases⟩ := ih hrest hin
      refine ⟨node', hnode', hcases.imp_right ?_⟩
      intro hup
      obtain ⟨owner, howner, hin⟩ := hup
      exact ⟨owner, howner, .tail _ hin⟩

theorem Stacked.live (h : Stacked nodes base stack) (hmem : id ∈ stack.map Prod.fst) :
    ∃ node, nodes id = some node := by
  obtain ⟨node, hnode, _⟩ := h.parent hmem
  exact ⟨node, hnode⟩

/-- The base is above all entries. -/
theorem Stacked.rank {rank : ι → Nat} (h : Stacked nodes (some child) stack)
    (hrank : ∀ {child node parent}, nodes child = some node → node.parent = some parent →
      rank parent < rank child) (hmem : id ∈ stack.map Prod.fst) : rank child < rank id := by
  induction stack generalizing id with
  | nil => simp at hmem
  | cons entry rest ih =>
    obtain ⟨other, expanded⟩ := entry
    obtain ⟨⟨node, hnode, hparent⟩, _, hrest⟩ := h
    obtain hsame | hin := mem_cons.mp hmem
    · rw [show id = other from hsame]
      obtain hbase | ⟨owner, howner, hup⟩ := holder_eq (some child) rest
      · exact hrank hnode (hparent.trans hbase)
      · have hless := ih hrest (mem_map_of_mem hup)
        exact lt_trans hless (hrank hnode (hparent.trans howner))
    · exact ih hrest hin

/-- A child of an entry is not below it. -/
theorem Stacked.child_notMem (h : Stacked nodes base ((id, expanded) :: rest))
    (hforest : Forest nodes) (hid : nodes id = some node) (hchild : child ∈ node.children) :
    child ∉ rest.map Prod.fst := by
  intro hmem
  obtain ⟨owner, howner, hparent⟩ := hforest.listed hid hchild
  have hfresh := h.2.1
  have hrest := h.2.2
  obtain ⟨found, hfound, hcases⟩ := hrest.parent hmem
  rw [howner, Option.some.injEq] at hfound
  rw [← hfound, hparent] at hcases
  obtain hbase | ⟨up, hup, hin⟩ := hcases
  · obtain ⟨rank, hrank⟩ := hforest.ranked
    rw [← hbase] at h
    exact absurd (h.rank hrank (show id ∈ _ by simp)) (lt_irrefl _)
  · rw [Option.some.injEq] at hup
    exact hfresh (mem_map.mpr ⟨(up, true), hin, hup.symm⟩)

theorem Traversal.start (hid : nodes id = some node) (hparent : node.parent = base) :
    Traversal nodes base [(id, false)] := by
  refine ⟨⟨⟨node, hid, hparent⟩, not_mem_nil, trivial⟩, ?_⟩
  intro other _ _ hmem; simp at hmem

theorem traversal_nil : Traversal nodes base [] := by
  refine ⟨trivial, ?_⟩
  intro other _ _ hmem; simp at hmem

/-- An unexpanded top stays as expanded, under its children. -/
theorem Traversal.expand (h : Traversal nodes base ((id, false) :: rest))
    (hforest : Forest nodes) (hid : nodes id = some node) {children : List ι}
    (hperm : children.Perm node.children) : Traversal nodes base
      (children.map (fun child => (child, false)) ++ (id, true) :: rest) := by
  have hbottom : Stacked nodes base ((id, true) :: rest) := h.stacked
  have hpush : ∀ pushed : List ι, pushed.Nodup → (∀ child ∈ pushed, child ∈ node.children) →
      Stacked nodes base (pushed.map (fun child => (child, false)) ++ (id, true) :: rest) := by
    intro pushed hnodup hsub
    induction pushed with
    | nil => exact hbottom
    | cons child pushed ih =>
      obtain ⟨hnot, hnodup⟩ := nodup_cons.mp hnodup
      have hchild := hsub child (.head _)
      obtain ⟨node', hnode', hparent⟩ := hforest.listed hid hchild
      refine ⟨⟨node', hnode', ?_⟩, ?_, ih hnodup (fun c hc => hsub c (.tail _ hc))⟩
      · rw [hparent]; exact (holder_children base pushed rest).symm
      · have hne : child ≠ id := by
          intro hsame; exact hforest.ne_parent hnode' hparent hsame
        have hrest := h.stacked.child_notMem hforest hid hchild
        have hpushed : child ∉ (pushed.map fun child => (child, false)).map Prod.fst := by
          simpa using hnot
        intro hmem
        obtain hup | hdown := mem_append.mp (map_append ▸ hmem)
        · exact hpushed hup
        · obtain hsame | hin := mem_cons.mp hdown
          · exact hne hsame
          · exact hrest hin
  refine ⟨hpush children (hperm.nodup_iff.mpr (hforest.nodup hid))
    (fun child hchild => hperm.mem_iff.mp hchild), ?_⟩
  intro other node' child hother hnode' hchild
  have hall : ∀ entry, entry ∈ children ∨ entry ∈ ((id, false) :: rest).map Prod.fst →
      entry ∈ (children.map (fun child => (child, false)) ++ (id, true) :: rest).map Prod.fst := by
    intro entry hentry
    simp only [map_append, map_map, map_cons, mem_append, mem_map] at hentry ⊢
    obtain hentry | hentry := hentry
    · exact .inl ⟨entry, hentry, rfl⟩
    · exact .inr hentry
  apply hall
  simp only [mem_append, mem_map, Prod.mk.injEq, mem_cons] at hother
  obtain ⟨_, _, _, hfalse⟩ | ⟨hsame, _⟩ | hin := hother
  · simp at hfalse
  · rw [hsame, hid, Option.some.injEq] at hnode'
    exact .inl (hperm.mem_iff.mpr (hnode' ▸ hchild))
  · exact .inr (h.covered (.tail _ hin) hnode' hchild)

/-- When an expanded entry is on top, its children are gone. -/
theorem Traversal.leaf (h : Traversal nodes base ((id, true) :: rest)) (hforest : Forest nodes)
    (hid : nodes id = some node) : node.children = [] := by
  apply eq_nil_iff_forall_not_mem.mpr
  intro child hchild
  obtain ⟨node', hnode', hparent⟩ := hforest.listed hid hchild
  have hmem := h.covered (.head _) hid hchild
  obtain hsame | hin := mem_cons.mp hmem
  · exact hforest.ne_parent hnode' hparent hsame
  · exact h.stacked.child_notMem hforest hid hchild hin

/-- The top is removed: the other nodes keep their parents and lose at most it. -/
theorem Traversal.remove (h : Traversal nodes base ((id, true) :: rest))
    (hsame : ∀ {other node}, other ≠ id → nodes other = some node →
      ∃ node', nodes' other = some node' ∧ node'.parent = node.parent ∧
        ∀ child ∈ node'.children, child ∈ node.children ∧ child ≠ id) :
    Traversal nodes' base rest := by
  obtain ⟨_, hfresh, hstacked⟩ := h.stacked
  have hne : ∀ other, other ∈ rest.map Prod.fst → other ≠ id := by
    intro other hother hid; exact hfresh (hid ▸ hother)
  have hkeep : ∀ below : List (ι × Bool), (∀ other ∈ below.map Prod.fst, other ≠ id) →
      Stacked nodes base below → Stacked nodes' base below := by
    intro below hbelow hold
    induction below with
    | nil => trivial
    | cons entry below ih =>
      obtain ⟨other, expanded⟩ := entry
      obtain ⟨⟨node, hnode, hparent⟩, hnot, hrest⟩ := hold
      obtain ⟨node', hnode', hup, _⟩ := hsame (hbelow other (by simp)) hnode
      exact ⟨⟨node', hnode', hup.trans hparent⟩, hnot, ih (fun x hx => hbelow x (.tail _ hx)) hrest⟩
  refine ⟨hkeep rest hne hstacked, ?_⟩
  intro other node' child hother hnode' hchild
  have hin : other ∈ rest.map Prod.fst := mem_map_of_mem hother
  obtain ⟨node, hnode⟩ := hstacked.live hin
  obtain ⟨found, hfound, _, hsub⟩ := hsame (hne other hin) hnode
  rw [hnode', Option.some.injEq] at hfound
  obtain ⟨hchild', hchildne⟩ := hsub child (hfound ▸ hchild)
  obtain hid | hmem := mem_cons.mp (h.covered (.tail _ hother) hnode hchild')
  · exact absurd hid hchildne
  · exact hmem

end

/-! ## The end of a traversal -/

section
variable {nodes nodes' : Nat → Option (Node Nat)} {base : Option Nat}
  {stack rest : List (Nat × Bool)} {id limit : Nat} {node : Node Nat} {children : List Nat}

/-- The nodes left, and those of them not expanded. -/
def effort (nodes : Nat → Option (Node Nat)) (limit : Nat) (stack : List (Nat × Bool)) : Nat :=
  ((Finset.range limit).filter fun id => (nodes id).isSome).card +
    ((Finset.range limit).filter fun id => (nodes id).isSome ∧ (id, true) ∉ stack).card

theorem effort_expand (h : Traversal nodes base ((id, false) :: rest)) (hid : nodes id = some node)
    (hlimit : id < limit) :
    effort nodes limit (children.map (fun child => (child, false)) ++ (id, true) :: rest) <
      effort nodes limit ((id, false) :: rest) := by
  apply Nat.add_lt_add_left
  apply Finset.card_lt_card
  refine Finset.ssubset_iff_of_subset ?_ |>.mpr ⟨id, ?_, ?_⟩
  · grind
  · have hfresh := h.stacked.2.1
    simp only [Finset.mem_filter, Finset.mem_range, hid, Option.isSome_some, true_and,
      mem_cons, Prod.mk.injEq, Bool.true_eq_false, false_or]
    exact ⟨hlimit, fun hmem => hfresh (mem_map_of_mem hmem)⟩
  · simp

theorem effort_remove (hid : nodes id = some node) (hlimit : id < limit) (hgone : nodes' id = none)
    (hsub : ∀ other, (nodes' other).isSome → (nodes other).isSome) :
    effort nodes' limit rest < effort nodes limit ((id, true) :: rest) := by
  apply Nat.add_lt_add_of_lt_of_le
  · apply Finset.card_lt_card
    refine Finset.ssubset_iff_of_subset ?_ |>.mpr ⟨id, ?_, ?_⟩
    · intro other hother; grind
    · simp [hid, hlimit]
    · simp [hgone]
  · apply Finset.card_le_card
    intro other hother; grind

end

end Loom.Forests
