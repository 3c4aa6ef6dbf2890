import Mathlib.Data.List.Basic
import Mathlib.Data.List.Perm.Basic
import Mathlib.Tactic.Common

/-
  The simultaneous replacement of some spans of a list.

  Every span counts in the list as it was. `splice` says for every index what stands there
  afterwards, whatever the order of the splices; `sequential` goes through splices that
  are in order, from left to right.
-/

namespace Loom.Splices

open List Option

variable {α β : Type}

/-- Instead of what stands from `start` to `stop`, the items. -/
structure Splice (α : Type) where
  start : Nat
  stop : Nat
  items : List α

/-- The items that are put in front of an index. -/
def inserted (splices : List (Splice α)) (index : Nat) : List α :=
  splices.flatMap fun splice => if splice.start = index then splice.items else []

def covered (splices : List (Splice α)) (index : Nat) : Bool :=
  splices.any fun splice => splice.start ≤ index && index < splice.stop

/-- What stands for an index once all splices are done. -/
def pieceAt (source : List α) (splices : List (Splice α)) (index : Nat) : List α :=
  inserted splices index ++ if covered splices index then [] else source[index]?.toList

def splice (source : List α) (splices : List (Splice α)) : List α :=
  (range' 0 (source.length + 1)).flatMap (pieceAt source splices)

/-- The splices one after the other, behind an offset. -/
def sequential (source : List α) : Nat → List (Splice α) → List α
  | offset, [] => source.drop offset
  | offset, first :: rest =>
    (source.drop offset).take (first.start - offset) ++ first.items ++
      sequential source first.stop rest

/-- Spans of a list with `size` entries, in order behind an offset: none begins in another
    one, and no two begin at the same place. -/
def Ordered (size : Nat) : Nat → List (Splice α) → Prop
  | offset, [] => offset ≤ size
  | offset, first :: rest => offset ≤ first.start ∧ first.start ≤ first.stop ∧
      (∀ later ∈ rest, first.start < later.start) ∧ Ordered size first.stop rest

/-! ## Splices in order -/

theorem inserted_cons (first : Splice α) (rest : List (Splice α)) (index : Nat) :
    inserted (first :: rest) index =
      (if first.start = index then first.items else []) ++ inserted rest index := flatMap_cons

variable {splices : List (Splice α)} {index size offset : Nat} {source : List α}
  {rest : List (Splice α)} {first : Splice α} {origin : Nat}

theorem inserted_of_ne (h : ∀ splice ∈ splices, splice.start ≠ index) :
    inserted splices index = [] := by
  refine flatMap_eq_nil_iff.mpr fun splice hmem => ?_
  rw [if_neg (h splice hmem)]

theorem covered_cons (first : Splice α) (rest : List (Splice α)) (index : Nat) :
    covered (first :: rest) index =
      ((first.start ≤ index && index < first.stop) || covered rest index) := any_cons

theorem covered_of_before (h : ∀ splice ∈ splices, index < splice.start) :
    covered splices index = false := by
  refine any_eq_false.mpr fun splice hmem => ?_
  have := h splice hmem
  simp [Nat.not_le.mpr this]

theorem Ordered.le_size (h : Ordered size offset splices) : offset ≤ size := by
  induction splices generalizing offset with
  | nil => exact h
  | cons first rest ih =>
    obtain ⟨hstart, hspan, -, hrest⟩ := h
    exact Nat.le_trans hstart (Nat.le_trans hspan (ih hrest))

theorem Ordered.le_start (h : Ordered size offset splices) :
    ∀ splice ∈ splices, offset ≤ splice.start := by
  induction splices generalizing offset with
  | nil => exact fun splice hmem => absurd hmem not_mem_nil
  | cons first rest ih =>
    obtain ⟨hstart, hspan, -, hrest⟩ := h
    intro splice hmem
    obtain rfl | hlater := mem_cons.mp hmem
    · exact hstart
    · exact Nat.le_trans hstart (Nat.le_trans hspan (ih hrest splice hlater))

/-- Entries that no splice touches stay. -/
theorem pieces_kept (count : Nat) : ∀ offset, (∀ splice ∈ splices, offset + count ≤ splice.start) →
    (range' offset count).flatMap (pieceAt source splices) =
      (source.drop offset).take count := by
  induction count with
  | zero =>
    intro offset h; rfl
  | succ count ih =>
    intro offset h
    have hins : inserted splices offset = [] :=
      inserted_of_ne fun splice hmem => by have := h splice hmem; omega
    have hcov : covered splices offset = false :=
      covered_of_before fun splice hmem => by have := h splice hmem; omega
    have hpiece : pieceAt source splices offset = source[offset]?.toList := by
      rw [pieceAt, hins, hcov, if_neg Bool.false_ne_true, nil_append]
    have hrest := ih (offset + 1) fun splice hmem => by have := h splice hmem; omega
    rw [range'_succ, flatMap_cons, hpiece, hrest, ← drop_drop]
    cases hdrop : source.drop offset with
    | nil =>
      rw [drop_eq_nil_iff] at hdrop
      rw [getElem?_eq_none hdrop, drop_nil, take_nil]; rfl
    | cons value tail =>
      have hget : source[offset]? = some value := by
        have hhead := head?_drop (l := source) (i := offset)
        rw [hdrop] at hhead; exact hhead.symm
      rw [hget]; rfl

/-- Behind its span a splice does nothing. -/
theorem pieceAt_behind (hstart : first.start < index) (hstop : first.stop ≤ index) :
    pieceAt source (first :: rest) index = pieceAt source rest index := by
  have hcov : (decide (first.start ≤ index) && decide (index < first.stop)) = false := by
    simp [Nat.not_lt.mpr hstop]
  rw [pieceAt, pieceAt, inserted_cons, if_neg (Nat.ne_of_lt hstart), nil_append,
    covered_cons, hcov, Bool.false_or]

/-- In its span a splice puts its items, and takes what stood there. -/
theorem pieces_replaced (hspan : first.start < first.stop)
    (hrest : ∀ later ∈ rest, first.stop ≤ later.start) :
    (range' first.start (first.stop - first.start)).flatMap (pieceAt source (first :: rest)) =
      first.items := by
  obtain ⟨count, hcount⟩ : ∃ count, first.stop = first.start + (count + 1) :=
    ⟨first.stop - first.start - 1, by omega⟩
  have hinside : ∀ index, first.start ≤ index → index < first.stop →
      pieceAt source (first :: rest) index = if first.start = index then first.items else [] := by
    intro index hlow hhigh
    have hins : inserted rest index = [] :=
      inserted_of_ne fun later hmem => by have := hrest later hmem; omega
    rw [pieceAt, inserted_cons, hins, covered_cons]; simp [hlow, hhigh]
  have hrest : (range' (first.start + 1) count).flatMap (pieceAt source (first :: rest)) =
      [] := by
    refine flatMap_eq_nil_iff.mpr fun index hmem => ?_
    obtain ⟨hlow, hhigh⟩ := mem_range'_1.mp hmem
    rw [hinside index (by omega) (by omega), if_neg (by omega)]
  rw [hcount, Nat.add_sub_cancel_left, range'_succ, flatMap_cons, hrest,
    hinside _ (Nat.le_refl _) (by omega), if_pos rfl, append_nil]

theorem pieces_eq (h : Ordered source.length offset splices) :
    (range' offset (source.length + 1 - offset)).flatMap (pieceAt source splices) =
      sequential source offset splices := by
  induction splices generalizing offset with
  | nil =>
    have hkept : (range' offset (source.length + 1 - offset)).flatMap (pieceAt source []) =
        (source.drop offset).take (source.length + 1 - offset) := pieces_kept _ offset nofun
    rw [hkept, sequential, take_of_length_le (by rw [length_drop]; omega)]
  | cons first rest ih =>
    obtain ⟨hstart, hspan, hlater, hrest⟩ := h
    have hsize := hrest.le_size
    have hbehind := hrest.le_start
    have hsplit : source.length + 1 - offset =
        (first.start - offset) + (source.length + 1 - first.start) := by omega
    have hfront : (range' offset (first.start - offset)).flatMap
        (pieceAt source (first :: rest)) = (source.drop offset).take (first.start - offset) := by
      refine pieces_kept _ offset fun splice hmem => ?_
      obtain rfl | hmem := mem_cons.mp hmem
      · omega
      · have := hlater splice hmem
        omega
    have hback : (range' first.start (source.length + 1 - first.start)).flatMap
        (pieceAt source (first :: rest)) = first.items ++ sequential source first.stop rest := by
      rw [← ih hrest]
      obtain hempty | hlonger := Nat.eq_or_lt_of_le hspan
      · -- an insertion: its place is the first one of what follows
        obtain ⟨count, hcount⟩ : ∃ count, source.length + 1 - first.start = count + 1 :=
          ⟨source.length - first.start, by omega⟩
        have hhere : pieceAt source (first :: rest) first.start =
            first.items ++ pieceAt source rest first.start := by
          rw [pieceAt, pieceAt, inserted_cons, covered_cons]; simp [hempty]
        have hmore : ∀ index ∈ range' (first.start + 1) count,
            pieceAt source (first :: rest) index = pieceAt source rest index := by
          intro index hmem
          have hlow := (mem_range'_1.mp hmem).1
          exact pieceAt_behind (by omega) (by omega)
        rw [← hempty, hcount, range'_succ, flatMap_cons, flatMap_cons, hhere,
          flatMap_congr hmore, append_assoc]
      · have hcut : source.length + 1 - first.start =
            (first.stop - first.start) + (source.length + 1 - first.stop) := by omega
        have hplace : first.start + (first.stop - first.start) = first.stop := by omega
        have hmore : ∀ index ∈ range' first.stop (source.length + 1 - first.stop),
            pieceAt source (first :: rest) index = pieceAt source rest index := by
          intro index hmem
          have hlow := (mem_range'_1.mp hmem).1
          exact pieceAt_behind (by omega) hlow
        rw [hcut, ← range'_append_1, flatMap_append, hplace,
          pieces_replaced hlonger hbehind, flatMap_congr hmore]
    have hplace : offset + (first.start - offset) = first.start := by omega
    rw [hsplit, ← range'_append_1, flatMap_append, hplace, hfront, hback, sequential, append_assoc]

theorem splice_eq (h : Ordered source.length 0 splices) :
    splice source splices = sequential source 0 splices := pieces_eq h

/-! ## The order in which splices are given -/

theorem inserted_eq (splices : List (Splice α)) (index : Nat) : inserted splices index =
      (splices.filter fun splice => splice.start = index).flatMap Splice.items := by
  induction splices with
  | nil => rfl
  | cons first rest ih =>
    rw [inserted_cons, ih]
    by_cases hstart : first.start = index
    · rw [if_pos hstart, filter_cons_of_pos (by simpa using hstart), flatMap_cons]
    · rw [if_neg hstart, filter_cons_of_neg (by simpa using hstart), nil_append]

/-- At one place at most one splice starts. -/
theorem filter_start (h : splices.Pairwise fun left right => left.start ≠ right.start) (index : Nat) :
    (splices.filter fun splice => splice.start = index).length ≤ 1 := by
  have hpair := h.filter (fun splice => splice.start = index)
  match hfilter : splices.filter fun splice => splice.start = index with
  | [] => rw [hfilter]; exact Nat.zero_le 1
  | [_] => rw [hfilter]; exact Nat.le_refl 1
  | left :: right :: rest =>
    rw [hfilter] at hpair
    have hmem : ∀ splice ∈ left :: right :: rest, splice.start = index := by
      intro splice hsplice
      rw [← hfilter] at hsplice
      simpa using (mem_filter.mp hsplice).2
    have hne := rel_of_pairwise_cons hpair (mem_cons_self (a := right) (l := rest))
    exact absurd ((hmem left (by simp)).trans (hmem right (by simp)).symm) hne

theorem eq_of_perm_of_length_le_one {left right : List α} (h : left.Perm right)
    (hlength : left.length ≤ 1) : left = right := by
  match left with
  | [] => exact (perm_nil.mp h.symm).symm
  | [_] => exact (perm_singleton.mp h.symm).symm
  | _ :: _ :: _ => simp at hlength

theorem splice_perm {others : List (Splice α)} (source : List α) (h : splices.Perm others)
    (hdistinct : splices.Pairwise fun left right => left.start ≠ right.start) :
    splice source splices = splice source others := by
  have hpiece : pieceAt source splices = pieceAt source others := by
    funext index
    have hfilter := eq_of_perm_of_length_le_one
      (h.filter fun splice => splice.start = index) (filter_start hdistinct index)
    have hcovered : covered splices index = covered others index := h.any_eq
    rw [pieceAt, pieceAt, inserted_eq, inserted_eq, hfilter, hcovered]
  rw [splice, splice, hpiece]

/-! ## Where entries come from -/

/-- What is put in has no origin. -/
def Splice.blank (splice : Splice α) : Splice (Option Nat) :=
  { start := splice.start, stop := splice.stop, items := splice.items.map fun _ => none }

/-- For every entry of the result the index that it had, with the end as one more entry. -/
def origins (size : Nat) (splices : List (Splice α)) : List (Option Nat) :=
  splice ((range (size + 1)).map some) (splices.map Splice.blank)

theorem Ordered.blank (h : Ordered size offset splices) :
    Ordered (size + 1) offset (splices.map Splice.blank) := by
  induction splices generalizing offset with
  | nil => exact Nat.le_succ_of_le h
  | cons first rest ih =>
    obtain ⟨hstart, hspan, hlater, hrest⟩ := h
    refine ⟨hstart, hspan, ?_, ih hrest⟩
    intro later hmem
    obtain ⟨original, horiginal, rfl⟩ := mem_map.mp hmem
    exact hlater original horiginal

theorem origins_eq (h : Ordered size 0 splices) : origins size splices =
      sequential ((range (size + 1)).map some) 0 (splices.map Splice.blank) := by
  refine splice_eq ?_
  rw [length_map, length_range]; exact h.blank

theorem getElem?_indices
    (h : (((range (size + 1)).map some).drop offset)[index]? = some (some origin)) :
    origin = offset + index ∧ origin ≤ size := by
  rw [getElem?_drop, getElem?_map] at h
  obtain ⟨value, hvalue, hsome⟩ := map_eq_some_iff.mp h
  obtain ⟨hlt, heq⟩ := List.getElem?_eq_some_iff.mp hvalue
  rw [getElem_range] at heq
  rw [length_range] at hlt
  have horigin := some.inj hsome
  omega

/-- An entry of splices in order stands before the first of them, or behind its items. -/
theorem sequential_origin (hspan : Ordered size offset (first :: rest))
    (h : (sequential ((range (size + 1)).map some) offset
      ((first :: rest).map Splice.blank))[index]? = some (some origin)) :
    (index < first.start - offset ∧ origin = offset + index) ∨
      ∃ more, index = first.start - offset + first.items.length + more ∧
        (sequential ((range (size + 1)).map some) first.stop
          (rest.map Splice.blank))[more]? = some (some origin) := by
  obtain ⟨hstart, hstop, -, hrest⟩ := hspan
  have hsize := hrest.le_size
  generalize hkept : (((range (size + 1)).map some).drop offset).take (first.start - offset) =
    kept
  generalize hblanks : first.items.map (fun _ => (none : Option Nat)) = blanks
  have hlength : kept.length = first.start - offset := by
    rw [← hkept, length_take, length_drop, length_map, length_range]; omega
  have hcount : blanks.length = first.items.length := by rw [← hblanks, length_map]
  have hall : (kept ++ blanks ++ sequential ((range (size + 1)).map some) first.stop
      (rest.map Splice.blank))[index]? = some (some origin) := by
    rw [← hkept, ← hblanks]; exact h
  by_cases hbefore : index < first.start - offset
  · rw [append_assoc, getElem?_append_left (by omega), ← hkept,
      getElem?_take_of_lt hbefore] at hall
    exact .inl ⟨hbefore, (getElem?_indices hall).1⟩
  · by_cases hitems : index < first.start - offset + first.items.length
    · -- what was put in has no origin
      rw [append_assoc, getElem?_append_right (by omega),
        getElem?_append_left (by omega), ← hblanks, getElem?_map] at hall
      obtain ⟨_, _, hnone⟩ := map_eq_some_iff.mp hall
      cases hnone
    · refine .inr ⟨index - (first.start - offset + first.items.length), by omega, ?_⟩
      rwa [getElem?_append_right (by rw [length_append]; omega), length_append,
        hlength, hcount] at hall

/-! ## Going back -/

/-- From a position of the result back to the source: `delta` is how much longer the result
    has become so far. Inside the items of a splice there is no way back. -/
def traceBack (position : Int) : Int → List (Splice α) → Option Int
  | delta, [] => some (position - delta)
  | delta, first :: rest =>
    if position ≤ first.start + delta then some (position - delta)
    else if position < first.start + delta + first.items.length then none
    else traceBack position (delta + first.items.length - (first.stop - first.start)) rest

/-- `origin` is reached from `index` by leaving out what was removed without replacement:
    `index` is where the removal begins, or `origin` where none stands in front of it. -/
structure Removed (splices : List (Splice α)) (index origin : Nat) : Prop where
  le : index ≤ origin
  begins : index = origin ∨ ∃ splice ∈ splices, splice.start = index ∧ splice.items = []
  first : ∀ splice ∈ splices, splice.items = [] → splice.start < splice.stop →
    splice.stop = index → ∃ other ∈ splices, other.start = index ∧ other.items ≠ []
  gone : ∀ place, index ≤ place → place < origin →
    ∃ splice ∈ splices, splice.items = [] ∧ splice.start ≤ place ∧ place < splice.stop
  empty : index < origin → ∀ splice ∈ splices, index ≤ splice.start → splice.start ≤ origin →
    splice.items = []

/-- A position in front of all splices. -/
theorem Removed.refl (index : Nat) (h : ∀ splice ∈ splices, index < splice.stop) :
    Removed splices index index :=
  ⟨Nat.le_refl _, .inl rfl, fun splice hmem _ _ hstop => absurd hstop (Nat.ne_of_gt (h splice hmem)),
    fun _ _ _ => by omega, fun h => absurd h (Nat.lt_irrefl _)⟩

theorem Ordered.stop_le (h : Ordered size offset splices) {splice : Splice α}
    (hmem : splice ∈ splices) : offset ≤ splice.start ∧ splice.start ≤ splice.stop := by
  induction splices generalizing offset with
  | nil => exact absurd hmem not_mem_nil
  | cons first rest ih =>
    obtain ⟨hstart, hstop, -, hrest⟩ := h
    obtain rfl | hmem := mem_cons.mp hmem
    · exact ⟨hstart, hstop⟩
    · obtain ⟨hlow, hhigh⟩ := ih hrest hmem
      exact ⟨by omega, hhigh⟩

/-- What comes first behind an offset is reached from there by leaving out what was removed. -/
theorem removed_head (hordered : Ordered size offset splices)
    (h : (sequential ((range (size + 1)).map some) offset
      (splices.map Splice.blank))[0]? = some (some origin)) : offset ≤ origin ∧
      (∀ place, offset ≤ place → place < origin →
        ∃ splice ∈ splices, splice.items = [] ∧ splice.start ≤ place ∧ place < splice.stop) ∧
      ∀ splice ∈ splices, splice.start ≤ origin → splice.items = [] := by
  induction splices generalizing offset with
  | nil =>
    obtain ⟨rfl, -⟩ := getElem?_indices h
    refine ⟨Nat.le_refl _, fun _ _ _ => by omega, fun splice hmem => ?_⟩
    exact absurd hmem not_mem_nil
  | cons first rest ih =>
    obtain ⟨hstart, hstop, hlater, hrest⟩ := hordered
    obtain ⟨hbefore, rfl⟩ | ⟨more, hindex, hmore⟩ :=
      sequential_origin ⟨hstart, hstop, hlater, hrest⟩ h
    · refine ⟨Nat.le_refl _, fun _ _ _ => by omega, fun splice hmem hle => ?_⟩
      obtain rfl | hmem := mem_cons.mp hmem
      · omega
      · have := hlater splice hmem
        omega
    · obtain rfl : more = 0 := by omega
      obtain ⟨hle, hgone, hempty⟩ := ih hrest hmore
      have hnothing : first.items = [] := length_eq_zero_iff.mp (by omega)
      refine ⟨by omega, ?_, ?_⟩
      · intro place hlow hhigh
        by_cases hfirst : place < first.stop
        · exact ⟨first, .head _, hnothing, by omega, hfirst⟩
        · obtain ⟨splice, hmem, hin⟩ := hgone place (by omega) hhigh
          exact ⟨splice, .tail _ hmem, hin⟩
      · intro splice hmem hle'
        obtain rfl | hmem := mem_cons.mp hmem
        · exact hnothing
        · exact hempty splice hmem hle'

theorem traceBack_sequential (hordered : Ordered size offset splices)
    (h : (sequential ((range (size + 1)).map some) offset
      (splices.map Splice.blank))[index]? = some (some origin)) (delta : Int) :
    ∃ back : Nat, traceBack (offset + delta + index) delta splices = some (back : Int) ∧
      offset ≤ back ∧ Removed splices back origin ∧
      (back = offset → index ≠ 0 → ∃ splice ∈ splices, splice.start = offset ∧ splice.items ≠ []) := by
  induction splices generalizing offset index delta with
  | nil =>
    obtain ⟨rfl, -⟩ := getElem?_indices h
    refine ⟨offset + index, ?_, Nat.le_add_right _ _, Removed.refl _ ?_, fun _ _ => by omega⟩
    · rw [traceBack, some.injEq]; omega
    · intro splice hmem
      exact absurd hmem not_mem_nil
  | cons first rest ih =>
    obtain ⟨hstart, hstop, hlater, hrest⟩ := hordered
    obtain ⟨hbefore, rfl⟩ | ⟨more, rfl, hmore⟩ := sequential_origin ⟨hstart, hstop, hlater, hrest⟩ h
    · refine ⟨offset + index, ?_, Nat.le_add_right _ _, Removed.refl _ ?_, fun _ _ => by omega⟩
      · rw [traceBack, if_pos (by omega), some.injEq]; omega
      · intro splice hmem
        obtain rfl | hmem := mem_cons.mp hmem
        · omega
        · have hle := hrest.stop_le hmem
          omega
    · rw [traceBack]
      by_cases hplace : first.items.length + more = 0
      · -- nothing stands between: the way back stops where the removal began
        obtain rfl : more = 0 := by omega
        have hnothing : first.items = [] := length_eq_zero_iff.mp (by omega)
        obtain ⟨hle, hgone, hempty⟩ := removed_head hrest hmore
        refine ⟨first.start, ?_, hstart, ⟨by omega, .inr ⟨first, .head _, rfl, hnothing⟩, ?_, ?_, ?_⟩,
          fun _ _ => by omega⟩
        · rw [if_pos (by omega), some.injEq]; omega
        · intro splice hmem _ hlt hsame
          obtain rfl | hmem := mem_cons.mp hmem
          · omega
          · have hle := hrest.stop_le hmem
            omega
        · intro place hlow hhigh
          by_cases hfirst : place < first.stop
          · exact ⟨first, .head _, hnothing, hlow, hfirst⟩
          · obtain ⟨splice, hmem, hin⟩ := hgone place (by omega) hhigh
            exact ⟨splice, .tail _ hmem, hin⟩
        · intro _ splice hmem _ hle'
          obtain rfl | hmem := mem_cons.mp hmem
          · exact hnothing
          · exact hempty splice hmem hle'
      · obtain ⟨back, hback, hrest'⟩ :=
          ih hrest hmore (delta + first.items.length - (first.stop - first.start))
        refine ⟨back, ?_, ?_⟩
        · rw [if_neg (by omega), if_neg (by omega), ← hback]
          congr 1
          omega
        obtain ⟨hle, ⟨hremoved, hbegins, hfirst, hgone, hitems⟩, hbehind⟩ := hrest'
        refine ⟨Nat.le_trans hstart (Nat.le_trans hstop hle), ⟨hremoved, ?_, ?_, ?_, ?_⟩, ?_⟩
        · obtain hsame | ⟨splice, hmem, hin⟩ := hbegins
          · exact .inl hsame
          · exact .inr ⟨splice, .tail _ hmem, hin⟩
        · intro splice hmem hnothing hlt hsame
          obtain rfl | hmem := mem_cons.mp hmem
          · -- what stands between is put in right behind the removal
            rw [hnothing, length_nil, Nat.zero_add] at hplace
            obtain ⟨other, hother, hin⟩ := hbehind hsame.symm hplace
            exact ⟨other, .tail _ hother, hsame ▸ hin⟩
          · obtain ⟨other, hother, hin⟩ := hfirst splice hmem hnothing hlt hsame
            exact ⟨other, .tail _ hother, hin⟩
        · intro place hlow hhigh
          obtain ⟨splice, hmem, hin⟩ := hgone place hlow hhigh
          exact ⟨splice, .tail _ hmem, hin⟩
        · intro hlt splice hmem hlow hhigh
          obtain rfl | hmem := mem_cons.mp hmem
          · -- an insertion where a later removal would have to begin too
            obtain ⟨later, hmem, -, hfrom, -⟩ := hgone back (Nat.le_refl _) hlt
            have := hlater later hmem
            omega
          · exact hitems hlt splice hmem hlow hhigh
        · intro hsame _
          by_cases hnothing : first.items = []
          · rw [hnothing, length_nil, Nat.zero_add] at hplace
            obtain ⟨other, hother, hin, -⟩ := hbehind (by omega) hplace
            have := hlater other hother
            omega
          · exact ⟨first, .head _, by omega, hnothing⟩

theorem traceBack_spec (hordered : Ordered size 0 splices)
    (h : (origins size splices)[index]? = some (some origin)) :
    ∃ back : Nat, traceBack index 0 splices = some (back : Int) ∧ Removed splices back origin := by
  rw [origins_eq hordered] at h
  obtain ⟨back, hback, -, hremoved, -⟩ := traceBack_sequential hordered h 0
  refine ⟨back, ?_, hremoved⟩
  rwa [Int.natCast_zero, Int.zero_add, Int.zero_add] at hback

end Loom.Splices
