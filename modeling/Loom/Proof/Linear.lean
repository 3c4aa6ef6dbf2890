import Loom.Proof.Numbers

/- Linear expressions over symbols (`proof/model.loom`, `proof/linear.loom`):
   a constant and terms with strictly increasing symbol ids and nonzero
   factors. The record carries both facts, so a linear expression is canonical
   wherever it occurs and `sameTerms` decides equality of the term lists.

   `add` and `scale` keep the invariant and denote the sum and the product
   under every assignment of integers to the symbols (`eval_add`,
   `eval_scale`). -/
namespace Loom.Proof

open List Number

structure Term where
  id : Int
  factor : Number
  deriving DecidableEq

structure Linear where
  constant : Number
  terms : List Term
  ordered : terms.Pairwise (fun a b => a.id < b.id)
  nonzero : ∀ t ∈ terms, t.factor.digits ≠ []
  deriving DecidableEq

/-- What a term list denotes when symbol `i` has the value `f i`. -/
def evalTerms (f : Int → Int) : List Term → Int
  | [] => 0
  | t :: ts => t.factor.toInt * f t.id + evalTerms f ts

namespace Linear

def eval (f : Int → Int) (l : Linear) : Int := l.constant.toInt + evalTerms f l.terms

theorem ext_terms {a b : Linear} (hc : a.constant = b.constant) (ht : a.terms = b.terms) :
    a = b := by
  obtain ⟨_, _, _, _⟩ := b
  subst hc ht; rfl

/-- The expression without symbols. -/
def ofConstant (value : Number) : Linear where
  constant := value
  terms := []
  ordered := .nil
  nonzero := by simp

@[simp] theorem eval_ofConstant (f : Int → Int) (value : Number) :
    (ofConstant value).eval f = value.toInt := by
  simp [eval, ofConstant, evalTerms]

/-- One symbol with factor one. -/
def ofVariable (index : Int) : Linear where
  constant := integer 0
  terms := [⟨index, integer 1⟩]
  ordered := by simp
  nonzero := by
    intro t ht
    rw [List.mem_singleton.mp ht, ne_eq, digits_eq_nil, toInt_integer]
    decide

@[simp] theorem eval_ofVariable (f : Int → Int) (index : Int) : (ofVariable index).eval f = f index := by
  simp [eval, ofVariable, evalTerms]

/-! ## Addition -/

/-- Append a term unless its factor is zero. -/
def pushTerm (id : Int) (factor : Number) (rest : List Term) : List Term :=
  if factor.digits.isEmpty then rest else ⟨id, factor⟩ :: rest

/-- The merge of two term lists by symbol id. A side that does not hold the
smaller id contributes the zero factor. -/
def addTerms : List Term → List Term → List Term
  | [], [] => []
  | a :: as, [] => pushTerm a.id a.factor (addTerms as [])
  | [], b :: bs => pushTerm b.id (sum (integer 0) b.factor) (addTerms [] bs)
  | a :: as, b :: bs =>
    if a.id < b.id then pushTerm a.id a.factor (addTerms as (b :: bs))
    else if b.id < a.id then
      pushTerm b.id (sum (integer 0) b.factor) (addTerms (a :: as) bs)
    else pushTerm a.id (sum a.factor b.factor) (addTerms as bs)
termination_by as bs => as.length + bs.length

theorem eval_pushTerm (f : Int → Int) (id : Int) (factor : Number) (rest : List Term) :
    evalTerms f (pushTerm id factor rest) = factor.toInt * f id + evalTerms f rest := by
  unfold pushTerm
  split
  · rename_i h
    simp [factor.digits_eq_nil.mp (by simpa using h)]
  · rfl

theorem eval_addTerms (f : Int → Int) (as bs : List Term) :
    evalTerms f (addTerms as bs) = evalTerms f as + evalTerms f bs := by
  induction as, bs using addTerms.induct with
  | case1 => simp [addTerms, evalTerms]
  | case2 a as ih => simp only [addTerms, eval_pushTerm, ih, evalTerms]; ring
  | case3 b bs ih =>
    simp only [addTerms, eval_pushTerm, ih, evalTerms, toInt_sum, toInt_integer]
    ring
  | case4 a as b bs h ih => simp only [addTerms, if_pos h, eval_pushTerm, ih, evalTerms]; ring
  | case5 a as b bs h h' ih =>
    simp only [addTerms, if_neg h, if_pos h', eval_pushTerm, ih, evalTerms, toInt_sum,
      toInt_integer]
    ring
  | case6 a as b bs h h' ih =>
    have hid : b.id = a.id := by omega
    simp only [addTerms, if_neg h, if_neg h', eval_pushTerm, ih, evalTerms, toInt_sum]
    rw [hid]
    ring

variable {id : Int} {rest : List Term} {factor : Number} {low : Int}

theorem nonzero_pushTerm (h : ∀ t ∈ rest, t.factor.digits ≠ []) :
    ∀ t ∈ pushTerm id factor rest, t.factor.digits ≠ [] := by
  unfold pushTerm
  split
  · exact h
  · rename_i hne
    intro t ht
    rcases mem_cons.mp ht with rfl | ht
    · simpa using hne
    · exact h t ht

theorem nonzero_addTerms (as bs : List Term) : ∀ t ∈ addTerms as bs, t.factor.digits ≠ [] := by
  induction as, bs using addTerms.induct with
  | case1 => simp [addTerms]
  | case2 a as ih => rw [addTerms]; exact nonzero_pushTerm ih
  | case3 b bs ih => rw [addTerms]; exact nonzero_pushTerm ih
  | case4 a as b bs h ih => rw [addTerms, if_pos h]; exact nonzero_pushTerm ih
  | case5 a as b bs h h' ih => rw [addTerms, if_neg h, if_pos h']; exact nonzero_pushTerm ih
  | case6 a as b bs h h' ih => rw [addTerms, if_neg h, if_neg h']; exact nonzero_pushTerm ih

/-- Ids above `low` throughout. -/
def Above (low : Int) (ts : List Term) : Prop := ∀ t ∈ ts, low < t.id

theorem above_pushTerm (hid : low < id) (h : Above low rest) :
    Above low (pushTerm id factor rest) := by
  unfold pushTerm
  split
  · exact h
  · intro t ht
    rcases mem_cons.mp ht with rfl | ht
    · exact hid
    · exact h t ht

theorem above_addTerms (as bs : List Term) (ha : Above low as) (hb : Above low bs) :
    Above low (addTerms as bs) := by
  induction as, bs using addTerms.induct with
  | case1 => simp [addTerms, Above]
  | case2 a as ih =>
    rw [addTerms]
    exact above_pushTerm (ha a (by simp)) (ih (fun t ht => ha t (by simp [ht])) hb)
  | case3 b bs ih =>
    rw [addTerms]
    exact above_pushTerm (hb b (by simp)) (ih ha (fun t ht => hb t (by simp [ht])))
  | case4 a as b bs h ih =>
    rw [addTerms, if_pos h]
    exact above_pushTerm (ha a (by simp)) (ih (fun t ht => ha t (by simp [ht])) hb)
  | case5 a as b bs h h' ih =>
    rw [addTerms, if_neg h, if_pos h']
    exact above_pushTerm (hb b (by simp)) (ih ha (fun t ht => hb t (by simp [ht])))
  | case6 a as b bs h h' ih =>
    rw [addTerms, if_neg h, if_neg h']
    exact above_pushTerm (ha a (by simp))
      (ih (fun t ht => ha t (by simp [ht])) (fun t ht => hb t (by simp [ht])))

/-- Strictly increasing symbol ids. -/
def Ordered (ts : List Term) : Prop := ts.Pairwise (fun a b => a.id < b.id)

theorem ordered_pushTerm (h : Above id rest) (ho : Ordered rest) :
    Ordered (pushTerm id factor rest) := by
  unfold pushTerm
  split
  · exact ho
  · exact pairwise_cons.mpr ⟨h, ho⟩

theorem above_of_lt {a : Term} {as : List Term} (h : low < a.id) (ho : Ordered (a :: as)) :
    Above low (a :: as) := by
  intro t ht
  rcases mem_cons.mp ht with rfl | ht
  · exact h
  · exact lt_trans h ((pairwise_cons.mp ho).1 t ht)

theorem ordered_addTerms (as bs : List Term) (ha : Ordered as) (hb : Ordered bs) :
    Ordered (addTerms as bs) := by
  induction as, bs using addTerms.induct with
  | case1 => simp [addTerms, Ordered]
  | case2 a as ih =>
    obtain ⟨hlow, has⟩ := pairwise_cons.mp ha
    rw [addTerms]
    exact ordered_pushTerm (above_addTerms as [] hlow (by simp [Above])) (ih has hb)
  | case3 b bs ih =>
    obtain ⟨hlow, hbs⟩ := pairwise_cons.mp hb
    rw [addTerms]
    exact ordered_pushTerm (above_addTerms [] bs (by simp [Above]) hlow) (ih ha hbs)
  | case4 a as b bs h ih =>
    obtain ⟨hlow, has⟩ := pairwise_cons.mp ha
    rw [addTerms, if_pos h]
    exact ordered_pushTerm (above_addTerms as (b :: bs) hlow (above_of_lt h hb)) (ih has hb)
  | case5 a as b bs h h' ih =>
    obtain ⟨hlow, hbs⟩ := pairwise_cons.mp hb
    rw [addTerms, if_neg h, if_pos h']
    exact ordered_pushTerm (above_addTerms (a :: as) bs (above_of_lt h' ha) hlow) (ih ha hbs)
  | case6 a as b bs h h' ih =>
    obtain ⟨hlowa, has⟩ := pairwise_cons.mp ha
    obtain ⟨hlowb, hbs⟩ := pairwise_cons.mp hb
    have hid : b.id = a.id := by omega
    rw [addTerms, if_neg h, if_neg h']
    exact ordered_pushTerm (above_addTerms as bs hlowa (fun t ht => hid ▸ hlowb t ht)) (ih has hbs)

/-- Published term lists are read-only, so an empty side reuses the other. -/
def add (a b : Linear) : Linear :=
  if a.terms.isEmpty then { b with constant := sum a.constant b.constant }
  else if b.terms.isEmpty then { a with constant := sum a.constant b.constant }
  else
    { constant := sum a.constant b.constant
      terms := addTerms a.terms b.terms
      ordered := ordered_addTerms _ _ a.ordered b.ordered
      nonzero := nonzero_addTerms _ _ }

@[simp] theorem eval_add (f : Int → Int) (a b : Linear) : (add a b).eval f = a.eval f + b.eval f := by
  unfold add
  split
  · rename_i h
    simp only [eval, isEmpty_iff.mp h, evalTerms, toInt_sum]
    ring
  · split
    · rename_i h
      simp only [eval, isEmpty_iff.mp h, evalTerms, toInt_sum]
      ring
    · simp only [eval, eval_addTerms, toInt_sum]
      ring

/-! ## Scaling -/

def scaleTerms (factor : Number) : List Term → List Term
  | [] => []
  | t :: ts => pushTerm t.id (product t.factor factor) (scaleTerms factor ts)

theorem eval_scaleTerms (f : Int → Int) (factor : Number) (ts : List Term) :
    evalTerms f (scaleTerms factor ts) = evalTerms f ts * factor.toInt := by
  induction ts with
  | nil => simp [scaleTerms, evalTerms]
  | cons t ts ih =>
    simp only [scaleTerms, eval_pushTerm, ih, evalTerms, toInt_product]
    ring

theorem nonzero_scaleTerms (factor : Number) (ts : List Term) :
    ∀ t ∈ scaleTerms factor ts, t.factor.digits ≠ [] := by
  induction ts with
  | nil => simp [scaleTerms]
  | cons t ts ih => exact nonzero_pushTerm ih

theorem above_scaleTerms (factor : Number) (ts : List Term) (h : Above low ts) :
    Above low (scaleTerms factor ts) := by
  induction ts with
  | nil => simp [scaleTerms, Above]
  | cons t ts ih => exact above_pushTerm (h t (by simp)) (ih (fun u hu => h u (by simp [hu])))

theorem ordered_scaleTerms (factor : Number) (ts : List Term) (h : Ordered ts) :
    Ordered (scaleTerms factor ts) := by
  induction ts with
  | nil => simp [scaleTerms, Ordered]
  | cons t ts ih =>
    obtain ⟨hlow, hts⟩ := pairwise_cons.mp h
    exact ordered_pushTerm (above_scaleTerms factor ts hlow) (ih hts)

def scale (value : Linear) (factor : Number) : Linear :=
  if factor.digits.isEmpty then ofConstant factor
  else if !factor.negative && unit factor then value
  else
    { constant := product value.constant factor
      terms := scaleTerms factor value.terms
      ordered := ordered_scaleTerms factor _ value.ordered
      nonzero := nonzero_scaleTerms factor _ }

@[simp] theorem eval_scale (f : Int → Int) (value : Linear) (factor : Number) :
    (scale value factor).eval f = value.eval f * factor.toInt := by
  unfold scale
  split
  · rename_i h
    have hz : factor.toInt = 0 := factor.digits_eq_nil.mp (by simpa using h)
    simp [hz]
  · split
    · have hone : factor.toInt = 1 := by
        have hn := factor.negative_iff
        have hu := factor.unit_iff
        grind
      rw [hone, Int.mul_one]
    · simp only [eval, eval_scaleTerms, toInt_product]
      ring

/-! ## Comparing term lists -/

def sameTerms (a b : List Term) : Bool :=
  a.length == b.length &&
    (a.zip b).all fun (l, r) => l.id == r.id && compare l.factor r.factor == 0

theorem sameTerms_iff {a b : List Term} : sameTerms a b = true ↔ a = b := by
  induction a generalizing b with
  | nil => cases b <;> simp [sameTerms]
  | cons x xs ih =>
    cases b with
    | nil => simp [sameTerms]
    | cons y ys =>
      have hxy : x = y ↔ x.id = y.id ∧ x.factor = y.factor := by
        cases x; cases y; simp
      have := ih (b := ys)
      simp only [sameTerms, Bool.and_eq_true, beq_iff_eq, zip_cons_cons,
        all_cons, compare_eq_zero] at this ⊢
      grind

def oppositeTerms (a b : List Term) : Bool :=
  a.length == b.length &&
    (a.zip b).all fun (l, r) =>
      l.id == r.id && compare l.factor (negate r.factor) == 0

theorem eval_oppositeTerms (f : Int → Int) {a b : List Term} (h : oppositeTerms a b = true) :
    evalTerms f a = -evalTerms f b := by
  induction a generalizing b with
  | nil =>
    cases b with
    | nil => rfl
    | cons y ys => simp [oppositeTerms] at h
  | cons x xs ih =>
    cases b with
    | nil => simp [oppositeTerms] at h
    | cons y ys =>
      simp only [oppositeTerms, Bool.and_eq_true, beq_iff_eq, length_cons,
        Nat.add_right_cancel_iff, zip_cons_cons, all_cons, compare_eq_zero] at h
      obtain ⟨hl, ⟨hid, hf⟩, hall⟩ := h
      have hrest : oppositeTerms xs ys = true := by
        simp only [oppositeTerms, Bool.and_eq_true, beq_iff_eq]
        exact ⟨hl, by simpa  using hall⟩
      simp only [evalTerms, ih hrest, hid, hf, toInt_negate]
      ring

end Linear

end Loom.Proof
