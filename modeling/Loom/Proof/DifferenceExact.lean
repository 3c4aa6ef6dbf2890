import Loom.Proof.DifferenceQueries

/-
  Difference queries are exact.
-/

namespace Loom.Proof

open Number Texts Distances List Nat Difference

/-! ## Vertices -/

/-- The value of a vertex: zero, or the one of its symbol. -/
def vertex (f : Int → Int) (identities : List Int) : Nat → Int
  | 0 => 0
  | index + 1 =>
    match identities[index]? with
    | some id => f id
    | none => 0

variable {identities : List Int} {index : Nat} {symbols : Finset Int} {relation : Relation}
  {count : Nat} {edges : List Difference}

theorem vertex_more {more : List Int} (h : identities <+: more) (f : Int → Int)
    (hindex : index ≤ identities.length) : vertex f more index = vertex f identities index := by
  cases index with
  | zero => rfl
  | succ index =>
    obtain ⟨rest, rfl⟩ := h
    rw [vertex, vertex, getElem?_append_left hindex]

/-- The symbols have their numbers. -/
structure Numbering (identities : List Int) (symbols : Finset Int) : Prop where
  nodup : identities.Nodup
  mem : ∀ id, id ∈ identities ↔ id ∈ symbols
  small : identities.length ≤ 32

theorem numbering_empty : Numbering [] ∅ := ⟨nodup_nil, by simp, by decide⟩

theorem Numbering.card (h : Numbering identities symbols) : symbols.card = identities.length := by
  have hsame : symbols = identities.toFinset := by
    ext id
    rw [mem_toFinset, h.mem]
  rw [hsame, toFinset_card_of_nodup h.nodup]

/-- What a step that numbers symbols gives: their vertices, or no room for them. -/
def Numbered (identities : List Int) (symbols : Finset Int) {α : Type}
    (run : Except Stop (α × List Int)) (good : α → List Int → Prop) : Prop :=
  (∃ value more, run = .ok (value, more) ∧ Numbering more symbols ∧ identities <+: more ∧
    good value more) ∨
  (run = fail "difference identity budget exhausted" ∧ 32 < symbols.card)

theorem differenceIdentity_spec (h : Numbering identities symbols) {id : Int} (hid : 0 ≤ id) :
    Numbered identities (insert id symbols) (differenceIdentity identities id)
      fun index more => index ≤ more.length ∧ ∀ f, vertex f more index = f id := by
  unfold differenceIdentity
  cases hfind : identities.findIdx? (· == id) with
  | some index =>
    obtain ⟨hlt, hfound, -⟩ := findIdx?_eq_some_iff_getElem.mp hfind
    have hsame : identities[index] = id := beq_iff_eq.mp hfound
    have hmem : id ∈ symbols := (h.mem id).mp (hsame ▸ getElem_mem hlt)
    rw [Finset.insert_eq_of_mem hmem]
    refine .inl ⟨index + 1, identities, rfl, h, prefix_rfl, hlt, fun f => ?_⟩
    rw [vertex, getElem?_eq_getElem hlt, hsame]
  | none =>
    have hnew : id ∉ identities := by
      intro hmem
      have hother := findIdx?_eq_none_iff.mp hfind id hmem
      rw [beq_self_eq_true] at hother
      cases hother
    have hcard : (insert id symbols).card = identities.length + 1 := by
      rw [Finset.card_insert_of_notMem (fun hmem => hnew ((h.mem id).mpr hmem)), h.card]
    dsimp only
    split
    case isTrue hfull =>
      refine .inr ⟨rfl, ?_⟩
      omega
    case isFalse hroom =>
      refine .inl ⟨_, _, rfl, ⟨?_, ?_, ?_⟩, prefix_append _ _, ?_, ?_⟩
      · exact nodup_append.mpr ⟨h.nodup, nodup_singleton id, by
          intro a ha b hb heq
          rw [mem_singleton] at hb
          exact hnew (hb ▸ heq ▸ ha)⟩
      · intro other
        rw [mem_append, mem_singleton, h.mem, Finset.mem_insert, or_comm]
      · rw [length_append, length_singleton]; omega
      · rw [length_append, length_singleton]
      · intro f
        rw [vertex, getElem?_append_right (Nat.le_refl _), Nat.sub_self]
        rfl

/-- The value of a symbol that may be missing. -/
def endValue (f : Int → Int) (id : Int) : Int := if id = -1 then 0 else f id

def endSymbols (id : Int) : Finset Int := if id = -1 then ∅ else {id}

theorem differenceEnd_spec (h : Numbering identities symbols) {id : Int} (hid : id = -1 ∨ 0 ≤ id) :
    Numbered identities (symbols ∪ endSymbols id) (differenceEnd identities id)
      fun index more => index ≤ more.length ∧ ∀ f, vertex f more index = endValue f id := by
  unfold differenceEnd endSymbols endValue
  by_cases hnone : id = -1
  · simp only [if_pos hnone, Finset.union_empty]
    exact .inl ⟨0, identities, rfl, h, prefix_rfl, zero_le _, fun f => rfl⟩
  · simp only [if_neg hnone]
    rw [Finset.union_comm]
    exact differenceIdentity_spec h (hid.resolve_left hnone)

/-! ## Terms -/

/-- At most one symbol is added and at most one subtracted. -/
def Shaped (value : Linear) : Prop :=
  differenceShape value = true ∧ ∀ term ∈ value.terms, 0 ≤ term.id

def termSymbols (terms : List Term) : Finset Int := (terms.map Term.id).toFinset

theorem factor_positive {factor : Number} (hunit : unit factor = true)
    (hsign : factor.negative = false) : factor = integer 1 := by
  apply toInt_injective
  obtain hone | hminus := (unit_iff factor).mp hunit
  · exact hone
  · have hnegative := (negative_iff factor).mpr (by omega)
    cases hnegative.symm.trans hsign

theorem factor_negative {factor : Number} (hunit : unit factor = true)
    (hsign : factor.negative = true) : factor = integer (-1) := by
  apply toInt_injective
  obtain hone | hminus := (unit_iff factor).mp hunit
  · have hnegative := (negative_iff factor).mp hsign
    omega
  · exact hminus

/-- The loop finds the two symbols; what is found first stays. -/
theorem differenceTermsOf_shaped (terms : List Term) :
    ∀ {positive negative : Bool} {p n : Int}, differenceTerms terms positive negative = true →
      (∀ term ∈ terms, 0 ≤ term.id) → (positive = false ↔ p = -1) → (negative = false ↔ n = -1) →
      ∃ p' n', differenceTermsOf terms p n = .ok (some (p', n')) ∧
        (p ≠ -1 → p' = p) ∧ (n ≠ -1 → n' = n) ∧
        (p' = p ∨ p' ∈ terms.map Term.id) ∧ (n' = n ∨ n' ∈ terms.map Term.id) ∧
        (∀ term ∈ terms, term.id = p' ∨ term.id = n') ∧
        ∀ f, endValue f p' - endValue f n' = endValue f p - endValue f n + evalTerms f terms := by
  induction terms with
  | nil =>
    intro positive negative p n _ _ _ _
    exact ⟨p, n, rfl, fun _ => rfl, fun _ => rfl, .inl rfl, .inl rfl, nofun,
      fun f => (Int.add_zero _).symm⟩
  | cons term terms ih =>
    intro positive negative p n hshape hids hp hn
    obtain ⟨hid, hrest⟩ := forall_mem_cons.mp hids
    have hsome : term.id ≠ -1 := by omega
    rw [differenceTerms] at hshape
    rw [differenceTermsOf, if_neg (by omega)]
    split at hshape
    case isTrue => cases hshape
    case isFalse hunit =>
      have hunit : unit term.factor = true := by simpa using hunit
      split at hshape
      case isTrue hfirst =>
        -- the symbol that is added
        obtain ⟨hsign, hfree⟩ : term.factor.negative = false ∧ positive = false := by
          simpa using hfirst
        have hfactor := factor_positive hunit hsign
        obtain ⟨p', n', hrun, hkeep, hkeep', hfrom, hfrom', hcover, hvalue⟩ :=
          ih hshape hrest (iff_of_false nofun hsome) hn
        rw [if_pos ⟨compare_eq_zero.mpr hfactor, hp.mp hfree⟩]
        have hfound := hkeep hsome
        refine ⟨p', n', hrun, fun hne => absurd (hp.mp hfree) hne, hkeep', ?_, ?_, ?_, ?_⟩
        · exact .inr (by rw [hfound]; exact .head _)
        · exact hfrom'.imp_right (.tail _)
        · exact forall_mem_cons.mpr ⟨.inl hfound.symm, hcover⟩
        · intro f
          rw [hvalue f, evalTerms, hfactor, toInt_integer, endValue, hp.mp hfree]
          simp only [endValue, if_true]; omega
      case isFalse hother =>
        split at hshape
        case isFalse => cases hshape
        case isTrue hsecond =>
          -- the symbol that is subtracted
          obtain ⟨hsign, hfree⟩ : term.factor.negative = true ∧ negative = false := by
            simpa using hsecond
          have hfactor := factor_negative hunit hsign
          obtain ⟨p', n', hrun, hkeep, hkeep', hfrom, hfrom', hcover, hvalue⟩ :=
            ih hshape hrest hp (iff_of_false nofun hsome)
          have hnot : ¬(compare term.factor (integer 1) = 0 ∧ p = -1) := by
            rintro ⟨hsame, -⟩
            have hboth := congrArg Number.toInt ((compare_eq_zero.mp hsame).symm.trans hfactor)
            exact absurd hboth (by decide)
          have hfits : ¬(compare term.factor (integer (-1)) ≠ 0 ∨ n ≠ -1) := by
            rintro (hne | hne)
            · exact hne (compare_eq_zero.mpr hfactor)
            · exact hne (hn.mp hfree)
          rw [if_neg hnot, if_neg hfits]
          have hfound := hkeep' hsome
          refine ⟨p', n', hrun, hkeep, fun hne => absurd (hn.mp hfree) hne, ?_, ?_, ?_, ?_⟩
          · exact hfrom.imp_right (.tail _)
          · exact .inr (by rw [hfound]; exact .head _)
          · exact forall_mem_cons.mpr ⟨.inr hfound.symm, hcover⟩
          · intro f
            rw [hvalue f, evalTerms, hfactor, toInt_integer]
            simp only [endValue]; omega

/-- The edges hold for the values of the symbols. -/
def Means (f : Int → Int) (identities : List Int) (edges : List Difference) : Prop :=
  ∀ edge ∈ edges,
    vertex f identities edge.left - vertex f identities edge.right ≤ edge.limit.toInt

theorem edgesOf_means (hne : relation ≠ .ne) (f : Int → Int) (identities : List Int)
    (left right : Nat) (constant : Number) :
    Means f identities (edgesOf relation left right constant) ↔ relation.Holds
      (constant.toInt + (vertex f identities left - vertex f identities right)) := by
  unfold Means edgesOf
  cases relation with
  | ne => exact absurd rfl hne
  | eq =>
    simp only [reduceCtorEq, or_self, if_false, if_true, forall_mem_cons, toInt_negate,
      not_mem_nil, false_imp_iff, implies_true, and_true, Relation.Holds]
    omega
  | lt =>
    simp only [reduceCtorEq, or_self, if_false, if_true, forall_mem_cons, toInt_negate,
      not_mem_nil, false_imp_iff, implies_true, and_true, Relation.Holds, true_or,
      toInt_subtract, toInt_integer]
    omega
  | le =>
    simp only [reduceCtorEq, or_self, if_false, forall_mem_cons, toInt_negate,
      not_mem_nil, false_imp_iff, implies_true, and_true, Relation.Holds]
    omega
  | gt =>
    simp only [reduceCtorEq, if_true, if_false, forall_mem_cons, or_true, true_or,
      not_mem_nil, false_imp_iff, implies_true, and_true, Relation.Holds,
      toInt_subtract, toInt_integer]
    omega
  | ge =>
    simp only [reduceCtorEq, or_self, if_true, if_false, forall_mem_cons, or_true,
      not_mem_nil, false_imp_iff, implies_true, and_true, Relation.Holds]
    omega

theorem edgesOf_within {left right : Nat} (hleft : left < count) (hright : right < count)
    (constant : Number) : ∀ edge ∈ edgesOf relation left right constant, edge.Within count := by
  unfold edgesOf Difference.Within
  cases relation <;> simp [hleft, hright]

/-! ## Facts -/

theorem Means.more {f : Int → Int} {identities more : List Int} {edges : List Difference}
    (h : identities <+: more) (hin : ∀ edge ∈ edges, edge.Within (identities.length + 1)) :
    Means f more edges ↔ Means f identities edges := by
  have hsame : ∀ edge ∈ edges, vertex f more edge.left = vertex f identities edge.left ∧
      vertex f more edge.right = vertex f identities edge.right := by
    intro edge hedge
    obtain ⟨hleft, hright⟩ := hin edge hedge
    exact ⟨vertex_more h f (le_of_lt_succ hleft), vertex_more h f (le_of_lt_succ hright)⟩
  constructor
  · intro hall edge hedge
    rw [← (hsame edge hedge).1, ← (hsame edge hedge).2]; exact hall edge hedge
  · intro hall edge hedge
    rw [(hsame edge hedge).1, (hsame edge hedge).2]; exact hall edge hedge

theorem within_mono {more : Nat} (h : count ≤ more) (hin : ∀ edge ∈ edges, edge.Within count) :
    ∀ edge ∈ edges, edge.Within more :=
  fun edge hedge => ⟨(hin edge hedge).1.trans_le h, (hin edge hedge).2.trans_le h⟩

/-- A comparison becomes edges that say the same, or its symbols have no room. -/
theorem differenceEdges_spec (h : Numbering identities symbols) (hne : relation ≠ .ne)
    {value : Linear} (hshape : Shaped value) (edges : List Difference) :
    (∃ new more, differenceEdges edges identities relation value = .ok (true, edges ++ new, more) ∧
      Numbering more (symbols ∪ termSymbols value.terms) ∧ identities <+: more ∧
      (∀ edge ∈ new, edge.Within (more.length + 1)) ∧
      ∀ f, Means f more new ↔ relation.Holds (value.eval f)) ∨
    (differenceEdges edges identities relation value = fail "difference identity budget exhausted" ∧
      32 < (symbols ∪ termSymbols value.terms).card) := by
  obtain ⟨hterms, hids⟩ := hshape
  rw [differenceShape] at hterms
  split at hterms
  case isTrue => cases hterms
  obtain ⟨p, n, hrun, -, -, hfrom, hfrom', hcover, hvalue⟩ :=
    differenceTermsOf_shaped value.terms hterms hids (iff_of_true rfl rfl) (iff_of_true rfl rfl)
  have hend : ∀ {id : Int}, id = -1 ∨ id ∈ value.terms.map Term.id → id = -1 ∨ 0 ≤ id := by
    rintro id (hnone | hmem)
    · exact .inl hnone
    · obtain ⟨term, hterm, rfl⟩ := mem_map.mp hmem
      exact .inr (hids term hterm)
  have hsymbols : termSymbols value.terms = endSymbols p ∪ endSymbols n := by
    ext id
    rw [termSymbols, mem_toFinset, Finset.mem_union]
    constructor
    · intro hmem
      obtain ⟨term, hterm, rfl⟩ := mem_map.mp hmem
      have hid := hids term hterm
      obtain heq | heq := hcover term hterm
      · exact .inl (by rw [← heq, endSymbols, if_neg (by omega)]; exact Finset.mem_singleton_self _)
      · exact .inr (by rw [← heq, endSymbols, if_neg (by omega)]; exact Finset.mem_singleton_self _)
    · have hone : ∀ {end' : Int}, end' = -1 ∨ end' ∈ value.terms.map Term.id →
          id ∈ endSymbols end' → id ∈ value.terms.map Term.id := by
        intro end' hfound hmem
        unfold endSymbols at hmem
        split at hmem
        case isTrue => exact absurd hmem (Finset.notMem_empty _)
        case isFalse hsome =>
          rw [Finset.mem_singleton.mp hmem]; exact hfound.resolve_left hsome
      rintro (hmem | hmem)
      · exact hone hfrom hmem
      · exact hone hfrom' hmem
  rw [hsymbols, ← Finset.union_assoc, differenceEdges, if_neg hne, hrun, Results.ok_bind]
  dsimp only
  obtain ⟨left, first, hleft, hnumbering, hkept, hlow, hmean⟩ | ⟨hfail, hcard⟩ :=
    differenceEnd_spec h (hend hfrom)
  case inr =>
    rw [hfail]
    exact .inr ⟨rfl, hcard.trans_le (Finset.card_le_card Finset.subset_union_left)⟩
  rw [hleft, Results.ok_bind]
  obtain ⟨right, more, hright, hnumbering', hkept', hlow', hmean'⟩ | ⟨hfail, hcard⟩ :=
    differenceEnd_spec hnumbering (hend hfrom')
  case inr =>
    rw [hfail]; exact .inr ⟨rfl, hcard⟩
  rw [hright]
  have hleft' : left ≤ more.length := hlow.trans hkept'.length_le
  refine .inl ⟨edgesOf relation left right value.constant, more, rfl, hnumbering',
    hkept.trans hkept', ?_, ?_⟩
  · exact edgesOf_within (lt_succ_of_le hleft') (lt_succ_of_le hlow') _
  · intro f
    rw [edgesOf_means hne, vertex_more hkept' f hlow, hmean, hmean', Linear.eval]
    have hall := hvalue f
    rw [hall]; simp

def factTerms : Predicate → List Term
  | .compare _ value => value.terms
  | _ => []

def querySymbols (value : Linear) (facts : List Predicate) : Finset Int :=
  termSymbols value.terms ∪ termSymbols (facts.flatMap factTerms)

/-- A comparison of a difference, other than an inequation. -/
def DifferenceFact (fact : Predicate) : Prop :=
  ∃ operator value, fact = .compare operator value ∧ operator ≠ .ne ∧ Shaped value

/-- What the facts say about the symbols. -/
def FactsHold (f : Int → Int) (facts : List Predicate) : Prop :=
  ∀ operator value, Predicate.compare operator value ∈ facts → operator.Holds (value.eval f)

theorem termSymbols_append (terms others : List Term) :
    termSymbols (terms ++ others) = termSymbols terms ∪ termSymbols others := by
  rw [termSymbols, map_append, toFinset_append]; rfl

theorem factEdges_spec (facts : List Predicate) :
    ∀ {identities : List Int} {symbols : Finset Int} {edges : List Difference},
      Numbering identities symbols → (∀ fact ∈ facts, DifferenceFact fact) →
      (∃ new more, factEdges facts edges identities = .ok (edges ++ new, more) ∧
        Numbering more (symbols ∪ termSymbols (facts.flatMap factTerms)) ∧ identities <+: more ∧
        (∀ edge ∈ new, edge.Within (more.length + 1)) ∧ ∀ f, Means f more new ↔ FactsHold f facts) ∨
      (factEdges facts edges identities = fail "difference identity budget exhausted" ∧
        32 < (symbols ∪ termSymbols (facts.flatMap factTerms)).card) := by
  induction facts with
  | nil =>
    intro identities symbols edges h _
    refine .inl ⟨[], identities, ?_, ?_, prefix_rfl, nofun, fun f => iff_of_true nofun nofun⟩
    · rw [append_nil, factEdges]
    · rw [flatMap_nil, termSymbols, map_nil, toFinset_nil, Finset.union_empty]
      exact h
  | cons fact facts ih =>
    intro identities symbols edges h hfacts
    obtain ⟨⟨operator, value, rfl, hne, hshape⟩, hrest⟩ := forall_mem_cons.mp hfacts
    rw [flatMap_cons, termSymbols_append, ← Finset.union_assoc, factEdges]
    obtain ⟨new, first, hrun, hnumbering, hkept, hin, hmean⟩ | ⟨hfail, hcard⟩ :=
      differenceEdges_spec h hne hshape edges
    case inr =>
      rw [hfail]
      exact .inr ⟨rfl, hcard.trans_le (Finset.card_le_card Finset.subset_union_left)⟩
    rw [hrun, Results.ok_bind]
    dsimp only
    obtain ⟨others, more, hrun', hnumbering', hkept', hin', hmean'⟩ | ⟨hfail, hcard⟩ :=
      @ih _ _ (edges ++ new) hnumbering hrest
    case inr => exact .inr ⟨hfail, hcard⟩
    refine .inl ⟨new ++ others, more, ?_, hnumbering', hkept.trans hkept', ?_, fun f => ?_⟩
    · rw [hrun', append_assoc]
    · rw [forall_mem_append]
      exact ⟨within_mono (succ_le_succ hkept'.length_le) hin, hin'⟩
    · have hboth : Means f more (new ++ others) ↔ Means f more new ∧ Means f more others :=
        forall_mem_append
      rw [hboth, Means.more hkept' hin, hmean, hmean']
      constructor
      · rintro ⟨hhead, htail⟩ operator' value' hmem
        obtain heq | hmem := mem_cons.mp hmem
        · injection heq with hoperator hvalue
          rw [hoperator, hvalue]; exact hhead
        · exact htail operator' value' hmem
      · intro hall
        exact ⟨hall operator value (.head _),
          fun operator' value' hmem => hall operator' value' (.tail _ hmem)⟩

/-! ## Goals -/

theorem boundEdges_within (count : Nat) : ∀ edge ∈ boundEdges count, edge.Within (count + 1) := by
  intro edge hedge
  obtain ⟨index, hindex, hmem⟩ := mem_flatMap.mp hedge
  rw [mem_range] at hindex
  obtain rfl | rfl : edge = ⟨index + 1, 0, integer maxInt⟩ ∨
      edge = ⟨0, index + 1, negate (integer minInt)⟩ := by simpa using hmem
  · exact ⟨succ_lt_succ hindex, succ_pos _⟩
  · exact ⟨succ_pos _, succ_lt_succ hindex⟩

theorem mem_boundEdges (h : index < count) : ⟨index + 1, 0, integer maxInt⟩ ∈ boundEdges count ∧
      ⟨0, index + 1, negate (integer minInt)⟩ ∈ boundEdges count :=
  ⟨mem_flatMap.mpr ⟨index, mem_range.mpr h, .head _⟩,
    mem_flatMap.mpr ⟨index, mem_range.mpr h, .tail _ (.head _)⟩⟩

/-- The bounds lead from every vertex to zero, and from zero to every vertex. -/
theorem exists_walk {source : Nat} (hsource : source < count + 1) (hindex : index < count + 1) :
    ∃ weight, Walk ((edges ++ boundEdges count).map Difference.edge) source index weight := by
  have hmem : ∀ {edge : Difference}, edge ∈ boundEdges count →
      edge.edge ∈ (edges ++ boundEdges count).map Difference.edge :=
    fun hedge => mem_map_of_mem (mem_append_right _ hedge)
  obtain ⟨weight, hzero⟩ :
      ∃ weight, Walk ((edges ++ boundEdges count).map Difference.edge) source 0 weight := by
    cases source with
    | zero => exact ⟨0, .stay⟩
    | succ source =>
      exact ⟨_, .go .stay (hmem (mem_boundEdges (lt_of_succ_lt_succ hsource)).2)⟩
  cases index with
  | zero => exact ⟨weight, hzero⟩
  | succ index => exact ⟨_, .go hzero (hmem (mem_boundEdges (lt_of_succ_lt_succ hindex)).1)⟩

theorem differencePath_iff (hin : ∀ edge ∈ edges, edge.Within (count + 1)) {goal : Difference}
    (hgoal : goal.Within (count + 1)) :
    ∃ proved, differencePath (edges ++ boundEdges count) goal (count + 1) = .ok proved ∧
      (proved = true ↔ ∀ x, Meets ((edges ++ boundEdges count).map Difference.edge) x →
        x goal.left - x goal.right ≤ goal.limit.toInt) := by
  have hall : ∀ edge ∈ edges ++ boundEdges count, edge.Within (count + 1) :=
    forall_mem_append.mpr ⟨hin, boundEdges_within count⟩
  have hends : ∀ e ∈ (edges ++ boundEdges count).map Difference.edge,
      e.left ∈ Finset.range (count + 1) := by
    intro e he
    obtain ⟨edge, hedge, rfl⟩ := mem_map.mp he
    exact Finset.mem_range.mpr (hall edge hedge).1
  refine ⟨_, differencePath_eq hall hgoal, ?_⟩
  constructor
  · intro h x hx
    have hcard : (Finset.range (count + 1)).card = count + 1 := Finset.card_range _
    rw [← hcard] at h
    exact search_sound (Finset.mem_range.mpr hgoal.2) hends h hx
  · intro h
    by_contra hnot
    have hreach : ∀ e ∈ (edges ++ boundEdges count).map edge,
        ∃ k, Walk ((edges ++ boundEdges count).map edge) goal.right e.right k := by
      intro e he
      obtain ⟨edge, hedge, rfl⟩ := mem_map.mp he
      exact exists_walk hgoal.2 (hall edge hedge).2
    obtain ⟨x, hx, hover⟩ := search_complete hreach (exists_walk hgoal.2 hgoal.1)
      (Bool.not_eq_true _ ▸ hnot)
    have hle := h x hx
    omega

theorem goalsProved_iff (hin : ∀ edge ∈ edges, edge.Within (count + 1)) (goals : List Difference)
    (hgoals : ∀ goal ∈ goals, goal.Within (count + 1)) :
    ∃ proved, goalsProved (edges ++ boundEdges count) (count + 1) goals = .ok proved ∧
      (proved = true ↔ ∀ x, Meets ((edges ++ boundEdges count).map edge) x →
        ∀ goal ∈ goals, x goal.left - x goal.right ≤ goal.limit.toInt) := by
  induction goals with
  | nil => exact ⟨true, rfl, iff_of_true rfl fun _ _ => nofun⟩
  | cons goal goals ih =>
    obtain ⟨hgoal, hrest⟩ := forall_mem_cons.mp hgoals
    obtain ⟨first, hfirst, hiff⟩ := differencePath_iff hin hgoal
    obtain ⟨others, hothers, hiff'⟩ := ih hrest
    rw [goalsProved, hfirst]
    cases first with
    | false =>
      refine ⟨false, rfl, iff_of_false nofun ?_⟩
      intro hall
      cases hiff.mpr fun x hx => hall x hx goal (.head _)
    | true =>
      refine ⟨others, hothers, hiff'.trans ?_⟩
      constructor
      · intro hall x hx; exact forall_mem_cons.mpr ⟨hiff.mp rfl x hx, hall x hx⟩
      · intro hall x hx goal' hgoal'; exact hall x hx goal' (.tail _ hgoal')

/-! ## Valuations -/

theorem meets_map {x : Nat → Int} : Meets (edges.map edge) x ↔
      ∀ edge ∈ edges, x edge.left - x edge.right ≤ edge.limit.toInt := forall_mem_map

/-- The values of the symbols meet the bounds. -/
theorem vertex_bounds (v : Valuation) (identities : List Int) :
    Means v.integer identities (boundEdges identities.length) := by
  intro edge hedge
  obtain ⟨index, hindex, hmem⟩ := mem_flatMap.mp hedge
  rw [mem_range] at hindex
  obtain ⟨hlow, hhigh⟩ := v.machine identities[index]
  have hvalue : vertex v.integer identities (index + 1) = v.integer identities[index] := by
    rw [vertex, getElem?_eq_getElem hindex]
  have hzero : vertex v.integer identities 0 = 0 := rfl
  obtain rfl | rfl : edge = ⟨index + 1, 0, integer maxInt⟩ ∨
      edge = ⟨0, index + 1, negate (integer minInt)⟩ := by simpa using hmem
  · simp only [toInt_integer]; omega
  · simp only [toInt_integer, toInt_negate]; omega

/-- The symbols get the values of their vertices, measured from zero. -/
def symbolValue (x : Nat → Int) (identities : List Int) (id : Int) : Int :=
  match identities.findIdx? (· == id) with
  | some index => x (index + 1) - x 0
  | none => 0

theorem vertex_symbolValue (hnodup : identities.Nodup) (x : Nat → Int)
    (hindex : index ≤ identities.length) :
    vertex (symbolValue x identities) identities index = x index - x 0 := by
  cases index with
  | zero => rw [vertex, Int.sub_self]
  | succ index =>
    rw [vertex, getElem?_eq_getElem hindex]
    dsimp only
    unfold symbolValue
    cases hfind : identities.findIdx? (· == identities[index]) with
    | none =>
      have hother := findIdx?_eq_none_iff.mp hfind _ (getElem_mem hindex)
      rw [beq_self_eq_true] at hother
      cases hother
    | some found =>
      obtain ⟨hlt, hfound, -⟩ := findIdx?_eq_some_iff_getElem.mp hfind
      have hsame : found = index := (hnodup.getElem_inj_iff).mp (beq_iff_eq.mp hfound)
      rw [hsame]

theorem symbolValue_machine {x : Nat → Int}
    (hx : Meets ((edges ++ boundEdges identities.length).map edge) x) (id : Int) :
    Word.Machine (symbolValue x identities id) := by
  unfold symbolValue
  cases hfind : identities.findIdx? (· == id) with
  | none =>
    show Word.Machine 0
    decide
  | some index =>
    obtain ⟨hlt, -, -⟩ := findIdx?_eq_some_iff_getElem.mp hfind
    have hhigh := meets_map.mp hx _ (mem_append_right _ (mem_boundEdges hlt).1)
    have hlow := meets_map.mp hx _ (mem_append_right _ (mem_boundEdges hlt).2)
    simp only [toInt_integer, toInt_negate] at hhigh hlow
    constructor
    · dsimp only; omega
    · exact hhigh

theorem satisfies_iff {v : Valuation} {facts : List Predicate}
    (hfacts : ∀ fact ∈ facts, DifferenceFact fact) :
    Satisfies v facts ↔ FactsHold v.integer facts := by
  constructor
  · intro h operator value hmem; exact h _ hmem
  · intro h fact hmem
    obtain ⟨operator, value, rfl, -, -⟩ := hfacts fact hmem
    exact h operator value hmem

/-- A query about differences is answered exactly: it proves a goal when every valuation by machine
integers that satisfies the facts satisfies the goal. With more than 32 symbols it fails. -/
theorem difference_query_exact (relation : Relation) (hrelation : relation ≠ .ne) (value : Linear)
    (hvalue : Shaped value) (facts : List Predicate)
    (hfacts : ∀ fact ∈ facts, DifferenceFact fact) (hcount : facts.length ≤ 256) :
    ((querySymbols value facts).card ≤ 32 →
      ∃ proved, differenceQuery relation value facts = .ok proved ∧ (proved = true ↔
          ∀ v : Valuation, Satisfies v facts → relation.Holds (value.eval v.integer))) ∧
    (32 < (querySymbols value facts).card →
      differenceQuery relation value facts = fail "difference identity budget exhausted") := by
  have hsymbols : querySymbols value facts =
      ∅ ∪ termSymbols value.terms ∪ termSymbols (facts.flatMap factTerms) := by
    rfl
  rw [differenceQuery, take_of_length_le hcount, hsymbols]
  obtain ⟨goals, first, hrun, hnumbering, hkept, hin, hmean⟩ | ⟨hfail, hcard⟩ :=
    differenceEdges_spec numbering_empty hrelation hvalue []
  case inr =>
    rw [hfail]
    refine ⟨fun hsmall => ?_, fun _ => rfl⟩
    have hmore : (∅ ∪ termSymbols value.terms).card ≤
        (∅ ∪ termSymbols value.terms ∪ termSymbols (facts.flatMap factTerms)).card :=
      Finset.card_le_card Finset.subset_union_left
    omega
  rw [hrun, Results.ok_bind]
  dsimp only
  obtain ⟨edges, more, hrun', hnumbering', hkept', hin', hmean'⟩ | ⟨hfail, hcard⟩ :=
    @factEdges_spec facts _ _ [] hnumbering hfacts
  case inr =>
    rw [hfail]; exact ⟨fun hsmall => absurd hsmall (by omega), fun _ => rfl⟩
  rw [hrun']
  have hsmall := hnumbering'.small
  rw [hnumbering'.card]
  refine ⟨fun _ => ?_, fun hlarge => absurd hlarge (by omega)⟩
  have hgoals := within_mono (succ_le_succ hkept'.length_le) hin
  obtain ⟨proved, hproved, hiff⟩ := goalsProved_iff hin' goals hgoals
  refine ⟨proved, hproved, hiff.trans ?_⟩
  constructor
  · -- a valuation gives values to the vertices
    intro hall v hsatisfies
    have hfactsHold := (hmean' v.integer).mpr ((satisfies_iff hfacts).mp hsatisfies)
    have hmeets : Meets ((edges ++ boundEdges more.length).map edge)
        (vertex v.integer more) :=
      meets_map.mpr (forall_mem_append.mpr ⟨hfactsHold, vertex_bounds v more⟩)
    rw [← hmean, ← Means.more hkept' hin]; exact hall _ hmeets
  · -- values of the vertices give a valuation
    intro hall x hx
    have hvertex : ∀ {index : Nat}, index ≤ more.length →
        vertex (symbolValue x more) more index = x index - x 0 :=
      vertex_symbolValue hnumbering'.nodup x
    have hsame : ∀ {edge : Difference}, edge.Within (more.length + 1) →
        vertex (symbolValue x more) more edge.left - vertex (symbolValue x more) more edge.right =
          x edge.left - x edge.right := by
      intro edge hedge
      rw [hvertex (le_of_lt_succ hedge.1), hvertex (le_of_lt_succ hedge.2)]
      omega
    let v : Valuation := ⟨symbolValue x more, fun _ => false, symbolValue_machine hx⟩
    have hfactsHold : Means v.integer more edges := by
      intro edge hedge
      rw [hsame (hin' edge hedge)]
      exact meets_map.mp hx edge (mem_append_left _ hedge)
    have hgoal := hall v ((satisfies_iff hfacts).mpr ((hmean' v.integer).mp hfactsHold))
    rw [← hmean, ← Means.more hkept' hin] at hgoal
    intro goal hmem
    rw [← hsame (hgoals goal hmem)]; exact hgoal goal hmem

/-- `x₃ - x₄ + constant`. -/
def spread (constant : Int) : Linear where
  constant := integer constant
  terms := [⟨3, integer 1⟩, ⟨4, integer (-1)⟩]
  ordered := by decide
  nonzero := by decide

/-- A strict fact implies the weak one that follows from it over the integers. -/
theorem difference_query_exact_strict : ∃ proved,
    differenceQuery .le (spread 5) [.compare .lt (spread 4)] = .ok proved ∧
      (proved = true ↔ ∀ v : Valuation, Satisfies v [.compare .lt (spread 4)] →
        Relation.le.Holds ((spread 5).eval v.integer)) := by
  have hgoal : Shaped (spread 5) := ⟨by decide, by decide⟩
  have hfact : Shaped (spread 4) := ⟨by decide, by decide⟩
  refine (difference_query_exact .le (by decide) (spread 5) hgoal [.compare .lt (spread 4)]
    ?_ (by decide)).1 (by decide)
  rw [forall_mem_singleton]; exact ⟨.lt, spread 4, rfl, by decide, hfact⟩

end Loom.Proof
