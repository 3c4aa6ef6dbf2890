import Loom.Checking.Overlap

/-
  Overlap is exact: unification ends, and what it answers is whether the targets
  have a common instance.

  Bindings are followed through chains, so what has to be kept is that chains end.
  `Resolves` says it with a rank that goes down along every binding, and with the
  types that parameters stand for once all chains are followed. The occurs check
  is made on the followed type; a binding that passes it keeps both.
-/

namespace Loom.Checking

open Templates Templates.Template List Option

/-! ## Chains of bindings -/

/-- Chains of bindings end, and `values` are what the parameters stand for then. -/
structure Resolves (rank : Nat → Nat) (values : Nat → Ty) (bindings : Arguments) : Prop where
  solves : Solves values bindings
  free : ∀ index, bindings.getD index none = none → values index = .parameter index
  rank : ∀ index ty, bindings.getD index none = some ty →
    ∀ other ∈ parameters ty, rank other < rank index

/-- The bindings speak of their own parameters. -/
def WellScoped (bindings : Arguments) : Prop :=
  ∀ index ty, bindings.getD index none = some ty → Scoped ty bindings.length

/-- A followed type is a node or an unbound parameter. -/
def Followed (bindings : Arguments) : Ty → Prop
  | .parameter index => bindings.getD index none = none
  | .node _ _ => True

variable {ty : Ty}

theorem overlapValue_followed {bindings : Arguments} (h : Followed bindings ty) (fuel : Nat) :
    overlapValue (fuel + 1) ty bindings = some ty := by
  cases ty with
  | node head children => rw [overlapValue]
  | parameter index =>
    have hfree : bindings.getD index none = none := h
    rw [overlapValue, hfree]

variable {rank : Nat → Nat} {values : Nat → Ty} {bindings : Arguments}

/-- Following a chain ends, at what stands for the same. -/
theorem overlapValue_ends (h : Resolves rank values bindings) (hscoped : WellScoped bindings)
    (hty : Scoped ty bindings.length) :
    ∃ value bound, (∀ fuel, bound ≤ fuel → overlapValue fuel ty bindings = some value) ∧
      Followed bindings value ∧ Scoped value bindings.length := by
  cases ty with
  | node head children =>
    refine ⟨.node head children, 1, fun fuel hfuel => ?_, trivial, hty⟩
    obtain ⟨fuel, rfl⟩ := Nat.exists_eq_add_of_le' hfuel
    exact overlapValue_followed (show Followed bindings (.node head children) from trivial) fuel
  | parameter index =>
    -- the rank goes down along the chain
    generalize hrank : rank index = size
    induction size using Nat.strongRecOn generalizing index with
    | ind size ih =>
      cases hbound : bindings.getD index none with
      | none =>
        refine ⟨.parameter index, 1, fun fuel hfuel => ?_, hbound, hty⟩
        obtain ⟨fuel, rfl⟩ := Nat.exists_eq_add_of_le' hfuel
        exact overlapValue_followed (show Followed bindings (.parameter index) from hbound) fuel
      | some next =>
        have hnext := hscoped index next hbound
        suffices hend : ∃ value bound,
            (∀ fuel, bound ≤ fuel → overlapValue fuel next bindings = some value) ∧
            Followed bindings value ∧ Scoped value bindings.length by
          obtain ⟨value, bound, hvalue, hfollowed, hvalueScoped⟩ := hend
          refine ⟨value, bound + 1, fun fuel hfuel => ?_, hfollowed, hvalueScoped⟩
          obtain ⟨fuel, rfl⟩ := Nat.exists_eq_add_of_le' (Nat.le_trans (Nat.le_add_left 1 bound) hfuel)
          rw [overlapValue, hbound]
          exact hvalue fuel (Nat.le_of_succ_le_succ hfuel)
        cases next with
        | node head children =>
          refine ⟨.node head children, 1, fun fuel hfuel => ?_, trivial, hnext⟩
          obtain ⟨fuel, rfl⟩ := Nat.exists_eq_add_of_le' hfuel
          exact overlapValue_followed (show Followed bindings (.node head children) from trivial) fuel
        | parameter other =>
          have hless := h.rank index (.parameter other) hbound other (by simp)
          rw [hrank] at hless; exact ih (rank other) hless other hnext rfl

theorem anyM_ends {test : Nat → Ty → Option Bool} {holds : Ty → Prop} {children : List Ty}
    (h : ∀ child ∈ children, ∃ found bound, (∀ fuel, bound ≤ fuel → test fuel child = some found) ∧
      (found = true ↔ holds child)) :
    ∃ found bound, (∀ fuel, bound ≤ fuel → children.anyM (test fuel) = some found) ∧
      (found = true ↔ ∃ child ∈ children, holds child) := by
  induction children with
  | nil => exact ⟨false, 0, fun fuel _ => rfl, by simp⟩
  | cons first rest ih =>
    obtain ⟨here, least, hhere, hmeaning⟩ := h first (.head _)
    obtain ⟨later, more, hlater, hrest⟩ := ih fun child hmem => h child (.tail _ hmem)
    cases here with
    | true =>
      refine ⟨true, least, fun fuel hfuel => ?_, ?_⟩
      · rw [anyM, hhere fuel hfuel]; rfl
      · exact iff_of_true rfl ⟨first, .head _, hmeaning.mp rfl⟩
    | false =>
      refine ⟨later, max least more, fun fuel hfuel => ?_, ?_⟩
      · rw [anyM, hhere fuel (Nat.le_trans (Nat.le_max_left _ _) hfuel)]
        exact hlater fuel (Nat.le_trans (Nat.le_max_right _ _) hfuel)
      · have hnot : ¬holds first := fun hfirst => Bool.false_ne_true (hmeaning.mpr hfirst)
        rw [hrest]; simp [hnot]

/-- The occurs check ends, and sees through all bindings. -/
theorem overlapOccurs_ends (h : Resolves rank values bindings) (hscoped : WellScoped bindings)
    {sought : Nat} : ∀ {ty : Ty}, Scoped ty bindings.length → ∃ found bound,
      (∀ fuel, bound ≤ fuel → overlapOccurs fuel sought ty bindings = some found) ∧
      (found = true ↔ sought ∈ parameters (substitute values ty)) := by
  intro ty
  generalize hsize : size (substitute values ty) = measure
  induction measure using Nat.strongRecOn generalizing ty with
  | ind measure ih =>
    intro hty
    obtain ⟨value, bound, hvalue, hfollowed, hvalueScoped⟩ := overlapValue_ends h hscoped hty
    have hsame := h.solves.value (hvalue bound (Nat.le_refl _))
    cases value with
    | parameter symbol =>
      refine ⟨decide (symbol = sought), bound + 1, fun fuel hfuel => ?_, ?_⟩
      · obtain ⟨fuel, rfl⟩ := Nat.exists_eq_add_of_le' (Nat.le_trans (Nat.le_add_left 1 bound) hfuel)
        rw [overlapOccurs, hvalue fuel (Nat.le_of_succ_le_succ hfuel)]; rfl
      · have hfree : values symbol = .parameter symbol := h.free symbol hfollowed
        rw [← hsame, substitute_parameter, hfree, mem_parameters_parameter, decide_eq_true_eq]
        exact eq_comm
    | node head children =>
      have hchildren : ∀ child ∈ children, ∃ found least,
          (∀ fuel, least ≤ fuel → overlapOccurs fuel sought child bindings = some found) ∧
          (found = true ↔ sought ∈ parameters (substitute values child)) := by
        intro child hmem
        have hless : size (substitute values child) < measure := by
          rw [← hsize, ← hsame, substitute_node]
          exact size_lt_node (mem_map_of_mem hmem)
        exact ih _ hless rfl (hvalueScoped.argument hmem)
      obtain ⟨found, least, hfound, hmeaning⟩ := anyM_ends hchildren
      refine ⟨found, max bound least + 1, fun fuel hfuel => ?_, ?_⟩
      · obtain ⟨fuel, rfl⟩ := Nat.exists_eq_add_of_le' (Nat.le_trans (Nat.le_add_left 1 _) hfuel)
        have hle := Nat.le_of_succ_le_succ hfuel
        rw [overlapOccurs, hvalue fuel (Nat.le_trans (Nat.le_max_left _ _) hle)]
        exact hfound fuel (Nat.le_trans (Nat.le_max_right _ _) hle)
      · rw [hmeaning, ← hsame, substitute_node, mem_parameters_node]
        simp [List.mem_map, exists_exists_and_eq_and]

/-! ## A binding more -/

/-- How many parameters are unbound. -/
def unbound (bindings : Arguments) : Nat := bindings.countP Option.isNone

variable {symbol : Nat}

theorem unbound_set (hlt : symbol < bindings.length) (hfree : bindings.getD symbol none = none)
    (ty : Ty) : unbound (bindings.set symbol (some ty)) < unbound bindings := by
  have hnone : bindings[symbol] = none := by simpa [hlt] using hfree
  have hpos : 0 < bindings.countP Option.isNone :=
    countP_pos_iff.mpr ⟨bindings[symbol], getElem_mem hlt, by rw [hnone]; rfl⟩
  rw [unbound, unbound, countP_set hlt, hnone]
  simp only [isNone_none, isNone_some, if_true, Bool.false_eq_true, if_false]
  omega

theorem WellScoped.set {symbol : Nat} {ty : Ty} (h : WellScoped bindings)
    (hlt : symbol < bindings.length) (hty : Scoped ty bindings.length) :
    WellScoped (bindings.set symbol (some ty)) := by
  intro index bound hbound
  rw [length_set]
  by_cases hsame : symbol = index
  · subst hsame
    rw [getD_set_self hlt] at hbound; exact some.inj hbound ▸ hty
  · rw [getD_set_other hsame] at hbound; exact h index bound hbound

theorem exists_top (rank : Nat → Nat) (indices : List Nat) :
    ∃ top, ∀ index ∈ indices, rank index < top := by
  induction indices with
  | nil => exact ⟨0, fun index hmem => absurd hmem not_mem_nil⟩
  | cons first rest ih =>
    obtain ⟨top, htop⟩ := ih
    refine ⟨max (rank first + 1) top, fun index hmem => ?_⟩
    obtain rfl | hmem := mem_cons.mp hmem
    · omega
    · have := htop index hmem
      omega

/-- A parameter that does not occur in a type can be bound to it: the chains that lead to the
    parameter become longer, and all others stay as they are. -/
theorem Resolves.bind {symbol : Nat} {ty : Ty} (h : Resolves rank values bindings)
    (hlt : symbol < bindings.length) (hfree : bindings.getD symbol none = none)
    (hoccurs : symbol ∉ parameters (substitute values ty)) :
    ∃ rank' values', Resolves rank' values' (bindings.set symbol (some ty)) := by
  classical
  let single : Nat → Ty := fun index =>
    if index = symbol then substitute values ty else .parameter index
  obtain ⟨top, htop⟩ := exists_top rank (parameters ty)
  have hvalues : values symbol = .parameter symbol := h.free symbol hfree
  have hself : single symbol = substitute values ty := if_pos rfl
  have hkept : substitute single (substitute values ty) = substitute values ty := by
    calc substitute single (substitute values ty)
        = substitute .parameter (substitute values ty) := by
          refine substitute_congr _ fun index hindex => ?_
          have hne : index ≠ symbol := fun heq => hoccurs (heq ▸ hindex)
          exact if_neg hne
      _ = substitute values ty := substitute_self _
  refine ⟨fun index => if symbol ∈ parameters (values index) then rank index + top else rank index,
    fun index => substitute single (values index), ?_, ?_, ?_⟩
  · -- the values solve the new bindings
    intro index bound hbound
    show substitute single (values index) = _
    rw [← substitute_substitute]
    by_cases hsame : symbol = index
    · subst hsame
      rw [getD_set_self hlt] at hbound
      rw [← some.inj hbound, hkept, hvalues, substitute_parameter, hself]
    · rw [getD_set_other hsame] at hbound
      rw [h.solves index bound hbound]
  · intro index hunbound
    have hne : symbol ≠ index := by
      rintro rfl
      rw [getD_set_self hlt] at hunbound
      cases hunbound
    rw [getD_set_other hne] at hunbound
    rw [h.free index hunbound]; exact if_neg (Ne.symm hne)
  · intro index bound hbound other hother
    by_cases hsame : symbol = index
    · subst hsame
      rw [getD_set_self hlt] at hbound
      cases hbound
      have hnot : symbol ∉ parameters (values other) := by
        intro hin
        refine hoccurs ?_
        exact mem_parameters_substitute.mpr ⟨other, hother, hin⟩
      have hsmall : rank other < top := htop other hother
      rw [if_neg hnot, if_pos (by rw [hvalues]; simp)]; omega
    · rw [getD_set_other hsame] at hbound
      have hless := h.rank index bound hbound other hother
      by_cases hin : symbol ∈ parameters (values other)
      · have hin' : symbol ∈ parameters (values index) := by
          rw [h.solves index bound hbound]
          exact mem_parameters_substitute.mpr ⟨other, hother, hin⟩
        rw [if_pos hin, if_pos hin']; omega
      · rw [if_neg hin]
        split
        · omega
        · exact hless

/-! ## Unification ends -/

/-- Bindings that unification starts from and comes back with. -/
structure Ready (bindings : Arguments) : Prop where
  wellScoped : WellScoped bindings
  resolves : ∃ rank values, Resolves rank values bindings

/-- What an end of unification says about the bindings: they are as before, or one parameter
    more is bound; and what solves them solves the ones before. -/
structure Goes (bindings after : Arguments) : Prop where
  ready : Ready after
  length : after.length = bindings.length
  fewer : after = bindings ∨ unbound after < unbound bindings
  solves : ∀ values, Solves values after → Solves values bindings

theorem Goes.refl (h : Ready bindings) : Goes bindings bindings :=
  ⟨h, rfl, .inl rfl, fun _ hsolves => hsolves⟩

theorem Goes.trans {middle after : Arguments} (left : Goes bindings middle)
    (right : Goes middle after) : Goes bindings after := by
  refine ⟨right.ready, right.length.trans left.length, ?_, fun values hsolves =>
    left.solves values (right.solves values hsolves)⟩
  obtain rfl | hless := right.fewer
  · exact left.fewer
  · obtain rfl | hless' := left.fewer
    · exact .inr hless
    · exact .inr (Nat.lt_trans hless hless')

/-- Unification of two types ends, and success means that they are equal. -/
def Ends (bindings : Arguments) (left right : Ty) : Prop :=
  ∃ unified after bound,
    (∀ fuel, bound ≤ fuel → overlapTypes fuel left right bindings = some (unified, after)) ∧
    Goes bindings after ∧
    (unified = true → ∀ values, Solves values after →
      substitute values left = substitute values right)

theorem Solves.of_set {values : Nat → Ty} (h : Solves values (bindings.set symbol (some ty)))
    (hlt : symbol < bindings.length) (hfree : bindings.getD symbol none = none) :
    Solves values bindings ∧ values symbol = substitute values ty := by
  refine ⟨fun index bound hbound => ?_, h symbol ty (getD_set_self hlt ty)⟩
  have hne : symbol ≠ index := by
    rintro rfl
    rw [hfree] at hbound
    cases hbound
  exact h index bound (by rw [getD_set_other hne]; exact hbound)

/-- An unbound parameter is bound, unless it occurs in the other side. -/
theorem ends_parameter (h : Ready bindings) {right : Ty} (hfree : bindings.getD symbol none = none)
    (hlt : symbol < bindings.length) (hright : Scoped right bindings.length)
    (hfollowed : Followed bindings right) : Ends bindings (.parameter symbol) right := by
  have hleft : Followed bindings (.parameter symbol) := hfree
  by_cases hsame : Template.parameter symbol = right
  · refine ⟨true, bindings, 2, fun fuel hfuel => ?_, Goes.refl h, fun _ values _ => by rw [hsame]⟩
    obtain ⟨fuel, rfl⟩ := Nat.exists_eq_add_of_le' hfuel
    rw [overlapTypes, overlapValue_followed hleft, overlapValue_followed hfollowed]
    simp [hsame]
  · obtain ⟨rank, values, hresolves⟩ := h.resolves
    obtain ⟨found, bound, hoccurs, hmeaning⟩ := overlapOccurs_ends hresolves h.wellScoped hright
    have hrun : ∀ fuel, bound + 2 ≤ fuel → overlapTypes fuel (.parameter symbol) right bindings =
          if found then some (false, bindings)
          else some (true, bindings.set symbol (some right)) := by
      intro fuel hfuel
      obtain ⟨fuel, rfl⟩ := Nat.exists_eq_add_of_le' (Nat.le_trans (Nat.le_add_left 2 bound) hfuel)
      rw [overlapTypes, overlapValue_followed hleft, overlapValue_followed hfollowed]
      simp only [bind_eq_bind, bind_some, if_neg hsame]
      rw [hoccurs (fuel + 1) (by omega)]; rfl
    cases found with
    | true =>
      refine ⟨false, bindings, bound + 2, fun fuel hfuel => ?_, Goes.refl h,
        fun hfalse => absurd hfalse Bool.false_ne_true⟩
      rw [hrun fuel hfuel]; rfl
    | false =>
      have hnot : symbol ∉ parameters (substitute values right) :=
        fun hin => Bool.false_ne_true (hmeaning.mpr hin)
      refine ⟨true, bindings.set symbol (some right), bound + 2, fun fuel hfuel => ?_, ?_, ?_⟩
      · rw [hrun fuel hfuel]; rfl
      · exact ⟨⟨h.wellScoped.set hlt hright, hresolves.bind hlt hfree hnot⟩, length_set,
          .inr (unbound_set hlt hfree right), fun _ hsolves => (hsolves.of_set hlt hfree).1⟩
      · intro _ values' hsolves; exact (hsolves.of_set hlt hfree).2

/-- The loop over arguments ends when unification ends for every pair, from the bindings at
    hand and from all with fewer unbound parameters. -/
theorem overlapArguments_ends {most : Nat}
    (hfewer : ∀ {others : Arguments} {left right : Ty}, Ready others →
      Scoped left others.length → Scoped right others.length → unbound others < most →
      Ends others left right) :
    ∀ {lefts rights : List Ty} {bindings : Arguments}, Ready bindings → unbound bindings ≤ most →
    (∀ left ∈ lefts, Scoped left bindings.length) →
    (∀ right ∈ rights, Scoped right bindings.length) →
    (∀ left ∈ lefts, ∀ right ∈ rights, Ends bindings left right) →
    lefts.length = rights.length → ∃ unified after bound, (∀ fuel, bound ≤ fuel →
        overlapArguments (overlapTypes fuel) lefts rights bindings = some (unified, after)) ∧
      Goes bindings after ∧ (unified = true → ∀ values, Solves values after →
        lefts.map (substitute values) = rights.map (substitute values)) := by
  intro lefts
  induction lefts with
  | nil =>
    intro rights bindings hready _ _ _ _ hlength
    obtain rfl : rights = [] := length_eq_zero_iff.mp hlength.symm
    exact ⟨true, bindings, 0, fun _ _ => by simp [overlapArguments], Goes.refl hready,
      fun _ _ _ => rfl⟩
  | cons left lefts ih =>
    intro rights bindings hready hmost hlefts hrights hends hlength
    cases rights with
    | nil => cases hlength
    | cons right rights =>
      obtain ⟨first, middle, least, hfirst, hgoes, hequal⟩ := hends left (.head _) right (.head _)
      cases first with
      | false =>
        refine ⟨false, middle, least, fun fuel hfuel => ?_, hgoes, nofun⟩
        rw [overlapArguments, hfirst fuel hfuel]; rfl
      | true =>
        -- either nothing was bound, or everything that follows has fewer to bind
        have hrest : ∀ left ∈ lefts, ∀ right ∈ rights, Ends middle left right := by
          intro other hother another hanother
          obtain rfl | hless := hgoes.fewer
          · exact hends other (.tail _ hother) another (.tail _ hanother)
          · refine hfewer hgoes.ready ?_ ?_ (Nat.lt_of_lt_of_le hless hmost)
            · rw [hgoes.length]; exact hlefts other (.tail _ hother)
            · rw [hgoes.length]; exact hrights another (.tail _ hanother)
        have hmiddle : unbound middle ≤ most := by
          obtain rfl | hless := hgoes.fewer
          · exact hmost
          · exact Nat.le_trans (Nat.le_of_lt hless) hmost
        obtain ⟨unified, after, more, hrun, hgoes', hequal'⟩ := ih hgoes.ready hmiddle
          (fun other hmem => by rw [hgoes.length]; exact hlefts other (.tail _ hmem))
          (fun other hmem => by rw [hgoes.length]; exact hrights other (.tail _ hmem))
          hrest (Nat.succ.inj hlength)
        refine ⟨unified, after, max least more, fun fuel hfuel => ?_, hgoes.trans hgoes', ?_⟩
        · rw [overlapArguments, hfirst fuel (Nat.le_trans (Nat.le_max_left _ _) hfuel)]
          exact hrun fuel (Nat.le_trans (Nat.le_max_right _ _) hfuel)
        · intro hunified values hsolves
          rw [map_cons, map_cons, hequal' hunified values hsolves,
            hequal rfl values (hgoes'.solves values hsolves)]

theorem overlapTypes_ends {left right : Ty} (h : Ready bindings)
    (hleft : Scoped left bindings.length) (hright : Scoped right bindings.length) :
    Ends bindings left right := by
  -- outside: fewer unbound parameters; inside: smaller types under the same bindings
  generalize hcount : unbound bindings = count
  induction count using Nat.strongRecOn generalizing bindings left right with
  | ind count ihCount =>
    obtain ⟨rank, values, hresolves⟩ := h.resolves
    generalize hsize : size (substitute values left) + size (substitute values right) = measure
    induction measure using Nat.strongRecOn generalizing left right with
    | ind measure ihSize =>
      obtain ⟨a, least, ha, hafollowed, hascoped⟩ := overlapValue_ends hresolves h.wellScoped hleft
      obtain ⟨b, more, hb, hbfollowed, hbscoped⟩ := overlapValue_ends hresolves h.wellScoped hright
      -- what holds of the followed types holds of the types
      have hsame : ∀ {values : Nat → Ty}, Solves values bindings →
          substitute values a = substitute values left ∧
            substitute values b = substitute values right :=
        fun hsolves => ⟨hsolves.value (ha least (Nat.le_refl _)),
          hsolves.value (hb more (Nat.le_refl _))⟩
      have hstep : ∀ (unified : Bool) (after : Arguments) (bound : Nat), Goes bindings after →
          (unified = true → ∀ values, Solves values after →
            substitute values a = substitute values b) →
          (∀ fuel, bound ≤ fuel → least ≤ fuel → more ≤ fuel →
            overlapTypes (fuel + 1) left right bindings = some (unified, after)) →
          Ends bindings left right := by
        intro unified after bound hgoes hequal hrun
        refine ⟨unified, after, max bound (max least more) + 1, fun fuel hfuel => ?_, hgoes, ?_⟩
        · obtain ⟨fuel, rfl⟩ := Nat.exists_eq_add_of_le' (Nat.le_trans (Nat.le_add_left 1 _) hfuel)
          exact hrun fuel (by omega) (by omega) (by omega)
        · intro hunified values' hsolves
          obtain ⟨hl, hr⟩ := hsame (hgoes.solves values' hsolves)
          rw [← hl, ← hr]; exact hequal hunified values' hsolves
      by_cases hequal : a = b
      · refine hstep true bindings 0 (Goes.refl h) (fun _ _ _ => by rw [hequal])
          fun fuel _ hfuel hfuel' => ?_
        rw [overlapTypes, ha fuel hfuel, hb fuel hfuel']; simp [hequal]
      · cases a with
        | parameter symbol =>
          obtain ⟨unified, after, bound, hrun, hgoes, hmeans⟩ := ends_parameter h hafollowed
            (hascoped symbol (by simp)) hbscoped hbfollowed
          refine hstep unified after (bound + 1) hgoes hmeans fun fuel hbound hfuel hfuel' => ?_
          -- the step from the parameter itself is the same one
          have hsecond := hrun (fuel + 1) (by omega)
          obtain ⟨fuel, rfl⟩ := Nat.exists_eq_add_of_le' (Nat.le_trans (Nat.le_add_left 1 _) hbound)
          rw [overlapTypes, overlapValue_followed hafollowed, overlapValue_followed hbfollowed] at hsecond
          rw [overlapTypes, ha _ hfuel, hb _ hfuel']; exact hsecond
        | node first children =>
          cases b with
          | parameter symbol =>
            obtain ⟨unified, after, bound, hrun, hgoes, hmeans⟩ := ends_parameter h hbfollowed
              (hbscoped symbol (by simp)) hascoped hafollowed
            refine hstep unified after bound hgoes
              (fun hunified values' hsolves => (hmeans hunified values' hsolves).symm)
              fun fuel hbound hfuel hfuel' => ?_
            rw [overlapTypes, ha fuel hfuel, hb fuel hfuel']
            exact hrun fuel hbound
          | node second others =>
            by_cases hconstructor : sameConstructor first children second others = true
            · obtain ⟨rfl, hlength⟩ := sameConstructor_iff.mp hconstructor
              have hpairs : ∀ left ∈ children, ∀ right ∈ others, Ends bindings left right := by
                intro child hchild other hother
                obtain ⟨hl, hr⟩ := hsame hresolves.solves
                have hless : size (substitute values child) <
                    size (.node first (children.map (substitute values))) :=
                  size_lt_node (mem_map_of_mem hchild)
                have hless' : size (substitute values other) <
                    size (.node first (others.map (substitute values))) :=
                  size_lt_node (mem_map_of_mem hother)
                rw [← substitute_node, hl] at hless
                rw [← substitute_node, hr] at hless'
                exact ihSize _ (by omega) (hascoped.argument hchild) (hbscoped.argument hother) rfl
              obtain ⟨unified, after, bound, hrun, hgoes, hmeans⟩ := overlapArguments_ends
                (fun {others left right} hready hl hr hless =>
                  ihCount (unbound others) hless hready hl hr rfl)
                h (Nat.le_of_eq hcount) (fun child hmem => hascoped.argument hmem)
                (fun child hmem => hbscoped.argument hmem) hpairs hlength
              refine hstep unified after bound hgoes (fun hunified values' hsolves => ?_)
                fun fuel hbound hfuel hfuel' => ?_
              · rw [substitute_node, substitute_node, hmeans hunified values' hsolves]
              · rw [overlapTypes, ha fuel hfuel, hb fuel hfuel']
                simp only [bind_eq_bind, bind_some, if_neg hequal, hconstructor]
                exact hrun fuel hbound
            · refine hstep false bindings 0 (Goes.refl h)
                (fun hfalse => absurd hfalse Bool.false_ne_true) fun fuel _ hfuel hfuel' => ?_
              rw [overlapTypes, ha fuel hfuel, hb fuel hfuel']
              simp only [bind_eq_bind, bind_some, if_neg hequal, if_neg hconstructor]
              rfl

/-! ## Overlap -/

theorem ready_start (count : Nat) : Ready (replicate count none) := by
  have hnone : ∀ index, (replicate count (none : Option Ty)).getD index none = none := by
    intro index
    simp only [List.getD, List.getElem?_replicate]
    split
    · rfl
    · rfl
  refine ⟨fun index ty hbound => ?_, fun _ => 0, .parameter, fun index ty hbound => ?_,
    fun _ _ => rfl, fun index ty hbound => ?_⟩
  all_goals
    rw [hnone] at hbound
    cases hbound

theorem scoped_renamed (first second : Implementation) :
    Scoped (renamed first.count second) (first.count + second.count) := by
  intro index hindex
  rw [renamed, instantiate, mem_parameters_substitute] at hindex
  obtain ⟨other, hother, hin⟩ := hindex
  have hlt := second.within other hother
  have hvalue : argument ((range second.count).map
      fun index => some (.parameter (first.count + index))) other =
      .parameter (first.count + other) := by
    simp [argument, hlt]
  rw [hvalue, mem_parameters_parameter] at hin; omega

/-- Whether two implementations overlap is found out with enough fuel, and found out exactly;
    the chains of the bindings that are left are finite. -/
theorem overlapping_exact (first second : Implementation) : ∃ overlap after bound,
      (∀ fuel, bound ≤ fuel → overlapTypes fuel first.ty (renamed first.count second)
          (replicate (first.count + second.count) none) = some (overlap, after) ∧
        overlapping fuel first second = some overlap) ∧
      (∃ rank values, Resolves rank values after) ∧ (overlap = true ↔
        ∃ left right, substitute left first.ty = substitute right second.ty) := by
  have hlength : (replicate (first.count + second.count) (none : Option Ty)).length =
      first.count + second.count := length_replicate
  have hleft : Scoped first.ty
      (replicate (first.count + second.count) (none : Option Ty)).length := by
    intro index hindex
    have := first.within index hindex
    omega
  have hright : Scoped (renamed first.count second)
      (replicate (first.count + second.count) (none : Option Ty)).length := by
    rw [hlength]; exact scoped_renamed first second
  obtain ⟨overlap, after, bound, hrun, hgoes, hequal⟩ :=
    overlapTypes_ends (ready_start (first.count + second.count)) hleft hright
  have hoverlapping : ∀ fuel, bound ≤ fuel → overlapping fuel first second = some overlap := by
    intro fuel hfuel
    rw [overlapping, hrun fuel hfuel]; rfl
  refine ⟨overlap, after, bound, fun fuel hfuel => ⟨hrun fuel hfuel, hoverlapping fuel hfuel⟩,
    hgoes.ready.resolves, ?_, ?_⟩
  · intro htrue
    obtain ⟨rank, values, hresolves⟩ := hgoes.ready.resolves
    refine ⟨values, fun index => values (first.count + index), ?_⟩
    rw [← substitute_renamed]; exact hequal htrue values hresolves.solves
  · rintro ⟨left, right, hcommon⟩
    exact overlapping_of_common hcommon (hoverlapping bound (Nat.le_refl _))

end Loom.Checking
