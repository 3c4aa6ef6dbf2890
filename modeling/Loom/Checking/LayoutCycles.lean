import Loom.Checking.Layouts

/-
  Which cycles the layout check finds.

  The check enters records, enums and tuples and starts at the nominal declarations: an
  anonymous tuple is made of types that were there before it, so a cycle of tuples alone
  does not exist. A refined type is a leaf to the check, although a value of it is a value
  of its base. So a cycle through a refined type is found only where another one is.
-/

namespace Loom.Layouts

open Interning (Kind)
open Colours List
open Relation

/-! ## Cycles -/

/-- The kinds of types that are laid out in place. -/
def Entry.inPlace (ty : Entry) : Bool := ty.enters || ty.kind = .refined

/-- A value of the type `id` has one of the type `part` in it. -/
def Holds (types : List Entry) (id part : Nat) : Prop :=
  ∃ ty, types[id]? = some ty ∧ ty.inPlace = true ∧ part ∈ ty.stored

/-- The same, but not as the base of a refinement. -/
def HoldsPlainly (types : List Entry) (id part : Nat) : Prop :=
  ∃ ty, types[id]? = some ty ∧ ty.enters = true ∧ part ∈ ty.stored

/-- Some type holds itself by value. -/
def Cyclic (types : List Entry) : Prop := ∃ id, TransGen (Holds types) id id

/-- Some type holds itself through no refined type. -/
def PlainlyCyclic (types : List Entry) : Prop := ∃ id, TransGen (HoldsPlainly types) id id

variable {types : List Entry}

theorem PlainlyCyclic.cyclic (h : PlainlyCyclic types) : Cyclic types := by
  obtain ⟨id, hcycle⟩ := h
  refine ⟨id, TransGen.mono ?_ id id hcycle⟩
  rintro id part ⟨ty, hid, henters, hpart⟩
  exact ⟨ty, hid, by simp [Entry.inPlace, henters], hpart⟩

/-! ## The check as a search -/

/-- What `layout` searches. -/
def graph (types : List Entry) : Search Nat Int Stop where
  inner id := (types[id]?.map Entry.enters).getD false
  children id := (types[id]?.map Entry.stored).getD []
  label owner id :=
    match types[id]? with
    | some ty => if 0 ≤ ty.symbol then ty.symbol else owner
    | none => owner
  refuse declaration := .failure declaration "recursive by-value data layout needs a List boundary"
  exhausted := .fault

theorem edge_iff {id part : Nat} : (graph types).Edge id part ↔ HoldsPlainly types id part := by
  unfold Search.Edge graph HoldsPlainly
  cases hid : types[id]? with
  | none => simp [hid]
  | some ty => simp [hid]

theorem layoutAll_append (layout : Nat → (Nat → Colour) → Except Stop (Nat → Colour))
    (first second : List Nat) (states : Nat → Colour) : layoutAll layout (first ++ second) states =
      layoutAll layout first states >>= layoutAll layout second := by
  induction first generalizing states with
  | nil => rfl
  | cons ty rest ih =>
    rw [cons_append, layoutAll, layoutAll, bind_assoc]
    exact congrArg _ (funext ih)

theorem layoutVariants_eq (layout : Nat → (Nat → Colour) → Except Stop (Nat → Colour))
    (variants : List Variant) (states : Nat → Colour) : layoutVariants layout variants states =
      layoutAll layout (variants.flatMap Variant.fields) states := by
  induction variants generalizing states with
  | nil => rfl
  | cons variant rest ih =>
    rw [flatMap_cons, layoutAll_append]; exact congrArg _ (funext ih)

theorem layoutAll_eq_visitAll {layout visit : Nat → (Nat → Colour) → Except Stop (Nat → Colour)} :
    ∀ (parts : List Nat) (states : Nat → Colour),
      (∀ part ∈ parts, ∀ states, layout part states = visit part states) →
      layoutAll layout parts states = visitAll visit parts states := by
  intro parts
  induction parts with
  | nil => exact fun _ _ => rfl
  | cons part rest ih =>
    intro states h
    rw [layoutAll, h part (.head _) states]
    refine congrArg _ (funext fun after => ih after ?_)
    exact fun other hother => h other (.tail part hother)

/-- By induction on the fuel: the fields and then the variants are one list of parts. -/
theorem layout_eq_visit (h : Laid types) (fuel : Nat) :
    ∀ (owner : Int) (id : Nat) (states : Nat → Colour), id < types.length →
      layout types fuel owner id states = visit (graph types) fuel owner id states := by
  induction fuel with
  | zero => exact fun _ _ _ _ => rfl
  | succ fuel ih =>
    intro owner id states hlt
    have hid : types[id]? = some types[id] := getElem?_eq_getElem hlt
    generalize types[id] = ty at hid
    have hinner : (graph types).inner id = ty.enters := by simp [graph, hid]
    have hchildren : (graph types).children id = ty.stored := by simp [graph, hid]
    have hlabel : (graph types).label owner id = if 0 ≤ ty.symbol then ty.symbol else owner := by
      simp [graph, hid]
    unfold layout visit
    rw [hid, hinner, hchildren, hlabel]
    dsimp only
    cases ty.enters with
    | false => rfl
    | true =>
      cases states id with
      | done => rfl
      | active => rfl
      | unseen =>
        generalize (if 0 ≤ ty.symbol then ty.symbol else owner) = declaration
        have hparts := @layoutAll_eq_visitAll (layout types fuel declaration)
          (visit (graph types) fuel declaration) ty.stored (paint states id .active)
          fun part hpart states =>
            ih declaration part states (h.stored ty (mem_of_getElem? hid) part hpart)
        calc (do
              let states ← layoutAll (layout types fuel declaration) (ty.fields.map Field.ty)
                (paint states id .active)
              let states ← layoutVariants (layout types fuel declaration) ty.variants states
              return paint states id .done)
          _ = layoutAll (layout types fuel declaration) ty.stored (paint states id .active) >>=
                fun states => return paint states id .done := by
              rw [Entry.stored, layoutAll_append, bind_assoc]
              exact congrArg _ (funext fun states => by rw [layoutVariants_eq])
          _ = _ := by rw [hparts]; rfl

/-- Where the check starts. -/
def isRoot (types : List Entry) (index : Nat) : Bool :=
  match types[index]? with
  | some ty => ty.kind = .record || ty.kind = .enum
  | none => false

def rootSymbol (types : List Entry) (index : Nat) : Int := (types[index]?.map (·.symbol)).getD (-1)

theorem layoutRoots_eq (h : Laid types) :
    ∀ (indices : List Nat) (states : Nat → Colour), (∀ index ∈ indices, index < types.length) →
      layoutRoots types indices states =
        visitAll (fun index => visit (graph types) (types.length + 1) (rootSymbol types index) index)
          (indices.filter (isRoot types)) states := by
  intro indices
  induction indices with
  | nil => exact fun _ _ => rfl
  | cons index rest ih =>
    intro states hindices
    have hlt : index < types.length := hindices index (.head _)
    have hid : types[index]? = some types[index] := getElem?_eq_getElem hlt
    have hrest := fun after => ih after fun other hother =>
      hindices other (.tail index hother)
    generalize types[index] = ty at hid
    rw [layoutRoots, hid]
    dsimp only
    by_cases hroot : ty.kind = .record ∨ ty.kind = .enum
    · have his : isRoot types index = true := by
        rw [isRoot, hid]
        simpa using hroot
      have hsymbol : rootSymbol types index = ty.symbol := by simp [rootSymbol, hid]
      rw [if_pos hroot, filter_cons_of_pos his, visitAll, hsymbol,
        layout_eq_visit h _ _ _ _ hlt]
      exact congrArg _ (funext hrest)
    · have hnot : ¬isRoot types index = true := by
        rw [isRoot, hid]
        simpa using hroot
      rw [if_neg hroot, filter_cons_of_neg hnot]; exact hrest states

/-! ## What it finds -/

/-- A path on which no record or enum is left goes down in the table. -/
theorem plain_root (h : Laid types) {first last : Nat}
    (hpath : TransGen (HoldsPlainly types) first last) :
    (∃ root, isRoot types root = true ∧ ReflTransGen (HoldsPlainly types) first root ∧
      TransGen (HoldsPlainly types) root last) ∨ last < first := by
  have hstep : ∀ {id part}, HoldsPlainly types id part → isRoot types id = true ∨ part < id := by
    rintro id part ⟨ty, hid, henters, hpart⟩
    unfold isRoot
    rw [hid]
    by_cases htuple : ty.kind = .tuple
    · exact .inr (h.tuple id ty hid htuple part hpart)
    · left
      simpa [Entry.enters, htuple] using henters
  induction hpath with
  | single hedge =>
    obtain hroot | hlt := hstep hedge
    · exact .inl ⟨first, hroot, ReflTransGen.refl, TransGen.single hedge⟩
    · exact .inr hlt
  | @tail middle last hfront hedge ih =>
    obtain ⟨root, hroot, hto, hfrom⟩ | hlt := ih
    · exact .inl ⟨root, hroot, hto, hfrom.tail hedge⟩
    · obtain hroot | hnext := hstep hedge
      · exact .inl ⟨middle, hroot, hfront.to_reflTransGen, TransGen.single hedge⟩
      · exact .inr (hnext.trans hlt)

theorem PlainlyCyclic.root (h : Laid types) (hcycle : PlainlyCyclic types) :
    ∃ root, isRoot types root = true ∧ TransGen (HoldsPlainly types) root root := by
  obtain ⟨id, hpath⟩ := hcycle
  obtain ⟨root, hroot, hto, hfrom⟩ | hlt := plain_root h hpath
  · exact ⟨root, hroot, hfrom.trans_left hto⟩
  · exact absurd hlt (Nat.lt_irrefl id)

theorem edge_eq (types : List Entry) : (graph types).Edge = HoldsPlainly types := by
  funext id part
  exact propext edge_iff

theorem isRoot_lt {index : Nat} (h : isRoot types index = true) : index < types.length := by
  unfold isRoot at h
  split at h
  next ty hid => exact (List.getElem?_eq_some_iff.mp hid).1
  next => cases h

/-- The check returns: there are more levels of fuel than types. -/
theorem layoutRoots_spec (h : Laid types) :
    (∃ states, checkLayouts types = .ok states ∧ ¬PlainlyCyclic types) ∨
      ∃ declaration, checkLayouts types = .error (.failure declaration
        "recursive by-value data layout needs a List boundary") ∧ PlainlyCyclic types := by
  have hcoloured : ∀ node, Coloured (graph types) (fun _ => .unseen) node := fun _ => ⟨nofun, nofun⟩
  have hnodes : ∀ node, (graph types).inner node = true → node ∈ Finset.range types.length := by
    intro node hinner
    rw [Finset.mem_range]
    by_contra hnot
    have hnone : types[node]? = none := getElem?_eq_none (Nat.not_lt.mp hnot)
    simp [graph, hnone] at hinner
  have hanswers := visitAll_answers
    (fun node states hnode => visit_answers hnodes (types.length + 1) (rootSymbol types node)
      node states hnode) ((range types.length).filter (isRoot types)) (fun _ => .unseen) nofun
    fun target _ => hcoloured target
  rw [← layoutRoots_eq h _ _ fun index hindex => mem_range.mp hindex] at hanswers
  unfold checkLayouts
  cases hrun : layoutRoots types (range types.length) fun _ => .unseen with
  | ok states =>
    rw [hrun] at hanswers
    refine .inl ⟨states, rfl, fun hcycle => ?_⟩
    obtain ⟨root, hroot, hpath⟩ := hcycle.root h
    have hends := hanswers.2 root
      (mem_filter.mpr ⟨mem_range.mpr (isRoot_lt hroot), hroot⟩)
    exact not_cycle_of_acc hends (edge_eq types ▸ hpath)
  | error stop =>
    rw [hrun] at hanswers
    obtain ⟨-, hfuel⟩ | ⟨declaration, id, rfl, hpath⟩ := hanswers
    · have hle : remaining (Finset.range types.length) (fun _ => .unseen) ≤ types.length := by
        refine (Finset.card_filter_le _ _).trans ?_
        rw [Finset.card_range]
      omega
    · exact .inr ⟨declaration, rfl, id, edge_eq types ▸ hpath⟩

theorem layoutRoots_ok_iff (h : Laid types) :
    (∃ states, checkLayouts types = .ok states) ↔ ¬PlainlyCyclic types := by
  obtain ⟨states, hok, hplain⟩ | ⟨declaration, herror, hplain⟩ := layoutRoots_spec h
  · exact iff_of_true ⟨states, hok⟩ hplain
  · refine iff_of_false ?_ (not_not_intro hplain)
    rintro ⟨states, hok⟩
    rw [herror] at hok
    cases hok

/-! ## The check is exact -/

/-- A record that holds a refinement of itself. -/
def linkProgram : List Declaration :=
  [{ kind := .record, name := "Link", parameters := []
     members := [.field "count" (.type "Int" []), .field "next" (.type "Chain" [])]
     base := .tuple [] },
   { kind := .other, name := "Chain", parameters := [], members := [], base := .type "Link" [] }]

/-- A program without packs has nothing to validate. -/
def noPacks (env : Environment) : Except Stop Unit × Environment := (.ok (), env)

/-- What `linkProgram` is prepared to: the builtin types, the record and its refinement. -/
def linkTypes : List Entry :=
  [structural .unit (-1) [], structural .int (-1) [], structural .bool (-1) [],
   structural .text (-1) [], structural .bytes (-1) [], structural .float (-1) [],
   { kind := .record, symbol := 0, arguments := []
     fields := [⟨"count", 1⟩, ⟨"next", 7⟩], variants := [] },
   { kind := .refined, symbol := 1, arguments := [], fields := [⟨"self", 6⟩], variants := [] }]

def linkEnvironment : Environment :=
  { types := linkTypes, phases := [2, 2, 2, 2, 2, 2, 2, 2], expandData := true }

theorem linkProgram_prepared : prepare linkProgram start = .ok ((), linkEnvironment) := by decide

theorem linkTypes_cyclic : Cyclic linkTypes := by
  have hnext : Holds linkTypes 6 7 := ⟨_, rfl, rfl, by decide⟩
  have hbase : Holds linkTypes 7 6 := ⟨_, rfl, rfl, by decide⟩
  exact ⟨6, (TransGen.single hnext).tail hbase⟩

/-- The check passes a record that holds itself through its refinement. -/
theorem layouts_pass_refined_cycle : ∃ env, prepare linkProgram start = .ok ((), env) ∧
      ¬((layouts noPacks env).1 = .ok () ↔ ¬Cyclic (layouts noPacks env).2.types) := by
  refine ⟨linkEnvironment, linkProgram_prepared, ?_⟩
  intro h; exact h.mp rfl linkTypes_cyclic

/-- On every built table, and whatever the validation of the packs does to it: `layouts`
passes exactly the tables without a by-value cycle, if and only if the validation passes and
a table with such a cycle has one through no refined type, or it fails on a table that has
a cycle anyway. -/
theorem layouts_exact_iff (packs : Environment → Except Stop Unit × Environment)
    (hpacks : ∀ env, Built env.types → Built (packs env).2.types) (env : Environment)
    (hbuilt : Built env.types) :
    ((layouts packs env).1 = .ok () ↔ ¬Cyclic (layouts packs env).2.types) ↔
      ((packs env).1 = .ok () ∧ (Cyclic (packs env).2.types → PlainlyCyclic (packs env).2.types)) ∨
        ((packs env).1 ≠ .ok () ∧ Cyclic (packs env).2.types) := by
  have hlaid := (hpacks env hbuilt).laid
  unfold layouts
  generalize packs env = result at hlaid ⊢
  obtain ⟨answer, after⟩ := result
  cases answer with
  | error stop => simp
  | ok =>
    obtain ⟨states, hok, hplain⟩ | ⟨declaration, herror, hplain⟩ := layoutRoots_spec hlaid
    · -- the check passes, so it is right where there is no cycle at all
      have hpass : (discard (checkLayouts after.types) : Except Stop Unit) = .ok () := by
        rw [hok]; rfl
      simp only [hpass]; simp [hplain]
    · have hstop : (discard (checkLayouts after.types) : Except Stop Unit) ≠ .ok () := by
        rw [herror]; exact nofun
      simp only [hstop]; simp [hplain, hplain.cyclic]

theorem layouts_exact_link : ((layouts noPacks linkEnvironment).1 = .ok () ↔
        ¬Cyclic (layouts noPacks linkEnvironment).2.types) ↔ ((noPacks linkEnvironment).1 = .ok () ∧
          (Cyclic (noPacks linkEnvironment).2.types →
            PlainlyCyclic (noPacks linkEnvironment).2.types)) ∨
        ((noPacks linkEnvironment).1 ≠ .ok () ∧ Cyclic (noPacks linkEnvironment).2.types) :=
  layouts_exact_iff noPacks (fun _ h => h) linkEnvironment (prepare_built linkProgram_prepared)

end Loom.Layouts
