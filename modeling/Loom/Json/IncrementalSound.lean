import Loom.Json.Incremental

/-
  What the incremental decoder accepts stands in the grammar.

  The bytes that are behind a state are described by its frames: every frame holds
  the items or fields that are complete, and its phase says how far the next one is
  (`Within`). A token is read apart, so it is kept out of this (`Consumed`).
-/

namespace Loom.Json

open Utf8 Results List Prod

/-! ## Parts of the grammar put together -/

section
variable {room : Nat} {inner after tail : List UInt8}

theorem derives_items_spaces {items : List Value} (h : Derives room inner (.items items))
    (hafter : Spaces after) : Derives room (inner ++ after) (.items items) := by
  generalize hpart : Part.items items = part at h
  induction h generalizing items with
  | @item room before written between value hbefore hvalue hbetween _ =>
    have hjoined : Spaces (between ++ after) := spaces_append.mpr ⟨hbetween, hafter⟩
    have hitem := Derives.item hbefore hvalue hjoined
    simpa  using hitem
  | @items room before written between inner value items hbefore hvalue hbetween hinner _ ih =>
    have hitems := Derives.items hbefore hvalue hbetween (ih rfl)
    simpa  using hitems
  | _ => cases hpart

theorem derives_items_append {items more : List Value} (h : Derives room inner (.items items))
    (htail : Derives room tail (.items more)) :
    Derives room (inner ++ 44 :: tail) (.items (items ++ more)) := by
  generalize hpart : Part.items items = part at h
  induction h generalizing items with
  | @item room before written between value hbefore hvalue hbetween _ =>
    cases hpart
    have hitems := Derives.items hbefore hvalue hbetween htail
    simpa  using hitems
  | @items room before written between inner value items hbefore hvalue hbetween hinner _ ih =>
    cases hpart
    have hitems := Derives.items hbefore hvalue hbetween (ih htail rfl)
    simpa  using hitems
  | _ => cases hpart

theorem derives_fields_spaces {fields : List (String × Value)}
    (h : Derives room inner (.fields fields)) (hafter : Spaces after) :
    Derives room (inner ++ after) (.fields fields) := by
  generalize hpart : Part.fields fields = part at h
  induction h generalizing fields with
  | field hbefore hkey hbetween hbefore' hvalue hbetween' _ =>
    have hfield := Derives.field hbefore hkey hbetween hbefore' hvalue
      (spaces_append.mpr ⟨hbetween', hafter⟩)
    simpa  using hfield
  | fields hbefore hkey hbetween hbefore' hvalue hbetween' hinner _ ih =>
    have hfields := Derives.fields hbefore hkey hbetween hbefore' hvalue hbetween' (ih rfl)
    simpa  using hfields
  | _ => cases hpart

theorem derives_fields_append {fields more : List (String × Value)}
    (h : Derives room inner (.fields fields)) (htail : Derives room tail (.fields more)) :
    Derives room (inner ++ 44 :: tail) (.fields (fields ++ more)) := by
  generalize hpart : Part.fields fields = part at h
  induction h generalizing fields with
  | field hbefore hkey hbetween hbefore' hvalue hbetween' _ =>
    cases hpart
    have hfields := Derives.fields hbefore hkey hbetween hbefore' hvalue hbetween' htail
    simpa  using hfields
  | fields hbefore hkey hbetween hbefore' hvalue hbetween' hinner _ ih =>
    cases hpart
    have hfields := Derives.fields hbefore hkey hbetween hbefore' hvalue hbetween' (ih htail rfl)
    simpa  using hfields
  | _ => cases hpart

theorem derives_leaf {taken : List UInt8} {parsed : Value} {first : UInt8} {more : List UInt8}
    (h : Derives room taken (.value parsed)) (htaken : taken = first :: more)
    (harray : first ≠ 91) (hobject : first ≠ 123) (room' : Nat) :
    Derives room' taken (.value parsed) := by
  cases h with
  | null => exact .null
  | true => exact .true
  | false => exact .false
  | number hnumeral => exact .number hnumeral
  | string hquoted => exact .string hquoted
  | emptyArray _ => exact absurd (cons.inj htaken).1.symm harray
  | array _ => exact absurd (cons.inj htaken).1.symm harray
  | emptyObject _ => exact absurd (cons.inj htaken).1.symm hobject
  | object _ _ => exact absurd (cons.inj htaken).1.symm hobject

end

/-! ## Frames -/

/-- The fields of an object up to where the next key is expected. -/
def Lead (room : Nat) (lead : List UInt8) (fields : List (String × Value)) : Prop :=
  (fields = [] ∧ Spaces lead) ∨
    ∃ inner before, lead = inner ++ 44 :: before ∧ Derives room inner (.fields fields) ∧
      (fields.map fst).Nodup ∧ Spaces before

/-- The bytes behind the bracket of a frame. -/
inductive Within (room : Nat) : List UInt8 → JsonFrame → Prop where
  | openArray {before} : Spaces before → Within room before (.array [] .first)
  | nextItem {inner before items} : Derives room inner (.items items) → Spaces before →
      Within room (inner ++ 44 :: before) (.array items .value)
  | item {inner items} : Derives room inner (.items items) →
      Within room inner (.array items .separator)
  | openObject {before key} : Spaces before → Within room before (.object [] [] key .first)
  | nextField {inner before fields key} : Derives room inner (.fields fields) →
      (fields.map fst).Nodup → Spaces before →
      Within room (inner ++ 44 :: before) (.object fields (fields.map fst) key .key)
  | key {lead token between fields key} : Lead room lead fields → key ∉ fields.map fst →
      Quoted token key → Spaces between →
      Within room (lead ++ (token ++ between))
        (.object fields (fields.map fst ++ [key]) key .colon)
  | value {lead token between before fields key} : Lead room lead fields →
      key ∉ fields.map fst → Quoted token key → Spaces between → Spaces before →
      Within room (lead ++ (token ++ (between ++ 58 :: before)))
        (.object fields (fields.map fst ++ [key]) key .value)
  | field {inner fields key} : Derives room inner (.fields fields) →
      (fields.map fst).Nodup →
      Within room inner (.object fields (fields.map fst) key .separator)

def JsonFrame.opener : JsonFrame → UInt8
  | .array _ _ => 91
  | .object _ _ _ _ => 123

/-- The bytes of all frames, and of the root. -/
inductive Stack : List UInt8 → List JsonFrame → Option Value → Prop where
  | start {before} : Spaces before → Stack before [] none
  | done {taken parsed} : Document taken parsed → Stack taken [] (some parsed)
  | push {outside frames inner frame} : Stack outside frames none →
      frames.length < maximumDepth → Within (maximumDepth - (frames.length + 1)) inner frame →
      Stack (outside ++ frame.opener :: inner) (frame :: frames) none

section
variable {room : Nat} {inner lead after taken : List UInt8} {fields : List (String × Value)}

theorem Lead.append {tail : List UInt8} {more : List (String × Value)} (h : Lead room lead fields)
    (htail : Derives room tail (.fields more)) :
    Derives room (lead ++ tail) (.fields (fields ++ more)) := by
  obtain ⟨rfl, hspaces⟩ | ⟨inner, before, rfl, hinner, _, hbefore⟩ := h
  · exact derives_spaces_fields hspaces htail
  · have hjoined := derives_fields_append hinner (derives_spaces_fields hbefore htail)
    simpa  using hjoined

theorem Lead.nodup (h : Lead room lead fields) : (fields.map fst).Nodup := by
  obtain ⟨rfl, _⟩ | ⟨_, _, _, _, hnodup, _⟩ := h
  · exact nodup_nil
  · exact hnodup

theorem within_spaces {frame : JsonFrame} (h : Within room inner frame) (hafter : Spaces after) :
    Within room (inner ++ after) frame := by
  cases h with
  | openArray hbefore => exact .openArray (spaces_append.mpr ⟨hbefore, hafter⟩)
  | @nextItem inner before items hinner hbefore =>
    have hnext := Within.nextItem hinner (spaces_append.mpr ⟨hbefore, hafter⟩)
    simpa  using hnext
  | item hinner => exact .item (derives_items_spaces hinner hafter)
  | openObject hbefore => exact .openObject (spaces_append.mpr ⟨hbefore, hafter⟩)
  | @nextField inner before fields key hinner hnodup hbefore =>
    have hnext := @Within.nextField _ _ _ _ key hinner hnodup (spaces_append.mpr ⟨hbefore, hafter⟩)
    simpa  using hnext
  | key hlead hfresh hquoted hbetween =>
    have hkey := Within.key hlead hfresh hquoted (spaces_append.mpr ⟨hbetween, hafter⟩)
    simpa  using hkey
  | value hlead hfresh hquoted hbetween hbefore =>
    have hvalue := Within.value hlead hfresh hquoted hbetween (spaces_append.mpr ⟨hbefore, hafter⟩)
    simpa  using hvalue
  | field hinner hnodup => exact .field (derives_fields_spaces hinner hafter) hnodup

theorem stack_spaces {frames : List JsonFrame} {root : Option Value} (h : Stack taken frames root)
    (hafter : Spaces after) : Stack (taken ++ after) frames root := by
  cases h with
  | start hbefore => exact .start (spaces_append.mpr ⟨hbefore, hafter⟩)
  | done hdocument =>
    obtain ⟨before, inner, behind, rfl, hbefore, hderives, hbehind⟩ := hdocument
    refine .done ⟨before, inner, behind ++ after, ?_, hbefore, hderives,
      spaces_append.mpr ⟨hbehind, hafter⟩⟩
    simp [append_assoc]
  | push houtside hdepth hwithin =>
    rw [append_assoc]
    exact .push houtside hdepth (within_spaces hwithin hafter)

end

/-! ## Values -/

section
variable {state next : DecoderState} {room : Nat} {inner taken done : List UInt8} {parsed : Value}

theorem derives_quoted {text : String} (h : Derives room taken (.value (.string text))) :
    Quoted taken text := by
  cases h with
  | string hquoted => exact hquoted

variable {frame : JsonFrame} {outer : List JsonFrame} {current : UInt8}

theorem within_accept (h : Within room inner frame) (hframes : state.frames = frame :: outer)
    (hderives : Derives room taken (.value parsed)) (haccept : jsonAccept state parsed = .ok next) :
    ∃ frame', next = { state with frames := frame' :: outer } ∧ frame'.opener = frame.opener ∧
      Within room (inner ++ taken) frame' := by
  have hitem := Derives.item spaces_nil hderives spaces_nil
  rw [append_nil] at hitem
  unfold jsonAccept at haccept
  rw [hframes] at haccept
  -- A name in front of its value.
  have hname : ∀ {lead : List UInt8} {fields : List (String × Value)} {key : String}
      {phase : JsonPhase}, frame = .object fields (fields.map fst) key phase →
      inner = lead → Lead room lead fields → phase = .first ∨ phase = .key →
      ∃ frame', next = { state with frames := frame' :: outer } ∧ frame'.opener = frame.opener ∧
        Within room (inner ++ taken) frame' := by
    intro lead fields key phase hframe hinner hlead hphase
    subst hframe hinner
    dsimp only at haccept
    rw [if_pos hphase] at haccept
    split at haccept
    · next name =>
      by_cases hused : name ∈ fields.map fst
      · rw [if_pos hused] at haccept
        cases haccept
      · rw [if_neg hused] at haccept
        cases haccept
        have hkey := Within.key hlead hused (derives_quoted hderives) spaces_nil
        rw [append_nil] at hkey; exact ⟨_, rfl, rfl, hkey⟩
    · cases haccept
  cases h with
  | openArray hbefore =>
    cases haccept
    exact ⟨_, rfl, rfl, .item (derives_spaces_items hbefore hitem)⟩
  | @nextItem inner before items hinner hbefore =>
    cases haccept
    refine ⟨_, rfl, rfl, .item ?_⟩
    rw [append_assoc]
    exact derives_items_append hinner (derives_spaces_items hbefore hitem)
  | item _ => cases haccept
  | openObject hbefore => exact hname rfl rfl (.inl ⟨rfl, hbefore⟩) (.inl rfl)
  | nextField hinner hnodup hbefore =>
    exact hname rfl rfl (.inr ⟨_, _, rfl, hinner, hnodup, hbefore⟩) (.inr rfl)
  | key _ _ _ _ => cases haccept
  | @value lead token between before fields key hlead hfresh hquoted hbetween hbefore =>
    cases haccept
    have hfield := Derives.field spaces_nil hquoted hbetween hbefore hderives spaces_nil
    have hfields := hlead.append hfield
    have hnodup := nodup_seen hlead.nodup hfresh
    have hkeys : fields.map fst ++ [key] = (fields ++ [(key, parsed)]).map fst := by
      rw [map_append]; rfl
    rw [hkeys] at hnodup ⊢
    refine ⟨_, rfl, rfl, .field ?_ hnodup⟩
    simpa  using hfields
  | field _ _ => cases haccept

/-- An accepted value goes to the innermost frame, or is the root. -/
theorem stack_accept (h : Stack done state.frames state.root)
    (hderives : Derives (maximumDepth - state.frames.length) taken (.value parsed))
    (haccept : jsonAccept state parsed = .ok next) :
    Stack (done ++ taken) next.frames next.root := by
  generalize hframes : state.frames = frames at h hderives
  generalize hroot : state.root = root at h
  cases h with
  | start hbefore =>
    unfold jsonAccept at haccept
    rw [hframes, hroot] at haccept
    cases haccept
    exact .done ⟨_, taken, [], by rw [append_nil], hbefore, hderives, spaces_nil⟩
  | done hdocument =>
    unfold jsonAccept at haccept
    rw [hframes, hroot] at haccept
    cases haccept
  | @push outside frames inner frame houtside hdepth hwithin =>
    obtain ⟨frame', rfl, hopener, hwithin'⟩ := within_accept hwithin hframes hderives haccept
    rw [hroot, ← hopener, append_assoc]; exact .push houtside hdepth hwithin'

/-! ## Structure -/

theorem expected_root (h : Stack done state.frames state.root)
    (hexpected : jsonExpectedValue state = .ok ()) : state.root = none := by
  generalize hframes : state.frames = frames at h
  generalize hroot : state.root = root at h
  cases h with
  | start _ => rfl
  | done _ =>
    unfold jsonExpectedValue at hexpected
    rw [hframes, hroot] at hexpected
    cases hexpected
  | push _ _ _ => rfl

/-- The bytes of a frame that is closed are those of its value. -/
theorem within_array {items : List Value} {phase : JsonPhase}
    (h : Within room inner (.array items phase)) (hphase : phase = .first ∨ phase = .separator) :
    Derives (room + 1) (91 :: (inner ++ [93])) (.value (.array items)) := by
  cases h with
  | openArray hbefore => exact .emptyArray hbefore
  | nextItem _ _ => exact absurd hphase (by decide)
  | item hinner => exact .array hinner

theorem within_object {fields : List (String × Value)} {keys : List String} {key : String}
    {phase : JsonPhase} (h : Within room inner (.object fields keys key phase))
    (hphase : phase = .first ∨ phase = .separator) :
    Derives (room + 1) (123 :: (inner ++ [125])) (.value (.object fields)) := by
  cases h with
  | openObject hbefore => exact .emptyObject hbefore
  | nextField _ _ _ => exact absurd hphase (by decide)
  | key _ _ _ _ => exact absurd hphase (by decide)
  | value _ _ _ _ _ => exact absurd hphase (by decide)
  | field hinner hnodup => exact .object hinner hnodup

theorem stack_close (h : Stack done state.frames state.root)
    (hframes : state.frames = frame :: outer) (hderives : ∀ {room inner}, Within room inner frame →
      Derives (room + 1) (frame.opener :: (inner ++ [current])) (.value parsed))
    (haccept : jsonAccept { state with frames := outer } parsed = .ok next) :
    Stack (done ++ [current]) next.frames next.root := by
  generalize hroot : state.root = root at h
  rw [hframes] at h
  cases h with
  | @push outside _ inner _ houtside hdepth hwithin =>
    have hvalue := hderives hwithin
    have hroom : maximumDepth - (outer.length + 1) + 1 = maximumDepth - outer.length := by omega
    rw [hroom] at hvalue
    rw [← hroot] at houtside
    have hstack := @stack_accept { state with frames := outer } _ _ _ _ houtside hvalue haccept
    simpa  using hstack

theorem within_separator (h : Within room inner frame)
    (hseparator : jsonSeparator state current outer frame = .ok next) :
    ∃ frame', next = { state with frames := frame' :: outer } ∧ frame'.opener = frame.opener ∧
      Within room (inner ++ [current]) frame' := by
  unfold jsonSeparator at hseparator
  split at hseparator
  · next items phase =>
    split at hseparator
    · cases hseparator
    · next hphase =>
      simp only [not_or, not_not] at hphase
      obtain ⟨rfl, rfl⟩ := hphase
      cases hseparator
      cases h with
      | item hinner => exact ⟨_, rfl, rfl, .nextItem hinner spaces_nil⟩
  · next fields keys key phase =>
    split at hseparator
    · next hphase =>
      obtain ⟨rfl, rfl⟩ := hphase
      cases hseparator
      cases h with
      | key hlead hfresh hquoted hbetween =>
        have hvalue := Within.value hlead hfresh hquoted hbetween spaces_nil
        refine ⟨_, rfl, rfl, ?_⟩
        simpa  using hvalue
    · split at hseparator
      · next hphase =>
        obtain ⟨rfl, rfl⟩ := hphase
        cases hseparator
        cases h with
        | field hinner hnodup => exact ⟨_, rfl, rfl, .nextField hinner hnodup spaces_nil⟩
      · cases hseparator

theorem stack_structure (h : Stack done state.frames state.root)
    (hstructure : jsonStructure state current = .ok next) :
    Stack (done ++ [current]) next.frames next.root := by
  unfold jsonStructure at hstructure
  by_cases hopen : current = 91 ∨ current = 123
  · rw [if_pos hopen] at hstructure
    obtain ⟨_, hexpected, hstructure⟩ := bind_eq_ok.mp hstructure
    have hroot := expected_root h hexpected
    by_cases hdepth : 64 ≤ state.frames.length
    · rw [if_pos hdepth] at hstructure
      cases hstructure
    · rw [if_neg hdepth] at hstructure
      cases hstructure
      rw [hroot] at h ⊢
      obtain rfl | rfl := hopen
      · exact .push h (Nat.lt_of_not_le hdepth) (.openArray spaces_nil)
      · exact .push h (Nat.lt_of_not_le hdepth) (.openObject spaces_nil)
  · rw [if_neg hopen] at hstructure
    split at hstructure
    · cases hstructure
    · next frame outer hframes =>
      by_cases hclose : current = 93 ∨ current = 125
      · rw [if_pos hclose] at hstructure
        split at hstructure
        · next items phase =>
          split at hstructure
          · cases hstructure
          · next hphase =>
            simp only [not_or, not_and_or, not_not] at hphase
            obtain ⟨rfl, hends⟩ := hphase
            exact stack_close h hframes (fun hwithin => within_array hwithin hends) hstructure
        · next fields keys key phase =>
          split at hstructure
          · cases hstructure
          · next hphase =>
            simp only [not_or, not_and_or, not_not] at hphase
            obtain ⟨rfl, hends⟩ := hphase
            exact stack_close h hframes (fun hwithin => within_object hwithin hends) hstructure
      · rw [if_neg hclose] at hstructure
        generalize hroot : state.root = root at h
        rw [hframes] at h
        cases h with
        | @push outside _ inner _ houtside hdepth hwithin =>
          obtain ⟨frame', rfl, hopener, hwithin'⟩ := within_separator hwithin hstructure
          dsimp only
          rw [hroot, append_assoc, ← hopener]
          exact .push houtside hdepth hwithin'

end

/-! ## Bytes -/

/-- A token that is read begins with a byte that is neither a space nor structure. -/
def Lexical : JsonToken → List UInt8 → Prop
  | .none, token => token = []
  | _, token => ∃ first more, token = first :: more ∧ space first = false ∧ structural first = false

/-- The bytes behind a state: those of its frames, and those of its token. -/
def Consumed (taken : List UInt8) (state : DecoderState) : Prop :=
  ∃ done, taken = done ++ state.token ∧ Stack done state.frames state.root ∧
    Lexical state.mode state.token

section
variable {state next : DecoderState} {taken : List UInt8} {current : UInt8}

theorem consumed_decoder : Consumed [] decoder := ⟨[], rfl, .start spaces_nil, rfl⟩

theorem lexical_grown {mode mode' : JsonToken} {token : List UInt8} (h : Lexical mode token)
    (hmode : mode ≠ .none) (hmode' : mode' ≠ .none) (current : UInt8) :
    Lexical mode' (token ++ [current]) := by
  have hsome : ∃ first more, token = first :: more ∧ space first = false ∧
      structural first = false := by
    cases mode with
    | none => exact absurd rfl hmode
    | string => exact h
    | escape => exact h
    | scalar => exact h
  obtain ⟨first, more, rfl, hspace, hstructural⟩ := hsome
  have hgrown : ∃ other rest, first :: more ++ [current] = other :: rest ∧ space other = false ∧
      structural other = false := ⟨first, more ++ [current], rfl, hspace, hstructural⟩
  cases mode' with
  | none => exact absurd rfl hmode'
  | string => exact hgrown
  | escape => exact hgrown
  | scalar => exact hgrown

/-- The text of a token is a value without spaces in front. -/
theorem document_token {token : List UInt8} {first : UInt8} {more : List UInt8} {parsed : Value}
    (h : Document token parsed) (htoken : token = first :: more) (hspace : space first = false)
    (hstructural : structural first = false) (room : Nat) :
    ∃ inner after, token = inner ++ after ∧ Derives room inner (.value parsed) ∧ Spaces after := by
  obtain ⟨before, inner, after, rfl, hbefore, hderives, hafter⟩ := h
  cases before with
  | nil =>
    obtain ⟨first', more', rfl, _⟩ := derives_first hderives
    obtain rfl : first' = first := (cons.inj htoken).1
    refine ⟨_, after, rfl, derives_leaf hderives rfl ?_ ?_ room, hafter⟩
    · intro harray
      rw [harray] at hstructural; exact absurd hstructural (by decide)
    · intro hobject
      rw [hobject] at hstructural; exact absurd hstructural (by decide)
  | cons byte before =>
    obtain rfl : byte = first := (cons.inj htoken).1
    have hbyte := hbefore.all byte (.head _)
    rw [hspace] at hbyte
    cases hbyte

theorem token_sound (h : Consumed taken state) (hmode : state.mode ≠ .none)
    (htoken : jsonToken state = .ok next) :
    Stack taken next.frames next.root ∧ next.mode = .none ∧ next.token = [] := by
  obtain ⟨done, rfl, hstack, hlexical⟩ := h
  obtain ⟨text, parsed, htext, hparse, haccept⟩ := jsonToken_eq_ok.mp htoken
  have hdocument := parse_sound hparse
  rw [htext] at hdocument
  obtain ⟨first, more, hfirst, hspace, hstructural⟩ : ∃ first more, state.token = first :: more ∧
      space first = false ∧ structural first = false := by
    cases hcase : state.mode with
    | none => exact absurd hcase hmode
    | string => rw [hcase] at hlexical; exact hlexical
    | escape => rw [hcase] at hlexical; exact hlexical
    | scalar => rw [hcase] at hlexical; exact hlexical
  obtain ⟨inner, after, hinner, hderives, hafter⟩ :=
    document_token hdocument hfirst hspace hstructural (maximumDepth - state.frames.length)
  have haccepted := @stack_accept { state with token := [], mode := .none } next _ _ _ hstack
    hderives haccept
  obtain ⟨frames, root, rfl⟩ := jsonAccept_eq haccept
  refine ⟨?_, rfl, rfl⟩
  rw [hinner, ← append_assoc]; exact stack_spaces haccepted hafter

theorem outside_sound (hstack : Stack taken state.frames state.root) (hmode : state.mode = .none)
    (htoken : state.token = []) (h : jsonOutside state current = .ok next) :
    Consumed (taken ++ [current]) next := by
  unfold jsonOutside at h
  by_cases hspace : space current = true
  · rw [if_pos hspace] at h
    cases h
    refine ⟨taken ++ [current], by rw [htoken, append_nil], ?_, ?_⟩
    · refine stack_spaces hstack ?_
      intro byte hbyte
      rw [List.mem_singleton.mp hbyte]; exact mem_spaces.mpr hspace
    · rw [hmode]; exact htoken
  · rw [if_neg hspace] at h
    by_cases hstructural : structural current = true
    · rw [if_pos hstructural] at h
      have hclosed := stack_structure hstack h
      obtain ⟨frames, root, rfl⟩ := jsonStructure_eq h
      refine ⟨taken ++ [current], by rw [htoken, append_nil], hclosed, ?_⟩
      rw [hmode]; exact htoken
    · rw [if_neg hstructural] at h
      obtain ⟨_, _, h⟩ := bind_eq_ok.mp h
      cases h
      refine ⟨taken, by rw [htoken, nil_append], hstack, ?_⟩
      have hfirst : ∃ first more, state.token ++ [current] = first :: more ∧
          space first = false ∧ structural first = false :=
        ⟨current, [], by rw [htoken, nil_append], by simpa using hspace, by simpa using hstructural⟩
      split
      · exact hfirst
      · exact hfirst

/-- One byte keeps the description. -/
theorem stepByte_consumed (h : Consumed taken state) (hstep : stepByte state current = .ok next) :
    Consumed (taken ++ [current]) next := by
  -- A byte that goes to the token.
  have hgrown : ∀ {mode : JsonToken} {offset : Nat}, state.mode ≠ .none → mode ≠ .none →
      Consumed (taken ++ [current])
        { state with offset := offset, mode := mode, token := state.token ++ [current] } := by
    intro mode offset hstate hmode
    obtain ⟨done, rfl, hstack, hlexical⟩ := h
    exact ⟨done, append_assoc _ _ _, hstack, lexical_grown hlexical hstate hmode current⟩
  by_cases hinside : state.mode ≠ .string ∧ state.mode ≠ .escape
  · rw [stepByte_outside hinside] at hstep
    obtain ⟨middle, hbyte, hstep⟩ := bind_eq_ok.mp hstep
    cases hstep
    show Consumed (taken ++ [current]) middle
    unfold jsonByte at hbyte
    by_cases hscalar : state.mode = .scalar
    · rw [if_pos hscalar] at hbyte
      have hsome : state.mode ≠ .none := by
        rw [hscalar]; decide
      split at hbyte
      · cases hbyte
        exact hgrown hsome hsome
      · obtain ⟨closed, htoken, hbyte⟩ := bind_eq_ok.mp hbyte
        obtain ⟨hstack, hmode, hempty⟩ := token_sound h hsome htoken
        exact outside_sound hstack hmode hempty hbyte
    · rw [if_neg hscalar] at hbyte
      have hnone : state.mode = .none := by
        cases hcase : state.mode with
        | none => rfl
        | string => exact absurd hcase hinside.1
        | escape => exact absurd hcase hinside.2
        | scalar => exact absurd hcase hscalar
      obtain ⟨done, rfl, hstack, hlexical⟩ := h
      rw [hnone] at hlexical
      have hempty : state.token = [] := hlexical
      rw [hempty, append_nil]; exact outside_sound hstack hnone hempty hbyte
  · by_cases hescape : state.mode = .escape
    · rw [stepByte_escape hescape] at hstep
      cases hstep
      exact hgrown (by rw [hescape]; decide) (by decide)
    · have hstring : state.mode = .string := by
        by_contra hother
        exact hinside ⟨hother, hescape⟩
      have hsome : state.mode ≠ .none := by
        rw [hstring]; decide
      rw [stepByte_string hstring] at hstep
      split at hstep
      · cases hstep
        exact hgrown hsome (by decide)
      · split at hstep
        · obtain ⟨closed, htoken, hstep⟩ := bind_eq_ok.mp hstep
          cases hstep
          have hquote : Consumed (taken ++ [current])
              { state with token := state.token ++ [current] } := hgrown hsome hsome
          obtain ⟨hstack, hmode, hempty⟩ := token_sound hquote hsome htoken
          refine ⟨taken ++ [current], by rw [hempty, append_nil], hstack, ?_⟩
          rw [hmode]; exact hempty
        · cases hstep
          exact hgrown hsome hsome

theorem drive_consumed {rest : List UInt8} (h : Consumed taken state)
    (hdrive : drive state rest = .ok next) : Consumed (taken ++ rest) next := by
  induction rest generalizing taken state with
  | nil =>
    cases hdrive
    rw [append_nil]; exact h
  | cons current rest ih =>
    obtain ⟨middle, hstep, hrest⟩ := bind_eq_ok.mp hdrive
    have hmoved := ih (stepByte_consumed h hstep) hrest
    rw [append_assoc] at hmoved; exact hmoved

theorem finished_sound {parsed : Value} (h : Consumed taken state)
    (hfinished : jsonFinished state = .ok parsed) : Document taken parsed := by
  obtain ⟨last, hlast, hfinished⟩ := bind_eq_ok.mp hfinished
  have hstack : Stack taken last.frames last.root := by
    unfold jsonLast at hlast
    by_cases hmode : state.mode ≠ .none
    · rw [if_pos hmode] at hlast; exact (token_sound h hmode hlast).1
    · rw [if_neg hmode] at hlast
      cases hlast
      obtain ⟨done, rfl, hstack, hlexical⟩ := h
      rw [not_not.mp hmode] at hlexical
      have hempty : state.token = [] := hlexical
      rw [hempty, append_nil]; exact hstack
  split at hfinished
  · cases hfinished
  · next hframes =>
    rw [not_not.mp hframes] at hstack
    split at hfinished
    · next root hroot =>
      cases hfinished
      rw [hroot] at hstack
      cases hstack with
      | done hdocument => exact hdocument
    · cases hfinished

end

end Loom.Json
