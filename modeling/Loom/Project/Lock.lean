import Mathlib.Data.List.Perm.Basic
import Loom.Project.Identities

/-
  Lock files.

  A lock file has a line for each dependency edge, eight fields between tabs. The
  encoder sorts the lines; the decoder checks every field and every pair of lines.

  Correspondence (lock.loom, paths.loom ↔ Lean), where names differ:
    the conditions of a turn of `parse_lock` ↔ `sourceIdentity`, `checkEntry`
    a turn, the loop, `parse_lock` ↔ `parseEntry`, `parseLines`, `parseLock`
    `contains`, `include` ↔ `includeLine`, its loop `shifted`
    a line of `encode_lock` ↔ `encodeLine`
  The loop of `include` goes from the end, so `shifted` has the list reversed.
-/

namespace Loom.Versions

structure LockedSource where
  owner : String
  name : String
  git : String
  rev : String
  tree : String
  subdir : String
  request : String
  version : String
  deriving DecidableEq

end Loom.Versions

namespace Loom.Lock

open Utf8 Texts Identities List Results
open Versions (LockedSource)

/-! ## Decoding -/

def lockIndex (locks : List LockedSource) (owner name : String) : Int :=
  match locks.findIdx? fun entry => entry.owner == owner && entry.name == name with
  | some index => index
  | none => -1

/-- The conditions on the fields of an entry, in their order. -/
def sourceIdentity (entry : LockedSource) : Except Stop Bool := do
  if !hexId entry.owner 64 || !segment entry.name || entry.name == "std" then return false
  if !(← validGit entry.git entry.rev) then return false
  if !hexId entry.tree 64 then return false
  if !(← validGitSubdir entry.subdir) then return false
  return hexId entry.request 64

def checkVersion (version : String) : Except Stop Unit :=
  if version = "" then return ()
  else do
    let _ ← parseVersion version
    return ()

def checkEntry (locks : List LockedSource) (entry : LockedSource) : Except Stop Unit := do
  let valid ← sourceIdentity entry
  if !valid then fail "invalid loom.lock source identity"
  else
    checkVersion entry.version
    if lockIndex locks entry.owner entry.name ≥ 0 then fail "duplicate loom.lock dependency edge"
    else if locks.any fun previous =>
        previous.git == entry.git && previous.rev == entry.rev && previous.tree != entry.tree then
      fail "inconsistent loom.lock source digest"
    else return ()

def parseEntry (locks : List LockedSource) (line : String) : Except Stop LockedSource := do
  match ← parts line 9 with
  | [owner, name, git, rev, tree, subdir, request, version] =>
    let entry : LockedSource := ⟨owner, name, git, rev, tree, subdir, request, version⟩
    checkEntry locks entry
    return entry
  | _ => fail "malformed loom.lock entry"

/-- The loop over the lines after the first. -/
def parseLines : List String → List LockedSource → Except Stop (List LockedSource)
  | [], _ => fail "loom.lock requires a final newline"
  | line :: rest, locks =>
    if line = "" ∧ rest = [] then return locks
    else do
      let entry ← parseEntry locks line
      parseLines rest (locks ++ [entry])

def parseLock (text : String) : Except Stop (List LockedSource) := do
  let lines ← parts text 10
  if lines.headD "" ≠ "loom-lock 3" then fail "unsupported loom.lock format"
  else parseLines lines.tail []

/-! ## Encoding -/

/-- The loop that makes room for a line: over those before it, the last one first. -/
def shifted (value : String) : List String → List String
  | [] => [value]
  | last :: front =>
    if before value last then last :: shifted value front else value :: last :: front

def includeLine (values : List String) (value : String) : List String :=
  if values.contains value then values else (shifted value values.reverse).reverse

def encodeLine (entry : LockedSource) : String :=
  entry.owner ++ ("\t" ++ entry.name) ++ ("\t" ++ entry.git) ++ ("\t" ++ entry.rev) ++
    ("\t" ++ entry.tree) ++ ("\t" ++ entry.subdir) ++ ("\t" ++ entry.request) ++
    ("\t" ++ entry.version)

def encodedLines (locks : List LockedSource) : List String :=
  locks.foldl (fun lines entry => includeLine lines (encodeLine entry)) []

def encodeLock (locks : List LockedSource) : Except Stop String :=
  let output := bytes "loom-lock 3\n" ++ (encodedLines locks).flatMap fun line => bytes line ++ [10]
  match decode output with
  | some text => .ok text
  | none => .error .fault

/-! ## The lines in order -/

def Ordered (lines : List String) : Prop := lines.Pairwise fun a b => before a b = true

variable {value line : String} {lines : List String} {locks others : List LockedSource}
  {entry : LockedSource} {text : String}

theorem mem_shifted (lines : List String) :
    line ∈ shifted value lines ↔ line = value ∨ line ∈ lines := by
  induction lines with
  | nil => simp [shifted]
  | cons last front ih =>
    rw [shifted]
    split
    · rw [mem_cons, ih, mem_cons]; exact or_left_comm
    · rw [mem_cons]

theorem shifted_ordered (hnew : value ∉ lines) (h : lines.Pairwise fun a b => before b a = true) :
    (shifted value lines).Pairwise fun a b => before b a = true := by
  induction lines with
  | nil => exact pairwise_singleton _ _
  | cons last front ih =>
    obtain ⟨hlast, hfront⟩ := pairwise_cons.mp h
    rw [mem_cons, not_or] at hnew
    rw [shifted]
    split
    case isTrue hbefore =>
      refine pairwise_cons.mpr ⟨fun line hmem => ?_, ih hnew.2 hfront⟩
      obtain rfl | hmem := (mem_shifted front).mp hmem
      · exact hbefore
      · exact hlast line hmem
    case isFalse hbefore =>
      have hafter := (before_total hnew.1).resolve_left hbefore
      refine pairwise_cons.mpr ⟨fun line hmem => ?_, h⟩
      obtain rfl | hmem := mem_cons.mp hmem
      · exact hafter
      · exact before_trans (hlast line hmem) hafter

theorem ordered_includeLine (h : Ordered lines) (value : String) :
    Ordered (includeLine lines value) := by
  unfold includeLine
  split
  case isTrue => exact h
  case isFalse hnew =>
    refine pairwise_reverse.mpr (shifted_ordered ?_ (pairwise_reverse.mpr h))
    simpa using hnew

theorem mem_includeLine : line ∈ includeLine lines value ↔ line = value ∨ line ∈ lines := by
  unfold includeLine
  split
  case isTrue hmem =>
    rw [contains_iff_mem] at hmem
    exact ⟨.inr, fun h => h.elim (fun heq => heq ▸ hmem) id⟩
  case isFalse => rw [mem_reverse, mem_shifted, mem_reverse]

theorem foldl_includeLine (locks : List LockedSource) (h : Ordered lines) :
    Ordered (locks.foldl (fun lines entry => includeLine lines (encodeLine entry)) lines) ∧
    ∀ line, line ∈ locks.foldl (fun lines entry => includeLine lines (encodeLine entry)) lines ↔
      line ∈ lines ∨ ∃ entry ∈ locks, encodeLine entry = line := by
  induction locks generalizing lines with
  | nil => exact ⟨h, fun line => by simp⟩
  | cons entry rest ih =>
    obtain ⟨hordered, hmem⟩ := ih (ordered_includeLine h (encodeLine entry))
    refine ⟨hordered, fun line => (hmem line).trans ?_⟩
    rw [mem_includeLine]
    simp only [mem_cons, exists_eq_or_imp]
    constructor
    · rintro ((rfl | hline) | hrest)
      · exact .inr (.inl rfl)
      · exact .inl hline
      · exact .inr (.inr hrest)
    · rintro (hline | hsame | hrest)
      · exact .inl (.inr hline)
      · exact .inl (.inl hsame.symm)
      · exact .inr hrest

theorem encodedLines_ordered (locks : List LockedSource) : Ordered (encodedLines locks) :=
  (foldl_includeLine locks List.Pairwise.nil).1

theorem mem_encodedLines :
    line ∈ encodedLines locks ↔ ∃ entry ∈ locks, encodeLine entry = line := by
  have h := (foldl_includeLine locks List.Pairwise.nil).2 line
  simpa [encodedLines] using h

theorem Ordered.nodup {lines : List String} (h : Ordered lines) : lines.Nodup :=
  h.imp fun hbefore heq => by
    rw [heq, before_irrefl] at hbefore
    cases hbefore

theorem Ordered.eq {others : List String} (h : Ordered lines) (h' : Ordered others)
    (hsame : ∀ line, line ∈ lines ↔ line ∈ others) : lines = others := by
  refine List.Perm.eq_of_pairwise (fun a b _ _ hab hba => ?_) h h'
    ((perm_ext_iff_of_nodup h.nodup h'.nodup).mpr hsame)
  rw [before_asymm hab] at hba
  cases hba

theorem encodedLines_perm (h : locks.Perm others) : encodedLines locks = encodedLines others := by
  refine (encodedLines_ordered locks).eq (encodedLines_ordered others) fun line => ?_
  rw [mem_encodedLines, mem_encodedLines]; simp [h.mem_iff]

/-! ## Lines and fields -/

def fields (entry : LockedSource) : List String :=
  [entry.owner, entry.name, entry.git, entry.rev, entry.tree, entry.subdir, entry.request,
    entry.version]

theorem bytes_encodeLine (entry : LockedSource) :
    bytes (encodeLine entry) = join 9 (fields entry) := by
  have htab : bytes "\t" = [9] := rfl
  simp [encodeLine, fields, join, bytes_append, htab]

theorem sourceIdentity_fields (h : sourceIdentity entry = .ok true) :
    (hexId entry.owner 64 = true ∧ segment entry.name = true) ∧
      validGit entry.git entry.rev = .ok true ∧ hexId entry.tree 64 = true ∧
      validGitSubdir entry.subdir = .ok true ∧ hexId entry.request 64 = true := by
  unfold sourceIdentity at h
  split at h
  case isTrue => cases h
  case isFalse hfirst =>
    obtain ⟨git, hgit, h⟩ := bind_eq_ok.mp h
    split at h
    case isTrue => cases h
    case isFalse hvalid =>
      split at h
      case isTrue => cases h
      case isFalse htree =>
        obtain ⟨subdir, hsubdir, h⟩ := bind_eq_ok.mp h
        split at h
        case isTrue => cases h
        case isFalse hdirectory =>
          rw [Bool.not_eq_true, Bool.not_eq_false'] at hvalid htree hdirectory
          refine ⟨?_, hvalid ▸ hgit, htree, hdirectory ▸ hsubdir, Except.ok.inj h⟩
          have hname : (hexId entry.owner 64 = true ∧ segment entry.name = true) ∧
              ¬entry.name = "std" := by simpa using hfirst
          exact hname.1

theorem fields_printable (hidentity : sourceIdentity entry = .ok true)
    (hversion : checkVersion entry.version = .ok ()) : ∀ field ∈ fields entry, Printable field := by
  obtain ⟨⟨howner, hname⟩, hgit, htree, hsubdir, hrequest⟩ := sourceIdentity_fields hidentity
  have hprintable : Printable entry.version := by
    unfold checkVersion at hversion
    split at hversion
    case isTrue hempty => exact hempty ▸ nofun
    case isFalse =>
      obtain ⟨version, hparse, -⟩ := bind_eq_ok.mp hversion
      exact parseVersion_printable hparse
  simp only [fields, forall_mem_cons]
  exact ⟨hexId_printable howner, segment_printable hname, (validGit_printable hgit).1,
    (validGit_printable hgit).2, hexId_printable htree, validGitSubdir_printable hsubdir,
    hexId_printable hrequest, hprintable, nofun⟩

theorem Printable.not_mem (h : Printable text) {byte : UInt8} (hlt : byte < 32) :
    byte ∉ bytes text :=
  fun hmem => absurd (h byte hmem) (UInt8.not_le.mpr hlt)

theorem parts_encodeLine (h : ∀ field ∈ fields entry, Printable field) :
    parts (encodeLine entry) 9 = .ok (fields entry) :=
  parts_join (by decide) nofun (fun field hmem => Printable.not_mem (h field hmem) (by decide))
    (bytes_encodeLine entry)

theorem mem_join {separator byte : UInt8} {pieces : List String}
    (h : byte ∈ join separator pieces) : byte = separator ∨ ∃ piece ∈ pieces, byte ∈ bytes piece := by
  fun_induction join separator pieces with
  | case1 => exact absurd h not_mem_nil
  | case2 part => exact .inr ⟨part, mem_singleton_self part, h⟩
  | case3 part next others ih =>
    obtain hpart | hrest := mem_append.mp h
    · exact .inr ⟨part, .head _, hpart⟩
    · obtain hsame | hrest := mem_cons.mp hrest
      · exact .inl hsame
      · obtain hsame | ⟨piece, hmem, hin⟩ := ih hrest
        · exact .inl hsame
        · exact .inr ⟨piece, .tail _ hmem, hin⟩

theorem newline_not_mem (h : ∀ field ∈ fields entry, Printable field) :
    (10 : UInt8) ∉ bytes (encodeLine entry) := by
  rw [bytes_encodeLine]
  intro hmem
  obtain hsame | ⟨field, hfield, hin⟩ := mem_join hmem
  · exact absurd hsame (by decide)
  · exact Printable.not_mem (h field hfield) (by decide) hin

theorem encodeLine_injective {other : LockedSource} (h : ∀ field ∈ fields entry, Printable field)
    (h' : ∀ field ∈ fields other, Printable field) (hsame : encodeLine entry = encodeLine other) :
    entry = other := by
  have hfields : fields entry = fields other := by
    have hparts := parts_encodeLine h
    rw [hsame, parts_encodeLine h'] at hparts; exact (Except.ok.inj hparts).symm
  cases entry
  cases other
  simpa [fields] using hfields

/-! ## Consistent entries -/

/-- What the decoder promises of the entries of a file. -/
structure Consistent (locks : List LockedSource) : Prop where
  identity : ∀ entry ∈ locks, sourceIdentity entry = .ok true
  version : ∀ entry ∈ locks, checkVersion entry.version = .ok ()
  distinct : locks.Pairwise fun a b => ¬(a.owner = b.owner ∧ a.name = b.name)
  digest : ∀ a ∈ locks, ∀ b ∈ locks, a.git = b.git → a.rev = b.rev → a.tree = b.tree

theorem Consistent.printable (h : Consistent locks) (hmem : entry ∈ locks) :
    ∀ field ∈ fields entry, Printable field :=
  fields_printable (h.identity entry hmem) (h.version entry hmem)

theorem Consistent.perm (h : Consistent locks) (hperm : locks.Perm others) : Consistent others where
  identity entry hmem := h.identity entry (hperm.mem_iff.mpr hmem)
  version entry hmem := h.version entry (hperm.mem_iff.mpr hmem)
  distinct := h.distinct.perm hperm fun hne heq => hne ⟨heq.1.symm, heq.2.symm⟩
  digest a ha b hb := h.digest a (hperm.mem_iff.mpr ha) b (hperm.mem_iff.mpr hb)

theorem Consistent.left {front back : List LockedSource} (h : Consistent (front ++ back)) :
    Consistent front where
  identity entry hmem := h.identity entry (mem_append_left _ hmem)
  version entry hmem := h.version entry (mem_append_left _ hmem)
  distinct := (pairwise_append.mp h.distinct).1
  digest a ha b hb := h.digest a (mem_append_left _ ha) b (mem_append_left _ hb)

theorem consistent_nil : Consistent [] where
  identity _ hmem := absurd hmem not_mem_nil
  version _ hmem := absurd hmem not_mem_nil
  distinct := List.Pairwise.nil
  digest _ hmem := absurd hmem not_mem_nil

theorem lockIndex_eq {owner name : String} :
    ¬lockIndex locks owner name ≥ 0 ↔
      ∀ entry ∈ locks, ¬(entry.owner = owner ∧ entry.name = name) := by
  unfold lockIndex
  cases hfind : locks.findIdx? fun entry => entry.owner == owner && entry.name == name with
  | none =>
    rw [findIdx?_eq_none_iff] at hfind
    refine iff_of_true (by decide) fun entry hmem hsame => ?_
    simpa [hsame] using hfind entry hmem
  | some index =>
    obtain ⟨hlt, hat, -⟩ := findIdx?_eq_some_iff_getElem.mp hfind
    refine iff_of_false (by simp) fun hnone => hnone _ (getElem_mem hlt) (by simpa using hat)

theorem checkEntry_ok :
    checkEntry locks entry = .ok () ↔ sourceIdentity entry = .ok true ∧
      checkVersion entry.version = .ok () ∧
      (∀ previous ∈ locks, ¬(previous.owner = entry.owner ∧ previous.name = entry.name)) ∧
      ∀ previous ∈ locks, previous.git = entry.git → previous.rev = entry.rev →
        previous.tree = entry.tree := by
  rw [← lockIndex_eq]
  have hdigest : (¬(locks.any fun previous => previous.git == entry.git &&
      previous.rev == entry.rev && previous.tree != entry.tree) = true) ↔
      ∀ previous ∈ locks, previous.git = entry.git → previous.rev = entry.rev →
        previous.tree = entry.tree := by
    simp
  rw [← hdigest]
  unfold checkEntry
  constructor
  · intro h
    obtain ⟨valid, hvalid, h⟩ := bind_eq_ok.mp h
    split at h
    case isTrue => cases h
    case isFalse hok =>
      rw [Bool.not_eq_true, Bool.not_eq_false'] at hok
      obtain ⟨_, hversion, h⟩ := bind_eq_ok.mp h
      split at h
      case isTrue => cases h
      case isFalse hindex =>
        split at h
        case isTrue => cases h
        case isFalse hany => exact ⟨hok ▸ hvalid, hversion, hindex, hany⟩
  · rintro ⟨hvalid, hversion, hindex, hany⟩
    rw [hvalid, ok_bind, hversion, if_neg hindex,
      if_neg hany]
    rfl

theorem consistent_snoc :
    Consistent (locks ++ [entry]) ↔ Consistent locks ∧ checkEntry locks entry = .ok () := by
  rw [checkEntry_ok]
  constructor
  · intro h
    have hmem : entry ∈ locks ++ [entry] := mem_append_right _ (mem_singleton_self entry)
    refine ⟨h.left, h.identity entry hmem, h.version entry hmem, fun previous hprevious => ?_,
      fun previous hprevious => ?_⟩
    · exact (pairwise_append.mp h.distinct).2.2 previous hprevious entry
        (mem_singleton_self entry)
    · exact h.digest previous (mem_append_left _ hprevious) entry hmem
  · rintro ⟨h, hidentity, hversion, hdistinct, hdigest⟩
    constructor
    case identity =>
      intro other hmem
      obtain hold | hnew := mem_append.mp hmem
      · exact h.identity other hold
      · exact mem_singleton.mp hnew ▸ hidentity
    case version =>
      intro other hmem
      obtain hold | hnew := mem_append.mp hmem
      · exact h.version other hold
      · exact mem_singleton.mp hnew ▸ hversion
    case distinct =>
      refine pairwise_append.mpr ⟨h.distinct, pairwise_singleton _ _, ?_⟩
      intro previous hprevious other hother
      exact mem_singleton.mp hother ▸ hdistinct previous hprevious
    case digest =>
      intro a ha b hb hgit hrev
      rw [mem_append, mem_singleton] at ha hb
      obtain ha | rfl := ha
      · obtain hb | rfl := hb
        · exact h.digest a ha b hb hgit hrev
        · exact hdigest a ha hgit hrev
      · obtain hb | rfl := hb
        · exact (hdigest b hb hgit.symm hrev.symm).symm
        · rfl

/-! ## The round trips -/

theorem parseEntry_encodeLine (h : Consistent (locks ++ [entry])) :
    parseEntry locks (encodeLine entry) = .ok entry := by
  have hmem : entry ∈ locks ++ [entry] := mem_append_right _ (mem_singleton_self entry)
  unfold parseEntry
  rw [parts_encodeLine (h.printable hmem), ok_bind]
  dsimp only [fields]
  rw [(consistent_snoc.mp h).2]; rfl

theorem parseLines_encodeLine (locks : List LockedSource) :
    ∀ front : List LockedSource, Consistent (front ++ locks) →
    parseLines (locks.map encodeLine ++ [""]) front = .ok (front ++ locks) := by
  induction locks with
  | nil =>
    intro front _
    rw [append_nil, map_nil, nil_append, parseLines]; rfl
  | cons entry rest ih =>
    intro front h
    rw [append_cons front entry rest] at h ⊢
    rw [map_cons, cons_append, parseLines, if_neg (by simp),
      parseEntry_encodeLine h.left]
    exact ih (front ++ [entry]) h

/-- A first line and others, each with its newline, are parts of a file. -/
theorem join_lines (first : String) (lines : List String) :
    join 10 (first :: (lines ++ [""])) =
      bytes first ++ [10] ++ lines.flatMap fun line => bytes line ++ [10] := by
  induction lines generalizing first with
  | nil => simp [join]
  | cons line rest ih =>
    rw [cons_append, join, ih]; simp

/-- The entries, in the order of their lines. -/
def canonical (locks : List LockedSource) : List LockedSource :=
  locks.mergeSort fun a b => !before (encodeLine b) (encodeLine a)

theorem canonical_perm (locks : List LockedSource) : (canonical locks).Perm locks :=
  mergeSort_perm locks _

theorem canonical_ordered (h : (locks.map encodeLine).Nodup) :
    Ordered ((canonical locks).map encodeLine) := by
  have htrans : ∀ a b c : LockedSource, (!before (encodeLine b) (encodeLine a)) = true →
      (!before (encodeLine c) (encodeLine b)) = true →
      (!before (encodeLine c) (encodeLine a)) = true := by
    intro a b c hab hbc
    rw [Bool.not_eq_true'] at hab hbc ⊢
    by_contra hca
    rw [Bool.not_eq_false] at hca
    by_cases hsame : encodeLine a = encodeLine b
    · rw [hsame, hbc] at hca
      cases hca
    · obtain hlt | hlt := before_total hsame
      · rw [before_trans hca hlt] at hbc
        cases hbc
      · rw [hab] at hlt
        cases hlt
  have htotal : ∀ a b : LockedSource, (!before (encodeLine b) (encodeLine a) ||
      !before (encodeLine a) (encodeLine b)) = true := by
    intro a b
    cases hba : before (encodeLine b) (encodeLine a) with
    | false => rfl
    | true => rw [before_asymm hba]; rfl
  have hsorted := pairwise_mergeSort htrans htotal locks
  have hdistinct := pairwise_map.mp (((canonical_perm locks).map encodeLine).nodup_iff.mpr h)
  refine pairwise_map.mpr ((hsorted.and hdistinct).imp fun hpair => ?_)
  rw [Bool.not_eq_true'] at hpair
  refine (before_total hpair.2).resolve_right fun hba => ?_
  rw [hpair.1] at hba
  cases hba

theorem Consistent.nodup {locks : List LockedSource} (h : Consistent locks) :
    (locks.map encodeLine).Nodup := by
  refine pairwise_map.mpr (h.distinct.imp_of_mem fun ha hb hne hsame => hne ?_)
  rw [encodeLine_injective (h.printable ha) (h.printable hb) hsame]
  exact ⟨rfl, rfl⟩

theorem encodedLines_canonical (h : Consistent locks) :
    encodedLines locks = (canonical locks).map encodeLine := by
  refine (encodedLines_ordered locks).eq (canonical_ordered h.nodup) fun line => ?_
  rw [mem_encodedLines, mem_map]; simp [(canonical_perm locks).mem_iff]

theorem encodeLock_ok (locks : List LockedSource) : ∃ text, encodeLock locks = .ok text ∧
    bytes text = join 10 ("loom-lock 3" :: (encodedLines locks ++ [""])) := by
  have hheader : bytes "loom-lock 3\n" = bytes "loom-lock 3" ++ [10] := rfl
  have hvalid : Valid (join 10 ("loom-lock 3" :: (encodedLines locks ++ [""]))) :=
    join_valid (by decide) _
  obtain ⟨text, hdecode, hbytes⟩ := exists_decode hvalid
  refine ⟨text, ?_, hbytes⟩
  unfold encodeLock
  dsimp only
  rw [join_lines, ← hheader] at hdecode
  rw [hdecode]

theorem parseLock_encoded (h : Consistent locks)
    (hbytes : bytes text = join 10 ("loom-lock 3" :: (encodedLines locks ++ [""]))) :
    parseLock text = .ok (canonical locks) := by
  have hconsistent := h.perm (canonical_perm locks).symm
  have hfree : ∀ line ∈ "loom-lock 3" :: (encodedLines locks ++ [""]), (10 : UInt8) ∉ bytes line := by
    intro line hmem
    obtain rfl | hmem := mem_cons.mp hmem
    · decide
    · obtain hline | hempty := mem_append.mp hmem
      · obtain ⟨entry, hentry, rfl⟩ := mem_encodedLines.mp hline
        exact newline_not_mem (h.printable hentry)
      · rw [mem_singleton.mp hempty]; exact not_mem_nil
  have hlines := parts_join (by decide) (cons_ne_nil _ _) hfree hbytes
  unfold parseLock
  rw [hlines, ok_bind, encodedLines_canonical h]
  exact parseLines_encodeLine (canonical locks) [] hconsistent

/-- What the loop reads is consistent. -/
theorem parseLines_consistent (lines : List String) {read : List LockedSource}
    (h : Consistent locks) (hrun : parseLines lines locks = .ok read) : Consistent read := by
  induction lines generalizing locks with
  | nil => cases hrun
  | cons line rest ih =>
    rw [parseLines] at hrun
    split at hrun
    case isTrue => exact Except.ok.inj hrun ▸ h
    case isFalse =>
      obtain ⟨entry, hentry, hrun⟩ := bind_eq_ok.mp hrun
      refine ih (consistent_snoc.mpr ⟨h, ?_⟩) hrun
      obtain ⟨read, -, hentry⟩ := bind_eq_ok.mp hentry
      split at hentry
      case h_1 =>
        obtain ⟨_, hcheck, hentry⟩ := bind_eq_ok.mp hentry
        rwa [← Except.ok.inj hentry]
      case h_2 => cases hentry

theorem parseLock_consistent (h : parseLock text = .ok locks) : Consistent locks := by
  obtain ⟨lines, -, h⟩ := bind_eq_ok.mp h
  split at h
  case isTrue => cases h
  case isFalse =>
    exact parseLines_consistent lines.tail consistent_nil h

theorem encodeLock_perm (h : locks.Perm others) : encodeLock locks = encodeLock others := by
  unfold encodeLock
  rw [encodedLines_perm h]

/-- Consistent entries come back in the order of their lines; the file does not depend on
the order they are given in; and what is read from any file is written and read again as
the same entries. -/
theorem lock_round_trip :
    (∀ locks, Consistent locks → ∃ text, encodeLock locks = .ok text ∧
      parseLock text = .ok (canonical locks)) ∧
    (∀ locks others : List LockedSource, locks.Perm others → encodeLock locks = encodeLock others) ∧
    ∀ text locks, parseLock text = .ok locks → ∃ again, encodeLock locks = .ok again ∧
      parseLock again = .ok (canonical locks) ∧ (canonical locks).Perm locks := by
  have hround : ∀ locks, Consistent locks → ∃ text, encodeLock locks = .ok text ∧
      parseLock text = .ok (canonical locks) := by
    intro locks h
    obtain ⟨text, hencode, hbytes⟩ := encodeLock_ok locks
    exact ⟨text, hencode, parseLock_encoded h hbytes⟩
  refine ⟨hround, fun locks others => encodeLock_perm, fun text locks h => ?_⟩
  obtain ⟨again, hencode, hparse⟩ := hround locks (parseLock_consistent h)
  exact ⟨again, hencode, hparse, canonical_perm locks⟩

/-- Two packages of one repository. -/
def fixture : List LockedSource :=
  ["codec", "another"].map fun name =>
    { owner := "".pushn 'a' 64
      name := name
      git := "https://example.com/codec"
      rev := "".pushn '0' 40
      tree := "".pushn '1' 64
      subdir := if name = "another" then "packages/another" else ""
      request := "".pushn 'f' 64
      version := if name = "another" then "1.2.0-rc.1+x" else "" }

theorem fixture_consistent : Consistent fixture where
  identity := by decide
  version := by decide
  distinct := by decide
  digest := by decide

theorem lock_round_trip_fixture : ∃ text, encodeLock fixture = .ok text ∧
    parseLock text = .ok (canonical fixture) :=
  lock_round_trip.1 fixture fixture_consistent

end Loom.Lock
