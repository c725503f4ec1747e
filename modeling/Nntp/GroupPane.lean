import Nntp.Opening

/-!
# Listing the groups

The group list is asked for, and what comes of it: the worker sends the patterns in as few commands as they fit into,
or fetches the whole catalogue and filters it here when the server takes no pattern, and joins the descriptions to
the groups. What is on screen are the groups of the server that the patterns keep.
-/

namespace Nntp

open Nntp.Lib Nntp.Proto Nntp.Client Nntp.TestServer

/-! ## A client at a server -/

/-- A client at rest, at a server with this corpus. -/
structure Facing (limits : Limits) (config : ServerConfig) (corpus : Corpus) (c : Client Loop) : Prop where
  level : Level limits config none c
  admitted : c.connection.stream.session.needsAuth = false
  corpus : c.connection.stream.session.corpus = corpus

/-- The answer to `LIST ACTIVE`. -/
def activeReply (corpus : Corpus) (pattern : Option Wildmat) : Reply :=
  .listing 215 "list of newsgroups follows".toList
    ((corpus.groups.filter (shownBy pattern)).map Session.activeLine)

/-- The answer to `LIST NEWSGROUPS`. -/
def describedReply (corpus : Corpus) (pattern : Option Wildmat) : Reply :=
  .listing 215 "descriptions follow".toList
    ((corpus.groups.filter (shownBy pattern)).map fun group => asBytes group.name ++ 0x09 :: asBytes group.description)

/-- The answer of a server that takes no pattern. -/
def noPatternReply : Reply := .plain 501 "LIST does not take a pattern here"

section Client

variable {limits : Limits} {config : ServerConfig} {corpus : Corpus} {c : Client Loop} (decoders : Decoders)
  {pattern : Option Wildmat}

theorem Facing.of_rests {c' : Client Loop} (h : Facing limits config corpus c)
    (hrests : Rests limits config c c' (counted c.connection.stream.session)) : Facing limits config corpus c' where
  level := hrests.level
  admitted := by rw [hrests.session]; exact h.admitted
  corpus := by rw [hrests.session]; exact h.corpus

theorem Facing.listGroups (h : Facing limits config corpus c) (htakes : TakesPattern config pattern)
    (hwithin : Reply.Within limits config (activeReply corpus pattern)) :
    ∃ result c', (Client.listGroups decoders pattern).exec c = (.ok result, c') ∧
      result.entries.map activeFields = (corpus.groups.filter (shownBy pattern)).map activeOf ∧
      Facing limits config corpus c' := by
  have hreply := (listKeyword_lines c.connection.stream.session pattern).1
  rw [h.corpus] at hreply
  obtain ⟨result, c', hexec, -, hentries, hrests⟩ :=
    h.level.showsActive decoders h.admitted htakes (by rw [hreply]; exact hwithin)
  rw [h.corpus] at hentries
  exact ⟨result, c', hexec, hentries, h.of_rests hrests⟩

theorem Facing.listGroupDescriptions (h : Facing limits config corpus c) (htakes : TakesPattern config pattern)
    (hwithin : Reply.Within limits config (describedReply corpus pattern))
    (hdescriptions : ∀ group ∈ corpus.groups, '\r' ∉ group.description) :
    ∃ result c', (Client.listGroupDescriptions decoders pattern).exec c = (.ok result, c') ∧
      result.entries.map (fun entry => (entry.name.asStr, entry.description)) =
        (corpus.groups.filter (shownBy pattern)).map describedOf ∧
      Facing limits config corpus c' := by
  have hreply := (listKeyword_lines c.connection.stream.session pattern).2.1
  rw [h.corpus] at hreply
  obtain ⟨result, c', hexec, -, hentries, hrests⟩ := h.level.showsDescribed decoders h.admitted htakes
    (by rw [hreply]; exact hwithin) (by rw [h.corpus]; exact hdescriptions)
  rw [h.corpus] at hentries
  exact ⟨result, c', hexec, hentries, h.of_rests hrests⟩

/-- What `LIST ACTIVE` with a pattern is answered with where no pattern is taken. -/
theorem answerTo_list_refused {session : Session} (hadmitted : session.needsAuth = false)
    (hquirk : session.config.quirks.noListWildmat = true) (w : Wildmat) :
    answerTo session (.list (.active (some w))) = (counted session, noPatternReply, .continue) := by
  rw [answerTo_words hadmitted (words_list (.active (some w)))]
  show (counted session, (counted session).list ["ACTIVE".toList, w.asStr], Flow.continue) = _
  have hquirk : (counted session).config.quirks.noListWildmat = true := hquirk
  have hupper : "ACTIVE".toList.map toAsciiUpper = "ACTIVE".toList := by decide
  unfold Session.list
  simp only [List.head?_cons, Option.map_some, Option.getD_some, hupper, true_or, if_true, List.getElem?_cons_succ,
    List.getElem?_cons_zero, hquirk]
  rfl

/-- **A pattern that is not taken** is refused, and the connection goes on. -/
theorem Facing.refused (h : Facing limits config corpus c) (hquirk : config.quirks.noListWildmat = true) (w : Wildmat)
    (hwithin : Reply.Within limits config noPatternReply) :
    ∃ e c', (Client.listGroups decoders (some w)).exec c = (.error e, c') ∧ e.isConnectionFatal = false ∧
      e.isCancelled = false ∧ Facing limits config corpus c' := by
  obtain ⟨sent, hwire⟩ := wire_validated (show (Command.list (.active (some w))).IsValidated from trivial)
  obtain ⟨line, c', hexec, hcode, -, hrests⟩ := h.level.askStatus hwire
    (answerTo_list_refused h.admitted (by rw [h.level.settings]; exact hquirk) w) hwithin rfl
  have hcode : line.code = 501 := hcode
  refine ⟨.server "LIST ACTIVE" 501 line.text, c', ?_, rfl, rfl, h.of_rests hrests⟩
  have herror : ClientError.fromStatus "LIST ACTIVE" line = .server "LIST ACTIVE" 501 line.text := by
    unfold ClientError.fromStatus
    rw [hcode]
    rfl
  unfold Client.listGroups Client.listGroupsStreaming
  refine Fallible.exec_bind_error ((Fallible.exec_bind_ok hexec).trans ?_)
  unfold Client.requireBlock
  rw [if_neg (by rw [hcode]; decide)]
  refine Fallible.exec_bind_error ?_
  rw [herror]
  rfl

end Client

/-! ## What the worker asks -/

/-- A pattern is sent, and the server takes none: the worker filters the catalogue itself. -/
def narrowsHere (config : ServerConfig) (patterns : List Wildmat) : Bool :=
  config.quirks.noListWildmat && (Tui.batchPatterns patterns).any Option.isSome

/-- The patterns with which the lists come. -/
def askedWith (config : ServerConfig) (patterns : List Wildmat) : List (Option Wildmat) :=
  if narrowsHere config patterns then [none] else Tui.batchPatterns patterns

/-- Whether a group is listed for some patterns. -/
def keptBy (config : ServerConfig) (patterns : List Wildmat) (group : TestServer.Group) : Bool :=
  if narrowsHere config patterns then Tui.keptLocally patterns group.name
  else (Tui.batchPatterns patterns).any fun batch => Tui.keeps batch group.name

/-- The answers that are asked for are within the client's limits. -/
structure ListsFit (limits : Limits) (config : ServerConfig) (corpus : Corpus) (patterns : List Wildmat) : Prop where
  active : ∀ pattern ∈ askedWith config patterns, Reply.Within limits config (activeReply corpus pattern)
  described : ∀ pattern ∈ askedWith config patterns, Reply.Within limits config (describedReply corpus pattern)
  refused : narrowsHere config patterns = true → Reply.Within limits config noPatternReply

/-- The batches are all patterns, or there is one that is none. -/
theorem batchPatterns_cases (patterns : List Wildmat) : Tui.batchPatterns patterns = [none] ∨
    ∃ w batches, Tui.batchPatterns patterns = some w :: batches := by
  unfold Tui.batchPatterns
  split
  · exact Or.inl rfl
  · dsimp only
    generalize hbatches : List.filter Option.isSome _ = batches
    split
    · exact Or.inl rfl
    · next hne =>
        obtain ⟨batch, rest, rfl⟩ := List.exists_cons_of_ne_nil (by simpa using hne)
        have hsome : batch.isSome = true :=
          (List.mem_filter.mp (hbatches ▸ List.mem_cons_self : batch ∈ List.filter Option.isSome _)).2
        obtain ⟨w, rfl⟩ := Option.isSome_iff_exists.mp hsome
        exact Or.inr ⟨w, rest, rfl⟩

/-- A server that is asked with a pattern in the end takes it. -/
theorem takesPattern_asked {config : ServerConfig} {patterns : List Wildmat} {pattern : Option Wildmat}
    (h : pattern ∈ askedWith config patterns) : TakesPattern config pattern := by
  unfold askedWith at h
  split at h
  · exact Or.inl (List.mem_singleton.mp h)
  · next hnot =>
      cases pattern with
      | none => exact Or.inl rfl
      | some w =>
          refine Or.inr (Bool.eq_false_iff.mpr fun hquirk => hnot ?_)
          unfold narrowsHere
          rw [hquirk, Bool.true_and]
          exact List.any_eq_true.mpr ⟨some w, h, rfl⟩

section Tasks

variable {limits : Limits} {config : ServerConfig} {corpus : Corpus} {c : Client Loop} (around : Surroundings)
  (w : Tui.Worker) {patterns : List Wildmat}

/-- A command whose failure is looked at. -/
theorem comes_attempt (cmd : Tui.ClientCommand) {α : Type} {x : ClientM Loop α} {value : α → cmd.Value}
    {r : Except ClientError α} {c' : Client Loop}
    (hperform : performFor around cmd (some c) = withClient x value (some c)) (h : x.exec c = (r, c')) :
    Comes around (Tui.attempt cmd) (some c) (r.map value) (some c') [] := by
  refine ⟨[], ?_, rfl⟩
  show (Except.ok (performFor around cmd (some c)).1, (performFor around cmd (some c)).2, []) = _
  rw [hperform]
  show (Except.ok ((x.exec c).1.map value), some (x.exec c).2, []) = _
  rw [h]

/-- **The batches that a server takes** are listed one after the other. -/
theorem listBatches_comes (patterns : List Wildmat) {batches : List (Option Wildmat)} (active : List ActiveEntry)
    (h : Facing limits config corpus c) (htakes : ∀ batch ∈ batches, TakesPattern config batch)
    (hwithin : ∀ batch ∈ batches, Reply.Within limits config (activeReply corpus batch)) :
    ∃ entries c', Comes around (Tui.listBatches w patterns batches active) (some c) (active ++ entries, false)
        (some c') [] ∧
      entries.map activeFields = batches.flatMap (fun batch => (corpus.groups.filter (shownBy batch)).map activeOf) ∧
      Facing limits config corpus c' := by
  induction batches generalizing active c with
  | nil =>
      refine ⟨[], c, ?_, rfl, h⟩
      rw [List.append_nil]
      exact ⟨[], rfl, rfl⟩
  | cons batch batches ih =>
      obtain ⟨htake, htakes⟩ := List.forall_mem_cons.mp htakes
      obtain ⟨hfits, hwithin⟩ := List.forall_mem_cons.mp hwithin
      obtain ⟨result, mid, hexec, hfields, hmid⟩ := h.listGroups around.decoders htake hfits
      obtain ⟨entries, c', hcomes, hentries, hafter⟩ := ih (active ++ result.entries) hmid htakes hwithin
      refine ⟨result.entries ++ entries, c', ?_, ?_, hafter⟩
      · rw [← List.append_assoc]
        refine (comes_client around w).silent_bind ?_
        exact (comes_attempt around (.listGroups batch) rfl hexec).silent_bind hcomes
      · rw [List.map_append, hfields, hentries, List.flatMap_cons]

/-- The descriptions of the batches. -/
theorem describeBatches_comes {batches : List (Option Wildmat)} (descriptions : List (GroupName × Str))
    (h : Facing limits config corpus c) (htakes : ∀ batch ∈ batches, TakesPattern config batch)
    (hwithin : ∀ batch ∈ batches, Reply.Within limits config (describedReply corpus batch))
    (hplain : ∀ group ∈ corpus.groups, '\r' ∉ group.description) :
    ∃ entries c', Comes around (Tui.describeBatches w batches descriptions) (some c) (descriptions ++ entries)
        (some c') [] ∧
      entries.map (fun entry => (entry.1.asStr, entry.2)) =
        batches.flatMap (fun batch => (corpus.groups.filter (shownBy batch)).map describedOf) ∧
      Facing limits config corpus c' := by
  induction batches generalizing descriptions c with
  | nil =>
      refine ⟨[], c, ?_, rfl, h⟩
      rw [List.append_nil]
      exact ⟨[], rfl, rfl⟩
  | cons batch batches ih =>
      obtain ⟨htake, htakes⟩ := List.forall_mem_cons.mp htakes
      obtain ⟨hfits, hwithin⟩ := List.forall_mem_cons.mp hwithin
      obtain ⟨result, mid, hexec, hfields, hmid⟩ := h.listGroupDescriptions around.decoders htake hfits hplain
      let described := result.entries.map fun entry => (entry.name, entry.description)
      obtain ⟨entries, c', hcomes, hentries, hafter⟩ := ih (descriptions ++ described) hmid htakes hwithin
      refine ⟨described ++ entries, c', ?_, ?_, hafter⟩
      · rw [← List.append_assoc]
        refine (comes_client around w).silent_bind ?_
        exact (comes_attempt around (.listGroupDescriptions batch) rfl hexec).silent_bind hcomes
      · rw [List.map_append, hentries, List.flatMap_cons, ← hfields, List.map_map]
        rfl

/-- The groups that the worker lists. -/
theorem mem_asked {α : Type} (f : TestServer.Group → α) (hnarrows : narrowsHere config patterns = false) {x : α} :
    x ∈ (Tui.batchPatterns patterns).flatMap (fun batch => (corpus.groups.filter (shownBy batch)).map f) ↔
      x ∈ (corpus.groups.filter (keptBy config patterns)).map f := by
  have hkept : ∀ group, keptBy config patterns group = true ↔
      ∃ batch ∈ Tui.batchPatterns patterns, shownBy batch group = true := by
    intro group
    unfold keptBy
    rw [hnarrows, if_neg Bool.false_ne_true, List.any_eq_true]
    rfl
  simp only [List.mem_flatMap, List.mem_map, List.mem_filter, hkept]
  constructor
  · rintro ⟨batch, hbatch, group, ⟨hgroup, hshown⟩, rfl⟩
    exact ⟨group, ⟨hgroup, batch, hbatch, hshown⟩, rfl⟩
  · rintro ⟨group, ⟨hgroup, batch, hbatch, hshown⟩, rfl⟩
    exact ⟨batch, hbatch, group, ⟨hgroup, hshown⟩, rfl⟩

/-- **The groups that are kept are listed**, whether the server or the worker keeps them. -/
theorem listed_comes (h : Facing limits config corpus c) (hfit : ListsFit limits config corpus patterns) :
    ∃ active c', Comes around (Tui.listBatches w patterns (Tui.batchPatterns patterns) []) (some c)
        (active, narrowsHere config patterns) (some c') [] ∧
      (∀ x, x ∈ active.map activeFields ↔ x ∈ (corpus.groups.filter (keptBy config patterns)).map activeOf) ∧
      Facing limits config corpus c' := by
  cases hnarrows : narrowsHere config patterns with
  | false =>
      have hasked : askedWith config patterns = Tui.batchPatterns patterns := by
        unfold askedWith
        rw [hnarrows, if_neg Bool.false_ne_true]
      have htakes : ∀ batch ∈ Tui.batchPatterns patterns, TakesPattern config batch :=
        fun batch hbatch => takesPattern_asked (hasked ▸ hbatch)
      obtain ⟨entries, c', hcomes, hentries, hafter⟩ := listBatches_comes around w patterns [] h htakes
        fun batch hbatch => hfit.active batch (hasked ▸ hbatch)
      refine ⟨entries, c', hcomes, fun x => ?_, hafter⟩
      rw [hentries]
      exact mem_asked activeOf hnarrows
  | true =>
      have hasked : askedWith config patterns = [none] := by
        unfold askedWith
        rw [hnarrows, if_pos rfl]
      obtain ⟨hquirk, hsome⟩ := Bool.and_eq_true_iff.mp hnarrows
      obtain ⟨first, batches, hbatches⟩ : ∃ first batches, Tui.batchPatterns patterns = some first :: batches := by
        rcases batchPatterns_cases patterns with hnone | hpatterns
        · rw [hnone] at hsome
          cases hsome
        · exact hpatterns
      obtain ⟨e, mid, hexec, hfatal, hcancelled, hmid⟩ :=
        h.refused around.decoders hquirk first (hfit.refused hnarrows)
      obtain ⟨all, c', hexec', hfields, hafter⟩ := hmid.listGroups around.decoders (Or.inl rfl)
        (hfit.active none (hasked ▸ List.mem_cons_self))
      refine ⟨Tui.filterLocally patterns all.entries, c', ?_, fun x => ?_, hafter⟩
      · rw [hbatches]
        have hall : Comes around (Tui.listAllAndFilter w patterns) (some mid)
            (Tui.filterLocally patterns all.entries) (some c') [] := by
          refine (comes_send around (.progress _) _).silent_bind ((comes_client around w).silent_bind ?_)
          exact (comes_command around rfl hexec').silent_bind ⟨[], rfl, rfl⟩
        refine (comes_client around w).silent_bind ?_
        refine (comes_attempt around (.listGroups (some first)) rfl hexec).silent_bind ?_
        show Comes around (if (Option.isSome (some first) && !e.isConnectionFatal && !e.isCancelled) = true then _
          else _) _ _ _ _
        rw [hfatal, hcancelled, if_pos (show (Option.isSome (some first) && !false && !false) = true from rfl)]
        exact hall.silent_bind ⟨[], rfl, rfl⟩
      · have hkept : (Tui.filterLocally patterns all.entries).map activeFields =
            (corpus.groups.filter (keptBy config patterns)).map activeOf := by
          have hfilter : (Tui.filterLocally patterns all.entries).map activeFields =
              (all.entries.map activeFields).filter fun x => Tui.keptLocally patterns x.1 := by
            rw [List.filter_map]
            rfl
          have hgroups : corpus.groups.filter (shownBy none) = corpus.groups :=
            List.filter_eq_self.mpr fun _ _ => rfl
          rw [hfilter, hfields, hgroups, List.filter_map]
          refine congrArg (List.map activeOf) (List.filter_congr fun group _ => ?_)
          unfold keptBy
          rw [hnarrows, if_pos rfl]
          rfl
        rw [hkept]

/-- The descriptions of the groups that are listed. -/
theorem described_comes (h : Facing limits config corpus c) (hfit : ListsFit limits config corpus patterns)
    (hplain : ∀ group ∈ corpus.groups, '\r' ∉ group.description) :
    ∃ descriptions c', Comes around (Tui.describeBatches w
        (if narrowsHere config patterns then [none] else Tui.batchPatterns patterns) []) (some c) descriptions
        (some c') [] ∧
      (∀ group ∈ corpus.groups.filter (keptBy config patterns),
        describedOf group ∈ descriptions.map fun entry => (entry.1.asStr, entry.2)) ∧
      (∀ entry ∈ descriptions, ∃ group ∈ corpus.groups, (entry.1.asStr, entry.2) = describedOf group) ∧
      Facing limits config corpus c' := by
  have htakes : ∀ batch ∈ askedWith config patterns, TakesPattern config batch := fun _ hbatch =>
    takesPattern_asked hbatch
  obtain ⟨entries, c', hcomes, hentries, hafter⟩ := describeBatches_comes around w [] h htakes hfit.described hplain
  refine ⟨entries, c', hcomes, fun group hgroup => ?_, fun entry hentry => ?_, hafter⟩
  · rw [hentries]
    unfold askedWith
    cases hnarrows : narrowsHere config patterns with
    | false =>
        rw [if_neg Bool.false_ne_true]
        exact (mem_asked describedOf hnarrows).mpr (List.mem_map_of_mem hgroup)
    | true =>
        rw [if_pos rfl, List.flatMap_singleton]
        exact List.mem_map_of_mem (List.mem_filter.mpr ⟨(List.mem_filter.mp hgroup).1, rfl⟩)
  · have hmem : (entry.1.asStr, entry.2) ∈ entries.map fun entry => (entry.1.asStr, entry.2) :=
      List.mem_map_of_mem hentry
    rw [hentries] at hmem
    obtain ⟨batch, -, hmem⟩ := List.mem_flatMap.mp hmem
    obtain ⟨group, hgroup, heq⟩ := List.mem_map.mp hmem
    exact ⟨group, (List.mem_filter.mp hgroup).1, heq.symm⟩

end Tasks

/-! ## The rows -/

/-- What a row says. -/
def rowFields (row : Tui.GroupRow) : Str × UInt64 × UInt64 × PostingStatus × Option Str :=
  (row.name.asStr, row.low, row.high, row.status, row.description)

/-- What the row of a group says: its name, its watermarks, whether it may be posted to, and its description. -/
def shownRow (group : TestServer.Group) : Str × UInt64 × UInt64 × PostingStatus × Option Str :=
  (group.name, group.watermarks.1, group.watermarks.2, (activeOf group).2.2.2, some (trim group.description))

/-- The order of the group list. -/
def byName (a b : TestServer.Group) : Bool := strLe a.name b.name

/-- The rows that `load_groups` makes of the lists. -/
def rowsOf (active : List ActiveEntry) (descriptions : List (GroupName × Str)) : List Tui.GroupRow :=
  (dedupByKey (·.name) (active.mergeSort fun a b => strLe a.name.asStr b.name.asStr)).map fun entry =>
    { name := entry.name, low := entry.low, high := entry.high, status := entry.status
      description := Tui.descriptionOf descriptions entry.name }

theorem asStr_injective : Function.Injective GroupName.asStr := by
  rintro ⟨a, _⟩ ⟨b, _⟩ rfl
  rfl

section Rows

variable {groups kept : List TestServer.Group} {active : List ActiveEntry} {descriptions : List (GroupName × Str)}

theorem pairwise_byName (hnames : (kept.map (·.name)).Nodup) :
    ((kept.mergeSort byName).map shownRow).Pairwise fun a b => a.1 < b.1 := by
  have hsorted : (kept.mergeSort byName).Pairwise fun a b => a.name ≤ b.name := by
    refine (List.pairwise_mergeSort ?_ ?_ kept).imp strLe_iff.mp
    · intro a b c hab hbc
      exact strLe_iff.mpr ((strLe_iff.mp hab).trans (strLe_iff.mp hbc))
    · intro a b
      simp only [Bool.or_eq_true, strLe_iff]
      exact le_total _ _
  have hdistinct : (kept.mergeSort byName).Pairwise fun a b => a.name ≠ b.name :=
    List.pairwise_map.mp (((List.mergeSort_perm kept byName).map TestServer.Group.name).nodup_iff.mpr hnames)
  exact List.pairwise_map.mpr ((hsorted.and hdistinct).imp fun h => lt_of_le_of_ne h.1 h.2)

theorem pairwise_rowsOf : ((rowsOf active descriptions).map rowFields).Pairwise fun a b => a.1 < b.1 := by
  have hsorted : (active.mergeSort fun a b => strLe a.name.asStr b.name.asStr).Pairwise
      fun a b => a.name.asStr ≤ b.name.asStr := by
    refine (List.pairwise_mergeSort ?_ ?_ active).imp strLe_iff.mp
    · intro a b c hab hbc
      exact strLe_iff.mpr ((strLe_iff.mp hab).trans (strLe_iff.mp hbc))
    · intro a b
      simp only [Bool.or_eq_true, strLe_iff]
      exact le_total _ _
  have hpairwise := pairwise_dedupByKey hsorted
  rw [dedupByKey_injective asStr_injective] at hpairwise
  exact List.pairwise_map.mpr (List.pairwise_map.mpr hpairwise)

/-- The description that is joined to a group is the group's. -/
theorem descriptionOf_eq (hnames : (groups.map (·.name)).Nodup)
    (hdescribed : ∀ entry ∈ descriptions, ∃ group ∈ groups, (entry.1.asStr, entry.2) = describedOf group)
    {group : TestServer.Group} (hgroup : group ∈ groups)
    (hmem : describedOf group ∈ descriptions.map fun entry => (entry.1.asStr, entry.2)) {name : GroupName}
    (hname : name.asStr = group.name) :
    Tui.descriptionOf descriptions name = some (trim group.description) := by
  obtain ⟨entry, hentry, hfields⟩ := List.mem_map.mp hmem
  obtain ⟨hentryName, -⟩ := Prod.mk.inj hfields
  have hfound : (descriptions.reverse.find? fun entry => entry.1 = name).isSome = true :=
    List.find?_isSome.mpr ⟨entry, List.mem_reverse.mpr hentry,
      decide_eq_true (asStr_injective (hentryName.trans hname.symm))⟩
  obtain ⟨last, hlast⟩ := Option.isSome_iff_exists.mp hfound
  have hlastName : last.1 = name := by simpa using List.find?_some hlast
  obtain ⟨other, hother, hotherFields⟩ := hdescribed last (List.mem_reverse.mp (List.mem_of_find?_eq_some hlast))
  obtain ⟨hotherName, hotherText⟩ := Prod.mk.inj hotherFields
  have hsame : other = group := by
    refine List.inj_on_of_nodup_map hnames hother hgroup ?_
    rw [← hotherName, hlastName, hname]
  unfold Tui.descriptionOf
  rw [hlast, Option.map_some, hotherText, hsame]

/-- **The rows are the groups that are listed**, each once and in the order of the names. -/
theorem rowsOf_eq (hnames : (groups.map (·.name)).Nodup) (hkept : List.Sublist kept groups)
    (hactive : ∀ x, x ∈ active.map activeFields ↔ x ∈ kept.map activeOf)
    (hmem : ∀ group ∈ kept, describedOf group ∈ descriptions.map fun entry => (entry.1.asStr, entry.2))
    (hdescribed : ∀ entry ∈ descriptions, ∃ group ∈ groups, (entry.1.asStr, entry.2) = describedOf group) :
    (rowsOf active descriptions).map rowFields = (kept.mergeSort byName).map shownRow := by
  let fields : ActiveEntry → Str × UInt64 × UInt64 × PostingStatus × Option Str := fun entry =>
    (entry.name.asStr, entry.low, entry.high, entry.status, Tui.descriptionOf descriptions entry.name)
  have hfields : ∀ entry ∈ active, ∃ group ∈ kept, entry.name.asStr = group.name ∧ fields entry = shownRow group := by
    intro entry hentry
    obtain ⟨group, hgroup, heq⟩ := List.mem_map.mp ((hactive _).mp (List.mem_map_of_mem hentry))
    have hname : group.name = entry.name.asStr := congrArg (fun x => x.1) heq
    have hhigh : group.watermarks.2 = entry.high := congrArg (fun x => x.2.1) heq
    have hlow : group.watermarks.1 = entry.low := congrArg (fun x => x.2.2.1) heq
    have hstatus : (activeOf group).2.2.2 = entry.status := congrArg (fun x => x.2.2.2) heq
    refine ⟨group, hgroup, hname.symm, ?_⟩
    show (entry.name.asStr, entry.low, entry.high, entry.status, _) = _
    rw [descriptionOf_eq hnames hdescribed (hkept.subset hgroup) (hmem group hgroup) hname.symm, ← hname, ← hhigh,
      ← hlow, ← hstatus]
    rfl
  have hsame : ∀ a ∈ active, ∀ b ∈ active, a.name = b.name → fields a = fields b := by
    intro a ha b hb hab
    obtain ⟨group, hgroup, hname, hrow⟩ := hfields a ha
    obtain ⟨group', hgroup', hname', hrow'⟩ := hfields b hb
    have hgroups : group = group' := by
      refine List.inj_on_of_nodup_map hnames (hkept.subset hgroup) (hkept.subset hgroup') ?_
      rw [← hname, ← hname', hab]
    rw [hrow, hrow', hgroups]
  refine eq_of_ascending pairwise_rowsOf (pairwise_byName ((hkept.map TestServer.Group.name).nodup hnames)) fun x => ?_
  have hsorted := List.mergeSort_perm active fun a b => strLe a.name.asStr b.name.asStr
  have hrows : (rowsOf active descriptions).map rowFields = (dedupByKey (·.name)
      (active.mergeSort fun a b => strLe a.name.asStr b.name.asStr)).map fields := by
    unfold rowsOf
    rw [List.map_map]
    rfl
  rw [hrows, mem_map_dedupByKey fun a ha b hb => hsame a (hsorted.mem_iff.mp ha) b (hsorted.mem_iff.mp hb)]
  rw [(hsorted.map fields).mem_iff, ((List.mergeSort_perm kept byName).map shownRow).mem_iff]
  constructor
  · intro hx
    obtain ⟨entry, hentry, rfl⟩ := List.mem_map.mp hx
    obtain ⟨group, hgroup, -, hrow⟩ := hfields entry hentry
    rw [hrow]
    exact List.mem_map_of_mem hgroup
  · intro hx
    obtain ⟨group, hgroup, rfl⟩ := List.mem_map.mp hx
    obtain ⟨entry, hentry, heq⟩ := List.mem_map.mp ((hactive _).mpr (List.mem_map_of_mem hgroup))
    obtain ⟨group', hgroup', hname, hrow⟩ := hfields entry hentry
    have hgroups : group' = group := by
      refine List.inj_on_of_nodup_map hnames (hkept.subset hgroup') (hkept.subset hgroup) ?_
      rw [← hname]
      exact congrArg (fun x => x.1) heq
    rw [← hgroups, ← hrow]
    exact List.mem_map_of_mem hentry

end Rows

/-! ## The list on screen -/

section Screen

variable {limits : Limits} {config : ServerConfig} {corpus : Corpus} {c : Client Loop} (around : Surroundings)
  (w : Tui.Worker)

theorem loadGroups_comes (h : Facing limits config corpus c) {scope : Tui.GroupScope}
    (hfit : ListsFit limits config corpus scope.patterns) (hplain : ∀ group ∈ corpus.groups, '\r' ∉ group.description)
    (hnames : (corpus.groups.map (·.name)).Nodup) :
    ∃ rows c', Comes around (Tui.loadGroups w scope) (some c) () (some c')
        [.groups rows scope (narrowsHere config scope.patterns)] ∧
      rows.map rowFields = ((corpus.groups.filter (keptBy config scope.patterns)).mergeSort byName).map shownRow ∧
      Facing limits config corpus c' := by
  obtain ⟨active, mid, hlisted, hactive, hmid⟩ := listed_comes around w h hfit
  obtain ⟨descriptions, c', hjoined, hmem, hdescribed, hafter⟩ := described_comes around w hmid hfit hplain
  refine ⟨rowsOf active descriptions, c', ?_, rowsOf_eq hnames List.filter_sublist hactive hmem hdescribed, hafter⟩
  refine (comes_send around (.progress _) _).silent_bind (hlisted.silent_bind (hjoined.silent_bind ?_))
  exact comes_send around (.groups _ _ _) _

end Screen

/-! ### Two groups -/

namespace Shelf

end Shelf

end Nntp
