import Nntp.TestServer.Unbroken

/-!
# What a session answers

One description for every command: the answer has a status line of three digits and no line feed in it,
it has a block exactly under the codes its command has one for, and the session is what it was but for its
selection and its login.
-/

namespace Nntp.TestServer

open Nntp.Lib Nntp.Proto

/-- Whether an answer to the command with this code has a data block. -/
def Verb.sendsBlock (verb : Verb) (code : Nat) : Bool :=
  match verb with
  | .capabilities => code == 101
  | .help => code == 100
  | .listgroup => code == 211
  | .list => code == 215
  | .article => code == 220
  | .head => code == 221
  | .body => code == 222
  | .over => code == 224
  | .xover => code == 224
  | .hdr => code == 225 || code == 221
  | .xhdr => code == 225 || code == 221
  | .newgroups => code == 231
  | _ => false

/-- The commands that select a group. -/
def Verb.selects : Verb → Bool
  | .group => true
  | .listgroup => true
  | _ => false

/-- An answer that can be taken for what it is. -/
structure Reply.Unbroken (reply : Reply) : Prop where
  text : '\n' ∉ reply.text
  block : ∀ lines ∈ reply.block, ∀ line ∈ lines, NoLf line
  low : 100 ≤ reply.code
  high : reply.code < 1000

namespace Reply.Unbroken

variable {code : Nat} {text : Str} {lines : List Bytes}

theorem status (h : '\n' ∉ text) (hlow : 100 ≤ code) (hhigh : code < 1000) :
    Reply.Unbroken { code, text } where
  text := h
  block := fun _ hnone => by cases hnone
  low := hlow
  high := hhigh

theorem listing (h : '\n' ∉ text) (hlines : ∀ line ∈ lines, NoLf line) (hlow : 100 ≤ code)
    (hhigh : code < 1000) : (Reply.listing code text lines).Unbroken where
  text := h
  block := fun _ hsome => by cases hsome; exact hlines
  low := hlow
  high := hhigh

end Reply.Unbroken

/-- A failure with a fixed text. -/
def Reply.Failure (reply : Reply) : Prop :=
  ∃ code text, reply = .plain code text ∧ '\n' ∉ text.toList ∧ 400 ≤ code ∧ code < 600

theorem Reply.failure_plain {code : Nat} {text : String}
    (h : (decide ('\n' ∉ text.toList) && decide (400 ≤ code) && decide (code < 600)) = true) :
    (Reply.plain code text).Failure := by
  simp only [Bool.and_eq_true, decide_eq_true_eq] at h
  exact ⟨code, text, rfl, h.1.1, h.1.2, h.2⟩

namespace Session

variable {session : Session}

/-- The parts of a session that a command does not change. -/
structure Kept (session after : Session) : Prop where
  corpus : after.corpus = session.corpus
  config : after.config = session.config
  truncateNextBlock : after.state.truncateNextBlock = session.state.truncateNextBlock
  closeRequested : after.state.closeRequested = session.state.closeRequested

theorem Kept.refl (session : Session) : session.Kept session where
  corpus := rfl
  config := rfl
  truncateNextBlock := rfl
  closeRequested := rfl

/-- **The answer to a command.** -/
structure Answered (session : Session) (verb : Verb) (after : Session) (reply : Reply) : Prop where
  kept : session.Kept after
  unbroken : reply.Unbroken
  block : reply.block.isSome = verb.sendsBlock reply.code
  /-- a group is selected exactly if the answer says so -/
  selection : (verb.selects && reply.code == 211) = true →
    ∃ group ∈ session.corpus.groups, after.state.currentGroup = some group.name ∧
      reply.text = selectionText group group.name
  unselected : (verb.selects && reply.code == 211) = false →
    after.state.currentGroup = session.state.currentGroup

namespace Answered

variable {verb : Verb} {code : Nat} {text : Str} {lines : List Bytes}

/-- An answer that leaves the selected group alone. -/
theorem of_kept {after : Session} {reply : Reply} (hkept : session.Kept after)
    (hunbroken : reply.Unbroken) (hblock : reply.block.isSome = verb.sendsBlock reply.code)
    (hselects : (verb.selects && reply.code == 211) = false)
    (hgroup : after.state.currentGroup = session.state.currentGroup) :
    session.Answered verb after reply where
  kept := hkept
  unbroken := hunbroken
  block := hblock
  selection := fun h => by rw [hselects] at h; cases h
  unselected := fun _ => hgroup

/-- A status line. -/
theorem status (htext : '\n' ∉ text)
    (h : (decide (100 ≤ code) && decide (code < 1000) && !verb.sendsBlock code &&
      !(verb.selects && code == 211)) = true) : session.Answered verb session { code, text } := by
  simp only [Bool.and_eq_true, decide_eq_true_eq, Bool.not_eq_true'] at h
  exact of_kept (.refl session) (.status htext h.1.1.1 h.1.1.2) h.1.2.symm h.2 rfl

/-- A status line with a fixed text. -/
theorem plain {text : String} (htext : '\n' ∉ text.toList)
    (h : (decide (100 ≤ code) && decide (code < 1000) && !verb.sendsBlock code &&
      !(verb.selects && code == 211)) = true) :
    session.Answered verb session (.plain code text) :=
  status htext h

/-- A failure has no block and selects nothing. -/
theorem failure {reply : Reply} (hfailure : reply.Failure) : session.Answered verb session reply := by
  obtain ⟨code, text, rfl, htext, hlow, hhigh⟩ := hfailure
  refine of_kept (.refl session) (.status htext (by omega) (by omega)) ?_ ?_ rfl
  · show false = verb.sendsBlock code
    cases verb <;> simp [Verb.sendsBlock] <;> omega
  · show (verb.selects && code == 211) = false
    simp
    omega

/-- A block. -/
theorem listing (htext : '\n' ∉ text) (hlines : ∀ line ∈ lines, NoLf line)
    (h : (decide (100 ≤ code) && decide (code < 1000) && verb.sendsBlock code &&
      !(verb.selects && code == 211)) = true) :
    session.Answered verb session (.listing code text lines) := by
  simp only [Bool.and_eq_true, decide_eq_true_eq, Bool.not_eq_true'] at h
  exact of_kept (.refl session) (.listing htext hlines h.1.1.1 h.1.1.2) h.1.2.symm h.2 rfl

end Answered

/-! ## Negotiation -/

theorem answered_capabilities : session.Answered .capabilities session session.capabilities := by
  unfold capabilities
  split
  · exact .plain (by decide) (by decide)
  · refine .listing (by decide) (fun line hline => ?_) (by decide)
    obtain ⟨text, htext, rfl⟩ := List.mem_map.mp hline
    rw [noLf_asBytes]
    have hall : ∀ text ∈ session.capabilityLines, '\n' ∉ text.toList := by
      unfold capabilityLines
      intro text htext
      simp only [List.mem_append] at htext
      rcases htext with (((((h | h) | h) | h) | h) | h) | h
      · revert text; decide
      · cases hprofile : session.config.capabilities <;> rw [hprofile] at h <;> dsimp only at h
        · revert text; decide
        · revert text; decide
        · split at h <;> (revert text; decide)
        · cases h
      · revert text; decide
      · split at h <;> (revert text; decide)
      · split at h <;> (revert text; decide)
      · split at h <;> (revert text; decide)
      · revert text; decide
    exact hall text htext

theorem answered_mode (args : List Str) :
    session.Answered .mode (session.mode args).1 (session.mode args).2 := by
  unfold mode
  split_ifs
  · exact .plain (by decide) (by decide)
  · exact .plain (by decide) (by decide)
  · exact .of_kept ⟨rfl, rfl, rfl, rfl⟩ (.status (by decide) (by decide) (by decide)) rfl rfl rfl
  · exact .of_kept ⟨rfl, rfl, rfl, rfl⟩ (.status (by decide) (by decide) (by decide)) rfl rfl rfl

theorem answered_authinfoPass (credentials : Credentials) (password : Str) :
    session.Answered .authinfo (session.authinfoPass credentials password).1
      (session.authinfoPass credentials password).2 := by
  unfold authinfoPass
  split
  · exact .plain (by decide) (by decide)
  · split_ifs
    · exact .of_kept ⟨rfl, rfl, rfl, rfl⟩ (.status (by decide) (by decide) (by decide)) rfl rfl rfl
    · exact .of_kept ⟨rfl, rfl, rfl, rfl⟩ (.status (by decide) (by decide) (by decide)) rfl rfl rfl

theorem answered_authinfo (args : List Str) :
    session.Answered .authinfo (session.authinfo args).1 (session.authinfo args).2 := by
  unfold authinfo
  split
  · exact .plain (by decide) (by decide)
  · dsimp only
    split_ifs
    · exact .of_kept ⟨rfl, rfl, rfl, rfl⟩ (.status (by decide) (by decide) (by decide)) rfl rfl rfl
    · exact answered_authinfoPass _ _
    · exact .plain (by decide) (by decide)

theorem answered_help : session.Answered .help session session.help := by
  refine .listing (by decide) (fun line hline => ?_) (by decide)
  split at hline
  · rw [List.mem_singleton.mp hline]
    intro hmem
    cases List.eq_of_mem_replicate hmem
  · obtain ⟨text, htext, rfl⟩ := List.mem_map.mp hline
    rw [noLf_asBytes]
    revert text
    decide

/-! ## Groups -/

theorem Unbroken.selectionText {group : Group} (h : group.Unbroken) :
    '\n' ∉ selectionText group group.name := by
  refine lf_not_mem_joinWith fun word hword => ?_
  have hname := h.lf_not_mem_name
  simp only [List.mem_cons, List.not_mem_nil, or_false] at hword
  rcases hword with rfl | rfl | rfl | rfl
  · exact lf_not_mem_display _
  · exact lf_not_mem_display _
  · exact lf_not_mem_display _
  · exact hname

variable (h : session.corpus.Unbroken)
include h

theorem answered_group (args : List Str) :
    session.Answered .group (session.group args).1 (session.group args).2 := by
  unfold Session.group
  split
  · exact .plain (by decide) (by decide)
  · split
    · exact .plain (by decide) (by decide)
    · next name group hfind =>
        have hmem := (Corpus.mem_of_find hfind).1
        exact {
          kept := ⟨rfl, rfl, rfl, rfl⟩
          unbroken := .status (Unbroken.selectionText (h group hmem)) (by decide) (by decide)
          block := rfl
          selection := fun _ => ⟨group, hmem, rfl, rfl⟩
          unselected := fun hcode => by cases hcode }

theorem answered_listgroup (args : List Str) :
    session.Answered .listgroup (session.listgroup args).1 (session.listgroup args).2 := by
  unfold listgroup
  split
  · exact .plain (by decide) (by decide)
  · split
    · exact .plain (by decide) (by decide)
    · next name _ group hfind =>
        obtain ⟨hmem, rfl⟩ := Corpus.mem_of_find hfind
        refine {
          kept := ⟨rfl, rfl, rfl, rfl⟩
          unbroken := .listing (Unbroken.selectionText (h group hmem)) ?_ (by decide) (by decide)
          block := rfl
          selection := fun _ => ⟨group, hmem, rfl, rfl⟩
          unselected := fun hcode => by cases hcode }
        simp

theorem noLf_activeLine {group : Group} (hmem : group ∈ session.corpus.groups) :
    NoLf (activeLine group) := by
  have hname := (h group hmem).lf_not_mem_name
  have hflag : '\n' ∉ group.posting.flag := by cases group.posting <;> decide
  rw [activeLine, noLf_asBytes]
  refine lf_not_mem_joinWith fun word hword => ?_
  simp only [List.mem_cons, List.not_mem_nil, or_false] at hword
  rcases hword with rfl | rfl | rfl | rfl
  · exact hname
  · exact lf_not_mem_display _
  · exact lf_not_mem_display _
  · exact hflag

theorem answered_listKeyword {keyword : Str} (hkeyword : '\n' ∉ keyword) (keeps : Str → Bool) :
    session.Answered .list session (session.listKeyword keyword keeps) := by
  have hmem : ∀ group ∈ session.corpus.groups.filter fun group => keeps group.name,
      group ∈ session.corpus.groups := fun group hgroup => (List.mem_filter.mp hgroup).1
  unfold listKeyword
  dsimp only
  split_ifs
  · refine .listing (by decide) (List.forall_mem_map.mpr fun group hgroup => ?_) (by decide)
    exact noLf_activeLine h (hmem group hgroup)
  · refine .listing (by decide) (List.forall_mem_map.mpr fun group hgroup => ?_) (by decide)
    have hgood := h group (hmem group hgroup)
    simp [hgood.lf_not_mem_name, hgood.description]
  · refine .listing (by decide) (List.forall_mem_map.mpr fun group hgroup => ?_) (by decide)
    rw [noLf_asBytes]
    refine lf_not_mem_joinWith fun word hword => ?_
    have hgood := (h group (hmem group hgroup)).lf_not_mem_name
    simp only [List.mem_cons, List.not_mem_nil, or_false] at hword
    rcases hword with rfl | rfl | rfl
    · exact hgood
    · exact lf_not_mem_display _
    · decide
  · exact .plain (by decide) (by decide)
  · exact .listing (by decide) (by simp) (by decide)
  · exact .listing (by decide) (by simp) (by decide)
  · exact .status (by simp [hkeyword]) (by decide)

theorem answered_list {args : List Str} (hargs : ∀ arg ∈ args, '\n' ∉ arg) :
    session.Answered .list session (session.list args) := by
  have hkeyword : '\n' ∉ (args.head?.map (·.map toAsciiUpper)).getD "ACTIVE".toList := by
    cases args with
    | nil => decide
    | cons arg args => exact lf_not_mem_upper (hargs arg List.mem_cons_self)
  unfold Session.list
  dsimp only
  split
  · exact answered_listKeyword h hkeyword _
  · split
    · exact .plain (by decide) (by decide)
    · split
      · exact answered_listKeyword h hkeyword _
      · exact .plain (by decide) (by decide)

theorem answered_newgroups (args : List Str) :
    session.Answered .newgroups session (session.newgroups args) := by
  unfold newgroups
  split
  · exact .plain (by decide) (by decide)
  · refine .listing (by decide) (List.forall_mem_map.mpr fun group hgroup => ?_) (by decide)
    exact noLf_activeLine h (List.mem_filter.mp hgroup).1

/-! ## Articles -/

omit h in
theorem selectedGroup_mem {group : Group} (hgroup : session.selectedGroup = some group) :
    group ∈ session.corpus.groups := by
  obtain ⟨name, _, hfind⟩ := Option.bind_eq_some_iff.mp hgroup
  exact (Corpus.mem_of_find hfind).1

/-- An article that a command names is one of the corpus. -/
theorem unbroken_of_findArticle {args : List Str} {number : UInt64} {article : Article}
    (hfound : session.findArticle args = .ok (some (number, article))) : article.Unbroken := by
  rcases findArticle_found hfound with ⟨-, id, found, hbyId, rfl⟩ | ⟨group, hgroup, harticle⟩
  · obtain ⟨hgroup, hentry⟩ := Corpus.mem_of_findById hbyId
    exact (h _ hgroup).articles _ hentry
  · obtain ⟨entry, hentry, rfl⟩ := Option.map_eq_some_iff.mp harticle
    exact (h _ (selectedGroup_mem hgroup)).articles _ (List.mem_of_find?_eq_some hentry)

omit h in
theorem failure_of_articleNumber {args : List Str} {reply : Reply}
    (herror : session.articleNumber args = .error reply) : reply.Failure := by
  unfold articleNumber at herror
  repeat' split at herror
  all_goals cases herror
  · exact Reply.failure_plain (by decide)
  · exact Reply.failure_plain (by decide)

omit h in
theorem failure_of_findArticle {args : List Str} {reply : Reply}
    (herror : session.findArticle args = .error reply) : reply.Failure := by
  rcases session.findArticle_cases args with ⟨_, hnumber, heq⟩ | heq | heq | ⟨_, _, _, heq⟩ <;>
    rw [herror] at heq
  · cases heq
    exact failure_of_articleNumber hnumber
  · cases heq
  · cases heq
    exact Reply.failure_plain (by decide)
  · cases heq

omit h in
theorem failure_of_overRange {group : Group} {args : List Str} {reply : Reply}
    (herror : session.overRange group args = .error reply) : reply.Failure := by
  unfold overRange at herror
  repeat' split at herror
  all_goals cases herror
  all_goals exact Reply.failure_plain (by decide)

omit h in
theorem failure_of_hdrRange {args : List Str} {reply : Reply}
    (herror : session.hdrRange args = .error reply) : reply.Failure := by
  unfold hdrRange at herror
  repeat' split at herror
  all_goals cases herror
  all_goals exact Reply.failure_plain (by decide)

/-- The commands that fetch an article, with the code of their answer. -/
theorem answered_fetch {verb : Verb} (hverb : verb = .article ∨ verb = .head ∨ verb = .body ∨ verb = .stat)
    (args : List Str) : session.Answered verb (session.fetch verb args).1 (session.fetch verb args).2 := by
  unfold fetch
  split
  · next reply hfind => exact .failure (failure_of_findArticle hfind)
  · refine .failure ?_
    split
    · exact Reply.failure_plain (by decide)
    · exact Reply.failure_plain (by decide)
  · next number article hfind =>
      have harticle := unbroken_of_findArticle h hfind
      have hid := harticle.id
      have hkept : session.Kept (if number ≠ 0 then
          { session with state := { session.state with currentArticle := some number } } else session) := by
        split
        · exact ⟨rfl, rfl, rfl, rfl⟩
        · exact .refl session
      have hgroup : (if number ≠ 0 then
          { session with state := { session.state with currentArticle := some number } }
          else session).state.currentGroup = session.state.currentGroup := by
        split <;> rfl
      rcases hverb with rfl | rfl | rfl | rfl
      · refine .of_kept hkept (.listing (by simp [hid]) ?_ (by decide) (by decide)) rfl rfl hgroup
        intro line hline
        rcases List.mem_append.mp hline with hline | hline
        · exact harticle.head line hline
        · rcases List.mem_cons.mp hline with rfl | hline
          · exact noLf_nil
          · exact harticle.body line hline
      · exact .of_kept hkept (.listing (by simp [hid]) harticle.head (by decide) (by decide)) rfl rfl hgroup
      · exact .of_kept hkept (.listing (by simp [hid]) harticle.body (by decide) (by decide)) rfl rfl hgroup
      · exact .of_kept hkept (.status (by simp [hid]) (by decide) (by decide)) rfl rfl hgroup

theorem unbroken_of_articlesBetween {group : Group} (hgroup : group ∈ session.corpus.groups)
    {low high : UInt64} : ∀ entry ∈ articlesBetween group low high, entry.2.Unbroken :=
  fun entry hentry => (h group hgroup).articles entry (List.mem_filter.mp hentry).1

theorem answered_over {verb : Verb} (hverb : verb = .over ∨ verb = .xover) (args : List Str) :
    session.Answered verb session (session.over verb args) := by
  have hlisting : ∀ lines, (∀ line ∈ lines, NoLf line) →
      session.Answered verb session (overFollows lines) := by
    intro lines hlines
    rcases hverb with rfl | rfl
    · exact .listing (by decide) hlines (by decide)
    · exact .listing (by decide) hlines (by decide)
  unfold Session.over
  split_ifs
  · exact .failure (Reply.failure_plain (by decide))
  · exact .failure (Reply.failure_plain (by decide))
  · split
    · split
      · exact .failure (Reply.failure_plain (by decide))
      · next group number article hbyId =>
          obtain ⟨hgroup, hentry⟩ := Corpus.mem_of_findById hbyId
          refine hlisting _ fun line hline => ?_
          rw [List.mem_singleton.mp hline]
          exact ((h _ hgroup).articles _ hentry).overviewLine _ (h _ hgroup).lf_not_mem_name
    · split
      · exact .failure (Reply.failure_plain (by decide))
      · next group hgroup =>
          have hmem := selectedGroup_mem hgroup
          split
          · next reply hrange => exact .failure (failure_of_overRange hrange)
          · dsimp only
            split_ifs
            · exact .failure (Reply.failure_plain (by decide))
            · refine hlisting _ (List.forall_mem_map.mpr fun entry hentry => ?_)
              exact (unbroken_of_articlesBetween h hmem entry hentry).overviewLine _
                (h group hmem).lf_not_mem_name

omit h in
theorem noLf_headerLine {article : Article} (harticle : article.Unbroken) (number : UInt64) (field : Str) :
    NoLf (headerLine number article field) := by
  unfold headerLine
  cases hvalue : article.headerValue field with
  | none => simp
  | some value => simp [harticle.headerValue hvalue]

theorem answered_hdr {verb : Verb} (hverb : verb = .hdr ∨ verb = .xhdr) {args : List Str}
    (hargs : ∀ arg ∈ args, '\n' ∉ arg) : session.Answered verb session (session.hdr verb args) := by
  have hlisting : ∀ field lines, '\n' ∉ field → (∀ line ∈ lines, NoLf line) →
      session.Answered verb session (headersFollow verb field lines) := by
    intro field lines hfield hlines
    rcases hverb with rfl | rfl
    · exact .listing (by simp [hfield]) hlines (by decide)
    · exact .listing (by simp [hfield]) hlines (by decide)
  unfold hdr
  split_ifs
  · exact .failure (Reply.failure_plain (by decide))
  · split
    · exact .failure (Reply.failure_plain (by decide))
    · next field hhead =>
        have hfield := hargs field (List.mem_of_head? hhead)
        split
        · split
          · exact .failure (Reply.failure_plain (by decide))
          · next group number article hbyId =>
              obtain ⟨hgroup, hentry⟩ := Corpus.mem_of_findById hbyId
              refine hlisting _ _ hfield fun line hline => ?_
              rw [List.mem_singleton.mp hline]
              exact noLf_headerLine ((h _ hgroup).articles _ hentry) _ _
        · split
          · exact .failure (Reply.failure_plain (by decide))
          · next group hgroup =>
              split
              · next reply hrange => exact .failure (failure_of_hdrRange hrange)
              · refine hlisting _ _ hfield (List.forall_mem_map.mpr fun entry hentry => ?_)
                exact noLf_headerLine
                  (unbroken_of_articlesBetween h (selectedGroup_mem hgroup) entry hentry) _ _

theorem answered_step {verb : Verb} (hverb : verb = .next ∨ verb = .last) :
    session.Answered verb (session.step verb).1 (session.step verb).2 := by
  unfold step
  split
  · exact .failure (Reply.failure_plain (by decide))
  · next group hgroup =>
      split
      · exact .failure (Reply.failure_plain (by decide))
      · next current hcurrent =>
          dsimp only
          split
          · next number article hnext =>
              have hentry : (number, article) ∈ group.articles.entries := by
                split at hnext
                · exact List.mem_of_find?_eq_some hnext
                · exact (List.mem_filter.mp (List.mem_of_getLast? hnext)).1
              have hid := ((h group (selectedGroup_mem hgroup)).articles _ hentry).id
              refine .of_kept ⟨rfl, rfl, rfl, rfl⟩ (.status (by simp [hid]) (by decide) (by decide)) ?_ ?_ rfl
              · rcases hverb with rfl | rfl <;> rfl
              · rcases hverb with rfl | rfl <;> rfl
          · refine .failure ?_
            split
            · exact Reply.failure_plain (by decide)
            · exact Reply.failure_plain (by decide)

omit h in
theorem answered_post : session.Answered .post session session.post.1 := by
  unfold Session.post
  split
  · exact .plain (by decide) (by decide)
  · exact .plain (by decide) (by decide)

omit h in
theorem answered_starttls : session.Answered .starttls session session.starttls.1 := by
  unfold starttls
  split_ifs
  · exact .plain (by decide) (by decide)
  · exact .plain (by decide) (by decide)
  · exact .plain (by decide) (by decide)
  · exact .plain (by decide) (by decide)

/-! ## Every command -/

/-- **Every command is answered as it should be.** -/
theorem answered_perform (verb : Verb) {args : List Str} (hargs : ∀ arg ∈ args, '\n' ∉ arg) :
    session.Answered verb (session.perform verb args).1 (session.perform verb args).2.1 := by
  cases verb with
  | quit => exact .plain (by decide) (by decide)
  | capabilities => exact answered_capabilities
  | mode => exact answered_mode args
  | authinfo => exact answered_authinfo args
  | date => exact .plain (by decide) (by decide)
  | help => exact answered_help
  | starttls => exact answered_starttls
  | group => exact answered_group h args
  | listgroup => exact answered_listgroup h args
  | list => exact answered_list h hargs
  | article => exact answered_fetch h (Or.inl rfl) args
  | head => exact answered_fetch h (Or.inr (Or.inl rfl)) args
  | body => exact answered_fetch h (Or.inr (Or.inr (Or.inl rfl))) args
  | stat => exact answered_fetch h (Or.inr (Or.inr (Or.inr rfl))) args
  | «over» => exact answered_over h (Or.inl rfl) args
  | xover => exact answered_over h (Or.inr rfl) args
  | hdr => exact answered_hdr h (Or.inl rfl) hargs
  | xhdr => exact answered_hdr h (Or.inr rfl) hargs
  | newgroups => exact answered_newgroups h args
  | post => exact answered_post
  | next => exact answered_step h (Or.inl rfl)
  | last => exact answered_step h (Or.inr rfl)

end Session

end Nntp.TestServer
