import Nntp.Lib.Machine
import Nntp.TestServer.Session

/-!
# Where a session stands

A session's position is an article number, and the commands that read it take it for a number of the
selected group. `GROUP` sets both. `LISTGROUP` sets the group only: that is the one way for the position and
the group to come apart.
-/

namespace Nntp.TestServer

open Nntp.Lib Nntp.Proto

/-! ## Groups that grow -/

namespace ArticleMap

/-- An article that is filed takes no number away. -/
theorem keys_insertEntry (number : UInt64) (article : Article) (entries : List (UInt64 × Article)) :
    ∀ key ∈ entries.map (·.1), key ∈ (insertEntry number article entries).map (·.1) := by
  fun_induction insertEntry number article entries with
  | case1 => simp
  | case2 entry entries hlt => exact fun key hkey => List.mem_cons_of_mem _ hkey
  | case3 entry entries hlt heq =>
      intro key hkey
      rcases List.mem_cons.mp hkey with rfl | hkey
      · simp [heq]
      · exact List.mem_cons_of_mem _ hkey
  | case4 entry entries hlt hne ih =>
      intro key hkey
      rcases List.mem_cons.mp hkey with rfl | hkey
      · exact List.mem_cons_self
      · exact List.mem_cons_of_mem _ (ih key hkey)

end ArticleMap

namespace Corpus

theorem find_modifyGroup {name other : Str} {f : Group → Group} (hf : ∀ group, (f group).name = group.name)
    (groups : List Group) :
    (modifyGroup name f groups).find? (fun group => group.name == other) =
      (groups.find? fun group => group.name == other).map
        fun group => if other = name then f group else group := by
  fun_induction modifyGroup name f groups with
  | case1 => rfl
  | case2 group groups hname =>
      have hname : group.name = name := by simpa using hname
      by_cases hother : group.name = other
      · simp [hf, hother, ← hother.symm.trans hname]
      · have hne : other ≠ name := fun heq => hother (hname.trans heq.symm)
        simp [hf, hother, hne]
  | case3 group groups hname ih =>
      have hname : group.name ≠ name := by simpa using hname
      by_cases hother : group.name = other
      · have hne : other ≠ name := fun heq => hname (hother.trans heq)
        simp [hother, hne]
      · simp [hother, ih]

/-- A group keeps its numbers while articles are filed. -/
theorem find_inject {article : Article} {names : List Str} {corpus : Corpus} {name : Str} {group : Group}
    (h : corpus.find name = some group) :
    ∃ after, (inject article names corpus).1.find name = some after ∧
      ∀ key ∈ group.articles.keys, key ∈ after.articles.keys := by
  induction names generalizing corpus group with
  | nil => exact ⟨group, h, fun key hkey => hkey⟩
  | cons other others ih =>
      unfold inject
      cases hfound : corpus.find other with
      | none => exact ih h
      | some found =>
          have hstep := @find_modifyGroup other name
            (fun g => { g with articles := g.articles.insert found.nextNumber article }) (fun _ => rfl)
            corpus.groups
          have hbefore : corpus.groups.find? (fun g => g.name == name) = some group := h
          rw [hbefore, Option.map_some] at hstep
          obtain ⟨after, hafter, hkeys⟩ := @ih ⟨modifyGroup other (fun g =>
            { g with articles := g.articles.insert found.nextNumber article }) corpus.groups⟩ _ hstep
          refine ⟨after, hafter, fun key hkey => hkeys key ?_⟩
          split
          · exact ArticleMap.keys_insertEntry _ article _ key hkey
          · exact hkey

end Corpus

/-! ## Positions -/

namespace Session

/-- The command a line is taken for, with its arguments. -/
def commandOf (text : Str) : Option (Verb × List Str) :=
  let tokens := StatusLine.splitAsciiWhitespace text
  (Verb.parse ((tokens.headD []).map toAsciiUpper)).map fun verb => (verb, tokens.tail)

/-- The command that a line makes the session perform: none where the line is refused. -/
def served (session : Session) (line : Bytes) : Option (Verb × List Str) :=
  if session.config.quirks.closeAfterCommands.any (· < session.state.commandsServed + 1) then none
  else
    (commandOf (fromUtf8Lossy line)).filter fun command =>
      !(session.needsAuth && !command.1.servedUnauthenticated)

/-- The group a `LISTGROUP` with these arguments selects. -/
def listed (session : Session) (args : List Str) : Option Group :=
  (args.head?.or session.state.currentGroup).bind session.corpus.find

/-- What happens to a session: it is given a line or the article behind a `POST`, or another session files
an article. -/
inductive Event where
  | line (octets : Bytes)
  | article (lines : List Bytes)
  | elsewhere (article : Article) (groups : List Str)

/-- The session after an event. -/
def next (session : Session) : Event → Session
  | .line octets => (session.handle octets).1
  | .article lines =>
      let (session, reply) := session.acceptArticle lines
      (session.write reply).1
  | .elsewhere article groups =>
      { session with corpus := (session.corpus.inject article groups).1 }

/-- The position is the number of an article of the selected group. -/
def Placed (session : Session) : Prop :=
  ∀ number, session.state.currentArticle = some number →
    ∃ group, session.selectedGroup = some group ∧ number ∈ group.articles.keys

/-- Selecting another group leaves no position of the group before: none, or the first of the new one. -/
def Afresh (session after : Session) : Prop :=
  after.state.currentGroup ≠ session.state.currentGroup →
    ∀ number, after.state.currentArticle = some number →
      ∃ group, after.selectedGroup = some group ∧ group.low = some number

/-- A `LISTGROUP` that is served comes while there is no position, or names the group that is selected, or one
whose first article has the number of the position. -/
def InPlace (session : Session) : Event → Prop
  | .line octets => ∀ args group, session.served octets = some (.listgroup, args) →
      session.listed args = some group →
        session.state.currentArticle = none ∨ session.state.currentGroup = some group.name ∨
          group.low = session.state.currentArticle
  | _ => True

/-- What a command other than `LISTGROUP` does to the selection. -/
inductive Move (session after : Session) : Prop where
  /-- neither group nor position changes -/
  | stay (hcorpus : after.corpus = session.corpus)
      (hgroup : after.state.currentGroup = session.state.currentGroup)
      (harticle : after.state.currentArticle = session.state.currentArticle)
  /-- to an article of the selected group -/
  | within (number : UInt64) (group : Group) (hcorpus : after.corpus = session.corpus)
      (hgroup : after.state.currentGroup = session.state.currentGroup)
      (hselected : session.selectedGroup = some group) (hnumber : number ∈ group.articles.keys)
      (harticle : after.state.currentArticle = some number)
  /-- to the first article of a group -/
  | enter (group : Group) (hcorpus : after.corpus = session.corpus) (hfind : session.corpus.find group.name = some group)
      (hgroup : after.state.currentGroup = some group.name) (harticle : after.state.currentArticle = group.low)

variable {session : Session}

theorem find_name {corpus : Corpus} {name : Str} {group : Group} (h : corpus.find name = some group) :
    group.name = name := by
  simpa using List.find?_some h

theorem mem_keys_of_find {articles : ArticleMap} {number : UInt64} {article : Article}
    (h : articles.get number = some article) : number ∈ articles.keys := by
  obtain ⟨entry, hentry, _⟩ := Option.map_eq_some_iff.mp h
  have hnumber : entry.1 = number := by simpa using List.find?_some hentry
  exact List.mem_map.mpr ⟨entry, List.mem_of_find?_eq_some hentry, hnumber⟩

/-- A number that is found is the number of an article of the selected group. -/
theorem findArticle_number {args : List Str} {number : UInt64} {article : Article} (hne : number ≠ 0)
    (h : session.findArticle args = .ok (some (number, article))) :
    ∃ group, session.selectedGroup = some group ∧ number ∈ group.articles.keys := by
  rcases findArticle_found h with ⟨hzero, -⟩ | ⟨group, hgroup, harticle⟩
  · exact absurd hzero hne
  · exact ⟨group, hgroup, mem_keys_of_find harticle⟩

theorem move_fetch (verb : Verb) (args : List Str) : Move session (session.fetch verb args).1 := by
  unfold fetch
  split
  · exact .stay rfl rfl rfl
  · exact .stay rfl rfl rfl
  · next number article hfind =>
      dsimp only
      split
      · next hne =>
          obtain ⟨group, hselected, hnumber⟩ := findArticle_number hne hfind
          exact .within number group rfl rfl hselected hnumber rfl
      · exact .stay rfl rfl rfl

theorem move_step (verb : Verb) : Move session (session.step verb).1 := by
  unfold step
  split
  · exact .stay rfl rfl rfl
  · next group hselected =>
      split
      · exact .stay rfl rfl rfl
      · dsimp only
        split
        · next number article hnext =>
            have hentry : (number, article) ∈ group.articles.entries := by
              split at hnext
              · exact List.mem_of_find?_eq_some hnext
              · exact (List.mem_filter.mp (List.mem_of_getLast? hnext)).1
            exact .within number group rfl rfl hselected (List.mem_map_of_mem hentry) rfl
        · exact .stay rfl rfl rfl

theorem move_group (args : List Str) : Move session (session.group args).1 := by
  unfold Session.group
  split
  · exact .stay rfl rfl rfl
  · split
    · exact .stay rfl rfl rfl
    · next name group hfind =>
        have hname := find_name hfind
        exact .enter group rfl (hname ▸ hfind) rfl rfl

theorem move_mode (args : List Str) : Move session (session.mode args).1 := by
  unfold mode
  split
  · exact .stay rfl rfl rfl
  · split
    · exact .stay rfl rfl rfl
    · exact .stay rfl rfl rfl

theorem move_authinfo (args : List Str) : Move session (session.authinfo args).1 := by
  unfold authinfo authinfoPass
  dsimp only
  repeat' split
  all_goals exact .stay rfl rfl rfl

/-- `LISTGROUP` takes the position along. -/
theorem listgroup_eq (args : List Str) :
    (session.listgroup args).1 =
      match session.listed args with
      | none => session
      | some group => { session with state := { session.state with currentGroup := some group.name } } := by
  unfold listgroup listed
  cases args.head?.or session.state.currentGroup with
  | none => rfl
  | some name =>
      cases hfind : session.corpus.find name with
      | none => simp [hfind]
      | some group => simp [hfind, find_name hfind]

theorem listed_name {args : List Str} {group : Group} (h : session.listed args = some group) :
    session.corpus.find group.name = some group := by
  obtain ⟨name, _, hfind⟩ := Option.bind_eq_some_iff.mp h
  rw [find_name hfind, hfind]

/-- What every other command does to the selection. -/
theorem move_perform {verb : Verb} (hverb : verb ≠ .listgroup) (args : List Str) :
    Move session (session.perform verb args).1 := by
  cases verb with
  | listgroup => exact absurd rfl hverb
  | mode => exact move_mode args
  | authinfo => exact move_authinfo args
  | group => exact move_group args
  | article => exact move_fetch _ args
  | head => exact move_fetch _ args
  | body => exact move_fetch _ args
  | stat => exact move_fetch _ args
  | next => exact move_step _
  | last => exact move_step _
  | _ => exact .stay rfl rfl rfl

/-! ## Lines -/

/-- The selection and what it is looked up in. -/
structure SameSelection (session after : Session) : Prop where
  corpus : after.corpus = session.corpus
  group : after.state.currentGroup = session.state.currentGroup
  article : after.state.currentArticle = session.state.currentArticle

theorem SameSelection.trans {mid after : Session} (h : SameSelection session mid)
    (h' : SameSelection mid after) : SameSelection session after where
  corpus := h'.corpus.trans h.corpus
  group := h'.group.trans h.group
  article := h'.article.trans h.article

theorem SameSelection.selectedGroup {after : Session} (h : SameSelection session after) :
    after.selectedGroup = session.selectedGroup := by
  unfold Session.selectedGroup
  rw [h.group, h.corpus]

theorem sameSelection_write (session : Session) (reply : Reply) :
    SameSelection session (session.write reply).1 := by
  unfold write
  split
  · exact ⟨rfl, rfl, rfl⟩
  · dsimp only [block]
    split <;> exact ⟨rfl, rfl, rfl⟩

/-- The session that performs the command of a line. -/
def counted (session : Session) : Session :=
  { session with state := { session.state with commandsServed := session.state.commandsServed + 1 } }

/-- A line is answered by its command, or refused. -/
theorem answer_cases (session : Session) (text : Str) :
    (∃ verb args, commandOf text = some (verb, args) ∧
        (session.needsAuth && !verb.servedUnauthenticated) = false ∧
        session.answer text = session.perform verb args) ∨
      ((commandOf text).filter (fun command =>
          !(session.needsAuth && !command.1.servedUnauthenticated)) = none ∧
        ∃ reply, session.answer text = (session, reply, .continue)) := by
  unfold answer commandOf
  dsimp only
  split
  · next hempty =>
      rw [hempty]
      exact Or.inr ⟨rfl, _, rfl⟩
  · split
    · next verb hparse =>
        rw [hparse, Option.map_some]
        cases hauth : session.needsAuth && !verb.servedUnauthenticated with
        | true => exact Or.inr ⟨by simpa using hauth, _, rfl⟩
        | false => exact Or.inl ⟨verb, _, rfl, hauth, rfl⟩
    · next hparse =>
        rw [hparse]
        split
        · exact Or.inr ⟨rfl, _, rfl⟩
        · exact Or.inr ⟨rfl, _, rfl⟩

theorem needsAuth_counted (session : Session) : session.counted.needsAuth = session.needsAuth := rfl

/-- What a line does to the selection is what its command does. -/
theorem sameSelection_handle (session : Session) (line : Bytes) :
    SameSelection
      (match session.served line with
        | none => session
        | some command => (session.counted.perform command.1 command.2).1)
      (session.handle line).1 := by
  unfold handle dispatch served
  dsimp only
  split_ifs with hclose
  · exact ⟨rfl, rfl, rfl⟩
  · rcases answer_cases session.counted (fromUtf8Lossy line) with ⟨verb, args, hcommand, hauth, hanswer⟩ |
      ⟨hrefused, reply, hanswer⟩
    · change session.counted.answer (fromUtf8Lossy line) = _ at hanswer
      rw [needsAuth_counted] at hauth
      simp only [hcommand, Option.filter_some, hauth, Bool.not_false, if_true]
      have hwrite := sameSelection_write (session.counted.perform verb args).1
        (session.counted.perform verb args).2.1
      show SameSelection _ ((some (session.counted.answer (fromUtf8Lossy line)).2.1).map
        (session.counted.answer (fromUtf8Lossy line)).1.write |>.getD _).1
      rw [hanswer]
      exact hwrite
    · rw [needsAuth_counted] at hrefused
      rw [hrefused]
      show SameSelection _ ((some (session.counted.answer (fromUtf8Lossy line)).2.1).map
        (session.counted.answer (fromUtf8Lossy line)).1.write |>.getD _).1
      rw [hanswer]
      have hcounted : SameSelection session session.counted := ⟨rfl, rfl, rfl⟩
      exact hcounted.trans (sameSelection_write _ _)

/-! ## The invariant -/

theorem placed_of_same {after : Session} (h : SameSelection session after) (hplaced : session.Placed) :
    after.Placed := by
  intro number hnumber
  rw [h.selectedGroup]
  rw [h.article] at hnumber
  exact hplaced number hnumber

theorem afresh_of_same {mid after : Session} (h : SameSelection mid after)
    (hmid : session.Afresh mid) : session.Afresh after := by
  intro hgroup number hnumber
  rw [h.selectedGroup]
  rw [h.group] at hgroup
  rw [h.article] at hnumber
  exact hmid hgroup number hnumber

/-- A move of any command but `LISTGROUP` keeps the position in its group. -/
theorem Move.placed {after : Session} (h : Move session after) (hplaced : session.Placed) :
    after.Placed ∧ session.Afresh after := by
  cases h with
  | stay hcorpus hgroup harticle =>
      exact ⟨placed_of_same ⟨hcorpus, hgroup, harticle⟩ hplaced, fun hne => absurd hgroup hne⟩
  | within number group hcorpus hgroup hselected hnumber harticle =>
      refine ⟨fun n hn => ⟨group, ?_, ?_⟩, fun hne => absurd hgroup hne⟩
      · unfold selectedGroup at hselected ⊢
        rw [hgroup, hcorpus, hselected]
      · rw [harticle] at hn
        exact Option.some.inj hn ▸ hnumber
  | enter group hcorpus hfind hgroup harticle =>
      have hselected : after.selectedGroup = some group := by
        unfold selectedGroup
        rw [hgroup, hcorpus, Option.bind_some, hfind]
      refine ⟨fun n hn => ⟨group, hselected, ?_⟩, fun _ n hn => ⟨group, hselected, harticle.symm.trans hn⟩⟩
      rw [harticle] at hn
      exact List.mem_of_head? hn

/-- `LISTGROUP` keeps the position in its group exactly if it is in place. -/
theorem listgroup_placed_iff (hplaced : session.Placed) (args : List Str) :
    ((session.listgroup args).1.Placed ∧ session.Afresh (session.listgroup args).1) ↔
      ∀ group, session.listed args = some group →
        session.state.currentArticle = none ∨ session.state.currentGroup = some group.name ∨
          group.low = session.state.currentArticle := by
  rw [listgroup_eq]
  cases hlisted : session.listed args with
  | none => exact ⟨fun _ _ hgroup => (by cases hgroup), fun _ => ⟨hplaced, fun hne => absurd rfl hne⟩⟩
  | some group =>
      have hfind := listed_name hlisted
      have hselected : ({ session with
          state := { session.state with currentGroup := some group.name } } : Session).selectedGroup =
            some group := hfind
      constructor
      · rintro ⟨_, hafresh⟩ group' hgroup'
        cases hgroup'
        cases harticle : session.state.currentArticle with
        | none => exact Or.inl rfl
        | some number =>
            refine Or.inr ?_
            by_cases hsame : session.state.currentGroup = some group.name
            · exact Or.inl hsame
            · obtain ⟨first, hfirst, hlow⟩ := hafresh (fun heq => hsame heq.symm) number harticle
              rw [hselected] at hfirst
              cases hfirst
              exact Or.inr hlow
      · intro h
        rcases h group rfl with hnone | hsame | hlow
        · refine ⟨fun number hnumber => ?_, fun _ number hnumber => ?_⟩
          · cases hnone.symm.trans hnumber
          · cases hnone.symm.trans hnumber
        · refine ⟨fun number hnumber => ?_, fun hne => absurd hsame.symm hne⟩
          obtain ⟨before, hbefore, hkey⟩ := hplaced number hnumber
          unfold selectedGroup at hbefore
          rw [hsame, Option.bind_some, hfind] at hbefore
          cases hbefore
          exact ⟨_, hselected, hkey⟩
        · refine ⟨fun number hnumber => ⟨group, hselected, ?_⟩,
            fun _ number hnumber => ⟨group, hselected, hlow.trans hnumber⟩⟩
          exact List.mem_of_head? (hlow.trans hnumber)

/-- While articles are filed, the position stays in its group. -/
theorem placed_of_grown {after : Session} (hgroup : after.state.currentGroup = session.state.currentGroup)
    (harticle : after.state.currentArticle = session.state.currentArticle)
    (hcorpus : ∀ name group, session.corpus.find name = some group →
      ∃ grown, after.corpus.find name = some grown ∧ ∀ key ∈ group.articles.keys, key ∈ grown.articles.keys)
    (hplaced : session.Placed) : after.Placed ∧ session.Afresh after := by
  refine ⟨fun number hnumber => ?_, fun hne => absurd hgroup hne⟩
  rw [harticle] at hnumber
  obtain ⟨group, hselected, hkey⟩ := hplaced number hnumber
  obtain ⟨name, hname, hfind⟩ := Option.bind_eq_some_iff.mp hselected
  obtain ⟨grown, hgrown, hkeys⟩ := hcorpus name group hfind
  refine ⟨grown, ?_, hkeys number hkey⟩
  unfold selectedGroup
  rw [hgroup, hname, Option.bind_some, hgrown]

/-- A posted article is filed, or nothing happens to the corpus. -/
theorem acceptArticle_keeps (session : Session) (lines : List Bytes) :
    (session.acceptArticle lines).1.state = session.state ∧
      ((session.acceptArticle lines).1.corpus = session.corpus ∨
        ∃ article groups, (session.acceptArticle lines).1.corpus =
          (session.corpus.inject article groups).1) := by
  unfold acceptArticle
  dsimp only
  split
  · exact ⟨rfl, Or.inl rfl⟩
  · split
    · exact ⟨rfl, Or.inl rfl⟩
    · split
      · exact ⟨rfl, Or.inr ⟨_, _, rfl⟩⟩
      · exact ⟨rfl, Or.inr ⟨_, _, rfl⟩⟩

theorem next_article_placed (hplaced : session.Placed) (lines : List Bytes) :
    (session.next (.article lines)).Placed ∧ session.Afresh (session.next (.article lines)) := by
  have hwrite := sameSelection_write (session.acceptArticle lines).1 (session.acceptArticle lines).2
  obtain ⟨hstate, hcorpus⟩ := acceptArticle_keeps session lines
  refine placed_of_grown ?_ ?_ (fun name group hfind => ?_) hplaced
  · rw [next, hwrite.group, hstate]
  · rw [next, hwrite.article, hstate]
  · rw [next, hwrite.corpus]
    rcases hcorpus with hsame | ⟨article, groups, hinject⟩
    · rw [hsame]
      exact ⟨group, hfind, fun key hkey => hkey⟩
    · rw [hinject]
      exact Corpus.find_inject hfind

/-- **One event**: the position stays in its group, and none is carried to another, exactly if a `LISTGROUP`
is in place. -/
theorem next_placed_iff (hplaced : session.Placed) (event : Event) :
    ((session.next event).Placed ∧ session.Afresh (session.next event)) ↔ session.InPlace event := by
  cases event with
  | line octets =>
      have hsame := sameSelection_handle session octets
      cases hserved : session.served octets with
      | none =>
          rw [hserved] at hsame
          refine iff_of_true ⟨placed_of_same hsame hplaced, fun hne => absurd hsame.group hne⟩ ?_
          intro args group hcommand
          rw [hserved] at hcommand
          cases hcommand
      | some command =>
          obtain ⟨verb, args⟩ := command
          rw [hserved] at hsame
          have hcounted : session.counted.Placed := hplaced
          have hafter : ((session.next (.line octets)).Placed ∧
              session.Afresh (session.next (.line octets))) ↔
              ((session.counted.perform verb args).1.Placed ∧
                session.counted.Afresh (session.counted.perform verb args).1) := by
            constructor
            · rintro ⟨hp, ha⟩
              exact ⟨placed_of_same ⟨hsame.corpus.symm, hsame.group.symm, hsame.article.symm⟩ hp,
                afresh_of_same ⟨hsame.corpus.symm, hsame.group.symm, hsame.article.symm⟩ ha⟩
            · rintro ⟨hp, ha⟩
              exact ⟨placed_of_same hsame hp, afresh_of_same hsame ha⟩
          rw [hafter]
          by_cases hverb : verb = .listgroup
          · subst hverb
            refine (listgroup_placed_iff hcounted args).trans ⟨fun h args' group hcommand => ?_, fun h => ?_⟩
            · rw [hserved] at hcommand
              cases hcommand
              exact h group
            · exact fun group => h args group hserved
          · refine iff_of_true ((move_perform hverb args).placed hcounted) fun args' group hcommand => ?_
            rw [hserved] at hcommand
            cases hcommand
            exact absurd rfl hverb
  | article lines => exact iff_of_true (next_article_placed hplaced lines) trivial
  | elsewhere article groups =>
      exact iff_of_true (placed_of_grown rfl rfl (fun _ _ hfind => Corpus.find_inject hfind) hplaced) trivial

/-- A session and what happens to it, as a machine. -/
def taken (session : Session) (event : Event) : Option Session := some (session.next event)

/-- **The selection is consistent in every state of a run exactly if every `LISTGROUP` of it is in place.** -/
theorem run_placed_iff (corpus : Corpus) (config : ServerConfig) (events : List Event) :
    Meets taken (fun session event =>
        (session.next event).Placed ∧ session.Afresh (session.next event)) (Session.new corpus config) events ↔
      Meets taken InPlace (Session.new corpus config) events := by
  have hstart : (Session.new corpus config).Placed := fun _ hnumber => by cases hnumber
  generalize Session.new corpus config = session at hstart
  induction events generalizing session with
  | nil => exact Iff.rfl
  | cons event events ih =>
      have hnext := next_placed_iff hstart event
      constructor
      · rintro ⟨hplaced, hrest⟩
        refine ⟨hnext.mp hplaced, fun after hafter => ?_⟩
        cases hafter
        exact (ih _ hplaced.1).mp (hrest _ rfl)
      · rintro ⟨hin, hrest⟩
        have hplaced := hnext.mpr hin
        refine ⟨hplaced, fun after hafter => ?_⟩
        cases hafter
        exact (ih _ hplaced.1).mpr (hrest _ rfl)

/-- An article without a line. -/
def bareArticle (id : String) : Article := { messageId := id.toList }

/-- A group with one article of the given number. -/
def groupAt (name : String) (number : UInt64) (id : String) : Group where
  name := name.toList
  articles := ArticleMap.insert {} number (bareArticle id)

/-- **A position of another group**: `GROUP` selects the first article of one group, number 1, and `LISTGROUP`
then selects a group whose only article is number 10. -/
theorem listgroup_not_placed :
    ¬ Meets taken (fun session event => (session.next event).Placed ∧ session.Afresh (session.next event))
      (Session.new { groups := [groupAt "alpha" 1 "<a@x>", groupAt "beta" 10 "<b@x>"] } {})
      [.line (asBytes "GROUP alpha".toList), .line (asBytes "LISTGROUP beta".toList)] := by
  intro h
  have hplaced := (h.2 _ rfl).1.1
  obtain ⟨group, hselected, hnumber⟩ := hplaced 1 (by decide +kernel)
  have hkeys : ((((Session.new { groups := [groupAt "alpha" 1 "<a@x>", groupAt "beta" 10 "<b@x>"] } {}).next
      (.line (asBytes "GROUP alpha".toList))).next
        (.line (asBytes "LISTGROUP beta".toList))).selectedGroup.map fun group => group.articles.keys) =
      some [10] := by
    decide +kernel
  rw [hselected, Option.map_some] at hkeys
  rw [Option.some.inj hkeys] at hnumber
  exact absurd hnumber (by decide)

end Session

end Nntp.TestServer
