import Nntp.TestServer.Numbering
import Nntp.TestServer.Unbroken

/-!
# The ids a server assigns

`server.rs` and `accept_article`: any number of sessions over one corpus. A posted article without an id is
given one made from the number of commands its session has been sent and the process id, and that number is
not the sessions' common one.
-/

namespace Nntp.TestServer

open Nntp.Lib Nntp.Proto

/-! ## A server and its sessions -/

/-- One connection: the state of its session, and what the session waits for. -/
structure Connection where
  state : State
  flow : Flow

/-- An article that came without an id, and the id it was given. -/
structure Assigned where
  id : Str
  article : Article
  deriving DecidableEq

/-- What the sessions of a server share, and the sessions. -/
structure Server where
  corpus : Corpus
  config : ServerConfig
  processId : Nat
  postbox : List PostedArticle := []
  connections : List Connection := []
  /-- the articles accepted without an id, the last one first -/
  assigned : List Assigned := []

namespace Server

/-- The session with this state of its own. -/
def session (server : Server) (state : State) : Session where
  corpus := server.corpus
  config := server.config
  state := state
  postbox := some server.postbox
  processId := server.processId

/-- The server after a session has done something. -/
def resume (server : Server) (i : Nat) (session : Session) (flow : Flow) : Server :=
  { server with
    corpus := session.corpus
    postbox := session.postbox.getD []
    connections := server.connections.set i { state := session.state, flow } }

/-- What can happen. -/
inductive Action where
  /-- a client connects, perhaps over TLS -/
  | connect (encrypted : Bool)
  | line (i : Nat) (octets : Bytes)
  /-- the article behind a `POST` -/
  | article (i : Nat) (lines : List Bytes)
  /-- the handshake behind a `STARTTLS` -/
  | upgraded (i : Nat)

/-- The article that is accepted without an id of its own, with the id it is given. -/
def assignedBy (session : Session) (lines : List Bytes) : List Assigned :=
  if PostedArticle.header { lines } "Message-ID" = none ∧ (session.acceptArticle lines).2.code = 240 then
    [{ id := session.assignedId { lines }, article := session.storedAs { lines } }]
  else []

/-- **One step of the server.** Sessions take turns: each command, and each article, is handled whole. -/
def step (server : Server) : Action → Option Server
  | .connect encrypted =>
      let session := Session.new server.corpus server.config
      some { server with
        connections := server.connections ++
          [{ state := { session.state with encrypted := encrypted }, flow := session.greet.2 }] }
  | .line i octets =>
      match server.connections[i]? with
      | some { state, flow := .continue } =>
          let (session, flow, _) := (server.session state).handle octets
          some (server.resume i session flow)
      | _ => none
  | .article i lines =>
      match server.connections[i]? with
      | some { state, flow := .readArticle } =>
          let (session, reply) := (server.session state).acceptArticle lines
          some { server.resume i (session.write reply).1 .continue with
            assigned := assignedBy (server.session state) lines ++ server.assigned }
      | _ => none
  | .upgraded i =>
      match server.connections[i]? with
      | some { state, flow := .upgradeToTls } =>
          some { server with
            connections := server.connections.set i
              { state := { state with encrypted := true }, flow := .continue } }
      | _ => none

/-- A server that has just been started. -/
def start (corpus : Corpus) (config : ServerConfig) (processId : Nat) : Server where
  corpus := corpus
  config := config
  processId := processId

/-- **Ids that are assigned identify**: no two articles are given the same, and an article is what is fetched
by the id it was given. -/
structure Identified (server : Server) : Prop where
  unique : (server.assigned.map (·.id)).Nodup
  fetched : ∀ a ∈ server.assigned, ∀ state, ((server.session state).fetch .article [a.id]).2 =
    Session.articleReply .article 0 a.article

/-! ## When ids are kept apart -/

/-- No stored article has this id, whatever the case of its letters. -/
def NewTo (corpus : Corpus) (id : Str) : Prop :=
  ∀ group ∈ corpus.groups, ∀ entry ∈ group.articles.entries, eqIgnoreAsciiCase entry.2.messageId id = false

instance (corpus : Corpus) (id : Str) : Decidable (NewTo corpus id) :=
  inferInstanceAs (Decidable (∀ group ∈ _, ∀ entry ∈ _, _))

/-- The groups have numbers left for an article to these groups. -/
def HasRoom (corpus : Corpus) (names : List Str) : Prop :=
  ∀ group ∈ corpus.groups, (group.high.getD 0).toNat + names.count group.name ≤ u64Max.toNat

instance (corpus : Corpus) (names : List Str) : Decidable (HasRoom corpus names) :=
  inferInstanceAs (Decidable (∀ group ∈ _, _))

/-- An article that is taken without an id is given one that no article has, and one that is taken with an id
does not have one that was given. Numbers do not wrap. -/
def KeepsApart (server : Server) : Action → Prop
  | .article i lines => ∀ connection ∈ server.connections[i]?, connection.flow = .readArticle →
      (server.session connection.state).Takes { lines } →
        (PostedArticle.header { lines } "Message-ID" = none →
          NewTo server.corpus ((server.session connection.state).assignedId { lines })) ∧
        (∀ id ∈ PostedArticle.header { lines } "Message-ID", ∀ a ∈ server.assigned,
          eqIgnoreAsciiCase id a.id = false) ∧
        HasRoom server.corpus (PostedArticle.newsgroups { lines })
  | _ => True

instance (session : Session) (article : PostedArticle) : Decidable (session.Takes article) :=
  inferInstanceAs (Decidable (_ ∧ _ ∧ ∃ name ∈ _, _))

instance (server : Server) : (a : Action) → Decidable (KeepsApart server a)
  | .article _ _ => inferInstanceAs (Decidable (∀ connection ∈ _, _ → _ →
      (_ → NewTo _ _) ∧ (∀ id ∈ _, ∀ a ∈ _, _) ∧ HasRoom _ _))
  | .connect _ | .line _ _ | .upgraded _ => isTrue trivial

end Server

/-! ## What filing does to the corpus -/

namespace Group

variable {group : Group} {article : Article}

/-- Filed as often as there is room for, an article takes the place of no other. -/
theorem mem_iterate_file (n : Nat) (h : (group.high.getD 0).toNat + n ≤ u64Max.toNat)
    {entry : UInt64 × Article} (hentry : entry ∈ group.articles.entries) :
    entry ∈ ((file article)^[n] group).articles.entries := by
  induction n generalizing group with
  | zero => exact hentry
  | succ n ih =>
      have hmax : u64Max.toNat = 18446744073709551615 := rfl
      have hnext : group.nextNumber.toNat = (group.high.getD 0).toNat + 1 := by
        rw [nextNumber_eq, UInt64.toNat_add]
        have hone : (1 : UInt64).toNat = 1 := rfl
        omega
      have hlast : group.high.getD 0 < u64Max := by
        rw [UInt64.lt_iff_toNat_lt]
        omega
      have habove : ∀ e ∈ group.articles.entries, e.1 < group.nextNumber :=
        fun e he => lt_nextNumber_of_high hlast e.1 (List.mem_map_of_mem he)
      have happend : (group.file article).articles.entries =
          group.articles.entries ++ [(group.nextNumber, article)] := ArticleMap.insertEntry_above habove
      have hhigh : (group.file article).high = some group.nextNumber := by
        unfold high ArticleMap.keys
        rw [happend, List.map_append, List.map_cons, List.map_nil, List.getLast?_concat]
      refine ih ?_ ?_
      · rw [hhigh, Option.getD_some, hnext]
        omega
      · rw [happend]
        exact List.mem_append_left _ hentry

/-- Filing adds nothing but the article. -/
theorem of_mem_iterate_file (n : Nat) {entry : UInt64 × Article}
    (h : entry ∈ ((file article)^[n] group).articles.entries) :
    entry ∈ group.articles.entries ∨ entry.2 = article := by
  induction n generalizing group with
  | zero => exact Or.inl h
  | succ n ih =>
      rcases ih h with h | h
      · rcases ArticleMap.mem_insertEntry h with rfl | h
        · exact Or.inr rfl
        · exact Or.inl h
      · exact Or.inr h

/-- An article that is filed is there. -/
theorem exists_mem_iterate_file {n : Nat} (hn : 0 < n) (group : Group) :
    ∃ entry ∈ ((file article)^[n] group).articles.entries, entry.2 = article := by
  obtain ⟨m, rfl⟩ : ∃ m, n = m + 1 := ⟨n - 1, by omega⟩
  rw [Function.iterate_succ_apply']
  exact ⟨_, ArticleMap.mem_insertEntry_self .., rfl⟩

end Group

namespace Corpus

variable {corpus : Corpus} {article : Article} {names : List Str}

/-- The articles of a corpus. -/
def Stores (corpus : Corpus) (article : Article) : Prop :=
  ∃ group ∈ corpus.groups, ∃ entry ∈ group.articles.entries, entry.2 = article

theorem stores_inject_of_stores (hroom : Server.HasRoom corpus names) {old : Article} (h : corpus.Stores old) :
    (inject article names corpus).1.Stores old := by
  obtain ⟨group, hgroup, entry, hentry, rfl⟩ := h
  obtain ⟨k, hk⟩ := List.getElem?_of_mem hgroup
  have hafter := inject_getElem? article names corpus k
  rw [hk, Option.map_some] at hafter
  refine ⟨_, List.mem_of_getElem? hafter, entry, ?_, rfl⟩
  split
  · exact Group.mem_iterate_file _ (hroom group hgroup) hentry
  · exact hentry

theorem of_stores_inject {old : Article} (h : (inject article names corpus).1.Stores old) :
    corpus.Stores old ∨ old = article := by
  obtain ⟨after, hafter, entry, hentry, rfl⟩ := h
  obtain ⟨k, hk⟩ := List.getElem?_of_mem hafter
  rw [inject_getElem?] at hk
  obtain ⟨group, hget, rfl⟩ := Option.map_eq_some_iff.mp hk
  have hgroup := List.mem_of_getElem? hget
  split at hentry
  · rcases Group.of_mem_iterate_file _ hentry with hentry | heq
    · exact Or.inl ⟨group, hgroup, entry, hentry, rfl⟩
    · exact Or.inr heq
  · exact Or.inl ⟨group, hgroup, entry, hentry, rfl⟩

theorem stores_inject_self {name : Str} (hname : name ∈ names) (h : (corpus.find name).isSome = true) :
    (inject article names corpus).1.Stores article := by
  obtain ⟨k, hholds⟩ := find_isSome_iff.mp h
  obtain ⟨group, hget, rfl, _⟩ := hholds.getElem?
  have hafter := inject_getElem? article names corpus k
  rw [hget, Option.map_some, if_pos hholds] at hafter
  obtain ⟨entry, hentry, heq⟩ := @Group.exists_mem_iterate_file article _
    (List.count_pos_iff.mpr hname) group
  exact ⟨_, List.mem_of_getElem? hafter, entry, hentry, heq⟩

end Corpus

/-! ## Looking an id up -/

namespace Session

variable {session : Session}

/-- No command changes the corpus. -/
theorem handle_corpus (session : Session) (line : Bytes) : (session.handle line).1.corpus = session.corpus := by
  have hsame := sameSelection_handle session line
  refine hsame.corpus.trans ?_
  cases session.served line with
  | none => rfl
  | some command =>
      obtain ⟨verb, args⟩ := command
      show (session.counted.perform verb args).1.corpus = session.counted.corpus
      by_cases hverb : verb = .listgroup
      · subst hverb
        show (session.counted.listgroup args).1.corpus = session.counted.corpus
        rw [listgroup_eq]
        split <;> rfl
      · cases @move_perform session.counted verb hverb args with
        | stay hcorpus _ _ => exact hcorpus
        | within _ _ hcorpus _ _ _ _ => exact hcorpus
        | enter _ hcorpus _ _ _ => exact hcorpus

/-- An article that alone has its id is fetched by it. -/
theorem fetch_byId {id : Str} {article : Article} (hid : id.head? = some '<')
    (hstores : session.corpus.Stores article) (hnamed : article.messageId = id)
    (hsole : ∀ other, session.corpus.Stores other → eqIgnoreAsciiCase other.messageId id = true →
      other = article) : (session.fetch .article [id]).2 = articleReply .article 0 article := by
  have hfound : ∃ found, session.corpus.findById id = some found := by
    obtain ⟨group, hgroup, entry, hentry, rfl⟩ := hstores
    refine Option.isSome_iff_exists.mp (List.findSome?_isSome_iff.mpr ⟨group, hgroup, ?_⟩)
    rw [Option.isSome_map]
    refine List.find?_isSome.mpr ⟨entry, hentry, ?_⟩
    rw [hnamed]
    exact beq_self_eq_true _
  obtain ⟨found, hfound⟩ := hfound
  obtain ⟨hgroup, hentry⟩ := Corpus.mem_of_findById hfound
  have hsame : eqIgnoreAsciiCase found.2.2.messageId id = true := by
    obtain ⟨group, _, hbyId⟩ := List.exists_of_findSome?_eq_some hfound
    obtain ⟨entry, hfirst, heq⟩ := Option.map_eq_some_iff.mp hbyId
    rw [← heq]
    exact List.find?_some (p := fun entry : UInt64 × Article => eqIgnoreAsciiCase entry.2.messageId id) hfirst
  have heq : found.2.2 = article := hsole _ ⟨found.1, hgroup, found.2, hentry, rfl⟩ hsame
  have hfind : session.findArticle [id] = .ok (some (0, article)) := by
    have hnumber : session.articleNumber [id] = .ok none := if_pos hid
    unfold findArticle
    rw [hnumber]
    show Except.ok (((some id).bind session.corpus.findById).map _) = _
    rw [Option.bind_some, hfound, Option.map_some, heq]
  unfold fetch
  rw [hfind]

end Session

namespace Server

variable {server after : Server} {a : Action}

/-- **What holds of the ids that were assigned**: the article is stored under its id, and no other article has
that id. -/
structure Kept (server : Server) : Prop where
  unique : (server.assigned.map (·.id)).Nodup
  bracket : ∀ a ∈ server.assigned, a.id.head? = some '<'
  stored : ∀ a ∈ server.assigned, server.corpus.Stores a.article ∧ a.article.messageId = a.id
  sole : ∀ a ∈ server.assigned, ∀ other, server.corpus.Stores other →
    eqIgnoreAsciiCase other.messageId a.id = true → other = a.article

theorem Kept.identified (h : Kept server) : Identified server where
  unique := h.unique
  fetched := by
    intro a ha state
    obtain ⟨hstores, hnamed⟩ := h.stored a ha
    exact Session.fetch_byId (h.bracket a ha) hstores hnamed (h.sole a ha)

/-- A step that files nothing. -/
theorem Kept.of_same (h : Kept server) (hcorpus : after.corpus = server.corpus)
    (hassigned : after.assigned = server.assigned) : Kept after := by
  refine ⟨?_, ?_, ?_, ?_⟩ <;> rw [hassigned]
  · exact h.unique
  · exact h.bracket
  · rw [hcorpus]
    exact h.stored
  · rw [hcorpus]
    exact h.sole

theorem newTo_iff {corpus : Corpus} {id : Str} : NewTo corpus id ↔
    ∀ article, corpus.Stores article → eqIgnoreAsciiCase article.messageId id = false := by
  constructor
  · rintro h article ⟨group, hgroup, entry, hentry, rfl⟩
    exact h group hgroup entry hentry
  · exact fun h group hgroup entry hentry => h entry.2 ⟨group, hgroup, entry, hentry, rfl⟩

theorem eqIgnoreAsciiCase_comm (s t : Str) : eqIgnoreAsciiCase s t = eqIgnoreAsciiCase t s := by
  unfold eqIgnoreAsciiCase
  exact BEq.comm

theorem assignedId_of_none {session : Session} {article : PostedArticle}
    (h : article.header "Message-ID" = none) : (session.assignedId article).head? = some '<' := by
  unfold Session.assignedId
  rw [h]
  rfl

/-- **The step that files an article.** -/
theorem Kept.file (h : Kept server) {session : Session} (hsession : session.corpus = server.corpus)
    {lines : List Bytes} (htakes : session.Takes { lines })
    (hnew : PostedArticle.header { lines } "Message-ID" = none →
      NewTo server.corpus (session.assignedId { lines }))
    (hown : ∀ id ∈ PostedArticle.header { lines } "Message-ID", ∀ a ∈ server.assigned,
      eqIgnoreAsciiCase id a.id = false)
    (hroom : HasRoom server.corpus (PostedArticle.newsgroups { lines }))
    (hcorpus : after.corpus = (Corpus.inject (session.storedAs { lines }) (PostedArticle.newsgroups { lines })
      server.corpus).1)
    (hassigned : after.assigned =
      (if PostedArticle.header { lines } "Message-ID" = none then
        [{ id := session.assignedId { lines }, article := session.storedAs { lines } }] else []) ++
        server.assigned) : Kept after := by
  -- the article's id is none that was assigned before
  have hfresh : ∀ a ∈ server.assigned, eqIgnoreAsciiCase (session.assignedId { lines }) a.id = false := by
    intro a ha
    cases hheader : PostedArticle.header { lines } "Message-ID" with
    | none =>
        obtain ⟨hstores, hnamed⟩ := h.stored a ha
        have hdiffers := newTo_iff.mp (hnew hheader) _ hstores
        rw [hnamed] at hdiffers
        rw [eqIgnoreAsciiCase_comm]
        exact hdiffers
    | some id =>
        have hid : session.assignedId { lines } = id := by
          unfold Session.assignedId
          rw [hheader]
          rfl
        rw [hid]
        exact hown id hheader a ha
  have holdStored : ∀ a ∈ server.assigned, after.corpus.Stores a.article ∧ a.article.messageId = a.id := by
    intro a ha
    rw [hcorpus]
    exact ⟨Corpus.stores_inject_of_stores hroom (h.stored a ha).1, (h.stored a ha).2⟩
  have holdSole : ∀ a ∈ server.assigned, ∀ other, after.corpus.Stores other →
      eqIgnoreAsciiCase other.messageId a.id = true → other = a.article := by
    intro a ha other hother hsame
    rw [hcorpus] at hother
    rcases Corpus.of_stores_inject hother with hother | rfl
    · exact h.sole a ha other hother hsame
    · have hdiffers := hfresh a ha
      cases hdiffers.symm.trans hsame
  cases hheader : PostedArticle.header { lines } "Message-ID" with
  | some id =>
      rw [hheader, if_neg (by simp), List.nil_append] at hassigned
      refine ⟨?_, ?_, ?_, ?_⟩ <;> rw [hassigned]
      · exact h.unique
      · exact h.bracket
      · exact holdStored
      · exact holdSole
  | none =>
      rw [hheader, if_pos rfl, List.singleton_append] at hassigned
      refine ⟨?_, ?_, ?_, ?_⟩ <;> rw [hassigned]
      · refine List.nodup_cons.mpr ⟨fun hmem => ?_, h.unique⟩
        obtain ⟨a, ha, hid⟩ := List.mem_map.mp hmem
        have hdiffers := hfresh a ha
        rw [hid] at hdiffers
        cases hdiffers.symm.trans (beq_self_eq_true _)
      · refine List.forall_mem_cons.mpr ⟨assignedId_of_none hheader, h.bracket⟩
      · refine List.forall_mem_cons.mpr ⟨⟨?_, rfl⟩, holdStored⟩
        obtain ⟨name, hname, hcarried⟩ := htakes.2.2
        rw [hsession] at hcarried
        rw [hcorpus]
        exact Corpus.stores_inject_self hname hcarried
      · refine List.forall_mem_cons.mpr ⟨fun other hother hsame => ?_, holdSole⟩
        rw [hcorpus] at hother
        rcases Corpus.of_stores_inject hother with hother | rfl
        · cases (newTo_iff.mp (hnew hheader) other hother).symm.trans hsame
        · rfl

theorem Kept.step (h : Kept server) (hok : KeepsApart server a) (hstep : step server a = some after) :
    Kept after := by
  cases a with
  | connect encrypted =>
      cases hstep
      exact h.of_same rfl rfl
  | line i octets =>
      simp only [step] at hstep
      split at hstep
      · next state hget =>
          cases hstep
          exact h.of_same (Session.handle_corpus (server.session state) octets) rfl
      · cases hstep
  | upgraded i =>
      simp only [step] at hstep
      split at hstep
      · cases hstep
        exact h.of_same rfl rfl
      · cases hstep
  | article i lines =>
      simp only [step] at hstep
      split at hstep
      · next state hget =>
          cases hstep
          have hwrite := Session.sameSelection_write ((server.session state).acceptArticle lines).1
            ((server.session state).acceptArticle lines).2
          rcases Session.acceptArticle_cases (server.session state) lines with ⟨_, text, heq⟩ | ⟨htakes, heq⟩
          · refine h.of_same (hwrite.corpus.trans ?_) ?_
            · rw [heq]
              rfl
            · show assignedBy (server.session state) lines ++ server.assigned = server.assigned
              unfold assignedBy
              rw [if_neg (by rw [heq]; exact fun h => absurd h.2 (by decide : ¬ (441 : Nat) = 240))]
              rfl
          · obtain ⟨hnew, hown, hroom⟩ := hok _ hget rfl htakes
            refine h.file rfl htakes hnew hown hroom (hwrite.corpus.trans ?_) ?_
            · rw [heq]
              rfl
            · show assignedBy (server.session state) lines ++ server.assigned = _
              unfold assignedBy
              rw [heq]
              simp only [and_true]
      · cases hstep

/-- Two clients connect, and each posts an article: the second one at once, or after another command. -/
def twoPosts (first : List Bytes) : List Action :=
  [.connect false, .connect false, .line 0 (asBytes "POST".toList),
    .article 0 (Session.articleTo "misc.test")] ++ first.map (.line 1) ++
    [.line 1 (asBytes "POST".toList), .article 1 (Session.articleTo "misc.test")]

end Server

end Nntp.TestServer
