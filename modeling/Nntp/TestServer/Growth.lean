import Mathlib.Data.List.Forall2
import Nntp.TestServer.Identity
import Nntp.TestServer.Strangers

/-!
# What a server was sent, and what it holds

`accept_article` and `inject` over whole runs: any number of sessions take turns, and in the end a group has what it
had at the start and, behind it, the accepted articles that name it, in the order in which they were accepted and
under the numbers that come next.
-/

namespace Nntp.TestServer

open Nntp.Lib Nntp.Proto

/-! ## A group that articles were filed in -/

namespace Group

variable {group mid after : Group} {article : Article} {articles more : List Article}

/-- The articles stand behind all others, under the numbers that come next. -/
structure Filled (group : Group) (articles : List Article) (after : Group) : Prop where
  same : after = { group with articles := after.articles }
  entries : ∃ new, after.articles.entries = group.articles.entries ++ new ∧
    new.map (fun entry => (entry.1.toNat, entry.2)) =
      articles.mapIdx fun i article => ((group.high.getD 0).toNat + 1 + i, article)

theorem Filled.refl (group : Group) : Filled group [] group := ⟨rfl, [], (List.append_nil _).symm, rfl⟩

theorem Filled.name (h : Filled group articles after) : after.name = group.name := by
  rw [h.same]

/-- The last number is as far up as there are articles. -/
theorem Filled.high (h : Filled group articles after) :
    (after.high.getD 0).toNat = (group.high.getD 0).toNat + articles.length := by
  obtain ⟨new, hentries, hnew⟩ := h.entries
  rcases List.eq_nil_or_concat articles with rfl | ⟨front, article, rfl⟩
  · obtain rfl := List.map_eq_nil_iff.mp hnew
    unfold Group.high ArticleMap.keys
    rw [hentries, List.append_nil]
    rfl
  · rw [List.concat_eq_append, List.mapIdx_append, List.mapIdx_singleton] at hnew
    obtain ⟨_, last, rfl, -, hlast⟩ := List.map_eq_append_iff.mp hnew
    obtain ⟨entry, rfl, hentry⟩ := List.map_eq_singleton_iff.mp hlast
    have hnumber : entry.1.toNat = (group.high.getD 0).toNat + 1 + (0 + front.length) := congrArg Prod.fst hentry
    unfold Group.high ArticleMap.keys at hnumber ⊢
    rw [hentries, List.map_append, List.map_append, List.map_singleton, ← List.append_assoc, List.getLast?_concat,
      Option.getD_some, hnumber, List.concat_eq_append, List.length_append, List.length_singleton]
    omega

theorem Filled.trans (h : Filled group articles mid) (h' : Filled mid more after) :
    Filled group (articles ++ more) after := by
  obtain ⟨new, hentries, hnew⟩ := h.entries
  obtain ⟨new', hentries', hnew'⟩ := h'.entries
  refine ⟨?_, new ++ new', ?_, ?_⟩
  · rw [h'.same, h.same]
  · rw [hentries', hentries, List.append_assoc]
  · rw [List.map_append, hnew, hnew', List.mapIdx_append, h.high]
    congr 2
    funext i article
    rw [Nat.add_right_comm _ articles.length 1, Nat.add_assoc _ articles.length i, Nat.add_comm articles.length i]

/-- One article. -/
theorem filled_file (h : (group.high.getD 0).toNat < u64Max.toNat) : Filled group [article] (group.file article) := by
  have hhigh : group.high.getD 0 < u64Max := UInt64.lt_iff_toNat_lt.mpr h
  have habove := lt_nextNumber_of_high hhigh
  refine ⟨rfl, [(group.nextNumber, article)], ?_, ?_⟩
  · exact ArticleMap.insertEntry_above fun entry hentry => habove entry.1 (List.mem_map_of_mem hentry)
  · have hnumber : group.nextNumber.toNat = (group.high.getD 0).toNat + 1 := by
      have hmax : u64Max.toNat = 18446744073709551615 := rfl
      rw [nextNumber_eq, UInt64.toNat_add]
      have hone : (1 : UInt64).toNat = 1 := rfl
      omega
    rw [List.map_singleton, List.mapIdx_singleton, hnumber]

/-- One article, as often as there is room for it. -/
theorem filled_iterate (n : Nat) (h : (group.high.getD 0).toNat + n ≤ u64Max.toNat) :
    Filled group (List.replicate n article) ((file article)^[n] group) := by
  induction n with
  | zero => exact .refl group
  | succ n ih =>
      have hbelow := ih (by omega)
      rw [List.replicate_succ', Function.iterate_succ_apply']
      refine hbelow.trans (filled_file ?_)
      rw [hbelow.high, List.length_replicate]
      omega

end Group

/-! ## A corpus that articles were filed in -/

/-- What is stored of a posted article: its header lines and its body, under its own id if it has one. -/
structure PostedArticle.Becomes (posted : PostedArticle) (article : Article) : Prop where
  head : article.head = posted.head
  body : article.body = posted.body
  messageId : ∀ id ∈ posted.header "Message-ID", article.messageId = id

namespace Corpus

variable {corpus now : Corpus} {article : Article} {posted : PostedArticle} {postbox : List PostedArticle}

/-- The articles for the group at a position, each as often as it names the group. -/
def filedAt (corpus : Corpus) (k : Nat) (name : Str) (postbox : List PostedArticle) : List PostedArticle :=
  if corpus.Holds name k then postbox.flatMap fun posted => List.replicate (posted.newsgroups.count name) posted else []

/-- **Every group has what it had, and behind it what was accepted for it**, as long as there are numbers. -/
structure Grown (corpus : Corpus) (postbox : List PostedArticle) (now : Corpus) : Prop where
  names : now.groups.map (·.name) = corpus.groups.map (·.name)
  filled : ∀ k group, corpus.groups[k]? = some group →
    (group.high.getD 0).toNat + (corpus.filedAt k group.name postbox).length ≤ u64Max.toNat →
    ∃ after articles, now.groups[k]? = some after ∧ group.Filled articles after ∧
      List.Forall₂ PostedArticle.Becomes (corpus.filedAt k group.name postbox) articles

theorem Grown.refl (corpus : Corpus) : Grown corpus [] corpus where
  names := rfl
  filled := by
    intro k group hget _
    have hnone : corpus.filedAt k group.name [] = [] := ite_self _
    rw [hnone]
    exact ⟨group, [], hget, .refl group, .nil⟩

theorem names_inject (article : Article) (names : List Str) (corpus : Corpus) :
    (inject article names corpus).1.groups.map (·.name) = corpus.groups.map (·.name) := by
  have hname : ∀ (n : Nat) (group : Group), ((Group.file article)^[n] group).name = group.name := by
    intro n group
    induction n with
    | zero => rfl
    | succ n ih =>
        rw [Function.iterate_succ_apply']
        exact ih
  apply List.ext_getElem?
  intro k
  rw [List.getElem?_map, List.getElem?_map, inject_getElem?, Option.map_map]
  congr 1
  funext group
  show (if _ then _ else group : Group).name = group.name
  split
  · exact hname _ group
  · rfl

theorem filedAt_concat (k : Nat) (name : Str) : corpus.filedAt k name (postbox ++ [posted]) =
    corpus.filedAt k name postbox ++
      if corpus.Holds name k then List.replicate (posted.newsgroups.count name) posted else [] := by
  unfold filedAt
  split
  · rw [List.flatMap_append, List.flatMap_singleton]
  · rfl

theorem becomes_replicate (h : posted.Becomes article) (n : Nat) :
    List.Forall₂ PostedArticle.Becomes (List.replicate n posted) (List.replicate n article) := by
  induction n with
  | zero => exact .nil
  | succ n ih => exact .cons h ih

/-- **One more article is accepted.** -/
theorem Grown.inject (h : Grown corpus postbox now) (hbecomes : posted.Becomes article) :
    Grown corpus (postbox ++ [posted]) (inject article posted.newsgroups now).1 where
  names := (names_inject ..).trans h.names
  filled := by
    intro k group hget hroom
    rw [filedAt_concat] at hroom ⊢
    rw [List.length_append] at hroom
    obtain ⟨mid, articles, hmid, hfilled, hbecame⟩ := h.filled k group hget (by omega)
    have hholds : now.Holds mid.name k ↔ corpus.Holds group.name k := by
      rw [hfilled.name]
      exact holds_congr h.names
    have hafter := inject_getElem? article posted.newsgroups now k
    rw [hmid, Option.map_some, hfilled.name] at hafter
    rw [hfilled.name] at hholds
    by_cases hheld : corpus.Holds group.name k
    · rw [if_pos hheld, List.length_replicate] at hroom
      rw [if_pos (hholds.mpr hheld)] at hafter
      rw [if_pos hheld]
      refine ⟨_, _, hafter, hfilled.trans (Group.filled_iterate _ ?_), ?_⟩
      · rw [hfilled.high, ← hbecame.length_eq]
        omega
      · exact List.rel_append hbecame (becomes_replicate hbecomes _)
    · rw [if_neg (mt hholds.mp hheld)] at hafter
      rw [if_neg hheld, List.append_nil]
      exact ⟨mid, articles, hafter, hfilled, hbecame⟩

end Corpus

/-! ## One session -/

namespace Session

variable {session : Session}

theorem untouched_fetch (session : Session) (verb : Verb) (args : List Str) :
    Untouched session (session.fetch verb args).1 := by
  unfold fetch
  split
  · exact .refl session
  · exact .refl session
  · dsimp only
    split <;> exact ⟨rfl, rfl⟩

theorem untouched_step (session : Session) (verb : Verb) : Untouched session (session.step verb).1 := by
  unfold step
  split
  · exact .refl session
  · split
    · exact .refl session
    · dsimp only
      generalize (if verb = .next then _ else _ : Option (UInt64 × Article)) = next
      cases next <;> exact ⟨rfl, rfl⟩

/-- No command changes what the server keeps. -/
theorem untouched_command (session : Session) (verb : Verb) (args : List Str) :
    Untouched session (session.perform verb args).1 := by
  cases verb with
  | mode => exact (untouched_perform rfl args).1
  | authinfo => exact (untouched_perform rfl args).1
  | group =>
      show Untouched session (session.group args).1
      unfold group
      split
      · exact .refl session
      · split <;> exact ⟨rfl, rfl⟩
  | listgroup =>
      show Untouched session (session.listgroup args).1
      unfold listgroup
      split
      · exact .refl session
      · split <;> exact ⟨rfl, rfl⟩
  | article => exact untouched_fetch session .article args
  | head => exact untouched_fetch session .head args
  | body => exact untouched_fetch session .body args
  | stat => exact untouched_fetch session .stat args
  | next => exact untouched_step session .next
  | last => exact untouched_step session .last
  | _ => exact .refl session

/-- No line changes what the server keeps. -/
theorem untouched_line (session : Session) (line : Bytes) : Untouched session (session.handle line).1 := by
  rw [handle_eq]
  refine Untouched.trans ?_ (untouched_written _)
  rcases session.dispatch_cases line with ⟨verb, args, heq⟩ | ⟨reply, heq⟩ | heq <;> rw [heq]
  · obtain ⟨hcorpus, hpostbox⟩ := untouched_command session.counted verb args
    exact ⟨hcorpus, hpostbox⟩
  · exact ⟨rfl, rfl⟩
  · exact ⟨rfl, rfl⟩

theorem becomes_storedAs (session : Session) (posted : PostedArticle) : posted.Becomes (session.storedAs posted) where
  head := rfl
  body := rfl
  messageId := by
    intro id hid
    show (posted.header "Message-ID").getD _ = id
    rw [Option.mem_def.mp hid, Option.getD_some]

end Session

/-! ## Runs -/

namespace Server

variable {server after : Server} {a : Action} {corpus : Corpus} {postbox : List PostedArticle}

/-- The article of an action, if it is answered with `240`. -/
def acceptedBy (server : Server) : Action → List PostedArticle
  | .article i lines =>
      match server.connections[i]? with
      | some { state, flow := .readArticle } =>
          if ((server.session state).acceptArticle lines).2.code = 240 then [{ lines }] else []
      | _ => []
  | _ => []

/-- The articles of a run that are answered with `240`, in the order of the answers. -/
def acceptedIn : Server → List Action → List PostedArticle
  | _, [] => []
  | server, a :: actions =>
      server.acceptedBy a ++ ((step server a).map fun after => after.acceptedIn actions).getD []

/-- **What a step does to what is kept**: nothing, or it files the article that it accepts. -/
theorem step_keeps (hstep : step server a = some after) :
    (server.acceptedBy a = [] ∧ after.corpus = server.corpus ∧ after.postbox = server.postbox) ∨
      ∃ posted article, posted.Becomes article ∧ server.acceptedBy a = [posted] ∧
        after.corpus = (Corpus.inject article posted.newsgroups server.corpus).1 ∧
        after.postbox = server.postbox ++ [posted] := by
  cases a with
  | connect encrypted =>
      cases hstep
      exact Or.inl ⟨rfl, rfl, rfl⟩
  | line i octets =>
      simp only [step] at hstep
      split at hstep
      · next state hget =>
          cases hstep
          obtain ⟨hcorpus, hpostbox⟩ := (server.session state).untouched_line octets
          exact Or.inl ⟨rfl, hcorpus, congrArg (Option.getD · []) hpostbox⟩
      · cases hstep
  | upgraded i =>
      simp only [step] at hstep
      split at hstep
      · cases hstep
        exact Or.inl ⟨rfl, rfl, rfl⟩
      · cases hstep
  | article i lines =>
      simp only [step] at hstep
      split at hstep
      · next state hget =>
          cases hstep
          have hwrite : Untouched ((server.session state).acceptArticle lines).1
              (((server.session state).acceptArticle lines).1.write
                ((server.session state).acceptArticle lines).2).1 :=
            Session.untouched_written (some _)
          have hby : server.acceptedBy (.article i lines) =
              if ((server.session state).acceptArticle lines).2.code = 240 then [{ lines }] else [] := by
            simp only [acceptedBy, hget]
          rw [hby]
          rcases Session.acceptArticle_cases (server.session state) lines with ⟨-, text, heq⟩ | ⟨-, heq⟩
          · rw [heq] at hwrite ⊢
            exact Or.inl ⟨rfl, hwrite.corpus, congrArg (Option.getD · []) hwrite.postbox⟩
          · rw [heq] at hwrite ⊢
            exact Or.inr ⟨{ lines }, _, (server.session state).becomes_storedAs { lines }, rfl, hwrite.corpus,
              congrArg (Option.getD · []) hwrite.postbox⟩
      · cases hstep

/-- **A run**: the postbox grows by what is accepted, and the groups with it. -/
theorem run_keeps {actions : List Action} (hgrown : corpus.Grown server.postbox server.corpus)
    (hrun : run step server actions = some after) :
    after.postbox = server.postbox ++ server.acceptedIn actions ∧ corpus.Grown after.postbox after.corpus := by
  induction actions generalizing server with
  | nil =>
      cases hrun
      exact ⟨(List.append_nil _).symm, hgrown⟩
  | cons a actions ih =>
      obtain ⟨mid, hstep, hrest⟩ := run_cons step hrun
      have hin : server.acceptedIn (a :: actions) = server.acceptedBy a ++ mid.acceptedIn actions := by
        rw [acceptedIn, hstep]
        rfl
      rw [hin]
      rcases step_keeps hstep with ⟨hby, hcorpus, hpostbox⟩ | ⟨posted, article, hbecomes, hby, hcorpus, hpostbox⟩
      · obtain ⟨hafter, hgrew⟩ := ih (by rw [hcorpus, hpostbox]; exact hgrown) hrest
        refine ⟨?_, hgrew⟩
        rw [hafter, hpostbox, hby, List.nil_append]
      · obtain ⟨hafter, hgrew⟩ := ih (by rw [hcorpus, hpostbox]; exact hgrown.inject hbecomes) hrest
        refine ⟨?_, hgrew⟩
        rw [hafter, hpostbox, hby, List.append_assoc]

/-- Two sessions post, and one of the articles names the group twice and a group that is not carried. -/
def interleaved : List Action :=
  [.connect false, .connect false, .line 1 (asBytes "POST".toList), .line 0 (asBytes "POST".toList),
    .article 0 (Session.articleTo "misc.test,alt.none,misc.test"), .article 1 (Session.articleTo "misc.test"),
    .line 0 (asBytes "POST".toList), .article 0 (Session.articleTo "alt.none")]

end Server

end Nntp.TestServer
