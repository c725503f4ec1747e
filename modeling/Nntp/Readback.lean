import Nntp.Injection
import Nntp.Posting
import Nntp.Retrieval
import Nntp.TestServer.Identity

/-!
# An article on its way round

A client posts a draft, selects a group that the article was addressed to and fetches the newest article there: it is
handed the draft that was written, field by field and line by line.
-/

namespace Nntp

open Nntp.Lib Nntp.Proto Nntp.Client Nntp.TestServer

/-! ## Filed last -/

section Filing

variable {group : TestServer.Group} {article : TestServer.Article}

/-- While there are numbers left, an article is filed behind all others. -/
theorem entries_file_last (hroom : group.high.getD 0 < u64Max) :
    (Group.file article group).articles.entries = group.articles.entries ++ [(group.nextNumber, article)] :=
  ArticleMap.insertEntry_above fun entry hentry =>
    Group.lt_nextNumber_of_high hroom entry.1 (List.mem_map_of_mem hentry)

/-- The article of a group that comes last is found under its number, which is the highest. -/
theorem last_found {front : List (UInt64 × TestServer.Article)} {number : UInt64}
    (h : group.articles.entries = front ++ [(number, article)]) :
    group.high = some number ∧ group.articleByNumber number = some article := by
  have hsorted := group.articles.sorted
  rw [h, List.pairwise_append] at hsorted
  refine ⟨by simp [Group.high, ArticleMap.keys, h], ?_⟩
  have hfront : front.find? (fun entry => entry.1 == number) = none := by
    refine List.find?_eq_none.mpr fun entry hentry => ?_
    simpa using ne_of_lt (hsorted.2.2 entry hentry _ (List.mem_singleton_self _))
  simp [Group.articleByNumber, ArticleMap.get, h, List.find?_append, hfront]

/-- **An article that is filed comes last**, as often as it is filed while there are numbers left. -/
theorem iterate_file_last {n : Nat} (hn : 0 < n) (hroom : (group.high.getD 0).toNat + n ≤ u64Max.toNat) :
    ∃ front number, ((Group.file article)^[n] group).articles.entries = front ++ [(number, article)] ∧
      number.toNat = (group.high.getD 0).toNat + n := by
  induction n generalizing group with
  | zero => exact absurd hn (lt_irrefl 0)
  | succ n ih =>
      have hlast : group.high.getD 0 < u64Max := by
        rw [UInt64.lt_iff_toNat_lt]
        omega
      have hnext : group.nextNumber.toNat = (group.high.getD 0).toNat + 1 := by
        have hmax : u64Max.toNat = 18446744073709551615 := rfl
        have hone : (1 : UInt64).toNat = 1 := rfl
        rw [Group.nextNumber_eq, UInt64.toNat_add]
        omega
      have hentries := @entries_file_last group article hlast
      cases n with
      | zero => exact ⟨_, _, hentries, hnext⟩
      | succ n =>
          have hhigh := (last_found hentries).1
          obtain ⟨front, number, hafter, hnumber⟩ := @ih (Group.file article group) (Nat.succ_pos n)
            (by rw [hhigh, Option.getD_some, hnext]; omega)
          rw [hhigh, Option.getD_some, hnext] at hnumber
          exact ⟨front, number, hafter, by omega⟩

/-- A group with an article that was posted to it. -/
def received (session : Session) (lines : List Bytes) (group : TestServer.Group) : TestServer.Group :=
  (Group.file (session.storedAs { lines }))^[(PostedArticle.newsgroups { lines }).count group.name] group

theorem received_name (session : Session) (lines : List Bytes) (group : TestServer.Group) :
    (received session lines group).name = group.name := by
  have hiterate : ∀ (n : Nat) (group : TestServer.Group),
      ((Group.file (session.storedAs { lines }))^[n] group).name = group.name := by
    intro n
    induction n with
    | zero => exact fun group => rfl
    | succ n ih => exact fun group => ih _
  exact hiterate _ group

/-- **What is found behind a posting**: a group has the article as often as it is named. -/
theorem find_received {session : Session} {lines : List Bytes} (htakes : session.Takes { lines }) {name : Str}
    (hfind : session.corpus.find name = some group) :
    (session.acceptArticle lines).1.corpus.find name = some (received session lines group) := by
  rcases session.acceptArticle_cases lines with ⟨hno, -⟩ | ⟨-, heq⟩
  · exact absurd htakes hno
  · rw [heq]
    dsimp only
    obtain ⟨k, hholds⟩ := Corpus.find_isSome_iff.mp (Option.isSome_of_eq_some hfind)
    obtain ⟨found, hget, rfl, hfound⟩ := hholds.getElem?
    cases hfind.symm.trans hfound
    have hafter := Corpus.inject_getElem? (session.storedAs { lines }) (PostedArticle.newsgroups { lines })
      session.corpus
    -- the names stay where they are, so the group is still the one that is found
    have hnames : (Corpus.inject (session.storedAs { lines }) (PostedArticle.newsgroups { lines })
        session.corpus).1.groups.map (·.name) = session.corpus.groups.map (·.name) := by
      refine List.ext_getElem? fun j => ?_
      rw [List.getElem?_map, List.getElem?_map, hafter j]
      cases session.corpus.groups[j]? with
      | none => rfl
      | some other =>
          simp only [Option.map_some, Option.some.injEq]
          split
          · exact received_name session lines other
          · rfl
    obtain ⟨after, hget', -, hfind'⟩ := ((Corpus.holds_congr hnames).mpr hholds).getElem?
    have hthere := hafter k
    rw [hget, Option.map_some, if_pos hholds] at hthere
    rw [hget'] at hthere
    cases hthere
    exact hfind'

end Filing

/-! ## The lines of the article -/

section Lines

variable {base64 : Bytes → Str} {text : Str} {lines : List Bytes}

/-- **The lines of a draft are whole**: there is no line break in any of them. -/
theorem toLines_oneLine (hbase64 : ∀ bytes, ∀ c ∈ base64 bytes, isBase64 c = true)
    (h : (Draft.parse text).toLines base64 = .ok lines) : ∀ line ∈ lines, (0x0D : UInt8) ∉ line ∧ (0x0A : UInt8) ∉ line := by
  obtain ⟨hclean, hcr⟩ := Draft.parse_clean text
  generalize Draft.parse text = d at h hclean hcr
  obtain ⟨hproblems, rfl⟩ := Draft.toLines_eq hcr h
  have hnames := (Draft.isHeaderName_of_problems hproblems).1
  have hfield : ∀ {name value : Str}, isHeaderName name = true → FieldText value →
      (0x0D : UInt8) ∉ fieldLine name value ∧ (0x0A : UInt8) ∉ fieldLine name value := by
    intro name value hname htext
    have hgraphic := (isHeaderName_spec hname).2
    refine (Draft.asBytes_oneLine_iff _).mpr ⟨?_, ?_⟩
    · simp only [List.mem_append, not_or]
      exact ⟨⟨fun hmem => absurd (hgraphic _ hmem).1 (by decide), by decide⟩, htext.noCr⟩
    · simp only [List.mem_append, not_or]
      exact ⟨⟨fun hmem => absurd (hgraphic _ hmem).1 (by decide), by decide⟩, htext.noLf⟩
  intro line hline
  rcases List.mem_append.mp hline with hline | hline
  · rcases List.mem_append.mp hline with hline | hline
    · obtain ⟨field, hmem, rfl⟩ := List.mem_map.mp hline
      have hname := hnames field hmem
      obtain ⟨htrim, hlf, hcr⟩ := hclean field hmem (isHeaderName_spec hname).1
      exact hfield hname (encodeHeaderValue_fieldText hbase64 hlf hcr htrim)
    · obtain ⟨field, hmem, rfl⟩ := List.mem_map.mp hline
      obtain ⟨hname, htext⟩ := Draft.mimeFields_plain hmem
      exact hfield hname htext
  · rcases List.mem_cons.mp hline with rfl | hline
    · exact ⟨List.not_mem_nil, List.not_mem_nil⟩
    · obtain ⟨piece, hpiece, rfl⟩ := List.mem_map.mp ((List.rdropWhile_prefix _ _).subset hline)
      refine (Draft.asBytes_oneLine_iff _).mpr ⟨fun hmem => ?_, fun hmem => ?_⟩
      · exact hcr (splitAll_subset hpiece _ hmem).1
      · exact absurd (splitAll_subset hpiece _ hmem).2 (by decide)

/-- The head and the body of an article stand around its first empty line, for the server as for the client. -/
theorem splitHeadBody_posted (lines : List Bytes) :
    DataBlock.splitHeadBody lines = (PostedArticle.head { lines }, PostedArticle.body { lines }) := by
  unfold PostedArticle.head PostedArticle.body
  dsimp only
  cases hrest : lines.dropWhile fun line => !line.isEmpty with
  | nil =>
      have hfilled : ∀ line ∈ lines, line.isEmpty = false := by
        simpa using List.dropWhile_eq_nil_iff.mp hrest
      have hnone : lines.findIdx? List.isEmpty = none := List.findIdx?_eq_none_iff.mpr hfilled
      have hall : lines.takeWhile (fun line => !line.isEmpty) = lines :=
        List.takeWhile_eq_self_iff.mpr fun line hline => by rw [hfilled line hline]; rfl
      simp [DataBlock.splitHeadBody, hnone, hall]
  | cons first rest =>
      have hempty : first = [] := by
        have hhead := List.head?_dropWhile_not (fun line : Bytes => !line.isEmpty) lines
        rw [hrest] at hhead
        simpa using hhead
      have hfilled : ∀ line ∈ lines.takeWhile (fun line => !line.isEmpty), line ≠ [] := fun line hline => by
        simpa using List.mem_takeWhile_imp hline
      have hwhole : lines = lines.takeWhile (fun line => !line.isEmpty) ++ [] :: rest := by
        have hjoined : lines.takeWhile (fun line => !line.isEmpty) ++ lines.dropWhile (fun line => !line.isEmpty) =
            lines := List.takeWhile_append_dropWhile
        conv_lhs => rw [← hjoined, hrest, hempty]
      conv_lhs => rw [hwhole]
      rw [splitHeadBody_append hfilled]
      rfl

end Lines

/-! ## Posting -/

section Posting

variable {limits : Limits} {config : ServerConfig} {c c' : Client Loop} {base64 : Bytes → Str}
variable {text announced : Str} {lines : List Bytes}

/-- A server that asks for the article has nothing against the client. -/
theorem answerTo_post {session after : Session} {reply : Reply} {flow : Flow}
    (h : answerTo session .post = (after, reply, flow)) (hcode : reply.code = 340) :
    session.needsAuth = false ∧ after = counted session ∧ flow = .readArticle := by
  have hwords : StatusLine.splitAsciiWhitespace Command.post.line = Verb.post.name.toList :: [] := by decide
  cases hauth : session.needsAuth with
  | true =>
      have hcounted : (counted session).needsAuth = true := hauth
      rw [answerTo, answer_words hwords, hcounted] at h
      cases h
      cases hcode
  | false =>
      rw [answerTo_words hauth hwords] at h
      have h : (counted session, (counted session).post) = (after, reply, flow) := h
      unfold Session.post at h
      split at h
      · cases h
        cases hcode
      · cases h
        exact ⟨rfl, rfl, rfl⟩

/-- A draft is posted by way of a `POST` that is answered 340 and an article that is answered 240. -/
theorem post_ok (hlines : (Draft.parse text).toLines base64 = .ok lines)
    (hposted : (Client.post base64 (Draft.parse text)).exec c = (.ok announced, c')) :
    ∃ line mid answer, (Client.command .post).exec c = (.ok line, mid) ∧ line.code = 340 ∧
      (Client.sendArticle lines).exec mid = (.ok answer, c') ∧ answer.code = 240 := by
  unfold Client.post at hposted
  rw [Fallible.exec_bind_ok (Fallible.exec_get c)] at hposted
  cases hallowed : c.checkCanPost with
  | error e =>
      rw [hallowed] at hposted
      cases hposted
  | ok allowed =>
      rw [hallowed, hlines] at hposted
      rcases Fallible.exec_bind_cases (x := Client.command .post) hposted with ⟨line, mid, hexec, hrest⟩ | ⟨_, -, hlost⟩
      · by_cases hcode : line.code = 340
        · rw [if_pos hcode] at hrest
          rcases Fallible.exec_bind_cases hrest with ⟨answer, last, hsent, htaken⟩ | ⟨_, -, hlost⟩
          · by_cases hanswer : answer.code = 240
            · rw [if_pos hanswer] at htaken
              cases htaken
              exact ⟨line, mid, answer, hexec, hcode, hsent, hanswer⟩
            · rw [if_neg hanswer] at htaken
              split_ifs at htaken <;> cases htaken
          · cases hlost
        · rw [if_neg hcode] at hrest
          split_ifs at hrest <;> cases hrest
      · cases hlost

/-- **A draft that the server took is filed**, and both ends are at rest. -/
theorem InStep.posted (h : InStep limits config c) (hbase64 : ∀ bytes, ∀ c ∈ base64 bytes, isBase64 c = true)
    (hlines : (Draft.parse text).toLines base64 = .ok lines)
    (hposted : (Client.post base64 (Draft.parse text)).exec c = (.ok announced, c')) (hfits : Fits limits config c') :
    (counted c.connection.stream.session).Takes { lines } ∧
      c'.connection.stream.session = ((counted c.connection.stream.session).acceptArticle lines).1 ∧
      c'.connection.stream.session.needsAuth = false ∧ Level limits config none c' := by
  obtain ⟨line, mid, answer, hcommand, hcode, hsend, hanswer⟩ := post_ok hlines hposted
  have hsent : ∀ line ∈ lines, NoLf line := (Draft.toLines_article hbase64 hlines).1
  have hsendFits : Fits limits config ((Client.sendArticle lines).exec mid).2 := by
    rw [hsend]
    exact hfits
  have hcommandFits : Fits limits config ((Client.command .post).exec c).2 := by
    rw [hcommand]
    exact hsendFits.before (Keeps.sendArticle lines)
  rcases h.command .post hcommandFits with ⟨e, _, hexec, -⟩ |
    ⟨hlevel, line', connection, reply, flow, hexec, hx, hwithin⟩
  · rw [hcommand] at hexec
    cases hexec
  · rw [hcommand] at hexec
    cases hexec
    obtain ⟨hadmitted, hsession, rfl⟩ := answerTo_post hx.answer (hx.code ▸ hcode)
    have hexpecting : Expecting connection.stream :=
      ⟨hlevel.idle.served.of_kept hx.answered.kept, hx.phase, hx.input⟩
    have hnone : reply.block = none :=
      Option.not_isSome_iff_eq_none.mp (by rw [hx.answered.block]; exact Bool.false_ne_true)
    have hquiet : connection.upcoming = [] := by
      rw [hx.owed, hnone]
      rfl
    have hsettings : connection.stream.session.config = config := hx.answered.kept.config.trans hlevel.settings
    have hbounds : connection.limits = limits := hx.limits.trans hlevel.bounds
    unfold Fits at hsendFits
    rw [replied_sendArticle] at hsendFits
    obtain ⟨line', connection', hexec, hcode', hafter, hdelivered⟩ :=
      exec_delivered hx.usable hexpecting hquiet hsent (by rw [hsettings, hbounds]; exact hsendFits)
    rw [exec_sendArticle hexec] at hsend
    cases hsend
    rw [← hsession]
    rcases connection.stream.session.acceptArticle_cases lines with ⟨-, text, hrefused⟩ | ⟨htakes, -⟩
    · rw [hcode', hrefused] at hanswer
      cases hanswer
    · refine ⟨htakes, hafter, ?_, ?_⟩
      · have hcounted : connection.stream.session.needsAuth = false := by
          rw [hsession]
          exact hadmitted
        unfold Session.needsAuth at hcounted ⊢
        rw [hdelivered.accepts.config, hdelivered.accepts.state]
        exact hcounted
      · exact {
          idle := ⟨hdelivered.accepts.served, hdelivered.phase, hdelivered.input⟩
          settings := hdelivered.accepts.config.trans hsettings
          usable := hdelivered.usable
          bounds := hdelivered.limits.trans hbounds
          cancel := (hlevel.cancel.of_eq hx.cancel).of_eq hdelivered.cancel
          upcoming := hdelivered.quiet
          lines := nofun
          within := nofun }

/-- An article that was posted has lines that can be told apart. -/
theorem plain_stored (hbase64 : ∀ bytes, ∀ c ∈ base64 bytes, isBase64 c = true)
    (hlines : (Draft.parse text).toLines base64 = .ok lines) (session : Session) :
    Article.Plain (session.storedAs { lines }) := by
  have hwhole := toLines_oneLine hbase64 hlines
  have hplain : ∀ line ∈ lines, PlainLine line := fun line hline =>
    ⟨(hwhole line hline).2, fun hlast => (hwhole line hline).1 (List.mem_of_getLast? hlast)⟩
  exact {
    id := not_mem_assignedId (Or.inr rfl) session fun line hline => (hwhole line hline).1
    filled := fun line hline => by simpa using List.mem_takeWhile_imp hline
    head := fun line hline => hplain line ((List.takeWhile_prefix _).subset hline)
    body := fun line hline => hplain line ((List.dropWhile_suffix _).subset (List.mem_of_mem_drop hline)) }

/-- **What is posted is there to be read**: in each group that the article is addressed to, the newest article that
the client is then handed has a new number and is the draft, field by field and line by line. -/
theorem posted_then_read (h : InStep limits config c) (hbase64 : ∀ bytes, ∀ c ∈ base64 bytes, isBase64 c = true)
    (hlines : (Draft.parse text).toLines base64 = .ok lines)
    (hposted : (Client.post base64 (Draft.parse text)).exec c = (.ok announced, c')) (hfits : Fits limits config c')
    {name : GroupName} {group : TestServer.Group} (hname : name.asStr ∈ PostedArticle.newsgroups { lines })
    (hfind : c.connection.stream.session.corpus.find name.asStr = some group)
    (hroom : (group.high.getD 0).toNat + (PostedArticle.newsgroups { lines }).count name.asStr ≤ u64Max.toNat)
    (hselection : Reply.Within limits config
      (selectionReply (received (counted c.connection.stream.session) lines group)))
    (harticle : ∀ number ∈ (received (counted c.connection.stream.session) lines group).high,
      Reply.Within limits config
        (Session.articleReply .article number ((counted c.connection.stream.session).storedAs { lines }))) :
    ∃ summary entered article c'', (Client.selectGroup name).exec c' = (.ok summary, entered) ∧
      (Client.article (.number summary.high)).exec entered = (.ok article, c'') ∧
      group.high.getD 0 < summary.high ∧ article.number = some summary.high ∧
      Carries base64 (Draft.parse text) article := by
  obtain ⟨htakes, hsession, hadmitted, hlevel⟩ := h.posted hbase64 hlines hposted hfits
  have hgroup : group.name = name.asStr := (Corpus.mem_of_find hfind).2
  have hfound : c'.connection.stream.session.corpus.find name.asStr =
      some (received (counted c.connection.stream.session) lines group) := by
    rw [hsession]
    exact find_received htakes hfind
  obtain ⟨front, number, hentries, hnumber⟩ :=
    @iterate_file_last group ((counted c.connection.stream.session).storedAs { lines })
      ((PostedArticle.newsgroups { lines }).count group.name)
      (List.count_pos_iff.mpr (hgroup ▸ hname)) (hgroup ▸ hroom)
  have hlast : (received (counted c.connection.stream.session) lines group).articles.entries = _ := hentries
  obtain ⟨hhigh, hstored⟩ := last_found hlast
  obtain ⟨first, rest, hcons⟩ := List.exists_cons_of_ne_nil (List.append_ne_nil_of_right_ne_nil front
    (List.cons_ne_nil (number, (counted c.connection.stream.session).storedAs { lines }) []))
  obtain ⟨summary, entered, hselect, hsummary, hstanding⟩ :=
    hlevel.select hadmitted hfound hselection (hlast.trans hcons)
  have hwatermark : summary.high = number := by
    rw [hsummary]
    simp [Group.watermarks, hhigh, Group.low, ArticleMap.keys, hlast, hcons]
  have habove : group.high.getD 0 < number := by
    have hcount := List.count_pos_iff.mpr (hgroup ▸ hname)
    rw [UInt64.lt_iff_toNat_lt, hnumber]
    omega
  have hnumberOf : numberOf number = some number := by
    have hne : number ≠ 0 := fun hzero => by simp [hzero] at habove
    simp [numberOf, hne]
  obtain ⟨c'', hread, -⟩ := hstanding.reading.wholeArticle
    (show named entered.connection.stream.session _ (.number number) = some (number, _) by
      simp only [named, hstored, Option.map_some])
    (plain_stored hbase64 hlines _) (harticle number hhigh)
  refine ⟨summary, entered, _, c'', hselect, hwatermark ▸ hread, hwatermark ▸ habove, hwatermark ▸ hnumberOf, ?_⟩
  obtain ⟨-, hfields, hmalformed, hbody⟩ := Draft.toLines_article hbase64 hlines
  unfold ReceivedArticle.fromBlock at hfields hmalformed hbody
  rw [splitHeadBody_posted] at hfields hmalformed hbody
  exact ⟨hfields, hmalformed, hbody⟩

end Posting

/-! ### A short article -/

namespace Shelf

/-- What is written in the editor. -/
def written : Str := "From: a@b\nSubject: c\nNewsgroups: misc.test\n\nd\n".toList

/-- What is sent of it. -/
def sent : List Bytes :=
  ["From: a@b", "Subject: c", "Newsgroups: misc.test", "", "d"].map fun line => asBytes line.toList

/-- The group of the small server, which is empty. -/
def emptyTest : TestServer.Group := { name := "misc.test".toList, articles := ⟨[], Session.nothing_sorted⟩ }

/-- The article is taken from a client, and all that is answered is short. -/
def goesThrough (start : Client Loop) : Bool :=
  let session := counted start.connection.stream.session
  let posted := (Client.post (fun _ => []) (Draft.parse written)).exec start
  let group := received session sent emptyTest
  posted.1.toBool && posted.2.connection.stream.replied.all Lockstep.isShort &&
    decide (start.connection.stream.session.corpus.find Client.miscTest.asStr = some emptyTest) &&
    decide (Reply.Within .default {} (selectionReply group)) && decide (group.high = some 1) &&
    decide (Reply.Within .default {} (Session.articleReply .article 1 (session.storedAs { lines := sent })))

/-- The short article is posted. -/
theorem written_posted : ∃ start announced posted,
    Client.withOptions (accepted Session.withMiscTest.corpus {} .default) true = .ok start ∧
    (Draft.parse written).toLines (fun _ => []) = .ok sent ∧
    (Client.post (fun _ => []) (Draft.parse written)).exec start = (.ok announced, posted) ∧
    InStep .default {} start ∧ Fits .default {} posted ∧ goesThrough start = true := by
  have hlines : ((Draft.parse written).toLines fun _ => []).toOption = some sent := by decide +kernel
  have hchecked : (Client.withOptions (accepted Session.withMiscTest.corpus {} .default) true).toOption.map
      goesThrough = some true := by
    decide +kernel
  cases hsent : (Draft.parse written).toLines fun _ => [] with
  | error e =>
      rw [hsent] at hlines
      cases hlines
  | ok lines =>
      rw [hsent] at hlines
      cases hlines
      cases hstart : Client.withOptions (accepted Session.withMiscTest.corpus {} .default) true with
      | error e =>
          rw [hstart] at hchecked
          cases hchecked
      | ok start =>
          rw [hstart] at hchecked
          have hgoes : goesThrough start = true := Option.some.inj hchecked
          have hparts := hgoes
          simp only [goesThrough, Bool.and_eq_true, List.all_eq_true] at hparts
          obtain ⟨⟨⟨⟨⟨hposted, hshort⟩, -⟩, -⟩, -⟩, -⟩ := hparts
          rcases hexec : (Client.post (fun _ => []) (Draft.parse written)).exec start with ⟨e | announced, posted⟩
          · rw [hexec] at hposted
            cases hposted
          · rw [hexec] at hshort
            exact ⟨start, announced, posted, rfl, rfl, hexec,
              inStep_withOptions Lockstep.withMiscTest_unbroken Lockstep.steady_default hstart,
              fun reply hreply => Lockstep.within_of_isShort (hshort reply hreply), hgoes⟩

/-- **The short article** comes back with the number 1. -/
theorem posted_then_read_short : ∃ start announced posted entered summary article c,
    Client.withOptions (accepted Session.withMiscTest.corpus {} .default) true = .ok start ∧
    (Client.post (fun _ => []) (Draft.parse written)).exec start = (.ok announced, posted) ∧
    (Client.selectGroup Client.miscTest).exec posted = (.ok summary, entered) ∧
    (Client.article (.number summary.high)).exec entered = (.ok article, c) ∧
    Carries (fun _ => []) (Draft.parse written) article := by
  obtain ⟨start, announced, posted, hstart, hsent, hexec, hinStep, hfits, hgoes⟩ := written_posted
  simp only [goesThrough, Bool.and_eq_true, decide_eq_true_eq] at hgoes
  obtain ⟨⟨⟨⟨-, hfind⟩, hselection⟩, hhigh⟩, harticle⟩ := hgoes
  obtain ⟨summary, entered, article, c, hselect, hread, -, -, hcarries⟩ :=
    posted_then_read hinStep (fun _ _ hmem => absurd hmem List.not_mem_nil) hsent hexec hfits (by decide +kernel) hfind
      (by decide +kernel) hselection fun number hnumber => by
        rw [hhigh] at hnumber
        cases hnumber
        exact harticle
  exact ⟨start, announced, posted, entered, summary, article, c, hstart, hexec, hselect, hread, hcarries⟩

end Shelf

end Nntp
