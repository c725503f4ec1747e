import Nntp.Lockstep
import Nntp.TestServer.Numbering

/-!
# Whole conversations

Every operation of the client against the session, those that select a group, log in and post included: what is in
step before it is in step after it. A conversation is a client that has just connected, and any operations.
-/

namespace Nntp

open Nntp.Lib Nntp.Proto Nntp.Client Nntp.TestServer

/-- Both ends are at rest, with the same group selected. -/
structure InStep (limits : Limits) (config : ServerConfig) (c : Client Loop) : Prop where
  settled : Settled limits config c
  agrees : Agrees c

section Operations

variable {limits : Limits} {config : ServerConfig} {c c' : Client Loop}

theorem Calm.inStep (h : Calm limits config c c') (hc : InStep limits config c) : InStep limits config c' :=
  ⟨h.settled, h.agrees hc.agrees⟩

/-! ## Selecting a group -/

/-- The words of a selection. -/
theorem words_selectionText {group : Group} (h : group.Unbroken) :
    StatusLine.splitAsciiWhitespace (Session.selectionText group group.name) =
      [display group.articles.len.toNat, display group.watermarks.1.toNat, display group.watermarks.2.toNat,
        group.name] := by
  obtain ⟨hne, hname⟩ := isAsciiGraphic_of_wellFormed h.name
  have hnumber : ∀ (n : Nat) (rest : Str), StatusLine.splitAsciiWhitespace (display n ++ ' ' :: rest) =
      display n :: StatusLine.splitAsciiWhitespace rest := by
    intro n rest
    rw [splitAsciiWhitespace_word (display_spec n).1 (isAsciiGraphic_display n) (by simp),
      splitAsciiWhitespace_blank]
  have htext : Session.selectionText group group.name = display group.articles.len.toNat ++ ' ' ::
      (display group.watermarks.1.toNat ++ ' ' :: (display group.watermarks.2.toNat ++ ' ' :: (group.name ++ []))) := by
    unfold Session.selectionText
    simp [joinWith]
  rw [htext, hnumber, hnumber, hnumber, splitAsciiWhitespace_word hne hname (by simp)]
  rfl

theorem argU64_display {line : StatusLine} {n : Nat} {m : UInt64} (h : line.args[n]? = some (display m.toNat))
    (context field : String) : line.argU64 n context field = .ok m := by
  have harg : line.arg n context field = .ok (display m.toNat) := by
    unfold StatusLine.arg
    rw [h]
  unfold StatusLine.argU64
  rw [harg]
  simp only [bind, Except.bind, parseU64_display]
  rfl

/-- **The client takes a selection for the group that the server selected**, with its watermarks. -/
theorem parse_selectionText {group : Group} (h : group.Unbroken) {line : StatusLine}
    (hline : line.text = Session.selectionText group group.name) (fallback : Option GroupName) :
    GroupSummary.parse line fallback =
      .ok ⟨⟨group.name, h.name⟩, group.articles.len, group.watermarks.1, group.watermarks.2⟩ := by
  have hargs : line.args = _ := (congrArg StatusLine.splitAsciiWhitespace hline).trans (words_selectionText h)
  have hname : GroupName.parse group.name = .ok ⟨group.name, h.name⟩ := dif_pos h.name
  unfold GroupSummary.parse
  dsimp only
  rw [@argU64_display line 0 group.articles.len (by rw [hargs]; rfl),
    @argU64_display line 1 group.watermarks.1 (by rw [hargs]; rfl),
    @argU64_display line 2 group.watermarks.2 (by rw [hargs]; rfl), hargs]
  show (GroupName.parse group.name >>= _) = _
  rw [hname]
  rfl

theorem parse_selection {group : Group} (h : group.Unbroken) {line : StatusLine}
    (hline : line.text = Session.selectionText group group.name) (fallback : Option GroupName) :
    ∃ summary, GroupSummary.parse line fallback = .ok summary ∧ summary.name.asStr = group.name :=
  ⟨_, parse_selectionText h hline fallback, rfl⟩

theorem getLast?_selectionText {group : Group} (h : group.Unbroken) :
    (Session.selectionText group group.name).getLast? ≠ some '\r' := by
  obtain ⟨hne, hname⟩ := isAsciiGraphic_of_wellFormed h.name
  have htext : Session.selectionText group group.name = (display group.articles.len.toNat ++ ' ' ::
      (display group.watermarks.1.toNat ++ ' ' :: (display group.watermarks.2.toNat ++ [' ']))) ++ group.name := by
    unfold Session.selectionText
    simp [joinWith]
  intro hlast
  rw [htext, List.getLast?_append_of_ne_nil _ hne] at hlast
  exact absurd (hname _ (List.mem_of_getLast? hlast)) (by decide)

/-- A command fails and leaves both in step, or it is answered within the limits. -/
theorem InStep.command (h : InStep limits config c) (cmd : Command)
    (hfits : Fits limits config ((Client.command cmd).exec c).2) :
    (∃ e mid, (Client.command cmd).exec c = (.error e, mid) ∧ InStep limits config mid) ∨
      Level limits config none c ∧ ∃ line connection reply flow,
        (Client.command cmd).exec c = (.ok line, heardOf c connection cmd line) ∧
        Exchanged c.connection connection cmd line reply flow ∧ Reply.Within limits config reply := by
  rcases h.settled with hlevel | hended
  · rcases hlevel.command cmd hfits with ⟨e, hexec⟩ | ⟨line, connection, reply, flow, hexec, hx⟩
    · exact Or.inl ⟨e, c, hexec, h⟩
    · refine Or.inr ⟨hlevel, line, connection, reply, flow, hexec, hx, ?_⟩
      rw [hexec] at hfits
      apply hfits reply
      show reply ∈ connection.stream.replied
      rw [hx.replied]
      exact List.mem_append_right _ List.mem_cons_self
  · obtain ⟨e, connection, hexec, hsession, hafter⟩ := hended.command cmd
    refine Or.inl ⟨e, _, hexec, Or.inr hafter, ?_⟩
    show c.group.map _ = connection.stream.session.state.currentGroup
    rw [hsession]
    exact h.agrees

/-- An answer without a block that asks for no article. -/
theorem Level.answered (h : Level limits config none c) {connection : Connection Loop} {cmd : Command}
    {line : StatusLine} {reply : Reply} {flow : Flow} (hx : Exchanged c.connection connection cmd line reply flow)
    (hwithin : Reply.Within limits config reply) (hblock : reply.block.isSome = false)
    (hpost : ¬ (verbOf cmd = .post ∧ reply.code = 340)) : Settled limits config (heardOf c connection cmd line) := by
  have hnone := Option.not_isSome_iff_eq_none.mp (Bool.not_eq_true _ ▸ hblock)
  rcases h.exchanged hx hwithin with ⟨-, hafter⟩ | ⟨-, hasked⟩ | ⟨-, hafter⟩
  · rw [hnone] at hafter
    exact Or.inl hafter
  · exact absurd hasked hpost
  · exact Or.inr hafter

/-- An answer that selects nothing. -/
theorem InStep.unselected (h : InStep limits config c) {connection : Connection Loop} {cmd : Command}
    {line : StatusLine} {reply : Reply} {flow : Flow} (hx : Exchanged c.connection connection cmd line reply flow)
    (hsettled : Settled limits config (heardOf c connection cmd line))
    (hcode : ((verbOf cmd).selects && reply.code == 211) = false) :
    InStep limits config (heardOf c connection cmd line) := by
  refine ⟨hsettled, ?_⟩
  show c.group.map _ = connection.stream.session.state.currentGroup
  rw [hx.answered.unselected hcode]
  exact h.agrees

/-- The client notes a group that is the server's. -/
theorem InStep.selected {mid : Client Loop} (h : Settled limits config mid) {summary : GroupSummary} {name : Str}
    (hname : summary.name.asStr = name) (hcurrent : mid.connection.stream.session.state.currentGroup = some name) :
    InStep limits config { mid with group := some summary } := by
  refine ⟨h.of_connection rfl, ?_⟩
  show some summary.name.asStr = mid.connection.stream.session.state.currentGroup
  rw [hcurrent, hname]

theorem keeps_liftProto {α : Type} (a : Except ProtoError α) : Keeps (Client.liftProto a : ClientM Loop α) :=
  .of_eq fun c => by cases a <;> rfl

/-- The selection that a session announces. -/
theorem selection_of_exchanged {connection : Connection Loop} {cmd : Command} {line : StatusLine} {reply : Reply}
    {flow : Flow} (hserved : Served c.connection.stream.session)
    (hx : Exchanged c.connection connection cmd line reply flow) (hselects : (verbOf cmd).selects = true)
    (hcode : line.code = 211) (fallback : Option GroupName) :
    ∃ summary name, GroupSummary.parse line fallback = .ok summary ∧ summary.name.asStr = name ∧
      connection.stream.session.state.currentGroup = some name := by
  have hannounced : ((verbOf cmd).selects && reply.code == 211) = true := by
    rw [hselects, ← hx.code, hcode]
    rfl
  obtain ⟨group, hmem, hcurrent, htext⟩ := hx.answered.selection hannounced
  have hgood := hserved.corpus group hmem
  have hline : line.text = Session.selectionText group group.name := by
    rw [hx.text (by rw [htext]; exact getLast?_selectionText hgood), htext]
  obtain ⟨summary, hparse, hname⟩ := parse_selection hgood hline fallback
  exact ⟨summary, group.name, hparse, hname, hcurrent⟩

/-- **Both ends select the same group.** -/
theorem inStep_selectGroup (h : InStep limits config c) (group : GroupName)
    (hfits : Fits limits config ((Client.selectGroup group).exec c).2) :
    InStep limits config ((Client.selectGroup group).exec c).2 := by
  unfold Client.selectGroup at hfits ⊢
  have hfirst : Fits limits config ((Client.command (.group group)).exec c).2 := by
    refine Fits.first (fun line => ?_) hfits
    split
    · exact (keeps_liftProto _).bind fun summary => .of_eq fun c => rfl
    · exact .of_eq fun c => rfl
  rcases h.command (.group group) hfirst with ⟨e, mid, hexec, hmid⟩ |
    ⟨hlevel, line, connection, reply, flow, hexec, hx, hwithin⟩
  · rw [Fallible.exec_bind_error hexec]
    exact hmid
  · have hsettled := hlevel.answered hx hwithin hx.answered.block fun hpost => by cases hpost.1
    rw [Fallible.exec_bind_ok hexec]
    by_cases hcode : line.code = 211
    · obtain ⟨summary, name, hparse, hname, hcurrent⟩ :=
        selection_of_exchanged hlevel.idle.served hx rfl hcode (some group)
      rw [if_pos hcode, hparse]
      exact InStep.selected hsettled hname hcurrent
    · rw [if_neg hcode]
      refine h.unselected hx hsettled ?_
      rw [← hx.code]
      simp [hcode]

/-- **Both ends select the same group**, whose numbers are listed. -/
theorem inStep_articleNumbers (h : InStep limits config c) (group : Option GroupName) (range : Option Range)
    (hfits : Fits limits config ((Client.articleNumbers group range).exec c).2) :
    InStep limits config ((Client.articleNumbers group range).exec c).2 := by
  unfold Client.articleNumbers at hfits ⊢
  rw [Fallible.exec_bind_ok (Fallible.exec_get c)] at hfits ⊢
  by_cases hselected : (group.isNone && c.group.isNone) = true
  · rw [if_pos hselected]
    exact h
  · rw [if_neg hselected] at hfits ⊢
    have hfirst : Fits limits config ((Client.command (.listGroup group range)).exec c).2 := by
      refine Fits.first (fun line => ?_) hfits
      split_ifs
      · exact (keeps_liftProto _).bind fun summary => Keeps.readBlock.bind fun block => .of_eq fun c => rfl
      · exact .of_eq fun c => rfl
      · exact .of_eq fun c => rfl
    rcases h.command (.listGroup group range) hfirst with ⟨e, mid, hexec, hmid⟩ |
      ⟨hlevel, line, connection, reply, flow, hexec, hx, hwithin⟩
    · rw [Fallible.exec_bind_error hexec]
      exact hmid
    · have hblock : reply.block.isSome = (line.code == 211) := by
        rw [hx.answered.block, hx.code]
        rfl
      rw [Fallible.exec_bind_ok hexec]
      by_cases hcode : line.code = 211
      · obtain ⟨summary, name, hparse, hname, hcurrent⟩ :=
          selection_of_exchanged hlevel.idle.served hx rfl hcode group
        rw [if_pos hcode, hparse]
        obtain ⟨lines, hlines⟩ := Option.isSome_iff_exists.mp (hblock.trans (beq_iff_eq.mpr hcode))
        rcases hlevel.exchanged hx hwithin with ⟨-, hafter⟩ | ⟨-, hverb, -⟩ | ⟨hnone, -⟩
        · rw [hlines] at hafter
          obtain ⟨after, hread, hstream, hrest⟩ := hafter.readBlock
          show InStep limits config (Fallible.exec (Client.readBlock >>= _) (heardOf c connection _ line)).2
          rw [Fallible.exec_bind_ok hread]
          refine InStep.selected (Or.inl hrest) hname ?_
          show after.stream.session.state.currentGroup = _
          rw [hstream]
          exact hcurrent
        · cases hverb
        · rw [hlines] at hnone
          cases hnone
      · rw [if_neg hcode]
        have hsettled := hlevel.answered hx hwithin (hblock.trans (beq_eq_false_iff_ne.mpr hcode))
          fun hpost => by cases hpost.1
        have hstep := h.unselected hx hsettled (by rw [← hx.code]; simp [hcode])
        split
        · exact hstep
        · exact hstep

/-! ## Posting -/

/-- A use of the connection that sends an article, as the client makes it. -/
theorem exec_sendArticle {lines : List Bytes} {line : StatusLine} {connection : Connection Loop}
    (h : (do Connection.sendBlock lines; Connection.readStatus : Conn Loop _).exec c.connection =
      (.ok line, connection)) :
    (Client.sendArticle lines).exec c =
      (.ok line, { c with connection, heard := c.heard ++ [⟨.post, Connection.wireBlock lines, line, none⟩] }) := by
  have htaken : (Client.onConnection (do Connection.sendBlock lines; Connection.readStatus)).exec c =
      (.ok line, { c with connection }) := by
    rw [Client.onConnection_exec, h]
  exact Fallible.exec_bind_ok htaken

/-- What is answered when an article is sent. -/
theorem replied_sendArticle (lines : List Bytes) :
    repliedTo ((Client.sendArticle lines).exec c).2.connection =
      repliedTo ((do Connection.sendBlock lines; Connection.readStatus : Conn Loop _).exec c.connection).2 := by
  rcases hexec : (do Connection.sendBlock lines; Connection.readStatus : Conn Loop _).exec c.connection with
    ⟨e | line, connection⟩
  · have hfail : (Client.onConnection (do Connection.sendBlock lines; Connection.readStatus)).exec c =
        (.error e, { c with connection }) := by
      rw [Client.onConnection_exec, hexec]
    have hlost : (Client.sendArticle lines).exec c = (.error e, { c with connection }) :=
      Fallible.exec_bind_error hfail
    rw [hlost]
  · rw [exec_sendArticle hexec]

/-- **An article that is waited for is answered**, and then both ends are level again. -/
theorem InStep.article (hagrees : Agrees c) (hexpecting : Expecting c.connection.stream)
    (hsettings : c.connection.stream.session.config = config) (husable : c.connection.desynchronised = false)
    (hbounds : c.connection.limits = limits) (hcancel : Uncancelled c.connection)
    (hquiet : c.connection.upcoming = []) {lines : List Bytes} (hlines : ∀ line ∈ lines, NoLf line)
    (hfits : Fits limits config ((Client.sendArticle lines).exec c).2) :
    ∃ line mid, (Client.sendArticle lines).exec c = (.ok line, mid) ∧ InStep limits config mid := by
  unfold Fits at hfits
  rw [replied_sendArticle, ← hbounds, ← hsettings] at hfits
  obtain ⟨line, connection, reply, hexec, hdelivered⟩ := exec_article husable hexpecting hquiet hlines hfits
  refine ⟨line, _, exec_sendArticle hexec, Or.inl ?_, ?_⟩
  · exact {
      idle := ⟨hdelivered.accepts.served, hdelivered.phase, hdelivered.input⟩
      settings := hdelivered.accepts.config.trans hsettings
      usable := hdelivered.usable
      bounds := hdelivered.limits.trans hbounds
      cancel := hcancel.of_eq hdelivered.cancel
      upcoming := hdelivered.quiet
      lines := fun _ hnone => by cases hnone
      within := fun _ hnone => by cases hnone }
  · show c.group.map _ = connection.stream.session.state.currentGroup
    rw [hdelivered.accepts.state]
    exact hagrees

/-- What is done with the answer to an article keeps the answers. -/
theorem keeps_articleAnswer (line : StatusLine) : Keeps (
    if line.code = 240 then pure line.text
    else if line.code = 440 ∨ line.code = 441 then throw (.postingRejected line.code line.text)
    else throw (.fromStatus "POST" line) : ClientM Loop Str) := by
  split_ifs <;> exact .of_eq fun c => rfl

/-- What is done with the answer to a `POST` keeps the answers. -/
theorem keeps_postAnswer (lines : List Bytes) (line : StatusLine) : Keeps (do
    if line.code = 340 then
      let line ← Client.sendArticle lines
      if line.code = 240 then pure line.text
      else if line.code = 440 ∨ line.code = 441 then throw (.postingRejected line.code line.text)
      else throw (.fromStatus "POST" line)
    else if line.code = 440 then throw (.postingNotAllowed line.text)
    else throw (.fromStatus "POST" line) : ClientM Loop Str) := by
  split_ifs
  · exact (Keeps.sendArticle lines).bind keeps_articleAnswer
  · exact .of_eq fun c => rfl
  · exact .of_eq fun c => rfl

/-- **An article is sent only where the server waits for one.** -/
theorem inStep_post (h : InStep limits config c) {base64 : Bytes → Str}
    (hbase64 : ∀ bytes, ∀ c ∈ base64 bytes, isBase64 c = true) (text : Str)
    (hfits : Fits limits config ((Client.post base64 (Draft.parse text)).exec c).2) :
    InStep limits config ((Client.post base64 (Draft.parse text)).exec c).2 := by
  unfold Client.post at hfits ⊢
  rw [Fallible.exec_bind_ok (Fallible.exec_get c)] at hfits ⊢
  cases hallowed : c.checkCanPost with
  | error e => exact h
  | ok allowed =>
      rw [hallowed] at hfits
      cases hlines : (Draft.parse text).toLines base64 with
      | error e => exact h
      | ok lines =>
          rw [hlines] at hfits
          have hsent : ∀ line ∈ lines, NoLf line := (Draft.toLines_article hbase64 hlines).1
          have hfirst : Fits limits config ((Client.command .post).exec c).2 :=
            Fits.first (keeps_postAnswer lines) hfits
          show InStep limits config (Fallible.exec (Client.command .post >>= _) c).2
          rcases h.command .post hfirst with ⟨e, mid, hexec, hmid⟩ |
            ⟨hlevel, line, connection, reply, flow, hexec, hx, hwithin⟩
          · rw [Fallible.exec_bind_error hexec]
            exact hmid
          · have hrest : Fits limits config (Fallible.exec (Client.command .post >>= _) c).2 := hfits
            rw [Fallible.exec_bind_ok hexec] at hrest ⊢
            by_cases hcode : line.code = 340
            · have hasked := hx.goesOn.article.mpr ⟨rfl, hx.code ▸ hcode⟩
              have hnone : reply.block = none :=
                Option.not_isSome_iff_eq_none.mp (by rw [hx.answered.block]; exact Bool.false_ne_true)
              have hquiet : connection.upcoming = [] := by
                rw [hx.owed, hnone]
                rfl
              have hagrees : Agrees (heardOf c connection .post line) := by
                show c.group.map _ = connection.stream.session.state.currentGroup
                rw [hx.answered.unselected rfl]
                exact h.agrees
              rw [if_pos hcode] at hrest ⊢
              obtain ⟨answer, mid, hexec, hmid⟩ := InStep.article hagrees
                ⟨hlevel.idle.served.of_kept hx.answered.kept, hx.phase.trans hasked, hx.input⟩
                (hx.answered.kept.config.trans hlevel.settings) hx.usable (hx.limits.trans hlevel.bounds)
                (hlevel.cancel.of_eq hx.cancel) hquiet hsent (Fits.first keeps_articleAnswer hrest)
              rw [Fallible.exec_bind_ok hexec]
              split_ifs <;> exact hmid
            · rw [if_neg hcode]
              have hsettled := hlevel.answered hx hwithin (by rw [hx.answered.block]; rfl)
                fun hpost => hcode (hx.code.trans hpost.2)
              have hstep := h.unselected hx hsettled rfl
              split
              · exact hstep
              · exact hstep

/-! ## Every operation -/

/-- A change that neither the connection nor the group has a part in. -/
def Unselecting (change : Client Loop → Client Loop) : Prop :=
  ∀ c, (change c).connection = c.connection ∧ (change c).group = c.group

theorem permits_plain : Client.Permits (fun cmd => isPlain cmd = true) Unselecting where
  command cmd hcmd := by cases cmd <;> first | rfl | cases hcmd
  capabilities _ _ := ⟨rfl, rfl⟩
  postingAllowed _ _ := ⟨rfl, rfl⟩
  authenticated _ := ⟨rfl, rfl⟩
  overviewFmt _ _ := ⟨rfl, rfl⟩

/-- What is made of plain commands keeps the answers. -/
theorem keeps_of_plain {α : Type} {x : ClientM Loop α}
    (h : Client.Orderly (fun cmd => isPlain cmd = true) Unselecting false x) : Keeps x :=
  .of_orderly (fun _ hchange c => (hchange c).1) h

/-- What is made of plain commands leaves both ends in step. -/
theorem InStep.plain (h : InStep limits config c) {α : Type} {x : ClientM Loop α}
    (hx : Client.Orderly (fun cmd => isPlain cmd = true) Unselecting false x)
    (hfits : Fits limits config (x.exec c).2) : InStep limits config (x.exec c).2 :=
  (calm_of_orderly (fun _ hcmd => hcmd) (fun _ hchange => hchange) hx c h.settled hfits).inStep h

variable (decoders : Decoders) (base64 : Bytes → Str)

/-- What is done when the login is over. -/
theorem keeps_afterLogin (changed : Bool) : Keeps (
    if changed then Fallible.ignoring (Client.refreshCapabilities decoders) else pure () : ClientM Loop Unit) := by
  split
  · exact fun c => keeps_of_plain (Client.orderly_refreshCapabilities permits_plain decoders) c
  · exact .of_eq fun c => rfl

/-- **A login leaves both ends in step**, whatever becomes of asking for the capabilities behind it. -/
theorem inStep_authenticate (h : InStep limits config c) (username : Str) (password : Option Str) (allow : Bool)
    (hfits : Fits limits config ((Client.authenticate decoders username password allow).exec c).2) :
    InStep limits config ((Client.authenticate decoders username password allow).exec c).2 := by
  have hlogin := h.plain (Client.orderly_login permits_plain username password allow)
    (Fits.first (keeps_afterLogin decoders) hfits)
  unfold Client.authenticate at hfits ⊢
  rcases hexec : (Client.login username password allow).exec c with ⟨e | changed, mid⟩
  · rw [hexec] at hlogin
    rw [Fallible.exec_bind_error hexec]
    exact hlogin
  · rw [hexec] at hlogin
    rw [Fallible.exec_bind_ok hexec] at hfits ⊢
    cases changed with
    | true =>
        show InStep limits config ((Client.refreshCapabilities decoders).exec mid).2
        exact hlogin.plain (Client.orderly_refreshCapabilities permits_plain decoders) hfits
    | false => exact hlogin

/-- A change that the connection has no part in. -/
def Detached (change : Client Loop → Client Loop) : Prop := ∀ c, (change c).connection = c.connection

theorem permits_detached : Client.Permits (fun _ => True) Detached where
  command _ _ := trivial
  capabilities _ _ := rfl
  postingAllowed _ _ := rfl
  authenticated _ := rfl
  overviewFmt _ _ := rfl

/-- **Every operation keeps the answers.** -/
theorem keeps_perform (operation : Operation) : Keeps (operation.perform decoders base64 : ClientM Loop Unit) := by
  have hkeeps : ∀ {operation : Operation}, Client.Operation.Allowed (fun _ => True) Detached operation →
      Keeps (operation.perform decoders base64) :=
    fun h => .of_orderly (fun _ hchange => hchange) (Client.orderly_perform decoders base64 permits_detached h)
  cases operation with
  | authenticate username password allow =>
      refine (keeps_of_plain (Client.orderly_login permits_plain username password allow)).bind ?_
      exact keeps_afterLogin decoders
  | selectGroup group => exact hkeeps ⟨trivial, fun _ _ => rfl⟩
  | articleNumbers group range => exact hkeeps ⟨trivial, fun _ _ => rfl⟩
  | overview range => exact hkeeps ⟨trivial, trivial, fun _ _ => rfl⟩
  | overviewStreaming range fmt => exact hkeeps ⟨trivial, trivial, fun _ _ => rfl⟩
  | headerField field target => exact hkeeps ⟨trivial, trivial, fun _ _ => rfl⟩
  | headerFieldStreaming field target => exact hkeeps ⟨trivial, trivial, fun _ _ => rfl⟩
  | _ => exact hkeeps trivial

/-- Drafts come out of the editor. -/
def Operation.Edited : Operation → Prop
  | .post draft => ∃ text, draft = Draft.parse text
  | _ => True

variable {base64} in
/-- **What is in step before an operation is in step after it.** -/
theorem inStep_perform (h : InStep limits config c) (hbase64 : ∀ bytes, ∀ c ∈ base64 bytes, isBase64 c = true)
    {operation : Operation} (hedited : Operation.Edited operation)
    (hfits : Fits limits config ((operation.perform decoders base64).exec c).2) :
    InStep limits config ((operation.perform decoders base64).exec c).2 := by
  have hplain : ∀ {operation : Operation},
      Client.Operation.Allowed (fun cmd => isPlain cmd = true) Unselecting operation →
      Fits limits config ((operation.perform decoders base64).exec c).2 →
      InStep limits config ((operation.perform decoders base64).exec c).2 :=
    fun hallowed => h.plain (Client.orderly_perform decoders base64 permits_plain hallowed)
  cases operation with
  | authenticate username password allow => exact inStep_authenticate decoders h username password allow hfits
  | selectGroup group =>
      rw [Operation.perform, exec_performed] at hfits ⊢
      exact inStep_selectGroup h group hfits
  | articleNumbers group range =>
      rw [Operation.perform, exec_performed] at hfits ⊢
      exact inStep_articleNumbers h group range hfits
  | post draft =>
      obtain ⟨text, rfl⟩ := hedited
      rw [Operation.perform, exec_performed] at hfits ⊢
      exact inStep_post h hbase64 text hfits
  | overview range => exact hplain ⟨rfl, rfl, fun _ _ => ⟨rfl, rfl⟩⟩ hfits
  | overviewStreaming range fmt => exact hplain ⟨rfl, rfl, fun _ _ => ⟨rfl, rfl⟩⟩ hfits
  | headerField field target => exact hplain ⟨rfl, rfl, fun _ _ => ⟨rfl, rfl⟩⟩ hfits
  | headerFieldStreaming field target => exact hplain ⟨rfl, rfl, fun _ _ => ⟨rfl, rfl⟩⟩ hfits
  | _ => exact hplain trivial hfits

/-! ## Whole sessions -/

variable {base64} in
theorem keeps_performAll (session : List Operation) (c : Client Loop) :
    repliedTo c.connection <+: repliedTo (Client.performAll decoders base64 c session).connection := by
  induction session generalizing c with
  | nil => exact List.prefix_refl _
  | cons operation session ih => exact (keeps_perform decoders base64 operation c).trans (ih _)

variable {base64} in
/-- **What is in step before a session is in step after it.** -/
theorem InStep.performAll (hbase64 : ∀ bytes, ∀ c ∈ base64 bytes, isBase64 c = true) {session : List Operation}
    (hedited : ∀ operation ∈ session, Operation.Edited operation) (h : InStep limits config c)
    (hfits : Fits limits config (Client.performAll decoders base64 c session)) :
    InStep limits config (Client.performAll decoders base64 c session) := by
  induction session generalizing c with
  | nil => exact h
  | cons operation session ih =>
      obtain ⟨hoperation, hsession⟩ := List.forall_mem_cons.mp hedited
      have hmid : Fits limits config ((operation.perform decoders base64).exec c).2 :=
        fun reply hreply => hfits reply ((keeps_performAll decoders session _).subset hreply)
      exact ih hsession (inStep_perform decoders h hbase64 hoperation hmid) hfits

end Operations

/-! ## A new client -/

/-- A connection that the server has accepted: its greeting is there to be read. -/
def accepted (corpus : Corpus) (config : ServerConfig) (limits : Limits) : Connection Loop where
  stream := (Loop.start (Session.new corpus config)).1
  buffer := []
  reads := held (Loop.start (Session.new corpus config)).2 []
  written := []
  limits := limits
  desynchronised := false
  cancel := none

/-- The greeting is one line. -/
theorem greet_line {corpus : Corpus} {config : ServerConfig} (h : Steady config) :
    '\n' ∉ ((Session.new corpus config).greet).1.text := by
  unfold Session.greet
  cases hgreeting : (Session.new corpus config).config.greeting with
  | postingAllowed =>
      intro hmem
      rcases List.mem_append.mp hmem with hmem | hmem
      · exact h.serverName hmem
      · exact absurd hmem (by decide)
  | noPosting =>
      intro hmem
      rcases List.mem_append.mp hmem with hmem | hmem
      · exact h.serverName hmem
      · exact absurd hmem (by decide)
  | refuse code text => exact h.greeting code text hgreeting

/-- No greeting asks for an article. -/
theorem greet_phase (corpus : Corpus) (config : ServerConfig) :
    (Loop.start (Session.new corpus config)).1.phase ≠ .article := by
  show ((Session.new corpus config).greet).2.phase ≠ .article
  unfold Session.greet
  split <;> exact fun hphase => by cases hphase

/-- **A client that has read the greeting is in step.** -/
theorem inStep_withOptions {corpus : Corpus} (hcorpus : corpus.Unbroken) {config : ServerConfig} (h : Steady config)
    {limits : Limits} {encrypted : Bool} {start : Client Loop}
    (hstart : Client.withOptions (accepted corpus config limits) encrypted = .ok start) :
    InStep limits config start := by
  unfold Client.withOptions at hstart
  rcases hread : (Connection.readStatus : Conn Loop _).exec (accepted corpus config limits) with ⟨e | line, connection⟩
  · rw [hread] at hstart
    cases hstart
  · rw [hread] at hstart
    dsimp only at hstart
    split_ifs at hstart
    cases hstart
    obtain ⟨⟨head, hnot, -, -, hup⟩, hafter⟩ := Connection.readStatus_ok rfl hread
    have hgreeting : (accepted corpus config limits).upcoming =
        (statusHead config ((Session.new corpus config).greet).1).map .item ++ .item 0x0A :: [] := by
      have hstart : (Loop.start (Session.new corpus config)).2 =
          statusHead config ((Session.new corpus config).greet).1 ++ [0x0A] := statusLine_eq _ _
      show events (held [] (held (Loop.start (Session.new corpus config)).2 [])) = _
      rw [hstart, events_held, events_held]
      simp
    have hquiet : connection.upcoming = [] := by
      rw [hgreeting] at hup
      exact (items_cut (noLf_statusHead config (greet_line h)) hnot hup).2.symm
    have hstream : connection.stream = (Loop.start (Session.new corpus config)).1 := by
      rw [hafter]
      rfl
    have hagrees : none = connection.stream.session.state.currentGroup := by
      rw [hstream]
      rfl
    refine ⟨?_, hagrees⟩
    cases hphase : (Loop.start (Session.new corpus config)).1.phase with
    | command => exact Or.inl {
        idle := by
          show Idle connection.stream
          rw [hstream]
          exact ⟨⟨hcorpus, h, h.truncating, rfl⟩, hphase, rfl⟩
        settings := by
          show connection.stream.session.config = config
          rw [hstream]
          rfl
        usable := by
          show connection.desynchronised = false
          rw [hafter]
          rfl
        bounds := by
          show connection.limits = limits
          rw [hafter]
          rfl
        cancel := by
          show Uncancelled connection
          rw [hafter]
          exact fun seen hseen => absurd hseen List.not_mem_nil
        upcoming := hquiet
        lines := fun _ hnone => by cases hnone
        within := fun _ hnone => by cases hnone }
    | article => exact absurd hphase (greet_phase _ _)
    | ended =>
        refine Or.inr ⟨?_, hquiet⟩
        show connection.stream.phase = .ended
        rw [hstream, hphase]

/-! ## Lockstep -/

/-- **Client and server stay in lockstep.** Behind every session of a new client nothing of what the server sent is
left to be read, and the client's group is the server's. -/
theorem stays_in_lockstep {corpus : Corpus} (hcorpus : corpus.Unbroken) {config : ServerConfig} (h : Steady config)
    {limits : Limits} {encrypted : Bool} {start : Client Loop}
    (hstart : Client.withOptions (accepted corpus config limits) encrypted = .ok start) (decoders : Decoders)
    {base64 : Bytes → Str} (hbase64 : ∀ bytes, ∀ c ∈ base64 bytes, isBase64 c = true) {session : List Operation}
    (hedited : ∀ operation ∈ session, Operation.Edited operation)
    (hfits : Fits limits config (Client.performAll decoders base64 start session)) :
    (Client.performAll decoders base64 start session).connection.unread = [] ∧
      (Client.performAll decoders base64 start session).group.map (·.name.asStr) =
        (Client.performAll decoders base64 start session).connection.stream.session.state.currentGroup := by
  have hend := (inStep_withOptions hcorpus h hstart).performAll decoders hbase64 hedited hfits
  refine ⟨?_, hend.agrees⟩
  unfold Connection.unread
  rw [hend.settled.quiet]
  rfl

namespace Lockstep

theorem withMiscTest_unbroken : Session.withMiscTest.corpus.Unbroken := by
  intro group hgroup
  obtain rfl := List.mem_singleton.mp hgroup
  exact ⟨by decide, List.not_mem_nil, fun entry hentry => absurd hentry List.not_mem_nil⟩

/-- The group is selected and an article posted. -/
def posting : List Operation :=
  [.selectGroup Client.miscTest,
    .post (Draft.parse "From: a@b\nSubject: c\nNewsgroups: misc.test\n\nd\n".toList)]

/-- An answer without a block, whose status line is not too long. -/
def isShort (reply : Reply) : Bool :=
  reply.block.isNone && decide ((statusHead {} reply).length ≤ Limits.default.maxLineLen)

theorem within_of_isShort {reply : Reply} (h : isShort reply = true) : Reply.Within .default {} reply := by
  obtain ⟨hnone, hlength⟩ := Bool.and_eq_true_iff.mp h
  refine ⟨of_decide_eq_true hlength, fun lines hlines => ?_⟩
  rw [Option.isNone_iff_eq_none.mp hnone] at hlines
  cases hlines

theorem posting_edited : ∀ operation ∈ posting, Operation.Edited operation := by
  intro operation hmem
  rcases List.mem_cons.mp hmem with rfl | hmem
  · trivial
  · rw [List.mem_singleton.mp hmem]
    exact ⟨_, rfl⟩

theorem steady_default : Steady {} where
  closing := rfl
  truncating := rfl
  refusePost _ hnone := by cases hnone
  serverName := by decide
  greeting _ _ hrefuse := by cases hrefuse

/-- A new client at a server with the default configuration. -/
theorem stays_in_lockstep_posting :
    ∃ start, Client.withOptions (accepted Session.withMiscTest.corpus {} .default) true = .ok start ∧
      (Client.performAll Client.plainDecoders (fun _ => []) start posting).connection.unread = [] ∧
      (Client.performAll Client.plainDecoders (fun _ => []) start posting).group.map (·.name.asStr) =
        (Client.performAll Client.plainDecoders (fun _ => []) start
          posting).connection.stream.session.state.currentGroup := by
  have hshort : (Client.withOptions (accepted Session.withMiscTest.corpus {} .default) true).toOption.map (fun start =>
      (Client.performAll Client.plainDecoders (fun _ => []) start posting).connection.stream.replied.all isShort) =
      some true := by
    decide +kernel
  cases hstart : Client.withOptions (accepted Session.withMiscTest.corpus {} .default) true with
  | error e =>
      rw [hstart] at hshort
      cases hshort
  | ok start =>
      rw [hstart] at hshort
      refine ⟨start, rfl, stays_in_lockstep withMiscTest_unbroken steady_default hstart _ ?_ posting_edited ?_⟩
      · exact fun _ _ hmem => absurd hmem List.not_mem_nil
      · exact fun reply hreply => within_of_isShort (List.all_eq_true.mp (Option.some.inj hshort) reply hreply)

/-- A name of two lines, the second of which reads as the answer to a `GROUP`. -/
def twoLines : ServerConfig where
  serverName := "a\n211 0 0 0 alt.test".toList

/-- **A server whose name has two lines is out of step from the greeting on**: the rest of the greeting is taken for
the answer to `GROUP`, which is left unread, and the client has a group selected that the server has not. -/
theorem two_lines_out_of_step :
    Session.withMiscTest.corpus.Unbroken ∧ twoLines.quirks = {} ∧
    ∃ start, Client.withOptions (accepted Session.withMiscTest.corpus twoLines .default) true = .ok start ∧
      (((Operation.selectGroup Client.miscTest).perform Client.plainDecoders fun _ => []).exec start).1 = .ok () ∧
      (((Operation.selectGroup Client.miscTest).perform Client.plainDecoders fun _ => []).exec
        start).2.connection.unread = asBytes "211 0 1 0 misc.test\r\n".toList ∧
      (((Operation.selectGroup Client.miscTest).perform Client.plainDecoders fun _ => []).exec start).2.group.map
        (·.name.asStr) = some "alt.test".toList ∧
      (((Operation.selectGroup Client.miscTest).perform Client.plainDecoders fun _ => []).exec
        start).2.connection.stream.session.state.currentGroup = some "misc.test".toList := by
  refine ⟨withMiscTest_unbroken, rfl, ?_⟩
  have hcall : (Client.withOptions (accepted Session.withMiscTest.corpus twoLines .default) true).toOption.map (fun start =>
      let (result, after) :=
        ((Operation.selectGroup Client.miscTest).perform Client.plainDecoders fun _ => []).exec start
      (result, after.connection.unread, after.group.map (·.name.asStr),
        after.connection.stream.session.state.currentGroup)) =
      some (.ok (), asBytes "211 0 1 0 misc.test\r\n".toList, some "alt.test".toList, some "misc.test".toList) := by
    decide +kernel
  cases hstart : Client.withOptions (accepted Session.withMiscTest.corpus twoLines .default) true with
  | error e =>
      rw [hstart] at hcall
      cases hcall
  | ok start =>
      rw [hstart] at hcall
      obtain ⟨hresult, hrest⟩ := Prod.mk.inj (Option.some.inj hcall)
      obtain ⟨hunread, hrest⟩ := Prod.mk.inj hrest
      obtain ⟨hgroup, hcurrent⟩ := Prod.mk.inj hrest
      exact ⟨start, rfl, hresult, hunread, hgroup, hcurrent⟩

end Lockstep

end Nntp
