import Nntp.Client.Alignment

/-!
# How the operations are built

Every operation of the client is made of the same few moves: a command and its status line, the block
behind it, a look at the client, a change of what it remembers. `Orderly` says that a computation is made of
them, that it reads a block exactly where the client reads one, and which commands and which changes occur
in it. What all the moves do, an orderly operation does.
-/

namespace Nntp.Client

open Nntp.Lib Nntp.Proto

namespace Client

variable {σ : Type} [Peer σ] {α β : Type}

/-- A computation that sends only commands of `K` and changes the client only by changes of `M`. The truth
value says whether a block is still to be read behind the last status line. -/
inductive Orderly (K : Command → Prop) (M : (Client σ → Client σ) → Prop) :
    Bool → {α : Type} → ClientM σ α → Prop
  | pure {α : Type} (a : α) : Orderly K M false (Pure.pure a)
  | throw {α : Type} (e : ClientError) : Orderly K M false (MonadExcept.throw e : ClientM σ α)
  -- behind a `LISTGROUP` the block stays where it is if the status line is no good, which gives the connection up
  | fatal {α : Type} {e : ClientError} {group : Option GroupName} {range : Option Range}
      (hcmd : K (.listGroup group range)) (he : e.isConnectionFatal = true) :
      Orderly K M true (MonadExcept.throw e : ClientM σ α)
  | get {α : Type} {pending : Bool} {f : Client σ → ClientM σ α} (hf : ∀ c, Orderly K M pending (f c)) :
      Orderly K M pending (MonadState.get >>= f)
  | change {α : Type} {pending : Bool} {change : Client σ → Client σ} {f : PUnit → ClientM σ α}
      (hchange : M change) (hf : Orderly K M pending (f ⟨⟩)) :
      Orderly K M pending (modify change >>= f)
  | block {α : Type} {f : List Bytes → ClientM σ α} (hf : ∀ lines, Orderly K M false (f lines)) :
      Orderly K M true (readBlock >>= f)
  | command {α : Type} {cmd : Command} {f : StatusLine → ClientM σ α} (hcmd : K cmd)
      (hf : ∀ line, Orderly K M (readsBlock cmd line.code) (f line)) :
      Orderly K M false (Client.command cmd >>= f)
  | sendArticle {α : Type} {lines : List Bytes} {f : StatusLine → ClientM σ α} (hpost : K .post)
      (hf : ∀ line, Orderly K M false (f line)) : Orderly K M false (Client.sendArticle lines >>= f)
  | bind {α β : Type} {x : ClientM σ α} {f : α → ClientM σ β} (hx : Orderly K M false x)
      (hf : ∀ a, Orderly K M false (f a)) : Orderly K M false (x >>= f)


namespace Orderly

variable {K : Command → Prop} {M : (Client σ → Client σ) → Prop} {cmd : Command} {line : StatusLine}

/-- No block is to be read there. -/
theorem none {x : ClientM σ α} {pending : Bool} (hreads : pending = false) (hx : Orderly K M false x) :
    Orderly K M pending x := by
  subst hreads
  exact hx

/-- The block is to be read, and it is. -/
theorem blockWhere {f : List Bytes → ClientM σ α} {pending : Bool} (hreads : pending = true)
    (hf : ∀ lines, Orderly K M false (f lines)) : Orderly K M pending (readBlock >>= f) := by
  subst hreads
  exact .block hf

theorem modify {change : Client σ → Client σ} (hchange : M change) :
    Orderly K M false (modify change : ClientM σ PUnit) := by
  have h := Orderly.change (K := K) hchange (Orderly.pure PUnit.unit)
  rwa [bind_pure] at h

theorem throw_bind (e : ClientError) (f : β → ClientM σ α) :
    Orderly K M false ((MonadExcept.throw e : ClientM σ β) >>= f) :=
  .throw e

theorem liftProto {a : Except ProtoError α} {f : α → ClientM σ β} (hf : ∀ a, Orderly K M false (f a)) :
    Orderly K M false (Client.liftProto a >>= f) := by
  cases a with
  | ok a => exact hf a
  | error e => exact .throw _

/-- The status line of a `LISTGROUP` that announces a block. -/
theorem liftListing {group : Option GroupName} {range : Option Range} (hcmd : K (.listGroup group range))
    {a : Except ProtoError α} {f : α → ClientM σ β} (hf : ∀ a, Orderly K M true (f a)) :
    Orderly K M true (Client.liftProto a >>= f) := by
  cases a with
  | ok a => exact hf a
  | error e => exact .fatal hcmd rfl

theorem require {name : String} {expected : Nat} {pending : Bool} {f : Unit → ClientM σ α}
    (hok : line.code = expected → Orderly K M pending (f ()))
    (hreads : line.code ≠ expected → pending = false) :
    Orderly K M pending (requireBlock name line expected >>= f) := by
  unfold requireBlock
  split
  · next h => exact hok h
  · next h => exact none (hreads h) (.throw_bind _ f)

/-- A command whose response has a block under one code, and an error under any other. -/
theorem blockCommand (hcmd : K cmd)
    (hreads : ∀ code, readsBlock cmd code = (code == successCode cmd))
    {f : StatusLine → List Bytes → ClientM σ α} {e : StatusLine → ClientError}
    (hf : ∀ line block, Orderly K M false (f line block)) :
    Orderly K M false (Client.command cmd >>= fun line =>
      if line.code = successCode cmd then readBlock >>= f line else MonadExcept.throw (e line)) := by
  refine .command hcmd fun line => ?_
  split
  · next h => exact .blockWhere (by simp [hreads, h]) (hf line)
  · next h => exact .none (by simp [hreads, h]) (.throw _)

/-- **The induction over an orderly operation**: what takes no step at all, what joins two steps, and what
every move of the client does are the same relation, and so is what the operation does. -/
theorem related {R : Client σ → Client σ → Prop} (hrefl : ∀ c, R c c)
    (htrans : ∀ {c mid c'}, R c mid → R mid c' → R c c') (hchange : ∀ f c, M f → R c (f c))
    (hconnection : ∀ c connection, R c { c with connection })
    (hnote : ∀ c exchange, K exchange.command → R c { c with heard := c.heard ++ [exchange] })
    (hblock : ∀ c lines, R c ((noteBlock lines).exec c).2)
    {pending : Bool} {x : ClientM σ α} (h : Orderly K M pending x) (c : Client σ) :
    R c (x.exec c).2 := by
  have hexchange : ∀ {x : Conn σ StatusLine} {cmd sent} {α : Type} {f : StatusLine → ClientM σ α},
      K cmd → (∀ line c, R c ((f line).exec c).2) → ∀ c, R c
        (((onConnection x >>= fun line => note ⟨cmd, sent, line, .none⟩ >>= fun _ =>
          (Pure.pure line : ClientM σ StatusLine)) >>= f).exec c).2 := by
    intro x cmd sent α f hcmd hf c
    rcases hexec : x.exec c.connection with ⟨e | line, connection⟩
    · have hfail : (onConnection x).exec c = (.error e, { c with connection }) := by
        rw [onConnection_exec, hexec]
      rw [Fallible.exec_bind_error (Fallible.exec_bind_error hfail)]
      exact hconnection c connection
    · have htaken : (onConnection x).exec c = (.ok line, { c with connection }) := by
        rw [onConnection_exec, hexec]
      have hnoted : (onConnection x >>= fun line => note ⟨cmd, sent, line, .none⟩ >>= fun _ =>
          (Pure.pure line : ClientM σ StatusLine)).exec c =
          (.ok line, { c with connection, heard := c.heard ++ [⟨cmd, sent, line, .none⟩] }) :=
        Fallible.exec_bind_ok htaken
      rw [Fallible.exec_bind_ok hnoted]
      apply htrans (hconnection c connection)
      apply htrans (hnote { c with connection } ⟨cmd, sent, line, .none⟩ hcmd)
      exact hf line _
  induction h generalizing c with
  | pure a => exact hrefl c
  | throw e => exact hrefl c
  | fatal hcmd he => exact hrefl c
  | get hf ih => exact ih c c
  | change hm hf ih => exact htrans (hchange _ c hm) (ih _)
  | @block _ f hf ih =>
      rcases hread : (Connection.readBlockStreaming : Conn σ _).exec c.connection with
        ⟨e | lines, connection⟩
      · have hfail : (readBlock : ClientM σ _).exec c = (.error e, { c with connection }) :=
          Fallible.exec_bind_error (by rw [onConnection_exec, hread])
        rw [Fallible.exec_bind_error hfail]
        exact hconnection c connection
      · have hok : (readBlock : ClientM σ _).exec c =
            (.ok lines, ((noteBlock lines).exec { c with connection }).2) :=
          Fallible.exec_bind_ok (by rw [onConnection_exec, hread])
        rw [Fallible.exec_bind_ok hok]
        exact htrans (hconnection c connection) (htrans (hblock _ lines) (ih lines _))
  | command hcmd hf ih => exact hexchange hcmd ih c
  | sendArticle hpost hf ih => exact hexchange hpost ih c
  | @bind _ _ x f hx hf ihx ihf =>
      rcases hexec : x.exec c with ⟨e | a, mid⟩
      · have := ihx c
        rw [hexec] at this
        rw [Fallible.exec_bind_error hexec]
        exact this
      · have := ihx c
        rw [hexec] at this
        rw [Fallible.exec_bind_ok hexec]
        exact htrans this (ihf a mid)

/-- **The rule of invariants**: what every move of the client keeps, an orderly operation keeps. -/
theorem keeps {I : Client σ → Prop} (hchange : ∀ f c, M f → I c → I (f c))
    (hcommand : ∀ cmd, K cmd → Fallible.Keeps I (Client.command cmd))
    (hsend : K .post → ∀ lines, Fallible.Keeps I (Client.sendArticle lines))
    (hblock : Fallible.Keeps I (readBlock (σ := σ))) {pending : Bool} {x : ClientM σ α}
    (h : Orderly K M pending x) : Fallible.Keeps I x := by
  induction h with
  | pure a => exact .pure a
  | throw e => exact .throw e
  | fatal hcmd he => exact .throw _
  | get hf ih => exact .get_bind fun c hc => ih c c hc
  | change hm hf ih => exact (Fallible.Keeps.modify fun c hc => hchange _ c hm hc).bind fun _ => ih
  | block hf ih => exact hblock.bind ih
  | command hcmd hf ih => exact (hcommand _ hcmd).bind ih
  | sendArticle hpost hf ih => exact (hsend hpost _).bind ih
  | bind hx hf ihx ihf => exact ihx.bind ihf

/-- An orderly operation is careful. -/
theorem careful (hM : ∀ change, M change → Local change) {x : ClientM σ α}
    (h : Orderly K M false x) : Careful x := by
  suffices hall : ∀ {pending : Bool} {α : Type} {x : ClientM σ α}, Orderly K M pending x →
      match pending with
      | false => Careful x
      | true => ∀ cmd (line : StatusLine), readsBlock cmd line.code = true → CarefulAfter cmd line x from
    hall h
  intro pending α x h
  have hafter : ∀ {cmd : Command} {line : StatusLine} {α : Type} {x : ClientM σ α},
      (match readsBlock cmd line.code with
        | false => Careful x
        | true => ∀ cmd (line : StatusLine), readsBlock cmd line.code = true → CarefulAfter cmd line x) →
      CarefulAfter cmd line x := by
    intro cmd line α x h
    cases hreads : readsBlock cmd line.code with
    | false =>
        rw [hreads] at h
        exact .none hreads h
    | true =>
        rw [hreads] at h
        exact h cmd line hreads
  induction h with
  | pure a => exact .pure a
  | throw e => exact .throw e
  | fatal hcmd he => exact fun _ _ _ => .fatal he
  | @get _ pending f hf ih =>
      cases pending with
      | false => exact Careful.get.bind ih
      | true => exact fun cmd line hreads sent c mid => ih mid cmd line hreads sent c mid
  | @change _ pending change f hchange hf ih =>
      cases pending with
      | false => exact (Careful.modify (hM _ hchange)).bind fun _ => ih
      | true => exact fun cmd line hreads => .modify (hM _ hchange) (ih cmd line hreads)
  | block hf ih => exact fun cmd line hreads => .block hreads ih
  | command hcmd hf ih => exact .command fun line => hafter (ih line)
  | sendArticle hpost hf ih => exact .sendArticle fun line => .none rfl (ih line)
  | bind hx hf ihx ihf => exact ihx.bind ihf

end Orderly

/-! ## The operations are orderly -/

/-- A command asks for something and is done: it neither selects a group nor announces an article, and has
no other spelling. -/
def isOrdinary : Command → Bool
  | .group _ => false
  | .listGroup _ _ => false
  | .post => false
  | .over _ => false
  | .xover _ => false
  | .hdr _ _ => false
  | .xhdr _ _ => false
  | _ => true

/-- What the operations do that neither select a group nor post, but for asking for overviews and header
fields. -/
structure Permits (K : Command → Prop) (M : (Client σ → Client σ) → Prop) : Prop where
  command : ∀ cmd, isOrdinary cmd = true → K cmd
  capabilities : ∀ capabilities, M fun c => { c with capabilities }
  postingAllowed : ∀ allowed,
    M fun c => { c with greeting := { c.greeting with postingAllowed := allowed } }
  authenticated : M fun c => { c with authenticated := true }
  overviewFmt : ∀ fmt, M fun c => { c with overviewFmt := some fmt }

section Operations

variable {K : Command → Prop} {M : (Client σ → Client σ) → Prop} (permits : Permits K M)
variable (decoders : Decoders)

include permits

theorem orderly_setCapabilities (capabilities : Capabilities) :
    Orderly K M false (setCapabilities capabilities) :=
  .change (permits.capabilities capabilities) (.pure _)

theorem orderly_refreshCapabilities : Orderly K M false (refreshCapabilities decoders) := by
  refine .command (permits.command _ rfl) fun line => ?_
  split
  · next h =>
      refine .blockWhere ?_ fun block => orderly_setCapabilities permits _
      simp [readsBlock, successCode, Command.expectsDataBlock, h]
  · next h =>
      refine .none ?_ ?_
      · simp [readsBlock, successCode, Command.expectsDataBlock, h]
      · split
        · exact orderly_setCapabilities permits _
        · exact .throw _

theorem orderly_enterReaderMode : Orderly K M false enterReaderMode := by
  refine .command (permits.command _ rfl) fun line => .none rfl ?_
  split_ifs
  · exact .modify (permits.postingAllowed true)
  · exact .modify (permits.postingAllowed false)
  · exact .pure _
  · exact .throw _
  · exact .pure _

theorem orderly_handshake : Orderly K M false (handshake decoders) := by
  refine (orderly_refreshCapabilities permits decoders).bind fun _ => .get fun c => ?_
  split
  · refine (orderly_enterReaderMode permits).bind fun _ => ?_
    exact (orderly_refreshCapabilities permits decoders).bind fun _ => .pure _
  · exact .pure _

theorem orderly_login (username : Str) (password : Option Str) (allowPlaintext : Bool) :
    Orderly K M false (login username password allowPlaintext) := by
  have hset : ∀ changed : Bool, Orderly K M false (setAuthenticated >>= fun _ => pure changed) :=
    fun changed => .change permits.authenticated (.pure _)
  refine .get fun c => ?_
  split
  · exact .throw _
  · refine .command (permits.command _ rfl) fun line => .none rfl ?_
    split_ifs
    · exact hset false
    · cases password with
      | none => exact .throw _
      | some password =>
          refine .command (permits.command _ rfl) fun line => .none rfl ?_
          split
          · exact hset true
          · exact .throw _
    · exact .throw _

theorem orderly_listGroupsStreaming (pattern : Option Wildmat) :
    Orderly K M false (listGroupsStreaming decoders pattern) := by
  refine .command (permits.command _ rfl) fun line => .require (fun h => ?_) fun h => ?_
  · refine .blockWhere ?_ fun block => .pure _
    simp [readsBlock, successCode, Command.expectsDataBlock, h]
  · simp [readsBlock, successCode, Command.expectsDataBlock, h]

theorem orderly_listGroups (pattern : Option Wildmat) :
    Orderly K M false (listGroups decoders pattern) :=
  (orderly_listGroupsStreaming permits decoders pattern).bind fun _ => .pure _

theorem orderly_listGroupDescriptions (pattern : Option Wildmat) :
    Orderly K M false (listGroupDescriptions decoders pattern) := by
  refine .command (permits.command _ rfl) fun line => .require (fun h => ?_) fun h => ?_
  · refine .blockWhere ?_ fun block => .pure _
    simp [readsBlock, successCode, Command.expectsDataBlock, h]
  · simp [readsBlock, successCode, Command.expectsDataBlock, h]

theorem orderly_groupCreationTimes (pattern : Option Wildmat) :
    Orderly K M false (groupCreationTimes decoders pattern) :=
  .blockCommand (permits.command _ rfl) (fun _ => rfl) fun _ _ => .pure _

theorem orderly_availableHeaderFields : Orderly K M false availableHeaderFields :=
  .blockCommand (permits.command _ rfl) (fun _ => rfl) fun _ _ => .pure _

theorem orderly_newGroups (since : UtcTime) : Orderly K M false (newGroups decoders since) :=
  .blockCommand (permits.command _ rfl) (fun _ => rfl) fun _ _ => .pure _

theorem orderly_help : Orderly K M false (help decoders) :=
  .blockCommand (permits.command _ rfl) (fun _ => rfl) fun _ _ => .pure _

theorem orderly_serverDate : Orderly K M false serverDate := by
  refine .command (permits.command _ rfl) fun line => .none rfl ?_
  split
  · refine .liftProto fun raw => ?_
    cases parseServerDate raw with
    | ok time => exact .pure time
    | error e => exact .throw _
  · exact .throw _

theorem orderly_cacheFormat (fmt : OverviewFmt) : Orderly K M false (cacheFormat fmt) :=
  .change (permits.overviewFmt fmt) (.pure _)

theorem orderly_overviewFormat : Orderly K M false (overviewFormat decoders) := by
  refine .get fun c => ?_
  cases c.overviewFmt with
  | some fmt => exact .pure _
  | none =>
      refine .command (permits.command _ rfl) fun line => ?_
      split
      · next h =>
          refine .blockWhere ?_ fun block => orderly_cacheFormat permits _
          simp [readsBlock, successCode, Command.expectsDataBlock, h]
      · next h =>
          refine .none ?_ (orderly_cacheFormat permits _)
          simp [readsBlock, successCode, Command.expectsDataBlock, h]

theorem orderly_fetchBlock (name : String) (spec : ArticleSpec) {cmd : Command}
    (hcmd : isOrdinary cmd = true) (hreads : ∀ code, readsBlock cmd code = (code == successCode cmd)) :
    Orderly K M false (fetchBlock name spec cmd (successCode cmd)) := by
  refine .get fun c => ?_
  split
  · exact .throw _
  · exact .blockCommand (permits.command _ hcmd) hreads fun _ _ => .pure _

theorem orderly_article (spec : ArticleSpec) : Orderly K M false (article spec) :=
  (orderly_fetchBlock permits _ _ rfl fun _ => rfl).bind fun _ => .pure _

theorem orderly_head (spec : ArticleSpec) : Orderly K M false (head spec) :=
  (orderly_fetchBlock permits _ _ rfl fun _ => rfl).bind fun _ => .pure _

theorem orderly_body (spec : ArticleSpec) : Orderly K M false (body spec) :=
  (orderly_fetchBlock permits _ _ rfl fun _ => rfl).bind fun _ => .pure _

theorem orderly_identify (name : String) (needsGroup : Bool) {cmd : Command}
    (hcmd : isOrdinary cmd = true) (hexpects : cmd.expectsDataBlock = false) :
    Orderly K M false (identify name needsGroup cmd) := by
  refine .get fun c => ?_
  split
  · exact .throw _
  · refine .command (permits.command _ hcmd) fun line => .none ?_ ?_
    · simp [readsBlock, hexpects]
    · split
      · exact .pure _
      · exact .throw _

/-! The commands for overviews, whose style is remembered. -/

section Overview

variable {range : Range} (hover : K (.over (.range range))) (hxover : K (.xover range))
  (hstyle : ∀ style : OverviewStyle, M fun c => { c with overviewStyle := style })

include hstyle

omit permits in
/-- The block of an overview is read once the style is noted. -/
theorem orderly_readOverview {pending : Bool} (hreads : pending = true) (style : OverviewStyle)
    (fmt : OverviewFmt) :
    Orderly K M pending (setOverviewStyle style >>= fun _ => readOverview decoders fmt) :=
  .change (hstyle style) (.blockWhere hreads fun _ => .pure _)

include hxover

omit permits in
theorem orderly_overviewXover (fmt : OverviewFmt) :
    Orderly K M false (overviewXover decoders range fmt) := by
  refine .command hxover fun line => ?_
  split
  · next h =>
      refine orderly_readOverview decoders hstyle ?_ _ _
      simp [readsBlock, successCode, Command.expectsDataBlock, h]
  · next h =>
      refine .none ?_ ?_
      · simp [readsBlock, successCode, Command.expectsDataBlock, h]
      · split
        · exact .change (hstyle .unavailable) (.throw _)
        · exact .throw _

include hover

omit permits in
theorem orderly_overviewStreaming (fmt : OverviewFmt) :
    Orderly K M false (overviewStreaming decoders range fmt) := by
  have hfallback := orderly_overviewXover decoders hxover hstyle fmt
  have hpreferred : Orderly K M false (Client.command (.over (.range range)) >>= fun line =>
      if line.code = 224 then do
        setOverviewStyle .over
        readOverview decoders fmt
      else if verbUnsupported line.code then do
        setOverviewStyle .xover
        overviewXover decoders range fmt
      else throw (.fromStatus "OVER" line)) := by
    refine .command hover fun line => ?_
    split
    · next h =>
        refine orderly_readOverview decoders hstyle ?_ _ _
        simp [readsBlock, successCode, Command.expectsDataBlock, h]
    · next h =>
        refine .none ?_ ?_
        · simp [readsBlock, successCode, Command.expectsDataBlock, h]
        · split
          · exact .change (hstyle .xover) hfallback
          · exact .throw _
  refine .get fun c => ?_
  cases c.resolveOverviewStyle with
  | unknown => exact hpreferred
  | «over» => exact hpreferred
  | xover => exact hfallback
  | unavailable => exact .throw _

theorem orderly_overview : Orderly K M false (overview decoders range) := by
  refine .get fun c => ?_
  split
  · exact .throw _
  · refine (orderly_overviewFormat permits decoders).bind fun fmt => ?_
    exact (orderly_overviewStreaming decoders hover hxover hstyle fmt).bind fun _ => .pure _

end Overview

section HeaderField

variable {field : HeaderName} {target : RangeOrId} (hhdr : K (.hdr field target))
  (hxhdr : K (.xhdr field target))
  (hstyle : ∀ style : HeaderStyle, M fun c => { c with headerStyle := style })

include hstyle

omit permits in
theorem orderly_readHeaderEntries {pending : Bool} (hreads : pending = true) (style : HeaderStyle) :
    Orderly K M pending (setHeaderStyle style >>= fun _ => readHeaderEntries decoders) :=
  .change (hstyle style) (.blockWhere hreads fun _ => .pure _)

include hxhdr

omit permits in
theorem orderly_headerFieldXhdr : Orderly K M false (headerFieldXhdr decoders field target) := by
  refine .command hxhdr fun line => ?_
  split
  · next h =>
      refine orderly_readHeaderEntries decoders hstyle ?_ _
      simpa [readsBlock, Command.expectsDataBlock] using h
  · next h =>
      refine .none ?_ ?_
      · simpa [readsBlock, Command.expectsDataBlock] using h
      · split
        · exact .change (hstyle .unavailable) (.throw _)
        · exact .throw _

include hhdr

omit permits in
theorem orderly_headerFieldStreaming :
    Orderly K M false (headerFieldStreaming decoders field target) := by
  have hfallback := orderly_headerFieldXhdr decoders hxhdr hstyle
  have hpreferred : Orderly K M false (Client.command (.hdr field target) >>= fun line =>
      if line.code = 225 ∨ line.code = 221 then do
        setHeaderStyle .hdr
        readHeaderEntries decoders
      else if verbUnsupported line.code then do
        setHeaderStyle .xhdr
        headerFieldXhdr decoders field target
      else throw (.fromStatus "HDR" line)) := by
    refine .command hhdr fun line => ?_
    split
    · next h =>
        refine orderly_readHeaderEntries decoders hstyle ?_ _
        simpa [readsBlock, Command.expectsDataBlock] using h
    · next h =>
        refine .none ?_ ?_
        · simpa [readsBlock, Command.expectsDataBlock] using h
        · split
          · exact .change (hstyle .xhdr) hfallback
          · exact .throw _
  refine .get fun c => ?_
  split
  · exact .throw _
  · cases c.resolveHeaderStyle with
    | unknown => exact hpreferred
    | hdr => exact hpreferred
    | xhdr => exact hfallback
    | unavailable => exact .throw _

omit permits in
theorem orderly_headerField : Orderly K M false (headerField decoders field target) :=
  (orderly_headerFieldStreaming decoders hhdr hxhdr hstyle).bind fun _ => .pure _

end HeaderField

/-! The commands that select a group. -/

section Selecting

variable (hgroup : ∀ summary, M fun c => { c with group := some summary })

include hgroup

omit permits in
theorem orderly_selectGroup (group : GroupName) (hcmd : K (.group group)) :
    Orderly K M false (selectGroup group) := by
  refine .command hcmd fun line => .none rfl ?_
  split
  · exact .liftProto fun summary => .change (hgroup summary) (.pure _)
  · exact .throw _

omit permits in
theorem orderly_articleNumbers (group : Option GroupName) (range : Option Range)
    (hcmd : K (.listGroup group range)) : Orderly K M false (articleNumbers group range) := by
  refine .get fun c => ?_
  split
  · exact .throw _
  · refine .command hcmd fun line => ?_
    split
    · next h =>
        have hreads : readsBlock (.listGroup group range) line.code = true := by
          simp [readsBlock, successCode, Command.expectsDataBlock, h]
        rw [hreads]
        exact .liftListing hcmd fun summary => .block fun block => .change (hgroup summary) (.pure _)
    · next h =>
        refine .none ?_ ?_
        · simp [readsBlock, successCode, Command.expectsDataBlock, h]
        · split
          · exact .throw _
          · exact .throw _

end Selecting

omit permits in
theorem orderly_post (base64 : Bytes → Str) (draft : Draft) (hcmd : K .post) :
    Orderly K M false (post base64 draft) := by
  refine .get fun c => ?_
  cases c.checkCanPost with
  | error e => exact .throw e
  | ok u =>
      refine .liftProto fun lines => .command hcmd fun line => .none rfl ?_
      split_ifs
      · refine .sendArticle hcmd fun line => ?_
        split_ifs
        · exact .pure _
        · exact .throw _
        · exact .throw _
      · exact .throw _
      · exact .throw _

end Operations

end Client
end Nntp.Client
