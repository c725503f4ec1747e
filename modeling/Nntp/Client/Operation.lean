import Nntp.Client.Orderly

/-!
# The connection after a call

Any operation on any client whose connection is usable: when is the connection still usable after a call that
reports no fatal error, with every data block read that a status line announced? An operation reads a block
only under the codes its command is known for, and `authenticate` drops what becomes of the `CAPABILITIES` it
ends with. Nothing else goes wrong.
-/

namespace Nntp.Client

open Nntp.Lib Nntp.Proto

/-- The operations of a client. `quit` is none of them: it gives the client up. -/
inductive Operation where
  | handshake
  | refreshCapabilities
  | enterReaderMode
  | authenticate (username : Str) (password : Option Str) (allowPlaintext : Bool)
  | selectGroup (group : GroupName)
  | listGroups (pattern : Option Wildmat)
  | listGroupsStreaming (pattern : Option Wildmat)
  | listGroupDescriptions (pattern : Option Wildmat)
  | overviewFormat
  | overview (range : Range)
  | overviewStreaming (range : Range) (fmt : OverviewFmt)
  | article (spec : ArticleSpec)
  | head (spec : ArticleSpec)
  | body (spec : ArticleSpec)
  | stat (spec : ArticleSpec)
  | serverDate
  | help
  | headerFieldStreaming (field : HeaderName) (target : RangeOrId)
  | headerField (field : HeaderName) (target : RangeOrId)
  | articleNumbers (group : Option GroupName) (range : Option Range)
  | nextArticle
  | previousArticle
  | groupCreationTimes (pattern : Option Wildmat)
  | availableHeaderFields
  | newGroups (since : UtcTime)
  | post (draft : Draft)

section Perform

variable {σ : Type} [Peer σ] {α : Type}

/-- An operation without the value it returns. -/
def performed (x : ClientM σ α) : ClientM σ Unit := do
  let _ ← x
  pure ()

theorem exec_performed (x : ClientM σ α) (c : Client σ) : ((performed x).exec c).2 = (x.exec c).2 :=
  Fallible.exec_bind_pure x _ c

/-- A call of an operation. -/
def Operation.perform (decoders : Decoders) (base64 : Bytes → Str) : Operation → ClientM σ Unit
  | handshake => Client.handshake decoders
  | refreshCapabilities => performed (Client.refreshCapabilities decoders)
  | enterReaderMode => Client.enterReaderMode
  | authenticate username password allowPlaintext =>
      Client.authenticate decoders username password allowPlaintext
  | selectGroup group => performed (Client.selectGroup group)
  | listGroups pattern => performed (Client.listGroups decoders pattern)
  | listGroupsStreaming pattern => performed (Client.listGroupsStreaming decoders pattern)
  | listGroupDescriptions pattern => performed (Client.listGroupDescriptions decoders pattern)
  | overviewFormat => performed (Client.overviewFormat decoders)
  | overview range => performed (Client.overview decoders range)
  | overviewStreaming range fmt => performed (Client.overviewStreaming decoders range fmt)
  | article spec => performed (Client.article spec)
  | head spec => performed (Client.head spec)
  | body spec => performed (Client.body spec)
  | stat spec => performed (Client.stat spec)
  | serverDate => performed Client.serverDate
  | help => performed (Client.help decoders)
  | headerFieldStreaming field target => performed (Client.headerFieldStreaming decoders field target)
  | headerField field target => performed (Client.headerField decoders field target)
  | articleNumbers group range => performed (Client.articleNumbers group range)
  | nextArticle => performed Client.nextArticle
  | previousArticle => performed Client.previousArticle
  | groupCreationTimes pattern => performed (Client.groupCreationTimes decoders pattern)
  | availableHeaderFields => performed Client.availableHeaderFields
  | newGroups since => performed (Client.newGroups decoders since)
  | post draft => performed (Client.post base64 draft)

end Perform

namespace Client

variable {σ : Type} [Peer σ] {α : Type} (decoders : Decoders) (base64 : Bytes → Str)

/-- A session: the operations one after the other, whatever becomes of each. -/
def performAll (c : Client σ) (session : List Operation) : Client σ :=
  session.foldl (fun c operation => ((operation.perform decoders base64).exec c).2) c

theorem performAll_append (c : Client σ) (session more : List Operation) :
    performAll decoders base64 c (session ++ more) =
      performAll decoders base64 (performAll decoders base64 c session) more :=
  List.foldl_append

/-- What an operation sends and changes besides what all of them may. `authenticate` is not orderly: it drops
the outcome of a part of it. -/
def Operation.Allowed (K : Command → Prop) (M : (Client σ → Client σ) → Prop) : Operation → Prop
  | .authenticate _ _ _ => False
  | .selectGroup group => K (.group group) ∧ ∀ summary, M fun c => { c with group := some summary }
  | .articleNumbers group range =>
      K (.listGroup group range) ∧ ∀ summary, M fun c => { c with group := some summary }
  | .post _ => K .post
  | .overview range | .overviewStreaming range _ =>
      K (.over (.range range)) ∧ K (.xover range) ∧
        ∀ style : OverviewStyle, M fun c => { c with overviewStyle := style }
  | .headerField field target | .headerFieldStreaming field target =>
      K (.hdr field target) ∧ K (.xhdr field target) ∧
        ∀ style : HeaderStyle, M fun c => { c with headerStyle := style }
  | _ => True

section Orderly

variable {K : Command → Prop} {M : (Client σ → Client σ) → Prop}

theorem Orderly.performed {x : ClientM σ α} (h : Orderly K M false x) :
    Orderly K M false (performed x) :=
  h.bind fun _ => .pure _

/-- **Every operation is orderly**, but for `authenticate`. -/
theorem orderly_perform (permits : Permits K M) {operation : Operation}
    (h : Operation.Allowed K M operation) :
    Orderly K M false (operation.perform decoders base64 : ClientM σ Unit) := by
  cases operation with
  | handshake => exact orderly_handshake permits decoders
  | refreshCapabilities => exact (orderly_refreshCapabilities permits decoders).performed
  | enterReaderMode => exact orderly_enterReaderMode permits
  | authenticate username password allow => exact h.elim
  | selectGroup group => exact (orderly_selectGroup h.2 group h.1).performed
  | listGroups pattern => exact (orderly_listGroups permits decoders pattern).performed
  | listGroupsStreaming pattern => exact (orderly_listGroupsStreaming permits decoders pattern).performed
  | listGroupDescriptions pattern =>
      exact (orderly_listGroupDescriptions permits decoders pattern).performed
  | overviewFormat => exact (orderly_overviewFormat permits decoders).performed
  | overview range => exact (orderly_overview permits decoders h.1 h.2.1 h.2.2).performed
  | overviewStreaming range fmt =>
      exact (orderly_overviewStreaming decoders h.1 h.2.1 h.2.2 fmt).performed
  | article spec => exact (orderly_article permits spec).performed
  | head spec => exact (orderly_head permits spec).performed
  | body spec => exact (orderly_body permits spec).performed
  | stat spec => exact (orderly_identify permits _ _ rfl rfl).performed
  | serverDate => exact (orderly_serverDate permits).performed
  | help => exact (orderly_help permits decoders).performed
  | headerFieldStreaming field target =>
      exact (orderly_headerFieldStreaming decoders h.1 h.2.1 h.2.2).performed
  | headerField field target => exact (orderly_headerField decoders h.1 h.2.1 h.2.2).performed
  | articleNumbers group range => exact (orderly_articleNumbers h.2 group range h.1).performed
  | nextArticle => exact (orderly_identify permits _ _ rfl rfl).performed
  | previousArticle => exact (orderly_identify permits _ _ rfl rfl).performed
  | groupCreationTimes pattern => exact (orderly_groupCreationTimes permits decoders pattern).performed
  | availableHeaderFields => exact (orderly_availableHeaderFields permits).performed
  | newGroups since => exact (orderly_newGroups permits decoders since).performed
  | post draft => exact (orderly_post base64 draft h).performed

end Orderly

/-- No command is out of the question for a careful operation, and no change that is none of the
connection. -/
theorem permits_local : Permits (fun _ => True) (Local (σ := σ)) where
  command _ _ := trivial
  capabilities _ := ⟨fun _ => rfl, fun _ => rfl⟩
  postingAllowed _ := ⟨fun _ => rfl, fun _ => rfl⟩
  authenticated := ⟨fun _ => rfl, fun _ => rfl⟩
  overviewFmt _ := ⟨fun _ => rfl, fun _ => rfl⟩

/-- **Every operation is careful**, but for the one that drops the outcome of a part of it. -/
theorem careful_perform {operation : Operation}
    (h : ∀ username password allow, operation ≠ .authenticate username password allow) :
    Careful (operation.perform decoders base64 : ClientM σ Unit) := by
  refine (orderly_perform decoders base64 permits_local ?_).careful fun _ hlocal => hlocal
  cases operation with
  | authenticate username password allow => exact absurd rfl (h username password allow)
  | selectGroup group => exact ⟨trivial, fun _ => ⟨fun _ => rfl, fun _ => rfl⟩⟩
  | articleNumbers group range => exact ⟨trivial, fun _ => ⟨fun _ => rfl, fun _ => rfl⟩⟩
  | overview range => exact ⟨trivial, trivial, fun _ => ⟨fun _ => rfl, fun _ => rfl⟩⟩
  | overviewStreaming range fmt => exact ⟨trivial, trivial, fun _ => ⟨fun _ => rfl, fun _ => rfl⟩⟩
  | headerField field target => exact ⟨trivial, trivial, fun _ => ⟨fun _ => rfl, fun _ => rfl⟩⟩
  | headerFieldStreaming field target => exact ⟨trivial, trivial, fun _ => ⟨fun _ => rfl, fun _ => rfl⟩⟩
  | _ => trivial

/-! ## Alignment -/

/-- **The connection is still usable**: everything that was sent is answered, the stream stands right behind
the last response, and every data block that a status line announced was read to its terminator. -/
def Aligned (c c' : Client σ) : Prop :=
  ∃ exchanges, Took c c' exchanges ∧
    ∀ e ∈ exchanges, announcesBlock e.command e.line.code = true → e.block.isSome = true

/-- The responses received since. -/
def received (c c' : Client σ) : List Exchange := c'.heard.drop c.heard.length

/-- No status line received since announces a block under a code behind which the client reads none. -/
def NoStrayBlock (c c' : Client σ) : Prop :=
  ∀ e ∈ received c c', announcesBlock e.command e.line.code = true →
    readsBlock e.command e.line.code = true

/-- Behind regular responses it is the codes that decide. -/
theorem aligned_iff_of_regular {c c' : Client σ} {exchanges : List Exchange}
    (h : Took c c' exchanges) (hreg : ∀ e ∈ exchanges, e.Regular) :
    Aligned c c' ↔ NoStrayBlock c c' := by
  unfold NoStrayBlock received
  rw [h.unique]
  constructor
  · rintro ⟨exchanges', h', hread⟩ e he hannounced
    have hsame := h'.unique.symm.trans h.unique
    subst hsame
    rw [← hreg e he]
    exact hread e he hannounced
  · intro hcodes
    refine ⟨exchanges, h, fun e he hannounced => ?_⟩
    rw [hreg e he]
    exact hcodes e he hannounced

/-! ## The outcome that is dropped -/

def capabilitiesWire : Bytes := asBytes "CAPABILITIES".toList ++ [0x0D, 0x0A]

theorem toWire_capabilities : (Command.capabilities none).toWire = .ok capabilitiesWire := by rfl

/-- `CAPABILITIES` would be taken and answered: by a status line within the limits, and by a whole block
behind it if its code announces the list. -/
def AnswersCapabilities (c : Connection σ) : Prop :=
  (Peer.react c.stream capabilitiesWire).1 = .ok () ∧
    ∃ line tail, Connection.BringsStatus c.limits line
        (c.upcoming ++ events (Connection.feed c.stream [capabilitiesWire]).2) tail ∧
      (line.code = 101 → c.BringsBlock tail)

theorem exec_command_error {cmd : Command} {c c' : Client σ} {e : ClientError}
    (h : (command cmd).exec c = (.error e, c')) :
    e.isConnectionFatal = true ∧ c'.heard = c.heard ∧
      (Connection.command cmd).exec c.connection = (.error e, c'.connection) := by
  rcases Fallible.exec_bind_cases h with ⟨line, mid, _, hnote⟩ | ⟨e', herr, he⟩
  · cases hnote
  · cases he
    rw [onConnection_exec] at herr
    obtain ⟨hresult, hafter⟩ := Prod.mk.inj herr
    cases hafter
    exact ⟨Connection.onlyFatal_command cmd c.connection e _ (Prod.ext hresult rfl), rfl,
      Prod.ext hresult rfl⟩

theorem exec_command_ok {cmd : Command} {c c' : Client σ} {line : StatusLine}
    (h : (command cmd).exec c = (.ok line, c')) :
    (Connection.command cmd).exec c.connection = (.ok line, c'.connection) ∧
      c' = { c with
        connection := c'.connection
        heard := c.heard ++ [⟨cmd, cmd.toWire.toOption.getD [], line, none⟩] } := by
  rcases Fallible.exec_bind_cases h with ⟨line', mid, hx, hnote⟩ | ⟨e', _, he⟩
  · cases hnote
    rw [onConnection_exec] at hx
    obtain ⟨hresult, hafter⟩ := Prod.mk.inj hx
    cases hafter
    exact ⟨Prod.ext hresult rfl, rfl⟩
  · cases he

theorem exec_readBlock_error {c c' : Client σ} {e : ClientError}
    (h : (readBlock : ClientM σ _).exec c = (.error e, c')) :
    e.isConnectionFatal = true ∧ c'.heard = c.heard ∧
      (Connection.readBlockStreaming : Conn σ _).exec c.connection = (.error e, c'.connection) := by
  rcases Fallible.exec_bind_cases h with ⟨line, mid, _, hnote⟩ | ⟨e', herr, he⟩
  · cases hnote
  · cases he
    rw [onConnection_exec] at herr
    obtain ⟨hresult, hafter⟩ := Prod.mk.inj herr
    cases hafter
    exact ⟨Connection.onlyReads_readBlock.onlyFatal c.connection e _ (Prod.ext hresult rfl), rfl,
      Prod.ext hresult rfl⟩

theorem exec_readBlock_ok {c c' : Client σ} {block : List Bytes}
    (h : (readBlock : ClientM σ _).exec c = (.ok block, c')) :
    (Connection.readBlockStreaming : Conn σ _).exec c.connection = (.ok block, c'.connection) := by
  rcases Fallible.exec_bind_cases h with ⟨lines, mid, hx, hnote⟩ | ⟨e', _, he⟩
  · cases hnote
    rw [onConnection_exec] at hx
    obtain ⟨hresult, hafter⟩ := Prod.mk.inj hx
    cases hafter
    exact Prod.ext hresult rfl
  · cases he

theorem not_nonFatal {e : ClientError} (h : e.isConnectionFatal = true) :
    ¬ NonFatal (.error e : Except ClientError α) := by
  intro hnot
  rw [hnot e rfl] at h
  cases h

theorem nonFatal_ok (a : α) : NonFatal (.ok a : Except ClientError α) := fun e he => by cases he

/-- What is answered is answered with this line, and read. -/
theorem AnswersCapabilities.command {c : Connection σ} (h : AnswersCapabilities c)
    (hsync : c.desynchronised = false) :
    ∃ line c', (Connection.command (.capabilities none)).exec c = (.ok line, c') ∧
      (line.code = 101 → ∃ block c'', Connection.readBlockStreaming.exec c' = (.ok block, c'')) := by
  obtain ⟨htaken, line, tail, hbrings, hblock⟩ := h
  obtain ⟨c', hexec, hreplied, htail⟩ :=
    Connection.exec_command_of_brings hsync toWire_capabilities htaken hbrings
  refine ⟨line, c', hexec, fun hcode => ?_⟩
  have hsync' : c'.desynchronised = false := by
    rw [hreplied.2]
    exact hsync
  apply Connection.exec_readBlock_of_brings hsync'
  rw [hreplied.bringsBlock, htail]
  exact hblock hcode

/-- What asking for the capabilities comes to: nothing is answered, or what is answered is not read to its
end, or there is no reason to give the connection up. -/
theorem refreshCapabilities_cases {c c' : Client σ} {r : Except ClientError Capabilities}
    (husable : c.connection.desynchronised = false)
    (h : (refreshCapabilities decoders).exec c = (r, c')) :
    (¬ NonFatal r ∧ ¬ AnswersCapabilities c.connection ∧ c'.heard = c.heard ∧
        c'.connection.written = c.connection.written ++ [capabilitiesWire]) ∨
      (¬ NonFatal r ∧ ¬ AnswersCapabilities c.connection ∧
        ∃ e, c'.heard = c.heard ++ [e] ∧ announcesBlock e.command e.line.code = true ∧ e.block = none) ∨
      (NonFatal r ∧ AnswersCapabilities c.connection) := by
  rcases Fallible.exec_bind_cases h with ⟨line, mid, hcommand, hrest⟩ | ⟨e, herr, rfl⟩
  · obtain ⟨hconn, hmid⟩ := exec_command_ok hcommand
    obtain ⟨sent, hwire, _, hreplied, hbrings⟩ := Connection.command_ok husable hconn
    rw [toWire_capabilities] at hwire
    cases hwire
    have hsync : mid.connection.desynchronised = false := by
      rw [hreplied.2]
      exact husable
    by_cases hcode : line.code = 101
    · rw [if_pos hcode] at hrest
      rcases Fallible.exec_bind_cases hrest with ⟨block, after, hread, hset⟩ | ⟨e, herr, rfl⟩
      · cases hset
        refine Or.inr (Or.inr ⟨nonFatal_ok _, hreplied.1, line, _, hbrings, fun _ => ?_⟩)
        rw [← hreplied.bringsBlock]
        exact (Connection.readBlock_ok hsync (exec_readBlock_ok hread)).1
      · obtain ⟨hfatal, hheard, hread⟩ := exec_readBlock_error herr
        refine Or.inr (Or.inl ⟨not_nonFatal hfatal, fun hanswers => ?_,
          ⟨.capabilities none, capabilitiesWire, line, none⟩, ?_, ?_, rfl⟩)
        · obtain ⟨line', c₁, hexec, hblock⟩ := hanswers.command husable
          rw [hconn] at hexec
          cases hexec
          obtain ⟨block, c₂, hok⟩ := hblock hcode
          rw [hread] at hok
          cases hok
        · rw [hheard, hmid]
          rfl
        · show announcesBlock (.capabilities none) line.code = true
          rw [hcode]
          rfl
    · rw [if_neg hcode] at hrest
      refine Or.inr (Or.inr ⟨?_, hreplied.1, line, _, hbrings, fun h => absurd h hcode⟩)
      split at hrest
      · cases hrest
        exact nonFatal_ok _
      · cases hrest
        intro e he
        cases he
        rfl
  · obtain ⟨hfatal, hheard, hexec⟩ := exec_command_error herr
    refine Or.inl ⟨not_nonFatal hfatal, fun hanswers => ?_, hheard, ?_⟩
    · obtain ⟨line, c₁, hok, _⟩ := hanswers.command husable
      rw [hexec] at hok
      cases hok
    · have hwritten := Connection.command_written husable toWire_capabilities
      rw [hexec] at hwritten
      exact hwritten

/-- Where the outcome is fatal, dropping it leaves a connection that is not usable. -/
theorem not_aligned_of_dropped {c mid c' : Client σ} {r : Except ClientError Capabilities}
    {exchanges : List Exchange} (htook : Took c mid exchanges)
    (h : (refreshCapabilities decoders).exec mid = (r, c')) (hfatal : ¬ NonFatal r) : ¬ Aligned c c' := by
  rintro ⟨all, hall, hread⟩
  have hheard := hall.heard
  rcases refreshCapabilities_cases decoders htook.usable h with ⟨_, _, hsame, hwritten⟩ |
    ⟨_, _, e, hnoted, hannounced, hnone⟩ | ⟨hnon, _⟩
  · -- one octet string more was sent than was answered
    rw [hsame, htook.heard, List.append_cancel_left_eq] at hheard
    subst hheard
    rw [hall.written, htook.written, List.append_assoc, List.append_cancel_left_eq] at hwritten
    have hlen := congrArg List.length hwritten
    simp at hlen
  · rw [hnoted, htook.heard, List.append_assoc, List.append_cancel_left_eq] at hheard
    have hsome := hread e (hheard ▸ List.mem_append_right _ List.mem_cons_self) hannounced
    rw [hnone] at hsome
    cases hsome
  · exact hfatal hnon

end Client

/-- Nothing is lost with the outcome that an operation drops: if the password of `authenticate` is accepted,
the `CAPABILITIES` it ends with is answered whole. -/
def Operation.DropsNothing {σ : Type} [Peer σ] (c : Client σ) : Operation → Prop
  | authenticate username password allowPlaintext => ∀ mid,
      (Client.login username password allowPlaintext).exec c = (.ok true, mid) →
        Client.AnswersCapabilities mid.connection
  | _ => True

namespace Client

variable {σ : Type} [Peer σ] (decoders : Decoders) (base64 : Bytes → Str)

/-- `authenticate` leaves the connection aligned where it is answered to its end. -/
theorem authenticate_aligned_iff {c c' : Client σ} {username : Str} {password : Option Str}
    {allowPlaintext : Bool} {r : Except ClientError Unit}
    (husable : c.connection.desynchronised = false)
    (h : (authenticate decoders username password allowPlaintext).exec c = (r, c')) (hr : NonFatal r) :
    Aligned c c' ↔ NoStrayBlock c c' ∧
      (Operation.authenticate username password allowPlaintext).DropsNothing c := by
  have hlogin := (orderly_login permits_local username password allowPlaintext).careful
    fun (_ : Client σ → Client σ) hlocal => hlocal
  rcases Fallible.exec_bind_cases h with ⟨changed, mid, hok, hrest⟩ | ⟨e, herr, rfl⟩
  · obtain ⟨exchanges, htook, hreg⟩ := hlogin c _ mid husable hok (nonFatal_ok _)
    cases changed with
    | false =>
        have hmid : mid = c' := congrArg Prod.snd hrest
        subst hmid
        rw [aligned_iff_of_regular htook hreg, iff_self_and]
        intro _ mid' hmid'
        rw [hok] at hmid'
        cases hmid'
    | true =>
        rcases hrefresh : (refreshCapabilities decoders).exec mid with ⟨r', c₁⟩
        have hc' : c₁ = c' := by
          have := congrArg Prod.snd hrest
          rw [if_pos rfl, Fallible.exec_ignoring, hrefresh] at this
          exact this
        subst hc'
        have hdrops : (Operation.authenticate username password allowPlaintext).DropsNothing c ↔
            AnswersCapabilities mid.connection := by
          constructor
          · exact fun hdrops => hdrops mid hok
          · intro hanswers mid' hmid'
            rw [hok] at hmid'
            cases hmid'
            exact hanswers
        rw [hdrops]
        by_cases hnon : NonFatal r'
        · obtain ⟨more, htook', hreg'⟩ :=
            (orderly_refreshCapabilities permits_local decoders).careful (fun _ hlocal => hlocal)
              mid r' c₁ htook.usable hrefresh hnon
          rw [aligned_iff_of_regular (htook.trans htook') (List.forall_mem_append.mpr ⟨hreg, hreg'⟩),
            iff_self_and]
          intro _
          rcases refreshCapabilities_cases decoders htook.usable hrefresh with ⟨hnot, _⟩ |
            ⟨hnot, _⟩ | ⟨_, hanswers⟩
          · exact absurd hnon hnot
          · exact absurd hnon hnot
          · exact hanswers
        · have hnot : ¬ AnswersCapabilities mid.connection := by
            rcases refreshCapabilities_cases decoders htook.usable hrefresh with ⟨_, hnot, _⟩ |
              ⟨_, hnot, _⟩ | ⟨hyes, _⟩
            · exact hnot
            · exact hnot
            · exact absurd hyes hnon
          simp [not_aligned_of_dropped decoders htook hrefresh hnon, hnot]
  · have hr' : NonFatal (.error e : Except ClientError Bool) := fun e' he' => by
      cases he'
      exact hr e rfl
    obtain ⟨exchanges, htook, hreg⟩ := hlogin c _ c' husable herr hr'
    rw [aligned_iff_of_regular htook hreg, iff_self_and]
    intro _ mid hmid
    rw [herr] at hmid
    cases hmid

/-- **When a call that reports no fatal error leaves the connection usable.** -/
theorem nonFatal_aligned_iff {operation : Operation} {c c' : Client σ} {r : Except ClientError Unit}
    (husable : c.connection.desynchronised = false)
    (h : (operation.perform decoders base64).exec c = (r, c')) (hr : NonFatal r) :
    Aligned c c' ↔ NoStrayBlock c c' ∧ operation.DropsNothing c := by
  by_cases hauth : ∃ username password allow, operation = .authenticate username password allow
  · obtain ⟨username, password, allow, rfl⟩ := hauth
    exact authenticate_aligned_iff decoders husable h hr
  · obtain ⟨exchanges, htook, hreg⟩ := careful_perform decoders base64
      (fun username password allow heq => hauth ⟨username, password, allow, heq⟩) c r c' husable h hr
    rw [aligned_iff_of_regular htook hreg, iff_self_and]
    intro _
    cases operation <;> first | trivial | exact absurd ⟨_, _, _, rfl⟩ hauth

/-- A client of a server that sends these octets, whatever it is told, and then closes the connection. -/
def scripted (octets : Bytes) : Client Unit where
  connection :=
    { stream := ()
      buffer := []
      reads := [.data octets]
      written := []
      limits := .default
      desynchronised := false
      cancel := none }
  greeting := { code := 200, text := [], postingAllowed := true }
  encrypted := true

/-- Decoders for plain text. -/
def plainDecoders : Decoders where
  windows1252 bytes := bytes.map asciiChar
  decodeHeaderValue bytes := bytes.map asciiChar
  parseDate _ := none

def miscTest : GroupName := .miscTest

/-- A group that is selected. -/
theorem selectGroup_aligned :
    Aligned (scripted (asBytes "211 1 1 1 misc.test\r\n".toList))
        (((Operation.selectGroup miscTest).perform plainDecoders fun _ => []).exec
          (scripted (asBytes "211 1 1 1 misc.test\r\n".toList))).2 ↔
      NoStrayBlock (scripted (asBytes "211 1 1 1 misc.test\r\n".toList))
        (((Operation.selectGroup miscTest).perform plainDecoders fun _ => []).exec
          (scripted (asBytes "211 1 1 1 misc.test\r\n".toList))).2 ∧
      (Operation.selectGroup miscTest).DropsNothing
        (scripted (asBytes "211 1 1 1 misc.test\r\n".toList)) := by
  refine nonFatal_aligned_iff plainDecoders (fun _ => []) rfl Prod.mk.eta.symm ?_
  have hok : (((Operation.selectGroup miscTest).perform plainDecoders fun _ => []).exec
      (scripted (asBytes "211 1 1 1 misc.test\r\n".toList))).1 = .ok () := by decide +kernel
  rw [hok]
  exact nonFatal_ok ()

/-- A block that nobody asked for, behind the answer to `GROUP`. -/
def strayOctets : Bytes := asBytes "220 0 <a@b> article\r\nFrom: a@b\r\n\r\nbody\r\n.\r\n".toList

/-- A login whose password is accepted by a server that then closes the connection. -/
def loginOctets : Bytes := asBytes "381 password required\r\n281 accepted\r\n".toList

/-- **Two calls that report nothing fatal and leave a connection that is not usable**: `GROUP` answered with
an article, which stays in the stream, and `authenticate` on a connection that is closed behind the password,
which succeeds. -/
theorem notFatal_not_aligned :
    ((((Operation.selectGroup miscTest).perform plainDecoders fun _ => []).exec
          (scripted strayOctets)).1 = .error (.server "GROUP" 220 "0 <a@b> article".toList) ∧
        (ClientError.server "GROUP" 220 "0 <a@b> article".toList).isConnectionFatal = false ∧
        ¬ Aligned (scripted strayOctets)
          (((Operation.selectGroup miscTest).perform plainDecoders fun _ => []).exec
            (scripted strayOctets)).2) ∧
      (((Operation.authenticate "user".toList (some "pass".toList) false).perform plainDecoders
          fun _ => []).exec (scripted loginOctets)).1 = .ok () ∧
      ¬ Aligned (scripted loginOctets)
        (((Operation.authenticate "user".toList (some "pass".toList) false).perform plainDecoders
          fun _ => []).exec (scripted loginOctets)).2 := by
  refine ⟨⟨by decide +kernel, rfl, ?_⟩, by decide +kernel, ?_⟩
  · rintro ⟨exchanges, htook, hread⟩
    have hheard : ((((Operation.selectGroup miscTest).perform plainDecoders fun _ => []).exec
        (scripted strayOctets)).2.heard.map fun e => (e.line.code, e.block.isSome)) = [(220, false)] := by
      decide +kernel
    have hall : exchanges.map (fun e => (e.line.code, e.block.isSome)) = [(220, false)] := by
      rw [htook.heard] at hheard
      exact hheard
    obtain ⟨e, rfl, he⟩ := List.map_eq_singleton_iff.mp hall
    obtain ⟨hcode, hblock⟩ := Prod.mk.inj he
    have hsome := hread e List.mem_cons_self (by unfold announcesBlock; rw [hcode]; rfl)
    rw [hblock] at hsome
    cases hsome
  · rintro ⟨exchanges, htook, _⟩
    have hlost : (((Operation.authenticate "user".toList (some "pass".toList) false).perform
        plainDecoders fun _ => []).exec (scripted loginOctets)).2.connection.desynchronised = true := by
      decide +kernel
    rw [htook.usable] at hlost
    cases hlost

end Client
end Nntp.Client
