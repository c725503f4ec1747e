import Nntp.Client.Connector

/-!
# What crosses the network in the clear

The octets a client hands to its transport, over whole sessions: which commands they can be the encoding of,
and that a client that is on TLS stays on it.
-/

namespace Nntp.Client

open Nntp.Lib Nntp.Proto

/-! ## What is written -/

namespace Connection

variable {σ : Type} [Peer σ] {S : Bytes → Prop} {α : Type}

/-- Since `start`, only octets of one kind were written, each of them to the stream. -/
def Wrote (S : Bytes → Prop) (start c : Connection σ) : Prop :=
  ∃ writes : List Bytes, (∀ octets ∈ writes, S octets) ∧ c.written = start.written ++ writes ∧
    c.stream = (feed start.stream writes).1

theorem Wrote.refl (c : Connection σ) : Wrote S c c :=
  ⟨[], List.forall_mem_nil _, (List.append_nil _).symm, rfl⟩

theorem Wrote.trans {start mid c : Connection σ} (h : Wrote S start mid) (h' : Wrote S mid c) :
    Wrote S start c := by
  obtain ⟨writes, hkind, hwritten, hstream⟩ := h
  obtain ⟨more, hkind', hwritten', hstream'⟩ := h'
  refine ⟨writes ++ more, List.forall_mem_append.mpr ⟨hkind, hkind'⟩, ?_, ?_⟩
  · rw [hwritten', hwritten, List.append_assoc]
  · rw [hstream', hstream, feed_append]

theorem wrote_of_onlyReads {x : Conn σ α} (h : OnlyReads x) (c : Connection σ) :
    Wrote S c (x.exec c).2 :=
  ⟨[], List.forall_mem_nil _, by rw [h.written, List.append_nil], h.stream c⟩

theorem wrote_write {octets : Bytes} (h : S octets) (c : Connection σ) :
    Wrote S c ((write octets).exec c).2 := by
  refine ⟨[octets], List.forall_mem_singleton.mpr h, ?_, ?_⟩ <;> rw [exec_write]

theorem wrote_command {cmd : Command} (h : ∀ sent, cmd.toWire = .ok sent → S sent) (c : Connection σ) :
    Wrote S c ((command cmd).exec c).2 := by
  refine Fallible.exec_bind_relates (R := Wrote S) Wrote.trans (fun c => ?_)
    (fun _ => wrote_of_onlyReads onlyReads_readStatus) c
  refine Fallible.exec_bind_relates (R := Wrote S) Wrote.trans (wrote_of_onlyReads onlyReads_ensureSynchronised)
    (fun _ c => ?_) c
  split
  · next sent hwire => exact wrote_write (h sent hwire) c
  · exact .refl c

theorem wrote_sendBlock {lines : List Bytes} (h : S (wireBlock lines)) (c : Connection σ) :
    Wrote S c ((sendBlock lines).exec c).2 :=
  Fallible.exec_bind_relates (R := Wrote S) Wrote.trans (wrote_of_onlyReads onlyReads_ensureSynchronised)
    (fun _ => wrote_write h) c

end Connection

namespace Client

section Keeps

variable {σ : Type} [Peer σ] {I : Client σ → Prop} (decoders : Decoders) (base64 : Bytes → Str)

/-- An invariant that says nothing of what the client heard, and that every use of the connection of some kind
keeps. -/
structure Withstands (I : Client σ → Prop) (use : Connection σ → Connection σ → Prop) : Prop where
  connection : ∀ c connection, use c.connection connection → I c → I { c with connection }
  heard : ∀ c heard, I c → I { c with heard }

omit [Peer σ] in
theorem Withstands.onConnection {use : Connection σ → Connection σ → Prop} (h : Withstands I use) {α : Type}
    {x : Conn σ α} (hx : ∀ c, use c (x.exec c).2) : Fallible.Keeps I (onConnection x) :=
  fun c hc => h.connection c _ (hx c.connection) hc

variable {S : Bytes → Prop} (h : Withstands I (Connection.Wrote S))

include h

theorem keeps_command {cmd : Command} (hcmd : ∀ sent, cmd.toWire = .ok sent → S sent) :
    Fallible.Keeps I (command cmd) :=
  (h.onConnection (Connection.wrote_command hcmd)).bind fun _ =>
    (Fallible.Keeps.modify fun c hc => h.heard c _ hc).bind fun _ => .pure _

theorem keeps_readBlock : Fallible.Keeps I (readBlock (σ := σ)) :=
  (h.onConnection (Connection.wrote_of_onlyReads Connection.onlyReads_readBlock)).bind fun _ =>
    (Fallible.Keeps.modify fun c hc => h.heard c _ hc).bind fun _ => .pure _

theorem keeps_sendArticle {lines : List Bytes} (hlines : S (Connection.wireBlock lines)) :
    Fallible.Keeps I (sendArticle lines) := by
  refine (h.onConnection fun c => ?_).bind fun _ =>
    (Fallible.Keeps.modify fun c hc => h.heard c _ hc).bind fun _ => .pure _
  exact Fallible.exec_bind_relates (R := Connection.Wrote S) Connection.Wrote.trans
    (Connection.wrote_sendBlock hlines) (fun _ => Connection.wrote_of_onlyReads Connection.onlyReads_readStatus) c

/-- The opening negotiation asks for nothing but the capabilities and the reader mode. -/
theorem keeps_refreshCapabilities (hS : S capabilitiesWire)
    (hset : ∀ c capabilities, I c → I { c with capabilities }) :
    Fallible.Keeps I (refreshCapabilities decoders) := by
  have hcommand : ∀ sent, (Command.capabilities none).toWire = .ok sent → S sent := by
    intro sent hwire
    rw [toWire_capabilities] at hwire
    cases hwire
    exact hS
  have hstore : ∀ capabilities, Fallible.Keeps I (setCapabilities (σ := σ) capabilities) := fun capabilities =>
    (Fallible.Keeps.modify fun c hc => hset c capabilities hc).bind fun _ => .pure _
  refine (keeps_command h hcommand).bind fun line => ?_
  split
  · exact (keeps_readBlock h).bind fun _ => hstore _
  · split
    · exact hstore _
    · exact .throw _

theorem keeps_enterReaderMode (hS : ∀ sent, Command.modeReader.toWire = .ok sent → S sent)
    (hset : ∀ c greeting, I c → I { c with greeting }) : Fallible.Keeps I (enterReaderMode (σ := σ)) := by
  have hstore : ∀ allowed, Fallible.Keeps I (setPostingAllowed (σ := σ) allowed) := fun _ =>
    .modify fun c hc => hset c _ hc
  refine (keeps_command h hS).bind fun line => ?_
  split_ifs
  · exact hstore true
  · exact hstore false
  · exact .pure _
  · exact .throw _
  · exact .pure _

theorem keeps_handshake (hS : S capabilitiesWire) (hS' : ∀ sent, Command.modeReader.toWire = .ok sent → S sent)
    (hset : ∀ c capabilities, I c → I { c with capabilities })
    (hset' : ∀ c greeting, I c → I { c with greeting }) : Fallible.Keeps I (handshake decoders) := by
  have hrefresh := keeps_refreshCapabilities decoders h hS hset
  refine hrefresh.bind fun _ => .get_bind fun c hc => ?_
  split
  · have hagain : Fallible.Keeps I (refreshCapabilities decoders >>= fun _ => (pure () : ClientM σ Unit)) :=
      hrefresh.bind fun _ => .pure _
    exact ((keeps_enterReaderMode h hS' hset').bind fun _ => hagain) c hc
  · exact hc

end Keeps

/-! ## TLS is not left -/

variable {σ τ : Type}

/-- What was written in the clear. -/
def clear (c : Client (Transport σ τ)) : List Bytes :=
  match c.connection.stream with
  | .plain _ => c.connection.written
  | .tls _ clear => clear

variable [Peer σ] [Peer τ] (decoders : Decoders) (base64 : Bytes → Str)

/-- A client on TLS, which knows that it is, and that wrote this in the clear before. -/
def Secured (before : List Bytes) (c : Client (Transport σ τ)) : Prop :=
  c.encrypted = true ∧ ∃ stream, c.connection.stream = .tls stream before

omit [Peer σ] [Peer τ] in
theorem Secured.clear {before : List Bytes} {c : Client (Transport σ τ)} (h : Secured before c) :
    c.clear = before := by
  obtain ⟨_, stream, hstream⟩ := h
  unfold Client.clear
  rw [hstream]

theorem feed_tls (stream : τ) (before writes : List Bytes) :
    (Connection.feed (Transport.tls stream before : Transport σ τ) writes).1 =
      .tls (Connection.feed stream writes).1 before := by
  induction writes generalizing stream with
  | nil => rfl
  | cons bytes writes ih => exact ih (Peer.react stream bytes).2.1

/-- What is written over TLS is not written in the clear. -/
theorem withstands_secured (before : List Bytes) :
    Withstands (Secured (σ := σ) (τ := τ) before) (Connection.Wrote fun _ => True) where
  connection := by
    rintro c connection ⟨writes, _, _, hstream⟩ ⟨hencrypted, stream, htls⟩
    refine ⟨hencrypted, (Connection.feed stream writes).1, ?_⟩
    rw [hstream, htls, feed_tls]
  heard := fun _ _ h => h

/-- A change of a client that leaves its transport alone. -/
structure KeepsTransport (f : Client (Transport σ τ) → Client (Transport σ τ)) : Prop where
  connection : ∀ c, (f c).connection = c.connection
  encrypted : ∀ c, (f c).encrypted = c.encrypted

omit [Peer σ] [Peer τ] in
theorem permits_keepsTransport : Permits (fun _ => True) (KeepsTransport (σ := σ) (τ := τ)) where
  command _ _ := trivial
  capabilities _ := ⟨fun _ => rfl, fun _ => rfl⟩
  postingAllowed _ := ⟨fun _ => rfl, fun _ => rfl⟩
  authenticated := ⟨fun _ => rfl, fun _ => rfl⟩
  overviewFmt _ := ⟨fun _ => rfl, fun _ => rfl⟩

/-- What is built of the client's moves keeps a client on TLS. -/
theorem secured_of_orderly {before : List Bytes} {α : Type} {x : ClientM (Transport σ τ) α}
    (h : Orderly (fun _ => True) KeepsTransport false x) : Fallible.Keeps (Secured before) x := by
  have hwithstands := withstands_secured (σ := σ) (τ := τ) before
  refine h.keeps ?_ (fun cmd _ => keeps_command hwithstands fun _ _ => trivial)
    (fun _ lines => keeps_sendArticle hwithstands trivial) (keeps_readBlock hwithstands)
  rintro f c hf ⟨hencrypted, hstream⟩
  refine ⟨?_, ?_⟩
  · rw [hf.encrypted]
    exact hencrypted
  · rw [hf.connection]
    exact hstream

theorem secured_authenticate {before : List Bytes} (username : Str) (password : Option Str)
    (allowPlaintext : Bool) :
    Fallible.Keeps (Secured (σ := σ) (τ := τ) before) (authenticate decoders username password allowPlaintext) := by
  refine (secured_of_orderly (orderly_login permits_keepsTransport username password allowPlaintext)).bind
    fun changed => ?_
  split
  · exact (secured_of_orderly (orderly_refreshCapabilities permits_keepsTransport decoders)).ignoring
  · exact .pure _

/-- **No operation leaves TLS.** -/
theorem secured_perform {before : List Bytes} (operation : Operation) :
    Fallible.Keeps (Secured (σ := σ) (τ := τ) before) (operation.perform decoders base64) := by
  have hother : Operation.Allowed (fun _ => True) (KeepsTransport (σ := σ) (τ := τ)) operation →
      Fallible.Keeps (Secured before) (operation.perform decoders base64) :=
    fun h => secured_of_orderly (orderly_perform decoders base64 permits_keepsTransport h)
  cases operation with
  | authenticate username password allow => exact secured_authenticate decoders username password allow
  | selectGroup group => exact hother ⟨trivial, fun _ => ⟨fun _ => rfl, fun _ => rfl⟩⟩
  | articleNumbers group range => exact hother ⟨trivial, fun _ => ⟨fun _ => rfl, fun _ => rfl⟩⟩
  | overview range => exact hother ⟨trivial, trivial, fun _ => ⟨fun _ => rfl, fun _ => rfl⟩⟩
  | overviewStreaming range fmt => exact hother ⟨trivial, trivial, fun _ => ⟨fun _ => rfl, fun _ => rfl⟩⟩
  | headerField field target => exact hother ⟨trivial, trivial, fun _ => ⟨fun _ => rfl, fun _ => rfl⟩⟩
  | headerFieldStreaming field target => exact hother ⟨trivial, trivial, fun _ => ⟨fun _ => rfl, fun _ => rfl⟩⟩
  | _ => exact hother trivial

theorem secured_performAll {before : List Bytes} (session : List Operation) {c : Client (Transport σ τ)}
    (h : Secured before c) : Secured before (performAll decoders base64 c session) := by
  induction session generalizing c with
  | nil => exact h
  | cons operation session ih => exact ih (secured_perform decoders base64 operation c h)

/-! ## Until then -/

def modeReaderWire : Bytes := asBytes "MODE READER".toList ++ [0x0D, 0x0A]

theorem toWire_modeReader : Command.modeReader.toWire = .ok modeReaderWire := by rfl

/-- What a client that is being connected may write in the clear. -/
def clearWrites : List Bytes := [capabilitiesWire, modeReaderWire, startTlsWire]

/-- A client that is not on TLS, does not think it is, and wrote nothing else. -/
def Bare (c : Client (Transport σ τ)) : Prop :=
  c.encrypted = false ∧ (∃ socket, c.connection.stream = .plain socket) ∧
    ∀ octets ∈ c.connection.written, octets ∈ clearWrites

/-- A client that wrote nothing else before it was on TLS, if it is. -/
def Guarded (c : Client (Transport σ τ)) : Prop :=
  (∃ before, (∀ octets ∈ before, octets ∈ clearWrites) ∧ Secured before c) ∨ Bare c

omit [Peer σ] [Peer τ] in
theorem Guarded.clear {c : Client (Transport σ τ)} (h : Guarded c) : ∀ octets ∈ c.clear, octets ∈ clearWrites := by
  rcases h with ⟨before, hbefore, hsecured⟩ | ⟨_, ⟨socket, hplain⟩, hwritten⟩
  · rw [hsecured.clear]
    exact hbefore
  · unfold Client.clear
    rw [hplain]
    exact hwritten

theorem withstands_guarded :
    Withstands (Guarded (σ := σ) (τ := τ)) (Connection.Wrote fun octets => octets ∈ clearWrites) where
  connection := by
    rintro c connection hwrote (⟨before, hbefore, hsecured⟩ | ⟨hencrypted, ⟨socket, hplain⟩, hwritten⟩)
    · obtain ⟨writes, _, hrest⟩ := hwrote
      refine Or.inl ⟨before, hbefore, (withstands_secured before).connection c connection ?_ hsecured⟩
      exact ⟨writes, fun _ _ => trivial, hrest⟩
    · obtain ⟨writes, hkind, hafter, hstream⟩ := hwrote
      refine Or.inr ⟨hencrypted, ⟨(Connection.feed socket writes).1, ?_⟩, ?_⟩
      · rw [hstream, hplain, feed_plain]
      · rw [hafter]
        exact List.forall_mem_append.mpr ⟨hwritten, hkind⟩
  heard := fun _ _ h => h

theorem guarded_refreshCapabilities :
    Fallible.Keeps (Guarded (σ := σ) (τ := τ)) (refreshCapabilities decoders) :=
  keeps_refreshCapabilities decoders withstands_guarded List.mem_cons_self fun _ _ h => h

theorem guarded_handshake : Fallible.Keeps (Guarded (σ := σ) (τ := τ)) (handshake decoders) := by
  refine keeps_handshake decoders withstands_guarded List.mem_cons_self (fun sent hwire => ?_)
    (fun _ _ h => h) fun _ _ h => h
  rw [toWire_modeReader] at hwire
  cases hwire
  exact List.mem_cons_of_mem _ List.mem_cons_self

variable (network : Network σ τ)

omit [Peer σ] [Peer τ] in
theorem guarded_intoTls (options : ConnectOptions) : Fallible.Keeps Guarded (intoTls network options) := by
  intro c hc
  rcases hexec : (intoTls network options).exec c with ⟨e | ⟨⟩, c'⟩
  · -- a failure leaves the client as it was
    have hsame : ((intoTls network options).exec c).2 = c := by
      rw [intoTls, Fallible.exec_bind_ok (Fallible.exec_get c)] at hexec ⊢
      split
      · rfl
      · next hbuffer =>
          rw [if_neg hbuffer] at hexec
          split
          · rfl
          · next socket hplain =>
              rw [hplain] at hexec
              dsimp only at hexec
              split
              · rfl
              · next stream reads hsecure =>
                  rw [hsecure] at hexec
                  cases hexec
    rw [hexec] at hsame
    rw [← show c' = c from hsame] at hc
    exact hc
  · obtain ⟨socket, stream, reads, hplain, _, _, rfl⟩ := intoTls_ok network hexec
    refine Or.inl ⟨c.connection.written, ?_, rfl, stream, rfl⟩
    rcases hc with ⟨before, _, _, stream', htls⟩ | ⟨_, _, hwritten⟩
    · rw [hplain] at htls
      cases htls
    · exact hwritten

theorem guarded_upgradeWithStarttls (options : ConnectOptions) :
    Fallible.Keeps Guarded (upgradeWithStarttls network decoders options) := by
  have hstart : ∀ sent, Command.startTls.toWire = .ok sent → sent ∈ clearWrites := by
    intro sent hwire
    rw [toWire_startTls] at hwire
    cases hwire
    exact List.mem_cons_of_mem _ (List.mem_cons_of_mem _ List.mem_cons_self)
  have hrefresh := guarded_refreshCapabilities (σ := σ) (τ := τ) decoders
  refine hrefresh.bind fun capabilities => ?_
  split
  · exact .throw _
  · refine (withstands_guarded.onConnection (Connection.wrote_command hstart)).bind fun line => ?_
    split
    · exact (guarded_intoTls network options).bind fun _ => hrefresh.bind fun _ => .pure _
    · exact .throw _

omit [Peer σ] [Peer τ] in
theorem guarded_build {transport : Transport σ τ} {reads : Reads} {options : ConnectOptions}
    {c : Client (Transport σ τ)} (h : build transport reads options transport.isEncrypted = .ok c)
    (hclear : ∀ stream before, transport = .tls stream before → before = []) : Guarded c := by
  obtain ⟨banner, _, _, hc, hstream, hwritten, _, _⟩ := build_ok h
  cases transport with
  | plain socket =>
      refine Or.inr ⟨?_, ⟨socket, hstream⟩, ?_⟩
      · rw [hc]
        rfl
      · rw [hwritten]
        exact List.forall_mem_nil _
  | tls stream before =>
      refine Or.inl ⟨before, ?_, ?_, stream, hstream⟩
      · rw [hclear stream before rfl]
        exact List.forall_mem_nil _
      · rw [hc]
        rfl

/-- **Connecting writes nothing in the clear but the opening negotiation**, whether it succeeds or not. -/
theorem connect_guarded {options : ConnectOptions} {c : Client (Transport σ τ)}
    (h : connect network decoders options = .ok c ∨
      ∃ error, connect network decoders options = .error (error, some c)) : Guarded c := by
  unfold connect at h
  split at h
  · rcases h with h | ⟨_, h⟩ <;> cases h
  · next socket reads htcp =>
      cases hmode : options.security with
      | plain =>
          rw [hmode] at h
          dsimp only at h
          cases hbuild : build (.plain socket : Transport σ τ) reads options false with
          | error e =>
              rw [hbuild] at h
              rcases h with h | ⟨_, h⟩ <;> cases h
          | ok opened =>
              rw [hbuild] at h
              rcases h with h | ⟨_, h⟩
              · cases h
                exact guarded_build hbuild fun _ _ h => by cases h
              · cases h
      | implicitTls =>
          rw [hmode] at h
          dsimp only at h
          split at h
          · rcases h with h | ⟨_, h⟩ <;> cases h
          · next stream more hsecure =>
              cases hbuild : build (.tls stream [] : Transport σ τ) more options true with
              | error e =>
                  rw [hbuild] at h
                  rcases h with h | ⟨_, h⟩ <;> cases h
              | ok opened =>
                  rw [hbuild] at h
                  rcases h with h | ⟨_, h⟩
                  · cases h
                    exact guarded_build hbuild fun _ _ h => by cases h; rfl
                  · cases h
      | startTls =>
          rw [hmode] at h
          dsimp only at h
          split at h
          · rcases h with h | ⟨_, h⟩ <;> cases h
          · next opened hbuild =>
              have hopened : Guarded opened := guarded_build hbuild fun _ _ h => by cases h
              have hafter := guarded_upgradeWithStarttls decoders network options opened hopened
              split at h
              · next client hexec =>
                  rw [hexec] at hafter
                  rcases h with h | ⟨_, h⟩
                  · cases h
                    exact hafter
                  · cases h
              · next error client hexec =>
                  rw [hexec] at hafter
                  rcases h with h | ⟨_, h⟩
                  · cases h
                  · cases h
                    exact hafter

/-- Where TLS is asked for, a client that is connected is on it. -/
theorem connect_secured {options : ConnectOptions} {c : Client (Transport σ τ)}
    (hmode : options.security ≠ .plain) (h : connect network decoders options = .ok c) :
    ∃ before, Secured before c := by
  unfold connect at h
  split at h
  · cases h
  · next socket reads htcp =>
      cases hsecurity : options.security with
      | plain => exact absurd hsecurity hmode
      | implicitTls =>
          rw [hsecurity] at h
          dsimp only at h
          split at h
          · cases h
          · next stream more hsecure =>
              cases hbuild : build (.tls stream [] : Transport σ τ) more options true with
              | error e =>
                  rw [hbuild] at h
                  cases h
              | ok opened =>
                  rw [hbuild] at h
                  cases h
                  obtain ⟨_, _, _, hc, hstream, _⟩ := build_ok hbuild
                  refine ⟨[], ?_, stream, hstream⟩
                  rw [hc]
      | startTls =>
          rw [hsecurity] at h
          dsimp only at h
          split at h
          · cases h
          · next opened hbuild =>
              obtain ⟨_, _, _, _, hplain, hwritten, husable, _⟩ := build_ok hbuild
              split at h
              · next client hexec =>
                  cases h
                  obtain ⟨_, _, _, _, _, stream, _, _, _, _, _, _, _, hc⟩ :=
                    upgradeWithStarttls_ok network decoders hplain husable hwritten hexec
                  refine ⟨upgradeWrites, ?_⟩
                  rw [hc]
                  exact secured_of_orderly (orderly_refreshCapabilities permits_keepsTransport decoders) _
                    ⟨rfl, stream, rfl⟩
              · cases h

end Client
end Nntp.Client
