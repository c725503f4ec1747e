import Nntp.Client.Operation

/-!
# Connecting

`connector.rs` and `tls.rs`: a TCP connection, with TLS from the first octet or from a `STARTTLS` on, and the
client that talks over it. Sockets, certificates and TLS itself are the network's, which is a parameter. A
transport that was upgraded also remembers, for the proofs about it, what had been written in the clear.
-/

namespace Nntp.Client

open Nntp.Lib Nntp.Proto

/-- The default NNTP port. -/
def defaultPort : UInt16 := 119

/-- The default port for implicit TLS. -/
def defaultTlsPort : UInt16 := 563

/-- How the connection is protected. -/
inductive Security where
  | plain
  | implicitTls
  | startTls
  deriving DecidableEq, Repr

namespace Security

/-- The conventional port for this mode. -/
def defaultPort : Security → UInt16
  | plain => Client.defaultPort
  | startTls => Client.defaultPort
  | implicitTls => defaultTlsPort

/-- Whether traffic is encrypted once the connection is established. -/
def isEncrypted : Security → Bool
  | plain => false
  | implicitTls => true
  | startTls => true

end Security

/-- How to verify the server. -/
structure TlsOptions where
  /-- a file of trust anchors that are added to the built-in ones -/
  extraCaFile : Option Str := none
  /-- the name to verify the certificate against, if it is not that of the host -/
  serverName : Option Str := none
  deriving DecidableEq, Repr

/-- How to reach a server. The timeouts are in seconds. -/
structure ConnectOptions where
  host : Str
  port : UInt16
  connectTimeout : UInt64
  readTimeout : UInt64
  writeTimeout : UInt64
  limits : Limits
  security : Security
  tls : TlsOptions
  noDelay : Bool
  deriving DecidableEq, Repr

namespace ConnectOptions

/-- Options for a plaintext connection to a host on the default port. -/
def new (host : Str) : ConnectOptions where
  host
  port := defaultPort
  connectTimeout := 20
  readTimeout := 60
  writeTimeout := 30
  limits := .default
  security := .plain
  tls := {}
  noDelay := true

/-- Sets the security mode, and the port to that mode's default. -/
def withSecurity (options : ConnectOptions) (security : Security) : ConnectOptions :=
  { options with security, port := security.defaultPort }

/-- `host:port`. -/
def authority (options : ConnectOptions) : Str :=
  options.host ++ ':' :: (toString options.port.toNat).toList

end ConnectOptions

/-- What a client runs over. -/
inductive Transport (σ τ : Type) where
  | plain (stream : σ)
  /-- `clear` is what was written to the socket before it was handed to TLS -/
  | tls (stream : τ) (clear : List Bytes)

namespace Transport

variable {σ τ : Type}

def isEncrypted : Transport σ τ → Bool
  | plain _ => false
  | tls _ _ => true

instance [Peer σ] [Peer τ] : Peer (Transport σ τ) where
  react
    | plain stream, bytes =>
        let (result, stream, more) := Peer.react stream bytes
        (result, plain stream, more)
    | tls stream clear, bytes =>
        let (result, stream, more) := Peer.react stream bytes
        (result, tls stream clear, more)

end Transport

/-- The network, and the TLS library: what they do is not decided here. -/
structure Network (σ τ : Type) where
  Address : Type
  /-- the addresses of `host:port` -/
  toSocketAddrs : Str → Except IoErrorKind (List Address)
  /-- a connection to one of them, and what its reads will return -/
  connectTimeout : Address → UInt64 → Except IoErrorKind (σ × Reads)
  /-- sets the read and the write timeout of a socket -/
  setTimeouts : σ → UInt64 → UInt64 → Except IoErrorKind σ
  Anchor : Type
  tlsServerRoots : List Anchor
  /-- the certificates of a PEM file, or what is wrong with it -/
  pemAnchors : Str → Except Str (List Anchor)
  Name : Type
  serverName : Str → Except Str Name
  Session : Type
  /-- a TLS session that verifies a name against some trust anchors -/
  clientConnection : List Anchor → Name → Except Str Session
  /-- drives the handshake to its end over a socket, from what its reads will return -/
  completeIo : Session → σ → Reads → Except (Option Str × IoErrorKind) (τ × Reads)
  flush : τ → Except IoErrorKind Unit
  /-- how a string is quoted in a message -/
  debug : Str → Str

namespace Network

variable {σ τ : Type} (network : Network σ τ)

/-! ## Sockets -/

/-- The loop of `connect_tcp`: each address in turn, and the last error. -/
def tryAddresses (options : ConnectOptions) (lastError : IoErrorKind) :
    List network.Address → Except ClientError (σ × Reads)
  | [] => .error (.fromIo lastError)
  | address :: addresses =>
      match network.connectTimeout address options.connectTimeout with
      | .error error => tryAddresses options error addresses
      | .ok (socket, reads) =>
          match network.setTimeouts socket options.readTimeout options.writeTimeout with
          | .error error => .error (.fromIo error)
          | .ok socket => .ok (socket, reads)

/-- Opens the TCP socket and applies the socket options. -/
def connectTcp (options : ConnectOptions) : Except ClientError (σ × Reads) :=
  match network.toSocketAddrs options.authority with
  | .error error => .error (.fromIo error)
  | .ok [] => .error (.io .other)
  | .ok addresses => network.tryAddresses options .other addresses

/-! ## TLS -/

/-- The trust anchors: the built-in ones, and those of the extra file. -/
def clientConfig (options : TlsOptions) : Except ClientError (List network.Anchor) :=
  match options.extraCaFile with
  | none => .ok network.tlsServerRoots
  | some path =>
      match network.pemAnchors path with
      | .error text => .error (.tls text)
      | .ok [] => .error (.tls (path ++ " contains no certificates".toList))
      | .ok added => .ok (network.tlsServerRoots ++ added)

/-- A failed handshake: a rejected certificate is no network failure. -/
def handshakeError : Option Str × IoErrorKind → ClientError
  | (some detail, _) => .tls detail
  | (none, .timedOut) => .timeout
  | (none, .wouldBlock) => .timeout
  | (none, .unexpectedEof) =>
      .tls ("the server closed the connection during the TLS handshake; ".toList ++
        "is this port really using TLS?".toList)
  | (none, .other) => .io .other

/-- Performs a TLS handshake over a socket. -/
def tlsHandshake (socket : σ) (reads : Reads) (host : Str) (config : List network.Anchor)
    (options : TlsOptions) : Except ClientError (τ × Reads) :=
  let name := options.serverName.getD host
  match network.serverName name with
  | .error error =>
      .error (.tls ("invalid server name ".toList ++ network.debug name ++ ": ".toList ++ error))
  | .ok serverName =>
      match network.clientConnection config serverName with
      | .error error => .error (.tls error)
      | .ok session =>
          match network.completeIo session socket reads with
          | .error error => .error (handshakeError error)
          | .ok (stream, reads) =>
              match network.flush stream with
              | .error error => .error (.fromIo error)
              | .ok () => .ok (stream, reads)

/-- The configuration and the handshake, as both ways to TLS make them. -/
def secure (options : ConnectOptions) (socket : σ) (reads : Reads) : Except ClientError (τ × Reads) :=
  match network.clientConfig options.tls with
  | .error error => .error error
  | .ok config => network.tlsHandshake socket reads options.host config options.tls

end Network

/-- A connection over a stream of which nothing was read. -/
def Connection.newWithLimits {σ : Type} (stream : σ) (reads : Reads) (limits : Limits) : Connection σ where
  stream
  buffer := []
  reads
  written := []
  limits
  desynchronised := false
  cancel := none

/-- Whether the read buffer holds unconsumed data. -/
def Connection.hasBufferedData {σ : Type} (c : Connection σ) : Bool := !c.buffer.isEmpty

namespace Client

/-- A client over a connection whose greeting was read elsewhere. -/
def fromParts {σ : Type} (connection : Connection σ) (greeting : Greeting) (encrypted : Bool) : Client σ where
  connection
  greeting
  encrypted

variable {σ τ : Type}

/-- Wraps a transport in a client, reading the greeting. -/
def build (transport : Transport σ τ) (reads : Reads) (options : ConnectOptions) (encrypted : Bool) :
    Except ClientError (Client (Transport σ τ)) :=
  withOptions (.newWithLimits transport reads options.limits) encrypted

variable [Peer σ] [Peer τ] (network : Network σ τ) (decoders : Decoders)

/-- `upgrade_with_starttls` from the `382` on: the socket is handed to TLS, and a client is made from what
comes of it. -/
def intoTls (options : ConnectOptions) : ClientM (Transport σ τ) Unit := do
  let c ← get
  if c.connection.hasBufferedData then
    throw (.tls ("the server sent data after its STARTTLS response, which RFC 4642 forbids;".toList ++
      "              refusing to continue".toList))
  else
    match c.connection.stream with
    | .tls _ _ => throw (.tls "this connection is already using TLS".toList)
    | .plain socket =>
        match network.secure options socket c.connection.reads with
        | .error error => throw error
        | .ok (stream, reads) =>
            modify fun _ => fromParts
              (.newWithLimits (.tls stream c.connection.written) reads options.limits) c.greeting true

/-- Performs the `STARTTLS` exchange, which leaves an encrypted client. -/
def upgradeWithStarttls (options : ConnectOptions) : ClientM (Transport σ τ) Unit := do
  let capabilities ← refreshCapabilities decoders
  if !capabilities.isEmpty && !capabilities.hasStarttls then
    throw (.tls ("the server does not offer STARTTLS; use implicit TLS on port 563,".toList ++
      "              or connect in the clear if that is really what you want".toList))
  else
    let line ← onConnection (Connection.command .startTls)
    if line.code = 382 then
      intoTls network options
      -- what was read in the clear is not kept
      let _ ← refreshCapabilities decoders
      pure ()
    else
      throw (.tls ("the server refused STARTTLS: ".toList ++ (toString line.code).toList ++
        ' ' :: line.text))

/-- How a connection that could not be made ends: why, and what is left of the client, if there was one. -/
abbrev Unconnected (σ τ : Type) := ClientError × Option (Client (Transport σ τ))

/-- Opens a connection and reads the server's greeting. -/
def connect (options : ConnectOptions) : Except (Unconnected σ τ) (Client (Transport σ τ)) :=
  match network.connectTcp options with
  | .error error => .error (error, none)
  | .ok (socket, reads) =>
      match options.security with
      | .plain => (build (.plain socket) reads options false).mapError (·, none)
      | .implicitTls =>
          match network.secure options socket reads with
          | .error error => .error (error, none)
          | .ok (stream, reads) => (build (.tls stream []) reads options true).mapError (·, none)
      | .startTls =>
          match build (.plain socket) reads options false with
          | .error error => .error (error, none)
          | .ok client =>
              match (upgradeWithStarttls network decoders options).exec client with
              | (.ok (), client) => .ok client
              | (.error error, client) => .error (error, some client)

/-! ## The upgrade -/

theorem feed_plain (socket : σ) (writes : List Bytes) :
    Connection.feed (Transport.plain socket : Transport σ τ) writes =
      (.plain (Connection.feed socket writes).1, (Connection.feed socket writes).2) := by
  induction writes generalizing socket with
  | nil => rfl
  | cons bytes writes ih =>
      rw [Connection.feed, Connection.feed]
      have hreact : (Peer.react (Transport.plain socket : Transport σ τ) bytes).2 =
          (.plain (Peer.react socket bytes).2.1, (Peer.react socket bytes).2.2) := rfl
      rw [hreact]
      dsimp only
      rw [ih]

/-- Capabilities that were read are those of one answer to one `CAPABILITIES`. -/
theorem refreshCapabilities_ok {ρ : Type} [Peer ρ] {c c' : Client ρ} {capabilities : Capabilities}
    (husable : c.connection.desynchronised = false)
    (h : (refreshCapabilities decoders).exec c = (.ok capabilities, c')) :
    ∃ e : Exchange, Took c c' [e] ∧ e.sent = capabilitiesWire ∧ c'.greeting = c.greeting := by
  rcases Fallible.exec_bind_cases h with ⟨line, mid, hcommand, hrest⟩ | ⟨_, _, hr⟩
  · obtain ⟨hconn, hmid⟩ := exec_command_ok hcommand
    obtain ⟨sent, hwire, hanswered, _⟩ := Connection.command_ok husable hconn
    rw [toWire_capabilities] at hwire
    cases hwire
    have htook : Took c mid [⟨.capabilities none, capabilitiesWire, line, none⟩] :=
      .answered rfl hanswered (by rw [hmid]; rfl)
    have hgreeting : mid.greeting = c.greeting := by rw [hmid]
    by_cases hcode : line.code = 101
    · rw [if_pos hcode] at hrest
      rcases Fallible.exec_bind_cases hrest with ⟨block, after, hread, hset⟩ | ⟨_, _, hr⟩
      · cases hset
        rcases Fallible.exec_bind_cases hread with ⟨lines, kept, hblock, hnote⟩ | ⟨_, _, hr⟩
        · cases hnote
          rw [onConnection_exec] at hblock
          obtain ⟨hlines, hkept⟩ := Prod.mk.inj hblock
          subst hkept
          refine ⟨⟨.capabilities none, capabilitiesWire, line, some block⟩,
            htook.block rfl (Prod.ext hlines rfl) rfl ?_, rfl, hgreeting⟩
          show mid.heard.dropLast ++ _ = _
          rw [htook.heard]
          simp
        · cases hr
      · cases hr
    · rw [if_neg hcode] at hrest
      split at hrest
      · cases hrest
        refine ⟨_, ⟨htook.heard, htook.usable, htook.limits, htook.written, htook.stream, htook.octets⟩,
          rfl, hgreeting⟩
      · cases hrest
  · cases hr

omit [Peer σ] [Peer τ] in
/-- What becomes of a socket that is handed to TLS. -/
theorem intoTls_ok {options : ConnectOptions} {c c' : Client (Transport σ τ)}
    (h : (intoTls network options).exec c = (.ok (), c')) :
    ∃ socket stream reads, c.connection.stream = .plain socket ∧ c.connection.buffer = [] ∧
      network.secure options socket c.connection.reads = .ok (stream, reads) ∧
      c' = fromParts (.newWithLimits (.tls stream c.connection.written) reads options.limits) c.greeting true := by
  rw [intoTls, Fallible.exec_bind_ok (Fallible.exec_get c)] at h
  split at h
  · cases h
  · next hbuffer =>
      have hempty : c.connection.buffer = [] := by
        simpa [Connection.hasBufferedData] using hbuffer
      split at h
      · cases h
      · next socket hplain =>
          split at h
          · cases h
          · next stream reads hsecure =>
              cases h
              exact ⟨socket, stream, reads, hplain, hempty, hsecure, rfl⟩

def startTlsWire : Bytes := asBytes "STARTTLS".toList ++ [0x0D, 0x0A]

theorem toWire_startTls : Command.startTls.toWire = .ok startTlsWire := by rfl

/-- What is written to the socket of a connection that is upgraded, before TLS has it. -/
def upgradeWrites : List Bytes := [capabilitiesWire, startTlsWire]

/-- **What a client that is upgraded takes in the clear**: a greeting, one response to `CAPABILITIES`, and a
status line `382`. The reads of the socket bring nothing else before those that TLS gets. -/
def TakesInTheClear (socket : σ) (reads : Reads) (greeting : Greeting) (handed : Reads) : Prop :=
  ∃ (banner line : StatusLine) (e : Exchange) (first response last : Bytes),
    Connection.IsStatus banner first ∧
      greeting = { code := banner.code, text := banner.text, postingAllowed := banner.code == 200 } ∧
      e.sent = capabilitiesWire ∧ e.Spans response ∧ line.code = 382 ∧ Connection.IsStatus line last ∧
      events (reads ++ (Connection.feed socket upgradeWrites).2) =
        (first ++ response ++ last).map .item ++ events handed

/-- The client that an upgrade makes of what TLS brings. -/
def secured (options : ConnectOptions) (greeting : Greeting) (stream : τ) (reads : Reads) :
    Client (Transport σ τ) :=
  ((refreshCapabilities decoders).exec
    (fromParts (.newWithLimits (.tls stream upgradeWrites) reads options.limits) greeting true)).2

omit [Peer σ] [Peer τ] in
theorem build_ok {transport : Transport σ τ} {reads : Reads} {options : ConnectOptions} {encrypted : Bool}
    {c : Client (Transport σ τ)} (h : build transport reads options encrypted = .ok c) :
    ∃ (banner : StatusLine) (first : Bytes), Connection.IsStatus banner first ∧
      c = { connection := c.connection
            greeting := { code := banner.code, text := banner.text, postingAllowed := banner.code == 200 }
            encrypted } ∧
      c.connection.stream = transport ∧ c.connection.written = [] ∧ c.connection.desynchronised = false ∧
      events reads = first.map .item ++ c.connection.upcoming := by
  unfold build withOptions at h
  rcases hread : (Connection.readStatus : Conn (Transport σ τ) _).exec
      (.newWithLimits transport reads options.limits) with ⟨_ | banner, connection⟩
  · rw [hread] at h
    cases h
  · rw [hread] at h
    dsimp only at h
    split at h
    · cases h
    · cases h
      obtain ⟨hbrings, hafter⟩ := Connection.readStatus_ok rfl hread
      obtain ⟨first, hstatus, hup⟩ := hbrings.octets
      refine ⟨banner, first, hstatus, rfl, ?_, ?_, ?_, hup⟩
      · rw [hafter]
        rfl
      · rw [hafter]
        rfl
      · rw [hafter]
        rfl

/-- What a client takes in the clear while it is upgraded, and what it is then. -/
theorem upgradeWithStarttls_ok {options : ConnectOptions} {c c' : Client (Transport σ τ)} {socket : σ}
    (hplain : c.connection.stream = .plain socket) (husable : c.connection.desynchronised = false)
    (hfresh : c.connection.written = [])
    (h : (upgradeWithStarttls network decoders options).exec c = (.ok (), c')) :
    ∃ (e : Exchange) (line : StatusLine) (response last : Bytes) (handed : Reads) (stream : τ) (more : Reads),
      e.sent = capabilitiesWire ∧ e.Spans response ∧ line.code = 382 ∧ Connection.IsStatus line last ∧
        c.connection.upcoming ++ events (Connection.feed socket upgradeWrites).2 =
          (response ++ last).map .item ++ events handed ∧
        network.secure options (Connection.feed socket upgradeWrites).1 handed = .ok (stream, more) ∧
        c' = secured decoders options c.greeting stream more := by
  rcases Fallible.exec_bind_cases h with ⟨capabilities, asked, hasked, hrest⟩ | ⟨_, _, hr⟩
  · obtain ⟨e, htook, hsent, hgreeting⟩ := refreshCapabilities_ok decoders husable hasked
    split at hrest
    · cases hrest
    · rcases Fallible.exec_bind_cases hrest with ⟨line, told, htold, hrest⟩ | ⟨_, _, hr⟩
      · rw [onConnection_exec] at htold
        obtain ⟨hline, htold⟩ := Prod.mk.inj htold
        subst htold
        obtain ⟨sent, hwire, hanswered, _⟩ := Connection.command_ok htook.usable (Prod.ext hline rfl)
        rw [toWire_startTls] at hwire
        cases hwire
        split at hrest
        · next hcode =>
            rcases Fallible.exec_bind_cases hrest with ⟨_, fresh, hinto, hagain⟩ | ⟨_, _, hr⟩
            · obtain ⟨socket', stream, more, hstream, hbuffer, hsecure, hmade⟩ := intoTls_ok network hinto
              obtain ⟨pieces, hspans, hup⟩ := htook.octets
              obtain ⟨response, _, hresponse, hnil, rfl⟩ := List.forall₂_cons_left_iff.mp hspans
              cases List.forall₂_nil_left_iff.mp hnil
              obtain ⟨last, hlast, hup'⟩ := hanswered.octets
              have hasked' := htook.stream
              simp only [List.map_cons, List.map_nil, hsent, hplain, feed_plain] at hasked' hup
              rw [hasked', feed_plain] at hup'
              have hstream' := hanswered.stream
              rw [hasked', feed_plain] at hstream'
              rw [hstream'] at hstream
              cases hstream
              have hfeed : Connection.feed socket upgradeWrites = _ :=
                Connection.feed_append socket [capabilitiesWire] [startTlsWire]
              refine ⟨e, line, response, last, ((Connection.command .startTls).exec asked.connection).2.reads, stream,
                more, hsent, hresponse, hcode, hlast, ?_, ?_, ?_⟩
              · -- the buffer is empty, so what is left is what the reads will bring
                have hleft : ((Connection.command .startTls).exec asked.connection).2.upcoming =
                    events ((Connection.command .startTls).exec asked.connection).2.reads := by
                  rw [Connection.upcoming, Connection.pending, hbuffer]
                  rfl
                rw [hfeed, events_append, ← List.append_assoc, hup, List.append_assoc, hup', hleft]
                simp
              · rw [hfeed]
                exact hsecure
              · have hwrites : ((Connection.command .startTls).exec asked.connection).2.written =
                    upgradeWrites := by
                  rw [hanswered.written, htook.written, hfresh, List.map_singleton, hsent]
                  rfl
                have hrefreshed := Fallible.exec_bind_pure (refreshCapabilities decoders) (fun _ => ()) fresh
                rw [hagain, hmade, hwrites, hgreeting] at hrefreshed
                exact hrefreshed
            · cases hr
        · cases hrest
      · cases hr
  · cases hr

/-- **A connection that is upgraded with `STARTTLS` owes nothing to what came in the clear**: whatever the
network does, a connection that is made brought the greeting, one response to `CAPABILITIES` and a `382` in the
clear, and not an octet more that is not handed to TLS; and the client is the one that has the greeting and what
TLS brings, and nothing else. -/
theorem connect_startTls (options : ConnectOptions) (hmode : options.security = .startTls)
    {c : Client (Transport σ τ)} (h : connect network decoders options = .ok c) :
    ∃ socket reads greeting handed stream more,
      network.connectTcp options = .ok (socket, reads) ∧
        TakesInTheClear socket reads greeting handed ∧
        network.secure options (Connection.feed socket upgradeWrites).1 handed = .ok (stream, more) ∧
        c = secured decoders options greeting stream more := by
  unfold connect at h
  split at h
  · cases h
  · next socket reads htcp =>
      rw [hmode] at h
      dsimp only at h
      split at h
      · cases h
      · next opened hbuild =>
          split at h
          · next client hupgrade =>
              cases h
              obtain ⟨banner, first, hbanner, hopened, hplain, hwritten, husable, hfirst⟩ := build_ok hbuild
              obtain ⟨e, line, response, last, handed, stream, more, hsent, hresponse, hcode, hlast, hup,
                hsecure, hc⟩ := upgradeWithStarttls_ok network decoders hplain husable hwritten hupgrade
              refine ⟨socket, reads, opened.greeting, handed, stream, more, htcp, ?_, hsecure, hc⟩
              refine ⟨banner, line, e, first, response, last, hbanner, ?_, hsent, hresponse, hcode, hlast, ?_⟩
              · rw [hopened]
              · rw [events_append, hfirst, List.append_assoc, hup]
                simp
          · cases h

/-- A network of one machine, whose news server offers `STARTTLS`. -/
def loopback : Network Unit Unit where
  Address := Unit
  toSocketAddrs _ := .ok [()]
  connectTimeout _ _ := .ok ((), [.data (asBytes "200 ready\r\n".toList),
    .data (asBytes "101 capabilities\r\nVERSION 2\r\nSTARTTLS\r\n.\r\n".toList),
    .data (asBytes "382 continue\r\n".toList)])
  setTimeouts _ _ _ := .ok ()
  Anchor := Unit
  tlsServerRoots := [()]
  pemAnchors _ := .ok []
  Name := Str
  serverName name := .ok name
  Session := Unit
  clientConnection _ _ := .ok ()
  completeIo _ _ _ := .ok ((), [.data (asBytes "101 capabilities\r\nVERSION 2\r\nREADER\r\n.\r\n".toList)])
  flush _ := .ok ()
  debug name := name

def loopbackOptions : ConnectOptions := (ConnectOptions.new "localhost".toList).withSecurity .startTls

theorem connect_startTls_loopback :
    ∃ c, connect loopback plainDecoders loopbackOptions = .ok c ∧
      ∃ socket reads greeting handed stream more,
        loopback.connectTcp loopbackOptions = .ok (socket, reads) ∧
          TakesInTheClear socket reads greeting handed ∧
          loopback.secure loopbackOptions (Connection.feed socket upgradeWrites).1 handed = .ok (stream, more) ∧
          c = secured plainDecoders loopbackOptions greeting stream more := by
  have hok : (connect loopback plainDecoders loopbackOptions).toOption.isSome = true := by decide +kernel
  rcases hrun : connect loopback plainDecoders loopbackOptions with e | c
  · rw [hrun] at hok
    cases hok
  · exact ⟨c, rfl, connect_startTls loopback plainDecoders loopbackOptions rfl hrun⟩

end Client
end Nntp.Client
