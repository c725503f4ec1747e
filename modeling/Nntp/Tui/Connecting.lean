import Nntp.Client.Clear
import Nntp.Tui.Target

/-!
# A connected client

`connect` and `authenticate` of `session.rs` and what they take from `config.rs`: the options of a connection,
where the password comes from, and the client that comes of a target.
-/

namespace Nntp.Tui

open Nntp.Lib Nntp.Proto Nntp.Client

/-! ## Passwords -/

/-- What a password is looked up in: the environment, and the output of a command. -/
structure PasswordSources where
  var : Str → Option Str
  runShell : Str → Except Str Str

/-- Why a password that is configured is not to be had. -/
inductive PasswordError where
  | notSet (name : Str)
  | empty (name : Str)
  | failed (command text : Str)
  | noOutput (command : Str)
  deriving DecidableEq, Repr

/-- The trailing line endings of a value are not part of it. -/
def trimLineEnd (value : Str) : Str := value.rdropWhile fun c => c == '\r' || c == '\n'

/-- `resolve_password_with`: a literal password, a variable of the environment, or a command. -/
def ServerConfig.resolvePassword (server : ServerConfig) (sources : PasswordSources) :
    Except PasswordError (Option Str) :=
  match server.password, server.passwordEnv, server.passwordCommand with
  | some password, _, _ => .ok (some password)
  | none, some name, _ =>
      match sources.var name with
      | none => .error (.notSet name)
      | some value =>
          let value := trimLineEnd value
          if value.isEmpty then .error (.empty name) else .ok (some value)
  | none, none, some command =>
      match sources.runShell command with
      | .error text => .error (.failed command text)
      | .ok output =>
          match ((lines output).head?.map trim).filter fun line => !line.isEmpty with
          | none => .error (.noOutput command)
          | some line => .ok (some line)
  | none, none, none => .ok none

/-! ## Options -/

def SecurityConfig.toSecurity : SecurityConfig → Security
  | plain => .plain
  | implicitTls => .implicitTls
  | startTls => .startTls

/-- Builds connection options from a server definition, if it has a host. -/
def ServerConfig.connectOptions (server : ServerConfig) (limits : Limits) : Option ConnectOptions :=
  if (trim server.host).isEmpty then none
  else
    let options := (ConnectOptions.new (trim server.host)).withSecurity server.security.toSecurity
    let options :=
      { options with
        connectTimeout := server.connectTimeoutSecs
        readTimeout := server.readTimeoutSecs
        writeTimeout := server.writeTimeoutSecs
        limits }
    -- the mode has reset the port
    let options := { options with port := server.port.getD options.port }
    some { options with tls := { extraCaFile := server.extraCaFile, serverName := server.tlsServerName } }

/-- `host:port`, for messages. -/
def Target.authority (target : Target) : Str :=
  let port := target.server.port.getD target.server.security.toSecurity.defaultPort
  target.server.host ++ ':' :: (toString port.toNat).toList

/-! ## Connecting -/

/-- Why there is no connected client, with what the message names. -/
inductive SessionError where
  | noHost (label : Str)
  | connecting (authority : Str) (error : ClientError)
  | negotiating (authority : Str) (error : ClientError)
  | password (label : Str) (error : PasswordError)
  | plaintextRefused (label : Str)
  | authenticating (username authority : Str) (error : ClientError)
  deriving DecidableEq, Repr

variable {σ τ : Type} [Peer σ] [Peer τ] (decoders : Decoders) (sources : PasswordSources)

/-- Sends credentials if any are configured. -/
def Target.authenticate (target : Target) (c : Client (Transport σ τ)) :
    Except SessionError Unit × Client (Transport σ τ) :=
  match target.server.username with
  | none => (.ok (), c)
  | some username =>
      match target.server.resolvePassword sources with
      | .error error => (.error (.password target.label error), c)
      | .ok password =>
          match (Client.authenticate decoders username password target.server.allowPlaintextAuth).exec c with
          | (.ok (), c) => (.ok (), c)
          | (.error .plaintextAuthenticationRefused, c) => (.error (.plaintextRefused target.label), c)
          | (.error error, c) => (.error (.authenticating username target.authority error), c)

/-- Connects, negotiates, and authenticates if credentials are configured. A failure comes with what is left of
the client, if there was one. -/
def Target.connect (network : Network σ τ) (target : Target) :
    Except (SessionError × Option (Client (Transport σ τ))) (Client (Transport σ τ)) :=
  match target.server.connectOptions target.limits with
  | none => .error (.noHost target.label, none)
  | some options =>
      match Client.connect network decoders options with
      | .error (error, c) => .error (.connecting target.authority error, c)
      | .ok c =>
          match (Client.handshake decoders).exec c with
          | (.error error, c) => .error (.negotiating target.authority error, some c)
          | (.ok (), c) =>
              match target.authenticate decoders sources c with
              | (.error error, c) => .error (error, some c)
              | (.ok (), c) => .ok c

/-! ## Credentials on the wire -/

section Wire

variable {network : Network σ τ} {target : Target} {options : ConnectOptions}

/-- A password is not sent where it could be read, unless the configuration allows it. -/
def Target.Cautious (target : Target) : Prop :=
  target.server.allowPlaintextAuth = false ∨ target.server.security ≠ .plain

omit [Peer σ] [Peer τ] in
theorem connectOptions_security {server : ServerConfig} {limits : Limits}
    (h : server.connectOptions limits = some options) : options.security = server.security.toSecurity := by
  unfold ServerConfig.connectOptions at h
  split at h
  · cases h
  · cases h
    rfl

/-- A client that is not on TLS does not log in unless that is allowed. -/
theorem authenticate_bare {c : Client (Transport σ τ)} (hencrypted : c.encrypted = false) (username : Str)
    (password : Option Str) :
    (Client.authenticate decoders username password false).exec c = (.error .plaintextAuthenticationRefused, c) := by
  refine Fallible.exec_bind_error ?_
  unfold Client.login
  rw [Fallible.exec_bind_ok (Fallible.exec_get c), if_pos (by simp [hencrypted])]
  rfl

/-- What logging in leaves, and that it does not succeed in the clear. -/
theorem Target.authenticate_guarded {c : Client (Transport σ τ)} (hc : Client.Guarded c)
    (hcautious : target.server.allowPlaintextAuth = false ∨ ∃ before, Client.Secured before c) :
    Client.Guarded (target.authenticate decoders sources c).2 ∧
      ((target.authenticate decoders sources c).1 = .ok () →
        target.server.username.isSome = true ∨ (∃ before, Client.Secured before c) →
        ∃ before, Client.Secured before (target.authenticate decoders sources c).2) := by
  unfold Target.authenticate
  split
  · next hnone =>
      refine ⟨hc, fun _ h => h.resolve_left ?_⟩
      rw [hnone]
      exact Bool.false_ne_true
  · next username hname =>
      split
      · exact ⟨hc, fun h => by cases h⟩
      · next password hpassword =>
          generalize hallow : target.server.allowPlaintextAuth = allow at hcautious ⊢
          rcases hc with ⟨before, hbefore, hsecured⟩ | hbare
          · have hkept := Client.secured_authenticate decoders username password allow c hsecured
            rcases hexec : (Client.authenticate decoders username password allow).exec c with ⟨e | ⟨⟩, c'⟩
            · rw [hexec] at hkept
              cases e <;> exact ⟨Or.inl ⟨before, hbefore, hkept⟩, fun h => by cases h⟩
            · rw [hexec] at hkept
              exact ⟨Or.inl ⟨before, hbefore, hkept⟩, fun _ _ => ⟨before, hkept⟩⟩
          · obtain rfl : allow = false := by
              rcases hcautious with hno | ⟨before, hsecured, _⟩
              · exact hno
              · rw [hbare.1] at hsecured
                cases hsecured
            rw [authenticate_bare decoders hbare.1]
            exact ⟨Or.inr hbare, fun h => by cases h⟩

/-- Negotiating and logging in, over a connection that was made. -/
theorem Target.handshake_guarded (hcautious : target.Cautious) {c shaken : Client (Transport σ τ)}
    {r : Except ClientError Unit} (hc : Client.Guarded c)
    (hmode : target.server.security ≠ .plain → ∃ before, Client.Secured before c)
    (h : (Client.handshake decoders).exec c = (r, shaken)) :
    Client.Guarded shaken ∧ Client.Guarded (target.authenticate decoders sources shaken).2 ∧
      ((target.authenticate decoders sources shaken).1 = .ok () →
        target.server.username.isSome = true ∨ target.server.security ≠ .plain →
        ∃ before, Client.Secured before (target.authenticate decoders sources shaken).2) := by
  have hguarded := Client.guarded_handshake decoders c hc
  have hsecured : target.server.security ≠ .plain → ∃ before, Client.Secured before shaken := by
    intro hnot
    obtain ⟨before, hbefore⟩ := hmode hnot
    have hkept := Client.secured_of_orderly
      (Client.orderly_handshake Client.permits_keepsTransport decoders) c hbefore
    rw [h] at hkept
    exact ⟨before, hkept⟩
  rw [h] at hguarded
  obtain ⟨hafter, hdone⟩ :=
    Target.authenticate_guarded decoders sources hguarded (hcautious.imp_right hsecured)
  exact ⟨hguarded, hafter, fun hok hwhy => hdone hok (hwhy.imp_right hsecured)⟩

/-- **Credentials never cross the network in the clear**, unless the configuration allows it: whatever the
network and the server do, all that connecting hands to the bare socket is the opening negotiation; and a client
that logged in, or that TLS was asked for, is on TLS, and stays on it whatever it does from then on. -/
theorem connect_credentials (network : Network σ τ) (base64 : Bytes → Str) (target : Target)
    (hcautious : target.Cautious) (c : Client (Transport σ τ)) :
    ((target.connect decoders sources network = .ok c ∨
        ∃ error, target.connect decoders sources network = .error (error, some c)) →
      ∀ octets ∈ c.clear, octets ∈ Client.clearWrites) ∧
    (target.connect decoders sources network = .ok c →
      target.server.username.isSome = true ∨ target.server.security ≠ .plain →
      ∀ session, (Client.performAll decoders base64 c session).encrypted = true ∧
        (Client.performAll decoders base64 c session).connection.stream.isEncrypted = true ∧
        (Client.performAll decoders base64 c session).clear = c.clear) := by
  suffices hall : (∀ error, target.connect decoders sources network = .error (error, some c) →
        Client.Guarded c) ∧
      (target.connect decoders sources network = .ok c → Client.Guarded c ∧
        (target.server.username.isSome = true ∨ target.server.security ≠ .plain →
          ∃ before, Client.Secured before c)) by
    obtain ⟨herror, hok⟩ := hall
    refine ⟨?_, fun h hwhy session => ?_⟩
    · rintro (h | ⟨error, h⟩)
      · exact (hok h).1.clear
      · exact (herror error h).clear
    · obtain ⟨before, hsecured⟩ := (hok h).2 hwhy
      have hkept := Client.secured_performAll decoders base64 session hsecured
      refine ⟨hkept.1, ?_, hkept.clear.trans hsecured.clear.symm⟩
      obtain ⟨_, stream, hstream⟩ := hkept
      rw [hstream]
      rfl
  unfold Target.connect
  split
  · exact ⟨nofun, nofun⟩
  · next options hoptions =>
      split
      · next error left hconnect =>
          refine ⟨fun _ h => ?_, fun h => by cases h⟩
          cases h
          exact Client.connect_guarded decoders network (Or.inr ⟨_, hconnect⟩)
      · next opened hconnect =>
          have hopened := Client.connect_guarded decoders network (Or.inl hconnect)
          have hmode : target.server.security ≠ .plain → ∃ before, Client.Secured before opened := by
            intro hnot
            refine Client.connect_secured decoders network ?_ hconnect
            rw [connectOptions_security hoptions]
            cases hsecurity : target.server.security with
            | plain => exact absurd hsecurity hnot
            | implicitTls => exact Security.noConfusion
            | startTls => exact Security.noConfusion
          split
          · next error shaken hexec =>
              refine ⟨fun _ h => ?_, fun h => by cases h⟩
              cases h
              exact (Target.handshake_guarded decoders sources hcautious hopened hmode hexec).1
          · next shaken hexec =>
              obtain ⟨_, hafter, hdone⟩ :=
                Target.handshake_guarded decoders sources hcautious hopened hmode hexec
              split
              · next error last hlogin =>
                  refine ⟨fun _ h => ?_, fun h => by cases h⟩
                  cases h
                  rw [hlogin] at hafter
                  exact hafter
              · next last hlogin =>
                  refine ⟨nofun, fun h => ?_⟩
                  cases h
                  rw [hlogin] at hafter hdone
                  exact ⟨hafter, hdone rfl⟩

end Wire

/-- A news server on this machine that has one account, behind `STARTTLS`. -/
def localServer : Network Unit Unit :=
  { Client.loopback with
    completeIo := fun _ _ _ => .ok ((), [
      .data (asBytes "101 capabilities\r\nVERSION 2\r\nREADER\r\n.\r\n".toList),
      .data (asBytes "101 capabilities\r\nVERSION 2\r\nREADER\r\n.\r\n".toList),
      .data (asBytes "381 password\r\n".toList), .data (asBytes "281 welcome\r\n".toList),
      .data (asBytes "101 capabilities\r\nVERSION 2\r\nREADER\r\n.\r\n".toList)]) }

def localTarget : Target where
  label := "here".toList
  server :=
    { host := "localhost".toList
      security := .startTls
      username := some "me".toList
      password := some "secret".toList }
  limits := .default

def noSources : PasswordSources where
  var _ := none
  runShell _ := .error []

theorem connect_credentials_localServer :
    ∃ c, localTarget.connect Client.plainDecoders noSources localServer = .ok c ∧
      (∀ octets ∈ c.clear, octets ∈ Client.clearWrites) ∧
      ∀ session, (Client.performAll Client.plainDecoders (fun _ => []) c session).encrypted = true ∧
        (Client.performAll Client.plainDecoders (fun _ => []) c session).connection.stream.isEncrypted = true ∧
        (Client.performAll Client.plainDecoders (fun _ => []) c session).clear = c.clear := by
  have hok : (localTarget.connect Client.plainDecoders noSources localServer).toOption.isSome = true := by
    decide +kernel
  rcases hrun : localTarget.connect Client.plainDecoders noSources localServer with e | c
  · rw [hrun] at hok
    cases hok
  · obtain ⟨hclear, hstays⟩ := connect_credentials Client.plainDecoders noSources localServer (fun _ => [])
      localTarget (Or.inl rfl) c
    exact ⟨c, rfl, hclear (Or.inl hrun), hstays hrun (Or.inl rfl)⟩

end Nntp.Tui
