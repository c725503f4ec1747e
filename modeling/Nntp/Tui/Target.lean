import Nntp.Proto.Text
import Nntp.Client.Connection

/-!
# Which server to talk to

`Config::server` of `config.rs` and `resolve` of `session.rs`: the configured server, and what the command
line changes about it. A password that was configured for one host must not be offered to another.
-/

namespace Nntp.Tui

open Nntp.Proto Nntp.Client

/-- How a connection is protected, as written in the configuration file. -/
inductive SecurityConfig where
  | plain
  | implicitTls
  | startTls
  deriving DecidableEq, Repr

/-- One server definition. -/
structure ServerConfig where
  host : Str := []
  port : Option UInt16 := none
  security : SecurityConfig := .implicitTls
  /-- who to post as -/
  «from» : Option Str := none
  subscriptions : List Str := []
  username : Option Str := none
  password : Option Str := none
  passwordCommand : Option Str := none
  /-- the name of an environment variable holding the password -/
  passwordEnv : Option Str := none
  allowPlaintextAuth : Bool := false
  extraCaFile : Option Str := none
  tlsServerName : Option Str := none
  connectTimeoutSecs : UInt64 := 20
  readTimeoutSecs : UInt64 := 60
  writeTimeoutSecs : UInt64 := 30
  deriving DecidableEq, Repr

/-- The configuration file, as far as it is about servers. The servers are in the order of their names. -/
structure Config where
  defaultServer : Option Str := none
  servers : List (Str × ServerConfig) := []
  ascending : servers.Pairwise fun a b => a.1 < b.1 := by decide
  limits : Limits := .default

/-- The flags that say which server to talk to. -/
structure ServerArgs where
  server : Option Str := none
  host : Option Str := none
  port : Option UInt16 := none
  tls : Bool := false
  starttls : Bool := false
  noTls : Bool := false
  «from» : Option Str := none
  username : Option Str := none
  passwordCommand : Option Str := none
  passwordEnv : Option Str := none
  allowPlaintextAuth : Bool := false
  caFile : Option Str := none
  tlsServerName : Option Str := none
  deriving DecidableEq, Repr

/-- Whether any flag asks for a specific transport. -/
def ServerArgs.securityOverride (args : ServerArgs) : Option SecurityConfig :=
  if args.tls then some .implicitTls
  else if args.starttls then some .startTls
  else if args.noTls then some .plain
  else none

/-- Why no server can be identified, with what the message names. -/
inductive ConfigError where
  | noSuchServer (name defined : Str)
  | defaultNotDefined
  | noServers
  | severalServers (defined : Str)
  deriving DecidableEq, Repr

/-- The text of the message; `debug` is how a string is quoted in it. -/
def ConfigError.message (debug : Str → Str) : ConfigError → Str
  | noSuchServer name defined =>
      "no server named ".toList ++ debug name ++ "; defined servers: ".toList ++ defined
  | defaultNotDefined => "default_server names a server that is not defined".toList
  | noServers =>
      "no servers are configured; pass --host, or add a [servers.<name>] section to the ".toList ++
        "configuration file (see `nntp-tui config init`)".toList
  | severalServers defined =>
      "several servers are configured; pass --server <name> or set default_server. Defined: ".toList ++
        defined

namespace Config

def serverNames (config : Config) : Str :=
  if config.servers.isEmpty then "(none)".toList
  else joinWith ", ".toList (config.servers.map (·.1))

/-- A server by name, or the default server. -/
def server (config : Config) (name : Option Str) : Except ConfigError (Str × ServerConfig) :=
  match name with
  | some name =>
      match config.servers.find? fun entry => entry.1 = name with
      | some entry => .ok entry
      | none => .error (.noSuchServer name config.serverNames)
  | none =>
      match config.defaultServer with
      | some name =>
          match config.servers.find? fun entry => entry.1 = name with
          | some entry => .ok entry
          | none => .error .defaultNotDefined
      | none =>
          match config.servers with
          | [entry] => .ok entry
          | [] => .error .noServers
          | _ => .error (.severalServers config.serverNames)

end Config

/-- A resolved server: where it came from, and what to do with it. -/
structure Target where
  label : Str
  server : ServerConfig
  limits : Limits
  deriving DecidableEq, Repr

/-- `command line`. -/
def commandLine : Str := "command line".toList

/-- What the flags change about a server, in the order of the source. -/
def ServerArgs.override (args : ServerArgs) (server : ServerConfig) : ServerConfig :=
  let server :=
    match args.host with
    -- a host with no port means the default for the transport
    | some host => { server with host := host, port := none }
    | none => server
  let server := { server with port := args.port <|> server.port }
  let server := { server with security := args.securityOverride.getD server.security }
  let server := { server with «from» := args.from <|> server.from }
  let server := { server with username := args.username <|> server.username }
  let server :=
    match args.passwordCommand with
    | some command =>
        { server with passwordCommand := some command, password := none, passwordEnv := none }
    | none => server
  let server :=
    match args.passwordEnv with
    | some name =>
        { server with passwordEnv := some name, password := none, passwordCommand := none }
    | none => server
  let server := { server with allowPlaintextAuth := args.allowPlaintextAuth || server.allowPlaintextAuth }
  let server := { server with extraCaFile := args.caFile <|> server.extraCaFile }
  { server with tlsServerName := args.tlsServerName <|> server.tlsServerName }

/-- The server the flags apply to: the configured one, or none in particular. -/
def resolveBase (config : Config) (args : ServerArgs) : Except ConfigError (Str × ServerConfig) :=
  match config.server args.server with
  | .ok entry =>
      match args.host with
      | some host =>
          -- credentials were given for the host they stand with
          if args.server.isNone ∧ host ≠ entry.2.host then .ok (commandLine, {}) else .ok entry
      | none => .ok entry
  | .error error =>
      -- a host on its own is enough
      if args.host.isNone then .error error else .ok (commandLine, {})

/-- Merges the configuration and the command-line flags. -/
def resolve (config : Config) (args : ServerArgs) : Except ConfigError Target :=
  match resolveBase config args with
  | .ok (label, server) => .ok { label, server := args.override server, limits := config.limits }
  | .error error => .error error

/-! ## Where credentials come from -/

/-- What a server is told about who is connecting. -/
inductive Credential where
  | username
  | password
  | passwordCommand
  | passwordEnv
  deriving DecidableEq, Repr

def ServerConfig.credential (server : ServerConfig) : Credential → Option Str
  | .username => server.username
  | .password => server.password
  | .passwordCommand => server.passwordCommand
  | .passwordEnv => server.passwordEnv

/-- A credential given on the command line; a password cannot be. -/
def ServerArgs.credential (args : ServerArgs) : Credential → Option Str
  | .username => args.username
  | .password => none
  | .passwordCommand => args.passwordCommand
  | .passwordEnv => args.passwordEnv

/-- The flags name a host, and it is not that of the server the configuration would use. -/
def ServerArgs.Foreign (args : ServerArgs) (config : Config) : Prop :=
  ∃ host, args.host = some host ∧ ∀ entry, config.server args.server = .ok entry → host ≠ entry.2.host

/-- **Credentials stay with their host**: those that are not from the command line are those of the
configured server, and its host is the one they go to. -/
def StaysHome (config : Config) (args : ServerArgs) : Prop :=
  ∀ target, resolve config args = .ok target → ∀ kind value, target.server.credential kind = some value →
    args.credential kind = none →
    ∃ entry, config.server args.server = .ok entry ∧ entry.2.credential kind = some value ∧
      target.server.host = entry.2.host

section Override

variable (args : ServerArgs) (server : ServerConfig)

theorem override_host : (args.override server).host = args.host.getD server.host := by
  unfold ServerArgs.override
  cases args.host <;> cases args.passwordCommand <;> cases args.passwordEnv <;> rfl

theorem override_username : (args.override server).username = (args.username <|> server.username) := by
  unfold ServerArgs.override
  cases args.host <;> cases args.passwordCommand <;> cases args.passwordEnv <;> rfl

/-- Either password flag replaces whatever the configuration supplied. -/
theorem override_password : (args.override server).password =
    if args.passwordCommand.isSome ∨ args.passwordEnv.isSome then none else server.password := by
  unfold ServerArgs.override
  cases args.host <;> cases args.passwordCommand <;> cases args.passwordEnv <;> rfl

theorem override_passwordCommand : (args.override server).passwordCommand =
    if args.passwordEnv.isSome then none else (args.passwordCommand <|> server.passwordCommand) := by
  unfold ServerArgs.override
  cases args.host <;> cases args.passwordCommand <;> cases args.passwordEnv <;> rfl

theorem override_passwordEnv : (args.override server).passwordEnv =
    (args.passwordEnv <|> if args.passwordCommand.isSome then none else server.passwordEnv) := by
  unfold ServerArgs.override
  cases args.host <;> cases args.passwordCommand <;> cases args.passwordEnv <;> rfl

variable {args server}

/-- A credential that is not from the flags is the server's own. -/
theorem override_credential {kind : Credential} {value : Str}
    (h : (args.override server).credential kind = some value) (hargs : args.credential kind = none) :
    server.credential kind = some value := by
  cases kind with
  | username =>
      have hname : args.username = none := hargs
      rw [ServerConfig.credential, override_username, hname] at h
      exact h
  | password =>
      rw [ServerConfig.credential, override_password] at h
      split at h
      · cases h
      · exact h
  | passwordCommand =>
      have hcommand : args.passwordCommand = none := hargs
      rw [ServerConfig.credential, override_passwordCommand, hcommand] at h
      split at h
      · cases h
      · exact h
  | passwordEnv =>
      have henv : args.passwordEnv = none := hargs
      rw [ServerConfig.credential, override_passwordEnv, henv] at h
      change (if _ then none else server.passwordEnv) = some value at h
      split at h
      · cases h
      · exact h

end Override

section Base

variable {config : Config} {args : ServerArgs} {base : Str × ServerConfig}

/-- What the flags apply to is the configured server, with its host kept, or no server in particular. -/
theorem resolveBase_cases (hserver : args.server = none) (h : resolveBase config args = .ok base) :
    config.server none = .ok base ∧ args.host.getD base.2.host = base.2.host ∨ base = (commandLine, {}) := by
  unfold resolveBase at h
  rw [hserver] at h
  split at h
  · next entry hentry =>
      split at h
      · next host hhost =>
          split at h
          · cases h
            exact Or.inr rfl
          · next hsame =>
              cases h
              have heq : host = base.2.host := by
                by_contra hne
                exact hsame ⟨rfl, hne⟩
              refine Or.inl ⟨hentry, ?_⟩
              rw [hhost]
              exact heq
      · next hhost =>
          cases h
          refine Or.inl ⟨hentry, ?_⟩
          rw [hhost]
          rfl
  · split at h
    · cases h
    · cases h
      exact Or.inr rfl

/-- A foreign host starts from nothing. -/
theorem resolveBase_foreign (hserver : args.server = none) (h : args.Foreign config) :
    resolveBase config args = .ok (commandLine, {}) := by
  obtain ⟨host, hhost, hforeign⟩ := h
  unfold resolveBase
  split
  · next entry hentry =>
      rw [hhost, hserver]
      exact if_pos ⟨rfl, hforeign entry hentry⟩
  · rw [hhost]
    exact if_neg (by simp)

end Base

theorem resolve_staysHome {config : Config} {args : ServerArgs} (hserver : args.server = none) :
    StaysHome config args := by
  intro target htarget kind value hvalue hargs
  unfold resolve at htarget
  split at htarget
  · next label server hbase =>
      cases htarget
      have hown : server.credential kind = some value := override_credential hvalue hargs
      rcases resolveBase_cases hserver hbase with ⟨hentry, hhost⟩ | hnone
      · refine ⟨(label, server), ?_, hown, ?_⟩
        · rw [hserver]
          exact hentry
        · exact (override_host args server).trans hhost
      · -- no server in particular has credentials
        cases hnone
        cases kind <;> cases hown
  · cases htarget

theorem resolve_foreign {config : Config} {args : ServerArgs} (hserver : args.server = none)
    (h : args.Foreign config) : resolve config args =
      .ok { label := commandLine, server := args.override {}, limits := config.limits } := by
  unfold resolve
  rw [resolveBase_foreign hserver h]

/-- **Credentials do not follow a foreign host**: what the command line does not give itself comes from the
server whose host it goes to; and where the flags name another host, the server resolved is the same
whatever is configured. -/
theorem resolve_credentials (args : ServerArgs) (hserver : args.server = none) :
    (∀ config, StaysHome config args) ∧
      ∀ config config', args.Foreign config → args.Foreign config' →
        ∃ target target', resolve config args = .ok target ∧ resolve config' args = .ok target' ∧
          target.server = target'.server := by
  refine ⟨fun _ => resolve_staysHome hserver, ?_⟩
  intro config config' h h'
  exact ⟨_, _, resolve_foreign hserver h, resolve_foreign hserver h', rfl⟩

/-- A server with credentials, and a machine of one's own. -/
theorem resolve_credentials_localhost :
    let args : ServerArgs := { host := some "localhost".toList }
    let config : Config :=
      { servers := [("es".toList,
          { host := "news.example.com".toList, username := some "me".toList, password := some "x".toList })] }
    args.Foreign config ∧ (∀ config, StaysHome config args) ∧
      ∃ target target', resolve config args = .ok target ∧ resolve {} args = .ok target' ∧
        target.server = target'.server ∧ target.server.password = none := by
  intro args config
  have hforeign : args.Foreign config := ⟨_, rfl, fun entry hentry => by cases hentry; decide⟩
  have hnone : args.Foreign {} := ⟨_, rfl, fun entry hentry => by cases hentry⟩
  obtain ⟨hhome, hsame⟩ := resolve_credentials args rfl
  obtain ⟨target, target', htarget, htarget', heq⟩ := hsame config {} hforeign hnone
  refine ⟨hforeign, hhome, target, target', htarget, htarget', heq, ?_⟩
  rw [resolve_foreign rfl hforeign] at htarget
  cases htarget
  rfl

end Nntp.Tui
