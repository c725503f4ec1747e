import Nntp.Proto.Wildmat
import Nntp.Tui.Connecting

/-!
# What a configuration has to be like

`Config::validate` of `config.rs`, which a configuration file goes through before anything else sees it, and what the
reader and `groups` of `commands.rs` make of the subscriptions. What is checked of the file is what is needed of every
target that comes of it, whatever the flags are.
-/

namespace Nntp.Tui

open Nntp.Proto Nntp.Client

/-! ## The check -/

/-- Why a configuration contradicts itself, with what the message names. -/
inductive ValidateError where
  | noSuchDefault (name : Str)
  | noHost (name : Str)
  | severalSources (name : Str) (sources : List String)
  | unusableSubscription (name pattern : Str) (error : ProtoError)
  deriving DecidableEq, Repr

/-- Where the password of a server could come from. -/
def ServerConfig.passwordSources (server : ServerConfig) : List String :=
  [server.password.map fun _ => "password", server.passwordEnv.map fun _ => "password_env",
    server.passwordCommand.map fun _ => "password_command"].reduceOption

/-- The loop over the subscriptions of one server. -/
def validatePatterns (name : Str) : List Str → Except ValidateError Unit
  | [] => .ok ()
  | pattern :: patterns =>
      match Wildmat.parse pattern with
      | .error error => .error (.unusableSubscription name pattern error)
      | .ok _ => validatePatterns name patterns

/-- The loop over the servers. -/
def validateServers : List (Str × ServerConfig) → Except ValidateError Unit
  | [] => .ok ()
  | (name, server) :: servers =>
      if (trim server.host).isEmpty then .error (.noHost name)
      else if 1 < server.passwordSources.length then .error (.severalSources name server.passwordSources)
      else
        match validatePatterns name server.subscriptions with
        | .error error => .error error
        | .ok () => validateServers servers

/-- Checks the configuration for contradictions. -/
def Config.validate (config : Config) : Except ValidateError Unit :=
  match config.defaultServer with
  | some name =>
      if config.servers.any fun entry => entry.1 = name then validateServers config.servers
      else .error (.noSuchDefault name)
  | none => validateServers config.servers

/-- The patterns that the reader asks for: those that can be sent. -/
def Target.subscriptions (target : Target) : List Wildmat :=
  target.server.subscriptions.filterMap fun pattern => (Wildmat.parse pattern).toOption

/-- The pattern that `groups` asks for when it is not given one. -/
def Target.groupsPattern (target : Target) : Except ProtoError (Option Wildmat) :=
  match target.server.subscriptions.mapM Wildmat.parse with
  | .error error => .error error
  | .ok patterns => Wildmat.join patterns

/-! ## What is checked -/

/-- At most one source for the password, and subscriptions that can be sent. -/
structure ServerConfig.Unambiguous (server : ServerConfig) : Prop where
  sources : server.passwordSources.length ≤ 1
  subscriptions : ∀ pattern ∈ server.subscriptions, Wildmat.isWellFormed pattern = true

theorem validatePatterns_ok (name : Str) (patterns : List Str) :
    validatePatterns name patterns = .ok () ↔ ∀ pattern ∈ patterns, Wildmat.isWellFormed pattern = true := by
  induction patterns with
  | nil => simp [validatePatterns]
  | cons pattern patterns ih =>
      rw [List.forall_mem_cons, validatePatterns]
      by_cases hpattern : Wildmat.isWellFormed pattern = true
      · have hparse : Wildmat.parse pattern = .ok ⟨pattern, hpattern⟩ := dif_pos hpattern
        rw [hparse]
        dsimp only
        rw [ih, and_iff_right hpattern]
      · have hparse : Wildmat.parse pattern = .error (.invalidWildmat pattern) := dif_neg hpattern
        rw [hparse]
        exact iff_of_false nofun fun h => hpattern h.1

theorem validateServers_ok (servers : List (Str × ServerConfig)) :
    validateServers servers = .ok () ↔
      ∀ entry ∈ servers, (trim entry.2.host).isEmpty = false ∧ entry.2.Unambiguous := by
  induction servers with
  | nil => simp [validateServers]
  | cons entry servers ih =>
      obtain ⟨name, server⟩ := entry
      rw [List.forall_mem_cons, validateServers]
      by_cases hhost : (trim server.host).isEmpty = true
      · rw [if_pos hhost]
        exact iff_of_false nofun fun h => absurd h.1.1 (by rw [hhost]; decide)
      · rw [if_neg hhost]
        by_cases hsources : 1 < server.passwordSources.length
        · rw [if_pos hsources]
          exact iff_of_false nofun fun h => absurd h.1.2.sources (not_le.mpr hsources)
        · rw [if_neg hsources]
          have hpatterns := validatePatterns_ok name server.subscriptions
          cases hresult : validatePatterns name server.subscriptions with
          | error error =>
              rw [hresult] at hpatterns
              exact iff_of_false nofun fun h => nomatch hpatterns.mpr h.1.2.subscriptions
          | ok _ =>
              have hok := hpatterns.mp hresult
              dsimp only
              rw [ih]
              exact (and_iff_right ⟨Bool.eq_false_iff.mpr hhost, not_lt.mp hsources, hok⟩).symm

/-- **What `validate` accepts.** -/
theorem validate_ok (config : Config) : config.validate = .ok () ↔
    (∀ name ∈ config.defaultServer, ∃ entry ∈ config.servers, entry.1 = name) ∧
      ∀ entry ∈ config.servers, (trim entry.2.host).isEmpty = false ∧ entry.2.Unambiguous := by
  unfold Config.validate
  cases hdefault : config.defaultServer with
  | none =>
      dsimp only
      rw [validateServers_ok]
      exact (and_iff_right nofun).symm
  | some name =>
      dsimp only
      have hany : (config.servers.any fun entry => entry.1 = name) = true ↔
          ∃ entry ∈ config.servers, entry.1 = name := by simp
      by_cases hname : ∃ entry ∈ config.servers, entry.1 = name
      · rw [if_pos (hany.mpr hname), validateServers_ok]
        exact (and_iff_right (by rintro _ ⟨⟩; exact hname)).symm
      · rw [if_neg (by rwa [hany])]
        exact iff_of_false nofun fun h => hname (h.1 name rfl)

/-! ## What comes of it -/

section Flags

variable (args : ServerArgs) (server : ServerConfig)

theorem override_subscriptions : (args.override server).subscriptions = server.subscriptions := by
  unfold ServerArgs.override
  cases args.host <;> cases args.passwordCommand <;> cases args.passwordEnv <;> rfl

theorem length_passwordSources : server.passwordSources.length =
    server.password.isSome.toNat + server.passwordEnv.isSome.toNat + server.passwordCommand.isSome.toNat := by
  unfold ServerConfig.passwordSources
  cases server.password <;> cases server.passwordEnv <;> cases server.passwordCommand <;> rfl

/-- A flag for the password takes the place of what was configured. -/
theorem length_passwordSources_override (h : server.passwordSources.length ≤ 1) :
    (args.override server).passwordSources.length ≤ 1 := by
  rw [length_passwordSources] at h ⊢
  rw [override_password, override_passwordEnv, override_passwordCommand]
  cases args.passwordCommand <;> cases args.passwordEnv <;> simp_all

theorem override_unambiguous (h : server.Unambiguous) : (args.override server).Unambiguous := by
  refine ⟨length_passwordSources_override args server h.sources, ?_⟩
  rw [override_subscriptions]
  exact h.subscriptions

end Flags

theorem unambiguous_default : ServerConfig.Unambiguous {} := ⟨by decide, fun _ h => absurd h List.not_mem_nil⟩

/-- What the flags apply to is a configured server, or none in particular and then a host is among them. -/
theorem resolveBase_mem {config : Config} {args : ServerArgs} {base : Str × ServerConfig}
    (h : resolveBase config args = .ok base) :
    base ∈ config.servers ∨ base = (commandLine, {}) ∧ args.host.isSome = true := by
  have hentry : ∀ entry, config.server args.server = .ok entry → entry ∈ config.servers := by
    intro entry hserver
    unfold Config.server at hserver
    split at hserver
    · split at hserver
      · next found hfind =>
          cases hserver
          exact List.mem_of_find?_eq_some hfind
      · cases hserver
    · split at hserver
      · split at hserver
        · next found hfind =>
            cases hserver
            exact List.mem_of_find?_eq_some hfind
        · cases hserver
      · split at hserver
        · next hone =>
            cases hserver
            rw [hone]
            exact List.mem_singleton_self _
        · cases hserver
        · cases hserver
  unfold resolveBase at h
  split at h
  · next entry hserver =>
      split at h
      · next host hhost =>
          split at h
          · cases h
            exact Or.inr ⟨rfl, by rw [hhost]; rfl⟩
          · cases h
            exact Or.inl (hentry _ hserver)
      · cases h
        exact Or.inl (hentry _ hserver)
  · split at h
    · cases h
    · next hhost =>
        cases h
        exact Or.inr ⟨rfl, by simpa [Option.isNone_iff_eq_none, Option.isSome_iff_ne_none] using hhost⟩

/-- A pattern that can be sent is sent as it was written. -/
theorem asStr_subscriptions (target : Target) :
    target.subscriptions.map (·.asStr) = target.server.subscriptions ↔
      ∀ pattern ∈ target.server.subscriptions, Wildmat.isWellFormed pattern = true := by
  unfold Target.subscriptions
  refine ⟨fun h pattern hpattern => ?_, fun h => ?_⟩
  · rw [← h] at hpattern
    obtain ⟨w, -, rfl⟩ := List.mem_map.mp hpattern
    exact w.wellFormed
  · generalize target.server.subscriptions = patterns at h ⊢
    induction patterns with
    | nil => rfl
    | cons pattern patterns ih =>
        obtain ⟨hpattern, hrest⟩ := List.forall_mem_cons.mp h
        have hparse : (Wildmat.parse pattern).toOption = some ⟨pattern, hpattern⟩ := by
          unfold Wildmat.parse
          rw [dif_pos hpattern]
          rfl
        rw [List.filterMap_cons, hparse]
        exact congrArg (pattern :: ·) (ih hrest)

/-- Where every pattern can be sent, `groups` asks for what the reader asks for. -/
theorem groupsPattern_eq (target : Target)
    (h : ∀ pattern ∈ target.server.subscriptions, Wildmat.isWellFormed pattern = true) :
    target.groupsPattern = Wildmat.join target.subscriptions := by
  have hall : target.server.subscriptions.mapM Wildmat.parse = .ok target.subscriptions := by
    unfold Target.subscriptions
    generalize target.server.subscriptions = patterns at h ⊢
    induction patterns with
    | nil => rfl
    | cons pattern patterns ih =>
        obtain ⟨hpattern, hrest⟩ := List.forall_mem_cons.mp h
        have hparse : Wildmat.parse pattern = .ok ⟨pattern, hpattern⟩ := dif_pos hpattern
        rw [List.mapM_cons, List.filterMap_cons, hparse, ih hrest]
        rfl
  unfold Target.groupsPattern
  rw [hall]

/-- A target that can be worked with: it has a host unless the flags blank it out, there is one source at most for
its password, and none of its subscriptions is left out. -/
structure Target.Sound (target : Target) (args : ServerArgs) : Prop where
  host : target.server.connectOptions target.limits = none → ∃ host ∈ args.host, (trim host).isEmpty = true
  sources : target.server.passwordSources.length ≤ 1
  subscriptions : target.subscriptions.map (·.asStr) = target.server.subscriptions
  groupsPattern : target.groupsPattern = Wildmat.join target.subscriptions

theorem connectOptions_eq_none (server : ServerConfig) (limits : Limits) :
    server.connectOptions limits = none ↔ (trim server.host).isEmpty = true := by
  unfold ServerConfig.connectOptions
  split <;> simp_all

/-- A default that is defined is found. -/
theorem resolve_ne_defaultNotDefined {config : Config}
    (hdefault : ∀ name ∈ config.defaultServer, ∃ entry ∈ config.servers, entry.1 = name) (args : ServerArgs) :
    resolve config args ≠ .error .defaultNotDefined := by
  have hserver : config.server args.server ≠ .error .defaultNotDefined := by
    unfold Config.server
    split
    · split <;> exact nofun
    · split
      · next name hname =>
          obtain ⟨entry, hentry, heq⟩ := hdefault name hname
          split
          · exact nofun
          · next hfind => exact absurd heq (by simpa using List.find?_eq_none.mp hfind entry hentry)
      · split <;> exact nofun
  intro hresolve
  unfold resolve at hresolve
  split at hresolve
  · cases hresolve
  · next error hbase =>
      cases hresolve
      unfold resolveBase at hbase
      split at hbase
      · split at hbase
        · split at hbase <;> cases hbase
        · cases hbase
      · next error herror =>
          split at hbase
          · cases hbase
            exact hserver herror
          · cases hbase

/-- A server that is named, and nothing else, is what it was configured to be. -/
theorem resolve_named {config : Config} {entry : Str × ServerConfig} (hentry : entry ∈ config.servers) :
    resolve config { server := some entry.1 } =
      .ok { label := entry.1, server := entry.2, limits := config.limits } := by
  have hfind : (config.servers.find? fun other => other.1 = entry.1) = some entry := by
    have hascending := config.ascending
    generalize config.servers = servers at hentry hascending ⊢
    induction servers with
    | nil => cases hentry
    | cons first servers ih =>
        obtain ⟨hfirst, hrest⟩ := List.pairwise_cons.mp hascending
        rcases List.mem_cons.mp hentry with rfl | hentry
        · exact List.find?_cons_of_pos (decide_eq_true rfl)
        · rw [List.find?_cons_of_neg (by simpa using (hfirst entry hentry).ne)]
          exact ih hentry hrest
  have hserver : config.server (some entry.1) = .ok entry := by
    unfold Config.server
    dsimp only
    rw [hfind]
  unfold resolve resolveBase
  dsimp only
  rw [hserver]
  rfl

end Nntp.Tui
