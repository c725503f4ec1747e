import Nntp.TestServer.Duplex
import Nntp.TestServer.Position

/-!
# One connection, and its upgrade

`serve` and `upgrade` of `server.rs`: a session over the socket, or over TLS from the first octet, or in the clear
until a `STARTTLS` and over TLS behind it. TLS itself is a parameter: what the reads of the encrypted stream will
return, from what those of the socket will.
-/

namespace Nntp.TestServer

open Nntp.Lib Nntp.Proto Nntp.Client

/-- How a server protects its connections. -/
inductive TlsMode where
  | disabled
  | implicit
  | startTls
  deriving DecidableEq, Repr

/-- What every session needs. -/
structure Shared where
  corpus : Corpus
  config : ServerConfig
  postbox : List PostedArticle := []
  mode : TlsMode := .disabled
  /-- `accept_tls` with the TLS configuration, if there is one; it may fail -/
  acceptTls : Option (Reads → Option Reads) := none

/-- Whether a session ended because nothing arrived for as long as the socket allows. -/
def isIdleTimeout : SessionError → Bool
  | .io .wouldBlock => true
  | .io .timedOut => true
  | _ => false

/-- A connection that is over: the session in the clear, what was written behind it, and the session over TLS. -/
structure Visit where
  clear : Option Ran := none
  parting : Bytes := []
  secure : Option Ran := none

/-- `set_encrypted`. -/
def Session.setEncrypted (session : Session) (encrypted : Bool) : Session :=
  { session with state := { session.state with encrypted } }

namespace Shared

/-- The session of a new connection. -/
def session (shared : Shared) : Session :=
  { Session.new shared.corpus shared.config with postbox := some shared.postbox }

/-- Completes a `STARTTLS` upgrade and resumes the session over the encrypted stream, without a second greeting. -/
def upgrade (shared : Shared) (ran : Ran) : Visit :=
  match shared.acceptTls with
  | none => { clear := some ran }
  | some acceptTls =>
      match acceptTls ran.reads with
      | none => { clear := some ran }
      | some reads => { clear := some ran, secure := some ((ran.session.setEncrypted true).resumeDuplex reads) }

/-- A connection, from its first octet to its last. -/
def serve (shared : Shared) (reads : Reads) : Visit :=
  if shared.mode = .implicit then
    match shared.acceptTls with
    | none => {}
    | some acceptTls =>
        match acceptTls reads with
        | none => {}
        | some reads => { secure := some ((shared.session.setEncrypted true).runDuplex reads) }
  else
    let ran := shared.session.runDuplex reads
    match ran.result with
    | .ok .closed => { clear := some ran }
    | .ok .upgradeToTls => shared.upgrade ran
    | .error error =>
        { clear := some ran
          parting :=
            if isIdleTimeout error then asBytes "400 idle too long, closing connection\r\n".toList else [] }

end Shared

/-! ## What a command does to the channel -/

/-- The channel a session runs over, and how it was configured. -/
structure SameChannel (session after : Session) : Prop where
  config : after.config = session.config
  encrypted : after.state.encrypted = session.state.encrypted

namespace SameChannel

theorem refl (session : Session) : SameChannel session session := ⟨rfl, rfl⟩

theorem trans {session mid after : Session} (h : SameChannel session mid) (h' : SameChannel mid after) :
    SameChannel session after where
  config := h'.config.trans h.config
  encrypted := h'.encrypted.trans h.encrypted

end SameChannel

namespace Session

variable {session after : Session}

theorem sameChannel_mode (args : List Str) : SameChannel session (session.mode args).1 := by
  unfold mode
  split_ifs <;> exact ⟨rfl, rfl⟩

theorem sameChannel_authinfo (args : List Str) : SameChannel session (session.authinfo args).1 := by
  unfold authinfo authinfoPass
  dsimp only
  repeat' split
  all_goals exact ⟨rfl, rfl⟩

theorem sameChannel_group (args : List Str) : SameChannel session (session.group args).1 := by
  unfold Session.group
  split
  · exact .refl session
  · split <;> exact ⟨rfl, rfl⟩

theorem sameChannel_listgroup (args : List Str) : SameChannel session (session.listgroup args).1 := by
  rw [listgroup_eq]
  split <;> exact ⟨rfl, rfl⟩

theorem sameChannel_fetch (verb : Verb) (args : List Str) : SameChannel session (session.fetch verb args).1 := by
  unfold fetch
  split
  · exact .refl session
  · exact .refl session
  · split_ifs <;> exact ⟨rfl, rfl⟩

theorem sameChannel_step (verb : Verb) : SameChannel session (session.step verb).1 := by
  unfold Session.step
  split
  · exact .refl session
  · split
    · exact .refl session
    · dsimp only
      split <;> exact ⟨rfl, rfl⟩

/-- **No command changes the channel.** -/
theorem sameChannel_perform (verb : Verb) (args : List Str) : SameChannel session (session.perform verb args).1 := by
  cases verb with
  | mode => exact sameChannel_mode args
  | authinfo => exact sameChannel_authinfo args
  | group => exact sameChannel_group args
  | listgroup => exact sameChannel_listgroup args
  | article => exact sameChannel_fetch _ args
  | head => exact sameChannel_fetch _ args
  | body => exact sameChannel_fetch _ args
  | stat => exact sameChannel_fetch _ args
  | next => exact sameChannel_step _
  | last => exact sameChannel_step _
  | _ => exact .refl session

/-- A session that may be upgraded: the server offers it, and nothing was promised in the clear. -/
structure Upgradable (session : Session) : Prop where
  offered : session.config.starttls = true
  bare : session.state.encrypted = false
  anonymous : session.state.authenticated = false

/-- What a session may be asked to be upgraded behind. -/
def continueTls : Reply := .plain 382 "continue with TLS negotiation"

/-- **Only `STARTTLS` asks for an upgrade**, only where one may be, and it changes nothing else. -/
theorem perform_upgrade {verb : Verb} {args : List Str} (h : (session.perform verb args).2.2 = .upgradeToTls) :
    (session.perform verb args).1 = session ∧ (session.perform verb args).2.1 = continueTls ∧ session.Upgradable := by
  cases verb with
  | starttls =>
      change session.starttls.2 = .upgradeToTls at h
      show session = session ∧ session.starttls.1 = continueTls ∧ _
      unfold Session.starttls at h ⊢
      cases hoffered : session.config.starttls with
      | false =>
          rw [hoffered] at h
          cases h
      | true =>
          rw [hoffered, Bool.not_true, if_neg Bool.false_ne_true] at h
          split_ifs at h with hencrypted hauthenticated
          rw [Bool.not_true, if_neg Bool.false_ne_true, if_neg hencrypted, if_neg hauthenticated]
          exact ⟨rfl, rfl, hoffered, Bool.not_eq_true _ ▸ hencrypted, Bool.not_eq_true _ ▸ hauthenticated⟩
  | post =>
      change session.post.2 = .upgradeToTls at h
      unfold Session.post at h
      split_ifs at h
  | quit => cases h
  | _ => cases h

theorem sameChannel_write (reply : Reply) : SameChannel session (session.write reply).1 := by
  unfold write
  split
  · exact .refl session
  · dsimp only [block]
    split <;> exact ⟨rfl, rfl⟩

/-- What a line is answered with, where it is answered. -/
theorem dispatch_cases (session : Session) (line : Bytes) :
    (∃ verb args, session.dispatch line = ((session.counted.perform verb args).1,
        some (session.counted.perform verb args).2.1, (session.counted.perform verb args).2.2)) ∨
      (∃ reply, session.dispatch line = (session.counted, some reply, .continue)) ∨
      session.dispatch line = (session.counted, none, .close) := by
  unfold dispatch
  dsimp only
  split_ifs
  · exact Or.inr (Or.inr rfl)
  · rcases answer_cases session.counted (fromUtf8Lossy line) with ⟨verb, args, -, -, hanswer⟩ | ⟨-, reply, hanswer⟩
    · change session.counted.answer (fromUtf8Lossy line) = _ at hanswer
      refine Or.inl ⟨verb, args, ?_⟩
      show ((session.counted.answer _).1, some (session.counted.answer _).2.1, (session.counted.answer _).2.2) = _
      rw [hanswer]
    · change session.counted.answer (fromUtf8Lossy line) = _ at hanswer
      refine Or.inr (Or.inl ⟨reply, ?_⟩)
      show ((session.counted.answer _).1, some (session.counted.answer _).2.1, (session.counted.answer _).2.2) = _
      rw [hanswer]

theorem sameChannel_counted : SameChannel session session.counted := ⟨rfl, rfl⟩

theorem sameChannel_dispatch (line : Bytes) : SameChannel session (session.dispatch line).1 := by
  rcases session.dispatch_cases line with ⟨verb, args, heq⟩ | ⟨reply, heq⟩ | heq <;> rw [heq]
  · exact sameChannel_counted.trans (sameChannel_perform verb args)
  · exact sameChannel_counted
  · exact sameChannel_counted

theorem handle_session (line : Bytes) :
    (session.handle line).1 = (((session.dispatch line).2.1.map (session.dispatch line).1.write).getD
      ((session.dispatch line).1, [])).1 := rfl

theorem sameChannel_handle (line : Bytes) : SameChannel session (session.handle line).1 := by
  rw [handle_session]
  cases (session.dispatch line).2.1 with
  | none => exact sameChannel_dispatch line
  | some reply => exact (sameChannel_dispatch line).trans (sameChannel_write reply)

/-- A line that asks for an upgrade is answered as `STARTTLS` is. -/
theorem handle_upgrade {line octets : Bytes} (h : session.handle line = (after, .upgradeToTls, octets)) :
    after = session.counted ∧ octets = statusLine session.config continueTls.code continueTls.text ∧
      session.Upgradable := by
  rcases session.dispatch_cases line with ⟨verb, args, heq⟩ | ⟨reply, heq⟩ | heq
  · unfold handle at h
    rw [heq] at h
    dsimp only [Option.map_some, Option.getD_some] at h
    simp only [Prod.mk.injEq] at h
    obtain ⟨hafter, hflow, hoctets⟩ := h
    split at hflow
    · cases hflow
    · obtain ⟨hsame, hreply, hupgradable⟩ := perform_upgrade hflow
      rw [hsame, hreply] at hafter hoctets
      exact ⟨hafter.symm, hoctets.symm, hupgradable.offered, hupgradable.bare, hupgradable.anonymous⟩
  · unfold handle at h
    rw [heq] at h
    dsimp only at h
    split at h <;> cases h
  · unfold handle at h
    rw [heq] at h
    dsimp only at h
    split at h <;> cases h

theorem sameChannel_acceptArticle (lines : List Bytes) : SameChannel session (session.acceptArticle lines).1 where
  config := by
    unfold acceptArticle
    dsimp only
    repeat' split
    all_goals rfl
  encrypted := congrArg State.encrypted (acceptArticle_keeps session lines).1

/-! ## What a session comes to -/

section Runs

variable {onUpgrade : Bytes → Except SessionError Outcome}

/-- A turn that goes on goes on over the same channel. -/
theorem sameChannel_turn {pending rest : Reads} {written : Bytes}
    (h : session.turn onUpgrade pending = .more after written rest) : SameChannel session after := by
  unfold turn at h
  split at h
  · cases h
  · split at h
    · cases h
    · next line _ _ _ _ =>
        have hhandle := @sameChannel_handle session (trimEol line)
        rcases heq : session.handle (trimEol line) with ⟨mid, flow, octets⟩
        rw [heq] at h hhandle
        cases flow with
        | «continue» =>
            cases h
            exact hhandle
        | close => cases h
        | upgradeToTls => cases h
        | readArticle =>
            dsimp only at h
            split at h
            · cases h
            · next lines _ _ _ =>
                cases h
                exact hhandle.trans ((sameChannel_acceptArticle lines).trans (sameChannel_write _))

/-- How a session ends: over the same channel, and asking for an upgrade only where there may be one, as the last
thing it writes. -/
structure Over (onUpgrade : Bytes → Except SessionError Outcome) (session : Session) (ran : Ran) : Prop where
  channel : SameChannel session ran.session
  upgrade : ran.result = .ok .upgradeToTls →
    onUpgrade ran.buffer = .ok .upgradeToTls ∧ ran.session.Upgradable ∧
      ∃ before, ran.written = before ++ statusLine session.config continueTls.code continueTls.text

theorem Over.behind {ran : Ran} (hchannel : SameChannel session after) (h : Over onUpgrade after ran)
    (octets : Bytes) : Over onUpgrade session (ran.behind octets) := by
  refine ⟨hchannel.trans h.channel, fun hresult => ?_⟩
  obtain ⟨hbuffer, hupgradable, before, hwritten⟩ := h.upgrade hresult
  refine ⟨hbuffer, hupgradable, octets ++ before, ?_⟩
  show octets ++ ran.written = _
  rw [hwritten, hchannel.config, List.append_assoc]

/-- A session that ends without an upgrade. -/
theorem Over.other {ran : Ran} (hchannel : SameChannel session ran.session) (h : ran.result ≠ .ok .upgradeToTls) :
    Over onUpgrade session ran :=
  ⟨hchannel, fun hresult => absurd hresult h⟩

theorem over_turn {pending : Reads} {ran : Ran} (h : session.turn onUpgrade pending = .ended ran) :
    Over onUpgrade session ran := by
  unfold turn at h
  split at h
  · cases h
    exact .other (.refl session) fun hresult => by cases hresult
  · split at h
    · cases h
      exact .other (.refl session) fun hresult => by cases hresult
    · next line _ _ _ _ =>
        have hhandle := @sameChannel_handle session (trimEol line)
        rcases heq : session.handle (trimEol line) with ⟨after, flow, octets⟩
        rw [heq] at h hhandle
        cases flow with
        | «continue» => cases h
        | close =>
            cases h
            exact .other hhandle fun hresult => by cases hresult
        | upgradeToTls =>
            cases h
            obtain ⟨rfl, rfl, hupgradable⟩ := handle_upgrade heq
            exact ⟨hhandle, fun hresult => ⟨hresult, ⟨hupgradable.offered, hupgradable.bare, hupgradable.anonymous⟩,
              [], rfl⟩⟩
        | readArticle =>
            dsimp only at h
            split at h
            · cases h
              exact .other hhandle fun hresult => by cases hresult
            · cases h

/-- **A session is over the channel it began over**, whatever comes. -/
theorem over_commandLoop (session : Session) (pending : Reads) :
    Over onUpgrade session (session.commandLoop onUpgrade pending) := by
  generalize hsize : (events pending).length = size
  induction size using Nat.strong_induction_on generalizing session pending with
  | h size ih =>
      cases hturn : session.turn onUpgrade pending with
      | ended ran =>
          rw [commandLoop_over hturn]
          exact over_turn hturn
      | more after written rest =>
          have hshorter := turn_shorter hturn
          rw [commandLoop_more hturn]
          exact (ih _ (by omega) after rest rfl).behind (sameChannel_turn hturn) written

/-- A greeting that goes on leaves the commands as they are. -/
theorem greeted_cases (session : Session) (reads : Reads) (commands : Ran) :
    session.greeted reads commands = commands.behind (statusLine session.config session.greet.1.code session.greet.1.text) ∨
      (session.greeted reads commands).result = .ok .closed ∧ (session.greeted reads commands).session = session := by
  unfold greeted
  dsimp only
  split_ifs
  · exact Or.inr ⟨rfl, rfl⟩
  · exact Or.inl rfl

end Runs

/-- What a session over a single stream does with what its reader has already taken. -/
def checkBuffer (buffer : Bytes) : Except SessionError Outcome :=
  if buffer.isEmpty then .ok .upgradeToTls else .error .dataAfterStarttls

theorem over_runDuplex (session : Session) (reads : Reads) : Over checkBuffer session (session.runDuplex reads) := by
  rcases session.greeted_cases reads (session.commandLoopDuplex reads) with heq | ⟨hresult, hsession⟩
  · show Over checkBuffer session (session.greeted reads _)
    rw [heq]
    exact (over_commandLoop session reads).behind (.refl session) _
  · refine .other ?_ ?_
    · rw [show (session.runDuplex reads).session = session from hsession]
      exact .refl session
    · rw [show (session.runDuplex reads).result = .ok .closed from hresult]
      exact nofun

theorem ends_runDuplex (session : Session) {reads : Reads} {input : Bytes} {failure : Option IoErrorKind}
    (h : Brings reads input failure) :
    Ends (session.runDuplex reads) ((Loop.start session).1.receive input).1
      ((Loop.start session).2 ++ ((Loop.start session).1.receive input).2) failure :=
  ends_greeted h (ends_commandLoop h _)

theorem input_start (session : Session) : (Loop.start session).1.input = [] := by
  unfold Loop.start
  rcases session.greet with ⟨reply, flow⟩
  rfl

/-- **A session that asks for an upgrade has seen nothing of what comes behind**: it ends as if nothing came. -/
theorem upgrade_alone (session : Session) {reads : Reads} {input : Bytes} {failure : Option IoErrorKind}
    (h : Brings reads input failure) (hupgrade : (session.runDuplex reads).result = .ok .upgradeToTls) :
    ∃ used rest, input = used ++ rest ∧ Brings (session.runDuplex reads).reads rest failure ∧
      (session.runDuplex (held used [])).session = (session.runDuplex reads).session ∧
      (session.runDuplex (held used [])).written = (session.runDuplex reads).written := by
  have hbuffer : (session.runDuplex reads).buffer = [] := by
    obtain ⟨hchecked, -, -⟩ := (over_runDuplex session reads).upgrade hupgrade
    unfold checkBuffer at hchecked
    split_ifs at hchecked with hempty
    exact List.isEmpty_iff.mp hempty
  have hends := ends_runDuplex session h
  have halone : ∀ used, Ends (session.runDuplex (held used [])) _ _ none :=
    fun used => ends_runDuplex session (show Brings (held used []) used none by simp [Brings])
  rw [Loop.receive_eq] at hends
  obtain ⟨used, hused, hdrain⟩ := Loop.drain_front ((Loop.start session).1.fed input)
  have hinput : input = used ++ ((Loop.start session).1.fed input).drain.1.input := by
    rw [← hused]
    show input = (Loop.start session).1.input ++ input
    rw [input_start, List.nil_append]
  unfold Ends at hends
  split at hends
  · next hended =>
      obtain ⟨hsession, hwritten, hleft⟩ := hends
      rw [hbuffer] at hleft
      refine ⟨used, _, hinput, hleft, ?_⟩
      have hcut : ((Loop.start session).1.receive used) =
          ({ ((Loop.start session).1.fed input).drain.1 with input := [] },
            ((Loop.start session).1.fed input).drain.2) := by
        rw [Loop.receive_eq, ← hdrain hended []]
        congr 1
        unfold Loop.fed
        rw [input_start, List.nil_append, List.append_nil]
      have hends' := halone used
      rw [hcut] at hends'
      unfold Ends at hends'
      rw [hended] at hends'
      exact ⟨hends'.1.trans hsession.symm, hends'.2.1.trans hwritten.symm⟩
  · next hgoing =>
      obtain ⟨hsession, hwritten, hleft⟩ := hends
      rw [hbuffer] at hleft
      have hreads : (session.runDuplex reads).reads = [] := hleft
      refine ⟨input, [], (List.append_nil _).symm, by rw [hreads]; rfl, ?_⟩
      have hends' := halone input
      rw [Loop.receive_eq] at hends'
      unfold Ends at hends'
      split at hends'
      · next hended => exact absurd hended hgoing
      · exact ⟨hends'.1.trans hsession.symm, hends'.2.1.trans hwritten.symm⟩
      · next hnone _ => cases hnone
  · rw [hends.1] at hupgrade
    cases hupgrade

end Session

/-! ## Whole connections -/

/-- How a session over TLS comes behind one in the clear, over a socket that brings some octets. -/
structure HandedOver (shared : Shared) (input : Bytes) (failure : Option IoErrorKind) (before after : Ran) :
    Prop where
  /-- the server offers it, and nobody has logged in in the clear -/
  upgradable : before.session.Upgradable
  /-- the last thing that is written in the clear is the answer to `STARTTLS` -/
  told : ∃ octets, before.written =
    octets ++ statusLine shared.config Session.continueTls.code Session.continueTls.text
  /-- what comes behind is TLS's: the session ended as if the octets that it used were all -/
  octets : ∃ used rest, input = used ++ rest ∧ Brings before.reads rest failure ∧
    (shared.session.runDuplex (held used [])).session = before.session ∧
    (shared.session.runDuplex (held used [])).written = before.written
  /-- the session goes on where it stopped, without a greeting -/
  resumed : ∃ acceptTls reads, shared.acceptTls = some acceptTls ∧ acceptTls before.reads = some reads ∧
    after = (before.session.setEncrypted true).resumeDuplex reads

namespace Shared

variable {shared : Shared}

theorem over_secure {onUpgrade : Bytes → Except SessionError Outcome} {session : Session} {ran : Ran}
    (h : Session.Over onUpgrade (session.setEncrypted true) ran) :
    ran.session.state.encrypted = true ∧ ran.result ≠ .ok .upgradeToTls := by
  have hencrypted : ran.session.state.encrypted = true := h.channel.encrypted
  refine ⟨hencrypted, fun hresult => ?_⟩
  have hbare := (h.upgrade hresult).2.1.bare
  rw [hencrypted] at hbare
  cases hbare

/-- **What goes over TLS stays there, and nothing that came in the clear comes with it**: a session over TLS asks
for no other upgrade; it is a connection's first, or it goes on from one in the clear, where nobody has logged in,
which `STARTTLS` was the last command of, and which has seen none of the octets that came behind. -/
theorem serve_secure (shared : Shared) {reads : Reads} {input : Bytes} {failure : Option IoErrorKind}
    (h : Brings reads input failure) {after : Ran} (hafter : (shared.serve reads).secure = some after) :
    after.session.state.encrypted = true ∧ after.result ≠ .ok .upgradeToTls ∧ (shared.serve reads).parting = [] ∧
      ((shared.mode = .implicit ∧ (shared.serve reads).clear = none) ∨
        ∃ before, (shared.serve reads).clear = some before ∧ HandedOver shared input failure before after) := by
  unfold serve at hafter ⊢
  by_cases hmode : shared.mode = .implicit
  · rw [if_pos hmode] at hafter ⊢
    cases haccept : shared.acceptTls with
    | none =>
        rw [haccept] at hafter
        cases hafter
    | some acceptTls =>
        rw [haccept] at hafter
        dsimp only at hafter ⊢
        cases hreads : acceptTls reads with
        | none =>
            rw [hreads] at hafter
            cases hafter
        | some reads' =>
            rw [hreads] at hafter
            cases hafter
            obtain ⟨hencrypted, hresult⟩ := over_secure (Session.over_runDuplex (shared.session.setEncrypted true) reads')
            exact ⟨hencrypted, hresult, rfl, Or.inl ⟨hmode, rfl⟩⟩
  · rw [if_neg hmode] at hafter ⊢
    cases hresult : (shared.session.runDuplex reads).result with
    | error error =>
        dsimp only at hafter
        rw [hresult] at hafter
        cases hafter
    | ok outcome =>
        dsimp only at hafter ⊢
        rw [hresult] at hafter ⊢
        cases outcome with
        | closed => cases hafter
        | upgradeToTls =>
            unfold upgrade at hafter ⊢
            cases haccept : shared.acceptTls with
            | none =>
                rw [haccept] at hafter
                cases hafter
            | some acceptTls =>
                rw [haccept] at hafter
                dsimp only at hafter ⊢
                cases hreads : acceptTls (shared.session.runDuplex reads).reads with
                | none =>
                    rw [hreads] at hafter
                    cases hafter
                | some reads' =>
                    rw [hreads] at hafter
                    cases hafter
                    have hover := Session.over_runDuplex shared.session reads
                    obtain ⟨-, hupgradable, htold⟩ := hover.upgrade hresult
                    obtain ⟨hencrypted, honce⟩ := over_secure (Session.over_commandLoop
                      ((shared.session.runDuplex reads).session.setEncrypted true) reads')
                    exact ⟨hencrypted, honce, rfl, Or.inr ⟨_, rfl, hupgradable, htold,
                      Session.upgrade_alone shared.session h hresult, acceptTls, reads', haccept, hreads, rfl⟩⟩

/-- A server that offers an upgrade; TLS is whatever comes. -/
def upgraded : Shared where
  corpus := { groups := [] }
  config := { starttls := true }
  mode := .startTls
  acceptTls := some some

def upgradeReads : Reads := [.data (asBytes "STARTTLS\r\n".toList), .data (asBytes "QUIT\r\n".toList)]

theorem serve_secure_upgraded : ∃ after, (upgraded.serve upgradeReads).secure = some after ∧
    after.session.state.encrypted = true ∧ after.result ≠ .ok .upgradeToTls ∧
      (upgraded.serve upgradeReads).parting = [] ∧
      ((upgraded.mode = .implicit ∧ (upgraded.serve upgradeReads).clear = none) ∨
        ∃ before, (upgraded.serve upgradeReads).clear = some before ∧
          HandedOver upgraded (asBytes "STARTTLS\r\nQUIT\r\n".toList) none before after) := by
  have hsome : (upgraded.serve upgradeReads).secure.isSome = true := by decide +kernel
  obtain ⟨after, hafter⟩ := Option.isSome_iff_exists.mp hsome
  exact ⟨after, hafter, serve_secure upgraded
    (show Brings upgradeReads (asBytes "STARTTLS\r\nQUIT\r\n".toList) none from rfl) hafter⟩

end Shared

end Nntp.TestServer
