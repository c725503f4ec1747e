import Nntp.TestServer.Numbering
import Nntp.TestServer.Serving

/-!
# What a stranger is told

`dispatch`, `authinfo` and `serve`, on a server that requires a login, with a client that does not log in: what the
connection brings is the same whatever the corpus holds and whatever the credentials are, and it changes nothing. The
argument is about two runs over the same octets, of servers that differ in nothing else.
-/

namespace Nntp.TestServer

open Nntp.Lib Nntp.Proto Nntp.Client

/-- Two sessions in which nobody has logged in, of servers that require it and differ in nothing but what only those
may know who have. -/
structure Alike (session other : Session) : Prop where
  state : other.state = session.state
  config : other.config = { session.config with credentials := other.config.credentials }
  offered : other.config.credentials.isSome = session.config.credentials.isSome
  locked : session.config.requireAuth = true
  anonymous : session.state.authenticated = false

/-- Somebody has logged in in one of two sessions. -/
def LogsIn (session other : Session) : Prop :=
  session.state.authenticated = true ∨ other.state.authenticated = true

/-- Nothing that a server keeps is changed. -/
structure Untouched (session after : Session) : Prop where
  corpus : after.corpus = session.corpus
  postbox : after.postbox = session.postbox

theorem Untouched.refl (session : Session) : Untouched session session := ⟨rfl, rfl⟩

theorem Untouched.trans {session mid after : Session} (h : Untouched session mid) (h' : Untouched mid after) :
    Untouched session after :=
  ⟨h'.corpus.trans h.corpus, h'.postbox.trans h.postbox⟩

/-- The session behind a turn. -/
def Turn.after : Turn → Session
  | .more session _ _ => session
  | .ended ran => ran.session

/-- Two sessions that ended alike, with nobody logged in. -/
structure EndsAlike (ran ran' : Ran) : Prop where
  session : Alike ran.session ran'.session
  result : ran'.result = ran.result
  written : ran'.written = ran.written
  buffer : ran'.buffer = ran.buffer
  reads : ran'.reads = ran.reads

namespace Session

variable {session other : Session}

/-! ## One command -/

/-- What only those may know who have logged in. -/
theorem alike_eq (h : Alike session other) : ∃ corpus credentials postbox processId,
    other = { session with corpus, config := { session.config with credentials }, postbox, processId } ∧
      credentials.isSome = session.config.credentials.isSome := by
  obtain ⟨corpus, config, state, postbox, processId⟩ := other
  obtain ⟨hstate, hconfig, hoffered, -, -⟩ := h
  dsimp only at hstate hconfig hoffered
  exact ⟨corpus, config.credentials, postbox, processId, by rw [hstate, ← hconfig], hoffered⟩

/-- What something comes to in both sessions: one of them logs in, or they go on alike and say the same. -/
def Told {α : Type} (result result' : Session × α) : Prop :=
  LogsIn result.1 result'.1 ∨ Alike result.1 result'.1 ∧ result'.2 = result.2

theorem told_capabilities (h : Alike session other) : other.capabilities = session.capabilities := by
  obtain ⟨corpus, credentials, postbox, processId, rfl, hoffered⟩ := alike_eq h
  unfold Session.capabilities capabilityLines
  dsimp only
  rw [hoffered]

theorem told_mode (h : Alike session other) (args : List Str) :
    Alike (session.mode args).1 (other.mode args).1 ∧ (other.mode args).2 = (session.mode args).2 := by
  obtain ⟨corpus, credentials, postbox, processId, rfl, hoffered⟩ := alike_eq h
  unfold mode
  split_ifs <;> exact ⟨⟨rfl, rfl, hoffered, h.locked, h.anonymous⟩, rfl⟩

/-- **A login that fails says nothing of the credentials.** -/
theorem told_authinfo (h : Alike session other) (args : List Str) :
    Told (session.authinfo args) (other.authinfo args) := by
  obtain ⟨corpus, credentials, postbox, processId, rfl, hoffered⟩ := alike_eq h
  unfold authinfo
  cases hcredentials : session.config.credentials with
  | none =>
      rw [hcredentials] at hoffered
      obtain rfl := Option.isSome_eq_false_iff.mp hoffered |> Option.isNone_iff_eq_none.mp
      exact Or.inr ⟨h, rfl⟩
  | some mine =>
      rw [hcredentials] at hoffered
      obtain ⟨theirs, rfl⟩ := Option.isSome_iff_exists.mp hoffered
      dsimp only
      split_ifs with huser hpass
      · exact Or.inr ⟨⟨rfl, rfl, by simp [hcredentials], h.locked, h.anonymous⟩, rfl⟩
      · unfold authinfoPass
        dsimp only
        cases session.state.pendingUser with
        | none => exact Or.inr ⟨h, rfl⟩
        | some user =>
            dsimp only
            split_ifs
            · exact Or.inl (Or.inl rfl)
            · exact Or.inl (Or.inl rfl)
            · exact Or.inl (Or.inr rfl)
            · exact Or.inr ⟨⟨rfl, rfl, by simp [hcredentials], h.locked, h.anonymous⟩, rfl⟩
      · exact Or.inr ⟨h, rfl⟩

/-- **A command that is served without a login** tells both the same. -/
theorem told_perform (h : Alike session other) {verb : Verb} (hserved : verb.servedUnauthenticated = true)
    (args : List Str) : Told (session.perform verb args) (other.perform verb args) := by
  cases verb with
  | quit => exact Or.inr ⟨h, rfl⟩
  | capabilities =>
      refine Or.inr ⟨h, ?_⟩
      show (other.capabilities, Flow.continue) = (session.capabilities, Flow.continue)
      rw [told_capabilities h]
  | mode =>
      obtain ⟨halike, hreply⟩ := told_mode h args
      exact Or.inr ⟨halike, congrArg (·, Flow.continue) hreply⟩
  | authinfo =>
      rcases told_authinfo h args with hlogin | ⟨halike, hreply⟩
      · exact Or.inl hlogin
      · exact Or.inr ⟨halike, congrArg (·, Flow.continue) hreply⟩
  | date => exact Or.inr ⟨h, rfl⟩
  | help =>
      obtain ⟨corpus, credentials, postbox, processId, rfl, hoffered⟩ := alike_eq h
      exact Or.inr ⟨h, rfl⟩
  | starttls =>
      obtain ⟨corpus, credentials, postbox, processId, rfl, hoffered⟩ := alike_eq h
      exact Or.inr ⟨h, rfl⟩
  | _ => cases hserved

theorem alike_needsAuth (h : Alike session other) : session.needsAuth = true ∧ other.needsAuth = true := by
  obtain ⟨corpus, credentials, postbox, processId, rfl, hoffered⟩ := alike_eq h
  have hneeds : session.needsAuth = true := by
    unfold needsAuth
    rw [h.locked, h.anonymous]
    rfl
  exact ⟨hneeds, hneeds⟩

theorem told_answer (h : Alike session other) (text : Str) : Told (session.answer text) (other.answer text) := by
  obtain ⟨hneeds, hneeds'⟩ := alike_needsAuth h
  unfold answer
  rw [hneeds, hneeds']
  dsimp only
  split
  · exact Or.inr ⟨h, rfl⟩
  · split
    · next verb _ =>
        cases hserved : verb.servedUnauthenticated with
        | true => exact told_perform h hserved _
        | false => exact Or.inr ⟨h, rfl⟩
    · exact Or.inr ⟨h, rfl⟩

theorem alike_counted (h : Alike session other) : Alike session.counted other.counted :=
  ⟨by unfold counted; rw [h.state], h.config, h.offered, h.locked, h.anonymous⟩

theorem dispatch_eq (session : Session) (line : Bytes) : session.dispatch line =
    if session.config.quirks.closeAfterCommands.any (· < session.state.commandsServed + 1) then
      (session.counted, none, .close)
    else
      ((session.counted.answer (fromUtf8Lossy line)).1, some (session.counted.answer (fromUtf8Lossy line)).2.1,
        (session.counted.answer (fromUtf8Lossy line)).2.2) := rfl

theorem told_dispatch (h : Alike session other) (line : Bytes) :
    Told (session.dispatch line) (other.dispatch line) := by
  have hquirk : other.config.quirks = session.config.quirks := by rw [h.config]
  rw [dispatch_eq, dispatch_eq, hquirk, h.state]
  split_ifs
  · exact Or.inr ⟨alike_counted h, rfl⟩
  · rcases told_answer (alike_counted h) (fromUtf8Lossy line) with hlogin | ⟨halike, hsame⟩
    · exact Or.inl hlogin
    · refine Or.inr ⟨halike, ?_⟩
      show (some _, _) = _
      rw [hsame]

/-! ### Writing -/

theorem alike_write (h : Alike session other) (reply : Reply) :
    Alike (session.write reply).1 (other.write reply).1 ∧ (other.write reply).2 = (session.write reply).2 := by
  obtain ⟨corpus, credentials, postbox, processId, rfl, hoffered⟩ := alike_eq h
  unfold Session.write
  cases reply.block with
  | none => exact ⟨h, rfl⟩
  | some lines =>
      dsimp only [block]
      split_ifs <;> exact ⟨⟨rfl, rfl, hoffered, h.locked, h.anonymous⟩, rfl⟩

theorem authenticated_write (reply : Reply) :
    (session.write reply).1.state.authenticated = session.state.authenticated := by
  unfold Session.write
  cases reply.block with
  | none => rfl
  | some lines =>
      dsimp only [block]
      split_ifs <;> rfl

/-- The session behind an answer, if there is one, and what was written of it. -/
def written (session : Session) (reply : Option Reply) : Session × Bytes := (reply.map session.write).getD (session, [])

theorem handle_eq (session : Session) (line : Bytes) : session.handle line =
    (((session.dispatch line).1.written (session.dispatch line).2.1).1,
      if ((session.dispatch line).1.written (session.dispatch line).2.1).1.state.closeRequested then .close
      else (session.dispatch line).2.2,
      ((session.dispatch line).1.written (session.dispatch line).2.1).2) := rfl

theorem authenticated_written (reply : Option Reply) :
    (session.written reply).1.state.authenticated = session.state.authenticated := by
  cases reply with
  | none => rfl
  | some reply => exact authenticated_write reply

theorem alike_written (h : Alike session other) (reply : Option Reply) :
    Alike (session.written reply).1 (other.written reply).1 ∧ (other.written reply).2 = (session.written reply).2 := by
  cases reply with
  | none => exact ⟨h, rfl⟩
  | some reply => exact alike_write h reply

/-- **A line** is answered alike, unless it is a login. -/
theorem told_handle (h : Alike session other) (line : Bytes) : Told (session.handle line) (other.handle line) := by
  rw [handle_eq, handle_eq]
  rcases told_dispatch h line with hlogin | ⟨halike, hsame⟩
  · left
    unfold LogsIn
    dsimp only
    rw [authenticated_written, authenticated_written]
    exact hlogin
  · obtain ⟨hwritten, hoctets⟩ := alike_written halike (session.dispatch line).2.1
    right
    rw [hsame]
    refine ⟨hwritten, ?_⟩
    dsimp only
    rw [hoctets, hwritten.state]

/-! ### Afterwards -/

theorem authenticated_fetch (verb : Verb) (args : List Str) :
    (session.fetch verb args).1.state.authenticated = session.state.authenticated := by
  unfold fetch
  split
  · rfl
  · rfl
  · split_ifs <;> rfl

theorem authenticated_step (verb : Verb) :
    (session.step verb).1.state.authenticated = session.state.authenticated := by
  unfold step
  split
  · rfl
  · split
    · rfl
    · dsimp only
      split <;> rfl

theorem authenticated_authinfo (h : session.state.authenticated = true) (args : List Str) :
    (session.authinfo args).1.state.authenticated = true := by
  unfold authinfo authinfoPass
  dsimp only
  repeat' split
  all_goals first | exact h | rfl

/-- **Who has logged in stays so.** -/
theorem authenticated_perform (h : session.state.authenticated = true) (verb : Verb) (args : List Str) :
    (session.perform verb args).1.state.authenticated = true := by
  cases verb with
  | mode =>
      show (session.mode args).1.state.authenticated = true
      unfold mode
      split_ifs <;> exact h
  | authinfo => exact authenticated_authinfo h args
  | group =>
      show (session.group args).1.state.authenticated = true
      unfold Session.group
      repeat' split
      all_goals exact h
  | listgroup =>
      show (session.listgroup args).1.state.authenticated = true
      unfold listgroup
      repeat' split
      all_goals exact h
  | article => exact (authenticated_fetch .article args).trans h
  | head => exact (authenticated_fetch .head args).trans h
  | body => exact (authenticated_fetch .body args).trans h
  | stat => exact (authenticated_fetch .stat args).trans h
  | next => exact (authenticated_step .next).trans h
  | last => exact (authenticated_step .last).trans h
  | _ => exact h

theorem authenticated_handle (h : session.state.authenticated = true) (line : Bytes) :
    (session.handle line).1.state.authenticated = true := by
  rw [handle_eq, authenticated_written]
  rcases session.dispatch_cases line with ⟨verb, args, heq⟩ | ⟨reply, heq⟩ | heq <;> rw [heq]
  · exact @authenticated_perform session.counted h verb args
  · exact h
  · exact h

/-- A command that is served without a login changes nothing that the server keeps, and takes no article. -/
theorem untouched_perform {verb : Verb} (hserved : verb.servedUnauthenticated = true) (args : List Str) :
    Untouched session (session.perform verb args).1 ∧ (session.perform verb args).2.2 ≠ .readArticle := by
  cases verb with
  | mode =>
      refine ⟨?_, nofun⟩
      show Untouched session (session.mode args).1
      unfold mode
      split_ifs <;> exact ⟨rfl, rfl⟩
  | authinfo =>
      refine ⟨?_, nofun⟩
      show Untouched session (session.authinfo args).1
      unfold authinfo authinfoPass
      dsimp only
      repeat' split
      all_goals exact ⟨rfl, rfl⟩
  | starttls =>
      refine ⟨.refl session, ?_⟩
      show session.starttls.2 ≠ .readArticle
      unfold starttls
      split_ifs <;> exact nofun
  | quit => exact ⟨.refl session, nofun⟩
  | capabilities => exact ⟨.refl session, nofun⟩
  | date => exact ⟨.refl session, nofun⟩
  | help => exact ⟨.refl session, nofun⟩
  | _ => cases hserved

theorem untouched_written (reply : Option Reply) : Untouched session (session.written reply).1 := by
  cases reply with
  | none => exact .refl session
  | some reply =>
      show Untouched session (session.write reply).1
      unfold Session.write
      split
      · exact .refl session
      · dsimp only [block]
        split_ifs <;> exact ⟨rfl, rfl⟩

/-- **Nothing is changed before a login**, and no article is taken. -/
theorem untouched_handle (h : session.needsAuth = true) (line : Bytes) :
    Untouched session (session.handle line).1 ∧ (session.handle line).2.1 ≠ .readArticle := by
  have hanswer : Untouched session (session.dispatch line).1 ∧ (session.dispatch line).2.2 ≠ .readArticle := by
    rw [dispatch_eq]
    split_ifs
    · exact ⟨⟨rfl, rfl⟩, nofun⟩
    · rcases answer_cases session.counted (fromUtf8Lossy line) with
        ⟨verb, args, -, hserved, hanswer⟩ | ⟨-, reply, hanswer⟩
      · change session.counted.answer _ = session.counted.perform verb args at hanswer
        rw [hanswer]
        rw [needsAuth_counted, h] at hserved
        obtain ⟨huntouched, hflow⟩ := @untouched_perform session.counted verb (by simpa using hserved) args
        exact ⟨⟨huntouched.corpus, huntouched.postbox⟩, hflow⟩
      · change session.counted.answer _ = _ at hanswer
        rw [hanswer]
        exact ⟨⟨rfl, rfl⟩, nofun⟩
  rw [handle_eq]
  refine ⟨hanswer.1.trans (untouched_written _), ?_⟩
  dsimp only
  split_ifs
  · exact nofun
  · exact hanswer.2

/-! ## Whole sessions -/

section Runs

variable {onUpgrade : Bytes → Except SessionError Outcome} {pending : Reads}

/-- What a line leaves of a login is what its turn leaves of it. -/
theorem authenticated_turn_line {line buffer : Bytes} {reads : Reads}
    (hread : readUntil [] pending = (.ok line, buffer, reads)) (hne : line ≠ []) :
    (session.turn onUpgrade pending).after.state.authenticated =
      (session.handle (trimEol line)).1.state.authenticated := by
  rcases hhandle : session.handle (trimEol line) with ⟨mid, flow, octets⟩
  cases flow with
  | «continue» => rw [turn_continue hread hne hhandle]; rfl
  | close => rw [turn_close hread hne hhandle]; rfl
  | upgradeToTls => rw [turn_upgrade hread hne hhandle]; rfl
  | readArticle =>
      rcases hposted : readPosted (held buffer reads) with ⟨kind | lines, buffer', reads'⟩
      · rw [turn_article_failure hread hne hhandle hposted]
        rfl
      · rw [turn_article hread hne hhandle hposted]
        show ((mid.acceptArticle lines).1.write _).1.state.authenticated = _
        rw [authenticated_write, (acceptArticle_keeps mid lines).1]

theorem authenticated_turn (h : session.state.authenticated = true) :
    (session.turn onUpgrade pending).after.state.authenticated = true := by
  rcases hread : readUntil [] pending with ⟨kind | line, buffer, reads⟩
  · rw [turn_failure hread]
    exact h
  · by_cases hne : line = []
    · rw [hne] at hread
      rw [turn_end hread]
      exact h
    · rw [authenticated_turn_line hread hne]
      exact authenticated_handle h _

theorem authenticated_commandLoop (session : Session) (pending : Reads)
    (h : (session.turn onUpgrade pending).after.state.authenticated = true) :
    (session.commandLoop onUpgrade pending).session.state.authenticated = true := by
  generalize hsize : (events pending).length = size
  induction size using Nat.strong_induction_on generalizing session pending with
  | h size ih =>
      cases hturn : session.turn onUpgrade pending with
      | ended ran =>
          rw [hturn] at h
          rw [commandLoop_over hturn]
          exact h
      | more after written rest =>
          rw [hturn] at h
          have hshorter := turn_shorter hturn
          rw [commandLoop_more hturn]
          exact ih _ (by omega) after rest (authenticated_turn h) rfl

/-- **A turn** is alike for both, unless somebody logs in. -/
theorem told_turn (h : Alike session other) :
    LogsIn (session.turn onUpgrade pending).after (other.turn onUpgrade pending).after ∨
      (∃ mid mid' written rest, session.turn onUpgrade pending = .more mid written rest ∧
        other.turn onUpgrade pending = .more mid' written rest ∧ Alike mid mid') ∨
      ∃ ran ran', session.turn onUpgrade pending = .ended ran ∧ other.turn onUpgrade pending = .ended ran' ∧
        EndsAlike ran ran' := by
  rcases hread : readUntil [] pending with ⟨kind | line, buffer, reads⟩
  · exact Or.inr (Or.inr ⟨_, _, turn_failure hread, turn_failure hread, h, rfl, rfl, rfl, rfl⟩)
  · by_cases hne : line = []
    · rw [hne] at hread
      exact Or.inr (Or.inr ⟨_, _, turn_end hread, turn_end hread, h, rfl, rfl, rfl, rfl⟩)
    · rcases told_handle h (trimEol line) with hlogin | ⟨halike, hsame⟩
      · left
        unfold LogsIn
        rw [authenticated_turn_line hread hne, authenticated_turn_line hread hne]
        exact hlogin
      · right
        have hflow := (untouched_handle (alike_needsAuth h).1 (trimEol line)).2
        rcases hhandle : session.handle (trimEol line) with ⟨mid, flow, octets⟩
        rcases hhandle' : other.handle (trimEol line) with ⟨mid', flow', octets'⟩
        rw [hhandle, hhandle'] at halike hsame
        rw [hhandle] at hflow
        obtain ⟨rfl, rfl⟩ := Prod.mk.inj hsame
        cases flow' with
        | «continue» =>
            exact Or.inl ⟨_, _, _, _, turn_continue hread hne hhandle, turn_continue hread hne hhandle', halike⟩
        | close =>
            exact Or.inr ⟨_, _, turn_close hread hne hhandle, turn_close hread hne hhandle', halike, rfl, rfl, rfl, rfl⟩
        | upgradeToTls =>
            exact Or.inr ⟨_, _, turn_upgrade hread hne hhandle, turn_upgrade hread hne hhandle', halike, rfl, rfl, rfl,
              rfl⟩
        | readArticle => exact absurd rfl hflow

/-- **The command loop**, over the same octets. -/
theorem told_commandLoop {session other : Session} (h : Alike session other) (pending : Reads) :
    LogsIn (session.commandLoop onUpgrade pending).session (other.commandLoop onUpgrade pending).session ∨
      EndsAlike (session.commandLoop onUpgrade pending) (other.commandLoop onUpgrade pending) := by
  generalize hsize : (events pending).length = size
  induction size using Nat.strong_induction_on generalizing session other pending with
  | h size ih =>
      rcases @told_turn session other onUpgrade pending h with hlogin | ⟨mid, mid', written, rest, hturn, hturn', halike⟩ |
        ⟨ran, ran', hturn, hturn', hends⟩
      · exact Or.inl (hlogin.imp (authenticated_commandLoop session pending) (authenticated_commandLoop other pending))
      · have hshorter := turn_shorter hturn
        rw [commandLoop_more hturn, commandLoop_more hturn']
        rcases ih _ (by omega) halike rest rfl with hlogin | hends
        · exact Or.inl hlogin
        · exact Or.inr ⟨hends.session, hends.result, congrArg (written ++ ·) hends.written, hends.buffer, hends.reads⟩
      · rw [commandLoop_over hturn, commandLoop_over hturn']
        exact Or.inr hends

theorem untouched_turn (h : session.needsAuth = true) : Untouched session (session.turn onUpgrade pending).after := by
  rcases hread : readUntil [] pending with ⟨kind | line, buffer, reads⟩
  · rw [turn_failure hread]
    exact .refl session
  · by_cases hne : line = []
    · rw [hne] at hread
      rw [turn_end hread]
      exact .refl session
    · obtain ⟨huntouched, hflow⟩ := untouched_handle h (trimEol line)
      rcases hhandle : session.handle (trimEol line) with ⟨mid, flow, octets⟩
      rw [hhandle] at huntouched hflow
      cases flow with
      | «continue» => rw [turn_continue hread hne hhandle]; exact huntouched
      | close => rw [turn_close hread hne hhandle]; exact huntouched
      | upgradeToTls => rw [turn_upgrade hread hne hhandle]; exact huntouched
      | readArticle => exact absurd rfl hflow

/-- **A session in which nobody logs in** leaves what the server keeps as it is. -/
theorem untouched_commandLoop {session : Session} (h : session.config.requireAuth = true) (pending : Reads)
    (hstranger : (session.commandLoop onUpgrade pending).session.state.authenticated = false) :
    Untouched session (session.commandLoop onUpgrade pending).session := by
  generalize hsize : (events pending).length = size
  induction size using Nat.strong_induction_on generalizing session pending with
  | h size ih =>
      have hneeds : session.needsAuth = true := by
        cases hauth : session.state.authenticated with
        | true => exact absurd hstranger (by rw [authenticated_commandLoop _ _ (authenticated_turn hauth)]; decide)
        | false => rw [needsAuth, h, hauth]; rfl
      have hturned := @untouched_turn session onUpgrade pending hneeds
      cases hturn : session.turn onUpgrade pending with
      | ended ran =>
          rw [hturn] at hturned
          rw [commandLoop_over hturn]
          exact hturned
      | more after written rest =>
          have hshorter := turn_shorter hturn
          have hchannel := sameChannel_turn hturn
          rw [hturn] at hturned
          rw [commandLoop_more hturn] at hstranger ⊢
          exact hturned.trans (ih _ (by omega) (hchannel.config ▸ h) rest hstranger rfl)

/-- A session over a single stream, from its greeting on. -/
theorem told_runDuplex {session other : Session} (h : Alike session other) (reads : Reads) :
    LogsIn (session.runDuplex reads).session (other.runDuplex reads).session ∨
      EndsAlike (session.runDuplex reads) (other.runDuplex reads) := by
  have hgreet : other.greet = session.greet ∧ ∀ code text,
      statusLine other.config code text = statusLine session.config code text := by
    obtain ⟨corpus, credentials, postbox, processId, rfl, hoffered⟩ := alike_eq h
    exact ⟨rfl, fun _ _ => rfl⟩
  unfold runDuplex greeted
  rw [hgreet.1]
  rcases session.greet with ⟨reply, flow⟩
  dsimp only
  rw [hgreet.2]
  split_ifs
  · exact Or.inr ⟨h, rfl, rfl, rfl, rfl⟩
  · rcases told_commandLoop h reads with hlogin | hends
    · exact Or.inl hlogin
    · exact Or.inr ⟨hends.session, hends.result, congrArg (_ ++ ·) hends.written, hends.buffer, hends.reads⟩

theorem untouched_runDuplex {session : Session} (h : session.config.requireAuth = true) (reads : Reads)
    (hstranger : (session.runDuplex reads).session.state.authenticated = false) :
    Untouched session (session.runDuplex reads).session := by
  rcases session.greeted_cases reads (session.commandLoopDuplex reads) with heq | ⟨-, hsession⟩
  · have hrun : session.runDuplex reads = (session.commandLoopDuplex reads).behind _ := heq
    rw [hrun] at hstranger ⊢
    exact untouched_commandLoop h reads hstranger
  · rw [show (session.runDuplex reads).session = session from hsession]
    exact .refl session

end Runs

end Session

/-! ## Whole connections -/

namespace Visit

/-- The sessions of a connection. -/
def sessions (visit : Visit) : List Session := (visit.clear.toList ++ visit.secure.toList).map (·.session)

/-- All that is written: in the clear, behind it, and over TLS. -/
def said (visit : Visit) : Option Bytes × Bytes × Option Bytes :=
  (visit.clear.map (·.written), visit.parting, visit.secure.map (·.written))

/-- Nobody logs in. -/
def Strange (visit : Visit) : Prop := ∀ session ∈ visit.sessions, session.state.authenticated = false

section

variable {visit : Visit} {ran : Ran}

theorem Strange.clear (h : visit.Strange) (hran : visit.clear = some ran) : ran.session.state.authenticated = false :=
  h ran.session (by simp [sessions, hran])

theorem Strange.secure (h : visit.Strange) (hran : visit.secure = some ran) :
    ran.session.state.authenticated = false :=
  h ran.session (by simp [sessions, hran])

/-- What holds of both sessions holds of each. -/
theorem forall_sessions {p : Session → Prop} (hclear : ∀ ran ∈ visit.clear, p ran.session)
    (hsecure : ∀ ran ∈ visit.secure, p ran.session) : ∀ session ∈ visit.sessions, p session := by
  intro session hsession
  obtain ⟨ran, hran, rfl⟩ := List.mem_map.mp hsession
  rcases List.mem_append.mp hran with hran | hran
  · exact hclear ran (Option.mem_toList.mp hran)
  · exact hsecure ran (Option.mem_toList.mp hran)

end

end Visit

/-- Where nobody has logged in, sessions end alike. -/
theorem EndsAlike.of_strange {ran ran' : Ran} (h : LogsIn ran.session ran'.session ∨ EndsAlike ran ran')
    (hran : ran.session.state.authenticated = false) (hran' : ran'.session.state.authenticated = false) :
    EndsAlike ran ran' := by
  rcases h with (hlogin | hlogin) | hends
  · exact absurd (hlogin.symm.trans hran) (by decide)
  · exact absurd (hlogin.symm.trans hran') (by decide)
  · exact hends

namespace Shared

/-- Two servers that require a login and differ in nothing but their corpora, their credentials and what was posted
to them. -/
structure Indistinct (shared other : Shared) : Prop where
  config : other.config = { shared.config with credentials := other.config.credentials }
  offered : other.config.credentials.isSome = shared.config.credentials.isSome
  locked : shared.config.requireAuth = true
  mode : other.mode = shared.mode
  acceptTls : other.acceptTls = shared.acceptTls

variable {shared other : Shared}

theorem Indistinct.session (h : Indistinct shared other) (encrypted : Bool) :
    Alike (shared.session.setEncrypted encrypted) (other.session.setEncrypted encrypted) := by
  refine ⟨?_, h.config, h.offered, h.locked, rfl⟩
  show ({ (Session.new other.corpus other.config).state with encrypted } : State) = _
  unfold Session.new
  rw [h.config]
  rfl

theorem alike_setEncrypted {session other : Session} (h : Alike session other) :
    Alike (session.setEncrypted true) (other.setEncrypted true) :=
  ⟨by unfold Session.setEncrypted; rw [h.state], h.config, h.offered, h.locked, h.anonymous⟩

theorem serve_clear (hmode : shared.mode ≠ .implicit) (reads : Reads) :
    (shared.serve reads).clear = some (shared.session.runDuplex reads) := by
  unfold serve
  rw [if_neg hmode]
  dsimp only
  split
  · rfl
  · unfold upgrade
    split
    · rfl
    · split <;> rfl
  · rfl

/-- What two connections come to: they say the same, and leave what the server keeps as it was for a session. -/
structure SaysAlike (session : Session) (visit visit' : Visit) : Prop where
  said : visit'.said = visit.said
  untouched : ∀ after ∈ visit.sessions, Untouched session after

section Says

variable {session : Session} {ran ran' after after' : Ran}

theorem SaysAlike.nothing : SaysAlike session {} {} := by
  refine ⟨rfl, Visit.forall_sessions ?_ ?_⟩
  · intro one hone
    cases hone
  · intro one hone
    cases hone

theorem SaysAlike.inClear (hran : ran'.written = ran.written) (h : Untouched session ran.session) (parting : Bytes) :
    SaysAlike session { clear := some ran, parting } { clear := some ran', parting } := by
  refine ⟨?_, Visit.forall_sessions ?_ ?_⟩
  · unfold Visit.said
    rw [Option.map_some, Option.map_some, hran]
  · intro one hone
    cases hone
    exact h
  · intro one hone
    cases hone

theorem SaysAlike.overTls (hafter : after'.written = after.written) (h : Untouched session after.session) :
    SaysAlike session { secure := some after } { secure := some after' } := by
  refine ⟨?_, Visit.forall_sessions ?_ ?_⟩
  · unfold Visit.said
    rw [Option.map_some, Option.map_some, hafter]
  · intro one hone
    cases hone
  · intro one hone
    cases hone
    exact h

theorem SaysAlike.upgraded (hran : ran'.written = ran.written) (hafter : after'.written = after.written)
    (h : Untouched session ran.session) (h' : Untouched session after.session) :
    SaysAlike session { clear := some ran, secure := some after } { clear := some ran', secure := some after' } := by
  refine ⟨?_, Visit.forall_sessions ?_ ?_⟩
  · unfold Visit.said
    rw [Option.map_some, Option.map_some, Option.map_some, Option.map_some, hran, hafter]
  · intro one hone
    cases hone
    exact h
  · intro one hone
    cases hone
    exact h'

end Says

/-- **An upgrade** goes on alike. -/
theorem says_upgrade {session : Session} {ran ran' : Ran} (hends : EndsAlike ran ran')
    (huntouched : Untouched session ran.session) (htls : other.acceptTls = shared.acceptTls)
    (hstrange : (shared.upgrade ran).Strange) (hstrange' : (other.upgrade ran').Strange) :
    SaysAlike session (shared.upgrade ran) (other.upgrade ran') := by
  have halone := SaysAlike.inClear hends.written huntouched []
  unfold upgrade at hstrange hstrange' ⊢
  rw [htls, hends.reads] at hstrange' ⊢
  cases haccept : shared.acceptTls with
  | none => exact halone
  | some acceptTls =>
      rw [haccept] at hstrange hstrange'
      dsimp only at hstrange hstrange' ⊢
      cases hreads : acceptTls ran.reads with
      | none => exact halone
      | some reads =>
          rw [hreads] at hstrange hstrange'
          dsimp only at hstrange hstrange' ⊢
          have halike := alike_setEncrypted hends.session
          have hsecure := EndsAlike.of_strange (Session.told_commandLoop halike reads) (hstrange.secure rfl)
            (hstrange'.secure rfl)
          have hafter := Session.untouched_commandLoop halike.locked reads (hstrange.secure rfl)
          exact .upgraded hends.written hsecure.written huntouched
            (huntouched.trans ⟨hafter.corpus, hafter.postbox⟩)

/-- A connection that is over TLS from its first octet. -/
theorem says_implicit (h : Indistinct shared other) (reads : Reads)
    (hstrange : ((shared.session.setEncrypted true).runDuplex reads).session.state.authenticated = false)
    (hstrange' : ((other.session.setEncrypted true).runDuplex reads).session.state.authenticated = false) :
    SaysAlike shared.session { secure := some ((shared.session.setEncrypted true).runDuplex reads) }
      { secure := some ((other.session.setEncrypted true).runDuplex reads) } := by
  have hends := EndsAlike.of_strange (Session.told_runDuplex (h.session true) reads) hstrange hstrange'
  have huntouched := Session.untouched_runDuplex (h.session true).locked reads hstrange
  exact .overTls hends.written ⟨huntouched.corpus, huntouched.postbox⟩

/-- **A stranger is told nothing**: on a server that requires a login, a connection on which nobody logs in brings the
same octets whatever the corpus holds, whatever the credentials are and whatever was posted, and leaves all of it as it
is. -/
theorem serve_strangers (h : Indistinct shared other) (reads : Reads) (hstrange : (shared.serve reads).Strange)
    (hstrange' : (other.serve reads).Strange) :
    (other.serve reads).said = (shared.serve reads).said ∧
      ∀ session ∈ (shared.serve reads).sessions, Untouched shared.session session := by
  suffices hsaid : SaysAlike shared.session (shared.serve reads) (other.serve reads) from ⟨hsaid.said, hsaid.untouched⟩
  by_cases hmode : shared.mode = .implicit
  · have hmode' : other.mode = .implicit := h.mode.trans hmode
    unfold serve at hstrange hstrange' ⊢
    rw [if_pos hmode', h.acceptTls] at hstrange' ⊢
    rw [if_pos hmode] at hstrange ⊢
    cases haccept : shared.acceptTls with
    | none => exact .nothing
    | some acceptTls =>
        rw [haccept] at hstrange hstrange'
        dsimp only at hstrange hstrange' ⊢
        cases hreads : acceptTls reads with
        | none => exact .nothing
        | some reads' =>
            rw [hreads] at hstrange hstrange'
            dsimp only at hstrange hstrange' ⊢
            exact says_implicit h reads' (hstrange.secure rfl) (hstrange'.secure rfl)
  · have hmode' : other.mode ≠ .implicit := fun heq => hmode (h.mode.symm.trans heq)
    have hafter := hstrange.clear (serve_clear hmode reads)
    have hends : EndsAlike (shared.session.runDuplex reads) (other.session.runDuplex reads) :=
      EndsAlike.of_strange (Session.told_runDuplex (h.session false) reads) hafter
        (hstrange'.clear (serve_clear hmode' reads))
    have huntouched : Untouched shared.session (shared.session.runDuplex reads).session :=
      Session.untouched_runDuplex h.locked reads hafter
    unfold serve at hstrange hstrange' ⊢
    rw [if_neg hmode'] at hstrange' ⊢
    rw [if_neg hmode] at hstrange ⊢
    dsimp only at hstrange hstrange' ⊢
    generalize shared.session.runDuplex reads = ran at *
    generalize other.session.runDuplex reads = ran' at *
    rw [hends.result] at hstrange' ⊢
    split at hstrange
    · exact .inClear hends.written huntouched []
    · next hresult =>
        rw [hresult] at hstrange'
        exact says_upgrade hends huntouched h.acceptTls hstrange hstrange'
    · exact .inClear hends.written huntouched _

/-- A server with a group that is not for everybody. -/
def members : Shared where
  corpus := { groups := [{ name := "alt.secret".toList, articles := ⟨[], Session.nothing_sorted⟩ }] }
  config := { requireAuth := true, credentials := some ⟨"me".toList, "sesame".toList⟩, starttls := true }
  mode := .startTls
  acceptTls := some some

/-- A server without any. -/
def nobody : Shared :=
  { members with corpus := {}, config := { members.config with credentials := some ⟨"you".toList, "x".toList⟩ } }

/-- Guesses, in the clear and over TLS. -/
def guesses : Reads :=
  [.data (asBytes "GROUP alt.secret\r\nAUTHINFO USER me\r\nAUTHINFO PASS x\r\nSTARTTLS\r\n".toList),
    .data (asBytes "AUTHINFO USER you\r\nAUTHINFO PASS sesame\r\nLIST\r\nPOST\r\n".toList)]

theorem serve_strangers_guesses : (nobody.serve guesses).said = (members.serve guesses).said ∧
    ∀ session ∈ (members.serve guesses).sessions, Untouched members.session session := by
  have hstrange : ∀ server ∈ [members, nobody],
      ((server.serve guesses).sessions.all fun session => !session.state.authenticated) = true := by
    decide +kernel
  have hstranger : ∀ server ∈ [members, nobody], (server.serve guesses).Strange := by
    intro server hserver session hsession
    simpa using List.all_eq_true.mp (hstrange server hserver) session hsession
  have halike : Indistinct members nobody := ⟨rfl, rfl, rfl, rfl, rfl⟩
  exact serve_strangers halike guesses (hstranger members (by simp)) (hstranger nobody (by simp))

end Shared

end Nntp.TestServer
