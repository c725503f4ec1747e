import Nntp.Contents

/-!
# Logging in

`authenticate` at the reference server: which user names and passwords `authinfo` of `session.rs` accepts, and what a
login leaves behind at both ends. The server splits a command line at its white space, so of a name or a password it
reads the first word.
-/

namespace Nntp

open Nntp.Lib Nntp.Proto Nntp.Client Nntp.TestServer

/-- What the server reads of an argument. -/
def firstWord (text : Str) : Str := ((StatusLine.splitAsciiWhitespace text)[0]?).getD []

/-- What the server has to say to a login. -/
def loginReplies : List Reply :=
  [.plain 381 "password required", .plain 281 "authentication accepted", .plain 481 "authentication rejected",
    .plain 502 "authentication is not available"]

/-- A password that can be sent, and it and the name are what the server expects. -/
def PasswordMatches (credentials : Credentials) (user : Str) (password : Option Str) : Prop :=
  ∃ secret, password = some secret ∧ (Command.authInfoPass secret).toWire.toBool = true ∧
    user = credentials.username ∧ firstWord secret = credentials.password

/-- The client may send the name and the password, and they are what the server expects. -/
structure LoginAccepted (config : ServerConfig) (c : Client Loop) (username : Str) (password : Option Str)
    (allow : Bool) : Prop where
  permitted : (c.encrypted || allow) = true
  name : (Command.authInfoUser username).toWire.toBool = true
  known : ∃ credentials, config.credentials = some credentials ∧
    PasswordMatches credentials (firstWord username) password

section Server

variable {session : Session} {credentials : Credentials}

theorem words_authinfo {keyword : Str} (hne : keyword ≠ []) (hkeyword : ∀ c ∈ keyword, isAsciiGraphic c = true)
    (arg : Str) : StatusLine.splitAsciiWhitespace (Verb.authinfo.name.toList ++ ' ' :: (keyword ++ ' ' :: arg)) =
      Verb.authinfo.name.toList :: keyword :: StatusLine.splitAsciiWhitespace arg := by
  obtain ⟨hverb, hgraphic⟩ := isAsciiGraphic_verb .authinfo
  rw [splitAsciiWhitespace_word hverb hgraphic (by simp), splitAsciiWhitespace_blank,
    splitAsciiWhitespace_word hne hkeyword (by simp), splitAsciiWhitespace_blank]

theorem words_user (user : Str) : StatusLine.splitAsciiWhitespace (Command.authInfoUser user).line =
    Verb.authinfo.name.toList :: "USER".toList :: StatusLine.splitAsciiWhitespace user := by
  have hline : (Command.authInfoUser user).line =
      Verb.authinfo.name.toList ++ ' ' :: ("USER".toList ++ ' ' :: user) := rfl
  rw [hline, words_authinfo (by decide) (forall_of_all (by decide))]

theorem words_pass (pass : Str) : StatusLine.splitAsciiWhitespace (Command.authInfoPass pass).line =
    Verb.authinfo.name.toList :: "PASS".toList :: StatusLine.splitAsciiWhitespace pass := by
  have hline : (Command.authInfoPass pass).line =
      Verb.authinfo.name.toList ++ ' ' :: ("PASS".toList ++ ' ' :: pass) := rfl
  rw [hline, words_authinfo (by decide) (forall_of_all (by decide))]

/-- Some commands are answered before a login. -/
theorem answerTo_unauthenticated (session : Session) {verb : Verb} (hserved : verb.servedUnauthenticated = true)
    {cmd : Command} {args : List Str}
    (hwords : StatusLine.splitAsciiWhitespace cmd.line = verb.name.toList :: args) :
    answerTo session cmd = (counted session).perform verb args := by
  unfold answerTo
  rw [answer_words hwords, hserved, Bool.not_true, Bool.and_false, if_neg Bool.false_ne_true]

/-- `AUTHINFO` is answered before a login. -/
theorem answerTo_authinfo (session : Session) {cmd : Command} {args : List Str}
    (hwords : StatusLine.splitAsciiWhitespace cmd.line = Verb.authinfo.name.toList :: args) :
    answerTo session cmd = (((counted session).authinfo args).1, ((counted session).authinfo args).2, .continue) :=
  answerTo_unauthenticated session rfl hwords

theorem answerTo_capabilities (session : Session) :
    answerTo session (.capabilities none) = (counted session, session.capabilities, .continue) := by
  have hwords : StatusLine.splitAsciiWhitespace (Command.capabilities none).line =
      Verb.capabilities.name.toList :: [] := by decide
  exact answerTo_unauthenticated session rfl hwords

/-- A capability list is of lines that no reader takes for others. -/
theorem plain_capabilityLines (session : Session) :
    ∀ line ∈ session.capabilityLines.map fun line => asBytes line.toList, PlainLine line := by
  have hall : ∀ text ∈ session.capabilityLines, '\n' ∉ text.toList ∧ text.toList.getLast? ≠ some '\r' := by
    unfold Session.capabilityLines
    intro text htext
    simp only [List.mem_append] at htext
    rcases htext with (((((h | h) | h) | h) | h) | h) | h
    · revert text; decide
    · cases hprofile : session.config.capabilities <;> rw [hprofile] at h <;> dsimp only at h
      · revert text; decide
      · revert text; decide
      · split at h <;> (revert text; decide)
      · cases h
    · revert text; decide
    · split at h <;> (revert text; decide)
    · split at h <;> (revert text; decide)
    · split at h <;> (revert text; decide)
    · revert text; decide
  intro line hline
  obtain ⟨text, htext, rfl⟩ := List.mem_map.mp hline
  exact ⟨noLf_asBytes.mpr (hall text htext).1, getLast?_asBytes_cr (hall text htext).2⟩

theorem answerTo_unavailable (hnone : session.config.credentials = none) (user : Str) :
    answerTo session (.authInfoUser user) =
      (counted session, .plain 502 "authentication is not available", .continue) := by
  have hcounted : (counted session).config.credentials = none := hnone
  rw [answerTo_authinfo session (words_user user)]
  unfold Session.authinfo
  rw [hcounted]

/-- A server with credentials asks everybody for a password. -/
theorem answerTo_user (hsome : session.config.credentials = some credentials) (user : Str) :
    answerTo session (.authInfoUser user) =
      ({ counted session with state := { (counted session).state with pendingUser := some (firstWord user) } },
        .plain 381 "password required", .continue) := by
  have hcounted : (counted session).config.credentials = some credentials := hsome
  rw [answerTo_authinfo session (words_user user)]
  unfold Session.authinfo
  rw [hcounted]
  rfl

theorem answerTo_pass (hsome : session.config.credentials = some credentials) {user : Str}
    (hpending : session.state.pendingUser = some user) (pass : Str) :
    answerTo session (.authInfoPass pass) =
      if user = credentials.username ∧ firstWord pass = credentials.password then
        ({ counted session with state := { (counted session).state with authenticated := true } },
          .plain 281 "authentication accepted", .continue)
      else
        ({ counted session with state := { (counted session).state with pendingUser := none } },
          .plain 481 "authentication rejected", .continue) := by
  have hcounted : (counted session).config.credentials = some credentials := hsome
  have hwaiting : (counted session).state.pendingUser = some user := hpending
  have hpass : (counted session).authinfo ("PASS".toList :: StatusLine.splitAsciiWhitespace pass) =
      (counted session).authinfoPass credentials (firstWord pass) := by
    unfold Session.authinfo
    rw [hcounted]
    rfl
  rw [answerTo_authinfo session (words_pass pass), hpass]
  unfold Session.authinfoPass
  rw [hwaiting]
  dsimp only
  split <;> rfl

end Server

section Client

variable {limits : Limits} {config : ServerConfig} {c c' : Client Loop}


/-- Both ends are at rest, both or neither of them hold the client to be logged in, and this is what the server would
say to `CAPABILITIES`. -/
structure Known (limits : Limits) (config : ServerConfig) (group : Option GroupSummary) (offered : Reply)
    (known : Bool) (c : Client Loop) : Prop where
  level : Level limits config none c
  group : c.group = group
  offered : c.connection.stream.session.capabilities = offered
  client : c.authenticated = known
  server : c.connection.stream.session.state.authenticated = known

variable {group : Option GroupSummary} {offered : Reply} {known : Bool}

/-- An answer without a block, to a client that is known or not. -/
theorem Known.ask (h : Known limits config group offered known c) {cmd : Command} {sent : Bytes}
    (hwire : cmd.toWire = .ok sent) {after : Session} {reply : Reply}
    (hanswer : answerTo c.connection.stream.session cmd = (after, reply, .continue))
    (hwithin : Reply.Within limits config reply) (hnone : reply.block = none) :
    ∃ line c', (Client.command cmd).exec c = (.ok line, c') ∧ line.code = reply.code ∧
      Level limits config none c' ∧ c'.group = group ∧ c'.authenticated = known ∧
      c'.connection.stream.session = after := by
  obtain ⟨line, c', hexec, hcode, -, hrests⟩ := h.level.askStatus hwire hanswer hwithin hnone
  refine ⟨line, c', hexec, hcode, hrests.level, hrests.group.trans h.group, ?_, hrests.session⟩
  rw [(Client.exec_command_ok hexec).2]
  exact h.client

/-- Nothing of a session that is told here has changed. -/
theorem Known.of_session {after : Session} (hlevel : Level limits config none c') (hgroup : c'.group = group)
    (hclient : c'.authenticated = known) (hsession : c'.connection.stream.session = after)
    (hoffered : after.capabilities = offered) (hserver : after.state.authenticated = known) :
    Known limits config group offered known c' := by
  cases hsession
  exact ⟨hlevel, hgroup, hoffered, hclient, hserver⟩

/-- What `login` does when the server has asked for a password. -/
def passwordAsked (password : Option Str) : ClientM Loop Bool :=
  match password with
  | none => throw (.authenticationRejected "the server asked for a password and none was supplied".toList)
  | some password => do
      let line ← Client.command (.authInfoPass password)
      if line.code = 281 then
        Client.setAuthenticated
        pure true
      else throw (.fromStatus "AUTHINFO PASS" line)

/-- `login` is refused in the clear, and otherwise sends the name. -/
theorem exec_login (username : Str) (password : Option Str) (allow : Bool) (c : Client Loop) :
    (Client.login username password allow).exec c =
      if (c.encrypted || allow) = false then (.error .plaintextAuthenticationRefused, c)
      else (do
        let line ← Client.command (.authInfoUser username)
        if line.code = 281 then
          Client.setAuthenticated
          pure false
        else if line.code = 381 then passwordAsked password
        else throw (.fromStatus "AUTHINFO USER" line) : ClientM Loop Bool).exec c := by
  have hget : (get : ClientM Loop (Client Loop)).exec c = (.ok c, c) := rfl
  unfold Client.login
  rw [Fallible.exec_bind_ok hget, ← Bool.not_or]
  cases c.encrypted || allow with
  | false => rfl
  | true => cases password <;> rfl

/-- A command that cannot be encoded is not sent. -/
theorem Level.unsent (h : Level limits config none c) {cmd : Command} {error : ProtoError}
    (hwire : cmd.toWire = .error error) : (Client.command cmd).exec c = (.error (.proto error), c) :=
  exec_command_error (exec_command_illegal h.usable hwire)

/-- **A password is sent**: it is accepted exactly if it and the name are the configured ones. -/
theorem Known.passwordAsked (h : Known limits config group offered known c) {credentials : Credentials}
    (hsome : config.credentials = some credentials) {user : Str}
    (hpending : c.connection.stream.session.state.pendingUser = some user)
    (hfits : ∀ reply ∈ loginReplies, Reply.Within limits config reply) (password : Option Str) :
    ∃ c', (PasswordMatches credentials user password ∧ (passwordAsked password).exec c = (.ok true, c') ∧
        Known limits config group offered true c') ∨
      (¬PasswordMatches credentials user password ∧ Known limits config group offered known c' ∧
        ∃ e, (passwordAsked password).exec c = (.error e, c')) := by
  cases password with
  | none =>
      refine ⟨c, Or.inr ⟨?_, h, _, rfl⟩⟩
      rintro ⟨_, hnone, -⟩
      cases hnone
  | some secret =>
      cases hwire : (Command.authInfoPass secret).toWire with
      | error error =>
          refine ⟨c, Or.inr ⟨?_, h, .proto error, Fallible.exec_bind_error (h.level.unsent hwire)⟩⟩
          rintro ⟨_, ⟨⟩, hsent, -⟩
          rw [hwire] at hsent
          cases hsent
      | ok sent =>
          have hanswer := answerTo_pass (by rw [h.level.settings]; exact hsome) hpending secret
          split_ifs at hanswer with hknown
          · obtain ⟨line, c', hexec, hcode, hlevel, hgroup, -, hsession⟩ :=
              h.ask hwire hanswer (hfits _ (by simp [loginReplies])) rfl
            have hcode : line.code = 281 := hcode
            refine ⟨{ c' with authenticated := true }, Or.inl ⟨?_, ?_, ?_⟩⟩
            · exact ⟨secret, rfl, by rw [hwire]; rfl, hknown⟩
            · refine (Fallible.exec_bind_ok hexec).trans ?_
              rw [if_pos hcode]
              rfl
            · exact .of_session (hlevel.of_connection rfl) hgroup rfl hsession h.offered rfl
          · obtain ⟨line, c', hexec, hcode, hlevel, hgroup, hclient, hsession⟩ :=
              h.ask hwire hanswer (hfits _ (by simp [loginReplies])) rfl
            have hcode : line.code = 481 := hcode
            refine ⟨c', Or.inr ⟨?_, ?_, .fromStatus "AUTHINFO PASS" line, ?_⟩⟩
            · rintro ⟨_, ⟨⟩, -, hwords⟩
              exact hknown hwords
            · exact .of_session hlevel hgroup hclient hsession h.offered h.server
            · refine (Fallible.exec_bind_ok hexec).trans ?_
              rw [if_neg (by rw [hcode]; decide)]
              rfl

/-- **What `login` comes to**: the client is known at both ends, or nothing has changed. -/
theorem Known.login (h : Known limits config group offered known c)
    (hfits : ∀ reply ∈ loginReplies, Reply.Within limits config reply) (username : Str) (password : Option Str)
    (allow : Bool) :
    ∃ c', (LoginAccepted config c username password allow ∧
        (Client.login username password allow).exec c = (.ok true, c') ∧
        Known limits config group offered true c') ∨
      (¬LoginAccepted config c username password allow ∧ Known limits config group offered known c' ∧
        ∃ e, (Client.login username password allow).exec c = (.error e, c')) := by
  rw [exec_login]
  cases hpermitted : c.encrypted || allow with
  | false =>
      refine ⟨c, Or.inr ⟨fun haccepted => ?_, h, _, rfl⟩⟩
      exact Bool.false_ne_true (hpermitted.symm.trans haccepted.permitted)
  | true =>
      rw [if_neg (by decide)]
      cases hwire : (Command.authInfoUser username).toWire with
      | error error =>
          have hunsent := h.level.unsent hwire
          refine ⟨c, Or.inr ⟨fun haccepted => ?_, h, .proto error, Fallible.exec_bind_error hunsent⟩⟩
          have hname := haccepted.name
          rw [hwire] at hname
          cases hname
      | ok sent =>
          cases hcredentials : config.credentials with
          | none =>
              have hanswer := answerTo_unavailable (by rw [h.level.settings]; exact hcredentials) username
              obtain ⟨line, c', hexec, hcode, hlevel, hgroup, hclient, hsession⟩ :=
                h.ask hwire hanswer (hfits _ (by simp [loginReplies])) rfl
              have hcode : line.code = 502 := hcode
              refine ⟨c', Or.inr ⟨fun haccepted => ?_, ?_, .fromStatus "AUTHINFO USER" line, ?_⟩⟩
              · obtain ⟨credentials, hsome, -⟩ := haccepted.known
                rw [hcredentials] at hsome
                cases hsome
              · exact .of_session hlevel hgroup hclient hsession h.offered h.server
              · rw [Fallible.exec_bind_ok hexec, if_neg (by rw [hcode]; decide), if_neg (by rw [hcode]; decide)]
                rfl
          | some credentials =>
              have hanswer := answerTo_user (by rw [h.level.settings]; exact hcredentials) username
              obtain ⟨line, mid, hexec, hcode, hlevel, hgroup, hclient, hsession⟩ :=
                h.ask hwire hanswer (hfits _ (by simp [loginReplies])) rfl
              have hcode : line.code = 381 := hcode
              have hmid : Known limits config group offered known mid :=
                .of_session hlevel hgroup hclient hsession h.offered h.server
              have hpending : mid.connection.stream.session.state.pendingUser = some (firstWord username) := by
                rw [hsession]
              obtain ⟨c', hverdict⟩ := hmid.passwordAsked hcredentials hpending hfits password
              have haccepted : LoginAccepted config c username password allow ↔
                  PasswordMatches credentials (firstWord username) password := by
                constructor
                · rintro ⟨-, -, _, hsome, hmatches⟩
                  cases hcredentials.symm.trans hsome
                  exact hmatches
                · exact fun hmatches => ⟨hpermitted, by rw [hwire]; rfl, credentials, hcredentials, hmatches⟩
              rw [Fallible.exec_bind_ok hexec, if_neg (by rw [hcode]; decide), if_pos hcode, haccepted]
              exact ⟨c', hverdict⟩

/-! ## Behind the login -/

/-- The capabilities that the client takes from an answer. -/
def advertised (decoders : Decoders) (reply : Reply) : Capabilities :=
  match reply.block with
  | some lines => Capabilities.parse decoders lines
  | none => {}

theorem authenticated_readBlock (c : Client Loop) :
    ((Client.readBlock : ClientM Loop _).exec c).2.authenticated = c.authenticated :=
  Fallible.exec_bind_keeps Client.authenticated (fun _ => rfl) (fun _ _ => rfl) c

variable (decoders : Decoders)

/-- **The capabilities are asked for**, and the client has what the server offers. -/
theorem Known.refreshed (h : Known limits config group offered known c) (hwithin : Reply.Within limits config offered) :
    ∃ c', (Client.refreshCapabilities decoders).exec c = (.ok (advertised decoders offered), c') ∧
      Known limits config group offered known c' ∧ c'.capabilities = advertised decoders offered := by
  have hwire : (Command.capabilities none).toWire = .ok (asBytes "CAPABILITIES\r\n".toList) := by decide +kernel
  have hanswer := answerTo_capabilities c.connection.stream.session
  rw [h.offered] at hanswer
  by_cases hlegacy : c.connection.stream.session.config.capabilities = .legacy
  · have hoffered : offered = Session.notRecognised := by
      rw [← h.offered]
      exact if_pos hlegacy
    rw [hoffered] at hanswer hwithin
    obtain ⟨line, mid, hexec, hcode, hlevel, hgroup, hclient, hsession⟩ := h.ask hwire hanswer hwithin rfl
    have hcode : line.code = 500 := hcode
    refine ⟨{ mid with capabilities := {} }, ?_,
      .of_session (hlevel.of_connection rfl) hgroup hclient hsession h.offered h.server, ?_⟩
    · rw [hoffered]
      refine (Fallible.exec_bind_ok hexec).trans ?_
      rw [if_neg (by rw [hcode]; decide), if_pos (by rw [hcode]; decide)]
      rfl
    · rw [hoffered]
      rfl
  · have hoffered : offered = .listing 101 "capability list follows".toList
        (c.connection.stream.session.capabilityLines.map fun line => asBytes line.toList) := by
      rw [← h.offered]
      exact if_neg hlegacy
    have hblock := congrArg Reply.block hoffered
    obtain ⟨line, mid, c', hexec, hcode, -, hread, hrests⟩ :=
      h.level.askBlock hwire hanswer hwithin hblock (plain_capabilityLines _)
    have hcode : line.code = 101 := by rw [hcode, hoffered]; rfl
    have hclient : c'.authenticated = known := by
      have hkept := authenticated_readBlock mid
      rw [hread, (Client.exec_command_ok hexec).2] at hkept
      exact hkept.trans h.client
    have hparsed : advertised decoders offered = Capabilities.parse decoders
        (c.connection.stream.session.capabilityLines.map fun line => asBytes line.toList) := by
      rw [hoffered]
      rfl
    refine ⟨{ c' with capabilities := advertised decoders offered }, ?_,
      .of_session (hrests.level.of_connection rfl) (hrests.group.trans h.group) hclient hrests.session h.offered
        h.server, rfl⟩
    refine (Fallible.exec_bind_ok hexec).trans ?_
    rw [if_pos hcode, Fallible.exec_bind_ok hread, hparsed]
    rfl

/-- **A login succeeds exactly if it is accepted.** Then both ends hold the client to be logged in, and the client has
the capabilities that the server offers; otherwise there is an error, and neither end holds anything else than before.
Either way the next command finds both at rest. -/
theorem logged_in (h : Known limits config group offered known c)
    (hfits : ∀ reply ∈ loginReplies, Reply.Within limits config reply)
    (hwithin : Reply.Within limits config offered) (username : Str) (password : Option Str) (allow : Bool) :
    ∃ c', (LoginAccepted config c username password allow ∧
        (Client.authenticate decoders username password allow).exec c = (.ok (), c') ∧
        Known limits config group offered true c' ∧ c'.capabilities = advertised decoders offered) ∨
      (¬LoginAccepted config c username password allow ∧ Known limits config group offered known c' ∧
        ∃ e, (Client.authenticate decoders username password allow).exec c = (.error e, c')) := by
  obtain ⟨mid, ⟨haccepted, hexec, hmid⟩ | ⟨hrejected, hmid, e, hexec⟩⟩ :=
    h.login hfits username password allow
  · obtain ⟨c', hrefresh, hknown, hcapabilities⟩ := hmid.refreshed decoders hwithin
    refine ⟨c', Or.inl ⟨haccepted, ?_, hknown, hcapabilities⟩⟩
    refine (Fallible.exec_bind_ok hexec).trans ?_
    rw [if_pos rfl, Fallible.exec_ignoring, hrefresh]
  · exact ⟨mid, Or.inr ⟨hrejected, hmid, e, Fallible.exec_bind_error hexec⟩⟩

end Client

namespace Shelf

/-- A server that asks for a password. -/
def guarded : ServerConfig where
  credentials := some ⟨"reader".toList, "secret".toList⟩

theorem steady_guarded : Steady guarded where
  closing := rfl
  truncating := rfl
  refusePost _ hnone := by cases hnone
  serverName := by decide
  greeting _ _ hrefuse := by cases hrefuse

/-- What the server offers. -/
def offers : Reply := (Session.new corpus guarded).capabilities

/-- **A new client logs in** with the name, the password and a blank behind it. -/
theorem logged_in_reader : ∃ c c', Client.withOptions (accepted corpus guarded .default) true = .ok c ∧
    (Client.authenticate Client.plainDecoders "reader".toList (some "secret ".toList) false).exec c = (.ok (), c') ∧
    c'.authenticated = true ∧ c'.connection.stream.session.state.authenticated = true := by
  have hstart : (Client.withOptions (accepted corpus guarded .default) true).toOption.map (fun c =>
      (c.connection.stream.phase, c.authenticated, c.encrypted, c.connection.stream.session.state.authenticated,
        decide (c.connection.stream.session.capabilities = offers))) = some (.command, false, true, false, true) := by
    decide +kernel
  cases hresult : Client.withOptions (accepted corpus guarded .default) true with
  | error e =>
      rw [hresult] at hstart
      cases hstart
  | ok c =>
      rw [hresult] at hstart
      simp only [Except.toOption, Option.map_some, Option.some.injEq, Prod.mk.injEq, decide_eq_true_eq] at hstart
      obtain ⟨hphase, hclient, hencrypted, hserver, hoffers⟩ := hstart
      have hlevel : Level .default guarded none c := by
        rcases (inStep_withOptions corpus_unbroken steady_guarded hresult).settled with hlevel | hended
        · exact hlevel
        · rw [hended.phase] at hphase
          cases hphase
      have haccepted : LoginAccepted guarded c "reader".toList (some "secret ".toList) false :=
        ⟨by rw [hencrypted]; rfl, by decide, _, rfl, _, rfl, by decide, by decide, by decide⟩
      obtain ⟨c', ⟨-, hexec, hknown, -⟩ | ⟨hrejected, -⟩⟩ :=
        logged_in Client.plainDecoders ⟨hlevel, rfl, hoffers, hclient, hserver⟩ (by decide) (by decide)
          "reader".toList (some "secret ".toList) false
      · exact ⟨c, c', rfl, hexec, hknown.client, hknown.server⟩
      · exact absurd haccepted hrejected

end Shelf

end Nntp
