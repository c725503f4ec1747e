import Nntp.Client.DataBlock
import Nntp.TestServer.Wire

/-!
# Data blocks between the client and the server

Two encoders and two decoders of one format: `send_block` against `read_article`, `Session::block`
against `read_block`. Both ways a list of lines comes out as it went in, and what follows the block is
left where it is.
-/

namespace Nntp

open Nntp.Lib Nntp.Proto Nntp.Client Nntp.TestServer

/-- A line that a block can carry: no LF in it, and no CR at its end. -/
structure PlainLine (line : Bytes) : Prop where
  noLf : (0x0A : UInt8) ∉ line
  noCr : line.getLast? ≠ some 0x0D

theorem not_mem_stuff {line : Bytes} (h : (0x0A : UInt8) ∉ line) : (0x0A : UInt8) ∉ stuff line := by
  intro hmem
  rcases mem_stuff hmem with hdot | hmem
  · cases hdot
  · exact h hmem

/-- A stuffed line with its CR has no line feed in it. -/
theorem not_mem_stuff_cr {line : Bytes} (h : (0x0A : UInt8) ∉ line) : (0x0A : UInt8) ∉ stuff line ++ [0x0D] := by
  intro hmem
  rcases List.mem_append.mp hmem with hmem | hmem
  · exact not_mem_stuff h hmem
  · cases List.mem_singleton.mp hmem

/-- The dot that begins a stuffed line is doubled. -/
theorem stuff_dot {line rest : Bytes} (h : stuff line = 0x2E :: rest) : rest.head? = some 0x2E := by
  unfold stuff at h
  split at h
  · next hdot =>
      cases h
      exact hdot
  · next hdot => exact absurd (by rw [h]; rfl) hdot

theorem stuff_ne_dot (line : Bytes) : stuff line ≠ [0x2E] := by
  intro heq
  cases stuff_dot heq

/-! ## From the client to the server -/

theorem stripSuffix_append (c : UInt8) (line : Bytes) : stripSuffix [c] (line ++ [c]) = some line := by
  simp [stripSuffix, stripPrefix]

/-- The CRLF the client writes is taken off, and nothing else. -/
theorem trimEol_crlf (line : Bytes) : trimEol (line ++ [0x0D] ++ [0x0A]) = line := by
  unfold trimEol
  rw [stripSuffix_append]
  show (stripSuffix [0x0D] (line ++ [0x0D])).getD _ = line
  rw [stripSuffix_append]
  rfl

/-- The server takes off the dot that the client put on. -/
theorem stripPrefix_stuff (line : Bytes) :
    (stripPrefix [0x2E] (stuff line)).getD (stuff line) = line := by
  unfold stuff
  split
  · rfl
  · next h =>
      cases line with
      | nil => rfl
      | cons b rest =>
          have hb : (0x2E : UInt8) ≠ b := fun heq => h (by rw [← heq]; rfl)
          simp [stripPrefix, hb]

theorem readUntilLf_append {head : Bytes} (h : (0x0A : UInt8) ∉ head) (rest : Bytes) :
    readUntilLf (head ++ [0x0A] ++ rest) = (head ++ [0x0A], rest) := by
  unfold readUntilLf
  rw [List.append_assoc, List.singleton_append, cutAt_append h]

/-- One line of a posted article, as the server reads it. -/
theorem readArticle_line {line : Bytes} (h : (0x0A : UInt8) ∉ line) (rest : Bytes) :
    readArticle (stuff line ++ [0x0D, 0x0A] ++ rest) =
      (line :: (readArticle rest).1, (readArticle rest).2) := by
  have hread : readUntilLf (stuff line ++ [0x0D, 0x0A] ++ rest) =
      (stuff line ++ [0x0D] ++ [0x0A], rest) := by
    rw [show stuff line ++ [0x0D, 0x0A] = stuff line ++ [0x0D] ++ [0x0A] by simp]
    exact readUntilLf_append (not_mem_stuff_cr h) rest
  have hne : stuff line ++ [0x0D] ++ [0x0A] ≠ [] := List.append_ne_nil_of_right_ne_nil _ (by simp)
  rw [readArticle, hread, dif_neg hne, trimEol_crlf, if_neg (stuff_ne_dot line), stripPrefix_stuff]

/-- **A posted article arrives as it was sent**, and the input stands right behind its terminator. -/
theorem readArticle_wireBlock {lines : List Bytes} (h : ∀ line ∈ lines, (0x0A : UInt8) ∉ line)
    (rest : Bytes) : readArticle (Connection.wireBlock lines ++ rest) = (lines, rest) := by
  unfold Connection.wireBlock
  induction lines with
  | nil =>
      have hread : readUntilLf ([0x2E, 0x0D, 0x0A] ++ rest) = ([0x2E, 0x0D, 0x0A], rest) :=
        @readUntilLf_append [0x2E, 0x0D] (by decide) rest
      show readArticle ([0x2E, 0x0D, 0x0A] ++ rest) = _
      rw [readArticle, hread]
      rfl
  | cons line lines ih =>
      obtain ⟨hline, hlines⟩ := List.forall_mem_cons.mp h
      rw [List.flatMap_cons, List.append_assoc, List.append_assoc, readArticle_line hline,
        ← List.append_assoc, ih hlines]

/-! ## From the server to the client -/

/-- A line of a block as the server writes it, without its LF. -/
def wireLine (config : ServerConfig) (line : Bytes) : Bytes := stuff line ++ config.carriageReturn

theorem blockLine_eq (config : ServerConfig) (line : Bytes) :
    TestServer.blockLine config line = wireLine config line ++ [0x0A] := by
  unfold TestServer.blockLine wireLine stuff
  rw [config.terminator_eq]
  split <;> simp

/-- The octets of a block that is not truncated. -/
theorem block_eq (config : ServerConfig) {state : State} (h : state.truncateNextBlock = false)
    (lines : List Bytes) :
    (block config state lines).2 = Connection.rawLines (lines.map (wireLine config)) ++
      (0x2E :: config.carriageReturn) ++ [0x0A] := by
  have hlines : lines.flatMap (TestServer.blockLine config) =
      Connection.rawLines (lines.map (wireLine config)) := by
    rw [Connection.rawLines, List.flatMap_map]
    exact List.flatMap_congr fun line _ => blockLine_eq config line
  unfold block
  rw [h, config.terminator_eq]
  simp [hlines]

theorem carriageReturn_cases (config : ServerConfig) :
    config.carriageReturn = [] ∨ config.carriageReturn = [0x0D] := by
  unfold ServerConfig.carriageReturn
  split
  · exact Or.inl rfl
  · exact Or.inr rfl

theorem popCr_append (line : Bytes) : Connection.popCr (line ++ [0x0D]) = line := by
  simp [Connection.popCr]

/-- The client takes off the line ending the server put on. -/
theorem popCr_wireLine (config : ServerConfig) {line : Bytes} (h : PlainLine line) :
    Connection.popCr (wireLine config line) = stuff line := by
  unfold wireLine
  rcases carriageReturn_cases config with hcr | hcr
  · rw [hcr, List.append_nil]
    refine if_neg fun hlast => ?_
    cases line with
    | nil => cases hlast
    | cons b rest =>
        rw [getLast?_stuff _ (List.cons_ne_nil b rest)] at hlast
        exact h.noCr hlast
  · rw [hcr, popCr_append]

theorem not_mem_wireLine (config : ServerConfig) {line : Bytes} (h : PlainLine line) :
    (0x0A : UInt8) ∉ wireLine config line := by
  intro hmem
  rcases List.mem_append.mp hmem with hmem | hmem
  · exact not_mem_stuff h.noLf hmem
  · rcases carriageReturn_cases config with hcr | hcr <;> rw [hcr] at hmem
    · exact List.not_mem_nil hmem
    · cases List.mem_singleton.mp hmem

theorem popCr_terminator (config : ServerConfig) :
    Connection.popCr (0x2E :: config.carriageReturn) = [0x2E] := by
  rcases carriageReturn_cases config with hcr | hcr <;> rw [hcr] <;> rfl

theorem not_mem_terminator (config : ServerConfig) :
    (0x0A : UInt8) ∉ 0x2E :: config.carriageReturn := by
  rcases carriageReturn_cases config with hcr | hcr <;> rw [hcr] <;> decide

/-- What is handed over for the lines of a block are the lines themselves. -/
theorem handedOver_wireLines (config : ServerConfig) {lines : List Bytes}
    (h : ∀ line ∈ lines, PlainLine line) :
    Connection.handedOver (lines.map (wireLine config)) = lines := by
  rw [Connection.handedOver, List.map_map]
  refine (List.map_congr_left fun line hline => ?_).trans (List.map_id lines)
  show unstuff (Connection.popCr (wireLine config line)) = line
  rw [popCr_wireLine config (h line hline), unstuff_stuff]

/-- The octets of the stuffed lines. -/
def stuffedLen : List Bytes → Nat
  | [] => 0
  | line :: lines => (stuff line).length + stuffedLen lines

theorem contentLen_wireLines (config : ServerConfig) {lines : List Bytes}
    (h : ∀ line ∈ lines, PlainLine line) :
    Connection.contentLen (lines.map (wireLine config)) = stuffedLen lines := by
  induction lines with
  | nil => rfl
  | cons line lines ih =>
      obtain ⟨hline, hlines⟩ := List.forall_mem_cons.mp h
      show (Connection.popCr (wireLine config line)).length + _ = _
      rw [popCr_wireLine config hline, ih hlines]
      rfl

/-- The limits as the reader applies them: to a line with its dot and its CR, to a block with its
dots. -/
structure ReadsWithin (limits : Limits) (config : ServerConfig) (lines : List Bytes) : Prop where
  line : ∀ line ∈ lines, (stuff line ++ config.carriageReturn).length ≤ limits.maxLineLen
  last : (0x2E :: config.carriageReturn).length ≤ limits.maxLineLen
  count : lines.length ≤ limits.maxBlockLines
  octets : stuffedLen lines ≤ limits.maxBlockBytes

theorem blockLines_iff (limits : Limits) (config : ServerConfig) {lines : List Bytes}
    (h : ∀ line ∈ lines, PlainLine line) :
    (Connection.BlockLines limits 0 limits.maxBlockLines (lines.map (wireLine config)) ∧
        (0x2E :: config.carriageReturn).length ≤ limits.maxLineLen) ↔
      ReadsWithin limits config lines := by
  constructor
  · rintro ⟨hlines, hlast⟩
    exact {
      line := fun line hline => hlines.short _ (List.mem_map_of_mem hline)
      last := hlast
      count := (List.length_map (wireLine config)) ▸ hlines.count
      octets := by
        have hoctets := hlines.octets
        rwa [contentLen_wireLines config h, Nat.zero_add] at hoctets }
  · intro hwithin
    refine ⟨?_, hwithin.last⟩
    exact {
      noLf := List.forall_mem_map.mpr fun line hline => not_mem_wireLine config (h line hline)
      short := List.forall_mem_map.mpr hwithin.line
      content := List.forall_mem_map.mpr fun line hline => by
        rw [popCr_wireLine config (h line hline)]
        exact isTerminator_stuff line
      count := (List.length_map (wireLine config)).symm ▸ hwithin.count
      octets := by
        rw [contentLen_wireLines config h, Nat.zero_add]
        exact hwithin.octets }

/-- The block that was read is the block that was written, and so that is within the limits. -/
theorem readsWithin_of_read {limits : Limits} {config : ServerConfig} {lines : List Bytes}
    (h : ∀ line ∈ lines, PlainLine line) {raw : List Bytes} {last : Bytes} {tail tail' : List (Event UInt8 IoErrorKind)}
    (hraw : Connection.BlockLines limits 0 limits.maxBlockLines raw) (hnot : (0x0A : UInt8) ∉ last)
    (hshort : last.length ≤ limits.maxLineLen) (hterm : isTerminator (Connection.popCr last) = true)
    (hup : (Connection.rawLines (lines.map (wireLine config)) ++ 0x2E :: config.carriageReturn).map .item ++
        .item 0x0A :: tail =
      (Connection.rawLines raw ++ last).map .item ++ .item 0x0A :: tail') :
    ReadsWithin limits config lines := by
  have hwires : ∀ line ∈ lines.map (wireLine config), (0x0A : UInt8) ∉ line ∧
      isTerminator (Connection.popCr line) = false := by
    refine List.forall_mem_map.mpr ?_
    intro line hline
    rw [popCr_wireLine config (h line hline)]
    exact ⟨not_mem_wireLine config (h line hline), isTerminator_stuff line⟩
  have hlast : (0x0A : UInt8) ∉ 0x2E :: config.carriageReturn ∧
      isTerminator (Connection.popCr (0x2E :: config.carriageReturn)) = true := by
    rw [popCr_terminator]
    exact ⟨not_mem_terminator config, rfl⟩
  obtain ⟨rfl, rfl, _⟩ := Connection.block_unique hwires
    (fun line hline => ⟨hraw.noLf line hline, hraw.content line hline⟩) hlast ⟨hnot, hterm⟩ hup
  exact (blockLines_iff limits config h).mp ⟨hraw, hshort⟩

/-- A block as the server writes it is read back exactly when it passes the limits. -/
theorem readBlock_block_iff {σ : Type} {config : ServerConfig} {state : State}
    (hstate : state.truncateNextBlock = false) {lines : List Bytes}
    (h : ∀ line ∈ lines, PlainLine line) {c : Connection σ}
    {tail : List (Event UInt8 IoErrorKind)} (hsync : c.desynchronised = false)
    (hflag : c.Unflagged (lines.length + 1))
    (hup : c.upcoming = (block config state lines).2.map .item ++ tail) :
    (∃ c', Connection.readBlockStreaming.exec c = (.ok lines, c') ∧ c'.upcoming = tail ∧
        c'.desynchronised = false) ↔
      ReadsWithin c.limits config lines := by
  rw [block_eq config hstate, List.map_append, List.append_assoc] at hup
  rw [← blockLines_iff c.limits config h]
  have hlen : (lines.map (wireLine config)).length = lines.length := List.length_map _
  constructor
  · rintro ⟨c', hread, rfl, hlost⟩
    rcases Connection.blockLoop_cases hsync (Nat.zero_le _) hread with
      ⟨raw, last, _, hraw, hnot, hshort, hterm, _, hevents⟩ | ⟨_, hr, _⟩ | ⟨_, _, _, hr, _⟩
    · exact (blockLines_iff c.limits config h).mpr (readsWithin_of_read h hraw hnot hshort hterm (hup.symm.trans hevents))
    · cases hr
    · cases hr
  · rintro ⟨hlines, hlast⟩
    rw [← hlen] at hflag
    obtain ⟨c', hread, htail, hadv⟩ := Connection.exec_blockLoop_of_block hsync hflag hlines
      (not_mem_terminator config) hlast (by rw [popCr_terminator]; rfl) hup []
    refine ⟨c', ?_, htail, hadv.desynchronised.trans hsync⟩
    show (Connection.blockLoop [] 0 c.limits.maxBlockLines).exec c = _
    rw [hread, List.nil_append, handedOver_wireLines config h]

/-- What a synchronised connection hands to its stream for a block. -/
theorem exec_sendBlock {σ : Type} [Peer σ] {c : Connection σ} (hsync : c.desynchronised = false)
    (lines : List Bytes) :
    ((Connection.sendBlock lines).exec c).2.written =
      c.written ++ [Connection.wireBlock lines] := by
  have hensure : (Connection.ensureSynchronised : Conn σ Unit).exec c = (.ok (), c) := by
    simp [Connection.ensureSynchronised, Fallible.exec_bind, hsync]
  rw [Connection.sendBlock, Fallible.exec_bind_ok hensure]
  rfl

/-- **Both ways a block comes out as it went in.** What the client sends the server reads back, with the
input right behind it. What the server sends the client reads back, with the stream right behind it,
exactly when the lines pass the limits as the reader applies them. -/
theorem block_roundTrip {lines : List Bytes} (h : ∀ line ∈ lines, PlainLine line) :
    (∀ (σ : Type) [Peer σ] (c : Connection σ) (rest : Bytes), c.desynchronised = false →
        ∃ bytes, ((Connection.sendBlock lines).exec c).2.written = c.written ++ [bytes] ∧
          readArticle (bytes ++ rest) = (lines, rest)) ∧
      (∀ (σ : Type) (config : ServerConfig) (state : State) (c : Connection σ)
          (tail : List (Event UInt8 IoErrorKind)), state.truncateNextBlock = false →
        c.desynchronised = false → c.Unflagged (lines.length + 1) →
        c.upcoming = (block config state lines).2.map .item ++ tail →
        ((∃ c', Connection.readBlockStreaming.exec c = (.ok lines, c') ∧ c'.upcoming = tail ∧
            c'.desynchronised = false) ↔
          ReadsWithin c.limits config lines)) := by
  constructor
  · intro σ _ c rest hsync
    exact ⟨Connection.wireBlock lines, exec_sendBlock hsync lines,
      readArticle_wireBlock (fun line hline => (h line hline).noLf) rest⟩
  · intro σ config state c tail hstate hsync hflag hup
    exact readBlock_block_iff hstate h hsync hflag hup

/-- A connection to a server that wrote these octets. -/
def served (limits : Limits) (octets : Bytes) : Connection Unit where
  stream := ()
  buffer := []
  reads := [.data octets]
  written := []
  limits := limits
  desynchronised := false
  cancel := none

/-- A line that is a single dot, and an empty one. -/
theorem block_roundTrip_dot :
    (∃ bytes, ((Connection.sendBlock [[0x2E], []]).exec (served .default [0x2E])).2.written =
        [] ++ [bytes] ∧ readArticle (bytes ++ [0x51]) = ([[0x2E], []], [0x51])) ∧
      ((∃ c', Connection.readBlockStreaming.exec (served .default (block {} {} [[0x2E], []]).2) =
          (.ok [[0x2E], []], c') ∧ c'.upcoming = [] ∧ c'.desynchronised = false) ↔
        ReadsWithin .default {} [[0x2E], []]) := by
  have hplain : ∀ line ∈ [[0x2E], ([] : Bytes)], PlainLine line := by
    intro line hline
    simp only [List.mem_cons, List.not_mem_nil, or_false] at hline
    rcases hline with rfl | rfl
    · exact ⟨by decide, by decide⟩
    · exact ⟨by decide, by decide⟩
  have h := block_roundTrip hplain
  exact ⟨h.1 Unit (served .default [0x2E]) [0x51] rfl,
    h.2 Unit {} {} (served .default (block {} {} [[0x2E], []]).2) [] rfl rfl
      (Connection.unflagged_of_none rfl _) rfl⟩

/-- A line of three octets under a limit of three octets, "excluding its CRLF": the CR is counted. -/
theorem block_crCounted :
    PlainLine [0x61, 0x62, 0x63] ∧ (stuff [0x61, 0x62, 0x63]).length ≤ (⟨3, 9, 9⟩ : Limits).maxLineLen ∧
      (Connection.readBlockStreaming.exec
        (served ⟨3, 9, 9⟩ (block {} {} [[0x61, 0x62, 0x63]]).2)).1 = .error (.lineTooLong 3) :=
  ⟨⟨by decide, by decide⟩, by decide, by decide⟩

end Nntp
