import Nntp.Client.Connection

/-!
# Whole data blocks

What `read_block_streaming` makes of a stream, from its first line to its end: the lines that pass the
limits are handed over one by one, and then the block ends at its terminator, at a limit, at the flag or
at a read that fails.
-/

namespace Nntp.Client

open Nntp.Lib Nntp.Proto

namespace Connection

variable {σ : Type}

/-! ## Lines on the wire -/

/-- The octets of some lines, each with its LF. -/
def rawLines (lines : List Bytes) : Bytes := lines.flatMap fun line => line ++ [0x0A]

@[simp] theorem rawLines_nil : rawLines [] = [] := rfl

@[simp] theorem rawLines_cons (line : Bytes) (lines : List Bytes) :
    rawLines (line :: lines) = line ++ 0x0A :: rawLines lines := by
  simp [rawLines]

/-- The first of some lines comes first. -/
theorem rawLines_items (line : Bytes) (lines : List Bytes) (last : Bytes)
    (rest : List (Event UInt8 IoErrorKind)) :
    (rawLines (line :: lines) ++ last).map .item ++ rest =
      line.map .item ++ .item 0x0A :: ((rawLines lines ++ last).map .item ++ rest) := by
  simp

/-- The octets of some lines as a block counts them, without their line endings. -/
def contentLen : List Bytes → Nat
  | [] => 0
  | line :: lines => (popCr line).length + contentLen lines

/-- What is handed over for some lines. -/
def handedOver (lines : List Bytes) : List Bytes := lines.map fun line => unstuff (popCr line)

/-- Lines that come before the terminator and pass the limits, when `bytes` octets were read before
them and `remaining` more lines are allowed. -/
structure BlockLines (limits : Limits) (bytes remaining : Nat) (lines : List Bytes) : Prop where
  noLf : ∀ line ∈ lines, (0x0A : UInt8) ∉ line
  short : ∀ line ∈ lines, line.length ≤ limits.maxLineLen
  content : ∀ line ∈ lines, isTerminator (popCr line) = false
  count : lines.length ≤ remaining
  octets : bytes + contentLen lines ≤ limits.maxBlockBytes

namespace BlockLines

variable {limits : Limits} {bytes remaining : Nat} {line : Bytes} {lines : List Bytes}

theorem nil (h : bytes ≤ limits.maxBlockBytes) : BlockLines limits bytes remaining [] where
  noLf := List.forall_mem_nil _
  short := List.forall_mem_nil _
  content := List.forall_mem_nil _
  count := Nat.zero_le _
  octets := h

theorem cons_iff :
    BlockLines limits bytes (remaining + 1) (line :: lines) ↔
      ((0x0A : UInt8) ∉ line ∧ line.length ≤ limits.maxLineLen ∧
        isTerminator (popCr line) = false) ∧
      BlockLines limits (bytes + (popCr line).length) remaining lines := by
  constructor
  · intro h
    refine ⟨⟨h.noLf line List.mem_cons_self, h.short line List.mem_cons_self,
      h.content line List.mem_cons_self⟩, ?_⟩
    exact {
      noLf := (List.forall_mem_cons.mp h.noLf).2
      short := (List.forall_mem_cons.mp h.short).2
      content := (List.forall_mem_cons.mp h.content).2
      count := Nat.le_of_succ_le_succ h.count
      octets := by
        have hoctets := h.octets
        rw [contentLen] at hoctets
        omega }
  · rintro ⟨⟨hnot, hlen, hterm⟩, h⟩
    exact {
      noLf := List.forall_mem_cons.mpr ⟨hnot, h.noLf⟩
      short := List.forall_mem_cons.mpr ⟨hlen, h.short⟩
      content := List.forall_mem_cons.mpr ⟨hterm, h.content⟩
      count := Nat.succ_le_succ h.count
      octets := by
        have hoctets := h.octets
        rw [contentLen]
        omega }

/-- The octets of a line that passes do not pass the limit. -/
theorem head_octets (h : BlockLines limits bytes remaining (line :: lines)) :
    bytes + (popCr line).length ≤ limits.maxBlockBytes := by
  have hoctets := h.octets
  rw [contentLen] at hoctets
  omega

end BlockLines

/-- **A stream holds one block**: its lines, its terminator and what follows it are determined. -/
theorem block_unique {lines lines' : List Bytes} {last last' : Bytes}
    {tail tail' : List (Event UInt8 IoErrorKind)}
    (hlines : ∀ line ∈ lines, (0x0A : UInt8) ∉ line ∧ isTerminator (popCr line) = false)
    (hlines' : ∀ line ∈ lines', (0x0A : UInt8) ∉ line ∧ isTerminator (popCr line) = false)
    (hlast : (0x0A : UInt8) ∉ last ∧ isTerminator (popCr last) = true)
    (hlast' : (0x0A : UInt8) ∉ last' ∧ isTerminator (popCr last') = true)
    (h : (rawLines lines ++ last).map .item ++ .item 0x0A :: tail =
      (rawLines lines' ++ last').map .item ++ .item 0x0A :: tail') :
    lines = lines' ∧ last = last' ∧ tail = tail' := by
  induction lines generalizing lines' with
  | nil =>
      cases lines' with
      | nil =>
          obtain ⟨rfl, rfl⟩ := items_cut hlast.1 hlast'.1 h
          exact ⟨rfl, rfl, rfl⟩
      | cons line' lines' =>
          rw [rawLines_items] at h
          obtain ⟨rfl, _⟩ := items_cut hlast.1 (hlines' line' List.mem_cons_self).1 h
          rw [(hlines' _ List.mem_cons_self).2] at hlast
          cases hlast.2
  | cons line lines ih =>
      obtain ⟨hline, hlines⟩ := List.forall_mem_cons.mp hlines
      rw [rawLines_items] at h
      cases lines' with
      | nil =>
          obtain ⟨rfl, _⟩ := items_cut hline.1 hlast'.1 h
          rw [hline.2] at hlast'
          cases hlast'.2
      | cons line' lines' =>
          obtain ⟨hline', hrest'⟩ := List.forall_mem_cons.mp hlines'
          rw [rawLines_items] at h
          obtain ⟨rfl, hrest⟩ := items_cut hline.1 hline'.1 h
          obtain ⟨rfl, hends⟩ := ih hlines hrest' hrest
          exact ⟨rfl, hends⟩

/-! ## The flag -/

/-- The next `tests` tests of the flag see it down. -/
def Unflagged (c : Connection σ) (tests : Nat) : Prop :=
  ∀ seen ∈ (c.cancel.getD []).take tests, seen = false

theorem unflagged_succ (c : Connection σ) (tests : Nat) :
    c.Unflagged (tests + 1) ↔ c.flag = false ∧ c.afterTest.Unflagged tests := by
  unfold Unflagged flag afterTest
  rcases c.cancel with _ | _ | ⟨seen, later⟩ <;> simp

theorem Unflagged.mono {c : Connection σ} {tests more : Nat} (h : c.Unflagged more)
    (hle : tests ≤ more) : c.Unflagged tests :=
  fun seen hseen => h seen (List.take_subset_take_left _ hle hseen)

/-- Without a flag no test sees it raised. -/
theorem unflagged_of_none {c : Connection σ} (h : c.cancel = none) (tests : Nat) :
    c.Unflagged tests := by
  intro seen hseen
  rw [h] at hseen
  cases tests <;> exact absurd hseen List.not_mem_nil

/-! ## Running the block loop -/

/-- The connection further on in its stream, `tests` tests of the flag later. -/
structure Advanced (c c' : Connection σ) (tests : Nat) : Prop where
  stream : c'.stream = c.stream
  written : c'.written = c.written
  limits : c'.limits = c.limits
  desynchronised : c'.desynchronised = c.desynchronised
  cancel : c'.cancel = c.cancel.map (List.drop tests)

namespace Advanced

theorem refl (c : Connection σ) : c.Advanced c 0 where
  stream := rfl
  written := rfl
  limits := rfl
  desynchronised := rfl
  cancel := by cases c.cancel <;> rfl

/-- One test of the flag and some reading, and what comes after that. -/
theorem head {c c' : Connection σ} {buffer : Bytes} {reads : Reads} {tests : Nat}
    (h : Advanced { c.afterTest with buffer, reads } c' tests) : c.Advanced c' (tests + 1) where
  stream := h.stream
  written := h.written
  limits := h.limits
  desynchronised := h.desynchronised
  cancel := by
    rw [h.cancel]
    cases hc : c.cancel with
    | none => simp [afterTest, hc]
    | some observations => simp [afterTest, hc]

/-- Some reading, one more test of the flag and some more reading. -/
theorem last {c c' : Connection σ} {tests : Nat} (h : c.Advanced c' tests) (buffer : Bytes)
    (reads : Reads) : c.Advanced { c'.afterTest with buffer, reads } (tests + 1) where
  stream := h.stream
  written := h.written
  limits := h.limits
  desynchronised := h.desynchronised
  cancel := by
    show c'.cancel.map List.tail = _
    rw [h.cancel]
    cases c.cancel with
    | none => rfl
    | some observations => simp

theorem unflagged {c c' : Connection σ} {tests more : Nat} (h : c.Advanced c' tests)
    (hflag : c.Unflagged (tests + more)) : c.Unflagged tests ∧ c'.Unflagged more := by
  unfold Unflagged at hflag ⊢
  rw [h.cancel]
  rw [List.take_add] at hflag
  refine ⟨fun seen hseen => hflag seen (List.mem_append_left _ hseen), fun seen hseen => ?_⟩
  apply hflag seen (List.mem_append_right _ _)
  cases hc : c.cancel with
  | none => rw [hc] at hseen; cases more <;> exact absurd hseen List.not_mem_nil
  | some observations => rw [hc] at hseen; exact hseen

end Advanced

/-- **Lines that pass are handed over one by one**, in whatever pieces they arrive. -/
theorem exec_blockLoop_lines {lines : List Bytes} {tail : List (Event UInt8 IoErrorKind)}
    {c : Connection σ} {bytes remaining : Nat} (hsync : c.desynchronised = false)
    (hflag : c.Unflagged lines.length) (hlines : BlockLines c.limits bytes remaining lines)
    (h : c.upcoming = (rawLines lines).map .item ++ tail) (onLine : List Bytes) :
    ∃ c', (blockLoop onLine bytes remaining).exec c =
        (blockLoop (onLine ++ handedOver lines) (bytes + contentLen lines)
          (remaining - lines.length)).exec c' ∧
      c'.upcoming = tail ∧ c.Advanced c' lines.length := by
  induction lines generalizing c onLine bytes remaining with
  | nil =>
      refine ⟨c, ?_, h, Advanced.refl c⟩
      rw [handedOver, List.map_nil, List.append_nil]
      rfl
  | cons line lines ih =>
      cases remaining with
      | zero => exact absurd hlines.count (Nat.not_succ_le_zero _)
      | succ remaining =>
          obtain ⟨⟨hnot, hlen, hterm⟩, hrest⟩ := BlockLines.cons_iff.mp hlines
          obtain ⟨hdown, hlater⟩ := (unflagged_succ c _).mp hflag
          have hup : c.upcoming = line.map .item ++ .item 0x0A ::
              ((rawLines lines).map .item ++ tail) := by
            rw [h, rawLines_cons, List.map_append, List.append_assoc]
            rfl
          obtain ⟨buffer, reads, hline, hevents⟩ :=
            exec_blockLine_of_line hsync hdown hnot hlen hup
          rw [hterm] at hline
          obtain ⟨c', hloop, htail, hadv⟩ := ih (c := { c.afterTest with buffer, reads }) hsync
            hlater hrest hevents (onLine ++ [unstuff (popCr line)])
          refine ⟨c', ?_, htail, hadv.head⟩
          rw [exec_blockLoop_line hline hlines.head_octets, hloop, List.append_assoc, contentLen,
            Nat.add_assoc, List.length_cons, Nat.add_sub_add_right]
          rfl

/-- One turn of the block loop: its end, or a line that passes and the rest of the loop. -/
theorem blockLoop_step {remaining : Nat} {c c' : Connection σ} {bytes : Nat}
    {onLine : List Bytes} {r : Except ClientError (List Bytes)} (hsync : c.desynchronised = false)
    (h : (blockLoop onLine bytes remaining).exec c = (r, c')) :
    (∃ last : Bytes, r = .ok onLine ∧ (0x0A : UInt8) ∉ last ∧
        last.length ≤ c.limits.maxLineLen ∧ isTerminator (popCr last) = true ∧ c.flag = false ∧
        c.upcoming = last.map .item ++ .item 0x0A :: c'.upcoming) ∨
      (∃ e, r = .error e ∧ c'.desynchronised = true) ∨
      (∃ (part : Bytes) (kind : IoErrorKind), r = .error (.fromIo kind) ∧ (0x0A : UInt8) ∉ part ∧
        part.length ≤ c.limits.maxLineLen ∧ c.flag = false ∧
        c.upcoming = part.map .item ++ .failed kind :: c'.upcoming) ∨
      (∃ (head buffer : Bytes) (reads : Reads) (n : Nat), remaining = n + 1 ∧
        (0x0A : UInt8) ∉ head ∧ head.length ≤ c.limits.maxLineLen ∧
        isTerminator (popCr head) = false ∧ bytes + (popCr head).length ≤ c.limits.maxBlockBytes ∧
        c.flag = false ∧
        c.upcoming = head.map .item ++ .item 0x0A :: events (held buffer reads) ∧
        (blockLoop (onLine ++ [unstuff (popCr head)]) (bytes + (popCr head).length) n).exec
          { c.afterTest with buffer, reads } = (r, c')) := by
  rcases hline : blockLine.exec c with ⟨res, mid⟩
  rcases blockLine_cases hsync hline with ⟨head, hr, hnot, hlen, hup, hflag, hmid⟩ |
    ⟨e', hr, hmark⟩ | ⟨part, kind, hr, hnot, hlen, hup, hflag⟩
  · cases hterm : isTerminator (popCr head) with
    | true =>
        rw [hr, hterm] at hline
        rw [exec_blockLoop_done hline] at h
        cases h
        exact Or.inl ⟨head, rfl, hnot, hlen, hterm, hflag, hup⟩
    | false =>
        rw [hr, hterm] at hline
        rcases Classical.em (remaining = 0 ∨
            mid.limits.maxBlockBytes < bytes + (popCr head).length) with hover | hwithin
        · obtain ⟨e', hover⟩ := exec_blockLoop_overrun hline hover
          rw [hover] at h
          cases h
          exact Or.inr (Or.inl ⟨e', rfl, rfl⟩)
        · obtain ⟨hpos, hbytes⟩ := not_or.mp hwithin
          obtain ⟨n, rfl⟩ := Nat.exists_eq_succ_of_ne_zero hpos
          rw [Nat.not_lt] at hbytes
          rw [exec_blockLoop_line hline hbytes] at h
          have hlimits : mid.limits = c.limits := by rw [hmid]; rfl
          rw [hlimits] at hbytes
          rw [hmid] at h
          exact Or.inr (Or.inr (Or.inr
            ⟨head, mid.buffer, mid.reads, n, rfl, hnot, hlen, hterm, hbytes, hflag, hup, h⟩))
  · rw [hr] at hline
    rw [exec_blockLoop_error hline] at h
    cases h
    exact Or.inr (Or.inl ⟨e', rfl, hmark⟩)
  · rw [hr] at hline
    rw [exec_blockLoop_error hline] at h
    cases h
    exact Or.inr (Or.inr (Or.inl ⟨part, kind, rfl, hnot, hlen, hflag, hup⟩))

/-- **All that reading a data block can do**: it ends at a terminator, it marks the connection, or a
read fails behind some of it. -/
theorem blockLoop_cases {remaining : Nat} {c c' : Connection σ} {bytes : Nat}
    {onLine : List Bytes} {r : Except ClientError (List Bytes)} (hsync : c.desynchronised = false)
    (hbytes : bytes ≤ c.limits.maxBlockBytes)
    (h : (blockLoop onLine bytes remaining).exec c = (r, c')) :
    (∃ (lines : List Bytes) (last : Bytes), r = .ok (onLine ++ handedOver lines) ∧
        BlockLines c.limits bytes remaining lines ∧ (0x0A : UInt8) ∉ last ∧
        last.length ≤ c.limits.maxLineLen ∧ isTerminator (popCr last) = true ∧
        c.Unflagged (lines.length + 1) ∧
        c.upcoming = (rawLines lines ++ last).map .item ++ .item 0x0A :: c'.upcoming) ∨
      (∃ e, r = .error e ∧ c'.desynchronised = true) ∨
      (∃ (lines : List Bytes) (part : Bytes) (kind : IoErrorKind), r = .error (.fromIo kind) ∧
        BlockLines c.limits bytes remaining lines ∧ (0x0A : UInt8) ∉ part ∧
        part.length ≤ c.limits.maxLineLen ∧ c.Unflagged (lines.length + 1) ∧
        c.upcoming = (rawLines lines ++ part).map .item ++ .failed kind :: c'.upcoming) := by
  induction remaining generalizing c bytes onLine with
  | zero =>
      rcases blockLoop_step hsync h with ⟨last, rfl, hnot, hlen, hterm, hflag, hup⟩ | hlost |
        ⟨part, kind, rfl, hnot, hlen, hflag, hup⟩ | ⟨_, _, _, n, hn, _⟩
      · exact Or.inl ⟨[], last, by simp [handedOver], .nil hbytes, hnot, hlen, hterm,
          (unflagged_succ c 0).mpr ⟨hflag, fun _ h => (List.not_mem_nil h).elim⟩, hup⟩
      · exact Or.inr (Or.inl hlost)
      · exact Or.inr (Or.inr ⟨[], part, kind, rfl, .nil hbytes, hnot, hlen,
          (unflagged_succ c 0).mpr ⟨hflag, fun _ h => (List.not_mem_nil h).elim⟩, hup⟩)
      · cases hn
  | succ remaining ih =>
      rcases blockLoop_step hsync h with ⟨last, rfl, hnot, hlen, hterm, hflag, hup⟩ | hlost |
        ⟨part, kind, rfl, hnot, hlen, hflag, hup⟩ |
        ⟨head, buffer, reads, n, hn, hnot, hlen, hterm, hwithin, hflag, hup, hrest⟩
      · exact Or.inl ⟨[], last, by simp [handedOver], .nil hbytes, hnot, hlen, hterm,
          (unflagged_succ c 0).mpr ⟨hflag, fun _ h => (List.not_mem_nil h).elim⟩, hup⟩
      · exact Or.inr (Or.inl hlost)
      · exact Or.inr (Or.inr ⟨[], part, kind, rfl, .nil hbytes, hnot, hlen,
          (unflagged_succ c 0).mpr ⟨hflag, fun _ h => (List.not_mem_nil h).elim⟩, hup⟩)
      · cases hn
        -- the line is put in front of what the rest of the loop made of the stream
        have hup' : ∀ (lines : List Bytes) (part : Bytes) (rest : List (Event UInt8 IoErrorKind)),
            events (held buffer reads) = (rawLines lines ++ part).map .item ++ rest →
            c.upcoming = (rawLines (head :: lines) ++ part).map .item ++ rest := by
          intro lines part rest hrest
          rw [hup, hrest, rawLines_items]
        rcases ih (c := { c.afterTest with buffer, reads }) hsync hwithin hrest with
          ⟨lines, last, rfl, hlines, hlf, hshort, hlast, hunflagged, hevents⟩ | hlost |
          ⟨lines, part, kind, rfl, hlines, hlf, hshort, hunflagged, hevents⟩
        · refine Or.inl ⟨head :: lines, last, ?_, BlockLines.cons_iff.mpr ⟨⟨hnot, hlen, hterm⟩,
            hlines⟩, hlf, hshort, hlast, (unflagged_succ c _).mpr ⟨hflag, hunflagged⟩,
            hup' _ _ _ hevents⟩
          rw [List.append_assoc]
          rfl
        · exact Or.inr (Or.inl hlost)
        · exact Or.inr (Or.inr ⟨head :: lines, part, kind, rfl, BlockLines.cons_iff.mpr
            ⟨⟨hnot, hlen, hterm⟩, hlines⟩, hlf, hshort,
            (unflagged_succ c _).mpr ⟨hflag, hunflagged⟩, hup' _ _ _ hevents⟩)

/-- **A block is read to its terminator**, and what follows it is left. -/
theorem exec_blockLoop_of_block {lines : List Bytes} {last : Bytes}
    {tail : List (Event UInt8 IoErrorKind)} {c : Connection σ} {bytes remaining : Nat}
    (hsync : c.desynchronised = false) (hflag : c.Unflagged (lines.length + 1))
    (hlines : BlockLines c.limits bytes remaining lines) (hlf : (0x0A : UInt8) ∉ last)
    (hshort : last.length ≤ c.limits.maxLineLen) (hlast : isTerminator (popCr last) = true)
    (h : c.upcoming = (rawLines lines ++ last).map .item ++ .item 0x0A :: tail)
    (onLine : List Bytes) :
    ∃ c', (blockLoop onLine bytes remaining).exec c = (.ok (onLine ++ handedOver lines), c') ∧
      c'.upcoming = tail ∧ c.Advanced c' (lines.length + 1) := by
  rw [List.map_append, List.append_assoc] at h
  obtain ⟨mid, hloop, hmid, hadv⟩ := exec_blockLoop_lines hsync
    (hflag.mono (Nat.le_succ _)) hlines h onLine
  have hdown := ((unflagged_succ mid 0).mp (hadv.unflagged hflag).2).1
  obtain ⟨buffer, reads, hline, hevents⟩ := exec_blockLine_of_line
    (hadv.desynchronised.trans hsync) hdown hlf (hadv.limits ▸ hshort) hmid
  rw [hlast] at hline
  refine ⟨{ mid.afterTest with buffer, reads }, ?_, hevents, hadv.last buffer reads⟩
  rw [hloop, exec_blockLoop_done hline]

/-- A read that fails behind some lines of a block and part of one more fails the block, and leaves the
connection unmarked. -/
theorem exec_blockLoop_of_failure {lines : List Bytes} {part : Bytes} {kind : IoErrorKind}
    {tail : List (Event UInt8 IoErrorKind)} {c : Connection σ} {bytes remaining : Nat}
    (hsync : c.desynchronised = false) (hflag : c.Unflagged (lines.length + 1))
    (hlines : BlockLines c.limits bytes remaining lines) (hlf : (0x0A : UInt8) ∉ part)
    (hshort : part.length ≤ c.limits.maxLineLen)
    (h : c.upcoming = (rawLines lines ++ part).map .item ++ .failed kind :: tail)
    (onLine : List Bytes) :
    ∃ c', (blockLoop onLine bytes remaining).exec c = (.error (.fromIo kind), c') ∧
      c'.upcoming = tail ∧ c.Advanced c' (lines.length + 1) := by
  rw [List.map_append, List.append_assoc] at h
  obtain ⟨mid, hloop, hmid, hadv⟩ := exec_blockLoop_lines hsync
    (hflag.mono (Nat.le_succ _)) hlines h onLine
  have hdown := ((unflagged_succ mid 0).mp (hadv.unflagged hflag).2).1
  obtain ⟨reads, hline, hevents⟩ := exec_blockLine_of_failure
    (hadv.desynchronised.trans hsync) hdown hlf (hadv.limits ▸ hshort) hmid
  refine ⟨{ mid.afterTest with buffer := [], reads }, ?_, hevents, hadv.last [] reads⟩
  rw [hloop, exec_blockLoop_error hline]

/-! ## Cancelled reads -/

/-- Reading a line looks at no flag, and reports no cancellation. -/
theorem readLine_unflagged {c c' : Connection σ} {context : String} {r : Except ClientError Bytes}
    (h : (readLine context).exec c = (r, c')) :
    c'.cancel = c.cancel ∧ ∀ e, r = .error e → e.isCancelled = false := by
  cases hsync : c.desynchronised with
  | true =>
      rw [exec_readLine_lost hsync] at h
      cases h
      exact ⟨rfl, fun e he => by cases he; rfl⟩
  | false =>
      rw [exec_readLine hsync] at h
      split at h
      · next kind buffer reads hloop =>
          cases h
          exact ⟨rfl, fun e he => by cases he; cases kind <;> rfl⟩
      · cases h
        exact ⟨rfl, fun e he => by cases he; rfl⟩
      · cases h
        exact ⟨rfl, fun e he => by cases he; rfl⟩
      · split at h
        · cases h
          exact ⟨rfl, fun e he => by cases he; rfl⟩
        · cases h
          exact ⟨rfl, fun e he => by cases he⟩

/-- Asking for a line of a block looks at the flag once, and reports a cancellation only if it is up. -/
theorem blockLine_flagged {c c' : Connection σ} {r : Except ClientError (Option Bytes)}
    (h : blockLine.exec c = (r, c')) :
    (c.flag = true ∧ ∃ e, r = .error e) ∨
      (c.flag = false ∧ c'.cancel = c.afterTest.cancel ∧ ∀ e, r = .error e → e.isCancelled = false) := by
  rw [exec_blockLine] at h
  split at h
  · next hflag =>
      cases h
      exact Or.inl ⟨hflag, _, rfl⟩
  · next hflag =>
      refine Or.inr ⟨Bool.eq_false_iff.mpr hflag, ?_⟩
      split at h
      · next hread =>
          cases h
          exact ⟨(readLine_unflagged hread).1, fun e he => by cases he⟩
      · next hread =>
          cases h
          exact ⟨(readLine_unflagged hread).1, fun e he => by
            cases he
            exact (readLine_unflagged hread).2 _ rfl⟩

/-- **A block is reported cancelled only by a look at the flag that found it up**, the first of its looks
that did. -/
theorem blockLoop_cancelled {remaining : Nat} {c c' : Connection σ} {bytes : Nat}
    {onLine : List Bytes} {e : ClientError} (he : e.isCancelled = true)
    (h : (blockLoop onLine bytes remaining).exec c = (.error e, c')) :
    ∃ tests, c.Unflagged tests ∧ (c.cancel.getD [])[tests]? = some true := by
  rcases hline : blockLine.exec c with ⟨r, mid⟩
  rcases blockLine_flagged hline with ⟨hflag, _⟩ | ⟨hflag, hcancel, hnot⟩
  · refine ⟨0, fun _ hseen => absurd hseen List.not_mem_nil, ?_⟩
    unfold flag at hflag
    rw [List.headD_eq_head?_getD] at hflag
    rw [← List.head?_eq_getElem?]
    cases hhead : (c.cancel.getD []).head? with
    | none => rw [hhead] at hflag; cases hflag
    | some seen => rw [hhead] at hflag; exact congrArg some hflag
  · cases r with
    | error e' =>
        rw [exec_blockLoop_error hline] at h
        cases h
        rw [hnot _ rfl] at he
        cases he
    | ok line? =>
        cases line? with
        | none =>
            rw [exec_blockLoop_done hline] at h
            cases h
        | some line =>
            -- one more line: too many, too long, or the rest of the loop reports it
            cases remaining with
            | zero =>
                rw [blockLoop, Fallible.exec_bind_ok hline] at h
                cases h
                cases he
            | succ remaining =>
                rw [blockLoop, Fallible.exec_bind_ok hline] at h
                change Fallible.exec (if mid.limits.maxBlockBytes < bytes + line.length then _
                  else _) mid = _ at h
                split at h
                · cases h
                  cases he
                · obtain ⟨tests, hdown, hup⟩ := blockLoop_cancelled he h
                  refine ⟨tests + 1, (unflagged_succ c tests).mpr ⟨hflag, ?_⟩, ?_⟩
                  · unfold Unflagged at hdown ⊢
                    rw [hcancel] at hdown
                    exact hdown
                  · rw [hcancel] at hup
                    unfold afterTest at hup
                    cases hobs : c.cancel with
                    | none => rw [hobs] at hup; cases hup
                    | some observations =>
                        rw [hobs] at hup
                        exact (List.getElem?_tail ..).symm.trans hup

end Connection
end Nntp.Client
