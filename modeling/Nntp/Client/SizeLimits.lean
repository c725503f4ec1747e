import Mathlib.Algebra.GroupWithZero.Nat
import Nntp.Client.Alignment
import Nntp.Client.Segmentation

/-!
# What the size limits admit

`limits.rs` says that `max_line_len` leaves out the CRLF, and that `max_block_bytes` is about the content of the
lines. `read_line` compares a line with its limit while the CR is still on it, and `read_block_streaming` counts
the octets of a line before its dot-stuffing is removed. Here is exactly what the code admits, and where that
differs from what is documented.
-/

namespace Nntp.Client

open Nntp.Lib Nntp.Proto

namespace Connection

variable {σ : Type}

/-! ## Responses -/

/-- What a server sends: a line that a CRLF ends, or a data block, its lines and its terminator as they stand
between the LFs. -/
inductive Response where
  | line (content : Bytes)
  | block (lines : List Bytes) (last : Bytes)

namespace Response

def octets : Response → Bytes
  | line content => content ++ [0x0D, 0x0A]
  | block lines last => rawLines lines ++ last ++ [0x0A]

def WellFormed : Response → Prop
  | line content => (0x0A : UInt8) ∉ content
  | block lines last =>
      (∀ raw ∈ lines, (0x0A : UInt8) ∉ raw ∧ isTerminator (popCr raw) = false) ∧
        (0x0A : UInt8) ∉ last ∧ isTerminator (popCr last) = true

/-- The code takes the response. -/
def Accepted (c : Connection σ) : Response → Prop
  | line _ => ∃ line, ((readLine "a status line").exec c).1 = .ok line
  | block _ _ => ∃ lines, (readBlockStreaming.exec c).1 = .ok lines

/-- The octets that dot-stuffing adds to some lines. -/
def stuffedDots (lines : List Bytes) : Nat := lines.countP fun raw => (popCr raw).head? = some 0x2E

/-- The response is within the limits as they are documented: lines without their CRLF, and octets of the lines
that are handed over. -/
def Documented (limits : Limits) : Response → Prop
  | line content => content.length ≤ limits.maxLineLen
  | block lines last =>
      lines.length ≤ limits.maxBlockLines ∧
        ((handedOver lines).map List.length).sum ≤ limits.maxBlockBytes ∧
        ∀ raw ∈ lines ++ [last], (popCr raw).length ≤ limits.maxLineLen

/-- A line fills its limit, and a CR stands behind it. -/
def Full (limits : Limits) (raw : Bytes) : Prop :=
  raw.getLast? = some 0x0D ∧ (popCr raw).length = limits.maxLineLen

/-- No line fills its limit, and the stuffed dots have room. -/
def HasRoom (limits : Limits) : Response → Prop
  | line content => content.length ≠ limits.maxLineLen
  | block lines last =>
      (∀ raw ∈ lines ++ [last], ¬ Full limits raw) ∧
        ((handedOver lines).map List.length).sum + stuffedDots lines ≤ limits.maxBlockBytes

/-! ## Lengths -/

theorem length_unstuff (line : Bytes) :
    line.length = (unstuff line).length + if line.head? = some 0x2E then 1 else 0 := by
  cases line with
  | nil => rfl
  | cons b rest =>
      by_cases hb : b = 0x2E
      · simp [unstuff, hb]
      · simp [unstuff, hb]

/-- The code counts the stuffed dots with the content. -/
theorem contentLen_eq (lines : List Bytes) :
    contentLen lines = ((handedOver lines).map List.length).sum + stuffedDots lines := by
  induction lines with
  | nil => rfl
  | cons raw lines ih =>
      unfold handedOver stuffedDots at ih ⊢
      rw [contentLen, ih, List.countP_cons, length_unstuff (popCr raw)]
      simp only [List.map_cons, List.sum_cons, decide_eq_true_eq]
      omega

/-- The code compares a line with its limit while the CR is on it. -/
theorem length_le_iff (limits : Limits) (raw : Bytes) :
    raw.length ≤ limits.maxLineLen ↔ (popCr raw).length ≤ limits.maxLineLen ∧ ¬ Full limits raw := by
  unfold Full popCr
  split
  · next hcr =>
      have hpos : 0 < raw.length := by
        cases raw with
        | nil => cases hcr
        | cons b rest => exact Nat.succ_pos _
      rw [List.length_dropLast]
      simp only [hcr, true_and]
      omega
  · next hcr => simp [hcr]

/-! ## What the code takes -/

section Accepted

variable {c : Connection σ} {tail : List (Event UInt8 IoErrorKind)}

theorem accepted_line (hsync : c.desynchronised = false) {content : Bytes} (hnot : (0x0A : UInt8) ∉ content)
    (hup : c.upcoming = (line content).octets.map .item ++ tail) :
    (line content).Accepted c ↔ content.length + 1 ≤ c.limits.maxLineLen := by
  have hcr : (0x0A : UInt8) ∉ content ++ [0x0D] := by simpa using hnot
  have hlen : (content ++ [0x0D]).length = content.length + 1 := by simp
  have hup' : c.upcoming = (content ++ [0x0D]).map .item ++ .item 0x0A :: tail := by
    rw [hup]
    simp [octets]
  constructor
  · rintro ⟨line, hline⟩
    rcases hread : (readLine "a status line").exec c with ⟨r, c'⟩
    rw [hread] at hline
    rcases readLine_cases hsync hread with ⟨head, _, hhead, hlimit, hbrought, _⟩ | ⟨e, hr, _⟩ |
      ⟨_, kind, hr, _⟩
    · rw [hup'] at hbrought
      obtain ⟨rfl, _⟩ := items_cut hcr hhead hbrought
      rwa [hlen] at hlimit
    · rw [hr] at hline
      cases hline
    · rw [hr] at hline
      cases hline
  · intro hlimit
    obtain ⟨buffer, reads, hread, _⟩ := exec_readLine_of_line hsync hcr (by rwa [hlen]) hup' "a status line"
    exact ⟨_, congrArg Prod.fst hread⟩

theorem accepted_block (hsync : c.desynchronised = false) (hcancel : c.cancel = none) {lines : List Bytes}
    {last : Bytes} (hformed : (block lines last).WellFormed)
    (hup : c.upcoming = (block lines last).octets.map .item ++ tail) :
    (block lines last).Accepted c ↔
      lines.length ≤ c.limits.maxBlockLines ∧ contentLen lines ≤ c.limits.maxBlockBytes ∧
        ∀ raw ∈ lines ++ [last], raw.length ≤ c.limits.maxLineLen := by
  obtain ⟨hlines, hlast⟩ := hformed
  have hup' : c.upcoming = (rawLines lines ++ last).map .item ++ .item 0x0A :: tail := by
    rw [hup]
    simp [octets]
  constructor
  · rintro ⟨handed, hhanded⟩
    rcases hread : readBlockStreaming.exec c with ⟨r, c'⟩
    rw [hread] at hhanded
    dsimp only at hhanded
    rw [hhanded] at hread
    obtain ⟨⟨lines', last', tail', hpass, hlf, hshort, hterm, _, hbrought⟩, _⟩ := readBlock_ok hsync hread
    rw [hup'] at hbrought
    -- the stream holds one block, so the one that was read is the one that was sent
    obtain ⟨rfl, rfl, _⟩ := block_unique hlines
      (fun raw hraw => ⟨hpass.noLf raw hraw, hpass.content raw hraw⟩) hlast ⟨hlf, hterm⟩ hbrought
    refine ⟨hpass.count, by simpa using hpass.octets, ?_⟩
    intro raw hraw
    rcases List.mem_append.mp hraw with hraw | hraw
    · exact hpass.short raw hraw
    · rwa [List.mem_singleton.mp hraw]
  · rintro ⟨hcount, hoctets, hshort⟩
    have hpass : BlockLines c.limits 0 c.limits.maxBlockLines lines := {
      noLf := fun raw hraw => (hlines raw hraw).1
      short := fun raw hraw => hshort raw (List.mem_append_left _ hraw)
      content := fun raw hraw => (hlines raw hraw).2
      count := hcount
      octets := by rwa [Nat.zero_add] }
    obtain ⟨handed, c', hread⟩ := exec_readBlock_of_brings hsync
      ⟨lines, last, tail, hpass, hlast.1, hshort last (by simp), hlast.2,
        unflagged_of_none hcancel _, hup'⟩
    exact ⟨handed, congrArg Prod.fst hread⟩

/-- **What the code takes**: what is within the documented limits and leaves room for a CR and for the stuffed
dots. -/
theorem accepted_iff (hsync : c.desynchronised = false) (hcancel : c.cancel = none) {response : Response}
    (hformed : response.WellFormed) (hup : c.upcoming = response.octets.map .item ++ tail) :
    response.Accepted c ↔ response.Documented c.limits ∧ response.HasRoom c.limits := by
  cases response with
  | line content =>
      rw [accepted_line hsync hformed hup]
      show _ ↔ content.length ≤ c.limits.maxLineLen ∧ content.length ≠ c.limits.maxLineLen
      omega
  | block lines last =>
      rw [accepted_block hsync hcancel hformed hup, contentLen_eq]
      have hline := length_le_iff c.limits
      constructor
      · rintro ⟨hcount, hoctets, hlines⟩
        exact ⟨⟨hcount, by omega, fun raw hraw => ((hline raw).mp (hlines raw hraw)).1⟩,
          fun raw hraw => ((hline raw).mp (hlines raw hraw)).2, hoctets⟩
      · rintro ⟨⟨hcount, _, hlines⟩, hfull, hoctets⟩
        exact ⟨hcount, hoctets, fun raw hraw => (hline raw).mpr ⟨hlines raw hraw, hfull raw hraw⟩⟩

/-- **The documented limits are the code's** for a response beyond them, and for one that has room. -/
theorem limits_exact_iff (hsync : c.desynchronised = false) (hcancel : c.cancel = none) {response : Response}
    (hformed : response.WellFormed) (hup : c.upcoming = response.octets.map .item ++ tail) :
    (response.Accepted c ↔ response.Documented c.limits) ↔
      (response.Documented c.limits → response.HasRoom c.limits) := by
  rw [accepted_iff hsync hcancel hformed hup]
  exact and_iff_left_iff_imp

end Accepted

/-! ## At a limit -/

instance : DecidablePred WellFormed
  | line _ => inferInstanceAs (Decidable (_ ∉ _))
  | block _ _ => inferInstanceAs (Decidable (_ ∧ _ ∧ _))

instance (limits : Limits) : DecidablePred (Documented limits)
  | line _ => inferInstanceAs (Decidable (_ ≤ _))
  | block _ _ => inferInstanceAs (Decidable (_ ∧ _ ∧ _))

instance (limits : Limits) : DecidablePred (Full limits) := fun _ => inferInstanceAs (Decidable (_ ∧ _))

instance (limits : Limits) : DecidablePred (HasRoom limits)
  | line _ => inferInstanceAs (Decidable (_ ≠ _))
  | block _ _ => inferInstanceAs (Decidable (_ ∧ _))

/-- A line of five octets. -/
def hello : Response := line (asBytes "hello".toList)

/-- A block of one line, which is three octets on the wire and two when its stuffed dot is removed. -/
def dotted : Response := block [asBytes "..a\r".toList] (asBytes ".\r".toList)

/-- A new connection to which a response is still to come. -/
def bringing (limits : Limits) (response : Response) : Connection Unit := withLimits () limits [response.octets]

theorem upcoming_bringing (limits : Limits) (response : Response) :
    (bringing limits response).upcoming = response.octets.map .item ++ [] := by
  have hne : response.octets ≠ [] := by cases response <;> simp [octets]
  rw [List.append_nil]
  exact events_data hne [] |>.trans (List.append_nil _)

/-- Where there is room, both are taken. -/
theorem limits_exact_room :
    ((hello.Accepted (bringing ⟨6, 0, 0⟩ hello) ↔ hello.Documented ⟨6, 0, 0⟩) ↔
        (hello.Documented ⟨6, 0, 0⟩ → hello.HasRoom ⟨6, 0, 0⟩)) ∧
      ((dotted.Accepted (bringing ⟨4, 3, 1⟩ dotted) ↔ dotted.Documented ⟨4, 3, 1⟩) ↔
        (dotted.Documented ⟨4, 3, 1⟩ → dotted.HasRoom ⟨4, 3, 1⟩)) :=
  ⟨limits_exact_iff rfl rfl (by decide) (upcoming_bringing ⟨6, 0, 0⟩ hello),
    limits_exact_iff rfl rfl (by decide) (upcoming_bringing ⟨4, 3, 1⟩ dotted)⟩

/-- A line that fills its limit is refused, and so is a block that is filled by its content. -/
theorem limits_inexact :
    ¬ (hello.Accepted (bringing ⟨5, 0, 0⟩ hello) ↔ hello.Documented ⟨5, 0, 0⟩) ∧
      ¬ (dotted.Accepted (bringing ⟨4, 2, 1⟩ dotted) ↔ dotted.Documented ⟨4, 2, 1⟩) := by
  constructor
  · rw [accepted_iff rfl rfl (by decide) (upcoming_bringing _ hello)]
    decide
  · rw [accepted_iff rfl rfl (by decide) (upcoming_bringing _ dotted)]
    decide

end Response

end Connection
end Nntp.Client
