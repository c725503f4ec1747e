import Nntp.Proto.MimeTree

/-!
# Splitting a container

`split_on_boundary` of `body.rs` on any lines. The parts are the runs of lines between the delimiters, from the
first one up to the close delimiter or the end. Only so many of them become chunks, and the lines behind those are
in none.
-/

namespace Nntp.Proto

variable {boundary : Str}

/-! ## The runs between delimiters -/

def isDelimiter (boundary : Str) (line : Bytes) : Bool := trimTrailingSpace line = delimiterOf boundary

def isClose (boundary : Str) (line : Bytes) : Bool := trimTrailingSpace line = closeOf boundary

/-- The lines in front of the close delimiter, all of them if there is none. -/
def beforeClose (boundary : Str) (lines : List Bytes) : List Bytes := lines.takeWhile fun line => !isClose boundary line

/-- The runs of lines between delimiters. The one in front of the first delimiter is the preamble. -/
def partRuns (boundary : Str) (lines : List Bytes) : List (List Bytes) :=
  (splitAll (isDelimiter boundary) (beforeClose boundary lines)).2

/-- The lines after the first delimiter and in front of the close that are no delimiters. -/
def partLines (boundary : Str) (lines : List Bytes) : List Bytes :=
  ((beforeClose boundary lines).dropWhile fun line => !isDelimiter boundary line).filter
    fun line => !isDelimiter boundary line

/-- No line of a part is lost: each run is a chunk, and past the limit the remaining lines are one more. -/
structure SplitsWhole (lines : List Bytes) (boundary : Str) : Prop where
  runs : (partRuns boundary lines).length ≤ maxParts → splitOnBoundary lines boundary = partRuns boundary lines
  remaining : maxParts < (partRuns boundary lines).length →
    ∃ last, splitOnBoundary lines boundary = (partRuns boundary lines).take maxParts ++ [last] ∧
      (last.filter fun line => !isDelimiter boundary line) = ((partRuns boundary lines).drop maxParts).flatten
  lines : ((splitOnBoundary lines boundary).flatten.filter fun line => !isDelimiter boundary line) =
    partLines boundary lines

/-! ## What the loop does -/

section Loop

variable {chunks : List (List Bytes)} {current : Option (List Bytes)}

/-- The open chunk, continued with `lines`. -/
def continued (current : Option (List Bytes)) (lines : List Bytes) : List (List Bytes) :=
  (current.map (· ++ lines)).toList

theorem continued_nil (current : Option (List Bytes)) : continued current [] = current.toList := by
  cases current <;> simp [continued]

theorem continued_cons (current : Option (List Bytes)) (line : Bytes) (lines : List Bytes) :
    continued (current.map (· ++ [line])) lines = continued current (line :: lines) := by
  cases current <;> simp [continued]

/-- There is room for the open chunk. -/
theorem take_open (h : chunks.length + current.toList.length ≤ maxParts) (more : List (List Bytes)) :
    (current.toList ++ more).take (maxParts - chunks.length) =
      current.toList ++ more.take (maxParts - (chunks ++ current.toList).length) := by
  rw [List.take_append, List.take_of_length_le (by omega), List.length_append]
  congr 2
  omega

/-- The chunks are the runs, the open chunk in front of them, as far as there is room. -/
theorem splitParts_runs (lines : List Bytes) (h : chunks.length + current.toList.length ≤ maxParts) :
    splitParts (delimiterOf boundary) (closeOf boundary) chunks current lines =
      chunks ++ (continued current (splitAll (isDelimiter boundary) (beforeClose boundary lines)).1 ++
        partRuns boundary lines).take (maxParts - chunks.length) := by
  unfold partRuns
  induction lines generalizing chunks current with
  | nil =>
      show chunks ++ current.toList = chunks ++ (continued current [] ++ []).take (maxParts - chunks.length)
      rw [continued_nil, take_open h, List.take_nil, List.append_nil]
  | cons line lines ih =>
      rw [splitParts]
      dsimp only
      by_cases hclose : trimTrailingSpace line = closeOf boundary
      · have hnone : beforeClose boundary (line :: lines) = [] := by
          simp [beforeClose, isClose, hclose]
        rw [if_pos hclose, hnone]
        show chunks ++ current.toList = chunks ++ (continued current [] ++ []).take (maxParts - chunks.length)
        rw [continued_nil, take_open h, List.take_nil, List.append_nil]
      · have hmore : beforeClose boundary (line :: lines) = line :: beforeClose boundary lines := by
          simp [beforeClose, isClose, hclose]
        rw [if_neg hclose, hmore, splitAll]
        by_cases hdelimiter : trimTrailingSpace line = delimiterOf boundary
        · -- the open chunk ends, and another one begins if there is room
          have hsplits : isDelimiter boundary line = true := decide_eq_true hdelimiter
          rw [if_pos hdelimiter, if_pos hsplits, continued_nil, take_open h, ← List.append_assoc]
          have hlength : (chunks ++ current.toList).length ≤ maxParts := by rwa [List.length_append]
          by_cases hfull : maxParts ≤ (chunks ++ current.toList).length
          · rw [if_pos hfull, Nat.sub_eq_zero_of_le hfull, List.take_zero, List.append_nil]
          · rw [if_neg hfull, ih (by rw [Option.toList_some, List.length_singleton]; omega)]
            rfl
        · have hsplits : isDelimiter boundary line = false := decide_eq_false hdelimiter
          rw [if_neg hdelimiter, hsplits, if_neg Bool.false_ne_true,
            ih (by cases current <;> simpa using h), continued_cons]

end Loop

/-- **The chunks are the first runs**, as many as there may be. -/
theorem splitOnBoundary_runs (lines : List Bytes) :
    splitOnBoundary lines boundary = (partRuns boundary lines).take maxParts :=
  splitParts_runs lines (Nat.zero_le _)

/-- The runs have all the lines of the parts. -/
theorem flatten_partRuns (lines : List Bytes) : (partRuns boundary lines).flatten = partLines boundary lines := by
  unfold partRuns partLines
  have hall : ∀ lines : List Bytes, (splitAll (isDelimiter boundary) lines).1 ++
      (splitAll (isDelimiter boundary) lines).2.flatten = lines.filter fun line => !isDelimiter boundary line := by
    intro lines
    induction lines with
    | nil => rfl
    | cons line lines ih =>
        unfold splitAll
        cases hsplits : isDelimiter boundary line <;> simp [hsplits, ← ih]
  induction beforeClose boundary lines with
  | nil => rfl
  | cons line lines ih =>
      unfold splitAll
      cases hsplits : isDelimiter boundary line with
      | false => simpa [hsplits] using ih
      | true => simpa [hsplits] using hall lines

/-- There is a run for each delimiter. -/
theorem length_partRuns (lines : List Bytes) :
    (partRuns boundary lines).length = (beforeClose boundary lines).countP (isDelimiter boundary) := by
  unfold partRuns
  induction beforeClose boundary lines with
  | nil => rfl
  | cons line lines ih =>
      unfold splitAll
      cases hsplits : isDelimiter boundary line <;> simp [hsplits, ih]

/-- A container with a one-line part more than are split out. -/
def manyParts : List Bytes :=
  (List.replicate (maxParts + 1) ["--b".toList.map fun c => UInt8.ofNat c.toNat, [0x78]]).flatten

end Nntp.Proto
