import Mathlib.Data.List.SplitBy
import Nntp.Lib.Substring
import Nntp.Proto.Separator

/-!
# Flowed text

`unflow` of `body.rs`, which joins the lines of a `format=flowed` body into paragraphs. The loop carries the
output and the quote depth of the paragraph that is open. A paragraph is a maximal run of lines of one depth all
of which but the last are flowed; the output has a line for each, except that an empty last one may be missing.
-/

namespace Nntp.Proto

/-! ## The loop -/

/-- Counts the `>` quote prefix of a line and returns the rest. -/
def splitQuotePrefix : Str → Nat × Str
  | '>' :: rest => ((splitQuotePrefix rest).1 + 1, (splitQuotePrefix rest).2)
  | line => (0, line)

/-- Writes a line's `>` prefix, with one space before the text. -/
def pushQuotePrefix (out : Str) (depth : Nat) (content : Str) : Str :=
  let out := out ++ List.replicate depth '>'
  if 0 < depth ∧ content ≠ [] then out ++ [' '] else out

def trimTrailingSpaces (out : Str) : Str := out.rdropWhile (· == ' ')

/-- The line above a signature. -/
def signatureSeparator : Str := "-- ".toList

/-- A line of a flowed body, without its quote prefix and one stuffed space. -/
structure QuotedLine where
  depth : Nat
  content : Str
  deriving DecidableEq

namespace QuotedLine

def parse (line : Str) : QuotedLine :=
  let split := splitQuotePrefix line
  { depth := split.1, content := (stripPrefix [' '] split.2).getD split.2 }

/-- The line goes on in the next one. -/
def isFlowed (line : QuotedLine) : Bool := line.content.getLast? == some ' ' && line.content != signatureSeparator

end QuotedLine

/-- What the loop of `unflow` carries from line to line. -/
structure Unflowing where
  out : Str
  openDepth : Option Nat

/-- What is written in front of a line's text. -/
def Unflowing.before (s : Unflowing) (line : QuotedLine) : Str :=
  match s.openDepth with
  | some open_ =>
      -- the prefix was written when the paragraph was opened
      if open_ = line.depth then s.out
      -- a different depth ends the paragraph
      else pushQuotePrefix (trimTrailingSpaces s.out ++ ['\n']) line.depth line.content
  | none => pushQuotePrefix s.out line.depth line.content

/-- One turn of the loop. -/
def unflowLine (deleteSpace : Bool) (s : Unflowing) (line : QuotedLine) : Unflowing :=
  if line.isFlowed then
    let body := if deleteSpace then (stripSuffix [' '] line.content).getD line.content else line.content
    { out := s.before line ++ body, openDepth := some line.depth }
  else { out := s.before line ++ line.content ++ ['\n'], openDepth := none }

/-- The lines of a flowed body. One line feed at its end is not an empty line. -/
def flowedLines (text : Str) : List QuotedLine :=
  (textLines ((stripSuffix ['\n'] text).getD text)).map QuotedLine.parse

/-- Rejoins the soft line breaks of a `format=flowed` body. -/
def unflow (text : Str) (deleteSpace : Bool) : Str :=
  let s := (flowedLines text).foldl (unflowLine deleteSpace) { out := [], openDepth := none }
  let out := if s.openDepth.isSome then trimTrailingSpaces s.out else s.out
  (stripSuffix ['\n'] out).getD out

/-! ## Paragraphs -/

namespace QuotedLine

/-- The next line belongs to the same paragraph. -/
def flowsInto (line next : QuotedLine) : Bool := line.isFlowed && line.depth == next.depth

/-- What is shown of a line: its content, of a flowed one without the space that marks the break if spaces are
to be deleted. -/
def shown (deleteSpace : Bool) (line : QuotedLine) : Str :=
  if deleteSpace && line.isFlowed then line.content.dropLast else line.content

end QuotedLine

/-- The maximal runs of lines that flow into each other. -/
structure IsParagraphs (lines : List QuotedLine) (runs : List (List QuotedLine)) : Prop where
  all : runs.flatten = lines
  nonempty : ∀ run ∈ runs, run ≠ []
  together : ∀ run ∈ runs, run.IsChain fun line next => line.flowsInto next = true
  apart : runs.IsChain fun run later => ∀ line ∈ run.getLast?, ∀ next ∈ later.head?, line.flowsInto next = false

def quotePrefix (depth : Nat) (content : Str) : Str := pushQuotePrefix [] depth content

/-- A paragraph as it is joined. -/
def paragraphText (deleteSpace : Bool) : List QuotedLine → Str
  | [] => []
  | first :: rest => quotePrefix first.depth first.content ++ (first :: rest).flatMap (·.shown deleteSpace)

/-- The last line was marked as flowed. -/
def endsFlowed (run : List QuotedLine) : Bool := run.getLast?.any (·.isFlowed)

/-- The output line of a paragraph: trailing spaces are markers if nothing is left to join. -/
def outputLine (deleteSpace : Bool) (run : List QuotedLine) : Str :=
  if endsFlowed run then trimTrailingSpaces (paragraphText deleteSpace run) else paragraphText deleteSpace run

/-- These are the lines of a text, up to an empty last one. -/
def Shows (text : Str) (lines : List Str) : Prop :=
  textLines text = lines ∨ lines.getLast? = some [] ∧ textLines text = lines.dropLast

/-! ## Line by line -/

section Steps

variable {deleteSpace : Bool} {line : QuotedLine} {out : Str}

theorem pushQuotePrefix_eq (out : Str) (depth : Nat) (content : Str) :
    pushQuotePrefix out depth content = out ++ quotePrefix depth content := by
  unfold quotePrefix pushQuotePrefix
  by_cases h : 0 < depth ∧ content ≠ [] <;> simp [h]

theorem QuotedLine.shown_flowed (h : line.isFlowed = true) :
    (if deleteSpace then (stripSuffix [' '] line.content).getD line.content else line.content) =
      line.shown deleteSpace := by
  obtain ⟨hlast, -⟩ := Bool.and_eq_true_iff.mp h
  obtain ⟨front, hfront⟩ := List.getLast?_eq_some_iff.mp (eq_of_beq hlast)
  have hstrip : stripSuffix [' '] line.content = some front := by
    unfold stripSuffix
    rw [hfront, List.reverse_append]
    simp [stripPrefix]
  unfold QuotedLine.shown
  rw [h, hstrip, hfront]
  cases deleteSpace <;> simp

theorem QuotedLine.shown_fixed (h : line.isFlowed = false) : line.shown deleteSpace = line.content := by
  simp [QuotedLine.shown, h]

/-- The output with the open paragraph ended. -/
def Unflowing.closed (s : Unflowing) : Str :=
  match s.openDepth with
  | some _ => trimTrailingSpaces s.out ++ ['\n']
  | none => s.out

/-- After a line whose text is put behind `out`. -/
def afterLine (deleteSpace : Bool) (out : Str) (line : QuotedLine) : Unflowing where
  out := out ++ line.shown deleteSpace ++ if line.isFlowed then [] else ['\n']
  openDepth := if line.isFlowed then some line.depth else none

theorem unflowLine_eq (s : Unflowing) :
    unflowLine deleteSpace s line = afterLine deleteSpace (s.before line) line := by
  unfold unflowLine afterLine
  cases hflowed : line.isFlowed with
  | true => simp [QuotedLine.shown_flowed hflowed]
  | false => simp [QuotedLine.shown_fixed hflowed]

theorem Unflowing.before_continued {s : Unflowing} (h : s.openDepth = some line.depth) : s.before line = s.out := by
  unfold Unflowing.before
  rw [h]
  exact if_pos rfl

theorem Unflowing.before_begun {s : Unflowing} (h : s.openDepth ≠ some line.depth) :
    s.before line = s.closed ++ quotePrefix line.depth line.content := by
  unfold Unflowing.before Unflowing.closed
  cases hopen : s.openDepth with
  | none => exact pushQuotePrefix_eq _ _ _
  | some open_ =>
      dsimp only
      rw [if_neg fun heq => h (by rw [hopen, heq]), pushQuotePrefix_eq]

end Steps

/-! ## Paragraph by paragraph -/

section Paragraphs

variable (deleteSpace : Bool)

/-- What is trimmed off ends where something else than a space stands. -/
def Solid (out : Str) : Prop := ∀ c ∈ out.getLast?, c ≠ ' '

theorem solid_lf (out : Str) : Solid (out ++ ['\n']) := by
  intro c hc
  rw [List.getLast?_concat] at hc
  cases hc
  decide

theorem trimTrailingSpaces_append {out : Str} (h : Solid out) (text : Str) :
    trimTrailingSpaces (out ++ text) = out ++ trimTrailingSpaces text :=
  Lib.rdropWhile_behind (fun c hc => beq_eq_false_iff_ne.mpr (h c hc)) text

/-- The rest of a paragraph whose first line has been read. -/
theorem foldl_continued {first : QuotedLine} {rest : List QuotedLine}
    (h : (first :: rest).IsChain fun line next => line.flowsInto next = true) (out : Str) :
    ∃ last, (first :: rest).getLast? = some last ∧
      rest.foldl (unflowLine deleteSpace) (afterLine deleteSpace out first) =
        { out := out ++ (first :: rest).flatMap (·.shown deleteSpace) ++ if last.isFlowed then [] else ['\n']
          openDepth := if last.isFlowed then some last.depth else none } := by
  induction rest generalizing first out with
  | nil => exact ⟨first, rfl, by simp [afterLine]⟩
  | cons next rest ih =>
      obtain ⟨hflows, hrest⟩ := List.isChain_cons_cons.mp h
      obtain ⟨hflowed, hdepth⟩ := Bool.and_eq_true_iff.mp hflows
      have hopen : (afterLine deleteSpace out first).openDepth = some next.depth := by
        rw [← eq_of_beq hdepth]
        exact if_pos hflowed
      have hout : (afterLine deleteSpace out first).out = out ++ first.shown deleteSpace := by
        simp [afterLine, hflowed]
      obtain ⟨last, hlast, hfold⟩ := ih hrest (out ++ first.shown deleteSpace)
      refine ⟨last, by rw [List.getLast?_cons_cons, hlast], ?_⟩
      rw [List.foldl_cons, unflowLine_eq, Unflowing.before_continued hopen, hout, hfold]
      simp only [List.flatMap_cons, List.append_assoc]

/-- A whole paragraph, behind what has been closed. -/
theorem foldl_paragraph {s : Unflowing} {run : List QuotedLine} (hne : run ≠ [])
    (h : run.IsChain fun line next => line.flowsInto next = true)
    (hbegun : ∀ line ∈ run.head?, s.openDepth ≠ some line.depth) :
    ∃ last, run.getLast? = some last ∧ run.foldl (unflowLine deleteSpace) s =
      { out := s.closed ++ paragraphText deleteSpace run ++ if last.isFlowed then [] else ['\n']
        openDepth := if last.isFlowed then some last.depth else none } := by
  cases run with
  | nil => exact absurd rfl hne
  | cons first rest =>
      obtain ⟨last, hlast, hfold⟩ := foldl_continued deleteSpace h
        (s.closed ++ quotePrefix first.depth first.content)
      refine ⟨last, hlast, ?_⟩
      rw [List.foldl_cons, unflowLine_eq, Unflowing.before_begun (hbegun first rfl), hfold]
      simp only [paragraphText, List.append_assoc]

theorem closed_paragraph {s : Unflowing} {run : List QuotedLine} (hne : run ≠ [])
    (h : run.IsChain fun line next => line.flowsInto next = true)
    (hbegun : ∀ line ∈ run.head?, s.openDepth ≠ some line.depth) (hsolid : Solid s.closed) :
    (run.foldl (unflowLine deleteSpace) s).closed = s.closed ++ outputLine deleteSpace run ++ ['\n'] := by
  obtain ⟨last, hlast, hfold⟩ := foldl_paragraph deleteSpace hne h hbegun
  have hends : endsFlowed run = last.isFlowed := by
    unfold endsFlowed
    rw [hlast]
    rfl
  rw [hfold, outputLine, hends]
  cases last.isFlowed with
  | true =>
      show trimTrailingSpaces (s.closed ++ paragraphText deleteSpace run ++ []) ++ ['\n'] = _
      rw [List.append_nil, trimTrailingSpaces_append hsolid]
      rfl
  | false => rfl

/-- The paragraphs of a body, each with a line of its own. -/
theorem closed_paragraphs {runs : List (List QuotedLine)} {s : Unflowing} (h : IsParagraphs runs.flatten runs)
    (hbegun : ∀ run ∈ runs.head?, ∀ line ∈ run.head?, s.openDepth ≠ some line.depth) (hsolid : Solid s.closed) :
    (runs.flatten.foldl (unflowLine deleteSpace) s).closed =
      s.closed ++ (runs.map (outputLine deleteSpace)).flatMap (· ++ ['\n']) := by
  induction runs generalizing s with
  | nil => simp
  | cons run runs ih =>
      have hne := h.nonempty run List.mem_cons_self
      have hchain := h.together run List.mem_cons_self
      obtain ⟨last, hlast, hfold⟩ := foldl_paragraph deleteSpace hne hchain (hbegun run rfl)
      have hclosed := closed_paragraph deleteSpace hne hchain (hbegun run rfl) hsolid
      have hrest : IsParagraphs runs.flatten runs :=
        ⟨rfl, fun later hlater => h.nonempty later (List.mem_cons_of_mem _ hlater),
          fun later hlater => h.together later (List.mem_cons_of_mem _ hlater), h.apart.tail⟩
      have hfresh : ∀ later ∈ runs.head?, ∀ line ∈ later.head?,
          (run.foldl (unflowLine deleteSpace) s).openDepth ≠ some line.depth := by
        intro later hlater line hline hopen
        have hapart := (List.isChain_cons.mp h.apart).1 later hlater last hlast line hline
        rw [hfold] at hopen
        dsimp only at hopen
        unfold QuotedLine.flowsInto at hapart
        cases hflowed : last.isFlowed with
        | true =>
            rw [hflowed, if_pos rfl] at hopen
            rw [hflowed, Option.some.inj hopen] at hapart
            simp at hapart
        | false =>
            rw [hflowed] at hopen
            cases hopen
      rw [List.flatten_cons, List.foldl_append, ih hrest hfresh (by rw [hclosed]; exact solid_lf _), hclosed]
      simp

end Paragraphs

/-! ## What is shown -/

section Shown

variable {deleteSpace : Bool}

theorem splitQuotePrefix_suffix (line : Str) : (splitQuotePrefix line).2 <:+ line := by
  fun_induction splitQuotePrefix line with
  | case1 rest ih => exact ih.trans (List.suffix_cons _ _)
  | case2 line h => exact List.suffix_refl _

theorem QuotedLine.content_suffix (line : Str) : (QuotedLine.parse line).content <:+ line := by
  refine List.IsSuffix.trans ?_ (splitQuotePrefix_suffix line)
  unfold QuotedLine.parse
  dsimp only
  cases hstrip : stripPrefix [' '] (splitQuotePrefix line).2 with
  | none => exact List.suffix_refl _
  | some content => exact ⟨[' '], (stripPrefix_eq_some.mp hstrip).symm⟩

theorem QuotedLine.mem_shown {line : QuotedLine} {c : Char} (h : c ∈ line.shown deleteSpace) : c ∈ line.content := by
  unfold QuotedLine.shown at h
  by_cases hdelete : (deleteSpace && line.isFlowed) = true
  · rw [if_pos hdelete] at h
    exact (List.dropLast_sublist _).subset h
  · rwa [if_neg hdelete] at h

theorem mem_quotePrefix {depth : Nat} {content : Str} {c : Char} (h : c ∈ quotePrefix depth content) :
    c = '>' ∨ c = ' ' := by
  unfold quotePrefix pushQuotePrefix at h
  by_cases hspace : 0 < depth ∧ content ≠ []
  · rw [if_pos hspace] at h
    simp only [List.nil_append, List.mem_append, List.mem_replicate, List.mem_singleton] at h
    exact h.imp_left (·.2)
  · rw [if_neg hspace] at h
    exact Or.inl (List.eq_of_mem_replicate h)

theorem lf_not_mem_outputLine {run : List QuotedLine} (h : ∀ line ∈ run, '\n' ∉ line.content) :
    '\n' ∉ outputLine deleteSpace run := by
  have htext : '\n' ∉ paragraphText deleteSpace run := by
    cases run with
    | nil => exact List.not_mem_nil
    | cons first rest =>
        intro hmem
        rcases List.mem_append.mp hmem with hmem | hmem
        · rcases mem_quotePrefix hmem with h | h <;> exact absurd h (by decide)
        · obtain ⟨line, hline, hmem⟩ := List.mem_flatMap.mp hmem
          exact h line hline (QuotedLine.mem_shown hmem)
  unfold outputLine
  by_cases hends : endsFlowed run = true
  · rw [if_pos hends]
    exact fun hmem => htext ((List.rdropWhile_prefix _ _).subset hmem)
  · rwa [if_neg hends]

theorem lf_not_mem_flowedLines {text : Str} {line : QuotedLine} (h : line ∈ flowedLines text) :
    '\n' ∉ line.content := by
  obtain ⟨raw, hraw, rfl⟩ := List.mem_map.mp h
  exact fun hmem => lf_not_mem_textLines hraw ((QuotedLine.content_suffix raw).subset hmem)

theorem flowedLines_ne_nil (text : Str) : flowedLines text ≠ [] := by
  unfold flowedLines textLines
  simp

theorem joinLines_ended {lines : List Str} (h : lines ≠ []) :
    lines.flatMap (· ++ ['\n']) = joinLines lines ++ ['\n'] := by
  induction lines with
  | nil => exact absurd rfl h
  | cons line lines ih =>
      cases lines with
      | nil => simp
      | cons next lines =>
          rw [List.flatMap_cons, ih (List.cons_ne_nil _ _), joinLines_cons_cons]
          simp

theorem textLines_joinLines {lines : List Str} (hne : lines ≠ []) (h : ∀ line ∈ lines, '\n' ∉ line) :
    textLines (joinLines lines) = lines := by
  cases lines with
  | nil => exact absurd rfl hne
  | cons line lines =>
      unfold textLines joinLines
      rw [splitAll_joinWith h]

theorem textLines_lf (text : Str) : textLines (text ++ ['\n']) = textLines text ++ [[]] :=
  pieces_append (p := (· == '\n')) (beq_self_eq_true '\n') text []

theorem stripSuffix_lf (text : Str) : stripSuffix ['\n'] (text ++ ['\n']) = some text := by
  unfold stripSuffix
  rw [List.reverse_append]
  simp [stripPrefix]

/-- Lines joined by line feeds, less one line feed at the end, if any. -/
theorem shows_stripped {lines : List Str} (hne : lines ≠ []) (h : ∀ line ∈ lines, '\n' ∉ line) :
    Shows ((stripSuffix ['\n'] (joinLines lines)).getD (joinLines lines)) lines := by
  have hlines := textLines_joinLines hne h
  cases hstrip : stripSuffix ['\n'] (joinLines lines) with
  | none => exact Or.inl hlines
  | some text =>
      -- what ends in a line feed has an empty last line
      have htext : joinLines lines = text ++ ['\n'] := by
        obtain ⟨back, hback, rfl⟩ := Option.map_eq_some_iff.mp hstrip
        rw [← List.reverse_inj, List.reverse_append, List.reverse_reverse]
        exact stripPrefix_eq_some.mp hback
      rw [htext, textLines_lf] at hlines
      refine Or.inr ⟨?_, ?_⟩
      · rw [← hlines, List.getLast?_concat]
      · rw [← hlines, List.dropLast_concat]
        rfl

/-- **The output has a line for each paragraph**, for all but an empty last one. -/
theorem unflow_shows (deleteSpace : Bool) (text : Str) {runs : List (List QuotedLine)} (h : IsParagraphs (flowedLines text) runs) :
    Shows (unflow text deleteSpace) (runs.map (outputLine deleteSpace)) := by
  have hall := h.all
  have hne : runs.map (outputLine deleteSpace) ≠ [] := by
    intro hnil
    rw [List.map_eq_nil_iff.mp hnil] at hall
    exact flowedLines_ne_nil text hall.symm
  have hlf : ∀ line ∈ runs.map (outputLine deleteSpace), '\n' ∉ line := by
    intro line hline
    obtain ⟨run, hrun, rfl⟩ := List.mem_map.mp hline
    refine lf_not_mem_outputLine fun quoted hquoted => ?_
    have hmem : quoted ∈ flowedLines text := hall ▸ List.mem_flatten.mpr ⟨run, hrun, hquoted⟩
    exact lf_not_mem_flowedLines hmem
  have hclosed := closed_paragraphs deleteSpace (s := { out := [], openDepth := none })
    (hall.symm ▸ h) (fun _ _ _ _ hopen => by cases hopen) fun _ hc => by cases hc
  rw [hall, joinLines_ended hne] at hclosed
  have hshows := shows_stripped hne hlf
  unfold unflow
  dsimp only
  generalize (flowedLines text).foldl (unflowLine deleteSpace) { out := [], openDepth := none } = s at hclosed ⊢
  unfold Unflowing.closed at hclosed
  cases hopen : s.openDepth with
  | some depth =>
      rw [hopen] at hclosed
      have hout : trimTrailingSpaces s.out = joinLines (runs.map (outputLine deleteSpace)) :=
        List.append_cancel_right hclosed
      rw [Option.isSome_some, if_pos rfl, hout]
      exact hshows
  | none =>
      rw [hopen] at hclosed
      have hout : s.out = joinLines (runs.map (outputLine deleteSpace)) ++ ['\n'] := hclosed
      rw [Option.isSome_none, if_neg Bool.false_ne_true, hout, stripSuffix_lf]
      exact Or.inl (textLines_joinLines hne hlf)

end Shown

/-! ## The paragraphs of a text -/

/-- The lines as paragraphs. -/
def paragraphs (lines : List QuotedLine) : List (List QuotedLine) := lines.splitBy QuotedLine.flowsInto

theorem isParagraphs_paragraphs (lines : List QuotedLine) : IsParagraphs lines (paragraphs lines) where
  all := List.flatten_splitBy _ _
  nonempty run hrun := List.ne_nil_of_mem_splitBy hrun
  together run hrun := List.isChain_of_mem_splitBy hrun
  apart := by
    refine (List.isChain_getLast_head_splitBy QuotedLine.flowsInto lines).imp ?_
    rintro run later ⟨hrun, hlater, hflows⟩ line hline next hnext
    rw [List.getLast?_eq_some_getLast hrun] at hline
    rw [List.head?_eq_some_head hlater] at hnext
    cases hline
    cases hnext
    exact hflows

/-- There is one way to divide lines into paragraphs. -/
theorem IsParagraphs.eq {lines : List QuotedLine} {runs : List (List QuotedLine)} (h : IsParagraphs lines runs) :
    runs = paragraphs lines := by
  obtain rfl := h.all
  unfold paragraphs
  induction runs with
  | nil => rfl
  | cons run runs ih =>
      have hrest : IsParagraphs runs.flatten runs :=
        ⟨rfl, fun later hlater => h.nonempty later (List.mem_cons_of_mem _ hlater),
          fun later hlater => h.together later (List.mem_cons_of_mem _ hlater), h.apart.tail⟩
      have hends : ∀ line ∈ run.getLast?, ∀ next ∈ runs.flatten.head?, line.flowsInto next = false := by
        intro line hline next hnext
        cases runs with
        | nil => cases hnext
        | cons later runs =>
            have hne := hrest.nonempty later List.mem_cons_self
            rw [List.flatten_cons, List.head?_append_of_ne_nil _ hne] at hnext
            exact (List.isChain_cons_cons.mp h.apart).1 line hline next hnext
      rw [List.flatten_cons, List.splitBy_append hends, ← ih hrest,
        List.splitBy_of_isChain (h.nonempty run List.mem_cons_self) (h.together run List.mem_cons_self)]
      rfl

/-- **Unflowing keeps quote depths apart and loses no text.** -/
theorem unflow_paragraphs (text : Str) (deleteSpace : Bool) :
    ∃ runs, (∀ other, IsParagraphs (flowedLines text) other ↔ other = runs) ∧
      Shows (unflow text deleteSpace) (runs.map (outputLine deleteSpace)) := by
  have h := isParagraphs_paragraphs (flowedLines text)
  refine ⟨paragraphs (flowedLines text), fun other => ⟨IsParagraphs.eq, ?_⟩, unflow_shows deleteSpace text h⟩
  rintro rfl
  exact h

/-! ## The signature separator -/

section Separator

variable {deleteSpace : Bool} {text : Str}

/-- The output lines for some lines of a body. -/
def shownLines (deleteSpace : Bool) (lines : List QuotedLine) : List Str :=
  (paragraphs lines).map (outputLine deleteSpace)

/-- A separator with its quote prefix. -/
def separatorLine (depth : Nat) : Str := quotePrefix depth signatureSeparator ++ signatureSeparator

/-- Every signature separator has a line of its own, between what is shown of the lines before and after it. -/
def SeparatorsStand (text : Str) (deleteSpace : Bool) : Prop :=
  ∀ front line back, flowedLines text = front ++ line :: back → line.content = signatureSeparator →
    Shows (unflow text deleteSpace)
      (shownLines deleteSpace front ++ separatorLine line.depth :: shownLines deleteSpace back)

theorem separator_fixed {line : QuotedLine} (h : line.content = signatureSeparator) : line.isFlowed = false := by
  simp [QuotedLine.isFlowed, h]

theorem separator_flowsInto {line next : QuotedLine} (h : line.content = signatureSeparator) :
    line.flowsInto next = false := by
  simp [QuotedLine.flowsInto, separator_fixed h]

theorem outputLine_separator {line : QuotedLine} (h : line.content = signatureSeparator) :
    outputLine deleteSpace [line] = separatorLine line.depth := by
  have hends : endsFlowed [line] = false := separator_fixed h
  rw [outputLine, hends, if_neg Bool.false_ne_true, paragraphText, List.flatMap_singleton,
    QuotedLine.shown_fixed (separator_fixed h), h]
  rfl

theorem paragraphs_separator {line : QuotedLine} (h : line.content = signatureSeparator) (back : List QuotedLine) :
    paragraphs (line :: back) = [line] :: paragraphs back :=
  List.splitBy_append (l := [line]) fun first hfirst _ _ => by
    cases hfirst
    exact separator_flowsInto h

/-- A separator behind a flowed line of its depth becomes the end of that line's paragraph. -/
theorem IsParagraphs.extend {lines : List QuotedLine} {runs : List (List QuotedLine)} {run : List QuotedLine}
    {last line : QuotedLine} (h : IsParagraphs lines (runs ++ [run])) (hlast : run.getLast? = some last)
    (hflows : last.flowsInto line = true) : IsParagraphs (lines ++ [line]) (runs ++ [run ++ [line]]) where
  all := by
    rw [← h.all]
    simp
  nonempty := by
    intro other hother
    rcases List.mem_append.mp hother with hother | hother
    · exact h.nonempty other (List.mem_append_left _ hother)
    · rw [List.mem_singleton.mp hother]
      simp
  together := by
    intro other hother
    rcases List.mem_append.mp hother with hother | hother
    · exact h.together other (List.mem_append_left _ hother)
    · have hrun := h.together run (List.mem_append_right _ List.mem_cons_self)
      rw [List.mem_singleton.mp hother, List.isChain_append]
      refine ⟨hrun, List.isChain_singleton _, fun x hx y hy => ?_⟩
      rw [hlast] at hx
      cases hx
      cases hy
      exact hflows
  apart := by
    obtain ⟨hruns, -, hapart⟩ := List.isChain_append.mp h.apart
    have hne := h.nonempty run (List.mem_append_right _ List.mem_cons_self)
    refine List.isChain_append.mpr ⟨hruns, List.isChain_singleton _, fun before hbefore later hlater => ?_⟩
    cases hlater
    rw [List.head?_append_of_ne_nil _ hne]
    exact hapart before hbefore run rfl

theorem outputLine_joined {run : List QuotedLine} {line : QuotedLine} (hne : run ≠ [])
    (h : line.content = signatureSeparator) :
    outputLine deleteSpace (run ++ [line]) = paragraphText deleteSpace run ++ signatureSeparator := by
  have hends : endsFlowed (run ++ [line]) = false := by
    unfold endsFlowed
    rw [List.getLast?_concat]
    exact separator_fixed h
  rw [outputLine, hends, if_neg Bool.false_ne_true]
  cases run with
  | nil => exact absurd rfl hne
  | cons first rest =>
      rw [List.cons_append, paragraphText, paragraphText, ← List.cons_append, List.flatMap_append,
        List.flatMap_singleton, QuotedLine.shown_fixed (separator_fixed h), h, List.append_assoc]

theorem outputLine_length (run : List QuotedLine) :
    (outputLine deleteSpace run).length ≤ (paragraphText deleteSpace run).length := by
  unfold outputLine
  by_cases h : endsFlowed run = true
  · rw [if_pos h]
    exact (List.rdropWhile_prefix _ _).length_le
  · rw [if_neg h]

/-- A line that is not an empty last one is in the output, at its place. -/
theorem Shows.line {out line : Str} {front back : List Str} (h : Shows out (front ++ line :: back))
    (hline : line ≠ [] ∨ back ≠ []) : (textLines out)[front.length]? = some line := by
  rcases h with h | ⟨hlast, h⟩
  · rw [h]
    simp
  · by_cases hback : back = []
    · rw [hback, List.getLast?_concat] at hlast
      rcases hline with hline | hline
      · exact absurd (Option.some.inj hlast) hline
      · exact absurd hback hline
    · rw [h, List.dropLast_append_of_ne_nil (List.cons_ne_nil _ _), List.dropLast_cons_of_ne_nil hback]
      simp

/-- **A separator stands alone** unless it follows a flowed line of the same quote depth. -/
theorem separatorsStand_iff (text : Str) (deleteSpace : Bool) : SeparatorsStand text deleteSpace ↔
    ∀ front last line back, flowedLines text = front ++ last :: line :: back →
      line.content = signatureSeparator → last.isFlowed = true → last.depth ≠ line.depth := by
  have hshows := unflow_shows deleteSpace text (isParagraphs_paragraphs (flowedLines text))
  constructor
  · intro h front last line back hlines hseparator hflowed hdepth
    have hstand := h (front ++ [last]) line back (by rw [hlines]; simp) hseparator
    have hflows : last.flowsInto line = true := by simp [QuotedLine.flowsInto, hflowed, hdepth]
    -- the paragraph that the separator is joined to
    obtain hnil | ⟨runs, run, hruns⟩ := List.eq_nil_or_concat (paragraphs (front ++ [last]))
    · have hall := (isParagraphs_paragraphs (front ++ [last])).all
      rw [hnil] at hall
      exact absurd hall.symm (by simp)
    rw [List.concat_eq_append] at hruns
    have hfront := isParagraphs_paragraphs (front ++ [last])
    rw [hruns] at hfront
    have hne : run ≠ [] := hfront.nonempty run (List.mem_append_right _ List.mem_cons_self)
    have hlast : run.getLast? = some last := by
      have hall := congrArg List.getLast? hfront.all
      rwa [List.flatten_append, List.flatten_singleton, List.getLast?_append_of_ne_nil _ hne,
        List.getLast?_concat] at hall
    have hjoined : paragraphs (flowedLines text) = runs ++ (run ++ [line]) :: paragraphs back := by
      have hends : ∀ x ∈ (front ++ [last] ++ [line]).getLast?, ∀ next ∈ back.head?, x.flowsInto next = false := by
        intro x hx next _
        rw [List.getLast?_concat] at hx
        cases hx
        exact separator_flowsInto hseparator
      have hsplit : flowedLines text = front ++ [last] ++ [line] ++ back := by
        rw [hlines]
        simp
      rw [hsplit, paragraphs, List.splitBy_append hends]
      show paragraphs (front ++ [last] ++ [line]) ++ paragraphs back = _
      rw [← (hfront.extend hlast hflows).eq, List.append_assoc]
      rfl
    rw [hjoined, List.map_append, List.map_cons] at hshows
    have hline := hshows.line (Or.inl (by
      rw [outputLine_joined hne hseparator]
      exact List.append_ne_nil_of_right_ne_nil _ (by decide)))
    have hshown : shownLines deleteSpace (front ++ [last]) =
        runs.map (outputLine deleteSpace) ++ [outputLine deleteSpace run] := by
      rw [shownLines, hruns, List.map_append]
      rfl
    rw [hshown, List.append_assoc, List.singleton_append] at hstand
    have hsame := hstand.line (Or.inr (List.cons_ne_nil _ _))
    rw [hline, outputLine_joined hne hseparator] at hsame
    -- what the separator is joined to is longer for it
    have hlength := congrArg List.length (Option.some.inj hsame)
    have hshort := @outputLine_length deleteSpace run
    rw [List.length_append] at hlength
    have hthree : signatureSeparator.length = 3 := rfl
    omega
  · intro h front line back hlines hseparator
    have hends : ∀ last ∈ front.getLast?, last.flowsInto line = false := by
      intro last hlast
      obtain ⟨before, rfl⟩ := List.getLast?_eq_some_iff.mp hlast
      have hdepth := h before last line back (by rw [hlines]; simp) hseparator
      cases hflowed : last.isFlowed with
      | false => simp [QuotedLine.flowsInto, hflowed]
      | true => simp [QuotedLine.flowsInto, hdepth hflowed]
    have hparagraphs : paragraphs (flowedLines text) = paragraphs front ++ [line] :: paragraphs back := by
      rw [hlines, paragraphs, List.splitBy_append_cons back hends]
      exact congrArg (paragraphs front ++ ·) (paragraphs_separator hseparator back)
    rw [hparagraphs, List.map_append, List.map_cons, outputLine_separator hseparator] at hshows
    exact hshows

end Separator

/-- A flowed line and a separator, of one depth. -/
def flowedSeparator : Str := "bye \n-- \nme".toList

theorem unflow_flowedSeparator : unflow flowedSeparator false = "bye -- \nme".toList := by decide +kernel

/-- **The separator is joined to the flowed line in front of it.** -/
theorem flowedSeparator_joined : ¬ ∀ text deleteSpace, SeparatorsStand text deleteSpace := by
  intro h
  have hlines : flowedLines flowedSeparator =
      [⟨0, "bye ".toList⟩] ++ ⟨0, signatureSeparator⟩ :: [⟨0, "me".toList⟩] := by decide +kernel
  have hstand := h flowedSeparator false _ _ _ hlines rfl
  have hline := hstand.line (Or.inl (by decide))
  rw [unflow_flowedSeparator] at hline
  revert hline
  decide +kernel

end Nntp.Proto
