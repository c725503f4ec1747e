import Nntp.Proto.Sending

/-!
# Between the headers and the body

`Draft::parse` looks for the end of the headers twice: line by line for the headers, and in the text as a whole
for the body. The two searches do not look for the same thing: the first stops at a line that is empty or
blank, the second at an empty line that is neither the first nor the last one.
-/

namespace Nntp.Proto

/-! ## Lines of a text -/

/-- The lines of a text. -/
def textLines (text : Str) : List Str := (splitAll (· == '\n') text).1 :: (splitAll (· == '\n') text).2

/-- Lines as one text. -/
def joinLines (lines : List Str) : Str := joinWith ['\n'] lines

@[simp] theorem joinLines_nil : joinLines [] = [] := rfl

@[simp] theorem joinLines_singleton (line : Str) : joinLines [line] = line := rfl

@[simp] theorem joinLines_cons_cons (line next : Str) (lines : List Str) :
    joinLines (line :: next :: lines) = line ++ '\n' :: joinLines (next :: lines) := by
  show line ++ ['\n'] ++ joinLines (next :: lines) = _
  rw [List.append_assoc, List.singleton_append]

theorem joinLines_textLines (text : Str) : joinLines (textLines text) = text := by
  unfold textLines
  induction text with
  | nil => rfl
  | cons c text ih =>
      unfold splitAll
      split
      · next hc =>
          rw [joinLines_cons_cons, ih, eq_of_beq hc]
          rfl
      · cases hlater : (splitAll (· == '\n') text).2 with
        | nil =>
            rw [hlater] at ih
            simp_all
        | cons next lines =>
            rw [hlater] at ih
            simp_all

theorem lf_not_mem_textLines {text line : Str} (h : line ∈ textLines text) : '\n' ∉ line := by
  intro hmem
  have := (splitAll_subset h _ hmem).2
  simp at this

/-- Fewer lines make a shorter text. -/
theorem joinLines_length_lt {front lines : List Str} (hfront : front ≠ []) (hlines : lines ≠ []) :
    (joinLines lines).length < (joinLines (front ++ lines)).length := by
  induction front with
  | nil => exact absurd rfl hfront
  | cons line front ih =>
      obtain ⟨next, rest, rfl⟩ := List.exists_cons_of_ne_nil hlines
      cases front with
      | nil =>
          show _ < (joinLines (line :: next :: rest)).length
          rw [joinLines_cons_cons, List.length_append, List.length_cons]
          omega
      | cons second front =>
          have hlater := ih (List.cons_ne_nil _ _)
          show _ < (joinLines (line :: second :: (front ++ next :: rest))).length
          rw [joinLines_cons_cons, List.length_append, List.length_cons]
          have hsame : second :: (front ++ next :: rest) = second :: front ++ next :: rest := rfl
          rw [hsame]
          omega

/-- A text is kept only if none of its lines is dropped, or there is nothing in them. -/
theorem joinLines_tail_iff (keep : Str → Bool) (lines : List Str) :
    joinLines (lines.dropWhile keep).tail = joinLines lines ↔ joinLines lines = [] := by
  constructor
  · intro h
    by_cases hlines : (lines.dropWhile keep).tail = []
    · rw [← h, hlines]
      rfl
    · -- at least one line is gone
      have hsplit : lines = (lines.takeWhile keep ++ (lines.dropWhile keep).head?.toList) ++
          (lines.dropWhile keep).tail := by
        conv_lhs => rw [← List.takeWhile_append_dropWhile (p := keep) (l := lines)]
        cases lines.dropWhile keep <;> simp
      have hfront : lines.takeWhile keep ++ (lines.dropWhile keep).head?.toList ≠ [] := by
        cases hdrop : lines.dropWhile keep with
        | nil => simp [hdrop] at hlines
        | cons line rest => simp
      have hshort := joinLines_length_lt hfront hlines
      rw [← hsplit, h] at hshort
      exact absurd hshort (lt_irrefl _)
  · intro h
    rw [h]
    match lines with
    | [] => rfl
    | [line] =>
        cases hkeep : keep line <;> simp [List.dropWhile, hkeep]
    | line :: next :: rest => simp at h

namespace Draft

/-! ## The two searches -/

/-- A line that belongs to the headers. -/
def isHeaderLine (line : Str) : Bool := !(trim line).isEmpty

/-- The lines of an editor's text, whatever their endings. -/
def editorLines (text : Str) : List Str := textLines (normaliseNewlines text)

/-- The lines in front of the first one that is empty or blank. -/
def headerSection (text : Str) : List Str := (editorLines text).takeWhile isHeaderLine

/-- The first line that is empty or blank, and what follows it. -/
def behindHeaders (text : Str) : List Str := (editorLines text).dropWhile isHeaderLine

/-- One unfolded header line as a field. -/
def readField (line : Str) : Str × Str :=
  match splitOnce (· == ':') line with
  | some (name, value) => (trim name, trim value)
  | none => ([], line)

theorem editorLines_eq (text : Str) : editorLines text = headerSection text ++ behindHeaders text :=
  (List.takeWhile_append_dropWhile).symm

/-- The loop over the lines stops at the first one that is empty or blank. -/
theorem unfoldLines_takeWhile (lines unfolded : List Str) :
    unfoldLines unfolded lines = unfoldLines unfolded (lines.takeWhile isHeaderLine) := by
  induction lines generalizing unfolded with
  | nil => rfl
  | cons line lines ih =>
      cases hblank : (trim line).isEmpty with
      | true => simp [unfoldLines, isHeaderLine, hblank]
      | false =>
          rw [List.takeWhile_cons_of_pos (by simp [isHeaderLine, hblank]), unfoldLines, unfoldLines, hblank]
          simp only [Bool.false_eq_true, if_false]
          split
          · exact ih _
          · exact ih _

theorem afterBlankLine_append {s : Str} (h : '\n' ∉ s) (t : Str) :
    afterBlankLine (s ++ '\n' :: t) = afterBlankLine ('\n' :: t) := by
  induction s with
  | nil => rfl
  | cons c cs ih =>
      have hc : c ≠ '\n' := by
        rintro rfl
        exact h List.mem_cons_self
      rw [List.cons_append, afterBlankLine, ih fun hcs => h (List.mem_cons_of_mem _ hcs)]
      intro rest heq
      exact absurd heq hc

theorem afterBlankLine_of_noLf {s : Str} (h : '\n' ∉ s) : afterBlankLine s = [] := by
  induction s with
  | nil => rfl
  | cons c cs ih =>
      rw [afterBlankLine, ih fun hcs => h (List.mem_cons_of_mem _ hcs)]
      rintro rest rfl
      exact fun _ => h List.mem_cons_self

/-- **The search in the text as a whole, as one over the lines**: for an empty line behind the first one. -/
theorem afterBlankLine_joinLines {line : Str} {lines : List Str} (h : ∀ l ∈ line :: lines, '\n' ∉ l) :
    afterBlankLine (joinLines (line :: lines)) =
      joinLines (lines.dropWhile fun l => !l.isEmpty).tail := by
  induction lines generalizing line with
  | nil => exact afterBlankLine_of_noLf (h line List.mem_cons_self)
  | cons next lines ih =>
      have hlater := ih fun l hl => h l (List.mem_cons_of_mem _ hl)
      rw [joinLines_cons_cons, afterBlankLine_append (h line List.mem_cons_self)]
      cases next with
      | nil =>
          cases lines with
          | nil => rfl
          | cons second rest => rfl
      | cons c cs =>
          have hc : c ≠ '\n' := by
            rintro rfl
            exact h (_ :: cs) (by simp) List.mem_cons_self
          rw [List.dropWhile_cons_of_pos (by simp), ← hlater]
          cases lines with
          | nil =>
              show afterBlankLine ('\n' :: c :: cs) = afterBlankLine (c :: cs)
              rw [afterBlankLine]
              rintro rest - heq
              exact hc (List.cons.inj heq).1
          | cons second rest =>
              rw [joinLines_cons_cons, List.cons_append, afterBlankLine]
              rintro rest - heq
              exact hc (List.cons.inj heq).1

/-! ## What a draft keeps of its text -/

/-- The two searches find the same line, or there is nothing behind the line that ends the headers. -/
def SeparatorFits (text : Str) : Prop :=
  ∀ separator rest, behindHeaders text = separator :: rest →
    (separator = [] ∧ headerSection text ≠ []) ∨ joinLines rest = []

instance (text : Str) : Decidable (SeparatorFits text) :=
  match h : behindHeaders text with
  | [] => isTrue fun separator rest heq => by rw [h] at heq; cases heq
  | separator :: rest =>
      decidable_of_iff ((separator = [] ∧ headerSection text ≠ []) ∨ joinLines rest = [])
        ⟨fun hfits s r heq => by rw [h] at heq; cases heq; exact hfits, fun hfits => hfits _ _ h⟩

/-- Nothing of the text is lost: the headers are the lines in front of the first empty or blank one, each of
them to be found in an unfolded line, and the body is what follows that one. -/
structure KeepsText (text : Str) : Prop where
  headers : (parse text).headers = (unfoldLines [] (headerSection text)).map readField
  section_kept : ∀ line ∈ headerSection text, ∃ unfolded ∈ unfoldLines [] (headerSection text),
    trim line <:+: unfolded
  body : (parse text).body = joinLines (behindHeaders text).tail

theorem parse_headers (text : Str) :
    (parse text).headers = (unfoldLines [] (headerSection text)).map readField := by
  show (unfoldLines [] (editorLines text)).map readField = _
  rw [unfoldLines_takeWhile]
  rfl

/-- Unfolding drops no line. -/
theorem infix_unfoldLines {line : Str} {lines unfolded : List Str}
    (hall : ∀ l ∈ lines, isHeaderLine l = true)
    (h : line ∈ lines ∨ ∃ l ∈ unfolded, trim line <:+: l) :
    ∃ l ∈ unfoldLines unfolded lines, trim line <:+: l := by
  induction lines generalizing unfolded with
  | nil =>
      rcases h with h | h
      · cases h
      · exact h
  | cons next lines ih =>
      obtain ⟨hnext, hlater⟩ := List.forall_mem_cons.mp hall
      have hblank : (trim next).isEmpty = false := by simpa [isHeaderLine] using hnext
      rw [unfoldLines, hblank]
      simp only [Bool.false_eq_true, if_false]
      split
      · next hcontinues =>
          apply ih hlater
          obtain ⟨front, last, rfl⟩ := (List.eq_nil_or_concat unfolded).resolve_left hcontinues.2
          rcases h with h | ⟨l, hl, hinfix⟩
          · rcases List.mem_cons.mp h with rfl | h
            · refine Or.inr ⟨_, List.mem_append_right _ (List.mem_singleton_self _), ?_⟩
              simpa using (List.suffix_append (last ++ [' ']) (trim line)).isInfix
            · exact Or.inl h
          · right
            simp only [List.concat_eq_append, List.dropLast_concat, List.getLast?_append_cons,
              List.getLast?_singleton, Option.getD_some] at hl ⊢
            rcases List.mem_append.mp hl with hl | hl
            · exact ⟨l, List.mem_append_left _ hl, hinfix⟩
            · rw [List.mem_singleton.mp hl] at hinfix
              exact ⟨_, List.mem_append_right _ (List.mem_singleton_self _),
                hinfix.trans (List.prefix_append _ _).isInfix⟩
      · apply ih hlater
        rcases h with h | ⟨l, hl, hinfix⟩
        · rcases List.mem_cons.mp h with rfl | h
          · refine Or.inr ⟨line, List.mem_append_right _ (List.mem_singleton_self _), ?_⟩
            exact (List.rdropWhile_prefix _ _).isInfix.trans (List.dropWhile_suffix _).isInfix
          · exact Or.inl h
        · exact Or.inr ⟨l, List.mem_append_left _ hl, hinfix⟩

/-- **When a draft keeps its text.** The headers always are the lines in front of the first empty or blank
one; the body is what follows that line if and only if the line is empty and not the first one, or nothing
follows it. -/
theorem parse_keepsText_iff (text : Str) : KeepsText text ↔ SeparatorFits text := by
  have hnoLf : ∀ l ∈ editorLines text, '\n' ∉ l := fun l hl => lf_not_mem_textLines hl
  have hbody : ∀ {line lines}, editorLines text = line :: lines →
      (parse text).body = joinLines (lines.dropWhile fun l => !l.isEmpty).tail := by
    intro line lines hlines
    have hjoin : joinLines (line :: lines) = normaliseNewlines text := by
      rw [← hlines]
      exact joinLines_textLines _
    rw [hlines] at hnoLf
    rw [← afterBlankLine_joinLines hnoLf, hjoin]
    rfl
  have hheader : ∀ l ∈ headerSection text, l.isEmpty = false := by
    intro l hl
    have hl := List.mem_takeWhile_imp hl
    cases l with
    | nil => cases hl
    | cons c cs => rfl
  have hsame : (parse text).body = joinLines (behindHeaders text).tail ↔ SeparatorFits text := by
    have hlines := editorLines_eq text
    cases hbehind : behindHeaders text with
    | nil =>
        rw [hbehind, List.append_nil] at hlines
        have hfits : SeparatorFits text := fun separator rest heq => by
          rw [hbehind] at heq
          cases heq
        refine iff_of_true ?_ hfits
        cases hsection : headerSection text with
        | nil =>
            rw [hsection] at hlines
            cases hlines
        | cons line lines =>
            rw [hsection] at hlines hheader
            have hall : ∀ l ∈ lines, (!l.isEmpty) = true := by
              intro l hl
              simp [hheader l (List.mem_cons_of_mem _ hl)]
            rw [hbody hlines, List.dropWhile_eq_nil_iff.mpr hall]
    | cons separator rest =>
        have hfits : SeparatorFits text ↔
            (separator = [] ∧ headerSection text ≠ []) ∨ joinLines rest = [] := by
          refine ⟨fun h => h _ _ hbehind, fun h s r heq => ?_⟩
          rw [hbehind] at heq
          cases heq
          exact h
        rw [hfits]
        rw [hbehind] at hlines
        cases hsection : headerSection text with
        | nil =>
            rw [hsection] at hlines
            rw [hbody hlines]
            simpa using joinLines_tail_iff (fun l => !l.isEmpty) rest
        | cons line lines =>
            rw [hsection, List.cons_append] at hlines
            rw [hsection] at hheader
            rw [hbody hlines, List.dropWhile_append_of_pos fun l hl => by
              simp [hheader l (List.mem_cons_of_mem _ hl)]]
            cases separator with
            | nil => simp
            | cons c cs => simpa using joinLines_tail_iff (fun l => !l.isEmpty) rest
  constructor
  · exact fun h => hsame.mp h.body
  · intro h
    refine ⟨parse_headers text, fun line hline => ?_, hsame.mpr h⟩
    exact infix_unfoldLines (fun l hl => List.mem_takeWhile_imp hl) (Or.inl hline)

/-- **A paragraph that is lost**: behind a line with a blank in it, what follows belongs neither to the
headers nor, up to the next empty line, to the body, and the draft has no problem. -/
theorem paragraph_lost :
    ¬ KeepsText "From: a@b\nNewsgroups: m.t\nSubject: s\n \nFirst.\n\nSecond.\n".toList ∧
      (parse "From: a@b\nNewsgroups: m.t\nSubject: s\n \nFirst.\n\nSecond.\n".toList).body =
        "Second.\n".toList ∧
      (parse "From: a@b\nNewsgroups: m.t\nSubject: s\n \nFirst.\n\nSecond.\n".toList).problems = [] := by
  refine ⟨fun h => ?_, by decide +kernel, by decide +kernel⟩
  have hbody := h.body
  revert hbody
  decide +kernel

end Draft
end Nntp.Proto
