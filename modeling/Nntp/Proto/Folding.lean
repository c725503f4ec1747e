import Mathlib.Data.List.Forall2
import Nntp.Proto.Headers

/-!
# Folding of header fields

A long value is folded by breaking its line in front of a blank. The break is all that goes away again:
the blank begins the next line and stays. `Folds` says in which ways a value may be cut into lines, and
`WrittenAs` on which lines a field may stand; `parse_lines` undoes each of them.
-/

namespace Nntp.Proto

/-- Whether there is something other than blanks. -/
def HasSolid (text : Bytes) : Prop := ∃ b ∈ text, isBlank b = false

/-- There is no blank at either end. -/
structure Unpadded (value : Bytes) : Prop where
  first : ∀ b ∈ value.head?, isBlank b = false
  last : ∀ b ∈ value.getLast?, isBlank b = false

/-- **A value cut into lines**: every break is in front of a blank, and not everything behind it is blank. -/
inductive Folds : Bytes → List Bytes → Prop
  | whole (value : Bytes) : Folds value [value]
  | cut {before after : Bytes} {blank : UInt8} {lines : List Bytes} (hbefore : before ≠ [])
      (hblank : isBlank blank = true) (hafter : HasSolid after) (h : Folds (blank :: after) lines) :
      Folds (before ++ blank :: after) (before :: lines)

/-- The lines a field may stand on: its name, a colon, blanks, and its value in a folding of it. -/
inductive WrittenAs (field : HeaderName × Bytes) : List Bytes → Prop
  | field {blanks first : Bytes} {folds : List Bytes} (hblanks : ∀ b ∈ blanks, isBlank b = true)
      (h : Folds field.2 (first :: folds)) :
      WrittenAs field ((asBytes field.1.asStr ++ 0x3A :: (blanks ++ first)) :: folds)

/-- Iterates over the fields in the order they arrived. -/
def Headers.iter (headers : Headers) : List (HeaderName × Bytes) := headers.entries

theorem isBlank_iff {b : UInt8} : isBlank b = true ↔ b = 0x20 ∨ b = 0x09 := by
  simp [isBlank]

namespace Folds

variable {value : Bytes} {lines : List Bytes}

/-- Nothing but the breaks has been put in. -/
theorem flatten (h : Folds value lines) : lines.flatten = value := by
  induction h with
  | whole value => simp
  | cut _ _ _ _ ih => rw [List.flatten_cons, ih]

/-- Every line but the first begins with a blank. -/
theorem folded {first : Bytes} {folds : List Bytes} (h : Folds value (first :: folds)) :
    ∀ line ∈ folds, line.head? = some 0x20 ∨ line.head? = some 0x09 := by
  -- a line that is cut off begins where the value does
  have hhead : ∀ {value : Bytes} {lines : List Bytes}, Folds value lines → ∀ {b : UInt8} {rest : Bytes},
      value = b :: rest → isBlank b = true → ∀ line ∈ lines, line.head? = some 0x20 ∨ line.head? = some 0x09 := by
    intro value lines h
    induction h with
    | whole value =>
        intro b rest hvalue hb line hline
        rw [List.mem_singleton.mp hline, hvalue]
        simpa [isBlank_iff] using hb
    | @cut before after blank lines hbefore hblank _ _ ih =>
        intro b rest hvalue hb line hline
        rcases List.mem_cons.mp hline with rfl | hline
        · obtain ⟨c, cs, rfl⟩ := List.exists_cons_of_ne_nil hbefore
          cases hvalue
          simpa [isBlank_iff] using hb
        · exact ih rfl hblank line hline
  cases h with
  | whole => exact List.forall_mem_nil _
  | cut _ hblank _ h => exact hhead h rfl hblank

/-- The first line of a value that does not begin with a blank does not either. -/
theorem dropWhile_first {first : Bytes} {folds : List Bytes} (h : Folds value (first :: folds))
    (hvalue : Unpadded value) : first.dropWhile isBlank = first := by
  have hflat := h.flatten
  cases first with
  | nil => rfl
  | cons b rest =>
      have hb : isBlank b = false := hvalue.first b (by simp [← hflat])
      simp [hb]

end Folds

theorem Unpadded.rdropWhile {value : Bytes} (h : Unpadded value) : value.rdropWhile isBlank = value := by
  rw [List.rdropWhile_eq_self_iff]
  intro hne
  have := h.last (value.getLast hne) (List.getLast?_eq_getLast_of_ne_nil hne)
  simp [this]

/-- A field as it may stand in a header block is one of those that are read back. -/
theorem WrittenAs.field_of {field : HeaderName × Bytes} {lines : List Bytes} (h : WrittenAs field lines)
    (hvalue : Unpadded field.2) : ∃ written : HeaderField, written.asLines = lines ∧
      (written.name, written.value) = field := by
  obtain ⟨hblanks, hfolds⟩ := h
  next blanks first folds =>
  refine ⟨⟨field.1, blanks ++ first, folds, hfolds.folded⟩, rfl, ?_⟩
  have hjoined : first ++ folds.flatten = field.2 := hfolds.flatten
  unfold HeaderField.value
  rw [List.dropWhile_append_of_pos hblanks, hfolds.dropWhile_first hvalue, hjoined, hvalue.rdropWhile]

/-- **Folding is undone exactly**: however the values are folded, the fields are read in order, each with its
name and its value, and no line is left over. -/
theorem parseLines_folded {fields : List (HeaderName × Bytes)} (hvalues : ∀ field ∈ fields, Unpadded field.2)
    {written : List (List Bytes)} (hwritten : List.Forall₂ WrittenAs fields written) :
    (Headers.parseLines written.flatten).iter = fields ∧
      (Headers.parseLines written.flatten).malformed = [] := by
  have hfields : ∃ headerFields : List HeaderField, headerFields.map HeaderField.asLines = written ∧
      headerFields.map (fun field => (field.name, field.value)) = fields := by
    induction hwritten with
    | nil => exact ⟨[], rfl, rfl⟩
    | cons hfirst _ ih =>
        obtain ⟨first, hlines, hfield⟩ := hfirst.field_of (hvalues _ List.mem_cons_self)
        obtain ⟨rest, hrest, hothers⟩ := ih fun field hmem => hvalues field (List.mem_cons_of_mem _ hmem)
        exact ⟨first :: rest, by rw [List.map_cons, hlines, hrest], by rw [List.map_cons, hfield, hothers]⟩
  obtain ⟨headerFields, rfl, rfl⟩ := hfields
  rw [← List.flatMap_def, parseLines_written]
  exact ⟨rfl, rfl⟩

/-! ### A field that comes twice -/

def subjectName : HeaderName where
  asStr := "Subject".toList
  wellFormed := by decide

/-- `a`, two blanks and `b`, with a break in front of each of the blanks. -/
theorem folds_twice : Folds [0x61, 0x20, 0x20, 0x62] [[0x61], [0x20], [0x20, 0x62]] := by
  have hinner : Folds [0x20, 0x20, 0x62] [[0x20], [0x20, 0x62]] :=
    @Folds.cut [0x20] [0x62] 0x20 _ (by simp) rfl ⟨0x62, by simp, rfl⟩ (.whole _)
  exact @Folds.cut [0x61] [0x20, 0x62] 0x20 _ (by simp) rfl ⟨0x62, by simp, rfl⟩ hinner

theorem parseLines_folded_twice :
    (Headers.parseLines [asBytes "Subject: a".toList, [0x20], [0x20, 0x62], asBytes "Subject:".toList]).iter =
      [(subjectName, [0x61, 0x20, 0x20, 0x62]), (subjectName, [])] := by
  have hfolded : WrittenAs (subjectName, [0x61, 0x20, 0x20, 0x62])
      [asBytes "Subject: a".toList, [0x20], [0x20, 0x62]] :=
    @WrittenAs.field (subjectName, [0x61, 0x20, 0x20, 0x62]) [0x20] _ _ (by simp [isBlank]) folds_twice
  have hempty : WrittenAs (subjectName, []) [asBytes "Subject:".toList] :=
    @WrittenAs.field (subjectName, []) [] _ _ (by simp) (.whole [])
  have hvalues : ∀ field ∈ [(subjectName, [0x61, 0x20, 0x20, 0x62]), (subjectName, [])], Unpadded field.2 := by
    intro field hfield
    simp only [List.mem_cons, List.not_mem_nil, or_false] at hfield
    rcases hfield with rfl | rfl <;> constructor <;> simp [isBlank]
  exact (parseLines_folded hvalues (.cons hfolded (.cons hempty .nil))).1

end Nntp.Proto
