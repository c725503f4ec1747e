import Nntp.Proto.Body

/-!
# Multipart trees as they are written

A tree of MIME parts, the lines it is written on, and that reading the lines gives the tree. Boundaries of
nested containers may be prefixes of each other: lines are compared whole, so what it takes is that no line
inside a part is a delimiter of a container around it.
-/

namespace Nntp.Proto

/-! ## Boundaries that are declared -/

/-- The characters of an RFC 2046 boundary, without the blank. -/
def isBoundaryChar (c : Char) : Bool :=
  c.isAlphanum || "()+_,-./:=?".toList.contains c || c.toNat == 0x27

/-- The name a parameter is written under, if it has one. -/
def paramName (piece : Str) : Option Str :=
  (splitOnce (· == '=') piece).map fun p => toAsciiLowercase (collapseWhitespace p.1)

/-- A `Content-Type` value that declares a multipart with this boundary, in quotes. The other parameters are
whatever they are, only none in front of it is called `boundary` too. -/
inductive Declares (boundary : Str) : Str → Prop where
  | mk (type_ subtype : Str) (before : List Str) (name raw : Str) (after : List Str)
      (hpieces : ∀ piece ∈ type_ :: subtype :: name :: raw :: before ++ after, ';' ∉ piece)
      (hslash : '/' ∉ type_)
      (htype : toAsciiLowercase (collapseWhitespace type_) = "multipart".toList)
      (hbefore : ∀ piece ∈ before, paramName piece ≠ some "boundary".toList)
      (hequals : '=' ∉ name)
      (hname : toAsciiLowercase (collapseWhitespace name) = "boundary".toList)
      (hraw : collapseWhitespace raw = '"' :: boundary ++ ['"']) :
      Declares boundary
        (type_ ++ '/' :: subtype ++
          (before ++ (name ++ '=' :: raw) :: after).flatMap fun piece => ';' :: piece)

theorem toNat_toAsciiLower (c : Char) : (toAsciiLower c).toNat =
    if 0x41 ≤ c.toNat ∧ c.toNat ≤ 0x5A then c.toNat + 0x20 else c.toNat := by
  unfold toAsciiLower
  split
  · have hvalid : (c.toNat + 0x20).isValidChar := Or.inl (by omega)
    unfold Char.ofNat
    rw [dif_pos hvalid]
    rfl
  · rfl

theorem isWhitespace_toAsciiLower (c : Char) : isWhitespace (toAsciiLower c) = isWhitespace c := by
  have hlower := toNat_toAsciiLower c
  unfold isWhitespace
  dsimp only
  rw [hlower]
  split
  · next hupper =>
      rw [Bool.eq_iff_iff]
      simp only [Bool.or_eq_true, Bool.and_eq_true, decide_eq_true_eq, beq_iff_eq]
      omega
  · rfl

theorem trim_toAsciiLowercase (s : Str) : trim (toAsciiLowercase s) = toAsciiLowercase (trim s) := by
  have hcomp : (isWhitespace ∘ toAsciiLower) = isWhitespace := funext isWhitespace_toAsciiLower
  unfold trim trimStart trimEnd toAsciiLowercase List.rdropWhile
  rw [List.dropWhile_map, hcomp, ← List.map_reverse, List.dropWhile_map, hcomp, List.map_reverse]

theorem slash_not_mem_toAsciiLowercase {s : Str} (h : '/' ∉ s) : '/' ∉ toAsciiLowercase s := by
  intro hmem
  obtain ⟨c, hc, heq⟩ := List.mem_map.mp hmem
  have hlower := toNat_toAsciiLower c
  rw [heq, show '/'.toNat = 0x2F from rfl] at hlower
  split at hlower
  · omega
  · have hslash : '/' = c := Char.toNat_inj.mp hlower
    exact h (hslash ▸ hc)

/-- What is written between separators is read between them, up to white space. -/
theorem splitAll_loose {params : List Str} {text media : Str} (hmedia : ';' ∉ media)
    (hparams : ∀ param ∈ params, ';' ∉ param)
    (h : Loose text (media ++ params.flatMap fun param => ';' :: param)) :
    ∃ first pieces, splitAll (· == ';') text = (first, pieces) ∧ Loose first media ∧
      List.Forall₂ Loose pieces params := by
  induction params generalizing text media with
  | nil =>
      rw [List.flatMap_nil, List.append_nil] at h
      refine ⟨text, [], splitAll_of_none ?_, h, .nil⟩
      intro c hc
      exact beq_eq_false_iff_ne.mpr fun heq => h.not_mem (c := ';') rfl hmedia (heq ▸ hc)
  | cons param params ih =>
      rw [List.flatMap_cons, List.cons_append] at h
      obtain ⟨left, right, rfl, hleft, hright⟩ := h.divide rfl
      obtain ⟨first, pieces, hsplit, hfirst, hpieces⟩ := ih (hparams param List.mem_cons_self)
        (fun p hp => hparams p (List.mem_cons_of_mem _ hp)) hright
      refine ⟨left, first :: pieces, ?_, hleft, .cons hfirst hpieces⟩
      have hnone : ∀ c ∈ left, (c == ';') = false := beq_of_not_mem (hleft.not_mem rfl hmedia)
      rw [splitAll_append hnone rfl, hsplit]

theorem not_mem_of_splitOnce {c : Char} {s : Str} (h : splitOnce (· == c) s = none) : c ∉ s := by
  induction s with
  | nil => exact List.not_mem_nil
  | cons d rest ih =>
      unfold splitOnce at h
      split at h
      · cases h
      · next hd =>
          intro hmem
          rcases List.mem_cons.mp hmem with rfl | hmem
          · exact hd (beq_self_eq_true c)
          · exact ih (Option.map_eq_none_iff.mp h) hmem

section Params

variable {piece param boundary : Str}

/-- What is written behind a name and `=` is a parameter of that name. -/
theorem parseParams_cons {pieces : List Str} {left right : Str} (hequals : '=' ∉ left) :
    parseParams ((left ++ '=' :: right) :: pieces) =
      (toAsciiLowercase (trim left), trimMatches '"' (trim right)) :: parseParams pieces := by
  unfold parseParams
  rw [List.filterMap_cons, splitOnce_append (beq_of_not_mem hequals) rfl]
  rfl

/-- Parameters of another name are passed over. -/
theorem find?_parseParams_before {pieces params more : List Str}
    (hpieces : List.Forall₂ Loose pieces params)
    (hnames : ∀ param ∈ params, paramName param ≠ some "boundary".toList) :
    (parseParams (pieces ++ more)).find? (fun p => p.1 = "boundary".toList) =
      (parseParams more).find? fun p => p.1 = "boundary".toList := by
  induction hpieces with
  | nil => rfl
  | cons hloose _ ih =>
      next piece param pieces params _ =>
      have ih := ih fun p hp => hnames p (List.mem_cons_of_mem _ hp)
      have hname := hnames param List.mem_cons_self
      rw [List.cons_append]
      cases hsplit : splitOnce (· == '=') param with
      | none =>
          have hnot : '=' ∉ param := not_mem_of_splitOnce hsplit
          have hnone : splitOnce (· == '=') piece = none := by
            refine splitOnce_of_none fun c hc => beq_eq_false_iff_ne.mpr fun heq => ?_
            exact hloose.not_mem (c := '=') rfl hnot (heq ▸ hc)
          unfold parseParams at ih ⊢
          rw [List.filterMap_cons, hnone]
          exact ih
      | some parts =>
          obtain ⟨sep, hsep, rfl, hnot⟩ := splitOnce_eq_some hsplit
          obtain rfl : sep = '=' := by simpa using hsep
          obtain ⟨left, right, rfl, hleft, -⟩ := hloose.divide rfl
          have hequals : '=' ∉ left := hleft.not_mem rfl fun hmem => by simpa using hnot _ hmem
          rw [parseParams_cons hequals, List.find?_cons_of_neg]
          · exact ih
          · rw [hleft.trim_eq]
            intro heq
            apply hname
            unfold paramName
            rw [hsplit]
            exact congrArg some (of_decide_eq_true heq)

/-- Quotes around a value that has none are taken off. -/
theorem trimMatches_quoted {value : Str} (h : '"' ∉ value) : trimMatches '"' ('"' :: value ++ ['"']) = value := by
  have hquote : ∀ c ∈ value, (c == '"') = false := beq_of_not_mem h
  have hfront : ('"' :: value ++ ['"']).dropWhile (· == '"') = if value = [] then [] else value ++ ['"'] := by
    cases value with
    | nil => rfl
    | cons c cs => simp [hquote c List.mem_cons_self]
  unfold trimMatches
  rw [hfront]
  split
  · next hnil =>
      rw [hnil]
      rfl
  · rw [List.rdropWhile_concat_pos _ _ _ rfl]
    apply List.rdropWhile_eq_self_iff.mpr
    intro hne
    rw [hquote _ (List.getLast_mem hne)]
    exact Bool.false_ne_true

/-- **A boundary that is declared** is the one that is found. -/
theorem Declares.parse {text : Str} (h : Declares boundary text)
    (hchars : ∀ c ∈ boundary, isBoundaryChar c = true) :
    (ContentType.parse (collapseWhitespace text)).isMultipart = true ∧
      (ContentType.parse (collapseWhitespace text)).boundary = some boundary := by
  obtain ⟨type_, subtype, before, name, raw, after, hpieces, hslash, htype, hbefore, hequals, hname, hraw⟩ := h
  have hmedia : ';' ∉ type_ ++ '/' :: subtype := by
    have := hpieces type_ (by simp)
    have := hpieces subtype (by simp)
    simp [*]
  have hparams : ∀ param ∈ before ++ (name ++ '=' :: raw) :: after, ';' ∉ param := by
    have hn := hpieces name (by simp)
    have hr := hpieces raw (by simp)
    intro param hparam
    rcases List.mem_append.mp hparam with hparam | hparam
    · exact hpieces param (by simp [hparam])
    · rcases List.mem_cons.mp hparam with rfl | hparam
      · simp [hn, hr]
      · exact hpieces param (by simp [hparam])
  obtain ⟨first, pieces, hsplit, hfirst, hall⟩ := splitAll_loose hmedia hparams (Loose.collapsed _)
  have htyped : ∃ rest, splitOnce (· == '/') (toAsciiLowercase (trim first)) = some rest ∧
      trim rest.1 = "multipart".toList := by
    rw [hfirst.trim_eq]
    obtain ⟨left, right, heq, hleft, -⟩ := (Loose.collapsed (type_ ++ '/' :: subtype)).divide rfl
    have hnot : '/' ∉ toAsciiLowercase left := slash_not_mem_toAsciiLowercase (hleft.not_mem rfl hslash)
    have hmap : toAsciiLowercase (left ++ '/' :: right) =
        toAsciiLowercase left ++ '/' :: toAsciiLowercase right := by
      unfold toAsciiLowercase
      rw [List.map_append]
      rfl
    refine ⟨(toAsciiLowercase left, toAsciiLowercase right), ?_, ?_⟩
    · rw [heq, hmap, splitOnce_append _ rfl]
      exact fun c hc => beq_eq_false_iff_ne.mpr fun heq => hnot (heq ▸ hc)
    · rw [trim_toAsciiLowercase, hleft.trim_eq]
      exact htype
  obtain ⟨⟨media, rest⟩, honce, hmultipart⟩ := htyped
  have hparse : ContentType.parse (collapseWhitespace
      (type_ ++ '/' :: subtype ++ (before ++ (name ++ '=' :: raw) :: after).flatMap fun piece => ';' :: piece)) =
      { type_ := trim media, subtype := trim rest, params := parseParams pieces } := by
    unfold ContentType.parse
    dsimp only
    rw [hsplit]
    dsimp only
    rw [honce]
  rw [hparse]
  refine ⟨decide_eq_true hmultipart, ?_⟩
  obtain ⟨front, back, rfl, hfront, hback⟩ : ∃ front back, pieces = front ++ back ∧
      List.Forall₂ Loose front before ∧ List.Forall₂ Loose back ((name ++ '=' :: raw) :: after) :=
    ⟨pieces.take before.length, pieces.drop before.length, (List.take_append_drop _ _).symm,
      List.forall₂_take_append _ _ _ hall, List.forall₂_drop_append _ _ _ hall⟩
  unfold ContentType.boundary ContentType.param
  dsimp only
  rw [find?_parseParams_before hfront hbefore]
  cases hback with
  | cons hpiece _ =>
      obtain ⟨left, right, rfl, hleft, hright⟩ := hpiece.divide rfl
      rw [parseParams_cons (hleft.not_mem rfl hequals), List.find?_cons_of_pos]
      · rw [Option.map_some, hright.trim_eq, hraw, trimMatches_quoted fun hquote => absurd (hchars _ hquote) (by decide)]
      · rw [hleft.trim_eq, hname]
        rfl

end Params

/-! ## Trees and the lines they are written on -/

/-- The line a part begins behind. -/
def delimiterOf (boundary : Str) : Bytes := asBytes ("--".toList ++ boundary)

/-- The line the last part ends in front of. -/
def closeOf (boundary : Str) : Bytes := asBytes ("--".toList ++ boundary ++ "--".toList)

/-- A line that is one of the two, up to the blanks at its end. -/
def Delimits (boundary : Str) (line : Bytes) : Prop :=
  trimTrailingSpace line = closeOf boundary ∨ trimTrailingSpace line = delimiterOf boundary

instance (boundary : Str) (line : Bytes) : Decidable (Delimits boundary line) :=
  inferInstanceAs (Decidable (_ ∨ _))

mutual

/-- A part as it is written. -/
inductive MimePart where
  | leaf (head : List HeaderField) (body : List Bytes)
  /-- `closing` are the blanks behind the close delimiter -/
  | container (head : List HeaderField) (boundary : Str) (preamble : List Bytes) (parts : MimeParts)
      (closing : Bytes) (epilogue : List Bytes)

/-- The parts of a container, one at least, each with the blanks behind its delimiter. -/
inductive MimeParts where
  | last (blanks : Bytes) (part : MimePart)
  | more (blanks : Bytes) (part : MimePart) (rest : MimeParts)

end

def MimePart.head : MimePart → List HeaderField
  | .leaf head _ => head
  | .container head _ _ _ _ _ => head

/-- A header block, the empty line, and what is behind it. -/
def writtenLines (head : List HeaderField) (content : List Bytes) : List Bytes :=
  head.flatMap HeaderField.asLines ++ [] :: content

mutual

/-- What is behind the header block of a part. -/
def MimePart.content : MimePart → List Bytes
  | .leaf _ body => body
  | .container _ boundary preamble parts closing epilogue =>
      preamble ++ parts.asLines boundary ++ (closeOf boundary ++ closing) :: epilogue

def MimeParts.asLines (boundary : Str) : MimeParts → List Bytes
  | .last blanks part => (delimiterOf boundary ++ blanks) :: writtenLines part.head part.content
  | .more blanks part rest =>
      (delimiterOf boundary ++ blanks) :: writtenLines part.head part.content ++ rest.asLines boundary

end

def MimePart.asLines (part : MimePart) : List Bytes := writtenLines part.head part.content

/-- How many parts there are side by side. -/
def MimeParts.count : MimeParts → Nat
  | .last _ _ => 1
  | .more _ _ rest => rest.count + 1

/-- The lines of each part. -/
def MimeParts.chunks : MimeParts → List (List Bytes)
  | .last _ part => [part.asLines]
  | .more _ part rest => part.asLines :: rest.chunks

mutual

/-- How many containers are nested. -/
def MimePart.depth : MimePart → Nat
  | .leaf _ _ => 0
  | .container _ _ _ parts _ _ => parts.depth + 1

def MimeParts.depth : MimeParts → Nat
  | .last _ part => part.depth
  | .more _ part rest => max part.depth rest.depth

end

/-- The fields of a header block. -/
def fieldsOf (head : List HeaderField) : Headers where
  entries := head.map fun field => (field.name, field.value)

mutual

/-- The tree a reader is to get. -/
def MimePart.tree (codecs : Codecs) : MimePart → BodyPart
  | .leaf head body => .withoutSplitting codecs (fieldsOf head) body
  | .container head boundary preamble parts closing epilogue =>
      { BodyPart.withoutSplitting codecs (fieldsOf head)
          (MimePart.container head boundary preamble parts closing epilogue).content with
        parts := parts.trees codecs }

def MimeParts.trees (codecs : Codecs) : MimeParts → List BodyPart
  | .last _ part => [part.tree codecs]
  | .more _ part rest => part.tree codecs :: rest.trees codecs

end

mutual

/-- A tree that can be read back: containers declare their boundaries, leaves are something else, and no line
inside a part is a delimiter of the container around it. -/
def MimePart.WellFormed (codecs : Codecs) : MimePart → Prop
  | .leaf head body =>
      (BodyPart.withoutSplitting codecs (fieldsOf head) body).contentType.isMultipart = false
  | .container head boundary preamble parts closing _ =>
      boundary ≠ [] ∧ (∀ c ∈ boundary, isBoundaryChar c = true) ∧
      (∃ value, (fieldsOf head).get "Content-Type" = some value ∧ IsPlain value ∧
        Declares boundary (codecs.decode8bitLossy value)) ∧
      (∀ line ∈ preamble, ¬ Delimits boundary line) ∧ (∀ b ∈ closing, isBlank b = true) ∧
      parts.count ≤ maxParts ∧ parts.WellFormed codecs boundary

def MimeParts.WellFormed (codecs : Codecs) (boundary : Str) : MimeParts → Prop
  | .last blanks part =>
      (∀ b ∈ blanks, isBlank b = true) ∧
      (∀ line ∈ writtenLines part.head part.content, ¬ Delimits boundary line) ∧ part.WellFormed codecs
  | .more blanks part rest =>
      (∀ b ∈ blanks, isBlank b = true) ∧
      (∀ line ∈ writtenLines part.head part.content, ¬ Delimits boundary line) ∧ part.WellFormed codecs ∧
      rest.WellFormed codecs boundary

end

/-! ## Splitting at the boundary -/

section Split

variable {boundary : Str}

theorem boundaryChar_ascii {c : Char} (h : isBoundaryChar c = true) : 0x20 < c.toNat ∧ c.toNat < 0x80 := by
  simp only [isBoundaryChar, Bool.or_eq_true, beq_iff_eq] at h
  rcases h with (h | h) | h
  · exact isAlphanum_ascii h
  · have hall : ∀ c ∈ "()+_,-./:=?".toList, 0x20 < c.toNat ∧ c.toNat < 0x80 := forall_of_all (by decide)
    exact hall c (by simpa using h)
  · omega

theorem not_isBlank_ofNat {c : Char} (h : 0x20 < c.toNat ∧ c.toNat < 0x80) :
    isBlank (UInt8.ofNat c.toNat) = false := by
  have hval : (UInt8.ofNat c.toNat).toNat = c.toNat := by
    rw [UInt8.toNat_ofNat']
    omega
  unfold isBlank
  simp only [Bool.or_eq_false_iff, beq_eq_false_iff_ne]
  constructor
  · intro heq
    rw [heq, show (0x20 : UInt8).toNat = 0x20 from rfl] at hval
    omega
  · intro heq
    rw [heq, show (0x09 : UInt8).toNat = 9 from rfl] at hval
    omega

/-- The blanks at the end of a line go, and nothing else if there is no blank in front of them. -/
theorem trimTrailingSpace_blanks {text : Str} {c : Char}
    (htext : ∀ d ∈ text ++ [c], 0x20 < d.toNat ∧ d.toNat < 0x80) {blanks : Bytes}
    (hblanks : ∀ b ∈ blanks, isBlank b = true) :
    trimTrailingSpace (asBytes (text ++ [c]) ++ blanks) = asBytes (text ++ [c]) := by
  have hback : ∀ b ∈ blanks.reverse, isBlank b = true := fun b hb => hblanks b (List.mem_reverse.mp hb)
  rw [asBytes_ascii fun d hd => (htext d hd).2, List.map_append]
  unfold trimTrailingSpace List.rdropWhile
  rw [List.reverse_append, List.dropWhile_append_of_pos hback]
  have hlast := not_isBlank_ofNat (htext c (by simp))
  simp [hlast]

theorem dashes_ascii {text : Str} (h : ∀ c ∈ text, isBoundaryChar c = true) :
    ∀ c ∈ "--".toList ++ text ++ "--".toList, 0x20 < c.toNat ∧ c.toNat < 0x80 := by
  intro c hc
  simp only [List.mem_append] at hc
  rcases hc with (hc | hc) | hc
  · exact (forall_of_all (by decide) : ∀ c ∈ "--".toList, 0x20 < c.toNat ∧ c.toNat < 0x80) c hc
  · exact boundaryChar_ascii (h c hc)
  · exact (forall_of_all (by decide) : ∀ c ∈ "--".toList, 0x20 < c.toNat ∧ c.toNat < 0x80) c hc

variable (hchars : ∀ c ∈ boundary, isBoundaryChar c = true)

include hchars

theorem trim_close {closing : Bytes} (hclosing : ∀ b ∈ closing, isBlank b = true) :
    trimTrailingSpace (closeOf boundary ++ closing) = closeOf boundary := by
  have hall := dashes_ascii hchars
  have hsplit : "--".toList ++ boundary ++ "--".toList = ("--".toList ++ boundary ++ ['-']) ++ ['-'] := by
    simp
  unfold closeOf
  rw [hsplit] at hall ⊢
  exact trimTrailingSpace_blanks hall hclosing

theorem trim_delimiter {blanks : Bytes} (hblanks : ∀ b ∈ blanks, isBlank b = true) :
    trimTrailingSpace (delimiterOf boundary ++ blanks) = delimiterOf boundary := by
  have hall : ∀ c ∈ "--".toList ++ boundary, 0x20 < c.toNat ∧ c.toNat < 0x80 := fun c hc =>
    dashes_ascii hchars c (List.mem_append_left _ hc)
  unfold delimiterOf
  rcases List.eq_nil_or_concat ("--".toList ++ boundary) with hnil | ⟨front, c, hconcat⟩
  · simp at hnil
  · rw [hconcat, List.concat_eq_append] at hall ⊢
    exact trimTrailingSpace_blanks hall hblanks

theorem delimiter_ne_close : delimiterOf boundary ≠ closeOf boundary := by
  have hall := dashes_ascii hchars
  intro heq
  have hlength := congrArg List.length heq
  unfold delimiterOf closeOf at hlength
  rw [asBytes_ascii fun c hc => (hall c hc).2,
    asBytes_ascii fun c hc => (hall c (List.mem_append_left _ hc)).2] at hlength
  simp at hlength

omit hchars

/-- Lines that do not delimit go to the part at hand, or nowhere. -/
theorem splitParts_inside {lines : List Bytes} (h : ∀ line ∈ lines, ¬ Delimits boundary line)
    (chunks : List (List Bytes)) (current : Option (List Bytes)) (rest : List Bytes) :
    splitParts (delimiterOf boundary) (closeOf boundary) chunks current (lines ++ rest) =
      splitParts (delimiterOf boundary) (closeOf boundary) chunks (current.map (· ++ lines)) rest := by
  induction lines generalizing current with
  | nil =>
      have hsame : current.map (· ++ ([] : List Bytes)) = current := by
        cases current <;> simp
      rw [List.nil_append, hsame]
  | cons line lines ih =>
      have hline := h line List.mem_cons_self
      unfold Delimits at hline
      rw [List.cons_append, splitParts]
      dsimp only
      rw [if_neg fun heq => hline (Or.inl heq), if_neg fun heq => hline (Or.inr heq),
        ih fun l hl => h l (List.mem_cons_of_mem _ hl)]
      cases current <;> simp

include hchars in
/-- A delimiter ends the part at hand, and the lines up to the next one are a part. -/
theorem splitParts_part {blanks : Bytes} {part : List Bytes} (hblanks : ∀ b ∈ blanks, isBlank b = true)
    (hpart : ∀ line ∈ part, ¬ Delimits boundary line) {chunks : List (List Bytes)}
    {current : Option (List Bytes)} (hroom : chunks.length + current.toList.length < maxParts)
    (rest : List Bytes) :
    splitParts (delimiterOf boundary) (closeOf boundary) chunks current
        ((delimiterOf boundary ++ blanks) :: part ++ rest) =
      splitParts (delimiterOf boundary) (closeOf boundary) (chunks ++ current.toList) (some part) rest := by
  rw [List.cons_append, splitParts]
  dsimp only
  rw [trim_delimiter hchars hblanks, if_neg (delimiter_ne_close hchars), if_pos rfl,
    if_neg (by rw [List.length_append]; omega), splitParts_inside hpart]
  rfl

include hchars in
/-- **Each part is one chunk.** -/
theorem splitParts_written (codecs : Codecs) (closing : Bytes) (epilogue : List Bytes)
    (hclosing : ∀ b ∈ closing, isBlank b = true) :
    ∀ (parts : MimeParts) (chunks : List (List Bytes)) (current : Option (List Bytes)),
      parts.WellFormed codecs boundary → chunks.length + current.toList.length + parts.count ≤ maxParts →
      splitParts (delimiterOf boundary) (closeOf boundary) chunks current
          (parts.asLines boundary ++ (closeOf boundary ++ closing) :: epilogue) =
        chunks ++ current.toList ++ parts.chunks
  | .last blanks part, chunks, current, h, hcount => by
      obtain ⟨hblanks, hpart, -⟩ := h
      unfold MimeParts.asLines
      rw [splitParts_part hchars hblanks hpart (by unfold MimeParts.count at hcount; omega), splitParts]
      dsimp only
      rw [trim_close hchars hclosing, if_pos rfl]
      rfl
  | .more blanks part rest, chunks, current, h, hcount => by
      obtain ⟨hblanks, hpart, -, hrest⟩ := h
      unfold MimeParts.count at hcount
      unfold MimeParts.asLines
      rw [List.append_assoc, splitParts_part hchars hblanks hpart (by omega),
        splitParts_written codecs closing epilogue hclosing rest _ _ hrest]
      · show _ = chunks ++ current.toList ++ (writtenLines part.head part.content :: rest.chunks)
        simp
      · rw [List.length_append]
        show _ + 1 + _ ≤ _
        omega

end Split

/-! ## Reading a tree back -/

theorem parseLines_head (head : List HeaderField) :
    Headers.parseLines (head.flatMap HeaderField.asLines) = fieldsOf head :=
  parseLines_written head

theorem head_ne_nil {head : List HeaderField} : ∀ line ∈ head.flatMap HeaderField.asLines, line ≠ [] := by
  intro line hline
  obtain ⟨field, _, hline⟩ := List.mem_flatMap.mp hline
  exact asLines_ne_nil hline

/-- The header block of a part ends at the first empty line. -/
theorem splitPartHeaders_written (head : List HeaderField) (content : List Bytes) :
    splitPartHeaders (writtenLines head content) = (fieldsOf head, content) := by
  have hidx : (writtenLines head content).findIdx? List.isEmpty =
      some (head.flatMap HeaderField.asLines).length := by
    unfold writtenLines
    rw [List.findIdx?_append, List.findIdx?_eq_none_iff.mpr]
    · simp [List.findIdx?_cons]
    · intro line hline
      simpa using head_ne_nil line hline
  have hbehind : (writtenLines head content).drop ((head.flatMap HeaderField.asLines).length + 1) =
      content := by
    have hlines : writtenLines head content = (head.flatMap HeaderField.asLines ++ [[]]) ++ content := by
      rw [writtenLines, List.append_assoc, List.singleton_append]
    have hlength : (head.flatMap HeaderField.asLines).length + 1 =
        (head.flatMap HeaderField.asLines ++ [[]]).length := by
      rw [List.length_append, List.length_singleton]
    rw [hlines, hlength, List.drop_left]
  unfold splitPartHeaders
  rw [hidx]
  dsimp only
  rw [hbehind, writtenLines, List.take_left, parseLines_head]

theorem split_other {codecs : Codecs} {part : BodyPart} (h : part.contentType.isMultipart = false)
    (levels : Nat) : part.split codecs levels = part := by
  cases levels with
  | zero => rfl
  | succ levels =>
      unfold BodyPart.split
      rw [if_neg (Bool.eq_false_iff.mp h)]

/-- A container with a boundary is split into parts, and each of them at the next level. -/
theorem split_multipart {codecs : Codecs} {part : BodyPart} {boundary : Str}
    (hmultipart : part.contentType.isMultipart = true) (hboundary : part.contentType.boundary = some boundary)
    (hne : boundary ≠ []) (levels : Nat) :
    part.split codecs (levels + 1) =
      { part with
        parts := part.parts ++ (splitOnBoundary part.lines boundary).map fun chunk =>
          BodyPart.split codecs levels
            (.withoutSplitting codecs (splitPartHeaders chunk).1 (splitPartHeaders chunk).2) } := by
  rw [BodyPart.split, if_pos hmultipart, hboundary]
  dsimp only
  rw [if_neg (by simpa using hne)]

theorem container_type (codecs : Codecs) {head : List HeaderField} {boundary : Str} (lines : List Bytes)
    (hchars : ∀ c ∈ boundary, isBoundaryChar c = true)
    (hdeclares : ∃ value, (fieldsOf head).get "Content-Type" = some value ∧ IsPlain value ∧
      Declares boundary (codecs.decode8bitLossy value)) :
    (BodyPart.withoutSplitting codecs (fieldsOf head) lines).contentType.isMultipart = true ∧
      (BodyPart.withoutSplitting codecs (fieldsOf head) lines).contentType.boundary = some boundary := by
  obtain ⟨value, hvalue, hplain, hdeclares⟩ := hdeclares
  have htype : (BodyPart.withoutSplitting codecs (fieldsOf head) lines).contentType =
      ContentType.parse (collapseWhitespace (codecs.decode8bitLossy value)) := by
    show (((fieldsOf head).getDecoded codecs "Content-Type").map ContentType.parse).getD _ = _
    unfold Headers.getDecoded
    rw [hvalue, Option.map_some, codecs.decoded_plain hplain]
    rfl
  rw [htype]
  exact hdeclares.parse hchars

mutual

/-- **A part is split into its tree**, if there are levels enough. -/
theorem split_part (codecs : Codecs) : ∀ (part : MimePart) (levels : Nat), part.WellFormed codecs →
    part.depth ≤ levels →
    BodyPart.split codecs levels (.withoutSplitting codecs (fieldsOf part.head) part.content) =
      part.tree codecs
  | .leaf _ _, levels, h, _ => split_other h levels
  | .container head boundary preamble parts closing epilogue, 0, _, hdepth =>
      absurd hdepth (Nat.not_succ_le_zero _)
  | .container head boundary preamble parts closing epilogue, levels + 1, h, hdepth => by
      obtain ⟨hne, hchars, hdeclares, hpreamble, hclosing, hcount, hparts⟩ := h
      obtain ⟨hmultipart, hboundary⟩ := container_type codecs
        (MimePart.container head boundary preamble parts closing epilogue).content hchars hdeclares
      have hchunks : splitOnBoundary (BodyPart.withoutSplitting codecs (fieldsOf head)
          (MimePart.container head boundary preamble parts closing epilogue).content).lines boundary =
          parts.chunks := by
        show splitParts (delimiterOf boundary) (closeOf boundary) [] none
          (preamble ++ parts.asLines boundary ++ (closeOf boundary ++ closing) :: epilogue) = _
        rw [List.append_assoc, splitParts_inside hpreamble]
        exact splitParts_written hchars codecs closing epilogue hclosing parts [] none hparts
          (by simpa using hcount)
      show BodyPart.split codecs (levels + 1) (.withoutSplitting codecs (fieldsOf head) _) = _
      rw [split_multipart hmultipart hboundary hne, hchunks,
        split_parts codecs boundary parts levels hparts (Nat.le_of_succ_le_succ hdepth)]
      rfl

theorem split_parts (codecs : Codecs) (boundary : Str) : ∀ (parts : MimeParts) (levels : Nat),
    parts.WellFormed codecs boundary → parts.depth ≤ levels →
    (parts.chunks.map fun chunk =>
      BodyPart.split codecs levels
        (.withoutSplitting codecs (splitPartHeaders chunk).1 (splitPartHeaders chunk).2)) =
      parts.trees codecs
  | .last blanks part, levels, h, hdepth => by
      show [BodyPart.split codecs levels (.withoutSplitting codecs (splitPartHeaders part.asLines).1
        (splitPartHeaders part.asLines).2)] = [part.tree codecs]
      rw [MimePart.asLines, splitPartHeaders_written, split_part codecs part levels h.2.2 hdepth]
  | .more blanks part rest, levels, h, hdepth => by
      obtain ⟨_, _, hpart, hrest⟩ := h
      obtain ⟨hthis, hothers⟩ := Nat.max_le.mp hdepth
      show BodyPart.split codecs levels (.withoutSplitting codecs (splitPartHeaders part.asLines).1
        (splitPartHeaders part.asLines).2) :: rest.chunks.map _ = part.tree codecs :: rest.trees codecs
      rw [MimePart.asLines, splitPartHeaders_written, split_part codecs part levels hpart hthis,
        split_parts codecs boundary rest levels hrest hothers]

end

/-- Codecs that know no charset. -/
def bareCodecs : Codecs where
  windows1252 := fun bytes => bytes.map asciiChar
  forLabel := fun _ => none
  base64Lenient := fun _ => none
  base64Standard := fun _ => none
  parseDate := fun _ => none

def contentTypeName : HeaderName where
  asStr := "Content-Type".toList
  wellFormed := by decide

/-- `Content-Type: multipart/mixed;`, folded, and the boundary on the next line. -/
def mixedField : HeaderField where
  name := contentTypeName
  first := asBytes " multipart/mixed;".toList
  folds := [asBytes " boundary=\"b\"".toList]
  folded := by decide

def textField : HeaderField where
  name := { asStr := "Content-Description".toList, wellFormed := by decide }
  first := asBytes " text".toList
  folds := []
  folded := HeaderField.folded_nil

/-- A text without a header, and one with. -/
def twoParts : MimePart :=
  .container [mixedField] "b".toList [asBytes "--".toList]
    (.more [0x20] (.leaf [] [asBytes "--b-".toList])
      (.last [] (.leaf [textField] [[]])))
    [0x09] [asBytes "--b".toList]

theorem twoParts_wellFormed : twoParts.WellFormed bareCodecs := by
  have hdeclares : Declares "b".toList "multipart/mixed; boundary=\"b\"".toList :=
    .mk "multipart".toList "mixed".toList [] " boundary".toList "\"b\"".toList []
      (by decide) (by decide) (by decide) (by decide) (by decide) (by decide) (by decide)
  have hvalue : bareCodecs.decode8bitLossy (asBytes "multipart/mixed; boundary=\"b\"".toList) =
      "multipart/mixed; boundary=\"b\"".toList := by
    unfold Codecs.decode8bitLossy
    rw [fromUtf8_asBytes]
    rfl
  refine ⟨by decide, forall_of_all (by decide), ⟨asBytes "multipart/mixed; boundary=\"b\"".toList,
    by decide +kernel, by decide +kernel, ?_⟩, forall_of_all (by decide), forall_of_all (by decide), by decide, ?_⟩
  · rw [hvalue]
    exact hdeclares
  · refine ⟨forall_of_all (by decide), by decide +kernel, ?_, forall_of_all (by decide), by decide +kernel, ?_⟩
    · show (BodyPart.withoutSplitting bareCodecs (fieldsOf []) _).contentType.isMultipart = false
      decide
    · show (BodyPart.withoutSplitting bareCodecs (fieldsOf [textField]) _).contentType.isMultipart = false
      decide +kernel

end Nntp.Proto
