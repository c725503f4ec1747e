import Nntp.Lib.Substring
import Nntp.Proto.Separator

/-!
# Clearsigned text

`strip_clearsign` of `body.rs`, which takes the armour off an inline signed message. It looks for the markers
anywhere in the text. The signed text comes back unless it mentions the marker of a signature; a text that is not
signed is left alone unless it mentions the marker of a signed message and has an empty line after that.
-/

namespace Nntp.Proto

open Lib

/-! ## The armour -/

/-- The marker that opens an inline clearsigned message. -/
def clearsignBegin : Str := "-----BEGIN PGP SIGNED MESSAGE-----".toList

/-- The marker that ends the signed text and opens the signature. -/
def clearsignSignature : Str := "-----BEGIN PGP SIGNATURE-----".toList

/-- Undoes the escaping of a line that begins with a dash. -/
def unescapeDash (line : Str) : Str := (stripPrefix "- ".toList line).getD line

/-- What follows the armour headers, which run to the first empty line. -/
def afterArmourHeaders (text : Str) : Option Str :=
  (splitAround "\n\n".toList text <|> splitAround "\r\n\r\n".toList text).map (·.2)

/-- The part in front of the signature. A truncated article can have lost the signature. -/
def signedPart (body : Str) : Str := ((splitAround clearsignSignature body).map (·.1)).getD body

/-- Strips the armour from an inline clearsigned message. -/
def stripClearsign (text : Str) : Option Str := do
  let around ← splitAround clearsignBegin text
  let body ← afterArmourHeaders around.2
  return trimEnd (joinLines ((textLines (signedPart body)).map unescapeDash))

/-- The last step of `Article::display_text`: the text without armour, if it has any. -/
def withoutClearsign (text : Str) : Str := (stripClearsign text).getD text

/-- The test of `Article::is_signed` for inline armour. -/
def hasClearsignLine (lines : List Str) : Bool := lines.any fun line => clearsignBegin.isPrefixOf line

/-! ## Signed messages -/

/-- A line of signed text as it is sent. -/
def escapeDash (line : Str) : Str := if line.head? = some '-' then "- ".toList ++ line else line

/-- Some text in its armour: armour headers, the lines of the text, and what follows the marker of the
signature. -/
structure Clearsigned where
  headers : List Str
  lines : List Str
  signature : Str
  headers_lines : ∀ header ∈ headers, header ≠ [] ∧ '\n' ∉ header
  lines_lines : ∀ line ∈ lines, '\n' ∉ line

namespace Clearsigned

/-- The signed text as it is sent. -/
def escaped (lines : List Str) : Str := (lines.map escapeDash).flatMap (· ++ ['\n'])

def armoured (message : Clearsigned) : Str :=
  clearsignBegin ++ '\n' :: (message.headers.flatMap (· ++ ['\n']) ++
    '\n' :: (escaped message.lines ++ clearsignSignature ++ message.signature))

end Clearsigned

/-! ## Taking the armour off -/

theorem signature_ne_nil : clearsignSignature ≠ [] := by decide

theorem lf_not_mem_signature : '\n' ∉ clearsignSignature := by decide

theorem unescapeDash_escapeDash (line : Str) : unescapeDash (escapeDash line) = line := by
  unfold unescapeDash escapeDash
  by_cases h : line.head? = some '-'
  · have hstrip : stripPrefix "- ".toList ("- ".toList ++ line) = some line := stripPrefix_eq_some.mpr rfl
    rw [if_pos h, hstrip, Option.getD_some]
  · rw [if_neg h]
    cases hstrip : stripPrefix "- ".toList line with
    | none => rfl
    | some rest =>
        rw [stripPrefix_eq_some.mp hstrip] at h
        exact absurd rfl h

theorem lf_not_mem_escapeDash {line : Str} (h : '\n' ∉ line) : '\n' ∉ escapeDash line := by
  unfold escapeDash
  by_cases hdash : line.head? = some '-'
  · simp [hdash, h]
  · simp [hdash, h]

/-- The search for the signature passes over the escape. -/
theorem splitAround_dash (line : Str) : splitAround clearsignSignature ("- ".toList ++ line) =
    (splitAround clearsignSignature line).map fun r => ("- ".toList ++ r.1, r.2) := by
  have hdash : ¬ clearsignSignature <+: '-' :: ' ' :: line := by
    intro h
    have hlater := (List.cons_prefix_cons.mp h).2
    exact absurd (List.cons_prefix_cons.mp hlater).1 (by decide)
  have hspace : ¬ clearsignSignature <+: ' ' :: line := fun h =>
    absurd (List.cons_prefix_cons.mp h).1 (by decide)
  show splitAround clearsignSignature ('-' :: ' ' :: line) = _
  rw [splitAround_skip hdash, splitAround_skip hspace, Option.map_map]
  rfl

/-- What stands before the marker in an escaped line is what stands before it in the line, escaped. -/
theorem splitAround_escapeDash {line before after : Str}
    (h : splitAround clearsignSignature line = some (before, after)) :
    ∃ front, splitAround clearsignSignature (escapeDash line) = some (front, after) ∧ unescapeDash front = before := by
  unfold escapeDash
  by_cases hdash : line.head? = some '-'
  · refine ⟨"- ".toList ++ before, ?_, ?_⟩
    · rw [if_pos hdash, splitAround_dash, h]
      rfl
    · have hstrip : stripPrefix "- ".toList ("- ".toList ++ before) = some before := stripPrefix_eq_some.mpr rfl
      rw [unescapeDash, hstrip, Option.getD_some]
  · refine ⟨before, by rw [if_neg hdash, h], ?_⟩
    unfold unescapeDash
    cases hstrip : stripPrefix "- ".toList before with
    | none => rfl
    | some rest =>
        rw [splitAround_eq_some h, stripPrefix_eq_some.mp hstrip] at hdash
        exact absurd rfl hdash

theorem signature_escapeDash {line : Str} : clearsignSignature <:+: escapeDash line ↔ clearsignSignature <:+: line := by
  rw [← not_iff_not, ← splitAround_eq_none, ← splitAround_eq_none]
  unfold escapeDash
  by_cases hdash : line.head? = some '-'
  · rw [if_pos hdash, splitAround_dash, Option.map_eq_none_iff]
  · rw [if_neg hdash]

namespace Clearsigned

variable (message : Clearsigned)

/-- The armour headers end at the first empty line. -/
theorem splitAround_headers {headers : List Str} (h : ∀ header ∈ headers, header ≠ [] ∧ '\n' ∉ header) (body : Str) :
    splitAround "\n\n".toList ('\n' :: (headers.flatMap (· ++ ['\n']) ++ '\n' :: body)) =
      some (headers.flatMap ('\n' :: ·), body) := by
  induction headers with
  | nil => exact splitAround_here "\n\n".toList body
  | cons header headers ih =>
      obtain ⟨hne, hlf⟩ := h header List.mem_cons_self
      obtain ⟨first, rest, rfl⟩ := List.exists_cons_of_ne_nil hne
      have hskip : ¬ "\n\n".toList <+: '\n' :: ((first :: rest) ++ '\n' :: (headers.flatMap (· ++ ['\n']) ++ '\n' :: body)) := by
        intro hprefix
        have hlater := (List.cons_prefix_cons.mp hprefix).2
        exact hlf ((List.cons_prefix_cons.mp hlater).1 ▸ List.mem_cons_self)
      have hheader : ∀ c ∈ first :: rest, ("\n\n".toList).head? ≠ some c := by
        rintro c hc heq
        cases heq
        exact hlf hc
      rw [List.flatMap_cons, List.append_assoc, List.append_assoc, List.singleton_append, splitAround_skip hskip,
        splitAround_skip_all (by decide) hheader, ih fun header hheader => h header (List.mem_cons_of_mem _ hheader)]
      simp

theorem strip_armoured : stripClearsign message.armoured = some (trimEnd (joinLines
    ((textLines (signedPart (escaped message.lines ++ clearsignSignature ++ message.signature))).map unescapeDash))) := by
  unfold stripClearsign armoured
  rw [splitAround_here, Option.bind_eq_bind, Option.bind_some, afterArmourHeaders,
    splitAround_headers message.headers_lines]
  rfl

/-! ### The lines in front of the signature -/

theorem escaped_cons (line : Str) (lines : List Str) :
    escaped (line :: lines) = escapeDash line ++ '\n' :: escaped lines := by
  simp [escaped]

theorem escaped_append (front back : List Str) : escaped (front ++ back) = escaped front ++ escaped back := by
  simp [escaped]

/-- The search passes over the lines that do not mention the marker. -/
theorem splitAround_escaped {lines : List Str} (h : ∀ line ∈ lines, ¬ clearsignSignature <:+: line) (t : Str) :
    splitAround clearsignSignature (escaped lines ++ t) =
      (splitAround clearsignSignature t).map fun r => (escaped lines ++ r.1, r.2) := by
  induction lines with
  | nil => simp [escaped]
  | cons line lines ih =>
      have hline : ¬ clearsignSignature <:+: escapeDash line := fun hline =>
        h line List.mem_cons_self (signature_escapeDash.mp hline)
      have hsame : escaped (line :: lines) ++ t = escapeDash line ++ '\n' :: (escaped lines ++ t) := by
        rw [escaped_cons, List.append_assoc]
        rfl
      rw [hsame, splitAround_separated signature_ne_nil lf_not_mem_signature hline,
        ih fun other hother => h other (List.mem_cons_of_mem _ hother), Option.map_map]
      simp [Function.comp_def, escaped_cons]

theorem textLines_escaped {lines : List Str} (h : ∀ line ∈ lines, '\n' ∉ line) {u : Str} (hu : '\n' ∉ u) :
    (textLines (escaped lines ++ u)).map unescapeDash = lines ++ [unescapeDash u] := by
  induction lines with
  | nil =>
      show (textLines u).map unescapeDash = [unescapeDash u]
      unfold textLines
      rw [splitAll_of_none (beq_of_not_mem hu)]
      rfl
  | cons line lines ih =>
      have hmore := ih fun other hother => h other (List.mem_cons_of_mem _ hother)
      have hescaped := lf_not_mem_escapeDash (h line List.mem_cons_self)
      unfold textLines at hmore ⊢
      rw [escaped_cons, List.append_assoc, List.cons_append, splitAll_append (beq_of_not_mem hescaped) (beq_self_eq_true '\n'),
        List.map_cons, hmore, unescapeDash_escapeDash]
      rfl

theorem joinLines_cons (line : Str) (lines : List Str) :
    joinLines (line :: lines) = line ++ lines.flatMap ('\n' :: ·) := by
  induction lines generalizing line with
  | nil => simp
  | cons next lines ih => rw [joinLines_cons_cons, ih, List.flatMap_cons, List.cons_append]

/-- A line with more to it, and further lines, come after what was there. -/
theorem joinLines_longer (front back : List Str) (before after : Str) :
    joinLines (front ++ (before ++ after) :: back) =
      joinLines (front ++ [before]) ++ (after ++ back.flatMap ('\n' :: ·)) := by
  cases front with
  | nil => rw [List.nil_append, List.nil_append, joinLines_cons, joinLines_singleton, List.append_assoc]
  | cons line front =>
      rw [List.cons_append, List.cons_append, joinLines_cons, joinLines_cons]
      simp

theorem trimEnd_emptyLine (lines : List Str) : trimEnd (joinLines (lines ++ [[]])) = trimEnd (joinLines lines) := by
  cases lines with
  | nil => rfl
  | cons line lines =>
      have hended : joinLines (line :: lines ++ [[]]) = joinLines (line :: lines) ++ ['\n'] := by
        rw [List.cons_append, joinLines_cons, joinLines_cons, List.flatMap_append, ← List.append_assoc]
        rfl
      rw [hended]
      exact List.rdropWhile_concat_pos _ _ _ (by decide)

/-- No line mentions the marker: everything comes back. -/
theorem strip_unmarked (h : ∀ line ∈ message.lines, ¬ clearsignSignature <:+: line) :
    stripClearsign message.armoured = some (trimEnd (joinLines message.lines)) := by
  have hpart : signedPart (escaped message.lines ++ clearsignSignature ++ message.signature) =
      escaped message.lines ++ [] := by
    unfold signedPart
    rw [List.append_assoc, splitAround_escaped h, splitAround_here]
    rfl
  have hempty : unescapeDash [] = [] := rfl
  rw [strip_armoured, hpart, textLines_escaped message.lines_lines List.not_mem_nil, hempty, trimEnd_emptyLine]

/-- The first line that mentions the marker is cut off there, and everything after it is gone. -/
theorem strip_marked {front back : List Str} {line before after : Str}
    (hlines : message.lines = front ++ line :: back) (hfront : ∀ other ∈ front, ¬ clearsignSignature <:+: other)
    (hline : splitAround clearsignSignature line = some (before, after)) :
    stripClearsign message.armoured = some (trimEnd (joinLines (front ++ [before]))) := by
  obtain ⟨cut, hcut, hbefore⟩ := splitAround_escapeDash hline
  have hsent : escaped message.lines ++ clearsignSignature ++ message.signature =
      escaped front ++ (escapeDash line ++ '\n' :: (escaped back ++ clearsignSignature ++ message.signature)) := by
    rw [hlines, escaped_append, escaped_cons]
    simp
  have hpart : signedPart (escaped message.lines ++ clearsignSignature ++ message.signature) =
      escaped front ++ cut := by
    unfold signedPart
    rw [hsent, splitAround_escaped hfront, splitAround_append hcut]
    rfl
  have hlf : '\n' ∉ cut := by
    have hescaped := lf_not_mem_escapeDash (message.lines_lines line (by rw [hlines]; simp))
    rw [splitAround_eq_some hcut] at hescaped
    exact fun hmem => hescaped (by simp [hmem])
  have hwhole : ∀ other ∈ front, '\n' ∉ other := fun other hother =>
    message.lines_lines other (by rw [hlines]; simp [hother])
  rw [strip_armoured, hpart, textLines_escaped hwhole hlf, hbefore]

/-- The marker is not trimmed off. -/
theorem length_trimEnd_marked (s t : Str) :
    s.length + clearsignSignature.length ≤ (trimEnd (s ++ (clearsignSignature ++ t))).length := by
  have hsolid : ∀ c ∈ (s ++ clearsignSignature).getLast?, isWhitespace c = false := by
    intro c hc
    rw [List.getLast?_append_of_ne_nil _ signature_ne_nil] at hc
    obtain rfl := Option.mem_some_iff.mp (show c ∈ some '-' from hc)
    decide
  rw [← List.append_assoc, trimEnd, rdropWhile_behind hsolid, List.length_append, List.length_append]
  omega

/-- **The signed text comes back** if and only if it does not mention the marker of a signature. -/
theorem strip_armoured_iff : stripClearsign message.armoured = some (trimEnd (joinLines message.lines)) ↔
    ∀ line ∈ message.lines, ¬ clearsignSignature <:+: line := by
  refine ⟨fun h => ?_, strip_unmarked message⟩
  by_contra hmarked
  have hfound : (message.lines.find? fun line => decide (clearsignSignature <:+: line)).isSome := by
    rw [List.find?_isSome]
    simpa using hmarked
  obtain ⟨line, hfind⟩ := Option.isSome_iff_exists.mp hfound
  obtain ⟨hline, front, back, hlines, hfront⟩ := List.find?_eq_some_iff_append.mp hfind
  -- the first line that mentions it
  cases hsplit : splitAround clearsignSignature line with
  | none => exact splitAround_eq_none.mp hsplit (of_decide_eq_true hline)
  | some around =>
      obtain ⟨before, after⟩ := around
      have hcut := strip_marked message hlines (fun other hother => by simpa using hfront other hother) hsplit
      have hlength := length_trimEnd_marked (joinLines (front ++ [before])) (after ++ back.flatMap ('\n' :: ·))
      have hwhole : joinLines message.lines =
          joinLines (front ++ [before]) ++ (clearsignSignature ++ (after ++ back.flatMap ('\n' :: ·))) := by
        rw [hlines, splitAround_eq_some hsplit, List.append_assoc, joinLines_longer, List.append_assoc]
      rw [← hwhole, ← Option.some.inj (hcut.symm.trans h)] at hlength
      have hshort : (trimEnd (joinLines (front ++ [before]))).length ≤ (joinLines (front ++ [before])).length :=
        (List.rdropWhile_prefix _ _).length_le
      have hmarker : 0 < clearsignSignature.length := by decide
      omega

end Clearsigned

/-- A signed text that quotes a signature. -/
def quotedSignature : Clearsigned where
  headers := ["Hash: SHA256".toList]
  lines := ["yes".toList, "-----BEGIN PGP SIGNATURE-----".toList, "no".toList]
  signature := "\n\nAAAA\n-----END PGP SIGNATURE-----\n".toList
  headers_lines := forall_of_all (by decide)
  lines_lines := forall_of_all (by decide)

/-- **What stands after a quoted marker is lost.** -/
theorem quotedSignature_cut : ¬ ∀ message : Clearsigned,
    stripClearsign message.armoured = some (trimEnd (joinLines message.lines)) := by
  intro h
  exact absurd (h quotedSignature) (by decide +kernel)

/-! ## Text that is not signed -/

section Unsigned

variable {text : Str}

/-- A text is left alone: nothing is stripped, what is displayed is the text, and the two tests for a signed text
agree. -/
structure LeftAlone (text : Str) : Prop where
  stripped : stripClearsign text = none
  displayed : withoutClearsign text = text
  agree : (stripClearsign text).isSome = hasClearsignLine (textLines text)

/-- The text mentions the marker of a signed message, and has an empty line after that. -/
def MentionsArmour (text : Str) : Prop :=
  ∃ before after, text = before ++ clearsignBegin ++ after ∧
    ("\n\n".toList <:+: after ∨ "\r\n\r\n".toList <:+: after)

theorem afterArmourHeaders_eq_none : afterArmourHeaders text = none ↔
    ¬ ("\n\n".toList <:+: text ∨ "\r\n\r\n".toList <:+: text) := by
  rw [not_or, ← splitAround_eq_none, ← splitAround_eq_none, afterArmourHeaders, Option.map_eq_none_iff]
  cases splitAround "\n\n".toList text <;> simp

theorem stripClearsign_eq_none : stripClearsign text = none ↔ ¬ MentionsArmour text := by
  unfold stripClearsign
  cases hfound : splitAround clearsignBegin text with
  | none =>
      refine iff_of_true rfl ?_
      rintro ⟨before, after, rfl, _⟩
      exact splitAround_eq_none.mp hfound ⟨before, after, rfl⟩
  | some around =>
      obtain ⟨front, rest⟩ := around
      have hstrip : (some (front, rest) >>= fun around => afterArmourHeaders around.2 >>= fun body =>
          some (trimEnd (joinLines ((textLines (signedPart body)).map unescapeDash)))) = none ↔
          afterArmourHeaders rest = none := by
        cases hbody : afterArmourHeaders rest <;> simp [hbody]
      refine hstrip.trans (afterArmourHeaders_eq_none.trans (not_congr ⟨fun h => ?_, ?_⟩))
      · exact ⟨front, rest, splitAround_eq_some hfound, h⟩
      · rintro ⟨before, after, rfl, h⟩
        -- what follows a later marker follows the first one
        have hlater := (splitAround_first hfound).isInfix
        exact h.imp (fun h => h.trans hlater) fun h => h.trans hlater

/-- **A text without armour is left alone** if and only if it does not mention armour. -/
theorem leftAlone_iff (h : hasClearsignLine (textLines text) = false) : LeftAlone text ↔ ¬ MentionsArmour text := by
  rw [← stripClearsign_eq_none]
  refine ⟨LeftAlone.stripped, fun hnone => ⟨hnone, ?_, ?_⟩⟩
  · rw [withoutClearsign, hnone, Option.getD_none]
  · rw [hnone, h]
    rfl

end Unsigned

theorem article_leftAlone : LeftAlone "just\n\nan article".toList := by
  apply (leftAlone_iff (by decide +kernel)).mpr
  rintro ⟨before, after, h, _⟩
  have hmarker : 'B' ∈ before ++ clearsignBegin ++ after := List.mem_append_left _ (List.mem_append_right _ (by decide))
  rw [← h] at hmarker
  exact absurd hmarker (by decide)

/-- A reply that quotes a signed article. -/
def quotedArmour : Str := "he wrote\n> -----BEGIN PGP SIGNED MESSAGE-----\n> Hash: SHA256\n\nreally?".toList

/-- **What stands before a quoted marker is lost**, and the quote. -/
theorem quotedArmour_stripped : ¬ ∀ text, hasClearsignLine (textLines text) = false → LeftAlone text := by
  intro h
  have hstripped := (h quotedArmour (by decide +kernel)).displayed
  have hshown : withoutClearsign quotedArmour = "really?".toList := by decide +kernel
  rw [hshown] at hstripped
  exact absurd hstripped (by decide)

end Nntp.Proto
