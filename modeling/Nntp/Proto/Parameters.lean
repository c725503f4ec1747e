import Nntp.Proto.MimeTree
import Nntp.Proto.Sending

/-!
# Parameters of a header

`ContentType::parse` and `Disposition::parse` on parameters that are written with quotes, and
`decode_extended_parameter` of `body.rs`. The parsers split at every semicolon, also at one inside quotes; the
scanner of an extended parameter takes two characters after a percent sign, also if they are no digits.
-/

namespace Nntp.Proto

/-! ## Quoted parameters -/

/-- A parameter's value, by lowercased name. -/
def Disposition.param (disposition : Disposition) (name : String) : Option Str :=
  (disposition.params.find? fun p => p.1 = name.toList).map (·.2)

/-- A character a token may have. -/
def isTokenChar (c : Char) : Bool := isAsciiGraphic c && !"()<>@,;:\\\"/[]?=".toList.contains c

/-- A media type, or a disposition, and parameters to be written behind it with quotes. -/
structure QuotedParams where
  media : Str
  params : List (Str × Str)
  media_plain : ';' ∉ media
  names : ∀ p ∈ params, p.1 ≠ [] ∧ ∀ c ∈ p.1, isTokenChar c = true
  values : ∀ p ∈ params, '"' ∉ p.2 ∧ '\\' ∉ p.2

/-- `name="value"`. -/
def quotedParam (p : Str × Str) : Str := p.1 ++ '=' :: ('"' :: p.2 ++ ['"'])

def QuotedParams.rendered (quoted : QuotedParams) : Str :=
  quoted.media ++ quoted.params.flatMap fun p => ';' :: ' ' :: quotedParam p

/-- `get` gives these parameters, by lowercased name, and no others. -/
structure Returns (get : String → Option Str) (params : List (Str × Str)) : Prop where
  given : ∀ p ∈ params, get (String.ofList (toAsciiLowercase p.1)) = some p.2
  other : ∀ name : String, (∀ p ∈ params, toAsciiLowercase p.1 ≠ name.toList) → get name = none

/-- Both parsers give the parameters back. -/
structure QuotedParams.Kept (quoted : QuotedParams) : Prop where
  contentType : Returns (ContentType.parse quoted.rendered).param quoted.params
  disposition : Returns (Disposition.parse quoted.rendered).param quoted.params

section Quoted

variable {quoted : QuotedParams}

/-- The first parameter of a name. -/
def findParam (params : List (Str × Str)) (name : String) : Option Str :=
  (params.find? fun p => p.1 = name.toList).map (·.2)

theorem contentType_params (value : Str) :
    (ContentType.parse value).params = parseParams (splitAll (· == ';') value).2 := by
  unfold ContentType.parse
  cases h : splitOnce (· == '/') (toAsciiLowercase (trim (splitAll (· == ';') value).1)) with
  | none => simp [h]
  | some around => simp [h]

theorem contentType_param (value : Str) :
    (ContentType.parse value).param = findParam (parseParams (splitAll (· == ';') value).2) := by
  funext name
  rw [ContentType.param, contentType_params, findParam]

theorem disposition_param (value : Str) :
    (Disposition.parse value).param = findParam (parseParams (splitAll (· == ';') value).2) := rfl

/-- A value that is found has no semicolon: the pieces have none. -/
theorem semicolon_not_mem_found {text value : Str} {name : String}
    (h : findParam (parseParams (splitAll (· == ';') text).2) name = some value) : ';' ∉ value := by
  obtain ⟨p, hp, rfl⟩ := Option.map_eq_some_iff.mp h
  obtain ⟨piece, hpiece, hparam⟩ := List.mem_filterMap.mp (List.mem_of_find?_eq_some hp)
  obtain ⟨around, hsplit, rfl⟩ := Option.map_eq_some_iff.mp hparam
  obtain ⟨sep, -, hparts, -⟩ := splitOnce_eq_some (a := around.1) (b := around.2) hsplit
  intro hmem
  have hraw : ';' ∈ around.2 := by
    unfold trimMatches at hmem
    exact mem_of_mem_trim ((List.dropWhile_sublist _).subset ((List.rdropWhile_prefix _ _).subset hmem))
  have hsemicolon := (splitAll_subset (List.mem_cons_of_mem _ hpiece) ';' (by rw [hparts]; simp [hraw])).2
  exact absurd hsemicolon (by decide)

theorem isTokenChar_plain {c : Char} (h : isTokenChar c = true) : isWhitespace c = false ∧ c ≠ '=' ∧ c ≠ ';' := by
  obtain ⟨hgraphic, hspecial⟩ := Bool.and_eq_true_iff.mp h
  refine ⟨?_, ?_, ?_⟩
  · simp only [isAsciiGraphic, Bool.and_eq_true, decide_eq_true_eq] at hgraphic
    simp only [isWhitespace, Bool.or_eq_false_iff, Bool.and_eq_false_iff, decide_eq_false_iff_not, beq_eq_false_iff_ne]
    omega
  · rintro rfl
    revert hspecial
    decide
  · rintro rfl
    revert hspecial
    decide

/-- What is parsed of a quoted parameter. -/
theorem parseParams_quoted {params : List (Str × Str)}
    (hnames : ∀ p ∈ params, p.1 ≠ [] ∧ ∀ c ∈ p.1, isTokenChar c = true)
    (hvalues : ∀ p ∈ params, '"' ∉ p.2 ∧ '\\' ∉ p.2) :
    parseParams (params.map fun p => ' ' :: quotedParam p) = params.map fun p => (toAsciiLowercase p.1, p.2) := by
  induction params with
  | nil => rfl
  | cons p params ih =>
      have htoken := (hnames p List.mem_cons_self).2
      have hequals : '=' ∉ ' ' :: p.1 := by
        intro hmem
        rcases List.mem_cons.mp hmem with h | hmem
        · exact absurd h (by decide)
        · exact (isTokenChar_plain (htoken _ hmem)).2.1 rfl
      have hname : trim (' ' :: p.1) = p.1 := by
        show trim p.1 = p.1
        exact trim_of_no_whitespace fun c hc => (isTokenChar_plain (htoken c hc)).1
      have hraw : trim ('"' :: p.2 ++ ['"']) = '"' :: p.2 ++ ['"'] := by
        refine trim_of_edges (fun c hc => ?_) fun c hc => ?_
        · cases hc
          decide
        · rw [List.getLast?_concat] at hc
          cases hc
          decide
      have hpiece : ' ' :: quotedParam p = (' ' :: p.1) ++ '=' :: ('"' :: p.2 ++ ['"']) := rfl
      rw [List.map_cons, List.map_cons, hpiece, parseParams_cons hequals, hname, hraw,
        trimMatches_quoted (hvalues p List.mem_cons_self).1,
        ih (fun q hq => hnames q (List.mem_cons_of_mem _ hq)) fun q hq => hvalues q (List.mem_cons_of_mem _ hq)]

theorem splitAll_rendered (quoted : QuotedParams) (h : ∀ p ∈ quoted.params, ';' ∉ p.2) :
    (splitAll (· == ';') quoted.rendered).2 = quoted.params.map fun p => ' ' :: quotedParam p := by
  have hparam : ∀ p ∈ quoted.params, ';' ∉ ' ' :: quotedParam p := by
    intro p hp hmem
    simp only [quotedParam, List.mem_cons, List.mem_append, List.not_mem_nil, or_false] at hmem
    rcases hmem with hmem | hmem | hmem | (hmem | hmem) | hmem
    · exact absurd hmem (by decide)
    · exact (isTokenChar_plain ((quoted.names p hp).2 _ hmem)).2.2 rfl
    · exact absurd hmem (by decide)
    · exact absurd hmem (by decide)
    · exact h p hp hmem
    · exact absurd hmem (by decide)
  have hpieces : pieces (· == ';') quoted.rendered =
      quoted.media :: quoted.params.map fun p => ' ' :: quotedParam p := by
    have hmap : (quoted.params.flatMap fun p => ';' :: ' ' :: quotedParam p) =
        (quoted.params.map fun p => ' ' :: quotedParam p).flatMap (';' :: ·) := (List.flatMap_map _ _ _).symm
    rw [QuotedParams.rendered, hmap, pieces_flatMap (p := (· == ';')) rfl,
      pieces_of_none (beq_of_not_mem quoted.media_plain), List.singleton_append, List.flatMap_map]
    congr 1
    rw [List.map_eq_flatMap]
    exact List.flatMap_congr fun p hp => pieces_of_none (beq_of_not_mem (hparam p hp))
  exact (List.cons_eq_cons.mp hpieces).2

/-- The parameters are found if no two of one name, whatever its case, have different values. -/
theorem returns_findParam {params : List (Str × Str)}
    (h : ∀ p ∈ params, ∀ q ∈ params, toAsciiLowercase p.1 = toAsciiLowercase q.1 → p.2 = q.2) :
    Returns (findParam (params.map fun p => (toAsciiLowercase p.1, p.2))) params where
  given p hp := by
    unfold findParam
    rw [List.find?_map, String.toList_ofList]
    cases hfind : params.find? ((fun q => decide (q.1 = toAsciiLowercase p.1)) ∘ fun q => (toAsciiLowercase q.1, q.2)) with
    | none => exact absurd (List.find?_eq_none.mp hfind p hp) (by simp)
    | some q =>
        have hname : toAsciiLowercase q.1 = toAsciiLowercase p.1 := by simpa using List.find?_some hfind
        exact congrArg some (h q (List.mem_of_find?_eq_some hfind) p hp hname)
  other name hname := by
    unfold findParam
    rw [List.find?_map, Option.map_map, Option.map_eq_none_iff, List.find?_eq_none]
    exact fun q hq => by simpa using hname q hq

/-- **Quoted parameters keep their values** if and only if none of them has a semicolon, and no two of one name
differ. -/
theorem quotedParams_kept_iff (quoted : QuotedParams) : quoted.Kept ↔
    (∀ p ∈ quoted.params, ';' ∉ p.2) ∧
      ∀ p ∈ quoted.params, ∀ q ∈ quoted.params, toAsciiLowercase p.1 = toAsciiLowercase q.1 → p.2 = q.2 := by
  constructor
  · intro h
    refine ⟨fun p hp => ?_, fun p hp q hq hname => ?_⟩
    · have hfound := h.contentType.given p hp
      rw [contentType_param] at hfound
      exact semicolon_not_mem_found hfound
    · have hsame := h.contentType.given p hp
      rw [hname, h.contentType.given q hq] at hsame
      exact (Option.some.inj hsame).symm
  · rintro ⟨hsemicolon, hnames⟩
    have hreturns := returns_findParam hnames
    rw [← parseParams_quoted quoted.names quoted.values, ← splitAll_rendered quoted hsemicolon] at hreturns
    exact ⟨by rwa [contentType_param], by rwa [disposition_param]⟩

end Quoted

/-- A file name with a semicolon in it. -/
def semicolonName : QuotedParams where
  media := "attachment".toList
  params := [("filename".toList, "a;b.txt".toList)]
  media_plain := by decide
  names := by
    intro p hp
    obtain rfl := List.mem_singleton.mp hp
    exact ⟨by decide, forall_of_all (by decide)⟩
  values := forall_of_all (by decide)

/-- **The value is cut off** at the semicolon, and keeps what is left of its quotes. -/
theorem semicolonName_cut : ¬ ∀ quoted : QuotedParams, (quoted.params.map (·.1)).Nodup → quoted.Kept := by
  intro h
  have hgiven := (h semicolonName (by decide)).disposition.given ("filename".toList, "a;b.txt".toList) (by decide)
  revert hgiven
  decide +kernel

/-! ## Extended parameters -/

/-- `to_digit(16)`. -/
def toDigit16 (c : Char) : Option Nat :=
  if 0x30 ≤ c.toNat ∧ c.toNat ≤ 0x39 then some (c.toNat - 0x30)
  else if 0x61 ≤ c.toNat ∧ c.toNat ≤ 0x66 then some (c.toNat - 0x61 + 10)
  else if 0x41 ≤ c.toNat ∧ c.toNat ≤ 0x46 then some (c.toNat - 0x41 + 10)
  else none

/-- The loop of `decode_extended_parameter`. The two characters behind a percent sign are taken whatever they
are. -/
def extendedBytes : Str → Bytes
  | '%' :: high :: low :: rest =>
      match toDigit16 high, toDigit16 low with
      | some high, some low => UInt8.ofNat (high * 16 + low) :: extendedBytes rest
      | _, _ => 0x25 :: extendedBytes rest
  | '%' :: _ => [0x25]
  | c :: rest => String.utf8EncodeChar c ++ extendedBytes rest
  | [] => []

/-- What the octets of an extended parameter are decoded to. -/
def Codecs.decodeOctets (codecs : Codecs) (charset : Str) (bytes : Bytes) : Str :=
  if charset.isEmpty then codecs.decode8bitLossy bytes else codecs.decodeWithCharset bytes charset

/-- Decodes an RFC 2231 extended parameter value. A value without two quotes is all text. -/
def decodeExtendedParameter (codecs : Codecs) (value : Str) : Str :=
  let charset := (splitAll (· == '\'') value).1
  let encoded := do
    let afterCharset ← splitOnce (· == '\'') value
    let afterLanguage ← splitOnce (· == '\'') afterCharset.2
    return afterLanguage.2
  codecs.decodeOctets charset (extendedBytes (encoded.getD value))

/-! ### What is encoded -/

/-- The octet that two hexadecimal digits at the start name, and what follows them. -/
def escapeAt : Str → Option (UInt8 × Str)
  | high :: low :: rest =>
      match toDigit16 high, toDigit16 low with
      | some high, some low => some (UInt8.ofNat (high * 16 + low), rest)
      | _, _ => none
  | _ => none

/-- A text with its escapes replaced by the octets they name, and everything else as it is. -/
def unescaped : Str → Bytes
  | '%' :: high :: low :: rest =>
      match toDigit16 high, toDigit16 low with
      | some high, some low => UInt8.ofNat (high * 16 + low) :: unescaped rest
      | _, _ => 0x25 :: unescaped (high :: low :: rest)
  | c :: rest => String.utf8EncodeChar c ++ unescaped rest
  | [] => []

/-- Every percent sign that does not begin an escape is the last character, or what is lost behind it is made up
for: the escape of a decimal digit follows and only its last character is left. -/
inductive KeepsStray : Str → Prop where
  | done : KeepsStray []
  | plain {c : Char} {rest : Str} : c ≠ '%' → KeepsStray rest → KeepsStray (c :: rest)
  | escape {b : UInt8} {text rest : Str} : escapeAt text = some (b, rest) → KeepsStray rest → KeepsStray ('%' :: text)
  | last : KeepsStray ['%']
  | digit {d : Char} {rest : Str} : isAsciiDigit d = true → KeepsStray rest → KeepsStray ('%' :: '%' :: '3' :: d :: rest)
  | three {d : Char} {rest : Str} : isAsciiDigit d = true → KeepsStray rest →
      KeepsStray ('%' :: '3' :: '%' :: '3' :: d :: rest)

section Scan

variable {b : UInt8} {c : Char} {text rest : Str}

theorem extendedBytes_plain (h : c ≠ '%') (rest : Str) :
    extendedBytes (c :: rest) = String.utf8EncodeChar c ++ extendedBytes rest := by
  rw [extendedBytes] <;> simp [h]

theorem unescaped_plain (h : c ≠ '%') (rest : Str) :
    unescaped (c :: rest) = String.utf8EncodeChar c ++ unescaped rest := by
  rw [unescaped]
  simp [h]

theorem escapeAt_eq_some (h : escapeAt text = some (b, rest)) : ∃ high low m n, text = high :: low :: rest ∧
    toDigit16 high = some m ∧ toDigit16 low = some n ∧ b = UInt8.ofNat (m * 16 + n) := by
  match text with
  | [] => cases h
  | [_] => cases h
  | high :: low :: more =>
      rw [escapeAt] at h
      cases hhigh : toDigit16 high with
      | none =>
          rw [hhigh] at h
          cases h
      | some m =>
          cases hlow : toDigit16 low with
          | none =>
              rw [hhigh, hlow] at h
              cases h
          | some n =>
              rw [hhigh, hlow] at h
              cases h
              exact ⟨high, low, m, n, rfl, hhigh, hlow, rfl⟩

theorem extendedBytes_escape (h : escapeAt text = some (b, rest)) :
    extendedBytes ('%' :: text) = b :: extendedBytes rest := by
  obtain ⟨high, low, m, n, rfl, hhigh, hlow, rfl⟩ := escapeAt_eq_some h
  rw [extendedBytes, hhigh, hlow]

theorem unescaped_escape (h : escapeAt text = some (b, rest)) : unescaped ('%' :: text) = b :: unescaped rest := by
  obtain ⟨high, low, m, n, rfl, hhigh, hlow, rfl⟩ := escapeAt_eq_some h
  rw [unescaped, hhigh, hlow]

/-- The scanner loses two characters behind a percent sign that begins no escape. -/
theorem extendedBytes_stray (h : escapeAt text = none) :
    extendedBytes ('%' :: text) = 0x25 :: extendedBytes (text.drop 2) := by
  match text with
  | [] => rfl
  | [_] => rfl
  | high :: low :: more =>
      rw [escapeAt] at h
      rw [extendedBytes]
      cases hhigh : toDigit16 high with
      | none => rfl
      | some m =>
          cases hlow : toDigit16 low with
          | none => rfl
          | some n =>
              rw [hhigh, hlow] at h
              cases h

theorem unescaped_stray (h : escapeAt text = none) : unescaped ('%' :: text) = 0x25 :: unescaped text := by
  match text with
  | [] => rfl
  | [_] => rfl
  | high :: low :: more =>
      rw [escapeAt] at h
      rw [unescaped]
      cases hhigh : toDigit16 high with
      | none => rfl
      | some m =>
          cases hlow : toDigit16 low with
          | none => rfl
          | some n =>
              rw [hhigh, hlow] at h
              cases h

theorem toDigit16_cases {n : Nat} (h : toDigit16 c = some n) :
    (0x30 ≤ c.toNat ∧ c.toNat ≤ 0x39 ∧ n = c.toNat - 0x30) ∨
      (0x61 ≤ c.toNat ∧ c.toNat ≤ 0x66 ∧ n = c.toNat - 0x61 + 10) ∨
      (0x41 ≤ c.toNat ∧ c.toNat ≤ 0x46 ∧ n = c.toNat - 0x41 + 10) := by
  unfold toDigit16 at h
  split_ifs at h with h1 h2 h3
  · exact Or.inl ⟨h1.1, h1.2, (Option.some.inj h).symm⟩
  · exact Or.inr (Or.inl ⟨h2.1, h2.2, (Option.some.inj h).symm⟩)
  · exact Or.inr (Or.inr ⟨h3.1, h3.2, (Option.some.inj h).symm⟩)

/-- A digit is an octet of its own, and no percent sign. -/
theorem toDigit16_ascii {n : Nat} (h : toDigit16 c = some n) :
    c ≠ '%' ∧ String.utf8EncodeChar c = [UInt8.ofNat c.toNat] := by
  have hcases := toDigit16_cases h
  refine ⟨?_, if_pos (show c.toNat ≤ 0x7F by omega)⟩
  rintro rfl
  have hpercent : '%'.toNat = 0x25 := rfl
  rw [hpercent] at hcases
  omega

theorem ofNat_octet {m n : Nat} (hm : m < 256) (hn : n < 256) (h : UInt8.ofNat m = UInt8.ofNat n) : m = n := by
  have hsame := congrArg UInt8.toNat h
  rwa [UInt8.toNat_ofNat', UInt8.toNat_ofNat', Nat.mod_eq_of_lt hm, Nat.mod_eq_of_lt hn] at hsame

/-- An escape names its own second digit only if that is a decimal one. -/
theorem escape_own_digit {high low : Char} {m n : Nat} (hhigh : toDigit16 high = some m)
    (hlow : toDigit16 low = some n) (h : UInt8.ofNat (m * 16 + n) = UInt8.ofNat low.toNat) :
    high = '3' ∧ isAsciiDigit low = true := by
  have hhigh := toDigit16_cases hhigh
  have hlow := toDigit16_cases hlow
  have hsame := ofNat_octet (by omega) (by omega) h
  have hthree : high.toNat = '3'.toNat := by
    show high.toNat = 0x33
    omega
  refine ⟨Char.toNat_inj.mp hthree, ?_⟩
  simp only [isAsciiDigit, Bool.and_eq_true, decide_eq_true_eq]
  omega

theorem length_utf8EncodeChar_pos (c : Char) : 0 < (String.utf8EncodeChar c).length := by
  rw [String.length_utf8EncodeChar]
  exact c.utf8Size_pos

/-- One character more takes away one octet at most. -/
theorem length_unescaped_cons (c : Char) (rest : Str) :
    (unescaped rest).length ≤ (unescaped (c :: rest)).length + 1 := by
  by_cases hc : c = '%'
  · subst hc
    cases hescape : escapeAt rest with
    | none =>
        rw [unescaped_stray hescape, List.length_cons]
        omega
    | some found =>
        obtain ⟨b, more⟩ := found
        rw [unescaped_escape hescape, List.length_cons]
        obtain ⟨high, low, m, n, rfl, hhigh, hlow, rfl⟩ := escapeAt_eq_some hescape
        have hone := toDigit16_ascii hhigh
        have htwo := toDigit16_ascii hlow
        rw [unescaped_plain hone.1, unescaped_plain htwo.1, hone.2, htwo.2]
        simp
  · rw [unescaped_plain hc, List.length_append]
    omega

theorem length_unescaped_pos (c : Char) (rest : Str) : 0 < (unescaped (c :: rest)).length := by
  by_cases hc : c = '%'
  · subst hc
    cases hescape : escapeAt rest with
    | none => simp [unescaped_stray hescape]
    | some found => simp [unescaped_escape hescape]
  · have hpos := length_utf8EncodeChar_pos c
    rw [unescaped_plain hc, List.length_append]
    omega

/-- Two characters more take away none. -/
theorem length_unescaped_drop (text : Str) : (unescaped (text.drop 2)).length ≤ (unescaped text).length := by
  match text with
  | [] => exact Nat.le_refl _
  | [_] => exact Nat.zero_le _
  | first :: second :: rest =>
      have hrest := length_unescaped_cons second rest
      show (unescaped rest).length ≤ _
      by_cases hfirst : first = '%'
      · subst hfirst
        cases hescape : escapeAt (second :: rest) with
        | none =>
            rw [unescaped_stray hescape, List.length_cons]
            omega
        | some found =>
            obtain ⟨b, more⟩ := found
            obtain ⟨high, low, m, n, hsplit, hhigh, hlow, rfl⟩ := escapeAt_eq_some hescape
            obtain ⟨rfl, rfl⟩ := List.cons_eq_cons.mp hsplit
            obtain ⟨hplain, hone⟩ := toDigit16_ascii hlow
            rw [unescaped_escape hescape, unescaped_plain hplain, hone]
            simp
      · have hpos := length_utf8EncodeChar_pos first
        rw [unescaped_plain hfirst, List.length_append]
        omega

/-- The scanner loses octets, and makes up none. -/
theorem length_extendedBytes (text : Str) : (extendedBytes text).length ≤ (unescaped text).length := by
  induction hlength : text.length using Nat.strongRecOn generalizing text with
  | ind length ih =>
      cases text with
      | nil => exact Nat.le_refl _
      | cons c rest =>
          rw [List.length_cons] at hlength
          by_cases hc : c = '%'
          · subst hc
            cases hescape : escapeAt rest with
            | none =>
                have hdrop := ih (rest.drop 2).length (by rw [List.length_drop]; omega) (rest.drop 2) rfl
                have hkept := length_unescaped_drop rest
                rw [extendedBytes_stray hescape, unescaped_stray hescape, List.length_cons, List.length_cons]
                omega
            | some found =>
                obtain ⟨b, more⟩ := found
                obtain ⟨high, low, m, n, hsplit, -, -, -⟩ := escapeAt_eq_some hescape
                have hmore := ih more.length (by rw [← hlength, hsplit]; simp; omega) more rfl
                rw [extendedBytes_escape hescape, unescaped_escape hescape, List.length_cons, List.length_cons]
                omega
          · have hmore := ih rest.length (by omega) rest rfl
            rw [extendedBytes_plain hc, unescaped_plain hc, List.length_append, List.length_append]
            omega

theorem escapeAt_digit {d : Char} (h : isAsciiDigit d = true) (rest : Str) :
    escapeAt ('3' :: d :: rest) = some (UInt8.ofNat d.toNat, rest) := by
  simp only [isAsciiDigit, Bool.and_eq_true, decide_eq_true_eq] at h
  have hthree : toDigit16 '3' = some 3 := by decide
  have hdigit : toDigit16 d = some (d.toNat - 0x30) := if_pos h
  have hvalue : 3 * 16 + (d.toNat - 0x30) = d.toNat := by omega
  rw [escapeAt, hthree, hdigit]
  dsimp only
  rw [hvalue]

theorem utf8_digit {d : Char} (h : isAsciiDigit d = true) :
    d ≠ '%' ∧ String.utf8EncodeChar d = [UInt8.ofNat d.toNat] := by
  simp only [isAsciiDigit, Bool.and_eq_true, decide_eq_true_eq] at h
  exact toDigit16_ascii (if_pos h)

theorem KeepsStray.eq (h : KeepsStray text) : extendedBytes text = unescaped text := by
  induction h with
  | done => rfl
  | plain hc _ ih => rw [extendedBytes_plain hc, unescaped_plain hc, ih]
  | escape hescape _ ih => rw [extendedBytes_escape hescape, unescaped_escape hescape, ih]
  | last => rfl
  | @digit d rest hd _ ih =>
      have hnone : escapeAt ('%' :: '3' :: d :: rest) = none := rfl
      rw [extendedBytes_stray hnone, unescaped_stray hnone, unescaped_escape (escapeAt_digit hd rest)]
      show 0x25 :: extendedBytes (d :: rest) = _
      rw [extendedBytes_plain (utf8_digit hd).1, (utf8_digit hd).2, ih]
      rfl
  | @three d rest hd _ ih =>
      have hnone : escapeAt ('3' :: '%' :: '3' :: d :: rest) = none := rfl
      have hplain : '3' ≠ '%' := by decide
      rw [extendedBytes_stray hnone, unescaped_stray hnone, unescaped_plain hplain,
        unescaped_escape (escapeAt_digit hd rest)]
      show 0x25 :: extendedBytes ('3' :: d :: rest) = _
      rw [extendedBytes_plain hplain, extendedBytes_plain (utf8_digit hd).1, (utf8_digit hd).2, ih]
      rfl

/-- Behind a percent sign that begins no escape nothing is made up for but a decimal digit. -/
theorem keepsStray_of_stray {first second : Char} {more : Str}
    (ih : ∀ tail : Str, tail.length < more.length → extendedBytes tail = unescaped tail → KeepsStray tail)
    (h : extendedBytes more = unescaped (first :: second :: more)) : KeepsStray ('%' :: first :: second :: more) := by
  have hshort := length_extendedBytes more
  have hlength := congrArg List.length h
  by_cases hfirst : first = '%'
  · subst hfirst
    cases hescape : escapeAt (second :: more) with
    | some found =>
        obtain ⟨b, tail⟩ := found
        obtain ⟨high, low, m, n, hsplit, hhigh, hlow, rfl⟩ := escapeAt_eq_some hescape
        obtain ⟨rfl, rfl⟩ := List.cons_eq_cons.mp hsplit
        obtain ⟨hplain, hone⟩ := toDigit16_ascii hlow
        rw [extendedBytes_plain hplain, hone, unescaped_escape hescape] at h
        obtain ⟨hown, htail⟩ := List.cons_eq_cons.mp h
        obtain ⟨rfl, hdigit⟩ := escape_own_digit hhigh hlow hown.symm
        exact .digit hdigit (ih tail (by simp) htail)
    | none =>
        rw [unescaped_stray hescape] at h hlength
        by_cases hsecond : second = '%'
        · subst hsecond
          cases hlater : escapeAt more with
          | some found =>
              -- the digit that is left is no percent sign
              obtain ⟨b, tail⟩ := found
              obtain ⟨high, low, m, n, rfl, hhigh, -, -⟩ := escapeAt_eq_some hlater
              obtain ⟨hplain, hone⟩ := toDigit16_ascii hhigh
              rw [extendedBytes_plain hplain, hone] at h
              have hcases := toDigit16_cases hhigh
              have hpercent := ofNat_octet (n := 0x25) (by omega) (by decide) (List.cons_eq_cons.mp h).1
              omega
          | none =>
              rw [unescaped_stray hlater] at hlength
              simp only [List.length_cons] at hlength
              omega
        · rw [unescaped_plain hsecond] at hlength
          simp only [List.length_cons, List.length_append] at hlength
          omega
  · have hpos := length_utf8EncodeChar_pos first
    rw [unescaped_plain hfirst] at h hlength
    by_cases hsecond : second = '%'
    · subst hsecond
      cases hlater : escapeAt more with
      | some found =>
          obtain ⟨b, tail⟩ := found
          obtain ⟨high, low, m, n, rfl, hhigh, hlow, rfl⟩ := escapeAt_eq_some hlater
          obtain ⟨hplain, hone⟩ := toDigit16_ascii hhigh
          obtain ⟨hplain', hone'⟩ := toDigit16_ascii hlow
          have htail := length_extendedBytes tail
          rw [extendedBytes_plain hplain, extendedBytes_plain hplain', hone, hone', unescaped_escape hlater] at h hlength
          simp only [List.length_append, List.length_cons, List.length_nil] at hlength
          -- the character in front has one octet, which is the first digit
          obtain ⟨octet, hoctet⟩ := List.length_eq_one_iff.mp (show (String.utf8EncodeChar first).length = 1 by omega)
          rw [hoctet] at h
          obtain ⟨hhead, h⟩ := List.cons_eq_cons.mp h
          obtain ⟨hown, htail⟩ := List.cons_eq_cons.mp h
          have hsame : first = high := by
            have hbytes : asBytes [first] = asBytes [high] := by
              simp only [asBytes, List.flatMap_singleton, hoctet, hone, hhead]
            exact (List.cons_eq_cons.mp (asBytes_inj.mp hbytes)).1
          obtain ⟨hthree, hdigit⟩ := escape_own_digit hhigh hlow hown.symm
          rw [hsame, hthree]
          exact .three hdigit (ih tail (by simp only [List.length_cons]; omega) htail)
      | none =>
          rw [unescaped_stray hlater] at hlength
          simp only [List.length_cons, List.length_append] at hlength
          omega
    · rw [unescaped_plain hsecond] at hlength
      simp only [List.length_append] at hlength
      omega

theorem keepsStray_of_eq (h : extendedBytes text = unescaped text) : KeepsStray text := by
  induction hlength : text.length using Nat.strongRecOn generalizing text with
  | ind length ih =>
      cases text with
      | nil => exact .done
      | cons c rest =>
          rw [List.length_cons] at hlength
          by_cases hc : c = '%'
          · subst hc
            cases hescape : escapeAt rest with
            | some found =>
                obtain ⟨b, more⟩ := found
                obtain ⟨high, low, m, n, hsplit, -, -, -⟩ := escapeAt_eq_some hescape
                rw [extendedBytes_escape hescape, unescaped_escape hescape] at h
                exact .escape hescape (ih more.length (by rw [← hlength, hsplit]; simp; omega)
                  (List.cons_eq_cons.mp h).2 rfl)
            | none =>
                rw [extendedBytes_stray hescape, unescaped_stray hescape] at h
                have h := (List.cons_eq_cons.mp h).2
                match rest with
                | [] => exact .last
                | [first] =>
                    have hlost := length_unescaped_pos first []
                    rw [← h] at hlost
                    exact absurd (show 0 < 0 from hlost) (Nat.lt_irrefl 0)
                | first :: second :: more =>
                    refine keepsStray_of_stray (fun tail htail heq => ih tail.length ?_ heq rfl) h
                    rw [List.length_cons, List.length_cons] at hlength
                    omega
          · rw [extendedBytes_plain hc, unescaped_plain hc] at h
            exact .plain hc (ih rest.length (by omega) (List.append_cancel_left h) rfl)

/-- **The octets are the right ones** exactly if no stray percent sign costs characters. -/
theorem extendedBytes_eq_iff : extendedBytes text = unescaped text ↔ KeepsStray text :=
  ⟨keepsStray_of_eq, KeepsStray.eq⟩

end Scan

/-! ### What is decoded -/

section Decode

variable {charset language text : Str}

/-- Octets that decode to the same text, whatever the character sets are, are the same. -/
theorem decodeOctets_inj {x y : Bytes}
    (h : ∀ codecs : Codecs, codecs.decodeOctets charset x = codecs.decodeOctets charset y) : x = y := by
  -- a fallback that tells `x` from the rest, and no other character set
  have hplain : ∀ fallback : Bytes → Str,
      (fromUtf8 x).getD (fallback x) = (fromUtf8 y).getD (fallback y) := by
    intro fallback
    have hsame := h ⟨fallback, fun _ => none, fun _ => none, fun _ => none, fun _ => none⟩
    unfold Codecs.decodeOctets Codecs.decodeWithCharset Codecs.decode8bitLossy at hsame
    simpa using hsame
  cases hx : fromUtf8 x with
  | some s =>
      cases hy : fromUtf8 y with
      | some t =>
          have hsame := hplain fun _ => []
          rw [hx, hy] at hsame
          obtain rfl : s = t := hsame
          rw [fromUtf8_eq_some.mp hx, fromUtf8_eq_some.mp hy]
      | none =>
          have hsame := hplain fun _ => 'x' :: s
          rw [hx, hy] at hsame
          exact absurd (congrArg List.length hsame) (by simp)
  | none =>
      cases hy : fromUtf8 y with
      | some t =>
          have hsame := hplain fun _ => 'x' :: t
          rw [hx, hy] at hsame
          exact absurd (congrArg List.length hsame) (by simp)
      | none =>
          have hsame := hplain fun bytes => if bytes = x then [] else ['x']
          rw [hx, hy, Option.getD_none, Option.getD_none, if_pos rfl] at hsame
          by_contra hne
          rw [if_neg fun heq => hne heq.symm] at hsame
          cases hsame

theorem decodeExtendedParameter_eq (codecs : Codecs) (hcharset : '\'' ∉ charset) (hlanguage : '\'' ∉ language) :
    decodeExtendedParameter codecs (charset ++ '\'' :: (language ++ '\'' :: text)) =
      codecs.decodeOctets charset (extendedBytes text) := by
  unfold decodeExtendedParameter
  rw [splitAll_append (beq_of_not_mem hcharset) rfl, splitOnce_append (beq_of_not_mem hcharset) rfl]
  dsimp only [Option.bind_eq_bind, Option.bind_some]
  rw [splitOnce_append (beq_of_not_mem hlanguage) rfl]
  rfl

/-- The text is decoded with its escapes replaced and everything else kept, whatever the character sets are. -/
def DecodesText (charset language text : Str) : Prop :=
  ∀ codecs : Codecs, decodeExtendedParameter codecs (charset ++ '\'' :: (language ++ '\'' :: text)) =
    codecs.decodeOctets charset (unescaped text)

/-- **An extended parameter is decoded as it should be** exactly if no stray percent sign costs characters. -/
theorem decodesText_iff (hcharset : '\'' ∉ charset) (hlanguage : '\'' ∉ language) :
    DecodesText charset language text ↔ KeepsStray text := by
  rw [← extendedBytes_eq_iff]
  constructor
  · intro h
    refine @decodeOctets_inj charset _ _ fun codecs => ?_
    rw [← decodeExtendedParameter_eq codecs hcharset hlanguage]
    exact h codecs
  · intro h codecs
    rw [decodeExtendedParameter_eq codecs hcharset hlanguage, h]

end Decode

theorem percent_decoded : DecodesText "UTF-8".toList "en".toList ['%', '4', '1', '%'] := by
  refine (decodesText_iff (by decide) (by decide)).mpr ?_
  have hescape : escapeAt ['4', '1', '%'] = some (0x41, ['%']) := by decide
  exact .escape hescape .last

/-- **Two characters behind a stray percent sign are lost.** -/
theorem percent_lost : ¬ ∀ charset language text : Str, '\'' ∉ charset → '\'' ∉ language →
    DecodesText charset language text := by
  intro h
  have hsame := h [] [] "%zz".toList (by decide) (by decide)
    ⟨fun _ => [], fun _ => none, fun _ => none, fun _ => none, fun _ => none⟩
  revert hsame
  decide +kernel

end Nntp.Proto
