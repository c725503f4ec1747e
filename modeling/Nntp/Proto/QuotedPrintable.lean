import Nntp.Proto.EncodedWord

/-!
# Quoted-printable bodies

`decode_quoted_printable` of `mime.rs`, against the encodings of RFC 2045 as lists of tokens: octets as they are,
escapes, soft line breaks and line breaks. The decoder removes blanks in front of a line break, down to the last
escape. `recover` says what it makes of a list of tokens; the text comes back unless a blank has nothing but soft
line breaks between itself and a line break.
-/

namespace Nntp.Proto

/-! ## The decoder -/

/-- Removes blanks from the end, but none of the first `kept` octets. -/
def trimTrailingBlanks (out : Bytes) (kept : Nat) : Bytes :=
  out.take kept ++ (out.drop kept).rdropWhile isBlank

/-- The loop of `decode_quoted_printable`: the output, and how much of it is protected. -/
def decodeQuotedPrintableFrom (out : Bytes) (kept : Nat) : Bytes → Bytes
  | [] => out
  -- a soft line break, also at the end of the input
  | 0x3D :: 0x0D :: 0x0A :: rest => decodeQuotedPrintableFrom out kept rest
  | 0x3D :: 0x0A :: rest => decodeQuotedPrintableFrom out kept rest
  | [0x3D] => out
  | 0x3D :: hi :: lo :: rest =>
      match hexValue hi, hexValue lo with
      | some h, some l => decodeQuotedPrintableFrom (out ++ [h * 16 + l]) (out.length + 1) rest
      | _, _ => decodeQuotedPrintableFrom (out ++ [0x3D]) kept (hi :: lo :: rest)
  | [0x3D, hi] => out ++ [0x3D, hi]
  -- a hard line break
  | 0x0D :: 0x0A :: rest =>
      let out := trimTrailingBlanks out kept ++ [0x0D, 0x0A]
      decodeQuotedPrintableFrom out out.length rest
  | 0x0A :: rest =>
      let out := trimTrailingBlanks out kept ++ [0x0A]
      decodeQuotedPrintableFrom out out.length rest
  | b :: rest => decodeQuotedPrintableFrom (out ++ [b]) kept rest

/-- Decodes a `quoted-printable` body. -/
def decodeQuotedPrintable (bytes : Bytes) : Bytes := decodeQuotedPrintableFrom [] 0 bytes

/-! ## The encodings -/

/-- What an encoded text consists of. -/
inductive QpToken where
  | literal (b : UInt8)
  | escaped (b : UInt8)
  | soft
  | hard
  deriving DecidableEq

/-- A hexadecimal digit, in capitals. -/
def hexDigit (v : Nat) : UInt8 := UInt8.ofNat (if v < 10 then v + 0x30 else v + 0x37)

namespace QpToken

def wire : QpToken → Bytes
  | literal b => [b]
  | escaped b => [0x3D, hexDigit (b.toNat / 16), hexDigit (b.toNat % 16)]
  | soft => [0x3D, 0x0D, 0x0A]
  | hard => [0x0D, 0x0A]

/-- What a token stands for. -/
def text : QpToken → Bytes
  | literal b => [b]
  | escaped b => [b]
  | soft => []
  | hard => [0x0D, 0x0A]

/-- Which octets may stand for themselves. -/
def isAllowed (b : UInt8) : Bool := (0x21 ≤ b && b ≤ 0x7E && b != 0x3D) || isBlank b

end QpToken

def wireOf (tokens : List QpToken) : Bytes := tokens.flatMap QpToken.wire

def textOf (tokens : List QpToken) : Bytes := tokens.flatMap QpToken.text

/-- The encoded line ends here: with a line break, or with the text. -/
def EndsLine (tokens : List QpToken) : Prop := ∀ token ∈ tokens.head?, token = .hard

/-- An encoding: octets that stand for themselves are allowed to, and a blank is not the last on its line. -/
structure IsEncoding (tokens : List QpToken) : Prop where
  allowed : ∀ b, .literal b ∈ tokens → QpToken.isAllowed b = true
  noBlank : ∀ front b rest, tokens = front ++ .literal b :: rest → isBlank b = true → ¬ EndsLine rest

/-- Soft line breaks, if any, and then a line break. -/
def BreaksNext (tokens : List QpToken) : Prop := ∃ n rest, tokens = List.replicate n .soft ++ .hard :: rest

/-- A blank with nothing but soft line breaks between itself and a line break. -/
def LosesBlank (tokens : List QpToken) : Prop :=
  ∃ front b rest, tokens = front ++ .literal b :: rest ∧ isBlank b = true ∧ BreaksNext rest

/-! ## Token by token -/

section Steps

variable (out : Bytes) (kept : Nat) (rest : Bytes)

theorem hexValue_hexDigit {v : Nat} (h : v < 16) : hexValue (hexDigit v) = some (UInt8.ofNat v) := by
  have hall : ∀ v : Fin 16, hexValue (hexDigit v) = some (UInt8.ofNat v) := by decide +kernel
  exact hall ⟨v, h⟩

theorem decodeFrom_soft :
    decodeQuotedPrintableFrom out kept (QpToken.soft.wire ++ rest) = decodeQuotedPrintableFrom out kept rest := rfl

theorem decodeFrom_hard :
    decodeQuotedPrintableFrom out kept (QpToken.hard.wire ++ rest) =
      decodeQuotedPrintableFrom (trimTrailingBlanks out kept ++ [0x0D, 0x0A])
        (trimTrailingBlanks out kept ++ [0x0D, 0x0A]).length rest := rfl

theorem decodeFrom_escaped (b : UInt8) :
    decodeQuotedPrintableFrom out kept ((QpToken.escaped b).wire ++ rest) =
      decodeQuotedPrintableFrom (out ++ [b]) (out.length + 1) rest := by
  have hb := b.toNat_lt
  have hhi := hexValue_hexDigit (v := b.toNat / 16) (by omega)
  have hlo := hexValue_hexDigit (v := b.toNat % 16) (by omega)
  have hoctet : UInt8.ofNat (b.toNat / 16) * 16 + UInt8.ofNat (b.toNat % 16) = b := by
    apply UInt8.toNat_inj.mp
    rw [UInt8.toNat_add, UInt8.toNat_mul, toNat_octet (by omega), toNat_octet (by omega)]
    simp
    omega
  have hdigit : ∀ v : Fin 16, hexDigit v ≠ 0x0D ∧ hexDigit v ≠ 0x0A := by decide +kernel
  show decodeQuotedPrintableFrom out kept
    (0x3D :: hexDigit (b.toNat / 16) :: hexDigit (b.toNat % 16) :: rest) = _
  obtain ⟨hcr, hlf⟩ := hdigit ⟨b.toNat / 16, by omega⟩
  dsimp only at hcr hlf
  rw [decodeQuotedPrintableFrom, hhi, hlo]
  · dsimp only
    rw [hoctet]
  · exact fun h _ => hcr h
  · exact fun h => hlf h

theorem decodeFrom_literal {b : UInt8} (h : QpToken.isAllowed b = true) :
    decodeQuotedPrintableFrom out kept ((QpToken.literal b).wire ++ rest) =
      decodeQuotedPrintableFrom (out ++ [b]) kept rest := by
  have hne : ∀ c : UInt8, QpToken.isAllowed c = false → b ≠ c := by
    rintro c hc rfl
    rw [hc] at h
    cases h
  have hequals := hne 0x3D (by decide)
  have hcr := hne 0x0D (by decide)
  have hlf := hne 0x0A (by decide)
  show decodeQuotedPrintableFrom out kept (b :: rest) = _
  rw [decodeQuotedPrintableFrom] <;> simp [hequals, hcr, hlf]

end Steps

/-! ## What comes out -/

/-- The output for some tokens, behind `pending`, which is what has been read since the last escape or line
break. -/
def recover (pending : Bytes) : List QpToken → Bytes
  | [] => pending
  | .literal b :: rest => recover (pending ++ [b]) rest
  | .escaped b :: rest => pending ++ b :: recover [] rest
  | .soft :: rest => recover pending rest
  | .hard :: rest => pending.rdropWhile isBlank ++ 0x0D :: 0x0A :: recover [] rest

theorem decodeFrom_wireOf {tokens : List QpToken} (h : ∀ b, .literal b ∈ tokens → QpToken.isAllowed b = true)
    (done pending : Bytes) :
    decodeQuotedPrintableFrom (done ++ pending) done.length (wireOf tokens) = done ++ recover pending tokens := by
  induction tokens generalizing done pending with
  | nil => rfl
  | cons token tokens ih =>
      have hrest : ∀ b, .literal b ∈ tokens → QpToken.isAllowed b = true :=
        fun b hb => h b (List.mem_cons_of_mem _ hb)
      have hwire : wireOf (token :: tokens) = token.wire ++ wireOf tokens := rfl
      rw [hwire]
      cases token with
      | literal b =>
          rw [decodeFrom_literal _ _ _ (h b List.mem_cons_self), List.append_assoc, ih hrest]
          rfl
      | escaped b =>
          -- everything up to here is protected
          have hmore := ih hrest (done ++ pending ++ [b]) []
          rw [List.append_nil, List.length_append, List.length_singleton] at hmore
          rw [decodeFrom_escaped, hmore, recover]
          simp
      | soft =>
          rw [decodeFrom_soft, ih hrest]
          rfl
      | hard =>
          have htrim : trimTrailingBlanks (done ++ pending) done.length =
              done ++ pending.rdropWhile isBlank := by
            unfold trimTrailingBlanks
            rw [List.take_left, List.drop_left]
          have hmore := ih hrest (done ++ pending.rdropWhile isBlank ++ [0x0D, 0x0A]) []
          rw [List.append_nil] at hmore
          rw [decodeFrom_hard, htrim, hmore, recover]
          simp

theorem recover_length (pending : Bytes) (tokens : List QpToken) :
    (recover pending tokens).length ≤ pending.length + (textOf tokens).length := by
  fun_induction recover pending tokens with
  | case1 pending => exact Nat.le_add_right _ _
  | case2 pending b rest ih =>
      simp only [textOf, List.flatMap_cons, QpToken.text, List.length_append, List.length_singleton] at ih ⊢
      omega
  | case3 pending b rest ih =>
      simp only [textOf, List.flatMap_cons, QpToken.text, List.length_append, List.length_cons, List.length_nil] at ih ⊢
      omega
  | case4 pending rest ih => exact ih
  | case5 pending rest ih =>
      have hprefix := (List.rdropWhile_prefix isBlank pending).length_le
      simp only [textOf, List.flatMap_cons, QpToken.text, List.length_append, List.length_cons, List.length_nil] at ih ⊢
      omega

/-! ### Where a blank is lost -/

section Losing

variable {token : QpToken} {tokens : List QpToken}

theorem breaksNext_nil : ¬ BreaksNext [] := by
  rintro ⟨n, rest, h⟩
  cases n <;> cases h

theorem breaksNext_soft : BreaksNext (.soft :: tokens) ↔ BreaksNext tokens := by
  constructor
  · rintro ⟨n, rest, h⟩
    cases n with
    | zero => cases h
    | succ n =>
        rw [List.replicate_succ] at h
        exact ⟨n, rest, (List.cons_eq_cons.mp h).2⟩
  · rintro ⟨n, rest, rfl⟩
    exact ⟨n + 1, rest, rfl⟩

theorem breaksNext_hard : BreaksNext (.hard :: tokens) := ⟨0, tokens, rfl⟩

theorem not_breaksNext (hsoft : token ≠ .soft) (hhard : token ≠ .hard) : ¬ BreaksNext (token :: tokens) := by
  rintro ⟨n, rest, h⟩
  cases n with
  | zero => exact hhard (List.cons_eq_cons.mp h).1
  | succ n =>
      rw [List.replicate_succ] at h
      exact hsoft (List.cons_eq_cons.mp h).1

theorem losesBlank_cons : LosesBlank (token :: tokens) ↔
    (∃ b, token = .literal b ∧ isBlank b = true ∧ BreaksNext tokens) ∨ LosesBlank tokens := by
  constructor
  · rintro ⟨front, b, rest, hsplit, hblank, hbreaks⟩
    cases front with
    | nil =>
        obtain ⟨rfl, rfl⟩ := List.cons_eq_cons.mp hsplit
        exact Or.inl ⟨b, rfl, hblank, hbreaks⟩
    | cons first front =>
        obtain ⟨-, rfl⟩ := List.cons_eq_cons.mp hsplit
        exact Or.inr ⟨front, b, rest, rfl, hblank, hbreaks⟩
  · rintro (⟨b, rfl, hblank, hbreaks⟩ | ⟨front, b, rest, rfl, hblank, hbreaks⟩)
    · exact ⟨[], b, tokens, rfl, hblank, hbreaks⟩
    · exact ⟨token :: front, b, rest, rfl, hblank, hbreaks⟩

theorem losesBlank_other (h : ∀ b, token ≠ .literal b) : LosesBlank (token :: tokens) ↔ LosesBlank tokens := by
  rw [losesBlank_cons, or_iff_right]
  rintro ⟨b, hb, _⟩
  exact h b hb

end Losing

/-- The pending octets end in a blank. -/
def EndsBlank (pending : Bytes) : Prop := ∃ b ∈ pending.getLast?, isBlank b = true

theorem rdropWhile_isBlank {pending : Bytes} : pending.rdropWhile isBlank = pending ↔ ¬ EndsBlank pending := by
  rw [List.rdropWhile_eq_self_iff]
  unfold EndsBlank
  constructor
  · rintro h ⟨b, hb, hblank⟩
    obtain ⟨front, rfl⟩ := List.getLast?_eq_some_iff.mp hb
    exact h (by simp) (by simpa using hblank)
  · intro h hne hblank
    exact h ⟨_, List.getLast?_eq_some_getLast hne, hblank⟩

/-- **What is lost** is the blanks with a line break next. -/
theorem recover_eq_iff (pending : Bytes) (tokens : List QpToken) :
    recover pending tokens = pending ++ textOf tokens ↔
      ¬ (EndsBlank pending ∧ BreaksNext tokens) ∧ ¬ LosesBlank tokens := by
  induction tokens generalizing pending with
  | nil =>
      refine iff_of_true (List.append_nil _).symm ⟨fun h => breaksNext_nil h.2, ?_⟩
      rintro ⟨front, b, rest, h, _⟩
      cases front <;> cases h
  | cons token tokens ih =>
      cases token with
      | literal b =>
          have htext : pending ++ textOf (.literal b :: tokens) = pending ++ [b] ++ textOf tokens := by
            rw [List.append_assoc]
            rfl
          have hends : EndsBlank (pending ++ [b]) ↔ isBlank b = true := by
            unfold EndsBlank
            simp
          have hnot : ¬ BreaksNext (.literal b :: tokens) := not_breaksNext (fun h => by cases h) fun h => by cases h
          rw [recover, htext, ih, hends, losesBlank_cons]
          simp [hnot, not_or]
      | escaped b =>
          have htext : textOf (.escaped b :: tokens) = b :: textOf tokens := rfl
          have hnone : ¬ EndsBlank [] := by
            rintro ⟨b, hb, _⟩
            cases hb
          have hnot : ¬ BreaksNext (.escaped b :: tokens) := not_breaksNext (fun h => by cases h) fun h => by cases h
          have hmore := ih []
          rw [List.nil_append] at hmore
          rw [recover, htext, losesBlank_other (fun c h => by cases h)]
          simp [hmore, hnone, hnot]
      | soft =>
          have htext : textOf (.soft :: tokens) = textOf tokens := rfl
          rw [recover, htext, ih, breaksNext_soft, losesBlank_other (fun c h => by cases h)]
      | hard =>
          have htext : textOf (.hard :: tokens) = 0x0D :: 0x0A :: textOf tokens := rfl
          have hnone : ¬ EndsBlank [] := by
            rintro ⟨b, hb, _⟩
            cases hb
          have hmore := ih []
          rw [List.nil_append] at hmore
          rw [recover, htext, losesBlank_other (fun c h => by cases h)]
          have hparts : pending.rdropWhile isBlank ++ 0x0D :: 0x0A :: recover [] tokens =
              pending ++ 0x0D :: 0x0A :: textOf tokens ↔
                pending.rdropWhile isBlank = pending ∧ recover [] tokens = textOf tokens := by
            refine ⟨fun h => ?_, fun ⟨hpending, hrest⟩ => by rw [hpending, hrest]⟩
            -- neither part has become longer, so none has become shorter
            have hlength := congrArg List.length h
            have hshort := (List.rdropWhile_prefix isBlank pending).length_le
            have hrest := recover_length [] tokens
            simp only [List.length_append, List.length_cons, List.length_nil] at hlength hrest
            obtain ⟨hpending, htail⟩ := List.append_inj h (by omega)
            exact ⟨hpending, by simpa using htail⟩
          rw [hparts, rdropWhile_isBlank, hmore]
          simp [hnone, breaksNext_hard]

/-- **An encoded text is decoded** exactly when it has no blank with only soft line breaks between itself and a
line break. -/
theorem decodeQuotedPrintable_iff {tokens : List QpToken} (h : IsEncoding tokens) :
    decodeQuotedPrintable (wireOf tokens) = textOf tokens ↔ ¬ LosesBlank tokens := by
  have hrun : decodeQuotedPrintable (wireOf tokens) = recover [] tokens := decodeFrom_wireOf h.allowed [] []
  have hiff := recover_eq_iff [] tokens
  rw [List.nil_append] at hiff
  rw [hrun, hiff, and_iff_right]
  rintro ⟨⟨b, hb, _⟩, _⟩
  cases hb

/-! ### A blank before a line break -/

theorem isEncoding_nil : IsEncoding [] :=
  ⟨fun _ h => (by cases h), fun front _ _ h => absurd h.symm (by simp)⟩

theorem IsEncoding.cons {token : QpToken} {tokens : List QpToken} (h : IsEncoding tokens)
    (htoken : ∀ b, token = .literal b → QpToken.isAllowed b = true ∧ (isBlank b = true → ¬ EndsLine tokens)) :
    IsEncoding (token :: tokens) := by
  refine ⟨fun b hb => ?_, fun front b rest hsplit => ?_⟩
  · rcases List.mem_cons.mp hb with hb | hb
    · exact (htoken b hb.symm).1
    · exact h.allowed b hb
  · cases front with
    | nil =>
        obtain ⟨hfirst, rfl⟩ := List.cons_eq_cons.mp hsplit
        exact (htoken b hfirst).2
    | cons first front => exact h.noBlank front b rest (List.cons_eq_cons.mp hsplit).2

instance (tokens : List QpToken) : Decidable (EndsLine tokens) :=
  inferInstanceAs (Decidable (∀ token ∈ tokens.head?, token = .hard))

theorem isEncoding_literal {b : UInt8} {tokens : List QpToken} (h : IsEncoding tokens)
    (hallowed : QpToken.isAllowed b = true) (hends : isBlank b = true → ¬ EndsLine tokens) :
    IsEncoding (.literal b :: tokens) := by
  refine h.cons fun c hc => ?_
  cases hc
  exact ⟨hallowed, hends⟩

theorem isEncoding_other {token : QpToken} {tokens : List QpToken} (h : IsEncoding tokens)
    (hother : ∀ b, token ≠ .literal b) : IsEncoding (token :: tokens) :=
  h.cons fun b hb => absurd hb (hother b)

/-- `a`, a blank and a soft line break, and the line goes on with `b`. -/
def keptBlank : List QpToken := [.literal 0x61, .literal 0x20, .soft, .literal 0x62, .hard]

theorem keptBlank_decoded : decodeQuotedPrintable (wireOf keptBlank) = textOf keptBlank := by
  have hhard : IsEncoding [.hard] := isEncoding_other isEncoding_nil fun b h => by cases h
  have hsoft : IsEncoding [.soft, .literal 0x62, .hard] :=
    isEncoding_other (isEncoding_literal hhard (by decide) (by decide)) fun b h => by cases h
  have hencoding : IsEncoding keptBlank :=
    isEncoding_literal (isEncoding_literal hsoft (by decide) (by decide)) (by decide) (by decide)
  apply (decodeQuotedPrintable_iff hencoding).mpr
  unfold keptBlank
  rw [losesBlank_cons, losesBlank_cons, losesBlank_other (fun c h => by cases h), losesBlank_cons,
    losesBlank_other (fun c h => by cases h), breaksNext_soft]
  rintro (⟨b, hb, hblank, _⟩ | ⟨_, _, _, hbreaks⟩ | ⟨b, hb, hblank, _⟩ | ⟨front, b, rest, h, _⟩)
  · cases hb
    revert hblank
    decide
  · exact not_breaksNext (fun h => by cases h) (fun h => by cases h) hbreaks
  · cases hb
    revert hblank
    decide
  · cases front <;> cases h

/-- `a`, a blank, a soft line break and a line break. -/
def lostBlank : List QpToken := [.literal 0x61, .literal 0x20, .soft, .hard]

/-- **The blank before the soft line break is lost.** -/
theorem lostBlank_decoded : ¬ ∀ tokens : List QpToken, IsEncoding tokens →
    decodeQuotedPrintable (wireOf tokens) = textOf tokens := by
  intro hall
  have hhard : IsEncoding [.hard] := isEncoding_other isEncoding_nil fun b h => by cases h
  have hsoft : IsEncoding [.soft, .hard] := isEncoding_other hhard fun b h => by cases h
  have hencoding : IsEncoding lostBlank :=
    isEncoding_literal (isEncoding_literal hsoft (by decide) (by decide)) (by decide) (by decide)
  exact absurd (hall lostBlank hencoding) (by decide +kernel)

end Nntp.Proto
