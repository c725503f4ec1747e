import Nntp.Proto.Post

/-!
# Normal forms of subjects

`normalise_subject` strips list tags and reply markers off the front until neither is left. What it strips
from is trimmed once, and stays trimmed: everything it goes on with is the rest of a trimmed text, without the
white space in front. So what it leaves is a normal form, and a reply marker put in front of a trimmed subject
changes nothing but the answer to whether there was one.
-/

namespace Nntp.Proto

/-! ## Trimmed texts -/

/-- Nothing is trimmed off the text. -/
def IsTrimmed (s : Str) : Prop := trim s = s

/-- What trimming leaves of a text has something else than white space at both ends. -/
theorem isTrimmed_trim (s : Str) : IsTrimmed (trim s) :=
  trim_of_edges (fun _ hc => (head?_trim hc).2) fun _ hc => getLast?_trim hc

/-- A trimmed text begins with something else than white space. -/
theorem IsTrimmed.head? {s : Str} (h : IsTrimmed s) {c : Char} (hc : s.head? = some c) :
    isWhitespace c = false :=
  (head?_trim (s := s) (c := c) (by rw [show trim s = s from h]; exact hc)).2

theorem IsTrimmed.getLast? {s : Str} (h : IsTrimmed s) {c : Char} (hc : s.getLast? = some c) :
    isWhitespace c = false :=
  getLast?_trim (s := s) (c := c) (by rw [show trim s = s from h]; exact hc)

/-- In front of a trimmed text there is no white space to drop. -/
theorem IsTrimmed.trimStart {s : Str} (h : IsTrimmed s) : trimStart s = s := by
  cases s with
  | nil => rfl
  | cons c cs =>
      have hc : isWhitespace c = false := h.head? rfl
      simp [Nntp.Proto.trimStart, hc]

/-- The rest of a trimmed text is trimmed, once the white space in front of it is gone. -/
theorem IsTrimmed.rest {front tail : Str} (h : IsTrimmed (front ++ tail)) :
    IsTrimmed (Nntp.Proto.trimStart tail) := by
  apply trim_of_edges
  · intro c hc
    have hnot := List.head?_dropWhile_not isWhitespace tail
    unfold Nntp.Proto.trimStart at hc
    rw [hc] at hnot
    simpa using hnot
  · intro c hc
    obtain ⟨white, hwhite⟩ : Nntp.Proto.trimStart tail <:+ tail := List.dropWhile_suffix isWhitespace
    -- the last character is that of the whole text
    apply h.getLast?
    rw [← hwhite, List.getLast?_append, List.getLast?_append, hc]
    rfl

/-! ## The loop -/

/-- What a stripped tag leaves is the rest of the text. -/
theorem stripTag_rest {rest tail : Str} (h : stripTag rest = some tail) :
    ∃ front back, rest = front ++ back ∧ tail = trimStart back := by
  obtain ⟨stripped, hpre, hstrip⟩ := Option.bind_eq_some_iff.mp h
  obtain ⟨⟨tag, back⟩, hsplit, htail⟩ := Option.bind_eq_some_iff.mp hstrip
  obtain ⟨sep, _, heq, _⟩ := splitOnce_eq_some hsplit
  dsimp only at htail
  split at htail
  · cases htail
    refine ⟨'[' :: tag ++ [sep], back, ?_, rfl⟩
    rw [stripPrefix_eq_some.mp hpre, heq]
    simp
  · cases htail

/-- And so is what a stripped reply marker leaves. -/
theorem stripReply_rest {rest tail : Str} (h : stripReply rest = some tail) :
    ∃ front back, rest = front ++ back ∧ tail = trimStart back := by
  obtain ⟨⟨head, back⟩, hsplit, htail⟩ := Option.bind_eq_some_iff.mp h
  obtain ⟨sep, _, heq, _⟩ := splitOnce_eq_some hsplit
  dsimp only at htail
  split at htail
  · cases htail
    exact ⟨head ++ [sep], back, by simp [heq], rfl⟩
  · cases htail

/-- Neither a tag nor a reply marker can be stripped off the text. -/
structure IsNormal (t : Str) : Prop where
  trimmed : IsTrimmed t
  noTag : stripTag t = none
  noReply : stripReply t = none

/-- A normal form is left as it is. -/
theorem IsNormal.normaliseLoop {t : Str} (h : IsNormal t) (wasReply : Bool) :
    normaliseLoop t wasReply = (t, wasReply) := by
  rw [Nntp.Proto.normaliseLoop, h.noTag]
  dsimp only
  rw [h.noReply]
  dsimp only
  rw [show trim t = t from h.trimmed]

/-- **The loop ends in a normal form.** -/
theorem normaliseLoop_isNormal (rest : Str) (wasReply : Bool) (h : IsTrimmed rest) :
    IsNormal (normaliseLoop rest wasReply).1 := by
  fun_induction normaliseLoop rest wasReply with
  | case1 rest wasReply tail htag ih =>
      obtain ⟨front, back, rfl, rfl⟩ := stripTag_rest htag
      exact ih h.rest
  | case2 rest wasReply htag tail hreply ih =>
      obtain ⟨front, back, rfl, rfl⟩ := stripReply_rest hreply
      exact ih h.rest
  | case3 rest wasReply htag hreply =>
      rw [show trim rest = rest from h]
      exact ⟨h, htag, hreply⟩

section Steps

variable {rest tail : Str}

theorem normaliseLoop_tag (h : stripTag rest = some tail) (wasReply : Bool) :
    normaliseLoop rest wasReply = normaliseLoop tail wasReply := by
  fun_cases normaliseLoop rest wasReply with
  | case1 _ htag => rw [Option.some.inj (htag.symm.trans h)]
  | case2 htag => cases htag.symm.trans h
  | case3 htag => cases htag.symm.trans h

theorem normaliseLoop_reply (htag : stripTag rest = none) (h : stripReply rest = some tail)
    (wasReply : Bool) : normaliseLoop rest wasReply = normaliseLoop tail true := by
  fun_cases normaliseLoop rest wasReply with
  | case1 _ htag' => cases htag.symm.trans htag'
  | case2 _ _ hreply => rw [Option.some.inj (hreply.symm.trans h)]
  | case3 _ hreply => cases hreply.symm.trans h

end Steps

/-- The subject the loop leaves does not depend on what was found before, and the answer adds to it. -/
theorem normaliseLoop_wasReply (rest : Str) (wasReply : Bool) :
    normaliseLoop rest wasReply =
      ((normaliseLoop rest false).1, wasReply || (normaliseLoop rest false).2) := by
  fun_induction normaliseLoop rest wasReply with
  | case1 rest wasReply tail htag ih => rw [normaliseLoop_tag htag, ih]
  | case2 rest wasReply htag tail hreply ih =>
      rw [normaliseLoop_reply htag hreply, ih]
      simp
  | case3 rest wasReply htag hreply =>
      rw [normaliseLoop.eq_def rest false, htag]
      dsimp only
      rw [hreply]
      simp

/-! ## Subjects -/

theorem normaliseSubject_isNormal (s : Str) : IsNormal (normaliseSubject s).1 :=
  normaliseLoop_isNormal _ false (isTrimmed_trim s)

/-- White space around a subject does not count. -/
theorem normaliseSubject_trim (s : Str) : normaliseSubject (trim s) = normaliseSubject s := by
  unfold normaliseSubject
  rw [show trim (trim s) = trim s from isTrimmed_trim s]

theorem stripReply_re (s : Str) : stripReply ("Re: ".toList ++ s) = some (trimStart s) := by
  have hsplit : splitOnce (· == ':') ("Re: ".toList ++ s) = some ("Re".toList, ' ' :: s) := rfl
  unfold stripReply
  rw [hsplit]
  rfl

/-- A reply marker in front of a trimmed subject is stripped off again. -/
theorem normaliseSubject_re {s : Str} (h : IsTrimmed s) :
    normaliseSubject ("Re: ".toList ++ s) = ((normaliseSubject s).1, true) := by
  have hloop : normaliseSubject ("Re: ".toList ++ s) = normaliseLoop s true := by
    cases s with
    | nil => decide +kernel
    | cons c cs =>
        have htrim : trim ("Re: ".toList ++ c :: cs) = "Re: ".toList ++ c :: cs := by
          apply trim_of_edges
          · intro d hd
            cases hd
            decide
          · intro d hd
            apply h.getLast?
            rw [List.getLast?_append_of_ne_nil _ (List.cons_ne_nil c cs)] at hd
            exact hd
        unfold normaliseSubject
        rw [htrim, normaliseLoop_reply rfl (stripReply_re (c :: cs)), h.trimStart]
  rw [hloop, normaliseLoop_wasReply]
  unfold normaliseSubject
  rw [show trim s = s from h]
  simp

/-- The subject of a follow-up. -/
def followUpSubject (subject : Str) : Str :=
  if (normaliseSubject (trim subject)).2 then trim subject else "Re: ".toList ++ trim subject

theorem header_followUp_subject (parent : FollowUp) (sender : Str) :
    (Draft.followUp parent sender).header "Subject".toList = some (followUpSubject parent.subject) := by
  unfold Draft.followUp
  dsimp only
  split
  · rfl
  · rfl

/-- A follow-up is about what its parent is about, and is a reply. -/
theorem normaliseSubject_followUpSubject (subject : Str) :
    normaliseSubject (followUpSubject subject) = ((normaliseSubject subject).1, true) := by
  unfold followUpSubject
  rw [normaliseSubject_trim]
  split
  · next hreply =>
      rw [normaliseSubject_trim]
      exact Prod.ext rfl hreply
  · rw [normaliseSubject_re (isTrimmed_trim subject), normaliseSubject_trim]

/-- **Normalised subjects are normal forms, and follow-ups keep them.** Normalising again changes nothing and
finds no reply marker; the subject of a follow-up is normalised to its parent's, and is that of a reply, so a
follow-up to a follow-up gains no second marker. -/
theorem normaliseSubject_normalForm (s : Str) :
    normaliseSubject (normaliseSubject s).1 = ((normaliseSubject s).1, false) ∧
      ∀ (parent : FollowUp) (sender : Str), ∃ f,
        (Draft.followUp parent sender).header "Subject".toList = some f ∧
          normaliseSubject f = ((normaliseSubject parent.subject).1, true) ∧
          ∀ next : FollowUp,
            (Draft.followUp { next with subject := f } sender).header "Subject".toList = some (trim f) := by
  have hnormal := normaliseSubject_isNormal s
  refine ⟨?_, fun parent sender => ?_⟩
  · show normaliseLoop (trim (normaliseSubject s).1) false = _
    rw [show trim _ = _ from hnormal.trimmed]
    exact hnormal.normaliseLoop false
  · have hkept := normaliseSubject_followUpSubject parent.subject
    refine ⟨_, header_followUp_subject parent sender, hkept, fun next => ?_⟩
    rw [header_followUp_subject]
    unfold followUpSubject at hkept ⊢
    rw [normaliseSubject_trim, hkept]
    rfl

/-- Tags and markers in any order. -/
example : normaliseSubject "[list] Re[2]: [other] AW : x".toList = ("x".toList, true) := by decide +kernel

end Nntp.Proto
