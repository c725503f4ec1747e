import Mathlib.Order.Interval.Set.Basic

/-!
# Sets as lists of intervals

A finite union of closed intervals of a linear order, kept as a list of bounds. A list is
*canonical* when every interval is inhabited and between one interval and any later one there is
an element belonging to neither. Canonical lists are unique: the set determines the list
(`Canonical.ext`), so comparing lists compares sets.

Nothing here assumes that the order is discrete or bounded.
-/

namespace Nntp.Lib.Intervals

variable {α : Type*} [LinearOrder α]

/-- The elements covered by a list of intervals. -/
def members (rs : List (α × α)) : Set α := {n | ∃ r ∈ rs, r.1 ≤ n ∧ n ≤ r.2}

/-- Some element lies strictly between the end of `r` and the start of `s`. -/
def Gap (r s : α × α) : Prop := ∃ m, r.2 < m ∧ m < s.1

/-- Every interval is inhabited, and successive intervals leave a gap. -/
structure Canonical (rs : List (α × α)) : Prop where
  inhabited : ∀ r ∈ rs, r.1 ≤ r.2
  gaps : rs.Pairwise Gap

@[simp] theorem mem_members {rs : List (α × α)} {n : α} :
    n ∈ members rs ↔ ∃ r ∈ rs, r.1 ≤ n ∧ n ≤ r.2 := Iff.rfl

@[simp] theorem members_nil : members ([] : List (α × α)) = ∅ := by
  ext n; simp

theorem members_cons (r : α × α) (rs : List (α × α)) :
    members (r :: rs) = Set.Icc r.1 r.2 ∪ members rs := by
  ext n; simp

theorem members_append (rs ss : List (α × α)) :
    members (rs ++ ss) = members rs ∪ members ss := by
  ext n; simp [or_and_right, exists_or]

theorem Canonical.nil : Canonical ([] : List (α × α)) := ⟨by simp, List.Pairwise.nil⟩

theorem Canonical.tail {r : α × α} {rs : List (α × α)} (h : Canonical (r :: rs)) :
    Canonical rs :=
  ⟨fun s hs => h.inhabited s (List.mem_cons_of_mem r hs), (List.pairwise_cons.mp h.gaps).2⟩

/-- Everything covered by the tail lies beyond the head, with room to spare. -/
theorem Canonical.gap_of_mem_tail {r : α × α} {rs : List (α × α)} (h : Canonical (r :: rs))
    {n : α} (hn : n ∈ members rs) : ∃ m, r.2 < m ∧ m < n := by
  obtain ⟨s, hs, hsn, -⟩ := hn
  obtain ⟨m, hrm, hms⟩ := (List.pairwise_cons.mp h.gaps).1 s hs
  exact ⟨m, hrm, lt_of_lt_of_le hms hsn⟩

/-- The head's start is the least element covered. -/
theorem Canonical.head_le {r : α × α} {rs : List (α × α)} (h : Canonical (r :: rs))
    {n : α} (hn : n ∈ members (r :: rs)) : r.1 ≤ n := by
  rw [members_cons] at hn
  rcases hn with ⟨hle, -⟩ | hn
  · exact hle
  · obtain ⟨m, hrm, hmn⟩ := h.gap_of_mem_tail hn
    exact (h.inhabited r (by simp)).trans (hrm.trans hmn).le

theorem Canonical.mem_tail_iff {r : α × α} {rs : List (α × α)} (h : Canonical (r :: rs))
    (n : α) : n ∈ members rs ↔ n ∈ members (r :: rs) ∧ r.2 < n := by
  constructor
  · intro hn
    obtain ⟨m, hrm, hmn⟩ := h.gap_of_mem_tail hn
    exact ⟨by rw [members_cons]; exact Or.inr hn, hrm.trans hmn⟩
  · rintro ⟨hn, hlt⟩
    rw [members_cons] at hn
    rcases hn with ⟨-, hle⟩ | hn
    · exact absurd hlt (not_lt.mpr hle)
    · exact hn

/-- If two canonical lists cover the same set, the first interval of one does not end after the
first interval of the other: the element in the gap after the latter would have to be covered. -/
theorem Canonical.head_snd_le {r s : α × α} {rs ss : List (α × α)}
    (hr : Canonical (r :: rs)) (hs : Canonical (s :: ss))
    (hmem : members (r :: rs) = members (s :: ss)) (hstart : r.1 = s.1) : s.2 ≤ r.2 := by
  by_contra hlt
  have hlt : r.2 < s.2 := not_le.mp hlt
  have hsle : s.1 ≤ s.2 := hs.inhabited s (by simp)
  have hend : s.2 ∈ members (r :: rs) := by
    rw [hmem, members_cons]; exact Or.inl ⟨hsle, le_refl _⟩
  have htail : s.2 ∈ members rs := (hr.mem_tail_iff _).mpr ⟨hend, hlt⟩
  cases rs with
  | nil => simp at htail
  | cons q qs =>
      -- the gap before the *first* interval of the tail is covered by nothing on the left
      obtain ⟨m, hrm, hmq⟩ := (List.pairwise_cons.mp hr.gaps).1 q (by simp)
      have hqs : q.1 ≤ s.2 := hr.tail.head_le htail
      have hm : m ∈ members (s :: ss) := by
        rw [members_cons]
        refine Or.inl ⟨?_, (hmq.trans_le hqs).le⟩
        exact (hstart ▸ (hr.inhabited r (by simp)).trans hrm.le)
      rw [← hmem] at hm
      exact absurd (hr.tail.head_le ((hr.mem_tail_iff _).mpr ⟨hm, hrm⟩)) (not_le.mpr hmq)

/-- **Canonical lists are unique.** Two canonical lists covering the same elements are equal. -/
theorem Canonical.ext {rs ss : List (α × α)} (hr : Canonical rs) (hs : Canonical ss)
    (hmem : members rs = members ss) : rs = ss := by
  induction rs generalizing ss with
  | nil =>
      cases ss with
      | nil => rfl
      | cons s ss =>
          have : s.1 ∈ members ([] : List (α × α)) := by
            rw [hmem, members_cons]; exact Or.inl ⟨le_refl _, hs.inhabited s (by simp)⟩
          simp at this
  | cons r rs ih =>
      cases ss with
      | nil =>
          have : r.1 ∈ members ([] : List (α × α)) := by
            rw [← hmem, members_cons]; exact Or.inl ⟨le_refl _, hr.inhabited r (by simp)⟩
          simp at this
      | cons s ss =>
          have hstart : r.1 = s.1 := by
            apply le_antisymm
            · apply hr.head_le
              rw [hmem, members_cons]; exact Or.inl ⟨le_refl _, hs.inhabited s (by simp)⟩
            · apply hs.head_le
              rw [← hmem, members_cons]; exact Or.inl ⟨le_refl _, hr.inhabited r (by simp)⟩
          have hend : r.2 = s.2 :=
            le_antisymm (hs.head_snd_le hr hmem.symm hstart.symm)
              (hr.head_snd_le hs hmem hstart)
          have htail : members rs = members ss := by
            ext n
            rw [hr.mem_tail_iff, hs.mem_tail_iff, hmem, hend]
          rw [Prod.ext hstart hend, ih hr.tail hs.tail htail]

end Nntp.Lib.Intervals
