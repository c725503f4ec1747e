import Mathlib.Order.MinMax
import Nntp.Lib.U64
import Nntp.Lib.Slice
import Nntp.Lib.Intervals

/-!
# The set of articles read in one group

`readstate/set.rs`: article numbers as sorted, disjoint, non-adjacent inclusive ranges, which is
the `.newsrc` representation.

The definitions are the source's. What they are *for* is one sentence: a `ReadSet` is a set of
positive article numbers. `Valid` is the invariant that makes it so, every operation restores it
(`insertRange_valid`, `remove_valid`, `removeRange_valid`) and acts on the numbers as the set
operation of the same name (`mem_insertRange`, `mem_remove`, `mem_removeRange`). Since valid range
lists are canonical interval lists, the numbers determine the value (`Valid.ext`).
-/

namespace Nntp.Tui

open Nntp.Lib

/-- The articles read in one group: inclusive `(low, high)` pairs. -/
structure ReadSet where
  ranges : List (UInt64 × UInt64)
  deriving DecidableEq, Repr

namespace ReadSet

/-! ## The operations -/

/-- An empty set: nothing in the group has been read. -/
def new : ReadSet := ⟨[]⟩

def isEmpty (s : ReadSet) : Bool := s.ranges.isEmpty

/-- How many article numbers are marked read. -/
def count (s : ReadSet) : UInt64 := (s.ranges.map fun r => r.2 - r.1 + 1).foldl (· + ·) 0

def rangeCount (s : ReadSet) : Nat := s.ranges.length

/-- The highest article number marked read. -/
def highest (s : ReadSet) : Option UInt64 := s.ranges.getLast?.map (·.2)

/-- Whether `number` is marked read. Article `0` is never read. -/
def contains (s : ReadSet) (number : UInt64) : Bool :=
  if number = 0 then false
  else
    match binarySearchByKey (·.1) number s.ranges with
    | .ok _ => true
    | .error 0 => false
    | .error (index + 1) => s.ranges[index]?.any fun r => number ≤ r.2

/-- A reversed pair of bounds the right way round. -/
def ordered (low high : UInt64) : UInt64 × UInt64 :=
  if low ≤ high then (low, high) else (high, low)

/-- Marks an inclusive range of article numbers read. Everything that touches or abuts the new
range is replaced by one merged range. -/
def insertRange (s : ReadSet) (low high : UInt64) : ReadSet :=
  let bounds := ordered low high
  let high := bounds.2
  if high = 0 then s
  else
    let low := max bounds.1 1
    let mergeFrom := saturatingSub low 1
    let mergeTo := saturatingAdd high 1
    let first := partitionPoint (fun r => decide (r.2 < mergeFrom)) s.ranges
    let last := partitionPoint (fun r => decide (r.1 ≤ mergeTo)) s.ranges
    if last ≤ first then ⟨splice s.ranges first first [(low, high)]⟩
    else
      let merged := ((s.ranges.drop first).take (last - first)).foldl
        (fun acc r => (min acc.1 r.1, max acc.2 r.2)) (low, high)
      ⟨splice s.ranges first last [merged]⟩

/-- Marks a single article read. -/
def insert (s : ReadSet) (number : UInt64) : ReadSet := s.insertRange number number

/-- Marks a single article unread, splitting its range where it has to. -/
def remove (s : ReadSet) (number : UInt64) : ReadSet :=
  if number = 0 then s
  else
    let index? :=
      match binarySearchByKey (·.1) number s.ranges with
      | .ok index => some index
      | .error 0 => none
      | .error (index + 1) => some index
    match index? with
    | none => s
    | some index =>
      match s.ranges[index]? with
      | none => s
      | some (low, high) =>
        if number < low ∨ high < number then s
        else
          match decide (number = low), decide (number = high) with
          | true, true => ⟨splice s.ranges index (index + 1) []⟩
          | true, false => ⟨splice s.ranges index (index + 1) [(low + 1, high)]⟩
          | false, true => ⟨splice s.ranges index (index + 1) [(low, high - 1)]⟩
          | false, false =>
            ⟨splice s.ranges index (index + 1) [(low, number - 1), (number + 1, high)]⟩

/-- What `remove_range` keeps of one stored range `(l, h)`. -/
def keepOutside (low high : UInt64) (r : UInt64 × UInt64) : List (UInt64 × UInt64) :=
  if r.2 < low ∨ high < r.1 then [r]
  else (if r.1 < low then [(r.1, low - 1)] else []) ++
    (if high < r.2 then [(high + 1, r.2)] else [])

/-- Marks every number from `low` to `high` unread, splitting ranges as needed. -/
def removeRange (s : ReadSet) (low high : UInt64) : ReadSet :=
  let bounds := ordered low high
  let high := bounds.2
  if high = 0 then s
  else ⟨s.ranges.flatMap (keepOutside (max bounds.1 1) high)⟩

/-- How many numbers in `low..=high` are marked read. -/
def readIn (s : ReadSet) (low high : UInt64) : UInt64 :=
  if high = 0 ∨ high < low then 0
  else
    let low := max low 1
    (s.ranges.filterMap fun r =>
      let start := max r.1 low
      let stop := min r.2 high
      if start ≤ stop then some (stop - start + 1) else none).foldl (· + ·) 0

/-- How many numbers in `low..=high` are *not* marked read. -/
def unreadIn (s : ReadSet) (low high : UInt64) : UInt64 :=
  if high = 0 ∨ high < low then 0
  else
    let low := max low 1
    let span := high - low + 1
    saturatingSub span (s.readIn low high)

/-! ## The invariant -/

/-- `r` ends before `s` starts, with at least one number in between. -/
def Apart (r s : UInt64 × UInt64) : Prop := r.2.toNat + 1 < s.1.toNat

/-- The invariant of the stored ranges: positive, not inverted, ascending, disjoint and not
adjacent. -/
structure Valid (s : ReadSet) : Prop where
  positive : ∀ r ∈ s.ranges, 1 ≤ r.1
  upright : ∀ r ∈ s.ranges, r.1 ≤ r.2
  apart : s.ranges.Pairwise Apart

/-- The numbers a set stands for. -/
def numbers (s : ReadSet) : Set UInt64 := Intervals.members s.ranges

theorem Apart.lt {r s : UInt64 × UInt64} (h : Apart r s) : r.2 < s.1 :=
  UInt64.lt_iff_toNat_lt.mpr (Nat.lt_of_succ_lt h)

theorem Apart.gap {r s : UInt64 × UInt64} (h : Apart r s) : Intervals.Gap r s := by
  have hs := s.1.toNat_lt
  have hsucc : (r.2 + 1).toNat = r.2.toNat + 1 := by
    have : r.2.toNat + 1 < s.1.toNat := h
    rw [UInt64.toNat_add, UInt64.toNat_one]
    omega
  refine ⟨r.2 + 1, ?_, ?_⟩
  · rw [UInt64.lt_iff_toNat_lt, hsucc]; exact Nat.lt_succ_self _
  · rw [UInt64.lt_iff_toNat_lt, hsucc]; exact h

theorem Valid.canonical {s : ReadSet} (h : Valid s) : Intervals.Canonical s.ranges :=
  ⟨h.upright, h.apart.imp Apart.gap⟩

theorem Valid.pos_of_mem {s : ReadSet} (h : Valid s) {n : UInt64} (hn : n ∈ s.numbers) :
    1 ≤ n := by
  obtain ⟨r, hr, hrn, -⟩ := hn
  exact (h.positive r hr).trans hrn

/-- **The numbers determine the value.** -/
theorem Valid.ext {s t : ReadSet} (hs : Valid s) (ht : Valid t)
    (h : s.numbers = t.numbers) : s = t := by
  cases s; cases t
  exact congrArg ReadSet.mk (Intervals.Canonical.ext hs.canonical ht.canonical h)

theorem new_valid : Valid new := ⟨by simp [new], by simp [new], List.Pairwise.nil⟩

@[simp] theorem numbers_new : new.numbers = ∅ := Intervals.members_nil

/-- In a valid set, starts ascend strictly. -/
theorem Valid.starts {s : ReadSet} (h : Valid s) :
    s.ranges.Pairwise fun r t => r.1 < t.1 := by
  refine h.apart.imp_of_mem ?_
  intro r t hr _ hrt
  exact lt_of_le_of_lt (h.upright r hr) hrt.lt

/-- In a valid set, ends ascend strictly. -/
theorem Valid.ends {s : ReadSet} (h : Valid s) :
    s.ranges.Pairwise fun r t => r.2 < t.2 := by
  refine h.apart.imp_of_mem ?_
  intro r t _ ht hrt
  exact lt_of_lt_of_le hrt.lt (h.upright t ht)

/-! ## `contains` -/

/-- A number that some range covers but that is not a start lies in the last range starting below
it, because the earlier ranges end before that one starts. -/
theorem Valid.mem_split {as bs : List (UInt64 × UInt64)} {l r : UInt64 × UInt64} {n : UInt64}
    (h : Valid ⟨as ++ l :: bs⟩) (hl : l.1 ≤ n) (hbs : ∀ b ∈ bs, n < b.1)
    (hr : r ∈ as ++ l :: bs) (hrn : r.1 ≤ n ∧ n ≤ r.2) : r = l := by
  rcases List.mem_append.mp hr with hr | hr
  · have hap := (List.pairwise_append.mp h.apart).2.2 r hr l (by simp)
    exact absurd (lt_of_le_of_lt hrn.2 hap.lt) (not_lt.mpr hl)
  · rcases List.mem_cons.mp hr with rfl | hr
    · rfl
    · exact absurd hrn.1 (not_le.mpr (hbs r hr))

/-- Where a search lands between the ranges `as`, starting below `n`, and the ranges `bs`, starting
above it, the last of `as` decides. -/
theorem contains_below {as bs : List (UInt64 × UInt64)} {n : UInt64}
    (has : ∀ a ∈ as, a.1 < n) (hbs : ∀ b ∈ bs, n < b.1) (h : Valid ⟨as ++ bs⟩) :
    (match (Except.error as.length : Except Nat Nat) with
      | .ok _ => true
      | .error 0 => false
      | .error (index + 1) => (as ++ bs)[index]?.any fun r => decide (n ≤ r.2)) = true ↔
      n ∈ (ReadSet.mk (as ++ bs)).numbers := by
  rcases List.eq_nil_or_concat as with rfl | ⟨as, l, rfl⟩
  · simp only [List.length_nil, Bool.false_eq_true, List.nil_append, false_iff]
    rintro ⟨r, hr, hrn, -⟩
    exact absurd hrn (not_le.mpr (hbs r hr))
  · rw [List.concat_eq_append] at has h ⊢
    rw [List.append_assoc, List.singleton_append] at h ⊢
    have hl : l.1 < n := has l (by simp)
    have hget : (as ++ l :: bs)[as.length]? = some l := by simp
    simp only [List.length_append, List.length_cons, List.length_nil, Nat.zero_add, hget,
      Option.any_some, decide_eq_true_eq]
    constructor
    · intro hle
      exact ⟨l, by simp, hl.le, hle⟩
    · rintro ⟨r, hr, hrn⟩
      exact (Valid.mem_split h hl.le hbs hr hrn) ▸ hrn.2

/-- **`contains` is membership.** -/
theorem contains_iff {s : ReadSet} (h : Valid s) (n : UInt64) :
    s.contains n = true ↔ n ∈ s.numbers := by
  by_cases hn : n = 0
  · subst hn
    have : (0 : UInt64) ∉ s.numbers := fun hm => absurd (h.pos_of_mem hm) (by decide)
    simp [contains, this]
  obtain ⟨as, bs, hsplit, has, hbs, hsearch⟩ :=
    binarySearchByKey_spec (·.1) n h.starts (fun a b hab hb => hab.trans hb)
  obtain ⟨ranges⟩ := s
  simp only at hsplit
  subst hsplit
  unfold contains
  rw [if_neg hn, hsearch]
  cases bs with
  | nil => exact contains_below has (by simp) h
  | cons b bs =>
      by_cases hbn : b.1 = n
      · -- `n` starts a stored range
        simp only [hbn, ↓reduceIte, true_iff]
        exact ⟨b, by simp, hbn.le, hbn ▸ h.upright b (by simp)⟩
      · have hnb : n < b.1 := lt_of_le_of_ne (not_lt.mp (hbs b (by simp))) (Ne.symm hbn)
        have htail := (List.pairwise_cons.mp (List.pairwise_append.mp h.starts).2.1).1
        have habove : ∀ c ∈ b :: bs, n < c.1 := by
          intro c hc
          rcases List.mem_cons.mp hc with rfl | hc
          · exact hnb
          · exact hnb.trans (htail c hc)
        simp only [hbn, ↓reduceIte]
        exact contains_below has habove h

/-! ## Insertion -/

theorem ordered_fst (low high : UInt64) : (ordered low high).1 = min low high := by
  unfold ordered; split <;> simp_all [le_of_lt]

theorem ordered_snd (low high : UInt64) : (ordered low high).2 = max low high := by
  unfold ordered; split <;> simp_all [le_of_lt]

/-- `r` overlaps the range `acc` or is adjacent to it. -/
def Touches (acc r : UInt64 × UInt64) : Prop :=
  acc.1.toNat ≤ r.2.toNat + 1 ∧ r.1.toNat ≤ acc.2.toNat + 1

/-- One step of the merge loop of `insert_range`. -/
def mergeStep (acc r : UInt64 × UInt64) : UInt64 × UInt64 := (min acc.1 r.1, max acc.2 r.2)

/-- Merging a range that touches covers what the two covered, and nothing else: there is no number
between them to add. -/
theorem mem_mergeStep {acc r : UInt64 × UInt64} (h : Touches acc r) (n : UInt64) :
    ((mergeStep acc r).1 ≤ n ∧ n ≤ (mergeStep acc r).2) ↔
      (acc.1 ≤ n ∧ n ≤ acc.2) ∨ (r.1 ≤ n ∧ n ≤ r.2) := by
  obtain ⟨h1, h2⟩ := h
  simp only [mergeStep, min_le_iff, le_max_iff, UInt64.le_iff_toNat_le] at *
  omega

/-- What the merge loop arrives at: a range that covers the new one and every range it went
through, and whose bounds are bounds of one of these. -/
theorem foldl_mergeStep (ms : List (UInt64 × UInt64)) :
    ∀ acc : UInt64 × UInt64, acc.1 ≤ acc.2 → (∀ r ∈ ms, r.1 ≤ r.2) → (∀ r ∈ ms, Touches acc r) →
      let m := ms.foldl mergeStep acc
      m.1 ≤ m.2 ∧ (∀ n, (m.1 ≤ n ∧ n ≤ m.2) ↔
        (acc.1 ≤ n ∧ n ≤ acc.2) ∨ n ∈ Intervals.members ms) ∧
      (m.1 = acc.1 ∨ ∃ r ∈ ms, m.1 = r.1) ∧ (m.2 = acc.2 ∨ ∃ r ∈ ms, m.2 = r.2) := by
  induction ms with
  | nil =>
      intro acc hacc _ _
      exact ⟨hacc, fun n => by simp, Or.inl rfl, Or.inl rfl⟩
  | cons r ms ih =>
      intro acc hacc hup htouch
      have hstep : (mergeStep acc r).1 ≤ (mergeStep acc r).2 :=
        (min_le_left _ _).trans (hacc.trans (le_max_left _ _))
      have htouch' : ∀ q ∈ ms, Touches (mergeStep acc r) q := by
        intro q hq
        obtain ⟨h1, h2⟩ := htouch q (by simp [hq])
        have hlow : (mergeStep acc r).1 ≤ acc.1 := min_le_left _ _
        have hhigh : acc.2 ≤ (mergeStep acc r).2 := le_max_left _ _
        rw [UInt64.le_iff_toNat_le] at hlow hhigh
        exact ⟨hlow.trans h1, by omega⟩
      obtain ⟨hle, hmem, hlo, hhi⟩ :=
        ih (mergeStep acc r) hstep (fun q hq => hup q (by simp [hq])) htouch'
      refine ⟨hle, fun n => ?_, ?_, ?_⟩
      · rw [List.foldl_cons, hmem n, mem_mergeStep (htouch r (by simp)) n,
          Intervals.members_cons]
        exact or_assoc
      · rcases hlo with hlo | ⟨q, hq, hlo⟩
        · rcases min_choice acc.1 r.1 with hmin | hmin
          · exact Or.inl (hlo.trans hmin)
          · exact Or.inr ⟨r, by simp, hlo.trans hmin⟩
        · exact Or.inr ⟨q, by simp [hq], hlo⟩
      · rcases hhi with hhi | ⟨q, hq, hhi⟩
        · rcases max_choice acc.2 r.2 with hmax | hmax
          · exact Or.inl (hhi.trans hmax)
          · exact Or.inr ⟨r, by simp, hhi.trans hmax⟩
        · exact Or.inr ⟨q, by simp [hq], hhi⟩

/-- The shape every insertion produces: the ranges before the new one, one merged range, the ranges
after it. -/
theorem placed {as ms cs : List (UInt64 × UInt64)} {acc : UInt64 × UInt64}
    (h : Valid ⟨as ++ ms ++ cs⟩) (hpos : 1 ≤ acc.1) (hacc : acc.1 ≤ acc.2)
    (has : ∀ a ∈ as, Apart a acc) (hms : ∀ m ∈ ms, Touches acc m) (hcs : ∀ c ∈ cs, Apart acc c) :
    Valid ⟨as ++ [ms.foldl mergeStep acc] ++ cs⟩ ∧
      ∀ n, n ∈ (ReadSet.mk (as ++ [ms.foldl mergeStep acc] ++ cs)).numbers ↔
        n ∈ (ReadSet.mk (as ++ ms ++ cs)).numbers ∨ (acc.1 ≤ n ∧ n ≤ acc.2) := by
  obtain ⟨hup, hmem, hlo, hhi⟩ :=
    foldl_mergeStep ms acc hacc (fun r hr => h.upright r (by simp [hr])) hms
  generalize ms.foldl mergeStep acc = m at hup hmem hlo hhi ⊢
  obtain ⟨hasms, hcsp, hall⟩ := List.pairwise_append.mp h.apart
  obtain ⟨hasp, -, hasm⟩ := List.pairwise_append.mp hasms
  have hbefore : ∀ a ∈ as, Apart a m := by
    intro a ha
    rcases hlo with hlo | ⟨r, hr, hlo⟩
    · rw [Apart, hlo]; exact has a ha
    · rw [Apart, hlo]; exact hasm a ha r hr
  have hafter : ∀ c ∈ cs, Apart m c := by
    intro c hc
    rcases hhi with hhi | ⟨r, hr, hhi⟩
    · rw [Apart, hhi]; exact hcs c hc
    · rw [Apart, hhi]; exact hall r (by simp [hr]) c hc
  have hmpos : 1 ≤ m.1 := by
    rcases hlo with hlo | ⟨r, hr, hlo⟩
    · exact hlo ▸ hpos
    · exact hlo ▸ h.positive r (by simp [hr])
  refine ⟨⟨?_, ?_, ?_⟩, fun n => ?_⟩
  · intro r hr
    simp only [List.mem_append, List.mem_singleton] at hr
    rcases hr with (hr | rfl) | hr
    · exact h.positive r (by simp [hr])
    · exact hmpos
    · exact h.positive r (by simp [hr])
  · intro r hr
    simp only [List.mem_append, List.mem_singleton] at hr
    rcases hr with (hr | rfl) | hr
    · exact h.upright r (by simp [hr])
    · exact hup
    · exact h.upright r (by simp [hr])
  · refine List.pairwise_append.mpr ⟨List.pairwise_append.mpr ⟨hasp, by simp, ?_⟩, hcsp, ?_⟩
    · intro a ha r hr
      rw [List.mem_singleton.mp hr]
      exact hbefore a ha
    · intro r hr c hc
      rcases List.mem_append.mp hr with hr | hr
      · exact hall r (by simp [hr]) c hc
      · rw [List.mem_singleton.mp hr]
        exact hafter c hc
  · unfold numbers
    simp only [Intervals.members_append, Intervals.members_cons, Intervals.members_nil,
      Set.union_empty, Set.mem_union, Set.mem_Icc]
    rw [hmem n]
    tauto

/-- What `insert_range` does to a valid set. -/
theorem insertRange_spec {s : ReadSet} (h : Valid s) (low high : UInt64) :
    Valid (s.insertRange low high) ∧ ∀ n, n ∈ (s.insertRange low high).numbers ↔
      n ∈ s.numbers ∨ (min low high ≤ n ∧ n ≤ max low high ∧ 1 ≤ n) := by
  unfold insertRange
  simp only [ordered_fst, ordered_snd]
  split
  · next hzero =>
      refine ⟨h, fun n => ?_⟩
      rw [hzero]
      constructor
      · exact Or.inl
      · rintro (hn | ⟨-, hn0, hn1⟩)
        · exact hn
        · exact absurd (hn1.trans hn0) (by decide)
  next hzero =>
  -- `acc` is the range to insert, `from_` and `to_` the numbers next to it
  have hlow : min low high ≤ max low high := (min_le_left _ _).trans (le_max_left _ _)
  generalize min low high = lo at hlow ⊢
  generalize max low high = hi at hlow hzero ⊢
  have hpos : 1 ≤ max lo 1 := le_max_right _ _
  have hacc : max lo 1 ≤ hi := by
    refine max_le hlow ?_
    rw [UInt64.le_iff_toNat_le, UInt64.toNat_one]
    exact Nat.pos_of_ne_zero fun h0 => hzero (UInt64.toNat_inj.mp (by simpa using h0))
  have hfrom := toNat_saturatingSub (max lo 1) 1
  have hto := toNat_saturatingAdd hi 1
  rw [UInt64.toNat_one] at hfrom hto
  have hIcc : ∀ n, (max lo 1 ≤ n ∧ n ≤ hi) ↔ (lo ≤ n ∧ n ≤ hi ∧ 1 ≤ n) := by
    intro n; rw [max_le_iff]; tauto
  generalize max lo 1 = acc at hpos hacc hfrom hIcc ⊢
  generalize saturatingSub acc 1 = from_ at hfrom ⊢
  generalize saturatingAdd hi 1 = to_ at hto ⊢
  obtain ⟨as, bs, hsplit, hfirst, has, hbs⟩ :=
    partitionPoint_spec (p := fun r => decide (r.2 < from_)) h.ends
      (fun a b hab hb => by simpa using lt_trans hab (by simpa using hb))
  obtain ⟨ranges⟩ := s
  simp only at hsplit
  subst hsplit
  have hbsup : bs.Pairwise fun r t => r.1 < t.1 := (List.pairwise_append.mp h.starts).2.1
  obtain ⟨ms, cs, rfl, hlast, hms, hcs⟩ :=
    partitionPoint_spec (p := fun r => decide (r.1 ≤ to_)) hbsup
      (fun a b hab hb => by simpa using hab.le.trans (by simpa using hb))
  have hbefore : ∀ a ∈ as, Apart a (acc, hi) := by
    intro a ha
    have := has a ha
    simp only [decide_eq_true_eq, UInt64.lt_iff_toNat_lt, hfrom] at this
    show a.2.toNat + 1 < acc.toNat
    omega
  have hlast' : partitionPoint (fun r => decide (r.1 ≤ to_)) (as ++ (ms ++ cs)) =
      as.length + ms.length := by
    rw [partitionPoint_append _ (ms ++ cs), hlast]
    intro a ha
    have h1 := h.upright a (by simp [ha])
    have h2 : a.2.toNat + 1 < acc.toNat := hbefore a ha
    simp only [decide_eq_true_eq, UInt64.le_iff_toNat_le, hto] at h1 hacc ⊢
    have := acc.toNat_lt
    omega
  have htouch : ∀ m ∈ ms, Touches (acc, hi) m := by
    intro m hm
    have h1 := hms m hm
    have h2 := hbs m (by simp [hm])
    simp only [decide_eq_true_eq, decide_eq_false_iff_not, UInt64.lt_iff_toNat_lt,
      UInt64.le_iff_toNat_le, hfrom, hto] at h1 h2
    exact ⟨by simp only; omega, by simp only; omega⟩
  have hafter : ∀ c ∈ cs, Apart (acc, hi) c := by
    intro c hc
    have h1 := hcs c hc
    have h2 := c.1.toNat_lt
    simp only [decide_eq_false_iff_not, UInt64.le_iff_toNat_le, hto] at h1
    show hi.toNat + 1 < c.1.toNat
    omega
  rw [hfirst, hlast']
  rw [← List.append_assoc] at h ⊢
  obtain ⟨hvalid, hnum⟩ := placed h hpos hacc hbefore htouch hafter
  simp only [hIcc] at hnum
  have hres : (if as.length + ms.length ≤ as.length then
      (⟨splice (as ++ ms ++ cs) as.length as.length [(acc, hi)]⟩ : ReadSet)
      else ⟨splice (as ++ ms ++ cs) as.length (as.length + ms.length)
        [((((as ++ ms ++ cs).drop as.length).take (as.length + ms.length - as.length)).foldl
          (fun acc r => (min acc.1 r.1, max acc.2 r.2)) (acc, hi))]⟩) =
      ⟨as ++ [ms.foldl mergeStep (acc, hi)] ++ cs⟩ := by
    split
    · next hle =>
        have : ms = [] := List.length_eq_zero_iff.mp (by omega)
        subst this
        have := splice_append as [] cs [(acc, hi)]
        simpa using this
    · have hmid : ((as ++ ms ++ cs).drop as.length).take (as.length + ms.length - as.length) = ms := by
        rw [List.append_assoc, List.drop_left, Nat.add_sub_cancel_left, List.take_left]
      rw [hmid, ← List.length_append, splice_append]
      rfl
  rw [hres]
  exact ⟨hvalid, hnum⟩

/-! ## Removal -/

/-- What is kept of a range is the right way round and inside it. -/
theorem mem_keepOutside {low high : UInt64} (hlh : low ≤ high) {r p : UInt64 × UInt64}
    (hr : r.1 ≤ r.2) (hp : p ∈ keepOutside low high r) : r.1 ≤ p.1 ∧ p.1 ≤ p.2 ∧ p.2 ≤ r.2 := by
  unfold keepOutside at hp
  grind

/-- The pieces kept of one range have the removed numbers between them. -/
theorem keepOutside_apart {low high : UInt64} (hlh : low ≤ high) (r : UInt64 × UInt64) :
    (keepOutside low high r).Pairwise Apart := by
  unfold keepOutside
  split
  · exact List.pairwise_singleton _ _
  · next hin =>
      by_cases hlow : r.1 < low <;> by_cases hhigh : high < r.2
      · have hpred : low - 1 < low ∧ low - 1 + 1 = low := by grind
        have hsucc : high < high + 1 := by grind
        have hapart : Apart (r.1, low - 1) (high + 1, r.2) := by
          show (low - 1).toNat + 1 < (high + 1).toNat
          have := UInt64.toNat_sub_of_le low 1 (by grind)
          have := r.1.toNat_lt
          simp only [UInt64.lt_iff_toNat_lt, UInt64.le_iff_toNat_le, UInt64.toNat_one] at *
          omega
        simp [hlow, hhigh, hapart]
      · simp [hlow, hhigh]
      · simp [hlow, hhigh]
      · simp [hlow, hhigh]

/-- The pieces kept of one range cover what it covered outside the removed numbers. -/
theorem covered_keepOutside {low high : UInt64} (hlh : low ≤ high) {r : UInt64 × UInt64}
    (n : UInt64) : (∃ p ∈ keepOutside low high r, p.1 ≤ n ∧ n ≤ p.2) ↔
      (r.1 ≤ n ∧ n ≤ r.2) ∧ ¬(low ≤ n ∧ n ≤ high) := by
  unfold keepOutside
  split
  · next hout => simp; grind
  · next hin =>
      by_cases hlow : r.1 < low <;> by_cases hhigh : high < r.2 <;>
        simp [hlow, hhigh] <;> grind

/-- What `remove_range` does to a valid set. -/
theorem removeRange_spec {s : ReadSet} (h : Valid s) (low high : UInt64) :
    Valid (s.removeRange low high) ∧ ∀ n, n ∈ (s.removeRange low high).numbers ↔
      n ∈ s.numbers ∧ ¬(min low high ≤ n ∧ n ≤ max low high) := by
  unfold removeRange
  simp only [ordered_fst, ordered_snd]
  split
  · next hzero =>
      refine ⟨h, fun n => ⟨fun hn => ⟨hn, ?_⟩, And.left⟩⟩
      rw [hzero]
      rintro ⟨-, hn0⟩
      exact absurd ((h.pos_of_mem hn).trans hn0) (by decide)
  next hzero =>
  have hle : min low high ≤ max low high := (min_le_left _ _).trans (le_max_left _ _)
  generalize min low high = lo at hle ⊢
  generalize max low high = hi at hle hzero ⊢
  have hlh : max lo 1 ≤ hi := max_le hle (by grind)
  refine ⟨⟨?_, ?_, ?_⟩, fun n => ?_⟩
  · intro p hp
    obtain ⟨r, hr, hp⟩ := List.mem_flatMap.mp hp
    exact (h.positive r hr).trans (mem_keepOutside hlh (h.upright r hr) hp).1
  · intro p hp
    obtain ⟨r, hr, hp⟩ := List.mem_flatMap.mp hp
    exact (mem_keepOutside hlh (h.upright r hr) hp).2.1
  · refine List.pairwise_flatMap.mpr ⟨fun r _ => keepOutside_apart hlh r, ?_⟩
    refine h.apart.imp_of_mem ?_
    intro r t hr ht hrt p hp q hq
    have hpr := (mem_keepOutside hlh (h.upright r hr) hp).2.2
    have hqt := (mem_keepOutside hlh (h.upright t ht) hq).1
    rw [UInt64.le_iff_toNat_le] at hpr hqt
    have : r.2.toNat + 1 < t.1.toNat := hrt
    show p.2.toNat + 1 < q.1.toNat
    omega
  · constructor
    · rintro ⟨p, hp, hpn⟩
      obtain ⟨r, hr, hp⟩ := List.mem_flatMap.mp hp
      obtain ⟨hrn, hout⟩ := (covered_keepOutside hlh n).mp ⟨p, hp, hpn⟩
      refine ⟨⟨r, hr, hrn⟩, fun hin => hout ⟨max_le hin.1 ?_, hin.2⟩⟩
      exact (h.positive r hr).trans hrn.1
    · rintro ⟨⟨r, hr, hrn⟩, hout⟩
      obtain ⟨p, hp, hpn⟩ := (covered_keepOutside (r := r) hlh n).mpr
        ⟨hrn, fun hin => hout ⟨(le_max_left _ _).trans hin.1, hin.2⟩⟩
      exact ⟨p, List.mem_flatMap.mpr ⟨r, hr, hp⟩, hpn⟩

/-- Ranges that the removed numbers do not meet are kept as they are. -/
theorem flatMap_keepOutside_of_away {low high : UInt64} {rs : List (UInt64 × UInt64)}
    (h : ∀ r ∈ rs, r.2 < low ∨ high < r.1) : rs.flatMap (keepOutside low high) = rs := by
  induction rs with
  | nil => rfl
  | cons r rs ih =>
      have hr : keepOutside low high r = [r] := if_pos (h r (by simp))
      rw [List.flatMap_cons, hr, ih fun q hq => h q (by simp [hq])]
      rfl

/-- Removing one number from the range `l` it may lie in: `remove`'s four cases are what
`remove_range` keeps of that range. -/
theorem remove_from {as bs : List (UInt64 × UInt64)} {l : UInt64 × UInt64} {n : UInt64} :
    (if n < l.1 ∨ l.2 < n then (⟨as ++ l :: bs⟩ : ReadSet)
      else match decide (n = l.1), decide (n = l.2) with
        | true, true => ⟨splice (as ++ l :: bs) as.length (as.length + 1) []⟩
        | true, false => ⟨splice (as ++ l :: bs) as.length (as.length + 1) [(l.1 + 1, l.2)]⟩
        | false, true => ⟨splice (as ++ l :: bs) as.length (as.length + 1) [(l.1, l.2 - 1)]⟩
        | false, false => ⟨splice (as ++ l :: bs) as.length (as.length + 1)
            [(l.1, n - 1), (n + 1, l.2)]⟩) =
      ⟨as ++ keepOutside n n l ++ bs⟩ := by
  simp only [splice_middle]
  unfold keepOutside
  split
  · next hout =>
      have : l.2 < n ∨ n < l.1 := hout.symm
      simp [this]
  · next hin =>
      have hin' : ¬(l.2 < n ∨ n < l.1) := fun hor => hin hor.symm
      by_cases hlow : n = l.1 <;> by_cases hhigh : n = l.2
      · grind
      · grind
      · grind
      · grind

/-- Only the last range starting at or below `n` can be touched by removing `n`. -/
theorem flatMap_keepOutside_at {as bs : List (UInt64 × UInt64)} {l : UInt64 × UInt64} {n : UInt64}
    (h : Valid ⟨as ++ l :: bs⟩) (hl : l.1 ≤ n) (hbs : ∀ b ∈ bs, n < b.1) :
    (as ++ l :: bs).flatMap (keepOutside n n) = as ++ keepOutside n n l ++ bs := by
  have has : ∀ a ∈ as, a.2 < n ∨ n < a.1 := by
    intro a ha
    have hap := (List.pairwise_append.mp h.apart).2.2 a ha l (by simp)
    exact Or.inl (lt_of_lt_of_le hap.lt hl)
  rw [List.flatMap_append, List.flatMap_cons, flatMap_keepOutside_of_away has,
    flatMap_keepOutside_of_away fun b hb => Or.inr (hbs b hb), List.append_assoc]

/-- `remove` is `remove_range` of one number. -/
theorem remove_eq_removeRange {s : ReadSet} (h : Valid s) (n : UInt64) :
    s.remove n = s.removeRange n n := by
  unfold remove removeRange
  simp only [ordered_fst, ordered_snd, min_self, max_self]
  split
  · rfl
  next hn =>
  have hmax : max n 1 = n := max_eq_left (by grind)
  rw [hmax]
  obtain ⟨as, bs, hsplit, has, hbs, hsearch⟩ :=
    binarySearchByKey_spec (·.1) n h.starts (fun a b hab hb => hab.trans hb)
  obtain ⟨ranges⟩ := s
  simp only at hsplit
  subst hsplit
  -- `n` starts the range `b`
  have hstart : ∀ b bs', bs = b :: bs' → b.1 = n → ∀ c ∈ bs', n < c.1 := by
    rintro b bs' rfl rfl c hc
    exact (List.pairwise_cons.mp (List.pairwise_append.mp h.starts).2.1).1 c hc
  -- no range starts at `n`
  have habove : (∀ b bs', bs = b :: bs' → b.1 ≠ n) → ∀ c ∈ bs, n < c.1 := by
    intro hne c hc
    cases bs with
    | nil => simp at hc
    | cons b bs =>
        have hnb : n < b.1 :=
          lt_of_le_of_ne (not_lt.mp (hbs b (by simp))) (Ne.symm (hne b bs rfl))
        rcases List.mem_cons.mp hc with rfl | hc
        · exact hnb
        · exact hnb.trans
            ((List.pairwise_cons.mp (List.pairwise_append.mp h.starts).2.1).1 c hc)
  by_cases hfound : ∃ b bs', bs = b :: bs' ∧ b.1 = n
  · obtain ⟨b, bs, rfl, hb⟩ := hfound
    have hget : (as ++ b :: bs)[as.length]? = some b := by simp
    simp only [hb, ↓reduceIte] at hsearch
    rw [hsearch, flatMap_keepOutside_at h hb.le (hstart b bs rfl hb), ← remove_from]
    simp only [hget]
  · have hlate := habove fun b bs' hbs hb => hfound ⟨b, bs', hbs, hb⟩
    have hsearch' : binarySearchByKey (·.1) n (as ++ bs) = .error as.length := by
      cases bs with
      | nil => exact hsearch
      | cons b bs => rw [hsearch]; exact if_neg (hlate b (by simp)).ne'
    rw [hsearch']
    rcases List.eq_nil_or_concat as with rfl | ⟨as, l, rfl⟩
    · rw [List.nil_append, flatMap_keepOutside_of_away fun b hb => Or.inr (hlate b hb)]
      rfl
    · rw [List.concat_eq_append] at has h ⊢
      rw [List.append_assoc, List.singleton_append] at h ⊢
      have hl : l.1 < n := has l (by simp)
      have hget : (as ++ l :: bs)[as.length]? = some l := by simp
      rw [flatMap_keepOutside_at h hl.le hlate, ← remove_from]
      simp only [List.length_append, List.length_cons, List.length_nil, Nat.zero_add, hget]

/-! ## Runs -/

/-- One change to a set, with the arguments it is called with. -/
inductive Op where
  | insert (number : UInt64)
  | insertRange (low high : UInt64)
  | remove (number : UInt64)
  | removeRange (low high : UInt64)
  deriving DecidableEq, Repr

namespace Op

def apply (s : ReadSet) : Op → ReadSet
  | .insert number => s.insert number
  | .insertRange low high => s.insertRange low high
  | .remove number => s.remove number
  | .removeRange low high => s.removeRange low high

/-- The same change to a set of numbers. -/
def onSet (A : Set UInt64) : Op → Set UInt64
  | .insert number => A ∪ {number}
  | .insertRange low high => A ∪ Set.Icc (min low high) (max low high)
  | .remove number => A \ {number}
  | .removeRange low high => A \ Set.Icc (min low high) (max low high)

/-- Every operation keeps the invariant and acts on the positive numbers as the set operation. -/
theorem apply_spec {s : ReadSet} {A : Set UInt64} (h : Valid s)
    (hA : ∀ n, n ∈ s.numbers ↔ 1 ≤ n ∧ n ∈ A) (op : Op) :
    Valid (op.apply s) ∧ ∀ n, n ∈ (op.apply s).numbers ↔ 1 ≤ n ∧ n ∈ op.onSet A := by
  cases op with
  | insert number =>
      obtain ⟨hv, hm⟩ := insertRange_spec h number number
      refine ⟨hv, fun n => ?_⟩
      rw [apply, ReadSet.insert, hm n, hA n]
      simp only [min_self, max_self, onSet, Set.mem_union, Set.mem_singleton_iff]
      grind
  | insertRange low high =>
      obtain ⟨hv, hm⟩ := insertRange_spec h low high
      refine ⟨hv, fun n => ?_⟩
      rw [apply, hm n, hA n, onSet, Set.mem_union, Set.mem_Icc]
      tauto
  | remove number =>
      obtain ⟨hv, hm⟩ := removeRange_spec h number number
      rw [apply, remove_eq_removeRange h]
      refine ⟨hv, fun n => ?_⟩
      rw [hm n, hA n]
      simp only [min_self, max_self, onSet, Set.mem_sdiff, Set.mem_singleton_iff]
      grind
  | removeRange low high =>
      obtain ⟨hv, hm⟩ := removeRange_spec h low high
      refine ⟨hv, fun n => ?_⟩
      rw [apply, hm n, hA n, onSet, Set.mem_sdiff, Set.mem_Icc]
      tauto

end Op

/-- The set a sequence of operations builds from nothing read. -/
def run (ops : List Op) : ReadSet := ops.foldl Op.apply new

/-- The numbers the same sequence builds from the empty set. -/
def runOnSet (ops : List Op) : Set UInt64 := ops.foldl Op.onSet ∅

theorem run_spec (ops : List Op) :
    Valid (run ops) ∧ ∀ n, n ∈ (run ops).numbers ↔ 1 ≤ n ∧ n ∈ runOnSet ops := by
  have hfold : ∀ (ops : List Op) (s : ReadSet) (A : Set UInt64), Valid s →
      (∀ n, n ∈ s.numbers ↔ 1 ≤ n ∧ n ∈ A) →
      Valid (ops.foldl Op.apply s) ∧
        ∀ n, n ∈ (ops.foldl Op.apply s).numbers ↔ 1 ≤ n ∧ n ∈ ops.foldl Op.onSet A := by
    intro ops
    induction ops with
    | nil => exact fun s A h hA => ⟨h, hA⟩
    | cons op ops ih =>
        intro s A h hA
        obtain ⟨h', hA'⟩ := Op.apply_spec h hA op
        exact ih (op.apply s) (op.onSet A) h' hA'
  exact hfold ops new ∅ new_valid (fun n => by simp)

/-- **`ReadSet` is a set of positive article numbers.** After any sequence of operations the stored
ranges are positive, upright, ascending, disjoint and not adjacent; `contains` is membership in the
set the same unions and differences build; and two sequences that leave the same members leave the
same value. -/
theorem readSet_refines_set (ops : List Op) :
    Valid (run ops) ∧
    (∀ n, (run ops).contains n = true ↔ 1 ≤ n ∧ n ∈ runOnSet ops) ∧
    ∀ ops' : List Op, (∀ n, (run ops).contains n = (run ops').contains n) → run ops = run ops' := by
  obtain ⟨hvalid, hmem⟩ := run_spec ops
  refine ⟨hvalid, fun n => (contains_iff hvalid n).trans (hmem n), fun ops' hsame => ?_⟩
  obtain ⟨hvalid', -⟩ := run_spec ops'
  refine hvalid.ext hvalid' (Set.ext fun n => ?_)
  rw [← contains_iff hvalid, ← contains_iff hvalid', hsame n]

end ReadSet

end Nntp.Tui
