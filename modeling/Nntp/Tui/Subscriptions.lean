import Nntp.Proto.Wildmat
import Nntp.Proto.Group

/-!
# Subscriptions

How the worker narrows the group list: `batch_patterns` splits a subscription list into `LIST`
commands, and `list_all_and_filter` applies it here when the server takes no pattern.

The configuration documents a subscription list as one list in which the last pattern that matches a
group decides (`selected`). Neither function reads it that way: the batches are answered separately
and their answers united, and the local filter tests the patterns one at a time. What each of them
does agree with is stated here exactly.
-/

namespace Nntp.Tui

open Nntp.Lib Nntp.Proto

/-- Whether a group is selected by a subscription list: read as one comma-separated wildmat, in which
the last sub-pattern that matches decides. No patterns select everything. -/
def selected (patterns : List Wildmat) (name : Str) : Bool :=
  patterns.isEmpty || matchesText (joinText (patterns.map (·.asStr))) name

/-! ## `batch_patterns` -/

/-- The variables of the loop of `batch_patterns`. -/
structure Batching where
  batches : List (Option Wildmat)
  current : List Wildmat
  length : Nat

/-- `Wildmat::join(&current).ok().flatten()`. -/
def joined (current : List Wildmat) : Option Wildmat := (Wildmat.join current).toOption.join

/-- One turn of the loop. -/
def Batching.add (b : Batching) (pattern : Wildmat) : Batching :=
  let comma := fun current : List Wildmat => if current.isEmpty then 0 else 1
  let addition := utf8Len pattern.asStr + comma b.current
  let b :=
    if !b.current.isEmpty && decide (Wildmat.maxLen < b.length + addition) then
      { batches := b.batches ++ [joined b.current], current := [], length := 0 }
    else b
  { b with
    length := b.length + (utf8Len pattern.asStr + comma b.current)
    current := b.current ++ [pattern] }

/-- Groups patterns into as few `LIST` commands as the command line allows. -/
def batchPatterns (patterns : List Wildmat) : List (Option Wildmat) :=
  if patterns.isEmpty then [none]
  else
    let b := patterns.foldl Batching.add ⟨[], [], 0⟩
    let batches := if b.current.isEmpty then b.batches else b.batches ++ [joined b.current]
    let batches := batches.filter Option.isSome
    if batches.isEmpty then [none] else batches

/-- Whether a `LIST` with this argument lists the group. -/
def keeps (batch : Option Wildmat) (name : Str) : Bool := batch.all fun w => w.matchesName name

/-! ## Command lines -/

/-- The first entry of the command line that carries entry `i`, from the lengths of the entries: an
entry begins a new line where the text joined so far would become too long with it. -/
def lineStart (lens : List Nat) : Nat → Nat
  | 0 => 0
  | i + 1 =>
      if joinedLen ((lens.take (i + 2)).drop (lineStart lens i)) ≤ Wildmat.maxLen then
        lineStart lens i
      else i + 1

theorem lineStart_le (lens : List Nat) (i : Nat) : lineStart lens i ≤ i := by
  induction i with
  | zero => exact Nat.le_refl 0
  | succ i ih =>
      unfold lineStart
      split <;> omega

theorem lineStart_mono (lens : List Nat) {i j : Nat} (h : i ≤ j) :
    lineStart lens i ≤ lineStart lens j := by
  induction h with
  | refl => exact Nat.le_refl _
  | @step j _ ih =>
      refine ih.trans ?_
      have hle := lineStart_le lens j
      show lineStart lens j ≤ lineStart lens (j + 1)
      rw [lineStart]
      split <;> omega

section Packing

variable (patterns : List Wildmat) (name : Str)

/-- The octets each entry takes. -/
def entryLens : List Nat := patterns.map fun w => utf8Len w.asStr

/-- What each entry by itself says about a group. -/
def rulings : List (Option Bool) := patterns.map fun w => ruling name w.asStr

/-- Entry `i` keeps the group, and no later entry on the same command line excludes it. -/
def KeptOnItsLine (i : Nat) : Prop :=
  (rulings patterns name)[i]? = some (some true) ∧
    ∀ j > i, lineStart (entryLens patterns) j = lineStart (entryLens patterns) i →
      (rulings patterns name)[j]? ≠ some (some false)

/-- The state of the loop after `count` entries, of which those before `start` are in batches. -/
structure Packed (count start : Nat) (b : Batching) : Prop where
  start_le : start ≤ count
  start_lt : 0 < count → start < count
  current : b.current = (patterns.take count).drop start
  length : b.length = joinedLen (entryLens b.current)
  fits : b.length ≤ Wildmat.maxLen
  line : ∀ i, start ≤ i → i < count → lineStart (entryLens patterns) i = start
  closed : ∀ i < start, lineStart (entryLens patterns) i < start
  spelled : ∀ x ∈ b.batches, x.isSome
  kept : (∃ x ∈ b.batches, keeps x name = true) ↔ ∃ i < start, KeptOnItsLine patterns name i

end Packing

/-- Entries whose text fits make one wildmat. -/
theorem joined_eq {current : List Wildmat} (hne : current ≠ [])
    (hfits : joinedLen (entryLens current) ≤ Wildmat.maxLen) :
    ∃ w, joined current = some w ∧ w.asStr = joinText (current.map (·.asStr)) := by
  obtain ⟨w, hjoin, htext⟩ := Wildmat.join_of_fits hne hfits
  refine ⟨w, ?_, htext⟩
  unfold joined
  rw [hjoin]
  rfl

theorem joined_of_fits {current : List Wildmat} (hne : current ≠ [])
    (hfits : joinedLen (entryLens current) ≤ Wildmat.maxLen) (name : Str) :
    (joined current).isSome ∧
      (keeps (joined current) name = true ↔ lastSome (rulings current name) = some true) := by
  obtain ⟨w, hjoined, htext⟩ := joined_eq hne hfits
  rw [hjoined]
  refine ⟨rfl, ?_⟩
  show matchesText w.asStr name = true ↔ _
  rw [matchesText_iff, htext, ruling_joinText name (by simpa using hne), List.map_map]
  rfl

section Packing

variable {patterns : List Wildmat} {name : Str} {count start : Nat} {b : Batching}

theorem rulings_segment (i : Nat) (h : start + i < count) :
    (rulings ((patterns.take count).drop start) name)[i]? = (rulings patterns name)[start + i]? := by
  simp [rulings, List.getElem?_drop, h]

theorem rulings_segment_none (i : Nat) (h : count ≤ start + i) :
    (rulings ((patterns.take count).drop start) name)[i]? = none := by
  simp [rulings, List.getElem?_drop, List.getElem?_take, Nat.not_lt.mpr h]

/-- The entries collected so far, sent as one command, keep the group exactly when one of them keeps
it on its line, provided the next entry begins a new line. -/
theorem Packed.keeps_current (h : Packed patterns name count start b) (hpos : 0 < count)
    (hcount : count ≤ patterns.length)
    (hnext : count < patterns.length → lineStart (entryLens patterns) count = count) :
    keeps (joined b.current) name = true ↔
      ∃ i, start ≤ i ∧ i < count ∧ KeptOnItsLine patterns name i := by
  have hne : b.current ≠ [] := by
    have := h.start_lt hpos
    intro hnil
    have hlen := congrArg List.length (h.current.symm.trans hnil)
    rw [List.length_drop, List.length_take, List.length_nil] at hlen
    omega
  rw [(joined_of_fits hne (h.length ▸ h.fits) name).2, h.current]
  -- an entry on the line of `i` is collected, or the list ends before it
  have hline : ∀ i j, start ≤ i → i < count → i < j → j < patterns.length →
      lineStart (entryLens patterns) j = lineStart (entryLens patterns) i → j < count := by
    intro i j hi hic hij hj heq
    by_contra hjc
    have hstart := h.line i hi hic
    have := lineStart_mono (entryLens patterns) (show count ≤ j by omega)
    rw [hnext (by omega), heq, hstart] at this
    have := h.start_lt hpos
    omega
  constructor
  · intro hlast
    by_contra hnone
    refine lastSome_ne_true_iff.mpr (fun i hi => ?_) hlast
    have hic : start + i < count := by
      by_contra hge
      rw [rulings_segment_none i (by omega)] at hi
      cases hi
    by_contra hno
    refine hnone ⟨start + i, by omega, hic, ?_, fun j hj heq hfalse => hno ?_⟩
    · rwa [← rulings_segment i hic]
    · have hjlen : j < patterns.length := by
        obtain ⟨hlt, -⟩ := List.getElem?_eq_some_iff.mp hfalse
        simpa [rulings] using hlt
      have hjc := hline (start + i) j (by omega) hic hj hjlen heq
      refine ⟨j - start, by omega, ?_⟩
      rw [rulings_segment (j - start) (by omega), Nat.add_sub_cancel' (by omega)]
      exact hfalse
  · rintro ⟨i, hi, hic, htrue, hafter⟩
    by_contra hlast
    obtain ⟨j, hj, hfalse⟩ := lastSome_ne_true_iff.mp hlast (i - start) (by
      rw [rulings_segment (i - start) (by omega), Nat.add_sub_cancel' hi]
      exact htrue)
    have hjc : start + j < count := by
      by_contra hge
      rw [rulings_segment_none j (by omega)] at hfalse
      cases hfalse
    refine hafter (start + j) (by omega) ?_ (by rwa [← rulings_segment j hjc])
    rw [h.line i hi hic, h.line (start + j) (by omega) hjc]

/-- The octets of the entries collected so far and of the next one. -/
theorem Packed.joinedLen_next (h : Packed patterns name count start b) (hpos : 0 < count)
    (hlt : count < patterns.length) :
    joinedLen (((entryLens patterns).take (count + 1)).drop start) =
      b.length + (utf8Len patterns[count].asStr + 1) := by
  have hcur : entryLens b.current = ((entryLens patterns).take count).drop start := by
    rw [h.current, entryLens, entryLens, List.map_drop, List.map_take]
  have hne : entryLens b.current ≠ [] := by
    have := h.start_lt hpos
    intro hnil
    have hlen := congrArg List.length (hcur.symm.trans hnil)
    simp only [entryLens, List.length_drop, List.length_take, List.length_map,
      List.length_nil] at hlen
    omega
  have hsplit : ((entryLens patterns).take (count + 1)).drop start =
      entryLens b.current ++ [utf8Len patterns[count].asStr] := by
    have hstart := h.start_le
    have hget : (entryLens patterns)[count]? = some (utf8Len patterns[count].asStr) := by
      simp [entryLens, hlt]
    rw [List.take_add_one, hget, hcur, List.drop_append_of_le_length]
    · rfl
    · simp only [entryLens, List.length_take, List.length_map]
      omega
  rw [hsplit, joinedLen_append hne, ← h.length]

/-- The loop adds one entry. -/
theorem Packed.add (h : Packed patterns name count start b) (hlt : count < patterns.length) :
    ∃ start', Packed patterns name (count + 1) start' (b.add patterns[count]) := by
  have hget : patterns[count]? = some patterns[count] := List.getElem?_eq_getElem hlt
  have hwell := (Wildmat.wellFormed_iff.mp patterns[count].wellFormed).1.2
  have htake : ∀ k ≤ count, (patterns.take (count + 1)).drop k =
      (patterns.take count).drop k ++ [patterns[count]] := by
    intro k hk
    rw [List.take_add_one, hget, List.drop_append_of_le_length]
    · rfl
    · rw [List.length_take]
      omega
  rcases Nat.eq_zero_or_pos count with hzero | hpos
  · -- the first entry
    subst hzero
    obtain rfl : start = 0 := Nat.le_zero.mp h.start_le
    have hnil : b.current = [] := by simpa using h.current
    have hlen : b.length = 0 := by rw [h.length, hnil]; rfl
    refine ⟨0, ⟨Nat.zero_le _, fun _ => Nat.succ_pos 0, ?_, ?_, ?_, fun i _ hi => ?_, h.closed, ?_, ?_⟩⟩
    · rw [htake 0 (Nat.le_refl 0)]
      simp [Batching.add, hnil]
    · simp [Batching.add, hnil, hlen, entryLens, joinedLen]
    · simpa [Batching.add, hnil, hlen] using hwell
    · obtain rfl : i = 0 := by omega
      rfl
    · simpa [Batching.add, hnil] using h.spelled
    · simpa [Batching.add, hnil] using h.kept
  · have hstart := h.start_lt hpos
    have hne : b.current ≠ [] := by
      intro hnil
      have hlen := congrArg List.length (h.current.symm.trans hnil)
      rw [List.length_drop, List.length_take, List.length_nil] at hlen
      omega
    have hempty : b.current.isEmpty = false := by simpa using hne
    have hnext := h.joinedLen_next hpos hlt
    have hprev : lineStart (entryLens patterns) (count - 1) = start :=
      h.line (count - 1) (by omega) (by omega)
    have hcount : lineStart (entryLens patterns) count =
        if b.length + (utf8Len patterns[count].asStr + 1) ≤ Wildmat.maxLen then start else count := by
      obtain ⟨k, rfl⟩ : ∃ k, count = k + 1 := ⟨count - 1, by omega⟩
      rw [Nat.add_sub_cancel] at hprev
      rw [lineStart, hprev, hnext]
    by_cases hover : Wildmat.maxLen < b.length + (utf8Len patterns[count].asStr + 1)
    · -- the entry begins a new line
      have hbegin : lineStart (entryLens patterns) count = count := by
        rw [hcount, if_neg (Nat.not_le.mpr hover)]
      have hsent := h.keeps_current hpos hlt.le fun _ => hbegin
      have hspelled := (joined_of_fits hne (h.length ▸ h.fits) name).1
      have hadd : b.add patterns[count] = ⟨b.batches ++ [joined b.current], [patterns[count]],
          utf8Len patterns[count].asStr⟩ := by
        simp [Batching.add, hempty, hover]
      rw [hadd]
      refine ⟨count, ⟨Nat.le_succ _, fun _ => Nat.lt_succ_self _, ?_, ?_, hwell,
        fun i hi hic => ?_, fun i hi => ?_, ?_, ?_⟩⟩
      · rw [htake count (Nat.le_refl _), List.drop_eq_nil_of_le (List.length_take_le _ _)]
        rfl
      · rfl
      · obtain rfl : i = count := by omega
        exact hbegin
      · exact Nat.lt_of_le_of_lt (lineStart_le _ i) hi
      · intro x hx
        rcases List.mem_append.mp hx with hx | hx
        · exact h.spelled x hx
        · rw [List.mem_singleton.mp hx]
          exact hspelled
      · have hsplit : (∃ x ∈ b.batches ++ [joined b.current], keeps x name = true) ↔
            (∃ x ∈ b.batches, keeps x name = true) ∨ keeps (joined b.current) name = true := by
          simp [or_and_right, exists_or]
        rw [hsplit, h.kept, hsent]
        constructor
        · rintro (⟨i, hi, hk⟩ | ⟨i, -, hic, hk⟩)
          · exact ⟨i, by omega, hk⟩
          · exact ⟨i, hic, hk⟩
        · rintro ⟨i, hi, hk⟩
          by_cases his : i < start
          · exact Or.inl ⟨i, his, hk⟩
          · exact Or.inr ⟨i, by omega, hi, hk⟩
    · -- the entry joins the line
      have hjoin : lineStart (entryLens patterns) count = start := by
        rw [hcount, if_pos (Nat.not_lt.mp hover)]
      have hadd : b.add patterns[count] = { b with
          length := b.length + (utf8Len patterns[count].asStr + 1)
          current := b.current ++ [patterns[count]] } := by
        simp [Batching.add, hempty, hover]
      rw [hadd]
      refine ⟨start, ⟨by omega, fun _ => by omega, ?_, ?_, Nat.not_lt.mp hover,
        fun i hi hic => ?_, h.closed, h.spelled, h.kept⟩⟩
      · rw [htake start hstart.le, ← h.current]
      · show b.length + _ = joinedLen (entryLens (b.current ++ [patterns[count]]))
        rw [entryLens, List.map_append, List.map_singleton, joinedLen_append (by simpa using hne),
          h.length]
        rfl
      · rcases Nat.lt_succ_iff_lt_or_eq.mp hic with hic | rfl
        · exact h.line i hi hic
        · exact hjoin

end Packing

/-- The loop over all entries. -/
theorem packed_foldl (patterns : List Wildmat) (name : Str) :
    ∃ start, Packed patterns name patterns.length start
      (patterns.foldl Batching.add ⟨[], [], 0⟩) := by
  have hrun : ∀ k ≤ patterns.length,
      ∃ start, Packed patterns name k start ((patterns.take k).foldl Batching.add ⟨[], [], 0⟩) := by
    intro k
    induction k with
    | zero =>
        intro _
        refine ⟨0, ⟨Nat.le_refl 0, nofun, by simp, rfl, Nat.zero_le _, nofun, nofun, by simp, ?_⟩⟩
        simp
    | succ k ih =>
        intro hk
        obtain ⟨start, h⟩ := ih (by omega)
        obtain ⟨start', h'⟩ := h.add (by omega)
        refine ⟨start', ?_⟩
        rw [List.take_add_one, List.getElem?_eq_getElem (by omega), List.foldl_append]
        exact h'
  have := hrun patterns.length (Nat.le_refl _)
  rwa [List.take_length] at this

/-- Some batch keeps a group exactly when some entry keeps it on its command line. -/
theorem batchPatterns_keeps {patterns : List Wildmat} (hne : patterns ≠ []) (name : Str) :
    (∃ batch ∈ batchPatterns patterns, keeps batch name = true) ↔
      ∃ i, KeptOnItsLine patterns name i := by
  obtain ⟨start, h⟩ := packed_foldl patterns name
  have hpos : 0 < patterns.length := List.length_pos_iff.mpr hne
  have hsent := h.keeps_current hpos (Nat.le_refl _) fun hlt => absurd hlt (Nat.lt_irrefl _)
  generalize hb : patterns.foldl Batching.add ⟨[], [], 0⟩ = b at h hsent
  have hcur : b.current ≠ [] := by
    have := h.start_lt hpos
    intro hnil
    have hlen := congrArg List.length (h.current.symm.trans hnil)
    rw [List.length_drop, List.length_take, List.length_nil] at hlen
    omega
  have hspelled := (joined_of_fits hcur (h.length ▸ h.fits) name).1
  have hall : (b.batches ++ [joined b.current]).filter Option.isSome =
      b.batches ++ [joined b.current] := by
    refine List.filter_eq_self.mpr fun x hx => ?_
    rcases List.mem_append.mp hx with hx | hx
    · exact h.spelled x hx
    · rw [List.mem_singleton.mp hx]
      exact hspelled
  have hbatches : batchPatterns patterns = b.batches ++ [joined b.current] := by
    unfold batchPatterns
    simp [hne, hb, hcur, hall]
  have hsplit : (∃ x ∈ b.batches ++ [joined b.current], keeps x name = true) ↔
      (∃ x ∈ b.batches, keeps x name = true) ∨ keeps (joined b.current) name = true := by
    simp [or_and_right, exists_or]
  rw [hbatches, hsplit, h.kept, hsent]
  constructor
  · rintro (⟨i, -, hk⟩ | ⟨i, -, -, hk⟩)
    · exact ⟨i, hk⟩
    · exact ⟨i, hk⟩
  · rintro ⟨i, hk⟩
    have hi : i < patterns.length := by
      obtain ⟨hlt, -⟩ := List.getElem?_eq_some_iff.mp hk.1
      simpa [rulings] using hlt
    by_cases his : i < start
    · exact Or.inl ⟨i, his, hk⟩
    · exact Or.inr ⟨i, by omega, hi, hk⟩

theorem selected_iff {patterns : List Wildmat} (hne : patterns ≠ []) (name : Str) :
    selected patterns name = true ↔ lastSome (rulings patterns name) = some true := by
  have hempty : patterns.isEmpty = false := by simpa using hne
  unfold selected
  rw [hempty, Bool.false_or, matchesText_iff, ruling_joinText name (by simpa using hne),
    List.map_map]
  rfl

/-- **When splitting a subscription list keeps its meaning.** For a given list and group, some batch
lists the group exactly when the list selects it, if and only if the list does select it or each
entry that keeps it is followed, on its own command line, by an entry that excludes it. -/
theorem batchPatterns_agree_iff (patterns : List Wildmat) (name : Str) :
    ((∃ batch ∈ batchPatterns patterns, keeps batch name = true) ↔ selected patterns name = true) ↔
      (selected patterns name = true ∨
        ∀ i, (rulings patterns name)[i]? = some (some true) →
          ∃ j > i, lineStart (entryLens patterns) j = lineStart (entryLens patterns) i ∧
            (rulings patterns name)[j]? = some (some false)) := by
  by_cases hne : patterns = []
  · subst hne
    simp [batchPatterns, keeps, selected]
  have hkept : (∃ i, KeptOnItsLine patterns name i) ↔
      ¬ ∀ i : Nat, (rulings patterns name)[i]? = some (some true) →
          ∃ j > i, lineStart (entryLens patterns) j = lineStart (entryLens patterns) i ∧
            (rulings patterns name)[j]? = some (some false) := by
    unfold KeptOnItsLine
    push Not
    rfl
  rw [batchPatterns_keeps hne, hkept]
  -- the last entry that rules on the group rules on its own line too
  have hwhole : selected patterns name = true →
      ¬ ∀ i : Nat, (rulings patterns name)[i]? = some (some true) →
          ∃ j > i, lineStart (entryLens patterns) j = lineStart (entryLens patterns) i ∧
            (rulings patterns name)[j]? = some (some false) := by
    intro hsel hall
    obtain ⟨i, hi, hlast⟩ := lastSome_eq_some_iff.mp ((selected_iff hne name).mp hsel)
    obtain ⟨j, hj, -, hfalse⟩ := hall i hi
    cases hlast j hj _ hfalse
  tauto

/-- `comp.*`, and an entry that excludes `comp.os.*` but is too long to travel with it. -/
def splitApart : List Wildmat :=
  [⟨"comp.*".toList, by decide⟩,
    ⟨"!comp.os.*,".toList ++ List.replicate 389 'x', by decide +kernel⟩]

/-- The exclusion is sent in a second command and no longer reaches the first one's answer. -/
theorem batchPatterns_keeps_excluded :
    ¬ ((∃ batch ∈ batchPatterns splitApart, keeps batch "comp.os.linux".toList = true) ↔
      selected splitApart "comp.os.linux".toList = true) := by
  decide +kernel

/-! ## `list_all_and_filter` -/

/-- Whether the filter of `list_all_and_filter` keeps a group. -/
def keptLocally (patterns : List Wildmat) (name : Str) : Bool :=
  patterns.isEmpty || patterns.any fun pattern => pattern.matchesName name

/-- What `list_all_and_filter` returns, of the catalogue it fetched. -/
def filterLocally (patterns : List Wildmat) (all : List ActiveEntry) : List ActiveEntry :=
  all.filter fun entry => keptLocally patterns entry.name.asStr

/-- A server that takes the joined list as its pattern lists the selected groups. -/
theorem keeps_join {patterns : List Wildmat} {batch : Option Wildmat}
    (h : Wildmat.join patterns = .ok batch) (name : Str) :
    keeps batch name = selected patterns name := by
  unfold Wildmat.join Wildmat.parse at h
  unfold selected
  split at h
  · next hempty =>
      cases h
      simp [keeps, hempty]
  · next hempty =>
      split at h
      · cases h
        simp [keeps, hempty, Wildmat.matchesName]
      · cases h

theorem keptLocally_iff {patterns : List Wildmat} (hne : patterns ≠ []) (name : Str) :
    keptLocally patterns name = true ↔ ∃ i : Nat, (rulings patterns name)[i]? = some (some true) := by
  unfold keptLocally
  simp only [Bool.or_eq_true, List.isEmpty_iff, hne, false_or, List.any_eq_true,
    Wildmat.matchesName, matchesText_iff]
  rw [← List.mem_iff_getElem?, rulings, List.mem_map]

/-- **When filtering locally agrees with the server-side pattern.** For a given list and catalogue,
the groups kept here are the ones a server honouring the joined list would have returned, if and only
if every group of the catalogue is selected by the list or kept by none of its entries. -/
theorem filterLocally_agrees_iff (patterns : List Wildmat) (all : List ActiveEntry) :
    filterLocally patterns all = all.filter (fun entry => selected patterns entry.name.asStr) ↔
      ∀ entry ∈ all, selected patterns entry.name.asStr = true ∨
        ∀ i : Nat, (rulings patterns entry.name.asStr)[i]? ≠ some (some true) := by
  have hpoint : filterLocally patterns all =
        all.filter (fun entry => selected patterns entry.name.asStr) ↔
      ∀ entry ∈ all, (keptLocally patterns entry.name.asStr = true ↔
        selected patterns entry.name.asStr = true) := by
    constructor
    · intro h entry hentry
      have hiff := congrArg (entry ∈ ·) h
      simpa [filterLocally, hentry] using hiff
    · intro h
      exact List.filter_congr fun entry hentry => Bool.eq_iff_iff.mpr (h entry hentry)
  rw [hpoint]
  refine forall₂_congr fun entry _ => ?_
  by_cases hne : patterns = []
  · subst hne
    simp [keptLocally, selected]
  rw [keptLocally_iff hne]
  -- an entry that keeps the group is the last one to rule on it, or there is none
  have hsel : selected patterns entry.name.asStr = true →
      ∃ i : Nat, (rulings patterns entry.name.asStr)[i]? = some (some true) := by
    intro h
    obtain ⟨i, hi, -⟩ := lastSome_eq_some_iff.mp ((selected_iff hne _).mp h)
    exact ⟨i, hi⟩
  rw [← not_exists]
  tauto

/-- `comp.*` without `comp.os.*`, and a catalogue with one group under each. -/
def compWithoutOs : List Wildmat := [⟨"comp.*".toList, by decide⟩, ⟨"!comp.os.*".toList, by decide⟩]

def compCatalogue : List ActiveEntry :=
  [⟨⟨"comp.lang.rust".toList, by decide⟩, 9, 1, .permitted⟩,
    ⟨⟨"comp.os.linux".toList, by decide⟩, 9, 1, .permitted⟩]

/-- The excluded group is kept, because the first entry by itself matches it. -/
theorem filterLocally_keeps_excluded : filterLocally compWithoutOs compCatalogue ≠
    compCatalogue.filter (fun entry => selected compWithoutOs entry.name.asStr) := by
  decide +kernel

end Nntp.Tui
