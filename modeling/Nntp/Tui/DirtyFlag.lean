import Nntp.Tui.Newsrc
import Nntp.Tui.ReadCounts

/-!
# What the dirty flag says

`readstate/store.rs`: every change raises the flag, and a save that succeeds takes it down.
`forget_expired` looks at two numbers to tell whether it changed anything. They are enough: what it takes
out of a set makes the set smaller.
-/

namespace Nntp.Tui.ReadStore

open Nntp.Lib Nntp.Proto

variable {store : ReadStore}

/-! ## Writing the store -/

/-- What can go wrong in `save`, in the order in which it can. -/
inductive SaveError where
  | noParent
  | createDirectory
  | write
  | rename
  deriving DecidableEq, Repr

/-- Writes the store. It goes as far as the file system lets it, and only the end takes the flag down. -/
def save (store : ReadStore) : Option SaveError → Except SaveError Unit × ReadStore
  | some error => (.error error, store)
  | none => (.ok (), { store with dirty := false })

/-- Writes the store only if something has changed. -/
def saveIfDirty (store : ReadStore) (outcome : Option SaveError) : Except SaveError Unit × ReadStore :=
  if store.dirty then store.save outcome else (.ok (), store)

/-! ## Stores that are in order -/

/-- Each name once, in order, and every set a valid one. -/
structure Proper (store : ReadStore) : Prop where
  sorted : Sorted store.groups
  valid : ∀ e ∈ store.groups, e.2.read.Valid

theorem Proper.empty : Proper {} := ⟨List.Pairwise.nil, fun _ he => absurd he List.not_mem_nil⟩

theorem Proper.modify (h : Proper store) {f : Entry → Entry} {group : Str} {dirty : Bool}
    (hf : ∀ e : Entry, e.read.Valid → (f e).read.Valid) :
    Proper { groups := modifyEntry f group store.groups, dirty } := by
  refine ⟨modifyEntry_sorted h.sorted, fun e he => ?_⟩
  rcases mem_modifyEntry he with he | ⟨entry, hentry, rfl⟩
  · exact h.valid e he
  · apply hf
    rcases hentry with rfl | hmem
    · exact ReadSet.new_valid
    · exact h.valid _ hmem

theorem Proper.entry (h : Proper store) {group : Str} {entry : Entry} (hentry : store.entry? group = some entry) :
    entry.read.Valid := by
  obtain ⟨e, he, rfl⟩ := Option.map_eq_some_iff.mp hentry
  exact h.valid e (List.mem_of_find?_eq_some he)

theorem Proper.loadLine {acc : ReadStore × List Problem} (h : Proper acc.1) (line : Str × Nat) :
    Proper (loadLine acc line).1 := by
  unfold ReadStore.loadLine
  dsimp only
  split
  · exact h
  · split
    · exact h
    · exact h.modify fun e he => (ReadSet.insertRanges_spec he _).1

/-- Whatever the file is like, what is loaded from it is in order. -/
theorem Proper.load (file : StoreFile) : Proper (load file).1 := by
  have htext : ∀ (texts : List (Str × Nat)) (acc : ReadStore × List Problem), Proper acc.1 →
      Proper (texts.foldl ReadStore.loadLine acc).1 := by
    intro texts
    induction texts with
    | nil => exact fun acc h => h
    | cons line texts ih => exact fun acc h => ih _ (h.loadLine line)
  cases file with
  | missing => exact .empty
  | inaccessible reason => exact .empty
  | unreadable size reason =>
      show Proper (if _ then _ else _ : ReadStore × List Problem).1
      split <;> exact .empty
  | contents bytes =>
      show Proper (if _ then _ else loadText _ : ReadStore × List Problem).1
      split
      · exact .empty
      · exact htext _ ({}, []) .empty

/-! ## Forgetting what has expired -/

/-- A change that changes nothing about the entry of a group changes nothing. -/
theorem modifyEntry_same {f : Entry → Entry} {group : Str} {groups : List (Str × Entry)} {e : Str × Entry}
    (h : Sorted groups) (hfind : groups.find? (fun e => e.1 = group) = some e) (hf : f e.2 = e.2) :
    modifyEntry f group groups = groups := by
  induction groups with
  | nil => cases hfind
  | cons first rest ih =>
      obtain ⟨name, entry⟩ := first
      obtain ⟨hfirst, hrest⟩ := List.pairwise_cons.mp h
      unfold modifyEntry
      by_cases hname : name = group
      · rw [List.find?_cons_of_pos (by simpa using hname)] at hfind
        cases hfind
        rw [if_pos hname, hf]
      · rw [List.find?_cons_of_neg (by simpa using hname)] at hfind
        have hlt : name < group := by
          have hgroup : e.1 = group := by simpa using List.find?_some hfind
          exact hgroup ▸ hfirst e (List.mem_of_find?_eq_some hfind)
        rw [if_neg hname, if_pos (strLe_iff.mpr hlt.le), ih hrest hfind]

/-- **A set that loses a number has fewer of them**: if the count is the same, so is the set. -/
theorem removeRange_same {s : ReadSet} (h : s.Valid) {low high : UInt64}
    (hcount : (s.removeRange low high).count = s.count) : s.removeRange low high = s := by
  obtain ⟨hvalid, hmem⟩ := ReadSet.removeRange_spec h low high
  have hsub : (s.removeRange low high).numbers ⊆ s.numbers := fun n hn => ((hmem n).mp hn).1
  have hcard : s.numbers.ncard = (s.removeRange low high).numbers.ncard := by
    rw [← h.count.2, ← hvalid.count.2, hcount]
  exact hvalid.ext h (Set.eq_of_subset_of_ncard_le hsub hcard.le (Set.toFinite _))

/-- What `forget_expired` can do to a store that is in order. -/
theorem forgetExpired_cases (h : Proper store) (group : Str) (low : UInt64) :
    Proper (store.forgetExpired group low) ∧
      ((store.forgetExpired group low).dirty = true ∨ store.forgetExpired group low = store) := by
  unfold forgetExpired
  split
  · exact ⟨h, Or.inr rfl⟩
  · cases hentry : store.entry? group with
    | none => exact ⟨h, Or.inr rfl⟩
    | some before =>
        have hbefore := h.entry hentry
        refine ⟨h.modify fun e _ => (ReadSet.removeRange_spec hbefore 1 (low - 1)).1, ?_⟩
        by_cases hcount : (before.read.removeRange 1 (low - 1)).count = before.read.count
        · -- the flag stays as it was, and so does the entry, which is written all the same
          right
          have hsame := removeRange_same hbefore hcount
          obtain ⟨e, he, heq⟩ := Option.map_eq_some_iff.mp hentry
          have hgroups : modifyEntry (fun e => { e with read := before.read }) group store.groups =
              store.groups := modifyEntry_same h.sorted he (by rw [← heq])
          dsimp only
          rw [hsame, hgroups]
          simp
        · left
          simp [hcount]

/-! ## Runs -/

/-- Where a store comes from. -/
inductive Origin where
  | empty
  | load (file : StoreFile)

def Origin.opened : Origin → ReadStore
  | empty => {}
  | load file => (ReadStore.load file).1

/-- A call. What a save comes to is up to the file system. -/
inductive Call where
  | markRead (group : Str) (number : UInt64)
  | markRangeRead (group : Str) (low high : UInt64)
  | markUnread (group : Str) (number : UInt64)
  | setRead (group : Str) (read : { read : ReadSet // read.Valid })
  | forgetExpired (group : Str) (low : UInt64)
  | save (outcome : Option SaveError)
  | saveIfDirty (outcome : Option SaveError)

/-- A store, and the store as it was last written, or as it came to be if it never was. -/
structure Tracked where
  current : ReadStore
  saved : ReadStore

namespace Tracked

variable {t : Tracked}

def start (origin : Origin) : Tracked := ⟨origin.opened, origin.opened⟩

def step (t : Tracked) : Call → Tracked
  | .markRead group number => { t with current := t.current.markRead group number }
  | .markRangeRead group low high => { t with current := t.current.markRangeRead group low high }
  | .markUnread group number => { t with current := t.current.markUnread group number }
  | .setRead group read => { t with current := t.current.setRead group read.val }
  | .forgetExpired group low => { t with current := t.current.forgetExpired group low }
  | .save outcome =>
      { current := (t.current.save outcome).2, saved := if outcome = none then t.current else t.saved }
  | .saveIfDirty outcome =>
      { current := (t.current.saveIfDirty outcome).2
        saved := if t.current.dirty ∧ outcome = none then t.current else t.saved }

/-- **The flag is sound**: while it is down, the store is what was saved. -/
structure Sound (t : Tracked) : Prop where
  proper : Proper t.current
  saved : t.current.dirty = false → t.current.groups = t.saved.groups

theorem start_sound (origin : Origin) : Sound (start origin) := by
  refine ⟨?_, fun _ => rfl⟩
  cases origin with
  | empty => exact .empty
  | load file => exact .load file

/-- A change raises the flag. -/
theorem Sound.changed {group : Str} {f : ReadSet → ReadSet} (h : Sound t)
    (hf : ∀ read : ReadSet, read.Valid → (f read).Valid) :
    Sound { t with current := t.current.change group f } :=
  ⟨h.proper.modify fun e he => hf e.read he, fun hdirty => absurd hdirty (Bool.noConfusion ·)⟩

/-- A save leaves the groups as they are. -/
theorem Sound.save (h : Sound t) (outcome : Option SaveError) : Sound (t.step (.save outcome)) := by
  cases outcome with
  | none => exact ⟨⟨h.proper.sorted, h.proper.valid⟩, fun _ => rfl⟩
  | some error => exact h

/-- **Every call.** -/
theorem Sound.step (h : Sound t) (call : Call) : Sound (t.step call) := by
  cases call with
  | markRead group number => exact h.changed fun _ he => (ReadSet.insertRange_spec he number number).1
  | markRangeRead group low high => exact h.changed fun _ he => (ReadSet.insertRange_spec he low high).1
  | markUnread group number =>
      refine h.changed fun read he => ?_
      rw [ReadSet.remove_eq_removeRange he]
      exact (ReadSet.removeRange_spec he number number).1
  | setRead group read => exact h.changed fun _ _ => read.property
  | forgetExpired group low =>
      obtain ⟨hproper, hdirty | hsame⟩ := forgetExpired_cases h.proper group low
      · exact ⟨hproper, fun hclean => absurd (hdirty.symm.trans hclean) (by decide)⟩
      · show Sound { t with current := t.current.forgetExpired group low }
        rw [hsame]
        exact h
  | save outcome => exact h.save outcome
  | saveIfDirty outcome =>
      cases hdirty : t.current.dirty with
      | true =>
          have hsave : t.step (.saveIfDirty outcome) = t.step (.save outcome) := by
            simp [Tracked.step, saveIfDirty, hdirty]
          rw [hsave]
          exact h.save outcome
      | false =>
          have hskip : t.step (.saveIfDirty outcome) = t := by simp [Tracked.step, saveIfDirty, hdirty]
          rw [hskip]
          exact h

theorem sound_run (origin : Origin) (calls : List Call) : Sound (calls.foldl step (start origin)) := by
  have hfold : ∀ t, Sound t → Sound (calls.foldl Tracked.step t) := by
    induction calls with
    | nil => exact fun t h => h
    | cons call calls ih => exact fun t h => ih _ (h.step call)
  exact hfold _ (start_sound origin)

end Tracked

end Nntp.Tui.ReadStore
