import Nntp.Tui.ReadSet
import Nntp.Proto.Text

/-!
# The read state of a server

`readstate/store.rs`: a read set for each group. The entries are in order, so that a change finds the entry
of its group, and what is looked up afterwards is what was changed.
-/

namespace Nntp.Tui

open Nntp.Proto

/-- What is recorded about one group. -/
structure Entry where
  read : ReadSet := .new
  subscribed : Bool := true
  deriving DecidableEq, Repr

/-- The store: entries in the order of their names, each name once. -/
structure ReadStore where
  groups : List (Str × Entry) := []
  dirty : Bool := false
  deriving DecidableEq, Repr

namespace ReadStore

/-- Changes the entry of a group, in its place in the order; a group without one gets a new one. -/
def modifyEntry (f : Entry → Entry) (group : Str) : List (Str × Entry) → List (Str × Entry)
  | [] => [(group, f {})]
  | (name, entry) :: rest =>
      if name = group then (name, f entry) :: rest
      else if strLe name group then (name, entry) :: modifyEntry f group rest
      else (group, f {}) :: (name, entry) :: rest

/-- The entry of a group. -/
def entry? (store : ReadStore) (group : Str) : Option Entry :=
  (store.groups.find? fun e => e.1 = group).map (·.2)

/-- The read set of a group, empty if the group is unknown. -/
def readSet (store : ReadStore) (group : Str) : ReadSet :=
  ((store.entry? group).map (·.read)).getD .new

/-- `self.entry(group).read` changed by `f`, and the store dirty. -/
def change (store : ReadStore) (group : Str) (f : ReadSet → ReadSet) : ReadStore :=
  { groups := modifyEntry (fun e => { e with read := f e.read }) group store.groups, dirty := true }

/-- Marks one article read. -/
def markRead (store : ReadStore) (group : Str) (number : UInt64) : ReadStore :=
  store.change group fun read => read.insert number

/-- Marks a range of article numbers read, as "catch up" does. -/
def markRangeRead (store : ReadStore) (group : Str) (low high : UInt64) : ReadStore :=
  store.change group fun read => read.insertRange low high

/-- Marks one article unread. -/
def markUnread (store : ReadStore) (group : Str) (number : UInt64) : ReadStore :=
  store.change group fun read => read.remove number

/-- Replaces the read set of a group wholesale. -/
def setRead (store : ReadStore) (group : Str) (read : ReadSet) : ReadStore :=
  store.change group fun _ => read

/-- Drops the numbers below `low`, which the server no longer carries. -/
def forgetExpired (store : ReadStore) (group : Str) (low : UInt64) : ReadStore :=
  if low ≤ 1 then store
  else
    match store.entry? group with
    | none => store
    | some before =>
        let read := before.read.removeRange 1 (low - 1)
        let changed := read.rangeCount != before.read.rangeCount || read.count != before.read.count
        { groups := modifyEntry (fun e => { e with read := read }) group store.groups
          dirty := store.dirty || changed }

/-! ## The order of the entries -/

/-- The names ascend. -/
def Sorted (groups : List (Str × Entry)) : Prop := groups.Pairwise fun a b => a.1 < b.1

section Modify

variable {f : Entry → Entry} {group : Str} {groups : List (Str × Entry)}

/-- An entry after a change is an entry from before, or the one that was changed. -/
theorem mem_modifyEntry {e : Str × Entry} (h : e ∈ modifyEntry f group groups) :
    e ∈ groups ∨ ∃ entry, (entry = {} ∨ (group, entry) ∈ groups) ∧ e = (group, f entry) := by
  induction groups with
  | nil => exact Or.inr ⟨{}, Or.inl rfl, List.mem_singleton.mp h⟩
  | cons first rest ih =>
      obtain ⟨name, entry⟩ := first
      unfold modifyEntry at h
      split at h
      · next heq =>
          subst heq
          rcases List.mem_cons.mp h with rfl | h
          · exact Or.inr ⟨entry, Or.inr List.mem_cons_self, rfl⟩
          · exact Or.inl (List.mem_cons_of_mem _ h)
      · split at h
        · rcases List.mem_cons.mp h with rfl | h
          · exact Or.inl List.mem_cons_self
          · rcases ih h with h | ⟨entry, hentry, rfl⟩
            · exact Or.inl (List.mem_cons_of_mem _ h)
            · exact Or.inr ⟨entry, hentry.imp_right (List.mem_cons_of_mem _), rfl⟩
        · rcases List.mem_cons.mp h with rfl | h
          · exact Or.inr ⟨{}, Or.inl rfl, rfl⟩
          · exact Or.inl h

theorem modifyEntry_sorted (h : Sorted groups) : Sorted (modifyEntry f group groups) := by
  induction groups with
  | nil => exact List.pairwise_singleton _ _
  | cons first rest ih =>
      obtain ⟨name, entry⟩ := first
      obtain ⟨hfirst, hrest⟩ := List.pairwise_cons.mp h
      unfold modifyEntry
      split
      · exact List.pairwise_cons.mpr ⟨hfirst, hrest⟩
      · next hne =>
          split
          · next hle =>
              refine List.pairwise_cons.mpr ⟨fun e he => ?_, ih hrest⟩
              rcases mem_modifyEntry he with he | ⟨_, _, rfl⟩
              · exact hfirst e he
              · exact not_le.mp fun hge => hne (le_antisymm (strLe_iff.mp hle) hge)
          · next hgt =>
              have hlt : group < name := not_le.mp fun hle => hgt (strLe_iff.mpr hle)
              refine List.pairwise_cons.mpr ⟨fun e he => ?_, h⟩
              rcases List.mem_cons.mp he with rfl | he
              · exact hlt
              · exact lt_trans hlt (hfirst e he)

/-- A change leaves the other groups alone. -/
theorem find?_modifyEntry_of_ne {name : Str} (h : name ≠ group) :
    (modifyEntry f group groups).find? (fun e => e.1 = name) = groups.find? fun e => e.1 = name := by
  induction groups with
  | nil => simp [modifyEntry, h.symm]
  | cons first rest ih =>
      obtain ⟨first, entry⟩ := first
      unfold modifyEntry
      split
      · next heq => simp [heq, h.symm]
      · split
        · rw [List.find?_cons, List.find?_cons, ih]
        · rw [List.find?_cons_of_neg (by simpa using h.symm)]

/-- The group that is changed has what the change made of it. -/
theorem find?_modifyEntry_self (h : Sorted groups) :
    (modifyEntry f group groups).find? (fun e => e.1 = group) =
      some (group, f (((groups.find? fun e => e.1 = group).map (·.2)).getD {})) := by
  induction groups with
  | nil => simp [modifyEntry]
  | cons first rest ih =>
      obtain ⟨name, entry⟩ := first
      obtain ⟨hfirst, hrest⟩ := List.pairwise_cons.mp h
      unfold modifyEntry
      split
      · next heq => simp [heq]
      · next hne =>
          split
          · rw [List.find?_cons_of_neg (by simpa using hne), List.find?_cons_of_neg (by simpa using hne),
              ih hrest]
          · next hgt =>
              -- the name is in its place, so it is not further down
              have hlt : group < name := not_le.mp fun hle => hgt (strLe_iff.mpr hle)
              have hnone : ((name, entry) :: rest).find? (fun e => e.1 = group) = none := by
                refine List.find?_eq_none.mpr fun e he heq => ?_
                have hsame : e.1 = group := by simpa using heq
                rcases List.mem_cons.mp he with rfl | he
                · exact hne hsame
                · have hlate := lt_trans hlt (hfirst e he)
                  rw [hsame] at hlate
                  exact lt_irrefl _ hlate
              rw [hnone, List.find?_cons_of_pos (by simp)]
              rfl

end Modify

end ReadStore

end Nntp.Tui
