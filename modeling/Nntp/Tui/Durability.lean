import Nntp.Lib.Machine
import Nntp.Tui.DirtyFlag

/-!
# A save that is interrupted

`readstate/store.rs`: where the store of a server is kept, and the writes of a `save`, one after another. A store is
written under a temporary name, which is then given the name of the store. The readers of different servers keep
their stores in one directory, and each of them can fail or end between any two writes.
-/

namespace Nntp.Tui

open Nntp.Lib Nntp.Proto

/-! ## Names of files -/

/-- The characters that stand in a file name as they are. -/
def isFileNameChar (c : Char) : Bool :=
  ('a' ≤ c && c ≤ 'z') || ('0' ≤ c && c ≤ '9') || c == '.' || c == '-' || c == '_'

/-- A file name that stands for a server. -/
def fileNameFor (server : Str) : Str :=
  let name := ((trim server).map toAsciiLower).map fun c => if isFileNameChar c then c else '_'
  -- `.` and `..` are not names, and a leading dot would hide the file
  let name := name.dropWhile (· == '.')
  (if name.isEmpty then "unknown-server".toList else name) ++ ".newsrc".toList

/-- `Path::with_extension`, of a file name: what stands behind its last dot is exchanged, unless that dot is its
first character. -/
def withExtension (name ext : Str) : Str :=
  let before := (name.rdropWhile (· != '.')).dropLast
  (if before.isEmpty then name else before) ++ '.' :: ext

/-- The name a store is written under before it is moved into its place. -/
def temporaryFor (name : Str) : Str := withExtension name "newsrc.tmp".toList

/-- What stands for a server, without the ending. -/
theorem fileNameFor_eq (server : Str) : ∃ name, name ≠ [] ∧ fileNameFor server = name ++ ".newsrc".toList := by
  unfold fileNameFor
  dsimp only
  split
  · exact ⟨_, by decide, rfl⟩
  · next hne => exact ⟨_, fun hnil => hne (List.isEmpty_iff.mpr hnil), rfl⟩

theorem temporaryFor_newsrc {name : Str} (hne : name ≠ []) :
    temporaryFor (name ++ ".newsrc".toList) = name ++ ".newsrc.tmp".toList := by
  have hending : (name ++ ".newsrc".toList).rdropWhile (· != '.') = name ++ ['.'] := by
    have hreverse : ".newsrc".toList.reverse = ['c', 'r', 's', 'w', 'e', 'n', '.'] := by decide
    unfold List.rdropWhile
    rw [List.reverse_append, hreverse]
    simp
  unfold temporaryFor withExtension
  dsimp only
  rw [hending, List.dropLast_concat, if_neg (by simpa using hne)]
  rfl

/-- **No store is written over by another's save**: the temporary name is never the name of a store. -/
theorem temporaryFor_ne (server other : Str) : temporaryFor (fileNameFor server) ≠ fileNameFor other := by
  obtain ⟨name, hne, hname⟩ := fileNameFor_eq server
  obtain ⟨name', -, hother⟩ := fileNameFor_eq other
  rw [hname, temporaryFor_newsrc hne, hother]
  intro heq
  have hlast := congrArg List.getLast? heq
  rw [List.getLast?_append_of_ne_nil _ (by decide), List.getLast?_append_of_ne_nil _ (by decide)] at hlast
  exact absurd hlast (by decide)

namespace ReadStore

/-! ## Readers and their files -/

/-- A reader that runs: its store, and what it is writing if it is at a save. -/
structure Reader where
  store : ReadStore
  saving : Option Bytes := none

/-- The directory of the stores and the readers that run, by the names of their files, so that no two of them have
the same; and, for the proofs, the store of each name as it was when a save of it last went through. -/
structure Directory where
  files : Str → Option Bytes := fun _ => none
  readers : Str → Option Reader := fun _ => none
  saved : Str → Option ReadStore := fun _ => none

inductive DiskEvent where
  /-- a reader starts, and its store cannot be read if there is a reason -/
  | start (server : Str) (trouble : Option Str)
  | change (server : Str) (change : Change)
  /-- `fs::write` has made the temporary file, or emptied it -/
  | create (server : Str)
  /-- as many octets more are in the temporary file -/
  | write (server : Str) (count : Nat)
  | rename (server : Str)
  | fail (server : Str) (error : SaveError)
  /-- the reader ends, whatever it is at -/
  | stop (server : Str)

/-- What there is to be read under a name. -/
def Directory.file (d : Directory) (name : Str) : StoreFile :=
  match d.files name with
  | none => .missing
  | some octets => .contents octets

section Step

variable (d : Directory) (name : Str)

def Directory.put (octets : Option Bytes) : Directory := { d with files := Function.update d.files name octets }

def Directory.run (reader : Option Reader) : Directory :=
  { d with readers := Function.update d.readers name reader }

/-- Gives what stands under the temporary name the name of the store. -/
def Directory.replace (store : ReadStore) (octets : Bytes) : Directory :=
  let moved := (d.put name (some octets)).put (temporaryFor name) none
  { moved.run name (some ⟨(store.save none).2, none⟩) with saved := Function.update d.saved name (some store) }

@[simp] theorem Directory.files_put (octets : Option Bytes) (other : Str) :
    (d.put name octets).files other = if other = name then octets else d.files other := Function.update_apply ..

@[simp] theorem Directory.readers_run (reader : Option Reader) (other : Str) :
    (d.run name reader).readers other = if other = name then reader else d.readers other := Function.update_apply ..

@[simp] theorem Directory.saved_replace (store : ReadStore) (octets : Bytes) (other : Str) :
    (d.replace name store octets).saved other = if other = name then some store else d.saved other :=
  Function.update_apply ..

@[simp] theorem Directory.files_replace (store : ReadStore) (octets : Bytes) (other : Str) :
    (d.replace name store octets).files other =
      if other = temporaryFor name then none else if other = name then some octets else d.files other := by
  show ((d.put name (some octets)).put (temporaryFor name) none).files other = _
  rw [files_put, files_put]

end Step

def Directory.step (d : Directory) : DiskEvent → Option Directory
  | .start server trouble =>
      let name := fileNameFor server
      match d.readers name with
      | some _ => none
      | none =>
          let file := match trouble with
            | some reason => .inaccessible reason
            | none => d.file name
          some (d.run name (some ⟨(load file).1, none⟩))
  | .change server change =>
      let name := fileNameFor server
      match d.readers name with
      | some ⟨store, none⟩ => some (d.run name (some ⟨store.apply change, none⟩))
      | _ => none
  | .create server =>
      let name := fileNameFor server
      match d.readers name with
      | some ⟨store, none⟩ =>
          some ((d.put (temporaryFor name) (some [])).run name (some ⟨store, some (asBytes store.toNewsrc)⟩))
      | _ => none
  | .write server count =>
      let name := fileNameFor server
      match d.readers name, d.files (temporaryFor name) with
      | some ⟨_, some octets⟩, some held =>
          some (d.put (temporaryFor name) (some (held ++ (octets.drop held.length).take count)))
      | _, _ => none
  | .rename server =>
      let name := fileNameFor server
      match d.readers name with
      | some ⟨store, some octets⟩ =>
          -- all of it has been written
          if d.files (temporaryFor name) = some octets then some (d.replace name store octets) else none
      | _ => none
  | .fail server error =>
      let name := fileNameFor server
      match d.readers name with
      | some ⟨store, some _⟩ => some (d.run name (some ⟨(store.save (some error)).2, none⟩))
      | _ => none
  | .stop server => some (d.run (fileNameFor server) none)

/-! ## What is on the disk -/

/-- A store that can be written and read back: it is in order, and the names in it are plain. -/
structure Writes (store : ReadStore) : Prop where
  kept : Kept store
  writable : Writable store

/-- The group that a change is to. -/
def Change.group : Change → GroupName
  | .markRead group _ | .markRangeRead group _ _ | .markUnread group _ | .setRead group _ _
  | .forgetExpired group _ => group

/-- A change is to a group with a plain name. -/
def DiskEvent.IsPlain : DiskEvent → Prop
  | .change _ c => Plain c.group.asStr
  | _ => True

instance : (event : DiskEvent) → Decidable event.IsPlain
  | .change _ c => inferInstanceAs (Decidable (':' ∉ c.group.asStr ∧ c.group.asStr.head? ≠ some '#'))
  | .start _ _ | .create _ | .write _ _ | .rename _ | .fail _ _ | .stop _ => isTrue trivial

section Stores

variable {store : ReadStore}

theorem Writes.empty : Writes {} :=
  ⟨⟨List.Pairwise.nil, fun _ he => absurd he List.not_mem_nil⟩, fun _ he => absurd he List.not_mem_nil⟩

theorem Writable.modify (h : Writable store) {f : Entry → Entry} {group : Str} (hplain : Plain group)
    {dirty : Bool} : Writable { groups := modifyEntry f group store.groups, dirty } := by
  intro e he hread
  rcases mem_modifyEntry he with he | ⟨_, -, rfl⟩
  · exact h e he hread
  · exact hplain

theorem Writes.change (h : Writes store) (change : Change) (hplain : Plain change.group.asStr) :
    Writes (store.apply change) := by
  refine ⟨h.kept.apply change, ?_⟩
  cases change with
  | markRead group number => exact h.writable.modify hplain
  | markRangeRead group low high => exact h.writable.modify hplain
  | markUnread group number => exact h.writable.modify hplain
  | setRead group read valid => exact h.writable.modify hplain
  | forgetExpired group low =>
      show Writable (store.forgetExpired group.asStr low)
      unfold forgetExpired
      split
      · exact h.writable
      · split
        · exact h.writable
        · exact h.writable.modify hplain

/-- A line that is read back. -/
theorem Writes.mergeEntry (h : Writes store) {group : Str} (hname : GroupName.isWellFormed group = true)
    (hplain : Plain group) (read : ReadSet) : Writes (store.mergeEntry group read true) := by
  refine ⟨?_, h.writable.modify hplain⟩
  exact @Kept.modify store h.kept _ ⟨group, hname⟩ _ fun e he _ =>
    ⟨(ReadSet.insertRanges_spec he _).1, Bool.or_true _⟩

/-- **What was written can be written again** when it has been read back. -/
theorem Writes.load (h : Writes store) : Writes (load (.contents (asBytes store.toNewsrc))).1 := by
  by_cases hsize : (asBytes store.toNewsrc).length ≤ maxStoreBytes
  · have hplain : ∀ e ∈ store.written, Plain e.1 := by
      intro e he
      obtain ⟨hmem, hread⟩ := List.mem_filter.mp he
      exact h.writable e hmem (by simpa using hread)
    have hfold : ∀ (entries : List (Str × Entry)) (acc : ReadStore), entries ⊆ store.written → Writes acc →
        Writes (entries.foldl (fun acc e => acc.mergeEntry e.1 e.2.read true) acc) := by
      intro entries
      induction entries with
      | nil => exact fun acc _ hacc => hacc
      | cons e entries ih =>
          intro acc hsub hacc
          obtain ⟨he, hsub⟩ := List.cons_subset.mp hsub
          exact ih _ hsub (hacc.mergeEntry (h.kept.mem_written he).1 (hplain e he) _)
    rw [h.kept.load hsize, h.kept.loadText hplain]
    exact hfold store.written {} (List.Subset.refl _) .empty
  · have hempty : (ReadStore.load (.contents (asBytes store.toNewsrc))).1 = {} := by
      unfold ReadStore.load
      dsimp only
      rw [if_pos (by omega)]
    rw [hempty]
    exact .empty

end Stores

/-- **Nothing is half done**: under the name of every store there is a store that was saved, or nothing if none
was. -/
structure Directory.Intact (d : Directory) : Prop where
  readers : ∀ name reader, d.readers name = some reader →
    Writes reader.store ∧ ∀ octets ∈ reader.saving, octets = asBytes reader.store.toNewsrc
  saved : ∀ name store, d.saved name = some store → Writes store
  files : ∀ server, d.files (fileNameFor server) =
    (d.saved (fileNameFor server)).map fun store => asBytes store.toNewsrc

theorem Directory.Intact.new : Directory.Intact {} := ⟨nofun, nofun, fun _ => rfl⟩

section Steps

variable {d d' : Directory}

/-- A reader that goes on with a store that can be written. -/
theorem Directory.Intact.run (h : d.Intact) (name : Str) {store : ReadStore} (hwrites : Writes store)
    {saving : Option Bytes} (hsaving : ∀ octets ∈ saving, octets = asBytes store.toNewsrc) :
    (d.run name (some ⟨store, saving⟩)).Intact := by
  refine ⟨fun other reader hreader => ?_, h.saved, h.files⟩
  rw [readers_run] at hreader
  split at hreader
  · cases hreader
    exact ⟨hwrites, hsaving⟩
  · exact h.readers other reader hreader

/-- **What is written under a temporary name is in no store.** -/
theorem Directory.Intact.putTemporary (h : d.Intact) (server : Str) (octets : Option Bytes) :
    (d.put (temporaryFor (fileNameFor server)) octets).Intact := by
  refine ⟨h.readers, h.saved, fun other => ?_⟩
  rw [files_put, if_neg (temporaryFor_ne server other).symm]
  exact h.files other

/-- **A store that is moved into its place is there whole.** -/
theorem Directory.Intact.replace (h : d.Intact) (server : Str) {store : ReadStore} (hwrites : Writes store) :
    (d.replace (fileNameFor server) store (asBytes store.toNewsrc)).Intact := by
  have hclean : Writes (store.save none).2 := ⟨⟨hwrites.kept.sorted, hwrites.kept.entries⟩, hwrites.writable⟩
  refine ⟨(@Directory.Intact.run d h (fileNameFor server) _ hclean none nofun).readers, fun name other hother => ?_,
    fun other => ?_⟩
  · rw [saved_replace] at hother
    split at hother
    · cases hother
      exact hwrites
    · exact h.saved name other hother
  · rw [files_replace, saved_replace, if_neg (temporaryFor_ne server other).symm]
    split
    · rfl
    · exact h.files other

/-- Every step. -/
theorem Directory.Intact.step (h : d.Intact) {event : DiskEvent} (hplain : event.IsPlain)
    (hstep : d.step event = some d') : d'.Intact := by
  cases event with
  | start server trouble =>
      simp only [Directory.step] at hstep
      split at hstep
      · cases hstep
      · cases hstep
        refine h.run _ ?_ nofun
        cases trouble with
        | some reason => exact .empty
        | none =>
            show Writes (ReadStore.load (d.file (fileNameFor server))).1
            unfold Directory.file
            rw [h.files server]
            cases hsaved : d.saved (fileNameFor server) with
            | none => exact .empty
            | some store => exact (h.saved _ store hsaved).load
  | change server c =>
      simp only [Directory.step] at hstep
      split at hstep
      · next store hreader =>
          cases hstep
          exact h.run _ ((h.readers _ _ hreader).1.change c hplain) nofun
      · cases hstep
  | create server =>
      simp only [Directory.step] at hstep
      split at hstep
      · next store hreader =>
          cases hstep
          exact (h.putTemporary server _).run _ (h.readers _ _ hreader).1 fun octets hoctets =>
            (Option.mem_some.mp hoctets).symm
      · cases hstep
  | write server count =>
      simp only [Directory.step] at hstep
      split at hstep
      · cases hstep
        exact h.putTemporary server _
      · cases hstep
  | rename server =>
      simp only [Directory.step] at hstep
      split at hstep
      · next store octets hreader =>
          split at hstep
          · cases hstep
            obtain ⟨hwrites, hsaving⟩ := h.readers _ _ hreader
            rw [hsaving octets rfl]
            exact h.replace server hwrites
          · cases hstep
      · cases hstep
  | fail server error =>
      simp only [Directory.step] at hstep
      split at hstep
      · next store octets hreader =>
          cases hstep
          exact h.run _ (h.readers _ _ hreader).1 nofun
      · cases hstep
  | stop server =>
      cases hstep
      refine ⟨fun other reader hreader => ?_, h.saved, h.files⟩
      rw [readers_run] at hreader
      split at hreader
      · cases hreader
      · exact h.readers other reader hreader

end Steps

/-- A reader marks an article read and saves, marks another, and ends before the second save is done. -/
def interrupted : List DiskEvent :=
  let server := "news.example".toList
  [.start server none, .change server (.markRead .miscTest 5), .create server, .write server 100, .rename server,
    .change server (.markRead .miscTest 9), .create server, .write server 4, .stop server]

end ReadStore

end Nntp.Tui
