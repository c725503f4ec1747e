import Nntp.Proto.Thread.Complete
import Nntp.Tui.Completion

/-!
# The article list

The rows of the article pane are derived from the records on display, the threads made of them, the folds
and the read marks. The listing is the part of the interface that holds these, and every input acts on it in
one of a few ways (`Effect`): it leaves the list and the cursor alone, it puts the cursor on a row itself,
it empties the list, or it changes what has been read. What is always true of the list follows from that.
-/

namespace Nntp.Tui

open Nntp.Lib Nntp.Proto Nntp.Client

/-! ## Rows by what they are derived from -/

/-- An article that is in the records, and that `lets` lets through. -/
def drawnOf (records : List OverviewRecord) (lets : UInt64 → Bool) (article : Option Nat) :
    Option (Nat × UInt64) :=
  (article.bind fun index => records[index]?.map fun record => (index, record.number)).filter
    fun a => lets a.2

mutual

/-- The articles of one thread that have a row, depth first. -/
def shownIn (drawn : Option Nat → Option (Nat × UInt64)) (collapsed : List UInt64) :
    ThreadNode → List Nat
  | .mk article children =>
      match drawn article with
      | some (index, number) =>
          index :: if collapsed.contains number then [] else shownAll drawn collapsed children
      | none => shownAll drawn collapsed children

def shownAll (drawn : Option Nat → Option (Nat × UInt64)) (collapsed : List UInt64) :
    List ThreadNode → List Nat
  | [] => []
  | node :: nodes => shownIn drawn collapsed node ++ shownAll drawn collapsed nodes

end

/-- What the rows of the article pane are derived from, apart from the read marks. -/
structure Listing where
  articles : List OverviewRecord
  threads : List ThreadNode
  threaded : Bool
  collapsed : List UInt64

namespace Listing

/-- The articles that have a row when those that `lets` does not let through are left out. -/
def rows (l : Listing) (lets : UInt64 → Bool) : List Nat :=
  if l.threaded then shownAll (drawnOf l.articles lets) l.collapsed l.threads
  else (l.articles.zipIdx.filter fun a => lets a.1.number).map (·.2)

/-- The threads are the threads of the records on display. -/
def Current (l : Listing) : Prop :=
  if l.threaded then thread l.articles = some l.threads else l.threads = []

/-- Nothing on display is folded away. -/
def Unfolded (l : Listing) : Prop := ∀ record ∈ l.articles, record.number ∉ l.collapsed

/-- The list after Enter on a group. -/
def cleared (l : Listing) : Listing := { l with articles := [], threads := [], collapsed := [] }

end Listing

section Shown

variable {records : List OverviewRecord} {lets : UInt64 → Bool} {collapsed : List UInt64}

theorem drawnOf_eq_some {article : Option Nat} {index : Nat} {number : UInt64} :
    drawnOf records lets article = some (index, number) ↔
      article = some index ∧ (∃ record, records[index]? = some record ∧ record.number = number) ∧
        lets number = true := by
  unfold drawnOf
  cases article with
  | none => simp
  | some i =>
      rw [Option.filter_eq_some_iff, Option.bind_some, Option.map_eq_some_iff]
      constructor
      · rintro ⟨⟨record, hrecord, heq⟩, hlets⟩
        cases heq
        exact ⟨rfl, ⟨record, hrecord, rfl⟩, hlets⟩
      · rintro ⟨hi, ⟨record, hrecord, rfl⟩, hlets⟩
        cases hi
        exact ⟨⟨record, hrecord, rfl⟩, hlets⟩

mutual

/-- A row is a row of a record that passes the filter. -/
theorem record_of_mem_shownIn {node : ThreadNode} {index : Nat}
    (h : index ∈ shownIn (drawnOf records lets) collapsed node) :
    ∃ record, records[index]? = some record ∧ lets record.number = true := by
  obtain ⟨article, children⟩ := node
  unfold shownIn at h
  split at h
  · next i number hdrawn =>
      obtain ⟨-, ⟨record, hrecord, rfl⟩, hlets⟩ := drawnOf_eq_some.mp hdrawn
      rcases List.mem_cons.mp h with rfl | h
      · exact ⟨record, hrecord, hlets⟩
      · split at h
        · cases h
        · exact record_of_mem_shownAll h
  · exact record_of_mem_shownAll h

theorem record_of_mem_shownAll {nodes : List ThreadNode} {index : Nat}
    (h : index ∈ shownAll (drawnOf records lets) collapsed nodes) :
    ∃ record, records[index]? = some record ∧ lets record.number = true := by
  cases nodes with
  | nil => cases h
  | cons node nodes =>
      unfold shownAll at h
      rcases List.mem_append.mp h with h | h
      · exact record_of_mem_shownIn h
      · exact record_of_mem_shownAll h

end

variable (hlets : ∀ record ∈ records, lets record.number = true)
  (hopen : ∀ record ∈ records, record.number ∉ collapsed)

include hlets hopen

mutual

/-- With nothing filtered out or folded away, the rows of a thread are its articles. -/
theorem shownIn_eq {node : ThreadNode} (h : ∀ i ∈ node.articles, i < records.length) :
    shownIn (drawnOf records lets) collapsed node = node.articles := by
  obtain ⟨article, children⟩ := node
  have hbelow : ∀ i ∈ ThreadNode.articlesAll children, i < records.length := fun i hi =>
    h i (List.mem_append_right _ hi)
  unfold shownIn ThreadNode.articles
  cases article with
  | none => exact shownAll_eq hbelow
  | some i =>
      have hi : i < records.length := h i (List.mem_append_left _ List.mem_cons_self)
      have hmem : records[i] ∈ records := List.getElem_mem hi
      have hdrawn : drawnOf records lets (some i) = some (i, records[i].number) :=
        drawnOf_eq_some.mpr ⟨rfl, ⟨_, List.getElem?_eq_getElem hi, rfl⟩, hlets _ hmem⟩
      rw [hdrawn]
      dsimp only
      rw [if_neg (by simpa using hopen _ hmem), shownAll_eq hbelow]
      rfl

theorem shownAll_eq {nodes : List ThreadNode}
    (h : ∀ i ∈ ThreadNode.articlesAll nodes, i < records.length) :
    shownAll (drawnOf records lets) collapsed nodes = ThreadNode.articlesAll nodes := by
  cases nodes with
  | nil => rfl
  | cons node nodes =>
      unfold shownAll ThreadNode.articlesAll
      rw [shownIn_eq fun i hi => h i (List.mem_append_left _ hi),
        shownAll_eq fun i hi => h i (List.mem_append_right _ hi)]

end

end Shown

namespace Listing

variable {l : Listing} {lets : UInt64 → Bool}

theorem record_of_mem_rows {index : Nat} (h : index ∈ l.rows lets) :
    ∃ record, l.articles[index]? = some record ∧ lets record.number = true := by
  unfold rows at h
  split at h
  · exact record_of_mem_shownAll h
  · obtain ⟨⟨record, i⟩, hmem, rfl⟩ := List.mem_map.mp h
    obtain ⟨hmem, hlets⟩ := List.mem_filter.mp hmem
    exact ⟨record, List.mem_zipIdx_iff_getElem?.mp hmem, hlets⟩

theorem lt_of_mem_rows {index : Nat} (h : index ∈ l.rows lets) : index < l.articles.length := by
  obtain ⟨record, hrecord, -⟩ := record_of_mem_rows h
  exact (List.getElem?_eq_some_iff.mp hrecord).1

/-- **The list hides nothing**: without a filter and without folds each record has one row. -/
theorem rows_perm (hcurrent : l.Current) (hlets : ∀ record ∈ l.articles, lets record.number = true)
    (hopen : l.Unfolded) : (l.rows lets).Perm (List.range l.articles.length) := by
  unfold Current at hcurrent
  unfold rows
  split
  · next hthreaded =>
      rw [if_pos hthreaded] at hcurrent
      obtain ⟨forest, hforest, hperm⟩ := exists_thread l.articles
      obtain rfl : forest = l.threads := Option.some.inj (hforest.symm.trans hcurrent)
      rw [← ThreadNode.articlesAll_eq_flatMap] at hperm
      rw [shownAll_eq hlets hopen fun i hi => List.mem_range.mp (hperm.mem_iff.mp hi)]
      exact hperm
  · have hall : (l.articles.zipIdx.filter fun a => lets a.1.number) = l.articles.zipIdx := by
      refine List.filter_eq_self.mpr fun a ha => hlets _ ?_
      exact List.fst_mem_of_mem_zipIdx ha
    rw [hall, List.zipIdx_map_snd, ← List.range_eq_range']

/-- What `rebuildThreads` puts in the cache. -/
theorem current_rebuilt (l : Listing) :
    { l with threads := if l.threaded then (thread l.articles).getD [] else [] }.Current := by
  unfold Current
  obtain ⟨forest, hforest, -⟩ := exists_thread l.articles
  cases hthreaded : l.threaded with
  | false => simp
  | true => simp [hforest]

/-- An empty list has no threads. -/
theorem current_cleared (l : Listing) : l.cleared.Current := by
  have hnone : thread [] = some [] := rfl
  unfold Current cleared
  split
  · exact hnone
  · rfl

end Listing

/-! ## The list of an interface -/

namespace App

variable {app after : App}

def listing (app : App) : Listing where
  articles := app.articles
  threads := app.threads
  threaded := app.threaded
  collapsed := app.collapsed

mutual

theorem pushRows_index (app : App) (node : ThreadNode) (depth : Nat) :
    (app.pushRows node depth).map (·.index) = shownIn app.drawn app.collapsed node := by
  obtain ⟨article, children⟩ := node
  unfold pushRows shownIn
  cases app.drawn article with
  | none => exact pushRowsAll_index app children (depth + 1)
  | some a =>
      dsimp only
      rw [List.map_cons]
      split
      · rfl
      · rw [pushRowsAll_index app children (depth + 1)]

theorem pushRowsAll_index (app : App) (nodes : List ThreadNode) (depth : Nat) :
    (app.pushRowsAll nodes depth).map (·.index) = shownAll app.drawn app.collapsed nodes := by
  cases nodes with
  | nil => rfl
  | cons node nodes =>
      unfold pushRowsAll shownAll
      rw [List.map_append, pushRows_index app node depth, pushRowsAll_index app nodes depth]

end

/-- **What is visible** is a matter of the listing and of the filter. -/
theorem visibleArticles_eq (app : App) : app.visibleArticles = app.listing.rows app.passes := by
  unfold visibleArticles articleRows Listing.rows
  show List.map _ (if app.threaded then _ else _) = if app.threaded then _ else _
  split
  · exact pushRowsAll_index app app.threads 0
  · rw [List.map_map]
    rfl

theorem visibleArticles_congr (hlisting : after.listing = app.listing)
    (hpasses : after.passes = app.passes) : after.visibleArticles = app.visibleArticles := by
  rw [visibleArticles_eq, visibleArticles_eq, hlisting, hpasses]

theorem visibleArticles_at (app : App) (row : Nat) :
    { app with articleCursor := row }.visibleArticles = app.visibleArticles :=
  visibleArticles_congr rfl rfl

theorem lt_of_mem_visibleArticles {index : Nat} (h : index ∈ app.visibleArticles) :
    index < app.articles.length := by
  rw [visibleArticles_eq] at h
  exact Listing.lt_of_mem_rows h

/-- The article cursor is on a row, or at the top of a list without rows. -/
def OnRow (app : App) : Prop :=
  app.articleCursor < app.visibleArticles.length ∨
    (app.visibleArticles.length = 0 ∧ app.articleCursor = 0)

instance (app : App) : Decidable app.OnRow := inferInstanceAs (Decidable (_ ∨ _))

theorem onRow_iff : app.OnRow ↔ app.articleCursor = 0 ∨ app.articleCursor < app.visibleArticles.length := by
  unfold OnRow
  omega

/-- A cursor on a row selects an article. -/
theorem OnRow.selected (h : app.OnRow) (hvisible : app.visibleArticles ≠ []) :
    app.selectedArticle.isSome = true := by
  have hlt : app.articleCursor < app.visibleArticles.length := by
    rcases h with h | ⟨h, -⟩
    · exact h
    · exact absurd (List.length_eq_zero_iff.mp h) hvisible
  unfold selectedArticle
  rw [List.getElem?_eq_getElem hlt, Option.bind_some,
    List.getElem?_eq_getElem (lt_of_mem_visibleArticles (List.getElem_mem hlt))]
  rfl

theorem rowOf_lt {number : UInt64} {row : Nat} (h : app.rowOf number = some row) :
    row < app.visibleArticles.length := by
  unfold rowOf at h
  exact (List.findIdx?_eq_some_iff_getElem.mp h).1

/-- The cursor is put at `row`. -/
theorem onRow_at {row : Nat} (h : row = 0 ∨ row < app.visibleArticles.length) :
    { app with articleCursor := row }.OnRow := by
  apply onRow_iff.mpr
  rw [visibleArticles_at]
  exact h

theorem onRow_clamp (app : App) : app.clampArticleCursor.OnRow := by
  apply onRow_at
  omega

theorem onRow_returnTo (app : App) (anchor : Option OverviewRecord) : (app.returnTo anchor).OnRow := by
  apply onRow_at
  cases hrow : anchor.bind fun record => app.rowOf record.number with
  | none =>
      show app.visibleArticles.length - 1 = 0 ∨ app.visibleArticles.length - 1 < _
      omega
  | some row =>
      obtain ⟨record, -, hrow⟩ := Option.bind_eq_some_iff.mp hrow
      exact Or.inr (rowOf_lt hrow)

theorem onRow_shift (app : App) (delta : Int) :
    { app with articleCursor := shift app.articleCursor delta app.visibleArticles.length }.OnRow := by
  apply onRow_at
  unfold shift
  split
  · exact Or.inl rfl
  · omega

end App

/-! ## What an input does to the list -/

/-- The list, what it lets through and the cursor are as they were. -/
structure SameList (app after : App) : Prop where
  listing : after.listing = app.listing
  passes : after.passes = app.passes
  cursor : after.articleCursor = app.articleCursor

theorem SameList.trans {app mid after : App} (h : SameList app mid) (h' : SameList mid after) :
    SameList app after where
  listing := h'.listing.trans h.listing
  passes := h'.passes.trans h.passes
  cursor := h'.cursor.trans h.cursor

/-- The cursor is on a row, whichever the same list is. -/
theorem SameList.onRow_iff {app after : App} (h : SameList app after) : after.OnRow ↔ app.OnRow := by
  unfold App.OnRow
  rw [App.visibleArticles_congr h.listing h.passes, h.cursor]

/-- Enter on an empty group, which empties the list. -/
def Clears (lowercase : Str → Str) (app : App) : Input → Prop
  | .key key => ∃ group ∈ app.entered lowercase key, group.isEmpty = true
  | _ => False

/-- The events that change what has been read, or in which group, and nothing else of the list. -/
def Input.Marks : Input → Prop
  | .event (.article _) => True
  | .event (.groupOpened _) => True
  | _ => False

/-- What an input can do to the article list. -/
inductive ListEffect (lowercase : Str → Str) (app after : App) (input : Input) : Prop where
  | same (h : SameList app after)
  /-- the cursor is put on a row of what the list has become -/
  | placed (hcurrent : app.listing.Current → after.listing.Current) (hrow : after.OnRow)
  | cleared (h : Clears lowercase app input) (hlisting : after.listing = app.listing.cleared)
      (hcursor : after.articleCursor = app.articleCursor)
  | marked (h : input.Marks) (hlisting : after.listing = app.listing)
      (hcursor : after.articleCursor = app.articleCursor)

/-- What leaves the list alone afterwards does not count. -/
theorem ListEffect.follow {lowercase : Str → Str} {app mid after : App} {input : Input}
    (h : ListEffect lowercase app mid input) (hsame : SameList mid after) :
    ListEffect lowercase app after input := by
  cases h with
  | same h => exact .same (h.trans hsame)
  | placed hcurrent hrow =>
      refine .placed ?_ (hsame.onRow_iff.mpr hrow)
      rw [hsame.listing]
      exact hcurrent
  | cleared h hlisting hcursor =>
      exact .cleared h (hsame.listing.trans hlisting) (hsame.cursor.trans hcursor)
  | marked h hlisting hcursor =>
      exact .marked h (hsame.listing.trans hlisting) (hsame.cursor.trans hcursor)

namespace App

variable {lowercase : Str → Str} {app after : App} {input : Input}

/-! ### Keys -/

theorem moveCursor_effect (delta : Int) :
    ListEffect lowercase app (app.moveCursor lowercase delta) input := by
  unfold moveCursor
  split
  · exact .same ⟨rfl, rfl, rfl⟩
  · exact .placed id (onRow_shift app delta)
  · exact .same ⟨rfl, rfl, rfl⟩

theorem moveToStart_effect : ListEffect lowercase app app.moveToStart input := by
  unfold moveToStart
  split
  · exact .same ⟨rfl, rfl, rfl⟩
  · exact .placed id (onRow_at (Or.inl rfl))
  · exact .same ⟨rfl, rfl, rfl⟩

theorem moveToEnd_effect : ListEffect lowercase app (app.moveToEnd lowercase) input := by
  unfold moveToEnd
  split
  · exact .same ⟨rfl, rfl, rfl⟩
  · exact .placed id (onRow_at (by omega))
  · exact .same ⟨rfl, rfl, rfl⟩

theorem filterKey_sameList (key : Key) : SameList app (app.filterKey lowercase key) := by
  unfold filterKey
  split <;> exact ⟨rfl, rfl, rfl⟩

theorem overlayKey_sameList (key : Key) : SameList app (app.overlayKey key) := by
  unfold overlayKey
  split <;> exact ⟨rfl, rfl, rfl⟩

theorem searchGroups_sameList : SameList app app.searchGroups.1 := by
  unfold searchGroups
  show SameList app (if _ then _ else _ : App × List Request).1
  split
  · exact ⟨rfl, rfl, rfl⟩
  · split <;> exact ⟨rfl, rfl, rfl⟩

theorem escape_sameList : SameList app app.escape := by
  unfold escape requestCancellation
  split
  · split <;> exact ⟨rfl, rfl, rfl⟩
  · split <;> exact ⟨rfl, rfl, rfl⟩

theorem loadSelectedArticle_sameList : SameList app app.loadSelectedArticle.1 := by
  unfold loadSelectedArticle
  split <;> exact ⟨rfl, rfl, rfl⟩

theorem refresh_sameList : SameList app app.refresh.1 := by
  unfold refresh
  split
  · exact ⟨rfl, rfl, rfl⟩
  · unfold reloadOverview
    split <;> exact ⟨rfl, rfl, rfl⟩
  · exact ⟨rfl, rfl, rfl⟩

theorem postingIdentity_sameList {sender : Option Str} (h : app.postingIdentity = (after, sender)) :
    SameList app after := by
  unfold postingIdentity at h
  split at h
  · cases h
    exact ⟨rfl, rfl, rfl⟩
  · cases h
    exact ⟨rfl, rfl, rfl⟩

theorem startArticle_sameList : SameList app app.startArticle := by
  unfold startArticle
  split
  · next h => exact postingIdentity_sameList h
  · next h _ => exact postingIdentity_sameList h
  · next h _ => exact (postingIdentity_sameList h).trans ⟨rfl, rfl, rfl⟩

theorem startFollowUp_sameList : SameList app app.startFollowUp := by
  unfold startFollowUp
  split
  · next h => exact postingIdentity_sameList h
  · next h _ => exact postingIdentity_sameList h
  · next h _ =>
      refine (postingIdentity_sameList h).trans ?_
      split
      · exact ⟨rfl, rfl, rfl⟩
      · show SameList _ (if _ then _ else _)
        split <;> exact ⟨rfl, rfl, rfl⟩

/-- What changes the shape of the list brings the cursor back into it. -/
theorem toggleFoldUnderCursor_effect :
    ListEffect lowercase app app.toggleFoldUnderCursor input := by
  unfold toggleFoldUnderCursor
  split
  · exact .same ⟨rfl, rfl, rfl⟩
  · split
    · exact .same ⟨rfl, rfl, rfl⟩
    · split
      · exact .same ⟨rfl, rfl, rfl⟩
      · split
        · exact .same ⟨rfl, rfl, rfl⟩
        · exact .placed id (onRow_clamp _)

theorem toggleReadUnderCursor_effect : ListEffect lowercase app app.toggleReadUnderCursor input := by
  unfold toggleReadUnderCursor
  split
  · exact .placed id (onRow_clamp _)
  · exact .same ⟨rfl, rfl, rfl⟩

theorem catchUp_effect : ListEffect lowercase app app.catchUp input := by
  unfold catchUp
  split
  · exact .same ⟨rfl, rfl, rfl⟩
  · split
    · exact .same ⟨rfl, rfl, rfl⟩
    · exact .placed id (onRow_clamp _)

/-- The threads that are rebuilt are current. -/
theorem current_rebuildThreads (app : App) : app.rebuildThreads.listing.Current :=
  Listing.current_rebuilt app.listing

theorem toggleThreading_effect : ListEffect lowercase app app.toggleThreading input :=
  .placed (fun _ => current_rebuildThreads { app with threaded := !app.threaded })
    (onRow_returnTo _ _)

theorem stepArticle_effect (delta : Int) :
    ListEffect lowercase app (app.stepArticle delta).1 input := by
  unfold stepArticle
  show ListEffect _ _ (if _ then _ else _ : App × List Request).1 _
  split
  · exact .same ⟨rfl, rfl, rfl⟩
  · next hin =>
      let moved := { app with articleCursor := (app.articleCursor + delta).toNat }
      have hrow : moved.OnRow := onRow_at (Or.inr (by omega))
      have hsame : SameList moved moved.loadSelectedArticle.1 := loadSelectedArticle_sameList
      refine .placed ?_ (hsame.onRow_iff.mpr hrow)
      rw [hsame.listing]
      exact id

theorem enterGroup_effect {key : Key} {group : GroupRow}
    (h : app.entered lowercase key = some group) :
    ListEffect lowercase app (app.enterGroup group).1 (.key key) := by
  unfold enterGroup
  show ListEffect _ _ (if _ then _ else _ : App × List Request).1 _
  split
  · next hempty => exact .cleared ⟨group, h, hempty⟩ rfl rfl
  · exact .placed (fun _ => Listing.current_cleared app.listing) (onRow_iff.mpr (Or.inl rfl))

theorem charKey_effect (c : Char) (control : Bool) :
    ListEffect lowercase app (app.charKey lowercase c control).1 input := by
  unfold charKey
  split
  case h_7 => exact .same refresh_sameList
  case h_8 | h_9 => exact moveCursor_effect _
  case h_10 =>
    split
    · exact moveCursor_effect _
    · exact .same ⟨rfl, rfl, rfl⟩
  case h_11 => exact moveToStart_effect
  case h_12 => exact moveToEnd_effect
  case h_13 | h_14 => exact stepArticle_effect _
  case h_15 =>
    dsimp only
    split
    · exact moveCursor_effect _
    · exact .placed id (onRow_returnTo _ _)
  case h_16 => exact toggleReadUnderCursor_effect
  case h_17 => exact catchUp_effect
  case h_18 => exact toggleThreading_effect
  case h_19 => exact toggleFoldUnderCursor_effect
  case h_20 => exact .same startArticle_sameList
  case h_21 => exact .same startFollowUp_sameList
  case h_22 => exact .same searchGroups_sameList
  all_goals exact .same ⟨rfl, rfl, rfl⟩

theorem paneKey_effect {key : Key} (hfilter : app.editingFilter = false)
    (hoverlay : app.overlay = .none) :
    ListEffect lowercase app (app.paneKey lowercase key).1 (.key key) := by
  refine paneKey_cases (P := fun r => ListEffect lowercase app r.1 (.key key)) (fun c => charKey_effect c _)
    (.same ⟨rfl, rfl, rfl⟩) (fun _ => .same ⟨rfl, rfl, rfl⟩) (fun _ => .same escape_sameList) (fun hkey => ?_)
    (fun delta => moveCursor_effect delta) moveToStart_effect moveToEnd_effect (.same ⟨rfl, rfl, rfl⟩)
  unfold activate
  split
  · next hfocus =>
      split
      · next group hgroup =>
          apply enterGroup_effect
          unfold entered
          rw [if_pos ⟨hfilter, hoverlay, hkey, hfocus⟩]
          exact hgroup
      · exact .same ⟨rfl, rfl, rfl⟩
  · exact .same loadSelectedArticle_sameList
  · exact .same ⟨rfl, rfl, rfl⟩

theorem onKey_effect (key : Key) : ListEffect lowercase app (app.onKey lowercase key).1 (.key key) := by
  unfold onKey
  split
  · exact .same (filterKey_sameList key)
  · next hfilter =>
      split
      · exact .same ⟨rfl, rfl, rfl⟩
      · split
        · exact .same (overlayKey_sameList key)
        · next hoverlay =>
            exact paneKey_effect (Bool.eq_false_iff.mpr hfilter) (not_not.mp hoverlay)

/-- Enter where it enters a group does just that. -/
theorem onKey_entered {key : Key} {group : GroupRow} (h : app.entered lowercase key = some group) :
    app.onKey lowercase key = app.enterGroup group := by
  unfold entered at h
  split at h
  · next hpane =>
      obtain ⟨hfilter, hoverlay, hkey, hfocus⟩ := hpane
      unfold onKey paneKey activate
      simp [hfilter, hoverlay, hkey, hfocus, h]
  · cases h

/-! ### Events -/

theorem reportUnsentDraft_sameList : SameList app app.reportUnsentDraft := by
  unfold reportUnsentDraft
  split <;> exact ⟨rfl, rfl, rfl⟩

theorem onPosted_sameList (text : Str) : SameList app (app.onPosted text).app := by
  unfold onPosted refreshAfterPosting
  dsimp only
  split
  · next hreload =>
      split at hreload
      · cases hreload
      · split at hreload
        · cases hreload
          exact ⟨rfl, rfl, rfl⟩
        · cases hreload
  · exact ⟨rfl, rfl, rfl⟩

theorem onOverviewComplete_sameList (group : GroupName) (token : FetchToken) :
    SameList app (app.onOverviewComplete group token) := by
  unfold onOverviewComplete
  dsimp only
  split
  · split <;> exact ⟨rfl, rfl, rfl⟩
  · split <;> exact ⟨rfl, rfl, rfl⟩

/-- **Records arrive**: the threads follow, and the cursor is put on the article it was on, or on the
last. -/
theorem absorbOverview_effect {mid : App} (hsame : SameList app mid) (records : List OverviewRecord) :
    ListEffect lowercase app (mid.absorbOverview records) input := by
  unfold absorbOverview
  split
  · exact .same hsame
  · dsimp only
    refine .placed (fun _ => current_rebuildThreads
      { mid with articles := mergeOverview records mid.articles }) ?_
    apply onRow_at
    split
    · omega
    · cases hrow : (mid.selectedArticle.map (·.number)).bind
          { mid with articles := mergeOverview records mid.articles }.rebuildThreads.rowOf with
      | none =>
          show min _ _ = 0 ∨ min _ _ < _
          omega
      | some row =>
          obtain ⟨number, -, hrow⟩ := Option.bind_eq_some_iff.mp hrow
          exact Or.inr (rowOf_lt hrow)

theorem onEvent_effect (event : Event) :
    ListEffect lowercase app (app.onEvent event).app (.event event) := by
  cases event with
  | groups rows scope filteredLocally => cases filteredLocally <;> exact .same ⟨rfl, rfl, rfl⟩
  | groupOpened summary => exact .marked trivial rfl rfl
  | article article => exact .marked trivial rfl rfl
  | overviewChunk group token records skipped =>
      show ListEffect _ _ (app.onOverviewChunk group token records skipped) _
      unfold onOverviewChunk
      split
      · let counted := { app with overviewSkipped := app.overviewSkipped + skipped }
        have hsame : SameList app counted := ⟨rfl, rfl, rfl⟩
        exact (absorbOverview_effect hsame records).follow ⟨rfl, rfl, rfl⟩
      · exact .same ⟨rfl, rfl, rfl⟩
  | overviewComplete group token => exact .same (onOverviewComplete_sameList group token)
  | posted text => exact .same (onPosted_sameList text)
  | cancelled context =>
      refine .same (SameList.trans ?_ reportUnsentDraft_sameList |>.trans ⟨rfl, rfl, rfl⟩)
      exact ⟨rfl, rfl, rfl⟩
  | failed context error =>
      refine .same (SameList.trans ?_ reportUnsentDraft_sameList)
      exact ⟨rfl, rfl, rfl⟩
  | disconnected =>
      refine .same (SameList.trans ?_ reportUnsentDraft_sameList)
      exact ⟨rfl, rfl, rfl⟩
  | connected _ _ _ | progress _ | stopped => exact .same ⟨rfl, rfl, rfl⟩

theorem onComposed_sameList (composed : Option (Str × Path)) :
    SameList app (app.onComposed composed).1 := by
  unfold onComposed
  cases composed with
  | none => exact ⟨rfl, rfl, rfl⟩
  | some edited =>
      obtain ⟨text, path⟩ := edited
      dsimp only
      split
      · exact ⟨rfl, rfl, rfl⟩
      · next problem problems _ =>
          have hnotes : ∀ (problems : List Problem) (app : App),
              SameList app (problems.foldl (fun app problem => app.note (.draftProblem problem)) app) := by
            intro problems
            induction problems with
            | nil => exact fun app => ⟨rfl, rfl, rfl⟩
            | cons problem problems ih =>
                intro app
                have hnote : SameList app (app.note (.draftProblem problem)) := ⟨rfl, rfl, rfl⟩
                exact hnote.trans (ih _)
          have hnoted := hnotes (problem :: problems) app
          unfold reportProblems
          generalize (problem :: problems).foldl (fun app problem => app.note (.draftProblem problem)) app =
            noted at hnoted ⊢
          exact hnoted.trans ⟨rfl, rfl, rfl⟩

end App

/-- **Every input** acts on the list in one of these ways. -/
theorem Watched.step_effect {lowercase : Str → Str} {w w' : Watched} {input : Input}
    (h : w.step lowercase input = some w') : ListEffect lowercase w.app w'.app input := by
  cases input with
  | key key =>
      cases h
      exact App.onKey_effect key
  | event event =>
      cases h
      exact App.onEvent_effect event
  | composed composed =>
      cases h
      exact .same (App.onComposed_sameList composed)
  | taken | resized _ _ | noted _ =>
      cases h
      exact .same ⟨rfl, rfl, rfl⟩

/-! ## The thread cache -/

theorem ListEffect.current {lowercase : Str → Str} {app after : App} {input : Input}
    (heffect : ListEffect lowercase app after input) (h : app.listing.Current) :
    after.listing.Current := by
  cases heffect with
  | same hsame =>
      rw [hsame.listing]
      exact h
  | placed hcurrent hrow => exact hcurrent h
  | cleared _ hlisting _ =>
      rw [hlisting]
      exact Listing.current_cleared app.listing
  | marked _ hlisting _ =>
      rw [hlisting]
      exact h

namespace Watched

variable (lowercase : Str → Str) (config : UiConfig) (read : ReadStore) (subscriptions : List Wildmat)
  (postFrom : Option Str) (inputs : List Input)

theorem start_current : (start config read subscriptions postFrom).app.listing.Current :=
  Listing.current_cleared (start config read subscriptions postFrom).app.listing

theorem run_current {w : Watched}
    (hrun : run (step lowercase) (start config read subscriptions postFrom) inputs = some w) :
    w.app.listing.Current := by
  have hok : Meets (step lowercase) (fun _ _ => True) (start config read subscriptions postFrom) inputs :=
    meets_of_forall _ (fun _ _ => trivial) _ _
  apply invariant_run (P := fun w => w.app.listing.Current) (step lowercase) _ (start_current ..) hok hrun
  exact fun _ _ _ _ hs h => (step_effect hs).current h

/-- **The threads are never stale, and hide nothing**, whatever keys and events come. -/
theorem threads_current (w : Watched)
    (hrun : run (step lowercase) (start config read subscriptions postFrom) inputs = some w) :
    (w.app.threaded = true → thread w.app.articles = some w.app.threads) ∧
      (w.app.threaded = false → w.app.threads = []) ∧
      (w.app.unreadOnly = false → (∀ record ∈ w.app.articles, record.number ∉ w.app.collapsed) →
        w.app.visibleArticles.Perm (List.range w.app.articles.length)) := by
  have hcurrent := run_current lowercase config read subscriptions postFrom inputs hrun
  refine ⟨?_, ?_, ?_⟩
  · intro hthreaded
    exact (if_pos hthreaded).mp hcurrent
  · intro hflat
    exact (if_neg (Bool.eq_false_iff.mp hflat)).mp hcurrent
  · intro hfilter hopen
    rw [App.visibleArticles_eq]
    refine Listing.rows_perm hcurrent (fun record _ => ?_) hopen
    show (!w.app.unreadOnly || _) = true
    rw [hfilter]
    rfl

/-- Two chunks, listed in threads. -/
theorem threads_current_twoChunks : ∃ w,
    run (step id) (start { quietConfig with threaded := true } {} [] none)
      (firstChunk ++ [secondChunk]) = some w ∧ w.app.threaded = true ∧
      thread w.app.articles = some w.app.threads ∧
      w.app.visibleArticles.Perm (List.range w.app.articles.length) := by
  have heval : (run (step id) (start { quietConfig with threaded := true } {} [] none)
      (firstChunk ++ [secondChunk])).map
      (fun w => (w.app.threaded, w.app.unreadOnly, w.app.collapsed)) = some (true, false, []) := by
    decide +kernel
  obtain ⟨w, hrun, hw⟩ := Option.map_eq_some_iff.mp heval
  obtain ⟨hthreaded, hw⟩ := Prod.mk.inj hw
  obtain ⟨hfilter, hcollapsed⟩ := Prod.mk.inj hw
  obtain ⟨hcurrent, -, hperm⟩ := threads_current id _ {} [] none _ w hrun
  refine ⟨w, hrun, hthreaded, hcurrent hthreaded, hperm hfilter ?_⟩
  rw [hcollapsed]
  exact fun _ _ => List.not_mem_nil

end Watched

/-! ## The cursor -/

/-- The cursor is at the top, or the filter is off, or the rows that are left reach down to the cursor when
`marks` say what has been read. -/
def App.KeepsRow (app : App) (marks : ReadSet) : Prop :=
  app.unreadOnly = true → app.articleCursor = 0 ∨
    app.articleCursor < (app.listing.rows fun number => !marks.contains number).length

instance (app : App) (marks : ReadSet) : Decidable (app.KeepsRow marks) :=
  inferInstanceAs (Decidable (_ → _))

/-- With other marks the list is another, and the cursor stays. -/
theorem App.onRow_marked {app after : App} {summary : GroupSummary}
    (hlisting : after.listing = app.listing) (hcursor : after.articleCursor = app.articleCursor)
    (hfilter : after.unreadOnly = app.unreadOnly) (hgroup : after.group = some summary)
    (h : app.OnRow) : after.OnRow ↔ app.KeepsRow (after.read.readSet summary.name.asStr) := by
  unfold KeepsRow
  rw [onRow_iff, visibleArticles_eq, hlisting, hcursor]
  cases hon : app.unreadOnly with
  | false =>
      have hall : ∀ app : App, app.unreadOnly = false → app.passes = fun _ => true := by
        intro app hoff
        funext number
        unfold passes
        rw [hoff]
        rfl
      have hbefore := onRow_iff.mp h
      rw [visibleArticles_eq, hall app hon, ← hall after (hfilter.trans hon)] at hbefore
      exact ⟨fun _ hoff => (by cases hoff), fun _ => hbefore⟩
  | true =>
      have hpasses : after.passes = fun number =>
          !(after.read.readSet summary.name.asStr).contains number := by
        funext number
        unfold passes isUnread
        rw [hfilter, hon, hgroup]
        rfl
      rw [hpasses]
      exact ⟨fun hrow _ => hrow, fun hrow => hrow rfl⟩

/-- **What opening an article marks as read**: the article, where it has a number and a group is on screen. -/
theorem App.read_onArticle (app : App) (article : Article) :
    (∃ number summary, app.markReadOnOpen = true ∧ article.number = some number ∧ app.group = some summary ∧
      (app.onArticle article).read = app.read.markRead summary.name.asStr number) ∨
    (app.onArticle article).read = app.read ∧
      ∀ number summary, app.markReadOnOpen = true → article.number = some number → app.group ≠ some summary := by
  cases hopen : app.markReadOnOpen with
  | false =>
      refine Or.inr ⟨?_, fun _ _ h => (by cases h)⟩
      unfold onArticle
      dsimp only [answered]
      rw [hopen]
  | true =>
      cases hnumber : article.number with
      | none =>
        refine Or.inr ⟨?_, fun _ _ _ h => (by cases h)⟩
        unfold onArticle
        dsimp only [answered, ArticleView.new]
        rw [hopen, hnumber]
      | some number =>
        cases hgroup : app.group with
        | none =>
            refine Or.inr ⟨?_, fun _ _ _ _ h => (by cases h)⟩
            unfold onArticle
            dsimp only [answered, ArticleView.new]
            rw [hopen, hnumber, hgroup]
        | some summary =>
            refine Or.inl ⟨number, summary, rfl, rfl, rfl, ?_⟩
            unfold onArticle
            dsimp only [answered, ArticleView.new]
            rw [hopen, hnumber, hgroup]
namespace Watched

variable {w w' : Watched} {lowercase : Str → Str} {input : Input}

/-- Enter on an empty group is pressed with the cursor at the top only, and an event that changes what has
been read leaves a row where the cursor is. -/
def KeepsCursor (lowercase : Str → Str) (w : Watched) : Input → Prop
  | .key key => ∀ group ∈ w.app.entered lowercase key, group.isEmpty = true → w.app.articleCursor = 0
  | .event (.article article) =>
      ∀ number ∈ article.number, ∀ summary ∈ w.app.group, w.app.markReadOnOpen = true →
        w.app.KeepsRow ((w.app.read.markRead summary.name.asStr number).readSet summary.name.asStr)
  | .event (.groupOpened summary) =>
      w.app.KeepsRow ((w.app.read.forgetExpired summary.name.asStr summary.low).readSet
        summary.name.asStr)
  | _ => True

instance (lowercase : Str → Str) (w : Watched) : (input : Input) → Decidable (KeepsCursor lowercase w input)
  | .key key => inferInstanceAs (Decidable (∀ group ∈ w.app.entered lowercase key, group.isEmpty = true →
      w.app.articleCursor = 0))
  | .event (.article article) => Option.decidableForallMem article.number
  | .event (.groupOpened summary) => inferInstanceAs (Decidable (w.app.KeepsRow
      ((w.app.read.forgetExpired summary.name.asStr summary.low).readSet summary.name.asStr)))
  | .event (.connected ..) | .event (.groups ..) | .event (.overviewChunk ..) | .event (.overviewComplete ..)
  | .event (.posted _) | .event (.progress _) | .event (.cancelled _) | .event (.failed ..)
  | .event .disconnected | .event .stopped => isTrue trivial
  | .composed _ | .taken | .resized _ _ | .noted _ => isTrue trivial

theorem onRow_article (h : w.app.OnRow) (article : Article) :
    (w.app.onArticle article).OnRow ↔ KeepsCursor lowercase w (.event (.article article)) := by
  have hsame : (w.app.onArticle article).passes = w.app.passes → (w.app.onArticle article).OnRow := by
    intro hpasses
    have hlist : SameList w.app (w.app.onArticle article) := ⟨rfl, hpasses, rfl⟩
    exact hlist.onRow_iff.mpr h
  have hunread : (w.app.onArticle article).read = w.app.read → (w.app.onArticle article).OnRow := by
    intro heq
    refine hsame (funext fun number => ?_)
    unfold App.passes App.isUnread
    rw [heq]
    rfl
  unfold KeepsCursor
  dsimp only
  rcases w.app.read_onArticle article with ⟨number, summary, hopen, hnumber, hgroup, hread⟩ | ⟨hread, hnone⟩
  · have hafter : (w.app.onArticle article).group = some summary := hgroup
    have hiff : (w.app.onArticle article).OnRow ↔
        w.app.KeepsRow ((w.app.onArticle article).read.readSet summary.name.asStr) :=
      App.onRow_marked rfl rfl rfl hafter h
    rw [hread] at hiff
    simp only [hopen, hnumber, hgroup, Option.mem_def, Option.some.injEq, forall_eq', forall_true_left]
    exact hiff
  · refine ⟨fun _ number hnumber summary hgroup hopen => ?_, fun _ => hunread hread⟩
    exact absurd hgroup (hnone number summary hopen hnumber)

/-- Enter on an empty group leaves the cursor where it was, over an empty list. -/
theorem onRow_key (h : w.app.OnRow) (key : Key) :
    (w.app.onKey lowercase key).1.OnRow ↔ KeepsCursor lowercase w (.key key) := by
  unfold KeepsCursor
  dsimp only
  by_cases hclears : Clears lowercase w.app (.key key)
  · obtain ⟨group, hentered, hempty⟩ := hclears
    have hafter : (w.app.onKey lowercase key).1 = w.app.clearArticles := by
      rw [App.onKey_entered hentered]
      unfold App.enterGroup
      dsimp only
      rw [if_pos hempty]
    have hnone : w.app.clearArticles.visibleArticles = [] := by
      apply List.eq_nil_iff_forall_not_mem.mpr
      intro index hindex
      exact absurd (App.lt_of_mem_visibleArticles hindex) (Nat.not_lt_zero _)
    rw [hafter, App.onRow_iff, hnone, Option.mem_def.mp hentered]
    simp [hempty, App.clearArticles]
  · have hvacuous : ∀ group ∈ w.app.entered lowercase key, group.isEmpty = true →
        w.app.articleCursor = 0 := fun group hgroup hempty => absurd ⟨group, hgroup, hempty⟩ hclears
    refine ⟨fun _ => hvacuous, fun _ => ?_⟩
    have heffect : ListEffect lowercase w.app (w.app.onKey lowercase key).1 (.key key) :=
      App.onKey_effect key
    cases heffect with
    | same hsame => exact hsame.onRow_iff.mpr h
    | placed _ hrow => exact hrow
    | cleared hthis _ _ => exact absurd hthis hclears
    | marked hmarks _ _ => exact hmarks.elim

/-- **One input** keeps the cursor on a row exactly when it meets the condition. -/
theorem onRow_step_iff (h : w.app.OnRow) (hs : w.step lowercase input = some w') :
    w'.app.OnRow ↔ KeepsCursor lowercase w input := by
  have hother : ¬ input.Marks → ¬ Clears lowercase w.app input → w'.app.OnRow := by
    intro hmarks hclears
    cases step_effect hs with
    | same hsame => exact hsame.onRow_iff.mpr h
    | placed _ hrow => exact hrow
    | cleared hthis _ _ => exact absurd hthis hclears
    | marked hthis _ _ => exact absurd hthis hmarks
  cases input with
  | key key =>
      cases hs
      exact onRow_key h key
  | event event =>
      cases event with
      | article article =>
          cases hs
          exact onRow_article h article
      | groupOpened summary =>
          cases hs
          exact App.onRow_marked rfl rfl rfl rfl h
      | _ => exact ⟨fun _ => trivial, fun _ => hother (fun hmarks => hmarks) fun hclears => hclears⟩
  | _ => exact ⟨fun _ => trivial, fun _ => hother (fun hmarks => hmarks) fun hclears => hclears⟩

/-- Only unread articles are shown. -/
def unreadConfig : UiConfig where
  unreadOnly := true
  threaded := false
  initialArticles := 10
  markReadOnOpen := true

/-- An article without a header. -/
def bareArticle (number : UInt64) : Article where
  number := some number
  displayText := []
  attachments := []
  messageId := none
  references := []
  subject := []
  author := []
  newsgroups := none
  followupTo := none

/-- Two articles are listed, and the cursor is on the newer, which is then opened. -/
def opensLast : List Input :=
  [.event (.groups [
      { name := compLangC, low := 1, high := 2, status := .permitted, description := none }]
      .everything false),
    .key { code := .enter },
    .event (.groupOpened { name := compLangC, estimatedCount := 2, low := 1, high := 2 }),
    .event (.overviewChunk compLangC 1 [bareRecord 1, bareRecord 2] 0),
    .event (.article (bareArticle 2))]

end Watched

end Nntp.Tui
