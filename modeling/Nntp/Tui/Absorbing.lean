import Nntp.Tui.Assembly

/-!
# The reader's place

A chunk of records changes the list under the cursor: the records are merged, the threads are made again,
and the rows with them. What carries the place over is the number of the article under the cursor, which
the merge keeps; a cursor on the last row goes to the last row there is then.
-/

namespace Nntp.Tui

open Nntp.Proto Nntp.Client

/-! ## Rows there are -/

section Shown

variable {records : List OverviewRecord} {lets : UInt64 → Bool} {collapsed : List UInt64} {index : Nat}

mutual

/-- A thread with an article that passes the filter has a row, folded away as that article may be. -/
theorem shownIn_ne_nil {node : ThreadNode} (h : index ∈ node.articles)
    (hdrawn : (drawnOf records lets (some index)).isSome = true) :
    shownIn (drawnOf records lets) collapsed node ≠ [] := by
  obtain ⟨article, children⟩ := node
  unfold shownIn
  split
  · exact List.cons_ne_nil _ _
  · next hnone =>
      unfold ThreadNode.articles at h
      rcases List.mem_append.mp h with h | h
      · -- the article of the node itself would be drawn
        rw [Option.mem_toList] at h
        rw [← Option.mem_def.mp h, hnone] at hdrawn
        cases hdrawn
      · exact shownAll_ne_nil h hdrawn

theorem shownAll_ne_nil {nodes : List ThreadNode} (h : index ∈ ThreadNode.articlesAll nodes)
    (hdrawn : (drawnOf records lets (some index)).isSome = true) :
    shownAll (drawnOf records lets) collapsed nodes ≠ [] := by
  cases nodes with
  | nil => cases h
  | cons node nodes =>
      unfold ThreadNode.articlesAll at h
      unfold shownAll
      rcases List.mem_append.mp h with h | h
      · exact List.append_ne_nil_of_left_ne_nil (shownIn_ne_nil h hdrawn) _
      · exact List.append_ne_nil_of_right_ne_nil _ (shownAll_ne_nil h hdrawn)

end

end Shown

namespace Listing

variable {l : Listing} {lets : UInt64 → Bool}

/-- Of records one of which passes the filter, something is listed. -/
theorem rows_ne_nil (hcurrent : l.Current) {record : OverviewRecord} (hrecord : record ∈ l.articles)
    (hlets : lets record.number = true) : l.rows lets ≠ [] := by
  obtain ⟨index, hindex⟩ := List.mem_iff_getElem?.mp hrecord
  unfold Current at hcurrent
  unfold rows
  split
  · next hthreaded =>
      rw [if_pos hthreaded] at hcurrent
      obtain ⟨forest, hforest, hperm⟩ := exists_thread l.articles
      obtain rfl : forest = l.threads := Option.some.inj (hforest.symm.trans hcurrent)
      rw [← ThreadNode.articlesAll_eq_flatMap] at hperm
      have hmem : index ∈ ThreadNode.articlesAll l.threads := by
        apply hperm.mem_iff.mpr
        exact List.mem_range.mpr (List.getElem?_eq_some_iff.mp hindex).1
      apply shownAll_ne_nil hmem
      rw [drawnOf_eq_some.mpr ⟨rfl, ⟨record, hindex, rfl⟩, hlets⟩]
      rfl
  · have hmem : (record, index) ∈ l.articles.zipIdx.filter fun a => lets a.1.number := by
      rw [List.mem_filter]
      exact ⟨List.mem_zipIdx_iff_getElem?.mpr hindex, hlets⟩
    rw [ne_eq, List.map_eq_nil_iff]
    exact List.ne_nil_of_mem hmem

end Listing

/-! ## A chunk -/

namespace App

variable {app : App} {group : GroupName} {token : FetchToken} {records : List OverviewRecord}

/-- The numbers that are on a row. -/
def drawnNumbers (app : App) : List UInt64 :=
  app.visibleArticles.filterMap fun index => app.articles[index]?.map (·.number)

theorem rowOf_isSome {number : UInt64} (h : number ∈ app.drawnNumbers) :
    ∃ row, app.rowOf number = some row := by
  unfold drawnNumbers at h
  obtain ⟨index, hindex, hnumber⟩ := List.mem_filterMap.mp h
  obtain ⟨record, hrecord, rfl⟩ := Option.map_eq_some_iff.mp hnumber
  apply Option.isSome_iff_exists.mp
  unfold rowOf
  rw [List.findIdx?_isSome, List.any_eq_true]
  refine ⟨index, hindex, ?_⟩
  rw [hrecord]
  simp

/-- With the cursor on the row of a number, the article of that number is selected. -/
theorem selectedArticle_at {number : UInt64} {row : Nat} (h : app.rowOf number = some row)
    (hcursor : app.articleCursor = row) : app.selectedArticle.map (·.number) = some number := by
  unfold rowOf at h
  obtain ⟨hlt, hrow, -⟩ := List.findIdx?_eq_some_iff_getElem.mp h
  unfold selectedArticle
  rw [hcursor, List.getElem?_eq_getElem hlt, Option.bind_some]
  cases hrecord : app.articles[app.visibleArticles[row]]? with
  | none => simp [hrecord] at hrow
  | some record => simpa [hrecord] using hrow

/-- The number of a record that is held is kept, be it that another record has it afterwards. -/
theorem number_absorb (hheld : Ascending app.articles) (hrecords : Ascending records)
    {record : OverviewRecord} (h : record ∈ app.articles) :
    ∃ kept ∈ Ledger.absorb app.articles records, kept.number = record.number := by
  by_cases harriving : ∃ arriving ∈ records, arriving.number = record.number
  · obtain ⟨arriving, hmem, hnumber⟩ := harriving
    exact ⟨arriving, (hrecords.mem_absorb hheld arriving).mpr (Or.inl hmem), hnumber⟩
  · refine ⟨record, (hrecords.mem_absorb hheld record).mpr (Or.inr ⟨h, ?_⟩), rfl⟩
    intro arriving hmem heq
    exact harriving ⟨arriving, hmem, heq⟩

/-- A list with a row in it has one after the merge. -/
theorem visibleArticles_absorb (hheld : Ascending app.articles) (hrecords : Ascending records)
    (hne : records ≠ []) (h : app.visibleArticles ≠ []) :
    (app.absorbOverview records).visibleArticles ≠ [] := by
  obtain ⟨index, hindex⟩ := List.exists_mem_of_ne_nil _ h
  rw [visibleArticles_eq] at hindex
  obtain ⟨record, hrecord, hlets⟩ := Listing.record_of_mem_rows hindex
  obtain ⟨kept, hkept, hnumber⟩ := number_absorb hheld hrecords (List.mem_of_getElem? hrecord)
  have hpasses : (app.absorbOverview records).passes = app.passes := by
    unfold absorbOverview
    split <;> rfl
  rw [visibleArticles_eq, hpasses]
  have hafter : kept ∈ (app.absorbOverview records).listing.articles := by
    show kept ∈ (app.absorbOverview records).articles
    rw [articles_absorbOverview]
    exact hkept
  apply Listing.rows_ne_nil (current_absorbOverview hne) hafter
  rw [hnumber]
  exact hlets

/-- Everything on a row depends on the list, what it lets through and the cursor only. -/
theorem selectedArticle_congr {other : App} (h : SameList app other) :
    other.selectedArticle = app.selectedArticle := by
  have harticles : other.articles = app.articles := congrArg Listing.articles h.listing
  unfold selectedArticle
  rw [visibleArticles_congr h.listing h.passes, harticles, h.cursor]

theorem drawnNumbers_congr {other : App} (h : SameList app other) : other.drawnNumbers = app.drawnNumbers := by
  have harticles : other.articles = app.articles := congrArg Listing.articles h.listing
  unfold drawnNumbers
  rw [visibleArticles_congr h.listing h.passes, harticles]

theorem rowOf_at (app : App) (row : Nat) (number : UInt64) :
    { app with articleCursor := row }.rowOf number = app.rowOf number := by
  unfold rowOf
  rw [visibleArticles_at]

/-- The list with the records merged into it. -/
def merged (app : App) (records : List OverviewRecord) : App :=
  { app with articles := mergeOverview records app.articles }.rebuildThreads

/-- Where the cursor goes. -/
theorem absorbOverview_eq (hne : records ≠ []) :
    app.absorbOverview records = { app.merged records with
      articleCursor :=
        if app.visibleArticles.length ≤ app.articleCursor + 1 then (app.merged records).visibleArticles.length - 1
        else ((app.selectedArticle.map (·.number)).bind (app.merged records).rowOf).getD
          (min app.articleCursor ((app.merged records).visibleArticles.length - 1)) } := by
  unfold absorbOverview
  rw [if_neg (by simpa using hne)]
  rfl

/-- The merge keeps the place. -/
theorem absorb_keeps_place (hheld : Ascending app.articles) (hrecords : Ascending records) :
    (∀ record, app.articleCursor + 1 < app.visibleArticles.length → app.selectedArticle = some record →
        record.number ∈ (app.absorbOverview records).drawnNumbers →
          (app.absorbOverview records).selectedArticle.map (·.number) = some record.number) ∧
      (app.articleCursor + 1 = app.visibleArticles.length →
        (app.absorbOverview records).articleCursor + 1 = (app.absorbOverview records).visibleArticles.length) := by
  by_cases hne : records = []
  · subst hne
    exact ⟨fun record _ hselected _ => congrArg (Option.map (·.number)) hselected, id⟩
  constructor
  · intro record habove hselected hdrawn
    obtain ⟨row, hrow⟩ := rowOf_isSome hdrawn
    apply selectedArticle_at hrow
    rw [absorbOverview_eq hne, rowOf_at] at hrow
    rw [absorbOverview_eq hne]
    dsimp only
    rw [if_neg (Nat.not_le.mpr habove), hselected, Option.map_some, Option.bind_some, hrow]
    rfl
  · intro hlast
    have hrows : app.visibleArticles ≠ [] := by
      intro hnil
      rw [hnil] at hlast
      cases hlast
    have hafter := visibleArticles_absorb hheld hrecords hne hrows
    have hmerged : (app.absorbOverview records).visibleArticles = (app.merged records).visibleArticles := by
      rw [absorbOverview_eq hne]
      exact visibleArticles_at _ _
    have hcursor : (app.absorbOverview records).articleCursor = (app.merged records).visibleArticles.length - 1 := by
      rw [absorbOverview_eq hne]
      exact if_pos hlast.ge
    rw [hmerged] at hafter ⊢
    rw [hcursor]
    exact Nat.sub_add_cancel (List.length_pos_iff.mpr hafter)

/-- **The reader's place is kept.** A cursor that is on a row above the last stays on its article, if that has
a row still; a cursor on the last row stays on the last row. -/
theorem chunk_keeps_place (haccepts : app.acceptsOverview group token = true)
    (hheld : Ascending app.articles) (hrecords : Ascending records) (skipped : Nat) :
    let after := (app.onEvent (.overviewChunk group token records skipped)).app
    (app.articleCursor + 1 < app.visibleArticles.length → ∃ record, app.selectedArticle = some record ∧
        (record.number ∈ after.drawnNumbers →
          after.selectedArticle.map (·.number) = some record.number)) ∧
      (app.articleCursor + 1 = app.visibleArticles.length →
        after.articleCursor + 1 = after.visibleArticles.length) := by
  intro after
  -- the skipped lines are counted before the records are merged
  have hcounted : SameList app { app with overviewSkipped := app.overviewSkipped + skipped } := ⟨rfl, rfl, rfl⟩
  have hafter : SameList ({ app with overviewSkipped := app.overviewSkipped + skipped }.absorbOverview records)
      after := by
    show SameList _ (app.onOverviewChunk group token records skipped)
    unfold onOverviewChunk
    rw [if_pos haccepts]
    exact ⟨rfl, rfl, rfl⟩
  have hplace := @absorb_keeps_place { app with overviewSkipped := app.overviewSkipped + skipped } records
    hheld hrecords
  rw [visibleArticles_congr hcounted.listing hcounted.passes, selectedArticle_congr hcounted,
    ← drawnNumbers_congr hafter, ← selectedArticle_congr hafter,
    ← visibleArticles_congr hafter.listing hafter.passes, ← hafter.cursor] at hplace
  refine ⟨fun habove => ?_, hplace.2⟩
  have honRow : app.OnRow := Or.inl (Nat.lt_of_succ_lt habove)
  have hrows : app.visibleArticles ≠ [] := by
    intro hnil
    rw [hnil] at habove
    exact absurd habove (Nat.not_lt_zero _)
  obtain ⟨record, hrecord⟩ := Option.isSome_iff_exists.mp (honRow.selected hrows)
  exact ⟨record, hrecord, hplace.1 record habove hrecord⟩

/-- Two articles in threads, with the cursor moved up to the older. -/
def movedUp : App :=
  { (waiting.onEvent (.overviewChunk Watched.compLangC 1 [Watched.bareRecord 2, Watched.bareRecord 3] 0)).app with
    articleCursor := 0 }

/-- An older one comes in above it. -/
theorem chunk_keeps_place_older :
    let after := (movedUp.onEvent (.overviewChunk Watched.compLangC 1 [Watched.bareRecord 1] 0)).app
    after.selectedArticle.map (·.number) = some 2 := by
  obtain ⟨record, hrecord, hkept⟩ := (@chunk_keeps_place movedUp Watched.compLangC 1 [Watched.bareRecord 1]
    (by decide +kernel) (by decide +kernel) (by decide) 0).1 (by decide +kernel)
  have hselected : movedUp.selectedArticle = some (Watched.bareRecord 2) := by decide +kernel
  obtain rfl : record = Watched.bareRecord 2 := Option.some.inj (hrecord.symm.trans hselected)
  exact hkept (by decide +kernel)

end App

end Nntp.Tui
