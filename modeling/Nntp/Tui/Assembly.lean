import Nntp.Tui.Listing

/-!
# Assembling an overview

The records of a fetch arrive in chunks, each in the order of the numbers. However the records were cut up,
and whichever chunk comes first, the list ends up the same: in order, and each number once.
-/

namespace Nntp.Tui

open Nntp.Lib Nntp.Proto Nntp.Client

/-- The numbers ascend, so none is there twice. -/
def Ascending (records : List OverviewRecord) : Prop :=
  records.Pairwise fun a b => a.number < b.number

instance (records : List OverviewRecord) : Decidable (Ascending records) :=
  inferInstanceAs (Decidable (List.Pairwise _ _))

/-- The order the list is kept in. -/
def byNumber (a b : OverviewRecord) : Bool := decide (a.number ≤ b.number)

theorem pairwise_mergeSort_byNumber (records : List OverviewRecord) :
    (records.mergeSort byNumber).Pairwise fun a b => a.number ≤ b.number := by
  refine (List.pairwise_mergeSort ?_ ?_ records).imp fun h => of_decide_eq_true h
  · intro a b c hab hbc
    exact decide_eq_true (UInt64.le_trans (of_decide_eq_true hab) (of_decide_eq_true hbc))
  · intro a b
    simp only [byNumber, Bool.or_eq_true, decide_eq_true_eq]
    exact UInt64.le_total _ _

namespace Ascending

variable {records held : List OverviewRecord}

theorem nodup (h : Ascending records) : (records.map (·.number)).Nodup := by
  apply List.pairwise_map.mpr
  refine h.imp ?_
  intro a b hlt heq
  rw [heq] at hlt
  exact UInt64.lt_irrefl _ hlt

/-- A record of the list is what is found under its number. -/
theorem find?_eq_some (h : Ascending records) {r : OverviewRecord} :
    records.find? (fun a => decide (a.number = r.number)) = some r ↔ r ∈ records := by
  constructor
  · exact List.mem_of_find?_eq_some
  · intro hr
    cases hfind : records.find? fun a => decide (a.number = r.number) with
    | none => exact absurd (decide_eq_true rfl) (List.find?_eq_none.mp hfind r hr)
    | some r' =>
        have hnumber : r'.number = r.number := by simpa using List.find?_some hfind
        rw [List.inj_on_of_nodup_map h.nodup (List.mem_of_find?_eq_some hfind) hr hnumber]

/-- Records that are all older go in front. -/
theorem append (hrecords : Ascending records) (hheld : Ascending held)
    {newestArriving oldestHeld : OverviewRecord} (hnewest : records.getLast? = some newestArriving)
    (holdest : held.head? = some oldestHeld) (hlt : newestArriving.number < oldestHeld.number) :
    Ascending (records ++ held) := by
  obtain ⟨older, rfl⟩ := List.getLast?_eq_some_iff.mp hnewest
  obtain ⟨newer, rfl⟩ := List.head?_eq_some_iff.mp holdest
  obtain ⟨-, -, hbefore⟩ := List.pairwise_append.mp hrecords
  have hle : ∀ a ∈ older ++ [newestArriving], a.number ≤ newestArriving.number := by
    intro a ha
    rcases List.mem_append.mp ha with ha | ha
    · exact UInt64.le_of_lt (hbefore a ha _ List.mem_cons_self)
    · rw [List.mem_singleton.mp ha]
  have hge : ∀ b ∈ oldestHeld :: newer, oldestHeld.number ≤ b.number := by
    intro b hb
    rcases List.mem_cons.mp hb with rfl | hb
    · exact UInt64.le_refl _
    · exact UInt64.le_of_lt ((List.pairwise_cons.mp hheld).1 b hb)
  refine List.pairwise_append.mpr ⟨hrecords, hheld, ?_⟩
  intro a ha b hb
  exact UInt64.lt_of_le_of_lt (hle a ha) (UInt64.lt_of_lt_of_le hlt (hge b hb))

/-- **The merge keeps the list in order**, on each of its paths. -/
theorem absorb (hrecords : Ascending records) (hheld : Ascending held) :
    Ascending (Ledger.absorb held records) := by
  unfold Ledger.absorb
  split
  · exact hheld
  · unfold mergeOverview
    dsimp only
    split
    · exact hrecords
    · next holdest hnewest =>
        split
        · next hlt => exact hrecords.append hheld hnewest holdest hlt
        · exact pairwise_dedupByKey (pairwise_mergeSort_byNumber _)
    · exact pairwise_dedupByKey (pairwise_mergeSort_byNumber _)

/-- **The merge is the union**, in which a record that arrives takes the place of one that is held. -/
theorem mem_absorb (hrecords : Ascending records) (hheld : Ascending held) (r : OverviewRecord) :
    r ∈ Ledger.absorb held records ↔
      r ∈ records ∨ (r ∈ held ∧ ∀ arriving ∈ records, arriving.number ≠ r.number) := by
  rw [← (hrecords.absorb hheld).find?_eq_some, find?_absorb, List.find?_append,
    Option.or_eq_some_iff, hrecords.find?_eq_some, hheld.find?_eq_some, List.find?_eq_none]
  simp only [decide_eq_true_eq, and_comm, ne_eq]

/-- A list in order is the sorted list of what is in it. -/
theorem eq_mergeSort (h : Ascending held) (hperm : held.Perm records) :
    held = records.mergeSort byNumber := by
  have hle : held.Pairwise fun a b => a.number ≤ b.number := h.imp UInt64.le_of_lt
  refine List.Perm.eq_of_pairwise ?_ hle (pairwise_mergeSort_byNumber records)
    (hperm.trans (List.mergeSort_perm records byNumber).symm)
  intro a b ha hb hab hba
  have hb : b ∈ held := hperm.mem_iff.mpr ((List.mergeSort_perm records byNumber).mem_iff.mp hb)
  exact List.inj_on_of_nodup_map h.nodup ha hb (UInt64.le_antisymm hab hba)

end Ascending

/-! ## Chunk by chunk -/

/-- Chunks of one fetch, in the order they arrive, each with the lines of it that were skipped. -/
def App.deliver (app : App) (group : GroupName) (token : FetchToken)
    (chunks : List (List OverviewRecord × Nat)) : App :=
  chunks.foldl (fun app chunk => (app.onEvent (.overviewChunk group token chunk.1 chunk.2)).app) app

namespace App

variable {app : App} {group : GroupName} {token : FetchToken}

theorem articles_absorbOverview (app : App) (records : List OverviewRecord) :
    (app.absorbOverview records).articles = Ledger.absorb app.articles records :=
  congrArg Ledger.articles (app.ledger_absorbOverview records)

theorem current_absorbOverview {records : List OverviewRecord} (h : records ≠ []) :
    (app.absorbOverview records).listing.Current := by
  unfold absorbOverview
  rw [if_neg (by simpa using h)]
  exact current_rebuildThreads { app with articles := mergeOverview records app.articles }

/-- **A chunk that is accepted**: its records are merged, the threads follow, and the next one is accepted
too. -/
theorem chunk_accepted (haccepts : app.acceptsOverview group token = true)
    (records : List OverviewRecord) (skipped : Nat) :
    (app.onEvent (.overviewChunk group token records skipped)).app.articles =
        Ledger.absorb app.articles records ∧
      (app.onEvent (.overviewChunk group token records skipped)).app.acceptsOverview group token = true := by
  have hthis : app.ledger.Accepts group token := (app.acceptsOverview_iff group token).mp haccepts
  have hledger : (app.onEvent (.overviewChunk group token records skipped)).app.ledger =
      { app.ledger with articles := Ledger.absorb app.articles records } :=
    (ledger_onEvent app _).1.trans (if_pos hthis)
  refine ⟨congrArg Ledger.articles hledger, ?_⟩
  apply (acceptsOverview_iff _ group token).mpr
  rw [hledger]
  exact hthis

/-- The threads are current when there was a record in the chunk, or they were before. -/
theorem chunk_current (haccepts : app.acceptsOverview group token = true)
    (records : List OverviewRecord) (skipped : Nat) (h : records ≠ [] ∨ app.listing.Current) :
    (app.onEvent (.overviewChunk group token records skipped)).app.listing.Current := by
  rcases h with h | h
  · show (app.onOverviewChunk group token records skipped).listing.Current
    unfold onOverviewChunk
    rw [if_pos haccepts]
    exact current_absorbOverview h
  · have heffect : ListEffect id app _ (.event (.overviewChunk group token records skipped)) :=
      onEvent_effect _
    exact heffect.current h

theorem deliver_cons (app : App) (chunk : List OverviewRecord × Nat)
    (chunks : List (List OverviewRecord × Nat)) : app.deliver group token (chunk :: chunks) =
      (app.onEvent (.overviewChunk group token chunk.1 chunk.2)).app.deliver group token chunks :=
  rfl

/-- **Chunks without a number in common** add up to a list in order that has all of them. -/
theorem deliver_articles (chunks : List (List OverviewRecord × Nat))
    (haccepts : app.acceptsOverview group token = true) (hheld : Ascending app.articles)
    (hchunks : ∀ chunk ∈ chunks, Ascending chunk.1)
    (hnumbers : ((app.articles ++ chunks.flatMap (·.1)).map (·.number)).Nodup) :
    Ascending (app.deliver group token chunks).articles ∧
      ∀ r, r ∈ (app.deliver group token chunks).articles ↔
        r ∈ app.articles ∨ r ∈ chunks.flatMap (·.1) := by
  induction chunks generalizing app with
  | nil =>
      refine ⟨hheld, fun r => ?_⟩
      rw [List.flatMap_nil]
      simp [deliver]
  | cons chunk chunks ih =>
      obtain ⟨harticles, hnext⟩ := chunk_accepted haccepts chunk.1 chunk.2
      have hchunk : Ascending chunk.1 := hchunks chunk List.mem_cons_self
      rw [List.flatMap_cons, ← List.append_assoc] at hnumbers
      obtain ⟨hboth, hrest, hapart⟩ := List.nodup_append.mp
        (by rwa [List.map_append] at hnumbers :
          ((app.articles ++ chunk.1).map (·.number) ++ (chunks.flatMap (·.1)).map (·.number)).Nodup)
      have hmem : ∀ r, r ∈ Ledger.absorb app.articles chunk.1 ↔ r ∈ app.articles ∨ r ∈ chunk.1 := by
        intro r
        rw [hchunk.mem_absorb hheld, or_comm]
        -- no record held has the number of one that arrives
        refine or_congr_left (and_iff_left_of_imp fun hr arriving harriving heq => ?_)
        rw [List.map_append] at hboth
        exact (List.nodup_append.mp hboth).2.2 _ (List.mem_map_of_mem hr) _
          (List.mem_map_of_mem harriving) heq.symm
      rw [deliver_cons]
      have hstep := ih hnext (by rw [harticles]; exact hchunk.absorb hheld)
        (fun c hc => hchunks c (List.mem_cons_of_mem _ hc)) ?_
      · refine ⟨hstep.1, fun r => ?_⟩
        rw [hstep.2, harticles, hmem, List.flatMap_cons, List.mem_append, or_assoc]
      · rw [harticles, List.map_append]
        refine List.nodup_append.mpr ⟨(hchunk.absorb hheld).nodup, hrest, ?_⟩
        intro number hnumber
        obtain ⟨r, hr, rfl⟩ := List.mem_map.mp hnumber
        apply hapart
        exact List.mem_map_of_mem (List.mem_append.mpr ((hmem r).mp hr))

/-- The threads are current once a record has arrived. -/
theorem deliver_current (chunks : List (List OverviewRecord × Nat))
    (haccepts : app.acceptsOverview group token = true)
    (h : chunks.flatMap (·.1) ≠ [] ∨ app.listing.Current) :
    (app.deliver group token chunks).listing.Current := by
  induction chunks generalizing app with
  | nil => exact h.resolve_left fun hne => hne rfl
  | cons chunk chunks ih =>
      rw [deliver_cons]
      apply ih (chunk_accepted haccepts chunk.1 chunk.2).2
      by_cases hrest : chunks.flatMap (·.1) = []
      · apply Or.inr
        apply chunk_current haccepts
        rw [List.flatMap_cons, hrest, List.append_nil] at h
        exact h
      · exact Or.inl hrest

theorem deliver_threaded (app : App) (chunks : List (List OverviewRecord × Nat)) :
    (app.deliver group token chunks).threaded = app.threaded := by
  induction chunks generalizing app with
  | nil => rfl
  | cons chunk chunks ih =>
      rw [deliver_cons, ih]
      show (app.onOverviewChunk group token chunk.1 chunk.2).threaded = app.threaded
      unfold onOverviewChunk absorbOverview
      split
      · dsimp only
        split <;> rfl
      · rfl

/-- **How an overview was cut up does not matter.** Into a list in order, records in order are merged as a
union in which the record that arrives wins; and chunks of records with distinct numbers, whatever their
order, make an empty list into the sorted list of all of them, with its threads. A list that has no records
has no threads either (`run_current`). -/
theorem overview_assembled (app : App) :
    (∀ records, Ascending app.articles → Ascending records →
      Ascending (app.absorbOverview records).articles ∧
        ∀ r, r ∈ (app.absorbOverview records).articles ↔
          r ∈ records ∨ (r ∈ app.articles ∧ ∀ arriving ∈ records, arriving.number ≠ r.number)) ∧
    ∀ group token records (chunks : List (List OverviewRecord × Nat)),
      app.articles = [] → app.acceptsOverview group token = true →
      (records.map (·.number)).Nodup → (∀ chunk ∈ chunks, Ascending chunk.1) →
      (chunks.flatMap (·.1)).Perm records →
      Ascending (app.deliver group token chunks).articles ∧
        (app.deliver group token chunks).articles = records.mergeSort byNumber ∧
        (app.threaded = true → records ≠ [] ∨ app.threads = [] →
          thread (app.deliver group token chunks).articles =
            some (app.deliver group token chunks).threads) := by
  constructor
  · intro records hheld hrecords
    rw [articles_absorbOverview]
    exact ⟨hrecords.absorb hheld, hrecords.mem_absorb hheld⟩
  · intro group token records chunks hempty haccepts hnumbers hchunks hperm
    have hflat : ((chunks.flatMap (·.1)).map (·.number)).Nodup := (hperm.map _).nodup_iff.mpr hnumbers
    obtain ⟨hascending, hmem⟩ := deliver_articles chunks haccepts
      (by rw [hempty]; exact List.Pairwise.nil) hchunks (by rw [hempty]; exact hflat)
    have hall : (app.deliver group token chunks).articles.Perm records := by
      refine (List.perm_ext_iff_of_nodup hascending.nodup.of_map hnumbers.of_map).mpr fun r => ?_
      rw [hmem, hempty, hperm.mem_iff]
      simp
    refine ⟨hascending, hascending.eq_mergeSort hall, fun hthreaded hfresh => ?_⟩
    have hcurrent : (app.deliver group token chunks).listing.Current := by
      apply deliver_current chunks haccepts
      refine hfresh.imp (fun hne hnil => ?_) fun hthreads => ?_
      · rw [hnil] at hperm
        exact hne hperm.nil_eq.symm
      · have hcleared := Listing.current_cleared app.listing
        unfold Listing.Current at hcleared ⊢
        show if app.threaded then thread app.articles = some app.threads else app.threads = []
        rw [hempty, hthreads]
        exact hcleared
    exact (if_pos ((deliver_threaded app chunks).trans hthreaded)).mp hcurrent

/-- An interface that waits for the records of the first fetch. -/
def waiting : App :=
  { App.new { Watched.quietConfig with threaded := true } {} with
    group := some { name := Watched.compLangC, estimatedCount := 3, low := 1, high := 3 }
    overviewToken := some 1 }

/-- Three records in two chunks, the middle one first. -/
theorem overview_assembled_three :
    let after := waiting.deliver Watched.compLangC 1
      [([Watched.bareRecord 2], 0), ([Watched.bareRecord 1, Watched.bareRecord 3], 1)]
    Ascending after.articles ∧
      after.articles = [Watched.bareRecord 1, Watched.bareRecord 2, Watched.bareRecord 3].mergeSort
        byNumber ∧
      thread after.articles = some after.threads := by
  obtain ⟨hascending, hsorted, hthreads⟩ := (overview_assembled waiting).2 Watched.compLangC 1
    [Watched.bareRecord 1, Watched.bareRecord 2, Watched.bareRecord 3]
    [([Watched.bareRecord 2], 0), ([Watched.bareRecord 1, Watched.bareRecord 3], 1)]
    rfl (by decide) (by decide) (by decide) (by decide)
  exact ⟨hascending, hsorted, hthreads rfl (Or.inr rfl)⟩

end App

end Nntp.Tui
