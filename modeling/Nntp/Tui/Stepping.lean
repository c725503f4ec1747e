import Nntp.Tui.Listing

/-!
# Stepping through the unread

`n` moves the cursor one row down and opens the article there. With the unread filter on and opening an article
marking it as read, the article leaves the list when it arrives, and the row after it moves up under the cursor;
the next `n` then steps over that row. The numbers of the rows below the cursor, `upcoming`, say how the list
and the cursor move against each other.
-/

namespace Nntp.Tui

open Nntp.Lib Nntp.Proto Nntp.Client

/-! ## Marks -/

theorem ReadSet.contains_insert {s : ReadSet} (h : s.Valid) {number : UInt64} (hnumber : number ≠ 0) (n : UInt64) :
    (s.insert number).contains n = (s.contains n || n == number) := by
  obtain ⟨hvalid, hmem⟩ := insertRange_spec h number number
  have hpos : 1 ≤ number := by
    rw [UInt64.le_iff_toNat_le]
    exact Nat.one_le_iff_ne_zero.mpr fun hzero => hnumber (UInt64.toNat_inj.mp hzero)
  rw [Bool.eq_iff_iff, Bool.or_eq_true, beq_iff_eq, contains_iff h, insert, contains_iff hvalid, hmem, min_self,
    max_self]
  refine or_congr_right ⟨fun hn => le_antisymm hn.2.1 hn.1, ?_⟩
  rintro rfl
  exact ⟨le_refl _, le_refl _, hpos⟩

/-- Article `0` is not marked. -/
theorem ReadSet.insert_zero (s : ReadSet) : s.insert 0 = s := rfl

theorem ReadStore.readSet_markRead {store : ReadStore} (h : Sorted store.groups) (group : Str) (number : UInt64) :
    (store.markRead group number).readSet group = (store.readSet group).insert number := by
  unfold readSet markRead change entry?
  rw [find?_modifyEntry_self h]
  cases store.groups.find? fun e => e.1 = group <;> rfl

namespace App

variable {app after : App} {summary : GroupSummary} {lowercase : Str → Str}

/-! ## The view -/

/-- A group is on screen in the flat view of the unread, opening an article marks it as read, and keys go to the
panes. The marks are in order. -/
structure UnreadView (app : App) (summary : GroupSummary) : Prop where
  flat : app.threaded = false
  unreadOnly : app.unreadOnly = true
  markReadOnOpen : app.markReadOnOpen = true
  group : app.group = some summary
  editingFilter : app.editingFilter = false
  overlay : app.overlay = .none
  sorted : ReadStore.Sorted app.read.groups
  valid : (app.read.readSet summary.name.asStr).Valid

/-- The numbers of the unread articles, in the order of the list. -/
def unreadNumbers (app : App) : List UInt64 := (app.articles.map (·.number)).filter app.isUnread

/-- The numbers of the unread articles after the cursor. -/
def upcoming (app : App) : List UInt64 := app.unreadNumbers.drop (app.articleCursor + 1)

theorem visibleArticles_numbers (hflat : app.threaded = false) (hfilter : app.unreadOnly = true) :
    app.visibleArticles.map (fun index => app.articles[index]?.map (·.number)) = app.unreadNumbers.map some := by
  have hpasses : app.passes = app.isUnread := by
    funext number
    unfold passes
    rw [hfilter]
    rfl
  have hfrom : ∀ (records : List OverviewRecord) (front : List OverviewRecord),
      ((records.zipIdx front.length).filter fun a => app.isUnread a.1.number).map
          (fun a => ((front ++ records)[a.2]?).map (·.number)) =
        ((records.map (·.number)).filter app.isUnread).map some := by
    intro records
    induction records with
    | nil => intro front; rfl
    | cons record records ih =>
        intro front
        have htail := ih (front ++ [record])
        rw [List.length_append, List.length_singleton, List.append_assoc, List.singleton_append] at htail
        rw [List.zipIdx_cons, List.map_cons, List.filter_cons, List.filter_cons]
        dsimp only
        cases app.isUnread record.number with
        | false => exact htail
        | true =>
            rw [if_pos rfl, if_pos rfl, List.map_cons, List.map_cons, htail]
            simp
  unfold visibleArticles articleRows unreadNumbers
  rw [hflat, if_neg Bool.false_ne_true, hpasses, List.map_map, List.map_map]
  exact hfrom app.articles []

/-- The row below the cursor is that of the next unread article. -/
theorem visibleArticles_next (hflat : app.threaded = false) (hfilter : app.unreadOnly = true) {row : Nat} :
    (app.visibleArticles[row]?.bind fun index => app.articles[index]?).map (·.number) = app.unreadNumbers[row]? := by
  have hrow := congrArg (·[row]?) (visibleArticles_numbers hflat hfilter)
  simp only [List.getElem?_map] at hrow
  cases hindex : app.visibleArticles[row]? with
  | none =>
      rw [hindex] at hrow
      cases hnumber : app.unreadNumbers[row]? with
      | none => rfl
      | some number =>
          rw [hnumber] at hrow
          cases hrow
  | some index =>
      rw [hindex] at hrow
      cases hnumber : app.unreadNumbers[row]? with
      | none =>
          rw [hnumber] at hrow
          cases hrow
      | some number =>
          rw [hnumber] at hrow
          exact Option.some.inj hrow

theorem length_visibleArticles (hflat : app.threaded = false) (hfilter : app.unreadOnly = true) :
    app.visibleArticles.length = app.unreadNumbers.length := by
  have hlength := congrArg List.length (visibleArticles_numbers hflat hfilter)
  rwa [List.length_map, List.length_map] at hlength

/-! ## One press -/

def nextKey : Key := { code := .char 'n' }

theorem UnreadView.onKey_next (view : UnreadView app summary) :
    app.onKey lowercase nextKey = app.stepArticle 1 := by
  unfold onKey
  rw [view.editingFilter, view.overlay]
  rfl

/-- Nothing is unread below the cursor, and nothing happens. -/
theorem UnreadView.next_nil (view : UnreadView app summary) (h : app.upcoming = []) :
    app.onKey lowercase nextKey = (app, []) := by
  have hend := List.drop_eq_nil_iff.mp h
  rw [view.onKey_next]
  unfold stepArticle
  dsimp only
  rw [length_visibleArticles view.flat view.unreadOnly, if_pos (Or.inr (by omega))]

/-- The next unread article is asked for. -/
theorem UnreadView.next_cons (view : UnreadView app summary) {number : UInt64} {rest : List UInt64}
    (h : app.upcoming = number :: rest) :
    app.onKey lowercase nextKey =
      ({ app with articleCursor := app.articleCursor + 1, inflight := app.inflight + 1 },
        [.loadArticle (some summary.name) (.number number)]) := by
  have hnumber : app.unreadNumbers[app.articleCursor + 1]? = some number := by
    rw [← List.head?_drop]
    exact congrArg List.head? h
  have hlt : app.articleCursor + 1 < app.unreadNumbers.length := (List.getElem?_eq_some_iff.mp hnumber).1
  have hselected : ∃ record, { app with articleCursor := app.articleCursor + 1 }.selectedArticle = some record ∧
      record.number = number := by
    have hrow := @visibleArticles_next app view.flat view.unreadOnly (app.articleCursor + 1)
    rw [hnumber] at hrow
    obtain ⟨record, hrecord, hnumber⟩ := Option.map_eq_some_iff.mp hrow
    refine ⟨record, ?_, hnumber⟩
    unfold selectedArticle
    rw [visibleArticles_at]
    exact hrecord
  obtain ⟨record, hrecord, rfl⟩ := hselected
  rw [view.onKey_next]
  unfold stepArticle
  dsimp only
  rw [length_visibleArticles view.flat view.unreadOnly, if_neg (by omega)]
  show loadSelectedArticle { app with articleCursor := app.articleCursor + 1 } = _
  unfold loadSelectedArticle
  rw [hrecord]
  dsimp only
  rw [view.group]

/-! ## One arrival -/

theorem isUnread_of_group (h : app.group = some summary) (number : UInt64) :
    app.isUnread number = !(app.read.readSet summary.name.asStr).contains number := by
  unfold isUnread
  rw [h]

/-- An article that arrives is read from then on, unless its number is `0`. -/
theorem UnreadView.onArticle (view : UnreadView app summary) {article : Article} {number : UInt64}
    (harticle : article.number = some number) :
    UnreadView (app.onArticle article) summary ∧
      ∀ n, (app.onArticle article).isUnread n = (app.isUnread n && (n == 0 || n != number)) := by
  have hread : (app.onArticle article).read = app.read.markRead summary.name.asStr number := by
    rcases app.read_onArticle article with ⟨number', summary', _, hnumber, hgroup, hread⟩ | ⟨_, hnone⟩
    · obtain rfl : number = number' := Option.some.inj (harticle.symm.trans hnumber)
      obtain rfl : summary = summary' := Option.some.inj (view.group.symm.trans hgroup)
      exact hread
    · exact absurd view.group (hnone number summary view.markReadOnOpen harticle)
  have hset : (app.onArticle article).read.readSet summary.name.asStr =
      (app.read.readSet summary.name.asStr).insert number := by
    rw [hread, ReadStore.readSet_markRead view.sorted]
  refine ⟨⟨view.flat, view.unreadOnly, view.markReadOnOpen, view.group, view.editingFilter, view.overlay, ?_, ?_⟩,
    fun n => ?_⟩
  · rw [hread]
    exact ReadStore.modifyEntry_sorted view.sorted
  · rw [hset]
    exact (ReadSet.insertRange_spec view.valid number number).1
  · rw [isUnread_of_group (show (app.onArticle article).group = some summary from view.group),
      isUnread_of_group view.group, hset]
    by_cases hzero : number = 0
    · subst hzero
      rw [ReadSet.insert_zero]
      cases hn : n == 0 <;> simp_all
    · rw [ReadSet.contains_insert view.valid hzero]
      cases hn : n == number with
      | true =>
          obtain rfl := beq_iff_eq.mp hn
          simp [hzero]
      | false => simp [bne, hn]

/-- The interface after `n` was pressed and the article it asked for has arrived. -/
def turned (lowercase : Str → Str) (app : App) (article : Article) : App :=
  ((app.onKey lowercase nextKey).1.onEvent (.article article)).app

/-- **One turn**: the cursor is a row further down, and the article has left the list. -/
theorem UnreadView.turned (view : UnreadView app summary) {number : UInt64} {rest : List UInt64}
    (h : app.upcoming = number :: rest) {article : Article} (harticle : article.number = some number) :
    UnreadView (app.turned lowercase article) summary ∧
      (app.turned lowercase article).articleCursor = app.articleCursor + 1 ∧
        (app.turned lowercase article).unreadNumbers = app.unreadNumbers.filter fun n => n == 0 || n != number := by
  have hpressed : UnreadView (app.onKey lowercase nextKey).1 summary := by
    rw [view.next_cons h]
    exact ⟨view.flat, view.unreadOnly, view.markReadOnOpen, view.group, view.editingFilter, view.overlay, view.sorted,
      view.valid⟩
  obtain ⟨hview, hunread⟩ := hpressed.onArticle harticle
  have hcursor : (app.turned lowercase article).articleCursor = (app.onKey lowercase nextKey).1.articleCursor := rfl
  have harticles : (app.turned lowercase article).articles = (app.onKey lowercase nextKey).1.articles := rfl
  refine ⟨hview, ?_, ?_⟩
  · rw [hcursor, view.next_cons h]
  · unfold unreadNumbers
    rw [harticles, List.filter_filter]
    have hsame : (app.turned lowercase article).isUnread =
        fun n => (n == 0 || n != number) && app.isUnread n := by
      funext n
      rw [Bool.and_comm]
      refine (hunread n).trans ?_
      rw [view.next_cons h]
      rfl
    rw [hsame, view.next_cons h]

theorem UnreadView.upcoming_zero (view : UnreadView app summary) {rest : List UInt64} (h : app.upcoming = 0 :: rest)
    {article : Article} (harticle : article.number = some 0) : (app.turned lowercase article).upcoming = rest := by
  obtain ⟨-, hcursor, hnumbers⟩ := @turned app summary lowercase view 0 rest h article harticle
  have hall : app.unreadNumbers.filter (fun n => n == 0 || n != 0) = app.unreadNumbers := by
    apply List.filter_eq_self.mpr
    intro n _
    cases hn : n == 0 <;> simp_all
  unfold upcoming at h ⊢
  rw [hcursor, hnumbers, hall, ← List.tail_drop, h]
  rfl

/-- **A row is stepped over**: the rows below the cursor are fewer by two, where there are two. -/
theorem UnreadView.upcoming_length (view : UnreadView app summary) {number : UInt64} {rest : List UInt64}
    (h : app.upcoming = number :: rest) {article : Article} (harticle : article.number = some number)
    (hnumber : number ≠ 0) : (app.turned lowercase article).upcoming.length ≤ rest.length - 1 := by
  obtain ⟨-, hcursor, hnumbers⟩ := @turned app summary lowercase view number rest h article harticle
  have hmem : number ∈ app.unreadNumbers := by
    apply List.mem_of_mem_drop
    show number ∈ app.upcoming
    rw [h]
    exact List.mem_cons_self
  have hshorter : (app.unreadNumbers.filter fun n => n == 0 || n != number).length < app.unreadNumbers.length :=
    List.length_filter_lt_length_iff_exists.mpr ⟨number, hmem, by simp [hnumber]⟩
  have hlength := congrArg List.length h
  unfold upcoming at hlength ⊢
  rw [hcursor, hnumbers, List.length_drop]
  rw [List.length_drop, List.length_cons] at hlength
  omega

/-! ## Press after press -/

/-- `n` is pressed until it asks for nothing, and each article it asks for arrives before the next press. The
numbers are those of the articles opened. -/
inductive Stepped (lowercase : Str → Str) : App → List UInt64 → App → Prop where
  | newest {app : App} (h : (app.onKey lowercase nextKey).2 = []) :
      Stepped lowercase app [] (app.onKey lowercase nextKey).1
  | opened {app after : App} {group : Option GroupName} {number : UInt64} {article : Article} {numbers : List UInt64}
      (h : (app.onKey lowercase nextKey).2 = [.loadArticle group (.number number)])
      (harticle : article.number = some number)
      (hrest : Stepped lowercase (app.turned lowercase article) numbers after) :
      Stepped lowercase app (number :: numbers) after

/-- What one press asks for is the next unread article, or nothing if there is none. -/
theorem UnreadView.upcoming_of_opened (view : UnreadView app summary) {group : Option GroupName} {number : UInt64}
    (h : (app.onKey lowercase nextKey).2 = [.loadArticle group (.number number)]) :
    ∃ rest, app.upcoming = number :: rest := by
  cases hupcoming : app.upcoming with
  | nil =>
      rw [view.next_nil hupcoming] at h
      cases h
  | cons next rest =>
      rw [view.next_cons hupcoming] at h
      cases h
      exact ⟨rest, rfl⟩

theorem UnreadView.upcoming_of_newest (view : UnreadView app summary)
    (h : (app.onKey lowercase nextKey).2 = []) : app.upcoming = [] := by
  cases hupcoming : app.upcoming with
  | nil => rfl
  | cons next rest =>
      rw [view.next_cons hupcoming] at h
      cases h

/-- The rows below the cursor become fewer with every turn. -/
theorem UnreadView.upcoming_shrinks (view : UnreadView app summary) {number : UInt64} {rest : List UInt64}
    (h : app.upcoming = number :: rest) {article : Article} (harticle : article.number = some number) :
    (app.turned lowercase article).upcoming.length ≤ rest.length := by
  by_cases hzero : number = 0
  · subst hzero
    rw [view.upcoming_zero h harticle]
  · exact Nat.le_trans (view.upcoming_length h harticle hzero) (Nat.sub_le _ _)

/-- No more articles are opened than there were rows. -/
theorem Stepped.length_le {numbers : List UInt64} (steps : Stepped lowercase app numbers after)
    (view : UnreadView app summary) : numbers.length ≤ app.upcoming.length := by
  induction steps with
  | newest h => exact Nat.zero_le _
  | opened h harticle _ ih =>
      obtain ⟨rest, hupcoming⟩ := view.upcoming_of_opened h
      have hlength := ih (view.turned hupcoming harticle).1
      have hshrinks := @UnreadView.upcoming_shrinks _ _ lowercase view _ _ hupcoming _ harticle
      rw [hupcoming, List.length_cons, List.length_cons]
      omega

/-- The presses come to an end. -/
theorem UnreadView.exists_stepped (view : UnreadView app summary) (lowercase : Str → Str) :
    ∃ numbers after, Stepped lowercase app numbers after := by
  induction hn : app.upcoming.length using Nat.strongRecOn generalizing app with
  | ind n ih =>
      subst hn
      cases hupcoming : app.upcoming with
      | nil =>
          refine ⟨[], _, .newest ?_⟩
          rw [view.next_nil hupcoming]
      | cons number rest =>
          have harticle : (Watched.bareArticle number).number = some number := rfl
          have hshrinks := @UnreadView.upcoming_shrinks _ _ lowercase view _ _ hupcoming _ harticle
          have hlt : (app.turned lowercase (Watched.bareArticle number)).upcoming.length < app.upcoming.length := by
            rw [hupcoming, List.length_cons]
            exact Nat.lt_succ_of_le hshrinks
          obtain ⟨numbers, after, hrest⟩ := ih _ hlt (view.turned hupcoming harticle).1 rfl
          have hrequest : (app.onKey lowercase nextKey).2 = [.loadArticle (some summary.name) (.number number)] := by
            rw [view.next_cons hupcoming]
          exact ⟨number :: numbers, after, .opened hrequest harticle hrest⟩

theorem Stepped.numbers_eq_iff {numbers : List UInt64} (steps : Stepped lowercase app numbers after)
    (view : UnreadView app summary) : numbers = app.upcoming ↔ ∀ number ∈ app.upcoming.dropLast, number = 0 := by
  induction steps with
  | newest h => simp [view.upcoming_of_newest h]
  | @opened app after group number article numbers h harticle hrest ih =>
      obtain ⟨rest, hupcoming⟩ := view.upcoming_of_opened h
      obtain ⟨hview, -⟩ := @UnreadView.turned app summary lowercase view _ _ hupcoming _ harticle
      rw [hupcoming, List.cons.injEq]
      by_cases hzero : number = 0
      · -- the article stays in the list, and the next row is the next article
        subst hzero
        have hrows := @UnreadView.upcoming_zero app summary lowercase view _ hupcoming _ harticle
        rw [hrows] at ih
        rw [ih hview, eq_self_iff_true, true_and]
        cases rest with
        | nil => simp
        | cons next more => rw [List.dropLast_cons_cons, List.forall_mem_cons, eq_self_iff_true, true_and]
      · have hlength := hrest.length_le hview
        have hshrinks := @UnreadView.upcoming_length app summary lowercase view _ _ hupcoming _ harticle hzero
        cases rest with
        | nil =>
            have hnone : numbers = [] := List.length_eq_zero_iff.mp (by
              rw [List.length_nil] at hshrinks
              omega)
            simp [hnone]
        | cons next more =>
            -- the row of `next` has moved up under the cursor
            refine iff_of_false (fun hall => ?_) (fun hall => hzero (hall number ?_))
            · rw [hall.2] at hlength
              simp only [List.length_cons] at hlength hshrinks
              omega
            · rw [List.dropLast_cons_cons]
              exact List.mem_cons_self

/-- **Stepping opens all that is unread below the cursor** exactly when there is at most one such article, those
with the number `0` apart, which stay unread. -/
theorem stepping_opens_iff (lowercase : Str → Str) (view : UnreadView app summary) :
    (∃ numbers after, Stepped lowercase app numbers after) ∧
      ((∀ numbers after, Stepped lowercase app numbers after → numbers = app.upcoming) ↔
        ∀ number ∈ app.upcoming.dropLast, number = 0) := by
  obtain ⟨numbers, after, steps⟩ := view.exists_stepped lowercase
  refine ⟨⟨numbers, after, steps⟩, fun h => ?_, fun h numbers after steps => ?_⟩
  · exact (steps.numbers_eq_iff view).mp (h numbers after steps)
  · exact (steps.numbers_eq_iff view).mpr h

/-- Unread articles in a group that is on screen, with the cursor at the top. -/
def unreadApp (numbers : List UInt64) : App :=
  { App.new Watched.unreadConfig {} with
    group := some { name := Watched.compLangC, estimatedCount := 3, low := 1, high := 3 }
    articles := numbers.map Watched.bareRecord }

theorem unreadApp_view (numbers : List UInt64) :
    UnreadView (unreadApp numbers) { name := Watched.compLangC, estimatedCount := 3, low := 1, high := 3 } :=
  ⟨rfl, rfl, rfl, rfl, rfl, rfl, List.Pairwise.nil, ReadSet.new_valid⟩

/-- Of two articles, the second is opened. -/
theorem stepping_opens_second : (∃ numbers after, Stepped id (unreadApp [1, 2]) numbers after) ∧
    ∀ numbers after, Stepped id (unreadApp [1, 2]) numbers after → numbers = (unreadApp [1, 2]).upcoming := by
  obtain ⟨hends, hiff⟩ := stepping_opens_iff id (unreadApp_view [1, 2])
  have honly : (unreadApp [1, 2]).upcoming.dropLast = [] := by decide +kernel
  rw [honly] at hiff
  exact ⟨hends, hiff.mpr fun _ h => (by cases h)⟩

/-- **Of three articles, the third is not.** -/
theorem stepping_skips_third : ¬ ∀ (lowercase : Str → Str) (app after : App) (summary : GroupSummary)
    (numbers : List UInt64), UnreadView app summary → Stepped lowercase app numbers after →
      numbers = app.upcoming := by
  intro hall
  have hnext : Stepped id ((unreadApp [1, 2, 3]).turned id (Watched.bareArticle 2)) [] _ := .newest (by decide +kernel)
  have hsteps : Stepped id (unreadApp [1, 2, 3]) [2] _ :=
    @Stepped.opened id _ _ (some Watched.compLangC) 2 (Watched.bareArticle 2) [] (by decide +kernel) rfl hnext
  have hnumbers := hall _ _ _ _ _ (unreadApp_view [1, 2, 3]) hsteps
  exact absurd hnumbers (by decide +kernel)

end App

end Nntp.Tui
