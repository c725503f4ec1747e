import Mathlib.Algebra.GroupWithZero.Nat
import Nntp.Proto.Thread.Shape
import Nntp.Tui.Listing

/-!
# What a fold hides

A folded row says how many replies are folded away under it. `push_rows` draws the rows and `len` counts
the replies; the first leaves out what the unread filter does not let through, the second counts it. The
rows drawn and the replies said to be hidden are therefore the rows there would be without folds and the
replies under a fold that have no row either way (`lost`).
-/

namespace Nntp.Proto.ThreadNode

mutual

/-- The nodes that `walk` visits: a node and everything below it, depth first. -/
def walk : ThreadNode → List ThreadNode
  | .mk article children => .mk article children :: walkAll children

def walkAll : List ThreadNode → List ThreadNode
  | [] => []
  | node :: nodes => walk node ++ walkAll nodes

end

mutual

theorem len_eq (node : ThreadNode) : node.len = node.articles.length := by
  obtain ⟨article, children⟩ := node
  unfold len articles
  rw [List.length_append, lenAll_eq children]

theorem lenAll_eq (nodes : List ThreadNode) : lenAll nodes = (articlesAll nodes).length := by
  cases nodes with
  | nil => rfl
  | cons node nodes =>
      unfold lenAll articlesAll
      rw [List.length_append, len_eq node, lenAll_eq nodes]

end

mutual

/-- The articles below a node are articles of every tree that it is in. -/
theorem articles_of_walk {node inner : ThreadNode} (h : inner ∈ node.walk) {i : Nat}
    (hi : i ∈ articlesAll inner.children) : i ∈ articlesAll node.children := by
  obtain ⟨article, children⟩ := node
  unfold walk at h
  rcases List.mem_cons.mp h with rfl | h
  · exact hi
  · exact articles_of_walkAll h hi

theorem articles_of_walkAll {nodes : List ThreadNode} {inner : ThreadNode} (h : inner ∈ walkAll nodes) {i : Nat}
    (hi : i ∈ articlesAll inner.children) : i ∈ articlesAll nodes := by
  cases nodes with
  | nil => cases h
  | cons node nodes =>
      unfold walkAll at h
      unfold articlesAll
      rcases List.mem_append.mp h with h | h
      · apply List.mem_append_left
        have hbelow := articles_of_walk h hi
        obtain ⟨article, children⟩ := node
        exact List.mem_append_right _ hbelow
      · exact List.mem_append_right _ (articles_of_walkAll h hi)

end

end Nntp.Proto.ThreadNode

namespace Nntp.Tui

open Nntp.Proto ThreadNode

/-! ## Rows without folds -/

section Unfolded

variable {drawn : Option Nat → Option (Nat × UInt64)} (hnone : drawn none = none)
include hnone

mutual

/-- Without folds, every article that is drawn has a row. -/
theorem length_shownIn (node : ThreadNode) :
    (shownIn drawn [] node).length = node.articles.countP fun i => (drawn (some i)).isSome := by
  obtain ⟨article, children⟩ := node
  have hbelow := length_shownAll children
  unfold shownIn articles
  rw [List.countP_append, ← hbelow]
  cases article with
  | none =>
      rw [hnone]
      simp
  | some i =>
      cases hdrawn : drawn (some i) with
      | none => simp [hdrawn]
      | some a => simp [hdrawn, Nat.add_comm]

theorem length_shownAll (nodes : List ThreadNode) :
    (shownAll drawn [] nodes).length = (articlesAll nodes).countP fun i => (drawn (some i)).isSome := by
  cases nodes with
  | nil => rfl
  | cons node nodes =>
      unfold shownAll articlesAll
      rw [List.length_append, List.countP_append, length_shownIn node, length_shownAll nodes]

end

end Unfolded

namespace App

variable {app : App}

/-! ## Counting -/

/-- A fold that applies: it is on a row that is drawn. -/
def Folded (app : App) (article : Option Nat) : Prop :=
  ∃ index number, app.drawn article = some (index, number) ∧ app.collapsed.contains number = true

/-- The articles that are not drawn, of those under a node. -/
def undrawn (app : App) (nodes : List ThreadNode) : Nat :=
  (articlesAll nodes).countP fun i => (app.drawn (some i)).isNone

mutual

/-- The articles under a fold that are not drawn with it or without it. -/
def lost (app : App) : ThreadNode → Nat
  | .mk article children =>
      match app.drawn article with
      | some (_, number) => if app.collapsed.contains number then app.undrawn children else lostAll app children
      | none => lostAll app children

def lostAll (app : App) : List ThreadNode → Nat
  | [] => 0
  | node :: nodes => lost app node + lostAll app nodes

end

/-- What some rows say is hidden under them. -/
def hiddenUnder (rows : List ArticleRow) : Nat := (rows.map (·.hidden)).sum

/-- An article is drawn or not. -/
theorem drawn_or_undrawn (app : App) (nodes : List ThreadNode) :
    lenAll nodes = (shownAll app.drawn [] nodes).length + app.undrawn nodes := by
  rw [lenAll_eq, length_shownAll rfl, undrawn, List.length_eq_countP_add_countP fun i => (app.drawn (some i)).isSome]
  congr 2
  funext i
  cases app.drawn (some i) <;> rfl

mutual

theorem pushRows_account (app : App) (node : ThreadNode) (depth : Nat) :
    (app.pushRows node depth).length + hiddenUnder (app.pushRows node depth) =
      (shownIn app.drawn [] node).length + app.lost node := by
  obtain ⟨article, children⟩ := node
  unfold pushRows shownIn lost
  cases app.drawn article with
  | none => exact pushRowsAll_account app children (depth + 1)
  | some a =>
      dsimp only
      split
      · -- the fold counts everything below it
        have hcount := app.drawn_or_undrawn children
        simp [hiddenUnder, hcount]
        omega
      · have hbelow := pushRowsAll_account app children (depth + 1)
        simp only [hiddenUnder, List.map_cons, List.sum_cons, List.length_cons] at hbelow ⊢
        simp only [List.contains_nil, Bool.false_eq_true, if_false]
        omega

theorem pushRowsAll_account (app : App) (nodes : List ThreadNode) (depth : Nat) :
    (app.pushRowsAll nodes depth).length + hiddenUnder (app.pushRowsAll nodes depth) =
      (shownAll app.drawn [] nodes).length + app.lostAll nodes := by
  cases nodes with
  | nil => rfl
  | cons node nodes =>
      have hfirst := pushRows_account app node depth
      have hrest := pushRowsAll_account app nodes depth
      unfold pushRowsAll shownAll lostAll
      simp only [hiddenUnder, List.map_append, List.sum_append, List.length_append] at hfirst hrest ⊢
      omega

end

/-! ## When nothing is lost -/

/-- Under every fold that applies, of the nodes `inners`, each article would be drawn. -/
def FoldsDrawn (app : App) (inners : List ThreadNode) : Prop :=
  ∀ inner ∈ inners, app.Folded inner.article → ∀ i ∈ articlesAll inner.children, (app.drawn (some i)).isSome = true

theorem undrawn_eq_zero {nodes : List ThreadNode} :
    app.undrawn nodes = 0 ↔ ∀ i ∈ articlesAll nodes, (app.drawn (some i)).isSome = true := by
  unfold undrawn
  rw [List.countP_eq_zero]
  refine forall₂_congr fun i _ => ?_
  cases app.drawn (some i) <;> simp

mutual

theorem lost_eq_zero (app : App) (node : ThreadNode) : app.lost node = 0 ↔ app.FoldsDrawn node.walk := by
  obtain ⟨article, children⟩ := node
  have hbelow := lostAll_eq_zero app children
  have hself : app.FoldsDrawn (walk (.mk article children)) ↔
      (app.Folded article → ∀ i ∈ articlesAll children, (app.drawn (some i)).isSome = true) ∧
        app.FoldsDrawn (walkAll children) := by
    unfold FoldsDrawn walk
    exact List.forall_mem_cons
  rw [hself, ← hbelow]
  unfold lost
  cases hdrawn : app.drawn article with
  | none =>
      refine (and_iff_right ?_).symm
      rintro ⟨index, number, hsome, -⟩
      rw [hdrawn] at hsome
      cases hsome
  | some a =>
      dsimp only
      split
      · next hfolded =>
          rw [undrawn_eq_zero]
          constructor
          · intro hall
            refine ⟨fun _ => hall, hbelow.mpr fun inner hinner _ i hi => ?_⟩
            -- what a fold inside counts is among what this one counts
            exact hall i (articles_of_walkAll hinner hi)
          · rintro ⟨hall, -⟩
            exact hall ⟨a.1, a.2, hdrawn, hfolded⟩
      · next hopen =>
          refine (and_iff_right ?_).symm
          rintro ⟨index, number, hsome, hfolded⟩
          rw [hdrawn] at hsome
          cases hsome
          exact absurd hfolded hopen

theorem lostAll_eq_zero (app : App) (nodes : List ThreadNode) :
    app.lostAll nodes = 0 ↔ app.FoldsDrawn (walkAll nodes) := by
  cases nodes with
  | nil => exact iff_of_true rfl fun _ h => absurd h List.not_mem_nil
  | cons node nodes =>
      have hsplit : app.FoldsDrawn (walkAll (node :: nodes)) ↔
          app.FoldsDrawn node.walk ∧ app.FoldsDrawn (walkAll nodes) := by
        unfold FoldsDrawn
        rw [walkAll, List.forall_mem_append]
      rw [hsplit, ← lost_eq_zero app node, ← lostAll_eq_zero app nodes]
      show app.lost node + app.lostAll nodes = 0 ↔ _
      exact Nat.add_eq_zero_iff

end

/-! ## The pane -/

/-- The same articles with nothing folded away. -/
def unfolded (app : App) : App := { app with collapsed := [] }

/-- **Rows and hidden replies** are the rows without folds, and what is lost. -/
theorem articleRows_account (hthreaded : app.threaded = true) :
    app.articleRows.length + hiddenUnder app.articleRows = app.unfolded.articleRows.length + app.lostAll app.threads := by
  have hrows : app.articleRows = app.pushRowsAll app.threads 0 := if_pos hthreaded
  have hunfolded : app.unfolded.articleRows.length = (shownAll app.drawn [] app.threads).length := by
    have hall : app.unfolded.articleRows = app.unfolded.pushRowsAll app.threads 0 := if_pos hthreaded
    rw [hall, ← List.length_map (·.index), pushRowsAll_index]
    rfl
  rw [hrows, hunfolded]
  exact app.pushRowsAll_account app.threads 0

theorem threads_of_current (hthreaded : app.threaded = true) (h : app.listing.Current) :
    thread app.articles = some app.threads :=
  (if_pos hthreaded).mp h

/-- An article of the current threads is drawn exactly when the filter lets it through. -/
theorem drawn_iff_passes (hcurrent : thread app.articles = some app.threads) {i : Nat}
    (hi : i ∈ articlesAll app.threads) :
    (app.drawn (some i)).isSome = true ↔ ∀ record, app.articles[i]? = some record → app.passes record.number = true := by
  obtain ⟨forest, hforest, hperm⟩ := exists_thread app.articles
  obtain rfl : forest = app.threads := Option.some.inj (hforest.symm.trans hcurrent)
  rw [← ThreadNode.articlesAll_eq_flatMap] at hperm
  have hlt : i < app.articles.length := List.mem_range.mp (hperm.mem_iff.mp hi)
  unfold drawn
  rw [Option.bind_some, List.getElem?_eq_getElem hlt, Option.map_some, Option.filter_some]
  cases hpasses : app.passes app.articles[i].number <;> simp [hpasses]

/-- **When folds account for every row they hide**: when each article under a fold that applies passes the
unread filter. -/
theorem folds_account_iff (hthreaded : app.threaded = true) (hcurrent : thread app.articles = some app.threads) :
    app.articleRows.length + (app.articleRows.map (·.hidden)).sum = app.unfolded.articleRows.length ↔
      ∀ node ∈ walkAll app.threads, app.Folded node.article → ∀ i ∈ articlesAll node.children,
        ∀ record, app.articles[i]? = some record → app.passes record.number = true := by
  have haccount := articleRows_account hthreaded
  unfold hiddenUnder at haccount
  rw [haccount, Nat.add_eq_left, lostAll_eq_zero]
  refine forall₂_congr fun node hnode => forall_congr' fun _ => forall₂_congr fun i hi => ?_
  exact drawn_iff_passes hcurrent (articles_of_walkAll hnode hi)

/-- Without the filter they always do. -/
theorem folds_account_unfiltered (hthreaded : app.threaded = true)
    (hcurrent : thread app.articles = some app.threads) (hfilter : app.unreadOnly = false) :
    app.articleRows.length + hiddenUnder app.articleRows = app.unfolded.articleRows.length := by
  rw [articleRows_account hthreaded, Nat.add_eq_left, lostAll_eq_zero]
  intro node hnode _ i hi
  apply (drawn_iff_passes hcurrent (articles_of_walkAll hnode hi)).mpr
  intro record _
  unfold passes
  rw [hfilter]
  rfl

/-! ### A reply that was read, folded away under an article that was not -/

def rootId : MessageId where
  asStr := "<a@x>".toList
  wellFormed := by decide

/-- An article and its reply, which has been read. -/
def readReply (unreadOnly : Bool) : App :=
  { App.new Watched.quietConfig (({} : ReadStore).markRead Watched.compLangC.asStr 2) with
    group := some { name := Watched.compLangC, estimatedCount := 2, low := 1, high := 2 }
    articles := [{ Watched.bareRecord 1 with messageId := some rootId },
      { Watched.bareRecord 2 with references := [rootId] }]
    threaded := true
    collapsed := [1]
    unreadOnly }.rebuildThreads

theorem readReply_current (unreadOnly : Bool) :
    thread (readReply unreadOnly).articles = some (readReply unreadOnly).threads := by
  apply threads_of_current
  · rfl
  · unfold readReply
    exact current_rebuildThreads _

theorem folds_account_all : (readReply false).articleRows.length +
    ((readReply false).articleRows.map (·.hidden)).sum = (readReply false).unfolded.articleRows.length :=
  (folds_account_iff rfl (readReply_current false)).mpr fun _ _ _ _ _ _ _ => rfl

/-- The filter leaves the reply out, and the fold counts it. -/
theorem folds_count_read : ¬ ∀ app : App, app.threaded = true → thread app.articles = some app.threads →
    app.articleRows.length + (app.articleRows.map (·.hidden)).sum = app.unfolded.articleRows.length := by
  intro hall
  have haccount := hall (readReply true) rfl (readReply_current true)
  exact absurd haccount (by decide +kernel)

end App

end Nntp.Tui
