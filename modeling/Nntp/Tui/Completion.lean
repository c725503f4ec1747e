import Nntp.Tui.Ledger
import Nntp.Lib.Machine

/-!
# What a completed fetch shows

The interface on its own, with whatever keys and events come. Of a fetch it accepts the chunks that carry
its token, and when the fetch is complete all of them should be on screen. The article list is merged by
number, the copy that arrives last staying; what empties it should also give up the fetch, and Enter on an
empty group does not.
-/

namespace Nntp.Tui

open Nntp.Lib Nntp.Proto Nntp.Client

/-! ## The merge -/

/-- **What the merge shows for a number**: the record that arrives, or else the one that is held. -/
theorem find?_absorb (held records : List OverviewRecord) (number : UInt64) :
    (Ledger.absorb held records).find? (fun r => decide (r.number = number)) =
      (records ++ held).find? fun r => decide (r.number = number) := by
  have hmerged : (dedupByKey (·.number)
      ((records ++ held).mergeSort fun a b => decide (a.number ≤ b.number))).find?
        (fun r : OverviewRecord => decide (r.number = number)) =
      (records ++ held).find? fun r => decide (r.number = number) := by
    rw [find?_dedupByKey, ← List.head?_filter, ← List.head?_filter, filter_mergeSort]
    · intro a b c hab hbc
      exact decide_eq_true (UInt64.le_trans (of_decide_eq_true hab) (of_decide_eq_true hbc))
    · intro a b
      rw [Bool.or_eq_true, decide_eq_true_eq, decide_eq_true_eq]
      exact UInt64.le_total _ _
    · intro a b ha hb
      rw [decide_eq_true_eq] at ha hb ⊢
      exact UInt64.le_of_eq (ha.trans hb.symm)
  unfold Ledger.absorb mergeOverview
  cases hrecords : records with
  | nil => rfl
  | cons first rest =>
      rw [← hrecords]
      rw [if_neg (by rw [hrecords]; exact Bool.false_ne_true)]
      dsimp only
      split
      · next hempty =>
          rw [List.head?_eq_none_iff.mp hempty, List.append_nil]
      · split
        · rfl
        · exact hmerged
      · exact hmerged

/-! ## The machine -/

/-- What may happen to the interface. -/
inductive Input where
  | key (key : Key)
  | event (event : Event)
  /-- the editor has come back -/
  | composed (composed : Option (Str × Path))
  /-- the loop has gone to the editor -/
  | taken
  | resized (list body : Nat)
  | noted (message : Note)

/-- The interface, and every record it has accepted, with the token it came with. -/
structure Watched where
  app : App
  accepted : List (FetchToken × OverviewRecord) := []

namespace Watched

variable {lowercase : Str → Str} {w w' : Watched}

/-- What an event delivers if it is accepted. -/
def delivered (app : App) : Event → List (FetchToken × OverviewRecord)
  | .overviewChunk group token records _ =>
      if app.acceptsOverview group token then records.map fun record => (token, record) else []
  | _ => []

/-- One input. -/
def step (lowercase : Str → Str) (w : Watched) : Input → Option Watched
  | .key key => some { w with app := (w.app.onKey lowercase key).1 }
  | .event event =>
      some { app := (w.app.onEvent event).app, accepted := w.accepted ++ delivered w.app event }
  | .composed composed => some { w with app := (w.app.onComposed composed).1 }
  | .taken => some { w with app := { w.app with compose := none } }
  | .resized list body => some { w with app := w.app.setPaneHeights list body }
  | .noted message => some { w with app := w.app.note message }

/-- An interface that has just been started. -/
def start (config : UiConfig) (read : ReadStore) (subscriptions : List Wildmat)
    (postFrom : Option Str) : Watched where
  app := { App.new config read with subscriptions, postFrom }.initialRequests.1

/-- Enter on an empty group, which empties the list, is not pressed once records of the fetch under way
are in it. -/
def KeepsRecords (lowercase : Str → Str) (w : Watched) : Input → Prop
  | .key key => ∀ group ∈ w.app.entered lowercase key, group.isEmpty = true →
      ∀ token ∈ w.app.overviewToken, ∀ e ∈ w.accepted, e.1 ≠ token
  | _ => True

instance (lowercase : Str → Str) (w : Watched) (input : Input) :
    Decidable (KeepsRecords lowercase w input) := by
  cases input <;> unfold KeepsRecords <;> infer_instance

end Watched

/-! ## The invariant -/

/-- What is shown for the numbers of the fetch under way came with it. -/
structure ShowsFetch (l : Ledger) (accepted : List (FetchToken × OverviewRecord)) : Prop where
  issued : ∀ e ∈ accepted, e.1 ≤ l.nextToken
  current : ∀ token, l.overviewToken = some token → token ≤ l.nextToken
  shown : ∀ token, l.overviewToken = some token → ∀ r, (token, r) ∈ accepted →
    ∃ r', l.articles.find? (fun a => decide (a.number = r.number)) = some r' ∧ (token, r') ∈ accepted

namespace ShowsFetch

variable {l after : Ledger} {accepted : List (FetchToken × OverviewRecord)}

/-- The list, and the fetch it shows, stay. -/
theorem same (h : ShowsFetch l accepted) (harticles : after.articles = l.articles)
    (htoken : after.overviewToken = l.overviewToken) (hnext : after.nextToken = l.nextToken) :
    ShowsFetch after accepted := by
  refine ⟨?_, ?_, ?_⟩
  · rw [hnext]
    exact h.issued
  · rw [htoken, hnext]
    exact h.current
  · rw [htoken, harticles]
    exact h.shown

/-- A new fetch has a token of its own, and nothing of it has been accepted yet. -/
theorem begin_ (h : ShowsFetch l accepted) (htoken : after.overviewToken = some (l.nextToken + 1))
    (hnext : after.nextToken = l.nextToken + 1) : ShowsFetch after accepted := by
  refine ⟨?_, ?_, ?_⟩
  · rw [hnext]
    exact fun e he => Nat.le_succ_of_le (h.issued e he)
  · rw [htoken, hnext]
    rintro token heq
    cases heq
    exact Nat.le_refl _
  · rw [htoken]
    rintro token heq r hr
    cases heq
    exact absurd (h.issued _ hr) (Nat.not_succ_le_self _)

/-- A fetch that is complete is not shown any more. -/
theorem complete (h : ShowsFetch l accepted) (htoken : after.overviewToken = none)
    (hnext : after.nextToken = l.nextToken) : ShowsFetch after accepted := by
  refine ⟨?_, ?_, ?_⟩
  · rw [hnext]
    exact h.issued
  · rw [htoken]
    intro token heq
    cases heq
  · rw [htoken]
    intro token heq
    cases heq

/-- The list is emptied before anything of the fetch is in it. -/
theorem clear (h : ShowsFetch l accepted)
    (hnone : ∀ token ∈ l.overviewToken, ∀ e ∈ accepted, e.1 ≠ token) :
    ShowsFetch { l with articles := [] } accepted := by
  refine ⟨h.issued, h.current, ?_⟩
  intro token htoken r hr
  exact absurd rfl (hnone token htoken _ hr)

/-- **A chunk is accepted**: it is shown, and so is what came before it. -/
theorem chunk (h : ShowsFetch l accepted) {token : FetchToken} (htoken : l.overviewToken = some token)
    (records : List OverviewRecord) :
    ShowsFetch { l with articles := Ledger.absorb l.articles records }
      (accepted ++ records.map fun record => (token, record)) := by
  refine ⟨?_, h.current, ?_⟩
  · intro e he
    rcases List.mem_append.mp he with he | he
    · exact h.issued e he
    · obtain ⟨record, _, rfl⟩ := List.mem_map.mp he
      exact h.current token htoken
  · intro t ht r hr
    have heq : t = token := Option.some.inj (ht.symm.trans htoken)
    subst heq
    show ∃ r', (Ledger.absorb l.articles records).find? _ = some r' ∧ _
    rw [find?_absorb, List.find?_append]
    -- a record that arrives for the number is shown, or else the one shown so far
    cases hfind : records.find? fun a => decide (a.number = r.number) with
    | some r' =>
        exact ⟨r', rfl, List.mem_append_right _
          (List.mem_map.mpr ⟨r', List.mem_of_find?_eq_some hfind, rfl⟩)⟩
    | none =>
        have hbefore : (t, r) ∈ accepted := by
          rcases List.mem_append.mp hr with hr | hr
          · exact hr
          · obtain ⟨record, hmem, heq⟩ := List.mem_map.mp hr
            cases heq
            have hne := List.find?_eq_none.mp hfind r hmem
            exact absurd (decide_eq_true rfl) hne
        obtain ⟨r', hshown, hr'⟩ := h.shown t htoken r hbefore
        exact ⟨r', hshown, List.mem_append_left _ hr'⟩

theorem event (h : ShowsFetch l accepted) (app : App) (hl : app.ledger = l) (event : Event) :
    ShowsFetch (l.onEvent event) (accepted ++ Watched.delivered app event) := by
  cases event with
  | overviewChunk group token records skipped =>
      have haccepts := app.acceptsOverview_iff group token
      rw [hl] at haccepts
      unfold Ledger.onEvent Watched.delivered
      dsimp only
      by_cases hthis : l.Accepts group token
      · rw [if_pos hthis, if_pos (haccepts.mpr hthis)]
        exact h.chunk hthis.1 records
      · rw [if_neg hthis, if_neg (mt haccepts.mp hthis), List.append_nil]
        exact h
  | overviewComplete group token =>
      rw [show Watched.delivered app (.overviewComplete group token) = [] from rfl, List.append_nil]
      unfold Ledger.onEvent
      dsimp only
      split
      · exact h.complete rfl rfl
      · exact h.same rfl rfl rfl
  | posted text =>
      rw [show Watched.delivered app (.posted text) = [] from rfl, List.append_nil]
      unfold Ledger.onEvent
      dsimp only
      split
      · exact h.begin_ rfl rfl
      · exact h.same rfl rfl rfl
  | _ =>
      show ShowsFetch _ (accepted ++ [])
      rw [List.append_nil]
      exact h.same rfl rfl rfl

theorem key {lowercase : Str → Str} {app : App} {key : Key} {requests : List Request}
    (h : ShowsFetch app.ledger accepted) (houtcome : KeyOutcome lowercase app key after requests)
    (hok : ∀ group ∈ app.entered lowercase key, group.isEmpty = true →
      ∀ token ∈ app.overviewToken, ∀ e ∈ accepted, e.1 ≠ token) : ShowsFetch after accepted := by
  cases houtcome with
  | clear group hentered hempty hl =>
      rw [hl]
      exact h.clear (hok group hentered hempty)
  | enter group _ _ hl =>
      rw [hl]
      exact h.begin_ rfl rfl
  | reload group range hl =>
      rw [hl]
      exact h.begin_ rfl rfl
  | screen hl | cancel _ hl | quit hl | groups _ hl | article _ _ _ _ hl | compose _ hl =>
      rw [hl]
      exact h.same rfl rfl rfl

theorem step {lowercase : Str → Str} {w w' : Watched} {input : Input}
    (h : ShowsFetch w.app.ledger w.accepted) (hok : Watched.KeepsRecords lowercase w input)
    (hs : w.step lowercase input = some w') : ShowsFetch w'.app.ledger w'.accepted := by
  cases input with
  | key key =>
      cases hs
      exact h.key (ledger_onKey lowercase w.app key) hok
  | event event =>
      cases hs
      have hnext := h.event w.app rfl event
      rw [← (w.app.ledger_onEvent event).1] at hnext
      exact hnext
  | composed composed =>
      cases hs
      show ShowsFetch (w.app.onComposed composed).1.ledger w.accepted
      rcases ledger_onComposed w.app composed with ⟨hl, _⟩ | ⟨_, _, _, hl, _⟩
      · rw [hl]
        exact h
      · rw [hl]
        exact h.same rfl rfl rfl
  | taken | resized _ _ | noted _ =>
      cases hs
      exact h.same rfl rfl rfl

end ShowsFetch

namespace Watched

theorem start_showsFetch (config : UiConfig) (read : ReadStore) (subscriptions : List Wildmat)
    (postFrom : Option Str) : ShowsFetch (start config read subscriptions postFrom).app.ledger
      (start config read subscriptions postFrom).accepted := by
  refine ⟨?_, ?_, ?_⟩
  · intro e he
    cases he
  · intro token heq
    cases heq
  · intro token heq
    cases heq

/-- **A fetch that completes shows what it delivered**, in every run in which Enter on an empty group is
not pressed while records of the fetch are on screen: every record that was accepted with its token is in
the list, unless another record of the same number was accepted with it. -/
theorem completed_shows_accepted (lowercase : Str → Str) (config : UiConfig) (read : ReadStore)
    (subscriptions : List Wildmat) (postFrom : Option Str) (inputs : List Input) (w : Watched)
    (hrun : run (step lowercase) (start config read subscriptions postFrom) inputs = some w)
    (hok : Meets (step lowercase) (KeepsRecords lowercase) (start config read subscriptions postFrom)
      inputs)
    (group : GroupName) (token : FetchToken) (haccepts : w.app.acceptsOverview group token = true)
    (hcopies : ∀ r r', (token, r) ∈ w.accepted → (token, r') ∈ w.accepted → r.number = r'.number →
      r = r') :
    ∀ r, (token, r) ∈ w.accepted →
      r ∈ (w.app.onEvent (.overviewComplete group token)).app.articles := by
  have hinv : ShowsFetch w.app.ledger w.accepted :=
    invariant_run (P := fun w => ShowsFetch w.app.ledger w.accepted) (step lowercase)
      (fun _ _ _ hok hs h => h.step hok hs)
      (start_showsFetch ..) hok hrun
  intro r hr
  have htoken : w.app.ledger.overviewToken = some token :=
    ((w.app.acceptsOverview_iff group token).mp haccepts).1
  obtain ⟨r', hshown, hr'⟩ := hinv.shown token htoken r hr
  have hnumber : r'.number = r.number := by simpa using List.find?_some hshown
  have harticles : (w.app.onEvent (.overviewComplete group token)).app.articles = w.app.articles := by
    have hl := (w.app.ledger_onEvent (.overviewComplete group token)).1
    refine (congrArg Ledger.articles hl).trans ?_
    unfold Ledger.onEvent
    dsimp only
    split <;> rfl
  rw [harticles, hcopies r r' hr hr' hnumber.symm]
  exact List.mem_of_find?_eq_some hshown

/-! ### Enter on an empty group -/

def compLangC : GroupName where
  asStr := "comp.lang.c".toList
  wellFormed := by decide

def compLangNone : GroupName where
  asStr := "comp.lang.none".toList
  wellFormed := by decide

/-- An overview record with nothing in it but a number. -/
def bareRecord (number : UInt64) : OverviewRecord where
  number := number
  subject := []
  from_ := []
  dateRaw := []
  date := none
  messageId := none
  references := []
  bytes := none
  lines := none
  extra := []

def quietConfig : UiConfig where
  unreadOnly := false
  threaded := false
  initialArticles := 10
  markReadOnOpen := true

/-- A group with two articles is opened, and the newer one arrives. -/
def firstChunk : List Input :=
  [.event (.groups [
      { name := compLangC, low := 1, high := 2, status := .permitted, description := none },
      { name := compLangNone, low := 1, high := 0, status := .permitted, description := none }]
      .everything false),
    .key { code := .enter },
    .event (.groupOpened { name := compLangC, estimatedCount := 2, low := 1, high := 2 }),
    .event (.overviewChunk compLangC 1 [bareRecord 2] 0)]

/-- The other one arrives. -/
def secondChunk : Input := .event (.overviewChunk compLangC 1 [bareRecord 1] 0)

/-- Back to the groups, down to the empty one, and Enter. -/
def entersEmptyGroup : List Input :=
  [.key { code := .char 'h' }, .key { code := .down }, .key { code := .enter }]

theorem completed_shows_twoChunks : ∃ w,
    run (step id) (start quietConfig {} [] none) (firstChunk ++ [secondChunk]) = some w ∧
      w.accepted = [(1, bareRecord 2), (1, bareRecord 1)] ∧
      ∀ r, (1, r) ∈ w.accepted → r ∈ (w.app.onEvent (.overviewComplete compLangC 1)).app.articles := by
  have heval : (run (step id) (start quietConfig {} [] none) (firstChunk ++ [secondChunk])).map
      (fun w => (w.accepted, w.app.acceptsOverview compLangC 1)) =
      some ([(1, bareRecord 2), (1, bareRecord 1)], true) := by decide +kernel
  obtain ⟨w, hrun, hw⟩ := Option.map_eq_some_iff.mp heval
  obtain ⟨haccepted, haccepts⟩ := Prod.mk.inj hw
  refine ⟨w, hrun, haccepted, completed_shows_accepted id quietConfig {} [] none _ w hrun
    (by decide +kernel) compLangC 1 haccepts ?_⟩
  rw [haccepted]
  intro r r' hr hr' hnumber
  simp only [List.mem_cons, Prod.mk.injEq, true_and, List.not_mem_nil, or_false] at hr hr'
  rcases hr with rfl | rfl <;> rcases hr' with rfl | rfl <;> first | rfl | cases hnumber

/-- The record that had arrived is gone when the fetch completes. -/
theorem entersEmptyGroup_loses : ¬ ∀ (lowercase : Str → Str) (config : UiConfig) (read : ReadStore)
    (subscriptions : List Wildmat) (postFrom : Option Str) (inputs : List Input) (w : Watched),
    run (step lowercase) (start config read subscriptions postFrom) inputs = some w →
      ∀ group token, w.app.acceptsOverview group token = true → ∀ r, (token, r) ∈ w.accepted →
        r ∈ (w.app.onEvent (.overviewComplete group token)).app.articles := by
  intro hall
  have heval : (run (step id) (start quietConfig {} [] none)
      (firstChunk ++ entersEmptyGroup ++ [secondChunk])).map
      (fun w => (w.accepted, w.app.acceptsOverview compLangC 1,
        (w.app.onEvent (.overviewComplete compLangC 1)).app.articles)) =
      some ([(1, bareRecord 2), (1, bareRecord 1)], true, [bareRecord 1]) := by decide +kernel
  obtain ⟨w, hrun, hw⟩ := Option.map_eq_some_iff.mp heval
  obtain ⟨haccepted, hw⟩ := Prod.mk.inj hw
  obtain ⟨haccepts, harticles⟩ := Prod.mk.inj hw
  have hmem := hall _ _ _ _ _ _ w hrun compLangC 1 haccepts (bareRecord 2)
    (by rw [haccepted]; exact List.mem_cons_self)
  rw [harticles, List.mem_singleton] at hmem
  exact absurd hmem (by decide)

end Watched

end Nntp.Tui
