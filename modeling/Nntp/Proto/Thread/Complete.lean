import Nntp.Proto.Thread.Tree

/-!
# Threading loses and duplicates nothing

Each phase of `thread` keeps the links a forest and leaves the articles where they are. What a phase
can lose is reachability from the roots, so that is what the phases' lemmas carry: every container
that holds an article is below a root of the list that `build` starts from (`Covered`).
-/

namespace Nntp.Proto

open Nntp.Lib

namespace Arena

/-- The links of an arena are a forest over its containers. -/
structure Forest (a : Arena) : Prop where
  links : IsForest a.parentOf a.childrenOf
  parent_lt : ∀ c p, a.parentOf c = some p → p < a.containers.length

theorem Inv.toForest {a : Arena} {count : Nat} (h : Inv a count) : Forest a :=
  ⟨h.forest, h.parent_lt⟩

/-- Every container that holds an article is below one of `roots`, which have no parent. -/
structure Covered (a : Arena) (roots : List Nat) : Prop where
  nodup : roots.Nodup
  free : ∀ r ∈ roots, a.parentOf r = none
  lt : ∀ r ∈ roots, r < a.containers.length
  below : ∀ x i, a.articleOf x = some i → ∃ r ∈ roots, Below a.parentOf x r

/-! ## Walks of the arena -/

/-- What is below a container is a container. -/
theorem Forest.below_lt {a : Arena} {x y : Nat} (hy : y < a.containers.length)
    (h : Below a.parentOf x y) : x < a.containers.length := by
  rcases Below.cases_parent h with rfl | ⟨z, hz, -⟩
  · exact hy
  · exact parentOf_lt hz

/-- A walk from unrelated containers, with the children taken in any order. -/
theorem Forest.exists_walk {a : Arena} (h : Forest a) {kids : Nat → List Nat}
    (hkids : ∀ x, (kids x).Perm (a.childrenOf x)) {stack : List Nat}
    (hstack : stack.Pairwise (Unrelated a.parentOf)) (hlt : ∀ x ∈ stack, x < a.containers.length) :
    ∃ order, Visits kids stack order ∧ order.Nodup ∧ order.length ≤ a.containers.length ∧
      ∀ y, y ∈ order ↔ ∃ x ∈ stack, Below a.parentOf y x := by
  obtain ⟨order, hv⟩ := h.links.exists_visits hkids stack
  have hmem := h.links.mem_visits hkids hv
  have hnodup := h.links.nodup_visits hkids hv hstack
  refine ⟨order, hv, hnodup, length_le_of_nodup hnodup fun y hy => ?_, hmem⟩
  obtain ⟨x, hx, hyx⟩ := (hmem y).mp hy
  exact Forest.below_lt (hlt x hx) hyx

theorem childrenOf_eq {a : Arena} {id : Nat} {container : Container}
    (h : a.containers[id]? = some container) : a.childrenOf id = container.children := by
  simp [childrenOf, h]

theorem childrenOf_none {a : Arena} {id : Nat} (h : a.containers[id]? = none) :
    a.childrenOf id = [] := by
  simp [childrenOf, h]

/-- Within its budget, the walk of `first_article` finds an article if there is one. -/
theorem firstArticleLoop_isSome {a : Arena} {stack order : List Nat}
    (hv : Visits (fun x => (a.childrenOf x).reverse) stack order) :
    ∀ {steps : Nat} {best : Option Nat}, order.length < steps →
      ((∃ x ∈ order, (a.articleOf x).isSome) ∨ best.isSome) →
      (firstArticleLoop a steps stack best).isSome := by
  induction hv with
  | nil =>
      intro steps best hsteps hsome
      cases steps with
      | zero => exact absurd hsteps (Nat.not_lt_zero _)
      | succ steps => simpa [firstArticleLoop] using hsome
  | @pop x stack order rest ih =>
      intro steps best hsteps hsome
      cases steps with
      | zero => exact absurd hsteps (Nat.not_lt_zero _)
      | succ steps =>
          rw [List.length_cons] at hsteps
          unfold firstArticleLoop
          cases hx : a.containers[x]? with
          | none =>
              rw [childrenOf_none hx] at ih
              refine ih (by omega) ?_
              rcases hsome with ⟨y, hy, hsome⟩ | hsome
              · rcases List.mem_cons.mp hy with rfl | hy
                · simp [articleOf, hx] at hsome
                · exact Or.inl ⟨y, hy, hsome⟩
              · exact Or.inr hsome
          | some container =>
              rw [childrenOf_eq hx] at ih
              dsimp only
              refine ih (by omega) ?_
              cases hart : container.article with
              | some article => exact Or.inr rfl
              | none =>
                  rcases hsome with ⟨y, hy, hsome⟩ | hsome
                  · rcases List.mem_cons.mp hy with rfl | hy
                    · simp [articleOf, hx, hart] at hsome
                    · exact Or.inl ⟨y, hy, hsome⟩
                  · exact Or.inr hsome

theorem Forest.firstArticle_isSome {a : Arena} (h : Forest a) {id x i : Nat}
    (hid : id < a.containers.length) (hx : Below a.parentOf x id) (hart : a.articleOf x = some i) :
    (a.firstArticle id).isSome := by
  obtain ⟨order, hv, -, hlen, hmem⟩ := h.exists_walk (fun x => List.reverse_perm (a.childrenOf x))
    (List.pairwise_singleton _ id) (by simpa using hid)
  refine firstArticleLoop_isSome hv (Nat.lt_succ_of_le hlen) (Or.inl ⟨x, ?_, by simp [hart]⟩)
  exact (hmem x).mpr ⟨id, by simp, hx⟩

/-! ## Roots -/

theorem sortByKey_perm {α β : Type} (le : β → β → Bool) (key : α → β) (xs : List α) :
    (sortByKey le key xs).Perm xs := List.perm_insertionSort _ xs

/-- The roots are the containers without a parent that have an article below them. -/
theorem mem_roots {a : Arena} {r : Nat} : r ∈ a.roots ↔
    (r < a.containers.length ∧ a.parentOf r = none) ∧ (a.firstArticle r).isSome := by
  simp only [roots, (sortByKey_perm _ _ _).mem_iff, List.mem_filter, List.mem_range,
    Option.isNone_iff_eq_none]

/-- The roots cover the articles. -/
theorem Forest.roots_covered {a : Arena} (h : Forest a) : Covered a a.roots := by
  refine ⟨?_, fun r hr => (mem_roots.mp hr).1.2, fun r hr => (mem_roots.mp hr).1.1, ?_⟩
  · refine (sortByKey_perm _ _ _).nodup_iff.mpr ?_
    exact (List.nodup_range.filter _).filter _
  · intro x i hart
    obtain ⟨r, hxr, hroot⟩ := h.links.exists_root x
    have hlt : r < a.containers.length := by
      rcases (Below.cases_child).mp hxr with rfl | ⟨z, -, hz⟩
      · exact articleOf_lt hart
      · exact h.parent_lt z r hz
    exact ⟨r, mem_roots.mpr ⟨⟨hlt, hroot⟩, h.firstArticle_isSome hlt hxr hart⟩, hxr⟩

end Arena

/-! ## Subject grouping -/

/-- The invariant of the loop of `group_by_subject` over `roots`, of which `processed` are done. -/
structure Grouping.Inv (a₀ : Arena) (roots processed : List Nat) (g : Grouping) : Prop where
  forest : g.arena.Forest
  length : g.arena.containers.length = a₀.containers.length
  articles : g.arena.articleOf = a₀.articleOf
  covered : g.arena.Covered (roots.filter fun id => !g.merged.contains id)
  merged : ∀ m ∈ g.merged, m ∈ processed
  holders : ∀ s h, g.holders.lookup s = some h → h ∈ processed ∧ h ∉ g.merged
  holders_inj : ∀ s t h, g.holders.lookup s = some h → g.holders.lookup t = some h → s = t

namespace Grouping

open Arena

/-- Hanging one root under another takes effect. -/
theorem setParent_roots {a : Arena} {child parent : Nat} (hlt : child < a.containers.length)
    (hfree : a.parentOf child = none) (hpfree : a.parentOf parent = none) (hne : child ≠ parent) :
    a.setParent child parent = { a with
      containers := (a.containers.modify child fun c => { c with parent := some parent }).modify parent
        fun c => { c with children := c.children ++ [child] } } := by
  -- `parent` is a root, so the ancestor walk stops there
  have hanc : a.isAncestor child parent = false := by
    obtain ⟨n, hn⟩ : ∃ n, a.containers.length = n + 1 := ⟨a.containers.length - 1, by omega⟩
    simp [isAncestor, hn, isAncestorLoop, Ne.symm hne, hpfree]
  unfold setParent
  rw [if_neg (by simp [hne, hfree]), hanc]
  rfl

/-- Hanging one live root under another takes effect, and hides nothing. -/
theorem merge_covered {a : Arena} {roots merged : List Nat} (h : a.Forest)
    (hcov : a.Covered (roots.filter fun id => !merged.contains id)) {child parent : Nat}
    (hchild : child ∈ roots.filter fun id => !merged.contains id)
    (hparent : parent ∈ roots.filter fun id => !merged.contains id) (hne : child ≠ parent) :
    (a.setParent child parent).Forest ∧
      (a.setParent child parent).containers.length = a.containers.length ∧
      (a.setParent child parent).articleOf = a.articleOf ∧
      (a.setParent child parent).Covered
        (roots.filter fun id => !(merged ++ [child]).contains id) := by
  have hfree := hcov.free child hchild
  have hpfree := hcov.free parent hparent
  have hlt := hcov.lt child hchild
  have hplt := hcov.lt parent hparent
  have heq := setParent_roots hlt hfree hpfree hne
  have hpar := linked_parentOf heq hlt
  have hkids := linked_childrenOf heq hplt
  have hlen : (a.setParent child parent).containers.length = a.containers.length := by
    rw [heq]
    simp
  have hart := linked_articleOf heq
  have hsub : ∀ r, r ∈ roots.filter (fun id => !(merged ++ [child]).contains id) ↔
      r ∈ roots.filter (fun id => !merged.contains id) ∧ r ≠ child := by
    intro r
    simp [and_assoc]
  have hmono : ∀ {x y}, Below a.parentOf x y → Below (a.setParent child parent).parentOf x y := by
    intro x y hxy
    rw [hpar]
    exact IsForest.below_link_mono hfree hxy
  refine ⟨⟨?_, fun c p hcp => ?_⟩, hlen, hart, ⟨?_, fun r hr => ?_, fun r hr => ?_, ?_⟩⟩
  · rw [hpar, hkids]
    exact h.links.link hfree fun hpc => hne (hpc.eq_of_root hpfree).symm
  · rw [hlen]
    rw [hpar, Function.update_apply] at hcp
    split at hcp
    · cases hcp
      exact hplt
    · exact h.parent_lt c p hcp
  · refine List.Nodup.sublist (List.monotone_filter_right roots fun id hid => ?_) hcov.nodup
    simp only [List.contains_eq_mem, List.mem_append, Bool.not_eq_true',
      decide_eq_false_iff_not] at hid ⊢
    exact fun hm => hid (Or.inl hm)
  · obtain ⟨hr, hrc⟩ := (hsub r).mp hr
    rw [hpar, Function.update_of_ne hrc]
    exact hcov.free r hr
  · rw [hlen]
    exact hcov.lt r ((hsub r).mp hr).1
  · intro x i hx
    rw [hart] at hx
    obtain ⟨r, hr, hxr⟩ := hcov.below x i hx
    by_cases hrc : r = child
    · subst hrc
      refine ⟨parent, (hsub parent).mpr ⟨hparent, hne.symm⟩, (hmono hxr).trans (Below.step ?_)⟩
      rw [hpar, Function.update_self]
    · exact ⟨r, (hsub r).mpr ⟨hr, hrc⟩, hmono hxr⟩

section Step

variable {a₀ : Arena} {roots processed : List Nat} {g : Grouping} {id : Nat}

theorem mem_live {r : Nat} (hr : r ∈ roots)
    (hm : r ∉ g.merged) : r ∈ roots.filter fun id => !g.merged.contains id := by
  simp [hr, hm]

/-- Before the first turn. -/
theorem Inv.start {a : Arena} (h : a.Forest) (hcov : a.Covered roots) :
    Inv a roots [] ⟨a, [], []⟩ := by
  refine ⟨h, rfl, rfl, ?_, by simp, by simp, by simp⟩
  simpa using hcov

/-- A root that is left alone. -/
theorem Inv.skip (h : Inv a₀ roots processed g) : Inv a₀ roots (processed ++ [id]) g where
  forest := h.forest
  length := h.length
  articles := h.articles
  covered := h.covered
  merged := fun m hm => List.mem_append_left _ (h.merged m hm)
  holders := fun s t hs => ⟨List.mem_append_left _ (h.holders s t hs).1, (h.holders s t hs).2⟩
  holders_inj := h.holders_inj

/-- A root that becomes the holder of `subject`. -/
theorem Inv.hold (h : Inv a₀ roots processed g) (hnew : id ∉ processed) (subject : Str) :
    Inv a₀ roots (processed ++ [id]) { g with holders := (subject, id) :: g.holders } := by
  have hfresh : ∀ s, g.holders.lookup s ≠ some id := fun s hs => hnew (h.holders s id hs).1
  refine { h.skip with holders := fun s t hs => ?_, holders_inj := fun s t r hs ht => ?_ }
  · rw [List.lookup_cons] at hs
    split at hs
    · cases hs
      exact ⟨by simp, fun hm => hnew (h.merged id hm)⟩
    · exact ⟨List.mem_append_left _ (h.holders s t hs).1, (h.holders s t hs).2⟩
  · rw [List.lookup_cons] at hs ht
    split at hs <;> split at ht
    · next _ hs' _ ht' => exact (eq_of_beq hs').trans (eq_of_beq ht').symm
    · cases hs
      exact absurd ht (hfresh t)
    · cases ht
      exact absurd hs (hfresh s)
    · exact h.holders_inj s t r hs ht

/-- The current root goes under the holder. -/
theorem Inv.mergeInto (h : Inv a₀ roots processed g) (hid : id ∈ roots) (hnew : id ∉ processed)
    (hproc : ∀ r ∈ processed, r ∈ roots) {subject : Str} {holder : Nat}
    (hlook : g.holders.lookup subject = some holder) :
    Inv a₀ roots (processed ++ [id])
      { g with arena := g.arena.setParent id holder, merged := g.merged ++ [id] } := by
  obtain ⟨hholder, hlive⟩ := h.holders subject holder hlook
  have hne : id ≠ holder := fun heq => hnew (heq ▸ hholder)
  obtain ⟨hf, hl, ha, hc⟩ := merge_covered h.forest h.covered
    (mem_live hid fun hm => hnew (h.merged id hm)) (mem_live (hproc holder hholder) hlive) hne
  refine ⟨hf, hl.trans h.length, ha.trans h.articles, hc, fun m hm => ?_, fun s t hs => ?_,
    h.holders_inj⟩
  · rcases List.mem_append.mp hm with hm | hm
    · exact List.mem_append_left _ (h.merged m hm)
    · exact List.mem_append_right _ hm
  · obtain ⟨hp, hm⟩ := h.holders s t hs
    refine ⟨List.mem_append_left _ hp, fun hmem => ?_⟩
    rcases List.mem_append.mp hmem with hmem | hmem
    · exact hm hmem
    · exact hnew (List.mem_singleton.mp hmem ▸ hp)

/-- The holder goes under the current root, which holds the subject from now on. -/
theorem Inv.mergeOver (h : Inv a₀ roots processed g) (hid : id ∈ roots) (hnew : id ∉ processed)
    (hproc : ∀ r ∈ processed, r ∈ roots) {subject : Str} {holder : Nat}
    (hlook : g.holders.lookup subject = some holder) :
    Inv a₀ roots (processed ++ [id])
      { arena := g.arena.setParent holder id
        holders := (subject, id) :: g.holders
        merged := g.merged ++ [holder] } := by
  obtain ⟨hholder, hlive⟩ := h.holders subject holder hlook
  have hne : holder ≠ id := fun heq => hnew (heq ▸ hholder)
  have hidlive : id ∉ g.merged := fun hm => hnew (h.merged id hm)
  obtain ⟨hf, hl, ha, hc⟩ := merge_covered h.forest h.covered
    (mem_live (hproc holder hholder) hlive) (mem_live hid hidlive) hne
  refine ⟨hf, hl.trans h.length, ha.trans h.articles, hc, fun m hm => ?_, fun s t hs => ?_,
    (h.hold hnew subject).holders_inj⟩
  · rcases List.mem_append.mp hm with hm | hm
    · exact List.mem_append_left _ (h.merged m hm)
    · rw [List.mem_singleton.mp hm]
      exact List.mem_append_left _ hholder
  · obtain ⟨hp, hm⟩ := (h.hold hnew subject).holders s t hs
    refine ⟨hp, fun hmem => ?_⟩
    rcases List.mem_append.mp hmem with hmem | hmem
    · exact hm hmem
    · -- the old holder held `subject` only, and that entry is shadowed
      rw [List.mem_singleton] at hmem
      subst hmem
      rw [List.lookup_cons] at hs
      split at hs
      · cases hs
        exact hne rfl
      · next _ hs' =>
          rw [h.holders_inj s subject t hs hlook, beq_self_eq_true] at hs'
          cases hs'

/-- One turn of the loop. -/
theorem Inv.groupRoot (h : Inv a₀ roots processed g) (records : List OverviewRecord)
    (hid : id ∈ roots) (hnew : id ∉ processed) (hproc : ∀ r ∈ processed, r ∈ roots) :
    Inv a₀ roots (processed ++ [id]) (groupRoot records g id) := by
  unfold Nntp.Proto.groupRoot
  split
  · exact h.skip
  · next record _ =>
      dsimp only
      split
      · exact h.skip
      · cases hlook : g.holders.lookup (normaliseSubject record.subject).1 with
        | none => exact h.hold hnew _
        | some holder =>
            simp only []
            split_ifs
            · exact h.skip
            · exact h.mergeInto hid hnew hproc hlook
            · exact h.mergeOver hid hnew hproc hlook
            · exact h.mergeInto hid hnew hproc hlook
            · exact h.mergeOver hid hnew hproc hlook

end Step

/-- The whole loop. -/
theorem Inv.foldl {a₀ : Arena} {roots : List Nat} (records : List OverviewRecord) :
    ∀ {rest processed : List Nat} {g : Grouping}, roots = processed ++ rest → roots.Nodup →
      Inv a₀ roots processed g → Inv a₀ roots roots (rest.foldl (Nntp.Proto.groupRoot records) g) := by
  intro rest
  induction rest with
  | nil =>
      intro processed g hroots _ h
      rw [List.append_nil] at hroots
      exact hroots ▸ h
  | cons id rest ih =>
      intro processed g hroots hnodup h
      have hsplit : roots = (processed ++ [id]) ++ rest := by
        rw [hroots, List.append_assoc, List.singleton_append]
      have hnew : id ∉ processed := by
        rw [hroots] at hnodup
        exact fun hp => (List.nodup_append.mp hnodup).2.2 id hp id (by simp) rfl
      refine ih hsplit hnodup (h.groupRoot records ?_ hnew fun r hr => ?_)
      · rw [hroots]
        simp
      · rw [hroots]
        exact List.mem_append_left _ hr

end Grouping

/-- Subject grouping keeps the forest and loses no article. -/
theorem groupBySubject_spec {a : Arena} (h : a.Forest) {roots : List Nat} (hcov : a.Covered roots)
    (records : List OverviewRecord) :
    (groupBySubject a roots records).1.Forest ∧
      (groupBySubject a roots records).1.containers.length = a.containers.length ∧
      (groupBySubject a roots records).1.articleOf = a.articleOf ∧
      (groupBySubject a roots records).1.Covered (groupBySubject a roots records).2 := by
  have hend := (Grouping.Inv.start h hcov).foldl records (List.nil_append roots).symm hcov.nodup
  exact ⟨hend.forest, hend.length, hend.articles, hend.covered⟩

/-! ## The depth limit -/

namespace Arena

/-- `b` is `a` with the containers of `done` taken out of the tree and hung under `top`, before
`top` is told of its new children. -/
structure Lifted (a : Arena) (top : Nat) (done : List Nat) (b : Arena) : Prop where
  length : b.containers.length = a.containers.length
  articles : b.articleOf = a.articleOf
  parents : ∀ x, b.parentOf x = if x ∈ done then some top else a.parentOf x
  children : ∀ x, b.childrenOf x = if x ∈ done then [] else a.childrenOf x

theorem Lifted.start (a : Arena) (top : Nat) : Lifted a top [] a :=
  ⟨rfl, rfl, fun x => by simp, fun x => by simp⟩

/-- One turn of the inner loop. -/
theorem Lifted.step {a b : Arena} {top : Nat} {done : List Nat} (h : Lifted a top done b)
    {node : Nat} (hlt : node < a.containers.length) :
    Lifted a top (done ++ [node]) { b with
      containers := b.containers.modify node fun c => { c with parent := some top, children := [] } } := by
  have hlt' : node < b.containers.length := h.length ▸ hlt
  refine ⟨by simpa using h.length, ?_, fun x => ?_, fun x => ?_⟩
  · rw [← h.articles]
    funext x
    simp only [articleOf, List.getElem?_modify]
    cases b.containers[x]? with
    | none => rfl
    | some c => by_cases hx : node = x <;> simp [hx]
  · by_cases hx : x = node
    · subst hx
      simp [parentOf, hlt']
    · have hx' : node ≠ x := fun heq => hx heq.symm
      have hpar := h.parents x
      simp only [parentOf] at hpar
      simp [parentOf, hx, hx', hpar]
  · by_cases hx : x = node
    · subst hx
      simp [childrenOf, hlt']
    · have hx' : node ≠ x := fun heq => hx heq.symm
      have hkids := h.children x
      simp only [childrenOf] at hkids
      simp [childrenOf, hx, hx', hkids]

/-- The flags after every node of `nodes` was marked. -/
def marked (seen : List Bool) (nodes : List Nat) : List Bool :=
  nodes.foldl (fun seen node => seen.set node true) seen

@[simp] theorem marked_length (seen : List Bool) (nodes : List Nat) :
    (marked seen nodes).length = seen.length := by
  induction nodes generalizing seen with
  | nil => rfl
  | cons node nodes ih =>
      show (marked (seen.set node true) nodes).length = _
      rw [ih, List.length_set]

theorem marked_getElem? (seen : List Bool) (nodes : List Nat) (x : Nat) :
    (marked seen nodes)[x]? = if x ∈ nodes ∧ x < seen.length then some true else seen[x]? := by
  induction nodes generalizing seen with
  | nil => simp [marked]
  | cons node nodes ih =>
      show (marked (seen.set node true) nodes)[x]? = _
      rw [ih, List.length_set, List.getElem?_set]
      by_cases hx : node = x
      · subst hx
        by_cases hlt : node < seen.length
        · simp [hlt]
        · simp [hlt]
      · have hx' : x ≠ node := fun heq => hx heq.symm
        simp [hx, hx']

/-- The inner loop lifts the nodes of its walk, in order, as long as none was seen before. -/
theorem flattenLoop_spec {a : Arena} {top : Nat} {stack order : List Nat}
    (hv : Visits (fun x => (a.childrenOf x).reverse) stack order) :
    ∀ (fuel : Nat) (b : Arena) (seen : List Bool) (done : List Nat), Lifted a top done b →
      order.length ≤ fuel → order.Nodup → (∀ x ∈ order, x < a.containers.length) →
      (∀ x ∈ order, x ∉ done ∧ seen[x]? = some false) →
      ∃ b', flattenLoop top fuel b seen stack done = some (b', marked seen order, done ++ order) ∧
        Lifted a top (done ++ order) b' := by
  induction hv with
  | nil =>
      intro fuel b seen done hb _ _ _ _
      refine ⟨b, ?_, by simpa using hb⟩
      cases fuel <;> simp [flattenLoop, marked]
  | @pop x stack order rest ih =>
      intro fuel b seen done hb hfuel hnodup hlt hnew
      obtain ⟨hxorder, hnodup⟩ := List.nodup_cons.mp hnodup
      obtain ⟨hxdone, hxseen⟩ := hnew x (by simp)
      cases fuel with
      | zero => simp at hfuel
      | succ fuel =>
          have hkids : b.childrenOf x = a.childrenOf x := by rw [hb.children, if_neg hxdone]
          have hstep := hb.step (hlt x (by simp))
          obtain ⟨b', hrun, hb'⟩ := ih fuel _ (seen.set x true) _ hstep
            (by simpa using hfuel) hnodup (fun y hy => hlt y (by simp [hy])) (fun y hy => by
              obtain ⟨hydone, hyseen⟩ := hnew y (by simp [hy])
              have hyx : y ≠ x := fun heq => hxorder (heq ▸ hy)
              refine ⟨by simp [hydone, hyx], ?_⟩
              rw [List.getElem?_set_ne hyx.symm]
              exact hyseen)
          refine ⟨b', ?_, by simpa using hb'⟩
          unfold flattenLoop
          rw [hxseen]
          simp only [hkids]
          rw [hrun]
          simp [marked]

/-- The flags are closed upwards: a seen container's parent is seen. -/
def SeenUp (a : Arena) (seen : List Bool) : Prop :=
  ∀ x p, seen[x]? = some true → a.parentOf x = some p → seen[p]? = some true

theorem SeenUp.below {a : Arena} {seen : List Bool} (h : SeenUp a seen) {x y : Nat}
    (hxy : Below a.parentOf x y) (hx : seen[x]? = some true) : seen[y]? = some true := by
  induction hxy with
  | refl => exact hx
  | tail _ hstep ih => exact h _ _ ih hstep

/-- The invariant of the outer loop of `clamp_depth`. -/
structure Clamping (a₀ : Arena) (roots : List Nat) (a : Arena) (seen : List Bool)
    (queue : List (Nat × Nat)) : Prop where
  forest : a.Forest
  length : a.containers.length = a₀.containers.length
  articles : a.articleOf = a₀.articleOf
  keeps : ∀ r ∈ roots, ∀ x, Below a₀.parentOf x r → Below a.parentOf x r
  covered : a.Covered roots
  seen_length : seen.length = a₀.containers.length
  seenUp : SeenUp a seen
  queued : ∀ q ∈ queue, ∀ p, a.parentOf q.1 = some p → seen[p]? = some true

/-- How much the outer loop has left to do. -/
def clampWork (n : Nat) (seen : List Bool) (queue : List (Nat × Nat)) : Nat :=
  seen.count false * (n + 1) + queue.length

theorem count_set_true {seen : List Bool} {x : Nat} (h : seen[x]? = some false) :
    (seen.set x true).count false + 1 = seen.count false := by
  obtain ⟨hlt, hget⟩ := List.getElem?_eq_some_iff.mp h
  have hpos : 0 < seen.count false := List.count_pos_iff.mpr (hget ▸ List.getElem_mem hlt)
  rw [List.count_set hlt, hget]
  simp only [beq_self_eq_true, ↓reduceIte, show (true == false) = false from rfl,
    Bool.false_eq_true]
  omega

theorem count_marked_le (seen : List Bool) (nodes : List Nat) :
    (marked seen nodes).count false ≤ seen.count false := by
  induction nodes generalizing seen with
  | nil => exact Nat.le_refl _
  | cons node nodes ih =>
      refine (ih (seen.set node true)).trans ?_
      cases hnode : seen[node]? with
      | none => rw [List.set_eq_of_length_le (List.getElem?_eq_none_iff.mp hnode)]
      | some flag =>
          cases flag with
          | false => exact Nat.le_of_succ_le (count_set_true hnode).le
          | true =>
              obtain ⟨hlt, hget⟩ := List.getElem?_eq_some_iff.mp hnode
              rw [← hget, List.set_getElem_self]

/-- In an arena whose links are a forest, a container has fewer children than there are
containers. -/
theorem Forest.length_children {a : Arena} (h : a.Forest) (x : Nat) :
    (a.childrenOf x).length ≤ a.containers.length :=
  length_le_of_nodup (h.links.nodup_children x) fun c hc =>
    parentOf_lt ((h.links.mem_children x c).mp hc)

/-- The arena after everything below `top` was hung under it. -/
theorem Forest.flattened {a b : Arena} (h : a.Forest) {roots : List Nat} (hcov : a.Covered roots)
    {top : Nat} (htop : top < a.containers.length) {below : List Nat} (hnodup : below.Nodup)
    (hbelow : ∀ x, x ∈ below ↔ x ≠ top ∧ Below a.parentOf x top) (hb : Lifted a top below b)
    {kids : List Nat} (hkids : kids.Perm below) {c : Arena}
    (hc : c = { b with
      containers := b.containers.modify top fun c => { c with children := kids } }) :
    c.Forest ∧ c.containers.length = a.containers.length ∧ c.articleOf = a.articleOf ∧
      (∀ r ∈ roots, ∀ x, Below a.parentOf x r → Below c.parentOf x r) ∧ c.Covered roots ∧
      ∀ x, c.parentOf x = if x ∈ below then some top else a.parentOf x := by
  have htopb : top ∉ below := fun ht => ((hbelow top).mp ht).1 rfl
  have hlen : c.containers.length = a.containers.length := by
    rw [hc]
    simpa using hb.length
  have hpar : c.parentOf = fun x => if x ∈ below then some top else a.parentOf x := by
    funext x
    rw [← hb.parents x, hc]
    simp only [parentOf, List.getElem?_modify]
    cases b.containers[x]? with
    | none => rfl
    | some _ => by_cases hx : top = x <;> simp [hx]
  have hchild : c.childrenOf =
      fun x => if x = top then kids else if x ∈ below then [] else a.childrenOf x := by
    funext x
    rw [← hb.children x, hc]
    by_cases hx : x = top
    · subst hx
      simp [childrenOf, hb.length.symm ▸ htop]
    · have hx' : top ≠ x := fun heq => hx heq.symm
      simp [childrenOf, hx, hx']
  have hart : c.articleOf = a.articleOf := by
    rw [← hb.articles, hc]
    funext x
    simp only [articleOf, List.getElem?_modify]
    cases b.containers[x]? with
    | none => rfl
    | some _ => by_cases hx : top = x <;> simp [hx]
  have hfree : ∀ r, a.parentOf r = none → r ∉ below := by
    intro r hr hrb
    obtain ⟨hne, hrt⟩ := (hbelow r).mp hrb
    exact hne (hrt.eq_of_root hr)
  have hkeeps : ∀ r ∈ roots, ∀ x, Below a.parentOf x r → Below c.parentOf x r := by
    intro r hr x hx
    rw [hpar]
    exact h.links.below_flatten hbelow hx (hcov.free r hr)
  refine ⟨⟨?_, fun x p hx => ?_⟩, hlen, hart, hkeeps, ⟨hcov.nodup, fun r hr => ?_, fun r hr => ?_,
    fun x i hx => ?_⟩, fun x => congrFun hpar x⟩
  · rw [hpar, hchild]
    exact h.links.flatten hbelow hnodup hkids
  · rw [hlen]
    rw [hpar] at hx
    dsimp only at hx
    split at hx
    · cases hx
      exact htop
    · exact h.parent_lt x p hx
  · rw [hpar]
    simp only [hfree r (hcov.free r hr), ↓reduceIte]
    exact hcov.free r hr
  · rw [hlen]
    exact hcov.lt r hr
  · rw [hart] at hx
    obtain ⟨r, hr, hxr⟩ := hcov.below x i hx
    exact ⟨r, hr, hkeeps r hr x hxr⟩

namespace Clamping

variable {a₀ a : Arena} {roots : List Nat} {seen : List Bool} {queue : List (Nat × Nat)}
  {id depth : Nat}

/-- An entry that was seen already. -/
theorem skip (h : Clamping a₀ roots a seen ((id, depth) :: queue)) :
    Clamping a₀ roots a seen queue :=
  { h with queued := fun q hq => h.queued q (List.mem_cons_of_mem _ hq) }

theorem id_lt (h : Clamping a₀ roots a seen ((id, depth) :: queue))
    (hseen : seen[id]? = some false) : id < a.containers.length := by
  obtain ⟨hlt, -⟩ := List.getElem?_eq_some_iff.mp hseen
  rw [h.length, ← h.seen_length]
  exact hlt

theorem get_set_self (hseen : seen[id]? = some false) : (seen.set id true)[id]? = some true := by
  obtain ⟨hlt, -⟩ := List.getElem?_eq_some_iff.mp hseen
  rw [List.getElem?_set_self hlt]

theorem get_set_of_seen {x : Nat} (hseen : seen[id]? = some false) (hx : seen[x]? = some true) :
    (seen.set id true)[x]? = some true := by
  have hne : id ≠ x := by
    rintro rfl
    rw [hseen] at hx
    cases hx
  rw [List.getElem?_set_ne hne]
  exact hx

/-- The parent of the popped entry was seen, so marking the entry keeps the flags closed. -/
theorem seenUp_set (h : Clamping a₀ roots a seen ((id, depth) :: queue))
    (hseen : seen[id]? = some false) : SeenUp a (seen.set id true) := by
  intro x p hx hp
  by_cases hxid : id = x
  · subst hxid
    exact get_set_of_seen hseen (h.queued (id, depth) (by simp) p hp)
  · rw [List.getElem?_set_ne hxid] at hx
    exact get_set_of_seen hseen (h.seenUp x p hx hp)

/-- Above the limit, the children queue up. -/
theorem descend (h : Clamping a₀ roots a seen ((id, depth) :: queue))
    (hseen : seen[id]? = some false) :
    Clamping a₀ roots a (seen.set id true)
      (queue ++ (a.childrenOf id).map fun child => (child, depth + 1)) where
  forest := h.forest
  length := h.length
  articles := h.articles
  keeps := h.keeps
  covered := h.covered
  seen_length := by rw [List.length_set, h.seen_length]
  seenUp := h.seenUp_set hseen
  queued := by
    intro q hq p hp
    rcases List.mem_append.mp hq with hq | hq
    · exact get_set_of_seen hseen (h.queued q (List.mem_cons_of_mem _ hq) p hp)
    · obtain ⟨child, hchild, rfl⟩ := List.mem_map.mp hq
      have hparent := (h.forest.links.mem_children id child).mp hchild
      obtain rfl : id = p := Option.some.inj (hparent.symm.trans hp)
      exact get_set_self hseen

/-- At the limit, everything below the entry is taken out of the tree. -/
theorem flatten_run (h : Clamping a₀ roots a seen ((id, depth) :: queue))
    (hseen : seen[id]? = some false) :
    ∃ b order, flattenLoop id a.containers.length a (seen.set id true) (a.childrenOf id).reverse [] =
        some (b, marked (seen.set id true) order, order) ∧
      Lifted a id order b ∧ order.Nodup ∧ (∀ x, x ∈ order ↔ x ≠ id ∧ Below a.parentOf x id) ∧
      ∀ x ∈ order, seen[x]? = some false := by
  have hid := h.id_lt hseen
  have hpair : (a.childrenOf id).reverse.Pairwise (Unrelated a.parentOf) :=
    List.pairwise_reverse.mpr ((h.forest.links.pairwise_children id).imp Unrelated.symm)
  have hchild : ∀ x ∈ (a.childrenOf id).reverse, a.parentOf x = some id := fun x hx =>
    (h.forest.links.mem_children id x).mp (List.mem_reverse.mp hx)
  obtain ⟨order, hv, hnodup, hlen, hmem⟩ := h.forest.exists_walk
    (fun x => List.reverse_perm (a.childrenOf x)) hpair fun x hx => parentOf_lt (hchild x hx)
  have hbelow : ∀ x, x ∈ order ↔ x ≠ id ∧ Below a.parentOf x id := by
    intro x
    rw [hmem x]
    constructor
    · rintro ⟨c, hc, hxc⟩
      refine ⟨?_, hxc.trans (Below.step (hchild c hc))⟩
      rintro rfl
      exact h.forest.links.not_below_child (hchild c hc) hxc
    · rintro ⟨hne, hx⟩
      rcases Below.cases_child.mp hx with rfl | ⟨c, hxc, hc⟩
      · exact absurd rfl hne
      · exact ⟨c, List.mem_reverse.mpr ((h.forest.links.mem_children id c).mpr hc), hxc⟩
  have hlt : ∀ x ∈ order, x < a.containers.length := fun x hx =>
    Forest.below_lt hid ((hbelow x).mp hx).2
  -- had something below been seen, so would `id` have been
  have hunseen : ∀ x ∈ order, seen[x]? = some false := by
    intro x hx
    have hxlt : x < seen.length := by
      rw [h.seen_length, ← h.length]
      exact hlt x hx
    cases hflag : seen[x] with
    | false => rw [List.getElem?_eq_getElem hxlt, hflag]
    | true =>
        have := h.seenUp.below ((hbelow x).mp hx).2 (by rw [List.getElem?_eq_getElem hxlt, hflag])
        rw [hseen] at this
        cases this
  obtain ⟨b, hrun, hb⟩ := flattenLoop_spec hv a.containers.length a (seen.set id true) []
    (Lifted.start a id) hlen hnodup hlt fun x hx => by
      refine ⟨List.not_mem_nil, ?_⟩
      rw [List.getElem?_set_ne ((hbelow x).mp hx).1.symm]
      exact hunseen x hx
  rw [List.nil_append] at hrun hb
  exact ⟨b, order, hrun, hb, hnodup, hbelow, hunseen⟩

/-- What was marked stays marked. -/
theorem marked_of_marked {nodes : List Nat} {x : Nat} (hx : seen[x]? = some true) :
    (marked seen nodes)[x]? = some true := by
  rw [marked_getElem?]
  split
  · rfl
  · exact hx

/-- And hung under the entry. -/
theorem flatten (h : Clamping a₀ roots a seen ((id, depth) :: queue))
    (hseen : seen[id]? = some false) {b : Arena} {order : List Nat} (hb : Lifted a id order b)
    (hnodup : order.Nodup) (hbelow : ∀ x, x ∈ order ↔ x ≠ id ∧ Below a.parentOf x id) {c : Arena}
    (hc : c = { b with
      containers := b.containers.modify id fun c =>
        { c with children := sortByKey optionLe b.firstArticle order } }) :
    Clamping a₀ roots c (marked (seen.set id true) order) queue ∧
      ∀ x, c.parentOf x = if x ∈ order then some id else a.parentOf x := by
  have hid := h.id_lt hseen
  obtain ⟨hf, hl, hart, hkeeps, hcov, hpar⟩ := h.forest.flattened h.covered hid hnodup hbelow hb
    (sortByKey_perm optionLe b.firstArticle order) hc
  refine ⟨⟨hf, hl.trans h.length, hart.trans h.articles,
    fun r hr x hx => hkeeps r hr x (h.keeps r hr x hx), hcov, ?_, fun x p hx hp => ?_,
    fun q hq p hp => ?_⟩, hpar⟩
  · rw [marked_length, List.length_set, h.seen_length]
  · rw [hpar] at hp
    apply marked_of_marked
    split at hp
    · cases hp
      exact get_set_self hseen
    · next hxo =>
        rw [marked_getElem?, if_neg fun hand => hxo hand.1] at hx
        exact h.seenUp_set hseen x p hx hp
  · rw [hpar] at hp
    apply marked_of_marked
    split at hp
    · cases hp
      exact get_set_self hseen
    · exact get_set_of_seen hseen (h.queued q (List.mem_cons_of_mem _ hq) p hp)

end Clamping

/-- Within its budget the outer loop ends, and it keeps its invariant. -/
theorem clampLoop_spec {a₀ : Arena} {roots : List Nat} :
    ∀ (fuel : Nat) (a : Arena) (seen : List Bool) (queue : List (Nat × Nat)),
      Clamping a₀ roots a seen queue → clampWork a₀.containers.length seen queue ≤ fuel →
      ∃ b, clampLoop fuel a seen queue = some b ∧ b.Forest ∧
        b.containers.length = a₀.containers.length ∧ b.articleOf = a₀.articleOf ∧
        (∀ r ∈ roots, ∀ x, Below a₀.parentOf x r → Below b.parentOf x r) ∧ b.Covered roots := by
  intro fuel
  induction fuel with
  | zero =>
      intro a seen queue h hfuel
      cases queue with
      | nil => exact ⟨a, rfl, h.forest, h.length, h.articles, h.keeps, h.covered⟩
      | cons q queue =>
          simp only [clampWork, List.length_cons] at hfuel
          omega
  | succ fuel ih =>
      intro a seen queue h hfuel
      cases queue with
      | nil => exact ⟨a, rfl, h.forest, h.length, h.articles, h.keeps, h.covered⟩
      | cons q queue =>
          obtain ⟨id, depth⟩ := q
          simp only [clampWork, List.length_cons] at hfuel
          have hskip : clampWork a₀.containers.length seen queue ≤ fuel := by
            unfold clampWork
            omega
          unfold clampLoop
          cases hseen : seen[id]? with
          | none => exact ih a seen queue h.skip hskip
          | some flag =>
              cases flag with
              | true => exact ih a seen queue h.skip hskip
              | false =>
                  have hcount := count_set_true hseen
                  have hmul : seen.count false * (a₀.containers.length + 1) =
                      (seen.set id true).count false * (a₀.containers.length + 1) +
                        (a₀.containers.length + 1) := by
                    rw [← hcount, Nat.succ_mul]
                  dsimp only
                  split
                  · refine ih a _ _ (h.descend hseen) ?_
                    have hkids := h.forest.length_children id
                    rw [h.length] at hkids
                    simp only [clampWork, List.length_append, List.length_map]
                    omega
                  · obtain ⟨b, order, hrun, hb, hnodup, hbelow, _⟩ := h.flatten_run hseen
                    rw [hrun]
                    refine ih _ _ queue (h.flatten hseen hb hnodup hbelow rfl).1 ?_
                    have hle := Nat.mul_le_mul_right (a₀.containers.length + 1)
                      (count_marked_le (seen.set id true) order)
                    unfold clampWork
                    omega

/-- Before the first turn nothing was seen, and the roots are queued. -/
theorem Forest.clamping {a : Arena} (h : a.Forest) {roots : List Nat} (hcov : a.Covered roots) :
    Clamping a roots a (List.replicate a.containers.length false) (roots.map fun id => (id, 0)) := by
  refine ⟨h, rfl, rfl, fun _ _ _ hx => hx, hcov, by simp, ?_, ?_⟩
  · intro x p hx
    rw [List.getElem?_replicate] at hx
    split at hx <;> cases hx
  · intro q hq p hp
    obtain ⟨r, hr, rfl⟩ := List.mem_map.mp hq
    rw [hcov.free r hr] at hp
    cases hp

/-- The depth limit loses no article. -/
theorem Forest.clampDepth {a : Arena} (h : a.Forest) {roots : List Nat} (hcov : a.Covered roots) :
    ∃ b, a.clampDepth roots = some b ∧ b.Forest ∧
      b.containers.length = a.containers.length ∧ b.articleOf = a.articleOf ∧
      (∀ r ∈ roots, ∀ x, Below a.parentOf x r → Below b.parentOf x r) ∧ b.Covered roots := by
  refine clampLoop_spec _ a _ _ (h.clamping hcov) ?_
  have hroots := length_le_of_nodup hcov.nodup hcov.lt
  simp only [clampWork, List.count_replicate_self, List.length_map]
  rw [Nat.succ_mul]
  omega

/-! ## Building -/

/-- The articles of a list of containers, in the order of the list. -/
def articlesOf (a : Arena) (order : List Nat) : List Nat := order.filterMap a.articleOf

end Arena

theorem ThreadNode.articlesAll_eq_flatMap (nodes : List ThreadNode) :
    ThreadNode.articlesAll nodes = nodes.flatMap ThreadNode.articles := by
  induction nodes with
  | nil => rfl
  | cons node nodes ih => rw [ThreadNode.articlesAll, ih, List.flatMap_cons]

namespace Arena

/-- Pruning drops only nodes without an article. -/
theorem articles_buildNode (article : Option Nat) (children : List ThreadNode) :
    (buildNode article children).toList.flatMap ThreadNode.articles =
      article.toList ++ ThreadNode.articlesAll children := by
  cases article with
  | some article => simp [buildNode, ThreadNode.articles]
  | none =>
      rcases children with _ | ⟨child, _ | ⟨second, rest⟩⟩
      · simp [buildNode, ThreadNode.articlesAll]
      · simp [buildNode, ThreadNode.articlesAll]
      · simp [buildNode, ThreadNode.articles]

/-- Building a list of containers, when each of them is built right. -/
theorem mapM_build {a : Arena} {fuel : Nat}
    (hbuild : ∀ id order, Visits a.childrenOf [id] order → order.length ≤ fuel →
      ∃ node, a.build fuel id = some node ∧
        (node.toList.flatMap ThreadNode.articles).Perm (a.articlesOf order)) :
    ∀ (ids order : List Nat), Visits a.childrenOf ids order → order.length ≤ fuel →
      ∃ built, ids.mapM (a.build fuel) = some built ∧
        (built.reduceOption.flatMap ThreadNode.articles).Perm (a.articlesOf order) := by
  intro ids
  induction ids with
  | nil =>
      intro order hv _
      cases hv
      exact ⟨[], rfl, List.Perm.refl _⟩
  | cons id ids ih =>
      intro order hv hlen
      obtain ⟨first, rest, rfl, hfirst, hrest⟩ := Visits.split [id] hv
      rw [List.length_append] at hlen
      obtain ⟨node, hnode, hperm⟩ := hbuild id first hfirst (by omega)
      obtain ⟨built, hbuilt, hperms⟩ := ih rest hrest (by omega)
      refine ⟨node :: built, ?_, ?_⟩
      · simp [List.mapM_cons, hnode, hbuilt]
      · have hsplit : (node :: built).reduceOption = node.toList ++ built.reduceOption := by
          cases node <;> simp [List.reduceOption]
        rw [hsplit, List.flatMap_append, articlesOf, List.filterMap_append]
        exact hperm.append hperms

/-- Within its budget `build` gives a tree with the articles below the container. -/
theorem build_spec (a : Arena) : ∀ (fuel id : Nat) (order : List Nat),
    Visits a.childrenOf [id] order → order.length ≤ fuel →
    ∃ node, a.build fuel id = some node ∧
      (node.toList.flatMap ThreadNode.articles).Perm (a.articlesOf order) := by
  intro fuel
  induction fuel with
  | zero =>
      intro id order hv hlen
      cases hv
      simp at hlen
  | succ fuel ih =>
      intro id order hv hlen
      cases hv with
      | @pop _ _ below hbelow =>
          rw [List.append_nil] at hbelow
          rw [List.length_cons] at hlen
          unfold build
          cases hid : a.containers[id]? with
          | none =>
              rw [childrenOf_none hid] at hbelow
              cases hbelow
              exact ⟨none, rfl, by simp [articlesOf, articleOf, hid]⟩
          | some container =>
              rw [childrenOf_eq hid] at hbelow
              obtain ⟨built, hbuilt, hperm⟩ := mapM_build ih container.children below hbelow (by omega)
              dsimp only
              rw [hbuilt]
              refine ⟨_, rfl, ?_⟩
              rw [articles_buildNode, ThreadNode.articlesAll_eq_flatMap]
              have hhead : a.articlesOf (id :: below) = container.article.toList ++ a.articlesOf below := by
                cases hart : container.article <;> simp [articlesOf, articleOf, hid, hart]
              rw [hhead]
              exact ((sortByKey_perm _ _ _).flatMap_right _).trans hperm |>.append_left _

end Arena

/-! ## The whole -/

open Arena

theorem linkRecords_inv (records : List OverviewRecord) :
    (linkRecords records).Inv records.length := by
  have hinsert : ∀ (rs : List OverviewRecord) (k : Nat) (a : Arena), a.Inv k →
      ((rs.zipIdx k).foldl (fun a r => a.insert r.2 r.1) a).Inv (k + rs.length) := by
    intro rs
    induction rs with
    | nil => exact fun k a h => h
    | cons r rs ih =>
        intro k a h
        have := ih (k + 1) (a.insert k r) (h.insert r)
        rw [List.length_cons, Nat.add_comm rs.length 1, ← Nat.add_assoc]
        exact this
  have hlink : ∀ (rs : List (OverviewRecord × Nat)) (a : Arena), a.Inv records.length →
      (rs.foldl (fun a r => a.linkReferences r.2 r.1) a).Inv records.length := by
    intro rs
    induction rs with
    | nil => exact fun a h => h
    | cons r rs ih => exact fun a h => ih _ (h.linkReferences r.2 r.1)
  refine hlink _ _ ?_
  have := hinsert records 0 Arena.empty empty_inv
  rwa [Nat.zero_add] at this

/-- `thread` always returns, and what it returns has every article. -/
theorem exists_thread (records : List OverviewRecord) :
    ∃ forest, thread records = some forest ∧
      (forest.flatMap ThreadNode.articles).Perm (List.range records.length) := by
  have hinv := linkRecords_inv records
  obtain ⟨hg, hglen, hgart, hgcov⟩ :=
    groupBySubject_spec hinv.toForest hinv.toForest.roots_covered records
  obtain ⟨b, hclamp, hb, hblen, hbart, -, hbcov⟩ := hg.clampDepth hgcov
  have hpair : (groupBySubject (linkRecords records) (linkRecords records).roots records).2.Pairwise
      (Unrelated b.parentOf) := by
    refine hbcov.nodup.imp_of_mem fun {x y} hx hy hne => ?_
    exact IsForest.unrelated_roots (hbcov.free x hx) (hbcov.free y hy) hne
  obtain ⟨order, hv, hnodup, hlen, hmem⟩ :=
    hb.exists_walk (fun x => List.Perm.refl (b.childrenOf x)) hpair hbcov.lt
  obtain ⟨built, hbuilt, hperm⟩ := mapM_build (build_spec b _) _ order hv (Nat.le_succ_of_le hlen)
  refine ⟨built.reduceOption, ?_, hperm.trans ?_⟩
  · unfold thread
    dsimp only
    rw [hclamp]
    dsimp only
    rw [hbuilt]
    rfl
  · -- the walk meets the container of every record, and no article twice
    have hart : ∀ c i, b.articleOf c = some i ↔ (linkRecords records).byArticle[i]? = some c := by
      intro c i
      rw [hbart, hgart]
      exact hinv.article_iff c i
    refine (List.perm_ext_iff_of_nodup ?_ List.nodup_range).mpr fun i => ?_
    · refine hnodup.filterMap fun c c' i hc hc' => ?_
      rw [Option.mem_def, hart] at hc hc'
      exact Option.some.inj (hc.symm.trans hc')
    · rw [articlesOf, List.mem_filterMap, List.mem_range, ← hinv.byArticle_length]
      constructor
      · rintro ⟨c, -, hc⟩
        exact (List.getElem?_eq_some_iff.mp ((hart c i).mp hc)).1
      · intro hi
        have hc := (hart _ i).mpr (List.getElem?_eq_getElem hi)
        obtain ⟨r, hr, hbelow⟩ := hbcov.below _ i hc
        exact ⟨_, (hmem _).mpr ⟨r, hr, hbelow⟩, hc⟩

/-- **Threading loses and duplicates nothing.** `thread` always returns, and the articles of the
forest it returns are the indices of the records, each once. -/
theorem thread_articles (records : List OverviewRecord) :
    ∃ forest, thread records = some forest ∧
      (forest.flatMap ThreadNode.articles).Perm (List.range records.length) :=
  exists_thread records

end Nntp.Proto
