import Nntp.Proto.Thread.Order

/-!
# The shape of the forest

`clamp_depth` goes down from the roots level by level, with the depth of each container in the queue. What it
has seen is at most `maxDepth` links below its root (`Levelled`), and in the end it has seen all there is below
the roots. So no node of a tree that `build` makes is deeper than that; and `build` prunes and sorts at every
node.
-/

namespace Nntp.Proto

open Nntp.Lib Arena

namespace Arena

/-- The container is `n` links below a root. -/
def AtDepth (a : Arena) (n x : Nat) : Prop := ∃ r, a.parentOf r = none ∧ climb a.parentOf n x = some r

/-- Links that are not above the container do not matter to its depth. -/
theorem AtDepth.congr {a b : Arena} {n x : Nat} (h : a.AtDepth n x)
    (hsame : ∀ z, Below a.parentOf x z → b.parentOf z = a.parentOf z) : b.AtDepth n x := by
  obtain ⟨r, hr, hclimb⟩ := h
  have hxr : Below a.parentOf x r := below_iff_climb.mpr ⟨n, hclimb⟩
  exact ⟨r, (hsame r hxr).trans hr, climb_congr hclimb (fun z hz _ => hsame z hz) hr⟩

theorem AtDepth.child {a : Arena} {n x p : Nat} (h : a.AtDepth n p) (hx : a.parentOf x = some p) :
    a.AtDepth (n + 1) x := by
  obtain ⟨r, hr, hclimb⟩ := h
  exact ⟨r, hr, (climb_succ hx n).trans hclimb⟩

/-! ## The levels of the queue -/

/-- What the loop of `clamp_depth` knows about the depth of the containers. -/
structure Levelled (roots : List Nat) (a : Arena) (seen : List Bool) (queue : List (Nat × Nat)) : Prop where
  queued : ∀ q ∈ queue, q.1 < a.containers.length ∧ q.2 < maxDepth ∧ a.AtDepth q.2 q.1
  shallow : ∀ x, seen[x]? = some true → ∃ n ≤ maxDepth, a.AtDepth n x
  pending : ∀ x p, a.parentOf x = some p → seen[p]? = some true → seen[x]? = some true ∨ ∃ d, (x, d) ∈ queue
  started : ∀ r ∈ roots, seen[r]? = some true ∨ ∃ d, (r, d) ∈ queue

namespace Levelled

variable {a₀ a : Arena} {roots : List Nat} {seen seen' : List Bool} {queue queue' : List (Nat × Nat)}
  {id depth x : Nat}

/-- An entry is taken out of the queue when its container is marked. -/
theorem handled (hx : seen[x]? = some true ∨ ∃ d, (x, d) ∈ (id, depth) :: queue)
    (hmark : ∀ y : Nat, seen[y]? = some true → seen'[y]? = some true) (hid : seen'[id]? = some true)
    (hqueue : ∀ q ∈ queue, q ∈ queue') : seen'[x]? = some true ∨ ∃ d, (x, d) ∈ queue' := by
  rcases hx with hx | ⟨d, hd⟩
  · exact Or.inl (hmark x hx)
  · rcases List.mem_cons.mp hd with heq | hd
    · cases heq
      exact Or.inl hid
    · exact Or.inr ⟨d, hqueue _ hd⟩

/-- An entry that was seen already. -/
theorem skip (h : Levelled roots a seen ((id, depth) :: queue)) (hseen : seen[id]? = some true) :
    Levelled roots a seen queue where
  queued := fun q hq => h.queued q (List.mem_cons_of_mem _ hq)
  shallow := h.shallow
  pending := fun x p hx hp => handled (h.pending x p hx hp) (fun _ hy => hy) hseen fun _ hq => hq
  started := fun r hr => handled (h.started r hr) (fun _ hy => hy) hseen fun _ hq => hq

/-- Above the limit, the children are one level deeper. -/
theorem descend (h : Levelled roots a seen ((id, depth) :: queue)) (hforest : a.Forest)
    (hseen : seen[id]? = some false) (hdepth : depth + 1 < maxDepth) :
    Levelled roots a (seen.set id true)
      (queue ++ (a.childrenOf id).map fun child => (child, depth + 1)) := by
  obtain ⟨_, _, hat⟩ := h.queued (id, depth) List.mem_cons_self
  have hself := Clamping.get_set_self hseen
  have hmark : ∀ y : Nat, seen[y]? = some true → (seen.set id true)[y]? = some true := fun y hy =>
    Clamping.get_set_of_seen hseen hy
  have hkids : ∀ x, a.parentOf x = some id →
      (x, depth + 1) ∈ queue ++ (a.childrenOf id).map fun child => (child, depth + 1) := fun x hx =>
    List.mem_append_right _ (List.mem_map_of_mem ((hforest.links.mem_children id x).mpr hx))
  refine ⟨fun q hq => ?_, fun x hx => ?_, fun x p hx hp => ?_, fun r hr => ?_⟩
  · rcases List.mem_append.mp hq with hq | hq
    · exact h.queued q (List.mem_cons_of_mem _ hq)
    · obtain ⟨child, hchild, rfl⟩ := List.mem_map.mp hq
      have hparent := (hforest.links.mem_children id child).mp hchild
      exact ⟨parentOf_lt hparent, hdepth, hat.child hparent⟩
  · by_cases hxid : id = x
    · subst hxid
      exact ⟨depth, by omega, hat⟩
    · rw [List.getElem?_set_ne hxid] at hx
      exact h.shallow x hx
  · by_cases hpid : id = p
    · subst hpid
      exact Or.inr ⟨depth + 1, hkids x hx⟩
    · rw [List.getElem?_set_ne hpid] at hp
      exact handled (h.pending x p hx hp) hmark hself fun _ hq => List.mem_append_left _ hq
  · exact handled (h.started r hr) hmark hself fun _ hq => List.mem_append_left _ hq

/-- At the limit, everything below the entry comes to be one level deeper than it. -/
theorem flatten (h : Levelled roots a seen ((id, depth) :: queue)) (hforest : a.Forest)
    (hup : ∀ q ∈ queue, ∀ p, a.parentOf q.1 = some p → seen[p]? = some true)
    (hseen : seen[id]? = some false) {order : List Nat}
    (hbelow : ∀ x, x ∈ order ↔ x ≠ id ∧ Below a.parentOf x id)
    (hunseen : ∀ x ∈ order, seen[x]? = some false) {c : Arena}
    (hlength : c.containers.length = a.containers.length)
    (hpar : ∀ x, c.parentOf x = if x ∈ order then some id else a.parentOf x)
    (hlt : ∀ x ∈ order, x < seen.length) :
    Levelled roots c (marked (seen.set id true) order) queue := by
  obtain ⟨_, hdepth, hat⟩ := h.queued (id, depth) List.mem_cons_self
  have hself := Clamping.get_set_self hseen
  have hmark : ∀ y : Nat, seen[y]? = some true → (marked (seen.set id true) order)[y]? = some true :=
    fun y hy => Clamping.marked_of_marked (Clamping.get_set_of_seen hseen hy)
  -- what is not below the entry keeps all the links above it
  have habove : ∀ x, x ∉ order → ∀ z, Below a.parentOf x z → z ∉ order := by
    intro x hx z hxz hz
    obtain ⟨hne, hzid⟩ := (hbelow z).mp hz
    by_cases hxid : x = id
    · subst hxid
      exact hne (hforest.links.antisymm hzid hxz)
    · exact hx ((hbelow x).mpr ⟨hxid, hxz.trans hzid⟩)
  have hkeep : ∀ x n, x ∉ order → a.AtDepth n x → c.AtDepth n x := fun x n hx hn =>
    hn.congr fun z hz => by rw [hpar, if_neg (habove x hx z hz)]
  have hidout : id ∉ order := fun hid => ((hbelow id).mp hid).1 rfl
  have hseenout : ∀ x, seen[x]? = some true → x ∉ order := by
    intro x hx hxo
    rw [hunseen x hxo] at hx
    cases hx
  have hatid := hkeep id depth hidout hat
  refine ⟨fun q hq => ?_, fun x hx => ?_, fun x p hx hp => ?_, fun r hr => ?_⟩
  · obtain ⟨hqlt, hqdepth, hqat⟩ := h.queued q (List.mem_cons_of_mem _ hq)
    refine ⟨hlength ▸ hqlt, hqdepth, hkeep q.1 q.2 (fun hqo => ?_) hqat⟩
    -- the parent of what is queued was seen, and so is none of those below the entry
    obtain ⟨hqid, hqbelow⟩ := (hbelow q.1).mp hqo
    rcases Below.cases_parent hqbelow with heq | ⟨p, hp, hpid⟩
    · exact hqid heq
    · have hpseen := hup q hq p hp
      by_cases hpe : p = id
      · rw [hpe, hseen] at hpseen
        cases hpseen
      · exact hseenout p hpseen ((hbelow p).mpr ⟨hpe, hpid⟩)
  · by_cases hxo : x ∈ order
    · exact ⟨depth + 1, hdepth, hatid.child (by rw [hpar, if_pos hxo])⟩
    · rw [marked_getElem?, if_neg fun hand => hxo hand.1] at hx
      by_cases hxid : id = x
      · subst hxid
        exact ⟨depth, by omega, hatid⟩
      · rw [List.getElem?_set_ne hxid] at hx
        obtain ⟨n, hn, hatx⟩ := h.shallow x hx
        exact ⟨n, hn, hkeep x n hxo hatx⟩
  · by_cases hxo : x ∈ order
    · refine Or.inl ?_
      rw [marked_getElem?, if_pos ⟨hxo, by rw [List.length_set]; exact hlt x hxo⟩]
    · rw [hpar, if_neg hxo] at hx
      have hpo : p ∉ order := habove x hxo p (Below.step hx)
      rw [marked_getElem?, if_neg fun hand => hpo hand.1] at hp
      by_cases hpid : id = p
      · subst hpid
        refine absurd ((hbelow x).mpr ⟨?_, Below.step hx⟩) hxo
        rintro rfl
        exact hforest.links.not_below_child hx (Below.refl x)
      · rw [List.getElem?_set_ne hpid] at hp
        exact handled (h.pending x p hx hp) hmark (Clamping.marked_of_marked hself) fun _ hq => hq
  · exact handled (h.started r hr) hmark (Clamping.marked_of_marked hself) fun _ hq => hq

/-- When the queue is empty, everything below a root was seen. -/
theorem seen_of_below (h : Levelled roots a seen []) {r : Nat} (hr : r ∈ roots) {x : Nat}
    (hx : Below a.parentOf x r) : seen[x]? = some true := by
  induction hx using Relation.ReflTransGen.head_induction_on with
  | refl => simpa using h.started r hr
  | head hstep _ ih => simpa using h.pending _ _ hstep ih

end Levelled

/-- The loop keeps the levels. -/
theorem clampLoop_levelled {a₀ b : Arena} {roots : List Nat} :
    ∀ (fuel : Nat) {a : Arena} {seen : List Bool} {queue : List (Nat × Nat)},
      Clamping a₀ roots a seen queue → Levelled roots a seen queue → clampLoop fuel a seen queue = some b →
      ∃ seen, Levelled roots b seen [] := by
  intro fuel
  induction fuel with
  | zero =>
      intro a seen queue hc hl hrun
      cases queue with
      | nil =>
          cases hrun
          exact ⟨seen, hl⟩
      | cons q queue => cases hrun
  | succ fuel ih =>
      intro a seen queue hc hl hrun
      cases queue with
      | nil =>
          cases hrun
          exact ⟨seen, hl⟩
      | cons q queue =>
          obtain ⟨id, depth⟩ := q
          obtain ⟨hidlt, _, _⟩ := hl.queued (id, depth) List.mem_cons_self
          have hlen : seen.length = a.containers.length := hc.seen_length.trans hc.length.symm
          unfold clampLoop at hrun
          cases hseen : seen[id]? with
          | none =>
              -- what is in the queue is a container
              have := List.getElem?_eq_none_iff.mp hseen
              omega
          | some flag =>
              rw [hseen] at hrun
              cases flag with
              | true => exact ih hc.skip (hl.skip hseen) hrun
              | false =>
                  dsimp only at hrun
                  split at hrun
                  · next hdepth => exact ih (hc.descend hseen) (hl.descend hc.forest hseen hdepth) hrun
                  · obtain ⟨b', order, hflat, hb, hnodup, hbelow, hunseen⟩ := hc.flatten_run hseen
                    rw [hflat] at hrun
                    obtain ⟨hclamp, hpar⟩ := hc.flatten hseen hb hnodup hbelow rfl
                    refine ih hclamp (hl.flatten hc.forest (fun q hq => hc.queued q (List.mem_cons_of_mem _ hq))
                      hseen hbelow hunseen (hclamp.length.trans hc.length.symm) hpar fun x hx => ?_) hrun
                    exact (List.getElem?_eq_some_iff.mp (hunseen x hx)).1

/-- **Below the roots nothing is deeper than the limit.** -/
theorem Forest.clampDepth_shallow {a b : Arena} (h : a.Forest) {roots : List Nat} (hcov : a.Covered roots)
    (hrun : a.clampDepth roots = some b) (hb : b.Covered roots) {r : Nat} (hr : r ∈ roots) {n x : Nat}
    (hx : climb b.parentOf n x = some r) : n ≤ maxDepth := by
  obtain ⟨seen, hl⟩ : ∃ seen, Levelled roots b seen [] := by
    refine clampLoop_levelled _ (h.clamping hcov) ⟨fun q hq => ?_, fun x hx => ?_, fun x p _ hp => ?_,
      fun r hr => Or.inr ⟨0, List.mem_map_of_mem hr⟩⟩ hrun
    · obtain ⟨r, hr, rfl⟩ := List.mem_map.mp hq
      exact ⟨hcov.lt r hr, (show 0 < maxDepth by decide), r, hcov.free r hr, rfl⟩
    · rw [List.getElem?_replicate] at hx
      split at hx <;> cases hx
    · rw [List.getElem?_replicate] at hp
      split at hp <;> cases hp
  obtain ⟨m, hm, s, hs, hclimb⟩ := hl.shallow x (hl.seen_of_below hr (below_iff_climb.mpr ⟨n, hx⟩))
  obtain ⟨rfl, _⟩ := climb_root_unique (hb.free r hr) hs hx hclimb
  exact hm

end Arena

/-! ## The nodes of a tree -/

namespace ThreadNode

def article : ThreadNode → Option Nat
  | mk article _ => article

def children : ThreadNode → List ThreadNode
  | mk _ children => children

/-- `node` is in the tree, `depth` levels below its root. -/
inductive At : ThreadNode → Nat → ThreadNode → Prop where
  | here (t : ThreadNode) : At t 0 t
  | under {article : Option Nat} {children : List ThreadNode} {child node : ThreadNode} {depth : Nat}
      (hchild : child ∈ children) (h : At child depth node) : At (mk article children) (depth + 1) node

/-- What `build` sees to at every node. -/
structure Pruned (node : ThreadNode) : Prop where
  branches : node.article = none → 2 ≤ node.children.length
  holds : node.articles ≠ []
  ascending : node.children.Pairwise fun c c' => optionLe c.oldest c'.oldest = true

mutual

/-- `first_article` is a lower bound, and an article unless there is none. -/
theorem firstArticle_least : ∀ t : ThreadNode, (∀ i ∈ t.articles, t.firstArticle ≤ i) ∧
    (t.firstArticle = usizeMax ∨ t.firstArticle ∈ t.articles)
  | mk article children => by
      obtain ⟨hbest, hle, hmem⟩ := firstArticleFrom_least (article.getD usizeMax) children
      rw [firstArticle, articles]
      cases article with
      | none => exact ⟨by simpa using hle, by simpa using hmem⟩
      | some i =>
          refine ⟨fun j hj => ?_, ?_⟩
          · rcases List.mem_append.mp hj with hj | hj
            · rw [List.mem_singleton.mp hj]
              exact hbest
            · exact hle j hj
          · rcases hmem with hmem | hmem | hmem
            · exact Or.inr (by rw [hmem]; simp)
            · exact Or.inl hmem
            · exact Or.inr (List.mem_append_right _ hmem)

theorem firstArticleFrom_least : ∀ (best : Nat) (children : List ThreadNode),
    firstArticleFrom best children ≤ best ∧
      (∀ i ∈ articlesAll children, firstArticleFrom best children ≤ i) ∧
        (firstArticleFrom best children = best ∨ firstArticleFrom best children = usizeMax ∨
          firstArticleFrom best children ∈ articlesAll children)
  | best, [] => by simp [firstArticleFrom, articlesAll]
  | best, child :: children => by
      obtain ⟨hchild, hchildmem⟩ := firstArticle_least child
      obtain ⟨hbest, hle, hmem⟩ := firstArticleFrom_least (min best (firstArticle child)) children
      rw [firstArticleFrom, articlesAll]
      refine ⟨hbest.trans (Nat.min_le_left _ _), fun i hi => ?_, ?_⟩
      · rcases List.mem_append.mp hi with hi | hi
        · exact (hbest.trans (Nat.min_le_right _ _)).trans (hchild i hi)
        · exact hle i hi
      · rcases hmem with hmem | hmem | hmem
        · rw [hmem]
          rcases Nat.le_total best (firstArticle child) with hb | hb
          · exact Or.inl (Nat.min_eq_left hb)
          · rw [Nat.min_eq_right hb]
            exact Or.inr (hchildmem.imp_right fun h => List.mem_append_left _ h)
        · exact Or.inr (Or.inl hmem)
        · exact Or.inr (Or.inr (List.mem_append_right _ hmem))

end

/-- Where the indices are in the range of `usize`, `first_article` finds the oldest article. -/
theorem oldest_eq {t : ThreadNode} (hne : t.articles ≠ []) (hle : ∀ i ∈ t.articles, i ≤ usizeMax) :
    t.oldest = some t.firstArticle := by
  obtain ⟨hleast, hmem⟩ := firstArticle_least t
  have hin : t.firstArticle ∈ t.articles := by
    rcases hmem with hmax | hmem
    · obtain ⟨i, hi⟩ := List.exists_mem_of_ne_nil _ hne
      have heq : i = t.firstArticle := Nat.le_antisymm (hmax ▸ hle i hi) (hleast i hi)
      exact heq ▸ hi
    · exact hmem
  exact List.min?_eq_some_iff.mpr ⟨hin, hleast⟩

end ThreadNode

namespace Arena

/-- The children come in the order of their first articles. -/
theorem pairwise_sortByKey (nodes : List ThreadNode) :
    (sortByKey (fun i j => decide (i ≤ j)) ThreadNode.firstArticle nodes).Pairwise fun c c' =>
      c.firstArticle ≤ c'.firstArticle := by
  have htotal : Std.Total fun c c' : ThreadNode => decide (c.firstArticle ≤ c'.firstArticle) = true :=
    ⟨fun c c' => by simpa using Nat.le_total _ _⟩
  have htrans : IsTrans ThreadNode fun c c' => decide (c.firstArticle ≤ c'.firstArticle) = true :=
    ⟨fun c c' c'' => by simpa using Nat.le_trans⟩
  exact (List.pairwise_insertionSort _ nodes).imp of_decide_eq_true

/-- Building a list of containers builds each of them. -/
theorem mapM_build_mem {a : Arena} {fuel : Nat} {ids : List Nat} {built : List (Option ThreadNode)}
    (h : ids.mapM (a.build fuel) = some built) {node : ThreadNode} (hnode : node ∈ built.reduceOption) :
    ∃ id ∈ ids, a.build fuel id = some (some node) := by
  induction ids generalizing built with
  | nil =>
      cases h
      simp at hnode
  | cons id ids ih =>
      obtain ⟨first, hfirst, rest, hrest, rfl⟩ : ∃ first, a.build fuel id = some first ∧
          ∃ rest, ids.mapM (a.build fuel) = some rest ∧ built = first :: rest := by
        rw [List.mapM_cons] at h
        obtain ⟨first, hfirst, h⟩ := Option.bind_eq_some_iff.mp h
        obtain ⟨rest, hrest, h⟩ := Option.bind_eq_some_iff.mp h
        exact ⟨first, hfirst, rest, hrest, (Option.some.inj h).symm⟩
      rcases List.mem_cons.mp (List.reduceOption_mem_iff.mp hnode) with heq | hmem
      · exact ⟨id, List.mem_cons_self, heq ▸ hfirst⟩
      · obtain ⟨id', hid', hbuilt⟩ := ih hrest (List.reduceOption_mem_iff.mpr hmem)
        exact ⟨id', List.mem_cons_of_mem _ hid', hbuilt⟩

/-- What is known of a tree that `build` made. -/
structure Shaped (height : Nat) (node : ThreadNode) : Prop where
  indices : ∀ i ∈ node.articles, i ≤ usizeMax
  nodes : ∀ depth below, node.At depth below → depth ≤ height ∧ below.Pruned

theorem Shaped.holds {height : Nat} {node : ThreadNode} (h : Shaped height node) : node.articles ≠ [] :=
  (h.nodes 0 node (.here node)).2.holds

/-- A node over shaped children, in their order, with an article or with two children at least. -/
theorem Shaped.node {height : Nat} {article : Option Nat} {children : List ThreadNode}
    (hchildren : ∀ c ∈ children, 1 ≤ height ∧ Shaped (height - 1) c)
    (hsorted : children.Pairwise fun c c' => c.firstArticle ≤ c'.firstArticle)
    (hart : ∀ i, article = some i → i ≤ usizeMax) (hbranches : article = none → 2 ≤ children.length) :
    Shaped height (.mk article children) := by
  have hall : ∀ i, i ∈ ThreadNode.articlesAll children ↔ ∃ c ∈ children, i ∈ c.articles := by
    intro i
    rw [ThreadNode.articlesAll_eq_flatMap, List.mem_flatMap]
  refine ⟨fun i hi => ?_, fun depth below hbelow => ?_⟩
  · rw [ThreadNode.articles] at hi
    rcases List.mem_append.mp hi with hi | hi
    · exact hart i (by simpa using hi)
    · obtain ⟨c, hc, hic⟩ := (hall i).mp hi
      exact (hchildren c hc).2.indices i hic
  · cases hbelow with
    | here =>
        refine ⟨Nat.zero_le _, hbranches, ?_, ?_⟩
        · rw [ThreadNode.articles]
          cases article with
          | some i => simp
          | none =>
              obtain ⟨c, hc⟩ := List.exists_mem_of_length_pos (Nat.lt_of_lt_of_le Nat.zero_lt_two (hbranches rfl))
              obtain ⟨i, hi⟩ := List.exists_mem_of_ne_nil _ (hchildren c hc).2.holds
              exact List.ne_nil_of_mem ((hall i).mpr ⟨c, hc, hi⟩)
        · refine hsorted.imp_of_mem fun {c c'} hc hc' hle => ?_
          have hfirst := (hchildren c hc).2
          have hsecond := (hchildren c' hc').2
          rw [ThreadNode.oldest_eq hfirst.holds hfirst.indices, ThreadNode.oldest_eq hsecond.holds hsecond.indices]
          exact decide_eq_true hle
    | under hchild h =>
        obtain ⟨hone, hshaped⟩ := hchildren _ hchild
        obtain ⟨hdepth, hpruned⟩ := hshaped.nodes _ _ h
        exact ⟨by omega, hpruned⟩

theorem Shaped.mono {height height' : Nat} {node : ThreadNode} (h : Shaped height node) (hle : height ≤ height') :
    Shaped height' node :=
  ⟨h.indices, fun depth below hbelow => ⟨(h.nodes depth below hbelow).1.trans hle, (h.nodes depth below hbelow).2⟩⟩

/-- **What `build` makes is no higher than what is below the container**, and pruned. -/
theorem build_shaped {a : Arena} (hforest : a.Forest) (hart : ∀ c i, a.articleOf c = some i → i ≤ usizeMax) :
    ∀ (fuel id height : Nat) (node : ThreadNode), a.build fuel id = some (some node) →
      (∀ n x, climb a.parentOf n x = some id → n ≤ height) → Shaped height node := by
  intro fuel
  induction fuel with
  | zero => exact fun id height node hbuild => by cases hbuild
  | succ fuel ih =>
      intro id height node hbuild hheight
      unfold build at hbuild
      cases hid : a.containers[id]? with
      | none =>
          rw [hid] at hbuild
          cases hbuild
      | some container =>
          rw [hid] at hbuild
          obtain ⟨built, hbuilt, hnode⟩ := Option.map_eq_some_iff.mp hbuild
          let children := sortByKey (fun i j => decide (i ≤ j)) ThreadNode.firstArticle built.reduceOption
          have hchildren : ∀ c ∈ children, 1 ≤ height ∧ Shaped (height - 1) c := by
            intro c hc
            have hmem := (sortByKey_perm _ _ _).mem_iff.mp hc
            obtain ⟨child, hchild, hcbuild⟩ := mapM_build_mem hbuilt hmem
            have hparent : a.parentOf child = some id :=
              (hforest.links.mem_children id child).mp (childrenOf_eq hid ▸ hchild)
            have hone := hheight 1 child (climb_succ' rfl hparent)
            refine ⟨hone, ih child (height - 1) c hcbuild fun n x hx => ?_⟩
            have := hheight (n + 1) x (climb_succ' hx hparent)
            omega
          have hsorted : children.Pairwise fun c c' => c.firstArticle ≤ c'.firstArticle :=
            pairwise_sortByKey _
          have hown : ∀ i, container.article = some i → i ≤ usizeMax := fun i hi =>
            hart id i (by simp [articleOf, hid, hi])
          have hmade : buildNode container.article children = some node := hnode
          cases harticle : container.article with
          | some i =>
              rw [harticle] at hmade hown
              cases hmade
              exact Shaped.node hchildren hsorted hown fun hnone => by cases hnone
          | none =>
              rw [harticle] at hmade
              -- without an article: nothing, the only child, or a node over several
              rcases hkids : children with _ | ⟨first, _ | ⟨second, rest⟩⟩
              · rw [hkids] at hmade
                cases hmade
              · rw [hkids] at hmade
                cases hmade
                obtain ⟨_, hfirst⟩ := hchildren node (hkids ▸ List.mem_cons_self)
                exact hfirst.mono (Nat.sub_le _ _)
              · rw [hkids] at hmade hchildren hsorted
                cases hmade
                exact Shaped.node hchildren hsorted (fun i hi => by cases hi) fun _ => by simp

end Arena

/-! ## The whole -/

end Nntp.Proto
