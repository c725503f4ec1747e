import Mathlib.Data.List.Pairwise
import Nntp.Proto.Thread.Holder

/-!
# The order of the threads

The roots are sorted before subjects are grouped, and grouping drops roots from the list without sorting it
again. What is left of a subject stands where its holder stood; the oldest article of the subject may stand
further to the front, if a reply was taken over by a root that came later.
-/

namespace Nntp.Proto

open Nntp.Lib Arena

/-- The oldest article of a thread. -/
def ThreadNode.oldest (t : ThreadNode) : Option Nat := t.articles.min?

/-- `thread` returns the threads in the order of their oldest articles. -/
def InOrder (records : List OverviewRecord) : Prop :=
  ∃ forest, thread records = some forest ∧
    forest.Pairwise fun t t' => optionLe t.oldest t'.oldest = true

/-! ## What becomes of the roots -/

namespace Arena

/-- The depth limit and the building leave every root its oldest article. -/
theorem firstArticle_clamped {a b : Arena} {roots : List Nat} (ha : a.Forest) (hb : b.Forest)
    (hlen : b.containers.length = a.containers.length) (hart : b.articleOf = a.articleOf)
    (hkeeps : ∀ r ∈ roots, ∀ x, Below a.parentOf x r → Below b.parentOf x r)
    (hcov : a.Covered roots) (hbcov : b.Covered roots) {r : Nat} (hr : r ∈ roots) :
    b.firstArticle r = a.firstArticle r := by
  have hbelow : b.articlesBelow r = a.articlesBelow r := by
    ext i
    constructor
    · rintro ⟨x, hx, hi⟩
      rw [hart] at hi
      obtain ⟨r', hr', hx'⟩ := hcov.below x i hi
      have hx' := hkeeps r' hr' x hx'
      rcases hx.chain hx' with hrr | hrr
      · rw [hrr.eq_of_root (hbcov.free r hr)]
        exact ⟨x, by assumption, hi⟩
      · rw [← hrr.eq_of_root (hbcov.free r' hr')]
        exact ⟨x, by assumption, hi⟩
    · rintro ⟨x, hx, hi⟩
      exact ⟨x, hkeeps r hr x hx, hart ▸ hi⟩
  ext i
  rw [hb.firstArticle_eq_some (hlen.symm ▸ hcov.lt r hr), hbelow,
    ha.firstArticle_eq_some (hcov.lt r hr)]

/-- A root with an article below it becomes a tree, whose oldest article is the root's. -/
theorem Forest.build_root {a : Arena} (h : a.Forest) {r : Nat} (hr : r < a.containers.length)
    (hsome : (a.firstArticle r).isSome) :
    ∃ node, a.build (a.containers.length + 1) r = some (some node) ∧
      node.oldest = a.firstArticle r := by
  obtain ⟨order, hv, -, hlen, hmem⟩ := h.exists_walk (fun x => List.Perm.refl (a.childrenOf x))
    (List.pairwise_singleton _ r) (by simpa using hr)
  obtain ⟨node, hnode, hperm⟩ := build_spec a _ r order hv (Nat.le_succ_of_le hlen)
  have hfirst : (node.toList.flatMap ThreadNode.articles).min? = a.firstArticle r := by
    ext i
    rw [h.firstArticle_eq_some hr, List.min?_eq_some_iff]
    have hiff : ∀ j, j ∈ node.toList.flatMap ThreadNode.articles ↔ j ∈ a.articlesBelow r := by
      intro j
      rw [hperm.mem_iff, articlesOf, List.mem_filterMap]
      constructor
      · rintro ⟨x, hx, hj⟩
        obtain ⟨y, hy, hxy⟩ := (hmem x).mp hx
        exact ⟨x, List.mem_singleton.mp hy ▸ hxy, hj⟩
      · rintro ⟨x, hx, hj⟩
        exact ⟨x, (hmem x).mpr ⟨r, List.mem_singleton_self r, hx⟩, hj⟩
    rw [IsLeast, lowerBounds, hiff]
    exact and_congr_right fun _ => ⟨fun hle j hj => hle j ((hiff j).mpr hj),
      fun hle j hj => hle ((hiff j).mp hj)⟩
  cases node with
  | none =>
      rw [← hfirst] at hsome
      cases hsome
  | some node =>
      refine ⟨node, hnode, ?_⟩
      rw [← hfirst]
      simp [ThreadNode.oldest]

/-- Building the roots, when each of them becomes a tree. -/
theorem mapM_build_roots {a : Arena} {fuel : Nat} {roots : List Nat}
    (h : ∀ r ∈ roots, ∃ node, a.build fuel r = some (some node) ∧ node.oldest = a.firstArticle r) :
    ∃ built, roots.mapM (a.build fuel) = some built ∧
      built.reduceOption.map ThreadNode.oldest = roots.map a.firstArticle := by
  induction roots with
  | nil => exact ⟨[], rfl, rfl⟩
  | cons r roots ih =>
      obtain ⟨node, hnode, holdest⟩ := h r List.mem_cons_self
      obtain ⟨built, hbuilt, hmap⟩ := ih fun r' hr' => h r' (List.mem_cons_of_mem _ hr')
      refine ⟨some node :: built, ?_, ?_⟩
      · simp [List.mapM_cons, hnode, hbuilt]
      · rw [List.reduceOption_cons_of_some, List.map_cons, List.map_cons, holdest, hmap]

end Arena

/-- A root that stays has an article below it. -/
theorem grouped_firstArticle_isSome {records : List OverviewRecord} {r : Nat}
    (hr : r ∈ (grouped records).2) : ((grouped records).1.firstArticle r).isSome := by
  have hforest := (linkRecords_inv records).toForest
  obtain ⟨hinv, hgathers⟩ := linkRecords_gathers records
  have hroot : r ∈ (linkRecords records).roots := (List.mem_filter.mp hr).1
  have hlt := hforest.roots_covered.lt r hroot
  obtain ⟨i, hi⟩ := Option.isSome_iff_exists.mp (mem_roots.mp hroot).2
  obtain ⟨⟨x, hx, hart⟩, _⟩ := (hforest.firstArticle_eq_some hlt).mp hi
  refine hinv.forest.firstArticle_isSome (hinv.length.symm ▸ hlt) (hx.mono hgathers.kept) (i := i) ?_
  rw [hinv.articles]
  exact hart

/-- **The threads stand for the roots that grouping leaves**, in their order. -/
theorem thread_oldest (records : List OverviewRecord) :
    ∃ forest, thread records = some forest ∧
      forest.map ThreadNode.oldest = (grouped records).2.map (grouped records).1.firstArticle := by
  have hinv := linkRecords_inv records
  obtain ⟨hg, hglen, hgart, hgcov⟩ :=
    groupBySubject_spec hinv.toForest hinv.toForest.roots_covered records
  obtain ⟨b, hclamp, hb, hblen, hbart, hkeeps, hbcov⟩ := hg.clampDepth hgcov
  have hsame : ∀ r ∈ (grouped records).2, b.firstArticle r = (grouped records).1.firstArticle r :=
    fun r hr => firstArticle_clamped hg hb hblen hbart hkeeps hgcov hbcov hr
  have hbuild : ∀ r ∈ (grouped records).2, ∃ node,
      b.build (b.containers.length + 1) r = some (some node) ∧ node.oldest = b.firstArticle r := by
    intro r hr
    refine hb.build_root (hbcov.lt r hr) ?_
    rw [hsame r hr]
    exact grouped_firstArticle_isSome hr
  obtain ⟨built, hbuilt, hmap⟩ := mapM_build_roots hbuild
  refine ⟨built.reduceOption, ?_, hmap.trans (List.map_congr_left hsame)⟩
  unfold thread
  dsimp only
  rw [hclamp]
  dsimp only
  show Option.map _ ((grouped records).2.mapM _) = _
  rw [hbuilt]
  rfl

/-- The order of the threads is that of the roots that stay. -/
theorem inOrder_iff_roots {records : List OverviewRecord} : InOrder records ↔
    (grouped records).2.Pairwise fun r r' =>
      optionLe ((grouped records).1.firstArticle r) ((grouped records).1.firstArticle r') = true := by
  obtain ⟨forest, hforest, hmap⟩ := thread_oldest records
  have hpairs : (forest.Pairwise fun t t' => optionLe t.oldest t'.oldest = true) ↔
      (grouped records).2.Pairwise fun r r' =>
        optionLe ((grouped records).1.firstArticle r) ((grouped records).1.firstArticle r') = true := by
    rw [← List.pairwise_map (f := ThreadNode.oldest) (R := fun i j => optionLe i j = true), hmap,
      List.pairwise_map]
  constructor
  · rintro ⟨forest', hforest', hsorted⟩
    cases hforest.symm.trans hforest'
    exact hpairs.mp hsorted
  · exact fun h => ⟨forest, hforest, hpairs.mpr h⟩

/-! ## Who stands where -/

/-- No root about the same subject is older than `o`. -/
def LeadsSubject (records : List OverviewRecord) (o : Nat) : Prop :=
  o ∈ (linkRecords records).roots ∧ ∀ s, s ≠ [] → o ∈ rootsAbout records s →
    (rootsAbout records s).head? = some o

/-- The oldest root about a subject is the reply `o`, and `j` is the last root about it that is none. -/
def GivesWay (records : List OverviewRecord) (o j : Nat) : Prop :=
  ∃ s, s ≠ [] ∧ (rootsAbout records s).head? = some o ∧ (linkRecords records).isReply records o = true ∧
    ((rootsAbout records s).filter fun r => !(linkRecords records).isReply records r).getLast? = some j

/-- A subject that moves back to a later root is not moved past another one that stays in front of it. -/
def KeepsOrder (records : List OverviewRecord) : Prop :=
  ∀ o j p, GivesWay records o j → LeadsSubject records p → (linkRecords records).Older o p →
    (linkRecords records).Older p j → ∃ q, GivesWay records p q ∧ (linkRecords records).Older j q

/-- Where the subject of `o` stands in the end. -/
def StandsAt (records : List OverviewRecord) (o h : Nat) : Prop :=
  GivesWay records o h ∨ h = o ∧ ∀ j, ¬ GivesWay records o j

section Stands

variable {records : List OverviewRecord} {s : Str}

/-- The oldest root about a subject stands where the root that holds it stands. -/
theorem standsAt_about (hs : s ≠ []) {o : Nat} {rest : List Nat}
    (hroots : rootsAbout records s = o :: rest) : ∃ h,
      (grouped records).2.filter ((linkRecords records).isAbout records s) = [h] ∧
        LeadsSubject records o ∧ StandsAt records o h ∧
        (grouped records).1.firstArticle h = (linkRecords records).firstArticle o := by
  obtain ⟨g, hg, hkept, _⟩ := grouped_about hs (by rw [hroots]; exact List.cons_ne_nil _ _)
  have habout : ∀ t, o ∈ rootsAbout records t → t = s := by
    intro t ht
    have ho : o ∈ rootsAbout records s := hroots ▸ List.mem_cons_self
    exact isAbout_unique (List.mem_filter.mp ht).2 (List.mem_filter.mp ho).2
  refine ⟨g.holder, hkept, ⟨?_, fun t ht hot => ?_⟩, ?_, ?_⟩
  · exact (List.mem_filter.mp (hroots ▸ List.mem_cons_self : o ∈ rootsAbout records s)).1
  · rw [habout t hot, hroots]
    rfl
  · have hall : ∀ j, GivesWay records o j → (linkRecords records).isReply records o = true ∧
        ((rootsAbout records s).filter fun r =>
          !(linkRecords records).isReply records r).getLast? = some j := by
      rintro j ⟨t, _, holdest, hreply, hlast⟩
      rw [habout t (List.mem_of_head? holdest)] at hlast
      exact ⟨hreply, hlast⟩
    have holder := hg
    rw [hroots] at holder
    obtain ⟨_, holder⟩ : g.reply = _ ∧ g.holder = _ :=
      Option.some.inj holder ▸ foldl_gatherRoot_holder rest _
    cases hreply : (linkRecords records).isReply records o with
    | false =>
        rw [hreply, if_neg Bool.false_ne_true] at holder
        refine Or.inr ⟨holder, fun j hj => ?_⟩
        rw [(hall j hj).1] at hreply
        cases hreply
    | true =>
        have hskip : ((rootsAbout records s).filter fun r => !(linkRecords records).isReply records r) =
            rest.filter fun r => !(linkRecords records).isReply records r := by
          rw [hroots, List.filter_cons_of_neg]
          simp [hreply]
        rw [hreply, if_pos rfl, ← hskip] at holder
        cases hlast : ((rootsAbout records s).filter fun r =>
            !(linkRecords records).isReply records r).getLast? with
        | none =>
            rw [hlast] at holder
            refine Or.inr ⟨holder, fun j hj => ?_⟩
            rw [(hall j hj).2] at hlast
            cases hlast
        | some j =>
            rw [hlast] at holder
            refine Or.inl ⟨s, hs, ?_, hreply, ?_⟩
            · rw [hroots]
              rfl
            · rw [hlast]
              exact congrArg some holder.symm
  · obtain ⟨hinv, hgathers⟩ := linkRecords_gathers records
    have hforest := (linkRecords_inv records).toForest
    exact hgathers.firstArticle_holder hforest hforest.roots_covered hinv (fun r hr => hr)
      (linkRecords_older records) hs hroots hg

/-- A root that is about nothing stays as it is. -/
theorem standsAt_nothing {o : Nat} (ho : o ∈ (linkRecords records).roots)
    (hnone : ∀ s, s ≠ [] → (linkRecords records).isAbout records s o = false) :
    o ∈ (grouped records).2 ∧ LeadsSubject records o ∧ StandsAt records o o ∧
      (grouped records).1.firstArticle o = (linkRecords records).firstArticle o := by
  have hnot : ∀ s, s ≠ [] → o ∉ rootsAbout records s := by
    intro s hs hmem
    have := (List.mem_filter.mp hmem).2
    rw [hnone s hs] at this
    cases this
  have hforest := (linkRecords_inv records).toForest
  have hcov := hforest.roots_covered
  obtain ⟨hinv, hgathers⟩ := linkRecords_gathers records
  have hother : ∀ s, s ≠ [] → ¬ (linkRecords records).isAbout records s o = true := by
    intro s hs habout
    rw [hnone s hs] at habout
    cases habout
  -- some root that stays is above the articles of `o`, and that can only be `o`
  have hstays : o ∈ (grouped records).2 := by
    obtain ⟨i, hi⟩ := Option.isSome_iff_exists.mp (mem_roots.mp ho).2
    obtain ⟨⟨x, hx, hart⟩, _⟩ := (hforest.firstArticle_eq_some (hcov.lt o ho)).mp hi
    obtain ⟨r, hr, hxr⟩ := hinv.covered.below x i (by rw [hinv.articles]; exact hart)
    have hroot : r ∈ (linkRecords records).roots := (List.mem_filter.mp hr).1
    have hro : r = o := by
      rcases (hx.mono hgathers.kept).chain hxr with hor | hro
      · rcases hgathers.together o r (hcov.free o ho) (hcov.free r hroot) hor with
          heq | ⟨_, _, s, hs, habout, _⟩
        · exact heq.symm
        · exact absurd habout (hother s hs)
      · rcases hgathers.together r o (hcov.free r hroot) (hcov.free o ho) hro with
          heq | ⟨_, _, s, hs, _, habout⟩
        · exact heq
        · exact absurd habout (hother s hs)
    exact hro ▸ hr
  refine ⟨hstays, ⟨ho, fun s hs hmem => absurd hmem (hnot s hs)⟩, Or.inr ⟨rfl, ?_⟩, ?_⟩
  · rintro j ⟨s, hs, holdest, _⟩
    exact hnot s hs (List.mem_of_head? holdest)
  · refine hgathers.firstArticle_alone hforest hcov hinv ho ?_ ?_
    · simpa using (List.mem_filter.mp hstays).2
    · rintro r ⟨_, _, s, hs, _, habout⟩
      exact hother s hs habout

/-- Every root that stays does so for the oldest root about its subject. -/
theorem stands_of_stays {h : Nat} (hh : h ∈ (grouped records).2) :
    ∃ o, LeadsSubject records o ∧ StandsAt records o h ∧
      (grouped records).1.firstArticle h = (linkRecords records).firstArticle o := by
  have hroot : h ∈ (linkRecords records).roots := (List.mem_filter.mp hh).1
  by_cases habout : ∃ s, s ≠ [] ∧ (linkRecords records).isAbout records s h = true
  · obtain ⟨s, hs, habout⟩ := habout
    have hmem : h ∈ rootsAbout records s := List.mem_filter.mpr ⟨hroot, habout⟩
    obtain ⟨o, rest, hroots⟩ := List.exists_cons_of_ne_nil (List.ne_nil_of_mem hmem)
    obtain ⟨h', hkept, hleads, hstands, hfirst⟩ := standsAt_about hs hroots
    have heq : h = h' := List.mem_singleton.mp (hkept ▸ List.mem_filter.mpr ⟨hh, habout⟩)
    exact ⟨o, hleads, heq ▸ hstands, heq ▸ hfirst⟩
  · refine ⟨h, (standsAt_nothing hroot fun s hs => ?_).2⟩
    cases hflag : (linkRecords records).isAbout records s h with
    | false => rfl
    | true => exact absurd ⟨s, hs, hflag⟩ habout

/-- For the oldest root about each subject a root stays. -/
theorem stays_of_leads {o : Nat} (ho : LeadsSubject records o) :
    ∃ h ∈ (grouped records).2, StandsAt records o h ∧
      (grouped records).1.firstArticle h = (linkRecords records).firstArticle o := by
  by_cases habout : ∃ s, s ≠ [] ∧ (linkRecords records).isAbout records s o = true
  · obtain ⟨s, hs, habout⟩ := habout
    obtain ⟨rest, hroots⟩ := List.head?_eq_some_iff.mp
      (ho.2 s hs (List.mem_filter.mpr ⟨ho.1, habout⟩))
    obtain ⟨h, hkept, _, hstands, hfirst⟩ := standsAt_about hs hroots
    exact ⟨h, (List.mem_filter.mp (hkept ▸ List.mem_singleton_self h)).1, hstands, hfirst⟩
  · obtain ⟨hstays, _, hstands, hfirst⟩ := standsAt_nothing (o := o) ho.1 fun s hs => by
      cases hflag : (linkRecords records).isAbout records s o with
      | false => rfl
      | true => exact absurd ⟨s, hs, hflag⟩ habout
    exact ⟨o, hstays, hstands, hfirst⟩

theorem GivesWay.unique {o j j' : Nat} (h : GivesWay records o j) (h' : GivesWay records o j') :
    j = j' := by
  obtain ⟨s, _, holdest, _, hlast⟩ := h
  obtain ⟨t, _, holdest', _, hlast'⟩ := h'
  have hst : s = t := isAbout_unique (List.mem_filter.mp (List.mem_of_head? holdest)).2
    (List.mem_filter.mp (List.mem_of_head? holdest')).2
  rw [hst, hlast'] at hlast
  exact (Option.some.inj hlast).symm

/-- A subject moves to a younger root only. -/
theorem GivesWay.older {o j : Nat} (h : GivesWay records o j) : (linkRecords records).Older o j := by
  obtain ⟨s, _, holdest, hreply, hlast⟩ := h
  obtain ⟨rest, hroots⟩ := List.head?_eq_some_iff.mp holdest
  obtain ⟨hj, hnone⟩ := List.mem_filter.mp (List.mem_of_getLast? hlast)
  have hsorted : (rootsAbout records s).Pairwise (linkRecords records).Older :=
    (linkRecords_older records).filter _
  rw [hroots] at hj hsorted
  rcases List.mem_cons.mp hj with rfl | hj
  · rw [hreply] at hnone
    cases hnone
  · exact (List.pairwise_cons.mp hsorted).1 j hj

theorem GivesWay.leads {o j : Nat} (h : GivesWay records o j) : LeadsSubject records o := by
  obtain ⟨s, _, holdest, _⟩ := h
  have hmem := List.mem_of_head? holdest
  refine ⟨(List.mem_filter.mp hmem).1, fun t _ hot => ?_⟩
  rw [isAbout_unique (List.mem_filter.mp hot).2 (List.mem_filter.mp hmem).2]
  exact holdest

theorem StandsAt.le {o h : Nat} (hs : StandsAt records o h) :
    h = o ∨ (linkRecords records).Older o h := by
  rcases hs with hs | ⟨rfl, _⟩
  · exact Or.inr hs.older
  · exact Or.inl rfl

end Stands

/-- **When the threads are in the order of their oldest articles.** -/
theorem inOrder_iff (records : List OverviewRecord) : InOrder records ↔ KeepsOrder records := by
  have hsorted : (grouped records).2.Pairwise (linkRecords records).Older :=
    (linkRecords_older records).filter _
  rw [inOrder_iff_roots]
  constructor
  · intro h o j p hway hleads hop hpj
    obtain ⟨j', hj', hstands, hfirst⟩ := stays_of_leads hway.leads
    obtain rfl : j = j' := by
      rcases hstands with hway' | ⟨_, hnone⟩
      · exact hway.unique hway'
      · exact absurd hway (hnone j)
    obtain ⟨q, hq, hqstands, hqfirst⟩ := stays_of_leads hleads
    obtain ⟨i, k, hi, hk, hik⟩ := hop
    have hne : j ≠ q := by
      rintro rfl
      rw [hfirst, hi, hk] at hqfirst
      exact Nat.ne_of_lt hik (Option.some.inj hqfirst)
    -- `j` stands in front of `q`, or else `p` would come in front of `o`
    have hjq : (linkRecords records).Older j q := by
      let before : Nat → Nat → Prop := fun x y => (linkRecords records).Older x y ∧
        optionLe ((grouped records).1.firstArticle x) ((grouped records).1.firstArticle y) = true
      have hboth : (grouped records).2.Pairwise fun x y => before x y ∨ before y x :=
        (hsorted.and h).imp fun hxy => Or.inl hxy
      have hsymm : Std.Symm fun x y => before x y ∨ before y x := ⟨fun _ _ => Or.symm⟩
      rcases hboth.forall hj' hq hne with ⟨hjq, _⟩ | ⟨_, hle⟩
      · exact hjq
      · rw [hfirst, hqfirst, hi, hk] at hle
        exact absurd (of_decide_eq_true hle) (Nat.not_le.mpr hik)
    rcases hqstands with hqway | ⟨rfl, _⟩
    · exact ⟨q, hqway, hjq⟩
    · exact absurd hjq hpj.asymm
  · intro h
    refine hsorted.imp_of_mem fun {j q} hj hq hjq => ?_
    obtain ⟨o, hleads, hstands, hfirst⟩ := stands_of_stays hj
    obtain ⟨p, hpleads, hpstands, hpfirst⟩ := stands_of_stays hq
    obtain ⟨i, hi⟩ := Option.isSome_iff_exists.mp (mem_roots.mp hleads.1).2
    obtain ⟨k, hk⟩ := Option.isSome_iff_exists.mp (mem_roots.mp hpleads.1).2
    rw [hfirst, hpfirst, hi, hk]
    refine decide_eq_true (Nat.not_lt.mp fun hki => ?_)
    have hpo : (linkRecords records).Older p o := ⟨k, i, hk, hi, hki⟩
    have hoq : (linkRecords records).Older o q := by
      rcases hstands.le with rfl | hoj
      · exact hjq
      · exact hoj.trans hjq
    rcases hpstands with hway | ⟨rfl, _⟩
    · obtain ⟨j', hway', hqj⟩ := h p q o hway hleads hpo hoq
      rcases hstands with hway'' | ⟨_, hnone⟩
      · rw [hway''.unique hway'] at hjq
        exact hjq.asymm hqj
      · exact hnone j' hway'
    · exact hpo.asymm hoq

/-- A thread that the original moved back, past another thread. -/
theorem originalLast_outOfOrder :
    ¬ InOrder (withSubjects ["Re: x".toList, "y".toList, "x".toList]) := by
  rintro ⟨forest, hforest, hsorted⟩
  have hrun : (thread (withSubjects ["Re: x".toList, "y".toList, "x".toList])).map
      (fun forest => forest.map ThreadNode.oldest) = some [some 1, some 0] := by decide +kernel
  rw [hforest] at hrun
  have hsorted : (forest.map ThreadNode.oldest).Pairwise fun i j => optionLe i j = true :=
    List.pairwise_map.mpr hsorted
  rw [show forest.map ThreadNode.oldest = _ from Option.some.inj hrun] at hsorted
  exact absurd hsorted (by decide)

end Nntp.Proto
