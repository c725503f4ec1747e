import Mathlib.Order.Bounds.Basic
import Nntp.Proto.Thread.Complete

/-!
# Who holds a subject

`group_by_subject` takes the roots oldest first and hangs those of one subject together. It asks of the root
that holds a subject so far whether it is a reply, and answers from the oldest article below it; but once
something has been hung under a root, that is not its own article any more. So a subject whose oldest root
is a reply is taken over by every root that is none, and the last of them is left holding it.

`gather` is what happens to the roots of one subject on their own, and `Gathers` says that this is what
happens to them in the arena.
-/

namespace Nntp.Proto

open Nntp.Lib

namespace Arena

variable {a : Arena}

/-! ## The oldest article -/

/-- The articles of a container and everything below it. -/
def articlesBelow (a : Arena) (id : Nat) : Set Nat :=
  {i | ∃ x, Below a.parentOf x id ∧ a.articleOf x = some i}

/-- The walk of `first_article` finds the least article. -/
theorem firstArticleLoop_eq {stack order : List Nat}
    (hv : Visits (fun x => (a.childrenOf x).reverse) stack order) :
    ∀ {steps : Nat} {best : Option Nat}, order.length < steps →
      firstArticleLoop a steps stack best = (best.toList ++ a.articlesOf order).min? := by
  induction hv with
  | nil =>
      intro steps best hsteps
      cases steps with
      | zero => exact absurd hsteps (Nat.not_lt_zero _)
      | succ steps => cases best <;> rfl
  | @pop x stack order rest ih =>
      intro steps best hsteps
      cases steps with
      | zero => exact absurd hsteps (Nat.not_lt_zero _)
      | succ steps =>
          rw [List.length_cons] at hsteps
          unfold firstArticleLoop
          cases hx : a.containers[x]? with
          | none =>
              rw [childrenOf_none hx] at ih
              have hart : a.articleOf x = none := by simp [articleOf, hx]
              have hskip : a.articlesOf (x :: order) = a.articlesOf order := by
                simp [articlesOf, hart]
              rw [hskip]
              exact ih (by omega)
          | some container =>
              rw [childrenOf_eq hx] at ih
              have hart : a.articleOf x = container.article := by simp [articleOf, hx]
              dsimp only
              rw [ih (by omega)]
              cases hcontainer : container.article with
              | none => simp [articlesOf, hart, hcontainer]
              | some article =>
                  have hcons : a.articlesOf (x :: order) = article :: a.articlesOf order := by
                    simp [articlesOf, hart, hcontainer]
                  rw [hcons]
                  cases best with
                  | none => rfl
                  | some best =>
                      simp only [Option.toList_some, Option.map_some, Option.getD_some,
                        List.cons_append, List.nil_append, List.min?_cons]
                      cases (a.articlesOf order).min? with
                      | none => rfl
                      | some least => exact congrArg some (min_assoc _ _ _)

/-- **`first_article` is the least article below a container.** -/
theorem Forest.firstArticle_eq_some (h : a.Forest) {id i : Nat} (hid : id < a.containers.length) :
    a.firstArticle id = some i ↔ IsLeast (a.articlesBelow id) i := by
  obtain ⟨order, hv, -, hlen, hmem⟩ := h.exists_walk (fun x => List.reverse_perm (a.childrenOf x))
    (List.pairwise_singleton _ id) (by simpa using hid)
  have hbelow : ∀ j, j ∈ a.articlesOf order ↔ j ∈ a.articlesBelow id := by
    intro j
    rw [articlesOf, List.mem_filterMap]
    constructor
    · rintro ⟨x, hx, hj⟩
      obtain ⟨y, hy, hxy⟩ := (hmem x).mp hx
      rw [List.mem_singleton.mp hy] at hxy
      exact ⟨x, hxy, hj⟩
    · rintro ⟨x, hx, hj⟩
      exact ⟨x, (hmem x).mpr ⟨id, List.mem_singleton_self _, hx⟩, hj⟩
  have hall : ∀ j, j ∈ (a.articleOf id).toList ++ a.articlesOf order ↔ j ∈ a.articlesBelow id := by
    intro j
    rw [List.mem_append, hbelow]
    refine or_iff_right_of_imp fun hj => ⟨id, Below.refl id, ?_⟩
    simpa using hj
  unfold firstArticle
  rw [firstArticleLoop_eq hv (Nat.lt_succ_of_le hlen), List.min?_eq_some_iff]
  refine and_congr (hall i) ?_
  exact ⟨fun hle j hj => hle j ((hall j).mpr hj), fun hle j hj => hle ((hall j).mp hj)⟩

/-- `r` is older than `r'`. -/
def Older (a : Arena) (r r' : Nat) : Prop :=
  ∃ i j, a.firstArticle r = some i ∧ a.firstArticle r' = some j ∧ i < j

theorem Older.asymm {r r' : Nat} (h : a.Older r r') : ¬ a.Older r' r := by
  obtain ⟨i, j, hi, hj, hij⟩ := h
  rintro ⟨j', i', hj', hi', hji⟩
  cases hi.symm.trans hi'
  cases hj.symm.trans hj'
  exact Nat.lt_asymm hij hji

theorem Older.trans {r r' r'' : Nat} (h : a.Older r r') (h' : a.Older r' r'') : a.Older r r'' := by
  obtain ⟨i, j, hi, hj, hij⟩ := h
  obtain ⟨j', k, hj', hk, hjk⟩ := h'
  cases hj.symm.trans hj'
  exact ⟨i, k, hi, hk, Nat.lt_trans hij hjk⟩

end Arena

/-! ## The roots of one subject -/

/-- How the roots of one subject hang together. -/
structure Gathering where
  /-- the oldest of them is a reply -/
  reply : Bool
  holder : Nat
  /-- who was hung under whom -/
  links : List (Nat × Nat) := []

/-- One more root: it takes over, or goes under the holder. -/
def gatherRoot (isReply : Nat → Bool) (g : Gathering) (id : Nat) : Gathering :=
  if g.reply && !isReply id then { g with holder := id, links := (g.holder, id) :: g.links }
  else { g with links := (id, g.holder) :: g.links }

/-- All roots of a subject, oldest first. -/
def gather (isReply : Nat → Bool) : List Nat → Option Gathering
  | [] => none
  | oldest :: rest =>
      some (rest.foldl (gatherRoot isReply) { reply := isReply oldest, holder := oldest })

section Gather

variable {isReply : Nat → Bool} {g : Gathering} {roots rest : List Nat} {id : Nat}

theorem gather_concat : gather isReply (roots ++ [id]) =
    match gather isReply roots with
    | none => some { reply := isReply id, holder := id }
    | some g => some (gatherRoot isReply g id) := by
  cases roots with
  | nil => rfl
  | cons oldest rest =>
      rw [List.cons_append]
      show some (List.foldl _ _ (rest ++ [id])) = some _
      rw [List.foldl_append]
      rfl

/-- **The last root that is no reply holds the subject** if the oldest is one. -/
theorem foldl_gatherRoot_holder (rest : List Nat) (g : Gathering) :
    (rest.foldl (gatherRoot isReply) g).reply = g.reply ∧
      (rest.foldl (gatherRoot isReply) g).holder =
        if g.reply then ((rest.filter fun id => !isReply id).getLast?).getD g.holder
        else g.holder := by
  induction rest using List.reverseRecOn with
  | nil => simp
  | append_singleton rest id ih =>
      obtain ⟨hreply, hholder⟩ := ih
      rw [List.foldl_append, List.foldl_cons, List.foldl_nil]
      generalize rest.foldl (gatherRoot isReply) g = last at hreply hholder ⊢
      unfold gatherRoot
      rw [hreply]
      by_cases htakes : (g.reply && !isReply id) = true
      · rw [if_pos htakes]
        obtain ⟨hg, hid⟩ := Bool.and_eq_true_iff.mp htakes
        refine ⟨rfl, ?_⟩
        have hone : [id].filter (fun id => !isReply id) = [id] := by simpa using hid
        rw [if_pos hg, List.filter_append, hone, List.getLast?_concat]
        rfl
      · rw [if_neg htakes]
        refine ⟨rfl, ?_⟩
        dsimp only
        rw [hholder]
        by_cases hg : g.reply = true
        · rw [hg, Bool.true_and] at htakes
          have hnone : [id].filter (fun id => !isReply id) = [] := by simpa using htakes
          rw [if_pos hg, if_pos hg, List.filter_append, hnone, List.append_nil]
        · rw [if_neg hg, if_neg hg]

/-- Where none of the roots takes over, all of them are hung under the holder. -/
theorem foldl_gatherRoot_under (h : ∀ id ∈ rest, (g.reply && !isReply id) = false) :
    rest.foldl (gatherRoot isReply) g =
      { g with links := (rest.map fun id => (id, g.holder)).reverse ++ g.links } := by
  induction rest generalizing g with
  | nil => rfl
  | cons id rest ih =>
      have hunder : gatherRoot isReply g id = { g with links := (id, g.holder) :: g.links } := by
        unfold gatherRoot
        rw [h id List.mem_cons_self]
        rfl
      have hrest : ∀ r ∈ rest, ((gatherRoot isReply g id).reply && !isReply r) = false := by
        rw [hunder]
        exact fun r hr => h r (List.mem_cons_of_mem _ hr)
      rw [List.foldl_cons, ih hrest, hunder]
      simp

/-- A link stays. -/
theorem foldl_gatherRoot_links (rest : List Nat) (g : Gathering) :
    g.links ⊆ (rest.foldl (gatherRoot isReply) g).links := by
  induction rest generalizing g with
  | nil => exact List.Subset.refl _
  | cons id rest ih =>
      refine List.Subset.trans ?_ (ih (gatherRoot isReply g id))
      unfold gatherRoot
      split
      · exact List.subset_cons_self _ _
      · exact List.subset_cons_self _ _

/-- Every root holds the subject, or hangs under another root of it. -/
theorem gather_linked (h : gather isReply roots = some g) :
    g.holder ∈ roots ∧ ∀ r ∈ roots, r = g.holder ∨ ∃ p, (r, p) ∈ g.links := by
  induction roots using List.reverseRecOn generalizing g with
  | nil => cases h
  | append_singleton roots id ih =>
      rw [gather_concat] at h
      cases hroots : gather isReply roots with
      | none =>
          rw [hroots] at h
          cases h
          have hempty : roots = [] := by
            cases roots with
            | nil => rfl
            | cons _ _ => cases hroots
          rw [hempty]
          exact ⟨List.mem_singleton_self _, fun r hr => Or.inl (List.mem_singleton.mp hr)⟩
      | some g =>
          rw [hroots] at h
          cases h
          obtain ⟨hholder, hall⟩ := ih hroots
          unfold gatherRoot
          split
          · refine ⟨List.mem_append_right _ (List.mem_singleton_self _), fun r hr => ?_⟩
            rcases List.mem_append.mp hr with hr | hr
            · rcases hall r hr with rfl | ⟨p, hp⟩
              · exact Or.inr ⟨id, List.mem_cons_self⟩
              · exact Or.inr ⟨p, List.mem_cons_of_mem _ hp⟩
            · exact Or.inl (List.mem_singleton.mp hr)
          · refine ⟨List.mem_append_left _ hholder, fun r hr => ?_⟩
            rcases List.mem_append.mp hr with hr | hr
            · rcases hall r hr with rfl | ⟨p, hp⟩
              · exact Or.inl rfl
              · exact Or.inr ⟨p, List.mem_cons_of_mem _ hp⟩
            · rw [List.mem_singleton.mp hr]
              exact Or.inr ⟨g.holder, List.mem_cons_self⟩

/-- Only the roots of the subject are hung under another. -/
theorem gather_link_mem (h : gather isReply roots = some g) {l : Nat × Nat} (hl : l ∈ g.links) :
    l.1 ∈ roots := by
  induction roots using List.reverseRecOn generalizing g with
  | nil => cases h
  | append_singleton roots id ih =>
      rw [gather_concat] at h
      cases hroots : gather isReply roots with
      | none =>
          rw [hroots] at h
          cases h
          cases hl
      | some g =>
          rw [hroots] at h
          cases h
          unfold gatherRoot at hl
          split at hl
          · rcases List.mem_cons.mp hl with rfl | hl
            · exact List.mem_append_left _ (gather_linked hroots).1
            · exact List.mem_append_left _ (ih hroots hl)
          · rcases List.mem_cons.mp hl with rfl | hl
            · exact List.mem_append_right _ (List.mem_singleton_self _)
            · exact List.mem_append_left _ (ih hroots hl)

/-- The root that should hold a subject: the oldest that is no reply, or else the oldest. -/
def rightHolder (isReply : Nat → Bool) (roots : List Nat) : Option Nat :=
  (roots.find? fun id => !isReply id).or roots.head?

/-- When the loop picks the right root: the oldest root is no reply, or all of them are replies, or the
second oldest is the only one that is none. -/
def HolderFits (isReply : Nat → Bool) : List Nat → Prop
  | [] => True
  | oldest :: rest =>
      isReply oldest = false ∨ (∀ id ∈ rest, isReply id = true) ∨
        ∃ second later, rest = second :: later ∧ isReply second = false ∧
          ∀ id ∈ later, isReply id = true

/-- Under a reply, the first root that is none takes over, and the last one keeps the subject. -/
theorem gather_split {o f : Nat} {pre post : List Nat} (ho : isReply o = true)
    (hf : isReply f = false) (hpre : ∀ id ∈ pre, isReply id = true)
    (h : gather isReply (o :: (pre ++ f :: post)) = some g) :
    (∀ p ∈ pre, (p, o) ∈ g.links) ∧
      g.holder = ((post.filter fun id => !isReply id).getLast?).getD f ∧
      ((∀ id ∈ post, isReply id = true) →
        g.links = (post.map fun id => (id, f)).reverse ++
          (o, f) :: (pre.map fun id => (id, o)).reverse) := by
  have hunder : pre.foldl (gatherRoot isReply) { reply := isReply o, holder := o } =
      { reply := true, holder := o, links := (pre.map fun id => (id, o)).reverse } := by
    rw [foldl_gatherRoot_under, ho, List.append_nil]
    intro id hid
    rw [hpre id hid]
    exact Bool.and_false _
  have hover : gatherRoot isReply
      { reply := true, holder := o, links := (pre.map fun id => (id, o)).reverse } f =
      { reply := true, holder := f, links := (o, f) :: (pre.map fun id => (id, o)).reverse } := by
    unfold gatherRoot
    rw [hf]
    rfl
  have hg : g = post.foldl (gatherRoot isReply)
      { reply := true, holder := f, links := (o, f) :: (pre.map fun id => (id, o)).reverse } := by
    rw [← hover, ← hunder, ← List.foldl_cons, ← List.foldl_append]
    exact (Option.some.inj h).symm
  refine ⟨fun p hp => ?_, ?_, fun hpost => ?_⟩
  · rw [hg]
    refine foldl_gatherRoot_links _ _ (List.mem_cons_of_mem _ ?_)
    exact List.mem_reverse.mpr (List.mem_map.mpr ⟨p, hp, rfl⟩)
  · rw [hg, (foldl_gatherRoot_holder post _).2]
    rfl
  · rw [hg, foldl_gatherRoot_under]
    intro id hid
    rw [hpost id hid]
    exact Bool.and_false _

/-- **When the loop picks the right root**, and hangs all others under it. -/
theorem gather_right_iff (hnodup : roots.Nodup) (h : gather isReply roots = some g) :
    rightHolder isReply roots = some g.holder ∧ (∀ l ∈ g.links, l.2 = g.holder) ↔
      HolderFits isReply roots := by
  cases roots with
  | nil => cases h
  | cons o rest =>
      unfold rightHolder HolderFits
      -- nobody takes over
      have hnobody : (∀ id ∈ rest, (isReply o && !isReply id) = false) →
          g.holder = o ∧ ∀ l ∈ g.links, l.2 = o := by
        intro hrest
        have hg : g = { reply := isReply o, holder := o
                        links := (rest.map fun id => (id, o)).reverse } := by
          rw [← Option.some.inj h, foldl_gatherRoot_under hrest, List.append_nil]
        rw [hg]
        refine ⟨rfl, fun l hl => ?_⟩
        obtain ⟨id, _, rfl⟩ := List.mem_map.mp (List.mem_reverse.mp hl)
        rfl
      cases ho : isReply o with
      | false =>
          obtain ⟨hholder, hlinks⟩ := hnobody fun id _ => by rw [ho]; rfl
          refine iff_of_true ⟨?_, ?_⟩ (Or.inl ho)
          · rw [List.find?_cons_of_pos (by rw [ho]; rfl), hholder]
            rfl
          · rw [hholder]
            exact hlinks
      | true =>
          rw [List.find?_cons_of_neg (by rw [ho]; decide)]
          cases hfind : rest.find? fun id => !isReply id with
          | none =>
              have hall : ∀ id ∈ rest, isReply id = true := by
                simpa using List.find?_eq_none.mp hfind
              obtain ⟨hholder, hlinks⟩ := hnobody fun id hid => by rw [hall id hid]; exact Bool.and_false _
              refine iff_of_true ⟨?_, ?_⟩ (Or.inr (Or.inl hall))
              · rw [hholder]
                rfl
              · rw [hholder]
                exact hlinks
          | some f =>
              obtain ⟨hf, pre, post, rfl, hpre⟩ := List.find?_eq_some_iff_append.mp hfind
              simp only [Bool.not_eq_true', Bool.not_not] at hf hpre
              obtain ⟨hfirst, hholder, hlinks⟩ := gather_split ho hf hpre h
              have hof : o ≠ f := by
                rintro rfl
                rw [ho] at hf
                cases hf
              constructor
              · rintro ⟨hright, hall⟩
                have hfh : f = g.holder := Option.some.inj hright
                -- another root that is no reply would hold the subject now
                have hpost : ∀ id ∈ post, isReply id = true := by
                  intro id hid
                  by_contra hid'
                  have hmem : id ∈ post.filter fun id => !isReply id :=
                    List.mem_filter.mpr ⟨hid, by simpa using hid'⟩
                  obtain ⟨last, hlast⟩ := Option.isSome_iff_exists.mp
                    (List.getLast?_isSome.mpr (List.ne_nil_of_mem hmem))
                  rw [hlast, Option.getD_some, ← hfh] at hholder
                  have hlast := (List.mem_filter.mp (List.mem_of_getLast? hlast)).1
                  obtain ⟨_, hnodup⟩ := List.nodup_cons.mp hnodup
                  have := (List.nodup_cons.mp (List.nodup_append.mp hnodup).2.1).1
                  exact this (hholder ▸ hlast)
                refine Or.inr (Or.inr ?_)
                cases pre with
                | nil => exact ⟨f, post, rfl, hf, hpost⟩
                | cons p pre => exact absurd ((hall _ (hfirst p List.mem_cons_self)).trans hfh.symm) hof
              · rintro (hno | hall | ⟨second, later, heq, hsecond, hlater⟩)
                · rw [ho] at hno
                  cases hno
                · rw [hall f (List.mem_append_right _ List.mem_cons_self)] at hf
                  cases hf
                · cases pre with
                  | cons p pre =>
                      cases heq
                      rw [hpre second List.mem_cons_self] at hsecond
                      cases hsecond
                  | nil =>
                      cases heq
                      have hnone : (post.filter fun id => !isReply id) = [] := by
                        simpa using hlater
                      rw [hnone] at hholder
                      have hholder : g.holder = f := hholder
                      rw [hholder]
                      refine ⟨rfl, fun l hl => ?_⟩
                      rw [hlinks hlater] at hl
                      rcases List.mem_append.mp hl with hl | hl
                      · obtain ⟨id, _, rfl⟩ := List.mem_map.mp (List.mem_reverse.mp hl)
                        rfl
                      · rw [List.mem_singleton.mp hl]

end Gather

/-! ## The loop -/

section Loop

variable {a : Arena} {records : List OverviewRecord} {roots processed : List Nat} {g : Grouping}
  {id : Nat} {s : Str}

/-- The subject of the oldest article below a root, and whether it is a reply. -/
def Arena.subjectOf (a : Arena) (records : List OverviewRecord) (id : Nat) : Option (Str × Bool) :=
  ((a.firstArticle id).bind (records[·]?)).map fun record => normaliseSubject record.subject

/-- The root is about `s`. -/
def Arena.isAbout (a : Arena) (records : List OverviewRecord) (s : Str) (id : Nat) : Bool :=
  ((a.subjectOf records id).map (·.1)) == some s

/-- The root announces itself as a reply. -/
def Arena.isReply (a : Arena) (records : List OverviewRecord) (id : Nat) : Bool :=
  ((a.subjectOf records id).map (·.2)).getD false

theorem holderIsReply_eq (holder : Nat) :
    holderIsReply a records holder = a.isReply records holder := by
  unfold holderIsReply Arena.isReply Arena.subjectOf
  cases (a.firstArticle holder).bind (records[·]?) <;> rfl

/-- What a turn of the loop can be: the root is left alone, or it is the first of its subject, or the
older root that holds its subject and it are hung together. -/
inductive Turn (records : List OverviewRecord) (g : Grouping) (id : Nat) : Grouping → Prop where
  | skip (h : ∀ s r, g.arena.subjectOf records id = some (s, r) → s = []) : Turn records g id g
  | hold (s : Str) (r : Bool) (h : g.arena.subjectOf records id = some (s, r)) (hne : s ≠ [])
      (hnone : g.holders.lookup s = none) :
      Turn records g id { g with holders := (s, id) :: g.holders }
  | under (s : Str) (r : Bool) (holder : Nat) (h : g.arena.subjectOf records id = some (s, r))
      (hne : s ≠ []) (hholder : g.holders.lookup s = some holder)
      (htakes : (g.arena.isReply records holder && !r) = false) :
      Turn records g id
        { g with arena := g.arena.setParent id holder, merged := g.merged ++ [id] }
  | «over» (s : Str) (r : Bool) (holder : Nat) (h : g.arena.subjectOf records id = some (s, r))
      (hne : s ≠ []) (hholder : g.holders.lookup s = some holder)
      (htakes : (g.arena.isReply records holder && !r) = true) :
      Turn records g id
        { arena := g.arena.setParent holder id
          holders := (s, id) :: g.holders
          merged := g.merged ++ [holder] }

theorem groupRoot_turn (hother : ∀ s holder, s ≠ [] → g.holders.lookup s = some holder →
      holder ≠ id ∧ optionLe (g.arena.firstArticle holder) (g.arena.firstArticle id) = true) :
    Turn records g id (groupRoot records g id) := by
  unfold groupRoot
  split
  · next hrecord =>
      refine .skip fun s r hs => ?_
      unfold Arena.subjectOf at hs
      rw [hrecord] at hs
      cases hs
  · next record hrecord =>
      have hsubject : g.arena.subjectOf records id =
          some ((normaliseSubject record.subject).1, (normaliseSubject record.subject).2) := by
        unfold Arena.subjectOf
        rw [hrecord]
        rfl
      dsimp only
      generalize (normaliseSubject record.subject).1 = subject at hsubject ⊢
      generalize (normaliseSubject record.subject).2 = reply at hsubject ⊢
      split
      · next hempty =>
          refine .skip fun s r hs => ?_
          rw [hsubject] at hs
          cases hs
          exact List.isEmpty_iff.mp hempty
      · next hempty =>
          have hne : subject ≠ [] := fun heq => hempty (by rw [heq]; rfl)
          split
          · next hnone => exact .hold _ _ hsubject hne hnone
          · next holder hholder =>
              obtain ⟨hdiff, hle⟩ := hother _ _ hne hholder
              rw [if_neg hdiff, holderIsReply_eq, hle]
              -- the holder is older, so it gives way only as a reply to what is none
              cases hreply : g.arena.isReply records holder <;> cases reply
              · exact .under _ _ _ hsubject hne hholder (by rw [hreply]; rfl)
              · exact .under _ _ _ hsubject hne hholder (by rw [hreply]; rfl)
              · exact .over _ _ _ hsubject hne hholder (by rw [hreply]; rfl)
              · exact .under _ _ _ hsubject hne hholder (by rw [hreply]; rfl)

/-- **The loop gathers the roots of each subject**, as far as it has come. -/
structure Grouping.Gathers (a : Arena) (records : List OverviewRecord) (processed : List Nat)
    (g : Grouping) : Prop where
  /-- the links of before stay -/
  kept : ∀ x y, a.parentOf x = some y → g.arena.parentOf x = some y
  holders : ∀ s, s ≠ [] → g.holders.lookup s =
    (gather (a.isReply records) (processed.filter (a.isAbout records s))).map (·.holder)
  links : ∀ s G, gather (a.isReply records) (processed.filter (a.isAbout records s)) = some G → s ≠ [] →
    ∀ l ∈ G.links, g.arena.parentOf l.1 = some l.2
  below : ∀ s G, gather (a.isReply records) (processed.filter (a.isAbout records s)) = some G → s ≠ [] →
    ∀ r ∈ processed, a.isAbout records s r = true → Below g.arena.parentOf r G.holder
  /-- roots that hang together have been dealt with, and are about one subject -/
  together : ∀ r r', a.parentOf r = none → a.parentOf r' = none → Below g.arena.parentOf r r' →
    r = r' ∨ r ∈ processed ∧ r' ∈ processed ∧
      ∃ s, s ≠ [] ∧ a.isAbout records s r = true ∧ a.isAbout records s r' = true

namespace Arena

theorem isAbout_iff : a.isAbout records s id = true ↔ ∃ r, a.subjectOf records id = some (s, r) := by
  unfold isAbout
  rw [beq_iff_eq, Option.map_eq_some_iff]
  constructor
  · rintro ⟨⟨s, r⟩, hsubject, rfl⟩
    exact ⟨r, hsubject⟩
  · rintro ⟨r, hsubject⟩
    exact ⟨(s, r), hsubject, rfl⟩

theorem isAbout_unique {t : Str} (hs : a.isAbout records s id = true)
    (ht : a.isAbout records t id = true) : s = t := by
  obtain ⟨_, hs⟩ := isAbout_iff.mp hs
  obtain ⟨_, ht⟩ := isAbout_iff.mp ht
  cases hs.symm.trans ht
  rfl

theorem isReply_of_subjectOf {r : Bool} (h : a.subjectOf records id = some (s, r)) :
    a.isReply records id = r := by
  unfold isReply
  rw [h]
  rfl

theorem isReply_congr {b : Arena} {x y : Nat} (h : a.firstArticle x = b.firstArticle y) :
    a.isReply records x = b.isReply records y := by
  unfold isReply subjectOf
  rw [h]

theorem subjectOf_congr {b : Arena} {x y : Nat} (h : a.firstArticle x = b.firstArticle y) :
    a.subjectOf records x = b.subjectOf records y := by
  unfold subjectOf
  rw [h]

/-- What has a subject has an article. -/
theorem firstArticle_of_isAbout (h : a.isAbout records s id = true) :
    ∃ i, a.firstArticle id = some i := by
  obtain ⟨r, hsubject⟩ := isAbout_iff.mp h
  obtain ⟨record, hrecord, _⟩ := Option.map_eq_some_iff.mp hsubject
  obtain ⟨i, hi, _⟩ := Option.bind_eq_some_iff.mp hrecord
  exact ⟨i, hi⟩

end Arena

open Arena Grouping

namespace Grouping.Gathers

/-- What is below a root is below the roots that hang under it. -/
theorem articlesBelow (h : Gathers a records processed g) (harena : a.Forest)
    (harticles : g.arena.articleOf = a.articleOf) {root i : Nat}
    (hroot : g.arena.parentOf root = none) : i ∈ g.arena.articlesBelow root ↔
      ∃ r, a.parentOf r = none ∧ Below g.arena.parentOf r root ∧ i ∈ a.articlesBelow r := by
  have hmono : ∀ {x y}, Below a.parentOf x y → Below g.arena.parentOf x y := fun hxy => hxy.mono h.kept
  constructor
  · rintro ⟨x, hx, hart⟩
    rw [harticles] at hart
    obtain ⟨r, hxr, hfree⟩ := harena.links.exists_root x
    refine ⟨r, hfree, ?_, x, hxr, hart⟩
    rcases (hmono hxr).chain hx with hr | hr
    · exact hr
    · rw [hr.eq_of_root hroot]
      exact Below.refl r
  · rintro ⟨r, _, hr, x, hx, hart⟩
    rw [← harticles] at hart
    exact ⟨x, (hmono hx).trans hr, hart⟩

section

variable (h : Gathers a records processed g) (harena : a.Forest) (hcov : a.Covered roots)
  (hinv : Grouping.Inv a roots processed g)
include h harena hcov hinv

/-- A root that is hung together with no other is as it was. -/
theorem firstArticle_alone (hid : id ∈ roots) (hlive : id ∉ g.merged)
    (halone : ∀ r, ¬ (r ∈ processed ∧ id ∈ processed ∧
      ∃ s, s ≠ [] ∧ a.isAbout records s r = true ∧ a.isAbout records s id = true)) :
    g.arena.firstArticle id = a.firstArticle id := by
  have hlive := hinv.covered.free id (Grouping.mem_live hid hlive)
  have hbelow : g.arena.articlesBelow id = a.articlesBelow id := by
    ext i
    rw [h.articlesBelow harena hinv.articles hlive]
    constructor
    · rintro ⟨r, hfree, hr, hi⟩
      rcases h.together r id hfree (hcov.free id hid) hr with rfl | hshared
      · exact hi
      · exact absurd hshared (halone r)
    · exact fun hi => ⟨id, hcov.free id hid, Below.refl id, hi⟩
  ext i
  rw [hinv.forest.firstArticle_eq_some (hinv.length.symm ▸ hcov.lt id hid), hbelow,
    harena.firstArticle_eq_some (hcov.lt id hid)]

/-- A root that is still to come is as it was. -/
theorem firstArticle_ahead (hid : id ∈ roots) (hnew : id ∉ processed) :
    g.arena.firstArticle id = a.firstArticle id :=
  h.firstArticle_alone harena hcov hinv hid (fun hm => hnew (hinv.merged id hm))
    fun _ hshared => hnew hshared.2.1

/-- The root that holds a subject has the oldest article of all its roots below it. -/
theorem firstArticle_holder (hproc : ∀ r ∈ processed, r ∈ roots)
    (hsorted : processed.Pairwise (Older a)) (hs : s ≠ []) {oldest : Nat} {rest : List Nat}
    (hroots : processed.filter (a.isAbout records s) = oldest :: rest) {G : Gathering}
    (hG : gather (a.isReply records) (processed.filter (a.isAbout records s)) = some G) :
    g.arena.firstArticle G.holder = a.firstArticle oldest := by
  have hmem : ∀ r, r ∈ oldest :: rest ↔ r ∈ processed ∧ a.isAbout records s r = true := by
    intro r
    rw [← hroots, List.mem_filter]
  obtain ⟨holdest, habout⟩ := (hmem oldest).mp List.mem_cons_self
  have hholder : G.holder ∈ processed ∧ a.isAbout records s G.holder = true := by
    have := (gather_linked hG).1
    rw [hroots] at this
    exact (hmem _).mp this
  have hlookup : g.holders.lookup s = some G.holder := by
    rw [h.holders s hs, hG]
    rfl
  have hfree : g.arena.parentOf G.holder = none :=
    hinv.covered.free _ (Grouping.mem_live (hproc _ hholder.1) (hinv.holders s _ hlookup).2)
  have hlt : ∀ r ∈ processed, r < a.containers.length := fun r hr => hcov.lt r (hproc r hr)
  obtain ⟨i, hi⟩ := firstArticle_of_isAbout habout
  have hleast := (harena.firstArticle_eq_some (hlt oldest holdest)).mp hi
  rw [hi, hinv.forest.firstArticle_eq_some (hinv.length.symm ▸ hlt _ hholder.1)]
  constructor
  · rw [h.articlesBelow harena hinv.articles hfree]
    exact ⟨oldest, hcov.free _ (hproc _ holdest), h.below s G hG hs oldest holdest habout, hleast.1⟩
  · intro j hj
    obtain ⟨r, hrfree, hr, hj⟩ := (h.articlesBelow harena hinv.articles hfree).mp hj
    have hrmem : r ∈ oldest :: rest := by
      rw [hmem]
      rcases h.together r G.holder hrfree (hcov.free _ (hproc _ hholder.1)) hr with
        rfl | ⟨hrproc, _, t, _, hrt, hht⟩
      · exact hholder
      · rw [isAbout_unique hholder.2 hht]
        exact ⟨hrproc, hrt⟩
    rcases List.mem_cons.mp hrmem with rfl | hrest
    · exact hleast.2 hj
    · have hpairs : (oldest :: rest).Pairwise (Older a) := hroots ▸ hsorted.filter _
      obtain ⟨i', k, hi', hk, hlt'⟩ := (List.pairwise_cons.mp hpairs).1 r hrest
      cases hi.symm.trans hi'
      have hkleast := (harena.firstArticle_eq_some (hlt r ((hmem r).mp hrmem).1)).mp hk
      exact (Nat.le_of_lt hlt').trans (hkleast.2 hj)

end

/-- A root that is not about `s` changes nothing for `s`. -/
theorem filter_concat_of_not (h : a.isAbout records s id = false) :
    (processed ++ [id]).filter (a.isAbout records s) = processed.filter (a.isAbout records s) := by
  rw [List.filter_append]
  simp [h]

theorem filter_concat_of_about (h : a.isAbout records s id = true) :
    (processed ++ [id]).filter (a.isAbout records s) =
      processed.filter (a.isAbout records s) ++ [id] := by
  rw [List.filter_append]
  simp [h]

/-- A root that is about nothing. -/
theorem skip (h : Gathers a records processed g)
    (hnone : ∀ s, s ≠ [] → a.isAbout records s id = false) :
    Gathers a records (processed ++ [id]) g := by
  refine ⟨h.kept, ?_, ?_, ?_, ?_⟩
  · intro s hs
    rw [filter_concat_of_not (hnone s hs)]
    exact h.holders s hs
  · intro s G hG hs
    rw [filter_concat_of_not (hnone s hs)] at hG
    exact h.links s G hG hs
  · intro s G hG hs r hr habout
    rw [filter_concat_of_not (hnone s hs)] at hG
    rcases List.mem_append.mp hr with hr | hr
    · exact h.below s G hG hs r hr habout
    · rw [List.mem_singleton.mp hr, hnone s hs] at habout
      cases habout
  · intro r r' hr hr' hbelow
    refine (h.together r r' hr hr' hbelow).imp_right ?_
    rintro ⟨hp, hp', hshared⟩
    exact ⟨List.mem_append_left _ hp, List.mem_append_left _ hp', hshared⟩

/-- The first root of a subject. -/
theorem hold (h : Gathers a records processed g) (hs : s ≠ []) (habout : a.isAbout records s id = true)
    (hnone : g.holders.lookup s = none) :
    Gathers a records (processed ++ [id]) { g with holders := (s, id) :: g.holders } := by
  have hempty : processed.filter (a.isAbout records s) = [] := by
    rw [h.holders s hs, Option.map_eq_none_iff] at hnone
    cases hroots : processed.filter (a.isAbout records s) with
    | nil => rfl
    | cons _ _ =>
        rw [hroots] at hnone
        cases hnone
  have hother : ∀ t, t ≠ s → a.isAbout records t id = false := by
    intro t hne
    cases hflag : a.isAbout records t id with
    | false => rfl
    | true => exact absurd (isAbout_unique hflag habout) hne
  have hfirst : (processed ++ [id]).filter (a.isAbout records s) = [id] := by
    rw [filter_concat_of_about habout, hempty]
    rfl
  refine ⟨h.kept, ?_, ?_, ?_, ?_⟩
  · intro t ht
    rw [List.lookup_cons]
    by_cases hts : t = s
    · rw [hts, beq_self_eq_true, hfirst]
      rfl
    · rw [beq_eq_false_iff_ne.mpr hts, filter_concat_of_not (hother t hts)]
      exact h.holders t ht
  · intro t G hG ht
    by_cases hts : t = s
    · rw [hts, hfirst] at hG
      cases hG
      exact fun l hl => absurd hl List.not_mem_nil
    · rw [filter_concat_of_not (hother t hts)] at hG
      exact h.links t G hG ht
  · intro t G hG ht r hr hrt
    by_cases hts : t = s
    · subst hts
      have hmem : r ∈ (processed ++ [id]).filter (a.isAbout records t) := List.mem_filter.mpr ⟨hr, hrt⟩
      rw [hfirst] at hG hmem
      cases hG
      rw [List.mem_singleton.mp hmem]
      exact Below.refl id
    · rw [filter_concat_of_not (hother t hts)] at hG
      rcases List.mem_append.mp hr with hr | hr
      · exact h.below t G hG ht r hr hrt
      · rw [List.mem_singleton.mp hr, hother t hts] at hrt
        cases hrt
  · intro r r' hr hr' hbelow
    refine (h.together r r' hr hr' hbelow).imp_right ?_
    rintro ⟨hp, hp', hshared⟩
    exact ⟨List.mem_append_left _ hp, List.mem_append_left _ hp', hshared⟩

/-- **Two roots of one subject are hung together**: `id`, which is new, and the root that holds the
subject. -/
theorem link (h : Gathers a records processed g) (hs : s ≠ []) (habout : a.isAbout records s id = true)
    {G G' : Gathering} (hG : gather (a.isReply records) (processed.filter (a.isAbout records s)) = some G)
    (hG' : gatherRoot (a.isReply records) G id = G') {child parent : Nat}
    (hlinks : G'.links = (child, parent) :: G.links) (hholder : G'.holder = parent)
    (hends : child = id ∧ parent = G.holder ∨ child = G.holder ∧ parent = id)
    (hproc : G.holder ∈ processed) (hsame : a.isAbout records s G.holder = true)
    (hchild : a.parentOf child = none) (hfree : g.arena.parentOf child = none)
    (hpfree : g.arena.parentOf parent = none) (hne : child ≠ parent) {holders : List (Str × Nat)}
    {merged : List Nat} {b : Arena}
    (hb : b.parentOf = Function.update g.arena.parentOf child (some parent))
    (hlookup : holders.lookup s = some parent)
    (hlookups : ∀ t, t ≠ s → holders.lookup t = g.holders.lookup t) :
    Gathers a records (processed ++ [id]) { arena := b, holders, merged } := by
  have hother : ∀ t, t ≠ s → a.isAbout records t id = false := by
    intro t hts
    cases hflag : a.isAbout records t id with
    | false => rfl
    | true => exact absurd (isAbout_unique hflag habout) hts
  have hgather : gather (a.isReply records) ((processed ++ [id]).filter (a.isAbout records s)) =
      some G' := by
    rw [filter_concat_of_about habout, gather_concat, hG, ← hG']
  have hmono : ∀ {x y}, Below g.arena.parentOf x y → Below b.parentOf x y := by
    intro x y hxy
    rw [hb]
    exact IsForest.below_link_mono hfree hxy
  have hkeeps : ∀ x y, g.arena.parentOf x = some y → b.parentOf x = some y := by
    intro x y hxy
    rw [hb, Function.update_of_ne]
    · exact hxy
    · rintro rfl
      rw [hfree] at hxy
      cases hxy
  have hnew : b.parentOf child = some parent := by
    rw [hb, Function.update_self]
  have hdone : ∀ r, r = child ∨ r = parent → r ∈ processed ++ [id] ∧ a.isAbout records s r = true := by
    intro r hr
    have hcases : r = id ∨ r = G.holder := by
      rcases hends with ⟨rfl, rfl⟩ | ⟨rfl, rfl⟩
      · exact hr
      · exact hr.symm
    rcases hcases with rfl | rfl
    · exact ⟨List.mem_append_right _ (List.mem_singleton_self _), habout⟩
    · exact ⟨List.mem_append_left _ hproc, hsame⟩
  refine ⟨fun x y hxy => hkeeps x y (h.kept x y hxy), ?_, ?_, ?_, ?_⟩
  · intro t ht
    by_cases hts : t = s
    · rw [hts, hgather, hlookup, ← hholder]
      rfl
    · rw [hlookups t hts, filter_concat_of_not (hother t hts)]
      exact h.holders t ht
  · intro t H hH ht l hl
    by_cases hts : t = s
    · subst hts
      cases hgather.symm.trans hH
      rw [hlinks] at hl
      rcases List.mem_cons.mp hl with rfl | hl
      · exact hnew
      · exact hkeeps _ _ (h.links t G hG ht l hl)
    · rw [filter_concat_of_not (hother t hts)] at hH
      exact hkeeps _ _ (h.links t H hH ht l hl)
  · intro t H hH ht r hr hrt
    by_cases hts : t = s
    · subst hts
      cases hgather.symm.trans hH
      rw [hholder]
      -- the roots so far are below the old holder, which is one of the two ends
      have hold : Below b.parentOf G.holder parent ∧ Below b.parentOf id parent := by
        rcases hends with ⟨rfl, rfl⟩ | ⟨rfl, rfl⟩
        · exact ⟨Below.refl _, Below.step hnew⟩
        · exact ⟨Below.step hnew, Below.refl _⟩
      rcases List.mem_append.mp hr with hr | hr
      · exact (hmono (h.below t G hG ht r hr hrt)).trans hold.1
      · rw [List.mem_singleton.mp hr]
        exact hold.2
    · rw [filter_concat_of_not (hother t hts)] at hH
      rcases List.mem_append.mp hr with hr | hr
      · exact hmono (h.below t H hH ht r hr hrt)
      · rw [List.mem_singleton.mp hr, hother t hts] at hrt
        cases hrt
  · intro r r' hr hr' hbelow
    have hbelow : Below b.parentOf r r' := hbelow
    rw [hb] at hbelow
    rcases IsForest.below_link hpfree hne hbelow with hchain | ⟨hchain, rfl⟩
    · refine (h.together r r' hr hr' hchain).imp_right ?_
      rintro ⟨hp, hp', hshared⟩
      exact ⟨List.mem_append_left _ hp, List.mem_append_left _ hp', hshared⟩
    · obtain ⟨hpdone, hpabout⟩ := hdone r' (Or.inr rfl)
      obtain ⟨hcdone, hcabout⟩ := hdone child (Or.inl rfl)
      rcases h.together r child hr hchild hchain with rfl | ⟨hp, _, t, _, hrt, hct⟩
      · exact Or.inr ⟨hcdone, hpdone, s, hs, hcabout, hpabout⟩
      · rw [isAbout_unique hct hcabout] at hrt
        exact Or.inr ⟨List.mem_append_left _ hp, hpdone, s, hs, hrt, hpabout⟩

/-- **One turn of the loop.** -/
theorem groupRoot (h : Gathers a records processed g) (harena : a.Forest) (hcov : a.Covered roots)
    (hinv : Grouping.Inv a roots processed g) (hid : id ∈ roots) (hnew : id ∉ processed)
    (hproc : ∀ r ∈ processed, r ∈ roots) (hsorted : (processed ++ [id]).Pairwise (Older a)) :
    Gathers a records (processed ++ [id]) (groupRoot records g id) := by
  obtain ⟨hsorted, _, holder⟩ := List.pairwise_append.mp hsorted
  have hahead := h.firstArticle_ahead harena hcov hinv hid hnew
  have hsubject : g.arena.subjectOf records id = a.subjectOf records id := subjectOf_congr hahead
  -- what is known of the root that holds a subject
  have hheld : ∀ s r, s ≠ [] → g.holders.lookup s = some r → ∃ G,
      gather (a.isReply records) (processed.filter (a.isAbout records s)) = some G ∧ r = G.holder ∧
        G.reply = g.arena.isReply records r ∧
        optionLe (g.arena.firstArticle r) (a.firstArticle id) = true ∧
        r ∈ processed ∧ a.isAbout records s r = true ∧ g.arena.parentOf r = none := by
    intro s r hs hlookup
    have hlive := hinv.covered.free r
      (Grouping.mem_live (hproc r (hinv.holders s r hlookup).1) (hinv.holders s r hlookup).2)
    rw [h.holders s hs, Option.map_eq_some_iff] at hlookup
    obtain ⟨G, hG, rfl⟩ := hlookup
    obtain ⟨hmem, habout⟩ := List.mem_filter.mp (gather_linked hG).1
    cases hroots : processed.filter (a.isAbout records s) with
    | nil =>
        rw [hroots] at hG
        cases hG
    | cons oldest rest =>
        have hfirst := h.firstArticle_holder harena hcov hinv hproc hsorted hs hroots hG
        have holdest : oldest ∈ processed :=
          (List.mem_filter.mp (hroots ▸ List.mem_cons_self : oldest ∈ processed.filter _)).1
        refine ⟨G, hroots ▸ hG, rfl, ?_, ?_, hmem, habout, hlive⟩
        · rw [isReply_congr hfirst]
          rw [hroots] at hG
          cases hG
          exact (foldl_gatherRoot_holder rest _).1
        · rw [hfirst]
          obtain ⟨i, j, hi, hj, hlt⟩ := holder oldest holdest id (List.mem_singleton_self _)
          rw [hi, hj]
          exact decide_eq_true (Nat.le_of_lt hlt)
  have hidfree : g.arena.parentOf id = none :=
    hinv.covered.free id (Grouping.mem_live hid fun hm => hnew (hinv.merged id hm))
  have hlt : ∀ r ∈ roots, r < g.arena.containers.length := fun r hr =>
    hinv.length.symm ▸ hcov.lt r hr
  have hturn : Turn records g id (Nntp.Proto.groupRoot records g id) := by
    refine groupRoot_turn fun s r hs hlookup => ?_
    obtain ⟨G, _, _, _, hle, hmem, _⟩ := hheld s r hs hlookup
    rw [hahead]
    refine ⟨?_, hle⟩
    rintro rfl
    exact hnew hmem
  generalize Nntp.Proto.groupRoot records g id = after at hturn
  cases hturn with
  | skip hempty =>
      refine h.skip fun s hs => ?_
      cases hflag : a.isAbout records s id with
      | false => rfl
      | true =>
          obtain ⟨r, hr⟩ := isAbout_iff.mp hflag
          exact absurd (hempty s r (hsubject.trans hr)) hs
  | hold s r hs hne hnone => exact h.hold hne (isAbout_iff.mpr ⟨r, hsubject.symm.trans hs⟩) hnone
  | under s r holder hs hne hlookup htakes =>
      obtain ⟨G, hG, rfl, hreply, _, hmem, habout, hfree⟩ := hheld s holder hne hlookup
      have hs := hsubject.symm.trans hs
      have hdiff : id ≠ G.holder := fun heq => hnew (heq ▸ hmem)
      have hgather : gatherRoot (a.isReply records) G id =
          { G with links := (id, G.holder) :: G.links } := by
        unfold gatherRoot
        rw [hreply, isReply_of_subjectOf hs, htakes]
        rfl
      exact h.link hne (isAbout_iff.mpr ⟨r, hs⟩) hG hgather rfl rfl (Or.inl ⟨rfl, rfl⟩) hmem habout
        (hcov.free id hid) hidfree hfree hdiff
        (linked_parentOf (Grouping.setParent_roots (hlt id hid) hidfree hfree hdiff) (hlt id hid))
        hlookup fun _ _ => rfl
  | «over» s r holder hs hne hlookup htakes =>
      obtain ⟨G, hG, rfl, hreply, _, hmem, habout, hfree⟩ := hheld s holder hne hlookup
      have hs := hsubject.symm.trans hs
      have hdiff : G.holder ≠ id := fun heq => hnew (heq ▸ hmem)
      have hgather : gatherRoot (a.isReply records) G id =
          { G with holder := id, links := (G.holder, id) :: G.links } := by
        unfold gatherRoot
        rw [hreply, isReply_of_subjectOf hs, htakes]
        rfl
      have hroot := hproc G.holder hmem
      refine h.link hne (isAbout_iff.mpr ⟨r, hs⟩) hG hgather rfl rfl (Or.inr ⟨rfl, rfl⟩) hmem habout
        (hcov.free _ hroot) hfree hidfree hdiff
        (linked_parentOf (Grouping.setParent_roots (hlt _ hroot) hfree hidfree hdiff) (hlt _ hroot))
        ?_ fun t ht => ?_
      · rw [List.lookup_cons, beq_self_eq_true]
      · rw [List.lookup_cons, beq_eq_false_iff_ne.mpr ht]

/-- Before the first turn. -/
theorem start : Gathers a records [] ⟨a, [], []⟩ where
  kept := fun _ _ h => h
  holders := fun _ _ => rfl
  links := fun _ _ h => by cases h
  below := fun _ _ h => by cases h
  together := fun r r' hr _ h => Or.inl (h.eq_of_root hr)

/-- The whole loop. -/
theorem foldl {rest : List Nat} (h : Gathers a records processed g) (harena : a.Forest)
    (hcov : a.Covered roots) (hsorted : roots.Pairwise (Older a)) (hroots : roots = processed ++ rest)
    (hinv : Grouping.Inv a roots processed g) :
    Gathers a records roots (rest.foldl (Nntp.Proto.groupRoot records) g) := by
  induction rest generalizing processed g with
  | nil =>
      rw [List.append_nil] at hroots
      exact hroots ▸ h
  | cons id rest ih =>
      have hsplit : roots = (processed ++ [id]) ++ rest := by
        rw [hroots, List.append_assoc, List.singleton_append]
      have hid : id ∈ roots := by simp [hroots]
      have hproc : ∀ r ∈ processed, r ∈ roots := by
        intro r hr
        rw [hroots]
        exact List.mem_append_left _ hr
      have hnew : id ∉ processed := by
        have hnodup := hcov.nodup
        rw [hroots] at hnodup
        exact fun hp => (List.nodup_append.mp hnodup).2.2 id hp id (by simp) rfl
      exact ih (h.groupRoot harena hcov hinv hid hnew hproc
        (List.pairwise_append.mp (hsplit ▸ hsorted)).1) hsplit (hinv.groupRoot records hid hnew hproc)

end Grouping.Gathers

/-- The roots are listed oldest first. -/
theorem Arena.Forest.roots_older (h : a.Forest)
    (hart : ∀ c c' i, a.articleOf c = some i → a.articleOf c' = some i → c = c') :
    a.roots.Pairwise (Older a) := by
  have hcov := h.roots_covered
  have htotal : Std.Total fun x y => optionLe (a.firstArticle x) (a.firstArticle y) = true := by
    refine ⟨fun x y => ?_⟩
    cases a.firstArticle x <;> cases a.firstArticle y <;> simp [optionLe, Nat.le_total]
  have htrans : IsTrans Nat fun x y => optionLe (a.firstArticle x) (a.firstArticle y) = true := by
    refine ⟨fun x y z => ?_⟩
    cases a.firstArticle x <;> cases a.firstArticle y <;> cases a.firstArticle z <;>
      simp [optionLe]
    exact Nat.le_trans
  have hsorted : a.roots.Pairwise fun x y =>
      optionLe (a.firstArticle x) (a.firstArticle y) = true := List.pairwise_insertionSort _ _
  refine (hsorted.and hcov.nodup).imp_of_mem fun {x y} hx hy hxy => ?_
  obtain ⟨hle, hne⟩ := hxy
  obtain ⟨i, hi⟩ := Option.isSome_iff_exists.mp (mem_roots.mp hx).2
  obtain ⟨j, hj⟩ := Option.isSome_iff_exists.mp (mem_roots.mp hy).2
  refine ⟨i, j, hi, hj, ?_⟩
  rw [hi, hj] at hle
  refine lt_of_le_of_ne (of_decide_eq_true hle) fun hij => hne ?_
  -- an article is below one root only
  subst hij
  obtain ⟨⟨c, hc, hci⟩, _⟩ := (h.firstArticle_eq_some (hcov.lt x hx)).mp hi
  obtain ⟨⟨c', hc', hci'⟩, _⟩ := (h.firstArticle_eq_some (hcov.lt y hy)).mp hj
  cases hart c c' i hci hci'
  rcases hc.chain hc' with hxy | hyx
  · exact hxy.eq_of_root (hcov.free x hx)
  · exact (hyx.eq_of_root (hcov.free y hy)).symm

end Loop

/-! ## The holder of a subject -/

/-- The roots that the references leave and that are about `s`, oldest first. -/
def rootsAbout (records : List OverviewRecord) (s : Str) : List Nat :=
  (linkRecords records).roots.filter ((linkRecords records).isAbout records s)

/-- What `group_by_subject` makes of the linked records. -/
def grouped (records : List OverviewRecord) : Arena × List Nat :=
  groupBySubject (linkRecords records) (linkRecords records).roots records

/-- `id` has the smallest first article of the roots that are about `s`, among those that are no
replies if there are any. -/
structure RightHolder (records : List OverviewRecord) (s : Str) (id : Nat) : Prop where
  about : id ∈ rootsAbout records s
  least : ∀ r ∈ rootsAbout records s, r ≠ id → (linkRecords records).isReply records r = false →
    (linkRecords records).Older id r
  original : (linkRecords records).isReply records id = true →
    ∀ r ∈ rootsAbout records s, r ≠ id →
      (linkRecords records).isReply records r = true ∧ (linkRecords records).Older id r

/-- Of the roots about `s`, exactly the right one stays a root, and the others become its children. -/
def PicksHolder (records : List OverviewRecord) (s : Str) : Prop :=
  rootsAbout records s ≠ [] → ∃ holder, RightHolder records s holder ∧
    (grouped records).2.filter ((linkRecords records).isAbout records s) = [holder] ∧
    ∀ r ∈ rootsAbout records s, r ≠ holder → r ∈ (grouped records).1.childrenOf holder

/-- Articles without references, with these subjects. -/
def withSubjects (subjects : List Str) : List OverviewRecord :=
  subjects.zipIdx.map fun s => { OverviewRecord.bare (UInt64.ofNat (s.2 + 1)) with subject := s.1 }

section Picks

variable {records : List OverviewRecord} {s : Str}

theorem linkRecords_older (records : List OverviewRecord) :
    (linkRecords records).roots.Pairwise (linkRecords records).Older := by
  have hlinked := linkRecords_inv records
  refine hlinked.toForest.roots_older fun c c' i hc hc' => ?_
  exact Option.some.inj (((hlinked.article_iff c i).mp hc).symm.trans
    ((hlinked.article_iff c' i).mp hc'))

/-- The loop over all roots. -/
theorem linkRecords_gathers (records : List OverviewRecord) :
    let g := (linkRecords records).roots.foldl (groupRoot records) ⟨linkRecords records, [], []⟩
    Grouping.Inv (linkRecords records) (linkRecords records).roots (linkRecords records).roots g ∧
      Grouping.Gathers (linkRecords records) records (linkRecords records).roots g := by
  have hforest := (linkRecords_inv records).toForest
  have hcov := hforest.roots_covered
  have hstart := Grouping.Inv.start hforest hcov
  exact ⟨hstart.foldl records (List.nil_append _).symm hcov.nodup,
    Grouping.Gathers.start.foldl hforest hcov (linkRecords_older records) (List.nil_append _).symm hstart⟩

/-- The end of the loop, for one subject: the root that holds it is the one that stays, and the links are in
the arena. -/
theorem grouped_about (hs : s ≠ []) (hroots : rootsAbout records s ≠ []) :
    ∃ g, gather ((linkRecords records).isReply records) (rootsAbout records s) = some g ∧
      (grouped records).2.filter ((linkRecords records).isAbout records s) = [g.holder] ∧
      ∀ l ∈ g.links, (grouped records).1.parentOf l.1 = some l.2 := by
  obtain ⟨hinv, hgathers⟩ := linkRecords_gathers records
  obtain ⟨g, hg⟩ : ∃ g, gather ((linkRecords records).isReply records) (rootsAbout records s) =
      some g := by
    cases hall : rootsAbout records s with
    | nil => exact absurd hall hroots
    | cons oldest rest => exact ⟨_, rfl⟩
  have hlinks := hgathers.links s g hg hs
  refine ⟨g, hg, ?_, hlinks⟩
  obtain ⟨hholder, hother⟩ := gather_linked hg
  refine List.perm_singleton.mp ((List.perm_ext_iff_of_nodup ?_ (List.nodup_singleton _)).mpr fun r => ?_)
  · exact hinv.covered.nodup.filter _
  · rw [List.mem_filter, List.mem_singleton]
    constructor
    · rintro ⟨hr, habout⟩
      have hmem : r ∈ rootsAbout records s := List.mem_filter.mpr ⟨(List.mem_filter.mp hr).1, habout⟩
      rcases hother r hmem with heq | ⟨p, hp⟩
      · exact heq
      · have hfree := hinv.covered.free r hr
        rw [hlinks (r, p) hp] at hfree
        cases hfree
    · rintro rfl
      obtain ⟨hroot, habout⟩ := List.mem_filter.mp hholder
      have hlookup := hgathers.holders s hs
      rw [show ((linkRecords records).roots.filter _) = rootsAbout records s from rfl, hg] at hlookup
      exact ⟨Grouping.mem_live hroot (hinv.holders s g.holder hlookup).2, habout⟩

/-- Among roots listed oldest first, the right one is `rightHolder`. -/
theorem rightHolder_iff {id : Nat} : RightHolder records s id ↔
    rightHolder ((linkRecords records).isReply records) (rootsAbout records s) = some id := by
  have hsorted : (rootsAbout records s).Pairwise (linkRecords records).Older :=
    (linkRecords_older records).filter _
  unfold rightHolder
  constructor
  · rintro ⟨habout, hleast, horiginal⟩
    cases hid : (linkRecords records).isReply records id with
    | false =>
        cases hfind : (rootsAbout records s).find? fun id => !(linkRecords records).isReply records id with
        | none =>
            have := List.find?_eq_none.mp hfind id habout
            rw [hid] at this
            exact absurd rfl this
        | some f =>
            obtain ⟨hf, older, later, hsplit, holder⟩ := List.find?_eq_some_iff_append.mp hfind
            simp only [Bool.not_eq_true', Bool.not_not] at hf holder
            by_cases hfid : f = id
            · rw [hfid]
              rfl
            · -- `f` stands before `id` in the list
              rw [hsplit] at habout hsorted
              have hlater : id ∈ later := by
                rcases List.mem_append.mp habout with hmem | hmem
                · rw [holder id hmem] at hid
                  cases hid
                · exact (List.mem_cons.mp hmem).resolve_left (Ne.symm hfid)
              have hbefore := (List.pairwise_cons.mp (List.pairwise_append.mp hsorted).2.1).1 id hlater
              have hmem : f ∈ rootsAbout records s := hsplit ▸ (by simp)
              exact absurd hbefore (hleast f hmem hfid hf).asymm
    | true =>
        have hnone : ((rootsAbout records s).find? fun id =>
            !(linkRecords records).isReply records id) = none := by
          refine List.find?_eq_none.mpr fun r hr => ?_
          by_cases hrid : r = id
          · rw [hrid, hid]
            decide
          · rw [(horiginal hid r hr hrid).1]
            decide
        rw [hnone]
        cases hroots : rootsAbout records s with
        | nil =>
            rw [hroots] at habout
            cases habout
        | cons oldest rest =>
            by_cases hoid : oldest = id
            · rw [hoid]
              rfl
            · rw [hroots] at habout hsorted
              have hmem := (List.mem_cons.mp habout).resolve_left (Ne.symm hoid)
              have hbefore := (List.pairwise_cons.mp hsorted).1 id hmem
              have hafter := (horiginal hid oldest (hroots ▸ List.mem_cons_self) hoid).2
              exact absurd hbefore hafter.asymm
  · intro h
    cases hfind : (rootsAbout records s).find? fun id => !(linkRecords records).isReply records id with
    | some f =>
        rw [hfind] at h
        obtain rfl : f = id := Option.some.inj h
        obtain ⟨hf, older, later, hsplit, holder⟩ := List.find?_eq_some_iff_append.mp hfind
        simp only [Bool.not_eq_true', Bool.not_not] at hf holder
        rw [hsplit] at hsorted
        refine ⟨hsplit ▸ (by simp), fun r hr hne hrf => ?_, fun hreply => ?_⟩
        · rw [hsplit] at hr
          rcases List.mem_append.mp hr with hr | hr
          · rw [holder r hr] at hrf
            cases hrf
          · exact (List.pairwise_cons.mp (List.pairwise_append.mp hsorted).2.1).1 r
              ((List.mem_cons.mp hr).resolve_left hne)
        · rw [hf] at hreply
          cases hreply
    | none =>
        rw [hfind] at h
        have hall : ∀ r ∈ rootsAbout records s, (linkRecords records).isReply records r = true := by
          simpa using List.find?_eq_none.mp hfind
        obtain ⟨rest, hsplit⟩ := List.head?_eq_some_iff.mp h
        have hmem : id ∈ rootsAbout records s := hsplit ▸ List.mem_cons_self
        have hother : ∀ r ∈ rootsAbout records s, r ≠ id → (linkRecords records).Older id r := by
          intro r hr hne
          rw [hsplit] at hr hsorted
          exact (List.pairwise_cons.mp hsorted).1 r ((List.mem_cons.mp hr).resolve_left hne)
        exact ⟨hmem, fun r hr hne _ => hother r hr hne, fun _ r hr hne => ⟨hall r hr, hother r hr hne⟩⟩

/-- **When the right root holds a subject.** -/
theorem picksHolder_iff (hs : s ≠ []) : PicksHolder records s ↔
    HolderFits ((linkRecords records).isReply records) (rootsAbout records s) := by
  have hforest := (linkRecords_inv records).toForest
  have hnodup : (rootsAbout records s).Nodup := hforest.roots_covered.nodup.filter _
  by_cases hroots : rootsAbout records s = []
  · refine iff_of_true (fun hne => absurd hroots hne) ?_
    rw [hroots]
    trivial
  · obtain ⟨g, hg, hkept, hlinks⟩ := grouped_about hs hroots
    have hgrouped := (groupBySubject_spec hforest hforest.roots_covered records).1
    obtain ⟨hholder, hother⟩ := gather_linked hg
    have hfree : (grouped records).1.parentOf g.holder = none := by
      refine (groupBySubject_spec hforest hforest.roots_covered records).2.2.2.free g.holder ?_
      exact (List.mem_filter.mp (hkept ▸ List.mem_singleton_self g.holder)).1
    rw [← gather_right_iff hnodup hg]
    constructor
    · intro h
      obtain ⟨holder, hright, hone, hchildren⟩ := h hroots
      obtain rfl : g.holder = holder := List.singleton_inj.mp (hkept.symm.trans hone)
      refine ⟨rightHolder_iff.mp hright, fun l hl => ?_⟩
      have hparent := hlinks l hl
      have hne : l.1 ≠ g.holder := by
        intro heq
        rw [heq, hfree] at hparent
        cases hparent
      have hmem : l.1 ∈ rootsAbout records s := gather_link_mem hg hl
      have := (hgrouped.links.mem_children _ _).mp (hchildren l.1 hmem hne)
      exact Option.some.inj (hparent.symm.trans this)
    · rintro ⟨hright, hunder⟩ _
      refine ⟨g.holder, rightHolder_iff.mpr hright, hkept, fun r hr hne => ?_⟩
      rcases hother r hr with heq | ⟨p, hp⟩
      · exact absurd heq hne
      · have hparent : (grouped records).1.parentOf r = some p := hlinks (r, p) hp
        have holder : p = g.holder := hunder (r, p) hp
        rw [holder] at hparent
        exact (hgrouped.links.mem_children _ _).mpr hparent

/-- A thread whose first article is known is picked up right. -/
theorem picksHolder_originalFirst : "x".toList ≠ [] ∧
    PicksHolder (withSubjects ["x".toList, "Re: x".toList]) "x".toList := by
  have hne : "x".toList ≠ [] := by decide
  refine ⟨hne, (picksHolder_iff hne).mpr ?_⟩
  have hroots : rootsAbout (withSubjects ["x".toList, "Re: x".toList]) "x".toList = [0, 1] := by
    decide +kernel
  rw [hroots]
  exact Or.inl (by decide +kernel)

/-- Under a reply whose original is missing, the second of two new articles with the subject becomes the
holder. -/
theorem replyFirst_picksLast :
    rootsAbout (withSubjects ["Re: x".toList, "x".toList, "x".toList]) "x".toList = [0, 1, 2] ∧
      ¬ PicksHolder (withSubjects ["Re: x".toList, "x".toList, "x".toList]) "x".toList := by
  have hroots : rootsAbout (withSubjects ["Re: x".toList, "x".toList, "x".toList]) "x".toList =
      [0, 1, 2] := by decide +kernel
  have hkept : (grouped (withSubjects ["Re: x".toList, "x".toList, "x".toList])).2 = [2] := by
    decide +kernel
  refine ⟨hroots, fun h => ?_⟩
  obtain ⟨holder, hright, hone, _⟩ := h (by rw [hroots]; decide)
  have hlast : holder = 2 := by
    have hmem : holder ∈ (grouped _).2 := (List.mem_filter.mp (hone ▸ List.mem_singleton_self holder)).1
    rw [hkept] at hmem
    exact List.mem_singleton.mp hmem
  have hfirst : ((linkRecords (withSubjects ["Re: x".toList, "x".toList, "x".toList])).isReply
      (withSubjects ["Re: x".toList, "x".toList, "x".toList]) 1) = false := by decide +kernel
  obtain ⟨i, j, hi, hj, hij⟩ := hright.least 1 (by rw [hroots]; decide) (by rw [hlast]; decide) hfirst
  have hold : (linkRecords (withSubjects ["Re: x".toList, "x".toList, "x".toList])).firstArticle 2 =
      some 2 := by decide +kernel
  have hnew : (linkRecords (withSubjects ["Re: x".toList, "x".toList, "x".toList])).firstArticle 1 =
      some 1 := by decide +kernel
  rw [hlast, hold] at hi
  rw [hnew] at hj
  cases hi
  cases hj
  exact absurd hij (by decide)

end Picks

end Nntp.Proto
