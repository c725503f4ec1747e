import Mathlib.Logic.Relation
import Mathlib.Logic.Function.Basic
import Mathlib.Data.List.Nodup
import Mathlib.Data.List.Perm.Subperm

/-!
# Forests held as parent and child links

A forest over `α` stored twice, as a parent link for each node and as a list of children for each
node. `IsForest` says that the two agree and that no node is above itself. The two ways such a
structure is edited keep it: hanging a root under a node that is not below it (`IsForest.link`), and
hanging everything below a node directly under that node (`IsForest.flatten`).

`Visits` is the order in which a stack-driven walk pops nodes. In a forest it exists, it lists the
nodes below the starting nodes, and it lists each once; so a walk with a step budget of the number
of nodes never runs out.
-/

namespace Nntp.Lib

variable {α : Type*} {parent : α → Option α} {children : α → List α}

/-- `x` is `y` or one of its descendants. -/
def Below (parent : α → Option α) : α → α → Prop :=
  Relation.ReflTransGen fun x y => parent x = some y

/-- The parent links and the child lists describe one forest. -/
structure IsForest (parent : α → Option α) (children : α → List α) : Prop where
  mem_children : ∀ p c, c ∈ children p ↔ parent c = some p
  nodup_children : ∀ p, (children p).Nodup
  ranked : ∃ (rank : α → ℕ) (bound : ℕ),
    (∀ c p, parent c = some p → rank c < rank p) ∧ ∀ x, rank x ≤ bound

/-! ## Being below -/

namespace Below

theorem refl (x : α) : Below parent x x := Relation.ReflTransGen.refl

theorem step {x y : α} (h : parent x = some y) : Below parent x y :=
  Relation.ReflTransGen.single h

theorem trans {x y z : α} (hxy : Below parent x y) (hyz : Below parent y z) : Below parent x z :=
  Relation.ReflTransGen.trans hxy hyz

/-- Either `x` is `y`, or one of `y`'s children is at or above `x`. -/
theorem cases_child {x y : α} : Below parent x y ↔ x = y ∨ ∃ z, Below parent x z ∧ parent z = some y := by
  constructor
  · intro h
    rcases Relation.ReflTransGen.cases_tail h with h | ⟨z, hz, hzy⟩
    · exact Or.inl h.symm
    · exact Or.inr ⟨z, hz, hzy⟩
  · rintro (rfl | ⟨z, hz, hzy⟩)
    · exact refl x
    · exact hz.trans (step hzy)

/-- Either `x` is `y`, or `x`'s parent is below `y`. -/
theorem cases_parent {x y : α} (h : Below parent x y) :
    x = y ∨ ∃ z, parent x = some z ∧ Below parent z y :=
  Relation.ReflTransGen.cases_head h

theorem eq_of_root {x y : α} (h : Below parent x y) (hroot : parent x = none) : x = y := by
  rcases cases_parent h with h | ⟨z, hz, -⟩
  · exact h
  · rw [hroot] at hz
    cases hz

/-- The nodes above one node form a chain. -/
theorem chain {x y z : α} (hy : Below parent x y) (hz : Below parent x z) :
    Below parent y z ∨ Below parent z y := by
  refine Relation.ReflTransGen.total_of_right_unique ?_ hy hz
  intro a b c hab hac
  exact Option.some.inj (hab.symm.trans hac)

theorem rank_le {rank : α → ℕ} (hrank : ∀ c p, parent c = some p → rank c < rank p) {x y : α}
    (h : Below parent x y) : rank x ≤ rank y := by
  induction h with
  | refl => exact Nat.le_refl _
  | tail _ hstep ih => exact Nat.le_trans ih (Nat.le_of_lt (hrank _ _ hstep))

/-- Adding a link to a root keeps everything that was below. -/
theorem mono {parent' : α → Option α} (h : ∀ x y, parent x = some y → parent' x = some y)
    {x y : α} (hxy : Below parent x y) : Below parent' x y :=
  Relation.ReflTransGen.mono (fun a b hab => h a b hab) x y hxy

end Below

/-- Neither node is below the other. -/
def Unrelated (parent : α → Option α) (x y : α) : Prop := ¬ Below parent x y ∧ ¬ Below parent y x

theorem Unrelated.symm {x y : α} (h : Unrelated parent x y) : Unrelated parent y x := ⟨h.2, h.1⟩

namespace IsForest

theorem antisymm (h : IsForest parent children) {x y : α} (hxy : Below parent x y)
    (hyx : Below parent y x) : x = y := by
  obtain ⟨rank, -, hrank, -⟩ := h.ranked
  rcases Below.cases_parent hxy with hxy | ⟨z, hz, hzy⟩
  · exact hxy
  · have h1 := hrank _ _ hz
    have h2 := hzy.rank_le hrank
    have h3 := hyx.rank_le hrank
    omega

/-- A node is not below any of its children. -/
theorem not_below_child (h : IsForest parent children) {x c : α} (hc : parent c = some x) :
    ¬ Below parent x c := by
  intro hxc
  obtain ⟨rank, -, hrank, -⟩ := h.ranked
  have h1 := hrank _ _ hc
  have h2 := hxc.rank_le hrank
  omega

/-- Every node is below some root. -/
theorem exists_root (h : IsForest parent children) (x : α) :
    ∃ r, Below parent x r ∧ parent r = none := by
  obtain ⟨rank, bound, hrank, hbound⟩ := h.ranked
  have hclimb : ∀ k x, bound - rank x ≤ k → ∃ r, Below parent x r ∧ parent r = none := by
    intro k
    induction k with
    | zero =>
        intro x hx
        cases hp : parent x with
        | none => exact ⟨x, Below.refl x, hp⟩
        | some p =>
            have h1 := hrank x p hp
            have h2 := hbound p
            omega
    | succ k ih =>
        intro x hx
        cases hp : parent x with
        | none => exact ⟨x, Below.refl x, hp⟩
        | some p =>
            have h1 := hrank x p hp
            have h2 := hbound p
            obtain ⟨r, hr, hroot⟩ := ih p (by omega)
            exact ⟨r, (Below.step hp).trans hr, hroot⟩
  exact hclimb _ x (Nat.le_refl _)

/-- Two different children of one node are unrelated. -/
theorem unrelated_children (h : IsForest parent children) {p a b : α} (ha : parent a = some p)
    (hb : parent b = some p) (hne : a ≠ b) : Unrelated parent a b := by
  have hnot : ∀ {a b : α}, parent a = some p → parent b = some p → a ≠ b → ¬ Below parent a b := by
    intro a b ha hb hne hab
    rcases Below.cases_parent hab with hab | ⟨z, hz, hzb⟩
    · exact hne hab
    · obtain rfl : z = p := Option.some.inj (hz.symm.trans ha)
      exact h.not_below_child hb hzb
  exact ⟨hnot ha hb hne, hnot hb ha hne.symm⟩

theorem unrelated_roots {a b : α} (ha : parent a = none) (hb : parent b = none) (hne : a ≠ b) :
    Unrelated parent a b :=
  ⟨fun hab => hne (hab.eq_of_root ha), fun hba => hne (hba.eq_of_root hb).symm⟩

theorem pairwise_children (h : IsForest parent children) (p : α) :
    (children p).Pairwise (Unrelated parent) := by
  refine (h.nodup_children p).imp_of_mem ?_
  intro a b ha hb hne
  exact h.unrelated_children ((h.mem_children p a).mp ha) ((h.mem_children p b).mp hb) hne

/-! ## Editing -/

/-- Hanging the root `c` under a node that is not below it. -/
theorem link [DecidableEq α] (h : IsForest parent children) {c p : α} (hroot : parent c = none)
    (habove : ¬ Below parent p c) :
    IsForest (Function.update parent c (some p))
      (Function.update children p (children p ++ [c])) := by
  have hnew : ∀ q, c ∉ children q := by
    intro q hq
    rw [(h.mem_children q c).mp hq] at hroot
    cases hroot
  refine ⟨fun q x => ?_, fun q => ?_, ?_⟩
  · by_cases hq : q = p
    · subst hq
      rw [Function.update_self, List.mem_append, List.mem_singleton, h.mem_children]
      by_cases hx : x = c
      · subst hx; simp
      · rw [Function.update_of_ne hx]; simp [hx]
    · rw [Function.update_of_ne hq, h.mem_children]
      by_cases hx : x = c
      · subst hx
        rw [Function.update_self, hroot]
        simp [Ne.symm hq]
      · rw [Function.update_of_ne hx]
  · by_cases hq : q = p
    · subst hq
      rw [Function.update_self]
      refine List.nodup_append.mpr ⟨h.nodup_children q, List.nodup_singleton c, ?_⟩
      intro a ha b hb hab
      rw [List.mem_singleton] at hb
      exact hnew q (hb ▸ hab ▸ ha)
    · rw [Function.update_of_ne hq]
      exact h.nodup_children q
  · -- everything at or above `p` moves above the old maximum, `c` stays where it is
    classical
    obtain ⟨rank, bound, hrank, hbound⟩ := h.ranked
    refine ⟨fun x => if Below parent p x then rank x + bound + 1 else rank x, bound + bound + 1,
      fun x q hx => ?_, fun x => ?_⟩
    · by_cases hxc : x = c
      · subst hxc
        rw [Function.update_self] at hx
        obtain rfl : p = q := Option.some.inj hx
        simp only [habove, ↓reduceIte, Below.refl p]
        have := hbound x
        omega
      · rw [Function.update_of_ne hxc] at hx
        have hlt := hrank x q hx
        by_cases hpx : Below parent p x
        · simp only [hpx, ↓reduceIte, hpx.trans (Below.step hx)]
          omega
        · simp only [hpx, ↓reduceIte]
          split <;> omega
    · have := hbound x
      show (if Below parent p x then rank x + bound + 1 else rank x) ≤ bound + bound + 1
      split <;> omega

/-- The parent of a node that is not strictly below `top` is not strictly below `top` either, nor is
it `top`. -/
theorem parent_outside (h : IsForest parent children) {top : α} {below : List α}
    (hbelow : ∀ x, x ∈ below ↔ x ≠ top ∧ Below parent x top) {x p : α} (hx : x ∉ below)
    (hp : parent x = some p) : p ∉ below ∧ p ≠ top := by
  refine ⟨fun hpb => hx ?_, fun hpt => hx ?_⟩
  · obtain ⟨-, hpb⟩ := (hbelow p).mp hpb
    refine (hbelow x).mpr ⟨?_, (Below.step hp).trans hpb⟩
    rintro rfl
    exact h.not_below_child hp hpb
  · subst hpt
    refine (hbelow x).mpr ⟨?_, Below.step hp⟩
    rintro rfl
    exact h.not_below_child hp (Below.refl x)

/-- What is below a node after the root `c` was hung under the root `p`. -/
theorem below_link [DecidableEq α] {c p x y : α} (hp : parent p = none)
    (hne : c ≠ p) (h : Below (Function.update parent c (some p)) x y) :
    Below parent x y ∨ Below parent x c ∧ y = p := by
  induction h with
  | refl => exact Or.inl (Below.refl x)
  | @tail z w _ hstep ih =>
      rw [Function.update_apply] at hstep
      split at hstep
      · next heq =>
          cases hstep
          rcases ih with hz | ⟨_, hz⟩
          · exact Or.inr ⟨heq ▸ hz, rfl⟩
          · exact absurd (heq.symm.trans hz) hne
      · rcases ih with hz | ⟨_, rfl⟩
        · exact Or.inl (hz.trans (Below.step hstep))
        · rw [hp] at hstep
          cases hstep

/-- Hanging a root under another node takes nothing away from above. -/
theorem below_link_mono [DecidableEq α] {c p x y : α} (hc : parent c = none)
    (h : Below parent x y) : Below (Function.update parent c (some p)) x y := by
  refine h.mono fun u v huv => ?_
  rw [Function.update_of_ne]
  · exact huv
  · rintro rfl
    rw [hc] at huv
    cases huv

/-- Hanging everything below `top` directly under `top`. -/
theorem flatten [DecidableEq α] (h : IsForest parent children) {top : α} {below kids : List α}
    (hbelow : ∀ x, x ∈ below ↔ x ≠ top ∧ Below parent x top) (hnodup : below.Nodup)
    (hkids : kids.Perm below) :
    IsForest (fun x => if x ∈ below then some top else parent x)
      (fun x => if x = top then kids else if x ∈ below then [] else children x) := by
  have htop : top ∉ below := fun ht => ((hbelow top).mp ht).1 rfl
  have houtside : ∀ x p, x ∉ below → parent x = some p → p ∉ below ∧ p ≠ top :=
    fun x p => h.parent_outside hbelow
  refine ⟨fun p c => ?_, fun p => ?_, ?_⟩
  · by_cases hc : c ∈ below
    · by_cases hp : p = top
      · simp [hp, hc, hkids.mem_iff]
      · by_cases hpb : p ∈ below
        · simp [hp, hpb, hc, Ne.symm hp]
        · simp only [hp, hpb, hc, ↓reduceIte, h.mem_children, Option.some.injEq, Ne.symm hp,
            iff_false]
          intro hcp
          obtain ⟨hct, hcb⟩ := (hbelow c).mp hc
          rcases Below.cases_parent hcb with hcb | ⟨z, hz, hzt⟩
          · exact hct hcb
          · obtain rfl : z = p := Option.some.inj (hz.symm.trans hcp)
            exact hpb ((hbelow z).mpr ⟨hp, hzt⟩)
    · by_cases hp : p = top
      · simp only [hp, hc, ↓reduceIte, hkids.mem_iff, false_iff]
        intro hcp
        exact (houtside c top hc hcp).2 rfl
      · by_cases hpb : p ∈ below
        · simp only [hp, hpb, hc, ↓reduceIte, List.not_mem_nil, false_iff]
          intro hcp
          exact (houtside c p hc hcp).1 hpb
        · simp only [hp, hpb, hc, ↓reduceIte, h.mem_children]
  · by_cases hp : p = top
    · simp only [hp, ↓reduceIte]
      exact hkids.nodup_iff.mpr hnodup
    · by_cases hpb : p ∈ below
      · simp [hp, hpb]
      · simp only [hp, hpb, ↓reduceIte]
        exact h.nodup_children p
  · obtain ⟨rank, bound, hrank, hbound⟩ := h.ranked
    refine ⟨fun x => if x ∈ below then 0 else rank x + 1, bound + 1, fun c p hcp => ?_,
      fun x => ?_⟩
    · by_cases hc : c ∈ below
      · simp only [hc, ↓reduceIte, Option.some.injEq] at hcp
        subst hcp
        simp [hc, htop]
      · simp only [hc, ↓reduceIte] at hcp
        have hp := (houtside c p hc hcp).1
        have hlt := hrank c p hcp
        simp only [hc, hp, ↓reduceIte]
        omega
    · have := hbound x
      show (if x ∈ below then 0 else rank x + 1) ≤ bound + 1
      split <;> omega

/-- After flattening, what was below a root is below it. -/
theorem below_flatten [DecidableEq α] (h : IsForest parent children) {top : α} {below : List α}
    (hbelow : ∀ x, x ∈ below ↔ x ≠ top ∧ Below parent x top) {x r : α} (hx : Below parent x r)
    (hr : parent r = none) : Below (fun x => if x ∈ below then some top else parent x) x r := by
  have hout : ∀ y, y ∉ below → Below parent y r →
      Below (fun x => if x ∈ below then some top else parent x) y r := by
    intro y hy hyr
    induction hyr using Relation.ReflTransGen.head_induction_on with
    | refl => exact Below.refl r
    | @head y z hyz _ ih =>
        refine Below.trans (Below.step ?_) (ih (h.parent_outside hbelow hy hyz).1)
        simp only [hy, ↓reduceIte]
        exact hyz
  by_cases hxb : x ∈ below
  · have htop : Below parent top r := by
      rcases ((hbelow x).mp hxb).2.chain hx with htr | hrt
      · exact htr
      · rw [hrt.eq_of_root hr]
        exact Below.refl top
    refine Below.trans (Below.step ?_) (hout top (fun ht => ((hbelow top).mp ht).1 rfl) htop)
    simp only [hxb, ↓reduceIte]
  · exact hout x hxb hx

end IsForest

/-! ## Walking -/

/-- The nodes a walk pops from a stack, when each popped node's children replace it. -/
inductive Visits (children : α → List α) : List α → List α → Prop where
  | nil : Visits children [] []
  | pop {x : α} {stack order : List α} (rest : Visits children (children x ++ stack) order) :
      Visits children (x :: stack) (x :: order)

namespace Visits

theorem append {xs ys as bs : List α} (hx : Visits children xs as) (hy : Visits children ys bs) :
    Visits children (xs ++ ys) (as ++ bs) := by
  induction hx with
  | nil => exact hy
  | @pop x stack order rest ih =>
      rw [List.cons_append, List.cons_append]
      exact pop (by rw [← List.append_assoc]; exact ih)

/-- The walk from two stacks one after the other is the two walks one after the other. -/
theorem split (xs : List α) {ys order : List α} (h : Visits children (xs ++ ys) order) :
    ∃ as bs, order = as ++ bs ∧ Visits children xs as ∧ Visits children ys bs := by
  generalize hstack : xs ++ ys = stack at h
  induction h generalizing xs with
  | nil =>
      obtain ⟨rfl, rfl⟩ := List.append_eq_nil_iff.mp hstack
      exact ⟨[], [], rfl, nil, nil⟩
  | @pop x stack order rest ih =>
      cases xs with
      | nil =>
          obtain rfl : ys = x :: stack := hstack
          exact ⟨[], x :: order, rfl, nil, pop rest⟩
      | cons y xs =>
          obtain ⟨rfl, rfl⟩ := List.cons.inj hstack
          obtain ⟨as, bs, rfl, has, hbs⟩ := ih (children y ++ xs) (List.append_assoc _ _ _)
          exact ⟨y :: as, bs, rfl, pop has, hbs⟩

end Visits

/-- Walking works on the children in any order. -/
theorem IsForest.exists_visits (h : IsForest parent children) {kids : α → List α}
    (hkids : ∀ x, (kids x).Perm (children x)) (stack : List α) :
    ∃ order, Visits kids stack order := by
  obtain ⟨rank, bound, hrank, -⟩ := h.ranked
  have hstack : ∀ k, ∀ stack : List α, (∀ x ∈ stack, rank x < k) → ∃ order, Visits kids stack order := by
    intro k
    induction k with
    | zero =>
        intro stack hlt
        cases stack with
        | nil => exact ⟨[], Visits.nil⟩
        | cons x stack => exact absurd (hlt x (by simp)) (Nat.not_lt_zero _)
    | succ k ih =>
        intro stack
        induction stack with
        | nil => exact fun _ => ⟨[], Visits.nil⟩
        | cons x stack ihs =>
            intro hlt
            obtain ⟨as, has⟩ := ih (kids x) (fun c hc => by
              have hcp := (h.mem_children x c).mp ((hkids x).mem_iff.mp hc)
              have h1 := hrank c x hcp
              have h2 := hlt x (by simp)
              omega)
            obtain ⟨bs, hbs⟩ := ihs fun y hy => hlt y (by simp [hy])
            exact ⟨x :: (as ++ bs), Visits.pop (has.append hbs)⟩
  obtain ⟨m, hm⟩ : ∃ m, ∀ x ∈ stack, rank x < m := by
    induction stack with
    | nil => exact ⟨0, by simp⟩
    | cons x stack ih =>
        obtain ⟨m, hm⟩ := ih
        refine ⟨m + rank x + 1, fun y hy => ?_⟩
        rcases List.mem_cons.mp hy with rfl | hy
        · omega
        · have := hm y hy
          omega
  exact hstack m stack hm

/-- A walk visits what is below its starting nodes. -/
theorem IsForest.mem_visits (h : IsForest parent children) {kids : α → List α}
    (hkids : ∀ x, (kids x).Perm (children x)) {stack order : List α}
    (hv : Visits kids stack order) (y : α) : y ∈ order ↔ ∃ x ∈ stack, Below parent y x := by
  induction hv with
  | nil => simp
  | @pop x stack order _ ih =>
      have hx : Below parent y x ↔ y = x ∨ ∃ c ∈ kids x, Below parent y c := by
        rw [Below.cases_child]
        refine or_congr_right ⟨?_, ?_⟩
        · rintro ⟨c, hyc, hc⟩
          exact ⟨c, (hkids x).mem_iff.mpr ((h.mem_children x c).mpr hc), hyc⟩
        · rintro ⟨c, hc, hyc⟩
          exact ⟨c, hyc, (h.mem_children x c).mp ((hkids x).mem_iff.mp hc)⟩
      simp only [List.mem_cons, ih, List.mem_append, or_and_right, exists_or, exists_eq_left, hx,
        or_assoc]

/-- **A walk from unrelated nodes visits every node at most once.** -/
theorem IsForest.nodup_visits (h : IsForest parent children) {kids : α → List α}
    (hkids : ∀ x, (kids x).Perm (children x)) {stack order : List α}
    (hv : Visits kids stack order) (hstack : stack.Pairwise (Unrelated parent)) :
    order.Nodup := by
  induction hv with
  | nil => exact List.nodup_nil
  | @pop x stack order rest ih =>
      obtain ⟨hhead, htail⟩ := List.pairwise_cons.mp hstack
      have hchild : ∀ c ∈ kids x, parent c = some x := fun c hc =>
        (h.mem_children x c).mp ((hkids x).mem_iff.mp hc)
      refine List.nodup_cons.mpr ⟨fun hx => ?_, ih (List.pairwise_append.mpr ⟨?_, htail, ?_⟩)⟩
      · obtain ⟨z, hz, hxz⟩ := (h.mem_visits hkids rest x).mp hx
        rcases List.mem_append.mp hz with hz | hz
        · exact h.not_below_child (hchild z hz) hxz
        · exact (hhead z hz).1 hxz
      · refine ((hkids x).nodup_iff.mpr (h.nodup_children x)).imp_of_mem ?_
        intro a b ha hb hne
        exact h.unrelated_children (hchild a ha) (hchild b hb) hne
      · intro c hc w hw
        have hcx : Below parent c x := Below.step (hchild c hc)
        refine ⟨fun hcw => ?_, fun hwc => (hhead w hw).2 (hwc.trans hcx)⟩
        -- above `c` there is a chain, so `x` and `w` would be related
        rcases hcx.chain hcw with hxw | hwx
        · exact (hhead w hw).1 hxw
        · exact (hhead w hw).2 hwx

/-- A walk over numbers below `n` takes at most `n` steps. -/
theorem length_le_of_nodup {order : List ℕ} {n : ℕ} (hnodup : order.Nodup)
    (hlt : ∀ x ∈ order, x < n) : order.length ≤ n := by
  have hsub : order ⊆ List.range n := fun x hx => List.mem_range.mpr (hlt x hx)
  have := (hnodup.subperm hsub).length_le
  rwa [List.length_range] at this

/-! ## Climbing -/

/-- The node `n` links above a node, if there is one. -/
def climb (parent : α → Option α) : ℕ → α → Option α
  | 0, x => some x
  | n + 1, x => (parent x).bind (climb parent n)

@[simp] theorem climb_zero (x : α) : climb parent 0 x = some x := rfl

theorem climb_root {r : α} (hr : parent r = none) (n : ℕ) : climb parent (n + 1) r = none := by
  simp [climb, hr]

theorem climb_succ {x p : α} (hp : parent x = some p) (n : ℕ) :
    climb parent (n + 1) x = climb parent n p := by
  simp [climb, hp]

/-- The last link of a climb. -/
theorem climb_succ' {n : ℕ} {x y z : α} (hy : climb parent n x = some y) (hz : parent y = some z) :
    climb parent (n + 1) x = some z := by
  induction n generalizing x with
  | zero =>
      cases hy
      simp [climb, hz]
  | succ n ih =>
      cases hp : parent x with
      | none => simp [climb, hp] at hy
      | some p =>
          rw [climb_succ hp] at hy ⊢
          exact ih hy

/-- What is above a node is some number of links above it. -/
theorem below_iff_climb {x y : α} : Below parent x y ↔ ∃ n, climb parent n x = some y := by
  constructor
  · intro h
    induction h with
    | refl => exact ⟨0, rfl⟩
    | tail _ hstep ih =>
        obtain ⟨n, hn⟩ := ih
        exact ⟨n + 1, climb_succ' hn hstep⟩
  · rintro ⟨n, hn⟩
    induction n generalizing x with
    | zero =>
        cases hn
        exact Below.refl y
    | succ n ih =>
        cases hp : parent x with
        | none => simp [climb, hp] at hn
        | some p =>
            rw [climb_succ hp] at hn
            exact (Below.step hp).trans (ih hn)

/-- There is one root above a node, and one number of links up to it. -/
theorem climb_root_unique {m n : ℕ} {x r s : α} (hr : parent r = none) (hs : parent s = none)
    (hm : climb parent m x = some r) (hn : climb parent n x = some s) : m = n ∧ r = s := by
  induction m generalizing n x with
  | zero =>
      cases hm
      cases n with
      | zero => exact ⟨rfl, Option.some.inj hn⟩
      | succ n =>
          rw [climb_root hr] at hn
          cases hn
  | succ m ih =>
      cases hp : parent x with
      | none => simp [climb, hp] at hm
      | some p =>
          rw [climb_succ hp] at hm
          cases n with
          | zero =>
              cases hn
              rw [hs] at hp
              cases hp
          | succ n =>
              rw [climb_succ hp] at hn
              obtain ⟨rfl, hrs⟩ := ih hm hn
              exact ⟨rfl, hrs⟩

/-- A climb depends only on the links of the nodes it leaves. -/
theorem climb_congr {parent' : α → Option α} {n : ℕ} {x y : α} (hn : climb parent n x = some y)
    (h : ∀ z, Below parent x z → z ≠ y → parent' z = parent z) (hy : parent y = none) :
    climb parent' n x = some y := by
  induction n generalizing x with
  | zero => exact hn
  | succ n ih =>
      cases hp : parent x with
      | none => simp [climb, hp] at hn
      | some p =>
          have hne : x ≠ y := by
            rintro rfl
            rw [hy] at hp
            cases hp
          rw [climb_succ hp] at hn
          rw [climb_succ ((h x (Below.refl x) hne).trans hp)]
          exact ih hn fun z hz => h z ((Below.step hp).trans hz)

namespace IsForest

/-- The nodes that a climb passes are all different. -/
theorem exists_path (h : IsForest parent children) {n : ℕ} {x y : α} (hn : climb parent n x = some y) :
    ∃ path : List α, path.length = n + 1 ∧ path.Nodup ∧ ∀ z ∈ path, Below parent x z := by
  induction n generalizing x with
  | zero =>
      refine ⟨[x], rfl, List.nodup_singleton x, fun z hz => ?_⟩
      rw [List.mem_singleton.mp hz]
      exact Below.refl x
  | succ n ih =>
      cases hp : parent x with
      | none => simp [climb, hp] at hn
      | some p =>
          rw [climb_succ hp] at hn
          obtain ⟨path, hlen, hnodup, habove⟩ := ih hn
          refine ⟨x :: path, by rw [List.length_cons, hlen], List.nodup_cons.mpr ⟨fun hx => ?_, hnodup⟩, ?_⟩
          · exact h.not_below_child hp (habove x hx)
          · intro z hz
            rcases List.mem_cons.mp hz with rfl | hz
            · exact Below.refl z
            · exact (Below.step hp).trans (habove z hz)

/-- Among `bound` nodes nobody climbs further than that. -/
theorem climb_lt {parent : ℕ → Option ℕ} {children : ℕ → List ℕ} (h : IsForest parent children)
    {n x y bound : ℕ} (hlt : ∀ z, Below parent x z → z < bound) (hn : climb parent n x = some y) :
    n < bound := by
  obtain ⟨path, hlen, hnodup, habove⟩ := h.exists_path hn
  have := length_le_of_nodup hnodup fun z hz => hlt z (habove z hz)
  omega

end IsForest

end Nntp.Lib
