import Mathlib.Data.List.Pairwise
import Mathlib.Data.List.TakeWhile
import Mathlib.Order.Defs.PartialOrder

/-!
# Slice searches

The searches a sorted slice offers and the edits a vector offers, by what their documentation
promises, and the facts that let a proof replace an index by the split of the list it stands for.
-/

namespace Nntp.Lib

variable {α : Type*}

/-- `xs.partition_point(p)`: the index of the first element that `p` fails on, or the length. -/
def partitionPoint (p : α → Bool) (xs : List α) : Nat := xs.findIdx fun x => !p x

/-- The index part of `slice::binary_search_by`: `.ok i` where element `i` has key `target`,
`.error i` where `i` is the position that keeps the slice sorted by key. -/
def binarySearchByKey {κ : Type*} [LT κ] [DecidableLT κ] [DecidableEq κ]
    (key : α → κ) (target : κ) (xs : List α) : Except Nat Nat :=
  let index := partitionPoint (fun x => decide (key x < target)) xs
  match xs[index]? with
  | some x => if key x = target then .ok index else .error index
  | none => .error index

/-- `Vec::splice(from..to, new)`: the elements from index `start` up to `stop` give way to `new`. -/
def splice (xs : List α) (start stop : Nat) (new : List α) : List α :=
  xs.take start ++ new ++ xs.drop stop

/-- What `Vec::dedup_by_key` keeps after an element with key `last`. -/
def dedupAfter {κ : Type*} [DecidableEq κ] (key : α → κ) (last : κ) : List α → List α
  | [] => []
  | x :: xs => if key x = last then dedupAfter key last xs else x :: dedupAfter key (key x) xs

/-- `Vec::dedup_by_key`: of neighbours with one key the first stays. -/
def dedupByKey {κ : Type*} [DecidableEq κ] (key : α → κ) : List α → List α
  | [] => []
  | x :: xs => x :: dedupAfter key (key x) xs

/-! ## Splits instead of indices -/

/-- On a list where `p` can only turn from true to false, the partition point is the length of the
part on which `p` holds. -/
theorem partitionPoint_spec {p : α → Bool} {R : α → α → Prop} {xs : List α}
    (hpw : xs.Pairwise R) (hmono : ∀ a b, R a b → p b = true → p a = true) :
    ∃ as bs, xs = as ++ bs ∧ partitionPoint p xs = as.length ∧
      (∀ a ∈ as, p a = true) ∧ ∀ b ∈ bs, p b = false := by
  induction xs with
  | nil => exact ⟨[], [], rfl, rfl, by simp, by simp⟩
  | cons x xs ih =>
      obtain ⟨hx, hxs⟩ := List.pairwise_cons.mp hpw
      unfold partitionPoint
      rw [List.findIdx_cons]
      cases hpx : p x with
      | false =>
          refine ⟨[], x :: xs, rfl, by simp, by simp, ?_⟩
          intro b hb
          rcases List.mem_cons.mp hb with rfl | hb
          · exact hpx
          · by_contra hpb
            have := hmono x b (hx b hb) (by simpa using hpb)
            rw [hpx] at this
            exact absurd this (by simp)
      | true =>
          obtain ⟨as, bs, rfl, hpoint, has, hbs⟩ := ih hxs
          refine ⟨x :: as, bs, rfl, by simpa [partitionPoint] using hpoint, ?_, hbs⟩
          intro a ha
          rcases List.mem_cons.mp ha with rfl | ha
          · exact hpx
          · exact has a ha

theorem partitionPoint_append {p : α → Bool} {as : List α} (has : ∀ a ∈ as, p a = true)
    (bs : List α) : partitionPoint p (as ++ bs) = as.length + partitionPoint p bs := by
  induction as with
  | nil => simp
  | cons a as ih =>
      have ha : p a = true := has a (by simp)
      have ih := ih fun x hx => has x (by simp [hx])
      unfold partitionPoint at ih ⊢
      rw [List.cons_append, List.findIdx_cons, ih]
      simp [ha]
      omega

@[simp] theorem splice_append (as ms bs new : List α) :
    splice (as ++ ms ++ bs) as.length (as ++ ms).length new = as ++ new ++ bs := by
  have htake : (as ++ ms ++ bs).take as.length = as := by
    rw [List.append_assoc, List.take_left]
  unfold splice
  rw [htake, List.drop_left]

theorem splice_middle (as : List α) (m : α) (bs new : List α) :
    splice (as ++ m :: bs) as.length (as.length + 1) new = as ++ new ++ bs := by
  have := splice_append as [m] bs new
  simpa using this

/-- A binary search, on a slice sorted by key, splits it into the smaller keys and the others and
looks at the first of the others. -/
theorem binarySearchByKey_spec {κ : Type*} [LT κ] [DecidableLT κ] [DecidableEq κ]
    (key : α → κ) {R : α → α → Prop} {xs : List α} (target : κ) (hpw : xs.Pairwise R)
    (hmono : ∀ a b, R a b → key b < target → key a < target) :
    ∃ as bs, xs = as ++ bs ∧ (∀ a ∈ as, key a < target) ∧ (∀ b ∈ bs, ¬ key b < target) ∧
      binarySearchByKey key target xs =
        match bs with
        | b :: _ => if key b = target then .ok as.length else .error as.length
        | [] => .error as.length := by
  obtain ⟨as, bs, rfl, hpoint, has, hbs⟩ :=
    partitionPoint_spec (p := fun x => decide (key x < target)) hpw
      (fun a b hab hb => by simpa using hmono a b hab (by simpa using hb))
  refine ⟨as, bs, rfl, fun a ha => by simpa using has a ha, fun b hb => by simpa using hbs b hb, ?_⟩
  unfold binarySearchByKey
  rw [hpoint]
  cases bs with
  | nil => simp
  | cons b bs => simp

/-! ## Neighbours with one key -/

section Dedup

variable {κ : Type*} [DecidableEq κ] {key : α → κ} {k last : κ}

theorem dedupAfter_sublist (last : κ) (xs : List α) : List.Sublist (dedupAfter key last xs) xs := by
  induction xs generalizing last with
  | nil => exact List.Sublist.refl _
  | cons x xs ih =>
      unfold dedupAfter
      split
      · exact (ih last).cons x
      · exact (ih (key x)).cons_cons x

theorem dedupByKey_sublist (key : α → κ) (xs : List α) : List.Sublist (dedupByKey key xs) xs := by
  cases xs with
  | nil => exact List.Sublist.refl _
  | cons x xs => exact (dedupAfter_sublist (key x) xs).cons_cons x

theorem find?_dedupAfter (hk : last ≠ k) (xs : List α) :
    (dedupAfter key last xs).find? (fun a => decide (key a = k)) =
      xs.find? fun a => decide (key a = k) := by
  induction xs generalizing last with
  | nil => rfl
  | cons x xs ih =>
      unfold dedupAfter
      split
      · next hx =>
          rw [ih hk, List.find?_cons_of_neg]
          simpa [hx] using hk
      · by_cases hx : key x = k
        · rw [List.find?_cons_of_pos (by simpa using hx), List.find?_cons_of_pos (by simpa using hx)]
        · rw [List.find?_cons_of_neg (by simpa using hx), List.find?_cons_of_neg (by simpa using hx),
            ih hx]

/-- What stays for a key is the first of its elements. -/
theorem find?_dedupByKey (xs : List α) :
    (dedupByKey key xs).find? (fun a => decide (key a = k)) =
      xs.find? fun a => decide (key a = k) := by
  cases xs with
  | nil => rfl
  | cons x xs =>
      show (x :: dedupAfter key (key x) xs).find? _ = _
      by_cases hx : key x = k
      · rw [List.find?_cons_of_pos (by simpa using hx), List.find?_cons_of_pos (by simpa using hx)]
      · rw [List.find?_cons_of_neg (by simpa using hx), List.find?_cons_of_neg (by simpa using hx),
          find?_dedupAfter hx]

theorem pairwise_dedupAfter [PartialOrder κ] {xs : List α} (h : xs.Pairwise fun a b => key a ≤ key b)
    (hlast : ∀ x ∈ xs, last ≤ key x) :
    (dedupAfter key last xs).Pairwise (fun a b => key a < key b) ∧
      ∀ x ∈ dedupAfter key last xs, last < key x := by
  induction xs generalizing last with
  | nil => exact ⟨List.Pairwise.nil, fun x hx => (by cases hx)⟩
  | cons x xs ih =>
      obtain ⟨hx, hxs⟩ := List.pairwise_cons.mp h
      unfold dedupAfter
      split
      · exact ih hxs fun y hy => hlast y (List.mem_cons_of_mem _ hy)
      · next hne =>
          have hlt : last < key x := lt_of_le_of_ne (hlast x List.mem_cons_self) (Ne.symm hne)
          obtain ⟨hpairwise, habove⟩ := ih hxs hx
          refine ⟨List.pairwise_cons.mpr ⟨habove, hpairwise⟩, ?_⟩
          intro y hy
          rcases List.mem_cons.mp hy with rfl | hy
          · exact hlt
          · exact lt_trans hlt (habove y hy)

/-- In a list that is in order no key is left twice. -/
theorem pairwise_dedupByKey [PartialOrder κ] {xs : List α}
    (h : xs.Pairwise fun a b => key a ≤ key b) :
    (dedupByKey key xs).Pairwise fun a b => key a < key b := by
  cases xs with
  | nil => exact List.Pairwise.nil
  | cons x xs =>
      obtain ⟨hx, hxs⟩ := List.pairwise_cons.mp h
      obtain ⟨hpairwise, habove⟩ := pairwise_dedupAfter hxs hx
      exact List.pairwise_cons.mpr ⟨habove, hpairwise⟩

/-- Keys that are told apart in another way make no difference. -/
theorem dedupByKey_injective {κ' : Type*} [DecidableEq κ'] {f : κ → κ'} (hf : Function.Injective f) (xs : List α) :
    dedupByKey (fun x => f (key x)) xs = dedupByKey key xs := by
  have hafter : ∀ (xs : List α) (last : κ), dedupAfter (fun x => f (key x)) (f last) xs = dedupAfter key last xs := by
    intro xs
    induction xs with
    | nil => exact fun last => rfl
    | cons x xs ih =>
        intro last
        unfold dedupAfter
        rw [ih, ih]
        exact if_congr hf.eq_iff rfl rfl
  cases xs with
  | nil => rfl
  | cons x xs => exact congrArg (x :: ·) (hafter xs (key x))

/-- What the key decides is kept. -/
theorem mem_map_dedupByKey {β : Type*} {f : α → β} {xs : List α}
    (h : ∀ x ∈ xs, ∀ y ∈ xs, key x = key y → f x = f y) {b : β} :
    b ∈ (dedupByKey key xs).map f ↔ b ∈ xs.map f := by
  refine ⟨fun hb => ((dedupByKey_sublist key xs).map f).subset hb, fun hb => ?_⟩
  obtain ⟨x, hx, rfl⟩ := List.mem_map.mp hb
  have hfound : (xs.find? fun y => decide (key y = key x)).isSome = true :=
    List.find?_isSome.mpr ⟨x, hx, decide_eq_true rfl⟩
  obtain ⟨y, hy⟩ := Option.isSome_iff_exists.mp hfound
  have hkey : key y = key x := by simpa using List.find?_some hy
  rw [← find?_dedupByKey] at hy
  have hmem := List.mem_of_find?_eq_some hy
  rw [← h y ((dedupByKey_sublist key xs).subset hmem) x hx hkey]
  exact List.mem_map_of_mem hmem

end Dedup

/-- Lists whose keys ascend are the same if they have the same elements. -/
theorem eq_of_ascending {κ : Type*} [Preorder κ] {key : α → κ} {xs ys : List α}
    (hxs : xs.Pairwise fun a b => key a < key b) (hys : ys.Pairwise fun a b => key a < key b)
    (h : ∀ a, a ∈ xs ↔ a ∈ ys) : xs = ys := by
  have hnodup : ∀ {zs : List α}, (zs.Pairwise fun a b => key a < key b) → zs.Nodup := by
    intro zs hzs
    refine hzs.imp fun hlt heq => ?_
    rw [heq] at hlt
    exact lt_irrefl _ hlt
  refine List.Perm.eq_of_pairwise ?_ hxs hys ((List.perm_ext_iff_of_nodup (hnodup hxs) (hnodup hys)).mpr h)
  exact fun a b _ _ hab hba => absurd (hab.trans hba) (lt_irrefl _)

/-- A stable sort leaves the elements of one class in the order they were in. -/
theorem filter_mergeSort {le : α → α → Bool} {p : α → Bool}
    (htrans : ∀ a b c, le a b = true → le b c = true → le a c = true)
    (htotal : ∀ a b, (le a b || le b a) = true)
    (hp : ∀ a b, p a = true → p b = true → le a b = true) (xs : List α) :
    (xs.mergeSort le).filter p = xs.filter p := by
  have hordered : (xs.filter p).Pairwise fun a b => le a b = true :=
    List.pairwise_of_forall_mem_list fun a ha b hb =>
      hp a b ((List.mem_filter.mp ha).2) ((List.mem_filter.mp hb).2)
  have hsub : List.Sublist (xs.filter p) (xs.mergeSort le) :=
    List.sublist_mergeSort htrans htotal hordered List.filter_sublist
  have hsub' : List.Sublist (xs.filter p) ((xs.mergeSort le).filter p) := by
    have h := hsub.filter p
    rwa [List.filter_filter, List.filter_congr fun a _ => Bool.and_self (p a)] at h
  exact (hsub'.eq_of_length ((List.mergeSort_perm xs le).filter p).length_eq.symm).symm

end Nntp.Lib
