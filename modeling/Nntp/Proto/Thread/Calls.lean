import Nntp.Proto.Thread.Holder
import Nntp.Proto.Thread.Linking

/-!
# Calls in any order

`build_threads` inserts all records and links them afterwards. The arena does not depend on that order, nor
on records being numbered from zero: `WellLinked` holds after any calls of `insert`, `container_for_id`,
`link_references` and `set_parent`, as long as `set_parent` is given containers.

The articles are only ever compared with nothing, so an arena into which records were inserted under other
numbers is the arena of `Arena.Inv` under another name (`Arena.relabel`).
-/

namespace Nntp.Proto

open Nntp.Lib

/-- A container under another number for its record. -/
def Container.relabel (f : Nat → Nat) (c : Container) : Container := { c with article := c.article.map f }

namespace Arena

/-! ## The calls -/

inductive Call where
  | insert (index : Nat) (record : OverviewRecord)
  | containerForId (id : MessageId)
  | linkReferences (index : Nat) (record : OverviewRecord)
  | setParent (child parent : Nat)

/-- The arena after one call. -/
def call (a : Arena) : Call → Arena
  | .insert index record => a.insert index record
  | .containerForId id => (a.containerForId id).1
  | .linkReferences index record => a.linkReferences index record
  | .setParent child parent => a.setParent child parent

/-- `set_parent` is given containers. -/
def Legal (a : Arena) : Call → Prop
  | .setParent child parent => child < a.containers.length ∧ parent < a.containers.length
  | _ => True

/-- Each call is legal when it is made. -/
def LegalCalls : Arena → List Call → Prop
  | _, [] => True
  | a, c :: calls => a.Legal c ∧ LegalCalls (a.call c) calls

/-- The index of an inserted record. -/
def Call.inserted : Call → List Nat
  | .insert index _ => [index]
  | _ => []

/-! ## The walks with their backstops showing -/

/-- The containers that the walk of `first_article` looks at, if its steps are enough to empty the stack. -/
def firstArticleWalk (a : Arena) : Nat → List Nat → Option (List Nat)
  | 0, _ => none
  | _ + 1, [] => some []
  | steps + 1, current :: stack =>
      (firstArticleWalk a steps ((a.childrenOf current).reverse ++ stack)).map (current :: ·)

theorem firstArticleWalk_eq_some {a : Arena} {steps : Nat} {stack order : List Nat} :
    a.firstArticleWalk steps stack = some order ↔
      Visits (fun x => (a.childrenOf x).reverse) stack order ∧ order.length < steps := by
  induction steps generalizing stack order with
  | zero => simp [firstArticleWalk]
  | succ steps ih =>
      cases stack with
      | nil =>
          constructor
          · intro h
            cases h
            exact ⟨Visits.nil, Nat.succ_pos steps⟩
          · rintro ⟨hv, -⟩
            cases hv
            rfl
      | cons current stack =>
          unfold firstArticleWalk
          rw [Option.map_eq_some_iff]
          constructor
          · rintro ⟨rest, hrest, rfl⟩
            obtain ⟨hv, hlen⟩ := ih.mp hrest
            exact ⟨Visits.pop hv, Nat.succ_lt_succ hlen⟩
          · rintro ⟨hv, hlen⟩
            cases hv with
            | pop hv => exact ⟨_, ih.mpr ⟨hv, Nat.lt_of_succ_lt_succ hlen⟩, rfl⟩

/-- If its steps are enough, `first_article` is the least article that the walk meets. -/
theorem firstArticleLoop_eq_walk {a : Arena} {steps : Nat} {stack order : List Nat} {best : Option Nat}
    (h : a.firstArticleWalk steps stack = some order) :
    firstArticleLoop a steps stack best = (best.toList ++ a.articlesOf order).min? := by
  obtain ⟨hv, hlen⟩ := firstArticleWalk_eq_some.mp h
  exact firstArticleLoop_eq hv hlen

/-! ## What holds after the calls -/

/-- The arena after calls that inserted records under the indices `inserted`, in this order. -/
structure WellLinked (a : Arena) (inserted : List Nat) : Prop where
  parent_lt : ∀ c p, a.parentOf c = some p → c < a.containers.length ∧ p < a.containers.length
  /-- no container is above itself -/
  acyclic : ∀ c p, a.parentOf c = some p → ¬ Below a.parentOf p c
  mem_children : ∀ p c, c ∈ a.childrenOf p ↔ a.parentOf c = some p
  nodup_children : ∀ p, (a.childrenOf p).Nodup
  /-- the container of each record, -/
  held : a.byArticle.map a.articleOf = inserted.map some
  /-- which is another one for each record, -/
  held_once : a.byArticle.Nodup
  /-- and nothing else is held -/
  only_held : ∀ c i, a.articleOf c = some i → c ∈ a.byArticle
  isAncestor_iff : ∀ candidate id, id < a.containers.length →
    (a.isAncestor candidate id = true ↔ Below a.parentOf id candidate)
  /-- the backstop of `is_ancestor` does not decide -/
  isAncestor_walk : ∀ candidate id, id < a.containers.length →
    a.isAncestorWalk candidate (a.containers.length + 1) (some id) = some (a.isAncestor candidate id)
  /-- the limit of `first_article` cuts nothing off -/
  firstArticle_walk : ∀ id, id < a.containers.length →
    ∃ order, a.firstArticleWalk (a.containers.length + 1) [id] = some order ∧ order.Nodup ∧
      (∀ x, x ∈ order ↔ Below a.parentOf x id) ∧
      a.firstArticle id = ((a.articleOf id).toList ++ a.articlesOf order).min?
  firstArticle_iff : ∀ id, id < a.containers.length →
    ∀ i, a.firstArticle id = some i ↔ IsLeast (a.articlesBelow id) i

/-- A record whose index is its own is held by exactly one container. -/
theorem WellLinked.existsUnique_held {a : Arena} {inserted : List Nat} (h : WellLinked a inserted)
    (hnodup : inserted.Nodup) {i : Nat} (hi : i ∈ inserted) : ∃! c, a.articleOf c = some i := by
  have hmem : some i ∈ a.byArticle.map a.articleOf := by
    rw [h.held]
    exact List.mem_map_of_mem hi
  obtain ⟨c, hc, hart⟩ := List.mem_map.mp hmem
  refine ⟨c, hart, fun c' hart' => ?_⟩
  have hinj : (a.byArticle.map a.articleOf).Nodup := by
    rw [h.held]
    exact hnodup.map (Option.some_injective _)
  exact List.inj_on_of_nodup_map hinj (h.only_held c' i hart') hc (hart'.trans hart.symm)

/-! ## Other numbers for the records -/

/-- The arena with other indices for the records. -/
def relabel (f : Nat → Nat) (a : Arena) : Arena :=
  { a with containers := a.containers.map (Container.relabel f) }

section Relabel

variable (f : Nat → Nat) (a : Arena)

@[simp] theorem relabel_length : (a.relabel f).containers.length = a.containers.length := by
  simp [relabel]

@[simp] theorem relabel_byId : (a.relabel f).byId = a.byId := rfl

@[simp] theorem relabel_byArticle : (a.relabel f).byArticle = a.byArticle := rfl

@[simp] theorem relabel_parentOf : (a.relabel f).parentOf = a.parentOf := by
  funext id
  simp only [parentOf, relabel, List.getElem?_map]
  cases a.containers[id]? <;> rfl

@[simp] theorem relabel_childrenOf : (a.relabel f).childrenOf = a.childrenOf := by
  funext id
  simp only [childrenOf, relabel, List.getElem?_map]
  cases a.containers[id]? <;> rfl

@[simp] theorem relabel_articleOf (id : Nat) : (a.relabel f).articleOf id = (a.articleOf id).map f := by
  simp only [articleOf, relabel, List.getElem?_map]
  cases a.containers[id]? <;> rfl

theorem relabel_newContainer (article : Option Nat) :
    (a.relabel f).newContainer (article.map f) =
      ((a.newContainer article).1.relabel f, (a.newContainer article).2) := by
  simp [newContainer, relabel, Container.relabel]

theorem relabel_isAncestor (candidate id : Nat) :
    (a.relabel f).isAncestor candidate id = a.isAncestor candidate id := by
  have hloop : ∀ steps node,
      isAncestorLoop (a.relabel f) candidate steps node = isAncestorLoop a candidate steps node := by
    intro steps
    induction steps with
    | zero => exact fun _ => rfl
    | succ steps ih =>
        intro node
        cases node with
        | none => rfl
        | some node =>
            unfold isAncestorLoop
            rw [relabel_parentOf, ih]
  unfold isAncestor
  rw [hloop, relabel_length]

/-- An edit of one container, before and after the renumbering. -/
theorem map_modify_relabel (containers : List Container) (id : Nat) (edit edit' : Container → Container)
    (hedit : ∀ c, edit' (c.relabel f) = (edit c).relabel f) :
    (containers.map (Container.relabel f)).modify id edit' =
      (containers.modify id edit).map (Container.relabel f) := by
  refine List.ext_getElem? fun k => ?_
  simp only [List.getElem?_modify, List.getElem?_map]
  cases containers[k]? with
  | none => rfl
  | some c => by_cases hk : id = k <;> simp [hk, hedit]

/-- `insert` does not look at the index. -/
theorem relabel_insert (index : Nat) (record : OverviewRecord) :
    (a.relabel f).insert (f index) record = (a.insert index record).relabel f := by
  have hnew := relabel_newContainer f a (some index)
  rw [Option.map_some] at hnew
  unfold insert
  cases record.messageId with
  | none =>
      dsimp only
      rw [hnew]
      rfl
  | some id =>
      dsimp only [relabel_byId]
      cases hlook : a.byId.lookup id.asStr with
      | none =>
          dsimp only
          rw [hnew]
          rfl
      | some existing =>
          dsimp only
          rw [relabel_articleOf, Option.isNone_map]
          split
          · have hfill := map_modify_relabel f a.containers existing (fun c => { c with article := some index })
              (fun c => { c with article := some (f index) }) fun _ => rfl
            unfold relabel
            rw [hfill]
          · rw [hnew]
            rfl

theorem relabel_containerForId (id : MessageId) :
    (a.relabel f).containerForId id = ((a.containerForId id).1.relabel f, (a.containerForId id).2) := by
  unfold containerForId
  rw [relabel_byId]
  cases hlook : a.byId.lookup id.asStr with
  | none =>
      dsimp only
      rw [show (none : Option Nat) = none.map f from rfl, relabel_newContainer]
      rfl
  | some existing => rfl

theorem relabel_setParent (child parent : Nat) :
    (a.relabel f).setParent child parent = (a.setParent child parent).relabel f := by
  unfold setParent
  rw [relabel_parentOf, relabel_isAncestor]
  split
  · rfl
  · split
    · rfl
    · have hchild := map_modify_relabel f a.containers child (fun c => { c with parent := some parent })
        (fun c => { c with parent := some parent }) fun _ => rfl
      have hparent := map_modify_relabel f
        (a.containers.modify child fun c => { c with parent := some parent }) parent
        (fun c => { c with children := c.children ++ [child] })
        (fun c => { c with children := c.children ++ [child] }) fun _ => rfl
      unfold relabel
      dsimp only
      rw [hchild, hparent]

theorem relabel_linkChain (references : List MessageId) :
    ∀ (a : Arena) (previous : Option Nat), linkChain (a.relabel f) previous references =
      ((linkChain a previous references).1.relabel f, (linkChain a previous references).2) := by
  induction references with
  | nil => exact fun _ _ => rfl
  | cons reference references ih =>
      intro a previous
      unfold linkChain
      rw [relabel_containerForId]
      cases previous with
      | none => exact ih _ _
      | some parent =>
          dsimp only
          rw [relabel_setParent]
          exact ih _ _

theorem relabel_linkReferences (index : Nat) (record : OverviewRecord) :
    (a.relabel f).linkReferences index record = (a.linkReferences index record).relabel f := by
  unfold linkReferences
  rw [relabel_byArticle]
  cases a.byArticle[index]? with
  | none => rfl
  | some child =>
      dsimp only
      rw [relabel_linkChain]
      cases hchain : linkChain a none _ with
      | mk b previous =>
          cases previous with
          | none => rfl
          | some parent => exact relabel_setParent f b child parent

/-- Only the numbers that are in use count. -/
theorem relabel_congr {g : Nat → Nat} (h : ∀ c i, a.articleOf c = some i → f i = g i) :
    a.relabel f = a.relabel g := by
  unfold relabel
  congr 1
  refine List.map_congr_left fun c hc => ?_
  obtain ⟨id, hid⟩ := List.mem_iff_getElem?.mp hc
  have hart : a.articleOf id = c.article := by simp [articleOf, hid]
  unfold Container.relabel
  cases hcontainer : c.article with
  | none => rfl
  | some i => rw [Option.map_some, Option.map_some, h id i (hart.trans hcontainer)]

end Relabel

/-! ## Every run -/

/-- An arena of `Inv` whose records go by the numbers they were inserted under. -/
def Numbered (a : Arena) (inserted : List Nat) : Prop :=
  ∃ b : Arena, Inv b inserted.length ∧ a = b.relabel fun k => inserted.getD k 0

theorem empty_numbered : Numbered empty [] := ⟨empty, empty_inv, rfl⟩

/-- One call keeps it. -/
theorem Numbered.call {a : Arena} {inserted : List Nat} (h : Numbered a inserted) {c : Call}
    (hlegal : a.Legal c) : Numbered (a.call c) (inserted ++ c.inserted) := by
  obtain ⟨b, hinv, rfl⟩ := h
  generalize hf : (fun k => inserted.getD k 0) = f at hlegal ⊢
  have hkeep : ∀ {b' : Arena}, Inv b' inserted.length → Numbered (b'.relabel f) (inserted ++ []) := by
    intro b' hb'
    rw [List.append_nil]
    exact ⟨b', hb', by rw [hf]⟩
  cases c with
  | insert index record =>
      refine ⟨b.insert inserted.length record, ?_, ?_⟩
      · rw [List.length_append]
        exact hinv.insert record
      · -- the numbers so far stay, and the new one is the last
        generalize hg : (fun k => (inserted ++ Call.inserted (.insert index record)).getD k 0) = g
        have hlast : g inserted.length = index := by
          rw [← hg]
          simp [Call.inserted]
        have hsame : b.relabel f = b.relabel g := by
          refine relabel_congr f b fun c i hart => ?_
          have hi : i < inserted.length := by
            have := (List.getElem?_eq_some_iff.mp ((hinv.article_iff c i).mp hart)).1
            rwa [hinv.byArticle_length] at this
          rw [← hf, ← hg]
          simp [List.getElem?_append_left hi]
        show (b.relabel f).insert index record = _
        rw [hsame, ← relabel_insert, hlast]
  -- the other calls hold no new record, and the numbers stay
  | containerForId id =>
      show Numbered ((b.relabel f).containerForId id).1 _
      rw [relabel_containerForId]
      exact hkeep (hinv.containerForId id).1
  | linkReferences index record =>
      show Numbered ((b.relabel f).linkReferences index record) _
      rw [relabel_linkReferences]
      exact hkeep (hinv.linkReferences index record)
  | setParent child parent =>
      obtain ⟨hchild, hparent⟩ : child < b.containers.length ∧ parent < b.containers.length := by
        simpa [Legal] using hlegal
      show Numbered ((b.relabel f).setParent child parent) _
      rw [relabel_setParent]
      exact hkeep (hinv.setParent hchild hparent).1

theorem Numbered.calls {calls : List Call} : ∀ {a : Arena} {inserted : List Nat}, Numbered a inserted →
    a.LegalCalls calls → Numbered (calls.foldl Arena.call a) (inserted ++ calls.flatMap Call.inserted) := by
  induction calls with
  | nil =>
      intro a inserted h _
      rw [List.flatMap_nil, List.append_nil]
      exact h
  | cons c calls ih =>
      intro a inserted h hlegal
      have := ih (h.call hlegal.1) hlegal.2
      rwa [List.append_assoc, ← List.flatMap_cons] at this

/-- The containers of the records, in the order of the records, hold their numbers. -/
theorem Inv.held_relabel {b : Arena} {inserted : List Nat} (hinv : Inv b inserted.length) :
    b.byArticle.map (b.relabel fun k => inserted.getD k 0).articleOf = inserted.map some := by
  refine List.ext_getElem? fun k => ?_
  rw [List.getElem?_map, List.getElem?_map]
  cases hk : b.byArticle[k]? with
  | none =>
      have hlen := List.getElem?_eq_none_iff.mp hk
      rw [hinv.byArticle_length] at hlen
      rw [List.getElem?_eq_none hlen]
      rfl
  | some c =>
      have hlt := (List.getElem?_eq_some_iff.mp hk).1
      rw [hinv.byArticle_length] at hlt
      rw [Option.map_some, relabel_articleOf, (hinv.article_iff c k).mpr hk, List.getElem?_eq_getElem hlt]
      simp [List.getElem?_eq_getElem hlt]

/-- Two records are not held by one container: it has one number. -/
theorem Inv.byArticle_nodup {b : Arena} {records : Nat} (hinv : Inv b records) : b.byArticle.Nodup := by
  rw [List.nodup_iff_injective_get]
  intro j k hjk
  have hj := (hinv.article_iff _ _).mpr (List.getElem?_eq_getElem j.isLt)
  have hk := (hinv.article_iff _ _).mpr (List.getElem?_eq_getElem k.isLt)
  have heq : b.byArticle[j.val] = b.byArticle[k.val] := hjk
  rw [← heq, hj] at hk
  exact Fin.ext (Option.some.inj hk)

/-- What a numbered arena is like. -/
theorem Numbered.wellLinked {a : Arena} {inserted : List Nat} (h : Numbered a inserted) :
    WellLinked a inserted := by
  obtain ⟨b, hinv, ha⟩ := h
  have hforest : a.Forest := by
    rw [ha]
    refine ⟨?_, ?_⟩
    · rw [relabel_parentOf, relabel_childrenOf]
      exact hinv.forest
    · rw [relabel_parentOf, relabel_length]
      exact hinv.parent_lt
  refine ⟨fun c p hp => ⟨parentOf_lt hp, hforest.parent_lt c p hp⟩, fun c p => hforest.links.not_below_child,
    hforest.links.mem_children, hforest.links.nodup_children, ?_, ?_, ?_,
    fun candidate id hid => hforest.isAncestor_iff hid,
    fun candidate id hid => hforest.isAncestorWalk_eq candidate hid, ?_,
    fun id hid i => hforest.firstArticle_eq_some hid⟩
  · rw [ha, relabel_byArticle]
    exact hinv.held_relabel
  · rw [ha, relabel_byArticle]
    exact hinv.byArticle_nodup
  · intro c i hart
    rw [ha, relabel_articleOf] at hart
    obtain ⟨k, hk, -⟩ := Option.map_eq_some_iff.mp hart
    rw [ha, relabel_byArticle]
    exact List.mem_of_getElem? ((hinv.article_iff c k).mp hk)
  · intro id hid
    obtain ⟨order, hv, hnodup, hlen, hmem⟩ := hforest.exists_walk
      (fun x => List.reverse_perm (a.childrenOf x)) (List.pairwise_singleton _ id) (by simpa using hid)
    -- no container is met twice, so the walk is no longer than there are containers
    have hwalk := firstArticleWalk_eq_some.mpr ⟨hv, Nat.lt_succ_of_le hlen⟩
    exact ⟨order, hwalk, hnodup, by simpa using hmem, firstArticleLoop_eq_walk hwalk⟩

/-- **The arena after any calls**: acyclic links that agree both ways, each record held once, and two walks
whose backstops are never needed. -/
theorem calls_wellLinked {calls : List Call} (hlegal : empty.LegalCalls calls) :
    WellLinked (calls.foldl call empty) (calls.flatMap Call.inserted) ∧
      ((calls.flatMap Call.inserted).Nodup → ∀ i ∈ calls.flatMap Call.inserted,
        ∃! c, (calls.foldl call empty).articleOf c = some i) := by
  have hlinked := (empty_numbered.calls hlegal).wellLinked
  rw [List.nil_append] at hlinked
  exact ⟨hlinked, fun hnodup _ hi => hlinked.existsUnique_held hnodup hi⟩

/-- Two articles that answer each other, and a third container under the first of them. -/
def quarrel : List Call :=
  [.insert 7 (articleWith answerId [thanksId]), .insert 3 (articleWith thanksId [answerId]),
    .containerForId otherId, .linkReferences 0 (articleWith answerId [thanksId]),
    .linkReferences 1 (articleWith thanksId [answerId]), .setParent 2 0]

theorem calls_wellLinked_quarrel :
    empty.LegalCalls quarrel ∧ (quarrel.flatMap Call.inserted).Nodup ∧
      WellLinked (quarrel.foldl call empty) [7, 3] ∧ ∃! c, (quarrel.foldl call empty).articleOf c = some 3 := by
  have hlegal : empty.LegalCalls quarrel :=
    ⟨trivial, trivial, trivial, trivial, trivial, ⟨by decide +kernel, by decide +kernel⟩, trivial⟩
  have hnodup : (quarrel.flatMap Call.inserted).Nodup := by decide
  obtain ⟨hlinked, honce⟩ := calls_wellLinked hlegal
  exact ⟨hlegal, hnodup, hlinked, honce hnodup 3 (by decide)⟩

end Arena

end Nntp.Proto
