import Nntp.Lib.Forest
import Nntp.Proto.Overview

/-!
# The arena of containers

The first two phases of `thread.rs`: a container for each record and for each message-id that is
only referred to, linked to the parents that the records' references name.

`Arena.Inv` is what every operation keeps: the links are a forest, and the containers that hold an
article correspond one to one to the records inserted so far.
-/

namespace Nntp.Proto

open Nntp.Lib

/-- How many of an article's references are considered, counting back from its parent. -/
def maxReferences : Nat := 64

/-- An article, its parent and its replies. -/
structure Container where
  article : Option Nat
  parent : Option Nat
  children : List Nat
  deriving DecidableEq, Repr

structure Arena where
  containers : List Container
  /-- Where each message-id lives. The first article claiming an id keeps it. -/
  byId : List (Str × Nat)
  /-- Container per input record, in record order. -/
  byArticle : List Nat
  deriving DecidableEq, Repr

namespace Arena

/-- `Arena::default()`. -/
def empty : Arena := ⟨[], [], []⟩

def articleOf (a : Arena) (id : Nat) : Option Nat := a.containers[id]?.bind (·.article)

def parentOf (a : Arena) (id : Nat) : Option Nat := a.containers[id]?.bind (·.parent)

/-- The children of a container, none for an id that is not one. -/
def childrenOf (a : Arena) (id : Nat) : List Nat := (a.containers[id]?.map (·.children)).getD []

def newContainer (a : Arena) (article : Option Nat) : Arena × Nat :=
  ({ a with containers := a.containers ++ [⟨article, none, []⟩] }, a.containers.length)

/-- Adds a container for one record. -/
def insert (a : Arena) (index : Nat) (record : OverviewRecord) : Arena :=
  match record.messageId with
  | none =>
      let (a, container) := a.newContainer (some index)
      { a with byArticle := a.byArticle ++ [container] }
  | some id =>
      match a.byId.lookup id.asStr with
      | some existing =>
          if (a.articleOf existing).isNone then
            -- a container made by a reference to this article was waiting for it
            { a with
              containers := a.containers.modify existing fun c => { c with article := some index }
              byArticle := a.byArticle ++ [existing] }
          else
            -- the second article with this id is shown, with no claim on the id
            let (a, container) := a.newContainer (some index)
            { a with byArticle := a.byArticle ++ [container] }
      | none =>
          let (a, container) := a.newContainer (some index)
          { a with
            byId := (id.asStr, container) :: a.byId
            byArticle := a.byArticle ++ [container] }

/-- Container for a message-id, creating an empty one if it is only referred to. -/
def containerForId (a : Arena) (id : MessageId) : Arena × Nat :=
  match a.byId.lookup id.asStr with
  | some existing => (a, existing)
  | none =>
      let (a, container) := a.newContainer none
      ({ a with byId := (id.asStr, container) :: a.byId }, container)

/-- The walk of `is_ancestor`, with its backstop on the number of steps. -/
def isAncestorLoop (a : Arena) (candidate : Nat) : Nat → Option Nat → Bool
  | 0, _ => true
  | _ + 1, none => false
  | steps + 1, some node =>
      if node = candidate then true else isAncestorLoop a candidate steps (a.parentOf node)

/-- Whether `candidate` is `id` or one of its ancestors. -/
def isAncestor (a : Arena) (candidate id : Nat) : Bool :=
  isAncestorLoop a candidate (a.containers.length + 1) (some id)

/-- Makes `parent` the parent of `child`, unless `child` has one already or the references describe
a cycle. -/
def setParent (a : Arena) (child parent : Nat) : Arena :=
  if child = parent ∨ (a.parentOf child).isSome then a
  else if a.isAncestor child parent then a
  else
    let containers := a.containers.modify child fun c => { c with parent := some parent }
    { a with
      containers := containers.modify parent fun c => { c with children := c.children ++ [child] } }

/-- The loop of `link_references` along a chain of references, oldest first. -/
def linkChain : Arena → Option Nat → List MessageId → Arena × Option Nat
  | a, previous, [] => (a, previous)
  | a, previous, reference :: references =>
      let (a, current) := a.containerForId reference
      let a := match previous with
        | some parent => a.setParent current parent
        | none => a
      linkChain a (some current) references

/-- Links an article to its references, and its references to each other. -/
def linkReferences (a : Arena) (index : Nat) (record : OverviewRecord) : Arena :=
  match a.byArticle[index]? with
  | none => a
  | some child =>
      let references := record.references.drop (record.references.length - maxReferences)
      match linkChain a none references with
      | (a, some parent) => a.setParent child parent
      | (a, none) => a

/-! ## What each edit changes -/

theorem parentOf_lt {a : Arena} {c p : Nat} (h : a.parentOf c = some p) :
    c < a.containers.length := by
  unfold parentOf at h
  by_contra hc
  rw [List.getElem?_eq_none (by omega)] at h
  cases h

theorem articleOf_lt {a : Arena} {c i : Nat} (h : a.articleOf c = some i) :
    c < a.containers.length := by
  unfold articleOf at h
  by_contra hc
  rw [List.getElem?_eq_none (by omega)] at h
  cases h

section NewContainer

variable (a : Arena) (article : Option Nat)

@[simp] theorem newContainer_snd : (a.newContainer article).2 = a.containers.length := rfl

@[simp] theorem newContainer_length :
    (a.newContainer article).1.containers.length = a.containers.length + 1 := by
  simp [newContainer]

@[simp] theorem newContainer_byId : (a.newContainer article).1.byId = a.byId := rfl

@[simp] theorem newContainer_byArticle : (a.newContainer article).1.byArticle = a.byArticle := rfl

theorem newContainer_getElem? (id : Nat) : (a.newContainer article).1.containers[id]? =
    if id = a.containers.length then some ⟨article, none, []⟩ else a.containers[id]? := by
  show (a.containers ++ [_])[id]? = _
  rcases Nat.lt_trichotomy id a.containers.length with h | h | h
  · rw [List.getElem?_append_left h, if_neg (by omega)]
  · subst h
    simp
  · rw [if_neg (by omega), List.getElem?_eq_none (by simp; omega),
      List.getElem?_eq_none (by omega)]

/-- A new container has no links. -/
@[simp] theorem newContainer_parentOf : (a.newContainer article).1.parentOf = a.parentOf := by
  funext id
  unfold parentOf
  rw [newContainer_getElem?]
  split
  · next h => subst h; simp
  · rfl

@[simp] theorem newContainer_childrenOf : (a.newContainer article).1.childrenOf = a.childrenOf := by
  funext id
  unfold childrenOf
  rw [newContainer_getElem?]
  split
  · next h => subst h; simp
  · rfl

theorem newContainer_articleOf (id : Nat) : (a.newContainer article).1.articleOf id =
    if id = a.containers.length then article else a.articleOf id := by
  unfold articleOf
  rw [newContainer_getElem?]
  split <;> rfl

end NewContainer

/-- What `set_parent` does when it does something. -/
theorem setParent_eq (a : Arena) {child parent : Nat} :
    a.setParent child parent = a ∨
      (a.parentOf child = none ∧ a.isAncestor child parent = false ∧
        a.setParent child parent =
          { a with
            containers :=
              (a.containers.modify child fun c => { c with parent := some parent }).modify parent
                fun c => { c with children := c.children ++ [child] } }) := by
  unfold setParent
  split
  · exact Or.inl rfl
  · next h =>
      split
      · exact Or.inl rfl
      · next hanc =>
          refine Or.inr ⟨?_, by simpa using hanc, rfl⟩
          rw [not_or] at h
          simpa using h.2

section SetParent

variable {a : Arena} {child parent : Nat} {b : Arena}
  (hb : b = { a with
    containers := (a.containers.modify child fun c => { c with parent := some parent }).modify parent
      fun c => { c with children := c.children ++ [child] } })
include hb

theorem linked_parentOf (hchild : child < a.containers.length) :
    b.parentOf = Function.update a.parentOf child (some parent) := by
  subst hb
  funext id
  simp only [parentOf, List.getElem?_modify, Function.update_apply]
  by_cases hid : id = child
  · subst hid
    rw [List.getElem?_eq_getElem hchild]
    by_cases hp : parent = id <;> simp [hp]
  · have : child ≠ id := fun h => hid h.symm
    simp only [this, hid, ↓reduceIte]
    cases a.containers[id]? with
    | none => rfl
    | some c => by_cases hp : parent = id <;> simp [hp]

theorem linked_childrenOf (hparent : parent < a.containers.length) :
    b.childrenOf = Function.update a.childrenOf parent (a.childrenOf parent ++ [child]) := by
  subst hb
  funext id
  simp only [childrenOf, List.getElem?_modify, Function.update_apply]
  by_cases hid : id = parent
  · subst hid
    rw [List.getElem?_eq_getElem hparent]
    by_cases hc : child = id <;> simp [hc]
  · have : parent ≠ id := fun h => hid h.symm
    simp only [this, hid, ↓reduceIte]
    cases a.containers[id]? with
    | none => rfl
    | some c => by_cases hc : child = id <;> simp [hc]

theorem linked_articleOf : b.articleOf = a.articleOf := by
  subst hb
  funext id
  simp only [articleOf, List.getElem?_modify]
  cases a.containers[id]? with
  | none => rfl
  | some c => by_cases hp : parent = id <;> by_cases hc : child = id <;> simp [hp, hc]

end SetParent

section Fill

variable {a : Arena} {existing index : Nat} {b : Arena}
  (hb : b = { a with
    containers := a.containers.modify existing fun c => { c with article := some index }
    byArticle := a.byArticle ++ [existing] })
include hb

theorem filled_articleOf (hlt : existing < a.containers.length) (id : Nat) :
    b.articleOf id = if id = existing then some index else a.articleOf id := by
  subst hb
  simp only [articleOf, List.getElem?_modify]
  by_cases hid : id = existing
  · subst hid
    rw [List.getElem?_eq_getElem hlt]
    simp
  · have : existing ≠ id := fun h => hid h.symm
    simp [this, hid]

theorem filled_parentOf : b.parentOf = a.parentOf := by
  subst hb
  funext id
  simp only [parentOf, List.getElem?_modify]
  cases a.containers[id]? with
  | none => rfl
  | some c => by_cases hid : existing = id <;> simp [hid]

theorem filled_childrenOf : b.childrenOf = a.childrenOf := by
  subst hb
  funext id
  simp only [childrenOf, List.getElem?_modify]
  cases a.containers[id]? with
  | none => rfl
  | some c => by_cases hid : existing = id <;> simp [hid]

end Fill

/-- `is_ancestor` says no only of a container that is not below the candidate. -/
theorem not_below_of_isAncestorLoop {a : Arena} {candidate : Nat} :
    ∀ (steps : Nat) (node : Nat), isAncestorLoop a candidate steps (some node) = false →
      ¬ Below a.parentOf node candidate := by
  intro steps
  induction steps with
  | zero => intro node h; cases h
  | succ steps ih =>
      intro node h hbelow
      unfold isAncestorLoop at h
      split at h
      · cases h
      · next hne =>
          rcases Below.cases_parent hbelow with heq | ⟨p, hp, hpc⟩
          · exact hne heq
          · rw [hp] at h
            exact ih p h hpc

/-! ## The invariant -/

/-- An arena into which `count` records have been inserted. -/
structure Inv (a : Arena) (count : Nat) : Prop where
  forest : IsForest a.parentOf a.childrenOf
  parent_lt : ∀ c p, a.parentOf c = some p → p < a.containers.length
  byId_lt : ∀ id c, a.byId.lookup id = some c → c < a.containers.length
  article_iff : ∀ c i, a.articleOf c = some i ↔ a.byArticle[i]? = some c
  byArticle_length : a.byArticle.length = count

theorem empty_inv : Inv empty 0 := by
  refine ⟨⟨?_, ?_, ?_⟩, ?_, ?_, ?_, rfl⟩
  · intro p c
    simp [childrenOf, parentOf, empty]
  · intro p
    simp [childrenOf, empty]
  · exact ⟨fun _ => 0, 0, fun c p h => by simp [parentOf, empty] at h, fun _ => Nat.le_refl _⟩
  · intro c p h
    simp [parentOf, empty] at h
  · intro id c h
    simp [empty] at h
  · intro c i
    simp [articleOf, empty]

/-- One more record, in the container `new`, which held no article. -/
theorem article_iff_append {articleOf articleOf' : Nat → Option Nat} {byArticle : List Nat}
    {new : Nat} (h : ∀ c i, articleOf c = some i ↔ byArticle[i]? = some c)
    (hnew : articleOf new = none)
    (h' : ∀ c, articleOf' c = if c = new then some byArticle.length else articleOf c) (c i : Nat) :
    articleOf' c = some i ↔ (byArticle ++ [new])[i]? = some c := by
  rw [h' c, List.getElem?_append]
  by_cases hc : c = new
  · subst hc
    rw [if_pos rfl]
    split
    · next hi =>
        have hno : byArticle[i]? ≠ some c := fun heq => by
          rw [(h c i).mpr heq] at hnew
          cases hnew
        simp only [Option.some.injEq, hno, iff_false]
        omega
    · next hi =>
        rw [List.getElem?_singleton, Option.some.injEq]
        split
        · simp; omega
        · simp; omega
  · rw [if_neg hc, h c i]
    split
    · rfl
    · next hi =>
        rw [List.getElem?_eq_none (by omega), List.getElem?_singleton]
        split
        · simp [Ne.symm hc]
        · simp

/-- A record in a container of its own. -/
theorem Inv.newContainer {a : Arena} {count : Nat} (h : Inv a count)
    {byId : List (Str × Nat)}
    (hbyId : ∀ id c, byId.lookup id = some c → c < a.containers.length + 1) :
    Inv { (a.newContainer (some count)).1 with
      byId := byId, byArticle := a.byArticle ++ [a.containers.length] } (count + 1) := by
  have hparent := newContainer_parentOf a (some count)
  have hchildren := newContainer_childrenOf a (some count)
  refine ⟨?_, ?_, ?_, ?_, ?_⟩
  · show IsForest (a.newContainer (some count)).1.parentOf (a.newContainer (some count)).1.childrenOf
    rw [hparent, hchildren]
    exact h.forest
  · intro c p hp
    have hp' : (a.newContainer (some count)).1.parentOf c = some p := hp
    rw [hparent] at hp'
    show p < (a.newContainer (some count)).1.containers.length
    rw [newContainer_length]
    exact Nat.lt_succ_of_lt (h.parent_lt c p hp')
  · intro id c hc
    show c < (a.newContainer (some count)).1.containers.length
    rw [newContainer_length]
    exact hbyId id c hc
  · refine article_iff_append h.article_iff ?_ fun c => ?_
    · cases hart : a.articleOf a.containers.length with
      | none => rfl
      | some i => exact absurd (articleOf_lt hart) (Nat.lt_irrefl _)
    · rw [h.byArticle_length]
      exact newContainer_articleOf a (some count) c
  · simp [h.byArticle_length]

/-- `insert` keeps the invariant. -/
theorem Inv.insert {a : Arena} {count : Nat} (h : Inv a count) (record : OverviewRecord) :
    Inv (a.insert count record) (count + 1) := by
  have hgrow : ∀ id c, a.byId.lookup id = some c → c < a.containers.length + 1 := fun id c hc =>
    Nat.lt_succ_of_lt (h.byId_lt id c hc)
  unfold Arena.insert
  cases record.messageId with
  | none => exact h.newContainer hgrow
  | some id =>
      cases hlook : a.byId.lookup id.asStr with
      | none =>
          simp only [hlook]
          refine h.newContainer fun id' c hc => ?_
          rw [List.lookup_cons] at hc
          split at hc
          · cases hc
            exact Nat.lt_succ_self _
          · exact hgrow id' c hc
      | some existing =>
          have hlt : existing < a.containers.length := h.byId_lt _ _ hlook
          simp only [hlook]
          split
          · next hnone =>
              generalize hb : Arena.mk _ _ _ = b
              have hforest : IsForest b.parentOf b.childrenOf := by
                rw [filled_parentOf hb.symm, filled_childrenOf hb.symm]
                exact h.forest
              refine ⟨hforest, fun c p hp => ?_, fun id c hc => ?_, ?_, ?_⟩
              · rw [filled_parentOf hb.symm] at hp
                have := h.parent_lt c p hp
                rw [← hb]
                simpa using this
              · rw [← hb] at hc ⊢
                simpa using h.byId_lt id c hc
              · have happ := article_iff_append h.article_iff (Option.isNone_iff_eq_none.mp hnone)
                  (fun c => (filled_articleOf hb.symm hlt c).trans (by rw [h.byArticle_length]))
                rw [← hb] at happ ⊢
                exact happ
              · rw [← hb]
                simp [h.byArticle_length]
          · exact h.newContainer hgrow

/-- `container_for_id` keeps the invariant and returns a container. -/
theorem Inv.containerForId {a : Arena} {count : Nat} (h : Inv a count) (id : MessageId) :
    Inv (a.containerForId id).1 count ∧
      (a.containerForId id).2 < (a.containerForId id).1.containers.length ∧
      a.containers.length ≤ (a.containerForId id).1.containers.length ∧
      (a.containerForId id).1.byArticle = a.byArticle := by
  unfold Arena.containerForId
  cases hlook : a.byId.lookup id.asStr with
  | some existing => exact ⟨h, h.byId_lt _ _ hlook, Nat.le_refl _, rfl⟩
  | none =>
      have hparent := newContainer_parentOf a none
      have hchildren := newContainer_childrenOf a none
      have hlen := newContainer_length a none
      refine ⟨⟨?_, ?_, ?_, ?_, h.byArticle_length⟩, ?_, ?_, rfl⟩
      · show IsForest (a.newContainer none).1.parentOf (a.newContainer none).1.childrenOf
        rw [hparent, hchildren]
        exact h.forest
      · intro c p hp
        have hp' : (a.newContainer none).1.parentOf c = some p := hp
        rw [hparent] at hp'
        show p < (a.newContainer none).1.containers.length
        rw [hlen]
        exact Nat.lt_succ_of_lt (h.parent_lt c p hp')
      · intro id' c hc
        show c < (a.newContainer none).1.containers.length
        rw [hlen]
        have hc' : List.lookup id' ((id.asStr, a.containers.length) :: a.byId) = some c := hc
        rw [List.lookup_cons] at hc'
        split at hc'
        · cases hc'
          exact Nat.lt_succ_self _
        · exact Nat.lt_succ_of_lt (h.byId_lt id' c hc')
      · intro c i
        show (a.newContainer none).1.articleOf c = some i ↔ a.byArticle[i]? = some c
        rw [newContainer_articleOf, ← h.article_iff]
        split
        · next hc =>
            subst hc
            exact ⟨nofun, fun hart => absurd (articleOf_lt hart) (Nat.lt_irrefl _)⟩
        · rfl
      · show a.containers.length < (a.newContainer none).1.containers.length
        rw [hlen]
        exact Nat.lt_succ_self _
      · show a.containers.length ≤ (a.newContainer none).1.containers.length
        rw [hlen]
        exact Nat.le_succ _

/-- `set_parent` keeps the invariant. -/
theorem Inv.setParent {a : Arena} {count : Nat} (h : Inv a count) {child parent : Nat}
    (hchild : child < a.containers.length) (hparent : parent < a.containers.length) :
    Inv (a.setParent child parent) count ∧
      (a.setParent child parent).containers.length = a.containers.length ∧
      (a.setParent child parent).byArticle = a.byArticle := by
  rcases a.setParent_eq with heq | ⟨hroot, hanc, heq⟩
  · rw [heq]
    exact ⟨h, rfl, rfl⟩
  · have hlen : (a.setParent child parent).containers.length = a.containers.length := by
      rw [heq]
      simp
    have hbyArticle : (a.setParent child parent).byArticle = a.byArticle := by rw [heq]
    have hbyId : (a.setParent child parent).byId = a.byId := by rw [heq]
    have hp := linked_parentOf heq hchild
    have hc := linked_childrenOf heq hparent
    refine ⟨⟨?_, ?_, ?_, ?_, ?_⟩, hlen, hbyArticle⟩
    · rw [hp, hc]
      exact h.forest.link hroot (not_below_of_isAncestorLoop _ _ hanc)
    · intro c p hcp
      rw [hlen]
      rw [hp, Function.update_apply] at hcp
      split at hcp
      · cases hcp
        exact hparent
      · exact h.parent_lt c p hcp
    · intro id c hlook
      rw [hlen]
      rw [hbyId] at hlook
      exact h.byId_lt id c hlook
    · intro c i
      rw [linked_articleOf heq, hbyArticle]
      exact h.article_iff c i
    · rw [hbyArticle]
      exact h.byArticle_length

theorem Inv.linkChain {count : Nat} (references : List MessageId) :
    ∀ (a : Arena) (previous : Option Nat), Inv a count →
      (∀ p, previous = some p → p < a.containers.length) →
      Inv (linkChain a previous references).1 count ∧
      a.containers.length ≤ (linkChain a previous references).1.containers.length ∧
      (linkChain a previous references).1.byArticle = a.byArticle ∧
      ∀ p, (linkChain a previous references).2 = some p →
        p < (linkChain a previous references).1.containers.length := by
  induction references with
  | nil => exact fun _ _ h hprev => ⟨h, Nat.le_refl _, rfl, hprev⟩
  | cons reference references ih =>
      intro a previous h hprev
      obtain ⟨hinv, hlt, hle, hart⟩ := h.containerForId reference
      cases previous with
      | none =>
          obtain ⟨h1, h2, h3, h4⟩ := ih _ (some (a.containerForId reference).2) hinv
            (fun p hp => by cases hp; exact hlt)
          exact ⟨h1, hle.trans h2, h3.trans hart, h4⟩
      | some parent =>
          obtain ⟨hset, hlen, hart'⟩ := hinv.setParent hlt
            (Nat.lt_of_lt_of_le (hprev parent rfl) hle)
          obtain ⟨h1, h2, h3, h4⟩ := ih _ (some (a.containerForId reference).2) hset
            (fun p hp => by cases hp; rw [hlen]; exact hlt)
          exact ⟨h1, (hle.trans hlen.ge).trans h2, (h3.trans hart').trans hart, h4⟩

/-- `link_references` keeps the invariant. -/
theorem Inv.linkReferences {a : Arena} {count : Nat} (h : Inv a count) (index : Nat)
    (record : OverviewRecord) : Inv (a.linkReferences index record) count := by
  unfold Arena.linkReferences
  cases hchild : a.byArticle[index]? with
  | none => exact h
  | some child =>
      have hlt : child < a.containers.length := articleOf_lt ((h.article_iff child index).mpr hchild)
      obtain ⟨h1, h2, -, h4⟩ := Inv.linkChain
        (record.references.drop (record.references.length - maxReferences)) a none h
        (fun p hp => by cases hp)
      dsimp only
      split
      · next b parent heq =>
          rw [heq] at h1 h2 h4
          exact (h1.setParent (Nat.lt_of_lt_of_le hlt h2) (h4 parent rfl)).1
      · next b heq =>
          rw [heq] at h1
          exact h1

end Arena

end Nntp.Proto
