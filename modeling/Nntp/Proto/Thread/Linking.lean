import Nntp.Proto.Thread.Complete

/-!
# Whose references decide

`link_references` goes through the records in order, and a link that is made is never replaced. So the parent
of an article is settled by the first chain of references that names one for it, be it the article's own or
that of an article in front of it. The comment on `set_parent` takes the two for the same.
-/

namespace Nntp.Proto

open Nntp.Lib

theorem MessageId.asStr_inj {id id' : MessageId} (h : id.asStr = id'.asStr) : id = id' := by
  cases id
  cases id'
  simpa using h

namespace Arena

/-! ## Refusing a cycle -/

/-- The walk of `is_ancestor`, with nothing to say once its steps are used up. -/
def isAncestorWalk (a : Arena) (candidate : Nat) : Nat → Option Nat → Option Bool
  | 0, _ => none
  | _ + 1, none => some false
  | steps + 1, some node =>
      if node = candidate then some true else isAncestorWalk a candidate steps (a.parentOf node)

/-- `is_ancestor` takes a walk without an answer for a yes. -/
theorem isAncestorLoop_eq_walk {a : Arena} {candidate : Nat} (steps : Nat) (node : Option Nat) :
    isAncestorLoop a candidate steps node = (isAncestorWalk a candidate steps node).getD true := by
  induction steps generalizing node with
  | zero => rfl
  | succ steps ih =>
      cases node with
      | none => rfl
      | some node =>
          unfold isAncestorLoop isAncestorWalk
          split
          · rfl
          · exact ih (a.parentOf node)

/-- The walk has an answer if it meets a root in time. -/
theorem isAncestorWalk_isSome {a : Arena} {candidate : Nat} :
    ∀ {steps n node : Nat}, n < steps → climb a.parentOf n node = none →
      (isAncestorWalk a candidate steps (some node)).isSome := by
  intro steps
  induction steps with
  | zero => exact fun hn => absurd hn (Nat.not_lt_zero _)
  | succ steps ih =>
      intro n node hn hend
      unfold isAncestorWalk
      split
      · rfl
      · cases n with
        | zero => cases hend
        | succ n =>
            cases hp : a.parentOf node with
            | none =>
                cases steps with
                | zero => omega
                | succ steps => rfl
            | some p =>
                rw [climb_succ hp] at hend
                exact ih (by omega) hend

/-- The walk says yes of a container below the candidate only. -/
theorem below_of_isAncestorWalk {a : Arena} {candidate steps node : Nat}
    (h : isAncestorWalk a candidate steps (some node) = some true) : Below a.parentOf node candidate := by
  induction steps generalizing node with
  | zero => cases h
  | succ steps ih =>
      unfold isAncestorWalk at h
      split at h
      next heq =>
        rw [heq]
        exact Below.refl candidate
      next =>
        cases hp : a.parentOf node with
        | none =>
            rw [hp] at h
            cases steps <;> cases h
        | some p =>
            rw [hp] at h
            exact (Below.step hp).trans (ih h)

/-- Nobody climbs past all containers. -/
theorem Forest.climb_length {a : Arena} (h : a.Forest) {id : Nat} (hid : id < a.containers.length) :
    climb a.parentOf a.containers.length id = none := by
  have hlt : ∀ z, Below a.parentOf id z → z < a.containers.length := by
    intro z hz
    rcases Below.cases_child.mp hz with rfl | ⟨y, _, hy⟩
    · exact hid
    · exact h.parent_lt y z hy
  cases hclimb : climb a.parentOf a.containers.length id with
  | none => rfl
  | some z => exact absurd (h.links.climb_lt hlt hclimb) (Nat.lt_irrefl _)

/-- In a forest the walk of `is_ancestor` comes to an end. -/
theorem Forest.isAncestorWalk_eq {a : Arena} (h : a.Forest) (candidate : Nat) {id : Nat}
    (hid : id < a.containers.length) :
    a.isAncestorWalk candidate (a.containers.length + 1) (some id) = some (a.isAncestor candidate id) := by
  obtain ⟨answer, hanswer⟩ := Option.isSome_iff_exists.mp
    (isAncestorWalk_isSome (Nat.lt_succ_self _) (h.climb_length hid))
  unfold isAncestor
  rw [isAncestorLoop_eq_walk, hanswer]
  rfl

/-- In a forest `is_ancestor` says what the links say. -/
theorem Forest.isAncestor_iff {a : Arena} (h : a.Forest) {candidate id : Nat}
    (hid : id < a.containers.length) : a.isAncestor candidate id = true ↔ Below a.parentOf id candidate := by
  constructor
  · intro hyes
    have hwalk := h.isAncestorWalk_eq candidate hid
    rw [hyes] at hwalk
    exact below_of_isAncestorWalk hwalk
  · intro hbelow
    by_contra hno
    exact not_below_of_isAncestorLoop _ _ (Bool.eq_false_of_not_eq_true hno) hbelow

/-- A container without a parent gets one that is not below it. -/
theorem Forest.parentOf_setParent {a : Arena} (h : a.Forest) {child parent : Nat}
    (hchild : child < a.containers.length) (hparent : parent < a.containers.length)
    (hfree : a.parentOf child = none) (hnot : ¬ Below a.parentOf parent child) :
    (a.setParent child parent).parentOf child = some parent := by
  have hne : child ≠ parent := by
    rintro rfl
    exact hnot (Below.refl child)
  rcases @setParent_eq a child parent with hkeep | ⟨_, _, hlink⟩
  · -- none of the three reasons to refuse applies
    have hanc := Bool.eq_false_of_not_eq_true (mt (h.isAncestor_iff hparent).mp hnot)
    unfold Arena.setParent at hkeep ⊢
    rw [if_neg (by simp [hne, hfree]), hanc] at hkeep ⊢
    simp only [Bool.false_eq_true, ↓reduceIte]
    rw [linked_parentOf rfl hchild, Function.update_self]
  · rw [linked_parentOf hlink hchild, Function.update_self]

/-! ## What linking keeps -/

/-- What was there before the linking of further references is there afterwards. -/
structure Extends (a b : Arena) : Prop where
  length : a.containers.length ≤ b.containers.length
  parents : ∀ x p, a.parentOf x = some p → b.parentOf x = some p
  ids : ∀ s c, a.byId.lookup s = some c → b.byId.lookup s = some c
  byArticle : b.byArticle = a.byArticle

namespace Extends

theorem refl (a : Arena) : Extends a a := ⟨Nat.le_refl _, fun _ _ h => h, fun _ _ h => h, rfl⟩

theorem trans {a b c : Arena} (hab : Extends a b) (hbc : Extends b c) : Extends a c where
  length := hab.length.trans hbc.length
  parents := fun x p h => hbc.parents x p (hab.parents x p h)
  ids := fun s i h => hbc.ids s i (hab.ids s i h)
  byArticle := hbc.byArticle.trans hab.byArticle

theorem below {a b : Arena} (h : Extends a b) {x y : Nat} (hxy : Below a.parentOf x y) :
    Below b.parentOf x y :=
  hxy.mono h.parents

end Extends

theorem extends_containerForId (a : Arena) (id : MessageId) : Extends a (a.containerForId id).1 := by
  unfold containerForId
  cases hlook : a.byId.lookup id.asStr with
  | some existing => exact Extends.refl a
  | none =>
      refine ⟨by simp, fun x p hp => ?_, fun s c hc => ?_, rfl⟩
      · show (a.newContainer none).1.parentOf x = some p
        rw [newContainer_parentOf]
        exact hp
      · show List.lookup s ((id.asStr, _) :: a.byId) = some c
        rw [List.lookup_cons]
        split
        · next heq =>
            -- the new entry is for an id that had none
            rw [eq_of_beq heq, hlook] at hc
            cases hc
        · exact hc

/-- The id leads to the container that was returned. -/
theorem lookup_containerForId (a : Arena) (id : MessageId) :
    (a.containerForId id).1.byId.lookup id.asStr = some (a.containerForId id).2 := by
  unfold containerForId
  cases hlook : a.byId.lookup id.asStr with
  | some existing => exact hlook
  | none => simp

theorem setParent_byId (a : Arena) (child parent : Nat) : (a.setParent child parent).byId = a.byId := by
  rcases @setParent_eq a child parent with heq | ⟨_, _, heq⟩
  · rw [heq]
  · rw [heq]

/-- What `set_parent` can do to the parent of a container. -/
theorem setParent_parentOf (a : Arena) {child parent : Nat} (hchild : child < a.containers.length) (x : Nat) :
    (a.setParent child parent).parentOf x = a.parentOf x ∨
      x = child ∧ (a.setParent child parent).parentOf x = some parent := by
  rcases @setParent_eq a child parent with heq | ⟨_, _, heq⟩
  · exact Or.inl (by rw [heq])
  · rw [linked_parentOf heq hchild, Function.update_apply]
    split
    · next hx => exact Or.inr ⟨hx, rfl⟩
    · exact Or.inl rfl

theorem extends_setParent (a : Arena) {child parent : Nat} (hchild : child < a.containers.length) :
    Extends a (a.setParent child parent) := by
  rcases @setParent_eq a child parent with heq | ⟨hfree, _, heq⟩
  · rw [heq]
    exact Extends.refl a
  · refine ⟨by simp [heq], fun x p hp => ?_, fun s c hc => ?_, by rw [heq]⟩
    · rw [linked_parentOf heq hchild, Function.update_of_ne]
      · exact hp
      · rintro rfl
        rw [hfree] at hp
        cases hp
    · rw [setParent_byId]
      exact hc

@[simp] theorem containerForId_parentOf (a : Arena) (id : MessageId) :
    (a.containerForId id).1.parentOf = a.parentOf := by
  unfold containerForId
  cases a.byId.lookup id.asStr with
  | some existing => rfl
  | none => exact newContainer_parentOf a none

/-- What becomes of `a` in one turn of the loop along a chain. -/
structure ChainStep (a : Arena) (previous : Option Nat) (reference : MessageId) (count : Nat) (b : Arena) :
    Prop where
  inv : Inv b count
  grown : Extends (a.containerForId reference).1 b
  lt : (a.containerForId reference).2 < b.containers.length
  ids : b.byId = (a.containerForId reference).1.byId
  parents : ∀ x, b.parentOf x = a.parentOf x ∨
    x = (a.containerForId reference).2 ∧ previous ≠ none ∧ b.parentOf x = previous

theorem linkChain_cons {a : Arena} {previous : Option Nat} {count : Nat} (h : Inv a count)
    (hprev : ∀ p, previous = some p → p < a.containers.length) (reference : MessageId)
    (references : List MessageId) : ∃ b,
      linkChain a previous (reference :: references) =
        linkChain b (some (a.containerForId reference).2) references ∧
      ChainStep a previous reference count b := by
  obtain ⟨hinv, hlt, hle, _⟩ := h.containerForId reference
  have hsame := containerForId_parentOf a reference
  cases previous with
  | none => exact ⟨_, rfl, hinv, Extends.refl _, hlt, rfl, fun x => Or.inl (congrFun hsame x)⟩
  | some parent =>
      have hset := hinv.setParent hlt (Nat.lt_of_lt_of_le (hprev parent rfl) hle)
      refine ⟨_, rfl, hset.1, extends_setParent _ hlt, hset.2.1.symm ▸ hlt, setParent_byId _ _ _, fun x => ?_⟩
      rcases setParent_parentOf _ hlt x with hkeep | ⟨hx, hnew⟩
      · exact Or.inl (hkeep.trans (congrFun hsame x))
      · exact Or.inr ⟨hx, nofun, hnew⟩

theorem extends_linkChain {count : Nat} (references : List MessageId) :
    ∀ {a : Arena} {previous : Option Nat}, Inv a count →
      (∀ p, previous = some p → p < a.containers.length) →
      Extends a (linkChain a previous references).1 := by
  induction references with
  | nil => exact fun _ _ => Extends.refl _
  | cons reference references ih =>
      intro a previous h hprev
      obtain ⟨b, hrun, hb⟩ := linkChain_cons h hprev reference references
      rw [hrun]
      refine ((extends_containerForId a reference).trans hb.grown).trans (ih hb.inv fun p hp => ?_)
      cases hp
      exact hb.lt

/-- What `link_references` considers of a References list. -/
def lastReferences (record : OverviewRecord) : List MessageId :=
  record.references.drop (record.references.length - maxReferences)

theorem lastReferences_getLast? (record : OverviewRecord) :
    (lastReferences record).getLast? = record.references.getLast? := by
  unfold lastReferences
  rw [List.getLast?_drop]
  split
  · next hle =>
      have hmax : maxReferences = 64 := rfl
      rw [List.getLast?_eq_none_iff.mpr]
      exact List.length_eq_zero_iff.mp (by omega)
  · rfl

/-- The chain ends at the container of its last reference. -/
theorem linkChain_getLast {count : Nat} {last : MessageId} (references : List MessageId) :
    ∀ {a : Arena} {previous : Option Nat}, Inv a count →
      (∀ p, previous = some p → p < a.containers.length) → references.getLast? = some last →
      ∃ l, (linkChain a previous references).2 = some l ∧
        (linkChain a previous references).1.byId.lookup last.asStr = some l := by
  induction references with
  | nil => exact fun _ _ hlast => by cases hlast
  | cons reference references ih =>
      intro a previous h hprev hlast
      obtain ⟨b, hrun, hb⟩ := linkChain_cons h hprev reference references
      rw [hrun]
      cases references with
      | nil =>
          obtain rfl : reference = last := Option.some.inj hlast
          exact ⟨_, rfl, by rw [linkChain, hb.ids, lookup_containerForId]⟩
      | cons next rest =>
          refine ih hb.inv (fun p hp => ?_) hlast
          cases hp
          exact hb.lt

/-- The arena in which a record's references are linked to each other, and the last of them. -/
def linkOwn (a : Arena) (record : OverviewRecord) : Arena × Option Nat :=
  linkChain a none (lastReferences record)

section LinkReferences

variable {a : Arena} {count index child : Nat} {record : OverviewRecord}

theorem Inv.linkOwn (h : Inv a count) (record : OverviewRecord) :
    Inv (a.linkOwn record).1 count ∧ Extends a (a.linkOwn record).1 :=
  ⟨(Inv.linkChain _ a none h nofun).1, extends_linkChain _ h nofun⟩

/-- With references, linking a record ends with one call of `set_parent`. -/
theorem linkReferences_eq (h : Inv a count) (hchild : a.byArticle[index]? = some child) {last : MessageId}
    (hlast : record.references.getLast? = some last) :
    ∃ l, (a.linkOwn record).1.byId.lookup last.asStr = some l ∧
      a.linkReferences index record = (a.linkOwn record).1.setParent child l := by
  rw [← lastReferences_getLast?] at hlast
  obtain ⟨l, hl, hlook⟩ := @linkChain_getLast count last (lastReferences record) a none h nofun hlast
  refine ⟨l, hlook, ?_⟩
  unfold linkReferences
  have hchain : linkChain a none (lastReferences record) = ((a.linkOwn record).1, some l) := Prod.ext rfl hl
  unfold lastReferences at hchain
  rw [hchild]
  dsimp only
  rw [hchain]

/-- Without references there is nothing to link. -/
theorem linkReferences_nil (hnone : record.references = []) : a.linkReferences index record = a := by
  unfold linkReferences
  cases a.byArticle[index]? with
  | none => rfl
  | some child =>
      rw [hnone]
      rfl

/-- All that linking a record can do. -/
theorem linkReferences_cases (h : Inv a count) (index : Nat) (record : OverviewRecord) :
    a.linkReferences index record = a ∨ ∃ child l last,
      a.byArticle[index]? = some child ∧ child < (a.linkOwn record).1.containers.length ∧
        record.references.getLast? = some last ∧ (a.linkOwn record).1.byId.lookup last.asStr = some l ∧
          a.linkReferences index record = (a.linkOwn record).1.setParent child l := by
  cases hchild : a.byArticle[index]? with
  | none =>
      refine Or.inl ?_
      unfold linkReferences
      rw [hchild]
  | some child =>
      have hlt := articleOf_lt ((h.article_iff child index).mpr hchild)
      rcases List.eq_nil_or_concat record.references with hnil | ⟨front, last, hcons⟩
      · exact Or.inl (linkReferences_nil hnil)
      · have hlast : record.references.getLast? = some last := by simp [hcons]
        obtain ⟨l, hl, heq⟩ := linkReferences_eq h hchild hlast
        exact Or.inr ⟨child, l, last, rfl, Nat.lt_of_lt_of_le hlt (h.linkOwn record).2.length, hlast, hl, heq⟩

theorem extends_linkReferences (h : Inv a count) (index : Nat) (record : OverviewRecord) :
    Extends a (a.linkReferences index record) := by
  rcases linkReferences_cases h index record with heq | ⟨child, l, last, _, hlt, _, _, heq⟩
  · rw [heq]
    exact Extends.refl a
  · rw [heq]
    exact (h.linkOwn record).2.trans (extends_setParent _ hlt)

end LinkReferences

/-- Linking the records of a list, each with its index. -/
def linkAll (a : Arena) (records : List (OverviewRecord × Nat)) : Arena :=
  records.foldl (fun a r => a.linkReferences r.2 r.1) a

theorem linkAll_spec {count : Nat} (records : List (OverviewRecord × Nat)) :
    ∀ {a : Arena}, Inv a count → Inv (a.linkAll records) count ∧ Extends a (a.linkAll records) := by
  induction records with
  | nil => exact fun h => ⟨h, Extends.refl _⟩
  | cons r records ih =>
      intro a h
      obtain ⟨hinv, hext⟩ := ih (h.linkReferences r.2 r.1)
      exact ⟨hinv, (extends_linkReferences h r.2 r.1).trans hext⟩

end Arena

/-! ## The containers of the records -/

open Arena

/-- The arena after the first loop of `thread`. -/
def insertAll (records : List OverviewRecord) : Arena :=
  (records.zipIdx).foldl (fun a r => a.insert r.2 r.1) Arena.empty

theorem linkRecords_eq (records : List OverviewRecord) :
    linkRecords records = (insertAll records).linkAll records.zipIdx := rfl

/-- The record is the article that the id is of. -/
def Claims (records : List OverviewRecord) (index : Nat) (s : Str) : Prop :=
  ∃ record id, records[index]? = some record ∧ record.messageId = some id ∧ id.asStr = s

theorem claims_iff {records : List OverviewRecord} {i : Nat} {record : OverviewRecord} {id reference : MessageId}
    (hrecord : records[i]? = some record) (hid : record.messageId = some id) :
    Claims records i reference.asStr ↔ reference = id := by
  constructor
  · rintro ⟨record', id', hrecord', hid', hs⟩
    cases hrecord.symm.trans hrecord'
    cases hid.symm.trans hid'
    exact (MessageId.asStr_inj hs).symm
  · rintro rfl
    exact ⟨record, reference, hrecord, hid, rfl⟩

/-- The ids lead to the containers of articles that claim them, and every id that is claimed leads somewhere. -/
structure Inserted (a : Arena) (records : List OverviewRecord) : Prop where
  inv : Inv a records.length
  claimed : ∀ s c, a.byId.lookup s = some c → ∃ j, Claims records j s ∧ a.byArticle[j]? = some c
  found : ∀ j s, Claims records j s → (a.byId.lookup s).isSome

theorem claims_append {records : List OverviewRecord} {record : OverviewRecord} {j : Nat} {s : Str} :
    Claims (records ++ [record]) j s ↔ Claims records j s ∨
      j = records.length ∧ ∃ id, record.messageId = some id ∧ id.asStr = s := by
  unfold Claims
  rcases Nat.lt_trichotomy j records.length with hj | rfl | hj
  · simp [List.getElem?_append_left hj, Nat.ne_of_lt hj]
  · simp
  · rw [List.getElem?_eq_none (by simp; omega), List.getElem?_eq_none (by omega)]
    simp [Nat.ne_of_gt hj]

namespace Inserted

variable {a : Arena} {records : List OverviewRecord}

theorem start : Inserted Arena.empty [] where
  inv := empty_inv
  claimed := fun s c hc => by simp [Arena.empty] at hc
  found := by
    rintro j s ⟨record, id, hrecord, _⟩
    simp at hrecord

/-- No container that an id leads to is waiting for its article, so every record gets a container of its own. -/
theorem insert_cases (h : Inserted a records) (record : OverviewRecord) :
    (a.insert records.length record).byArticle = a.byArticle ++ [a.containers.length] ∧
      ((a.insert records.length record).byId = a.byId ∧
          (∀ id, record.messageId = some id → (a.byId.lookup id.asStr).isSome) ∨
        ∃ id, record.messageId = some id ∧
          (a.insert records.length record).byId = (id.asStr, a.containers.length) :: a.byId) := by
  unfold Arena.insert
  cases hid : record.messageId with
  | none => exact ⟨rfl, Or.inl ⟨rfl, nofun⟩⟩
  | some id =>
      cases hlook : a.byId.lookup id.asStr with
      | none =>
          simp only [hlook]
          exact ⟨rfl, Or.inr ⟨id, rfl, rfl⟩⟩
      | some existing =>
          obtain ⟨j, _, hj⟩ := h.claimed _ _ hlook
          have hart : (a.articleOf existing).isNone = false := by
            rw [(h.inv.article_iff existing j).mpr hj]
            rfl
          simp only [hlook, hart, Bool.false_eq_true, ↓reduceIte]
          refine ⟨rfl, Or.inl ⟨rfl, fun id' hid' => ?_⟩⟩
          cases hid'
          rw [hlook]
          rfl

theorem insert (h : Inserted a records) (record : OverviewRecord) :
    Inserted (a.insert records.length record) (records ++ [record]) := by
  have hlen := h.inv.byArticle_length
  obtain ⟨harticles, hids⟩ := h.insert_cases record
  have hkept : ∀ {j c : Nat}, a.byArticle[j]? = some c →
      (a.insert records.length record).byArticle[j]? = some c := by
    intro j c hj
    rw [harticles, List.getElem?_append_left (List.getElem?_eq_some_iff.mp hj).1]
    exact hj
  refine ⟨by simpa using h.inv.insert record, fun s c hc => ?_, fun j s hj => ?_⟩
  · rcases hids with ⟨hsame, _⟩ | ⟨id, hid, hnew⟩
    · rw [hsame] at hc
      obtain ⟨j, hj, hjc⟩ := h.claimed s c hc
      exact ⟨j, claims_append.mpr (Or.inl hj), hkept hjc⟩
    · rw [hnew, List.lookup_cons] at hc
      split at hc
      · next heq =>
          cases hc
          refine ⟨records.length, claims_append.mpr (Or.inr ⟨rfl, id, hid, (eq_of_beq heq).symm⟩), ?_⟩
          rw [harticles, ← hlen]
          simp
      · obtain ⟨j, hj, hjc⟩ := h.claimed s c hc
        exact ⟨j, claims_append.mpr (Or.inl hj), hkept hjc⟩
  · rcases hids with ⟨hsame, hold⟩ | ⟨id, hid, hnew⟩
    · rw [hsame]
      rcases claims_append.mp hj with hj | ⟨_, id, hid, rfl⟩
      · exact h.found j s hj
      · exact hold id hid
    · rw [hnew, List.lookup_cons]
      split
      · rfl
      · next hne =>
          rcases claims_append.mp hj with hj | ⟨_, id', hid', rfl⟩
          · exact h.found j s hj
          · cases hid.symm.trans hid'
            simp at hne

end Inserted

theorem insertAll_inserted (records : List OverviewRecord) : Inserted (insertAll records) records := by
  have hfold : ∀ (rest done : List OverviewRecord) (a : Arena), Inserted a done →
      Inserted ((rest.zipIdx done.length).foldl (fun a r => a.insert r.2 r.1) a) (done ++ rest) := by
    intro rest
    induction rest with
    | nil =>
        intro done a h
        simpa using h
    | cons record rest ih =>
        intro done a h
        have := ih (done ++ [record]) _ (h.insert record)
        rw [List.append_assoc, List.singleton_append, List.length_append] at this
        exact this
  exact hfold records [] Arena.empty Inserted.start

/-- Inserting a record links nothing. -/
theorem insert_parentOf (a : Arena) (index : Nat) (record : OverviewRecord) :
    (a.insert index record).parentOf = a.parentOf := by
  unfold Arena.insert
  cases record.messageId with
  | none => exact newContainer_parentOf a (some index)
  | some id =>
      cases hlook : a.byId.lookup id.asStr with
      | none =>
          simp only [hlook]
          exact newContainer_parentOf a (some index)
      | some existing =>
          simp only [hlook]
          split
          · exact filled_parentOf rfl
          · exact newContainer_parentOf a (some index)

theorem insertAll_parentOf (records : List OverviewRecord) (x : Nat) :
    (insertAll records).parentOf x = none := by
  have hfold : ∀ (rest : List (OverviewRecord × Nat)) (a : Arena),
      (rest.foldl (fun a r => a.insert r.2 r.1) a).parentOf = a.parentOf := by
    intro rest
    induction rest with
    | nil => exact fun _ => rfl
    | cons r rest ih => exact fun a => (ih _).trans (insert_parentOf a r.2 r.1)
  rw [insertAll, hfold]
  rfl

/-! ## Which containers references lead to -/

/-- An id leads to the container of an article only if the article claims the id. -/
def Named (a : Arena) (records : List OverviewRecord) : Prop :=
  ∀ s c j, a.byId.lookup s = some c → a.byArticle[j]? = some c → Claims records j s

namespace Inserted

variable {a : Arena} {records : List OverviewRecord}

theorem named (h : Inserted a records) : Named a records := by
  intro s c j hc hj
  obtain ⟨i, hi, hic⟩ := h.claimed s c hc
  have hij := ((h.inv.article_iff c j).mpr hj).symm.trans ((h.inv.article_iff c i).mpr hic)
  exact Option.some.inj hij ▸ hi

/-- The only article that claims an id is found by it. -/
theorem lookup_sole (h : Inserted a records) {i : Nat} {s : Str} (hi : Claims records i s)
    (honly : ∀ j, Claims records j s → j = i) :
    ∃ c, a.byId.lookup s = some c ∧ a.byArticle[i]? = some c := by
  obtain ⟨c, hc⟩ := Option.isSome_iff_exists.mp (h.found i s hi)
  obtain ⟨j, hj, hjc⟩ := h.claimed s c hc
  exact ⟨c, hc, honly j hj ▸ hjc⟩

end Inserted

section Named

variable {a : Arena} {records : List OverviewRecord} {count : Nat}

theorem Named.containerForId (hn : Named a records) (h : Inv a count) (id : MessageId) :
    Named (a.containerForId id).1 records := by
  unfold Arena.containerForId
  cases hlook : a.byId.lookup id.asStr with
  | some existing => exact hn
  | none =>
      intro s c j hc hj
      have hc' : List.lookup s ((id.asStr, a.containers.length) :: a.byId) = some c := hc
      rw [List.lookup_cons] at hc'
      split at hc'
      · -- the new container has no article
        cases hc'
        exact absurd (articleOf_lt ((h.article_iff _ j).mpr hj)) (Nat.lt_irrefl _)
      · exact hn s c j hc' hj

theorem Named.of_byId {b : Arena} (hn : Named a records) (hids : b.byId = a.byId)
    (hart : b.byArticle = a.byArticle) : Named b records := by
  intro s c j hc hj
  rw [hids] at hc
  rw [hart] at hj
  exact hn s c j hc hj

/-- A reference that the article does not claim leads to another container. -/
theorem Named.containerForId_ne (hn : Named a records) (h : Inv a count) {id : MessageId} {c j : Nat}
    (hc : a.byArticle[j]? = some c) (hid : ¬ Claims records j id.asStr) : (a.containerForId id).2 ≠ c := by
  unfold Arena.containerForId
  cases hlook : a.byId.lookup id.asStr with
  | some existing =>
      rintro rfl
      exact hid (hn _ _ j hlook hc)
  | none =>
      rintro rfl
      exact absurd (articleOf_lt ((h.article_iff _ j).mpr hc)) (Nat.lt_irrefl _)

end Named

/-! ## A container that no chain names -/

section Untouched

variable {a : Arena} {records : List OverviewRecord} {count i c : Nat}

theorem Named.step (hn : Named a records) (h : Inv a count) {previous : Option Nat} {reference : MessageId}
    {b : Arena} (hb : ChainStep a previous reference count b) : Named b records :=
  (hn.containerForId h reference).of_byId hb.ids hb.grown.byArticle

theorem Named.linkChain (references : List MessageId) : ∀ {a : Arena} {previous : Option Nat},
    Named a records → Inv a count → (∀ p, previous = some p → p < a.containers.length) →
      Named (a.linkChain previous references).1 records := by
  induction references with
  | nil => exact fun hn _ _ => hn
  | cons reference references ih =>
      intro a previous hn h hprev
      obtain ⟨b, hrun, hb⟩ := linkChain_cons h hprev reference references
      rw [hrun]
      refine ih (hn.step h hb) hb.inv fun p hp => ?_
      cases hp
      exact hb.lt

theorem Named.linkOwn (hn : Named a records) (h : Inv a count) (record : OverviewRecord) :
    Named (a.linkOwn record).1 records := Named.linkChain _ hn h nofun

theorem Named.linkReferences (hn : Named a records) (h : Inv a count) (index : Nat)
    (record : OverviewRecord) : Named (a.linkReferences index record) records := by
  rcases linkReferences_cases h index record with heq | ⟨child, l, last, _, hlt, _, _, heq⟩
  · rw [heq]
    exact hn
  · rw [heq]
    exact (hn.linkOwn h record).of_byId (setParent_byId _ _ _) (extends_setParent _ hlt).byArticle

/-- A container that the chain does not name after another one stays without a parent. -/
theorem linkChain_free (references : List MessageId) : ∀ {a : Arena} {previous : Option Nat},
    Named a records → Inv a count → (∀ p, previous = some p → p < a.containers.length) →
      a.byArticle[i]? = some c → a.parentOf c = none →
      (∀ reference ∈ references.drop (if previous.isNone then 1 else 0), ¬ Claims records i reference.asStr) →
      (a.linkChain previous references).1.parentOf c = none := by
  induction references with
  | nil => exact fun _ _ _ _ hfree _ => hfree
  | cons reference references ih =>
      intro a previous hn h hprev hc hfree hnot
      obtain ⟨b, hrun, hb⟩ := linkChain_cons h hprev reference references
      rw [hrun]
      refine ih (hn.step h hb) hb.inv (fun p hp => by cases hp; exact hb.lt) ?_ ?_ fun next hnext => ?_
      · rw [hb.grown.byArticle, (extends_containerForId a reference).byArticle]
        exact hc
      · rcases hb.parents c with hsame | ⟨hcur, hsome, _⟩
        · rw [hsame]
          exact hfree
        · -- only a container that is not the first of the chain gets a parent
          cases previous with
          | none => exact absurd rfl hsome
          | some p => exact absurd hcur.symm (hn.containerForId_ne h hc (hnot reference List.mem_cons_self))
      · cases previous with
        | none => exact hnot next hnext
        | some p => exact hnot next (List.mem_cons_of_mem _ hnext)

/-- A container that the chain does not name gets no child. -/
theorem linkChain_leaf (references : List MessageId) : ∀ {a : Arena} {previous : Option Nat},
    Named a records → Inv a count → (∀ p, previous = some p → p < a.containers.length) →
      a.byArticle[i]? = some c → previous ≠ some c → (∀ x, a.parentOf x ≠ some c) →
      (∀ reference ∈ references, ¬ Claims records i reference.asStr) →
      ∀ x, (a.linkChain previous references).1.parentOf x ≠ some c := by
  induction references with
  | nil => exact fun _ _ _ _ _ hleaf _ => hleaf
  | cons reference references ih =>
      intro a previous hn h hprev hc hne hleaf hnot
      obtain ⟨b, hrun, hb⟩ := linkChain_cons h hprev reference references
      rw [hrun]
      refine ih (hn.step h hb) hb.inv (fun p hp => by cases hp; exact hb.lt) ?_ ?_ (fun x => ?_)
        fun next hnext => hnot next (List.mem_cons_of_mem _ hnext)
      · rw [hb.grown.byArticle, (extends_containerForId a reference).byArticle]
        exact hc
      · intro heq
        exact hn.containerForId_ne h hc (hnot reference List.mem_cons_self) (Option.some.inj heq)
      · rcases hb.parents x with hsame | ⟨_, _, hnew⟩
        · rw [hsame]
          exact hleaf x
        · rw [hnew]
          exact hne

theorem linkOwn_free (hn : Named a records) (h : Inv a count) (hc : a.byArticle[i]? = some c)
    (hfree : a.parentOf c = none) {record : OverviewRecord}
    (hnot : ∀ reference ∈ (lastReferences record).tail, ¬ Claims records i reference.asStr) :
    (a.linkOwn record).1.parentOf c = none :=
  linkChain_free (lastReferences record) hn h nofun hc hfree (by simpa using hnot)

theorem linkOwn_leaf (hn : Named a records) (h : Inv a count) (hc : a.byArticle[i]? = some c)
    (hleaf : ∀ x, a.parentOf x ≠ some c) {record : OverviewRecord}
    (hnot : ∀ reference ∈ record.references, ¬ Claims records i reference.asStr) (x : Nat) :
    (a.linkOwn record).1.parentOf x ≠ some c := by
  have hchain := @linkChain_leaf records count i c (lastReferences record) a none hn h nofun hc nofun hleaf
  exact hchain (fun reference href => hnot reference (List.mem_of_mem_drop href)) x

/-- The articles have containers of their own. -/
theorem Arena.Inv.byArticle_inj (h : Inv a count) {i j c : Nat} (hi : a.byArticle[i]? = some c)
    (hj : a.byArticle[j]? = some c) : i = j := by
  have := ((h.article_iff c i).mpr hi).symm.trans ((h.article_iff c j).mpr hj)
  exact Option.some.inj this

/-- Linking another record leaves an article without a parent that its chain does not name after another. -/
theorem linkReferences_free (hn : Named a records) (h : Inv a count) (hc : a.byArticle[i]? = some c)
    (hfree : a.parentOf c = none) {index : Nat} (hne : index ≠ i) {record : OverviewRecord}
    (hnot : ∀ reference ∈ (lastReferences record).tail, ¬ Claims records i reference.asStr) :
    (a.linkReferences index record).parentOf c = none := by
  rcases linkReferences_cases h index record with heq | ⟨child, l, last, hchild, hlt, _, _, heq⟩
  · rw [heq]
    exact hfree
  · rw [heq]
    rcases @setParent_parentOf _ child l hlt c with hsame | ⟨rfl, _⟩
    · rw [hsame]
      exact linkOwn_free hn h hc hfree hnot
    · exact absurd (h.byArticle_inj hchild hc) hne

/-- Linking another record leaves an article without a child that its chain does not name. -/
theorem linkReferences_leaf (hn : Named a records) (h : Inv a count) (hc : a.byArticle[i]? = some c)
    (hleaf : ∀ x, a.parentOf x ≠ some c) (index : Nat) {record : OverviewRecord}
    (hnot : ∀ reference ∈ record.references, ¬ Claims records i reference.asStr) (x : Nat) :
    (a.linkReferences index record).parentOf x ≠ some c := by
  rcases linkReferences_cases h index record with heq | ⟨child, l, last, hchild, hlt, hlast, hl, heq⟩
  · rw [heq]
    exact hleaf x
  · rw [heq]
    rcases @setParent_parentOf _ child l hlt x with hsame | ⟨_, hnew⟩
    · rw [hsame]
      exact linkOwn_leaf hn h hc hleaf hnot x
    · rw [hnew]
      rintro ⟨⟩
      have hc' : (a.linkOwn record).1.byArticle[i]? = some c := by
        rw [(h.linkOwn record).2.byArticle]
        exact hc
      exact hnot last (List.mem_of_getLast? hlast) (hn.linkOwn h record _ _ _ hl hc')

end Untouched

/-! ## The whole run -/

section Run

variable {records : List OverviewRecord} {i : Nat} {record : OverviewRecord}

/-- The arena when the loop has come to record `i`. -/
def linkedBefore (records : List OverviewRecord) (i : Nat) : Arena :=
  (insertAll records).linkAll (records.take i).zipIdx

/-- The arena in which record `i` is about to be linked to the last of its references: the records in front
of it are linked, and its own references to each other. -/
def beforeOwnLink (records : List OverviewRecord) (i : Nat) (record : OverviewRecord) : Arena :=
  ((linkedBefore records i).linkOwn record).1

theorem linkedBefore_spec (records : List OverviewRecord) (i : Nat) :
    Inv (linkedBefore records i) records.length ∧ Extends (insertAll records) (linkedBefore records i) :=
  linkAll_spec _ (insertAll_inserted records).inv

theorem Arena.Named.linkAll (rest : List (OverviewRecord × Nat)) {count : Nat} : ∀ {a : Arena}, Named a records →
    Inv a count → Named (a.linkAll rest) records := by
  induction rest with
  | nil => exact fun hn _ => hn
  | cons r rest ih => exact fun hn h => ih (hn.linkReferences h r.2 r.1) (h.linkReferences r.2 r.1)

theorem linkedBefore_named (records : List OverviewRecord) (i : Nat) : Named (linkedBefore records i) records :=
  Arena.Named.linkAll _ (insertAll_inserted records).named (insertAll_inserted records).inv

/-- The whole run goes through record `i`, and what it has linked by then stays. -/
theorem linkRecords_at (hrecord : records[i]? = some record) :
    Extends ((linkedBefore records i).linkReferences i record) (linkRecords records) := by
  obtain ⟨hlt, hget⟩ := List.getElem?_eq_some_iff.mp hrecord
  have hsplit : records = records.take i ++ record :: records.drop (i + 1) := by
    rw [← hget, List.getElem_cons_drop, List.take_append_drop]
  have hzip : records.zipIdx =
      (records.take i).zipIdx ++ (record, i) :: (records.drop (i + 1)).zipIdx (i + 1) := by
    conv_lhs => rw [hsplit]
    rw [List.zipIdx_append, List.zipIdx_cons]
    simp [Nat.min_eq_left hlt.le]
  have hrun : linkRecords records =
      ((linkedBefore records i).linkReferences i record).linkAll ((records.drop (i + 1)).zipIdx (i + 1)) := by
    rw [linkRecords_eq, hzip]
    exact List.foldl_append
  rw [hrun]
  exact (linkAll_spec _ ((linkedBefore_spec records i).1.linkReferences i record)).2

end Run

/-! ## Own references -/

/-- The parent of the article is the last of its references. -/
def OwnReferenceWins (records : List OverviewRecord) (i : Nat) (last : MessageId) : Prop :=
  ∃ c l, (linkRecords records).byArticle[i]? = some c ∧
    (linkRecords records).byId.lookup last.asStr = some l ∧ (linkRecords records).parentOf c = some l

/-- The last of the article's references is one of its descendants. -/
def LastDescends (records : List OverviewRecord) (i : Nat) (last : MessageId) : Prop :=
  ∃ c l p, (linkRecords records).byArticle[i]? = some c ∧
    (linkRecords records).byId.lookup last.asStr = some l ∧ (linkRecords records).parentOf l = some p ∧
      Below (linkRecords records).parentOf p c

/-- When the loop comes to the article's own link, an earlier link has given it another parent. -/
def TakenBefore (records : List OverviewRecord) (i : Nat) (record : OverviewRecord) (last : MessageId) : Prop :=
  ∃ c p, (beforeOwnLink records i record).byArticle[i]? = some c ∧
    (beforeOwnLink records i record).parentOf c = some p ∧
      (beforeOwnLink records i record).byId.lookup last.asStr ≠ some p

/-- Linking other records leaves an article without a parent that no chain names after another. -/
theorem linkAll_free {records : List OverviewRecord} {count i c : Nat} (rest : List (OverviewRecord × Nat)) :
    ∀ {a : Arena}, Named a records → Inv a count → a.byArticle[i]? = some c → a.parentOf c = none →
      (∀ r ∈ rest, r.2 ≠ i ∧ ∀ reference ∈ (lastReferences r.1).tail, ¬ Claims records i reference.asStr) →
      (a.linkAll rest).parentOf c = none := by
  induction rest with
  | nil => exact fun _ _ _ hfree _ => hfree
  | cons r rest ih =>
      intro a hn h hc hfree hrest
      obtain ⟨hne, hnot⟩ := hrest r List.mem_cons_self
      refine ih (hn.linkReferences h r.2 r.1) (h.linkReferences r.2 r.1) ?_
        (linkReferences_free hn h hc hfree hne hnot) fun r' hr' => hrest r' (List.mem_cons_of_mem _ hr')
      rw [(extends_linkReferences h r.2 r.1).byArticle]
      exact hc

/-- The records in front of record `i`, with their indices. -/
theorem mem_before {records : List OverviewRecord} {i : Nat} {r : OverviewRecord × Nat}
    (hr : r ∈ (records.take i).zipIdx) : r.2 < i ∧ records[r.2]? = some r.1 := by
  have hget := List.mem_zipIdx_iff_getElem?.mp hr
  have hlt := (List.getElem?_eq_some_iff.mp hget).1
  rw [List.length_take] at hlt
  rw [List.getElem?_take_of_lt (by omega)] at hget
  exact ⟨by omega, hget⟩

/-- The article's own references win if no chain up to its own names it after another article. -/
theorem not_takenBefore {records : List OverviewRecord} {i : Nat} {record : OverviewRecord}
    {id : MessageId} (hrecord : records[i]? = some record) (hid : record.messageId = some id)
    (hnot : ∀ j ≤ i, ∀ r, records[j]? = some r → id ∉ (lastReferences r).tail) (last : MessageId) :
    ¬ TakenBefore records i record last := by
  rintro ⟨c, p, hc, hp, _⟩
  have hinserted := insertAll_inserted records
  obtain ⟨hinv, hext⟩ := linkedBefore_spec records i
  have hcbefore : (linkedBefore records i).byArticle[i]? = some c := by
    rw [← (hinv.linkOwn record).2.byArticle]
    exact hc
  have hunnamed : ∀ j ≤ i, ∀ r, records[j]? = some r →
      ∀ reference ∈ (lastReferences r).tail, ¬ Claims records i reference.asStr := by
    intro j hj r hr reference href hclaims
    rw [claims_iff hrecord hid] at hclaims
    exact hnot j hj r hr (hclaims ▸ href)
  have hfree : (linkedBefore records i).parentOf c = none := by
    have hc : (insertAll records).byArticle[i]? = some c := by
      rw [← hext.byArticle]
      exact hcbefore
    refine linkAll_free _ hinserted.named hinserted.inv hc (insertAll_parentOf records c) fun r hr => ?_
    obtain ⟨hlt, hget⟩ := mem_before hr
    exact ⟨Nat.ne_of_lt hlt, hunnamed r.2 hlt.le r.1 hget⟩
  have hown := linkOwn_free (linkedBefore_named records i) hinv hcbefore hfree
    (hunnamed i (Nat.le_refl i) record hrecord)
  cases hown.symm.trans hp

section Example

theorem wellFormed_question : MessageId.isWellFormed "<question>".toList = true := by decide +kernel

theorem wellFormed_answer : MessageId.isWellFormed "<answer>".toList = true := by decide +kernel

theorem wellFormed_thanks : MessageId.isWellFormed "<thanks>".toList = true := by decide +kernel

theorem wellFormed_other : MessageId.isWellFormed "<other>".toList = true := by decide +kernel

def questionId : MessageId := ⟨"<question>".toList, wellFormed_question⟩

def answerId : MessageId := ⟨"<answer>".toList, wellFormed_answer⟩

def thanksId : MessageId := ⟨"<thanks>".toList, wellFormed_thanks⟩

def otherId : MessageId := ⟨"<other>".toList, wellFormed_other⟩

/-- An article with nothing but its id and its references. -/
def articleWith (id : MessageId) (references : List MessageId) : OverviewRecord :=
  { OverviewRecord.bare 1 with messageId := some id, references }

/-- An answer, and the thanks for it, whose References chain is about something else. -/
def answered : List OverviewRecord := [articleWith answerId [questionId], articleWith thanksId [otherId, answerId]]

end Example

end Nntp.Proto
