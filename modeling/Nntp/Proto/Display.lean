import Nntp.Proto.Parameters

/-!
# Which part is shown

`display_part` and `other_parts` of `body.rs`. A reference to a part is the part with its address, the way down to
it from the root. What is shown and what is listed are found by two walks of their own; together with the
signatures they are the leaves of the tree.
-/

namespace Nntp.Proto

/-- Whether this is a textual type that can be shown directly. -/
def ContentType.isText (type : ContentType) : Bool := type.type_ = "text".toList

namespace BodyPart

/-! ## One part -/

def isMultipart (part : BodyPart) : Bool := part.contentType.isMultipart

/-- The file name the sender suggested, decoded. -/
def filename (codecs : Codecs) (part : BodyPart) : Option Str :=
  match part.disposition.bind (·.param "filename") with
  | some name => some (codecs.decodeHeaderValue (asBytes name))
  | none =>
      match part.disposition.bind (·.param "filename*") with
      | some extended => some (decodeExtendedParameter codecs extended)
      | none => (part.contentType.param "name").map fun name => codecs.decodeHeaderValue (asBytes name)

/-- Whether this part is meant to be saved rather than shown. A part with a file name is, also if it claims to be
inline. -/
def isAttachment (codecs : Codecs) (part : BodyPart) : Bool :=
  match part.disposition with
  | some disposition =>
      match disposition.kind with
      | .attachment => true
      | .other => true
      | .inline_ => (part.filename codecs).isSome
  | none => false

/-- Whether this part is a detached signature rather than content. -/
def isSignature (part : BodyPart) : Bool :=
  part.contentType.type_ = "application".toList &&
    (part.contentType.subtype = "pgp-signature".toList || part.contentType.subtype = "pkcs7-signature".toList ||
      part.contentType.subtype = "x-pkcs7-signature".toList)

/-- Whether this part can be shown as text at all. -/
def isDisplayable (codecs : Codecs) (part : BodyPart) : Bool := part.contentType.isText && !part.isAttachment codecs

end BodyPart

/-! ## The two walks -/

/-- A reference to a part of a tree: two references are to the same part if their addresses are the same. -/
structure PartRef where
  address : List Nat
  part : BodyPart

namespace BodyPart

section Walks

variable (codecs : Codecs)

mutual

/-- `display_part` of the part at `here`. -/
def displayPartAt (here : List Nat) : BodyPart → Option PartRef
  | .mk headers contentType encoding disposition lines parts =>
      let self := BodyPart.mk headers contentType encoding disposition lines parts
      if !self.isMultipart then if self.isDisplayable codecs then some ⟨here, self⟩ else none
      -- a container that could not be split
      else if parts.isEmpty then some ⟨here, self⟩
      else
        let shown := displayPartsAt here 0 parts
        if contentType.subtype = "alternative".toList then
          (shown.find? fun ref => ref.part.contentType.subtype = "plain".toList) <|> shown.head?
        else shown.head?

/-- What the parts from `index` on would show. -/
def displayPartsAt (here : List Nat) (index : Nat) : List BodyPart → List PartRef
  | [] => []
  | part :: rest => (displayPartAt (here ++ [index]) part).toList ++ displayPartsAt here (index + 1) rest

end

/-- The part a reader should show, if anything here is text. -/
def displayPart (root : BodyPart) : Option PartRef := displayPartAt codecs [] root

mutual

/-- `collect_leaves` of the part at `here`: the leaves that are not the one shown. -/
def collectLeaves (shown : Option (List Nat)) (here : List Nat) : BodyPart → List PartRef
  | .mk headers contentType encoding disposition lines parts =>
      let self := BodyPart.mk headers contentType encoding disposition lines parts
      if self.isMultipart && !parts.isEmpty then collectEach shown here 0 parts
      else if shown = some here then []
      else [⟨here, self⟩]

def collectEach (shown : Option (List Nat)) (here : List Nat) (index : Nat) : List BodyPart → List PartRef
  | [] => []
  | part :: rest => collectLeaves shown (here ++ [index]) part ++ collectEach shown here (index + 1) rest

end

/-- Every part that is not the one being displayed, is not a container, and is not a signature. -/
def otherParts (root : BodyPart) : List PartRef :=
  let shown := (root.displayPart codecs).map (·.address)
  (collectLeaves shown [] root).filter fun ref => !ref.part.isSignature

end Walks

/-! ## The leaves -/

mutual

/-- The leaves of the part at `here`, depth first: what is no container, and containers without parts. -/
def leavesAt (here : List Nat) : BodyPart → List PartRef
  | .mk headers contentType encoding disposition lines parts =>
      let self := BodyPart.mk headers contentType encoding disposition lines parts
      if self.isMultipart && !parts.isEmpty then leavesEach here 0 parts else [⟨here, self⟩]

def leavesEach (here : List Nat) (index : Nat) : List BodyPart → List PartRef
  | [] => []
  | part :: rest => leavesAt (here ++ [index]) part ++ leavesEach here (index + 1) rest

end

def leaves (root : BodyPart) : List PartRef := leavesAt [] root

end BodyPart

/-- What can be shown of the leaves: displayable text, or a container without parts. -/
def BodyPart.IsShowable (codecs : Codecs) (part : BodyPart) : Prop :=
  part.isDisplayable codecs = true ∨ part.isMultipart = true ∧ part.parts = []

/-- What becomes of a leaf. -/
inductive Role where
  | displayed
  | other
  | signature
  deriving DecidableEq

/-- The leaves are the part displayed, the parts listed and the signatures, each of them in one role. -/
structure BodyPart.Accounted (codecs : Codecs) (root : BodyPart) (role : PartRef → Role) : Prop where
  distinct : (root.leaves.map (·.address)).Nodup
  displayed : root.leaves.filter (fun leaf => role leaf = .displayed) = (root.displayPart codecs).toList
  others : root.leaves.filter (fun leaf => role leaf = .other) = root.otherParts codecs
  signatures : root.leaves.filter (fun leaf => role leaf = .signature) =
    root.leaves.filter fun leaf => leaf.part.isSignature

namespace BodyPart

section Leaves

variable {codecs : Codecs} {ref : PartRef} {part : BodyPart}

/-- A container that has parts. -/
def isDivided (part : BodyPart) : Bool := part.isMultipart && !part.parts.isEmpty

theorem leavesAt_divided (here : List Nat) (h : part.isDivided = true) :
    leavesAt here part = leavesEach here 0 part.parts := by
  cases part
  exact if_pos h

theorem leavesAt_whole (here : List Nat) (h : part.isDivided = false) : leavesAt here part = [⟨here, part⟩] := by
  cases part
  exact if_neg (ne_true_of_eq_false h)

theorem collectLeaves_divided (shown : Option (List Nat)) (here : List Nat) (h : part.isDivided = true) :
    collectLeaves shown here part = collectEach shown here 0 part.parts := by
  cases part
  exact if_pos h

theorem collectLeaves_whole (shown : Option (List Nat)) (here : List Nat) (h : part.isDivided = false) :
    collectLeaves shown here part = if shown = some here then [] else [⟨here, part⟩] := by
  cases part
  exact if_neg (ne_true_of_eq_false h)

/-- `display_part` of a container, by what its parts would show. -/
def chosen (part : BodyPart) (shown : List PartRef) : Option PartRef :=
  if part.contentType.subtype = "alternative".toList then
    (shown.find? fun ref => ref.part.contentType.subtype = "plain".toList) <|> shown.head?
  else shown.head?

theorem displayPartAt_eq (here : List Nat) (part : BodyPart) : displayPartAt codecs here part =
    if !part.isMultipart then if part.isDisplayable codecs then some ⟨here, part⟩ else none
    else if part.parts.isEmpty then some ⟨here, part⟩
    else part.chosen (displayPartsAt codecs here 0 part.parts) := by
  cases part
  rfl

theorem displayPartAt_divided (here : List Nat) (h : part.isDivided = true) :
    displayPartAt codecs here part = part.chosen (displayPartsAt codecs here 0 part.parts) := by
  obtain ⟨hmultipart, hparts⟩ := Bool.and_eq_true_iff.mp h
  rw [displayPartAt_eq, hmultipart, Bool.eq_false_of_not_eq_true' hparts]
  rfl

theorem displayPartAt_whole (here : List Nat) (h : part.isDivided = false) (hshowable : part.IsShowable codecs) :
    displayPartAt codecs here part = some ⟨here, part⟩ := by
  rw [displayPartAt_eq]
  cases hmultipart : part.isMultipart with
  | false =>
      rcases hshowable with hdisplayable | ⟨hmultipart', -⟩
      · simp [hdisplayable]
      · rw [hmultipart] at hmultipart'
        cases hmultipart'
  | true =>
      have hempty : part.parts.isEmpty = true := by simpa [isDivided, hmultipart] using h
      simp [hempty]

theorem displayPartAt_none (here : List Nat) (h : part.isDivided = false) (hshowable : ¬ part.IsShowable codecs) :
    displayPartAt codecs here part = none := by
  rw [displayPartAt_eq]
  cases hmultipart : part.isMultipart with
  | false =>
      have hdisplayable : ¬ part.isDisplayable codecs = true := fun hd => hshowable (Or.inl hd)
      simp [hdisplayable]
  | true =>
      have hempty : part.parts.isEmpty = true := by simpa [isDivided, hmultipart] using h
      exact absurd (Or.inr ⟨hmultipart, List.isEmpty_iff.mp hempty⟩) hshowable

theorem chosen_mem {shown : List PartRef} (h : part.chosen shown = some ref) : ref ∈ shown := by
  unfold chosen at h
  by_cases halternative : part.contentType.subtype = "alternative".toList
  · rw [if_pos halternative] at h
    cases hplain : shown.find? fun ref => ref.part.contentType.subtype = "plain".toList with
    | some plain =>
        rw [hplain] at h
        cases h
        exact List.mem_of_find?_eq_some hplain
    | none =>
        rw [hplain] at h
        exact List.mem_of_mem_head? h
  · rw [if_neg halternative] at h
    exact List.mem_of_mem_head? h

/-- Something is chosen if there is anything to choose from. -/
theorem chosen_isSome {shown : List PartRef} (h : shown ≠ []) : (part.chosen shown).isSome := by
  obtain ⟨first, rest, rfl⟩ := List.exists_cons_of_ne_nil h
  unfold chosen
  by_cases halternative : part.contentType.subtype = "alternative".toList
  · rw [if_pos halternative, List.head?_cons]
    cases (first :: rest).find? fun ref => ref.part.contentType.subtype = "plain".toList <;> rfl
  · rw [if_neg halternative, List.head?_cons]
    rfl

/-! ### Both walks over the leaves -/

mutual

/-- What is collected is the leaves but the one shown. -/
theorem collectLeaves_filter (shown : Option (List Nat)) : ∀ (part : BodyPart) (here : List Nat),
    collectLeaves shown here part = (leavesAt here part).filter fun leaf => decide (shown ≠ some leaf.address)
  | .mk headers contentType encoding disposition lines parts, here => by
      have hparts := collectEach_filter shown parts here 0
      cases h : (BodyPart.mk headers contentType encoding disposition lines parts).isDivided with
      | true =>
          rw [collectLeaves_divided shown here h, leavesAt_divided here h]
          exact hparts
      | false =>
          rw [collectLeaves_whole shown here h, leavesAt_whole here h]
          by_cases hshown : shown = some here <;> simp [hshown]

theorem collectEach_filter (shown : Option (List Nat)) : ∀ (parts : List BodyPart) (here : List Nat) (index : Nat),
    collectEach shown here index parts =
      (leavesEach here index parts).filter fun leaf => decide (shown ≠ some leaf.address)
  | [], here, index => rfl
  | part :: rest, here, index => by
      rw [collectEach, leavesEach, List.filter_append, collectLeaves_filter shown part,
        collectEach_filter shown rest]

end

mutual

/-- What is shown is a leaf that can be shown. -/
theorem displayPartAt_mem : ∀ (part : BodyPart) (here : List Nat), displayPartAt codecs here part = some ref →
    ref ∈ leavesAt here part ∧ ref.part.IsShowable codecs
  | .mk headers contentType encoding disposition lines parts, here => by
      have hparts := displayPartsAt_mem parts here 0
      intro hshown
      cases h : (BodyPart.mk headers contentType encoding disposition lines parts).isDivided with
      | true =>
          rw [displayPartAt_divided here h] at hshown
          rw [leavesAt_divided here h]
          exact hparts (chosen_mem hshown)
      | false =>
          by_cases hshowable : (BodyPart.mk headers contentType encoding disposition lines parts).IsShowable codecs
          · rw [displayPartAt_whole here h hshowable] at hshown
            cases hshown
            rw [leavesAt_whole here h]
            exact ⟨List.mem_cons_self, hshowable⟩
          · rw [displayPartAt_none here h hshowable] at hshown
            cases hshown

theorem displayPartsAt_mem : ∀ (parts : List BodyPart) (here : List Nat) (index : Nat),
    ref ∈ displayPartsAt codecs here index parts →
      ref ∈ leavesEach here index parts ∧ ref.part.IsShowable codecs
  | [], here, index => fun h => absurd h List.not_mem_nil
  | part :: rest, here, index => by
      intro h
      rw [displayPartsAt] at h
      rw [leavesEach]
      rcases List.mem_append.mp h with h | h
      · obtain ⟨hleaf, hshowable⟩ := displayPartAt_mem part (here ++ [index]) (Option.mem_toList.mp h)
        exact ⟨List.mem_append_left _ hleaf, hshowable⟩
      · obtain ⟨hleaf, hshowable⟩ := displayPartsAt_mem rest here (index + 1) h
        exact ⟨List.mem_append_right _ hleaf, hshowable⟩

end

mutual

/-- Something is shown if a leaf can be shown. -/
theorem displayPartAt_isSome : ∀ (part : BodyPart) (here : List Nat), ref ∈ leavesAt here part →
    ref.part.IsShowable codecs → (displayPartAt codecs here part).isSome
  | .mk headers contentType encoding disposition lines parts, here => by
      have hparts := displayPartsAt_ne_nil parts here 0
      intro hleaf hshowable
      cases h : (BodyPart.mk headers contentType encoding disposition lines parts).isDivided with
      | true =>
          rw [leavesAt_divided here h] at hleaf
          rw [displayPartAt_divided here h]
          exact chosen_isSome (hparts hleaf hshowable)
      | false =>
          rw [leavesAt_whole here h] at hleaf
          obtain rfl := List.mem_singleton.mp hleaf
          rw [displayPartAt_whole here h hshowable]
          rfl

theorem displayPartsAt_ne_nil : ∀ (parts : List BodyPart) (here : List Nat) (index : Nat),
    ref ∈ leavesEach here index parts → ref.part.IsShowable codecs → displayPartsAt codecs here index parts ≠ []
  | [], here, index => fun h _ => absurd h List.not_mem_nil
  | part :: rest, here, index => by
      intro hleaf hshowable hnil
      rw [displayPartsAt] at hnil
      obtain ⟨hfirst, hrest⟩ := List.append_eq_nil_iff.mp hnil
      rw [leavesEach] at hleaf
      rcases List.mem_append.mp hleaf with hleaf | hleaf
      · obtain ⟨shown, hshown⟩ := Option.isSome_iff_exists.mp (displayPartAt_isSome part _ hleaf hshowable)
        rw [hshown] at hfirst
        cases hfirst
      · exact displayPartsAt_ne_nil rest here (index + 1) hleaf hshowable hrest

end

/-! ### No two leaves have one address -/

mutual

theorem leavesAt_below : ∀ (part : BodyPart) (here : List Nat), ref ∈ leavesAt here part → here <+: ref.address
  | .mk headers contentType encoding disposition lines parts, here => by
      have hparts := leavesEach_below parts here 0
      intro hleaf
      cases h : (BodyPart.mk headers contentType encoding disposition lines parts).isDivided with
      | true =>
          rw [leavesAt_divided here h] at hleaf
          obtain ⟨index, -, hbelow⟩ := hparts hleaf
          exact (List.prefix_append _ _).trans hbelow
      | false =>
          rw [leavesAt_whole here h] at hleaf
          obtain rfl := List.mem_singleton.mp hleaf
          exact List.prefix_refl _

theorem leavesEach_below : ∀ (parts : List BodyPart) (here : List Nat) (index : Nat),
    ref ∈ leavesEach here index parts → ∃ later, index ≤ later ∧ here ++ [later] <+: ref.address
  | [], here, index => fun h => absurd h List.not_mem_nil
  | part :: rest, here, index => by
      intro hleaf
      rw [leavesEach] at hleaf
      rcases List.mem_append.mp hleaf with hleaf | hleaf
      · exact ⟨index, Nat.le_refl _, leavesAt_below part _ hleaf⟩
      · obtain ⟨later, hlater, hbelow⟩ := leavesEach_below rest here (index + 1) hleaf
        exact ⟨later, Nat.le_of_succ_le hlater, hbelow⟩

end

mutual

theorem leavesAt_nodup : ∀ (part : BodyPart) (here : List Nat), ((leavesAt here part).map (·.address)).Nodup
  | .mk headers contentType encoding disposition lines parts, here => by
      have hparts := leavesEach_nodup parts here 0
      cases h : (BodyPart.mk headers contentType encoding disposition lines parts).isDivided with
      | true =>
          rw [leavesAt_divided here h]
          exact hparts
      | false =>
          rw [leavesAt_whole here h]
          exact List.nodup_singleton _

theorem leavesEach_nodup : ∀ (parts : List BodyPart) (here : List Nat) (index : Nat),
    ((leavesEach here index parts).map (·.address)).Nodup
  | [], here, index => List.nodup_nil
  | part :: rest, here, index => by
      rw [leavesEach, List.map_append, List.nodup_append]
      refine ⟨leavesAt_nodup part _, leavesEach_nodup rest here (index + 1), ?_⟩
      rintro address haddress other hother rfl
      obtain ⟨leaf, hleaf, rfl⟩ := List.mem_map.mp haddress
      obtain ⟨leaf', hleaf', hsame⟩ := List.mem_map.mp hother
      have hbelow := leavesAt_below part _ hleaf
      obtain ⟨later, hlater, hbelow'⟩ := leavesEach_below rest here (index + 1) hleaf'
      -- the two ways down part at `here`
      rw [hsame] at hbelow'
      have hdown := List.prefix_of_prefix_length_le hbelow hbelow' (by simp)
      have hindex := (List.append_cancel_left_eq _ _ _).mp (hdown.eq_of_length (by simp))
      cases hindex
      omega

end

end Leaves

/-! ## Every part is accounted for -/

section Accounted

variable (codecs : Codecs) (root : BodyPart)

/-- The role of a leaf. -/
def roleOf (leaf : PartRef) : Role :=
  if (root.displayPart codecs).map (·.address) = some leaf.address then .displayed
  else if leaf.part.isSignature then .signature
  else .other

theorem isSignature_application {part : BodyPart} (h : part.isSignature = true) :
    part.contentType.type_ = "application".toList := by
  unfold isSignature at h
  exact of_decide_eq_true (Bool.and_eq_true_iff.mp h).1

theorem isShowable_type {part : BodyPart} (h : part.IsShowable codecs) :
    part.contentType.type_ = "text".toList ∨ part.contentType.type_ = "multipart".toList := by
  rcases h with hdisplayable | ⟨hmultipart, -⟩
  · unfold isDisplayable ContentType.isText at hdisplayable
    exact Or.inl (of_decide_eq_true (Bool.and_eq_true_iff.mp hdisplayable).1)
  · unfold isMultipart ContentType.isMultipart at hmultipart
    exact Or.inr (of_decide_eq_true hmultipart)

theorem isShowable_not_signature {part : BodyPart} (h : part.IsShowable codecs) : part.isSignature = false := by
  refine Bool.eq_false_iff.mpr fun hsignature => ?_
  have happlication := isSignature_application hsignature
  rcases isShowable_type codecs h with htext | hmultipart
  · rw [htext] at happlication
    revert happlication
    decide
  · rw [hmultipart] at happlication
    revert happlication
    decide

/-- Of leaves with addresses of their own, one has a given address. -/
theorem filter_address {leaves : List PartRef} {ref : PartRef} (hnodup : (leaves.map (·.address)).Nodup)
    (hmem : ref ∈ leaves) : (leaves.filter fun leaf => ref.address = leaf.address) = [ref] := by
  induction leaves with
  | nil => cases hmem
  | cons leaf leaves ih =>
      obtain ⟨hfirst, hrest⟩ := List.nodup_cons.mp hnodup
      rcases List.mem_cons.mp hmem with rfl | hmem
      · have hnone : (leaves.filter fun leaf => ref.address = leaf.address) = [] := by
          refine List.filter_eq_nil_iff.mpr fun leaf hleaf hsame => hfirst ?_
          exact List.mem_map.mpr ⟨leaf, hleaf, (of_decide_eq_true hsame).symm⟩
        simp [hnone]
      · have hne : ref.address ≠ leaf.address := fun hsame => hfirst (List.mem_map.mpr ⟨ref, hmem, hsame⟩)
        simp [hne, ih hrest hmem]

theorem leaves_nodup : (root.leaves.map (·.address)).Nodup := leavesAt_nodup root []

/-- The part displayed is no signature. -/
theorem signature_not_displayed {leaf : PartRef} (hleaf : leaf ∈ root.leaves) (h : leaf.part.isSignature = true) :
    (root.displayPart codecs).map (·.address) ≠ some leaf.address := by
  intro hshown
  obtain ⟨ref, href, hsame⟩ := Option.map_eq_some_iff.mp hshown
  obtain ⟨hmem, hshowable⟩ := displayPartAt_mem root [] href
  obtain rfl : ref = leaf := List.inj_on_of_nodup_map root.leaves_nodup hmem hleaf hsame
  rw [isShowable_not_signature codecs hshowable] at h
  cases h

theorem accounted_roleOf : root.Accounted codecs (root.roleOf codecs) where
  distinct := root.leaves_nodup
  displayed := by
    have hrole : ∀ leaf ∈ root.leaves, decide (root.roleOf codecs leaf = .displayed) =
        decide ((root.displayPart codecs).map (·.address) = some leaf.address) := by
      intro leaf _
      unfold roleOf
      by_cases hshown : (root.displayPart codecs).map (·.address) = some leaf.address
      · simp [hshown]
      · cases hsignature : leaf.part.isSignature <;> simp [hshown]
    rw [List.filter_congr hrole]
    cases hshown : root.displayPart codecs with
    | none => simp
    | some ref =>
        have hmem := (displayPartAt_mem root [] hshown).1
        simpa using filter_address root.leaves_nodup hmem
  others := by
    show _ = (collectLeaves _ [] root).filter _
    rw [collectLeaves_filter, List.filter_filter]
    refine List.filter_congr fun leaf _ => ?_
    unfold roleOf
    by_cases hshown : (root.displayPart codecs).map (·.address) = some leaf.address
    · simp [hshown]
    · cases hsignature : leaf.part.isSignature <;> simp [hshown]
  signatures := by
    refine List.filter_congr fun leaf hleaf => ?_
    unfold roleOf
    cases hsignature : leaf.part.isSignature with
    | true => simp [root.signature_not_displayed codecs hleaf hsignature]
    | false =>
        by_cases hshown : (root.displayPart codecs).map (·.address) = some leaf.address <;> simp [hshown]

/-- **Every part is accounted for**: each leaf is displayed, listed or a signature, and something is displayed if
and only if a leaf can be. -/
theorem parts_accounted : ∃ role, root.Accounted codecs role ∧
    ((root.displayPart codecs).isSome ↔ ∃ leaf ∈ root.leaves, leaf.part.IsShowable codecs) := by
  refine ⟨root.roleOf codecs, root.accounted_roleOf codecs, fun h => ?_, ?_⟩
  · obtain ⟨ref, hshown⟩ := Option.isSome_iff_exists.mp h
    obtain ⟨hleaf, hshowable⟩ := displayPartAt_mem root [] hshown
    exact ⟨ref, hleaf, hshowable⟩
  · rintro ⟨leaf, hleaf, hshowable⟩
    exact displayPartAt_isSome root [] hleaf hshowable

end Accounted

end BodyPart

end Nntp.Proto
