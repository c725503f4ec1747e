import Nntp.Proto.Thread.Linking
import Nntp.Proto.Thread.Subject

/-!
# Where a follow-up goes

The References header of a follow-up is its parent's chain and the parent's id. Read back it is that list again,
whatever is in it, and its last entry is the parent. Nobody refers to the follow-up, so no other chain links it
or is in the way of its own link.
-/

namespace Nntp.Proto

open Nntp.Lib Arena

/-! ## The References header -/

namespace MessageId

/-- How a message-id is spelled. -/
theorem spelled (id : MessageId) : ∃ text, id.asStr = '<' :: text ++ ['>'] ∧
    ∀ c ∈ text, isWhitespace c = false ∧ c ≠ '<' ∧ c ≠ '>' := by
  have hwell := id.wellFormed
  unfold isWellFormed at hwell
  cases hbetween : between id.asStr with
  | none =>
      rw [hbetween] at hwell
      simp at hwell
  | some text =>
      obtain ⟨tail, hpre, hsuf⟩ := Option.bind_eq_some_iff.mp hbetween
      obtain ⟨back, hback, hrev⟩ := Option.map_eq_some_iff.mp hsuf
      have htail : tail = text ++ ['>'] := by
        have := stripPrefix_eq_some.mp hback
        rw [← List.reverse_inj, this, ← hrev]
        simp
      refine ⟨text, by rw [stripPrefix_eq_some.mp hpre, htail]; rfl, fun c hc => ?_⟩
      rw [hbetween] at hwell
      simp only [Bool.and_eq_true, Bool.not_eq_true', List.any_eq_false, Bool.or_eq_true, beq_iff_eq,
        not_or, Bool.not_eq_true] at hwell
      obtain ⟨⟨⟨hspace, _⟩, hopen⟩, hclose⟩ := hwell.2.2 c hc
      exact ⟨hspace, hopen, hclose⟩

theorem trim_asStr (id : MessageId) : trim id.asStr = id.asStr := by
  obtain ⟨text, heq, _⟩ := id.spelled
  rw [heq]
  apply trim_of_edges
  · intro c hc
    cases hc
    decide
  · intro c hc
    rw [List.getLast?_append] at hc
    cases hc
    decide

theorem parse_asStr (id : MessageId) : parse id.asStr = .ok id := by
  unfold parse
  simp [trim_asStr, id.wellFormed]

section ParseList

variable {value front afterOpen candidate rest : Str}

theorem parseList_none (hopen : splitOnce (· == '<') value = none) : parseList value = [] := by
  fun_cases parseList value with
  | case1 => rfl
  | case2 _ _ h => cases hopen.symm.trans h
  | case3 _ _ h => cases hopen.symm.trans h
  | case4 _ _ h => cases hopen.symm.trans h

section Open

variable (hopen : splitOnce (· == '<') value = some (front, afterOpen))
include hopen

theorem parseList_unclosed (hclose : splitOnce (· == '>') afterOpen = none) : parseList value = [] := by
  fun_cases parseList value with
  | case1 h => cases hopen.symm.trans h
  | case2 => rfl
  | case3 _ _ h _ _ h' =>
      cases hopen.symm.trans h
      cases hclose.symm.trans h'
  | case4 _ _ h _ _ h' =>
      cases hopen.symm.trans h
      cases hclose.symm.trans h'

variable (hclose : splitOnce (· == '>') afterOpen = some (candidate, rest))
include hclose

/-- A candidate that is a message-id is kept. -/
theorem parseList_some {id : MessageId} (hparse : parse ('<' :: candidate ++ ['>']) = .ok id) :
    parseList value = id :: parseList rest := by
  fun_cases parseList value with
  | case1 h => cases hopen.symm.trans h
  | case2 _ _ h h' =>
      cases hopen.symm.trans h
      cases hclose.symm.trans h'
  | case3 _ _ h _ _ h' id' hid =>
      cases hopen.symm.trans h
      cases hclose.symm.trans h'
      cases hparse.symm.trans hid
      rfl
  | case4 _ _ h _ _ h' _ hid =>
      cases hopen.symm.trans h
      cases hclose.symm.trans h'
      cases hparse.symm.trans hid

/-- A candidate that is none is left out. -/
theorem parseList_error {error : ProtoError} (hparse : parse ('<' :: candidate ++ ['>']) = .error error) :
    parseList value = parseList rest := by
  fun_cases parseList value with
  | case1 h => cases hopen.symm.trans h
  | case2 _ _ h h' =>
      cases hopen.symm.trans h
      cases hclose.symm.trans h'
  | case3 _ _ h _ _ h' id' hid =>
      cases hopen.symm.trans h
      cases hclose.symm.trans h'
      cases hparse.symm.trans hid
  | case4 _ _ h _ _ h' _ hid =>
      cases hopen.symm.trans h
      cases hclose.symm.trans h'
      rfl

end Open

/-- What is in front of the first opening bracket is skipped. -/
theorem parseList_skip {c : Char} (hc : c ≠ '<') (rest : Str) : parseList (c :: rest) = parseList rest := by
  have hsplit : splitOnce (· == '<') (c :: rest) =
      (splitOnce (· == '<') rest).map fun r => (c :: r.1, r.2) := by
    simp [splitOnce, hc]
  cases hopen : splitOnce (· == '<') rest with
  | none => rw [parseList_none hopen, parseList_none (by rw [hsplit, hopen]; rfl)]
  | some pair =>
      rw [hopen, Option.map_some] at hsplit
      cases hclose : splitOnce (· == '>') pair.2 with
      | none => rw [parseList_unclosed hopen hclose, parseList_unclosed hsplit hclose]
      | some pair' =>
          cases hparse : parse ('<' :: pair'.1 ++ ['>']) with
          | ok id => rw [parseList_some hopen hclose hparse, parseList_some hsplit hclose hparse]
          | error e => rw [parseList_error hopen hclose hparse, parseList_error hsplit hclose hparse]

/-- A message-id is read, and the reading goes on behind it. -/
theorem parseList_append (id : MessageId) (rest : Str) : parseList (id.asStr ++ rest) = id :: parseList rest := by
  obtain ⟨text, heq, hchars⟩ := id.spelled
  have hopen : splitOnce (· == '<') (id.asStr ++ rest) = some ([], text ++ '>' :: rest) := by
    rw [heq]
    simp [splitOnce]
  have hclose : splitOnce (· == '>') (text ++ '>' :: rest) = some (text, rest) :=
    splitOnce_append (fun c hc => by simpa using (hchars c hc).2.2) rfl rest
  exact parseList_some hopen hclose (heq ▸ id.parse_asStr)

end ParseList

/-- **A chain that is joined with blanks is read back.** -/
theorem parseList_joinWith (ids : List MessageId) : parseList (joinWith [' '] (ids.map (·.asStr))) = ids := by
  induction ids with
  | nil => exact parseList_none rfl
  | cons id ids ih =>
      cases ids with
      | nil =>
          have hone := id.parseList_append []
          rw [List.append_nil, show parseList [] = [] from parseList_none rfl] at hone
          exact hone
      | cons next ids =>
          show parseList (id.asStr ++ [' '] ++ joinWith [' '] ((next :: ids).map (·.asStr))) = _
          rw [List.append_assoc, parseList_append, List.singleton_append, parseList_skip (by decide), ih]

end MessageId

/-- The chain of a follow-up is its parent's, and the parent. -/
theorem header_followUp_references (parent : FollowUp) {id : MessageId} (hid : parent.messageId = some id)
    (sender : Str) : (Draft.followUp parent sender).header "References".toList =
      some (joinWith [' '] ((parent.references ++ [id]).map (·.asStr))) := by
  unfold Draft.followUp
  rw [hid]
  dsimp only
  split
  · next hnil => simp at hnil
  · rw [List.map_append]
    rfl

/-! ## Its container -/

/-- Linking records leaves an article without a child that no chain names. -/
theorem linkAll_leaf {records : List OverviewRecord} {count i c : Nat} (rest : List (OverviewRecord × Nat)) :
    ∀ {a : Arena}, Named a records → Inv a count → a.byArticle[i]? = some c → (∀ x, a.parentOf x ≠ some c) →
      (∀ r ∈ rest, ∀ reference ∈ r.1.references, ¬ Claims records i reference.asStr) →
      ∀ x, (a.linkAll rest).parentOf x ≠ some c := by
  induction rest with
  | nil => exact fun _ _ _ hleaf _ => hleaf
  | cons r rest ih =>
      intro a hn h hc hleaf hrest
      refine ih (hn.linkReferences h r.2 r.1) (h.linkReferences r.2 r.1) ?_
        (linkReferences_leaf hn h hc hleaf r.2 (hrest r List.mem_cons_self))
        fun r' hr' => hrest r' (List.mem_cons_of_mem _ hr')
      rw [(extends_linkReferences h r.2 r.1).byArticle]
      exact hc

/-- An article that nobody refers to is linked to the last of its own references. -/
theorem unnamed_parentOf {records : List OverviewRecord} {j : Nat} {reply : OverviewRecord}
    (hreply : records[j]? = some reply)
    (hfresh : ∀ r ∈ records, ∀ reference ∈ r.references, ¬ Claims records j reference.asStr)
    {last : MessageId} (hlast : reply.references.getLast? = some last) :
    ∃ c l, (linkRecords records).byArticle[j]? = some c ∧
      (linkRecords records).byId.lookup last.asStr = some l ∧ (linkRecords records).parentOf c = some l := by
  have hinserted := insertAll_inserted records
  obtain ⟨hinv, hext⟩ := linkedBefore_spec records j
  have hnamed := linkedBefore_named records j
  have hmem : ∀ r ∈ (records.take j).zipIdx, r.1 ∈ records := fun r hr =>
    List.mem_of_getElem? (mem_before hr).2
  have hjlt := (List.getElem?_eq_some_iff.mp hreply).1
  obtain ⟨c, hc⟩ : ∃ c, (insertAll records).byArticle[j]? = some c :=
    ⟨_, List.getElem?_eq_getElem (hinserted.inv.byArticle_length ▸ hjlt)⟩
  have hcbefore : (linkedBefore records j).byArticle[j]? = some c := by
    rw [hext.byArticle]
    exact hc
  have htail : ∀ r ∈ records, ∀ reference ∈ (lastReferences r).tail, ¬ Claims records j reference.asStr :=
    fun r hr reference href => hfresh r hr reference (List.mem_of_mem_drop (List.mem_of_mem_tail href))
  -- when the loop comes to it, its container has neither a parent nor a child
  have hfree : (linkedBefore records j).parentOf c = none :=
    linkAll_free _ hinserted.named hinserted.inv hc (insertAll_parentOf records c) fun r hr =>
      ⟨Nat.ne_of_lt (mem_before hr).1, htail r.1 (hmem r hr)⟩
  have hleaf : ∀ x, (linkedBefore records j).parentOf x ≠ some c :=
    linkAll_leaf _ hinserted.named hinserted.inv hc
      (fun x => by rw [insertAll_parentOf]; exact nofun) fun r hr => hfresh r.1 (hmem r hr)
  have hself := List.mem_of_getElem? hreply
  have hfree' := linkOwn_free hnamed hinv hcbefore hfree (htail reply hself)
  have hleaf' := linkOwn_leaf hnamed hinv hcbefore hleaf (hfresh reply hself)
  obtain ⟨l, hl, hlink⟩ := linkReferences_eq hinv hcbefore hlast
  obtain ⟨hown, hgrown⟩ := hinv.linkOwn reply
  have hc' : ((linkedBefore records j).linkOwn reply).1.byArticle[j]? = some c := by
    rw [hgrown.byArticle]
    exact hcbefore
  have hclt := articleOf_lt ((hown.article_iff c j).mpr hc')
  have hlc : l ≠ c := by
    rintro rfl
    exact hfresh reply hself last (List.mem_of_getLast? hlast) (hnamed.linkOwn hinv reply _ _ j hl hc')
  have hset := hown.toForest.parentOf_setParent hclt (hown.byId_lt _ _ hl) hfree' fun hbelow => by
    rcases Below.cases_child.mp hbelow with heq | ⟨x, _, hx⟩
    · exact hlc heq
    · exact hleaf' x hx
  have hend := linkRecords_at hreply
  rw [hlink] at hend
  have hstep := @extends_setParent ((linkedBefore records j).linkOwn reply).1 c l hclt
  refine ⟨c, l, ?_, hend.ids _ _ (hstep.ids _ _ hl), hend.parents _ _ hset⟩
  rw [hend.byArticle, hstep.byArticle]
  exact hc'

/-- **A follow-up goes under its parent.** The reply is any record that nobody refers to, anywhere in the list,
whose references are read from the References header of a follow-up to the only record with that id. -/
theorem followUp_under_parent {records : List OverviewRecord} {i j : Nat} {parent reply : OverviewRecord}
    {id : MessageId} (hparent : records[i]? = some parent) (hid : parent.messageId = some id)
    (honly : ∀ k, Claims records k id.asStr → k = i) (hreply : records[j]? = some reply)
    (hfresh : ∀ r ∈ records, ∀ reference ∈ r.references, reply.messageId ≠ some reference)
    {answered : FollowUp} (hanswered : answered.messageId = parent.messageId)
    (hchain : answered.references = parent.references) {sender header : Str}
    (hheader : (Draft.followUp answered sender).header "References".toList = some header)
    (hrefs : reply.references = MessageId.parseList header) :
    ∃ c p, (linkRecords records).byArticle[j]? = some c ∧ (linkRecords records).byArticle[i]? = some p ∧
      (linkRecords records).parentOf c = some p := by
  rw [header_followUp_references answered (hanswered.trans hid)] at hheader
  have hchainEq : reply.references = parent.references ++ [id] := by
    rw [hrefs, ← Option.some.inj hheader, MessageId.parseList_joinWith, hchain]
  have hclaims : ∀ r ∈ records, ∀ reference ∈ r.references, ¬ Claims records j reference.asStr := by
    rintro r hr reference href ⟨record, id', hrecord, hid', hs⟩
    cases hreply.symm.trans hrecord
    exact hfresh r hr reference href (MessageId.asStr_inj hs ▸ hid')
  have hlast : reply.references.getLast? = some id := by simp [hchainEq]
  obtain ⟨c, l, hc, hl, hcl⟩ := unnamed_parentOf hreply hclaims hlast
  obtain ⟨p, hlook, hp⟩ := (insertAll_inserted records).lookup_sole ⟨parent, id, hparent, hid, rfl⟩ honly
  have hext := (linkAll_spec records.zipIdx (insertAll_inserted records).inv).2
  refine ⟨c, p, hc, ?_, ?_⟩
  · rw [linkRecords_eq, hext.byArticle]
    exact hp
  · rw [hcl, ← hl, linkRecords_eq]
    exact hext.ids _ _ hlook

/-- A reply to an answer, listed in front of it. -/
theorem thanks_under_answer :
    ∃ c p, (linkRecords [articleWith thanksId [questionId, answerId], articleWith answerId [questionId]]).byArticle[0]? =
        some c ∧
      (linkRecords [articleWith thanksId [questionId, answerId], articleWith answerId [questionId]]).byArticle[1]? =
        some p ∧
      (linkRecords [articleWith thanksId [questionId, answerId], articleWith answerId [questionId]]).parentOf c =
        some p := by
  refine @followUp_under_parent _ 1 0 (articleWith answerId [questionId])
    (articleWith thanksId [questionId, answerId]) answerId rfl rfl ?_ rfl ?_
    ⟨some answerId, [questionId], [], [], [], []⟩ rfl rfl [] _
    (header_followUp_references _ rfl []) (MessageId.parseList_joinWith [questionId, answerId]).symm
  · rintro k ⟨record, id, hrecord, hid, hs⟩
    rcases k with _ | _ | k
    · cases hrecord
      cases hid
      exact absurd hs (by decide +kernel)
    · rfl
    · cases hrecord
  · decide +kernel

end Nntp.Proto
