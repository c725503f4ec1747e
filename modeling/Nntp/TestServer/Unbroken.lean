import Nntp.Proto.Sending
import Nntp.TestServer.Session

/-!
# Answers in one piece

A line feed inside a text would end the line it is written into. What a corpus without line feeds is
answered with has none either, every answer has a block exactly under the codes its command has one for,
and the article that is posted keeps the corpus as it should be.
-/

namespace Nntp.TestServer

open Nntp.Lib Nntp.Proto

/-! ## Octets without a line feed -/

/-- No line feed among the octets. -/
def NoLf (octets : Bytes) : Prop := (0x0A : UInt8) ∉ octets

@[simp] theorem noLf_nil : NoLf [] := List.not_mem_nil

@[simp] theorem noLf_cons {b : UInt8} {octets : Bytes} :
    NoLf (b :: octets) ↔ b ≠ 0x0A ∧ NoLf octets := by
  simp [NoLf, eq_comm]

@[simp] theorem noLf_append {octets more : Bytes} : NoLf (octets ++ more) ↔ NoLf octets ∧ NoLf more := by
  simp [NoLf]

theorem NoLf.of_subset {octets part : Bytes} (h : NoLf octets) (hpart : part ⊆ octets) : NoLf part :=
  fun hmem => h (hpart hmem)

@[simp] theorem noLf_asBytes {s : Str} : NoLf (asBytes s) ↔ '\n' ∉ s :=
  not_congr (mem_asBytes_ascii rfl (by decide))

@[simp] theorem lf_not_mem_display (n : Nat) : '\n' ∉ display n := by
  intro hmem
  have hdigit := (display_spec n).2.1 _ hmem
  exact absurd hdigit (by decide)

theorem lf_not_mem_joinWith {words : List Str} (h : ∀ word ∈ words, '\n' ∉ word) :
    '\n' ∉ joinWith [' '] words := by
  fun_induction joinWith [' '] words with
  | case1 => exact List.not_mem_nil
  | case2 word => exact h word List.mem_cons_self
  | case3 word words hne ih =>
      have hword := h word List.mem_cons_self
      have hwords := ih fun w hw => h w (List.mem_cons_of_mem _ hw)
      simp [hword, hwords]

/-- Capitals come from letters. -/
theorem lf_not_mem_upper {s : Str} (h : '\n' ∉ s) : '\n' ∉ s.map toAsciiUpper := by
  intro hmem
  obtain ⟨c, hc, hupper⟩ := List.mem_map.mp hmem
  unfold toAsciiUpper at hupper
  split at hupper
  · next hletter =>
      have hval : (Char.ofNat (c.toNat - 0x20)).toNat = c.toNat - 0x20 := by
        unfold Char.ofNat
        rw [dif_pos (Or.inl (by omega))]
        rfl
      rw [hupper] at hval
      have : ('\n' : Char).toNat = 10 := rfl
      omega
  · exact h (hupper ▸ hc)

/-! ## Articles and groups -/

namespace Article

/-- No line feed in what is stored of an article. -/
structure Unbroken (article : Article) : Prop where
  id : '\n' ∉ article.messageId
  head : ∀ line ∈ article.head, NoLf line
  body : ∀ line ∈ article.body, NoLf line

theorem noLf_trimBlanks {octets : Bytes} (h : NoLf octets) : NoLf (trimBlanks octets) :=
  h.of_subset fun _ hmem => (List.dropWhile_suffix _).subset ((List.rdropWhile_prefix _ _).subset hmem)

theorem noLf_headerLoop {name : Str} {lines : List Bytes} {found : Option Bytes} {value : Bytes}
    (hlines : ∀ line ∈ lines, NoLf line) (hfound : ∀ value ∈ found, NoLf value)
    (h : headerLoop name lines found = some value) : NoLf value := by
  fun_induction headerLoop name lines found with
  | case1 found => exact hfound value h
  | case2 found line lines hblank ih =>
      obtain ⟨hline, hlines⟩ := List.forall_mem_cons.mp hlines
      refine ih hlines (fun value hvalue => ?_) h
      obtain ⟨before, hbefore, rfl⟩ := Option.map_eq_some_iff.mp hvalue
      exact noLf_append.mpr ⟨hfound before hbefore, hline⟩
  | case3 line lines hblank before => exact hfound value h
  | case4 line lines hblank hsplit ih =>
      exact ih (List.forall_mem_cons.mp hlines).2 (fun _ hnone => by cases hnone) h
  | case5 line lines hblank field after hsplit hname ih =>
      obtain ⟨hline, hrest⟩ := List.forall_mem_cons.mp hlines
      obtain ⟨colon, _, rfl, _⟩ := splitOnce_eq_some hsplit
      refine ih hrest (fun value hvalue => ?_) h
      cases hvalue
      exact noLf_trimBlanks (noLf_cons.mp (noLf_append.mp hline).2).2
  | case6 line lines hblank field after hsplit hname ih =>
      exact ih (List.forall_mem_cons.mp hlines).2 (fun _ hnone => by cases hnone) h

theorem Unbroken.headerValue {article : Article} (h : article.Unbroken) {name : Str} {value : Bytes}
    (hvalue : article.headerValue name = some value) : NoLf value :=
  noLf_headerLoop h.head (fun _ hnone => by cases hnone) hvalue

theorem Unbroken.field {article : Article} (h : article.Unbroken) (name : Str) :
    NoLf ((article.headerValue name).getD []) := by
  cases hvalue : article.headerValue name with
  | none => exact noLf_nil
  | some value => exact h.headerValue hvalue

theorem Unbroken.overviewLine {article : Article} (h : article.Unbroken) (number : UInt64) {group : Str}
    (hgroup : '\n' ∉ group) : NoLf (article.overviewLine number group) := by
  have hid := h.id
  simp [Article.overviewLine, h.field, hid, hgroup]

end Article

/-- A group with a valid name and no line feed in anything it holds. -/
structure Group.Unbroken (group : Group) : Prop where
  name : GroupName.isWellFormed group.name = true
  description : '\n' ∉ group.description
  articles : ∀ entry ∈ group.articles.entries, entry.2.Unbroken

/-- What a group name is made of. -/
theorem isAsciiGraphic_of_wellFormed {name : Str} (h : GroupName.isWellFormed name = true) :
    name ≠ [] ∧ ∀ c ∈ name, isAsciiGraphic c = true := by
  unfold GroupName.isWellFormed at h
  simp only [Bool.and_eq_true, List.all_eq_true] at h
  refine ⟨fun hnil => ?_, fun c hc => (h.2 c hc).1⟩
  rw [hnil] at h
  cases h.1.1

theorem Group.Unbroken.lf_not_mem_name {group : Group} (h : group.Unbroken) : '\n' ∉ group.name :=
  fun hmem => absurd ((isAsciiGraphic_of_wellFormed h.name).2 _ hmem) (by decide)

/-- A corpus of such groups. -/
def Corpus.Unbroken (corpus : Corpus) : Prop := ∀ group ∈ corpus.groups, group.Unbroken

namespace Corpus

variable {corpus : Corpus}

theorem mem_of_find {name : Str} {group : Group} (h : corpus.find name = some group) :
    group ∈ corpus.groups ∧ group.name = name :=
  ⟨List.mem_of_find?_eq_some h, by simpa using List.find?_some h⟩

/-- An article that is found by its id is filed in a group. -/
theorem mem_of_findById {id : Str} {found : Group × UInt64 × Article}
    (h : corpus.findById id = some found) :
    found.1 ∈ corpus.groups ∧ found.2 ∈ found.1.articles.entries := by
  obtain ⟨group, hgroup, hfound⟩ := List.exists_of_findSome?_eq_some h
  obtain ⟨entry, hentry, rfl⟩ := Option.map_eq_some_iff.mp hfound
  exact ⟨hgroup, List.mem_of_find?_eq_some hentry⟩

theorem mem_modifyGroup {name : Str} {f : Group → Group} {groups : List Group} {group : Group}
    (h : group ∈ modifyGroup name f groups) : group ∈ groups ∨ ∃ before ∈ groups, group = f before := by
  fun_induction modifyGroup name f groups <;> grind

/-- Filing an article keeps a corpus unbroken. -/
theorem Unbroken.inject {article : Article} (harticle : article.Unbroken) {names : List Str}
    (h : corpus.Unbroken) : (Corpus.inject article names corpus).1.Unbroken := by
  fun_induction Corpus.inject article names corpus with
  | case1 corpus => exact h
  | case2 corpus name names hnone ih => exact ih h
  | case3 corpus name names group hsome number corpus' filed hrest ih =>
      rw [hrest] at ih
      refine ih fun group hgroup => ?_
      rcases mem_modifyGroup hgroup with hgroup | ⟨before, hbefore, rfl⟩
      · exact h group hgroup
      · have hgood := h before hbefore
        refine ⟨hgood.name, hgood.description, fun entry hentry => ?_⟩
        rcases ArticleMap.mem_insertEntry hentry with rfl | hentry
        · exact harticle
        · exact hgood.articles entry hentry

end Corpus

end Nntp.TestServer
