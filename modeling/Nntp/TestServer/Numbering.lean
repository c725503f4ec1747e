import Mathlib.Logic.Function.Iterate
import Nntp.TestServer.Position

/-!
# Where a posted article is filed

`accept_article` and `inject`: an article goes into each carried group it names, under the next number there.
The names are taken one by one, so a group that is named twice files the article twice.
-/

namespace Nntp.TestServer

open Nntp.Lib Nntp.Proto

/-! ## The next number of a group -/

namespace ArticleMap

/-- What comes last goes to the end. -/
theorem insertEntry_above {number : UInt64} {article : Article} {entries : List (UInt64 × Article)}
    (h : ∀ entry ∈ entries, entry.1 < number) :
    insertEntry number article entries = entries ++ [(number, article)] := by
  induction entries with
  | nil => rfl
  | cons entry entries ih =>
      obtain ⟨hfirst, hrest⟩ := List.forall_mem_cons.mp h
      unfold insertEntry
      rw [if_neg (lt_asymm hfirst), if_neg (ne_of_gt hfirst), ih hrest]
      rfl

/-- Filing the same article under the same number changes nothing. -/
theorem insertEntry_same {number : UInt64} {article : Article} {entries : List (UInt64 × Article)}
    (hsorted : entries.Pairwise fun a b => a.1 < b.1) (h : (number, article) ∈ entries) :
    insertEntry number article entries = entries := by
  induction entries with
  | nil => cases h
  | cons entry entries ih =>
      obtain ⟨hfirst, hrest⟩ := List.pairwise_cons.mp hsorted
      unfold insertEntry
      rcases List.mem_cons.mp h with rfl | h
      · rw [if_neg (lt_irrefl _), if_pos rfl]
      · have hlt := hfirst _ h
        rw [if_neg (lt_asymm hlt), if_neg (ne_of_gt hlt), ih hrest h]

theorem mem_insertEntry_self (number : UInt64) (article : Article) (entries : List (UInt64 × Article)) :
    (number, article) ∈ insertEntry number article entries := by
  fun_induction insertEntry number article entries with
  | case1 => exact List.mem_singleton_self _
  | case2 => exact List.mem_cons_self
  | case3 => exact List.mem_cons_self
  | case4 _ _ _ _ ih => exact List.mem_cons_of_mem _ ih

theorem length_insertEntry (number : UInt64) (article : Article) (entries : List (UInt64 × Article)) :
    entries.length ≤ (insertEntry number article entries).length := by
  fun_induction insertEntry number article entries with
  | case1 => exact Nat.zero_le _
  | case2 => exact Nat.le_succ _
  | case3 => exact Nat.le_refl _
  | case4 _ _ _ _ ih => exact Nat.succ_le_succ ih

/-- The last number is the greatest. -/
theorem le_of_getLast? {articles : ArticleMap} {high key : UInt64} (h : articles.keys.getLast? = some high)
    (hkey : key ∈ articles.keys) : key ≤ high := by
  have hsorted : articles.keys.Pairwise (· < ·) := List.pairwise_map.mpr articles.sorted
  obtain ⟨front, hfront⟩ := List.getLast?_eq_some_iff.mp h
  rw [hfront] at hsorted hkey
  rcases List.mem_append.mp hkey with hkey | hkey
  · exact le_of_lt ((List.pairwise_append.mp hsorted).2.2 key hkey high (List.mem_singleton_self _))
  · exact le_of_eq (List.mem_singleton.mp hkey)

end ArticleMap

namespace Group

variable {group : Group} {article : Article}

/-- One more article, under the next number. -/
def file (article : Article) (group : Group) : Group :=
  { group with articles := group.articles.insert group.nextNumber article }

/-- An article is new to a group: it has one more entry, above all others, and nothing else changes. -/
def Gains (article : Article) (group after : Group) : Prop :=
  ∃ number, (∀ key ∈ group.articles.keys, key < number) ∧
    after.articles.entries = group.articles.entries ++ [(number, article)] ∧
    after = { group with articles := after.articles }

theorem entries_file : (group.file article).articles.entries =
    ArticleMap.insertEntry group.nextNumber article group.articles.entries := rfl

theorem lt_next {high : UInt64} (h : high < u64Max) : high < high + 1 := by
  rw [UInt64.lt_iff_toNat_lt] at h ⊢
  have hmax : u64Max.toNat = 18446744073709551615 := rfl
  rw [UInt64.toNat_add]
  have hone : (1 : UInt64).toNat = 1 := rfl
  omega

theorem nextNumber_eq (group : Group) : group.nextNumber = group.high.getD 0 + 1 := by
  unfold nextNumber
  cases group.high <;> rfl

theorem le_high {key : UInt64} (hkey : key ∈ group.articles.keys) : key ≤ group.high.getD 0 := by
  unfold high
  cases hlast : group.articles.keys.getLast? with
  | none =>
      rw [List.getLast?_eq_none_iff.mp hlast] at hkey
      cases hkey
  | some high => exact ArticleMap.le_of_getLast? hlast hkey

/-- The next number is above all others, as long as there is one. -/
theorem lt_nextNumber_of_high (h : group.high.getD 0 < u64Max) :
    ∀ key ∈ group.articles.keys, key < group.nextNumber := by
  intro key hkey
  rw [nextNumber_eq]
  exact lt_of_le_of_lt (le_high hkey) (lt_next h)

theorem lt_nextNumber (h : ∀ key ∈ group.articles.keys, key < u64Max) :
    ∀ key ∈ group.articles.keys, key < group.nextNumber := by
  apply lt_nextNumber_of_high
  unfold high
  cases hlast : group.articles.keys.getLast? with
  | none => decide
  | some high => exact h high (List.mem_of_getLast? hlast)

/-- An article filed once is new to the group. -/
theorem gains_file (h : ∀ key ∈ group.articles.keys, key < u64Max) : Gains article group (group.file article) := by
  have hlt := lt_nextNumber h
  refine ⟨group.nextNumber, hlt, ArticleMap.insertEntry_above fun entry hentry => ?_, rfl⟩
  exact hlt entry.1 (List.mem_map_of_mem hentry)

theorem nextNumber_eq_max : group.nextNumber = u64Max ↔ group.high = some (u64Max - 1) := by
  unfold nextNumber
  cases group.high with
  | none => exact iff_of_false (by decide) (by simp)
  | some high =>
      rw [Option.map_some, Option.getD_some, Option.some.injEq]
      unfold u64Max
      grind

/-- Behind the greatest number comes 0. -/
theorem nextNumber_of_max (h : u64Max ∈ group.articles.keys) : group.nextNumber = 0 := by
  rw [nextNumber_eq, le_antisymm (le_u64Max _) (le_high h)]
  rfl

/-- The number after an article that came last. -/
theorem nextNumber_of_last {entries : List (UInt64 × Article)} {number : UInt64}
    (h : group.articles.entries = entries ++ [(number, article)]) : group.nextNumber = number + 1 := by
  unfold nextNumber high ArticleMap.keys
  rw [h, List.map_append, List.map_cons, List.map_nil, List.getLast?_concat]
  rfl

theorem length_iterate_file (n : Nat) (group : Group) :
    group.articles.entries.length ≤ ((file article)^[n] group).articles.entries.length := by
  induction n generalizing group with
  | zero => exact Nat.le_refl _
  | succ n ih => exact (ArticleMap.length_insertEntry ..).trans (ih (group.file article))

/-- A group that is about to file at 0 an article it has there stays as it is. -/
theorem file_full (h : group.nextNumber = 0) (hmem : (0, article) ∈ group.articles.entries) :
    group.file article = group := by
  have hsame : group.articles.insert 0 article = group.articles := by
    have hentries := ArticleMap.insertEntry_same group.articles.sorted hmem
    unfold ArticleMap.insert
    generalize_proofs hsorted
    revert hsorted
    rw [hentries]
    intro _
    rfl
  unfold file
  rw [h, hsame]

/-- The article stands at 0 already, and the number after the next one is 0 again. -/
def WrapsOnto (article : Article) (group : Group) : Prop :=
  group.high = some (u64Max - 1) ∧ (0, article) ∈ group.articles.entries

section Twice

variable (h : ∀ key ∈ group.articles.keys, key < u64Max)

include h

/-- As long as the numbers last, an article that is filed again is there twice. -/
theorem not_gains_twice (hroom : group.nextNumber < u64Max) (n : Nat) :
    ¬ Gains article group ((file article)^[n] ((group.file article).file article)) := by
  obtain ⟨number, habove, hentries, -⟩ := @gains_file group article h
  have hkeys : ∀ key ∈ (group.file article).articles.keys, key < u64Max := by
    intro key hkey
    have hkey : key ∈ (group.file article).articles.entries.map (·.1) := hkey
    obtain ⟨entry, hentry, rfl⟩ := List.mem_map.mp hkey
    rcases ArticleMap.mem_insertEntry hentry with rfl | hentry
    · exact hroom
    · exact h entry.1 (List.mem_map_of_mem hentry)
  obtain ⟨number', -, hentries', -⟩ := @gains_file (group.file article) article hkeys
  rintro ⟨number'', -, hfinal, -⟩
  have hlong := @length_iterate_file article n ((group.file article).file article)
  rw [hfinal, hentries', hentries] at hlong
  simp only [List.length_append, List.length_singleton] at hlong
  omega

/-- At the greatest number, an article that is filed again goes to 0. -/
theorem gains_wrapped_iff (hfull : group.nextNumber = u64Max) (n : Nat) :
    Gains article group ((file article)^[n] ((group.file article).file article)) ↔
      (0, article) ∈ group.articles.entries := by
  have hhigh : group.high = some (u64Max - 1) := nextNumber_eq_max.mp hfull
  have hzero : (u64Max + 1 : UInt64) = 0 := rfl
  obtain ⟨number, habove, hentries, -⟩ := @gains_file group article h
  have hnumber : number = u64Max := by
    have hlast : (group.nextNumber, article) ∈ (group.file article).articles.entries :=
      ArticleMap.mem_insertEntry_self ..
    rw [hentries] at hlast
    rcases List.mem_append.mp hlast with hlast | hlast
    · exact absurd (lt_nextNumber h _ (List.mem_map_of_mem hlast)) (lt_irrefl _)
    · rw [← hfull]
      exact (congrArg Prod.fst (List.mem_singleton.mp hlast)).symm
  have hnext : (group.file article).nextNumber = 0 := by
    rw [nextNumber_of_last hentries, hnumber]
    exact hzero
  have hfixed : ∀ g : Group, g.nextNumber = 0 → (0, article) ∈ g.articles.entries →
      (file article)^[n] g = g := fun g hg hmem => Function.iterate_fixed (file_full hg hmem) n
  constructor
  · intro hgains
    have hmem : (0, article) ∈ ((group.file article).file article).articles.entries := by
      have hself := ArticleMap.mem_insertEntry_self (group.file article).nextNumber article
        (group.file article).articles.entries
      rw [hnext] at hself
      rw [entries_file, hnext]
      exact hself
    -- the number at the end is still the greatest one
    have hagain : ((group.file article).file article).nextNumber = 0 := by
      apply nextNumber_of_max
      apply ArticleMap.keys_insertEntry
      rw [hentries, hnumber]
      simp
    rw [hfixed _ hagain hmem] at hgains
    obtain ⟨number', habove', hfinal, -⟩ := hgains
    rw [hfinal] at hmem
    rcases List.mem_append.mp hmem with hmem | hmem
    · exact hmem
    · have hnone : number' = 0 := (congrArg Prod.fst (List.mem_singleton.mp hmem)).symm
      have hkey : u64Max - 1 ∈ group.articles.keys := List.mem_of_getLast? hhigh
      exact absurd (habove' _ hkey) (by rw [hnone]; exact not_lt.mpr UInt64.zero_le)
  · intro hmem
    have hmem' : (0, article) ∈ (group.file article).articles.entries := by
      rw [hentries]
      exact List.mem_append_left _ hmem
    have hsame : (group.file article).file article = group.file article := file_full hnext hmem'
    rw [hsame, hfixed _ hnext hmem']
    exact gains_file h

/-- **How often an article may be filed**: once, or else where the second time changes nothing. -/
theorem gains_iterate_iff {n : Nat} (hn : 0 < n) :
    Gains article group ((file article)^[n] group) ↔ n = 1 ∨ WrapsOnto article group := by
  match n, hn with
  | 1, _ => exact iff_of_true (gains_file h) (Or.inl rfl)
  | n + 2, _ =>
      rw [Function.iterate_succ_apply, Function.iterate_succ_apply, or_iff_right (by omega)]
      unfold WrapsOnto
      rw [← nextNumber_eq_max]
      rcases lt_or_eq_of_le (le_u64Max group.nextNumber) with hroom | hfull
      · exact iff_of_false (not_gains_twice h hroom n) fun hwraps => absurd hwraps.1 (ne_of_lt hroom)
      · rw [and_iff_right hfull]
        exact gains_wrapped_iff h hfull n

end Twice

end Group

namespace Corpus

variable {corpus : Corpus} {article : Article} {names : List Str}

/-- The group at this position is the one a name stands for. -/
def Holds (corpus : Corpus) (name : Str) (k : Nat) : Prop :=
  corpus.groups.findIdx? (fun group => group.name == name) = some k

instance (corpus : Corpus) (name : Str) (k : Nat) : Decidable (corpus.Holds name k) :=
  inferInstanceAs (Decidable (_ = _))

theorem find_isSome_iff {name : Str} : (corpus.find name).isSome = true ↔ ∃ k, corpus.Holds name k := by
  unfold find Holds
  rw [← Option.isSome_iff_exists, List.find?_isSome, List.findIdx?_isSome, List.any_eq_true]

theorem Holds.getElem? {name : Str} {k : Nat} (h : corpus.Holds name k) :
    ∃ group, corpus.groups[k]? = some group ∧ group.name = name ∧ corpus.find name = some group := by
  obtain ⟨hlt, hname, hfirst⟩ := List.findIdx?_eq_some_iff_getElem.mp h
  have hname : (corpus.groups[k]).name = name := by simpa using hname
  refine ⟨corpus.groups[k], List.getElem?_eq_getElem hlt, hname, ?_⟩
  unfold find
  rw [List.find?_eq_some_iff_getElem]
  exact ⟨by simpa using hname, k, hlt, rfl, fun j hj => by simpa using hfirst j hj⟩

theorem modifyGroup_getElem? {name : Str} {f : Group → Group} (groups : List Group) (k : Nat) :
    (modifyGroup name f groups)[k]? =
      if groups.findIdx? (fun group => group.name == name) = some k then groups[k]?.map f else groups[k]? := by
  induction groups generalizing k with
  | nil => simp [modifyGroup]
  | cons group groups ih =>
      unfold modifyGroup
      rw [List.findIdx?_cons]
      by_cases hname : group.name == name
      · rw [if_pos hname, if_pos hname]
        cases k with
        | zero => rw [if_pos rfl]; rfl
        | succ k => rw [if_neg (by simp)]; rfl
      · rw [if_neg hname, if_neg hname]
        cases k with
        | zero => rw [if_neg (by simp)]; rfl
        | succ k =>
            rw [List.getElem?_cons_succ, List.getElem?_cons_succ, ih]
            simp

theorem modifyGroup_names {name : Str} {f : Group → Group} (hf : ∀ group, (f group).name = group.name)
    (groups : List Group) : (modifyGroup name f groups).map (·.name) = groups.map (·.name) := by
  fun_induction modifyGroup name f groups with
  | case1 => rfl
  | case2 group groups _ => simp [hf]
  | case3 group groups _ ih => simp [ih]

/-- Positions go by names alone. -/
theorem holds_congr {other : Corpus} (h : other.groups.map (·.name) = corpus.groups.map (·.name)) {name : Str}
    {k : Nat} : other.Holds name k ↔ corpus.Holds name k := by
  have hidx : ∀ groups : List Group, groups.findIdx? (fun group => group.name == name) =
      (groups.map (·.name)).findIdx? (· == name) := fun groups => by
    rw [List.findIdx?_map]
    rfl
  unfold Holds
  rw [hidx, hidx, h]

/-- The number an article gets is that of the group it is filed in. -/
theorem modifyGroup_file {name : Str} {group : Group} {groups : List Group}
    (h : groups.find? (fun group => group.name == name) = some group) :
    modifyGroup name (fun g => { g with articles := g.articles.insert group.nextNumber article }) groups =
      modifyGroup name (Group.file article) groups := by
  induction groups with
  | nil => rfl
  | cons first groups ih =>
      rw [List.find?_cons] at h
      unfold modifyGroup
      cases hname : first.name == name with
      | true =>
          rw [hname] at h
          cases h
          rfl
      | false =>
          rw [hname] at h
          exact congrArg (first :: ·) (ih h)

/-- One name of the list: the article is filed where the name stands, or nowhere. -/
theorem inject_cons (article : Article) (names : List Str) (corpus : Corpus) (name : Str) :
    (∃ group, corpus.find name = some group ∧ inject article (name :: names) corpus =
      ((inject article names ⟨modifyGroup name (Group.file article) corpus.groups⟩).1,
        (name, group.nextNumber) ::
          (inject article names ⟨modifyGroup name (Group.file article) corpus.groups⟩).2)) ∨
      corpus.find name = none ∧ inject article (name :: names) corpus = inject article names corpus := by
  cases hfind : corpus.find name with
  | none =>
      refine Or.inr ⟨rfl, ?_⟩
      rw [inject, hfind]
  | some group =>
      refine Or.inl ⟨group, rfl, ?_⟩
      rw [inject, hfind]
      dsimp only
      rw [modifyGroup_file hfind]

/-- **What filing does**: the group a name stands for files the article as often as it is named. -/
theorem inject_getElem? (article : Article) (names : List Str) (corpus : Corpus) (k : Nat) :
    (inject article names corpus).1.groups[k]? = corpus.groups[k]?.map fun group =>
      if corpus.Holds group.name k then (Group.file article)^[names.count group.name] group else group := by
  induction names generalizing corpus with
  | nil =>
      show corpus.groups[k]? = _
      cases corpus.groups[k]? with
      | none => rfl
      | some group => simp
  | cons name names ih =>
      rcases inject_cons article names corpus name with
        ⟨group, hfind, heq⟩ | ⟨hnone, heq⟩
      · have hnames := @modifyGroup_names name (Group.file article) (fun _ => rfl) corpus.groups
        rw [heq, ih, modifyGroup_getElem?]
        cases hget : corpus.groups[k]? with
        | none => split <;> rfl
        | some found =>
            split
            · next hholds =>
                have hname : found.name = name := by
                  obtain ⟨_, hget', hname, _⟩ := @Holds.getElem? corpus name k hholds
                  rw [hget] at hget'
                  cases hget'
                  exact hname
                have hholds' : corpus.Holds found.name k := by
                  rw [hname]
                  exact hholds
                simp only [Option.map_some, holds_congr hnames]
                rw [if_pos (show corpus.Holds ((Group.file article found)).name k from hholds'),
                  if_pos hholds', hname, List.count_cons_self, Function.iterate_succ_apply]
                rw [show (Group.file article found).name = name from hname]
            · next hholds =>
                simp only [Option.map_some, holds_congr hnames]
                by_cases hfound : corpus.Holds found.name k
                · have hne : name ≠ found.name := by
                    rintro rfl
                    exact hholds hfound
                  rw [if_pos hfound, if_pos hfound, List.count_cons_of_ne hne]
                · rw [if_neg hfound, if_neg hfound]
      · rw [heq, ih]
        cases hget : corpus.groups[k]? with
        | none => rfl
        | some found =>
            simp only [Option.map_some]
            by_cases hfound : corpus.Holds found.name k
            · have hne : name ≠ found.name := by
                rintro rfl
                have hsome := find_isSome_iff.mpr ⟨k, hfound⟩
                rw [hnone] at hsome
                cases hsome
              rw [if_pos hfound, if_pos hfound, List.count_cons_of_ne hne]
            · rw [if_neg hfound, if_neg hfound]

theorem inject_length (article : Article) (names : List Str) (corpus : Corpus) :
    (inject article names corpus).1.groups.length = corpus.groups.length := by
  induction names generalizing corpus with
  | nil => rfl
  | cons name names ih =>
      rcases inject_cons article names corpus name with
        ⟨_, _, heq⟩ | ⟨_, heq⟩
      · have hnames := @modifyGroup_names name (Group.file article) (fun _ => rfl) corpus.groups
        rw [heq, ih]
        simpa using congrArg List.length hnames
      · rw [heq, ih]

/-- An article that is filed nowhere leaves everything as it was. -/
theorem inject_nowhere (h : ∀ name ∈ names, corpus.find name = none) : inject article names corpus = (corpus, []) := by
  induction names with
  | nil => rfl
  | cons name names ih =>
      rcases inject_cons article names corpus name with
        ⟨group, hfind, _⟩ | ⟨_, heq⟩
      · rw [h name List.mem_cons_self] at hfind
        cases hfind
      · rw [heq]
        exact ih fun other hother => h other (List.mem_cons_of_mem _ hother)

theorem inject_somewhere {name : Str} (hname : name ∈ names) (h : (corpus.find name).isSome = true) :
    (inject article names corpus).2 ≠ [] := by
  induction names with
  | nil => cases hname
  | cons first names ih =>
      rcases inject_cons article names corpus first with
        ⟨group, hfind, heq⟩ | ⟨hnone, heq⟩
      · rw [heq]
        exact List.cons_ne_nil _ _
      · rw [heq]
        rcases List.mem_cons.mp hname with rfl | hname
        · rw [hnone] at h
          cases h
        · exact ih hname

end Corpus

namespace Session

variable {session : Session} {lines : List Bytes}

/-- What is stored of an article that is accepted. -/
def storedAs (session : Session) (article : PostedArticle) : Article :=
  { messageId := session.assignedId article, head := article.head, body := article.body }

/-- An article is taken: nothing about it is refused, and some group it names is carried. -/
def Takes (session : Session) (article : PostedArticle) : Prop :=
  session.config.quirks.refusePost = none ∧ article.missing = none ∧
    ∃ name ∈ article.newsgroups, (session.corpus.find name).isSome = true

/-- **What `accept_article` comes to**: the article is filed and its id announced, or it is refused and
nothing happens. -/
theorem acceptArticle_cases (session : Session) (lines : List Bytes) :
    (¬ session.Takes { lines } ∧ ∃ text, session.acceptArticle lines = (session, { code := 441, text })) ∨
      (session.Takes { lines } ∧ session.acceptArticle lines =
        ({ session with
            corpus := (Corpus.inject (session.storedAs { lines }) (PostedArticle.newsgroups { lines })
              session.corpus).1
            postbox := session.postbox.map (· ++ [{ lines }]) },
          { code := 240, text := "article received ".toList ++ session.assignedId { lines } })) := by
  unfold acceptArticle Takes
  dsimp only
  split
  · next reason hreason => exact Or.inl ⟨fun h => (by rw [hreason] at h; cases h.1), _, rfl⟩
  · next hrefuse =>
      split
      · next required hmissing =>
          exact Or.inl ⟨fun h => (by rw [hmissing] at h; cases h.2.1), _, rfl⟩
      · next hmissing =>
          by_cases hcarried : ∃ name ∈ PostedArticle.newsgroups { lines },
              (session.corpus.find name).isSome = true
          · obtain ⟨name, hname, hfound⟩ := hcarried
            refine Or.inr ⟨⟨hrefuse, hmissing, name, hname, hfound⟩, ?_⟩
            rw [if_neg (by simpa using Corpus.inject_somewhere hname hfound)]
            rfl
          · refine Or.inl ⟨fun h => hcarried h.2.2, "no such newsgroup here".toList, ?_⟩
            have hnone : ∀ name ∈ PostedArticle.newsgroups { lines }, session.corpus.find name = none := by
              intro name hname
              by_contra hsome
              exact hcarried ⟨name, hname, Option.isSome_iff_ne_none.mpr hsome⟩
            rw [Corpus.inject_nowhere hnone]
            rfl

/-- **Filing is exact and all or nothing**: the article is accepted exactly if a group it names is carried,
each of these groups then gains it as one new entry, and nothing changes otherwise. -/
structure FilesExactly (session : Session) (lines : List Bytes) : Prop where
  accepted : (session.acceptArticle lines).2.code = 240 ↔
    ∃ name ∈ PostedArticle.newsgroups { lines }, (session.corpus.find name).isSome = true
  filed : (session.acceptArticle lines).2.code = 240 →
    (session.acceptArticle lines).1.corpus.groups.length = session.corpus.groups.length ∧
      ∀ k group, session.corpus.groups[k]? = some group →
        ∃ after, (session.acceptArticle lines).1.corpus.groups[k]? = some after ∧
          if group.name ∈ PostedArticle.newsgroups { lines } ∧ session.corpus.Holds group.name k then
            group.Gains (session.storedAs { lines }) after
          else after = group
  refused : (session.acceptArticle lines).2.code ≠ 240 →
    (session.acceptArticle lines).2.code = 441 ∧ (session.acceptArticle lines).1.corpus = session.corpus

/-- No carried group is named twice, or filing the article there once more changes nothing. -/
def NamesOnce (session : Session) (lines : List Bytes) : Prop :=
  ∀ name ∈ PostedArticle.newsgroups { lines }, ∀ group, session.corpus.find name = some group →
    (PostedArticle.newsgroups { lines }).count name = 1 ∨ group.WrapsOnto (session.storedAs { lines })

/-- **A posted article is filed exactly if no carried group is named twice**, apart from a group in which the
second filing would replace the article by itself. -/
theorem filesExactly_iff (session : Session) (lines : List Bytes)
    (hrefuse : session.config.quirks.refusePost = none)
    (hheaders : PostedArticle.missing { lines } = none)
    (hnumbers : ∀ group ∈ session.corpus.groups, ∀ key ∈ group.articles.keys, key < u64Max) :
    session.FilesExactly lines ↔ session.NamesOnce lines := by
  rcases acceptArticle_cases session lines with ⟨hno, text, heq⟩ | ⟨hyes, heq⟩
  · -- refused: no carried group is named
    have hnone : ¬ ∃ name ∈ PostedArticle.newsgroups { lines }, (session.corpus.find name).isSome = true :=
      fun hcarried => hno ⟨hrefuse, hheaders, hcarried⟩
    refine iff_of_true ⟨?_, ?_, ?_⟩ ?_
    · rw [heq]
      exact iff_of_false (show ¬ (441 : Nat) = 240 by decide) hnone
    · rw [heq]
      exact fun h => absurd h (show ¬ (441 : Nat) = 240 by decide)
    · rw [heq]
      exact fun _ => ⟨rfl, rfl⟩
    · intro name hname group hgroup
      exact absurd ⟨name, hname, Option.isSome_of_eq_some hgroup⟩ hnone
  · have hafter := Corpus.inject_getElem? (session.storedAs { lines })
      (PostedArticle.newsgroups { lines }) session.corpus
    have hroom : ∀ {k : Nat} {group : Group}, session.corpus.groups[k]? = some group →
        ∀ key ∈ group.articles.keys, key < u64Max := fun h => hnumbers _ (List.mem_of_getElem? h)
    constructor
    · intro hexact name hname group hgroup
      obtain ⟨k, hholds⟩ := Corpus.find_isSome_iff.mp (Option.isSome_of_eq_some hgroup)
      obtain ⟨found, hget, rfl, hfound⟩ := hholds.getElem?
      cases hgroup.symm.trans hfound
      obtain ⟨_, hfiled⟩ := hexact.filed (by rw [heq])
      obtain ⟨after, hget', hgains⟩ := hfiled k group hget
      rw [if_pos ⟨hname, hholds⟩] at hgains
      rw [heq] at hget'
      have hiterate := (hafter k).symm.trans hget'
      rw [hget, Option.map_some, if_pos hholds] at hiterate
      rw [← Option.some.inj hiterate] at hgains
      exact (Group.gains_iterate_iff (hroom hget) (List.count_pos_iff.mpr hname)).mp hgains
    · intro honce
      refine ⟨?_, ?_, ?_⟩
      · rw [heq]
        exact iff_of_true rfl hyes.2.2
      · intro _
        rw [heq]
        refine ⟨Corpus.inject_length .., fun k group hget => ?_⟩
        have hthere := hafter k
        rw [hget, Option.map_some] at hthere
        refine ⟨_, hthere, ?_⟩
        by_cases hholds : session.corpus.Holds group.name k
        · rw [if_pos hholds]
          by_cases hname : group.name ∈ PostedArticle.newsgroups { lines }
          · obtain ⟨found, hget', -, hfound⟩ := hholds.getElem?
            cases hget.symm.trans hget'
            rw [if_pos ⟨hname, hholds⟩]
            exact (Group.gains_iterate_iff (hroom hget) (List.count_pos_iff.mpr hname)).mpr
              (honce group.name hname group hfound)
          · rw [if_neg fun h => hname h.1, List.count_eq_zero.mpr hname]
            rfl
        · rw [if_neg hholds, if_neg fun h => hholds h.2]
      · rw [heq]
        exact fun h => absurd rfl h

theorem nothing_sorted : ([] : List (UInt64 × Article)).Pairwise fun a b => a.1 < b.1 := List.Pairwise.nil

/-- A server with one group, `misc.test`, which is empty. -/
def withMiscTest : Session :=
  Session.new { groups := [{ name := "misc.test".toList, articles := ⟨[], nothing_sorted⟩ }] } {}

/-- An article to these groups. -/
def articleTo (newsgroups : String) : List Bytes :=
  ["From: a@example.com", "Newsgroups: " ++ newsgroups, "Subject: hello", "", "text"].map
    fun line => asBytes line.toList

theorem withMiscTest_numbers :
    ∀ group ∈ withMiscTest.corpus.groups, ∀ key ∈ group.articles.keys, key < u64Max := by
  intro group hgroup key hkey
  rw [List.mem_singleton.mp hgroup] at hkey
  cases hkey

theorem filesExactly_miscTest : withMiscTest.FilesExactly (articleTo "misc.test, ,alt.none") ∧
    (withMiscTest.acceptArticle (articleTo "misc.test, ,alt.none")).2.code = 240 := by
  have hgroups : PostedArticle.newsgroups { lines := articleTo "misc.test, ,alt.none" } =
      ["misc.test".toList, "alt.none".toList] := by decide +kernel
  refine ⟨(filesExactly_iff withMiscTest (articleTo "misc.test, ,alt.none") rfl (by decide +kernel)
    withMiscTest_numbers).mpr ?_, by decide +kernel⟩
  intro name hname group hgroup
  rw [hgroups] at hname ⊢
  rcases List.mem_pair.mp hname with rfl | rfl
  · exact Or.inl (by decide)
  · cases hgroup

/-- **Filed twice**: a group that is named twice has the article under two numbers. -/
theorem filesExactly_twice : ¬ ∀ (session : Session) (lines : List Bytes),
    session.config.quirks.refusePost = none → PostedArticle.missing { lines } = none →
      (∀ group ∈ session.corpus.groups, ∀ key ∈ group.articles.keys, key < u64Max) →
      session.FilesExactly lines := by
  intro hall
  have hexact := hall withMiscTest (articleTo "misc.test,misc.test") rfl (by decide +kernel)
    withMiscTest_numbers
  obtain ⟨_, hfiled⟩ := hexact.filed (by decide +kernel)
  obtain ⟨after, hafter, hgains⟩ := hfiled 0 _ rfl
  rw [if_pos ⟨by decide +kernel, by decide⟩] at hgains
  obtain ⟨number, _, hentries, _⟩ := hgains
  have htwo : ((withMiscTest.acceptArticle (articleTo "misc.test,misc.test")).1.corpus.groups[0]?).map
      (fun group => group.articles.keys) = some [1, 2] := by decide +kernel
  have hkeys : after.articles.keys = [number] := by
    unfold ArticleMap.keys
    rw [hentries]
    rfl
  rw [hafter, Option.map_some, hkeys] at htwo
  cases htwo

end Session

end Nntp.TestServer
