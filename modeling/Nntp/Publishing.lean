import Nntp.Opening
import Nntp.Readback

/-!
# An article that is posted

The way of a draft from the editor to the list: `on_composed` submits it, the worker posts it, the server files it,
and the interface, told that it was posted, asks for the group again and lists it as the newest article.
-/

namespace Nntp.Tui

open Nntp.Lib Nntp.Proto

/-! ## A fetch into a list that is not empty -/

/-- What no other record is above comes last. -/
theorem Ascending.getLast? {records : List OverviewRecord} {record : OverviewRecord} (h : Ascending records)
    (hmem : record ∈ records) (hgreatest : ∀ other ∈ records, other.number ≤ record.number) :
    records.getLast? = some record := by
  rcases List.eq_nil_or_concat records with rfl | ⟨front, last, rfl⟩
  · cases hmem
  · rw [List.concat_eq_append] at h hmem hgreatest ⊢
    rw [List.getLast?_concat]
    rcases List.mem_append.mp hmem with hfront | hlast
    · have hlt := (List.pairwise_append.mp h).2.2 record hfront last (List.mem_singleton_self _)
      exact absurd (hgreatest last (List.mem_append_right _ (List.mem_singleton_self _))) (not_le_of_gt hlt)
    · rw [List.mem_singleton.mp hlast]

namespace App

variable {app : App} {group : GroupName} {token : FetchToken}

/-- **Chunks that are taken**: a record that arrives takes the place of one that is held under its number. -/
theorem deliver_merged (chunks : List (List OverviewRecord × Nat)) (haccepts : app.acceptsOverview group token = true)
    (hheld : Ascending app.articles) (hchunks : ∀ chunk ∈ chunks, Ascending chunk.1)
    (hnumbers : ((chunks.flatMap (·.1)).map (·.number)).Nodup) :
    Ascending (app.deliver group token chunks).articles ∧
      ∀ r, r ∈ (app.deliver group token chunks).articles ↔ r ∈ chunks.flatMap (·.1) ∨
        (r ∈ app.articles ∧ ∀ arriving ∈ chunks.flatMap (·.1), arriving.number ≠ r.number) := by
  induction chunks generalizing app with
  | nil =>
      refine ⟨hheld, fun r => ?_⟩
      simp [deliver]
  | cons chunk chunks ih =>
      obtain ⟨harticles, hnext⟩ := chunk_accepted haccepts chunk.1 chunk.2
      have hchunk : Ascending chunk.1 := hchunks chunk List.mem_cons_self
      rw [List.flatMap_cons, List.map_append] at hnumbers
      obtain ⟨-, hrest, hapart⟩ := List.nodup_append.mp hnumbers
      obtain ⟨hascending, hmem⟩ := ih hnext (by rw [harticles]; exact hchunk.absorb hheld)
        (fun c hc => hchunks c (List.mem_cons_of_mem _ hc)) hrest
      refine ⟨hascending, fun r => ?_⟩
      have hkept : r ∈ chunk.1 → ∀ arriving ∈ chunks.flatMap (·.1), arriving.number ≠ r.number :=
        fun hr arriving harriving heq =>
          hapart _ (List.mem_map_of_mem hr) _ (List.mem_map_of_mem harriving) heq.symm
      rw [deliver_cons, hmem, harticles, hchunk.mem_absorb hheld, List.flatMap_cons, List.mem_append,
        List.forall_mem_append]
      tauto

/-- **A fetch into a list** merges the records of the chunks into it, and ends. -/
theorem observe_merged {chunks : List (List OverviewRecord)} {records : List OverviewRecord}
    (haccepts : app.ledger.Accepts group token) (hheld : Ascending app.articles)
    (hchunks : ∀ chunk ∈ chunks, Ascending chunk) (hrecords : Ascending records) (hperm : chunks.flatten.Perm records) :
    ∃ shown : List OverviewRecord,
      (app.observe ((chunks.map fun records => .overviewChunk group token records 0) ++
        [.overviewComplete group token])).ledger =
          { app.ledger.answered with articles := shown, overviewToken := none } ∧
      Ascending shown ∧
      ∀ r, r ∈ shown ↔ r ∈ records ∨ (r ∈ app.articles ∧ ∀ arriving ∈ records, arriving.number ≠ r.number) := by
  have hflat : (chunks.map fun records => (records, 0)).flatMap (·.1) = chunks.flatten := by
    rw [List.flatMap_map]
    exact List.flatMap_id
  obtain ⟨hascending, hmem⟩ := deliver_merged (chunks.map fun records => (records, 0))
    ((app.acceptsOverview_iff group token).mpr haccepts) hheld (List.forall_mem_map.mpr hchunks)
    (by rw [hflat]; exact (hperm.map _).nodup_iff.mpr hrecords.nodup)
  refine ⟨_, ?_, hascending, fun r => ?_⟩
  · rw [observe_append, observe_chunks, ledger_observe, ledger_deliver _ haccepts]
    exact if_pos haccepts
  · rw [hmem, hflat, hperm.mem_iff]
    simp only [hperm.mem_iff]

end App

end Nntp.Tui

namespace Nntp

open Nntp.Lib Nntp.Proto Nntp.Client Nntp.TestServer

/-! ## The newest article of a group -/

section Newest

variable {group : TestServer.Group} {article : TestServer.Article} {front : List (UInt64 × TestServer.Article)}
  {number : UInt64}

/-- A group with articles has a range that ends with its last number. -/
theorem range_of_last (name : GroupName) (h : group.articles.entries = front ++ [(number, article)])
    (hnumber : number ≠ 0) (hlength : group.articles.entries.length ≤ u64Max.toNat) :
    ∃ low, (summaryOf group name).range = some (low, number) := by
  obtain ⟨first, rest, hcons⟩ := List.exists_cons_of_ne_nil
    (List.append_ne_nil_of_right_ne_nil front (List.cons_ne_nil (number, article) []))
  have hhigh : group.high = some number := (last_found h).1
  have hlow : group.low = some first.1 := by
    simp [Group.low, ArticleMap.keys, h, hcons]
  have hmarks : group.watermarks = (first.1, number) := by
    unfold Group.watermarks
    rw [hlow, hhigh]
  have hle : first.1 ≤ number := by
    have hkey : first.1 ∈ group.articles.keys := List.mem_of_head? hlow
    exact ArticleMap.le_of_getLast? hhigh hkey
  have hcount : group.articles.len ≠ 0 := by
    intro hzero
    have htoNat := congrArg UInt64.toNat hzero
    have hmax : u64Max.toNat = 18446744073709551615 := rfl
    unfold ArticleMap.len at htoNat
    rw [UInt64.toNat_ofNat', Nat.mod_eq_of_lt (by omega), h, List.length_append, List.length_singleton] at htoNat
    exact absurd htoNat (Nat.succ_ne_zero _)
  have hfilled : (summaryOf group name).isEmpty = false := by
    simp [summaryOf, GroupSummary.isEmpty, hmarks, hcount, hnumber, hle]
  refine ⟨first.1, ?_⟩
  unfold GroupSummary.range
  rw [hfilled, if_neg Bool.false_ne_true, summaryOf, hmarks]

/-- **However few articles are asked for, the last one is among them**, and it is the last of them. -/
theorem newest_last (name : GroupName) (count : UInt64) (h : group.articles.entries = front ++ [(number, article)])
    (hnumber : number ≠ 0) (hlength : group.articles.entries.length ≤ u64Max.toNat) :
    ∃ before, newest group name count = before ++ [(number, article)] := by
  obtain ⟨low, hrange⟩ := range_of_last name h hnumber hlength
  obtain ⟨hle, hnewest⟩ := range_between name count hrange
  have hcontains : (Range.between (Tui.newestFrom low number count) number).contains number = true := by
    simp [Range.contains, hle]
  unfold newest articlesIn
  rw [hnewest, Option.toList_some, List.flatMap_singleton, h, List.filter_append, List.filter_singleton, hcontains]
  exact ⟨_, rfl⟩

/-- No record of the newest articles has a number above the last. -/
theorem number_le_last {decoders : Decoders} {fmt : OverviewFmt} {name : GroupName} {count : UInt64}
    (h : group.articles.entries = front ++ [(number, article)]) {record : OverviewRecord}
    (hrecord : record ∈ newestRecords decoders fmt group name count) : record.number ≤ number := by
  obtain ⟨entry, hentry, rfl⟩ := List.mem_map.mp hrecord
  obtain ⟨range, -, hin⟩ := List.mem_flatMap.mp hentry
  rw [recordOf, OverviewRecord.setFields_number]
  exact ArticleMap.le_of_getLast? (last_found h).1 (List.mem_map_of_mem (List.mem_filter.mp hin).1)

end Newest

/-! ## From the editor to the list -/

section Posting

variable {limits : Limits} {config : ServerConfig} {c posted : Client Loop} (around : Surroundings) (w : Tui.Worker)
  {text announced : Str} {lines : List Bytes} {path : Tui.Path} {app : Tui.App} {summary : GroupSummary}
  {group after : TestServer.Group}

/-- The records that a client is handed of the newest articles. -/
abbrev listing (around : Surroundings) (config : ServerConfig) (c : Client Loop) (group : TestServer.Group)
    (name : GroupName) (count : UInt64) : List OverviewRecord :=
  newestRecords around.decoders (layoutOf around.decoders config c) group name count

/-- A draft that the client posts is posted by the worker. -/
theorem post_comes {draft : Draft} (h : (Client.post around.base64 draft).exec c = (.ok announced, posted)) :
    Comes around (Tui.post w draft) (some c) () (some posted) [.posted announced] := by
  refine (comes_send around (.progress _) _).silent_bind ((comes_client around w).silent_bind ?_)
  exact (comes_command around rfl h).silent_bind (comes_send around (.posted _) _)

/-- A draft without problems is submitted. -/
theorem onComposed_submits (h : (Draft.parse text).problems = []) :
    app.onComposed (some (text, path)) =
      ({ app with posting := some path, postingGroups := (Draft.parse text).newsgroups, inflight := app.inflight + 1 },
        some (.post (Draft.parse text))) := by
  unfold Tui.App.onComposed
  dsimp only
  rw [h]

/-- An article that went to the group on screen has it asked for again. -/
theorem posted_reloads (hgroup : app.group = some summary) (hposting : app.posting = some path)
    (haddressed : summary.name.asStr ∈ app.postingGroups) :
    ∃ reloading, app.onEvent (.posted announced) =
        ⟨reloading, [.openGroup summary.name app.initialArticles (app.nextToken + 1)], some path⟩ ∧
      reloading.ledger = { app.ledger.answered with posting := none, postingGroups := [] }.beginFetch := by
  have hreloads : app.ledger.reloads = some summary.name := by
    show Tui.postedTo app.group app.postingGroups = _
    rw [hgroup]
    exact if_pos haddressed
  obtain ⟨hledger, hrequests, hdiscarded⟩ := app.ledger_onEvent (.posted announced)
  have hasked : app.ledger.requests (.posted announced) =
      [.openGroup summary.name app.initialArticles (app.nextToken + 1)] := by
    unfold Tui.Ledger.requests
    dsimp only
    rw [hreloads]
    rfl
  have hafter : app.ledger.onEvent (.posted announced) =
      { app.ledger.answered with posting := none, postingGroups := [] }.beginFetch := by
    unfold Tui.Ledger.onEvent
    dsimp only
    rw [hreloads]
    rfl
  refine ⟨(app.onEvent (.posted announced)).app, ?_, hledger.trans hafter⟩
  rw [hasked] at hrequests
  rw [← hrequests, ← hposting]
  exact congrArg (Tui.Reaction.mk _ _) hdiscarded

end Posting

/-! ### A short article -/

namespace Shelf

/-- An interface with the group on screen, before there is an article in it. -/
def openedEmpty : Tui.App :=
  { Tui.App.new Tui.Watched.quietConfig {} with group := some (summaryOf emptyTest Client.miscTest) }

/-- Behind the article, the group is answered to a client that has a command to ask with. -/
def goesOn (start : Client Loop) : Bool :=
  let posted := ((Client.post (fun _ => []) (Draft.parse written)).exec start).2
  let group := received (counted start.connection.stream.session) sent emptyTest
  decide (posted.resolveOverviewStyle ≠ .unavailable) && decide (group.articles.entries.length = 1) &&
    decide (newestRange group Client.miscTest openedEmpty.initialArticles = some (.between 1 1)) &&
    decide (articlesIn group (.between 1 1) ≠ []) && decide (Reply.Within .default {} (overviewReply group (.between 1 1)))

end Shelf

end Nntp
