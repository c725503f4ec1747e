import Mathlib.Data.List.Sort
import Mathlib.Data.List.ReduceOption
import Nntp.Proto.Thread.Arena

/-!
# From the arena to the tree a reader sees

The later phases of `thread.rs`: the roots, grouping them by subject, flattening what is nested too
deeply, and building the tree without the empty containers.

Rust's loops over a stack or a queue, and its recursive `build`, take a step budget here, and answer
`none` when it runs out. `thread` gives each the budget that a forest needs.
-/

namespace Nntp.Proto

/-- The deepest level a node can be at: a root is level 0, its replies level 1. -/
def maxDepth : Nat := 32

/-- One node of a threaded list. `article` is an index into the records that were threaded. -/
inductive ThreadNode where
  | mk (article : Option Nat) (children : List ThreadNode)

/-- `usize::MAX`. -/
def usizeMax : Nat := 18446744073709551615

namespace ThreadNode

mutual

/-- The articles of a node and everything below it, depth first. -/
def articles : ThreadNode → List Nat
  | mk article children => article.toList ++ articlesAll children

def articlesAll : List ThreadNode → List Nat
  | [] => []
  | node :: nodes => articles node ++ articlesAll nodes

end

mutual

/-- The lowest record index in this node's subtree, for ordering. -/
def firstArticle : ThreadNode → Nat
  | mk article children => firstArticleFrom (article.getD usizeMax) children

/-- The loop of `first_article` over the children. -/
def firstArticleFrom : Nat → List ThreadNode → Nat
  | best, [] => best
  | best, child :: children => firstArticleFrom (min best (firstArticle child)) children

end

mutual

/-- The number of articles in this node and everything below it. -/
def len : ThreadNode → Nat
  | mk article children => article.toList.length + lenAll children

def lenAll : List ThreadNode → Nat
  | [] => 0
  | node :: nodes => len node + lenAll nodes

end

end ThreadNode

/-- The order of `Option<usize>`: `None` first. -/
def optionLe : Option Nat → Option Nat → Bool
  | none, _ => true
  | some _, none => false
  | some i, some j => decide (i ≤ j)

/-- `sort_by_key`, which is stable. -/
def sortByKey {α β : Type} (le : β → β → Bool) (key : α → β) (xs : List α) : List α :=
  xs.insertionSort fun x y => le (key x) (key y) = true

namespace Arena

/-- The walk of `first_article`. The head of the list is the top of the stack. -/
def firstArticleLoop (a : Arena) : Nat → List Nat → Option Nat → Option Nat
  | 0, _, best => best
  | _ + 1, [], best => best
  | steps + 1, current :: stack, best =>
      match a.containers[current]? with
      | none => firstArticleLoop a steps stack best
      | some container =>
          let best := match container.article with
            | none => best
            | some article => some ((best.map fun found => min found article).getD article)
          firstArticleLoop a steps (container.children.reverse ++ stack) best

/-- The lowest record index anywhere in this container's subtree. -/
def firstArticle (a : Arena) (id : Nat) : Option Nat :=
  firstArticleLoop a (a.containers.length + 1) [id] (a.articleOf id)

/-- The containers with no parent and some article, in the order of their oldest article. -/
def roots (a : Arena) : List Nat :=
  sortByKey optionLe a.firstArticle <|
    ((List.range a.containers.length).filter fun id => (a.parentOf id).isNone).filter fun id =>
      (a.firstArticle id).isSome

/-- The inner loop of `clamp_depth`: everything popped becomes a child of `top`. -/
def flattenLoop (top : Nat) : Nat → Arena → List Bool → List Nat → List Nat →
    Option (Arena × List Bool × List Nat)
  | _, a, seen, [], descendants => some (a, seen, descendants)
  | 0, _, _, _ :: _, _ => none
  | fuel + 1, a, seen, node :: stack, descendants =>
      match seen[node]? with
      | some false =>
          let a' := { a with
            containers := a.containers.modify node fun c => { c with parent := some top, children := [] } }
          flattenLoop top fuel a' (seen.set node true) ((a.childrenOf node).reverse ++ stack)
            (descendants ++ [node])
      | _ => flattenLoop top fuel a seen stack descendants

/-- The outer loop of `clamp_depth`. -/
def clampLoop : Nat → Arena → List Bool → List (Nat × Nat) → Option Arena
  | _, a, _, [] => some a
  | 0, _, _, _ :: _ => none
  | fuel + 1, a, seen, (id, depth) :: queue =>
      match seen[id]? with
      | some false =>
          let seen := seen.set id true
          let children := a.childrenOf id
          if depth + 1 < maxDepth then
            clampLoop fuel a seen (queue ++ children.map fun child => (child, depth + 1))
          else
            match flattenLoop id a.containers.length a seen children.reverse [] with
            | none => none
            | some (a, seen, descendants) =>
                let descendants := sortByKey optionLe a.firstArticle descendants
                let a := { a with
                  containers := a.containers.modify id fun c => { c with children := descendants } }
                clampLoop fuel a seen queue
      | _ => clampLoop fuel a seen queue

/-- Flattens anything nested deeper than `maxDepth` onto the deepest ancestor the limit allows. -/
def clampDepth (a : Arena) (roots : List Nat) : Option Arena :=
  clampLoop ((a.containers.length + 1) * (a.containers.length + 1)) a
    (List.replicate a.containers.length false) (roots.map fun id => (id, 0))

/-- What `build` makes of a container's article and its built children. -/
def buildNode (article : Option Nat) (children : List ThreadNode) : Option ThreadNode :=
  match article with
  | some article => some (.mk (some article) children)
  | none =>
      match children with
      | [] => none
      | [child] => some child
      | _ => some (.mk none children)

/-- Turns a container into the tree a caller sees, pruning empty containers. -/
def build (a : Arena) : Nat → Nat → Option (Option ThreadNode)
  | 0, _ => none
  | fuel + 1, id =>
      match a.containers[id]? with
      | none => some none
      | some container =>
          (container.children.mapM (build a fuel)).map fun built =>
            buildNode container.article
              (sortByKey (fun i j => decide (i ≤ j)) ThreadNode.firstArticle built.reduceOption)

end Arena

/-! ## Subjects -/

def replyPrefixes : List String := ["re", "aw", "sv", "vs", "res", "odp", "ref", "antw"]

/-- A leading `[list-name]` tag, removed. -/
def stripTag (rest : Str) : Option Str :=
  (stripPrefix ['['] rest).bind fun stripped =>
    (splitOnce (· == ']') stripped).bind fun (tag, tail) =>
      if !tag.isEmpty && !tag.contains '[' then some (trimStart tail) else none

/-- A leading reply marker, possibly with a counter, removed. -/
def stripReply (rest : Str) : Option Str :=
  (splitOnce (· == ':') rest).bind fun (head, tail) =>
    let head := trim head
    let base := trim (((splitOnce (fun c => c == '[' || c == '(') head).map (·.1)).getD head)
    if replyPrefixes.any fun pre => eqIgnoreAsciiCase base pre.toList then some (trimStart tail)
    else none

theorem stripTag_length {rest tail : Str} (h : stripTag rest = some tail) :
    tail.length < rest.length := by
  obtain ⟨stripped, hpre, h⟩ := Option.bind_eq_some_iff.mp h
  obtain ⟨⟨tag, tail'⟩, hsplit, h⟩ := Option.bind_eq_some_iff.mp h
  have h1 : stripped.length < rest.length := by
    cases rest with
    | nil => cases hpre
    | cons c cs =>
        unfold stripPrefix at hpre
        split at hpre
        · cases hpre
          exact Nat.lt_succ_self _
        · cases hpre
  have h2 := splitOnce_length hsplit
  have h3 := trimStart_length_le tail'
  dsimp only at h
  split at h
  · cases h
    omega
  · cases h

theorem stripReply_length {rest tail : Str} (h : stripReply rest = some tail) :
    tail.length < rest.length := by
  obtain ⟨⟨head, tail'⟩, hsplit, h⟩ := Option.bind_eq_some_iff.mp h
  have h2 := splitOnce_length hsplit
  have h3 := trimStart_length_le tail'
  dsimp only at h
  split at h
  · cases h
    omega
  · cases h

/-- The loop of `normalise_subject`. -/
def normaliseLoop (rest : Str) (wasReply : Bool) : Str × Bool :=
  match _htag : stripTag rest with
  | some tail => normaliseLoop tail wasReply
  | none =>
      match _hreply : stripReply rest with
      | some tail => normaliseLoop tail true
      | none => (trim rest, wasReply)
termination_by rest.length
decreasing_by
  · exact stripTag_length _htag
  · exact stripReply_length _hreply

/-- Strips reply prefixes from a subject, reporting whether it had any. -/
def normaliseSubject (subject : Str) : Str × Bool := normaliseLoop (trim subject) false

/-- The state of the loop of `group_by_subject`. -/
structure Grouping where
  arena : Arena
  /-- Subject to the root that will hold the others; the first entry of a subject counts. -/
  holders : List (Str × Nat)
  merged : List Nat

/-- Whether the root that holds a subject announces itself as a reply. -/
def holderIsReply (a : Arena) (records : List OverviewRecord) (holder : Nat) : Bool :=
  match (a.firstArticle holder).bind (records[·]?) with
  | none => false
  | some record => (normaliseSubject record.subject).2

/-- One turn of the loop of `group_by_subject`. -/
def groupRoot (records : List OverviewRecord) (g : Grouping) (id : Nat) : Grouping :=
  match (g.arena.firstArticle id).bind (records[·]?) with
  | none => g
  | some record =>
      let (subject, isReply) := normaliseSubject record.subject
      if subject.isEmpty then g
      else
        match g.holders.lookup subject with
        | none => { g with holders := (subject, id) :: g.holders }
        | some holder =>
            if holder = id then g
            else
              let holderIsReply := holderIsReply g.arena records holder
              -- the holder stays, unless only the other root is no reply, or is older
              if isReply && !holderIsReply then
                { g with arena := g.arena.setParent id holder, merged := g.merged ++ [id] }
              else if holderIsReply && !isReply then
                { arena := g.arena.setParent holder id
                  holders := (subject, id) :: g.holders
                  merged := g.merged ++ [holder] }
              else if optionLe (g.arena.firstArticle holder) (g.arena.firstArticle id) then
                { g with arena := g.arena.setParent id holder, merged := g.merged ++ [id] }
              else
                { arena := g.arena.setParent holder id
                  holders := (subject, id) :: g.holders
                  merged := g.merged ++ [holder] }

/-- Pulls together roots that share a subject. -/
def groupBySubject (a : Arena) (roots : List Nat) (records : List OverviewRecord) :
    Arena × List Nat :=
  let g := roots.foldl (groupRoot records) ⟨a, [], []⟩
  (g.arena, roots.filter fun id => !g.merged.contains id)

/-! ## The whole -/

/-- The containers of the records, each linked to the parent its references name. -/
def linkRecords (records : List OverviewRecord) : Arena :=
  let a := (records.zipIdx).foldl (fun a r => a.insert r.2 r.1) Arena.empty
  (records.zipIdx).foldl (fun a r => a.linkReferences r.2 r.1) a

/-- Groups records into threads, roots first. `none` would mean that a loop ran out of steps. -/
def thread (records : List OverviewRecord) : Option (List ThreadNode) :=
  let a := linkRecords records
  let (a, roots) := groupBySubject a a.roots records
  match a.clampDepth roots with
  | none => none
  | some a => (roots.mapM (a.build (a.containers.length + 1))).map fun built => built.reduceOption

end Nntp.Proto
