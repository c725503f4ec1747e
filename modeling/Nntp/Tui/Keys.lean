import Nntp.Tui.App

/-!
# Keys

`app.rs`: what a key press does. `to_lowercase`, which the group filter uses, is a parameter.
-/

namespace Nntp.Tui

open Nntp.Proto

/-- The keys that mean something somewhere, and any other. -/
inductive KeyCode where
  | char (c : Char)
  | f (number : Nat)
  | tab
  | backTab
  | left
  | right
  | up
  | down
  | pageUp
  | pageDown
  | home
  | toEnd
  | enter
  | esc
  | backspace
  | other
  deriving DecidableEq, Repr

/-- A key press, with the modifier that is looked at. -/
structure Key where
  code : KeyCode
  control : Bool := false
  deriving DecidableEq, Repr

/-- Moves a cursor by `delta` within `0..count`, clamping at both ends. -/
def shift (current : Nat) (delta : Int) (count : Nat) : Nat :=
  if count = 0 then 0 else (max 0 (min (current + delta) (count - 1))).toNat

/-- The text an editor opens on: headers, a blank line, then the body. -/
def templateFor (draft : Draft) : Str :=
  draft.headers.flatMap (fun field => field.1 ++ ": ".toList ++ field.2 ++ ['\n']) ++
    '\n' :: draft.body

namespace App

variable (lowercase : Str → Str)

/-! ## Cursors -/

/-- A screenful of the pane with the focus. -/
def page (app : App) : Nat :=
  match app.focus with
  | .body => max (app.bodyHeight - 1) 1
  | _ => max (app.listHeight - 1) 1

def moveGroupCursor (app : App) (delta : Int) : App :=
  { app with groupCursor := shift app.groupCursor delta (app.visibleGroups lowercase).length }

/-- The number of lines of the article on display. -/
def bodyLines (app : App) : Nat := (app.article.map (·.body.length)).getD 0

def scrollBody (app : App) (delta : Int) : App :=
  { app with bodyScroll := shift app.bodyScroll delta (app.bodyLines - 1 + 1) }

def moveCursor (app : App) (delta : Int) : App :=
  match app.focus with
  | .groups => app.moveGroupCursor lowercase delta
  | .articles =>
      { app with articleCursor := shift app.articleCursor delta app.visibleArticles.length }
  | .body => app.scrollBody delta

def moveToStart (app : App) : App :=
  match app.focus with
  | .groups => { app with groupCursor := 0 }
  | .articles => { app with articleCursor := 0 }
  | .body => { app with bodyScroll := 0 }

def moveToEnd (app : App) : App :=
  match app.focus with
  | .groups => { app with groupCursor := (app.visibleGroups lowercase).length - 1 }
  | .articles => { app with articleCursor := app.visibleArticles.length - 1 }
  | .body => { app with bodyScroll := app.bodyLines - max app.bodyHeight 1 }

/-! ## The filter and the overlays -/

/-- A key while the filter is being typed. -/
def filterKey (app : App) (key : Key) : App :=
  match key.code with
  | .esc => { app with editingFilter := false, filter := [], groupCursor := 0 }
  | .enter => { app with editingFilter := false }
  | .backspace => { app with filter := app.filter.dropLast, groupCursor := 0 }
  | .down => app.moveGroupCursor lowercase 1
  | .up => app.moveGroupCursor lowercase (-1)
  | .pageDown => app.moveGroupCursor lowercase app.page
  | .pageUp => app.moveGroupCursor lowercase (-app.page)
  | .home => { app with groupCursor := 0 }
  | .toEnd => { app with groupCursor := (app.visibleGroups lowercase).length - 1 }
  | .char c => { app with filter := app.filter ++ [c], groupCursor := 0 }
  | _ => app

/-- Shows an overlay, or closes it if it is the one on screen. -/
def toggleOverlay (app : App) (overlay : Overlay) : App :=
  { app with overlay := if app.overlay = overlay then .none else overlay }

/-- A key while an overlay is on screen. -/
def overlayKey (app : App) (key : Key) : App :=
  match key.code with
  | .esc | .enter | .char 'q' => { app with overlay := .none }
  | .f 1 | .char '?' => app.toggleOverlay .help
  | .char 'm' => app.toggleOverlay .messages
  | _ => app

/-! ## Requests -/

/-- Asks the server for groups matching whatever is in the filter box. -/
def searchGroups (app : App) : App × List Request :=
  let ask (scope : GroupScope) : App × List Request :=
    ({ app with inflight := app.inflight + 1, groupScope := scope }, [.loadGroups scope])
  let text := trim app.filter
  if text.isEmpty then ask .everything
  else
    match Wildmat.containing text with
    | .ok pattern => ask (.search pattern)
    | .error _ => (app, [])

/-- Asks the worker to abandon whatever it is reading. -/
def requestCancellation (app : App) : App :=
  if app.inflight = 0 then app else { app with cancel := true }

/-- Esc outside the filter and the overlays. -/
def escape (app : App) : App :=
  if 0 < app.inflight then app.requestCancellation
  else if app.filter.isEmpty then { app with focus := .groups }
  else { app with filter := [], groupCursor := 0 }

def loadSelectedArticle (app : App) : App × List Request :=
  match app.selectedArticle, app.group with
  | some record, some summary =>
      ({ app with inflight := app.inflight + 1 },
        [.loadArticle (some summary.name) (.number record.number)])
  | _, _ => (app, [])

/-- What is dropped when another group is opened. -/
def clearArticles (app : App) : App :=
  { app with articles := [], threads := [], collapsed := [], article := none }

/-- Enter on a group. -/
def enterGroup (app : App) (group : GroupRow) : App × List Request :=
  let app := app.clearArticles
  if group.isEmpty then (app, [])
  else
    let app := { app with articleCursor := 0, inflight := app.inflight + 1 }.beginOverviewFetch
    (app, [.openGroup group.name app.initialArticles app.nextToken])

/-- Enter: opens the group under the cursor, or the article under the cursor. -/
def activate (app : App) : App × List Request :=
  match app.focus with
  | .groups =>
      match app.selectedGroup lowercase with
      | some group => app.enterGroup group
      | none => (app, [])
  | .articles => app.loadSelectedArticle
  | .body => (app.scrollBody 1, [])

/-- `n` and `p`: moves to the next or previous article and opens it. -/
def stepArticle (app : App) (delta : Int) : App × List Request :=
  let count := app.visibleArticles.length
  let next := app.articleCursor + delta
  if next < 0 ∨ (count : Int) ≤ next then (app, [])
  else { app with articleCursor := next.toNat }.loadSelectedArticle

/-- Fetches the newest articles of a group again. -/
def reloadOverview (app : App) (summary : GroupSummary) : App × List Request :=
  match summary.range with
  | none => (app, [])
  | some (low, high) =>
      let first := max (Nntp.Lib.saturatingSub high (Nntp.Lib.saturatingSub app.initialArticles 1)) low
      let app := { app with inflight := app.inflight + 1 }.beginOverviewFetch
      (app, [.loadOverview summary.name (.ofBounds first high) app.nextToken])

def refresh (app : App) : App × List Request :=
  match app.focus, app.group with
  | .groups, _ => ({ app with inflight := app.inflight + 1 }, [.loadGroups app.groupScope])
  | _, some summary => app.reloadOverview summary
  | _, none => (app, [])

def quit (app : App) : App × List Request := ({ app with shouldQuit := true }, [.shutdown])

/-! ## What has been read, and how it is shown -/

/-- The cursor on the article it was on before the list changed its shape, or else on the last. -/
def returnTo (app : App) (anchor : Option OverviewRecord) : App :=
  { app with
    articleCursor := (anchor.bind fun record => app.rowOf record.number).getD
      (app.visibleArticles.length - 1) }

/-- `u`: shows only unread articles, or everything again. -/
def toggleUnreadOnly (app : App) : App :=
  { app with unreadOnly := !app.unreadOnly }.returnTo app.selectedArticle

/-- `t`: groups the article list into conversations, or shows it flat again. -/
def toggleThreading (app : App) : App :=
  ({ app with threaded := !app.threaded }.rebuildThreads).returnTo app.selectedArticle

/-- Folds the replies to an article away, or brings them back. -/
def toggleFold (app : App) (number : UInt64) : App :=
  { app with
    collapsed := if number ∈ app.collapsed then app.collapsed.filter (· ≠ number)
      else number :: app.collapsed }

/-- `z`: folds the replies under the cursor away, or brings them back. -/
def toggleFoldUnderCursor (app : App) : App :=
  if !app.threaded then app
  else
    match app.articleRows[app.articleCursor]? with
    | none => app
    | some row =>
        match app.articles[row.index]? with
        | none => app
        | some record =>
            if !row.hasReplies then app
            else
              let app := app.toggleFold record.number
              { app with
                articleCursor := (app.rowOf record.number).getD app.articleCursor }.clampArticleCursor

/-- `M`: marks the article under the cursor read, or unread if it already was read. -/
def toggleReadUnderCursor (app : App) : App :=
  match app.selectedArticle, app.group with
  | some record, some summary =>
      let name := summary.name.asStr
      let read := if app.isUnread record.number then app.read.markRead name record.number
        else app.read.markUnread name record.number
      { app with read := read }.clampArticleCursor
  | _, _ => app

/-- `c`: marks the whole selected group read. -/
def catchUp (app : App) : App :=
  match app.group with
  | none => app
  | some summary =>
      match summary.range with
      | none => app
      | some (low, high) =>
          { app with
            read := app.read.markRangeRead summary.name.asStr low high }.clampArticleCursor

/-! ## Writing -/

/-- Who to post as; without an identity a note says what is missing. -/
def postingIdentity (app : App) : App × Option Str :=
  match app.postFrom.filter fun sender => !(trim sender).isEmpty with
  | some sender => (app, some sender)
  | none => (app.note .noIdentity, none)

/-- `w`: a new article in the selected group. -/
def startArticle (app : App) : App :=
  match app.postingIdentity, app.group with
  | (app, none), _ => app
  | (app, some _), none => app
  | (app, some sender), some summary =>
      let draft := ((({} : Draft).setHeader "From".toList sender).setHeader "Newsgroups".toList
        summary.name.asStr).setHeader "Subject".toList []
      { app with compose := some { template := templateFor draft, what := "a new article".toList } }

/-- The groups a follow-up goes to: those the article names, or else the selected one. -/
def followUpGroups (app : App) (article : ArticleView) : List Str :=
  if article.followupGroups.isEmpty then (app.group.map (·.name.asStr)).toList
  else article.followupGroups

/-- `f`: a follow-up to the article on screen. -/
def startFollowUp (app : App) : App :=
  match app.postingIdentity, app.article with
  | (app, none), _ => app
  | (app, some _), none => app
  | (app, some sender), some article =>
      if article.followupToPoster then app.note .repliesByMail
      else
        let groups := app.followUpGroups article
        if groups.isEmpty then app
        else
          let draft := Draft.followUp
            { messageId := article.messageId, references := article.references
              subject := article.subject, author := article.author
              newsgroups := groups, body := joinWith ['\n'] article.body } sender
          { app with compose := some { template := templateFor draft, what := "a follow-up".toList } }

/-! ## The key bindings -/

/-- A character outside the filter and the overlays. -/
def charKey (app : App) (c : Char) (control : Bool) : App × List Request :=
  match c with
  | 'q' => app.quit
  | '?' => ({ app with overlay := .help }, [])
  | 'm' => ({ app with overlay := .messages }, [])
  | 'h' => ({ app with focus := app.focus.previous }, [])
  | 'l' => ({ app with focus := app.focus.next }, [])
  | '/' => ({ app with editingFilter := true, focus := .groups }, [])
  | 'r' => app.refresh
  | 'j' => (app.moveCursor lowercase 1, [])
  | 'k' => (app.moveCursor lowercase (-1), [])
  | 'd' => (if control then app.moveCursor lowercase app.page else app, [])
  | 'g' => (app.moveToStart, [])
  | 'G' => (app.moveToEnd lowercase, [])
  | 'n' => app.stepArticle 1
  | 'p' => app.stepArticle (-1)
  | 'u' => (if control then app.moveCursor lowercase (-app.page) else app.toggleUnreadOnly, [])
  | 'M' => (app.toggleReadUnderCursor, [])
  | 'c' => (app.catchUp, [])
  | 't' => (app.toggleThreading, [])
  | 'z' => (app.toggleFoldUnderCursor, [])
  | 'w' => (app.startArticle, [])
  | 'f' => (app.startFollowUp, [])
  | 'S' => app.searchGroups
  | _ => (app, [])

/-- A key outside the filter and the overlays. -/
def paneKey (app : App) (key : Key) : App × List Request :=
  match key.code with
  | .char c => app.charKey lowercase c key.control
  | .f 1 => ({ app with overlay := .help }, [])
  | .tab | .right => ({ app with focus := app.focus.next }, [])
  | .backTab | .left => ({ app with focus := app.focus.previous }, [])
  | .esc => (app.escape, [])
  | .enter => app.activate lowercase
  | .down => (app.moveCursor lowercase 1, [])
  | .up => (app.moveCursor lowercase (-1), [])
  | .pageDown => (app.moveCursor lowercase app.page, [])
  | .pageUp => (app.moveCursor lowercase (-app.page), [])
  | .home => (app.moveToStart, [])
  | .toEnd => (app.moveToEnd lowercase, [])
  | _ => (app, [])

/-- Applies a key press, returning any requests it produced. -/
def onKey (app : App) (key : Key) : App × List Request :=
  if app.editingFilter then (app.filterKey lowercase key, [])
  -- Ctrl-C quits from anywhere, including an overlay
  else if key.control ∧ key.code = .char 'c' then app.quit
  else if app.overlay ≠ .none then (app.overlayKey key, [])
  else app.paneKey lowercase key

/-- **What a key does** outside the overlays and the filter. -/
theorem paneKey_cases {lowercase : Str → Str} {app : App} {key : Key} {P : App × List Request → Prop}
    (hchar : ∀ c, P (app.charKey lowercase c key.control)) (hhelp : P ({ app with overlay := .help }, []))
    (hfocus : ∀ focus, P ({ app with focus := focus }, [])) (hescape : key.code = .esc → P (app.escape, []))
    (henter : key.code = .enter → P (app.activate lowercase))
    (hmove : ∀ delta, P (app.moveCursor lowercase delta, [])) (hstart : P (app.moveToStart, []))
    (hend : P (app.moveToEnd lowercase, [])) (hnone : P (app, [])) : P (app.paneKey lowercase key) := by
  obtain ⟨code, control⟩ := key
  cases code with
  | char c => exact hchar c
  | f number =>
      match number with
      | 0 => exact hnone
      | 1 => exact hhelp
      | n + 2 => exact hnone
  | tab => exact hfocus app.focus.next
  | backTab => exact hfocus app.focus.previous
  | left => exact hfocus app.focus.previous
  | right => exact hfocus app.focus.next
  | up => exact hmove (-1)
  | down => exact hmove 1
  | pageUp => exact hmove (-app.page)
  | pageDown => exact hmove app.page
  | home => exact hstart
  | toEnd => exact hend
  | enter => exact henter rfl
  | esc => exact hescape rfl
  | backspace => exact hnone
  | other => exact hnone
end App

end Nntp.Tui
