import JsxView.Proofs.CursorCell
/-!
# InertFrame — frames write no control characters but those of a notice

What a frame writes is inert if no control character is in it, for such a character could move the cursor, break a row
or begin a sequence of its own.  The cells of a line are inert whatever the line is, because a control character shows
as something else there; the title, the statistics and the numbers of the lines are made of inert words and digits.
A notice is cut to the width of the screen and not changed otherwise, so a frame is inert just if what it shows of its
notice is (`Frame.inert_draw_iff`).

Notices carry the path that was written and the reason of a failure.  A run is inert where the directory for downloads
and the reason of the clipboard are (`Interaction.inert_play`).
-/
namespace JsxView

/-- A text without control characters. -/
def ControlFree (text : List Char) : Prop :=
  ∀ c ∈ text, isControl c = false

instance (text : List Char) : Decidable (ControlFree text) :=
  List.decidableBAll (isControl · = false) text

/-- **Operations that write no control characters.** -/
def Inert (ops : List ScreenOp) : Prop :=
  ∀ text, ScreenOp.write text ∈ ops → ControlFree text

/-! ## Texts -/

namespace ControlFree

variable {a b : List Char}

theorem append (ha : ControlFree a) (hb : ControlFree b) : ControlFree (a ++ b) :=
  fun c hc => (List.mem_append.1 hc).elim (ha c) (hb c)

theorem of_subset (ha : ControlFree a) (h : b ⊆ a) : ControlFree b :=
  fun c hc => ha c (h hc)

end ControlFree

theorem controlFree_spaces (n : Nat) : ControlFree (spaces n) := by
  intro c hc
  rw [List.eq_of_mem_replicate hc]
  decide

theorem controlFree_decimal (n : Nat) : ControlFree (decimal n) :=
  fun _ hc => isControl_of_isDigit (Nat.isDigit_of_mem_toDigits (by omega) (by omega) hc)

/-- **A cell shows no control character**, whatever its character is. -/
theorem controlFree_cellText (tabWidth col : Nat) (c : Char) : ControlFree (cellText tabWidth col c).1 := by
  unfold cellText
  split
  · exact controlFree_spaces _
  · split
    · exact fun _ h => by cases h
    · split
      · decide
      · rename_i hcontrol
        intro d hd
        rw [List.mem_singleton.1 hd]
        simpa using hcontrol

theorem controlFree_of_mem_cellsFrom {tabWidth byte col : Nat} {line : List Char} {cell : Cell}
    (h : cell ∈ cellsFrom tabWidth byte col line) : ControlFree cell.text := by
  obtain ⟨-, c, -, -, -, -, htext, -⟩ := exists_of_mem_cellsFrom h
  exact htext ▸ controlFree_cellText tabWidth cell.col c

theorem controlFree_of_clipLeft {skip : Nat} {cell clipped : Cell} (hcell : ControlFree cell.text)
    (h : cell.clipLeft skip = some clipped) : ControlFree clipped.text := by
  rcases Cell.clipLeft_cases h with rfl | ⟨n, htext, -⟩
  · exact hcell
  · exact htext ▸ controlFree_spaces n

/-- **What shows of a line** in a pane holds no control character. -/
theorem controlFree_styledRuns (line : List Char) (spans : List Span) (base : Style) (skip room tabWidth : Nat) :
    ∀ run ∈ (styledRuns line spans base skip room tabWidth).1, ControlFree run.text := by
  intro run hrun c hc
  have hshown : c ∈ runsText (styledRuns line spans base skip room tabWidth).1 := List.mem_flatMap.2 ⟨run, hrun, hc⟩
  rw [runsText_styledRuns] at hshown
  obtain ⟨cell, hcell, hc⟩ := List.mem_flatMap.1 hshown
  obtain ⟨whole, hwhole, hclip⟩ := List.mem_filterMap.1 ((prefix_takeColumns _ _).subset hcell)
  exact controlFree_of_clipLeft (controlFree_of_mem_cellsFrom hwhole) hclip c hc

theorem controlFree_titleText (scene : Scene) : ControlFree (titleText scene) := by
  have hname : ∀ theme : Theme, ControlFree theme.name := fun theme => by cases theme <;> decide
  have hmode : ∀ mode : HighlightMode, ControlFree mode.name := fun mode => by cases mode <;> decide
  have hswitch : ∀ on : Bool, ControlFree (if on then "on" else "off").toList := by decide
  unfold titleText
  refine .append (.append (.append (.append (.append (.append (.append ?_ (hname _)) ?_) (controlFree_decimal _)) ?_)
    (hswitch _)) ?_) (hmode _) <;> decide

theorem controlFree_statsText (stats : Stats) : ControlFree (statsText stats) := by
  unfold statsText
  refine .append (.append (.append (.append (.append (.append (.append ?_ (controlFree_decimal _)) ?_)
    (controlFree_decimal _)) ?_) (controlFree_decimal _)) ?_) (controlFree_decimal _) <;> decide

theorem takeWidth_subset : ∀ (room : Nat) (text : List Char), takeWidth room text ⊆ text
  | _, [] => fun _ h => h
  | room, c :: rest => by
    rw [takeWidth]
    split
    · exact List.cons_subset_cons c (takeWidth_subset _ rest)
    · exact List.nil_subset _

/-- A text fitted to a width has the control characters of the part that it keeps. -/
theorem controlFree_fitToWidth_iff (text : List Char) (width : Nat) :
    ControlFree (fitToWidth text width) ↔ ControlFree (takeWidth width text) :=
  ⟨fun h => h.of_subset (List.subset_append_left _ _), fun h => h.append (controlFree_spaces _)⟩

theorem controlFree_fitToWidth {text : List Char} (h : ControlFree text) (width : Nat) :
    ControlFree (fitToWidth text width) :=
  (controlFree_fitToWidth_iff text width).2 (h.of_subset (takeWidth_subset width text))

/-! ## Frames -/

namespace Inert

variable {a b : List ScreenOp}

theorem append (ha : Inert a) (hb : Inert b) : Inert (a ++ b) :=
  fun text h => (List.mem_append.1 h).elim (ha text) (hb text)

theorem left (h : Inert (a ++ b)) : Inert a :=
  fun text hmem => h text (List.mem_append_left b hmem)

theorem right (h : Inert (a ++ b)) : Inert b :=
  fun text hmem => h text (List.mem_append_right a hmem)

theorem flatMap {α : Type} {f : α → List ScreenOp} {l : List α} (h : ∀ x ∈ l, Inert (f x)) : Inert (l.flatMap f) := by
  intro text hmem
  obtain ⟨x, hx, hmem⟩ := List.mem_flatMap.1 hmem
  exact h x hx text hmem

theorem cons_of_ne {op : ScreenOp} (hop : ∀ text, op ≠ .write text) (h : Inert a) : Inert (op :: a) :=
  fun text hmem => h text ((List.mem_cons.1 hmem).resolve_left fun heq => hop text heq.symm)

end Inert

theorem not_mem_style_ops (style : Style) (text : List Char) : ScreenOp.write text ∉ style.ops := by
  obtain ⟨fg, bg, bold, italic⟩ := style
  cases fg <;> cases bg <;> cases bold <;> cases italic <;> simp [Style.ops]

theorem inert_writeStyled (style : Style) {text : List Char} (h : ControlFree text) :
    Inert (writeStyled style text) := by
  intro other hmem
  have hwritten : ScreenOp.write other ∈ style.ops ++ [.write text] := by simpa [writeStyled] using hmem
  rcases List.mem_append.1 hwritten with hstyle | htext
  · exact absurd hstyle (not_mem_style_ops style other)
  · cases List.mem_singleton.1 htext
    exact h

namespace Frame

theorem inert_reversedRow (row cols : Nat) {text : List Char} (h : ControlFree text) :
    Inert (reversedRow row cols text) := by
  intro other hmem
  have hwritten : other = fitToWidth text cols := by simpa [reversedRow] using hmem
  exact hwritten ▸ controlFree_fitToWidth h cols

theorem mem_noticeRow {layout : Layout} {notice : Option Notice} {text : List Char} :
    ScreenOp.write text ∈ noticeRow layout notice ↔
      text = fitToWidth (notice.elim keyHint Notice.message) layout.cols := by
  cases notice with
  | none => simp [noticeRow]
  | some n => simp [noticeRow, not_mem_style_ops]

/-- **The last row is inert** just if what it shows of a notice is. -/
theorem inert_noticeRow_iff {layout : Layout} {notice : Option Notice} : Inert (noticeRow layout notice) ↔
    ∀ n, notice = some n → ControlFree (takeWidth layout.cols n.message) := by
  have hhint : ControlFree keyHint := by decide +kernel
  simp only [Inert, mem_noticeRow, forall_eq]
  cases notice with
  | none => exact ⟨fun _ => nofun, fun _ => controlFree_fitToWidth hhint _⟩
  | some n => exact (controlFree_fitToWidth_iff _ _).trans ⟨fun h _ hn => Option.some.inj hn ▸ h, fun h => h n rfl⟩

theorem inert_fill (style : Style) (width : Nat) : Inert (fill style width) := by
  unfold fill
  split
  · exact fun _ h => by cases h
  · exact inert_writeStyled style (controlFree_spaces width)

theorem inert_drawPane (line : Option (List Char)) (spans : List Span) (style : Style) (skip width tabWidth : Nat) :
    Inert (drawPane line spans style skip width tabWidth) := by
  cases line with
  | none => exact inert_fill style width
  | some text =>
    have hruns : Inert (drawRuns (styledRuns text spans style skip width tabWidth).1) :=
      .flatMap fun run hrun => inert_writeStyled run.style (controlFree_styledRuns _ _ _ _ _ _ run hrun)
    exact hruns.append (inert_fill style _)

variable (scene : Scene) (layout : Layout) (tabWidth : Nat)

theorem inert_separator : Inert (separator scene layout) := by
  unfold separator
  split
  · exact inert_writeStyled _ (by decide)
  · exact fun _ h => by cases h

theorem inert_lineNumber (index width : Nat) : Inert (lineNumber scene index width) := by
  unfold lineNumber
  split
  · exact fun _ h => by cases h
  · exact inert_writeStyled _ (((controlFree_spaces _).append (controlFree_decimal _)).append (by decide))

theorem inert_rightPane [Engine] (index : Nat) (line : Option (List Char)) :
    Inert (rightPane scene layout tabWidth index line) := by
  cases line with
  | none => exact inert_drawPane none [] _ 0 _ tabWidth
  | some text => exact (inert_lineNumber scene index _).append (inert_drawPane (some text) _ _ 0 _ tabWidth)

theorem inert_paneRow [Engine] (row : Nat) : Inert (paneRow scene layout tabWidth row) := by
  have hleft : Inert (leftPane scene layout tabWidth scene.view.lines[scene.topLine + row]?) :=
    inert_drawPane _ [] scene.base scene.leftCol layout.leftWidth tabWidth
  exact ((hleft.append (inert_separator scene layout)).append (inert_rightPane scene layout tabWidth _ _)).cons_of_ne
    nofun

theorem inert_placeCursor : Inert (placeCursor scene layout tabWidth) := by
  unfold placeCursor
  simp only
  split <;> exact fun _ h => by simp at h

/-- The operations of a frame are those of its last row and inert ones. -/
theorem exists_draw_eq_around [Engine] (display : Display) : ∃ above below, Inert above ∧ Inert below ∧
    draw scene layout display = above ++ noticeRow layout scene.view.notice ++ below := by
  have hbegin : Inert (.hideCursor :: if display.pending then [.clear] else []) := by
    intro text h
    split at h <;> simp at h
  have hpanes : Inert ((List.range layout.paneHeight).flatMap (paneRow scene layout display.tabWidth)) :=
    .flatMap fun row _ => inert_paneRow scene layout display.tabWidth row
  have habove := ((hbegin.append (inert_reversedRow 0 layout.cols (controlFree_titleText scene))).append hpanes).append
    (inert_reversedRow layout.statsRow layout.cols (controlFree_statsText scene.view.stats))
  exact ⟨_, _, habove, inert_placeCursor scene layout display.tabWidth, rfl⟩

/-- What a frame writes holds no control character, unless it is the row of a notice. -/
theorem controlFree_or_notice [Engine] (display : Display) {text : List Char}
    (h : ScreenOp.write text ∈ draw scene layout display) :
    ControlFree text ∨ ∃ n, scene.view.notice = some n ∧ text = fitToWidth n.message layout.cols := by
  obtain ⟨above, below, habove, hbelow, hdraw⟩ := exists_draw_eq_around scene layout display
  rw [hdraw] at h
  rcases List.mem_append.1 h with h | h
  · rcases List.mem_append.1 h with h | h
    · exact .inl (habove text h)
    · cases hnotice : scene.view.notice with
      | none =>
        have hhint : Inert (noticeRow layout none) := inert_noticeRow_iff.2 nofun
        rw [hnotice] at h
        exact .inl (hhint text h)
      | some n =>
        rw [hnotice] at h
        exact .inr ⟨n, rfl, mem_noticeRow.1 h⟩
  · exact .inl (hbelow text h)

/-- **A frame is inert just if what it shows of its notice is.** -/
theorem inert_draw_iff [Engine] (display : Display) : Inert (draw scene layout display) ↔
    ∀ n, scene.view.notice = some n → ControlFree (takeWidth layout.cols n.message) := by
  obtain ⟨above, below, habove, hbelow, hdraw⟩ := exists_draw_eq_around scene layout display
  rw [hdraw, ← inert_noticeRow_iff]
  exact ⟨fun h => h.left.right, fun h => (habove.append h).append hbelow⟩

end Frame

/-! ## Sessions -/

namespace Session

/-- **A session whose words are inert**: those of its notice and the directory that later notices name. -/
structure InertWords (s : Session) : Prop where
  dir : ControlFree s.downloadDir
  notice : ∀ n, s.view.notice = some n → ControlFree n.message

/-- A reply whose reason, if it has one, is inert. -/
def InertReply (reply : Reply) : Prop :=
  ∀ failure, reply = some failure → ControlFree failure.message

variable {s : Session}

theorem controlFree_joinPath {dir name : List Char} (hdir : ControlFree dir) (hname : ControlFree name) :
    ControlFree (joinPath dir name) := by
  have hslash : ControlFree ('/' :: name) := .append (a := ['/']) (by decide) hname
  unfold joinPath
  split
  · exact hdir.append hname
  · exact hdir.append hslash

theorem InertWords.edit? (h : s.InertWords) (edited : Option (List Char × Cursor)) : (s.edit? edited).InertWords := by
  cases edited with
  | none => exact h
  | some e => exact ⟨h.dir, fun _ hn => by cases hn⟩

theorem InertWords.act (h : s.InertWords) {action : Action} (hnotice : (s.view.apply action).notice = s.view.notice) :
    (s.act action).InertWords :=
  ⟨h.dir, fun n hn => h.notice n (hnotice ▸ hn)⟩

theorem InertWords.showReply (h : s.InertWords) {reply : Reply} (hreply : InertReply reply) {done failed : List Char}
    (hdone : ControlFree done) (hfailed : ControlFree failed) :
    (s.act (.showNotice (reply.notice done failed))).InertWords where
  dir := h.dir
  notice := by
    intro n hn
    have hshown : reply.notice done failed = n := Option.some.inj hn
    rw [← hshown]
    cases reply with
    | none => exact hdone
    | some failure => exact hfailed.append (hreply failure rfl)

/-- **Every command keeps the words of a session inert**, if the reply to it is. -/
theorem InertWords.update (h : s.InertWords) {reply : Reply} (hreply : InertReply reply) (layout : Layout)
    (command : Command) : (s.update reply layout command).InertWords := by
  cases command with
  | insert c => exact ⟨h.dir, fun _ hn => by cases hn⟩
  | paste text => exact ⟨h.dir, fun _ hn => by cases hn⟩
  | newline => exact ⟨h.dir, fun _ hn => by cases hn⟩
  | backspace => exact h.edit? _
  | delete => exact h.edit? _
  | copy => exact h.showReply hreply (by decide) (by decide)
  | download =>
    exact h.showReply hreply (.append (by decide) (controlFree_joinPath h.dir (by decide))) (by decide)
  | exportHtml =>
    exact h.showReply hreply (.append (by decide) (controlFree_joinPath h.dir (by decide))) (by decide)
  | dismissNotice => exact ⟨h.dir, fun _ hn => by cases hn⟩
  | click row col =>
    rw [Session.update]
    split
    · exact h.act rfl
    · exact h
  | pinCursorLine => exact h.act rfl
  | cycleTheme => exact h.act rfl
  | selectTheme theme => exact h.act rfl
  | toggleLineNumbers => exact h.act rfl
  | fontBigger => exact h.act rfl
  | fontSmaller => exact h.act rfl
  | resetFontSize => exact h.act rfl
  | _ => exact ⟨h.dir, h.notice⟩

theorem InertWords.handle (h : s.InertWords) {reply : Reply} (hreply : InertReply reply) (layout : Layout)
    (command : Command) : (s.handle reply layout command).1.InertWords := by
  by_cases hquit : command = .quit
  · subst hquit
    exact h
  · rw [handle_of_ne_quit s reply layout hquit]
    have hupdate := h.update hreply layout command
    exact ⟨hupdate.dir, hupdate.notice⟩

end Session

theorem Files.controlFree_of_follow {files : Files} : ∀ {names : List (List Char)} {place : Location} {e : FileError},
    files.follow place names = .error e → ControlFree e.message
  | [], _, _, h => by cases h
  | name :: rest, place, e, h => by
    unfold follow at h
    repeat' split at h
    · cases h
      decide
    · cases h
      decide
    · cases h
      decide
    · exact controlFree_of_follow h
    · exact controlFree_of_follow h
    · exact controlFree_of_follow h

theorem Files.controlFree_of_resolve {files : Files} {path : List Char} {e : FileError}
    (h : files.resolve path = .error e) : ControlFree e.message := by
  unfold resolve at h
  split at h
  · cases h
    decide
  split at h
  · cases h
    decide
  split at h
  · cases h
    decide
  · exact controlFree_of_follow h

theorem Files.controlFree_of_write {files : Files} {path text : List Char} {e : FileError}
    (h : files.write path text = .error e) : ControlFree e.message := by
  unfold write at h
  split at h
  · rename_i e' herror
    cases h
    exact controlFree_of_resolve herror
  · split at h
    · cases h
      decide
    · cases h

/-- The replies from outside are inert where the reason of the clipboard is. -/
theorem Outside.inertReply_serve {outside : Outside}
    (h : ∀ reason, outside.clipboardFailure = some reason → ControlFree reason) (request : Option Request) :
    Session.InertReply (outside.serve request).1 ∧
      (outside.serve request).2.clipboardFailure = outside.clipboardFailure := by
  cases request with
  | none => exact ⟨nofun, rfl⟩
  | some request =>
    cases request with
    | copy text =>
      refine ⟨fun failure hfailure => ?_, rfl⟩
      obtain ⟨reason, hreason, rfl⟩ := Option.map_eq_some_iff.1 (show outside.clipboardFailure.map _ = _ from hfailure)
      exact .append (by decide) (h reason hreason)
    | save path text =>
      rw [serve]
      split
      · exact ⟨nofun, rfl⟩
      · rename_i e herror
        refine ⟨fun failure hfailure => ?_, rfl⟩
        cases hfailure
        exact .append (by decide) (Files.controlFree_of_write herror)

/-! ## Runs -/

namespace Interaction

theorem inert_draw_of_inertWords [Engine] {run : Interaction} (h : run.session.InertWords) : Inert run.draw.1 := by
  show Inert (run.display.render run.session.scene run.cols run.rows).1
  unfold Display.render
  simp only
  split
  · exact (Frame.inert_draw_iff run.session.scene _ run.display).2 fun n hn =>
      (h.notice n hn).of_subset (takeWidth_subset _ _)
  · exact fun _ h => by cases h

/-- **A run writes no control character** if there is none in the directory for downloads and none in the reason of
the clipboard, whatever the text is and whatever comes in. -/
theorem inert_play [Engine] : ∀ (events : List Event) {run : Interaction} {outside : Outside}, run.session.InertWords →
    (∀ reason, outside.clipboardFailure = some reason → ControlFree reason) → Inert (run.play outside events).1
  | [], _, _, _, _ => fun _ h => by cases h
  | event :: rest, run, outside, hwords, hclipboard => by
    have hdrawn := inert_draw_of_inertWords hwords
    have hserved := Outside.inertReply_serve hclipboard
      ((run.draw.2.resized event).session.request event.command)
    have hsession : (run.draw.2.resized event).session = run.session := by cases event <;> rfl
    have hhandled := (hsession ▸ hwords : (run.draw.2.resized event).session.InertWords).handle hserved.1
      (run.draw.2.resized event).layout event.command
    rw [play_cons]
    split
    · exact hdrawn.append (inert_play rest hhandled (hserved.2 ▸ hclipboard))
    · rwa [List.append_nil]

/-- **The only control characters of a run are those of its notices.**  What a frame writes holds none, unless it is the
row of a notice; the frame writes none at all exactly if there is none in what it shows of its notice; and a whole run
writes none, whatever its text and its events are, if the directory for downloads and the reason of the clipboard have
none. -/
theorem control_only_from_notice [Engine] (run : Interaction) :
    (∀ text, ScreenOp.write text ∈ run.draw.1 →
      ControlFree text ∨ ∃ n, run.session.view.notice = some n ∧ text = fitToWidth n.message run.cols) ∧
    (Inert run.draw.1 ↔ (3 ≤ run.cols → 4 ≤ run.rows →
      ∀ n, run.session.view.notice = some n → ControlFree (takeWidth run.cols n.message))) ∧
    ∀ (events : List Event) (outside : Outside), run.session.InertWords →
      (∀ reason, outside.clipboardFailure = some reason → ControlFree reason) →
      Inert (run.play outside events).1 := by
  refine and_assoc.1 ⟨?_, fun events _ hwords hclipboard => inert_play events hwords hclipboard⟩
  by_cases hpanes : 3 ≤ run.cols ∧ 4 ≤ run.rows
  · rw [draw_eq_frame hpanes.1 hpanes.2]
    refine ⟨fun text h => Frame.controlFree_or_notice run.session.scene run.layout run.display h, ?_⟩
    exact (Frame.inert_draw_iff run.session.scene run.layout run.display).trans
      ⟨fun h _ _ => h, fun h => h hpanes.1 hpanes.2⟩
  · have hnothing : run.draw.1 = [] := congrArg Prod.fst
      (show run.display.render run.session.scene run.cols run.rows = ([], run.display) from
        if_neg fun h => hpanes ((Layout.hasPanes_compute run.cols run.rows).1 h))
    rw [hnothing]
    exact ⟨fun _ h => (by cases h), fun _ hcols hrows => absurd ⟨hcols, hrows⟩ hpanes, fun _ _ h => (by cases h)⟩

/-- A text and a paste with control characters in them, a clipboard that fails and a file that is refused. -/
theorem control_only_from_notice_refused :
    letI := Engine.backtracking
    let run := start (Session.start "\x01日".toList { downloadDir := "out".toList }) 40 4
    let outside : Outside := ⟨⟨[], []⟩, some "no display".toList⟩
    let events : List Event := [.paste "\x1b[2J".toList, .key { key := .char 'y', ctrl := true },
      .key { key := .char 's', ctrl := true }, .resize 60 5]
    (run.session.InertWords ∧ ∀ reason, outside.clipboardFailure = some reason → ControlFree reason) ∧
    Inert (run.play outside events).1 := by
  let := Engine.backtracking
  intro run outside events
  have hwords : run.session.InertWords := ⟨by decide, nofun⟩
  have hclipboard : ∀ reason, outside.clipboardFailure = some reason → ControlFree reason := by
    rintro reason ⟨⟩
    decide
  exact ⟨⟨hwords, hclipboard⟩, (control_only_from_notice run).2.2 events outside hwords hclipboard⟩

/-- A run that has saved its text to a directory whose name clears the screen. -/
def savedBehindEscape : Interaction :=
  letI := Engine.backtracking
  ((start (Session.start [] { downloadDir := "\x1b[2J".toList }) 40 4).draw.2.handle none .download).1

/-- Its next frame sends the name to the terminal as it is, with the escape in it. -/
theorem notice_writes_escape :
    letI := Engine.backtracking
    Reached (start (Session.start [] { downloadDir := "\x1b[2J".toList }) 40 4) savedBehindEscape ∧
    ¬ Inert savedBehindEscape.draw.1 := by
  let := Engine.backtracking
  refine ⟨Reached.start.command none .download rfl, fun h => ?_⟩
  rw [draw_eq_frame (by decide) (by decide), Frame.inert_draw_iff] at h
  exact absurd (h _ rfl) (by decide +kernel)

end Interaction
end JsxView
