import JsxView.Proofs.CellColumns
import JsxView.Proofs.ValidCursor
import JsxView.Session.Basic
/-!
# SessionInvariant — what every command keeps

However a session got where it is, its cursor fits the text, its pin names a line of the text, and its window does not
begin below the cursor (`InPlace`).  The view alone promises none of it: an action pins any index, and the start of a
line is taken without a look at the text.  It is what the session hands over that keeps the pin and the cursor on
their lines (`onLines_update`), and the scroll behind every command that keeps the window above the cursor
(`inPlace_handle`).  A run is a list of turns, each on a screen of its own size.
-/
namespace JsxView

theorem Layout.lt_of_lineAt {layout : Layout} {row col topLine lineCount line : Nat}
    (h : layout.lineAt row col topLine lineCount = some line) : line < lineCount := by
  unfold Layout.lineAt at h
  simp only at h
  split at h
  · rename_i hin
    cases h
    exact hin.2.2.2
  · cases h

namespace Session

/-- A command as a session meets it: with the reply to what it requests and the size of the screen. -/
structure Turn where
  command : Command
  reply : Reply
  cols : Nat
  rows : Nat

/-- The session after one turn. -/
def turn (s : Session) (t : Turn) : Session :=
  (s.handle t.reply (Layout.compute t.cols t.rows) t.command).1

/-- The session after some turns. -/
def after (s : Session) (turns : List Turn) : Session :=
  turns.foldl turn s

/-- **The cursor and the pin are on lines of the text.** -/
structure OnLines (s : Session) : Prop where
  cursor : s.cursor.Valid s.view.text
  pinned : ∀ line, s.view.pinned = some line → line < s.view.lineCount

/-- **A session in place**: on its lines, with a window that does not begin below the cursor. -/
structure InPlace (s : Session) : Prop extends OnLines s where
  topLine : s.topLine ≤ s.cursor.line

variable {s : Session}

/-! ## One command -/

/-- An edit takes the pin away with its line. -/
theorem onLines_edit {edited : List Char × Cursor} (hcursor : edited.2.Valid edited.1) : (s.edit edited).OnLines where
  cursor := hcursor
  pinned := by
    intro line hline
    have hkept : s.view.pinned.filter (· < lineCount edited.1) = some line := hline
    exact of_decide_eq_true (Option.filter_eq_some_iff.1 hkept).2

theorem OnLines.edit? (h : s.OnLines) {edited : Option (List Char × Cursor)}
    (hcursor : ∀ e, edited = some e → e.2.Valid e.1) : (s.edit? edited).OnLines := by
  cases edited with
  | none => exact h
  | some e => exact onLines_edit (hcursor e rfl)

theorem OnLines.moveTo (h : s.OnLines) {c : Cursor} (hcursor : c.Valid s.view.text) : (s.moveTo c).OnLines :=
  ⟨hcursor, h.pinned⟩

/-- An action that touches neither the text nor the pin. -/
theorem OnLines.act (h : s.OnLines) {action : Action} (htext : (s.view.apply action).text = s.view.text)
    (hpinned : (s.view.apply action).pinned = s.view.pinned) : (s.act action).OnLines where
  cursor := by
    show s.cursor.Valid (s.view.apply action).text
    rw [htext]
    exact h.cursor
  pinned := by
    intro line hline
    show line < lineCount (s.view.apply action).text
    rw [htext]
    exact h.pinned line (hpinned ▸ hline)

theorem OnLines.togglePin (h : s.OnLines) {line : Nat} (hline : line < s.view.lineCount) :
    (s.act (.togglePin line)).OnLines where
  cursor := h.cursor
  pinned := by
    intro other hother
    have hpin : (if s.view.pinned = some line then none else some line) = some other := hother
    split at hpin
    · cases hpin
    · cases hpin
      exact hline

/-- **Every command leaves the cursor and the pin on lines of the text.** -/
theorem onLines_update (h : s.OnLines) (reply : Reply) (layout : Layout) (command : Command) :
    (s.update reply layout command).OnLines := by
  cases command with
  | insert c => exact onLines_edit (Edit.valid_insert _ _ _)
  | paste text => exact onLines_edit (Edit.valid_insert _ _ _)
  | newline => exact onLines_edit (Edit.valid_insert _ _ _)
  | backspace => exact h.edit? fun _ => Edit.valid_backspace _ _
  | delete => exact h.edit? fun _ => Edit.valid_delete _ _
  | moveLeft => exact h.moveTo (Edit.valid_moveLeft _ _)
  | moveRight => exact h.moveTo (Edit.valid_moveRight _ _)
  | moveUp => exact h.moveTo (Edit.valid_moveUp _ _ _)
  | moveDown => exact h.moveTo (Edit.valid_moveDown _ _ _)
  | pageUp => exact h.moveTo (Edit.valid_moveUp _ _ _)
  | pageDown => exact h.moveTo (Edit.valid_moveDown _ _ _)
  | lineStart => exact h.moveTo (Edit.valid_lineStart h.cursor)
  | lineEnd => exact h.moveTo (Edit.valid_lineEnd _ _)
  | pinCursorLine => exact h.togglePin h.cursor.line
  | click row col =>
    rw [update]
    split
    · rename_i line hline
      exact h.togglePin (Layout.lt_of_lineAt hline)
    · exact h
  | cycleTheme => exact h.act rfl rfl
  | selectTheme theme => exact h.act rfl rfl
  | toggleLineNumbers => exact h.act rfl rfl
  | fontBigger => exact h.act rfl rfl
  | fontSmaller => exact h.act rfl rfl
  | resetFontSize => exact h.act rfl rfl
  | copy => exact h.act rfl rfl
  | download => exact h.act rfl rfl
  | exportHtml => exact h.act rfl rfl
  | dismissNotice => exact h.act rfl rfl
  | redraw => exact h
  | quit => exact h
  | ignore => exact h

/-- **Where a window starts after a scroll**: at a position above it, so as to end with a position below it, or where it
was. -/
theorem scrollAxis_cases (start size position : Nat) :
    position < start ∧ scrollAxis start size position = position ∨
    start + size ≤ position ∧ scrollAxis start size position = position + 1 - size ∨
    (start ≤ position ∧ position < start + size) ∧ scrollAxis start size position = start := by
  unfold scrollAxis
  split
  · exact Or.inl ⟨by assumption, rfl⟩
  · split
    · exact Or.inr (Or.inl ⟨by assumption, rfl⟩)
    · exact Or.inr (Or.inr ⟨⟨by omega, by omega⟩, rfl⟩)

theorem scrollAxis_le (start position : Nat) {size : Nat} (hsize : 0 < size) :
    scrollAxis start size position ≤ position := by
  have := scrollAxis_cases start size position
  omega

theorem lt_scrollAxis_add (start position : Nat) {size : Nat} (hsize : 0 < size) :
    position < scrollAxis start size position + size := by
  have := scrollAxis_cases start size position
  omega

/-- **The window shows the cursor** on a screen: its line among the rows of the panes and its display column among
those of the raw pane, of which a screen too small for any counts as having one. -/
structure InWindow (s : Session) (layout : Layout) : Prop where
  topLine : s.topLine ≤ s.cursor.line
  line : s.cursor.line < s.topLine + max layout.paneHeight 1
  leftCol : s.leftCol ≤ s.cursorCol
  col : s.cursorCol < s.leftCol + max layout.leftWidth 1

theorem inWindow_scroll (s : Session) (layout : Layout) : (s.scroll layout).InWindow layout where
  topLine := scrollAxis_le _ _ (by omega)
  line := lt_scrollAxis_add _ _ (by omega)
  leftCol := scrollAxis_le _ _ (by omega)
  col := lt_scrollAxis_add _ _ (by omega)

theorem scrollAxis_eq_self {start size position : Nat} (hstart : start ≤ position) (hstop : position < start + size) :
    scrollAxis start size position = start := by
  have := scrollAxis_cases start size position
  omega

/-- A window that shows the cursor stays where it is. -/
theorem scroll_of_inWindow {layout : Layout} (h : s.InWindow layout) : s.scroll layout = s := by
  unfold scroll
  rw [scrollAxis_eq_self h.topLine h.line, scrollAxis_eq_self h.leftCol h.col]

theorem handle_of_ne_quit (s : Session) (reply : Reply) (layout : Layout) {command : Command}
    (h : command ≠ .quit) : s.handle reply layout command = ((s.update reply layout command).scroll layout, true) := by
  cases command <;> first | rfl | exact absurd rfl h

/-- **Behind a command that the session goes on after, its window shows the cursor**, wherever it was before. -/
theorem inWindow_handle {s : Session} {reply : Reply} {layout : Layout} {command : Command}
    (hruns : (s.handle reply layout command).2 = true) : (s.handle reply layout command).1.InWindow layout := by
  have hquit : command ≠ .quit := by
    rintro rfl
    cases hruns
  rw [handle_of_ne_quit s reply layout hquit]
  exact inWindow_scroll _ layout

/-- **A command keeps a session in place**, whatever the size of the screen. -/
theorem inPlace_handle (h : s.InPlace) (reply : Reply) (layout : Layout) (command : Command) :
    (s.handle reply layout command).1.InPlace := by
  by_cases hquit : command = .quit
  · subst hquit
    exact h
  · rw [handle_of_ne_quit s reply layout hquit]
    have hlines := onLines_update h.toOnLines reply layout command
    exact ⟨⟨hlines.cursor, hlines.pinned⟩, (inWindow_scroll _ layout).topLine⟩

/-- A command changes the view and the cursor at most, and what was set before stays. -/
theorem update_eq (s : Session) (reply : Reply) (layout : Layout) (command : Command) :
    s.update reply layout command =
      { s with view := (s.update reply layout command).view, cursor := (s.update reply layout command).cursor } := by
  have hedit : ∀ edited,
      s.edit? edited = { s with view := (s.edit? edited).view, cursor := (s.edit? edited).cursor } := by
    intro edited
    cases edited <;> rfl
  cases command with
  | backspace => exact hedit _
  | delete => exact hedit _
  | click row col =>
    rw [update]
    split <;> rfl
  | _ => rfl

theorem handle_eq (s : Session) (reply : Reply) (layout : Layout) (command : Command) :
    let next := (s.handle reply layout command).1
    next = { s with view := next.view, cursor := next.cursor, topLine := next.topLine, leftCol := next.leftCol } := by
  intro next
  by_cases hquit : command = .quit
  · subst hquit
    rfl
  · have hnext : next = (s.update reply layout command).scroll layout :=
      congrArg Prod.fst (handle_of_ne_quit s reply layout hquit)
    have hupdate := update_eq s reply layout command
    generalize s.update reply layout command = updated at hnext hupdate
    rw [hnext, hupdate]
    rfl

theorem tabWidth_handle (s : Session) (reply : Reply) (layout : Layout) (command : Command) :
    (s.handle reply layout command).1.tabWidth = s.tabWidth := by
  rw [handle_eq]

theorem downloadDir_handle (s : Session) (reply : Reply) (layout : Layout) (command : Command) :
    (s.handle reply layout command).1.downloadDir = s.downloadDir := by
  rw [handle_eq]

/-! ## A run of commands -/

theorem inPlace_start (text : List Char) (config : Config) : (start text config).InPlace where
  cursor := ⟨lineCount_pos text, isCut_zero _⟩
  pinned := by
    intro line hline
    cases hline
  topLine := Nat.le_refl 0

/-- The window of a new session shows the cursor on every screen. -/
theorem inWindow_start (text : List Char) (config : Config) (layout : Layout) :
    (start text config).InWindow layout := by
  have hcol : (start text config).cursorCol = 0 := displayCol_append _ [] (lineAt text 0)
  refine ⟨Nat.le_refl 0, ?_, Nat.zero_le _, ?_⟩
  · show 0 < 0 + max _ 1
    omega
  · rw [hcol]
    show 0 < 0 + max _ 1
    omega

theorem inPlace_after : ∀ {s : Session}, s.InPlace → ∀ turns : List Turn, (s.after turns).InPlace
  | _, h, [] => h
  | _, h, t :: turns => inPlace_after (inPlace_handle h t.reply (Layout.compute t.cols t.rows) t.command) turns

/-- **Wherever a run of commands leads, the session is in place.**  Whatever the text and the settings, and whatever the
size of the screen at each command: clamping leaves the cursor alone, so its line exists and its column ends between
two characters of it; the window does not begin below it; and the pin names a line that exists. -/
theorem session_in_place (text : List Char) (config : Config) (turns : List Turn) :
    let s := (start text config).after turns
    s.cursor.clamp s.view.text = s.cursor ∧
    (s.cursor.line < s.view.lineCount ∧ IsCut (lineAt s.view.text s.cursor.line) s.cursor.col) ∧
    s.topLine ≤ s.cursor.line ∧
    ∀ line, s.view.pinned = some line → line < s.view.lineCount := by
  intro s
  have h : s.InPlace := inPlace_after (inPlace_start text config) turns
  exact ⟨Cursor.clamp_eq_self_iff.2 h.cursor, ⟨h.cursor.line, h.cursor.col⟩, h.topLine, h.pinned⟩

end Session
end JsxView
