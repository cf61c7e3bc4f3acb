import JsxView.Backtracking
import JsxView.Proofs.SessionInvariant
/-!
# Looks — what a text looks like and what is done to it

The theme, the font size with its range and the line numbers make the look of a view.  Some commands set the look
(`Command.setsLook`), and of a session they read nothing but its look and the font size that a reset goes back to
(`look_update`).  No other command reads the look or sets it (`update_withLook`).  So two commands of different kinds
may change places, as far as all but the window is concerned (`update_comm`).

The window follows the cursor behind every command, also behind one that sets the look.  There it stays where it is,
because a session is met on the screen that its last command was handled on (`Leads`), where the window shows the cursor
already.
-/
namespace JsxView

/-- What a text looks like. -/
structure Look where
  theme : Theme
  fontSize : UInt16
  fontRange : FontRange
  lineNumbers : Bool

namespace View

def look (view : View) : Look :=
  ⟨view.theme, view.fontSize, view.fontRange, view.lineNumbers⟩

def withLook (view : View) (look : Look) : View :=
  { view with
    theme := look.theme
    fontSize := look.fontSize
    fontRange := look.fontRange
    lineNumbers := look.lineNumbers }

end View

/-- The commands that set what the text looks like. -/
def Command.setsLook : Command → Bool
  | .cycleTheme | .selectTheme _ | .toggleLineNumbers | .fontBigger | .fontSmaller | .resetFontSize => true
  | _ => false

namespace Session

def look (s : Session) : Look :=
  s.view.look

def withLook (s : Session) (look : Look) : Session :=
  { s with view := s.view.withLook look }

variable {s t : Session} {layout : Layout} {setting command : Command}

/-! ## Commands of either kind -/

/-- A command that sets the look sets nothing else. -/
theorem update_of_setsLook (s : Session) (reply : Reply) (layout : Layout) (hset : setting.setsLook) :
    s.update reply layout setting = s.withLook (s.update reply layout setting).look := by
  cases setting with
  | cycleTheme | selectTheme | toggleLineNumbers | fontBigger | fontSmaller | resetFontSize => rfl
  | _ => cases hset

/-- A command that sets the look goes by the look alone, and by the font size to go back to. -/
theorem look_update (hlook : s.look = t.look) (hsize : s.defaultFontSize = t.defaultFontSize) (reply : Reply)
    (layout : Layout) (hset : setting.setsLook) :
    (s.update reply layout setting).look = (t.update reply layout setting).look := by
  obtain ⟨htheme, hfont, hrange, hnumbers⟩ := Look.mk.inj hlook
  cases setting with
  | cycleTheme | selectTheme | toggleLineNumbers | fontBigger | fontSmaller | resetFontSize =>
    simp only [update, act, View.apply, look, View.look, htheme, hfont, hrange, hnumbers, hsize]
  | _ => cases hset

/-- **A command that does not set the look does the same whatever the look is**, and leaves it alone. -/
theorem update_withLook (s : Session) (look : Look) (reply : Reply) (layout : Layout) (hother : ¬ command.setsLook) :
    (s.withLook look).update reply layout command = (s.update reply layout command).withLook look := by
  cases command with
  | cycleTheme | selectTheme | toggleLineNumbers | fontBigger | fontSmaller | resetFontSize => exact absurd rfl hother
  | backspace =>
    show (s.withLook look).edit? (Edit.backspace s.view.text s.cursor) = _
    rw [update]
    cases Edit.backspace s.view.text s.cursor <;> rfl
  | delete =>
    show (s.withLook look).edit? (Edit.delete s.view.text s.cursor) = _
    rw [update]
    cases Edit.delete s.view.text s.cursor <;> rfl
  | click row col =>
    have hline : layout.lineAt row col (s.withLook look).topLine (s.withLook look).view.lineCount =
        layout.lineAt row col s.topLine s.view.lineCount := rfl
    rw [update, update, hline]
    cases layout.lineAt row col s.topLine s.view.lineCount <;> rfl
  | _ => rfl

theorem look_update_of_not_setsLook (s : Session) (reply : Reply) (layout : Layout) (hother : ¬ command.setsLook) :
    (s.update reply layout command).look = s.look := by
  show ((s.withLook s.look).update reply layout command).look = s.look
  rw [update_withLook s s.look reply layout hother]
  rfl

theorem defaultFontSize_update (s : Session) (reply : Reply) (layout : Layout) (command : Command) :
    (s.update reply layout command).defaultFontSize = s.defaultFontSize := by
  rw [update_eq]

/-- **A command that sets the look changes places with one that does not**, before the window follows. -/
theorem update_comm (s : Session) (reply reply' : Reply) (layout : Layout) (hset : setting.setsLook)
    (hother : ¬ command.setsLook) :
    (s.update reply layout setting).update reply' layout command =
      (s.update reply' layout command).update reply layout setting := by
  have hlook : (s.update reply layout setting).look =
      ((s.update reply' layout command).update reply layout setting).look :=
    look_update (look_update_of_not_setsLook s reply' layout hother).symm
      (defaultFontSize_update s reply' layout command).symm reply layout hset
  calc (s.update reply layout setting).update reply' layout command
      = (s.withLook (s.update reply layout setting).look).update reply' layout command :=
        congrArg (update · reply' layout command) (update_of_setsLook s reply layout hset)
    _ = (s.update reply' layout command).withLook (s.update reply layout setting).look :=
        update_withLook s _ reply' layout hother
    _ = (s.update reply' layout command).withLook
          ((s.update reply' layout command).update reply layout setting).look := by rw [hlook]
    _ = (s.update reply' layout command).update reply layout setting :=
        (update_of_setsLook _ reply layout hset).symm

/-! ## The window -/

theorem scroll_withLook (s : Session) (look : Look) (layout : Layout) :
    (s.withLook look).scroll layout = (s.scroll layout).withLook look := rfl

/-- A command that sets the look leaves a window that shows the cursor where it is. -/
theorem handle_of_setsLook (h : s.InWindow layout) (reply : Reply) (hset : setting.setsLook) :
    s.handle reply layout setting = (s.update reply layout setting, true) := by
  have hquit : setting ≠ .quit := by
    rintro rfl
    cases hset
  rw [handle_of_ne_quit s reply layout hquit, update_of_setsLook s reply layout hset, scroll_withLook,
    scroll_of_inWindow h]

/-- The look may be set before the window follows the cursor or behind it. -/
theorem update_scroll (s : Session) (reply : Reply) (layout : Layout) (hset : setting.setsLook) :
    (s.scroll layout).update reply layout setting = (s.update reply layout setting).scroll layout := by
  have hlook : ((s.scroll layout).update reply layout setting).look = (s.update reply layout setting).look :=
    look_update (s := s.scroll layout) (t := s) rfl rfl reply layout hset
  rw [update_of_setsLook _ reply layout hset, hlook, ← scroll_withLook, ← update_of_setsLook s reply layout hset]

/-- **The sessions that a session leads to, each with the layouts it is met with**: the first one with any, and every
other one with that of its last command, which it went on behind. -/
inductive Leads (first : Session) : Session → Layout → Prop
  | start (layout : Layout) : Leads first first layout
  | command {s : Session} {before : Layout} (reply : Reply) (layout : Layout) (command : Command)
      (h : Leads first s before) (hruns : (s.handle reply layout command).2 = true) :
      Leads first (s.handle reply layout command).1 layout

/-- A session is met with a window that shows the cursor. -/
theorem inWindow_of_leads {text : List Char} {config : Config} (h : Leads (start text config) s layout) :
    s.InWindow layout := by
  cases h with
  | start => exact inWindow_start text config layout
  | command _ _ _ _ hruns => exact inWindow_handle hruns

/-- **What a text looks like and what is done to it do not depend on each other.**  Wherever a run of commands leads, on
the screen of its last command: a command that sets the look and one that does not, be it an edit, a move of the cursor,
a pin, a click or a request, leave the same session in either order, with the same window, and the session goes on.  The
one requests nothing, and the other requests the same before and behind it, so that it gets the same reply; only the
page that is exported shows the look. -/
theorem look_commutes [Engine] (text : List Char) (config : Config) (hleads : Leads (start text config) s layout)
    (reply : Reply) (hset : setting.setsLook) (hother : ¬ command.setsLook) (hquit : command ≠ .quit) :
    let first := (s.handle none layout setting).1
    let other := (s.handle reply layout command).1
    first.handle reply layout command = other.handle none layout setting ∧
    (other.handle none layout setting).2 = true ∧
    (s.request setting = none ∧ other.request setting = none) ∧
    (command ≠ .exportHtml → first.request command = s.request command) := by
  intro first other
  have hwindow := inWindow_of_leads hleads
  have hfirst : first = s.update none layout setting := congrArg Prod.fst (handle_of_setsLook hwindow none hset)
  have hscrolled : other = (s.update reply layout command).scroll layout :=
    congrArg Prod.fst (handle_of_ne_quit s reply layout hquit)
  have hlast : other.handle none layout setting = (other.update none layout setting, true) :=
    handle_of_setsLook (hscrolled ▸ inWindow_scroll _ layout) none hset
  have hrequest : ∀ t : Session, t.request setting = none := by
    intro t
    cases setting with
    | cycleTheme | selectTheme | toggleLineNumbers | fontBigger | fontSmaller | resetFontSize => rfl
    | _ => cases hset
  refine ⟨?_, ?_, ⟨hrequest s, hrequest other⟩, ?_⟩
  · rw [hlast, hscrolled, update_scroll _ none layout hset, handle_of_ne_quit first reply layout hquit, hfirst,
      update_comm s none reply layout hset hother]
  · rw [hlast]
  · intro hexport
    rw [hfirst, update_of_setsLook s none layout hset]
    cases command with
    | exportHtml => exact absurd rfl hexport
    | _ => rfl

/-- The line numbers taken away before and behind a paste that moves the window down and back to the left. -/
theorem look_commutes_scrolled :
    let layout := Layout.compute 9 4
    let s := ((start "const a\nb".toList {}).handle none layout .lineEnd).1
    let paste := Command.paste "x\r\ny".toList
    let pasted := (s.handle none layout paste).1
    (Leads (start "const a\nb".toList {}) s layout ∧ Command.toggleLineNumbers.setsLook ∧ ¬ paste.setsLook ∧
      paste ≠ .quit) ∧
    (s.handle none layout .toggleLineNumbers).1.handle none layout paste =
      pasted.handle none layout .toggleLineNumbers ∧
    (s.topLine = 0 ∧ s.leftCol = 4) ∧ pasted.topLine = 1 ∧ pasted.leftCol = 1 := by
  intro layout s paste pasted
  have hleads : Leads (start "const a\nb".toList {}) s layout := .command none layout .lineEnd (.start layout) rfl
  have hsetting : Command.toggleLineNumbers.setsLook := rfl
  have hpaste : ¬ paste.setsLook := Bool.false_ne_true
  let := Engine.backtracking
  have hapart := look_commutes _ _ hleads none hsetting hpaste nofun
  exact ⟨⟨hleads, hsetting, hpaste, nofun⟩, hapart.1, by decide +kernel, by decide +kernel⟩

end Session
end JsxView
