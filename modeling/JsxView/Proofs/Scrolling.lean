import Mathlib.Data.Nat.Dist
import JsxView.Proofs.FrameChecked
import JsxView.Proofs.SessionInvariant
/-!
# Scrolling — the window moves as little as it can

Along each axis a window is given by where it starts and how much it shows, and a scroll takes it to a position.  Of all
the starts that show the position it takes the one nearest to the start before, and there is only one
(`isNearest_scrollAxis`).  This is so for every session, whatever its cursor and its window are, on its lines or not; so
one scroll settles the window, and a second one finds nothing to do (`Session.scroll_scroll`).

As in `FrameChecked`, `Session.scroll?` is the scroll as a machine computes it, with nothing coming out where a sum does
not fit into a word, a difference is below zero, or a remainder is by zero.
-/
namespace JsxView

/-- **The nearest of the numbers with a property to a given one**: it has the property, and every other number that has
it is further away. -/
structure IsNearest (P : Nat → Prop) (origin nearest : Nat) : Prop where
  holds : P nearest
  nearer : ∀ n, P n → n ≠ nearest → Nat.dist nearest origin < Nat.dist n origin

/-- A window of a given size that starts at `start` shows a position. -/
def Shows (size position start : Nat) : Prop :=
  start ≤ position ∧ position < start + size

/-- A number that a machine word with the given number of values can hold. -/
def word? (limit n : Nat) : Option Nat :=
  if n < limit then some n else none

theorem word?_eq {limit n : Nat} (h : n < limit) : word? limit n = some n :=
  if_pos h

namespace Session

/-- **Of all windows that show a position, a scroll takes the nearest.** -/
theorem isNearest_scrollAxis (start position : Nat) {size : Nat} (hsize : 0 < size) :
    IsNearest (Shows size position) start (scrollAxis start size position) where
  holds := ⟨scrollAxis_le start position hsize, lt_scrollAxis_add start position hsize⟩
  nearer := by
    rintro n ⟨hle, hlt⟩ hne
    have hcases := scrollAxis_cases start size position
    unfold Nat.dist
    omega

/-! ## In machine words -/

def scrollAxis? (limit start size position : Nat) : Option Nat := do
  if position < start then return position
  else if (← word? limit (start + size)) ≤ position then minus? (← word? limit (position + 1)) size
  else return start

/-- The columns before the cursor only add up, so all of their sums fit if the last one does. -/
def scroll? (limit : Nat) (s : Session) (layout : Layout) : Option Session := do
  let topLine ← scrollAxis? limit s.topLine (max layout.paneHeight 1) s.cursor.line
  let col ← word? limit (← displayCol? (lineAt s.view.text s.cursor.line) s.cursor.col s.tabWidth)
  let leftCol ← scrollAxis? limit s.leftCol (max layout.leftWidth 1) col
  return { s with topLine, leftCol }

theorem scrollAxis?_eq {limit start size position : Nat} (hstart : start + size < limit)
    (hposition : position + 1 < limit) :
    scrollAxis? limit start size position = some (scrollAxis start size position) := by
  unfold scrollAxis? scrollAxis
  split
  · rfl
  · rw [word?_eq hstart]
    show (if start + size ≤ position then _ else _) = _
    split
    · rename_i hbelow
      rw [word?_eq hposition]
      exact minus?_eq (by omega)
    · rfl

/-- **No sum of a scroll leaves the words and no difference is below zero**, where the end of the old window fits and
the cursor is not at the greatest word. -/
theorem scroll?_eq {limit : Nat} (s : Session) (layout : Layout)
    (htop : s.topLine + max layout.paneHeight 1 < limit) (hline : s.cursor.line + 1 < limit)
    (hleft : s.leftCol + max layout.leftWidth 1 < limit) (hcol : s.cursorCol + 1 < limit) :
    s.scroll? limit layout = some (s.scroll layout) := by
  have hfits : s.cursorCol < limit := by omega
  unfold scroll?
  rw [scrollAxis?_eq htop hline, displayCol?_eq]
  show (word? limit s.cursorCol).bind _ = _
  rw [word?_eq hfits]
  show (scrollAxis? _ _ _ _).bind _ = _
  rw [scrollAxis?_eq hleft hcol]
  rfl

/-! ## The window of a session -/

/-- A second scroll does nothing. -/
theorem scroll_scroll (s : Session) (layout : Layout) : (s.scroll layout).scroll layout = s.scroll layout :=
  scroll_of_inWindow (inWindow_scroll s layout)

/-- **A scroll is the smallest move that shows the cursor.**  Whatever the session, and wherever its cursor and its
window are: behind a scroll the line of the cursor is among the rows of the panes and its display column among those of
the raw pane, of which there counts as being one at least; among all windows of which this is true, the first line and
the first column are the ones nearest to those before; nothing else has changed, and a second scroll changes nothing.
In machine words no sum leaves the words and no difference is below zero, where the end of the old window fits and there
is a line and a column more than those of the cursor; words may be as long as one likes, so no difference is below zero
for any session at all. -/
theorem scroll_minimal (s : Session) (layout : Layout) :
    let d := displayCol (lineAt s.view.text s.cursor.line) s.cursor.col s.tabWidth
    let height := max layout.paneHeight 1
    let width := max layout.leftWidth 1
    let s' := s.scroll layout
    IsNearest (Shows height s.cursor.line) s.topLine s'.topLine ∧
    IsNearest (Shows width d) s.leftCol s'.leftCol ∧
    s' = { s with topLine := s'.topLine, leftCol := s'.leftCol } ∧
    s'.scroll layout = s' ∧
    ∀ limit, s.topLine + height < limit → s.cursor.line + 1 < limit → s.leftCol + width < limit → d + 1 < limit →
      s.scroll? limit layout = some s' :=
  ⟨isNearest_scrollAxis _ _ (by omega), isNearest_scrollAxis _ _ (by omega), rfl, scroll_scroll s layout,
    fun _ => scroll?_eq s layout⟩

/-- A window left far behind by an edit, with the cursor behind a tab in a line that is left, on a screen too small for
any pane. -/
def leftBehind : Session :=
  { start "日\tb\ncd".toList {} with cursor := ⟨0, 4⟩, topLine := 9, leftCol := 2 }

theorem scroll_minimal_left_behind :
    let layout := Layout.compute 3 2
    let height := max layout.paneHeight 1
    let width := max layout.leftWidth 1
    (leftBehind.topLine + height < 2 ^ 64 ∧ leftBehind.cursor.line + 1 < 2 ^ 64 ∧
      leftBehind.leftCol + width < 2 ^ 64 ∧ leftBehind.cursorCol + 1 < 2 ^ 64) ∧
    leftBehind.scroll? (2 ^ 64) layout = some { leftBehind with topLine := 0, leftCol := 4 } := by
  intro layout height width
  have hfits : leftBehind.topLine + height < 2 ^ 64 ∧ leftBehind.cursor.line + 1 < 2 ^ 64 ∧
      leftBehind.leftCol + width < 2 ^ 64 ∧ leftBehind.cursorCol + 1 < 2 ^ 64 := by decide +kernel
  have htop : (leftBehind.scroll layout).topLine = 0 := by decide +kernel
  have hleft : (leftBehind.scroll layout).leftCol = 4 := by decide +kernel
  obtain ⟨-, -, hsame, -, hwords⟩ := scroll_minimal leftBehind layout
  rw [htop, hleft] at hsame
  rw [hwords (2 ^ 64) hfits.1 hfits.2.1 hfits.2.2.1 hfits.2.2.2, hsame]
  exact ⟨hfits, rfl⟩

end Session
end JsxView
