import JsxView.Proofs.InertFrame
import JsxView.Proofs.TokenOrder
import Mathlib.Data.List.Basic
/-!
# ShownWindow — what of a line shows in a window of columns

Drawing a line goes through its cells once, counts the columns and stops at the first cell that has no room.  What it
leaves is said here cell by cell, without counting: a cell shows if it ends behind the left edge and not behind the
right one, and of a cell that begins before the left edge the columns in the window show as spaces (`Cell.shown`).  The
two agree because columns only grow: the cells that have room are those of a beginning of the line, the longest one
whose columns stay within the right edge (`exists_fitting`, `Fitting.window_eq`).  So the columns used are what the
greatest such beginning has behind the left edge (`runs_show_window`).

Which style a character has is decided in the same pass by a place in the list of spans that only moves on.  For spans
that are sorted and disjoint that is the span that covers the first byte of the character (`styleAt_eq_styleOver`).
-/
namespace JsxView

/-- **What shows of a cell** between the columns `skip` and `limit`: nothing where it ends before the first or behind
the second, spaces for the rest of it where it begins before the first, and else its text. -/
def Cell.shown (skip limit : Nat) (cell : Cell) : List Char :=
  if cell.col + cell.width ≤ skip ∨ limit < cell.col + cell.width then []
  else if cell.col < skip then spaces (cell.col + cell.width - skip)
  else cell.text

/-- The style of the span that covers a byte, on the background of the base style, and the base style if none does. -/
def styleOver (spans : List Span) (base : Style) (byte : Nat) : Style :=
  match spans.find? (·.contains byte) with
  | some span => span.category.style.withBg base.bg
  | none => base

/-- The characters of runs, each with its style. -/
def runsInk (runs : List Run) : List (Char × Style) :=
  runs.flatMap fun run => run.text.map (·, run.style)

/-- **The greatest display width** that a beginning of a line has within a limit. -/
structure GreatestWidth (tabWidth limit : Nat) (line : List Char) (width : Nat) : Prop where
  le : width ≤ limit
  attained : ∃ p, p <+: line ∧ displayCol p (byteSize p) tabWidth = width
  greatest : ∀ p, p <+: line → displayCol p (byteSize p) tabWidth ≤ limit → displayCol p (byteSize p) tabWidth ≤ width

/-! ## Columns only grow -/

theorem displayCol_byteSize {tabWidth : Nat} (htab : 0 < tabWidth) (p : List Char) :
    displayCol p (byteSize p) tabWidth = cellsWidth (cellsOf tabWidth p) := by
  have h := displayCol_append tabWidth p []
  rwa [List.append_nil, Nat.max_eq_left htab] at h

section

variable {tabWidth skip limit : Nat}

theorem cellsWidth_concat (p : List Char) (c : Char) : cellsWidth (cellsOf tabWidth (p ++ [c])) =
    cellsWidth (cellsOf tabWidth p) + (cellText tabWidth (cellsWidth (cellsOf tabWidth p)) c).2 := by
  rw [cellsOf_append, cellsWidth_append, cellsFrom_cons, cellsWidth_cons, cellsFrom, cellsWidth_nil, Nat.add_zero]

theorem cellsWidth_le_append (p q : List Char) :
    cellsWidth (cellsOf tabWidth p) ≤ cellsWidth (cellsOf tabWidth (p ++ q)) := by
  rw [cellsOf_append, cellsWidth_append]
  exact Nat.le_add_right _ _

/-! ## The beginning of a line that has room -/

/-- **A beginning of a line within a limit** with the rest of the line, whose first character has no room there. -/
structure Fitting (tabWidth limit : Nat) (p r : List Char) : Prop where
  fits : cellsWidth (cellsOf tabWidth p) ≤ limit
  full : ∀ c s, r = c :: s → limit < cellsWidth (cellsOf tabWidth (p ++ [c]))

theorem exists_fitting_append : ∀ {p r : List Char}, cellsWidth (cellsOf tabWidth p) ≤ limit →
    ∃ p' r', p ++ r = p' ++ r' ∧ Fitting tabWidth limit p' r'
  | p, [], h => ⟨p, [], rfl, h, fun _ _ hr => by cases hr⟩
  | p, c :: r, h => by
    by_cases hfits : cellsWidth (cellsOf tabWidth (p ++ [c])) ≤ limit
    · obtain ⟨p', r', heq, hfitting⟩ := exists_fitting_append (r := r) hfits
      exact ⟨p', r', by rw [← heq, List.append_cons], hfitting⟩
    · refine ⟨p, c :: r, rfl, h, fun d s hr => ?_⟩
      obtain ⟨rfl, rfl⟩ := List.cons.inj hr
      exact Nat.lt_of_not_le hfits

theorem exists_fitting (tabWidth limit : Nat) (line : List Char) :
    ∃ p r, line = p ++ r ∧ Fitting tabWidth limit p r :=
  exists_fitting_append (p := []) (Nat.zero_le limit)

namespace Fitting

variable {p r : List Char}

/-- **The beginning that has room is the longest one within the limit.** -/
theorem prefix_of_le (h : Fitting tabWidth limit p r) {q : List Char} (hq : q <+: p ++ r)
    (hle : cellsWidth (cellsOf tabWidth q) ≤ limit) : q <+: p := by
  obtain ⟨t, ht⟩ := hq
  rcases List.append_eq_append_iff.1 ht with ⟨w, rfl, -⟩ | ⟨w, rfl, hr⟩
  · exact List.prefix_append q w
  · cases w with
    | nil => simp
    | cons c w =>
      have hfull := h.full c (w ++ t) hr
      have hmono : cellsWidth (cellsOf tabWidth (p ++ [c])) ≤ cellsWidth (cellsOf tabWidth (p ++ [c] ++ w)) :=
        cellsWidth_le_append _ _
      rw [← List.append_cons] at hmono
      omega

theorem greatestWidth (h : Fitting tabWidth limit p r) (htab : 0 < tabWidth) :
    GreatestWidth tabWidth limit (p ++ r) (cellsWidth (cellsOf tabWidth p)) where
  le := h.fits
  attained := ⟨p, List.prefix_append p r, displayCol_byteSize htab p⟩
  greatest := by
    intro q hq hle
    rw [displayCol_byteSize htab] at hle ⊢
    obtain ⟨w, rfl⟩ := h.prefix_of_le hq hle
    exact cellsWidth_le_append q w

theorem lt_stop (h : Fitting tabWidth limit p r) :
    ∀ cell ∈ cellsFrom tabWidth (byteSize p) (cellsWidth (cellsOf tabWidth p)) r, limit < cell.col + cell.width := by
  cases r with
  | nil => exact fun _ h => by cases h
  | cons c s =>
    intro cell hcell
    have hfull := h.full c s rfl
    rw [cellsWidth_concat] at hfull
    rw [cellsFrom_cons] at hcell
    rcases List.mem_cons.1 hcell with rfl | hcell
    · exact hfull
    · have := stop_of_mem_cellsFrom hcell
      omega

/-- **What shows in a window are the cells of the beginning that has room**, less what is left of the window. -/
theorem window_eq {room : Nat} (h : Fitting tabWidth (skip + room) p r) :
    window skip room (cellsOf tabWidth (p ++ r)) = (cellsOf tabWidth p).filterMap (Cell.clipLeft skip) := by
  have hwidth := cellsWidth_clipped_cellsOf skip tabWidth p
  have hfits := h.fits
  rw [window, cellsOf_append, List.filterMap_append, takeColumns_append _ (by omega), hwidth]
  -- the first cell of the rest shows in part at least, and has no room
  cases r with
  | nil => rw [cellsFrom, List.filterMap_nil, takeColumns, List.append_nil]
  | cons c s =>
    have hstop := h.lt_stop
    rw [cellsFrom_cons] at hstop ⊢
    have hfirst := hstop _ List.mem_cons_self
    obtain ⟨clipped, hclip, hcols⟩ := Cell.exists_clipLeft _ (Nat.lt_of_le_of_lt (Nat.le_add_right skip room) hfirst)
    dsimp only at hfirst hcols
    rw [List.filterMap_cons_some hclip, takeColumns, if_neg (by omega), List.append_nil]

end Fitting

/-- What shows of a cell that ends within the limit is what is left of it behind the left edge. -/
theorem flatMap_clipLeft {cell : Cell} (h : cell.col + cell.width ≤ limit) (style : Nat → Style) :
    (cell.clipLeft skip).toList.flatMap (fun clipped => clipped.text.map (·, style clipped.byte)) =
      (cell.shown skip limit).map (·, style cell.byte) := by
  simp only [Cell.clipLeft, Cell.shown]
  by_cases hgone : cell.col + cell.width ≤ skip
  · simp [hgone]
  · by_cases hcut : cell.col < skip
    · simp [hgone, hcut, Nat.not_lt.2 h]
    · simp [hgone, hcut, Nat.not_lt.2 h]

/-- **What is drawn in a window, cell by cell.** -/
theorem flatMap_window (skip room tabWidth : Nat) (line : List Char) (style : Nat → Style) :
    (window skip room (cellsOf tabWidth line)).flatMap (fun cell => cell.text.map (·, style cell.byte)) =
      (cellsOf tabWidth line).flatMap fun cell => (cell.shown skip (skip + room)).map (·, style cell.byte) := by
  obtain ⟨p, r, rfl, hfitting⟩ := exists_fitting tabWidth (skip + room) line
  have hrest : (cellsFrom tabWidth (byteSize p) (cellsWidth (cellsOf tabWidth p)) r).flatMap
      (fun cell => (cell.shown skip (skip + room)).map (·, style cell.byte)) = [] := by
    rw [List.flatMap_eq_nil_iff]
    intro cell hcell
    rw [Cell.shown, if_pos (.inr (hfitting.lt_stop cell hcell)), List.map_nil]
  rw [hfitting.window_eq, cellsOf_append, List.flatMap_append, hrest, List.append_nil, List.filterMap_eq_flatMap_toList,
    List.flatMap_assoc]
  refine List.flatMap_congr fun cell hcell => flatMap_clipLeft ?_ style
  have hstop := (stop_of_mem_cellsFrom hcell).2
  rw [Nat.zero_add] at hstop
  exact Nat.le_trans hstop hfitting.fits

end

/-! ## Runs and styles -/

theorem runsInk_cons (run : Run) (more : List Run) :
    runsInk (run :: more) = run.text.map (·, run.style) ++ runsInk more := rfl

/-- **Joining neighbours of one style leaves every character in its style.** -/
theorem runsInk_joinRuns : ∀ pieces : List (List Char × Style),
    runsInk (joinRuns pieces) = pieces.flatMap fun piece => piece.1.map (·, piece.2)
  | [] => rfl
  | (text, style) :: rest => by
    rw [joinRuns, List.flatMap_cons, ← runsInk_joinRuns rest]
    cases joinRuns rest with
    | nil => rfl
    | cons run more =>
      dsimp only
      split
      · rename_i hsame
        simp [runsInk_cons, hsame]
      · rfl

theorem map_fst_runsInk (runs : List Run) : (runsInk runs).map Prod.fst = runsText runs := by
  simp [runsInk, runsText, List.map_flatMap, Function.comp_def]

/-- **Neighbouring runs differ in style.** -/
theorem isChain_joinRuns : ∀ pieces : List (List Char × Style),
    (joinRuns pieces).IsChain fun a b => a.style ≠ b.style
  | [] => .nil
  | (text, style) :: rest => by
    have ih := isChain_joinRuns rest
    rw [joinRuns]
    generalize joinRuns rest = runs at ih
    cases runs with
    | nil => exact .singleton _
    | cons run more =>
      dsimp only
      split
      · rename_i hsame
        cases more with
        | nil => exact .singleton _
        | cons next more =>
          rw [List.isChain_cons_cons] at ih ⊢
          exact ⟨hsame ▸ ih.1, ih.2⟩
      · rename_i hother
        exact .cons_cons (Ne.symm hother) ih

theorem styleOver_cons (span : Span) (rest : List Span) (base : Style) (byte : Nat) : styleOver (span :: rest) base byte =
    if span.contains byte then span.category.style.withBg base.bg else styleOver rest base byte := by
  rw [styleOver, List.find?_cons]
  cases span.contains byte <;> rfl

theorem styleOver_of_not_contains {spans : List Span} {base : Style} {byte : Nat}
    (h : ∀ span ∈ spans, span.contains byte = false) : styleOver spans base byte = base := by
  rw [styleOver, List.find?_eq_none.2 (by simpa using h)]

/-- **A pass through sorted and disjoint spans finds the one that covers a byte.** -/
theorem styleAt_eq_styleOver (base : Style) (byte : Nat) : ∀ {spans : List Span},
    spans.Pairwise (fun a b => a.stop ≤ b.start) → styleAt spans base byte = styleOver spans base byte
  | [], _ => rfl
  | first :: rest, h => by
    obtain ⟨hfirst, hrest⟩ := List.pairwise_cons.1 h
    by_cases hended : first.stop ≤ byte
    · have hnot : first.contains byte = false := by simp [Span.contains, hended]
      rw [styleAt_cons_of_le hended, styleOver_cons, hnot, styleAt_eq_styleOver base byte hrest]
      rfl
    · -- the later spans begin where this one ends, which is behind the byte
      have hlater : ∀ span ∈ rest, span.contains byte = false := by
        intro span hspan
        have := hfirst span hspan
        have hbyte : byte < span.start := by omega
        simp [Span.contains, Nat.not_le.2 hbyte]
      rw [styleAt_cons_of_lt (Nat.lt_of_not_le hended), styleOver_cons, styleOver_of_not_contains hlater]

section

variable (line : List Char) (spans : List Span) (base : Style) (skip room tabWidth : Nat)

theorem runsInk_styledRuns : runsInk (styledRuns line spans base skip room tabWidth).1 =
    (cellsOf tabWidth line).flatMap fun cell =>
      (cell.shown skip (skip + room)).map (·, styleAt spans base cell.byte) := by
  rw [← flatMap_window skip room tabWidth line (styleAt spans base)]
  show runsInk (joinRuns _) = _
  rw [runsInk_joinRuns, List.flatMap_map]

theorem runsText_styledRuns_shown : runsText (styledRuns line spans base skip room tabWidth).1 =
    (cellsOf tabWidth line).flatMap (Cell.shown skip (skip + room)) := by
  rw [← map_fst_runsInk, runsInk_styledRuns]
  simp [List.map_flatMap, Function.comp_def]

theorem exists_greatestWidth (htab : 0 < tabWidth) : ∃ width,
    GreatestWidth tabWidth (skip + room) line width ∧
      (styledRuns line spans base skip room tabWidth).2 = width - skip := by
  obtain ⟨p, r, rfl, hfitting⟩ := exists_fitting tabWidth (skip + room) line
  refine ⟨_, hfitting.greatestWidth htab, ?_⟩
  show cellsWidth (window skip room (cellsOf tabWidth (p ++ r))) = _
  rw [hfitting.window_eq, cellsWidth_clipped_cellsOf]

/-- **The runs of a line show exactly its columns from `skip` on, `room` of them at most.**  The columns used are those
that the greatest beginning of the line within the right edge has behind the left one, and they are the columns of the
text drawn, which holds no control character.  The text is drawn cell by cell, as spaces where the left edge cuts a
cell, each character of it in the style of the span that covers the first byte of its cell, and neighbouring runs
differ in style.  Other spans and another base change neither the text nor the columns. -/
theorem runs_show_window (htab : 0 < tabWidth) (hspans : spans.Pairwise fun a b => a.stop ≤ b.start) :
    let shown := styledRuns line spans base skip room tabWidth
    (∃ width, GreatestWidth tabWidth (skip + room) line width ∧
      shown.2 = if skip < width then width - skip else 0) ∧
    textWidth (runsText shown.1) = shown.2 ∧
    ControlFree (runsText shown.1) ∧
    (runsInk shown.1 = (cellsOf tabWidth line).flatMap fun cell =>
      (cell.shown skip (skip + room)).map (·, styleOver spans base cell.byte)) ∧
    (shown.1.IsChain fun a b => a.style ≠ b.style) ∧
    ∀ (spans' : List Span) (base' : Style),
      runsText (styledRuns line spans' base' skip room tabWidth).1 = runsText shown.1 ∧
      (styledRuns line spans' base' skip room tabWidth).2 = shown.2 := by
  intro shown
  refine ⟨?_, textWidth_styledRuns line spans base skip room tabWidth, ?_, ?_, isChain_joinRuns _, fun spans' base' => ?_⟩
  · obtain ⟨width, hgreatest, hused⟩ := exists_greatestWidth line spans base skip room tabWidth htab
    refine ⟨width, hgreatest, hused.trans ?_⟩
    split <;> omega
  · intro c hc
    obtain ⟨run, hrun, hc⟩ := List.mem_flatMap.1 hc
    exact controlFree_styledRuns line spans base skip room tabWidth run hrun c hc
  · rw [runsInk_styledRuns]
    simp only [styleAt_eq_styleOver base _ hspans]
  · refine ⟨?_, rfl⟩
    rw [runsText_styledRuns_shown, runsText_styledRuns_shown]

/-- A tab cut by the left edge, a combining mark, and a wide character that the right edge leaves out. -/
theorem runs_show_window_cut :
    (0 < 4 ∧ [⟨1, 2, .keyword⟩, ⟨2, 4, .quoted⟩].Pairwise fun a b : Span => a.stop ≤ b.start) ∧
    runsInk (styledRuns "\ta\u0301日".toList [⟨1, 2, .keyword⟩, ⟨2, 4, .quoted⟩] {} 3 3 4).1 =
      [(' ', {}), ('a', Category.keyword.style), ('\u0301', Category.quoted.style)] := by
  have hspans : [⟨1, 2, .keyword⟩, ⟨2, 4, .quoted⟩].Pairwise fun a b : Span => a.stop ≤ b.start := by decide
  have h := runs_show_window "\ta\u0301日".toList _ {} 3 3 4 (by decide) hspans
  exact ⟨⟨by decide, hspans⟩, h.2.2.2.1.trans (by decide +kernel)⟩

end

end JsxView
