import JsxView.Cells
import JsxView.Proofs.Bytes
/-!
# CellColumns — the columns that text takes

What a cell shows takes the columns that the cell counts, whichever character it stands for and however its left part
is cut off, so the columns that are counted for a line are those of the text that is drawn for it
(`textWidth_styledRuns`), and there are no more of them than there is room (`styledRuns_le`).  The cells of a line
follow each other without a gap.  Behind the first `skip` columns the cells of a beginning of the line take the rest of
its columns (`cellsWidth_clipped`), and where they have room they are drawn whatever stands behind them
(`styledRuns_append`).
-/
namespace JsxView

/-! ## Widths of texts -/

@[simp] theorem textWidth_nil : textWidth [] = 0 := rfl

theorem textWidth_cons (c : Char) (rest : List Char) : textWidth (c :: rest) = charWidth c + textWidth rest := rfl

@[simp] theorem textWidth_append (a b : List Char) : textWidth (a ++ b) = textWidth a + textWidth b := by
  induction a with
  | nil => simp
  | cons c a ih => rw [List.cons_append, textWidth_cons, textWidth_cons, ih, Nat.add_assoc]

@[simp] theorem textWidth_spaces (n : Nat) : textWidth (spaces n) = n := by
  induction n with
  | zero => rfl
  | succ n ih =>
    have hspace : charWidth ' ' = 1 := rfl
    have hcons : spaces (n + 1) = ' ' :: spaces n := rfl
    rw [hcons, textWidth_cons, ih, hspace, Nat.add_comm]

theorem textWidth_takeWidth_le : ∀ (room : Nat) (text : List Char), textWidth (takeWidth room text) ≤ room
  | _, [] => Nat.zero_le _
  | room, c :: rest => by
    rw [takeWidth]
    split
    · have := textWidth_takeWidth_le (room - charWidth c) rest
      rw [textWidth_cons]
      omega
    · exact Nat.zero_le _

/-- **A fitted text has the width it was fitted to.** -/
theorem textWidth_fitToWidth (text : List Char) (width : Nat) : textWidth (fitToWidth text width) = width := by
  have := textWidth_takeWidth_le width text
  rw [fitToWidth, textWidth_append, textWidth_spaces]
  omega

/-! ## Widths of cells -/

@[simp] theorem cellsWidth_nil : cellsWidth [] = 0 := rfl

@[simp] theorem cellsWidth_cons (cell : Cell) (rest : List Cell) :
    cellsWidth (cell :: rest) = cell.width + cellsWidth rest := rfl

theorem cellsWidth_append (a b : List Cell) : cellsWidth (a ++ b) = cellsWidth a + cellsWidth b := by
  induction a with
  | nil => simp
  | cons cell a ih => simp [ih, Nat.add_assoc]

theorem cellsFrom_cons (tabWidth byte col : Nat) (c : Char) (rest : List Char) :
    cellsFrom tabWidth byte col (c :: rest) =
      ⟨byte, col, (cellText tabWidth col c).1, (cellText tabWidth col c).2⟩ ::
        cellsFrom tabWidth (byte + c.utf8Size) (col + (cellText tabWidth col c).2) rest := rfl

theorem cellsFrom_append (tabWidth : Nat) (x y : List Char) : ∀ byte col : Nat,
    cellsFrom tabWidth byte col (x ++ y) = cellsFrom tabWidth byte col x ++
      cellsFrom tabWidth (byte + byteSize x) (col + cellsWidth (cellsFrom tabWidth byte col x)) y := by
  induction x with
  | nil => exact fun _ _ => rfl
  | cons c x ih =>
    intro byte col
    rw [List.cons_append, cellsFrom_cons, cellsFrom_cons, ih, cellsWidth_cons, byteSize_cons]
    simp only [List.cons_append, Nat.add_assoc]

/-- **A cell is laid out for one character**, behind the bytes and the columns of the text before it. -/
theorem exists_of_mem_cellsFrom {tabWidth : Nat} {cell : Cell} : ∀ {line : List Char} {byte col : Nat},
    cell ∈ cellsFrom tabWidth byte col line → ∃ x c y, line = x ++ c :: y ∧ cell.byte = byte + byteSize x ∧
      cell.col = col + cellsWidth (cellsFrom tabWidth byte col x) ∧
      cell.text = (cellText tabWidth cell.col c).1 ∧ cell.width = (cellText tabWidth cell.col c).2
  | [], _, _, h => by cases h
  | c :: rest, byte, col, h => by
    rw [cellsFrom_cons] at h
    rcases List.mem_cons.1 h with rfl | h
    · exact ⟨[], c, rest, rfl, rfl, rfl, rfl, rfl⟩
    · obtain ⟨x, d, y, rfl, hbyte, hcol, hshown⟩ := exists_of_mem_cellsFrom h
      refine ⟨c :: x, d, y, rfl, ?_, ?_, hshown⟩
      · rw [hbyte, byteSize_cons, Nat.add_assoc]
      · rw [hcol, cellsFrom_cons, cellsWidth_cons, Nat.add_assoc]

theorem stop_of_mem_cellsFrom {tabWidth byte col : Nat} {line : List Char} {cell : Cell}
    (h : cell ∈ cellsFrom tabWidth byte col line) :
    col ≤ cell.col ∧ cell.col + cell.width ≤ col + cellsWidth (cellsFrom tabWidth byte col line) := by
  obtain ⟨x, c, y, rfl, -, hcol, -, hwidth⟩ := exists_of_mem_cellsFrom h
  rw [cellsFrom_append, cellsWidth_append, cellsFrom_cons, cellsWidth_cons, ← hcol, hwidth]
  dsimp only
  omega

theorem textWidth_cellText (tabWidth col : Nat) (c : Char) :
    textWidth (cellText tabWidth col c).1 = (cellText tabWidth col c).2 := by
  unfold cellText
  split
  · exact textWidth_spaces _
  · split
    · rfl
    · split
      · rfl
      · rfl

/-- A cell whose text takes the columns it counts. -/
def Cell.Exact (cell : Cell) : Prop :=
  textWidth cell.text = cell.width

theorem exact_of_mem_cellsFrom {tabWidth byte col : Nat} {line : List Char} {cell : Cell}
    (h : cell ∈ cellsFrom tabWidth byte col line) : cell.Exact := by
  obtain ⟨-, c, -, -, -, -, htext, hwidth⟩ := exists_of_mem_cellsFrom h
  rw [Cell.Exact, htext, hwidth, textWidth_cellText]

/-- What is left of a cell is the cell, or spaces for some of its columns. -/
theorem Cell.clipLeft_cases {cell clipped : Cell} {skip : Nat} (h : cell.clipLeft skip = some clipped) :
    clipped = cell ∨ ∃ n, clipped.text = spaces n ∧ clipped.width = n := by
  simp only [Cell.clipLeft] at h
  split at h
  · cases h
  · split at h
    · cases h
      exact .inr ⟨_, rfl, rfl⟩
    · cases h
      exact .inl rfl

theorem Cell.exists_clipLeft (cell : Cell) {skip : Nat} (h : skip < cell.col + cell.width) :
    ∃ clipped, cell.clipLeft skip = some clipped ∧ clipped.width = cell.col + cell.width - max cell.col skip := by
  unfold Cell.clipLeft
  rw [if_neg (Nat.not_le.2 h)]
  by_cases hcut : cell.col < skip
  · rw [if_pos hcut, Nat.max_eq_right (Nat.le_of_lt hcut)]
    exact ⟨_, rfl, rfl⟩
  · rw [if_neg hcut, Nat.max_eq_left (Nat.le_of_not_lt hcut), Nat.add_sub_cancel_left]
    exact ⟨cell, rfl, rfl⟩

theorem Cell.Exact.clipLeft {cell clipped : Cell} {skip : Nat} (h : cell.Exact)
    (hclip : cell.clipLeft skip = some clipped) : clipped.Exact := by
  rcases Cell.clipLeft_cases hclip with rfl | ⟨n, htext, hwidth⟩
  · exact h
  · rw [Cell.Exact, htext, hwidth, textWidth_spaces]

theorem prefix_takeColumns : ∀ (room : Nat) (cells : List Cell), takeColumns room cells <+: cells
  | _, [] => List.prefix_rfl
  | room, cell :: rest => by
    rw [takeColumns]
    split
    · exact List.cons_prefix_cons.2 ⟨rfl, prefix_takeColumns _ rest⟩
    · exact List.nil_prefix

theorem cellsWidth_takeColumns_le : ∀ (room : Nat) (cells : List Cell), cellsWidth (takeColumns room cells) ≤ room
  | _, [] => Nat.zero_le _
  | room, cell :: rest => by
    rw [takeColumns]
    split
    · have := cellsWidth_takeColumns_le (room - cell.width) rest
      rw [cellsWidth_cons]
      omega
    · exact Nat.zero_le _

/-- The cells from the left that have room are taken, and what comes behind them gets what room is left. -/
theorem takeColumns_append : ∀ {room : Nat} {a : List Cell} (b : List Cell), cellsWidth a ≤ room →
    takeColumns room (a ++ b) = a ++ takeColumns (room - cellsWidth a) b
  | _, [], _, _ => rfl
  | room, cell :: a, b, h => by
    rw [cellsWidth_cons] at h
    rw [List.cons_append, takeColumns, if_pos (by omega), takeColumns_append b (by omega), cellsWidth_cons, Nat.sub_sub]
    rfl

theorem takeColumns_of_le {room : Nat} {cells : List Cell} (h : cellsWidth cells ≤ room) :
    takeColumns room cells = cells := by
  have := takeColumns_append [] h
  rwa [List.append_nil, takeColumns, List.append_nil] at this

theorem textWidth_flatMap_text : ∀ {cells : List Cell}, (∀ cell ∈ cells, cell.Exact) →
    textWidth (cells.flatMap Cell.text) = cellsWidth cells
  | [], _ => rfl
  | cell :: rest, h => by
    have hcell : textWidth cell.text = cell.width := h cell List.mem_cons_self
    rw [List.flatMap_cons, textWidth_append, cellsWidth_cons, hcell,
      textWidth_flatMap_text fun other hother => h other (List.mem_cons_of_mem _ hother)]

/-! ## Runs -/

/-- The text of runs. -/
def runsText (runs : List Run) : List Char :=
  runs.flatMap Run.text

/-- **Joining neighbours of one style leaves the text as it is.** -/
theorem runsText_joinRuns : ∀ pieces : List (List Char × Style), runsText (joinRuns pieces) = pieces.flatMap Prod.fst
  | [] => rfl
  | (text, style) :: rest => by
    have ih := runsText_joinRuns rest
    rw [joinRuns, List.flatMap_cons, ← ih]
    cases joinRuns rest with
    | nil => rfl
    | cons run more =>
      simp only
      split
      · simp only [runsText, List.flatMap_cons, List.append_assoc]
      · rfl

variable (line : List Char) (spans : List Span) (base : Style) (skip room tabWidth : Nat)

theorem runsText_styledRuns : runsText (styledRuns line spans base skip room tabWidth).1 =
    (window skip room (cellsOf tabWidth line)).flatMap Cell.text := by
  show runsText (joinRuns _) = _
  rw [runsText_joinRuns, List.flatMap_map]

/-- **The columns counted for a line are those of the text drawn for it.** -/
theorem textWidth_styledRuns : textWidth (runsText (styledRuns line spans base skip room tabWidth).1) =
    (styledRuns line spans base skip room tabWidth).2 := by
  rw [runsText_styledRuns]
  refine textWidth_flatMap_text fun cell hcell => ?_
  obtain ⟨whole, hwhole, hclip⟩ := List.mem_filterMap.1 ((prefix_takeColumns _ _).subset hcell)
  exact (exact_of_mem_cellsFrom hwhole).clipLeft hclip

theorem styledRuns_le : (styledRuns line spans base skip room tabWidth).2 ≤ room :=
  cellsWidth_takeColumns_le _ _

/-! ## The beginning of a line -/

/-- **The cells of a line follow each other without a gap.** -/
theorem cellsOf_append (x y : List Char) : cellsOf tabWidth (x ++ y) =
    cellsOf tabWidth x ++ cellsFrom tabWidth (byteSize x) (cellsWidth (cellsOf tabWidth x)) y := by
  unfold cellsOf
  rw [cellsFrom_append, Nat.zero_add, Nat.zero_add]

theorem byte_lt_of_mem_cellsFrom {line : List Char} {byte col : Nat} {cell : Cell}
    (h : cell ∈ cellsFrom tabWidth byte col line) : cell.byte < byte + byteSize line := by
  obtain ⟨x, c, y, rfl, hbyte, -⟩ := exists_of_mem_cellsFrom h
  have := c.utf8Size_pos
  rw [byteSize_append, byteSize_cons]
  omega

/-- **The display column behind a beginning of a line is the columns it takes.** -/
theorem displayCol_append (x y : List Char) :
    displayCol (x ++ y) (byteSize x) tabWidth = cellsWidth (cellsOf (max tabWidth 1) x) := by
  have hx : ∀ cell ∈ cellsOf (max tabWidth 1) x, decide (cell.byte < byteSize x) = true := by
    intro cell hcell
    have := byte_lt_of_mem_cellsFrom _ hcell
    rw [Nat.zero_add] at this
    exact decide_eq_true this
  unfold displayCol
  rw [cellsOf_append, List.takeWhile_append_of_pos hx]
  cases y with
  | nil => rw [cellsFrom, List.takeWhile_nil, List.append_nil]
  | cons c y => rw [cellsFrom_cons, List.takeWhile_cons_of_neg (by simp), List.append_nil]

theorem displayCol_tabWidth (line : List Char) (byte tabWidth : Nat) :
    displayCol line byte (max tabWidth 1) = displayCol line byte tabWidth := by
  have htab : max (max tabWidth 1) 1 = max tabWidth 1 := by omega
  rw [displayCol, displayCol, htab]

/-- **Behind the first `skip` columns** the cells from a column on take what their columns have there. -/
theorem cellsWidth_clipped (line : List Char) : ∀ byte col : Nat,
    cellsWidth ((cellsFrom tabWidth byte col line).filterMap (Cell.clipLeft skip)) =
      (col + cellsWidth (cellsFrom tabWidth byte col line) - skip) - (col - skip) := by
  induction line with
  | nil =>
    intro byte col
    simp [cellsFrom]
  | cons c rest ih =>
    intro byte col
    rw [cellsFrom_cons]
    generalize (cellText tabWidth col c).1 = text
    generalize (cellText tabWidth col c).2 = width
    have hrest := ih (byte + c.utf8Size) (col + width)
    generalize cellsFrom tabWidth (byte + c.utf8Size) (col + width) rest = cells at hrest ⊢
    rw [cellsWidth_cons]
    -- a cell is dropped or shows in part at least, and what is behind it begins where it stops
    by_cases hgone : col + width ≤ skip
    · have hnone : Cell.clipLeft skip ⟨byte, col, text, width⟩ = none := if_pos hgone
      rw [List.filterMap_cons_none hnone]
      dsimp only
      omega
    · obtain ⟨clipped, hclip, hcols⟩ :=
        Cell.exists_clipLeft ⟨byte, col, text, width⟩ (Nat.lt_of_not_le hgone)
      rw [List.filterMap_cons_some hclip, cellsWidth_cons, hcols]
      dsimp only
      omega

theorem cellsWidth_clipped_cellsOf (line : List Char) :
    cellsWidth ((cellsOf tabWidth line).filterMap (Cell.clipLeft skip)) = cellsWidth (cellsOf tabWidth line) - skip := by
  have h := cellsWidth_clipped skip tabWidth line 0 0
  rwa [Nat.zero_add, Nat.zero_sub, Nat.sub_zero] at h

/-- **A beginning of a line that has room is drawn whole**: it takes its columns behind the first `skip` ones, and the
text drawn for it begins the text drawn for the line. -/
theorem styledRuns_append (x y : List Char) (hroom : cellsWidth (cellsOf tabWidth x) - skip ≤ room) :
    (styledRuns x spans base skip room tabWidth).2 = cellsWidth (cellsOf tabWidth x) - skip ∧
    runsText (styledRuns x spans base skip room tabWidth).1 <+:
      runsText (styledRuns (x ++ y) spans base skip room tabWidth).1 := by
  have hwidth := cellsWidth_clipped_cellsOf skip tabWidth x
  have hfits : cellsWidth ((cellsOf tabWidth x).filterMap (Cell.clipLeft skip)) ≤ room := hwidth ▸ hroom
  have hwindow : window skip room (cellsOf tabWidth x) = (cellsOf tabWidth x).filterMap (Cell.clipLeft skip) :=
    takeColumns_of_le hfits
  constructor
  · show cellsWidth (window skip room (cellsOf tabWidth x)) = _
    rw [hwindow]
    exact hwidth
  · rw [runsText_styledRuns, runsText_styledRuns, hwindow, window, cellsOf_append, List.filterMap_append,
      takeColumns_append _ hfits, List.flatMap_append]
    exact List.prefix_append _ _

end JsxView
