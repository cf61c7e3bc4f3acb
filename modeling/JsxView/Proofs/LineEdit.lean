import JsxView.Proofs.Edit
/-!
# LineEdit — editing a text line by line

The same edits and moves on a list of lines, with a cursor that names one of the lines and a place between two
characters of it.  No offset into the whole text is computed: an edit replaces the cursor's line, puts two lines
together or takes one apart.  The editor on flat texts does to the lines of a text what this one does to the list
(`insert_lines`, `backspace_lines`, `delete_lines` and so on).
-/
namespace JsxView
namespace LineEdit

/-- The line with the given index. -/
def line (lines : List (List Char)) (i : Nat) : List Char :=
  lines.getD i []

/-- The cursor's line up to the cursor. -/
def left (lines : List (List Char)) (c : Cursor) : List Char :=
  takeBytes c.col (line lines c.line)

/-- The cursor's line from the cursor on. -/
def right (lines : List (List Char)) (c : Cursor) : List Char :=
  dropBytes c.col (line lines c.line)

/-- What stands behind the last line break of a text. -/
def afterLastBreak (s : List Char) : List Char :=
  (s.reverse.takeWhile (· ≠ '\n')).reverse

/-- A text put in at the cursor: its line becomes the lines of what then stands there. -/
def insert (lines : List (List Char)) (c : Cursor) (s : List Char) : List (List Char) × Cursor :=
  (lines.take c.line ++ (left lines c ++ s ++ right lines c).splitOn '\n' ++ lines.drop (c.line + 1),
    if '\n' ∈ s then ⟨c.line + s.count '\n', byteSize (afterLastBreak s)⟩ else ⟨c.line, c.col + byteSize s⟩)

/-- The character before the cursor taken away, or the line put behind the one above it. -/
def backspace (lines : List (List Char)) (c : Cursor) : Option (List (List Char) × Cursor) :=
  if 0 < c.col then
    some (lines.take c.line ++ ((left lines c).dropLast ++ right lines c) :: lines.drop (c.line + 1),
      ⟨c.line, byteSize (left lines c).dropLast⟩)
  else if 0 < c.line then
    some (lines.take (c.line - 1) ++ (line lines (c.line - 1) ++ line lines c.line) :: lines.drop (c.line + 1),
      ⟨c.line - 1, byteSize (line lines (c.line - 1))⟩)
  else none

/-- The character behind the cursor taken away, or the line below put behind the cursor's. -/
def delete (lines : List (List Char)) (c : Cursor) : Option (List (List Char) × Cursor) :=
  match right lines c with
  | _ :: rest => some (lines.take c.line ++ (left lines c ++ rest) :: lines.drop (c.line + 1), c)
  | [] =>
    if c.line + 1 < lines.length then
      some (lines.take c.line ++ (line lines c.line ++ line lines (c.line + 1)) :: lines.drop (c.line + 2), c)
    else none

/-- One character to the left, or to the end of the line above. -/
def moveLeft (lines : List (List Char)) (c : Cursor) : Cursor :=
  if 0 < c.col then ⟨c.line, byteSize (left lines c).dropLast⟩
  else if 0 < c.line then ⟨c.line - 1, byteSize (line lines (c.line - 1))⟩
  else c

/-- One character to the right, or to the start of the line below. -/
def moveRight (lines : List (List Char)) (c : Cursor) : Cursor :=
  match right lines c with
  | d :: _ => ⟨c.line, c.col + d.utf8Size⟩
  | [] => if c.line + 1 < lines.length then ⟨c.line + 1, 0⟩ else c

/-- To the given line, with the column cut to it. -/
def goTo (lines : List (List Char)) (c : Cursor) (i : Nat) : Cursor :=
  ⟨i, byteSize (takeBytes c.col (line lines i))⟩

/-- A number of lines up, at most to the first. -/
def moveUp (lines : List (List Char)) (c : Cursor) (n : Nat) : Cursor :=
  goTo lines c (c.line - n)

/-- A number of lines down, at most to the last. -/
def moveDown (lines : List (List Char)) (c : Cursor) (n : Nat) : Cursor :=
  goTo lines c (min (lines.length - 1) (c.line + n))

/-! ## The ends of the lines -/

theorem delete_of_right_eq_nil {text : List Char} {c : Cursor} (h : right (linesOf text) c = []) :
    delete (linesOf text) c = if c.line + 1 < lineCount text then
      some ((linesOf text).take c.line
        ++ (line (linesOf text) c.line ++ line (linesOf text) (c.line + 1)) :: (linesOf text).drop (c.line + 2), c)
    else none := by
  rw [delete, h]
  rfl

theorem moveRight_of_right_eq_nil {text : List Char} {c : Cursor} (h : right (linesOf text) c = []) :
    moveRight (linesOf text) c = if c.line + 1 < lineCount text then ⟨c.line + 1, 0⟩ else c := by
  rw [moveRight, h]
  rfl

/-! ## The lines around the cursor -/

theorem afterLastBreak_append (x : List Char) {y : List Char} (hy : '\n' ∉ y) :
    afterLastBreak (x ++ '\n' :: y) = y := by
  have hall : ∀ c ∈ y.reverse, (decide (c ≠ '\n')) = true := by
    intro c hc
    refine decide_eq_true fun heq => hy ?_
    rw [← heq]
    exact List.mem_reverse.1 hc
  unfold afterLastBreak
  rw [List.reverse_append, List.reverse_cons, List.append_assoc, List.takeWhile_append_of_pos hall]
  simp

theorem exists_last_break {s : List Char} (h : '\n' ∈ s) : ∃ x y, s = x ++ '\n' :: y ∧ '\n' ∉ y := by
  obtain ⟨y, x, hs, hy⟩ := List.eq_append_cons_of_mem (List.mem_reverse.2 h)
  refine ⟨x.reverse, y.reverse, ?_, fun hmem => hy (List.mem_reverse.1 hmem)⟩
  rw [← List.reverse_reverse s, hs, List.reverse_append, List.reverse_cons, List.append_assoc]
  rfl

variable (text : List Char) (c : Cursor)

theorem left_append_right (lines : List (List Char)) (c : Cursor) :
    left lines c ++ right lines c = line lines c.line :=
  takeBytes_append_dropBytes _ _

theorem not_mem_line (i : Nat) : '\n' ∉ line (linesOf text) i :=
  not_mem_lineAt text i

theorem byteSize_left : byteSize (left (linesOf text) (c.clamp text)) = (c.clamp text).col :=
  Cursor.byteSize_takeBytes_clamp text c

theorem not_mem_left : '\n' ∉ left (linesOf text) (c.clamp text) := by
  intro h
  refine not_mem_line text (c.clamp text).line ?_
  rw [← left_append_right]
  exact List.mem_append_left _ h

theorem not_mem_take {i : Nat} : ∀ l ∈ (linesOf text).take i, '\n' ∉ l :=
  fun _ hl => not_mem_of_mem_linesOf (List.mem_of_mem_take hl)

theorem not_mem_drop {i : Nat} : ∀ l ∈ (linesOf text).drop i, '\n' ∉ l :=
  fun _ hl => not_mem_of_mem_linesOf (List.mem_of_mem_drop hl)

theorem length_take_line {i : Nat} (hi : i < lineCount text) : ((linesOf text).take i).length = i := by
  rw [List.length_take]
  exact Nat.min_eq_left (Nat.le_of_lt hi)

theorem drop_eq_cons {i : Nat} (hi : i < lineCount text) :
    (linesOf text).drop i = line (linesOf text) i :: (linesOf text).drop (i + 1) := by
  have hlen : i < (linesOf text).length := hi
  rw [line, List.getD_eq_getElem?_getD, List.getElem?_eq_getElem hlen]
  exact (List.getElem_cons_drop hlen).symm

theorem take_succ_eq {i : Nat} (hi : i < lineCount text) :
    (linesOf text).take (i + 1) = (linesOf text).take i ++ [line (linesOf text) i] := by
  have hlen : i < (linesOf text).length := hi
  rw [line, List.getD_eq_getElem?_getD, List.getElem?_eq_getElem hlen]
  exact (List.take_append_getElem hlen).symm

theorem before_lines : Edit.before text c =
    closedLines ((linesOf text).take (c.clamp text).line) ++ left (linesOf text) (c.clamp text) :=
  Edit.before_eq text c

theorem after_lines : Edit.after text c =
    right (linesOf text) (c.clamp text) ++ openedLines ((linesOf text).drop ((c.clamp text).line + 1)) :=
  Edit.after_eq text c

theorem left_of_right_eq_nil {lines : List (List Char)} {c : Cursor} (h : right lines c = []) :
    left lines c = line lines c.line := by
  rw [← left_append_right, h, List.append_nil]

/-- **What stands before the cursor**: nothing, the break of the line above, or a character of its line. -/
theorem before_cases :
    (c.clamp text).line = 0 ∧ (c.clamp text).col = 0 ∧ Edit.before text c = [] ∨
    (∃ i, (c.clamp text).line = i + 1 ∧ (c.clamp text).col = 0 ∧
      Edit.before text c = closedLines ((linesOf text).take i) ++ line (linesOf text) i ++ ['\n']) ∨
    0 < (c.clamp text).col ∧ ∃ d, Edit.before text c = closedLines ((linesOf text).take (c.clamp text).line)
      ++ (left (linesOf text) (c.clamp text)).dropLast ++ [d] := by
  have hbefore := before_lines text c
  have hline := Cursor.line_clamp_lt text c
  have hsize := byteSize_left text c
  by_cases hleft : left (linesOf text) (c.clamp text) = []
  · have hcol : (c.clamp text).col = 0 := by rw [← hsize, hleft, byteSize_nil]
    rw [hleft, List.append_nil] at hbefore
    cases hi : (c.clamp text).line with
    | zero =>
      rw [hi] at hbefore
      exact Or.inl ⟨rfl, hcol, hbefore⟩
    | succ i =>
      refine Or.inr (Or.inl ⟨i, rfl, hcol, ?_⟩)
      rw [hi, take_succ_eq text (by omega), closedLines_append, closedLines_singleton, ← List.append_assoc] at hbefore
      exact hbefore
  · have hcol := byteSize_pos hleft
    rw [hsize] at hcol
    refine Or.inr (Or.inr ⟨hcol, (left (linesOf text) (c.clamp text)).getLast hleft, ?_⟩)
    rw [hbefore, List.append_assoc, List.dropLast_concat_getLast hleft]

/-- **What stands behind the cursor**: a character of its line, the break before the line below, or nothing. -/
theorem after_cases :
    (∃ d rest, right (linesOf text) (c.clamp text) = d :: rest ∧
      Edit.after text c = d :: (rest ++ openedLines ((linesOf text).drop ((c.clamp text).line + 1)))) ∨
    (right (linesOf text) (c.clamp text) = [] ∧ (c.clamp text).line + 1 < lineCount text ∧
      Edit.after text c = '\n' :: (line (linesOf text) ((c.clamp text).line + 1)
        ++ openedLines ((linesOf text).drop ((c.clamp text).line + 2)))) ∨
    right (linesOf text) (c.clamp text) = [] ∧ ¬ (c.clamp text).line + 1 < lineCount text ∧
      Edit.after text c = [] := by
  have hafter := after_lines text c
  cases hright : right (linesOf text) (c.clamp text) with
  | cons d rest =>
    rw [hright] at hafter
    exact Or.inl ⟨d, rest, rfl, hafter⟩
  | nil =>
    rw [hright, List.nil_append] at hafter
    by_cases hnext : (c.clamp text).line + 1 < lineCount text
    · rw [drop_eq_cons text hnext, openedLines_cons] at hafter
      exact Or.inr (Or.inl ⟨rfl, hnext, hafter⟩)
    · rw [List.drop_eq_nil_of_le (Nat.le_of_not_lt hnext)] at hafter
      exact Or.inr (Or.inr ⟨rfl, hnext, hafter⟩)

/-! ## Edits -/

/-- An edited text as its lines. -/
def onLines (edited : List Char × Cursor) : List (List Char) × Cursor :=
  (linesOf edited.1, edited.2)

/-- A text that differs from another one between two of its lines only. -/
theorem linesOf_between (i j : Nat) {t u : List Char}
    (hu : u = closedLines ((linesOf text).take i) ++ t ++ openedLines ((linesOf text).drop j)) :
    linesOf u = (linesOf text).take i ++ linesOf t ++ (linesOf text).drop j := by
  rw [hu]
  exact linesOf_around (not_mem_take text) (not_mem_drop text) t

theorem linesOf_between_of_not_mem (i j : Nat) {t u : List Char} (ht : '\n' ∉ t)
    (hu : u = closedLines ((linesOf text).take i) ++ t ++ openedLines ((linesOf text).drop j)) :
    linesOf u = (linesOf text).take i ++ t :: (linesOf text).drop j := by
  rw [linesOf_between text i j hu, linesOf_eq_singleton ht, List.append_assoc, List.singleton_append]

theorem not_mem_right : '\n' ∉ right (linesOf text) (c.clamp text) := by
  intro h
  refine not_mem_line text (c.clamp text).line ?_
  rw [← left_append_right]
  exact List.mem_append_right _ h

theorem insert_lines (s : List Char) :
    onLines (Edit.insert text c s) = insert (linesOf text) (c.clamp text) s := by
  have hline := Cursor.line_clamp_lt text c
  have hbefore := before_lines text c
  have hafter := after_lines text c
  rw [Edit.insert_eq]
  refine Prod.ext ?_ ?_
  · refine linesOf_between text _ _ ?_
    simp only [hbefore, hafter, List.append_assoc]
  · show Cursor.atEnd (Edit.before text c ++ s) = (insert (linesOf text) (c.clamp text) s).2
    rw [hbefore, List.append_assoc]
    -- behind a break the column does not depend on the line the text was put in
    by_cases hs : '\n' ∈ s
    · obtain ⟨x, y, rfl, hy⟩ := exists_last_break hs
      have hcount := List.count_eq_zero.2 (not_mem_left text c)
      have hcol := Cursor.col_atEnd_append_cons (left (linesOf text) (c.clamp text) ++ x) hy
      rw [List.append_assoc] at hcol
      rw [Cursor.atEnd_closedLines (not_mem_take text), length_take_line text hline, lineCount_eq, List.count_append,
        hcount, Nat.zero_add, Nat.add_sub_cancel, hcol, insert, if_pos hs, afterLastBreak_append x hy]
    · have hnot : '\n' ∉ left (linesOf text) (c.clamp text) ++ s := by
        intro h
        exact (List.mem_append.1 h).elim (not_mem_left text c) hs
      rw [Cursor.atEnd_closedLines_of_not_mem (not_mem_take text) hnot, length_take_line text hline, byteSize_append,
        byteSize_left, insert, if_neg hs]

theorem backspace_lines :
    (Edit.backspace text c).map onLines = backspace (linesOf text) (c.clamp text) := by
  have hline := Cursor.line_clamp_lt text c
  have hafter := after_lines text c
  rcases before_cases text c with ⟨hzero, hcol, hbefore⟩ | ⟨i, hi, hcol, hbefore⟩ | ⟨hcol, d, hbefore⟩
  · rw [Edit.backspace_eq_none hbefore, backspace, if_neg (by omega), if_neg (by omega)]
    rfl
  · have hright : right (linesOf text) (c.clamp text) = line (linesOf text) (i + 1) := by
      rw [right, hcol, hi, dropBytes_zero]
    rw [hright, hi] at hafter
    rw [Edit.backspace_eq hbefore, backspace, if_neg (by omega), if_pos (by omega), hi, Nat.add_sub_cancel]
    refine congrArg some (Prod.ext ?_ ?_)
    · refine linesOf_between_of_not_mem text i _ ?_ ?_
      · intro h
        exact (List.mem_append.1 h).elim (not_mem_line text i) (not_mem_line text (i + 1))
      · simp only [hafter, List.append_assoc]
    · show Cursor.atEnd (closedLines ((linesOf text).take i) ++ line (linesOf text) i) = _
      rw [Cursor.atEnd_closedLines_of_not_mem (not_mem_take text) (not_mem_line text i),
        length_take_line text (by omega)]
  · have hnot : '\n' ∉ (left (linesOf text) (c.clamp text)).dropLast :=
      fun h => not_mem_left text c (List.dropLast_subset _ h)
    rw [Edit.backspace_eq hbefore, backspace, if_pos hcol]
    refine congrArg some (Prod.ext ?_ ?_)
    · refine linesOf_between_of_not_mem text _ _ ?_ ?_
      · intro h
        exact (List.mem_append.1 h).elim hnot (not_mem_right text c)
      · simp only [hafter, List.append_assoc]
    · show Cursor.atEnd (closedLines ((linesOf text).take (c.clamp text).line) ++ _) = _
      rw [Cursor.atEnd_closedLines_of_not_mem (not_mem_take text) hnot, length_take_line text hline]

/-- The end of the text before the cursor is the cursor, clamped. -/
theorem atEnd_before : Cursor.atEnd (Edit.before text c) = c.clamp text := by
  have hbefore := before_lines text c
  rw [hbefore, Cursor.atEnd_closedLines_of_not_mem (not_mem_take text) (not_mem_left text c),
    length_take_line text (Cursor.line_clamp_lt text c), byteSize_left]

theorem delete_lines : (Edit.delete text c).map onLines = delete (linesOf text) (c.clamp text) := by
  have hbefore := before_lines text c
  rcases after_cases text c with ⟨d, rest, hright, hafter⟩ | ⟨hright, hnext, hafter⟩ | ⟨hright, hnext, hafter⟩
  · have hnot : '\n' ∉ left (linesOf text) (c.clamp text) ++ rest := by
      intro h
      have hline := not_mem_right text c
      rw [hright] at hline
      exact (List.mem_append.1 h).elim (not_mem_left text c) fun h => hline (List.mem_cons_of_mem _ h)
    rw [Edit.delete_eq hafter, delete, hright]
    refine congrArg some (Prod.ext ?_ (atEnd_before text c))
    refine linesOf_between_of_not_mem text _ _ hnot ?_
    simp only [hbefore, List.append_assoc]
  · have hleft := left_of_right_eq_nil hright
    rw [Edit.delete_eq hafter, delete_of_right_eq_nil hright, if_pos hnext]
    refine congrArg some (Prod.ext ?_ (atEnd_before text c))
    refine linesOf_between_of_not_mem text _ _ ?_ ?_
    · intro h
      exact (List.mem_append.1 h).elim (not_mem_line text _) (not_mem_line text _)
    · simp only [hbefore, hleft, List.append_assoc]
  · rw [Edit.delete_eq_none hafter, delete_of_right_eq_nil hright, if_neg hnext]
    rfl

/-! ## Moves -/

theorem moveLeft_lines : Edit.moveLeft text c = moveLeft (linesOf text) (c.clamp text) := by
  have hline := Cursor.line_clamp_lt text c
  rcases before_cases text c with ⟨hzero, hcol, hbefore⟩ | ⟨i, hi, hcol, hbefore⟩ | ⟨hcol, d, hbefore⟩
  · rw [Edit.moveLeft_eq_clamp hbefore, moveLeft, if_neg (by omega), if_neg (by omega)]
  · rw [Edit.moveLeft_eq hbefore, moveLeft, if_neg (by omega), if_pos (by omega), hi, Nat.add_sub_cancel,
      Cursor.atEnd_closedLines_of_not_mem (not_mem_take text) (not_mem_line text i), length_take_line text (by omega)]
  · have hnot : '\n' ∉ (left (linesOf text) (c.clamp text)).dropLast :=
      fun h => not_mem_left text c (List.dropLast_subset _ h)
    rw [Edit.moveLeft_eq hbefore, moveLeft, if_pos hcol, Cursor.atEnd_closedLines_of_not_mem (not_mem_take text) hnot,
      length_take_line text hline]

theorem moveRight_lines : Edit.moveRight text c = moveRight (linesOf text) (c.clamp text) := by
  have hline := Cursor.line_clamp_lt text c
  have hbefore := before_lines text c
  rcases after_cases text c with ⟨d, rest, hright, hafter⟩ | ⟨hright, hnext, hafter⟩ | ⟨hright, hnext, hafter⟩
  · have hnot : '\n' ∉ left (linesOf text) (c.clamp text) ++ [d] := by
      intro h
      have hin := not_mem_right text c
      rw [hright] at hin
      refine (List.mem_append.1 h).elim (not_mem_left text c) fun h => hin ?_
      rw [List.mem_singleton.1 h]
      exact List.mem_cons_self
    rw [Edit.moveRight_eq hafter, moveRight, hright, hbefore, List.append_assoc,
      Cursor.atEnd_closedLines_of_not_mem (not_mem_take text) hnot, length_take_line text hline, byteSize_append,
      byteSize_left]
    rfl
  · have hleft := left_of_right_eq_nil hright
    have hclosed : Edit.before text c ++ ['\n'] =
        closedLines ((linesOf text).take ((c.clamp text).line + 1)) ++ [] := by
      rw [hbefore, hleft, take_succ_eq text hline, closedLines_append, closedLines_singleton, List.append_nil,
        List.append_assoc]
    rw [Edit.moveRight_eq hafter, moveRight_of_right_eq_nil hright, if_pos hnext, hclosed,
      Cursor.atEnd_closedLines_of_not_mem (not_mem_take text) List.not_mem_nil, length_take_line text hnext]
    rfl
  · rw [Edit.moveRight_eq_clamp hafter, moveRight_of_right_eq_nil hright, if_neg hnext]

theorem moveUp_lines (n : Nat) : Edit.moveUp text c n = moveUp (linesOf text) (c.clamp text) n := by
  have hline := Cursor.line_clamp_lt text c
  have hmin : min ((c.clamp text).line - n) (lineCount text - 1) = (c.clamp text).line - n := by omega
  show (⟨min ((c.clamp text).line - n) (lineCount text - 1), _⟩ : Cursor) = _
  rw [hmin]
  rfl

theorem moveDown_lines (n : Nat) : Edit.moveDown text c n = moveDown (linesOf text) (c.clamp text) n := by
  show (⟨min ((c.clamp text).line + n) (lineCount text - 1), _⟩ : Cursor) = _
  rw [Nat.min_comm]
  rfl

/-! ## Where nothing can be taken away -/

theorem backspace_eq_none_iff {lines : List (List Char)} {c : Cursor} :
    backspace lines c = none ↔ c = ⟨0, 0⟩ := by
  obtain ⟨i, b⟩ := c
  unfold backspace
  by_cases hb : 0 < b
  · rw [if_pos hb]
    simp
    omega
  · by_cases hi : 0 < i
    · rw [if_neg hb, if_pos hi]
      simp
      omega
    · rw [if_neg hb, if_neg hi]
      simp
      omega

theorem right_eq_nil_iff :
    right (linesOf text) (c.clamp text) = [] ↔ (c.clamp text).col = byteSize (lineAt text (c.clamp text).line) := by
  have hsize := congrArg byteSize (left_append_right (linesOf text) (c.clamp text))
  rw [byteSize_append, byteSize_left] at hsize
  have hzero := byteSize_eq_zero (t := right (linesOf text) (c.clamp text))
  rw [← hzero]
  show _ ↔ (c.clamp text).col = byteSize (line (linesOf text) (c.clamp text).line)
  omega

theorem delete_eq_none_iff : delete (linesOf text) (c.clamp text) = none ↔
    (c.clamp text).line = lineCount text - 1 ∧
      (c.clamp text).col = byteSize (lineAt text (c.clamp text).line) := by
  have hline := Cursor.line_clamp_lt text c
  rw [← right_eq_nil_iff]
  cases hright : right (linesOf text) (c.clamp text) with
  | cons d rest =>
    rw [delete, hright]
    simp
  | nil =>
    rw [delete_of_right_eq_nil hright]
    by_cases hnext : (c.clamp text).line + 1 < lineCount text
    · rw [if_pos hnext]
      simp
      omega
    · rw [if_neg hnext]
      simp
      omega

/-- **The editor on a flat text is an editor on its lines.**  The clamped cursor names a line and a place between two
characters of it, and every edit and every move of the flat text is the one of the list of lines at that cursor;
there is nothing to take away at the very start and at the very end only. -/
theorem edit_refines_lines (text : List Char) (c : Cursor) :
    let here := c.clamp text
    let lines := linesOf text
    (here.line < lines.length ∧ byteSize (left lines here) = here.col) ∧
    (∀ s, onLines (Edit.insert text c s) = insert lines here s) ∧
    ((Edit.backspace text c).map onLines = backspace lines here ∧
      (Edit.backspace text c = none ↔ here = ⟨0, 0⟩)) ∧
    ((Edit.delete text c).map onLines = delete lines here ∧
      (Edit.delete text c = none ↔
        here.line = lines.length - 1 ∧ here.col = byteSize (line lines here.line))) ∧
    Edit.moveLeft text c = moveLeft lines here ∧ Edit.moveRight text c = moveRight lines here ∧
    ∀ n, Edit.moveUp text c n = moveUp lines here n ∧ Edit.moveDown text c n = moveDown lines here n := by
  refine ⟨⟨Cursor.line_clamp_lt text c, byteSize_left text c⟩, insert_lines text c, ⟨backspace_lines text c, ?_⟩,
    ⟨delete_lines text c, ?_⟩, moveLeft_lines text c, moveRight_lines text c,
    fun n => ⟨moveUp_lines text c n, moveDown_lines text c n⟩⟩
  · rw [← @backspace_eq_none_iff (linesOf text), ← backspace_lines, Option.map_eq_none_iff]
  · refine Iff.trans ?_ (delete_eq_none_iff text c)
    rw [← delete_lines, Option.map_eq_none_iff]

end LineEdit
end JsxView
