import JsxView.Proofs.ShownWindow
/-!
# WholeLine — a line that is not scrolled and has room

A window that begins at column zero and has room for all columns of a line leaves out no column of it.  A character
that takes no column is another matter.  Behind a character that takes one it ends behind the left edge and is drawn,
but in front of all of them it ends at the left edge, as if it stood left of the window, and is dropped
(`flatMap_text_eq`).  A line that begins with a combining mark or a byte order mark is drawn without it
(`leading_mark_lost`); nothing else is lost (`whole_line_drawn`).
-/
namespace JsxView

/-- Whether a character takes no column in a line. -/
def takesNoColumn (c : Char) : Bool :=
  c = '\r' || charWidth? c = some 0

variable {tabWidth : Nat} {c : Char}

/-! ## Characters that take no column -/

theorem cellText_of_takesNoColumn (tabWidth col : Nat) (h : takesNoColumn c = true) :
    cellText tabWidth col c = (if c = '\r' then [] else [c], 0) := by
  unfold cellText
  by_cases hreturn : c = '\r'
  · subst hreturn
    rfl
  · have hwidth : charWidth? c = some 0 := by simpa [takesNoColumn, hreturn] using h
    have hcontrol : isControl c = false := by
      cases hc : isControl c with
      | false => rfl
      | true => simp [charWidth?, hc] at hwidth
    have htab : c ≠ '\t' := by
      rintro rfl
      exact absurd hcontrol (by decide)
    simp [htab, hreturn, hcontrol, charWidth, hwidth]

theorem cellText_pos (htab : 0 < tabWidth) (h : takesNoColumn c = false) (col : Nat) :
    0 < (cellText tabWidth col c).2 := by
  have hmod := Nat.mod_lt col htab
  unfold cellText
  split
  · dsimp only
    omega
  · split
    · rename_i hreturn
      simp [takesNoColumn, hreturn] at h
    · split
      · exact Nat.one_pos
      · rename_i hreturn hcontrol
        have hwidth : charWidth? c ≠ some 0 := by simpa [takesNoColumn, hreturn] using h
        show 0 < (charWidth? c).getD 1
        cases hc : charWidth? c with
        | none => exact Nat.one_pos
        | some n => exact Nat.pos_of_ne_zero fun hn => hwidth (hc.trans (congrArg some hn))

/-- Characters that take no column show as themselves, except for carriage returns, and leave the column where it
is. -/
theorem cellsFrom_of_takesNoColumn : ∀ {lead : List Char}, (∀ c ∈ lead, takesNoColumn c = true) → ∀ byte col : Nat,
    cellsWidth (cellsFrom tabWidth byte col lead) = 0 ∧
      (cellsFrom tabWidth byte col lead).flatMap Cell.text = lead.filter (· ≠ '\r')
  | [], _, _, _ => ⟨rfl, rfl⟩
  | c :: lead, h, byte, col => by
    have hc := cellText_of_takesNoColumn tabWidth col (h c List.mem_cons_self)
    obtain ⟨hwidth, htext⟩ :=
      cellsFrom_of_takesNoColumn (fun d hd => h d (List.mem_cons_of_mem _ hd)) (byte + c.utf8Size) col
    rw [cellsFrom_cons, hc, Nat.add_zero, cellsWidth_cons, hwidth, List.flatMap_cons, htext]
    refine ⟨rfl, ?_⟩
    by_cases hreturn : c = '\r'
    · simp [hreturn]
    · simp [hreturn]

/-! ## The line in its window -/

section

variable {lead rest : List Char} (room : Nat)

theorem shown_lead (hlead : ∀ c ∈ lead, takesNoColumn c = true) :
    (cellsOf tabWidth lead).flatMap (Cell.shown 0 room) = [] := by
  rw [List.flatMap_eq_nil_iff]
  intro cell hcell
  have hstop := (stop_of_mem_cellsFrom hcell).2
  rw [(cellsFrom_of_takesNoColumn hlead 0 0).1] at hstop
  rw [Cell.shown, if_pos (.inl hstop)]

/-- The cells behind a first character that takes a column show whole where they have room. -/
theorem shown_rest (htab : 0 < tabWidth) (hrest : ∀ c ∈ rest.head?, takesNoColumn c = false) (byte : Nat)
    (hroom : cellsWidth (cellsFrom tabWidth byte 0 rest) ≤ room) :
    (cellsFrom tabWidth byte 0 rest).flatMap (Cell.shown 0 room) =
      (cellsFrom tabWidth byte 0 rest).flatMap Cell.text := by
  refine List.flatMap_congr fun cell hcell => ?_
  have hstop := (stop_of_mem_cellsFrom hcell).2
  have hpos : 0 < cell.col + cell.width := by
    cases rest with
    | nil => cases hcell
    | cons c s =>
      have hc := cellText_pos htab (hrest c rfl) 0
      rw [cellsFrom_cons] at hcell
      rcases List.mem_cons.1 hcell with rfl | hcell
      · exact Nat.lt_of_lt_of_le hc (Nat.le_add_left _ _)
      · have := (stop_of_mem_cellsFrom hcell).1
        omega
  rw [Cell.shown, if_neg (by omega), if_neg (Nat.not_lt_zero _)]

end

variable (line : List Char) (spans : List Span) (base : Style) (room : Nat)

/-- **The cells of a line that has room are what is drawn of it** behind what it begins with before any column. -/
theorem flatMap_text_eq (htab : 0 < tabWidth) (hroom : displayCol line (byteSize line) tabWidth ≤ room) :
    (cellsOf tabWidth line).flatMap Cell.text = (line.takeWhile takesNoColumn).filter (· ≠ '\r') ++
      runsText (styledRuns line spans base 0 room tabWidth).1 := by
  have hlead : ∀ c ∈ line.takeWhile takesNoColumn, takesNoColumn c = true :=
    List.all_eq_true.1 List.all_takeWhile
  have hrest : ∀ c ∈ (line.dropWhile takesNoColumn).head?, takesNoColumn c = false := by
    intro c hc
    have := List.head?_dropWhile_not takesNoColumn line
    rw [Option.mem_def.1 hc] at this
    simpa using this
  have hsplit : cellsOf tabWidth line = cellsOf tabWidth (line.takeWhile takesNoColumn) ++
      cellsFrom tabWidth (byteSize (line.takeWhile takesNoColumn)) 0 (line.dropWhile takesNoColumn) := by
    conv => lhs; rw [← List.takeWhile_append_dropWhile (p := takesNoColumn) (l := line)]
    rw [cellsOf_append]
    unfold cellsOf
    rw [(cellsFrom_of_takesNoColumn hlead 0 0).1]
  rw [displayCol_byteSize htab, hsplit, cellsWidth_append] at hroom
  rw [runsText_styledRuns_shown, Nat.zero_add, hsplit, List.flatMap_append, List.flatMap_append,
    shown_lead room hlead, shown_rest room htab hrest _ (Nat.le_trans (Nat.le_add_left _ _) hroom), List.nil_append]
  exact congrArg (· ++ _) (cellsFrom_of_takesNoColumn hlead 0 0).2

/-- **A line that is not scrolled and has room loses what it begins with before any column, and nothing else.**  The
texts of all its cells, in order, are the characters in front that take no column, less carriage returns, and then the
text that is drawn.  So all of it is drawn just if nothing but carriage returns stands in front of the first character
that takes a column. -/
theorem whole_line_drawn (htab : 0 < tabWidth) (hroom : displayCol line (byteSize line) tabWidth ≤ room) :
    (cellsOf tabWidth line).flatMap Cell.text = (line.takeWhile takesNoColumn).filter (· ≠ '\r') ++
      runsText (styledRuns line spans base 0 room tabWidth).1 ∧
    (runsText (styledRuns line spans base 0 room tabWidth).1 = (cellsOf tabWidth line).flatMap Cell.text ↔
      ∀ c ∈ line.takeWhile takesNoColumn, c = '\r') := by
  have htext := flatMap_text_eq line spans base room htab hroom
  refine ⟨htext, ?_⟩
  rw [htext, eq_comm, List.append_left_eq_self, List.filter_eq_nil_iff]
  simp

/-- A tab behind a carriage return, another control character, and a combining mark behind a letter. -/
theorem whole_line_drawn_mixed :
    (0 < 4 ∧ displayCol ['\r', '\t', '\x07', 'a', '\u0301'] (byteSize ['\r', '\t', '\x07', 'a', '\u0301']) 4 ≤ 6) ∧
    runsText (styledRuns ['\r', '\t', '\x07', 'a', '\u0301'] [] {} 0 6 4).1 =
      (cellsOf 4 ['\r', '\t', '\x07', 'a', '\u0301']).flatMap Cell.text := by
  have hroom : displayCol ['\r', '\t', '\x07', 'a', '\u0301'] (byteSize ['\r', '\t', '\x07', 'a', '\u0301']) 4 ≤ 6 := by
    decide +kernel
  have hlead : ['\r', '\t', '\x07', 'a', '\u0301'].takeWhile takesNoColumn = ['\r'] := by decide
  exact ⟨⟨by decide, hroom⟩, (whole_line_drawn _ [] {} 6 (by decide) hroom).2.2 fun c hc =>
    List.mem_singleton.1 (hlead ▸ hc)⟩

/-- A combining mark in front of a letter is not drawn, though the line is not scrolled and has room. -/
theorem leading_mark_lost :
    ¬ ∀ (line : List Char) (spans : List Span) (base : Style) (room tabWidth : Nat), 0 < tabWidth →
      displayCol line (byteSize line) tabWidth ≤ room →
      runsText (styledRuns line spans base 0 room tabWidth).1 = (cellsOf tabWidth line).flatMap Cell.text := by
  intro h
  have hdrawn := h "\u0301a".toList [] {} 80 4 (by decide) (by decide +kernel)
  exact absurd hdrawn (by decide +kernel)

end JsxView
