import JsxView.Edit
import JsxView.Proofs.Lines
/-!
# Edit — the text before and behind the cursor

Every edit is a change of the text right before or right behind the cursor.  The text before the cursor is the lines
above it with the cursor's line up to the cursor, the text behind it the rest of that line with the lines below
(`before_eq`, `after_eq`), and the offset of the cursor is the size of the first.  So each edit and each step is said
by the characters next to the cursor alone, without offsets (`insert_eq`, `backspace_eq`, `delete_eq` and so on).
-/
namespace JsxView

theorem byteSize_closedLines : ∀ lines : List (List Char),
    byteSize (closedLines lines) = lines.foldr (fun l n => byteSize l + 1 + n) 0
  | [] => rfl
  | l :: lines => by
    have hbreak : ('\n' : Char).utf8Size = 1 := rfl
    have hcons : closedLines (l :: lines) = l ++ '\n' :: closedLines lines := by simp [closedLines]
    rw [hcons, byteSize_append, byteSize_cons, byteSize_closedLines lines, hbreak, List.foldr_cons, Nat.add_assoc]

namespace Cursor

theorem line_clamp_lt (text : List Char) (c : Cursor) : (c.clamp text).line < lineCount text := by
  have := lineCount_pos text
  show min c.line (lineCount text - 1) < lineCount text
  omega

/-- A clamped column ends between two characters of its line. -/
theorem byteSize_takeBytes_clamp (text : List Char) (c : Cursor) :
    byteSize (takeBytes (c.clamp text).col (lineAt text (c.clamp text).line)) = (c.clamp text).col := by
  let line := lineAt text (min c.line (lineCount text - 1))
  exact congrArg byteSize (takeBytes_byteSize_takeBytes c.col line)

theorem lineStart_eq (text : List Char) (i : Nat) :
    lineStart text i = byteSize (closedLines ((linesOf text).take i)) :=
  (byteSize_closedLines _).symm

/-- **The cursor at the end of a text**, the lines above its last line set apart. -/
theorem atEnd_closedLines {above : List (List Char)} (ha : ∀ l ∈ above, '\n' ∉ l) (t : List Char) :
    atEnd (closedLines above ++ t) = ⟨above.length + (lineCount t - 1), (atEnd t).col⟩ := by
  have hpos := lineCount_pos t
  unfold atEnd lineCount
  rw [linesOf_closedLines_append t ha, List.length_append, List.getLastD_eq_getLast?, List.getLast?_append,
    List.getLastD_eq_getLast?]
  obtain ⟨x, hx⟩ := Option.ne_none_iff_exists'.1 (fun h => linesOf_ne_nil t (List.getLast?_eq_none_iff.1 h))
  rw [hx, Option.some_or]
  unfold lineCount at hpos
  rw [Nat.add_sub_assoc hpos]

theorem atEnd_of_not_mem {t : List Char} (h : '\n' ∉ t) : atEnd t = ⟨0, byteSize t⟩ := by
  unfold atEnd lineCount
  rw [linesOf_eq_singleton h]
  rfl

/-- The cursor behind a line's beginning, the lines above it set apart. -/
theorem atEnd_closedLines_of_not_mem {above : List (List Char)} (ha : ∀ l ∈ above, '\n' ∉ l) {t : List Char}
    (ht : '\n' ∉ t) : atEnd (closedLines above ++ t) = ⟨above.length, byteSize t⟩ := by
  rw [atEnd_closedLines ha, atEnd_of_not_mem ht, lineCount, linesOf_eq_singleton ht]
  rfl

theorem col_atEnd_append_cons (x : List Char) {y : List Char} (hy : '\n' ∉ y) :
    (atEnd (x ++ '\n' :: y)).col = byteSize y := by
  unfold atEnd
  rw [linesOf_append_cons, linesOf_eq_singleton hy, List.getLastD_eq_getLast?, List.getLast?_append]
  rfl

theorem atOffset_append (x y : List Char) : atOffset (x ++ y) (byteSize x) = atEnd x := by
  rw [atOffset, takeBytes_byteSize]

end Cursor

namespace Edit

variable (text : List Char) (c : Cursor)

theorem offset_eq : c.offset text = byteSize (closedLines ((linesOf text).take (c.clamp text).line)
    ++ takeBytes (c.clamp text).col (lineAt text (c.clamp text).line)) := by
  rw [Cursor.offset, Cursor.lineStart_eq, byteSize_append, Cursor.byteSize_takeBytes_clamp]

theorem before_append_after : before text c ++ after text c = text :=
  takeBytes_append_dropBytes _ _

theorem text_eq_around_cursor : text = closedLines ((linesOf text).take (c.clamp text).line)
    ++ takeBytes (c.clamp text).col (lineAt text (c.clamp text).line)
    ++ (dropBytes (c.clamp text).col (lineAt text (c.clamp text).line)
      ++ openedLines ((linesOf text).drop ((c.clamp text).line + 1))) := by
  have h := text_eq_around (Cursor.line_clamp_lt text c)
  rw [← takeBytes_append_dropBytes (c.clamp text).col (lineAt text (c.clamp text).line)] at h
  simpa only [List.append_assoc] using h

/-- **The text before the cursor**: the lines above, and its line up to the cursor. -/
theorem before_eq : before text c = closedLines ((linesOf text).take (c.clamp text).line)
    ++ takeBytes (c.clamp text).col (lineAt text (c.clamp text).line) := by
  rw [before, offset_eq]
  exact takeBytes_of_eq_append (text_eq_around_cursor text c)

/-- **The text behind the cursor**: its line from the cursor on, and the lines below. -/
theorem after_eq : after text c = dropBytes (c.clamp text).col (lineAt text (c.clamp text).line)
    ++ openedLines ((linesOf text).drop ((c.clamp text).line + 1)) := by
  have h := before_append_after text c
  rw [before_eq] at h
  exact List.append_cancel_left (h.trans (text_eq_around_cursor text c))

theorem offset_eq_byteSize_before : c.offset text = byteSize (before text c) := by
  rw [offset_eq, before_eq]

/-! ## Edits by the characters next to the cursor -/

theorem insert_eq (s : List Char) :
    insert text c s = (before text c ++ s ++ after text c, Cursor.atEnd (before text c ++ s)) := by
  rw [insert, offset_eq_byteSize_before, ← byteSize_append, Cursor.atOffset_append]

variable {text c}

theorem previous?_eq_none (h : before text c = []) : previous? text c = none := by
  rw [previous?, h]
  rfl

theorem previous?_eq_some {p : List Char} {d : Char} (h : before text c = p ++ [d]) :
    previous? text c = some (byteSize p) := by
  have hoff : c.offset text - d.utf8Size = byteSize p := by
    rw [offset_eq_byteSize_before, h, byteSize_append, byteSize_cons, byteSize_nil]
    omega
  rw [previous?, h, List.getLast?_append, List.getLast?_singleton]
  exact congrArg some hoff

theorem takeBytes_of_before {p : List Char} {d : Char} (h : before text c = p ++ [d]) :
    takeBytes (byteSize p) text = p := by
  have htext := before_append_after text c
  rw [h, List.append_assoc] at htext
  exact takeBytes_of_eq_append htext.symm

theorem backspace_eq_none (h : before text c = []) : backspace text c = none := by
  rw [backspace, previous?_eq_none h]

theorem backspace_eq {p : List Char} {d : Char} (h : before text c = p ++ [d]) :
    backspace text c = some (p ++ after text c, Cursor.atEnd p) := by
  simp only [backspace, previous?_eq_some h, takeBytes_of_before h, Cursor.atOffset_append]

theorem delete_eq_none (h : after text c = []) : delete text c = none := by
  rw [delete, h]

theorem delete_eq {d : Char} {rest : List Char} (h : after text c = d :: rest) :
    delete text c = some (before text c ++ rest, Cursor.atEnd (before text c)) := by
  simp only [delete, h, offset_eq_byteSize_before, Cursor.atOffset_append]

theorem moveLeft_eq_clamp (h : before text c = []) : moveLeft text c = c.clamp text := by
  rw [moveLeft, previous?_eq_none h]

theorem moveLeft_eq {p : List Char} {d : Char} (h : before text c = p ++ [d]) :
    moveLeft text c = Cursor.atEnd p := by
  simp only [moveLeft, previous?_eq_some h, Cursor.atOffset, takeBytes_of_before h]

theorem moveRight_eq_clamp (h : after text c = []) : moveRight text c = c.clamp text := by
  rw [moveRight, h]

theorem moveRight_eq {d : Char} {rest : List Char} (h : after text c = d :: rest) :
    moveRight text c = Cursor.atEnd (before text c ++ [d]) := by
  have hoff : c.offset text + d.utf8Size = byteSize (before text c ++ [d]) := by
    rw [offset_eq_byteSize_before, byteSize_append, byteSize_cons, byteSize_nil]
    omega
  have htext : text = (before text c ++ [d]) ++ rest := by
    rw [List.append_assoc, List.singleton_append, ← h, before_append_after]
  simp only [moveRight, h, hoff, Cursor.atOffset, takeBytes_of_eq_append htext]

end Edit
end JsxView
