import JsxView.Proofs.Edit
import JsxView.Proofs.TokenTree
/-!
# ValidCursor — cursors that need no clamping

A cursor is valid in a text when its line exists and its column ends between two characters of that line, which is to
say that clamping leaves it alone (`clamp_eq_self_iff`).  The end of what stands before some place of a text is a valid
cursor (`valid_atEnd_append`), so whatever an edit or a move answers is valid in the text that it leaves behind.
-/
namespace JsxView

/-- A line put before a text becomes the beginning of its first line. -/
theorem linesOf_append_of_not_mem (y : List Char) : ∀ {l : List Char}, '\n' ∉ l →
    linesOf (l ++ y) = (linesOf y).modifyHead (l ++ ·)
  | [], _ => by
    show linesOf y = (linesOf y).modifyHead id
    rw [List.modifyHead_id, id]
  | c :: l, h => by
    have hc : c ≠ '\n' := fun hc => h (hc ▸ List.mem_cons_self)
    have ih := linesOf_append_of_not_mem y fun hmem => h (List.mem_cons_of_mem _ hmem)
    unfold linesOf at ih ⊢
    rw [List.cons_append, List.splitOn_cons_eq_if_modifyHead, if_neg (by simpa using hc), ih,
      List.modifyHead_modifyHead]
    rfl

/-- A text is closed lines and a last line. -/
theorem exists_last_line (x : List Char) :
    ∃ above l, x = closedLines above ++ l ∧ (∀ m ∈ above, '\n' ∉ m) ∧ '\n' ∉ l := by
  have hlast : lineCount x - 1 < lineCount x := Nat.sub_lt (lineCount_pos x) Nat.one_pos
  have hbelow : (linesOf x).drop (lineCount x - 1 + 1) = [] :=
    List.drop_eq_nil_of_le (show (linesOf x).length ≤ (linesOf x).length - 1 + 1 by omega)
  have hx := text_eq_around hlast
  rw [hbelow, openedLines_nil, List.append_nil] at hx
  exact ⟨_, _, hx, fun m hm => not_mem_of_mem_linesOf (List.mem_of_mem_take hm), not_mem_lineAt _ _⟩

/-- Where a text goes on, its last line becomes the beginning of a line of the whole. -/
theorem exists_lines_append (x y : List Char) : ∃ above l first, Cursor.atEnd x = ⟨above.length, byteSize l⟩ ∧
    x = closedLines above ++ l ∧ (linesOf (x ++ y)).take above.length = above ∧
    above.length < lineCount (x ++ y) ∧ lineAt (x ++ y) above.length = l ++ first := by
  obtain ⟨above, l, rfl, habove, hl⟩ := exists_last_line x
  obtain ⟨first, rest, hy⟩ := List.exists_cons_of_ne_nil (linesOf_ne_nil y)
  have hlines : linesOf (closedLines above ++ l ++ y) = above ++ (l ++ first) :: rest := by
    rw [List.append_assoc, linesOf_closedLines_append _ habove, linesOf_append_of_not_mem y hl, hy,
      List.modifyHead_cons]
  refine ⟨above, l, first, Cursor.atEnd_closedLines_of_not_mem habove hl, rfl, ?_, ?_, ?_⟩
  · rw [hlines, List.take_left]
  · rw [lineCount, hlines, List.length_append, List.length_cons]
    omega
  · rw [lineAt, hlines, List.getD_eq_getElem?_getD, List.getElem?_append_right (Nat.le_refl _), Nat.sub_self]
    rfl

namespace Cursor

/-- **A cursor that fits a text**: its line exists, and its column ends between two characters of the line. -/
structure Valid (text : List Char) (c : Cursor) : Prop where
  line : c.line < lineCount text
  col : IsCut (lineAt text c.line) c.col

variable {text : List Char} {c : Cursor}

theorem valid_clamp (text : List Char) (c : Cursor) : (c.clamp text).Valid text :=
  ⟨line_clamp_lt text c, byteSize_takeBytes_clamp text c⟩

theorem Valid.clamp_eq (h : c.Valid text) : c.clamp text = c := by
  obtain ⟨i, b⟩ := c
  have hline : i < lineCount text := h.line
  have hcol : byteSize (takeBytes b (lineAt text i)) = b := h.col
  have hmin : min i (lineCount text - 1) = i := by omega
  simp only [clamp, hmin, hcol]

/-- **Clamping leaves a cursor alone exactly when it fits the text.** -/
theorem clamp_eq_self_iff : c.clamp text = c ↔ c.Valid text := by
  constructor
  · intro h
    rw [← h]
    exact valid_clamp text c
  · exact Valid.clamp_eq

/-- **The end of what stands before a place of a text is a cursor in the text.** -/
theorem valid_atEnd_append (x y : List Char) : (atEnd x).Valid (x ++ y) := by
  obtain ⟨above, l, first, hend, -, -, hline, hlast⟩ := exists_lines_append x y
  rw [hend]
  refine ⟨hline, ?_⟩
  show IsCut (lineAt (x ++ y) above.length) (byteSize l)
  rw [hlast]
  exact isCut_append l first

theorem valid_atOffset (text : List Char) (n : Nat) : (atOffset text n).Valid text := by
  have h := valid_atEnd_append (takeBytes n text) (dropBytes n text)
  rwa [takeBytes_append_dropBytes] at h

end Cursor

/-! ## What edits and moves answer -/

namespace Edit

open Cursor (Valid)

/-- **A cursor stands at the end of what is before it.** -/
theorem before_atEnd (x y : List Char) : before (x ++ y) (Cursor.atEnd x) = x := by
  have hvalid := Cursor.valid_atEnd_append x y
  obtain ⟨above, l, first, hend, hx, habove, -, hlast⟩ := exists_lines_append x y
  rw [before_eq, hvalid.clamp_eq, hend, habove, hlast, takeBytes_byteSize, ← hx]

theorem after_atEnd (x y : List Char) : after (x ++ y) (Cursor.atEnd x) = y := by
  have h := before_append_after (x ++ y) (Cursor.atEnd x)
  rw [before_atEnd] at h
  exact List.append_cancel_left h

variable (text : List Char) (c : Cursor)

theorem valid_insert (s : List Char) : (insert text c s).2.Valid (insert text c s).1 :=
  Cursor.valid_atOffset _ _

theorem valid_backspace {edited : List Char × Cursor} (h : backspace text c = some edited) :
    edited.2.Valid edited.1 := by
  unfold backspace at h
  split at h
  · cases h
    exact Cursor.valid_atOffset _ _
  · cases h

theorem valid_delete {edited : List Char × Cursor} (h : delete text c = some edited) : edited.2.Valid edited.1 := by
  unfold delete at h
  split at h
  · cases h
    exact Cursor.valid_atOffset _ _
  · cases h

theorem valid_moveLeft : (moveLeft text c).Valid text := by
  unfold moveLeft
  split
  · exact Cursor.valid_atOffset _ _
  · exact Cursor.valid_clamp _ _

theorem valid_moveRight : (moveRight text c).Valid text := by
  unfold moveRight
  split
  · exact Cursor.valid_atOffset _ _
  · exact Cursor.valid_clamp _ _

theorem valid_moveUp (lines : Nat) : (moveUp text c lines).Valid text :=
  Cursor.valid_clamp _ _

theorem valid_moveDown (lines : Nat) : (moveDown text c lines).Valid text :=
  Cursor.valid_clamp _ _

/-- The start of the line is valid only where the cursor was: the line itself is not looked up. -/
theorem valid_lineStart {text : List Char} {c : Cursor} (h : c.Valid text) : (lineStart c).Valid text :=
  ⟨h.line, isCut_zero _⟩

theorem valid_lineEnd : (lineEnd text c).Valid text :=
  ⟨Cursor.line_clamp_lt text c, isCut_byteSize _⟩

end Edit
end JsxView
