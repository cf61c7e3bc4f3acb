import JsxView.Proofs.LineEdit
import JsxView.Proofs.ValidCursor
/-!
# CursorOffset — cursors and offsets name the same places

An offset is the bytes of the lines above with their breaks and the bytes of the column; a cursor is found from an
offset by taking the lines apart again.  Both lead to the same text before them, so between the cuts of a text and its
valid cursors they are inverse (`offset_atOffset`, `atOffset_offset`), and since a line with its break ends before the
next line begins (`lineStart_succ`) they keep the order of reading (`offset_lt_offset_iff`).

Edits and moves ask for the place only, so they do not tell a cursor from the clamped one.
-/
namespace JsxView

namespace Cursor

variable {text : List Char} {c d : Cursor}

/-! ## There and back -/

@[simp] theorem clamp_clamp (text : List Char) (c : Cursor) : (c.clamp text).clamp text = c.clamp text :=
  (valid_clamp text c).clamp_eq

@[simp] theorem offset_clamp (text : List Char) (c : Cursor) : (c.clamp text).offset text = c.offset text := by
  simp [offset]

theorem isCut_offset (text : List Char) (c : Cursor) : IsCut text (c.offset text) := by
  have h := isCut_append (Edit.before text c) (Edit.after text c)
  rwa [Edit.before_append_after, ← Edit.offset_eq_byteSize_before] at h

/-- **From a cursor to its offset and back** leads to the clamped cursor. -/
theorem atOffset_offset (text : List Char) (c : Cursor) : atOffset text (c.offset text) = c.clamp text :=
  LineEdit.atEnd_before text c

/-- **From an offset to its cursor and back** leads to the same offset, where it is a cut. -/
theorem offset_atOffset {n : Nat} (h : IsCut text n) : (atOffset text n).offset text = n := by
  have hbefore := Edit.before_atEnd (takeBytes n text) (dropBytes n text)
  rw [takeBytes_append_dropBytes] at hbefore
  rw [Edit.offset_eq_byteSize_before, atOffset, hbefore]
  exact h

/-! ## The order of reading -/

/-- The order of cursors: by their lines, and in one line by their columns. -/
def Before (c d : Cursor) : Prop :=
  c.line < d.line ∨ c.line = d.line ∧ c.col < d.col

instance (c d : Cursor) : Decidable (c.Before d) :=
  inferInstanceAs (Decidable (_ ∨ _))

theorem eq_or_before (c d : Cursor) : c = d ∨ c.Before d ∨ d.Before c := by
  obtain ⟨i, a⟩ := c
  obtain ⟨j, b⟩ := d
  simp only [Before, mk.injEq]
  omega

theorem lineStart_succ {i : Nat} (hi : i < lineCount text) :
    lineStart text (i + 1) = lineStart text i + (byteSize (lineAt text i) + 1) := by
  have hbreak : ('\n' : Char).utf8Size = 1 := rfl
  have htake : (linesOf text).take (i + 1) = (linesOf text).take i ++ [lineAt text i] := LineEdit.take_succ_eq text hi
  rw [lineStart_eq, lineStart_eq, htake, closedLines_append, byteSize_append, closedLines_singleton, byteSize_append,
    byteSize_cons, byteSize_nil, hbreak]

theorem lineStart_le {i j : Nat} (hij : i ≤ j) : lineStart text i ≤ lineStart text j := by
  have hsplit := List.take_append_drop i ((linesOf text).take j)
  rw [List.take_take, Nat.min_eq_left hij] at hsplit
  rw [lineStart_eq, lineStart_eq, ← hsplit, closedLines_append, byteSize_append]
  exact Nat.le_add_right _ _

theorem Valid.offset_eq (h : c.Valid text) : c.offset text = lineStart text c.line + c.col := by
  rw [offset, h.clamp_eq]

theorem offset_lt_offset (hc : c.Valid text) (hd : d.Valid text) (h : c.Before d) : c.offset text < d.offset text := by
  rw [hc.offset_eq, hd.offset_eq]
  rcases h with hline | ⟨hline, hcol⟩
  · have hcol := hc.col.le
    have hnext := lineStart_succ hc.line
    have hle : lineStart text (c.line + 1) ≤ lineStart text d.line := lineStart_le hline
    omega
  · rw [hline]
    omega

/-- **Offsets keep the order of cursors.** -/
theorem offset_lt_offset_iff (hc : c.Valid text) (hd : d.Valid text) :
    c.Before d ↔ c.offset text < d.offset text := by
  refine ⟨offset_lt_offset hc hd, fun h => ?_⟩
  rcases eq_or_before c d with rfl | hbefore | hbehind
  · exact absurd h (Nat.lt_irrefl _)
  · exact hbefore
  · exact absurd h (Nat.lt_asymm (offset_lt_offset hd hc hbehind))

end Cursor

/-! ## Cursors that are not valid -/

namespace Edit

variable (text : List Char) (c : Cursor)

@[simp] theorem before_clamp : before text (c.clamp text) = before text c := by
  simp [before]

@[simp] theorem after_clamp : after text (c.clamp text) = after text c := by
  simp [after]

@[simp] theorem previous?_clamp : previous? text (c.clamp text) = previous? text c := by
  simp [previous?]

@[simp] theorem insert_clamp (s : List Char) : insert text (c.clamp text) s = insert text c s := by
  simp [insert]

@[simp] theorem backspace_clamp : backspace text (c.clamp text) = backspace text c := by
  simp [backspace]

@[simp] theorem delete_clamp : delete text (c.clamp text) = delete text c := by
  simp [delete]

@[simp] theorem moveLeft_clamp : moveLeft text (c.clamp text) = moveLeft text c := by
  simp [moveLeft]

@[simp] theorem moveRight_clamp : moveRight text (c.clamp text) = moveRight text c := by
  simp [moveRight]

/-- **Cursors and the cuts of a text correspond one to one.**  The cursor of a cut is valid and leads back to it, and
every cursor leads to a cut and back to where clamping takes it, which is itself just if it is valid.  Of valid cursors
the one that comes first in the order of lines and columns has the smaller offset.  And every edit and every move gives
at a cursor what it gives at the clamped one. -/
theorem cursors_are_offsets (text : List Char) :
    (∀ n, IsCut text n → (Cursor.atOffset text n).Valid text ∧ (Cursor.atOffset text n).offset text = n) ∧
    (∀ c : Cursor, Cursor.atOffset text (c.offset text) = c.clamp text ∧
      IsCut text (c.offset text) ∧ c.offset text ≤ byteSize text ∧
      (c.clamp text).clamp text = c.clamp text ∧ (c.clamp text = c ↔ c.Valid text)) ∧
    (∀ c d : Cursor, c.Valid text → d.Valid text → (c.Before d ↔ c.offset text < d.offset text)) ∧
    ∀ c : Cursor, let here := c.clamp text
      (∀ s, insert text c s = insert text here s) ∧
      backspace text c = backspace text here ∧ delete text c = delete text here ∧
      moveLeft text c = moveLeft text here ∧ moveRight text c = moveRight text here ∧
      (∀ n, moveUp text c n = moveUp text here n ∧ moveDown text c n = moveDown text here n) ∧
      lineEnd text c = lineEnd text here := by
  refine ⟨fun n hn => ⟨Cursor.valid_atOffset text n, Cursor.offset_atOffset hn⟩, fun c => ?_,
    fun c d => Cursor.offset_lt_offset_iff, fun c => ?_⟩
  · have hcut := Cursor.isCut_offset text c
    exact ⟨Cursor.atOffset_offset text c, hcut, hcut.le, Cursor.clamp_clamp text c, Cursor.clamp_eq_self_iff⟩
  · intro here
    refine ⟨fun s => (insert_clamp text c s).symm, (backspace_clamp text c).symm, (delete_clamp text c).symm,
      (moveLeft_clamp text c).symm, (moveRight_clamp text c).symm, fun n => ⟨?_, ?_⟩, ?_⟩
    · simp [here, moveUp]
    · simp [here, moveDown]
    · simp [here, lineEnd]

/-- The place behind a two-byte character and its line's break, and two cursors on either side of that break. -/
theorem cursors_are_offsets_around_break :
    (IsCut "é\nab".toList 3 ∧ (Cursor.atOffset "é\nab".toList 3).Valid "é\nab".toList ∧
      (Cursor.atOffset "é\nab".toList 3).offset "é\nab".toList = 3) ∧
    (Cursor.mk 0 2).Valid "é\nab".toList ∧ (Cursor.mk 1 0).Valid "é\nab".toList ∧
    ((Cursor.mk 0 2).Before ⟨1, 0⟩ ↔ (Cursor.mk 0 2).offset "é\nab".toList < (Cursor.mk 1 0).offset "é\nab".toList) := by
  have hcut : IsCut "é\nab".toList 3 := rfl
  have hc : (Cursor.mk 0 2).Valid "é\nab".toList := Cursor.clamp_eq_self_iff.1 (by decide)
  have hd : (Cursor.mk 1 0).Valid "é\nab".toList := Cursor.clamp_eq_self_iff.1 (by decide)
  obtain ⟨hback, -, horder, -⟩ := cursors_are_offsets "é\nab".toList
  exact ⟨⟨hcut, hback 3 hcut⟩, hc, hd, horder ⟨0, 2⟩ ⟨1, 0⟩ hc hd⟩

end Edit
end JsxView
