import JsxView.Proofs.CursorOffset
import JsxView.Proofs.Typing
/-!
# EditCancel — edits that take each other back

A text with a cursor in it is two texts, the one before the cursor and the one behind it (`Edit.between`), and every
cursor stands so in its text (`Edit.between_before_after`).  An insertion makes the first of them longer, a backspace
takes its last character away and a deletion the first character of the second, while a step only hands a character
over from one to the other.  So what an insertion put in, as many backspaces or deletions take out again, and a
backspace is a step to the left with a deletion behind it.

In a session the pin has to come back too: the line that it names is there before and after, and typing takes no line
away in between (`Session.takenBack_put`).
-/
namespace JsxView

namespace Edit

/-- Two texts one behind the other, with the cursor between them. -/
def between (p q : List Char) : List Char × Cursor :=
  (p ++ q, Cursor.atEnd p)

/-- An edit made a number of times, each time on what it left behind, if it can be made so often. -/
def times (edit : List Char → Cursor → Option (List Char × Cursor)) :
    Nat → List Char × Cursor → Option (List Char × Cursor)
  | 0, here => some here
  | n + 1, here => (edit here.1 here.2).bind (times edit n)

theorem times_one (edit : List Char → Cursor → Option (List Char × Cursor)) (here : List Char × Cursor) :
    times edit 1 here = edit here.1 here.2 := by
  rw [times]
  cases edit here.1 here.2 <;> rfl

/-! ## One character -/

theorem between_before_after (text : List Char) (c : Cursor) :
    between (before text c) (after text c) = (text, c.clamp text) := by
  rw [between, before_append_after, LineEdit.atEnd_before]

theorem backspace_between (p : List Char) (d : Char) (q : List Char) :
    backspace (p ++ d :: q) (Cursor.atEnd (p ++ [d])) = some (between p q) := by
  rw [List.append_cons, backspace_eq (before_atEnd (p ++ [d]) q), after_atEnd]
  rfl

theorem delete_between (p : List Char) (d : Char) (q : List Char) :
    delete (p ++ d :: q) (Cursor.atEnd p) = some (between p q) := by
  rw [delete_eq (after_atEnd p (d :: q)), before_atEnd]
  rfl

theorem moveLeft_between (p : List Char) (d : Char) (q : List Char) :
    moveLeft (p ++ d :: q) (Cursor.atEnd (p ++ [d])) = Cursor.atEnd p := by
  rw [List.append_cons, moveLeft_eq (before_atEnd (p ++ [d]) q)]

theorem moveRight_between (p : List Char) (d : Char) (q : List Char) :
    moveRight (p ++ d :: q) (Cursor.atEnd p) = Cursor.atEnd (p ++ [d]) := by
  rw [moveRight_eq (after_atEnd p (d :: q)), before_atEnd]

/-! ## Many characters -/

theorem times_backspace (p q : List Char) : ∀ (n : Nat) (s : List Char), s.length = n →
    times backspace n (between (p ++ s) q) = some (between p q)
  | 0, s, hlen => by rw [List.length_eq_zero_iff.1 hlen, List.append_nil, times]
  | n + 1, s, hlen => by
    rcases List.eq_nil_or_concat s with rfl | ⟨s, d, rfl⟩
    · cases hlen
    · rw [List.concat_eq_append] at hlen ⊢
      -- the last character goes first
      have hstep := backspace_between (p ++ s) d q
      rw [List.append_cons, List.append_assoc p] at hstep
      rw [times]
      show (backspace (p ++ (s ++ [d]) ++ q) (Cursor.atEnd (p ++ (s ++ [d])))).bind _ = _
      rw [hstep, Option.bind_some]
      exact times_backspace p q n s (by simpa using hlen)

theorem times_delete (p q : List Char) : ∀ s : List Char,
    times delete s.length (between p (s ++ q)) = some (between p q)
  | [] => rfl
  | d :: s => by
    have hstep := delete_between p d (s ++ q)
    rw [List.length_cons, times]
    show (delete (p ++ d :: (s ++ q)) (Cursor.atEnd p)).bind _ = _
    rw [hstep, Option.bind_some]
    exact times_delete p q s

/-- **Backspaces take an insertion back**, one for each of its characters. -/
theorem times_backspace_insert (text : List Char) (c : Cursor) (s : List Char) :
    times backspace s.length (insert text c s) = some (text, c.clamp text) := by
  rw [insert_eq, ← between_before_after]
  exact times_backspace (before text c) (after text c) s.length s rfl

/-- **Deletions take an insertion back** from the place where it was made. -/
theorem times_delete_insert (text : List Char) (c : Cursor) (s : List Char) :
    times delete s.length ((insert text c s).1, c.clamp text) = some (text, c.clamp text) := by
  rw [insert_eq, ← between_before_after, ← LineEdit.atEnd_before, List.append_assoc]
  exact times_delete (before text c) (after text c) s

/-! ## The characters next to the cursor -/

variable {text : List Char} {c : Cursor}

theorem exists_char_before (h : 0 < c.offset text) :
    ∃ p d q, text = p ++ d :: q ∧ c.clamp text = Cursor.atEnd (p ++ [d]) := by
  rcases List.eq_nil_or_concat (before text c) with hnil | ⟨p, d, hbefore⟩
  · rw [offset_eq_byteSize_before, hnil] at h
    exact absurd h (Nat.lt_irrefl 0)
  · rw [List.concat_eq_append] at hbefore
    refine ⟨p, d, after text c, ?_, ?_⟩
    · rw [List.append_cons, ← hbefore, before_append_after]
    · rw [← hbefore, LineEdit.atEnd_before]

theorem exists_char_behind (h : c.offset text < byteSize text) :
    ∃ p d q, text = p ++ d :: q ∧ c.clamp text = Cursor.atEnd p := by
  cases hafter : after text c with
  | nil =>
    have htext := before_append_after text c
    rw [hafter, List.append_nil] at htext
    rw [offset_eq_byteSize_before, htext] at h
    exact absurd h (Nat.lt_irrefl _)
  | cons d q =>
    refine ⟨before text c, d, q, ?_, (LineEdit.atEnd_before text c).symm⟩
    rw [← hafter, before_append_after]

theorem backspace_eq_delete_moveLeft (h : 0 < c.offset text) :
    backspace text c = delete text (moveLeft text c) ∧ moveRight text (moveLeft text c) = c.clamp text := by
  obtain ⟨p, d, q, rfl, hclamp⟩ := exists_char_before h
  rw [← backspace_clamp, ← moveLeft_clamp, hclamp, moveLeft_between, backspace_between, delete_between,
    moveRight_between]
  exact ⟨rfl, rfl⟩

theorem delete_eq_backspace_moveRight (h : c.offset text < byteSize text) :
    delete text c = backspace text (moveRight text c) ∧ moveLeft text (moveRight text c) = c.clamp text := by
  obtain ⟨p, d, q, rfl, hclamp⟩ := exists_char_behind h
  rw [← delete_clamp, ← moveRight_clamp, hclamp, moveRight_between, delete_between, backspace_between,
    moveLeft_between]
  exact ⟨rfl, rfl⟩

end Edit

/-! ## Sessions -/

namespace Session

/-- **A command that a backspace takes back**: text, cursor and pin are as they were, on whatever screens the two are
handled. -/
def TakenBack (s : Session) (command : Command) : Prop :=
  ∀ (first second : Reply) (layout layout' : Layout),
    let back := ((s.handle first layout command).1.handle second layout' .backspace).1
    back.view.text = s.view.text ∧ back.cursor = s.cursor ∧ back.view.pinned = s.view.pinned

variable {s : Session}

theorem takenBack_put (h : s.InPlace) {command : Command} (c : Char)
    (hput : ∀ (reply : Reply) (layout : Layout), (s.handle reply layout command).1 = s.put layout [c]) :
    s.TakenBack command := by
  intro first second layout layout' back
  have hedit : Edit.backspace (s.put layout [c]).view.text (s.put layout [c]).cursor =
      some (s.view.text, s.cursor) := by
    have hback := Edit.times_backspace_insert s.view.text s.cursor [c]
    rwa [h.cursor.clamp_eq, List.length_singleton, Edit.times_one] at hback
  have hback : back = ((s.put layout [c]).edit (s.view.text, s.cursor)).scroll layout' := by
    show ((s.handle first layout command).1.handle second layout' .backspace).1 = _
    rw [hput]
    show ((s.put layout [c]).edit? (Edit.backspace (s.put layout [c]).view.text (s.put layout [c]).cursor)).scroll
      layout' = _
    rw [hedit]
    rfl
  rw [hback]
  refine ⟨rfl, rfl, ?_⟩
  have hpinned : (s.edit (s.view.text, s.cursor)).view.pinned = s.view.pinned := h.pinned_edit (Nat.le_refl _)
  show (s.put layout [c]).view.pinned.filter (· < lineCount s.view.text) = s.view.pinned
  rw [pinned_put h]
  exact hpinned

end Session

/-- **Edits cancel.**  As many backspaces as an insertion has characters take it back, and so do as many deletions from
where it began: the text is what it was and the cursor what it was, clamped.  A character away from the start a
backspace is a step to the left and a deletion, and away from the end a deletion is a step to the right and a backspace;
a step and the one back lead to the clamped cursor.  And wherever a run of commands leads, a character or a line break
typed and a backspace leave text, cursor and pin as they were. -/
theorem edits_cancel :
    (∀ (text : List Char) (c : Cursor),
      (∀ s, Edit.times Edit.backspace s.length (Edit.insert text c s) = some (text, c.clamp text) ∧
        Edit.times Edit.delete s.length ((Edit.insert text c s).1, c.clamp text) = some (text, c.clamp text)) ∧
      (0 < c.offset text → Edit.backspace text c = Edit.delete text (Edit.moveLeft text c) ∧
        Edit.moveRight text (Edit.moveLeft text c) = c.clamp text) ∧
      (c.offset text < byteSize text → Edit.delete text c = Edit.backspace text (Edit.moveRight text c) ∧
        Edit.moveLeft text (Edit.moveRight text c) = c.clamp text)) ∧
    ∀ (text : List Char) (config : Config) (turns : List Session.Turn),
      let s := (Session.start text config).after turns
      (∀ c, s.TakenBack (.insert c)) ∧ s.TakenBack .newline := by
  refine ⟨fun text c => ⟨fun s => ?_, Edit.backspace_eq_delete_moveLeft, Edit.delete_eq_backspace_moveRight⟩,
    fun text config turns => ?_⟩
  · exact ⟨Edit.times_backspace_insert text c s, Edit.times_delete_insert text c s⟩
  · have h := Session.inPlace_after (Session.inPlace_start text config) turns
    exact ⟨fun c => Session.takenBack_put h c fun _ _ => rfl, Session.takenBack_put h '\n' fun _ _ => rfl⟩

/-- A cursor that is not valid, at the end of a line: behind it is the line's break, before it a two-byte character. -/
theorem edits_cancel_at_break :
    0 < (Cursor.mk 0 9).offset "é\nab".toList ∧ (Cursor.mk 0 9).offset "é\nab".toList < byteSize "é\nab".toList ∧
    Edit.backspace "é\nab".toList ⟨0, 9⟩ = Edit.delete "é\nab".toList (Edit.moveLeft "é\nab".toList ⟨0, 9⟩) ∧
    Edit.delete "é\nab".toList ⟨0, 9⟩ = Edit.backspace "é\nab".toList (Edit.moveRight "é\nab".toList ⟨0, 9⟩) := by
  obtain ⟨-, hleft, hright⟩ := edits_cancel.1 "é\nab".toList ⟨0, 9⟩
  exact ⟨by decide, by decide, (hleft (by decide)).1, (hright (by decide)).1⟩

end JsxView
