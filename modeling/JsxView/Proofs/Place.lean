import JsxView.Proofs.Bytes
import JsxView.Text.Place
/-!
# Place — going from place to place

What `Place.skip` does to the two things a search reads: the text behind the place and the bytes before it.  Every
character has at least one byte, so places further on have more bytes before them until the text ends
(`offset_skip_lt`), and an offset tells two places of one text apart.  Where a text is cut in two there is one place
(`Place.between`).
-/
namespace JsxView

namespace Place

theorem skip_add (p : Place) (m n : Nat) : p.skip (m + n) = (p.skip m).skip n := by
  induction m generalizing p with
  | zero => rw [Nat.zero_add]; rfl
  | succ m ih =>
    rw [show m + 1 + n = (m + n) + 1 by omega]
    exact ih p.next

theorem after_next (p : Place) : p.next.after = p.after.drop 1 := by
  unfold next
  cases h : p.after with
  | nil => exact h
  | cons c rest => rfl

theorem offset_next (p : Place) : p.next.offset = p.offset + byteSize (p.after.take 1) := by
  unfold next
  cases h : p.after with
  | nil => rfl
  | cons c rest => rfl

theorem after_skip (p : Place) (n : Nat) : (p.skip n).after = p.after.drop n := by
  induction n generalizing p with
  | zero => rfl
  | succ n ih =>
    show (p.next.skip n).after = p.after.drop (n + 1)
    rw [ih p.next, after_next, List.drop_drop, Nat.add_comm 1 n]

theorem offset_skip (p : Place) (n : Nat) : (p.skip n).offset = p.offset + byteSize (p.after.take n) := by
  induction n generalizing p with
  | zero => rfl
  | succ n ih =>
    show (p.next.skip n).offset = _
    rw [ih p.next, offset_next, after_next, Nat.add_assoc, ← byteSize_append, ← List.take_add, Nat.add_comm 1 n]

theorem length_after_skip (p : Place) (n : Nat) : (p.skip n).after.length = p.after.length - n := by
  rw [after_skip, List.length_drop]

/-- **Places further on have more bytes before them.** -/
theorem offset_skip_lt (p : Place) {m n : Nat} (hmn : m < n) (hm : m < p.after.length) :
    (p.skip m).offset < (p.skip n).offset := by
  have := byteSize_take_lt p.after hmn hm
  rw [offset_skip, offset_skip]
  omega

theorem offset_skip_le (p : Place) {m n : Nat} (hmn : m ≤ n) : (p.skip m).offset ≤ (p.skip n).offset := by
  rw [← Nat.add_sub_cancel' hmn, skip_add, offset_skip (p.skip m)]
  exact Nat.le_add_right _ _

/-- No place of a text lies behind its end. -/
theorem offset_skip_start_le (text : List Char) (n : Nat) : ((start text).skip n).offset ≤ byteSize text := by
  have hsplit := congrArg byteSize (List.take_append_drop n text)
  rw [byteSize_append] at hsplit
  rw [offset_skip]
  show 0 + byteSize (text.take n) ≤ byteSize text
  omega

theorem offset_skip_lt_iff (p : Place) {m n : Nat} (hm : m < p.after.length) (hn : n < p.after.length) :
    (p.skip m).offset < (p.skip n).offset ↔ m < n := by
  constructor
  · intro h
    rcases Nat.lt_trichotomy m n with hlt | rfl | hgt
    · exact hlt
    · exact absurd h (Nat.lt_irrefl _)
    · exact absurd (offset_skip_lt p hgt hn) (Nat.lt_asymm h)
  · intro h
    exact offset_skip_lt p h hm

/-- The place between two texts. -/
def between (x y : List Char) : Place :=
  ⟨byteSize x, x.getLast?, y⟩

theorem next_between (x : List Char) (c : Char) (rest : List Char) :
    (between x (c :: rest)).next = between (x ++ [c]) rest := by
  simp [between, next]

theorem skip_between : ∀ x w y : List Char, (between x (w ++ y)).skip w.length = between (x ++ w) y
  | x, [], y => by rw [List.append_nil]; rfl
  | x, c :: w, y => by
    have ih := skip_between (x ++ [c]) w y
    rw [List.length_cons, skip, List.cons_append, next_between, ih, ← List.append_cons]

theorem skip_between_take (x : List Char) {y : List Char} {n : Nat} (hn : n ≤ y.length) :
    (between x y).skip n = between (x ++ y.take n) (y.drop n) := by
  have hskip := skip_between x (y.take n) (y.drop n)
  rwa [List.take_append_drop, List.length_take, Nat.min_eq_left hn] at hskip

theorem atByte_append (x y : List Char) : atByte (x ++ y) (byteSize x) = between x y := by
  rw [atByte, takeBytes_byteSize]
  exact skip_between [] x y

end Place

end JsxView
