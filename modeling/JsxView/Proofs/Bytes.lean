import JsxView.Text.Bytes
/-!
# Bytes — cuts between characters

A cut at a number of bytes that ends between two characters takes exactly the characters before it
(`takeBytes_byteSize_add`, `dropBytes_byteSize_add`); any other cut falls back to the last such place.
-/
namespace JsxView

theorem byteSize_pos : ∀ {t : List Char}, t ≠ [] → 0 < byteSize t
  | [], h => absurd rfl h
  | c :: rest, _ => by
    have := c.utf8Size_pos
    rw [byteSize_cons]
    omega

theorem byteSize_eq_zero {t : List Char} : byteSize t = 0 ↔ t = [] := by
  constructor
  · intro h
    refine Classical.byContradiction fun hne => ?_
    have := byteSize_pos hne
    omega
  · rintro rfl
    rfl

/-- **A longer prefix has more bytes**, as long as there are characters to add. -/
theorem byteSize_take_lt (t : List Char) {m n : Nat} (hmn : m < n) (hm : m < t.length) :
    byteSize (t.take m) < byteSize (t.take n) := by
  have hsplit : t.take n = t.take m ++ (t.drop m).take (n - m) := by
    rw [← List.take_add, show m + (n - m) = n by omega]
  have hne : (t.drop m).take (n - m) ≠ [] := by
    intro h
    have := congrArg List.length h
    simp only [List.length_take, List.length_drop, List.length_nil] at this
    omega
  have := byteSize_pos hne
  rw [hsplit, byteSize_append]
  omega

@[simp] theorem takeBytes_zero (t : List Char) : takeBytes 0 t = [] := by
  cases t with
  | nil => rfl
  | cons c rest =>
    have := c.utf8Size_pos
    rw [takeBytes, if_neg (by omega)]

@[simp] theorem dropBytes_zero (t : List Char) : dropBytes 0 t = t := by
  cases t with
  | nil => rfl
  | cons c rest =>
    have := c.utf8Size_pos
    rw [dropBytes, if_neg (by omega)]

theorem takeBytes_byteSize_add (x y : List Char) (n : Nat) :
    takeBytes (byteSize x + n) (x ++ y) = x ++ takeBytes n y := by
  induction x with
  | nil => rw [byteSize_nil, Nat.zero_add, List.nil_append, List.nil_append]
  | cons c x ih =>
    rw [List.cons_append, byteSize_cons, takeBytes, if_pos (by omega), Nat.add_assoc, Nat.add_sub_cancel_left, ih]
    rfl

theorem dropBytes_byteSize_add (x y : List Char) (n : Nat) :
    dropBytes (byteSize x + n) (x ++ y) = dropBytes n y := by
  induction x with
  | nil => rw [byteSize_nil, Nat.zero_add, List.nil_append]
  | cons c x ih =>
    rw [List.cons_append, byteSize_cons, dropBytes, if_pos (by omega), Nat.add_assoc, Nat.add_sub_cancel_left, ih]

@[simp] theorem takeBytes_byteSize (x y : List Char) : takeBytes (byteSize x) (x ++ y) = x := by
  simpa using takeBytes_byteSize_add x y 0

@[simp] theorem dropBytes_byteSize (x y : List Char) : dropBytes (byteSize x) (x ++ y) = y := by
  simpa using dropBytes_byteSize_add x y 0

theorem takeBytes_of_eq_append {t x y : List Char} (h : t = x ++ y) : takeBytes (byteSize x) t = x := by
  rw [h, takeBytes_byteSize]

/-- A cut at the bytes that a cut took is the same cut. -/
theorem takeBytes_byteSize_takeBytes (n : Nat) (t : List Char) :
    takeBytes (byteSize (takeBytes n t)) t = takeBytes n t :=
  takeBytes_of_eq_append (takeBytes_append_dropBytes n t).symm

end JsxView
