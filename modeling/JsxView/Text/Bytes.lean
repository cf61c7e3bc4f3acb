/-!
# Positions counted in UTF-8 bytes

A text is a list of characters.  Cursors, tokens and spans name places in it by the
number of UTF-8 bytes before them, so every cut below is asked for in bytes and made
between characters: `takeBytes n` keeps the longest run of whole characters that fits
into `n` bytes, `dropBytes n` is what it leaves (`takeBytes_append_dropBytes`), and a
cut that would fall inside a character falls before it.
-/
namespace JsxView

/-- The size of a text in UTF-8 bytes. -/
def byteSize : List Char → Nat
  | [] => 0
  | c :: rest => c.utf8Size + byteSize rest

/-- The whole characters that fit into the first `n` bytes. -/
def takeBytes : Nat → List Char → List Char
  | _, [] => []
  | n, c :: rest => if c.utf8Size ≤ n then c :: takeBytes (n - c.utf8Size) rest else []

/-- What is left behind the whole characters that fit into the first `n` bytes. -/
def dropBytes : Nat → List Char → List Char
  | _, [] => []
  | n, c :: rest => if c.utf8Size ≤ n then dropBytes (n - c.utf8Size) rest else c :: rest

@[simp] theorem byteSize_nil : byteSize [] = 0 := rfl

@[simp] theorem byteSize_cons (c : Char) (rest : List Char) :
    byteSize (c :: rest) = c.utf8Size + byteSize rest := rfl

@[simp] theorem byteSize_append (a b : List Char) :
    byteSize (a ++ b) = byteSize a + byteSize b := by
  induction a with
  | nil => simp
  | cons c rest ih => simp [ih, Nat.add_assoc]

@[simp] theorem takeBytes_append_dropBytes (n : Nat) (t : List Char) :
    takeBytes n t ++ dropBytes n t = t := by
  induction t generalizing n with
  | nil => rfl
  | cons c rest ih =>
    by_cases h : c.utf8Size ≤ n
    · simp [takeBytes, dropBytes, h, ih]
    · simp [takeBytes, dropBytes, h]

end JsxView
