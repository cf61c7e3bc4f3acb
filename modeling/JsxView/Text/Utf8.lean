/-!
# UTF-8

Files hold bytes.  `encodeUtf8` and `decodeUtf8?` lead from text to bytes and back, the
latter refusing bytes that are no UTF-8; `decodeUtf8Lossy` reads such bytes too and puts
U+FFFD in place of every longest run of them that could have begun a character.
-/
namespace JsxView

def encodeUtf8 (text : List Char) : List UInt8 :=
  text.flatMap String.utf8EncodeChar

def isTail (b : UInt8) : Bool :=
  0x80 ≤ b && b ≤ 0xbf

/-- The number of bytes behind a first byte and the range that the second byte has to lie
in, none for a byte that begins no character. -/
def tailsOf (b : UInt8) : Option (Nat × UInt8 × UInt8) :=
  if b < 0x80 then some (0, 0x80, 0xbf)
  else if b < 0xc2 then none
  else if b < 0xe0 then some (1, 0x80, 0xbf)
  else if b = 0xe0 then some (2, 0xa0, 0xbf)
  else if b = 0xed then some (2, 0x80, 0x9f)
  else if b < 0xf0 then some (2, 0x80, 0xbf)
  else if b = 0xf0 then some (3, 0x90, 0xbf)
  else if b < 0xf4 then some (3, 0x80, 0xbf)
  else if b = 0xf4 then some (3, 0x80, 0x8f)
  else none

/-- The bytes that may continue a character, at most `n` of them, the first of them in the
given range. -/
def takeTails (n : Nat) (low high : UInt8) : List UInt8 → List UInt8
  | [] => []
  | b :: rest =>
    match n with
    | 0 => []
    | n + 1 => if low ≤ b && b ≤ high then b :: (rest.take n).takeWhile isTail else []

def codePoint (first : UInt8) (tails : List UInt8) : Nat :=
  let lead := match tails.length with
    | 0 => first.toNat
    | 1 => first.toNat % 0x20
    | 2 => first.toNat % 0x10
    | _ => first.toNat % 0x08
  tails.foldl (fun n b => n * 0x40 + b.toNat % 0x40) lead

/-- What stands at the start of some bytes: a character, or nothing if the bytes begin
none, and the number of bytes behind the first that belong to it. -/
def decodeHead (first : UInt8) (rest : List UInt8) : Option Char × Nat :=
  match tailsOf first with
  | none => (none, 0)
  | some (n, low, high) =>
    let tails := takeTails n low high rest
    if tails.length = n then (some (Char.ofNat (codePoint first tails)), n)
    else (none, tails.length)

/-- The characters of some bytes, none in place of bytes that are no character.  The next
`skip` bytes belong to what was read before them. -/
def decodeFrom : Nat → List UInt8 → List (Option Char)
  | _, [] => []
  | skip + 1, _ :: rest => decodeFrom skip rest
  | 0, b :: rest =>
    let (c, n) := decodeHead b rest
    c :: decodeFrom n rest

def decodeUtf8? (bytes : List UInt8) : Option (List Char) :=
  (decodeFrom 0 bytes).mapM id

/-- The text of some bytes, with U+FFFD in place of what is no UTF-8. -/
def decodeUtf8Lossy (bytes : List UInt8) : List Char :=
  (decodeFrom 0 bytes).map fun c => c.getD '\ufffd'

end JsxView
