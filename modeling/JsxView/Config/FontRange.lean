/-!
# Font sizes

A font size is a 16-bit number inside a range.  Requests for a size are 64-bit numbers of
either sign; a request outside the range gives the nearer bound, and a step that would
leave the 64-bit numbers stops at their border.
-/
namespace JsxView

structure FontRange where
  min : UInt16 := 10
  max : UInt16 := 20
  deriving DecidableEq, Repr, Inhabited

def requestOf (size : UInt16) : Int64 :=
  Int64.ofNat size.toNat

/-- The sum of two requests, held at the border where it would leave the 64-bit numbers. -/
def addSaturating (a b : Int64) : Int64 :=
  let sum := a.toInt + b.toInt
  if sum < Int64.minValue.toInt then Int64.minValue
  else if Int64.maxValue.toInt < sum then Int64.maxValue
  else Int64.ofInt sum

namespace FontRange

/-- The range between two sizes, whichever is the smaller. -/
def between (a b : UInt16) : FontRange :=
  if a ≤ b then ⟨a, b⟩ else ⟨b, a⟩

/-- The size of the range that is nearest to a request. -/
def clamp (range : FontRange) (size : Int64) : UInt16 :=
  if size < requestOf range.min then range.min
  else if requestOf range.max < size then range.max
  else UInt16.ofNat size.toInt.toNat

def step (range : FontRange) (size : UInt16) (delta : Int64) : UInt16 :=
  range.clamp (addSaturating (requestOf size) delta)

end FontRange

end JsxView
