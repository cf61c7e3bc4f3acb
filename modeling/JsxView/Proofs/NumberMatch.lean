import JsxView.Proofs.FindAll
/-!
# NumberMatch — where a number ends

The expression for numbers has two loops over digits, an optional point and a border at its end, and backtracking
decides how much of all that a match takes.  `numberEnd?` gives the end outright, by the characters that stand at three
bytes of the text: behind the digits, behind a point, and behind the digits that follow the point.
-/
namespace JsxView

/-- The character that begins at a byte of a text. -/
def charAt (text : List Char) (i : Nat) : Option Char :=
  if IsCut text i then (dropBytes i text).head? else none

def digitAt (text : List Char) (i : Nat) : Bool :=
  (charAt text i).any Char.isDigit

def wordAt (text : List Char) (i : Nat) : Bool :=
  (charAt text i).any isWordChar

/-- Whether the character that ends at a byte of a text is a word character. -/
def wordBefore (text : List Char) (i : Nat) : Bool :=
  (takeBytes i text).getLast?.any isWordChar

/-- Where the run of digits from a byte on ends. -/
def digitsEnd (text : List Char) (i : Nat) : Nat :=
  i + byteSize ((dropBytes i text).takeWhile Char.isDigit)

/-- **Where the number that begins at a byte ends**, if one begins there. -/
def numberEnd? (text : List Char) (s : Nat) : Option Nat :=
  let i := digitsEnd text s
  if !digitAt text s || wordBefore text s || wordAt text i then none
  else if charAt text i = some '.' then
    let j := digitsEnd text (i + 1)
    if i + 1 < j then some (if wordAt text j then i + 1 else j)
    else some (if wordAt text (i + 1) then i + 1 else i)
  else some i

theorem charAt_append (x y : List Char) : charAt (x ++ y) (byteSize x) = y.head? := by
  rw [charAt, if_pos (isCut_append x y), dropBytes_byteSize]

theorem digitAt_append (x y : List Char) : digitAt (x ++ y) (byteSize x) = !(y.takeWhile Char.isDigit).isEmpty := by
  rw [digitAt, charAt_append]
  cases y with
  | nil => rfl
  | cons c y => cases hc : c.isDigit <;> simp [hc]

theorem wordAt_append (x y : List Char) : wordAt (x ++ y) (byteSize x) = startsWord y := by
  rw [wordAt, charAt_append, startsWord]

theorem wordBefore_append (x y : List Char) : wordBefore (x ++ y) (byteSize x) = followsWord x.getLast? := by
  rw [wordBefore, takeBytes_byteSize, followsWord]

theorem digitsEnd_append (x y : List Char) :
    digitsEnd (x ++ y) (byteSize x) = byteSize (x ++ y.takeWhile Char.isDigit) := by
  rw [digitsEnd, dropBytes_byteSize, byteSize_append]

theorem isCut_of_charAt {text : List Char} {i : Nat} {c : Char} (h : charAt text i = some c) : IsCut text i := by
  unfold charAt at h
  split at h
  · assumption
  · cases h

theorem lt_digitsEnd_iff (x y : List Char) :
    byteSize x < digitsEnd (x ++ y) (byteSize x) ↔ (y.takeWhile Char.isDigit).isEmpty = false := by
  rw [digitsEnd_append, byteSize_append, List.isEmpty_eq_false_iff]
  constructor
  · intro hlt hempty
    rw [hempty, byteSize_nil] at hlt
    omega
  · intro hne
    have := byteSize_pos hne
    omega

theorem digitsEnd_split (x rest : List Char) :
    x ++ rest = x ++ rest.takeWhile Char.isDigit ++ rest.dropWhile Char.isDigit := by
  rw [List.append_assoc, List.takeWhile_append_dropWhile]

theorem charAt_digitsEnd (x rest : List Char) :
    charAt (x ++ rest) (digitsEnd (x ++ rest) (byteSize x)) = (rest.dropWhile Char.isDigit).head? := by
  rw [digitsEnd_append, digitsEnd_split x rest, charAt_append]

theorem wordAt_digitsEnd (x rest : List Char) :
    wordAt (x ++ rest) (digitsEnd (x ++ rest) (byteSize x)) = startsWord (rest.dropWhile Char.isDigit) := by
  rw [wordAt, charAt_digitsEnd, startsWord]

theorem startsWord_of_digits {text : List Char} (h : (text.takeWhile Char.isDigit).isEmpty = false) :
    startsWord text = true := by
  cases text with
  | nil => cases h
  | cons c text =>
    refine Regex.isWordChar_of_isDigit (Classical.byContradiction fun hc => ?_)
    rw [List.takeWhile_cons_of_neg hc] at h
    cases h

theorem digitsEnd_succ (x rest : List Char) : digitsEnd (x ++ rest) (byteSize x) + 1 =
    byteSize (x ++ rest.takeWhile Char.isDigit ++ ['.']) := by
  rw [digitsEnd_append, byteSize_append (x ++ _)]
  rfl

theorem byteSize_take_digits (x rest : List Char) :
    byteSize (x ++ rest.take (rest.takeWhile Char.isDigit).length) = digitsEnd (x ++ rest) (byteSize x) := by
  rw [← List.prefix_iff_eq_take.1 (List.takeWhile_prefix Char.isDigit), digitsEnd_append]

/-- No number begins where the text has no digit, or behind a word character, or where a word goes on behind the digits;
a number without a point behind it is its digits. -/
theorem numberEnd?_of_no_point {x rest : List Char} (h : ∀ more, rest.dropWhile Char.isDigit ≠ '.' :: more) :
    numberEnd? (x ++ rest) (byteSize x) =
      (numberPattern x.getLast? rest).map fun n => byteSize (x ++ rest.take n) := by
  have hpoint : (rest.dropWhile Char.isDigit).head? ≠ some '.' := by
    intro hhead
    obtain ⟨more, hmore⟩ := List.head?_eq_some_iff.1 hhead
    exact h more hmore
  rw [Pattern.number_of_no_point h, numberEnd?]
  simp only [digitAt_append, wordBefore_append, wordAt_digitsEnd, charAt_digitsEnd, if_neg hpoint, Bool.not_not]
  cases (rest.takeWhile Char.isDigit).isEmpty || followsWord x.getLast? <;>
    cases startsWord (rest.dropWhile Char.isDigit) <;> simp [-byteSize_append, byteSize_take_digits]

section Point

variable {rest more : List Char} (h : rest.dropWhile Char.isDigit = '.' :: more) (x : List Char)
include h

theorem append_point : rest.takeWhile Char.isDigit ++ ['.'] ++ more = rest := by
  have hrest := List.takeWhile_append_dropWhile (p := Char.isDigit) (l := rest)
  rwa [h, List.append_cons] at hrest

theorem append_fraction :
    rest.takeWhile Char.isDigit ++ ['.'] ++ more.takeWhile Char.isDigit ++ more.dropWhile Char.isDigit = rest := by
  rw [List.append_assoc _ (more.takeWhile _), List.takeWhile_append_dropWhile, append_point h]

theorem point_split : x ++ rest = x ++ rest.takeWhile Char.isDigit ++ ['.'] ++ more := by
  rw [List.append_assoc, List.append_assoc, ← List.append_assoc _ ['.'], append_point h]

theorem wordAt_point : wordAt (x ++ rest) (digitsEnd (x ++ rest) (byteSize x) + 1) = startsWord more := by
  rw [digitsEnd_succ, point_split h, wordAt_append]

theorem wordAt_fraction :
    wordAt (x ++ rest) (digitsEnd (x ++ rest) (digitsEnd (x ++ rest) (byteSize x) + 1)) =
      startsWord (more.dropWhile Char.isDigit) := by
  rw [digitsEnd_succ, point_split h, wordAt_digitsEnd]

theorem lt_fraction_iff :
    digitsEnd (x ++ rest) (byteSize x) + 1 < digitsEnd (x ++ rest) (digitsEnd (x ++ rest) (byteSize x) + 1) ↔
      (more.takeWhile Char.isDigit).isEmpty = false := by
  rw [digitsEnd_succ, point_split h, lt_digitsEnd_iff]

theorem byteSize_take_point : byteSize (x ++ rest.take ((rest.takeWhile Char.isDigit).length + 1)) =
    digitsEnd (x ++ rest) (byteSize x) + 1 := by
  have htake := List.prefix_iff_eq_take.1 ⟨more, append_point h⟩
  rw [List.length_append, List.length_singleton] at htake
  rw [← htake, digitsEnd_succ, List.append_assoc]

theorem byteSize_take_fraction :
    byteSize (x ++ rest.take ((rest.takeWhile Char.isDigit).length + 1 + (more.takeWhile Char.isDigit).length)) =
      digitsEnd (x ++ rest) (digitsEnd (x ++ rest) (byteSize x) + 1) := by
  have htake := List.prefix_iff_eq_take.1 ⟨more.dropWhile Char.isDigit, append_fraction h⟩
  rw [List.length_append, List.length_append, List.length_singleton] at htake
  rw [← htake, digitsEnd_succ, point_split h, digitsEnd_append]
  simp only [List.append_assoc]

/-- Of a number with a point behind it the ends are counted from the point. -/
theorem numberEnd?_of_point : numberEnd? (x ++ rest) (byteSize x) =
    (numberPattern x.getLast? rest).map fun n => byteSize (x ++ rest.take n) := by
  have hpoint : (rest.dropWhile Char.isDigit).head? = some '.' := by rw [h]; rfl
  have hdot : startsWord (rest.dropWhile Char.isDigit) = false := by rw [h]; rfl
  rw [Regex.number_of_point h, numberEnd?]
  simp only [digitAt_append, wordBefore_append, charAt_digitsEnd, hpoint, wordAt_digitsEnd, hdot, lt_fraction_iff h,
    wordAt_fraction h, wordAt_point h, Bool.not_not, Bool.or_false, if_true]
  by_cases hstart : ((rest.takeWhile Char.isDigit).isEmpty || followsWord x.getLast?) = true
  · rw [if_pos hstart, if_pos hstart]
    rfl
  · rw [if_neg hstart, if_neg hstart]
    by_cases hdigits : (more.takeWhile Char.isDigit).isEmpty
    · by_cases hbehind : startsWord more <;>
        simp [-byteSize_append, hbehind, hdigits, byteSize_take_digits, byteSize_take_point h]
    · have hbehind := startsWord_of_digits (Bool.eq_false_iff.2 hdigits)
      by_cases hafter : startsWord (more.dropWhile Char.isDigit) <;>
        simp [-byteSize_append, hbehind, hdigits, hafter, byteSize_take_point h, byteSize_take_fraction h]

end Point

/-- **The number that begins behind some text ends where the pattern does.** -/
theorem numberEnd?_append (x rest : List Char) : numberEnd? (x ++ rest) (byteSize x) =
    (numberPattern x.getLast? rest).map fun n => byteSize (x ++ rest.take n) := by
  by_cases hpoint : ∃ more, rest.dropWhile Char.isDigit = '.' :: more
  · obtain ⟨more, hmore⟩ := hpoint
    exact numberEnd?_of_point hmore x
  · exact numberEnd?_of_no_point fun more hmore => hpoint ⟨more, hmore⟩

theorem isCut_of_numberEnd? {text : List Char} {s e : Nat} (h : numberEnd? text s = some e) : IsCut text s := by
  unfold numberEnd? at h
  dsimp only at h
  cases hc : charAt text s with
  | none => simp [digitAt, hc] at h
  | some c => exact isCut_of_charAt hc

theorem Pattern.takes_number :
    ∀ text, numberPattern.Takes text = fun s e => numberEnd? text s = some e := by
  refine takes_eq_of_append isCut_of_numberEnd? fun x y e => ?_
  rw [takes_append describes_number.bounded, numberEnd?_append, Option.map_eq_some_iff]

namespace Rule

/-- **The rule for numbers in closed form**: what its expression takes at a byte is what the characters behind the
digits, behind the point and behind the digits that follow the point make of it, and the matches of a text are found in
turn from the left, up to the first search that is given up. -/
theorem number_matches [Engine] (tail : AttributeTail) {rule : Rule} (hrule : rule ∈ withTail tail)
    (hnumber : rule.category = .number) (text : List Char) :
    rule.pattern = Regex.numberRegex.pattern ∧
    (∀ s e, Regex.numberRegex.pattern.Takes text s e ↔ numberEnd? text s = some e) ∧
    InTurn (NextUnless (rule.givesUpAt text) fun s e => numberEnd? text s = some e) 0 (rule.findAll text) ∧
    (rule.givesUpAt text (searchedTo 0 (rule.findAll text)) = false →
      InTurn (Next fun s e => numberEnd? text s = some e) 0 (rule.findAll text)) := by
  have hmade := wellMade_of_mem_withTail tail rule hrule
  have hnumbers := eq_ofCategory tail rule hrule
  rw [hnumber] at hnumbers
  have hpattern : rule.pattern = Regex.numberRegex.pattern := by
    rw [hnumbers]
    exact Regex.number_eq.symm
  have htakes : Regex.numberRegex.pattern.Takes text = fun s e => numberEnd? text s = some e := by
    rw [Regex.number_eq, Pattern.takes_number]
  have hturn := inTurn_nextUnless hmade text
  rw [hpattern, htakes] at hturn
  exact ⟨hpattern, fun s e => by rw [htakes], hturn, hturn.all⟩

/-- Letters behind a point cut a number at the point, and a letter before a digit keeps it from being one. -/
theorem number_matches_cut : letI := Engine.backtracking
    numbers ∈ withTail .strict ∧
    numbers.findAll "3.14a 5.a 5. x7 1.2.3é".toList = [(0, 2), (6, 8), (10, 11), (16, 19), (20, 21)] ∧
    numbers.givesUpAt "3.14a 5.a 5. x7 1.2.3é".toList
      (searchedTo 0 (numbers.findAll "3.14a 5.a 5. x7 1.2.3é".toList)) = false ∧
    InTurn (Next fun s e => numberEnd? "3.14a 5.a 5. x7 1.2.3é".toList s = some e) 0
      (numbers.findAll "3.14a 5.a 5. x7 1.2.3é".toList) := by
  let := Engine.backtracking
  have hrule : numbers ∈ withTail .strict := by simp [withTail]
  have hup : numbers.givesUpAt "3.14a 5.a 5. x7 1.2.3é".toList
      (searchedTo 0 (numbers.findAll "3.14a 5.a 5. x7 1.2.3é".toList)) = false := by decide +kernel
  exact ⟨hrule, by decide +kernel, hup, (number_matches .strict hrule rfl _).2.2.2 hup⟩

/-- Behind twelve hundred digits that a letter follows no number of the text is found. -/
theorem number_missed : letI := Engine.backtracking
    let text := List.replicate 1200 '1' ++ "n 7".toList
    numbers.findAll text = [] ∧ numberEnd? text 1202 = some 1203 ∧
    ¬ InTurn (Next fun s e => numberEnd? text s = some e) 0 (numbers.findAll text) := by
  let := Engine.backtracking
  intro text
  have hmade : numbers.WellMade := wellMade_of_mem_withTail .strict numbers (by simp [withTail])
  have hall : numbers.findAll text = [] := findAll_of_givesUp hmade (Regex.givesUp_digits _ (by decide) 0)
  have hnumber : numberEnd? text 1202 = some 1203 := by
    have hsize : byteSize (List.replicate 1200 '1' ++ "n ".toList) = 1202 := by decide +kernel
    have hseven : numberPattern "n ".toList.getLast? "7".toList = some 1 := by decide
    have hend := numberEnd?_append (List.replicate 1200 '1' ++ "n ".toList) "7".toList
    rw [hsize, List.getLast?_append_of_ne_nil _ (by decide), List.append_assoc, hseven, Option.map_some, byteSize_append,
      hsize] at hend
    exact hend
  refine ⟨hall, hnumber, fun hturn => ?_⟩
  rw [hall] at hturn
  cases hturn with
  | done hnone => exact absurd (hnone _ _ hnumber) (by decide)

end Rule

end JsxView
