import JsxView.Proofs.Lines
import JsxView.Proofs.Margins
import JsxView.Proofs.StatsExpressions
/-!
# StatsLines — statistics line by line

A pattern that sees a text only up to some character (`Pattern.StopsAt`) matches on both sides of it what it matches in
either text alone (`Pattern.StopsAt.count_append`).  What counts as a function ends with its line, and so does a word,
so the statistics of two texts with a line break between them add up, and a carriage return before every line break
changes nothing but the number of characters (`Stats.over_lines`).
-/
namespace JsxView

/-- A pattern that sees a text only up to a character, and nothing of what stands before it. -/
def Pattern.StopsAt (pattern : Pattern) (c : Char) : Prop :=
  ∀ (b b' : Option Char) (x y : List Char), pattern b (x ++ c :: y) = pattern b' x

namespace Pattern.StopsAt

variable {pattern : Pattern} {c : Char} (hstop : pattern.StopsAt c)
include hstop

theorem piecesFrom_before (b b' : Option Char) (text : List Char) :
    piecesFrom pattern 0 b text = piecesFrom pattern 0 b' text := by
  cases text with
  | nil => rfl
  | cons d rest =>
    have hsame : pattern b (d :: rest) = pattern b' (d :: rest) :=
      (hstop b b (d :: rest) []).symm.trans (hstop b b' (d :: rest) [])
    rw [piecesFrom, piecesFrom, hsame]

/-- The character itself stays outside every match. -/
theorem piecesFrom_cons (hbound : pattern.Bounded) (b : Option Char) (y : List Char) :
    piecesFrom pattern 0 b (c :: y) = .plain c :: pattern.pieces y := by
  rw [piecesFrom, pieces, hstop.piecesFrom_before (some c) none]
  split
  · rename_i n hmatch
    rw [← List.nil_append (c :: y), hstop b b] at hmatch
    exact absurd (hbound _ _ _ hmatch) (Nat.not_succ_le_zero n)
  · rfl

theorem piecesFrom_append (hbound : pattern.Bounded) (y : List Char) (skip : Nat) (b : Option Char) (x : List Char)
    (hskip : skip ≤ x.length) :
    piecesFrom pattern skip b (x ++ c :: y) = piecesFrom pattern skip b x ++ .plain c :: pattern.pieces y := by
  fun_induction piecesFrom pattern skip b x with
  | case1 skip b =>
    obtain rfl : skip = 0 := Nat.le_zero.1 hskip
    exact hstop.piecesFrom_cons hbound b y
  | case2 b skip d rest ih =>
    rw [List.cons_append, piecesFrom, ih (Nat.le_of_succ_le_succ hskip)]
  | case3 b d rest n hmatch ih =>
    have hn : n ≤ rest.length := Nat.le_of_succ_le_succ (hbound _ _ _ hmatch)
    have hsame : pattern b (d :: (rest ++ c :: y)) = some (n + 1) := (hstop b b (d :: rest) y).trans hmatch
    rw [List.cons_append, piecesFrom, hsame]
    dsimp only
    rw [List.take_append_of_le_length hn, ih hn, List.cons_append]
  | case4 b d rest hnone ih =>
    have hsame : pattern b (d :: (rest ++ c :: y)) = pattern b (d :: rest) := hstop b b (d :: rest) y
    rw [List.cons_append, piecesFrom, hsame]
    split
    · rename_i n hmatch
      exact absurd hmatch (hnone n)
    · rw [ih (Nat.zero_le _), List.cons_append]

/-- **The matches on both sides of such a character** are those of the two texts. -/
theorem count_append (hbound : pattern.Bounded) (x y : List Char) :
    pattern.count (x ++ c :: y) = pattern.count x + pattern.count y := by
  unfold count
  rw [pieces, hstop.piecesFrom_append hbound y 0 none x (Nat.zero_le _), List.countP_append, List.countP_cons_of_neg]
  · rfl
  · exact Bool.false_ne_true

end Pattern.StopsAt

/-! ## Functions and words end with their line -/

theorem prefix_append_cons {c : Char} (y : List Char) : ∀ {word : List Char}, c ∉ word → ∀ x : List Char,
    (word <+: x ++ c :: y ↔ word <+: x)
  | [], _, x => iff_of_true List.nil_prefix List.nil_prefix
  | d :: word, hc, [] => by
    refine iff_of_false (fun h => hc ?_) (by simp)
    rw [(List.cons_prefix_cons.1 h).1]
    exact List.mem_cons_self
  | d :: word, hc, e :: x => by
    rw [List.cons_append, List.cons_prefix_cons, List.cons_prefix_cons,
      prefix_append_cons y (fun h => hc (List.mem_cons_of_mem d h)) x]

theorem arrowAssignmentLength_append {c : Char} (hc : isLineTerminator c) (x y : List Char) :
    arrowAssignmentLength (x ++ c :: y) = arrowAssignmentLength x := by
  have hline : (!isLineTerminator c) = false := by rw [hc, Bool.not_true]
  rw [arrowAssignmentLength, takeWhile_append_cons hline, arrowAssignmentLength]

namespace Pattern

theorem bounded_function : functionPattern.Bounded := by
  intro b text n hn
  rcases functionPattern_eq_some hn with ⟨word, -, hword, rfl⟩ | ⟨rest, m, rfl, hm, rfl⟩
  · exact hword.length_le
  · rw [List.length_append, Nat.add_comm]
    exact Nat.add_le_add_left (arrowAssignmentLength_le hm) 5

/-- What counts as a function ends before the next line terminator. -/
theorem stopsAt_function {c : Char} (hc : isLineTerminator c) : functionPattern.StopsAt c := by
  intro b b' x y
  have hletters : ["const".toList, "function".toList, "class".toList].all
      fun word => word.all fun c => !isLineTerminator c := by decide
  have hword : ∀ word ∈ ["const".toList, "function".toList, "class".toList], word <+: x ++ c :: y ↔ word <+: x := by
    intro word hword
    refine prefix_append_cons y (fun hmem => ?_) x
    have hletter := List.all_eq_true.1 (List.all_eq_true.1 hletters word hword) c hmem
    rw [hc] at hletter
    cases hletter
  by_cases hfront : ∃ word ∈ ["function".toList, "class".toList], word <+: x
  · obtain ⟨word, hmem, hpre⟩ := hfront
    rw [functionPattern_word hmem hpre, functionPattern_word hmem ((hword word (List.mem_cons_of_mem _ hmem)).2 hpre)]
  by_cases hconst : "const".toList <+: x
  · obtain ⟨rest, rfl⟩ := hconst
    rw [List.append_assoc, functionPattern_const, functionPattern_const, arrowAssignmentLength_append hc]
  · have hnone : ∀ word ∈ ["function".toList, "class".toList], ¬ word <+: x := fun word hmem hpre =>
      hfront ⟨word, hmem, hpre⟩
    rw [functionPattern_of_not_word hnone, if_neg hconst,
      functionPattern_of_not_word fun word hmem hpre =>
        hnone word hmem ((hword word (List.mem_cons_of_mem _ hmem)).1 hpre),
      if_neg fun hpre => hconst ((hword _ List.mem_cons_self).1 hpre)]

end Pattern

theorem isScriptSpace_of_isLineTerminator {c : Char} (hc : isLineTerminator c) : isScriptSpace c := by
  have hall : ['\n', '\r', '\u2028', '\u2029'].all isScriptSpace := by decide
  exact List.all_eq_true.1 hall c (of_decide_eq_true hc)

/-- A text with every line break `"\n"` written as `"\r\n"`. -/
def crlf (text : List Char) : List Char :=
  text.flatMap fun c => if c = '\n' then ['\r', '\n'] else [c]

namespace Stats

/-- Words and functions of two texts with a line terminator between them are counted in each of the texts. -/
theorem of_append_cons {c : Char} (hc : isLineTerminator c) (a b : List Char) : Stats.of (a ++ c :: b) =
    { lines := lineCount (a ++ c :: b)
      characters := (Stats.of a).characters + charUnits c + (Stats.of b).characters
      words := (Stats.of a).words + (Stats.of b).words
      functions := (Stats.of a).functions + (Stats.of b).functions } := by
  have hunits : units16 (a ++ c :: b) = units16 a + charUnits c + units16 b := by
    rw [units16_append, Nat.add_assoc]
    rfl
  have hwords : wordCount (a ++ c :: b) = wordCount a + wordCount b := by
    rw [wordCount_eq, wordStartsFrom_append none a (isScriptSpace_of_isLineTerminator hc), wordCount_eq, wordCount_eq]
  have hfunctions := (Pattern.stopsAt_function hc).count_append Pattern.bounded_function a b
  simp only [of, hunits, hwords, hfunctions]

theorem of_append_newline (a b : List Char) : Stats.of (a ++ '\n' :: b) =
    { lines := (Stats.of a).lines + (Stats.of b).lines
      characters := (Stats.of a).characters + (Stats.of b).characters + 1
      words := (Stats.of a).words + (Stats.of b).words
      functions := (Stats.of a).functions + (Stats.of b).functions } := by
  have hlines : lineCount (a ++ '\n' :: b) = lineCount a + lineCount b := by
    rw [lineCount, linesOf_append_cons, List.length_append]
    rfl
  rw [of_append_cons (by decide), hlines, Nat.add_right_comm]
  rfl

/-- A carriage return behind a text is one more character and nothing else. -/
theorem of_append_return (a : List Char) :
    Stats.of (a ++ ['\r']) = { Stats.of a with characters := (Stats.of a).characters + 1 } := by
  have hlines : lineCount (a ++ ['\r']) = lineCount a := by
    rw [lineCount_eq, lineCount_eq, List.count_append]
    rfl
  rw [of_append_cons (by decide), hlines]
  rfl

theorem of_append_crlf (a text : List Char) : Stats.of (a ++ crlf text) =
    { Stats.of (a ++ text) with characters := (Stats.of (a ++ text)).characters + text.count '\n' } := by
  -- on what is still to be written; `a` is the line so far, and empty again behind a line break
  induction text generalizing a with
  | nil => rfl
  | cons c text ih =>
    rw [crlf, List.flatMap_cons, ← crlf]
    by_cases hc : c = '\n'
    · subst hc
      have hrest := ih []
      rw [List.nil_append, List.nil_append] at hrest
      have hsplit : a ++ (['\r', '\n'] ++ crlf text) = (a ++ ['\r']) ++ '\n' :: crlf text := by simp
      rw [if_pos rfl, hsplit, of_append_newline, of_append_return, hrest, of_append_newline, List.count_cons_self]
      simp only [Stats.mk.injEq, and_true, true_and]
      omega
    · have hsplit : a ++ ([c] ++ crlf text) = (a ++ [c]) ++ crlf text := by simp
      rw [if_neg hc, hsplit, ih, ← List.append_cons, List.count_cons_of_ne hc]

/-- **The statistics of a text are taken line by line**, with the expressions as they are written: those of two texts
with a line break between them are the sums, with one character more, and where every line break is written as `"\r\n"`
there is one character more for each of them and everything else is as before. -/
theorem over_lines :
    (∀ text, Stats.of text = Stats.byExpressions text) ∧
    (∀ a b, Stats.of (a ++ '\n' :: b) =
      { lines := (Stats.of a).lines + (Stats.of b).lines
        characters := (Stats.of a).characters + (Stats.of b).characters + 1
        words := (Stats.of a).words + (Stats.of b).words
        functions := (Stats.of a).functions + (Stats.of b).functions }) ∧
    ∀ text, Stats.of (crlf text) =
      { Stats.of text with characters := (Stats.of text).characters + text.count '\n' } :=
  ⟨of_eq_byExpressions, of_append_newline, of_append_crlf []⟩

end Stats

end JsxView
