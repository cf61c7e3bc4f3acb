import JsxView.Proofs.Cut
import JsxView.Proofs.Regex
import JsxView.Stats
import Mathlib.Data.List.Basic
/-!
# StatsExpressions — words and functions as they are counted

A count of words cuts a text at every run of white space and leaves out what is empty; a count of functions counts the
matches of an expression.  `Stats.byExpressions` takes both counts with the expressions as they are written.  The loops
of the one for functions take all they can and give back until an `=` and an arrow fit, so what they find first is the
last arrow of the line (`Regex.function_eq`).  A word begins at every character that is no white space and stands behind
some, or at the start of the text; this is what is counted in either way (`wordCount_eq`, `fieldCount_fields`), so the
statistics are the ones the expressions give (`Stats.of_eq_byExpressions`).
-/
namespace JsxView

namespace Regex

/-- What goes on as an assignment of an arrow function. -/
def arrowRegex : Regex :=
  seq (many fun c => !isLineTerminator c)
    (seq (char '=') (seq (many fun c => !isLineTerminator c) (spelled ['=', '>'])))

def functionRegex : Regex :=
  alt (spelled "function".toList) (alt (seq (spelled "const".toList) arrowRegex) (spelled "class".toList))

def spaceRegex : Regex :=
  seq (one isScriptSpace) (many isScriptSpace)

end Regex

/-- The texts between the hits among the pieces of a text, also before the first and behind the last one. -/
def Piece.fields : List Piece → List (List Char)
  | [] => [[]]
  | .plain c :: rest => (fields rest).modifyHead (c :: ·)
  | .hit _ :: rest => [] :: fields rest

/-- **The statistics of a text as they are taken**: by what its two expressions find. -/
def Stats.byExpressions (text : List Char) : Stats :=
  { lines := (text.splitOn '\n').length
    characters := units16 text
    words := (Piece.fields (Regex.spaceRegex.pattern.pieces text)).countP fun word => !word.isEmpty
    functions := Regex.functionRegex.pattern.count text }

/-! ## Functions -/

theorem lastArrow?_cons (c : Char) (rest : List Char) : lastArrow? (c :: rest) =
    ((lastArrow? rest).map (· + 1)).or (if c = '=' && rest.head? = some '>' then some 0 else none) := by
  rw [lastArrow?]
  cases lastArrow? rest <;> rfl

/-- An assignment goes on to the last arrow, also where the `=` in front of it is its first character. -/
theorem arrowAssignmentLength_cons {c : Char} (hc : isLineTerminator c = false) (text : List Char) :
    arrowAssignmentLength (c :: text) = ((arrowAssignmentLength text).or
      (if c = '=' then (lastArrow? (text.takeWhile fun c => !isLineTerminator c)).map (· + 2) else none)).map (· + 1) := by
  unfold arrowAssignmentLength
  rw [List.takeWhile_cons_of_pos (by simp [hc])]
  generalize text.takeWhile (fun c => !isLineTerminator c) = line
  dsimp only
  rw [lastArrow?_cons]
  cases lastArrow? line with
  | none => by_cases harrow : c = '=' ∧ line.head? = some '>' <;> simp [harrow]
  | some n =>
    by_cases hmem : '=' ∈ line.take n
    · simp [hmem]
    · by_cases hequals : c = '='
      · simp [hmem, hequals]
      · simp [hmem, hequals, Ne.symm hequals]

theorem lastArrow?_eq_some {line : List Char} {n : Nat} (h : lastArrow? line = some n) :
    ∃ u v, line = u ++ '=' :: '>' :: v ∧ u.length = n := by
  induction line generalizing n with
  | nil => cases h
  | cons c line ih =>
    rw [lastArrow?_cons] at h
    cases harrow : lastArrow? line with
    | some m =>
      obtain ⟨u, v, rfl, rfl⟩ := ih harrow
      rw [harrow] at h
      exact ⟨c :: u, v, rfl, Option.some.inj h⟩
    | none =>
      rw [harrow] at h
      by_cases hhere : (c = '=' && line.head? = some '>') = true
      · rw [if_pos hhere] at h
        obtain ⟨rfl, hhead⟩ : c = '=' ∧ line.head? = some '>' := by simpa using hhere
        obtain ⟨v, rfl⟩ := List.head?_eq_some_iff.1 hhead
        exact ⟨[], v, rfl, Option.some.inj h⟩
      · rw [if_neg hhere] at h
        cases h

theorem arrowAssignmentLength_eq_some {text : List Char} {n : Nat} : arrowAssignmentLength text = some n ↔
    ∃ m, lastArrow? (text.takeWhile fun c => !isLineTerminator c) = some m ∧
      '=' ∈ (text.takeWhile fun c => !isLineTerminator c).take m ∧ m + 2 = n := by
  unfold arrowAssignmentLength
  dsimp only
  cases lastArrow? (text.takeWhile fun c => !isLineTerminator c) <;> simp

theorem arrowAssignmentLength_le {text : List Char} {n : Nat} (h : arrowAssignmentLength text = some n) :
    n ≤ text.length := by
  obtain ⟨m, hm, -, rfl⟩ := arrowAssignmentLength_eq_some.1 h
  obtain ⟨u, v, hsplit, rfl⟩ := lastArrow?_eq_some hm
  have hline := (List.takeWhile_prefix (l := text) fun c => !isLineTerminator c).length_le
  rw [hsplit] at hline
  simp only [List.length_append, List.length_cons] at hline
  omega

/-- No two of the words that begin a function stand at one place. -/
theorem functionWord_unique {text word word' : List Char}
    (hword : word ∈ ["const".toList, "function".toList, "class".toList])
    (hword' : word' ∈ ["const".toList, "function".toList, "class".toList]) (h : word <+: text) (h' : word' <+: text) :
    word = word' := by
  have hapart : ∀ word ∈ ["const".toList, "function".toList, "class".toList],
      ∀ word' ∈ ["const".toList, "function".toList, "class".toList], word <+: word' → word = word' := by decide
  rcases List.prefix_or_prefix_of_prefix h h' with hpre | hpre
  · exact hapart word hword word' hword' hpre
  · exact (hapart word' hword' word hword hpre).symm

theorem not_const_of_word {text word : List Char} (hword : word ∈ ["function".toList, "class".toList])
    (h : word <+: text) : ¬ "const".toList <+: text := by
  intro hconst
  obtain rfl := functionWord_unique (List.mem_cons_of_mem _ hword) List.mem_cons_self h hconst
  exact absurd hword (by decide)

theorem functionPattern_word {word text : List Char} (hword : word ∈ ["function".toList, "class".toList])
    (h : word <+: text) (b : Option Char) : functionPattern b text = some word.length := by
  unfold functionPattern
  simp only [List.isPrefixOf_iff_prefix]
  rcases List.mem_pair.1 hword with rfl | rfl
  · rw [if_pos h]
    rfl
  · have hfunction : ¬ "function".toList <+: text :=
      fun hother => absurd (functionWord_unique (by decide) (by decide) h hother) (by decide)
    rw [if_neg hfunction, if_pos h]
    rfl

theorem functionPattern_of_not_word {text : List Char}
    (h : ∀ word ∈ ["function".toList, "class".toList], ¬ word <+: text) (b : Option Char) :
    functionPattern b text =
      if "const".toList <+: text then (arrowAssignmentLength (text.drop 5)).map (· + 5) else none := by
  unfold functionPattern
  simp only [List.isPrefixOf_iff_prefix]
  rw [if_neg (h _ List.mem_cons_self), if_neg (h _ (List.mem_cons_of_mem _ List.mem_cons_self))]

theorem functionPattern_const (b : Option Char) (rest : List Char) :
    functionPattern b ("const".toList ++ rest) = (arrowAssignmentLength rest).map (· + 5) := by
  have hconst : "const".toList <+: "const".toList ++ rest := List.prefix_append _ _
  rw [functionPattern_of_not_word (fun word hword h => not_const_of_word hword h hconst), if_pos hconst]
  rfl

/-- What counts as a function is one of two words, or begins with the third. -/
theorem functionPattern_eq_some {b : Option Char} {text : List Char} {n : Nat} (h : functionPattern b text = some n) :
    (∃ word ∈ ["function".toList, "class".toList], word <+: text ∧ n = word.length) ∨
      ∃ rest m, text = "const".toList ++ rest ∧ arrowAssignmentLength rest = some m ∧ n = m + 5 := by
  by_cases hword : ∃ word ∈ ["function".toList, "class".toList], word <+: text
  · obtain ⟨word, hword, hpre⟩ := hword
    rw [functionPattern_word hword hpre] at h
    exact Or.inl ⟨word, hword, hpre, (Option.some.inj h).symm⟩
  · rw [functionPattern_of_not_word fun word hmem hpre => hword ⟨word, hmem, hpre⟩] at h
    split at h
    · rename_i hconst
      obtain ⟨rest, rfl⟩ := hconst
      obtain ⟨m, hm, rfl⟩ := Option.map_eq_some_iff.1 h
      exact Or.inr ⟨rest, m, rfl, hm, rfl⟩
    · cases h

namespace Regex

variable {β : Type}

/-- Where only what is left is looked at, the end of the first way is all that counts. -/
theorem pattern_eq_first (r : Regex) (b : Option Char) (text : List Char) :
    r.pattern b text = r.first (fun s => some (text.length - s.after.length)) ⟨b, text, none⟩ := by
  unfold pattern first
  cases r.ways ⟨b, text, none⟩ <;> rfl

theorem first_many_nil (k : Spot → Option β) (p : Char → Bool) (b : Option Char) (g : Option (List Char)) :
    (many p).first k ⟨b, [], g⟩ = k ⟨b, [], g⟩ :=
  first_star_nil true p b g

theorem first_many_cons (k : Spot → Option β) (p : Char → Bool) (b : Option Char) (c : Char) (text : List Char)
    (g : Option (List Char)) : (many p).first k ⟨b, c :: text, g⟩ =
      (if p c then (many p).first k ⟨some c, text, g⟩ else none).or (k ⟨b, c :: text, g⟩) :=
  first_greedy_cons p b c text g

/-- The loop before an arrow goes on to the last arrow of the line. -/
theorem first_lastArrow (K : List Char → β) (text : List Char) (b : Option Char) (g : Option (List Char)) :
    (seq (many fun c => !isLineTerminator c) (spelled ['=', '>'])).first (fun s => some (K s.after)) ⟨b, text, g⟩ =
      (lastArrow? (text.takeWhile fun c => !isLineTerminator c)).map fun n => K (text.drop (n + 2)) := by
  rw [first_seq]
  -- a round more is tried before the end of the loop, so an arrow further on comes before the one here
  induction text generalizing b with
  | nil =>
    rw [first_many_nil, first_spelled]
    rfl
  | cons c text ih =>
    rw [first_many_cons, ih, first_spelled]
    cases hc : isLineTerminator c with
    | true =>
      have hequals : '=' ≠ c := by
        rintro rfl
        cases hc
      simp [hc, hequals, List.cons_prefix_cons, lastArrow?]
    | false =>
      have hhead : (text.takeWhile fun c => !isLineTerminator c).head? = some '>' ↔ ['>'] <+: text := by
        cases text with
        | nil => simp
        | cons d text =>
          by_cases hd : d = '>'
          · subst hd
            exact iff_of_true rfl ⟨text, rfl⟩
          · have hfront : ¬ ['>'] <+: d :: text := fun h => hd (List.cons_prefix_cons.1 h).1.symm
            by_cases hend : isLineTerminator d <;> simp [hend, hd, hfront]
      rw [List.takeWhile_cons_of_pos (by simp [hc]), lastArrow?_cons]
      cases lastArrow? (text.takeWhile fun c => !isLineTerminator c) with
      | some n => simp
      | none =>
        by_cases hequals : c = '='
        · subst hequals
          simp [hhead, List.cons_prefix_cons]
        · simp [hequals, Ne.symm hequals, List.cons_prefix_cons]

theorem first_arrow (K : List Char → β) (text : List Char) (b : Option Char) (g : Option (List Char)) :
    arrowRegex.first (fun s => some (K s.after)) ⟨b, text, g⟩ =
      (arrowAssignmentLength text).map fun n => K (text.drop n) := by
  rw [arrowRegex, first_seq]
  induction text generalizing b with
  | nil =>
    rw [first_many_nil, first_seq, first_char_nil]
    rfl
  | cons c text ih =>
    rw [first_many_cons, ih, first_seq, first_char_cons, first_lastArrow]
    cases hc : isLineTerminator c with
    | true =>
      have hequals : c ≠ '=' := by
        rintro rfl
        cases hc
      simp [hc, hequals, arrowAssignmentLength, lastArrow?]
    | false =>
      -- where an `=` further on fits, the one here is not tried
      rw [arrowAssignmentLength_cons hc]
      by_cases hequals : c = '='
      · simp only [hequals, Bool.not_false, if_true]
        cases arrowAssignmentLength text <;> simp [Option.map_map, Function.comp_def]
      · simp [hequals, Function.comp_def]

/-- **What is counted as a function is what the expression matches.** -/
theorem function_eq : functionRegex.pattern = functionPattern := by
  funext b text
  have htaken : ∀ {n}, n ≤ text.length → text.length - (text.drop n).length = n := by
    intro n hn
    rw [List.length_drop, Nat.sub_sub_self hn]
  rw [pattern_eq_first, functionRegex, first_alt, first_alt, first_seq, first_spelled, first_spelled, first_spelled,
    first_arrow fun rest => text.length - rest.length]
  by_cases hfunction : "function".toList <+: text
  · rw [functionPattern_word (by decide) hfunction, if_pos hfunction, htaken hfunction.length_le]
    rfl
  rw [if_neg hfunction, Option.none_or]
  by_cases hclass : "class".toList <+: text
  · rw [functionPattern_word (by decide) hclass, if_neg (not_const_of_word (by decide) hclass), if_pos hclass,
      htaken hclass.length_le]
    rfl
  have hword : ∀ word ∈ ["function".toList, "class".toList], ¬ word <+: text :=
    List.forall_mem_cons.2 ⟨hfunction, List.forall_mem_singleton.2 hclass⟩
  rw [if_neg hclass, Option.or_none, functionPattern_of_not_word hword]
  by_cases hconst : "const".toList <+: text
  · rw [if_pos hconst, if_pos hconst]
    refine Option.map_congr fun n hn => ?_
    have hword := hconst.length_le
    have hrest := arrowAssignmentLength_le hn
    rw [List.length_drop] at hrest
    rw [List.drop_drop, htaken (by omega), Nat.add_comm]
    rfl
  · rw [if_neg hconst, if_neg hconst]

end Regex

/-! ## Words -/

/-- The number of words that begin in a text when the given character stands before it: a word begins at a character
that is no white space, where white space or nothing stands before it. -/
def wordStartsFrom (before : Option Char) (text : List Char) : Nat :=
  ((before :: text.map some).zip text).countP fun (b, c) => b.all isScriptSpace && !isScriptSpace c

theorem wordStartsFrom_cons (before : Option Char) (c : Char) (text : List Char) : wordStartsFrom before (c :: text) =
    wordStartsFrom (some c) text + if before.all isScriptSpace && !isScriptSpace c then 1 else 0 := by
  rw [wordStartsFrom, List.map_cons, List.zip_cons_cons, List.countP_cons]
  rfl

/-- Whether there is white space before a text is all that matters of what stands there. -/
theorem wordStartsFrom_before {b b' : Option Char} (h : b.all isScriptSpace = b'.all isScriptSpace)
    (text : List Char) : wordStartsFrom b text = wordStartsFrom b' text := by
  cases text with
  | nil => rfl
  | cons c text => rw [wordStartsFrom_cons, wordStartsFrom_cons, h]

theorem wordStartsFrom_append (b : Option Char) (x : List Char) {c : Char} (hc : isScriptSpace c) (y : List Char) :
    wordStartsFrom b (x ++ c :: y) = wordStartsFrom b x + wordStartsFrom none y := by
  induction x generalizing b with
  | nil =>
    have hbefore : (some c).all isScriptSpace = (none : Option Char).all isScriptSpace := hc
    rw [List.nil_append, wordStartsFrom_cons, wordStartsFrom_before hbefore]
    simp [hc, wordStartsFrom]
  | cons d x ih =>
    rw [List.cons_append, wordStartsFrom_cons, wordStartsFrom_cons, ih]
    omega

/-- How many fields are no empty ones.  Behind a character that is no white space the first of them goes on with a word
that has been counted. -/
def fieldCount (before : Option Char) (fields : List (List Char)) : Nat :=
  (if before.all isScriptSpace then fields else fields.tail).countP fun word => !word.isEmpty

theorem fieldCount_space (before : Option Char) {c : Char} (hc : isScriptSpace c) (fields : List (List Char)) :
    fieldCount before ([] :: fields) = fieldCount (some c) fields := by
  cases hbefore : before.all isScriptSpace <;> simp [fieldCount, hbefore, hc]

theorem fieldCount_word (before : Option Char) {c : Char} (hc : isScriptSpace c = false) {fields : List (List Char)}
    (hne : fields ≠ []) : fieldCount before (fields.modifyHead (c :: ·)) =
      fieldCount (some c) fields + if before.all isScriptSpace then 1 else 0 := by
  obtain ⟨field, fields, rfl⟩ := List.exists_cons_of_ne_nil hne
  cases hbefore : before.all isScriptSpace <;> simp [fieldCount, hbefore, hc]

theorem fieldCount_splitOnP (before : Option Char) (text : List Char) :
    fieldCount before (text.splitOnP isScriptSpace) = wordStartsFrom before text := by
  induction text generalizing before with
  | nil => cases hbefore : before.all isScriptSpace <;> simp [fieldCount, hbefore, wordStartsFrom]
  | cons c text ih =>
    rw [List.splitOnP_cons_eq_if_modifyHead, wordStartsFrom_cons, ← ih]
    cases hc : isScriptSpace c with
    | true => simp [fieldCount_space before hc]
    | false => simp [fieldCount_word before hc (List.splitOnP_ne_nil _ _)]

/-- **The words of a text are counted where they begin.** -/
theorem wordCount_eq (text : List Char) : wordCount text = wordStartsFrom none text :=
  fieldCount_splitOnP none text

theorem wordStartsFrom_spaces {run : List Char} (hrun : ∀ c ∈ run, isScriptSpace c) (b : Option Char) (y : List Char) :
    wordStartsFrom b (run ++ y) = wordStartsFrom (run.getLast?.or b) y := by
  induction run generalizing b with
  | nil => rfl
  | cons c run ih =>
    obtain ⟨hc, hrun⟩ := List.forall_mem_cons.1 hrun
    rw [List.cons_append, wordStartsFrom_cons, ih hrun, List.getLast?_cons]
    cases run.getLast? <;> simp [hc]

theorem Piece.fields_ne_nil : ∀ pieces : List Piece, Piece.fields pieces ≠ []
  | [] => List.cons_ne_nil _ _
  | .plain c :: rest => by
    rw [fields, Ne, List.modifyHead_eq_nil_iff]
    exact fields_ne_nil rest
  | .hit _ :: rest => List.cons_ne_nil _ _

namespace Regex

/-- The expression for white space takes a whole run. -/
theorem space_eq (b : Option Char) (text : List Char) : spaceRegex.pattern b text =
    if (text.takeWhile isScriptSpace).isEmpty then none else some (text.takeWhile isScriptSpace).length := by
  rw [pattern_eq_first, spaceRegex, first_seq]
  cases text with
  | nil => simp
  | cons c text =>
    rw [first_one_cons]
    cases hc : isScriptSpace c with
    | false => simp [hc]
    | true =>
      have hlen := congrArg List.length (List.takeWhile_append_dropWhile (p := isScriptSpace) (l := text))
      rw [List.length_append] at hlen
      rw [if_pos rfl, first_many _ _ fun h => by cases h]
      simp [hc]
      omega

theorem isScriptSpace_of_match {x h y : List Char} (hm : spaceRegex.pattern.Match x h y) :
    ∀ c ∈ h, isScriptSpace c := by
  obtain ⟨-, htake⟩ := hm
  rw [space_eq] at htake
  split at htake
  · cases htake
  · have hrun : h = (h ++ y).takeWhile isScriptSpace :=
      List.append_inj_left (List.takeWhile_append_dropWhile.symm) (Option.some.inj htake).symm
    rw [hrun]
    exact fun c => List.mem_takeWhile_imp

theorem exists_match_of_isScriptSpace {c : Char} (hc : isScriptSpace c) (x rest : List Char) :
    ∃ h y, h ++ y = c :: rest ∧ spaceRegex.pattern.Match x h y := by
  refine ⟨_, _, List.takeWhile_append_dropWhile (p := isScriptSpace), ?_, ?_⟩
  · simp [hc]
  · rw [List.takeWhile_append_dropWhile, space_eq, if_neg (by simp [hc])]

end Regex

/-- What stands between the runs of white space is one field for every word, and empty ones. -/
theorem fieldCount_fields {x text : List Char} {pieces : List Piece}
    (hcut : Pattern.Cut Regex.spaceRegex.pattern x text pieces) :
    fieldCount x.getLast? (Piece.fields pieces) = wordStartsFrom x.getLast? text := by
  induction hcut with
  | @nil x => cases hbefore : x.getLast?.all isScriptSpace <;> simp [fieldCount, Piece.fields, hbefore, wordStartsFrom]
  | @plain x rest c pieces hnone _ ih =>
    have hc : isScriptSpace c = false := by
      refine Bool.eq_false_iff.2 fun hc => ?_
      obtain ⟨h, y, htext, hm⟩ := Regex.exists_match_of_isScriptSpace hc x rest
      exact hnone h y htext hm
    rw [List.getLast?_concat] at ih
    rw [Piece.fields, fieldCount_word _ hc (Piece.fields_ne_nil pieces), ih, wordStartsFrom_cons]
    simp [hc]
  | @hit x h rest pieces hm _ ih =>
    have hrun := Regex.isScriptSpace_of_match hm
    have hlast : isScriptSpace (h.getLast hm.1) := hrun _ (List.getLast_mem hm.1)
    rw [List.getLast?_append, List.getLast?_eq_some_getLast hm.1, Option.some_or] at ih
    rw [Piece.fields, fieldCount_space _ hlast, ih, wordStartsFrom_spaces hrun, List.getLast?_eq_some_getLast hm.1,
      Option.some_or]

theorem bounded_space : Regex.spaceRegex.pattern.Bounded := by
  intro b text n hn
  rw [Regex.space_eq] at hn
  split at hn
  · cases hn
  · cases hn
    exact (List.takeWhile_prefix isScriptSpace).length_le

/-- **The statistics are what the expressions find.** -/
theorem Stats.of_eq_byExpressions (text : List Char) : Stats.of text = Stats.byExpressions text := by
  have hfields := fieldCount_fields (Pattern.cut_pieces bounded_space text)
  have hwords : wordCount text =
      (Piece.fields (Regex.spaceRegex.pattern.pieces text)).countP fun word => !word.isEmpty :=
    (wordCount_eq text).trans hfields.symm
  unfold of byExpressions
  rw [hwords, Regex.function_eq]
  rfl

end JsxView
