import JsxView.Proofs.Margins
import JsxView.Proofs.Regex
import JsxView.Proofs.Search
/-!
# Expressions — the rules as they are written

A rule has an expression as it is written, less the parentheses that nothing refers to, and a pattern that says outright
what the expression takes.  Read by backtracking the expression matches at every place what the pattern does
(`Rule.wellMade_of_mem_withTail`).
-/
namespace JsxView

namespace Regex

variable {β : Type} {k : Spot → Option β}

@[simp] theorem first_wordBorder (b : Option Char) (text : List Char) (g : Option (List Char)) :
    wordBorder.first k ⟨b, text, g⟩ = if followsWord b = startsWord text then none else k ⟨b, text, g⟩ := by
  cases text with
  | nil => cases hb : followsWord b <;> simp_all [wordBorder, startsWord, followsWord]
  | cons c text =>
    cases hb : followsWord b <;> cases hc : isWordChar c <;> simp_all [wordBorder, startsWord, followsWord]

@[simp] theorem followsWord_some (c : Char) : followsWord (some c) = isWordChar c := rfl

@[simp] theorem startsWord_nil : startsWord [] = false := rfl

@[simp] theorem startsWord_cons (c : Char) (text : List Char) : startsWord (c :: text) = isWordChar c := rfl

/-! ## Words -/

/-- A word that stands at the start of a text and ends at a border is the run of word characters there. -/
theorem spelled_border {word text : List Char} (hword : ∀ c ∈ word, isWordChar c) :
    word <+: text ∧ startsWord (text.drop word.length) = false ↔ word = text.takeWhile isWordChar := by
  constructor
  · rintro ⟨⟨rest, rfl⟩, hend⟩
    rw [List.drop_left] at hend
    exact (takeWhile_append_run hword hend).symm
  · intro h
    have htext := List.takeWhile_append_dropWhile (p := isWordChar) (l := text)
    rw [← h] at htext
    refine ⟨⟨_, htext⟩, ?_⟩
    rw [← htext, List.drop_left]
    exact head?_dropWhile_any isWordChar text

/-- A search through words that one word alone can end. -/
theorem findSome?_only {a : List Char} {f : List Char → Option β} {g : List Char → β} : ∀ {l : List (List Char)},
    (∀ x ∈ l, f x = if x = a then some (g x) else none) → l.findSome? f = if a ∈ l then some (g a) else none
  | [], _ => rfl
  | x :: l, h => by
    obtain ⟨hx, hl⟩ := List.forall_mem_cons.1 h
    rw [List.findSome?_cons, hx, findSome?_only hl]
    by_cases hxa : x = a
    · simp [hxa]
    · simp [hxa, Ne.symm hxa]

theorem followsWord_behindRun {run : List Char} (hrun : ∀ c ∈ run, isWordChar c) {b : Option Char}
    (h : run ≠ [] ∨ followsWord b = true) : followsWord (behindRun b run) = true := by
  by_cases hne : run = []
  · subst hne
    simpa using h
  · obtain ⟨c, hc, hlast⟩ := behindRun_mem hne b
    rw [hlast]
    exact hrun c hc

/-- The words on the lists are words. -/
theorem wordChars_of_mem :
    ∀ words ∈ [keywords, frameworkNames], ∀ word ∈ words, word ≠ [] ∧ ∀ c ∈ word, isWordChar c := by
  have hall : ∀ words ∈ [keywords, frameworkNames], words.all fun word => !word.isEmpty && word.all isWordChar := by
    decide
  intro words hwords word hword
  simpa using List.all_eq_true.1 (hall words hwords) word hword

/-- **Words from a list**, in whatever order it has them. -/
theorem word_eq {words : List (List Char)} (hwords : ∀ word ∈ words, word ≠ [] ∧ ∀ c ∈ word, isWordChar c) :
    (wordRegex words).pattern = wordPattern words := by
  funext b text
  have hway : ∀ word ∈ words, (spelled word).first (wordBorder.first some) ⟨b, text, none⟩ =
      if word = text.takeWhile isWordChar then some ⟨behindRun b word, text.drop word.length, none⟩ else none := by
    intro word hmem
    obtain ⟨hne, hword⟩ := hwords word hmem
    rw [first_spelled, first_wordBorder, followsWord_behindRun hword (Or.inl hne)]
    by_cases h : word = text.takeWhile isWordChar
    · obtain ⟨hfront, hend⟩ := (spelled_border hword).2 h
      rw [if_pos h, if_pos hfront, if_neg (by simp [hend])]
    · rw [if_neg h]
      by_cases hfront : word <+: text
      · have hend : startsWord (text.drop word.length) ≠ false :=
          fun hend => h ((spelled_border hword).1 ⟨hfront, hend⟩)
        rw [if_pos hfront, if_pos (by simpa using hend)]
      · rw [if_neg hfront]
  have hways : (oneOf words).first (wordBorder.first some) ⟨b, text, none⟩ =
      if text.takeWhile isWordChar ∈ words then
        some ⟨behindRun b (text.takeWhile isWordChar), text.drop (text.takeWhile isWordChar).length, none⟩
      else none := by
    rw [first_oneOf]
    exact findSome?_only hway
  rw [pattern_eq, wordRegex, first_seq, first_wordBorder, first_seq, hways]
  unfold wordPattern
  by_cases hmem : text.takeWhile isWordChar ∈ words
  · have hstart : startsWord text = true := by
      cases text with
      | nil => exact absurd rfl (hwords _ hmem).1
      | cons c text =>
        refine Classical.byContradiction fun hc => (hwords _ hmem).1 ?_
        exact List.takeWhile_cons_of_neg hc
    have hlen := (List.takeWhile_prefix (l := text) isWordChar).length_le
    by_cases hb : followsWord b
    · simp [hb, hstart]
    · simp [hb, hstart, hmem]
      omega
  · simp [hmem]

/-! ## Literals -/

theorem first_quotedRound_escape (q : Char) (b : Option Char) (text : List Char) :
    quotedRound.first k ⟨b, '\\' :: text, some [q]⟩ =
      match text with
      | [] => none
      | d :: more => if isLineTerminator d then none else k ⟨some d, more, some [q]⟩ := by
  cases text with
  | nil => simp [quotedRound]
  | cons d more => cases hd : isLineTerminator d <;> simp [quotedRound, hd]

theorem first_quotedRound_plain (q : Char) {c : Char} (hc : c ≠ '\\') (b : Option Char) (text : List Char) :
    quotedRound.first k ⟨b, c :: text, some [q]⟩ = if c = q then none else k ⟨some c, text, some [q]⟩ := by
  by_cases hq : c = q
  · subst hq
    simp [quotedRound, hc]
  · simp [quotedRound, hc, hq, Ne.symm hq]

/-- A literal goes on up to the first quote of its kind that no backslash takes along. -/
theorem first_quotedBody {q : Char} (hq : q ≠ '\\') (text : List Char) (b : Option Char) :
    (star false quotedRound).first (again.first some) ⟨b, text, some [q]⟩ =
      (quotedBodyLength q text).map fun n => ⟨some q, text.drop n, some [q]⟩ := by
  fun_induction quotedBodyLength q text generalizing b with
  | case1 =>
    rw [first_star]
    simp [quotedRound]
  | case2 rest =>
    rw [first_star]
    simp
  | case3 hopen =>
    rw [first_star]
    simp [first_quotedRound_escape, hq]
  | case4 d more hend hopen =>
    rw [first_star]
    simp [first_quotedRound_escape, hq, hend]
  | case5 d more hend hopen ih =>
    rw [first_star]
    simp +arith [first_quotedRound_escape, hq, hend, ih, Function.comp_def]
  | case6 c rest hopen hplain ih =>
    rw [first_star]
    simp [first_quotedRound_plain q hplain, hopen, Ne.symm hopen, ih, Function.comp_def]

theorem ne_backslash_of_isQuote {q : Char} (hq : isQuote q) : q ≠ '\\' := by
  rintro rfl
  exact absurd hq (by decide)

/-- **Literals**: the quote that the group has matched is the one that closes. -/
theorem quoted_eq : quotedRegex.pattern = quotedPattern := by
  funext b text
  rw [pattern_eq, quotedRegex, first_seq]
  cases text with
  | nil => simp [quotedPattern]
  | cons q rest =>
    by_cases hq : isQuote q
    · have hbody := first_quotedBody (ne_backslash_of_isQuote hq) rest (some q)
      have hone : rest.length + 1 - rest.length = 1 := by omega
      simp only [first_group, Spot.groupSince, first_one_cons, hq, if_true, List.length_cons, hone, List.take_succ_cons,
        List.take_zero, first_seq, hbody, quotedPattern, Option.map_map]
      cases hlen : quotedBodyLength q rest with
      | none => rfl
      | some n =>
        obtain ⟨body, y, rfl, rfl⟩ := Pattern.quotedBodyLength_eq_some q rest hlen
        simp
        omega
    · simp [quotedPattern, hq]

/-! ## Comments -/

theorem first_blockClose (g : Option (List Char)) (text : List Char) (b : Option Char) :
    (star false (one fun _ => true)).first ((spelled ['*', '/']).first some) ⟨b, text, g⟩ =
      (blockCloseLength text).map fun n => ⟨some '/', text.drop n, g⟩ := by
  fun_induction blockCloseLength text generalizing b with
  | case1 => simp [first_spelled]
  | case2 rest =>
    rw [first_lazy_cons]
    simp [first_spelled]
  | case3 c rest hopen ih =>
    have hclose : ¬ ['*', '/'] <+: c :: rest := by
      rintro ⟨y, h⟩
      obtain ⟨rfl, hrest⟩ := List.cons.inj h
      exact hopen y rfl hrest.symm
    rw [first_lazy_cons, first_spelled, if_neg hclose]
    simp [ih, Function.comp_def]

/-- **Comments**: a line comment takes all it can, a block comment as little as it can. -/
theorem comment_eq : commentRegex.pattern = commentPattern := by
  funext b text
  rw [pattern_eq, commentRegex, first_alt, first_seq, first_seq, first_spelled, first_spelled]
  by_cases hline : ['/', '/'] <+: text
  · obtain ⟨rest, rfl⟩ := hline
    have hrun := first_many (k := some) (g := none) (p := fun c => !isLineTerminator c) rest (some '/') (by simp)
    have hlen := congrArg List.length (List.takeWhile_append_dropWhile (p := fun c => !isLineTerminator c) (l := rest))
    rw [List.length_append] at hlen
    simp [hrun, commentPattern]
    omega
  by_cases hblock : ['/', '*'] <+: text
  · obtain ⟨rest, rfl⟩ := hblock
    have hclose := first_blockClose none rest (some '*')
    simp [hclose, commentPattern, Function.comp_def]
    cases hlen : blockCloseLength rest with
    | none => rfl
    | some n =>
      obtain ⟨body, y, rfl, rfl, -⟩ := Pattern.blockCloseLength_eq_some rest hlen
      simp
      omega
  · have hnone : commentPattern b text = none :=
      Pattern.comment_eq_none (fun rest h => hline ⟨rest, h.symm⟩) (fun rest h => hblock ⟨rest, h.symm⟩) b
    simp [hline, hblock, hnone]

/-! ## Numbers -/

theorem isWordChar_of_isDigit {c : Char} (h : c.isDigit) : isWordChar c = true := by
  simp [isWordChar, Char.isAlphanum, h]

theorem followsWord_behindDigits {digits : List Char} (hdigits : ∀ c ∈ digits, c.isDigit) {b : Option Char}
    (hb : followsWord b = true) : followsWord (behindRun b digits) = true :=
  followsWord_behindRun (fun c hc => isWordChar_of_isDigit (hdigits c hc)) (Or.inr hb)

/-- Behind a digit there is no border before the end of the digits. -/
theorem first_fraction_in_word {rest : List Char} (hrest : rest.head?.any Char.isDigit = false) {digits : List Char}
    (hdigits : ∀ c ∈ digits, c.isDigit) {b : Option Char} (hb : followsWord b = true) (g : Option (List Char)) :
    fractionRegex.first some ⟨b, digits ++ rest, g⟩ =
      if startsWord rest then none else some ⟨behindRun b digits, rest, g⟩ := by
  rw [fractionRegex, first_seq, many, first_run hrest hdigits]
  · rw [first_wordBorder, followsWord_behindDigits hdigits hb]
    cases startsWord rest <;> rfl
  · intro _ x c y hxy
    obtain ⟨hx, hc⟩ : (∀ d ∈ x, d.isDigit) ∧ c.isDigit := by
      subst hxy
      exact ⟨fun d hd => hdigits d (by simp [hd]), hdigits c (by simp)⟩
    rw [first_wordBorder, followsWord_behindDigits hx hb]
    simp [startsWord, isWordChar_of_isDigit hc]

/-- Behind the point there is a border, if a word character comes next. -/
theorem first_fraction {b : Option Char} (hb : followsWord b = false) (text : List Char) (g : Option (List Char)) :
    fractionRegex.first some ⟨b, text, g⟩ =
      if !startsWord text then none
      else if (text.takeWhile Char.isDigit).isEmpty || startsWord (text.dropWhile Char.isDigit) then some ⟨b, text, g⟩
      else some ⟨behindRun b (text.takeWhile Char.isDigit), text.dropWhile Char.isDigit, g⟩ := by
  rw [fractionRegex, first_seq, many]
  cases text with
  | nil => simp [hb, startsWord]
  | cons c text =>
    rw [first_greedy_cons]
    by_cases hc : c.isDigit
    · have hword : followsWord (some c) = true := isWordChar_of_isDigit hc
      have hdigits : ∀ d ∈ text.takeWhile Char.isDigit, d.isDigit := fun _ => List.mem_takeWhile_imp
      have hin := first_fraction_in_word (head?_dropWhile_any Char.isDigit text) hdigits hword g
      rw [List.takeWhile_append_dropWhile, fractionRegex, first_seq, many] at hin
      rw [if_pos hc, hin]
      cases hend : startsWord (text.dropWhile Char.isDigit) <;> simp [hb, hc, hend, isWordChar_of_isDigit hc]
    · simp [hb, hc]

/-- Behind the whole digits comes a point with a fraction, or the end. -/
theorem first_point {b : Option Char} (hb : followsWord b = true) {rest : List Char}
    (hrest : rest.head?.any Char.isDigit = false) (g : Option (List Char)) :
    (seq (optional (char '.')) fractionRegex).first some ⟨b, rest, g⟩ =
      if startsWord rest then none
      else ((char '.').first (fractionRegex.first some) ⟨b, rest, g⟩).or (some ⟨b, rest, g⟩) := by
  have hend := first_fraction_in_word hrest (by simp : ∀ c ∈ ([] : List Char), c.isDigit) hb g
  rw [List.nil_append, behindRun_nil] at hend
  rw [first_seq, first_optional, hend]
  by_cases hword : startsWord rest
  · cases rest with
    | nil => cases hword
    | cons c rest =>
      have hc : c ≠ '.' := by
        rintro rfl
        exact absurd (startsWord_cons '.' rest ▸ hword) (by decide)
      simp [hc, hword]
  · simp [hword]

theorem length_takeWhile_add (p : Char → Bool) (text : List Char) :
    (text.takeWhile p).length + (text.dropWhile p).length = text.length := by
  rw [← List.length_append, List.takeWhile_append_dropWhile]

/-- Digits that are given back are taken again on the way to the end. -/
theorem first_point_digits {b : Option Char} (hb : followsWord b = true) {rest : List Char}
    (hrest : rest.head?.any Char.isDigit = false) (hword : startsWord rest) {c : Char} {digits : List Char}
    (hdigits : ∀ d ∈ c :: digits, d.isDigit) (g : Option (List Char)) :
    (seq (optional (char '.')) fractionRegex).first some ⟨b, c :: (digits ++ rest), g⟩ = none := by
  have hend := first_fraction_in_word hrest hdigits hb g
  rw [if_pos hword, List.cons_append] at hend
  have hc : c ≠ '.' := by
    rintro rfl
    exact absurd (hdigits _ List.mem_cons_self) (by decide)
  simp [hc, hend]

theorem first_digits {b : Option Char} (hb : followsWord b = true) (text : List Char) (g : Option (List Char)) :
    (many Char.isDigit).first ((seq (optional (char '.')) fractionRegex).first some) ⟨b, text, g⟩ =
      (seq (optional (char '.')) fractionRegex).first some
        ⟨behindRun b (text.takeWhile Char.isDigit), text.dropWhile Char.isDigit, g⟩ := by
  have hrest := head?_dropWhile_any Char.isDigit text
  have hdigits : ∀ d ∈ text.takeWhile Char.isDigit, d.isDigit := fun _ => List.mem_takeWhile_imp
  have hrun := first_run (k := (seq (optional (char '.')) fractionRegex).first some) (g := g) (b := b) hrest hdigits
  rw [List.takeWhile_append_dropWhile] at hrun
  refine hrun fun hfail x c y hxy => ?_
  have hend : startsWord (text.dropWhile Char.isDigit) = true := by
    rw [first_point (followsWord_behindDigits hdigits hb) hrest] at hfail
    refine Classical.byContradiction fun hend => ?_
    simp [hend] at hfail
  have hall : ∀ d ∈ x ++ c :: y, d.isDigit := hxy ▸ hdigits
  have hbefore := followsWord_behindDigits (fun d hd => hall d (List.mem_append_left _ hd)) hb
  exact first_point_digits hbefore hrest hend (fun d hd => hall d (List.mem_append_right x hd)) g

/-- What a number is where a point stands behind its digits. -/
theorem number_of_point {text rest : List Char} (h : text.dropWhile Char.isDigit = '.' :: rest) (b : Option Char) :
    numberPattern b text =
      if ((text.takeWhile Char.isDigit).isEmpty || followsWord b) = true then none
      else if !startsWord rest then some (text.takeWhile Char.isDigit).length
      else if (rest.takeWhile Char.isDigit).isEmpty || startsWord (rest.dropWhile Char.isDigit) then
        some ((text.takeWhile Char.isDigit).length + 1)
      else some ((text.takeWhile Char.isDigit).length + 1 + (rest.takeWhile Char.isDigit).length) := by
  simp only [numberPattern, h]

/-- Where a number begins, it is its digits or goes on behind a point. -/
theorem first_number {c : Char} (hc : c.isDigit) (b : Option Char) (text : List Char) (g : Option (List Char)) :
    numberRegex.first some ⟨b, c :: text, g⟩ =
      if followsWord b || startsWord (text.dropWhile Char.isDigit) then none
      else
        ((char '.').first (fractionRegex.first some)
          ⟨behindRun (some c) (text.takeWhile Char.isDigit), text.dropWhile Char.isDigit, g⟩).or
          (some ⟨behindRun (some c) (text.takeWhile Char.isDigit), text.dropWhile Char.isDigit, g⟩) := by
  have hword : followsWord (some c) = true := isWordChar_of_isDigit hc
  have hbehind := followsWord_behindDigits (fun _ => List.mem_takeWhile_imp (l := text)) hword
  rw [numberRegex, first_seq, first_wordBorder, first_seq, first_one_cons, if_pos hc, first_seq, first_digits hword,
    first_point hbehind (head?_dropWhile_any Char.isDigit text), startsWord_cons, isWordChar_of_isDigit hc]
  cases followsWord b <;> rfl

theorem number_eq_of_point {c : Char} (hc : c.isDigit) (b : Option Char) {text rest : List Char}
    (hrest : text.dropWhile Char.isDigit = '.' :: rest) :
    numberRegex.pattern b (c :: text) = numberPattern b (c :: text) := by
  have hdot : followsWord (some '.') = false := by decide
  have hlen := length_takeWhile_add Char.isDigit text
  have hlen' := length_takeWhile_add Char.isDigit rest
  have hrest' : (c :: text).dropWhile Char.isDigit = '.' :: rest := by rw [List.dropWhile_cons_of_pos hc, hrest]
  rw [hrest, List.length_cons] at hlen
  rw [pattern_eq, first_number hc, number_of_point hrest', List.takeWhile_cons_of_pos hc, hrest, startsWord_cons,
    first_char_cons, if_pos rfl, first_fraction hdot, ← followsWord_some '.', hdot]
  cases followsWord b <;> cases startsWord rest <;>
    cases (rest.takeWhile Char.isDigit).isEmpty || startsWord (rest.dropWhile Char.isDigit) <;> simp
  all_goals omega

theorem number_eq_of_no_point {c : Char} (hc : c.isDigit) (b : Option Char) {text : List Char}
    (hrest : ∀ rest, text.dropWhile Char.isDigit ≠ '.' :: rest) :
    numberRegex.pattern b (c :: text) = numberPattern b (c :: text) := by
  have hlen := length_takeWhile_add Char.isDigit text
  have hrest' : ∀ rest, (c :: text).dropWhile Char.isDigit ≠ '.' :: rest := by
    rwa [List.dropWhile_cons_of_pos hc]
  rw [pattern_eq, first_number hc, Pattern.number_of_no_point hrest', List.takeWhile_cons_of_pos hc,
    List.dropWhile_cons_of_pos hc]
  cases hend : text.dropWhile Char.isDigit with
  | nil =>
    rw [hend, List.length_nil] at hlen
    cases followsWord b <;> simp
    omega
  | cons d rest =>
    have hd : d ≠ '.' := fun hd => hrest rest (by rw [hend, hd])
    rw [hend, List.length_cons] at hlen
    cases followsWord b <;> cases hd' : isWordChar d <;> simp [hd, hd']
    omega

/-- **Numbers**: digits can be given back one by one, but only the border behind the point makes that of use. -/
theorem number_eq : numberRegex.pattern = numberPattern := by
  funext b text
  cases text with
  | nil =>
    rw [pattern_eq, numberRegex, first_seq, first_wordBorder]
    simp [numberPattern]
  | cons c text =>
    by_cases hc : c.isDigit
    · by_cases hpoint : ∃ rest, text.dropWhile Char.isDigit = '.' :: rest
      · obtain ⟨rest, hrest⟩ := hpoint
        exact number_eq_of_point hc b hrest
      · exact number_eq_of_no_point hc b fun rest hrest => hpoint ⟨rest, hrest⟩
    · rw [pattern_eq, numberRegex, first_seq, first_wordBorder]
      simp [hc, numberPattern]

/-! ## Tags -/

/-- Behind the first `>` of a text. -/
def throughClose (g : Option (List Char)) : List Char → Option Spot
  | [] => none
  | c :: rest => if c = '>' then some ⟨some '>', rest, g⟩ else throughClose g rest

theorem throughClose_append (g : Option (List Char)) (rest : List Char) : ∀ {x : List Char}, (∀ c ∈ x, c ≠ '>') →
    throughClose g (x ++ rest) = throughClose g rest
  | [], _ => rfl
  | c :: x, hx => by
    obtain ⟨hc, hx⟩ := List.forall_mem_cons.1 hx
    rw [List.cons_append, throughClose, if_neg hc, throughClose_append g rest hx]

theorem length_throughClose (g : Option (List Char)) : ∀ (text : List Char) (n : Nat),
    (throughClose g text).map (fun s => text.length + n - s.after.length) =
      (text.findIdx? (· = '>')).map fun i => i + 1 + n
  | [], _ => rfl
  | c :: rest, n => by
    have ih := length_throughClose g rest (n + 1)
    rw [throughClose, List.findIdx?_cons]
    by_cases hc : c = '>'
    · simp [hc]
      omega
    · simp only [hc, if_false, decide_false, Bool.false_eq_true, List.length_cons, Option.map_map]
      rw [Nat.add_assoc, Nat.add_comm 1 n, ih]
      cases rest.findIdx? (· = '>') with
      | none => rfl
      | some i =>
        simp
        omega

theorem first_slashClose_cons (b : Option Char) (c : Char) (text : List Char) (g : Option (List Char)) :
    (seq (optional (char '/')) (char '>')).first some ⟨b, c :: text, g⟩ =
      if c = '>' || c = '/' && text.head?.any (· = '>') then throughClose g (c :: text) else none := by
  by_cases hslash : c = '/'
  · subst hslash
    cases text with
    | nil => simp
    | cons d text => by_cases hd : d = '>' <;> simp [hd, throughClose]
  · by_cases hc : c = '>' <;> simp [hslash, hc, throughClose]

/-- The loop over anything but `>` stops at the first one, whether or not the slash before it is given back. -/
theorem first_toClose (g : Option (List Char)) : ∀ (text : List Char) (b : Option Char),
    (many fun c => c ≠ '>').first ((seq (optional (char '/')) (char '>')).first some) ⟨b, text, g⟩ = throughClose g text
  | [], b => by simp [many, throughClose]
  | c :: text, b => by
    have ih := first_toClose g text (some c)
    rw [many] at ih ⊢
    rw [first_greedy_cons, ih, first_slashClose_cons]
    by_cases hc : c = '>'
    · simp [hc]
    · rw [throughClose, if_neg hc, if_pos (decide_eq_true hc)]
      cases throughClose g text <;> simp

theorem first_tagEnd (b : Option Char) (text : List Char) (g : Option (List Char)) :
    tagEnd.first some ⟨b, text, g⟩ = if closesTagName text then throughClose g text else none := by
  rw [tagEnd, first_seq, first_optional]
  cases text with
  | nil => simp [closesTagName]
  | cons c text =>
    rw [first_seq, first_one_cons, first_toClose, first_slashClose_cons, Pattern.closesTagName_cons]
    by_cases hc : isScriptSpace c
    · have hne : c ≠ '>' := ne_of_isScriptSpace hc (by decide)
      have hslash : c ≠ '/' := ne_of_isScriptSpace hc (by decide)
      simp [hc, hne, hslash, throughClose]
    · simp [hc]

theorem tagName_class {c : Char} (hc : c.isAlphanum) : c ≠ '>' ∧ c ≠ '/' ∧ isScriptSpace c = false := by
  refine ⟨?_, ?_, ?_⟩
  · rintro rfl
    exact absurd hc (by decide)
  · rintro rfl
    exact absurd hc (by decide)
  · refine Bool.eq_false_iff.2 fun hspace => ?_
    rw [isAlphanum_of_isScriptSpace hspace] at hc
    cases hc

theorem first_tagName (b : Option Char) (text : List Char) (g : Option (List Char)) :
    tagName.first some ⟨b, text, g⟩ = if startsTagName text then throughClose g text else none := by
  cases text with
  | nil => simp [tagName, startsTagName]
  | cons c text =>
    have hrun := first_many (k := tagEnd.first some) (g := g) (p := Char.isAlphanum) text (some c) fun _ b' d y hd => by
      obtain ⟨hclose, hslash, hspace⟩ := tagName_class hd
      simp [first_tagEnd, Pattern.closesTagName_cons, hclose, hslash, hspace]
    rw [tagName, first_seq, first_one_cons, first_seq, hrun, first_tagEnd, startsTagName]
    by_cases hc : c.isAlpha
    · have hname : ∀ d ∈ c :: text.takeWhile Char.isAlphanum, d ≠ '>' := by
        intro d hd
        rcases List.mem_cons.1 hd with rfl | hd
        · exact (tagName_class (by simp [Char.isAlphanum, hc])).1
        · exact (tagName_class (List.mem_takeWhile_imp hd)).1
      have hclose := throughClose_append g (text.dropWhile Char.isAlphanum) hname
      rw [List.cons_append, List.takeWhile_append_dropWhile] at hclose
      simp [hc, hclose]
    · simp [hc]

theorem first_tagRegex (b : Option Char) (text : List Char) (g : Option (List Char)) :
    tagRegex.first some ⟨b, text, g⟩ = if opensTag text then throughClose g text else none := by
  rw [tagRegex, first_seq]
  match text with
  | [] => simp [opensTag]
  | c :: rest =>
    by_cases hc : c = '<'
    · subst hc
      rw [first_char_cons, if_pos rfl, first_seq, first_optional, first_tagName]
      match rest with
      | [] => simp [opensTag, startsTagName]
      | d :: more =>
        by_cases hd : d = '/'
        · subst hd
          have hslash : startsTagName ('/' :: more) = false := rfl
          simp [opensTag, first_tagName, hslash, throughClose]
        · have hopen : opensTag ('<' :: d :: more) = startsTagName (d :: more) := by
            rw [opensTag]
            exact fun _ h => hd (List.cons.inj h).1
          simp [hd, hopen, throughClose]
    · simp [hc, Pattern.opensTag_of_ne hc]

/-- **Tags**: every way through one ends behind the first `>`. -/
theorem tag_eq : tagRegex.pattern = tagPattern := by
  funext b text
  rw [pattern_eq, first_tagRegex, tagPattern]
  by_cases hopen : opensTag text
  · simpa [hopen] using length_throughClose none text 0
  · simp [hopen]

/-! ## Names of attributes -/

theorem first_attributeEnd (tail : AttributeTail) (s : Spot) :
    (attributeEnd tail).first k s = if tail.accepts s.after then k s else none := by
  obtain ⟨b, text, g⟩ := s
  cases tail with
  | strict =>
    rw [attributeEnd, first_ahead]
    match text with
    | [] => simp [AttributeTail.accepts]
    | [c] => by_cases hc : c = '=' <;> simp [Pattern.accepts_strict_cons, hc]
    | c :: d :: text =>
      by_cases hc : c = '='
      · by_cases hequals : d = '=' <;> by_cases hclose : d = '>' <;>
          simp [Pattern.accepts_strict_cons, hc, hequals, hclose]
      · simp [Pattern.accepts_strict_cons, hc]
  | loose =>
    have hrun := first_many (k := (char '=').first some) (g := g) (p := isScriptSpace) text b fun _ b' c y hc => by
      simp [ne_of_isScriptSpace hc (by decide : isScriptSpace '=' = false)]
    rw [attributeEnd, first_ahead, first_seq, hrun, AttributeTail.accepts]
    cases text.dropWhile isScriptSpace with
    | nil => simp
    | cons c rest => by_cases hc : c = '=' <;> simp [hc]

/-- No part of a name could be followed by what has to follow a name. -/
theorem not_accepts_of_isAttributeChar (tail : AttributeTail) {c : Char} (hc : isAttributeChar c) (text : List Char) :
    tail.accepts (c :: text) = false := by
  have heq : c ≠ '=' := by
    rintro rfl
    exact absurd hc (by decide)
  cases tail with
  | strict => simp [Pattern.accepts_strict_cons, heq]
  | loose =>
    have hspace : isScriptSpace c = false := by
      refine Bool.eq_false_iff.2 fun hspace => ?_
      rw [isAttributeChar_of_isScriptSpace hspace] at hc
      cases hc
    simp [AttributeTail.accepts, hspace, heq]

/-- **Names of attributes**: the whole run of their characters, before either tail. -/
theorem attribute_eq (tail : AttributeTail) : (attributeRegex tail).pattern = attributePattern tail := by
  funext b text
  rw [pattern_eq, attributeRegex, first_seq, first_wordBorder, attributePattern]
  cases text with
  | nil => simp
  | cons c text =>
    have hrun := first_many (k := (attributeEnd tail).first some) (g := none) (p := isAttributeChar) text (some c)
      fun _ b' d y hd => by simp [first_attributeEnd, not_accepts_of_isAttributeChar tail hd]
    have hlen := length_takeWhile_add isAttributeChar text
    rw [first_seq, first_one_cons, first_seq, hrun, first_attributeEnd, startsWord_cons]
    by_cases hc : isAttributeChar c
    · rw [List.takeWhile_cons_of_pos hc, List.dropWhile_cons_of_pos hc]
      cases followsWord b <;> cases isWordChar c <;> cases tail.accepts (text.dropWhile isAttributeChar) <;> simp [hc]
      all_goals omega
    · simp [hc]

end Regex

/-! ## The rules -/

namespace Pattern

theorem advances_comment : commentPattern.Advances := by
  intro before text h
  unfold commentPattern at h
  split at h <;> simp at h

theorem advances_quoted : quotedPattern.Advances := by
  intro before text h
  unfold quotedPattern at h
  split at h
  · cases h
  · split at h <;> simp at h

theorem advances_word {words : List (List Char)} (hwords : ∀ word ∈ words, word ≠ [] ∧ ∀ c ∈ word, isWordChar c) :
    (wordPattern words).Advances := by
  intro before text h
  unfold wordPattern at h
  dsimp only at h
  split at h
  · cases h
  · split at h
    · rename_i hword
      rw [List.length_eq_zero_iff.1 (Option.some.inj h)] at hword
      exact (hwords [] hword).1 rfl
    · cases h

theorem advances_number : numberPattern.Advances := by
  intro before text h
  unfold numberPattern at h
  dsimp only at h
  split at h
  · cases h
  · rename_i hstart
    have hne : 0 < (text.takeWhile Char.isDigit).length := List.length_pos_iff.2 fun h => by simp [h] at hstart
    grind

theorem advances_tag : tagPattern.Advances := by
  intro before text h
  unfold tagPattern at h
  split at h <;> simp at h

theorem advances_attribute (tail : AttributeTail) : (attributePattern tail).Advances := by
  intro before text h
  unfold attributePattern at h
  dsimp only at h
  split at h
  · cases h
  · rename_i hstart
    split at h
    · rw [List.length_eq_zero_iff.1 (Option.some.inj h)] at hstart
      simp at hstart
    · cases h

end Pattern

namespace Rule

/-- **Every rule matches what its expression matches**, at every place of every text, and never without taking a
character. -/
theorem wellMade_of_mem_withTail (tail : AttributeTail) : ∀ rule ∈ withTail tail, rule.WellMade :=
  have hframework := Regex.wordChars_of_mem frameworkNames (by simp)
  have hreserved := Regex.wordChars_of_mem keywords (by simp)
  forall_withTail tail
    ⟨Regex.comment_eq, Pattern.describes_comment.bounded, Pattern.advances_comment⟩
    ⟨Regex.quoted_eq, Pattern.describes_quoted.bounded, Pattern.advances_quoted⟩
    ⟨Regex.word_eq hframework, (Pattern.describes_word _).bounded, Pattern.advances_word hframework⟩
    ⟨Regex.word_eq hreserved, (Pattern.describes_word _).bounded, Pattern.advances_word hreserved⟩
    ⟨Regex.number_eq, Pattern.describes_number.bounded, Pattern.advances_number⟩
    ⟨Regex.tag_eq, Pattern.describes_tag.bounded, Pattern.advances_tag⟩
    ⟨Regex.attribute_eq tail, (Pattern.describes_attribute _).bounded, Pattern.advances_attribute tail⟩

/-- The rule of a category. -/
def ofCategory (tail : AttributeTail) : Category → Rule
  | .comment => comments
  | .quoted => literals
  | .framework => framework
  | .keyword => reserved
  | .number => numbers
  | .tag => tags
  | .attribute => attributes tail

theorem eq_ofCategory (tail : AttributeTail) : ∀ rule ∈ withTail tail, rule = ofCategory tail rule.category :=
  forall_withTail tail rfl rfl rfl rfl rfl rfl rfl

theorem wellMade_of_mem_scanner : ∀ rule ∈ scanner, rule.WellMade :=
  wellMade_of_mem_withTail .strict

theorem wellMade_of_mem_nested : ∀ rule ∈ nested, rule.WellMade :=
  fun rule hrule => wellMade_of_mem_scanner rule (List.mem_filter.1 hrule).1

end Rule

end JsxView
