import JsxView.Backtracking
import JsxView.Proofs.Expressions
import Mathlib.Tactic.Ring
/-!
# GivenUp — what reading goes back for, and searches that are given up

The engine that counts how often it goes back fails at a place after the same number of times whatever it has left
(`Spends`), so a search that comes by a place goes on behind it with so much less (`Regex.Moves`).  What a loop over a
run of characters spends is a sum over the places where it can end (`Regex.runCost`).  This is a square for a number
that a letter follows (`Regex.spends_number`); for the names of attributes and for literals it is no more than the
length, but a search tries them from everywhere (`Regex.moves_hyphened`, `Regex.moves_escapes`), and for reserved words
it is the same for every word of the text (`Regex.moves_letters`).  So on lines that are long enough each of these
searches is given up.

Where a text lacks the characters that a category needs its rule does not match (`Rule.pattern_eq_none_of_lacks`).
-/
namespace JsxView

/-- Reading that fails after going back so many times, whatever there is to spend. -/
def Spends (cost : Nat) (f : Nat → Verdict) : Prop :=
  ∀ n, f (n + cost) = .failed n

/-- The characters of which there is one in every match of a category, or right behind it. -/
def Category.needs : Category → Char → Bool
  | .comment, c => c = '/'
  | .quoted, c => isQuote c
  | .framework, c => c.isUpper
  | .keyword, c => c.isLower && !(['a', 'b', 'x'].contains c)
  | .number, c => c.isDigit
  | .tag, c => c = '<'
  | .attribute, c => c = '='

theorem Category.lacks_of_any {category : Category} {text : List Char} (h : text.any category.needs = false) :
    ∀ c ∈ text, category.needs c = false :=
  fun c hc => Bool.eq_false_iff.2 (List.any_eq_false.1 h c hc)

namespace Spends

variable {f g : Nat → Verdict} {cost other : Nat}

theorem failed : Spends 0 .failed :=
  fun _ => rfl

theorem orElse (hf : Spends cost f) (hg : Spends other g) : Spends (cost + other + 1) fun n => (f n).orElse g := by
  intro n
  have hn : n + (cost + other + 1) = n + other + 1 + cost := by omega
  simp only [hn, hf (n + other + 1)]
  exact hg n

theorem instead (hf : Spends cost f) (hg : Spends other g) : Spends (cost + other + 1) fun n => (f n).instead g := by
  intro n
  have hn : n + (cost + other + 1) = n + other + 1 + cost := by omega
  simp only [hn, hf (n + other + 1)]
  exact hg n

theorem of_eq (hf : Spends cost f) (h : g = f) : Spends cost g :=
  h ▸ hf

end Spends

namespace Regex

open Verdict

/-- A search that goes on as the search from a spot further on, after going back so many times. -/
def Moves (r : Regex) (cost : Nat) (before : Option Char) (text : List Char) (b : Option Char) (rest : List Char) :
    Prop :=
  ∀ n, r.search before text (n + cost) = r.search b rest n

namespace Moves

variable {r : Regex} {cost other : Nat} {before b b' : Option Char} {c : Char} {text rest rest' : List Char}

theorem step (h : Spends cost (r.attempt before (c :: rest))) : r.Moves (cost + 1) before (c :: rest) (some c) rest := by
  intro n
  rw [search, ← Nat.add_assoc, Nat.add_right_comm, h]
  rfl

theorem trans (h : r.Moves cost before text b rest) (h' : r.Moves other b rest b' rest') :
    r.Moves (cost + other) before text b' rest' := by
  intro n
  rw [Nat.add_comm cost, ← Nat.add_assoc, h, h']

/-- **A search that has to go back more often than the limit allows is given up.** -/
theorem gaveUp (h : r.Moves cost before text b rest) (hcost : backtrackLimit < cost) :
    r.search before text backtrackLimit = .gaveUp := by
  refine Classical.byContradiction fun hup => ?_
  have hmore := (r.steady_search before text).more hup (cost - backtrackLimit)
  have hrest := h 0
  rw [Nat.add_sub_cancel' (Nat.le_of_lt hcost)] at hmore
  rw [Nat.zero_add, hmore] at hrest
  -- more is left of the search than it has had
  cases hv : r.search before text backtrackLimit with
  | gaveUp => exact hup hv
  | found l =>
    rw [hv] at hrest
    have := (r.steady_search b rest).le (Or.inl hrest.symm)
    omega
  | failed l =>
    rw [hv] at hrest
    have := (r.steady_search b rest).le (Or.inr hrest.symm)
    omega

theorem givesUp (h : r.Moves cost before text b rest) (hcost : backtrackLimit < cost) (hr : r.plain = false)
    (offset : Nat) : Engine.backtracking.givesUp r ⟨offset, before, text⟩ = true := by
  show (!r.plain && decide (r.search before text backtrackLimit = .gaveUp)) = true
  rw [hr, h.gaveUp hcost]
  rfl

end Moves

/-! ## Parts of expressions -/

variable {k : Continuation} {b : Option Char} {c : Char} {rest : List Char} {g : Option (List Char)} {cost : Nat}

theorem work_one {accept : Char → Bool} (hc : accept c) :
    (one accept).work k ⟨b, c :: rest, g⟩ = k ⟨some c, rest, g⟩ := by
  funext n
  simp [work, hc, Spot.skip]

theorem spends_one {accept : Char → Bool} (h : rest.head?.any accept = false) :
    Spends 0 ((one accept).work k ⟨b, rest, g⟩) := by
  intro n
  simp [work, h]

/-- What a greedy loop over a run of characters spends, if going on fails wherever the loop ends. -/
def runCost (cost : Nat → Nat) : Nat → Nat
  | 0 => 0 + cost 0 + 1
  | m + 1 => runCost cost m + cost (m + 1) + 1

theorem spends_run (cost : Nat → Nat) {accept : Char → Bool} {P : Option Char → Prop}
    (hrest : rest.head?.any accept = false) : ∀ {run : List Char} {b : Option Char} {fuel : Nat},
    (∀ c ∈ run, accept c ∧ P (some c)) → P b → run.length < fuel →
      (∀ b y, P b → y <:+ run → Spends (cost y.length) (k ⟨b, y ++ rest, g⟩)) →
        Spends (runCost cost run.length) (loop (one accept).work true k fuel ⟨b, run ++ rest, g⟩)
  | [], b, fuel + 1, _, hb, _, hexit => (spends_one hrest).orElse (hexit b [] hb List.suffix_rfl)
  | c :: run, b, fuel + 1, hrun, hb, hfuel, hexit => by
    obtain ⟨⟨hc, hP⟩, hrun⟩ := List.forall_mem_cons.1 hrun
    have hmore := spends_run cost hrest (b := some c) hrun hP (Nat.lt_of_succ_lt_succ hfuel)
      fun b y hb hy => hexit b y hb (hy.trans (List.suffix_cons c run))
    have hround : Spends (runCost cost run.length) ((one accept).work (fun t m =>
        if t.after.length < (run ++ rest).length + 1 then loop (one accept).work true k fuel t m else .failed m)
        ⟨b, c :: (run ++ rest), g⟩) := by
      rw [work_one hc]
      simpa using hmore
    exact hround.orElse (hexit b (c :: run) hb List.suffix_rfl)

theorem spends_star (cost : Nat → Nat) {accept : Char → Bool} {P : Option Char → Prop}
    (hrest : rest.head?.any accept = false) {run : List Char} (hrun : ∀ c ∈ run, accept c ∧ P (some c)) (hb : P b)
    (hexit : ∀ b y, P b → y <:+ run → Spends (cost y.length) (k ⟨b, y ++ rest, g⟩)) :
    Spends (runCost cost run.length) ((star true (one accept)).work k ⟨b, run ++ rest, g⟩) := by
  have hfuel : run.length < (run ++ rest).length + 1 := by
    rw [List.length_append]
    omega
  exact spends_run cost hrest hrun hb hfuel hexit

theorem runCost_const (d : Nat) : ∀ m, runCost (fun _ => d) m = (m + 1) * (d + 1)
  | 0 => by simp [runCost]
  | m + 1 => by
    rw [runCost, runCost_const d m]
    ring

/-- Between two word characters there is no border. -/
theorem spends_wordBorder_inside (hb : b.any isWordChar) (hc : isWordChar c) :
    Spends 1 (wordBorder.work k ⟨b, c :: rest, g⟩) := by
  refine (Spends.failed.orElse .failed).of_eq (funext fun n => ?_)
  simp [wordBorder, work, hb, hc, plain, ways]

/-- There is a border, and what is behind it fails. -/
theorem spends_wordBorder (h : b.any isWordChar ≠ isWordChar c) (hk : Spends cost (k ⟨b, c :: rest, g⟩)) :
    Spends (cost + 2) (wordBorder.work k ⟨b, c :: rest, g⟩) := by
  have hback := Spends.failed.orElse hk
  cases hb : b.any isWordChar with
  | true =>
    have hc : isWordChar c = false := by simpa [hb] using h
    have hall := (hback.orElse .failed).of_eq (g := wordBorder.work k ⟨b, c :: rest, g⟩) (funext fun n => by
      simp [wordBorder, work, hb, hc, plain, ways])
    rwa [Nat.zero_add] at hall
  | false =>
    have hc : isWordChar c = true := by simpa [hb] using h
    have hall := (Spends.failed.orElse hback).of_eq (g := wordBorder.work k ⟨b, c :: rest, g⟩) (funext fun n => by
      simp [wordBorder, work, hb, hc, plain, ways])
    rwa [Nat.zero_add, Nat.zero_add] at hall

/-- What is wanted ahead is not there. -/
theorem spends_ahead {body : Regex} (hplain : body.plain) {s : Spot} (h : (ahead true body).first some s = none) :
    Spends 0 ((ahead true body).work k s) := by
  have hways : (body.ways s).isEmpty = true := by
    cases hempty : (body.ways s).isEmpty with
    | true => rfl
    | false => simp [first, ways, hempty] at h
  intro n
  simp [work, hplain, hways]

/-! ## Numbers -/

theorem runCost_fractions : ∀ m, runCost (fun m => 0 + (m + 1) * 2 + 1) m = (m + 1) * (m + 4)
  | 0 => rfl
  | m + 1 => by
    rw [runCost, runCost_fractions m]
    ring

section

variable {digits : List Char} (hdigits : ∀ c ∈ digits, c.isDigit) (hword : isWordChar c) (hletter : c.isDigit = false)
include hdigits hword hletter

theorem spends_fraction (hb : b.any isWordChar) : Spends ((digits.length + 1) * 2)
    (fractionRegex.work k ⟨b, digits ++ c :: rest, g⟩) := by
  have hinside : ∀ d ∈ digits, d.isDigit ∧ (some d).any isWordChar :=
    fun d hd => ⟨hdigits d hd, isWordChar_of_isDigit (hdigits d hd)⟩
  have hend : (c :: rest).head?.any Char.isDigit = false := by simpa using hletter
  have hloop := spends_star (fun _ => 1) (k := wordBorder.work k) (P := fun b => b.any isWordChar = true) (g := g) hend
    hinside hb fun b y hb hy => by
      cases y with
      | nil => exact spends_wordBorder_inside hb hword
      | cons d y => exact spends_wordBorder_inside hb (hinside d (hy.subset List.mem_cons_self)).2
  rwa [runCost_const] at hloop

/-- **A run of digits with a letter behind it** is read once more for each digit, from behind the point that might
follow there. -/
theorem spends_number (hb : b.any isWordChar = false) {d : Char} (hd : d.isDigit) :
    Spends ((digits.length + 1) * (digits.length + 4) + 2) (numberRegex.attempt b (d :: (digits ++ c :: rest))) := by
  have hinside : ∀ d ∈ digits, d.isDigit ∧ (some d).any isWordChar :=
    fun d hd => ⟨hdigits d hd, isWordChar_of_isDigit (hdigits d hd)⟩
  have hend : (c :: rest).head?.any Char.isDigit = false := by simpa using hletter
  have hloop := spends_star (fun m => 0 + (m + 1) * 2 + 1) (g := none) (b := some d)
    (k := (optional (char '.')).work (fractionRegex.work fun _ => found)) (P := fun b => b.any isWordChar = true) hend
    hinside (isWordChar_of_isDigit hd) fun b y hb hy => by
      have hpoint : (y ++ c :: rest).head?.any (fun e => decide (e = '.')) = false := by
        refine Bool.eq_false_iff.2 fun hany => ?_
        have hdot : isWordChar '.' = true := by
          cases y with
          | nil => exact of_decide_eq_true hany ▸ hword
          | cons d y => exact of_decide_eq_true hany ▸ (hinside d (hy.subset List.mem_cons_self)).2
        exact absurd hdot (by decide)
      exact (spends_one hpoint).orElse (spends_fraction (fun d hd => hdigits d (hy.subset hd)) hword hletter hb)
  rw [runCost_fractions] at hloop
  refine spends_wordBorder ?_ ?_
  · rw [hb, isWordChar_of_isDigit hd]
    exact Bool.false_ne_true
  · show Spends _ ((one Char.isDigit).work _ _)
    rw [work_one hd]
    exact hloop

end

/-! ## Names of attributes -/

/-- **A run of letters and hyphens with no sign of equality behind it**, from a border on. -/
theorem spends_attribute {d : Char} {run : List Char} (hrun : ∀ c ∈ d :: run, isAttributeChar c)
    (hend : rest.head?.any isAttributeChar = false) (htail : AttributeTail.loose.accepts rest = false)
    (hb : b.any isWordChar ≠ isWordChar d) :
    Spends (run.length + 3) ((attributeRegex .loose).attempt b (d :: (run ++ rest))) := by
  obtain ⟨hd, hrun⟩ := List.forall_mem_cons.1 hrun
  have hloop := spends_star (fun _ => 0) (k := (attributeEnd .loose).work fun _ => found) (P := fun _ => True) (g := none)
    (b := some d) hend (fun c hc => ⟨hrun c hc, trivial⟩) trivial fun b y _ hy => by
      refine spends_ahead rfl ?_
      have hnot : AttributeTail.loose.accepts (y ++ rest) = false := by
        cases y with
        | nil => exact htail
        | cons c y => exact not_accepts_of_isAttributeChar _ (hrun c (hy.subset List.mem_cons_self)) _
      show (attributeEnd .loose).first some _ = none
      rw [first_attributeEnd, hnot]
      rfl
  rw [runCost_const, Nat.mul_one] at hloop
  refine spends_wordBorder hb ?_
  show Spends _ ((one isAttributeChar).work _ _)
  rw [work_one hd]
  exact hloop

/-! ## Literals -/

/-- **The inside of a literal that is never closed**, and how many rounds it has. -/
inductive Unclosed (q : Char) : Nat → List Char → Prop where
  | nil : Unclosed q 0 []
  | plain {m : Nat} {c : Char} {rest : List Char} : c ≠ q → c ≠ '\\' → Unclosed q m rest →
      Unclosed q (m + 1) (c :: rest)
  | escape {m : Nat} {c : Char} {rest : List Char} : isLineTerminator c = false → Unclosed q m rest →
      Unclosed q (m + 1) ('\\' :: c :: rest)

theorem unclosed_of_not_mem {q : Char} : ∀ {text : List Char}, q ∉ text → '\\' ∉ text →
    Unclosed q text.length text
  | [], _, _ => .nil
  | c :: rest, hq, hback => by
    rw [List.mem_cons, not_or] at hq hback
    exact .plain (Ne.symm hq.1) (Ne.symm hback.1) (unclosed_of_not_mem hq.2 hback.2)

theorem spends_again {q : Char} (h : rest.head? ≠ some q) : Spends 0 (again.work k ⟨b, rest, some [q]⟩) := by
  intro n
  cases rest with
  | nil => simp [work]
  | cons c rest =>
    have hc : q ≠ c := fun hq => h (congrArg some hq.symm)
    simp [work, hc]

/-- A round of a literal where its closing quote is not next. -/
theorem spends_quotedRound {q : Char} (h : rest.head? ≠ some q) {cost other : Nat}
    (hescape : Spends cost ((seq (char '\\') (one fun c => !isLineTerminator c)).work k ⟨b, rest, some [q]⟩))
    (hplain : Spends other ((one fun c => c ≠ '\\').work k ⟨b, rest, some [q]⟩)) :
    Spends (cost + other + 2) (quotedRound.work k ⟨b, rest, some [q]⟩) := by
  have hnot := (spends_again (k := fun _ => found) (b := b) h).instead hplain
  rw [Nat.zero_add] at hnot
  exact hescape.orElse hnot

theorem spends_quotedRound_plain {q : Char} (hne : c ≠ q) (hback : c ≠ '\\')
    (hk : Spends cost (k ⟨some c, rest, some [q]⟩)) :
    Spends (cost + 2) (quotedRound.work k ⟨b, c :: rest, some [q]⟩) := by
  have hplain : Spends cost ((one fun c => c ≠ '\\').work k ⟨b, c :: rest, some [q]⟩) := by
    rwa [work_one (by simpa using hback)]
  have hall := spends_quotedRound (by simpa using hne) (spends_one (by simpa using hback)) hplain
  rwa [Nat.zero_add] at hall

theorem spends_quotedRound_escape {q : Char} (hq : q ≠ '\\') (hend : isLineTerminator c = false)
    (hk : Spends cost (k ⟨some c, rest, some [q]⟩)) :
    Spends (cost + 2) (quotedRound.work k ⟨b, '\\' :: c :: rest, some [q]⟩) := by
  have hescape : Spends cost ((seq (char '\\') (one fun c => !isLineTerminator c)).work k
      ⟨b, '\\' :: c :: rest, some [q]⟩) := by
    show Spends _ ((char '\\').work _ _)
    rwa [char, work_one rfl, work_one (by simpa using hend)]
  exact spends_quotedRound (by simpa using hq.symm) hescape (spends_one (by rfl))

/-- **Reading to the end of a literal that is never closed** goes back three times in each round. -/
theorem spends_unclosed {q : Char} (hq : q ≠ '\\') {m : Nat} {text : List Char} (h : Unclosed q m text) :
    ∀ {b : Option Char} {fuel : Nat}, text.length < fuel →
      Spends (3 * m + 3) (loop quotedRound.work false (again.work fun _ => found) fuel ⟨b, text, some [q]⟩) := by
  induction h with
  | nil =>
    rintro b (_ | fuel) hfuel
    · cases hfuel
    · exact (spends_again (by simp)).orElse (spends_quotedRound (by simp) (spends_one rfl) (spends_one rfl))
  | @plain m c rest hne hback _ ih =>
    rintro b (_ | fuel) hfuel
    · cases hfuel
    · rw [show 3 * (m + 1) + 3 = 0 + (3 * m + 3 + 2) + 1 by omega]
      refine (spends_again (by simpa using hne)).orElse (spends_quotedRound_plain hne hback ?_)
      simpa using ih (Nat.lt_of_succ_lt_succ hfuel)
  | @escape m c rest hend _ ih =>
    rintro b (_ | fuel) hfuel
    · cases hfuel
    · rw [List.length_cons, List.length_cons] at hfuel
      have hshort : rest.length < rest.length + 1 + 1 := by omega
      rw [show 3 * (m + 1) + 3 = 0 + (3 * m + 3 + 2) + 1 by omega]
      refine (spends_again (by simpa using hq.symm)).orElse (spends_quotedRound_escape hq hend ?_)
      simpa [hshort] using ih (show rest.length < fuel by omega)

/-- **A literal that is never closed** is read to the end of the text. -/
theorem spends_quoted {q : Char} (hq : isQuote q) {m : Nat} {text : List Char} (h : Unclosed q m text) :
    Spends (3 * m + 3) (quotedRegex.attempt b (q :: text)) := by
  have hone : text.length + 1 - text.length = 1 := by omega
  have hloop : Spends (3 * m + 3)
      (((star false quotedRound).seq again).work (fun _ => found) ⟨some q, text, some [q]⟩) :=
    spends_unclosed (ne_backslash_of_isQuote hq) h (Nat.lt_succ_self _)
  show Spends _ ((one isQuote).work
    (fun t => ((star false quotedRound).seq again).work (fun _ => found) (Spot.groupSince ⟨b, q :: text, none⟩ t)) _)
  rw [work_one hq]
  simpa [Spot.groupSince, hone] using hloop

/-! ## Searches that are given up -/

/-- Words of one letter, each with a space behind it. -/
def letters : Nat → List Char
  | 0 => []
  | m + 1 => 'x' :: ' ' :: letters m

theorem byteSize_letters : ∀ m, byteSize (letters m) = 2 * m
  | 0 => rfl
  | m + 1 => by
    rw [letters, byteSize_cons, byteSize_cons, byteSize_letters m]
    show 1 + (1 + 2 * m) = _
    omega

theorem length_letters : ∀ m, (letters m).length = 2 * m
  | 0 => rfl
  | m + 1 => by rw [letters, List.length_cons, List.length_cons, length_letters m, Nat.mul_succ]

theorem getLast?_letters : ∀ m, (letters (m + 1)).getLast? = some ' '
  | 0 => rfl
  | m + 1 => by rw [letters, List.getLast?_cons_cons, letters, List.getLast?_cons_cons, ← letters, getLast?_letters m]

theorem moves_space {b : Option Char} (hb : b = none ∨ b = some ' ') (rest : List Char) :
    (wordRegex keywords).Moves 3 b (' ' :: rest) (some ' ') rest := by
  have hspends : Spends 2 ((wordRegex keywords).attempt b (' ' :: rest)) := by
    rcases hb with rfl | rfl <;> exact fun _ => rfl
  exact .step hspends

theorem moves_letter {b : Option Char} (hb : b = none ∨ b = some ' ') (rest : List Char) :
    (wordRegex keywords).Moves 68 b ('x' :: ' ' :: rest) (some ' ') rest := by
  have hletter : Spends 33 ((wordRegex keywords).attempt b ('x' :: ' ' :: rest)) := by
    rcases hb with rfl | rfl <;> exact fun _ => rfl
  have hspace : Spends 33 ((wordRegex keywords).attempt (some 'x') (' ' :: rest)) := fun _ => rfl
  exact (Moves.step hletter).trans (.step hspace)

/-- **A search for a reserved word** tries all of them at both ends of every other word. -/
theorem moves_letters (rest : List Char) : ∀ (m : Nat) {b : Option Char}, b = none ∨ b = some ' ' →
    (wordRegex keywords).Moves (68 * (m + 1)) b (letters (m + 1) ++ rest) (some ' ') rest
  | 0, b, hb => moves_letter hb rest
  | m + 1, b, hb => by
    rw [Nat.mul_succ, Nat.add_comm]
    exact (moves_letter hb (letters (m + 1) ++ rest)).trans (moves_letters rest m (Or.inr rfl))

theorem moves_spaces (rest : List Char) : ∀ (m : Nat) {b : Option Char}, b = none ∨ b = some ' ' →
    (wordRegex keywords).Moves (3 * (m + 1)) b (List.replicate (m + 1) ' ' ++ rest) (some ' ') rest
  | 0, b, hb => moves_space hb rest
  | m + 1, b, hb => by
    rw [Nat.mul_succ, Nat.add_comm]
    exact (moves_space hb (List.replicate (m + 1) ' ' ++ rest)).trans (moves_spaces rest m (Or.inr rfl))

/-- **A reserved word behind words of one letter.** -/
def lateWord (m : Nat) : List Char :=
  letters (m + 1) ++ "const".toList

theorem byteSize_lateWord (m : Nat) : byteSize (lateWord m) = 2 * (m + 1) + 5 := by
  rw [lateWord, byteSize_append, byteSize_letters]
  rfl

theorem length_lateWord (m : Nat) : (lateWord m).length = 2 * (m + 1) + 5 := by
  rw [lateWord, List.length_append, length_letters]
  rfl

/-- Every place in such words is in front of a letter or of a space. -/
theorem exists_drop_letters (rest : List Char) : ∀ {m j : Nat}, j < (letters m).length →
    ∃ y, (letters m ++ rest).drop j = 'x' :: ' ' :: y ∨ (letters m ++ rest).drop j = ' ' :: y
  | m + 1, 0, _ => ⟨letters m ++ rest, Or.inl rfl⟩
  | m + 1, 1, _ => ⟨letters m ++ rest, Or.inr rfl⟩
  | m + 1, _ + 2, hj => exists_drop_letters rest (m := m) (Nat.lt_of_succ_lt_succ (Nat.lt_of_succ_lt_succ hj))

theorem mem_letters {c : Char} : ∀ {m : Nat}, c ∈ letters m → c ∈ ['x', ' ']
  | m + 1, h => by
    rw [letters, List.mem_cons, List.mem_cons] at h
    rcases h with rfl | rfl | h
    · exact List.mem_cons_self
    · exact List.mem_cons_of_mem _ List.mem_cons_self
    · exact mem_letters h

/-- Nothing in it is of what other categories need. -/
theorem lacks_lateWord {m : Nat} {category : Category} (hother : category ≠ .keyword) :
    ∀ c ∈ lateWord m, category.needs c = false := by
  have hchars : ∀ c ∈ ['x', ' '] ++ "const".toList, category.needs c = false := by
    refine Category.lacks_of_any ?_
    cases category with
    | keyword => exact absurd rfl hother
    | _ => decide
  intro c hc
  refine hchars c (List.mem_append.2 ?_)
  exact (List.mem_append.1 hc).imp_left mem_letters

/-- **A search for a reserved word that comes by words enough is given up.** -/
theorem givesUp_letters (rest : List Char) {m : Nat} (hm : 14705 ≤ m) (offset : Nat) :
    Engine.backtracking.givesUp (wordRegex keywords) ⟨offset, none, letters (m + 1) ++ rest⟩ = true :=
  (moves_letters rest m (Or.inl rfl)).givesUp (by unfold backtrackLimit; omega) rfl offset

/-- **White space before the words costs a search too**, and so it may be given up where fewer words would not do. -/
theorem givesUp_indented (rest : List Char) {j m : Nat} (hcost : backtrackLimit < 3 * (j + 1) + 68 * (m + 1))
    (offset : Nat) : Engine.backtracking.givesUp (wordRegex keywords)
      ⟨offset, none, List.replicate (j + 1) ' ' ++ (letters (m + 1) ++ rest)⟩ = true :=
  ((moves_spaces (letters (m + 1) ++ rest) j (Or.inl rfl)).trans (moves_letters rest m (Or.inr rfl))).givesUp hcost rfl
    offset

/-- **A search that comes to the reserved word behind fewer words is not given up.** -/
theorem not_givesUp_lateWord {m : Nat} (hm : m < 14705) (offset : Nat) :
    Engine.backtracking.givesUp (wordRegex keywords) ⟨offset, none, lateWord m⟩ = false := by
  have hword : (wordRegex keywords).search (some ' ') "const".toList 6 = .found 0 := by rfl
  obtain ⟨left, hleft⟩ : ∃ left, backtrackLimit = 6 + left + 68 * (m + 1) :=
    ⟨backtrackLimit - (6 + 68 * (m + 1)), by unfold backtrackLimit; omega⟩
  have hmoves := moves_letters "const".toList m (Or.inl rfl) (6 + left)
  have hmore := ((wordRegex keywords).steady_search (some ' ') "const".toList).more (n := 6) (by rw [hword]; nofun) left
  rw [hmore, hword, ← hleft] at hmoves
  show (!(wordRegex keywords).plain && decide ((wordRegex keywords).search none (lateWord m) backtrackLimit = .gaveUp)) =
    false
  rw [lateWord, hmoves]
  rfl

/-- **A search for a number that a letter follows is given up**, if it has digits enough. -/
theorem givesUp_digits (rest : List Char) {m : Nat} (hm : 998 ≤ m) (offset : Nat) :
    Engine.backtracking.givesUp numberRegex ⟨offset, none, List.replicate (m + 1) '1' ++ 'n' :: rest⟩ = true := by
  have hdigits : ∀ c ∈ List.replicate m '1', c.isDigit := fun c hc => List.eq_of_mem_replicate hc ▸ rfl
  have hspends : Spends (((List.replicate m '1').length + 1) * ((List.replicate m '1').length + 4) + 2)
      (numberRegex.attempt none ('1' :: (List.replicate m '1' ++ 'n' :: rest))) :=
    spends_number hdigits rfl rfl rfl rfl
  refine (Moves.step hspends).givesUp ?_ rfl offset
  rw [List.length_replicate]
  calc backtrackLimit < (998 + 1) * (998 + 4) := by decide
    _ ≤ (m + 1) * (m + 4) := Nat.mul_le_mul (by omega) (by omega)
    _ ≤ (m + 1) * (m + 4) + 2 + 1 := Nat.le_add_right _ 3

/-- Letters with hyphens between them. -/
def hyphened : Nat → List Char
  | 0 => []
  | m + 1 => 'a' :: '-' :: hyphened m

theorem length_hyphened : ∀ m, (hyphened m).length = 2 * m
  | 0 => rfl
  | m + 1 => by
    rw [hyphened, List.length_cons, List.length_cons, length_hyphened m]
    omega

theorem mem_hyphened {c : Char} : ∀ {m : Nat}, c ∈ hyphened m → c ∈ ['a', '-']
  | m + 1, h => by
    rw [hyphened, List.mem_cons, List.mem_cons] at h
    rcases h with rfl | rfl | h
    · exact List.mem_cons_self
    · exact List.mem_cons_of_mem _ List.mem_cons_self
    · exact mem_hyphened h

theorem isAttributeChar_hyphened (m : Nat) : ∀ c ∈ hyphened m, isAttributeChar c :=
  fun c hc => List.all_eq_true.1 (by decide : ['a', '-'].all isAttributeChar) c (mem_hyphened hc)

/-- **A search for the name of an attribute** reads a hyphened word from each of its borders to the end. -/
theorem moves_hyphened {rest : List Char} (hend : rest.head?.any isAttributeChar = false)
    (htail : AttributeTail.loose.accepts rest = false) : ∀ (m : Nat) {b : Option Char}, b.any isWordChar = false →
    ∃ b', (attributeRegex .loose).Moves (m * (2 * m + 7)) b (hyphened m ++ rest) b' rest
  | 0, b, _ => ⟨b, fun _ => rfl⟩
  | m + 1, b, hb => by
    have hrun := isAttributeChar_hyphened (m + 1)
    have hletter : Spends (('-' :: hyphened m).length + 3)
        ((attributeRegex .loose).attempt b ('a' :: ('-' :: hyphened m ++ rest))) :=
      spends_attribute hrun hend htail (by rw [hb]; decide)
    have hhyphen := spends_attribute (List.forall_mem_cons.1 hrun).2 hend htail (b := some 'a') (by decide)
    obtain ⟨b', hmore⟩ := moves_hyphened hend htail m (b := some '-') rfl
    have hall := (Moves.step hletter).trans ((Moves.step hhyphen).trans hmore)
    rw [List.length_cons, length_hyphened] at hall
    refine ⟨b', ?_⟩
    rw [show (m + 1) * (2 * (m + 1) + 7) = 2 * m + 1 + 3 + 1 + (2 * m + 3 + 1 + m * (2 * m + 7)) by ring]
    exact hall

/-- **A search for the name of an attribute in a hyphened word is given up**, if the word is long enough. -/
theorem givesUp_hyphened {rest : List Char} (hend : rest.head?.any isAttributeChar = false)
    (htail : AttributeTail.loose.accepts rest = false) {m : Nat} (hm : 706 ≤ m) (offset : Nat) :
    Engine.backtracking.givesUp (attributeRegex .loose) ⟨offset, none, hyphened m ++ rest⟩ = true := by
  obtain ⟨b', hmoves⟩ := moves_hyphened hend htail m (b := none) rfl
  refine hmoves.givesUp ?_ rfl offset
  calc backtrackLimit < 706 * (2 * 706 + 7) := by decide
    _ ≤ m * (2 * m + 7) := Nat.mul_le_mul hm (by omega)

/-- Quotes that are taken along by backslashes, an even number of them. -/
def escapes : Nat → List Char
  | 0 => []
  | m + 1 => '\\' :: '"' :: '\\' :: '"' :: escapes m

theorem byteSize_escapes : ∀ m, byteSize (escapes m) = 4 * m
  | 0 => rfl
  | m + 1 => by
    rw [escapes, byteSize_cons, byteSize_cons, byteSize_cons, byteSize_cons, byteSize_escapes m]
    show 1 + (1 + (1 + (1 + 4 * m))) = _
    omega

theorem unclosed_escapes {j : Nat} {rest : List Char} (h : Unclosed '"' j rest) :
    ∀ m, Unclosed '"' (2 * m + j) (escapes m ++ rest)
  | 0 => by rwa [Nat.mul_zero, Nat.zero_add]
  | m + 1 => by
    rw [show 2 * (m + 1) + j = 2 * m + j + 1 + 1 by omega]
    exact .escape rfl (.escape rfl (unclosed_escapes h m))

/-- **A search for a literal** reads the text from every quote to the end, if none of them is closed. -/
theorem moves_escapes {j : Nat} {rest : List Char} (h : Unclosed '"' j rest) : ∀ (m : Nat) {b : Option Char},
    ∃ b', quotedRegex.Moves (m * (6 * m + 6 * j + 13)) b ('"' :: (escapes m ++ rest)) b' ('"' :: rest)
  | 0, b => ⟨b, fun _ => by rw [Nat.zero_mul]; rfl⟩
  | m + 1, b => by
    have hfirst := spends_quoted (b := b) (q := '"') rfl (unclosed_escapes h (m + 1))
    have hback : ∀ rest, Spends 0 (quotedRegex.attempt (some '"') ('\\' :: rest)) := fun _ _ => rfl
    have hsecond := spends_quoted (b := some '\\') (q := '"') rfl (.escape (c := '"') rfl (unclosed_escapes h m))
    obtain ⟨b', hmore⟩ := moves_escapes h m (b := some '\\')
    have hall := (Moves.step hfirst).trans ((Moves.step (hback _)).trans ((Moves.step hsecond).trans
      ((Moves.step (hback _)).trans hmore)))
    refine ⟨b', ?_⟩
    rw [show (m + 1) * (6 * (m + 1) + 6 * j + 13) = 3 * (2 * (m + 1) + j) + 3 + 1 + (0 + 1 +
      (3 * (2 * m + j + 1) + 3 + 1 + (0 + 1 + m * (6 * m + 6 * j + 13)))) by ring]
    exact hall

/-- **A search for a literal behind a quote that is never closed is given up**, if enough quotes are escaped. -/
theorem givesUp_escapes {j : Nat} {rest : List Char} (h : Unclosed '"' j rest) {m : Nat} (hm : 408 ≤ m) (offset : Nat) :
    Engine.backtracking.givesUp quotedRegex ⟨offset, none, '"' :: (escapes m ++ rest)⟩ = true := by
  obtain ⟨b', hmoves⟩ := moves_escapes h m (b := none)
  refine hmoves.givesUp ?_ rfl offset
  calc backtrackLimit < 408 * (6 * 408 + 13) := by decide
    _ ≤ m * (6 * m + 6 * j + 13) := Nat.mul_le_mul hm (by omega)

end Regex

/-! ## Where nothing matches -/

/-- What may follow a name has the sign of equality in it. -/
theorem equals_mem_of_accepts {tail : AttributeTail} {text : List Char} (h : tail.accepts text) : '=' ∈ text := by
  unfold AttributeTail.accepts at h
  split at h
  · exact List.mem_cons_self
  · cases h
  · exact (List.dropWhile_suffix _).subset (List.mem_of_mem_head? (of_decide_eq_true h))

namespace Rule

theorem wordPattern_eq_none {words : List (List Char)} {needs : Char → Bool} (hwords : ∀ word ∈ words, word.any needs)
    {text : List Char} (h : ∀ c ∈ text, needs c = false) (before : Option Char) :
    wordPattern words before text = none := by
  have hnot : text.takeWhile isWordChar ∉ words := fun hmem => by
    obtain ⟨c, hc, hneeds⟩ := List.any_eq_true.1 (hwords _ hmem)
    rw [h c (List.takeWhile_subset _ hc)] at hneeds
    cases hneeds
  simp [wordPattern, hnot]

/-- **Where a rule lacks what it needs it does not match.** -/
theorem pattern_eq_none_of_lacks (tail : AttributeTail) : ∀ rule ∈ withTail tail, ∀ {text : List Char},
    (∀ c ∈ text, rule.category.needs c = false) → ∀ before, rule.pattern before text = none :=
  forall_withTail tail
    (fun {text} h before => by
      have hslash : ∀ rest, text ≠ '/' :: rest := by
        rintro rest rfl
        exact absurd (h '/' List.mem_cons_self) (by decide)
      exact Pattern.comment_eq_none (fun rest => hslash ('/' :: rest)) (fun rest => hslash ('*' :: rest)) before)
    (fun {text} h before => by
      cases text with
      | nil => rfl
      | cons c rest => simp [literals, quotedPattern, show isQuote c = false from h c List.mem_cons_self])
    (wordPattern_eq_none (by decide))
    (wordPattern_eq_none (by decide))
    (fun {text} h before => by
      have hdigits : text.takeWhile Char.isDigit = [] := by
        cases text with
        | nil => rfl
        | cons c rest => exact List.takeWhile_cons_of_neg (Bool.eq_false_iff.1 (h c List.mem_cons_self))
      simp [numbers, numberPattern, hdigits])
    (fun {text} h before => by
      have hopen : opensTag text = false := by
        unfold opensTag
        split
        · exact absurd (h '<' List.mem_cons_self) (by decide)
        · exact absurd (h '<' List.mem_cons_self) (by decide)
        · rfl
      simp [tags, tagPattern, hopen])
    (fun {text} h before => by
      have hnot : tail.accepts (text.dropWhile isAttributeChar) = false := by
        refine Bool.eq_false_iff.2 fun haccepts => ?_
        have hequals := h '=' (List.dropWhile_suffix _ |>.subset (equals_mem_of_accepts haccepts))
        cases hequals
      simp [attributes, attributePattern, hnot])

theorem foundAt_eq_none_of_lacks (tail : AttributeTail) {rule : Rule} (hrule : rule ∈ withTail tail) {p : Place}
    (h : ∀ c ∈ p.after, rule.category.needs c = false) (k : Nat) : rule.foundAt (p.skip k) = none := by
  have hafter : ∀ c ∈ (p.skip k).after, rule.category.needs c = false := by
    rw [Place.after_skip]
    exact fun c hc => h c (List.mem_of_mem_drop hc)
  exact foundAt_eq_none (pattern_eq_none_of_lacks tail rule hrule hafter _)

/-- The place of the reserved word behind words of one letter. -/
theorem skip_lateWord (m : Nat) : (Place.start (Regex.lateWord m)).skip (2 * (m + 1)) =
    .between (Regex.letters (m + 1)) "const".toList := by
  have hplace := Place.skip_between [] (Regex.letters (m + 1)) "const".toList
  rwa [Regex.length_letters] at hplace

theorem exists_foundAt_lateWord (m : Nat) :
    ∃ f, reserved.foundAt (.between (Regex.letters (m + 1)) "const".toList) = some f ∧
      f.start = 2 * (m + 1) ∧ f.stop = 2 * (m + 1) + 5 := by
  rw [Place.between, Regex.getLast?_letters, Regex.byteSize_letters]
  exact ⟨⟨.keyword, ⟨2 * (m + 1), some ' ', "const".toList⟩, 5⟩, rfl, rfl, rfl⟩

end Rule

end JsxView
