import JsxView.Pattern.Basic
/-!
# Cut — the pieces of a text, one after the other

`Pattern.pieces` goes through a text character by character and counts down inside a match.  `Cut` says the same piece
by piece: a character where nothing matches, or a whole match between what stands before it and what stands behind it
(`cut_pieces`).  Pieces further on are a cut of the rest of the text (`Cut.behind`), so a piece that is a match is a
match of the pattern there (`Cut.match_hit`); and a match that no other match can reach into is a piece
(`Cut.hit_of_match`).
-/
namespace JsxView

namespace Pattern

/-- **A match between two texts**: behind `x` the pattern takes `h` of the text `h ++ y`, and `h` is not empty. -/
def Match (pattern : Pattern) (x h y : List Char) : Prop :=
  h ≠ [] ∧ pattern x.getLast? (h ++ y) = some h.length

/-- A pattern that never takes more than there is. -/
def Bounded (pattern : Pattern) : Prop :=
  ∀ (before : Option Char) (text : List Char) (n : Nat), pattern before text = some n → n ≤ text.length

/-- A pattern that never matches without taking a character. -/
def Advances (pattern : Pattern) : Prop :=
  ∀ (before : Option Char) (text : List Char), pattern before text ≠ some 0

/-- **A text cut at the matches of a pattern**, from left to right, when `x` stands before it. -/
inductive Cut (pattern : Pattern) : List Char → List Char → List Piece → Prop where
  | nil {x : List Char} : Cut pattern x [] []
  | plain {x rest : List Char} {c : Char} {pieces : List Piece} :
      (∀ h y, h ++ y = c :: rest → ¬ pattern.Match x h y) → Cut pattern (x ++ [c]) rest pieces →
      Cut pattern x (c :: rest) (.plain c :: pieces)
  | hit {x h rest : List Char} {pieces : List Piece} : pattern.Match x h rest → Cut pattern (x ++ h) rest pieces →
      Cut pattern x (h ++ rest) (.hit h :: pieces)

/-- **A text cut at some of the matches of a pattern**, when `x` stands before it. -/
inductive PartCut (pattern : Pattern) : List Char → List Char → List Piece → Prop where
  | nil {x : List Char} : PartCut pattern x [] []
  | plain {x rest : List Char} {c : Char} {pieces : List Piece} : PartCut pattern (x ++ [c]) rest pieces →
      PartCut pattern x (c :: rest) (.plain c :: pieces)
  | hit {x h rest : List Char} {pieces : List Piece} : pattern.Match x h rest → PartCut pattern (x ++ h) rest pieces →
      PartCut pattern x (h ++ rest) (.hit h :: pieces)

variable {pattern : Pattern}

/-- At one place there is one match. -/
theorem Match.unique {x h y h' y' : List Char} (hm : pattern.Match x h y) (hm' : pattern.Match x h' y')
    (htext : h ++ y = h' ++ y') : h = h' := by
  have hlen : some h.length = some h'.length := by rw [← hm.2, ← hm'.2, htext]
  exact List.append_inj_left htext (Option.some.inj hlen)

/-! ## The pieces are a cut -/

theorem piecesFrom_skip (pattern : Pattern) : ∀ (x s rest : List Char),
    piecesFrom pattern s.length x.getLast? (s ++ rest) = piecesFrom pattern 0 (x ++ s).getLast? rest
  | x, [], rest => by rw [List.append_nil, List.nil_append, List.length_nil]
  | x, c :: s, rest => by
    have ih := piecesFrom_skip pattern (x ++ [c]) s rest
    rw [List.getLast?_concat, List.append_assoc] at ih
    rw [List.cons_append, List.length_cons, piecesFrom]
    exact ih

theorem not_match_of_answer {x text : List Char} {answer : Option Nat} (hanswer : pattern x.getLast? text = answer)
    (hempty : ∀ n, answer ≠ some (n + 1)) : ∀ h y, h ++ y = text → ¬ pattern.Match x h y := by
  rintro h y rfl ⟨hne, hm⟩
  obtain ⟨n, hn⟩ := Nat.exists_eq_succ_of_ne_zero fun hzero => hne (List.length_eq_zero_iff.1 hzero)
  exact hempty n (by rw [← hanswer, hm, hn])

theorem cut_piecesFrom (hbound : pattern.Bounded) (x text : List Char) :
    Cut pattern x text (piecesFrom pattern 0 x.getLast? text) := by
  -- on the number of characters that are left
  generalize hlen : text.length = k
  induction k using Nat.strongRecOn generalizing x text with
  | ind k ih =>
    cases text with
    | nil => exact .nil
    | cons c rest =>
      rw [List.length_cons] at hlen
      have hplain : Cut pattern (x ++ [c]) rest (piecesFrom pattern 0 (some c) rest) := by
        have := ih rest.length (by omega) (x ++ [c]) rest rfl
        rwa [List.getLast?_concat] at this
      rw [piecesFrom]
      split
      · rename_i n hmatch
        have hn : n ≤ rest.length := Nat.le_of_succ_le_succ (hbound _ _ _ hmatch)
        obtain ⟨s, y, rfl, rfl⟩ : ∃ s y, rest = s ++ y ∧ n = s.length :=
          ⟨rest.take n, rest.drop n, (List.take_append_drop n rest).symm, by rw [List.length_take, Nat.min_eq_left hn]⟩
        have hskip := piecesFrom_skip pattern (x ++ [c]) s y
        rw [List.getLast?_concat, List.append_assoc] at hskip
        rw [List.length_append] at hlen
        rw [hskip, List.take_left]
        exact .hit ⟨List.cons_ne_nil c s, hmatch⟩ (ih y.length (by omega) (x ++ c :: s) y rfl)
      · rename_i hnone
        exact .plain (not_match_of_answer rfl hnone) hplain

/-- **The pieces of a text are a cut of it.** -/
theorem cut_pieces (hbound : pattern.Bounded) (text : List Char) : Cut pattern [] text (pattern.pieces text) :=
  cut_piecesFrom hbound [] text

/-! ## Inside a cut -/

theorem PartCut.plains (pattern : Pattern) : ∀ x text : List Char, PartCut pattern x text (text.map .plain)
  | _, [] => .nil
  | x, c :: rest => .plain (plains pattern (x ++ [c]) rest)

namespace Cut

variable {x text : List Char} {ps qs : List Piece} {h : List Char}

/-- **What is behind some pieces is a cut** of the rest of the text. -/
theorem behind (hcut : Cut pattern x text (ps ++ qs)) :
    ∃ rest, text = ps.flatMap Piece.text ++ rest ∧ Cut pattern (x ++ ps.flatMap Piece.text) rest qs := by
  induction ps generalizing x text with
  | nil => exact ⟨text, rfl, by rwa [List.flatMap_nil, List.append_nil]⟩
  | cons piece ps ih =>
    rw [List.cons_append] at hcut
    rw [List.flatMap_cons]
    cases hcut with
    | plain _ hrest =>
      obtain ⟨rest, rfl, hbehind⟩ := ih hrest
      exact ⟨rest, rfl, by rwa [List.append_assoc] at hbehind⟩
    | hit _ hrest =>
      obtain ⟨rest, rfl, hbehind⟩ := ih hrest
      exact ⟨rest, (List.append_assoc _ _ _).symm, by rwa [List.append_assoc] at hbehind⟩

theorem join (hcut : Cut pattern x text ps) : ps.flatMap Piece.text = text := by
  rw [← List.append_nil ps] at hcut
  obtain ⟨rest, htext, hrest⟩ := hcut.behind
  cases hrest
  rw [htext, List.append_nil]

/-- From any piece on a text may be left uncut. -/
theorem part (hcut : Cut pattern x text (ps ++ qs)) :
    PartCut pattern x text (ps ++ (qs.flatMap Piece.text).map .plain) := by
  induction ps generalizing x text with
  | nil =>
    rw [List.nil_append] at hcut ⊢
    rw [hcut.join]
    exact .plains pattern x text
  | cons piece ps ih =>
    rw [List.cons_append] at hcut
    cases hcut with
    | plain _ hrest => exact .plain (ih hrest)
    | hit hmatch hrest => exact .hit hmatch (ih hrest)

/-- A piece that is a match is a match of the pattern where it stands. -/
theorem match_hit (hcut : Cut pattern x text (ps ++ .hit h :: qs)) :
    ∃ rest, text = ps.flatMap Piece.text ++ (h ++ rest) ∧ pattern.Match (x ++ ps.flatMap Piece.text) h rest := by
  obtain ⟨rest, rfl, hbehind⟩ := hcut.behind
  cases hbehind with
  | hit hmatch _ => exact ⟨_, rfl, hmatch⟩

theorem not_match_plain {c : Char} (hcut : Cut pattern x text (.plain c :: ps)) {y : List Char} (htext : text = h ++ y) :
    ¬ pattern.Match x h y := by
  cases hcut with
  | plain hnone _ => exact hnone h y htext.symm

/-- **A match is a piece**, if all characters of matches are of a class and the one before it is not. -/
theorem hit_of_match {inner : Char → Bool} (hinner : ∀ x h y, pattern.Match x h y → ∀ c ∈ h, inner c)
    (hcut : Cut pattern x text ps) : ∀ {u y : List Char}, text = u ++ (h ++ y) → pattern.Match (x ++ u) h y →
      (∀ c ∈ u.getLast?, ¬ inner c) → ∃ before after, ps = before ++ .hit h :: after ∧ before.flatMap Piece.text = u := by
  induction hcut with
  | nil =>
    intro u y htext hmatch _
    exact absurd (List.append_eq_nil_iff.1 (List.append_eq_nil_iff.1 htext.symm).2).1 hmatch.1
  | @plain x rest c pieces hnone _ ih =>
    intro u y htext hmatch hlast
    cases u with
    | nil =>
      rw [List.append_nil] at hmatch
      exact absurd hmatch (hnone h y htext.symm)
    | cons d u =>
      obtain ⟨rfl, hrest⟩ := List.cons.inj htext
      rw [List.append_cons] at hmatch
      have hlast' : ∀ e ∈ u.getLast?, ¬ inner e := by
        cases u with
        | nil => exact fun _ he => (by cases he)
        | cons e u => rwa [List.getLast?_cons_cons] at hlast
      obtain ⟨before, after, rfl, hbefore⟩ := ih hrest hmatch hlast'
      exact ⟨.plain c :: before, after, rfl, by rw [List.flatMap_cons, hbefore]; rfl⟩
  | @hit x h' rest pieces hhit _ ih =>
    intro u y htext hmatch hlast
    rcases List.append_eq_append_iff.1 htext with ⟨v, rfl, hrest⟩ | ⟨v, hh', hrest⟩
    · rw [← List.append_assoc] at hmatch
      have hlast' : ∀ e ∈ v.getLast?, ¬ inner e := by
        intro e he
        refine hlast e ?_
        rw [List.getLast?_append, Option.mem_def.1 he]
        rfl
      obtain ⟨before, after, rfl, hbefore⟩ := ih hrest hmatch hlast'
      exact ⟨.hit h' :: before, after, rfl, by rw [List.flatMap_cons, hbefore]; rfl⟩
    · rcases List.eq_nil_or_concat u with rfl | ⟨u, e, rfl⟩
      · rw [List.append_nil] at hmatch
        exact ⟨[], pieces, by rw [hhit.unique hmatch htext]; rfl, rfl⟩
      · -- the match before it would reach over the character between the two
        have he : inner e = true := hinner _ _ _ hhit e (by rw [hh']; simp)
        exact absurd he (hlast e (by simp))

end Cut

end Pattern

end JsxView
