import JsxView.Proofs.Passes
import JsxView.Proofs.StandsAt
import JsxView.Proofs.StatsLines
/-!
# FunctionWalk — what is counted in a text

What counts as a function begins with one of three words.  Two of them count alone; the third goes on to the last arrow
of its line, if an `=` stands between it and some arrow (`FunctionRange`).  This is what the pattern takes
(`Pattern.takes_function`), so the count is the length of a walk that looks for the next such range from the end of the
last one on (`Stats.words_and_functions`).
-/
namespace JsxView

/-- **What counts as a function** from the byte `s` on: the word `function` or `class`, or `const` up to behind the last
arrow before the end of its line, where some `=` behind the word stands before an arrow of that line. -/
inductive FunctionRange (text : List Char) (s : Nat) : Nat → Prop where
  | word {word : List Char} : word ∈ ["function".toList, "class".toList] → StandsAt text s word →
      FunctionRange text s (s + byteSize word)
  | arrow {n p q r : Nat} : StandsAt text s "const".toList → LineEnd text s n → StandsAt text p ['='] → s + 5 ≤ p →
      StandsAt text q ['=', '>'] → p + 1 ≤ q → q + 2 ≤ n →
      IsGreatest {r | StandsAt text r ['=', '>'] ∧ r + 2 ≤ n} r → FunctionRange text s (r + 2)

theorem FunctionRange.isCut {text : List Char} {s e : Nat} (h : FunctionRange text s e) : IsCut text s := by
  cases h with
  | word _ hword => exact hword.isCut
  | arrow hword => exact hword.isCut

/-! ## Arrows of a line -/

theorem standsAt_lastArrow {line : List Char} {m : Nat} (h : lastArrow? line = some m) :
    StandsAt line (byteSize (line.take m)) ['=', '>'] := by
  obtain ⟨u, v, rfl, rfl⟩ := lastArrow?_eq_some h
  rw [List.take_left, standsAt_append]
  exact ⟨v, rfl⟩

theorem le_lastArrow {line : List Char} {r : Nat} (h : StandsAt line r ['=', '>']) :
    ∃ m, lastArrow? line = some m ∧ r ≤ byteSize (line.take m) := by
  induction line generalizing r with
  | nil => exact absurd h.le_byteSize (Nat.not_succ_le_zero _)
  | cons c line ih =>
    rw [lastArrow?_cons]
    rcases standsAt_cons h with ⟨rfl, hfront⟩ | ⟨j, rfl, hj⟩
    · obtain ⟨rfl, more, rfl⟩ := List.cons_prefix_cons.1 hfront
      cases lastArrow? (['>'] ++ more) with
      | none => exact ⟨0, rfl, Nat.zero_le _⟩
      | some m => exact ⟨m + 1, rfl, Nat.zero_le _⟩
    · obtain ⟨m, hm, hle⟩ := ih hj
      refine ⟨m + 1, by rw [hm]; rfl, ?_⟩
      rw [List.take_succ_cons, byteSize_cons]
      exact Nat.add_le_add_left hle _

theorem lastArrow?_iff (line : List Char) (r : Nat) :
    (∃ m, lastArrow? line = some m ∧ byteSize (line.take m) = r) ↔ IsGreatest {r | StandsAt line r ['=', '>']} r := by
  constructor
  · rintro ⟨m, hm, rfl⟩
    refine ⟨standsAt_lastArrow hm, fun j hj => ?_⟩
    obtain ⟨m', hm', hle⟩ := le_lastArrow hj
    rw [hm] at hm'
    cases hm'
    exact hle
  · rintro ⟨hstands, hgreatest⟩
    obtain ⟨m, hm, hle⟩ := le_lastArrow hstands
    exact ⟨m, hm, Nat.le_antisymm (hgreatest (standsAt_lastArrow hm)) hle⟩

theorem mem_take_iff (line : List Char) (m : Nat) (c : Char) :
    c ∈ line.take m ↔ ∃ p, StandsAt line p [c] ∧ p + c.utf8Size ≤ byteSize (line.take m) := by
  have hwithin := standsAt_within (line.take m) (line.drop m) [c]
  rw [List.take_append_drop] at hwithin
  rw [← exists_standsAt_singleton]
  exact exists_congr hwithin

/-- An assignment goes on behind the last arrow of the line, if an `=` stands before that arrow. -/
theorem arrowAssignmentLength_iff {line rest : List Char} (e : Nat)
    (hline : (line ++ rest).takeWhile (fun c => !isLineTerminator c) = line) :
    (∃ n, arrowAssignmentLength (line ++ rest) = some n ∧ byteSize ((line ++ rest).take n) = e) ↔
      ∃ p r, StandsAt line p ['='] ∧ p + 1 ≤ r ∧ IsGreatest {r | StandsAt line r ['=', '>']} r ∧ r + 2 = e := by
  have hsize : ∀ {m}, lastArrow? line = some m → byteSize ((line ++ rest).take (m + 2)) = byteSize (line.take m) + 2 := by
    intro m hm
    obtain ⟨u, v, rfl, rfl⟩ := lastArrow?_eq_some hm
    rw [List.append_assoc, List.take_left, List.take_length_add_append, byteSize_append]
    rfl
  simp only [← lastArrow?_iff, arrowAssignmentLength_eq_some, hline, mem_take_iff]
  constructor
  · rintro ⟨-, ⟨m, hm, ⟨p, hp, hle⟩, rfl⟩, rfl⟩
    exact ⟨p, _, hp, hle, ⟨m, hm, rfl⟩, (hsize hm).symm⟩
  · rintro ⟨p, -, hp, hle, ⟨m, hm, rfl⟩, rfl⟩
    exact ⟨m + 2, ⟨m, hm, ⟨p, hp, hle⟩, rfl⟩, hsize hm⟩

/-- What stands in a line that begins and ends in the middle of a text. -/
theorem standsAt_line (x line rest word : List Char) (i : Nat) : StandsAt line i word ↔
    StandsAt (x ++ (line ++ rest)) (byteSize x + i) word ∧ i + byteSize word ≤ byteSize line := by
  rw [standsAt_behind]
  exact standsAt_within line rest word i

/-- An `=` with an arrow behind it and the last arrow are those of the line, counted from where the line begins. -/
theorem arrows_line (x line rest : List Char) (e : Nat) :
    (∃ p q, StandsAt (x ++ (line ++ rest)) p ['='] ∧ byteSize x ≤ p ∧ StandsAt (x ++ (line ++ rest)) q ['=', '>'] ∧
      p + 1 ≤ q ∧ q + 2 ≤ byteSize (x ++ line) ∧
      IsGreatest {r | StandsAt (x ++ (line ++ rest)) r ['=', '>'] ∧ r + 2 ≤ byteSize (x ++ line)} e) ↔
    ∃ p r, StandsAt line p ['='] ∧ p + 1 ≤ r ∧ IsGreatest {r | StandsAt line r ['=', '>']} r ∧ byteSize x + r = e := by
  have harrow := standsAt_line x line rest ['=', '>']
  have hequals := standsAt_line x line rest ['=']
  have harrowSize : byteSize ['=', '>'] = 2 := rfl
  have hequalsSize : byteSize ['='] = 1 := rfl
  rw [byteSize_append]
  constructor
  · rintro ⟨p, q, hp, hpx, hq, hpq, hqn, ⟨hr, hrn⟩, hgreatest⟩
    -- the last arrow is not before the one that is there, so it lies in the line
    have hqr : q ≤ e := hgreatest ⟨hq, hqn⟩
    obtain ⟨p, rfl⟩ := Nat.exists_eq_add_of_le hpx
    obtain ⟨r, rfl⟩ := Nat.exists_eq_add_of_le (show byteSize x ≤ e by omega)
    refine ⟨p, r, (hequals p).2 ⟨hp, by omega⟩, by omega, ⟨(harrow r).2 ⟨hr, by omega⟩, fun k hk => ?_⟩, rfl⟩
    obtain ⟨hktext, hkn⟩ := (harrow k).1 hk
    have : byteSize x + k ≤ byteSize x + r := hgreatest ⟨hktext, by omega⟩
    omega
  · rintro ⟨p, r, hp, hle, ⟨hr, hgreatest⟩, rfl⟩
    obtain ⟨hptext, -⟩ := (hequals p).1 hp
    obtain ⟨hrtext, hrn⟩ := (harrow r).1 hr
    refine ⟨_, _, hptext, by omega, hrtext, by omega, by omega, ⟨hrtext, by omega⟩, fun k hk => ?_⟩
    obtain ⟨hktext, hkn⟩ := hk
    by_cases hbefore : k < byteSize x
    · omega
    · obtain ⟨k, rfl⟩ := Nat.exists_eq_add_of_le (Nat.le_of_not_lt hbefore)
      have : k ≤ r := hgreatest ((harrow k).2 ⟨hktext, by omega⟩)
      omega

theorem lineEnd_const (x line rest : List Char) (n : Nat)
    (hline : (line ++ rest).takeWhile (fun c => !isLineTerminator c) = line) :
    LineEnd (x ++ "const".toList ++ (line ++ rest)) (byteSize x) n ↔ n = byteSize (x ++ "const".toList ++ line) := by
  have hletters : "const".toList.all fun c => !isLineTerminator c := by decide
  rw [List.append_assoc x, lineEnd_append, List.takeWhile_append_of_pos (List.all_eq_true.1 hletters), hline,
    List.append_assoc x]

/-- **An assignment counts up to behind the last arrow** that the pattern finds from its word on. -/
theorem functionRange_const (x rest : List Char) (e : Nat) :
    FunctionRange (x ++ "const".toList ++ rest) (byteSize x) e ↔
      ∃ n, arrowAssignmentLength rest = some n ∧ byteSize (x ++ "const".toList ++ rest.take n) = e := by
  obtain ⟨line, tail, rfl, hline⟩ : ∃ line tail, rest = line ++ tail ∧
      (line ++ tail).takeWhile (fun c => !isLineTerminator c) = line :=
    ⟨_, _, List.takeWhile_append_dropWhile.symm, by rw [List.takeWhile_append_dropWhile]⟩
  have hsize : byteSize (x ++ "const".toList) = byteSize x + 5 := byteSize_append x _
  have hconst : StandsAt (x ++ "const".toList ++ (line ++ tail)) (byteSize x) "const".toList :=
    ⟨x, _, List.append_assoc _ _ _, rfl⟩
  constructor
  · intro h
    cases h with
    | word hother hstands =>
      rw [List.append_assoc, standsAt_append] at hstands hconst
      exact absurd hconst (not_const_of_word hother hstands)
    | @arrow n p q r _ hn hp hps hq hpq hqn hr =>
      obtain rfl := (lineEnd_const x line tail n hline).1 hn
      obtain ⟨p, r, hp, hle, hlast, rfl⟩ := (arrows_line _ line tail r).1 ⟨p, q, hp, by omega, hq, hpq, hqn, hr⟩
      obtain ⟨n, hn, htake⟩ := (arrowAssignmentLength_iff _ hline).2 ⟨p, r, hp, hle, hlast, rfl⟩
      exact ⟨n, hn, by rw [byteSize_append, htake, Nat.add_assoc]⟩
  · rintro ⟨n, hn, rfl⟩
    obtain ⟨p, r, hp, hle, hr, htake⟩ := (arrowAssignmentLength_iff _ hline).1 ⟨n, hn, rfl⟩
    obtain ⟨p, q, hp, hpx, hq, hpq, hqn, hr⟩ := (arrows_line (x ++ "const".toList) line tail _).2 ⟨p, r, hp, hle, hr, rfl⟩
    rw [byteSize_append (x ++ "const".toList), ← htake, ← Nat.add_assoc]
    exact .arrow hconst ((lineEnd_const x line tail _ hline).2 rfl) hp (by omega) hq hpq hqn hr

namespace Pattern

/-- **The pattern for functions takes what counts as one.** -/
theorem takes_function : ∀ text, functionPattern.Takes text = FunctionRange text := by
  refine takes_eq_of_append FunctionRange.isCut fun x y e => ?_
  rw [takes_append bounded_function]
  by_cases hword : ∃ word ∈ ["function".toList, "class".toList], word <+: y
  · obtain ⟨word, hword, rest, rfl⟩ := hword
    have hpre : word <+: word ++ rest := List.prefix_append _ _
    simp only [functionPattern_word hword hpre, Option.some.injEq, exists_eq_left', List.take_left, byteSize_append]
    constructor
    · rintro rfl
      exact .word hword ((standsAt_append _ _ _).2 hpre)
    · intro h
      cases h with
      | @word other hother hstands =>
        rw [functionWord_unique (List.mem_cons_of_mem _ hword) (List.mem_cons_of_mem _ hother) hpre
          ((standsAt_append _ _ _).1 hstands)]
      | arrow hstands => exact absurd ((standsAt_append _ _ _).1 hstands) (not_const_of_word hword hpre)
  by_cases hconst : "const".toList <+: y
  · obtain ⟨rest, rfl⟩ := hconst
    have htake : ∀ n, x ++ ("const".toList ++ rest).take (n + 5) = x ++ "const".toList ++ rest.take n :=
      fun n => (List.append_assoc x "const".toList (rest.take n)).symm
    rw [functionPattern_const, ← List.append_assoc, functionRange_const]
    constructor
    · rintro ⟨m, hm, rfl⟩
      obtain ⟨n, hn, rfl⟩ := Option.map_eq_some_iff.1 hm
      exact ⟨n, hn, by rw [htake]⟩
    · rintro ⟨n, hn, rfl⟩
      exact ⟨n + 5, Option.map_eq_some_iff.2 ⟨n, hn, rfl⟩, by rw [htake]⟩
  · rw [functionPattern_of_not_word fun word hmem hpre => hword ⟨word, hmem, hpre⟩, if_neg hconst]
    refine iff_of_false (by simp) fun h => ?_
    cases h with
    | word hmem hstands => exact hword ⟨_, hmem, (standsAt_append _ _ _).1 hstands⟩
    | arrow hstands => exact hconst ((standsAt_append _ _ _).1 hstands)

theorem advances_function : functionPattern.Advances := by
  intro b text h
  rcases functionPattern_eq_some h with ⟨word, hword, -, hlen⟩ | ⟨_, _, _, _, hlen⟩
  · rw [List.length_eq_zero_iff.1 hlen.symm] at hword
    exact absurd hword (by decide)
  · exact absurd hlen (Nat.succ_ne_zero _).symm

end Pattern

namespace Stats

/-- **Words and functions are counted where they begin.**  A word is counted at every character that is no white space
and stands at the start of the text or behind white space.  Functions are counted in a walk: what is next from a byte on
is the range that counts as a function and begins first, and the walk goes on where that range ends. -/
theorem words_and_functions (text : List Char) :
    Stats.of text = Stats.byExpressions text ∧
    (Stats.of text).words = wordStartsFrom none text ∧
    ∀ n, (Stats.of text).functions = n ↔
      ∃ ranges, InTurn (Next (FunctionRange text)) 0 ranges ∧ ranges.length = n := by
  have hturn := (Pattern.cut_pieces Pattern.bounded_function text).inTurn Pattern.advances_function
  have hfun : ∀ s e e', functionPattern.Takes text s e → functionPattern.Takes text s e' → e = e' :=
    fun _ _ _ htakes => htakes.functional
  rw [List.nil_append, byteSize_nil] at hturn
  rw [Pattern.takes_function] at hturn hfun
  have hcount : (Rule.hitRanges 0 (functionPattern.pieces text)).length = (Stats.of text).functions :=
    Rule.length_hitRanges _ 0
  refine ⟨of_eq_byExpressions text, wordCount_eq text, fun n => ⟨?_, ?_⟩⟩
  · rintro rfl
    exact ⟨_, hturn, hcount⟩
  · rintro ⟨ranges, hranges, rfl⟩
    have hunique : ∀ pos r r', Next (FunctionRange text) pos r → Next (FunctionRange text) pos r' → r = r' :=
      fun _ _ _ => Next.unique hfun
    rw [← hcount, hturn.unique hunique hranges]

/-- Up to its last arrow an assignment takes everything along, also a word that would count. -/
example : Stats.of "const a = class => b => c;\n classes".toList =
    { lines := 2, characters := 35, words := 9, functions := 2 } := by
  decide +kernel

end Stats

end JsxView
