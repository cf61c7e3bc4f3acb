import JsxView.Proofs.GivenUp
import JsxView.Proofs.Passes
import Mathlib.Data.List.Infix
/-!
# MarkerCollision — which openings of markers the chain leaves whole

The last pass of the chain looks for names with an equals sign behind them, and the `class` of an opening is one.  So
an opening that stands in a line before that pass is torn by it, or by the pass for reserved words, of which `class` is
one too; the passes between move it in one piece (`spares_openingName`, `hitAt_class_passed`).  What is left are the
openings that the last pass writes itself: they stand where its matches are (`Pattern.Cut.exists_hit_of_opening`), one
for each (`Pattern.Cut.occurrences_opening`).

Both passes have to be finished for that.  In front of a long word with hyphens in it the first search of the last pass
is given up, and the marker of a tag behind it stays whole (`highlightChained_hyphened`).
-/
namespace JsxView

/-! ## Occurrences -/

/-- **How often a word occurs** in a text. -/
def occurrences (word text : List Char) : Nat :=
  text.tails.countP word.isPrefixOf

theorem occurrences_cons (word : List Char) (c : Char) (text : List Char) :
    occurrences word (c :: text) = (if word <+: c :: text then 1 else 0) + occurrences word text := by
  unfold occurrences
  rw [List.tails_cons, List.countP_cons, Nat.add_comm]
  simp only [List.isPrefixOf_iff_prefix]

section

variable {b : Char} {word : List Char} (hword : word.head? = some b)
include hword

theorem not_prefix_cons_of_ne {c : Char} (hc : b ≠ c) (text : List Char) : ¬ word <+: c :: text := by
  cases word with
  | nil => cases hword
  | cons d word =>
    cases hword
    exact fun hpre => hc (List.cons_prefix_cons.1 hpre).1

/-- A word occurs nowhere where its first character is missing. -/
theorem occurrences_append_of_not_mem (text : List Char) : ∀ {s : List Char}, b ∉ s →
    occurrences word (s ++ text) = occurrences word text
  | [], _ => rfl
  | c :: s, h => by
    rw [List.mem_cons, not_or] at h
    rw [List.cons_append, occurrences_cons, if_neg (not_prefix_cons_of_ne hword h.1 _), Nat.zero_add,
      occurrences_append_of_not_mem text h.2]

theorem prefix_drop_of_not_mem {text : List Char} : ∀ {s : List Char} {n : Nat}, b ∉ s →
    word <+: (s ++ text).drop n → ∃ m, n = s.length + m ∧ word <+: text.drop m
  | [], n, _, hpre => ⟨n, (Nat.zero_add n).symm, hpre⟩
  | c :: s, 0, h, hpre => by
    rw [List.mem_cons, not_or] at h
    exact absurd hpre (not_prefix_cons_of_ne hword h.1 _)
  | c :: s, n + 1, h, hpre => by
    rw [List.mem_cons, not_or] at h
    obtain ⟨m, rfl, hm⟩ := prefix_drop_of_not_mem h.2 hpre
    exact ⟨m, by rw [List.length_cons]; omega, hm⟩

end

/-! ## Matches at the name of the class -/

/-- How every opening of a marker begins. -/
def opening : List Char :=
  "<span class=\"".toList

/-- The same up to the quote, which a literal may begin with. -/
def openingName : List Char :=
  "<span class=".toList

theorem head?_opening : opening.head? = some '<' := rfl

namespace Pattern

theorem attribute_match_class {x : List Char} (hx : x.getLast? = some ' ') (y : List Char) :
    (attributePattern .loose).Match x "class".toList ('=' :: y) := by
  refine ⟨by decide, ?_⟩
  rw [hx]
  rfl

theorem keyword_match_class {x : List Char} (hx : x.getLast? = some ' ') (y : List Char) :
    (wordPattern keywords).Match x "class".toList ('=' :: y) := by
  refine ⟨by decide, ?_⟩
  rw [hx]
  rfl

theorem isAttributeChar_of_match {x h y : List Char} (hm : (attributePattern .loose).Match x h y) :
    ∀ c ∈ h, isAttributeChar c := by
  intro c hc
  rw [((describes_attribute .loose).of_match hm).1] at hc
  exact List.mem_takeWhile_imp hc

theorem isWordChar_of_match {words : List (List Char)} {x h y : List Char} (hm : (wordPattern words).Match x h y) :
    ∀ c ∈ h, isWordChar c := by
  intro c hc
  rw [((describes_word words).of_match hm).2.1] at hc
  exact List.mem_takeWhile_imp hc

/-! ## The last pass -/

/-- Where no marker begins the pieces are plain. -/
theorem eq_plains_of_prefix {category : Category} : ∀ {s : List Char} {pieces : List Piece}, '<' ∉ s →
    s <+: pieces.flatMap (Piece.mark category) → ∃ after, pieces = s.map .plain ++ after
  | [], pieces, _, _ => ⟨pieces, rfl⟩
  | c :: s, [], _, hpre => by cases List.prefix_nil.1 hpre
  | c :: s, .plain d :: rest, h, hpre => by
    obtain ⟨rfl, hrest⟩ := List.cons_prefix_cons.1 hpre
    obtain ⟨after, rfl⟩ := eq_plains_of_prefix (fun hs => h (List.mem_cons_of_mem c hs)) hrest
    exact ⟨after, rfl⟩
  | c :: s, .hit m :: rest, h, hpre => absurd ((List.cons_prefix_cons.1 hpre).1 ▸ List.mem_cons_self) h

namespace Cut

variable {x text : List Char} {pieces : List Piece}

/-- **No opening is left of what was plain**, because its `class` would have been a match. -/
theorem not_opening_of_plain {c : Char} (hcut : Cut (attributePattern .loose) x text (.plain c :: pieces)) :
    ¬ opening <+: c :: pieces.flatMap (Piece.mark .attribute) := by
  intro hpre
  obtain ⟨rfl, hrest⟩ := List.cons_prefix_cons.1 hpre
  have hplain : '<' ∉ "span class=\"".toList := by decide
  obtain ⟨after, rfl⟩ := eq_plains_of_prefix hplain hrest
  -- the pieces up to the `class`, and those of the `class` and what follows it
  obtain ⟨rest, -, hbehind⟩ : ∃ rest, _ ∧ Cut (attributePattern .loose) (x ++ ("<span ".toList.map .plain).flatMap
      Piece.text) rest ("class=\"".toList.map .plain ++ after) := behind hcut
  obtain ⟨more, hmore, -⟩ := hbehind.behind
  rw [flatMap_map_chars fun _ => rfl] at hbehind hmore
  have hlast : (x ++ "<span ".toList).getLast? = some ' ' := List.getLast?_append_of_ne_nil x (by decide)
  have hclass : rest = "class".toList ++ ('=' :: '"' :: more) := hmore
  exact not_match_plain hbehind hclass (attribute_match_class hlast _)

theorem mark_hit_append (h rest : List Char) : (Piece.hit h).mark .attribute ++ rest =
    '<' :: (("span class=\"jsx-attribute\">".toList ++ h) ++ '<' :: ("/span>".toList ++ rest)) := by
  have hopen : markerOpen .attribute = '<' :: "span class=\"jsx-attribute\">".toList := rfl
  have hclose : markerClose = '<' :: "/span>".toList := rfl
  rw [Piece.mark, wrap, hopen, hclose]
  simp only [List.append_assoc, List.cons_append]

theorem lt_not_mem_marked {h rest : List Char} (hm : (attributePattern .loose).Match x h rest) :
    '<' ∉ "span class=\"jsx-attribute\">".toList ++ h := by
  rw [List.mem_append, not_or]
  exact ⟨by decide, fun hmem => absurd (isAttributeChar_of_match hm _ hmem) (by decide)⟩

theorem not_opening_of_close (rest : List Char) : ¬ opening <+: '<' :: ("/span>".toList ++ rest) := by
  intro hpre
  exact absurd (List.cons_prefix_cons.1 (List.cons_prefix_cons.1 hpre).2).1 (by decide)

/-- **Every opening behind the last pass stands where one of its matches is.** -/
theorem exists_hit_of_opening (hcut : Cut (attributePattern .loose) x text pieces) : ∀ n : Nat,
    opening <+: (pieces.flatMap (Piece.mark .attribute)).drop n → ∃ before h after,
      pieces = before ++ .hit h :: after ∧ (before.flatMap (Piece.mark .attribute)).length = n := by
  induction hcut with
  | nil =>
    intro n hpre
    rw [List.flatMap_nil, List.drop_nil] at hpre
    cases List.prefix_nil.1 hpre
  | @plain x rest c pieces hnone hrest ih =>
    intro n hpre
    cases n with
    | zero => exact absurd hpre (not_opening_of_plain (.plain hnone hrest))
    | succ n =>
      obtain ⟨before, h, after, rfl, hlen⟩ := ih n hpre
      exact ⟨.plain c :: before, h, after, rfl, by rw [List.flatMap_cons, List.length_append, hlen, Nat.add_comm]; rfl⟩
  | @hit x h rest pieces hmatch _ ih =>
    intro n hpre
    cases n with
    | zero => exact ⟨[], h, pieces, rfl, rfl⟩
    | succ n =>
      -- the name between the brackets of the marker is no opening, and neither is what closes it
      rw [List.flatMap_cons, mark_hit_append, List.drop_succ_cons] at hpre
      obtain ⟨m, rfl, hclose⟩ := prefix_drop_of_not_mem head?_opening (lt_not_mem_marked hmatch) hpre
      cases m with
      | zero => exact absurd hclose (not_opening_of_close _)
      | succ m =>
        rw [List.drop_succ_cons] at hclose
        obtain ⟨m, rfl, hbehind⟩ := prefix_drop_of_not_mem head?_opening (by decide) hclose
        obtain ⟨before, h', after, rfl, rfl⟩ := ih m hbehind
        refine ⟨.hit h :: before, h', after, rfl, ?_⟩
        rw [List.flatMap_cons, mark_hit_append]
        simp only [List.length_cons, List.length_append]

/-- **There are as many openings behind the last pass as it has matches.** -/
theorem occurrences_opening (hcut : Cut (attributePattern .loose) x text pieces) :
    occurrences opening (pieces.flatMap (Piece.mark .attribute)) = pieces.countP Piece.isHit := by
  induction hcut with
  | nil => rfl
  | @plain x rest c pieces hnone hrest ih =>
    show occurrences opening (c :: pieces.flatMap (Piece.mark .attribute)) = _
    rw [occurrences_cons, if_neg (not_opening_of_plain (.plain hnone hrest)), Nat.zero_add, ih]
    exact (List.countP_cons_of_neg Bool.false_ne_true).symm
  | @hit x h rest pieces hmatch _ ih =>
    have hopen : opening <+: '<' :: "span class=\"jsx-attribute\">".toList := by decide
    rw [List.flatMap_cons, mark_hit_append, occurrences_cons, if_pos, occurrences_append_of_not_mem head?_opening _
      (lt_not_mem_marked hmatch), occurrences_cons, if_neg (not_opening_of_close _),
      occurrences_append_of_not_mem head?_opening _ (by decide), ih, Nat.zero_add, Nat.add_comm]
    · exact (List.countP_cons_of_pos rfl).symm
    · rw [List.append_assoc, ← List.cons_append]
      exact hopen.trans (List.prefix_append _ _)

end Cut

end Pattern

/-! ## The passes between -/

/-- Only the passes for reserved words and attribute names have borders in an opening. -/
theorem spares_openingName {rule : Rule} (hrule : rule ∈ Rule.chained) (hkeyword : rule.category ≠ .keyword)
    (hattribute : rule.category ≠ .attribute) : rule.pattern.Spares openingName openingName.length := by
  have hseams : ∀ category ∈ Category.all, category ≠ .keyword → category ≠ .attribute →
      ∀ i < openingName.length, 0 < i → category.seam (openingName.take i) (openingName.drop i) = true := by decide
  exact Rule.spares_of_seams hrule (hseams _ (Category.mem_all _) hkeyword hattribute)

theorem markerOpen_not_comparable {category : Category} (h : category ≠ .attribute) :
    ¬ markerOpen category <+: markerOpen .attribute ∧ ¬ markerOpen .attribute <+: markerOpen category := by
  have hall : ∀ category ∈ Category.all, category ≠ .attribute →
      ¬ markerOpen category <+: markerOpen .attribute ∧ ¬ markerOpen .attribute <+: markerOpen category := by decide
  exact hall category (Category.mem_all category) h

section

variable [Engine]

/-- The rule finds this match at the place with the given number of characters before it. -/
def Rule.HitAt (rule : Rule) (text : List Char) (n : Nat) (h : List Char) : Prop :=
  ∃ before after, rule.pieces text = before ++ .hit h :: after ∧ (before.flatMap Piece.text).length = n

/-- **The `class` of an opening is found** by every rule for runs that matches it behind a space, if no search is given
up. -/
theorem Rule.hitAt_class {rule : Rule} (hbound : rule.pattern.Bounded) {inner : Char → Bool}
    (hinner : ∀ x h y, rule.pattern.Match x h y → ∀ c ∈ h, inner c) (hspace : ¬ inner ' ')
    (hclass : ∀ {x : List Char}, x.getLast? = some ' ' → ∀ y, rule.pattern.Match x "class".toList ('=' :: y))
    {text : List Char} (hcut : rule.cutShort text = false) {n : Nat} (hname : openingName <+: text.drop n) :
    rule.HitAt text (n + 6) "class".toList := by
  obtain ⟨x, y, rfl, rfl⟩ := Pattern.exists_around hname (by decide)
  have hlast : (x ++ "<span ".toList).getLast? = some ' ' := List.getLast?_append_of_ne_nil x (by decide)
  have hsplit : x ++ (openingName ++ y) = (x ++ "<span ".toList) ++ ("class".toList ++ '=' :: y) := by
    rw [List.append_assoc]
    rfl
  have hpieces := Pattern.cut_pieces hbound (x ++ (openingName ++ y))
  obtain ⟨before, after, hhit, hbefore⟩ := hpieces.hit_of_match hinner hsplit (hclass hlast _) (by
    rw [hlast]
    intro c hc
    cases hc
    exact hspace)
  exact ⟨before, after, (Rule.pieces_eq hcut).trans hhit, by rw [hbefore, List.length_append]; rfl⟩

/-- **The `class` of an opening is still found** behind passes that have no borders in it. -/
theorem hitAt_class_passed {rule : Rule} {i j : Nat} (hij : i ≤ j)
    (hbetween : ∀ rule ∈ (Rule.chained.take j).drop i, rule.category ≠ .keyword ∧ rule.category ≠ .attribute)
    {line : List Char} (hhit : ∀ {n : Nat}, openingName <+: (passed line j).drop n →
      rule.HitAt (passed line j) (n + 6) "class".toList)
    {n : Nat} (hopening : opening <+: (passed line i).drop n) :
    rule.HitAt (passed line j) (movedAll ((Rule.chained.take j).drop i) (passed line i) (n + 6)) "class".toList := by
  have hname : openingName <+: opening := by decide
  have hkeep : KeepAll ((Rule.chained.take j).drop i) openingName (passed line i) :=
    keepAll_of_invariant (fun _ => True) (fun rule hrule _ _ => by
      have hmem : rule ∈ Rule.chained := List.mem_of_mem_take (List.mem_of_mem_drop hrule)
      have hspares := spares_openingName hmem (hbetween rule hrule).1 (hbetween rule hrule).2
      exact ⟨True.intro, hspares.keeps (Rule.bounded_of_mem_chained rule hmem)⟩) True.intro
  obtain ⟨hfound, hmoved⟩ := hkeep n (hname.trans hopening)
  rw [passed_add hij] at hfound
  rw [hmoved 6 (by decide)]
  exact hhit hfound

theorem highlightChained_eq (line : List Char) :
    highlightChained line = (Rule.attributes .loose).substitute (passed line 6) := by
  have hchain : Rule.chained = Rule.chained.take 6 ++ [.attributes .loose] := rfl
  have hone : ∀ (rule : Rule) (text : List Char), substituteAll [rule] text = rule.substitute text := fun _ _ => rfl
  rw [highlightChained, hchain, substituteAll_append, hone, passed]

/-- **Every opening that the chain leaves whole is one of its last pass**, unless the engine gives up a search of that
pass.  Whatever markup a line holds, an opening of a marker stands in the result exactly where the last pass has opened
a marker around one of its matches, and there are as many as it has found; so no marker of another category is left.
The `class` of an opening that stands in the line in front of any pass is found by the pass for reserved words, if that
one is still to come and none of its searches is given up, and by the last pass otherwise. -/
theorem only_last_openings_whole (line : List Char) :
    ((Rule.attributes .loose).cutShort (passed line 6) = false →
      (∀ n, opening <+: (highlightChained line).drop n → ∃ before h after,
        (Rule.attributes .loose).pieces (passed line 6) = before ++ .hit h :: after ∧
        (before.flatMap (Piece.mark .attribute)).length = n ∧
        markerOpen .attribute <+: (highlightChained line).drop n) ∧
      occurrences opening (highlightChained line) = ((Rule.attributes .loose).findAll (passed line 6)).length ∧
      (∀ category, category ≠ .attribute → ¬ markerOpen category <:+: highlightChained line) ∧
      ∀ i, 4 ≤ i → i ≤ 6 → ∀ n, opening <+: (passed line i).drop n → (Rule.attributes .loose).HitAt (passed line 6)
        (movedAll ((Rule.chained.take 6).drop i) (passed line i) (n + 6)) "class".toList) ∧
    (Rule.reserved.cutShort (passed line 3) = false →
      ∀ i ≤ 3, ∀ n, opening <+: (passed line i).drop n → Rule.reserved.HitAt (passed line 3)
        (movedAll ((Rule.chained.take 3).drop i) (passed line i) (n + 6)) "class".toList) := by
  refine ⟨fun hcut => ?_, fun hcut i hi n hopening => ?_⟩
  · have hpieces := Pattern.cut_pieces (Pattern.describes_attribute .loose).bounded (passed line 6)
    have heq : highlightChained line =
        ((attributePattern .loose).pieces (passed line 6)).flatMap (Piece.mark .attribute) := by
      rw [highlightChained_eq, Rule.substitute, Rule.pieces_eq hcut]
      rfl
    have hwhere : ∀ n, opening <+: (highlightChained line).drop n → ∃ before h after,
        (Rule.attributes .loose).pieces (passed line 6) = before ++ .hit h :: after ∧
        (before.flatMap (Piece.mark .attribute)).length = n ∧
        markerOpen .attribute <+: (highlightChained line).drop n := by
      intro n hn
      rw [heq] at hn ⊢
      obtain ⟨before, h, after, hhit, rfl⟩ := hpieces.exists_hit_of_opening n hn
      refine ⟨before, h, after, (Rule.pieces_eq hcut).trans hhit, rfl, ?_⟩
      rw [hhit, List.flatMap_append, List.drop_left, List.flatMap_cons, Piece.mark, wrap, List.append_assoc,
        List.append_assoc]
      exact List.prefix_append _ _
    refine ⟨hwhere, ?_, ?_, ?_⟩
    · rw [heq, Rule.length_findAll, Rule.pieces_eq hcut]
      exact hpieces.occurrences_opening
    · rintro category hother ⟨x, y, hxy⟩
      have hhere : markerOpen category <+: (highlightChained line).drop x.length := by
        rw [← hxy, List.append_assoc, List.drop_left]
        exact List.prefix_append _ _
      have hopening : opening <+: markerOpen category := ⟨_, (List.append_assoc _ _ _).symm⟩
      obtain ⟨-, -, -, -, -, hattribute⟩ := hwhere _ (hopening.trans hhere)
      rcases List.prefix_or_prefix_of_prefix hhere hattribute with hpre | hpre
      · exact (markerOpen_not_comparable hother).1 hpre
      · exact (markerOpen_not_comparable hother).2 hpre
    · intro i hi hi' n hopening
      have hbetween : ∀ rule ∈ (Rule.chained.take 6).drop 4, rule.category ≠ .keyword ∧ rule.category ≠ .attribute := by
        decide
      refine hitAt_class_passed hi' (fun rule hrule => hbetween rule ?_)
        (Rule.hitAt_class (Pattern.describes_attribute _).bounded (fun _ _ _ => Pattern.isAttributeChar_of_match)
          (by decide) Pattern.attribute_match_class hcut) hopening
      rw [← Nat.add_sub_cancel' hi, ← List.drop_drop] at hrule
      exact List.mem_of_mem_drop hrule
  · have hbetween : ∀ rule ∈ Rule.chained.take 3, rule.category ≠ .keyword ∧ rule.category ≠ .attribute := by decide
    exact hitAt_class_passed hi (fun rule hrule => hbetween rule (List.mem_of_mem_drop hrule))
      (Rule.hitAt_class (Pattern.describes_word _).bounded (fun _ _ _ => Pattern.isWordChar_of_match) (by decide)
        Pattern.keyword_match_class hcut) hopening

end

/-- The opening of a marker typed into a line: the pass for reserved words finds its `class`, and the last pass finds
that of the opening which the pass for tags has put in front of it. -/
theorem only_last_openings_whole_typed :
    letI := Engine.backtracking
    let line := "<span class=\"a\">".toList
    ((Rule.attributes .loose).cutShort (passed line 6) = false ∧ Rule.reserved.cutShort (passed line 3) = false) ∧
    occurrences opening (highlightChained line) = ((Rule.attributes .loose).findAll (passed line 6)).length ∧
    ¬ markerOpen .keyword <:+: highlightChained line ∧
    (opening <+: (passed line 6).drop 0 ∧ (Rule.attributes .loose).HitAt (passed line 6) 6 "class".toList) ∧
    opening <+: (passed line 0).drop 0 ∧ Rule.reserved.HitAt (passed line 3) 6 "class".toList := by
  let := Engine.backtracking
  intro line
  have hcut : (Rule.attributes .loose).cutShort (passed line 6) = false := by decide +kernel
  have hcut' : Rule.reserved.cutShort (passed line 3) = false := by decide +kernel
  have hsix : opening <+: (passed line 6).drop 0 := List.isPrefixOf_iff_prefix.1 (by decide +kernel)
  have hnone : opening <+: (passed line 0).drop 0 := List.isPrefixOf_iff_prefix.1 (by decide +kernel)
  have hmoved : movedAll (Rule.chained.take 3) (passed line 0) (0 + 6) = 6 := by decide +kernel
  obtain ⟨-, hcount, hothers, hattribute⟩ := (only_last_openings_whole line).1 hcut
  have hreserved := (only_last_openings_whole line).2 hcut' 0 (Nat.zero_le 3) 0 hnone
  rw [List.drop_zero, hmoved] at hreserved
  exact ⟨⟨hcut, hcut'⟩, hcount, hothers .keyword nofun, ⟨hsix, hattribute 6 (by decide) (Nat.le_refl 6) 0 hsix⟩, hnone,
    hreserved⟩

/-! ## Collisions that are missed -/

section

variable [Engine]

/-- A pass finds nothing in a text that lacks what its rule needs. -/
theorem Rule.substitute_of_lacks (tail : AttributeTail) {rule : Rule} (hrule : rule ∈ withTail tail) {text : List Char}
    (h : ∀ c ∈ text, rule.category.needs c = false) : rule.substitute text = text := by
  refine substitute_of_find_eq_none (Option.eq_none_iff_forall_ne_some.2 fun f hf => ?_)
  obtain ⟨-, k, -, hfound, -⟩ := find_eq_some.1 hf
  rw [foundAt_eq_none_of_lacks tail hrule h] at hfound
  cases hfound

theorem substituteAll_of_lacks (tail : AttributeTail) {text : List Char} : ∀ {rules : List Rule},
    (∀ rule ∈ rules, rule ∈ Rule.withTail tail ∧ ∀ c ∈ text, rule.category.needs c = false) →
      substituteAll rules text = text
  | [], _ => rfl
  | rule :: rules, h => by
    obtain ⟨hrule, hlacks⟩ := h rule List.mem_cons_self
    rw [substituteAll_cons, Rule.substitute_of_lacks tail hrule hlacks]
    exact substituteAll_of_lacks tail fun r hr => h r (List.mem_cons_of_mem _ hr)

/-- A match that ends a text is wrapped, if a character that every match begins with does not come before. -/
theorem Rule.substitute_lead {rule : Rule} {c : Char} {x y : List Char} (hplain : rule.expression.plain = true)
    (hlead : ∀ b d rest, d ≠ c → rule.pattern b (d :: rest) = none) (hx : c ∉ x) (hy : y ≠ [])
    (hmatch : rule.pattern x.getLast? y = some y.length) : rule.substitute (x ++ y) = x ++ wrap rule.category y := by
  refine substitute_append_match (fun j hj => foundAt_eq_none ?_) (Engine.plain _ _ hplain) hy hmatch
  have hafter : ((Place.start (x ++ y)).skip j).after = x[j] :: (x.drop (j + 1) ++ y) := by
    rw [Place.after_skip]
    show (x ++ y).drop j = _
    rw [List.drop_append_of_le_length (Nat.le_of_lt hj), List.drop_eq_getElem_cons hj, List.cons_append]
  rw [hafter]
  exact hlead _ _ _ fun h => hx (h ▸ List.getElem_mem hj)

theorem substitute_tags {x : List Char} (hx : '<' ∉ x) :
    Rule.tags.substitute (x ++ "<b>".toList) = x ++ wrap .tag "<b>".toList := by
  refine Rule.substitute_lead rfl (fun b d rest hd => ?_) hx (by decide) rfl
  show tagPattern b (d :: rest) = none
  rw [tagPattern, Pattern.opensTag_of_ne hd]
  rfl

theorem substitute_comments {x : List Char} (hx : '/' ∉ x) :
    Rule.comments.substitute (x ++ "//".toList) = x ++ wrap .comment "//".toList := by
  refine Rule.substitute_lead rfl (fun b d rest hd => ?_) hx (by decide) rfl
  exact Pattern.comment_eq_none (fun _ h => hd (List.cons.inj h).1) (fun _ h => hd (List.cons.inj h).1) b

theorem opening_passed_letters (m : Nat) : opening <+: (passed (Regex.letters m ++ "//".toList) 1).drop (2 * m) := by
  have hslash : '/' ∉ Regex.letters m := fun h => absurd (Regex.mem_letters h) (by decide)
  have hfirst : passed (Regex.letters m ++ "//".toList) 1 = Regex.letters m ++ wrap .comment "//".toList :=
    substitute_comments hslash
  rw [hfirst, ← Regex.length_letters m, List.drop_left]
  decide

/-- The passes in front of the one for reserved words leave words of one letter as they are. -/
theorem exists_substituteAll_letters (m : Nat) : ∀ {rules : List Rule}, rules ⊆ Rule.chained.take 3 → ∀ y,
    ∃ y', substituteAll rules (Regex.letters m ++ y) = Regex.letters m ++ y'
  | [], _, y => ⟨y, rfl⟩
  | rule :: rules, hrules, y => by
    have hrule := hrules List.mem_cons_self
    have hspace : ∀ b z, rule.pattern b (' ' :: z) = none := fun b z =>
      (Rule.ignoresMargins_of_mem_withTail .loose rule (List.mem_of_mem_take hrule)).space b z rfl
    have hletter : ∀ b z, rule.pattern b ('x' :: ' ' :: z) = none := by
      intro b z
      simp only [Rule.chained, Rule.withTail, List.take_succ_cons, List.take_zero, List.mem_cons, List.not_mem_nil,
        or_false] at hrule
      rcases hrule with rfl | rfl | rfl
      · rfl
      · rfl
      · exact ite_self none
    have hnone : ∀ j < (Regex.letters m).length, rule.foundAt ((Place.start (Regex.letters m ++ y)).skip j) = none := by
      intro j hj
      refine Rule.foundAt_eq_none ?_
      rw [Place.after_skip]
      obtain ⟨z, hz | hz⟩ := Regex.exists_drop_letters y hj
      · exact (congrArg (rule.pattern _) hz).trans (hletter _ z)
      · exact (congrArg (rule.pattern _) hz).trans (hspace _ z)
    obtain ⟨y', hy'⟩ := Rule.exists_substitute_append hnone
    rw [substituteAll_cons, hy']
    exact exists_substituteAll_letters m (fun r hr => hrules (List.mem_cons_of_mem _ hr)) y'

end

/-- **Where the last search is given up at once the marker of a tag stays whole.** -/
theorem highlightChained_hyphened {m : Nat} (hm : 706 ≤ m) :
    letI := Engine.backtracking
    highlightChained (Regex.hyphened m ++ "<b>".toList) = Regex.hyphened m ++ wrap .tag "<b>".toList := by
  let := Engine.backtracking
  have hlacks : ∀ rule ∈ Rule.chained.take 5, ∀ c ∈ Regex.hyphened m ++ "<b>".toList,
      rule.category.needs c = false := by
    have hchars : ∀ rule ∈ Rule.chained.take 5, (['a', '-'] ++ "<b>".toList).any rule.category.needs = false := by
      decide
    intro rule hrule c hc
    refine Category.lacks_of_any (hchars rule hrule) c (List.mem_append.2 ?_)
    exact (List.mem_append.1 hc).imp_left Regex.mem_hyphened
  have hfirst : passed (Regex.hyphened m ++ "<b>".toList) 5 = Regex.hyphened m ++ "<b>".toList :=
    substituteAll_of_lacks .loose fun rule hrule => ⟨List.mem_of_mem_take hrule, hlacks rule hrule⟩
  have hopen : '<' ∉ Regex.hyphened m := fun h => absurd (Regex.mem_hyphened h) (by decide)
  have hsix : passed (Regex.hyphened m ++ "<b>".toList) 6 = Regex.hyphened m ++ wrap .tag "<b>".toList := by
    rw [← passed_add (Nat.le_succ 5), hfirst]
    exact substitute_tags hopen
  rw [highlightChained_eq, hsix]
  exact Rule.substitute_of_find_eq_none (if_pos (Regex.givesUp_hyphened rfl rfl hm 0))

/-- **Where the search for reserved words is given up at once it finds nothing**, whatever is in front of it. -/
theorem not_hitAt_reserved_letters {m : Nat} (hm : 14705 ≤ m) (n : Nat) (h : List Char) :
    letI := Engine.backtracking
    ¬ Rule.reserved.HitAt (passed (Regex.letters (m + 1) ++ "//".toList) 3) n h := by
  let := Engine.backtracking
  rintro ⟨before, after, hpieces, -⟩
  obtain ⟨y, hy⟩ := exists_substituteAll_letters (m + 1) (List.Subset.refl (Rule.chained.take 3)) "//".toList
  have hnone : Rule.reserved.find (Place.start (Regex.letters (m + 1) ++ y)) = none :=
    if_pos (Regex.givesUp_letters y hm 0)
  rw [passed, hy, Rule.pieces, Rule.piecesFrom_of_find_eq_none hnone] at hpieces
  have hmem : Piece.hit h ∈ (Regex.letters (m + 1) ++ y).map Piece.plain := by
    rw [show (Regex.letters (m + 1) ++ y).map Piece.plain = before ++ .hit h :: after from hpieces]
    exact List.mem_append_right _ List.mem_cons_self
  simp at hmem

/-- Behind a long hyphenated word the marker of a tag is left whole, and behind many words the `class` of the marker of
a comment is not found by the pass for reserved words. -/
theorem opening_left_whole :
    letI := Engine.backtracking
    markerOpen .tag <:+: highlightChained (Regex.hyphened 900 ++ "<b>".toList) ∧
    opening <+: (passed (Regex.letters 20000 ++ "//".toList) 1).drop 40000 ∧
    ∀ n h, ¬ Rule.reserved.HitAt (passed (Regex.letters 20000 ++ "//".toList) 3) n h := by
  let := Engine.backtracking
  refine ⟨?_, opening_passed_letters 20000, not_hitAt_reserved_letters (m := 19999) (by decide)⟩
  rw [highlightChained_hyphened (by decide)]
  exact ⟨Regex.hyphened 900, "<b>".toList ++ markerClose, by simp only [wrap, List.append_assoc]⟩

end JsxView
