import JsxView.Proofs.MarkerCollision
/-!
# MarkerHeads — the beginnings and ends of markers, never torn

The chain writes markers around matches and tears them again later, but never inside their first six characters or
inside their closings.  Read as characters, heads and tails (`Fragment`), the line behind a pass is the one before it
with runs of fragments wrapped in a head and a tail (`Wrapped`, `PartCut.exists_wrapped`): no match begins or ends
inside a head or a tail (`Nested.not_cuts_inside`), because a head has the name of its attribute or another marker
behind it and so never looks like an attribute itself.  Wrapping adds one head and one tail and keeps every head before
its tail (`Wrapped.nested`), which the chain does once for every match (`Marked.run`).
-/
namespace JsxView

/-- How every marker begins, up to the name of its attribute. -/
def markerHead : List Char :=
  "<span ".toList

/-- What comes between the head of an opening and the text in the marker. -/
def classText (category : Category) : List Char :=
  "class=\"".toList ++ category.cssClass ++ "\">".toList

theorem markerOpen_eq (category : Category) : markerOpen category = markerHead ++ classText category := by
  cases category <;> decide

theorem lt_not_mem_classText (category : Category) : '<' ∉ classText category := by
  cases category <;> decide

theorem head?_classText (category : Category) : (classText category).head? = some 'c' := by
  cases category <;> decide

/-- What a line without `<` consists of behind some passes of the chain. -/
inductive Fragment where
  | char (c : Char)
  | head
  | tail
  deriving DecidableEq

namespace Fragment

/-- The text of a fragment. -/
def text : Fragment → List Char
  | .char c => [c]
  | .head => markerHead
  | .tail => markerClose

end Fragment

/-- The text of some fragments. -/
def textOf (fragments : List Fragment) : List Char :=
  fragments.flatMap Fragment.text

theorem textOf_cons (a : Fragment) (rest : List Fragment) : textOf (a :: rest) = a.text ++ textOf rest :=
  List.flatMap_cons

theorem textOf_append (run rest : List Fragment) : textOf (run ++ rest) = textOf run ++ textOf rest :=
  List.flatMap_append

theorem textOf_chars (s : List Char) : textOf (s.map .char) = s :=
  flatMap_map_chars (fun _ => rfl) s

/-- What stands behind a head: the name of its attribute, or another marker. -/
def GoesOn (rest : List Fragment) : Prop :=
  (textOf rest).head? = some 'c' ∨ (textOf rest).head? = some '<'

/-- **Heads before their tails**, when `n` heads before the fragments still wait for their tails. -/
inductive Nested : Nat → List Fragment → Prop where
  | nil {n : Nat} : Nested n []
  | char {n : Nat} {c : Char} {rest : List Fragment} : c ≠ '<' → Nested n rest → Nested n (.char c :: rest)
  | head {n : Nat} {rest : List Fragment} : GoesOn rest → Nested (n + 1) rest → Nested n (.head :: rest)
  | tail {n : Nat} {rest : List Fragment} : Nested n rest → Nested (n + 1) (.tail :: rest)

/-- **Runs of fragments wrapped** in the marker of a category, a number of them. -/
inductive Wrapped (category : Category) : List Fragment → List Fragment → Nat → Prop where
  | nil : Wrapped category [] [] 0
  | keep {a : Fragment} {rest rest' : List Fragment} {k : Nat} : Wrapped category rest rest' k →
      Wrapped category (a :: rest) (a :: rest') k
  | wrap {run rest rest' : List Fragment} {k : Nat} : run ≠ [] → Wrapped category rest rest' k →
      Wrapped category (run ++ rest) (.head :: ((classText category).map .char ++ (run ++ .tail :: rest'))) (k + 1)

theorem Fragment.text_eq (a : Fragment) : ∃ c s, a.text = c :: s ∧ '<' ∉ s := by
  cases a with
  | char c => exact ⟨c, [], rfl, List.not_mem_nil⟩
  | head => exact ⟨'<', "span ".toList, rfl, by decide⟩
  | tail => exact ⟨'<', "/span>".toList, rfl, by decide⟩

/-! ## No borders inside heads and tails -/

/-- The pattern has no borders inside the head of a marker, as it goes on, nor inside the closing of one. -/
structure SparesMarkers (pattern : Pattern) : Prop where
  head : pattern.Spares (markerHead ++ ['c']) 6
  outer : pattern.Spares (markerHead ++ ['<']) 6
  tail : pattern.Spares markerClose 7

theorem sparesMarkers_of_mem_chained {rule : Rule} (hrule : rule ∈ Rule.chained) : SparesMarkers rule.pattern := by
  have hhead : ∀ category ∈ Category.all, ∀ i < 6, 0 < i →
      category.seam ((markerHead ++ ['c']).take i) ((markerHead ++ ['c']).drop i) = true := by decide
  have houter : ∀ category ∈ Category.all, ∀ i < 6, 0 < i →
      category.seam ((markerHead ++ ['<']).take i) ((markerHead ++ ['<']).drop i) = true := by decide
  have htail : ∀ category ∈ Category.all, ∀ i < 7, 0 < i →
      category.seam (markerClose.take i) (markerClose.drop i) = true := by decide
  have hmem := Category.mem_all rule.category
  exact ⟨Rule.spares_of_seams hrule (hhead _ hmem), Rule.spares_of_seams hrule (houter _ hmem),
    Rule.spares_of_seams hrule (htail _ hmem)⟩

theorem Pattern.Spares.not_cuts {pattern : Pattern} {word u v : List Char} {k : Nat} (hspares : pattern.Spares word k)
    (hword : word = u ++ v) (hne : u ≠ []) (hk : u.length < k) : ¬ pattern.Cuts u v := by
  have := hspares u.length hk (List.length_pos_iff.2 hne)
  rwa [hword, List.take_left, List.drop_left] at this

variable {pattern : Pattern} {category : Category}

theorem Nested.behind {n : Nat} {a : Fragment} {rest : List Fragment} (hnested : Nested n (a :: rest)) :
    ∃ m, Nested m rest := by
  cases hnested with
  | char _ hrest => exact ⟨_, hrest⟩
  | head _ hrest => exact ⟨_, hrest⟩
  | tail hrest => exact ⟨_, hrest⟩

theorem Nested.not_cuts_inside (hpattern : SparesMarkers pattern) {n : Nat} {a : Fragment} {rest : List Fragment}
    (hnested : Nested n (a :: rest)) {d r : List Char} (htext : a.text = d ++ r) (hd : d ≠ []) (hr : r ≠ []) :
    ∃ v, v <+: r ++ textOf rest ∧ ¬ pattern.Cuts d v := by
  have hlen := congrArg List.length htext
  have hpos := List.length_pos_iff.2 hr
  rw [List.length_append] at hlen
  cases hnested with
  | char =>
    have := List.length_pos_iff.2 hd
    rw [Fragment.text, List.length_singleton] at hlen
    omega
  | head hgoes _ =>
    have hsix : markerHead.length = 6 := rfl
    rw [Fragment.text] at htext hlen
    rcases hgoes with hgoes | hgoes
    · obtain ⟨s, hs⟩ := List.head?_eq_some_iff.1 hgoes
      refine ⟨r ++ ['c'], ⟨s, by rw [hs, List.append_assoc]; rfl⟩, hpattern.head.not_cuts ?_ hd (by omega)⟩
      rw [htext, List.append_assoc]
    · obtain ⟨s, hs⟩ := List.head?_eq_some_iff.1 hgoes
      refine ⟨r ++ ['<'], ⟨s, by rw [hs, List.append_assoc]; rfl⟩, hpattern.outer.not_cuts ?_ hd (by omega)⟩
      rw [htext, List.append_assoc]
  | tail =>
    have hseven : markerClose.length = 7 := rfl
    rw [Fragment.text] at htext hlen
    exact ⟨r, List.prefix_append _ _, hpattern.tail.not_cuts htext hd (by omega)⟩

/-- **A place in the text of some fragments** lies between two of them or inside one. -/
theorem Nested.split {n : Nat} {fragments : List Fragment} (hnested : Nested n fragments) : ∀ {h y : List Char},
    textOf fragments = h ++ y →
      (∃ run rest m, fragments = run ++ rest ∧ h = textOf run ∧ y = textOf rest ∧ Nested m rest) ∨
      ∃ a d r rest m, a.text = d ++ r ∧ d ≠ [] ∧ r ≠ [] ∧ d <:+ h ∧ y = r ++ textOf rest ∧ Nested m (a :: rest) := by
  induction fragments generalizing n with
  | nil =>
    intro h y htext
    obtain ⟨rfl, rfl⟩ := List.append_eq_nil_iff.1 htext.symm
    exact Or.inl ⟨[], [], n, rfl, rfl, rfl, hnested⟩
  | cons a fragments ih =>
    intro h y htext
    obtain ⟨m, hrest⟩ := hnested.behind
    rw [textOf_cons] at htext
    rcases List.append_eq_append_iff.1 htext with ⟨v, rfl, hv⟩ | ⟨v, hv, rfl⟩
    · -- the place is behind the first fragment
      rcases ih hrest hv with ⟨run, rest, m, rfl, rfl, rfl, hm⟩ | ⟨b, d, r, rest, m, hb, hd, hr, hsuffix, rfl, hm⟩
      · exact Or.inl ⟨a :: run, rest, m, rfl, rfl, rfl, hm⟩
      · exact Or.inr ⟨b, d, r, rest, m, hb, hd, hr, hsuffix.trans (List.suffix_append _ _), rfl, hm⟩
    · by_cases hh : h = []
      · rw [hh, List.nil_append] at hv
        exact Or.inl ⟨[], a :: fragments, n, rfl, hh, by rw [textOf_cons, hv], hnested⟩
      · by_cases hvnil : v = []
        · rw [hvnil, List.append_nil] at hv
          exact Or.inl ⟨[a], fragments, m, rfl, by rw [textOf_cons, hv]; exact (List.append_nil h).symm,
            by rw [hvnil, List.nil_append], hrest⟩
        · exact Or.inr ⟨a, h, v, fragments, n, hv, hh, hvnil, List.suffix_refl h, rfl, hnested⟩

/-! ## What a pass does to the fragments -/

theorem textOf_eq_nil {fragments : List Fragment} (h : textOf fragments = []) : fragments = [] := by
  cases fragments with
  | nil => rfl
  | cons a rest =>
    obtain ⟨c, s, htext, -⟩ := a.text_eq
    rw [textOf_cons, htext] at h
    cases h

theorem textOf_wrapped (category : Category) (run rest : List Fragment) :
    textOf (.head :: ((classText category).map .char ++ (run ++ .tail :: rest))) =
      wrap category (textOf run) ++ textOf rest := by
  rw [textOf_cons, textOf_append, textOf_append, textOf_chars, textOf_cons, wrap, markerOpen_eq]
  simp only [Fragment.text, List.append_assoc]

/-- **A pass wraps runs of whole fragments**, one for each of its matches, when the rest `r` of a fragment that began
before the text comes first. -/
theorem Pattern.PartCut.exists_wrapped (hpattern : SparesMarkers pattern) {x text : List Char} {pieces : List Piece}
    (hcut : PartCut pattern x text pieces) : ∀ {r : List Char} {fragments : List Fragment} {n : Nat},
      text = r ++ textOf fragments → Nested n fragments →
      (r ≠ [] → ∃ a d m, a.text = d ++ r ∧ d ≠ [] ∧ d <:+ x ∧ Nested m (a :: fragments)) →
      ∃ fragments', pieces.flatMap (Piece.mark category) = r ++ textOf fragments' ∧
        Wrapped category fragments fragments' (pieces.countP Piece.isHit) := by
  induction hcut with
  | nil =>
    intro r fragments n htext _ _
    obtain ⟨rfl, hnil⟩ := List.append_eq_nil_iff.1 htext.symm
    rw [textOf_eq_nil hnil]
    exact ⟨[], rfl, .nil⟩
  | @plain x rest c pieces _ ih =>
    intro r fragments n htext hnested hbegun
    have hcount : (Piece.plain c :: pieces).countP Piece.isHit = pieces.countP Piece.isHit :=
      List.countP_cons_of_neg Bool.false_ne_true
    rw [hcount]
    cases r with
    | cons b r =>
      obtain ⟨rfl, hrest⟩ := List.cons.inj htext
      obtain ⟨a, d, m, ha, -, hsuffix, hm⟩ := hbegun (List.cons_ne_nil c r)
      obtain ⟨fragments', hmarked, hwrapped⟩ := ih hrest hnested fun _ =>
        ⟨a, d ++ [c], m, by rw [ha, List.append_assoc]; rfl, by simp, List.suffix_append_self_iff.2 hsuffix, hm⟩
      exact ⟨fragments', congrArg (c :: ·) hmarked, hwrapped⟩
    | nil =>
      cases fragments with
      | nil => cases htext
      | cons a fragments =>
        obtain ⟨b, s, ha, -⟩ := a.text_eq
        rw [List.nil_append, textOf_cons, ha] at htext
        obtain ⟨rfl, hrest⟩ := List.cons.inj htext
        obtain ⟨m, hm⟩ := hnested.behind
        obtain ⟨fragments', hmarked, hwrapped⟩ := ih hrest hm fun _ =>
          ⟨a, [c], n, ha, List.cons_ne_nil c [], List.suffix_append x [c], hnested⟩
        refine ⟨a :: fragments', ?_, hwrapped.keep⟩
        rw [List.nil_append, textOf_cons, ha]
        exact congrArg (c :: ·) hmarked
  | @hit x h rest pieces hmatch _ ih =>
    intro r fragments n htext hnested hbegun
    by_cases hr : r = []
    · subst hr
      rcases hnested.split htext.symm with ⟨run, behind, m, rfl, rfl, rfl, hm⟩ | ⟨a, d, r, behind, m, ha, hd, hr,
        hsuffix, rfl, hm⟩
      · obtain ⟨fragments', hmarked, hwrapped⟩ := ih (List.nil_append _).symm hm fun h => absurd rfl h
        have hrun : run ≠ [] := fun hnil => hmatch.1 (by rw [hnil]; rfl)
        have hcount : (Piece.hit (textOf run) :: pieces).countP Piece.isHit = pieces.countP Piece.isHit + 1 :=
          List.countP_cons_of_pos rfl
        rw [hcount]
        refine ⟨_, ?_, hwrapped.wrap hrun⟩
        rw [List.nil_append, textOf_wrapped, List.flatMap_cons, hmarked]
        rfl
      · -- the match would end inside a head or a tail
        obtain ⟨v, hv, hcuts⟩ := hm.not_cuts_inside hpattern ha hd hr
        exact absurd ⟨x, h, _, hmatch, Or.inr ⟨hsuffix.trans (List.suffix_append x h), hv⟩⟩ hcuts
    · -- the match would begin inside a head or a tail
      obtain ⟨a, d, m, ha, hd, hsuffix, hm⟩ := hbegun hr
      obtain ⟨v, hv, hcuts⟩ := hm.not_cuts_inside hpattern ha hd hr
      exact absurd ⟨x, h, rest, hmatch, Or.inl ⟨hsuffix, htext ▸ hv⟩⟩ hcuts

/-! ## Wrapped fragments are nested -/

theorem goesOn_cons {a : Fragment} {rest : List Fragment} :
    GoesOn (a :: rest) ↔ a.text.head? = some 'c' ∨ a.text.head? = some '<' := by
  obtain ⟨c, s, ha, -⟩ := a.text_eq
  rw [GoesOn, textOf_cons, ha]
  rfl

theorem GoesOn.wrapped {rest rest' : List Fragment} {k : Nat} (hgoes : GoesOn rest)
    (hwrapped : Wrapped category rest rest' k) : GoesOn rest' := by
  cases hwrapped with
  | nil => exact hgoes
  | keep _ => exact goesOn_cons.2 (goesOn_cons.1 hgoes)
  | wrap => exact Or.inr rfl

theorem Nested.chars {n : Nat} {rest : List Fragment} : ∀ {s : List Char}, '<' ∉ s → Nested n rest →
    Nested n (s.map .char ++ rest)
  | [], _, hrest => hrest
  | c :: s, hs, hrest => by
    rw [List.mem_cons, not_or] at hs
    exact .char (Ne.symm hs.1) (chars hs.2 hrest)

/-- A run between a head and a tail is nested if it is so alone. -/
theorem Nested.closed {rest rest' : List Fragment} (hrest : ∀ m, Nested m rest → Nested m rest') :
    ∀ {run : List Fragment} {n : Nat}, Nested n (run ++ rest) → Nested (n + 1) (run ++ .tail :: rest')
  | [], n, hnested => .tail (hrest n hnested)
  | a :: run, n, hnested => by
    cases hnested with
    | char hc hbehind => exact .char hc (closed hrest hbehind)
    | head hgoes hbehind =>
      refine .head ?_ (closed hrest hbehind)
      cases run with
      | nil => exact Or.inr rfl
      | cons b run => exact goesOn_cons.2 (goesOn_cons.1 hgoes)
    | tail hbehind => exact .tail (closed hrest hbehind)

theorem Wrapped.nested {fragments fragments' : List Fragment} {k : Nat}
    (hwrapped : Wrapped category fragments fragments' k) : ∀ n, Nested n fragments → Nested n fragments' := by
  induction hwrapped with
  | nil => exact fun _ h => h
  | keep hwrapped ih =>
    intro n hnested
    cases hnested with
    | char hc hrest => exact .char hc (ih _ hrest)
    | head hgoes hrest => exact .head (hgoes.wrapped hwrapped) (ih _ hrest)
    | tail hrest => exact .tail (ih _ hrest)
  | wrap _ _ ih =>
    intro n hnested
    refine .head (Or.inl ?_) (.chars (lt_not_mem_classText category) (hnested.closed ih))
    rw [textOf_append, textOf_chars, List.head?_append, head?_classText]
    rfl

theorem Wrapped.count {fragments fragments' : List Fragment} {k : Nat}
    (hwrapped : Wrapped category fragments fragments' k) :
    fragments'.count .head = fragments.count .head + k ∧ fragments'.count .tail = fragments.count .tail + k := by
  induction hwrapped with
  | nil => exact ⟨rfl, rfl⟩
  | @keep a _ _ _ _ ih =>
    rw [List.count_cons, List.count_cons, List.count_cons, List.count_cons]
    omega
  | wrap _ _ ih =>
    have hchars : ∀ a : Fragment, a.text.length ≠ 1 → ((classText category).map .char).count a = 0 := by
      intro a ha
      refine List.count_eq_zero.2 fun hmem => ?_
      obtain ⟨c, -, rfl⟩ := List.mem_map.1 hmem
      exact ha rfl
    simp only [List.count_cons, List.count_append, hchars .head (by decide), hchars .tail (by decide)]
    simp only [beq_iff_eq, reduceCtorEq, if_true, if_false]
    omega

/-! ## What nested fragments look like as text -/

theorem Nested.ne_bracket {n : Nat} {a : Fragment} {rest : List Fragment} (hnested : Nested n (a :: rest)) :
    a ≠ .char '<' := by
  cases hnested with
  | char hc _ => simpa using hc
  | head => simp
  | tail => simp

section

variable {word : List Char} (hword : word.head? = some '<')
include hword

/-- **Where a word with the bracket of a marker occurs, a fragment begins.** -/
theorem Nested.exists_fragment : ∀ {fragments : List Fragment} {n i : Nat}, Nested n fragments →
    word <+: (textOf fragments).drop i →
      ∃ a rest m, (textOf fragments).drop i = a.text ++ textOf rest ∧ Nested m (a :: rest)
  | [], _, i, _, hpre => by
    rw [textOf, List.flatMap_nil, List.drop_nil] at hpre
    rw [List.prefix_nil.1 hpre] at hword
    cases hword
  | a :: rest, n, 0, hnested, _ => ⟨a, rest, n, textOf_cons a rest, hnested⟩
  | a :: rest, n, i + 1, hnested, hpre => by
    obtain ⟨c, s, ha, hs⟩ := a.text_eq
    obtain ⟨m, hrest⟩ := hnested.behind
    rw [textOf_cons, ha, List.cons_append, List.drop_succ_cons] at hpre ⊢
    obtain ⟨k, rfl, hk⟩ := prefix_drop_of_not_mem hword hs hpre
    rw [List.drop_length_add_append]
    exact exists_fragment hrest hk

theorem occurrences_fragment (a : Fragment) (rest : List Char) : occurrences word (a.text ++ rest) =
    (if word <+: a.text ++ rest then 1 else 0) + occurrences word rest := by
  obtain ⟨c, s, ha, hs⟩ := a.text_eq
  rw [ha, List.cons_append, occurrences_cons, occurrences_append_of_not_mem hword _ hs]

end

section

variable {b : Fragment} (hb : b = .head ∨ b = .tail)
include hb

theorem head?_text : b.text.head? = some '<' := by
  rcases hb with rfl | rfl <;> rfl

/-- Heads and tails are told apart by their second character. -/
theorem text_prefix_iff {a : Fragment} (ha : a ≠ .char '<') (rest : List Char) : b.text <+: a.text ++ rest ↔ a = b := by
  constructor
  · intro hpre
    cases a with
    | char c =>
      have hc : '<' ≠ c := fun h => ha (by rw [h])
      exact absurd hpre (not_prefix_cons_of_ne (head?_text hb) hc rest)
    | head =>
      rcases hb with rfl | rfl
      · rfl
      · exact absurd (List.cons_prefix_cons.1 (List.cons_prefix_cons.1 hpre).2).1 (by decide)
    | tail =>
      rcases hb with rfl | rfl
      · exact absurd (List.cons_prefix_cons.1 (List.cons_prefix_cons.1 hpre).2).1 (by decide)
      · rfl
  · rintro rfl
    exact List.prefix_append _ _

theorem occurrences_cons_fragment {a : Fragment} (ha : a ≠ .char '<') (rest : List Char) :
    occurrences b.text (a.text ++ rest) = (if a = b then 1 else 0) + occurrences b.text rest := by
  rw [occurrences_fragment (head?_text hb)]
  simp only [text_prefix_iff hb ha]

/-- **Heads and tails occur in the text as often as among the fragments.** -/
theorem Nested.occurrences_eq {n : Nat} {fragments : List Fragment} (hnested : Nested n fragments) :
    occurrences b.text (textOf fragments) = fragments.count b := by
  induction fragments generalizing n with
  | nil => rcases hb with rfl | rfl <;> rfl
  | cons a rest ih =>
    obtain ⟨m, hrest⟩ := hnested.behind
    rw [textOf_cons, occurrences_cons_fragment hb hnested.ne_bracket, ih hrest, List.count_cons, Nat.add_comm]
    simp only [beq_iff_eq]

end

namespace Nested

variable {n : Nat} {fragments : List Fragment}

/-- **Every bracket of a marker begins a head or a tail.** -/
theorem head_or_tail (hnested : Nested n fragments) {i : Nat} (hpre : ['<'] <+: (textOf fragments).drop i) :
    markerHead <+: (textOf fragments).drop i ∨ markerClose <+: (textOf fragments).drop i := by
  obtain ⟨a, rest, m, hdrop, hm⟩ := hnested.exists_fragment rfl hpre
  rw [hdrop] at hpre ⊢
  cases a with
  | char c =>
    have hc : '<' ≠ c := fun h => hm.ne_bracket (by rw [h])
    exact absurd hpre (not_prefix_cons_of_ne rfl hc _)
  | head => exact Or.inl (List.prefix_append _ _)
  | tail => exact Or.inr (List.prefix_append _ _)

/-- **Behind a head comes the name of its attribute or another marker.** -/
theorem head_goesOn (hnested : Nested n fragments) {i : Nat} (hpre : markerHead <+: (textOf fragments).drop i) :
    markerHead ++ ['c'] <+: (textOf fragments).drop i ∨ markerHead ++ ['<'] <+: (textOf fragments).drop i := by
  obtain ⟨a, rest, m, hdrop, hm⟩ := hnested.exists_fragment rfl hpre
  rw [hdrop] at hpre ⊢
  obtain rfl : a = .head := (text_prefix_iff (Or.inl rfl) hm.ne_bracket _).1 hpre
  cases hm with
  | head hgoes _ =>
    refine hgoes.imp (fun h => ?_) fun h => ?_
    all_goals
      obtain ⟨s, hs⟩ := List.head?_eq_some_iff.1 h
      exact ⟨s, by rw [hs, List.append_assoc]; rfl⟩

theorem occurrences_markerClose_le {a : Fragment} (ha : a ≠ .char '<') {p : List Char} (hp : p <+: a.text) :
    occurrences markerClose p ≤ if a = .tail then 1 else 0 := by
  cases a with
  | char c =>
    have hc : '<' ∉ p := fun hmem => ha (by rw [List.mem_singleton.1 (hp.subset hmem)])
    have hnone := occurrences_append_of_not_mem (show markerClose.head? = some '<' from rfl) [] hc
    rw [List.append_nil] at hnone
    rw [hnone]
    exact Nat.zero_le _
  | head =>
    have hall : ∀ p ∈ markerHead.inits, occurrences markerClose p ≤ 0 := by decide
    exact hall p ((List.mem_inits p markerHead).2 hp)
  | tail =>
    have hall : ∀ p ∈ markerClose.inits, occurrences markerClose p ≤ 1 := by decide
    exact hall p ((List.mem_inits p markerClose).2 hp)

/-- **No beginning of the text has more tails than heads**, but for the tails of heads that came before it. -/
theorem occurrences_prefix_le (hnested : Nested n fragments) : ∀ p, p <+: textOf fragments →
    occurrences markerClose p ≤ n + occurrences markerHead p := by
  induction fragments generalizing n with
  | nil =>
    intro p hp
    rw [List.prefix_nil.1 hp]
    exact Nat.zero_le _
  | cons a rest ih =>
    intro p hp
    have ha := hnested.ne_bracket
    rw [textOf_cons] at hp
    rcases List.prefix_or_prefix_of_prefix hp (List.prefix_append a.text (textOf rest)) with hin | ⟨q, rfl⟩
    · have hle := occurrences_markerClose_le ha hin
      cases hnested with
      | char => exact Nat.le_trans hle (Nat.zero_le _)
      | head => exact Nat.le_trans hle (Nat.zero_le _)
      | tail =>
        rw [if_pos rfl] at hle
        omega
    · have hq : q <+: textOf rest := (List.prefix_append_right_inj a.text).1 hp
      have hheads : occurrences markerHead (a.text ++ q) = (if a = .head then 1 else 0) + occurrences markerHead q :=
        occurrences_cons_fragment (Or.inl rfl) ha q
      have htails : occurrences markerClose (a.text ++ q) = (if a = .tail then 1 else 0) + occurrences markerClose q :=
        occurrences_cons_fragment (Or.inr rfl) ha q
      rw [hheads, htails]
      cases hnested with
      | char _ hrest =>
        have := ih hrest q hq
        simpa using this
      | head _ hrest =>
        have := ih hrest q hq
        simp only [reduceCtorEq, if_true, if_false]
        omega
      | tail hrest =>
        have := ih hrest q hq
        simp only [reduceCtorEq, if_true, if_false]
        omega

end Nested

/-! ## The passes of the chain -/

/-- **A text of nested fragments** with the given number of heads, and as many tails. -/
def Marked (text : List Char) (k : Nat) : Prop :=
  ∃ fragments, text = textOf fragments ∧ Nested 0 fragments ∧ fragments.count .head = k ∧ fragments.count .tail = k

namespace Marked

variable {text : List Char} {k : Nat} {rule : Rule} {rules : List Rule}

theorem of_not_mem (h : '<' ∉ text) : Marked text 0 := by
  refine ⟨text.map .char, (textOf_chars text).symm, ?_, ?_, ?_⟩
  · have := Nested.chars h (Nested.nil (n := 0))
    rwa [List.append_nil] at this
  · exact List.count_eq_zero.2 (by simp)
  · exact List.count_eq_zero.2 (by simp)

variable [Engine]

/-- **A pass adds one head and one tail a match**, and the fragments stay nested. -/
theorem pass (hmarked : Marked text k) (hrule : rule ∈ Rule.chained) :
    Marked (rule.substitute text) (k + (rule.findAll text).length) := by
  obtain ⟨fragments, htext, hnested, hheads, htails⟩ := hmarked
  have hcut := Rule.partCut_pieces (Rule.bounded_of_mem_chained rule hrule) text
  obtain ⟨fragments', hmarks, hwrapped⟩ := hcut.exists_wrapped (sparesMarkers_of_mem_chained hrule)
    (by rw [htext, List.nil_append]) hnested fun h => absurd rfl h
  rw [← Rule.length_findAll] at hwrapped
  exact ⟨fragments', hmarks, hwrapped.nested 0 hnested, by rw [hwrapped.count.1, hheads],
    by rw [hwrapped.count.2, htails]⟩

theorem run : ∀ {rules : List Rule} {text : List Char} {k : Nat}, Marked text k →
    (∀ rule ∈ rules, rule ∈ Rule.chained) → Marked (substituteAll rules text)
      (k + sumPasses (fun rule given => (rule.findAll given).length) rules text)
  | [], _, _, hmarked, _ => hmarked
  | rule :: rules, text, k, hmarked, hrules => by
    have hrest := run (hmarked.pass (hrules rule List.mem_cons_self)) fun r hr => hrules r (List.mem_cons_of_mem _ hr)
    rwa [Nat.add_assoc] at hrest

/-- **A pass tears neither a head nor a tail.** -/
theorem keeps (hmarked : Marked text k) (hrule : rule ∈ Rule.chained) {b : Fragment} (hb : b = .head ∨ b = .tail) :
    rule.Keeps b.text text := by
  intro n hpre
  obtain ⟨fragments, rfl, hnested, -⟩ := hmarked
  have hbound := Rule.bounded_of_mem_chained rule hrule
  have hspares := sparesMarkers_of_mem_chained hrule
  rcases hb with rfl | rfl
  · rcases hnested.head_goesOn hpre with hgoes | hgoes
    · exact ⟨hspares.head.prefix_drop_moved hbound (by decide) hgoes, hspares.head.moved_add hbound (by decide) hgoes⟩
    · exact ⟨hspares.outer.prefix_drop_moved hbound (by decide) hgoes, hspares.outer.moved_add hbound (by decide) hgoes⟩
  · exact hspares.tail.keeps hbound n hpre

theorem keepAll (hmarked : Marked text k) (hrules : ∀ rule ∈ rules, rule ∈ Rule.chained) {b : Fragment}
    (hb : b = .head ∨ b = .tail) : KeepAll rules b.text text := by
  refine keepAll_of_invariant (fun t => ∃ k, Marked t k) (fun rule hrule t ht => ?_) ⟨k, hmarked⟩
  obtain ⟨k, ht⟩ := ht
  exact ⟨⟨_, ht.pass (hrules rule hrule)⟩, ht.keeps (hrules rule hrule) hb⟩

end Marked

variable [Engine]

/-- **The chain only inserts text, and of a line without `<` it never tears the beginning or the end of a marker.**
Every line is left in the result as a subsequence, and the result is longer by the markers of all matches that are
found.  If the line has no `<`, then whatever heads and tails stand in it behind some passes are moved in one piece by
the others and found again; every `<` of the result begins a head or a tail, there are as many of each as matches in all
passes, and no beginning of the result has more tails than heads. -/
theorem chain_only_inserts (line : List Char) :
    line.Sublist (highlightChained line) ∧
    byteSize (highlightChained line) = byteSize line + sumPasses
      (fun rule given => (rule.findAll given).length * (22 + rule.category.cssClass.length)) Rule.chained line ∧
    ('<' ∉ line →
      (∀ i, highlightChained line = substituteAll (Rule.chained.drop i) (passed line i) ∧
        KeepAll (Rule.chained.drop i) markerHead (passed line i) ∧
        KeepAll (Rule.chained.drop i) markerClose (passed line i)) ∧
      (∀ x y, highlightChained line = x ++ '<' :: y → markerHead <+: '<' :: y ∨ markerClose <+: '<' :: y) ∧
      occurrences markerHead (highlightChained line) =
        sumPasses (fun rule given => (rule.findAll given).length) Rule.chained line ∧
      occurrences markerClose (highlightChained line) =
        sumPasses (fun rule given => (rule.findAll given).length) Rule.chained line ∧
      ∀ p, p <+: highlightChained line → occurrences markerClose p ≤ occurrences markerHead p) := by
  refine ⟨sublist_substituteAll _ line, byteSize_substituteAll _ line, fun hline => ⟨?_, ?_⟩⟩
  · intro i
    have hmarked : Marked (passed line i) _ := (Marked.of_not_mem hline).run fun rule hrule => List.mem_of_mem_take hrule
    exact ⟨(substituteAll_drop line i).symm, hmarked.keepAll (fun rule hrule => List.mem_of_mem_drop hrule) (Or.inl rfl),
      hmarked.keepAll (fun rule hrule => List.mem_of_mem_drop hrule) (Or.inr rfl)⟩
  · have hmarked : Marked (substituteAll Rule.chained line) _ := (Marked.of_not_mem hline).run fun rule hrule => hrule
    obtain ⟨fragments, htext, hnested, hheads, htails⟩ := hmarked
    rw [Nat.zero_add] at hheads htails
    rw [highlightChained, htext]
    refine ⟨fun x y hxy => ?_, ?_, ?_, fun p hp => ?_⟩
    · have hdrop : (textOf fragments).drop x.length = '<' :: y := by rw [hxy, List.drop_left]
      have := hnested.head_or_tail (i := x.length) (by rw [hdrop]; exact ⟨y, rfl⟩)
      rwa [hdrop] at this
    · rw [← hheads]
      exact hnested.occurrences_eq (Or.inl rfl)
    · rw [← htails]
      exact hnested.occurrences_eq (Or.inr rfl)
    · have := hnested.occurrences_prefix_le p hp
      rwa [Nat.zero_add] at this

end JsxView
