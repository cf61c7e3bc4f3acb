import JsxView.Proofs.MarkupReader
/-!
# Tags — where a page can be cut

A text whose first character comes once in it never overlaps itself, so a page that has it in two places has it twice
(`cut_cases`).  A tag is such a text, and the tags of a page are found from left to right (`tagsOf`): what stands in a
page as a tag is among its tags (`mem_tagsOf`).  The markers of the categories are balanced and leave nothing behind
when they are taken out of the tags (`Balanced.outsideMarkers`).
-/
namespace JsxView

/-! ## Cuts -/

/-- A text that begins in itself begins at its start or behind its end. -/
theorem eq_nil_or_prefix_of_overlap {c : Char} {n w y z : List Char} (hc : c ∉ n)
    (h : c :: n ++ z = w ++ (c :: n ++ y)) : w = [] ∨ c :: n <+: w := by
  rcases List.append_eq_append_iff.1 h with ⟨v, hw, -⟩ | ⟨v, hm, hz⟩
  · exact Or.inr ⟨v, hw.symm⟩
  · cases w with
    | nil => exact Or.inl rfl
    | cons d w =>
      cases v with
      | nil =>
        rw [List.append_nil] at hm
        exact Or.inr ⟨[], by rw [List.append_nil, hm]⟩
      | cons e v =>
        -- the second place begins inside the first one, behind its first character
        have he : c = e := (List.cons.inj hz).1
        have hn : n = w ++ e :: v := (List.cons.inj hm).2
        exact absurd (hn ▸ List.mem_append_right _ (he ▸ List.mem_cons_self)) hc

/-- **Cuts at the same text are the same cut**, or the text is left in both halves that are longer. -/
theorem cut_cases {c : Char} {m n x y s t : List Char} (h : x ++ (m ++ s) = y ++ (m ++ t)) (hm : m = c :: n)
    (hc : c ∉ n) :
    (x = y ∧ s = t) ∨ (m <:+: y ∧ m <:+: s) ∨ (m <:+: x ∧ m <:+: t) := by
  subst hm
  rcases List.append_eq_append_iff.1 h with ⟨w, hy, hs⟩ | ⟨w, hx, ht⟩
  · rcases eq_nil_or_prefix_of_overlap hc hs with rfl | ⟨v, rfl⟩
    · exact Or.inl ⟨by rw [hy, List.append_nil], List.append_cancel_left hs⟩
    · rw [List.append_assoc] at hs
      exact Or.inr (Or.inl ⟨⟨x, v, by rw [hy, List.append_assoc]⟩, v, t, by
        rw [List.append_cancel_left hs, List.append_assoc]⟩)
  · rcases eq_nil_or_prefix_of_overlap hc ht with rfl | ⟨v, rfl⟩
    · exact Or.inl ⟨by rw [hx, List.append_nil], (List.append_cancel_left ht).symm⟩
    · rw [List.append_assoc] at ht
      exact Or.inr (Or.inr ⟨⟨y, v, by rw [hx, List.append_assoc]⟩, v, s, by
        rw [List.append_cancel_left ht, List.append_assoc]⟩)

/-- A text cut where something comes first is cut in one way. -/
theorem cut_first {c : Char} {m n x y s t : List Char} (h : x ++ (m ++ s) = y ++ (m ++ t)) (hm : m = c :: n)
    (hc : c ∉ n) (hx : ¬ m <:+: x) (hy : ¬ m <:+: y) : x = y ∧ s = t := by
  rcases cut_cases h hm hc with hcut | ⟨hmem, -⟩ | ⟨hmem, -⟩
  · exact hcut
  · exact absurd hmem hy
  · exact absurd hmem hx

/-- A text cut where something comes once is cut in one way. -/
theorem cut_once {c : Char} {m n x y s t : List Char} (h : x ++ (m ++ s) = y ++ (m ++ t)) (hm : m = c :: n)
    (hc : c ∉ n) (hy : ¬ m <:+: y) (ht : ¬ m <:+: t) : x = y ∧ s = t := by
  rcases cut_cases h hm hc with hcut | ⟨hmem, -⟩ | ⟨-, hmem⟩
  · exact hcut
  · exact absurd hmem hy
  · exact absurd hmem ht

theorem absent_of_not_mem {c : Char} {m n x : List Char} (hm : m = c :: n) (hc : c ∉ x) : ¬ m <:+: x := by
  intro h
  rw [hm] at h
  exact hc (h.subset List.mem_cons_self)

/-! ## Tags -/

/-- The text up to the first `>` and with it. -/
def throughBracket : List Char → List Char
  | [] => []
  | c :: rest => if c = '>' then [c] else c :: throughBracket rest

/-- **The tags of a page**: from every `<` through the next `>`. -/
def tagsOf : List Char → List (List Char)
  | [] => []
  | c :: rest => if c = '<' then throughBracket (c :: rest) :: tagsOf rest else tagsOf rest

/-- The tags of a piece of a page, whatever comes behind it. -/
def HasTags (x : List Char) (tags : List (List Char)) : Prop :=
  ∀ y, tagsOf (x ++ y) = tags ++ tagsOf y

theorem throughBracket_append : ∀ {n : List Char} (rest : List Char), '>' ∉ n →
    throughBracket (n ++ '>' :: rest) = n ++ ['>']
  | [], _, _ => rfl
  | c :: n, rest, h => by
    have hc : c ≠ '>' := fun hc => h (hc ▸ List.mem_cons_self)
    rw [List.cons_append, throughBracket, if_neg hc,
      throughBracket_append rest fun hmem => h (List.mem_cons_of_mem _ hmem)]
    rfl

/-- **A tag that stands anywhere in a page is one of its tags.** -/
theorem mem_tagsOf {n : List Char} (hn : '>' ∉ n) : ∀ (x y : List Char),
    '<' :: n ++ ['>'] ∈ tagsOf (x ++ ('<' :: n ++ '>' :: y))
  | [], y => by
    have hopen : '>' ∉ '<' :: n := by
      rw [List.mem_cons, not_or]
      exact ⟨by decide, hn⟩
    have htag := throughBracket_append y hopen
    rw [List.nil_append, List.cons_append, tagsOf, if_pos rfl, ← List.cons_append, htag]
    exact List.mem_cons_self
  | c :: x, y => by
    have ih := mem_tagsOf hn x y
    rw [List.cons_append, tagsOf]
    split
    · exact List.mem_cons_of_mem _ ih
    · exact ih

namespace HasTags

theorem nil : HasTags [] [] := fun _ => rfl

theorem tagsOf_eq {x : List Char} {tags : List (List Char)} (h : HasTags x tags) : tagsOf x = tags := by
  have := h []
  rwa [List.append_nil, tagsOf, List.append_nil] at this

theorem append {x y : List Char} {s t : List (List Char)} (hx : HasTags x s) (hy : HasTags y t) :
    HasTags (x ++ y) (s ++ t) := by
  intro z
  rw [List.append_assoc, hx, hy, List.append_assoc]

theorem flatMap {α : Type} {f : α → List Char} {g : α → List (List Char)} : ∀ {l : List α},
    (∀ a ∈ l, HasTags (f a) (g a)) → HasTags (l.flatMap f) (l.flatMap g)
  | [], _ => nil
  | a :: l, h => by
    rw [List.flatMap_cons, List.flatMap_cons]
    exact (h a List.mem_cons_self).append (flatMap fun b hb => h b (List.mem_cons_of_mem _ hb))

theorem text : ∀ {x : List Char}, '<' ∉ x → HasTags x []
  | [], _ => nil
  | c :: x, h => by
    intro y
    have hc : c ≠ '<' := fun hc => h (hc ▸ List.mem_cons_self)
    rw [List.cons_append, tagsOf, if_neg hc]
    exact text (fun hmem => h (List.mem_cons_of_mem _ hmem)) y

/-- A tag that is not among the tags of a piece stands nowhere in it. -/
theorem absent {x m n rest : List Char} {tags : List (List Char)} (h : HasTags x tags)
    (hm : m = '<' :: n ++ '>' :: rest) (hn : '>' ∉ n) (htag : '<' :: n ++ ['>'] ∉ tags) : ¬ m <:+: x := by
  rintro ⟨a, b, rfl⟩
  have hmem := mem_tagsOf hn a (rest ++ b)
  have hpage : a ++ m ++ b = a ++ ('<' :: n ++ '>' :: (rest ++ b)) := by
    simp only [hm, List.append_assoc, List.cons_append]
  rw [← hpage, h.tagsOf_eq] at hmem
  exact htag hmem

end HasTags

/-! ## Tags of markup -/

/-- The tags of an item of markup. -/
def MarkupItem.tags : MarkupItem → List (List Char)
  | .opening category => [markerOpen category]
  | .closing => [markerClose]
  | .char _ => []

theorem MarkupItem.mem_markers (item : MarkupItem) {tag : List Char} (h : tag ∈ item.tags) : tag ∈ markers := by
  cases item with
  | opening category =>
    rw [List.mem_singleton.1 h]
    exact List.mem_append_left _ (List.mem_map.2 ⟨category, category.mem_all, rfl⟩)
  | closing =>
    rw [List.mem_singleton.1 h]
    exact List.mem_append_right _ List.mem_cons_self
  | char c => cases h

theorem MarkupItem.hasTags (item : MarkupItem) : HasTags item.write item.tags := by
  cases item with
  | opening category => cases category <;> exact fun _ => rfl
  | closing => exact fun _ => rfl
  | char c =>
    apply HasTags.text
    by_cases hc : c ∈ escapedChars
    · rcases mem_escapedChars.1 hc with rfl | rfl | rfl <;> decide
    · rw [MarkupItem.write, escapeChar_of_not_mem hc, List.mem_singleton]
      rintro rfl
      exact hc (by decide)

/-- One tag passed: of the spans that are open behind it, innermost first, which are markers, and the tag itself unless
it opens a marker or closes one. -/
def passTag (opened : List Bool) (tag : List Char) : List Bool × List (List Char) :=
  if Category.all.any (tag = markerOpen ·) then (true :: opened, [])
  else if tag = markerClose then (opened.tail, if opened.headD false then [] else [tag])
  else if "<span".toList.isPrefixOf tag then (false :: opened, [tag])
  else (opened, [tag])

/-- **The tags outside the markers**: every marker of a category is taken out, and with it its own closing. -/
def outsideMarkers : List Bool → List (List Char) → List (List Char)
  | _, [] => []
  | opened, tag :: rest => (passTag opened tag).2 ++ outsideMarkers (passTag opened tag).1 rest

theorem passTag_markerOpen (opened : List Bool) (category : Category) :
    passTag opened (markerOpen category) = (true :: opened, []) :=
  if_pos (List.any_eq_true.2 ⟨category, category.mem_all, decide_eq_true rfl⟩)

theorem passTag_markerClose (opened : List Bool) : passTag (true :: opened) markerClose = (opened, []) := by
  unfold passTag
  rw [if_neg (by decide), if_pos rfl]
  rfl

/-- **Balanced markup leaves nothing behind.** -/
theorem Balanced.outsideMarkers {items : List MarkupItem} (h : Balanced items) :
    ∀ (opened : List Bool) (rest : List (List Char)),
      JsxView.outsideMarkers opened (items.flatMap MarkupItem.tags ++ rest) = JsxView.outsideMarkers opened rest := by
  induction h with
  | nil => exact fun _ _ => rfl
  | char c _ ih => exact ih
  | @marker category inner after _ _ ihin ihafter =>
    intro opened rest
    have htags : (MarkupItem.opening category :: (inner ++ .closing :: after)).flatMap MarkupItem.tags ++ rest =
        markerOpen category :: (inner.flatMap MarkupItem.tags ++ markerClose ::
          (after.flatMap MarkupItem.tags ++ rest)) := by
      simp [MarkupItem.tags]
    rw [htags, JsxView.outsideMarkers, passTag_markerOpen, List.nil_append, ihin, JsxView.outsideMarkers,
      passTag_markerClose, List.nil_append, ihafter]

end JsxView
