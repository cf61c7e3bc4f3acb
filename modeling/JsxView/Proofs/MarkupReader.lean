import JsxView.Backtracking
import JsxView.Highlighter
import JsxView.Proofs.TokenTree
/-!
# MarkupReader — markup read back

Markup is a list of items: openings of markers, closings, and characters as they are escaped.  Written one behind the
other no item can be mistaken for another (`readItem?_write`), so markup is read item by item, without going back.
A reader that goes through the items with the markers that are still open recovers the text and the tree of tokens
(`decodeMarkup`).  Every line that is rendered with escapes reads back as the line and the tokens it was rendered from
(`Laid.readsAs`), whatever markers, entities and angle brackets the line itself contains.
-/
namespace JsxView

/-- What markup consists of. -/
inductive MarkupItem where
  | opening (category : Category)
  | closing
  | char (c : Char)
  deriving DecidableEq, Repr

/-- The characters that are escaped. -/
def escapedChars : List Char :=
  ['&', '<', '>']

namespace MarkupItem

/-- An item as it is written. -/
def write : MarkupItem → List Char
  | .opening category => markerOpen category
  | .closing => markerClose
  | .char c => escapeChar c

/-- The items that are not written as one character. -/
def written : List MarkupItem :=
  Category.all.map .opening ++ .closing :: escapedChars.map .char

end MarkupItem

/-- The item at the start of markup, none where a bracket or an ampersand begins no item. -/
def readItem? (markup : List Char) : Option MarkupItem :=
  match MarkupItem.written.find? (fun item => item.write.isPrefixOf markup) with
  | some item => some item
  | none =>
    match markup with
    | c :: _ => if c ∈ escapedChars then none else some (.char c)
    | [] => none

/-- The items of markup, when the next `skip` characters still belong to the item before them. -/
def readItemsFrom : Nat → List Char → Option (List MarkupItem)
  | _, [] => some []
  | skip + 1, _ :: rest => readItemsFrom skip rest
  | 0, c :: rest =>
    match readItem? (c :: rest) with
    | some item => (readItemsFrom (item.write.length - 1) rest).map (item :: ·)
    | none => none

/-- The items of markup. -/
def readItems (markup : List Char) : Option (List MarkupItem) :=
  readItemsFrom 0 markup

/-- What has been read: the text, the markers that are still open, innermost first, each with its first byte and the
tokens before it, and the tokens since the last opening. -/
structure Reading where
  text : List Char
  opened : List (Category × Nat × List Token)
  tokens : List Token

/-- One more item read. -/
def Reading.step (r : Reading) : MarkupItem → Option Reading
  | .char c => some { r with text := r.text ++ [c] }
  | .opening category =>
    some { r with opened := (category, byteSize r.text, r.tokens) :: r.opened, tokens := [] }
  | .closing =>
    match r.opened with
    | (category, start, before) :: opened =>
      some { r with opened, tokens := before ++ [⟨category, start, byteSize r.text, r.tokens⟩] }
    | [] => none

/-- **The text and the tokens of markup**, where it is markers and escaped text and every marker is closed. -/
def decodeMarkup (markup : List Char) : Option (List Char × List Token) :=
  match (readItems markup).bind fun items => items.foldlM Reading.step ⟨[], [], []⟩ with
  | some ⟨text, [], tokens⟩ => some (text, tokens)
  | _ => none

/-- **Markers balanced and nested.** -/
inductive Balanced : List MarkupItem → Prop where
  | nil : Balanced []
  | char (c : Char) {rest : List MarkupItem} : Balanced rest → Balanced (.char c :: rest)
  | marker (category : Category) {inner rest : List MarkupItem} : Balanced inner → Balanced rest →
      Balanced (.opening category :: (inner ++ .closing :: rest))

/-! ## Items are told apart -/

theorem mem_escapedChars {c : Char} : c ∈ escapedChars ↔ c = '&' ∨ c = '<' ∨ c = '>' := by
  simp only [escapedChars, List.mem_cons, List.not_mem_nil, or_false]

theorem escapeChar_of_not_mem {c : Char} (hc : c ∉ escapedChars) : escapeChar c = [c] := by
  unfold escapeChar
  split
  · exact absurd (by decide) hc
  · exact absurd (by decide) hc
  · exact absurd (by decide) hc
  · rfl

theorem MarkupItem.write_ne_nil (item : MarkupItem) : item.write ≠ [] := by
  cases item with
  | opening category => cases category <;> decide
  | closing => decide
  | char c =>
    by_cases hc : c ∈ escapedChars
    · rcases mem_escapedChars.1 hc with rfl | rfl | rfl <;> decide
    · rw [MarkupItem.write, escapeChar_of_not_mem hc]
      exact List.cons_ne_nil _ _

/-- Whatever is not written as one character begins with a character that is escaped. -/
theorem MarkupItem.exists_cons_of_mem_written : ∀ item ∈ written, ∃ h t, item.write = h :: t ∧ h ∈ escapedChars := by
  intro item hitem
  have hhead : ∀ item ∈ written, item.write.head?.all (· ∈ escapedChars) = true := by decide
  obtain ⟨h, t, hwrite⟩ := List.exists_cons_of_ne_nil item.write_ne_nil
  have hmem := hhead item hitem
  rw [hwrite, List.head?_cons, Option.all_some] at hmem
  exact ⟨h, t, hwrite, of_decide_eq_true hmem⟩

theorem find?_written_of_not_mem {c : Char} (hc : c ∉ escapedChars) (rest : List Char) :
    MarkupItem.written.find? (fun item => item.write.isPrefixOf (c :: rest)) = none := by
  rw [List.find?_eq_none]
  intro item hitem hbegins
  obtain ⟨h, t, hwrite, hmem⟩ := MarkupItem.exists_cons_of_mem_written item hitem
  rw [hwrite, List.isPrefixOf_iff_prefix, List.cons_prefix_cons] at hbegins
  exact hc (hbegins.1 ▸ hmem)

/-- **An item is read as it was written**, whatever comes behind it. -/
theorem readItem?_write (item : MarkupItem) (rest : List Char) : readItem? (item.write ++ rest) = some item := by
  cases item with
  | opening category => cases category <;> rfl
  | closing => rfl
  | char c =>
    by_cases hc : c ∈ escapedChars
    · rcases mem_escapedChars.1 hc with rfl | rfl | rfl <;> rfl
    · rw [MarkupItem.write, escapeChar_of_not_mem hc, List.singleton_append, readItem?, find?_written_of_not_mem hc]
      exact if_neg hc

theorem readItemsFrom_length : ∀ (x rest : List Char), readItemsFrom x.length (x ++ rest) = readItemsFrom 0 rest
  | [], _ => rfl
  | _ :: x, rest => readItemsFrom_length x rest

/-- **Items written one behind the other read back.** -/
theorem readItems_write : ∀ items : List MarkupItem, readItems (items.flatMap MarkupItem.write) = some items
  | [] => rfl
  | item :: rest => by
    have ih : readItemsFrom 0 (rest.flatMap MarkupItem.write) = some rest := readItems_write rest
    have hitem := readItem?_write item (rest.flatMap MarkupItem.write)
    obtain ⟨c, t, hwrite⟩ := List.exists_cons_of_ne_nil item.write_ne_nil
    rw [List.flatMap_cons, readItems]
    rw [hwrite, List.cons_append] at hitem ⊢
    have htail : item.write.length - 1 = t.length := by rw [hwrite, List.length_cons, Nat.add_sub_cancel]
    rw [readItemsFrom, hitem]
    show (readItemsFrom (item.write.length - 1) (t ++ rest.flatMap MarkupItem.write)).map (item :: ·) = _
    rw [htail, readItemsFrom_length, ih]
    rfl

/-! ## Brackets and ampersands -/

/-- A character of written items stands in one of them. -/
theorem exists_item_of_append_cons {c : Char} {y : List Char} : ∀ {items : List MarkupItem} {x : List Char},
    items.flatMap MarkupItem.write = x ++ c :: y → ∃ item ∈ items, ∃ u v before after,
      item.write = u ++ c :: v ∧ x = before ++ u ∧ y = v ++ after
  | [], x, h => by
    have := congrArg List.length h
    simp at this
  | item :: rest, x, h => by
    rw [List.flatMap_cons] at h
    rcases List.append_eq_append_iff.1 h with ⟨w, hx, hrest⟩ | ⟨w, hitem, hrest⟩
    · obtain ⟨item', hmem, u, v, before, after, hw, hwx, hy⟩ := exists_item_of_append_cons hrest
      exact ⟨item', List.mem_cons_of_mem _ hmem, u, v, item.write ++ before, after, hw,
        by rw [hx, hwx, List.append_assoc], hy⟩
    · cases w with
      | nil =>
        obtain ⟨item', hmem, u, v, before, after, hw, hwx, hy⟩ :=
          exists_item_of_append_cons (x := []) (by rw [List.nil_append] at hrest ⊢; exact hrest.symm)
        rw [List.append_nil] at hitem
        exact ⟨item', List.mem_cons_of_mem _ hmem, u, v, item.write ++ before, after, hw,
          by rw [List.append_assoc, ← hwx, List.append_nil, hitem], hy⟩
      | cons d v =>
        rw [List.cons_append] at hrest
        obtain ⟨rfl, hy⟩ := List.cons.inj hrest
        exact ⟨item, List.mem_cons_self, x, v, [], rest.flatMap MarkupItem.write, hitem, rfl, hy⟩

/-- The markers. -/
def markers : List (List Char) :=
  Category.all.map markerOpen ++ [markerClose]

/-- The entities that stand for escaped characters. -/
def entities : List (List Char) :=
  ["&amp;".toList, "&lt;".toList, "&gt;".toList]

theorem MarkupItem.write_cases (item : MarkupItem) :
    item.write ∈ markers ∨ item.write ∈ entities ∨ ∃ c ∉ escapedChars, item.write = [c] := by
  cases item with
  | opening category => exact Or.inl (List.mem_append_left _ (List.mem_map.2 ⟨category, category.mem_all, rfl⟩))
  | closing => exact Or.inl (List.mem_append_right _ List.mem_cons_self)
  | char c =>
    by_cases hc : c ∈ escapedChars
    · refine Or.inr (Or.inl ?_)
      rcases mem_escapedChars.1 hc with rfl | rfl | rfl <;> decide
    · exact Or.inr (Or.inr ⟨c, hc, escapeChar_of_not_mem hc⟩)

/-- A bracket opens a marker, or closes one, and is nowhere else in it. -/
theorem brackets_of_mem_markers : ∀ m ∈ markers, '<' ∉ m.tail ∧ '>' ∉ m.dropLast ∧ '&' ∉ m := by
  decide

theorem brackets_of_mem_entities : ∀ e ∈ entities, '<' ∉ e ∧ '>' ∉ e ∧ '&' ∉ e.tail := by
  decide

theorem mem_of_eq_append_cons {w u v : List Char} {c : Char} (h : w = u ++ c :: v) : c ∈ w := by
  rw [h]
  exact List.mem_append_right _ List.mem_cons_self

theorem eq_nil_of_not_mem_tail {w u v : List Char} {c : Char} (h : w = u ++ c :: v) (hc : c ∉ w.tail) : u = [] := by
  cases u with
  | nil => rfl
  | cons a u =>
    rw [h, List.cons_append, List.tail_cons] at hc
    exact absurd (List.mem_append_right _ List.mem_cons_self) hc

theorem eq_nil_of_not_mem_dropLast {w u v : List Char} {c : Char} (h : w = u ++ c :: v) (hc : c ∉ w.dropLast) :
    v = [] := by
  cases v with
  | nil => rfl
  | cons a v =>
    rw [h, List.dropLast_append_of_ne_nil (List.cons_ne_nil _ _),
      List.dropLast_cons_of_ne_nil (List.cons_ne_nil _ _)] at hc
    exact absurd (List.mem_append_right _ List.mem_cons_self) hc

theorem write_of_lt {item : MarkupItem} {u v : List Char} (h : item.write = u ++ '<' :: v) :
    item.write ∈ markers ∧ u = [] := by
  rcases item.write_cases with hm | he | ⟨c, hc, hw⟩
  · exact ⟨hm, eq_nil_of_not_mem_tail h (brackets_of_mem_markers _ hm).1⟩
  · exact absurd (mem_of_eq_append_cons h) (brackets_of_mem_entities _ he).1
  · rw [hw] at h
    rw [← List.mem_singleton.1 (mem_of_eq_append_cons h)] at hc
    exact absurd (by decide) hc

theorem write_of_gt {item : MarkupItem} {u v : List Char} (h : item.write = u ++ '>' :: v) :
    item.write ∈ markers ∧ v = [] := by
  rcases item.write_cases with hm | he | ⟨c, hc, hw⟩
  · exact ⟨hm, eq_nil_of_not_mem_dropLast h (brackets_of_mem_markers _ hm).2.1⟩
  · exact absurd (mem_of_eq_append_cons h) (brackets_of_mem_entities _ he).2.1
  · rw [hw] at h
    rw [← List.mem_singleton.1 (mem_of_eq_append_cons h)] at hc
    exact absurd (by decide) hc

theorem write_of_amp {item : MarkupItem} {u v : List Char} (h : item.write = u ++ '&' :: v) :
    item.write ∈ entities ∧ u = [] := by
  rcases item.write_cases with hm | he | ⟨c, hc, hw⟩
  · exact absurd (mem_of_eq_append_cons h) (brackets_of_mem_markers _ hm).2.2
  · exact ⟨he, eq_nil_of_not_mem_tail h (brackets_of_mem_entities _ he).2.2⟩
  · rw [hw] at h
    rw [← List.mem_singleton.1 (mem_of_eq_append_cons h)] at hc
    exact absurd (by decide) hc

/-! ## Rendered lines -/

theorem Balanced.chars : ∀ (t : List Char) {rest : List MarkupItem}, Balanced rest →
    Balanced (t.map MarkupItem.char ++ rest)
  | [], _, h => h
  | c :: t, _, h => .char c (Balanced.chars t h)

theorem foldlM_chars : ∀ (t : List Char) (r : Reading),
    (t.map MarkupItem.char).foldlM Reading.step r = some { r with text := r.text ++ t }
  | [], r => by
    rw [List.append_nil]
    rfl
  | c :: t, r => by
    have ih := foldlM_chars t { r with text := r.text ++ [c] }
    rw [List.append_assoc] at ih
    exact ih

theorem flatMap_write_chars (t : List Char) : (t.map MarkupItem.char).flatMap MarkupItem.write = escapeMarkup t := by
  rw [List.flatMap_map]
  rfl

/-- **Items that stand for a text with its tokens**: they are what is written for it, their markers are balanced, and
whoever reads them behind `pos` bytes of text has read the text and the tokens. -/
structure ReadsAs (pos : Nat) (text : List Char) (tokens : List Token) (items : List MarkupItem) : Prop where
  written : Token.renderInside true pos text tokens = items.flatMap MarkupItem.write
  balanced : Balanced items
  read : ∀ r : Reading, byteSize r.text = pos →
    items.foldlM Reading.step r = some { r with text := r.text ++ text, tokens := r.tokens ++ tokens }

theorem readsAs_text (pos : Nat) (t : List Char) : ReadsAs pos t [] (t.map MarkupItem.char) where
  written := (flatMap_write_chars t).symm
  balanced := by simpa using Balanced.chars t .nil
  read := by
    intro r _
    rw [foldlM_chars, List.append_nil]

/-- The text before a token, the token around what is inside it, and what comes behind it. -/
theorem ReadsAs.token {pos start stop : Nat} {a m b : List Char} {children rest : List Token}
    {inner outer : List MarkupItem} (category : Category) (hstart : start = pos + byteSize a)
    (hstop : stop = start + byteSize m) (hin : ReadsAs start m children inner) (hout : ReadsAs stop b rest outer) :
    ReadsAs pos (a ++ (m ++ b)) (⟨category, start, stop, children⟩ :: rest)
      (a.map MarkupItem.char ++ .opening category :: (inner ++ .closing :: outer)) where
  written := by
    rw [Token.renderInside_token true b category children rest hstart hstop, hin.written, hout.written, wrap]
    simp only [List.flatMap_append, List.flatMap_cons, flatMap_write_chars, MarkupItem.write, markupText, if_true,
      List.append_assoc]
  balanced := Balanced.chars a (.marker category hin.balanced hout.balanced)
  read := by
    intro r hr
    have hpos : byteSize (r.text ++ a) = start := by rw [byteSize_append]; omega
    have hend : byteSize (r.text ++ a ++ m) = stop := by rw [byteSize_append]; omega
    -- the marker is opened behind `a`, its inside is read on top of it, and the closing takes it off again
    rw [List.foldlM_append, foldlM_chars]
    show (inner ++ .closing :: outer).foldlM Reading.step
      ⟨r.text ++ a, (category, byteSize (r.text ++ a), r.tokens) :: r.opened, []⟩ = _
    rw [List.foldlM_append, hin.read _ hpos]
    show outer.foldlM Reading.step ⟨r.text ++ a ++ m, r.opened,
      r.tokens ++ [⟨category, byteSize (r.text ++ a), byteSize (r.text ++ a ++ m), children⟩]⟩ = _
    rw [hout.read _ hend, hpos, hend]
    simp only [List.append_assoc, List.singleton_append]

/-- **Every text that is taken apart along its tokens reads back.** -/
theorem Laid.readsAs {pos : Nat} {text : List Char} {tokens : List Token} (h : Laid pos text tokens) :
    ∃ items, ReadsAs pos text tokens items := by
  induction h with
  | text pos t => exact ⟨_, readsAs_text pos t⟩
  | token category hstart hstop _ _ ihin ihout =>
    obtain ⟨inner, hin⟩ := ihin
    obtain ⟨outer, hout⟩ := ihout
    exact ⟨_, hin.token category hstart hstop hout⟩

/-- **Markup without ambiguity**: every bracket belongs to a marker and every ampersand to an entity, the markers are
balanced, and reading the markup gives the text and its tokens. -/
structure Decodes (markup line : List Char) (tokens : List Token) : Prop where
  lt : ∀ x y, markup = x ++ '<' :: y → ∃ m ∈ markers, m <+: '<' :: y
  gt : ∀ x y, markup = x ++ '>' :: y → ∃ m ∈ markers, m <:+ x ++ ['>']
  amp : ∀ x y, markup = x ++ '&' :: y → ∃ e ∈ entities, e <+: '&' :: y
  balanced : ∃ items, readItems markup = some items ∧ Balanced items
  decoded : decodeMarkup markup = some (line, tokens)

theorem ReadsAs.decodes {line : List Char} {tokens : List Token} {items : List MarkupItem}
    (h : ReadsAs 0 line tokens items) : Decodes (renderLine true line tokens) line tokens := by
  have hwritten : renderLine true line tokens = items.flatMap MarkupItem.write := h.written
  have hread : readItems (renderLine true line tokens) = some items := by rw [hwritten, readItems_write]
  refine ⟨?_, ?_, ?_, ⟨items, hread, h.balanced⟩, ?_⟩
  · intro x y hxy
    obtain ⟨item, -, u, v, before, after, hw, -, hy⟩ := exists_item_of_append_cons (hwritten.symm.trans hxy)
    obtain ⟨hm, rfl⟩ := write_of_lt hw
    exact ⟨item.write, hm, after, by rw [hw, hy]; rfl⟩
  · intro x y hxy
    obtain ⟨item, -, u, v, before, after, hw, hx, -⟩ := exists_item_of_append_cons (hwritten.symm.trans hxy)
    obtain ⟨hm, rfl⟩ := write_of_gt hw
    exact ⟨item.write, hm, before, by rw [hw, hx, List.append_assoc]⟩
  · intro x y hxy
    obtain ⟨item, -, u, v, before, after, hw, -, hy⟩ := exists_item_of_append_cons (hwritten.symm.trans hxy)
    obtain ⟨he, rfl⟩ := write_of_amp hw
    exact ⟨item.write, he, after, by rw [hw, hy]; rfl⟩
  · unfold decodeMarkup
    rw [hread, Option.bind_some, h.read ⟨[], [], []⟩ rfl]
    rfl

/-- **A line with its tokens in place reads back from its markup**, at every depth. -/
theorem WellPlaced.decodes {line : List Char} {tokens : List Token} (h : WellPlaced line tokens) :
    Decodes (renderLine true line tokens) line tokens := by
  obtain ⟨items, hitems⟩ := h.laid.readsAs
  exact hitems.decodes

theorem highlightLine_decodes [Engine] (line : List Char) :
    Decodes ((Highlighter.mk .tokenized true).highlightLine line) line (tokenize line) :=
  (wellPlaced_tokenize line).decodes

/-- **Markup says what it was made from.**  What the highlighter writes for a line with escapes on reads back as the
line and its tokens, and so does every line with any tokens in their place. -/
theorem markup_decodes [Engine] :
    (∀ line : List Char, Decodes ((Highlighter.mk .tokenized true).highlightLine line) line (tokenize line)) ∧
    (∀ (line : List Char) (tokens : List Token), WellPlaced line tokens →
      Decodes (renderLine true line tokens) line tokens) :=
  ⟨highlightLine_decodes, fun _ _ h => h.decodes⟩

/-- Tokens three deep, one of them empty, on a line with markers and entities of its own. -/
theorem markup_decodes_nested :
    WellPlaced "é</span>&lt;".toList [⟨.tag, 2, 10, [⟨.quoted, 2, 9, [⟨.number, 4, 4, []⟩]⟩, ⟨.keyword, 9, 10, []⟩]⟩] ∧
    Decodes (renderLine true "é</span>&lt;".toList
        [⟨.tag, 2, 10, [⟨.quoted, 2, 9, [⟨.number, 4, 4, []⟩]⟩, ⟨.keyword, 9, 10, []⟩]⟩])
      "é</span>&lt;".toList [⟨.tag, 2, 10, [⟨.quoted, 2, 9, [⟨.number, 4, 4, []⟩]⟩, ⟨.keyword, 9, 10, []⟩]⟩] := by
  have hplaced : WellPlaced "é</span>&lt;".toList
      [⟨.tag, 2, 10, [⟨.quoted, 2, 9, [⟨.number, 4, 4, []⟩]⟩, ⟨.keyword, 9, 10, []⟩]⟩] := by
    simp only [WellPlaced, Token.AllWithin, Token.Within, Token.stop, IsCut]
    decide
  exact ⟨hplaced, (@markup_decodes Engine.backtracking).2 _ _ hplaced⟩

end JsxView
