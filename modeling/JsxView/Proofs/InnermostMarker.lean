import JsxView.Proofs.MarkupReader
import JsxView.Proofs.TokenOrder
import Mathlib.Data.List.Basic
/-!
# InnermostMarker — spans and markers colour alike

The terminal colours a line by its spans, and the page by its markers.  Both are made from the tokens, each by a
recursion of its own, and both answer the question which tokens stand around a byte (`Token.aroundAll`): of these the
innermost one gives the span there its category (`Laid.categoriesAt_flatten`), and all of them, innermost first, are the
markers that are open there (`Laid.showsAround`).  So a character is in a span just when it is in a marker, and in the
category of the innermost one.
-/
namespace JsxView

/-- The categories of the spans that cover a byte. -/
def Span.categoriesAt (spans : List Span) (byte : Nat) : List Category :=
  (spans.filter (·.contains byte)).map (·.category)

/-- An item as it is written with escapes or without. -/
def MarkupItem.writeAs (escape : Bool) : MarkupItem → List Char
  | .char c => markupText escape [c]
  | item => item.write

/-- **The characters among items, each with the markers around it**, innermost first. -/
def markersAround (opened : List Category) : List MarkupItem → List (Char × List Category)
  | [] => []
  | .opening category :: rest => markersAround (category :: opened) rest
  | .closing :: rest => markersAround opened.tail rest
  | .char c :: rest => (c, opened) :: markersAround opened rest

/-- **Spans and markup that colour a line alike.**  The markup, with escapes or without, is items with balanced markers
around the characters of the line.  The spans that cover a character are one of the category of the innermost marker
around it, or none if no marker is around it, and so it is drawn in the style of that category, or in the base style.
The spans are in order, and cover the bytes of the tokens and no others. -/
structure ColouredAlike (line : List Char) (tokens : List Token) (spans : List Span) (markup : Bool → List Char) :
    Prop where
  alike : ∃ items, readItems (markup true) = some items ∧ Balanced items ∧
    (∀ escape, markup escape = items.flatMap (MarkupItem.writeAs escape)) ∧
    (markersAround [] items).map Prod.fst = line ∧
    ∀ x c y, line = x ++ c :: y → ∃ opened, (markersAround [] items)[x.length]? = some (c, opened) ∧
      Span.categoriesAt spans (byteSize x) = opened.head?.toList ∧
      ∀ base, styleAt spans base (byteSize x) = (opened.head?.map (·.style.withBg base.bg)).getD base
  inOrder : InOrder line 0 (byteSize line) (spans.map Span.range)
  covers : ∀ byte, (∃ span ∈ spans, span.contains byte = true) ↔
    ∃ token ∈ tokens, token.start ≤ byte ∧ byte < token.stop

/-! ## The tokens around a byte -/

mutual

/-- The categories of a token and of the tokens inside it that are around a byte, innermost first. -/
def Token.around (byte : Nat) : Token → List Category
  | ⟨category, start, stop, children⟩ =>
    if start ≤ byte ∧ byte < stop then Token.aroundAll byte children ++ [category] else []

/-- The categories of the tokens, at every depth, that are around a byte, innermost first. -/
def Token.aroundAll (byte : Nat) : List Token → List Category
  | [] => []
  | token :: rest => token.around byte ++ Token.aroundAll byte rest

end

variable {pos start stop byte : Nat} {text a m b : List Char} {children rest tokens : List Token}

theorem Laid.aroundAll_eq_nil (h : Laid pos text tokens) (hbyte : ¬ (pos ≤ byte ∧ byte < pos + byteSize text)) :
    Token.aroundAll byte tokens = [] := by
  induction h with
  | text => rfl
  | token category hstart hstop _ _ _ ih =>
    simp only [byteSize_append] at hbyte
    rw [Token.aroundAll, Token.around, if_neg (by omega), ih (by omega), List.append_nil]

theorem aroundAll_token_before (category : Category) (children : List Token) (hout : Laid stop b rest)
    (h : byte < start) (hstop : start ≤ stop) :
    Token.aroundAll byte (⟨category, start, stop, children⟩ :: rest) = [] := by
  rw [Token.aroundAll, Token.around, if_neg (by omega), hout.aroundAll_eq_nil (by omega), List.append_nil]

theorem aroundAll_token_inside (category : Category) (children : List Token) (hout : Laid stop b rest)
    (h : start ≤ byte) (h' : byte < stop) : Token.aroundAll byte (⟨category, start, stop, children⟩ :: rest) =
      Token.aroundAll byte children ++ [category] := by
  rw [Token.aroundAll, Token.around, if_pos ⟨h, h'⟩, hout.aroundAll_eq_nil (by omega), List.append_nil]

theorem aroundAll_token_behind (category : Category) (start : Nat) (children rest : List Token) (h : stop ≤ byte) :
    Token.aroundAll byte (⟨category, start, stop, children⟩ :: rest) = Token.aroundAll byte rest := by
  rw [Token.aroundAll, Token.around, if_neg (by omega), List.nil_append]

theorem aroundAll_ne_nil_iff {byte : Nat} : ∀ {tokens : List Token}, Token.aroundAll byte tokens ≠ [] ↔
    ∃ token ∈ tokens, token.start ≤ byte ∧ byte < token.stop
  | [] => by simp [Token.aroundAll]
  | ⟨category, start, stop, children⟩ :: rest => by
    have hfirst : Token.around byte ⟨category, start, stop, children⟩ ≠ [] ↔ start ≤ byte ∧ byte < stop := by
      rw [Token.around]
      split <;> simp [*]
    rw [Token.aroundAll, ne_eq, List.append_eq_nil_iff, not_and_or, ← ne_eq (Token.around _ _), hfirst,
      ← ne_eq (Token.aroundAll _ _), aroundAll_ne_nil_iff]
    simp only [List.mem_cons, exists_eq_or_imp, Token.start, Token.stop]

theorem head?_append_singleton (xs : List Category) (category : Category) :
    (xs ++ [category]).head? = some (xs.head?.getD category) := by
  cases xs <;> rfl

/-! ## Spans -/

theorem categoriesAt_append (xs ys : List Span) (byte : Nat) :
    Span.categoriesAt (xs ++ ys) byte = Span.categoriesAt xs byte ++ Span.categoriesAt ys byte := by
  rw [Span.categoriesAt, List.filter_append, List.map_append]
  rfl

theorem categoriesAt_ofRange (start stop : Nat) (category : Category) (byte : Nat) :
    Span.categoriesAt (Span.ofRange start stop category) byte =
      if start ≤ byte ∧ byte < stop then [category] else [] := by
  unfold Span.ofRange Span.categoriesAt
  by_cases hin : start ≤ byte ∧ byte < stop
  · rw [if_pos (by omega), if_pos hin, List.filter_cons_of_pos (by simpa [Span.contains] using hin)]
    rfl
  · rw [if_neg hin]
    split
    · rw [List.filter_cons_of_neg (by simpa [Span.contains] using hin)]
      rfl
    · rfl

/-- **Inside a token the innermost of the tokens around a byte gives the span there its category.** -/
theorem Laid.categoriesAt_spansInside (h : Laid pos text tokens) (byte : Nat) : ∀ category,
    Span.categoriesAt (Token.spansInside category pos (pos + byteSize text) tokens) byte =
      if pos ≤ byte ∧ byte < pos + byteSize text then [(Token.aroundAll byte tokens).head?.getD category] else [] := by
  induction h with
  | text pos t => exact fun category => categoriesAt_ofRange pos _ category byte
  | @token pos start stop a m b children rest category hstart hstop _ hout ihin ihout =>
    intro outer
    have hend : pos + byteSize (a ++ (m ++ b)) = stop + byteSize b := by
      simp only [byteSize_append]
      omega
    rw [hend, Token.spansInside, Token.spans, categoriesAt_append, categoriesAt_append, Token.start, Token.stop,
      categoriesAt_ofRange, ihout outer]
    rw [← hstop] at ihin
    rw [ihin category]
    -- the byte is before the token, inside it or behind it, and only one of the three parts has a span there
    by_cases hbefore : byte < start
    · rw [aroundAll_token_before category children hout hbefore (by omega)]
      by_cases hin : pos ≤ byte
      · rw [if_pos (by omega), if_neg (by omega), if_neg (by omega), if_pos (by omega)]
        rfl
      · rw [if_neg (by omega), if_neg (by omega), if_neg (by omega), if_neg (by omega)]
        rfl
    · by_cases hinside : byte < stop
      · rw [aroundAll_token_inside category children hout (by omega) hinside, head?_append_singleton, if_neg (by omega),
          if_pos (by omega), if_neg (by omega), if_pos (by omega)]
        rfl
      · rw [aroundAll_token_behind category start children rest (by omega), if_neg (by omega), if_neg (by omega),
          List.nil_append, List.nil_append]
        by_cases hin : byte < stop + byteSize b
        · rw [if_pos (by omega), if_pos (by omega)]
        · rw [if_neg (by omega), if_neg (by omega)]

/-- **The innermost of the tokens around a byte gives the span there its category**, and without a token around it there
is no span. -/
theorem Laid.categoriesAt_flatten (h : Laid pos text tokens) (byte : Nat) :
    Span.categoriesAt (Token.flatten tokens) byte = (Token.aroundAll byte tokens).head?.toList := by
  induction h with
  | text => rfl
  | @token pos start stop a m b children rest category hstart hstop hin hout _ ih =>
    have hspans := hin.categoriesAt_spansInside byte category
    rw [← hstop] at hspans
    rw [Token.flatten, List.flatMap_cons, categoriesAt_append, Token.spans, hspans]
    show _ ++ Span.categoriesAt (Token.flatten rest) byte = _
    rw [ih]
    by_cases hbefore : byte < start
    · rw [aroundAll_token_before category children hout hbefore (by omega), if_neg (by omega),
        hout.aroundAll_eq_nil (by omega)]
      rfl
    · by_cases hinside : byte < stop
      · rw [aroundAll_token_inside category children hout (by omega) hinside, head?_append_singleton, if_pos (by omega),
          hout.aroundAll_eq_nil (by omega)]
        rfl
      · rw [aroundAll_token_behind category start children rest (by omega), if_neg (by omega), List.nil_append]

theorem categoriesAt_eq_nil_iff {spans : List Span} {byte : Nat} :
    Span.categoriesAt spans byte = [] ↔ ∀ span ∈ spans, span.contains byte = false := by
  rw [Span.categoriesAt, List.map_eq_nil_iff, List.filter_eq_nil_iff]
  simp only [Bool.not_eq_true]

theorem Laid.covers (h : Laid pos text tokens) (byte : Nat) :
    (∃ span ∈ Token.flatten tokens, span.contains byte = true) ↔
      ∃ token ∈ tokens, token.start ≤ byte ∧ byte < token.stop := by
  have hnone : Span.categoriesAt (Token.flatten tokens) byte = [] ↔ Token.aroundAll byte tokens = [] := by
    rw [h.categoriesAt_flatten]
    cases Token.aroundAll byte tokens <;> simp
  rw [← aroundAll_ne_nil_iff, ne_eq, ← hnone, categoriesAt_eq_nil_iff]
  simp only [not_forall, Bool.not_eq_false, exists_prop]

/-- A byte is drawn in the style of the one category that a span gives it, or in the base style. -/
theorem styleAt_of_categoriesAt {line : List Char} {spans : List Span} {low high : Nat} {category : Option Category}
    (hspans : InOrder line low high (spans.map Span.range)) (h : Span.categoriesAt spans byte = category.toList)
    (base : Style) : styleAt spans base byte = (category.map (·.style.withBg base.bg)).getD base := by
  cases category with
  | none => exact styleAt_of_not_contains (categoriesAt_eq_nil_iff.1 h)
  | some k =>
    have hk : k ∈ Span.categoriesAt spans byte := by
      rw [h]
      exact List.mem_cons_self
    obtain ⟨span, hspan, rfl⟩ := List.mem_map.1 hk
    obtain ⟨hmem, hcontains⟩ := List.mem_filter.1 hspan
    exact styleAt_of_contains hspans span hmem hcontains

/-! ## Markers -/

/-- The characters of a text behind `pos` bytes, each with what is said of its first byte. -/
def atFirstBytes (f : Nat → List Category) : Nat → List Char → List (Char × List Category)
  | _, [] => []
  | pos, c :: rest => (c, f pos) :: atFirstBytes f (pos + c.utf8Size) rest

section

variable (f g : Nat → List Category)

theorem atFirstBytes_append : ∀ (pos : Nat) (x y : List Char),
    atFirstBytes f pos (x ++ y) = atFirstBytes f pos x ++ atFirstBytes f (pos + byteSize x) y
  | _, [], _ => rfl
  | pos, c :: x, y => by
    rw [List.cons_append, atFirstBytes, atFirstBytes_append (pos + c.utf8Size) x y, atFirstBytes, byteSize_cons,
      Nat.add_assoc]
    rfl

theorem atFirstBytes_congr : ∀ {pos : Nat} {t : List Char},
    (∀ byte, pos ≤ byte → byte < pos + byteSize t → f byte = g byte) → atFirstBytes f pos t = atFirstBytes g pos t
  | _, [], _ => rfl
  | pos, c :: t, h => by
    have hc := c.utf8Size_pos
    rw [byteSize_cons] at h
    rw [atFirstBytes, atFirstBytes, h pos (Nat.le_refl _) (by omega), atFirstBytes_congr fun byte h1 h2 =>
      h byte (by omega) (by omega)]

theorem map_fst_atFirstBytes : ∀ (pos : Nat) (t : List Char), (atFirstBytes f pos t).map Prod.fst = t
  | _, [] => rfl
  | pos, c :: t => by rw [atFirstBytes, List.map_cons, map_fst_atFirstBytes (pos + c.utf8Size) t]

theorem getElem?_atFirstBytes (pos : Nat) (x : List Char) (c : Char) (y : List Char) :
    (atFirstBytes f pos (x ++ c :: y))[x.length]? = some (c, f (pos + byteSize x)) := by
  have hlen : x.length = (atFirstBytes f pos x).length := by
    rw [← List.length_map Prod.fst, map_fst_atFirstBytes]
  rw [atFirstBytes_append, hlen, List.getElem?_append_right (Nat.le_refl _), Nat.sub_self]
  rfl

end

theorem markersAround_chars (opened : List Category) (rest : List MarkupItem) : ∀ (pos : Nat) (t : List Char),
    markersAround opened (t.map .char ++ rest) =
      atFirstBytes (fun _ => opened) pos t ++ markersAround opened rest
  | _, [] => rfl
  | pos, c :: t => congrArg ((c, opened) :: ·) (markersAround_chars opened rest (pos + c.utf8Size) t)

theorem flatMap_writeAs_chars (escape : Bool) (t : List Char) :
    (t.map MarkupItem.char).flatMap (MarkupItem.writeAs escape) = markupText escape t := by
  rw [List.flatMap_map]
  cases escape with
  | false => exact List.flatMap_singleton' t
  | true =>
    exact List.flatMap_congr fun c _ => List.append_nil _

/-- **Items that show the tokens of a text**: they are what is written for it, with escapes or without, and the markers
around every character are the tokens around it, and around these the markers that are open before. -/
structure ShowsAround (pos : Nat) (text : List Char) (tokens : List Token) (items : List MarkupItem) : Prop where
  written : ∀ escape, Token.renderInside escape pos text tokens = items.flatMap (MarkupItem.writeAs escape)
  around : ∀ opened rest, markersAround opened (items ++ rest) =
    atFirstBytes (fun byte => Token.aroundAll byte tokens ++ opened) pos text ++ markersAround opened rest

theorem ShowsAround.token {inner outer : List MarkupItem} (category : Category) (hstart : start = pos + byteSize a)
    (hstop : stop = start + byteSize m) (hlaid : Laid stop b rest) (hin : ShowsAround start m children inner)
    (hout : ShowsAround stop b rest outer) :
    ShowsAround pos (a ++ (m ++ b)) (⟨category, start, stop, children⟩ :: rest)
      (a.map .char ++ .opening category :: (inner ++ .closing :: outer)) where
  written := by
    intro escape
    rw [Token.renderInside_token escape b category children rest hstart hstop, hin.written, hout.written, wrap,
      List.flatMap_append, flatMap_writeAs_chars, List.flatMap_cons, List.flatMap_append, List.flatMap_cons]
    simp only [MarkupItem.writeAs, MarkupItem.write, List.append_assoc]
  around := by
    intro opened more
    have hbefore : atFirstBytes (fun byte => Token.aroundAll byte (⟨category, start, stop, children⟩ :: rest) ++ opened)
        pos a = atFirstBytes (fun _ => opened) pos a := by
      refine atFirstBytes_congr _ _ fun byte _ h => ?_
      rw [aroundAll_token_before category children hlaid (by omega) (by omega), List.nil_append]
    have hinside : atFirstBytes (fun byte => Token.aroundAll byte (⟨category, start, stop, children⟩ :: rest) ++ opened)
        start m = atFirstBytes (fun byte => Token.aroundAll byte children ++ category :: opened) start m := by
      refine atFirstBytes_congr _ _ fun byte h1 h2 => ?_
      rw [aroundAll_token_inside category children hlaid h1 (by omega), List.append_assoc]
      rfl
    have hbehind : atFirstBytes (fun byte => Token.aroundAll byte (⟨category, start, stop, children⟩ :: rest) ++ opened)
        stop b = atFirstBytes (fun byte => Token.aroundAll byte rest ++ opened) stop b := by
      refine atFirstBytes_congr _ _ fun byte h _ => ?_
      rw [aroundAll_token_behind category start children rest h]
    rw [atFirstBytes_append, atFirstBytes_append, ← hstart, ← hstop, hbefore, hinside, hbehind, List.append_assoc,
      markersAround_chars opened _ pos, List.cons_append, markersAround, List.append_assoc, hin.around]
    rw [List.cons_append, markersAround, List.tail_cons, hout.around]
    simp only [List.append_assoc]

theorem Laid.showsAround (h : Laid pos text tokens) : ∃ items, ShowsAround pos text tokens items := by
  induction h with
  | text pos t =>
    exact ⟨t.map .char, fun escape => (flatMap_writeAs_chars escape t).symm,
      fun opened rest => markersAround_chars opened rest pos t⟩
  | token category hstart hstop _ hlaid ihin ihout =>
    obtain ⟨inner, hin⟩ := ihin
    obtain ⟨outer, hout⟩ := ihout
    exact ⟨_, hin.token category hstart hstop hlaid hout⟩

/-! ## Both -/

theorem WellPlaced.colouredAlike {line : List Char} {tokens : List Token} (h : WellPlaced line tokens) :
    ColouredAlike line tokens (Token.flatten tokens) (fun escape => renderLine escape line tokens) where
  alike := by
    obtain ⟨items, hshows⟩ := h.laid.showsAround
    obtain ⟨items', hread, hbalanced⟩ := h.decodes.balanced
    have hwritten : renderLine true line tokens = items.flatMap MarkupItem.write := by
      rw [renderLine, hshows.written]
      refine List.flatMap_congr fun item _ => ?_
      cases item with
      | char c => exact List.append_nil _
      | opening | closing => rfl
    have hitems : readItems (renderLine true line tokens) = some items := by rw [hwritten, readItems_write]
    obtain rfl : items' = items := Option.some.inj (hread.symm.trans hitems)
    have haround := hshows.around [] []
    rw [List.append_nil, markersAround, List.append_nil] at haround
    refine ⟨items', hitems, hbalanced, hshows.written, ?_, ?_⟩
    · rw [haround, map_fst_atFirstBytes]
    · rintro x c y rfl
      refine ⟨Token.aroundAll (byteSize x) tokens, ?_, ?_⟩
      · rw [haround, getElem?_atFirstBytes, Nat.zero_add, List.append_nil]
      · have hcategory := h.laid.categoriesAt_flatten (byteSize x)
        exact ⟨hcategory, styleAt_of_categoriesAt (Token.inOrder_flatten h) hcategory⟩
  inOrder := Token.inOrder_flatten h
  covers := h.laid.covers

/-- **The terminal and the page colour every character alike.**  The spans that a line is drawn with are those of the
innermost markers in its markup, with escapes and without, and so are the spans of any tokens in their place on a line,
at whatever depth. -/
theorem spans_of_innermost_markers [Engine] :
    (∀ line : List Char, ColouredAlike line (tokenize line) (spansOf line)
      fun escape => (Highlighter.mk .tokenized escape).highlightLine line) ∧
    (∀ (line : List Char) (tokens : List Token), WellPlaced line tokens →
      ColouredAlike line tokens (Token.flatten tokens) fun escape => renderLine escape line tokens) :=
  ⟨fun line => (wellPlaced_tokenize line).colouredAlike, fun _ _ h => h.colouredAlike⟩

/-- Tokens three deep that touch each other and the ends of the tokens around them, one of them empty. -/
theorem spans_of_innermost_markers_nested :
    WellPlaced "é</a>".toList [⟨.tag, 0, 5, [⟨.quoted, 0, 3, [⟨.number, 2, 2, []⟩]⟩, ⟨.keyword, 3, 5, []⟩]⟩] ∧
    ColouredAlike "é</a>".toList [⟨.tag, 0, 5, [⟨.quoted, 0, 3, [⟨.number, 2, 2, []⟩]⟩, ⟨.keyword, 3, 5, []⟩]⟩]
      (Token.flatten [⟨.tag, 0, 5, [⟨.quoted, 0, 3, [⟨.number, 2, 2, []⟩]⟩, ⟨.keyword, 3, 5, []⟩]⟩])
      (fun escape => renderLine escape "é</a>".toList
        [⟨.tag, 0, 5, [⟨.quoted, 0, 3, [⟨.number, 2, 2, []⟩]⟩, ⟨.keyword, 3, 5, []⟩]⟩]) := by
  have hplaced : WellPlaced "é</a>".toList
      [⟨.tag, 0, 5, [⟨.quoted, 0, 3, [⟨.number, 2, 2, []⟩]⟩, ⟨.keyword, 3, 5, []⟩]⟩] := by
    simp only [WellPlaced, Token.AllWithin, Token.Within, Token.stop, IsCut]
    decide
  exact ⟨hplaced, (@spans_of_innermost_markers Engine.backtracking).2 _ _ hplaced⟩

end JsxView
