import JsxView.Cells
import JsxView.Highlighter
import JsxView.Proofs.TokenTree
/-!
# TokenOrder — tokens, spans and slices in order

Ranges of bytes are in order when none is empty, each ends before the next one begins, and all of them begin and end
between two characters (`InOrder`).  What a scan takes is in order, because no match is empty and the next one is
looked for behind its end (`LeftmostScan.inOrder`).  So the tokens of a line are in order, and so are the tokens inside
a tag, on its range.  Then every slice that a rendering cuts out of the line exists (`Laid.slicedInside?_eq`), and a
drawing that goes through the spans once finds for every byte the span that covers it (`styleAt_of_contains`).
-/
namespace JsxView

instance (t : List Char) (n : Nat) : Decidable (IsCut t n) :=
  inferInstanceAs (Decidable (_ = _))

/-- **Ranges of bytes in order**, from `low` to `high` on a line. -/
structure InOrder (line : List Char) (low high : Nat) (ranges : List (Nat × Nat)) : Prop where
  sorted : ranges.Pairwise fun a b => a.2 ≤ b.1
  inside : ∀ r ∈ ranges, low ≤ r.1 ∧ r.1 < r.2 ∧ r.2 ≤ high
  cuts : ∀ r ∈ ranges, IsCut line r.1 ∧ IsCut line r.2

def Token.range (token : Token) : Nat × Nat :=
  (token.start, token.stop)

def Span.range (span : Span) : Nat × Nat :=
  (span.start, span.stop)

def Found.range (f : Found) : Nat × Nat :=
  (f.start, f.stop)

namespace InOrder

variable {line : List Char} {low mid high : Nat}

theorem nil : InOrder line low high [] :=
  ⟨List.Pairwise.nil, by simp, by simp⟩

theorem append {xs ys : List (Nat × Nat)} (hx : InOrder line low mid xs) (hy : InOrder line mid high ys)
    (hlow : low ≤ mid) (hhigh : mid ≤ high) : InOrder line low high (xs ++ ys) where
  sorted := by
    refine List.pairwise_append.2 ⟨hx.sorted, hy.sorted, fun a ha b hb => ?_⟩
    have := (hx.inside a ha).2.2
    have := (hy.inside b hb).1
    omega
  inside := by
    intro r hr
    rcases List.mem_append.1 hr with h | h
    · obtain ⟨h1, h2, h3⟩ := hx.inside r h
      exact ⟨h1, h2, Nat.le_trans h3 hhigh⟩
    · obtain ⟨h1, h2, h3⟩ := hy.inside r h
      exact ⟨Nat.le_trans hlow h1, h2, h3⟩
  cuts := by
    intro r hr
    rcases List.mem_append.1 hr with h | h
    · exact hx.cuts r h
    · exact hy.cuts r h

theorem single {a b : Nat} (hab : a < b) (ha : IsCut line a) (hb : IsCut line b) : InOrder line a b [(a, b)] := by
  refine ⟨List.pairwise_singleton _ _, fun r hr => ?_, fun r hr => ?_⟩
  · rw [List.mem_singleton.1 hr]
    exact ⟨Nat.le_refl a, hab, Nat.le_refl b⟩
  · rw [List.mem_singleton.1 hr]
    exact ⟨ha, hb⟩

/-- A wider range around the same ranges. -/
theorem widen {low' : Nat} {xs : List (Nat × Nat)} (h : InOrder line low high xs) (hle : low' ≤ low) :
    InOrder line low' high xs :=
  ⟨h.sorted, fun r hr => ⟨Nat.le_trans hle (h.inside r hr).1, (h.inside r hr).2⟩, h.cuts⟩

end InOrder

/-! ## What a scan takes -/

/-- A match that was looked for has characters, and so it has bytes. -/
theorem Nearest.start_lt_stop {rules : List Rule} {limit : Nat} {p : Place} {f : Found}
    (h : Nearest (firstWithin rules limit) p (some f)) : f.start < f.stop := by
  obtain ⟨k, hk, hsite, -⟩ := h.next_eq_skip (onSite_firstWithin _ _)
  obtain ⟨_, _, hf, _⟩ := h
  have hlen : 0 < f.site.after.length := by
    rw [hsite, Place.length_after_skip]
    omega
  exact (Found.within_of_lt (length_pos_of_firstWithin hf) hlen).2

/-- **What the plain procedure takes is in order.** -/
theorem LeftmostScan.inOrder [Engine] {line : List Char} {rules : List Rule} {limit : Nat} {p : Place}
    {found : List Found}
    (h : LeftmostScan limit rules p found) (hp : p.On line) (hlimit : p.offset ≤ limit) :
    InOrder line p.offset limit (found.map Found.range) := by
  induction h with
  | done => exact InOrder.nil
  | @take rules p f rest hnear _ ih =>
    have hlow := hnear.offset_le (onSite_firstWithin _ _)
    have hlt := hnear.start_lt_stop
    obtain ⟨k, _, hf, _⟩ := hnear
    obtain ⟨_, _, _, hhigh⟩ := firstWithin_eq_some hf
    have hsite : f.site.On line := by
      rw [onSite_firstWithin _ _ _ _ hf]
      exact hp.skip k
    have hnext : f.next.On line := hsite.skip f.length
    have hstop := hnext.isCut
    rw [Found.offset_next] at hstop ih
    have hhead : InOrder line f.start f.stop [f.range] := InOrder.single hlt hsite.isCut hstop
    exact (hhead.append (ih hnext hhigh) (Nat.le_of_lt hlt) hhigh).widen hlow

theorem LeftmostScan.category_mem [Engine] {rules : List Rule} {limit : Nat} {p : Place} {found : List Found}
    (h : LeftmostScan limit rules p found) : ∀ f ∈ found, ∃ rule ∈ rules, f.category = rule.category := by
  induction h with
  | done => exact fun _ hf => by cases hf
  | take hnear _ ih =>
    intro f hf
    rcases List.mem_cons.1 hf with rfl | hf
    · obtain ⟨_, _, hfirst, _⟩ := hnear
      obtain ⟨rule, hrule, hfound, -⟩ := firstWithin_eq_some hfirst
      exact ⟨rule, (mem_lasting.1 hrule).1, (Rule.foundAt_eq_some hfound).2.2⟩
    · obtain ⟨rule, hrule, hcategory⟩ := ih f hf
      exact ⟨rule, (mem_lasting.1 hrule).1, hcategory⟩

theorem Rule.category_of_mem_nested {rule : Rule} (h : rule ∈ Rule.nested) :
    rule.category = .quoted ∨ rule.category = .attribute := by
  simpa using (List.mem_filter.1 h).2

/-! ## The tokens of a line -/

/-- **Tokens of a line in order at both levels**: the tokens on the line, and inside each of them, if it is a tag,
literals and names of attributes that have nothing inside. -/
structure WellFormed (line : List Char) (tokens : List Token) : Prop where
  top : InOrder line 0 (byteSize line) (tokens.map Token.range)
  tags : ∀ t ∈ tokens, t.children ≠ [] → t.category = .tag
  inside : ∀ t ∈ tokens, InOrder line t.start t.stop (t.children.map Token.range)
  leaves : ∀ t ∈ tokens, ∀ c ∈ t.children, (c.category = .quoted ∨ c.category = .attribute) ∧ c.children = []

theorem Token.range_ofFound [Engine] (f : Found) : (Token.ofFound f).range = f.range := by
  unfold Token.ofFound
  split <;> rfl

theorem LeftmostScan.on_site [Engine] {line : List Char} {rules : List Rule} {limit : Nat} {p : Place}
    {found : List Found}
    (h : LeftmostScan limit rules p found) (hp : p.On line) : ∀ f ∈ found, f.site.On line ∧ f.start ≤ f.stop := by
  induction h with
  | done => exact fun _ hf => by cases hf
  | @take rules p f rest hnear _ ih =>
    obtain ⟨k, _, hsite, hnext⟩ := hnear.next_eq_skip (onSite_firstWithin _ _)
    intro g hg
    rcases List.mem_cons.1 hg with rfl | hg
    · rw [hsite]
      exact ⟨hp.skip k, Nat.le_add_right _ _⟩
    · rw [hnext] at ih
      exact ih (hp.skip _) g hg

theorem wellFormed_tokenize [Engine] (line : List Char) : WellFormed line (tokenize line) := by
  have hscan := leftmostScan_scan Rule.wellMade_of_mem_scanner (byteSize line) (Place.start line)
  have hon := hscan.on_site (Place.on_start line)
  have hmem : ∀ t ∈ tokenize line, ∃ f : Found, t = Token.ofFound f ∧ f.site.On line ∧ f.start ≤ f.stop := by
    intro t ht
    obtain ⟨f, hf, rfl⟩ := List.mem_map.1 ht
    exact ⟨f, rfl, hon f hf⟩
  constructor
  · have hranges : (tokenize line).map Token.range =
        (scan Rule.scanner (byteSize line) (Place.start line)).map Found.range := by
      rw [tokenize, List.map_map]
      exact List.map_congr_left fun f _ => Token.range_ofFound f
    rw [hranges]
    exact hscan.inOrder (Place.on_start line) (Nat.zero_le _)
  · intro t ht hchildren
    obtain ⟨f, rfl, -, -⟩ := hmem t ht
    unfold Token.ofFound at hchildren ⊢
    split
    · assumption
    · rename_i htag
      rw [if_neg htag] at hchildren
      exact absurd rfl hchildren
  · intro t ht
    obtain ⟨f, rfl, hsite, hle⟩ := hmem t ht
    unfold Token.ofFound
    split
    · have hinside := (leftmostScan_scan Rule.wellMade_of_mem_nested f.stop f.site).inOrder hsite hle
      show InOrder line f.start f.stop (((scan Rule.nested f.stop f.site).map Token.leaf).map Token.range)
      rw [List.map_map]
      exact hinside
    · exact InOrder.nil
  · intro t ht c hc
    obtain ⟨f, rfl, -, -⟩ := hmem t ht
    unfold Token.ofFound at hc
    split at hc
    · obtain ⟨g, hg, rfl⟩ := List.mem_map.1 hc
      obtain ⟨rule, hrule, hcategory⟩ := (leftmostScan_scan Rule.wellMade_of_mem_nested f.stop f.site).category_mem g hg
      have hleaf : (Token.leaf g).category = rule.category := hcategory
      exact ⟨hleaf ▸ Rule.category_of_mem_nested hrule, rfl⟩
    · cases hc

/-! ## Slices -/

/-- **The text between two bytes of a line**, none where the slice is out of order, out of bounds or begins or ends
inside a character. -/
def slice? (line : List Char) (low high : Nat) : Option (List Char) :=
  if low ≤ high ∧ IsCut line low ∧ IsCut line high then some (takeBytes (high - low) (dropBytes low line)) else none

theorem slice?_append (x t y : List Char) :
    slice? (x ++ (t ++ y)) (byteSize x) (byteSize x + byteSize t) = some t := by
  have hcut : IsCut (x ++ (t ++ y)) (byteSize x + byteSize t) := by
    have := isCut_append (x ++ t) y
    rwa [List.append_assoc, byteSize_append] at this
  rw [slice?, if_pos ⟨Nat.le_add_right _ _, isCut_append x _, hcut⟩, dropBytes_byteSize, Nat.add_sub_cancel_left,
    takeBytes_byteSize]

theorem slice?_of_inOrder {line : List Char} {low high : Nat} {ranges : List (Nat × Nat)}
    (h : InOrder line low high ranges) : ∀ r ∈ ranges, (slice? line r.1 r.2).isSome := by
  intro r hr
  rw [slice?, if_pos ⟨Nat.le_of_lt (h.inside r hr).2.1, h.cuts r hr⟩]
  rfl

mutual

/-- A token in its marker, with every slice cut out of the whole line. -/
def Token.sliced? (escape : Bool) (line : List Char) : Token → Option (List Char)
  | ⟨category, start, stop, children⟩ => (Token.slicedInside? escape line start stop children).map (wrap category)

/-- The range of a line from `pos` to `stop` with its tokens in markers, with every slice cut out of the whole line. -/
def Token.slicedInside? (escape : Bool) (line : List Char) (pos stop : Nat) : List Token → Option (List Char)
  | [] => (slice? line pos stop).map (markupText escape)
  | token :: rest =>
    match slice? line pos token.start, token.sliced? escape line,
      Token.slicedInside? escape line token.stop stop rest with
    | some text, some inner, some more => some (markupText escape text ++ inner ++ more)
    | _, _, _ => none

end

/-- A line with its tokens in markers, none if a slice that it takes does not exist. -/
def renderSliced? (escape : Bool) (line : List Char) (tokens : List Token) : Option (List Char) :=
  Token.slicedInside? escape line 0 (byteSize line) tokens

/-- **Every slice of a text that is taken apart along its tokens exists**, and the slices together are the rendering. -/
theorem Laid.slicedInside?_eq (escape : Bool) {pos : Nat} {text : List Char} {tokens : List Token}
    (h : Laid pos text tokens) : ∀ {x y line : List Char}, line = x ++ (text ++ y) → byteSize x = pos →
      Token.slicedInside? escape line pos (pos + byteSize text) tokens =
        some (Token.renderInside escape pos text tokens) := by
  induction h with
  | text pos t =>
    rintro x y _ rfl rfl
    rw [Token.slicedInside?, slice?_append]
    rfl
  | @token pos start stop a m b children rest category hstart hstop _ _ ihin ihout =>
    rintro x y line hline rfl
    have hleft : line = (x ++ a) ++ (m ++ (b ++ y)) := by rw [hline]; simp only [List.append_assoc]
    have hright : line = (x ++ (a ++ m)) ++ (b ++ y) := by rw [hline]; simp only [List.append_assoc]
    have hin := ihin hleft (by rw [byteSize_append, hstart])
    have hout := ihout hright (by simp only [byteSize_append]; omega)
    have hslice : slice? line (byteSize x) start = some a := by
      rw [hline, hstart, List.append_assoc]
      exact slice?_append x a _
    have hend : byteSize x + byteSize (a ++ (m ++ b)) = stop + byteSize b := by
      simp only [byteSize_append]
      omega
    rw [← hstop] at hin
    rw [Token.slicedInside?, hend, Token.renderInside_token escape b category children rest hstart hstop]
    simp only [Token.start, Token.stop, Token.sliced?, hslice, hin, hout, Option.map_some, List.append_assoc]

theorem WellPlaced.renderSliced?_eq {line : List Char} {tokens : List Token} (h : WellPlaced line tokens)
    (escape : Bool) : renderSliced? escape line tokens = some (renderLine escape line tokens) := by
  have hline : line = [] ++ (line ++ []) := by simp
  have := h.laid.slicedInside?_eq escape hline rfl
  rwa [Nat.zero_add] at this

/-! ## Spans -/

theorem inOrder_ofRange {line : List Char} {a b : Nat} (category : Category) (ha : IsCut line a) (hb : IsCut line b) :
    InOrder line a b ((Span.ofRange a b category).map Span.range) := by
  unfold Span.ofRange
  split
  · rename_i hab
    exact InOrder.single hab ha hb
  · exact InOrder.nil

mutual

theorem Token.inOrder_spans : ∀ (token : Token) {line : List Char} {low high : Nat}, token.Within line low high →
    InOrder line token.start token.stop (token.spans.map Span.range)
  | ⟨category, start, stop, children⟩, line, low, high, h => by
    obtain ⟨-, hle, -, hstart, hstop, hinside⟩ := h
    rw [Token.spans]
    exact Token.inOrder_spansInside category children hinside hle hstart hstop

theorem Token.inOrder_spansInside (category : Category) : ∀ (tokens : List Token) {line : List Char} {pos stop : Nat},
    Token.AllWithin line pos stop tokens → pos ≤ stop → IsCut line pos → IsCut line stop →
      InOrder line pos stop ((Token.spansInside category pos stop tokens).map Span.range)
  | [], line, pos, stop, _, _, hpos, hstop => by
    rw [Token.spansInside]
    exact inOrder_ofRange category hpos hstop
  | token :: rest, line, pos, stop, h, _, hpos, hstop => by
    obtain ⟨hfirst, hrest⟩ := h
    obtain ⟨h1, h2, h3, hcut, hcut', -⟩ := Token.within_iff.1 hfirst
    have hbefore := inOrder_ofRange category hpos hcut
    have htoken := Token.inOrder_spans token hfirst
    have hbehind := Token.inOrder_spansInside category rest hrest h3 hcut' hstop
    rw [Token.spansInside, List.map_append, List.map_append]
    exact (hbefore.append htoken h1 h2).append hbehind (Nat.le_trans h1 h2) h3

end

/-- **The spans of tokens in their place are in order.** -/
theorem Token.inOrder_flatten {line : List Char} : ∀ {tokens : List Token} {low high : Nat},
    Token.AllWithin line low high tokens → InOrder line low high ((Token.flatten tokens).map Span.range)
  | [], _, _, _ => InOrder.nil
  | token :: rest, low, high, h => by
    obtain ⟨hfirst, hrest⟩ := h
    obtain ⟨h1, h2, h3, -, -, -⟩ := Token.within_iff.1 hfirst
    have hhead := Token.inOrder_spans token hfirst
    have htail := Token.inOrder_flatten hrest
    rw [Token.flatten, List.flatMap_cons, List.map_append]
    exact (hhead.append htail h2 h3).widen h1

theorem styleAt_cons_of_le {span : Span} {byte : Nat} (h : span.stop ≤ byte) (rest : List Span) (base : Style) :
    styleAt (span :: rest) base byte = styleAt rest base byte := by
  unfold styleAt
  rw [List.dropWhile_cons_of_pos (by simpa using h)]

theorem styleAt_cons_of_lt {span : Span} {byte : Nat} (h : byte < span.stop) (rest : List Span) (base : Style) :
    styleAt (span :: rest) base byte =
      if span.contains byte then span.category.style.withBg base.bg else base := by
  unfold styleAt
  rw [List.dropWhile_cons_of_neg (by simpa using h)]
  rfl

/-- **Going through spans in order finds the span that covers a byte.** -/
theorem styleAt_of_contains {line : List Char} {low high : Nat} {base : Style} {byte : Nat} : ∀ {spans : List Span},
    InOrder line low high (spans.map Span.range) → ∀ span ∈ spans, span.contains byte = true →
      styleAt spans base byte = span.category.style.withBg base.bg
  | [], _, span, hspan, _ => by cases hspan
  | first :: rest, h, span, hspan, hcontains => by
    have hbyte : span.start ≤ byte ∧ byte < span.stop := by simpa [Span.contains] using hcontains
    obtain ⟨hbefore, hsorted⟩ := List.pairwise_cons.1 h.sorted
    rcases List.mem_cons.1 hspan with rfl | hmem
    · rw [styleAt_cons_of_lt hbyte.2, if_pos hcontains]
    · -- the spans before the one that covers the byte have ended there
      have hended : first.stop ≤ span.start := hbefore span.range (List.mem_map.2 ⟨span, hmem, rfl⟩)
      rw [styleAt_cons_of_le (Nat.le_trans hended hbyte.1)]
      exact styleAt_of_contains ⟨hsorted, fun r hr => h.inside r (List.mem_cons_of_mem _ hr),
        fun r hr => h.cuts r (List.mem_cons_of_mem _ hr)⟩ span hmem hcontains

theorem styleAt_of_not_contains {base : Style} {byte : Nat} : ∀ {spans : List Span},
    (∀ span ∈ spans, span.contains byte = false) → styleAt spans base byte = base
  | [], _ => rfl
  | first :: rest, h => by
    by_cases hended : first.stop ≤ byte
    · rw [styleAt_cons_of_le hended]
      exact styleAt_of_not_contains fun span hspan => h span (List.mem_cons_of_mem _ hspan)
    · rw [styleAt_cons_of_lt (Nat.lt_of_not_le hended), h first List.mem_cons_self]
      rfl

/-- **The tokens of every line are in order, and so nothing is cut amiss.**  At both levels they are sorted, disjoint
and not empty, they begin and end between two characters, of the line or of the tag around them, and only tags have
anything inside, which is literals and names of attributes with nothing inside.  Every slice that rendering the line
takes exists and gives the markup; the spans that the line is drawn with are in order too, every slice between the ends
of one exists, and every byte is drawn in the style of the span that covers it, or of none. -/
theorem tokens_well_formed [Engine] (line : List Char) :
    WellFormed line (tokenize line) ∧
    (∀ escape, renderSliced? escape line (tokenize line) = some (renderLine escape line (tokenize line))) ∧
    InOrder line 0 (byteSize line) ((spansOf line).map Span.range) ∧
    (∀ span ∈ spansOf line, (slice? line span.start span.stop).isSome) ∧
    ∀ (base : Style) (byte : Nat),
      (∀ span ∈ spansOf line, span.contains byte = true →
        styleAt (spansOf line) base byte = span.category.style.withBg base.bg) ∧
      ((∀ span ∈ spansOf line, span.contains byte = false) → styleAt (spansOf line) base byte = base) := by
  have hplaced := wellPlaced_tokenize line
  have hspans : InOrder line 0 (byteSize line) ((spansOf line).map Span.range) := Token.inOrder_flatten hplaced
  refine ⟨wellFormed_tokenize line, hplaced.renderSliced?_eq, hspans, fun span hspan => ?_, fun base byte => ?_⟩
  · exact slice?_of_inOrder hspans span.range (List.mem_map.2 ⟨span, hspan, rfl⟩)
  · exact ⟨styleAt_of_contains hspans, styleAt_of_not_contains⟩

end JsxView
