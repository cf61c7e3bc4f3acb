import JsxView.Highlighter
import JsxView.Proofs.Leftmost
import JsxView.Proofs.MarginSearch
import JsxView.Proofs.MarkupReader
import Mathlib.Data.List.Forall2
/-!
# MarginTokens — tokens move with the indentation

The nearest match that ends in a region is on a line with margins the same match further on, and so the procedure that a
scan stands for takes the same matches further on, as long as the same rules drop out of it (`LeftmostScan.margins`), on
the whole line and inside every tag.  The tokens are moved and otherwise the same (`tokenize_margins`), and a rendering,
which only counts from token to token, puts the margins around what it makes of the line (`renderLine_margins`).

Which rules drop out is a matter of the engine, and a search of the indented line may be given up that is not given up
on the line itself.  Then the two are highlighted differently (`margins_hide_late_word`).
-/
namespace JsxView

mutual

/-- A token a number of bytes further on, with the tokens inside it. -/
def Token.shift (n : Nat) : Token → Token
  | ⟨category, start, stop, children⟩ => ⟨category, n + start, n + stop, Token.shiftAll n children⟩

/-- Tokens a number of bytes further on. -/
def Token.shiftAll (n : Nat) : List Token → List Token
  | [] => []
  | token :: rest => token.shift n :: Token.shiftAll n rest

end

section

variable [Engine]

/-- **Scans that come out alike**, each of a region from a place on: where they begin, and behind each of their matches
in turn, a search of a rule is given up in both of them or in none. -/
def ScansAlike (rules : List Rule) (limit : Nat) (p : Place) (limit' : Nat) (q : Place) : Prop :=
  ∀ x ∈ (p :: (scan rules limit p).map Found.next).zip (q :: (scan rules limit' q).map Found.next),
    ∀ rule ∈ rules, rule.givenUp limit x.1 = rule.givenUp limit' x.2

/-- The same for the scans of two lines, and for those of their tags in turn. -/
def TokensAlike (line line' : List Char) : Prop :=
  ScansAlike Rule.scanner (byteSize line) (Place.start line) (byteSize line') (Place.start line') ∧
    ∀ x ∈ (scan Rule.scanner (byteSize line) (Place.start line)).zip
      (scan Rule.scanner (byteSize line') (Place.start line')), x.1.category = .tag →
        ScansAlike Rule.nested x.1.stop x.1.site x.2.stop x.2.site

/-- **Two lines on which the searches of a pipeline come out alike.** -/
def Highlighter.Alike (h : Highlighter) (line line' : List Char) : Prop :=
  match h.mode with
  | .tokenized => TokensAlike line line'
  | .chained => PassesAlike Rule.chained line line'

end

variable {n : Nat} {indent : List Char} {rules : List Rule} {p q : Place}

/-! ## Matches that end in a region -/

/-- **Limits that say the same** of the places of a line behind `p` and of those places `n` bytes further on. -/
def SameLimit (n : Nat) (p : Place) (limit limit' : Nat) : Prop :=
  ∀ k ≤ p.after.length, (p.skip k).offset ≤ limit ↔ n + (p.skip k).offset ≤ limit'

theorem SameLimit.skip {limit limit' m : Nat} (hlimit : SameLimit n p limit limit') (hm : m ≤ p.after.length) :
    SameLimit n (p.skip m) limit limit' := by
  intro k hk
  rw [Place.length_after_skip] at hk
  rw [← Place.skip_add]
  exact hlimit (m + k) (by omega)

theorem fitsAt_indented {rule : Rule} (hpattern : rule.pattern.IgnoresMargins) (hbound : rule.pattern.Bounded)
    {limit limit' : Nat} (hlimit : SameLimit n p limit limit') (h : p.Indented n q) :
    Option.Rel (Found.Indented n) (rule.fitsAt limit p) (rule.fitsAt limit' q) := by
  refine rel_filter (Rule.foundAt_indented hpattern hbound h) fun f hf g hfg => ?_
  obtain rfl := (Rule.foundAt_eq_some hf).1
  have hstop := hlimit f.length hfg.fits
  have hnext : (f.site.skip f.length).offset = f.stop := f.offset_next
  rw [hnext] at hstop
  rw [hfg.stop]
  exact decide_eq_decide.2 hstop

theorem firstWithin_indented {limit limit' : Nat} (hlimit : SameLimit n p limit limit') (h : p.Indented n q) :
    ∀ {rules : List Rule}, MarginFree rules →
      Option.Rel (Found.Indented n) (firstWithin rules limit p) (firstWithin rules limit' q)
  | [], _ => .none
  | rule :: rules, hrules => by
    obtain ⟨hpattern, hbound⟩ := hrules rule List.mem_cons_self
    have hrest := firstWithin_indented hlimit h fun r hr => hrules r (List.mem_cons_of_mem _ hr)
    rw [firstWithin_cons, firstWithin_cons]
    exact rel_or (fitsAt_indented hpattern hbound hlimit h) hrest

theorem firstWithin_eq_none (limit : Nat) (h : ∀ rule ∈ rules, rule.foundAt p = none) :
    firstWithin rules limit p = none := by
  refine List.findSome?_eq_none_iff.2 fun rule hrule => ?_
  rw [Rule.fitsAt, h rule hrule]
  rfl

/-- **What is nearest in a region is the same match further on** on a line with margins. -/
theorem Place.Margined.nearest_firstWithin (hrules : MarginFree rules) {limit limit' : Nat}
    (h : p.Margined n indent q) (hlimit : SameLimit n p limit limit') {r r' : Option Found}
    (hnear : Nearest (firstWithin rules limit) p r) (hnear' : Nearest (firstWithin rules limit') q r') :
    Option.Rel (Found.Indented n) r r' := by
  refine h.nearest (fun k hk => firstWithin_indented (hlimit.skip hk) (h.behind.skip hk) hrules) ?_ ?_ hnear hnear'
  · exact firstWithin_eq_none limit fun rule hrule => Rule.foundAt_end (hrules rule hrule).1
  · exact fun j hj => firstWithin_eq_none limit' fun rule hrule => Rule.foundAt_blank (hrules rule hrule).1 h hj

/-- Nothing on a line reaches over its end, and so neither the end of the line nor that of the line with margins refuses
a match. -/
theorem sameLimit_start (indent line : List Char) : SameLimit (byteSize indent) (Place.start line) (byteSize line)
    (byteSize (indent ++ line ++ ['\r'])) := by
  intro k hk
  have hle := Place.offset_skip_start_le line k
  simp only [byteSize_append]
  omega

theorem marginFree_nested : MarginFree Rule.nested :=
  fun rule hrule => marginFree_withTail .strict rule (List.mem_filter.1 hrule).1

/-! ## Moved tokens -/

theorem Token.shiftAll_eq_map (n : Nat) : ∀ tokens : List Token, Token.shiftAll n tokens = tokens.map (Token.shift n)
  | [] => rfl
  | token :: rest => by rw [Token.shiftAll, Token.shiftAll_eq_map n rest, List.map_cons]

theorem map_eq_shiftAll {tokenOf : Found → Token} {found found' : List Found}
    (h : List.Forall₂ (Found.Indented n) found found')
    (hof : ∀ x ∈ found.zip found', x.1.Indented n x.2 → tokenOf x.2 = (tokenOf x.1).shift n) :
    found'.map tokenOf = Token.shiftAll n (found.map tokenOf) := by
  induction h with
  | nil => rfl
  | @cons f g _ _ hfg _ ih =>
    rw [List.map_cons, List.map_cons, Token.shiftAll, hof (f, g) List.mem_cons_self hfg,
      ih fun x hx => hof x (List.mem_cons_of_mem _ hx)]

theorem Found.Indented.leaf {f g : Found} (h : f.Indented n g) : Token.leaf g = (Token.leaf f).shift n := by
  rw [Token.leaf, Token.leaf, h.category, h.start, h.stop]
  rfl

mutual

theorem Token.render_shift (escape : Bool) (n : Nat) : ∀ (token : Token) (text : List Char),
    (token.shift n).render escape text = token.render escape text
  | ⟨category, start, stop, children⟩, text => by
    rw [Token.shift, Token.render, Token.render, Token.renderInside_shift escape n children]

theorem Token.renderInside_shift (escape : Bool) (n : Nat) : ∀ (tokens : List Token) (pos : Nat) (text : List Char),
    Token.renderInside escape (n + pos) text (Token.shiftAll n tokens) = Token.renderInside escape pos text tokens
  | [], _, _ => rfl
  | ⟨category, start, stop, children⟩ :: rest, pos, text => by
    rw [Token.shiftAll, Token.renderInside, Token.renderInside, Token.render_shift escape n]
    show _ ++ _ ++ Token.renderInside escape (n + stop) _ _ = _
    rw [Token.renderInside_shift escape n rest]
    simp only [Token.shift, Token.start, Token.stop, Nat.add_sub_add_left]

end

/-- What stands before the first token is written as it is without the tokens. -/
theorem renderInside_indent (escape : Bool) (x text : List Char) (tokens : List Token) :
    Token.renderInside escape 0 (x ++ text) (Token.shiftAll (byteSize x) tokens) =
      markupText escape x ++ Token.renderInside escape 0 text tokens := by
  cases tokens with
  | nil => exact markupText_append escape x text
  | cons token rest =>
    obtain ⟨category, start, stop, children⟩ := token
    rw [Token.shiftAll, Token.renderInside, Token.renderInside, Token.render_shift]
    simp only [Token.shift, Token.start, Token.stop, Nat.sub_zero, takeBytes_byteSize_add, dropBytes_byteSize_add,
      Nat.add_sub_add_left, Token.renderInside_shift, markupText_append, List.append_assoc]

theorem markupText_of_space (escape : Bool) {s : List Char} (hs : ∀ c ∈ s, isScriptSpace c) :
    markupText escape s = s := by
  cases escape with
  | false => rfl
  | true =>
    have hplain : ∀ c ∈ s, escapeChar c = [c] := by
      intro c hc
      refine escapeChar_of_not_mem fun hmem => ?_
      have hspace := hs c hc
      rcases mem_escapedChars.1 hmem with rfl | rfl | rfl <;> exact absurd hspace (by decide)
    rw [markupText, if_pos rfl, escapeMarkup, List.flatMap_congr hplain]
    exact List.flatMap_singleton' s

/-! ## Scans -/

section

variable [Engine]

theorem lasting_congr {limit limit' : Nat} (h : ∀ rule ∈ rules, rule.givenUp limit p = rule.givenUp limit' q) :
    lasting limit' q rules = lasting limit p rules :=
  List.filter_congr fun rule hrule => by rw [h rule hrule]

/-- **The procedure takes the same matches further on**, if the same rules drop out of it. -/
theorem LeftmostScan.margins {limit limit' : Nat} {found found' : List Found} (hscan : LeftmostScan limit rules p found)
    (hscan' : LeftmostScan limit' rules q found') (hrules : MarginFree rules) (h : p.Margined n indent q)
    (hlimit : SameLimit n p limit limit')
    (halike : ∀ x ∈ (p :: found.map Found.next).zip (q :: found'.map Found.next), ∀ rule ∈ rules,
      rule.givenUp limit x.1 = rule.givenUp limit' x.2) : List.Forall₂ (Found.Indented n) found found' := by
  induction hscan generalizing q found' indent with
  | @done rules p hnear =>
    have hsame := lasting_congr (halike (p, q) List.mem_cons_self)
    have hfree : MarginFree (lasting limit p rules) := fun rule hrule => hrules rule (mem_lasting.1 hrule).1
    cases hscan' with
    | done => exact .nil
    | take hnear' _ => cases h.nearest_firstWithin hfree hlimit hnear (hsame ▸ hnear')
  | @take rules p f rest hnear _ ih =>
    have hsame := lasting_congr (halike (p, q) List.mem_cons_self)
    have hfree : MarginFree (lasting limit p rules) := fun rule hrule => hrules rule (mem_lasting.1 hrule).1
    cases hscan' with
    | done hnear' => cases h.nearest_firstWithin hfree hlimit hnear (hsame ▸ hnear')
    | take hnear' hrest' =>
      cases h.nearest_firstWithin hfree hlimit hnear (hsame ▸ hnear') with
      | some hfg =>
        obtain ⟨k, hk, hsite, hnext⟩ := hnear.next_eq_skip (onSite_firstWithin _ _)
        have hbehind : k + f.length ≤ p.after.length := by
          have := hfg.fits
          rw [hsite, Place.length_after_skip] at this
          omega
        exact .cons hfg (ih (hsame ▸ hrest') hfree hfg.next.margined (hnext ▸ hlimit.skip hbehind)
          fun x hx rule hrule => halike x (List.mem_cons_of_mem _ hx) rule (mem_lasting.1 hrule).1)

theorem scan_margins {limit limit' : Nat} (hmade : ∀ rule ∈ rules, rule.WellMade) (hrules : MarginFree rules)
    (h : p.Margined n indent q) (hlimit : SameLimit n p limit limit') (halike : ScansAlike rules limit p limit' q) :
    List.Forall₂ (Found.Indented n) (scan rules limit p) (scan rules limit' q) :=
  (leftmostScan_scan hmade limit p).margins (leftmostScan_scan hmade limit' q) hrules h hlimit halike

theorem Found.Indented.ofFound {f g : Found} (h : f.Indented n g)
    (halike : f.category = .tag → ScansAlike Rule.nested f.stop f.site g.stop g.site) :
    Token.ofFound g = (Token.ofFound f).shift n := by
  have hlimit : SameLimit n f.site f.stop g.stop := by
    intro k _
    rw [h.stop]
    omega
  unfold Token.ofFound
  rw [h.category]
  split
  · rename_i htag
    have hscan := scan_margins Rule.wellMade_of_mem_nested marginFree_nested h.site.margined hlimit (halike htag)
    rw [map_eq_shiftAll hscan fun _ _ hfg => hfg.leaf, h.start, h.stop]
    rfl
  · exact h.leaf

/-- **The tokens of a line with margins are those of the line**, as many bytes further on as the indentation has, if the
searches on the two lines come out alike. -/
theorem tokenize_margins (hindent : ∀ c ∈ indent, isScriptSpace c) {line : List Char}
    (halike : TokensAlike line (indent ++ line ++ ['\r'])) :
    tokenize (indent ++ line ++ ['\r']) = Token.shiftAll (byteSize indent) (tokenize line) :=
  map_eq_shiftAll (scan_margins Rule.wellMade_of_mem_scanner (marginFree_withTail .strict) (margined_start hindent line)
    (sameLimit_start indent line) halike.1) fun x hx h => h.ofFound (halike.2 x hx)

/-- **The rendering of a line with margins** is that of the line between them. -/
theorem renderLine_margins (escape : Bool) (hindent : ∀ c ∈ indent, isScriptSpace c) {line : List Char}
    (halike : TokensAlike line (indent ++ line ++ ['\r'])) :
    renderLine escape (indent ++ line ++ ['\r']) (tokenize (indent ++ line ++ ['\r'])) =
      indent ++ renderLine escape line (tokenize line) ++ ['\r'] := by
  have hreturn : ∀ c ∈ ['\r'], isScriptSpace c := List.forall_mem_singleton.2 (by decide)
  rw [tokenize_margins hindent halike, renderLine, List.append_assoc, renderInside_indent,
    (wellPlaced_tokenize line).laid.renderInside_append, markupText_of_space escape hindent,
    markupText_of_space escape hreturn, renderLine, List.append_assoc]

/-- **Margins change nothing.**  With white space before a line and a carriage return behind it, both pipelines, with
and without escapes, write what they write for the line, between the same white space and the return; the tokens are
those of the line, at both levels as many bytes further on as the white space has.  It takes an engine that gives up the
same searches on the two lines: those that begin a scan or a pass, and those behind each match that was taken. -/
theorem margins_change_nothing (h : Highlighter) (indent line : List Char) (hindent : ∀ c ∈ indent, isScriptSpace c) :
    (h.Alike line (indent ++ line ++ ['\r']) →
      h.highlightLine (indent ++ line ++ ['\r']) = indent ++ h.highlightLine line ++ ['\r']) ∧
    (TokensAlike line (indent ++ line ++ ['\r']) →
      tokenize (indent ++ line ++ ['\r']) = (tokenize line).map (Token.shift (byteSize indent))) := by
  refine ⟨fun halike => ?_, fun halike => ?_⟩
  · unfold Highlighter.Alike at halike
    unfold Highlighter.highlightLine
    cases hmode : h.mode with
    | tokenized => exact renderLine_margins h.escapes hindent (by rwa [hmode] at halike)
    | chained => exact highlightChained_margins hindent (by rwa [hmode] at halike)
  · rw [tokenize_margins hindent halike, Token.shiftAll_eq_map]

end

/-- A tag with an attribute behind a tab and an ideographic space, and a comment that the return ends. -/
theorem margins_change_nothing_tag :
    letI := Engine.backtracking
    let indent := "\t\u3000".toList
    let line := "<a b='1'> // 2".toList
    ((∀ c ∈ indent, isScriptSpace c) ∧ TokensAlike line (indent ++ line ++ ['\r']) ∧
      PassesAlike Rule.chained line (indent ++ line ++ ['\r'])) ∧
    (∀ escapes, (Highlighter.mk .tokenized escapes).highlightLine (indent ++ line ++ ['\r']) =
      indent ++ (Highlighter.mk .tokenized escapes).highlightLine line ++ ['\r']) ∧
    (Highlighter.mk .chained false).highlightLine (indent ++ line ++ ['\r']) =
      indent ++ (Highlighter.mk .chained false).highlightLine line ++ ['\r'] ∧
    tokenize (indent ++ line ++ ['\r']) = (tokenize line).map (Token.shift (byteSize indent)) := by
  let := Engine.backtracking
  intro indent line
  have hindent : ∀ c ∈ indent, isScriptSpace c := List.all_eq_true.1 (by decide)
  have hscans : ScansAlike Rule.scanner (byteSize line) (Place.start line) (byteSize (indent ++ line ++ ['\r']))
      (Place.start (indent ++ line ++ ['\r'])) := by
    unfold ScansAlike
    decide +kernel
  have htokens : TokensAlike line (indent ++ line ++ ['\r']) := by
    refine ⟨hscans, ?_⟩
    unfold ScansAlike
    decide +kernel
  have hpasses : PassesAlike Rule.chained line (indent ++ line ++ ['\r']) := by
    simp only [Rule.chained, Rule.withTail, PassesAlike]
    decide +kernel
  have hmargins := fun h => margins_change_nothing h indent line hindent
  exact ⟨⟨hindent, htokens, hpasses⟩, fun escapes => (hmargins (.mk .tokenized escapes)).1 htokens,
    (hmargins (.mk .chained false)).1 hpasses, (hmargins (.mk .tokenized true)).2 htokens⟩

/-- A reserved word behind words that are not too many is a token. -/
theorem tokenize_lateWord_ne_nil {m : Nat} (hm : m < 14705) :
    letI := Engine.backtracking
    tokenize (Regex.lateWord m) ≠ [] := by
  let := Engine.backtracking
  intro hempty
  have hup : Rule.reserved.givenUp (byteSize (Regex.lateWord m)) (Place.start (Regex.lateWord m)) = false :=
    Rule.givenUp_line (Regex.not_givesUp_lateWord hm 0)
  have hscan := leftmostScan_scan Rule.wellMade_of_mem_scanner (byteSize (Regex.lateWord m))
    (Place.start (Regex.lateWord m))
  rw [List.map_eq_nil_iff.1 hempty] at hscan
  obtain ⟨f, hf, -, hstop⟩ := Rule.exists_foundAt_lateWord m
  rw [← Rule.skip_lateWord] at hf
  have hfits := Rule.fitsAt_eq_some.2 ⟨hf, (hstop.trans (Regex.byteSize_lateWord m).symm).le⟩
  have hin : 2 * (m + 1) < (Regex.lateWord m).length := by
    rw [Regex.length_lateWord]
    omega
  have hreserved : Rule.reserved ∈ Rule.scanner := by simp [Rule.scanner, Rule.withTail]
  obtain ⟨g, hg, -⟩ := hscan.covers hreserved (List.forall_mem_singleton.2 hup) _ hin f hfits
  cases hg

theorem tokenize_indented_eq_nil {j m : Nat} (hcost : backtrackLimit < 3 * (j + 1) + 68 * (m + 1)) :
    letI := Engine.backtracking
    tokenize (List.replicate (j + 1) ' ' ++ Regex.lateWord m ++ ['\r']) = [] := by
  let := Engine.backtracking
  have hline : List.replicate (j + 1) ' ' ++ Regex.lateWord m ++ ['\r'] =
      List.replicate (j + 1) ' ' ++ (Regex.letters (m + 1) ++ ("const".toList ++ ['\r'])) := by
    simp only [Regex.lateWord, List.append_assoc]
  have hup := Regex.givesUp_indented ("const".toList ++ ['\r']) hcost 0
  rw [← hline] at hup
  refine tokenize_eq_nil (Rule.givenUp_of_givesUp ?_ hup) fun category hother c hc => ?_
  · exact byteSize_pos (by simp)
  · simp only [List.mem_append, List.mem_singleton] at hc
    rcases hc with (hc | hc) | rfl
    · rw [List.eq_of_mem_replicate hc]
      cases category <;> decide
    · exact Regex.lacks_lateWord hother c hc
    · cases category <;> decide

/-- A long indentation takes its token from a line with a reserved word behind other words, because the search for it is
given up. -/
theorem margins_hide_late_word :
    letI := Engine.backtracking
    (∀ c ∈ List.replicate 200000 ' ', isScriptSpace c) ∧
    tokenize (List.replicate 200000 ' ' ++ Regex.lateWord 9999 ++ ['\r']) = [] ∧
    tokenize (Regex.lateWord 9999) ≠ [] ∧
    tokenize (List.replicate 200000 ' ' ++ Regex.lateWord 9999 ++ ['\r']) ≠
      (tokenize (Regex.lateWord 9999)).map (Token.shift (byteSize (List.replicate 200000 ' '))) := by
  let := Engine.backtracking
  have hhidden := tokenize_indented_eq_nil (j := 199999) (m := 9999) (by decide)
  have hshown := tokenize_lateWord_ne_nil (m := 9999) (by decide)
  refine ⟨fun c hc => List.eq_of_mem_replicate hc ▸ rfl, hhidden, hshown, fun h => hshown ?_⟩
  rw [hhidden] at h
  exact List.map_eq_nil_iff.1 h.symm

end JsxView
