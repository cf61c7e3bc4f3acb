import JsxView.Markup
import JsxView.Proofs.Leftmost
/-!
# TokenTree — tokens in their place

Tokens of a line are in place when they are sorted and disjoint, begin and end between two characters of the line, and
hold further tokens that are in place inside them (`WellPlaced`).  Then the line can be taken apart along them, piece
by piece and at every depth (`Laid`), no cut falls inside a character, and a rendering is made of the renderings of the
pieces (`Token.renderInside_token`).  The tokens that the scanner finds are in place (`wellPlaced_tokenize`).
-/
namespace JsxView

/-- Whether a number of bytes of a text ends between two characters. -/
def IsCut (t : List Char) (n : Nat) : Prop :=
  byteSize (takeBytes n t) = n

mutual

/-- **A token in its place** inside the range of bytes from `low` to `high` of a line. -/
def Token.Within (line : List Char) (low high : Nat) : Token → Prop
  | ⟨_, start, stop, children⟩ =>
    low ≤ start ∧ start ≤ stop ∧ stop ≤ high ∧ IsCut line start ∧ IsCut line stop ∧
      Token.AllWithin line start stop children

/-- Tokens one behind the other, each in its place, inside a range of bytes. -/
def Token.AllWithin (line : List Char) (low high : Nat) : List Token → Prop
  | [] => True
  | token :: rest => token.Within line low high ∧ Token.AllWithin line token.stop high rest

end

/-- **Tokens in their place on a line**, at every depth. -/
def WellPlaced (line : List Char) (tokens : List Token) : Prop :=
  Token.AllWithin line 0 (byteSize line) tokens

/-- A text from the byte `pos` on, taken apart along its tokens. -/
inductive Laid : Nat → List Char → List Token → Prop where
  | text (pos : Nat) (t : List Char) : Laid pos t []
  | token {pos start stop : Nat} {a m b : List Char} {children rest : List Token} (category : Category) :
      start = pos + byteSize a → stop = start + byteSize m → Laid start m children → Laid stop b rest →
        Laid pos (a ++ (m ++ b)) (⟨category, start, stop, children⟩ :: rest)

/-! ## Cuts -/

theorem isCut_append (x y : List Char) : IsCut (x ++ y) (byteSize x) :=
  congrArg byteSize (takeBytes_byteSize x y)

theorem IsCut.exists_append {t : List Char} {n : Nat} (h : IsCut t n) : ∃ x y, t = x ++ y ∧ n = byteSize x :=
  ⟨takeBytes n t, dropBytes n t, (takeBytes_append_dropBytes n t).symm, h.symm⟩

theorem IsCut.exists_append_of_le {x y : List Char} {n : Nat} (h : IsCut (x ++ y) n) (hle : byteSize x ≤ n) :
    ∃ u z, y = u ++ z ∧ n = byteSize (x ++ u) := by
  have hsplit := takeBytes_byteSize_add x y (n - byteSize x)
  rw [Nat.add_sub_cancel' hle] at hsplit
  exact ⟨_, _, (takeBytes_append_dropBytes (n - byteSize x) y).symm, by rw [← hsplit, h]⟩

theorem isCut_zero (t : List Char) : IsCut t 0 :=
  isCut_append [] t

theorem isCut_byteSize (t : List Char) : IsCut t (byteSize t) := by
  have := isCut_append t []
  rwa [List.append_nil] at this

theorem IsCut.le {t : List Char} {n : Nat} (h : IsCut t n) : n ≤ byteSize t := by
  have hsize := congrArg byteSize (takeBytes_append_dropBytes n t)
  have htake : byteSize (takeBytes n t) = n := h
  rw [byteSize_append] at hsize
  omega

/-- Of two prefixes of a text the one with fewer bytes is a prefix of the other. -/
theorem exists_eq_append_of_byteSize_le {x y u v : List Char} (h : x ++ y = u ++ v) (hle : byteSize x ≤ byteSize u) :
    ∃ w, u = x ++ w ∧ y = w ++ v := by
  rcases List.append_eq_append_iff.1 h with ⟨w, hu, hy⟩ | ⟨w, hx, hv⟩
  · exact ⟨w, hu, hy⟩
  · have hw : w = [] := by
      rw [hx, byteSize_append] at hle
      exact byteSize_eq_zero.1 (by omega)
    subst hw
    exact ⟨[], by rw [hx, List.append_nil, List.append_nil], by rw [hv]; rfl⟩

theorem append_inj_of_byteSize_eq {x y u v : List Char} (h : x ++ y = u ++ v) (hsize : byteSize x = byteSize u) :
    x = u ∧ y = v := by
  obtain ⟨w, rfl, rfl⟩ := exists_eq_append_of_byteSize_le h (Nat.le_of_eq hsize)
  have hw : w = [] := byteSize_eq_zero.1 (by rw [byteSize_append] at hsize; omega)
  subst hw
  exact ⟨(List.append_nil x).symm, rfl⟩

/-- **A cut inside a range cuts the text of the range.** -/
theorem IsCut.exists_split {line x t y : List Char} {n : Nat} (hline : line = x ++ (t ++ y)) (hn : IsCut line n)
    (hlow : byteSize x ≤ n) (hhigh : n ≤ byteSize x + byteSize t) :
    ∃ a b, t = a ++ b ∧ n = byteSize x + byteSize a := by
  have hcut := takeBytes_append_dropBytes n line
  rw [← hn] at hlow
  obtain ⟨a, hxa, hrest⟩ := exists_eq_append_of_byteSize_le (hline.symm.trans hcut.symm) hlow
  have hsize : n = byteSize x + byteSize a := by
    rw [← byteSize_append, ← hxa]
    exact hn.symm
  obtain ⟨b, htb, -⟩ := exists_eq_append_of_byteSize_le hrest.symm (by omega)
  exact ⟨a, b, htb, hsize⟩

/-- A cut behind the place where a character begins lies behind that character. -/
theorem IsCut.behind {x rest : List Char} {c : Char} {n : Nat} (hn : IsCut (x ++ c :: rest) n) (hlt : byteSize x < n) :
    byteSize (x ++ [c]) ≤ n := by
  have hle := hn.le
  rw [byteSize_append] at hle
  obtain ⟨a, b, hsplit, rfl⟩ := hn.exists_split (t := c :: rest) (y := []) (by rw [List.append_nil])
    (Nat.le_of_lt hlt) hle
  cases a with
  | nil => exact absurd hlt (Nat.lt_irrefl _)
  | cons d a =>
    obtain ⟨rfl, -⟩ := List.cons.inj hsplit
    simp only [byteSize_append, byteSize_cons, byteSize_nil]
    omega

mutual

theorem Token.laid_of_within : ∀ (token : Token) {line x t y : List Char} {low high : Nat},
    line = x ++ (t ++ y) → low = byteSize x → high = byteSize x + byteSize t → token.Within line low high →
      ∃ a m b, t = a ++ (m ++ b) ∧ token.start = low + byteSize a ∧ token.stop = token.start + byteSize m ∧
        Laid token.start m token.children
  | ⟨category, start, stop, children⟩, line, x, t, y, low, high, hline, hlow, hhigh, h => by
    obtain ⟨h1, h2, h3, hstart, hstop, hinside⟩ := h
    -- what stands before the token is cut off first, then what stands behind it
    obtain ⟨a, u, rfl, hsa⟩ := hstart.exists_split hline (by omega) (by omega)
    rw [byteSize_append] at hhigh
    have hline' : line = (x ++ a) ++ (u ++ y) := by rw [hline]; simp only [List.append_assoc]
    obtain ⟨m, b, rfl, hsm⟩ := hstop.exists_split hline' (by rw [byteSize_append]; omega)
      (by rw [byteSize_append]; omega)
    rw [byteSize_append] at hsm
    refine ⟨a, m, b, rfl, ?_, ?_, ?_⟩
    · show start = low + byteSize a
      omega
    · show stop = start + byteSize m
      omega
    · show Laid start m children
      exact Token.laid_of_allWithin children (x := x ++ a) (y := b ++ y) (by rw [hline']; simp only [List.append_assoc])
        (by rw [byteSize_append]; omega) (by rw [byteSize_append]; omega) hinside

theorem Token.laid_of_allWithin : ∀ (tokens : List Token) {line x t y : List Char} {low high : Nat},
    line = x ++ (t ++ y) → low = byteSize x → high = byteSize x + byteSize t → Token.AllWithin line low high tokens →
      Laid low t tokens
  | [], _, _, t, _, low, _, _, _, _, _ => .text low t
  | token :: rest, line, x, t, y, low, high, hline, hlow, hhigh, h => by
    obtain ⟨hfirst, hrest⟩ := h
    obtain ⟨a, m, b, rfl, hstart, hstop, hinside⟩ := Token.laid_of_within token hline hlow hhigh hfirst
    have hlaid : Laid token.stop b rest := Token.laid_of_allWithin rest (x := x ++ (a ++ m)) (y := y)
      (by rw [hline]; simp only [List.append_assoc]) (by simp only [byteSize_append]; omega)
      (by simp only [byteSize_append] at hhigh ⊢; omega) hrest
    obtain ⟨category, start, stop, children⟩ := token
    exact .token category hstart hstop hinside hlaid

end

/-- **Tokens in their place take the line apart.** -/
theorem WellPlaced.laid {line : List Char} {tokens : List Token} (h : WellPlaced line tokens) : Laid 0 line tokens :=
  Token.laid_of_allWithin tokens (x := []) (y := []) (by simp) rfl (by simp) h

/-! ## Renderings -/

theorem markupText_append (escape : Bool) (x y : List Char) :
    markupText escape (x ++ y) = markupText escape x ++ markupText escape y := by
  cases escape with
  | false => rfl
  | true => exact List.flatMap_append

/-- What is rendered of a text from the byte `pos` on: what stands before its first token, the token in its marker, and
what comes behind it. -/
theorem Token.renderInside_token (escape : Bool) {pos start stop : Nat} {a m : List Char} (b : List Char)
    (category : Category) (children rest : List Token) (hstart : start = pos + byteSize a)
    (hstop : stop = start + byteSize m) :
    Token.renderInside escape pos (a ++ (m ++ b)) (⟨category, start, stop, children⟩ :: rest) =
      markupText escape a ++ (wrap category (Token.renderInside escape start m children) ++
        Token.renderInside escape stop b rest) := by
  have h1 : start - pos = byteSize a := by omega
  have h2 : stop - start = byteSize m := by omega
  have h3 : stop - pos = byteSize (a ++ m) := by rw [byteSize_append]; omega
  have hrest : dropBytes (byteSize (a ++ m)) (a ++ (m ++ b)) = b := by
    rw [← List.append_assoc, dropBytes_byteSize]
  rw [Token.renderInside]
  simp only [Token.start, Token.stop, h1, h2, h3, hrest, takeBytes_byteSize, dropBytes_byteSize]
  rw [Token.render, List.append_assoc]

/-- What stands behind the last token is written as it is without the tokens. -/
theorem Laid.renderInside_append (escape : Bool) {pos : Nat} {text : List Char} {tokens : List Token}
    (h : Laid pos text tokens) (z : List Char) : Token.renderInside escape pos (text ++ z) tokens =
      Token.renderInside escape pos text tokens ++ markupText escape z := by
  induction h with
  | text pos t => exact markupText_append escape t z
  | token category hstart hstop _ _ _ ih =>
    rw [List.append_assoc, List.append_assoc, Token.renderInside_token escape _ category _ _ hstart hstop, ih,
      Token.renderInside_token escape _ category _ _ hstart hstop]
    simp only [List.append_assoc]

/-! ## The tokens of the scanner -/

/-- **A place on a line**: the line goes on there, behind as many bytes as the place says. -/
def Place.On (line : List Char) (p : Place) : Prop :=
  ∃ x, line = x ++ p.after ∧ byteSize x = p.offset

theorem Place.on_start (line : List Char) : (Place.start line).On line :=
  ⟨[], rfl, rfl⟩

theorem Place.On.skip {line : List Char} {p : Place} (h : p.On line) (n : Nat) : (p.skip n).On line := by
  obtain ⟨x, hline, hsize⟩ := h
  refine ⟨x ++ p.after.take n, ?_, ?_⟩
  · rw [Place.after_skip, List.append_assoc, List.take_append_drop, hline]
  · rw [Place.offset_skip, byteSize_append, hsize]

theorem Place.On.isCut {line : List Char} {p : Place} (h : p.On line) : IsCut line p.offset := by
  obtain ⟨x, hline, hsize⟩ := h
  rw [hline, ← hsize]
  exact isCut_append x p.after

theorem Token.within_iff {line : List Char} {low high : Nat} {token : Token} : token.Within line low high ↔
    low ≤ token.start ∧ token.start ≤ token.stop ∧ token.stop ≤ high ∧ IsCut line token.start ∧ IsCut line token.stop ∧
      Token.AllWithin line token.start token.stop token.children := by
  obtain ⟨category, start, stop, children⟩ := token
  rfl

variable [Engine]

/-- **What the plain procedure takes is in place**, once what stands inside each match is. -/
theorem LeftmostScan.allWithin {line : List Char} {rules : List Rule} {limit : Nat} {p : Place} {found : List Found}
    {tokenOf : Found → Token} (h : LeftmostScan limit rules p found) (hp : p.On line)
    (hof : ∀ f : Found, f.site.On line → (tokenOf f).start = f.start ∧ (tokenOf f).stop = f.stop ∧
      Token.AllWithin line f.start f.stop (tokenOf f).children) :
    Token.AllWithin line p.offset limit (found.map tokenOf) := by
  induction h with
  | done => exact True.intro
  | @take rules p f rest hnear _ ih =>
    have hlow := hnear.offset_le (onSite_firstWithin _ _)
    obtain ⟨k, _, hf, _⟩ := hnear
    obtain ⟨_, _, _, hhigh⟩ := firstWithin_eq_some hf
    have hsite : f.site.On line := by
      rw [onSite_firstWithin _ _ _ _ hf]
      exact hp.skip k
    have hnext : f.next.On line := hsite.skip f.length
    have hstop := hnext.isCut
    have hrest := ih hnext
    rw [Found.offset_next] at hstop hrest
    obtain ⟨h1, h2, hinside⟩ := hof f hsite
    refine ⟨Token.within_iff.2 ?_, ?_⟩
    · rw [h1, h2]
      exact ⟨hlow, Nat.le_add_right _ _, hhigh, hsite.isCut, hstop, hinside⟩
    · rw [h2]
      exact hrest

/-- **The scanner's tokens are in their place on the line.** -/
theorem wellPlaced_tokenize (line : List Char) : WellPlaced line (tokenize line) := by
  have hscan := leftmostScan_scan Rule.wellMade_of_mem_scanner (byteSize line) (Place.start line)
  refine hscan.allWithin (Place.on_start line) ?_
  intro f hf
  unfold Token.ofFound
  by_cases htag : f.category = .tag
  · rw [if_pos htag]
    refine ⟨rfl, rfl, (leftmostScan_scan Rule.wellMade_of_mem_nested f.stop f.site).allWithin hf ?_⟩
    exact fun g _ => ⟨rfl, rfl, True.intro⟩
  · rw [if_neg htag]
    exact ⟨rfl, rfl, True.intro⟩

end JsxView
