import JsxView.Proofs.Cut
import JsxView.Rule
import Mathlib.Data.List.DropRight
/-!
# MatchBorders — where the matches of the rules begin and end

Every rule gives itself away at the borders of its matches: a literal begins and ends with a quote, a tag with its
brackets, a word is the whole run of word characters where it stands.  `Pattern.Describes` says so of each pattern,
whatever stands around the match.  Two texts side by side that do not look like a border of a rule, as
`Category.seam` tests, have none of its borders between them, in whatever text they stand (`not_cuts_of_seam`), and a
text whose first characters are joined by such seams is never torn by a pass of the rule (`Pattern.Spares`).
-/
namespace JsxView

namespace Pattern

/-- **What is known of every match** of a pattern: the character before it, the match and the text behind it. -/
def Describes (P : Option Char → List Char → List Char → Prop) (pattern : Pattern) : Prop :=
  ∀ (before : Option Char) (text : List Char) (n : Nat), pattern before text = some n →
    ∃ h y, text = h ++ y ∧ h.length = n ∧ P before h y

/-- The first and the last character of a match are of the given classes. -/
def Bordered (starts ends : Char → Bool) (h : List Char) : Prop :=
  (∀ c ∈ h.head?, starts c) ∧ ∀ c ∈ h.getLast?, ends c

/-- **A match of the pattern begins or ends between the two texts**, in some text where they stand side by side. -/
def Cuts (pattern : Pattern) (u v : List Char) : Prop :=
  ∃ x h y, pattern.Match x h y ∧ (u <:+ x ∧ v <+: h ++ y ∨ u <:+ x ++ h ∧ v <+: y)

/-- **No match begins or ends between the first `k` characters** of a text, in whatever text it stands. -/
def Spares (pattern : Pattern) (text : List Char) (k : Nat) : Prop :=
  ∀ i < k, 0 < i → ¬ pattern.Cuts (text.take i) (text.drop i)

variable {pattern : Pattern}

theorem Describes.bounded {P : Option Char → List Char → List Char → Prop} (hP : Describes P pattern) :
    pattern.Bounded := by
  intro before text n hn
  obtain ⟨h, y, rfl, rfl, -⟩ := hP before text n hn
  rw [List.length_append]
  exact Nat.le_add_right _ _

theorem Describes.of_match {P : Option Char → List Char → List Char → Prop} (hP : Describes P pattern)
    {x h y : List Char} (hm : pattern.Match x h y) : P x.getLast? h y := by
  obtain ⟨h', y', htext, hlen, hknown⟩ := hP _ _ _ hm.2
  obtain ⟨rfl, rfl⟩ := List.append_inj htext hlen.symm
  exact hknown

/-! ## What the patterns match -/

theorem blockCloseLength_eq_some (text : List Char) {n : Nat} (hn : blockCloseLength text = some n) :
    ∃ body y, text = body ++ y ∧ body.length = n ∧ ['*', '/'] <:+ body := by
  fun_induction blockCloseLength text generalizing n with
  | case1 => cases hn
  | case2 rest =>
    cases hn
    exact ⟨['*', '/'], rest, rfl, rfl, List.suffix_refl _⟩
  | case3 c rest _ ih =>
    obtain ⟨m, hm, rfl⟩ := Option.map_eq_some_iff.1 hn
    obtain ⟨body, y, rfl, rfl, hclose⟩ := ih hm
    exact ⟨c :: body, y, rfl, rfl, hclose.trans (List.suffix_cons c body)⟩

theorem describes_comment : Describes (fun _ h y =>
    ['/', '/'] <+: h ∧ (∀ c ∈ y.head?, isLineTerminator c) ∨ ['/', '*'] <+: h ∧ ['*', '/'] <:+ h) commentPattern := by
  intro before text n hn
  unfold commentPattern at hn
  split at hn
  · rename_i rest
    cases hn
    refine ⟨'/' :: '/' :: rest.takeWhile (fun c => !isLineTerminator c), rest.dropWhile fun c => !isLineTerminator c,
      ?_, ?_, Or.inl ⟨⟨_, rfl⟩, fun c hc => ?_⟩⟩
    · rw [List.cons_append, List.cons_append, List.takeWhile_append_dropWhile]
    · rw [List.length_cons, List.length_cons]
      omega
    · have hend := List.head?_dropWhile_not (fun c => !isLineTerminator c) rest
      rw [Option.mem_def.1 hc] at hend
      simpa using hend
  · rename_i rest
    obtain ⟨m, hm, rfl⟩ := Option.map_eq_some_iff.1 hn
    obtain ⟨body, y, rfl, rfl, hclose⟩ := blockCloseLength_eq_some rest hm
    refine ⟨'/' :: '*' :: body, y, rfl, ?_, Or.inr ⟨⟨body, rfl⟩, ?_⟩⟩
    · rw [List.length_cons, List.length_cons]
      omega
    · exact hclose.trans ⟨['/', '*'], rfl⟩
  · cases hn

theorem quotedBodyLength_eq_some (quote : Char) (text : List Char) {n : Nat}
    (hn : quotedBodyLength quote text = some n) :
    ∃ body y, text = body ++ quote :: y ∧ n = body.length + 1 := by
  fun_induction quotedBodyLength quote text generalizing n with
  | case1 => cases hn
  | case2 rest =>
    cases hn
    exact ⟨[], rest, rfl, rfl⟩
  | case3 => cases hn
  | case4 => cases hn
  | case5 d more _ _ ih =>
    obtain ⟨m, hm, rfl⟩ := Option.map_eq_some_iff.1 hn
    obtain ⟨body, y, rfl, rfl⟩ := ih hm
    exact ⟨'\\' :: d :: body, y, rfl, rfl⟩
  | case6 c rest _ _ ih =>
    obtain ⟨m, hm, rfl⟩ := Option.map_eq_some_iff.1 hn
    obtain ⟨body, y, rfl, rfl⟩ := ih hm
    exact ⟨c :: body, y, rfl, rfl⟩

theorem describes_quoted : Describes (fun _ h _ => Bordered isQuote isQuote h) quotedPattern := by
  intro before text n hn
  unfold quotedPattern at hn
  split at hn
  · cases hn
  · rename_i quote rest
    split at hn
    · rename_i hquote
      obtain ⟨m, hm, rfl⟩ := Option.map_eq_some_iff.1 hn
      obtain ⟨body, y, rfl, rfl⟩ := quotedBodyLength_eq_some quote rest hm
      refine ⟨quote :: body ++ [quote], y, by simp, by simp, fun c hc => ?_, fun c hc => ?_⟩
      · cases hc
        exact hquote
      · rw [List.getLast?_concat] at hc
        cases hc
        exact hquote
    · cases hn

theorem describes_word (words : List (List Char)) : Describes (fun before h y =>
    followsWord before = false ∧ h = (h ++ y).takeWhile isWordChar ∧ h ∈ words) (wordPattern words) := by
  intro before text n hn
  unfold wordPattern at hn
  dsimp only at hn
  split at hn
  · cases hn
  · rename_i hbefore
    split at hn
    · rename_i hword
      cases hn
      refine ⟨text.takeWhile isWordChar, text.dropWhile isWordChar, List.takeWhile_append_dropWhile.symm, rfl,
        Bool.eq_false_iff.2 hbefore, ?_, hword⟩
      rw [List.takeWhile_append_dropWhile]
    · cases hn

/-- What comes last in a decimal number, its point or a digit. -/
def endsNumber (c : Char) : Bool :=
  c.isDigit || c = '.'

theorem describes_number : Describes (fun _ h _ => Bordered Char.isDigit endsNumber h) numberPattern := by
  intro before text n hn
  have hwhole : ∀ c ∈ text.takeWhile Char.isDigit, Char.isDigit c := fun c => List.mem_takeWhile_imp
  -- it is enough that the number is the run of digits and something that ends like a number
  have hnumber : ∀ more y, text.dropWhile Char.isDigit = more ++ y → (text.takeWhile Char.isDigit).isEmpty = false →
      (∀ c ∈ more, endsNumber c) → n = (text.takeWhile Char.isDigit).length + more.length →
      ∃ h y, text = h ++ y ∧ h.length = n ∧ Bordered Char.isDigit endsNumber h := by
    intro more y htail hne hmore hlen
    have hne : text.takeWhile Char.isDigit ≠ [] := fun h => by simp [h] at hne
    refine ⟨text.takeWhile Char.isDigit ++ more, y, ?_, ?_, fun c hc => ?_, fun c hc => ?_⟩
    · rw [List.append_assoc, ← htail, List.takeWhile_append_dropWhile]
    · rw [List.length_append, hlen]
    · rw [List.head?_append_of_ne_nil _ hne] at hc
      exact hwhole c (List.mem_of_mem_head? hc)
    · rcases List.mem_append.1 (List.mem_of_getLast? hc) with hc | hc
      · rw [endsNumber, hwhole c hc, Bool.true_or]
      · exact hmore c hc
  unfold numberPattern at hn
  dsimp only at hn
  split at hn
  · cases hn
  · rename_i hstart
    have hne : (text.takeWhile Char.isDigit).isEmpty = false := by simp_all
    split at hn
    · rename_i rest htail
      split at hn
      · cases hn
        exact hnumber [] _ rfl hne (by simp) rfl
      · split at hn
        · cases hn
          exact hnumber ['.'] rest htail hne (by simp [endsNumber]) rfl
        · cases hn
          refine hnumber ('.' :: rest.takeWhile Char.isDigit) (rest.dropWhile Char.isDigit) ?_ hne (fun c hc => ?_) ?_
          · rw [List.cons_append, List.takeWhile_append_dropWhile, htail]
          · rcases List.mem_cons.1 hc with rfl | hc
            · rfl
            · rw [endsNumber, List.mem_takeWhile_imp hc, Bool.true_or]
          · rw [List.length_cons]
            omega
    · split at hn
      · cases hn
      · cases hn
        exact hnumber [] _ rfl hne (by simp) rfl

theorem describes_tag : Describes (fun _ h _ => Bordered (· = '<') (· = '>') h) tagPattern := by
  intro before text n hn
  unfold tagPattern at hn
  split at hn
  · rename_i hopen
    obtain ⟨m, hm, rfl⟩ := Option.map_eq_some_iff.1 hn
    obtain ⟨hlt, hclose, -⟩ := List.findIdx?_eq_some_iff_getElem.1 hm
    refine ⟨text.take (m + 1), text.drop (m + 1), (List.take_append_drop _ _).symm, ?_, fun c hc => ?_, fun c hc => ?_⟩
    · rw [List.length_take]
      omega
    · have hhead : text.head? = some '<' := by
        unfold opensTag at hopen
        split at hopen
        · rfl
        · rfl
        · cases hopen
      rw [List.head?_take, if_neg (Nat.succ_ne_zero m), hhead] at hc
      cases hc
      rfl
    · rw [List.take_succ_eq_append_getElem hlt, List.getLast?_concat] at hc
      cases hc
      exact hclose
  · cases hn

theorem describes_attribute (tail : AttributeTail) : Describes (fun _ h y =>
    h = (h ++ y).takeWhile isAttributeChar ∧ y = (h ++ y).dropWhile isAttributeChar ∧ tail.accepts y)
    (attributePattern tail) := by
  intro before text n hn
  unfold attributePattern at hn
  dsimp only at hn
  split at hn
  · cases hn
  · split at hn
    · rename_i htail
      cases hn
      refine ⟨text.takeWhile isAttributeChar, text.dropWhile isAttributeChar, List.takeWhile_append_dropWhile.symm, rfl,
        ?_, ?_, htail⟩
      · rw [List.takeWhile_append_dropWhile]
      · rw [List.takeWhile_append_dropWhile]
    · cases hn

/-! ## Seams -/

/-- A border at which the text behind cannot start a match, nor the text before it end one, by their characters. -/
def borderSeam (starts ends : Char → Bool) (u v : List Char) : Bool :=
  v.head?.any (fun c => !starts c) && u.getLast?.any fun c => !ends c

/-- No comment opens with the text behind or ends with the one before it. -/
def commentSeam (u v : List Char) : Bool :=
  v.head?.any (fun c => !isLineTerminator c)
    && !(['/', '/'].isPrefixOf (v ++ ['/'])) && !(['/', '*'].isPrefixOf (v ++ ['*']))
    && !u.isEmpty && !(['*', '/'].isSuffixOf ('*' :: u))

/-- The runs of word characters on the two sides end in the texts, and neither is one of the words. -/
def wordSeam (words : List (List Char)) (u v : List Char) : Bool :=
  v.any (fun c => !isWordChar c) && !words.contains (v.takeWhile isWordChar)
    && u.any (fun c => !isWordChar c) && !words.contains (u.rtakeWhile isWordChar)

/-- Neither behind the place nor behind the name that begins there comes an equals sign. -/
def attributeSeam (v : List Char) : Bool :=
  ((v.dropWhile isAttributeChar).dropWhile isScriptSpace).head?.any (fun c => c != '=')
    && (v.dropWhile isScriptSpace).head?.any fun c => c != '='

theorem not_cuts_of_borderSeam {starts ends : Char → Bool} {u v : List Char}
    (hP : Describes (fun _ h _ => Bordered starts ends h) pattern) (hseam : borderSeam starts ends u v = true) :
    ¬ pattern.Cuts u v := by
  simp only [borderSeam, Bool.and_eq_true, Option.any_eq_true] at hseam
  obtain ⟨⟨c, hc, hstart⟩, e, he, hend⟩ := hseam
  rintro ⟨x, h, y, hm, ⟨-, z, hz⟩ | ⟨⟨z, hz⟩, -⟩⟩
  · have hhead : h.head? = some c := by
      have happend : (h ++ y).head? = h.head? := List.head?_append_of_ne_nil h hm.1
      rw [← happend, ← hz, List.head?_append, hc]
      rfl
    simp [(hP.of_match hm).1 c hhead] at hstart
  · have hlast : h.getLast? = some e := by
      rw [← List.getLast?_append_of_ne_nil x hm.1, ← hz, List.getLast?_append, he]
      rfl
    simp [(hP.of_match hm).2 e hlast] at hend

/-- The first two characters of a text are those of what it begins with, or the second one is not known. -/
theorem pair_prefix {a b : Char} {v z : List Char} (h : [a, b] <+: v ++ z) (hne : v ≠ []) : [a, b] <+: v ++ [b] := by
  obtain ⟨t, ht⟩ := h
  match v, hne with
  | [c], _ =>
    obtain ⟨rfl, -⟩ := List.cons.inj ht
    exact List.prefix_refl _
  | c :: d :: v, _ =>
    obtain ⟨rfl, htail⟩ := List.cons.inj ht
    obtain ⟨rfl, -⟩ := List.cons.inj htail
    exact ⟨v ++ [b], rfl⟩

theorem pair_suffix {a b : Char} {u z : List Char} (h : [a, b] <:+ z ++ u) (hne : u ≠ []) : [a, b] <:+ a :: u := by
  rw [← List.reverse_prefix, List.reverse_append] at h
  rw [← List.reverse_prefix]
  show [b, a] <+: (a :: u).reverse
  rw [List.reverse_cons]
  exact pair_prefix h (mt List.reverse_eq_nil_iff.1 hne)

theorem not_cuts_comment {u v : List Char} (hseam : commentSeam u v = true) : ¬ commentPattern.Cuts u v := by
  simp only [commentSeam, Bool.and_eq_true, Option.any_eq_true, Bool.not_eq_true', List.isEmpty_eq_false_iff] at hseam
  obtain ⟨⟨⟨⟨⟨c, hc, hterminator⟩, hline⟩, hblock⟩, hu⟩, hclose⟩ := hseam
  have hv : v ≠ [] := fun hv => by simp [hv] at hc
  rintro ⟨x, h, y, hm, ⟨-, z, hz⟩ | ⟨⟨z, hz⟩, t, ht⟩⟩
  · have hopen : ['/', '/'] <+: h ∨ ['/', '*'] <+: h :=
      (describes_comment.of_match hm).imp (·.1) (·.1)
    rcases hopen with hopen | hopen
    · have := pair_prefix (hz ▸ hopen.trans (List.prefix_append h y)) hv
      simp [List.isPrefixOf_iff_prefix.2 this] at hline
    · have := pair_prefix (hz ▸ hopen.trans (List.prefix_append h y)) hv
      simp [List.isPrefixOf_iff_prefix.2 this] at hblock
  · rcases describes_comment.of_match hm with ⟨-, hend⟩ | ⟨-, hend⟩
    · have hhead : y.head? = some c := by
        rw [← ht, List.head?_append, hc]
        rfl
      simp [hend c hhead] at hterminator
    · have := pair_suffix (hz ▸ hend.trans (List.suffix_append x h)) hu
      simp [List.isSuffixOf_iff_suffix.2 this] at hclose

/-- The run at the start of a text ends where a character of it breaks it, whatever comes behind. -/
theorem takeWhile_append_of_broken {p : Char → Bool} {v : List Char} (hv : v.any (fun c => !p c) = true)
    (z : List Char) : (v ++ z).takeWhile p = v.takeWhile p := by
  rw [List.takeWhile_append, if_neg]
  intro hlen
  obtain ⟨c, hc, hbreak⟩ := List.any_eq_true.1 hv
  rw [← (List.takeWhile_prefix p).eq_of_length hlen] at hc
  simp [List.mem_takeWhile_imp hc] at hbreak

theorem not_cuts_word {words : List (List Char)} {u v : List Char} (hseam : wordSeam words u v = true) :
    ¬ (wordPattern words).Cuts u v := by
  simp only [wordSeam, Bool.and_eq_true, Bool.not_eq_true', List.contains_eq_mem, decide_eq_false_iff_not] at hseam
  obtain ⟨⟨⟨hv, hstart⟩, hu⟩, hend⟩ := hseam
  rintro ⟨x, h, y, hm, ⟨-, z, hz⟩ | ⟨⟨z, hz⟩, -⟩⟩
  · obtain ⟨-, hrun, hword⟩ := (describes_word words).of_match hm
    rw [← hz, takeWhile_append_of_broken hv] at hrun
    exact hstart (hrun ▸ hword)
  · obtain ⟨hbefore, hrun, hword⟩ := (describes_word words).of_match hm
    -- read backwards, the match is the run of word characters at the end of what stands before the place
    have hback : (x ++ h).reverse.takeWhile isWordChar = h.reverse := by
      have hall : ∀ c ∈ h.reverse, isWordChar c := by
        intro c hc
        rw [List.mem_reverse, hrun] at hc
        exact List.mem_takeWhile_imp hc
      rw [List.reverse_append, List.takeWhile_append_of_pos hall]
      cases hx : x.reverse with
      | nil => simp
      | cons c rest =>
        have hlast : x.getLast? = some c := by rw [← List.head?_reverse, hx]; rfl
        rw [hlast] at hbefore
        have hc : isWordChar c = false := hbefore
        rw [List.takeWhile_cons, hc]
        simp
    have hu' : u.reverse.any (fun c => !isWordChar c) = true := by rwa [List.any_reverse]
    rw [← hz, List.reverse_append, takeWhile_append_of_broken hu'] at hback
    rw [List.rtakeWhile, hback, List.reverse_reverse] at hend
    exact hend hword

theorem head?_dropWhile_append {p : Char → Bool} {v : List Char} {c : Char} (hc : (v.dropWhile p).head? = some c)
    (z : List Char) : ((v ++ z).dropWhile p).head? = some c := by
  have hne : v.dropWhile p ≠ [] := fun h => by simp [h] at hc
  rw [List.dropWhile_append, if_neg (by simpa using hne), List.head?_append, hc]
  rfl

theorem not_cuts_attribute {u v : List Char} (hseam : attributeSeam v = true) :
    ¬ (attributePattern .loose).Cuts u v := by
  simp only [attributeSeam, Bool.and_eq_true, Option.any_eq_true] at hseam
  obtain ⟨⟨c, hc, hne⟩, d, hd, hne'⟩ := hseam
  rintro ⟨x, h, y, hm, ⟨-, z, hz⟩ | ⟨-, z, hz⟩⟩
  · obtain ⟨-, hrest, htail⟩ := (describes_attribute .loose).of_match hm
    have hname : v.dropWhile isAttributeChar ≠ [] := fun h => by simp [h] at hc
    rw [← hz, List.dropWhile_append, if_neg (by simpa using hname)] at hrest
    rw [AttributeTail.accepts, hrest, head?_dropWhile_append hc] at htail
    simp_all
  · obtain ⟨-, -, htail⟩ := (describes_attribute .loose).of_match hm
    rw [AttributeTail.accepts, ← hz, head?_dropWhile_append hd] at htail
    simp_all

end Pattern

/-- **A seam of a category**: two texts that do not look like a border of a match of its rule. -/
def Category.seam : Category → List Char → List Char → Bool
  | .comment, u, v => Pattern.commentSeam u v
  | .quoted, u, v => Pattern.borderSeam isQuote isQuote u v
  | .framework, u, v => Pattern.wordSeam frameworkNames u v
  | .keyword, u, v => Pattern.wordSeam keywords u v
  | .number, u, v => Pattern.borderSeam Char.isDigit Pattern.endsNumber u v
  | .tag, u, v => Pattern.borderSeam (· = '<') (· = '>') u v
  | .attribute, _, v => Pattern.attributeSeam v

namespace Rule

theorem forall_withTail {P : Rule → Prop} (tail : AttributeTail) (hcomment : P comments) (hquoted : P literals)
    (hframework : P framework) (hkeyword : P reserved) (hnumber : P numbers) (htag : P tags)
    (hattribute : P (attributes tail)) : ∀ rule ∈ withTail tail, P rule := by
  simp only [withTail, List.forall_mem_cons, List.not_mem_nil, false_implies, implies_true, and_true]
  exact ⟨hcomment, hquoted, hframework, hkeyword, hnumber, htag, hattribute⟩

theorem bounded_of_mem_withTail (tail : AttributeTail) : ∀ rule ∈ withTail tail, rule.pattern.Bounded :=
  forall_withTail tail Pattern.describes_comment.bounded Pattern.describes_quoted.bounded
    (Pattern.describes_word _).bounded (Pattern.describes_word _).bounded Pattern.describes_number.bounded
    Pattern.describes_tag.bounded (Pattern.describes_attribute _).bounded

theorem bounded_of_mem_chained : ∀ rule ∈ chained, rule.pattern.Bounded :=
  bounded_of_mem_withTail .loose

/-- **At a seam of its category a rule of the chain has no border**, in whatever text the two stand. -/
theorem not_cuts_of_seam (u v : List Char) :
    ∀ rule ∈ chained, rule.category.seam u v = true → ¬ rule.pattern.Cuts u v :=
  forall_withTail .loose Pattern.not_cuts_comment (Pattern.not_cuts_of_borderSeam Pattern.describes_quoted)
    Pattern.not_cuts_word Pattern.not_cuts_word (Pattern.not_cuts_of_borderSeam Pattern.describes_number)
    (Pattern.not_cuts_of_borderSeam Pattern.describes_tag) Pattern.not_cuts_attribute

/-- The rule spares the first characters of a text that are joined by seams. -/
theorem spares_of_seams {rule : Rule} (hrule : rule ∈ chained) {text : List Char} {k : Nat}
    (hseams : ∀ i < k, 0 < i → rule.category.seam (text.take i) (text.drop i) = true) :
    rule.pattern.Spares text k :=
  fun i hi hpos => not_cuts_of_seam _ _ rule hrule (hseams i hi hpos)

end Rule

end JsxView
