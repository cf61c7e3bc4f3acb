import JsxView.Proofs.MatchBorders
/-!
# Margins — white space before a line and a carriage return behind it

No rule sees the margins of a line.  White space before a line begins no match and counts as no word character, and a
carriage return behind it ends every match that the end of the line ends (`Pattern.IgnoresMargins`).  The tag rule
deserves a look: the return is white space behind the name of a tag, but no `>` comes behind it.
-/
namespace JsxView

/-! ## White space -/

theorem toNat_of_isScriptSpace {c : Char} (h : isScriptSpace c) : c.toNat ≤ 32 ∨ 160 ≤ c.toNat := by
  simp only [isScriptSpace, Bool.or_eq_true, decide_eq_true_eq, Bool.and_eq_true] at h
  rcases h with h | ⟨h, -⟩
  · have hall : ∀ c ∈ ['\t', '\n', '\x0b', '\x0c', '\r', ' ', '\u00a0', '\u1680', '\u2028', '\u2029', '\u202f',
      '\u205f', '\u3000', '\ufeff'], c.toNat ≤ 32 ∨ 160 ≤ c.toNat := by simp
    exact hall c h
  · have hlow : 8192 ≤ c.toNat := h
    omega

theorem toNat_of_isAlphanum {c : Char} (h : c.isAlphanum) : 48 ≤ c.toNat ∧ c.toNat ≤ 122 := by
  have hranges :
      (decide (65 ≤ c.val ∧ c.val ≤ 90) || (97 ≤ c.val && c.val ≤ 122) || (48 ≤ c.val && c.val ≤ 57)) = true := h
  simp only [Bool.or_eq_true, Bool.and_eq_true, decide_eq_true_eq] at hranges
  rcases hranges with (⟨hlow, hhigh⟩ | ⟨hlow, hhigh⟩) | ⟨hlow, hhigh⟩
  · have hlow : 65 ≤ c.toNat := hlow
    have hhigh : c.toNat ≤ 90 := hhigh
    omega
  · have hlow : 97 ≤ c.toNat := hlow
    exact ⟨by omega, hhigh⟩
  · have hhigh : c.toNat ≤ 57 := hhigh
    exact ⟨hlow, by omega⟩

variable {c : Char}

theorem isAlphanum_of_isScriptSpace (h : isScriptSpace c) : c.isAlphanum = false := by
  have := toNat_of_isScriptSpace h
  refine Bool.eq_false_iff.2 fun hc => ?_
  have := toNat_of_isAlphanum hc
  omega

theorem ne_of_isScriptSpace (h : isScriptSpace c) {d : Char} (hd : isScriptSpace d = false) : c ≠ d := by
  rintro rfl
  rw [hd] at h
  cases h

theorem isWordChar_of_isScriptSpace (h : isScriptSpace c) : isWordChar c = false := by
  rw [isWordChar, isAlphanum_of_isScriptSpace h, Bool.false_or]
  exact decide_eq_false (ne_of_isScriptSpace h (by decide))

theorem isAlpha_of_isScriptSpace (h : isScriptSpace c) : c.isAlpha = false :=
  (Bool.or_eq_false_iff.1 (isAlphanum_of_isScriptSpace h)).1

theorem isDigit_of_isScriptSpace (h : isScriptSpace c) : c.isDigit = false :=
  (Bool.or_eq_false_iff.1 (isAlphanum_of_isScriptSpace h)).2

theorem isAttributeChar_of_isScriptSpace (h : isScriptSpace c) : isAttributeChar c = false := by
  rw [isAttributeChar, isAlpha_of_isScriptSpace h, Bool.false_or]
  exact decide_eq_false (ne_of_isScriptSpace h (by decide))

theorem isQuote_of_isScriptSpace (h : isScriptSpace c) : isQuote c = false := by
  refine Bool.eq_false_iff.2 fun hc => ?_
  have hmem : c ∈ ['"', '\'', '\x60'] := of_decide_eq_true hc
  simp only [List.mem_cons, List.not_mem_nil, or_false] at hmem
  rcases hmem with rfl | rfl | rfl <;> exact absurd h (by decide)

/-! ## A carriage return at the end -/

/-- A character outside a class ends every run of it. -/
theorem takeWhile_append_cons {p : Char → Bool} {c : Char} (hc : p c = false) (x y : List Char) :
    (x ++ c :: y).takeWhile p = x.takeWhile p := by
  rw [List.takeWhile_append]
  split
  · rename_i hlen
    rw [(List.takeWhile_prefix p).eq_of_length hlen]
    simp [hc]
  · rfl

section

variable {p : Char → Bool} (hp : p '\r' = false) (text : List Char)
include hp

theorem takeWhile_return : (text ++ ['\r']).takeWhile p = text.takeWhile p :=
  takeWhile_append_cons hp text []

theorem dropWhile_return : (text ++ ['\r']).dropWhile p = text.dropWhile p ++ ['\r'] := by
  rw [List.dropWhile_append, List.dropWhile_cons_of_neg (by simp [hp])]
  split
  · rename_i hempty
    rw [List.isEmpty_iff.1 hempty, List.nil_append]
  · rfl

end

theorem head?_return (text : List Char) {p : Char → Bool} (hp : p '\r' = false) :
    (text ++ ['\r']).head?.any p = text.head?.any p := by
  cases text with
  | nil => exact hp
  | cons c rest => rfl

theorem startsWord_return (text : List Char) : startsWord (text ++ ['\r']) = startsWord text :=
  head?_return text (by decide)

theorem blockCloseLength_return (text : List Char) : blockCloseLength (text ++ ['\r']) = blockCloseLength text := by
  fun_induction blockCloseLength text with
  | case1 => rfl
  | case2 rest => rfl
  | case3 c rest hopen ih =>
    rw [List.cons_append, blockCloseLength, ih]
    rintro rest' rfl h
    cases rest with
    | nil => exact absurd (List.cons.inj h).1 (by decide)
    | cons d rest =>
      obtain ⟨rfl, -⟩ := List.cons.inj h
      exact hopen rest rfl rfl

theorem quotedBodyLength_quote (quote : Char) (rest : List Char) :
    quotedBodyLength quote (quote :: rest) = some 1 := by
  rw [quotedBodyLength.eq_def]
  exact if_pos rfl

theorem quotedBodyLength_plain {quote c : Char} (hquote : c ≠ quote) (hplain : c ≠ '\\') (rest : List Char) :
    quotedBodyLength quote (c :: rest) = (quotedBodyLength quote rest).map (· + 1) := by
  rw [quotedBodyLength.eq_def]
  exact (if_neg hquote).trans (if_neg hplain)

theorem quotedBodyLength_return {quote : Char} (hquote : quote ≠ '\r') (text : List Char) :
    quotedBodyLength quote (text ++ ['\r']) = quotedBodyLength quote text := by
  fun_induction quotedBodyLength quote text with
  | case1 => exact quotedBodyLength_plain (Ne.symm hquote) (by decide) []
  | case2 rest => exact quotedBodyLength_quote quote _
  | case3 hopen =>
    rw [List.cons_append, List.nil_append, quotedBodyLength, if_neg hopen, if_pos rfl]
    rfl
  | case4 d more hend hopen =>
    rw [List.cons_append, List.cons_append, quotedBodyLength, if_neg hopen, if_pos rfl]
    exact if_pos hend
  | case5 d more hend hopen ih =>
    rw [List.cons_append, List.cons_append, quotedBodyLength, if_neg hopen, if_pos rfl]
    exact (if_neg hend).trans (congrArg (Option.map (· + 2)) ih)
  | case6 c rest hopen hplain ih => rw [List.cons_append, quotedBodyLength_plain hopen hplain, ih]

/-! ## The patterns one by one -/

namespace Pattern

/-- **A pattern that margins do not change.**  Of what stands before a place only a word character counts, nothing
matches at white space, and a carriage return at the end of the text is as good as the end. -/
structure IgnoresMargins (pattern : Pattern) : Prop where
  before : ∀ {b b' : Option Char}, followsWord b = followsWord b' → pattern b = pattern b'
  space : ∀ (b : Option Char) {c : Char} (rest : List Char), isScriptSpace c → pattern b (c :: rest) = none
  ending : ∀ (b : Option Char) (text : List Char), pattern b (text ++ ['\r']) = pattern b text

/-- The first two characters of a text that a carriage return ends are its own, unless one is the return. -/
theorem exists_pair_of_return {text rest : List Char} {c d : Char} (hd : d ≠ '\r')
    (h : text ++ ['\r'] = c :: d :: rest) : ∃ more, text = c :: d :: more := by
  match text, h with
  | [], h => cases h
  | [e], h => exact absurd (List.cons.inj (List.cons.inj h).2).1.symm hd
  | e :: f :: more, h =>
    obtain ⟨rfl, htail⟩ := List.cons.inj h
    obtain ⟨rfl, -⟩ := List.cons.inj htail
    exact ⟨more, rfl⟩

theorem comment_eq_none {text : List Char} (hline : ∀ rest, text ≠ '/' :: '/' :: rest)
    (hblock : ∀ rest, text ≠ '/' :: '*' :: rest) (b : Option Char) : commentPattern b text = none := by
  unfold commentPattern
  split
  · exact absurd rfl (hline _)
  · exact absurd rfl (hblock _)
  · rfl

theorem ignoresMargins_comment : IgnoresMargins commentPattern where
  before := by
    intro b b' _
    funext text
    unfold commentPattern
    split <;> rfl
  space := by
    intro b c rest hc
    have hslash : c ≠ '/' := ne_of_isScriptSpace hc (by decide)
    exact comment_eq_none (fun _ h => hslash (List.cons.inj h).1) (fun _ h => hslash (List.cons.inj h).1) b
  ending := by
    intro b text
    rw [commentPattern.eq_def b text]
    split
    · rename_i rest
      rw [List.cons_append, List.cons_append, commentPattern, takeWhile_return (by decide)]
    · rename_i rest
      rw [List.cons_append, List.cons_append, commentPattern, blockCloseLength_return]
    · rename_i hline hblock
      refine comment_eq_none (fun _ h => ?_) (fun _ h => ?_) b
      · obtain ⟨rest, htext⟩ := exists_pair_of_return (by decide) h
        exact hline rest htext
      · obtain ⟨rest, htext⟩ := exists_pair_of_return (by decide) h
        exact hblock rest htext

theorem ignoresMargins_quoted : IgnoresMargins quotedPattern where
  before := by
    intro b b' _
    funext text
    cases text <;> rfl
  space := by
    intro b c rest hc
    rw [quotedPattern, isQuote_of_isScriptSpace hc]
    rfl
  ending := by
    intro b text
    cases text with
    | nil => rfl
    | cons c rest =>
      rw [List.cons_append, quotedPattern, quotedPattern]
      split
      · rename_i hquote
        rw [quotedBodyLength_return]
        rintro rfl
        cases hquote
      · rfl

theorem ignoresMargins_word {words : List (List Char)} (hwords : [] ∉ words) : IgnoresMargins (wordPattern words) where
  before := by
    intro b b' h
    funext text
    rw [wordPattern, wordPattern, h]
  space := by
    intro b c rest hc
    rw [wordPattern, List.takeWhile_cons_of_neg (by rw [isWordChar_of_isScriptSpace hc]; simp), if_neg hwords, ite_self]
  ending := by
    intro b text
    rw [wordPattern, wordPattern, takeWhile_return (by decide)]

/-- What a number is where no point stands behind its digits. -/
theorem number_of_no_point {text : List Char} (h : ∀ rest, text.dropWhile Char.isDigit ≠ '.' :: rest)
    (b : Option Char) : numberPattern b text =
      if ((text.takeWhile Char.isDigit).isEmpty || followsWord b) = true then none
      else if startsWord (text.dropWhile Char.isDigit) then none
      else some (text.takeWhile Char.isDigit).length := by
  unfold numberPattern
  dsimp only
  split
  · rfl
  · split
    · rename_i rest hpoint
      exact absurd hpoint (h rest)
    · rfl

theorem ignoresMargins_number : IgnoresMargins numberPattern where
  before := by
    intro b b' h
    funext text
    rw [numberPattern, numberPattern, h]
  space := by
    intro b c rest hc
    rw [numberPattern, List.takeWhile_cons_of_neg (by rw [isDigit_of_isScriptSpace hc]; simp)]
    rfl
  ending := by
    intro b text
    by_cases hpoint : ∃ rest, text.dropWhile Char.isDigit = '.' :: rest
    · obtain ⟨rest, hrest⟩ := hpoint
      simp only [numberPattern, takeWhile_return (p := Char.isDigit) (by decide),
        dropWhile_return (p := Char.isDigit) (by decide), hrest, List.cons_append, startsWord_return]
    · have hnone : ∀ rest, text.dropWhile Char.isDigit ≠ '.' :: rest := fun rest h => hpoint ⟨rest, h⟩
      rw [number_of_no_point hnone, number_of_no_point, takeWhile_return (by decide), dropWhile_return (by decide),
        startsWord_return]
      intro rest h
      rw [dropWhile_return (by decide)] at h
      cases htail : text.dropWhile Char.isDigit with
      | nil =>
        rw [htail] at h
        cases h
      | cons c more =>
        rw [htail] at h
        exact hnone more (by rw [htail, (List.cons.inj h).1])

theorem accepts_strict_cons (c : Char) (rest : List Char) : AttributeTail.strict.accepts (c :: rest) =
    (c = '=' && !(rest.head?.any fun c => c = '=' || c = '>')) := by
  by_cases hc : c = '='
  · subst hc
    rfl
  · rw [AttributeTail.accepts]
    · simp [hc]
    · exact fun _ h => hc (List.cons.inj h).1

theorem accepts_return (tail : AttributeTail) (text : List Char) :
    tail.accepts (text ++ ['\r']) = tail.accepts text := by
  cases tail with
  | strict =>
    cases text with
    | nil => rfl
    | cons c rest => rw [List.cons_append, accepts_strict_cons, accepts_strict_cons, head?_return rest (by decide)]
  | loose =>
    rw [AttributeTail.accepts, AttributeTail.accepts, List.dropWhile_append]
    split
    · rename_i hempty
      rw [List.isEmpty_iff.1 hempty]
      decide
    · rename_i hne
      rw [List.head?_append_of_ne_nil _ (by simpa using hne)]

theorem ignoresMargins_attribute (tail : AttributeTail) : IgnoresMargins (attributePattern tail) where
  before := by
    intro b b' h
    funext text
    rw [attributePattern, attributePattern, h]
  space := by
    intro b c rest hc
    rw [attributePattern, List.takeWhile_cons_of_neg (by rw [isAttributeChar_of_isScriptSpace hc]; simp)]
    rfl
  ending := by
    intro b text
    rw [attributePattern, attributePattern, takeWhile_return (by decide), dropWhile_return (by decide),
      startsWord_return, accepts_return]

theorem closesTagName_cons (c : Char) (rest : List Char) : closesTagName (c :: rest) =
    (c = '>' || c = '/' && rest.head?.any (· = '>') || isScriptSpace c) := by
  by_cases hbracket : c = '>'
  · subst hbracket
    rfl
  · by_cases hslash : c = '/' ∧ rest.head? = some '>'
    · obtain ⟨rfl, hnext⟩ := hslash
      obtain ⟨more, rfl⟩ := List.head?_eq_some_iff.1 hnext
      rfl
    · have hpair : (decide (c = '/') && rest.head?.any (· = '>')) = false := by
        rw [Bool.and_eq_false_iff]
        by_cases hc : c = '/'
        · refine Or.inr (Bool.eq_false_iff.2 fun hany => hslash ⟨hc, ?_⟩)
          obtain ⟨d, hd, hgt⟩ := (Option.any_eq_true ..).1 hany
          rw [hd, of_decide_eq_true hgt]
        · exact Or.inl (decide_eq_false hc)
      rw [closesTagName, hpair, decide_eq_false hbracket, Bool.false_or, Bool.false_or]
      · exact fun h => hbracket h
      · intro more h hrest
        exact hslash ⟨h, by rw [hrest]; rfl⟩

theorem closesTagName_return {text : List Char} (hne : text ≠ []) :
    closesTagName (text ++ ['\r']) = closesTagName text := by
  obtain ⟨c, rest, rfl⟩ := List.exists_cons_of_ne_nil hne
  rw [List.cons_append, closesTagName_cons, closesTagName_cons, head?_return rest (by decide)]

theorem startsTagName_return {text : List Char} (hclose : '>' ∈ text) :
    startsTagName (text ++ ['\r']) = startsTagName text := by
  cases text with
  | nil => cases hclose
  | cons c rest =>
    by_cases hc : c = '>'
    · subst hc
      rfl
    · have hrest : '>' ∈ rest := (List.mem_cons.1 hclose).resolve_left (Ne.symm hc)
      have hname : rest.dropWhile Char.isAlphanum ≠ [] := by
        intro h
        have hall := List.dropWhile_eq_nil_iff.1 h '>' hrest
        cases hall
      rw [List.cons_append, startsTagName, startsTagName, dropWhile_return (by decide), closesTagName_return hname]

theorem opensTag_of_ne {c : Char} (hc : c ≠ '<') (rest : List Char) : opensTag (c :: rest) = false := by
  unfold opensTag
  split
  · rename_i h
    exact absurd (List.cons.inj h).1 hc
  · rename_i h
    exact absurd (List.cons.inj h).1 hc
  · rfl

theorem opensTag_return {text : List Char} (hclose : '>' ∈ text) : opensTag (text ++ ['\r']) = opensTag text := by
  match text, hclose with
  | c :: rest, hclose =>
    by_cases hc : c = '<'
    · subst hc
      have hrest : '>' ∈ rest := (List.mem_cons.1 hclose).resolve_left (by decide)
      match rest, hrest with
      | d :: more, hrest =>
        by_cases hd : d = '/'
        · subst hd
          exact startsTagName_return ((List.mem_cons.1 hrest).resolve_left (by decide))
        · have hslash : ∀ more', d :: more ≠ '/' :: more' := fun _ h => hd (List.cons.inj h).1
          have hslash' : ∀ more', d :: more ++ ['\r'] ≠ '/' :: more' := fun _ h => hd (List.cons.inj h).1
          rw [List.cons_append, opensTag, opensTag, startsTagName_return hrest]
          · exact hslash
          · exact hslash'
    · rw [List.cons_append, opensTag_of_ne hc, opensTag_of_ne hc]

theorem ignoresMargins_tag : IgnoresMargins tagPattern where
  before := fun _ => rfl
  space := by
    intro b c rest hc
    rw [tagPattern, opensTag_of_ne (ne_of_isScriptSpace hc (by decide))]
    rfl
  ending := by
    intro b text
    rw [tagPattern, tagPattern]
    by_cases hclose : '>' ∈ text
    · have hfind : (text.findIdx? (· = '>')).isSome := by
        rw [List.findIdx?_isSome]
        exact List.any_eq_true.2 ⟨'>', hclose, by decide⟩
      obtain ⟨n, hn⟩ := Option.isSome_iff_exists.1 hfind
      rw [opensTag_return hclose, List.findIdx?_append, hn, Option.some_or]
    · have hnone : ∀ t : List Char, '>' ∉ t → t.findIdx? (· = '>') = none := by
        intro t ht
        rw [List.findIdx?_eq_none_iff]
        intro c hc
        exact decide_eq_false fun h => ht (h ▸ hc)
      have hreturn : '>' ∉ text ++ ['\r'] := by
        rw [List.mem_append, not_or]
        exact ⟨hclose, by decide⟩
      rw [hnone _ hclose, hnone _ hreturn, Option.map_none, ite_self, ite_self]

theorem IgnoresMargins.eq_none_of_nil {pattern : Pattern} (hpattern : pattern.IgnoresMargins) (b : Option Char) :
    pattern b [] = none := by
  rw [← hpattern.ending b []]
  exact hpattern.space b [] (by decide)

end Pattern

namespace Rule

theorem ignoresMargins_of_mem_withTail (tail : AttributeTail) : ∀ rule ∈ withTail tail, rule.pattern.IgnoresMargins :=
  forall_withTail tail Pattern.ignoresMargins_comment Pattern.ignoresMargins_quoted
    (Pattern.ignoresMargins_word (by decide)) (Pattern.ignoresMargins_word (by decide)) Pattern.ignoresMargins_number
    Pattern.ignoresMargins_tag (Pattern.ignoresMargins_attribute tail)

end Rule

/-- Rules whose matches margins do not change. -/
def MarginFree (rules : List Rule) : Prop :=
  ∀ rule ∈ rules, rule.pattern.IgnoresMargins ∧ rule.pattern.Bounded

/-- **No rule looks at margins.** -/
theorem marginFree_withTail (tail : AttributeTail) : MarginFree (Rule.withTail tail) :=
  fun rule hrule => ⟨Rule.ignoresMargins_of_mem_withTail tail rule hrule, Rule.bounded_of_mem_withTail tail rule hrule⟩

end JsxView
