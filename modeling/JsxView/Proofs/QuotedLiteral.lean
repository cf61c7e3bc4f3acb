import JsxView.Proofs.FindAll
/-!
# QuotedLiteral — what the rule for literals finds

The expression for literals loops lazily up to a quote that it refers back to, over escapes and over what is neither
that quote nor a backslash.  `Walk` says the same in steps: behind an opening quote go on to the next quote of its kind,
and over what a backslash takes along.  A walk has at most one end, and it is where the pattern ends
(`Pattern.takes_quoted`), so a search finds the first quote from which a walk succeeds (`Rule.quoted_literals`).
-/
namespace JsxView

/-- **A walk behind an opening quote** up to the quote that closes it, by the characters that it passes. -/
inductive Walk (q : Char) : List Char → Prop where
  | close : Walk q [q]
  | escape {c : Char} {body : List Char} : c ∉ ['\n', '\r', '\u2028', '\u2029'] → Walk q body →
      Walk q ('\\' :: c :: body)
  | plain {c : Char} {body : List Char} : c ≠ q → c ≠ '\\' → Walk q body → Walk q (c :: body)

/-- A quoted literal between two bytes of a text. -/
def QuotedLiteral (text : List Char) (s e : Nat) : Prop :=
  ∃ x q body y, text = x ++ (q :: body ++ y) ∧ byteSize x = s ∧ s + byteSize (q :: body) = e ∧
    q ∈ ['"', '\'', '\x60'] ∧ Walk q body

/-- Another kind of quote is passed like any other character. -/
theorem walk_other_quote {q q' : Char} (hquote : q' ∈ ['"', '\'', '\x60']) (hne : q' ≠ q) {body : List Char} :
    Walk q (q' :: body) ↔ Walk q body := by
  have hescape : q' ≠ '\\' := by
    rintro rfl
    exact absurd hquote (by decide)
  constructor
  · intro h
    cases h with
    | close => exact absurd rfl hne
    | escape => exact absurd rfl hescape
    | plain _ _ h => exact h
  · exact .plain hne hescape

namespace Pattern

theorem walk_of_quotedBodyLength {q : Char} {text : List Char} {n : Nat} (hn : quotedBodyLength q text = some n) :
    ∃ body y, text = body ++ y ∧ body.length = n ∧ Walk q body := by
  fun_induction quotedBodyLength q text generalizing n with
  | case1 => cases hn
  | case2 rest =>
    cases hn
    exact ⟨[q], rest, rfl, rfl, .close⟩
  | case3 => cases hn
  | case4 => cases hn
  | case5 d more hplain hopen ih =>
    obtain ⟨m, hm, rfl⟩ := Option.map_eq_some_iff.1 hn
    obtain ⟨body, y, rfl, rfl, hwalk⟩ := ih hm
    exact ⟨'\\' :: d :: body, y, rfl, rfl, .escape (by simpa [isLineTerminator] using hplain) hwalk⟩
  | case6 c rest hopen hescape ih =>
    obtain ⟨m, hm, rfl⟩ := Option.map_eq_some_iff.1 hn
    obtain ⟨body, y, rfl, rfl, hwalk⟩ := ih hm
    exact ⟨c :: body, y, rfl, rfl, .plain hopen hescape hwalk⟩

theorem quotedBodyLength_of_walk {q : Char} (hq : q ≠ '\\') {body : List Char} (h : Walk q body) (y : List Char) :
    quotedBodyLength q (body ++ y) = some body.length := by
  induction h with
  | close =>
    rw [List.singleton_append, quotedBodyLength.eq_def]
    simp
  | @escape c body hplain _ ih =>
    have hend : isLineTerminator c = false := by simpa [isLineTerminator] using hplain
    rw [List.cons_append, List.cons_append, quotedBodyLength.eq_def]
    simp [Ne.symm hq, hend, ih]
  | @plain c body hopen hescape _ ih =>
    rw [List.cons_append, quotedBodyLength.eq_def]
    simp [hopen, hescape, ih]

/-- **What the pattern for literals takes is a quote and a walk** behind it. -/
theorem quotedPattern_eq_some {before : Option Char} {h y : List Char} :
    quotedPattern before (h ++ y) = some h.length ↔
      ∃ q body, h = q :: body ∧ q ∈ ['"', '\'', '\x60'] ∧ Walk q body := by
  constructor
  · intro htake
    cases h with
    | nil => exact absurd htake (advances_quoted before y)
    | cons q body =>
      by_cases hq : isQuote q
      · rw [List.cons_append, quotedPattern, if_pos hq] at htake
        obtain ⟨n, hn, hlen⟩ := Option.map_eq_some_iff.1 htake
        obtain ⟨body', y', hsplit, rfl, hwalk⟩ := walk_of_quotedBodyLength hn
        obtain rfl := List.append_inj_left hsplit (Nat.succ.inj hlen).symm
        exact ⟨q, body, rfl, by simpa [isQuote] using hq, hwalk⟩
      · rw [List.cons_append, quotedPattern, if_neg hq] at htake
        cases htake
  · rintro ⟨q, body, rfl, hq, hwalk⟩
    have hquote : isQuote q := by simpa [isQuote] using hq
    rw [List.cons_append, quotedPattern, if_pos hquote,
      quotedBodyLength_of_walk (Regex.ne_backslash_of_isQuote hquote) hwalk]
    rfl

theorem takes_quoted (text : List Char) : quotedPattern.Takes text = QuotedLiteral text := by
  funext s e
  apply propext
  constructor
  · rintro ⟨x, h, y, rfl, hs, he, htake⟩
    obtain ⟨q, body, rfl, hq, hwalk⟩ := quotedPattern_eq_some.1 htake
    exact ⟨x, q, body, y, rfl, hs, he, hq, hwalk⟩
  · rintro ⟨x, q, body, y, rfl, hs, he, hq, hwalk⟩
    exact ⟨x, q :: body, y, rfl, hs, he, quotedPattern_eq_some.2 ⟨q, body, rfl, hq, hwalk⟩⟩

end Pattern

namespace Rule

/-- **The rule for literals finds exactly the quoted literals**: a search from a place that is not given up finds the
first quote from which a walk to its closing quote succeeds, up to the end of the walk, and nothing where no walk
succeeds.  From such a place a quote that is not closed hides no literal behind it, and other kinds of quote inside are
passed like any other character. -/
theorem quoted_literals [Engine] (tail : AttributeTail) {rule : Rule} (hrule : rule ∈ withTail tail)
    (hquoted : rule.category = .quoted) (text : List Char) :
    rule.pattern = Regex.quotedRegex.pattern ∧
    (∀ start, IsCut text start → ∀ r,
      rule.findAt text start = r ↔ NextUnless (rule.givesUpAt text) (QuotedLiteral text) start r) ∧
    (∀ x q rest, text = x ++ q :: rest → rule.givesUpAt text (byteSize x) = false →
      (∀ e, ¬ QuotedLiteral text (byteSize x) e) →
      rule.findAt text (byteSize x) = rule.findAt text (byteSize (x ++ [q]))) ∧
    ∀ q, ∀ q' ∈ ['"', '\'', '\x60'], q' ≠ q → ∀ body, Walk q (q' :: body) ↔ Walk q body := by
  have hmade := wellMade_of_mem_withTail tail rule hrule
  have hliterals := eq_ofCategory tail rule hrule
  rw [hquoted] at hliterals
  have hpattern : rule.pattern = Regex.quotedRegex.pattern := by
    rw [hliterals]
    exact Regex.quoted_eq.symm
  have htakes : rule.pattern.Takes text = QuotedLiteral text := by
    rw [hpattern, Regex.quoted_eq, Pattern.takes_quoted]
  refine ⟨hpattern, fun start hstart r => ?_, fun x q rest htext hup hnone => ?_, fun q q' hq' hne _ => ?_⟩
  · rw [← htakes]
    exact findAt_eq_iff hmade hstart r
  · rw [← htakes] at hnone
    subst htext
    exact findAt_of_not_takes hmade hup hnone
  · exact walk_other_quote hq' hne

/-- A back quote that is never closed, and behind it a literal with an escaped quote and one of another kind inside. -/
theorem quoted_literals_unclosed : letI := Engine.backtracking
    literals ∈ withTail .strict ∧
    literals.findAt "\x60 'a\\'\"b'".toList 0 = some (2, 9) ∧
    Next (QuotedLiteral "\x60 'a\\'\"b'".toList) 0 (some (2, 9)) := by
  let := Engine.backtracking
  have hrule : literals ∈ withTail .strict := by simp [withTail]
  have hfound : literals.findAt "\x60 'a\\'\"b'".toList 0 = some (2, 9) := by decide +kernel
  have hnext := ((quoted_literals .strict hrule rfl "\x60 'a\\'\"b'".toList).2.1 0 (by decide) _).1 hfound
  exact ⟨hrule, hfound, (nextUnless_some.1 hnext).2⟩

/-- A quote that is never closed, with a thousand escaped ones behind it, hides a literal. -/
theorem literal_hidden : letI := Engine.backtracking
    let text := '"' :: (Regex.escapes 500 ++ " 'x'".toList)
    literals.findAt text 0 = none ∧ QuotedLiteral text 2002 2005 ∧
    ¬ ∀ start, IsCut text start → ∀ r, literals.findAt text start = r ↔ Next (QuotedLiteral text) start r := by
  let := Engine.backtracking
  intro text
  have hunclosed : Regex.Unclosed '"' _ " 'x'".toList := Regex.unclosed_of_not_mem (by decide) (by decide)
  have hnone : literals.findAt text 0 = none := findAt_of_givesUp (Regex.givesUp_escapes hunclosed (by decide) 0)
  have hliteral : QuotedLiteral text 2002 2005 := by
    refine ⟨'"' :: (Regex.escapes 500 ++ [' ']), '\'', ['x', '\''], [], ?_, ?_, rfl, by decide, ?_⟩
    · rw [List.cons_append, List.append_assoc]
      rfl
    · rw [byteSize_cons, byteSize_append, Regex.byteSize_escapes]
      rfl
    · exact .plain (by decide) (by decide) .close
  refine ⟨hnone, hliteral, fun h => ?_⟩
  have hnext : Next (QuotedLiteral text) 0 none := (h 0 (isCut_zero text) none).1 hnone
  exact absurd (hnext _ _ hliteral) (by decide)

end Rule

end JsxView
