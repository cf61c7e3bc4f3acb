import JsxView.Proofs.FindAll
/-!
# WordRun — words from a list are whole runs of word characters

The expressions for reserved words and for names of the framework try the words of a list one after the other, between
two borders.  A border on each side leaves one word only, the whole run of word characters that stands there, so the
order of the list is of no account (`Regex.word_eq`).  Two such runs never overlap (`WordRun.apart`), so the matches of
a text are all of them that are on the list.
-/
namespace JsxView

/-- **A maximal run of word characters** between two bytes of a text: none stands right before it or right behind. -/
def WordRun (text : List Char) (s e : Nat) (word : List Char) : Prop :=
  ∃ x y, text = x ++ (word ++ y) ∧ byteSize x = s ∧ s + byteSize word = e ∧ word ≠ [] ∧ (∀ c ∈ word, isWordChar c) ∧
    followsWord x.getLast? = false ∧ startsWord y = false

/-- Of two runs neither begins inside the other. -/
theorem WordRun.apart {text word word' : List Char} {s e s' e' : Nat} (h : WordRun text s e word)
    (h' : WordRun text s' e' word') (hle : s ≤ s') (hlt : s' < e) : s = s' := by
  obtain ⟨x, y, htext, rfl, rfl, -, hword, -, -⟩ := h
  obtain ⟨x', y', htext', rfl, rfl, -, -, hbefore, -⟩ := h'
  obtain ⟨u, rfl, hrest⟩ := exists_eq_append_of_byteSize_le (htext.symm.trans htext') hle
  rw [byteSize_append] at hlt
  obtain ⟨v, rfl, -⟩ := exists_eq_append_of_byteSize_le hrest.symm (by omega)
  rcases List.eq_nil_or_concat u with rfl | ⟨u, c, rfl⟩
  · rw [List.append_nil]
  · -- the character before the second run would be one of the first
    have hc : isWordChar c = true := hword c (by simp)
    rw [List.concat_eq_append, ← List.append_assoc, List.getLast?_concat, Regex.followsWord_some, hc] at hbefore
    cases hbefore

namespace Pattern

theorem takes_word {words : List (List Char)} (hwords : ∀ word ∈ words, word ≠ [] ∧ ∀ c ∈ word, isWordChar c)
    (text : List Char) : (wordPattern words).Takes text = fun s e => ∃ word ∈ words, WordRun text s e word := by
  funext s e
  apply propext
  constructor
  · rintro ⟨x, h, y, rfl, rfl, rfl, htake⟩
    obtain ⟨h', y', hsplit, hlen, hbefore, hrun, hmem⟩ := describes_word words _ _ _ htake
    obtain ⟨rfl, rfl⟩ := List.append_inj hsplit hlen.symm
    obtain ⟨hne, hword⟩ := hwords h hmem
    refine ⟨h, hmem, x, y, rfl, rfl, rfl, hne, hword, hbefore, ?_⟩
    have hbehind := ((Regex.spelled_border hword).2 hrun).2
    rwa [List.drop_left] at hbehind
  · rintro ⟨word, hmem, x, y, rfl, rfl, rfl, -, hword, hbefore, hbehind⟩
    have hrun : word = (word ++ y).takeWhile isWordChar :=
      (Regex.spelled_border hword).1 ⟨List.prefix_append word y, by rwa [List.drop_left]⟩
    refine ⟨x, word, y, rfl, rfl, rfl, ?_⟩
    rw [wordPattern]
    simp [← hrun, hbefore, hmem]

/-- Only which words are on the list matters. -/
theorem wordPattern_congr {words words' : List (List Char)} (h : ∀ word, word ∈ words ↔ word ∈ words') :
    wordPattern words = wordPattern words' := by
  funext before text
  simp [wordPattern, h]

end Pattern

namespace Rule

theorem pattern_of_words (tail : AttributeTail) {rule : Rule} (hrule : rule ∈ withTail tail)
    {words : List (List Char)}
    (hwords : (rule.category, words) ∈ [(.keyword, keywords), (.framework, frameworkNames)]) :
    rule.expression = Regex.wordRegex words ∧ ∀ word ∈ words, word ≠ [] ∧ ∀ c ∈ word, isWordChar c := by
  have heq := eq_ofCategory tail rule hrule
  rcases List.mem_pair.1 hwords with h | h
  · obtain ⟨hcategory, rfl⟩ := Prod.mk.inj h
    rw [heq, hcategory]
    exact ⟨rfl, Regex.wordChars_of_mem _ (by simp)⟩
  · obtain ⟨hcategory, rfl⟩ := Prod.mk.inj h
    rw [heq, hcategory]
    exact ⟨rfl, Regex.wordChars_of_mem _ (by simp)⟩

/-- **The rules for reserved words and names of the framework list whole words**: their matches are, in order, all
maximal runs of word characters that are on the list, whatever stands around them and in whatever order the words are
tried.  Where the engine gives the last search up, these are the runs before the place where it began. -/
theorem word_runs [Engine] (tail : AttributeTail) {rule : Rule} (hrule : rule ∈ withTail tail)
    {words : List (List Char)}
    (hwords : (rule.category, words) ∈ [(.keyword, keywords), (.framework, frameworkNames)]) (text : List Char) :
    (∀ s e, (s, e) ∈ rule.findAll text ↔ (∃ word ∈ words, WordRun text s e word) ∧
      (rule.givesUpAt text (searchedTo 0 (rule.findAll text)) = true → s < searchedTo 0 (rule.findAll text))) ∧
    InOrder text 0 (byteSize text) (rule.findAll text) ∧
    ∀ order, order.Perm words → rule.pattern = (Regex.wordRegex order).pattern := by
  obtain ⟨hexpression, hclass⟩ := pattern_of_words tail hrule hwords
  have hmade := wellMade_of_mem_withTail tail rule hrule
  have hpattern : rule.pattern = wordPattern words := by rw [← hmade.expression, hexpression, Regex.word_eq hclass]
  have hturn := inTurn_nextUnless hmade text
  have hlt : ∀ s e, rule.pattern.Takes text s e → s < e := fun _ _ => Pattern.Takes.lt hmade.advances
  have hfun : ∀ s e e', rule.pattern.Takes text s e → rule.pattern.Takes text s e' → e = e' :=
    fun _ _ _ htakes => htakes.functional
  rw [hpattern, Pattern.takes_word hclass] at hturn hlt hfun
  refine ⟨fun s e => ?_, inOrder_findAll hmade text, fun order horder => ?_⟩
  · refine hturn.mem_iff hlt hfun ?_
    rintro s e s' e' ⟨word, -, h⟩ ⟨word', -, h'⟩
    exact h.apart h'
  · have hclass' : ∀ word ∈ order, word ≠ [] ∧ ∀ c ∈ word, isWordChar c :=
      fun word hmem => hclass word (horder.mem_iff.1 hmem)
    rw [hpattern, Regex.word_eq hclass']
    exact Pattern.wordPattern_congr fun word => (horder.mem_iff).symm

/-- A name with more letters than a reserved word has is none, and a letter beyond ASCII ends one. -/
theorem word_runs_between : letI := Engine.backtracking
    reserved ∈ withTail .strict ∧
    (Category.keyword, keywords) ∈ [(.keyword, keywords), (.framework, frameworkNames)] ∧
    reserved.findAll "doing édo do_".toList = [(8, 10)] ∧
    ∃ word ∈ keywords, WordRun "doing édo do_".toList 8 10 word := by
  let := Engine.backtracking
  have hrule : reserved ∈ withTail .strict := by simp [withTail]
  have hall : reserved.findAll "doing édo do_".toList = [(8, 10)] := by decide +kernel
  have hwords : (Category.keyword, keywords) ∈ [(Category.keyword, keywords), (.framework, frameworkNames)] :=
    List.mem_cons_self
  refine ⟨hrule, hwords, hall, (((word_runs .strict hrule hwords "doing édo do_".toList).1 8 10).1 ?_).1⟩
  rw [hall]
  exact List.mem_cons_self

/-- Behind words enough a reserved word is not listed. -/
theorem word_run_missed : letI := Engine.backtracking
    reserved.findAll (Regex.lateWord 19999) = [] ∧
    (∃ word ∈ keywords, WordRun (Regex.lateWord 19999) 40000 40005 word) ∧
    ¬ ∀ s e, (s, e) ∈ reserved.findAll (Regex.lateWord 19999) ↔
      ∃ word ∈ keywords, WordRun (Regex.lateWord 19999) s e word := by
  let := Engine.backtracking
  have hmade : reserved.WellMade := wellMade_of_mem_withTail .strict reserved (by simp [withTail])
  have hall : reserved.findAll (Regex.lateWord 19999) = [] :=
    findAll_of_givesUp hmade (Regex.givesUp_letters _ (by decide) 0)
  have htakes := takes_lateWord 19999
  rw [show reserved.pattern = wordPattern keywords from rfl,
    Pattern.takes_word (Regex.wordChars_of_mem keywords (by simp))] at htakes
  refine ⟨hall, htakes, fun h => ?_⟩
  have hmem := (h 40000 40005).2 htakes
  rw [hall] at hmem
  cases hmem

end Rule

end JsxView
