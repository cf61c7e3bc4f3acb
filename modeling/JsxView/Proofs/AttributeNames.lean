import JsxView.Proofs.StandsAt
/-!
# AttributeNames — what the two rules for names of attributes have in common

Both rules take the whole run of letters and hyphens from a word border on; they differ in what has to stand behind it.
`AttributeRange` says so for either (`takes_attribute`).  What the scanner wants behind a name is what the substitution
chain wants, without white space (`Follows.loose`), so wherever the one rule matches the other does.

Every token of a line, and every token inside a tag, is what the scanner's rule of its category takes there
(`takes_of_mem_tokenize`), so what is known of a rule is known of its tokens.
-/
namespace JsxView

namespace AttributeTail

/-- What has to stand behind a name. -/
def Follows : AttributeTail → List Char → Prop
  | strict, text => ∃ rest, text = '=' :: rest ∧ ∀ c ∈ rest.head?, c ≠ '=' ∧ c ≠ '>'
  | loose, text => ∃ space rest, text = space ++ '=' :: rest ∧ ∀ c ∈ space, isScriptSpace c

theorem Follows.loose {text : List Char} : strict.Follows text → AttributeTail.loose.Follows text := by
  rintro ⟨rest, rfl, -⟩
  exact ⟨[], rest, rfl, fun _ hc => by cases hc⟩

theorem accepts_iff (tail : AttributeTail) (text : List Char) : tail.accepts text = true ↔ tail.Follows text := by
  cases tail with
  | strict =>
    match text with
    | [] => simp [accepts, Follows]
    | [c] => by_cases hc : c = '=' <;> simp [Pattern.accepts_strict_cons, Follows, hc]
    | c :: d :: rest => by_cases hc : c = '=' <;> simp [Pattern.accepts_strict_cons, Follows, hc]
  | loose =>
    rw [accepts, decide_eq_true_iff]
    constructor
    · intro hhead
      obtain ⟨rest, hrest⟩ := List.head?_eq_some_iff.1 hhead
      refine ⟨text.takeWhile isScriptSpace, rest, ?_, fun _ => List.mem_takeWhile_imp⟩
      rw [← hrest, List.takeWhile_append_dropWhile]
    · rintro ⟨space, rest, rfl, hspace⟩
      have hequals : ('=' :: rest).head?.any isScriptSpace = false := by
        rw [List.head?_cons, Option.any_some]
        decide
      rw [Regex.dropWhile_append_run hspace hequals, List.head?_cons]

end AttributeTail

/-- **The name of an attribute** between two bytes of a text: from a word border on the whole run of letters and
hyphens, before what has to stand behind it. -/
def AttributeRange (tail : AttributeTail) (text : List Char) (s e : Nat) : Prop :=
  ∃ x name y, text = x ++ (name ++ y) ∧ byteSize x = s ∧ s + byteSize name = e ∧
    followsWord x.getLast? ≠ startsWord (name ++ y) ∧ name ≠ [] ∧ (∀ c ∈ name, isAttributeChar c) ∧
    y.head?.any isAttributeChar = false ∧ tail.Follows y

namespace Pattern

theorem attributePattern_eq_some {tail : AttributeTail} {b : Option Char} {h y : List Char} :
    attributePattern tail b (h ++ y) = some h.length ↔ followsWord b ≠ startsWord (h ++ y) ∧ h ≠ [] ∧
      (∀ c ∈ h, isAttributeChar c) ∧ y.head?.any isAttributeChar = false ∧ tail.Follows y := by
  constructor
  · intro htake
    have hname := advances_attribute tail b (h ++ y)
    obtain ⟨h', y', htext, hlen, hrun, hrest, htail⟩ := describes_attribute tail _ _ _ htake
    obtain ⟨rfl, rfl⟩ := List.append_inj htext hlen.symm
    have hne : h ≠ [] := by
      rintro rfl
      exact hname htake
    have hborder : followsWord b ≠ startsWord (h ++ y) := by
      intro hsame
      simp [attributePattern, hsame] at htake
    refine ⟨hborder, hne, fun c hc => ?_, ?_, (AttributeTail.accepts_iff tail y).1 htail⟩
    · rw [hrun] at hc
      exact List.mem_takeWhile_imp hc
    · have hend := Regex.head?_dropWhile_any isAttributeChar (h ++ y)
      rwa [← hrest] at hend
  · rintro ⟨hborder, hne, hrun, hend, htail⟩
    unfold attributePattern
    rw [Regex.takeWhile_append_run hrun hend, Regex.dropWhile_append_run hrun hend]
    simp [hne, hborder.symm, (AttributeTail.accepts_iff tail y).2 htail]

theorem takes_attribute (tail : AttributeTail) (text : List Char) :
    (attributePattern tail).Takes text = AttributeRange tail text := by
  funext s e
  simp only [Takes, attributePattern_eq_some, AttributeRange]

end Pattern

/-! ## Tokens are what the rules take -/

/-- A place of a text. -/
def Place.In (text : List Char) (p : Place) : Prop :=
  ∃ x y, text = x ++ y ∧ p = .between x y

theorem Place.In.next {text : List Char} {p : Place} (h : p.In text) : p.next.In text := by
  obtain ⟨x, y, rfl, rfl⟩ := h
  cases y with
  | nil => exact ⟨x, [], rfl, rfl⟩
  | cons c y => exact ⟨x ++ [c], y, List.append_cons x c y, Place.next_between x c y⟩

theorem Place.In.skip {text : List Char} : ∀ {p : Place}, p.In text → ∀ n, (p.skip n).In text
  | _, h, 0 => h
  | _, h, n + 1 => h.next.skip n

/-- **What a scan takes is what one of its rules takes** where the match begins. -/
theorem LeftmostScan.takes [Engine] {text : List Char} {rules : List Rule} {limit : Nat} {p : Place}
    {found : List Found} (hbound : ∀ rule ∈ rules, rule.pattern.Bounded) (h : LeftmostScan limit rules p found)
    (hp : p.In text) :
    ∀ f ∈ found, f.site.In text ∧
      ∃ rule ∈ rules, f.category = rule.category ∧ rule.pattern.Takes text f.start f.stop := by
  induction h with
  | done => exact fun _ hf => by cases hf
  | @take rules p f rest hnear _ ih =>
    have hlasting : ∀ rule ∈ lasting limit p rules, rule ∈ rules := fun rule hrule => (mem_lasting.1 hrule).1
    obtain ⟨k, _, hsite, hnext⟩ := hnear.next_eq_skip (onSite_firstWithin _ _)
    obtain ⟨_, _, hfirst, _⟩ := hnear
    intro g hg
    rcases List.mem_cons.1 hg with rfl | hg
    · obtain ⟨rule, hrule, hfound, -⟩ := firstWithin_eq_some hfirst
      have hrule := hlasting rule hrule
      obtain ⟨hat, -, hcategory⟩ := Rule.foundAt_eq_some hfound
      have hin : g.site.In text := by
        rw [hsite]
        exact hp.skip k
      refine ⟨hin, rule, hrule, hcategory, ?_⟩
      obtain ⟨x, y, rfl, hplace⟩ := hin
      rw [← hat, hplace] at hfound
      exact Rule.takes_of_foundAt (hbound rule hrule) hfound
    · rw [hnext] at ih
      obtain ⟨hin, rule, hrule, htakes⟩ := ih (fun rule hrule => hbound rule (hlasting rule hrule)) (hp.skip _) g hg
      exact ⟨hin, rule, hlasting rule hrule, htakes⟩

/-- **Every token of a line is what the rule of its category takes** there, at both levels. -/
theorem takes_of_mem_tokenize [Engine] {line : List Char} : ∀ token ∈ tokenize line, ∀ t ∈ token :: token.children,
    ∃ rule ∈ Rule.scanner, t.category = rule.category ∧ rule.pattern.Takes line t.start t.stop := by
  have hbound : ∀ rule ∈ Rule.scanner, rule.pattern.Bounded := Rule.bounded_of_mem_withTail .strict
  have hnested : ∀ rule ∈ Rule.nested, rule ∈ Rule.scanner := fun rule hrule => (List.mem_filter.1 hrule).1
  have hstart : (Place.start line).In line := ⟨[], line, rfl, rfl⟩
  intro token htoken
  obtain ⟨f, hf, rfl⟩ := List.mem_map.1 htoken
  obtain ⟨hsite, hmatch⟩ := (leftmostScan_scan Rule.wellMade_of_mem_scanner (byteSize line) _).takes hbound hstart f hf
  unfold Token.ofFound
  split
  · refine List.forall_mem_cons.2 ⟨hmatch, fun t ht => ?_⟩
    obtain ⟨g, hg, rfl⟩ := List.mem_map.1 ht
    have hinner := (leftmostScan_scan Rule.wellMade_of_mem_nested f.stop f.site).takes
      (fun rule h => hbound rule (hnested rule h)) hsite
    obtain ⟨-, rule, hrule, htake⟩ := hinner g hg
    exact ⟨rule, hnested rule hrule, htake⟩
  · exact List.forall_mem_cons.2 ⟨hmatch, fun _ ht => by cases ht⟩

theorem AttributeRange.loose {text : List Char} {s e : Nat} (h : AttributeRange .strict text s e) :
    AttributeRange .loose text s e := by
  obtain ⟨x, name, y, htext, hstart, hstop, hborder, hne, hname, hend, htail⟩ := h
  exact ⟨x, name, y, htext, hstart, hstop, hborder, hne, hname, hend, htail.loose⟩

/-- Neither a comparison nor an arrow stands right behind a name that the scanner takes. -/
theorem AttributeRange.not_standsAt {text : List Char} {s e : Nat} (h : AttributeRange .strict text s e) :
    ¬ StandsAt text e ['=', '='] ∧ ¬ StandsAt text e ['=', '>'] := by
  obtain ⟨x, name, y, rfl, rfl, rfl, -, -, -, -, rest, rfl, hrest⟩ := h
  rw [← byteSize_append, ← List.append_assoc]
  constructor
  · intro hstands
    obtain ⟨more, hmore⟩ := (standsAt_append _ _ _).1 hstands
    cases hmore
    exact (hrest '=' rfl).1 rfl
  · intro hstands
    obtain ⟨more, hmore⟩ := (standsAt_append _ _ _).1 hstands
    cases hmore
    exact (hrest '>' rfl).2 rfl

namespace Rule

theorem takes_of_category_attribute (tail : AttributeTail) {rule : Rule} (hrule : rule ∈ withTail tail)
    (hcategory : rule.category = .attribute) (text : List Char) :
    rule.pattern = (Regex.attributeRegex tail).pattern ∧ rule.pattern.Takes text = AttributeRange tail text := by
  have heq := eq_ofCategory tail rule hrule
  rw [hcategory] at heq
  rw [heq]
  exact ⟨(Regex.attribute_eq tail).symm, Pattern.takes_attribute tail text⟩

/-- **The two rules for names of attributes differ in what has to stand behind a name** and in nothing else: at a byte
each of them takes the name that begins there, if one does.  So where the scanner's rule takes a name the one of the
substitution chain takes the same name, and neither a comparison nor an arrow stands right behind a name among the
tokens of a line, wherever the scan had come from. -/
theorem attribute_names [Engine] (text : List Char) :
    (∀ tail, ∀ rule ∈ withTail tail, rule.category = .attribute →
      rule.pattern = (Regex.attributeRegex tail).pattern ∧
      ∀ s e, rule.pattern.Takes text s e ↔ AttributeRange tail text s e) ∧
    (∀ rule ∈ scanner, ∀ rule' ∈ chained, rule.category = .attribute → rule'.category = .attribute →
      ∀ s e, rule.pattern.Takes text s e → rule'.pattern.Takes text s e) ∧
    ∀ token ∈ tokenize text, ∀ t ∈ token :: token.children, t.category = .attribute →
      AttributeRange .strict text t.start t.stop ∧ ¬ StandsAt text t.stop ['=', '='] ∧
        ¬ StandsAt text t.stop ['=', '>'] := by
  refine ⟨fun tail rule hrule hcategory => ?_, fun rule hrule rule' hrule' hcategory hcategory' s e htakes => ?_,
    fun token htoken t ht hcategory => ?_⟩
  · obtain ⟨hpattern, htakes⟩ := takes_of_category_attribute tail hrule hcategory text
    exact ⟨hpattern, fun s e => by rw [htakes]⟩
  · rw [(takes_of_category_attribute .strict hrule hcategory text).2] at htakes
    rw [(takes_of_category_attribute .loose hrule' hcategory' text).2]
    exact htakes.loose
  · obtain ⟨rule, hrule, hsame, htakes⟩ := takes_of_mem_tokenize token htoken t ht
    rw [(takes_of_category_attribute .strict hrule (hsame ▸ hcategory) text).2] at htakes
    exact ⟨htakes, htakes.not_standsAt⟩

/-- In a name that begins with a digit the first border stands before its hyphen, and a comparison leaves no name. -/
theorem attribute_names_hyphen : letI := Engine.backtracking
    (tokenize "<p 2x-y=\"1\" b==c>".toList).map (fun t => t.children.map fun t => (t.category, t.start, t.stop)) =
      [[(.attribute, 5, 7), (.quoted, 8, 11)]] ∧
    AttributeRange .strict "<p 2x-y=\"1\" b==c>".toList 5 7 ∧
    (attributePattern .loose).Takes "<p 2x-y=\"1\" b==c>".toList 5 7 := by
  let := Engine.backtracking
  have htokens : (tokenize "<p 2x-y=\"1\" b==c>".toList).map
      (fun t => t.children.map fun t => (t.category, t.start, t.stop)) = [[(.attribute, 5, 7), (.quoted, 8, 11)]] := by
    decide +kernel
  obtain ⟨hrules, hloose, hnames⟩ := attribute_names "<p 2x-y=\"1\" b==c>".toList
  have hscanner : attributes .strict ∈ scanner := by simp [scanner, withTail]
  have hchained : attributes .loose ∈ chained := by simp [chained, withTail]
  have hrange : AttributeRange .strict "<p 2x-y=\"1\" b==c>".toList 5 7 := by
    obtain ⟨token, htoken, hchildren⟩ := List.mem_map.1 (htokens ▸ List.mem_cons_self)
    obtain ⟨t, ht, hsame⟩ := List.mem_map.1 (hchildren ▸ List.mem_cons_self)
    obtain ⟨hcategory, hbytes⟩ := Prod.mk.inj hsame
    obtain ⟨hstart, hstop⟩ := Prod.mk.inj hbytes
    have hname := (hnames token htoken t (List.mem_cons_of_mem token ht) hcategory).1
    rwa [hstart, hstop] at hname
  exact ⟨htokens, hrange, hloose _ hscanner _ hchained rfl rfl 5 7 (((hrules .strict _ hscanner rfl).2 5 7).2 hrange)⟩

end Rule

end JsxView
