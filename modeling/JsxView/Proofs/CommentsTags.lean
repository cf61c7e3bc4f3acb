import JsxView.Proofs.StandsAt
/-!
# CommentsTags — where comments and tags begin and end

The expression for comments has a loop that takes all it can and one that takes as little as it can, and the one for
tags a slash that belongs to the loop before it or to the end.  `CommentRange` and `TagRange` say the same by what stands
at which byte: a comment goes on to the end of its line or behind the first `*/`, a tag behind the first `>`.  They are
what the patterns take (`takes_comment`, `takes_tag`), so a search finds the first byte where such a range begins, and
what is opened and never closed hides nothing behind it (`Rule.comments_and_tags`).
-/
namespace JsxView

/-- **A comment** from the byte `s` on, up to the end of its line or behind the first `*/` that comes there. -/
inductive CommentRange (text : List Char) (s : Nat) : Nat → Prop where
  | line {e : Nat} : StandsAt text s ['/', '/'] → LineEnd text s e → CommentRange text s e
  | block {i : Nat} : StandsAt text s ['/', '*'] → FirstFrom text ['*', '/'] (s + 2) i → CommentRange text s (i + 2)

/-- What has to follow the name of a tag. -/
def TagNameEnd (rest : List Char) : Prop :=
  ['>'] <+: rest ∨ ['/', '>'] <+: rest ∨ ∃ c more, rest = c :: more ∧ isScriptSpace c ∧ '>' ∈ more

/-- The name of a tag, a letter and the whole run of letters and digits behind it, and what has to follow. -/
def TagName (text : List Char) : Prop :=
  ∃ c name rest, text = c :: (name ++ rest) ∧ c.isAlpha ∧ (∀ d ∈ name, d.isAlphanum) ∧
    rest.head?.any Char.isAlphanum = false ∧ TagNameEnd rest

/-- `<` or `</`, and the name of a tag. -/
def TagOpening (text : List Char) : Prop :=
  ∃ name, (text = '<' :: name ∨ text = '<' :: '/' :: name) ∧ TagName name

/-- **A tag** from the byte `s` on, up to behind the first `>` that comes there. -/
def TagRange (text : List Char) (s e : Nat) : Prop :=
  (∃ x y, text = x ++ y ∧ byteSize x = s ∧ TagOpening y) ∧ ∃ i, FirstFrom text ['>'] s i ∧ e = i + 1

theorem CommentRange.isCut {text : List Char} {s e : Nat} (h : CommentRange text s e) : IsCut text s := by
  cases h with
  | line hopen _ => exact hopen.isCut
  | block hopen _ => exact hopen.isCut

theorem commentRange_line (x rest : List Char) (e : Nat) :
    CommentRange (x ++ '/' :: '/' :: rest) (byteSize x) e ↔
      e = byteSize (x ++ '/' :: '/' :: rest.takeWhile fun c => !isLineTerminator c) := by
  have hend := lineEnd_append x ('/' :: '/' :: rest) e
  have hslash : isLineTerminator '/' = false := by decide
  simp only [List.takeWhile_cons, hslash, Bool.not_false, if_true] at hend
  rw [← hend]
  constructor
  · intro h
    cases h with
    | line _ hline => exact hline
    | block hopen _ =>
      obtain ⟨y, hy⟩ := (standsAt_append _ _ _).1 hopen
      cases hy
  · intro hline
    exact .line ((standsAt_append _ _ _).2 ⟨rest, rfl⟩) hline

theorem blockCloseLength_eq (text : List Char) : blockCloseLength text = lengthThrough ['*', '/'] text := by
  fun_induction blockCloseLength text with
  | case1 => rfl
  | case2 rest =>
    have hfront : ['*', '/'] <+: '*' :: '/' :: rest := ⟨rest, rfl⟩
    rw [lengthThrough, if_pos hfront]
    rfl
  | case3 c rest hopen ih =>
    have hfront : ¬ ['*', '/'] <+: c :: rest := by
      rintro ⟨y, h⟩
      obtain ⟨rfl, hrest⟩ := List.cons.inj h
      exact hopen y rfl hrest.symm
    rw [lengthThrough, if_neg hfront, ih]

theorem commentRange_block (x rest : List Char) (e : Nat) :
    CommentRange (x ++ '/' :: '*' :: rest) (byteSize x) e ↔
      ∃ n, blockCloseLength rest = some n ∧ byteSize (x ++ '/' :: '*' :: rest.take n) = e := by
  have hclose := firstFrom_iff (List.cons_ne_nil '*' ['/']) (x ++ ['/', '*']) rest e
  have hsize : byteSize (x ++ ['/', '*']) = byteSize x + 2 := byteSize_append x _
  simp only [hsize, List.append_assoc, List.cons_append, List.nil_append, ← blockCloseLength_eq] at hclose
  rw [← hclose]
  constructor
  · intro h
    cases h with
    | line hopen _ =>
      obtain ⟨y, hy⟩ := (standsAt_append _ _ _).1 hopen
      cases hy
    | @block i _ hfirst => exact ⟨i, hfirst, rfl⟩
  · rintro ⟨i, hfirst, rfl⟩
    exact .block ((standsAt_append _ _ _).2 ⟨rest, rfl⟩) hfirst

/-! ## Tags -/

theorem TagRange.isCut {text : List Char} {s e : Nat} (h : TagRange text s e) : IsCut text s := by
  obtain ⟨⟨x, y, rfl, rfl, -⟩, -⟩ := h
  exact isCut_append x y

theorem closesTagName_iff (rest : List Char) : closesTagName rest = true ∧ '>' ∈ rest ↔ TagNameEnd rest := by
  cases rest with
  | nil => simp [TagNameEnd, closesTagName]
  | cons c rest =>
    have hspace : isScriptSpace '>' = false := by decide
    rw [Pattern.closesTagName_cons, TagNameEnd, List.cons_prefix_cons, List.cons_prefix_cons]
    constructor
    · rintro ⟨hclose, hmem⟩
      by_cases hc : c = '>'
      · exact Or.inl ⟨hc.symm, List.nil_prefix⟩
      have hmore : '>' ∈ rest := (List.mem_cons.1 hmem).resolve_left (Ne.symm hc)
      by_cases hslash : c = '/' ∧ rest.head?.any (· = '>') = true
      · obtain ⟨d, hd, hgt⟩ := (Option.any_eq_true ..).1 hslash.2
        obtain ⟨more, rfl⟩ := List.head?_eq_some_iff.1 hd
        rw [of_decide_eq_true hgt]
        exact Or.inr (Or.inl ⟨hslash.1.symm, more, rfl⟩)
      · refine Or.inr (Or.inr ⟨c, rest, rfl, ?_, hmore⟩)
        simpa [hc, hslash] using hclose
    · rintro (⟨rfl, -⟩ | ⟨rfl, more, rfl⟩ | ⟨d, more, h, hd, hmem⟩)
      · simp
      · simp
      · obtain ⟨rfl, rfl⟩ := List.cons.inj h
        exact ⟨by simp [hd], List.mem_cons_of_mem _ hmem⟩

/-- The letters and digits of a name are the whole run of them behind its first letter. -/
theorem startsTagName_iff (text : List Char) : startsTagName text = true ∧ '>' ∈ text ↔ TagName text := by
  cases text with
  | nil => simp [TagName, startsTagName]
  | cons c text =>
    rw [startsTagName, Bool.and_eq_true]
    constructor
    · rintro ⟨⟨hc, hclose⟩, hmem⟩
      have hrest : '>' ∈ text.dropWhile Char.isAlphanum := by
        rw [← List.takeWhile_append_dropWhile (p := Char.isAlphanum) (l := text)] at hmem
        rcases List.mem_cons.1 hmem with rfl | hmem
        · cases hc
        · refine (List.mem_append.1 hmem).resolve_left fun hname => ?_
          exact absurd (List.mem_takeWhile_imp hname) (by decide)
      exact ⟨c, _, _, by rw [List.takeWhile_append_dropWhile], hc, fun _ => List.mem_takeWhile_imp,
        Regex.head?_dropWhile_any _ text, (closesTagName_iff _).1 ⟨hclose, hrest⟩⟩
    · rintro ⟨d, name, rest, htext, hc, hname, hend, hclose⟩
      obtain ⟨rfl, rfl⟩ := List.cons.inj htext
      obtain ⟨hcloses, hmem⟩ := (closesTagName_iff rest).2 hclose
      rw [Regex.dropWhile_append_run hname hend]
      exact ⟨⟨hc, hcloses⟩, List.mem_cons_of_mem _ (List.mem_append_right _ hmem)⟩

theorem TagName.head_ne_slash {c : Char} {text : List Char} (h : TagName (c :: text)) : c ≠ '/' := by
  obtain ⟨d, name, rest, htext, hd, -⟩ := h
  obtain ⟨rfl, -⟩ := List.cons.inj htext
  rintro rfl
  cases hd

theorem opensTag_iff (text : List Char) : opensTag text = true ∧ '>' ∈ text ↔ TagOpening text := by
  unfold TagOpening
  match text with
  | [] => simp [opensTag]
  | c :: rest =>
    by_cases hc : c = '<'
    · subst hc
      match rest with
      | [] => simp [opensTag, startsTagName, TagName]
      | d :: more =>
        by_cases hd : d = '/'
        · subst hd
          have hname := startsTagName_iff more
          have hslash : ¬ TagName ('/' :: more) := fun h => h.head_ne_slash rfl
          simp [opensTag, hname, hslash, or_and_right, exists_or]
        · have hopen : opensTag ('<' :: d :: more) = startsTagName (d :: more) := by
            rw [opensTag]
            exact fun _ h => hd (List.cons.inj h).1
          have hname := startsTagName_iff (d :: more)
          simp [hopen, ← hname, hd]
    · rw [Pattern.opensTag_of_ne hc]
      simp [hc]

theorem findIdx?_eq (text : List Char) :
    (text.findIdx? (· = '>')).map (· + 1) = lengthThrough ['>'] text := by
  induction text with
  | nil => rfl
  | cons c text ih =>
    rw [lengthThrough, ← ih, List.findIdx?_cons]
    by_cases hc : c = '>'
    · simp [hc]
    · simp [hc, Ne.symm hc]

theorem tagRange_append (x y : List Char) (e : Nat) : TagRange (x ++ y) (byteSize x) e ↔
    opensTag y = true ∧ ∃ n, lengthThrough ['>'] y = some n ∧ byteSize (x ++ y.take n) = e := by
  have hclose := firstFrom_iff (List.cons_ne_nil '>' []) x y e
  rw [← hclose, TagRange]
  constructor
  · rintro ⟨⟨u, z, htext, hsize, hopen⟩, hend⟩
    obtain ⟨rfl, rfl⟩ := append_inj_of_byteSize_eq htext hsize.symm
    exact ⟨((opensTag_iff y).2 hopen).1, hend⟩
  · rintro ⟨hopen, i, hfirst, rfl⟩
    have hmem : '>' ∈ y := by
      obtain ⟨j, rfl, hj⟩ := (firstFrom_append x y ['>'] i).1 hfirst
      exact exists_standsAt_singleton.1 ⟨j, hj.1.2⟩
    exact ⟨⟨x, y, rfl, rfl, (opensTag_iff y).1 ⟨hopen, hmem⟩⟩, i, hfirst, rfl⟩

namespace Pattern

/-- **The pattern for comments takes the comments.** -/
theorem takes_comment : ∀ text, commentPattern.Takes text = CommentRange text := by
  refine takes_eq_of_append CommentRange.isCut fun x y e => ?_
  rw [takes_append describes_comment.bounded]
  by_cases hline : ['/', '/'] <+: y
  · obtain ⟨rest, rfl⟩ := hline
    rw [List.cons_append, List.singleton_append, commentRange_line]
    have hrun := List.prefix_iff_eq_take.1 (List.takeWhile_prefix (l := rest) fun c => !isLineTerminator c)
    simp only [commentPattern, Option.some.injEq, exists_eq_left', Nat.add_comm 2, List.take_succ_cons, ← hrun]
    exact eq_comm
  by_cases hblock : ['/', '*'] <+: y
  · obtain ⟨rest, rfl⟩ := hblock
    rw [List.cons_append, List.singleton_append, commentRange_block]
    simp only [commentPattern, Option.map_eq_some_iff]
    constructor
    · rintro ⟨-, ⟨n, hn, rfl⟩, rfl⟩
      exact ⟨n, hn, by rw [Nat.add_comm 2 n]; rfl⟩
    · rintro ⟨n, hn, rfl⟩
      exact ⟨2 + n, ⟨n, hn, rfl⟩, by rw [Nat.add_comm 2 n]; rfl⟩
  · have hnone : commentPattern x.getLast? y = none :=
      comment_eq_none (fun rest h => hline ⟨rest, h.symm⟩) (fun rest h => hblock ⟨rest, h.symm⟩) _
    rw [hnone]
    refine iff_of_false (by simp) fun h => ?_
    cases h with
    | line hopen _ => exact hline ((standsAt_append _ _ _).1 hopen)
    | block hopen _ => exact hblock ((standsAt_append _ _ _).1 hopen)

/-- **The pattern for tags takes the tags.** -/
theorem takes_tag : ∀ text, tagPattern.Takes text = TagRange text := by
  refine takes_eq_of_append TagRange.isCut fun x y e => ?_
  rw [takes_append describes_tag.bounded, tagRange_append, tagPattern]
  by_cases hopen : opensTag y
  · simp [hopen, findIdx?_eq, -byteSize_append]
  · simp [hopen]

end Pattern

namespace Rule

/-- **The rules for comments and tags in closed form**: what their expressions take at a byte is a comment or a tag that
begins there, and nothing where none does.  A search finds the first of them, all matches of a text are found in turn
from the left, and a byte where none begins hides none behind it, whatever is opened there. -/
theorem comments_and_tags [Engine] (tail : AttributeTail) {rule : Rule} (hrule : rule ∈ withTail tail)
    {ranges : List Char → Nat → Nat → Prop}
    (hranges : (rule.category, ranges) ∈ [(.comment, CommentRange), (.tag, TagRange)]) (text : List Char) :
    rule.pattern = rule.expression.pattern ∧
    (∀ s e, rule.pattern.Takes text s e ↔ ranges text s e) ∧
    rule.SearchesAgree (ranges text) text ∧
    ∀ x c rest, text = x ++ c :: rest → (∀ e, ¬ ranges text (byteSize x) e) →
      rule.findAt text (byteSize x) = rule.findAt text (byteSize (x ++ [c])) := by
  have hmade := wellMade_of_mem_withTail tail rule hrule
  have heq := eq_ofCategory tail rule hrule
  obtain ⟨hplain, htakes⟩ : rule.expression.plain = true ∧ rule.pattern.Takes text = ranges text := by
    rcases List.mem_pair.1 hranges with h | h
    · obtain ⟨hcategory, rfl⟩ := Prod.mk.inj h
      rw [heq, hcategory]
      exact ⟨rfl, Pattern.takes_comment text⟩
    · obtain ⟨hcategory, rfl⟩ := Prod.mk.inj h
      rw [heq, hcategory]
      exact ⟨rfl, Pattern.takes_tag text⟩
  -- an expression without look-around is not read by backtracking
  have hup : ∀ start, rule.givesUpAt text start = false := fun start => Engine.plain _ _ hplain
  refine ⟨hmade.expression.symm, fun s e => by rw [htakes], ?_, fun x c rest htext hnone => ?_⟩
  · rw [← htakes]
    exact (hmade.searchesAgree text).agree hup
  · rw [← htakes] at hnone
    subst htext
    exact findAt_of_not_takes hmade (hup _) hnone

/-- A block comment that is never closed, before a line comment, and two `<` that open no tag, before one with a
slash. -/
theorem comments_and_tags_unclosed : letI := Engine.backtracking
    (comments ∈ withTail .strict ∧
      (Category.comment, CommentRange) ∈ [(Category.comment, CommentRange), (.tag, TagRange)] ∧
      comments.findAt "/*/ é // b\r".toList 0 = some (7, 11) ∧
      Next (CommentRange "/*/ é // b\r".toList) 0 (some (7, 11))) ∧
    tags ∈ withTail .loose ∧
      (Category.tag, TagRange) ∈ [(Category.comment, CommentRange), (.tag, TagRange)] ∧
      tags.findAt "a < b <c- </h1 />".toList 0 = some (10, 17) ∧
      Next (TagRange "a < b <c- </h1 />".toList) 0 (some (10, 17)) := by
  let := Engine.backtracking
  have hcomment : comments ∈ withTail .strict := by simp [withTail]
  have htag : tags ∈ withTail .loose := by simp [withTail]
  have hline : comments.findAt "/*/ é // b\r".toList 0 = some (7, 11) := by decide +kernel
  have hslash : tags.findAt "a < b <c- </h1 />".toList 0 = some (10, 17) := by decide +kernel
  have hmem : (Category.tag, TagRange) ∈ [(Category.comment, CommentRange), (.tag, TagRange)] :=
    List.mem_cons_of_mem _ List.mem_cons_self
  refine ⟨⟨hcomment, List.mem_cons_self, hline, ?_⟩, htag, hmem, hslash, ?_⟩
  · exact ((comments_and_tags .strict hcomment List.mem_cons_self _).2.2.1.next 0 (by decide) _).1 hline
  · exact ((comments_and_tags .loose htag hmem _).2.2.1.next 0 (by decide) _).1 hslash

end Rule

end JsxView
