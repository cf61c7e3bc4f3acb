import JsxView.Proofs.Margins
import JsxView.Proofs.Passes
/-!
# MarginSearch — searches and passes on a line with margins

A line that is indented and ended by a carriage return has the places of the line itself, each as many bytes further on
as the indentation has (`Place.Indented`), and two more kinds of places, in the indentation and before the return, where
no rule matches.  So what is nearest from a place is nearest further on, also from a place in the white space in front
of it (`Place.Margined.nearest`), and a pass of the chain, whatever the passes before it left, keeps the margins where
they are (`Rule.substitute_margins`).

A search that begins before the margins has more to do than one on the line, and it may be this search that the engine
gives up, and not the other.  The passes have to come out alike: at the same ones of their searches the engine has to
give up on both lines, or on none (`PassesAlike`).
-/
namespace JsxView

/-- **The same place of a line with margins**, `n` bytes further on and with a carriage return at the end. -/
structure Place.Indented (n : Nat) (p q : Place) : Prop where
  offset : q.offset = n + p.offset
  before : followsWord q.before = followsWord p.before
  after : q.after = p.after ++ ['\r']

/-- **A place in front of the same place of a line with margins**, with white space between. -/
structure Place.Margined (n : Nat) (indent : List Char) (p q : Place) : Prop where
  behind : p.Indented n (q.skip indent.length)
  after : q.after = indent ++ (p.after ++ ['\r'])
  blank : ∀ c ∈ indent, isScriptSpace c

/-- **The same match on a line with margins**. -/
structure Found.Indented (n : Nat) (f g : Found) : Prop where
  category : g.category = f.category
  length : g.length = f.length
  site : f.site.Indented n g.site
  fits : f.length ≤ f.site.after.length

variable {n : Nat} {indent : List Char}

namespace Place.Indented

variable {p q : Place} (h : p.Indented n q)
include h

theorem next (hne : p.after ≠ []) : p.next.Indented n q.next := by
  obtain ⟨c, rest, hp⟩ := List.exists_cons_of_ne_nil hne
  have hq : q.after = c :: (rest ++ ['\r']) := by rw [h.after, hp, List.cons_append]
  rw [Place.next, Place.next, hp, hq]
  exact ⟨by show q.offset + _ = n + (p.offset + _); rw [h.offset, Nat.add_assoc], rfl, rfl⟩

theorem skip {k : Nat} (hk : k ≤ p.after.length) : (p.skip k).Indented n (q.skip k) := by
  induction k generalizing p q with
  | zero => exact h
  | succ k ih =>
    have hne : p.after ≠ [] := List.length_pos_iff.1 (by omega)
    refine ih (h.next hne) ?_
    rw [Place.after_next, List.length_drop]
    omega

theorem length_after : q.after.length = p.after.length + 1 := by
  rw [h.after, List.length_append, List.length_singleton]

theorem margined : p.Margined n [] q :=
  ⟨h, h.after, nofun⟩

end Place.Indented

namespace Found.Indented

variable {f g : Found} (h : f.Indented n g)
include h

theorem start : g.start = n + f.start :=
  h.site.offset

theorem text : g.text = f.text := by
  rw [Found.text, Found.text, h.length, h.site.after, List.take_append_of_le_length h.fits]

theorem stop : g.stop = n + f.stop := by
  rw [Found.stop, Found.stop, h.text, h.start, Nat.add_assoc]

theorem next : f.next.Indented n g.next := by
  rw [Found.next, Found.next, h.length]
  exact h.site.skip h.fits

end Found.Indented

theorem followsWord_skip_indent : ∀ {indent : List Char}, (∀ c ∈ indent, isScriptSpace c) → ∀ {p : Place}
    {text : List Char}, followsWord p.before = false → p.after = indent ++ text →
      followsWord (p.skip indent.length).before = false
  | [], _, _, _, hp, _ => hp
  | c :: indent, hindent, p, text, _, hafter => by
    have hnext : p.next = ⟨p.offset + c.utf8Size, some c, indent ++ text⟩ := by
      rw [Place.next, hafter]
      rfl
    have hc : isScriptSpace c := hindent c List.mem_cons_self
    have hword : followsWord p.next.before = false := by
      rw [hnext]
      exact isWordChar_of_isScriptSpace hc
    exact followsWord_skip_indent (fun d hd => hindent d (List.mem_cons_of_mem _ hd)) hword (congrArg Place.after hnext)

/-- The beginning of a line and that of the line with margins. -/
theorem margined_start (hindent : ∀ c ∈ indent, isScriptSpace c) (line : List Char) :
    (Place.start line).Margined (byteSize indent) indent (Place.start (indent ++ line ++ ['\r'])) where
  behind :=
    { offset := by
        rw [Place.offset_skip, List.append_assoc]
        show 0 + byteSize ((indent ++ (line ++ ['\r'])).take indent.length) = byteSize indent + 0
        rw [List.take_left, Nat.zero_add, Nat.add_zero]
      before := followsWord_skip_indent hindent rfl (List.append_assoc ..)
      after := by
        rw [Place.after_skip, List.append_assoc]
        exact List.drop_left }
  after := List.append_assoc ..
  blank := hindent

/-! ## Answers that are the same further on -/

section

variable {α β : Type} {R : α → β → Prop} {a a' : Option α} {b b' : Option β}

theorem eq_none_of_rel (h : Option.Rel R none b) : b = none := by
  cases h
  rfl

theorem exists_of_rel {x : α} (h : Option.Rel R (some x) b) : ∃ y, b = some y ∧ R x y := by
  cases h with
  | some hxy => exact ⟨_, rfl, hxy⟩

theorem rel_or (h : Option.Rel R a b) (h' : Option.Rel R a' b') : Option.Rel R (a.or a') (b.or b') := by
  cases h with
  | some hxy => exact .some hxy
  | none => exact h'

theorem rel_filter {p : α → Bool} {q : β → Bool} (h : Option.Rel R a b) (hpq : ∀ x ∈ a, ∀ y, R x y → p x = q y) :
    Option.Rel R (a.filter p) (b.filter q) := by
  cases h with
  | none => exact .none
  | some hxy =>
    rw [Option.filter_some, Option.filter_some, hpq _ rfl _ hxy]
    split
    · exact .some hxy
    · exact .none

end

variable {p q : Place} {t t' : Place → Option Found}

/-- **What is nearest stays nearest** on a line with margins: the return at the end begins no match. -/
theorem Place.Indented.nearest (h : p.Indented n q)
    (hrel : ∀ k ≤ p.after.length, Option.Rel (Found.Indented n) (t (p.skip k)) (t' (q.skip k)))
    (hend : t (p.skip p.after.length) = none) {r : Option Found} (hnear : Nearest t p r) :
    ∃ r', Nearest t' q r' ∧ Option.Rel (Found.Indented n) r r' := by
  have hnone : ∀ k ≤ p.after.length, t (p.skip k) = none → t' (q.skip k) = none :=
    fun k hk hk' => eq_none_of_rel (hk' ▸ hrel k hk)
  cases r with
  | none =>
    -- one place more than on the line: the one before the return, where the line itself has ended
    refine ⟨none, fun k hk => ?_, .none⟩
    rw [h.length_after] at hk
    refine hnone k (Nat.le_of_lt_succ hk) ?_
    rcases Nat.lt_or_eq_of_le (Nat.le_of_lt_succ hk) with hin | rfl
    · exact hnear k hin
    · exact hend
  | some f =>
    obtain ⟨k, hk, hf, hbefore⟩ := hnear
    obtain ⟨g, hg, hfg⟩ := exists_of_rel (hf ▸ hrel k (Nat.le_of_lt hk))
    refine ⟨some g, ⟨k, by rw [h.length_after]; omega, hg, fun j hj => ?_⟩, .some hfg⟩
    exact hnone j (by omega) (hbefore j hj)

namespace Place.Margined

variable (h : p.Margined n indent q)
include h

/-- In the white space the next character is white space. -/
theorem exists_blank {j : Nat} (hj : j < indent.length) :
    ∃ c rest, (q.skip j).after = c :: rest ∧ isScriptSpace c := by
  refine ⟨indent[j], indent.drop (j + 1) ++ (p.after ++ ['\r']), ?_, h.blank _ (List.getElem_mem hj)⟩
  rw [Place.after_skip, h.after, List.drop_append_of_le_length (Nat.le_of_lt hj), List.drop_eq_getElem_cons hj,
    List.cons_append]

/-- **Two nearest answers are the same further on**, where the tests answer alike and not before the margins. -/
theorem nearest (hrel : ∀ k ≤ p.after.length,
      Option.Rel (Found.Indented n) (t (p.skip k)) (t' ((q.skip indent.length).skip k)))
    (hend : t (p.skip p.after.length) = none) (hblank : ∀ j < indent.length, t' (q.skip j) = none)
    {r r' : Option Found} (hnear : Nearest t p r) (hnear' : Nearest t' q r') : Option.Rel (Found.Indented n) r r' := by
  have hlength : indent.length ≤ q.after.length := by
    rw [h.after, List.length_append]
    omega
  obtain ⟨r'', hbehind, hsame⟩ := h.behind.nearest hrel hend hnear
  rwa [(hbehind.of_skip hlength hblank).unique hnear'] at hsame

end Place.Margined

namespace Rule

variable {rule : Rule} (hpattern : rule.pattern.IgnoresMargins) (hbound : rule.pattern.Bounded)

include hpattern

theorem foundAt_end : rule.foundAt (p.skip p.after.length) = none := by
  refine foundAt_eq_none ?_
  rw [Place.after_skip, List.drop_length]
  exact hpattern.eq_none_of_nil _

theorem foundAt_blank (h : p.Margined n indent q) {j : Nat} (hj : j < indent.length) :
    rule.foundAt (q.skip j) = none := by
  obtain ⟨c, rest, hafter, hc⟩ := h.exists_blank hj
  exact foundAt_eq_none (hafter ▸ hpattern.space _ rest hc)

include hbound

theorem foundAt_indented (h : p.Indented n q) :
    Option.Rel (Found.Indented n) (rule.foundAt p) (rule.foundAt q) := by
  have hsame : rule.pattern q.before q.after = rule.pattern p.before p.after := by
    rw [h.after, hpattern.ending, hpattern.before h.before]
  rw [foundAt, foundAt, hsame]
  split
  · rename_i m hmatch
    exact .some ⟨rfl, rfl, h, hbound _ _ _ hmatch⟩
  · exact .none

/-- **Two searches that end alike find the same** on a line and with margins. -/
theorem find_margined [Engine] (h : p.Margined n indent q)
    (halike : Engine.givesUp rule.expression p = Engine.givesUp rule.expression q) :
    Option.Rel (Found.Indented n) (rule.find p) (rule.find q) := by
  rw [find, find, ← halike]
  cases Engine.givesUp rule.expression p with
  | true => exact .none
  | false =>
    exact h.nearest (fun k hk => foundAt_indented hpattern hbound (h.behind.skip hk)) (foundAt_end hpattern)
      (fun j hj => foundAt_blank hpattern h hj) (rule.nearest_nearest p) (rule.nearest_nearest q)

end Rule

/-! ## Passes -/

variable [Engine] {rule : Rule}

/-- The places from which a text is searched for its matches, no more than so many and one. -/
def Rule.searchesFrom (rule : Rule) : Nat → Place → List Place
  | 0, p => [p]
  | searches + 1, p =>
    match rule.find p with
    | none => [p]
    | some f => p :: searchesFrom rule searches f.next

/-- **The places from which a pass searches**: the beginning of the text and the end of each match it finds. -/
def Rule.searches (rule : Rule) (text : List Char) : List Place :=
  rule.searchesFrom text.length (Place.start text)

/-- **Passes of some rules that come out alike** on two texts: of the searches of each pass the engine gives up the same
ones. -/
def PassesAlike : List Rule → List Char → List Char → Prop
  | [], _, _ => True
  | rule :: rules, text, text' =>
    (∀ x ∈ (rule.searches text).zip (rule.searches text'),
      Engine.givesUp rule.expression x.1 = Engine.givesUp rule.expression x.2) ∧
    PassesAlike rules (rule.substitute text) (rule.substitute text')

namespace Rule

theorem head?_searchesFrom : ∀ (searches : Nat) (p : Place), (rule.searchesFrom searches p).head? = some p
  | 0, p => rfl
  | searches + 1, p => by
    rw [searchesFrom]
    cases rule.find p <;> rfl

/-- In front of a match on a line with margins stands what is in front of it on the line, behind the white space. -/
theorem takeBytes_margined (h : p.Margined n indent q) {f g : Found} (hfind : rule.find p = some f)
    (hfg : f.Indented n g) :
    takeBytes (g.start - q.offset) q.after = indent ++ takeBytes (f.start - p.offset) p.after := by
  obtain ⟨-, k, hk, hf, -⟩ := find_eq_some.1 hfind
  have hstart : f.start = p.offset + byteSize (p.after.take k) := by
    rw [Found.start, (foundAt_eq_some hf).1, Place.offset_skip]
  have hoffset := h.behind.offset
  rw [Place.offset_skip, h.after, List.take_left] at hoffset
  have hgap : g.start - q.offset = byteSize indent + byteSize (p.after.take k) := by
    rw [hfg.start, hstart]
    omega
  have hfront : p.after ++ ['\r'] = p.after.take k ++ (p.after.drop k ++ ['\r']) := by
    rw [← List.append_assoc, List.take_append_drop]
  rw [hgap, h.after, takeBytes_byteSize_add, hstart, Nat.add_sub_cancel_left, takeBytes_of_eq_append hfront,
    takeBytes_of_eq_append (List.take_append_drop k p.after).symm]

variable (hpattern : rule.pattern.IgnoresMargins) (hbound : rule.pattern.Bounded)
include hpattern hbound

/-- The pieces from a place on, with margins: one search after the other finds the same match further on. -/
theorem piecesFrom_margins : ∀ (fuel fuel' : Nat) {indent : List Char} {p q : Place}, p.after.length ≤ fuel →
    q.after.length ≤ fuel' → p.Margined n indent q →
    (∀ x ∈ (rule.searchesFrom fuel p).zip (rule.searchesFrom fuel' q),
      Engine.givesUp rule.expression x.1 = Engine.givesUp rule.expression x.2) →
    rule.piecesFrom fuel' q = indent.map .plain ++ rule.piecesFrom fuel p ++ [.plain '\r'] := by
  intro fuel fuel' indent p q hfuel hfuel' h halike
  have hhere : (p, q) ∈ (rule.searchesFrom fuel p).zip (rule.searchesFrom fuel' q) := by
    obtain ⟨ps, hps⟩ := List.head?_eq_some_iff.1 (rule.head?_searchesFrom fuel p)
    obtain ⟨qs, hqs⟩ := List.head?_eq_some_iff.1 (rule.head?_searchesFrom fuel' q)
    rw [hps, hqs]
    exact List.mem_cons_self
  have hrel := find_margined hpattern hbound h (halike _ hhere)
  cases hfind : rule.find p with
  | none =>
    have hfind' := eq_none_of_rel (hfind ▸ hrel)
    rw [piecesFrom_of_find_eq_none hfind, piecesFrom_of_find_eq_none hfind', h.after]
    simp only [List.map_append, List.map_cons, List.map_nil, List.append_assoc]
  | some f =>
    obtain ⟨g, hfind', hfg⟩ := exists_of_rel (hfind ▸ hrel)
    have hshort := length_next_lt hfind
    have hshort' := length_next_lt hfind'
    obtain ⟨fuel, rfl⟩ : ∃ m, fuel = m + 1 := Nat.exists_eq_succ_of_ne_zero (by omega)
    obtain ⟨fuel', rfl⟩ : ∃ m, fuel' = m + 1 := Nat.exists_eq_succ_of_ne_zero (by omega)
    have hrest : ∀ x ∈ (rule.searchesFrom fuel f.next).zip (rule.searchesFrom fuel' g.next),
        Engine.givesUp rule.expression x.1 = Engine.givesUp rule.expression x.2 := by
      intro x hx
      refine halike x ?_
      simp only [searchesFrom, hfind, hfind', List.zip_cons_cons]
      exact List.mem_cons_of_mem _ hx
    have ih := piecesFrom_margins fuel fuel' (by omega) (by omega) hfg.next.margined hrest
    simp only [piecesFrom, hfind, hfind', ih, hfg.text, takeBytes_margined h hfind hfg, List.map_append, List.map_nil,
      List.nil_append, List.append_assoc, List.cons_append]

/-- **A pass leaves margins where they are**, if it comes out alike with them and without. -/
theorem substitute_margins (hindent : ∀ c ∈ indent, isScriptSpace c) {text : List Char}
    (halike : ∀ x ∈ (rule.searches text).zip (rule.searches (indent ++ text ++ ['\r'])),
      Engine.givesUp rule.expression x.1 = Engine.givesUp rule.expression x.2) :
    rule.substitute (indent ++ text ++ ['\r']) = indent ++ rule.substitute text ++ ['\r'] := by
  have hpieces : rule.pieces (indent ++ text ++ ['\r']) = indent.map .plain ++ rule.pieces text ++ [.plain '\r'] :=
    piecesFrom_margins hpattern hbound _ _ (Nat.le_refl _) (Nat.le_refl _) (margined_start hindent text) halike
  rw [substitute, substitute, hpieces, List.flatMap_append, List.flatMap_append, flatMap_map_chars fun _ => rfl]
  rfl

end Rule

theorem substituteAll_margins (hindent : ∀ c ∈ indent, isScriptSpace c) : ∀ {rules : List Rule}, MarginFree rules →
    ∀ {text : List Char}, PassesAlike rules text (indent ++ text ++ ['\r']) →
      substituteAll rules (indent ++ text ++ ['\r']) = indent ++ substituteAll rules text ++ ['\r']
  | [], _, _, _ => rfl
  | rule :: rules, h, text, halike => by
    obtain ⟨hpattern, hbound⟩ := h rule List.mem_cons_self
    have hpass := Rule.substitute_margins hpattern hbound hindent halike.1
    rw [substituteAll_cons, hpass, substituteAll_cons]
    exact substituteAll_margins hindent (fun r hr => h r (List.mem_cons_of_mem _ hr)) (hpass ▸ halike.2)

/-- **The chain leaves margins where they are**, if all its passes come out alike with them and without. -/
theorem highlightChained_margins (hindent : ∀ c ∈ indent, isScriptSpace c) {line : List Char}
    (halike : PassesAlike Rule.chained line (indent ++ line ++ ['\r'])) :
    highlightChained (indent ++ line ++ ['\r']) = indent ++ highlightChained line ++ ['\r'] :=
  substituteAll_margins hindent (marginFree_withTail .loose) halike

end JsxView
