import JsxView.Proofs.CutShort
import JsxView.Proofs.GivenUp
import JsxView.Proofs.TokenOrder
/-!
# FindAll — the matches of a text, found one by one or all at once

A rule is asked in two ways: where it matches next, from a byte on (`Rule.findAt`), and where it matches in a whole
text (`Rule.findAll`).  Both are pinned to the relation `Pattern.Takes`, which says of two bytes that the pattern,
looking at the first, takes the text up to the second.  Nothing in it says where a search began.

`Next takes pos` is the match that starts first at or behind a byte, and `InTurn` looks for one, goes to its end and
looks for the next.  What `findAt` finds is next (`Rule.next_findAt`), what `findAll` lists is found in turn
(`Pattern.Cut.inTurn`), and since no rule matches without taking a character (`Pattern.Advances`), what is found in turn
is in order and lies over every byte where the rule matches (`InTurn.covers`).
-/
namespace JsxView

/-- The text that a pattern takes where it looks at the byte `s` ends at the byte `e`. -/
def Pattern.Takes (pattern : Pattern) (text : List Char) (s e : Nat) : Prop :=
  ∃ x h y, text = x ++ (h ++ y) ∧ byteSize x = s ∧ s + byteSize h = e ∧ pattern x.getLast? (h ++ y) = some h.length

/-- **The match that starts first** at or behind a byte, if there is any. -/
def Next (takes : Nat → Nat → Prop) (pos : Nat) : Option (Nat × Nat) → Prop
  | some r => takes r.1 r.2 ∧ pos ≤ r.1 ∧ ∀ s e, takes s e → pos ≤ s → r.1 ≤ s
  | none => ∀ s e, takes s e → s < pos

/-- **Ranges found in turn**: one is looked for, then from its end the next one, until nothing is found. -/
inductive InTurn (next : Nat → Option (Nat × Nat) → Prop) : Nat → List (Nat × Nat) → Prop where
  | done {pos : Nat} : next pos none → InTurn next pos []
  | take {pos s e : Nat} {rest : List (Nat × Nat)} : next pos (some (s, e)) → InTurn next e rest →
      InTurn next pos ((s, e) :: rest)

theorem Next.unique {takes : Nat → Nat → Prop} (hfun : ∀ s e e', takes s e → takes s e' → e = e') {pos : Nat}
    {r r' : Option (Nat × Nat)} (h : Next takes pos r) (h' : Next takes pos r') : r = r' := by
  match r, r', h, h' with
  | none, none, _, _ => rfl
  | none, some r', h, ⟨htakes, hpos, _⟩ => exact absurd hpos (Nat.not_le.2 (h _ _ htakes))
  | some r, none, ⟨htakes, hpos, _⟩, h' => exact absurd hpos (Nat.not_le.2 (h' _ _ htakes))
  | some (s, e), some (s', e'), ⟨htakes, hpos, hleast⟩, ⟨htakes', hpos', hleast'⟩ =>
    obtain rfl : s = s' := Nat.le_antisymm (hleast _ _ htakes' hpos') (hleast' _ _ htakes hpos)
    exact congrArg (fun e => some (s, e)) (hfun _ _ _ htakes htakes')

/-- What is next stays next for a search that begins earlier, if no match begins in between. -/
theorem Next.widen {takes : Nat → Nat → Prop} {pos pos' : Nat} {r : Option (Nat × Nat)} (hle : pos ≤ pos')
    (hgap : ∀ s e, takes s e → pos ≤ s → pos' ≤ s) (h : Next takes pos' r) : Next takes pos r := by
  cases r with
  | none => exact fun s e htakes => Nat.lt_of_not_le fun hs => Nat.not_le.2 (h s e htakes) (hgap s e htakes hs)
  | some r =>
    obtain ⟨htakes, hpos, hleast⟩ := h
    exact ⟨htakes, Nat.le_trans hle hpos, fun s e htakes' hs => hleast s e htakes' (hgap s e htakes' hs)⟩

/-- What is next stays next for a search that begins later, as long as it does not begin behind it. -/
theorem Next.later {takes : Nat → Nat → Prop} {pos pos' : Nat} {r : Option (Nat × Nat)} (hle : pos ≤ pos')
    (hbefore : ∀ s e, r = some (s, e) → pos' ≤ s) (h : Next takes pos r) : Next takes pos' r := by
  cases r with
  | none => exact fun s e htakes => Nat.lt_of_lt_of_le (h s e htakes) hle
  | some r =>
    obtain ⟨htakes, -, hleast⟩ := h
    exact ⟨htakes, hbefore r.1 r.2 rfl, fun s e htakes' hs => hleast s e htakes' (Nat.le_trans hle hs)⟩

/-- **What is next**, unless the search for it is given up: then there is no answer. -/
def NextUnless (givesUp : Nat → Bool) (takes : Nat → Nat → Prop) (pos : Nat) (r : Option (Nat × Nat)) : Prop :=
  if givesUp pos then r = none else Next takes pos r

theorem nextUnless_some {givesUp : Nat → Bool} {takes : Nat → Nat → Prop} {pos : Nat} {r : Nat × Nat} :
    NextUnless givesUp takes pos (some r) ↔ givesUp pos = false ∧ Next takes pos (some r) := by
  unfold NextUnless
  cases givesUp pos <;> simp

theorem NextUnless.unique {givesUp : Nat → Bool} {takes : Nat → Nat → Prop}
    (hfun : ∀ s e e', takes s e → takes s e' → e = e') {pos : Nat} {r r' : Option (Nat × Nat)}
    (h : NextUnless givesUp takes pos r) (h' : NextUnless givesUp takes pos r') : r = r' := by
  unfold NextUnless at h h'
  cases hup : givesUp pos with
  | true =>
    rw [hup] at h h'
    exact h.trans h'.symm
  | false =>
    rw [hup] at h h'
    exact h.unique hfun h'

theorem NextUnless.eq_iff {givesUp : Nat → Bool} {takes : Nat → Nat → Prop}
    (hfun : ∀ s e e', takes s e → takes s e' → e = e') {pos : Nat} {r r' : Option (Nat × Nat)}
    (h : NextUnless givesUp takes pos r) : r = r' ↔ NextUnless givesUp takes pos r' := by
  constructor
  · rintro rfl
    exact h
  · exact h.unique hfun

/-- Where the last of some searches begins, each from the end of the range before. -/
def searchedTo : Nat → List (Nat × Nat) → Nat
  | pos, [] => pos
  | _, (_, e) :: rest => searchedTo e rest

namespace InTurn

variable {next : Nat → Option (Nat × Nat) → Prop} {givesUp : Nat → Bool} {takes : Nat → Nat → Prop} {pos : Nat}
  {l : List (Nat × Nat)}

theorem unique (hfun : ∀ pos r r', next pos r → next pos r' → r = r') (h : InTurn next pos l) :
    ∀ {l' : List (Nat × Nat)}, InTurn next pos l' → l = l' := by
  induction h with
  | done hnone =>
    intro l' h'
    cases h' with
    | done => rfl
    | take hsome _ => cases hfun _ _ _ hnone hsome
  | take hsome _ ih =>
    intro l' h'
    cases h' with
    | done hnone => cases hfun _ _ _ hsome hnone
    | take hsome' hrest =>
      cases hfun _ _ _ hsome hsome'
      rw [ih hrest]

/-- A search that answers alike on the bytes it comes by finds the same ranges. -/
theorem congr {next' : Nat → Option (Nat × Nat) → Prop} {P : Nat → Prop}
    (hsame : ∀ pos r, P pos → next pos r → next' pos r) (hend : ∀ pos s e, P pos → next pos (some (s, e)) → P e)
    (h : InTurn next pos l) (hpos : P pos) : InTurn next' pos l := by
  induction h with
  | done hnone => exact .done (hsame _ _ hpos hnone)
  | take hsome _ ih => exact .take (hsame _ _ hpos hsome) (ih (hend _ _ _ hpos hsome))

/-- The search may begin earlier where no match begins in between. -/
theorem widen {pos' : Nat} (hle : pos ≤ pos') (hgap : ∀ s e, takes s e → pos ≤ s → pos' ≤ s)
    (h : InTurn (Next takes) pos' l) : InTurn (Next takes) pos l := by
  cases h with
  | done hnone => exact .done (hnone.widen hle hgap)
  | take hsome hrest => exact .take (hsome.widen hle hgap) hrest

theorem takes_of_mem (h : InTurn (NextUnless givesUp takes) pos l) : ∀ r ∈ l, takes r.1 r.2 := by
  induction h with
  | done => exact fun _ hr => by cases hr
  | take hsome _ ih => exact List.forall_mem_cons.2 ⟨(nextUnless_some.1 hsome).2.1, ih⟩

theorem pos_le (hlt : ∀ s e, takes s e → s < e) (h : InTurn (NextUnless givesUp takes) pos l) :
    ∀ r ∈ l, pos ≤ r.1 := by
  induction h with
  | done => exact fun _ hr => by cases hr
  | take hsome _ ih =>
    obtain ⟨htakes, hpos, -⟩ := (nextUnless_some.1 hsome).2
    have hlt := hlt _ _ htakes
    refine List.forall_mem_cons.2 ⟨hpos, fun r hr => ?_⟩
    have := ih r hr
    omega

theorem sorted (hlt : ∀ s e, takes s e → s < e) (h : InTurn (NextUnless givesUp takes) pos l) :
    l.Pairwise fun a b => a.2 ≤ b.1 := by
  induction h with
  | done => exact .nil
  | take _ hrest ih => exact .cons (hrest.pos_le hlt) ih

theorem le_searchedTo (hlt : ∀ s e, takes s e → s < e) (h : InTurn (NextUnless givesUp takes) pos l) :
    pos ≤ searchedTo pos l ∧ ∀ r ∈ l, r.2 ≤ searchedTo pos l := by
  induction h with
  | done => exact ⟨Nat.le_refl _, fun _ hr => by cases hr⟩
  | take hsome _ ih =>
    obtain ⟨htakes, hpos, -⟩ := (nextUnless_some.1 hsome).2
    have hlt := hlt _ _ htakes
    rw [searchedTo]
    exact ⟨by omega, List.forall_mem_cons.2 ih⟩

/-- **Every byte where something matches lies inside a match** that was found, or behind the search that was given up. -/
theorem covers (h : InTurn (NextUnless givesUp takes) pos l) : ∀ {s e : Nat}, takes s e → pos ≤ s →
    (∃ r ∈ l, r.1 ≤ s ∧ s < r.2) ∨ givesUp (searchedTo pos l) = true ∧ searchedTo pos l ≤ s := by
  induction h with
  | @done pos hnone =>
    intro s e htakes hs
    cases hup : givesUp pos with
    | true => exact Or.inr ⟨hup, hs⟩
    | false =>
      rw [NextUnless, hup] at hnone
      exact absurd hs (Nat.not_le.2 (hnone s e htakes))
  | @take pos s₀ e₀ rest hsome _ ih =>
    intro s e htakes hs
    by_cases hin : s < e₀
    · exact Or.inl ⟨(s₀, e₀), List.mem_cons_self, (nextUnless_some.1 hsome).2.2.2 s e htakes hs, hin⟩
    · refine (ih htakes (Nat.le_of_not_lt hin)).imp_left ?_
      rintro ⟨r, hr, hcover⟩
      exact ⟨r, List.mem_cons_of_mem _ hr, hcover⟩

/-- If the last search is not given up none is. -/
theorem all (h : InTurn (NextUnless givesUp takes) pos l) (hup : givesUp (searchedTo pos l) = false) :
    InTurn (Next takes) pos l := by
  induction h with
  | done hnone =>
    rw [searchedTo] at hup
    rw [NextUnless, hup] at hnone
    exact .done hnone
  | take hsome _ ih => exact .take (nextUnless_some.1 hsome).2 (ih hup)

/-- **Where no two matches overlap, all of them are found** that do not lie behind a search that was given up. -/
theorem mem_iff (h : InTurn (NextUnless givesUp takes) 0 l) (hlt : ∀ s e, takes s e → s < e)
    (hfun : ∀ s e e', takes s e → takes s e' → e = e')
    (hapart : ∀ s e s' e', takes s e → takes s' e' → s ≤ s' → s' < e → s = s') {s e : Nat} :
    (s, e) ∈ l ↔ takes s e ∧ (givesUp (searchedTo 0 l) = true → s < searchedTo 0 l) := by
  constructor
  · intro hmem
    have htakes := h.takes_of_mem _ hmem
    exact ⟨htakes, fun _ => Nat.lt_of_lt_of_le (hlt s e htakes) ((h.le_searchedTo hlt).2 _ hmem)⟩
  · rintro ⟨htakes, hbefore⟩
    rcases h.covers htakes (Nat.zero_le s) with ⟨⟨s', e'⟩, hr, hle, hin⟩ | ⟨hup, hbehind⟩
    · have htakes' := h.takes_of_mem _ hr
      obtain rfl := hapart _ _ _ _ htakes' htakes hle hin
      rwa [hfun _ _ _ htakes htakes']
    · exact absurd (hbefore hup) (Nat.not_lt.2 hbehind)

end InTurn

namespace Pattern

variable {pattern : Pattern} {text : List Char}

theorem takes_behind {x y : List Char} {e : Nat} : pattern.Takes (x ++ y) (byteSize x) e ↔
    ∃ h z, y = h ++ z ∧ byteSize x + byteSize h = e ∧ pattern x.getLast? y = some h.length := by
  constructor
  · rintro ⟨x', h, z, htext, hsize, rfl, htake⟩
    obtain ⟨rfl, rfl⟩ := append_inj_of_byteSize_eq htext hsize.symm
    exact ⟨h, z, rfl, rfl, htake⟩
  · rintro ⟨h, z, rfl, rfl, htake⟩
    exact ⟨x, h, z, rfl, rfl, rfl, htake⟩

theorem takes_append (hbound : pattern.Bounded) (x y : List Char) (e : Nat) :
    pattern.Takes (x ++ y) (byteSize x) e ↔ ∃ n, pattern x.getLast? y = some n ∧ byteSize (x ++ y.take n) = e := by
  rw [takes_behind]
  constructor
  · rintro ⟨h, z, rfl, rfl, htake⟩
    exact ⟨h.length, htake, by rw [List.take_left, byteSize_append]⟩
  · rintro ⟨n, htake, rfl⟩
    refine ⟨y.take n, y.drop n, (List.take_append_drop n y).symm, (byteSize_append _ _).symm, ?_⟩
    rw [htake, List.length_take, Nat.min_eq_left (hbound _ _ _ htake)]

namespace Takes

variable {s e e' : Nat}

theorem functional (h : pattern.Takes text s e) (h' : pattern.Takes text s e') : e = e' := by
  obtain ⟨x, u, y, rfl, rfl, rfl, htake⟩ := h
  obtain ⟨u', y', hsplit, rfl, htake'⟩ := takes_behind.1 h'
  rw [htake] at htake'
  rw [List.append_inj_left hsplit (Option.some.inj htake')]

theorem lt (hadv : pattern.Advances) (h : pattern.Takes text s e) : s < e := by
  obtain ⟨x, u, y, rfl, rfl, rfl, htake⟩ := h
  have hu : u ≠ [] := by
    rintro rfl
    exact hadv _ _ htake
  have := byteSize_pos hu
  omega

theorem isCut (h : pattern.Takes text s e) : IsCut text s ∧ IsCut text e := by
  obtain ⟨x, u, y, rfl, rfl, rfl, -⟩ := h
  refine ⟨isCut_append x _, ?_⟩
  rw [← byteSize_append, ← List.append_assoc]
  exact isCut_append (x ++ u) y

theorem le_byteSize (h : pattern.Takes text s e) : e ≤ byteSize text := by
  obtain ⟨x, u, y, rfl, rfl, rfl, -⟩ := h
  rw [byteSize_append, byteSize_append]
  omega

theorem lt_byteSize (hadv : pattern.Advances) (h : pattern.Takes text s e) : s < byteSize text :=
  Nat.lt_of_lt_of_le (h.lt hadv) h.le_byteSize

end Takes

/-- **A closed form of a pattern** is one that says the same behind every beginning of a text. -/
theorem takes_eq_of_append {ranges : List Char → Nat → Nat → Prop}
    (hcut : ∀ {text s e}, ranges text s e → IsCut text s)
    (h : ∀ x y e, pattern.Takes (x ++ y) (byteSize x) e ↔ ranges (x ++ y) (byteSize x) e) (text : List Char) :
    pattern.Takes text = ranges text := by
  funext s e
  have hat : IsCut text s → (pattern.Takes text s e ↔ ranges text s e) := by
    intro hs
    have hsplit := h (takeBytes s text) (dropBytes s text) e
    rwa [takeBytes_append_dropBytes, hs] at hsplit
  refine propext ⟨fun htakes => (hat htakes.isCut.1).1 htakes, fun hranges => (hat (hcut hranges)).2 hranges⟩

/-- Where nothing matches at a place, nothing matches before the next one. -/
theorem next_le_of_not_takes {x rest : List Char} {c : Char}
    (hnone : ∀ e, ¬ pattern.Takes (x ++ c :: rest) (byteSize x) e) :
    ∀ s e, pattern.Takes (x ++ c :: rest) s e → byteSize x ≤ s → byteSize (x ++ [c]) ≤ s := by
  intro s e htakes hle
  refine htakes.isCut.1.behind (Nat.lt_of_le_of_ne hle ?_)
  rintro rfl
  exact hnone e htakes

/-- **The hits among the pieces of a text are found in turn.** -/
theorem Cut.inTurn (hadv : pattern.Advances) {x : List Char} {pieces : List Piece} (hcut : Cut pattern x text pieces) :
    InTurn (Next (pattern.Takes (x ++ text))) (byteSize x) (Rule.hitRanges (byteSize x) pieces) := by
  induction hcut with
  | @nil x =>
    refine .done fun s e htakes => ?_
    have hlt := htakes.lt_byteSize hadv
    rwa [List.append_nil] at hlt
  | @plain x rest c pieces hnone _ ih =>
    have hnone' : ∀ e, ¬ pattern.Takes (x ++ c :: rest) (byteSize x) e := by
      intro e htakes
      obtain ⟨h, y, hsplit, -, htake⟩ := takes_behind.1 htakes
      refine hnone h y hsplit.symm ⟨?_, hsplit ▸ htake⟩
      rintro rfl
      exact hadv _ _ htake
    have hgap := next_le_of_not_takes hnone'
    rw [← List.append_cons] at ih
    rw [byteSize_append] at ih hgap
    exact ih.widen (Nat.le_add_right _ _) hgap
  | @hit x h rest pieces hmatch _ ih =>
    rw [List.append_assoc, byteSize_append] at ih
    refine .take ⟨takes_behind.2 ⟨h, rest, rfl, rfl, hmatch.2⟩, Nat.le_refl _, fun _ _ _ hle => hle⟩ ih

end Pattern

theorem IsCut.offset_atByte {text : List Char} {n : Nat} (h : IsCut text n) : (Place.atByte text n).offset = n := by
  obtain ⟨x, y, rfl, rfl⟩ := h.exists_append
  rw [Place.atByte_append]
  rfl

/-- The place at a later byte is some characters further on. -/
theorem IsCut.exists_atByte_eq_skip {text : List Char} {m n : Nat} (hm : IsCut text m) (hn : IsCut text n)
    (hle : m ≤ n) : ∃ k, Place.atByte text n = (Place.atByte text m).skip k := by
  obtain ⟨x, y, rfl, rfl⟩ := hm.exists_append
  obtain ⟨u, z, rfl, rfl⟩ := hn.exists_append_of_le hle
  refine ⟨u.length, ?_⟩
  rw [Place.atByte_append, Place.skip_between, ← List.append_assoc, Place.atByte_append]

namespace Rule

variable {rule : Rule} {text : List Char}

/-- A match between the text before it and the text behind it. -/
theorem exists_append_of_foundAt (hbound : rule.pattern.Bounded) {x y : List Char} {f : Found}
    (hf : rule.foundAt (.between x y) = some f) : ∃ v z, y = v ++ z ∧ f.text = v ∧ f.start = byteSize x ∧
      f.next = .between (x ++ v) z ∧ rule.pattern x.getLast? y = some v.length := by
  unfold foundAt at hf
  split at hf
  · rename_i n htake
    cases hf
    have hn : n + 1 ≤ y.length := hbound _ _ _ htake
    refine ⟨y.take (n + 1), y.drop (n + 1), (List.take_append_drop _ y).symm, rfl, rfl,
      Place.skip_between_take x hn, ?_⟩
    rw [List.length_take, Nat.min_eq_left hn]
    exact htake
  · cases hf

theorem takes_of_foundAt (hbound : rule.pattern.Bounded) {x y : List Char} {f : Found}
    (hf : rule.foundAt (.between x y) = some f) : rule.pattern.Takes (x ++ y) f.start f.stop := by
  obtain ⟨v, z, rfl, htext, hstart, -, htake⟩ := exists_append_of_foundAt hbound hf
  exact ⟨x, v, z, rfl, hstart.symm, by rw [Found.stop, htext], htake⟩

theorem takes_lateWord (m : Nat) : reserved.pattern.Takes (Regex.lateWord m) (2 * (m + 1)) (2 * (m + 1) + 5) := by
  obtain ⟨f, hf, hstart, hstop⟩ := exists_foundAt_lateWord m
  have htakes := takes_of_foundAt (bounded_of_mem_withTail .loose reserved (by simp [withTail])) hf
  rwa [hstart, hstop] at htakes

/-- What is taken at a place is what a rule finds there. -/
theorem foundAt_of_takes (hrule : rule.WellMade) {x y : List Char} {e : Nat}
    (h : rule.pattern.Takes (x ++ y) (byteSize x) e) :
    ∃ f, rule.foundAt (.between x y) = some f ∧ f.range = (byteSize x, e) := by
  cases hf : rule.foundAt (.between x y) with
  | some f =>
    have hstart : f.start = byteSize x := congrArg Place.offset (foundAt_eq_some hf).1
    have htakes := takes_of_foundAt hrule.bounded hf
    rw [hstart] at htakes
    exact ⟨f, rfl, Prod.ext hstart (htakes.functional h)⟩
  | none =>
    obtain ⟨u, z, rfl, -, htake⟩ := Pattern.takes_behind.1 h
    unfold foundAt at hf
    cases hu : u.length with
    | zero => exact absurd (hu ▸ htake) (hrule.advances _ _)
    | succ n => simp [Place.between, htake, hu] at hf

/-- **The matches at the places of a text are the ranges that are taken** there. -/
theorem exists_skip_of_takes (hrule : rule.WellMade) {x y : List Char} {s e : Nat}
    (h : rule.pattern.Takes (x ++ y) s e) (hs : byteSize x ≤ s) :
    ∃ k < y.length, ∃ f, rule.foundAt ((Place.between x y).skip k) = some f ∧ f.range = (s, e) := by
  have hend := h.lt_byteSize hrule.advances
  obtain ⟨u, z, rfl, rfl⟩ := h.isCut.1.exists_append_of_le hs
  rw [← List.append_assoc] at h hend
  refine ⟨u.length, ?_, ?_⟩
  · have hz : z ≠ [] := by
      rintro rfl
      rw [List.append_nil] at hend
      exact Nat.lt_irrefl _ hend
    rw [List.length_append]
    exact Nat.lt_add_of_pos_right (List.length_pos_iff.2 hz)
  · rw [Place.skip_between]
    exact foundAt_of_takes hrule h

/-- **Where a match of an accepted kind is nearest it is next.** -/
theorem next_of_nearest (hrule : rule.WellMade) {test : Place → Option Found} (accept : Nat × Nat → Prop)
    (htest : ∀ q f, test q = some f ↔ rule.foundAt q = some f ∧ accept f.range) {x y : List Char} {r : Option Found}
    (h : Nearest test (.between x y) r) :
    Next (fun s e => rule.pattern.Takes (x ++ y) s e ∧ accept (s, e)) (byteSize x) (r.map Found.range) := by
  have hplace : ∀ {s e : Nat}, rule.pattern.Takes (x ++ y) s e ∧ accept (s, e) → byteSize x ≤ s →
      ∃ k < y.length, s = ((Place.between x y).skip k).offset ∧ test ((Place.between x y).skip k) ≠ none := by
    rintro s e ⟨htakes, haccept⟩ hs
    obtain ⟨k, hk, f, hf, hrange⟩ := exists_skip_of_takes hrule htakes hs
    refine ⟨k, hk, ?_, ?_⟩
    · rw [← (foundAt_eq_some hf).1]
      exact (congrArg Prod.fst hrange).symm
    · rw [(htest _ f).2 ⟨hf, hrange ▸ haccept⟩]
      exact Option.some_ne_none f
  cases r with
  | none =>
    refine fun s e hranges => Nat.lt_of_not_le fun hs => ?_
    obtain ⟨k, hk, -, hne⟩ := hplace hranges hs
    exact hne (h k hk)
  | some f =>
    obtain ⟨k, hk, hf, hbefore⟩ := h
    obtain ⟨hfound, haccept⟩ := (htest _ f).1 hf
    have hstart : f.range.1 = ((Place.between x y).skip k).offset := congrArg Place.offset (foundAt_eq_some hfound).1
    refine ⟨⟨?_, haccept⟩, ?_, fun s e hranges hs => ?_⟩
    · rw [Place.skip_between_take x (y := y) (Nat.le_of_lt hk)] at hfound
      have htakes := takes_of_foundAt hrule.bounded hfound
      rwa [List.append_assoc, List.take_append_drop] at htakes
    · rw [hstart]
      exact (Place.between x y).offset_skip_le (Nat.zero_le k)
    · obtain ⟨j, hj, rfl, hne⟩ := hplace hranges hs
      rw [hstart]
      exact (Place.between x y).offset_skip_le (Nat.le_of_not_lt fun hjk => hne (hbefore j hjk))

theorem hitRanges_plains (offset : Nat) (s : List Char) (pieces : List Piece) :
    hitRanges offset (s.map .plain ++ pieces) = hitRanges (offset + byteSize s) pieces := by
  induction s generalizing offset with
  | nil => rfl
  | cons c s ih =>
    rw [List.map_cons, List.cons_append, hitRanges, byteSize_cons, ← Nat.add_assoc]
    exact ih _

/-! ## Searches from a byte -/

section

variable [Engine]

/-- The bytes of the match that a search from a byte of a text finds. -/
def findAt (rule : Rule) (text : List Char) (start : Nat) : Option (Nat × Nat) :=
  (rule.find (Place.atByte text start)).map Found.range

/-- Whether the engine gives up the search from a byte of a text. -/
def givesUpAt (rule : Rule) (text : List Char) (start : Nat) : Bool :=
  Engine.givesUp rule.expression (Place.atByte text start)

theorem findAt_of_givesUp {start : Nat} (h : rule.givesUpAt text start = true) : rule.findAt text start = none := by
  rw [givesUpAt] at h
  rw [findAt, find, if_pos h]
  rfl

theorem findAt_append (rule : Rule) (x y : List Char) :
    rule.findAt (x ++ y) (byteSize x) = (rule.find (.between x y)).map Found.range := by
  rw [findAt, Place.atByte_append]

/-- **A search from a byte finds what is next**, unless it is given up. -/
theorem nextUnless_findAt (hrule : rule.WellMade) {start : Nat} (hstart : IsCut text start) :
    NextUnless (rule.givesUpAt text) (rule.pattern.Takes text) start (rule.findAt text start) := by
  obtain ⟨x, y, rfl, rfl⟩ := hstart.exists_append
  rw [NextUnless, findAt_append, givesUpAt, Place.atByte_append, find]
  cases Engine.givesUp rule.expression (.between x y) with
  | true => rfl
  | false => simpa using next_of_nearest hrule (fun _ => True) (by simp) (rule.nearest_nearest (.between x y))

/-- What a search from a byte answers is what is next, unless it is given up. -/
theorem findAt_eq_iff (hrule : rule.WellMade) {start : Nat} (hstart : IsCut text start) (r : Option (Nat × Nat)) :
    rule.findAt text start = r ↔ NextUnless (rule.givesUpAt text) (rule.pattern.Takes text) start r :=
  (nextUnless_findAt hrule hstart).eq_iff fun _ _ _ htakes => htakes.functional

/-- **What a search finds, every later search finds** that begins before the match. -/
theorem findAt_later (hrule : rule.WellMade) {start start' : Nat} (hstart : IsCut text start)
    (hstart' : IsCut text start') (hle : start ≤ start') {s e : Nat} (hs : start' ≤ s)
    (h : rule.findAt text start = some (s, e)) : rule.findAt text start' = some (s, e) := by
  obtain ⟨m, hskip⟩ := hstart.exists_atByte_eq_skip hstart' hle
  obtain ⟨f, hf, hrange⟩ := Option.map_eq_some_iff.1 h
  rw [findAt, hskip, hrule.find_skip hf m]
  · exact congrArg some hrange
  · rw [← hskip, hstart'.offset_atByte]
    exact Nat.le_trans hs (Nat.le_of_eq (congrArg Prod.fst hrange).symm)

/-- **A place where nothing matches hides nothing behind it**, if the search from it is not given up. -/
theorem findAt_of_not_takes (hrule : rule.WellMade) {x rest : List Char} {c : Char}
    (hup : rule.givesUpAt (x ++ c :: rest) (byteSize x) = false)
    (hnone : ∀ e, ¬ rule.pattern.Takes (x ++ c :: rest) (byteSize x) e) :
    rule.findAt (x ++ c :: rest) (byteSize x) = rule.findAt (x ++ c :: rest) (byteSize (x ++ [c])) := by
  have hfound : rule.foundAt (.between x (c :: rest)) = none :=
    Option.eq_none_iff_forall_ne_some.2 fun f hf => hnone f.stop (by
      have htakes := takes_of_foundAt hrule.bounded hf
      have hstart : f.start = byteSize x := congrArg Place.offset (foundAt_eq_some hf).1
      rwa [hstart] at htakes)
  rw [givesUpAt, Place.atByte_append] at hup
  have hnext : Engine.givesUp rule.expression (.between (x ++ [c]) rest) = false := by
    rw [← Place.next_between]
    exact Engine.onward _ _ hup (hrule.pattern_eq_none hfound)
  have hstep : rule.find (.between x (c :: rest)) = rule.find (.between (x ++ [c]) rest) := by
    rw [find, hup, find, hnext, nearest_step (List.cons_ne_nil c rest), hfound, Place.next_between]
    rfl
  rw [findAt_append, hstep, List.append_cons x c rest, findAt_append]

/-! ## All matches of a text -/

/-- What is found stands between the text before it and the text behind it. -/
theorem exists_append_of_find (hrule : rule.WellMade) {x y : List Char} {f : Found}
    (h : rule.find (.between x y) = some f) : ∃ u v z, y = u ++ (v ++ z) ∧ f.text = v ∧
      f.start = byteSize (x ++ u) ∧ f.next = .between (x ++ u ++ v) z := by
  obtain ⟨-, k, hk, hf, -⟩ := find_eq_some.1 h
  rw [Place.skip_between_take x (y := y) (Nat.le_of_lt hk)] at hf
  obtain ⟨v, z, hsplit, htext, hstart, hnext, -⟩ := exists_append_of_foundAt hrule.bounded hf
  exact ⟨y.take k, v, z, by rw [← hsplit, List.take_append_drop], htext, hstart, hnext⟩

theorem inTurn_findAllFrom (hrule : rule.WellMade) : ∀ (fuel : Nat) (x y : List Char), y.length ≤ fuel →
    InTurn (fun pos r => rule.findAt (x ++ y) pos = r) (byteSize x)
      (hitRanges (byteSize x) (rule.piecesFrom fuel (.between x y)))
  | 0, x, y, hfuel => by
    obtain rfl := List.length_eq_zero_iff.1 (Nat.le_zero.1 hfuel)
    refine .done ?_
    rw [findAt_append, find_end rfl]
    rfl
  | fuel + 1, x, y, hfuel => by
    rw [piecesFrom]
    cases hfind : rule.find (.between x y) with
    | none =>
      have hplain := hitRanges_plains (byteSize x) y []
      rw [List.append_nil] at hplain
      show InTurn _ _ (hitRanges (byteSize x) (y.map .plain))
      rw [hplain]
      refine .done ?_
      rw [findAt_append, hfind]
      rfl
    | some f =>
      obtain ⟨u, v, z, rfl, htext, hstart, hnext⟩ := exists_append_of_find hrule hfind
      have hstop : f.stop = byteSize (x ++ u ++ v) := by rw [Found.stop, htext, hstart, ← byteSize_append]
      have hgap : takeBytes (f.start - byteSize x) (u ++ (v ++ z)) = u := by
        rw [hstart, byteSize_append, Nat.add_sub_cancel_left, takeBytes_byteSize]
      have hshort := length_next_lt hfind
      rw [hnext] at hshort
      have hrest := inTurn_findAllFrom hrule fuel (x ++ u ++ v) z
        (Nat.le_of_lt_succ (Nat.lt_of_lt_of_le hshort hfuel))
      rw [List.append_assoc, List.append_assoc, ← hstop] at hrest
      show InTurn _ _ (hitRanges _ ((takeBytes (f.start - byteSize x) (u ++ (v ++ z))).map .plain ++ _))
      rw [hgap, hitRanges_plains, hnext, ← byteSize_append, ← hstart]
      refine .take ?_ hrest
      rw [findAt_append, hfind]
      rfl

/-- **The matches of a text are found one after the other**, each from the end of the one before. -/
theorem inTurn_findAll (hrule : rule.WellMade) (text : List Char) :
    InTurn (fun pos r => rule.findAt text pos = r) 0 (rule.findAll text) :=
  inTurn_findAllFrom hrule text.length [] text (Nat.le_refl _)

/-- Where the first search is given up no match of a text is found. -/
theorem findAll_of_givesUp (hrule : rule.WellMade) (h : rule.givesUpAt text 0 = true) : rule.findAll text = [] :=
  (inTurn_findAll hrule text).unique (fun _ _ _ hr hr' => hr.symm.trans hr') (.done (findAt_of_givesUp h))

theorem inTurn_nextUnless (hrule : rule.WellMade) (text : List Char) :
    InTurn (NextUnless (rule.givesUpAt text) (rule.pattern.Takes text)) 0 (rule.findAll text) := by
  refine (inTurn_findAll hrule text).congr (P := IsCut text) (fun pos r hpos => (findAt_eq_iff hrule hpos r).1)
    (fun pos s e hpos h => ?_) (isCut_append [] text)
  exact (nextUnless_some.1 ((findAt_eq_iff hrule hpos _).1 h)).2.1.isCut.2

theorem inOrder_findAll (hrule : rule.WellMade) (text : List Char) :
    InOrder text 0 (byteSize text) (rule.findAll text) := by
  have hturn := inTurn_nextUnless hrule text
  refine ⟨hturn.sorted fun _ _ => Pattern.Takes.lt hrule.advances, fun r hr => ?_, fun r hr => ?_⟩
  · have htakes := hturn.takes_of_mem r hr
    exact ⟨Nat.zero_le _, htakes.lt hrule.advances, htakes.le_byteSize⟩
  · exact (hturn.takes_of_mem r hr).isCut

/-- **Searching for one match after the other and for all at once agree**, and both miss nothing that is taken. -/
structure SearchesAgree (rule : Rule) (takes : Nat → Nat → Prop) (text : List Char) : Prop where
  in_turn : ∀ ranges, InTurn (fun pos r => rule.findAt text pos = r) 0 ranges ↔ ranges = rule.findAll text
  order : InOrder text 0 (byteSize text) (rule.findAll text)
  next : ∀ start, IsCut text start → ∀ r, rule.findAt text start = r ↔ Next takes start r
  same : ∀ start start' s e e', IsCut text start → IsCut text start' → rule.findAt text start = some (s, e) →
    rule.findAt text start' = some (s, e') → e = e'
  covers : ∀ s e, takes s e → s < e ∧ ∃ r ∈ rule.findAll text, r.1 ≤ s ∧ s < r.2

/-- The same, where a search may be given up. -/
structure SearchesAgreeUnless (rule : Rule) (takes : Nat → Nat → Prop) (text : List Char) : Prop where
  in_turn : ∀ ranges, InTurn (fun pos r => rule.findAt text pos = r) 0 ranges ↔ ranges = rule.findAll text
  order : InOrder text 0 (byteSize text) (rule.findAll text)
  next : ∀ start, IsCut text start → ∀ r, rule.findAt text start = r ↔ NextUnless (rule.givesUpAt text) takes start r
  same : ∀ start start' s e e', IsCut text start → IsCut text start' → rule.findAt text start = some (s, e) →
    rule.findAt text start' = some (s, e') → e = e'
  later : ∀ start start' s e, IsCut text start → IsCut text start' → start ≤ start' → start' ≤ s →
    rule.findAt text start = some (s, e) → rule.findAt text start' = some (s, e)
  covers : ∀ s e, takes s e → s < e ∧ ((∃ r ∈ rule.findAll text, r.1 ≤ s ∧ s < r.2) ∨
    rule.givesUpAt text (searchedTo 0 (rule.findAll text)) = true ∧ searchedTo 0 (rule.findAll text) ≤ s)

theorem WellMade.searchesAgree (hrule : rule.WellMade) (text : List Char) :
    rule.SearchesAgreeUnless (rule.pattern.Takes text) text := by
  have hturn := inTurn_nextUnless hrule text
  have hcalls := inTurn_findAll hrule text
  constructor
  · intro ranges
    constructor
    · intro h
      exact h.unique (fun _ _ _ hr hr' => hr.symm.trans hr') hcalls
    · rintro rfl
      exact hcalls
  · exact inOrder_findAll hrule text
  · exact fun start hstart => findAt_eq_iff hrule hstart
  · intro start start' s e e' hstart hstart' h h'
    have hnext := (nextUnless_some.1 ((findAt_eq_iff hrule hstart _).1 h)).2
    have hnext' := (nextUnless_some.1 ((findAt_eq_iff hrule hstart' _).1 h')).2
    exact hnext.1.functional hnext'.1
  · exact fun start start' s e hstart hstart' hle hs => findAt_later hrule hstart hstart' hle hs
  · intro s e htakes
    exact ⟨htakes.lt hrule.advances, hturn.covers htakes (Nat.zero_le s)⟩

/-- Where no search is given up there is nothing to except. -/
theorem SearchesAgreeUnless.agree {takes : Nat → Nat → Prop} (h : rule.SearchesAgreeUnless takes text)
    (hup : ∀ start, rule.givesUpAt text start = false) : rule.SearchesAgree takes text where
  in_turn := h.in_turn
  order := h.order
  next start hstart r := by
    rw [h.next start hstart, NextUnless, hup]
    exact Iff.rfl
  same := h.same
  covers s e htakes := by
    obtain ⟨hlt, hcover⟩ := h.covers s e htakes
    rw [hup] at hcover
    exact ⟨hlt, hcover.resolve_right fun hcut => absurd hcut.1 Bool.false_ne_true⟩

/-- **The rules of both lists, searched by their expressions**: the matches of a text that are found are what one search
after the other finds, each from the end of the match before, and they are in order; a search from a place that is not
given up finds the match of the expression that starts first, whatever it was begun from; and over every place where
the expression matches lies one of the matches of the text, unless the last search for them was given up before. -/
theorem searches_agree (tail : AttributeTail) {rule : Rule} (hrule : rule ∈ withTail tail) (text : List Char) :
    rule.SearchesAgreeUnless (rule.expression.pattern.Takes text) text := by
  have hmade := wellMade_of_mem_withTail tail rule hrule
  rw [hmade.expression]
  exact hmade.searchesAgree text

end

/-- A digit behind a letter is no number, also for a search that begins between the two. -/
theorem searches_agree_behind_letter : letI := Engine.backtracking
    numbers ∈ withTail .loose ∧
    numbers.SearchesAgreeUnless (numbers.expression.pattern.Takes "x5 6".toList) "x5 6".toList ∧
    numbers.findAt "x5 6".toList 1 = some (3, 4) :=
  let := Engine.backtracking
  have hrule : numbers ∈ withTail .loose := by simp [withTail]
  ⟨hrule, searches_agree .loose hrule "x5 6".toList, by decide +kernel⟩

/-- Behind words enough a reserved word is not found, neither by a search from the start nor among all matches. -/
theorem searches_miss_late_word : letI := Engine.backtracking
    reserved.findAt (Regex.lateWord 19999) 0 = none ∧ reserved.findAll (Regex.lateWord 19999) = [] ∧
    ¬ reserved.SearchesAgree (reserved.expression.pattern.Takes (Regex.lateWord 19999)) (Regex.lateWord 19999) := by
  let := Engine.backtracking
  have hmade : reserved.WellMade := wellMade_of_mem_withTail .loose reserved (by simp [withTail])
  have hup : reserved.givesUpAt (Regex.lateWord 19999) 0 = true := Regex.givesUp_letters _ (by decide) 0
  have hall := findAll_of_givesUp hmade hup
  refine ⟨findAt_of_givesUp hup, hall, fun hagree => ?_⟩
  obtain ⟨-, r, hr, -⟩ := hagree.covers _ _ (hmade.expression ▸ takes_lateWord 19999)
  rw [hall] at hr
  cases hr

end Rule

end JsxView
