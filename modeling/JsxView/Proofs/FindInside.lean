import JsxView.Proofs.FindAll
import JsxView.Proofs.Retries
/-!
# FindInside — a search inside a region, by bytes

A search inside a region looks again behind every match that runs on (`Rule.Attempts`).  Read by bytes it is a search
for the next match of those that fit (`Fits`): of which no look is given up it ends with the first of them, or with none
where there is none (`Rule.nextUnless_findInside`).  From look to look it is at least one whole character further on,
inside the region, and what it has come to holds for every later byte (`Rule.retries_agree`).
-/
namespace JsxView

/-- A match that is not empty and ends inside the first `limit` bytes. -/
def Fits (takes : Nat → Nat → Prop) (limit s e : Nat) : Prop :=
  takes s e ∧ s < e ∧ e ≤ limit

namespace Rule

section

variable [Engine]

/-- The bytes of the match that a search from a byte finds inside the first `limit` bytes of a text. -/
def findInside (rule : Rule) (text : List Char) (limit start : Nat) : Option (Nat × Nat) :=
  (rule.findWithin limit (Place.atByte text start)).map Found.range

/-- Whether the engine gives up a look of the search from a byte. -/
def givenUpInside (rule : Rule) (text : List Char) (limit start : Nat) : Bool :=
  rule.givenUp limit (Place.atByte text start)

variable {rule : Rule} {text : List Char} {limit : Nat}

/-- **A search inside a region finds the next match that fits**, unless a look of it is given up. -/
theorem nextUnless_findInside (hrule : rule.WellMade) (limit : Nat) {start : Nat} (hstart : IsCut text start) :
    NextUnless (rule.givenUpInside text limit) (Fits (rule.pattern.Takes text) limit) start
      (rule.findInside text limit start) := by
  obtain ⟨x, y, rfl, rfl⟩ := hstart.exists_append
  rw [NextUnless, givenUpInside, findInside, Place.atByte_append]
  cases hup : rule.givenUp limit (.between x y) with
  | true =>
    cases hfound : rule.findWithin limit (.between x y) with
    | none => rfl
    | some f =>
      rw [givenUp_of_findWithin_eq_some hfound] at hup
      cases hup
  | false =>
    have hfits : Fits (rule.pattern.Takes (x ++ y)) limit = fun s e => rule.pattern.Takes (x ++ y) s e ∧ e ≤ limit := by
      funext s e
      exact propext ⟨fun h => ⟨h.1, h.2.2⟩, fun h => ⟨h.1, h.1.lt hrule.advances, h.2⟩⟩
    rw [hfits]
    exact next_of_nearest hrule (fun r => r.2 ≤ limit) (fun _ _ => fitsAt_eq_some) (nearest_findWithin hup)

theorem findInside_eq_iff (hrule : rule.WellMade) (limit : Nat) {start : Nat} (hstart : IsCut text start)
    (r : Option (Nat × Nat)) : rule.findInside text limit start = r ↔
      NextUnless (rule.givenUpInside text limit) (Fits (rule.pattern.Takes text) limit) start r :=
  (nextUnless_findInside hrule limit hstart).eq_iff fun _ _ _ h h' => h.1.functional h'.1

/-- **A search inside a region, look by look**: it goes one way only and ends; if no look is given up it ends with the
next match that fits, and with none if one is; it looks at least one whole character further on each time and only
inside the region, so no more often than there are characters; and what it has come to stays. -/
structure RetriesAgree (rule : Rule) (takes : Nat → Nat → Prop) (text : List Char) (limit : Nat) : Prop where
  ends : ∀ pos places r, rule.Attempts limit (Place.atByte text pos) places (r : Option Found) ↔
    places = rule.looks limit (Place.atByte text pos) ∧ r = rule.findWithin limit (Place.atByte text pos)
  next : ∀ pos, IsCut text pos → ∀ r,
    rule.findInside text limit pos = r ↔ NextUnless (rule.givenUpInside text limit) (Fits takes limit) pos r
  ahead : ∀ pos, IsCut text pos →
    (rule.looks limit (Place.atByte text pos)).IsChain (fun a b => ∃ k < a.after.length, b = a.skip (k + 1)) ∧
    ∀ q ∈ rule.looks limit (Place.atByte text pos), pos ≤ q.offset ∧ q.offset < limit
  few : ∀ x w y, text = x ++ (w ++ y) → byteSize x + byteSize w = limit →
    (rule.looks limit (Place.atByte text (byteSize x))).length ≤ w.length
  found : ∀ pos pos' s e, IsCut text pos → IsCut text pos' → pos ≤ pos' → pos' ≤ s →
    rule.findInside text limit pos = some (s, e) → rule.findInside text limit pos' = some (s, e)
  exhausted : ∀ pos pos', IsCut text pos → IsCut text pos' → pos ≤ pos' → rule.givenUpInside text limit pos = false →
    rule.findInside text limit pos = none → rule.findInside text limit pos' = none

theorem WellMade.retriesAgree (hrule : rule.WellMade) (text : List Char) (limit : Nat) :
    rule.RetriesAgree (rule.pattern.Takes text) text limit := by
  constructor
  · exact fun pos places r => attempts_iff
  · exact fun pos hpos r => findInside_eq_iff hrule limit hpos r
  · intro pos hpos
    obtain ⟨hchain, -, hinside⟩ := (rule.attempts_findWithin limit (Place.atByte text pos)).ahead
    rw [hpos.offset_atByte] at hinside
    exact ⟨hchain, hinside⟩
  · rintro x w y rfl hlimit
    refine (rule.attempts_findWithin limit _).few w.length ?_
    rw [Place.atByte_append, Place.skip_between, ← hlimit, ← byteSize_append]
    rfl
  · intro pos pos' s e hpos hpos' hle hs hfound
    obtain ⟨m, hskip⟩ := hpos.exists_atByte_eq_skip hpos' hle
    obtain ⟨f, hf, hrange⟩ := Option.map_eq_some_iff.1 hfound
    rw [findInside, hskip, findWithin_skip hrule hf m]
    · exact congrArg some hrange
    · rw [← hskip, hpos'.offset_atByte]
      exact Nat.le_trans hs (Nat.le_of_eq (congrArg Prod.fst hrange).symm)
  · intro pos pos' hpos hpos' hle hup hnone
    obtain ⟨m, hskip⟩ := hpos.exists_atByte_eq_skip hpos' hle
    rw [findInside, hskip, findWithin_none_skip hup (Option.map_eq_none_iff.1 hnone) m]
    rfl

/-- **A search inside a region ends with the next match that fits**, unless the engine gives up one of its looks.  For
the rules of both lists, read as the expressions they are written as, and for every region of every text: a search that
looks again behind each match that runs on ends, with the first match at or behind its start that is not empty and ends
inside the region, or with none where there is none.  From look to look it is at least one whole character further on,
inside the region, so it looks at most once for each character there.  From every later byte a search has the same
answer, as long as the match that was found does not begin before that byte; and no answer where there was none, unless
a look was given up. -/
theorem retries_agree (tail : AttributeTail) {rule : Rule} (hrule : rule ∈ withTail tail) (text : List Char)
    (limit : Nat) : rule.RetriesAgree (rule.expression.pattern.Takes text) text limit := by
  have hmade := wellMade_of_mem_withTail tail rule hrule
  rw [hmade.expression]
  exact hmade.retriesAgree text limit

end

/-- Of three literals one inside the other, two run on behind the region, and the search comes to the innermost one. -/
theorem retries_agree_nested : letI := Engine.backtracking
    let text := "\"'\x60é\x60'\"".toList
    literals ∈ withTail .strict ∧ literals.RetriesAgree (literals.expression.pattern.Takes text) text 6 ∧
    (literals.looks 6 (Place.atByte text 0)).map Place.offset = [0, 1, 2] ∧
    literals.givenUpInside text 6 0 = false ∧ literals.findInside text 6 0 = some (2, 6) ∧
    literals.findInside text 6 3 = none := by
  let := Engine.backtracking
  intro text
  have hrule : literals ∈ withTail .strict := by simp [withTail]
  exact ⟨hrule, retries_agree .strict hrule text 6, by decide +kernel, by decide +kernel, by decide +kernel,
    by decide +kernel⟩

/-- Behind words enough a reserved word is not found from the start of a text, but it is from where it begins. -/
theorem retries_miss_late_word : letI := Engine.backtracking
    let text := Regex.lateWord 19999
    reserved.findInside text 40005 0 = none ∧ reserved.findInside text 40005 40000 = some (40000, 40005) ∧
    ¬ ∀ pos, IsCut text pos → ∀ r,
      reserved.findInside text 40005 pos = r ↔ Next (Fits (reserved.expression.pattern.Takes text) 40005) pos r := by
  let := Engine.backtracking
  intro text
  have hmade : reserved.WellMade := wellMade_of_mem_withTail .strict reserved (by simp [withTail])
  have hup : reserved.givenUpInside text 40005 0 = true :=
    givenUp_of_givesUp (p := Place.start text) (by decide) (Regex.givesUp_letters _ (m := 19999) (by decide) 0)
  have hnone : reserved.findInside text 40005 0 = none :=
    (findInside_eq_iff hmade 40005 (isCut_zero text) none).2 (by rw [NextUnless, if_pos hup])
  have hlate : reserved.findInside text 40005 40000 = some (40000, 40005) := by
    have hplace := Place.atByte_append (Regex.letters 20000) "const".toList
    rw [Regex.byteSize_letters, Place.between, Regex.getLast?_letters, Regex.byteSize_letters] at hplace
    refine (congrArg (fun p => (reserved.findWithin 40005 p).map Found.range) hplace).trans ?_
    decide +kernel
  have htakes : reserved.expression.pattern.Takes text 40000 40005 := by
    rw [hmade.expression]
    exact takes_lateWord 19999
  refine ⟨hnone, hlate, fun h => ?_⟩
  have hnext := (h 0 (isCut_zero text) none).1 hnone
  exact Nat.not_lt_zero _ (hnext 40000 40005 ⟨htakes, by decide, by decide⟩)

end Rule

end JsxView
