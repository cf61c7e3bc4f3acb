import JsxView.Proofs.Search
import Mathlib.Data.List.Chain
/-!
# Retries — a search that looks again

A search inside a region looks for the next match.  Where that match ends behind the region, the search looks again,
from the character behind the one the match begins with, and so on until a match fits or none begins in the region.
`Attempts` is such a search as a relation: the places it looks from and what it comes to.  `Rule.findWithin` counts its
looks down from the number of characters, which is always enough (`Rule.attempts_findWithin`).

Only the last look can be one that the engine gives up, because the others have found something.  A search without such
a look comes to the nearest match that fits (`Attempts.nearest`).  What it finds it also finds from every later place in
front of the match (`Rule.findWithin_skip`), and where it finds nothing nothing is found later
(`Rule.findWithin_none_skip`).  This is why what a search has come to may be kept.
-/
namespace JsxView

/-! ## What fits -/

namespace Rule

variable {rule : Rule} {limit : Nat} {p : Place}

/-- The match of a rule at a place, if it ends inside the first `limit` bytes. -/
def fitsAt (rule : Rule) (limit : Nat) (p : Place) : Option Found :=
  (rule.foundAt p).filter fun f => f.stop ≤ limit

theorem fitsAt_eq_some {f : Found} : rule.fitsAt limit p = some f ↔ rule.foundAt p = some f ∧ f.stop ≤ limit := by
  rw [fitsAt, Option.filter_eq_some_iff, decide_eq_true_eq]

theorem onSite_fitsAt (rule : Rule) (limit : Nat) : OnSite (rule.fitsAt limit) :=
  fun _ _ h => (foundAt_eq_some (fitsAt_eq_some.1 h).1).1

theorem fitsAt_eq_none (h : ∀ f, rule.foundAt p = some f → limit < f.stop) : rule.fitsAt limit p = none := by
  refine Option.eq_none_iff_forall_ne_some.2 fun f hf => ?_
  obtain ⟨hfound, hstop⟩ := fitsAt_eq_some.1 hf
  exact absurd (h f hfound) (Nat.not_lt.2 hstop)

/-- Behind the region no match fits, because a match takes a character. -/
theorem fitsAt_outside (h : limit ≤ p.offset) {k : Nat} (hk : k < p.after.length) :
    rule.fitsAt limit (p.skip k) = none := by
  refine fitsAt_eq_none fun f hfound => ?_
  obtain ⟨hsite, hpos, -⟩ := foundAt_eq_some hfound
  have hmove : f.site.offset < f.stop := by
    rw [← f.offset_next]
    exact Place.offset_skip_lt f.site (m := 0) hpos (by rw [hsite, Place.length_after_skip]; omega)
  have hstart : p.offset ≤ f.site.offset := by
    rw [hsite, Place.offset_skip]
    exact Nat.le_add_right _ _
  omega

end Rule

/-! ## One look -/

/-- What one look comes to: an answer, or the place to look again from. -/
inductive Attempt where
  | answer (r : Option Found)
  | again (q : Place)

namespace Rule

variable [Engine] {rule : Rule} {limit : Nat} {p q : Place}

/-- One look from a place for a match that ends inside the first `limit` bytes. -/
def attempt (rule : Rule) (limit : Nat) (p : Place) : Attempt :=
  match rule.find p with
  | none => .answer none
  | some f =>
    if limit ≤ f.start then .answer none
    else if f.stop ≤ limit then .answer (some f)
    else .again f.site.next

/-- A look that leads to another one has found a match that begins in the region and runs on behind it. -/
theorem attempt_eq_again : rule.attempt limit p = .again q ↔
    ∃ f, rule.find p = some f ∧ f.start < limit ∧ limit < f.stop ∧ q = f.site.next := by
  unfold attempt
  cases rule.find p with
  | none => simp
  | some f => grind

theorem attempt_eq_some {f : Found} : rule.attempt limit p = .answer (some f) ↔
    rule.find p = some f ∧ f.start < limit ∧ f.stop ≤ limit := by
  unfold attempt
  cases rule.find p with
  | none => simp
  | some g => grind

theorem attempt_eq_none : rule.attempt limit p = .answer none ↔
    ∀ f, rule.find p = some f → limit ≤ f.start := by
  unfold attempt
  cases rule.find p with
  | none => simp
  | some f => grind

/-- Behind a match that runs on the search is at least one character further on, and has passed nothing that fits. -/
theorem skip_of_attempt_eq_again (h : rule.attempt limit p = .again q) :
    ∃ k < p.after.length, q = p.skip (k + 1) ∧ (p.skip k).offset < limit ∧
      ∀ j < k + 1, rule.fitsAt limit (p.skip j) = none := by
  obtain ⟨f, hfind, hstart, hstop, rfl⟩ := attempt_eq_again.1 h
  obtain ⟨-, k, hk, hf, hbefore⟩ := find_eq_some.1 hfind
  have hsite := (foundAt_eq_some hf).1
  refine ⟨k, hk, by rw [hsite, Place.skip_add]; rfl, hsite ▸ hstart, fun j hj => fitsAt_eq_none fun g hg => ?_⟩
  rcases Nat.lt_succ_iff_lt_or_eq.1 hj with hlt | rfl
  · rw [hbefore j hlt] at hg
    cases hg
  · rw [hf] at hg
    cases hg
    exact hstop

/-- **A look that answers** answers with the nearest match that fits, unless it is given up. -/
theorem nearest_of_attempt_eq_answer {r : Option Found} (hup : Engine.givesUp rule.expression p = false)
    (h : rule.attempt limit p = .answer r) : Nearest (rule.fitsAt limit) p r := by
  cases r with
  | some f =>
    obtain ⟨hfind, -, hstop⟩ := attempt_eq_some.1 h
    obtain ⟨-, k, hk, hf, hbefore⟩ := find_eq_some.1 hfind
    exact ⟨k, hk, fitsAt_eq_some.2 ⟨hf, hstop⟩, fun j hj => fitsAt_eq_none fun g hg => by simp [hbefore j hj] at hg⟩
  | none =>
    cases hfind : rule.find p with
    | none =>
      have hnone := nearest_of_find_eq_none hfind hup
      exact fun j hj => fitsAt_eq_none fun g hg => by simp [hnone j hj] at hg
    | some f =>
      obtain ⟨-, k, hk, hf, hbefore⟩ := find_eq_some.1 hfind
      have hstart : limit ≤ (p.skip k).offset := (foundAt_eq_some hf).1 ▸ attempt_eq_none.1 h f hfind
      intro j hj
      by_cases hlt : j < k
      · exact fitsAt_eq_none fun g hg => by simp [hbefore j hlt] at hg
      · have hout : rule.fitsAt limit ((p.skip k).skip (j - k)) = none :=
          fitsAt_outside hstart (by rw [Place.length_after_skip]; omega)
        rwa [← Place.skip_add, Nat.add_sub_cancel' (Nat.le_of_not_lt hlt)] at hout

/-! ## All looks of a search -/

/-- **A whole search**: the places it looks from, and what it comes to. -/
inductive Attempts (rule : Rule) (limit : Nat) : Place → List Place → Option Found → Prop where
  | outside {p : Place} : limit ≤ p.offset → Attempts rule limit p [] none
  | answer {p : Place} {r : Option Found} : p.offset < limit → rule.attempt limit p = .answer r →
      Attempts rule limit p [p] r
  | again {p q : Place} {looks : List Place} {r : Option Found} : p.offset < limit →
      rule.attempt limit p = .again q → Attempts rule limit q looks r → Attempts rule limit p (p :: looks) r

/-- The places from which a search looks, at most so many. -/
def looksFrom (rule : Rule) (limit : Nat) : Nat → Place → List Place
  | 0, _ => []
  | looks + 1, p =>
    if p.offset < limit then
      match rule.attempt limit p with
      | .answer _ => [p]
      | .again q => p :: looksFrom rule limit looks q
    else []

/-- **The places from which a search looks** for a match that ends inside the first `limit` bytes. -/
def looks (rule : Rule) (limit : Nat) (p : Place) : List Place :=
  rule.looksFrom limit (p.after.length + 1) p

/-- **Whether the engine gives up a look of the search.** -/
def givenUp (rule : Rule) (limit : Nat) (p : Place) : Bool :=
  (rule.looks limit p).any (Engine.givesUp rule.expression)

namespace Attempts

variable {places : List Place} {r : Option Found}

/-- A search goes one way only. -/
theorem unique {places' : List Place} {r' : Option Found} (h : rule.Attempts limit p places r)
    (h' : rule.Attempts limit p places' r') : places = places' ∧ r = r' := by
  induction h generalizing places' r' with
  | outside hout =>
    cases h' with
    | outside => exact ⟨rfl, rfl⟩
    | answer hin => exact absurd hin (Nat.not_lt.2 hout)
    | again hin => exact absurd hin (Nat.not_lt.2 hout)
  | answer hin hattempt =>
    cases h' with
    | outside hout => exact absurd hin (Nat.not_lt.2 hout)
    | answer _ hattempt' =>
      cases hattempt.symm.trans hattempt'
      exact ⟨rfl, rfl⟩
    | again _ hattempt' => cases hattempt.symm.trans hattempt'
  | again hin hattempt _ ih =>
    cases h' with
    | outside hout => exact absurd hin (Nat.not_lt.2 hout)
    | answer _ hattempt' => cases hattempt.symm.trans hattempt'
    | again _ hattempt' hrest' =>
      cases hattempt.symm.trans hattempt'
      obtain ⟨rfl, rfl⟩ := ih hrest'
      exact ⟨rfl, rfl⟩

/-- **A search comes to the nearest match that fits**, if none of its looks is given up. -/
theorem nearest (h : rule.Attempts limit p places r) (hup : ∀ q ∈ places, Engine.givesUp rule.expression q = false) :
    Nearest (rule.fitsAt limit) p r := by
  induction h with
  | outside hout => exact fun k hk => fitsAt_outside hout hk
  | answer _ hattempt => exact nearest_of_attempt_eq_answer (hup _ List.mem_cons_self) hattempt
  | again _ hattempt _ ih =>
    obtain ⟨k, hk, rfl, -, hpassed⟩ := skip_of_attempt_eq_again hattempt
    exact (ih fun q hq => hup q (List.mem_cons_of_mem _ hq)).of_skip hk hpassed

/-- Of a search that comes to a match no look is given up. -/
theorem not_givesUp {f : Found} (h : rule.Attempts limit p places (some f)) :
    ∀ q ∈ places, Engine.givesUp rule.expression q = false := by
  generalize hr : some f = r at h
  induction h with
  | outside => cases hr
  | answer _ hattempt =>
    subst hr
    exact List.forall_mem_singleton.2 (find_eq_some.1 (attempt_eq_some.1 hattempt).1).1
  | again _ hattempt _ ih =>
    obtain ⟨g, hfind, -⟩ := attempt_eq_again.1 hattempt
    exact List.forall_mem_cons.2 ⟨(find_eq_some.1 hfind).1, ih hr⟩

/-- **What a search comes to, a search from every later place comes to** that does not lie behind it. -/
theorem skip (hrule : rule.WellMade) {f : Found} (h : rule.Attempts limit p places (some f)) (m : Nat)
    (hm : (p.skip m).offset ≤ f.start) : ∃ places', rule.Attempts limit (p.skip m) places' (some f) := by
  generalize hr : some f = r at h
  induction h generalizing m with
  | outside => cases hr
  | answer hin hattempt =>
    subst hr
    obtain ⟨hfind, hstart, hstop⟩ := attempt_eq_some.1 hattempt
    exact ⟨_, .answer (Nat.lt_of_le_of_lt hm hstart) (attempt_eq_some.2 ⟨hrule.find_skip hfind m hm, hstart, hstop⟩)⟩
  | @again p q looks r hin hattempt hrest ih =>
    obtain ⟨g, hfind, hstart, hstop, rfl⟩ := attempt_eq_again.1 hattempt
    by_cases hbefore : (p.skip m).offset ≤ g.start
    · have hagain := attempt_eq_again.2 ⟨g, hrule.find_skip hfind m hbefore, hstart, hstop, rfl⟩
      exact ⟨_, .again (Nat.lt_of_le_of_lt hbefore hstart) hagain hrest⟩
    · -- the place lies behind the match that ran on, and the search from there comes by it
      obtain ⟨-, k, hk, hg, -⟩ := find_eq_some.1 hfind
      have hsite : g.site = p.skip k := (foundAt_eq_some hg).1
      have hkm : k < m := Nat.lt_of_not_le fun hmk => hbefore (by
        rw [Found.start, hsite]
        exact p.offset_skip_le hmk)
      have hplace : p.skip m = g.site.next.skip (m - (k + 1)) := by
        have hnext : g.site.next = p.skip (k + 1) := by
          rw [hsite, Place.skip_add]
          rfl
        rw [hnext, ← Place.skip_add, Nat.add_sub_cancel' (Nat.succ_le_of_lt hkm)]
      rw [hplace] at hm ⊢
      exact ih _ hm hr

/-- **A search looks further on each time**, by at least one whole character, and only inside the region. -/
theorem ahead (h : rule.Attempts limit p places r) :
    places.IsChain (fun a b => ∃ k < a.after.length, b = a.skip (k + 1)) ∧
      (∀ q ∈ places.head?, q = p) ∧ ∀ q ∈ places, p.offset ≤ q.offset ∧ q.offset < limit := by
  induction h with
  | outside => exact ⟨.nil, by simp, by simp⟩
  | answer hin =>
    refine ⟨.singleton _, fun q hq => ?_, List.forall_mem_singleton.2 ⟨Nat.le_refl _, hin⟩⟩
    cases hq
    rfl
  | @again p q looks r hin hattempt _ ih =>
    obtain ⟨hchain, hhead, hinside⟩ := ih
    obtain ⟨k, hk, rfl, -, -⟩ := skip_of_attempt_eq_again hattempt
    have hle : p.offset ≤ (p.skip (k + 1)).offset := p.offset_skip_le (Nat.zero_le _)
    refine ⟨List.isChain_cons.2 ⟨fun q hq => ⟨k, hk, hhead q hq⟩, hchain⟩, fun q hq => ?_, ?_⟩
    · cases hq
      rfl
    · refine List.forall_mem_cons.2 ⟨⟨Nat.le_refl _, hin⟩, fun q hq => ?_⟩
      exact ⟨Nat.le_trans hle (hinside q hq).1, (hinside q hq).2⟩

/-- **A search looks at most once for each character of its region.** -/
theorem few (h : rule.Attempts limit p places r) : ∀ n, (p.skip n).offset = limit → places.length ≤ n := by
  induction h with
  | outside => exact fun n _ => Nat.zero_le n
  | @answer p r hin _ =>
    intro n hn
    exact Nat.pos_of_ne_zero fun hzero => Nat.ne_of_lt hin (by rw [← hn, hzero]; rfl)
  | @again p q looks r hin hattempt _ ih =>
    intro n hn
    obtain ⟨k, -, rfl, hstart, -⟩ := skip_of_attempt_eq_again hattempt
    have hkn : k < n := Nat.lt_of_not_le fun hnk => Nat.not_lt.2 (hn ▸ p.offset_skip_le hnk) hstart
    have hrest := ih (n - (k + 1)) (by rw [← Place.skip_add, Nat.add_sub_cancel' hkn, hn])
    rw [List.length_cons]
    omega

end Attempts

theorem findWithinFrom_succ (rule : Rule) (limit fuel : Nat) (p : Place) : rule.findWithinFrom limit (fuel + 1) p =
    if p.offset < limit then
      match rule.attempt limit p with
      | .answer r => r
      | .again q => rule.findWithinFrom limit fuel q
    else none := by
  rw [findWithinFrom, attempt]
  cases rule.find p with
  | none => rfl
  | some f => grind

theorem attempts_findWithinFrom (rule : Rule) (limit : Nat) : ∀ (fuel : Nat) (p : Place), p.after.length ≤ fuel →
    rule.Attempts limit p (rule.looksFrom limit (fuel + 1) p) (rule.findWithinFrom limit fuel p)
  | 0, p, hfuel => by
    have hend := List.length_eq_zero_iff.1 (Nat.le_zero.1 hfuel)
    have hattempt : rule.attempt limit p = .answer none := by
      rw [attempt, find_end hend]
    rw [looksFrom, hattempt]
    split
    · exact .answer ‹_› hattempt
    · exact .outside (Nat.le_of_not_lt ‹_›)
  | fuel + 1, p, hfuel => by
    rw [looksFrom, findWithinFrom_succ]
    by_cases hin : p.offset < limit
    · rw [if_pos hin, if_pos hin]
      cases hattempt : rule.attempt limit p with
      | answer r => exact .answer hin hattempt
      | again q =>
        obtain ⟨k, hk, rfl, -, -⟩ := skip_of_attempt_eq_again hattempt
        refine .again hin hattempt (attempts_findWithinFrom rule limit fuel _ ?_)
        rw [Place.length_after_skip]
        omega
    · rw [if_neg hin, if_neg hin]
      exact .outside (Nat.le_of_not_lt hin)

/-- **A search inside a region ends**, and it comes to what is counted out. -/
theorem attempts_findWithin (rule : Rule) (limit : Nat) (p : Place) :
    rule.Attempts limit p (rule.looks limit p) (rule.findWithin limit p) :=
  attempts_findWithinFrom rule limit _ p (Nat.le_refl _)

theorem attempts_iff {places : List Place} {r : Option Found} :
    rule.Attempts limit p places r ↔ places = rule.looks limit p ∧ r = rule.findWithin limit p := by
  constructor
  · exact fun h => h.unique (rule.attempts_findWithin limit p)
  · rintro ⟨rfl, rfl⟩
    exact rule.attempts_findWithin limit p

theorem givenUp_of_givesUp (hin : p.offset < limit) (hup : Engine.givesUp rule.expression p = true) :
    rule.givenUp limit p = true := by
  have hfirst : p ∈ rule.looks limit p := by
    rw [looks, looksFrom, if_pos hin]
    cases rule.attempt limit p <;> exact List.mem_cons_self
  exact List.any_eq_true.2 ⟨p, hfirst, hup⟩

/-- Over a whole text no match runs on behind the region, and so a search looks only once. -/
theorem givenUp_line {text : List Char} (hup : Engine.givesUp rule.expression (Place.start text) = false) :
    rule.givenUp (byteSize text) (Place.start text) = false := by
  have honce : ∀ q ∈ rule.looks (byteSize text) (Place.start text), q = Place.start text := by
    intro q hq
    rw [looks, looksFrom] at hq
    split at hq
    · cases hattempt : rule.attempt (byteSize text) (Place.start text) with
      | answer r =>
        rw [hattempt] at hq
        exact List.mem_singleton.1 hq
      | again q' =>
        obtain ⟨f, hfind, -, hstop, -⟩ := attempt_eq_again.1 hattempt
        obtain ⟨-, k, -, hf, -⟩ := find_eq_some.1 hfind
        have hle := Place.offset_skip_start_le text (k + f.length)
        rw [Place.skip_add, ← (foundAt_eq_some hf).1] at hle
        exact absurd (f.offset_next ▸ hle) (Nat.not_le.2 hstop)
    · cases hq
  refine List.any_eq_false.2 fun q hq => ?_
  rw [honce q hq, hup]
  exact Bool.false_ne_true

theorem not_givesUp_of_mem_looks (hup : rule.givenUp limit p = false) :
    ∀ q ∈ rule.looks limit p, Engine.givesUp rule.expression q = false := by
  intro q hq
  exact Bool.eq_false_iff.2 (List.any_eq_false.1 hup q hq)

/-- **A search of which no look is given up finds the nearest match that fits.** -/
theorem nearest_findWithin (hup : rule.givenUp limit p = false) :
    Nearest (rule.fitsAt limit) p (rule.findWithin limit p) :=
  (rule.attempts_findWithin limit p).nearest (not_givesUp_of_mem_looks hup)

theorem givenUp_of_findWithin_eq_some {f : Found} (h : rule.findWithin limit p = some f) :
    rule.givenUp limit p = false := by
  have hrun := rule.attempts_findWithin limit p
  rw [h] at hrun
  refine List.any_eq_false.2 fun q hq => ?_
  rw [hrun.not_givesUp q hq]
  exact Bool.false_ne_true

/-- **What is found stays found** from every later place that does not lie behind it. -/
theorem findWithin_skip (hrule : rule.WellMade) {f : Found} (h : rule.findWithin limit p = some f) (m : Nat)
    (hm : (p.skip m).offset ≤ f.start) : rule.findWithin limit (p.skip m) = some f := by
  obtain ⟨_, hrun⟩ := (attempts_iff.2 ⟨rfl, h.symm⟩).skip hrule m hm
  exact (attempts_iff.1 hrun).2.symm

/-- **Where nothing is found nothing is found later**, unless a look was given up. -/
theorem findWithin_none_skip (hup : rule.givenUp limit p = false) (h : rule.findWithin limit p = none) (m : Nat) :
    rule.findWithin limit (p.skip m) = none := by
  have hnone := nearest_findWithin hup
  rw [h] at hnone
  cases hlater : rule.findWithin limit (p.skip m) with
  | none => rfl
  | some f =>
    have hsome := nearest_findWithin (givenUp_of_findWithin_eq_some hlater)
    rw [hlater] at hsome
    cases (hnone.none_skip m).unique hsome

end Rule

end JsxView
