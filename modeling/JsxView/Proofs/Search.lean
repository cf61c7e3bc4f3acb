import JsxView.Proofs.Cut
import JsxView.Proofs.Place
import JsxView.Rule
/-!
# Search — what a search from a place finds

`Nearest test p r` says what `r` is without saying how it is found: the answer of `test` at the nearest place at or
behind `p` where it has one, and nothing where it has none up to the end of the text.  A search that the engine does not
give up finds just that (`Rule.find_eq_some`, `Rule.nearest_of_find_eq_none`).  What is nearest from one place stays
nearest from every later place that does not lie behind it (`Nearest.some_skip`).  Of the rules that say outright what
their expressions match (`Rule.WellMade`) it is also found from there: a search that comes by a place goes on as the
search from it, and so that one is not given up either (`Rule.WellMade.find_skip`).
-/
namespace JsxView

/-- **The answer of a test at the nearest place** at or behind `p` where it has one. -/
def Nearest (test : Place → Option Found) (p : Place) : Option Found → Prop
  | some f => ∃ k < p.after.length, test (p.skip k) = some f ∧ ∀ j < k, test (p.skip j) = none
  | none => ∀ k < p.after.length, test (p.skip k) = none

/-- A test whose answers are matches at the place it was asked about. -/
def OnSite (test : Place → Option Found) : Prop :=
  ∀ p f, test p = some f → f.site = p

/-- The place behind a match has the bytes up to its end before it. -/
theorem Found.offset_next (f : Found) : f.next.offset = f.stop :=
  Place.offset_skip f.site f.length

namespace Nearest

variable {test : Place → Option Found} {p : Place}

theorem end_of_text (h : p.after = []) : Nearest test p none := by
  intro k hk
  rw [h] at hk
  exact absurd hk (Nat.not_lt_zero k)

theorem unique {r r' : Option Found} (h : Nearest test p r) (h' : Nearest test p r') : r = r' := by
  cases r with
  | none =>
    cases r' with
    | none => rfl
    | some f' =>
      obtain ⟨k, hk, hf, -⟩ := h'
      rw [h k hk] at hf
      cases hf
  | some f =>
    obtain ⟨k, hk, hf, hbefore⟩ := h
    cases r' with
    | none =>
      rw [h' k hk] at hf
      cases hf
    | some f' =>
      obtain ⟨k', hk', hf', hbefore'⟩ := h'
      rcases Nat.lt_trichotomy k k' with hlt | rfl | hgt
      · rw [hbefore' k hlt] at hf
        cases hf
      · rw [← hf, ← hf']
      · rw [hbefore k' hgt] at hf'
        cases hf'

/-- What a test answers at the place itself is nearest, and otherwise what is nearest from the next place. -/
theorem step {r : Option Found} (hne : p.after ≠ []) (h : Nearest test p.next r) :
    Nearest test p ((test p).or r) := by
  have hlen : p.after.length = p.next.after.length + 1 := by
    have := List.length_pos_iff.2 hne
    rw [Place.after_next, List.length_drop]
    omega
  cases htest : test p with
  | some f =>
    exact ⟨0, by omega, htest, fun j hj => absurd hj (Nat.not_lt_zero j)⟩
  | none =>
    cases r with
    | none =>
      intro k hk
      cases k with
      | zero => exact htest
      | succ k => exact h k (by omega)
    | some f =>
      obtain ⟨k, hk, hf, hbefore⟩ := h
      refine ⟨k + 1, by omega, hf, fun j hj => ?_⟩
      cases j with
      | zero => exact htest
      | succ j => exact hbefore j (by omega)

/-- A nearest answer is a match at or behind the place. -/
theorem offset_le {f : Found} (hon : OnSite test) (h : Nearest test p (some f)) : p.offset ≤ f.start := by
  obtain ⟨k, -, hf, -⟩ := h
  have hsite := hon _ _ hf
  unfold Found.start
  rw [hsite, Place.offset_skip]
  omega

/-- **Where nothing is found, nothing is found later.** -/
theorem none_skip (h : Nearest test p none) (m : Nat) : Nearest test (p.skip m) none := by
  intro k hk
  rw [Place.length_after_skip] at hk
  rw [← Place.skip_add]
  exact h (m + k) (by omega)

/-- A place at or before a match is no more characters further on than the match. -/
theorem index_le {f : Found} (hon : OnSite test) {k m : Nat} (hk : k < p.after.length)
    (hf : test (p.skip k) = some f) (hm : (p.skip m).offset ≤ f.start) : m ≤ k := by
  refine Nat.le_of_not_lt fun hlt => ?_
  have := Place.offset_skip_lt p hlt hk
  unfold Found.start at hm
  rw [hon _ _ hf] at hm
  omega

/-- **What is nearest stays nearest** from every later place that does not lie behind it. -/
theorem some_skip {f : Found} (hon : OnSite test) (h : Nearest test p (some f)) (m : Nat)
    (hm : (p.skip m).offset ≤ f.start) : Nearest test (p.skip m) (some f) := by
  obtain ⟨k, hk, hf, hbefore⟩ := h
  have hmk := index_le hon hk hf hm
  -- the same place, counted from `m` characters further on
  refine ⟨k - m, ?_, ?_, fun j hj => ?_⟩
  · rw [Place.length_after_skip]
    omega
  · rw [← Place.skip_add, Nat.add_sub_cancel' hmk]
    exact hf
  · rw [← Place.skip_add]
    exact hbefore (m + j) (by omega)

/-- What is nearest behind places without an answer is nearest from the first of them. -/
theorem of_skip {r : Option Found} {m : Nat} (hm : m ≤ p.after.length) (hnone : ∀ j < m, test (p.skip j) = none)
    (h : Nearest test (p.skip m) r) : Nearest test p r := by
  cases r with
  | none =>
    intro k hk
    by_cases hin : k < m
    · exact hnone k hin
    · have := h (k - m) (by rw [Place.length_after_skip]; omega)
      rwa [← Place.skip_add, Nat.add_sub_cancel' (Nat.le_of_not_lt hin)] at this
  | some f =>
    obtain ⟨k, hk, hf, hbefore⟩ := h
    rw [Place.length_after_skip] at hk
    refine ⟨m + k, by omega, by rwa [Place.skip_add], fun j hj => ?_⟩
    by_cases hin : j < m
    · exact hnone j hin
    · have := hbefore (j - m) (by omega)
      rwa [← Place.skip_add, Nat.add_sub_cancel' (Nat.le_of_not_lt hin)] at this

end Nearest

namespace Rule

/-- A match at a place lies there, is not empty and has the category of its rule. -/
theorem foundAt_eq_some {rule : Rule} {p : Place} {f : Found} (h : rule.foundAt p = some f) :
    f.site = p ∧ 0 < f.length ∧ f.category = rule.category := by
  unfold foundAt at h
  split at h
  · cases h
    exact ⟨rfl, Nat.succ_pos _, rfl⟩
  · cases h

theorem foundAt_eq_none {rule : Rule} {p : Place} (h : rule.pattern p.before p.after = none) :
    rule.foundAt p = none := by
  rw [foundAt, h]

theorem nearest_step {rule : Rule} {p : Place} (hne : p.after ≠ []) :
    rule.nearest p = (rule.foundAt p).or (rule.nearest p.next) := by
  obtain ⟨offset, before, after⟩ := p
  cases after with
  | nil => exact absurd rfl hne
  | cons c rest =>
    rw [nearest, nearestFrom]
    cases rule.foundAt ⟨offset, before, c :: rest⟩ <;> rfl

/-- **The first match is the nearest.** -/
theorem nearest_nearest (rule : Rule) (p : Place) : Nearest rule.foundAt p (rule.nearest p) := by
  -- on the number of characters behind the place
  generalize hn : p.after.length = n
  induction n generalizing p with
  | zero =>
    have hend := List.length_eq_zero_iff.1 hn
    rw [nearest, hend]
    exact Nearest.end_of_text hend
  | succ n ih =>
    have hne : p.after ≠ [] := by
      intro h
      rw [h] at hn
      cases hn
    rw [nearest_step hne]
    refine Nearest.step hne (ih p.next ?_)
    rw [Place.after_next, List.length_drop]
    omega

/-- **A rule that says what its expression matches**: its pattern takes at every place what the first way through the
expression takes, which is never more than there is and never nothing. -/
structure WellMade (rule : Rule) : Prop where
  expression : rule.expression.pattern = rule.pattern
  bounded : rule.pattern.Bounded
  advances : rule.pattern.Advances

theorem onSite_foundAt (rule : Rule) : OnSite rule.foundAt :=
  fun _ _ h => (foundAt_eq_some h).1

theorem WellMade.pattern_eq_none {rule : Rule} (hrule : rule.WellMade) {p : Place} (h : rule.foundAt p = none) :
    rule.expression.pattern p.before p.after = none := by
  rw [hrule.expression]
  unfold foundAt at h
  split at h
  · cases h
  · rename_i hnone
    cases hanswer : rule.pattern p.before p.after with
    | none => rfl
    | some n =>
      cases n with
      | zero => exact absurd hanswer (hrule.advances _ _)
      | succ n => exact absurd hanswer (hnone n)

/-! ## Searches that may be given up -/

section

variable [Engine] {rule : Rule} {p : Place} {f : Found}

/-- **What a search finds is nearest**, and the search was not given up. -/
theorem find_eq_some : rule.find p = some f ↔
    Engine.givesUp rule.expression p = false ∧ Nearest rule.foundAt p (some f) := by
  have hnear := rule.nearest_nearest p
  rw [find]
  cases Engine.givesUp rule.expression p with
  | true => simp
  | false =>
    simp only [Bool.false_eq_true, if_false, true_and]
    constructor
    · intro h
      rwa [h] at hnear
    · exact hnear.unique

/-- **Where a search finds nothing there is nothing**, unless it was given up. -/
theorem nearest_of_find_eq_none (h : rule.find p = none) (hup : Engine.givesUp rule.expression p = false) :
    Nearest rule.foundAt p none := by
  have hnear := rule.nearest_nearest p
  rw [find, hup] at h
  rwa [← h]

theorem find_end (h : p.after = []) : rule.find p = none := by
  refine Option.eq_none_iff_forall_ne_some.2 fun f hf => ?_
  obtain ⟨-, k, hk, -⟩ := find_eq_some.1 hf
  rw [h] at hk
  exact Nat.not_lt_zero k hk

namespace WellMade

variable (hrule : rule.WellMade)
include hrule

/-- A search that is not given up comes by every place before its match, and none of the searches from there is. -/
theorem givesUp_skip (hup : Engine.givesUp rule.expression p = false) : ∀ {m : Nat},
    (∀ j < m, rule.foundAt (p.skip j) = none) → Engine.givesUp rule.expression (p.skip m) = false
  | 0, _ => hup
  | m + 1, hnone => by
    have hhere := givesUp_skip hup fun j hj => hnone j (Nat.lt_succ_of_lt hj)
    rw [Place.skip_add]
    exact Engine.onward _ _ hhere (hrule.pattern_eq_none (hnone m (Nat.lt_succ_self m)))

/-- **What is found is found** from every later place that does not lie behind it. -/
theorem find_skip (h : rule.find p = some f) (m : Nat) (hm : (p.skip m).offset ≤ f.start) :
    rule.find (p.skip m) = some f := by
  obtain ⟨hup, hnear⟩ := find_eq_some.1 h
  have ⟨k, hk, hf, hbefore⟩ := hnear
  have hmk : m ≤ k := Nearest.index_le (onSite_foundAt rule) hk hf hm
  refine find_eq_some.2 ⟨hrule.givesUp_skip hup fun j hj => hbefore j (Nat.lt_of_lt_of_le hj hmk), ?_⟩
  exact hnear.some_skip (onSite_foundAt rule) m hm

end WellMade

end

end Rule

end JsxView
