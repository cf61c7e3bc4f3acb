import JsxView.Engine
/-!
# An engine that counts how often it goes back

This engine reads an expression from left to right and leaves a choice open wherever
there is another way on: at an alternative, at each round of a loop, and at a look-around
that wants no match.  Where it gets stuck it goes back to the choice it has left open
last, and each time it does that is counted.  With `backtrackLimit` of them spent it gives
the search up.  A plain part of an expression that looks ahead is read without any of
this, and so is an expression that is plain as a whole.

`Regex.work` reads an expression from a spot, with what is left to spend, and hands the
spot where it ends to what comes behind it; `Regex.search` reads it at one place of a text
after the other, where going on to the next place is going back too.  Reading that is not
given up is the same with more to spend (`Regex.steady_work`), and it goes through the
ways of the expression (`Regex.explores_work`), so the engine is one
(`Engine.backtracking`).
-/
namespace JsxView

/-- How reading ends, with what is left to spend. -/
inductive Verdict where
  | found (left : Nat)
  | failed (left : Nat)
  | gaveUp
  deriving DecidableEq, Repr

namespace Verdict

/-- Going back to another way on where the first one has failed. -/
@[inline] def orElse (v : Verdict) (other : Nat → Verdict) : Verdict :=
  match v with
  | failed (left + 1) => other left
  | failed 0 => gaveUp
  | v => v

/-- Going on only where something else has failed. -/
@[inline] def instead (v : Verdict) (other : Nat → Verdict) : Verdict :=
  match v with
  | found left => failed left
  | v => v.orElse other

def more (d : Nat) : Verdict → Verdict
  | found left => found (left + d)
  | failed left => failed (left + d)
  | gaveUp => gaveUp

theorem orElse_eq_found {v : Verdict} {other : Nat → Verdict} {l : Nat} (h : v.orElse other = found l) :
    v = found l ∨ ∃ m, v = failed (m + 1) ∧ other m = found l := by
  match v, h with
  | found _, h => exact Or.inl h
  | failed (m + 1), h => exact Or.inr ⟨m, rfl, h⟩

theorem orElse_eq_failed {v : Verdict} {other : Nat → Verdict} {l : Nat} (h : v.orElse other = failed l) :
    ∃ m, v = failed (m + 1) ∧ other m = failed l := by
  match v, h with
  | failed (m + 1), h => exact ⟨m, rfl, h⟩

theorem instead_eq_found {v : Verdict} {other : Nat → Verdict} {l : Nat} (h : v.instead other = found l) :
    ∃ m, v = failed (m + 1) ∧ other m = found l := by
  match v, h with
  | failed (m + 1), h => exact ⟨m, rfl, h⟩

theorem instead_eq_failed {v : Verdict} {other : Nat → Verdict} {l : Nat} (h : v.instead other = failed l) :
    v = found l ∨ ∃ m, v = failed (m + 1) ∧ other m = failed l := by
  match v, h with
  | found m, h =>
    cases h
    exact Or.inl rfl
  | failed (m + 1), h => exact Or.inr ⟨m, rfl, h⟩

end Verdict

/-- What is behind a part of an expression: a verdict for each spot and for what is left to spend. -/
abbrev Continuation := Spot → Nat → Verdict

namespace Regex

open Verdict

/-- A loop, when `round` reads one round.  Every round takes a character. -/
def loop (round : Continuation → Continuation) (greedy : Bool) (k : Continuation) : Nat → Continuation
  | 0, s, n => k s n
  | fuel + 1, s, n =>
    let again := round fun t m => if t.after.length < s.after.length then loop round greedy k fuel t m else failed m
    if greedy then (again s n).orElse (k s) else (k s n).orElse (again s)

/-- Reads an expression, and with `k` what is behind it. -/
def work : Regex → Continuation → Continuation
  | empty, k, s, n => k s n
  | one accept, k, s, n => if s.after.head?.any accept then k (s.skip 1) n else failed n
  | seq first next, k, s, n => first.work (next.work k) s n
  | alt first other, k, s, n => (first.work k s n).orElse (other.work k s)
  | star greedy body, k, s, n => loop body.work greedy k (s.after.length + 1) s n
  | group body, k, s, n => body.work (fun t => k (s.groupSince t)) s n
  | again, k, s, n =>
    match s.group with
    | some text => if text.isPrefixOf s.after then k (s.skip text.length) n else failed n
    | none => failed n
  | ahead true body, k, s, n =>
    if body.plain then if (body.ways s).isEmpty then failed n else k s n
    else body.work (fun _ => k s) s n
  | ahead false body, k, s, n =>
    if body.plain then if (body.ways s).isEmpty then (failed n).orElse (k s) else failed n
    else (body.work (fun _ => found) s n).instead (k s)
  | behind true accept, k, s, n => if s.before.any accept then k s n else failed n
  | behind false accept, k, s, n => if s.before.any accept then failed n else (failed n).orElse (k s)

def attempt (r : Regex) (before : Option Char) (text : List Char) (n : Nat) : Verdict :=
  r.work (fun _ => found) ⟨before, text, none⟩ n

/-- Reads an expression at a place, and where it does not match there at the next one. -/
def search (r : Regex) : Option Char → List Char → Nat → Verdict
  | before, [], n => (r.attempt before [] n).orElse failed
  | before, c :: rest, n => (r.attempt before (c :: rest) n).orElse (r.search (some c) rest)

end Regex

/-! ## Reading with more to spend -/

/-- What spends from what there is, and does the same with more of it, unless it is given up. -/
structure Steady (f : Nat → Verdict) : Prop where
  more : ∀ {n}, f n ≠ .gaveUp → ∀ d, f (n + d) = (f n).more d
  le : ∀ {n l}, f n = .found l ∨ f n = .failed l → l ≤ n

namespace Steady

variable {f g : Nat → Verdict}

theorem failed : Steady .failed where
  more _ _ := rfl
  le h := by
    rcases h with h | h <;> cases h
    exact Nat.le_refl _

theorem found : Steady .found where
  more _ _ := rfl
  le h := by
    rcases h with h | h <;> cases h
    exact Nat.le_refl _

theorem ite {c : Prop} [Decidable c] (hf : Steady f) (hg : Steady g) : Steady fun n => if c then f n else g n := by
  by_cases hc : c
  · simpa only [if_pos hc] using hf
  · simpa only [if_neg hc] using hg

theorem orElse (hf : Steady f) (hg : Steady g) : Steady fun n => (f n).orElse g where
  more {n} h d := by
    cases hv : f n with
    | gaveUp => exact absurd (by rw [hv]; rfl) h
    | found l =>
      rw [hf.more (by simp [hv]), hv]
      rfl
    | failed l =>
      rw [hv] at h
      rw [hf.more (by simp [hv]), hv]
      cases l with
      | zero => exact absurd rfl h
      | succ l =>
        rw [Verdict.more, Nat.add_right_comm]
        exact hg.more h d
  le {n l} h := by
    have helse : ∀ {m}, f n = .failed (m + 1) → g m = .found l ∨ g m = .failed l → l ≤ n := fun hv h =>
      Nat.le_trans (hg.le h) (Nat.le_of_succ_le (hf.le (Or.inr hv)))
    rcases h with h | h
    · rcases Verdict.orElse_eq_found h with hv | ⟨m, hv, hm⟩
      · exact hf.le (Or.inl hv)
      · exact helse hv (Or.inl hm)
    · obtain ⟨m, hv, hm⟩ := Verdict.orElse_eq_failed h
      exact helse hv (Or.inr hm)

theorem instead (hf : Steady f) (hg : Steady g) : Steady fun n => (f n).instead g where
  more {n} h d := by
    have helse := (hf.orElse hg).more (n := n)
    cases hv : f n with
    | gaveUp => exact absurd (by rw [hv]; rfl) h
    | found l =>
      rw [hf.more (by simp [hv]), hv]
      rfl
    | failed l =>
      rw [hv] at h helse
      have hd := helse h d
      rw [hf.more (by simp [hv]), hv] at hd ⊢
      exact hd
  le {n l} h := by
    have helse : (f n).orElse g = .found l ∨ (f n).orElse g = .failed l → l ≤ n := (hf.orElse hg).le
    cases hv : f n with
    | gaveUp =>
      rw [hv] at h
      rcases h with h | h <;> cases h
    | found l' =>
      rw [hv] at h
      rcases h with h | h <;> cases h
      exact hf.le (Or.inl hv)
    | failed l' =>
      rw [hv] at h helse
      exact helse h

end Steady

namespace Regex

theorem steady_loop {round : Continuation → Continuation} (hround : ∀ k, (∀ s, Steady (k s)) → ∀ s, Steady (round k s))
    (greedy : Bool) {k : Continuation} (hk : ∀ s, Steady (k s)) : ∀ fuel s, Steady (loop round greedy k fuel s)
  | 0, s => hk s
  | fuel + 1, s => by
    have hagain := hround _ (fun t => Steady.ite (c := t.after.length < s.after.length)
      (steady_loop hround greedy hk fuel t) .failed) s
    cases greedy with
    | true => exact hagain.orElse (hk s)
    | false => exact (hk s).orElse hagain

/-- **Reading that is not given up is the same with more to spend.** -/
theorem steady_work (r : Regex) : ∀ {k : Continuation}, (∀ s, Steady (k s)) → ∀ s, Steady (r.work k s) := by
  induction r with
  | empty => exact fun hk => hk
  | one accept => exact fun hk s => .ite (hk _) .failed
  | seq first next hfirst hnext => exact fun hk => hfirst (hnext hk)
  | alt first other hfirst hother => exact fun hk s => (hfirst hk s).orElse (hother hk s)
  | star greedy body hbody => exact fun hk s => steady_loop (fun _ => hbody) greedy hk _ s
  | group body hbody => exact fun hk s => hbody (fun _ => hk _) s
  | again =>
    rintro k hk ⟨before, after, group⟩
    cases group with
    | none => exact .failed
    | some text => exact .ite (hk _) .failed
  | ahead wanted body hbody =>
    intro k hk s
    cases wanted with
    | true => exact .ite (.ite .failed (hk s)) (hbody (fun _ => hk s) s)
    | false => exact .ite (.ite (Steady.failed.orElse (hk s)) .failed) ((hbody (fun _ => .found) s).instead (hk s))
  | behind wanted accept =>
    intro k hk s
    cases wanted with
    | true => exact .ite (hk s) .failed
    | false => exact .ite .failed (Steady.failed.orElse (hk s))

theorem steady_attempt (r : Regex) (before : Option Char) (text : List Char) : Steady (r.attempt before text) :=
  r.steady_work (fun _ => .found) _

theorem steady_search (r : Regex) : ∀ (before : Option Char) (text : List Char), Steady (r.search before text)
  | _, [] => (r.steady_attempt _ _).orElse .failed
  | _, c :: rest => (r.steady_attempt _ _).orElse (steady_search r (some c) rest)

end Regex

/-! ## Reading and ways to read -/

/-- Reading that goes through some ends: where it finds something, that was found behind one of them, and where it
fails, it has failed behind each of them. -/
structure Explores (ends : List Spot) (k : Continuation) (f : Nat → Verdict) : Prop where
  found : ∀ {n l}, f n = .found l → ∃ t ∈ ends, ∃ m, k t m = .found l
  failed : ∀ {n l}, f n = .failed l → ∀ t ∈ ends, ∃ m l', k t m = .failed l'

namespace Explores

variable {ends more : List Spot} {k : Continuation} {f g : Nat → Verdict} {s : Spot}

theorem nil : Explores [] k .failed where
  found h := nomatch h
  failed _ _ ht := nomatch ht

theorem single : Explores [s] k (k s) where
  found h := ⟨s, List.mem_singleton_self s, _, h⟩
  failed h t ht := by
    rw [List.mem_singleton.1 ht]
    exact ⟨_, _, h⟩

theorem ite {c : Prop} [Decidable c] (hf : Explores ends k f) (hg : Explores more k g) :
    Explores (if c then ends else more) k fun n => if c then f n else g n := by
  by_cases hc : c
  · simpa only [if_pos hc] using hf
  · simpa only [if_neg hc] using hg

theorem orElse (hf : Explores ends k f) (hg : Explores more k g) :
    Explores (ends ++ more) k fun n => (f n).orElse g where
  found h := by
    rcases Verdict.orElse_eq_found h with hv | ⟨m, -, hm⟩
    · obtain ⟨t, ht, hfound⟩ := hf.found hv
      exact ⟨t, List.mem_append_left _ ht, hfound⟩
    · obtain ⟨t, ht, hfound⟩ := hg.found hm
      exact ⟨t, List.mem_append_right _ ht, hfound⟩
  failed h t ht := by
    obtain ⟨m, hv, hm⟩ := Verdict.orElse_eq_failed h
    rcases List.mem_append.1 ht with ht | ht
    · exact hf.failed hv t ht
    · exact hg.failed hm t ht

theorem flatMap {next : Spot → List Spot} {k' : Continuation} (hf : Explores ends k' f)
    (hnext : ∀ t, Explores (next t) k (k' t)) : Explores (ends.flatMap next) k f where
  found h := by
    obtain ⟨t, ht, m, hm⟩ := hf.found h
    obtain ⟨u, hu, hfound⟩ := (hnext t).found hm
    exact ⟨u, List.mem_flatMap.2 ⟨t, ht, hu⟩, hfound⟩
  failed h u hu := by
    obtain ⟨t, ht, hu⟩ := List.mem_flatMap.1 hu
    obtain ⟨m, l, hm⟩ := hf.failed h t ht
    exact (hnext t).failed hm u hu

/-- What looks ahead goes on from where it stands, wherever the text that it looks for ends. -/
theorem look (hf : Explores ends (fun _ => k s) f) : Explores (if ends.isEmpty then [] else [s]) k f := by
  cases ends with
  | nil =>
    exact ⟨fun h => (by obtain ⟨t, ht, -⟩ := hf.found h; cases ht), fun _ t ht => nomatch ht⟩
  | cons u rest =>
    refine ⟨fun h => ?_, fun h t ht => ?_⟩
    · obtain ⟨-, -, hfound⟩ := hf.found h
      exact ⟨s, List.mem_singleton_self s, hfound⟩
    · rw [List.mem_singleton.1 ht]
      exact hf.failed h u List.mem_cons_self

theorem instead (hf : Explores ends (fun _ => .found) f) :
    Explores (if ends.isEmpty then [s] else []) k fun n => (f n).instead (k s) := by
  cases ends with
  | nil =>
    refine ⟨fun h => ?_, fun h t ht => ?_⟩
    · obtain ⟨m, -, hm⟩ := Verdict.instead_eq_found h
      exact ⟨s, List.mem_singleton_self s, m, hm⟩
    · rw [List.mem_singleton.1 ht]
      rcases Verdict.instead_eq_failed h with hv | ⟨m, -, hm⟩
      · obtain ⟨u, hu, -⟩ := hf.found hv
        cases hu
      · exact ⟨m, _, hm⟩
  | cons u rest =>
    refine ⟨fun h => ?_, fun _ _ ht => nomatch ht⟩
    obtain ⟨m, hv, -⟩ := Verdict.instead_eq_found h
    obtain ⟨_, _, hu⟩ := hf.failed hv u List.mem_cons_self
    cases hu

end Explores

namespace Regex

open Verdict

theorem explores_loop {round : Continuation → Continuation} {ends : Spot → List Spot}
    (hround : ∀ k s, Explores (ends s) k (round k s)) (greedy : Bool) (k : Continuation) :
    ∀ fuel s, Explores (rounds ends greedy fuel s) k (loop round greedy k fuel s)
  | 0, s => .single
  | fuel + 1, s => by
    have hagain := (hround _ s).flatMap (k := k) fun t => Explores.ite (c := t.after.length < s.after.length)
      (explores_loop hround greedy k fuel t) .nil
    cases greedy with
    | true => exact hagain.orElse .single
    | false => exact Explores.single.orElse hagain

/-- **Reading an expression goes through its ways.** -/
theorem explores_work (r : Regex) : ∀ (k : Continuation) (s : Spot), Explores (r.ways s) k (r.work k s) := by
  induction r with
  | empty => exact fun k s => .single
  | one accept => exact fun k s => .ite .single .nil
  | seq first next hfirst hnext => exact fun k s => (hfirst _ s).flatMap (hnext k)
  | alt first other hfirst hother => exact fun k s => (hfirst k s).orElse (hother k s)
  | star greedy body hbody => exact fun k s => explores_loop hbody greedy k _ s
  | group body hbody =>
    intro k s
    have hends := (hbody (fun t => k (s.groupSince t)) s).flatMap fun t => Explores.single (k := k) (s := s.groupSince t)
    rwa [← List.map_eq_flatMap] at hends
  | again =>
    rintro k ⟨before, after, group⟩
    cases group with
    | none => exact .nil
    | some text => exact .ite .single .nil
  | ahead wanted body hbody =>
    intro k s
    cases wanted with
    | true =>
      have hread := (Explores.ite (c := (body.ways s).isEmpty = true) .nil (.single (s := s))).ite
        (c := body.plain = true) (hbody (fun _ => k s) s).look
      rwa [ite_self] at hread
    | false =>
      have hends : (ahead false body).ways s = if (body.ways s).isEmpty then [s] else [] := by
        cases h : (body.ways s).isEmpty <;> simp [ways, h]
      have hread := (Explores.ite (c := (body.ways s).isEmpty = true) (Explores.nil.orElse (.single (s := s))) .nil).ite
        (c := body.plain = true) ((hbody (fun _ => found) s).instead (k := k) (s := s))
      rwa [List.nil_append, ite_self, ← hends] at hread
  | behind wanted accept =>
    intro k s
    cases wanted with
    | true => exact .ite .single .nil
    | false =>
      have hends : (behind false accept).ways s = if s.before.any accept then [] else [s] := by
        cases h : s.before.any accept <;> simp [ways, h]
      rw [hends]
      exact .ite .nil (Explores.nil.orElse .single)

/-- Where an expression does not match, reading it there does not find anything. -/
theorem attempt_ne_found {r : Regex} {before : Option Char} {text : List Char} (h : r.pattern before text = none)
    (n l : Nat) : r.attempt before text n ≠ found l := by
  intro hfound
  obtain ⟨t, ht, -⟩ := (r.explores_work _ _).found hfound
  rw [pattern, Option.map_eq_none_iff, List.head?_eq_none_iff] at h
  rw [h] at ht
  cases ht

/-- **A search goes on behind a place where nothing matches**, with less to spend. -/
theorem search_onward {r : Regex} {before : Option Char} {c : Char} {rest : List Char} {n : Nat}
    (h : r.search before (c :: rest) n ≠ gaveUp) (hnone : r.pattern before (c :: rest) = none) :
    r.search (some c) rest n ≠ gaveUp := by
  rw [search] at h
  cases hv : r.attempt before (c :: rest) n with
  | gaveUp => exact absurd (by rw [hv]; rfl) h
  | found l => exact absurd hv (attempt_ne_found hnone n l)
  | failed l =>
    rw [hv] at h
    cases l with
    | zero => exact absurd rfl h
    | succ l =>
      have hle := (r.steady_attempt before (c :: rest)).le (Or.inr hv)
      have hmore := (r.steady_search (some c) rest).more h (n - l)
      rw [Nat.add_sub_cancel' (by omega)] at hmore
      rw [hmore]
      cases hv' : r.search (some c) rest l with
      | gaveUp => exact absurd hv' h
      | _ => exact fun h => nomatch h

end Regex

/-- How often the engine goes back in one search. -/
def backtrackLimit : Nat := 1000000

abbrev Engine.backtracking : Engine where
  givesUp r p := !r.plain && decide (r.search p.before p.after backtrackLimit = .gaveUp)
  plain r p h := by simp [h]
  onward r p h hnone := by
    obtain ⟨offset, before, text⟩ := p
    cases text with
    | nil => exact h
    | cons c rest =>
      cases hr : r.plain with
      | true => rfl
      | false =>
        rw [hr] at h
        exact decide_eq_false (Regex.search_onward (of_decide_eq_false h) hnone)

end JsxView
