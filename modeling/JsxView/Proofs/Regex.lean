import JsxView.Regex
import Mathlib.Data.List.TakeWhile
/-!
# Regex — expressions read by backtracking

`Regex.ways` reads an expression in every way there is, and the match at a place is the first of them.

Which way through a part is taken hangs on what has to come behind it.  So proofs go by `Regex.first k`, the first way
whose end `k` accepts: it has an equation for each form of expression, and a loop over a class of characters goes by the
run of them that stands there (`first_run`, `first_many`).
-/
namespace JsxView

namespace Regex

/-- The first way whose end is accepted, and what it is accepted as. -/
def first {β : Type} (k : Spot → Option β) (r : Regex) (s : Spot) : Option β :=
  (r.ways s).findSome? k

variable {β : Type} {k : Spot → Option β}

theorem pattern_eq (r : Regex) (b : Option Char) (text : List Char) :
    r.pattern b text = (r.first some ⟨b, text, none⟩).map fun s => text.length - s.after.length := by
  unfold pattern first
  cases r.ways ⟨b, text, none⟩ <;> rfl

/-! ## One equation for each form -/

theorem findSome?_flatMap (f : Spot → List Spot) : ∀ l : List Spot,
    (l.flatMap f).findSome? k = l.findSome? fun s => (f s).findSome? k
  | [] => rfl
  | s :: l => by
    rw [List.flatMap_cons, List.findSome?_append, findSome?_flatMap f l, List.findSome?_cons]
    cases (f s).findSome? k <;> rfl

@[simp] theorem first_empty (s : Spot) : empty.first k s = k s := by
  simp [first, ways]

@[simp] theorem first_one_nil (accept : Char → Bool) (b : Option Char) (g : Option (List Char)) :
    (one accept).first k ⟨b, [], g⟩ = none := by
  simp [first, ways]

@[simp] theorem first_one_cons (accept : Char → Bool) (b : Option Char) (c : Char) (text : List Char)
    (g : Option (List Char)) :
    (one accept).first k ⟨b, c :: text, g⟩ = if accept c then k ⟨some c, text, g⟩ else none := by
  by_cases hc : accept c <;> simp [first, ways, Spot.skip, hc]

@[simp] theorem first_seq (r next : Regex) (s : Spot) : (r.seq next).first k s = r.first (next.first k) s := by
  simp only [first, ways, findSome?_flatMap]
  rfl

@[simp] theorem first_alt (r other : Regex) (s : Spot) :
    (r.alt other).first k s = (r.first k s).or (other.first k s) := by
  simp only [first, ways, List.findSome?_append]

@[simp] theorem first_group (r : Regex) (s : Spot) : r.group.first k s =
    r.first (fun t => k (s.groupSince t)) s := by
  simp only [first, ways, List.findSome?_map]
  rfl

@[simp] theorem first_again (b : Option Char) (text word : List Char) :
    again.first k ⟨b, text, some word⟩ =
      if word <+: text then k ⟨word.getLast?.or b, text.drop word.length, some word⟩ else none := by
  by_cases h : word <+: text
  · simp [first, ways, Spot.skip, h, ← List.prefix_iff_eq_take.1 h]
  · simp [first, ways, h]

@[simp] theorem first_ahead (wanted : Bool) (r : Regex) (s : Spot) :
    (ahead wanted r).first k s = if (r.first some s).isSome = wanted then k s else none := by
  have hsome : (r.first some s).isSome = !(r.ways s).isEmpty := by
    unfold first
    cases r.ways s <;> rfl
  rw [hsome]
  cases h : (r.ways s).isEmpty <;> cases wanted <;> simp [first, ways, h]

@[simp] theorem first_behind (wanted : Bool) (accept : Char → Bool) (s : Spot) :
    (behind wanted accept).first k s = if s.before.any accept = wanted then k s else none := by
  by_cases h : s.before.any accept = wanted <;> simp [first, ways, h]

@[simp] theorem first_char_cons (c d : Char) (b : Option Char) (text : List Char) (g : Option (List Char)) :
    (char c).first k ⟨b, d :: text, g⟩ = if d = c then k ⟨some d, text, g⟩ else none := by
  simp [char]

@[simp] theorem first_char_nil (c : Char) (b : Option Char) (g : Option (List Char)) :
    (char c).first k ⟨b, [], g⟩ = none := by
  simp [char]

@[simp] theorem first_optional (r : Regex) (s : Spot) : (optional r).first k s = (r.first k s).or (k s) := by
  simp [optional]

/-! ## Loops -/

theorem rounds_end (round : Spot → List Spot) (greedy : Bool) : ∀ (fuel : Nat) {s : Spot}, s.after.length = 0 →
    rounds round greedy fuel s = [s]
  | 0, _, _ => rfl
  | fuel + 1, s, h => by
    have hmore : ((round s).flatMap fun t =>
        if t.after.length < s.after.length then rounds round greedy fuel t else []) = [] :=
      List.flatMap_eq_nil_iff.2 fun t _ => if_neg (by omega)
    cases greedy <;> simp [rounds, hmore]

theorem rounds_stable (round : Spot → List Spot) (greedy : Bool) : ∀ (fuel more : Nat) {s : Spot},
    s.after.length ≤ fuel → s.after.length ≤ more → rounds round greedy fuel s = rounds round greedy more s
  | 0, more, s, h, _ => (rounds_end round greedy more (Nat.le_zero.1 h)).symm
  | fuel + 1, 0, s, _, h => rounds_end round greedy (fuel + 1) (Nat.le_zero.1 h)
  | fuel + 1, more + 1, s, h, h' => by
    have hround : ∀ t : Spot,
        (if t.after.length < s.after.length then rounds round greedy fuel t else []) =
          if t.after.length < s.after.length then rounds round greedy more t else [] := by
      intro t
      by_cases ht : t.after.length < s.after.length
      · rw [if_pos ht, if_pos ht, rounds_stable round greedy fuel more (by omega) (by omega)]
      · rw [if_neg ht, if_neg ht]
    simp only [rounds, hround]

/-- **A loop is no round, or one round and the loop again.** -/
theorem ways_star (greedy : Bool) (body : Regex) (s : Spot) : (star greedy body).ways s =
    let more := (body.ways s).flatMap fun t => if t.after.length < s.after.length then (star greedy body).ways t else []
    if greedy then more ++ [s] else s :: more := by
  have hround : ∀ t : Spot,
      (if t.after.length < s.after.length then rounds body.ways greedy s.after.length t else []) =
        if t.after.length < s.after.length then (star greedy body).ways t else [] := by
    intro t
    by_cases ht : t.after.length < s.after.length
    · rw [if_pos ht, if_pos ht]
      exact rounds_stable _ _ _ _ (Nat.le_of_lt ht) (Nat.le_succ _)
    · rw [if_neg ht, if_neg ht]
  rw [ways]
  simp only [rounds, hround]

theorem first_star (greedy : Bool) (body : Regex) (s : Spot) : (star greedy body).first k s =
    let more := body.first (fun t => if t.after.length < s.after.length then (star greedy body).first k t else none) s
    if greedy then more.or (k s) else (k s).or more := by
  have hmore : ∀ t : Spot,
      (if t.after.length < s.after.length then (star greedy body).ways t else []).findSome? k =
        if t.after.length < s.after.length then (star greedy body).first k t else none := by
    intro t
    split <;> rfl
  rw [first, ways_star]
  cases greedy
  · simp only [Bool.false_eq_true, if_false, List.findSome?_cons, findSome?_flatMap, hmore]
    cases k s <;> rfl
  · simp only [if_true, List.findSome?_append, findSome?_flatMap, hmore]
    simp [first]

@[simp] theorem first_star_nil (greedy : Bool) (p : Char → Bool) (b : Option Char) (g : Option (List Char)) :
    (star greedy (one p)).first k ⟨b, [], g⟩ = k ⟨b, [], g⟩ := by
  rw [first_star]
  cases greedy <;> simp

theorem first_greedy_cons (p : Char → Bool) (b : Option Char) (c : Char) (text : List Char) (g : Option (List Char)) :
    (star true (one p)).first k ⟨b, c :: text, g⟩ =
      (if p c then (star true (one p)).first k ⟨some c, text, g⟩ else none).or (k ⟨b, c :: text, g⟩) := by
  rw [first_star]
  simp

theorem first_lazy_cons (p : Char → Bool) (b : Option Char) (c : Char) (text : List Char) (g : Option (List Char)) :
    (star false (one p)).first k ⟨b, c :: text, g⟩ =
      (k ⟨b, c :: text, g⟩).or (if p c then (star false (one p)).first k ⟨some c, text, g⟩ else none) := by
  rw [first_star]
  simp

/-- What stands before a spot when a run of characters has been read. -/
def behindRun (b : Option Char) (run : List Char) : Option Char :=
  run.getLast?.or b

@[simp] theorem behindRun_nil (b : Option Char) : behindRun b [] = b := rfl

@[simp] theorem behindRun_cons (b : Option Char) (c : Char) (run : List Char) :
    behindRun b (c :: run) = behindRun (some c) run := by
  rw [behindRun, behindRun, List.getLast?_cons]
  cases run.getLast? <;> rfl

theorem behindRun_mem {run : List Char} (hne : run ≠ []) (b : Option Char) : ∃ c ∈ run, behindRun b run = some c :=
  ⟨run.getLast hne, List.getLast_mem hne, by rw [behindRun, List.getLast?_eq_some_getLast hne]; rfl⟩

/-- **A greedy loop over a class takes the whole run** of its characters, unless what comes behind fails there and
goes on from an earlier end. -/
theorem first_run {p : Char → Bool} {g : Option (List Char)} {rest : List Char} (hrest : rest.head?.any p = false) :
    ∀ {run : List Char} {b : Option Char}, (∀ c ∈ run, p c) →
      (k ⟨behindRun b run, rest, g⟩ = none →
        ∀ x c y, run = x ++ c :: y → k ⟨behindRun b x, c :: (y ++ rest), g⟩ = none) →
      (star true (one p)).first k ⟨b, run ++ rest, g⟩ = k ⟨behindRun b run, rest, g⟩
  | [], b, _, _ => by
    cases rest with
    | nil => simp
    | cons c rest =>
      have hc : p c = false := hrest
      simp [first_greedy_cons, hc]
  | c :: run, b, hrun, hback => by
    obtain ⟨hc, hrun⟩ := List.forall_mem_cons.1 hrun
    rw [behindRun_cons] at hback
    have ih := first_run hrest (b := some c) hrun fun hfail x d y hxy => by
      simpa using hback hfail (c :: x) d y (by rw [hxy]; rfl)
    rw [List.cons_append, first_greedy_cons, if_pos hc, ih, behindRun_cons]
    cases hend : k ⟨behindRun (some c) run, rest, g⟩ with
    | none => simpa using hback hend [] c run rfl
    | some v => rfl

theorem first_spelled (g : Option (List Char)) : ∀ (word : List Char) (b : Option Char) (text : List Char),
    (spelled word).first k ⟨b, text, g⟩ =
      if word <+: text then k ⟨behindRun b word, text.drop word.length, g⟩ else none
  | [], b, text => by simp [spelled]
  | c :: word, b, [] => by simp [spelled]
  | c :: word, b, d :: text => by
    by_cases hd : d = c
    · subst hd
      simp [spelled, first_spelled g word, List.cons_prefix_cons]
    · simp [spelled, hd, List.cons_prefix_cons, Ne.symm hd]

theorem first_oneOf (s : Spot) : ∀ words : List (List Char),
    (oneOf words).first k s = words.findSome? fun word => (spelled word).first k s
  | [] => by
    obtain ⟨b, text, g⟩ := s
    cases text <;> simp [oneOf]
  | [word] => by
    rw [oneOf, List.findSome?_cons]
    cases (spelled word).first k s <;> rfl
  | word :: next :: words => by
    have ih := first_oneOf s (next :: words)
    rw [oneOf, first_alt, ih, List.findSome?_cons (f := fun word => (spelled word).first k s) (a := word)]
    · cases (spelled word).first k s <;> rfl
    · simp

theorem head?_dropWhile_any (p : Char → Bool) (text : List Char) : (text.dropWhile p).head?.any p = false := by
  have hend := List.head?_dropWhile_not p text
  cases hhead : (text.dropWhile p).head? with
  | none => rfl
  | some c =>
    rw [hhead] at hend
    simpa using hend

/-- A run of characters of a class ends where a text goes on with another one. -/
theorem takeWhile_append_run {p : Char → Bool} {run rest : List Char} (hrun : ∀ c ∈ run, p c)
    (hrest : rest.head?.any p = false) : (run ++ rest).takeWhile p = run := by
  rw [List.takeWhile_append_of_pos hrun]
  cases rest with
  | nil => simp
  | cons c rest =>
    have hc : p c = false := hrest
    simp [hc]

theorem dropWhile_append_run {p : Char → Bool} {run rest : List Char} (hrun : ∀ c ∈ run, p c)
    (hrest : rest.head?.any p = false) : (run ++ rest).dropWhile p = rest := by
  have hsplit := List.takeWhile_append_dropWhile (p := p) (l := run ++ rest)
  rw [takeWhile_append_run hrun hrest] at hsplit
  exact List.append_cancel_left hsplit

theorem first_many {p : Char → Bool} {g : Option (List Char)} (text : List Char) (b : Option Char)
    (hback : k ⟨behindRun b (text.takeWhile p), text.dropWhile p, g⟩ = none →
      ∀ b' c y, p c → k ⟨b', c :: y, g⟩ = none) :
    (many p).first k ⟨b, text, g⟩ = k ⟨behindRun b (text.takeWhile p), text.dropWhile p, g⟩ := by
  have hrun := first_run (k := k) (g := g) (b := b) (head?_dropWhile_any p text) (fun c => List.mem_takeWhile_imp)
    fun hfail x c y hxy => hback hfail _ c _ (List.mem_takeWhile_imp (hxy ▸ List.mem_append_right x List.mem_cons_self))
  rwa [List.takeWhile_append_dropWhile] at hrun

end Regex

end JsxView
