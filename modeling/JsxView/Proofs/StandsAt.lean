import JsxView.Proofs.FindAll
import Mathlib.Order.Bounds.Basic
/-!
# StandsAt — what stands at a byte of a text

A closed form of a pattern says which words stand where: the first `*/` at or behind a byte, the last `=>` before the end
of a line.  `StandsAt` places a word at a byte.  It looks only at the text from there on (`standsAt_behind`), so the
first place where a word stands is found by going through the text from the left (`firstFrom_cons`).  A line ends
at the first line terminator or at the end of the text (`lineEnd_append`).
-/
namespace JsxView

/-- A word stands at a byte of a text. -/
def StandsAt (text : List Char) (i : Nat) (word : List Char) : Prop :=
  ∃ x y, text = x ++ (word ++ y) ∧ byteSize x = i

/-- **The first byte, of those at or behind `s`, where a word stands.** -/
def FirstFrom (text word : List Char) (s i : Nat) : Prop :=
  IsLeast {j | s ≤ j ∧ StandsAt text j word} i

/-- **Where the line ends** in which the byte `s` lies: at the first line terminator, or at the end of the text. -/
def LineEnd (text : List Char) (s n : Nat) : Prop :=
  IsLeast {j | s ≤ j ∧ (j = byteSize text ∨ ∃ c ∈ ['\n', '\r', '\u2028', '\u2029'], StandsAt text j [c])} n

theorem StandsAt.isCut {text word : List Char} {i : Nat} (h : StandsAt text i word) : IsCut text i := by
  obtain ⟨x, y, rfl, rfl⟩ := h
  exact isCut_append x _

theorem standsAt_behind (x y word : List Char) (i : Nat) :
    StandsAt (x ++ y) (byteSize x + i) word ↔ StandsAt y i word := by
  constructor
  · rintro ⟨u, z, htext, hsize⟩
    obtain ⟨w, rfl, rfl⟩ := exists_eq_append_of_byteSize_le htext (by omega)
    rw [byteSize_append] at hsize
    exact ⟨w, z, rfl, by omega⟩
  · rintro ⟨w, z, rfl, rfl⟩
    exact ⟨x ++ w, z, (List.append_assoc _ _ _).symm, byteSize_append x w⟩

theorem standsAt_zero {text word : List Char} : StandsAt text 0 word ↔ word <+: text := by
  constructor
  · rintro ⟨x, y, rfl, hsize⟩
    rw [byteSize_eq_zero.1 hsize]
    exact ⟨y, rfl⟩
  · rintro ⟨y, rfl⟩
    exact ⟨[], y, rfl, rfl⟩

theorem standsAt_append (x y word : List Char) : StandsAt (x ++ y) (byteSize x) word ↔ word <+: y := by
  rw [← standsAt_zero, ← standsAt_behind x y word 0, Nat.add_zero]

theorem StandsAt.le_byteSize {text word : List Char} {i : Nat} (h : StandsAt text i word) :
    i + byteSize word ≤ byteSize text := by
  obtain ⟨x, y, rfl, rfl⟩ := h
  rw [byteSize_append, byteSize_append]
  omega

/-- What stands in the first part of a text stands in the text, and ends inside that part. -/
theorem standsAt_within (x y word : List Char) (i : Nat) :
    StandsAt x i word ↔ StandsAt (x ++ y) i word ∧ i + byteSize word ≤ byteSize x := by
  constructor
  · intro h
    refine ⟨?_, h.le_byteSize⟩
    obtain ⟨u, z, rfl, hsize⟩ := h
    exact ⟨u, z ++ y, by simp only [List.append_assoc], hsize⟩
  · rintro ⟨⟨u, z, htext, rfl⟩, hle⟩
    rw [← List.append_assoc] at htext
    obtain ⟨w, rfl, -⟩ := exists_eq_append_of_byteSize_le htext.symm (by rwa [byteSize_append])
    exact ⟨u, w, List.append_assoc _ _ _, rfl⟩

theorem exists_standsAt_singleton {text : List Char} {c : Char} : (∃ i, StandsAt text i [c]) ↔ c ∈ text := by
  constructor
  · rintro ⟨i, x, y, rfl, -⟩
    simp
  · intro h
    obtain ⟨x, y, rfl⟩ := List.append_of_mem h
    exact ⟨byteSize x, x, y, rfl, rfl⟩

/-- A character that stands before the end of the first part of a text is one of that part. -/
theorem StandsAt.mem_of_lt {x y : List Char} {c : Char} {i : Nat} (h : StandsAt (x ++ y) i [c])
    (hlt : i < byteSize x) : c ∈ x := by
  obtain ⟨u, z, htext, rfl⟩ := h
  obtain ⟨w, rfl, hw⟩ := exists_eq_append_of_byteSize_le htext.symm (Nat.le_of_lt hlt)
  cases w with
  | nil =>
    rw [List.append_nil] at hlt
    exact absurd hlt (Nat.lt_irrefl _)
  | cons d w =>
    obtain ⟨rfl, -⟩ := List.cons.inj hw
    simp

theorem standsAt_cons {c : Char} {text word : List Char} {i : Nat} (h : StandsAt (c :: text) i word) :
    i = 0 ∧ word <+: c :: text ∨ ∃ j, i = c.utf8Size + j ∧ StandsAt text j word := by
  obtain ⟨x, y, htext, rfl⟩ := h
  cases x with
  | nil => exact Or.inl ⟨rfl, y, htext.symm⟩
  | cons d x =>
    obtain ⟨rfl, hrest⟩ := List.cons.inj htext
    exact Or.inr ⟨byteSize x, rfl, x, y, hrest, rfl⟩

/-! ## The first place of a word -/

theorem firstFrom_append (x y word : List Char) (i : Nat) :
    FirstFrom (x ++ y) word (byteSize x) i ↔ ∃ j, i = byteSize x + j ∧ FirstFrom y word 0 j := by
  constructor
  · rintro ⟨⟨hle, hstands⟩, hleast⟩
    obtain ⟨j, rfl⟩ := Nat.exists_eq_add_of_le hle
    refine ⟨j, rfl, ⟨Nat.zero_le j, (standsAt_behind x y word j).1 hstands⟩, ?_⟩
    rintro k ⟨-, hk⟩
    have := hleast ⟨Nat.le_add_right (byteSize x) k, (standsAt_behind x y word k).2 hk⟩
    omega
  · rintro ⟨j, rfl, ⟨-, hstands⟩, hleast⟩
    refine ⟨⟨Nat.le_add_right _ _, (standsAt_behind x y word j).2 hstands⟩, ?_⟩
    rintro k ⟨hle, hk⟩
    obtain ⟨k, rfl⟩ := Nat.exists_eq_add_of_le hle
    have := hleast ⟨Nat.zero_le k, (standsAt_behind x y word k).1 hk⟩
    omega

theorem firstFrom_front {text word : List Char} (h : word <+: text) (i : Nat) : FirstFrom text word 0 i ↔ i = 0 := by
  have hzero : (0 : Nat) ∈ {j | 0 ≤ j ∧ StandsAt text j word} := ⟨Nat.le_refl 0, standsAt_zero.2 h⟩
  constructor
  · intro hfirst
    exact Nat.le_zero.1 (hfirst.2 hzero)
  · rintro rfl
    exact ⟨hzero, fun j _ => Nat.zero_le j⟩

/-- Where a word does not stand at the start of a text, its first place is one character behind its first place in what
comes behind that character. -/
theorem firstFrom_cons {c : Char} {text word : List Char} (h : ¬ word <+: c :: text) (i : Nat) :
    FirstFrom (c :: text) word 0 i ↔ ∃ j, i = c.utf8Size + j ∧ FirstFrom text word 0 j := by
  have hset : {j | 0 ≤ j ∧ StandsAt (c :: text) j word} = {j | byteSize [c] ≤ j ∧ StandsAt (c :: text) j word} := by
    ext j
    refine and_congr_left fun hj => ?_
    rcases standsAt_cons hj with ⟨-, hfront⟩ | ⟨k, rfl, -⟩
    · exact absurd hfront h
    · exact iff_of_true (Nat.zero_le _) (Nat.le_add_right _ _)
  have hfirst := firstFrom_append [c] text word i
  unfold FirstFrom at hfirst ⊢
  rw [hset]
  exact hfirst

theorem not_firstFrom_nil {word : List Char} (h : word ≠ []) (s i : Nat) : ¬ FirstFrom [] word s i := by
  rintro ⟨⟨-, hstands⟩, -⟩
  have := hstands.le_byteSize
  have := byteSize_pos h
  rw [byteSize_nil] at *
  omega

/-- The number of characters up to and with the first place of a word. -/
def lengthThrough (word : List Char) : List Char → Option Nat
  | [] => none
  | c :: rest => if word <+: c :: rest then some word.length else (lengthThrough word rest).map (· + 1)

theorem lengthThrough_iff {word : List Char} (hword : word ≠ []) (text : List Char) (e : Nat) :
    (∃ n, lengthThrough word text = some n ∧ byteSize (text.take n) = e) ↔
      ∃ i, FirstFrom text word 0 i ∧ e = i + byteSize word := by
  induction text generalizing e with
  | nil =>
    have hnone := not_firstFrom_nil hword 0
    simp [lengthThrough, hnone]
  | cons c rest ih =>
    rw [lengthThrough]
    by_cases hfront : word <+: c :: rest
    · simp only [firstFrom_front hfront, if_pos hfront, ← List.prefix_iff_eq_take.1 hfront, Option.some.injEq,
        exists_eq_left', exists_eq_left, Nat.zero_add]
      exact eq_comm
    · simp only [firstFrom_cons hfront, if_neg hfront, Option.map_eq_some_iff]
      constructor
      · rintro ⟨-, ⟨n, hn, rfl⟩, rfl⟩
        obtain ⟨j, hj, hsize⟩ := (ih _).1 ⟨n, hn, rfl⟩
        exact ⟨_, ⟨j, rfl, hj⟩, by rw [List.take_succ_cons, byteSize_cons, hsize, Nat.add_assoc]⟩
      · rintro ⟨-, ⟨j, rfl, hj⟩, rfl⟩
        obtain ⟨n, hn, hsize⟩ := (ih _).2 ⟨j, hj, rfl⟩
        exact ⟨n + 1, ⟨n, hn, rfl⟩, by rw [List.take_succ_cons, byteSize_cons, hsize, Nat.add_assoc]⟩

/-- **Behind the first place of a word**, counted from behind the beginning of a text. -/
theorem firstFrom_iff {word : List Char} (hword : word ≠ []) (x y : List Char) (e : Nat) :
    (∃ i, FirstFrom (x ++ y) word (byteSize x) i ∧ e = i + byteSize word) ↔
      ∃ n, lengthThrough word y = some n ∧ byteSize (x ++ y.take n) = e := by
  have hthrough := lengthThrough_iff hword y
  simp only [firstFrom_append, byteSize_append]
  constructor
  · rintro ⟨-, ⟨j, rfl, hj⟩, rfl⟩
    obtain ⟨n, hn, hsize⟩ := (hthrough _).2 ⟨j, hj, rfl⟩
    exact ⟨n, hn, by rw [hsize, Nat.add_assoc]⟩
  · rintro ⟨n, hn, rfl⟩
    obtain ⟨j, hj, hsize⟩ := (hthrough _).1 ⟨n, hn, rfl⟩
    exact ⟨_, ⟨j, rfl, hj⟩, by rw [hsize, Nat.add_assoc]⟩

/-! ## The end of a line -/

theorem mem_terminators {c : Char} : c ∈ ['\n', '\r', '\u2028', '\u2029'] ↔ isLineTerminator c = true := by
  simp [isLineTerminator]

/-- A line ends behind the characters that are no line terminators. -/
theorem lineEnd_append (x y : List Char) (n : Nat) :
    LineEnd (x ++ y) (byteSize x) n ↔ n = byteSize (x ++ y.takeWhile fun c => !isLineTerminator c) := by
  have hsplit := List.takeWhile_append_dropWhile (p := fun c => !isLineTerminator c) (l := y)
  have hline : ∀ c ∈ y.takeWhile fun c => !isLineTerminator c, isLineTerminator c = false := by
    intro c hc
    simpa using List.mem_takeWhile_imp hc
  have hend := Regex.head?_dropWhile_any (fun c => !isLineTerminator c) y
  generalize y.takeWhile (fun c => !isLineTerminator c) = line at hsplit hline
  generalize y.dropWhile (fun c => !isLineTerminator c) = rest at hsplit hend
  subst hsplit
  have hleast : LineEnd (x ++ (line ++ rest)) (byteSize x) (byteSize (x ++ line)) := by
    rw [← List.append_assoc]
    constructor
    · refine ⟨by rw [byteSize_append]; omega, ?_⟩
      cases rest with
      | nil => exact Or.inl (by rw [List.append_nil])
      | cons c rest =>
        have hc : isLineTerminator c = true := by simpa using hend
        exact Or.inr ⟨c, mem_terminators.2 hc, (standsAt_append _ _ _).2 ⟨rest, rfl⟩⟩
    · rintro j ⟨hle, hj⟩
      refine Nat.le_of_not_lt fun hlt => ?_
      rcases hj with rfl | ⟨c, hc, hstands⟩
      · simp only [byteSize_append] at hlt
        omega
      · obtain ⟨j, rfl⟩ := Nat.exists_eq_add_of_le hle
        rw [List.append_assoc, standsAt_behind] at hstands
        rw [byteSize_append] at hlt
        have hmem := hstands.mem_of_lt (by omega)
        rw [mem_terminators, hline c hmem] at hc
        cases hc
  constructor
  · intro h
    exact h.unique hleast
  · rintro rfl
    exact hleast

end JsxView
