import JsxView.Proofs.Search
import Mathlib.Data.List.Basic
/-!
# CutShort — the matches that are found before a search is given up

`Rule.pieces` cuts a text at the matches that one search after the other finds, and where the engine gives a search up
the rest of the text stays in one piece.  So the pieces are those of the pattern up to the place of the last search, and
behind it plain characters (`Rule.exists_cut_short`): what is found is a match of the pattern where it stands
(`Rule.exists_pieces_of_hit`), and if the last search was not given up nothing is missed (`Rule.pieces_eq`).
-/
namespace JsxView

/-- What is made of each character for itself, and spelled as that character, spells the text. -/
theorem flatMap_map_chars {α : Type} {f : Char → α} {g : α → List Char} (h : ∀ c, g (f c) = [c]) (s : List Char) :
    (s.map f).flatMap g = s := by
  rw [List.flatMap_map, List.flatMap_congr fun c _ => h c]
  exact List.flatMap_singleton' s

theorem Pattern.piecesFrom_skip_place (pattern : Pattern) : ∀ (n : Nat) (p : Place),
    pattern.piecesFrom n p.before p.after = pattern.piecesFrom 0 (p.skip n).before (p.skip n).after
  | 0, p => rfl
  | n + 1, ⟨offset, before, []⟩ => by
    have hstay : ∀ m, (⟨offset, before, []⟩ : Place).skip m = ⟨offset, before, []⟩ := by
      intro m
      induction m with
      | zero => rfl
      | succ m ih => exact ih
    rw [hstay]
    rfl
  | n + 1, ⟨offset, before, c :: rest⟩ => piecesFrom_skip_place pattern n ⟨offset + c.utf8Size, some c, rest⟩

namespace Rule

theorem piecesFrom_of_foundAt {rule : Rule} {p : Place} {f : Found} (hne : p.after ≠ []) (h : rule.foundAt p = some f) :
    rule.pattern.piecesFrom 0 p.before p.after =
      .hit f.text :: rule.pattern.piecesFrom 0 f.next.before f.next.after := by
  obtain ⟨offset, before, text⟩ := p
  obtain ⟨c, rest, rfl⟩ := List.exists_cons_of_ne_nil hne
  unfold foundAt at h
  split at h
  · rename_i n hmatch
    cases h
    rw [Pattern.piecesFrom, hmatch]
    exact congrArg (Piece.hit _ :: ·) (Pattern.piecesFrom_skip_place _ n ⟨offset + c.utf8Size, some c, rest⟩)
  · cases h

/-- Before the nearest match every character is a piece of its own. -/
theorem piecesFrom_of_forall_none {rule : Rule} : ∀ {k : Nat} {p : Place}, k ≤ p.after.length →
    (∀ j < k, rule.foundAt (p.skip j) = none) → rule.pattern.piecesFrom 0 p.before p.after =
      (p.after.take k).map .plain ++ rule.pattern.piecesFrom 0 (p.skip k).before (p.skip k).after
  | 0, p, _, _ => rfl
  | k + 1, ⟨offset, before, []⟩, hk, _ => absurd hk (Nat.not_succ_le_zero k)
  | k + 1, ⟨offset, before, c :: rest⟩, hk, hnone => by
    have ih := piecesFrom_of_forall_none (p := ⟨offset + c.utf8Size, some c, rest⟩) (Nat.le_of_succ_le_succ hk)
      fun j hj => hnone (j + 1) (Nat.succ_lt_succ hj)
    have hhere := hnone 0 (Nat.succ_pos k)
    unfold foundAt at hhere
    rw [Pattern.piecesFrom]
    split
    · rename_i n hmatch
      split at hhere
      · cases hhere
      · rename_i hempty
        exact absurd hmatch (hempty n)
    · exact congrArg (Piece.plain c :: ·) ih

/-- The pieces of a text from a place on, up to the nearest match and behind it. -/
theorem piecesFrom_of_nearest {rule : Rule} {p : Place} {f : Found} (h : Nearest rule.foundAt p (some f)) :
    rule.pattern.piecesFrom 0 p.before p.after = (takeBytes (f.start - p.offset) p.after).map .plain ++
      .hit f.text :: rule.pattern.piecesFrom 0 f.next.before f.next.after := by
  obtain ⟨k, hk, hf, hbefore⟩ := h
  have hne : (p.skip k).after ≠ [] := by
    rw [← List.length_pos_iff, Place.length_after_skip]
    omega
  have hgap : takeBytes (f.start - p.offset) p.after = p.after.take k := by
    rw [Found.start, (foundAt_eq_some hf).1, Place.offset_skip, Nat.add_sub_cancel_left]
    exact takeBytes_of_eq_append (List.take_append_drop k p.after).symm
  rw [hgap, piecesFrom_of_forall_none (Nat.le_of_lt hk) hbefore, piecesFrom_of_foundAt hne hf]

theorem piecesFrom_of_nearest_none {rule : Rule} {p : Place} (h : Nearest rule.foundAt p none) :
    rule.pattern.piecesFrom 0 p.before p.after = p.after.map .plain := by
  have hall := piecesFrom_of_forall_none (Nat.le_refl _) h
  have hend : (p.skip p.after.length).after = [] := by rw [Place.after_skip, List.drop_length]
  rw [List.take_length, hend, Pattern.piecesFrom, List.append_nil] at hall
  exact hall

/-! ## The last search -/

variable [Engine]

/-- Where the last search for matches begins, after no more than so many. -/
def lastSearchFrom (rule : Rule) : Nat → Place → Place
  | 0, p => p
  | searches + 1, p =>
    match rule.find p with
    | none => p
    | some f => lastSearchFrom rule searches f.next

/-- **The place where the last search begins** when a text is cut at its matches. -/
def lastSearch (rule : Rule) (text : List Char) : Place :=
  rule.lastSearchFrom text.length (Place.start text)

/-- **Whether the engine gives up the last search** for matches of a text.  None before it is, because each has found
something. -/
def cutShort (rule : Rule) (text : List Char) : Bool :=
  Engine.givesUp rule.expression (rule.lastSearch text)

variable {rule : Rule} {text : List Char}

theorem length_next_lt {p : Place} {f : Found} (h : rule.find p = some f) : f.next.after.length < p.after.length := by
  obtain ⟨-, k, hk, hf, -⟩ := find_eq_some.1 h
  obtain ⟨hsite, hpos, -⟩ := foundAt_eq_some hf
  rw [Found.next, hsite, ← Place.skip_add, Place.length_after_skip]
  omega

theorem piecesFrom_of_find_eq_none {p : Place} (h : rule.find p = none) (searches : Nat) :
    rule.piecesFrom searches p = p.after.map .plain := by
  cases searches with
  | zero => rfl
  | succ searches => rw [piecesFrom, h]

theorem pieces_of_find_eq_some {f : Found} (h : rule.find (Place.start text) = some f) : rule.pieces text =
    (takeBytes f.start text).map .plain ++ .hit f.text :: rule.piecesFrom (text.length - 1) f.next := by
  cases text with
  | nil =>
    rw [find_end rfl] at h
    cases h
  | cons c rest =>
    rw [pieces, List.length_cons, piecesFrom, h]
    rfl

theorem exists_cut_short_from (rule : Rule) : ∀ (fuel : Nat) (p : Place), p.after.length ≤ fuel → ∃ found,
    rule.piecesFrom fuel p = found ++ (rule.lastSearchFrom fuel p).after.map .plain ∧
    rule.pattern.piecesFrom 0 p.before p.after = found ++
      rule.pattern.piecesFrom 0 (rule.lastSearchFrom fuel p).before (rule.lastSearchFrom fuel p).after ∧
    rule.find (rule.lastSearchFrom fuel p) = none
  | 0, p, hfuel => ⟨[], rfl, rfl, find_end (List.length_eq_zero_iff.1 (Nat.le_zero.1 hfuel))⟩
  | fuel + 1, p, hfuel => by
    rw [piecesFrom, lastSearchFrom]
    cases hfind : rule.find p with
    | none => exact ⟨[], rfl, rfl, hfind⟩
    | some f =>
      have hshort := length_next_lt hfind
      obtain ⟨found, hpieces, hpattern, hlast⟩ := exists_cut_short_from rule fuel f.next (by omega)
      refine ⟨(takeBytes (f.start - p.offset) p.after).map .plain ++ .hit f.text :: found, ?_, ?_, hlast⟩
      · simp only [hpieces, List.append_assoc, List.cons_append]
      · rw [piecesFrom_of_nearest (find_eq_some.1 hfind).2, hpattern, List.append_assoc, List.cons_append]

/-- **What is found is what there is up to the last search**, and behind it the text is left in one piece; unless that
search was given up there is nothing left in it. -/
theorem exists_cut_short (rule : Rule) (text : List Char) : ∃ found others,
    rule.pattern.pieces text = found ++ others ∧ rule.pieces text = found ++ (rule.lastSearch text).after.map .plain ∧
    others.flatMap Piece.text = (rule.lastSearch text).after ∧
    (rule.cutShort text = false → others = (rule.lastSearch text).after.map .plain) := by
  obtain ⟨found, hpieces, hpattern, hlast⟩ := exists_cut_short_from rule text.length (Place.start text) (Nat.le_refl _)
  refine ⟨found, _, hpattern, hpieces, Pattern.piecesFrom_join _ _ _ _, fun hcut => ?_⟩
  exact piecesFrom_of_nearest_none (nearest_of_find_eq_none hlast hcut)

/-- Nothing of the text is lost between the pieces. -/
theorem pieces_join (rule : Rule) (text : List Char) : (rule.pieces text).flatMap Piece.text = text := by
  obtain ⟨found, others, hpattern, hpieces, hrest, -⟩ := rule.exists_cut_short text
  have hjoin := Pattern.pieces_join rule.pattern text
  have hplain : ((rule.lastSearch text).after.map .plain).flatMap Piece.text = (rule.lastSearch text).after :=
    flatMap_map_chars (fun _ => rfl) _
  rwa [hpattern, List.flatMap_append, hrest, ← hplain, ← List.flatMap_append, ← hpieces] at hjoin

theorem partCut_pieces (hbound : rule.pattern.Bounded) (text : List Char) :
    rule.pattern.PartCut [] text (rule.pieces text) := by
  obtain ⟨found, others, hpattern, hpieces, hrest, -⟩ := rule.exists_cut_short text
  have hcut := Pattern.cut_pieces hbound text
  rw [hpattern] at hcut
  rw [hpieces, ← hrest]
  exact hcut.part

/-- **If no search is given up the pieces are those of the pattern.** -/
theorem pieces_eq (h : rule.cutShort text = false) : rule.pieces text = rule.pattern.pieces text := by
  obtain ⟨found, others, hpattern, hpieces, -, hothers⟩ := rule.exists_cut_short text
  rw [hpieces, hpattern, hothers h]

/-- **What is found is a match of the pattern where it stands.** -/
theorem exists_pieces_of_hit {before after : List Piece} {h : List Char}
    (hhit : rule.pieces text = before ++ .hit h :: after) :
    ∃ after', rule.pattern.pieces text = before ++ .hit h :: after' := by
  obtain ⟨found, others, hpattern, hpieces, -, -⟩ := rule.exists_cut_short text
  rw [hpieces] at hhit
  have hplain : Piece.hit h ∉ (rule.lastSearch text).after.map .plain := by simp
  rcases List.append_eq_append_iff.1 hhit with ⟨more, rfl, hmore⟩ | ⟨more, rfl, hmore⟩
  · exact absurd (hmore ▸ List.mem_append_right more List.mem_cons_self) hplain
  · cases more with
    | nil =>
      rw [List.nil_append] at hmore
      exact absurd (hmore ▸ List.mem_cons_self) hplain
    | cons piece more =>
      obtain ⟨rfl, rfl⟩ := List.cons.inj hmore
      exact ⟨more ++ others, by rw [hpattern, List.append_assoc, List.cons_append]⟩

end Rule

end JsxView
