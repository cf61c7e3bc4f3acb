import JsxView.Proofs.CutShort
import JsxView.Proofs.MatchBorders
import JsxView.Substitution
/-!
# Passes — what the passes of the chain add, and where they move what was there

A pass only adds the openings and closings of its markers, so what it was given is left in it as a subsequence, and it
grows by the size of one marker for each match that is found (`sublist_substituteAll`, `byteSize_substituteAll`).  Every
character is found again at a known index behind the pass (`Rule.getElem?_moved`).  Two characters that stand side by
side move together unless a match begins or ends between them (`movedFrom_succ`), so what the rule spares moves in one
piece (`Pattern.Spares.moved_add`, `Pattern.Spares.prefix_drop_moved`), and so does what every rule of a chain keeps
whole (`keepAll_of_invariant`).

In front of its first match a pass leaves a text as it is (`Rule.exists_substitute_append`), and where its first search
is given up the whole of it (`Rule.substitute_of_find_eq_none`).
-/
namespace JsxView

namespace Piece

/-- What the marker of a match puts before a piece. -/
def lead (category : Category) : Piece → List Char
  | .plain _ => []
  | .hit _ => markerOpen category

theorem mark_eq (category : Category) (piece : Piece) : ∃ trail,
    piece.mark category = piece.lead category ++ (piece.text ++ trail) := by
  cases piece with
  | plain c => exact ⟨[], rfl⟩
  | hit h => exact ⟨markerClose, by simp [mark, lead, text, wrap]⟩

theorem text_sublist_mark (category : Category) (piece : Piece) : piece.text.Sublist (piece.mark category) := by
  obtain ⟨trail, hmark⟩ := piece.mark_eq category
  rw [hmark]
  exact (List.sublist_append_left _ _).trans (List.sublist_append_right _ _)

theorem flatMap_text_sublist (category : Category) : ∀ pieces : List Piece,
    (pieces.flatMap text).Sublist (pieces.flatMap (mark category))
  | [] => List.Sublist.refl _
  | piece :: rest => by
    rw [List.flatMap_cons, List.flatMap_cons]
    exact (piece.text_sublist_mark category).append (flatMap_text_sublist category rest)

theorem byteSize_mark (category : Category) (piece : Piece) : byteSize (piece.mark category) =
    byteSize piece.text + if piece.isHit then 22 + category.cssClass.length else 0 := by
  have hopen : byteSize (markerOpen category) = 15 + category.cssClass.length := by cases category <;> decide
  have hclose : byteSize markerClose = 7 := by decide
  cases piece with
  | plain c => rfl
  | hit h =>
    simp only [mark, wrap, text, isHit, byteSize_append, hopen, hclose, if_true]
    omega

theorem byteSize_flatMap_mark (category : Category) : ∀ pieces : List Piece,
    byteSize (pieces.flatMap (mark category)) =
      byteSize (pieces.flatMap text) + pieces.countP isHit * (22 + category.cssClass.length)
  | [] => by simp
  | piece :: rest => by
    have ih := byteSize_flatMap_mark category rest
    simp only [List.flatMap_cons, byteSize_append, byteSize_mark, ih, List.countP_cons, Nat.add_mul]
    split <;> omega

end Piece

theorem Rule.length_hitRanges : ∀ (pieces : List Piece) (offset : Nat),
    (hitRanges offset pieces).length = pieces.countP Piece.isHit
  | [], _ => rfl
  | .plain _ :: rest, _ => (length_hitRanges rest _).trans (List.countP_cons_of_neg Bool.false_ne_true).symm
  | .hit _ :: rest, _ => by
    rw [List.countP_cons_of_pos rfl, ← length_hitRanges rest]
    rfl

/-! ## Pieces that move -/

/-- The index, in the marked pieces, of the character with the given index in their text. -/
def movedFrom (category : Category) : List Piece → Nat → Nat
  | [], n => n
  | piece :: rest, n =>
    if n < piece.text.length then (piece.lead category).length + n
    else (piece.mark category).length + movedFrom category rest (n - piece.text.length)

theorem getElem?_movedFrom (category : Category) : ∀ (pieces : List Piece) (n : Nat),
    n < (pieces.flatMap Piece.text).length →
      (pieces.flatMap (Piece.mark category))[movedFrom category pieces n]? = (pieces.flatMap Piece.text)[n]?
  | [], n, hn => absurd hn (Nat.not_lt_zero n)
  | piece :: rest, n, hn => by
    rw [List.flatMap_cons, List.length_append] at hn
    rw [List.flatMap_cons, List.flatMap_cons, movedFrom]
    split
    · rename_i hin
      obtain ⟨trail, hmark⟩ := piece.mark_eq category
      rw [hmark, List.append_assoc, List.getElem?_append_right (Nat.le_add_right _ _), Nat.add_sub_cancel_left,
        List.append_assoc, List.getElem?_append_left hin, List.getElem?_append_left hin]
    · rename_i hbehind
      rw [List.getElem?_append_right (Nat.le_add_right _ _), Nat.add_sub_cancel_left,
        getElem?_movedFrom category rest _ (by omega), List.getElem?_append_right (Nat.le_of_not_lt hbehind)]

/-- A match among the pieces begins or ends before the character with the given index. -/
def BorderAt (pieces : List Piece) (n : Nat) : Prop :=
  ∃ before h after, pieces = before ++ .hit h :: after ∧
    ((before.flatMap Piece.text).length = n ∨ (before.flatMap Piece.text).length + h.length = n)

theorem BorderAt.cons {pieces : List Piece} {n : Nat} (h : BorderAt pieces n) (piece : Piece) :
    BorderAt (piece :: pieces) (piece.text.length + n) := by
  obtain ⟨before, m, after, rfl, hn⟩ := h
  refine ⟨piece :: before, m, after, rfl, ?_⟩
  rw [List.flatMap_cons, List.length_append]
  omega

/-- **Neighbours move together**, unless a match begins or ends between them. -/
theorem movedFrom_succ (category : Category) : ∀ (pieces : List Piece) (n : Nat),
    movedFrom category pieces (n + 1) = movedFrom category pieces n + 1 ∨ BorderAt pieces (n + 1)
  | [], n => Or.inl rfl
  | piece :: rest, n => by
    rw [movedFrom, movedFrom]
    rcases Nat.lt_trichotomy (n + 1) piece.text.length with hin | hend | hbehind
    · rw [if_pos hin, if_pos (by omega)]
      exact Or.inl rfl
    · cases piece with
      | hit h => exact Or.inr ⟨[], h, rest, rfl, Or.inr (by rw [hend]; simp [Piece.text])⟩
      | plain c =>
        obtain rfl : n = 0 := Nat.succ.inj hend
        -- the next character is the first one of the next piece
        cases rest with
        | nil => exact Or.inl rfl
        | cons next rest =>
          cases next with
          | plain d => exact Or.inl rfl
          | hit h => exact Or.inr ⟨[.plain c], h, rest, rfl, Or.inl rfl⟩
    · rw [if_neg (by omega), if_neg (by omega), show n + 1 - piece.text.length = n - piece.text.length + 1 by omega]
      rcases movedFrom_succ category rest (n - piece.text.length) with hmoved | hborder
      · exact Or.inl (by rw [hmoved]; omega)
      · have := hborder.cons piece
        rw [show piece.text.length + (n - piece.text.length + 1) = n + 1 by omega] at this
        exact Or.inr this

/-- The text around a place where a word begins. -/
theorem Pattern.exists_around {text word : List Char} {n : Nat} (hword : word <+: text.drop n) (hne : word ≠ []) :
    ∃ x y, text = x ++ (word ++ y) ∧ x.length = n := by
  obtain ⟨y, hy⟩ := hword
  refine ⟨text.take n, y, by rw [hy, List.take_append_drop], ?_⟩
  have hlen := congrArg List.length hy
  have hpos := List.length_pos_iff.2 hne
  rw [List.length_append, List.length_drop] at hlen
  rw [List.length_take]
  omega

/-! ## What is added -/

variable [Engine]

theorem Rule.length_findAll (rule : Rule) (text : List Char) :
    (rule.findAll text).length = (rule.pieces text).countP Piece.isHit :=
  length_hitRanges (rule.pieces text) 0

theorem Rule.sublist_substitute (rule : Rule) (text : List Char) : text.Sublist (rule.substitute text) := by
  have := Piece.flatMap_text_sublist rule.category (rule.pieces text)
  rwa [rule.pieces_join] at this

theorem Rule.byteSize_substitute (rule : Rule) (text : List Char) : byteSize (rule.substitute text) =
    byteSize text + (rule.findAll text).length * (22 + rule.category.cssClass.length) := by
  have := Piece.byteSize_flatMap_mark rule.category (rule.pieces text)
  rwa [rule.pieces_join, ← rule.length_findAll] at this

/-- A quantity summed over the passes of some rules, each with the text that it is given. -/
def sumPasses (quantity : Rule → List Char → Nat) : List Rule → List Char → Nat
  | [], _ => 0
  | rule :: rules, text => quantity rule text + sumPasses quantity rules (rule.substitute text)

theorem substituteAll_cons (rule : Rule) (rules : List Rule) (text : List Char) :
    substituteAll (rule :: rules) text = substituteAll rules (rule.substitute text) := rfl

theorem substituteAll_append (rules more : List Rule) (text : List Char) :
    substituteAll (rules ++ more) text = substituteAll more (substituteAll rules text) :=
  List.foldl_append

/-- **The passes only insert text.** -/
theorem sublist_substituteAll : ∀ (rules : List Rule) (text : List Char), text.Sublist (substituteAll rules text)
  | [], text => List.Sublist.refl text
  | rule :: rules, text => (rule.sublist_substitute text).trans (sublist_substituteAll rules _)

/-- **Each match adds its marker**: twenty-two bytes and the name of the class. -/
theorem byteSize_substituteAll : ∀ (rules : List Rule) (text : List Char), byteSize (substituteAll rules text) =
    byteSize text + sumPasses (fun rule given => (rule.findAll given).length * (22 + rule.category.cssClass.length))
      rules text
  | [], text => rfl
  | rule :: rules, text => by
    rw [substituteAll_cons, byteSize_substituteAll rules, Rule.byteSize_substitute, sumPasses, Nat.add_assoc]

/-! ## Passes that leave the beginning of a text as it is -/

section

variable {rule : Rule} {x y : List Char}

/-- A pass whose first search finds nothing leaves the text as it is. -/
theorem Rule.substitute_of_find_eq_none {text : List Char} (h : rule.find (Place.start text) = none) :
    rule.substitute text = text := by
  rw [substitute, pieces, piecesFrom_of_find_eq_none h]
  exact flatMap_map_chars (fun _ => rfl) text

variable (hnone : ∀ j < x.length, rule.foundAt ((Place.start (x ++ y)).skip j) = none)
include hnone

/-- Where no match begins in it the beginning of a text stays as it is. -/
theorem Rule.exists_substitute_append : ∃ y', rule.substitute (x ++ y) = x ++ y' := by
  cases hfind : rule.find (Place.start (x ++ y)) with
  | none => exact ⟨y, substitute_of_find_eq_none hfind⟩
  | some f =>
    obtain ⟨-, k, hk, hf, -⟩ := find_eq_some.1 hfind
    have hbehind : x.length ≤ k := Nat.le_of_not_lt fun hlt => by
      rw [hnone k hlt] at hf
      cases hf
    -- the pieces begin with the characters in front of the first match
    have hfront : takeBytes f.start (x ++ y) = x ++ y.take (k - x.length) := by
      rw [Found.start, (foundAt_eq_some hf).1, Place.offset_skip]
      show takeBytes (0 + byteSize ((x ++ y).take k)) (x ++ y) = _
      rw [Nat.zero_add, takeBytes_of_eq_append (List.take_append_drop k (x ++ y)).symm, List.take_append,
        List.take_of_length_le hbehind]
    rw [substitute, pieces_of_find_eq_some hfind, hfront, List.map_append, List.append_assoc, List.flatMap_append,
      flatMap_map_chars fun _ => rfl]
    exact ⟨_, rfl⟩

/-- A match that ends the text is wrapped, if it is the first one and its search is not given up. -/
theorem Rule.substitute_append_match (hup : Engine.givesUp rule.expression (Place.start (x ++ y)) = false) (hy : y ≠ [])
    (hmatch : rule.pattern x.getLast? y = some y.length) : rule.substitute (x ++ y) = x ++ wrap rule.category y := by
  obtain ⟨n, hn⟩ := Nat.exists_eq_succ_of_ne_zero (Nat.ne_of_gt (List.length_pos_iff.2 hy))
  let f : Found := ⟨rule.category, .between x y, y.length⟩
  have hplace : (Place.start (x ++ y)).skip x.length = .between x y := Place.skip_between [] x y
  have hfound : rule.foundAt ((Place.start (x ++ y)).skip x.length) = some f := by
    rw [hplace, foundAt]
    simp only [Place.between, hmatch, hn]
    exact congrArg (fun m => some (Found.mk rule.category (.between x y) m)) hn.symm
  have hin : x.length < (x ++ y).length := by
    rw [List.length_append]
    omega
  have hfind : rule.find (Place.start (x ++ y)) = some f := find_eq_some.2 ⟨hup, x.length, hin, hfound, hnone⟩
  have hend : rule.piecesFrom ((x ++ y).length - 1) f.next = [] := by
    have hafter : f.next.after = [] := by
      rw [Found.next, Place.after_skip]
      exact List.drop_length
    rw [piecesFrom_of_find_eq_none (find_end hafter), hafter]
    rfl
  have hfront : takeBytes f.start (x ++ y) = x := takeBytes_byteSize x y
  have htext : f.text = y := List.take_length
  rw [substitute, pieces_of_find_eq_some hfind, hfront, hend, htext, List.flatMap_append, flatMap_map_chars fun _ => rfl]
  exact congrArg (x ++ ·) (List.append_nil _)

end

/-! ## Where characters move -/

/-- **Where a pass moves the character** with the given index. -/
def Rule.moved (rule : Rule) (text : List Char) (n : Nat) : Nat :=
  movedFrom rule.category (rule.pieces text) n

/-- **Where the passes of some rules move the character** with the given index. -/
def movedAll : List Rule → List Char → Nat → Nat
  | [], _, n => n
  | rule :: rules, text, n => movedAll rules (rule.substitute text) (rule.moved text n)

/-- **A word moves in one piece**: wherever it stands in the text, it stands behind the pass where its first character
has moved, and its characters have moved with the first one. -/
def Rule.Keeps (rule : Rule) (word text : List Char) : Prop :=
  ∀ n, word <+: text.drop n → word <+: (rule.substitute text).drop (rule.moved text n) ∧
    ∀ i < word.length, rule.moved text (n + i) = rule.moved text n + i

/-- The same for the passes of some rules. -/
def KeepAll (rules : List Rule) (word text : List Char) : Prop :=
  ∀ n, word <+: text.drop n → word <+: (substituteAll rules text).drop (movedAll rules text n) ∧
    ∀ i < word.length, movedAll rules text (n + i) = movedAll rules text n + i

/-- **Every character is found again** where the pass moves it. -/
theorem Rule.getElem?_moved (rule : Rule) {text : List Char} {n : Nat} (hn : n < text.length) :
    (rule.substitute text)[rule.moved text n]? = text[n]? := by
  have hjoin := rule.pieces_join text
  have := getElem?_movedFrom rule.category (rule.pieces text) n (by rwa [hjoin])
  rwa [hjoin] at this

/-! ## What moves in one piece -/

namespace Pattern

variable {rule : Rule} {text word : List Char} {k n : Nat}

theorem Spares.not_borderAt (hbound : rule.pattern.Bounded) (hspares : rule.pattern.Spares word k)
    (hk : k ≤ word.length) (hword : word <+: text.drop n) {i : Nat} (hi : i < k) (hpos : 0 < i) :
    ¬ BorderAt (rule.pieces text) (n + i) := by
  rintro ⟨before, h, after, hhit, hplace⟩
  obtain ⟨after', hpieces⟩ := Rule.exists_pieces_of_hit hhit
  have hcut := cut_pieces hbound text
  rw [hpieces] at hcut
  obtain ⟨rest, htext, hmatch⟩ := hcut.match_hit
  rw [List.nil_append] at hmatch
  obtain ⟨x, y, rfl, rfl⟩ := exists_around hword (by rintro rfl; simp at hk; omega)
  have hsplit : x ++ (word ++ y) = (x ++ word.take i) ++ (word.drop i ++ y) := by
    rw [List.append_assoc, ← List.append_assoc (word.take i), List.take_append_drop]
  have hlen : (x ++ word.take i).length = x.length + i := by
    rw [List.length_append, List.length_take]
    omega
  rw [hsplit] at htext
  rcases hplace with hstart | hend
  · obtain ⟨hx, hy⟩ := List.append_inj htext (by rw [hlen, hstart])
    exact hspares i hi hpos ⟨_, h, rest, hmatch, Or.inl ⟨⟨x, hx⟩, ⟨y, hy⟩⟩⟩
  · rw [← List.append_assoc (before.flatMap Piece.text)] at htext
    obtain ⟨hx, hy⟩ := List.append_inj htext (by rw [hlen, ← hend, List.length_append])
    exact hspares i hi hpos ⟨_, h, rest, hmatch, Or.inr ⟨⟨x, hx⟩, ⟨y, hy⟩⟩⟩

/-- **What the rule spares moves in one piece.** -/
theorem Spares.moved_add (hbound : rule.pattern.Bounded) (hspares : rule.pattern.Spares word k) (hk : k ≤ word.length)
    (hword : word <+: text.drop n) : ∀ i < k, rule.moved text (n + i) = rule.moved text n + i
  | 0, _ => rfl
  | i + 1, hi => by
    have ih := moved_add hbound hspares hk hword i (by omega)
    have hborder := hspares.not_borderAt hbound hk hword hi (Nat.succ_pos i)
    have hnext := (movedFrom_succ rule.category (rule.pieces text) (n + i)).resolve_right hborder
    rw [← Nat.add_assoc, ← Nat.add_assoc, ← ih]
    exact hnext

/-- **What the rule spares is found again** where the pass moves its first character. -/
theorem Spares.prefix_drop_moved (hbound : rule.pattern.Bounded) (hspares : rule.pattern.Spares word k)
    (hk : k ≤ word.length) (hword : word <+: text.drop n) :
    word.take k <+: (rule.substitute text).drop (rule.moved text n) := by
  refine List.prefix_iff_getElem?.2 fun i hi => ?_
  rw [List.length_take] at hi
  have hchar := List.prefix_iff_getElem?.1 hword i (by omega)
  rw [List.getElem?_drop] at hchar
  rw [List.getElem?_drop, ← hspares.moved_add hbound hk hword i (by omega),
    rule.getElem?_moved (List.getElem?_eq_some_iff.1 hchar).1, hchar, List.getElem_take]

theorem Spares.keeps (hbound : rule.pattern.Bounded) (hspares : rule.pattern.Spares word word.length) :
    rule.Keeps word text := by
  intro n hword
  have hfound := hspares.prefix_drop_moved hbound (Nat.le_refl _) hword
  rw [List.take_length] at hfound
  exact ⟨hfound, hspares.moved_add hbound (Nat.le_refl _) hword⟩

end Pattern

/-- **What every rule keeps whole the chain keeps whole**, as long as some invariant of the passes holds. -/
theorem keepAll_of_invariant (Inv : List Char → Prop) {word : List Char} : ∀ {rules : List Rule} {text : List Char},
    (∀ rule ∈ rules, ∀ t, Inv t → Inv (rule.substitute t) ∧ rule.Keeps word t) → Inv text → KeepAll rules word text
  | [], _, _, _ => fun _ hword => ⟨hword, fun _ _ => rfl⟩
  | rule :: rules, text, hstep, hinv => by
    intro n hword
    obtain ⟨hnext, hkeeps⟩ := hstep rule List.mem_cons_self text hinv
    obtain ⟨hfound, hmoved⟩ := hkeeps n hword
    have hrest := keepAll_of_invariant Inv (fun r hr => hstep r (List.mem_cons_of_mem _ hr)) hnext
    obtain ⟨hfoundAll, hmovedAll⟩ := hrest _ hfound
    refine ⟨hfoundAll, fun i hi => ?_⟩
    rw [movedAll, movedAll, hmoved i hi, hmovedAll i hi]

/-! ## The passes of the chain one by one -/

/-- The line behind the first `i` passes of the chain. -/
def passed (line : List Char) (i : Nat) : List Char :=
  substituteAll (Rule.chained.take i) line

theorem passed_add {i j : Nat} (hij : i ≤ j) (line : List Char) :
    substituteAll ((Rule.chained.take j).drop i) (passed line i) = passed line j := by
  have hfirst : Rule.chained.take i = (Rule.chained.take j).take i := by
    rw [List.take_take, Nat.min_eq_left hij]
  rw [passed, hfirst, ← substituteAll_append, List.take_append_drop]
  rfl

theorem substituteAll_drop (line : List Char) (i : Nat) :
    substituteAll (Rule.chained.drop i) (passed line i) = highlightChained line := by
  rw [passed, ← substituteAll_append, List.take_append_drop, highlightChained]

end JsxView
