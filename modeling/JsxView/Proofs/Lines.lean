import JsxView.Proofs.Bytes
import JsxView.Text.Basic
/-!
# Lines — a text taken apart at a line

A text is the lines before one of its lines, each with its break behind it, that line, and the lines behind it, each
with its break before it (`text_eq_around`).  Whatever is put in the place of the line, the lines around it stay
(`linesOf_around`).  A text is determined by its lines (`linesOf_injective`).
-/
namespace JsxView

/-- Lines with a line break behind each. -/
def closedLines (lines : List (List Char)) : List Char :=
  lines.flatMap (· ++ ['\n'])

/-- Lines with a line break before each. -/
def openedLines (lines : List (List Char)) : List Char :=
  lines.flatMap ('\n' :: ·)

@[simp] theorem openedLines_nil : openedLines [] = [] := rfl

@[simp] theorem openedLines_cons (l : List Char) (lines : List (List Char)) :
    openedLines (l :: lines) = '\n' :: (l ++ openedLines lines) := rfl

theorem closedLines_append (x y : List (List Char)) : closedLines (x ++ y) = closedLines x ++ closedLines y :=
  List.flatMap_append

@[simp] theorem closedLines_singleton (l : List Char) : closedLines [l] = l ++ ['\n'] := by
  simp [closedLines]

theorem intercalate_linesOf (text : List Char) : ['\n'].intercalate (linesOf text) = text :=
  List.intercalate_splitOn '\n'

theorem linesOf_injective {x y : List Char} (h : linesOf x = linesOf y) : x = y := by
  rw [← intercalate_linesOf x, h, intercalate_linesOf]

/-- A line has no line break in it. -/
theorem not_mem_of_mem_linesOf : ∀ {text l : List Char}, l ∈ linesOf text → '\n' ∉ l
  | [], l, h => by
    rw [List.mem_singleton.1 h]
    exact List.not_mem_nil
  | c :: rest, l, h => by
    unfold linesOf at h
    rw [List.splitOn_cons_eq_if_modifyHead] at h
    by_cases hc : c = '\n'
    · rw [if_pos (by simpa using hc)] at h
      rcases List.mem_cons.1 h with rfl | h
      · exact List.not_mem_nil
      · exact not_mem_of_mem_linesOf h
    · rw [if_neg (by simpa using hc)] at h
      obtain ⟨first, others, hlines⟩ := List.exists_cons_of_ne_nil (List.splitOn_ne_nil '\n' rest)
      rw [hlines, List.modifyHead_cons] at h
      rcases List.mem_cons.1 h with rfl | h
      · intro hmem
        rcases List.mem_cons.1 hmem with heq | hmem
        · exact hc heq.symm
        · have hfirst : first ∈ linesOf rest := by rw [linesOf, hlines]; exact List.mem_cons_self
          exact not_mem_of_mem_linesOf hfirst hmem
      · have hother : l ∈ linesOf rest := by rw [linesOf, hlines]; exact List.mem_cons_of_mem _ h
        exact not_mem_of_mem_linesOf hother

theorem linesOf_eq_singleton {l : List Char} (h : '\n' ∉ l) : linesOf l = [l] :=
  List.splitOn_eq_singleton h

theorem linesOf_append_cons (x y : List Char) : linesOf (x ++ '\n' :: y) = linesOf x ++ linesOf y :=
  List.splitOn_append_cons_self x y

theorem linesOf_append_openedLines (t : List Char) : ∀ {lines : List (List Char)}, (∀ l ∈ lines, '\n' ∉ l) →
    linesOf (t ++ openedLines lines) = linesOf t ++ lines
  | [], _ => by rw [openedLines_nil, List.append_nil, List.append_nil]
  | l :: lines, h => by
    have hl := linesOf_eq_singleton (h l List.mem_cons_self)
    have hrest := linesOf_append_openedLines l fun l' h' => h l' (List.mem_cons_of_mem _ h')
    rw [openedLines_cons, linesOf_append_cons, hrest, hl]
    rfl

theorem linesOf_closedLines_append (t : List Char) : ∀ {lines : List (List Char)}, (∀ l ∈ lines, '\n' ∉ l) →
    linesOf (closedLines lines ++ t) = lines ++ linesOf t
  | [], _ => rfl
  | l :: lines, h => by
    have hl := linesOf_eq_singleton (h l List.mem_cons_self)
    have hrest := linesOf_closedLines_append t fun l' h' => h l' (List.mem_cons_of_mem _ h')
    have hsplit : closedLines (l :: lines) ++ t = l ++ '\n' :: (closedLines lines ++ t) := by
      simp [closedLines]
    rw [hsplit, linesOf_append_cons, hrest, hl]
    rfl

theorem lineCount_eq : ∀ text : List Char, lineCount text = text.count '\n' + 1
  | [] => rfl
  | c :: rest => by
    have ih := lineCount_eq rest
    unfold lineCount linesOf at ih ⊢
    rw [List.splitOn_cons_eq_if_modifyHead, List.count_cons]
    by_cases hc : c = '\n'
    · rw [if_pos (by simpa using hc), if_pos (by simpa using hc), List.length_cons, ih]
    · rw [if_neg (by simpa using hc), if_neg (by simpa using hc), List.length_modifyHead, ih]

theorem not_mem_lineAt (text : List Char) (i : Nat) : '\n' ∉ lineAt text i := by
  rw [lineAt, List.getD_eq_getElem?_getD]
  cases h : (linesOf text)[i]? with
  | none => exact List.not_mem_nil
  | some l => exact not_mem_of_mem_linesOf (List.mem_of_getElem? h)

/-- **The lines around a place in a text stay** whatever stands there. -/
theorem linesOf_around {above below : List (List Char)} (ha : ∀ l ∈ above, '\n' ∉ l) (hb : ∀ l ∈ below, '\n' ∉ l)
    (t : List Char) : linesOf (closedLines above ++ t ++ openedLines below) = above ++ linesOf t ++ below := by
  rw [linesOf_append_openedLines _ hb, linesOf_closedLines_append _ ha]

theorem getElem?_linesOf {text : List Char} {i : Nat} (hi : i < lineCount text) :
    (linesOf text)[i]? = some (lineAt text i) := by
  rw [lineAt, List.getD_eq_getElem?_getD, List.getElem?_eq_getElem hi]
  rfl

/-- **A text is its lines before a line, that line, and its lines behind it.** -/
theorem text_eq_around {text : List Char} {i : Nat} (hi : i < lineCount text) :
    text = closedLines ((linesOf text).take i) ++ lineAt text i ++ openedLines ((linesOf text).drop (i + 1)) := by
  have hlen : i < (linesOf text).length := hi
  have hline : lineAt text i = (linesOf text)[i] :=
    Option.some.inj ((getElem?_linesOf hi).symm.trans (List.getElem?_eq_getElem hlen))
  apply linesOf_injective
  rw [linesOf_around (fun l h => not_mem_of_mem_linesOf (List.mem_of_mem_take h))
    (fun l h => not_mem_of_mem_linesOf (List.mem_of_mem_drop h)), hline,
    linesOf_eq_singleton (not_mem_of_mem_linesOf (List.getElem_mem hlen)), List.append_assoc, List.singleton_append,
    List.getElem_cons_drop, List.take_append_drop]

end JsxView
