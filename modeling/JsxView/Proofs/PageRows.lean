import JsxView.Page
import JsxView.Proofs.Lines
import JsxView.Proofs.Tags
/-!
# PageRows — rows read back

A row ends where it says it ends, so no two lists of rows are written alike (`PageRow.flatMap_write_injective`).  The
code of a row is a line break or balanced markup, and every row of a page shows the line it was made from
(`View.rowOf_shows`), whatever markup the line imitates.
-/
namespace JsxView

/-! ## Rows -/

/-- **A row of a page**: its class, its number if it has one, and its code.  The class goes to the first quote, the
number to the first tag and the code to the first tag that closes it. -/
@[ext] structure PageRow where
  className : List Char
  number : Option (List Char)
  code : List Char
  quote_not_mem : '"' ∉ className
  lt_not_mem : ∀ n ∈ number, '<' ∉ n
  code_closes : ¬ "</code>".toList <:+: code

namespace PageRow

/-- The cell of a number, behind the class. -/
def writeNumber : Option (List Char) → List Char
  | some n => "<span class=\"line-number\">".toList ++ n ++ "</span>".toList
  | none => []

@[simp] theorem writeNumber_none : writeNumber none = [] := rfl

@[simp] theorem writeNumber_some (n : List Char) :
    writeNumber (some n) = "<span class=\"line-number\">".toList ++ n ++ "</span>".toList := rfl

/-- A row as it is written. -/
def write (row : PageRow) : List Char :=
  "<div class=\"".toList ++ row.className ++ "\">".toList ++ writeNumber row.number
    ++ "<code>".toList ++ row.code ++ "</code></div>\n".toList

/-- The line that a row shows. -/
def line? (row : PageRow) : Option (List Char) :=
  if row.code = "<br>".toList then some [] else (decodeMarkup row.code).map Prod.fst

/-- The text that rows show. -/
def text? (rows : List PageRow) : Option (List Char) :=
  (rows.mapM line?).map ['\n'].intercalate

/-- **A row shows a line of a view**: the class says whether it is pinned, the number is there where numbers are shown,
an empty line is a line break, and every other line is markup that decodes to it. -/
structure Shows [Engine] (row : PageRow) (view : View) (index : Nat) (line : List Char) : Prop where
  className : row.className = if view.pinned = some index then "line pinned".toList else "line".toList
  number : row.number = if view.lineNumbers then some (decimal (index + 1)) else none
  empty : row.code = "<br>".toList ↔ line = []
  code : line ≠ [] → Decodes row.code line (tokenize line)

end PageRow

theorem PageRow.writeNumber_injective {number number' : Option (List Char)} {s t : List Char}
    (hn : ∀ n ∈ number, '<' ∉ n) (hn' : ∀ n ∈ number', '<' ∉ n)
    (h : writeNumber number ++ ("<code>".toList ++ s) = writeNumber number' ++ ("<code>".toList ++ t)) :
    number = number' ∧ s = t := by
  have hspan : "<span class=\"line-number\">".toList = '<' :: 's' :: "pan class=\"line-number\">".toList := rfl
  have hcode : "<code>".toList = '<' :: 'c' :: "ode>".toList := rfl
  cases number with
  | none =>
    cases number' with
    | none => exact ⟨rfl, List.append_cancel_left h⟩
    | some n' =>
      simp only [writeNumber_none, writeNumber_some, hspan, hcode] at h
      exact absurd (List.cons.inj (List.cons.inj h).2).1 (by decide)
  | some n =>
    cases number' with
    | none =>
      simp only [writeNumber_none, writeNumber_some, hspan, hcode] at h
      exact absurd (List.cons.inj (List.cons.inj h).2).1 (by decide)
    | some n' =>
      simp only [writeNumber_some, List.append_assoc] at h
      have hcut := cut_first (m := "</span>".toList) (n := "/span>".toList) (List.append_cancel_left h) rfl (by decide)
        (absent_of_not_mem rfl (hn n rfl)) (absent_of_not_mem rfl (hn' n' rfl))
      exact ⟨congrArg some hcut.1, List.append_cancel_left hcut.2⟩

/-- **A row ends where it says it ends.** -/
theorem PageRow.write_append_injective {row row' : PageRow} {s t : List Char} (h : row.write ++ s = row'.write ++ t) :
    row = row' ∧ s = t := by
  have hend : "</code></div>\n".toList = "</code>".toList ++ "</div>\n".toList := rfl
  unfold write at h
  rw [hend] at h
  simp only [List.append_assoc] at h
  obtain ⟨hclass, h⟩ := cut_first (m := "\">".toList) (n := ['>']) (List.append_cancel_left h) rfl (by decide)
    (absent_of_not_mem rfl row.quote_not_mem) (absent_of_not_mem rfl row'.quote_not_mem)
  obtain ⟨hnumber, h⟩ := writeNumber_injective row.lt_not_mem row'.lt_not_mem h
  obtain ⟨hcode, h⟩ := cut_first (m := "</code>".toList) (n := "/code>".toList) h rfl (by decide)
    row.code_closes row'.code_closes
  exact ⟨PageRow.ext hclass hnumber hcode, List.append_cancel_left h⟩

theorem PageRow.write_ne_nil (row : PageRow) : row.write ≠ [] :=
  List.cons_ne_nil _ _

/-- **No two lists of rows are written alike.** -/
theorem PageRow.flatMap_write_injective : ∀ {rows rows' : List PageRow},
    rows.flatMap write = rows'.flatMap write → rows = rows'
  | [], [], _ => rfl
  | [], row' :: rows', h => by
    rw [List.flatMap_nil, List.flatMap_cons] at h
    exact absurd (List.append_eq_nil_iff.1 h.symm).1 row'.write_ne_nil
  | row :: rows, [], h => by
    rw [List.flatMap_nil, List.flatMap_cons] at h
    exact absurd (List.append_eq_nil_iff.1 h).1 row.write_ne_nil
  | row :: rows, row' :: rows', h => by
    rw [List.flatMap_cons, List.flatMap_cons] at h
    obtain ⟨rfl, hrest⟩ := write_append_injective h
    rw [flatMap_write_injective hrest]

/-! ## The row of a line -/

theorem exists_items_highlightLine [Engine] (line : List Char) : ∃ items, Balanced items ∧
    (Highlighter.mk .tokenized true).highlightLine line = items.flatMap MarkupItem.write := by
  obtain ⟨items, h⟩ := (wellPlaced_tokenize line).laid.readsAs
  exact ⟨items, h.balanced, h.written⟩

/-- The code of the row of a line. -/
def rowCode [Engine] (line : List Char) : List Char :=
  let markup := (Highlighter.mk .tokenized true).highlightLine line
  if markup.isEmpty then "<br>".toList else markup

theorem rowCode_of_ne_nil [Engine] {line : List Char} (h : line ≠ []) :
    rowCode line = (Highlighter.mk .tokenized true).highlightLine line := by
  have hdecoded := (highlightLine_decodes line).decoded
  unfold rowCode
  apply if_neg
  intro hempty
  rw [List.isEmpty_iff.1 hempty] at hdecoded
  exact h (congrArg Prod.fst (Option.some.inj hdecoded)).symm

theorem rowCode_decodes [Engine] {line : List Char} (h : line ≠ []) : Decodes (rowCode line) line (tokenize line) := by
  rw [rowCode_of_ne_nil h]
  exact highlightLine_decodes line

theorem rowCode_eq_break_iff [Engine] {line : List Char} : rowCode line = "<br>".toList ↔ line = [] := by
  constructor
  · intro h
    by_cases hline : line = []
    · exact hline
    · -- a line break is not the markup of any line
      have hbreak : decodeMarkup "<br>".toList = none := rfl
      have hdecoded := (rowCode_decodes hline).decoded
      rw [h, hbreak] at hdecoded
      cases hdecoded
  · rintro rfl
    rfl

/-- The tags of the code of a row are a line break or markers. -/
theorem exists_tags_rowCode [Engine] (line : List Char) : ∃ items, Balanced items ∧
    HasTags (rowCode line) ((if line = [] then ["<br>".toList] else []) ++ items.flatMap MarkupItem.tags) := by
  by_cases h : line = []
  · subst h
    exact ⟨[], .nil, fun _ => rfl⟩
  · obtain ⟨items, hbalanced, hwrite⟩ := exists_items_highlightLine line
    rw [rowCode_of_ne_nil h, hwrite, if_neg h]
    exact ⟨items, hbalanced, HasTags.flatMap fun item _ => item.hasTags⟩

theorem mem_of_mem_tags_rowCode {line tag : List Char} {items : List MarkupItem}
    (h : tag ∈ (if line = [] then ["<br>".toList] else []) ++ items.flatMap MarkupItem.tags) :
    tag ∈ "<br>".toList :: markers := by
  rcases List.mem_append.1 h with h | h
  · split at h
    · rw [List.mem_singleton.1 h]
      exact List.mem_cons_self
    · cases h
  · obtain ⟨item, -, htag⟩ := List.mem_flatMap.1 h
    exact List.mem_cons_of_mem _ (item.mem_markers htag)

theorem rowCode_closes [Engine] (line : List Char) : ¬ "</code>".toList <:+: rowCode line := by
  obtain ⟨items, -, htags⟩ := exists_tags_rowCode line
  refine htags.absent (n := "/code".toList) rfl (by decide) fun hmem => ?_
  exact absurd (mem_of_mem_tags_rowCode hmem) (by decide)

theorem lt_not_mem_decimal (n : Nat) : '<' ∉ decimal n := by
  intro h
  exact absurd (Nat.isDigit_of_mem_toDigits (by decide) (by decide) h) (by decide)

/-- The row of a line. -/
def View.rowOf [Engine] (view : View) (index : Nat) (line : List Char) : PageRow where
  className := if view.isPinned index then "line pinned".toList else "line".toList
  number := if view.lineNumbers then some (decimal (index + 1)) else none
  code := rowCode line
  quote_not_mem := by split <;> decide
  lt_not_mem := by
    intro n hn
    split at hn
    · rw [← Option.some.inj hn]
      exact lt_not_mem_decimal _
    · cases hn
  code_closes := rowCode_closes line

theorem View.rowOf_shows [Engine] (view : View) (index : Nat) (line : List Char) :
    (view.rowOf index line).Shows view index line where
  className := by
    show (if view.isPinned index then _ else _) = _
    unfold isPinned
    simp only [decide_eq_true_eq]
  number := rfl
  empty := rowCode_eq_break_iff
  code := rowCode_decodes

theorem View.line?_rowOf [Engine] (view : View) (index : Nat) (line : List Char) :
    (view.rowOf index line).line? = some line := by
  by_cases h : line = []
  · subst h
    rfl
  · unfold PageRow.line?
    rw [if_neg fun hbreak => h ((view.rowOf_shows index line).empty.1 hbreak),
      ((view.rowOf_shows index line).code h).decoded]
    rfl

theorem writeNumber_eq_lineNumberCell (shown : Bool) (index : Nat) :
    PageRow.writeNumber (if shown then some (decimal (index + 1)) else none) = lineNumberCell shown index := by
  cases shown <;> rfl

theorem write_rowOf [Engine] (view : View) (index : Nat) (line : List Char) :
    (view.rowOf index line).write = pageRow view index ((Highlighter.mk .tokenized true).highlightLine line) := by
  have hnumber : PageRow.writeNumber (view.rowOf index line).number = lineNumberCell view.lineNumbers index :=
    writeNumber_eq_lineNumberCell _ _
  unfold PageRow.write pageRow
  rw [hnumber]
  rfl

/-- **The rows of a page are written one by one.** -/
theorem pageRows_eq [Engine] (view : View) : ∀ (index : Nat) (lines : List (List Char)),
    pageRows view index (lines.map (Highlighter.mk .tokenized true).highlightLine) =
      (lines.mapIdx fun i line => view.rowOf (index + i) line).flatMap PageRow.write
  | _, [] => rfl
  | index, line :: rest => by
    have ih := pageRows_eq view (index + 1) rest
    simp only [Nat.add_assoc, Nat.add_comm 1] at ih
    rw [List.map_cons, pageRows, ih, List.mapIdx_cons, List.flatMap_cons, write_rowOf]
    rfl

end JsxView
