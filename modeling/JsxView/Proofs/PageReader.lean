import JsxView.Proofs.PageRows
/-!
# PageReader — a page says what it shows

Every piece of a page has whole tags, and but for the ends of the list of rows no `pre` is among them (`PagePiece`).  So
a page is cut at its one `<pre>` and its one `</pre>`, what stands between them is rows in one way only, and the text is
read back from the rows (`View.text?_rows`).  Outside the markers of the categories there are no tags but those of the
page itself (`outsideMarkers_renderPage`), whatever markup the text imitates.
-/
namespace JsxView

/-! ## The page in pieces -/

/-- **A piece of a page**: its tags are whole, none of them is a `pre`, and those that are not of markers are given. -/
def PagePiece (x : List Char) (outer : List (List Char)) : Prop :=
  ∃ tags, HasTags x tags ∧ "<pre>".toList ∉ tags ∧ "</pre>".toList ∉ tags ∧
    ∀ rest, outsideMarkers [] (tags ++ rest) = outer ++ outsideMarkers [] rest

namespace PagePiece

theorem nil : PagePiece [] [] :=
  ⟨[], HasTags.nil, List.not_mem_nil, List.not_mem_nil, fun _ => rfl⟩

theorem text {x : List Char} (h : '<' ∉ x) : PagePiece x [] :=
  ⟨[], HasTags.text h, List.not_mem_nil, List.not_mem_nil, fun _ => rfl⟩

theorem append {x y : List Char} {s t : List (List Char)} (hx : PagePiece x s) (hy : PagePiece y t) :
    PagePiece (x ++ y) (s ++ t) := by
  obtain ⟨xs, hxs, hxopen, hxclose, hxouter⟩ := hx
  obtain ⟨ys, hys, hyopen, hyclose, hyouter⟩ := hy
  refine ⟨xs ++ ys, hxs.append hys, ?_, ?_, fun rest => ?_⟩
  · rw [List.mem_append, not_or]
    exact ⟨hxopen, hyopen⟩
  · rw [List.mem_append, not_or]
    exact ⟨hxclose, hyclose⟩
  · rw [List.append_assoc, hxouter, hyouter, List.append_assoc]

theorem mapIdx {α : Type} {f : Nat → α → PageRow} {g : Nat → α → List (List Char)} : ∀ {l : List α},
    (∀ i a, PagePiece (f i a).write (g i a)) → PagePiece ((l.mapIdx f).flatMap PageRow.write) (l.mapIdx g).flatten
  | [], _ => nil
  | a :: l, h => by
    rw [List.mapIdx_cons, List.mapIdx_cons, List.flatMap_cons, List.flatten_cons]
    exact (h 0 a).append (mapIdx fun i b => h (i + 1) b)

theorem open_absent {x : List Char} {outer : List (List Char)} (h : PagePiece x outer) :
    ¬ "<pre>\n".toList <:+: x := by
  obtain ⟨tags, htags, hopen, -, -⟩ := h
  exact htags.absent (n := "pre".toList) rfl (by decide) hopen

theorem close_absent {x : List Char} {outer : List (List Char)} (h : PagePiece x outer) :
    ¬ "</pre>".toList <:+: x := by
  obtain ⟨tags, htags, -, hclose, -⟩ := h
  exact htags.absent (n := "/pre".toList) rfl (by decide) hclose

end PagePiece

theorem pagePiece_rowCode [Engine] (line : List Char) :
    PagePiece (rowCode line) (if line.isEmpty then ["<br>".toList] else []) := by
  obtain ⟨items, hbalanced, htags⟩ := exists_tags_rowCode line
  refine ⟨_, htags, ?_, ?_, fun rest => ?_⟩
  · exact fun hmem => absurd (mem_of_mem_tags_rowCode hmem) (by decide)
  · exact fun hmem => absurd (mem_of_mem_tags_rowCode hmem) (by decide)
  · cases line with
    | nil =>
      have hbreak : ∀ tags, outsideMarkers [] ("<br>".toList :: tags) = "<br>".toList :: outsideMarkers [] tags :=
        fun _ => rfl
      rw [List.append_assoc, if_pos rfl, List.singleton_append, hbreak, hbalanced.outsideMarkers]
      rfl
    | cons c line =>
      rw [List.append_assoc, if_neg (List.cons_ne_nil _ _), List.nil_append, hbalanced.outsideMarkers]
      rfl

theorem pagePiece_lineNumberCell (shown : Bool) (index : Nat) :
    PagePiece (lineNumberCell shown index)
      (if shown then ["<span class=\"line-number\">".toList, "</span>".toList] else []) := by
  cases shown with
  | false => exact PagePiece.nil
  | true =>
    have hopen : HasTags "<span class=\"line-number\">".toList ["<span class=\"line-number\">".toList] := fun _ => rfl
    have hclose : HasTags "</span>".toList ["</span>".toList] := fun _ => rfl
    have htags := (hopen.append (HasTags.text (lt_not_mem_decimal (index + 1)))).append hclose
    exact ⟨_, htags, by decide, by decide, fun _ => rfl⟩

/-- The tags of a row outside the markers.  Of the line it matters only whether it is empty. -/
def View.rowTags (view : View) (index : Nat) (empty : Bool) : List (List Char) :=
  [if view.isPinned index then "<div class=\"line pinned\">".toList else "<div class=\"line\">".toList]
    ++ (if view.lineNumbers then ["<span class=\"line-number\">".toList, "</span>".toList] else [])
    ++ ["<code>".toList] ++ (if empty then ["<br>".toList] else [])
    ++ ["</code>".toList, "</div>".toList]

theorem View.pagePiece_rowOf [Engine] (view : View) (index : Nat) (line : List Char) :
    PagePiece (view.rowOf index line).write (view.rowTags index line.isEmpty) := by
  have hclass : ∀ pinned : Bool, PagePiece
      ("<div class=\"".toList ++ (if pinned then "line pinned".toList else "line".toList) ++ "\">".toList)
      [if pinned then "<div class=\"line pinned\">".toList else "<div class=\"line\">".toList] := by
    intro pinned
    cases pinned
    · exact ⟨["<div class=\"line\">".toList], fun _ => rfl, by decide, by decide, fun _ => rfl⟩
    · exact ⟨["<div class=\"line pinned\">".toList], fun _ => rfl, by decide, by decide, fun _ => rfl⟩
  have hopen : PagePiece "<code>".toList ["<code>".toList] :=
    ⟨["<code>".toList], fun _ => rfl, by decide, by decide, fun _ => rfl⟩
  have hclose : PagePiece "</code></div>\n".toList ["</code>".toList, "</div>".toList] :=
    ⟨["</code>".toList, "</div>".toList], fun _ => rfl, by decide, by decide, fun _ => rfl⟩
  rw [write_rowOf]
  exact ((((hclass (view.isPinned index)).append (pagePiece_lineNumberCell view.lineNumbers index)).append hopen).append
    (pagePiece_rowCode line)).append hclose

/-! ## The page around the rows -/

theorem lt_not_mem_css (color : Color) : '<' ∉ color.css := by
  have hdigit : ∀ k < 16, '<' ≠ Nat.digitChar k := by decide
  cases color with
  | inherited => decide
  | rgb red green blue =>
    have hbyte : ∀ b : UInt8, '<' ∉ hexByte b := by
      intro b hmem
      have hb := b.toNat_lt
      rcases List.mem_cons.1 hmem with h | h
      · exact hdigit _ (by omega) h
      · exact hdigit _ (by omega) (List.mem_singleton.1 h)
    show '<' ∉ '#' :: (hexByte red ++ hexByte green ++ hexByte blue)
    rw [List.mem_cons, not_or]
    exact ⟨by decide, List.not_mem_append (List.not_mem_append (hbyte red) (hbyte green)) (hbyte blue)⟩

/-- There are no tags in the style sheet, whatever the theme and the font size. -/
theorem lt_not_mem_pageStyle (view : View) : '<' ∉ pageStyle view := by
  unfold pageStyle
  repeat' apply List.not_mem_append
  all_goals first | decide | exact lt_not_mem_css _ | exact lt_not_mem_decimal _

/-- What comes before the `<pre>`. -/
def beforePre (view : View) : List Char :=
  "<!DOCTYPE html>\n<html>\n<head>\n<meta charset=\"utf-8\">\n".toList
    ++ "<title>React Code Visualizer</title>\n<style>\n".toList
    ++ pageStyle view ++ "</style>\n</head>\n<body>\n".toList

theorem pageHead_eq (view : View) : pageHead view = beforePre view ++ "<pre>\n".toList := by
  have hpre : "</style>\n</head>\n<body>\n<pre>\n".toList =
      "</style>\n</head>\n<body>\n".toList ++ "<pre>\n".toList := rfl
  unfold pageHead beforePre
  rw [hpre, List.append_assoc _ _ "<pre>\n".toList]

theorem pageTail_eq : pageTail = "</pre>".toList ++ "\n</body>\n</html>\n".toList := rfl

/-- The tags before the `<pre>`. -/
def headTags : List (List Char) :=
  ["<!DOCTYPE html>".toList, "<html>".toList, "<head>".toList, "<meta charset=\"utf-8\">".toList, "<title>".toList,
    "</title>".toList, "<style>".toList, "</style>".toList, "</head>".toList, "<body>".toList]

theorem pagePiece_beforePre (view : View) : PagePiece (beforePre view) headTags := by
  have hopen : HasTags ("<!DOCTYPE html>\n<html>\n<head>\n<meta charset=\"utf-8\">\n".toList
      ++ "<title>React Code Visualizer</title>\n<style>\n".toList) (headTags.take 7) := fun _ => rfl
  have hclose : HasTags "</style>\n</head>\n<body>\n".toList (headTags.drop 7) := fun _ => rfl
  have htags := (hopen.append (HasTags.text (lt_not_mem_pageStyle view))).append hclose
  exact ⟨headTags, htags, by decide, by decide, fun _ => rfl⟩

theorem pagePiece_behindPre : PagePiece "\n</body>\n</html>\n".toList ["</body>".toList, "</html>".toList] :=
  ⟨["</body>".toList, "</html>".toList], fun _ => rfl, by decide, by decide, fun _ => rfl⟩

/-! ## The page read back -/

/-- The rows of the lines of a view. -/
def View.rows [Engine] (view : View) : List PageRow :=
  (linesOf view.text).mapIdx view.rowOf

/-- **The page is the rows between the two ends of its `pre`.** -/
theorem renderPage_eq [Engine] (view : View) : renderPage view (Highlighter.mk .tokenized true) =
    beforePre view ++ ("<pre>\n".toList ++ (view.rows.flatMap PageRow.write ++ pageTail)) := by
  have hrows := pageRows_eq view 0 (linesOf view.text)
  simp only [Nat.zero_add] at hrows
  unfold renderPage Highlighter.highlightText View.rows
  rw [hrows, pageHead_eq, List.append_assoc, List.append_assoc]

theorem View.pagePiece_rows [Engine] (view : View) : PagePiece (view.rows.flatMap PageRow.write)
    ((linesOf view.text).mapIdx fun i line => view.rowTags i line.isEmpty).flatten :=
  PagePiece.mapIdx view.pagePiece_rowOf

theorem View.open_absent [Engine] (view : View) :
    ¬ "<pre>\n".toList <:+: view.rows.flatMap PageRow.write ++ pageTail := by
  obtain ⟨tags, htags, hopen, -, -⟩ := view.pagePiece_rows
  have htail : HasTags pageTail ["</pre>".toList, "</body>".toList, "</html>".toList] := fun _ => rfl
  refine (htags.append htail).absent (n := "pre".toList) rfl (by decide) fun hmem => ?_
  rcases List.mem_append.1 hmem with h | h
  · exact hopen h
  · exact absurd h (by decide)

/-- **A page is cut at its ends of the `pre` in one way.** -/
theorem renderPage_cut [Engine] (view : View) (a body c : List Char) :
    renderPage view (Highlighter.mk .tokenized true) = a ++ "<pre>\n".toList ++ body ++ "</pre>".toList ++ c ↔
      a ++ "<pre>\n".toList = pageHead view ∧ body = view.rows.flatMap PageRow.write ∧
        "</pre>".toList ++ c = pageTail := by
  have hrows := view.pagePiece_rows
  rw [renderPage_eq, pageHead_eq]
  simp only [List.append_assoc]
  constructor
  · intro h
    -- first the one `<pre>`, then the one `</pre>` in what is left
    obtain ⟨ha, h⟩ := cut_once (m := "<pre>\n".toList) (n := "pre>\n".toList) h.symm rfl (by decide)
      (pagePiece_beforePre view).open_absent view.open_absent
    rw [pageTail_eq] at h
    obtain ⟨hbody, hc⟩ := cut_once (m := "</pre>".toList) (n := "/pre>".toList) h rfl (by decide)
      hrows.close_absent pagePiece_behindPre.close_absent
    exact ⟨by rw [ha], hbody, by rw [hc, pageTail_eq]⟩
  · rintro ⟨ha, rfl, hc⟩
    rw [List.append_cancel_right ha, hc]

/-- **The tags outside the markers are those of the page itself.** -/
theorem outsideMarkers_renderPage [Engine] (view : View) :
    outsideMarkers [] (tagsOf (renderPage view (Highlighter.mk .tokenized true))) =
      headTags ++ "<pre>".toList :: (((linesOf view.text).mapIdx fun i line => view.rowTags i line.isEmpty).flatten
        ++ ["</pre>".toList, "</body>".toList, "</html>".toList]) := by
  obtain ⟨before, hbefore, -, -, hhead⟩ := pagePiece_beforePre view
  obtain ⟨tags, htags, -, -, hrows⟩ := view.pagePiece_rows
  have hpre : HasTags "<pre>\n".toList ["<pre>".toList] := fun _ => rfl
  have htail : HasTags pageTail ["</pre>".toList, "</body>".toList, "</html>".toList] := fun _ => rfl
  have hopen : ∀ rest, outsideMarkers [] ("<pre>".toList :: rest) = "<pre>".toList :: outsideMarkers [] rest :=
    fun _ => rfl
  rw [renderPage_eq, (hbefore.append (hpre.append (htags.append htail))).tagsOf_eq, hhead, List.singleton_append, hopen,
    hrows]
  rfl

/-- Rows that show lines one by one give the lines back. -/
theorem mapM_line?_mapIdx : ∀ {f : Nat → List Char → PageRow} (lines : List (List Char)),
    (∀ i line, (f i line).line? = some line) → (lines.mapIdx f).mapM PageRow.line? = some lines
  | _, [], _ => rfl
  | f, line :: rest, h => by
    have ih := mapM_line?_mapIdx rest fun i => h (i + 1)
    rw [List.mapIdx_cons, List.mapM_cons, h 0 line, ih]
    rfl

theorem View.text?_rows [Engine] (view : View) : PageRow.text? view.rows = some view.text := by
  unfold PageRow.text? View.rows
  rw [mapM_line?_mapIdx _ view.line?_rowOf, Option.map_some, intercalate_linesOf]

/-- **What a page says of a view**: it is cut at its `pre` in one way, and its rows are those between the ends; nothing
else is written like them; they show the lines of the text one by one, so that the text is read back from them; and
outside the markers there are no tags but those of the page, of which the text decides only how many rows there are and
which of them are empty. -/
structure PageSays [Engine] (view : View) (page : List Char) (rows : List PageRow) : Prop where
  cut : ∀ a body c, page = a ++ "<pre>\n".toList ++ body ++ "</pre>".toList ++ c ↔
    a ++ "<pre>\n".toList = pageHead view ∧ body = rows.flatMap PageRow.write ∧ "</pre>".toList ++ c = pageTail
  unique : ∀ rows', rows'.flatMap PageRow.write = rows.flatMap PageRow.write → rows' = rows
  count : rows.length = view.lineCount
  shows : ∀ i line, (linesOf view.text)[i]? = some line → ∃ row : PageRow, rows[i]? = some row ∧ row.Shows view i line
  text : PageRow.text? rows = some view.text
  outside : outsideMarkers [] (tagsOf page) =
    headTags ++ "<pre>".toList :: (((linesOf view.text).mapIdx fun i line => view.rowTags i line.isEmpty).flatten
      ++ ["</pre>".toList, "</body>".toList, "</html>".toList])

/-- **A page says what it shows.**  The rows between the ends of its `pre` are as many as the lines of the text and told
apart in one way only, and whatever the text is, it comes back from them and leaves the rest of the page as it is. -/
theorem page_reads [Engine] (view : View) :
    view.lineCount = view.stats.lines ∧ (∀ text, pageHead { view with text } = pageHead view) ∧
    ∃ rows, PageSays view (renderPage view (Highlighter.mk .tokenized true)) rows := by
  refine ⟨rfl, fun _ => rfl, view.rows, ?_⟩
  constructor
  · exact renderPage_cut view
  · exact fun _ h => PageRow.flatMap_write_injective h
  · exact List.length_mapIdx
  · intro i line hline
    refine ⟨view.rowOf i line, ?_, view.rowOf_shows i line⟩
    rw [View.rows, List.getElem?_mapIdx, hline]
    rfl
  · exact view.text?_rows
  · exact outsideMarkers_renderPage view

end JsxView
