import JsxView.Proofs.LineEdit
import JsxView.Proofs.SessionInvariant
/-!
# Typing — a paste is as good as typing

Putting two texts in one behind the other is putting in the text that they make together (`Edit.insert_insert`).  For a
session this needs more than the text: the pin has to survive both ways, and it does because a session in place has its
pin on a line and no insertion takes a line away; and the window has to follow the cursor to the same line, and it does
because the cursor starts in the window or below its first line and only goes down (`scrollAxis_scrollAxis`).  The
horizontal scroll is another matter: a key typed at the end of a long line moves the window, and the way back after a
line break is not the way a paste goes.  So all but that is the same after a paste as after its keys
(`Session.atLeft_puts`).
-/
namespace JsxView

/-! ## Inserting twice -/

namespace Edit

/-- **Two insertions one behind the other are one.** -/
theorem insert_insert (text : List Char) (c : Cursor) (u v : List Char) :
    insert (insert text c u).1 (insert text c u).2 v = insert text c (u ++ v) := by
  rw [insert_eq text c u, insert_eq text c (u ++ v), insert_eq, before_atEnd, after_atEnd, List.append_assoc _ u v]

theorem lineCount_append_le (x y : List Char) : lineCount x ≤ lineCount (x ++ y) := by
  rw [lineCount_eq, lineCount_eq, List.count_append]
  omega

theorem lineCount_insert_le (text : List Char) (c : Cursor) (s : List Char) :
    lineCount text ≤ lineCount (insert text c s).1 := by
  rw [insert_eq]
  conv => lhs; rw [← before_append_after text c]
  simp only [lineCount_eq, List.count_append]
  omega

theorem line_insert_le (text : List Char) (c : Cursor) (u v : List Char) :
    (insert text c u).2.line ≤ (insert text c (u ++ v)).2.line := by
  have hle := lineCount_append_le (before text c ++ u) v
  rw [insert_eq, insert_eq, ← List.append_assoc]
  show lineCount _ - 1 ≤ lineCount _ - 1
  omega

theorem line_le_insert {text : List Char} {c : Cursor} (hc : c.Valid text) (s : List Char) :
    c.line ≤ (insert text c s).2.line := by
  have hle := lineCount_append_le (before text c) s
  have hline : c.line = lineCount (before text c) - 1 := by
    conv => lhs; rw [← hc.clamp_eq, ← LineEdit.atEnd_before]
    rfl
  rw [insert_eq, hline]
  show _ ≤ lineCount _ - 1
  omega

end Edit

/-! ## Putting text into a session -/

/-- A text with the carriage return before every line feed taken away. -/
def joinPairs : List Char → List Char
  | [] => []
  | '\r' :: '\n' :: rest => '\n' :: joinPairs rest
  | c :: rest => c :: joinPairs rest

/-- A text with every pair of a carriage return and a line feed, and every carriage return that is left, made one line
feed. -/
def lineFeedsOnly (text : List Char) : List Char :=
  (joinPairs text).map fun c => if c = '\r' then '\n' else c

theorem normalizeBreaks_eq (text : List Char) : normalizeBreaks text = lineFeedsOnly text := by
  fun_induction normalizeBreaks text with
  | case1 => rfl
  | case2 rest ih =>
    rw [ih]
    rfl
  | case3 rest hpair ih =>
    rw [ih, lineFeedsOnly, lineFeedsOnly, joinPairs]
    · rfl
    · exact fun more _ hrest => hpair more hrest
  | case4 c rest hpair hreturn ih =>
    rw [ih, lineFeedsOnly, lineFeedsOnly, joinPairs, List.map_cons, if_neg hreturn]
    exact hpair

theorem lineFeedsOnly_ne_nil {text : List Char} (h : text ≠ []) : lineFeedsOnly text ≠ [] := by
  rw [← normalizeBreaks_eq]
  unfold normalizeBreaks
  split
  · contradiction
  · exact List.cons_ne_nil _ _
  · exact List.cons_ne_nil _ _
  · exact List.cons_ne_nil _ _

namespace Session

/-- The session with its window at the left, which leaves out how far it is scrolled to the right. -/
def atLeft (s : Session) : Session :=
  { s with leftCol := 0 }

/-- The session with a text put in at the cursor and its window moved to show the cursor. -/
def put (s : Session) (layout : Layout) (text : List Char) : Session :=
  (s.edit (Edit.insert s.view.text s.cursor text)).scroll layout

/-- The session with characters put in one by one. -/
def puts (s : Session) (layout : Layout) (text : List Char) : Session :=
  text.foldl (fun s c => s.put layout [c]) s

theorem scrollAxis_of_le {start size p : Nat} (hp : start ≤ p) :
    scrollAxis start size p = max start (p + 1 - size) := by
  have := scrollAxis_cases start size p
  omega

/-- A window that has followed a position down follows it further down as if it had not moved yet. -/
theorem scrollAxis_scrollAxis {start size p q : Nat} (hsize : 0 < size) (hp : start ≤ p) (hq : p ≤ q) :
    scrollAxis (scrollAxis start size p) size q = scrollAxis start size q := by
  have hle : scrollAxis start size p ≤ q := Nat.le_trans (scrollAxis_le start p hsize) hq
  rw [scrollAxis_of_le hle, scrollAxis_of_le hp, scrollAxis_of_le (Nat.le_trans hp hq)]
  omega

variable {s s' : Session} {layout : Layout}

theorem atLeft_put (h : s.atLeft = s'.atLeft) (layout : Layout) (text : List Char) :
    (s.put layout text).atLeft = (s'.put layout text).atLeft := by
  have hleft : ∀ s : Session, (s.put layout text).atLeft = (s.atLeft.put layout text).atLeft := fun _ => rfl
  rw [hleft s, hleft s', h]

theorem atLeft_puts : ∀ {s s' : Session}, s.atLeft = s'.atLeft → ∀ (layout : Layout) (text : List Char),
    (s.puts layout text).atLeft = (s'.puts layout text).atLeft
  | _, _, h, _, [] => h
  | _, _, h, layout, c :: rest => atLeft_puts (atLeft_put h layout [c]) layout rest

theorem inPlace_put (s : Session) (layout : Layout) (text : List Char) : (s.put layout text).InPlace :=
  ⟨⟨(onLines_edit (Edit.valid_insert _ _ _)).cursor, (onLines_edit (Edit.valid_insert _ _ _)).pinned⟩,
    (inWindow_scroll _ layout).topLine⟩

/-- A pin on a line of the text stays there while no line is taken away. -/
theorem OnLines.pinned_edit (h : s.OnLines) {edited : List Char × Cursor}
    (hle : s.view.lineCount ≤ lineCount edited.1) : (s.edit edited).view.pinned = s.view.pinned := by
  show s.view.pinned.filter (· < lineCount edited.1) = s.view.pinned
  cases hpin : s.view.pinned with
  | none => rfl
  | some line => exact if_pos (decide_eq_true (Nat.lt_of_lt_of_le (h.pinned line hpin) hle))

theorem pinned_put (h : s.InPlace) (layout : Layout) (text : List Char) :
    (s.put layout text).view.pinned = s.view.pinned :=
  h.pinned_edit (Edit.lineCount_insert_le s.view.text s.cursor text)

theorem topLine_put_put (h : s.InPlace) (layout : Layout) (u v : List Char) :
    ((s.put layout u).put layout v).topLine = (s.put layout (u ++ v)).topLine := by
  have hdown : s.topLine ≤ (Edit.insert s.view.text s.cursor u).2.line :=
    Nat.le_trans h.topLine (Edit.line_le_insert h.cursor u)
  have hcursor : ((s.put layout u).put layout v).cursor = (s.put layout (u ++ v)).cursor :=
    congrArg Prod.snd (Edit.insert_insert s.view.text s.cursor u v)
  show scrollAxis (scrollAxis s.topLine _ (Edit.insert s.view.text s.cursor u).2.line) _
    ((s.put layout u).put layout v).cursor.line = scrollAxis s.topLine _ (s.put layout (u ++ v)).cursor.line
  rw [hcursor]
  exact scrollAxis_scrollAxis (by omega) hdown (Edit.line_insert_le s.view.text s.cursor u v)

/-- The session with its text edited, a pin and a first line given to it, and its window at the left. -/
def editedAtLeft (s : Session) (edited : List Char × Cursor) (pinned : Option Nat) (topLine : Nat) : Session :=
  { s with
    view := { s.view with text := edited.1, pinned, notice := none }
    cursor := edited.2
    topLine
    leftCol := 0 }

/-- **Two texts put in one behind the other are one text put in**, but for the horizontal scroll. -/
theorem atLeft_put_put (h : s.InPlace) (layout : Layout) (u v : List Char) :
    ((s.put layout u).put layout v).atLeft = (s.put layout (u ++ v)).atLeft := by
  have hinsert := Edit.insert_insert s.view.text s.cursor u v
  have hpinned : ((s.put layout u).put layout v).view.pinned = (s.put layout (u ++ v)).view.pinned := by
    rw [pinned_put (inPlace_put s layout u), pinned_put h, pinned_put h]
  have htop := topLine_put_put h layout u v
  calc ((s.put layout u).put layout v).atLeft
      = s.editedAtLeft (Edit.insert (Edit.insert s.view.text s.cursor u).1 (Edit.insert s.view.text s.cursor u).2 v)
          ((s.put layout u).put layout v).view.pinned ((s.put layout u).put layout v).topLine := rfl
    _ = s.editedAtLeft (Edit.insert s.view.text s.cursor (u ++ v)) (s.put layout (u ++ v)).view.pinned
          (s.put layout (u ++ v)).topLine := by rw [hinsert, hpinned, htop]
    _ = (s.put layout (u ++ v)).atLeft := rfl

/-- **Characters put in one by one are one text put in**, but for the horizontal scroll. -/
theorem atLeft_puts_put (h : s.InPlace) (layout : Layout) : ∀ w text : List Char,
    ((s.put layout w).puts layout text).atLeft = (s.put layout (w ++ text)).atLeft
  | w, [] => by
    rw [List.append_nil]
    rfl
  | w, c :: text => by
    have hstep := atLeft_puts (atLeft_put_put h layout w [c]) layout text
    rw [atLeft_puts_put h layout (w ++ [c]) text, List.append_assoc] at hstep
    exact hstep

/-! ## Keys -/

/-- The session after events, none of which requests anything, on a screen that stays as it is. -/
def afterEvents (s : Session) (layout : Layout) (events : List Event) : Session :=
  events.foldl (fun s event => (s.handle none layout event.command).1) s

end Session

/-- The key that types a character. -/
def Key.typing (c : Char) : Key :=
  if c = '\n' then .enter else .char c

/-- **Keys that type a text**: pressed or held, without control and alt, and each the key of its character. -/
structure Types (keys : List KeyEvent) (text : List Char) : Prop where
  typed : keys.map KeyEvent.key = text.map Key.typing
  plain : ∀ k ∈ keys, k.kind ≠ .release ∧ k.ctrl = false ∧ k.alt = false

theorem command_of_typing {k : KeyEvent} {c : Char} (hkey : k.key = Key.typing c) (hkind : k.kind ≠ .release)
    (hctrl : k.ctrl = false) (halt : k.alt = false) :
    (Event.key k).command = if c = '\n' then .newline else .insert c := by
  have hpress : k.command = k.pressCommand := by
    unfold KeyEvent.command
    split
    · contradiction
    · rfl
    · rfl
  rw [Event.command, hpress, KeyEvent.pressCommand, hkey, Key.typing, hctrl, halt]
  by_cases hbreak : c = '\n'
  · rw [if_pos hbreak, if_pos hbreak]
  · rw [if_neg hbreak, if_neg hbreak]
    rfl

namespace Session

theorem handle_of_typing (s : Session) (layout : Layout) {k : KeyEvent} {c : Char} (hkey : k.key = Key.typing c)
    (hplain : k.kind ≠ .release ∧ k.ctrl = false ∧ k.alt = false) :
    s.handle none layout (Event.key k).command = (s.put layout [c], true) := by
  obtain ⟨hkind, hctrl, halt⟩ := hplain
  rw [command_of_typing hkey hkind hctrl halt]
  split
  · rename_i hbreak
    subst hbreak
    rfl
  · rfl

theorem afterEvents_keys : ∀ (s : Session) (layout : Layout) {keys : List KeyEvent} {text : List Char},
    Types keys text → s.afterEvents layout (keys.map .key) = s.puts layout text
  | s, layout, [], [], _ => rfl
  | s, layout, k :: keys, c :: text, h => by
    obtain ⟨hkey, hkeys⟩ := List.cons.inj h.typed
    have hhandle := handle_of_typing s layout hkey (h.plain k List.mem_cons_self)
    have ih := afterEvents_keys (s.put layout [c]) layout ⟨hkeys, fun k' h' => h.plain k' (List.mem_cons_of_mem _ h')⟩
    show afterEvents (s.handle none layout (Event.key k).command).1 layout (keys.map .key) = _
    rw [hhandle, ih]
    rfl
  | _, _, [], _ :: _, h => by cases h.typed
  | _, _, _ :: _, [], h => by cases h.typed

/-- **Pasting is typing.**  Wherever a run of commands leads, and on whatever screen: a paste leaves the same session
as the keys that type its text with every pair of a carriage return and a line feed, and every carriage return that is
left, turned into a line feed.  Only how far the window is scrolled to the right may differ. -/
theorem paste_eq_typing (text : List Char) (config : Config) (turns : List Turn) (layout : Layout) (pasted : List Char)
    (keys : List KeyEvent) (hpasted : pasted ≠ []) (hkeys : Types keys (lineFeedsOnly pasted)) :
    let s := (start text config).after turns
    (s.afterEvents layout [.paste pasted]).atLeft = (s.afterEvents layout (keys.map .key)).atLeft := by
  intro s
  have h : s.InPlace := inPlace_after (inPlace_start text config) turns
  have hpaste : s.afterEvents layout [.paste pasted] = s.put layout (lineFeedsOnly pasted) := by
    rw [← normalizeBreaks_eq]
    rfl
  rw [hpaste, afterEvents_keys s layout hkeys]
  obtain ⟨c, rest, htext⟩ := List.exists_cons_of_ne_nil (lineFeedsOnly_ne_nil hpasted)
  rw [htext]
  exact (atLeft_puts_put h layout [c] rest).symm

/-- Two line breaks pasted in the middle of a pinned line, and the keys for them, one of which is held. -/
theorem paste_eq_typing_pinned :
    "\r\né\r".toList ≠ [] ∧
    Types [⟨.enter, .press, false, false⟩, ⟨.char 'é', .hold, false, false⟩, ⟨.enter, .press, false, false⟩]
      (lineFeedsOnly "\r\né\r".toList) ∧
    (let s := (start "ab\nc".toList {}).after [⟨.moveRight, none, 9, 4⟩, ⟨.pinCursorLine, none, 9, 4⟩]
    (s.afterEvents (Layout.compute 9 4) [.paste "\r\né\r".toList]).atLeft =
      (s.afterEvents (Layout.compute 9 4) [.key ⟨.enter, .press, false, false⟩, .key ⟨.char 'é', .hold, false, false⟩,
        .key ⟨.enter, .press, false, false⟩]).atLeft) := by
  have hkeys : Types [⟨.enter, .press, false, false⟩, ⟨.char 'é', .hold, false, false⟩, ⟨.enter, .press, false, false⟩]
      (lineFeedsOnly "\r\né\r".toList) := ⟨by decide, by decide⟩
  exact ⟨by decide, hkeys, paste_eq_typing _ _ _ _ _ _ (by decide) hkeys⟩

end Session
end JsxView
