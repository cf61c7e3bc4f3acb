import JsxView.Config.Read
import JsxView.Proofs.SessionInvariant
/-!
# FontSizes — font sizes stay in their range

A font size has sixteen bits, what is asked for has sixty-four and a sign, and a sum of two such numbers is held where
it would leave them.  None of this shows: on whole numbers without any bound, an action takes the font size to the
nearest size of the range (`View.fontSize_apply`), because the range lies far inside of what the words hold
(`FontRange.nearest_held`).  It takes bounds in the right order, which every settings file gives, whatever it sets
(`Config.admits_ofSettings`), and no action changes them.

A session changes its view by actions only (`Session.exists_actions`), so what actions keep, sessions keep.
-/
namespace JsxView

/-! ## Clamped sizes -/

/-- The number between two bounds that is nearest to a number. -/
def clampBetween (low high n : Int) : Int :=
  max low (min n high)

theorem toInt_requestOf (size : UInt16) : (requestOf size).toInt = size.toNat := by
  have := size.toNat_lt
  exact Int64.toInt_ofNat_of_lt (by omega)

/-- A sum of requests is the sum of their numbers, held at the border. -/
theorem toInt_addSaturating (a b : Int64) :
    (addSaturating a b).toInt = clampBetween Int64.minValue.toInt Int64.maxValue.toInt (a.toInt + b.toInt) := by
  have hmin := Int64.toInt_minValue
  have hmax := Int64.toInt_maxValue
  unfold addSaturating clampBetween
  dsimp only
  split
  · omega
  · split
    · omega
    · rw [Int64.toInt_ofInt_of_le (by omega) (by omega)]
      omega

namespace FontRange

/-- **A size of a range.** -/
structure Admits (range : FontRange) (size : UInt16) : Prop where
  min_le : range.min ≤ size
  le_max : size ≤ range.max

/-- The number of a range that is nearest to a whole number. -/
def nearest (range : FontRange) (n : Int) : Int :=
  clampBetween range.min.toNat range.max.toNat n

/-- The font size behind an action, in whole numbers. -/
def sizeAfter (range : FontRange) (size : Int) : Action → Int
  | .setFontSize n => range.nearest n.toInt
  | .stepFontSize delta => range.nearest (size + delta.toInt)
  | _ => size

variable {range : FontRange} {size : UInt16}

theorem Admits.min_le_max (h : range.Admits size) : range.min ≤ range.max :=
  UInt16.le_trans h.min_le h.le_max

theorem min_le_max_between (a b : UInt16) : (between a b).min ≤ (between a b).max := by
  unfold between
  split
  · assumption
  · rename_i hab
    exact UInt16.le_of_lt (UInt16.not_le.1 hab)

/-- Where a number leaves the words, the range has been left long before. -/
theorem nearest_held (range : FontRange) (n : Int) :
    range.nearest (clampBetween Int64.minValue.toInt Int64.maxValue.toInt n) = range.nearest n := by
  have := Int64.toInt_minValue
  have := Int64.toInt_maxValue
  have := range.min.toNat_lt
  have := range.max.toNat_lt
  unfold nearest clampBetween
  omega

theorem toNat_clamp (h : range.min ≤ range.max) (n : Int64) : (range.clamp n).toNat = range.nearest n.toInt := by
  have hmax := range.max.toNat_lt
  rw [UInt16.le_iff_toNat_le] at h
  unfold clamp nearest clampBetween
  simp only [Int64.lt_iff_toInt_lt, toInt_requestOf]
  split
  · omega
  · split
    · omega
    · rw [UInt16.toNat_ofNat_of_lt' (show _ < 2 ^ 16 by omega)]
      omega

theorem toNat_step (h : range.min ≤ range.max) (size : UInt16) (delta : Int64) :
    (range.step size delta).toNat = range.nearest (size.toNat + delta.toInt) := by
  rw [step, toNat_clamp h, toInt_addSaturating, nearest_held, toInt_requestOf]

theorem admits_of_toNat (h : range.min ≤ range.max) {n : Int} (hsize : (size.toNat : Int) = range.nearest n) :
    range.Admits size := by
  unfold nearest clampBetween at hsize
  rw [UInt16.le_iff_toNat_le] at h
  exact ⟨UInt16.le_iff_toNat_le.2 (by omega), UInt16.le_iff_toNat_le.2 (by omega)⟩

/-- A size of the range is clamped to itself. -/
theorem Admits.clamp_eq (h : range.Admits size) : range.clamp (requestOf size) = size := by
  have hclamp := toNat_clamp h.min_le_max (requestOf size)
  have hmin := UInt16.le_iff_toNat_le.1 h.min_le
  have hmax := UInt16.le_iff_toNat_le.1 h.le_max
  rw [toInt_requestOf, nearest, clampBetween] at hclamp
  exact UInt16.toNat_inj.1 (by omega)

end FontRange

/-! ## Settings -/

/-- **Whatever a settings file sets, the bounds are in order and the font size is between them.** -/
theorem Config.admits_ofSettings (settings : Settings) :
    (Config.ofSettings settings).fontRange.Admits (Config.ofSettings settings).fontSize :=
  FontRange.admits_of_toNat (FontRange.min_le_max_between _ _)
    (FontRange.toNat_clamp (FontRange.min_le_max_between _ _) _)

theorem Config.admits_parse {file : List Char} {config : Config} (h : Config.parse file = some config) :
    config.fontRange.Admits config.fontSize := by
  obtain ⟨settings, -, rfl⟩ := Option.map_eq_some_iff.1 h
  exact Config.admits_ofSettings settings

/-! ## Actions -/

namespace View

variable {view : View}

theorem fontRange_apply (view : View) (action : Action) : (view.apply action).fontRange = view.fontRange := by
  cases action <;> rfl

/-- **What an action makes of the font size**, in whole numbers. -/
theorem fontSize_apply (h : view.fontRange.min ≤ view.fontRange.max) (action : Action) :
    (view.apply action).fontSize.toNat = view.fontRange.sizeAfter view.fontSize.toNat action := by
  cases action with
  | setFontSize size => exact FontRange.toNat_clamp h size
  | stepFontSize delta => exact FontRange.toNat_step h view.fontSize delta
  | _ => rfl

theorem admits_apply (h : view.fontRange.Admits view.fontSize) (action : Action) :
    view.fontRange.Admits (view.apply action).fontSize := by
  cases action with
  | setFontSize size => exact FontRange.admits_of_toNat h.min_le_max (FontRange.toNat_clamp h.min_le_max size)
  | stepFontSize delta => exact FontRange.admits_of_toNat h.min_le_max (FontRange.toNat_step h.min_le_max _ delta)
  | _ => exact h

/-- **What actions make of the font size**: all that whole numbers give, inside the range, which stays. -/
theorem fontSize_applyAll : ∀ {view : View}, view.fontRange.Admits view.fontSize → ∀ actions : List Action,
    ((view.applyAll actions).fontSize.toNat : Int) =
      actions.foldl view.fontRange.sizeAfter view.fontSize.toNat ∧
    (view.applyAll actions).fontRange = view.fontRange ∧
    view.fontRange.Admits (view.applyAll actions).fontSize
  | _, h, [] => ⟨rfl, rfl, h⟩
  | view, h, action :: rest => by
    have hrange := fontRange_apply view action
    have hnext : (view.apply action).fontRange.Admits (view.apply action).fontSize := by
      rw [hrange]
      exact admits_apply h action
    have ih := fontSize_applyAll hnext rest
    rw [hrange, fontSize_apply h.min_le_max] at ih
    exact ih

theorem start_of_admits (text : List Char) {config : Config} (h : config.fontRange.Admits config.fontSize) :
    (start text config).fontSize = config.fontSize :=
  h.clamp_eq

end View

/-! ## Sessions -/

namespace Session

/-- **A session changes its view by actions only.** -/
theorem exists_actions (s : Session) (reply : Reply) (layout : Layout) (command : Command) :
    ∃ actions : List Action, (s.handle reply layout command).1.view = s.view.applyAll actions := by
  have hact : ∀ action, ∃ actions : List Action, (s.act action).view = s.view.applyAll actions :=
    fun action => ⟨[action], rfl⟩
  have hedit : ∀ edited, ∃ actions : List Action, (s.edit? edited).view = s.view.applyAll actions := by
    intro edited
    cases edited with
    | none => exact ⟨[], rfl⟩
    | some edited => exact ⟨[.editText edited.1, .dismissNotice], rfl⟩
  have hupdate : ∃ actions : List Action, (s.update reply layout command).view = s.view.applyAll actions := by
    cases command with
    | insert | paste | newline => exact ⟨[.editText _, .dismissNotice], rfl⟩
    | backspace | delete => exact hedit _
    | moveLeft | moveRight | moveUp | moveDown | pageUp | pageDown | lineStart | lineEnd | redraw | quit | ignore =>
      exact ⟨[], rfl⟩
    | click row col =>
      rw [update]
      split
      · exact ⟨[.togglePin _], rfl⟩
      · exact ⟨[], rfl⟩
    | _ => exact hact _
  by_cases hquit : command = .quit
  · subst hquit
    exact ⟨[], rfl⟩
  · rw [handle_of_ne_quit s reply layout hquit]
    exact hupdate

theorem exists_actions_after : ∀ (s : Session) (turns : List Turn),
    ∃ actions : List Action, (s.after turns).view = s.view.applyAll actions
  | _, [] => ⟨[], rfl⟩
  | s, t :: turns => by
    obtain ⟨first, hfirst⟩ := exists_actions s t.reply (Layout.compute t.cols t.rows) t.command
    obtain ⟨rest, hrest⟩ := exists_actions_after (s.turn t) turns
    refine ⟨first ++ rest, ?_⟩
    show ((s.turn t).after turns).view = _
    rw [hrest, turn, hfirst, View.applyAll, View.applyAll, View.applyAll, List.foldl_append]

theorem defaultFontSize_after : ∀ (s : Session) (turns : List Turn),
    (s.after turns).defaultFontSize = s.defaultFontSize
  | _, [] => rfl
  | s, t :: turns => by
    have hturn : (s.turn t).defaultFontSize = s.defaultFontSize := by
      rw [turn, handle_eq]
    exact (defaultFontSize_after (s.turn t) turns).trans hturn

/-- **A reset goes back to the font size that was set**, wherever a run of commands leads. -/
theorem fontSize_reset (text : List Char) {config : Config} (h : config.fontRange.Admits config.fontSize)
    (turns : List Turn) (reply : Reply) (layout : Layout) :
    let s := (start text config).after turns
    (s.handle reply layout .resetFontSize).1.view.fontSize = config.fontSize := by
  intro s
  obtain ⟨actions, hview⟩ := exists_actions_after (start text config) turns
  have hstart : (View.start text config).fontRange.Admits (View.start text config).fontSize := by
    rw [View.start_of_admits text h]
    exact h
  have hrange : s.view.fontRange = config.fontRange := by
    rw [hview]
    exact (View.fontSize_applyAll hstart actions).2.1
  have hsize : s.defaultFontSize = config.fontSize := defaultFontSize_after (start text config) turns
  show s.view.fontRange.clamp (requestOf s.defaultFontSize) = _
  rw [hrange, hsize]
  exact h.clamp_eq

end Session

/-! ## All of it -/

/-- **Font sizes are computed as if there were no words, and never leave their range.**  Every settings file that is
read, whatever bounds and size it sets or leaves out, gives bounds in the right order with the font size between them.
From a font size in its range, any actions lead to the font size that whole numbers give, where a size that is asked for
and a step are each taken to the nearest number of the range and every other action leaves the size alone; the range
stays, and the size stays in it.  A view starts with the font size of its settings, and in a session a reset goes back
to it from wherever a run of commands has led. -/
theorem font_sizes_in_range :
    (∀ file config, Config.parse file = some config →
      config.fontRange.min ≤ config.fontRange.max ∧ config.fontRange.Admits config.fontSize) ∧
    (∀ (view : View) (actions : List Action), view.fontRange.Admits view.fontSize →
      let last := view.applyAll actions
      (last.fontSize.toNat : Int) = actions.foldl view.fontRange.sizeAfter view.fontSize.toNat ∧
        last.fontRange = view.fontRange ∧ view.fontRange.Admits last.fontSize) ∧
    ∀ (text : List Char) (config : Config), config.fontRange.Admits config.fontSize →
      ((View.start text config).fontSize = config.fontSize ∧ (View.start text config).fontRange = config.fontRange) ∧
      ∀ turns reply layout,
        let s := (Session.start text config).after turns
        (s.handle reply layout .resetFontSize).1.view.fontSize = config.fontSize := by
  refine ⟨fun file config hparse => ?_, fun view actions h => View.fontSize_applyAll h actions, fun text config h => ?_⟩
  · have h := Config.admits_parse hparse
    exact ⟨h.min_le_max, h⟩
  · exact ⟨⟨View.start_of_admits text h, rfl⟩, Session.fontSize_reset text h⟩

/-- Bounds the wrong way round and a size above both, steps past either end of the words, and a reset behind them. -/
theorem font_sizes_in_range_inverted :
    let file := "min_font_size = 30\nmax_font_size = 12\nfont_size = 99".toList
    let config : Config := { fontSize := 30, fontRange := ⟨12, 30⟩ }
    let view := View.start "a".toList config
    let actions : List Action :=
      [.stepFontSize Int64.maxValue, .setFontSize Int64.minValue, .dismissNotice, .stepFontSize 3]
    let turns : List Session.Turn := [⟨.fontSmaller, none, 9, 4⟩, ⟨.insert 'b', none, 9, 4⟩]
    let s := (Session.start "a".toList config).after turns
    Config.parse file = some config ∧
    (config.fontRange.Admits config.fontSize ∧ config.fontRange.min ≤ config.fontRange.max) ∧
    (view.fontRange.Admits view.fontSize ∧ ((view.applyAll actions).fontSize.toNat : Int) = 15) ∧
    (s.view.fontSize = 29 ∧ (s.handle none (Layout.compute 9 4) .resetFontSize).1.view.fontSize = 30) := by
  intro file config view actions turns s
  obtain ⟨hfiles, hviews, hconfigs⟩ := font_sizes_in_range
  have hparse : Config.parse file = some config := by decide +kernel
  obtain ⟨hbounds, hconfig⟩ := hfiles file config hparse
  have hview : view.fontRange.Admits view.fontSize := ⟨by decide, by decide⟩
  obtain ⟨hsize, -, -⟩ := hviews view actions hview
  have hreset := (hconfigs "a".toList config hconfig).2 turns none (Layout.compute 9 4)
  exact ⟨hparse, ⟨hconfig, hbounds⟩, ⟨hview, hsize⟩, by decide +kernel, hreset⟩

end JsxView
