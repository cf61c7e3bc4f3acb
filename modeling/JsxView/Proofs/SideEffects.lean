import JsxView.Backtracking
import JsxView.Proofs.FileStore
import JsxView.Proofs.SessionInvariant
import JsxView.Session.Outside
/-!
# SideEffects — what a run leaves behind

Outside of a session there is a clipboard that may fail and a store of files that may refuse a write, each time anew and
for whatever reason (`Answers`).  What happens there depends on the session, but the session sees nothing of it except
that a request was met or not, and this shows in the notice and nowhere else (`Session.turnEffects`).  The other way
round only two files are ever written, one for each of two commands, and their places differ (`Session.SavesTo`).  So
after any run each of them is as the last command that was met has left it (`Session.Plays.nodeAt?_eq`), and everything
else is as it was (`Session.Plays.node?_eq`).
-/
namespace JsxView

/-- **The replies to a request and what they leave of the files.**  The clipboard takes a text or fails, and a file is
written or the write is refused; what fails leaves the files as they were. -/
inductive Answers (files : Files) : Option Request → Reply → Files → Prop where
  | nothing : Answers files none none files
  | copied (text : List Char) (reply : Reply) : Answers files (some (.copy text)) reply files
  | saved {path text : List Char} {files' : Files} :
      files.write path text = .ok files' → Answers files (some (.save path text)) none files'
  | refused (path text : List Char) (failure : Failure) : Answers files (some (.save path text)) (some failure) files

/-- The commands that edit the text. -/
def Command.edits : Command → Bool
  | .insert _ | .paste _ | .newline | .backspace | .delete => true
  | _ => false

/-- The commands that request something from outside. -/
def Command.reachesOut : Command → Bool
  | .copy | .download | .exportHtml => true
  | _ => false

namespace Session

/-- **A run among files**: some turns of a session, each with a reply to its request, and the files after them. -/
inductive Plays [Engine] : Files → Session → List Turn → Files → Prop where
  | done (files : Files) (s : Session) : Plays files s [] files
  | turn {files files' files'' : Files} {s : Session} {t : Turn} {rest : List Turn} :
      Answers files (s.request t.command) t.reply files' → Plays files' (s.turn t) rest files'' →
        Plays files s (t :: rest) files''

/-- The session at the last turn with the given command whose request was met. -/
def lastMet (command : Command) (s : Session) : List Turn → Option Session
  | [] => none
  | t :: rest =>
    (lastMet command (s.turn t) rest).or (if t.command = command ∧ t.reply = none then some s else none)

/-- **What a turn does to a session.**  It ends the session just when its command is to quit, only an edit changes the
text, and a command that reaches out leaves all of the view but the notice as it was, and the cursor; the notice says
whether the request was met. -/
structure TurnEffects (s : Session) (t : Turn) : Prop where
  ends : (s.handle t.reply (Layout.compute t.cols t.rows) t.command).2 = false ↔ t.command = .quit
  text : (s.turn t).view.text ≠ s.view.text → t.command.edits
  notice : t.command.reachesOut → (s.turn t).cursor = s.cursor ∧
    ∃ notice : Notice, (s.turn t).view = { s.view with notice := some notice } ∧
      (notice.kind = .info ↔ t.reply = none) ∧ (notice.kind = .error ↔ t.reply ≠ none)

/-- **What a run does**, turn by turn and in all: the one file holds the text, and the other the page, of the session
when it was last saved there, or what it held before, and no other place has changed. -/
structure SideEffects [Engine] (s : Session) (turns : List Turn) (files files' : Files) : Prop where
  each : ∀ before t after, turns = before ++ t :: after → (s.after before).TurnEffects t
  download : files'.nodeAt? s.downloadPath =
    match lastMet .download s turns with
    | some last => some (.file (encodeUtf8 last.view.text))
    | none => files.nodeAt? s.downloadPath
  page : files'.nodeAt? s.exportPath =
    match lastMet .exportHtml s turns with
    | some last => some (.file (encodeUtf8 (renderPage last.view last.highlighter)))
    | none => files.nodeAt? s.exportPath
  others : files'.workDir = files.workDir ∧ ∀ place, files.resolve s.downloadPath ≠ .ok place →
    files.resolve s.exportPath ≠ .ok place → files'.node? place = files.node? place

/-! ## One turn -/

theorem text_update (s : Session) (reply : Reply) (layout : Layout) {command : Command} (h : ¬ command.edits) :
    (s.update reply layout command).view.text = s.view.text := by
  cases command with
  | insert | paste | newline | backspace | delete => exact absurd rfl h
  | click row col =>
    rw [update]
    split <;> rfl
  | _ => rfl

theorem kind_notice (done failed : List Char) (reply : Reply) :
    ((reply.notice done failed).kind = .info ↔ reply = none) ∧
      ((reply.notice done failed).kind = .error ↔ reply ≠ none) := by
  cases reply <;> simp [Reply.notice]

/-- **Every turn of every session does what it should.** -/
theorem turnEffects (s : Session) (t : Turn) : s.TurnEffects t where
  ends := by
    by_cases hquit : t.command = .quit
    · rw [hquit]
      exact ⟨fun _ => rfl, fun _ => rfl⟩
    · rw [handle_of_ne_quit _ _ _ hquit]
      exact ⟨nofun, fun h => absurd h hquit⟩
  text := by
    refine fun hchanged => Classical.byContradiction fun hedits => hchanged ?_
    by_cases hquit : t.command = .quit
    · rw [turn, hquit]
      rfl
    · rw [turn, handle_of_ne_quit _ _ _ hquit]
      exact text_update s t.reply _ hedits
  notice := by
    intro hreaches
    obtain ⟨command, reply, cols, rows⟩ := t
    cases command with
    | copy | download | exportHtml => exact ⟨rfl, _, rfl, kind_notice _ _ reply⟩
    | _ => cases hreaches

theorem downloadDir_turn (s : Session) (t : Turn) : (s.turn t).downloadDir = s.downloadDir :=
  downloadDir_handle s t.reply _ t.command

/-! ## The files -/

end Session

variable {files files' : Files} {request : Option Request} {reply : Reply}

theorem Answers.sameDirs (h : Answers files request reply files') : files.SameDirs files' := by
  cases h with
  | saved hwrite => exact Files.sameDirs_of_write hwrite
  | _ => exact .refl files

theorem Answers.node?_eq (h : Answers files request reply files') {place : Location}
    (hplace : ∀ path text, request = some (.save path text) → files.resolve path ≠ .ok place) :
    files'.node? place = files.node? place := by
  cases h with
  | saved hwrite => exact Files.node?_of_write hwrite (hplace _ _ rfl)
  | _ => rfl

namespace Session

/-- **A command that saves to a path of its own**: what it saves there in every session with that directory, while no
path that another command saves to leads to the same place. -/
structure SavesTo [Engine] (dir : List Char) (command : Command) (path : List Char)
    (content : Session → List Char) : Prop where
  request : ∀ s : Session, s.downloadDir = dir → s.request command = some (.save path (content s))
  apart : ∀ s : Session, s.downloadDir = dir → ∀ {other : Command} {path' text : List Char}, other ≠ command →
    s.request other = some (.save path' text) →
      ∀ {files : Files} {place : Location}, files.resolve path = .ok place → files.resolve path' ≠ .ok place

theorem request_eq_save [Engine] {s : Session} {command : Command} {path text : List Char}
    (h : s.request command = some (.save path text)) :
    command = .download ∧ path = s.downloadPath ∨ command = .exportHtml ∧ path = s.exportPath := by
  cases command with
  | download =>
    cases h
    exact Or.inl ⟨rfl, rfl⟩
  | exportHtml =>
    cases h
    exact Or.inr ⟨rfl, rfl⟩
  | _ => cases h

/-- **The two files of a directory are apart.** -/
theorem resolve_joinPath_ne {dir : List Char} {place : Location}
    (h : files.resolve (joinPath dir "code.js".toList) = .ok place) :
    files.resolve (joinPath dir "code.html".toList) ≠ .ok place := by
  intro h'
  have hlast := Files.getLast?_of_resolve (by decide) (by decide) (by decide) (by decide) h
  rw [Files.getLast?_of_resolve (by decide) (by decide) (by decide) (by decide) h'] at hlast
  exact absurd hlast (by decide)

theorem savesTo_download [Engine] (dir : List Char) :
    SavesTo dir .download (joinPath dir "code.js".toList) fun s => s.view.text where
  request := by
    rintro s rfl
    rfl
  apart := by
    rintro s rfl other path' text hother hrequest files place h
    rcases request_eq_save hrequest with ⟨rfl, -⟩ | ⟨-, rfl⟩
    · exact absurd rfl hother
    · exact resolve_joinPath_ne h

theorem savesTo_exportHtml [Engine] (dir : List Char) :
    SavesTo dir .exportHtml (joinPath dir "code.html".toList) fun s => renderPage s.view s.highlighter where
  request := by
    rintro s rfl
    rfl
  apart := by
    rintro s rfl other path' text hother hrequest files place h
    rcases request_eq_save hrequest with ⟨-, rfl⟩ | ⟨rfl, -⟩
    · exact fun h' => resolve_joinPath_ne h' h
    · exact absurd rfl hother

variable {s : Session} {turns : List Turn}

namespace Plays

variable [Engine]

theorem sameDirs (h : Plays files s turns files') : files.SameDirs files' := by
  induction h with
  | done files s => exact .refl files
  | turn hanswer _ ih => exact hanswer.sameDirs.trans ih

/-- **Only the places of the two files change.** -/
theorem node?_eq (h : Plays files s turns files') {place : Location}
    (hdownload : files.resolve s.downloadPath ≠ .ok place) (hexport : files.resolve s.exportPath ≠ .ok place) :
    files'.node? place = files.node? place := by
  induction h with
  | done => rfl
  | @turn files files' files'' s t rest hanswer _ ih =>
    have hdir := downloadDir_turn s t
    have hdirs := hanswer.sameDirs
    have hfirst : files'.node? place = files.node? place := by
      refine hanswer.node?_eq fun path text hrequest => ?_
      rcases request_eq_save hrequest with ⟨-, rfl⟩ | ⟨-, rfl⟩
      · exact hdownload
      · exact hexport
    rw [← hfirst]
    refine ih (fun h => hdownload ?_) fun h => hexport ?_
    · rw [downloadPath, hdir] at h
      exact (hdirs.resolve_eq_ok _).1 h
    · rw [exportPath, hdir] at h
      exact (hdirs.resolve_eq_ok _).1 h

/-- **The file of a command is as the last turn has left it in which the command was met**, or as it was before. -/
theorem nodeAt?_eq (h : Plays files s turns files') {command : Command} {path : List Char}
    {content : Session → List Char} (hsaves : SavesTo s.downloadDir command path content) :
    files'.nodeAt? path =
      match lastMet command s turns with
      | some last => some (.file (encodeUtf8 (content last)))
      | none => files.nodeAt? path := by
  induction h with
  | done => rfl
  | @turn files files' files'' s t rest hanswer _ ih =>
    rw [ih ((downloadDir_turn s t).symm ▸ hsaves), lastMet]
    cases lastMet command (s.turn t) rest with
    | some last => rfl
    | none =>
      rw [Option.none_or]
      by_cases hcommand : t.command = command
      · have hrequest := hsaves.request s rfl
        rw [hcommand, hrequest] at hanswer
        generalize t.reply = reply at hanswer ⊢
        cases hanswer with
        | saved hwrite =>
          rw [if_pos ⟨hcommand, rfl⟩]
          exact Files.nodeAt?_of_write hwrite
        | refused => rw [if_neg fun h => nomatch h.2]
      · rw [if_neg fun h => hcommand h.1]
        refine hanswer.sameDirs.nodeAt?_eq fun place hplace => hanswer.node?_eq fun path' text hrequest => ?_
        exact hsaves.apart s rfl hcommand hrequest hplace

end Plays

/-- **What any run does outside of it, and what it does not.**  Whatever the clipboard and the files refuse: a session
ends with the command to quit and no other, only edits change the text, and a command that reaches out changes nothing
in the view but the notice, which tells whether it was met.  At the end the file `code.js` of the download directory
holds the text as it was last saved, and `code.html` the page; each is as it was before the run if it was not saved, and
nothing else has changed. -/
theorem side_effects [Engine] (s : Session) (turns : List Turn) (files files' : Files) (h : Plays files s turns files') :
    s.SideEffects turns files files' where
  each := fun before t _ _ => turnEffects (s.after before) t
  download := h.nodeAt?_eq (savesTo_download s.downloadDir)
  page := h.nodeAt?_eq (savesTo_exportHtml s.downloadDir)
  others := ⟨h.sameDirs.workDir, fun _ => h.node?_eq⟩

/-- A store with one directory in it and one file. -/
def oneFile (bytes : List UInt8) : Files :=
  ⟨[(["out".toList], .dir), (["out".toList, "code.js".toList], .file bytes)], []⟩

/-- A text saved, edited, and not saved again because the file is refused; the clipboard fails as well. -/
theorem side_effects_refused :
    letI := Engine.backtracking
    let s := start "a".toList { downloadDir := "out".toList }
    let turns : List Turn := [⟨.download, none, 9, 4⟩, ⟨.insert 'b', none, 9, 4⟩,
      ⟨.download, some (.file (.other "No space left".toList)), 9, 4⟩, ⟨.copy, some (.clipboard "no".toList), 9, 4⟩]
    Plays (oneFile [98]) s turns (oneFile [97]) ∧ s.SideEffects turns (oneFile [98]) (oneFile [97]) := by
  let := Engine.backtracking
  intro s turns
  have hwrite : (oneFile [98]).write "out/code.js".toList "a".toList = .ok (oneFile [97]) := by rfl
  have hrun : Plays (oneFile [98]) s turns (oneFile [97]) :=
    .turn (.saved hwrite) (.turn .nothing (.turn (.refused _ _ _) (.turn (.copied _ _) (.done _ _))))
  exact ⟨hrun, side_effects s turns (oneFile [98]) (oneFile [97]) hrun⟩

end Session

/-! ## The loop -/

theorem Outside.answers_serve (outside : Outside) (request : Option Request) :
    Answers outside.files request (outside.serve request).1 (outside.serve request).2.files := by
  match request with
  | none => exact .nothing
  | some (.copy text) => exact .copied text _
  | some (.save path text) =>
    rw [serve]
    cases hwrite : outside.files.write path text with
    | ok files => exact .saved hwrite
    | error error => exact .refused path text _

/-- **A run that is played on files is such a run**, up to the event that ends it. -/
theorem Interaction.exists_plays [Engine] : ∀ (events : List Event) (run : Interaction) (outside : Outside),
    ∃ turns : List Session.Turn, turns.map (·.command) <+: events.map Event.command ∧
      Session.Plays outside.files run.session turns (run.play outside events).2.files
  | [], run, outside => ⟨[], List.nil_prefix, .done _ _⟩
  | event :: rest, run, outside => by
    let drawn := run.draw.2.resized event
    let served := outside.serve (run.session.request event.command)
    let handled := drawn.handle served.1 event.command
    let t : Session.Turn := ⟨event.command, served.1, drawn.cols, drawn.rows⟩
    have hsession : drawn.session = run.session := by cases event <;> rfl
    have hstep : (run.draw.2.resized event).step outside event.command = (handled.1, served.2, handled.2) := by
      show drawn.step outside event.command = _
      rw [step, hsession]
    have hturn : handled.1.session = run.session.turn t := by
      rw [← hsession]
      rfl
    have hanswer : Answers outside.files (run.session.request t.command) t.reply served.2.files :=
      outside.answers_serve _
    rw [play]
    simp only [hstep]
    cases handled.2 with
    | false => exact ⟨[t], ⟨_, rfl⟩, .turn hanswer (.done _ _)⟩
    | true =>
      obtain ⟨turns, hprefix, hplays⟩ := exists_plays rest handled.1 served.2
      rw [hturn] at hplays
      exact ⟨t :: turns, List.cons_prefix_cons.2 ⟨rfl, hprefix⟩, .turn hanswer hplays⟩

end JsxView
