import JsxView.CommandLine.Options
/-!
# Arguments — what a list of arguments asks for

Arguments are read from the left, and the first one that cannot stand behind those before it decides about the error
(`Options.parse_eq_error_iff`).  Where there is none, the order is of no account, and neither is how often a switch is
given: each switch is on if one of its spellings is among the arguments, and the file is the one argument that is not
meant as a switch (`Options.parse_eq_ok_iff`).
-/
namespace JsxView

/-- A spelling of a switch. -/
def Switch.Spells (switch : Switch) (arg : List Char) : Prop :=
  (arg, switch) ∈ Switch.spellings

/-- An argument that is meant as a switch. -/
def hasHyphen (arg : List Char) : Bool :=
  arg.head? = some '-'

/-- The arguments that are meant as files. -/
def filesOf (args : List (List Char)) : List (List Char) :=
  args.filter fun arg => !hasHyphen arg

/-- Whether a switch is on. -/
def Options.has (options : Options) : Switch → Bool
  | .help => options.help
  | .version => options.version
  | .html => options.html
  | .stats => options.stats
  | .chained => options.chained

/-- **Arguments that can be read**: all that are meant as switches are known, and there is one file at most. -/
structure Readable (args : List (List Char)) : Prop where
  known : ∀ arg ∈ args, hasHyphen arg → ∃ switch : Switch, switch.Spells arg
  files : (filesOf args).length ≤ 1

/-- **What arguments ask for**: each switch of which a spelling is among them, and the file. -/
structure Options.AskedBy (options : Options) (args : List (List Char)) : Prop where
  switches : ∀ switch : Switch, options.has switch ↔ ∃ arg ∈ args, switch.Spells arg
  file : filesOf args = options.file.toList

/-- **An argument that cannot stand behind others**, with the error for it. -/
inductive Offends (before : List (List Char)) : List Char → OptionError → Prop
  | unknown {arg : List Char} : hasHyphen arg → (∀ switch : Switch, ¬ switch.Spells arg) →
      Offends before arg (.unknownOption arg)
  | second {first arg : List Char} : first ∈ before → ¬ hasHyphen first → ¬ hasHyphen arg →
      Offends before arg .secondFile

/-- **The first argument that cannot stand where it does** decides about the error. -/
def FirstOffence (args : List (List Char)) (e : OptionError) : Prop :=
  ∃ before arg after, args = before ++ arg :: after ∧ Readable before ∧ Offends before arg e

/-! ## Spellings -/

theorem Switch.hasHyphen_of_spells {switch : Switch} {arg : List Char} (h : switch.Spells arg) : hasHyphen arg := by
  have hall : ∀ entry ∈ Switch.spellings, hasHyphen entry.1 := by decide
  exact hall _ h

/-- No two switches have a spelling in common. -/
theorem Switch.spells_unique {switch other : Switch} {arg : List Char} (h : switch.Spells arg)
    (h' : other.Spells arg) : other = switch := by
  have hall : ∀ entry ∈ Switch.spellings, ∀ entry' ∈ Switch.spellings, entry'.1 = entry.1 → entry'.2 = entry.2 := by
    decide
  exact hall _ h _ h' rfl

theorem lookup_spellings_eq_some {switch : Switch} {arg : List Char} (h : switch.Spells arg) :
    Switch.spellings.lookup arg = some switch := by
  have hall : ∀ entry ∈ Switch.spellings, Switch.spellings.lookup entry.1 = some entry.2 := by decide
  exact hall _ h

theorem lookup_spellings_eq_none {arg : List Char} (h : ∀ switch : Switch, ¬ switch.Spells arg) :
    Switch.spellings.lookup arg = none := by
  rw [List.lookup_eq_none_iff]
  rintro ⟨spelling, switch⟩ hentry
  exact bne_iff_ne.2 fun heq => h switch (heq ▸ hentry)

variable {args args' : List (List Char)} {arg : List Char}

/-! ## Files -/

theorem filesOf_append (x y : List (List Char)) : filesOf (x ++ y) = filesOf x ++ filesOf y :=
  List.filter_append x y

theorem filesOf_of_hasHyphen (h : hasHyphen arg) : filesOf [arg] = [] := by
  rw [filesOf, List.filter_cons_of_neg (by simp [h]), List.filter_nil]

theorem filesOf_of_not_hasHyphen (h : ¬ hasHyphen arg) : filesOf [arg] = [arg] := by
  rw [filesOf, List.filter_cons_of_pos (by simpa using h), List.filter_nil]

theorem mem_filesOf : arg ∈ filesOf args ↔ arg ∈ args ∧ ¬ hasHyphen arg := by
  rw [filesOf, List.mem_filter, Bool.not_eq_true', Bool.not_eq_true]

namespace Options

variable {options : Options}

/-! ## One argument -/

theorem ext_has {a b : Options} (hswitches : ∀ switch, a.has switch = b.has switch) (hfile : a.file = b.file) :
    a = b := by
  obtain ⟨help, version, html, stats, chained, file⟩ := a
  have hhelp := hswitches .help
  have hversion := hswitches .version
  have hhtml := hswitches .html
  have hstats := hswitches .stats
  have hchained := hswitches .chained
  simp only [has] at hhelp hversion hhtml hstats hchained hfile
  subst hhelp hversion hhtml hstats hchained hfile
  rfl

theorem has_turnOn (options : Options) (switch other : Switch) :
    (options.turnOn switch).has other = (options.has other || decide (other = switch)) := by
  cases switch <;> cases other <;> simp [turnOn, has]

theorem file_turnOn (options : Options) (switch : Switch) : (options.turnOn switch).file = options.file := by
  cases switch <;> rfl

theorem add_of_spells (options : Options) {switch : Switch} (h : switch.Spells arg) :
    options.add arg = .ok (options.turnOn switch) := by
  rw [add, lookup_spellings_eq_some h]

theorem add_of_unknown (options : Options) (hhyphen : hasHyphen arg) (h : ∀ switch : Switch, ¬ switch.Spells arg) :
    options.add arg = .error (.unknownOption arg) := by
  rw [add, lookup_spellings_eq_none h]
  exact if_pos (of_decide_eq_true hhyphen)

theorem add_of_file (options : Options) (hhyphen : ¬ hasHyphen arg) :
    options.add arg = if options.file.isSome then .error .secondFile else .ok { options with file := some arg } := by
  have hspells : ∀ switch : Switch, ¬ switch.Spells arg := fun _ h => hhyphen (Switch.hasHyphen_of_spells h)
  rw [add, lookup_spellings_eq_none hspells]
  exact if_neg fun h => hhyphen (decide_eq_true h)

/-- An argument is a spelling of a switch, or meant as one and unknown, or a file. -/
theorem arg_cases (arg : List Char) : (∃ switch : Switch, switch.Spells arg) ∨
    (hasHyphen arg ∧ ∀ switch : Switch, ¬ switch.Spells arg) ∨ ¬ hasHyphen arg := by
  by_cases hhyphen : hasHyphen arg
  · by_cases hspells : ∃ switch : Switch, switch.Spells arg
    · exact Or.inl hspells
    · exact Or.inr (Or.inl ⟨hhyphen, not_exists.1 hspells⟩)
  · exact Or.inr (Or.inr hhyphen)

/-! ## From one argument to the next -/

theorem AskedBy.turnOn (h : options.AskedBy args) {switch : Switch} (hspells : switch.Spells arg) :
    (options.turnOn switch).AskedBy (args ++ [arg]) where
  switches := by
    intro other
    have hlast : other.Spells arg ↔ other = switch :=
      ⟨Switch.spells_unique hspells, fun heq => heq ▸ hspells⟩
    rw [has_turnOn, Bool.or_eq_true, decide_eq_true_eq, h.switches other]
    simp only [List.mem_append, List.mem_singleton, or_and_right, exists_or, exists_eq_left, hlast]
  file := by
    rw [filesOf_append, filesOf_of_hasHyphen (Switch.hasHyphen_of_spells hspells), List.append_nil, file_turnOn, h.file]

theorem AskedBy.setFile (h : options.AskedBy args) (hfile : options.file = none) (hhyphen : ¬ hasHyphen arg) :
    ({ options with file := some arg } : Options).AskedBy (args ++ [arg]) where
  switches := by
    intro switch
    have hlast : ¬ switch.Spells arg := fun hspells => hhyphen (Switch.hasHyphen_of_spells hspells)
    have hsame : ({ options with file := some arg } : Options).has switch = options.has switch := by
      cases switch <;> rfl
    rw [hsame, h.switches switch]
    simp only [List.mem_append, List.mem_singleton, or_and_right, exists_or, exists_eq_left, hlast, or_false]
  file := by
    rw [filesOf_append, filesOf_of_not_hasHyphen hhyphen, h.file, hfile]
    rfl

/-- **One more argument** is taken in, or it is the first that cannot stand where it does. -/
theorem add_cases (h : options.AskedBy args) (hreadable : Readable args) (arg : List Char) :
    (∃ next, options.add arg = .ok next ∧ next.AskedBy (args ++ [arg]) ∧ Readable (args ++ [arg])) ∨
      ∃ e, options.add arg = .error e ∧ Offends args arg e := by
  have hknown : (hasHyphen arg → ∃ switch : Switch, switch.Spells arg) →
      ∀ a ∈ args ++ [arg], hasHyphen a → ∃ switch : Switch, switch.Spells a := by
    intro hlast a ha
    rcases List.mem_append.1 ha with ha | ha
    · exact hreadable.known a ha
    · exact List.mem_singleton.1 ha ▸ hlast
  rcases arg_cases arg with ⟨switch, hspells⟩ | ⟨hhyphen, hunknown⟩ | hhyphen
  · refine Or.inl ⟨_, add_of_spells options hspells, h.turnOn hspells, hknown fun _ => ⟨switch, hspells⟩, ?_⟩
    rw [filesOf_append, filesOf_of_hasHyphen (Switch.hasHyphen_of_spells hspells), List.append_nil]
    exact hreadable.files
  · exact Or.inr ⟨_, add_of_unknown options hhyphen hunknown, .unknown hhyphen hunknown⟩
  · rw [add_of_file options hhyphen]
    cases hfile : options.file with
    | none =>
      refine Or.inl ⟨_, rfl, h.setFile hfile hhyphen, hknown fun hyes => absurd hyes hhyphen, ?_⟩
      rw [filesOf_append, filesOf_of_not_hasHyphen hhyphen, h.file, hfile]
      exact Nat.le_refl 1
    | some first =>
      have hfirst : first ∈ filesOf args := by
        rw [h.file, hfile]
        exact List.mem_singleton_self first
      exact Or.inr ⟨_, rfl, .second (mem_filesOf.1 hfirst).1 (mem_filesOf.1 hfirst).2 hhyphen⟩

/-! ## All arguments -/

theorem askedBy_nil : ({} : Options).AskedBy [] where
  switches := by
    intro switch
    cases switch <;> simp [has]
  file := rfl

theorem readable_nil : Readable [] :=
  ⟨nofun, Nat.zero_le 1⟩

theorem addAll_cases : ∀ {options : Options} {before : List (List Char)}, options.AskedBy before → Readable before →
    ∀ args : List (List Char),
      (∃ last, options.addAll args = .ok last ∧ last.AskedBy (before ++ args) ∧ Readable (before ++ args)) ∨
      ∃ e, options.addAll args = .error e ∧ ∃ between arg after, args = between ++ arg :: after ∧
        Readable (before ++ between) ∧ Offends (before ++ between) arg e
  | options, before, h, hreadable, [] => by
    rw [List.append_nil]
    exact Or.inl ⟨options, rfl, h, hreadable⟩
  | options, before, h, hreadable, arg :: rest => by
    rw [addAll]
    rcases add_cases h hreadable arg with ⟨next, hadd, hnext, hread⟩ | ⟨e, hadd, hoffends⟩
    · rw [hadd]
      have ih := addAll_cases hnext hread rest
      rw [List.append_assoc, List.singleton_append] at ih
      rcases ih with hlast | ⟨e, he, between, arg', after, rfl, hbetween, hoffends⟩
      · exact Or.inl hlast
      · rw [List.append_assoc, List.singleton_append] at hbetween hoffends
        exact Or.inr ⟨e, he, arg :: between, arg', after, rfl, hbetween, hoffends⟩
    · rw [hadd]
      refine Or.inr ⟨e, rfl, [], arg, rest, rfl, ?_, ?_⟩
      · rwa [List.append_nil]
      · rwa [List.append_nil]

/-- **Arguments are read to what they ask for, or to the error of the first that cannot stand where it does.** -/
theorem parse_cases (args : List (List Char)) :
    (∃ options, parse args = .ok options ∧ options.AskedBy args ∧ Readable args) ∨
      ∃ e, parse args = .error e ∧ FirstOffence args e :=
  addAll_cases askedBy_nil readable_nil args

end Options

theorem Readable.not_firstOffence (h : Readable args) (e : OptionError) :
    ¬ FirstOffence args e := by
  rintro ⟨before, arg, after, rfl, -, hoffends⟩
  cases hoffends with
  | unknown hhyphen hunknown =>
    obtain ⟨switch, hspells⟩ := h.known arg (List.mem_append_right _ List.mem_cons_self) hhyphen
    exact hunknown switch hspells
  | @second first _ hfirst hfirstFile hfile =>
    have hbefore : 0 < (filesOf before).length :=
      List.length_pos_of_mem (mem_filesOf.2 ⟨hfirst, hfirstFile⟩)
    have hfiles := h.files
    rw [← List.singleton_append, filesOf_append, filesOf_append,
      filesOf_of_not_hasHyphen hfile, List.length_append, List.length_append, List.length_singleton] at hfiles
    omega

/-- **Arguments with the same files and the same switches**, whatever their order and however often each switch is
given. -/
structure SameArguments (args args' : List (List Char)) : Prop where
  switches : ∀ arg, hasHyphen arg → (arg ∈ args' ↔ arg ∈ args)
  files : (filesOf args').Perm (filesOf args)

theorem SameArguments.readable (h : SameArguments args args') (hreadable : Readable args) : Readable args' where
  known := fun arg harg hhyphen => hreadable.known arg ((h.switches arg hhyphen).1 harg) hhyphen
  files := h.files.length_eq ▸ hreadable.files

theorem SameArguments.of_perm (h : args.Perm args') : SameArguments args args' :=
  ⟨fun _ _ => h.mem_iff.symm, h.symm.filter _⟩

/-- A switch given once more. -/
theorem SameArguments.of_repeat {before after : List (List Char)} (hmem : arg ∈ before ++ after)
    (hhyphen : hasHyphen arg) : SameArguments (before ++ after) (before ++ arg :: after) where
  switches := by
    intro other _
    rw [List.mem_append, List.mem_cons, List.mem_append]
    rw [List.mem_append] at hmem
    constructor
    · rintro (hbefore | rfl | hafter)
      · exact Or.inl hbefore
      · exact hmem
      · exact Or.inr hafter
    · rintro (hbefore | hafter)
      · exact Or.inl hbefore
      · exact Or.inr (Or.inr hafter)
  files := by
    rw [← List.singleton_append, filesOf_append, filesOf_append, filesOf_append, filesOf_of_hasHyphen hhyphen,
      List.nil_append]

namespace Options

variable {options : Options}

/-- At most one file has one order. -/
theorem AskedBy.same (h : options.AskedBy args) (hsame : SameArguments args args') : options.AskedBy args' where
  switches := by
    intro switch
    rw [h.switches switch]
    constructor
    · rintro ⟨arg, harg, hspells⟩
      exact ⟨arg, (hsame.switches arg (Switch.hasHyphen_of_spells hspells)).2 harg, hspells⟩
    · rintro ⟨arg, harg, hspells⟩
      exact ⟨arg, (hsame.switches arg (Switch.hasHyphen_of_spells hspells)).1 harg, hspells⟩
  file := by
    have hfiles := hsame.files
    rw [h.file] at hfiles
    cases hfile : options.file with
    | none =>
      rw [hfile] at hfiles
      exact hfiles.eq_nil
    | some file =>
      rw [hfile] at hfiles
      exact hfiles.eq_singleton

theorem AskedBy.unique {other : Options} (h : options.AskedBy args) (h' : other.AskedBy args) : options = other := by
  refine ext_has (fun switch => Bool.eq_iff_iff.2 ((h.switches switch).trans (h'.switches switch).symm)) ?_
  have hfiles : options.file.toList = other.file.toList := h.file.symm.trans h'.file
  rw [← Option.head?_toList (o := options.file), hfiles, Option.head?_toList]

/-- **Arguments are read if they can be, and to what they ask for.** -/
theorem parse_eq_ok_iff : parse args = .ok options ↔ Readable args ∧ options.AskedBy args := by
  rcases parse_cases args with ⟨last, hparse, hlast, hreadable⟩ | ⟨e, hparse, hoffence⟩
  · rw [hparse]
    constructor
    · rintro ⟨⟩
      exact ⟨hreadable, hlast⟩
    · rintro ⟨-, hoptions⟩
      rw [hlast.unique hoptions]
  · rw [hparse]
    exact ⟨nofun, fun h => absurd hoffence (h.1.not_firstOffence e)⟩

theorem addAll_append : ∀ (options : Options) (x y : List (List Char)), options.addAll (x ++ y) =
    match options.addAll x with
    | .ok next => next.addAll y
    | .error e => .error e
  | _, [], _ => rfl
  | options, arg :: x, y => by
    rw [List.cons_append, addAll, addAll]
    cases options.add arg with
    | ok next => exact addAll_append next x y
    | error e => rfl

theorem add_of_offends (h : options.AskedBy args) {e : OptionError} (hoffends : Offends args arg e) :
    options.add arg = .error e := by
  cases hoffends with
  | unknown hhyphen hunknown => exact add_of_unknown options hhyphen hunknown
  | second hfirst hfirstFile hfile =>
    have hmem := mem_filesOf.2 ⟨hfirst, hfirstFile⟩
    rw [h.file, Option.mem_toList] at hmem
    rw [add_of_file options hfile, if_pos (by rw [hmem]; rfl)]

/-- **The first argument that cannot stand where it does decides about the error.** -/
theorem parse_eq_error_iff {e : OptionError} : parse args = .error e ↔ FirstOffence args e := by
  constructor
  · intro h
    rcases parse_cases args with ⟨last, hparse, -, -⟩ | ⟨e', hparse, hoffence⟩
    · rw [hparse] at h
      cases h
    · rw [hparse] at h
      cases h
      exact hoffence
  · rintro ⟨before, arg, after, rfl, hreadable, hoffends⟩
    rcases parse_cases before with ⟨last, hparse, hlast, -⟩ | ⟨e', -, hoffence⟩
    · rw [parse] at hparse
      rw [parse, addAll_append, hparse]
      show last.addAll (arg :: after) = _
      rw [addAll, add_of_offends hlast hoffends]
    · exact absurd hoffence (hreadable.not_firstOffence e')

theorem parse_of_same (h : parse args = .ok options) (hsame : SameArguments args args') :
    parse args' = .ok options := by
  obtain ⟨hreadable, hasked⟩ := parse_eq_ok_iff.1 h
  exact parse_eq_ok_iff.2 ⟨hsame.readable hreadable, hasked.same hsame⟩

/-- **What a list of arguments asks for.**  It is read exactly when every argument that begins with a hyphen is one of
the spellings and at most one does not begin with a hyphen.  Then each switch is on exactly when one of its spellings is
among the arguments, the file is the one other argument if there is one, and neither another order nor a switch given
once more makes a difference.  Otherwise the error is that of the first argument that is meant as a switch and unknown,
or is a second file. -/
theorem parse_arguments (args : List (List Char)) :
    ((∃ options, parse args = .ok options) ↔ Readable args) ∧
    (∀ options, parse args = .ok options →
      ((options.help ↔ "--help".toList ∈ args ∨ "-h".toList ∈ args) ∧
        (options.version ↔ "--version".toList ∈ args ∨ "-V".toList ∈ args) ∧
        (options.html ↔ "--html".toList ∈ args) ∧ (options.stats ↔ "--stats".toList ∈ args) ∧
        (options.chained ↔ "--chained".toList ∈ args)) ∧
      filesOf args = options.file.toList ∧
      (∀ args', args.Perm args' → parse args' = .ok options) ∧
      ∀ before after switch, args = before ++ after → switch ∈ args → hasHyphen switch →
        parse (before ++ switch :: after) = .ok options) ∧
    ∀ e, parse args = .error e ↔ FirstOffence args e := by
  refine ⟨⟨?_, ?_⟩, ?_, fun e => parse_eq_error_iff⟩
  · rintro ⟨options, h⟩
    exact (parse_eq_ok_iff.1 h).1
  · intro h
    rcases parse_cases args with ⟨options, hparse, -, -⟩ | ⟨e, -, hoffence⟩
    · exact ⟨options, hparse⟩
    · exact absurd hoffence (h.not_firstOffence e)
  · intro options h
    have hasked := (parse_eq_ok_iff.1 h).2
    refine ⟨?_, hasked.file, fun args' hperm => parse_of_same h (.of_perm hperm), ?_⟩
    · have hswitches := hasked.switches
      simp only [Switch.Spells, Switch.spellings] at hswitches
      refine ⟨?_, ?_, ?_, ?_, ?_⟩
      · simpa [has, and_or_left, exists_or] using hswitches .help
      · simpa [has, and_or_left, exists_or] using hswitches .version
      · simpa [has] using hswitches .html
      · simpa [has] using hswitches .stats
      · simpa [has] using hswitches .chained
    · rintro before after switch rfl hmem hhyphen
      exact parse_of_same h (.of_repeat hmem hhyphen)

/-- Two switches around a file: another order and a switch given twice ask for the same. -/
theorem parse_arguments_repeated :
    let args := ["--html".toList, "a.js".toList, "-h".toList]
    let options : Options := { help := true, html := true, file := some "a.js".toList }
    parse args = .ok options ∧
      parse ["a.js".toList, "--html".toList, "-h".toList] = .ok options ∧
      parse ["--html".toList, "a.js".toList, "--html".toList, "-h".toList] = .ok options := by
  intro args options
  have hparse : parse args = .ok options := by rfl
  obtain ⟨-, -, hperm, hrepeat⟩ := (parse_arguments args).2.1 options hparse
  refine ⟨hparse, hperm _ (by decide), ?_⟩
  exact hrepeat ["--html".toList, "a.js".toList] ["-h".toList] "--html".toList rfl (by decide) (by decide)

end Options
end JsxView
