import JsxView.Files
/-!
# FileStore — what a write leaves as it was

A write that succeeds stores the content at the place that the path leads to and nothing anywhere else
(`Files.node?_put`), and that place was no directory before.  So no path goes through it, and every path that led
somewhere leads there still (`Files.resolve_eq_ok_of_sameDirs`).  A name joined to a directory leads to a place of that
name, so two names in one directory never lead to the same place (`Files.getLast?_of_resolve`).
-/
namespace JsxView

namespace Files

/-- What is stored where a path leads, nothing where it leads nowhere. -/
def nodeAt? (files : Files) (path : List Char) : Option Node :=
  match files.resolve path with
  | .ok place => files.node? place
  | .error _ => none

variable {files files' : Files} {path text : List Char} {place : Location}

theorem nodeAt?_of_resolve (h : files.resolve path = .ok place) : files.nodeAt? path = files.node? place := by
  rw [nodeAt?, h]

theorem write_eq_ok : files.write path text = .ok files' ↔ ∃ place, files.resolve path = .ok place ∧
    files.node? place ≠ some .dir ∧ files' = files.put place (.file (encodeUtf8 text)) := by
  unfold write
  cases hresolve : files.resolve path with
  | error e => simp
  | ok place =>
    cases hnode : files.node? place with
    | none => simp [hnode, eq_comm]
    | some node => cases node <;> simp [hnode, eq_comm]

/-! ## Stores with the same directories -/

theorem lookup_filter_ne (place other : Location) : ∀ nodes : List (Location × Node),
    (nodes.filter (fun entry => entry.1 ≠ place)).lookup other = if other = place then none else nodes.lookup other
  | [] => by simp
  | (key, node) :: nodes => by
    have ih := lookup_filter_ne place other nodes
    by_cases hkey : key = place
    · rw [List.filter_cons_of_neg (by simpa using hkey), ih, List.lookup_cons]
      by_cases hother : other = place
      · rw [if_pos hother, if_pos hother]
      · rw [if_neg hother, if_neg hother, beq_false_of_ne (hkey ▸ hother)]
    · rw [List.filter_cons_of_pos (by simpa using hkey), List.lookup_cons, List.lookup_cons, ih]
      by_cases hother : other = place
      · rw [if_pos hother, if_pos hother, beq_false_of_ne fun h => hkey (h.symm.trans hother)]
      · rw [if_neg hother, if_neg hother]

/-- **What is stored at a place is stored there and nowhere else.** -/
theorem node?_put (hplace : place ≠ []) (node : Node) (other : Location) :
    (files.put place node).node? other = if other = place then some node else files.node? other := by
  unfold node? put
  by_cases hroot : other = []
  · rw [if_pos hroot, if_neg (fun h => hplace (h.symm.trans hroot)), if_pos hroot]
  · rw [if_neg hroot, if_neg hroot, List.lookup_append, lookup_filter_ne, List.lookup_cons]
    by_cases hother : other = place
    · rw [if_pos hother, if_pos hother, hother, beq_self_eq_true]
      rfl
    · rw [if_neg hother, if_neg hother, beq_false_of_ne hother]
      exact Option.or_none

/-- **Two stores with the same directories**, and so with the same ways through them. -/
structure SameDirs (files files' : Files) : Prop where
  workDir : files'.workDir = files.workDir
  dirs : ∀ place, files'.node? place = some .dir ↔ files.node? place = some .dir

theorem SameDirs.refl (files : Files) : files.SameDirs files :=
  ⟨rfl, fun _ => Iff.rfl⟩

theorem SameDirs.trans {files'' : Files} (h : files.SameDirs files') (h' : files'.SameDirs files'') :
    files.SameDirs files'' :=
  ⟨h'.workDir.trans h.workDir, fun place => (h'.dirs place).trans (h.dirs place)⟩

theorem sameDirs_of_write (h : files.write path text = .ok files') : files.SameDirs files' := by
  obtain ⟨place, -, hnode, rfl⟩ := write_eq_ok.1 h
  have hplace : place ≠ [] := by
    rintro rfl
    exact hnode rfl
  refine ⟨rfl, fun other => ?_⟩
  rw [node?_put hplace]
  split
  · rename_i hother
    exact ⟨nofun, fun hdir => absurd (hother ▸ hdir) hnode⟩
  · exact Iff.rfl

theorem follow_cons_eq_ok {name : List Char} {rest : List (List Char)} {start : Location} :
    files.follow start (name :: rest) = .ok place ↔ files.node? start = some .dir ∧ byteSize name ≤ 255 ∧
      files.follow (if name = ".".toList then start else if name = "..".toList then start.dropLast
        else start ++ [name]) rest = .ok place := by
  rw [follow]
  cases files.node? start with
  | none => simp
  | some node =>
    cases node with
    | file bytes => simp
    | dir =>
      by_cases hname : 255 < byteSize name
      · simp [hname, Nat.not_le.2 hname]
      · simp only [hname, if_false, true_and, Nat.not_lt.1 hname]
        split
        · rfl
        · split <;> rfl

/-- A way through directories is the same way through the same directories. -/
theorem SameDirs.follow_eq_ok (h : files.SameDirs files') : ∀ {names : List (List Char)} {start : Location},
    files'.follow start names = .ok place ↔ files.follow start names = .ok place
  | [], _ => Iff.rfl
  | name :: rest, start => by rw [follow_cons_eq_ok, follow_cons_eq_ok, h.dirs, h.follow_eq_ok]

/-- **With the same directories a path leads to the same place.** -/
theorem SameDirs.resolve_eq_ok (h : files.SameDirs files') (path : List Char) :
    files'.resolve path = .ok place ↔ files.resolve path = .ok place := by
  unfold resolve
  rw [h.workDir]
  split
  · exact Iff.rfl
  split
  · exact Iff.rfl
  split
  · exact Iff.rfl
  · exact h.follow_eq_ok

/-- A path leads to what it led to before, unless something was stored there. -/
theorem SameDirs.nodeAt?_eq (h : files.SameDirs files')
    (hnode : ∀ place, files.resolve path = .ok place → files'.node? place = files.node? place) :
    files'.nodeAt? path = files.nodeAt? path := by
  unfold nodeAt?
  cases hresolve : files.resolve path with
  | ok place =>
    rw [(h.resolve_eq_ok path).2 hresolve]
    exact hnode place hresolve
  | error e =>
    cases hresolve' : files'.resolve path with
    | error e' => rfl
    | ok place =>
      rw [(h.resolve_eq_ok path).1 hresolve'] at hresolve
      cases hresolve

/-- After a write the path leads to a file with the content that was written. -/
theorem nodeAt?_of_write (h : files.write path text = .ok files') :
    files'.nodeAt? path = some (.file (encodeUtf8 text)) := by
  have hdirs := sameDirs_of_write h
  obtain ⟨place, hresolve, hnode, rfl⟩ := write_eq_ok.1 h
  have hplace : place ≠ [] := by
    rintro rfl
    exact hnode rfl
  rw [nodeAt?_of_resolve ((hdirs.resolve_eq_ok path).2 hresolve), node?_put hplace, if_pos rfl]

theorem node?_of_write (h : files.write path text = .ok files') (hplace : files.resolve path ≠ .ok place) :
    files'.node? place = files.node? place := by
  obtain ⟨written, hresolve, hnode, rfl⟩ := write_eq_ok.1 h
  have hroot : written ≠ [] := by
    rintro rfl
    exact hnode rfl
  rw [node?_put hroot, if_neg]
  rintro rfl
  exact hplace hresolve

/-! ## Names in a directory -/

theorem follow_append_eq_ok {name : List Char} (hdot : name ≠ ".".toList) (hdots : name ≠ "..".toList) :
    ∀ {names : List (List Char)} {start : Location}, files.follow start (names ++ [name]) = .ok place →
      place.getLast? = some name
  | [], start, h => by
    obtain ⟨-, -, hrest⟩ := follow_cons_eq_ok.1 h
    rw [if_neg hdot, if_neg hdots] at hrest
    cases hrest
    exact List.getLast?_concat
  | _ :: names, _, h => follow_append_eq_ok hdot hdots (follow_cons_eq_ok.1 h).2.2

/-- A name joined to a directory is the last name of the path. -/
theorem splitOn_joinPath {name : List Char} (hname : '/' ∉ name) (dir : List Char) :
    ∃ names, (joinPath dir name).splitOn '/' = names ++ [name] := by
  have hsingle := List.splitOn_eq_singleton hname
  unfold joinPath
  split
  · rename_i hend
    rcases Bool.or_eq_true_iff.1 hend with hempty | hslash
    · rw [List.isEmpty_iff.1 hempty]
      exact ⟨[], hsingle⟩
    · obtain ⟨front, rfl⟩ := List.getLast?_eq_some_iff.1 (of_decide_eq_true hslash)
      refine ⟨front.splitOn '/', ?_⟩
      rw [List.append_assoc, List.singleton_append, List.splitOn_append_cons_self, hsingle]
  · exact ⟨dir.splitOn '/', by rw [List.splitOn_append_cons_self, hsingle]⟩

/-- **A name joined to a directory leads to a place of that name.** -/
theorem getLast?_of_resolve {dir name : List Char} (hname : '/' ∉ name) (hne : name ≠ []) (hdot : name ≠ ".".toList)
    (hdots : name ≠ "..".toList) (h : files.resolve (joinPath dir name) = .ok place) :
    place.getLast? = some name := by
  obtain ⟨names, hsplit⟩ := splitOn_joinPath hname dir
  have hlast : (joinPath dir name).getLast? ≠ some '/' := by
    obtain ⟨front, hjoin⟩ : ∃ front, joinPath dir name = front ++ name := by
      unfold joinPath
      split
      · exact ⟨dir, rfl⟩
      · exact ⟨dir ++ ['/'], by rw [List.append_assoc, List.singleton_append]⟩
    obtain ⟨last, hlast⟩ := Option.ne_none_iff_exists'.1 fun h => hne (List.getLast?_eq_none_iff.1 h)
    rw [hjoin, List.getLast?_append, hlast, Option.some_or]
    exact fun hslash => hname (List.mem_of_getLast? (hlast.trans hslash))
  rw [resolve] at h
  dsimp only at h
  rw [if_neg hlast, hsplit, List.filter_append, List.filter_cons_of_pos (by simpa using hne)] at h
  -- the three ways in which a path leads nowhere by itself
  split at h
  · cases h
  split at h
  · cases h
  split at h
  · cases h
  · exact follow_append_eq_ok hdot hdots h

end Files
end JsxView
