import Mathlib.Data.List.DropRight
import PseudoLang.Command.Directory
import PseudoLang.Proofs.Outcome

/-!
Hosts that keep files. Reading and asking for the time leave every file as it is, and writing to a
path every file but its own (`Host.Files`). A directory in memory is such a host, with its places
for files (`Directory.host_files`).
-/

namespace PseudoLang.Command

/-- A host with files: `fileOf` tells which of them a path stands for, and `content` what is in
them. A write that fails may still have spoiled the file of its path. -/
structure Host.Files {σ F : Type} (host : Host (StateM σ)) (fileOf : String → F)
    (content : σ → F → Option ByteArray) : Prop where
  read : ∀ path state, content (host.read path state).2 = content state
  clock : ∀ state, content (host.clock state).2 = content state
  write_others : ∀ path text state file, file ≠ fileOf path →
    content (host.write path text state).2 file = content state file
  write_ok : ∀ path text state, (host.write path text state).1 = .ok () →
    content (host.write path text state).2 (fileOf path) = some text.toUTF8

namespace Directory

variable {directory after : Directory} {here place : List String} {names : List String}

/-- The place that names lead to from a folder, whatever there is on the way. -/
def follow (here : List String) : List String → List String
  | [] => here
  | name :: rest =>
    if name = "" ∨ name = "." then follow here rest
    else if name = ".." then follow (parent here) rest
    else follow (here ++ [name]) rest

/-- The place of a path. -/
def placeOf (path : String) : List String := follow [] (path.splitOn "/")

theorem walk_eq_ok (h : directory.walk here names = .ok place) : follow here names = place := by
  fun_induction walk directory here names with
  | case1 here =>
    cases h
    rfl
  | case2 here name rest skipped ih =>
    rw [follow, if_pos skipped]
    exact ih h
  | case3 here rest skipped ih =>
    rw [follow, if_neg skipped, if_pos rfl]
    exact ih h
  | case4 here name rest skipped up there last ih =>
    rw [follow, if_neg skipped, if_neg up]
    exact ih h
  | case5 | case6 => cases h

/-! ## Files -/

theorem lookup_filter_ne {other : List String} (ne : other ≠ place)
    (files : List (List String × ByteArray)) :
    (files.filter fun entry => entry.1 != place).lookup other = files.lookup other := by
  induction files with
  | nil => rfl
  | cons entry files ih =>
    obtain ⟨name, content⟩ := entry
    by_cases replaced : name = place
    · have skipped : (other == place) = false := beq_false_of_ne ne
      simp [replaced, List.lookup_cons, ih, skipped]
    · simp [replaced, List.lookup_cons, ih]

@[simp] theorem file?_put_self (content : ByteArray) :
    (directory.put place content).file? place = some content := List.lookup_cons_self

theorem file?_put_ne (content : ByteArray) {other : List String} (ne : other ≠ place) :
    (directory.put place content).file? other = directory.file? other := by
  have skipped : (other == place) = false := beq_false_of_ne ne
  rw [file?, put, List.lookup_cons, skipped]
  exact lookup_filter_ne ne directory.files

/-- A write puts the content where the path leads. -/
theorem write_eq_ok {path content : String} (h : directory.write path content = .ok after) :
    after = directory.put (placeOf path) content.toUTF8 := by
  unfold write at h
  by_cases none : path = ""
  · rw [if_pos none] at h
    cases h
  rw [if_neg none] at h
  obtain ⟨place, walked, h⟩ := bind_eq_ok.mp h
  dsimp only at h
  by_cases folder : (path.splitOn "/").getLast? = some "" ∨ directory.isFolder place = true
  · rw [if_pos folder] at h
    cases h
  rw [if_neg folder] at h
  cases h
  -- A path that ends in a slash has been refused, so that no name is missing at its end.
  have whole : ((path.splitOn "/").reverse.dropWhile (· == "")).reverse = path.splitOn "/" := by
    refine List.rdropWhile_eq_self_iff.mpr fun some empty => folder (.inl ?_)
    rw [List.getLast?_eq_some_getLast some, beq_iff_eq.mp empty]
  rw [whole] at walked
  rw [placeOf, walk_eq_ok walked]

theorem host_files : host.Files placeOf file? where
  read _ _ := rfl
  clock _ := rfl
  write_others path text directory place ne := by
    unfold host
    dsimp only
    cases written : directory.write path text with
    | error fault => rfl
    | ok after =>
      rw [write_eq_ok written]
      exact file?_put_ne _ ne
  write_ok path text directory ok := by
    unfold host at ok ⊢
    dsimp only at ok ⊢
    cases written : directory.write path text with
    | error fault =>
      rw [written] at ok
      cases ok
    | ok after =>
      rw [write_eq_ok written]
      exact file?_put_self _

end Directory

end PseudoLang.Command
