import MusicMacro.Text.Separated
import MusicMacro.WaveFile.Chunk

/-!
# Folders

A folder holds files and no other folders. A path that starts from it names a folder, which is this
one or one of those around it, or a file in one of them. Nothing else is known of the folders
around it, so that a file there exists only if it has been written.

* `Folder.lookup_put`, `Folder.read_of_write` — a file that has been written is there, and is read
  back.
-/

namespace MusicMacro

/-- Why a file cannot be read or written. -/
inductive FileError
  | notFound
  | isDirectory
  /-- A file stands in the path where a folder is needed. -/
  | notDirectory
  /-- The path or a name in it is too long. -/
  | nameTooLong
  /-- The path holds a character that no path can hold. -/
  | badName
  /-- The file is no wave file. -/
  | contents (e : WaveFileError)
  /-- Another reason, in the words of the system. -/
  | system (reason : String)
deriving DecidableEq, Repr

/-- The words of an error. -/
def FileError.text : FileError → String
  | notFound => "No such file or directory (os error 2)"
  | isDirectory => "Is a directory (os error 21)"
  | notDirectory => "Not a directory (os error 20)"
  | nameTooLong => "File name too long (os error 36)"
  | badName => "file name contained an unexpected NUL byte"
  | contents e => e.text
  | system reason => reason

/-! ## Paths -/

/-- A folder that a path can reach. -/
inductive Site
  /-- The folder that is so many levels above the one where the path starts. -/
  | above (levels : Nat)
  /-- The folder that holds all others. -/
  | root
deriving DecidableEq, Repr

namespace Site

/-- The folder around a folder. The root is the folder around itself. -/
def parent : Site → Site
  | above levels => above (levels + 1)
  | root => root

/-- The shortest path of a file with a name. -/
def pathOf (s : Site) (name : String) : String :=
  match s with
  | above levels => String.join (List.replicate levels "../") ++ name
  | root => "/" ++ name

end Site

/-- What a path names. -/
inductive Place
  | folder
  /-- A file, which may or may not exist; a slash may follow its name. -/
  | file (site : Site) (name : String) (slash : Bool)
deriving DecidableEq, Repr

/-- The files that are known, by the shortest path from a folder. -/
structure Folder where
  files : List (String × Bytes)

namespace Folder

/-- The most bytes in a name. -/
def longestName : Nat := 255

/-- The most bytes in a path. -/
def longestPath : Nat := 4095

/-- Whether a name has more bytes than any name can have. -/
def isLong (name : String) : Bool := longestName < name.utf8ByteSize

/-- A part of a path that leads nowhere else. -/
def isIdle (part : List Char) : Bool := part = [] ∨ part = ['.']

/-- A part of a path that leads to the folder around. -/
def isParent (part : List Char) : Bool := part = ['.', '.']

/-- The contents of a file, by its shortest path. -/
def lookup? (f : Folder) (path : String) : Option Bytes := f.files.lookup path

/-- The files of the folder itself, by name. -/
def ownFiles (f : Folder) : List (String × Bytes) :=
  f.files.filter fun (path, _) => !path.toList.contains '/'

/-- What the parts of a path name from a folder on. Nothing but slashes may follow the name of a
file. -/
def locateFrom (f : Folder) (site : Site) : List (List Char) → Except FileError Place
  | [] => .ok .folder
  | part :: rest =>
    if isIdle part then f.locateFrom site rest
    else if isParent part then f.locateFrom site.parent rest
    else
      let name := String.ofList part
      if rest.all List.isEmpty then .ok (.file site name !rest.isEmpty)
      else if isLong name then .error .nameTooLong
      else if (f.lookup? (site.pathOf name)).isSome then .error .notDirectory
      else .error .notFound

/-- What a path names. -/
def locate (f : Folder) (path : String) : Except FileError Place :=
  let cs := path.toList
  if cs.contains '\x00' then .error .badName
  else if cs.isEmpty then .error .notFound
  else if longestPath < path.utf8ByteSize then .error .nameTooLong
  else f.locateFrom (if cs.head? = some '/' then .root else .above 0) (separated '/' cs)

/-! ## Files -/

/-- The contents of the file at a path. A slash behind the name asks for a folder. -/
def read (f : Folder) (path : String) : Except FileError Bytes := do
  match ← f.locate path with
  | .folder => throw .isDirectory
  | .file site name slash =>
    if isLong name then throw .nameTooLong
    match f.lookup? (site.pathOf name) with
    | none => throw .notFound
    | some contents => if slash then throw .notDirectory else return contents

/-- The folder with a file of the given contents, old or new. -/
def put (f : Folder) (path : String) (contents : Bytes) : Folder :=
  ⟨(path, contents) :: f.files.filter (·.1 != path)⟩

/-- Writes a file at a path. With a slash behind its name no file is made, whatever the name. -/
def write (f : Folder) (path : String) (contents : Bytes) : Except FileError Folder := do
  match ← f.locate path with
  | .folder => throw .isDirectory
  | .file site name slash =>
    if slash then throw .isDirectory
    else if isLong name then throw .nameTooLong
    else return f.put (site.pathOf name) contents

theorem lookup_put (f : Folder) (path : String) (contents : Bytes) :
    (f.put path contents).lookup? path = some contents := by
  simp [put, lookup?]

/-- Which file a path names does not depend on the files that there are. -/
theorem locateFrom_file {f : Folder} {site site' : Site} {parts : List (List Char)} {name : String}
    {slash : Bool} (h : f.locateFrom site parts = .ok (.file site' name slash)) (f' : Folder) :
    f'.locateFrom site parts = .ok (.file site' name slash) := by
  induction parts generalizing site with
  | nil => cases h
  | cons part rest ih =>
    rw [locateFrom] at h ⊢
    split at h
    · next hidle =>
      rw [if_pos hidle]
      exact ih h
    · next hidle =>
      rw [if_neg hidle]
      split at h
      · next hparent =>
        rw [if_pos hparent]
        exact ih h
      · next hparent =>
        rw [if_neg hparent]
        dsimp only at h ⊢
        split at h
        · next hlast =>
          rw [if_pos hlast]
          exact h
        · split at h
          · cases h
          · split at h <;> cases h

theorem locate_file {f : Folder} {path : String} {site : Site} {name : String} {slash : Bool}
    (h : f.locate path = .ok (.file site name slash)) (f' : Folder) :
    f'.locate path = .ok (.file site name slash) := by
  simp only [locate] at h ⊢
  split at h
  · cases h
  · next hname =>
    rw [if_neg hname]
    split at h
    · cases h
    · next hempty =>
      rw [if_neg hempty]
      split at h
      · cases h
      · next hlong =>
        rw [if_neg hlong]
        exact locateFrom_file h f'

/-- A file that has been written is read back. -/
theorem read_of_write {f f' : Folder} {path : String} {contents : Bytes}
    (h : f.write path contents = .ok f') : f'.read path = .ok contents := by
  rw [write] at h
  cases hl : f.locate path with
  | error e =>
    rw [hl] at h
    cases h
  | ok place =>
    rw [hl] at h
    cases place with
    | folder => cases h
    | file site name slash =>
      dsimp only [bind, Except.bind] at h
      split at h
      · cases h
      · next hslash =>
        split at h
        · cases h
        · next hlong =>
          cases h
          rw [read, locate_file hl]
          dsimp only [bind, Except.bind]
          rw [if_neg hlong, lookup_put]
          dsimp only [pure, Except.pure]
          rw [if_neg hslash]

end Folder

end MusicMacro
