/-!
# Files

The part of a file system that the command line touches: a working directory
and the one above it, both holding files and nothing else, and the five things
done to them. The directory above is its own parent and the start of every
path that begins with a slash. A path that goes through something that is not
there, or through a file, leads nowhere. Writing a file creates it or replaces
its content, unless it is there and read-only. Removing and renaming are up to
the directory, and read-only files are no exception to them. Renaming replaces
the target, or fails and leaves both names as they were.
-/

namespace PackedRecord.Command

/-- Why the system refuses. -/
inductive FileFault where
  | notFound
  | permissionDenied
  | notADirectory
  | isADirectory
  | busy
  | nameTooLong
deriving DecidableEq

def FileFault.message : FileFault → String
  | .notFound => "No such file or directory (os error 2)"
  | .permissionDenied => "Permission denied (os error 13)"
  | .busy => "Device or resource busy (os error 16)"
  | .notADirectory => "Not a directory (os error 20)"
  | .isADirectory => "Is a directory (os error 21)"
  | .nameTooLong => "File name too long (os error 36)"

/-- One of the two directories. -/
inductive Level where
  | here
  | above
deriving DecidableEq

/-- Where a file is kept. -/
structure Location where
  level : Level
  name : String
deriving DecidableEq

structure File where
  content : List UInt8
  isReadOnly : Bool
deriving DecidableEq

/-- Locations and what is kept there. -/
structure Files where
  entries : List (Location × File)
deriving DecidableEq

namespace Files

/-- A working directory with these files, under an empty one. -/
def ofList (files : List (String × List UInt8)) : Files :=
  ⟨files.map fun (name, content) => (⟨.here, name⟩, ⟨content, false⟩)⟩

/-- The files of the working directory. -/
def toList (fs : Files) : List (String × List UInt8) :=
  (fs.entries.filter fun entry => entry.1.level = .here).map fun entry =>
    (entry.1.name, entry.2.content)

def file? (fs : Files) (location : Location) : Option File := fs.entries.lookup location

/-- The content of a file. -/
def find? (fs : Files) (location : Location) : Option (List UInt8) :=
  (fs.file? location).map File.content

def remove (fs : Files) (location : Location) : Files :=
  ⟨fs.entries.filter fun entry => entry.1 ≠ location⟩

def put (fs : Files) (location : Location) (file : File) : Files :=
  ⟨(location, file) :: (fs.remove location).entries⟩

/-! ## Paths -/

/-- The parts of a path between the slashes. -/
def parts : List Char → List (List Char)
  | [] => [[]]
  | c :: rest =>
    if c = '/' then [] :: parts rest
    else match parts rest with
      | part :: others => (c :: part) :: others
      | [] => [[c]]

/-- Where a path leads. -/
inductive Place where
  | file (location : Location)
  | directory
  | nowhere (fault : FileFault)
deriving DecidableEq

/-- The longest name, in bytes. -/
def longestName : Nat := 255

/-- The longest path, in bytes. -/
def longestPath : Nat := 4095

/-- Where the rest of a path leads from one of the directories. -/
def placeFrom (fs : Files) (level : Level) : List (List Char) → Place
  | [] => .directory
  | part :: rest =>
    if part = [] || part = ['.'] then placeFrom fs level rest
    else if part = ['.', '.'] then placeFrom fs .above rest
    else
      let location : Location := ⟨level, String.ofList part⟩
      if longestName < location.name.utf8ByteSize then .nowhere .nameTooLong
      else if rest.isEmpty then .file location
      else if (fs.file? location).isSome then .nowhere .notADirectory
      else .nowhere .notFound

/-- The length of a path is looked at before anything else. -/
def resolve (fs : Files) (path : String) : Place :=
  if longestPath < path.utf8ByteSize then .nowhere .nameTooLong
  else match path.toList with
    | [] => .nowhere .notFound
    | '/' :: rest => fs.placeFrom .above (parts rest)
    | chars => fs.placeFrom .here (parts chars)

/-! ## Operations -/

def read (fs : Files) (path : String) : Except FileFault (List UInt8) :=
  match fs.resolve path with
  | .file location =>
    match fs.find? location with
    | some content => .ok content
    | none => .error .notFound
  | .directory => .error .isADirectory
  | .nowhere fault => .error fault

def write (fs : Files) (path : String) (content : List UInt8) : Except FileFault Files :=
  match fs.resolve path with
  | .file location =>
    if ((fs.file? location).map File.isReadOnly).getD false then .error .permissionDenied
    else .ok (fs.put location ⟨content, false⟩)
  | .directory => .error .isADirectory
  | .nowhere fault => .error fault

/-- Removes a file if there is one. -/
def discard (fs : Files) (path : String) : Files :=
  match fs.resolve path with
  | .file location => fs.remove location
  | _ => fs

def rename (fs : Files) (source target : String) : Except FileFault Files :=
  match fs.resolve source with
  | .file location =>
    match fs.file? location, fs.resolve target with
    | none, _ => .error .notFound
    | some file, .file location' => .ok ((fs.remove location).put location' file)
    | some _, .directory => .error .busy
    | some _, .nowhere fault => .error fault
  | .directory => .error .busy
  | .nowhere fault => .error fault

end Files
end PackedRecord.Command
