/-! A directory of files, reached by paths that start from it. -/

namespace LittleMan

/-- Why a file cannot be read or written. -/
inductive FileError
  | notFound
  | isDirectory
  | notDirectory
  | nameTooLong
  /-- The null character, which no name can hold, occurs in the path. -/
  | nullCharacter
  | notText
  | other (reason : String)
  deriving DecidableEq, Repr

namespace FileError

def message : FileError → String
  | .notFound => "No such file or directory (os error 2)"
  | .isDirectory => "Is a directory (os error 21)"
  | .notDirectory => "Not a directory (os error 20)"
  | .nameTooLong => "File name too long (os error 36)"
  | .nullCharacter => "file name contained an unexpected NUL byte"
  | .notText => "stream did not contain valid UTF-8"
  | .other reason => reason

/-- Whether the error says that nothing lies at a path, rather than something unreadable. -/
def isAbsence : FileError → Bool
  | .notFound | .notDirectory | .nameTooLong | .nullCharacter => true
  | .isDirectory | .notText | .other _ => false

end FileError

namespace Path

/-- The greatest number of bytes in a path. -/
def maxLength : Nat := 4095

/-- The greatest number of bytes in a name. -/
def maxNameLength : Nat := 255

def isAbsolute (path : String) : Bool := path.toList.head? == some '/'

def endsInSlash (path : String) : Bool := path.toList.getLast? == some '/'

/-- The names between the slashes of a path. Slashes in a row count as one. -/
def names (path : String) : List String :=
  ((path.toList.splitOnP (· == '/')).filter fun name => !name.isEmpty).map String.ofList

/-- What follows the last dot of the last name of a path, unless the name has no other dot or
character before it. A name that is a single dot does not count. -/
def extension? (path : String) : Option String :=
  match ((names path).filter (· != ".")).getLast? with
  | none | some ".." => none
  | some name =>
    let reversed := name.toList.reverse
    if (reversed.dropWhile (· != '.')).tail.isEmpty then none
    else some (String.ofList (reversed.takeWhile (· != '.')).reverse)

end Path

/-- The names that lead from a directory to a file or folder. A way out of the directory begins
with a double dot for each folder it goes up, or with a slash. -/
abbrev Location := List String

/-- The folder around a location. The folder of all folders has none but itself. -/
def Location.parent (location : Location) : Location :=
  match location.getLast? with
  | none | some ".." => location ++ [".."]
  | some "/" => location
  | some _ => location.dropLast

/-- The files of a directory, each at its location. A folder is there as long as some file lies below
it, so that a folder without files cannot be told from none. -/
structure Directory where
  files : List (Location × List UInt8)
  deriving DecidableEq

/-- What lies at a location. -/
inductive Entry
  | file (bytes : List UInt8)
  | folder
  deriving DecidableEq

/-- What a path leads to once the folders along it are entered. -/
inductive Destination
  /-- A folder named by its dots or by slashes alone. -/
  | folder
  /-- What a folder holds under a name. A slash after the name says that it means a folder. -/
  | entry (folder : Location) (name : String) (slash : Bool)
  deriving DecidableEq

namespace Directory

/-- The file at a location. -/
def file? (directory : Directory) (location : Location) : Option (List UInt8) :=
  directory.files.lookup location

/-- The directory with the file at a location replaced or added. -/
def put (directory : Directory) (location : Location) (bytes : List UInt8) : Directory :=
  ⟨(location, bytes) :: directory.files.filter fun (file, _) => file != location⟩

@[simp]
theorem file?_put_self (directory : Directory) (location : Location) (bytes : List UInt8) :
    (directory.put location bytes).file? location = some bytes := by
  simp [file?, put]

theorem file?_put_of_ne (directory : Directory) {location other : Location} (bytes : List UInt8)
    (h : other ≠ location) :
    (directory.put location bytes).file? other = directory.file? other := by
  have h' : (other == location) = false := by simpa using h
  simp only [file?, put, List.lookup_cons, h']
  induction directory.files with
  | nil => rfl
  | cons entry files ih =>
    obtain ⟨file, _⟩ := entry
    by_cases hf : file = location
    · subst hf
      simp [List.lookup_cons, h', ih]
    · have hf' : (file != location) = true := by simpa using hf
      simp [hf', List.lookup_cons, ih]

/-- Whether a location is a folder: a folder around the directory, the directory itself, or one
that some file lies below. -/
def isFolder (directory : Directory) (location : Location) : Bool :=
  location == ["/"] || location.all (· == "..") ||
    directory.files.any fun (file, _) =>
      location.isPrefixOf file && location.length < file.length

/-- What a folder holds under a name. -/
def find (directory : Directory) (folder : Location) (name : String) : Except FileError Entry :=
  if name.utf8ByteSize > Path.maxNameLength then .error .nameTooLong
  else match directory.file? (folder ++ [name]) with
  | some bytes => .ok (.file bytes)
  | none =>
    if directory.isFolder (folder ++ [name]) then .ok .folder else .error .notFound

/-- The folder that a name leads to from a folder. -/
def enter (directory : Directory) (folder : Location) (name : String) :
    Except FileError Location :=
  if name = "." then .ok folder
  else if name = ".." then .ok folder.parent
  else match directory.find folder name with
  | .ok (.file _) => .error .notDirectory
  | .ok .folder => .ok (folder ++ [name])
  | .error error => .error error

/-- Follows a path up to its last name. -/
def follow (directory : Directory) (path : String) : Except FileError Destination :=
  if path.toList.contains (Char.ofNat 0) then .error .nullCharacter
  else if path.isEmpty then .error .notFound
  else if path.utf8ByteSize > Path.maxLength then .error .nameTooLong
  else match (Path.names path).getLast? with
  | none => .ok .folder
  | some name =>
    let start := if Path.isAbsolute path then ["/"] else []
    match (Path.names path).dropLast.foldlM directory.enter start with
    | .error error => .error error
    | .ok folder =>
      if name = "." ∨ name = ".." then .ok .folder
      else .ok (.entry folder name (Path.endsInSlash path))

def read (directory : Directory) (path : String) : Except FileError (List UInt8) :=
  match directory.follow path with
  | .error error => .error error
  | .ok .folder => .error .isDirectory
  | .ok (.entry folder name slash) =>
    match directory.find folder name with
    | .ok (.file bytes) => if slash then .error .notDirectory else .ok bytes
    | .ok .folder => .error .isDirectory
    | .error error => .error error

/-- Replaces or adds a file, as a whole or not at all: a disk that fills up once the old contents are
gone is left out. A path that can only mean a folder is refused whatever lies there. -/
def write (directory : Directory) (path : String) (bytes : List UInt8) :
    Except FileError Directory :=
  match directory.follow path with
  | .error error => .error error
  | .ok .folder | .ok (.entry _ _ true) => .error .isDirectory
  | .ok (.entry folder name false) =>
    match directory.find folder name with
    | .ok (.file _) | .error .notFound => .ok (directory.put (folder ++ [name]) bytes)
    | .ok .folder => .error .isDirectory
    | .error error => .error error

end Directory

end LittleMan
