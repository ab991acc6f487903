import LittleMan.Assembly.Draft
import LittleMan.Directory
import LittleMan.Memory.Image
import LittleMan.Text.Utf8

/-! Memories from the contents of files: stored images and programs. -/

namespace LittleMan

/-- Why a file gives no memory or takes none. -/
inductive StorageError
  | imageUnreadable (path : String) (cause : FileError)
  | imageInvalid (path : String) (cause : ImageError)
  | programUnreadable (path : String) (cause : FileError)
  | programInvalid (path : String) (cause : Assembly.Error)
  | imageUnwritable (path : String) (cause : FileError)
  deriving DecidableEq, Repr

/-- The messages of an error, the outermost first. -/
def StorageError.chain : StorageError → List String
  | .imageUnreadable path cause => [s!"failed to read image `{path}`", cause.message]
  | .imageInvalid path cause => [s!"`{path}` is not a valid image", cause.message]
  | .programUnreadable path cause => [s!"failed to read source `{path}`", cause.message]
  | .programInvalid path cause => [s!"failed to assemble `{path}`", cause.message]
  | .imageUnwritable path cause => [s!"failed to write image `{path}`", cause.message]

namespace Storage

abbrev Loading := Logged Log.Entry StorageError

/-- What reading a file gave. -/
abbrev Contents := Except FileError (List UInt8)

/-- Whether there is nothing to read at a path. -/
def isAbsent : Contents → Bool
  | .ok _ => false
  | .error error => error.isAbsence

/-- The text of a file. -/
def textOf (contents : Contents) : Except FileError String :=
  match contents with
  | .error error => .error error
  | .ok bytes =>
    match decodeUtf8? bytes with
    | some text => .ok text
    | none => .error .notText

/-- The memory of an image file. -/
def imageOf (path : String) (contents : Contents) : Loading Memory :=
  match contents with
  | .error error => .fail (.imageUnreadable path error)
  | .ok bytes =>
    match Memory.ofBytes bytes with
    | .error error => .fail (.imageInvalid path error)
    | .ok memory => do
      .tell ⟨.debug, .storage, s!"Loaded image `{path}`"⟩
      pure memory

/-- The memory of a program file, which may wrap past the last cell. -/
def programOf (path : String) (contents : Contents) : Loading Memory :=
  match textOf contents with
  | .error error => .fail (.programUnreadable path error)
  | .ok source => do
    let memory ← (assemble .wrapping source).rephrase Assembly.Event.entry (.programInvalid path)
    .tell ⟨.debug, .storage, s!"Assembled `{path}`"⟩
    pure memory

/-- What writing an image to a file comes to. -/
def saved {α : Type} (path : String) (result : Except FileError α) : Except StorageError α :=
  result.mapError (.imageUnwritable path)

/-- Stores the image of a memory in a file of a directory. -/
def save (directory : Directory) (path : String) (memory : Memory) :
    Except StorageError Directory :=
  saved path (directory.write path memory.toBytes)

end Storage

end LittleMan
