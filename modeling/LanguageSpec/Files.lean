/-!
# Files

What a run needs of a file system, as a record of operations, and a file system in memory. The
words for a fault are those of the operating system.
-/

namespace LanguageSpec

inductive FileFault where
  | missing
  | notADirectory
  | isADirectory
  | nameTooLong
  | nullInName
  | notText
  | other (text : String)
deriving DecidableEq, Repr

def FileFault.message : FileFault → String
  | .missing => "No such file or directory (os error 2)"
  | .notADirectory => "Not a directory (os error 20)"
  | .isADirectory => "Is a directory (os error 21)"
  | .nameTooLong => "File name too long (os error 36)"
  | .nullInName => "file name contained an unexpected NUL byte"
  | .notText => "stream did not contain valid UTF-8"
  | .other text => text

/-- Reading and writing whole files by path. -/
structure Files (m : Type → Type) where
  read : String → m (Except FileFault ByteArray)
  write : String → String → m (Except FileFault Unit)

def Files.readText {m : Type → Type} [Monad m] (fs : Files m) (path : String) :
    m (Except FileFault String) := do
  match ← fs.read path with
  | .error e => return .error e
  | .ok bytes =>
    match String.fromUTF8? bytes with
    | some text => return .ok text
    | none => return .error .notText

/-- The path of a name in a directory. A name that starts with a slash stands for itself. -/
def joinPath (directory name : String) : String :=
  if name.startsWith "/" then name
  else if directory.isEmpty || directory.endsWith "/" then directory ++ name
  else directory ++ "/" ++ name

/-! ## Files in memory -/

/-- Directories and files by the names on the way to them. The empty way is the root, which is also
where relative paths start. -/
structure FileTree where
  directories : List (List String)
  files : List (List String × ByteArray)

namespace FileTree

/-- The bytes of the longest name. -/
def longestName : Nat := 255

/-- The bytes of the longest path. A longer one is refused before any name on it is looked at. -/
def longestPath : Nat := 4095

def isDirectory (t : FileTree) (way : List String) : Bool :=
  way.isEmpty || t.directories.contains way

def file? (t : FileTree) (way : List String) : Option ByteArray :=
  (t.files.find? fun f => f.1 == way).map Prod.snd

/-- Goes one name further from a directory. -/
def enter (t : FileTree) (way : List String) (name : String) : Except FileFault (List String) :=
  if name = "." then .ok way
  else if name = ".." then .ok way.dropLast
  else if name.utf8ByteSize > longestName then .error .nameTooLong
  else if t.isDirectory (way ++ [name]) then .ok (way ++ [name])
  else if (t.file? (way ++ [name])).isSome then .error .notADirectory
  else .error .missing

/-- The names on a path. A slash at its end asks for a directory. -/
def namesOf (path : String) : List String :=
  let parts := path.splitOn "/"
  parts.filter (· ≠ "") ++ if parts.getLast? = some "" then ["."] else []

/-- The way that a path leads to, of which only the last name may be missing. -/
def resolve (t : FileTree) (path : String) : Except FileFault (List String) := do
  if path.contains '\x00' then throw .nullInName
  if path.utf8ByteSize > longestPath then throw .nameTooLong
  match (namesOf path).reverse with
  | [] => throw .missing
  | last :: before =>
    let way ← before.reverse.foldlM t.enter []
    if last = "." || last = ".." then t.enter way last
    else if last.utf8ByteSize > longestName then throw .nameTooLong
    else return way ++ [last]

def read (t : FileTree) (path : String) : Except FileFault ByteArray := do
  if path.isEmpty then throw .missing
  let way ← t.resolve path
  if t.isDirectory way then throw .isADirectory
  match t.file? way with
  | some bytes => return bytes
  | none => throw .missing

def write (t : FileTree) (path text : String) : Except FileFault FileTree := do
  if path.isEmpty then throw .missing
  let way ← t.resolve path
  if t.isDirectory way then throw .isADirectory
  return { t with files := t.files.filter (fun f => f.1 != way) ++ [(way, text.toUTF8)] }

def filesIn (t : FileTree) (directory : List String) : List (String × ByteArray) :=
  t.files.filterMap fun f =>
    if f.1.dropLast = directory then f.1.getLast?.map fun name => (name, f.2) else none

def inMemory : Files (StateM FileTree) where
  read path := return (← get).read path
  write path text := do
    match (← get).write path text with
    | .ok t => set t; return .ok ()
    | .error e => return .error e

end FileTree

end LanguageSpec
