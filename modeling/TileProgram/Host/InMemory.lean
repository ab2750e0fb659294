import TileProgram.Host.Basic
import TileProgram.Text.Split

/-!
# A host in memory

A tree of files and folders with a folder to work in, environment variables,
and all that has been printed.  A path is followed name by name, and a path
that cannot be followed fails with the text of the system error that a disk
would give.
-/

namespace TileProgram

/-- A file that holds no contents; it reads as empty. -/
inductive Device where
  | null
  | output
  | errors
  | full
  deriving DecidableEq, Repr

inductive StoredEntry where
  | text (contents : String)
  | folder
  | device (device : Device)
  deriving DecidableEq, Repr

structure Storage where
  /-- Entries by their place, the names from the root of the tree. -/
  entries : List (List String × StoredEntry)
  folder : List String
  environment : List (String × String)
  printed : String
  reported : String
  deriving Repr

namespace Storage

def names (path : String) : List String :=
  ((Text.split '/' path.toList).map String.ofList).filter (· != "")

def systemFolders : List (List String) :=
  [["bin"], ["etc"], ["home"], ["lib"], ["opt"], ["proc"], ["root"], ["sbin"],
    ["sys"], ["tmp"], ["usr", "bin"], ["usr", "lib"], ["usr", "local"],
    ["usr", "share"], ["var"]]

/-- Files that every system has; none of them is for programs like this one. -/
def systemFiles : List (List String) :=
  [["etc", "group"], ["etc", "hostname"], ["etc", "hosts"], ["etc", "passwd"]]

def systemDevices : List (String × Device) :=
  [("null", .null), ("zero", .null), ("full", .full), ("stdin", .null),
    ("stdout", .output), ("stderr", .errors)]

def empty : Storage where
  entries :=
    systemDevices.map (fun (name, device) => (["dev", name], .device device)) ++
    systemFiles.map (fun place => (place, .text "")) ++
    systemFolders.map (fun place => (place, .folder))
  folder := ["tmp", "work"]
  environment := []
  printed := ""
  reported := ""

/-- Put an entry at a place; the places above it become folders. -/
def putAt (s : Storage) (place : List String) (entry : StoredEntry) : Storage :=
  { s with entries := (place, entry) :: s.entries.filter (·.1 != place) }

def put (s : Storage) (path : String) (entry : StoredEntry) : Storage :=
  s.putAt (s.folder ++ (names path).filter (· != ".")) entry

def entry? (s : Storage) (place : List String) : Option StoredEntry :=
  match s.entries.lookup place with
  | some entry => some entry
  | none =>
      if place.isPrefixOf s.folder || s.entries.any fun (p, _) =>
        place.isPrefixOf p then
        some .folder
      else none

def missing : String := "No such file or directory (os error 2)"
def notFolder : String := "Not a directory (os error 20)"
def isFolder : String := "Is a directory (os error 21)"
def noSpace : String := "No space left on device (os error 28)"
def nameTooLong : String := "File name too long (os error 36)"

def nameLimit : Nat := 255
def pathLimit : Nat := 4095

def follow (s : Storage) (place : List String) (name : String) :
    Except String (List String) :=
  match s.entry? place with
  | some .folder =>
      if name = "." then .ok place
      else if name = ".." then .ok place.dropLast
      else if nameLimit < name.utf8ByteSize then .error nameTooLong
      else .ok (place ++ [name])
  | some _ => .error notFolder
  | none => .error missing

def locate (s : Storage) (path : String) : Except String (List String) :=
  if path = "" then .error missing
  else if pathLimit < path.utf8ByteSize then .error nameTooLong
  else (names path).foldlM s.follow
    (if path.toList.head? == some '/' then [] else s.folder)

def asksFolder (path : String) : Bool := path.toList.getLast? == some '/'

def read (s : Storage) (path : String) : Except String String := do
  let place ← s.locate path
  match s.entry? place with
  | some .folder => .error isFolder
  | some entry =>
      if asksFolder path then .error notFolder
      else
        return match entry with
          | .text contents => contents
          | _ => ""
  | none => .error missing

def send (s : Storage) (text : String) : Device → Except String Storage
  | .null => .ok s
  | .output => .ok { s with printed := s.printed ++ text }
  | .errors => .ok { s with reported := s.reported ++ text }
  | .full => .error noSpace

def write (s : Storage) (path text : String) : Except String Storage := do
  let place ← s.locate path
  if asksFolder path then .error isFolder
  match s.entry? place with
  | some .folder => .error isFolder
  | some (.device device) => s.send text device
  | _ => return s.putAt place (.text text)

def isPresent (s : Storage) (path : String) : Bool :=
  match s.locate path with
  | .error _ => false
  | .ok place =>
      match s.entry? place with
      | some .folder => true
      | some _ => !asksFolder path
      | none => false

def host : Host (StateM Storage) where
  readText path := return (← get).read path
  writeText path text := do
    match (← get).write path text with
    | .ok s => set s; return .ok ()
    | .error reason => return .error reason
  isPresent path := return (← get).isPresent path
  environment name := return (← get).environment.lookup name
  programFolders := return []
  print text := modify fun s => { s with printed := s.printed ++ text }
  report line :=
    modify fun s => { s with reported := s.reported ++ line ++ "\n" }

end Storage

end TileProgram
