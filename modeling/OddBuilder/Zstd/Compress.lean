import OddBuilder.Zstd.Extract

/-!
# Collection of a folder

`compressFolder` walks a directory, gathers an entry for what it meets and writes
the entries behind a header. The order in which the system lists a directory is a
parameter. The archive is written outside the walked tree, so the tree stays as it
is. The walk is modelled with a bound on its depth; running into the bound is an
error of its own, which a large enough bound excludes.
-/

namespace JobZstd

open FileTree

structure JobPendingEntry where
  kind : JobZstdEntryKind
  /-- Components of the path inside the archive. -/
  relativePath : List Bytes
  /-- Where to read bytes from (files only). -/
  sourcePath : List Bytes
  /-- Text of a link (links only). -/
  symlinkTarget : Bytes
deriving DecidableEq

/-- The names in a directory, in the order in which it is listed. -/
abbrev Listing : Type := Location → List FileName

inductive CompressError where
  | cycle
  | openDirectory
  | archiveBrokenLink
  | dereferenceBrokenLink
  | notRegular
  | collision
  | openSource
  | depth
deriving DecidableEq

/-- Path of a name in a directory; a separator at the end of the directory is not doubled. -/
def childPath (dir : List Bytes) (name : Bytes) : List Bytes :=
  (if dir.getLast? = some [] then dir.dropLast else dir) ++ [name]

/-- What two paths have behind their common beginning. -/
def dropCommon : List Bytes → List Bytes → List Bytes × List Bytes
  | a :: p, b :: q => if a = b then dropCommon p q else (a :: p, b :: q)
  | p, q => (p, q)

/-- How many directories up the rest of a base is. -/
def ups : List Bytes → Int
  | [] => 0
  | c :: rest => (if c = dotdot then -1 else if c = [] ∨ c = dot then 0 else 1) + ups rest

def lexicallyRelative (path base : List Bytes) : List Bytes :=
  let (rest, baseRest) := dropCommon path base
  if ups baseRest < 0 then []
  else if ups baseRest = 0 ∧ (rest = [] ∨ rest.head? = some []) then [dot]
  else List.replicate (ups baseRest).toNat dotdot ++ rest

/-- `generic_string` of a relative path. -/
def genericString : List Bytes → Bytes
  | [] => []
  | [c] => c
  | c :: rest => c ++ slash :: genericString rest

structure JobZstdCompressor where
  /-- Working directory of the process. -/
  workingDir : Location
  input : Bytes
  preserveEmptyDirectories : Bool
  preserveSymlinks : Bool
  recursiveDirectories : Bool

/-- The names in the directory that a path leads to. -/
def directoryEntries (fs : FileSystem) (listing : Listing) (path : List Bytes) :
    Option (List FileName) :=
  match resolve fs true path with
  | .found loc => if fs.isDir loc then some (listing loc) else none
  | _ => none

namespace JobZstdCompressor

/-- Components of the input path, from the root. -/
def root (c : JobZstdCompressor) : List Bytes :=
  if c.input.head? = some slash then splitPath c.input
  else locationNames c.workingDir ++ splitPath c.input

/-- The entry of a directory that is no link, if it has one. -/
def directoryEntry (c : JobZstdCompressor) (fs : FileSystem) (listing : Listing)
    (path : List Bytes) : List JobPendingEntry :=
  if directoryEntries fs listing path = some [] then
    if c.preserveEmptyDirectories then
      [⟨.emptyDirectory, lexicallyRelative path c.root, [], []⟩]
    else []
  else [⟨.directory, lexicallyRelative path c.root, [], []⟩]

/-- What the loop does with a child that is no link, or with the file that a link leads to. -/
def visitTarget (c : JobZstdCompressor) (fs : FileSystem) (listing : Listing)
    (recurse : List Bytes → List JobPendingEntry → Except CompressError (List JobPendingEntry))
    (path : List Bytes) (entries : List JobPendingEntry) :
    Except CompressError (List JobPendingEntry) :=
  match stat fs path with
  | some .dir => recurse path (entries ++ c.directoryEntry fs listing path)
  | some (.file _) => .ok (entries ++ [⟨.file, lexicallyRelative path c.root, path, []⟩])
  | _ => .error .notRegular

/-- One turn of the loop over a directory. -/
def visitChild (c : JobZstdCompressor) (fs : FileSystem) (listing : Listing)
    (recurse : List Bytes → List JobPendingEntry → Except CompressError (List JobPendingEntry))
    (path : List Bytes) (entries : List JobPendingEntry) :
    Except CompressError (List JobPendingEntry) :=
  match lstat fs path with
  | some (.link text) =>
    if c.preserveSymlinks then
      if !pathExists fs path then .error .archiveBrokenLink
      else .ok (entries ++ [⟨.symlink, lexicallyRelative path c.root, [], text⟩])
    else if !pathExists fs path then .error .dereferenceBrokenLink
    else
      match stat fs path with
      -- no entry for the directory itself
      | some .dir => recurse path entries
      | _ => c.visitTarget fs listing recurse path entries
  | _ => c.visitTarget fs listing recurse path entries

def visitChildren (c : JobZstdCompressor) (fs : FileSystem) (listing : Listing)
    (recurse : List Bytes → List JobPendingEntry → Except CompressError (List JobPendingEntry))
    (currentDir : List Bytes) :
    List FileName → List JobPendingEntry → Except CompressError (List JobPendingEntry)
  | [], entries => .ok entries
  | n :: names, entries =>
    match c.visitChild fs listing recurse (childPath currentDir n.1) entries with
    | .error e => .error e
    | .ok entries => visitChildren c fs listing recurse currentDir names entries

/-- `collectEntriesRecursive`, to a depth. -/
def collectEntriesRecursive (c : JobZstdCompressor) (fs : FileSystem) (listing : Listing) :
    Nat → List NormalPath → List Bytes → List JobPendingEntry →
      Except CompressError (List JobPendingEntry)
  | 0, _, _, _ => .error .depth
  | depth + 1, activeDirs, currentDir, entries =>
    let canonicalCurrent := weaklyCanonical fs currentDir
    if canonicalCurrent ∈ activeDirs then .error .cycle
    else
      match directoryEntries fs listing currentDir with
      | none => .error .openDirectory
      | some names =>
        c.visitChildren fs listing
          (c.collectEntriesRecursive fs listing depth (activeDirs ++ [canonicalCurrent]))
          currentDir names entries

def collectEntries (c : JobZstdCompressor) (fs : FileSystem) (listing : Listing) (depth : Nat) :
    Except CompressError (List JobPendingEntry) :=
  c.collectEntriesRecursive fs listing depth [] c.root []

end JobZstdCompressor

/-- Whether two neighbours have the same path. -/
def hasCollision : List JobPendingEntry → Bool
  | a :: b :: rest => a.relativePath = b.relativePath || hasCollision (b :: rest)
  | _ => false

def flattenEntries (entries : List JobPendingEntry) :
    Except CompressError (List JobPendingEntry) :=
  let flat := (entries.filter fun e => e.kind = .file ∨ e.kind = .symlink).map fun e =>
    { e with relativePath := e.relativePath.getLast?.toList }
  let flat := flat.mergeSort fun a b => a.relativePath ≤ b.relativePath
  if hasCollision flat then .error .collision else .ok flat

/-- Header and payload of an entry. -/
def encodeEntry (fs : FileSystem) (e : JobPendingEntry) : Except CompressError Bytes :=
  let header := writeString (writeString [] (entryMagicString e.kind)) (genericString e.relativePath)
  match e.kind with
  | .directory => .ok header
  | .emptyDirectory => .ok header
  | .symlink => .ok (writeString header e.symlinkTarget)
  | .file =>
    match stat fs e.sourcePath with
    | some (.file content) => .ok (header ++ LittleEndian.encode 8 content.length ++ content)
    | _ => .error .openSource

def encodeEntries (fs : FileSystem) : List JobPendingEntry → Except CompressError Bytes
  | [] => .ok []
  | e :: entries =>
    match encodeEntry fs e with
    | .error error => .error error
    | .ok bytes =>
      match encodeEntries fs entries with
      | .error error => .error error
      | .ok rest => .ok (bytes ++ rest)

/-- The bytes that go into the compressed stream. -/
def JobZstdCompressor.compressFolder (c : JobZstdCompressor) (fs : FileSystem) (listing : Listing)
    (depth : Nat) : Except CompressError Bytes :=
  match c.collectEntries fs listing depth with
  | .error e => .error e
  | .ok entries =>
    match if c.recursiveDirectories then .ok entries else flattenEntries entries with
    | .error e => .error e
    | .ok entries =>
      match encodeEntries fs entries with
      | .error e => .error e
      | .ok bytes =>
        .ok (writeString [] magicDirString ++ LittleEndian.encode 8 entries.length ++ bytes)

end JobZstd
