import OddBuilder.Library.FileTree
import OddBuilder.Zstd.Transport

/-!
# The file system as the extractor sees it

Paths are byte strings. `std::filesystem` works on their components; the
operating system sees what stands before the first zero byte, follows links and
knows only names that are neither empty nor dots. Errors of a real system that
have no cause in the tree (permissions, lengths of names, full disks) are left
out: such a call fails and changes nothing.
-/

namespace JobZstd

open FileTree

def slash : UInt8 := 47

def dot : Bytes := [46]

def dotdot : Bytes := [46, 46]

/-- Names that a directory entry can have. -/
def ValidName (b : Bytes) : Prop := b ≠ [] ∧ b ≠ dot ∧ b ≠ dotdot ∧ 0 ∉ b ∧ slash ∉ b

instance (b : Bytes) : Decidable (ValidName b) :=
  inferInstanceAs (Decidable (b ≠ [] ∧ b ≠ dot ∧ b ≠ dotdot ∧ 0 ∉ b ∧ slash ∉ b))

abbrev FileName : Type := {b : Bytes // ValidName b}

abbrev Location : Type := List FileName

abbrev FileSystem : Type := Tree FileName Bytes Bytes

/-- Components of a path string; an absolute path has an empty one in front. -/
def splitPath : Bytes → List Bytes
  | [] => [[]]
  | b :: s =>
    if b = slash then [] :: splitPath s
    else
      match splitPath s with
      | [] => [[b]]
      | c :: cs => (b :: c) :: cs

def toStep (c : Bytes) : Step FileName :=
  if h : ValidName c then .name ⟨c, h⟩ else if c = dotdot then .up else .here

/-- What is left of the components when the path is handed over as a C string. -/
def cString : List Bytes → List Bytes
  | [] => []
  | c :: cs => if 0 ∈ c then [c.takeWhile (· ≠ 0)] else c :: cString cs

/-- How the system reads the text of a link. -/
def linkTarget (text : Bytes) : Option (Bool × List (Step FileName)) :=
  if text = [] then none
  else some (decide (text.head? = some slash), (splitPath text).map toStep)

/-- Links that one lookup may follow. -/
def maxLinks : Nat := 40

/-- Resolution of a path, given by its components from the root. -/
def resolve (fs : FileSystem) (follow : Bool) (path : List Bytes) : Walk FileName :=
  walk fs linkTarget follow maxLinks [] ((cString path).map toStep)

def stat (fs : FileSystem) (path : List Bytes) : Option (Obj Bytes Bytes) :=
  match resolve fs true path with
  | .found loc => fs.obj loc
  | _ => none

def lstat (fs : FileSystem) (path : List Bytes) : Option (Obj Bytes Bytes) :=
  match resolve fs false path with
  | .found loc => fs.obj loc
  | _ => none

def pathExists (fs : FileSystem) (path : List Bytes) : Bool := (stat fs path).isSome

def mkdir (fs : FileSystem) (path : List Bytes) : Option FileSystem :=
  match resolve fs false path with
  | .missing loc n => some (fs.put loc n .dir)
  | _ => none

/-- `create_symlink`. -/
def createSymlink (fs : FileSystem) (target : Bytes) (path : List Bytes) : Option FileSystem :=
  let text := target.takeWhile (· ≠ 0)
  if text = [] then none
  else
    match resolve fs false path with
    | .missing loc n => some (fs.put loc n (.link text))
    | _ => none

/-- Open for writing with truncation, then write `content`. -/
def writeFile (fs : FileSystem) (path : List Bytes) (content : Bytes) : Option FileSystem :=
  match resolve fs true path with
  | .missing loc n => some (fs.put loc n (.file content))
  | .found loc =>
    match fs.obj loc, loc.getLast? with
    | some (.file _), some n => some (fs.put loc.dropLast n (.file content))
    | _, _ => none
  | .failed => none

/-- `create_directories` from the components in `done` on; `created` says whether the last
directory looked at was made here. -/
def createDirs (fs : FileSystem) (done : List Bytes) : List Bytes → Bool → Bool × FileSystem
  | [], created => (created, fs)
  | c :: rest, created =>
    if c = [] ∨ c = dot ∨ c = dotdot then createDirs fs (done ++ [c]) rest created
    else
      match stat fs (done ++ [c]) with
      | some .dir => createDirs fs (done ++ [c]) rest false
      | some _ => (false, fs)
      | none =>
        match mkdir fs (done ++ [c]) with
        | none => (false, fs)
        | some fs => createDirs fs (done ++ [c]) rest true

def createDirectories (fs : FileSystem) (path : List Bytes) : Bool × FileSystem :=
  createDirs fs [] path false

/-- An absolute path in lexically normal form: plain names, and whether a separator ends it. -/
structure NormalPath where
  names : List Bytes
  trailing : Bool
deriving DecidableEq

namespace NormalPath

def components (p : NormalPath) : List Bytes :=
  p.names ++ if p.trailing && !p.names.isEmpty then [[]] else []

/-- One component of `lexically_normal`. -/
def push (p : NormalPath) (c : Bytes) : NormalPath :=
  if c = [] ∨ c = dot then { p with trailing := true }
  else if c = dotdot then ⟨p.names.dropLast, true⟩
  else ⟨p.names ++ [c], false⟩

/-- `(base / relative).lexically_normal()` for a normal base. -/
def join (p : NormalPath) (relative : Bytes) : NormalPath := (splitPath relative).foldl push p

def parentPath (p : NormalPath) : NormalPath :=
  if p.trailing then ⟨p.names, false⟩ else ⟨p.names.dropLast, false⟩

end NormalPath

end JobZstd

/-!
## Extraction of a folder archive

`decompressFolder` reads a header and then entry after entry from the
decompressed stream. Every entry's path is joined to the resolved output
directory, checked for links on the way, and only then acted upon. A run ends
with the first entry that fails; what earlier entries made stays, so the file
system is part of the result in either case.
-/

namespace JobZstd

open FileTree

def readU64 (input : Bytes) : Option (Nat × Bytes) := do
  let (bytes, input) ← readExact input 8
  pure (LittleEndian.decode bytes, input)

theorem readU64_encode (value : Nat) (rest : Bytes) :
    readU64 (LittleEndian.encode 8 value ++ rest) = some (value % 2 ^ 64, rest) := by
  have hbytes : readExact (LittleEndian.encode 8 value ++ rest) 8 =
      some (LittleEndian.encode 8 value, rest) := readExact_append (LittleEndian.length_encode _ _)
  simp [readU64, hbytes, LittleEndian.decode_encode]

inductive JobZstdEntryKind where
  | file
  | directory
  | emptyDirectory
  | symlink
deriving DecidableEq

def ascii (chars : List Char) : Bytes := chars.map fun c => UInt8.ofNat c.toNat

def magicDirString : Bytes := ascii ['J', 'O', 'B', 'Z', 'C', 'R', 'Y', 'P', 'D', 'I', 'R']

def magicEmptyDirString : Bytes :=
  ascii ['J', 'O', 'B', 'Z', 'C', 'R', 'Y', 'P', 'E', 'M', 'P', 'T', 'Y', 'D', 'I', 'R']

def magicFileString : Bytes := ascii ['J', 'O', 'B', 'Z', 'C', 'R', 'Y', 'P', 'F', 'I', 'L', 'E']

def magicLinkString : Bytes := ascii ['J', 'O', 'B', 'Z', 'C', 'R', 'Y', 'P', 'L', 'I', 'N', 'K']

def entryMagicString : JobZstdEntryKind → Bytes
  | .file => magicFileString
  | .directory => magicDirString
  | .emptyDirectory => magicEmptyDirString
  | .symlink => magicLinkString

def entryKindFromMagicString (tag : Bytes) : Option JobZstdEntryKind :=
  if tag = magicFileString then some .file
  else if tag = magicDirString then some .directory
  else if tag = magicEmptyDirString then some .emptyDirectory
  else if tag = magicLinkString then some .symlink
  else none

/-- Every tag is read back as its kind. -/
theorem entryKindFromMagicString_magic (kind : JobZstdEntryKind) :
    entryKindFromMagicString (entryMagicString kind) = some kind := by
  cases kind <;> decide

/-- The names of a location as path components. -/
def locationNames (loc : Location) : List Bytes := loc.map Subtype.val

/-- The longest row of leading components that exists, from `done` on, and what follows it. -/
def leadingExisting (fs : FileSystem) (done : List Bytes) : List Bytes → List Bytes × List Bytes
  | [] => (done, [])
  | c :: rest =>
    if pathExists fs (done ++ [c]) then leadingExisting fs (done ++ [c]) rest
    else (done, c :: rest)

/-- `weakly_canonical`: what exists is resolved, the rest is appended and normalised. -/
def weaklyCanonical (fs : FileSystem) (path : List Bytes) : NormalPath :=
  match resolve fs true path with
  | .found loc => ⟨locationNames loc, false⟩
  | _ =>
    let (leading, rest) := leadingExisting fs [] path
    match resolve fs true leading with
    | .found loc => rest.foldl NormalPath.push ⟨locationNames loc, false⟩
    | _ => path.foldl NormalPath.push ⟨[], false⟩

def safeJoin (fs : FileSystem) (baseDir : List Bytes) (relativePath : Bytes) : Option NormalPath :=
  if relativePath.head? = some slash then none
  else
    let base := weaklyCanonical fs baseDir
    let candidate := base.join relativePath
    if base.components <+: candidate.components then some candidate else none

/-- The loop of `verifyNoSymlinkComponents` over the parts behind `current`. A part that cannot be
looked up is passed over. -/
def verifyParts (fs : FileSystem) (current : List Bytes) : List Bytes → Bool
  | [] => true
  | part :: rest =>
    match lstat fs (current ++ [part]) with
    | some (.link _) => false
    | _ => verifyParts fs (current ++ [part]) rest

def verifyNoSymlinkComponents (fs : FileSystem) (fullPath : NormalPath) : Bool :=
  verifyParts fs [] fullPath.components

inductive ExtractError where
  | headerTag
  | entryCount
  | outputFolder
  | entryHeader
  | entryTag
  | pathEscapes
  | throughSymlink
  | directoryEntry
  | symlinkTarget
  | symlinkRefused
  | parentFolder
  | symlinkEntry
  | fileLength
  | openTarget
  | payload
deriving DecidableEq

/-- Result of a call that reads on in the stream and may change the file system. -/
abbrev Outcome (α : Type) : Type := Except ExtractError α × FileSystem

/-- Create what is missing of a directory; an existing object of any kind is left as it is. -/
def ensureDirectory (fs : FileSystem) (path : List Bytes) : Bool × FileSystem :=
  if pathExists fs path then (true, fs) else createDirectories fs path

structure JobZstdDecompressor where
  /-- Working directory of the process. -/
  workingDir : Location
  output : Bytes
  preserveSymlinks : Bool

namespace JobZstdDecompressor

/-- Components of the output path, from the root. -/
def baseDir (d : JobZstdDecompressor) : List Bytes :=
  if d.output.head? = some slash then splitPath d.output
  else locationNames d.workingDir ++ splitPath d.output

def extractDirectory (fs : FileSystem) (safePath : NormalPath) (zstdIn : Bytes) : Outcome Bytes :=
  match ensureDirectory fs safePath.components with
  | (false, fs) => (.error .directoryEntry, fs)
  | (true, fs) => (.ok zstdIn, fs)

def extractSymlink (d : JobZstdDecompressor) (fs : FileSystem) (safePath : NormalPath)
    (zstdIn : Bytes) : Outcome Bytes :=
  match readString zstdIn with
  | none => (.error .symlinkTarget, fs)
  | some (target, zstdIn) =>
    if !d.preserveSymlinks then (.error .symlinkRefused, fs)
    else
      match ensureDirectory fs safePath.parentPath.components with
      | (false, fs) => (.error .parentFolder, fs)
      | (true, fs) =>
        match createSymlink fs target safePath.components with
        | none => (.error .symlinkEntry, fs)
        | some fs => (.ok zstdIn, fs)

def extractFile (fs : FileSystem) (safePath : NormalPath) (zstdIn : Bytes) : Outcome Bytes :=
  match readU64 zstdIn with
  | none => (.error .fileLength, fs)
  | some (length, zstdIn) =>
    match ensureDirectory fs safePath.parentPath.components with
    | (false, fs) => (.error .parentFolder, fs)
    | (true, fs) =>
      -- a stream that ends early leaves what it had in the file
      match writeFile fs safePath.components (zstdIn.take length) with
      | none => (.error .openTarget, fs)
      | some fs =>
        if zstdIn.length < length then (.error .payload, fs) else (.ok (zstdIn.drop length), fs)

/-- One turn of the entry loop. -/
def extractEntry (d : JobZstdDecompressor) (fs : FileSystem) (zstdIn : Bytes) : Outcome Bytes :=
  match readString zstdIn with
  | none => (.error .entryHeader, fs)
  | some (entryTag, zstdIn) =>
    match readString zstdIn with
    | none => (.error .entryHeader, fs)
    | some (relPath, zstdIn) =>
      match entryKindFromMagicString entryTag with
      | none => (.error .entryTag, fs)
      | some kind =>
        match safeJoin fs d.baseDir relPath with
        | none => (.error .pathEscapes, fs)
        | some safePath =>
          if !verifyNoSymlinkComponents fs safePath then (.error .throughSymlink, fs)
          else
            match kind with
            | .directory => extractDirectory fs safePath zstdIn
            | .emptyDirectory => extractDirectory fs safePath zstdIn
            | .symlink => extractSymlink d fs safePath zstdIn
            | .file => extractFile fs safePath zstdIn

/-- The entry loop, for a number of entries. -/
def extractEntries (d : JobZstdDecompressor) : Nat → FileSystem → Bytes → Outcome Bytes
  | 0, fs, zstdIn => (.ok zstdIn, fs)
  | entries + 1, fs, zstdIn =>
    match d.extractEntry fs zstdIn with
    | (.error e, fs) => (.error e, fs)
    | (.ok zstdIn, fs) => extractEntries d entries fs zstdIn

/-- What stands before the loop: the header, the number of entries, the output directory. -/
def openOutput (d : JobZstdDecompressor) (fs : FileSystem) (zstdIn : Bytes) :
    Outcome (Nat × Bytes) :=
  match readString zstdIn with
  | none => (.error .headerTag, fs)
  | some (tag, zstdIn) =>
    if tag ≠ magicDirString then (.error .headerTag, fs)
    else
      match readU64 zstdIn with
      | none => (.error .entryCount, fs)
      | some (totalEntries, zstdIn) =>
        -- the empty path neither exists nor can be made
        if d.output = [] then (.error .outputFolder, fs)
        else
          match ensureDirectory fs d.baseDir with
          | (false, fs) => (.error .outputFolder, fs)
          | (true, fs) => (.ok (totalEntries, zstdIn), fs)

def decompressFolder (d : JobZstdDecompressor) (fs : FileSystem) (zstdIn : Bytes) :
    Outcome Bytes :=
  match d.openOutput fs zstdIn with
  | (.error e, fs) => (.error e, fs)
  | (.ok (totalEntries, zstdIn), fs) => d.extractEntries totalEntries fs zstdIn

end JobZstdDecompressor

end JobZstd
