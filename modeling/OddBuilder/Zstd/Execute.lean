import OddBuilder.Zstd.Confined
import OddBuilder.Zstd.RoundTrip

/-!
# The plain and the encrypted extractor

`execute` reads the tag of an archive and goes to one of four functions. The
extractor of encrypted archives repeats three of them over a stream that is
decrypted first, and inherits the fourth. Both read what `JobZstdIO` makes of
the bytes of their transport; here the frame is complete, and its content is
handed over as a whole.
-/

namespace JobZstd

open FileTree

/-- What an extractor returns, and the file system afterwards. -/
abbrev Extraction : Type := Bool × FileSystem

def Outcome.returned {α : Type} : Outcome α → Extraction
  | (.ok _, fs) => (true, fs)
  | (.error _, fs) => (false, fs)

namespace JobZstdDecompressor

/-- The output path, absolute and lexically normal. -/
def outputPath (d : JobZstdDecompressor) : NormalPath := d.baseDir.foldl NormalPath.push ⟨[], false⟩

/-- The parent of the output path, unless it is empty. -/
def outputParent (d : JobZstdDecompressor) : Option (List Bytes) :=
  if (splitPath d.output).length ≤ 1 then none else some d.baseDir.dropLast

def ensureOutputParent (d : JobZstdDecompressor) (fs : FileSystem) : Bool × FileSystem :=
  match d.outputParent with
  | none => (true, fs)
  | some parent => ensureDirectory fs parent

def decompressFile (d : JobZstdDecompressor) (fs : FileSystem) (zstdIn : Bytes) : Extraction :=
  match readString zstdIn with
  | none => (false, fs)
  | some (tag, zstdIn) =>
    if tag ≠ magicFileString then (false, fs)
    else if !verifyNoSymlinkComponents fs d.outputPath then (false, fs)
    else
      match writeFile fs d.baseDir zstdIn with
      | none => (false, fs)
      | some fs => (true, fs)

def decompressEmptyDirectoryArchive (d : JobZstdDecompressor) (fs : FileSystem) : Extraction :=
  if !verifyNoSymlinkComponents fs d.outputPath then (false, fs) else ensureDirectory fs d.baseDir

def decompressSymlinkArchive (d : JobZstdDecompressor) (fs : FileSystem) (zstdIn : Bytes) :
    Extraction :=
  match readString zstdIn with
  | none => (false, fs)
  | some (tag, zstdIn) =>
    if tag ≠ magicLinkString then (false, fs)
    else
      match readString zstdIn with
      | none => (false, fs)
      | some (target, _) =>
        if !verifyNoSymlinkComponents fs d.outputPath then (false, fs)
        else if !d.preserveSymlinks then (false, fs)
        else
          match d.ensureOutputParent fs with
          | (false, fs) => (false, fs)
          | (true, fs) =>
            match createSymlink fs target d.baseDir with
            | none => (false, fs)
            | some fs => (true, fs)

def execute (d : JobZstdDecompressor) (fs : FileSystem) (zstdIn : Bytes) : Extraction :=
  if d.output = [] then (false, fs)
  else
    match readString zstdIn with
    | none => (false, fs)
    | some (tag, _) =>
      match entryKindFromMagicString tag with
      | none => (false, fs)
      | some .file => d.decompressFile fs zstdIn
      | some .directory => (d.decompressFolder fs zstdIn).returned
      | some .emptyDirectory => d.decompressEmptyDirectoryArchive fs
      | some .symlink => d.decompressSymlinkArchive fs zstdIn

end JobZstdDecompressor

def keyBytes : Nat := 32

structure JobZstdDecompressorCrypto extends JobZstdDecompressor where
  decryptionKey : Bytes

/-- What stands behind the extractor's `JobZstdIO`: the content of the frame, and whether the
decrypting transport has flagged the stream. -/
structure DecryptedArchive where
  content : Bytes
  flagged : Bool

namespace JobZstdDecompressorCrypto

def hasKeys (d : JobZstdDecompressorCrypto) : Bool := d.decryptionKey.length = keyBytes

def extractDirectory (fs : FileSystem) (safePath : NormalPath) (zstdIn : Bytes) : Outcome Bytes :=
  match ensureDirectory fs safePath.components with
  | (false, fs) => (.error .directoryEntry, fs)
  | (true, fs) => (.ok zstdIn, fs)

def extractSymlink (d : JobZstdDecompressorCrypto) (fs : FileSystem) (safePath : NormalPath)
    (zstdIn : Bytes) : Outcome Bytes :=
  match readString zstdIn with
  | none => (.error .symlinkTarget, fs)
  | some (target, zstdIn) =>
    if !d.preserveSymlinks then (.error .symlinkRefused, fs)
    else
      match ensureDirectory fs safePath.parentPath.components with
      | (false, fs) => (.error .parentFolder, fs)
      | (true, fs) =>
        match createSymlink fs target safePath.components with
        | none => (.error .symlinkEntry, fs)
        | some fs => (.ok zstdIn, fs)

def extractFile (fs : FileSystem) (safePath : NormalPath) (zstdIn : Bytes) : Outcome Bytes :=
  match readU64 zstdIn with
  | none => (.error .fileLength, fs)
  | some (length, zstdIn) =>
    match ensureDirectory fs safePath.parentPath.components with
    | (false, fs) => (.error .parentFolder, fs)
    | (true, fs) =>
      match writeFile fs safePath.components (zstdIn.take length) with
      | none => (.error .openTarget, fs)
      | some fs =>
        if zstdIn.length < length then (.error .payload, fs) else (.ok (zstdIn.drop length), fs)

def extractEntry (d : JobZstdDecompressorCrypto) (fs : FileSystem) (zstdIn : Bytes) :
    Outcome Bytes :=
  match readString zstdIn with
  | none => (.error .entryHeader, fs)
  | some (entryTag, zstdIn) =>
    match readString zstdIn with
    | none => (.error .entryHeader, fs)
    | some (relPath, zstdIn) =>
      match entryKindFromMagicString entryTag with
      | none => (.error .entryTag, fs)
      | some kind =>
        match safeJoin fs d.baseDir relPath with
        | none => (.error .pathEscapes, fs)
        | some safePath =>
          if !verifyNoSymlinkComponents fs safePath then (.error .throughSymlink, fs)
          else
            match kind with
            | .directory => extractDirectory fs safePath zstdIn
            | .emptyDirectory => extractDirectory fs safePath zstdIn
            | .symlink => d.extractSymlink fs safePath zstdIn
            | .file => extractFile fs safePath zstdIn

def extractEntries (d : JobZstdDecompressorCrypto) : Nat → FileSystem → Bytes → Outcome Bytes
  | 0, fs, zstdIn => (.ok zstdIn, fs)
  | entries + 1, fs, zstdIn =>
    match d.extractEntry fs zstdIn with
    | (.error e, fs) => (.error e, fs)
    | (.ok zstdIn, fs) => extractEntries d entries fs zstdIn

def openOutput (d : JobZstdDecompressorCrypto) (fs : FileSystem) (zstdIn : Bytes) :
    Outcome (Nat × Bytes) :=
  match readString zstdIn with
  | none => (.error .headerTag, fs)
  | some (tag, zstdIn) =>
    if tag ≠ magicDirString then (.error .headerTag, fs)
    else
      match readU64 zstdIn with
      | none => (.error .entryCount, fs)
      | some (totalEntries, zstdIn) =>
        if d.output = [] then (.error .outputFolder, fs)
        else
          match ensureDirectory fs d.baseDir with
          | (false, fs) => (.error .outputFolder, fs)
          | (true, fs) => (.ok (totalEntries, zstdIn), fs)

def decompressFolder (d : JobZstdDecompressorCrypto) (fs : FileSystem)
    (archive : DecryptedArchive) : Extraction :=
  if !d.hasKeys then (false, fs)
  else
    match d.openOutput fs archive.content with
    | (.error _, fs) => (false, fs)
    | (.ok (totalEntries, zstdIn), fs) => (d.extractEntries totalEntries fs zstdIn).returned

/-- The output path is not checked for links here. -/
def decompressFile (d : JobZstdDecompressorCrypto) (fs : FileSystem) (archive : DecryptedArchive) :
    Extraction :=
  if !d.hasKeys then (false, fs)
  else
    match readString archive.content with
    | none => (false, fs)
    | some (tag, zstdIn) =>
      if tag ≠ magicFileString then (false, fs)
      else
        match writeFile fs d.baseDir zstdIn with
        | none => (false, fs)
        | some fs => if archive.flagged then (false, fs) else (true, fs)

def decompressSymlinkArchive (d : JobZstdDecompressorCrypto) (fs : FileSystem)
    (archive : DecryptedArchive) : Extraction :=
  if !d.hasKeys then (false, fs)
  else
    match readString archive.content with
    | none => (false, fs)
    | some (tag, zstdIn) =>
      if tag ≠ magicLinkString then (false, fs)
      else
        match readString zstdIn with
        | none => (false, fs)
        | some (target, _) =>
          if !d.preserveSymlinks then (false, fs)
          else if !verifyNoSymlinkComponents fs d.outputPath then (false, fs)
          else
            match d.ensureOutputParent fs with
            | (false, fs) => (false, fs)
            | (true, fs) =>
              match createSymlink fs target d.baseDir with
              | none => (false, fs)
              | some fs => (true, fs)

def execute (d : JobZstdDecompressorCrypto) (fs : FileSystem) (archive : DecryptedArchive) :
    Extraction :=
  if !d.hasKeys then (false, fs)
  else if d.output = [] then (false, fs)
  else
    match readString archive.content with
    | none => (false, fs)
    | some (tag, _) =>
      match entryKindFromMagicString tag with
      | none => (false, fs)
      | some .file => d.decompressFile fs archive
      | some .directory => d.decompressFolder fs archive
      | some .emptyDirectory => d.decompressEmptyDirectoryArchive fs
      | some .symlink => d.decompressSymlinkArchive fs archive

section Branches

variable (d : JobZstdDecompressorCrypto)

theorem extractEntry_eq (fs : FileSystem) (zstdIn : Bytes) :
    d.extractEntry fs zstdIn = d.toJobZstdDecompressor.extractEntry fs zstdIn := by
  cases readString zstdIn with
  | none => rfl
  | some header =>
    cases readString header.2 with
    | none => rfl
    | some path =>
      cases entryKindFromMagicString header.1 with
      | none => rfl
      | some kind =>
        cases safeJoin fs d.baseDir path.1 with
        | none => rfl
        | some safePath => cases kind <;> rfl

theorem extractEntries_eq (entries : Nat) (fs : FileSystem) (zstdIn : Bytes) :
    d.extractEntries entries fs zstdIn =
      d.toJobZstdDecompressor.extractEntries entries fs zstdIn := by
  induction entries generalizing fs zstdIn with
  | zero => rfl
  | succ entries ih =>
    rw [extractEntries, JobZstdDecompressor.extractEntries, extractEntry_eq]
    cases d.toJobZstdDecompressor.extractEntry fs zstdIn with
    | mk result fs =>
      cases result with
      | error e => rfl
      | ok zstdIn => exact ih fs zstdIn

theorem openOutput_eq (fs : FileSystem) (zstdIn : Bytes) :
    d.openOutput fs zstdIn = d.toJobZstdDecompressor.openOutput fs zstdIn := by
  unfold openOutput JobZstdDecompressor.openOutput
  cases readString zstdIn with
  | none => rfl
  | some header => rfl

theorem decompressFolder_eq (hkeys : d.hasKeys = true) (fs : FileSystem)
    (archive : DecryptedArchive) :
    d.decompressFolder fs archive =
      (d.toJobZstdDecompressor.decompressFolder fs archive.content).returned := by
  simp only [decompressFolder, hkeys, openOutput_eq,
    JobZstdDecompressor.decompressFolder, extractEntries_eq]
  cases d.toJobZstdDecompressor.openOutput fs archive.content with
  | mk result fs => cases result <;> rfl

theorem decompressSymlinkArchive_eq (hkeys : d.hasKeys = true) (fs : FileSystem)
    (archive : DecryptedArchive) :
    d.decompressSymlinkArchive fs archive =
      d.toJobZstdDecompressor.decompressSymlinkArchive fs archive.content := by
  simp only [decompressSymlinkArchive, hkeys, Bool.not_true, Bool.false_eq_true, ↓reduceIte,
    JobZstdDecompressor.decompressSymlinkArchive]
  cases readString archive.content with
  | none => rfl
  | some header =>
    dsimp only
    split
    · rfl
    · cases readString header.2 with
      | none => rfl
      | some target =>
        -- the two checks come in the other order, and both refuse without a change
        cases d.preserveSymlinks <;> cases verifyNoSymlinkComponents fs d.outputPath <;> rfl

theorem entryKind_file_iff (tag : Bytes) :
    entryKindFromMagicString tag = some .file ↔ tag = magicFileString := by
  constructor
  · intro h
    simp only [entryKindFromMagicString] at h
    split at h
    · assumption
    · split_ifs at h <;> cases h
  · rintro rfl
    exact entryKindFromMagicString_magic .file

/-- The output path goes through a link, and can be opened for writing all the same. -/
def WritesThroughLink (d : JobZstdDecompressor) (fs : FileSystem) (content : Bytes) : Prop :=
  verifyNoSymlinkComponents fs d.outputPath = false ∧ (writeFile fs d.baseDir content).isSome

theorem decompressFile_eq_iff (hkeys : d.hasKeys = true) (fs : FileSystem) {tag zstdIn : Bytes}
    {archive : DecryptedArchive} (hflagged : archive.flagged = false)
    (hread : readString archive.content = some (tag, zstdIn)) (htag : tag = magicFileString) :
    d.decompressFile fs archive = d.toJobZstdDecompressor.decompressFile fs archive.content ↔
      ¬ WritesThroughLink d.toJobZstdDecompressor fs zstdIn := by
  simp only [decompressFile, hkeys, hread, htag,
    hflagged, JobZstdDecompressor.decompressFile, WritesThroughLink]
  cases hverify : verifyNoSymlinkComponents fs d.outputPath with
  | true => simp
  | false =>
    cases hwrite : writeFile fs d.baseDir zstdIn with
    | none => simp
    | some fs' => simp

end Branches

/-- On an archive whose transport flags nothing the two extractors agree, unless it is a file that is
written through a link. -/
theorem execute_eq_iff (d : JobZstdDecompressorCrypto) (hkeys : d.hasKeys = true) (fs : FileSystem)
    {archive : DecryptedArchive} (hflagged : archive.flagged = false) :
    d.execute fs archive = d.toJobZstdDecompressor.execute fs archive.content ↔
      ¬ (d.output ≠ [] ∧ ∃ zstdIn, readString archive.content = some (magicFileString, zstdIn) ∧
        WritesThroughLink d.toJobZstdDecompressor fs zstdIn) := by
  simp only [execute, hkeys, Bool.not_true, Bool.false_eq_true, ↓reduceIte,
    JobZstdDecompressor.execute]
  split
  · simp_all
  · rename_i houtput
    cases hread : readString archive.content with
    | none => simp
    | some header =>
      obtain ⟨tag⟩ := header
      dsimp only
      have hfile := entryKind_file_iff tag
      cases hkind : entryKindFromMagicString tag with
      | none =>
        have hother : tag ≠ magicFileString := fun h => by simp [hfile.mpr h] at hkind
        simp [hother]
      | some kind =>
        rw [hkind] at hfile
        cases kind with
        | file =>
          have htag : tag = magicFileString := hfile.mp rfl
          rw [decompressFile_eq_iff d hkeys fs hflagged hread htag]
          simp [houtput, htag]
        | directory =>
          have hother : tag ≠ magicFileString := fun h => by simpa using hfile.mpr h
          simp [decompressFolder_eq d hkeys, hother]
        | emptyDirectory =>
          have hother : tag ≠ magicFileString := fun h => by simpa using hfile.mpr h
          simp [hother]
        | symlink =>
          have hother : tag ≠ magicFileString := fun h => by simpa using hfile.mpr h
          simp [decompressSymlinkArchive_eq d hkeys, hother]

end JobZstdDecompressorCrypto

open JobZstdDecryptingTransport

/-- What `JobZstdIO` is given by the reads it makes on a plain archive. `zstd` gives the content of a
complete frame. -/
def plainContent (zstd : Bytes → Option Bytes) (reads : List Nat) (archive : Bytes) : Option Bytes :=
  zstd (plainReads archive (reads.map .xsgetn)).1.flatten

/-- The same reads through the decrypting transport. -/
def decryptedContent (zstd : Bytes → Option Bytes) (box : SecretBox) (reads : List Nat)
    (encrypted : Bytes) : Option DecryptedArchive :=
  let (answers, transport) := (init encrypted).runReads box (reads.map .xsgetn)
  (zstd answers.flatten).map fun content =>
    ⟨content, transport.truncated || transport.authFailed⟩

/-- The encrypted form has the content of the plain one, and nothing is flagged. -/
theorem decryptedContent_eq {zstd : Bytes → Option Bytes} {box : SecretBox} {reads : List Nat}
    {archive encrypted content : Bytes} (hform : ∀ ops, ReadsBack box encrypted archive ops)
    (hcontent : plainContent zstd reads archive = some content) :
    decryptedContent zstd box reads encrypted = some ⟨content, false⟩ := by
  obtain ⟨hanswers, htruncated, hauth⟩ := hform (reads.map .xsgetn)
  simp only [plainContent] at hcontent
  simp [decryptedContent, hanswers, hcontent, htruncated, hauth]

/-- The extractor of encrypted archives does to every file system what the plain one does, exactly
when the archive is not a file whose output path goes through a link and can be written. -/
theorem encrypted_execute_iff (zstd : Bytes → Option Bytes) (box : SecretBox) (reads : List Nat)
    (archive encrypted content : Bytes) (hform : ∀ ops, ReadsBack box encrypted archive ops)
    (hcontent : plainContent zstd reads archive = some content) (d : JobZstdDecompressorCrypto)
    (hkeys : d.hasKeys = true) (fs : FileSystem) :
    ∃ decrypted, decryptedContent zstd box reads encrypted = some decrypted ∧
      (d.execute fs decrypted = d.toJobZstdDecompressor.execute fs content ↔
        ¬ (d.output ≠ [] ∧ ∃ zstdIn, readString content = some (magicFileString, zstdIn) ∧
          JobZstdDecompressorCrypto.WritesThroughLink d.toJobZstdDecompressor fs zstdIn)) :=
  ⟨⟨content, false⟩, decryptedContent_eq hform hcontent, d.execute_eq_iff hkeys fs rfl⟩

/-- A file of three bytes. -/
def fileArchive : Bytes := writeString [] magicFileString ++ [1, 2, 3]

def encryptedFileArchive : Bytes := frames zeroBox [(List.replicate nonceBytes 0, fileArchive)]

def linkDecompressor : JobZstdDecompressorCrypto :=
  ⟨⟨[], ascii ['/', 'l'], true⟩, List.replicate keyBytes 0⟩

/-- A link `/l` to `/x`, where nothing stands. -/
def linkTree : FileSystem := rootTree.put [] linkName (.link (ascii ['/', 'x']))

theorem encryptedFileArchive_form (ops : List ReadOp) :
    ReadsBack zeroBox encryptedFileArchive fileArchive ops := by
  have hreadable : ∀ p ∈ [((List.replicate nonceBytes 0, fileArchive) : Chunk)], Readable p := by
    intro p hp
    obtain rfl := List.mem_singleton.mp hp
    exact ⟨List.length_replicate .., by decide, by decide⟩
  have hback := readsBack_of_readable zeroBox hreadable ops
  rwa [plainBytes_cons, plainBytes_nil, List.append_nil] at hback

theorem fileArchive_content : plainContent some [100] fileArchive = some fileArchive := by
  decide

/-- Without the link both make the file. -/
theorem encrypted_execute_iff_root :
    ∃ decrypted, decryptedContent some zeroBox [100] encryptedFileArchive = some decrypted ∧
      linkDecompressor.execute rootTree decrypted =
        linkDecompressor.toJobZstdDecompressor.execute rootTree fileArchive := by
  obtain ⟨decrypted, hdecrypted, hiff⟩ := encrypted_execute_iff some zeroBox [100] fileArchive
    encryptedFileArchive fileArchive encryptedFileArchive_form fileArchive_content linkDecompressor
    (by decide) rootTree
  refine ⟨decrypted, hdecrypted, hiff.mpr ?_⟩
  rintro ⟨-, zstdIn, -, hverify, -⟩
  exact absurd hverify (by decide)

/-- With it the plain extractor refuses, and the other one writes `/x`. -/
theorem encrypted_writes_through_link :
    ∃ decrypted, decryptedContent some zeroBox [100] encryptedFileArchive = some decrypted ∧
      linkDecompressor.toJobZstdDecompressor.execute linkTree fileArchive = (false, linkTree) ∧
      (linkDecompressor.execute linkTree decrypted).1 = true ∧
      (linkDecompressor.execute linkTree decrypted).2.obj [plainName] = some (.file [1, 2, 3]) ∧
      linkTree.obj [plainName] = none := by
  refine ⟨⟨fileArchive, false⟩, decryptedContent_eq encryptedFileArchive_form fileArchive_content,
    ?_, ?_, ?_, ?_⟩
  · have hread : readString fileArchive = some (magicFileString, [1, 2, 3]) :=
      readString_short (by decide) _
    have hkind : entryKindFromMagicString magicFileString = some .file :=
      entryKindFromMagicString_magic .file
    have hverify : verifyNoSymlinkComponents linkTree linkDecompressor.outputPath = false := by
      decide
    have houtput : ¬ linkDecompressor.output = [] := by decide
    simp only [JobZstdDecompressor.execute, houtput, ↓reduceIte, hread, hkind,
      JobZstdDecompressor.decompressFile, ne_eq, not_true_eq_false, hverify, Bool.not_false]
  · decide
  · decide
  · decide

end JobZstd
