import OddBuilder.Zstd.Collect

/-!
# The walk over any file system

`collectEntriesRecursive` with its stack of active directories, its entries and the
exception that `exists` throws, over a disk that may hold special files and links to
anything. What a walk can meet is told without its order. A walk that is done has
collected what the compressor's walk collects.
-/

namespace JobZstd

open FileTree Option

/-- A finite file system, the order in which its directories are listed, and which of its files are
FIFOs, devices or sockets. -/
structure Disk where
  fs : FileSystem
  listing : Listing
  special : Location → Bool
  finite : ∃ all : List Location, ∀ loc, fs.obj loc ≠ none → loc ∈ all
  listed : ∀ loc, fs.obj loc = some .dir →
    (listing loc).Nodup ∧ ∀ n, n ∈ listing loc ↔ fs.obj (loc ++ [n]) ≠ none

/-- The type that `status` answers, the links followed. -/
inductive FileStatus
  | notFound
  /-- No type: the system gives up with ELOOP. -/
  | tooManyLinks
  | directory
  | regular
  | special
deriving DecidableEq

inductive WalkError
  | canonicalPath
  | cycle
  | openDirectory
  | archiveBrokenLink
  | dereferenceBrokenLink
  | notRegular
deriving DecidableEq

inductive WalkEnd
  | done
  | refused (error : WalkError)
  /-- A `filesystem_error` leaves the function. -/
  | thrown
deriving DecidableEq

structure WalkState where
  entries : List JobPendingEntry
  activeDirs : List NormalPath

def WalkState.append (more : List JobPendingEntry) (s : WalkState) : WalkState :=
  { s with entries := s.entries ++ more }

namespace Disk

def status (d : Disk) (path : List Bytes) : FileStatus :=
  match resolve d.fs true path with
  | .found loc =>
    match d.fs.obj loc with
    | some .dir => .directory
    | some (.file _) => if d.special loc then .special else .regular
    | _ => .notFound
  | _ =>
    if runsOut d.fs linkTarget true maxLinks [] ((cString path).map toStep) then .tooManyLinks
    else .notFound

/-- What the loop does with a child that is no link, or with the file that a link leads to. -/
def visitTarget (d : Disk) (c : JobZstdCompressor)
    (recurse : List Bytes → WalkState → Option (WalkEnd × WalkState)) (path : List Bytes)
    (s : WalkState) : Option (WalkEnd × WalkState) :=
  match d.status path with
  | .tooManyLinks => some (.thrown, s)
  | .directory => recurse path (s.append (c.directoryEntry d.fs d.listing path))
  | .regular => some (.done, s.append [⟨.file, lexicallyRelative path c.root, path, []⟩])
  | _ => some (.refused .notRegular, s)

/-- One turn of the loop over a directory. -/
def visitChild (d : Disk) (c : JobZstdCompressor)
    (recurse : List Bytes → WalkState → Option (WalkEnd × WalkState)) (path : List Bytes)
    (s : WalkState) : Option (WalkEnd × WalkState) :=
  match lstat d.fs path with
  | some (.link text) =>
    match d.status path with
    -- `exists` without an error code throws
    | .tooManyLinks => some (.thrown, s)
    | .notFound =>
      if c.preserveSymlinks then some (.refused .archiveBrokenLink, s)
      else some (.refused .dereferenceBrokenLink, s)
    | .directory =>
      if c.preserveSymlinks then
        some (.done, s.append [⟨.symlink, lexicallyRelative path c.root, [], text⟩])
      else recurse path s
    | _ =>
      if c.preserveSymlinks then
        some (.done, s.append [⟨.symlink, lexicallyRelative path c.root, [], text⟩])
      else d.visitTarget c recurse path s
  | _ => d.visitTarget c recurse path s

def visitChildren (d : Disk) (c : JobZstdCompressor)
    (recurse : List Bytes → WalkState → Option (WalkEnd × WalkState)) (currentDir : List Bytes) :
    List FileName → WalkState → Option (WalkEnd × WalkState)
  | [], s => some (.done, s)
  | n :: names, s =>
    match d.visitChild c recurse (childPath currentDir n.1) s with
    | some (.done, s) => visitChildren d c recurse currentDir names s
    | other => other

/-- The scope of `JobZstdDirGuard`: the directory is pushed, and popped on every way out. -/
def guarded (canonicalDir : NormalPath) (body : WalkState → Option (WalkEnd × WalkState))
    (s : WalkState) : Option (WalkEnd × WalkState) :=
  (body { s with activeDirs := s.activeDirs ++ [canonicalDir] }).map fun (result, s) =>
    (result, { s with activeDirs := s.activeDirs.dropLast })

/-- `collectEntriesRecursive`; `none` where the calls would be nested deeper than `depth`. -/
def collectEntriesRecursive (d : Disk) (c : JobZstdCompressor) :
    Nat → List Bytes → WalkState → Option (WalkEnd × WalkState)
  | 0, _, _ => none
  | depth + 1, currentDir, s =>
    if d.status currentDir = .tooManyLinks then some (.refused .canonicalPath, s)
    else
      let canonicalCurrent := weaklyCanonical d.fs currentDir
      if canonicalCurrent ∈ s.activeDirs then some (.refused .cycle, s)
      else
        guarded canonicalCurrent
          (fun s =>
            match directoryEntries d.fs d.listing currentDir with
            | none => some (.refused .openDirectory, s)
            | some names =>
              d.visitChildren c (d.collectEntriesRecursive c depth) currentDir names s) s

/-- `collectEntries` of the input directory, with the stack it leaves. -/
def collectEntries (d : Disk) (c : JobZstdCompressor) (depth : Nat) :
    Option (WalkEnd × WalkState) :=
  d.collectEntriesRecursive c depth c.root ⟨[], []⟩

/-- The names that the walk lists in the directory at a row of names. -/
def names (d : Disk) (c : JobZstdCompressor) (rel : Location) : List FileName :=
  (directoryEntries d.fs d.listing (c.treePath rel)).getD []

/-- What stops a walk. -/
inductive Fault
  | brokenLink
  /-- A link that leads on from link to link beyond the limit of the system. -/
  | endlessLink
  | specialFile
  /-- A link to a directory on the current walk path. -/
  | linkToAncestor
  /-- A directory on the current walk path that is met again as itself, below a link. -/
  | backToAncestor
deriving DecidableEq

/-- The links that the walk follows, and what is no link. -/
def Followed (d : Disk) (c : JobZstdCompressor) (path : List Bytes) : Prop :=
  isSymlink d.fs path = true → c.preserveSymlinks = false

/-- From the directory at a row of names, with this stack behind the guard, the walk can meet
this. -/
inductive Meets (d : Disk) (c : JobZstdCompressor) : Fault → List NormalPath → Location → Prop
  | brokenLink {stack : List NormalPath} {rel : Location} {n : FileName} :
    n ∈ d.names c rel → isSymlink d.fs (c.treePath (rel ++ [n])) = true →
      d.status (c.treePath (rel ++ [n])) = .notFound → Meets d c .brokenLink stack rel
  | endlessLink {stack : List NormalPath} {rel : Location} {n : FileName} :
    n ∈ d.names c rel → isSymlink d.fs (c.treePath (rel ++ [n])) = true →
      d.status (c.treePath (rel ++ [n])) = .tooManyLinks → Meets d c .endlessLink stack rel
  | specialFile {stack : List NormalPath} {rel : Location} {n : FileName} :
    n ∈ d.names c rel → d.Followed c (c.treePath (rel ++ [n])) →
      d.status (c.treePath (rel ++ [n])) = .special → Meets d c .specialFile stack rel
  | linkToAncestor {stack : List NormalPath} {rel : Location} {n : FileName} :
    n ∈ d.names c rel → isSymlink d.fs (c.treePath (rel ++ [n])) = true →
      c.preserveSymlinks = false → d.status (c.treePath (rel ++ [n])) = .directory →
        weaklyCanonical d.fs (c.treePath (rel ++ [n])) ∈ stack → Meets d c .linkToAncestor stack rel
  | backToAncestor {stack : List NormalPath} {rel : Location} {n : FileName} :
    n ∈ d.names c rel → isSymlink d.fs (c.treePath (rel ++ [n])) = false →
      d.status (c.treePath (rel ++ [n])) = .directory →
        weaklyCanonical d.fs (c.treePath (rel ++ [n])) ∈ stack → Meets d c .backToAncestor stack rel
  | deeper {fault : Fault} {stack : List NormalPath} {rel : Location} {n : FileName} :
    n ∈ d.names c rel → d.Followed c (c.treePath (rel ++ [n])) →
      d.status (c.treePath (rel ++ [n])) = .directory →
        weaklyCanonical d.fs (c.treePath (rel ++ [n])) ∉ stack →
          Meets d c fault (stack ++ [weaklyCanonical d.fs (c.treePath (rel ++ [n]))]) (rel ++ [n]) →
            Meets d c fault stack rel

/-- What the walk from the input directory can meet. -/
def Met (d : Disk) (c : JobZstdCompressor) (fault : Fault) : Prop :=
  d.Meets c fault [weaklyCanonical d.fs c.root] []

/-- A call adds entries behind those there are, whatever they are, and leaves the stack as it
was. -/
def Framed (stack : List NormalPath) (call : WalkState → Option (WalkEnd × WalkState)) : Prop :=
  ∀ entries, call ⟨entries, stack⟩ =
    (call ⟨[], stack⟩).map fun x => (x.1, ⟨entries ++ x.2.entries, stack⟩)

theorem framed_some (stack : List NormalPath) (result : WalkEnd) (more : List JobPendingEntry) :
    Framed stack fun s => some (result, s.append more) := fun _ => rfl

theorem framed_same (stack : List NormalPath) (result : WalkEnd) :
    Framed stack fun s => some (result, s) := by
  intro entries
  simp

section Framed

variable {d : Disk} {c : JobZstdCompressor} {stack : List NormalPath}
  {recurse : List Bytes → WalkState → Option (WalkEnd × WalkState)} {path : List Bytes}

theorem Framed.behind {call : WalkState → Option (WalkEnd × WalkState)} (h : Framed stack call)
    (more : List JobPendingEntry) : Framed stack fun s => call (s.append more) := by
  intro entries
  have hthere := h (entries ++ more)
  have hhere := h more
  dsimp only [WalkState.append]
  rw [List.nil_append, hthere, hhere, map_map]
  congr 1
  funext x
  simp

theorem Framed.visitTarget (h : Framed stack (recurse path)) :
    Framed stack (d.visitTarget c recurse path) := by
  have hbehind := h.behind (c.directoryEntry d.fs d.listing path)
  intro entries
  rw [Disk.visitTarget, Disk.visitTarget]
  cases d.status path with
  | tooManyLinks => exact framed_same stack _ entries
  | directory => exact hbehind entries
  | regular => exact framed_some stack _ _ entries
  | notFound => exact framed_same stack _ entries
  | special => exact framed_same stack _ entries

theorem Framed.visitChild (h : Framed stack (recurse path)) :
    Framed stack (d.visitChild c recurse path) := by
  have htarget := h.visitTarget (d := d) (c := c)
  intro entries
  rw [Disk.visitChild, Disk.visitChild]
  split
  · split
    · exact framed_same stack _ entries
    · split
      · exact framed_same stack _ entries
      · exact framed_same stack _ entries
    · split
      · exact framed_some stack _ _ entries
      · exact h entries
    · split
      · exact framed_some stack _ _ entries
      · exact htarget entries
  · exact htarget entries

/-- The loop goes on from one child to the next. -/
theorem visitChildren_cons {currentDir : List Bytes} (n : FileName) (rest : List FileName)
    (h : ∀ path, Framed stack (recurse path))
    (hrest : Framed stack (d.visitChildren c recurse currentDir rest)) :
    d.visitChildren c recurse currentDir (n :: rest) ⟨[], stack⟩ =
      match d.visitChild c recurse (childPath currentDir n.1) ⟨[], stack⟩ with
      | some (.done, s) =>
        (d.visitChildren c recurse currentDir rest ⟨[], stack⟩).map fun x =>
          (x.1, ⟨s.entries ++ x.2.entries, stack⟩)
      | other => other := by
  have hchild := (h (childPath currentDir n.1)).visitChild (d := d) (c := c) []
  rw [Disk.visitChildren]
  generalize d.visitChild c recurse (childPath currentDir n.1) ⟨[], stack⟩ = visited at *
  cases visited with
  | none => rfl
  | some x =>
    obtain ⟨result, s⟩ := x
    cases result with
    | done =>
      obtain ⟨entries, stack'⟩ := s
      obtain rfl : stack' = stack := congrArg (fun x => x.2.activeDirs) (Option.some.inj hchild)
      exact hrest entries
    | refused error => rfl
    | thrown => rfl

theorem Framed.visitChildren (h : ∀ path, Framed stack (recurse path)) (currentDir : List Bytes)
    (names : List FileName) : Framed stack (d.visitChildren c recurse currentDir names) := by
  induction names with
  | nil => exact framed_same stack .done
  | cons n rest ih =>
    intro entries
    have hchild := (h (childPath currentDir n.1)).visitChild (d := d) (c := c) entries
    rw [visitChildren_cons n rest h ih, Disk.visitChildren, hchild]
    cases d.visitChild c recurse (childPath currentDir n.1) ⟨[], stack⟩ with
    | none => rfl
    | some x =>
      obtain ⟨result, s⟩ := x
      cases result with
      | done =>
        have hafter := ih (entries ++ s.entries)
        dsimp only [map_some] at hafter ⊢
        rw [hafter, map_map]
        congr 1
        funext y
        simp
      | refused error => rfl
      | thrown => rfl

end Framed

theorem collectEntriesRecursive_framed (d : Disk) (c : JobZstdCompressor) (depth : Nat) :
    ∀ (stack : List NormalPath) (path : List Bytes),
      Framed stack (d.collectEntriesRecursive c depth path) := by
  induction depth with
  | zero => exact fun _ _ _ => rfl
  | succ depth ih =>
    intro stack path entries
    rw [Disk.collectEntriesRecursive, Disk.collectEntriesRecursive]
    split
    · exact framed_same stack _ entries
    dsimp only
    split
    · exact framed_same stack _ entries
    rw [guarded, guarded]
    split
    · simp
    · have hloop := Framed.visitChildren (d := d) (c := c)
        (ih (stack ++ [weaklyCanonical d.fs path])) path ‹_› entries
      rw [hloop, map_map, map_map]
      congr 1
      funext x
      simp

section Agree

variable {d : Disk} {c : JobZstdCompressor} {path : List Bytes}

theorem stat_of_status (h : d.status path ≠ .notFound) (hlinks : d.status path ≠ .tooManyLinks) :
    (d.status path = .directory ∧ stat d.fs path = some .dir) ∨
      (d.status path ≠ .directory ∧ ∃ content, stat d.fs path = some (.file content)) := by
  rw [status] at h hlinks ⊢
  rw [stat]
  cases hfound : resolve d.fs true path with
  | found loc =>
    rw [hfound] at h
    dsimp only at h ⊢
    cases hobj : d.fs.obj loc with
    | none =>
      rw [hobj] at h
      exact absurd rfl h
    | some o =>
      rw [hobj] at h
      cases o with
      | dir => exact Or.inl ⟨rfl, rfl⟩
      | link text => exact absurd rfl h
      | file content =>
        refine Or.inr ⟨?_, content, rfl⟩
        dsimp only
        split
        · decide
        · decide
  | _ =>
    rw [hfound] at h hlinks
    dsimp only at h hlinks
    split at h
    · next hruns =>
      rw [if_pos hruns] at hlinks
      exact absurd rfl hlinks
    · exact absurd rfl h

/-- Calls that are done collect what the calls without a stack collect, and keep the stack. -/
def Agrees (stack : List NormalPath)
    (recurse : List Bytes → WalkState → Option (WalkEnd × WalkState))
    (plain : List Bytes → List JobPendingEntry → Except CompressError (List JobPendingEntry)) :
    Prop :=
  ∀ path s s', s.activeDirs = stack → recurse path s = some (.done, s') →
    plain path s.entries = .ok s'.entries ∧ s'.activeDirs = stack

variable {stack : List NormalPath}
  {recurse : List Bytes → WalkState → Option (WalkEnd × WalkState)}
  {plain : List Bytes → List JobPendingEntry → Except CompressError (List JobPendingEntry)}

theorem Agrees.visitTarget (h : Agrees stack recurse plain) :
    Agrees stack (d.visitTarget c recurse) (c.visitTarget d.fs d.listing plain) := by
  intro path s s' hstack hdone
  rw [Disk.visitTarget] at hdone
  rw [JobZstdCompressor.visitTarget]
  have hstat := @stat_of_status d path
  split at hdone
  · cases hdone
  · next hstatus =>
    rw [hstatus] at hstat
    rcases hstat (by decide) (by decide) with ⟨-, hstat⟩ | ⟨hnot, -⟩
    · have hbehind := h path (s.append (c.directoryEntry d.fs d.listing path)) s' hstack hdone
      rw [hstat]
      exact hbehind
    · exact absurd rfl hnot
  · next hstatus =>
    rw [hstatus] at hstat
    rcases hstat (by decide) (by decide) with ⟨hdir, -⟩ | ⟨-, content, hstat⟩
    · cases hdir
    · rw [hstat]
      cases hdone
      exact ⟨rfl, hstack⟩
  · cases hdone

theorem Agrees.visitChild (h : Agrees stack recurse plain) :
    Agrees stack (d.visitChild c recurse) (c.visitChild d.fs d.listing plain) := by
  have htarget := h.visitTarget (d := d) (c := c)
  intro path s s' hstack hdone
  rw [Disk.visitChild] at hdone
  rw [JobZstdCompressor.visitChild]
  split
  · next text hlstat =>
    rw [hlstat] at hdone
    by_cases hfound : d.status path = .notFound
    · rw [hfound] at hdone
      dsimp only at hdone
      split at hdone
      · cases hdone
      · cases hdone
    by_cases hlinks : d.status path = .tooManyLinks
    · rw [hlinks] at hdone
      cases hdone
    have hexists : pathExists d.fs path = true := by
      rcases stat_of_status hfound hlinks with ⟨-, hstat⟩ | ⟨-, content, hstat⟩
      · rw [pathExists, hstat]
        rfl
      · rw [pathExists, hstat]
        rfl
    rw [hexists]
    by_cases hkeep : c.preserveSymlinks = true
    · rw [if_pos hkeep]
      have hlink : (d.status path = .directory ∨ d.status path = .regular ∨
          d.status path = .special) := by
        cases hstatus : d.status path with
        | notFound => exact absurd hstatus hfound
        | tooManyLinks => exact absurd hstatus hlinks
        | _ => simp
      rcases hlink with hstatus | hstatus | hstatus
      all_goals
        rw [hstatus] at hdone
        dsimp only at hdone
        rw [if_pos hkeep] at hdone
        cases hdone
        exact ⟨rfl, hstack⟩
    · rw [if_neg hkeep]
      rcases stat_of_status hfound hlinks with ⟨hstatus, hstat⟩ | ⟨hnot, content, hstat⟩
      · rw [hstatus] at hdone
        dsimp only at hdone
        rw [if_neg hkeep] at hdone
        rw [hstat]
        exact h path s s' hstack hdone
      · have hthere : d.visitTarget c recurse path s = some (.done, s') := by
          cases hstatus : d.status path with
          | notFound => exact absurd hstatus hfound
          | tooManyLinks => exact absurd hstatus hlinks
          | directory => exact absurd hstatus hnot
          | regular =>
            rw [hstatus] at hdone
            dsimp only at hdone
            rwa [if_neg hkeep] at hdone
          | special =>
            rw [hstatus] at hdone
            dsimp only at hdone
            rwa [if_neg hkeep] at hdone
        have hagrees := htarget path s s' hstack hthere
        rw [hstat]
        exact hagrees
  · next hlstat =>
    split at hdone
    · next text hlink => exact absurd hlink (hlstat text)
    · exact htarget path s s' hstack hdone

theorem Agrees.visitChildren (h : Agrees stack recurse plain) (currentDir : List Bytes)
    (names : List FileName) : ∀ s s', s.activeDirs = stack →
      d.visitChildren c recurse currentDir names s = some (.done, s') →
      c.visitChildren d.fs d.listing plain currentDir names s.entries = .ok s'.entries ∧
        s'.activeDirs = stack := by
  induction names with
  | nil =>
    intro s s' hstack hdone
    cases hdone
    exact ⟨rfl, hstack⟩
  | cons n rest ih =>
    intro s s' hstack hdone
    rw [Disk.visitChildren] at hdone
    rw [JobZstdCompressor.visitChildren]
    split at hdone
    · next after hchild =>
      obtain ⟨hok, hafter⟩ := h.visitChild _ s after hstack hchild
      rw [hok]
      exact ih after s' hafter hdone
    · next hother => exact absurd hdone (hother s')

end Agree

section Child

variable {d : Disk} {c : JobZstdCompressor} {stack : List NormalPath}
  {recurse : List Bytes → WalkState → Option (WalkEnd × WalkState)}

/-- How the turn for a child ends: by its type, and for a directory by the call. -/
theorem visitChild_end {path : List Bytes} (h : Framed stack (recurse path))
    (hplain : isSymlink d.fs path = false →
      d.status path ≠ .notFound ∧ d.status path ≠ .tooManyLinks) :
    (d.visitChild c recurse path ⟨[], stack⟩).map Prod.fst =
      match d.status path with
      | .notFound => some (.refused
          (if c.preserveSymlinks then .archiveBrokenLink else .dereferenceBrokenLink))
      | .tooManyLinks => some .thrown
      | .directory =>
        if isSymlink d.fs path && c.preserveSymlinks then some .done
        else (recurse path ⟨[], stack⟩).map Prod.fst
      | .regular => some .done
      | .special =>
        if isSymlink d.fs path && c.preserveSymlinks then some .done
        else some (.refused .notRegular) := by
  have htarget : (d.visitTarget c recurse path ⟨[], stack⟩).map Prod.fst =
      match d.status path with
      | .tooManyLinks => some .thrown
      | .directory => (recurse path ⟨[], stack⟩).map Prod.fst
      | .regular => some .done
      | _ => some (.refused .notRegular) := by
    rw [Disk.visitTarget]
    cases d.status path with
    | directory =>
      have hbehind := h.behind (c.directoryEntry d.fs d.listing path) []
      have hentries := h (c.directoryEntry d.fs d.listing path)
      dsimp only [WalkState.append] at hbehind ⊢
      rw [List.nil_append, hentries, map_map]
      rfl
    | _ => rfl
  have hend : isSymlink d.fs path = false →
      (d.visitTarget c recurse path ⟨[], stack⟩).map Prod.fst =
        match d.status path with
        | .notFound => some (.refused
            (if c.preserveSymlinks then .archiveBrokenLink else .dereferenceBrokenLink))
        | .tooManyLinks => some .thrown
        | .directory =>
          if isSymlink d.fs path && c.preserveSymlinks then some .done
          else (recurse path ⟨[], stack⟩).map Prod.fst
        | .regular => some .done
        | .special =>
          if isSymlink d.fs path && c.preserveSymlinks then some .done
          else some (.refused .notRegular) := by
    intro hlink
    obtain ⟨hfound, hends⟩ := hplain hlink
    rw [htarget, hlink]
    cases hstatus : d.status path with
    | notFound => exact absurd hstatus hfound
    | tooManyLinks => exact absurd hstatus hends
    | _ => rfl
  rw [Disk.visitChild]
  cases hlstat : lstat d.fs path with
  | none => exact hend (by rw [isSymlink, hlstat])
  | some o =>
    cases o with
    | dir => exact hend (by rw [isSymlink, hlstat])
    | file content => exact hend (by rw [isSymlink, hlstat])
    | link text =>
      have hlink : isSymlink d.fs path = true := by rw [isSymlink, hlstat]
      rw [hlink, Bool.true_and]
      cases hstatus : d.status path with
      | notFound =>
        dsimp only
        split
        · rfl
        · rfl
      | tooManyLinks => rfl
      | directory =>
        dsimp only
        split
        · rfl
        · rfl
      | regular =>
        dsimp only
        split
        · rfl
        · rw [htarget, hstatus]
      | special =>
        dsimp only
        split
        · rfl
        · rw [htarget, hstatus]

/-- What is found and is no link has a type. -/
theorem status_of_stat {path : List Bytes} {o : Obj Bytes Bytes} (h : stat d.fs path = some o)
    (hlink : ∀ t, o ≠ .link t) : d.status path ≠ .notFound ∧ d.status path ≠ .tooManyLinks := by
  rw [stat] at h
  cases hfound : resolve d.fs true path with
  | found loc =>
    rw [hfound] at h
    have hobj : d.fs.obj loc = some o := h
    rw [status, hfound]
    dsimp only
    rw [hobj]
    cases o with
    | dir => simp
    | file content =>
      dsimp only
      split
      · simp
      · simp
    | link text => exact absurd rfl (hlink text)
  | missing loc n =>
    rw [hfound] at h
    cases h
  | failed =>
    rw [hfound] at h
    cases h

theorem status_directory {path : List Bytes} (h : d.status path = .directory) :
    ∃ loc, resolve d.fs true path = .found loc ∧ d.fs.obj loc = some .dir ∧
      weaklyCanonical d.fs path = ⟨locationNames loc, false⟩ := by
  rw [status] at h
  split at h
  · next loc hloc =>
    refine ⟨loc, hloc, ?_, by rw [weaklyCanonical, hloc]⟩
    split at h
    · assumption
    · split at h
      · cases h
      · cases h
    · cases h
  · split at h
    · cases h
    · cases h

theorem names_of_directory {rel loc : Location}
    (hloc : resolve d.fs true (c.treePath rel) = .found loc) (hdir : d.fs.obj loc = some .dir) :
    directoryEntries d.fs d.listing (c.treePath rel) = some (d.listing loc) ∧
      d.names c rel = d.listing loc := by
  have hentries : directoryEntries d.fs d.listing (c.treePath rel) = some (d.listing loc) := by
    rw [directoryEntries, hloc]
    exact if_pos ((d.fs.isDir_iff loc).mpr hdir)
  exact ⟨hentries, by rw [names, hentries, getD_some]⟩

/-- A child that is no link has a type. -/
theorem status_child {src : Location} (h : InputDirectory c d.fs src) {rel loc : Location}
    {n : FileName} (hloc : resolve d.fs true (c.treePath rel) = .found loc)
    (hdir : d.fs.obj loc = some .dir) (hn : n ∈ d.names c rel)
    (hlink : isSymlink d.fs (c.treePath (rel ++ [n])) = false) :
    d.status (c.treePath (rel ++ [n])) ≠ .notFound ∧
      d.status (c.treePath (rel ++ [n])) ≠ .tooManyLinks := by
  rw [(names_of_directory hloc hdir).2, (d.listed loc hdir).2 n] at hn
  obtain ⟨o, ho⟩ := ne_none_iff_exists'.mp hn
  have hlstat := lstat_child h hloc ho
  have hother : ∀ t, o ≠ .link t := by
    rintro t rfl
    rw [isSymlink, hlstat] at hlink
    cases hlink
  exact status_of_stat (stat_child h hloc ho hother) hother

end Child

end Disk

end JobZstd
