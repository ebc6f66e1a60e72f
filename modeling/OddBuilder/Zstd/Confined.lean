import OddBuilder.Zstd.Paths

/-!
# Confinement of the extraction

Between the lexical check and the operating system stand links, zero bytes and
what earlier entries made. A path that passed both checks leads, name by name,
where it says; so every directory, file and link of an entry comes to stand
below the resolved output directory, in every run, whether it ends well or not.
-/

namespace JobZstd

open FileTree List JobZstdDecompressor

variable {fs fs' : FileSystem} {names base : Location} {path : List Bytes}

/-- Nothing is removed, and whatever differs stands below `base`. -/
structure Within (base : Location) (fs fs' : FileSystem) : Prop where
  ext : Extends fs fs'
  confined : ∀ loc, fs'.obj loc ≠ fs.obj loc → base <+: loc

theorem Within.refl (base : Location) (fs : FileSystem) : Within base fs fs :=
  ⟨Extends.refl fs, fun _ h => absurd rfl h⟩

theorem Within.trans {fs'' : FileSystem} (h : Within base fs fs') (k : Within base fs' fs'') :
    Within base fs fs'' := by
  refine ⟨h.ext.trans k.ext, fun loc hne => ?_⟩
  by_cases same : fs''.obj loc = fs'.obj loc
  · exact h.confined loc (by rwa [← same])
  · exact k.confined loc same

section Changes

variable {fs : FileSystem} {loc : Location} {n : FileName}

theorem put_new_extends (hdir : fs.obj loc = some .dir) (hfree : fs.obj (loc ++ [n]) = none)
    (o : Obj Bytes Bytes) : Extends fs (fs.put loc n o) := by
  intro l o' ho
  rw [fs.put_obj hdir (by simp [hfree]) o l]
  refine Or.inl ?_
  rw [if_neg, ho]
  rintro rfl
  rw [hfree] at ho
  cases ho

theorem put_file_extends (hdir : fs.obj loc = some .dir) {c : Bytes}
    (hfile : fs.obj (loc ++ [n]) = some (.file c)) (c' : Bytes) :
    Extends fs (fs.put loc n (.file c')) := by
  intro l o ho
  rw [fs.put_obj hdir (by simp [hfile]) _ l]
  by_cases here : l = loc ++ [n]
  · subst here
    rw [hfile] at ho
    exact Or.inr ⟨c, c', (Option.some.inj ho).symm, by simp⟩
  · exact Or.inl (by rw [if_neg here, ho])

theorem put_confined {base : Location} (hdir : fs.obj loc = some .dir)
    (hleaf : fs.obj (loc ++ [n]) ≠ some .dir) (o : Obj Bytes Bytes) (hbase : base <+: loc ++ [n]) :
    ∀ l, (fs.put loc n o).obj l ≠ fs.obj l → base <+: l := by
  intro l hne
  rw [fs.put_obj hdir hleaf o l] at hne
  by_cases here : l = loc ++ [n]
  · rwa [here]
  · rw [if_neg here] at hne
    exact absurd rfl hne

theorem resolve_missing_free {follow : Bool} {path : List Bytes}
    (h : resolve fs follow path = .missing loc n) :
    fs.obj loc = some .dir ∧ fs.obj (loc ++ [n]) = none :=
  walk_missing maxLinks [] _ loc n h

/-- `mkdir` takes a free name of a directory. -/
theorem mkdir_cases {fs' : FileSystem} {path : List Bytes} (h : mkdir fs path = some fs') :
    ∃ loc n, resolve fs false path = .missing loc n ∧ fs.obj loc = some .dir ∧
      fs.obj (loc ++ [n]) = none ∧ fs' = fs.put loc n .dir := by
  simp only [mkdir] at h
  split at h
  · rename_i loc n hmiss
    obtain ⟨hdir, hfree⟩ := resolve_missing_free hmiss
    exact ⟨loc, n, hmiss, hdir, hfree, (Option.some.inj h).symm⟩
  · cases h

theorem createDirs_extends (rest : List Bytes) :
    ∀ (fs : FileSystem) done created, Extends fs (createDirs fs done rest created).2 := by
  induction rest with
  | nil => exact fun fs done created => Extends.refl fs
  | cons c rest ih =>
    intro fs done created
    simp only [createDirs]
    split
    · exact ih _ _ _
    split
    · exact ih _ _ _
    · exact Extends.refl fs
    · split
      · exact Extends.refl fs
      · rename_i fs' hmk
        obtain ⟨loc, n, _, hdir, hfree, rfl⟩ := mkdir_cases hmk
        exact (put_new_extends hdir hfree .dir).trans (ih _ _ _)

end Changes

/-- A dot behind a path to a directory leads to a directory. -/
theorem resolve_dots {c : Bytes} (hc : c = [] ∨ c = dot ∨ c = dotdot) {loc : Location}
    (h : resolve fs true path = .found loc) (hdir : fs.obj loc = some .dir) :
    ∃ loc', resolve fs true (path ++ [c]) = .found loc' ∧ fs.obj loc' = some .dir := by
  have noZero : (0 : UInt8) ∉ c := by
    rcases hc with rfl | rfl | rfl <;> decide
  have isDir : fs.isDir loc = true := (fs.isDir_iff loc).mpr hdir
  have hstep : toStep c = .here ∨ toStep c = .up := by
    rcases hc with rfl | rfl | rfl
    · exact Or.inl (by simp [toStep, ValidName, dotdot])
    · exact Or.inl (by simp [toStep, ValidName, dot, dotdot])
    · exact Or.inr (by simp [toStep, ValidName])
  rcases cString_append_singleton path noZero with hsame | hmore
  · exact ⟨loc, by rw [resolve, hsame]; exact h, hdir⟩
  · simp only [resolve, hmore, map_append, map_singleton]
    rcases hstep with hstep | hstep
    · refine ⟨loc, ?_, hdir⟩
      rw [hstep]
      exact walk_dots (by intro jump; simp [walkWith, isDir]) maxLinks _ _ h
    · refine ⟨loc.dropLast, ?_, fs.dir_dropLast hdir⟩
      rw [hstep]
      exact walk_dots (by intro jump; simp [walkWith, isDir]) maxLinks _ _ h

/-- Where `create_directories` answers true, the path leads to a directory. -/
theorem createDirs_resolves (rest : List Bytes) :
    ∀ (fs fs' : FileSystem) done created,
      (created = true → ∃ loc, resolve fs true done = .found loc ∧ fs.obj loc = some .dir) →
      createDirs fs done rest created = (true, fs') →
      ∃ loc, resolve fs' true (done ++ rest) = .found loc := by
  induction rest with
  | nil =>
    intro fs fs' done created hdone h
    obtain ⟨rfl, rfl⟩ := Prod.mk.inj h
    obtain ⟨loc, hloc, _⟩ := hdone rfl
    exact ⟨loc, by rwa [append_nil]⟩
  | cons c rest ih =>
    intro fs fs' done created hdone h
    rw [append_cons]
    simp only [createDirs] at h
    split at h
    · rename_i hc
      refine ih _ _ _ _ (fun hcreated => ?_) h
      obtain ⟨loc, hloc, hdir⟩ := hdone hcreated
      exact resolve_dots hc hloc hdir
    split at h
    · exact ih _ _ _ _ (by simp) h
    · cases h
    · split at h
      · cases h
      · rename_i fs₁ hmk
        obtain ⟨loc, n, hmiss, hdir, hfree, rfl⟩ := mkdir_cases hmk
        have hnew : (fs.put loc n .dir).obj (loc ++ [n]) = some .dir := by
          rw [fs.put_obj hdir (by simp [hfree]), if_pos rfl]
        refine ih _ _ _ _ (fun _ => ⟨loc ++ [n], ?_, hnew⟩) h
        exact walk_fill (put_new_extends hdir hfree .dir) hnew maxLinks _ _ hmiss

theorem ensureDirectory_resolves (h : ensureDirectory fs path = (true, fs')) :
    ∃ loc, resolve fs' true path = .found loc := by
  simp only [ensureDirectory] at h
  split at h
  · rename_i hexists
    obtain ⟨_, rfl⟩ := Prod.mk.inj h
    simp only [pathExists, stat] at hexists
    split at hexists
    · rename_i loc hloc
      exact ⟨loc, hloc⟩
    · cases hexists
  · have hres := createDirs_resolves path fs fs' [] false (by simp) h
    rwa [nil_append] at hres

/-- `fs'` has directories in addition, all on the way along `names`. -/
def Grown (names : Location) (fs fs' : FileSystem) : Prop :=
  ∀ loc, fs'.obj loc = fs.obj loc ∨
    fs.obj loc = none ∧ fs'.obj loc = some .dir ∧ loc <+: names

theorem Grown.refl (names : Location) (fs : FileSystem) : Grown names fs fs :=
  fun _ => Or.inl rfl

theorem Grown.trans {fs'' : FileSystem} (h : Grown names fs fs') (k : Grown names fs' fs'') :
    Grown names fs fs'' := by
  intro loc
  rcases h loc with h1 | ⟨hnone, hdir, hloc⟩
  · rw [← h1]
    exact k loc
  · refine Or.inr ⟨hnone, ?_, hloc⟩
    rcases k loc with h2 | ⟨h2, _⟩
    · rw [h2, hdir]
    · rw [hdir] at h2
      cases h2

theorem Grown.noLink (h : Grown names fs fs') {loc way : Location} (free : NoLink fs loc way) :
    NoLink fs' loc way := by
  intro front back hsplit t
  rcases h (loc ++ front) with same | ⟨_, hdir, _⟩
  · rw [same]
    exact free front back hsplit t
  · rw [hdir]
    simp

/-- What is added on the way to something below an existing object stands below it. -/
theorem Grown.confined (h : Grown names fs fs') (hbase : base <+: names)
    (hexists : fs.obj base ≠ none) : ∀ loc, fs'.obj loc ≠ fs.obj loc → base <+: loc := by
  intro loc hne
  rcases h loc with same | ⟨hnone, _, hloc⟩
  · exact absurd same hne
  · rcases prefix_or_prefix_of_prefix hbase hloc with below | above
    · exact below
    · obtain ⟨rest, rfl⟩ := above
      by_cases here : rest = []
      · rw [here, append_nil]
      · obtain ⟨o, ho⟩ := Option.ne_none_iff_exists'.mp hexists
        rw [fs.dir_above loc rest here ho] at hnone
        cases hnone

theorem createDirs_grown {tail : List (Step FileName)} (lit : Literal path names tail)
    (rest : List Bytes) :
    ∀ (fs : FileSystem) done created, NoLink fs [] names → done ++ rest <+: path →
      Grown names fs (createDirs fs done rest created).2 := by
  induction rest with
  | nil => exact fun fs done created _ _ => Grown.refl names fs
  | cons c rest ih =>
    intro fs done created free hpath
    rw [append_cons] at hpath
    simp only [createDirs]
    split
    · exact ih _ _ _ free hpath
    split
    · exact ih _ _ _ free hpath
    · exact Grown.refl names fs
    · split
      · exact Grown.refl names fs
      · rename_i fs' hmk
        obtain ⟨loc, n, hmiss, hdir, hfree, rfl⟩ := mkdir_cases hmk
        have front : done ++ [c] <+: path := (prefix_append _ _).trans hpath
        have litFront := lit.take (done ++ [c]).length
        rw [← prefix_iff_eq_take.mp front] at litFront
        have freeFront : NoLink fs [] (names.take (done ++ [c]).length) := free.take _
        have hnames := resolve_missing litFront freeFront hmiss
        have grown : Grown names fs (fs.put loc n .dir) := by
          intro l
          rw [fs.put_obj hdir (by simp [hfree]) .dir l]
          by_cases here : l = loc ++ [n]
          · subst here
            exact Or.inr ⟨hfree, by simp, hnames ▸ take_prefix _ _⟩
          · exact Or.inl (by rw [if_neg here])
        exact grown.trans (ih _ _ _ (grown.noLink free) hpath)

theorem ensureDirectory_extends (fs : FileSystem) (path : List Bytes) :
    Extends fs (ensureDirectory fs path).2 := by
  simp only [ensureDirectory]
  split
  · exact Extends.refl fs
  · exact createDirs_extends path fs [] false

section Entry

variable {fs : FileSystem} {path : List Bytes} {names base : Location}
  {tail : List (Step FileName)}

theorem ensureDirectory_grown (lit : Literal path names tail) (free : NoLink fs [] names)
    {front : List Bytes} (hfront : front <+: path) : Grown names fs (ensureDirectory fs front).2 := by
  simp only [ensureDirectory]
  split
  · exact Grown.refl names fs
  · exact createDirs_grown lit front fs [] false free hfront

theorem ensureDirectory_within (lit : Literal path names tail) (free : NoLink fs [] names)
    (hbase : base <+: names) (hexists : fs.obj base ≠ none) {front : List Bytes}
    (hfront : front <+: path) : Within base fs (ensureDirectory fs front).2 :=
  ⟨ensureDirectory_extends fs front, (ensureDirectory_grown lit free hfront).confined hbase hexists⟩

theorem createSymlink_within (lit : Literal path names tail) (free : NoLink fs [] names)
    (hbase : base <+: names) {fs' : FileSystem} {target : Bytes}
    (h : createSymlink fs target path = some fs') : Within base fs fs' := by
  simp only [createSymlink] at h
  split at h
  · cases h
  split at h
  · rename_i loc n hmiss
    obtain ⟨hdir, hfree⟩ := resolve_missing_free hmiss
    obtain rfl := Option.some.inj h
    have hnames := resolve_missing lit free hmiss
    exact ⟨put_new_extends hdir hfree _,
      put_confined hdir (by simp [hfree]) _ (by rwa [← hnames])⟩
  · cases h

theorem writeFile_within (lit : Literal path names tail) (free : NoLink fs [] names)
    (hbase : base <+: names) {fs' : FileSystem} {content : Bytes}
    (h : writeFile fs path content = some fs') : Within base fs fs' := by
  simp only [writeFile] at h
  split at h
  · rename_i loc n hmiss
    obtain ⟨hdir, hfree⟩ := resolve_missing_free hmiss
    obtain rfl := Option.some.inj h
    have hnames := resolve_missing lit free hmiss
    exact ⟨put_new_extends hdir hfree _,
      put_confined hdir (by simp [hfree]) _ (by rwa [← hnames])⟩
  · rename_i loc hfound
    split at h
    · rename_i c n hfile hlast
      obtain rfl := Option.some.inj h
      have hloc : loc = loc.dropLast ++ [n] := (dropLast_append_getLast? n hlast).symm
      have hleaf : fs.obj (loc.dropLast ++ [n]) = some (.file c) := by rw [← hloc, hfile]
      have hdir := fs.parent _ _ _ hleaf
      have hnames : loc = names := by
        rcases resolve_found lit free hfound with same | isDir
        · exact same
        · rw [hfile] at isDir
          cases isDir
      exact ⟨put_file_extends hdir hleaf content,
        put_confined hdir (by simp [hleaf]) _ (by rwa [← hloc, hnames])⟩
    · cases h
  · cases h

end Entry

/-- The path of an entry behind the resolved output directory, with `.` and `..` taken out. -/
def entryPath (base : Location) (relPath : Bytes) : NormalPath :=
  NormalPath.join ⟨locationNames base, false⟩ relPath

/-- The path is absolute or does not stay below the output directory. -/
def Leaves (base : Location) (relPath : Bytes) : Prop :=
  relPath.head? = some slash ∨ ¬ locationNames base <+: (entryPath base relPath).names

/-- A link stands on the path as the system reads it, or at its end. -/
def ThroughLink (fs : FileSystem) (base : Location) (relPath : Bytes) : Prop :=
  ∃ front t, front.map Step.name <+: (cString (entryPath base relPath).components).map toStep ∧
    fs.obj front = some (.link t)

theorem NormalPath.names_le_components (p : NormalPath) : p.names <+: p.components :=
  prefix_append _ _

theorem NormalPath.parentPath_le (p : NormalPath) : p.parentPath.components <+: p.components := by
  have hparent : p.parentPath.components <+: p.names := by
    simp only [components, parentPath]
    split <;> simp [List.dropLast_prefix]
  exact hparent.trans p.names_le_components

/-- The system reads a normal path as names. -/
theorem NormalPath.literal {p : NormalPath} (hp : ∀ c ∈ p.names, Plain c) :
    ∃ names tail, Literal p.components names tail := by
  refine literal_of_plain ?_ p.names hp
  split
  · exact Or.inr rfl
  · exact Or.inl rfl

theorem entryPath_literal (base : Location) (relPath : Bytes) :
    ∃ names tail, Literal (entryPath base relPath).components names tail :=
  NormalPath.literal (NormalPath.join_plain (locationNames_plain base) relPath)

theorem throughLink_iff {relPath : Bytes} {tail : List (Step FileName)}
    (lit : Literal (entryPath base relPath).components names tail) :
    ThroughLink fs base relPath ↔ ¬ NoLink fs [] names := by
  constructor
  · rintro ⟨front, t, ⟨rest, hrest⟩, ht⟩ free
    have hfront : front <+: names := by
      rw [lit.steps] at hrest
      exact name_prefix lit.dots hrest
    obtain ⟨back, hback⟩ := hfront
    exact free front back hback.symm t (by simpa using ht)
  · intro linked
    simp only [NoLink, not_forall] at linked
    obtain ⟨front, back, hsplit, t, ht⟩ := linked
    refine ⟨front, t, ⟨back.map .name ++ tail, ?_⟩, by simpa using ht⟩
    rw [lit.steps, hsplit, map_append, append_assoc]

section Runs

variable {d : JobZstdDecompressor} {fs : FileSystem} {base : Location}

theorem safeJoin_eq (hbase : resolve fs true d.baseDir = .found base) (relPath : Bytes) :
    safeJoin fs d.baseDir relPath =
      if relPath.head? = some slash then none
      else if locationNames base <+: (entryPath base relPath).components then
        some (entryPath base relPath)
      else none := by
  have hcanon : weaklyCanonical fs d.baseDir = ⟨locationNames base, false⟩ := by
    simp [weaklyCanonical, hbase]
  have hcomp : NormalPath.components ⟨locationNames base, false⟩ = locationNames base := by
    simp [NormalPath.components]
  simp only [safeJoin, hcanon, hcomp]
  rfl

/-- A location is no longer for the separator that ends a path. -/
theorem locationNames_le_components {p : NormalPath} :
    locationNames base <+: p.components ↔ locationNames base <+: p.names := by
  constructor
  · intro h
    rcases prefix_or_prefix_of_prefix h p.names_le_components with inside | ⟨x, hx⟩
    · exact inside
    · rw [← hx] at h
      have hends := (prefix_append_right_inj _).mp h
      cases x with
      | nil => rw [← hx, append_nil]
      | cons c x =>
        have plain : Plain c := locationNames_plain base c (by rw [← hx]; simp)
        split at hends
        · obtain ⟨hc⟩ := cons_prefix_cons.mp hends
          exact absurd hc plain.1
        · cases prefix_nil.mp hends
  · exact fun h => h.trans p.names_le_components

/-- What both checks have passed: names without links that begin with the output directory. -/
theorem checked_path (hbase : resolve fs true d.baseDir = .found base) {relPath : Bytes}
    {safePath : NormalPath} (hjoin : safeJoin fs d.baseDir relPath = some safePath)
    (hverify : verifyNoSymlinkComponents fs safePath = true) :
    ∃ names tail, Literal safePath.components names tail ∧ NoLink fs [] names ∧ base <+: names := by
  rw [safeJoin_eq hbase] at hjoin
  split at hjoin
  · cases hjoin
  split at hjoin
  · rename_i below
    obtain rfl := Option.some.inj hjoin
    obtain ⟨names, tail, lit⟩ := entryPath_literal base relPath
    obtain ⟨rest, hrest⟩ := below
    exact ⟨names, tail, lit, (verifyParts_noLink lit).mp hverify, lit.base_le hrest.symm⟩
  · cases hjoin

theorem base_exists (hbase : resolve fs true d.baseDir = .found base) : fs.obj base ≠ none :=
  walk_found maxLinks [] _ base (by simp [fs.root]) hbase

section Checked

variable {safePath : NormalPath} {names : Location} {tail : List (Step FileName)}

theorem extractDirectory_within (lit : Literal safePath.components names tail)
    (free : NoLink fs [] names) (below : base <+: names) (hexists : fs.obj base ≠ none)
    (zstdIn : Bytes) :
    Within base fs (extractDirectory fs safePath zstdIn).2 := by
  have made := ensureDirectory_within lit free below hexists (prefix_refl _)
  simp only [extractDirectory]
  split
  · rename_i fs₁ hmade
    rwa [hmade] at made
  · rename_i fs₁ hmade
    rwa [hmade] at made

theorem extractSymlink_within (lit : Literal safePath.components names tail)
    (free : NoLink fs [] names) (below : base <+: names) (hexists : fs.obj base ≠ none)
    (zstdIn : Bytes) : Within base fs (d.extractSymlink fs safePath zstdIn).2 := by
  have made := ensureDirectory_within lit free below hexists safePath.parentPath_le
  have grown := ensureDirectory_grown lit free safePath.parentPath_le
  simp only [extractSymlink]
  split
  · exact Within.refl base fs
  split
  · exact Within.refl base fs
  split
  · rename_i fs₁ hmade
    rwa [hmade] at made
  · rename_i fs₁ hmade
    rw [hmade] at made grown
    split
    · exact made
    · rename_i fs₂ hlink
      exact made.trans (createSymlink_within lit (grown.noLink free) below hlink)

theorem extractFile_within (lit : Literal safePath.components names tail)
    (free : NoLink fs [] names) (below : base <+: names) (hexists : fs.obj base ≠ none)
    (zstdIn : Bytes) : Within base fs (extractFile fs safePath zstdIn).2 := by
  have made := ensureDirectory_within lit free below hexists safePath.parentPath_le
  have grown := ensureDirectory_grown lit free safePath.parentPath_le
  simp only [extractFile]
  split
  · exact Within.refl base fs
  split
  · rename_i fs₁ hmade
    rwa [hmade] at made
  · rename_i fs₁ hmade
    rw [hmade] at made grown
    split
    · exact made
    · rename_i fs₂ hwrite
      have all := made.trans (writeFile_within lit (grown.noLink free) below hwrite)
      split
      · exact all
      · exact all

end Checked

/-- One entry changes the file system only below the output directory. -/
theorem extractEntry_within (hbase : resolve fs true d.baseDir = .found base) (zstdIn : Bytes) :
    Within base fs (d.extractEntry fs zstdIn).2 := by
  have hexists := base_exists hbase
  simp only [extractEntry]
  split
  · exact Within.refl base fs
  split
  · exact Within.refl base fs
  split
  · exact Within.refl base fs
  rename_i kind _
  split
  · exact Within.refl base fs
  rename_i safePath hjoin
  split
  · exact Within.refl base fs
  rename_i hverify
  obtain ⟨names, tail, lit, free, below⟩ := checked_path hbase hjoin (by simpa using hverify)
  cases kind with
  | file => exact extractFile_within lit free below hexists _
  | directory => exact extractDirectory_within lit free below hexists _
  | emptyDirectory => exact extractDirectory_within lit free below hexists _
  | symlink => exact extractSymlink_within lit free below hexists _

/-- An entry whose path leaves the output directory or meets a link is refused, and nothing is
changed for it. -/
theorem extractEntry_refuses (hbase : resolve fs true d.baseDir = .found base)
    {zstdIn tag in₁ relPath in₂ : Bytes} (htag : readString zstdIn = some (tag, in₁))
    (hpath : readString in₁ = some (relPath, in₂))
    (bad : Leaves base relPath ∨ ThroughLink fs base relPath) :
    ∃ e, d.extractEntry fs zstdIn = (.error e, fs) := by
  simp only [extractEntry, htag, hpath]
  split
  · exact ⟨_, rfl⟩
  split
  · exact ⟨_, rfl⟩
  rename_i safePath hjoin
  rw [safeJoin_eq hbase] at hjoin
  split at hjoin
  · cases hjoin
  rename_i relative
  split at hjoin
  · rename_i below
    obtain rfl := Option.some.inj hjoin
    obtain ⟨names, tail, lit⟩ := entryPath_literal base relPath
    have linked : ThroughLink fs base relPath := by
      rcases bad with (absolute | outside) | linked
      · exact absurd absolute relative
      · exact absurd (locationNames_le_components.mp below) outside
      · exact linked
    have refused : verifyNoSymlinkComponents fs (entryPath base relPath) = false := by
      rw [← Bool.not_eq_true]
      exact fun h => (throughLink_iff lit).mp linked ((verifyParts_noLink lit).mp h)
    exact ⟨.throughSymlink, by rw [refused]; rfl⟩
  · cases hjoin

/-- So does every row of entries, from any state in which the output directory resolves. -/
theorem extractEntries_within (entries : Nat) :
    ∀ (fs : FileSystem) (zstdIn : Bytes), resolve fs true d.baseDir = .found base →
      Within base fs (d.extractEntries entries fs zstdIn).2 := by
  induction entries with
  | zero => exact fun fs zstdIn _ => Within.refl base fs
  | succ entries ih =>
    intro fs zstdIn hbase
    have step := extractEntry_within hbase zstdIn
    simp only [extractEntries]
    split
    · rename_i e fs₁ hentry
      rwa [hentry] at step
    · rename_i rest fs₁ hentry
      rw [hentry] at step
      exact step.trans (ih fs₁ rest (walk_mono step.ext maxLinks _ _ _ hbase))

/-- A run is the run of its first entries, then the rest from there. -/
theorem extractEntries_add (first more : Nat) :
    ∀ (fs : FileSystem) (zstdIn : Bytes), d.extractEntries (first + more) fs zstdIn =
      match d.extractEntries first fs zstdIn with
      | (.error e, fs) => (.error e, fs)
      | (.ok zstdIn, fs) => d.extractEntries more fs zstdIn := by
  induction first with
  | zero =>
    intro fs zstdIn
    rw [Nat.zero_add]
    rfl
  | succ first ih =>
    intro fs zstdIn
    rw [Nat.add_right_comm]
    simp only [extractEntries]
    split
    · rfl
    · exact ih _ _

theorem openOutput_resolves {fs₁ : FileSystem} {archive entries : Bytes} {total : Nat}
    (h : d.openOutput fs archive = (.ok (total, entries), fs₁)) :
    Extends fs fs₁ ∧ ∃ base, resolve fs₁ true d.baseDir = .found base := by
  simp only [openOutput] at h
  split at h
  · cases h
  split at h
  · cases h
  split at h
  · cases h
  split at h
  · cases h
  split at h
  · cases h
  · rename_i fs₂ hmade
    obtain ⟨_, rfl⟩ := Prod.mk.inj h
    have ext := ensureDirectory_extends fs d.baseDir
    rw [hmade] at ext
    exact ⟨ext, ensureDirectory_resolves hmade⟩

/-- The names of whatever stands at a location lead there. -/
theorem resolve_location {follow : Bool} {loc : Location} {o : Obj Bytes Bytes}
    (ho : fs.obj loc = some o) (hlast : ∀ t, o = .link t → follow = false) :
    resolve fs follow (locationNames loc) = .found loc := by
  have hcut := cString_locationNames loc []
  rw [cString, append_nil] at hcut
  rw [resolve, hcut, map_toStep_locationNames]
  exact walk_to maxLinks ho hlast

end Runs

/-- Once the output directory is there, it resolves to one location throughout the run, whatever
the entries make or overwrite stands below that location, and the run ends, with nothing more
changed, at the first entry whose path leaves it or meets a link. -/
theorem extraction_confined (d : JobZstdDecompressor) (fs fs₁ : FileSystem)
    (archive entries : Bytes) (total : Nat)
    (opened : d.openOutput fs archive = (.ok (total, entries), fs₁)) :
    d.decompressFolder fs archive = d.extractEntries total fs₁ entries ∧
      ∃ base, ∀ k, ∃ outcome fs', d.extractEntries k fs₁ entries = (outcome, fs') ∧
        resolve fs' true d.baseDir = .found base ∧
        (∀ loc, fs'.obj loc ≠ fs₁.obj loc → base <+: loc ∧ ∃ o, fs'.obj loc = some o ∧
            ∀ follow, (∀ t, o = .link t → follow = false) →
              resolve fs' follow (locationNames loc) = .found loc) ∧
        ∀ zstdIn tag in₁ relPath in₂, k < total → outcome = .ok zstdIn →
          readString zstdIn = some (tag, in₁) → readString in₁ = some (relPath, in₂) →
          Leaves base relPath ∨ ThroughLink fs' base relPath →
          ∃ e, d.decompressFolder fs archive = (.error e, fs') := by
  have whole : d.decompressFolder fs archive = d.extractEntries total fs₁ entries := by
    simp only [decompressFolder, opened]
  obtain ⟨_, base, hbase⟩ := openOutput_resolves opened
  refine ⟨whole, base, fun k => ?_⟩
  have within := extractEntries_within k fs₁ entries hbase
  obtain ⟨outcome, fs', hrun⟩ : ∃ o f, d.extractEntries k fs₁ entries = (o, f) := ⟨_, _, rfl⟩
  rw [hrun] at within
  have hbase' : resolve fs' true d.baseDir = .found base :=
    walk_mono within.ext maxLinks _ _ _ hbase
  refine ⟨outcome, fs', hrun, hbase', ?_, ?_⟩
  · intro loc changed
    refine ⟨within.confined loc changed, ?_⟩
    cases ho : fs'.obj loc with
    | none =>
      cases hbefore : fs₁.obj loc with
      | none => exact absurd (by rw [ho, hbefore]) changed
      | some o =>
        rcases within.ext loc o hbefore with h | ⟨_, _, _, h⟩ <;> simp [ho] at h
    | some o => exact ⟨o, rfl, fun follow hlast => resolve_location ho hlast⟩
  · intro zstdIn tag in₁ relPath in₂ hk hok htag hpath bad
    obtain ⟨e, hrefused⟩ := extractEntry_refuses hbase' htag hpath bad
    obtain ⟨more, hmore⟩ : ∃ more, total = k + (more + 1) := ⟨total - k - 1, by omega⟩
    refine ⟨e, ?_⟩
    rw [whole, hmore, extractEntries_add, hrun, hok]
    simp only [extractEntries, hrefused]

def rootTree : FileSystem where
  obj := fun loc => if loc = [] then some .dir else none
  root := rfl
  parent := by
    intro loc n o h
    simp at h

def outName : FileName := ⟨ascii ['o', 'u', 't'], by decide⟩

def etcName : FileName := ⟨ascii ['e', 't', 'c'], by decide⟩

def linkName : FileName := ⟨ascii ['l'], by decide⟩

def plainName : FileName := ⟨ascii ['x'], by decide⟩

/-- The directories `/out` and `/etc`. -/
def sampleTree : FileSystem := (rootTree.put [] outName .dir).put [] etcName .dir

def sampleDecompressor : JobZstdDecompressor := ⟨[], ascii ['/', 'o', 'u', 't'], true⟩

/-- A link `l` to `/etc`, then an empty file `l/../x`. -/
def sampleEntries : Bytes :=
  writeString (writeString (writeString [] magicLinkString) (ascii ['l']))
      (ascii ['/', 'e', 't', 'c']) ++
    (writeString (writeString [] magicFileString) (ascii ['l', '/', '.', '.', '/', 'x']) ++
      LittleEndian.encode 8 0)

def sampleArchive : Bytes :=
  writeString [] magicDirString ++ (LittleEndian.encode 8 2 ++ sampleEntries)

theorem sampleArchive_opened :
    sampleDecompressor.openOutput sampleTree sampleArchive =
      (.ok (2, sampleEntries), sampleTree) := by
  have hshort : magicDirString.length ≤ kMaxWireStringLength := by decide
  have htag := readString_short hshort (LittleEndian.encode 8 2 ++ sampleEntries)
  simp only [openOutput, sampleArchive, htag]
  rfl

theorem extraction_confined_sample :
    ∃ base, ∀ k, ∃ outcome fs',
      sampleDecompressor.extractEntries k sampleTree sampleEntries = (outcome, fs') ∧
      resolve fs' true sampleDecompressor.baseDir = .found base ∧
      ∀ loc, fs'.obj loc ≠ sampleTree.obj loc → base <+: loc := by
  obtain ⟨_, base, h⟩ := extraction_confined sampleDecompressor sampleTree sampleTree sampleArchive
    sampleEntries 2 sampleArchive_opened
  refine ⟨base, fun k => ?_⟩
  obtain ⟨outcome, fs', hrun, hbase, hconfined, _⟩ := h k
  exact ⟨outcome, fs', hrun, hbase, fun loc hne => (hconfined loc hne).1⟩

/-- After the link is made, the second entry's path as written leads through it to `/x`, outside
the output directory; the run goes on all the same and makes `/out/x`. -/
theorem link_before_dotdot_accepted :
    let made := sampleDecompressor.extractEntries 1 sampleTree sampleEntries
    let run := sampleDecompressor.decompressFolder sampleTree sampleArchive
    resolve made.2 true sampleDecompressor.baseDir = .found [outName] ∧
      resolve made.2 true [outName.1, linkName.1] = .found [etcName] ∧
      resolve made.2 true
        (sampleDecompressor.baseDir ++ splitPath (ascii ['l', '/', '.', '.', '/', 'x'])) =
          .missing [] plainName ∧
      run.1.toOption = some [] ∧ run.2.obj [outName, plainName] = some (.file []) := by
  decide

end JobZstd
