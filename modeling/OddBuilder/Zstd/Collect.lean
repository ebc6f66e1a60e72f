import Mathlib.Data.List.Perm.Subperm
import OddBuilder.Library.Preorder
import OddBuilder.Zstd.Compress
import OddBuilder.Zstd.Paths

/-!
# What the walk collects

The tree that is archived, seen from the input directory: at every row of names
stands what an archive is to hold there, a link as itself when links are kept and
as what it points to otherwise. For a finite tree without broken links and cycles the
walk succeeds, and its entries are those of the tree's preorder.
-/

namespace JobZstd

open FileTree List JobZstdCompressor Option

namespace JobZstdCompressor

/-- The path that the walk has for a row of names below the input directory. -/
def treePath (c : JobZstdCompressor) (rel : Location) : List Bytes :=
  rel.foldl (fun path n => childPath path n.1) c.root

/-- What an archive is to hold for a row of names below the directory at `src`. -/
def copied (c : JobZstdCompressor) (fs : FileSystem) (src rel : Location) :
    Option (Obj Bytes Bytes) :=
  if c.preserveSymlinks then fs.obj (src ++ rel) else stat fs (c.treePath rel)

end JobZstdCompressor

theorem treePath_concat (c : JobZstdCompressor) (rel : Location) (n : FileName) :
    c.treePath (rel ++ [n]) = childPath (c.treePath rel) n.1 := by
  rw [treePath, foldl_concat]
  rfl

/-- The input path without a separator at its end. -/
def JobZstdCompressor.stem (c : JobZstdCompressor) : List Bytes :=
  if c.root.getLast? = some [] then c.root.dropLast else c.root

theorem root_eq_stem (c : JobZstdCompressor) : c.root = c.stem ∨ c.root = c.stem ++ [[]] := by
  rw [stem]
  split
  · rename_i hlast
    obtain ⟨front, hfront⟩ := List.getLast?_eq_some_iff.mp hlast
    exact Or.inr (by rw [hfront, dropLast_concat])
  · exact Or.inl rfl

theorem treePath_eq (c : JobZstdCompressor) {rel : Location} (hne : rel ≠ []) :
    c.treePath rel = c.stem ++ locationNames rel := by
  induction rel using List.reverseRecOn with
  | nil => exact absurd rfl hne
  | append_singleton rel n ih =>
    rw [treePath_concat]
    by_cases hnil : rel = []
    · subst hnil
      rfl
    · have hnames : locationNames rel ≠ [] := mt map_eq_nil_iff.mp hnil
      have hlast : (c.treePath rel).getLast? ≠ some [] := by
        rw [ih hnil, List.getLast?_append_of_ne_nil _ hnames]
        intro h
        exact (locationNames_plain rel [] (mem_of_getLast? h)).1 rfl
      rw [childPath, if_neg hlast, ih hnil]
      simp [locationNames]

theorem dropCommon_append (front p q : List Bytes) :
    dropCommon (front ++ p) (front ++ q) = dropCommon p q := by
  induction front with
  | nil => rfl
  | cons c front ih =>
    rw [cons_append, cons_append, dropCommon, if_pos rfl]
    exact ih

/-- A child's relative path is the names that lead to it. -/
theorem lexicallyRelative_treePath (c : JobZstdCompressor) {rel : Location} (hne : rel ≠ []) :
    lexicallyRelative (c.treePath rel) c.root = locationNames rel := by
  obtain ⟨n, rest, rfl⟩ := exists_cons_of_ne_nil hne
  have hname : n.1 ≠ [] := n.2.1
  have hdrop : ∃ baseRest, dropCommon (c.treePath (n :: rest)) c.root =
      (locationNames (n :: rest), baseRest) ∧ ups baseRest = 0 := by
    rw [treePath_eq c hne]
    rcases root_eq_stem c with hroot | hroot
    · have happend := dropCommon_append c.stem (locationNames (n :: rest)) []
      rw [append_nil] at happend
      exact ⟨[], by rw [hroot]; exact happend, rfl⟩
    · refine ⟨[[]], ?_, rfl⟩
      rw [hroot, dropCommon_append]
      exact if_neg hname
  obtain ⟨baseRest, hrest, hups⟩ := hdrop
  simp [lexicallyRelative, hrest, hups, locationNames, hname]

/-- The input path names the directory at `src`. -/
structure InputDirectory (c : JobZstdCompressor) (fs : FileSystem) (src : Location) : Prop where
  named : c.input ≠ [] ∧ 0 ∉ c.input
  input : resolve fs true c.root = .found src
  dir : fs.obj src = some .dir

/-- A finite tree below the input directory at `src`, without broken links and cycles, whose paths,
link texts, files and number of entries fit the archive's fields. -/
structure Archivable (c : JobZstdCompressor) (fs : FileSystem) (listing : Listing)
    (src : Location) : Prop extends InputDirectory c fs src where
  finite : ∃ all : List Location, ∀ loc, fs.obj loc ≠ none → loc ∈ all
  listed : ∀ loc, fs.obj loc = some .dir →
    (listing loc).Nodup ∧ ∀ n, n ∈ listing loc ↔ fs.obj (loc ++ [n]) ≠ none
  /-- What stands in a directory of the tree is found when links are followed. -/
  unbroken : ∀ rel loc n, c.copied fs src rel = some .dir →
    resolve fs true (c.treePath rel) = .found loc → fs.obj (loc ++ [n]) ≠ none →
      stat fs (c.treePath (rel ++ [n])) ≠ none
  /-- No directory is met again below itself. -/
  acyclic : c.preserveSymlinks = false → ∀ front n back loc,
    resolve fs true (c.treePath front) = .found loc → fs.obj loc = some .dir →
      resolve fs true (c.treePath (front ++ n :: back)) ≠ .found loc
  pathFits : ∀ rel, c.copied fs src rel ≠ none →
    (genericString (locationNames rel)).length ≤ kMaxWireStringLength
  textFits : ∀ rel t, c.copied fs src rel = some (.link t) →
    t ≠ [] ∧ 0 ∉ t ∧ t.length ≤ kMaxWireStringLength
  sizeFits : ∀ rel content, c.copied fs src rel = some (.file content) → content.length < 2 ^ 64
  countFits : ∀ rels : List Location, rels.Nodup →
    (∀ rel ∈ rels, rel ≠ [] ∧ c.copied fs src rel ≠ none) → rels.length < 2 ^ 64

theorem mem_of_mem_splitPath (s : Bytes) : ∀ c ∈ splitPath s, ∀ b ∈ c, b ∈ s := by
  induction s with
  | nil => simp [splitPath]
  | cons b s ih =>
    intro c hc x hx
    simp only [splitPath] at hc
    split at hc
    · rcases mem_cons.mp hc with rfl | hc
      · cases hx
      · exact mem_cons_of_mem _ (ih c hc x hx)
    · split at hc
      · obtain rfl := mem_singleton.mp hc
        exact mem_cons.mpr (Or.inl (mem_singleton.mp hx))
      · rename_i d ds hsplit
        rw [hsplit] at ih
        rcases mem_cons.mp hc with rfl | hc
        · rcases mem_cons.mp hx with rfl | hx
          · exact mem_cons_self
          · exact mem_cons_of_mem _ (ih d mem_cons_self x hx)
        · exact mem_cons_of_mem _ (ih c (mem_cons_of_mem _ hc) x hx)

theorem cString_of_zeroFree {cs : List Bytes} (h : ∀ c ∈ cs, 0 ∉ c) : cString cs = cs := by
  induction cs with
  | nil => rfl
  | cons c cs ih =>
    rw [cString, if_neg (h c mem_cons_self), ih fun c' hc' => h c' (mem_cons_of_mem _ hc')]

section Tree

variable {c : JobZstdCompressor} {fs : FileSystem} {listing : Listing} {src : Location}
variable {rel loc : Location} {n : FileName} {o : Obj Bytes Bytes}

theorem stem_zeroFree (h : InputDirectory c fs src) : ∀ b ∈ c.stem, 0 ∉ b := by
  have hroot : ∀ b ∈ c.root, 0 ∉ b := by
    have hsplit : ∀ b ∈ splitPath c.input, 0 ∉ b := fun b hb hzero =>
      h.named.2 (mem_of_mem_splitPath c.input b hb 0 hzero)
    intro b hb
    rw [root] at hb
    split at hb
    · exact hsplit b hb
    · rcases mem_append.mp hb with hb | hb
      · obtain ⟨n, _, rfl⟩ := mem_map.mp hb
        exact n.2.2.2.2.1
      · exact hsplit b hb
  intro b hb
  apply hroot
  rcases root_eq_stem c with heq | heq
  · rw [heq]
    exact hb
  · rw [heq]
    exact mem_append_left _ hb

/-- The steps of the input path without a separator at its end. -/
def JobZstdCompressor.stemSteps (c : JobZstdCompressor) : List (Step FileName) := c.stem.map toStep

theorem walk_stem (h : InputDirectory c fs src) :
    walk fs linkTarget true maxLinks [] c.stemSteps = .found src := by
  have hfree := stem_zeroFree h
  have hinput := h.input
  rcases root_eq_stem c with heq | heq
  · rw [resolve, heq, cString_of_zeroFree hfree] at hinput
    exact hinput
  · have hslash : ∀ b ∈ c.stem ++ [[]], (0 : UInt8) ∉ b := by
      intro b hb
      rcases mem_append.mp hb with hb | hb
      · exact hfree b hb
      · rw [mem_singleton.mp hb]
        exact not_mem_nil
    have hhere : toStep [] = .here := by simp [toStep, ValidName, dotdot]
    rw [resolve, heq, cString_of_zeroFree hslash, map_append, map_singleton, hhere]
      at hinput
    obtain ⟨loc, hloc, jump, hrest⟩ := walk_split maxLinks [] _ hinput
    simp only [walkWith] at hrest
    split at hrest
    · cases hrest
    · rw [← Walk.found.inj hrest]
      exact hloc

/-- Below the input directory a path of the walk is read as names behind the input path. -/
theorem resolve_treePath (h : InputDirectory c fs src) (hne : rel ≠ []) (follow : Bool) :
    resolve fs follow (c.treePath rel) =
      walk fs linkTarget follow maxLinks [] (c.stemSteps ++ rel.map .name) := by
  have hnames : ∀ b ∈ locationNames rel, (0 : UInt8) ∉ b := by
    intro b hb
    obtain ⟨n, _, rfl⟩ := mem_map.mp hb
    exact n.2.2.2.2.1
  have hfree : ∀ b ∈ c.treePath rel, (0 : UInt8) ∉ b := by
    intro b hb
    rw [treePath_eq c hne] at hb
    rcases mem_append.mp hb with hb | hb
    · exact stem_zeroFree h b hb
    · exact hnames b hb
  rw [resolve, cString_of_zeroFree hfree, treePath_eq c hne, map_append, map_toStep_locationNames]
  rfl

theorem walk_treePath (h : InputDirectory c fs src) :
    resolve fs true (c.treePath rel) = .found loc ↔
      walk fs linkTarget true maxLinks [] (c.stemSteps ++ rel.map .name) = .found loc := by
  by_cases hne : rel = []
  · subst hne
    rw [map_nil, append_nil, walk_stem h]
    have hroot : c.treePath [] = c.root := rfl
    rw [hroot, h.input]
  · rw [resolve_treePath h hne]

/-- The names below a row of names, as they are listed. -/
def JobZstdCompressor.next (c : JobZstdCompressor) (fs : FileSystem) (listing : Listing)
    (src rel : Location) : List FileName :=
  if c.copied fs src rel = some .dir then
    (directoryEntries fs listing (c.treePath rel)).getD []
  else []

theorem copied_root (h : InputDirectory c fs src) : c.copied fs src [] = some .dir := by
  rw [copied]
  split
  · rw [append_nil]
    exact h.dir
  · have hroot : c.treePath [] = c.root := rfl
    rw [hroot, stat, h.input]
    exact h.dir

theorem copied_dir (h : InputDirectory c fs src) (hdir : c.copied fs src rel = some .dir) :
    ∃ loc, resolve fs true (c.treePath rel) = .found loc ∧ fs.obj loc = some .dir ∧
      (c.preserveSymlinks = true → loc = src ++ rel) := by
  by_cases hkeep : c.preserveSymlinks = true
  · rw [copied, if_pos hkeep] at hdir
    refine ⟨src ++ rel, (walk_treePath h).mpr ?_, hdir, fun _ => rfl⟩
    by_cases hne : rel = []
    · rw [hne, map_nil, append_nil, append_nil]
      exact walk_stem h
    · exact walk_onto_names maxLinks hne hdir (by rintro t ⟨⟩) (walk_stem h)
  · rw [copied, if_neg hkeep, stat] at hdir
    split at hdir
    · rename_i loc hloc
      exact ⟨loc, hloc, hdir, fun h => absurd h hkeep⟩
    · cases hdir

theorem next_of_dir (listing : Listing) (hdir : c.copied fs src rel = some .dir)
    (hloc : resolve fs true (c.treePath rel) = .found loc) (hobj : fs.obj loc = some .dir) :
    directoryEntries fs listing (c.treePath rel) = some (listing loc) ∧
      c.next fs listing src rel = listing loc := by
  have hentries : directoryEntries fs listing (c.treePath rel) = some (listing loc) := by
    rw [directoryEntries, hloc]
    exact if_pos ((fs.isDir_iff loc).mpr hobj)
  refine ⟨hentries, ?_⟩
  rw [JobZstdCompressor.next, if_pos hdir, hentries]
  rfl

/-- What stands in a directory of the tree, looked up without following it. -/
theorem lstat_child (h : InputDirectory c fs src)
    (hloc : resolve fs true (c.treePath rel) = .found loc) (ho : fs.obj (loc ++ [n]) = some o) :
    lstat fs (c.treePath (rel ++ [n])) = some o := by
  have hwalk := walk_onto_names maxLinks (cons_ne_nil n []) ho (fun _ _ => rfl)
    ((walk_treePath h).mp hloc)
  rw [append_assoc, ← map_append] at hwalk
  rw [lstat, resolve_treePath h (concat_ne_nil n rel), hwalk]
  exact ho

/-- What is no link is found where it stands. -/
theorem stat_child (h : InputDirectory c fs src)
    (hloc : resolve fs true (c.treePath rel) = .found loc) (ho : fs.obj (loc ++ [n]) = some o)
    (hlink : ∀ t, o ≠ .link t) : stat fs (c.treePath (rel ++ [n])) = some o := by
  have hwalk : walk fs linkTarget true maxLinks [] (c.stemSteps ++ rel.map .name ++ [n].map .name) =
      .found (loc ++ [n]) :=
    walk_onto_names maxLinks (cons_ne_nil n []) ho (fun t ht => absurd ht (hlink t))
      ((walk_treePath h).mp hloc)
  rw [append_assoc, ← map_append] at hwalk
  rw [stat, (walk_treePath h).mpr hwalk]
  exact ho

theorem copied_child (h : Archivable c fs listing src) (hdir : c.copied fs src rel = some .dir)
    (hloc : resolve fs true (c.treePath rel) = .found loc)
    (hkept : c.preserveSymlinks = true → loc = src ++ rel) (ho : fs.obj (loc ++ [n]) = some o) :
    c.copied fs src (rel ++ [n]) ≠ none ∧
      (c.preserveSymlinks = true ∨ (∀ t, o ≠ .link t) → c.copied fs src (rel ++ [n]) = some o) := by
  by_cases hkeep : c.preserveSymlinks = true
  · have hcopied : c.copied fs src (rel ++ [n]) = some o := by
      rw [copied, if_pos hkeep, ← append_assoc, ← hkept hkeep]
      exact ho
    exact ⟨by rw [hcopied]; exact some_ne_none o, fun _ => hcopied⟩
  · rw [copied, if_neg hkeep]
    refine ⟨h.unbroken rel loc n hdir hloc (by rw [ho]; exact some_ne_none o), ?_⟩
    rintro (hyes | hlink)
    · exact absurd hyes hkeep
    · exact stat_child h.toInputDirectory hloc ho hlink

/-- A name is listed exactly where the tree has something. -/
theorem mem_next (h : Archivable c fs listing src) :
    n ∈ c.next fs listing src rel ↔ c.copied fs src (rel ++ [n]) ≠ none := by
  constructor
  · intro hn
    by_cases hdir : c.copied fs src rel = some .dir
    · obtain ⟨loc, hloc, hobj, hkept⟩ := copied_dir h.toInputDirectory hdir
      rw [(next_of_dir listing hdir hloc hobj).2, (h.listed loc hobj).2 n] at hn
      obtain ⟨o, ho⟩ := ne_none_iff_exists'.mp hn
      exact (copied_child h hdir hloc hkept ho).1
    · rw [JobZstdCompressor.next, if_neg hdir] at hn
      cases hn
  · intro hsome
    -- the name stands in a directory, which is the one that the walk has come to
    obtain ⟨loc, hloc, hobj, hthere, hdir⟩ : ∃ loc,
        resolve fs true (c.treePath rel) = .found loc ∧ fs.obj loc = some .dir ∧
          fs.obj (loc ++ [n]) ≠ none ∧ c.copied fs src rel = some .dir := by
      by_cases hkeep : c.preserveSymlinks = true
      · rw [copied, if_pos hkeep, ← append_assoc] at hsome
        obtain ⟨o, ho⟩ := ne_none_iff_exists'.mp hsome
        have hdir : c.copied fs src rel = some .dir := by
          rw [copied, if_pos hkeep]
          exact fs.parent _ _ _ ho
        obtain ⟨loc, hloc, hobj, hkept⟩ := copied_dir h.toInputDirectory hdir
        exact ⟨loc, hloc, hobj, by rw [hkept hkeep]; exact hsome, hdir⟩
      · rw [copied, if_neg hkeep, stat] at hsome
        split at hsome
        · rename_i l hl
          rw [walk_treePath h.toInputDirectory, map_append, ← append_assoc] at hl
          obtain ⟨loc, hloc, hobj, hthere⟩ := walk_split_name maxLinks hl
          have hfound := (walk_treePath h.toInputDirectory).mpr hloc
          refine ⟨loc, hfound, hobj, hthere, ?_⟩
          rw [copied, if_neg hkeep, stat, hfound]
          exact hobj
        · exact absurd rfl hsome
    rw [(next_of_dir listing hdir hloc hobj).2]
    exact ((h.listed loc hobj).2 n).mpr hthere

theorem nodup_next (h : Archivable c fs listing src) (rel : Location) :
    (c.next fs listing src rel).Nodup := by
  by_cases hdir : c.copied fs src rel = some .dir
  · obtain ⟨loc, hloc, hobj, _⟩ := copied_dir h.toInputDirectory hdir
    rw [(next_of_dir listing hdir hloc hobj).2]
    exact (h.listed loc hobj).1
  · rw [JobZstdCompressor.next, if_neg hdir]
    exact nodup_nil

theorem dir_of_copied (h : Archivable c fs listing src)
    (hsome : c.copied fs src (rel ++ [n]) ≠ none) : c.copied fs src rel = some .dir := by
  have hn := (mem_next h).mpr hsome
  rw [JobZstdCompressor.next] at hn
  split at hn
  · assumption
  · cases hn

theorem along_iff (h : Archivable c fs listing src) :
    Preorder.Along (c.next fs listing src) [] rel ↔ c.copied fs src rel ≠ none := by
  induction rel using List.reverseRecOn with
  | nil =>
    rw [copied_root h.toInputDirectory]
    exact ⟨fun _ => some_ne_none _, fun _ => trivial⟩
  | append_singleton rel n ih =>
    rw [Preorder.along_append, ih, Preorder.Along, mem_next h]
    constructor
    · exact fun hboth => hboth.2.1
    · intro hsome
      refine ⟨?_, hsome, trivial⟩
      rw [dir_of_copied h hsome]
      exact some_ne_none _

theorem dir_above_copied (h : Archivable c fs listing src) {front back : Location}
    (hback : back ≠ []) (hsome : c.copied fs src (front ++ back) ≠ none) :
    c.copied fs src front = some .dir := by
  induction back using List.reverseRecOn with
  | nil => exact absurd rfl hback
  | append_singleton back n ih =>
    rw [← append_assoc] at hsome
    have hdir := dir_of_copied h hsome
    by_cases hnil : back = []
    · rwa [hnil, append_nil] at hdir
    · apply ih hnil
      rw [hdir]
      exact some_ne_none _

/-- A directory of the tree is at another location than those above it. -/
theorem ancestors_differ (h : Archivable c fs listing src) {front back : Location}
    (hdir : c.copied fs src (front ++ n :: back) = some .dir)
    (hfront : resolve fs true (c.treePath front) = .found loc) :
    resolve fs true (c.treePath (front ++ n :: back)) ≠ .found loc := by
  have habove : c.copied fs src front = some .dir := by
    apply dir_above_copied h (cons_ne_nil n back)
    rw [hdir]
    exact some_ne_none _
  obtain ⟨loc', hloc', hobj, hkept⟩ := copied_dir h.toInputDirectory habove
  obtain rfl : loc' = loc := Walk.found.inj (hloc'.symm.trans hfront)
  by_cases hkeep : c.preserveSymlinks = true
  · intro hsame
    obtain ⟨below, hbelow, _, hkept'⟩ := copied_dir h.toInputDirectory hdir
    obtain rfl : below = loc' := Walk.found.inj (hbelow.symm.trans hsame)
    have hlength := congrArg List.length ((hkept' hkeep).symm.trans (hkept hkeep))
    simp at hlength
  · exact h.acyclic (by simpa using hkeep) front n back loc' hfront hobj

/-- The directories on the way to a directory are as many as there are names on it. -/
theorem exists_way (h : Archivable c fs listing src) (hdir : c.copied fs src rel = some .dir) :
    ∃ locs : List Location, locs.length = rel.length + 1 ∧ locs.Nodup ∧
      ∀ loc ∈ locs, fs.obj loc ≠ none ∧
        ∃ front back, rel = front ++ back ∧ resolve fs true (c.treePath front) = .found loc := by
  induction rel using List.reverseRecOn with
  | nil =>
    obtain ⟨loc, hloc, hobj, _⟩ := copied_dir h.toInputDirectory hdir
    refine ⟨[loc], rfl, nodup_singleton loc, ?_⟩
    intro l hl
    obtain rfl := mem_singleton.mp hl
    exact ⟨by rw [hobj]; exact some_ne_none _, [], [], rfl, hloc⟩
  | append_singleton rel n ih =>
    have habove : c.copied fs src rel = some .dir := by
      apply dir_of_copied h
      rw [hdir]
      exact some_ne_none _
    obtain ⟨locs, hlength, hnodup, hway⟩ := ih habove
    obtain ⟨loc, hloc, hobj, _⟩ := copied_dir h.toInputDirectory hdir
    refine ⟨loc :: locs, ?_, ?_, ?_⟩
    · rw [length_cons, hlength, length_append]
      rfl
    · refine nodup_cons.mpr ⟨?_, hnodup⟩
      intro hmem
      obtain ⟨_, front, back, rfl, hfront⟩ := hway loc hmem
      obtain ⟨m, rest, hrest⟩ := exists_cons_of_ne_nil (concat_ne_nil n back)
      rw [append_assoc, hrest] at hdir hloc
      exact ancestors_differ h hdir hfront hloc
    · intro l hl
      rcases mem_cons.mp hl with rfl | hl
      · exact ⟨by rw [hobj]; exact some_ne_none _, rel ++ [n], [], by simp, hloc⟩
      · obtain ⟨hsome, front, back, rfl, hfront⟩ := hway l hl
        exact ⟨hsome, front, back ++ [n], by simp, hfront⟩

theorem exists_bound (h : Archivable c fs listing src) :
    ∃ bound, ∀ rel, c.copied fs src rel = some .dir → rel.length < bound := by
  obtain ⟨all, hall⟩ := h.finite
  refine ⟨all.length, ?_⟩
  intro rel hdir
  obtain ⟨locs, hlength, hnodup, hway⟩ := exists_way h hdir
  have hsubset : locs ⊆ all := fun loc hloc => hall loc (hway loc hloc).1
  have hle := (hnodup.subperm hsubset).length_le
  omega

/-- `is_symlink`. -/
def isSymlink (fs : FileSystem) (path : List Bytes) : Bool :=
  match lstat fs path with
  | some (.link _) => true
  | _ => false

namespace JobZstdCompressor

/-- The entry that the walk pushes for a row of names, if any. A link to a directory that is gone
into has none. -/
def entryAt (c : JobZstdCompressor) (fs : FileSystem) (listing : Listing) (src rel : Location) :
    List JobPendingEntry :=
  match c.copied fs src rel with
  | none => []
  | some (.file _) => [⟨.file, locationNames rel, c.treePath rel, []⟩]
  | some (.link t) => [⟨.symlink, locationNames rel, [], t⟩]
  | some .dir =>
    if isSymlink fs (c.treePath rel) then []
    else if c.next fs listing src rel = [] then
      if c.preserveEmptyDirectories then [⟨.emptyDirectory, locationNames rel, [], []⟩] else []
    else [⟨.directory, locationNames rel, [], []⟩]

/-- The entries below a row of names, to a depth. -/
def entriesBelow (c : JobZstdCompressor) (fs : FileSystem) (listing : Listing) (src : Location)
    (depth : Nat) (rel : Location) : List JobPendingEntry :=
  (Preorder.preorder (c.next fs listing src) depth rel).flatMap (c.entryAt fs listing src)

end JobZstdCompressor

theorem isSymlink_iff {path : List Bytes} :
    isSymlink fs path = true ↔ ∃ t, lstat fs path = some (.link t) := by
  rw [isSymlink]
  split
  · rename_i t ht
    exact ⟨fun _ => ⟨t, ht⟩, fun _ => rfl⟩
  · rename_i hlink
    constructor
    · rintro ⟨⟩
    · rintro ⟨t, ht⟩
      exact absurd ht (hlink t)

/-- What a path leads to is no link. -/
theorem stat_ne_link {path : List Bytes} {t : Bytes} : stat fs path ≠ some (.link t) := by
  intro ht
  rw [stat] at ht
  split at ht
  · rename_i loc hloc
    refine walk_followed maxLinks [] _ loc ?_ hloc t ht
    intro t' ht'
    rw [fs.root] at ht'
    cases ht'
  · cases ht

/-- A directory that is no link gets the entry of its own. -/
theorem directoryEntry_eq (h : Archivable c fs listing src) (hne : rel ≠ [])
    (hdir : c.copied fs src rel = some .dir) (hlink : isSymlink fs (c.treePath rel) = false) :
    c.directoryEntry fs listing (c.treePath rel) = c.entryAt fs listing src rel := by
  obtain ⟨loc, hloc, hobj, _⟩ := copied_dir h.toInputDirectory hdir
  obtain ⟨hentries, hnext⟩ := next_of_dir listing hdir hloc hobj
  simp [directoryEntry, entryAt, hdir, hlink, hentries, hnext, lexicallyRelative_treePath c hne]

theorem visitTarget_eq (h : Archivable c fs listing src) (hne : rel ≠ [])
    (hstat : stat fs (c.treePath rel) = some o) (hcopied : c.copied fs src rel = some o)
    (hlink : o = .dir → isSymlink fs (c.treePath rel) = false)
    (recurse : List Bytes → List JobPendingEntry → Except CompressError (List JobPendingEntry))
    (entries : List JobPendingEntry) :
    c.visitTarget fs listing recurse (c.treePath rel) entries =
      if c.copied fs src rel = some .dir then
        recurse (c.treePath rel) (entries ++ c.entryAt fs listing src rel)
      else .ok (entries ++ c.entryAt fs listing src rel) := by
  cases o with
  | dir =>
    rw [if_pos hcopied, ← directoryEntry_eq h hne hcopied (hlink rfl)]
    simp [visitTarget, hstat]
  | file content =>
    simp [visitTarget, entryAt, hstat, hcopied, lexicallyRelative_treePath c hne]
  | link t => exact absurd hstat stat_ne_link

/-- One turn of the loop: the child's entry, and the walk below it if it is a directory. -/
theorem visitChild_eq (h : Archivable c fs listing src) (hn : c.copied fs src (rel ++ [n]) ≠ none)
    (recurse : List Bytes → List JobPendingEntry → Except CompressError (List JobPendingEntry))
    (entries : List JobPendingEntry) :
    c.visitChild fs listing recurse (c.treePath (rel ++ [n])) entries =
      if c.copied fs src (rel ++ [n]) = some .dir then
        recurse (c.treePath (rel ++ [n])) (entries ++ c.entryAt fs listing src (rel ++ [n]))
      else .ok (entries ++ c.entryAt fs listing src (rel ++ [n])) := by
  have hne : rel ++ [n] ≠ [] := concat_ne_nil n rel
  have hdir := dir_of_copied h hn
  obtain ⟨loc, hloc, hobj, hkept⟩ := copied_dir h.toInputDirectory hdir
  have hmem := (mem_next h).mpr hn
  rw [(next_of_dir listing hdir hloc hobj).2, (h.listed loc hobj).2 n] at hmem
  obtain ⟨o, ho⟩ := ne_none_iff_exists'.mp hmem
  have hlstat := lstat_child h.toInputDirectory hloc ho
  have hcopied := (copied_child h hdir hloc hkept ho).2
  by_cases hlink : ∀ t, o ≠ .link t
  · have hplain : isSymlink fs (c.treePath (rel ++ [n])) = false := by
      rw [← Bool.not_eq_true, isSymlink_iff, hlstat]
      rintro ⟨t, ht⟩
      exact hlink t (Option.some.inj ht)
    rw [← visitTarget_eq h hne (stat_child h.toInputDirectory hloc ho hlink) (hcopied (Or.inr hlink))
      (fun _ => hplain)]
    rw [visitChild, hlstat]
    split
    · rename_i t ht
      exact absurd (Option.some.inj ht) (hlink t)
    · rfl
  · obtain ⟨t, rfl⟩ : ∃ t, o = .link t := by simpa using hlink
    have hthere : stat fs (c.treePath (rel ++ [n])) ≠ none :=
      h.unbroken rel loc n hdir hloc (by rw [ho]; exact some_ne_none _)
    have hexists : pathExists fs (c.treePath (rel ++ [n])) = true := isSome_iff_ne_none.mpr hthere
    by_cases hkeep : c.preserveSymlinks = true
    · have hlinkCopied := hcopied (Or.inl hkeep)
      simp [visitChild, entryAt, hlstat, hkeep, hexists,
        hlinkCopied, lexicallyRelative_treePath c hne]
    · obtain ⟨o, hstat⟩ := ne_none_iff_exists'.mp hthere
      have hstatCopied : c.copied fs src (rel ++ [n]) = some o := by
        rw [copied, if_neg hkeep]
        exact hstat
      by_cases htarget : o = .dir
      · -- the link is gone into without an entry
        subst htarget
        have hsymlink : isSymlink fs (c.treePath (rel ++ [n])) = true := isSymlink_iff.mpr ⟨t, hlstat⟩
        simp [visitChild, entryAt, hlstat, hkeep, hexists, hstat, hstatCopied, hsymlink]
      · rw [← visitTarget_eq h hne hstat hstatCopied (fun heq => absurd heq htarget)]
        cases o with
        | dir => exact absurd rfl htarget
        | file content => simp [visitChild, hlstat, hkeep, hexists, hstat]
        | link t => exact absurd hstat stat_ne_link

theorem visitChildren_eq (h : Archivable c fs listing src) (depth : Nat)
    {recurse : List Bytes → List JobPendingEntry → Except CompressError (List JobPendingEntry)}
    (names : List FileName) (hnames : ∀ n ∈ names, c.copied fs src (rel ++ [n]) ≠ none)
    (hrecurse : ∀ n ∈ names, c.copied fs src (rel ++ [n]) = some .dir → ∀ entries,
      recurse (c.treePath (rel ++ [n])) entries =
        .ok (entries ++ c.entriesBelow fs listing src depth (rel ++ [n]))) :
    ∀ entries, c.visitChildren fs listing recurse (c.treePath rel) names entries =
      .ok (entries ++ (names.flatMap fun n => (rel ++ [n]) ::
        Preorder.preorder (c.next fs listing src) depth (rel ++ [n])).flatMap
          (c.entryAt fs listing src)) := by
  induction names with
  | nil =>
    intro entries
    simp [visitChildren]
  | cons n names ih =>
    intro entries
    have hchild := visitChild_eq h (hnames n mem_cons_self) recurse entries
    have hrest := ih (fun m hm => hnames m (mem_cons_of_mem n hm))
      (fun m hm => hrecurse m (mem_cons_of_mem n hm))
    rw [visitChildren, ← treePath_concat, hchild]
    by_cases hdir : c.copied fs src (rel ++ [n]) = some .dir
    · rw [if_pos hdir, hrecurse n mem_cons_self hdir]
      simp only
      rw [hrest]
      simp [entriesBelow]
    · have hleaf : c.next fs listing src (rel ++ [n]) = [] := by
        rw [JobZstdCompressor.next, if_neg hdir]
      rw [if_neg hdir]
      simp only
      rw [hrest]
      simp [Preorder.preorder_leaf hleaf]

/-- The walk below a directory of the tree pushes the entries of the tree's preorder. -/
theorem collectEntriesRecursive_eq (h : Archivable c fs listing src) {bound : Nat}
    (hbound : ∀ rel, c.copied fs src rel = some .dir → rel.length < bound) (k : Nat) :
    ∀ depth rel activeDirs entries, k ≤ depth → rel.length + k = bound →
      c.copied fs src rel = some .dir →
      (∀ path ∈ activeDirs, ∃ front n back, rel = front ++ n :: back ∧
        path = weaklyCanonical fs (c.treePath front)) →
      c.collectEntriesRecursive fs listing depth activeDirs (c.treePath rel) entries =
        .ok (entries ++ c.entriesBelow fs listing src k rel) := by
  induction k with
  | zero =>
    intro depth rel activeDirs entries _ hlength hdir
    have := hbound rel hdir
    omega
  | succ k ih =>
    rintro (_ | depth) rel activeDirs entries hdepth hlength hdir hactive
    · omega
    obtain ⟨loc, hloc, hobj, hkept⟩ := copied_dir h.toInputDirectory hdir
    obtain ⟨hentries, hnext⟩ := next_of_dir listing hdir hloc hobj
    have hfresh : weaklyCanonical fs (c.treePath rel) ∉ activeDirs := by
      intro hmem
      obtain ⟨front, n, back, rfl, hsame⟩ := hactive _ hmem
      have habove : c.copied fs src front = some .dir := by
        apply dir_above_copied h (cons_ne_nil n back)
        rw [hdir]
        exact some_ne_none _
      obtain ⟨above, hfront, _⟩ := copied_dir h.toInputDirectory habove
      have hdiffer := ancestors_differ h hdir hfront
      simp only [weaklyCanonical, hloc, hfront, NormalPath.mk.injEq, and_true] at hsame
      rw [locationNames, locationNames, (map_injective_iff.mpr Subtype.val_injective).eq_iff]
        at hsame
      rw [hloc, hsame] at hdiffer
      exact hdiffer rfl
    have hchildren : ∀ n ∈ listing loc, c.copied fs src (rel ++ [n]) ≠ none := by
      intro n hn
      rw [← hnext] at hn
      exact (mem_next h).mp hn
    rw [collectEntriesRecursive]
    simp only [if_neg hfresh, hentries]
    rw [visitChildren_eq h k (listing loc) hchildren]
    · rw [entriesBelow, Preorder.preorder, hnext]
    · intro n _ hchild entries
      refine ih depth (rel ++ [n]) _ entries (by omega) ?_ hchild ?_
      · rw [length_append, length_singleton]
        omega
      · intro path hpath
        rcases mem_append.mp hpath with hpath | hpath
        · obtain ⟨front, m, back, rfl, hsame⟩ := hactive path hpath
          exact ⟨front, m, back ++ [n], by simp, hsame⟩
        · obtain rfl := mem_singleton.mp hpath
          exact ⟨rel, n, [], rfl, rfl⟩

/-- Every large enough bound lets the walk through the whole tree, with the same entries. -/
theorem collectEntries_eq (h : Archivable c fs listing src) :
    ∃ bound, (∀ rel, c.copied fs src rel ≠ none → rel.length ≤ bound) ∧
      ∀ depth, bound ≤ depth →
        c.collectEntries fs listing depth = .ok (c.entriesBelow fs listing src bound []) := by
  obtain ⟨bound, hbound⟩ := exists_bound h
  refine ⟨bound, ?_, ?_⟩
  · intro rel hsome
    induction rel using List.reverseRecOn with
    | nil => exact Nat.zero_le _
    | append_singleton rel n _ =>
      rw [length_append]
      exact hbound rel (dir_of_copied h hsome)
  · intro depth hdepth
    exact collectEntriesRecursive_eq h hbound bound depth [] [] [] hdepth (Nat.zero_add _)
      (copied_root h.toInputDirectory) (by simp)

theorem mem_below (h : Archivable c fs listing src) {bound : Nat}
    (hbound : ∀ rel, c.copied fs src rel ≠ none → rel.length ≤ bound) :
    rel ∈ Preorder.preorder (c.next fs listing src) bound [] ↔
      rel ≠ [] ∧ c.copied fs src rel ≠ none := by
  rw [Preorder.mem_preorder]
  constructor
  · rintro ⟨names, hne, _, rfl, halong⟩
    exact ⟨hne, (along_iff h).mp halong⟩
  · rintro ⟨hne, hsome⟩
    exact ⟨rel, hne, hbound rel hsome, rfl, (along_iff h).mpr hsome⟩

end Tree

end JobZstd
