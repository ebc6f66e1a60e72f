import OddBuilder.Zstd.Collect
import OddBuilder.Zstd.Rebuild

/-!
# Folder archives there and back

What an archive of a tree is to be extracted to: every file, every link that is
kept, and every directory unless it is empty and empty directories are dropped.
The walk has an entry for all of them but one kind: a link to a directory that is
gone into. Such a directory is made again only for the sake of something below it.
-/

namespace JobZstd

open FileTree List JobZstdCompressor Option

namespace JobZstdCompressor

/-- A directory that is to be made again: any, or with `preserveEmptyDirectories` off one that has
something in it. -/
def KeptDirectory (c : JobZstdCompressor) (fs : FileSystem) (src rel : Location) : Prop :=
  c.preserveEmptyDirectories = true ∨ ∃ n, c.copied fs src (rel ++ [n]) ≠ none

/-- What stands in a tree has an entry of its own: a file, a kept link, or a kept directory that is
not behind a link. -/
def HasEntry (c : JobZstdCompressor) (fs : FileSystem) (src rel : Location)
    (o : Obj Bytes Bytes) : Prop :=
  c.copied fs src rel = some o ∧
    (o = .dir → c.KeptDirectory fs src rel ∧ isSymlink fs (c.treePath rel) = false)

/-- Links are kept, or below every link to a directory that is to be made again something has an
entry of its own. -/
def LinksBear (c : JobZstdCompressor) (fs : FileSystem) (src : Location) : Prop :=
  c.preserveSymlinks = true ∨ ∀ rel, rel ≠ [] → c.copied fs src rel = some .dir →
    isSymlink fs (c.treePath rel) = true → c.KeptDirectory fs src rel →
      ∃ names, names ≠ [] ∧ ∃ o, c.HasEntry fs src (rel ++ names) o

/-- Below `base` stands what the archive is to hold, and nothing else. -/
def Recreated (c : JobZstdCompressor) (fs : FileSystem) (src : Location) (made : FileSystem)
    (base : Location) : Prop :=
  made.obj base = some .dir ∧ ∀ rel, rel ≠ [] → ∀ o, made.obj (base ++ rel) = some o ↔
    c.copied fs src rel = some o ∧ (o = .dir → c.KeptDirectory fs src rel)

/-- The object of the entry at a row of names, if there is one. -/
def itemAt (c : JobZstdCompressor) (fs : FileSystem) (listing : Listing) (src rel : Location) :
    List (Location × Obj Bytes Bytes) :=
  match c.copied fs src rel with
  | none => []
  | some (.file content) => [(rel, .file content)]
  | some (.link t) => [(rel, .link t)]
  | some .dir =>
    if isSymlink fs (c.treePath rel) then []
    else if c.next fs listing src rel = [] ∧ c.preserveEmptyDirectories = false then []
    else [(rel, .dir)]

end JobZstdCompressor

section Archive

variable {c : JobZstdCompressor} {fs : FileSystem} {listing : Listing} {src : Location}

theorem keptDirectory_iff (h : Archivable c fs listing src) {rel : Location} :
    c.KeptDirectory fs src rel ↔
      ¬ (c.next fs listing src rel = [] ∧ c.preserveEmptyDirectories = false) := by
  have hnext : c.next fs listing src rel ≠ [] ↔ ∃ n, c.copied fs src (rel ++ [n]) ≠ none := by
    rw [ne_eq, eq_nil_iff_forall_not_mem, not_forall]
    exact exists_congr fun n => not_not.trans (mem_next h)
  rw [JobZstdCompressor.KeptDirectory, ← hnext, not_and_or, Bool.not_eq_false, or_comm]

theorem mem_itemAt (h : Archivable c fs listing src) {rel rel' : Location} {o : Obj Bytes Bytes} :
    (rel', o) ∈ c.itemAt fs listing src rel ↔ rel' = rel ∧ c.HasEntry fs src rel o := by
  rw [itemAt, JobZstdCompressor.HasEntry, keptDirectory_iff h]
  split
  · rename_i hnone
    simp [hnone]
  · rename_i content hfile
    rw [hfile, mem_singleton, Prod.mk.injEq]
    refine and_congr_right fun _ => ⟨?_, fun heq => (Option.some.inj heq.1).symm⟩
    rintro rfl
    exact ⟨rfl, by rintro ⟨⟩⟩
  · rename_i t hlink
    rw [hlink, mem_singleton, Prod.mk.injEq]
    refine and_congr_right fun _ => ⟨?_, fun heq => (Option.some.inj heq.1).symm⟩
    rintro rfl
    exact ⟨rfl, by rintro ⟨⟩⟩
  · rename_i hdir
    rw [hdir]
    split
    · rename_i hlink
      rw [hlink]
      constructor
      · rintro ⟨⟩
      · rintro ⟨_, heq, hentry⟩
        cases (hentry (Option.some.inj heq).symm).2
    · rename_i hlink
      rw [Bool.not_eq_true] at hlink
      split
      · rename_i hempty
        constructor
        · rintro ⟨⟩
        · rintro ⟨_, heq, hentry⟩
          exact absurd hempty (hentry (Option.some.inj heq).symm).1
      · rename_i hkept
        rw [mem_singleton, Prod.mk.injEq]
        refine and_congr_right fun _ => ⟨?_, fun heq => (Option.some.inj heq.1).symm⟩
        rintro rfl
        exact ⟨rfl, fun _ => ⟨hkept, hlink⟩⟩

theorem stat_of_file (h : Archivable c fs listing src) {rel : Location} (hne : rel ≠ [])
    {content : Bytes} (hfile : c.copied fs src rel = some (.file content)) :
    stat fs (c.treePath rel) = some (.file content) := by
  by_cases hkeep : c.preserveSymlinks = true
  · obtain ⟨front, n, rfl⟩ : ∃ front n, rel = front ++ [n] := by
      simpa using (eq_nil_or_concat rel).resolve_left hne
    have hdir : c.copied fs src front = some .dir := by
      apply dir_of_copied h
      rw [hfile]
      exact some_ne_none _
    obtain ⟨loc, hloc, _, hkept⟩ := copied_dir h.toInputDirectory hdir
    rw [copied, if_pos hkeep, ← append_assoc, ← hkept hkeep] at hfile
    exact stat_child h.toInputDirectory hloc hfile (by rintro t ⟨⟩)
  · rw [copied, if_neg hkeep] at hfile
    exact hfile

theorem encodeEntries_append {front back : List JobPendingEntry} {bytes rest : Bytes}
    (hfront : encodeEntries fs front = .ok bytes) (hback : encodeEntries fs back = .ok rest) :
    encodeEntries fs (front ++ back) = .ok (bytes ++ rest) := by
  induction front generalizing bytes with
  | nil =>
    obtain rfl : [] = bytes := by simpa [encodeEntries] using hfront
    exact hback
  | cons e front ih =>
    rw [encodeEntries] at hfront
    split at hfront
    · cases hfront
    rename_i entry hentry
    split at hfront
    · cases hfront
    rename_i entries hentries
    obtain rfl : entry ++ entries = bytes := by simpa using hfront
    rw [cons_append, encodeEntries, hentry, ih hentries]
    simp

theorem encodeEntries_singleton {e : JobPendingEntry} {bytes : Bytes}
    (h : encodeEntry fs e = .ok bytes) : encodeEntries fs [e] = .ok bytes := by
  simp [encodeEntries, h]

/-- The walk's entry is the archived form of its object. -/
theorem entryAt_encodes (h : Archivable c fs listing src) {rel : Location} (hne : rel ≠ []) :
    ∃ bytes, encodeEntries fs (c.entryAt fs listing src rel) = .ok bytes ∧
      EncodesAll (c.itemAt fs listing src rel) bytes ∧
      (c.entryAt fs listing src rel).length = (c.itemAt fs listing src rel).length := by
  rw [entryAt, itemAt]
  cases hcopied : c.copied fs src rel with
  | none => exact ⟨[], rfl, .nil, rfl⟩
  | some o =>
    cases o with
    | file content =>
      refine ⟨_, encodeEntries_singleton ?_, .singleton (.file content ?_), rfl⟩
      · simp only [encodeEntry, stat_of_file h hne hcopied]
        rfl
      · exact h.sizeFits rel content hcopied
    | link t =>
      exact ⟨_, encodeEntries_singleton rfl, .singleton (.symlink t (h.textFits rel t hcopied)), rfl⟩
    | dir =>
      by_cases hlink : isSymlink fs (c.treePath rel) = true
      · rw [if_pos hlink, if_pos hlink]
        exact ⟨[], rfl, .nil, rfl⟩
      rw [if_neg hlink, if_neg hlink]
      by_cases hempty : c.next fs listing src rel = []
      · rw [if_pos hempty]
        by_cases hkeep : c.preserveEmptyDirectories = true
        · rw [if_pos hkeep, if_neg (by simp [hkeep])]
          exact ⟨_, encodeEntries_singleton rfl, .singleton .emptyDirectory, rfl⟩
        · rw [if_neg hkeep, if_pos ⟨hempty, by simpa using hkeep⟩]
          exact ⟨[], rfl, .nil, rfl⟩
      · rw [if_neg hempty, if_neg (by simp [hempty])]
        exact ⟨_, encodeEntries_singleton rfl, .singleton .directory, rfl⟩

theorem entries_encode (h : Archivable c fs listing src) (rels : List Location)
    (hrels : ∀ rel ∈ rels, rel ≠ []) :
    ∃ bytes, encodeEntries fs (rels.flatMap (c.entryAt fs listing src)) = .ok bytes ∧
      EncodesAll (rels.flatMap (c.itemAt fs listing src)) bytes ∧
      (rels.flatMap (c.entryAt fs listing src)).length =
        (rels.flatMap (c.itemAt fs listing src)).length := by
  induction rels with
  | nil => exact ⟨[], rfl, .nil, rfl⟩
  | cons rel rels ih =>
    obtain ⟨entry, hentry, hitem, hone⟩ := entryAt_encodes h (hrels rel mem_cons_self)
    obtain ⟨entries, hentries, hitems, hrest⟩ :=
      ih fun r hr => hrels r (mem_cons_of_mem rel hr)
    refine ⟨entry ++ entries, ?_, ?_, ?_⟩
    · exact encodeEntries_append hentry hentries
    · exact hitem.append hitems
    · rw [flatMap_cons, flatMap_cons, length_append, length_append, hone, hrest]

section Items

variable {rels : List Location}
variable {rel base : Location} {fs₀ : FileSystem}

theorem mem_items (h : Archivable c fs listing src)
    (hrels : ∀ rel, rel ∈ rels ↔ rel ≠ [] ∧ c.copied fs src rel ≠ none) {o : Obj Bytes Bytes} :
    (rel, o) ∈ rels.flatMap (c.itemAt fs listing src) ↔ rel ≠ [] ∧ c.HasEntry fs src rel o := by
  rw [mem_flatMap]
  constructor
  · rintro ⟨rel', hmem, hitem⟩
    obtain ⟨rfl, hentry⟩ := (mem_itemAt h).mp hitem
    exact ⟨((hrels rel).mp hmem).1, hentry⟩
  · rintro ⟨hne, hentry⟩
    refine ⟨rel, (hrels rel).mpr ⟨hne, ?_⟩, (mem_itemAt h).mpr ⟨rfl, hentry⟩⟩
    rw [hentry.1]
    exact some_ne_none o

theorem itemAt_sublist (rel : Location) :
    List.Sublist ((c.itemAt fs listing src rel).map Prod.fst) [rel] := by
  rw [itemAt]
  split
  · exact nil_sublist _
  · exact List.Sublist.refl _
  · exact List.Sublist.refl _
  · split
    · exact nil_sublist _
    · split
      · exact nil_sublist _
      · exact List.Sublist.refl _

theorem items_sublist (c : JobZstdCompressor) (fs : FileSystem) (listing : Listing)
    (src : Location) (rels : List Location) :
    List.Sublist ((rels.flatMap (c.itemAt fs listing src)).map Prod.fst) rels := by
  induction rels with
  | nil => exact List.Sublist.refl _
  | cons rel rels ih =>
    rw [flatMap_cons, map_append]
    exact (itemAt_sublist rel).append ih

/-- Objects of one tree fit together. -/
theorem items_compatible (h : Archivable c fs listing src)
    (hrels : ∀ rel, rel ∈ rels ↔ rel ≠ [] ∧ c.copied fs src rel ≠ none) (hnodup : rels.Nodup) :
    Compatible (rels.flatMap (c.itemAt fs listing src)) := by
  constructor
  · rintro ⟨rel⟩ hx ⟨rel', o'⟩ hy ⟨names, hnames⟩ hne
    subst hnames
    have hentry := ((mem_items h hrels).mp hx).2
    have hentry' := ((mem_items h hrels).mp hy).2
    have hnames : names ≠ [] := by
      rintro rfl
      exact hne (append_nil rel).symm
    have hdir : c.copied fs src rel = some .dir := by
      apply dir_above_copied h hnames
      rw [hentry'.1]
      exact some_ne_none o'
    exact Option.some.inj (hentry.1.symm.trans hdir)
  · exact (items_sublist c fs listing src rels).nodup hnodup

theorem items_extractable (h : Archivable c fs listing src)
    (hrels : ∀ rel, rel ∈ rels ↔ rel ≠ [] ∧ c.copied fs src rel ≠ none) {d : JobZstdDecompressor}
    (hsame : d.preserveSymlinks = c.preserveSymlinks) :
    Extractable d (rels.flatMap (c.itemAt fs listing src)) := by
  rintro ⟨rel, o⟩ hmem
  obtain ⟨hne, hcopied, _⟩ := (mem_items h hrels).mp hmem
  refine ⟨hne, h.pathFits rel (by rw [hcopied]; exact some_ne_none o), ?_⟩
  rintro t rfl
  rw [hsame]
  by_contra hkeep
  rw [copied, if_neg hkeep] at hcopied
  exact stat_ne_link hcopied

theorem not_symlink_of_kept (h : Archivable c fs listing src) (hkeep : c.preserveSymlinks = true)
    (hne : rel ≠ []) (hdir : c.copied fs src rel = some .dir) :
    isSymlink fs (c.treePath rel) = false := by
  obtain ⟨front, n, rfl⟩ : ∃ front n, rel = front ++ [n] := by
    simpa using (eq_nil_or_concat rel).resolve_left hne
  have habove : c.copied fs src front = some .dir := by
    apply dir_of_copied h
    rw [hdir]
    exact some_ne_none _
  obtain ⟨loc, hloc, _, hkept⟩ := copied_dir h.toInputDirectory habove
  rw [copied, if_pos hkeep, ← append_assoc, ← hkept hkeep] at hdir
  rw [← Bool.not_eq_true, isSymlink_iff, lstat_child h.toInputDirectory hloc hdir]
  rintro ⟨t, ⟨⟩⟩

/-- What stands below the output directory in the end: what has an entry, and the directories above
it. -/
theorem placed_iff (h : Archivable c fs listing src)
    (hrels : ∀ rel, rel ∈ rels ↔ rel ≠ [] ∧ c.copied fs src rel ≠ none) (hnodup : rels.Nodup)
    (hfresh : Fresh fs₀ base) (hne : rel ≠ []) (o : Obj Bytes Bytes) :
    placeAll fs₀.obj (below base (rels.flatMap (c.itemAt fs listing src))) (base ++ rel) = some o ↔
      c.HasEntry fs src rel o ∨
        (o = .dir ∧ ∃ names, names ≠ [] ∧ ∃ o', c.HasEntry fs src (rel ++ names) o') := by
  have hcompatible := below_compatible (items_compatible h hrels hnodup) base
  rw [placeAll_iff hcompatible (hfresh.free rel hne)]
  apply or_congr
  · rw [mem_below_iff, mem_items h hrels]
    exact and_iff_right hne
  · apply and_congr_right
    rintro rfl
    constructor
    · rintro ⟨item, hitem, hle, hlower⟩
      obtain ⟨⟨rel', o'⟩, hmem, rfl⟩ := mem_map.mp hitem
      obtain ⟨names, rfl⟩ := (prefix_append_right_inj base).mp hle
      refine ⟨names, ?_, o', ((mem_items h hrels).mp hmem).2⟩
      rintro rfl
      exact hlower (by rw [append_nil])
    · rintro ⟨names, hnames, o', hentry⟩
      have hlonger : rel ++ names ≠ [] := by simp [hne]
      refine ⟨(base ++ (rel ++ names), o'), ?_, ?_, ?_⟩
      · exact mem_below_iff.mpr ((mem_items h hrels).mpr ⟨hlonger, hentry⟩)
      · rw [← append_assoc]
        exact prefix_append _ _
      · simpa using hnames

theorem placed_base {items : List (Location × Obj Bytes Bytes)} (h : Compatible items)
    (hitems : ∀ item ∈ items, item.1 ≠ []) (hfresh : Fresh fs₀ base) :
    placeAll fs₀.obj (below base items) base = some .dir := by
  by_cases hsome : ∃ item ∈ below base items, base <+: item.1
  · obtain ⟨item, hmem, hle⟩ := hsome
    refine (placeAll_item fs₀.obj (below_compatible h base) hmem).2 base hle ?_
    obtain ⟨item', hmem', rfl⟩ := mem_map.mp hmem
    simpa using hitems item' hmem'
  · rw [placeAll_other fun item hmem hle => hsome ⟨item, hmem, hle⟩]
    exact hfresh.dir

/-- What is extracted is the tree, exactly if every link to a directory bears something. -/
theorem recreated_iff (h : Archivable c fs listing src)
    (hrels : ∀ rel, rel ∈ rels ↔ rel ≠ [] ∧ c.copied fs src rel ≠ none) (hnodup : rels.Nodup)
    {made : FileSystem} (hfresh : Fresh fs₀ base)
    (hmade : made.obj = placeAll fs₀.obj (below base (rels.flatMap (c.itemAt fs listing src)))) :
    c.Recreated fs src made base ↔ c.LinksBear fs src := by
  constructor
  · rintro ⟨_, hsame⟩
    by_cases hkeep : c.preserveSymlinks = true
    · exact Or.inl hkeep
    · refine Or.inr fun rel hne hdir hlink hkept => ?_
      have hthere := (hsame rel hne .dir).mpr ⟨hdir, fun _ => hkept⟩
      rw [hmade, placed_iff h hrels hnodup hfresh hne] at hthere
      rcases hthere with hentry | ⟨_, hlower⟩
      · rw [(hentry.2 rfl).2] at hlink
        cases hlink
      · exact hlower
  · intro hbear
    have hitems : ∀ item ∈ rels.flatMap (c.itemAt fs listing src), item.1 ≠ [] :=
      fun item hmem => ((mem_items h hrels).mp hmem).1
    refine ⟨by rw [hmade]; exact placed_base (items_compatible h hrels hnodup) hitems hfresh, ?_⟩
    intro rel hne o
    rw [hmade, placed_iff h hrels hnodup hfresh hne]
    constructor
    · rintro (hentry | ⟨rfl, names, hnames, o', hentry⟩)
      · exact ⟨hentry.1, fun hdir => (hentry.2 hdir).1⟩
      · -- a directory above something is one of the tree, and not empty
        obtain ⟨n, back, rfl⟩ := exists_cons_of_ne_nil hnames
        have hlower : c.copied fs src (rel ++ n :: back) ≠ none := by
          rw [hentry.1]
          exact some_ne_none o'
        refine ⟨dir_above_copied h (cons_ne_nil n back) hlower, fun _ => Or.inr ⟨n, ?_⟩⟩
        by_cases hlast : back = []
        · rwa [hlast] at hlower
        · rw [append_cons] at hlower
          rw [dir_above_copied h hlast hlower]
          exact some_ne_none _
    · rintro ⟨hcopied, hkept⟩
      by_cases hdir : o = .dir
      · subst hdir
        by_cases hlink : isSymlink fs (c.treePath rel) = true
        · rcases hbear with hkeep | hbear
          · rw [not_symlink_of_kept h hkeep hne hcopied] at hlink
            cases hlink
          · exact Or.inr ⟨rfl, hbear rel hne hcopied hlink (hkept rfl)⟩
        · exact Or.inl ⟨hcopied, fun hdir => ⟨hkept hdir, by simpa using hlink⟩⟩
      · exact Or.inl ⟨hcopied, fun heq => absurd heq hdir⟩

end Items

/-- A tree is archived, and the archive is extracted into a fresh directory to the same tree if and
only if links are kept or every link to a directory bears something. -/
theorem folder_round_trip_iff (c : JobZstdCompressor) (fs : FileSystem) (listing : Listing)
    (src : Location) (h : Archivable c fs listing src) (hrecursive : c.recursiveDirectories = true) :
    ∃ archive, (∃ bound, ∀ depth, bound ≤ depth → c.compressFolder fs listing depth = .ok archive) ∧
      ∀ (d : JobZstdDecompressor) (out opened : FileSystem) (base : Location),
        d.preserveSymlinks = c.preserveSymlinks → d.output ≠ [] →
        ensureDirectory out d.baseDir = (true, opened) →
        resolve opened true d.baseDir = .found base → Fresh opened base →
        ∃ made, d.decompressFolder out archive = (.ok [], made) ∧
          (c.Recreated fs src made base ↔ c.LinksBear fs src) := by
  obtain ⟨bound, hbound, hcollect⟩ := collectEntries_eq h
  let rels := Preorder.preorder (c.next fs listing src) bound []
  let items := rels.flatMap (c.itemAt fs listing src)
  have hrels : ∀ rel, rel ∈ rels ↔ rel ≠ [] ∧ c.copied fs src rel ≠ none :=
    fun rel => mem_below h hbound
  have hnodup : rels.Nodup := Preorder.nodup_preorder (nodup_next h) bound []
  obtain ⟨bytes, hbytes, hencodes, hlength⟩ :=
    entries_encode h rels fun rel hmem => ((hrels rel).mp hmem).1
  refine ⟨writeString [] magicDirString ++ LittleEndian.encode 8 items.length ++ bytes,
    ⟨bound, fun depth hdepth => ?_⟩, ?_⟩
  · simp only [compressFolder, hcollect depth hdepth, hrecursive, if_true]
    rw [entriesBelow, hbytes, hlength]
  · intro d out opened base hsame houtput hmade hbase hfresh
    have hcount : items.length < 2 ^ 64 := by
      have hshorter := (items_sublist c fs listing src rels).length_le
      have hfits := h.countFits rels hnodup fun rel => (hrels rel).mp
      rw [length_map] at hshorter
      exact lt_of_le_of_lt hshorter hfits
    obtain ⟨made, hrun, hobj⟩ := decompressFolder_places houtput hmade hbase hfresh hencodes
      (items_compatible h hrels hnodup) (items_extractable h hrels hsame) hcount
    exact ⟨made, hrun, recreated_iff h hrels hnodup hfresh hobj⟩

end Archive

def inName : FileName := ⟨ascii ['i', 'n'], by decide⟩

def dirName : FileName := ⟨ascii ['d'], by decide⟩

/-- The directory `/in` with an empty directory `d` and a link `l` to it. -/
def linkedObj (loc : Location) : Option (Obj Bytes Bytes) :=
  if loc = [] ∨ loc = [inName] ∨ loc = [inName, dirName] then some .dir
  else if loc = [inName, linkName] then some (.link (ascii ['d']))
  else none

theorem linked_children {loc : Location} {n : FileName} (h : linkedObj (loc ++ [n]) ≠ none) :
    (loc = [] ∧ n = inName) ∨ (loc = [inName] ∧ (n = dirName ∨ n = linkName)) := by
  have hpair (front : Location) (b : FileName) (heq : loc ++ [n] = front ++ [b]) :
      loc = front ∧ n = b := by
    have hboth := append_inj' heq rfl
    exact ⟨hboth.1, singleton_inj.mp hboth.2⟩
  rw [linkedObj] at h
  split at h
  · rename_i hdir
    rcases hdir with hnil | hin | hdir
    · simp at hnil
    · exact Or.inl (hpair [] inName hin)
    · obtain ⟨hloc, hn⟩ := hpair [inName] dirName hdir
      exact Or.inr ⟨hloc, Or.inl hn⟩
  · split at h
    · rename_i hlink
      obtain ⟨hloc, hn⟩ := hpair [inName] linkName hlink
      exact Or.inr ⟨hloc, Or.inr hn⟩
    · exact absurd rfl h

def linkedTree : FileSystem where
  obj := linkedObj
  root := rfl
  parent := by
    intro loc n o h
    rcases linked_children (by rw [h]; exact Option.some_ne_none o) with ⟨rfl, _⟩ | ⟨rfl, _⟩
    · rfl
    · rfl

def linkedListing : Listing := fun loc =>
  if loc = [] then [inName] else if loc = [inName] then [dirName, linkName] else []

def linkedCompressor (preserveSymlinks : Bool) : JobZstdCompressor :=
  ⟨[], ascii ['/', 'i', 'n'], true, preserveSymlinks, true⟩

theorem linked_input (keep : Bool) : InputDirectory (linkedCompressor keep) linkedTree [inName] := by
  cases keep <;> exact ⟨by decide, by decide, rfl⟩

/-- Where the paths of the walk lead. -/
theorem linked_reached {keep : Bool} {rel : Location} : ∀ {loc : Location},
    resolve linkedTree true ((linkedCompressor keep).treePath rel) = .found loc →
    (rel = [] ∧ loc = [inName]) ∨ ((rel = [dirName] ∨ rel = [linkName]) ∧ loc = [inName, dirName]) := by
  have hinput := linked_input keep
  induction rel using List.reverseRecOn with
  | nil =>
    intro loc h
    exact Or.inl ⟨rfl, (Walk.found.inj (hinput.input.symm.trans h)).symm⟩
  | append_singleton rel n ih =>
    intro loc h
    have hwalk := (walk_treePath hinput).mp h
    rw [map_append, ← append_assoc] at hwalk
    obtain ⟨above, habove, _, hthere⟩ := walk_split_name maxLinks hwalk
    have hchild := linked_children hthere
    rcases ih ((walk_treePath hinput).mpr habove) with ⟨rfl, rfl⟩ | ⟨_, rfl⟩
    · rcases hchild with ⟨hnil, _⟩ | ⟨_, rfl | rfl⟩
      · cases hnil
      · have hfound : resolve linkedTree true ((linkedCompressor keep).treePath [dirName]) =
            .found [inName, dirName] := by
          cases keep <;> decide
        exact Or.inr ⟨Or.inl rfl, (Walk.found.inj (hfound.symm.trans h)).symm⟩
      · have hfound : resolve linkedTree true ((linkedCompressor keep).treePath [linkName]) =
            .found [inName, dirName] := by
          cases keep <;> decide
        exact Or.inr ⟨Or.inr rfl, (Walk.found.inj (hfound.symm.trans h)).symm⟩
    · rcases hchild with ⟨hnil, _⟩ | ⟨hin, _⟩
      · cases hnil
      · cases hin

/-- The tree has two names below the input directory. -/
theorem linked_copied {keep : Bool} {rel : Location}
    (h : (linkedCompressor keep).copied linkedTree [inName] rel ≠ none) :
    rel = [] ∨ rel = [dirName] ∨ rel = [linkName] := by
  cases keep with
  | false =>
    have hcopied : (linkedCompressor false).copied linkedTree [inName] rel =
        stat linkedTree ((linkedCompressor false).treePath rel) := rfl
    rw [hcopied, stat] at h
    split at h
    · rename_i loc hloc
      rcases linked_reached hloc with ⟨hnil, _⟩ | ⟨hone, _⟩
      · exact Or.inl hnil
      · exact Or.inr hone
    · exact absurd rfl h
  | true =>
    have hcopied : (linkedCompressor true).copied linkedTree [inName] rel =
        linkedObj ([inName] ++ rel) := rfl
    rw [hcopied] at h
    obtain rfl | ⟨front, n, rfl⟩ : rel = [] ∨ ∃ front n, rel = front ++ [n] := by
      simpa using eq_nil_or_concat rel
    · exact Or.inl rfl
    · rw [← append_assoc] at h
      rcases linked_children h with ⟨hnil, _⟩ | ⟨hin, hn⟩
      · cases hnil
      · obtain rfl : front = [] := by simpa using hin
        rcases hn with rfl | rfl
        · exact Or.inr (Or.inl rfl)
        · exact Or.inr (Or.inr rfl)

theorem linked_listed (loc : Location) (h : linkedTree.obj loc = some .dir) :
    (linkedListing loc).Nodup ∧
      ∀ n, n ∈ linkedListing loc ↔ linkedTree.obj (loc ++ [n]) ≠ none := by
  have hloc : loc = [] ∨ loc = [inName] ∨ loc = [inName, dirName] := by
    by_contra hother
    have hobj : linkedObj loc = some .dir := h
    rw [linkedObj, if_neg hother] at hobj
    split at hobj
    · cases hobj
    · cases hobj
  have hnames : ∀ n, n ∈ linkedListing loc → linkedTree.obj (loc ++ [n]) ≠ none := by
    rcases hloc with rfl | rfl | rfl <;> decide
  constructor
  · rcases hloc with rfl | rfl | rfl <;> decide
  · intro n
    refine ⟨hnames n, fun hthere => ?_⟩
    rcases linked_children hthere with ⟨rfl, rfl⟩ | ⟨rfl, rfl | rfl⟩ <;> decide

theorem linked_archivable (keep : Bool) :
    Archivable (linkedCompressor keep) linkedTree linkedListing [inName] where
  toInputDirectory := linked_input keep
  finite := by
    refine ⟨[[], [inName], [inName, dirName], [inName, linkName]], ?_⟩
    intro loc h
    obtain rfl | ⟨front, n, rfl⟩ : loc = [] ∨ ∃ front n, loc = front ++ [n] := by
      simpa using eq_nil_or_concat loc
    · decide
    · rcases linked_children h with ⟨rfl, rfl⟩ | ⟨rfl, rfl | rfl⟩ <;> decide
  listed := linked_listed
  unbroken := by
    intro rel loc n _ hloc hthere
    have hchild := linked_children hthere
    rcases linked_reached hloc with ⟨rfl, rfl⟩ | ⟨_, rfl⟩
    · rcases hchild with ⟨hnil, _⟩ | ⟨_, rfl | rfl⟩
      · cases hnil
      · cases keep <;> decide
      · cases keep <;> decide
    · rcases hchild with ⟨hnil, _⟩ | ⟨hin, _⟩
      · cases hnil
      · cases hin
  acyclic := by
    intro _ front n back loc hfront _ hsame
    rcases linked_reached hfront with ⟨rfl, rfl⟩ | ⟨hone⟩
    · rcases linked_reached hsame with ⟨hnil, _⟩ | ⟨_, hloc⟩
      · cases hnil
      · cases hloc
    · rcases linked_reached hsame with ⟨hnil⟩ | ⟨hlong⟩
      · simp at hnil
      · rcases hone with rfl | rfl <;> simp at hlong
  pathFits := by
    intro rel h
    rcases linked_copied h with rfl | rfl | rfl <;> decide
  textFits := by
    intro rel t h
    have hsome : (linkedCompressor keep).copied linkedTree [inName] rel ≠ none := by
      rw [h]
      exact some_ne_none _
    cases keep with
    | false => exact absurd h stat_ne_link
    | true =>
      have hlink : linkedObj ([inName] ++ rel) = some (.link t) := h
      rcases linked_copied hsome with rfl | rfl | rfl
      · cases hlink
      · cases hlink
      · obtain rfl : ascii ['d'] = t := by
          have htext : linkedObj [inName, linkName] = some (.link (ascii ['d'])) := rfl
          exact Obj.link.inj (Option.some.inj (htext.symm.trans hlink))
        decide
  sizeFits := by
    intro rel content h
    have hsome : (linkedCompressor keep).copied linkedTree [inName] rel ≠ none := by
      rw [h]
      exact some_ne_none _
    have hobj : (linkedCompressor keep).copied linkedTree [inName] rel = some .dir ∨
        (linkedCompressor keep).copied linkedTree [inName] rel = some (.link (ascii ['d'])) := by
      rcases linked_copied hsome with rfl | rfl | rfl <;> cases keep <;> decide
    rcases hobj with hobj | hobj
    · cases hobj.symm.trans h
    · cases hobj.symm.trans h
  countFits := by
    intro rels hnodup hrels
    have hsubset : rels ⊆ [[dirName], [linkName]] := by
      intro rel hrel
      obtain ⟨hne, hsome⟩ := hrels rel hrel
      rcases linked_copied hsome with rfl | rfl | rfl
      · exact absurd rfl hne
      · decide
      · decide
    have hle := (hnodup.subperm hsubset).length_le
    have htwo : [[dirName], [linkName]].length = 2 := rfl
    omega

/-- The directory `/out`. -/
def outTree : FileSystem := rootTree.put [] outName .dir

def outDecompressor (preserveSymlinks : Bool) : JobZstdDecompressor :=
  ⟨[], ascii ['/', 'o', 'u', 't'], preserveSymlinks⟩

theorem outTree_fresh : Fresh outTree [outName] := by
  constructor
  · decide
  · intro rel hne
    have hdir : rootTree.obj [] = some .dir := rfl
    have hleaf : rootTree.obj ([] ++ [outName]) ≠ some .dir := by decide
    have hobj := rootTree.put_obj hdir hleaf .dir ([outName] ++ rel)
    have hroot : rootTree.obj ([outName] ++ rel) = none := by simp [rootTree]
    have hother : [outName] ++ rel ≠ [] ++ [outName] := by simpa using hne
    rw [outTree, hobj, if_neg hother]
    exact hroot

theorem folder_round_trip_linked :
    ∃ archive, (∃ bound, ∀ depth, bound ≤ depth →
        (linkedCompressor true).compressFolder linkedTree linkedListing depth = .ok archive) ∧
      ∃ made, (outDecompressor true).decompressFolder outTree archive = (.ok [], made) ∧
        (linkedCompressor true).Recreated linkedTree [inName] made [outName] := by
  obtain ⟨archive, hcompress, hextract⟩ := folder_round_trip_iff (linkedCompressor true) linkedTree
    linkedListing [inName] (linked_archivable true) rfl
  have hthere : ensureDirectory outTree (outDecompressor true).baseDir = (true, outTree) :=
    if_pos (by decide)
  obtain ⟨made, hrun, hiff⟩ := hextract (outDecompressor true) outTree outTree [outName] rfl
    (by decide) hthere (by decide) outTree_fresh
  exact ⟨archive, hcompress, made, hrun, hiff.mpr (Or.inl rfl)⟩

/-- The only entry is that of `d`. -/
def linkedArchive : Bytes :=
  writeString [] magicDirString ++ LittleEndian.encode 8 1 ++ entryHeader .emptyDirectory [dirName]

/-- With links followed, the copy of the directory behind `l` is not made, although empty directories are
kept. -/
theorem link_to_empty_directory_lost :
    Archivable (linkedCompressor false) linkedTree linkedListing [inName] ∧
      ((linkedCompressor false).compressFolder linkedTree linkedListing 3).toOption =
        some linkedArchive ∧
      let run := (outDecompressor false).decompressFolder outTree linkedArchive
      run.1.toOption = some [] ∧ run.2.obj [outName, dirName] = some .dir ∧
        stat linkedTree ((linkedCompressor false).treePath [linkName]) = some .dir ∧
        run.2.obj [outName, linkName] = none ∧
        ¬ (linkedCompressor false).Recreated linkedTree [inName] run.2 [outName] := by
  have hcopied : (linkedCompressor false).copied linkedTree [inName] [linkName] = some .dir := by
    decide
  have hlost : ((outDecompressor false).decompressFolder outTree linkedArchive).2.obj
      [outName, linkName] = none := by
    decide
  refine ⟨linked_archivable false, by decide, by decide, by decide,
    by decide, hlost, ?_⟩
  rintro ⟨_, hsame⟩
  have hmade := (hsame [linkName] (by simp) .dir).mpr ⟨hcopied, fun _ => Or.inl rfl⟩
  cases hlost.symm.trans hmade

end JobZstd
