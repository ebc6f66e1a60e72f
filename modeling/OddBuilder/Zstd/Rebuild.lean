import Mathlib.Data.List.TakeWhile
import OddBuilder.Library.Placement
import OddBuilder.Zstd.Compress
import OddBuilder.Zstd.Confined

/-!
# What the extraction builds

An entry as an archive holds it, for an object at a row of names below the output
directory. Where only directories stand on the way, the extractor puts that object
there, with the directories above it. An archive of entries that fit together is
extracted to all of its objects, whatever their order.
-/

namespace JobZstd

open FileTree List JobZstdDecompressor NormalPath

variable {rel base : Location} {items : List (Location × Obj Bytes Bytes)}

section Places

variable {fs : FileSystem}
variable {loc : Location}

/-- Only directories stand on the way to a location. -/
def Clear (fs : FileSystem) (loc : Location) : Prop :=
  ∀ l, l <+: loc → fs.obj l = none ∨ fs.obj l = some .dir

theorem Clear.of_le {front : Location} (h : Clear fs loc) (hle : front <+: loc) :
    Clear fs front :=
  fun l hl => h l (hl.trans hle)

theorem dir_of_le {front : Location} (hdir : fs.obj loc = some .dir) (hle : front <+: loc) :
    fs.obj front = some .dir := by
  obtain ⟨back, rfl⟩ := hle
  by_cases hnil : back = []
  · rwa [hnil, append_nil] at hdir
  · exact fs.dir_above front back hnil hdir

theorem literal_locationNames (loc : Location) : Literal (locationNames loc) loc [] := by
  have hcut := cString_locationNames loc []
  rw [cString, append_nil] at hcut
  refine ⟨?_, Or.inl rfl⟩
  rw [hcut, map_toStep_locationNames, append_nil]

theorem noLink_of_above (h : ∀ l, l <+: loc → ∀ t, fs.obj l ≠ some (.link t)) :
    NoLink fs [] loc := by
  intro front back hsplit t
  exact h front ⟨back, hsplit.symm⟩ t

theorem Clear.noLink (h : Clear fs loc) : NoLink fs [] loc := by
  apply noLink_of_above
  intro l hl t ht
  rcases h l hl with hnone | hdir
  · rw [hnone] at ht
    cases ht
  · rw [hdir] at ht
    cases ht

theorem stat_location {o : Obj Bytes Bytes} (ho : fs.obj loc = some o) (hlink : ∀ t, o ≠ .link t) :
    stat fs (locationNames loc) = some o := by
  rw [stat, resolve_location ho fun t ht => absurd ht (hlink t)]
  exact ho

/-- Where nothing stands, and no link on the way, the path leads to nothing. -/
theorem stat_location_none (hfree : NoLink fs [] loc) (hnone : fs.obj loc = none) :
    stat fs (locationNames loc) = none := by
  rw [stat]
  rcases resolve_cases (literal_locationNames loc) hfree true with h | ⟨front, n, _, h⟩ | h
  · have hfound : walk fs linkTarget true maxLinks loc [] = .found loc := rfl
    rw [h]
    exact hnone
  · rw [h]
  · rw [h]

/-- A free name of a directory is missed. -/
theorem resolve_free {follow : Bool} {n : FileName} (hdir : fs.obj loc = some .dir)
    (hfree : fs.obj (loc ++ [n]) = none) :
    resolve fs follow (locationNames (loc ++ [n])) = .missing loc n := by
  have hloc : walk fs linkTarget true maxLinks [] (loc.map .name) = .found loc :=
    walk_to maxLinks hdir (by rintro t ⟨⟩)
  have hwalk : walk fs linkTarget follow maxLinks [] (loc.map .name ++ [.name n]) = .missing loc n :=
    walk_onto_free maxLinks hdir hfree hloc
  have hlit := (literal_locationNames (loc ++ [n])).steps
  rw [append_nil] at hlit
  rw [resolve, hlit, map_append]
  exact hwalk

/-- What is missing of a clear path is made, directory by directory. -/
theorem createDirs_makes (names : Location) :
    ∀ (fs : FileSystem) (loc : Location) (created : Bool), fs.obj loc = some .dir →
      Clear fs (loc ++ names) → fs.obj (loc ++ names) = none →
      ∃ fs', createDirs fs (locationNames loc) (locationNames names) created = (true, fs') ∧
        ∀ l, fs'.obj l = if l <+: loc ++ names then some .dir else fs.obj l := by
  induction names with
  | nil =>
    intro fs loc created hdir _ hnone
    rw [append_nil, hdir] at hnone
    cases hnone
  | cons n names ih =>
    intro fs loc created hdir hclear hnone
    obtain ⟨hnil, hdot, hup, _⟩ := n.2
    have hplain : ¬ (n.1 = [] ∨ n.1 = dot ∨ n.1 = dotdot) := by
      rintro (h | h | h)
      · exact hnil h
      · exact hdot h
      · exact hup h
    have hstep : locationNames loc ++ [n.1] = locationNames (loc ++ [n]) := by
      simp [locationNames]
    have hcons : locationNames (n :: names) = n.1 :: locationNames names := rfl
    have hsplit : loc ++ n :: names = (loc ++ [n]) ++ names := by simp
    rw [hcons, createDirs, if_neg hplain, hstep]
    rw [hsplit] at hclear hnone ⊢
    have hle : loc ++ [n] <+: loc ++ [n] ++ names := prefix_append _ _
    rcases hclear _ hle with hfree | hthere
    · rw [stat_location_none (hclear.of_le hle).noLink hfree]
      have hmade : mkdir fs (locationNames (loc ++ [n])) = some (fs.put loc n .dir) := by
        rw [mkdir, resolve_free hdir hfree]
      have hobj := fs.put_obj hdir (o := .dir) (by rw [hfree]; rintro ⟨⟩)
      simp only [hmade]
      by_cases hnames : names = []
      · subst hnames
        refine ⟨fs.put loc n .dir, rfl, ?_⟩
        intro l
        rw [hobj, append_nil]
        by_cases hlast : l = loc ++ [n]
        · rw [if_pos hlast, if_pos (by rw [hlast])]
        · rw [if_neg hlast]
          split
          · rename_i hprefix
            have habove : l <+: loc := (prefix_concat_iff.mp hprefix).resolve_left hlast
            exact dir_of_le hdir habove
          · rfl
      · have hlower : loc ++ [n] ++ names ≠ loc ++ [n] := by simpa using hnames
        obtain ⟨fs', hrun, hobj'⟩ := ih (fs.put loc n .dir) (loc ++ [n]) true
          (by rw [hobj, if_pos rfl])
          (by
            intro l hl
            rw [hobj]
            split
            · exact Or.inr rfl
            · exact hclear l hl)
          (by rw [hobj, if_neg hlower]; exact hnone)
        refine ⟨fs', hrun, ?_⟩
        intro l
        rw [hobj' l]
        by_cases hprefix : l <+: loc ++ [n] ++ names
        · rw [if_pos hprefix, if_pos hprefix]
        · have hne : l ≠ loc ++ [n] := by
            rintro rfl
            exact hprefix hle
          rw [if_neg hprefix, if_neg hprefix, hobj, if_neg hne]
    · rw [stat_location hthere (by rintro t ⟨⟩)]
      exact ih fs (loc ++ [n]) false hthere hclear hnone

theorem ensureDirectory_makes (hclear : Clear fs loc) :
    ∃ fs', ensureDirectory fs (locationNames loc) = (true, fs') ∧
      ∀ l, fs'.obj l = if l <+: loc then some .dir else fs.obj l := by
  rcases hclear loc (prefix_refl _) with hfree | hthere
  · have hmissing : pathExists fs (locationNames loc) = false := by
      rw [pathExists, stat_location_none hclear.noLink hfree]
      rfl
    obtain ⟨fs', hrun, hobj⟩ := createDirs_makes loc fs [] false fs.root hclear hfree
    refine ⟨fs', ?_, hobj⟩
    rw [ensureDirectory, hmissing]
    exact hrun
  · have hexists : pathExists fs (locationNames loc) = true := by
      rw [pathExists, stat_location hthere (by rintro t ⟨⟩)]
      rfl
    refine ⟨fs, by rw [ensureDirectory, if_pos hexists], ?_⟩
    intro l
    split
    · rename_i hle
      exact dir_of_le hthere hle
    · rfl

end Places

theorem splitPath_plain {c : Bytes} (hc : slash ∉ c) : splitPath c = [c] := by
  induction c with
  | nil => rfl
  | cons b c ih =>
    have hb : b ≠ slash := fun h => hc (by rw [h]; exact mem_cons_self)
    rw [splitPath, if_neg hb, ih fun h => hc (mem_cons_of_mem b h)]

theorem splitPath_append {c : Bytes} (hc : slash ∉ c) (s : Bytes) :
    splitPath (c ++ slash :: s) = c :: splitPath s := by
  induction c with
  | nil =>
    rw [nil_append, splitPath, if_pos rfl]
  | cons b c ih =>
    have hb : b ≠ slash := fun h => hc (by rw [h]; exact mem_cons_self)
    rw [cons_append, splitPath, if_neg hb, ih fun h => hc (mem_cons_of_mem b h)]

/-- The names of a relative path are read back. -/
theorem splitPath_genericString (hne : rel ≠ []) :
    splitPath (genericString (locationNames rel)) = locationNames rel := by
  induction rel with
  | nil => exact absurd rfl hne
  | cons n rel ih =>
    have hslash : slash ∉ n.1 := n.2.2.2.2.2
    by_cases hnil : rel = []
    · subst hnil
      exact splitPath_plain hslash
    · obtain ⟨m, rest, rfl⟩ := exists_cons_of_ne_nil hnil
      have hstring : genericString (locationNames (n :: m :: rest)) =
          n.1 ++ slash :: genericString (locationNames (m :: rest)) := rfl
      rw [hstring, splitPath_append hslash, ih hnil]
      rfl

theorem genericString_relative (hne : rel ≠ []) :
    (genericString (locationNames rel)).head? ≠ some slash := by
  obtain ⟨n, rest, rfl⟩ := exists_cons_of_ne_nil hne
  obtain ⟨b, name, hname⟩ := exists_cons_of_ne_nil n.2.1
  have hslash : slash ∉ n.1 := n.2.2.2.2.2
  rw [hname] at hslash
  have hhead : (genericString (locationNames (n :: rest))).head? = some b := by
    cases rest with
    | nil =>
      rw [locationNames, map_singleton, hname]
      rfl
    | cons m rest =>
      simp [locationNames, genericString, hname]
  rw [hhead]
  intro h
  exact hslash (by rw [Option.some.inj h]; exact mem_cons_self)

theorem foldl_push_names (rel : Location) : ∀ names : List Bytes,
    (locationNames rel).foldl push ⟨names, false⟩ =
      ⟨names ++ locationNames rel, false⟩ := by
  induction rel with
  | nil =>
    intro names
    simp [locationNames]
  | cons n rel ih =>
    intro names
    obtain ⟨hnil, hdot, hup⟩ := n.2
    have hpush : push ⟨names, false⟩ n.1 = ⟨names ++ [n.1], false⟩ := by
      simp [push, hnil, hdot, hup]
    have hcons : locationNames (n :: rel) = n.1 :: locationNames rel := rfl
    rw [hcons, foldl_cons, hpush, ih, append_assoc]
    rfl

theorem entryPath_location (base : Location) (hne : rel ≠ []) :
    entryPath base (genericString (locationNames rel)) = ⟨locationNames (base ++ rel), false⟩ := by
  rw [entryPath, join, splitPath_genericString hne, foldl_push_names]
  simp [locationNames]

/-- Tag and path of an entry. -/
def entryHeader (kind : JobZstdEntryKind) (rel : Location) : Bytes :=
  writeString (writeString [] (entryMagicString kind)) (genericString (locationNames rel))

/-- The entry that holds an object at a row of names. -/
inductive Encodes (rel : Location) : Obj Bytes Bytes → Bytes → Prop where
  | file (content : Bytes) (hsize : content.length < 2 ^ 64) :
    Encodes rel (.file content)
      (entryHeader .file rel ++ LittleEndian.encode 8 content.length ++ content)
  | directory : Encodes rel .dir (entryHeader .directory rel)
  | emptyDirectory : Encodes rel .dir (entryHeader .emptyDirectory rel)
  | symlink (text : Bytes) (htext : text ≠ [] ∧ 0 ∉ text ∧ text.length ≤ kMaxWireStringLength) :
    Encodes rel (.link text) (writeString (entryHeader .symlink rel) text)

/-- The entries of a list of objects, one behind the other. -/
inductive EncodesAll : List (Location × Obj Bytes Bytes) → Bytes → Prop where
  | nil : EncodesAll [] []
  | cons {item : Location × Obj Bytes Bytes} {items : List (Location × Obj Bytes Bytes)}
    {entry entries : Bytes} (hentry : Encodes item.1 item.2 entry)
    (hentries : EncodesAll items entries) : EncodesAll (item :: items) (entry ++ entries)

theorem EncodesAll.singleton {o : Obj Bytes Bytes} {entry : Bytes} (h : Encodes rel o entry) :
    EncodesAll [(rel, o)] entry := by
  have hone : EncodesAll [(rel, o)] (entry ++ []) := EncodesAll.cons h EncodesAll.nil
  rwa [append_nil] at hone

theorem EncodesAll.append {front back : List (Location × Obj Bytes Bytes)} {bytes rest : Bytes}
    (h : EncodesAll front bytes) (k : EncodesAll back rest) :
    EncodesAll (front ++ back) (bytes ++ rest) := by
  induction h with
  | nil => exact k
  | cons hentry _ ih =>
    rw [append_assoc]
    exact EncodesAll.cons hentry ih

theorem writeString_append (out value rest : Bytes) :
    writeString out value ++ rest = out ++ (writeString [] value ++ rest) := by
  simp [writeString]

theorem entryMagicString_short (kind : JobZstdEntryKind) :
    (entryMagicString kind).length ≤ kMaxWireStringLength := by
  cases kind <;> decide

section Entry

variable {fs : FileSystem} {d : JobZstdDecompressor} {base rel : Location}
variable {loc : Location} {n : FileName}

/-- An entry below the output directory passes the checks. -/
theorem extractEntry_header (hbase : resolve fs true d.baseDir = .found base) (hne : rel ≠ [])
    (hfits : (genericString (locationNames rel)).length ≤ kMaxWireStringLength)
    (hclear : Clear fs (base ++ rel)) (kind : JobZstdEntryKind) (rest : Bytes) :
    d.extractEntry fs (entryHeader kind rel ++ rest) =
      match kind with
      | .directory =>
        extractDirectory fs ⟨locationNames (base ++ rel), false⟩ rest
      | .emptyDirectory =>
        extractDirectory fs ⟨locationNames (base ++ rel), false⟩ rest
      | .symlink => d.extractSymlink fs ⟨locationNames (base ++ rel), false⟩ rest
      | .file => extractFile fs ⟨locationNames (base ++ rel), false⟩ rest := by
  have htag := readString_short (entryMagicString_short kind)
    (writeString [] (genericString (locationNames rel)) ++ rest)
  have hpath := readString_short hfits rest
  have hcomponents : (⟨locationNames (base ++ rel), false⟩ : NormalPath).components =
      locationNames (base ++ rel) := by
    simp [components]
  have hbelow : locationNames base <+: locationNames (base ++ rel) := by
    rw [locationNames, locationNames, map_append]
    exact prefix_append _ _
  have hjoin : safeJoin fs d.baseDir (genericString (locationNames rel)) =
      some ⟨locationNames (base ++ rel), false⟩ := by
    rw [safeJoin_eq hbase, if_neg (genericString_relative hne), entryPath_location base hne,
      hcomponents, if_pos hbelow]
  have hverify : verifyNoSymlinkComponents fs ⟨locationNames (base ++ rel), false⟩ = true := by
    rw [verifyNoSymlinkComponents, hcomponents]
    exact (verifyParts_noLink (literal_locationNames _)).mpr hclear.noLink
  rw [entryHeader, writeString_append]
  cases kind <;> simp only [extractEntry, htag, hpath,
    entryKindFromMagicString_magic, hjoin, hverify, Bool.not_true, Bool.false_eq_true, if_false]

theorem components_location (loc : Location) :
    (⟨locationNames loc, false⟩ : NormalPath).components = locationNames loc := by
  simp [components]

theorem parentPath_location (loc : Location) (n : FileName) :
    (⟨locationNames (loc ++ [n]), false⟩ : NormalPath).parentPath = ⟨locationNames loc, false⟩ := by
  simp [parentPath, locationNames]

theorem extractDirectory_places (hclear : Clear fs loc) (rest : Bytes) :
    ∃ fs', extractDirectory fs ⟨locationNames loc, false⟩ rest =
      (.ok rest, fs') ∧ fs'.obj = place fs.obj loc .dir := by
  obtain ⟨fs', hrun, hobj⟩ := ensureDirectory_makes hclear
  refine ⟨fs', ?_, ?_⟩
  · rw [extractDirectory, components_location, hrun]
  · funext l
    rw [hobj, place]
    by_cases hsame : l = loc
    · subst hsame
      rw [if_pos (prefix_refl _), if_pos rfl]
    · rw [if_neg hsame]

/-- With the directories above it made, an object takes its free name. -/
theorem place_of_put {fs₁ : FileSystem} (o : Obj Bytes Bytes) (hfree : fs.obj (loc ++ [n]) = none)
    (hobj : ∀ l, fs₁.obj l = if l <+: loc then some .dir else fs.obj l) :
    fs₁.obj loc = some .dir ∧ fs₁.obj (loc ++ [n]) = none ∧
      (fs₁.put loc n o).obj = place fs.obj (loc ++ [n]) o := by
  have hdir : fs₁.obj loc = some .dir := by rw [hobj, if_pos (prefix_refl _)]
  have hnone : fs₁.obj (loc ++ [n]) = none := by
    rw [hobj, if_neg, hfree]
    intro hle
    have hlength := hle.length_le
    simp at hlength
  refine ⟨hdir, hnone, ?_⟩
  funext l
  rw [fs₁.put_obj hdir (by rw [hnone]; rintro ⟨⟩), place, hobj]
  by_cases hsame : l = loc ++ [n]
  · rw [if_pos hsame, if_pos hsame]
  · have hiff : l <+: loc ++ [n] ↔ l <+: loc := by
      rw [prefix_concat_iff]
      exact or_iff_right hsame
    simp [hiff]

theorem extractFile_places (hclear : Clear fs loc) (hfree : fs.obj (loc ++ [n]) = none)
    {content : Bytes} (hsize : content.length < 2 ^ 64) (rest : Bytes) :
    ∃ fs', extractFile fs ⟨locationNames (loc ++ [n]), false⟩
        (LittleEndian.encode 8 content.length ++ content ++ rest) = (.ok rest, fs') ∧
      fs'.obj = place fs.obj (loc ++ [n]) (.file content) := by
  obtain ⟨fs₁, hrun, hobj⟩ := ensureDirectory_makes hclear
  obtain ⟨hdir, hnone, hplace⟩ := place_of_put (.file content) hfree hobj
  have hwrite : writeFile fs₁ (locationNames (loc ++ [n])) content =
      some (fs₁.put loc n (.file content)) := by
    rw [writeFile, resolve_free hdir hnone]
  refine ⟨fs₁.put loc n (.file content), ?_, hplace⟩
  have hread := readU64_encode content.length (content ++ rest)
  rw [Nat.mod_eq_of_lt hsize] at hread
  simp only [extractFile, append_assoc, hread, parentPath_location,
    components_location, hrun, take_left, hwrite, drop_left, length_append]
  rw [if_neg (by omega)]

theorem extractSymlink_places (hkeep : d.preserveSymlinks = true) (hclear : Clear fs loc)
    (hfree : fs.obj (loc ++ [n]) = none) {text : Bytes}
    (htext : text ≠ [] ∧ 0 ∉ text ∧ text.length ≤ kMaxWireStringLength) (rest : Bytes) :
    ∃ fs', d.extractSymlink fs ⟨locationNames (loc ++ [n]), false⟩
        (writeString [] text ++ rest) = (.ok rest, fs') ∧
      fs'.obj = place fs.obj (loc ++ [n]) (.link text) := by
  obtain ⟨hnil, hzero, hshort⟩ := htext
  obtain ⟨fs₁, hrun, hobj⟩ := ensureDirectory_makes hclear
  obtain ⟨hdir, hnone, hplace⟩ := place_of_put (.link text) hfree hobj
  have hwhole : text.takeWhile (· ≠ 0) = text := by
    rw [takeWhile_eq_self_iff]
    intro b hb
    simpa using fun h : b = 0 => hzero (h ▸ hb)
  have hlink : createSymlink fs₁ text (locationNames (loc ++ [n])) =
      some (fs₁.put loc n (.link text)) := by
    simp only [createSymlink, hwhole, if_neg hnil, resolve_free hdir hnone]
  refine ⟨fs₁.put loc n (.link text), ?_, hplace⟩
  simp [extractSymlink, readString_short hshort rest, hkeep,
    parentPath_location, components_location, hrun, hlink]

/-- An entry puts its object below the output directory. -/
theorem extractEntry_places (hbase : resolve fs true d.baseDir = .found base) (hne : rel ≠ [])
    (hfits : (genericString (locationNames rel)).length ≤ kMaxWireStringLength)
    (hclear : Clear fs (base ++ rel)) {o : Obj Bytes Bytes}
    (hfree : o = .dir ∨ fs.obj (base ++ rel) = none)
    (hkeep : ∀ t, o = .link t → d.preserveSymlinks = true) {entry : Bytes}
    (hentry : Encodes rel o entry) (rest : Bytes) :
    ∃ fs', d.extractEntry fs (entry ++ rest) = (.ok rest, fs') ∧
      fs'.obj = place fs.obj (base ++ rel) o := by
  obtain ⟨front, n, rfl⟩ : ∃ front n, rel = front ++ [n] := by
    simpa using eq_nil_or_concat rel |>.resolve_left hne
  have habove : Clear fs (base ++ front) := by
    rw [← append_assoc] at hclear
    exact hclear.of_le (prefix_append _ _)
  cases hentry with
  | file content hsize =>
    rcases hfree with hdir | hfree
    · cases hdir
    · rw [append_assoc, append_assoc, extractEntry_header hbase hne hfits hclear .file]
      rw [← append_assoc] at hfree ⊢
      exact extractFile_places habove hfree hsize rest
  | directory =>
    rw [extractEntry_header hbase hne hfits hclear .directory]
    exact extractDirectory_places hclear rest
  | emptyDirectory =>
    rw [extractEntry_header hbase hne hfits hclear .emptyDirectory]
    exact extractDirectory_places hclear rest
  | symlink text htext =>
    rcases hfree with hdir | hfree
    · cases hdir
    · rw [writeString_append, extractEntry_header hbase hne hfits hclear .symlink]
      rw [← append_assoc] at hfree ⊢
      exact extractSymlink_places (hkeep text rfl) habove hfree htext rest

end Entry

/-- Objects below a directory, by their locations. -/
def below (base : Location) (items : List (Location × Obj Bytes Bytes)) :
    List (Location × Obj Bytes Bytes) :=
  items.map fun item => (base ++ item.1, item.2)

theorem mem_below_iff {o : Obj Bytes Bytes} :
    (base ++ rel, o) ∈ below base items ↔ (rel, o) ∈ items := by
  rw [below, mem_map]
  constructor
  · rintro ⟨⟨rel'⟩, hmem, heq⟩
    obtain ⟨hrel, rfl⟩ := Prod.mk.inj heq
    rwa [← append_cancel_left hrel]
  · exact fun hmem => ⟨(rel, o), hmem, rfl⟩

theorem below_compatible (h : Compatible items) (base : Location) :
    Compatible (below base items) := by
  constructor
  · intro x hx y hy hle hne
    obtain ⟨x', hx', rfl⟩ := mem_map.mp hx
    obtain ⟨y', hy', rfl⟩ := mem_map.mp hy
    refine h.below x' hx' y' hy' ((prefix_append_right_inj base).mp hle) ?_
    intro hsame
    exact hne (by simp [hsame])
  · have hmap : (below base items).map Prod.fst = (items.map Prod.fst).map (base ++ ·) := by
      simp [below]
    rw [hmap]
    exact h.nodup.map (append_right_injective base)

/-- Objects that an archive can hold and an extraction with its options takes. -/
def Extractable (d : JobZstdDecompressor) (items : List (Location × Obj Bytes Bytes)) : Prop :=
  ∀ item ∈ items, item.1 ≠ [] ∧
    (genericString (locationNames item.1)).length ≤ kMaxWireStringLength ∧
    ∀ t, item.2 = .link t → d.preserveSymlinks = true

/-- Nothing stands below the output directory. -/
structure Fresh (fs : FileSystem) (base : Location) : Prop where
  dir : fs.obj base = some .dir
  free : ∀ rel, rel ≠ [] → fs.obj (base ++ rel) = none

theorem Fresh.clear {fs : FileSystem} (h : Fresh fs base) (rel : Location) :
    Clear fs (base ++ rel) := by
  intro l hle
  rcases prefix_or_prefix_of_prefix (prefix_append base rel) hle with ⟨below, rfl⟩ | habove
  · by_cases hnil : below = []
    · rw [hnil, append_nil]
      exact Or.inr h.dir
    · exact Or.inl (h.free below hnil)
  · exact Or.inr (dir_of_le h.dir habove)

/-- The entry loop puts object after object. -/
theorem extractEntries_places {d : JobZstdDecompressor} {fs₀ : FileSystem} (hfresh : Fresh fs₀ base)
    {todo : List (Location × Obj Bytes Bytes)} {entries : Bytes}
    (hencodes : EncodesAll todo entries) :
    ∀ (done : List (Location × Obj Bytes Bytes)) (fs : FileSystem),
      fs.obj = placeAll fs₀.obj (below base done) → resolve fs true d.baseDir = .found base →
      Compatible (done ++ todo) → Extractable d todo →
      ∃ fs', d.extractEntries todo.length fs entries = (.ok [], fs') ∧
        fs'.obj = placeAll fs₀.obj (below base (done ++ todo)) := by
  induction hencodes with
  | nil =>
    intro done fs hobj _ _ _
    exact ⟨fs, rfl, by rw [hobj, append_nil]⟩
  | @cons item items entry entries hentry _ ih =>
    intro done fs hobj hbase hcompatible htodo
    obtain ⟨hne, hfits, hkeep⟩ := htodo item mem_cons_self
    rw [append_cons] at hcompatible ⊢
    have hdone : below base (done ++ [item]) = below base done ++ [(base ++ item.1, item.2)] := by
      simp [below]
    have hlast := below_compatible hcompatible.of_append base
    rw [hdone] at hlast
    have hready := placeAll_ready hlast (hfresh.free item.1 hne) (hfresh.clear item.1)
    rw [← hobj] at hready
    obtain ⟨fs₁, hrun, hplaced⟩ := extractEntry_places hbase hne hfits hready.1 hready.2 hkeep hentry
      entries
    have hwithin := extractEntry_within hbase (entry ++ entries)
    rw [hrun] at hwithin
    obtain ⟨fs', hrest, hend⟩ := ih (done ++ [item]) fs₁
      (by rw [hplaced, hdone, placeAll_concat, hobj])
      (walk_mono hwithin.ext maxLinks _ _ _ hbase) hcompatible
      (fun x hx => htodo x (mem_cons_of_mem item hx))
    refine ⟨fs', ?_, hend⟩
    rw [length_cons, extractEntries, hrun]
    exact hrest

/-- An archive is extracted into a fresh directory to all of its objects. -/
theorem decompressFolder_places {d : JobZstdDecompressor} {fs fs₀ : FileSystem}
    (houtput : d.output ≠ []) (hmade : ensureDirectory fs d.baseDir = (true, fs₀))
    (hbase : resolve fs₀ true d.baseDir = .found base) (hfresh : Fresh fs₀ base) {entries : Bytes}
    (hencodes : EncodesAll items entries) (hcompatible : Compatible items)
    (hitems : Extractable d items) (hcount : items.length < 2 ^ 64) :
    ∃ fs', d.decompressFolder fs
        (writeString [] magicDirString ++ LittleEndian.encode 8 items.length ++ entries) =
          (.ok [], fs') ∧
      fs'.obj = placeAll fs₀.obj (below base items) := by
  obtain ⟨fs', hrun, hobj⟩ := extractEntries_places hfresh hencodes [] fs₀ rfl hbase hcompatible hitems
  refine ⟨fs', ?_, hobj⟩
  have hshort : magicDirString.length ≤ kMaxWireStringLength := by decide
  have htag := readString_short hshort (LittleEndian.encode 8 items.length ++ entries)
  have hread := readU64_encode items.length entries
  rw [Nat.mod_eq_of_lt hcount] at hread
  rw [append_assoc]
  simp only [decompressFolder, openOutput, htag, hread, houtput, hmade]
  exact hrun

end JobZstd
