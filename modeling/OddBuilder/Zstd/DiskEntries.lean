import OddBuilder.Zstd.Archive
import OddBuilder.Zstd.DiskFaults

/-!
# Results of a walk

The entries that a walk lists are for different rows of names, since a directory
lists no name twice. With what stops a walk this settles how it ends. A walk that
follows links can be refused at a plain directory, where a link leads above it.
-/

namespace JobZstd

open FileTree List

namespace Disk

section Listed

variable {d : Disk} {c : JobZstdCompressor}

/-- The entries are for different rows of names, all of which lead on from here. -/
def Listed (entries : List JobPendingEntry) (inside : Location → Prop) : Prop :=
  ∃ rels : List Location, entries.map JobPendingEntry.relativePath = rels.map locationNames ∧
    rels.Nodup ∧ ∀ r ∈ rels, inside r

theorem Listed.nil (inside : Location → Prop) : Listed [] inside :=
  ⟨[], rfl, nodup_nil, by simp⟩

theorem Listed.mono {entries : List JobPendingEntry} {inside outside : Location → Prop}
    (h : Listed entries inside) (hmono : ∀ r, inside r → outside r) : Listed entries outside := by
  obtain ⟨rels, hpaths, hnodup, hinside⟩ := h
  exact ⟨rels, hpaths, hnodup, fun r hr => hmono r (hinside r hr)⟩

theorem Listed.append {entries more : List JobPendingEntry} {inside outside both : Location → Prop}
    (h : Listed entries inside) (hmore : Listed more outside)
    (hapart : ∀ r, inside r → ¬outside r) (hin : ∀ r, inside r → both r)
    (hout : ∀ r, outside r → both r) : Listed (entries ++ more) both := by
  obtain ⟨rels, hpaths, hnodup, hinside⟩ := h
  obtain ⟨others, hothers, hdistinct, houtside⟩ := hmore
  refine ⟨rels ++ others, by rw [map_append, map_append, hpaths, hothers], ?_, ?_⟩
  · refine nodup_append.mpr ⟨hnodup, hdistinct, ?_⟩
    rintro r hr q hq rfl
    exact hapart r (hinside r hr) (houtside r hq)
  · exact forall_mem_append.mpr
      ⟨fun r hr => hin r (hinside r hr), fun r hr => hout r (houtside r hr)⟩

theorem Listed.one {e : JobPendingEntry} {r : Location} (h : e.relativePath = locationNames r) :
    Listed [e] (· = r) :=
  ⟨[r], by rw [map_singleton, h]; rfl, nodup_singleton r, by simp⟩

/-- Below a row of names. -/
def Below (rel : Location) (r : Location) : Prop := ∃ n back, r = rel ++ n :: back

theorem Below.up {rel r : Location} {n : FileName} (h : Below (rel ++ [n]) r) : Below rel r := by
  obtain ⟨m, back, rfl⟩ := h
  exact ⟨n, m :: back, by simp⟩

/-- What the turn for a child adds is for the child and what is below it. -/
theorem visitChild_listed {recurse : List Bytes → WalkState → Option (WalkEnd × WalkState)}
    {stack : List NormalPath} {rel : Location} {n : FileName}
    (hframed : Framed stack (recurse (c.treePath (rel ++ [n]))))
    (h : ∀ x, recurse (c.treePath (rel ++ [n])) ⟨[], stack⟩ = some x →
      Listed x.2.entries (Below (rel ++ [n]))) {x : WalkEnd × WalkState}
    (hx : d.visitChild c recurse (c.treePath (rel ++ [n])) ⟨[], stack⟩ = some x) :
    Listed x.2.entries fun r => ∃ back, r = rel ++ n :: back := by
  have hrelative : lexicallyRelative (c.treePath (rel ++ [n])) c.root =
      locationNames (rel ++ [n]) :=
    lexicallyRelative_treePath c (concat_ne_nil n rel)
  have hone {e : JobPendingEntry}
      (he : e.relativePath = lexicallyRelative (c.treePath (rel ++ [n])) c.root) :
      Listed [e] fun r => ∃ back, r = rel ++ n :: back :=
    (Listed.one (he.trans hrelative)).mono fun r hr => ⟨[], hr⟩
  have hdeeper : ∀ y, recurse (c.treePath (rel ++ [n])) ⟨[], stack⟩ = some y →
      Listed y.2.entries fun r => ∃ back, r = rel ++ n :: back := by
    intro y hy
    refine (h y hy).mono ?_
    rintro r ⟨m, back, rfl⟩
    exact ⟨m :: back, by simp⟩
  have htarget : ∀ y, d.visitTarget c recurse (c.treePath (rel ++ [n])) ⟨[], stack⟩ = some y →
      Listed y.2.entries fun r => ∃ back, r = rel ++ n :: back := by
    intro y hy
    rw [visitTarget] at hy
    split at hy
    · cases hy
      exact Listed.nil _
    · rw [WalkState.append, hframed] at hy
      obtain ⟨z, hz, rfl⟩ := Option.map_eq_some_iff.mp hy
      have hbelow := h z hz
      have hentry : Listed (c.directoryEntry d.fs d.listing (c.treePath (rel ++ [n])))
          (· = rel ++ [n]) := by
        rw [JobZstdCompressor.directoryEntry]
        split
        · split
          · exact Listed.one hrelative
          · exact Listed.nil _
        · exact Listed.one hrelative
      refine hentry.append hbelow ?_ ?_ ?_
      · rintro r rfl ⟨m, back, hr⟩
        have hlength := congrArg List.length hr
        simp at hlength
      · rintro r rfl
        exact ⟨[], rfl⟩
      · rintro r ⟨m, back, rfl⟩
        exact ⟨m :: back, by simp⟩
    · cases hy
      exact hone rfl
    · cases hy
      exact Listed.nil _
  rw [visitChild] at hx
  split at hx
  · split at hx
    · cases hx
      exact Listed.nil _
    · split at hx
      · cases hx
        exact Listed.nil _
      · cases hx
        exact Listed.nil _
    · split at hx
      · cases hx
        exact hone rfl
      · exact hdeeper _ hx
    · split at hx
      · cases hx
        exact hone rfl
      · exact htarget _ hx
  · exact htarget _ hx

theorem visitChildren_listed {recurse : List Bytes → WalkState → Option (WalkEnd × WalkState)}
    {stack : List NormalPath} {rel : Location} (hframed : ∀ path, Framed stack (recurse path))
    (h : ∀ n x, recurse (c.treePath (rel ++ [n])) ⟨[], stack⟩ = some x →
      Listed x.2.entries (Below (rel ++ [n]))) (names : List FileName) :
    names.Nodup → ∀ x, d.visitChildren c recurse (c.treePath rel) names ⟨[], stack⟩ = some x →
      Listed x.2.entries fun r => ∃ n ∈ names, ∃ back, r = rel ++ n :: back := by
  induction names with
  | nil =>
    intro _ x hx
    cases hx
    exact Listed.nil _
  | cons n rest ih =>
    intro hnodup x hx
    obtain ⟨hn, hrest⟩ := nodup_cons.mp hnodup
    rw [visitChildren_cons n rest hframed (Framed.visitChildren hframed _ rest),
      ← treePath_concat] at hx
    cases hvisit : d.visitChild c recurse (c.treePath (rel ++ [n])) ⟨[], stack⟩ with
    | none =>
      rw [hvisit] at hx
      cases hx
    | some y =>
      rw [hvisit] at hx
      have hfirst := visitChild_listed (hframed _) (h n) hvisit
      have hhere : ∀ r, (∃ back, r = rel ++ n :: back) →
          ∃ m ∈ n :: rest, ∃ back, r = rel ++ m :: back :=
        fun r hr => ⟨n, mem_cons_self, hr⟩
      obtain ⟨ended⟩ := y
      cases ended with
      | done =>
        obtain ⟨z, hz, rfl⟩ := Option.map_eq_some_iff.mp hx
        refine hfirst.append (ih hrest z hz) ?_ hhere ?_
        · rintro r ⟨back, rfl⟩ ⟨m, hm, other, hr⟩
          obtain ⟨rfl⟩ := List.cons.inj (append_cancel_left hr)
          exact hn hm
        · rintro r ⟨m, hm, hr⟩
          exact ⟨m, mem_cons_of_mem n hm, hr⟩
      | refused error =>
        cases hx
        exact hfirst.mono hhere
      | thrown =>
        cases hx
        exact hfirst.mono hhere

/-- Whatever a call lists, it lists once. -/
theorem collectEntriesRecursive_listed (depth : Nat) :
    ∀ (stack : List NormalPath) (rel : Location) (x : WalkEnd × WalkState),
      d.collectEntriesRecursive c depth (c.treePath rel) ⟨[], stack⟩ = some x →
      Listed x.2.entries (Below rel) := by
  induction depth with
  | zero =>
    intro stack rel x hx
    cases hx
  | succ depth ih =>
    intro stack rel x hx
    rw [collectEntriesRecursive] at hx
    split at hx
    · cases hx
      exact Listed.nil _
    dsimp only at hx
    split at hx
    · cases hx
      exact Listed.nil _
    obtain ⟨y, hy, rfl⟩ := Option.map_eq_some_iff.mp hx
    split at hy
    · cases hy
      exact Listed.nil _
    · next names hnames =>
      have hnodup : names.Nodup := by
        rw [directoryEntries] at hnames
        split at hnames
        · next loc _ =>
          obtain ⟨hdir, heq⟩ := Option.ite_none_right_eq_some.mp hnames
          obtain rfl := Option.some.inj heq
          exact (d.listed loc ((d.fs.isDir_iff loc).mp hdir)).1
        · cases hnames
      have hloop := visitChildren_listed
        (collectEntriesRecursive_framed d c depth _) (fun n => ih _ (rel ++ [n])) names hnodup y hy
      refine hloop.mono ?_
      rintro r ⟨n, _, back, hr⟩
      exact ⟨n, back, hr⟩

end Listed

/-- The directory `/in/d` with a link `l` to `/in`. -/
def backObj (loc : Location) : Option (Obj Bytes Bytes) :=
  if loc = [] ∨ loc = [inName] ∨ loc = [inName, dirName] then some .dir
  else if loc = [inName, dirName, linkName] then some (.link (ascii ['/', 'i', 'n']))
  else none

theorem back_children {loc : Location} {n : FileName} (h : backObj (loc ++ [n]) ≠ none) :
    (loc = [] ∧ n = inName) ∨ (loc = [inName] ∧ n = dirName) ∨
      (loc = [inName, dirName] ∧ n = linkName) := by
  have hpair (front : Location) (b : FileName) (heq : loc ++ [n] = front ++ [b]) :
      loc = front ∧ n = b := by
    have hboth := append_inj' heq rfl
    exact ⟨hboth.1, singleton_inj.mp hboth.2⟩
  rw [backObj] at h
  split at h
  · next hdir =>
    rcases hdir with hnil | hin | hdir
    · simp at hnil
    · exact Or.inl (hpair [] inName hin)
    · exact Or.inr (Or.inl (hpair [inName] dirName hdir))
  · split at h
    · next hlink => exact Or.inr (Or.inr (hpair [inName, dirName] linkName hlink))
    · exact absurd rfl h

def backTree : FileSystem where
  obj := backObj
  root := rfl
  parent := by
    intro loc n o h
    have hsome : backObj (loc ++ [n]) ≠ none := by
      rw [h]
      exact Option.some_ne_none o
    rcases back_children hsome with ⟨rfl, _⟩ | ⟨rfl, _⟩ | ⟨rfl, _⟩
    · rfl
    · rfl
    · rfl

def backDisk : Disk where
  fs := backTree
  listing loc :=
    if loc = [] then [inName] else if loc = [inName] then [dirName]
    else if loc = [inName, dirName] then [linkName] else []
  special _ := false
  finite := by
    refine ⟨[[], [inName], [inName, dirName], [inName, dirName, linkName]], ?_⟩
    intro loc hloc
    have hobj : backObj loc ≠ none := hloc
    rw [backObj] at hobj
    split at hobj
    · simp only [List.mem_cons]
      tauto
    · split at hobj
      · simp only [List.mem_cons]
        tauto
      · exact absurd rfl hobj
  listed := by
    intro loc hdir
    have hobj : backObj loc = some .dir := hdir
    rw [backObj] at hobj
    split at hobj
    · next hdirs =>
      refine ⟨by rcases hdirs with rfl | rfl | rfl <;> decide, fun n => ?_⟩
      constructor
      · rcases hdirs with rfl | rfl | rfl
        · intro hn
          obtain rfl := List.mem_singleton.mp hn
          exact Option.some_ne_none _
        · intro hn
          obtain rfl := List.mem_singleton.mp hn
          exact Option.some_ne_none _
        · intro hn
          obtain rfl := List.mem_singleton.mp hn
          exact Option.some_ne_none _
      · intro hn
        rcases back_children hn with ⟨rfl, rfl⟩ | ⟨rfl, rfl⟩ | ⟨rfl, rfl⟩
        · decide
        · decide
        · decide
    · split at hobj
      · cases hobj
      · cases hobj

/-- The input is `/in/d`, and links are followed. -/
def backCompressor : JobZstdCompressor :=
  ⟨[], ascii ['/', 'i', 'n', '/', 'd'], true, false, true⟩

theorem back_input : InputDirectory backCompressor backDisk.fs [inName, dirName] :=
  ⟨by decide, by decide, rfl⟩

/-- Where the only child is a directory, it is on the path or the walk goes on in it. -/
theorem Meets.only {d : Disk} {c : JobZstdCompressor} {fault : Fault} {stack : List NormalPath}
    {rel : Location} {n : FileName} (h : d.Meets c fault stack rel) (hnames : d.names c rel = [n])
    (hstatus : d.status (c.treePath (rel ++ [n])) = .directory) :
    (weaklyCanonical d.fs (c.treePath (rel ++ [n])) ∈ stack ∧
      (isSymlink d.fs (c.treePath (rel ++ [n])) = false → fault = .backToAncestor)) ∨
    (weaklyCanonical d.fs (c.treePath (rel ++ [n])) ∉ stack ∧
      d.Meets c fault (stack ++ [weaklyCanonical d.fs (c.treePath (rel ++ [n]))])
        (rel ++ [n])) := by
  have hone : ∀ {m : FileName}, m ∈ d.names c rel → m = n := by
    intro m hm
    rw [hnames] at hm
    exact mem_singleton.mp hm
  cases h with
  | brokenLink hm _ hother =>
    obtain rfl := hone hm
    rw [hstatus] at hother
    cases hother
  | endlessLink hm _ hother =>
    obtain rfl := hone hm
    rw [hstatus] at hother
    cases hother
  | specialFile hm _ hother =>
    obtain rfl := hone hm
    rw [hstatus] at hother
    cases hother
  | linkToAncestor hm hlink _ _ hactive =>
    obtain rfl := hone hm
    refine Or.inl ⟨hactive, fun hplain => ?_⟩
    rw [hplain] at hlink
    cases hlink
  | backToAncestor hm _ _ hactive =>
    obtain rfl := hone hm
    exact Or.inl ⟨hactive, fun _ => rfl⟩
  | deeper hm _ _ hnew hmeets =>
    obtain rfl := hone hm
    exact Or.inr ⟨hnew, hmeets⟩

/-- All that this walk can meet is its own directory, as a child of where the link leads. -/
theorem back_met {fault : Fault} (h : backDisk.Met backCompressor fault) :
    fault = .backToAncestor := by
  have hnew : weaklyCanonical backDisk.fs (backCompressor.treePath [linkName]) ∉
      [weaklyCanonical backDisk.fs backCompressor.root] := by decide
  have hactive : weaklyCanonical backDisk.fs (backCompressor.treePath [linkName, dirName]) ∈
      [weaklyCanonical backDisk.fs backCompressor.root,
        weaklyCanonical backDisk.fs (backCompressor.treePath [linkName])] := by decide
  rcases Meets.only (n := linkName) h rfl rfl with ⟨hthere, -⟩ | ⟨-, hbelow⟩
  · exact absurd hthere hnew
  · rcases Meets.only (n := dirName) hbelow rfl rfl with ⟨-, hback⟩ | ⟨hnot, -⟩
    · exact hback rfl
    · exact absurd hactive hnot

theorem status_root {d : Disk} {c : JobZstdCompressor} {src : Location}
    (h : InputDirectory c d.fs src) : d.status (c.treePath []) = .directory := by
  have hroot : c.treePath [] = c.root := rfl
  rw [hroot, status, h.input]
  dsimp only
  rw [h.dir]

/-- The walk ends, gives the stack back empty and lists no path twice. It succeeds exactly when it
meets nothing that stops it; unless it meets an endless link, it returns false exactly when it meets
a broken link, a special file, or a directory on its path, which no walk that keeps links does. -/
theorem collectEntries_total (d : Disk) (c : JobZstdCompressor) {src : Location}
    (h : InputDirectory c d.fs src) :
    ∃ (bound : Nat) (result : WalkEnd) (entries : List JobPendingEntry),
      (∀ depth, bound ≤ depth → d.collectEntries c depth = some (result, ⟨entries, []⟩)) ∧
      (entries.map JobPendingEntry.relativePath).Nodup ∧
      (result = .done ↔ ∀ fault, ¬d.Met c fault) ∧
      (¬d.Met c .endlessLink → ((∃ error, result = .refused error) ↔
        d.Met c .brokenLink ∨ d.Met c .specialFile ∨ d.Met c .linkToAncestor ∨
          d.Met c .backToAncestor)) ∧
      (c.preserveSymlinks = true → ¬d.Met c .linkToAncestor ∧ ¬d.Met c .backToAncestor) := by
  obtain ⟨all, hall⟩ := d.finite
  have hdir := status_root h
  have hends := collectEntriesRecursive_ends h hall (all.length + 1) [] [] hdir nodup_nil
    (forall_mem_nil _) (Nat.lt_succ_self _)
  obtain ⟨⟨result, entries, stack⟩, hx⟩ := Option.ne_none_iff_exists'.mp hends
  have hframed := collectEntriesRecursive_framed d c (all.length + 1) [] (c.treePath []) []
  have hstack : stack = [] := by
    rw [hx] at hframed
    exact congrArg (fun x => x.2.activeDirs) (Option.some.inj hframed)
  have hended := collectEntriesRecursive_ended h (all.length + 1) [] [] result hdir
    not_mem_nil (by rw [hx, Option.map_some])
  obtain ⟨rels, hpaths, hnodup, -⟩ := collectEntriesRecursive_listed _ _ _ _ hx
  refine ⟨all.length + 1, result, entries, ?_, ?_, ?_, ?_, ?_⟩
  · intro depth hle
    obtain ⟨more, rfl⟩ := Nat.exists_eq_add_of_le hle
    clear hle
    induction more with
    | zero => exact hx.trans (by rw [hstack])
    | succ more ih => exact collectEntriesRecursive_mono _ _ _ _ ih
  · rw [hpaths]
    exact hnodup.map (map_injective_iff.mpr Subtype.val_injective)
  · constructor
    · rintro rfl
      exact hended
    · intro hnone
      cases result with
      | done => rfl
      | refused error =>
        obtain ⟨fault, -, hmeets⟩ := hended
        exact absurd hmeets (hnone fault)
      | thrown => exact absurd hended (hnone .endlessLink)
  · intro hendless
    constructor
    · rintro ⟨error, rfl⟩
      obtain ⟨fault, hne, hmeets⟩ := hended
      cases fault with
      | brokenLink => exact Or.inl hmeets
      | endlessLink => exact absurd rfl hne
      | specialFile => exact Or.inr (Or.inl hmeets)
      | linkToAncestor => exact Or.inr (Or.inr (Or.inl hmeets))
      | backToAncestor => exact Or.inr (Or.inr (Or.inr hmeets))
    · intro hmet
      cases result with
      | done =>
        rcases hmet with hmet | hmet | hmet | hmet
        · exact absurd hmet (hended _)
        · exact absurd hmet (hended _)
        · exact absurd hmet (hended _)
        · exact absurd hmet (hended _)
      | refused error => exact ⟨error, rfl⟩
      | thrown => exact absurd hended hendless
  · intro hkeep
    constructor
    · intro hmet
      rw [hmet.dereferences rfl] at hkeep
      cases hkeep
    · intro hmet
      refine Meets.not_back h hkeep hmet ?_ ?_ ?_ rfl
      · rw [append_nil]
        exact h.input
      · rw [append_nil]
        exact h.dir
      · refine forall_mem_singleton.mpr ?_
        rw [weaklyCanonical, h.input]
        simp [locationNames]

/-- The walk through the link and back. -/
theorem collectEntries_total_back : InputDirectory backCompressor backDisk.fs [inName, dirName] ∧
    ∃ (bound : Nat) (result : WalkEnd) (entries : List JobPendingEntry),
      (∀ depth, bound ≤ depth →
        backDisk.collectEntries backCompressor depth = some (result, ⟨entries, []⟩)) ∧
      (entries.map JobPendingEntry.relativePath).Nodup ∧
      (result = .done ↔ ∀ fault, ¬backDisk.Met backCompressor fault) := by
  obtain ⟨bound, result, entries, hends, hnodup, hdone, -⟩ :=
    collectEntries_total backDisk backCompressor back_input
  exact ⟨back_input, bound, result, entries, hends, hnodup, hdone⟩

/-- The walk is refused, although the only link it meets leads to a directory that is not on its
path: the directory itself is met again below the link. -/
theorem refused_below_link :
    ∃ (d : Disk) (c : JobZstdCompressor) (src : Location) (depth : Nat) (s : WalkState),
      InputDirectory c d.fs src ∧ d.collectEntries c depth = some (.refused .cycle, s) ∧
      ¬d.Met c .brokenLink ∧ ¬d.Met c .endlessLink ∧ ¬d.Met c .specialFile ∧
      ¬d.Met c .linkToAncestor := by
  have hrun : (backDisk.collectEntries backCompressor 3).map Prod.fst =
      some (.refused .cycle) := by decide
  obtain ⟨⟨result, s⟩, hs, hresult⟩ := Option.map_eq_some_iff.mp hrun
  obtain rfl : result = .refused .cycle := hresult
  refine ⟨backDisk, backCompressor, [inName, dirName], 3, s, back_input, hs, ?_, ?_, ?_, ?_⟩
  · exact fun h => absurd (back_met h) (by decide)
  · exact fun h => absurd (back_met h) (by decide)
  · exact fun h => absurd (back_met h) (by decide)
  · exact fun h => absurd (back_met h) (by decide)

end Disk

end JobZstd
