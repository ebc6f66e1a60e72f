import OddBuilder.Zstd.Disk

/-!
# What stops a walk

A call ends as one of its turns ends, and the first turn that is not done is one of
those that the walk can meet in any order. The directories on the stack are
different ones, so the calls are nested no deeper than there are directories.
-/

namespace JobZstd

open FileTree List

namespace Disk

section Loop

variable {d : Disk} {c : JobZstdCompressor} {stack : List NormalPath} {currentDir : List Bytes}
  {recurse : List Bytes → WalkState → Option (WalkEnd × WalkState)}

/-- The loop is done when all turns are, and otherwise ends as one of its turns. -/
theorem visitChildren_end (h : ∀ path, Framed stack (recurse path)) {result : WalkEnd}
    (names : List FileName) : ∀ s,
    d.visitChildren c recurse currentDir names ⟨[], stack⟩ = some (result, s) →
      (result = .done ∧ ∀ n ∈ names,
        (d.visitChild c recurse (childPath currentDir n.1) ⟨[], stack⟩).map Prod.fst =
          some .done) ∨
      (result ≠ .done ∧ ∃ n ∈ names,
        (d.visitChild c recurse (childPath currentDir n.1) ⟨[], stack⟩).map Prod.fst =
          some result) := by
  induction names with
  | nil =>
    intro s hs
    cases hs
    exact Or.inl ⟨rfl, by simp⟩
  | cons n rest ih =>
    intro s hs
    rw [visitChildren_cons n rest h (Framed.visitChildren h currentDir rest)] at hs
    cases hchild : d.visitChild c recurse (childPath currentDir n.1) ⟨[], stack⟩ with
    | none =>
      rw [hchild] at hs
      cases hs
    | some x =>
      obtain ⟨ended⟩ := x
      rw [hchild] at hs
      have hfirst : (d.visitChild c recurse (childPath currentDir n.1) ⟨[], stack⟩).map Prod.fst =
          some ended := by rw [hchild, Option.map_some]
      cases ended with
      | done =>
        obtain ⟨y, hy, hlast⟩ := Option.map_eq_some_iff.mp hs
        have hresult : y.1 = result := congrArg Prod.fst hlast
        rcases ih y.2 (by rw [hy, ← hresult]) with ⟨rfl, hall⟩ | ⟨hne, m, hm, hlater⟩
        · exact Or.inl ⟨rfl, forall_mem_cons.mpr ⟨hfirst, hall⟩⟩
        · exact Or.inr ⟨hne, m, mem_cons_of_mem n hm, hlater⟩
      | refused error =>
        cases hs
        exact Or.inr ⟨by simp, n, mem_cons_self, hfirst⟩
      | thrown =>
        cases hs
        exact Or.inr ⟨by simp, n, mem_cons_self, hfirst⟩

/-- The loop comes to an end when all turns do. -/
theorem visitChildren_ends (h : ∀ path, Framed stack (recurse path)) (names : List FileName)
    (hall : ∀ n ∈ names,
      d.visitChild c recurse (childPath currentDir n.1) ⟨[], stack⟩ ≠ none) :
    d.visitChildren c recurse currentDir names ⟨[], stack⟩ ≠ none := by
  induction names with
  | nil => exact Option.some_ne_none _
  | cons n rest ih =>
    obtain ⟨hn, hrest⟩ := forall_mem_cons.mp hall
    rw [visitChildren_cons n rest h (Framed.visitChildren h currentDir rest)]
    cases hchild : d.visitChild c recurse (childPath currentDir n.1) ⟨[], stack⟩ with
    | none => exact absurd hchild hn
    | some x =>
      obtain ⟨ended⟩ := x
      cases ended with
      | done =>
        rw [ne_eq, Option.map_eq_none_iff]
        exact ih hrest
      | refused error => exact Option.some_ne_none _
      | thrown => exact Option.some_ne_none _

end Loop

section Met

variable {d : Disk} {c : JobZstdCompressor} {src : Location}
variable {stack : List NormalPath} {rel : Location} {depth : Nat}

/-- How a call ends, told by what it can meet. -/
def Ended (d : Disk) (c : JobZstdCompressor) (stack : List NormalPath) (rel : Location) :
    WalkEnd → Prop
  | .done => ∀ fault, ¬d.Meets c fault stack rel
  | .refused _ => ∃ fault, fault ≠ .endlessLink ∧ d.Meets c fault stack rel
  | .thrown => d.Meets c .endlessLink stack rel

theorem followed_iff {path : List Bytes} :
    d.Followed c path ↔ (isSymlink d.fs path && c.preserveSymlinks) = false := by
  rw [Followed]
  cases isSymlink d.fs path <;> simp

/-- A call on a directory that is already active is refused. -/
theorem collectEntriesRecursive_active {path : List Bytes} (hdir : d.status path = .directory)
    (hactive : weaklyCanonical d.fs path ∈ stack) {result : WalkEnd}
    (h : (d.collectEntriesRecursive c depth path ⟨[], stack⟩).map Prod.fst = some result) :
    result = .refused .cycle := by
  cases depth with
  | zero => cases h
  | succ depth =>
    rw [collectEntriesRecursive, if_neg (by rw [hdir]; decide), if_pos hactive] at h
    exact (Option.some.inj h).symm

/-- A call on a directory that is not active is its loop, within the guard. -/
theorem collectEntriesRecursive_enter {loc : Location}
    (hdir : d.status (c.treePath rel) = .directory)
    (hloc : resolve d.fs true (c.treePath rel) = .found loc) (hobj : d.fs.obj loc = some .dir)
    (hnew : weaklyCanonical d.fs (c.treePath rel) ∉ stack) :
    d.collectEntriesRecursive c (depth + 1) (c.treePath rel) ⟨[], stack⟩ =
      guarded (weaklyCanonical d.fs (c.treePath rel))
        (d.visitChildren c (d.collectEntriesRecursive c depth) (c.treePath rel) (d.names c rel))
        ⟨[], stack⟩ := by
  obtain ⟨hentries, hnames⟩ := names_of_directory (c := c) hloc hobj
  rw [collectEntriesRecursive, if_neg (by rw [hdir]; decide), if_neg hnew, hentries, hnames]

/-- A child that stops nothing. -/
structure Passed (d : Disk) (c : JobZstdCompressor) (stack : List NormalPath) (rel : Location)
    (n : FileName) : Prop where
  link : isSymlink d.fs (c.treePath (rel ++ [n])) = true →
    d.status (c.treePath (rel ++ [n])) ≠ .notFound ∧
      d.status (c.treePath (rel ++ [n])) ≠ .tooManyLinks
  target : d.Followed c (c.treePath (rel ++ [n])) →
    d.status (c.treePath (rel ++ [n])) ≠ .special
  directory : d.Followed c (c.treePath (rel ++ [n])) →
    d.status (c.treePath (rel ++ [n])) = .directory →
      weaklyCanonical d.fs (c.treePath (rel ++ [n])) ∉ stack ∧
        Ended d c (stack ++ [weaklyCanonical d.fs (c.treePath (rel ++ [n]))]) (rel ++ [n]) .done

theorem Ended.child (h : InputDirectory c d.fs src) {loc : Location} {n : FileName}
    (hloc : resolve d.fs true (c.treePath rel) = .found loc) (hobj : d.fs.obj loc = some .dir)
    (hn : n ∈ d.names c rel) (ih : ∀ result, d.status (c.treePath (rel ++ [n])) = .directory →
      weaklyCanonical d.fs (c.treePath (rel ++ [n])) ∉ stack →
      (d.collectEntriesRecursive c depth (c.treePath (rel ++ [n])) ⟨[], stack⟩).map Prod.fst =
        some result →
      Ended d c (stack ++ [weaklyCanonical d.fs (c.treePath (rel ++ [n]))]) (rel ++ [n]) result)
    {result : WalkEnd}
    (hend : (d.visitChild c (d.collectEntriesRecursive c depth) (c.treePath (rel ++ [n]))
      ⟨[], stack⟩).map Prod.fst = some result) :
    (result = .done → Passed d c stack rel n) ∧
    (result ≠ .done → Ended d c stack rel result) := by
  have hplain := status_child h hloc hobj hn
  rw [visitChild_end (collectEntriesRecursive_framed d c depth stack _) hplain] at hend
  cases hstatus : d.status (c.treePath (rel ++ [n])) with
  | notFound =>
    rw [hstatus] at hend
    obtain rfl := Option.some.inj hend
    have hlink : isSymlink d.fs (c.treePath (rel ++ [n])) = true := by
      by_contra hnot
      exact (hplain (Bool.eq_false_of_not_eq_true hnot)).1 hstatus
    refine ⟨fun hdone => by simp at hdone, fun _ => ?_⟩
    exact ⟨.brokenLink, by decide, .brokenLink hn hlink hstatus⟩
  | tooManyLinks =>
    rw [hstatus] at hend
    obtain rfl := Option.some.inj hend
    have hlink : isSymlink d.fs (c.treePath (rel ++ [n])) = true := by
      by_contra hnot
      exact (hplain (Bool.eq_false_of_not_eq_true hnot)).2 hstatus
    exact ⟨fun hdone => by simp at hdone, fun _ => .endlessLink hn hlink hstatus⟩
  | regular =>
    rw [hstatus] at hend
    obtain rfl := Option.some.inj hend
    refine ⟨fun _ => ?_, fun hne => absurd rfl hne⟩
    constructor
    · simp [hstatus]
    · simp [hstatus]
    · simp [hstatus]
  | special =>
    rw [hstatus] at hend
    dsimp only at hend
    by_cases hkept : (isSymlink d.fs (c.treePath (rel ++ [n])) && c.preserveSymlinks) = true
    · rw [if_pos hkept] at hend
      obtain rfl := Option.some.inj hend
      refine ⟨fun _ => ?_, fun hne => absurd rfl hne⟩
      constructor
      · simp [hstatus]
      · simp [followed_iff, hkept]
      · simp [followed_iff, hkept]
    · rw [if_neg hkept] at hend
      obtain rfl := Option.some.inj hend
      have hfollowed := followed_iff.mpr (Bool.eq_false_of_not_eq_true hkept)
      refine ⟨fun hdone => by simp at hdone, fun _ => ?_⟩
      exact ⟨.specialFile, by decide, .specialFile hn hfollowed hstatus⟩
  | directory =>
    rw [hstatus] at hend
    by_cases hkept : (isSymlink d.fs (c.treePath (rel ++ [n])) && c.preserveSymlinks) = true
    · rw [if_pos hkept] at hend
      obtain rfl := Option.some.inj hend
      refine ⟨fun _ => ?_, fun hne => absurd rfl hne⟩
      constructor
      · simp [hstatus]
      · simp [followed_iff, hkept]
      · simp [followed_iff, hkept]
    · rw [if_neg hkept] at hend
      have hfollowed := followed_iff.mpr (Bool.eq_false_of_not_eq_true hkept)
      by_cases hactive : weaklyCanonical d.fs (c.treePath (rel ++ [n])) ∈ stack
      · obtain rfl := collectEntriesRecursive_active hstatus hactive hend
        refine ⟨fun hdone => by simp at hdone, fun _ => ?_⟩
        cases hlink : isSymlink d.fs (c.treePath (rel ++ [n])) with
        | true =>
          exact ⟨.linkToAncestor, by decide,
            .linkToAncestor hn hlink (hfollowed hlink) hstatus hactive⟩
        | false => exact ⟨.backToAncestor, by decide, .backToAncestor hn hlink hstatus hactive⟩
      · have hended := ih result hstatus hactive hend
        constructor
        · rintro rfl
          constructor
          · simp [hstatus]
          · simp [hstatus]
          · exact fun _ _ => ⟨hactive, hended⟩
        · intro hne
          cases result with
          | done => exact absurd rfl hne
          | refused error =>
            obtain ⟨fault, hfault, hmeets⟩ := hended
            exact ⟨fault, hfault, .deeper hn hfollowed hstatus hactive hmeets⟩
          | thrown => exact .deeper hn hfollowed hstatus hactive hended

/-- How a call ends is what it meets, in whatever order it looks. -/
theorem collectEntriesRecursive_ended (h : InputDirectory c d.fs src) (depth : Nat) :
    ∀ (stack : List NormalPath) (rel : Location) (result : WalkEnd),
      d.status (c.treePath rel) = .directory →
      weaklyCanonical d.fs (c.treePath rel) ∉ stack →
      (d.collectEntriesRecursive c depth (c.treePath rel) ⟨[], stack⟩).map Prod.fst =
        some result →
      Ended d c (stack ++ [weaklyCanonical d.fs (c.treePath rel)]) rel result := by
  induction depth with
  | zero =>
    intro stack rel result _ _ hend
    cases hend
  | succ depth ih =>
    intro stack rel result hdir hnew hend
    obtain ⟨loc, hloc, hobj, -⟩ := status_directory hdir
    rw [collectEntriesRecursive_enter hdir hloc hobj hnew, guarded, Option.map_map] at hend
    obtain ⟨x, hx, hlast⟩ := Option.map_eq_some_iff.mp hend
    obtain ⟨ended, s⟩ := x
    obtain rfl : ended = result := hlast
    have hpath : ∀ n : FileName, childPath (c.treePath rel) n.1 = c.treePath (rel ++ [n]) :=
      fun n => (treePath_concat c rel n).symm
    have hframed := collectEntriesRecursive_framed d c depth
      (stack ++ [weaklyCanonical d.fs (c.treePath rel)])
    have hchild : ∀ n ∈ d.names c rel, ∀ result,
        (d.visitChild c (d.collectEntriesRecursive c depth) (c.treePath (rel ++ [n]))
          ⟨[], stack ++ [weaklyCanonical d.fs (c.treePath rel)]⟩).map Prod.fst = some result →
        (result = .done →
          Passed d c (stack ++ [weaklyCanonical d.fs (c.treePath rel)]) rel n) ∧
        (result ≠ .done →
          Ended d c (stack ++ [weaklyCanonical d.fs (c.treePath rel)]) rel result) :=
      fun n hn _ hend => Ended.child h hloc hobj hn (ih _ (rel ++ [n])) hend
    rcases visitChildren_end hframed _ s hx with ⟨rfl, hall⟩ | ⟨hne, n, hn, hsome⟩
    · intro fault hmeets
      have hdone (n : FileName) (hn : n ∈ d.names c rel) :=
        (hchild n hn .done (by rw [← hpath]; exact hall n hn)).1 rfl
      cases hmeets with
      | brokenLink hn hlink hstatus => exact ((hdone _ hn).link hlink).1 hstatus
      | endlessLink hn hlink hstatus => exact ((hdone _ hn).link hlink).2 hstatus
      | specialFile hn hfollowed hstatus => exact (hdone _ hn).target hfollowed hstatus
      | linkToAncestor hn hlink hkeep hstatus hactive =>
        exact ((hdone _ hn).directory (fun _ => hkeep) hstatus).1 hactive
      | backToAncestor hn hlink hstatus hactive =>
        refine ((hdone _ hn).directory (fun hyes => ?_) hstatus).1 hactive
        rw [hlink] at hyes
        cases hyes
      | deeper hn hfollowed hstatus _ hmeets =>
        exact ((hdone _ hn).directory hfollowed hstatus).2 fault hmeets
    · rw [hpath] at hsome
      exact (hchild n hn _ hsome).2 hne

/-- The turns of a directory can be nested as deep as there are directories off the stack. -/
theorem collectEntriesRecursive_ends (h : InputDirectory c d.fs src) {all : List Location}
    (hall : ∀ loc, d.fs.obj loc ≠ none → loc ∈ all) (depth : Nat) :
    ∀ (stack : List NormalPath) (rel : Location), d.status (c.treePath rel) = .directory →
      stack.Nodup → (∀ p ∈ stack, ∃ loc ∈ all, p = ⟨locationNames loc, false⟩) →
      all.length < depth + stack.length →
      d.collectEntriesRecursive c depth (c.treePath rel) ⟨[], stack⟩ ≠ none := by
  induction depth with
  | zero =>
    intro stack rel _ hnodup hstack hdeep
    have hsubset : stack ⊆ all.map fun loc => (⟨locationNames loc, false⟩ : NormalPath) := by
      intro p hp
      obtain ⟨loc, hloc, rfl⟩ := hstack p hp
      exact mem_map_of_mem hloc
    have hle := (hnodup.subperm hsubset).length_le
    rw [length_map] at hle
    omega
  | succ depth ih =>
    intro stack rel hdir hnodup hstack hdeep
    obtain ⟨loc, hloc, hobj, hcanonical⟩ := status_directory hdir
    by_cases hactive : weaklyCanonical d.fs (c.treePath rel) ∈ stack
    · rw [collectEntriesRecursive, if_neg (by rw [hdir]; decide), if_pos hactive]
      exact Option.some_ne_none _
    rw [collectEntriesRecursive_enter hdir hloc hobj hactive, guarded, ne_eq,
      Option.map_eq_none_iff]
    have hframed := collectEntriesRecursive_framed d c depth
      (stack ++ [weaklyCanonical d.fs (c.treePath rel)])
    apply visitChildren_ends hframed
    intro n hn hnone
    have hplain := status_child h hloc hobj hn
    rw [← treePath_concat] at hnone
    have hend := visitChild_end (c := c) (hframed (c.treePath (rel ++ [n]))) hplain
    rw [hnone] at hend
    cases hstatus : d.status (c.treePath (rel ++ [n])) with
    | directory =>
      rw [hstatus] at hend
      dsimp only at hend
      split at hend
      · cases hend
      · refine ih _ (rel ++ [n]) hstatus ?_ ?_ ?_ (Option.map_eq_none_iff.mp hend.symm)
        · exact nodup_append.mpr ⟨hnodup, nodup_singleton _, by
            rintro p hp q hq rfl
            exact hactive (mem_singleton.mp hq ▸ hp)⟩
        · refine forall_mem_append.mpr ⟨hstack, forall_mem_singleton.mpr ?_⟩
          exact ⟨loc, hall loc (by rw [hobj]; exact Option.some_ne_none _), hcanonical⟩
        · rw [length_append, length_singleton]
          omega
    | special =>
      rw [hstatus] at hend
      dsimp only at hend
      split at hend
      · cases hend
      · cases hend
    | _ =>
      rw [hstatus] at hend
      cases hend

/-- A deeper bound changes nothing. -/
theorem visitChildren_mono
    {recurse recurse' : List Bytes → WalkState → Option (WalkEnd × WalkState)}
    (h : ∀ path s x, recurse path s = some x → recurse' path s = some x) (currentDir : List Bytes)
    (names : List FileName) : ∀ s x, d.visitChildren c recurse currentDir names s = some x →
      d.visitChildren c recurse' currentDir names s = some x := by
  have htarget : ∀ path s x, d.visitTarget c recurse path s = some x →
      d.visitTarget c recurse' path s = some x := by
    intro path s x hx
    rw [visitTarget] at hx ⊢
    cases hstatus : d.status path with
    | directory =>
      rw [hstatus] at hx
      exact h _ _ _ hx
    | _ =>
      rw [hstatus] at hx
      exact hx
  have hchild : ∀ path s x, d.visitChild c recurse path s = some x →
      d.visitChild c recurse' path s = some x := by
    intro path s x hx
    rw [visitChild] at hx ⊢
    split at hx
    · split at hx
      · exact hx
      · exact hx
      · split at hx
        · next hkeep => rwa [if_pos hkeep]
        · next hkeep =>
          rw [if_neg hkeep]
          exact h _ _ _ hx
      · split at hx
        · next hkeep => rwa [if_pos hkeep]
        · next hkeep =>
          rw [if_neg hkeep]
          exact htarget _ _ _ hx
    · exact htarget _ _ _ hx
  induction names with
  | nil => exact fun _ _ hx => hx
  | cons n rest ih =>
    intro s x hx
    rw [visitChildren] at hx ⊢
    cases hvisit : d.visitChild c recurse (childPath currentDir n.1) s with
    | none =>
      rw [hvisit] at hx
      cases hx
    | some y =>
      rw [hvisit] at hx
      rw [hchild _ _ _ hvisit]
      obtain ⟨ended⟩ := y
      cases ended with
      | done => exact ih _ _ hx
      | refused error => exact hx
      | thrown => exact hx

theorem collectEntriesRecursive_mono (depth : Nat) :
    ∀ path s x, d.collectEntriesRecursive c depth path s = some x →
      d.collectEntriesRecursive c (depth + 1) path s = some x := by
  induction depth with
  | zero =>
    intro path s x hx
    cases hx
  | succ depth ih =>
    intro path s x hx
    rw [collectEntriesRecursive] at hx ⊢
    split at hx
    · next hlinks => rwa [if_pos hlinks]
    next hlinks =>
    rw [if_neg hlinks]
    dsimp only at hx ⊢
    split at hx
    · next hactive => rwa [if_pos hactive]
    next hactive =>
    rw [if_neg hactive]
    obtain ⟨y, hy, hlast⟩ := Option.map_eq_some_iff.mp hx
    refine Option.map_eq_some_iff.mpr ⟨y, ?_, hlast⟩
    split at hy
    · exact hy
    · exact visitChildren_mono ih _ _ _ _ hy

theorem Meets.dereferences {fault : Fault} (h : d.Meets c fault stack rel)
    (hfault : fault = .linkToAncestor) : c.preserveSymlinks = false := by
  induction h with
  | linkToAncestor _ _ hkeep => exact hkeep
  | deeper _ _ _ _ _ ih => exact ih hfault
  | _ => cases hfault

/-- As long as links are kept, every row of names leads straight down. -/
theorem Meets.not_back (h : InputDirectory c d.fs src) (hkeep : c.preserveSymlinks = true)
    {fault : Fault} (hmeets : d.Meets c fault stack rel) :
    resolve d.fs true (c.treePath rel) = .found (src ++ rel) → d.fs.obj (src ++ rel) = some .dir →
      (∀ p ∈ stack, p.names.length ≤ (src ++ rel).length) → fault ≠ .backToAncestor := by
  have hdown : ∀ {rel : Location} {n : FileName},
      resolve d.fs true (c.treePath rel) = .found (src ++ rel) →
      d.fs.obj (src ++ rel) = some .dir → n ∈ d.names c rel →
      isSymlink d.fs (c.treePath (rel ++ [n])) = false →
      d.status (c.treePath (rel ++ [n])) = .directory →
      resolve d.fs true (c.treePath (rel ++ [n])) = .found (src ++ (rel ++ [n])) ∧
        d.fs.obj (src ++ (rel ++ [n])) = some .dir := by
    intro rel n hloc hdir hn hlink hstatus
    rw [(names_of_directory hloc hdir).2, (d.listed _ hdir).2 n] at hn
    obtain ⟨o, ho⟩ := Option.ne_none_iff_exists'.mp hn
    have hlstat := lstat_child h hloc ho
    have hother : ∀ t, o ≠ .link t := by
      rintro t rfl
      rw [isSymlink, hlstat] at hlink
      cases hlink
    have hwalk : walk d.fs linkTarget true maxLinks []
        (c.stemSteps ++ rel.map .name ++ [n].map .name) = .found (src ++ rel ++ [n]) :=
      walk_onto_names maxLinks (cons_ne_nil n []) ho (fun t ht => absurd ht (hother t))
        ((walk_treePath h).mp hloc)
    rw [append_assoc, ← map_append] at hwalk
    have hfound := (walk_treePath h).mpr hwalk
    obtain ⟨loc, hthere, hobj, -⟩ := status_directory hstatus
    obtain rfl : src ++ rel ++ [n] = loc := Walk.found.inj (hfound.symm.trans hthere)
    rw [← append_assoc]
    exact ⟨hfound, hobj⟩
  have hplain : ∀ {path : List Bytes}, d.Followed c path → isSymlink d.fs path = false := by
    intro path hfollowed
    by_contra hlink
    rw [hfollowed (Bool.eq_true_of_not_eq_false hlink)] at hkeep
    cases hkeep
  have hcanonical : ∀ {path : List Bytes} {loc : Location},
      resolve d.fs true path = .found loc →
        (weaklyCanonical d.fs path).names.length = loc.length := by
    intro path loc hloc
    rw [weaklyCanonical, hloc]
    simp [locationNames]
  induction hmeets with
  | backToAncestor hn hlink hstatus hactive =>
    intro hloc hdir hstack
    have hthere := hcanonical (hdown hloc hdir hn hlink hstatus).1
    have hle := hstack _ hactive
    rw [hthere] at hle
    simp at hle
  | deeper hn hfollowed hstatus _ _ ih =>
    intro hloc hdir hstack
    obtain ⟨hfound, hobj⟩ := hdown hloc hdir hn (hplain hfollowed) hstatus
    refine ih hfound hobj (forall_mem_append.mpr ⟨?_, ?_⟩)
    · intro p hp
      have hle := hstack p hp
      simp only [length_append] at hle ⊢
      omega
    · exact forall_mem_singleton.mpr (Nat.le_of_eq (hcanonical hfound))
  | _ => exact fun _ _ _ => by decide

end Met

end Disk

end JobZstd
