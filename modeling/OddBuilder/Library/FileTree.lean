import Mathlib.Data.List.Infix

/-!
# File trees

Directories, files and symbolic links by location, and the walk by which an
operating system resolves a path: step by step from a location, following the
links it meets, at most a given number of them. The types of names, of file
contents and of link texts are arbitrary; how a link text reads as a path is a
parameter.
-/

namespace FileTree

open List

variable {N C T : Type}

/-- A component of a path. -/
inductive Step (N : Type) where
  | here
  | up
  | name (n : N)

inductive Obj (C T : Type) where
  | dir
  | file (content : C)
  | link (target : T)
deriving DecidableEq

/-- What stands at every location; whatever exists has a directory above it. -/
structure Tree (N C T : Type) where
  obj : List N → Option (Obj C T)
  root : obj [] = some .dir
  parent : ∀ loc n o, obj (loc ++ [n]) = some o → obj loc = some .dir

namespace Tree

def isDir (fs : Tree N C T) (loc : List N) : Bool :=
  match fs.obj loc with
  | some .dir => true
  | _ => false

theorem isDir_iff (fs : Tree N C T) (loc : List N) :
    fs.isDir loc = true ↔ fs.obj loc = some .dir := by
  simp only [isDir]
  split <;> simp_all

/-- Everything above an existing object is a directory. -/
theorem dir_above (fs : Tree N C T) (p q : List N) (hq : q ≠ []) {o : Obj C T}
    (h : fs.obj (p ++ q) = some o) : fs.obj p = some .dir := by
  induction q using List.reverseRecOn generalizing o with
  | nil => exact absurd rfl hq
  | append_singleton q n ih =>
    rw [← append_assoc] at h
    have up := fs.parent _ _ _ h
    by_cases hnil : q = []
    · rwa [hnil, append_nil] at up
    · exact ih hnil up

theorem dir_dropLast (fs : Tree N C T) {loc : List N} (h : fs.obj loc = some .dir) :
    fs.obj loc.dropLast = some .dir := by
  induction loc using List.reverseRecOn with
  | nil => exact h
  | append_singleton loc n _ =>
    rw [dropLast_concat]
    exact fs.parent loc n _ h

variable [DecidableEq N]

/-- Put an object that is no directory yet into a directory; anything else changes nothing. -/
def put (fs : Tree N C T) (loc : List N) (n : N) (o : Obj C T) : Tree N C T :=
  if h : fs.isDir loc = true ∧ ¬ fs.isDir (loc ++ [n]) = true then
    { obj := fun l => if l = loc ++ [n] then some o else fs.obj l
      root := by rw [if_neg (by simp), fs.root]
      parent := by
        intro l m o' hm
        have hdir := (fs.isDir_iff loc).mp h.1
        by_cases same : l ++ [m] = loc ++ [n]
        · obtain rfl := (List.append_inj' same rfl).1
          rw [if_neg (by simp)]
          exact hdir
        · rw [if_neg same] at hm
          have above := fs.parent l m o' hm
          by_cases leaf : l = loc ++ [n]
          · subst leaf
            exact absurd ((fs.isDir_iff _).mpr above) h.2
          · rw [if_neg leaf]
            exact above }
  else fs

theorem put_obj (fs : Tree N C T) {loc : List N} {n : N} (hdir : fs.obj loc = some .dir)
    (hleaf : fs.obj (loc ++ [n]) ≠ some .dir) (o : Obj C T) (l : List N) :
    (fs.put loc n o).obj l = if l = loc ++ [n] then some o else fs.obj l := by
  have h : fs.isDir loc = true ∧ ¬ fs.isDir (loc ++ [n]) = true := by
    rw [isDir_iff, isDir_iff]
    exact ⟨hdir, hleaf⟩
  rw [put, dif_pos h]

end Tree

/-- Outcome of a walk: an object, a free name in a directory, or neither. -/
inductive Walk (N : Type) where
  | found (loc : List N)
  | missing (loc : List N) (n : N)
  | failed
deriving DecidableEq

/-- The walk along a path, with `jump` for the links. A link at the end is followed on demand. -/
def walkWith (fs : Tree N C T) (follow : Bool) (jump : List N → T → List (Step N) → Walk N) :
    List N → List (Step N) → Walk N
  | loc, [] => .found loc
  | loc, s :: rest =>
    if !fs.isDir loc then .failed
    else
      match s with
      | .here => walkWith fs follow jump loc rest
      | .up => walkWith fs follow jump loc.dropLast rest
      | .name n =>
        match fs.obj (loc ++ [n]) with
        | none => if rest.isEmpty then .missing loc n else .failed
        | some (.link t) =>
          if rest.isEmpty && !follow then .found (loc ++ [n]) else jump loc t rest
        | some _ => walkWith fs follow jump (loc ++ [n]) rest

/-- The walk that follows at most `hops` links; `target` reads a link text as a path, with a flag
for paths from the root. -/
def walk (fs : Tree N C T) (target : T → Option (Bool × List (Step N))) (follow : Bool) :
    Nat → List N → List (Step N) → Walk N
  | 0 => walkWith fs follow (fun _ _ _ => .failed)
  | hops + 1 => walkWith fs follow (fun loc t rest =>
      match target t with
      | none => .failed
      | some (absolute, steps) =>
        walk fs target follow hops (if absolute then [] else loc) (steps ++ rest))

/-- Whether the walk along a path comes to a link that `jump` gives up at. -/
def runsOutWith (fs : Tree N C T) (follow : Bool) (jump : List N → T → List (Step N) → Bool) :
    List N → List (Step N) → Bool
  | _, [] => false
  | loc, s :: rest =>
    if !fs.isDir loc then false
    else
      match s with
      | .here => runsOutWith fs follow jump loc rest
      | .up => runsOutWith fs follow jump loc.dropLast rest
      | .name n =>
        match fs.obj (loc ++ [n]) with
        | none => false
        | some (.link t) => if rest.isEmpty && !follow then false else jump loc t rest
        | some _ => runsOutWith fs follow jump (loc ++ [n]) rest

/-- Whether the walk would have to follow more links than it may. -/
def runsOut (fs : Tree N C T) (target : T → Option (Bool × List (Step N))) (follow : Bool) :
    Nat → List N → List (Step N) → Bool
  | 0 => runsOutWith fs follow (fun _ _ _ => true)
  | hops + 1 => runsOutWith fs follow (fun loc t rest =>
      match target t with
      | none => false
      | some (absolute, steps) =>
        runsOut fs target follow hops (if absolute then [] else loc) (steps ++ rest))

section Facts

variable {fs fs' : Tree N C T} {target : T → Option (Bool × List (Step N))}
variable {follow : Bool} {loc names start l : List N}
  {jump jump' : List N → T → List (Step N) → Walk N} {tail steps : List (Step N)} {n : N}
  {result : Walk N}

/-- A free name is a name of a directory at which nothing stands. -/
theorem walkWith_missing (hjump : ∀ l t r loc n, jump l t r = .missing loc n →
      fs.obj loc = some .dir ∧ fs.obj (loc ++ [n]) = none) (steps : List (Step N)) :
    ∀ start loc n, walkWith fs follow jump start steps = .missing loc n →
      fs.obj loc = some .dir ∧ fs.obj (loc ++ [n]) = none := by
  induction steps with
  | nil =>
    intro start loc n h
    cases h
  | cons s rest ih =>
    intro start loc n h
    simp only [walkWith] at h
    split at h
    · cases h
    rename_i hdir
    have dir : fs.obj start = some .dir := by
      rw [← Tree.isDir_iff]
      simpa using hdir
    cases s with
    | here => exact ih _ _ _ h
    | up => exact ih _ _ _ h
    | name m =>
      dsimp only at h
      split at h
      · rename_i free
        split at h
        · obtain ⟨rfl, rfl⟩ := Walk.missing.inj h
          exact ⟨dir, free⟩
        · cases h
      · split at h
        · cases h
        · exact hjump _ _ _ _ _ h
      · exact ih _ _ _ h

theorem walk_missing (hops : Nat) :
    ∀ start steps loc n, walk fs target follow hops start steps = .missing loc n →
      fs.obj loc = some .dir ∧ fs.obj (loc ++ [n]) = none := by
  induction hops with
  | zero =>
    intro start steps loc n h
    exact walkWith_missing (by intro l t r loc n h; cases h) steps start loc n h
  | succ hops ih =>
    intro start steps loc n h
    refine walkWith_missing ?_ steps start loc n h
    intro l t r loc n h
    split at h
    · cases h
    · exact ih _ _ _ _ h

theorem dropLast_exists (h : fs.obj loc ≠ none) : fs.obj loc.dropLast ≠ none := by
  induction loc using List.reverseRecOn with
  | nil => exact h
  | append_singleton loc n _ =>
    obtain ⟨o, ho⟩ := Option.ne_none_iff_exists'.mp h
    rw [dropLast_concat, fs.parent loc n o ho]
    exact Option.some_ne_none _

/-- What a walk finds exists. -/
theorem walkWith_found
    (hjump : ∀ l t r loc, fs.obj l ≠ none → jump l t r = .found loc → fs.obj loc ≠ none)
    (steps : List (Step N)) :
    ∀ start loc, fs.obj start ≠ none → walkWith fs follow jump start steps = .found loc →
      fs.obj loc ≠ none := by
  induction steps with
  | nil =>
    intro start loc hstart h
    obtain rfl := Walk.found.inj h
    exact hstart
  | cons s rest ih =>
    intro start loc hstart h
    simp only [walkWith] at h
    split at h
    · cases h
    cases s with
    | here => exact ih _ _ hstart h
    | up => exact ih _ _ (dropLast_exists hstart) h
    | name m =>
      dsimp only at h
      split at h
      · split at h <;> cases h
      · rename_i t ht
        split at h
        · obtain rfl := Walk.found.inj h
          rw [ht]
          exact Option.some_ne_none _
        · exact hjump _ _ _ _ hstart h
      · rename_i o _ ho
        exact ih _ _ (by rw [ho]; exact Option.some_ne_none _) h

theorem walk_found (hops : Nat) :
    ∀ start steps loc, fs.obj start ≠ none →
      walk fs target follow hops start steps = .found loc → fs.obj loc ≠ none := by
  induction hops with
  | zero =>
    intro start steps loc hstart h
    exact walkWith_found (by intro l t r loc _ h; cases h) steps start loc hstart h
  | succ hops ih =>
    intro start steps loc hstart h
    refine walkWith_found ?_ steps start loc hstart h
    intro l t r loc hl h
    split at h
    · cases h
    · rename_i absolute steps _
      refine ih _ _ _ ?_ h
      cases absolute with
      | true => simp [fs.root]
      | false => simpa using hl

/-- Every object of the one tree stands in the other as well; only the content of files may
differ. -/
def Extends (fs fs' : Tree N C T) : Prop :=
  ∀ loc o, fs.obj loc = some o → fs'.obj loc = some o ∨
    ∃ c c', o = .file c ∧ fs'.obj loc = some (.file c')

theorem Extends.refl (fs : Tree N C T) : Extends fs fs := fun _ _ h => Or.inl h

theorem Extends.trans {fs'' : Tree N C T} (h : Extends fs fs') (k : Extends fs' fs'') :
    Extends fs fs'' := by
  intro loc o ho
  rcases h loc o ho with h1 | ⟨c, c', rfl, h1⟩
  · exact k loc o h1
  · rcases k loc _ h1 with h2 | ⟨d, d', hd, h2⟩
    · exact Or.inr ⟨c, c', rfl, h2⟩
    · exact Or.inr ⟨c, d', rfl, h2⟩

theorem Extends.dir (h : Extends fs fs') (hd : fs.obj loc = some .dir) :
    fs'.obj loc = some .dir := by
  rcases h loc _ hd with h | ⟨c, c', hc, _⟩
  · exact h
  · cases hc

theorem Extends.link {t : T} (h : Extends fs fs') (hlink : fs.obj loc = some (.link t)) :
    fs'.obj loc = some (.link t) := by
  rcases h loc _ hlink with h | ⟨c, c', hc, _⟩
  · exact h
  · cases hc

theorem Extends.isDir (h : Extends fs fs') (hdir : fs.isDir loc = true) : fs'.isDir loc = true :=
  (fs'.isDir_iff loc).mpr (h.dir ((fs.isDir_iff loc).mp hdir))

/-- What a walk finds, it finds in every larger tree. -/
theorem walkWith_mono (ext : Extends fs fs')
    (hjump : ∀ l t r loc, jump l t r = .found loc → jump' l t r = .found loc)
    (steps : List (Step N)) :
    ∀ start loc, walkWith fs follow jump start steps = .found loc →
      walkWith fs' follow jump' start steps = .found loc := by
  induction steps with
  | nil => exact fun start loc h => h
  | cons s rest ih =>
    intro start loc h
    simp only [walkWith] at h ⊢
    split at h
    · cases h
    rename_i hdir
    have dir := ext.isDir (by simpa using hdir)
    rw [if_neg (by simp [dir])]
    cases s with
    | here => exact ih _ _ h
    | up => exact ih _ _ h
    | name m =>
      dsimp only at h ⊢
      split at h
      · split at h <;> cases h
      · rename_i t ht
        simp only [ext.link ht]
        split at h
        · rename_i last
          rw [if_pos last]
          exact h
        · rename_i notLast
          rw [if_neg notLast]
          exact hjump _ _ _ _ h
      · rename_i o notLink ho
        have next := ih _ _ h
        rcases ext _ _ ho with h' | ⟨c, c', rfl, h'⟩
        · rw [h']
          cases o with
          | dir => exact next
          | file c => exact next
          | link t => exact absurd rfl (notLink t)
        · rw [h']
          exact next

theorem walk_mono (ext : Extends fs fs') (hops : Nat) :
    ∀ start steps loc, walk fs target follow hops start steps = .found loc →
      walk fs' target follow hops start steps = .found loc := by
  induction hops with
  | zero =>
    intro start steps loc h
    exact walkWith_mono ext (by intro l t r loc h; cases h) steps start loc h
  | succ hops ih =>
    intro start steps loc h
    refine walkWith_mono ext ?_ steps start loc h
    intro l t r loc h
    split at h
    · cases h
    · exact ih _ _ _ h

/-- No link stands on the way from `loc` along the names. -/
def NoLink (fs : Tree N C T) (loc names : List N) : Prop :=
  ∀ front back, names = front ++ back → ∀ t, fs.obj (loc ++ front) ≠ some (.link t)

theorem NoLink.take (h : NoLink fs loc names) (k : Nat) : NoLink fs loc (names.take k) := by
  intro front back hsplit t
  refine h front (back ++ names.drop k) ?_ t
  rw [← append_assoc, ← hsplit, take_append_drop]

/-- Where no link stands, names lead where they say. -/
theorem walkWith_names (tail : List (Step N)) (names : List N) :
    ∀ loc, NoLink fs loc names →
      walkWith fs follow jump loc (names.map .name ++ tail) =
          walkWith fs follow jump (loc ++ names) tail ∨
        (tail = [] ∧ ∃ front n, names = front ++ [n] ∧
          walkWith fs follow jump loc (names.map .name ++ tail) = .missing (loc ++ front) n) ∨
        walkWith fs follow jump loc (names.map .name ++ tail) = .failed := by
  induction names with
  | nil =>
    intro loc _
    exact Or.inl (by simp)
  | cons n names ih =>
    intro loc free
    simp only [map_cons, cons_append, walkWith]
    split
    · exact Or.inr (Or.inr rfl)
    split
    · split
      · rename_i hempty
        have hnil := append_eq_nil_iff.mp (isEmpty_iff.mp hempty)
        have hnames : names = [] := map_eq_nil_iff.mp hnil.1
        exact Or.inr (Or.inl ⟨hnil.2, [], n, by rw [hnames]; rfl, by simp⟩)
      · exact Or.inr (Or.inr rfl)
    · rename_i t ht
      exact absurd ht (free [n] names rfl t)
    · have further : NoLink fs (loc ++ [n]) names := by
        intro front back hsplit t
        rw [append_assoc]
        exact free (n :: front) back (by rw [hsplit]; rfl) t
      rcases ih (loc ++ [n]) further with h | ⟨htail, front, m, rfl, h⟩ | h
      · exact Or.inl (by rw [h, append_assoc]; rfl)
      · exact Or.inr (Or.inl ⟨htail, n :: front, m, rfl, by rw [h, append_assoc]; rfl⟩)
      · exact Or.inr (Or.inr h)

theorem walk_names (hops : Nat) (tail : List (Step N)) (free : NoLink fs loc names) :
    walk fs target follow hops loc (names.map .name ++ tail) =
        walk fs target follow hops (loc ++ names) tail ∨
      (tail = [] ∧ ∃ front n, names = front ++ [n] ∧
        walk fs target follow hops loc (names.map .name ++ tail) = .missing (loc ++ front) n) ∨
      walk fs target follow hops loc (names.map .name ++ tail) = .failed := by
  cases hops with
  | zero => exact walkWith_names tail names loc free
  | succ hops => exact walkWith_names tail names loc free

/-- An object's own names lead to it, unless it is a link that is to be followed. -/
theorem walkWith_to (names : List N) :
    ∀ loc o, fs.obj (loc ++ names) = some o → (∀ t, o = .link t → follow = false) →
      walkWith fs follow jump loc (names.map .name) = .found (loc ++ names) := by
  induction names with
  | nil =>
    intro loc o _ _
    simp [walkWith]
  | cons n names ih =>
    intro loc o ho hlast
    have dir : fs.isDir loc = true :=
      (fs.isDir_iff loc).mpr (fs.dir_above loc (n :: names) (by simp) ho)
    rw [append_cons] at ho ⊢
    have next := ih (loc ++ [n]) o ho hlast
    simp only [map_cons, walkWith, dir]
    by_cases last : names = []
    · subst last
      rw [append_nil] at ho
      cases o with
      | link t => simp [ho, hlast t rfl]
      | dir => simp [ho, walkWith]
      | file c => simp [ho, walkWith]
    · rw [fs.dir_above (loc ++ [n]) names last ho]
      exact next

theorem walk_to (hops : Nat) {o : Obj C T} (ho : fs.obj names = some o)
    (hlast : ∀ t, o = .link t → follow = false) :
    walk fs target follow hops [] (names.map .name) = .found names := by
  cases hops with
  | zero => exact walkWith_to names [] o ho hlast
  | succ hops => exact walkWith_to names [] o ho hlast

/-- Once a free name is taken by a directory, the walk that met it finds that directory. -/
theorem walkWith_fill (ext : Extends fs fs') (hnew : fs'.obj (loc ++ [n]) = some .dir)
    (hjump : ∀ l t r, jump l t r = .missing loc n → jump' l t r = .found (loc ++ [n]))
    (steps : List (Step N)) :
    ∀ start, walkWith fs false jump start steps = .missing loc n →
      walkWith fs' follow jump' start steps = .found (loc ++ [n]) := by
  induction steps with
  | nil =>
    intro start h
    cases h
  | cons s rest ih =>
    intro start h
    simp only [walkWith] at h ⊢
    split at h
    · cases h
    rename_i hdir
    have dir := ext.isDir (by simpa using hdir)
    rw [if_neg (by simp [dir])]
    cases s with
    | here => exact ih _ h
    | up => exact ih _ h
    | name m =>
      dsimp only at h ⊢
      split at h
      · split at h
        · rename_i last
          obtain ⟨rfl, rfl⟩ := Walk.missing.inj h
          rw [hnew, isEmpty_iff.mp last]
          rfl
        · cases h
      · rename_i t ht
        simp only [ext.link ht]
        split at h
        · cases h
        · rename_i notLast
          have more : rest.isEmpty = false := by simpa using notLast
          rw [if_neg (by simp [more])]
          exact hjump _ _ _ h
      · rename_i o notLink ho
        have next := ih _ h
        rcases ext _ _ ho with h' | ⟨c, c', rfl, h'⟩
        · rw [h']
          cases o with
          | dir => exact next
          | file c => exact next
          | link t => exact absurd rfl (notLink t)
        · rw [h']
          exact next

theorem walk_fill (ext : Extends fs fs') (hnew : fs'.obj (loc ++ [n]) = some .dir) (hops : Nat) :
    ∀ start steps, walk fs target false hops start steps = .missing loc n →
      walk fs' target follow hops start steps = .found (loc ++ [n]) := by
  induction hops with
  | zero =>
    intro start steps h
    exact walkWith_fill ext hnew (by intro l t r h; cases h) steps start h
  | succ hops ih =>
    intro start steps h
    refine walkWith_fill ext hnew ?_ steps start h
    intro l t r h
    split at h
    · cases h
    · exact ih _ _ h

/-- What follows a walk that found an object is walked from that object. -/
theorem walkWith_onto (htail : tail ≠ [])
    (hjump : ∀ l t r, jump l t r = .found loc → jump' l t (r ++ tail) = result)
    (hend : walkWith fs follow jump' loc tail = result) (steps : List (Step N)) :
    ∀ start, walkWith fs true jump start steps = .found loc →
      walkWith fs follow jump' start (steps ++ tail) = result := by
  induction steps with
  | nil =>
    intro start h
    obtain rfl := Walk.found.inj h
    exact hend
  | cons s rest ih =>
    intro start h
    simp only [cons_append, walkWith] at h ⊢
    split at h
    · cases h
    rename_i hdir
    rw [if_neg hdir]
    cases s with
    | here => exact ih _ h
    | up => exact ih _ h
    | name m =>
      dsimp only at h ⊢
      split at h
      · split at h <;> cases h
      · split at h
        · rename_i last
          simp at last
        · rw [if_neg (by simp [htail])]
          exact hjump _ _ _ h
      · exact ih _ h

theorem walk_onto (htail : tail ≠ []) (hend : ∀ jump, walkWith fs follow jump loc tail = result)
    (hops : Nat) :
    ∀ start steps, walk fs target true hops start steps = .found loc →
      walk fs target follow hops start (steps ++ tail) = result := by
  induction hops with
  | zero =>
    intro start steps h
    exact walkWith_onto htail (by intro l t r h; cases h) (hend _) steps start h
  | succ hops ih =>
    intro start steps h
    refine walkWith_onto htail ?_ (hend _) steps start h
    intro l t r h
    split at h
    · cases h
    · rw [← append_assoc]
      exact ih _ _ h

/-- A step that stays within directories follows on any walk that finds a directory. -/
theorem walk_dots {s : Step N} {loc' : List N}
    (hstep : ∀ jump, walkWith fs true jump loc [s] = .found loc') (hops : Nat) :
    ∀ start steps, walk fs target true hops start steps = .found loc →
      walk fs target true hops start (steps ++ [s]) = .found loc' :=
  walk_onto (by simp) hstep hops

/-- An object below a directory that a walk finds is found by its names behind that walk. -/
theorem walk_onto_names (hops : Nat) {o : Obj C T} (hnames : names ≠ [])
    (ho : fs.obj (loc ++ names) = some o) (hlast : ∀ t, o = .link t → follow = false)
    (h : walk fs target true hops start steps = .found loc) :
    walk fs target follow hops start (steps ++ names.map .name) = .found (loc ++ names) :=
  walk_onto (by simpa using hnames) (fun _ => walkWith_to names loc o ho hlast) hops start steps h

/-- A free name of a directory that a walk finds is missed behind that walk. -/
theorem walk_onto_free (hops : Nat) (hdir : fs.obj loc = some .dir)
    (hfree : fs.obj (loc ++ [n]) = none) (h : walk fs target true hops start steps = .found loc) :
    walk fs target follow hops start (steps ++ [.name n]) = .missing loc n := by
  have isDir : fs.isDir loc = true := (fs.isDir_iff loc).mpr hdir
  exact walk_onto (by simp) (fun jump => by simp [walkWith, isDir, hfree]) hops start steps h

/-- A walk has found an object wherever its path is cut. -/
theorem walkWith_split (hjump : ∀ k t r, jump k t (r ++ tail) = .found l →
      ∃ loc, jump k t r = .found loc ∧ ∃ jump', walkWith fs true jump' loc tail = .found l)
    (steps : List (Step N)) :
    ∀ start, walkWith fs true jump start (steps ++ tail) = .found l →
      ∃ loc, walkWith fs true jump start steps = .found loc ∧
        ∃ jump', walkWith fs true jump' loc tail = .found l := by
  induction steps with
  | nil =>
    intro start h
    exact ⟨start, rfl, jump, h⟩
  | cons s steps ih =>
    intro start h
    simp only [cons_append, walkWith] at h ⊢
    split at h
    · cases h
    rename_i hdir
    rw [if_neg hdir]
    cases s with
    | here => exact ih _ h
    | up => exact ih _ h
    | name m =>
      dsimp only at h ⊢
      split at h
      · split at h <;> cases h
      · rw [if_neg (by simp)] at h ⊢
        exact hjump _ _ _ h
      · exact ih _ h

theorem walk_split (hops : Nat) :
    ∀ start steps, walk fs target true hops start (steps ++ tail) = .found l →
      ∃ loc, walk fs target true hops start steps = .found loc ∧
        ∃ jump, walkWith fs true jump loc tail = .found l := by
  induction hops with
  | zero =>
    intro start steps h
    exact walkWith_split (by intro k t r h; cases h) steps start h
  | succ hops ih =>
    intro start steps h
    refine walkWith_split ?_ steps start h
    intro k t r h
    split at h
    · cases h
    · rw [← append_assoc] at h
      exact ih _ _ h

/-- A walk that gets past a name has found a directory where that name stands. -/
theorem walk_split_name (hops : Nat) {rest : List (Step N)}
    (h : walk fs target true hops start (steps ++ .name n :: rest) = .found l) :
    ∃ loc, walk fs target true hops start steps = .found loc ∧ fs.obj loc = some .dir ∧
      fs.obj (loc ++ [n]) ≠ none := by
  obtain ⟨loc, hloc, jump, hrest⟩ := walk_split hops start steps h
  refine ⟨loc, hloc, ?_⟩
  simp only [walkWith] at hrest
  split at hrest
  · cases hrest
  rename_i hdir
  refine ⟨(fs.isDir_iff loc).mp (by simpa using hdir), ?_⟩
  intro hnone
  rw [hnone] at hrest
  dsimp only at hrest
  split at hrest <;> cases hrest

/-- A walk that follows every link ends at none. -/
theorem walkWith_followed
    (hjump : ∀ l t r loc, (∀ t, fs.obj l ≠ some (.link t)) → jump l t r = .found loc →
      ∀ t, fs.obj loc ≠ some (.link t)) (steps : List (Step N)) :
    ∀ start loc, (∀ t, fs.obj start ≠ some (.link t)) →
      walkWith fs true jump start steps = .found loc → ∀ t, fs.obj loc ≠ some (.link t) := by
  induction steps with
  | nil =>
    intro start loc hstart h
    obtain rfl := Walk.found.inj h
    exact hstart
  | cons s rest ih =>
    intro start loc hstart h
    simp only [walkWith] at h
    split at h
    · cases h
    rename_i hdir
    have dir : fs.obj start = some .dir := (fs.isDir_iff start).mp (by simpa using hdir)
    cases s with
    | here => exact ih _ _ hstart h
    | up =>
      refine ih _ _ ?_ h
      intro t ht
      rw [fs.dir_dropLast dir] at ht
      cases ht
    | name m =>
      dsimp only at h
      split at h
      · split at h <;> cases h
      · rw [if_neg (by simp)] at h
        exact hjump _ _ _ _ hstart h
      · rename_i o hlink ho
        refine ih _ _ ?_ h
        intro t ht
        exact hlink t (Option.some.inj (ho.symm.trans ht))

theorem walk_followed (hops : Nat) :
    ∀ start steps loc, (∀ t, fs.obj start ≠ some (.link t)) →
      walk fs target true hops start steps = .found loc → ∀ t, fs.obj loc ≠ some (.link t) := by
  induction hops with
  | zero =>
    intro start steps loc hstart h
    exact walkWith_followed (by intro l t r loc _ h; cases h) steps start loc hstart h
  | succ hops ih =>
    intro start steps loc hstart h
    refine walkWith_followed ?_ steps start loc hstart h
    intro l t r loc hl h
    split at h
    · cases h
    · rename_i absolute _ _
      refine ih _ _ _ ?_ h
      cases absolute with
      | true =>
        intro t ht
        rw [if_pos rfl, fs.root] at ht
        cases ht
      | false => exact hl

end Facts

end FileTree
