import OddBuilder.Zstd.Extract

/-!
# Paths in front of the operating system

What the system makes of the path of an entry: a normal path is its names, up
to a zero byte. Along names that are no links it leads where it says, and the
link check of the extractor says when there are none.
-/

namespace JobZstd

open FileTree List

variable {names : Location} {tail : List (Step FileName)} {path : List Bytes}

/-- Components that are left in a normal path. -/
def Plain (c : Bytes) : Prop := c ≠ [] ∧ c ≠ dot ∧ c ≠ dotdot ∧ slash ∉ c

theorem splitPath_slash (s : Bytes) : ∀ c ∈ splitPath s, slash ∉ c := by
  induction s with
  | nil => simp [splitPath]
  | cons b s ih =>
    intro c hc
    simp only [splitPath] at hc
    split at hc
    · rcases mem_cons.mp hc with rfl | hc
      · simp
      · exact ih c hc
    · rename_i hb
      split at hc
      · obtain rfl := mem_singleton.mp hc
        simpa using fun h => hb h.symm
      · rename_i d ds hsplit
        rw [hsplit] at ih
        rcases mem_cons.mp hc with rfl | hc
        · have hd := ih d (by simp)
          simpa [hd] using fun h => hb h.symm
        · exact ih c (by simp [hc])

namespace NormalPath

theorem push_plain {p : NormalPath} (hp : ∀ c ∈ p.names, Plain c) {c : Bytes} (hc : slash ∉ c) :
    ∀ c' ∈ (p.push c).names, Plain c' := by
  intro c' hc'
  simp only [push] at hc'
  split at hc'
  · exact hp c' hc'
  · split at hc'
    · exact hp c' (mem_of_mem_dropLast hc')
    · rename_i hdots hup
      rcases mem_append.mp hc' with h | h
      · exact hp c' h
      · obtain rfl := mem_singleton.mp h
        exact ⟨fun h => hdots (Or.inl h), fun h => hdots (Or.inr h), hup, hc⟩

theorem foldl_push_plain (cs : List Bytes) (hcs : ∀ c ∈ cs, slash ∉ c) :
    ∀ p : NormalPath, (∀ c ∈ p.names, Plain c) → ∀ c ∈ (cs.foldl push p).names, Plain c := by
  induction cs with
  | nil => exact fun p hp => hp
  | cons c cs ih =>
    intro p hp
    exact ih (fun c' h => hcs c' (by simp [h])) _ (push_plain hp (hcs c (by simp)))

/-- Joining keeps a path normal. -/
theorem join_plain {p : NormalPath} (hp : ∀ c ∈ p.names, Plain c) (relative : Bytes) :
    ∀ c ∈ (p.join relative).names, Plain c :=
  foldl_push_plain _ (splitPath_slash relative) p hp

end NormalPath

theorem locationNames_plain (loc : Location) : ∀ c ∈ locationNames loc, Plain c := by
  intro c hc
  obtain ⟨n, _, rfl⟩ := mem_map.mp hc
  obtain ⟨hnil, hdot, hup, _, hslash⟩ := n.2
  exact ⟨hnil, hdot, hup, hslash⟩

theorem toStep_name (n : FileName) : toStep n.1 = .name n := by rw [toStep, dif_pos n.2]

theorem cString_locationNames (loc : Location) (cs : List Bytes) :
    cString (locationNames loc ++ cs) = locationNames loc ++ cString cs := by
  induction loc with
  | nil => rfl
  | cons n loc ih =>
    have noZero : (0 : UInt8) ∉ n.1 := n.2.2.2.2.1
    simp only [locationNames, map_cons, cons_append] at ih ⊢
    rw [cString, if_neg noZero, ih]

theorem map_toStep_locationNames (loc : Location) :
    (locationNames loc).map toStep = loc.map .name := by
  simp only [locationNames, map_map]
  exact map_congr_left fun n _ => toStep_name n

theorem cString_take (cs : List Bytes) : ∀ k, cString (cs.take k) = (cString cs).take k := by
  induction cs with
  | nil => intro k; simp [cString]
  | cons c cs ih =>
    intro k
    cases k with
    | zero => simp [cString]
    | succ k =>
      simp only [take_succ_cons, cString]
      split
      · simp
      · rw [ih k, take_succ_cons]

theorem cString_append_singleton (cs : List Bytes) {c : Bytes} (hc : 0 ∉ c) :
    cString (cs ++ [c]) = cString cs ∨ cString (cs ++ [c]) = cString cs ++ [c] := by
  induction cs with
  | nil => exact Or.inr (by simp [cString, hc])
  | cons d cs ih =>
    simp only [cons_append, cString]
    split
    · exact Or.inl rfl
    · rcases ih with h | h
      · exact Or.inl (by rw [h])
      · exact Or.inr (by rw [h]; rfl)

theorem length_cString_le (cs : List Bytes) : (cString cs).length ≤ cs.length := by
  induction cs with
  | nil => simp [cString]
  | cons c cs ih =>
    simp only [cString]
    split <;> simp [ih]

/-- The system sees names, and at most one step behind them that is none. -/
structure Literal (path : List Bytes) (names : Location) (tail : List (Step FileName)) : Prop where
  steps : (cString path).map toStep = names.map .name ++ tail
  dots : tail = [] ∨ tail = [.here] ∨ tail = [.up]

theorem toStep_cases (c : Bytes) :
    (∃ n, toStep c = .name n) ∨ toStep c = .here ∨ toStep c = .up := by
  simp only [toStep]
  split
  · exact Or.inl ⟨_, rfl⟩
  · split
    · exact Or.inr (Or.inr rfl)
    · exact Or.inr (Or.inl rfl)

theorem literal_of_plain {ends : List Bytes} (hends : ends = [] ∨ ends = [[]]) (cs : List Bytes)
    (hcs : ∀ c ∈ cs, Plain c) : ∃ names tail, Literal (cs ++ ends) names tail := by
  induction cs with
  | nil =>
    rcases hends with rfl | rfl
    · exact ⟨[], [], rfl, Or.inl rfl⟩
    · exact ⟨[], [.here], by simp [cString, toStep, ValidName, dotdot], Or.inr (Or.inl rfl)⟩
  | cons c cs ih =>
    obtain ⟨names, tail, hsteps, hdots⟩ := ih fun c' h => hcs c' (by simp [h])
    by_cases zero : 0 ∈ c
    · have cut : (cString (c :: cs ++ ends)).map toStep = [toStep (c.takeWhile (· ≠ 0))] := by
        rw [cons_append, cString, if_pos zero, map_singleton]
      rcases toStep_cases (c.takeWhile (· ≠ 0)) with ⟨n, h⟩ | h | h
      · exact ⟨[n], [], by rw [cut, h]; rfl, Or.inl rfl⟩
      · exact ⟨[], [.here], by rw [cut, h]; rfl, Or.inr (Or.inl rfl)⟩
      · exact ⟨[], [.up], by rw [cut, h]; rfl, Or.inr (Or.inr rfl)⟩
    · obtain ⟨hnil, hdot, hup, hslash⟩ := hcs c (by simp)
      have valid : ValidName c := ⟨hnil, hdot, hup, zero, hslash⟩
      refine ⟨⟨c, valid⟩ :: names, tail, ?_, hdots⟩
      simp [cString, zero, hsteps, toStep, valid]

theorem Literal.take (h : Literal path names tail) (k : Nat) :
    Literal (path.take k) (names.take k) (tail.take (k - names.length)) := by
  refine ⟨?_, ?_⟩
  · rw [cString_take, map_take, h.steps, take_append, length_map, map_take]
  · cases k - names.length with
    | zero => simp
    | succ j => rcases h.dots with rfl | rfl | rfl <;> simp

theorem Literal.length_le (h : Literal path names tail) : names.length ≤ path.length := by
  have hlen := congrArg List.length h.steps
  have hcut := length_cString_le path
  simp only [length_map, length_append] at hlen
  omega

/-- Names at the beginning of names and a dot stand in the names. -/
theorem name_prefix {front : Location} {rest : List (Step FileName)}
    (dots : tail = [] ∨ tail = [.here] ∨ tail = [.up])
    (h : front.map .name ++ rest = names.map .name ++ tail) : front <+: names := by
  have inj : Function.Injective (List.map (Step.name (N := FileName))) :=
    map_injective_iff.mpr fun a b h => by simpa using h
  rcases append_eq_append_iff.mp h with ⟨mid, hnames, _⟩ | ⟨mid, hfront, htail⟩
  · obtain ⟨start, back, rfl, hstart, _⟩ := map_eq_append_iff.mp hnames
    exact ⟨back, by rw [inj hstart]⟩
  · obtain ⟨start, back, rfl, hstart, hback⟩ := map_eq_append_iff.mp hfront
    have none : back = [] := by
      cases back with
      | nil => rfl
      | cons n back =>
        rw [← hback] at htail
        rcases dots with h | h | h <;> simp [h] at htail
    rw [none, append_nil, inj hstart]

/-- A path behind a location's names leads through that location. -/
theorem Literal.base_le {rest : List Bytes} {base : Location} (h : Literal path names tail)
    (hbase : path = locationNames base ++ rest) : base <+: names := by
  have hsteps := h.steps
  rw [hbase, cString_locationNames, map_append, map_toStep_locationNames] at hsteps
  exact name_prefix h.dots hsteps

section Resolution

variable {fs : FileSystem} {path : List Bytes} {names : Location} {tail : List (Step FileName)}

theorem resolve_cases (lit : Literal path names tail) (free : NoLink fs [] names) (follow : Bool) :
    resolve fs follow path = walk fs linkTarget follow maxLinks names tail ∨
      (∃ front n, names = front ++ [n] ∧ resolve fs follow path = .missing front n) ∨
      resolve fs follow path = .failed := by
  simp only [resolve, lit.steps]
  rcases walk_names maxLinks tail free with h | ⟨_, front, n, hnames, h⟩ | h
  · exact Or.inl h
  · exact Or.inr (Or.inl ⟨front, n, hnames, h⟩)
  · exact Or.inr (Or.inr h)

/-- Behind the names stands nothing, or a directory is left where it is. -/
theorem walk_tail (dots : tail = [] ∨ tail = [.here] ∨ tail = [.up]) (follow : Bool) (hops : Nat) :
    (tail = [] ∧ walk fs linkTarget follow hops names tail = .found names) ∨
      (∃ loc, walk fs linkTarget follow hops names tail = .found loc ∧
        fs.obj loc = some .dir) ∨
      walk fs linkTarget follow hops names tail = .failed := by
  rcases dots with rfl | rfl | rfl
  · refine Or.inl ⟨rfl, ?_⟩
    cases hops <;> rfl
  · by_cases dir : fs.isDir names = true
    · refine Or.inr (Or.inl ⟨names, ?_, (fs.isDir_iff names).mp dir⟩)
      cases hops <;> simp [walk, walkWith, dir]
    · refine Or.inr (Or.inr ?_)
      cases hops <;> simp [walk, walkWith, dir]
  · by_cases dir : fs.isDir names = true
    · refine Or.inr (Or.inl ⟨names.dropLast, ?_, ?_⟩)
      · cases hops <;> simp [walk, walkWith, dir]
      · exact fs.dir_dropLast ((fs.isDir_iff names).mp dir)
    · refine Or.inr (Or.inr ?_)
      cases hops <;> simp [walk, walkWith, dir]

theorem resolve_missing (lit : Literal path names tail) (free : NoLink fs [] names) {follow : Bool}
    {loc : Location} {n : FileName} (h : resolve fs follow path = .missing loc n) :
    names = loc ++ [n] := by
  rcases resolve_cases lit free follow with hwalk | ⟨front, m, hnames, hmiss⟩ | hfail
  · rw [hwalk] at h
    rcases walk_tail lit.dots follow maxLinks with ⟨_, hf⟩ | ⟨l, hf, _⟩ | hf
    all_goals rw [hf] at h; cases h
  · rw [hmiss] at h
    obtain ⟨rfl, rfl⟩ := Walk.missing.inj h
    exact hnames
  · rw [hfail] at h
    cases h

theorem resolve_found (lit : Literal path names tail) (free : NoLink fs [] names) {follow : Bool}
    {loc : Location} (h : resolve fs follow path = .found loc) :
    loc = names ∨ fs.obj loc = some .dir := by
  rcases resolve_cases lit free follow with hwalk | ⟨front, m, _, hmiss⟩ | hfail
  · rw [hwalk] at h
    rcases walk_tail lit.dots follow maxLinks with ⟨_, hf⟩ | ⟨l, hf, hdir⟩ | hf
    · rw [hf] at h
      exact Or.inl (Walk.found.inj h).symm
    · rw [hf] at h
      obtain rfl := Walk.found.inj h
      exact Or.inr hdir
    · rw [hf] at h
      cases h
  · rw [hmiss] at h
    cases h
  · rw [hfail] at h
    cases h

theorem verifyParts_iff (fs : FileSystem) (parts : List Bytes) :
    ∀ current, verifyParts fs current parts = true ↔
      ∀ k < parts.length, ∀ t, lstat fs (current ++ parts.take (k + 1)) ≠ some (.link t) := by
  induction parts with
  | nil => simp [verifyParts]
  | cons part parts ih =>
    intro current
    constructor
    · intro h k hk t
      simp only [verifyParts] at h
      split at h
      · cases h
      rename_i noLink
      cases k with
      | zero => simpa using noLink t
      | succ k =>
        have next := (ih (current ++ [part])).mp h k (by simpa using hk) t
        simpa using next
    · intro h
      simp only [verifyParts]
      split
      · rename_i t ht
        exact absurd (by simpa using ht) (h 0 (by simp) t)
      · refine (ih _).mpr fun k hk t => ?_
        simpa using h (k + 1) (by simpa using hk) t

/-- The check passes exactly the paths along which no link stands, the last name included. -/
theorem verifyParts_noLink (lit : Literal path names tail) :
    verifyParts fs [] path = true ↔ NoLink fs [] names := by
  rw [verifyParts_iff]
  constructor
  · intro h front back hsplit t ht
    rw [nil_append] at ht
    have nonempty : front ≠ [] := by
      rintro rfl
      rw [fs.root] at ht
      cases ht
    obtain ⟨k, hk⟩ := Nat.exists_eq_succ_of_ne_zero (mt length_eq_zero_iff.mp nonempty)
    have hlen := lit.length_le
    have hcut := (lit.take (k + 1)).steps
    have hnames : names.take (k + 1) = front := by
      rw [hsplit, ← Nat.succ_eq_add_one, ← hk, take_left]
    have hshort : k + 1 ≤ names.length := by
      have := congrArg List.length hsplit
      rw [length_append] at this
      omega
    rw [hnames, Nat.sub_eq_zero_of_le hshort, take_zero, append_nil] at hcut
    refine h k (by omega) t ?_
    rw [nil_append, lstat, resolve, hcut, walk_to maxLinks ht (fun _ _ => rfl)]
    exact ht
  · intro free k _ t ht
    have freeTake : NoLink fs [] (names.take (k + 1)) := free.take _
    rw [lstat] at ht
    split at ht
    · rename_i loc hloc
      rcases resolve_found (lit.take (k + 1)) freeTake hloc with rfl | hdir
      · exact freeTake (names.take (k + 1)) [] (by simp) t ht
      · rw [hdir] at ht
        cases ht
    · cases ht

end Resolution

end JobZstd
