import Mathlib.Data.List.Count
import Mathlib.Logic.Function.Basic
import Mathlib.Logic.Relation

/-!
# Search for a cycle

Depth-first search with three colours over the successor lists of a graph. It
answers that there is a cycle as soon as an edge leads to a vertex that is being
visited. The bound is on the depth of the recursion; the number of vertices is
enough.
-/

namespace CycleSearch

open Relation List Function Option

inductive Color where
  | unvisited
  | visiting
  | done
  deriving DecidableEq

variable {V : Type} [DecidableEq V]

/-- The successors of a vertex one after another; `none` is the answer that there is a cycle. -/
def scan (visit : (V → Color) → V → Option (V → Color)) : List V → (V → Color) → Option (V → Color)
  | [], color => some color
  | v :: rest, color =>
    match color v with
    | .visiting => none
    | .unvisited => (visit color v).bind (scan visit rest)
    | .done => scan visit rest color

def dfs (succ : V → List V) : Nat → (V → Color) → V → Option (V → Color)
  | 0, color, _ => some color
  | depth + 1, color, u =>
    (scan (dfs succ depth) (succ u) (Function.update color u .visiting)).map
      (Function.update · u .done)

/-- The vertices one after another, those already visited left out. -/
def roots (succ : V → List V) (depth : Nat) : List V → (V → Color) → Option (V → Color)
  | [], color => some color
  | v :: rest, color =>
    match color v with
    | .unvisited => (dfs succ depth color v).bind (roots succ depth rest)
    | _ => roots succ depth rest color

def hasCycle (succ : V → List V) (vertices : List V) : Bool :=
  (roots succ vertices.length vertices fun _ => .unvisited).isNone

def Edge (succ : V → List V) (u v : V) : Prop := v ∈ succ u

/-- What a search leaves as it was, and what it does not take back. -/
structure Extends (color color' : V → Color) : Prop where
  visiting : ∀ v, color' v = .visiting ↔ color v = .visiting
  done : ∀ v, color v = .done → color' v = .done

section

omit [DecidableEq V]

theorem Extends.refl (color : V → Color) : Extends color color :=
  ⟨fun _ => Iff.rfl, fun _ => id⟩

theorem Extends.trans {a b c : V → Color} (h : Extends a b) (h' : Extends b c) : Extends a c :=
  ⟨fun v => (h'.visiting v).trans (h.visiting v), fun v hv => h'.done v (h.done v hv)⟩

end

/-- A vertex that was unvisited is done in the end; what lies between extends. -/
theorem Extends.finish {color color' : V → Color} {u : V} (hu : color u = .unvisited)
    (h : Extends (Function.update color u .visiting) color') :
    Extends color (Function.update color' u .done) := by
  constructor
  · intro v
    by_cases hv : v = u
    · subst hv
      simp [hu]
    · simpa [hv] using h.visiting v
  · intro v hv
    by_cases hvu : v = u
    · subst hvu
      exact update_self ..
    · rw [update_of_ne hvu]
      apply h.done
      rw [update_of_ne hvu]
      exact hv

variable {succ : V → List V} {visit : (V → Color) → V → Option (V → Color)}

omit [DecidableEq V] in
theorem scan_extends (hvisit : ∀ color v color', color v = .unvisited →
      visit color v = some color' → Extends color color') {vs : List V} {color color' : V → Color}
    (h : scan visit vs color = some color') : Extends color color' := by
  induction vs generalizing color with
  | nil =>
    cases h
    exact Extends.refl _
  | cons v rest ih =>
    cases hv : color v with
    | visiting => simp [scan, hv] at h
    | done =>
      simp only [scan, hv] at h
      exact ih h
    | unvisited =>
      simp only [scan, hv] at h
      obtain ⟨mid, hmid, hrest⟩ := bind_eq_some_iff.1 h
      exact (hvisit _ _ _ hv hmid).trans (ih hrest)

theorem dfs_extends {depth : Nat} {color color' : V → Color} {u : V} (hu : color u = .unvisited)
    (h : dfs succ depth color u = some color') : Extends color color' := by
  induction depth generalizing color color' u with
  | zero =>
    cases h
    exact Extends.refl _
  | succ depth ih =>
    obtain ⟨mid, hmid, rfl⟩ := map_eq_some_iff.1 h
    exact Extends.finish hu (scan_extends (fun _ _ _ => ih) hmid)

/-- All that is being visited leads to `u`. -/
def Below (succ : V → List V) (color : V → Color) (u : V) : Prop :=
  ∀ g, color g = .visiting → ReflTransGen (Edge succ) g u

omit [DecidableEq V] in
theorem scan_none (visit : (V → Color) → V → Option (V → Color)) (hextends : ∀ color v color', color v = .unvisited →
      visit color v = some color' → Extends color color')
    (hvisit : ∀ color v, color v = .unvisited → (∀ g, color g = .visiting →
      TransGen (Edge succ) g v) → visit color v = none → ∃ x, TransGen (Edge succ) x x)
    {u : V} {vs : List V} (hvs : ∀ v ∈ vs, Edge succ u v) {color : V → Color}
    (hbelow : Below succ color u) (h : scan visit vs color = none) :
    ∃ x, TransGen (Edge succ) x x := by
  induction vs generalizing color with
  | nil => cases h
  | cons v rest ih =>
    have hedge : Edge succ u v := hvs v mem_cons_self
    have hrest : ∀ w ∈ rest, Edge succ u w := fun w hw => hvs w (mem_cons_of_mem _ hw)
    cases hv : color v with
    | visiting => exact ⟨u, TransGen.head' hedge (hbelow v hv)⟩
    | done =>
      simp only [scan, hv] at h
      exact ih hrest hbelow h
    | unvisited =>
      simp only [scan, hv] at h
      cases hmid : visit color v with
      | none =>
        exact hvisit color v hv (fun g hg => TransGen.tail' (hbelow g hg) hedge) hmid
      | some mid =>
        rw [hmid] at h
        refine ih hrest ?_ h
        intro g hg
        exact hbelow g (((hextends _ _ _ hv hmid).visiting g).1 hg)

theorem dfs_none {depth : Nat} {color : V → Color} {u : V}
    (hbelow : ∀ g, color g = .visiting → TransGen (Edge succ) g u)
    (h : dfs succ depth color u = none) : ∃ x, TransGen (Edge succ) x x := by
  induction depth generalizing color u with
  | zero => cases h
  | succ depth ih =>
    refine scan_none (dfs succ depth) (fun _ _ _ => dfs_extends) ?_ (u := u) (fun v hv => hv)
      ?_ (map_eq_none_iff.1 h)
    · intro color v _ hvisiting hnone
      exact ih hvisiting hnone
    · intro g hg
      by_cases hgu : g = u
      · rw [hgu]
      · rw [update_of_ne hgu] at hg
        exact (hbelow g hg).to_reflTransGen

/-- The vertices that are done have only such successors, and no cycle among them. -/
structure Settled (succ : V → List V) (color : V → Color) : Prop where
  closed : ∀ u v, color u = .done → Edge succ u v → color v = .done
  acyclic : ∀ u, color u = .done → ¬ TransGen (Edge succ) u u

omit [DecidableEq V] in
theorem Settled.done_of_path {color : V → Color} (h : Settled succ color) {u v : V}
    (hu : color u = .done) (hpath : ReflTransGen (Edge succ) u v) : color v = .done := by
  induction hpath with
  | refl => exact hu
  | tail _ hedge ih => exact h.closed _ _ ih hedge

theorem Settled.start {color : V → Color} (h : Settled succ color) {u : V}
    (hu : color u = .unvisited) : Settled succ (Function.update color u .visiting) := by
  have hdone : ∀ v, Function.update color u .visiting v = .done ↔ color v = .done := by
    intro v
    by_cases hv : v = u
    · subst hv
      simp [hu]
    · simp [hv]
  constructor
  · intro v w hv hedge
    exact (hdone w).2 (h.closed v w ((hdone v).1 hv) hedge)
  · intro v hv
    exact h.acyclic v ((hdone v).1 hv)

theorem Settled.finish {color : V → Color} (h : Settled succ color) {u : V}
    (hu : color u = .visiting) (hsucc : ∀ v ∈ succ u, color v = .done) :
    Settled succ (Function.update color u .done) := by
  have hdone : ∀ v, color v = .done → Function.update color u .done v = .done := by
    intro v hv
    by_cases hvu : v = u
    · subst hvu
      exact update_self ..
    · rw [update_of_ne hvu]
      exact hv
  constructor
  · intro v w hv hedge
    by_cases hvu : v = u
    · subst hvu
      exact hdone w (hsucc w hedge)
    · rw [update_of_ne hvu] at hv
      exact hdone w (h.closed v w hv hedge)
  · intro v hv hcycle
    by_cases hvu : v = u
    · subst hvu
      -- the cycle would lead from a successor that is done back to a vertex that is not
      obtain ⟨w, hedge, hback⟩ := TransGen.head'_iff.1 hcycle
      have hvdone := h.done_of_path (hsucc w hedge) hback
      rw [hu] at hvdone
      cases hvdone
    · rw [update_of_ne hvu] at hv
      exact h.acyclic v hv hcycle

def unvisitedCount (vertices : List V) (color : V → Color) : Nat :=
  vertices.countP (color · = .unvisited)

omit [DecidableEq V] in
theorem Extends.unvisitedCount_le (vertices : List V) {color color' : V → Color}
    (h : Extends color color') : unvisitedCount vertices color' ≤ unvisitedCount vertices color := by
  apply countP_mono_left
  intro v _ hv
  simp only [decide_eq_true_eq] at hv ⊢
  cases hcolor : color v with
  | unvisited => rfl
  | visiting =>
    rw [(h.visiting v).2 hcolor] at hv
    cases hv
  | done =>
    rw [h.done v hcolor] at hv
    cases hv

theorem unvisitedCount_visit {vertices : List V} {color : V → Color} {u : V} (hu : u ∈ vertices)
    (hcolor : color u = .unvisited) :
    unvisitedCount vertices (Function.update color u .visiting) < unvisitedCount vertices color := by
  induction vertices with
  | nil => simp at hu
  | cons v rest ih =>
    have hle : unvisitedCount rest (Function.update color u .visiting) ≤
        unvisitedCount rest color := by
      apply countP_mono_left
      intro w _ hw
      by_cases hwu : w = u
      · simp [hwu, hcolor]
      · simpa [hwu] using hw
    by_cases hvu : v = u
    · subst hvu
      simp only [unvisitedCount, countP_cons, update_self, hcolor, reduceCtorEq,
        decide_false, decide_true, if_false, if_true] at hle ⊢
      omega
    · have hrest := ih ((mem_cons.1 hu).resolve_left (Ne.symm hvu))
      simp only [unvisitedCount, countP_cons, update_of_ne hvu] at hrest ⊢
      omega

variable {vertices : List V}

omit [DecidableEq V] in
theorem scan_settled {depth : Nat} (hextends : ∀ color v color', color v = .unvisited →
      visit color v = some color' → Extends color color')
    (hvisit : ∀ color v color', v ∈ vertices → color v = .unvisited → Settled succ color →
      unvisitedCount vertices color ≤ depth → visit color v = some color' →
      Settled succ color' ∧ color' v = .done)
    {vs : List V} (hvs : ∀ v ∈ vs, v ∈ vertices) {color color' : V → Color}
    (hsettled : Settled succ color) (hdepth : unvisitedCount vertices color ≤ depth)
    (h : scan visit vs color = some color') :
    Settled succ color' ∧ ∀ v ∈ vs, color' v = .done := by
  induction vs generalizing color with
  | nil =>
    cases h
    exact ⟨hsettled, by simp⟩
  | cons v rest ih =>
    have hrest : ∀ w ∈ rest, w ∈ vertices := fun w hw => hvs w (mem_cons_of_mem _ hw)
    cases hv : color v with
    | visiting => simp [scan, hv] at h
    | done =>
      simp only [scan, hv] at h
      obtain ⟨hsettled', hdone⟩ := ih hrest hsettled hdepth h
      exact ⟨hsettled', forall_mem_cons.2 ⟨(scan_extends hextends h).done v hv, hdone⟩⟩
    | unvisited =>
      simp only [scan, hv] at h
      obtain ⟨mid, hmid, hafter⟩ := bind_eq_some_iff.1 h
      obtain ⟨hsettledMid, hvdone⟩ :=
        hvisit _ _ _ (hvs v mem_cons_self) hv hsettled hdepth hmid
      have hle := (hextends _ _ _ hv hmid).unvisitedCount_le vertices
      obtain ⟨hsettled', hdone⟩ := ih hrest hsettledMid (Nat.le_trans hle hdepth) hafter
      exact ⟨hsettled', forall_mem_cons.2 ⟨(scan_extends hextends hafter).done v hvdone, hdone⟩⟩

theorem dfs_settled (hclosed : ∀ u ∈ vertices, ∀ v ∈ succ u, v ∈ vertices) {depth : Nat}
    {color color' : V → Color} {u : V} (hu : u ∈ vertices) (hcolor : color u = .unvisited)
    (hsettled : Settled succ color) (hdepth : unvisitedCount vertices color ≤ depth)
    (h : dfs succ depth color u = some color') : Settled succ color' ∧ color' u = .done := by
  induction depth generalizing color color' u with
  | zero =>
    have hlt := unvisitedCount_visit hu hcolor
    omega
  | succ depth ih =>
    obtain ⟨mid, hmid, rfl⟩ := map_eq_some_iff.1 h
    have hlt := unvisitedCount_visit hu hcolor
    obtain ⟨hsettledMid, hdone⟩ := scan_settled (fun _ _ _ => dfs_extends)
      (fun _ _ _ hv hcolor hsettled hdepth => ih hv hcolor hsettled hdepth) (hclosed u hu)
      (hsettled.start hcolor) (by omega) hmid
    have hvisiting : mid u = .visiting :=
      ((scan_extends (fun _ _ _ => dfs_extends) hmid).visiting u).2 (update_self ..)
    exact ⟨hsettledMid.finish hvisiting hdone, update_self ..⟩

theorem roots_none {depth : Nat} {vs : List V} {color : V → Color}
    (hvisiting : ∀ v, color v ≠ .visiting) (h : roots succ depth vs color = none) :
    ∃ x, TransGen (Edge succ) x x := by
  induction vs generalizing color with
  | nil => cases h
  | cons v rest ih =>
    cases hv : color v with
    | visiting => exact absurd hv (hvisiting v)
    | done =>
      simp only [roots, hv] at h
      exact ih hvisiting h
    | unvisited =>
      simp only [roots, hv] at h
      cases hmid : dfs succ depth color v with
      | none => exact dfs_none (fun g hg => absurd hg (hvisiting g)) hmid
      | some mid =>
        rw [hmid] at h
        refine ih ?_ h
        intro w hw
        exact hvisiting w (((dfs_extends hv hmid).visiting w).1 hw)

theorem roots_settled (hclosed : ∀ u ∈ vertices, ∀ v ∈ succ u, v ∈ vertices) {vs : List V}
    (hvs : ∀ v ∈ vs, v ∈ vertices) {color color' : V → Color} (hsettled : Settled succ color)
    (hvisiting : ∀ v, color v ≠ .visiting)
    (h : roots succ vertices.length vs color = some color') :
    Settled succ color' ∧ Extends color color' ∧ ∀ v ∈ vs, color' v = .done := by
  induction vs generalizing color with
  | nil =>
    cases h
    exact ⟨hsettled, Extends.refl _, by simp⟩
  | cons v rest ih =>
    have hrest : ∀ w ∈ rest, w ∈ vertices := fun w hw => hvs w (mem_cons_of_mem _ hw)
    cases hv : color v with
    | visiting => exact absurd hv (hvisiting v)
    | done =>
      simp only [roots, hv] at h
      obtain ⟨hsettled', hextends, hdone⟩ := ih hrest hsettled hvisiting h
      exact ⟨hsettled', hextends, forall_mem_cons.2 ⟨hextends.done v hv, hdone⟩⟩
    | unvisited =>
      simp only [roots, hv] at h
      obtain ⟨mid, hmid, hafter⟩ := bind_eq_some_iff.1 h
      obtain ⟨hsettledMid, hvdone⟩ := dfs_settled hclosed (hvs v mem_cons_self) hv hsettled
        countP_le_length hmid
      have hmidExtends := dfs_extends hv hmid
      obtain ⟨hsettled', hextends, hdone⟩ := ih hrest hsettledMid
        (fun w hw => hvisiting w ((hmidExtends.visiting w).1 hw)) hafter
      exact ⟨hsettled', hmidExtends.trans hextends,
        forall_mem_cons.2 ⟨hextends.done v hvdone, hdone⟩⟩

/-- The search is exact: self edges and longer cycles, and nothing else. -/
theorem hasCycle_iff (hclosed : ∀ u ∈ vertices, ∀ v ∈ succ u, v ∈ vertices)
    (hall : ∀ u, u ∉ vertices → succ u = []) :
    hasCycle succ vertices = true ↔ ∃ x, TransGen (Edge succ) x x := by
  constructor
  · intro h
    exact roots_none (fun v => by simp) (isNone_iff_eq_none.1 h)
  · rintro ⟨x, hcycle⟩
    by_contra hne
    obtain ⟨color', hroots⟩ := ne_none_iff_exists'.1
      (fun hnone => hne (isNone_iff_eq_none.2 hnone))
    obtain ⟨hsettled, -, hdone⟩ := roots_settled hclosed (fun v hv => hv)
      ⟨fun _ _ hu => by simp at hu, fun _ hu => by simp at hu⟩ (fun v => by simp) hroots
    have hx : x ∈ vertices := by
      by_contra hx
      obtain ⟨w, hedge⟩ := TransGen.head'_iff.1 hcycle
      rw [Edge, hall x hx] at hedge
      simp at hedge
    exact hsettled.acyclic x (hdone x hx) hcycle

end CycleSearch
