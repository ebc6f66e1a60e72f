import OddBuilder.Ansi.Typing

/-!
# Shared attributes

Cells, pen and cache point at the same objects. `Linked` says of a screen that each
object it holds is there, and still equal to the value that the cache knows it by.
Every operation that edits no object in place keeps that.
-/

namespace JobAnsi

open CountedLoop List AttributeStore

namespace AttributeStore

variable {store : AttributeStore} {alive : Ref → Bool} {attr : Attributes} {r : Ref}

/-- The cache points at objects that are there, at each once, and not at the static one. -/
structure Closed (store : AttributeStore) : Prop where
  nonempty : 0 < store.objects.length
  inside : ∀ entry ∈ store.cache, 0 < entry.2 ∧ entry.2 < store.objects.length
  distinct : (store.cache.map Prod.snd).Nodup

/-- The object is there, and equal to the value under which the cache finds it. -/
def Good (store : AttributeStore) (r : Ref) : Prop :=
  r < store.objects.length ∧ ∀ entry ∈ store.cache, entry.2 = r →
    entry.1.equal (store.value r) = true

/-- A cache with fewer entries over the same objects. -/
structure Shrinks (store kept : AttributeStore) : Prop where
  objects_eq : kept.objects = store.objects
  cache_sublist : kept.cache.Sublist store.cache

theorem Shrinks.closed {kept : AttributeStore} (h : store.Shrinks kept) (hclosed : store.Closed) :
    kept.Closed :=
  ⟨h.objects_eq ▸ hclosed.nonempty,
    fun entry hentry => h.objects_eq ▸ hclosed.inside entry (h.cache_sublist.subset hentry),
    hclosed.distinct.sublist (h.cache_sublist.map _)⟩

theorem Shrinks.good {kept : AttributeStore} (h : store.Shrinks kept) (hgood : store.Good r) :
    kept.Good r := by
  refine ⟨h.objects_eq ▸ hgood.1, fun entry hentry hr => ?_⟩
  rw [value, h.objects_eq]
  exact hgood.2 entry (h.cache_sublist.subset hentry) hr

theorem collect_shrinks (alive : Ref → Bool) (store : AttributeStore) :
    store.Shrinks (store.collect alive) := by
  unfold collect
  split
  · exact ⟨rfl, filter_sublist⟩
  · exact ⟨rfl, List.Sublist.refl _⟩

/-- Interning gives an object that is held, or makes a new one. -/
theorem intern_cases (alive : Ref → Bool) (attr : Attributes) (store : AttributeStore) :
    (∃ entry ∈ store.cache, entry.1.equal attr = true ∧ alive entry.2 = true ∧
      store.intern alive attr = (entry.2, store)) ∨
      ∃ kept, store.Shrinks kept ∧ store.intern alive attr = kept.insert attr := by
  unfold intern
  split
  · rename_i entry hfind
    split
    · have hkey := List.find?_some hfind
      exact .inl ⟨entry, mem_of_find?_eq_some hfind, hkey, by assumption, rfl⟩
    · refine .inr ⟨_, ?_, rfl⟩
      have hcollect := collect_shrinks alive
        { store with cache := store.cache.eraseP fun entry => entry.1.equal attr }
      exact ⟨hcollect.objects_eq, hcollect.cache_sublist.trans eraseP_sublist⟩
  · exact .inr ⟨_, collect_shrinks alive store, rfl⟩

theorem insert_value (hr : r < store.objects.length) :
    (store.insert attr).2.value r = store.value r := by
  simp [insert, value, List.getElem?_append_left hr]

theorem insert_new (attr : Attributes) (store : AttributeStore) :
    (store.insert attr).2.value (store.insert attr).1 = attr := by
  simp [insert, value]

theorem insert_closed (h : store.Closed) (attr : Attributes) : (store.insert attr).2.Closed := by
  refine ⟨by simp [insert], fun entry hentry => ?_, ?_⟩
  · simp only [insert, mem_cons, length_append] at hentry ⊢
    rcases hentry with rfl | hentry
    · exact ⟨h.nonempty, Nat.lt_succ_self _⟩
    · have hinside := h.inside entry hentry
      exact ⟨hinside.1, Nat.lt_succ_of_lt hinside.2⟩
  · simp only [insert, map_cons, nodup_cons]
    refine ⟨fun hmem => ?_, h.distinct⟩
    obtain ⟨entry, hentry, heq⟩ := mem_map.1 hmem
    exact absurd (h.inside entry hentry).2 (by rw [heq]; exact Nat.lt_irrefl _)

theorem insert_good (hgood : store.Good r) : (store.insert attr).2.Good r := by
  refine ⟨by
    simp only [insert, length_append]
    exact Nat.lt_succ_of_lt hgood.1, fun entry hentry hr => ?_⟩
  rw [insert_value hgood.1]
  rcases mem_cons.1 hentry with rfl | hold
  · exact absurd hgood.1 (by rw [← hr]; exact Nat.lt_irrefl _)
  · exact hgood.2 entry hold hr

theorem insert_good_new (h : store.Closed) (attr : Attributes) :
    (store.insert attr).2.Good (store.insert attr).1 := by
  refine ⟨by simp [insert], fun entry hentry hr => ?_⟩
  rw [insert_new]
  rcases mem_cons.1 hentry with rfl | hold
  · exact Attributes.equal_refl attr
  · exact absurd (h.inside entry hold).2 (by rw [hr]; exact Nat.lt_irrefl _)

theorem intern_closed (h : store.Closed) : (store.intern alive attr).2.Closed := by
  rcases intern_cases alive attr store with ⟨entry, -, -, -, heq⟩ | ⟨kept, hkept, heq⟩
  · rw [heq]
    exact h
  · rw [heq]
    exact insert_closed (hkept.closed h) attr

theorem intern_good (hgood : store.Good r) : (store.intern alive attr).2.Good r := by
  rcases intern_cases alive attr store with ⟨entry, -, -, -, heq⟩ | ⟨kept, hkept, heq⟩
  · rw [heq]
    exact hgood
  · rw [heq]
    exact insert_good (hkept.good hgood)

/-- An interned object is good where every object held is. -/
theorem intern_good_new (h : store.Closed) (halive : ∀ r, alive r = true → store.Good r) :
    (store.intern alive attr).2.Good (store.intern alive attr).1 := by
  rcases intern_cases alive attr store with ⟨entry, -, -, hentry, heq⟩ | ⟨kept, hkept, heq⟩
  · rw [heq]
    exact halive _ hentry
  · rw [heq]
    exact insert_good_new (hkept.closed h) attr

theorem initial_closed : initial.Closed := ⟨by decide, by simp [initial], by simp [initial]⟩

/-- The static object is in no cache. -/
theorem Closed.good_default (h : store.Closed) : store.Good defaultAttributes :=
  ⟨h.nonempty, fun entry hentry hr => absurd (h.inside entry hentry).1 (by
    rw [hr]
    exact Nat.lt_irrefl _)⟩

end AttributeStore

/-- The object of the cell, if it has one, is one of `Q`. -/
def Cell.Uses (Q : Ref → Prop) (cell : Cell) : Prop := ∀ r, cell.attr = some r → Q r

namespace Grid

variable {Q : Ref → Prop} {g : Grid}

def Uses (Q : Ref → Prop) (g : Grid) : Prop := ∀ x ∈ g.cells, x.Uses Q

theorem Uses.cell (h : g.Uses Q) (row col : Int) : (g.cell row col).Uses Q := by
  intro r hr
  rw [Grid.cell] at hr
  cases hx : g.cells[(g.place row col).toNat]? with
  | none => simp [hx] at hr
  | some x => exact h x (mem_of_getElem? hx) r (by simpa [hx] using hr)

theorem Uses.store (h : g.Uses Q) {x : Cell} (hx : x.Uses Q) (row col : Int) :
    (g.store row col x).Uses Q := by
  intro y hy
  rcases mem_or_eq_of_mem_set hy with hold | rfl
  · exact h y hold
  · exact hx

theorem Uses.checks (h : g.Uses Q) (b : Bool) : (g.checks b).Uses Q := h

theorem Uses.copyCell (h : g.Uses Q) (row col toRow toCol : Int) :
    (g.copyCell row col toRow toCol).Uses Q :=
  (h.checks _).store (h.cell row col) _ _

theorem Uses.moveLine (h : g.Uses Q) (src dst : Int) : (g.moveLine src dst).Uses Q :=
  upTo_keeps (P := Grid.Uses Q) h fun _ _ _ _ hg => hg.copyCell _ _ _ _

theorem Uses.fillLine (h : g.Uses Q) {fill : Cell} (hfill : fill.Uses Q) (row : Int) :
    (Grid.fillLine fill row g).Uses Q :=
  upTo_keeps (P := Grid.Uses Q) h fun _ _ _ _ hg => hg.store hfill _ _

theorem Uses.insertLines (h : g.Uses Q) {fill : Cell} (hfill : fill.Uses Q)
    (startRow count limitRow : Int) : (g.insertLines startRow count fill limitRow).Uses Q := by
  unfold Grid.insertLines
  dsimp only
  split
  · exact h
  · refine upTo_keeps (P := Grid.Uses Q) (Uses.checks ?_ _) fun _ _ _ _ hg =>
      hg.fillLine hfill _
    split
    · exact downTo_keeps (P := Grid.Uses Q) (h.checks _) fun _ _ _ _ hg => hg.moveLine _ _
    · exact h.checks _

theorem Uses.deleteLines (h : g.Uses Q) {fill : Cell} (hfill : fill.Uses Q)
    (startRow count limitRow : Int) : (g.deleteLines startRow count fill limitRow).Uses Q := by
  unfold Grid.deleteLines
  dsimp only
  split
  · exact h
  · refine upTo_keeps (P := Grid.Uses Q) ?_ fun _ _ _ _ hg => hg.fillLine hfill _
    split
    · exact upTo_keeps (P := Grid.Uses Q) ((h.checks _).checks _) fun _ _ _ _ hg =>
        hg.moveLine _ _
    · exact (h.checks _).checks _

theorem uses_replicate (n : Nat) : ∀ x ∈ List.replicate n ({} : Cell), x.Uses Q := by
  intro x hx r hr
  rw [eq_of_mem_replicate hx] at hr
  cases hr

theorem Uses.resize (h : g.Uses Q) (rows cols : Int) : (g.resize rows cols).Uses Q := by
  unfold Grid.resize
  split
  · exact h
  · split
    · exact uses_replicate _
    · exact upTo_keeps (P := Grid.Uses Q) (uses_replicate _) fun _ _ _ _ hg =>
        upTo_keeps (P := Grid.Uses Q) hg fun _ _ _ _ hg =>
          (hg.checks _).store (h.cell _ _) _ _

end Grid

namespace Screen

variable {s t : Screen}

/-- All objects that the screen holds are good. -/
structure Linked (s : Screen) : Prop where
  closed : s.store.Closed
  pen : s.store.Good s.currentAttributes
  primary : s.primaryGrid.Uses s.store.Good
  alt : s.altGrid.Uses s.store.Good
  lines : ∀ line ∈ s.scrollback, ∀ x ∈ line, x.Uses s.store.Good

theorem Linked.holds (h : s.Linked) {r : Ref} (hr : s.holds r = true) : s.store.Good r := by
  simp only [Screen.holds, Bool.or_eq_true, beq_iff_eq, any_eq_true] at hr
  rcases hr with (((rfl | rfl) | ⟨x, hx, hattr⟩) | ⟨x, hx, hattr⟩) | ⟨line, hline, x, hx, hattr⟩
  · exact h.closed.good_default
  · exact h.pen
  · exact h.primary x hx r hattr
  · exact h.alt x hx r hattr
  · exact h.lines line hline x hx r hattr

theorem Linked.active (h : s.Linked) : s.activeGrid.Uses s.store.Good := by
  unfold activeGrid
  split
  · exact h.alt
  · exact h.primary

theorem Linked.blank (h : s.Linked) : Cell.blank.Uses s.store.Good := by
  intro r hr
  cases hr
  exact h.closed.good_default

theorem Linked.setGrid (h : s.Linked) {g : Grid} (hg : g.Uses s.store.Good) :
    (s.setGrid g).Linked := by
  refine ⟨h.closed, h.pen, ?_, ?_, h.lines⟩
  · show (if s.inAlternateGrid then s.primaryGrid else g).Uses s.store.Good
    split
    · exact h.primary
    · exact hg
  · show (if s.inAlternateGrid then g else s.altGrid).Uses s.store.Good
    split
    · exact hg
    · exact h.alt

theorem Linked.modifyCell (h : s.Linked) {f : Cell → Cell}
    (hf : ∀ x : Cell, x.Uses s.store.Good → (f x).Uses s.store.Good) (row col : Int) :
    (s.modifyCell f row col).Linked :=
  h.setGrid (h.active.store (hf _ (h.active.cell row col)) row col)

theorem Linked.modifyAt (h : s.Linked) {f : Cell → Cell}
    (hf : ∀ x : Cell, x.Uses s.store.Good → (f x).Uses s.store.Good) (row col : Int) :
    (s.modifyAt f row col).Linked := by
  unfold Screen.modifyAt
  split
  · exact h.modifyCell hf row col
  · exact h

/-- Between screens that hold the same objects. -/
theorem Linked.same (h : s.Linked) (hstore : t.store = s.store)
    (hpen : t.currentAttributes = s.currentAttributes)
    (hgrids : t.primaryGrid = s.primaryGrid ∧ t.altGrid = s.altGrid)
    (hlines : t.scrollback = s.scrollback) : t.Linked := by
  refine ⟨?_, ?_, ?_, ?_, ?_⟩
  · rw [hstore]
    exact h.closed
  · rw [hstore, hpen]
    exact h.pen
  · rw [hstore, hgrids.1]
    exact h.primary
  · rw [hstore, hgrids.2]
    exact h.alt
  · rw [hstore, hlines]
    exact h.lines

theorem Linked.derefAt (h : s.Linked) {f : Cell → Cell}
    (hf : ∀ x : Cell, x.Uses s.store.Good → (f x).Uses s.store.Good) (row col : Int) :
    (s.derefAt f row col).Linked :=
  (h.modifyAt hf row col).same rfl rfl ⟨rfl, rfl⟩ rfl

theorem Linked.copyAt (h : s.Linked) (row col toRow toCol : Int) :
    (s.copyAt row col toRow toCol).Linked := by
  unfold Screen.copyAt
  split
  · exact h.modifyAt (fun _ _ => h.active.cell row col) _ _
  · exact h

theorem Linked.copyDeref (h : s.Linked) (row src dst : Int) : (s.copyDeref row src dst).Linked :=
  (h.derefAt (fun _ _ => h.active.cell row src) _ _).same rfl rfl ⟨rfl, rfl⟩ rfl

/-- The object that is found or made, and what was good before. -/
theorem Linked.intern (h : s.Linked) {held : List Ref} (hheld : ∀ r ∈ held, s.store.Good r)
    (attr : Attributes) : (s.intern held attr).2.Linked ∧
      (s.intern held attr).2.store.Good (s.intern held attr).1 ∧
      ∀ r, s.store.Good r → (s.intern held attr).2.store.Good r := by
  have halive : ∀ r, (held.contains r || s.holds r) = true → s.store.Good r := by
    intro r hr
    rcases Bool.or_eq_true_iff.1 hr with hmem | hholds
    · exact hheld r (contains_iff_mem.1 hmem)
    · exact h.holds hholds
  have hold : ∀ r, s.store.Good r → (s.intern held attr).2.store.Good r :=
    fun r hr => intern_good hr
  refine ⟨⟨intern_closed h.closed, hold _ h.pen,
    fun x hx r hr => hold r (h.primary x hx r hr), fun x hx r hr => hold r (h.alt x hx r hr),
    fun line hline x hx r hr => hold r (h.lines line hline x hx r hr)⟩, ?_, hold⟩
  exact intern_good_new h.closed halive

/-- The cell with its new object, on the screen with its new store. -/
theorem Linked.setAttributes (h : s.Linked) {held : List Ref} (hheld : ∀ r ∈ held, s.store.Good r)
    {cell : Cell} (hcell : cell.Uses s.store.Good) (attr : Attributes) :
    (s.setAttributes held attr cell).2.Linked ∧
      (s.setAttributes held attr cell).1.Uses (s.setAttributes held attr cell).2.store.Good := by
  unfold Screen.setAttributes
  split
  · exact ⟨h, hcell⟩
  · obtain ⟨hlinked, hnew, -⟩ := h.intern hheld attr
    refine ⟨hlinked, fun r hr => ?_⟩
    cases hr
    exact hnew

theorem Linked.writeCell (h : s.Linked) (row col : Int) (ch : Nat) :
    (s.writeCell row col ch).Linked := by
  have hcell : ({ s.activeGrid.cell row col with char := ch } : Cell).Uses s.store.Good :=
    h.active.cell row col
  obtain ⟨hlinked, huses⟩ := h.setAttributes (forall_mem_nil _) hcell
    (s.store.value s.currentAttributes)
  have hprotect := hlinked.modifyCell (f := fun _ => s.protect
    (s.setAttributes [] (s.store.value s.currentAttributes)
      { s.activeGrid.cell row col with char := ch }).1) (fun _ _ => huses) row col
  unfold Screen.writeCell advance
  dsimp only
  split_ifs
  · exact hprotect.same rfl rfl ⟨rfl, rfl⟩ rfl
  · exact hprotect
  · exact hprotect.same rfl rfl ⟨rfl, rfl⟩ rfl

end Screen

end JobAnsi
