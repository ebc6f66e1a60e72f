import OddBuilder.Ansi.Sharing

/-!
# Shared attributes over whole runs

Every command but `SGR` edits no attribute object in place, and keeps the screen
linked.
-/

namespace JobAnsi

open CountedLoop

namespace Screen

variable {s t : Screen}

theorem Linked.eraseCell (h : s.Linked) (x : Cell) (hx : x.Uses s.store.Good) :
    (eraseCell x).Uses s.store.Good := by
  unfold Screen.eraseCell
  split
  · exact hx
  · exact h.blank

theorem Linked.resetCell (h : s.Linked) (x : Cell) (hx : x.Uses s.store.Good) :
    (resetCell x).Uses s.store.Good := by
  unfold Screen.resetCell
  split
  · exact hx
  · exact h.blank

theorem Linked.eraseRow (h : s.Linked) (row first bound : Int) :
    (upTo first bound (fun c s => s.modifyAt Screen.eraseCell row c) s).Linked :=
  upTo_keeps (P := Linked) h fun _ _ _ _ ht => ht.modifyAt ht.eraseCell _ _

theorem Linked.resetRow (h : s.Linked) (row first bound : Int) :
    (upTo first bound (fun c s => s.modifyAt Screen.resetCell row c) s).Linked :=
  upTo_keeps (P := Linked) h fun _ _ _ _ ht => ht.modifyAt ht.resetCell _ _

theorem Linked.setCursor (h : s.Linked) (row col : Int) : (s.setCursor row col).Linked :=
  h.same rfl rfl ⟨rfl, rfl⟩ rfl

theorem Linked.computes (h : s.Linked) (ns : List Int) : (s.computes ns).Linked :=
  h.same rfl rfl ⟨rfl, rfl⟩ rfl

theorem Linked.clear (h : s.Linked) : s.clear.Linked := by
  refine Linked.setCursor ?_ 0 0
  -- The object of the pen stays good throughout the loops.
  refine (upTo_keeps (P := fun t : Screen => t.Linked ∧ t.store = s.store) ⟨h, rfl⟩
    fun r t _ _ ht => upTo_keeps (P := fun t : Screen => t.Linked ∧ t.store = s.store) ht
      fun c u _ _ hu => ⟨hu.1.modifyCell (fun x hx => ?_) _ _, hu.2⟩).1
  split
  · exact hx
  · intro r hr
    cases hr
    rw [hu.2]
    exact h.pen

theorem Linked.clearScrollback (h : s.Linked) : s.clearScrollback.Linked :=
  ⟨h.closed, h.pen, h.primary, h.alt, fun line hline => absurd hline (by simp [Screen.clearScrollback])⟩

theorem Linked.ed (h : s.Linked) (params : List Int) : (s.ed params).Linked := by
  unfold Screen.ed
  split
  · exact upTo_keeps (P := Linked) h fun _ _ _ _ ht => ht.eraseRow _ _ _
  · exact upTo_keeps (P := Linked) h fun _ _ _ _ ht => ht.eraseRow _ _ _
  · exact h.clear
  · exact h.clearScrollback.clear
  · exact h

theorem Linked.el (h : s.Linked) (params : List Int) : (s.el params).Linked := by
  unfold Screen.el
  split
  · exact h.eraseRow _ _ _
  · exact h.eraseRow _ _ _
  · exact h.eraseRow _ _ _
  · exact h

theorem Linked.eraseField (h : s.Linked) (row col mode : Int) :
    (s.eraseField row col mode).Linked := by
  have hloop : ∀ first bound : Int,
      (upTo first bound (fun c s => s.derefAt Screen.resetCell row c) s).Linked :=
    fun _ _ => upTo_keeps (P := Linked) h fun _ _ _ _ ht => ht.derefAt ht.resetCell _ _
  unfold Screen.eraseField
  split
  · exact h
  · split
    · exact hloop _ _
    · exact hloop _ _
    · exact hloop _ _
    · exact h

theorem Linked.eraseArea (h : s.Linked) (mode : Int) : (s.eraseArea mode).Linked := by
  unfold Screen.eraseArea
  split
  · exact upTo_keeps (P := Linked) h fun _ _ _ _ ht => ht.resetRow _ _ _
  · exact upTo_keeps (P := Linked) h fun _ _ _ _ ht => ht.resetRow _ _ _
  · exact upTo_keeps (P := Linked) h fun _ _ _ _ ht => ht.resetRow _ _ _
  · exact h

theorem Linked.deleteChars (h : s.Linked) (count : Int) : (s.deleteChars count).Linked := by
  refine Linked.resetRow (upTo_keeps (P := Linked) (h.computes _) fun i t _ _ ht => ?_) _ _ _
  split
  · exact ht.modifyCell (fun _ _ => ht.active.cell _ _) _ _
  · exact ht

theorem Linked.repeatCell (h : s.Linked) (row col : Int) : (s.repeatCell row col).Linked := by
  unfold Screen.repeatCell
  split
  · have hcell : ({ s.activeGrid.cell row col with char := 0x20 } : Cell).Uses s.store.Good :=
      h.active.cell row col
    obtain ⟨hlinked, huses⟩ := h.setAttributes (List.forall_mem_nil _) hcell {}
    exact hlinked.modifyCell (fun _ _ => huses) _ _
  · exact h

theorem Linked.repeatLastChar (h : s.Linked) (count : Int) : (s.repeatLastChar count).Linked := by
  unfold Screen.repeatLastChar
  split
  · exact h
  · have hloop : ∀ (row col turns : Int),
        (upTo 0 turns (fun i s => s.repeatCell row (col + i)) s).Linked :=
      fun _ _ _ => upTo_keeps (P := Linked) h fun _ _ _ _ ht => ht.repeatCell _ _
    exact (hloop _ _ _).same rfl rfl ⟨rfl, rfl⟩ rfl

theorem Linked.setLine (h : s.Linked) {f : Cell → Cell}
    (hf : ∀ (Q : Ref → Prop) (x : Cell), x.Uses Q → (f x).Uses Q) (row : Int) :
    (s.setLine f row).Linked := by
  unfold Screen.setLine
  split
  · exact h
  · refine upTo_keeps (P := Linked) h fun _ _ _ _ ht => ht.modifyCell (fun x hx => ?_) _ _
    unfold ifWritable
    split
    · exact hx
    · exact hf _ x hx

theorem Linked.deleteFrom (h : s.Linked) (startRow count limit : Int) :
    (s.deleteFrom startRow count limit).Linked :=
  h.setGrid (h.active.deleteLines h.blank _ _ _)

theorem Linked.insertFrom (h : s.Linked) (startRow count limit : Int) :
    (s.insertFrom startRow count limit).Linked :=
  h.setGrid (h.active.insertLines h.blank _ _ _)

theorem Linked.saveLine (h : s.Linked) (row : Int) : (s.saveLine row).Linked := by
  refine ⟨h.closed, h.pen, h.primary, h.alt, fun line hline => ?_⟩
  have hmem : line ∈ s.scrollback ++ [s.activeGrid.line row] := by
    unfold Screen.saveLine dropOldest at hline
    dsimp only at hline
    split at hline
    · exact List.mem_of_mem_tail hline
    · exact hline
  rcases List.mem_append.1 hmem with hold | hnew
  · exact h.lines line hold
  · rw [List.mem_singleton.1 hnew]
    intro x hx
    obtain ⟨c, -, rfl⟩ := List.mem_map.1 hx
    exact h.active.cell row c

theorem Linked.scrollUpIn (h : s.Linked) (top bottom lines : Int) :
    (s.scrollUpIn top bottom lines).Linked := by
  have hlines : (s.saveLines top lines).Linked := by
    unfold Screen.saveLines
    split
    · exact upTo_keeps (P := Linked) h fun _ _ _ _ ht => ht.saveLine _
    · exact h
  unfold Screen.scrollUpIn Screen.cursorIntoRegion
  split_ifs
  · exact h
  · exact (hlines.deleteFrom _ _ _).same rfl rfl ⟨rfl, rfl⟩ rfl
  · exact (hlines.deleteFrom _ _ _).same rfl rfl ⟨rfl, rfl⟩ rfl
  · exact hlines.deleteFrom _ _ _

theorem Linked.scrollDown (h : s.Linked) (top bottom lines : Int) :
    (s.scrollDown top bottom lines).Linked := by
  unfold Screen.scrollDown
  split
  · exact h
  · exact h.insertFrom _ _ _

theorem Linked.deleteLines (h : s.Linked) (startRow count : Int) :
    (s.deleteLines startRow count).Linked := by
  unfold Screen.deleteLines
  split
  · exact h
  · exact h.deleteFrom _ _ _

theorem Linked.sr (h : s.Linked) : s.sr.Linked := by
  unfold Screen.sr
  split
  · exact h.scrollDown _ _ _
  · exact h.same rfl rfl ⟨rfl, rfl⟩ rfl

theorem Linked.makeRoom (h : s.Linked) : s.makeRoom.Linked := by
  unfold Screen.makeRoom
  split
  · have hshift : ∀ (row col : Int), (downTo (s.activeGrid.columns - 2) col
        (fun i s => s.setGrid (s.activeGrid.copyCell row i row (i + 1))) s).Linked :=
      fun _ _ => downTo_keeps (P := Linked) h fun _ _ _ _ ht => ht.setGrid (ht.active.copyCell _ _ _ _)
    exact (hshift _ _).modifyCell (fun _ _ => (hshift _ _).blank) _ _
  · exact h

theorem Linked.wrapNow (h : s.Linked) : s.wrapNow.Linked := by
  have hs : { s with wrapPending := false }.Linked := h.same rfl rfl ⟨rfl, rfl⟩ rfl
  unfold Screen.wrapNow
  split
  · dsimp only
    split
    · exact (hs.scrollUpIn _ _ _).same rfl rfl ⟨rfl, rfl⟩ rfl
    · exact hs.same rfl rfl ⟨rfl, rfl⟩ rfl
  · exact h

theorem Linked.putPrintable (h : s.Linked) (ch : Nat) : (s.putPrintable ch).Linked := by
  unfold Screen.putPrintable
  dsimp only
  split
  · unfold Screen.writeChar
    split
    · exact h.wrapNow.makeRoom
    · exact h.wrapNow.makeRoom.writeCell _ _ _
  · exact h.wrapNow

theorem Linked.handleGround (h : s.Linked) (ch : Nat) : (s.handleGround ch).Linked := by
  refine Linked.setCursor ?_ _ _
  split_ifs
  · exact h.setCursor _ _
  · unfold Screen.lineFeed
    split
    · exact h.scrollUpIn _ _ _
    · exact h.same rfl rfl ⟨rfl, rfl⟩ rfl
  · exact h.same rfl rfl ⟨rfl, rfl⟩ rfl
  · exact h.setCursor _ _
  · rename_i hch
    rw [putChar_printable s (s.charset.printable_applyCharset hch)]
    exact h.putPrintable _
  · exact h

theorem Linked.reverseCell (h : s.Linked) (row col : Int) : (s.reverseCell row col).Linked := by
  unfold Screen.reverseCell
  split
  · dsimp only
    generalize Attributes.mk _ _ _ = modified
    obtain ⟨hlinked, hnew, hold⟩ := h.intern (List.forall_mem_nil _) modified
    obtain ⟨hwritten, huses⟩ := hlinked.setAttributes (List.forall_mem_singleton.2 hnew)
      (fun r hr => hold r (h.active.cell row col r hr))
      ((s.intern [] modified).2.store.value (s.intern [] modified).1)
    exact hwritten.modifyCell (fun _ _ => huses) _ _
  · exact h

theorem Linked.eachCell (h : s.Linked) (area : Rectangle) {f : Int → Int → Screen → Screen}
    (hf : ∀ r c (t : Screen), t.Linked → (f r c t).Linked) : (s.eachCell area f).Linked :=
  upTo_keeps (P := Linked) h fun _ _ _ _ ht =>
    upTo_keeps (P := Linked) ht fun _ _ _ _ hu => hf _ _ _ hu

theorem Linked.deccra (h : s.Linked) (params : List Int) : (s.deccra params).Linked :=
  upTo_keeps (P := Linked) (h.computes _) fun _ _ _ _ ht =>
    upTo_keeps (P := Linked) ht fun _ _ _ _ hu => hu.copyAt _ _ _ _

theorem Linked.ich (h : s.Linked) (params : List Int) : (s.ich params).Linked := by
  unfold Screen.ich
  dsimp only
  split
  · exact h
  · refine upTo_keeps (P := Linked) (downTo_keeps (P := Linked) (h.computes _)
      fun _ _ _ _ ht => ht.copyDeref _ _ _) fun _ _ _ _ ht => ht.derefAt (fun _ _ => ht.blank) _ _

theorem Linked.recolor (h : s.Linked) (paint : Attributes → Attributes) :
    (s.recolor paint).Linked := by
  unfold Screen.recolor
  dsimp only
  generalize paint _ = modified
  obtain ⟨hlinked, hnew, -⟩ := h.intern (List.forall_mem_nil _) modified
  refine hlinked.derefAt (fun x hx r hr => ?_) _ _
  cases hr
  exact hnew

theorem Linked.enterAlternateGrid (h : s.Linked) : s.enterAlternateGrid.Linked := by
  refine ⟨h.closed, h.pen, h.primary, ?_, h.lines⟩
  show ({ s.altGrid with cells := s.altGrid.cells.map fun _ => {} } : Grid).Uses s.store.Good
  intro x hx r hr
  obtain ⟨_, -, rfl⟩ := List.mem_map.1 hx
  cases hr

theorem Linked.resize (h : s.Linked) (rows cols : Int) : (s.resize rows cols).Linked := by
  have hgrids : ∀ t : Screen, t.primaryGrid = s.primaryGrid.resize rows cols →
      t.altGrid = s.altGrid.resize rows cols → t.store = s.store →
      t.currentAttributes = s.currentAttributes → t.scrollback = s.scrollback → t.Linked := by
    intro t hprimary halt hstore hpen hlines
    refine ⟨?_, ?_, ?_, ?_, ?_⟩
    · rw [hstore]
      exact h.closed
    · rw [hstore, hpen]
      exact h.pen
    · rw [hstore, hprimary]
      exact h.primary.resize rows cols
    · rw [hstore, halt]
      exact h.alt.resize rows cols
    · rw [hstore, hlines]
      exact h.lines
  unfold Screen.resize
  dsimp only
  split
  · exact hgrids _ rfl rfl rfl rfl rfl
  · exact hgrids _ rfl rfl rfl rfl rfl

theorem Linked.reset (h : s.Linked) : s.reset.Linked := by
  have hs := h.clear.clearScrollback
  unfold Screen.reset
  dsimp only
  split
  · exact hs.same rfl rfl ⟨rfl, rfl⟩ rfl
  · exact ⟨hs.closed, hs.closed.good_default, hs.primary, hs.alt, hs.lines⟩

end Screen

end JobAnsi
