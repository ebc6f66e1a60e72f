import OddBuilder.Ansi.BoundsRuns

/-!
# Scroll margins

`CSI t;b r` names the rows from `t` to `b`. The handler subtracts one from both,
and the screen takes the second for the row behind the region, so the row `b`
never scrolls: the rows scroll as they should only where there is nothing to see.
-/

namespace JobAnsi

namespace Screen

variable {n top bottom c r : Int} {f : Int → Int → Cell}

/-- What a cell shows: without attributes it shows the default ones. -/
def look (cell : Cell) : Cell := { cell with attr := some (shown cell) }

inductive Scroll where
  | lineFeed
  | up (n : Int)
  | down (n : Int)

def Scroll.command : Scroll → Command
  | .lineFeed => .ground 0x0A
  | .up n => .csi false .SU [n]
  | .down n => .csi false .SD [n]

/-- A count that scrolls, and that keeps the computations in range. -/
def Scroll.Counted (s : Screen) : Scroll → Prop
  | .lineFeed => True
  | .up n => (1 ≤ n ∧ n ≤ 2147483647) ∧ s.fitsScrollUp n = true
  | .down n => (1 ≤ n ∧ n ≤ 2147483647) ∧ s.fitsScrollDown n = true

/-- What the rows from `t` to `b` become, by a line feed in the row `b` as by one line up. -/
def Scroll.shows (t b : Int) (f : Int → Int → Cell) : Scroll → Int → Int → Cell
  | .lineFeed => Grid.deleted f (t - 1) 1 b Cell.blank
  | .up n => Grid.deleted f (t - 1) n b Cell.blank
  | .down n => Grid.inserted f (t - 1) n b Cell.blank

/-- The screen with its margins at the rows `t` and `b`, and the cursor in the row `b`. -/
def withMargins (s : Screen) (t b col : Int) : Screen :=
  (s.dispatchCSI false .DECSTBM [t, b]).setCursor (b - 1) col

variable {s u : Screen} {t b : Int}

theorem saveLines_activeGrid (s : Screen) (top lines : Int) :
    (s.saveLines top lines).activeGrid = s.activeGrid := by
  unfold saveLines
  split
  · exact CountedLoop.upTo_same (f := activeGrid) fun _ _ _ _ => rfl
  · rfl

theorem cursorIntoRegion_activeGrid (s : Screen) (top bottom : Int) :
    (s.cursorIntoRegion top bottom).activeGrid = s.activeGrid := by
  unfold cursorIntoRegion
  split_ifs <;> rfl

theorem scrollUpIn_activeGrid (hn : 0 < n) (hregion : top < bottom) :
    (s.scrollUpIn top bottom n).activeGrid =
      s.activeGrid.deleteLines top n Cell.blank bottom := by
  rw [scrollUpIn, if_neg (by omega), cursorIntoRegion_activeGrid, deleteFrom, activeGrid_setGrid,
    saveLines_activeGrid]

theorem scrollDown_activeGrid (hn : 0 < n) (hregion : top < bottom) :
    (s.scrollDown top bottom n).activeGrid =
      s.activeGrid.insertLines top n Cell.blank bottom := by
  rw [scrollDown, if_neg (by omega), insertFrom, activeGrid_setGrid]

/-- What the scrolling commands leave alone. -/
def margins (s : Screen) : Int × Int × Bool := (s.scrollTop, s.scrollBottom, s.inAlternateGrid)

theorem margins_scrollUpIn (s : Screen) (top bottom n : Int) :
    (s.scrollUpIn top bottom n).margins = s.margins :=
  scrollUpIn_same margins (fun _ _ => rfl) (fun _ _ => rfl) (fun _ _ _ => rfl) s top bottom n

theorem margins_scrollDown (s : Screen) (top bottom n : Int) :
    (s.scrollDown top bottom n).margins = s.margins := by
  unfold scrollDown
  split <;> rfl

theorem look_deleted (hn : 1 ≤ n) (hblank : ∀ k, top ≤ k → k < bottom → look (f k c) = Cell.blank) :
    look (Grid.deleted f top n bottom Cell.blank r c) = look (f r c) := by
  unfold Grid.deleted
  split
  · rename_i hr
    rw [hblank r hr.1 hr.2]
    split
    · exact hblank (r + n) (by omega) (by assumption)
    · rfl
  · rfl

theorem look_inserted (hn : 1 ≤ n)
    (hblank : ∀ k, top ≤ k → k < bottom → look (f k c) = Cell.blank) :
    look (Grid.inserted f top n bottom Cell.blank r c) = look (f r c) := by
  unfold Grid.inserted
  split
  · rename_i hr
    rw [hblank r hr.1 hr.2]
    split
    · rfl
    · exact hblank (r - n) (by omega) (by omega)
  · rfl

/-- `u` has the size and the margins of `s`, and looks like it. -/
structure LooksAs (s u : Screen) : Prop where
  geometry : u.Geometry
  size_eq : u.activeGrid.size = s.activeGrid.size
  margins_eq : u.margins = s.margins
  looks : ∀ r c, s.activeGrid.Inside r c →
    look (u.activeGrid.cell r c) = look (s.activeGrid.cell r c)

/-- The rows from `top` up to `bottom` show nothing. -/
def BlankRows (s : Screen) (top bottom : Int) : Prop :=
  ∀ r c, s.activeGrid.Inside r c → top ≤ r → r < bottom →
    look (s.activeGrid.cell r c) = Cell.blank

theorem inside_of_size (h : u.activeGrid.size = s.activeGrid.size) :
    u.activeGrid.Inside r c ↔ s.activeGrid.Inside r c := by
  obtain ⟨hrows, hcolumns, -⟩ := Grid.size_eq_iff.1 h
  rw [Grid.Inside, Grid.Inside, hrows, hcolumns]

/-- A step of the code on a blank region. -/
theorem LooksAs.becomes (h : s.LooksAs u) {w : Screen} (hgeometry : w.Geometry)
    (hmargins : w.margins = u.margins) (hgrid : u.activeGrid.Becomes w.activeGrid f)
    (hf : ∀ r c, s.activeGrid.Inside r c → look (f r c) = look (u.activeGrid.cell r c)) :
    s.LooksAs w := by
  refine ⟨hgeometry, ?_, hmargins.trans h.margins_eq, fun r c hin => ?_⟩
  · rw [← h.size_eq, Grid.size_eq_iff]
    exact ⟨hgrid.rows_eq, hgrid.columns_eq, hgrid.length_eq⟩
  · rw [hgrid.cell_eq r c ((inside_of_size h.size_eq).2 hin), hf r c hin, h.looks r c hin]

theorem LooksAs.blank (h : s.LooksAs u) (hblank : s.BlankRows top bottom) (htop : 0 ≤ top)
    (hbottom : bottom ≤ s.activeGrid.rows) (hin : s.activeGrid.Inside r c) :
    ∀ k, top ≤ k → k < bottom → look (u.activeGrid.cell k c) = Cell.blank := by
  intro k hge hlt
  have hk : s.activeGrid.Inside k c := ⟨⟨by omega, by omega⟩, hin.2⟩
  rw [h.looks k c hk]
  exact hblank k c hk hge hlt

variable {col : Int}

theorem LooksAs.limit (h : s.LooksAs u) (hs : s.Geometry) :
    u.activeGrid.effectiveLimit s.scrollBottom = s.scrollBottom := by
  have htop := hs.top_nonneg
  have hregion := hs.top_lt_bottom
  refine effectiveLimit_eq h.geometry.formed (by omega) ?_
  rw [← h.geometry.formed.active_rows, (Grid.size_eq_iff.1 h.size_eq).1, hs.formed.active_rows]
  exact hs.bottom_le

/-- Scrolling by a count that fits leaves a blank region as it looks. -/
theorem LooksAs.scrollUpIn (h : s.LooksAs u) (hs : s.Geometry) (hrows : s.rowCount ≤ 2147483647)
    (hblank : s.BlankRows s.scrollTop s.scrollBottom) (hn : 1 ≤ n ∧ n ≤ 2147483647)
    (hfits : s.fitsScrollUp n = true) : s.LooksAs (u.scrollUpIn s.scrollTop s.scrollBottom n) := by
  have htop := hs.top_nonneg
  have hregion := hs.top_lt_bottom
  have hbottom := hs.bottom_le
  have hlimit := h.limit hs
  simp only [fitsScrollUp, decide_eq_true_eq] at hfits
  have hgrid := @Grid.deleteLines_becomes u.activeGrid h.geometry.formed.active_full s.scrollTop
    n s.scrollBottom Cell.blank htop (by omega) (by omega)
    (inInt_iff.2 (by omega)) (inInt_iff.2 (by omega))
  rw [← scrollUpIn_activeGrid (by omega) hregion, hlimit] at hgrid
  refine h.becomes (h.geometry.scrollUpIn _ _ _) (margins_scrollUpIn u _ _ _) hgrid
    fun r c hin => look_deleted hn.1 (h.blank hblank htop ?_ hin)
  rw [hs.formed.active_rows]
  exact hbottom

theorem LooksAs.scrollDown (h : s.LooksAs u) (hs : s.Geometry) (hrows : s.rowCount ≤ 2147483647)
    (hblank : s.BlankRows s.scrollTop s.scrollBottom) (hn : 1 ≤ n ∧ n ≤ 2147483647)
    (hfits : s.fitsScrollDown n = true) :
    s.LooksAs (u.scrollDown s.scrollTop s.scrollBottom n) := by
  have htop := hs.top_nonneg
  have hregion := hs.top_lt_bottom
  have hbottom := hs.bottom_le
  have hlimit := h.limit hs
  simp only [fitsScrollDown, decide_eq_true_eq] at hfits
  have hgrid := @Grid.insertLines_becomes u.activeGrid h.geometry.formed.active_full s.scrollTop
    n s.scrollBottom Cell.blank htop (by omega) (by omega)
    (inInt_iff.2 (by omega)) (inInt_iff.2 (by omega))
  rw [← scrollDown_activeGrid (by omega) hregion, hlimit] at hgrid
  refine h.becomes (h.geometry.scrollDown _ _ _) (margins_scrollDown u _ _ _) hgrid
    fun r c hin => look_inserted hn.1 (h.blank hblank htop ?_ hin)
  rw [hs.formed.active_rows]
  exact hbottom

theorem LooksAs.lineFeed (h : s.LooksAs u) (hs : s.Geometry) (hrows : s.rowCount ≤ 2147483647)
    (hblank : s.BlankRows s.scrollTop s.scrollBottom) : s.LooksAs (u.handleGround 0x0A) := by
  have hscroll := h.scrollUpIn hs hrows hblank (n := 1) (by omega) (by
    have := hs.bottom_le
    simp only [fitsScrollUp, decide_eq_true_eq]
    omega)
  have hmargins := h.margins_eq
  simp only [margins, Prod.mk.injEq] at hmargins
  have hgeometry := h.geometry.handleGround 0x0A
  have hline : s.LooksAs (if u.cursor.row = u.scrollBottom - 1 then u.scrollUp
      else u.moveCursor 1 0) := by
    split
    · rw [scrollUp, hmargins.1, hmargins.2.1]
      exact hscroll
    · exact ⟨h.geometry.moveCursor 1 0, h.size_eq, h.margins_eq, h.looks⟩
  exact ⟨hgeometry, hline.size_eq, hline.margins_eq, hline.looks⟩

theorem LooksAs.execute (h : s.LooksAs u) (hs : s.Geometry) (hrows : s.rowCount ≤ 2147483647)
    (hblank : s.BlankRows s.scrollTop s.scrollBottom) {x : Scroll} (hx : x.Counted s) :
    s.LooksAs (u.execute x.command) := by
  have hmargins := h.margins_eq
  simp only [margins, Prod.mk.injEq] at hmargins
  cases x with
  | lineFeed => exact h.lineFeed hs hrows hblank
  | up n =>
    show s.LooksAs (u.scrollUpIn u.scrollTop u.scrollBottom n)
    rw [hmargins.1, hmargins.2.1]
    exact h.scrollUpIn hs hrows hblank hx.1 hx.2
  | down n =>
    show s.LooksAs (u.scrollDown u.scrollTop u.scrollBottom n)
    rw [hmargins.1, hmargins.2.1]
    exact h.scrollDown hs hrows hblank hx.1 hx.2

theorem LooksAs.run (h : s.LooksAs u) (hs : s.Geometry) (hrows : s.rowCount ≤ 2147483647)
    (hblank : s.BlankRows s.scrollTop s.scrollBottom) {scrolls : List Scroll}
    (hcounted : ∀ x ∈ scrolls, x.Counted s) :
    s.LooksAs (scrolls.foldl (fun u x => u.execute x.command) u) := by
  induction scrolls generalizing u with
  | nil => exact h
  | cons x scrolls ih =>
    exact ih (h.execute hs hrows hblank (hcounted x (by simp)))
      fun y hy => hcounted y (List.mem_cons_of_mem _ hy)

/-- Where the rows from `t` to `b` are blank, they stay so. -/
theorem look_shows (scrolls : List Scroll) (hcounted : ∀ x ∈ scrolls, x.Counted s)
    (hblank : ∀ k, t - 1 ≤ k → k < b → look (f k c) = Cell.blank) (r : Int) :
    look (scrolls.foldl (fun f x => x.shows t b f) f r c) = look (f r c) := by
  induction scrolls generalizing f with
  | nil => rfl
  | cons x scrolls ih =>
    have hstep : ∀ r, look (x.shows t b f r c) = look (f r c) := by
      intro r
      have hx := hcounted x (by simp)
      cases x with
      | lineFeed => exact look_deleted le_rfl hblank
      | up n => exact look_deleted hx.1.1 hblank
      | down n => exact look_inserted hx.1.1 hblank
    rw [List.foldl_cons, ih (fun y hy => hcounted y (List.mem_cons_of_mem _ hy))
      fun k hge hlt => (hstep k).trans (hblank k hge hlt), hstep]

/-- What the margins set by `CSI t;b r` do: whichever way the screen is scrolled from the row `b`,
the rows from `t` to `b` scroll and the others stay. -/
def ScrollsMargins (s : Screen) (t b col : Int) : Prop :=
  ∀ scrolls : List Scroll, (∀ x ∈ scrolls, x.Counted (s.withMargins t b col)) →
    ∀ r c, s.activeGrid.Inside r c →
      look ((scrolls.foldl (fun u x => u.execute x.command)
          (s.withMargins t b col)).activeGrid.cell r c) =
        look (scrolls.foldl (fun f x => x.shows t b f) s.activeGrid.cell r c)

theorem decstbm_pair (ht : 1 ≤ t) (htb : t < b) (hb : b ≤ s.rowCount) :
    s.decstbm [t, b] = (s.computes [t - 1, b - 1]).setScrollRegion (t - 1) (b - 1) := by
  have htop : clamp (t - 1) 0 (s.rowCount - 1) = t - 1 := clamp_self (by omega) (by omega)
  have hbottom : clamp (b - 1) 0 (s.rowCount - 1) = b - 1 := clamp_self (by omega) (by omega)
  have hrows : (s.computes [t - 1, b - 1]).rowCount = s.rowCount := rfl
  simp [decstbm, position, hrows, htop, hbottom]

theorem withMargins_eq (ht : 1 ≤ t) (htb : t < b) (hb : b ≤ s.rowCount) (col : Int) :
    s.withMargins t b col =
      ((s.computes [t - 1, b - 1]).setScrollRegion (t - 1) (b - 1)).setCursor (b - 1) col := by
  rw [withMargins, show s.dispatchCSI false .DECSTBM [t, b] = s.decstbm [t, b] from rfl,
    decstbm_pair ht htb hb]

theorem withMargins_region (h : s.Geometry) (ht : 1 ≤ t) (htb : t < b) (hb : b ≤ s.rowCount)
    (col : Int) : (s.withMargins t b col).scrollTop = t - 1 ∧
      (s.withMargins t b col).scrollBottom = b - 1 := by
  have hactive : (s.computes [t - 1, b - 1]).activeGrid.rows = s.rowCount := h.formed.active_rows
  have htop : clamp (t - 1) 0 (s.rowCount - 1) = t - 1 := clamp_self (by omega) (by omega)
  rw [withMargins_eq ht htb hb]
  simp only [setCursor, setScrollRegion, hactive, htop]
  exact ⟨trivial, clamp_self (by omega) (by omega)⟩

theorem withMargins_geometry (h : s.Geometry) (t b col : Int) :
    (s.withMargins t b col).Geometry :=
  (h.decstbm [t, b]).setCursor _ _

theorem withMargins_activeGrid (ht : 1 ≤ t) (htb : t < b) (hb : b ≤ s.rowCount) (col : Int) :
    (s.withMargins t b col).activeGrid = s.activeGrid := by
  rw [withMargins_eq ht htb hb]
  rfl

theorem withMargins_row (h : s.Geometry) (ht : 1 ≤ t) (htb : t < b) (hb : b ≤ s.rowCount)
    (col : Int) : (s.withMargins t b col).cursor.row = b - 1 := by
  have hrow : clamp (b - 1) 0 (s.rowCount - 1) = b - 1 := clamp_self (by omega) (by omega)
  rw [withMargins_eq ht htb hb]
  show clamp (clamp (b - 1) 0 (s.rowCount - 1)) 0 (s.cursor.maxRows - 1) = b - 1
  rw [h.maxRows_eq, hrow, hrow]

theorem lineFeed_activeGrid (h : s.cursor.row ≠ s.scrollBottom - 1) :
    (s.handleGround 0x0A).activeGrid = s.activeGrid := by
  have hline : (if s.cursor.row = s.scrollBottom - 1 then s.scrollUp
      else s.moveCursor 1 0) = s.moveCursor 1 0 := if_neg h
  unfold handleGround Screen.lineFeed
  rw [hline]
  rfl

/-- A line feed in the row `b` only moves the cursor. -/
theorem lineFeed_withMargins (h : s.Geometry) (ht : 1 ≤ t) (htb : t < b) (hb : b ≤ s.rowCount)
    (col : Int) : ((s.withMargins t b col).handleGround 0x0A).activeGrid = s.activeGrid := by
  have hrow := withMargins_row h ht htb hb col
  obtain ⟨-⟩ := withMargins_region h ht htb hb col
  rw [lineFeed_activeGrid (by omega), withMargins_activeGrid ht htb hb]

/-- The rows from `t` to `b` scroll exactly where there is nothing in them. -/
theorem scrollMargins_iff (h : s.Geometry) (hrows : s.rowCount ≤ 2147483647) (ht : 1 ≤ t)
    (htb : t < b) (hb : b ≤ s.rowCount) (col : Int) :
    s.ScrollsMargins t b col ↔ s.BlankRows (t - 1) b := by
  have hm := withMargins_geometry h t b col
  have hgrid := withMargins_activeGrid ht htb hb col
  obtain ⟨htop, hbottom⟩ := withMargins_region h ht htb hb col
  constructor
  · intro hscrolls
    have hfeed : ∀ r c, s.activeGrid.Inside r c → look (s.activeGrid.cell r c) =
        look (Grid.deleted s.activeGrid.cell (t - 1) 1 b Cell.blank r c) := by
      intro r c hin
      have hone := hscrolls [.lineFeed] (by simp [Scroll.Counted]) r c hin
      simp only [List.foldl_cons, List.foldl_nil] at hone
      rw [show (s.withMargins t b col).execute Scroll.lineFeed.command =
        (s.withMargins t b col).handleGround 0x0A from rfl,
        lineFeed_withMargins h ht htb hb col] at hone
      exact hone
    -- From the last row of the region up: each row looks like the one below it.
    have hup : ∀ n : Nat, ∀ c, s.activeGrid.Inside (b - 1 - n) c → t - 1 ≤ b - 1 - n →
        look (s.activeGrid.cell (b - 1 - n) c) = Cell.blank := by
      intro n
      induction n with
      | zero =>
        intro c hin hge
        rw [hfeed _ c hin, Grid.deleted, if_pos ⟨hge, by omega⟩, if_neg (by omega)]
        rfl
      | succ n ih =>
        intro c hin hge
        have hin' : s.activeGrid.Inside (b - 1 - n) c := by
          have hactive := h.formed.active_rows
          exact ⟨⟨by omega, by omega⟩, hin.2⟩
        rw [hfeed _ c hin, Grid.deleted, if_pos ⟨hge, by omega⟩, if_pos (by omega),
          show b - 1 - ((n + 1 : Nat) : Int) + 1 = b - 1 - n by omega]
        exact ih c hin' (by omega)
    intro r c hin hge hlt
    have hr := hup (b - 1 - r).toNat c
    rw [show b - 1 - ((b - 1 - r).toNat : Int) = r by omega] at hr
    exact hr hin hge
  · intro hblank scrolls hcounted r c hin
    have hregion : (s.withMargins t b col).BlankRows (s.withMargins t b col).scrollTop
        (s.withMargins t b col).scrollBottom := by
      rw [htop, hbottom, BlankRows, hgrid]
      intro r c hin hge hlt
      exact hblank r c hin hge (by omega)
    have hrowCount : (s.withMargins t b col).rowCount = s.rowCount := by
      rw [← hm.formed.active_rows, hgrid, h.formed.active_rows]
    have hrun := LooksAs.run (u := s.withMargins t b col) ⟨hm, rfl, rfl, fun _ _ _ => rfl⟩ hm
      (by rw [hrowCount]; exact hrows) hregion hcounted
    rw [hrun.looks r c (by rw [hgrid]; exact hin), hgrid, look_shows scrolls hcounted]
    intro k hge hlt
    have hactive := h.formed.active_rows
    exact hblank k c ⟨⟨by omega, by omega⟩, hin.2⟩ hge hlt

theorem scrollMargins_fresh :
    (Screen.make 2 1).ScrollsMargins 1 2 0 ↔ (Screen.make 2 1).BlankRows (1 - 1) 2 :=
  scrollMargins_iff (Geometry.make (by decide) (by decide)).1 (by decide) (by decide)
    (by decide) (by decide) 0

/-- A letter in the first of two rows stays where it is. -/
theorem line_does_not_scroll :
    ¬ ∀ (s : Screen) (t b col : Int), s.Geometry → s.rowCount ≤ 2147483647 → 1 ≤ t → t < b →
      b ≤ s.rowCount → s.ScrollsMargins t b col := by
  intro h
  have hscrolls := h ((Screen.make 2 1).handleGround 0x61) 1 2 0
    ((Geometry.make (by decide) (by decide)).1.handleGround 0x61) (by decide) (by decide)
    (by decide) (by decide)
  have hcell := hscrolls [.lineFeed] (by simp [Scroll.Counted]) 0 0
    (hasCell_iff.1 (by decide))
  revert hcell
  decide

end Screen

end JobAnsi
