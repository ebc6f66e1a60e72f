import OddBuilder.Ansi.SharingRuns

/-!
# Select Graphic Rendition

`SGR` edits the object of the pen where it is, and only then interns its value. What
is written already keeps its looks as long as no cell shows that object, or the
edit does not change it; and as long as that is so, the cache tells the truth.
-/

namespace JobAnsi

open List AttributeStore

namespace Screen

variable {s t : Screen}
variable {store : AttributeStore} {r pen : Ref}

theorem Linked.setMode (h : s.Linked) (privateMode set : Bool) (params : List Int) :
    (s.setMode privateMode set params).Linked := by
  have hprivate : ∀ (t : Screen) (code : Int), t.Linked → (t.dispatchPrivate set code).Linked := by
    intro t code ht
    unfold dispatchPrivate
    split
    · unfold setOriginMode
      split
      · exact ht.same rfl rfl ⟨rfl, rfl⟩ rfl
      · exact ht.same rfl rfl ⟨rfl, rfl⟩ rfl
    · exact ht.same rfl rfl ⟨rfl, rfl⟩ rfl
    · split
      · exact ht.enterAlternateGrid
      · exact ht.same rfl rfl ⟨rfl, rfl⟩ rfl
    · split
      · exact Linked.enterAlternateGrid (ht.same rfl rfl ⟨rfl, rfl⟩ rfl)
      · exact ht.same rfl rfl ⟨rfl, rfl⟩ rfl
    · split
      · exact ht.same rfl rfl ⟨rfl, rfl⟩ rfl
      · exact ht.same rfl rfl ⟨rfl, rfl⟩ rfl
    · exact ht
  have hpublic : ∀ (t : Screen) (code : Int), t.Linked → (t.dispatchPublic set code).Linked := by
    intro t code ht
    unfold dispatchPublic
    split <;> exact ht.same rfl rfl ⟨rfl, rfl⟩ rfl
  induction params generalizing s with
  | nil => exact h
  | cons code params ih =>
    cases privateMode with
    | false => exact ih (hpublic s code h)
    | true => exact ih (hprivate s code h)

theorem Linked.windowManip (h : s.Linked) (params : List Int) : (s.windowManip params).Linked := by
  unfold Screen.windowManip
  split
  · exact h.resize _ _
  · split
    · exact h.computes _
    · exact h

theorem Linked.dispatchOSC (h : s.Linked) (code : Int) (data : List UInt8) :
    (s.dispatchOSC code data).Linked := by
  unfold Screen.dispatchOSC
  split
  · split
    · exact h.recolor _
    · exact h
  · split
    · exact h.recolor _
    · exact h
  · exact h.same rfl rfl ⟨rfl, rfl⟩ rfl
  · exact (h.recolor _).recolor _
  · exact h.same rfl rfl ⟨rfl, rfl⟩ rfl
  · exact h

theorem Linked.dispatchESC (h : s.Linked) (code designator : UInt8) :
    (s.dispatchESC code designator).Linked := by
  unfold Screen.dispatchESC
  split
  · split
    · exact h.same rfl rfl ⟨rfl, rfl⟩ rfl
    · exact h
  · exact h.same rfl rfl ⟨rfl, rfl⟩ rfl
  · exact h.same rfl rfl ⟨rfl, rfl⟩ rfl
  · exact h.same rfl rfl ⟨rfl, rfl⟩ rfl
  · exact h.reset
  · exact h.same rfl rfl ⟨rfl, rfl⟩ rfl
  · exact h.same rfl rfl ⟨rfl, rfl⟩ rfl
  · exact h.same rfl rfl ⟨rfl, rfl⟩ rfl
  · exact h.setCursor _ _
  · exact h.same rfl rfl ⟨rfl, rfl⟩ rfl
  · unfold setTabStop
    split
    · exact h.same rfl rfl ⟨rfl, rfl⟩ rfl
    · exact h
  · exact h

theorem Linked.cup (h : s.Linked) (params : List Int) : (s.cup params).Linked := by
  unfold Screen.cup
  dsimp only
  split
  · exact ((h.computes _).computes _).setCursor _ _
  · exact (h.computes _).setCursor _ _

theorem Linked.vpa (h : s.Linked) (params : List Int) : (s.vpa params).Linked := by
  unfold Screen.vpa
  split
  · exact (h.computes _).setCursor _ _
  · exact (h.computes _).setCursor _ _

theorem Linked.decstbm (h : s.Linked) (params : List Int) : (s.decstbm params).Linked := by
  unfold Screen.decstbm
  dsimp only
  split
  · exact h.same rfl rfl ⟨rfl, rfl⟩ rfl
  · exact h.same rfl rfl ⟨rfl, rfl⟩ rfl

theorem Linked.tabs (h : s.Linked) (params : List Int) :
    (s.tbc params).Linked ∧ (s.ctc params).Linked := by
  constructor
  · unfold tbc clearTabStop clearAllTabStops
    split
    · split <;> exact h.same rfl rfl ⟨rfl, rfl⟩ rfl
    · exact h.same rfl rfl ⟨rfl, rfl⟩ rfl
    · exact h
  · unfold ctc setTabStop clearTabStop clearAllTabStops
    split
    · split <;> exact h.same rfl rfl ⟨rfl, rfl⟩ rfl
    · split <;> exact h.same rfl rfl ⟨rfl, rfl⟩ rfl
    · exact h.same rfl rfl ⟨rfl, rfl⟩ rfl
    · exact h

theorem Linked.decscusr (h : s.Linked) (params : List Int) : (s.decscusr params).Linked := by
  unfold Screen.decscusr
  dsimp only
  split
  · exact h.same rfl rfl ⟨rfl, rfl⟩ rfl
  · exact h

theorem Linked.setLineWidth (h : s.Linked) (row : Int) (width : Nat) :
    (s.setLineWidth row width).Linked := by
  refine Linked.setLine h ?_ row
  exact fun _ _ hx => hx

theorem Linked.setLineHeight (h : s.Linked) (row : Int) (height : Nat) (isTop : Bool) :
    ((s.setLineHeight row height).setLineHeightPosition row isTop).Linked := by
  refine Linked.setLine (Linked.setLine h ?_ row) ?_ row
  · exact fun _ _ hx => hx
  · exact fun _ _ hx => hx

theorem Linked.dispatchCSI (h : s.Linked) (privateMode : Bool) {code : CsiCode}
    (hcode : code ≠ .SGR) (params : List Int) :
    (s.dispatchCSI privateMode code params).Linked := by
  have hmove : ∀ rowDelta colDelta, (s.moveBy rowDelta colDelta).Linked :=
    fun _ _ => h.same rfl rfl ⟨rfl, rfl⟩ rfl
  have hput : ∀ ns row col, ((s.computes ns).setCursor row col).Linked :=
    fun _ _ _ => h.same rfl rfl ⟨rfl, rfl⟩ rfl
  cases code
  case SGR => exact absurd rfl hcode
  case CUU => exact hmove _ _
  case CUD => exact hmove _ _
  case CUF => exact hmove _ _
  case HPR => exact hmove _ _
  case CUB => exact hmove _ _
  case CNL => exact hput _ _ _
  case CPL => exact hput _ _ _
  case CHA => exact hput _ _ _
  case CUP => exact h.cup params
  case HVP => exact h.cup params
  case VPA => exact h.vpa params
  case SCP => exact h.same rfl rfl ⟨rfl, rfl⟩ rfl
  case RCP => exact h.same rfl rfl ⟨rfl, rfl⟩ rfl
  case IL => exact h.insertFrom _ _ _
  case DL => exact h.deleteLines _ _
  case SU => exact h.scrollUpIn _ _ _
  case SD => exact h.scrollDown _ _ _
  case SR => exact h.sr
  case DECSTBM => exact h.decstbm params
  case DECSCA => exact h.same rfl rfl ⟨rfl, rfl⟩ rfl
  case ED => exact h.ed params
  case EL => exact h.el params
  case EF => exact h.eraseField _ _ _
  case EA => exact h.eraseArea _
  case DCH => exact h.deleteChars _
  case ECH => exact CountedLoop.upTo_keeps (P := Linked) h fun _ _ _ _ ht => ht.modifyAt ht.resetCell _ _
  case REP => exact h.repeatLastChar _
  case CHT => exact h.setCursor _ _
  case CBT => exact h.setCursor _ _
  case TBC => exact (h.tabs params).1
  case CTC => exact (h.tabs params).2
  case SM => exact h.setMode privateMode true params
  case RM => exact h.setMode privateMode false params
  case DECCRA => exact h.deccra params
  case DECFRA =>
    refine (h.computes _).eachCell _ fun r c t ht => Linked.modifyAt ht ?_ r c
    exact fun _ hx => hx
  case DECRARA => exact (h.computes _).eachCell _ fun r c t ht => ht.reverseCell r c
  case WINDOW_MANIP => exact h.windowManip params
  case DECSWL => exact h.setLineWidth _ _
  case DECDWL => exact h.setLineWidth _ _
  case DECDHL_TOP => exact h.setLineHeight _ _ _
  case DECDHL_BOTTOM => exact h.setLineHeight _ _ _
  case ICH => exact h.ich params
  case NP => exact hmove _ _
  case PP => exact Linked.same (s := s) h rfl rfl ⟨rfl, rfl⟩ rfl
  case DECSCUSR => exact h.decscusr params
  all_goals exact h

/-- All cells written so far: both grids, and the lines scrolled out. -/
def written (s : Screen) : List Cell :=
  s.primaryGrid.cells ++ s.altGrid.cells ++ s.scrollback.flatten

/-- No cell shows the object of the pen, or the edit leaves it equal to what it was. -/
def sgrSpares (s : Screen) (params : List Int) : Bool :=
  (s.written.all fun x => shown x ≠ s.currentAttributes) ||
    (sgrEdit (s.store.value s.currentAttributes) params).equal (s.store.value s.currentAttributes)

theorem Linked.uses_written (h : s.Linked) {x : Cell} (hx : x ∈ s.written) :
    x.Uses s.store.Good := by
  simp only [written, mem_append, mem_flatten] at hx
  rcases hx with (hprimary | halt) | ⟨line, hline, hx⟩
  · exact h.primary x hprimary
  · exact h.alt x halt
  · exact h.lines line hline x hx

theorem assign_value (hpen : pen < store.objects.length) (attr : Attributes) :
    (store.assign pen attr).value r = if r = pen then attr else store.value r := by
  unfold assign value
  by_cases hr : r = pen
  · subst hr
    rw [if_pos rfl, getD_eq_getElem?_getD, List.getElem?_set_self hpen]
    rfl
  · rw [if_neg hr, getD_eq_getElem?_getD, getD_eq_getElem?_getD, List.getElem?_set_ne (Ne.symm hr)]

theorem assign_length (store : AttributeStore) (pen : Ref) (attr : Attributes) :
    (store.assign pen attr).objects.length = store.objects.length :=
  length_set

theorem assign_closed (h : store.Closed) (pen : Ref) (attr : Attributes) :
    (store.assign pen attr).Closed :=
  ⟨by rw [assign_length]; exact h.nonempty, fun entry hentry => by
    rw [assign_length]
    exact h.inside entry hentry, h.distinct⟩

/-- An object other than the one assigned to. -/
theorem assign_good (hgood : store.Good r) (hne : r ≠ pen) (hpen : pen < store.objects.length)
    (attr : Attributes) : (store.assign pen attr).Good r := by
  refine ⟨by rw [assign_length]; exact hgood.1, fun entry hentry hr => ?_⟩
  rw [assign_value hpen, if_neg hne]
  exact hgood.2 entry hentry hr

/-- An assignment of an equal value. -/
theorem assign_good_equal (hgood : store.Good r) (hpen : pen < store.objects.length)
    {attr : Attributes} (hequal : attr.equal (store.value pen) = true) :
    (store.assign pen attr).Good r := by
  refine ⟨by rw [assign_length]; exact hgood.1, fun entry hentry hr => ?_⟩
  have hkey := hgood.2 entry hentry hr
  rw [assign_value hpen]
  split
  · rename_i heq
    subst heq
    exact Attributes.equal_trans hkey (Attributes.equal_symm hequal)
  · exact hkey

/-- The screen with the edited object of the pen. -/
def edited (s : Screen) (params : List Int) : Screen :=
  { s with
    store := s.store.assign s.currentAttributes
      (sgrEdit (s.store.value s.currentAttributes) params) }

/-- What the pen's object is interned as. -/
def editedValue (s : Screen) (params : List Int) : Attributes :=
  (s.edited params).store.value s.currentAttributes

/-- The objects that the cells show, behind an edit of one that none shows. -/
theorem edited_uses (h : s.Linked) {params : List Int}
    (hnone : ∀ x ∈ s.written, shown x ≠ s.currentAttributes) {x : Cell} (hx : x ∈ s.written) :
    x.Uses (s.edited params).store.Good := by
  intro r hr
  refine assign_good (h.uses_written hx r hr) (fun heq => hnone x hx ?_) h.pen.1 _
  rw [shown, hr]
  exact heq

theorem Linked.sgr (h : s.Linked) {params : List Int} (hspares : s.sgrSpares params = true) :
    (s.sgr params).Linked := by
  simp only [sgrSpares, Bool.or_eq_true, all_eq_true, decide_eq_true_eq] at hspares
  have hclosed : (s.edited params).store.Closed := assign_closed h.closed _ _
  rcases hspares with hnone | hequal
  · -- No cell shows the object: what is interned is good, even if the object no longer is.
    have hcells := fun x hx => @edited_uses s h params hnone x hx
    have hprimary : s.primaryGrid.Uses (s.edited params).store.Good :=
      fun x hx => hcells x (mem_append_left _ (mem_append_left _ hx))
    have halt : s.altGrid.Uses (s.edited params).store.Good :=
      fun x hx => hcells x (mem_append_left _ (mem_append_right _ hx))
    have hlines : ∀ line ∈ s.scrollback, ∀ x ∈ line, x.Uses (s.edited params).store.Good :=
      fun line hline x hx => hcells x
        (mem_append_right _ (mem_flatten.2 ⟨line, hline, hx⟩))
    have hheld : ∀ r, r ≠ s.currentAttributes → (s.edited params).holds r = true →
        (s.edited params).store.Good r := by
      intro r hne hr
      exact assign_good (h.holds hr) hne h.pen.1 _
    have hold : ∀ r, (s.edited params).store.Good r →
        ((s.edited params).intern [] (s.editedValue params)).2.store.Good r :=
      fun r hr => intern_good hr
    refine ⟨intern_closed hclosed, ?_, fun x hx r hr => hold r (hprimary x hx r hr),
      fun x hx r hr => hold r (halt x hx r hr),
      fun line hline x hx r hr => hold r (hlines line hline x hx r hr)⟩
    show ((s.edited params).intern [] (s.editedValue params)).2.store.Good
      ((s.edited params).intern [] (s.editedValue params)).1
    rcases intern_cases (fun r => ([] : List Ref).contains r ||
        (s.edited params).holds r) (s.editedValue params) (s.edited params).store with
      ⟨entry, hmem, hkey, halive, heq⟩ | ⟨kept, hkept, heq⟩
    · simp only [Screen.intern, heq]
      by_cases hpen : entry.2 = s.currentAttributes
      · refine ⟨(hclosed.inside entry hmem).2, fun other hother hsame => ?_⟩
        rw [inj_on_of_nodup_map hclosed.distinct hother hmem hsame, hpen]
        exact hkey
      · exact hheld _ hpen (by simpa using halive)
    · simp only [Screen.intern, heq]
      exact insert_good_new (hkept.closed hclosed) _
  · -- The edit leaves an equal value: all that was good still is.
    have hgood : ∀ r, s.store.Good r → (s.edited params).store.Good r :=
      fun r hr => assign_good_equal hr h.pen.1 hequal
    have hedited : (s.edited params).Linked :=
      ⟨hclosed, hgood _ h.pen, fun x hx r hr => hgood r (h.primary x hx r hr),
        fun x hx r hr => hgood r (h.alt x hx r hr),
        fun line hline x hx r hr => hgood r (h.lines line hline x hx r hr)⟩
    obtain ⟨hlinked, hnew, -⟩ := hedited.intern (forall_mem_nil _) (s.editedValue params)
    exact ⟨hlinked.closed, hnew, hlinked.primary, hlinked.alt, hlinked.lines⟩

/-- Whether a command spares what is written: all but `SGR` do. -/
def spares (s : Screen) : Command → Bool
  | .csi _ .SGR params => s.sgrSpares params
  | _ => true

/-- The step lemma of the linked screen. -/
theorem Linked.execute (h : s.Linked) {command : Command} (hspares : s.spares command = true) :
    (s.execute command).Linked := by
  cases command with
  | ground ch => exact h.handleGround ch
  | csi privateMode code params =>
    by_cases hcode : code = .SGR
    · subst hcode
      exact h.sgr hspares
    · exact h.dispatchCSI privateMode hcode params
  | esc code designator => exact h.dispatchESC code designator
  | osc code data => exact h.dispatchOSC code data

theorem Linked.make (rows cols : Int) : (Screen.make rows cols).Linked := by
  have hgrid : ∀ Q, (Grid.make rows cols).Uses Q := by
    intro Q
    refine Grid.Uses.resize ?_ _ _
    intro x hx
    cases hx
  have hgood : (initial.intern (fun _ => false) {}).2.Good
      (initial.intern (fun _ => false) {}).1 :=
    intern_good_new initial_closed (by simp)
  have hbase : Linked
      { primaryGrid := Grid.make rows cols, altGrid := Grid.make rows cols,
        cursor := { maxRows := rows, maxCols := cols },
        currentAttributes := (initial.intern (fun _ => false) {}).1,
        scrollBottom := rows, store := (initial.intern (fun _ => false) {}).2 } :=
    ⟨intern_closed initial_closed, hgood, hgrid _, hgrid _,
      by simp⟩
  exact (hbase.resize rows cols).same rfl rfl ⟨rfl, rfl⟩ rfl

end Screen

namespace Terminal

variable {t : Terminal}

end Terminal

end JobAnsi
