import OddBuilder.Io.PagePool

/-!
# The searches of the two pools on machine words

The bodies of `findFreeRange` and `findFreeSpan` once more, on 64-bit words
where every sum, difference and product is taken modulo the word. They compute
what the bodies over the naturals compute, so no step of them wraps.
-/

namespace JobIo

open JobMemRange

namespace Word

/-- `std::numeric_limits<std::size_t>::max()`. -/
def max : UInt64 := 0xFFFFFFFFFFFFFFFF

def validAlignment (alignment : UInt64) : Bool :=
  alignment != 0 && (alignment &&& (alignment - 1)) == 0

def alignUp (value alignment : UInt64) : UInt64 :=
  if !validAlignment alignment then max
  else
    let mask := alignment - 1
    if value > max - mask then max
    else (value + mask) &&& ~~~mask

/-- One turn of the loop of `JobRangePool::findFreeRange`. -/
def fitRange (base size alignment first last : UInt64) : Option UInt64 :=
  if first == last then none
  else if base > max - first then none
  else
    let firstAddress := base + first
    if firstAddress > max then none
    else
      let alignedAddress := alignUp firstAddress alignment
      if alignedAddress == max then none
      else if alignedAddress < base then none
      else
        let alignedOffset := alignedAddress - base
        if alignedOffset > max then none
        else if alignedOffset < first || alignedOffset ≥ last then none
        else if size > last - alignedOffset then none
        else some alignedOffset

/-- One turn of the loop of `JobPagePool::findFreeSpan`. -/
def fitSpan (base pageSize pageCount alignment spanFirst spanCount : UInt64) : Option UInt64 :=
  let mask := alignment - 1
  if spanCount < pageCount then none
  else if spanFirst > max / pageSize then none
  else
    let localOffset := spanFirst * pageSize
    if base > max - localOffset then none
    else
      let firstAddress := base + localOffset
      if firstAddress > max - mask then none
      else
        let alignedAddress := (firstAddress + mask) &&& ~~~mask
        if alignedAddress < base then none
        else
          let alignedOffset := alignedAddress - base
          if alignedOffset > max then none
          else if alignedOffset % pageSize ≠ 0 then none
          else
            let candidate := alignedOffset / pageSize
            if candidate < spanFirst then none
            else if candidate ≥ spanFirst + spanCount then none
            else if pageCount > spanFirst + spanCount - candidate then none
            else some candidate

theorem toNat_max : max.toNat = sizeMax := by decide

theorem toNat_le (x : UInt64) : x.toNat ≤ sizeMax := (lt_word _).1 x.toNat_lt

theorem toNat_max_sub (x : UInt64) : (max - x).toNat = sizeMax - x.toNat := by
  have hle : x ≤ max := by
    exact toNat_le x
  rw [UInt64.toNat_sub_of_le _ _ hle, toNat_max]

/-- A sum behind its guard is the sum of the naturals. -/
theorem toNat_add_guarded {a b : UInt64} (h : ¬ a.toNat > sizeMax - b.toNat) :
    (a + b).toNat = a.toNat + b.toNat := by
  have hb := toNat_le b
  rw [UInt64.toNat_add]
  exact Nat.mod_eq_of_lt ((lt_word _).2 (by omega))

theorem toNat_sub_guarded {a b : UInt64} (h : ¬ a.toNat < b.toNat) :
    (a - b).toNat = a.toNat - b.toNat :=
  UInt64.toNat_sub_of_le _ _ (UInt64.le_iff_toNat_le.2 (Nat.not_lt.1 h))

theorem toNat_mul_guarded {a b : UInt64} (hb : 0 < b.toNat)
    (h : ¬ a.toNat > sizeMax / b.toNat) : (a * b).toNat = a.toNat * b.toNat := by
  rw [UInt64.toNat_mul]
  apply Nat.mod_eq_of_lt
  rw [lt_word, ← Nat.le_div_iff_mul_le hb]
  omega

theorem toNat_sub_one {a : UInt64} (h : a.toNat ≠ 0) : (a - 1).toNat = a.toNat - 1 :=
  UInt64.toNat_sub_of_le _ _ (UInt64.le_iff_toNat_le.2 (Nat.pos_of_ne_zero h))

theorem toNat_clear (value mask : UInt64) :
    (value &&& ~~~mask).toNat = value.toNat &&& (sizeMax ^^^ mask.toNat) := by
  have hnot : (~~~mask).toNat = sizeMax ^^^ mask.toNat := by
    rfl
  rw [UInt64.toNat_and, hnot]

theorem validAlignment_eq (alignment : UInt64) :
    validAlignment alignment = JobMemRange.validAlignment alignment.toNat := by
  by_cases hzero : alignment.toNat = 0
  · have halignment : alignment = 0 := UInt64.toNat_inj.1 hzero
    subst halignment
    rfl
  · have hmask : alignment &&& (alignment - 1) = 0 ↔
        alignment.toNat &&& (alignment.toNat - 1) = 0 := by
      rw [← UInt64.toNat_inj, UInt64.toNat_and, toNat_sub_one hzero]
      rfl
    have hne : alignment ≠ 0 := fun h => hzero (by rw [h]; rfl)
    rw [Bool.eq_iff_iff]
    simp [validAlignment, JobMemRange.validAlignment, hmask, hne, hzero]

theorem alignUp_eq (value alignment : UInt64) :
    (alignUp value alignment).toNat = JobRangePool.alignUp value.toNat alignment.toNat := by
  unfold alignUp JobRangePool.alignUp
  rw [validAlignment_eq]
  by_cases hvalid : JobMemRange.validAlignment alignment.toNat = true
  · have hzero : alignment.toNat ≠ 0 :=
      Nat.ne_of_gt (Nat.pos_of_isPowerOfTwo (validAlignment_iff.1 hvalid))
    have hguard : value > max - (alignment - 1) ↔
        value.toNat > sizeMax - (alignment.toNat - 1) := by
      rw [gt_iff_lt, UInt64.lt_iff_toNat_lt, toNat_max_sub, toNat_sub_one hzero]
    simp only [hvalid, Bool.not_true, Bool.false_eq_true, if_false]
    by_cases hlarge : value.toNat > sizeMax - (alignment.toNat - 1)
    · rw [if_pos (hguard.2 hlarge), if_pos hlarge, toNat_max]
    · rw [if_neg (hguard.not.2 hlarge), if_neg hlarge, toNat_clear, toNat_add_guarded,
        toNat_sub_one hzero]
      rwa [toNat_sub_one hzero]
  · rw [Bool.eq_false_iff.2 hvalid]
    exact toNat_max

/-- The two searches turn away together and go on together. -/
theorem guard_congr {c c' : Prop} [Decidable c] [Decidable c'] {found : Option UInt64}
    {place : Option Nat} (hguard : c ↔ c') (hrest : ¬ c' → found.map UInt64.toNat = place) :
    (if c then none else found).map UInt64.toNat = if c' then none else place := by
  by_cases h : c'
  · rw [if_pos h, if_pos (hguard.2 h)]
    rfl
  · rw [if_neg h, if_neg (hguard.not.2 h)]
    exact hrest h

theorem gt_max_iff (x : UInt64) : x > max ↔ x.toNat > sizeMax := by
  rw [gt_iff_lt, UInt64.lt_iff_toNat_lt, toNat_max]

theorem fitRange_eq (base size alignment first last : UInt64) (ordered : first.toNat ≤ last.toNat) :
    (fitRange base size alignment first last).map UInt64.toNat =
      JobRangePool.fitRange base.toNat size.toNat alignment.toNat
        ⟨first.toNat, last.toNat, ordered⟩ := by
  refine guard_congr ?_ fun _ => guard_congr ?_ fun hfirst => ?_
  · simp [empty, UInt64.toNat_inj]
  · rw [gt_iff_lt, UInt64.lt_iff_toNat_lt, toNat_max_sub]
  have haddress := toNat_add_guarded hfirst
  have haligned : (alignUp (base + first) alignment).toNat =
      JobRangePool.alignUp (base.toNat + first.toNat) alignment.toNat := by
    rw [alignUp_eq, haddress]
  refine guard_congr ?_ fun _ => guard_congr ?_ fun _ => guard_congr ?_ fun hlow => ?_
  · rw [gt_max_iff, haddress]
  · rw [beq_iff_eq, beq_iff_eq, ← UInt64.toNat_inj, haligned, toNat_max]
  · rw [UInt64.lt_iff_toNat_lt, haligned]
  have hoffset : (alignUp (base + first) alignment - base).toNat =
      JobRangePool.alignUp (base.toNat + first.toNat) alignment.toNat - base.toNat := by
    rw [toNat_sub_guarded (by rwa [haligned]), haligned]
  refine guard_congr ?_ fun _ => guard_congr ?_ fun hinside => guard_congr ?_ fun _ => ?_
  · rw [gt_max_iff, hoffset]
  · simp [UInt64.lt_iff_toNat_lt, UInt64.le_iff_toNat_le, hoffset]
  · have hlast : ¬ last.toNat < (alignUp (base + first) alignment - base).toNat := by
      simp only [Bool.or_eq_true, decide_eq_true_eq] at hinside
      omega
    rw [gt_iff_lt, UInt64.lt_iff_toNat_lt, toNat_sub_guarded hlast, hoffset]
  · rw [Option.map_some, hoffset]

theorem fitSpan_eq (base pageSize pageCount alignment spanFirst spanCount : UInt64)
    (hpageSize : 0 < pageSize.toNat) (halignment : alignment.toNat ≠ 0)
    (hspan : spanFirst.toNat + spanCount.toNat ≤ sizeMax) {span : JobMemSpan}
    (hfirst : span.firstPageIndex = spanFirst.toNat) (hcount : span.pageCount = spanCount.toNat) :
    (fitSpan base pageSize pageCount alignment spanFirst spanCount).map UInt64.toNat =
      JobPagePool.fitSpan base.toNat pageSize.toNat pageCount.toNat alignment.toNat span := by
  have hmask := toNat_sub_one halignment
  have hend : (spanFirst + spanCount).toNat = spanFirst.toNat + spanCount.toNat :=
    toNat_add_guarded (by omega)
  unfold fitSpan JobPagePool.fitSpan JobMemSpan.endPageIndex
  rw [hfirst, hcount]
  refine guard_congr ?_ fun _ => guard_congr ?_ fun hindex => ?_
  · rw [UInt64.lt_iff_toNat_lt]
  · rw [gt_iff_lt, UInt64.lt_iff_toNat_lt, UInt64.toNat_div, toNat_max]
  have hlocal := toNat_mul_guarded hpageSize hindex
  refine guard_congr ?_ fun hbase => ?_
  · rw [gt_iff_lt, UInt64.lt_iff_toNat_lt, toNat_max_sub, hlocal]
  have haddress : (base + spanFirst * pageSize).toNat =
      base.toNat + spanFirst.toNat * pageSize.toNat := by
    rw [toNat_add_guarded (by rwa [hlocal]), hlocal]
  refine guard_congr ?_ fun hsum => ?_
  · rw [gt_iff_lt, UInt64.lt_iff_toNat_lt, toNat_max_sub, hmask, haddress]
  have haligned : (base + spanFirst * pageSize + (alignment - 1) &&& ~~~(alignment - 1)).toNat =
      (base.toNat + spanFirst.toNat * pageSize.toNat + (alignment.toNat - 1)) &&&
        (sizeMax ^^^ (alignment.toNat - 1)) := by
    rw [toNat_clear, toNat_add_guarded (by rwa [haddress, hmask]), haddress, hmask]
  refine guard_congr ?_ fun hlow => ?_
  · rw [UInt64.lt_iff_toNat_lt, haligned]
  have hoffset := toNat_sub_guarded (a := base + spanFirst * pageSize + (alignment - 1) &&&
    ~~~(alignment - 1)) (b := base) (by rwa [haligned])
  rw [haligned] at hoffset
  refine guard_congr ?_ fun _ => guard_congr ?_ fun _ => guard_congr ?_ fun _ =>
    guard_congr ?_ fun hcandidate => guard_congr ?_ fun _ => ?_
  · rw [gt_max_iff, hoffset]
  · rw [ne_eq, ← UInt64.toNat_inj, UInt64.toNat_mod, hoffset]
    rfl
  · rw [UInt64.lt_iff_toNat_lt, UInt64.toNat_div, hoffset]
  · rw [ge_iff_le, UInt64.le_iff_toNat_le, UInt64.toNat_div, hoffset, hend]
  · have hroom : ¬ (spanFirst + spanCount).toNat <
        ((base + spanFirst * pageSize + (alignment - 1) &&& ~~~(alignment - 1)) - base).toNat /
          pageSize.toNat := by
      rw [hoffset]
      omega
    rw [gt_iff_lt, UInt64.lt_iff_toNat_lt, toNat_sub_guarded (by rwa [UInt64.toNat_div]),
      UInt64.toNat_div, hoffset, hend]
  · rw [Option.map_some, UInt64.toNat_div, hoffset]

end Word

end JobIo
