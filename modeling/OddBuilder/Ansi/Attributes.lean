import Mathlib.Data.List.Basic
import Mathlib.Data.UInt

/-!
# Attributes

The attributes of a cell and the store of shared attribute objects. A shared
pointer is the place of its object among all objects ever made; an object that
no pointer holds any more is gone for the cache, and its place is not reused.
-/

namespace JobAnsi

structure RGBColor where
  r : UInt8 := 0
  g : UInt8 := 255
  b : UInt8 := 0
  a : UInt8 := 255
  deriving DecidableEq, Repr

/-- The bit fields that share one word. -/
structure AttributeFlags where
  bold : Bool := false
  faint : Bool := false
  italic : Bool := false
  strikethrough : Bool := false
  inverse : Bool := false
  conceal : Bool := false
  framed : Bool := false
  encircled : Bool := false
  overline : Bool := false
  blink : Nat := 0
  underlineVal : Nat := 0
  hasFg : Bool := false
  hasBg : Bool := false
  deriving DecidableEq, Repr

structure Attributes where
  flags : AttributeFlags := {}
  fg : RGBColor := {}
  bg : RGBColor := {}
  deriving DecidableEq, Repr

namespace Attributes

/-- `operator==`: a colour counts only where its flag is set. -/
def equal (a b : Attributes) : Bool :=
  a.flags = b.flags ∧ (a.flags.hasFg = true → a.fg = b.fg) ∧
    (a.flags.hasBg = true → a.bg = b.bg)

@[simp] theorem equal_iff {a b : Attributes} : a.equal b = true ↔
    a.flags = b.flags ∧ (a.flags.hasFg = true → a.fg = b.fg) ∧
      (a.flags.hasBg = true → a.bg = b.bg) := by
  simp [equal, imp_iff_not_or]

theorem equal_refl (a : Attributes) : a.equal a = true := by
  simp

theorem equal_symm {a b : Attributes} (h : a.equal b = true) : b.equal a = true := by
  rw [equal_iff] at h ⊢
  obtain ⟨hflags, hfg, hbg⟩ := h
  exact ⟨hflags.symm, fun h => (hfg (hflags ▸ h)).symm, fun h => (hbg (hflags ▸ h)).symm⟩

theorem equal_trans {a b c : Attributes} (hab : a.equal b = true) (hbc : b.equal c = true) :
    a.equal c = true := by
  rw [equal_iff] at hab hbc ⊢
  obtain ⟨hflags, hfg, hbg⟩ := hab
  refine ⟨hflags.trans hbc.1, fun h => (hfg h).trans (hbc.2.1 (hflags ▸ h)),
    fun h => (hbg h).trans (hbc.2.2 (hflags ▸ h))⟩

def setForeground (color : RGBColor) (attr : Attributes) : Attributes :=
  { attr with fg := color, flags := { attr.flags with hasFg := true } }

def setBackground (color : RGBColor) (attr : Attributes) : Attributes :=
  { attr with bg := color, flags := { attr.flags with hasBg := true } }

def resetForeground (attr : Attributes) : Attributes :=
  { attr with flags := { attr.flags with hasFg := false } }

def resetBackground (attr : Attributes) : Attributes :=
  { attr with flags := { attr.flags with hasBg := false } }

/-- The colours stay behind the cleared flags. -/
def reset (attr : Attributes) : Attributes := { attr with flags := {} }

end Attributes

def kBasicAnsiColorTable : List RGBColor :=
  [{ r := 0, g := 0, b := 0 }, { r := 255, g := 0, b := 0 }, { r := 0, g := 255, b := 0 },
    { r := 255, g := 255, b := 0 }, { r := 0, g := 0, b := 255 }, { r := 255, g := 0, b := 255 },
    { r := 0, g := 255, b := 255 }, { r := 255, g := 255, b := 255 }]

def kBrightAnsiColorTable : List RGBColor :=
  [{ r := 85, g := 85, b := 85 }, { r := 255, g := 85, b := 85 }, { r := 85, g := 255, b := 85 },
    { r := 255, g := 255, b := 85 }, { r := 85, g := 85, b := 255 },
    { r := 255, g := 85, b := 255 }, { r := 85, g := 255, b := 255 },
    { r := 255, g := 255, b := 255 }]

/-- `static_cast<uint8_t>` -/
def toUInt8 (value : Int) : UInt8 := UInt8.ofNat (value % 256).toNat

def colorAt (table : List RGBColor) (index : Int) : RGBColor :=
  table.getD index.toNat { r := 255, g := 255, b := 255 }

def fromXterm256Palette (code : Int) : RGBColor :=
  let colorCode := max 0 (min code 255)
  if colorCode < 16 then
    if colorCode < 8 then colorAt kBasicAnsiColorTable colorCode
    else colorAt kBrightAnsiColorTable (colorCode - 8)
  else if colorCode < 232 then
    let index := colorCode - 16
    let level := fun n : Int => toUInt8 (if n ≠ 0 then n * 40 + 55 else 0)
    { r := level (index / 36), g := level (index / 6 % 6), b := level (index % 6) }
  else
    let level := toUInt8 (8 + (colorCode - 232) * 10)
    { r := level, g := level, b := level }

/-- Whether it is a foreground colour, and the colour. -/
def sgrCodeToColor (code : Int) : Option (Bool × RGBColor) :=
  if 30 ≤ code ∧ code ≤ 37 then some (true, colorAt kBasicAnsiColorTable (code - 30))
  else if 90 ≤ code ∧ code ≤ 97 then some (true, colorAt kBrightAnsiColorTable (code - 90))
  else if 40 ≤ code ∧ code ≤ 47 then some (false, colorAt kBasicAnsiColorTable (code - 40))
  else if 100 ≤ code ∧ code ≤ 107 then some (false, colorAt kBrightAnsiColorTable (code - 100))
  else none

def sgrColor (code : Int) (attr : Attributes) : Attributes :=
  match sgrCodeToColor code with
  | some (true, color) => attr.setForeground color
  | some (false, color) => attr.setBackground color
  | none => attr

/-- One code that takes no further parameter. -/
def sgrCode (code : Int) (attr : Attributes) : Attributes :=
  let flags := attr.flags
  match code with
  | 0 => attr.reset
  | 1 => { attr with flags := { flags with bold := true } }
  | 2 => { attr with flags := { flags with faint := true } }
  | 3 => { attr with flags := { flags with italic := true } }
  | 4 => { attr with flags := { flags with underlineVal := 1 } }
  | 21 => { attr with flags := { flags with underlineVal := 2 } }
  | 24 => { attr with flags := { flags with underlineVal := 0 } }
  | 5 => { attr with flags := { flags with blink := 1 } }
  | 6 => { attr with flags := { flags with blink := 2 } }
  | 25 => { attr with flags := { flags with blink := 0 } }
  | 7 => { attr with flags := { flags with inverse := true } }
  | 27 => { attr with flags := { flags with inverse := false } }
  | 9 => { attr with flags := { flags with strikethrough := true } }
  | 29 => { attr with flags := { flags with strikethrough := false } }
  | 8 => { attr with flags := { flags with conceal := true } }
  | 28 => { attr with flags := { flags with conceal := false } }
  | 39 => attr.resetForeground
  | 49 => attr.resetBackground
  | 38 => attr
  | 48 => attr
  | 51 => { attr with flags := { flags with framed := true } }
  | 52 => { attr with flags := { flags with encircled := true } }
  | 53 => { attr with flags := { flags with overline := true } }
  | 54 => { attr with flags := { flags with framed := false, encircled := false } }
  | 55 => { attr with flags := { flags with overline := false } }
  | _ => sgrColor code attr

/-- The loop of `DispatchSGR::dispatch` over its parameters. -/
def sgrEdit (attr : Attributes) : List Int → Attributes
  | [] => attr
  | 38 :: 5 :: n :: params => sgrEdit (attr.setForeground (fromXterm256Palette n)) params
  | 38 :: 2 :: r :: g :: b :: params =>
    sgrEdit (attr.setForeground { r := toUInt8 r, g := toUInt8 g, b := toUInt8 b }) params
  | 48 :: 5 :: n :: params => sgrEdit (attr.setBackground (fromXterm256Palette n)) params
  | 48 :: 2 :: r :: g :: b :: params =>
    sgrEdit (attr.setBackground { r := toUInt8 r, g := toUInt8 g, b := toUInt8 b }) params
  | code :: params => sgrEdit (sgrCode code attr) params

/-- Of an incomplete colour the parameters count as codes of their own: `38;5` is a slow blink. -/
example : sgrEdit {} [38, 5] = { flags := { blink := 1 } } := by decide

/-- A shared pointer to attributes. -/
abbrev Ref : Type := Nat

structure AttributeStore where
  objects : List Attributes
  cache : List (Attributes × Ref)
  insertCount : Nat

/-- The static object of `Cell::defaultAttributes`. -/
def defaultAttributes : Ref := 0

def kGcThreshold : Nat := 1024

namespace AttributeStore

/-- Before the first intern: only the static object. -/
def initial : AttributeStore := { objects := [{}], cache := [], insertCount := 0 }

def value (store : AttributeStore) (r : Ref) : Attributes := store.objects.getD r {}

/-- The assignments through a pointer to the object. -/
def assign (store : AttributeStore) (r : Ref) (attr : Attributes) : AttributeStore :=
  { store with objects := store.objects.set r attr }

/-- The sweep over expired entries that every so many inserts make. -/
def collect (alive : Ref → Bool) (store : AttributeStore) : AttributeStore :=
  if store.insertCount > kGcThreshold then
    { store with insertCount := 0, cache := store.cache.filter fun entry => alive entry.2 }
  else
    { store with insertCount := store.insertCount + 1 }

/-- `make_shared` and `cache.emplace`. -/
def insert (attr : Attributes) (store : AttributeStore) : Ref × AttributeStore :=
  (store.objects.length,
    { store with
      objects := store.objects ++ [attr]
      cache := (attr, store.objects.length) :: store.cache })

/-- `Attributes::intern`, where `alive` says of which objects a pointer is held. -/
def intern (alive : Ref → Bool) (attr : Attributes) (store : AttributeStore) :
    Ref × AttributeStore :=
  match store.cache.find? fun entry => entry.1.equal attr with
  | some entry =>
    if alive entry.2 then (entry.2, store)
    else
      ({ store with cache := store.cache.eraseP fun entry => entry.1.equal attr }.collect
        alive).insert attr
  | none => (store.collect alive).insert attr

end AttributeStore

end JobAnsi
