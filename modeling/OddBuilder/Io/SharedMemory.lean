import OddBuilder.Library.Ring

/-!
# Shared memory

A segment of shared memory under one key, and the objects that attach to it as
writers. The header in front of the ring outlives the writer that made it, while
every writer resizes the file to its own request. The system calls may fail at any
time. Sizes and positions are 64-bit unsigned, the capacity in the header 32-bit.
-/

namespace JobIo

namespace SharedRing

/-- `writePos - readPos`, modulo `2 ^ 64`. -/
def availableToRead (writePos readPos : Nat) : Nat := (writePos + 2 ^ 64 - readPos) % 2 ^ 64

/-- `totalSize - (writePos - readPos)`, modulo `2 ^ 64`. -/
def availableToWrite (cap writePos readPos : Nat) : Nat :=
  (cap + 2 ^ 64 - availableToRead writePos readPos) % 2 ^ 64

theorem availableToRead_of_le {writePos readPos : Nat} (hle : readPos ≤ writePos)
    (hlt : writePos < 2 ^ 64) : availableToRead writePos readPos = writePos - readPos := by
  unfold availableToRead
  omega

theorem availableToWrite_eq {cap writePos readPos : Nat} (hcap : cap < 2 ^ 64)
    (h : availableToRead writePos readPos ≤ cap) :
    availableToWrite cap writePos readPos = cap - availableToRead writePos readPos := by
  unfold availableToWrite
  omega

end SharedRing

/-- The fields of `JobSharedMemoryHeader` that are read again, and the length of the file. -/
structure Segment where
  length : Nat
  magic : Nat
  totalSize : Nat
  writePos : Nat
  readPos : Nat
deriving DecidableEq

namespace Segment

def kSmMagic : Nat := 0x534D454D

/-- `sizeof(JobSharedMemoryHeader)`. -/
def headerSize : Nat := 64

/-- What is left of a field of `width` bytes at an offset when the file ends at `length`: the bytes
that are cut off come back as zeros. -/
def cut (offset width length value : Nat) : Nat := value % 256 ^ min width (length - offset)

/-- `ftruncate`. -/
def resize (segment : Segment) (length : Nat) : Segment where
  length := length
  magic := cut 0 4 length segment.magic
  totalSize := cut 16 4 length segment.totalSize
  writePos := cut 24 8 length segment.writePos
  readPos := cut 32 8 length segment.readPos

/-- A file just created. -/
def fresh : Segment := ⟨0, 0, 0, 0, 0⟩

/-- `JobSharedMemoryHeader::create`; the size is narrowed to 32 bits, and what would stand beyond the
end of the file is lost. -/
def create (segment : Segment) (requestedSize : Nat) : Segment :=
  ({ length := segment.length, magic := kSmMagic, totalSize := requestedSize % 2 ^ 32, writePos := 0,
     readPos := 0 } : Segment).resize segment.length

/-- Every field has a value of its width. -/
structure Fields (segment : Segment) : Prop where
  magic : segment.magic < 2 ^ 32
  totalSize : segment.totalSize < 2 ^ 32
  writePos : segment.writePos < 2 ^ 64
  readPos : segment.readPos < 2 ^ 64

theorem cut_long {offset width length value : Nat} (h : offset + width ≤ length)
    (hvalue : value < 256 ^ width) : cut offset width length value = value := by
  rw [cut, Nat.min_eq_left (by omega), Nat.mod_eq_of_lt hvalue]

/-- A file that keeps room for the header keeps the header. -/
theorem resize_long {segment : Segment} (fields : segment.Fields) {length : Nat}
    (h : headerSize ≤ length) : segment.resize length = { segment with length := length } := by
  simp only [headerSize] at h
  simp only [resize]
  rw [cut_long (by omega) fields.magic, cut_long (by omega) fields.totalSize,
    cut_long (by omega) fields.writePos, cut_long (by omega) fields.readPos]

theorem fresh_fields : fresh.Fields := ⟨by decide, by decide, by decide, by decide⟩

theorem create_long {segment : Segment} (h : headerSize ≤ segment.length) (requestedSize : Nat) :
    segment.create requestedSize =
      { length := segment.length, magic := kSmMagic, totalSize := requestedSize % 2 ^ 32,
        writePos := 0, readPos := 0 } := by
  have hnew : (Segment.mk segment.length kSmMagic (requestedSize % 2 ^ 32) 0 0).Fields :=
    ⟨show kSmMagic < 2 ^ 32 by decide, Nat.mod_lt _ (by decide), Nat.two_pow_pos 64,
      Nat.two_pow_pos 64⟩
  exact resize_long hnew h

end Segment

inductive SharedMemoryState where
  | Unconnected | Connecting | Connected | Closed | Error
deriving DecidableEq

/-- A `JobSharedMemory` in write mode; `mapped` is the length of its mapping while it has one. -/
structure JobSharedMemory where
  requestedSize : Nat := 0
  state : SharedMemoryState := .Unconnected
  mapped : Option Nat := none
deriving DecidableEq

/-- Which of the system calls of an `attach` succeed. -/
structure AttachCalls where
  shmOpen : Bool
  ftruncate : Bool
  mmap : Bool
  semOpen : Bool

namespace JobSharedMemory

def isAttached (m : JobSharedMemory) : Bool := m.state == .Connected && m.mapped.isSome

/-- Refused once the object has been connected. -/
def setSize (m : JobSharedMemory) (size : Nat) : JobSharedMemory :=
  if m.state = .Unconnected then { m with requestedSize := size % 2 ^ 64 } else m

/-- The length of the file and of the mapping. -/
def totalMappingSize (m : JobSharedMemory) : Nat := (Segment.headerSize + m.requestedSize) % 2 ^ 64

/-- A length from `2 ^ 63` on is a negative `off_t`, which `ftruncate` refuses; `mmap` refuses zero. -/
def attach (segment : Option Segment) (m : JobSharedMemory) (calls : AttachCalls) :
    Bool × Option Segment × JobSharedMemory :=
  if m.isAttached then (true, segment, m)
  else if m.requestedSize = 0 then (false, segment, m)
  else if ¬ calls.shmOpen then (false, segment, { m with state := .Error })
  else
    let file := segment.getD Segment.fresh
    if ¬ calls.ftruncate ∨ 2 ^ 63 ≤ m.totalMappingSize then (false, some file, { m with state := .Error })
    else
      let file := file.resize m.totalMappingSize
      if ¬ calls.mmap ∨ m.totalMappingSize = 0 then (false, some file, { m with state := .Error })
      else
        let file := if file.magic ≠ Segment.kSmMagic then file.create m.requestedSize else file
        if ¬ calls.semOpen then (false, some file, { m with state := .Connecting, mapped := none })
        else (true, some file, { m with state := .Connected, mapped := some m.totalMappingSize })

def detach (m : JobSharedMemory) : JobSharedMemory :=
  if m.isAttached then { m with state := .Closed, mapped := none } else m

/-- The pieces of the mapping that a copy of `len` bytes at a position touches, each by its start and
its length. -/
def copyRanges (cap pos len : Nat) : List (Nat × Nat) :=
  let offset := pos % cap
  if offset + len ≤ cap then [(Segment.headerSize + offset, len)]
  else [(Segment.headerSize + offset, cap - offset), (Segment.headerSize, len - (cap - offset))]

/-- `write`: what it touches, and the new position; `none` when there is no room. -/
def write (segment : Segment) (len : Nat) : Option (List (Nat × Nat) × Segment) :=
  if len > SharedRing.availableToWrite segment.totalSize segment.writePos segment.readPos then none
  else some (copyRanges segment.totalSize segment.writePos len,
    { segment with writePos := (segment.writePos + len) % 2 ^ 64 })

/-- `read`: what it touches, and the new position; `none` when there is nothing to read. -/
def read (segment : Segment) (maxlen : Nat) : Option (List (Nat × Nat) × Segment) :=
  let avail := SharedRing.availableToRead segment.writePos segment.readPos
  if avail = 0 then none
  else
    let toRead := min maxlen avail
    some (copyRanges segment.totalSize segment.readPos toRead,
      { segment with readPos := (segment.readPos + toRead) % 2 ^ 64 })

/-- A piece of the mapping. -/
def Inside (mapped : Nat) (range : Nat × Nat) : Prop := range.1 + range.2 ≤ mapped

/-- A copy of at most `cap` bytes stays in the ring. -/
theorem copyRanges_inside {cap mapped : Nat} (hcap : cap ≠ 0)
    (hmapped : Segment.headerSize + cap ≤ mapped) (pos : Nat) {len : Nat} (hlen : len ≤ cap) :
    ∀ range ∈ copyRanges cap pos len, Inside mapped range := by
  intro range hrange
  have hoffset : pos % cap < cap := Nat.mod_lt _ (by omega)
  simp only [copyRanges] at hrange
  split at hrange
  · simp only [List.mem_singleton] at hrange
    subst hrange
    simp only [Inside]
    omega
  · simp only [List.mem_cons, List.not_mem_nil, or_false] at hrange
    rcases hrange with rfl | rfl
    · simp only [Inside]
      omega
    · simp only [Inside]
      omega

/-- A header that `create` made for a request that does not vanish in 32 bits; reading and writing
keep it. -/
structure Ready (segment : Segment) : Prop where
  magic : segment.magic = Segment.kSmMagic
  totalSize : segment.totalSize ≠ 0
  unread : SharedRing.availableToRead segment.writePos segment.readPos ≤ segment.totalSize

/-- The condition on an attach: the request fits in 64 bits with the header, and a header that is
found asks for no more than the request, or else the request does not vanish in 32 bits. -/
def AttachFits (segment : Option Segment) (requestedSize : Nat) : Prop :=
  Segment.headerSize + requestedSize < 2 ^ 64 ∧
    if (segment.getD Segment.fresh).magic = Segment.kSmMagic
    then (segment.getD Segment.fresh).totalSize ≤ requestedSize
    else requestedSize % 2 ^ 32 ≠ 0

instance (segment : Option Segment) (requestedSize : Nat) :
    Decidable (AttachFits segment requestedSize) := inferInstanceAs (Decidable (_ ∧ _))

/-- What holds of the file at all times: a valid magic stands in front of a header in use. -/
structure Sound (segment : Segment) : Prop where
  fields : segment.Fields
  ready : segment.magic = Segment.kSmMagic → Ready segment

theorem fresh_sound : Sound Segment.fresh where
  fields := Segment.fresh_fields
  ready := fun h => absurd h (by decide)

/-- The header a writer goes on with: the one it finds, or a new one. -/
def header (file : Segment) (requestedSize : Nat) : Segment :=
  if file.magic ≠ Segment.kSmMagic then file.create requestedSize else file

/-- Every way an attach can end for an object that is not attached. -/
theorem attach_cases (segment : Option Segment) {m : JobSharedMemory} (calls : AttachCalls)
    (hnot : m.isAttached = false) :
    ((attach segment m calls).2.1 = segment ∧ (attach segment m calls).2.2.isAttached = false) ∨
    m.requestedSize ≠ 0 ∧ ∃ file, (attach segment m calls).2.1 = some file ∧
      (file = segment.getD Segment.fresh ∨
        file = (segment.getD Segment.fresh).resize m.totalMappingSize ∨
        file = header ((segment.getD Segment.fresh).resize m.totalMappingSize) m.requestedSize) ∧
      ((attach segment m calls).2.2.isAttached = true →
        file = header ((segment.getD Segment.fresh).resize m.totalMappingSize) m.requestedSize ∧
        (attach segment m calls).2.2.mapped = some m.totalMappingSize) := by
  simp only [attach, hnot, Bool.false_eq_true, ↓reduceIte]
  split
  · exact .inl ⟨rfl, hnot⟩
  · split
    · exact .inl ⟨rfl, rfl⟩
    · rename_i hrequest _
      refine .inr ⟨hrequest, ?_⟩
      split
      · exact ⟨_, rfl, .inl rfl, fun h => absurd h (by simp [isAttached])⟩
      · split
        · exact ⟨_, rfl, .inr (.inl rfl), fun h => absurd h (by simp [isAttached])⟩
        · split
          · exact ⟨_, rfl, .inr (.inr rfl), fun h => absurd h (by simp [isAttached])⟩
          · exact ⟨_, rfl, .inr (.inr rfl), fun _ => ⟨rfl, rfl⟩⟩

theorem totalMappingSize_eq {m : JobSharedMemory}
    (h : Segment.headerSize + m.requestedSize < 2 ^ 64) :
    m.totalMappingSize = Segment.headerSize + m.requestedSize := Nat.mod_eq_of_lt h

theorem Sound.resize {file : Segment} (hfile : Sound file) {length : Nat}
    (h : Segment.headerSize ≤ length) : Sound (file.resize length) := by
  rw [Segment.resize_long hfile.fields h]
  refine ⟨⟨hfile.fields.magic, hfile.fields.totalSize, hfile.fields.writePos,
    hfile.fields.readPos⟩, ?_⟩
  intro hmagic
  obtain ⟨-, hsize, hunread⟩ := hfile.ready hmagic
  exact ⟨hmagic, hsize, hunread⟩

/-- A new header for a request that does not vanish in 32 bits is ready. -/
theorem create_ready {file : Segment} (h : Segment.headerSize ≤ file.length) {requestedSize : Nat}
    (hrequest : requestedSize % 2 ^ 32 ≠ 0) : Ready (file.create requestedSize) := by
  rw [Segment.create_long h]
  have hempty : SharedRing.availableToRead 0 0 = 0 := by decide
  exact ⟨rfl, hrequest, hempty.trans_le (Nat.zero_le _)⟩

/-- What a header found or made by a fitting attach says: it is ready, and asks for no more than the
request; a header that is found stays. -/
theorem header_spec {file : Segment} (hfile : Sound file) {requestedSize : Nat}
    (hfits : AttachFits (some file) requestedSize) :
    Sound (header (file.resize (Segment.headerSize + requestedSize)) requestedSize) ∧
    Ready (header (file.resize (Segment.headerSize + requestedSize)) requestedSize) ∧
    (header (file.resize (Segment.headerSize + requestedSize)) requestedSize).totalSize ≤
      requestedSize ∧
    (Ready file →
      (header (file.resize (Segment.headerSize + requestedSize)) requestedSize).totalSize =
        file.totalSize) := by
  have hlong : Segment.headerSize ≤ Segment.headerSize + requestedSize := Nat.le_add_right _ _
  obtain ⟨-, hfits⟩ := hfits
  simp only [Option.getD_some] at hfits
  have hresized : Sound (file.resize (Segment.headerSize + requestedSize)) := hfile.resize hlong
  rw [Segment.resize_long hfile.fields hlong] at hresized ⊢
  by_cases hmagic : file.magic = Segment.kSmMagic
  · rw [if_pos hmagic] at hfits
    simp only [header, hmagic, ne_eq, not_true_eq_false, ↓reduceIte]
    rw [hmagic] at hresized
    exact ⟨hresized, hresized.ready rfl, hfits, fun _ => trivial⟩
  · rw [if_neg hmagic] at hfits
    simp only [header, ne_eq, hmagic]
    have hready : Ready (Segment.create { file with length := Segment.headerSize + requestedSize }
        requestedSize) := create_ready hlong hfits
    refine ⟨⟨?_, fun _ => hready⟩, hready, ?_, fun h => absurd h.magic hmagic⟩
    · rw [Segment.create_long hlong]
      exact ⟨show Segment.kSmMagic < 2 ^ 32 by decide, Nat.mod_lt _ (by decide),
        Nat.two_pow_pos 64, Nat.two_pow_pos 64⟩
    · rw [Segment.create_long hlong]
      exact Nat.mod_le _ _

theorem write_cases {file file' : Segment} {len : Nat} {ranges : List (Nat × Nat)}
    (hready : Ready file) (hfields : file.Fields) (h : write file len = some (ranges, file')) :
    len ≤ file.totalSize ∧ ranges = copyRanges file.totalSize file.writePos len ∧
      file' = { file with writePos := (file.writePos + len) % 2 ^ 64 } ∧
      SharedRing.availableToRead file'.writePos file'.readPos ≤ file.totalSize := by
  have hcap : file.totalSize < 2 ^ 64 := lt_trans hfields.totalSize (by decide)
  have hread := hfields.readPos
  have hunread := hready.unread
  simp only [write, SharedRing.availableToWrite_eq hcap hunread] at h
  split at h
  · cases h
  · rename_i hroom
    obtain ⟨rfl⟩ := h
    refine ⟨by omega, rfl, rfl, ?_⟩
    simp only [SharedRing.availableToRead] at hroom hunread ⊢
    omega

theorem read_cases {file file' : Segment} {maxlen : Nat} {ranges : List (Nat × Nat)}
    (hready : Ready file) (hfields : file.Fields) (h : read file maxlen = some (ranges, file')) :
    ∃ len ≤ file.totalSize, ranges = copyRanges file.totalSize file.readPos len ∧
      file' = { file with readPos := (file.readPos + len) % 2 ^ 64 } ∧
      SharedRing.availableToRead file'.writePos file'.readPos ≤ file.totalSize := by
  have hread := hfields.readPos
  have hunread := hready.unread
  simp only [read] at h
  split at h
  · cases h
  · obtain ⟨rfl⟩ := h
    refine ⟨_, le_trans (Nat.min_le_right _ _) hunread, rfl, rfl, ?_⟩
    simp only [SharedRing.availableToRead] at hunread ⊢
    omega

/-- The file under a key, and the objects that use it, by number. -/
structure Key where
  segment : Option Segment
  objects : Nat → JobSharedMemory

inductive Call where
  | setSize (i size : Nat)
  | attach (i : Nat) (calls : AttachCalls)
  | detach (i : Nat)
  | write (i len : Nat)
  | read (i maxlen : Nat)

namespace Key

variable {key : Key} {m : JobSharedMemory}

/-- Before the first attach. -/
def initial : Key := ⟨none, fun _ => {}⟩

/-- A read or a write by an object; it does nothing for one that is not attached. -/
def transfer (key : Key) (i : Nat) (op : Segment → Option (List (Nat × Nat) × Segment)) : Key :=
  match key.segment with
  | none => key
  | some file =>
    if (key.objects i).isAttached then
      match op file with
      | none => key
      | some (_, file') => { key with segment := some file' }
    else key

def step (key : Key) : Call → Key
  | .setSize i size =>
    { key with objects := Function.update key.objects i ((key.objects i).setSize size) }
  | .attach i calls =>
    let (_, segment, m) := JobSharedMemory.attach key.segment (key.objects i) calls
    { segment := segment, objects := Function.update key.objects i m }
  | .detach i => { key with objects := Function.update key.objects i (key.objects i).detach }
  | .write i len => key.transfer i fun file => JobSharedMemory.write file len
  | .read i maxlen => key.transfer i fun file => JobSharedMemory.read file maxlen

def run (key : Key) (calls : List Call) : Key := calls.foldl step key

/-- The condition on a call: an attach that gets as far as the file fits. -/
def CallFits (key : Key) : Call → Prop
  | .attach i _ => (key.objects i).isAttached = true ∨ (key.objects i).requestedSize = 0 ∨
      AttachFits key.segment (key.objects i).requestedSize
  | _ => True

/-- Every call of a run fits the state it meets. -/
def AllFit (key : Key) : List Call → Prop
  | [] => True
  | call :: calls => key.CallFits call ∧ (key.step call).AllFit calls

/-- The object's mapping holds the whole ring, and every copy it makes stays inside. -/
structure Safe (file : Segment) (mapped : Nat) : Prop where
  totalSize : file.totalSize ≠ 0
  fits : Segment.headerSize + file.totalSize ≤ mapped
  write : ∀ len ranges file', JobSharedMemory.write file len = some (ranges, file') →
    ∀ range ∈ ranges, Inside mapped range
  read : ∀ maxlen ranges file', JobSharedMemory.read file maxlen = some (ranges, file') →
    ∀ range ∈ ranges, Inside mapped range

/-- Every attached object is safe. -/
def AllSafe (key : Key) : Prop :=
  ∀ i, (key.objects i).isAttached = true → ∃ file mapped,
    key.segment = some file ∧ (key.objects i).mapped = some mapped ∧ Safe file mapped

/-- The invariant of a run whose calls all fit. -/
structure Invariant (key : Key) : Prop where
  sound : Sound (key.segment.getD Segment.fresh)
  attached : ∀ i, (key.objects i).isAttached = true → ∃ file mapped,
    key.segment = some file ∧ (key.objects i).mapped = some mapped ∧ Ready file ∧
    Segment.headerSize + file.totalSize ≤ mapped

theorem Invariant.allSafe (inv : key.Invariant) : key.AllSafe := by
  intro i hi
  obtain ⟨file, mapped, hfile, hmapped, hready, hfits⟩ := inv.attached i hi
  have hfields : file.Fields := by
    have hsound := inv.sound
    rw [hfile] at hsound
    exact hsound.fields
  refine ⟨file, mapped, hfile, hmapped, hready.totalSize, hfits, ?_, ?_⟩
  · intro len ranges file' hwrite
    obtain ⟨hlen, rfl, -⟩ := write_cases hready hfields hwrite
    exact copyRanges_inside hready.totalSize hfits _ hlen
  · intro maxlen ranges file' hread
    obtain ⟨len, hlen, rfl, -⟩ := read_cases hready hfields hread
    exact copyRanges_inside hready.totalSize hfits _ hlen

theorem initial_invariant : initial.Invariant where
  sound := fresh_sound
  attached := fun _ h => absurd h (by simp [initial, isAttached])

/-- An object may change as long as it does not come to be attached. -/
theorem Invariant.setObject (inv : key.Invariant) (i : Nat)
    (hm : m.isAttached = true → m = key.objects i) :
    Invariant { key with objects := Function.update key.objects i m } where
  sound := inv.sound
  attached := by
    intro j hj
    by_cases hji : j = i
    · subst hji
      simp only [Function.update_self] at hj ⊢
      have hsame := hm hj
      rw [hsame] at hj ⊢
      exact inv.attached j hj
    · simp only [Function.update_of_ne hji] at hj ⊢
      exact inv.attached j hj

theorem setSize_attached {size : Nat} (h : (m.setSize size).isAttached = true) :
    m.setSize size = m := by
  simp only [setSize] at h ⊢
  split
  · rename_i hstate
    simp [isAttached, hstate] at h
  · rfl

theorem detach_not_attached (m : JobSharedMemory) : m.detach.isAttached = false := by
  simp only [detach]
  split
  · rfl
  · simpa using ‹¬ m.isAttached = true›

/-- A copy moves a position and nothing else. -/
theorem Invariant.transfer (inv : key.Invariant) (i : Nat)
    {op : Segment → Option (List (Nat × Nat) × Segment)}
    (hop : ∀ file ranges file', Ready file → file.Fields → op file = some (ranges, file') →
      file'.Fields ∧ Ready file' ∧ file'.totalSize = file.totalSize) :
    (key.transfer i op).Invariant := by
  simp only [Key.transfer]
  split
  · exact inv
  · rename_i file hfile
    have hsound := inv.sound
    rw [hfile] at hsound
    split
    · rename_i hi
      split
      · exact inv
      · rename_i ranges file' hopfile
        obtain ⟨_, _, hsome, -, hready, -⟩ := inv.attached i hi
        obtain rfl : file = _ := Option.some.inj (hfile.symm.trans hsome)
        obtain ⟨hfields', hready', hsize⟩ := hop file ranges file' hready hsound.fields hopfile
        refine ⟨⟨hfields', fun _ => hready'⟩, ?_⟩
        intro j hj
        obtain ⟨_, mapped, hsome', hmapped, -, hfits⟩ := inv.attached j hj
        obtain rfl : file = _ := Option.some.inj (hfile.symm.trans hsome')
        exact ⟨file', mapped, rfl, hmapped, hready', hsize ▸ hfits⟩
    · exact inv

theorem Invariant.write (inv : key.Invariant) (i len : Nat) :
    (key.step (.write i len)).Invariant := by
  apply inv.transfer
  intro file ranges file' hready hfields hwrite
  obtain ⟨-, -, rfl, hunread⟩ := write_cases hready hfields hwrite
  exact ⟨⟨hfields.magic, hfields.totalSize, Nat.mod_lt _ (Nat.two_pow_pos 64), hfields.readPos⟩,
    ⟨hready.magic, hready.totalSize, hunread⟩, rfl⟩

theorem Invariant.read (inv : key.Invariant) (i maxlen : Nat) :
    (key.step (.read i maxlen)).Invariant := by
  apply inv.transfer
  intro file ranges file' hready hfields hread
  obtain ⟨_, -, -, rfl, hunread⟩ := read_cases hready hfields hread
  exact ⟨⟨hfields.magic, hfields.totalSize, hfields.writePos, Nat.mod_lt _ (Nat.two_pow_pos 64)⟩,
    ⟨hready.magic, hready.totalSize, hunread⟩, rfl⟩

/-- The file after an attach that fits: sound, and with the same capacity for those attached to it. -/
theorem attach_file {file file' : Segment} (hfile : Sound file)
    (hfits : AttachFits (some file) m.requestedSize)
    (h : file' = file ∨ file' = file.resize m.totalMappingSize ∨
      file' = header (file.resize m.totalMappingSize) m.requestedSize) :
    Sound file' ∧ (Ready file → Ready file' ∧ file'.totalSize = file.totalSize) := by
  rw [totalMappingSize_eq hfits.1] at h
  have hlong : Segment.headerSize ≤ Segment.headerSize + m.requestedSize := Nat.le_add_right _ _
  rcases h with rfl | rfl | rfl
  · exact ⟨hfile, fun hready => ⟨hready, rfl⟩⟩
  · refine ⟨hfile.resize hlong, fun hready => ?_⟩
    have hresized := hfile.resize hlong
    rw [Segment.resize_long hfile.fields hlong] at hresized ⊢
    exact ⟨hresized.ready hready.magic, rfl⟩
  · obtain ⟨hsound, hready', -, hsize⟩ := header_spec hfile hfits
    exact ⟨hsound, fun hready => ⟨hready', hsize hready⟩⟩

theorem Invariant.attach (inv : key.Invariant) (i : Nat) (calls : AttachCalls)
    (hcall : key.CallFits (.attach i calls)) : (key.step (.attach i calls)).Invariant := by
  simp only [step]
  cases hattached : (key.objects i).isAttached with
  | true =>
    -- nothing changes for an object that is attached
    simp only [JobSharedMemory.attach, hattached]
    exact inv.setObject i fun _ => rfl
  | false =>
    rcases attach_cases key.segment calls hattached with
      ⟨hsegment, hnot⟩ | ⟨hrequest, file, hsegment, hfile, hnew⟩
    · rw [hsegment]
      exact inv.setObject i fun h => absurd h (by simp [hnot])
    · have hfits : AttachFits (some (key.segment.getD Segment.fresh))
          (key.objects i).requestedSize := by
        rcases hcall with hcall | hcall | hcall
        · rw [hattached] at hcall
          cases hcall
        · exact absurd hcall hrequest
        · exact hcall
      obtain ⟨hsound, hkeep⟩ := attach_file inv.sound hfits hfile
      rw [hsegment]
      refine ⟨hsound, ?_⟩
      intro j hj
      by_cases hji : j = i
      · subst hji
        simp only [Function.update_self] at hj ⊢
        obtain ⟨rfl, hmapped⟩ := hnew hj
        rw [totalMappingSize_eq hfits.1] at hmapped ⊢
        obtain ⟨-, hready, hsize⟩ := header_spec inv.sound hfits
        exact ⟨_, _, rfl, hmapped, hready, by omega⟩
      · simp only [Function.update_of_ne hji] at hj ⊢
        obtain ⟨old, mapped, hsome, hmapped, hready, hroom⟩ := inv.attached j hj
        rw [hsome] at hkeep
        obtain ⟨hready', hsize⟩ := hkeep hready
        exact ⟨file, mapped, rfl, hmapped, hready', hsize ▸ hroom⟩

theorem Invariant.step (inv : key.Invariant) {call : Call} (hcall : key.CallFits call) :
    (key.step call).Invariant := by
  cases call with
  | setSize i size => exact inv.setObject i fun h => setSize_attached h
  | attach i calls => exact inv.attach i calls hcall
  | detach i => exact inv.setObject i fun h => absurd h (by simp [detach_not_attached])
  | write i len => exact inv.write i len
  | read i maxlen => exact inv.read i maxlen

theorem Invariant.run (inv : key.Invariant) {calls : List Call} (hfit : key.AllFit calls) :
    (key.run calls).Invariant := by
  induction calls generalizing key with
  | nil => exact inv
  | cons call calls ih => exact ih (inv.step hfit.1) hfit.2

theorem AllFit.take {calls : List Call} (hfit : key.AllFit calls) (k : Nat) :
    key.AllFit (calls.take k) := by
  induction calls generalizing key k with
  | nil => simpa using hfit
  | cons call calls ih =>
    cases k with
    | zero => exact trivial
    | succ k => exact ⟨hfit.1, ih hfit.2 k⟩

/-- In a run whose attaches all fit, every object is safe after every call for as long as it is
attached. -/
theorem run_allSafe {calls : List Call} (hfit : initial.AllFit calls) (k : Nat) :
    (initial.run (calls.take k)).AllSafe :=
  (initial_invariant.run (hfit.take k)).allSafe

/-- All system calls succeed. -/
def succeed : AttachCalls := ⟨true, true, true, true⟩

/-- A writer of 64 bytes, a write, and a writer of 128 bytes that finds the same header. -/
theorem run_allSafe_growing :
    ((initial.run ([.setSize 0 64, .attach 0 succeed, .write 0 40, .detach 0, .setSize 1 128,
      .attach 1 succeed].take 6)).objects 1).isAttached = true ∧
    (initial.run ([.setSize 0 64, .attach 0 succeed, .write 0 40, .detach 0, .setSize 1 128,
      .attach 1 succeed].take 6)).AllSafe := by
  refine ⟨by decide, run_allSafe ?_ 6⟩
  refine ⟨trivial, .inr (.inr ?_), trivial, trivial, trivial, .inr (.inr ?_), trivial⟩
  · decide
  · decide

/-- A writer of 128 bytes leaves its header; the writer of 64 bytes after it maps 128 bytes for a ring
that ends at 192, and a size of `2 ^ 32` makes a ring of no bytes. -/
theorem attach_not_safe :
    ¬ (initial.run [.setSize 0 128, .attach 0 succeed, .detach 0, .setSize 1 64,
      .attach 1 succeed]).AllSafe ∧
    ¬ (initial.run [.setSize 0 (2 ^ 32), .attach 0 succeed]).AllSafe := by
  constructor
  · intro h
    obtain ⟨file, mapped, hfile, hmapped, hsafe⟩ := h 1 (by decide)
    have hfile' : some file = some ⟨128, Segment.kSmMagic, 128, 0, 0⟩ :=
      hfile.symm.trans (by decide)
    have hmapped' : some mapped = some 128 := hmapped.symm.trans (by decide)
    cases hfile'
    cases hmapped'
    exact absurd hsafe.fits (by decide)
  · intro h
    obtain ⟨file, mapped, hfile, -, hsafe⟩ := h 0 (by decide)
    have hfile' : some file = some ⟨64 + 2 ^ 32, Segment.kSmMagic, 0, 0, 0⟩ :=
      hfile.symm.trans (by decide)
    cases hfile'
    exact hsafe.totalSize rfl

end Key

end JobSharedMemory

end JobIo
