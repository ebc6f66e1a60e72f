import OddBuilder.Zstd.RoundTrip

/-!
# Streams made of genuine frames

Every frame is authenticated, the sequence of the frames is not. When nothing in the
input opens but frames of one writer, a reader that comes to a clean end has read whole
frames of this writer and has delivered their chunks one after the other; which frames
these were, in what order and how often, it does not know.
-/

namespace JobZstd

open JobZstdDecryptingTransport List

variable {box : SecretBox} {chunks : List Chunk} {rest input : Bytes}

/-- Wherever one starts to read in the input, nothing opens but frames of these chunks. -/
def Unforged (box : SecretBox) (chunks : List Chunk) (input : Bytes) : Prop :=
  ∀ front tail nonce cipher afterNonce rest plain, input = front ++ tail →
    readString tail = some (nonce, afterNonce) → readString afterNonce = some (cipher, rest) →
    nonce.length = nonceBytes → box.decrypt nonce cipher = some plain →
      ∃ p ∈ chunks, nonce = p.1 ∧ cipher = box.encrypt p.1 p.2

/-- The bytes of an answer that the call takes out of the reader; `underflow` only looks. -/
def JobZstdDecryptingTransport.ReadOp.taken (answer : Bytes) : ReadOp → Bytes
  | .xsgetn _ => answer
  | .underflow => []
  | .sbumpc => answer

/-- The bytes that a sequence of calls has taken out of the reader. -/
def consumed (ops : List ReadOp) (answers : List Bytes) : Bytes :=
  (List.zipWith (fun op answer => op.taken answer) ops answers).flatten

theorem eq_writeString_of_readString {value : Bytes} (h : readString input = some (value, rest)) :
    input = writeString [] value ++ rest := by
  obtain ⟨⟨lenBytes⟩, hlen, h⟩ := Option.bind_eq_some_iff.mp h
  have hparts : ∀ {input value rest : Bytes} {count : Nat},
      readExact input count = some (value, rest) →
        value.length = count ∧ input = value ++ rest := by
    intro input value rest count hread
    refine ⟨(readExact_length hread).1, ?_⟩
    rw [readExact] at hread
    split at hread
    · cases hread
    · obtain ⟨rfl, rfl⟩ := Prod.mk.inj (Option.some.inj hread)
      exact (take_append_drop count input).symm
  obtain ⟨hfour, hinput⟩ := hparts hlen
  dsimp only at h
  split at h
  · cases h
  · obtain ⟨hvalue, htail⟩ := hparts h
    have hprefix : LittleEndian.encode 4 value.length = lenBytes := by
      rw [hvalue, ← hfour, LittleEndian.encode_decode]
    rw [hinput, htail, writeString, nil_append, hprefix, append_assoc]

theorem Unforged.drop {front : Bytes} (h : Unforged box chunks (front ++ rest)) :
    Unforged box chunks rest := by
  intro before tail nonce cipher afterNonce behind plain hrest
  exact h (front ++ before) tail nonce cipher afterNonce behind plain
    (by rw [hrest, append_assoc])

/-- What opens at the front of such an input is a frame with its own chunk. -/
theorem Unforged.opened {nonce cipher afterNonce plain : Bytes} (h : Unforged box chunks input)
    (hnonce : readString input = some (nonce, afterNonce))
    (hcipher : readString afterNonce = some (cipher, rest)) (hlength : nonce.length = nonceBytes)
    (hopen : openChunk box nonce cipher = some plain) :
    (nonce, plain) ∈ chunks ∧ input = frames box [(nonce, plain)] ++ rest := by
  have hinput : input = writeString [] nonce ++ (writeString [] cipher ++ rest) := by
    rw [← eq_writeString_of_readString hcipher]
    exact eq_writeString_of_readString hnonce
  have hdecrypt : box.decrypt nonce cipher = some plain := by
    rw [openChunk] at hopen
    split at hopen
    · cases hopen
    · split at hopen
      · cases hopen
      · exact hopen
  obtain ⟨p, hp, hfirst, hsecond⟩ := h [] input nonce cipher afterNonce rest plain rfl hnonce
    hcipher hlength hdecrypt
  have hplain : plain = p.2 := by
    rw [hfirst, hsecond, box.decrypt_encrypt] at hdecrypt
    exact (Option.some.inj hdecrypt).symm
  refine ⟨by rw [hfirst, hplain]; exact hp, ?_⟩
  rw [hinput, frames_cons, frames_nil, append_nil, append_assoc, hsecond, hplain, hfirst]

/-- Some call has found the stream cut or a frame that does not open. -/
def Flagged (t : JobZstdDecryptingTransport) : Prop := (t.truncated || t.authFailed) = true

/-- The input up to here is made of genuine frames, whose chunks have been delivered but for
what is left of the get area. -/
structure Genuine (box : SecretBox) (chunks : List Chunk) (input got : Bytes)
    (t : JobZstdDecryptingTransport) : Prop where
  picked : ∃ picks : List Chunk, (∀ p ∈ picks, p ∈ chunks) ∧ input = frames box picks ++ t.input ∧
    plainBytes picks = got ++ t.area.getD []
  finished : t.finished = true → t.input = []
  stale : NoStaleChunk t

/-- What decoding the next chunk has done unless it has flagged the input: it has read genuine
frames, and the decrypted chunk comes behind what was delivered. -/
structure Decoded (box : SecretBox) (chunks : List Chunk) (input got : Bytes)
    (u : JobZstdDecryptingTransport) : Prop where
  picked : ∃ picks : List Chunk, (∀ p ∈ picks, p ∈ chunks) ∧ input = frames box picks ++ u.input ∧
    plainBytes picks = got ++ u.decryptedChunk
  finished : u.finished = true → u.input = []
  stale : NoStaleChunk u

/-- Genuine frames in front come first. -/
theorem Decoded.behind {picks : List Chunk} {got : Bytes} {u : JobZstdDecryptingTransport}
    (h : Decoded box chunks rest got u) (hpicks : ∀ p ∈ picks, p ∈ chunks) :
    Decoded box chunks (frames box picks ++ rest) (plainBytes picks ++ got) u := by
  obtain ⟨more, hmore, hinput, hplain⟩ := h.picked
  refine ⟨⟨picks ++ more, forall_mem_append.mpr ⟨hpicks, hmore⟩, ?_, ?_⟩, h.finished, h.stale⟩
  · rw [frames_append, append_assoc, ← hinput]
  · rw [plainBytes_append, hplain, append_assoc]

/-- The chunk is delivered, or goes to the get area, in part or whole. -/
theorem Decoded.genuine {got out : Bytes} {u : JobZstdDecryptingTransport} {area : Option Bytes}
    (h : Decoded box chunks input got u) (hshared : got ++ u.decryptedChunk = out ++ area.getD []) :
    Genuine box chunks input out { u with area := area } := by
  obtain ⟨picks, hpicks, hinput, hplain⟩ := h.picked
  exact ⟨⟨picks, hpicks, hinput, hplain.trans hshared⟩, h.finished, h.stale⟩

theorem decodeLoop_decoded (turns : Nat) :
    ∀ t : JobZstdDecryptingTransport, t.input.length < turns → t.finished = false →
      NoStaleChunk t → Unforged box chunks t.input →
      (decodeLoop box turns t).2.area = t.area ∧
        (Flagged (decodeLoop box turns t).2 ∨ (decodeLoop box turns t).1 = true ∧
          Decoded box chunks t.input [] (decodeLoop box turns t).2) := by
  induction turns with
  | zero =>
    intro t hturns
    exact absurd hturns (Nat.not_lt_zero _)
  | succ turns ih =>
    intro t hturns pending stale unforged
    rw [decodeLoop]
    split
    · next hend =>
      have hinput := isEmpty_iff.mp hend
      have hchunk : t.decryptedChunk = [] := by
        by_contra hne
        rw [stale hne hinput] at pending
        cases pending
      refine ⟨rfl, Or.inr ⟨rfl, ⟨[], by simp, ?_, hchunk.symm⟩, fun _ => hinput, fun _ _ => rfl⟩⟩
      rw [frames_nil, nil_append]
    split
    · exact ⟨rfl, Or.inl rfl⟩
    next nonce afterNonce hnonce =>
    split
    · exact ⟨rfl, Or.inl rfl⟩
    next cipher rest hcipher =>
    split
    · exact ⟨rfl, Or.inl (Bool.or_true _)⟩
    next hlength =>
    split
    · exact ⟨rfl, Or.inl (Bool.or_true _)⟩
    next plain hopen =>
    obtain ⟨hmem, hinput⟩ := unforged.opened hnonce hcipher (not_not.mp hlength) hopen
    dsimp only
    split
    · next hplain =>
      obtain rfl := isEmpty_iff.mp hplain
      have hshorter : rest.length < turns := by
        have h1 := (readString_length hnonce).2
        have h2 := (readString_length hcipher).2
        omega
      have next := ih { t with input := rest, decryptedChunk := [] } hshorter pending
        (fun hne => absurd rfl hne) (Unforged.drop (hinput ▸ unforged))
      refine ⟨next.1, next.2.imp_right fun h => ⟨h.1, ?_⟩⟩
      rw [hinput]
      exact h.2.behind (forall_mem_singleton.mpr hmem)
    · refine ⟨rfl, Or.inr ⟨rfl, ⟨[(nonce, plain)], by simpa using hmem, hinput, ?_⟩, ?_, ?_⟩⟩
      · rw [plainBytes_cons, plainBytes_nil, append_nil]
        rfl
      · intro hfinished
        rw [pending] at hfinished
        exact isEmpty_iff.mp hfinished
      · intro _ hrest
        exact Bool.or_eq_true_iff.mpr (Or.inr (isEmpty_iff.mpr hrest))

/-- Either something has been flagged, or the reader has delivered what it should. -/
def Tracks (box : SecretBox) (chunks : List Chunk) (input got : Bytes)
    (t : JobZstdDecryptingTransport) : Prop :=
  Flagged t ∨ Genuine box chunks input got t

section Calls

variable {box : SecretBox} {chunks : List Chunk} {input got : Bytes}
  {t : JobZstdDecryptingTransport} (unforged : Unforged box chunks input)
include unforged

theorem Genuine.decoded (h : Genuine box chunks input got t) (harea : t.area.getD [] = [])
    (pending : t.finished = false) :
    (decodeNextChunk box t).2.area = t.area ∧
      (Flagged (decodeNextChunk box t).2 ∨ (decodeNextChunk box t).1 = true ∧
        Decoded box chunks input got (decodeNextChunk box t).2) := by
  obtain ⟨picks, hpicks, hinput, hplain⟩ := h.picked
  have hloop : decodeNextChunk box t = decodeLoop box (t.input.length + 1) t := by
    rw [decodeNextChunk, pending]
    rfl
  obtain ⟨hsame, hdecoded⟩ := decodeLoop_decoded (t.input.length + 1) t (Nat.lt_succ_self _) pending
    h.stale (Unforged.drop (hinput ▸ unforged))
  rw [hloop]
  refine ⟨hsame, hdecoded.imp_right ?_⟩
  rintro ⟨hok, hu⟩
  refine ⟨hok, ?_⟩
  have hgot : plainBytes picks ++ [] = got := by
    rw [hplain, harea, append_nil, append_nil]
  have hbehind := hu.behind hpicks
  rw [← hinput, hgot] at hbehind
  exact hbehind

theorem copyLoop_tracks (turns : Nat) :
    ∀ (remaining : Nat) (got : Bytes) (t : JobZstdDecryptingTransport), t.area.getD [] = [] →
      Tracks box chunks input got t →
      Tracks box chunks input (got ++ (copyLoop box turns remaining t).1)
        (copyLoop box turns remaining t).2 := by
  induction turns with
  | zero =>
    intro remaining got t _ h
    rw [copyLoop, append_nil]
    exact h
  | succ turns ih =>
    intro remaining got t harea h
    rw [copyLoop]
    split
    · rw [append_nil]
      exact h
    split
    · rw [append_nil]
      exact h
    next hflags =>
    split
    · rw [append_nil]
      exact h
    next pending =>
    have hgenuine := h.resolve_left hflags
    obtain ⟨hsame, hdecoded⟩ := hgenuine.decoded unforged harea
      (Bool.eq_false_of_not_eq_true pending)
    generalize decodeNextChunk box t = next at *
    obtain ⟨ok, u⟩ := next
    cases ok with
    | false =>
      exact Or.inl (hdecoded.resolve_right fun h => Bool.false_ne_true h.1)
    | true =>
      dsimp only
      split
      · next hnothing =>
        rw [append_nil]
        refine hdecoded.imp_right fun h => h.2.genuine ?_
        rw [isEmpty_iff.mp hnothing, hsame, harea]
      split
      · refine hdecoded.imp_right fun h => h.2.genuine ?_
        rw [Option.getD_some, append_assoc, take_append_drop]
      · have hnext : Tracks box chunks input (got ++ u.decryptedChunk) u := by
          refine hdecoded.imp_right fun h => h.2.genuine ?_
          rw [hsame, harea, append_nil]
        rw [← append_assoc]
        exact ih _ _ u (hsame ▸ harea) hnext

theorem Tracks.xsgetn (h : Tracks box chunks input got t) (count : Nat) :
    Tracks box chunks input (got ++ (t.xsgetn box count).1) (t.xsgetn box count).2 := by
  rw [JobZstdDecryptingTransport.xsgetn]
  split
  · rw [append_nil]
    exact h
  have harea : (t.area.map (List.drop count)).getD [] = (t.area.getD []).drop count := by
    cases t.area <;> simp
  have htaken : Tracks box chunks input (got ++ (t.area.getD []).take count)
      { t with area := t.area.map (List.drop count) } := by
    refine h.imp_right fun hgenuine => ?_
    obtain ⟨picks, hpicks, hinput, hplain⟩ := hgenuine.picked
    refine ⟨⟨picks, hpicks, hinput, ?_⟩, hgenuine.finished, hgenuine.stale⟩
    rw [harea, append_assoc, take_append_drop, hplain]
  dsimp only
  rw [← append_assoc]
  by_cases hall : (t.area.getD []).drop count = []
  · exact copyLoop_tracks unforged count _ _ _ (harea.trans hall) htaken
  · -- the get area had more than enough, so the loop copies nothing
    have hcount : count < (t.area.getD []).length := by
      by_contra hle
      exact hall (drop_of_length_le (not_lt.mp hle))
    have hzero : count - ((t.area.getD []).take count).length = 0 := by
      rw [length_take]
      omega
    have hnothing : copyLoop box count 0 { t with area := t.area.map (List.drop count) } =
        ([], { t with area := t.area.map (List.drop count) }) := by
      cases count <;> rfl
    rw [hzero, hnothing, append_nil]
    exact htaken

theorem Tracks.underflow (h : Tracks box chunks input got t) :
    Tracks box chunks input got (t.underflow box).2 := by
  rw [JobZstdDecryptingTransport.underflow]
  split
  · exact h
  next hempty =>
  have harea : t.area.getD [] = [] := by
    cases hfound : t.area with
    | none => rfl
    | some left =>
      cases left with
      | nil => rfl
      | cons c left => exact absurd hfound (hempty c left)
  rw [refill]
  split
  · exact h
  next hflags =>
  split
  · exact h
  next pending =>
  have hgenuine := h.resolve_left hflags
  obtain ⟨hsame, hdecoded⟩ := hgenuine.decoded unforged harea (Bool.eq_false_of_not_eq_true pending)
  generalize decodeNextChunk box t = next at *
  obtain ⟨ok⟩ := next
  cases ok with
  | false => exact Or.inl (hdecoded.resolve_right fun h => Bool.false_ne_true h.1)
  | true =>
    dsimp only
    split
    · next hnothing =>
      refine hdecoded.imp_right fun h => h.2.genuine ?_
      rw [hnothing, hsame, harea]
    · next c rest hchunk =>
      refine hdecoded.imp_right fun h => h.2.genuine ?_
      rw [hchunk, Option.getD_some]

omit unforged in
/-- The byte that `underflow` answers stays under the get pointer. -/
theorem area_of_underflow {c : UInt8} (h : (t.underflow box).1 = some c) :
    ∃ rest, (t.underflow box).2.area = some (c :: rest) := by
  revert h
  rw [JobZstdDecryptingTransport.underflow]
  split
  · next d rest harea =>
    intro h
    obtain rfl := Option.some.inj h
    exact ⟨rest, harea⟩
  rw [refill]
  split
  · intro h
    cases h
  split
  · intro h
    cases h
  split
  · intro h
    cases h
  split
  · intro h
    cases h
  · next d rest _ =>
    intro h
    obtain rfl := Option.some.inj h
    exact ⟨rest, rfl⟩

theorem Tracks.sbumpc (h : Tracks box chunks input got t) :
    Tracks box chunks input (got ++ (t.sbumpc box).1.toList) (t.sbumpc box).2 := by
  have after := h.underflow unforged
  cases hshown : (t.underflow box).1 with
  | none =>
    have hbump : t.sbumpc box = (none, (t.underflow box).2) := by
      rw [JobZstdDecryptingTransport.sbumpc, show t.underflow box = (none, _) from
        Prod.ext hshown rfl]
    rw [hbump, Option.toList_none, append_nil]
    exact after
  | some c =>
    have hbump : t.sbumpc box = (some c, { (t.underflow box).2 with
        area := (t.underflow box).2.area.map List.tail }) := by
      rw [JobZstdDecryptingTransport.sbumpc, show t.underflow box = (some c, _) from
        Prod.ext hshown rfl]
    obtain ⟨rest, harea⟩ := area_of_underflow hshown
    rw [hbump]
    refine after.imp_right fun hgenuine => ?_
    obtain ⟨picks, hpicks, hinput, hplain⟩ := hgenuine.picked
    refine ⟨⟨picks, hpicks, hinput, ?_⟩, hgenuine.finished, hgenuine.stale⟩
    rw [hplain, harea]
    exact (append_assoc got [c] rest).symm

theorem Tracks.read (h : Tracks box chunks input got t) (op : ReadOp) :
    Tracks box chunks input (got ++ op.taken (t.read box op).1) (t.read box op).2 := by
  cases op with
  | xsgetn count => exact h.xsgetn unforged count
  | underflow =>
    rw [ReadOp.taken, append_nil]
    exact h.underflow unforged
  | sbumpc => exact h.sbumpc unforged

theorem Tracks.runReads (ops : List ReadOp) :
    ∀ (got : Bytes) (t : JobZstdDecryptingTransport), Tracks box chunks input got t →
      Tracks box chunks input (got ++ consumed ops (t.runReads box ops).1)
        (t.runReads box ops).2 := by
  induction ops with
  | nil =>
    intro got t h
    exact (append_nil got).symm ▸ h
  | cons op ops ih =>
    intro got t h
    have next := ih _ _ (h.read unforged op)
    rw [append_assoc] at next
    exact next

omit unforged in
theorem Tracks.atEnd (h : Tracks box chunks input got t) (hend : t.atEnd = true) :
    ∃ picks : List Chunk, (∀ p ∈ picks, p ∈ chunks) ∧ input = frames box picks ∧
      got = plainBytes picks := by
  rw [JobZstdDecryptingTransport.atEnd] at hend
  split at hend
  · cases hend
  next hflags =>
  have hgenuine := h.resolve_left hflags
  obtain ⟨picks, hpicks, hinput, hplain⟩ := hgenuine.picked
  have hdone : t.finished = true ∧ t.area.getD [] = [] := by
    split at hend
    · next harea => exact ⟨hend, by rw [harea]; rfl⟩
    · next left harea =>
      obtain ⟨hfinished, hleft⟩ := Bool.and_eq_true_iff.mp hend
      exact ⟨hfinished, by rw [harea, Option.getD_some, isEmpty_iff.mp hleft]⟩
  rw [hgenuine.finished hdone.1, append_nil] at hinput
  rw [hdone.2, append_nil] at hplain
  exact ⟨picks, hpicks, hinput, hplain.symm⟩

end Calls

open JobZstdEncryptingTransport

/-- The frames of one writer are all that a reader accepts, and it accepts them in every order and
number: a clean end means that the input was a sequence of whole frames and that their chunks were
delivered in this sequence. -/
theorem accepted_iff_frames (box : SecretBox) (source : NonceSource) {chunkSize : Nat}
    (hc : 0 < chunkSize) (writes : List WriteOp) :
    ∃ chunks : List Chunk,
      ((JobZstdEncryptingTransport.init chunkSize).run box source writes |>.finish box
        source).2.out = frames box chunks ∧
      writes.flatMap WriteOp.bytes = plainBytes chunks ∧
      (∀ input, Unforged box chunks input → ∀ reads,
        ((JobZstdDecryptingTransport.init input).runReads box reads).2.atEnd = true →
        ∃ picks : List Chunk, (∀ p ∈ picks, p ∈ chunks) ∧ input = frames box picks ∧
          consumed reads ((JobZstdDecryptingTransport.init input).runReads box reads).1 =
            plainBytes picks) ∧
      (min (writes.flatMap WriteOp.bytes).length chunkSize ≤ 65520 →
        ∀ picks : List Chunk, (∀ p ∈ picks, p ∈ chunks) → ∀ reads,
          ReadsBack box (frames box picks) (plainBytes picks) reads) := by
  obtain ⟨_, full, last, cut, hout⟩ := finish_chunked box source hc writes
  refine ⟨full ++ last, hout, cut.data_eq, ?_, ?_⟩
  · intro input unforged reads hend
    have start : Tracks box (full ++ last) input [] (JobZstdDecryptingTransport.init input) :=
      Or.inr ⟨⟨[], by simp, rfl, rfl⟩, fun h => Bool.noConfusion h, fun h => absurd rfl h⟩
    have after := start.runReads unforged reads
    rw [nil_append] at after
    exact after.atEnd hend
  · intro fits picks hpicks reads
    exact readsBack_of_readable box (fun p hp => cut.readable hc fits p (hpicks p hp)) reads

/-- Three bytes in chunks of two: what is accepted under the key of these two frames. -/
theorem accepted_iff_frames_three :
    0 < 2 ∧ ∃ chunks : List Chunk,
      ((JobZstdEncryptingTransport.init 2).run zeroBox zeroNonces
        [.xsputn [1, 2], .overflow (some 3)] |>.finish zeroBox zeroNonces).2.out =
          frames zeroBox chunks ∧
      [1, 2, 3] = plainBytes chunks ∧
      ∀ picks : List Chunk, (∀ p ∈ picks, p ∈ chunks) → ∀ reads,
        ReadsBack zeroBox (frames zeroBox picks) (plainBytes picks) reads := by
  obtain ⟨chunks, hout, hdata, _, hback⟩ := accepted_iff_frames zeroBox zeroNonces
    (by decide : 0 < 2) [.xsputn [1, 2], .overflow (some 3)]
  exact ⟨by decide, chunks, hout, hdata, hback (by decide)⟩

/-- Two bytes in the first chunk, one in the second. -/
def twoChunks : List Chunk := [(zeroNonces.nonce 0, [1, 2]), (zeroNonces.nonce 1, [3])]

/-- The first frame alone has no other place at which something opens. -/
theorem unforged_first :
    Unforged zeroBox twoChunks (frames zeroBox [(zeroNonces.nonce 0, [1, 2])]) := by
  intro front tail nonce cipher afterNonce rest plain hinput hnonce hcipher hlength _
  have htail := eq_writeString_of_readString hnonce
  have hat : (frames zeroBox [(zeroNonces.nonce 0, [1, 2])])[front.length]? = some 24 := by
    rw [hinput, List.getElem?_append_right (Nat.le_refl _), Nat.sub_self, htail, writeString,
      hlength]
    rfl
  have hplaces : ∀ i < 50,
      (frames zeroBox [(zeroNonces.nonce 0, [1, 2])])[i]? = some 24 → i = 0 := by
    decide
  have hfront : front = [] := by
    apply eq_nil_of_length_eq_zero
    apply hplaces _ _ hat
    exact (List.getElem?_eq_some_iff.mp hat).1
  rw [hfront, nil_append, frames_cons] at hinput
  rw [← hinput, readString_short (by decide)] at hnonce
  obtain ⟨rfl, rfl⟩ := Prod.mk.inj (Option.some.inj hnonce)
  rw [readString_short (by decide)] at hcipher
  obtain ⟨rfl⟩ := Prod.mk.inj (Option.some.inj hcipher)
  exact ⟨_, mem_cons_self, rfl, rfl⟩

/-- The second of two frames is cut off, and the reader of the rest comes to a clean end. -/
theorem last_frame_cut_off :
    ∃ (box : SecretBox) (source : NonceSource) (writes : List WriteOp) (chunks : List Chunk)
      (input : Bytes) (reads : List ReadOp),
      ((JobZstdEncryptingTransport.init 2).run box source writes |>.finish box source).2.out =
        frames box chunks ∧
      Unforged box chunks input ∧
      ((JobZstdDecryptingTransport.init input).runReads box reads).2.truncated = false ∧
      ((JobZstdDecryptingTransport.init input).runReads box reads).2.authFailed = false ∧
      ((JobZstdDecryptingTransport.init input).runReads box reads).2.atEnd = true ∧
      consumed reads ((JobZstdDecryptingTransport.init input).runReads box reads).1 ≠
        writes.flatMap WriteOp.bytes := by
  have readable : ∀ p ∈ [(zeroNonces.nonce 0, [1, 2])], Readable p := by
    intro p hp
    rw [mem_singleton.mp hp]
    exact ⟨zeroNonces.nonce_length 0, by decide, by decide⟩
  obtain ⟨answers, htruncated, hauth, hend⟩ := readsBack_of_readable zeroBox readable [.xsgetn 3]
  refine ⟨zeroBox, zeroNonces, [.xsputn [1, 2], .overflow (some 3)], twoChunks,
    frames zeroBox [(zeroNonces.nonce 0, [1, 2])], [.xsgetn 3], by decide, unforged_first,
    htruncated, hauth, hend.mpr (by decide), ?_⟩
  rw [answers]
  decide

end JobZstd
