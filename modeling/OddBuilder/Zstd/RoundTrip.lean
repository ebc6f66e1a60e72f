import OddBuilder.Zstd.Transport

/-!
# Round trip of the encrypted transport

The writer is described by the chunks it has framed so far, the reader by the
frames it has not opened yet. A frame can be read back when its ciphertext
keeps to the limit of the wire strings, which is 16 bytes more than its chunk.
-/

namespace JobZstd

open List

variable {c : Nat} {full last : List Chunk} {data : Bytes}

/-- A framed chunk: its nonce and its plain bytes. -/
abbrev Chunk : Type := Bytes × Bytes

/-- The frames of a list of chunks. -/
def frames (box : SecretBox) (chunks : List Chunk) : Bytes :=
  chunks.flatMap fun p => JobZstdEncryptingTransport.frame box p.1 p.2

/-- The plain bytes of a list of chunks. -/
def plainBytes (chunks : List Chunk) : Bytes := chunks.flatMap Prod.snd

@[simp] theorem frames_nil (box : SecretBox) : frames box [] = [] := rfl

@[simp] theorem plainBytes_nil : plainBytes [] = [] := rfl

@[simp] theorem plainBytes_cons (p : Chunk) (chunks : List Chunk) :
    plainBytes (p :: chunks) = p.2 ++ plainBytes chunks := rfl

theorem frames_cons (box : SecretBox) (p : Chunk) (chunks : List Chunk) :
    frames box (p :: chunks) =
      writeString [] p.1 ++ (writeString [] (box.encrypt p.1 p.2) ++ frames box chunks) := by
  simp [frames, JobZstdEncryptingTransport.frame, writeString]

theorem frames_append (box : SecretBox) (chunks more : List Chunk) :
    frames box (chunks ++ more) = frames box chunks ++ frames box more := flatMap_append

theorem plainBytes_append (chunks more : List Chunk) :
    plainBytes (chunks ++ more) = plainBytes chunks ++ plainBytes more := flatMap_append

namespace JobZstdEncryptingTransport

variable {c : Nat} {box : SecretBox}

/-- The writer has framed full chunks of what was written and buffers the rest. -/
structure Written (box : SecretBox) (c : Nat) (w : Bytes) (t : JobZstdEncryptingTransport) :
    Prop where
  chunkSize_eq : t.chunkSize = c
  ready : t.encodeFailed = false ∧ t.finished = false
  room : t.buffer.length < c
  chunks : ∃ ps : List Chunk, t.out = frames box ps ∧
    (∀ p ∈ ps, p.1.length = nonceBytes ∧ p.2.length = c) ∧ w = plainBytes ps ++ t.buffer

theorem writeChunk_out (box : SecretBox) (source : NonceSource) (t : JobZstdEncryptingTransport)
    {ps : List Chunk} (h : t.out = frames box ps) :
    (encryptAndWriteChunk box source t).out =
      frames box (ps ++ [(source.nonce t.sealed, t.buffer)]) := by
  rw [frames_append, frames_cons, ← h]
  simp [encryptAndWriteChunk, writeString]

theorem putLoop_written (source : NonceSource) (turns : Nat) :
    ∀ (s w : Bytes) (t : JobZstdEncryptingTransport), s.length ≤ turns → Written box c w t →
      Written box c (w ++ s) (putLoop box source turns s t) := by
  induction turns with
  | zero =>
    intro s w t hs inv
    obtain rfl := eq_nil_of_length_eq_zero (Nat.le_zero.mp hs)
    simpa [putLoop] using inv
  | succ turns ih =>
    intro s w t hs inv
    simp only [putLoop]
    split
    · rename_i hnil
      rw [isEmpty_iff.mp hnil, append_nil]
      exact inv
    have hroom := inv.room
    have hsize := inv.chunkSize_eq
    obtain ⟨ps, hout, hps, hw⟩ := inv.chunks
    have hsplit := take_append_drop (t.chunkSize - t.buffer.length) s
    have hlen : (s.drop (t.chunkSize - t.buffer.length)).length ≤ turns := by
      simp only [length_drop]
      omega
    have whole : w ++ s = (w ++ s.take (t.chunkSize - t.buffer.length)) ++
        s.drop (t.chunkSize - t.buffer.length) := by
      rw [append_assoc, hsplit]
    rw [whole]
    apply ih _ _ _ hlen
    split
    · rename_i full
      refine ⟨hsize, inv.ready, by simp [encryptAndWriteChunk]; omega, ?_⟩
      refine ⟨ps ++ [(source.nonce t.sealed, t.buffer ++ s.take (t.chunkSize - t.buffer.length))],
        writeChunk_out box source _ hout, ?_, ?_⟩
      · intro p hp
        rcases mem_append.mp hp with hp | hp
        · exact hps p hp
        · rw [mem_singleton.mp hp]
          exact ⟨source.nonce_length _, full.trans hsize⟩
      · rw [plainBytes_append, hw]
        simp [encryptAndWriteChunk]
    · rename_i short
      have hfit : (t.buffer ++ s.take (t.chunkSize - t.buffer.length)).length < c := by
        simp only [length_append, length_take] at short ⊢
        omega
      refine ⟨hsize, inv.ready, hfit, ps, hout, hps, ?_⟩
      rw [hw, append_assoc]

theorem step_written (source : NonceSource) {w : Bytes} {t : JobZstdEncryptingTransport}
    (inv : Written box c w t) (op : WriteOp) :
    Written box c (w ++ op.bytes) (t.step box source op) := by
  have put : ∀ s, Written box c (w ++ s) (t.xsputn box source s).2 := by
    intro s
    simp only [xsputn]
    split
    · rename_i idle
      simp only [inv.ready.1, inv.ready.2, Bool.or_false, List.isEmpty_iff] at idle
      rw [idle, List.append_nil]
      exact inv
    · exact putLoop_written source s.length s w t (Nat.le_refl _) inv
  cases op with
  | xsputn s => exact put s
  | overflow ch =>
    cases ch with
    | none => simpa [WriteOp.bytes, step, overflow] using inv
    | some b => exact put [b]

theorem run_written (source : NonceSource) (ops : List WriteOp) :
    ∀ (w : Bytes) (t : JobZstdEncryptingTransport), Written box c w t →
      Written box c (w ++ ops.flatMap WriteOp.bytes) (t.run box source ops) := by
  induction ops with
  | nil =>
    intro w t inv
    simpa [run] using inv
  | cons op ops ih =>
    intro w t inv
    have h := ih _ _ (step_written source inv op)
    rw [append_assoc] at h
    exact h

/-- How a finished stream was cut: full chunks, and one shorter chunk behind them if something
was left over. -/
structure Chunked (c : Nat) (data : Bytes) (full last : List Chunk) : Prop where
  data_eq : data = plainBytes (full ++ last)
  nonces : ∀ p ∈ full ++ last, p.1.length = nonceBytes
  full_size : ∀ p ∈ full, p.2.length = c
  last_size : last = [] ∨ ∃ p, last = [p] ∧ 0 < p.2.length ∧ p.2.length < c

theorem finish_chunked (box : SecretBox) (source : NonceSource) (hc : 0 < c) (ops : List WriteOp) :
    ((init c).run box source ops |>.finish box source).1 = true ∧
    ∃ full last, Chunked c (ops.flatMap WriteOp.bytes) full last ∧
      ((init c).run box source ops |>.finish box source).2.out = frames box (full ++ last) := by
  have start : Written box c [] (init c) :=
    ⟨rfl, ⟨by simpa [init] using Nat.ne_of_gt hc, rfl⟩, hc, [], rfl, by simp, rfl⟩
  have inv := run_written source ops [] (init c) start
  rw [nil_append] at inv
  obtain ⟨ps, hout, hps, hw⟩ := inv.chunks
  simp only [finish, inv.ready.1, inv.ready.2, Bool.false_eq_true, if_false]
  split
  · rename_i left
    refine ⟨rfl, ps, [(source.nonce ((init c).run box source ops).sealed,
      ((init c).run box source ops).buffer)], ⟨?_, ?_, fun p hp => (hps p hp).2, ?_⟩,
      writeChunk_out box source _ hout⟩
    · rw [plainBytes_append, hw]
      simp
    · intro p hp
      rcases mem_append.mp hp with hp | hp
      · exact (hps p hp).1
      · rw [mem_singleton.mp hp]
        exact source.nonce_length _
    · exact Or.inr ⟨_, rfl, left, inv.room⟩
  · have hnil : ((init c).run box source ops).buffer = [] :=
      eq_nil_of_length_eq_zero (by omega)
    refine ⟨rfl, ps, [], ⟨?_, ?_, fun p hp => (hps p hp).2, Or.inl rfl⟩, ?_⟩
    · rw [hw, hnil, append_nil, append_nil]
    · intro p hp
      rw [append_nil] at hp
      exact (hps p hp).1
    · rw [append_nil]
      exact hout

end JobZstdEncryptingTransport

namespace JobZstdDecryptingTransport

variable {box : SecretBox} {t : JobZstdDecryptingTransport} {chunks : List Chunk} {started : Prop}
  {rest : Bytes}

/-- A chunk that the reader can open again. -/
def Readable (p : Chunk) : Prop :=
  p.1.length = nonceBytes ∧ 0 < p.2.length ∧ p.2.length + macBytes ≤ kMaxWireStringLength

theorem frames_isEmpty (box : SecretBox) (chunks : List Chunk) :
    (frames box chunks).isEmpty = chunks.isEmpty := by
  cases chunks with
  | nil => rfl
  | cons p chunks =>
    have hlen : 0 < (frames box (p :: chunks)).length := by
      rw [frames_cons]
      simp [writeString]
    rw [isEmpty_cons, isEmpty_eq_false_iff]
    exact ne_nil_of_length_pos hlen

/-- Opening the next of the pending frames. -/
theorem decodeNextChunk_frames {p : Chunk} (pending : t.finished = false) (hp : Readable p)
    (h : t.input = frames box (p :: chunks)) :
    decodeNextChunk box t = (true, { t with
      input := frames box chunks
      decryptedChunk := p.2
      finished := chunks.isEmpty }) := by
  have hne : t.input.isEmpty = false := by rw [h, frames_isEmpty, isEmpty_cons]
  have hnonce : p.1.length ≤ kMaxWireStringLength := by
    rw [hp.1]
    decide
  have hcipher : (box.encrypt p.1 p.2).length ≤ kMaxWireStringLength := by
    rw [box.encrypt_length]
    exact hp.2.2
  have first : readString t.input =
      some (p.1, writeString [] (box.encrypt p.1 p.2) ++ frames box chunks) := by
    rw [h, frames_cons]
    exact readString_short hnonce _
  have second := readString_short hcipher (frames box chunks)
  have hopen : openChunk box p.1 (box.encrypt p.1 p.2) = some p.2 := by
    simp only [openChunk, hp.1, box.encrypt_length, box.decrypt_encrypt]
    simp
  have hplain : p.2.isEmpty = false := by
    rw [isEmpty_eq_false_iff]
    exact ne_nil_of_length_pos hp.2.1
  simp [decodeNextChunk, pending, decodeLoop, hne, first, second, hp.1, hopen, hplain,
    frames_isEmpty]

theorem decodeNextChunk_end (pending : t.finished = false) (h : t.input = []) :
    decodeNextChunk box t = (true, { t with finished := true }) := by
  simp [decodeNextChunk, pending, decodeLoop, h]

/-- The reader still has to show `rest`: what is left of the get area and the pending frames.
`started` says that some call has asked for a byte. -/
structure Reads (box : SecretBox) (started : Prop) (rest : Bytes) (t : JobZstdDecryptingTransport) :
    Prop where
  clean : t.truncated = false ∧ t.authFailed = false
  fresh : ¬ started → t.decryptedChunk = [] ∧ t.area = none
  pending : ∃ chunks, t.input = frames box chunks ∧ (∀ p ∈ chunks, Readable p) ∧
    rest = t.area.getD [] ++ plainBytes chunks ∧ (t.finished = true ↔ started ∧ chunks = [])

theorem plainBytes_eq_nil (readable : ∀ p ∈ chunks, Readable p) :
    plainBytes chunks = [] ↔ chunks = [] := by
  cases chunks with
  | nil => simp
  | cons p chunks =>
    have hpos := (readable p mem_cons_self).2.1
    simp only [plainBytes_cons, append_eq_nil_iff, reduceCtorEq, iff_false, not_and]
    intro hnil
    rw [hnil] at hpos
    exact absurd hpos (Nat.lt_irrefl 0)

theorem Reads.atEnd (inv : Reads box started rest t) : t.atEnd = true ↔ started ∧ rest = [] := by
  obtain ⟨chunks, _, readable, hrest, hfin⟩ := inv.pending
  have hnil := plainBytes_eq_nil readable
  simp only [JobZstdDecryptingTransport.atEnd, inv.clean.1, inv.clean.2, Bool.or_self,
    Bool.false_eq_true, if_false]
  cases harea : t.area with
  | none =>
    rw [harea] at hrest
    simp only [Option.getD_none, nil_append] at hrest
    rw [hrest, hnil, hfin]
  | some left =>
    rw [harea] at hrest
    rw [hrest, List.append_eq_nil_iff, Bool.and_eq_true, List.isEmpty_iff]
    tauto

/-- The loop behind the get area shows the pending bytes chunk by chunk. -/
theorem copyLoop_reads (turns : Nat) :
    ∀ (started : Prop) (remaining : Nat) (rest : Bytes) (t : JobZstdDecryptingTransport),
      remaining ≤ turns → t.area.getD [] = [] → Reads box started rest t →
      (copyLoop box turns remaining t).1 = rest.take remaining ∧
        Reads box (started ∨ 0 < remaining) (rest.drop remaining)
          (copyLoop box turns remaining t).2 := by
  induction turns with
  | zero =>
    intro started remaining rest t hle harea inv
    obtain rfl := Nat.le_zero.mp hle
    simpa [copyLoop] using inv
  | succ turns ih =>
    intro started remaining rest t hle harea inv
    obtain ⟨chunks, hinput, readable, hrest, hfin⟩ := inv.pending
    rw [harea, nil_append] at hrest
    by_cases hzero : remaining = 0
    · subst hzero
      simpa [copyLoop] using inv
    have hpos : 0 < remaining := Nat.pos_of_ne_zero hzero
    have asked : (started ∨ 0 < remaining) ↔ True := by simp [hpos]
    simp only [copyLoop, if_neg hzero, inv.clean.1, inv.clean.2, Bool.or_self, Bool.false_eq_true,
      if_false, asked]
    by_cases done : t.finished = true
    · obtain ⟨began, hnil⟩ := hfin.mp done
      rw [if_pos done, hrest, hnil]
      refine ⟨by simp, inv.clean, by simp, [], ?_, by simp, ?_, by simp [done]⟩
      · rw [hinput, hnil]
      · simpa using harea
    rw [if_neg done]
    have pending : t.finished = false := by simpa using done
    cases chunks with
    | nil =>
      -- nothing was ever written: the first look at the stream finds its end
      have notBegun : ¬ started := fun began => done (hfin.mpr ⟨began, rfl⟩)
      obtain ⟨hchunk, hnone⟩ := inv.fresh notBegun
      rw [decodeNextChunk_end pending hinput, hrest]
      simp only [hchunk]
      refine ⟨by simp, inv.clean, by simp, [], hinput, by simp, ?_, by simp⟩
      simp [hnone]
    | cons p chunks =>
      have hp := readable p mem_cons_self
      have hplain : p.2.isEmpty = false := by
        rw [isEmpty_eq_false_iff]
        exact ne_nil_of_length_pos hp.2.1
      have others : ∀ q ∈ chunks, Readable q := fun q hq => readable q (mem_cons_of_mem p hq)
      rw [plainBytes_cons] at hrest
      rw [decodeNextChunk_frames pending hp hinput]
      simp only [hplain, Bool.false_eq_true, if_false]
      split
      · rename_i part
        rw [hrest, take_append_of_le_length (Nat.le_of_lt part),
          drop_append_of_le_length (Nat.le_of_lt part)]
        exact ⟨rfl, inv.clean, by simp, chunks, rfl, others, rfl, by simp⟩
      · have hlen : p.2.length ≤ remaining := by omega
        have next := ih True (remaining - p.2.length) (plainBytes chunks)
          { t with input := frames box chunks, decryptedChunk := p.2, finished := chunks.isEmpty }
          (by have := hp.2.1; omega) harea
          ⟨inv.clean, by simp, chunks, rfl, others, by simp [harea], by simp⟩
        have htake : (p.2 ++ plainBytes chunks).take remaining =
            p.2 ++ (plainBytes chunks).take (remaining - p.2.length) := by
          rw [take_append, take_of_length_le hlen]
        have hdrop : (p.2 ++ plainBytes chunks).drop remaining =
            (plainBytes chunks).drop (remaining - p.2.length) := by
          rw [drop_append, drop_of_length_le hlen, nil_append]
        rw [hrest, htake, hdrop]
        refine ⟨?_, ?_⟩
        · rw [← next.1]
        · simpa using next.2

theorem Reads.xsgetn (inv : Reads box started rest t) (count : Nat) :
    (t.xsgetn box count).1 = rest.take count ∧
      Reads box (started ∨ 0 < count) (rest.drop count) (t.xsgetn box count).2 := by
  by_cases hzero : count = 0
  · subst hzero
    simpa [JobZstdDecryptingTransport.xsgetn] using inv
  obtain ⟨chunks, hinput, readable, hrest, hfin⟩ := inv.pending
  simp only [JobZstdDecryptingTransport.xsgetn, if_neg hzero]
  have harea : (t.area.map (List.drop count)).getD [] = (t.area.getD []).drop count := by
    cases t.area <;> simp
  by_cases inside : count ≤ (t.area.getD []).length
  · -- the get area has all of it; the loop has nothing to do
    have began : started := by
      by_contra notBegun
      rw [(inv.fresh notBegun).2] at inside
      simp at inside
      omega
    have hnone : count - ((t.area.getD []).take count).length = 0 := by
      simp only [length_take]
      omega
    obtain ⟨turns, rfl⟩ : ∃ n, count = n + 1 := ⟨count - 1, by omega⟩
    rw [hnone, hrest, take_append_of_le_length inside, drop_append_of_le_length inside]
    simp only [copyLoop, if_true, append_nil, true_and]
    exact ⟨inv.clean, by simp, chunks, hinput, readable, by rw [harea],
      by simpa [began] using hfin⟩
  · have hfirst : (t.area.getD []).take count = t.area.getD [] :=
      take_of_length_le (by omega)
    have hempty : (t.area.map (List.drop count)).getD [] = [] := by
      rw [harea]
      exact drop_of_length_le (by omega)
    have loop := copyLoop_reads count started (count - (t.area.getD []).length)
      (plainBytes chunks) { t with area := t.area.map (List.drop count) } (by omega) hempty
      ⟨inv.clean, fun h => ⟨(inv.fresh h).1, by rw [(inv.fresh h).2]; rfl⟩, chunks, hinput,
        readable, by rw [hempty, nil_append], hfin⟩
    have hpos : 0 < count - (t.area.getD []).length := by omega
    have asked : (started ∨ 0 < count) ↔ (started ∨ 0 < count - (t.area.getD []).length) := by
      simp [hpos, Nat.pos_of_ne_zero hzero]
    rw [hfirst, loop.1, hrest, take_append, hfirst, drop_append,
      drop_of_length_le (by omega : (t.area.getD []).length ≤ count), asked]
    exact ⟨rfl, loop.2⟩

theorem Reads.underflow (inv : Reads box started rest t) :
    (t.underflow box).1 = rest.head? ∧ Reads box True rest (t.underflow box).2 ∧
      ((t.underflow box).2.area.getD []).head? = rest.head? := by
  obtain ⟨chunks, hinput, readable, hrest, hfin⟩ := inv.pending
  by_cases harea : t.area.getD [] = []
  · have look : t.underflow box = t.refill box := by
      cases h : t.area with
      | none => simp [JobZstdDecryptingTransport.underflow, h]
      | some left =>
        rw [h, Option.getD_some] at harea
        simp [JobZstdDecryptingTransport.underflow, h, harea]
    rw [harea] at hrest
    simp only [look, refill, inv.clean.1, inv.clean.2, Bool.or_self, Bool.false_eq_true, if_false]
    by_cases done : t.finished = true
    · obtain ⟨began, hnil⟩ := hfin.mp done
      rw [if_pos done, hrest, hnil]
      refine ⟨rfl, ⟨inv.clean, by simp, [], by rw [hinput, hnil], by simp, by simpa using harea,
        by simp [done]⟩, by rw [harea]; rfl⟩
    rw [if_neg done]
    have pending : t.finished = false := by simpa using done
    cases chunks with
    | nil =>
      have notBegun : ¬ started := fun began => done (hfin.mpr ⟨began, rfl⟩)
      obtain ⟨hchunk, hnone⟩ := inv.fresh notBegun
      rw [decodeNextChunk_end pending hinput, hrest]
      simp only [hchunk]
      exact ⟨rfl, ⟨inv.clean, by simp, [], hinput, by simp, by simp [hnone], by simp⟩,
        by rw [harea]; rfl⟩
    | cons p chunks =>
      have hp := readable p mem_cons_self
      have others : ∀ q ∈ chunks, Readable q := fun q hq => readable q (mem_cons_of_mem p hq)
      rw [decodeNextChunk_frames pending hp hinput, hrest, plainBytes_cons]
      obtain ⟨c, tail, hc⟩ := exists_cons_of_length_pos hp.2.1
      simp only [hc]
      exact ⟨rfl, ⟨inv.clean, by simp, chunks, rfl, others, rfl, by simp⟩, rfl⟩
  · obtain ⟨c, tail, hc⟩ := exists_cons_of_ne_nil harea
    have hsome : t.area = some (c :: tail) := by
      cases h : t.area with
      | none => rw [h] at hc; cases hc
      | some left => rw [h, Option.getD_some] at hc; rw [hc]
    have began : started := by
      by_contra notBegun
      rw [(inv.fresh notBegun).2] at hsome
      cases hsome
    have look : t.underflow box = (some c, t) := by
      simp [JobZstdDecryptingTransport.underflow, hsome]
    rw [look, hrest, hc]
    refine ⟨rfl, ⟨inv.clean, by simp, chunks, hinput, readable, by rw [hc], ?_⟩, rfl⟩
    simpa [began] using hfin

theorem Reads.sbumpc (inv : Reads box started rest t) :
    (t.sbumpc box).1 = rest.head? ∧ Reads box True (rest.drop 1) (t.sbumpc box).2 := by
  obtain ⟨shown, after, hhead⟩ := inv.underflow
  cases rest with
  | nil =>
    have look : t.underflow box = (none, (t.underflow box).2) := Prod.ext shown rfl
    rw [JobZstdDecryptingTransport.sbumpc, look]
    exact ⟨rfl, after⟩
  | cons c rest =>
    have look : t.underflow box = (some c, (t.underflow box).2) := Prod.ext shown rfl
    rw [JobZstdDecryptingTransport.sbumpc, look]
    refine ⟨rfl, after.clean, by simp, ?_⟩
    obtain ⟨chunks, hinput, readable, hrest, hfin⟩ := after.pending
    refine ⟨chunks, hinput, readable, ?_, hfin⟩
    cases harea : (t.underflow box).2.area with
    | none =>
      rw [harea] at hhead
      cases hhead
    | some left =>
      rw [harea] at hhead hrest
      cases left with
      | nil => cases hhead
      | cons d left =>
        have := (List.cons.inj hrest).2
        simpa [harea] using this

/-- One call shows what a reader of the plain bytes would show. -/
theorem Reads.read (inv : Reads box started rest t) (op : ReadOp) :
    (t.read box op).1 = (op.take rest).1 ∧
      Reads box (started ∨ op ≠ .xsgetn 0) (op.take rest).2 (t.read box op).2 := by
  cases op with
  | xsgetn count =>
    obtain ⟨shown, after⟩ := inv.xsgetn count
    have asked : (started ∨ ReadOp.xsgetn count ≠ .xsgetn 0) ↔ (started ∨ 0 < count) := by
      simp [Nat.pos_iff_ne_zero]
    rw [asked]
    exact ⟨shown, after⟩
  | underflow =>
    obtain ⟨shown, after, _⟩ := inv.underflow
    have asked : (started ∨ ReadOp.underflow ≠ .xsgetn 0) ↔ True := by simp
    rw [asked]
    refine ⟨?_, after⟩
    simp only [JobZstdDecryptingTransport.read, shown]
    cases rest <;> rfl
  | sbumpc =>
    obtain ⟨shown, after⟩ := inv.sbumpc
    have asked : (started ∨ ReadOp.sbumpc ≠ .xsgetn 0) ↔ True := by simp
    rw [asked]
    refine ⟨?_, after⟩
    simp only [JobZstdDecryptingTransport.read, shown]
    cases rest <;> rfl

theorem runReads_reads (ops : List ReadOp) :
    ∀ (started : Prop) (rest : Bytes) (t : JobZstdDecryptingTransport), Reads box started rest t →
      (t.runReads box ops).1 = (plainReads rest ops).1 ∧
        Reads box (started ∨ ∃ op ∈ ops, op ≠ .xsgetn 0) (plainReads rest ops).2
          (t.runReads box ops).2 := by
  induction ops with
  | nil =>
    intro started rest t inv
    refine ⟨rfl, ?_⟩
    simpa [runReads, plainReads] using inv
  | cons op ops ih =>
    intro started rest t inv
    obtain ⟨shown, after⟩ := inv.read op
    obtain ⟨answers, last⟩ := ih _ _ _ after
    have asked : (started ∨ ∃ o ∈ op :: ops, o ≠ ReadOp.xsgetn 0) ↔
        ((started ∨ op ≠ .xsgetn 0) ∨ ∃ o ∈ ops, o ≠ ReadOp.xsgetn 0) := by
      simp [or_assoc]
    rw [asked]
    refine ⟨?_, last⟩
    simp [runReads, plainReads, shown, answers]

/-- A reader of the stream behaves like a reader of the data: every answer is right, nothing is
flagged, and the end is reported exactly when some call has asked for a byte and none is left. -/
def ReadsBack (box : SecretBox) (stream data : Bytes) (ops : List ReadOp) : Prop :=
  let result := (init stream).runReads box ops
  result.1 = (plainReads data ops).1 ∧ result.2.truncated = false ∧ result.2.authFailed = false ∧
    (result.2.atEnd = true ↔ (∃ op ∈ ops, op ≠ .xsgetn 0) ∧ (plainReads data ops).2 = [])

theorem readsBack_of_readable (box : SecretBox) (readable : ∀ p ∈ chunks, Readable p)
    (ops : List ReadOp) : ReadsBack box (frames box chunks) (plainBytes chunks) ops := by
  have start : Reads box False (plainBytes chunks) (init (frames box chunks)) :=
    ⟨⟨rfl, rfl⟩, fun _ => ⟨rfl, rfl⟩, chunks, rfl, readable, rfl, by simp [init]⟩
  obtain ⟨answers, last⟩ := runReads_reads ops False _ _ start
  rw [false_or] at last
  exact ⟨answers, last.clean.1, last.clean.2, last.atEnd⟩

/-- A first chunk over the limit, while its length still fits the prefix, reads as a truncated
stream. -/
theorem first_too_long (box : SecretBox) {p : Chunk} (chunks : List Chunk)
    (hnonce : p.1.length = nonceBytes) (long : kMaxWireStringLength < p.2.length + macBytes)
    (hword : p.2.length + macBytes < 2 ^ 32) :
    ((init (frames box (p :: chunks))).runReads box [.xsgetn 1]).2.truncated = true := by
  have hne : (frames box (p :: chunks)).isEmpty = false := by
    rw [frames_isEmpty, isEmpty_cons]
  have first : readString (frames box (p :: chunks)) =
      some (p.1, writeString [] (box.encrypt p.1 p.2) ++ frames box chunks) := by
    rw [frames_cons]
    exact readString_short (by rw [hnonce]; decide) _
  have second : readString (writeString [] (box.encrypt p.1 p.2) ++ frames box chunks) = none :=
    readString_long (by rw [box.encrypt_length]; exact long) (by rw [box.encrypt_length]; exact hword)
      _
  simp [runReads, read, xsgetn, init, copyLoop, decodeNextChunk, decodeLoop, hne, first, second]

/-- The stream is at its end once a chunk is open, so that chunk is never shown twice. -/
def NoStaleChunk (t : JobZstdDecryptingTransport) : Prop :=
  t.decryptedChunk ≠ [] → t.input = [] → t.finished = true

/-- However the stream is cut, a byte shown costs more than a byte read: 48 for each frame,
which holds at most 65520 bytes. -/
theorem decodeLoop_cost (turns : Nat) :
    ∀ t u : JobZstdDecryptingTransport, NoStaleChunk t → t.finished = false →
      decodeLoop box turns t = (true, u) → NoStaleChunk u ∧
        65568 * u.decryptedChunk.length + 65520 * u.input.length ≤ 65520 * t.input.length := by
  induction turns with
  | zero =>
    intro t u _ _ h
    cases h
  | succ turns ih =>
    intro t u stale pending h
    simp only [decodeLoop] at h
    split at h
    · rename_i hnil
      obtain rfl := (Prod.mk.inj h).2
      have hchunk : t.decryptedChunk = [] := by
        by_contra hne
        rw [stale hne (isEmpty_iff.mp hnil)] at pending
        cases pending
      exact ⟨fun _ _ => rfl, by simp [hchunk]⟩
    split at h
    · cases h
    rename_i nonceStr afterNonce hnonce
    split at h
    · cases h
    rename_i cipherStr input hcipher
    split at h
    · cases h
    rename_i nonceOk
    split at h
    · cases h
    rename_i plain hopen
    have costNonce := readString_length hnonce
    have costCipher := readString_length hcipher
    have hplain : plain.length + macBytes = cipherStr.length := by
      simp only [openChunk] at hopen
      split at hopen
      · cases hopen
      split at hopen
      · cases hopen
      exact box.decrypt_length _ _ _ hopen
    have hnonceLen : nonceStr.length = nonceBytes := Decidable.not_not.mp nonceOk
    simp only [kMaxWireStringLength, macBytes, nonceBytes] at costNonce costCipher hplain hnonceLen
    split at h
    · rename_i hempty
      have hzero : plain = [] := isEmpty_iff.mp hempty
      obtain ⟨stale', cost⟩ := ih { t with input := input, decryptedChunk := plain } u
        (fun hne => absurd hzero hne) pending h
      refine ⟨stale', ?_⟩
      dsimp only at cost
      omega
    · obtain rfl := (Prod.mk.inj h).2
      refine ⟨fun _ hnil => ?_, ?_⟩
      · dsimp only at hnil ⊢
        rw [hnil]
        simp
      · dsimp only
        omega

theorem copyLoop_cost (box : SecretBox) (turns : Nat) :
    ∀ (remaining : Nat) (t : JobZstdDecryptingTransport), NoStaleChunk t →
      65568 * (copyLoop box turns remaining t).1.length ≤ 65520 * t.input.length := by
  induction turns with
  | zero =>
    intro remaining t _
    simp [copyLoop]
  | succ turns ih =>
    intro remaining t stale
    simp only [copyLoop]
    split
    · simp
    split
    · simp
    split
    · simp
    rename_i pending
    have pending' : t.finished = false := by simpa using pending
    split
    · simp
    rename_i u hdecode
    simp only [decodeNextChunk, pending'] at hdecode
    obtain ⟨stale'⟩ := decodeLoop_cost _ t u stale pending' hdecode
    split
    · simp
    split
    · simp only [length_take]
      omega
    · have rest := ih (remaining - u.decryptedChunk.length) u stale'
      simp only [length_append]
      omega

theorem frames_length (box : SecretBox) (nonces : ∀ p ∈ chunks, p.1.length = nonceBytes) :
    (frames box chunks).length = (plainBytes chunks).length + 48 * chunks.length := by
  induction chunks with
  | nil => rfl
  | cons p chunks ih =>
    have tail := ih (fun q hq => nonces q (mem_cons_of_mem p hq))
    have hp := nonces p mem_cons_self
    simp only [nonceBytes] at hp
    rw [frames_cons]
    simp only [writeString, nil_append, length_append, LittleEndian.length_encode, box.encrypt_length, macBytes, plainBytes_cons, length_cons]
    omega

/-- Showing all the data needs as many bytes of stream as the frames of full size would take. -/
theorem shown_le (nonces : ∀ p ∈ chunks, p.1.length = nonceBytes)
    (back : ReadsBack box (frames box chunks) (plainBytes chunks)
      [.xsgetn (plainBytes chunks).length]) :
    (plainBytes chunks).length ≤ 65520 * chunks.length := by
  have shown := congrArg (fun answers => answers.map List.length) back.1
  simp only [runReads, read, plainReads, ReadOp.take, take_length, map_cons, List.cons.injEq] at shown
  by_cases hzero : (plainBytes chunks).length = 0
  · omega
  simp only [xsgetn, if_neg hzero, init, Option.getD_none, take_nil, length_nil,
    nil_append, Option.map_none] at shown
  have cost := copyLoop_cost box (plainBytes chunks).length
    ((plainBytes chunks).length - 0) (init (frames box chunks)) (fun hne => absurd rfl hne)
  simp only [init, frames_length box nonces] at cost
  omega

end JobZstdDecryptingTransport

open JobZstdEncryptingTransport JobZstdDecryptingTransport

theorem plainBytes_full (h : ∀ p ∈ full, p.2.length = c) :
    (plainBytes full).length = full.length * c := by
  induction full with
  | nil => simp
  | cons p full ih =>
    have tail := ih (fun q hq => h q (mem_cons_of_mem p hq))
    rw [plainBytes_cons, length_append, tail, h p mem_cons_self, length_cons,
      Nat.add_mul, Nat.one_mul, Nat.add_comm]

/-- The first chunk is as long as the data and the chunk size allow. -/
theorem JobZstdEncryptingTransport.Chunked.first (cut : Chunked c data full last)
    (hne : data ≠ []) : ∃ p rest, full ++ last = p :: rest ∧ p.2.length = min data.length c := by
  have hdata := cut.data_eq
  cases full with
  | cons p full =>
    have hp := cut.full_size p mem_cons_self
    refine ⟨p, full ++ last, rfl, ?_⟩
    rw [hdata, cons_append, plainBytes_cons, length_append]
    omega
  | nil =>
    rcases cut.last_size with rfl | ⟨p, rfl, hpos⟩
    · exact absurd hdata hne
    · refine ⟨p, [], rfl, ?_⟩
      rw [hdata, nil_append, plainBytes_cons, plainBytes_nil, append_nil]
      omega

theorem JobZstdEncryptingTransport.Chunked.readable (hc : 0 < c) (cut : Chunked c data full last)
    (fits : min data.length c ≤ 65520) : ∀ p ∈ full ++ last, Readable p := by
  intro p hp
  have hlen : p.2.length ≤ data.length := by
    rw [cut.data_eq]
    obtain ⟨front, back, hsplit⟩ := append_of_mem hp
    rw [hsplit, plainBytes_append, plainBytes_cons]
    simp only [length_append]
    omega
  have hsize : 0 < p.2.length ∧ p.2.length ≤ c := by
    rcases mem_append.mp hp with hp | hp
    · rw [cut.full_size p hp]
      exact ⟨hc, Nat.le_refl c⟩
    · rcases cut.last_size with rfl | ⟨q, rfl, hpos, hlt⟩
      · cases hp
      · rw [mem_singleton.mp hp]
        exact ⟨hpos, Nat.le_of_lt hlt⟩
  refine ⟨cut.nonces p hp, hsize.1, ?_⟩
  simp only [macBytes, kMaxWireStringLength]
  omega

/-- Chunks whose length does not fit the prefix are too few for the data. -/
theorem JobZstdEncryptingTransport.Chunked.long_chunks (cut : Chunked c data full last)
    (long : 131041 ≤ min data.length c) : 65520 * (full ++ last).length < data.length := by
  have hdata := congrArg List.length cut.data_eq
  rw [plainBytes_append, length_append, plainBytes_full cut.full_size] at hdata
  have hfull : full.length * 131041 ≤ full.length * c := Nat.mul_le_mul_left _ (by omega)
  rcases cut.last_size with rfl | ⟨p, rfl, hpos⟩
  · simp only [append_nil] at hdata ⊢
    omega
  · simp only [length_append, length_singleton] at hdata ⊢
    cases hcount : full.length with
    | zero =>
      omega
    | succ n =>
      omega

/-- What is written through any calls and finished is read back by every sequence of reads,
exactly when the longest chunk leaves room for the 16 bytes that encryption adds. -/
theorem transport_round_trip (box : SecretBox) (source : NonceSource) {chunkSize : Nat}
    (hc : 0 < chunkSize) (writes : List WriteOp) :
    (∀ reads : List ReadOp,
      ReadsBack box ((JobZstdEncryptingTransport.init chunkSize).run box source writes |>.finish box
        source).2.out (writes.flatMap WriteOp.bytes) reads) ↔
      min (writes.flatMap WriteOp.bytes).length chunkSize ≤ 65520 := by
  obtain ⟨_, full, last, cut, hout⟩ := finish_chunked box source hc writes
  rw [hout]
  constructor
  · intro back
    by_contra long
    have hne : writes.flatMap WriteOp.bytes ≠ [] := by
      intro hnil
      rw [hnil] at long
      simp at long
    by_cases hword : min (writes.flatMap WriteOp.bytes).length chunkSize + macBytes < 2 ^ 32
    · obtain ⟨p, rest, hps, hp⟩ := cut.first hne
      have hnonce := cut.nonces p (by rw [hps]; exact mem_cons_self)
      have flagged := first_too_long box rest hnonce
        (by simp only [kMaxWireStringLength, macBytes]; omega) (by omega)
      rw [← hps, (back [.xsgetn 1]).2.1] at flagged
      cases flagged
    · have few := cut.long_chunks (by simp only [macBytes] at hword; omega)
      have shown := shown_le cut.nonces (by rw [← cut.data_eq]; exact back _)
      rw [← cut.data_eq] at shown
      omega
  · intro fits reads
    have h := readsBack_of_readable box (cut.readable hc fits) reads
    rw [← cut.data_eq] at h
    exact h

/-- A box whose ciphertext is the plain bytes behind sixteen zeros. -/
def zeroBox : SecretBox where
  encrypt := fun _ plain => List.replicate macBytes 0 ++ plain
  decrypt := fun _ cipher =>
    if cipher.take macBytes = List.replicate macBytes 0 then some (cipher.drop macBytes) else none
  encrypt_length := by
    intro nonce plain
    rw [List.length_append, List.length_replicate, Nat.add_comm]
  decrypt_encrypt := by
    intro nonce plain
    simp [macBytes]
  decrypt_length := by
    intro nonce cipher plain h
    split at h
    · rename_i tag
      obtain rfl := Option.some.inj h
      have hlen := congrArg List.length tag
      simp only [List.length_take, List.length_replicate, List.length_drop] at *
      omega
    · cases h

def zeroNonces : NonceSource := ⟨fun _ => List.replicate nonceBytes 0, fun _ => by simp⟩

/-- Three bytes in chunks of two are read back in pieces that cross the chunks. -/
theorem transport_round_trip_three :
    min ([WriteOp.xsputn [1, 2], .overflow (some 3)].flatMap WriteOp.bytes).length 2 ≤ 65520 ∧
      ReadsBack zeroBox ((JobZstdEncryptingTransport.init 2).run zeroBox zeroNonces
        [.xsputn [1, 2], .overflow (some 3)] |>.finish zeroBox zeroNonces).2.out [1, 2, 3]
        [.underflow, .sbumpc, .xsgetn 5] :=
  ⟨by decide, (transport_round_trip zeroBox zeroNonces (by decide)
    [.xsputn [1, 2], .overflow (some 3)]).mpr (by decide) _⟩

/-- With the default chunk size the first full chunk cannot be read back. -/
theorem full_default_chunk_truncated :
    ∃ (writes : List WriteOp) (reads : List ReadOp),
      ((JobZstdDecryptingTransport.init ((JobZstdEncryptingTransport.init 65536).run zeroBox
        zeroNonces writes |>.finish zeroBox zeroNonces).2.out).runReads zeroBox reads).2.truncated =
          true ∧
      ¬ ReadsBack zeroBox ((JobZstdEncryptingTransport.init 65536).run zeroBox zeroNonces writes
        |>.finish zeroBox zeroNonces).2.out (writes.flatMap WriteOp.bytes) reads := by
  refine ⟨[.xsputn (List.replicate 65536 0)], [.xsgetn 1], ?_⟩
  obtain ⟨_, full, last, cut, hout⟩ := finish_chunked zeroBox zeroNonces (by decide : 0 < 65536)
    [.xsputn (List.replicate 65536 0)]
  have hbytes : [WriteOp.xsputn (List.replicate 65536 0)].flatMap WriteOp.bytes =
      List.replicate 65536 0 := by
    rw [flatMap_cons, flatMap_nil, append_nil, WriteOp.bytes]
  have hlen : (List.replicate 65536 (0 : UInt8)).length = 65536 := length_replicate
  have hne : List.replicate 65536 (0 : UInt8) ≠ [] := ne_nil_of_length_pos (by omega)
  rw [hbytes] at cut
  obtain ⟨p, rest, hps, hp⟩ := cut.first hne
  rw [hlen, Nat.min_self] at hp
  have hnonce := cut.nonces p (by rw [hps]; exact mem_cons_self)
  have flagged := first_too_long zeroBox rest hnonce
    (by simp only [kMaxWireStringLength, macBytes]; omega) (by simp only [macBytes]; omega)
  rw [hout, hps]
  refine ⟨flagged, fun back => ?_⟩
  rw [back.2.1] at flagged
  cases flagged

end JobZstd
