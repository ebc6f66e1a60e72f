import OddBuilder.Library.LittleEndian

/-!
# Wire format

Length-prefixed strings as the archive and the encrypted transport frame them.
An output stream is the bytes written to it, an input stream the bytes still to
be read. A failed read leaves the stream in a state that no caller reads on
from, so it answers `none` only.
-/

namespace JobZstd

variable {value rest : Bytes}

abbrev Bytes : Type := List UInt8

def kMaxWireStringLength : Nat := 65536

/-- The length goes out as a 32-bit word, the string whole. -/
def writeString (out value : Bytes) : Bytes := out ++ (LittleEndian.encode 4 value.length ++ value)

/-- `in.read` of exactly `count` bytes. -/
def readExact (input : Bytes) (count : Nat) : Option (Bytes × Bytes) :=
  if input.length < count then none else some (input.take count, input.drop count)

def readString (input : Bytes) : Option (Bytes × Bytes) := do
  let (lenBytes, input) ← readExact input 4
  let length := LittleEndian.decode lenBytes
  if length > kMaxWireStringLength then none
  else readExact input length

theorem readExact_append {count : Nat} (h : value.length = count) :
    readExact (value ++ rest) count = some (value, rest) := by
  subst h
  simp [readExact]

theorem readExact_length {input : Bytes} {count : Nat}
    (h : readExact input count = some (value, rest)) :
    value.length = count ∧ rest.length + count = input.length := by
  simp only [readExact] at h
  split at h
  · cases h
  · obtain ⟨rfl, rfl⟩ := Prod.mk.inj (Option.some.inj h)
    simp only [List.length_take, List.length_drop]
    omega

/-- What the reader makes of a string of any length: the prefix holds the length modulo `2 ^ 32`. -/
theorem readString_writeString (value rest : Bytes) :
    readString (writeString [] value ++ rest) =
      if value.length % 2 ^ 32 > kMaxWireStringLength then none
      else readExact (value ++ rest) (value.length % 2 ^ 32) := by
  have hlen : (LittleEndian.encode 4 value.length).length = 4 := LittleEndian.length_encode _ _
  have hfour : readExact (LittleEndian.encode 4 value.length ++ (value ++ rest)) 4 =
      some (LittleEndian.encode 4 value.length, value ++ rest) := readExact_append hlen
  simp [readString, writeString, hfour, LittleEndian.decode_encode]

/-- Strings up to the limit are read back. -/
theorem readString_short (h : value.length ≤ kMaxWireStringLength) (rest : Bytes) :
    readString (writeString [] value ++ rest) = some (value, rest) := by
  have hsmall : value.length < 2 ^ 32 := by
    simp only [kMaxWireStringLength] at h
    omega
  rw [readString_writeString, Nat.mod_eq_of_lt hsmall, if_neg (by omega), readExact_append rfl]

/-- Longer strings whose length still fits the prefix are refused. -/
theorem readString_long (h : kMaxWireStringLength < value.length) (hsmall : value.length < 2 ^ 32)
    (rest : Bytes) : readString (writeString [] value ++ rest) = none := by
  rw [readString_writeString, Nat.mod_eq_of_lt hsmall, if_pos h]

/-- Whatever is read is short, and cost its length and four bytes more. -/
theorem readString_length {input : Bytes} (h : readString input = some (value, rest)) :
    value.length ≤ kMaxWireStringLength ∧ rest.length + value.length + 4 = input.length := by
  obtain ⟨⟨lenBytes⟩, hlen, h⟩ := Option.bind_eq_some_iff.mp h
  have hfour := readExact_length hlen
  dsimp only at h
  split at h
  · cases h
  · have hvalue := readExact_length h
    omega

end JobZstd

/-!
## Encrypted transport

The writer collects bytes into chunks of a fixed size and frames each chunk as
a nonce and a ciphertext; the reader takes the frames apart again through two
read paths that share one decrypted chunk. Encryption and decryption under the
one key are a parameter with the properties that the secretbox documents. The
key has the right length and the downstream buffer accepts every byte, so
encrypting and writing a chunk always succeeds.
-/

namespace JobZstd

def nonceBytes : Nat := 24

def macBytes : Nat := 16

/-- `crypto_secretbox_easy` and `crypto_secretbox_open_easy` under a fixed key. -/
structure SecretBox where
  encrypt : Bytes → Bytes → Bytes
  decrypt : Bytes → Bytes → Option Bytes
  encrypt_length : ∀ nonce plain, (encrypt nonce plain).length = plain.length + macBytes
  decrypt_encrypt : ∀ nonce plain, decrypt nonce (encrypt nonce plain) = some plain
  decrypt_length : ∀ nonce cipher plain, decrypt nonce cipher = some plain →
    plain.length + macBytes = cipher.length

/-- The nonces that `generateNonce` draws, in order. -/
structure NonceSource where
  nonce : Nat → Bytes
  nonce_length : ∀ i, (nonce i).length = nonceBytes

/-- `buffer` is the filled part of `m_buffer`; `sealed` counts the nonces drawn so far. -/
structure JobZstdEncryptingTransport where
  out : Bytes
  chunkSize : Nat
  buffer : Bytes
  encodeFailed : Bool
  finished : Bool
  sealed : Nat

namespace JobZstdEncryptingTransport

def init (chunkSize : Nat) : JobZstdEncryptingTransport :=
  ⟨[], chunkSize, [], chunkSize == 0, false, 0⟩

/-- One frame: the nonce, then the ciphertext. -/
def frame (box : SecretBox) (nonce plain : Bytes) : Bytes :=
  writeString (writeString [] nonce) (box.encrypt nonce plain)

/-- Encrypt the buffer as one chunk, write it and scrub the buffer. -/
def encryptAndWriteChunk (box : SecretBox) (source : NonceSource) (t : JobZstdEncryptingTransport) :
    JobZstdEncryptingTransport :=
  { t with
    out := writeString (writeString t.out (source.nonce t.sealed))
      (box.encrypt (source.nonce t.sealed) t.buffer)
    buffer := []
    sealed := t.sealed + 1 }

/-- The loop of `xsputn`. Every turn copies at least one byte, so as many turns as bytes are
enough. -/
def putLoop (box : SecretBox) (source : NonceSource) :
    Nat → Bytes → JobZstdEncryptingTransport → JobZstdEncryptingTransport
  | 0, _, t => t
  | turns + 1, s, t =>
    if s.isEmpty then t
    else
      let spaceLeft := t.chunkSize - t.buffer.length
      let t := { t with buffer := t.buffer ++ s.take spaceLeft }
      let t := if t.buffer.length = t.chunkSize then encryptAndWriteChunk box source t else t
      putLoop box source turns (s.drop spaceLeft) t

/-- The number of bytes taken over, and the state behind the call. -/
def xsputn (box : SecretBox) (source : NonceSource) (t : JobZstdEncryptingTransport) (s : Bytes) :
    Nat × JobZstdEncryptingTransport :=
  if s.isEmpty || t.encodeFailed || t.finished then (0, t)
  else (s.length, putLoop box source s.length s t)

/-- `overflow`, with `none` for the end-of-file value; answers whether the call succeeded. -/
def overflow (box : SecretBox) (source : NonceSource) (t : JobZstdEncryptingTransport) :
    Option UInt8 → Bool × JobZstdEncryptingTransport
  | none => (true, t)
  | some c => ((t.xsputn box source [c]).1 == 1, (t.xsputn box source [c]).2)

def finish (box : SecretBox) (source : NonceSource) (t : JobZstdEncryptingTransport) :
    Bool × JobZstdEncryptingTransport :=
  if t.finished then (!t.encodeFailed, t)
  else
    let t := { t with finished := true }
    if t.encodeFailed then (false, t)
    else if t.buffer.length > 0 then (true, encryptAndWriteChunk box source t)
    else (true, t)

/-- A call on the writer before `finish`. -/
inductive WriteOp where
  | xsputn (s : Bytes)
  | overflow (ch : Option UInt8)

def step (box : SecretBox) (source : NonceSource) (t : JobZstdEncryptingTransport) :
    WriteOp → JobZstdEncryptingTransport
  | .xsputn s => (t.xsputn box source s).2
  | .overflow ch => (t.overflow box source ch).2

def run (box : SecretBox) (source : NonceSource) (t : JobZstdEncryptingTransport)
    (ops : List WriteOp) : JobZstdEncryptingTransport := ops.foldl (step box source) t

/-- The bytes that a call hands over. -/
def WriteOp.bytes : WriteOp → Bytes
  | .xsputn s => s
  | .overflow ch => ch.toList

end JobZstdEncryptingTransport

/-- `area` is what is left between `gptr` and `egptr`, or `none` while both are null. -/
structure JobZstdDecryptingTransport where
  input : Bytes
  decryptedChunk : Bytes
  area : Option Bytes
  finished : Bool
  truncated : Bool
  authFailed : Bool

namespace JobZstdDecryptingTransport

def init (input : Bytes) : JobZstdDecryptingTransport := ⟨input, [], none, false, false, false⟩

/-- `JobSecretBox::decrypt`. -/
def openChunk (box : SecretBox) (nonce cipher : Bytes) : Option Bytes :=
  if nonce.length ≠ nonceBytes then none
  else if cipher.length < macBytes then none
  else box.decrypt nonce cipher

/-- The loop of `decodeNextChunk`. Every turn but the last reads a frame, so as many turns as
bytes, and one more, are enough. -/
def decodeLoop (box : SecretBox) :
    Nat → JobZstdDecryptingTransport → Bool × JobZstdDecryptingTransport
  | 0, t => (false, t)
  | turns + 1, t =>
    if t.input.isEmpty then (true, { t with finished := true })
    else
      match readString t.input with
      | none => (false, { t with truncated := true })
      | some (nonceStr, input) =>
        match readString input with
        | none => (false, { t with truncated := true })
        | some (cipherStr, input) =>
          if nonceStr.length ≠ nonceBytes then (false, { t with input := input, authFailed := true })
          else
            match openChunk box nonceStr cipherStr with
            -- whatever is left of the chunk, nothing looks at it behind a failed authentication
            | none => (false, { t with input := input, decryptedChunk := [], authFailed := true })
            | some plain =>
              let t := { t with input := input, decryptedChunk := plain }
              if plain.isEmpty then decodeLoop box turns t
              else (true, { t with finished := t.finished || input.isEmpty })

def decodeNextChunk (box : SecretBox) (t : JobZstdDecryptingTransport) :
    Bool × JobZstdDecryptingTransport :=
  if t.finished then (true, t) else decodeLoop box (t.input.length + 1) t

/-- The part of `underflow` behind an empty get area. -/
def refill (box : SecretBox) (t : JobZstdDecryptingTransport) :
    Option UInt8 × JobZstdDecryptingTransport :=
  if t.truncated || t.authFailed then (none, t)
  else if t.finished then (none, t)
  else
    match decodeNextChunk box t with
    | (false, t) => (none, t)
    | (true, t) =>
      match t.decryptedChunk with
      | [] => (none, t)
      | c :: rest => (some c, { t with area := some (c :: rest) })

/-- The byte under the get pointer, or `none` for end of file. -/
def underflow (box : SecretBox) (t : JobZstdDecryptingTransport) :
    Option UInt8 × JobZstdDecryptingTransport :=
  match t.area with
  | some (c :: _) => (some c, t)
  | _ => t.refill box

/-- `sbumpc`: the byte that `underflow` finds, and the get pointer moves past it. -/
def sbumpc (box : SecretBox) (t : JobZstdDecryptingTransport) :
    Option UInt8 × JobZstdDecryptingTransport :=
  match t.underflow box with
  | (none, t) => (none, t)
  | (some c, t) => (some c, { t with area := t.area.map List.tail })

/-- The loop of `xsgetn` behind the get area. Every turn copies at least one byte. -/
def copyLoop (box : SecretBox) :
    Nat → Nat → JobZstdDecryptingTransport → Bytes × JobZstdDecryptingTransport
  | 0, _, t => ([], t)
  | turns + 1, remaining, t =>
    if remaining = 0 then ([], t)
    else if t.truncated || t.authFailed then ([], t)
    else if t.finished then ([], t)
    else
      match decodeNextChunk box t with
      | (false, t) => ([], t)
      | (true, t) =>
        if t.decryptedChunk.isEmpty then ([], t)
        else if remaining < t.decryptedChunk.length then
          (t.decryptedChunk.take remaining,
            { t with area := some (t.decryptedChunk.drop remaining) })
        else
          let (more, u) := copyLoop box turns (remaining - t.decryptedChunk.length) t
          (t.decryptedChunk ++ more, u)

def xsgetn (box : SecretBox) (t : JobZstdDecryptingTransport) (count : Nat) :
    Bytes × JobZstdDecryptingTransport :=
  if count = 0 then ([], t)
  else
    let first := (t.area.getD []).take count
    let t := { t with area := t.area.map (List.drop count) }
    let (more, t) := copyLoop box count (count - first.length) t
    (first ++ more, t)

def atEnd (t : JobZstdDecryptingTransport) : Bool :=
  if t.truncated || t.authFailed then false
  else
    match t.area with
    | none => t.finished
    | some rest => t.finished && rest.isEmpty

/-- A call on the reader. -/
inductive ReadOp where
  | xsgetn (count : Nat)
  | underflow
  | sbumpc
deriving DecidableEq

/-- What a call answers, as the bytes it shows, and the state behind it. -/
def read (box : SecretBox) (t : JobZstdDecryptingTransport) :
    ReadOp → Bytes × JobZstdDecryptingTransport
  | .xsgetn count => t.xsgetn box count
  | .underflow => ((t.underflow box).1.toList, (t.underflow box).2)
  | .sbumpc => ((t.sbumpc box).1.toList, (t.sbumpc box).2)

def runReads (box : SecretBox) (t : JobZstdDecryptingTransport) :
    List ReadOp → List Bytes × JobZstdDecryptingTransport
  | [] => ([], t)
  | op :: ops =>
    let (answer, t) := t.read box op
    let (answers, t) := runReads box t ops
    (answer :: answers, t)

/-- Bytes that a call shows of what is still to be read, and what it leaves. -/
def ReadOp.take (rest : Bytes) : ReadOp → Bytes × Bytes
  | .xsgetn count => (rest.take count, rest.drop count)
  | .underflow => (rest.take 1, rest)
  | .sbumpc => (rest.take 1, rest.drop 1)

/-- The answers of a reader of plain bytes, and what it has left. -/
def plainReads (rest : Bytes) : List ReadOp → List Bytes × Bytes
  | [] => ([], rest)
  | op :: ops =>
    let (answers, left) := plainReads (op.take rest).2 ops
    ((op.take rest).1 :: answers, left)

end JobZstdDecryptingTransport

end JobZstd
