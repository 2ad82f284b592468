import Vetro.Core.Bytes
import Vetro.Core.Splice
import Vetro.Core.Outcome

/-!
# The snapshot file format

`vetro-snapshot/src/lib.rs`: the errors, the reader, the 64-bit hash (whole and
in pieces) and the file container.  Positions and lengths are natural numbers;
integers are written with their width in bytes, which truncates them as the
source's casts do.
-/

namespace Vetro.Format

open Bytes List
open Splice
open Outcome

/-- First 8 bytes of every snapshot: `VETROSNP`. -/
def magic : List Byte := [0x56, 0x45, 0x54, 0x52, 0x4f, 0x53, 0x4e, 0x50]

def formatVersion : ℕ := 4

/-- Magic, version, configuration hash, content length, content checksum. -/
def headerLen : ℕ := 8 + 4 + 8 + 8 + 8

/-- Block size of `compress` (one guest page). -/
def blockSize : ℕ := 4096

/-- Why a snapshot cannot be read or applied. -/
inductive Error where
  | badMagic
  | version (found expected : ℕ)
  | config (found expected : ℕ)
  | checksum
  | truncated
  | wrongSection (expected found : List Byte)
  | trailing (tag : List Byte) (bytes : ℕ)
  | invalid (what : String)
  deriving Repr, DecidableEq

/-! ## Reading -/

/-- Read buffer; every read past the end is `truncated`. -/
structure Reader where
  buf : List Byte
  pos : ℕ

namespace Reader

def new (buf : List Byte) : Reader := ⟨buf, 0⟩

def remaining (reader : Reader) : ℕ := reader.buf.length - reader.pos

def raw (reader : Reader) (count : ℕ) : Result Error (List Byte × Reader) :=
  if reader.remaining < count then fail .truncated
  else .ok (slice reader.buf reader.pos (reader.pos + count),
    { reader with pos := reader.pos + count })

/-- The bytes not yet read. -/
def rest (reader : Reader) : List Byte := reader.buf.drop reader.pos

/-- A read whose bytes are there takes them and leaves the others. -/
theorem raw_eq_ok {reader : Reader} {bytes tail : List Byte}
    (hrest : reader.rest = bytes ++ tail) :
    reader.raw bytes.length =
        .ok (bytes, { reader with pos := reader.pos + bytes.length }) ∧
      rest { reader with pos := reader.pos + bytes.length } = tail := by
  have hlength := congrArg List.length hrest
  simp only [rest, length_drop, length_append] at hlength
  have hslice : slice reader.buf reader.pos (reader.pos + bytes.length) = bytes := by
    rw [slice, Nat.add_sub_cancel_left]
    exact (congrArg (List.take bytes.length) hrest).trans (take_left)
  have htail : reader.buf.drop (reader.pos + bytes.length) = tail := by
    rw [← drop_drop]
    exact (congrArg (List.drop bytes.length) hrest).trans (drop_left)
  refine ⟨?_, htail⟩
  rw [raw, if_neg (by rw [remaining]; omega), hslice]

/-- A little-endian integer of `width` bytes. -/
def number (reader : Reader) (width : ℕ) : Result Error (ℕ × Reader) := do
  let (bytes, reader) ← reader.raw width
  .ok (ofLeBytes bytes, reader)

/-- A length, which cannot exceed the remaining bytes divided by `minItem`. -/
def lenOf (reader : Reader) (minItem : ℕ) : Result Error (ℕ × Reader) := do
  let (n, reader) ← reader.number 8
  if reader.remaining / max minItem 1 < n then fail .truncated else .ok (n, reader)

/-- Checks that the section `tag` has been read completely. -/
def finish (reader : Reader) (tag : List Byte) : Result Error Unit :=
  if reader.remaining = 0 then .ok () else fail (.trailing tag reader.remaining)

/-- A number that was read fits its width. -/
theorem number_lt {reader next : Reader} {width n : ℕ}
    (hread : reader.number width = .ok (n, next)) : n < 256 ^ width := by
  obtain ⟨⟨bytes, rest⟩, hraw, hvalue⟩ := bind_eq_ok.mp hread
  have hlength : bytes.length ≤ width := by
    rw [raw] at hraw
    split_ifs at hraw
    · cases hraw
    · obtain ⟨rfl, -⟩ := Prod.mk.inj (Except.ok.inj hraw)
      rw [slice, Nat.add_sub_cancel_left]
      exact length_take_le _ _
  obtain ⟨rfl, -⟩ := Prod.mk.inj (Except.ok.inj hvalue)
  exact ofLeBytes_lt_of_le width hlength le_rfl

end Reader

/-! ## Checksum and hash -/

def rotateLeft (word : UInt64) (count : UInt64) : UInt64 :=
  (word <<< count) ||| (word >>> (64 - count))

def hashPrime : UInt64 := 0x00000100000001b3

def hashSeed : UInt64 := 0xcbf29ce484222325

/-- One 8-byte word of the hash. -/
def hashWord (h : UInt64) (word : List Byte) : UInt64 :=
  rotateLeft ((h ^^^ UInt64.ofNat (ofLeBytes word)) * hashPrime) 23

/-- One byte of the tail of the hash. -/
def hashByte (h : UInt64) (byte : Byte) : UInt64 :=
  (h ^^^ byte.toUInt64) * hashPrime

/-- SplitMix64 mixing. -/
def hashMix (h : UInt64) : UInt64 :=
  let first := (h ^^^ (h >>> 30)) * 0xbf58476d1ce4e5b9
  let second := (first ^^^ (first >>> 27)) * 0x94d049bb133111eb
  second ^^^ (second >>> 31)

/-- Non-cryptographic 64-bit hash: FNV-1a over 8-byte words with a final
mix. -/
def hash64 (data : List Byte) : UInt64 :=
  let (words, rest) := asChunks 8 data
  hashMix (rest.foldl hashByte
    (words.foldl hashWord (hashSeed ^^^ UInt64.ofNat data.length)))

/-- `hash64` in pieces, with the total length known upfront. -/
structure Hash64 where
  h : UInt64
  carry : List Byte
  n : ℕ

namespace Hash64

def new (total : ℕ) : Hash64 :=
  ⟨hashSeed ^^^ UInt64.ofNat total, List.replicate 8 0, 0⟩

/-- The part of `update` after the carry: whole words, then the tail is kept
for the next call. -/
def absorb (state : Hash64) (data : List Byte) : Hash64 :=
  let (words, rest) := asChunks 8 data
  ⟨words.foldl hashWord state.h, writeAt state.carry 0 rest, rest.length⟩

def update (state : Hash64) (data : List Byte) : Hash64 :=
  if 0 < state.n then
    let k := min (8 - state.n) data.length
    let carry := writeAt state.carry state.n (data.take k)
    let n := state.n + k
    if n < 8 then ⟨state.h, carry, n⟩
    else absorb ⟨hashWord state.h carry, carry, 0⟩ (data.drop k)
  else absorb state data

def finish (state : Hash64) : UInt64 :=
  hashMix ((state.carry.take state.n).foldl hashByte state.h)

/-- The state reached after `fed`: its whole words are hashed and its tail is
in the carry. -/
structure Holds (state : Hash64) (seed : UInt64) (fed : List Byte) : Prop where
  carry_length : state.carry.length = 8
  words : state.h = (asChunks 8 fed).1.foldl hashWord seed
  pending : state.carry.take state.n = (asChunks 8 fed).2
  n_eq : state.n = (asChunks 8 fed).2.length

theorem holds_new (total : ℕ) : Holds (new total) (hashSeed ^^^ UInt64.ofNat total) [] := by
  constructor <;> simp [new, asChunks]

variable {fed : List Byte} {state : Hash64} {seed : UInt64}

/-- Absorbing on an empty carry, when the data hashed so far ends on a word
boundary. -/
theorem Holds.absorb (hstate : Holds state seed fed) (hboundary : (asChunks 8 fed).2 = [])
    (data : List Byte) : Holds (state.absorb data) seed (fed ++ data) := by
  have hrest := length_asChunks_rest (by decide : 0 < 8) data
  have hfits : 0 + (asChunks 8 data).2.length ≤ state.carry.length := by
    rw [hstate.carry_length]
    omega
  have hchunks : asChunks 8 (fed ++ data) =
      ((asChunks 8 fed).1 ++ (asChunks 8 data).1, (asChunks 8 data).2) := by
    rw [asChunks_append_rest (by decide : 0 < 8), hboundary, nil_append]
  constructor
  · simp only [Hash64.absorb]
    rw [length_writeAt hfits, hstate.carry_length]
  · simp only [Hash64.absorb]
    rw [hchunks, foldl_append, ← hstate.words]
  · simp only [Hash64.absorb]
    have hread := slice_writeAt_same hfits
    rw [Nat.zero_add, slice_zero] at hread
    rw [hchunks, hread]
  · simp only [Hash64.absorb]
    rw [hchunks]

/-- What `update` leaves in the carry when it already held something: the tail
of what was fed, then the first bytes of the new piece. -/
theorem Holds.take_fill (hstate : Holds state seed fed) {piece : List Byte}
    (hfits : state.n + piece.length ≤ 8) : (writeAt state.carry state.n piece).length = 8 ∧
      (writeAt state.carry state.n piece).take (state.n + piece.length) =
        (asChunks 8 fed).2 ++ piece := by
  have hroom : state.n + piece.length ≤ state.carry.length := by
    rw [hstate.carry_length]
    exact hfits
  constructor
  · rw [length_writeAt hroom, hstate.carry_length]
  · rw [← take_append_slice (Nat.le_add_right state.n piece.length),
      slice_writeAt_same hroom, take_writeAt hroom le_rfl, hstate.pending]

/-- A piece too short to complete the carried word only extends the carry. -/
theorem Holds.fill (hstate : Holds state seed fed) (piece : List Byte)
    (hshort : state.n + piece.length < 8) :
    Holds ⟨state.h, writeAt state.carry state.n piece, state.n + piece.length⟩
      seed (fed ++ piece) := by
  obtain ⟨hlength, htake⟩ := hstate.take_fill hshort.le
  have hchunks : asChunks 8 (fed ++ piece) =
      ((asChunks 8 fed).1, (asChunks 8 fed).2 ++ piece) := by
    have hnew : asChunks 8 ((asChunks 8 fed).2 ++ piece) =
        ([], (asChunks 8 fed).2 ++ piece) := by
      apply asChunks_of_lt
      rw [length_append, ← hstate.n_eq]
      exact hshort
    rw [asChunks_append_rest (by decide : 0 < 8), hnew, append_nil]
  constructor
  · exact hlength
  · rw [hchunks]
    exact hstate.words
  · rw [hchunks]
    exact htake
  · rw [hchunks, length_append, ← hstate.n_eq]

/-- A piece that completes the carried word leaves a word boundary. -/
theorem Holds.complete (hstate : Holds state seed fed) (piece : List Byte)
    (hfull : state.n + piece.length = 8) :
    Holds ⟨hashWord state.h (writeAt state.carry state.n piece),
        writeAt state.carry state.n piece, 0⟩ seed (fed ++ piece) ∧
      (asChunks 8 (fed ++ piece)).2 = [] := by
  obtain ⟨hlength, htake⟩ := hstate.take_fill hfull.le
  rw [hfull, take_of_length_le hlength.le] at htake
  have hword : ((asChunks 8 fed).2 ++ piece).length = 8 := by
    rw [length_append, ← hstate.n_eq]
    exact hfull
  have hchunks : asChunks 8 (fed ++ piece) =
      ((asChunks 8 fed).1 ++ [(asChunks 8 fed).2 ++ piece], []) := by
    have hnone : asChunks 8 ([] : List Byte) = ([], []) := by simp [asChunks]
    have hone := asChunks_append (by decide : 0 < 8) hword ([] : List Byte)
    rw [append_nil, hnone] at hone
    rw [asChunks_append_rest (by decide : 0 < 8), hone]
  refine ⟨?_, by rw [hchunks]⟩
  constructor
  · exact hlength
  · rw [hchunks, foldl_append, ← hstate.words, htake]
    rfl
  · rw [hchunks]
    rfl
  · rw [hchunks]
    rfl

theorem Holds.update (hstate : Holds state seed fed) (data : List Byte) :
    Holds (state.update data) seed (fed ++ data) := by
  have hshort := length_asChunks_rest (by decide : 0 < 8) fed
  rw [← hstate.n_eq] at hshort
  rw [Hash64.update]
  split
  · -- the carry is filled first
    set k := min (8 - state.n) data.length with hk
    have htake : (data.take k).length = k := by
      rw [length_take]
      omega
    by_cases hmore : state.n + k < 8
    · have hall : data.take k = data := by
        rw [take_eq_self_iff]
        omega
      have hnext := hstate.fill (data.take k) (by rwa [htake])
      rw [htake] at hnext
      rw [if_pos hmore]
      rwa [hall] at hnext ⊢
    · obtain ⟨hnext, hboundary⟩ := hstate.complete (data.take k) (by omega)
      rw [if_neg hmore]
      have hresult := hnext.absorb hboundary (data.drop k)
      rwa [append_assoc, take_append_drop] at hresult
  · have hboundary : (asChunks 8 fed).2 = [] := by
      rw [← length_eq_zero_iff, ← hstate.n_eq]
      omega
    exact hstate.absorb hboundary data

theorem Holds.finish (hstate : Holds state (hashSeed ^^^ UInt64.ofNat fed.length) fed) :
    state.finish = hash64 fed := by
  rw [Hash64.finish, hstate.pending, hstate.words, hash64]

theorem Holds.updates (hstate : Holds state seed fed) (pieces : List (List Byte)) :
    Holds (pieces.foldl Hash64.update state) seed (fed ++ pieces.flatten) := by
  induction pieces generalizing state fed with
  | nil =>
    rw [flatten_nil, append_nil]
    exact hstate
  | cons piece pieces ih =>
    rw [flatten_cons, ← append_assoc]
    exact ih (hstate.update piece)

/-- However the data is cut, the hash of its pieces is that of the whole. -/
theorem finish_updates (pieces : List (List Byte)) :
    (pieces.foldl Hash64.update (new pieces.flatten.length)).finish = hash64 pieces.flatten :=
  ((holds_new pieces.flatten.length).updates pieces).finish

end Hash64

example : hash64 [0x76, 0x65, 0x74, 0x72, 0x6f, 0x2d, 0x73, 0x6e, 0x61, 0x70,
    0x73, 0x68, 0x6f, 0x74] = 0x2e5939981c8e031d := by decide +kernel

/-! ## File -/

/-- A file with the snapshot header: magic, u32 version, u64 configuration
hash, u64 length, u64 `hash64` of the content, content. -/
def encodeContainer (magic : List Byte) (version configHash : ℕ)
    (payload : List Byte) : List Byte :=
  magic ++ leBytes 4 version ++ leBytes 8 configHash ++
    leBytes 8 payload.length ++ leBytes 8 (hash64 payload).toNat ++ payload

/-- Complete snapshot: header and `payload` (the sections). -/
def encodeFile (configHash : ℕ) (payload : List Byte) : List Byte :=
  encodeContainer magic formatVersion configHash payload

/-- True if the bytes are all zero: the OR of the whole words, then the
tail. -/
def isZero (bytes : List Byte) : Bool :=
  let (words, rest) := asChunks 8 bytes
  words.foldl (fun acc word => acc ||| UInt64.ofNat (ofLeBytes word)) 0 == 0 &&
    rest.all fun byte => byte == 0

private theorem foldl_or_eq_zero (words : List (List Byte)) (start : UInt64) :
    words.foldl (fun acc word => acc ||| UInt64.ofNat (ofLeBytes word)) start = 0 ↔
      start = 0 ∧ ∀ word ∈ words, UInt64.ofNat (ofLeBytes word) = 0 := by
  induction words generalizing start with
  | nil => simp
  | cons word words ih =>
    rw [foldl_cons, ih, UInt64.or_eq_zero_iff]
    simp only [mem_cons, forall_eq_or_imp, and_assoc]

theorem isZero_iff {bytes : List Byte} : isZero bytes = true ↔ ∀ byte ∈ bytes, byte = 0 := by
  have hword : ∀ word ∈ (asChunks 8 bytes).1,
      (UInt64.ofNat (ofLeBytes word) = 0 ↔ ∀ byte ∈ word, byte = 0) := by
    intro word hmem
    have hlt : ofLeBytes word < 2 ^ 64 :=
      ofLeBytes_lt_of_le 8 (length_of_mem_asChunks hmem).le (by decide)
    rw [← ofLeBytes_eq_zero, ← UInt64.toNat_inj, UInt64.toNat_ofNat', Nat.mod_eq_of_lt hlt]
    rfl
  have hall : (∀ word ∈ (asChunks 8 bytes).1, UInt64.ofNat (ofLeBytes word) = 0) ↔
      ∀ word ∈ (asChunks 8 bytes).1, ∀ byte ∈ word, byte = 0 :=
    forall_congr' fun word => imp_congr_right (hword word)
  conv_rhs => rw [← flatten_asChunks (show 0 < 8 by decide) bytes]
  rw [isZero]
  simp only [Bool.and_eq_true, beq_iff_eq, foldl_or_eq_zero, true_and, hall,
    all_eq_true, mem_append, mem_flatten]
  constructor
  · rintro ⟨hwords, hrest⟩ byte (⟨word, hmem, hbyte⟩ | hbyte)
    · exact hwords word hmem byte hbyte
    · exact hrest byte hbyte
  · intro hbytes
    exact ⟨fun word hmem byte hbyte => hbytes byte (.inl ⟨word, hmem, hbyte⟩),
      fun byte hbyte => hbytes byte (.inr hbyte)⟩

end Vetro.Format
