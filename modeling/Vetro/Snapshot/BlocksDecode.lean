import Vetro.Snapshot.Blocks

/-!
# Reading blocks back

`decode` of `vetro-snapshot/src/blocks.rs` over a `Reader` and a slice.  It
accepts every run of entries, so it gives back what `encode` wrote: each
non-zero block is written and visited once and the bytes of the encoding are
used up exactly.
-/

namespace Vetro.Blocks

open Function List
open Bytes
open Splice
open Outcome
open Format

/-! ## Model -/

/-- The source, the target, the blocks claimed, the last ordered one, the calls
of `visit`, the number of blocks covered and the buffer for frames. -/
structure Decoder where
  reader : Reader
  target : List Byte
  done : ℕ → Bool
  last : Option ℕ
  visited : List ℕ
  covered : ℕ
  frameBuf : List Byte

namespace Decoder

def take (st : Decoder) (n : ℕ) : Result Error (List Byte × Decoder) := do
  let (bytes, reader) ← st.reader.raw n
  .ok (bytes, { st with reader })

/-- A little-endian integer of `width` bytes. -/
def number (st : Decoder) (width : ℕ) : Result Error (ℕ × Decoder) := do
  let (bytes, st) ← st.take width
  .ok (ofLeBytes bytes, st)

/-- Block `i` becomes done, and the last one if the entry is ordered. -/
def mark (st : Decoder) (i : ℕ) (ordered : Bool) : Decoder :=
  { st with done := update st.done i true
            last := if ordered = true then some i else st.last }

def claim (st : Decoder) (blocks i : ℕ) (ordered : Bool) : Result Error Decoder :=
  if blocks ≤ i ∨ st.done i = true ∨
      (ordered = true ∧ st.last.any (fun l => decide (i ≤ l)) = true) then
    fail (.invalid s!"block {i} out of place")
  else .ok (st.mark i ordered)

/-- Block `i` holds `bytes` and was visited. -/
def put (st : Decoder) (i : ℕ) (bytes : List Byte) : Decoder :=
  { st with target := writeAt st.target (i * blockSize) bytes
            visited := st.visited ++ [i] }

/-- `t.block_mut(i).copy_from_slice(bytes)` and `visit(i)`. -/
def store (st : Decoder) (i : ℕ) (bytes : List Byte) : Result Error Decoder := do
  require (bytes.length = (block st.target i).length)
  .ok (st.put i bytes)

def cover (st : Decoder) (k : ℕ) : Decoder := { st with covered := st.covered + k }

end Decoder

def blockLen (len i : ℕ) : ℕ := min blockSize (len - i * blockSize)

def decodeRaw (len first : ℕ) (st : Decoder) : Result Error Decoder := do
  let st ← st.claim (blockCount len) first true
  let (bytes, st) ← st.take (block st.target first).length
  let st ← st.store first bytes
  .ok (st.cover 1)

def decodeLz (len first : ℕ) (st : Decoder) : Result Error Decoder := do
  let st ← st.claim (blockCount len) first true
  let (n, st) ← st.number 4
  let (packed, st) ← st.take n
  let bytes ← Lz.decompress packed (block st.target first)
  let st ← st.store first bytes
  .ok (st.cover 1)

def decodeSame (len first : ℕ) (st : Decoder) : Result Error Decoder := do
  let st ← st.claim (blockCount len) first false
  let (j, st) ← st.number 8
  if first ≤ j ∨ st.done j = false ∨ blockLen len j ≠ blockLen len first then
    fail (.invalid s!"block {first}: copy of block {j}")
  else
    let st ← st.store first (block st.target j)
    .ok (st.cover 1)

/-- The other blocks of a frame. -/
def claimOthers (blocks : ℕ) : ℕ → Decoder → Result Error (List ℕ × Decoder)
  | 0, st => .ok ([], st)
  | k + 1, st => do
    let (i, st) ← st.number 8
    let st ← st.claim blocks i true
    let (others, st) ← claimOthers blocks k st
    .ok (i :: others, st)

/-- The blocks of a frame, from position `start` of its bytes on. -/
def storeAll (buf : List Byte) : List ℕ → ℕ → Decoder → Result Error Decoder
  | [], _, st => .ok st
  | i :: idx, start, st => do
    let l := (block st.target i).length
    let st ← st.store i (slice buf start (start + l))
    storeAll buf idx (start + l) st

/-- `Vec::resize`, with zeros. -/
def resize (buf : List Byte) (total : ℕ) : List Byte :=
  buf.take total ++ List.replicate (total - buf.length) 0

def decodeFrame (len count first : ℕ) (st : Decoder) : Result Error Decoder := do
  let (k, st) ← st.number 2
  if k = 0 ∨ frameBlocks < k ∨ count < st.covered + k then
    fail (.invalid s!"frame of {k} blocks")
  else
    let st ← st.claim (blockCount len) first true
    let (others, st) ← claimOthers (blockCount len) (k - 1) st
    let idx := first :: others
    let (n, st) ← st.number 4
    let (packed, st) ← st.take n
    let buf ← Lzh.decompress packed (resize st.frameBuf (idx.map (blockLen len)).sum)
    let st ← storeAll buf idx 0 { st with frameBuf := buf }
    .ok (st.cover k)

/-- One entry. -/
def decodeEntry (len count : ℕ) (st : Decoder) : Result Error Decoder := do
  let (first, st) ← st.number 8
  let (enc, st) ← st.number 1
  if enc = rawEnc.toNat then decodeRaw len first st
  else if enc = lzEnc.toNat then decodeLz len first st
  else if enc = sameEnc.toNat then decodeSame len first st
  else if enc = frameEnc.toNat then decodeFrame len count first st
  else fail (.invalid s!"block encoding {enc}")

/-- Every entry covers at least one block, so `fuel` turns are enough for as
many blocks. -/
def decodeLoop (len count : ℕ) : ℕ → Decoder → Result Error Decoder
  | 0, st => if st.covered < count then hang else .ok st
  | fuel + 1, st =>
    if st.covered < count then do
      let st ← decodeEntry len count st
      decodeLoop len count fuel st
    else .ok st

/-- Reads data of `len` bytes into `target`: only the non-zero blocks are
written, the others are left as they are. -/
def decode (reader : Reader) (len : ℕ) (target : List Byte) : Result Error Decoder := do
  let st : Decoder := ⟨reader, target, fun _ => false, none, [], 0, []⟩
  let (found, st) ← st.number 8
  if found ≠ len then fail (.invalid s!"data of {found} bytes, expected {len}")
  else
    let (count, st) ← st.number 8
    if blockCount len < count then fail (.invalid "more blocks than the data")
    else decodeLoop len count count st

/-! ## Reading -/

/-- The decoder after the next `n` bytes were read. -/
def Decoder.skip (st : Decoder) (n : ℕ) : Decoder :=
  { st with reader := { st.reader with pos := st.reader.pos + n } }

section

variable (st : Decoder)

@[simp]
theorem Decoder.skip_skip (n k : ℕ) : (st.skip n).skip k = st.skip (n + k) := by
  simp [Decoder.skip, Nat.add_assoc]

@[simp]
theorem Decoder.target_skip (n : ℕ) : (st.skip n).target = st.target := rfl

@[simp]
theorem Decoder.done_skip (n : ℕ) : (st.skip n).done = st.done := rfl

@[simp]
theorem Decoder.covered_skip (n : ℕ) : (st.skip n).covered = st.covered := rfl

@[simp]
theorem Decoder.target_mark (i : ℕ) (ordered : Bool) :
    (st.mark i ordered).target = st.target := rfl

end

variable {st : Decoder}

theorem take_spec {bytes tail : List Byte} (hrest : st.reader.rest = bytes ++ tail) :
    st.take bytes.length = .ok (bytes, st.skip bytes.length) ∧
      (st.skip bytes.length).reader.rest = tail := by
  obtain ⟨hraw, htail⟩ := Reader.raw_eq_ok hrest
  refine ⟨?_, htail⟩
  rw [Decoder.take, hraw, ok_bind]
  rfl

theorem number_spec {width value : ℕ} {tail : List Byte} (hvalue : value < 256 ^ width)
    (hrest : st.reader.rest = leBytes width value ++ tail) :
    st.number width = .ok (value, st.skip width) ∧ (st.skip width).reader.rest = tail := by
  obtain ⟨htake, htail⟩ := take_spec hrest
  rw [length_leBytes] at htake htail
  refine ⟨?_, htail⟩
  rw [Decoder.number, htake, ok_bind]
  simp only [ofLeBytes_leBytes_of_lt hvalue]

/-! ## Claiming and storing -/

/-- The decoder has claimed the blocks of `cover`. -/
structure Claimed (cover : Cover) (st : Decoder) : Prop where
  done : ∀ i, st.done i = true ↔ i ∈ cover.done
  last : st.last = cover.last

/-- The blocks `done` hold their data and were visited; the others are zero. -/
structure Stored (data : List Byte) (done : List ℕ) (st : Decoder) : Prop where
  length : st.target.length = data.length
  target : ∀ p < data.length, st.target[p]? =
    if p / blockSize ∈ done then data[p]? else some 0
  visited : st.visited = done

theorem Claimed.mark {cover : Cover} (hclaimed : Claimed cover st) (i : ℕ) (ordered : Bool) :
    Claimed ⟨cover.done ++ [i], if ordered = true then some i else cover.last⟩
      (st.mark i ordered) := by
  refine ⟨fun k => ?_, by simp only [Decoder.mark, hclaimed.last]⟩
  simp only [Decoder.mark, update_apply, mem_append, mem_singleton]
  split_ifs with hsame
  · simp [hsame]
  · rw [hclaimed.done k]
    simp [hsame]

variable {data : List Byte} {i : ℕ}

theorem claim_spec {cover : Cover} {ordered : Bool} (hclaimed : Claimed cover st)
    (hfree : cover.Free data i) (hafter : ordered = true → After cover.last i) :
    st.claim (blockCount data.length) i ordered = .ok (st.mark i ordered) := by
  have hinside := hfree.1
  have hdone : st.done i ≠ true := fun h => hfree.2 ((hclaimed.done i).mp h)
  have horder : ¬(ordered = true ∧ st.last.any (fun l => decide (i ≤ l)) = true) := by
    rintro ⟨hordered, hany⟩
    rw [hclaimed.last, Option.any_eq_true] at hany
    obtain ⟨l, hl, hle⟩ := hany
    have hlt := hafter hordered l hl
    simp only [decide_eq_true_eq] at hle
    omega
  rw [Decoder.claim, if_neg]
  rintro (hout | hmarked | hlate)
  · omega
  · exact hdone hmarked
  · exact horder hlate

theorem div_blockSize_eq {p : ℕ} :
    p / blockSize = i ↔ i * blockSize ≤ p ∧ p < i * blockSize + blockSize := by
  simp only [show blockSize = 4096 from rfl]
  omega

variable {done : List ℕ}

/-- What the target holds at the positions of a block. -/
theorem Stored.block_eq (hstored : Stored data done st) (hi : i ∈ done) :
    block st.target i = block data i := by
  apply ext_getElem?
  intro k
  rw [block, block, getElem?_slice, getElem?_slice]
  split_ifs with hk
  · by_cases hinside : i * blockSize + k < data.length
    · have hindex : (i * blockSize + k) / blockSize = i := div_blockSize_eq.mpr (by omega)
      rw [hstored.target _ hinside, hindex, if_pos hi]
    · rw [List.getElem?_eq_none (by rw [hstored.length]; omega), List.getElem?_eq_none (by omega)]
  · rfl

theorem Stored.length_block (hstored : Stored data done st) (i : ℕ) :
    (block st.target i).length = (block data i).length := by
  rw [Blocks.length_block, Blocks.length_block, hstored.length]

theorem Stored.store (hstored : Stored data done st) (i : ℕ) :
    st.store i (block data i) = .ok (st.put i (block data i)) := by
  rw [Decoder.store, require_eq_ok (hstored.length_block i).symm, ok_bind]

theorem Stored.put (hstored : Stored data done st) (hi : i < blockCount data.length) :
    Stored data (done ++ [i]) (st.put i (block data i)) := by
  have hstart := lt_of_lt_blockCount hi
  have hlength : (block data i).length = _ := Blocks.length_block i
  have hroom : i * blockSize + (block data i).length ≤ st.target.length := by
    rw [hlength, hstored.length]
    omega
  refine ⟨?_, ?_, ?_⟩
  · simp only [Decoder.put, length_writeAt hroom, hstored.length]
  · intro p hp
    have hold := hstored.target p hp
    simp only [Decoder.put, getElem?_writeAt hroom, mem_append, mem_singleton]
    by_cases hhere : p / blockSize = i
    · have hrange := div_blockSize_eq.mp hhere
      rw [if_neg (by omega), if_pos (by rw [hlength]; omega), if_pos (Or.inr hhere), block,
        getElem?_slice, if_pos (by omega)]
      congr 1
      omega
    · have hrange := mt div_blockSize_eq.mpr hhere
      simp only [hhere, or_false]
      rw [← hold]
      split_ifs with hbefore hinside
      · rfl
      · rw [hlength] at hinside
        omega
      · rfl
  · simp only [Decoder.put, hstored.visited]

/-- The decoder has read entries that cover `cover`. -/
structure Holds (data : List Byte) (cover : Cover) (st : Decoder) : Prop where
  claimed : Claimed cover st
  stored : Stored data cover.done st
  covered : st.covered = cover.done.length

/-- The decoder `next` has read `bytes` after `st`. -/
def Consumed (st : Decoder) (bytes : List Byte) (next : Decoder) : Prop :=
  next.reader = (st.skip bytes.length).reader

section Entries

variable {data tail : List Byte} {cover : Cover} {st : Decoder} {i : ℕ}

section

variable (hholds : Holds data cover st)
include hholds

/-- A block that is claimed, read and stored. -/
theorem Holds.advance (hi : i < blockCount data.length) (ordered : Bool) (n : ℕ) :
    Holds data ⟨cover.done ++ [i], if ordered = true then some i else cover.last⟩
      ((((st.mark i ordered).skip n).put i (block data i)).cover 1) := by
  have hmark := hholds.claimed.mark i ordered
  have hstored : Stored data cover.done ((st.mark i ordered).skip n) :=
    ⟨hholds.stored.length, hholds.stored.target, hholds.stored.visited⟩
  have hput := hstored.put hi
  refine ⟨⟨hmark.done, hmark.last⟩, ⟨hput.length, hput.target, hput.visited⟩, ?_⟩
  rw [length_append, length_singleton, ← hholds.covered]
  rfl

theorem Holds.store (ordered : Bool) (n : ℕ) : ((st.mark i ordered).skip n).store i (block data i) =
      .ok (((st.mark i ordered).skip n).put i (block data i)) := by
  have hstored : Stored data cover.done ((st.mark i ordered).skip n) :=
    ⟨hholds.stored.length, hholds.stored.target, hholds.stored.visited⟩
  exact hstored.store i

theorem decodeRaw_spec (hfree : cover.Free data i) (hafter : After cover.last i)
    (hrest : st.reader.rest = block data i ++ tail) :
    ∃ next, decodeRaw data.length i st = .ok next ∧
      Holds data ⟨cover.done ++ [i], some i⟩ next ∧ Consumed st (block data i) next := by
  have hclaim : st.claim (blockCount data.length) i true = .ok (st.mark i true) :=
    claim_spec hholds.claimed hfree fun _ => hafter
  have hmarked : (st.mark i true).reader.rest = block data i ++ tail := hrest
  have htake := (take_spec hmarked).1
  refine ⟨_, ?_, hholds.advance hfree.1 true (block data i).length, rfl⟩
  simp only [decodeRaw, hclaim, ok_bind, Decoder.target_mark,
    hholds.stored.length_block i, htake, hholds.store]

theorem decodeLz_spec {packed : List Byte} (hfree : cover.Free data i) (hafter : After cover.last i)
    (hshort : packed.length < 2 ^ 32)
    (hpacked : ∀ dst : List Byte, dst.length = (block data i).length →
      Lz.decompress packed dst = .ok (block data i))
    (hrest : st.reader.rest = leBytes 4 packed.length ++ packed ++ tail) :
    ∃ next, decodeLz data.length i st = .ok next ∧
      Holds data ⟨cover.done ++ [i], some i⟩ next ∧
      Consumed st (leBytes 4 packed.length ++ packed) next := by
  have hclaim : st.claim (blockCount data.length) i true = .ok (st.mark i true) :=
    claim_spec hholds.claimed hfree fun _ => hafter
  have hmarked : (st.mark i true).reader.rest =
      leBytes 4 packed.length ++ (packed ++ tail) := by
    exact hrest
  obtain ⟨hnumber, hafterNumber⟩ := number_spec (show packed.length < 256 ^ 4 by omega) hmarked
  have htake := (take_spec hafterNumber).1
  have hlz := hpacked (block st.target i) (hholds.stored.length_block i)
  refine ⟨_, ?_, hholds.advance hfree.1 true (4 + packed.length), ?_⟩
  · simp only [decodeLz, hclaim, ok_bind, hnumber, htake, Decoder.skip_skip,
      Decoder.target_skip, Decoder.target_mark, hlz, hholds.store]
  · simp [Consumed, Decoder.skip, Decoder.cover, Decoder.put, Decoder.mark]

theorem decodeSame_spec {j : ℕ} (hfree : cover.Free data i) (hback : j < i) (hdone : j ∈ cover.done)
    (hequal : block data j = block data i) (hword : j < 2 ^ 64)
    (hrest : st.reader.rest = leBytes 8 j ++ tail) :
    ∃ next, decodeSame data.length i st = .ok next ∧
      Holds data ⟨cover.done ++ [i], cover.last⟩ next ∧ Consumed st (leBytes 8 j) next := by
  have hclaim : st.claim (blockCount data.length) i false = .ok (st.mark i false) :=
    claim_spec hholds.claimed hfree fun h => absurd h Bool.false_ne_true
  have hmarked : (st.mark i false).reader.rest = leBytes 8 j ++ tail := hrest
  have hnumber := (number_spec (show j < 256 ^ 8 by omega) hmarked).1
  have hmark : (st.mark i false).done j = true :=
    ((hholds.claimed.mark i false).done j).mpr (mem_append_left _ hdone)
  have hlengths : blockLen data.length j = blockLen data.length i := by
    have hlength := congrArg List.length hequal
    rwa [length_block, length_block] at hlength
  refine ⟨_, ?_, hholds.advance hfree.1 false 8, by simp [Consumed, Decoder.skip,
    Decoder.cover, Decoder.put, Decoder.mark]⟩
  simp only [decodeSame, hclaim, ok_bind, hnumber, Decoder.done_skip, hmark, hlengths]
  rw [if_neg (by simp; omega)]
  simp only [Decoder.target_skip, Decoder.target_mark, hholds.stored.block_eq hdone, hequal,
    hholds.store, ok_bind]

end

/-! ### Frames -/

/-- Blocks that may be claimed one after the other. -/
structure Claimable (data : List Byte) (cover : Cover) (idx : List ℕ) : Prop where
  free : ∀ i ∈ idx, cover.Free data i
  after : ∀ i ∈ idx, After cover.last i
  sorted : idx.Pairwise (· < ·)

variable {others : List ℕ}

theorem Claimable.rest (hidx : Claimable data cover (i :: others)) :
    Claimable data ⟨cover.done ++ [i], some i⟩ others := by
  have hsorted := pairwise_cons.mp hidx.sorted
  refine ⟨fun k hk => ⟨(hidx.free k (mem_cons_of_mem _ hk)).1, fun hmem => ?_⟩,
    fun k hk l hl => ?_, hsorted.2⟩
  · rcases mem_append.mp hmem with hold | hnew
    · exact (hidx.free k (mem_cons_of_mem _ hk)).2 hold
    · exact absurd (hsorted.1 k hk) (by simp [mem_singleton.mp hnew])
  · cases hl
    exact hsorted.1 k hk

/-- Marking several blocks in order. -/
def markAll (st : Decoder) (idx : List ℕ) : Decoder :=
  idx.foldl (fun st i => st.mark i true) st

theorem markAll_skip (st : Decoder) (n : ℕ) (idx : List ℕ) :
    markAll (st.skip n) idx = (markAll st idx).skip n := by
  induction idx generalizing st with
  | nil => rfl
  | cons i idx ih => exact ih (st.mark i true)

theorem stored_markAll (idx : List ℕ) (hstored : Stored data done st) :
    Stored data done (markAll st idx) := by
  induction idx generalizing st with
  | nil => exact hstored
  | cons i idx ih => exact ih ⟨hstored.length, hstored.target, hstored.visited⟩

theorem covered_markAll (st : Decoder) (idx : List ℕ) : (markAll st idx).covered = st.covered := by
  induction idx generalizing st with
  | nil => rfl
  | cons i idx ih => exact ih (st.mark i true)

theorem reader_markAll (st : Decoder) (idx : List ℕ) : (markAll st idx).reader = st.reader := by
  induction idx generalizing st with
  | nil => rfl
  | cons i idx ih => exact ih (st.mark i true)

theorem Claimed.markAll (hclaimed : Claimed cover st) (idx : List ℕ) :
    Claimed ⟨cover.done ++ idx, lastAfter cover.last idx⟩ (markAll st idx) := by
  induction idx generalizing cover st with
  | nil => simpa [Blocks.markAll, lastAfter] using hclaimed
  | cons i idx ih =>
    have hrest := ih (hclaimed.mark i true)
    rw [append_assoc] at hrest
    exact hrest

theorem claimOthers_spec (hclaimed : Claimed cover st) (hidx : Claimable data cover others)
    (hword : ∀ k ∈ others, k < 2 ^ 64)
    (hrest : st.reader.rest = others.flatMap (leBytes 8) ++ tail) :
    claimOthers (blockCount data.length) others.length st =
      .ok (others, (markAll st others).skip (8 * others.length)) := by
  induction others generalizing cover st with
  | nil => simp [claimOthers, markAll, Decoder.skip]
  | cons k others ih =>
    obtain ⟨hnumber, hnext⟩ := number_spec (show k < 256 ^ 8 from hword k mem_cons_self) hrest
    have hskipped : Claimed cover (st.skip 8) := ⟨hclaimed.done, hclaimed.last⟩
    have hclaim : (st.skip 8).claim (blockCount data.length) k true =
        .ok ((st.skip 8).mark k true) :=
      claim_spec hskipped (hidx.free k mem_cons_self)
        fun _ => hidx.after k mem_cons_self
    have htail := ih (hskipped.mark k true) hidx.rest
      (fun l hl => hword l (mem_cons_of_mem _ hl)) hnext
    rw [length_cons, claimOthers]
    simp only [hnumber, ok_bind, hclaim, htail]
    rw [show (st.skip 8).mark k true = (st.mark k true).skip 8 from rfl, markAll_skip,
      Decoder.skip_skip, show 8 + 8 * others.length = 8 * (others.length + 1) by ring]
    rfl

/-- Storing several blocks in order. -/
def putAll (data : List Byte) (st : Decoder) (idx : List ℕ) : Decoder :=
  idx.foldl (fun st i => st.put i (block data i)) st

theorem putAll_fields (data : List Byte) (st : Decoder) (idx : List ℕ) :
    (putAll data st idx).reader = st.reader ∧ (putAll data st idx).done = st.done ∧
      (putAll data st idx).last = st.last ∧
      (putAll data st idx).covered = st.covered := by
  induction idx generalizing st with
  | nil => exact ⟨rfl, rfl, rfl, rfl⟩
  | cons i idx ih => exact ih (st.put i (block data i))

theorem storeAll_spec {buf : List Byte} (before : List Byte) {idx : List ℕ}
    (hstored : Stored data done st) (hinside : ∀ k ∈ idx, k < blockCount data.length)
    (hbuf : buf = before ++ idx.flatMap (block data)) :
    storeAll buf idx before.length st = .ok (putAll data st idx) ∧
      Stored data (done ++ idx) (putAll data st idx) := by
  induction idx generalizing before done st with
  | nil => exact ⟨rfl, by rwa [append_nil]⟩
  | cons k idx ih =>
    have hput := hstored.put (hinside k mem_cons_self)
    have hpiece : slice buf before.length (before.length + (block data k).length) =
        block data k := by
      rw [hbuf, flatMap_cons, ← append_assoc]
      exact slice_middle before (block data k) _
    have hrest : buf = (before ++ block data k) ++ idx.flatMap (block data) := by
      rw [hbuf, flatMap_cons, append_assoc]
    obtain ⟨hrun, hfinal⟩ :=
      ih (before ++ block data k) hput (fun l hl => hinside l (mem_cons_of_mem _ hl)) hrest
    rw [length_append] at hrun
    constructor
    · rw [storeAll]
      simp only [hstored.length_block k, hpiece, hstored.store k, ok_bind]
      exact hrun
    · rwa [append_assoc] at hfinal

theorem length_resize (buf : List Byte) (total : ℕ) : (resize buf total).length = total := by
  simp [resize]
  omega

theorem sum_blockLen (data : List Byte) (idx : List ℕ) :
    (idx.map (blockLen data.length)).sum = (idx.flatMap (block data)).length := by
  induction idx with
  | nil => rfl
  | cons i idx ih =>
    rw [map_cons, sum_cons, ih, flatMap_cons, length_append, length_block, blockLen]

theorem decodeFrame_spec {head count : ℕ} {packed : List Byte} (hholds : Holds data cover st)
    (hidx : Claimable data cover (head :: others)) (hlength : (head :: others).length ≤ frameBlocks)
    (hcount : cover.done.length + (head :: others).length ≤ count)
    (hword : ∀ k ∈ others, k < 2 ^ 64) (hshort : packed.length < 2 ^ 32)
    (hpacked : ∀ dst : List Byte, dst.length = ((head :: others).flatMap (block data)).length →
      Lzh.decompress packed dst = .ok ((head :: others).flatMap (block data)))
    (hrest : st.reader.rest =
      leBytes 2 (others.length + 1) ++ others.flatMap (leBytes 8) ++ leBytes 4 packed.length ++
        packed ++ tail) :
    ∃ next, decodeFrame data.length count head st = .ok next ∧
      Holds data ⟨cover.done ++ head :: others,
        lastAfter cover.last (head :: others)⟩ next ∧
      Consumed st (leBytes 2 (others.length + 1) ++ others.flatMap (leBytes 8) ++
        leBytes 4 packed.length ++ packed) next := by
  have hsmall : frameBlocks = 64 := rfl
  rw [length_cons] at hlength hcount
  simp only [append_assoc] at hrest
  obtain ⟨hk, hrest₁⟩ := number_spec (show others.length + 1 < 256 ^ 2 by omega) hrest
  have hclaimed₁ : Claimed cover (st.skip 2) := ⟨hholds.claimed.done, hholds.claimed.last⟩
  have hclaim : (st.skip 2).claim (blockCount data.length) head true =
      .ok ((st.skip 2).mark head true) :=
    claim_spec hclaimed₁ (hidx.free head mem_cons_self)
      fun _ => hidx.after head mem_cons_self
  have hothers := claimOthers_spec (hclaimed₁.mark head true) hidx.rest hword hrest₁
  -- the reader after the indices of the other blocks
  set marked := markAll (st.skip 2) (head :: others) with hmarked
  have hothersBytes : (others.flatMap (leBytes 8)).length = 8 * others.length := by
    simp [length_flatMap, Nat.mul_comm]
  have hreader : marked.reader = (st.skip 2).reader := reader_markAll _ _
  have hrest₂ : (marked.skip (8 * others.length)).reader.rest =
      leBytes 4 packed.length ++ (packed ++ tail) := by
    have hskipped := (take_spec hrest₁).2
    rw [hothersBytes] at hskipped
    rw [← hskipped]
    simp only [Decoder.skip, hreader]
  obtain ⟨hn, hrest₃⟩ := number_spec (show packed.length < 256 ^ 4 by omega) hrest₂
  obtain ⟨htake, -⟩ := take_spec hrest₃
  have hframe := hpacked (resize
    (((marked.skip (8 * others.length)).skip 4).skip packed.length).frameBuf
      ((head :: others).map (blockLen data.length)).sum)
    (by rw [length_resize, sum_blockLen])
  set buf := (head :: others).flatMap (block data) with hbuf
  set filled : Decoder := { ((marked.skip (8 * others.length)).skip 4).skip packed.length with
    frameBuf := buf } with hfilled
  have hstored : Stored data cover.done filled := by
    have hskipped : Stored data cover.done (st.skip 2) :=
      ⟨hholds.stored.length, hholds.stored.target, hholds.stored.visited⟩
    have hbefore := stored_markAll (head :: others) hskipped
    exact ⟨hbefore.length, hbefore.target, hbefore.visited⟩
  obtain ⟨hstore, hfinal⟩ := storeAll_spec [] hstored
    (fun k hk => (hidx.free k hk).1) (hbuf.trans (nil_append _).symm)
  obtain ⟨hfinalReader, hfinalDone, hfinalLast, hfinalCovered⟩ :=
    putAll_fields data filled (head :: others)
  have hclaimed := hclaimed₁.markAll (head :: others)
  refine ⟨(putAll data filled (head :: others)).cover (others.length + 1), ?_,
    ⟨⟨fun k => ?_, ?_⟩, ⟨hfinal.length, hfinal.target, hfinal.visited⟩, ?_⟩, ?_⟩
  · rw [decodeFrame, hk, ok_bind]
    dsimp only
    rw [if_neg (by rw [Decoder.covered_skip, hholds.covered]; omega), hclaim, ok_bind,
      Nat.add_sub_cancel, hothers, ok_bind]
    change (do let (n, st) ← (marked.skip (8 * others.length)).number 4; _) = _
    rw [hn, ok_bind]
    rw [htake, ok_bind]
    rw [hframe, ok_bind]
    change (do let st ← storeAll buf (head :: others) ([] : List Byte).length filled; _) = _
    rw [hstore, ok_bind]
  · exact (iff_of_eq (congrArg (· = true) (congrFun hfinalDone k))).trans (hclaimed.done k)
  · exact hfinalLast.trans hclaimed.last
  · have hcovered : filled.covered = st.covered := covered_markAll _ _
    simp [Decoder.cover, hfinalCovered, hcovered, hholds.covered]
  · change (putAll data filled (head :: others)).reader = _
    rw [hfinalReader]
    simp only [hfilled, Decoder.skip, hreader, length_append, length_leBytes,
      hothersBytes, Nat.add_assoc]

/-! ### Entries and runs -/

theorem Holds.skip (hholds : Holds data cover st) (n : ℕ) : Holds data cover (st.skip n) :=
  ⟨⟨hholds.claimed.done, hholds.claimed.last⟩,
    ⟨hholds.stored.length, hholds.stored.target, hholds.stored.visited⟩, hholds.covered⟩

/-- The index and the encoding at the start of every entry. -/
theorem decodeEntry_head {tag : Byte} {rest : List Byte} (len count : ℕ)
    (hword : i < 2 ^ 64) (hrest : st.reader.rest = leBytes 8 i ++ [tag] ++ rest) :
    decodeEntry len count st =
        (if tag.toNat = rawEnc.toNat then decodeRaw len i (st.skip 9)
        else if tag.toNat = lzEnc.toNat then decodeLz len i (st.skip 9)
        else if tag.toNat = sameEnc.toNat then decodeSame len i (st.skip 9)
        else if tag.toNat = frameEnc.toNat then decodeFrame len count i (st.skip 9)
        else fail (.invalid s!"block encoding {tag.toNat}")) ∧
      (st.skip 9).reader.rest = rest := by
  rw [append_assoc] at hrest
  obtain ⟨hfirst, hrest₁⟩ := number_spec (show i < 256 ^ 8 by omega) hrest
  have hbyte : [tag] = leBytes 1 tag.toNat := by
    simp [leBytes]
  rw [hbyte] at hrest₁
  obtain ⟨htag, hrest₂⟩ := number_spec (show tag.toNat < 256 ^ 1 from tag.toNat_lt) hrest₁
  rw [Decoder.skip_skip] at htag hrest₂
  refine ⟨?_, hrest₂⟩
  rw [decodeEntry, hfirst, ok_bind]
  dsimp only
  rw [htag, ok_bind]

theorem Consumed.head {bytes : List Byte} {next : Decoder} (tag : Byte)
    (hconsumed : Consumed (st.skip 9) bytes next) :
    Consumed st (leBytes 8 i ++ [tag] ++ bytes) next := by
  rw [Consumed, Decoder.skip_skip] at hconsumed
  rw [Consumed, hconsumed, length_append, length_append, length_leBytes, length_singleton]

variable {cover' : Cover}

theorem decodeEntry_spec {entry : Entry} {count : ℕ} (hstep : Step data cover entry cover')
    (hholds : Holds data cover st) (hrest : st.reader.rest = entry.bytes ++ tail)
    (hcount : cover'.done.length ≤ count) (hbound : data.length < 2 ^ 64) :
    ∃ next, decodeEntry data.length count st = .ok next ∧ Holds data cover' next ∧
      Consumed st entry.bytes next := by
  have hword : ∀ {k}, k < blockCount data.length → k < 2 ^ 64 := by
    intro k hk
    have := lt_of_lt_blockCount hk
    rw [show blockSize = 4096 from rfl] at this
    omega
  have hskip := hholds.skip 9
  cases hstep with
  | @raw i hfree hafter =>
    rw [Entry.bytes, append_assoc] at hrest
    obtain ⟨hdispatch, hrest'⟩ := decodeEntry_head data.length count (hword hfree.1) hrest
    obtain ⟨next, hrun, hnext, hconsumed⟩ := decodeRaw_spec hskip hfree hafter hrest'
    exact ⟨next, hdispatch.trans hrun, hnext, hconsumed.head rawEnc⟩
  | @lz i packed hfree hafter hshort hpacked =>
    obtain ⟨hdispatch, hrest'⟩ := decodeEntry_head data.length count (hword hfree.1) hrest
    obtain ⟨next, hrun, hnext, hconsumed⟩ := decodeLz_spec hskip hfree hafter hshort hpacked hrest'
    refine ⟨next, hdispatch.trans hrun, hnext, ?_⟩
    exact hconsumed.head lzEnc
  | @same i j hfree hback hdone hequal =>
    obtain ⟨hdispatch, hrest'⟩ := decodeEntry_head data.length count (hword hfree.1) hrest
    have hsource : j < 2 ^ 64 := hword (hback.trans hfree.1)
    obtain ⟨next, hrun, hnext, hconsumed⟩ :=
      decodeSame_spec hskip hfree hback hdone hequal hsource hrest'
    exact ⟨next, hdispatch.trans hrun, hnext, hconsumed.head sameEnc⟩
  | @frame head others packed hfree hafter hsorted hlength hshort hpacked =>
    have hbytes : (Entry.frame head others packed).bytes =
        leBytes 8 head ++ [frameEnc] ++ (leBytes 2 (others.length + 1) ++
          others.flatMap (leBytes 8) ++ leBytes 4 packed.length ++ packed) := by
      simp [Entry.bytes]
    rw [hbytes, append_assoc] at hrest
    obtain ⟨hdispatch, hrest'⟩ := decodeEntry_head data.length count
      (hword (hfree head mem_cons_self).1) hrest
    obtain ⟨next, hrun, hnext, hconsumed⟩ := decodeFrame_spec hskip
      ⟨hfree, hafter, hsorted⟩ hlength (by simpa using hcount)
      (fun k hk => hword (hfree k (mem_cons_of_mem _ hk)).1) hshort hpacked hrest'
    refine ⟨next, hdispatch.trans hrun, hnext, ?_⟩
    exact hconsumed.head frameEnc

theorem Step.grows {entry : Entry} (hstep : Step data cover entry cover') :
    cover.done.length < cover'.done.length := by
  cases hstep <;> simp

theorem Run.grows {entries : List Entry} (hrun : Run data cover entries cover') :
    cover.done.length ≤ cover'.done.length := by
  induction hrun with
  | nil cover => exact le_rfl
  | cons hstep _ ih => exact hstep.grows.le.trans ih

/-- The decoder accepts every run. -/
theorem decodeLoop_spec {entries : List Entry} {fuel : ℕ} (hbound : data.length < 2 ^ 64)
    (hrun : Run data cover entries cover') (hholds : Holds data cover st)
    (hrest : st.reader.rest = entries.flatMap Entry.bytes ++ tail)
    (hfuel : cover'.done.length ≤ cover.done.length + fuel) :
    ∃ next, decodeLoop data.length cover'.done.length fuel st = .ok next ∧
      Holds data cover' next ∧ Consumed st (entries.flatMap Entry.bytes) next := by
  induction hrun generalizing st fuel with
  | nil cover =>
    have hdone : ¬st.covered < cover.done.length := by
      rw [hholds.covered]
      exact lt_irrefl _
    refine ⟨st, ?_, hholds, rfl⟩
    cases fuel with
    | zero => rw [decodeLoop, if_neg hdone]
    | succ fuel => rw [decodeLoop, if_neg hdone]
  | @cons cover middle final entry entries hstep hrun' ih =>
    have hgrows := hstep.grows
    have hmore := hrun'.grows
    obtain ⟨fuel, rfl⟩ : ∃ left, fuel = left + 1 := ⟨fuel - 1, by omega⟩
    rw [flatMap_cons, append_assoc] at hrest
    obtain ⟨st₁, hentry, hholds₁, hconsumed⟩ := decodeEntry_spec hstep hholds hrest hmore hbound
    have hrest₁ : st₁.reader.rest = entries.flatMap Entry.bytes ++ tail := by
      rw [hconsumed]
      exact (take_spec hrest).2
    obtain ⟨next, hloop, hnext, hconsumed'⟩ :=
      ih hholds₁ hrest₁ (show final.done.length ≤ middle.done.length + fuel by omega)
    refine ⟨next, ?_, hnext, ?_⟩
    · rw [decodeLoop, if_pos (by rw [hholds.covered]; omega), hentry, ok_bind, hloop]
    · rw [Consumed] at hconsumed hconsumed' ⊢
      rw [hconsumed']
      simp only [Decoder.skip, flatMap_cons, length_append] at hconsumed ⊢
      rw [hconsumed, Nat.add_assoc]

end Entries

/-! ## Round trip -/

/-- Once the non-zero blocks are stored, the target is the data. -/
theorem Stored.eq (hstored : Stored data done st) (hdone : ∀ i, i ∈ done ↔ i ∈ present data) :
    st.target = data := by
  apply ext_getElem?
  intro p
  by_cases hp : p < data.length
  · rw [hstored.target p hp]
    split_ifs with hcovered
    · rfl
    · -- the block is absent, so all its bytes are zero
      set i := p / blockSize with hi
      obtain ⟨hlow, hhigh⟩ := div_blockSize_eq.mp hi.symm
      have hinside : i < blockCount data.length := by
        simp only [blockCount, show blockSize = 4096 from rfl] at hlow ⊢
        omega
      have hbyte : data[p] ∈ block data i := by
        refine @mem_of_getElem? _ _ (p - i * blockSize) _ ?_
        rw [block, getElem?_slice, if_pos (by omega), Nat.add_sub_cancel' hlow,
          List.getElem?_eq_getElem hp]
      have hzero : data[p] = 0 := by
        by_contra hne
        exact hcovered ((hdone i).mpr (mem_present.mpr ⟨hinside, data[p], hbyte, hne⟩))
      rw [List.getElem?_eq_getElem hp, hzero]
  · rw [List.getElem?_eq_none (by rw [hstored.length]; omega), List.getElem?_eq_none (by omega)]

/-- Decoding what `encode` emitted for `data`, whatever follows it, into a
zeroed buffer succeeds, uses up exactly the emitted bytes and gives the data
back; the blocks visited are the non-zero ones, each once. -/
theorem decode_encode (level : Level) (data : List Byte) (hbound : data.length < 2 ^ 64) :
    ∃ chunks, encode level data = .ok chunks ∧ ∀ more : List Byte,
      ∃ st, decode (Reader.new (chunks.flatten ++ more)) data.length
          (List.replicate data.length 0) = .ok st ∧
        st.target = data ∧
        st.reader = ⟨chunks.flatten ++ more, chunks.flatten.length⟩ ∧
        ∀ i, st.visited.count i =
          if i < blockCount data.length ∧ ∃ b ∈ block data i, b ≠ 0 then 1 else 0 := by
  obtain ⟨chunks, entries, cover, hencode, hflatten, hrun, hperm⟩ := encode_spec level data
  refine ⟨chunks, hencode, fun more => ?_⟩
  set start : Decoder := ⟨Reader.new (chunks.flatten ++ more),
    List.replicate data.length 0, fun _ => false, none, [], 0, []⟩ with hstart
  have hblocks : (present data).length ≤ blockCount data.length := by
    calc
      (present data).length ≤ (List.range (blockCount data.length)).length :=
        length_filter_le _ _
      _ = blockCount data.length := length_range
  have hcountWord : blockCount data.length < 2 ^ 64 := by
    simp only [blockCount, show blockSize = 4096 from rfl]
    omega
  have hrest : start.reader.rest = leBytes 8 data.length ++
      (leBytes 8 (present data).length ++ (entries.flatMap Entry.bytes ++ more)) := by
    simp [hstart, Reader.rest, Reader.new, hflatten]
  obtain ⟨hlen, hrest₁⟩ := number_spec (show data.length < 256 ^ 8 by omega) hrest
  obtain ⟨hcount, hrest₂⟩ := number_spec (show (present data).length < 256 ^ 8 by omega) hrest₁
  have hholds : Holds data ⟨[], none⟩ (start.skip (8 + 8)) := by
    refine ⟨⟨fun i => by simp [hstart, Decoder.skip], rfl⟩, ⟨?_, ?_, rfl⟩, rfl⟩
    · simp [hstart, Decoder.skip]
    · intro p hp
      simp [hstart, Decoder.skip, hp]
  obtain ⟨st, hloop, hfinal, hconsumed⟩ := decodeLoop_spec hbound hrun hholds hrest₂
    (show cover.done.length ≤ 0 + (present data).length by rw [hperm.length_eq]; omega)
  refine ⟨st, ?_, hfinal.stored.eq fun i => hperm.mem_iff, ?_, ?_⟩
  · rw [decode]
    simp only [← hstart, hlen, ok_bind]
    rw [if_neg (by simp), hcount, ok_bind]
    rw [if_neg (by omega), ← hperm.length_eq]
    rw [hperm.length_eq] at hloop ⊢
    exact hloop
  · rw [hconsumed]
    simp [hstart, Decoder.skip, Reader.new, hflatten]
    omega
  · intro i
    have hnodup : (present data).Nodup := (pairwise_present data).imp fun hlt => hlt.ne
    rw [hfinal.stored.visited, hperm.count_eq, hnodup.count]
    simp only [mem_present]

theorem decode_encode_hello : ∃ chunks, encode .small [104, 101, 108, 108, 111] = .ok chunks ∧
    ∃ st, decode (Reader.new (chunks.flatten ++ [])) 5 [0, 0, 0, 0, 0] = .ok st ∧
      st.target = [104, 101, 108, 108, 111] := by
  obtain ⟨chunks, hencode, hdecode⟩ := decode_encode .small [104, 101, 108, 108, 111] (by decide)
  obtain ⟨st, hst, htarget, _⟩ := hdecode []
  exact ⟨chunks, hencode, st, hst, htarget⟩

end Vetro.Blocks
