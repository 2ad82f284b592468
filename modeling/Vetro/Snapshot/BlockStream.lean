import Vetro.Snapshot.Writer

/-!
# Blocks from a stream

`vetro-snapshot/src/deferred.rs`, the output and the block encoder of the
assembler.  The output is written in large pieces, with patches and reads that
may fall in the part not yet written; what it stands for is one list of bytes.
`BlockStream` is `blocks::encode` at `Level::Fast` one block at a time: it
receives the data cut anyhow and compares a block with an earlier one by
reading the earlier one back from the output.
-/

namespace Vetro.Save

open Function List
open Bytes
open Splice
open Outcome
open Format
open Blocks (block blockCount present)

/-! ## Output -/

/-- `Out::write_at` of a vector: it grows with zeros up to the end of the
write. -/
def writeOut (out : List Byte) (start : ℕ) (bytes : List Byte) : List Byte :=
  writeGrow 0 out start bytes

/-- `Out::read_at` of a vector. -/
def readOut (out : List Byte) (start len : ℕ) : Result Error (List Byte) :=
  if start + len ≤ out.length then .ok (slice out start (start + len)) else fail .truncated

/-- Output written in large pieces: the bytes not yet written, their position in
the file, and the file. -/
structure Buffered where
  buf : List Byte
  start : ℕ
  out : List Byte

def flushLen : ℕ := 2 ^ 20

namespace Buffered

def pos (o : Buffered) : ℕ := o.start + o.buf.length

def flush (o : Buffered) : Buffered :=
  if o.buf = [] then o
  else ⟨[], o.start + o.buf.length, writeOut o.out o.start o.buf⟩

def put (o : Buffered) (b : List Byte) : Buffered :=
  let o := { o with buf := o.buf ++ b }
  if flushLen ≤ o.buf.length then o.flush else o

def patch (o : Buffered) (start : ℕ) (b : List Byte) : Result Error Buffered :=
  if o.start ≤ start then do
    require (start - o.start + b.length ≤ o.buf.length)
    .ok { o with buf := writeAt o.buf (start - o.start) b }
  else if start + b.length ≤ o.start then
    .ok { o with out := writeOut o.out start b }
  else
    let o := o.flush
    .ok { o with out := writeOut o.out start b }

def read (o : Buffered) (start len : ℕ) : Result Error (List Byte × Buffered) :=
  if start < o.start then do
    let o := o.flush
    let bytes ← readOut o.out start len
    .ok (bytes, o)
  else if start - o.start + len ≤ o.buf.length then
    .ok (slice o.buf (start - o.start) (start - o.start + len), o)
  else fail .truncated

/-- The output stands for `content`, which starts after the file's header. -/
structure Holds (o : Buffered) (content : List Byte) : Prop where
  content_eq : o.out.drop headerLen ++ o.buf = content
  start_eq : o.start = headerLen + (o.out.length - headerLen)
  header : o.out = [] ∨ headerLen ≤ o.out.length

variable {o : Buffered} {content : List Byte}

variable (hholds : Holds o content)
include hholds

theorem Holds.length : content.length = o.out.length - headerLen + o.buf.length := by
  rw [← hholds.content_eq, length_append, length_drop]

theorem Holds.pos : o.pos = headerLen + content.length := by
  rw [Buffered.pos, hholds.start_eq, hholds.length, Nat.add_assoc]

omit hholds in
/-- Writing at the end of the content appends to the file. -/
theorem drop_writeOut_end {out : List Byte} (bytes : List Byte)
    (hheader : out = [] ∨ headerLen ≤ out.length) :
    (writeOut out (headerLen + (out.length - headerLen)) bytes).drop headerLen =
        out.drop headerLen ++ bytes ∧
      (writeOut out (headerLen + (out.length - headerLen)) bytes).length =
        headerLen + (out.length - headerLen) + bytes.length := by
  have happend : ∀ left : List Byte, left.length = headerLen + (out.length - headerLen) →
      writeAt (left ++ List.replicate bytes.length 0)
        (headerLen + (out.length - headerLen)) bytes = left ++ bytes := by
    intro left hleft
    have hmiddle := writeAt_middle left (List.replicate bytes.length 0) [] bytes (by simp)
    rwa [append_nil, append_nil, hleft] at hmiddle
  rcases hheader with rfl | hlong
  · have hgrow : writeOut [] (headerLen + (([] : List Byte).length - headerLen)) bytes =
        List.replicate headerLen 0 ++ bytes := by
      rw [writeOut, writeGrow, nil_append, length_nil, Nat.zero_sub, Nat.add_zero, Nat.sub_zero,
        replicate_add]
      exact happend _ (by simp)
    rw [hgrow]
    simp
  · have hgrow : writeOut out (headerLen + (out.length - headerLen)) bytes = out ++ bytes := by
      rw [writeOut, writeGrow,
        show headerLen + (out.length - headerLen) + bytes.length - out.length =
        bytes.length by omega]
      exact happend out (by omega)
    rw [hgrow, drop_append_of_le_length hlong, length_append]
    exact ⟨rfl, by omega⟩

theorem Holds.flush : Holds o.flush content ∧ o.flush.buf = [] := by
  rw [Buffered.flush]
  split_ifs with hempty
  · exact ⟨hholds, hempty⟩
  · obtain ⟨hdrop, hlength⟩ := drop_writeOut_end o.buf hholds.header
    rw [← hholds.start_eq] at hdrop hlength
    have hstart := hholds.start_eq
    refine ⟨⟨?_, ?_, .inr ?_⟩, rfl⟩
    · rw [hdrop, append_nil, hholds.content_eq]
    · simp only [hlength]
      omega
    · simp only [hlength]
      omega

theorem Holds.put (b : List Byte) : Holds (o.put b) (content ++ b) := by
  have hmore : Holds { o with buf := o.buf ++ b } (content ++ b) :=
    ⟨by rw [← append_assoc, hholds.content_eq], hholds.start_eq, hholds.header⟩
  simp only [Buffered.put]
  split_ifs
  · exact hmore.flush.1
  · exact hmore

/-- Overwriting a part of the content that is already in the file. -/
theorem Holds.overwrite {k : ℕ} {b : List Byte} (hfits : headerLen + k + b.length ≤ o.out.length) :
    Holds { o with out := writeOut o.out (headerLen + k) b } (writeAt content k b) := by
  have hwrite : writeOut o.out (headerLen + k) b = writeAt o.out (headerLen + k) b := by
    rw [writeOut, writeGrow, Nat.sub_eq_zero_of_le hfits, replicate_zero, append_nil]
  have hlength := length_writeAt hfits
  have htake : (o.out.take headerLen).length = headerLen := by
    rw [length_take]
    omega
  have hsplit := writeAt_append_right (o.out.take headerLen) (o.out.drop headerLen) b k
  rw [take_append_drop, htake] at hsplit
  refine ⟨?_, ?_, ?_⟩
  · rw [hwrite, hsplit, ← hholds.content_eq, drop_left' htake,
      writeAt_append_left (by rw [length_drop]; omega)]
  · rw [hwrite, hlength]
    exact hholds.start_eq
  · rw [hwrite, hlength]
    exact .inr (by omega)

theorem Holds.patch {k : ℕ} {b : List Byte} (hfits : k + b.length ≤ content.length) :
    ∃ next, o.patch (headerLen + k) b = .ok next ∧ Holds next (writeAt content k b) := by
  have hlength := hholds.length
  have hstart := hholds.start_eq
  rw [Buffered.patch]
  split_ifs with hbuffered hwritten
  · have hoffset : k = (o.out.drop headerLen).length + (headerLen + k - o.start) := by
      rw [length_drop]
      omega
    rw [require_eq_ok (by omega), ok_bind]
    refine ⟨_, rfl, ?_, hholds.start_eq, hholds.header⟩
    rw [← hholds.content_eq, ← writeAt_append_right, ← hoffset]
  · refine ⟨_, rfl, hholds.overwrite ?_⟩
    rcases hholds.header with hnone | hlong
    · simp only [hnone, length_nil] at hstart
      omega
    · omega
  · obtain ⟨hflush, hempty⟩ := hholds.flush
    refine ⟨_, rfl, hflush.overwrite ?_⟩
    have hafter := hflush.length
    rw [hempty, length_nil] at hafter
    rcases hflush.header with hnone | hlong
    · rw [hnone, length_nil] at hafter
      omega
    · omega

theorem Holds.readOut (hempty : o.buf = []) {k len : ℕ} (hfits : k + len ≤ content.length)
    (hlen : 0 < len) : readOut o.out (headerLen + k) len = .ok (slice content k (k + len)) := by
  have hlength := hholds.length
  rw [hempty, length_nil] at hlength
  have hcontent := hholds.content_eq
  rw [hempty, append_nil] at hcontent
  rw [Save.readOut, if_pos (by omega), ← hcontent, slice, slice, drop_drop]
  congr 2
  omega

theorem Holds.read {k len : ℕ} (hfits : k + len ≤ content.length) (hlen : 0 < len) :
    ∃ next, o.read (headerLen + k) len = .ok (slice content k (k + len), next) ∧
      Holds next content := by
  have hlength := hholds.length
  have hstart := hholds.start_eq
  rw [Buffered.read]
  split_ifs with hwritten hbuffered
  · obtain ⟨hflush, hempty⟩ := hholds.flush
    refine ⟨_, ?_, hflush⟩
    simp only [hflush.readOut hempty hfits hlen, ok_bind]
  · refine ⟨_, ?_, hholds⟩
    have hoffset : k = (o.out.drop headerLen).length + (headerLen + k - o.start) := by
      rw [length_drop]
      omega
    have hslice := slice_append_right (o.out.drop headerLen) o.buf
      (headerLen + k - o.start) (headerLen + k - o.start + len)
    rw [← Nat.add_assoc, ← hoffset, hholds.content_eq] at hslice
    rw [hslice]
  · omega

end Buffered

/-! ## Blocks -/

/-- Where the first block with a hash is: its index, the file position of its
bytes, and their length if compressed (0: raw). -/
structure First where
  index : ℕ
  start : ℕ
  lz : ℕ

/-- `blocks::encode` at `Level::Fast` one block at a time: the bytes still to
come, the next block and its bytes so far, the number of blocks written and
where it goes, the first block with each hash, and the working memory. -/
structure BlockStream where
  len : ℕ
  left : ℕ
  index : ℕ
  block : List Byte
  count : ℕ
  countAt : ℕ
  first : UInt64 → Option First
  table : Lz.Table
  other : List Byte

namespace BlockStream

def start (o : Buffered) (len : ℕ) : BlockStream × Buffered :=
  let o := o.put (leBytes 8 len)
  let countAt := o.pos
  let o := o.put (leBytes 8 0)
  (⟨len, len, 0, [], 0, countAt, fun _ => none, Lz.Table.new,
    List.replicate blockSize 0⟩, o)

def blockLen (stream : BlockStream) (i : ℕ) : Result Error ℕ := do
  require (i * blockSize ≤ stream.len)
  .ok (min (stream.len - i * blockSize) blockSize)

/-- True if the earlier block `f` has the bytes `b` (read back from the
output). -/
def same (stream : BlockStream) (o : Buffered) (f : First) (b : List Byte) :
    Result Error (Bool × BlockStream × Buffered) := do
  require (b.length ≤ stream.other.length)
  if f.lz = 0 then do
    let (bytes, o) ← o.read f.start b.length
    let other := writeAt stream.other 0 bytes
    .ok (other.take b.length == b, { stream with other }, o)
  else do
    let (packed, o) ← o.read f.start f.lz
    let bytes ← Lz.decompress packed (stream.other.take b.length)
    let other := writeAt stream.other 0 bytes
    .ok (other.take b.length == b, { stream with other }, o)

/-- The guard of a repeated block: the same length and the same bytes. -/
def repeats (stream : BlockStream) (o : Buffered) (f : First) (b : List Byte) :
    Result Error (Bool × BlockStream × Buffered) := do
  let n ← stream.blockLen f.index
  if n = b.length then stream.same o f b else .ok (false, stream, o)

/-- Where the bytes of block `i` are is noted if it is the first one with its
hash. -/
def note (first : UInt64 → Option First) (h : UInt64) (i : ℕ) (f : First) : UInt64 → Option First :=
  fun k => if k = h ∧ (first h).map First.index = some i then some f else first k

/-- Block `i` with new contents. -/
def fresh (stream : BlockStream) (o : Buffered) (i : ℕ) (b : List Byte) (h : UInt64) :
    BlockStream × Buffered :=
  let o := o.put (leBytes 8 i)
  let (scratch, table) := Lz.compress b stream.table
  if scratch.length < b.length then
    let o := (o.put [1]).put (leBytes 4 scratch.length)
    ({ stream with table, first := note stream.first h i ⟨i, o.pos, scratch.length⟩ },
      o.put scratch)
  else
    let o := o.put [0]
    ({ stream with table, first := note stream.first h i ⟨i, o.pos, 0⟩ }, o.put b)

/-- Block `stream.index` with bytes `b`. -/
def one (stream : BlockStream) (o : Buffered) (b : List Byte) :
    Result Error (BlockStream × Buffered) :=
  let i := stream.index
  let stream := { stream with index := i + 1 }
  if isZero b then .ok (stream, o)
  else
    let stream := { stream with count := stream.count + 1 }
    let h := hash64 b
    match stream.first h with
    | some f => do
      let (equal, stream, o) ← stream.repeats o f b
      if equal then
        .ok (stream, ((o.put (leBytes 8 i)).put [2]).put (leBytes 8 f.index))
      else .ok (stream.fresh o i b h)
    | none => .ok (fresh { stream with first := update stream.first h (some ⟨i, 0, 0⟩) }
      o i b h)

/-- A block that was collected from several pieces. -/
def collected (stream : BlockStream) (o : Buffered) (want : ℕ) :
    Result Error (BlockStream × Buffered) :=
  if stream.block.length = want then do
    let (stream, o) ← stream.one o stream.block
    .ok ({ stream with block := [] }, o)
  else .ok (stream, o)

/-- The loop of `feed`.  A turn takes bytes of the data or is the last one
before a panic, so the data's length bounds the turns. -/
def feedLoop : ℕ → BlockStream → Buffered → List Byte → Result Error (BlockStream × Buffered)
  | 0, stream, o, data => if data = [] then .ok (stream, o) else hang
  | fuel + 1, stream, o, data =>
    if data = [] then .ok (stream, o)
    else do
      let want ← stream.blockLen stream.index
      if stream.block = [] ∧ want ≤ data.length then do
        let (stream, o) ← stream.one o (data.take want)
        feedLoop fuel stream o (data.drop want)
      else do
        require (stream.block.length ≤ want)
        let k := min (want - stream.block.length) data.length
        let stream := { stream with block := stream.block ++ data.take k }
        let (stream, o) ← stream.collected o want
        feedLoop fuel stream o (data.drop k)

/-- Takes up to the end of the data from `data`; returns how many bytes. -/
def feed (stream : BlockStream) (o : Buffered) (data : List Byte) :
    Result Error (ℕ × BlockStream × Buffered) := do
  let n := min data.length stream.left
  let (stream, o) ← feedLoop (n + 2) { stream with left := stream.left - n } o (data.take n)
  .ok (n, stream, o)

def finish (stream : BlockStream) (o : Buffered) : Result Error Buffered :=
  o.patch stream.countAt (leBytes 8 stream.count)

end BlockStream

/-! ## Blocks as `blocks::encode` writes them -/

/-- The blocks before `i` that are not zero. -/
def before (data : List Byte) (i : ℕ) : List ℕ :=
  (List.range i).filter fun k => !isZero (block data k)

variable {data : List Byte} {i : ℕ}

theorem before_succ_zero (hzero : isZero (block data i) = true) :
    before data (i + 1) = before data i := by
  simp [before, range_succ, hzero]

theorem before_succ (hnonzero : isZero (block data i) = false) :
    before data (i + 1) = before data i ++ [i] := by
  simp [before, range_succ, hnonzero]

/-- The bytes of block `f` are in the content, as they are or compressed. -/
structure Located (data content : List Byte) (f : First) : Prop where
  inside : f.index * blockSize ≤ data.length
  raw : f.lz = 0 → ∃ k, f.start = headerLen + k ∧
    k + (block data f.index).length ≤ content.length ∧
    slice content k (k + (block data f.index).length) = block data f.index
  packed : f.lz ≠ 0 → ∃ k, f.start = headerLen + k ∧ k + f.lz ≤ content.length ∧
    ∀ dst : List Byte, dst.length = (block data f.index).length →
      Lz.decompress (slice content k (k + f.lz)) dst = .ok (block data f.index)

theorem Located.append {content : List Byte} {f : First} (hlocated : Located data content f)
    (more : List Byte) : Located data (content ++ more) f := by
  refine ⟨hlocated.inside, fun hlz => ?_, fun hlz => ?_⟩
  · obtain ⟨k, hstart, hfits, hslice⟩ := hlocated.raw hlz
    refine ⟨k, hstart, ?_, by rw [slice_append_of_le hfits, hslice]⟩
    rw [length_append]
    omega
  · obtain ⟨k, hstart, hfits, hpacked⟩ := hlocated.packed hlz
    refine ⟨k, hstart, ?_, by rwa [slice_append_of_le hfits]⟩
    rw [length_append]
    omega

/-- A block as it is at the end of the content. -/
theorem located_raw {head : List Byte} (hinside : i * blockSize ≤ data.length) :
    Located data (head ++ block data i) ⟨i, headerLen + head.length, 0⟩ := by
  refine ⟨hinside, fun _ => ⟨head.length, rfl, ?_, ?_⟩, fun hpacked => absurd rfl hpacked⟩
  · rw [length_append]
  · simpa using slice_middle head (block data i) []

/-- A compressed block at the end of the content. -/
theorem located_packed {head packed : List Byte} (hinside : i * blockSize ≤ data.length)
    (hsome : packed.length ≠ 0) (hround : ∀ dst : List Byte, dst.length = (block data i).length →
      Lz.decompress packed dst = .ok (block data i)) :
    Located data (head ++ packed) ⟨i, headerLen + head.length, packed.length⟩ := by
  refine ⟨hinside, fun hraw => absurd hraw hsome,
    fun _ => ⟨head.length, rfl, ?_, fun dst hdst => ?_⟩⟩
  · rw [length_append]
  · have hslice := slice_middle head packed []
    rw [append_nil] at hslice
    rw [hslice]
    exact hround dst hdst

/-- The stream has written what `encode` at `Level::Fast` has written after the
same blocks, with the number of blocks left open. -/
structure Mirrors (data base content : List Byte) (stream : BlockStream)
    (st : Blocks.State) : Prop where
  encodes : Blocks.encodeLoop .fast data (before data stream.index)
    (Blocks.State.start data) = .ok st
  len : stream.len = data.length
  other : stream.other.length = blockSize
  count : stream.count = (before data stream.index).length
  countAt : stream.countAt = headerLen + (base.length + 8)
  bytes : ∃ entries, content = base ++ leBytes 8 data.length ++ leBytes 8 0 ++ entries ∧
    st.out.bytes = leBytes 8 data.length ++ leBytes 8 (present data).length ++ entries
  table : stream.table = st.table
  frame : st.frame = []
  first : ∀ h, st.first h = (stream.first h).map First.index
  located : ∀ h f, stream.first h = some f →
    f.index < stream.index ∧ Located data content f

theorem take_writeAt_zero {list bytes : List Byte} (hfits : bytes.length ≤ list.length) :
    (writeAt list 0 bytes).take bytes.length = bytes := by
  have hslice := slice_writeAt_same (show 0 + bytes.length ≤ list.length by omega)
  rwa [Nat.zero_add, slice_zero] at hslice

section Encoding

variable {data base content b : List Byte} {stream : BlockStream} {o : Buffered}
  {st : Blocks.State} {f : First} {i : ℕ}

theorem same_spec (hlocated : Located data content f) (hholds : o.Holds content)
    (hother : stream.other.length = blockSize) (hlength : (block data f.index).length = b.length)
    (hpos : 0 < b.length) :
    ∃ other next, stream.same o f b =
        .ok (block data f.index == b, { stream with other }, next) ∧
      other.length = blockSize ∧ next.Holds content := by
  have hshort : (block data f.index).length ≤ stream.other.length := by
    rw [hother, Blocks.length_block]
    omega
  have htake := take_writeAt_zero hshort
  have hkeep := length_writeAt (show 0 + (block data f.index).length ≤ stream.other.length by omega)
  rw [hlength] at htake
  rw [BlockStream.same, require_eq_ok (by omega), ok_bind]
  split_ifs with hlz
  · obtain ⟨k, hstart, hfits, hslice⟩ := hlocated.raw hlz
    rw [hlength] at hfits hslice
    obtain ⟨next, hread, hnext⟩ := hholds.read hfits hpos
    rw [hslice] at hread
    refine ⟨_, next, ?_, hkeep.trans hother, hnext⟩
    simp only [hstart, hread, ok_bind, htake]
  · obtain ⟨k, hstart, hfits, hpacked⟩ := hlocated.packed hlz
    obtain ⟨next, hread, hnext⟩ := hholds.read hfits (Nat.pos_of_ne_zero hlz)
    have hdecompress := hpacked (stream.other.take b.length) (by
      rw [length_take, hlength]
      omega)
    refine ⟨_, next, ?_, hkeep.trans hother, hnext⟩
    simp only [hstart, hread, ok_bind, hdecompress, htake]

theorem repeats_spec (hlocated : Located data content f) (hholds : o.Holds content)
    (hlen : stream.len = data.length) (hother : stream.other.length = blockSize)
    (hpos : 0 < b.length) :
    ∃ other next, stream.repeats o f b =
        .ok (block data f.index == b, { stream with other }, next) ∧
      other.length = blockSize ∧ next.Holds content := by
  have hwant : stream.blockLen f.index = .ok (block data f.index).length := by
    rw [BlockStream.blockLen, hlen, require_eq_ok hlocated.inside, ok_bind,
      Blocks.length_block, Nat.min_comm]
  rw [BlockStream.repeats, hwant, ok_bind]
  split_ifs with hlength
  · exact same_spec hlocated hholds hother hlength hpos
  · have hdifferent : (block data f.index == b) = false := by
      rw [beq_eq_false_iff_ne]
      exact fun hequal => hlength (congrArg List.length hequal)
    exact ⟨stream.other, o, by rw [hdifferent], hother, hholds⟩

/-- A compressed block is not empty. -/
theorem compress_ne_nil (table : Lz.Table) (hpos : 0 < b.length) (hbound : b.length < 2 ^ 63) :
    (Lz.compress b table).1.length ≠ 0 := by
  intro hnone
  have hdecompress := Lz.decompress_compress table hbound (Eq.refl b.length)
  rw [length_eq_zero_iff.mp hnone, Lz.decompress, Lz.decompressLoop] at hdecompress
  simp [hpos.ne, fail] at hdecompress

theorem fresh_spec (hholds : o.Holds content) (htable : stream.table = st.table)
    (hinside : i * blockSize ≤ data.length) (hpos : 0 < (block data i).length) (h : UInt64) :
    ∃ entry note table out next, note.index = i ∧ Located data (content ++ entry) note ∧
      stream.fresh o i (block data i) h =
        ({ stream with table, first := BlockStream.note stream.first h i note }, next) ∧
      next.Holds (content ++ entry) ∧
      st.fresh .fast data i = .ok { st with table, out } ∧
      out.bytes = st.out.bytes ++ entry := by
  have hbound : (block data i).length < 2 ^ 63 := by
    rw [Blocks.length_block, show blockSize = 4096 from rfl]
    omega
  have hround := fun dst => @Lz.decompress_compress (block data i) dst st.table hbound
  have hsome := compress_ne_nil st.table hpos hbound
  have hindex := hholds.put (leBytes 8 i)
  obtain ⟨scratch, table, hcompress⟩ : ∃ scratch table,
      Lz.compress (block data i) st.table = (scratch, table) := ⟨_, _, rfl⟩
  rw [hcompress] at hround hsome
  by_cases hsmall : scratch.length < (block data i).length
  · have hhead := (hindex.put [1]).put (leBytes 4 scratch.length)
    have hwhole : content ++ (leBytes 8 i ++ [1] ++ leBytes 4 scratch.length ++ scratch) =
        content ++ leBytes 8 i ++ [1] ++ leBytes 4 scratch.length ++ scratch := by
      simp
    refine ⟨leBytes 8 i ++ [1] ++ leBytes 4 scratch.length ++ scratch, _, table,
      ((((st.out.u64 i).raw [Blocks.lzEnc]).raw (leBytes 4 scratch.length)).raw
        scratch).maybeFlush,
      (((o.put (leBytes 8 i)).put [1]).put (leBytes 4 scratch.length)).put scratch, rfl,
      hwhole ▸ located_packed hinside hsome hround, ?_, hwhole ▸ hhead.put scratch, ?_, ?_⟩
    · simp only [BlockStream.fresh, htable, hcompress, if_pos hsmall, hhead.pos]
    · simp only [Blocks.State.fresh, hcompress, if_pos hsmall]
    · simp [Blocks.lzEnc]
  · have hhead := hindex.put [0]
    have hwhole : content ++ (leBytes 8 i ++ [0] ++ block data i) =
        content ++ leBytes 8 i ++ [0] ++ block data i := by
      simp
    refine ⟨leBytes 8 i ++ [0] ++ block data i, _, table,
      (((st.out.u64 i).raw [Blocks.rawEnc]).raw (block data i)).maybeFlush,
      ((o.put (leBytes 8 i)).put [0]).put (block data i), rfl,
      hwhole ▸ located_raw hinside, ?_, hwhole ▸ hhead.put (block data i), ?_, ?_⟩
    · simp only [BlockStream.fresh, htable, hcompress, if_neg hsmall, hhead.pos]
    · simp only [Blocks.State.fresh, hcompress, if_neg hsmall]
    · simp [Blocks.rawEnc]

/-- The stream `next` is the stream after one more block. -/
structure Advanced (data base : List Byte) (stream next : BlockStream) (o : Buffered) :
    Prop where
  mirrors : ∃ content st, o.Holds content ∧ Mirrors data base content next st
  index : next.index = stream.index + 1
  left : next.left = stream.left
  block : next.block = stream.block

theorem encodeLoop_concat {start next : Blocks.State} {blocks : List ℕ}
    (hloop : Blocks.encodeLoop .fast data blocks start = .ok st)
    (hblock : Blocks.encodeBlock .fast data st i = .ok next) :
    Blocks.encodeLoop .fast data (blocks ++ [i]) start = .ok next := by
  induction blocks generalizing start with
  | nil =>
    cases hloop
    simp [Blocks.encodeLoop, hblock]
  | cons head blocks ih =>
    obtain ⟨middle, hhead, hrest⟩ := bind_eq_ok.mp hloop
    simp only [cons_append, Blocks.encodeLoop, hhead, ok_bind]
    exact ih hrest

variable {h : UInt64} {first : UInt64 → Option First}

theorem map_index_note {note : First} (hindex : note.index = i)
    (k : UInt64) :
    (BlockStream.note first h i note k).map First.index = (first k).map First.index := by
  rw [BlockStream.note]
  split_ifs with hmine
  · rw [hmine.1, hmine.2, Option.map_some, hindex]
  · rfl

theorem located_note {note : First} {entry : List Byte}
    (hindex : note.index = i) (hnote : Located data (content ++ entry) note)
    (hfirst : ∀ k f, first k = some f → f.index < i ∧ Located data content f ∨ k = h ∧ f.index = i)
    (k : UInt64) (f : First) (hsome : BlockStream.note first h i note k = some f) :
    f.index < i + 1 ∧ Located data (content ++ entry) f := by
  rw [BlockStream.note] at hsome
  split_ifs at hsome with hmine
  · cases hsome
    exact ⟨by omega, hnote⟩
  · rcases hfirst k f hsome with ⟨hlt, hlocated⟩ | ⟨rfl, hequal⟩
    · exact ⟨by omega, hlocated.append entry⟩
    · exact absurd ⟨rfl, by rw [hsome, Option.map_some, hequal]⟩ hmine

/-- A block with new contents, written by both encoders. -/
theorem fresh_mirrors (first : UInt64 → Option First) {other : List Byte}
    {firstBlock : UInt64 → Option ℕ} (hmirrors : Mirrors data base content stream st)
    (hholds : o.Holds content) (hnonzero : isZero (block data stream.index) = false)
    (hinside : stream.index * blockSize ≤ data.length) (hpos : 0 < (block data stream.index).length)
    (hother : other.length = blockSize) (hfirst : ∀ k, firstBlock k = (first k).map First.index)
    (hlocated : ∀ k f, first k = some f → f.index < stream.index ∧ Located data content f ∨ k = h ∧
      f.index = stream.index)
    (hblock : Blocks.encodeBlock .fast data st stream.index =
      Blocks.State.fresh .fast data { st with first := firstBlock } stream.index) :
    ∃ next o', BlockStream.fresh { stream with
          index := stream.index + 1, count := stream.count + 1, first, other } o stream.index
        (block data stream.index) h = (next, o') ∧
      Advanced data base stream next o' := by
  obtain ⟨entry, note, table, out, o', hindex, hnote, hfresh, hholds', hst, hout⟩ :=
    @fresh_spec data content { stream with
      index := stream.index + 1, count := stream.count + 1, first, other } o
      { st with first := firstBlock } stream.index hholds hmirrors.table hinside hpos h
  refine ⟨_, o', hfresh, ⟨content ++ entry, { st with first := firstBlock, table, out },
    hholds', ?_⟩, rfl, rfl, rfl⟩
  obtain ⟨entries, hcontent, hbytes⟩ := hmirrors.bytes
  exact {
    encodes := by
      rw [before_succ hnonzero]
      exact encodeLoop_concat hmirrors.encodes (hblock.trans hst)
    len := hmirrors.len
    other := hother
    count := by rw [before_succ hnonzero, length_append, ← hmirrors.count]; rfl
    countAt := hmirrors.countAt
    bytes := ⟨entries ++ entry, by rw [hcontent]; simp, by rw [hout, hbytes]; simp⟩
    table := rfl
    frame := hmirrors.frame
    first := fun k => by rw [map_index_note hindex]; exact hfirst k
    located := located_note hindex hnote hlocated }

/-- One block of the stream is one block of `encode`. -/
theorem one_spec (hmirrors : Mirrors data base content stream st) (hholds : o.Holds content)
    (hinside : stream.index < blockCount data.length) :
    ∃ next o', stream.one o (block data stream.index) = .ok (next, o') ∧
      Advanced data base stream next o' := by
  have hstart : stream.index * blockSize < data.length := Blocks.lt_of_lt_blockCount hinside
  have hpos : 0 < (block data stream.index).length := by
    rw [Blocks.length_block]
    exact lt_min (by decide) (Nat.sub_pos_of_lt hstart)
  by_cases hzero : isZero (block data stream.index) = true
  · refine ⟨{ stream with index := stream.index + 1 }, o,
      by simp only [BlockStream.one, if_pos hzero], ⟨content, st, hholds, ?_⟩, rfl, rfl, rfl⟩
    have hbefore := before_succ_zero hzero
    exact ⟨by rw [hbefore]; exact hmirrors.encodes, hmirrors.len, hmirrors.other,
      by rw [hbefore]; exact hmirrors.count, hmirrors.countAt, hmirrors.bytes, hmirrors.table,
      hmirrors.frame, hmirrors.first, fun k f hsome =>
        ⟨Nat.lt_succ_of_lt (hmirrors.located k f hsome).1, (hmirrors.located k f hsome).2⟩⟩
  have hnonzero : isZero (block data stream.index) = false := by simpa using hzero
  set h := hash64 (block data stream.index) with hh
  cases hfirst : stream.first h with
  | none =>
    have hblock : Blocks.encodeBlock .fast data st stream.index =
        Blocks.State.fresh .fast data
          { st with first := update st.first h (some stream.index) } stream.index := by
      simp only [Blocks.encodeBlock, ← hh, hmirrors.first, hfirst, Option.map_none]
    obtain ⟨next, o', hfresh, hadvanced⟩ := fresh_mirrors
      (update stream.first h (some ⟨stream.index, 0, 0⟩)) hmirrors hholds hnonzero hstart.le
      hpos hmirrors.other
      (fun k => by
        simp only [update_apply]
        split_ifs
        · rfl
        · exact hmirrors.first k)
      (fun k f hsome => by
        rw [update_apply] at hsome
        split_ifs at hsome with hk
        · cases hsome
          exact .inr ⟨hk, rfl⟩
        · exact .inl (hmirrors.located k f hsome)) hblock
    refine ⟨next, o', ?_, hadvanced⟩
    simp only [BlockStream.one, if_neg hzero, ← hh, hfirst, hfresh]
  | some f =>
    obtain ⟨hbefore, hlocated⟩ := hmirrors.located h f hfirst
    obtain ⟨other, o₁, hrepeats, hother, hholds₁⟩ :=
      @repeats_spec data content (block data stream.index) { stream with
        index := stream.index + 1, count := stream.count + 1 } o f
        hlocated hholds hmirrors.len hmirrors.other hpos
    have hmatch : st.first h = some f.index := by
      rw [hmirrors.first, hfirst, Option.map_some]
    by_cases hequal : block data f.index = block data stream.index
    · rw [hequal, beq_self_eq_true] at hrepeats
      have hblock : Blocks.encodeBlock .fast data st stream.index =
          .ok { st with out := Blocks.sameEntry st.out stream.index f.index } := by
        simp only [Blocks.encodeBlock, ← hh, hmatch, if_pos hequal, Blocks.State.duplicate,
          if_pos hmirrors.frame]
      have hput := ((hholds₁.put (leBytes 8 stream.index)).put [2]).put (leBytes 8 f.index)
      obtain ⟨entries, hcontent, hbytes⟩ := hmirrors.bytes
      refine ⟨{ stream with index := stream.index + 1, count := stream.count + 1, other }, _,
        by simp only [BlockStream.one, if_neg hzero, ← hh, hfirst, hrepeats, ok_bind, if_true],
        ⟨_, { st with out := Blocks.sameEntry st.out stream.index f.index }, hput, ?_⟩,
        rfl, rfl, rfl⟩
      exact {
        encodes := by
          rw [before_succ hnonzero]
          exact encodeLoop_concat hmirrors.encodes hblock
        len := hmirrors.len
        other := hother
        count := by rw [before_succ hnonzero, length_append, ← hmirrors.count]; rfl
        countAt := hmirrors.countAt
        bytes := ⟨entries ++ leBytes 8 stream.index ++ [2] ++ leBytes 8 f.index,
          by rw [hcontent]; simp,
          by simp [Blocks.sameEntry, hbytes, Blocks.sameEnc]⟩
        table := hmirrors.table
        frame := hmirrors.frame
        first := hmirrors.first
        located := fun k g hsome => by
          obtain ⟨hlt, hg⟩ := hmirrors.located k g hsome
          exact ⟨Nat.lt_succ_of_lt hlt, ((hg.append _).append _).append _⟩ }
    · rw [beq_eq_false_iff_ne.mpr hequal] at hrepeats
      have hblock : Blocks.encodeBlock .fast data st stream.index =
          Blocks.State.fresh .fast data { st with first := st.first } stream.index := by
        simp only [Blocks.encodeBlock, ← hh, hmatch, if_neg hequal]
      obtain ⟨next, o', hfresh, hadvanced⟩ := fresh_mirrors stream.first hmirrors hholds₁
        hnonzero hstart.le hpos hother hmirrors.first
        (fun k g hsome => .inl (hmirrors.located k g hsome)) hblock
      refine ⟨next, o', ?_, hadvanced⟩
      simp only [BlockStream.one, if_neg hzero, ← hh, hfirst, hrepeats, ok_bind,
        Bool.false_eq_true, if_false]
      exact congrArg Except.ok hfresh

/-! ## Pieces of any size -/

/-- The end of block `i`. -/
def blockStop (data : List Byte) (i : ℕ) : ℕ := min (i * blockSize + blockSize) data.length

/-- The stream has taken the first `n` bytes of the data. -/
structure Fed (data base : List Byte) (n : ℕ) (stream : BlockStream) (o : Buffered) :
    Prop where
  mirrors : ∃ content st, o.Holds content ∧ Mirrors data base content stream st
  inside : n ≤ data.length
  block : stream.block = slice data (stream.index * blockSize) n
  position : stream.index * blockSize ≤ n ∧ n < blockStop data stream.index ∨
    n = data.length ∧ stream.index = blockCount data.length

theorem Mirrors.collect (hmirrors : Mirrors data base content stream st) (left : ℕ)
    (bytes : List Byte) :
    Mirrors data base content { stream with left, block := bytes } st :=
  ⟨hmirrors.encodes, hmirrors.len, hmirrors.other, hmirrors.count, hmirrors.countAt,
    hmirrors.bytes, hmirrors.table, hmirrors.frame, hmirrors.first, hmirrors.located⟩

variable {n : ℕ}

theorem Fed.withLeft (hfed : Fed data base n stream o) (left : ℕ) :
    Fed data base n { stream with left } o := by
  obtain ⟨content, st, hholds, hmirrors⟩ := hfed.mirrors
  exact ⟨⟨content, st, hholds, hmirrors.collect left stream.block⟩, hfed.inside, hfed.block,
    hfed.position⟩

/-- After a whole block the next one starts. -/
theorem Advanced.fed {next : BlockStream} (hadvanced : Advanced data base stream next o)
    (hinside : stream.index < blockCount data.length) :
    Fed data base (blockStop data stream.index) { next with block := [] } o := by
  obtain ⟨content, st, hholds, hmirrors⟩ := hadvanced.mirrors
  have hnext : (stream.index + 1) * blockSize = stream.index * blockSize + blockSize :=
    Nat.succ_mul _ _
  refine ⟨⟨content, st, hholds, hmirrors.collect next.left []⟩, Nat.min_le_right _ _, ?_, ?_⟩
  · simp only [hadvanced.index, hnext, blockStop, slice]
    rw [Nat.sub_eq_zero_of_le (Nat.min_le_left _ _), take_zero]
  · simp only [hadvanced.index, hnext, blockStop]
    by_cases hmore : stream.index * blockSize + blockSize < data.length
    · left
      rw [Nat.min_eq_left hmore.le]
      exact ⟨le_rfl, lt_min (Nat.lt_add_of_pos_right (by decide)) hmore⟩
    · right
      refine ⟨Nat.min_eq_right (by omega), ?_⟩
      simp only [blockCount, show blockSize = 4096 from rfl] at hinside hmore ⊢
      omega

theorem block_eq_slice (data : List Byte) (i : ℕ) :
    block data i = slice data (i * blockSize) (blockStop data i) := by
  apply ext_getElem?
  intro k
  rw [Blocks.block, getElem?_slice, getElem?_slice, blockStop]
  split_ifs with hblock hstop hstop
  · rfl
  · rw [List.getElem?_eq_none (by omega)]
  · omega
  · rfl

theorem take_slice (data : List Byte) {k m : ℕ} (hk : n + k ≤ m) :
    (slice data n m).take k = slice data n (n + k) := by
  rw [slice, slice, take_take]
  congr 1
  omega

theorem drop_slice (data : List Byte) (n k m : ℕ) :
    (slice data n m).drop k = slice data (n + k) m := by
  rw [slice, slice, drop_take, drop_drop]
  congr 1
  omega

/-- What the loop of `feed` finds when there is data left. -/
theorem Fed.turn (hfed : Fed data base n stream o) (hmore : n < data.length) :
    stream.index < blockCount data.length ∧ stream.index * blockSize ≤ n ∧
      n < blockStop data stream.index ∧ stream.block.length = n - stream.index * blockSize ∧
      stream.blockLen stream.index =
        .ok (blockStop data stream.index - stream.index * blockSize) := by
  obtain ⟨hlow, hhigh⟩ : stream.index * blockSize ≤ n ∧ n < blockStop data stream.index := by
    rcases hfed.position with hposition | ⟨hend, _⟩
    · exact hposition
    · omega
  obtain ⟨_, _, _, hmirrors⟩ := hfed.mirrors
  refine ⟨?_, hlow, hhigh, ?_, ?_⟩
  · simp only [blockCount, show blockSize = 4096 from rfl] at hlow ⊢
    omega
  · rw [hfed.block, length_slice_of_le hfed.inside]
  · rw [BlockStream.blockLen, hmirrors.len, require_eq_ok (by omega), ok_bind, blockStop]
    congr 1
    omega

/-- A piece that ends inside the block or completes it. -/
theorem collected_spec {m : ℕ} (hfed : Fed data base n stream o) (hmore : n < data.length)
    (hn : n < m) (hm : m ≤ blockStop data stream.index) :
    ∃ next o', BlockStream.collected
        { stream with block := slice data (stream.index * blockSize) m } o
        (blockStop data stream.index - stream.index * blockSize) = .ok (next, o') ∧
      Fed data base m next o' ∧ next.left = stream.left := by
  obtain ⟨hinside, hlow, _, _, _⟩ := hfed.turn hmore
  obtain ⟨content, st, hholds, hmirrors⟩ := hfed.mirrors
  have hend : m ≤ data.length := hm.trans (Nat.min_le_right _ _)
  rw [BlockStream.collected, length_slice_of_le hend]
  by_cases hfull : m = blockStop data stream.index
  · subst hfull
    obtain ⟨next, o', hone, hadvanced⟩ :=
      one_spec (hmirrors.collect stream.left (block data stream.index)) hholds hinside
    rw [if_pos rfl, ← block_eq_slice]
    simp only [hone, ok_bind]
    exact ⟨_, o', rfl, hadvanced.fed hinside, hadvanced.left⟩
  · rw [if_neg (by omega)]
    exact ⟨_, o, rfl, ⟨⟨content, st, hholds, hmirrors.collect _ _⟩, hend, rfl,
      .inl ⟨by simp only; omega, by simp only; omega⟩⟩, rfl⟩

theorem feedLoop_spec (fuel : ℕ) {m : ℕ} (hfed : Fed data base n stream o) (hn : n ≤ m)
    (hm : m ≤ data.length) (hfuel : m - n ≤ fuel) :
    ∃ next o', BlockStream.feedLoop fuel stream o (slice data n m) = .ok (next, o') ∧
      Fed data base m next o' ∧ next.left = stream.left := by
  induction fuel generalizing n stream o with
  | zero =>
    obtain rfl : n = m := by omega
    exact ⟨stream, o, by rw [slice_self, BlockStream.feedLoop, if_pos rfl], hfed, rfl⟩
  | succ fuel ih =>
    rcases Nat.eq_or_lt_of_le hn with rfl | hlt
    · exact ⟨stream, o, by rw [slice_self, BlockStream.feedLoop, if_pos rfl], hfed, rfl⟩
    obtain ⟨hinside, hlow, hhigh, hlength, hwant⟩ := hfed.turn (by omega)
    obtain ⟨content, st, hholds, hmirrors⟩ := hfed.mirrors
    have hpiece : (slice data n m).length = m - n := length_slice_of_le hm
    have hsome : slice data n m ≠ [] := fun hnil => by
      rw [hnil, length_nil] at hpiece
      omega
    have hnext : blockStop data stream.index = n + (blockStop data stream.index - n) := by omega
    rw [BlockStream.feedLoop, if_neg hsome, hwant, ok_bind, hpiece]
    split_ifs with hwhole
    · -- a whole block, straight from the piece
      have hstart : n = stream.index * blockSize := by
        have hnone := congrArg List.length hwhole.1
        rw [hlength, length_nil] at hnone
        omega
      rw [← hstart] at hwhole ⊢
      have htake : (slice data n m).take (blockStop data stream.index - n) =
          block data stream.index := by
        rw [take_slice data (by omega), ← hnext, block_eq_slice, ← hstart]
      obtain ⟨next, o', hone, hadvanced⟩ := one_spec hmirrors hholds hinside
      have hkeep : { next with block := [] } = next := by
        rw [← hwhole.1, ← hadvanced.block]
      have hfed' := hadvanced.fed hinside
      rw [hkeep] at hfed'
      obtain ⟨final, o'', hloop, hfinal, hleft⟩ :=
        ih hfed' (show blockStop data stream.index ≤ m by omega) (by omega)
      refine ⟨final, o'', ?_, hfinal, hleft.trans hadvanced.left⟩
      rw [htake, hone, ok_bind, drop_slice, ← hnext]
      exact hloop
    · -- the block is collected from several pieces
      have hk : min (blockStop data stream.index - stream.index * blockSize -
          stream.block.length) (m - n) = min (blockStop data stream.index) m - n := by
        omega
      have hjoin : stream.block ++ (slice data n m).take
          (min (blockStop data stream.index) m - n) =
            slice data (stream.index * blockSize) (min (blockStop data stream.index) m) := by
        rw [take_slice data (by omega), hfed.block, slice_append_slice hlow (by omega)]
        congr 1
        omega
      obtain ⟨next, o', hcollected, hfed', hleft⟩ := collected_spec hfed (by omega)
        (show n < min (blockStop data stream.index) m by omega) (Nat.min_le_left _ _)
      obtain ⟨final, o'', hloop, hfinal, hleft'⟩ := ih hfed' (Nat.min_le_right _ _) (by omega)
      refine ⟨final, o'', ?_, hfinal, hleft'.trans hleft⟩
      rw [require_eq_ok (by omega), ok_bind, hk]
      simp only [hjoin, hcollected, ok_bind]
      rw [drop_slice, show n + (min (blockStop data stream.index) m - n) =
        min (blockStop data stream.index) m by omega]
      exact hloop

/-- `feed` takes what is left of the data, or the piece if that is shorter. -/
theorem feed_spec {piece tail : List Byte} (hfed : Fed data base n stream o)
    (hleft : stream.left = data.length - n) (hpiece : piece <+: data.drop n ++ tail) :
    ∃ next o', stream.feed o piece = .ok (min piece.length stream.left, next, o') ∧
      Fed data base (n + min piece.length stream.left) next o' ∧
      next.left = data.length - (n + min piece.length stream.left) := by
  have hinside := hfed.inside
  set k := min piece.length stream.left with hk
  have htake : piece.take k = slice data n (n + k) := by
    obtain ⟨rest, hrest⟩ := hpiece
    calc
      piece.take k = (piece ++ rest).take k :=
        (take_append_of_le_length (Nat.min_le_left _ _)).symm
      _ = (data.drop n).take k := by
        rw [hrest, take_append_of_le_length (by rw [length_drop]; omega)]
      _ = slice data n (n + k) := by rw [slice, Nat.add_sub_cancel_left]
  obtain ⟨next, o', hloop, hnext, hkeep⟩ := feedLoop_spec (k + 2)
    (hfed.withLeft (stream.left - k)) (Nat.le_add_right n k)
    (show n + k ≤ data.length by omega) (by omega)
  refine ⟨next, o', ?_, hnext, hkeep.trans (by simp only; omega)⟩
  rw [BlockStream.feed, ← hk, htake, hloop, ok_bind]

theorem start_spec (data : List Byte) (hholds : o.Holds base) :
    Fed data base 0 (BlockStream.start o data.length).1 (BlockStream.start o data.length).2 := by
  have hlen := hholds.put (leBytes 8 data.length)
  have hcount := hlen.put (leBytes 8 0)
  refine ⟨⟨_, Blocks.State.start data, hcount, ?_⟩, Nat.zero_le _, ?_, ?_⟩
  · exact {
      encodes := rfl
      len := rfl
      other := length_replicate
      count := rfl
      countAt := by
        rw [show (BlockStream.start o data.length).1.countAt =
          (o.put (leBytes 8 data.length)).pos from rfl, hlen.pos, length_append,
          length_leBytes]
      bytes := ⟨[], by rw [append_nil],
        by simp [Blocks.State.start, Blocks.Out.bytes, Blocks.Out.u64, Blocks.Out.raw]⟩
      table := rfl
      frame := rfl
      first := fun _ => rfl
      located := fun k f hsome => by simp [BlockStream.start] at hsome }
  · simp [BlockStream.start, slice]
  · rcases Nat.eq_zero_or_pos data.length with hnone | hsome
    · exact .inr ⟨hnone.symm, by rw [hnone]; rfl⟩
    · refine .inl ⟨by simp [BlockStream.start], ?_⟩
      simp only [BlockStream.start, blockStop, show blockSize = 4096 from rfl]
      omega

/-- At the end of the data the output holds what `encode` writes. -/
theorem finish_spec (hfed : Fed data base data.length stream o) :
    ∃ next, stream.finish o = .ok next ∧ next.Holds (base ++ fastText data) := by
  have hindex : stream.index = blockCount data.length := by
    rcases hfed.position with ⟨_, hless⟩ | ⟨_, hindex⟩
    · exact absurd hless (Nat.not_lt.mpr (Nat.min_le_right _ _))
    · exact hindex
  obtain ⟨content, st, hholds, hmirrors⟩ := hfed.mirrors
  obtain ⟨entries, hcontent, hbytes⟩ := hmirrors.bytes
  have hcount : stream.count = (present data).length := by
    rw [hmirrors.count, hindex]
    rfl
  have hencode : fastText data = st.out.bytes := by
    have hloop := hmirrors.encodes
    rw [hindex, show before data (blockCount data.length) = present data from rfl] at hloop
    simp only [fastText, Blocks.encode, hloop, ok_bind, Blocks.State.close, Blocks.Out.bytes]
    split_ifs with hnone
    · rw [hnone, append_nil]
    · simp
  have hat : (base ++ leBytes 8 data.length).length = base.length + 8 := by
    rw [length_append, length_leBytes]
  obtain ⟨next, hpatch, hnext⟩ := hholds.patch
    (show base.length + 8 + (leBytes 8 stream.count).length ≤ content.length by
      rw [hcontent]
      simp only [length_append, length_leBytes]
      omega)
  refine ⟨next, by rw [BlockStream.finish, hmirrors.countAt, hpatch], ?_⟩
  rw [hcontent, ← hat, writeAt_middle _ _ _ _ (by simp only [length_leBytes])] at hnext
  rw [hencode, hbytes, ← hcount]
  simpa using hnext

end Encoding

end Vetro.Save
