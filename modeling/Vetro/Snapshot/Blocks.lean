import Vetro.Snapshot.Lz
import Vetro.Snapshot.Lzh

/-!
# Large data in blocks

`vetro-snapshot/src/blocks.rs`, writing: the length of the data, the number of
blocks that are not zero, then entries that cover each of them once.  An entry
holds a block's bytes, the block compressed, a reference to an equal earlier
block, or a frame of several blocks.  `Step` says which entries a reader may
meet once some blocks are covered; the encoder writes a `Run` of them.
-/

namespace Vetro.Blocks

open Function List
open Bytes
open Splice
open Outcome
open Format

/-! ## Model -/

/-- How hard to compress. -/
inductive Level where
  | fast
  | small
  deriving Repr, DecidableEq

def rawEnc : Byte := 0
def lzEnc : Byte := 1
def sameEnc : Byte := 2
def frameEnc : Byte := 3

/-- Blocks per frame. -/
def frameBlocks : ℕ := Matcher.frame / blockSize

/-- Output is handed on in chunks of about this size. -/
def flushSize : ℕ := 2 ^ 20

/-- The bytes not yet handed on, and the chunks that were. -/
structure Out where
  buf : List Byte
  emitted : List (List Byte)

namespace Out

def raw (out : Out) (b : List Byte) : Out := { out with buf := out.buf ++ b }

def u64 (out : Out) (v : ℕ) : Out := out.raw (leBytes 8 v)

def maybeFlush (out : Out) : Out :=
  if flushSize ≤ out.buf.length then ⟨[], out.emitted ++ [out.buf]⟩ else out

/-- Everything written so far. -/
def bytes (out : Out) : List Byte := out.emitted.flatten ++ out.buf

end Out

/-- Block `i` of the data, the last one possibly shorter. -/
def block (data : List Byte) (i : ℕ) : List Byte :=
  slice data (i * blockSize) (i * blockSize + blockSize)

def blockCount (len : ℕ) : ℕ := (len + blockSize - 1) / blockSize

/-- The blocks that are not zero. -/
def present (data : List Byte) : List ℕ :=
  (List.range (blockCount data.length)).filter fun i => !isZero (block data i)

/-- What `encode` keeps from one block to the next: the first block with each
hash, the working memory of the two codecs, the pending frame with its bytes,
and the duplicates that wait for it. -/
structure State where
  out : Out
  first : UInt64 → Option ℕ
  table : Lz.Table
  enc : Matcher.Encoder
  frame : List ℕ
  data : List Byte
  same : List (ℕ × ℕ)

/-- A frame that did not get smaller: its blocks as they are. -/
def rawEntries (len : ℕ) (data : List Byte) : List ℕ → ℕ → Out → Out
  | [], _, out => out
  | i :: frame, start, out =>
    let l := min blockSize (len - i * blockSize)
    rawEntries len data frame (start + l)
      (((out.u64 i).raw [rawEnc]).raw (slice data start (start + l)))

def sameEntry (out : Out) (i j : ℕ) : Out := ((out.u64 i).raw [sameEnc]).u64 j

/-- The pending frame, compressed or as it is. -/
def State.writeFrame (len : ℕ) (st : State) : Result Error State :=
  match st.frame with
  | [] => .ok st
  | head :: others => do
    let (scratch, enc) ← Lzh.compress st.enc st.data
    let out :=
      if scratch.length < st.data.length then
        let out := ((st.out.u64 head).raw [frameEnc]).raw (leBytes 2 st.frame.length)
        let out := others.foldl Out.u64 out
        (out.raw (leBytes 4 scratch.length)).raw scratch
      else rawEntries len st.data st.frame 0 st.out
    .ok { st with out, enc, frame := [], data := [] }

def State.flushFrame (len : ℕ) (st : State) : Result Error State := do
  let st ← st.writeFrame len
  let out := st.same.foldl (fun out pair => sameEntry out pair.1 pair.2) st.out
  .ok { st with out := out.maybeFlush, same := [] }

/-- A block with the same bytes as block `j`. -/
def State.duplicate (st : State) (i j : ℕ) : State :=
  if st.frame = [] then { st with out := sameEntry st.out i j }
  else { st with same := st.same ++ [(i, j)] }

/-- A block with new contents. -/
def State.fresh (level : Level) (data : List Byte) (st : State) (i : ℕ) : Result Error State :=
  let b := block data i
  match level with
  | .fast =>
    let (scratch, table) := Lz.compress b st.table
    let out := st.out.u64 i
    let out :=
      if scratch.length < b.length then
        ((out.raw [lzEnc]).raw (leBytes 4 scratch.length)).raw scratch
      else (out.raw [rawEnc]).raw b
    .ok { st with table, out := out.maybeFlush }
  | .small =>
    let st := { st with frame := st.frame ++ [i], data := st.data ++ b }
    if st.frame.length = frameBlocks then st.flushFrame data.length else .ok st

def encodeBlock (level : Level) (data : List Byte) (st : State) (i : ℕ) : Result Error State :=
  let b := block data i
  let h := hash64 b
  match st.first h with
  | some j =>
    if block data j = b then .ok (st.duplicate i j) else st.fresh level data i
  | none => State.fresh level data { st with first := update st.first h (some i) } i

def encodeLoop (level : Level) (data : List Byte) : List ℕ → State → Result Error State
  | [], st => .ok st
  | i :: rest, st => do
    let st ← encodeBlock level data st i
    encodeLoop level data rest st

def State.start (data : List Byte) : State where
  out := ((⟨[], []⟩ : Out).u64 data.length).u64 (present data).length
  first := fun _ => none
  table := Lz.Table.new
  enc := Matcher.Encoder.new
  frame := []
  data := []
  same := []

/-- The end of the data: a frame that is still pending is written. -/
def State.close (level : Level) (len : ℕ) (st : State) : Result Error State :=
  match level with
  | .fast => .ok st
  | .small => st.flushFrame len

/-- The chunks that `encode` hands to `emit` for `data`. -/
def encode (level : Level) (data : List Byte) : Result Error (List (List Byte)) := do
  let st ← encodeLoop level data (present data) (State.start data)
  let st ← st.close level data.length
  .ok (if st.out.buf = [] then st.out.emitted else st.out.emitted ++ [st.out.buf])

/-! ## Entries -/

/-- An entry of the format: the bytes of a block, a compressed block, a copy of
an earlier block, or a frame. -/
inductive Entry where
  | raw (i : ℕ) (bytes : List Byte)
  | lz (i : ℕ) (packed : List Byte)
  | same (i j : ℕ)
  | frame (head : ℕ) (others : List ℕ) (packed : List Byte)

/-- How an entry is written. -/
def Entry.bytes : Entry → List Byte
  | .raw i bytes => leBytes 8 i ++ [rawEnc] ++ bytes
  | .lz i packed => leBytes 8 i ++ [lzEnc] ++ leBytes 4 packed.length ++ packed
  | .same i j => leBytes 8 i ++ [sameEnc] ++ leBytes 8 j
  | .frame head others packed =>
    leBytes 8 head ++ [frameEnc] ++ leBytes 2 (others.length + 1) ++
      others.flatMap (leBytes 8) ++ leBytes 4 packed.length ++ packed

/-- The blocks covered so far, in the order of their entries, and the last one
of an ordered entry. -/
structure Cover where
  done : List ℕ
  last : Option ℕ

/-- Block `i` may come next in an ordered entry. -/
def After (last : Option ℕ) (i : ℕ) : Prop := ∀ l, last = some l → l < i

/-- The last block of an ordered entry after the blocks `frame`. -/
def lastAfter (last : Option ℕ) : List ℕ → Option ℕ
  | [] => last
  | i :: frame => lastAfter (some i) frame

/-- Block `i` of the data is not covered. -/
def Cover.Free (data : List Byte) (cover : Cover) (i : ℕ) : Prop :=
  i < blockCount data.length ∧ i ∉ cover.done

/-- The entries that may follow when `cover` is covered. -/
inductive Step (data : List Byte) : Cover → Entry → Cover → Prop where
  | raw {cover : Cover} {i : ℕ} (hfree : cover.Free data i) (hafter : After cover.last i) :
      Step data cover (.raw i (block data i)) ⟨cover.done ++ [i], some i⟩
  | lz {cover : Cover} {i : ℕ} {packed : List Byte} (hfree : cover.Free data i)
      (hafter : After cover.last i) (hshort : packed.length < 2 ^ 32)
      (hpacked : ∀ dst : List Byte, dst.length = (block data i).length →
        Lz.decompress packed dst = .ok (block data i)) :
      Step data cover (.lz i packed) ⟨cover.done ++ [i], some i⟩
  | same {cover : Cover} {i j : ℕ} (hfree : cover.Free data i) (hback : j < i)
      (hdone : j ∈ cover.done) (hequal : block data j = block data i) :
      Step data cover (.same i j) ⟨cover.done ++ [i], cover.last⟩
  | frame {cover : Cover} {head : ℕ} {others : List ℕ} {packed : List Byte}
      (hfree : ∀ i ∈ head :: others, cover.Free data i)
      (hafter : ∀ i ∈ head :: others, After cover.last i)
      (hsorted : (head :: others).Pairwise (· < ·))
      (hlength : (head :: others).length ≤ frameBlocks) (hshort : packed.length < 2 ^ 32)
      (hpacked : ∀ dst : List Byte,
        dst.length = ((head :: others).flatMap (block data)).length →
        Lzh.decompress packed dst = .ok ((head :: others).flatMap (block data))) :
      Step data cover (.frame head others packed)
        ⟨cover.done ++ head :: others, lastAfter cover.last (head :: others)⟩

/-- A sequence of entries. -/
inductive Run (data : List Byte) : Cover → List Entry → Cover → Prop where
  | nil (cover : Cover) : Run data cover [] cover
  | cons {cover middle final : Cover} {entry : Entry} {entries : List Entry}
      (hstep : Step data cover entry middle) (hrest : Run data middle entries final) :
      Run data cover (entry :: entries) final

variable {data : List Byte}

theorem Run.append {cover middle final : Cover} {left right : List Entry}
    (hleft : Run data cover left middle) (hright : Run data middle right final) :
    Run data cover (left ++ right) final := by
  induction hleft with
  | nil cover => exact hright
  | cons hstep _ ih => exact .cons hstep (ih hright)

theorem Run.single {cover final : Cover} {entry : Entry} (hstep : Step data cover entry final) :
    Run data cover [entry] final :=
  .cons hstep (.nil final)

/-! ## Output -/

@[simp]
theorem Out.bytes_raw (out : Out) (b : List Byte) : (out.raw b).bytes = out.bytes ++ b := by
  simp [Out.raw, Out.bytes]

@[simp]
theorem Out.bytes_u64 (out : Out) (v : ℕ) : (out.u64 v).bytes = out.bytes ++ leBytes 8 v := by
  rw [Out.u64, Out.bytes_raw]

@[simp]
theorem Out.bytes_maybeFlush (out : Out) : out.maybeFlush.bytes = out.bytes := by
  rw [Out.maybeFlush]
  split_ifs <;> simp [Out.bytes]

theorem bytes_foldl_u64 (indices : List ℕ) (out : Out) :
    (indices.foldl Out.u64 out).bytes = out.bytes ++ indices.flatMap (leBytes 8) := by
  induction indices generalizing out with
  | nil => simp
  | cons index indices ih => simp [ih]

/-- Waiting duplicates as entries. -/
def sameEntries (same : List (ℕ × ℕ)) : List Entry :=
  same.map fun pair => .same pair.1 pair.2

theorem bytes_foldl_same (same : List (ℕ × ℕ)) (out : Out) :
    (same.foldl (fun out pair => sameEntry out pair.1 pair.2) out).bytes =
      out.bytes ++ (sameEntries same).flatMap Entry.bytes := by
  induction same generalizing out with
  | nil => simp [sameEntries]
  | cons pair same ih =>
    rw [foldl_cons, ih]
    simp [sameEntries, sameEntry, Entry.bytes]

theorem length_block (i : ℕ) :
    (block data i).length = min blockSize (data.length - i * blockSize) := by
  rw [block, length_slice, Nat.add_sub_cancel_left]

theorem lt_of_lt_blockCount {len i : ℕ} (hi : i < blockCount len) : i * blockSize < len := by
  simp only [blockCount, show blockSize = 4096 from rfl] at hi ⊢
  omega

/-- Blocks as they are. -/
def rawBlocks (data : List Byte) (frame : List ℕ) : List Entry :=
  frame.map fun i => .raw i (block data i)

theorem bytes_rawEntries {whole : List Byte} (before : List Byte) (frame : List ℕ)
    (hwhole : whole = before ++ frame.flatMap (block data)) (out : Out) :
    (rawEntries data.length whole frame before.length out).bytes =
      out.bytes ++ (rawBlocks data frame).flatMap Entry.bytes := by
  induction frame generalizing before out with
  | nil => simp [rawEntries, rawBlocks]
  | cons i frame ih =>
    have hblock : slice whole before.length
        (before.length + min blockSize (data.length - i * blockSize)) = block data i := by
      rw [hwhole, flatMap_cons, ← append_assoc, ← length_block]
      exact slice_middle before (block data i) _
    have hrest : whole = (before ++ block data i) ++ frame.flatMap (block data) := by
      rw [hwhole, flatMap_cons, append_assoc]
    have hnext := ih _ hrest
    rw [length_append, length_block] at hnext
    rw [rawEntries]
    simp only [hblock]
    rw [hnext]
    simp [rawBlocks, Entry.bytes]

/-! ## What the encoder writes -/

section Encoder

variable {data : List Byte}

theorem lastAfter_mem {last : Option ℕ} {frame : List ℕ} {l : ℕ}
    (hlast : lastAfter last frame = some l) : last = some l ∨ l ∈ frame := by
  induction frame generalizing last with
  | nil => exact .inl hlast
  | cons i frame ih =>
    rcases ih hlast with hsome | hmem
    · cases hsome
      exact .inr mem_cons_self
    · exact .inr (mem_cons_of_mem _ hmem)

variable {cover : Cover}

theorem run_sameEntries {same : List (ℕ × ℕ)}
    (hsame : ∀ pair ∈ same, pair.1 < blockCount data.length ∧ pair.2 < pair.1 ∧
      pair.2 ∈ cover.done ∧ block data pair.2 = block data pair.1)
    (hnodup : (cover.done ++ same.map Prod.fst).Nodup) :
    Run data cover (sameEntries same) ⟨cover.done ++ same.map Prod.fst, cover.last⟩ := by
  induction same generalizing cover with
  | nil => simpa [sameEntries] using Run.nil cover
  | cons pair same ih =>
    obtain ⟨hinside, hback, hdone, hequal⟩ := hsame pair mem_cons_self
    have hfree : cover.Free data pair.1 := by
      refine ⟨hinside, fun hmem => ?_⟩
      exact (nodup_append.mp hnodup).2.2 _ hmem _ (by simp) rfl
    refine .cons (.same hfree hback hdone hequal) ?_
    have hrest := @ih ⟨cover.done ++ [pair.1], cover.last⟩ ?_ (by simpa using hnodup)
    · rwa [append_assoc] at hrest
    · intro other hother
      obtain ⟨hinside, hback, hdone, hequal⟩ := hsame other (mem_cons_of_mem _ hother)
      exact ⟨hinside, hback, mem_append_left _ hdone, hequal⟩

theorem run_rawBlocks {frame : List ℕ} (hinside : ∀ i ∈ frame, i < blockCount data.length)
    (hnodup : (cover.done ++ frame).Nodup) (hsorted : frame.Pairwise (· < ·))
    (hafter : ∀ i ∈ frame, After cover.last i) :
    Run data cover (rawBlocks data frame)
      ⟨cover.done ++ frame, lastAfter cover.last frame⟩ := by
  induction frame generalizing cover with
  | nil => simpa [rawBlocks, lastAfter] using Run.nil cover
  | cons i frame ih =>
    have hfree : cover.Free data i := by
      refine ⟨hinside i mem_cons_self, fun hmem => ?_⟩
      exact (nodup_append.mp hnodup).2.2 _ hmem _ mem_cons_self rfl
    rw [pairwise_cons] at hsorted
    refine .cons (.raw hfree (hafter i mem_cons_self)) ?_
    have hrest := @ih ⟨cover.done ++ [i], some i⟩
      (fun other hother => hinside other (mem_cons_of_mem _ hother))
      (by simpa using hnodup) hsorted.2 ?_
    · rwa [append_assoc] at hrest
    · intro other hother l hl
      cases hl
      exact hsorted.1 other hother

/-- What holds between two blocks: the entries written are a run that covers
the blocks `seen` so far, apart from the pending frame and the duplicates that
wait for it. -/
structure Encoded (data : List Byte) (st : State) (seen : List ℕ) (cover : Cover)
    (entries : List Entry) : Prop where
  bytes : st.out.bytes = leBytes 8 data.length ++ leBytes 8 (present data).length ++
    entries.flatMap Entry.bytes
  run : Run data ⟨[], none⟩ entries cover
  perm : (cover.done ++ (st.frame ++ st.same.map Prod.fst)).Perm seen
  frame_data : st.data = st.frame.flatMap (block data)
  frame_sorted : st.frame.Pairwise (· < ·)
  frame_after : ∀ i ∈ st.frame, After cover.last i
  last_done : ∀ l, cover.last = some l → l ∈ cover.done
  same_ok : ∀ pair ∈ st.same, pair.2 < pair.1 ∧
    block data pair.2 = block data pair.1 ∧ (pair.2 ∈ cover.done ∨ pair.2 ∈ st.frame)
  same_waits : st.frame = [] → st.same = []
  first_ok : ∀ h j, st.first h = some j → j ∈ cover.done ∨ j ∈ st.frame

theorem length_frame_data (data : List Byte) (frame : List ℕ) :
    (frame.flatMap (block data)).length ≤ frame.length * blockSize := by
  induction frame with
  | nil => simp
  | cons i frame ih =>
    rw [flatMap_cons, length_append, length_block, length_cons]
    rw [Nat.add_mul, Nat.one_mul]
    omega

/-- The pending frame becomes one frame entry, or raw entries. -/
theorem writeFrame_spec {st : State} (hdata : st.data = st.frame.flatMap (block data))
    (hinside : ∀ i ∈ st.frame, i < blockCount data.length) (hnodup : (cover.done ++ st.frame).Nodup)
    (hsorted : st.frame.Pairwise (· < ·)) (hafter : ∀ i ∈ st.frame, After cover.last i)
    (hlength : st.frame.length ≤ frameBlocks) :
    ∃ next entries, st.writeFrame data.length = .ok next ∧ next.frame = [] ∧
      next.data = [] ∧ next.same = st.same ∧ next.first = st.first ∧
      next.out.bytes = st.out.bytes ++ entries.flatMap Entry.bytes ∧
      Run data cover entries ⟨cover.done ++ st.frame, lastAfter cover.last st.frame⟩ := by
  rw [State.writeFrame]
  cases hframe : st.frame with
  | nil =>
    rw [hframe, flatMap_nil] at hdata
    refine ⟨st, [], rfl, hframe, hdata, rfl, rfl, by simp, ?_⟩
    simpa [lastAfter] using Run.nil cover
  | cons head others =>
    have hraw := run_rawBlocks hinside hnodup hsorted hafter
    rw [hframe] at hdata hinside hnodup hsorted hafter hlength hraw
    have hsmall : st.data.length ≤ Matcher.frame := by
      have hbound := length_frame_data data (head :: others)
      have hmul := Nat.mul_le_mul_right blockSize hlength
      rw [hdata]
      calc
        ((head :: others).flatMap (block data)).length ≤
            (head :: others).length * blockSize := hbound
        _ ≤ frameBlocks * blockSize := hmul
        _ = Matcher.frame := by decide
    obtain ⟨scratch, enc, hcompress, hdecode⟩ := Lzh.compress_decodes hsmall st.enc
    simp only [hcompress, ok_bind]
    by_cases hshorter : scratch.length < st.data.length
    · refine ⟨_, [.frame head others scratch], rfl, rfl, rfl, rfl, rfl, ?_, ?_⟩
      · simp only [if_pos hshorter, Out.bytes_raw, bytes_foldl_u64, Out.bytes_u64]
        simp [Entry.bytes]
      · refine Run.single (.frame ?_ hafter hsorted hlength ?_ ?_)
        · intro i hi
          refine ⟨hinside i hi, fun hmem => ?_⟩
          exact (nodup_append.mp hnodup).2.2 _ hmem _ hi rfl
        · have hmax : Matcher.frame < 2 ^ 32 := by decide
          omega
        · rwa [hdata] at hdecode
    · refine ⟨_, rawBlocks data (head :: others), rfl, rfl, rfl, rfl, rfl, ?_, hraw⟩
      simp only [if_neg hshorter]
      exact bytes_rawEntries [] (head :: others) (by simpa using hdata) st.out

/-- Flushing covers what was pending. -/
theorem Encoded.flushFrame {st : State} {seen : List ℕ} {entries : List Entry}
    (henc : Encoded data st seen cover entries) (hseen : ∀ i ∈ seen, i < blockCount data.length)
    (hnodup : seen.Nodup) (hlength : st.frame.length ≤ frameBlocks) :
    ∃ next cover' entries', st.flushFrame data.length = .ok next ∧
      Encoded data next seen cover' entries' ∧ next.frame = [] := by
  have hall := henc.perm.nodup_iff.mpr hnodup
  have hmem : ∀ i, i ∈ st.frame ∨ i ∈ st.same.map Prod.fst → i < blockCount data.length := by
    intro i hi
    refine hseen i (henc.perm.mem_iff.mp ?_)
    simp only [mem_append]
    tauto
  rw [← append_assoc] at hall
  obtain ⟨st₁, written, hwrite, hframe, hdata, hsame, hfirst, hbytes, hrun⟩ :=
    writeFrame_spec henc.frame_data (fun i hi => hmem i (.inl hi))
      (nodup_append.mp hall).1 henc.frame_sorted henc.frame_after hlength
  set written' : Cover := ⟨cover.done ++ st.frame, lastAfter cover.last st.frame⟩
  have hwait : ∀ pair ∈ st.same, pair.1 < blockCount data.length ∧ pair.2 < pair.1 ∧
      pair.2 ∈ written'.done ∧ block data pair.2 = block data pair.1 := by
    intro pair hpair
    obtain ⟨hback, hequal, hsource⟩ := henc.same_ok pair hpair
    exact ⟨hmem pair.1 (.inr (mem_map_of_mem hpair)), hback, mem_append.mpr hsource, hequal⟩
  have hrun' := run_sameEntries hwait hall
  have hflush : st.flushFrame data.length = .ok { st₁ with
      out := (st₁.same.foldl (fun out pair => sameEntry out pair.1 pair.2)
        st₁.out).maybeFlush
      same := [] } := by
    rw [State.flushFrame, hwrite, ok_bind]
  refine ⟨_, _, entries ++ (written ++ sameEntries st.same), hflush, ⟨?_,
    henc.run.append (hrun.append hrun'), ?_, ?_, ?_, ?_, ?_, ?_, ?_, ?_⟩, hframe⟩
  · simp only [Out.bytes_maybeFlush, bytes_foldl_same, hbytes, hsame, henc.bytes]
    simp
  · simp only [hframe, map_nil, append_nil]
    rw [append_assoc]
    exact henc.perm
  · simp only [hframe, hdata, flatMap_nil]
  · simp [hframe]
  · simp [hframe]
  · intro l hl
    rcases lastAfter_mem hl with hlast | hlast
    · exact mem_append_left _ (mem_append_left _ (henc.last_done l hlast))
    · exact mem_append_left _ (mem_append_right _ hlast)
  · simp
  · simp
  · intro h j hj
    simp only [hfirst] at hj
    left
    rcases henc.first_ok h j hj with hdone | hpending
    · exact mem_append_left _ (mem_append_left _ hdone)
    · exact mem_append_left _ (mem_append_right _ hpending)

/-- An entry for block `i` written at once, with nothing pending. -/
theorem Encoded.direct {st next : State} {seen : List ℕ} {entries : List Entry} {i : ℕ}
    {last : Option ℕ} (henc : Encoded data st seen cover entries) (entry : Entry)
    (hempty : st.frame = []) (hframe : next.frame = st.frame) (hdata : next.data = st.data)
    (hsame : next.same = st.same)
    (hfirst : ∀ h j, next.first h = some j → st.first h = some j ∨ j = i)
    (hbytes : next.out.bytes = st.out.bytes ++ entry.bytes)
    (hstep : Step data cover entry ⟨cover.done ++ [i], last⟩)
    (hlast : ∀ l, last = some l → l ∈ cover.done ++ [i]) :
    Encoded data next (seen ++ [i]) ⟨cover.done ++ [i], last⟩ (entries ++ [entry]) := by
  have hnone := henc.same_waits hempty
  have hperm := henc.perm
  rw [hempty, hnone, map_nil, append_nil, append_nil] at hperm
  refine ⟨?_, henc.run.append (.single hstep), ?_, ?_, ?_, ?_, hlast, ?_, ?_, ?_⟩
  · rw [hbytes, henc.bytes]
    simp
  · rw [hframe, hempty, hsame, hnone, map_nil, append_nil, append_nil]
    exact hperm.append_right [i]
  · rw [hdata, hframe, henc.frame_data]
  · rw [hframe]
    exact henc.frame_sorted
  · simp [hframe, hempty]
  · simp [hsame, hnone]
  · simp [hsame, hnone]
  · intro h j hj
    left
    rcases hfirst h j hj with hold | rfl
    · have hmem := henc.first_ok h j hold
      rw [hempty] at hmem
      exact mem_append_left _ (hmem.resolve_right not_mem_nil)
    · exact mem_append_right _ (mem_singleton_self j)

/-- What is pending between two blocks at each level. -/
def Ready (level : Level) (st : State) : Prop :=
  match level with
  | .fast => st.frame = []
  | .small => st.frame.length < frameBlocks

section Block

variable {level : Level} {st : State} {seen : List ℕ} {cover : Cover}
  {entries : List Entry} {i : ℕ}

variable (henc : Encoded data st seen cover entries)
include henc

/-- A block after all those seen is free and in order. -/
theorem Encoded.next_free (hseen : ∀ k ∈ seen, k < i) (hi : i < blockCount data.length) :
    cover.Free data i ∧ After cover.last i := by
  have hdone : ∀ k ∈ cover.done, k < i := fun k hk =>
    hseen k (henc.perm.mem_iff.mp (mem_append_left _ hk))
  exact ⟨⟨hi, fun hmem => absurd (hdone i hmem) (lt_irrefl i)⟩,
    fun l hl => hdone l (henc.last_done l hl)⟩

variable (hready : Ready level st)
include hready

theorem duplicate_spec (hseen : ∀ k ∈ seen, k < i) (hi : i < blockCount data.length) {h : UInt64}
    {j : ℕ} (hfirst : st.first h = some j) (hequal : block data j = block data i) :
    ∃ cover' entries', Encoded data (st.duplicate i j) (seen ++ [i]) cover' entries' ∧
      Ready level (st.duplicate i j) := by
  have hsource := henc.first_ok h j hfirst
  have hback : j < i := by
    refine hseen j (henc.perm.mem_iff.mp ?_)
    simp only [mem_append]
    tauto
  obtain ⟨hfree, -⟩ := henc.next_free hseen hi
  rw [State.duplicate]
  split_ifs with hempty
  · rw [hempty] at hsource
    have hdone := hsource.resolve_right not_mem_nil
    refine ⟨_, _, henc.direct (.same i j) hempty rfl rfl rfl
      (fun _ _ => .inl) ?_ (.same hfree hback hdone hequal) ?_, ?_⟩
    · simp [sameEntry, Entry.bytes]
    · exact fun l hl => mem_append_left _ (henc.last_done l hl)
    · cases level with
      | fast => exact hempty
      | small => exact hready
  · refine ⟨cover, entries, ⟨henc.bytes, henc.run, ?_, henc.frame_data, henc.frame_sorted,
      henc.frame_after, henc.last_done, ?_, fun h => absurd h hempty, henc.first_ok⟩, ?_⟩
    · have hperm := henc.perm.append_right [i]
      simpa [append_assoc] using hperm
    · intro pair hpair
      rcases mem_append.mp hpair with hold | hnew
      · exact henc.same_ok pair hold
      · obtain rfl := mem_singleton.mp hnew
        exact ⟨hback, hequal, hsource⟩
    · cases level with
      | fast => exact absurd hready hempty
      | small => exact hready

theorem fresh_spec (hseen : ∀ k ∈ seen, k < i) (hsorted : seen.Nodup)
    (hi : i < blockCount data.length) {first : UInt64 → Option ℕ}
    (hfirst : ∀ h j, first h = some j → st.first h = some j ∨ j = i) :
    ∃ next cover' entries', State.fresh level data { st with first } i = .ok next ∧
      Encoded data next (seen ++ [i]) cover' entries' ∧ Ready level next := by
  obtain ⟨hfree, hafter⟩ := henc.next_free hseen hi
  have hlast : ∀ l, some i = some l → l ∈ cover.done ++ [i] := by
    intro l hl
    cases hl
    exact mem_append_right _ (mem_singleton_self i)
  have hshort : (block data i).length ≤ blockSize := by
    rw [length_block]
    exact min_le_left _ _
  have hsize : blockSize = 4096 := rfl
  cases level with
  | fast =>
    obtain ⟨scratch, table, hcompress⟩ : ∃ scratch table,
        Lz.compress (block data i) st.table = (scratch, table) := ⟨_, _, rfl⟩
    have hpacked : ∀ dst : List Byte, dst.length = (block data i).length →
        Lz.decompress scratch dst = .ok (block data i) := by
      intro dst hdst
      have hround := Lz.decompress_compress st.table (by omega) hdst
      rwa [hcompress] at hround
    simp only [State.fresh, hcompress]
    by_cases hsmaller : scratch.length < (block data i).length
    · refine ⟨_, _, _, rfl, henc.direct (.lz i scratch) hready rfl rfl rfl hfirst ?_
        (.lz hfree hafter (by omega) hpacked) hlast, hready⟩
      simp only [if_pos hsmaller]
      simp [Entry.bytes]
    · refine ⟨_, _, _, rfl, henc.direct (.raw i (block data i)) hready rfl rfl rfl hfirst ?_
        (.raw hfree hafter) hlast, hready⟩
      simp only [if_neg hsmaller]
      simp [Entry.bytes]
  | small =>
    have hpending : Encoded data { st with
        first, frame := st.frame ++ [i], data := st.data ++ block data i }
        (seen ++ [i]) cover entries := by
      refine ⟨henc.bytes, henc.run, ?_, ?_, ?_, ?_, henc.last_done, ?_, ?_, ?_⟩
      · have hperm := henc.perm.append_right [i]
        refine List.Perm.trans ?_ hperm
        simp only [append_assoc]
        refine List.Perm.append_left _ (List.Perm.append_left _ ?_)
        exact perm_append_comm
      · simp [henc.frame_data]
      · rw [pairwise_append]
        refine ⟨henc.frame_sorted, pairwise_singleton _ _, fun k hk l hl => ?_⟩
        obtain rfl := mem_singleton.mp hl
        refine hseen k (henc.perm.mem_iff.mp ?_)
        simp [hk]
      · intro k hk
        rcases mem_append.mp hk with hold | hnew
        · exact henc.frame_after k hold
        · obtain rfl := mem_singleton.mp hnew
          exact hafter
      · intro pair hpair
        obtain ⟨hback, hequal, hsource⟩ := henc.same_ok pair hpair
        refine ⟨hback, hequal, hsource.imp_right (mem_append_left _)⟩
      · simp
      · intro h j hj
        rcases hfirst h j hj with hold | rfl
        · exact (henc.first_ok h j hold).imp_right (mem_append_left _)
        · exact .inr (mem_append_right _ (mem_singleton_self j))
    have hcount : st.frame.length < frameBlocks := hready
    simp only [State.fresh]
    split_ifs with hfull
    · obtain ⟨next, cover', entries', hflush, henc', hempty⟩ := hpending.flushFrame
        (fun k hk => by
          rcases mem_append.mp hk with hold | hnew
          · exact (hseen k hold).trans hi
          · obtain rfl := mem_singleton.mp hnew
            exact hi)
        (by
          rw [nodup_append]
          refine ⟨hsorted, nodup_singleton i, fun k hk l hl => ?_⟩
          obtain rfl := mem_singleton.mp hl
          exact (hseen k hk).ne)
        hfull.le
      refine ⟨next, cover', entries', hflush, henc', ?_⟩
      rw [Ready, hempty]
      decide
    · refine ⟨_, _, _, rfl, hpending, ?_⟩
      simp only [Ready, length_append, length_singleton] at hfull ⊢
      omega

theorem encodeBlock_spec (hseen : ∀ k ∈ seen, k < i) (hnodup : seen.Nodup)
    (hi : i < blockCount data.length) :
    ∃ next cover' entries', encodeBlock level data st i = .ok next ∧
      Encoded data next (seen ++ [i]) cover' entries' ∧ Ready level next := by
  rw [encodeBlock]
  split
  · next j hfirst =>
    split_ifs with hequal
    · obtain ⟨cover', entries', henc', hready'⟩ := duplicate_spec henc hready hseen hi hfirst hequal
      exact ⟨_, cover', entries', rfl, henc', hready'⟩
    · exact fresh_spec henc hready hseen hnodup hi fun _ _ => .inl
  · refine fresh_spec henc hready hseen hnodup hi fun h j hj => ?_
    rw [update_apply] at hj
    split_ifs at hj with hsame
    · cases hj
      exact .inr rfl
    · exact .inl hj

theorem encodeLoop_spec {rest : List ℕ} (hsorted : (seen ++ rest).Pairwise (· < ·))
    (hinside : ∀ k ∈ rest, k < blockCount data.length) :
    ∃ next cover' entries', encodeLoop level data rest st = .ok next ∧
      Encoded data next (seen ++ rest) cover' entries' ∧ Ready level next := by
  induction rest generalizing st seen cover entries with
  | nil => exact ⟨st, cover, entries, rfl, by rwa [append_nil], hready⟩
  | cons i rest ih =>
    have hparts := pairwise_append.mp hsorted
    obtain ⟨middle, cover₁, entries₁, hblock, henc₁, hready₁⟩ :=
      encodeBlock_spec henc hready (fun k hk => hparts.2.2 k hk i mem_cons_self)
        (hparts.1.imp (fun h => h.ne)) (hinside i mem_cons_self)
    obtain ⟨next, cover', entries', hrest, henc', hready'⟩ := ih henc₁ hready₁
      (by simpa using hsorted) fun k hk => hinside k (mem_cons_of_mem _ hk)
    refine ⟨next, cover', entries', ?_, by simpa using henc', hready'⟩
    rw [encodeLoop, hblock, ok_bind, hrest]

end Block

theorem encoded_start (data : List Byte) : Encoded data (State.start data) [] ⟨[], none⟩ [] := by
  refine ⟨?_, .nil _, ?_, rfl, .nil, ?_, ?_, ?_, ?_, ?_⟩
  · simp [State.start, Out.bytes, Out.u64, Out.raw]
  · simp [State.start]
  all_goals simp [State.start]

theorem pairwise_present (data : List Byte) : (present data).Pairwise (· < ·) :=
  pairwise_lt_range.filter _

theorem mem_present {i : ℕ} :
    i ∈ present data ↔
      i < blockCount data.length ∧ ∃ byte ∈ block data i, byte ≠ 0 := by
  rw [present, mem_filter, mem_range, Bool.not_eq_true', ← Bool.not_eq_true, isZero_iff]
  push Not
  rfl

/-- `encode` returns, and what it emits is a run of entries that cover the
non-zero blocks. -/
theorem encode_spec (level : Level) (data : List Byte) :
    ∃ chunks entries cover, encode level data = .ok chunks ∧
      chunks.flatten = leBytes 8 data.length ++ leBytes 8 (present data).length ++
        entries.flatMap Entry.bytes ∧
      Run data ⟨[], none⟩ entries cover ∧ cover.done.Perm (present data) := by
  have hinside : ∀ k ∈ present data, k < blockCount data.length := fun k hk => (mem_present.mp hk).1
  have hready : Ready level (State.start data) := by
    cases level with
    | fast => rfl
    | small => exact show 0 < frameBlocks by decide
  obtain ⟨st, cover, entries, hloop, henc, hready'⟩ :=
    encodeLoop_spec (encoded_start data) hready
      (by simpa using pairwise_present data) hinside
  have hfinish : ∃ final cover' entries', st.close level data.length = .ok final ∧
      Encoded data final (present data) cover' entries' ∧ final.frame = [] := by
    cases level with
    | fast => exact ⟨st, cover, entries, rfl, henc, hready'⟩
    | small =>
      exact henc.flushFrame hinside ((pairwise_present data).imp (fun h => h.ne))
        (Nat.le_of_lt hready')
  obtain ⟨final, cover', entries', hrun, henc', hempty⟩ := hfinish
  have hencode : encode level data = .ok (if final.out.buf = [] then final.out.emitted
      else final.out.emitted ++ [final.out.buf]) := by
    rw [encode, hloop, ok_bind, hrun, ok_bind]
  refine ⟨_, entries', cover', hencode, ?_, henc'.run, ?_⟩
  · rw [← henc'.bytes, Out.bytes]
    split_ifs with hnone
    · rw [hnone, append_nil]
    · simp
  · have hperm := henc'.perm
    rwa [hempty, henc'.same_waits hempty, map_nil, append_nil,
      append_nil] at hperm

end Encoder

end Vetro.Blocks
