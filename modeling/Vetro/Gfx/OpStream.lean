import Vetro.Core.Bytes
import Vetro.Core.Splice

/-!
# The stream of GL operations

The decoder of the guest's GL calls collects operations in a batch, and the
browser walks the batch by the headers: a code, and the number of words up to the
next header.  The walk finds the operations again as long as every number of words
fits into the 16 bits that it has.  A list that the guest passes on can be longer;
in a release build, where the number is not checked, the walk then stops or takes an
argument for a header.
-/

namespace Vetro.OpStream

open Bytes Splice List

abbrev Word := BitVec 32

abbrev Code := BitVec 16

/-! ## Batches -/

/-- Batch under construction. -/
structure OpBuf where
  words : List Word := []
  blob : List Byte := []
  /-- Bytes that the read operations of this batch will write. -/
  outLen : ℕ := 0

/-- An operation with word arguments; the data have their blob reference after the
arguments, and `tail` are words after it. -/
structure Emission where
  code : Code
  args : List Word
  data : Option (List Byte) := none
  tail : List Word := []
  /-- Bytes of its result. -/
  reads : ℕ := 0

/-- `code << 16 | n`; that `n` fits is only checked in debug builds. -/
def headerWord (code : Code) (n : ℕ) : Word := code.setWidth 32 <<< 16 ||| BitVec.ofNat 32 n

namespace OpBuf

variable (b : OpBuf)

/-- Adds bytes to the blob, from the next multiple of 8 on; their offset and length. -/
def putBlob (data : List Byte) : OpBuf × Word × Word :=
  let off := (b.blob.length + 7) / 8 * 8
  ({ b with blob := b.blob ++ replicate (off - b.blob.length) 0 ++ data }, BitVec.ofNat 32 off,
    BitVec.ofNat 32 data.length)

def emit (e : Emission) : OpBuf :=
  let (b, ref) := match e.data with
    | none => (b, [])
    | some data =>
      let (b, off, len) := b.putBlob data
      (b, [off, len])
  let words := e.args ++ ref ++ e.tail
  { b with
    words := b.words ++ headerWord e.code (1 + words.length) :: words
    outLen := b.outLen + e.reads }

def op (code : Code) (args : List Word) : OpBuf := b.emit { code, args }

/-- An operation whose last two words are a blob reference to `data`. -/
def opBlob (code : Code) (args : List Word) (data : List Byte) : OpBuf :=
  b.emit { code, args, data := some data }

def opBlobThen (code : Code) (args : List Word) (data : List Byte) (tail : List Word) : OpBuf :=
  b.emit { code, args, data := some data, tail }

/-- A read operation with a result of `n` bytes. -/
def opRead (code : Code) (args : List Word) (n : ℕ) : OpBuf := b.emit { code, args, reads := n }

def emitAll (emissions : List Emission) : OpBuf := emissions.foldl emit b

end OpBuf

/-- The loop of the browser over the headers: the codes, with the words up to the next
header. -/
def walk : List Word → List (Word × List Word)
  | [] => []
  | h :: rest =>
    let n := (h &&& 0xffff).toNat
    if n = 0 then [] else (h >>> 16, rest.take (n - 1)) :: walk (rest.drop (n - 1))
termination_by words => words.length

/-! ## What the walk recovers -/

namespace Emission

/-- Words of the operation, with its header. -/
def size (e : Emission) : ℕ := 1 + e.args.length + (if e.data.isSome then 2 else 0) + e.tail.length

/-- Length of the blob behind the operation, where it is `n` before it. -/
def blobLen (n : ℕ) (e : Emission) : ℕ :=
  match e.data with
  | none => n
  | some data => (n + 7) / 8 * 8 + data.length

/-- The words after the header are the arguments and refer to the data, which are the bytes
`blob.subarray(off, off + len)`. -/
def Says (blob : List Byte) (e : Emission) (words : List Word) : Prop :=
  match e.data with
  | none => words = e.args ++ e.tail
  | some data => ∃ off len, words = e.args ++ [off, len] ++ e.tail ∧
    slice blob off.toNat (off.toNat + len.toNat) = data

/-- An operation that the walk found is the one that was emitted. -/
def Recovered (blob : List Byte) (e : Emission) (found : Word × List Word) : Prop :=
  found.1 = e.code.setWidth 32 ∧ e.Says blob found.2

end Emission

open Emission

/-! ## Headers -/

section

variable (code : Code) {n : ℕ} (hn : n < 2 ^ 16)
include hn

theorem toNat_headerWord : (headerWord code n).toNat = code.toNat * 2 ^ 16 + n := by
  have hshift : (code.setWidth 32 <<< 16).toNat = code.toNat <<< 16 := by
    rw [BitVec.toNat_shiftLeft, BitVec.toNat_setWidth_of_le (by decide), Nat.shiftLeft_eq]
    exact Nat.mod_eq_of_lt (by omega)
  rw [headerWord, BitVec.toNat_or, hshift, BitVec.toNat_ofNat, Nat.mod_eq_of_lt (by omega),
    ← Nat.shiftLeft_add_eq_or_of_lt hn, Nat.shiftLeft_eq]

theorem headerWord_code : headerWord code n >>> 16 = code.setWidth 32 := by
  apply BitVec.eq_of_toNat_eq
  rw [BitVec.toNat_ushiftRight, toNat_headerWord code hn, Nat.shiftRight_eq_div_pow,
    BitVec.toNat_setWidth_of_le (by decide)]
  omega

end

/-- The walk reads the number of words modulo 2^16. -/
theorem headerWord_count (code : Code) (n : ℕ) :
    (headerWord code n &&& 0xffff).toNat = n % 2 ^ 16 := by
  have hmask : (0xffff : Word).toNat = 2 ^ 16 - 1 := rfl
  have hlow : (code.setWidth 32 <<< 16).toNat % 2 ^ 16 = 0 := by
    rw [BitVec.toNat_shiftLeft, Nat.shiftLeft_eq]
    omega
  rw [BitVec.toNat_and, hmask, Nat.and_two_pow_sub_one_eq_mod, headerWord, BitVec.toNat_or,
    Nat.or_mod_two_pow, hlow, Nat.zero_or, BitVec.toNat_ofNat]
  omega

/-- The walk takes an operation whose size fits, and goes on behind it. -/
theorem walk_headerWord (code : Code) (args rest : List Word) (hfits : 1 + args.length < 2 ^ 16) :
    walk (headerWord code (1 + args.length) :: (args ++ rest)) =
      (code.setWidth 32, args) :: walk rest := by
  rw [walk, headerWord_count code, headerWord_code code hfits, Nat.mod_eq_of_lt hfits,
    if_neg (by omega), Nat.add_sub_cancel_left, take_left, drop_left]

/-! ## Runs -/

namespace OpBuf

variable (b : OpBuf)

theorem length_padded :
    (b.blob ++ replicate ((b.blob.length + 7) / 8 * 8 - b.blob.length) 0).length =
      (b.blob.length + 7) / 8 * 8 := by
  rw [length_append, length_replicate]
  omega

/-- The reference to bytes that were just added, if their offset fits into a word. -/
theorem slice_putBlob (data more : List Byte)
    (hsmall : (b.putBlob data).1.blob.length < 2 ^ 32) :
    slice ((b.putBlob data).1.blob ++ more) (b.putBlob data).2.1.toNat
      ((b.putBlob data).2.1.toNat + (b.putBlob data).2.2.toNat) = data := by
  have hslice := slice_middle (b.blob ++
    replicate ((b.blob.length + 7) / 8 * 8 - b.blob.length) 0) data more
  rw [length_padded] at hslice
  rw [putBlob] at hsmall ⊢
  rw [length_append, length_padded] at hsmall
  rw [BitVec.toNat_ofNat, BitVec.toNat_ofNat, Nat.mod_eq_of_lt (by omega),
    Nat.mod_eq_of_lt (by omega)]
  exact hslice

theorem length_blob_emit (e : Emission) : (b.emit e).blob.length = e.blobLen b.blob.length := by
  obtain ⟨code, args, data, tail, reads⟩ := e
  cases data with
  | none => rfl
  | some data =>
    change (b.blob ++ replicate _ 0 ++ data).length = (b.blob.length + 7) / 8 * 8 + data.length
    rw [length_append, length_padded]

theorem length_blob_emitAll (emissions : List Emission) :
    (b.emitAll emissions).blob.length = emissions.foldl blobLen b.blob.length := by
  induction emissions generalizing b with
  | nil => rfl
  | cons e emissions ih => rw [foldl_cons, ← length_blob_emit, ← ih]; rfl

/-- One operation in the batch, whose blob only grows. -/
theorem emit_spec (e : Emission) : ∃ words more,
    (b.emit e).words = b.words ++ headerWord e.code (1 + words.length) :: words ∧
    (b.emit e).blob = b.blob ++ more ∧ e.size = 1 + words.length ∧
    ((b.emit e).blob.length < 2 ^ 32 → ∀ more, e.Says ((b.emit e).blob ++ more) words) := by
  obtain ⟨code, args, data, tail, reads⟩ := e
  cases data with
  | none =>
    refine ⟨args ++ [] ++ tail, [], rfl, (append_nil _).symm, ?_, fun _ _ => ?_⟩
    · simp [size, Nat.add_assoc]
    · exact congrArg (· ++ tail) (append_nil args)
  | some data =>
    refine ⟨args ++ [_, _] ++ tail, _, rfl, append_assoc _ _ _, ?_, fun hsmall more => ?_⟩
    · simp [size]
      omega
    · exact ⟨_, _, rfl, b.slice_putBlob data more hsmall⟩

/-- A run adds words behind those of the batch. -/
theorem words_emitAll (emissions : List Emission) :
    ∃ words, (b.emitAll emissions).words = b.words ++ words := by
  induction emissions generalizing b with
  | nil => exact ⟨[], (append_nil _).symm⟩
  | cons e emissions ih =>
    obtain ⟨args, -, hwords, -⟩ := b.emit_spec e
    obtain ⟨words, hrest⟩ := ih (b.emit e)
    rw [hwords, append_assoc] at hrest
    exact ⟨_, hrest⟩

/-- The words that a run adds are those of its operations, with the blob at its end. -/
theorem walk_emitAll (emissions : List Emission) (hfits : ∀ e ∈ emissions, e.size < 2 ^ 16)
    (hsmall : (b.emitAll emissions).blob.length < 2 ^ 32) :
    ∃ words more, (b.emitAll emissions).words = b.words ++ words ∧
      (b.emitAll emissions).blob = b.blob ++ more ∧
      Forall₂ (Recovered (b.emitAll emissions).blob) emissions (walk words) := by
  induction emissions generalizing b with
  | nil => exact ⟨[], [], (append_nil _).symm, (append_nil _).symm, by rw [walk]; exact .nil⟩
  | cons e emissions ih =>
    obtain ⟨hfirst, hlater⟩ := forall_mem_cons.mp hfits
    obtain ⟨args, grown, hwords, hblob, hsize, hsays⟩ := b.emit_spec e
    obtain ⟨words, more, hrest, hmore, hrecovered⟩ := ih (b.emit e) hlater hsmall
    change ((b.emit e).emitAll emissions).blob.length < _ at hsmall
    rw [hmore, length_append] at hsmall
    refine ⟨headerWord e.code (1 + args.length) :: (args ++ words), grown ++ more, ?_, ?_, ?_⟩
    · change ((b.emit e).emitAll emissions).words = _
      rw [hrest, hwords, append_assoc, cons_append]
    · change ((b.emit e).emitAll emissions).blob = _
      rw [hmore, hblob, append_assoc]
    · rw [walk_headerWord _ _ _ (hsize ▸ hfirst)]
      refine .cons ⟨rfl, ?_⟩ hrecovered
      change e.Says ((b.emit e).emitAll emissions).blob args
      rw [hmore]
      exact hsays (by omega) more

end OpBuf

/-- Whatever the decoder emits: if every operation has fewer than 65536 words and the blob
fewer than 2^32 bytes, the walk finds exactly the operations, with their codes, arguments and
data. -/
theorem recovered_of_fits (emissions : List Emission) (hfits : ∀ e ∈ emissions, e.size < 2 ^ 16)
    (hsmall : emissions.foldl blobLen 0 < 2 ^ 32) :
    Forall₂ (Recovered (({} : OpBuf).emitAll emissions).blob) emissions
      (walk (({} : OpBuf).emitAll emissions).words) := by
  obtain ⟨words, -, hwords, -, hrecovered⟩ := OpBuf.walk_emitAll {} emissions hfits
    ((OpBuf.length_blob_emitAll {} emissions).trans_lt hsmall)
  rw [hwords]
  exact hrecovered

theorem recovered_two :
    let emissions : List Emission := [⟨2, [5, 6], none, [], 0⟩, ⟨83, [1], some [7, 8, 9], [], 0⟩]
    Forall₂ (Recovered (({} : OpBuf).emitAll emissions).blob) emissions
      (walk (({} : OpBuf).emitAll emissions).words) :=
  recovered_of_fits _ (by decide) (by decide)

/-- An operation of 65536 words stops the walk at its header, and with it the rest of the
batch. -/
theorem walk_of_size {e : Emission} (hsize : e.size = 2 ^ 16) (later : List Emission) :
    walk (({} : OpBuf).emitAll (e :: later)).words = [] := by
  obtain ⟨args, -, hfirst, -, hcount, -⟩ := OpBuf.emit_spec {} e
  obtain ⟨more, hmore⟩ := (({} : OpBuf).emit e).words_emitAll later
  have hwords : (({} : OpBuf).emitAll (e :: later)).words =
      headerWord e.code (1 + args.length) :: (args ++ more) := by
    change ((({} : OpBuf).emit e).emitAll later).words = _
    rw [hmore, hfirst]
    rfl
  rw [hwords, walk, headerWord_count, ← hcount, hsize]
  exact if_pos rfl

/-! ## Lists of the guest

Three operations pass on a list of any length: the draw buffers, the attachments to
invalidate, and the uniforms of a program. -/

/-- The names that a call passes as a pointer, cut at their number. -/
def namesIn (bytes : List Byte) (n : ℕ) : List Word :=
  ((asChunks 4 bytes).1.map fun chunk => BitVec.ofNat 32 (ofLeBytes chunk)).take n

/-- `glDrawBuffers`, with the number and the names of the call: BACK on framebuffer 0 is the
surface's first color attachment. -/
def glDrawBuffers (n : Word) (bytes : List Byte) (drawDefault : Bool) : Emission :=
  let bufs := namesIn bytes n.toInt.toNat
  { code := 73
    args := if drawDefault then bufs.map fun b => if b = 0x0405 then 0x8CE0 else b else bufs }

/-- `glInvalidateFramebuffer` and `glDiscardFramebufferEXT`: COLOR, DEPTH and STENCIL on
framebuffer 0 are attachments of the surface. -/
def glInvalidateFramebuffer (target n : Word) (bytes : List Byte) (drawDefault : Bool) :
    Emission :=
  let att := namesIn bytes n.toInt.toNat
  let surface (x : Word) : Word :=
    if x = 0x1800 then 0x8CE0 else if x = 0x1801 then 0x8D00 else if x = 0x1802 then 0x8D20 else x
  { code := 76, args := target :: if drawDefault then att.map surface else att }

/-- Uniform of a linked program, with the first of its virtual locations. -/
structure UniformLoc where
  name : List Byte
  size : Word
  array : Bool
  base : Word

/-- Words and names of the uniforms so far, with one more: its name goes behind the others. -/
def UniformLoc.put (lists : List Word × List Byte) (u : UniformLoc) : List Word × List Byte :=
  let (words, names) := lists
  let off := BitVec.ofNat 32 names.length
  let len := BitVec.ofNat 32 u.name.length
  (words ++ [u.base, u.size, off, len, if u.array then 1 else 0], names ++ u.name)

/-- The operation after the link of a program: where each name is in the blob. -/
def programUniforms (pid : Word) (uniforms : List UniformLoc) : Emission :=
  let lists := uniforms.foldl UniformLoc.put ([pid], [])
  { code := 83, args := lists.1, data := some lists.2 }

theorem length_namesIn (bytes : List Byte) (n : ℕ) :
    (namesIn bytes n).length = min n (bytes.length / 4) := by
  rw [namesIn, length_take, length_map, asChunks, length_map, length_range]

theorem length_foldl_put (uniforms : List UniformLoc) (lists : List Word × List Byte) :
    (uniforms.foldl UniformLoc.put lists).1.length = lists.1.length + 5 * uniforms.length := by
  induction uniforms generalizing lists with
  | nil => rfl
  | cons u uniforms ih =>
    rw [foldl_cons, ih, UniformLoc.put, length_append, length_cons]
    simp only [length_cons, length_nil]
    omega

/-- What the guest has to keep to, by the length of its list: at most 65534 draw buffers,
65533 attachments and 13106 uniforms. -/
theorem size_of_list (target n pid : Word) (bytes : List Byte) (drawDefault : Bool)
    (uniforms : List UniformLoc) :
    (glDrawBuffers n bytes drawDefault).size = 1 + min n.toInt.toNat (bytes.length / 4) ∧
      (glInvalidateFramebuffer target n bytes drawDefault).size =
        2 + min n.toInt.toNat (bytes.length / 4) ∧
      (programUniforms pid uniforms).size = 4 + 5 * uniforms.length := by
  have hnames := length_namesIn bytes n.toInt.toNat
  refine ⟨?_, ?_, ?_⟩
  · cases drawDefault <;> simp [size, glDrawBuffers, hnames]
  · cases drawDefault <;> simp [size, glInvalidateFramebuffer, hnames] <;> omega
  · rw [size, programUniforms, length_foldl_put]
    simp
    omega

/-- A list of 65535 draw buffers makes an operation of 65536 words. -/
theorem not_recovered_glDrawBuffers :
    let e := glDrawBuffers 65535 (replicate (4 * 65535) 0) false
    ¬Forall₂ (Recovered (({} : OpBuf).emitAll [e]).blob) [e]
      (walk (({} : OpBuf).emitAll [e]).words) := by
  intro e hrecovered
  have hsize : e.size = 2 ^ 16 := by
    rw [(size_of_list 0 65535 0 (replicate (4 * 65535) 0) false []).1, length_replicate]
    rfl
  rw [walk_of_size hsize] at hrecovered
  cases hrecovered

end Vetro.OpStream
