import Vetro.Core.BitPack
import Vetro.Core.Lz77
import Vetro.Snapshot.Format

/-!
# The block codec

`vetro-snapshot/src/lz.rs`: a greedy LZ77 for one block with a 4-byte hash
table.  A compressed block is a sequence of LEB128 tokens: an even token counts
literal bytes, an odd one is a copy followed by its distance.  The compressor
checks the bytes of every candidate, so a round trip holds for any contents of
the hash table.
-/

namespace Vetro.Lz

open Bytes List Function
open Splice
open Outcome
open Lz77
open BitPack (or_shiftLeft_mod)
open Format (Error)

/-- Shortest copy worth encoding. -/
def minMatch : ℕ := 4

/-- Hash table reusable from one block to the next: the valid entries of the
current block are at least `base`. -/
structure Table where
  slots : Fin 4096 → ℕ
  base : ℕ

def Table.new : Table := ⟨fun _ => 0, 1⟩

/-- Start of a block of length `len`: the previous entries are no longer
valid. -/
def Table.start (table : Table) (len : ℕ) : ℕ × Table :=
  let cleared : Table := if 2 ^ 32 - 1 ≤ table.base + len + 1 then ⟨fun _ => 0, 1⟩ else table
  (cleared.base, { cleared with base := cleared.base + len + 1 })

/-- The top 12 bits of the wrapping product. -/
def hash (v : ℕ) : Fin 4096 :=
  ⟨v * 0x9e3779b1 % 2 ^ 32 / 2 ^ 20, by omega⟩

def putVarint (v : ℕ) : List Byte :=
  if 0x80 ≤ v then (UInt8.ofNat v ||| 0x80) :: putVarint (v / 128)
  else [UInt8.ofNat v]

/-- The loop of `get_varint`, with the number of shifts left. -/
def getVarintFrom (src : List Byte) : ℕ → ℕ → ℕ → ℕ → Result Error (ℕ × ℕ)
  | 0, _, _, _ => fail (.invalid "LEB128 integer too long")
  | left + 1, shift, pos, v =>
    match src[pos]? with
    | none => fail .truncated
    | some byte =>
      let next := v ||| ((byte &&& 0x7f).toNat <<< shift) % 2 ^ 64
      if byte &&& 0x80 = 0 then .ok (next, pos + 1)
      else getVarintFrom src left (shift + 7) (pos + 1) next

/-- The value at `pos` and the position after it: shifts 0, 7, ..., 63. -/
def getVarint (src : List Byte) (pos : ℕ) : Result Error (ℕ × ℕ) :=
  getVarintFrom src 10 0 pos 0

def literals (lit : List Byte) : List Byte :=
  if lit.isEmpty then [] else putVarint (2 * lit.length) ++ lit

def word (b : List Byte) (i : ℕ) : ℕ := ofLeBytes (slice b i (i + 4))

/-- The length of a match grows as long as the bytes agree. -/
def matchLen (src : List Byte) (c i len : ℕ) : ℕ :=
  if i + len < src.length ∧ src[c + len]? = src[i + len]? then
    matchLen src c i (len + 1)
  else len
termination_by src.length - (i + len)

theorem le_matchLen (src : List Byte) (c i len : ℕ) : len ≤ matchLen src c i len := by
  fun_induction matchLen src c i len with
  | case1 len hmore ih => omega
  | case2 len hstop => exact le_rfl

/-- The loop of `compress`: position `i`, literals pending from `litStart`. -/
def compressLoop (src : List Byte) (base i litStart : ℕ)
    (slots : Fin 4096 → ℕ) (out : List Byte) : List Byte × (Fin 4096 → ℕ) :=
  if i + minMatch ≤ src.length then
    let h := hash (word src i)
    let cand := slots h
    let slots := update slots h (base + i)
    let c := cand - base
    if base ≤ cand ∧ c < i ∧ word src c = word src i then
      let len := matchLen src c i minMatch
      compressLoop src base (i + len) (i + len) slots
        (out ++ literals (slice src litStart i) ++
          putVarint (2 * (len - minMatch) + 1) ++ putVarint (i - c))
    else compressLoop src base (i + 1) litStart slots out
  else (out ++ literals (src.drop litStart), slots)
termination_by src.length - i
decreasing_by
  · have hgrows : minMatch ≤ len := le_matchLen src c i minMatch
    have hmin : minMatch = 4 := rfl
    change src.length - (i + len) < src.length - i
    omega
  · have hmin : minMatch = 4 := rfl
    omega

/-- The bytes appended for `src`, and the table afterwards. -/
def compress (src : List Byte) (table : Table) : List Byte × Table :=
  let (base, started) := table.start src.length
  let (out, slots) := compressLoop src base 0 0 started.slots []
  (out, { started with slots })

def bad (what : String) : Error := .invalid ("compressed block: " ++ what)

variable {src : List Byte}

theorem lt_of_getVarintFrom {left shift pos v value next : ℕ}
    (hread : getVarintFrom src left shift pos v = .ok (value, next)) : pos < next := by
  induction left generalizing shift pos v with
  | zero => simp [getVarintFrom, fail] at hread
  | succ left ih =>
    rw [getVarintFrom] at hread
    cases hbyte : src[pos]? with
    | none => simp [hbyte, fail] at hread
    | some byte =>
      simp only [hbyte] at hread
      split at hread
      · simp only [Except.ok.injEq, Prod.mk.injEq] at hread
        omega
      · have hlater := ih hread
        omega

/-- The loop of `decompress`: `p` in the compressed bytes, `o` in `dst`. -/
def decompressLoop (src : List Byte) (p o : ℕ) (dst : List Byte) : Result Error (ℕ × List Byte) :=
  if p < src.length then
    match _htoken : getVarint src p with
    | .error stop => .error stop
    | .ok (t, p₁) =>
      if t % 2 = 0 then
        let len := t / 2
        if len = 0 ∨ dst.length - o < len ∨ src.length - p₁ < len then
          fail (bad "literals past the block")
        else
          decompressLoop src (p₁ + len) (o + len)
            (writeAt dst o (slice src p₁ (p₁ + len)))
      else
        let len := min (t / 2 + minMatch) (2 ^ 64 - 1)
        match _hdistance : getVarint src p₁ with
        | .error stop => .error stop
        | .ok (d, p₂) =>
          if d = 0 ∨ o < d ∨ dst.length - o < len then
            fail (bad "copy outside the block")
          else if len ≤ d then
            decompressLoop src p₂ (o + len)
              (writeAt dst o (slice dst (o - d) (o - d + len)))
          else decompressLoop src p₂ (o + len) (copyForward dst o d len)
  else .ok (o, dst)
termination_by src.length - p
decreasing_by
  all_goals
    have hfirst := lt_of_getVarintFrom _htoken
    try have hsecond := lt_of_getVarintFrom _hdistance
    omega

/-- Decompresses `src` into `dst`, which must end up filled exactly. -/
def decompress (src dst : List Byte) : Result Error (List Byte) := do
  let (o, out) ← decompressLoop src 0 0 dst
  if o ≠ dst.length then fail (bad "shorter than expected") else .ok out

/-! ## LEB128 numbers -/

private theorem byte_bits : ∀ byte : Fin 256,
    ((UInt8.ofFin byte ||| 0x80) &&& 0x7f).toNat = byte.val % 128 ∧
      (UInt8.ofFin byte ||| 0x80) &&& 0x80 ≠ 0 ∧
      (byte.val < 128 → (UInt8.ofFin byte &&& 0x7f).toNat = byte.val ∧
        UInt8.ofFin byte &&& 0x80 = 0) := by
  decide +kernel

/-- A byte with the continuation bit set carries the low seven bits. -/
theorem continued_byte (v : ℕ) : ((UInt8.ofNat v ||| 0x80) &&& 0x7f).toNat = v % 128 ∧
      (UInt8.ofNat v ||| 0x80) &&& 0x80 ≠ 0 := by
  have hbits := byte_bits (Fin.ofNat 256 v)
  refine ⟨hbits.1.trans ?_, hbits.2.1⟩
  simp only [Fin.val_ofNat]
  omega

/-- The last byte of a number is the number itself. -/
theorem last_byte {v : ℕ} (hsmall : v < 128) :
    (UInt8.ofNat v &&& 0x7f).toNat = v ∧ UInt8.ofNat v &&& 0x80 = 0 := by
  have hbits := (byte_bits (Fin.ofNat 256 v)).2.2
  have hval : (Fin.ofNat 256 v).val = v := by
    simp only [Fin.val_ofNat]
    omega
  rw [hval] at hbits
  exact hbits hsmall

variable {tail : List Byte}

/-- The byte at `pos` when the bytes from there on are known. -/
private theorem getElem?_of_drop {pos : ℕ} {byte : Byte}
    (hsrc : src.drop pos = byte :: tail) : src[pos]? = some byte := by
  have hhead := congrArg (fun list => list[0]?) hsrc
  simpa using hhead

/-- A number below 128 takes one byte, whatever shift it is read at. -/
theorem getVarintFrom_last {left shift pos acc v : ℕ} (hacc : acc < 2 ^ shift)
    (hfits : v * 2 ^ shift < 2 ^ 64) (hsmall : v < 128)
    (hsrc : src.drop pos = putVarint v ++ tail) :
    getVarintFrom src (left + 1) shift pos acc =
      .ok (acc + v * 2 ^ shift, pos + (putVarint v).length) := by
  have hput : putVarint v = [UInt8.ofNat v] := by
    rw [putVarint, if_neg (by omega)]
  rw [hput] at hsrc
  obtain ⟨hlow, hlast⟩ := last_byte hsmall
  rw [getVarintFrom, getElem?_of_drop hsrc]
  simp only [hlast, if_true, hlow, or_shiftLeft_mod hacc hfits, hput, length_singleton]

theorem getVarintFrom_putVarint (left : ℕ) {shift pos acc v : ℕ}
    (hacc : acc < 2 ^ shift) (hfits : v * 2 ^ shift < 2 ^ 64) (hleft : v < 2 ^ (7 * (left + 1)))
    (hsrc : src.drop pos = putVarint v ++ tail) :
    getVarintFrom src (left + 1) shift pos acc =
      .ok (acc + v * 2 ^ shift, pos + (putVarint v).length) := by
  induction left generalizing shift pos acc v with
  | zero => exact getVarintFrom_last hacc hfits (by simpa using hleft) hsrc
  | succ left ih =>
    by_cases hsmall : v < 128
    · exact getVarintFrom_last hacc hfits hsmall hsrc
    have hput : putVarint v = (UInt8.ofNat v ||| 0x80) :: putVarint (v / 128) := by
      rw [putVarint, if_pos (by omega)]
    rw [hput, cons_append] at hsrc
    have hrest : src.drop (pos + 1) = putVarint (v / 128) ++ tail := by
      have htail := congrArg (List.drop 1) hsrc
      rwa [drop_drop, drop_one, tail_cons] at htail
    obtain ⟨hlow, hmore⟩ := continued_byte v
    have hpow : 2 ^ (shift + 7) = 128 * 2 ^ shift := by
      ring
    have hvalue : v * 2 ^ shift =
        v % 128 * 2 ^ shift + v / 128 * 2 ^ (shift + 7) := by
      conv_lhs => rw [← Nat.mod_add_div v 128]
      ring
    have hhere : v % 128 * 2 ^ shift < 2 ^ 64 := by omega
    have hcarry : v % 128 * 2 ^ shift ≤ 127 * 2 ^ shift := Nat.mul_le_mul_right _ (by omega)
    have hleft' : v / 128 < 2 ^ (7 * (left + 1)) := by
      rw [Nat.div_lt_iff_lt_mul (by decide)]
      calc
        v < 2 ^ (7 * (left + 1 + 1)) := hleft
        _ = 2 ^ (7 * (left + 1)) * 128 := by
          rw [show 7 * (left + 1 + 1) = 7 * (left + 1) + 7 by ring, pow_add]
          norm_num
    rw [getVarintFrom, getElem?_of_drop hsrc]
    simp only [hmore, if_false, hlow, or_shiftLeft_mod hacc hhere]
    rw [ih (by omega) (by omega) hleft' hrest, hput, length_cons, hvalue]
    congr 2
    · omega
    · omega

/-- Every 64-bit number is read back. -/
theorem getVarint_putVarint {pos v : ℕ} (hv : v < 2 ^ 64)
    (hsrc : src.drop pos = putVarint v ++ tail) :
    getVarint src pos = .ok (v, pos + (putVarint v).length) := by
  have hread := getVarintFrom_putVarint 9 (show 0 < 2 ^ 0 by norm_num) (by omega) (by omega) hsrc
  simpa [getVarint] using hread

/-! ## Round trip -/

variable {dst : List Byte}

/-- One step of the decoder over a run of literals. -/
theorem decompressLoop_literals {p o p₁ len : ℕ} (hp : p < src.length)
    (htoken : getVarint src p = .ok (2 * len, p₁)) (hlen : 0 < len) (hdst : len ≤ dst.length - o)
    (hsrc : len ≤ src.length - p₁) :
    decompressLoop src p o dst =
      decompressLoop src (p₁ + len) (o + len) (writeAt dst o (slice src p₁ (p₁ + len))) := by
  have hhalf : 2 * len / 2 = len := by omega
  rw [decompressLoop, if_pos hp]
  split
  · next stop heq => rw [htoken] at heq; cases heq
  · next t next heq =>
    rw [htoken] at heq
    cases heq
    rw [if_pos (by omega)]
    simp only [hhalf]
    rw [if_neg (by omega)]

/-- One step of the decoder over a copy, in either of its two forms. -/
theorem decompressLoop_copy {p o p₁ p₂ len d : ℕ} (hp : p < src.length)
    (htoken : getVarint src p = .ok (2 * (len - minMatch) + 1, p₁))
    (hdistance : getVarint src p₁ = .ok (d, p₂)) (hmin : minMatch ≤ len) (hmax : len < 2 ^ 64)
    (hd : 0 < d) (hback : d ≤ o) (hdst : len ≤ dst.length - o) :
    decompressLoop src p o dst =
      if len ≤ d then
        decompressLoop src p₂ (o + len) (writeAt dst o (slice dst (o - d) (o - d + len)))
      else decompressLoop src p₂ (o + len) (copyForward dst o d len) := by
  have hodd : ¬(2 * (len - minMatch) + 1) % 2 = 0 := by omega
  have hvalue : min ((2 * (len - minMatch) + 1) / 2 + minMatch) (2 ^ 64 - 1) = len := by
    omega
  rw [decompressLoop, if_pos hp]
  split
  · next stop heq => rw [htoken] at heq; cases heq
  · next t next heq =>
    rw [htoken] at heq
    cases heq
    rw [if_neg hodd]
    simp only [hvalue]
    split
    · next stop heq => rw [hdistance] at heq; cases heq
    · next t next heq =>
      rw [hdistance] at heq
      cases heq
      rw [if_neg (by omega)]

/-- The bytes `out` decode to the first `count` bytes of `src`, whatever
follows them. -/
def Decodes (src out : List Byte) (count : ℕ) : Prop :=
  ∀ more dst : List Byte, dst.length = src.length →
    ∃ filled, decompressLoop (out ++ more) 0 0 dst =
        decompressLoop (out ++ more) out.length count filled ∧
      Filled src filled count

theorem decodes_nil (src : List Byte) : Decodes src [] 0 :=
  fun _ dst hlength => ⟨dst, rfl, filled_zero hlength⟩

theorem putVarint_length_pos (v : ℕ) : 0 < (putVarint v).length := by
  rw [putVarint]
  split <;> simp

theorem Decodes.append_literals {out : List Byte} {start stop : ℕ}
    (hdecodes : Decodes src out start) (hstart : start ≤ stop) (hstop : stop ≤ src.length)
    (hbound : src.length < 2 ^ 63) : Decodes src (out ++ literals (slice src start stop)) stop := by
  have hlength : (slice src start stop).length = stop - start := length_slice_of_le hstop
  by_cases hempty : start = stop
  · subst hempty
    simpa [Lz.literals] using hdecodes
  have hpieces : literals (slice src start stop) =
      putVarint (2 * (stop - start)) ++ slice src start stop := by
    rw [Lz.literals, if_neg, hlength]
    rw [isEmpty_iff_length_eq_zero]
    omega
  rw [hpieces]
  intro more dst hdst
  obtain ⟨filled, hrun, hfilled⟩ :=
    hdecodes (putVarint (2 * (stop - start)) ++ slice src start stop ++ more) dst hdst
  refine ⟨writeAt filled start (slice src start stop), ?_, hfilled.writeAt_slice hstart hstop⟩
  rw [← append_assoc] at hrun
  rw [hrun]
  have hdrop : (out ++ (putVarint (2 * (stop - start)) ++ slice src start stop) ++
      more).drop out.length =
        putVarint (2 * (stop - start)) ++ (slice src start stop ++ more) := by
    rw [append_assoc, drop_left, append_assoc]
  have htoken := getVarint_putVarint (by omega) hdrop
  have hbytes := slice_middle (out ++ putVarint (2 * (stop - start))) (slice src start stop) more
  rw [length_append, hlength] at hbytes
  rw [decompressLoop_literals (by simp only [length_append]; omega) htoken
    (by omega) (by rw [hfilled.length_eq]; omega)
    (by simp only [length_append, hlength]; omega)]
  simp only [append_assoc] at hbytes ⊢
  rw [hbytes]
  simp only [length_append, hlength]
  congr 1
  · omega
  · omega

theorem Decodes.append_copy {out : List Byte} {start d len : ℕ} (hdecodes : Decodes src out start)
    (hrepeats : Repeats src start d len) (hmin : minMatch ≤ len) (hbound : src.length < 2 ^ 63) :
    Decodes src (out ++ putVarint (2 * (len - minMatch) + 1) ++ putVarint d) (start + len) := by
  have hfits := hrepeats.fits
  have hback := hrepeats.back
  intro more dst hdst
  obtain ⟨filled, hrun, hfilled⟩ :=
    hdecodes (putVarint (2 * (len - minMatch) + 1) ++ putVarint d ++ more) dst hdst
  simp only [← append_assoc] at hrun
  rw [hrun]
  set stream := out ++ putVarint (2 * (len - minMatch) + 1) ++ putVarint d ++ more with hstream
  have hdropToken : stream.drop out.length =
      putVarint (2 * (len - minMatch) + 1) ++ (putVarint d ++ more) := by
    rw [hstream, append_assoc, append_assoc, drop_left]
  have hdropDistance : stream.drop
      (out.length + (putVarint (2 * (len - minMatch) + 1)).length) =
        putVarint d ++ more := by
    rw [hstream, append_assoc, ← length_append, drop_left]
  have htoken := getVarint_putVarint (by omega) hdropToken
  have hdistance := getVarint_putVarint (by omega) hdropDistance
  have hhead := putVarint_length_pos (2 * (len - minMatch) + 1)
  have hp : out.length < stream.length := by
    rw [hstream]
    simp only [length_append]
    omega
  have hposition : (out ++ putVarint (2 * (len - minMatch) + 1) ++ putVarint d).length =
      out.length + (putVarint (2 * (len - minMatch) + 1)).length +
        (putVarint d).length := by
    simp only [length_append]
  rw [hposition, decompressLoop_copy hp htoken hdistance hmin (by omega) hrepeats.pos
    hback (by rw [hfilled.length_eq]; omega)]
  by_cases hfar : len ≤ d
  · rw [if_pos hfar]
    exact ⟨_, rfl, hfilled.copy_within hrepeats hfar⟩
  · rw [if_neg hfar]
    exact ⟨_, rfl, hfilled.copyForward hrepeats⟩

/-- Bytes that decode to the whole of `src` decompress to it. -/
theorem Decodes.decompress {out dst : List Byte} (hdecodes : Decodes src out src.length)
    (hlength : dst.length = src.length) : decompress out dst = .ok src := by
  obtain ⟨filled, hrun, hfilled⟩ := hdecodes [] dst hlength
  rw [append_nil] at hrun
  have hend : decompressLoop out out.length src.length filled =
      .ok (src.length, filled) := by
    rw [decompressLoop, if_neg (lt_irrefl _)]
  rw [Lz.decompress, hrun, hend, ok_bind]
  simp [hlength, hfilled.eq]

/-- The bytes of a match agree as far as its length says. -/
theorem matchLen_same (src : List Byte) (c i len : ℕ) (hstart : i + len ≤ src.length)
    (hsame : ∀ offset < len, src[c + offset]? = src[i + offset]?) :
    i + matchLen src c i len ≤ src.length ∧
      ∀ offset < matchLen src c i len, src[c + offset]? = src[i + offset]? := by
  fun_induction matchLen src c i len with
  | case1 len hmore ih =>
    refine ih (by omega) fun offset hoffset => ?_
    rcases Nat.lt_succ_iff_lt_or_eq.mp hoffset with hbefore | rfl
    · exact hsame offset hbefore
    · exact hmore.2
  | case2 len hstop => exact ⟨hstart, hsame⟩

/-- Equal words have equal bytes. -/
theorem word_same {c i : ℕ} (hc : c + 4 ≤ src.length) (hi : i + 4 ≤ src.length)
    (hword : word src c = word src i) : ∀ offset < 4, src[c + offset]? = src[i + offset]? := by
  have hbytes : slice src c (c + 4) = slice src i (i + 4) := by
    apply ofLeBytes_injective_of_length
    · rw [length_slice_of_le hc, length_slice_of_le hi]
      omega
    · exact hword
  intro offset hoffset
  have hread := congrArg (fun list => list[offset]?) hbytes
  simp only [getElem?_slice] at hread
  rwa [if_pos (by omega), if_pos (by omega)] at hread

theorem decodes_compressLoop (src : List Byte) (hbound : src.length < 2 ^ 63)
    (base i litStart : ℕ) (slots : Fin 4096 → ℕ) (out : List Byte)
    (hlit : litStart ≤ i) (hi : i ≤ src.length) (hdecodes : Decodes src out litStart) :
    Decodes src (compressLoop src base i litStart slots out).1 src.length := by
  have hfour : minMatch = 4 := rfl
  fun_induction compressLoop src base i litStart slots out with
  | case1 i litStart slots out hroom h cand slots' c hmatch len ih =>
    have hbefore := hdecodes.append_literals hlit hi hbound
    obtain ⟨hfits, hsame⟩ := matchLen_same src c i minMatch (by omega)
      (word_same (by omega) (by omega) hmatch.2.2)
    have hrepeats : Repeats src i (i - c) len := by
      refine ⟨by omega, by omega, hfits, fun offset hoffset => ?_⟩
      rw [← hsame offset hoffset]
      congr 1
      omega
    exact ih le_rfl hfits (hbefore.append_copy hrepeats (le_matchLen src c i minMatch) hbound)
  | case2 i litStart slots out hroom h cand slots' c hmatch ih =>
    exact ih (by omega) (by omega) hdecodes
  | case3 i litStart slots out hroom =>
    have hrest : src.drop litStart = slice src litStart src.length := by
      rw [slice, take_of_length_le (by rw [length_drop])]
    rw [hrest]
    exact hdecodes.append_literals (by omega) le_rfl hbound

/-- What `compress` appends, whatever the table holds, decompresses to the
source. -/
theorem decompress_compress (table : Table) (hbound : src.length < 2 ^ 63)
    (hlength : dst.length = src.length) : decompress (compress src table).1 dst = .ok src := by
  have hdecodes := decodes_compressLoop src hbound (table.start src.length).1 0 0
    (table.start src.length).2.slots [] le_rfl (Nat.zero_le _) (decodes_nil src)
  exact hdecodes.decompress hlength

/-! ## The table from one block to the next

The table is never cleared between blocks.  An entry below the base of the
current block is stale, and two tables whose other entries name the same
positions of the block lead to the same tokens. -/

/-- The tables that calls of `compress` leave, starting from a fresh one.  A
source of `2 ^ 32 - 2` bytes or more does not fit the 32-bit positions. -/
inductive Reachable : Table → Prop
  | new : Reachable Table.new
  | compress {table : Table} (hreachable : Reachable table) (src : List Byte)
      (hfits : src.length + 2 < 2 ^ 32) : Reachable (compress src table).2

/-- Every entry of the table is older than the next block. -/
def Stale (base : ℕ) (slots : Fin 4096 → ℕ) : Prop := ∀ h, slots h < base

variable {table : Table}

theorem stale_start (len : ℕ) (hstale : Stale table.base table.slots) :
    Stale (table.start len).1 (table.start len).2.slots := by
  intro h
  unfold Table.start
  split
  · exact Nat.one_pos
  · exact hstale h

/-- The positions of a block lie between its base and the next one. -/
theorem compressLoop_slots_lt (src : List Byte) (base i litStart : ℕ)
    (slots : Fin 4096 → ℕ) (out : List Byte) (hslots : Stale (base + src.length + 1) slots) :
    Stale (base + src.length + 1) (compressLoop src base i litStart slots out).2 := by
  have hupdate : ∀ (i : ℕ) (slots : Fin 4096 → ℕ) (h : Fin 4096), i + minMatch ≤ src.length →
      Stale (base + src.length + 1) slots →
        Stale (base + src.length + 1) (update slots h (base + i)) := by
    intro i slots h hroom hslots other
    rw [update_apply]
    split
    · omega
    · exact hslots other
  fun_induction compressLoop src base i litStart slots out with
  | case1 i litStart slots out hroom h cand slots' c hmatch len ih =>
    exact ih (hupdate i slots h hroom hslots)
  | case2 i litStart slots out hroom h cand slots' c hmatch ih =>
    exact ih (hupdate i slots h hroom hslots)
  | case3 i litStart slots out hroom => exact hslots

theorem Reachable.stale (hreachable : Reachable table) :
    Stale table.base table.slots := by
  induction hreachable with
  | new => exact fun _ => Nat.one_pos
  | @compress table _ src _ ih =>
    apply compressLoop_slots_lt src (table.start src.length).1
    intro h
    have hstart := stale_start src.length ih h
    exact Nat.lt_of_lt_of_le hstart (by omega)

/-- The entries of two tables are both stale or name one position of the
block. -/
def SameEntries (left right : ℕ) (leftSlots rightSlots : Fin 4096 → ℕ) : Prop :=
  ∀ h, (leftSlots h < left ∧ rightSlots h < right) ∨
    ∃ c, leftSlots h = left + c ∧ rightSlots h = right + c

variable {leftSlots rightSlots : Fin 4096 → ℕ}

theorem SameEntries.update {left right : ℕ}
    (hsame : SameEntries left right leftSlots rightSlots) (h : Fin 4096) (i : ℕ) :
    SameEntries left right (update leftSlots h (left + i))
      (update rightSlots h (right + i)) := by
  intro other
  rw [update_apply, update_apply]
  split
  · exact .inr ⟨i, rfl, rfl⟩
  · exact hsame other

end Vetro.Lz
