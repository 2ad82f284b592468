import Vetro.Core.Bytes
import Vetro.Core.Splice
import Vetro.Snapshot.PrefixCode

/-!
# The bit stream of a frame

`BitWriter` and `BitReader` of the frame codec.  Both keep a 64-bit
accumulator.  The reader's refill loads eight bytes at once where it can and
leaves real stream bits above the `n` it counts; the next refill sets them
again to the same values.
-/

namespace Vetro.BitStream

open Bytes List
open BitPack
open Splice
open Outcome
open PrefixCode
open Format (Error)

/-! ## Model -/

structure BitWriter where
  out : List Byte
  acc : ℕ
  n : ℕ

/-- `while n >= 8`: the whole bytes of the accumulator go to the output. -/
def drain (out : List Byte) (acc n : ℕ) : BitWriter :=
  if 8 ≤ n then drain (out ++ [UInt8.ofNat acc]) (acc >>> 8) (n - 8) else ⟨out, acc, n⟩
termination_by n

def BitWriter.put (w : BitWriter) (v bits : ℕ) : BitWriter :=
  drain w.out (w.acc ||| (v <<< w.n) % 2 ^ 64) (w.n + bits)

def BitWriter.finish (w : BitWriter) : List Byte :=
  if 0 < w.n then w.out ++ [UInt8.ofNat w.acc] else w.out

structure BitReader where
  src : List Byte
  pos : ℕ
  acc : ℕ
  n : ℕ

/-- The refill near the end of the stream, one byte at a time, zeros past the
end. -/
def refillBytes (src : List Byte) (pos acc n : ℕ) : BitReader :=
  if n ≤ 56 then
    refillBytes src (pos + 1) (acc ||| ((src.getD pos 0).toNat <<< n) % 2 ^ 64) (n + 8)
  else ⟨src, pos, acc, n⟩
termination_by 64 - n

/-- At least 56 bits in `acc` (zeros past the end: `check` tells). -/
def BitReader.refill (r : BitReader) : Result Error BitReader :=
  if r.pos + 8 ≤ r.src.length then do
    require (r.n < 64)
    let v := ofLeBytes (slice r.src r.pos (r.pos + 8))
    .ok { r with
      acc := r.acc ||| (v <<< r.n) % 2 ^ 64
      pos := r.pos + (63 - r.n) / 8
      n := r.n ||| 56 }
  else .ok (refillBytes r.src r.pos r.acc r.n)

def BitReader.bits (r : BitReader) (k : ℕ) : Result Error (ℕ × BitReader) := do
  require (k ≤ r.n)
  .ok (r.acc % 2 ^ k, { r with acc := r.acc >>> k, n := r.n - k })

def BitReader.symbol (r : BitReader) (t : ℕ → ℕ) : Result Error (ℕ × BitReader) := do
  let e := t (r.acc % tableSize)
  let l := e % 16
  if l = 0 then fail (.invalid "frame: invalid code")
  else
    require (l ≤ r.n)
    .ok (e / 16, { r with acc := r.acc >>> l, n := r.n - l })

/-- Error if more bits were used than the stream has. -/
def BitReader.check (r : BitReader) : Result Error Unit := do
  require (r.n ≤ r.pos * 8)
  if r.src.length * 8 < r.pos * 8 - r.n then fail .truncated else .ok ()

/-! ## Writing -/

/-- The writer has put `fields` after the bytes `base`: whole bytes are in the
output, the rest in the accumulator. -/
structure Wrote (base : List Byte) (w : BitWriter) (stream : List Byte)
    (fields : List (ℕ × ℕ)) : Prop where
  out_eq : w.out = base ++ stream
  acc_lt : w.acc < 2 ^ w.n
  value : ofLeBytes stream + 2 ^ (8 * stream.length) * w.acc = pack fields
  bits : 8 * stream.length + w.n = width fields

theorem wrote_nil (base : List Byte) : Wrote base ⟨base, 0, 0⟩ [] [] :=
  ⟨(append_nil base).symm, by simp, by simp [pack], by simp⟩

private theorem toNat_ofNat_mod (value : ℕ) : (UInt8.ofNat value).toNat = value % 2 ^ 8 :=
  UInt8.toNat_ofNat'

variable {fields : List (ℕ × ℕ)} {base stream : List Byte}

/-- One byte of the accumulator moved to the output. -/
theorem Wrote.push_byte {out : List Byte} {acc n : ℕ}
    (hwrote : Wrote base ⟨out, acc, n⟩ stream fields) (hn : 8 ≤ n) :
    Wrote base ⟨out ++ [UInt8.ofNat acc], acc >>> 8, n - 8⟩
      (stream ++ [UInt8.ofNat acc]) fields := by
  obtain ⟨hout, hacc, hvalue, hbits⟩ := hwrote
  simp only at hout hacc hvalue hbits
  refine ⟨?_, ?_, ?_, ?_⟩
  · simp only [hout, append_assoc]
  · simp only
    rw [Nat.shiftRight_eq_div_pow, Nat.div_lt_iff_lt_mul (by norm_num), ← pow_add,
      Nat.sub_add_cancel hn]
    exact hacc
  · simp only
    have hpow : 256 ^ stream.length = 2 ^ (8 * stream.length) := by
      rw [pow_mul]
      norm_num
    have hsplit : acc % 2 ^ 8 + 2 ^ 8 * (acc / 2 ^ 8) = acc := Nat.mod_add_div acc _
    rw [ofLeBytes_append, hpow, ← hvalue, Nat.shiftRight_eq_div_pow, length_append,
      length_singleton, Nat.mul_add, pow_add, ofLeBytes, ofLeBytes_nil,
      toNat_ofNat_mod, Nat.mul_zero, Nat.add_zero]
    calc
      ofLeBytes stream + 2 ^ (8 * stream.length) * (acc % 2 ^ 8) +
          2 ^ (8 * stream.length) * 2 ^ (8 * 1) * (acc / 2 ^ 8) =
          ofLeBytes stream + 2 ^ (8 * stream.length) *
            (acc % 2 ^ 8 + 2 ^ 8 * (acc / 2 ^ 8)) := by ring
      _ = ofLeBytes stream + 2 ^ (8 * stream.length) * acc := by rw [hsplit]
  · simp only [length_append, length_singleton]
    omega

theorem Wrote.drain {out : List Byte} {acc n : ℕ}
    (hwrote : Wrote base ⟨out, acc, n⟩ stream fields) :
    ∃ more, Wrote base (drain out acc n) more fields ∧ (drain out acc n).n < 8 := by
  fun_induction BitStream.drain out acc n generalizing stream with
  | case1 out acc n hn ih => exact ih (hwrote.push_byte hn)
  | case2 out acc n hn => exact ⟨stream, hwrote, by simp only; omega⟩

variable {w : BitWriter}

/-- `put` appends a field. -/
theorem Wrote.put (hwrote : Wrote base w stream fields) (hn : w.n < 8)
    {v bits : ℕ} (hv : v < 2 ^ bits) (hbits : bits ≤ 56) :
    ∃ more, Wrote base (w.put v bits) more (fields ++ [(v, bits)]) ∧
      (w.put v bits).n < 8 := by
  have hfits : v * 2 ^ w.n < 2 ^ (w.n + bits) := by
    rw [pow_add, Nat.mul_comm]
    exact Nat.mul_lt_mul_of_pos_left hv (Nat.two_pow_pos _)
  have hword : 2 ^ (w.n + bits) ≤ 2 ^ 64 := Nat.pow_le_pow_right (by decide) (by omega)
  have hfull : Wrote base ⟨w.out, w.acc ||| (v <<< w.n) % 2 ^ 64, w.n + bits⟩ stream
      (fields ++ [(v, bits)]) := by
    rw [or_shiftLeft_mod hwrote.acc_lt (by omega)]
    refine ⟨hwrote.out_eq, ?_, ?_, ?_⟩
    · have hacc := hwrote.acc_lt
      rw [pow_add]
      calc
        w.acc + v * 2 ^ w.n < 2 ^ w.n + v * 2 ^ w.n := by omega
        _ = 2 ^ w.n * (v + 1) := by ring
        _ ≤ 2 ^ w.n * 2 ^ bits := Nat.mul_le_mul_left _ hv
    · rw [pack_append, ← hwrote.value, ← hwrote.bits, pow_add]
      simp only [pack]
      ring
    · simp only [width_append, width_cons, width_nil, ← hwrote.bits]
      omega
  exact hfull.drain

/-- The fields put one after the other. -/
def BitWriter.putAll (w : BitWriter) (fields : List (ℕ × ℕ)) : BitWriter :=
  fields.foldl (fun w field => w.put field.1 field.2) w

theorem Wrote.putAll {before : List (ℕ × ℕ)}
    (hwrote : Wrote base w stream before) (hn : w.n < 8)
    (hfits : ∀ field ∈ fields, field.1 < 2 ^ field.2 ∧ field.2 ≤ 56) :
    ∃ more, Wrote base (w.putAll fields) more (before ++ fields) ∧
      (w.putAll fields).n < 8 := by
  induction fields generalizing w stream before with
  | nil => exact ⟨stream, by rwa [append_nil], hn⟩
  | cons field fields ih =>
    obtain ⟨hv, hbits⟩ := hfits field mem_cons_self
    obtain ⟨more, hput, hn'⟩ := hwrote.put hn hv hbits
    have hrest := ih hput hn' fun other hother =>
      hfits other (mem_cons_of_mem _ hother)
    rwa [append_assoc, singleton_append] at hrest

theorem Wrote.finish (hwrote : Wrote base w stream fields)
    (hn : w.n < 8) :
    ∃ bytes, w.finish = base ++ bytes ∧ ofLeBytes bytes = pack fields ∧
      width fields ≤ 8 * bytes.length := by
  obtain ⟨hout, hacc, hvalue, hbits⟩ := hwrote
  rw [BitWriter.finish]
  split_ifs with hpartial
  · have hbyte : w.acc < 2 ^ 8 := lt_of_lt_of_le hacc (Nat.pow_le_pow_right (by decide) (by omega))
    refine ⟨stream ++ [UInt8.ofNat w.acc], by rw [hout, append_assoc], ?_, ?_⟩
    · rw [ofLeBytes_append, ← hvalue, pow_mul, ofLeBytes, ofLeBytes_nil, toNat_ofNat_mod,
        Nat.mod_eq_of_lt hbyte]
      norm_num
    · rw [length_append, length_singleton]
      omega
  · have hempty : w.n = 0 := by omega
    rw [hempty] at hacc hbits
    refine ⟨stream, hout, ?_, by omega⟩
    rw [← hvalue, show w.acc = 0 by simpa using hacc, Nat.mul_zero, Nat.add_zero]

/-- What a whole stream of fields leaves after `base`. -/
theorem putAll_finish (base : List Byte)
    (hfits : ∀ field ∈ fields, field.1 < 2 ^ field.2 ∧ field.2 ≤ 56) :
    ∃ bytes, (BitWriter.putAll ⟨base, 0, 0⟩ fields).finish = base ++ bytes ∧
      ofLeBytes bytes = pack fields ∧ width fields ≤ 8 * bytes.length := by
  obtain ⟨stream, hwrote, hn⟩ := (wrote_nil base).putAll (show 0 < 8 by decide) hfits
  exact hwrote.finish hn

/-! ## Reading -/

/-- The reader stands at bit `position` of its stream. -/
structure Reads (r : BitReader) (position : ℕ) : Prop where
  pos_eq : position + r.n = 8 * r.pos
  n_le : r.n ≤ 64
  near_end : r.n = 64 → r.src.length < r.pos + 8
  window : Window (ofLeBytes r.src) position r.n r.acc

theorem reads_start (src : List Byte) : Reads ⟨src, 0, 0, 0⟩ 0 :=
  ⟨rfl, by simp, by simp, window_zero _⟩

/-- The bytes at `pos` are the stream from bit `8 * pos` on. -/
private theorem ofLeBytes_slice (src : List Byte) (pos count : ℕ) :
    ofLeBytes (slice src pos (pos + count)) =
      ofLeBytes src / 2 ^ (8 * pos) % 2 ^ (8 * count) := by
  rw [slice, Nat.add_sub_cancel_left, ofLeBytes_take, ofLeBytes_drop, pow_mul, pow_mul]
  norm_num

theorem getD_eq_stream (src : List Byte) (pos : ℕ) :
    (src.getD pos 0).toNat = ofLeBytes src / 2 ^ (8 * pos) % 2 ^ 8 := by
  have hbyte := ofLeBytes_slice src pos 1
  rw [← hbyte, slice, Nat.add_sub_cancel_left, getD_eq_getElem?_getD,
    ← Nat.add_zero pos, ← List.getElem?_drop, Nat.add_zero]
  cases src.drop pos with
  | nil => rfl
  | cons byte rest => simp [ofLeBytes]

variable {position : ℕ}

theorem refillBytes_spec {src : List Byte} {pos acc n : ℕ} (hend : src.length < pos + 8)
    (hreads : Reads ⟨src, pos, acc, n⟩ position) :
    Reads (refillBytes src pos acc n) position ∧
      (refillBytes src pos acc n).src = src ∧ 56 ≤ (refillBytes src pos acc n).n := by
  fun_induction refillBytes src pos acc n with
  | case1 pos acc n hn ih =>
    have hpos := hreads.pos_eq
    simp only at hpos
    refine ih (by omega) ⟨?_, ?_, ?_, ?_⟩
    · simp only
      omega
    · simp only
      omega
    · simp only
      omega
    · refine hreads.window.or 8 ?_ le_rfl (by simp only; omega)
      rw [hpos]
      exact getD_eq_stream src pos
  | case2 pos acc n hn => exact ⟨hreads, rfl, by simp only; omega⟩

private theorem or_56 : ∀ n : Fin 64, n.val ||| 56 = n.val + 8 * ((63 - n.val) / 8) ∧
    n.val ||| 56 < 64 ∧ 56 ≤ n.val ||| 56 := by
  decide

variable {r : BitReader}

theorem refill_spec (hreads : Reads r position) :
    ∃ next, r.refill = .ok next ∧ Reads next position ∧ next.src = r.src ∧
      56 ≤ next.n := by
  have hpos := hreads.pos_eq
  have hle := hreads.n_le
  rw [BitReader.refill]
  split_ifs with hwide
  · have hn : r.n < 64 := by
      by_contra hfull
      have := hreads.near_end (by omega)
      omega
    obtain ⟨hcount, hlt, hge⟩ := or_56 ⟨r.n, hn⟩
    simp only at hcount hlt hge
    rw [require_eq_ok hn, ok_bind]
    refine ⟨_, rfl, ⟨?_, ?_, ?_, ?_⟩, rfl, hge⟩
    · simp only
      omega
    · simp only
      omega
    · simp only
      omega
    · refine hreads.window.or 64 ?_ (by simp only; omega) (by simp only; omega)
      rw [hpos]
      exact ofLeBytes_slice r.src r.pos 8
  · obtain ⟨hnext, hsrc, hn⟩ := refillBytes_spec (by omega) hreads
    exact ⟨_, rfl, hnext, hsrc, hn⟩

/-- Using up bits moves the position. -/
theorem Reads.skip {k : ℕ} (hreads : Reads r position) (hk : k ≤ r.n) :
    Reads { r with acc := r.acc >>> k, n := r.n - k } (position + k) := by
  have hpos := hreads.pos_eq
  have hle := hreads.n_le
  refine ⟨?_, ?_, ?_, hreads.window.shiftRight k⟩
  · simp only
    omega
  · simp only
    omega
  · intro hfull
    simp only at hfull
    exact hreads.near_end (by omega)

theorem bits_spec {k : ℕ} (hreads : Reads r position) (hk : k ≤ r.n) :
    ∃ next, r.bits k = .ok (ofLeBytes r.src / 2 ^ position % 2 ^ k, next) ∧
      Reads next (position + k) ∧ next.src = r.src ∧ next.n = r.n - k := by
  refine ⟨_, ?_, hreads.skip hk, rfl, rfl⟩
  rw [BitReader.bits, require_eq_ok hk, ok_bind, hreads.window.mod_eq hk]

/-- Reading the symbol whose code comes next in the stream. -/
theorem symbol_spec {s l : ℕ} {len codes : List ℕ} {out : ℕ → ℕ} (hreads : Reads r position)
    (hagree : Agree len codes out) (hn : maxBits ≤ r.n) (hs : len[s]? = some l) (hl : 0 < l)
    (hcode : ofLeBytes r.src / 2 ^ position % 2 ^ l = codes.getD s 0) :
    ∃ next, r.symbol out = .ok (s, next) ∧ Reads next (position + l) ∧
      next.src = r.src ∧ next.n = r.n - l := by
  have hle := (hagree.fits s l hs hl).1
  have hpeek : r.acc % tableSize % 2 ^ l = codes.getD s 0 := by
    rw [tableSize, Nat.mod_mod_of_dvd _ (Nat.pow_dvd_pow 2 hle),
      hreads.window.mod_eq (by omega), hcode]
  have hentry := hagree.finds s l _ hs hl
    (Nat.mod_lt r.acc (show 0 < tableSize from Nat.two_pow_pos _)) hpeek
  have hlow : (s * 16 + l) % 16 = l := by
    rw [maxBits] at hle
    omega
  have hhigh : (s * 16 + l) / 16 = s := by
    omega
  refine ⟨_, ?_, hreads.skip (show l ≤ r.n by omega), rfl, rfl⟩
  rw [BitReader.symbol]
  simp only [hentry, hlow, hhigh]
  rw [if_neg (by omega), require_eq_ok (show l ≤ r.n by omega), ok_bind]

theorem check_spec (hreads : Reads r position) (hend : position ≤ 8 * r.src.length) :
    r.check = .ok () := by
  have hpos := hreads.pos_eq
  rw [BitReader.check, require_eq_ok (by omega), ok_bind, if_neg (by omega)]

end Vetro.BitStream
