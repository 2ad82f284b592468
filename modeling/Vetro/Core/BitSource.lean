import Vetro.Core.BitPack
import Vetro.Core.Bytes

/-!
# Reading bytes one bit at a time

A stream of bytes read from the least significant bit of each byte on, with
nothing after its last bit: the plain reader that faster ones are compared
with.  What it reads is given by the number that the bytes stand for.  A code is
read bit by bit, first bit first, until a symbol has it.
-/

namespace Vetro.BitSource

open Bytes Option
open BitPack

/-- The bit at position `p` and the position after it. -/
def readBit (stream : List Byte) (p : ℕ) : Option (ℕ × ℕ) :=
  stream[p / 8]?.map fun byte => (byte.toNat / 2 ^ (p % 8) % 2, p + 1)

/-- A number of `count` bits, the least significant one first. -/
def readBits (stream : List Byte) : ℕ → ℕ → Option (ℕ × ℕ)
  | 0, p => some (0, p)
  | count + 1, p => do
    let (bit, p) ← readBit stream p
    let (value, p) ← readBits stream count p
    some (bit + 2 * value, p)

/-- A code read bit by bit, the most significant one first, of `left` bits more
at most: `find` has the symbol of a code of some length. -/
def readCode {S : Type} (find : ℕ → ℕ → Option S) (stream : List Byte) :
    ℕ → ℕ → ℕ → ℕ → Option (S × ℕ)
  | 0, _, _, _ => none
  | left + 1, length, code, p => do
    let (bit, p) ← readBit stream p
    match find (length + 1) (code * 2 + bit) with
    | some symbol => some (symbol, p)
    | none => readCode find stream left (length + 1) (code * 2 + bit) p

/-- The bytes of a stream are its digits in base 256. -/
theorem toNat_getElem (stream : List Byte) {index : ℕ} (hindex : index < stream.length) :
    stream[index].toNat = ofLeBytes stream / 2 ^ (8 * index) % 2 ^ 8 := by
  have hdrop : ofLeBytes (stream.drop index) = ofLeBytes stream / 2 ^ (8 * index) := by
    rw [ofLeBytes_drop, pow_mul]
    norm_num
  rw [← hdrop, List.drop_eq_getElem_cons hindex, ofLeBytes]
  have hbyte := stream[index].toNat_lt
  omega

theorem readBit_eq (stream : List Byte) (p : ℕ) :
    readBit stream p =
      if p < 8 * stream.length then some (ofLeBytes stream / 2 ^ p % 2, p + 1) else none := by
  rw [readBit]
  split_ifs with hinside
  · have hindex : p / 8 < stream.length := by omega
    have hpow : (2 : ℕ) ^ (8 * (p / 8)) * 2 ^ (p % 8) = 2 ^ p := by
      rw [← pow_add, Nat.div_add_mod]
    have hbit : ofLeBytes stream / 2 ^ (8 * (p / 8)) % 2 ^ 8 / 2 ^ (p % 8) % 2 =
        ofLeBytes stream / 2 ^ p % 2 := by
      have hsplit : (2 : ℕ) ^ 8 = 2 ^ (p % 8) * 2 ^ (8 - p % 8) := by
        rw [← pow_add, Nat.add_sub_cancel' (by omega)]
      rw [hsplit, Nat.mod_mul_right_div_self, Nat.div_div_eq_div_mul, hpow,
        Nat.mod_mod_of_dvd _ (dvd_pow_self 2 (by omega))]
    rw [List.getElem?_eq_getElem hindex, map_some, toNat_getElem stream hindex, hbit]
  · rw [List.getElem?_eq_none (by omega), map_none]

/-- A number is read when all its bits are there. -/
theorem readBits_eq (stream : List Byte) (count : ℕ) {p : ℕ} (hp : p ≤ 8 * stream.length) :
    readBits stream count p =
      if p + count ≤ 8 * stream.length then
        some (ofLeBytes stream / 2 ^ p % 2 ^ count, p + count)
      else none := by
  induction count generalizing p with
  | zero => rw [readBits, Nat.add_zero, if_pos hp, pow_zero, Nat.mod_one]
  | succ count ih =>
    rw [readBits, readBit_eq]
    by_cases hbit : p < 8 * stream.length
    · have hvalue : ofLeBytes stream / 2 ^ p % 2 + 2 *
          (ofLeBytes stream / 2 ^ (p + 1) % 2 ^ count) =
            ofLeBytes stream / 2 ^ p % 2 ^ (count + 1) := by
        rw [pow_succ' 2 count, Nat.mod_mul, Nat.div_div_eq_div_mul, ← pow_succ]
      simp only [if_pos hbit, bind_eq_bind, bind_some, ih (show p + 1 ≤ _ from hbit),
        show p + 1 + count = p + (count + 1) by omega]
      split_ifs
      · rw [bind_some, hvalue]
      · rfl
    · rw [if_neg hbit, if_neg (by omega)]
      rfl

section Codes

variable {S : Type} {find : ℕ → ℕ → Option S} {stream : List Byte} {p : ℕ}

/-- After `length` bits the code read is the reversed bits of the stream. -/
private theorem code_succ (length : ℕ) :
    reverseBits length (ofLeBytes stream / 2 ^ p) * 2 +
        ofLeBytes stream / 2 ^ (p + length) % 2 =
      reverseBits (length + 1) (ofLeBytes stream / 2 ^ p) := by
  rw [reverseBits_add length 1, Nat.div_div_eq_div_mul, ← pow_add]
  simp [reverseBits]

/-- No code of the lengths still possible comes next. -/
private theorem readCode_none_from {left length : ℕ} (hnone : ∀ m, length < m → m ≤ length + left →
      find m (reverseBits m (ofLeBytes stream / 2 ^ p)) = none) :
    readCode find stream left length (reverseBits length (ofLeBytes stream / 2 ^ p))
      (p + length) = none := by
  induction left generalizing length with
  | zero => rfl
  | succ left ih =>
    rw [readCode, readBit_eq]
    split_ifs
    · simp only [bind_eq_bind, bind_some, code_succ, hnone (length + 1) (by omega) (by omega)]
      exact ih fun m hm hle => hnone m (by omega) (by omega)
    · rfl

/-- The first code that comes next, after the bits already read. -/
private theorem readCode_some_from {left length bits : ℕ} {symbol : S} (hlength : length < bits)
    (hleft : bits ≤ length + left) (hp : p + length ≤ 8 * stream.length)
    (hbefore : ∀ m, length < m → m < bits →
      find m (reverseBits m (ofLeBytes stream / 2 ^ p)) = none)
    (hfind : find bits (reverseBits bits (ofLeBytes stream / 2 ^ p)) = some symbol) :
    readCode find stream left length (reverseBits length (ofLeBytes stream / 2 ^ p)) (p + length) =
      if p + bits ≤ 8 * stream.length then some (symbol, p + bits) else none := by
  induction left generalizing length with
  | zero => omega
  | succ left ih =>
    rw [readCode, readBit_eq]
    by_cases hbit : p + length < 8 * stream.length
    · simp only [if_pos hbit, bind_eq_bind, bind_some, code_succ]
      by_cases hlast : length + 1 = bits
      · subst hlast
        rw [hfind, if_pos (show p + (length + 1) ≤ _ from hbit)]
        rfl
      · rw [hbefore (length + 1) (by omega) (by omega)]
        exact ih (by omega) (by omega) (by omega) fun m hm hlt => hbefore m (by omega) hlt
    · rw [if_neg hbit, if_neg (by omega)]
      rfl

/-- No code of at most `left` bits comes next. -/
theorem readCode_eq_none {left : ℕ} (hnone : ∀ m, 0 < m → m ≤ left →
      find m (reverseBits m (ofLeBytes stream / 2 ^ p)) = none) :
    readCode find stream left 0 0 p = none :=
  readCode_none_from fun m hm hle => hnone m hm (by omega)

/-- The first code that comes next is read when all its bits are there. -/
theorem readCode_eq_some {left bits : ℕ} {symbol : S} (hpos : 0 < bits) (hleft : bits ≤ left)
    (hp : p ≤ 8 * stream.length) (hbefore : ∀ m, 0 < m → m < bits →
      find m (reverseBits m (ofLeBytes stream / 2 ^ p)) = none)
    (hfind : find bits (reverseBits bits (ofLeBytes stream / 2 ^ p)) = some symbol) :
    readCode find stream left 0 0 p =
      if p + bits ≤ 8 * stream.length then some (symbol, p + bits) else none :=
  readCode_some_from hpos (by omega) hp hbefore hfind

end Codes

end Vetro.BitSource
