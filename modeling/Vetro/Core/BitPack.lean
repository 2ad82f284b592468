import Mathlib.Tactic

/-!
# Bit fields packed least significant bit first

A bit stream is the number whose binary digits it is, so that writing a field
adds a multiple of a power of two and reading one is a remainder.  `reverseBits`
is the mirror image of the low bits of a number.
-/

namespace Vetro.BitPack

/-! ## Packed fields -/

/-- The stream of the fields `(value, width)`, the first in the lowest bits. -/
def pack : List (ℕ × ℕ) → ℕ
  | [] => 0
  | (value, width) :: fields => value + 2 ^ width * pack fields

/-- The number of bits of the fields. -/
def width (fields : List (ℕ × ℕ)) : ℕ := (fields.map Prod.snd).sum

/-- Every value fits its width. -/
def Fits (fields : List (ℕ × ℕ)) : Prop := ∀ field ∈ fields, field.1 < 2 ^ field.2

@[simp]
theorem width_nil : width [] = 0 := rfl

@[simp]
theorem width_cons (field : ℕ × ℕ) (fields : List (ℕ × ℕ)) :
    width (field :: fields) = field.2 + width fields := by
  simp [width]

@[simp]
theorem width_append (left right : List (ℕ × ℕ)) :
    width (left ++ right) = width left + width right := by
  simp [width]

theorem pack_append (left right : List (ℕ × ℕ)) :
    pack (left ++ right) = pack left + 2 ^ width left * pack right := by
  induction left with
  | nil => simp [pack]
  | cons field left ih =>
    rw [List.cons_append, pack, pack, ih, width_cons, pow_add]
    ring

variable {bits : ℕ}

/-- The first field of a stream. -/
theorem pack_cons_mod {value : ℕ} (fields : List (ℕ × ℕ)) (hvalue : value < 2 ^ bits) :
    pack ((value, bits) :: fields) % 2 ^ bits = value := by
  rw [pack, Nat.add_mul_mod_self_left, Nat.mod_eq_of_lt hvalue]

/-- The stream after its first field. -/
theorem pack_cons_div {value : ℕ} (fields : List (ℕ × ℕ)) (hvalue : value < 2 ^ bits) :
    pack ((value, bits) :: fields) / 2 ^ bits = pack fields := by
  rw [pack, Nat.add_mul_div_left _ _ (Nat.two_pow_pos bits), Nat.div_eq_of_lt hvalue, Nat.zero_add]

/-! ## Reversed bits -/

/-- The low `bits` bits of `value` in the opposite order. -/
def reverseBits : ℕ → ℕ → ℕ
  | 0, _ => 0
  | bits + 1, value => value % 2 * 2 ^ bits + reverseBits bits (value / 2)

theorem reverseBits_lt (bits value : ℕ) : reverseBits bits value < 2 ^ bits := by
  induction bits generalizing value with
  | zero => simp [reverseBits]
  | succ bits ih =>
    have hrest := ih (value / 2)
    have htop : value % 2 * 2 ^ bits ≤ 1 * 2 ^ bits := Nat.mul_le_mul_right _ (by omega)
    rw [reverseBits, pow_succ]
    omega

/-- The low bits come first in the reversed number, then the high ones. -/
theorem reverseBits_add (low high value : ℕ) :
    reverseBits (low + high) value =
      reverseBits low value * 2 ^ high + reverseBits high (value / 2 ^ low) := by
  induction low generalizing value with
  | zero => simp [reverseBits]
  | succ low ih =>
    rw [show low + 1 + high = low + high + 1 by ring, reverseBits, ih, reverseBits,
      Nat.div_div_eq_div_mul, ← pow_succ', pow_add]
    ring

/-- The top `low` bits of a reversed number are the reversed low bits. -/
theorem reverseBits_div {low : ℕ} (hlow : low ≤ bits) (value : ℕ) :
    reverseBits bits value / 2 ^ (bits - low) = reverseBits low value := by
  obtain ⟨high, rfl⟩ := Nat.exists_eq_add_of_le hlow
  rw [reverseBits_add, Nat.add_sub_cancel_left, Nat.add_comm,
    Nat.add_mul_div_right _ _ (Nat.two_pow_pos high),
    Nat.div_eq_of_lt (reverseBits_lt high _), Nat.zero_add]

theorem reverseBits_mod (bits value : ℕ) :
    reverseBits bits (value % 2 ^ bits) = reverseBits bits value := by
  induction bits generalizing value with
  | zero => rfl
  | succ bits ih =>
    have hlow : value % 2 ^ (bits + 1) % 2 = value % 2 :=
      Nat.mod_mod_of_dvd _ (dvd_pow_self 2 (Nat.succ_ne_zero bits))
    have hhigh : value % 2 ^ (bits + 1) / 2 = value / 2 % 2 ^ bits := by
      rw [pow_succ', Nat.mod_mul_right_div_self]
    rw [reverseBits, reverseBits, hlow, hhigh, ih]

/-- Reversing twice gives the low bits back. -/
theorem reverseBits_reverseBits (bits value : ℕ) :
    reverseBits bits (reverseBits bits value) = value % 2 ^ bits := by
  induction bits generalizing value with
  | zero => simp [reverseBits, Nat.mod_one]
  | succ bits ih =>
    -- the inner reversal is opened at its last bit, the outer at its first
    have hinner : reverseBits (bits + 1) value =
        reverseBits bits value * 2 + value / 2 ^ bits % 2 := by
      rw [reverseBits_add bits 1]
      simp [reverseBits]
    have hfirst : reverseBits (bits + 1) value % 2 = value / 2 ^ bits % 2 := by omega
    have hrest : reverseBits (bits + 1) value / 2 = reverseBits bits value := by omega
    rw [reverseBits.eq_2 (reverseBits (bits + 1) value) bits, hfirst, hrest, ih,
      pow_succ, Nat.mod_mul]
    ring

/-! ## Trailing zeros -/

/-- How many of the low `bits` bits are zero before the first one that is
set. -/
def trailingZeros : ℕ → ℕ → ℕ
  | 0, _ => 0
  | bits + 1, value => if value % 2 = 1 then 0 else trailingZeros bits (value / 2) + 1

theorem testBit_of_lt_trailingZeros {value index : ℕ} (hindex : index < trailingZeros bits value) :
    value.testBit index = false := by
  induction bits generalizing value index with
  | zero => simp [trailingZeros] at hindex
  | succ bits ih =>
    rw [trailingZeros] at hindex
    split_ifs at hindex with hodd
    · omega
    · cases index with
      | zero =>
        simp [hodd]
      | succ index =>
        rw [Nat.testBit_succ]
        exact ih (by omega)

/-- Two numbers agree below the first bit in which they differ. -/
theorem mod_eq_of_trailingZeros_xor {left right count : ℕ}
    (hcount : count ≤ trailingZeros bits (left ^^^ right)) :
    left % 2 ^ count = right % 2 ^ count := by
  apply Nat.eq_of_testBit_eq
  intro index
  rw [Nat.testBit_mod_two_pow, Nat.testBit_mod_two_pow]
  by_cases hindex : index < count
  · have hxor := testBit_of_lt_trailingZeros (lt_of_lt_of_le hindex hcount)
    rw [Nat.testBit_xor, bne_eq_false_iff_eq] at hxor
    rw [hxor]
  · simp [hindex]

/-! ## Machine words as accumulators -/

/-- Setting bits above those in use adds them. -/
theorem or_shiftLeft_mod {low value shift : ℕ} (hlow : low < 2 ^ shift)
    (hfits : value * 2 ^ shift < 2 ^ bits) :
    low ||| (value <<< shift) % 2 ^ bits = low + value * 2 ^ shift := by
  rw [Nat.shiftLeft_eq, Nat.mod_eq_of_lt hfits, Nat.or_comm, ← Nat.shiftLeft_eq,
    ← Nat.shiftLeft_add_eq_or_of_lt hlow, Nat.add_comm]

/-- The accumulator holds the bits of the stream from `position` on: all of the
next `count`, and above them no bit that the stream does not have. -/
structure Window (stream position count acc : ℕ) : Prop where
  sound : ∀ index, acc.testBit index = true → stream.testBit (position + index) = true
  known : ∀ index < count, acc.testBit index = stream.testBit (position + index)

section Window

variable {stream position count acc : ℕ}

theorem window_zero (stream : ℕ) : Window stream 0 0 0 :=
  ⟨fun index hbit => by simp at hbit, fun index hindex => absurd hindex (Nat.not_lt_zero _)⟩

variable (hwindow : Window stream position count acc)
include hwindow

/-- The low bits of the accumulator are those of the stream. -/
theorem Window.mod_eq (hbits : bits ≤ count) :
    acc % 2 ^ bits = stream / 2 ^ position % 2 ^ bits := by
  apply Nat.eq_of_testBit_eq
  intro index
  rw [Nat.testBit_mod_two_pow, Nat.testBit_mod_two_pow, Nat.testBit_div_two_pow]
  by_cases hindex : index < bits
  · rw [hwindow.known index (by omega), Nat.add_comm]
  · simp [hindex]

/-- Dropping bits moves the window on. -/
theorem Window.shiftRight (bits : ℕ) :
    Window stream (position + bits) (count - bits) (acc >>> bits) := by
  constructor
  · intro index hbit
    rw [Nat.testBit_shiftRight] at hbit
    rw [Nat.add_assoc]
    exact hwindow.sound _ hbit
  · intro index hindex
    rw [Nat.testBit_shiftRight, hwindow.known _ (by omega), Nat.add_assoc]

/-- Bits of the stream set from `count` on: bits already there are set again
to what they are. -/
theorem Window.or {more newCount : ℕ} (width : ℕ)
    (hmore : more = stream / 2 ^ (position + count) % 2 ^ width) (hwidth : newCount ≤ count + width)
    (hbits : newCount ≤ bits) :
    Window stream position newCount (acc ||| (more <<< count) % 2 ^ bits) := by
  have hset : ∀ index, ((more <<< count) % 2 ^ bits).testBit index =
      (decide (index < bits) && (decide (count ≤ index) &&
        (decide (index - count < width) && stream.testBit (position + index)))) := by
    intro index
    rw [Nat.testBit_mod_two_pow, Nat.testBit_shiftLeft, hmore, Nat.testBit_mod_two_pow,
      Nat.testBit_div_two_pow]
    by_cases hle : count ≤ index
    · rw [show index - count + (position + count) = position + index by omega]
    · simp [hle]
  constructor
  · intro index hbit
    rw [Nat.testBit_or, hset, Bool.or_eq_true] at hbit
    rcases hbit with hold | hnew
    · exact hwindow.sound index hold
    · simp only [Bool.and_eq_true] at hnew
      exact hnew.2.2.2
  · intro index hindex
    rw [Nat.testBit_or, hset]
    by_cases hlow : index < count
    · rw [hwindow.known index hlow]
      simp [show ¬count ≤ index by omega]
    · -- past the counted bits an old bit may be set, but only to the stream's value
      have hold := hwindow.sound index
      have hinside : index - count < width := by omega
      have hword : index < bits := by omega
      have hfrom : count ≤ index := by omega
      simp only [hinside, hword, hfrom, decide_true, Bool.true_and]
      cases hacc : acc.testBit index with
      | false => simp
      | true => rw [hold hacc, Bool.true_or]

end Window

end Vetro.BitPack
