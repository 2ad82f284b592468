import Mathlib.Tactic

/-!
# Little-endian bytes

Byte strings are lists of `UInt8`.  A fixed-width integer is written least
significant byte first; the encoder keeps the low `8 * width` bits of its
argument, so that it is also the truncating cast of the value it is given.
-/

namespace Vetro.Bytes

abbrev Byte := UInt8

/-- The low `8 * width` bits of `value`, least significant byte first. -/
def leBytes : ℕ → ℕ → List Byte
  | 0, _ => []
  | width + 1, value => UInt8.ofNat value :: leBytes width (value / 256)

/-- The number whose little-endian bytes are given. -/
def ofLeBytes : List Byte → ℕ
  | [] => 0
  | byte :: bytes => byte.toNat + 256 * ofLeBytes bytes

@[simp]
theorem length_leBytes (width value : ℕ) : (leBytes width value).length = width := by
  induction width generalizing value with
  | zero => rfl
  | succ width ih => simp [leBytes, ih]

@[simp]
theorem ofLeBytes_nil : ofLeBytes [] = 0 := rfl

theorem ofLeBytes_leBytes (width value : ℕ) :
    ofLeBytes (leBytes width value) = value % 256 ^ width := by
  induction width generalizing value with
  | zero => simp [leBytes, Nat.mod_one]
  | succ width ih =>
    have hbyte : (2 : ℕ) ^ 8 = 256 := by norm_num
    rw [leBytes, ofLeBytes, ih, UInt8.toNat_ofNat', hbyte, pow_succ', Nat.mod_mul]

/-- A value that fits its width is read back unchanged. -/
theorem ofLeBytes_leBytes_of_lt {width value : ℕ} (hvalue : value < 256 ^ width) :
    ofLeBytes (leBytes width value) = value := by
  rw [ofLeBytes_leBytes, Nat.mod_eq_of_lt hvalue]

theorem leBytes_injOn {width left right : ℕ}
    (hleft : left < 256 ^ width) (hright : right < 256 ^ width)
    (heq : leBytes width left = leBytes width right) : left = right := by
  have hread := congrArg ofLeBytes heq
  rwa [ofLeBytes_leBytes_of_lt hleft, ofLeBytes_leBytes_of_lt hright] at hread

variable (bytes : List Byte)

theorem ofLeBytes_lt : ofLeBytes bytes < 256 ^ bytes.length := by
  induction bytes with
  | nil => simp
  | cons byte bytes ih =>
    have hbyte : byte.toNat < 256 := byte.toNat_lt
    rw [ofLeBytes, List.length_cons, pow_succ']
    omega

theorem ofLeBytes_lt_of_le (width : ℕ) {bytes : List Byte} {bound : ℕ}
    (hlength : bytes.length ≤ width) (hbound : 256 ^ width ≤ bound) : ofLeBytes bytes < bound :=
  calc
    ofLeBytes bytes < 256 ^ bytes.length := ofLeBytes_lt bytes
    _ ≤ 256 ^ width := Nat.pow_le_pow_right (by decide) hlength
    _ ≤ bound := hbound

theorem leBytes_ofLeBytes : leBytes bytes.length (ofLeBytes bytes) = bytes := by
  induction bytes with
  | nil => rfl
  | cons byte bytes ih =>
    have hbyte : byte.toNat < 256 := byte.toNat_lt
    have hhead : UInt8.ofNat (byte.toNat + 256 * ofLeBytes bytes) = byte := by
      apply UInt8.toNat_inj.mp
      rw [UInt8.toNat_ofNat']
      omega
    have htail : (byte.toNat + 256 * ofLeBytes bytes) / 256 = ofLeBytes bytes := by omega
    rw [ofLeBytes, List.length_cons, leBytes, hhead, htail, ih]

theorem ofLeBytes_append (left right : List Byte) :
    ofLeBytes (left ++ right) =
      ofLeBytes left + 256 ^ left.length * ofLeBytes right := by
  induction left with
  | nil => simp
  | cons byte left ih =>
    simp only [List.cons_append, ofLeBytes, ih, List.length_cons, pow_succ']
    ring

/-- Dropping whole bytes divides by the matching power of 256. -/
theorem ofLeBytes_drop (count : ℕ) :
    ofLeBytes (bytes.drop count) = ofLeBytes bytes / 256 ^ count := by
  induction count generalizing bytes with
  | zero => simp
  | succ count ih =>
    cases bytes with
    | nil => simp
    | cons byte bytes =>
      have hbyte : byte.toNat < 256 := byte.toNat_lt
      have hdiv : (byte.toNat + 256 * ofLeBytes bytes) / 256 = ofLeBytes bytes := by omega
      rw [List.drop_succ_cons, ih, ofLeBytes, pow_succ', ← Nat.div_div_eq_div_mul, hdiv]

/-- Keeping whole bytes reduces modulo the matching power of 256. -/
theorem ofLeBytes_take (count : ℕ) :
    ofLeBytes (bytes.take count) = ofLeBytes bytes % 256 ^ count := by
  induction count generalizing bytes with
  | zero => simp [Nat.mod_one]
  | succ count ih =>
    cases bytes with
    | nil => simp
    | cons byte bytes =>
      have hbyte : byte.toNat < 256 := byte.toNat_lt
      have hdiv : (byte.toNat + 256 * ofLeBytes bytes) / 256 = ofLeBytes bytes := by omega
      have hmod : (byte.toNat + 256 * ofLeBytes bytes) % 256 = byte.toNat := by omega
      rw [List.take_succ_cons, ofLeBytes, ofLeBytes, ih, pow_succ', Nat.mod_mul, hdiv, hmod]

theorem ofLeBytes_injective_of_length {left right : List Byte}
    (hlength : left.length = right.length)
    (heq : ofLeBytes left = ofLeBytes right) : left = right := by
  rw [← leBytes_ofLeBytes left, ← leBytes_ofLeBytes right, hlength, heq]

theorem ofLeBytes_eq_zero {bytes : List Byte} : ofLeBytes bytes = 0 ↔ ∀ byte ∈ bytes, byte = 0 := by
  induction bytes with
  | nil => simp
  | cons byte bytes ih =>
    have hbyte : byte.toNat = 0 ↔ byte = 0 := by
      rw [← UInt8.toNat_inj]
      rfl
    simp only [ofLeBytes, List.mem_cons, forall_eq_or_imp, ← ih, ← hbyte]
    omega

end Vetro.Bytes
