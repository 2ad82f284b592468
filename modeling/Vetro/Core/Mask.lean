import Mathlib.Tactic

/-!
# Bit fields of 64-bit words

Masks of a range of bits, and words cut at a power of two: the aligned block
that a word lies in, and its offset there.
-/

namespace Vetro.Mask

open BitVec

abbrev Word := BitVec 64

/-- The bits below `n`. -/
def low (n : ℕ) : Word := ((1 : Word) <<< n) - 1

/-- The bits from `lo` to `hi`. -/
def bits (hi lo : ℕ) : Word := (BitVec.allOnes 64 >>> (63 - hi)) &&& ~~~(((1 : Word) <<< lo) - 1)

variable {n : ℕ}

theorem toNat_one_shiftLeft (hn : n < 64) : ((1 : Word) <<< n).toNat = 2 ^ n := by
  have hlt : 2 ^ n < 2 ^ 64 := Nat.pow_lt_pow_right (by decide) hn
  change 1 <<< n % 2 ^ 64 = 2 ^ n
  rw [Nat.shiftLeft_eq, Nat.one_mul, Nat.mod_eq_of_lt hlt]

theorem toNat_low (hn : n < 64) : (low n).toNat = 2 ^ n - 1 := by
  have hpos := Nat.two_pow_pos n
  have hlt : 2 ^ n < 2 ^ 64 := Nat.pow_lt_pow_right (by decide) hn
  rw [low, toNat_sub, toNat_one_shiftLeft hn]
  change (2 ^ 64 - 1 + 2 ^ n) % 2 ^ 64 = 2 ^ n - 1
  rw [show 2 ^ 64 - 1 + 2 ^ n = 2 ^ n - 1 + 2 ^ 64 by omega, Nat.add_mod_right,
    Nat.mod_eq_of_lt (by omega)]

theorem getLsbD_low (hn : n < 64) (i : ℕ) : (low n).getLsbD i = decide (i < n) := by
  rw [BitVec.getLsbD, toNat_low hn, Nat.testBit_two_pow_sub_one]

theorem getLsbD_bits {hi lo : ℕ} (hhi : hi < 64) (hlo : lo < 64) (i : ℕ) :
    (bits hi lo).getLsbD i = decide (lo ≤ i ∧ i ≤ hi) := by
  have hlow := getLsbD_low hlo i
  rw [low] at hlow
  rw [bits, getLsbD_and, getLsbD_not, hlow, getLsbD_ushiftRight, getLsbD_allOnes]
  rw [Bool.eq_iff_iff]
  simp only [Bool.and_eq_true, decide_eq_true_eq, Bool.not_eq_true', decide_eq_false_iff_not]
  omega

/-- The same bits from `lo` to `hi`. -/
def AgreeOn (lo hi : ℕ) (x y : Word) : Prop :=
  ∀ i, lo ≤ i → i ≤ hi → x.getLsbD i = y.getLsbD i

namespace AgreeOn

variable {lo hi : ℕ} {x y : Word}

theorem mono (hagree : AgreeOn lo hi x y) {lo' hi' : ℕ} (hlo : lo ≤ lo') (hhi : hi' ≤ hi) :
    AgreeOn lo' hi' x y :=
  fun i hlo' hhi' => hagree i (hlo.trans hlo') (hhi'.trans hhi)

theorem and_bits (hagree : AgreeOn lo hi x y) (hlo : lo < 64) (hhi : hi < 64) :
    x &&& bits hi lo = y &&& bits hi lo := by
  refine eq_of_getLsbD_eq fun i _ => ?_
  rw [getLsbD_and, getLsbD_and, getLsbD_bits hhi hlo]
  by_cases hin : lo ≤ i ∧ i ≤ hi
  · rw [hagree i hin.1 hin.2]
  · rw [decide_eq_false hin, Bool.and_false, Bool.and_false]

end AgreeOn

/-! ## Blocks -/

variable {x : Word}

/-- The words that differ below bit `n` at most have the same quotient. -/
theorem agreeOn_of_div {y : Word} (hdiv : x.toNat / 2 ^ n = y.toNat / 2 ^ n) (hi : ℕ) :
    AgreeOn n hi x y := by
  intro i hn _
  obtain ⟨k, rfl⟩ := Nat.exists_eq_add_of_le' hn
  rw [BitVec.getLsbD, BitVec.getLsbD, ← Nat.testBit_div_two_pow, ← Nat.testBit_div_two_pow, hdiv]

/-- The multiple of `2 ^ n` below a word. -/
theorem toNat_and_not_low (hn : n < 64) (x : Word) :
    (x &&& ~~~low n).toNat = 2 ^ n * (x.toNat / 2 ^ n) := by
  refine Nat.eq_of_testBit_eq fun i => ?_
  change (x &&& ~~~low n).getLsbD i = _
  rw [getLsbD_and, getLsbD_not, getLsbD_low hn, Nat.testBit_two_pow_mul]
  by_cases hi : n ≤ i
  · have hbelow : decide (i < n) = false := decide_eq_false (Nat.not_lt.mpr hi)
    rw [Nat.testBit_div_two_pow, Nat.sub_add_cancel hi, hbelow, decide_eq_true hi]
    by_cases hin : i < 64
    · simp [hin, BitVec.getLsbD]
    · have hzero := getLsbD_of_ge x i (Nat.le_of_not_lt hin)
      rw [BitVec.getLsbD] at hzero
      simp [hin, hzero]
  · simp [hi, Nat.lt_of_not_le hi]

theorem toNat_and_low (hn : n < 64) (x : Word) : (x &&& low n).toNat = x.toNat % 2 ^ n := by
  rw [toNat_and, toNat_low hn, Nat.and_two_pow_sub_one_eq_mod]

/-- A word is its block and its offset. -/
theorem and_not_low_add_and_low (hn : n < 64) (x : Word) :
    (x &&& ~~~low n) + (x &&& low n) = x := by
  refine eq_of_toNat_eq ?_
  rw [toNat_add, toNat_and_not_low hn, toNat_and_low hn, Nat.div_add_mod, Nat.mod_eq_of_lt x.isLt]

/-- A word is at most a block away from the start of a block if it lies in it. -/
theorem sub_lt_iff (hn : n < 64) (x y : Word) :
    (y - (x &&& ~~~low n)).toNat < 2 ^ n ↔ y.toNat / 2 ^ n = x.toNat / 2 ^ n := by
  have hx := x.isLt
  have hpos := Nat.two_pow_pos n
  have hsplit : 2 ^ 64 = 2 ^ n * 2 ^ (64 - n) := by
    rw [← Nat.pow_add, Nat.add_sub_of_le hn.le]
  have hquot : x.toNat / 2 ^ n < 2 ^ (64 - n) := Nat.div_lt_of_lt_mul (hsplit ▸ hx)
  have hroom : 2 ^ n * (x.toNat / 2 ^ n) + 2 ^ n ≤ 2 ^ 64 := by
    rw [hsplit, ← Nat.mul_succ]
    exact Nat.mul_le_mul_left _ hquot
  have hblock : y.toNat / 2 ^ n = x.toNat / 2 ^ n ↔
      2 ^ n * (x.toNat / 2 ^ n) ≤ y.toNat ∧ y.toNat < 2 ^ n * (x.toNat / 2 ^ n) + 2 ^ n := by
    rw [← Nat.mul_succ, Nat.div_eq_iff hpos]
    constructor <;> intro h <;> constructor <;> grind
  rw [toNat_sub, toNat_and_not_low hn, hblock]
  omega

/-- The block of one word with the offset of another. -/
theorem and_not_low_or_and_low (hn : n < 64) {y z : Word} (hdiv : y.toNat / 2 ^ n = x.toNat / 2 ^ n)
    (hmod : y.toNat % 2 ^ n = z.toNat % 2 ^ n) : (x &&& ~~~low n) ||| (z &&& low n) = y := by
  have hblock : x &&& ~~~low n = y &&& ~~~low n := by
    refine eq_of_toNat_eq ?_
    rw [toNat_and_not_low hn, toNat_and_not_low hn, hdiv]
  have hoffset : z &&& low n = y &&& low n := by
    refine eq_of_toNat_eq ?_
    rw [toNat_and_low hn, toNat_and_low hn, hmod]
  rw [hblock, hoffset]
  refine eq_of_getLsbD_eq fun i hi => ?_
  rw [getLsbD_or, getLsbD_and, getLsbD_and, getLsbD_not]
  cases y.getLsbD i <;> cases (low n).getLsbD i <;> simp [hi]

/-- The bits from `n` on. -/
theorem AgreeOn.ushiftRight {lo : ℕ} {y : Word} (hagree : AgreeOn lo 63 x y) (hn : lo ≤ n) :
    x >>> n = y >>> n := by
  refine eq_of_getLsbD_eq fun i _ => ?_
  rw [getLsbD_ushiftRight, getLsbD_ushiftRight]
  by_cases hin : n + i ≤ 63
  · exact hagree (n + i) (by omega) hin
  · rw [getLsbD_of_ge _ _ (by omega), getLsbD_of_ge _ _ (by omega)]

/-- Offset in the block of another word. -/
theorem sub_and_not_low (hn : n < 64) {y : Word} (hdiv : y.toNat / 2 ^ n = x.toNat / 2 ^ n) :
    y - (x &&& ~~~low n) = y &&& low n := by
  have hblock : x &&& ~~~low n = y &&& ~~~low n := by
    refine eq_of_toNat_eq ?_
    rw [toNat_and_not_low hn, toNat_and_not_low hn, hdiv]
  have hsplit := and_not_low_add_and_low hn y
  grind

/-- High bits of one word and low bits of another. -/
theorem field_or_and_not_low {hi : ℕ} (hhi : hi < 64) (hn : n < 64) (x y : Word) :
    ((x &&& bits hi n) ||| (y &&& low n)) &&& ~~~low n = x &&& bits hi n := by
  refine eq_of_getLsbD_eq fun i hin => ?_
  simp only [getLsbD_and, getLsbD_or, getLsbD_not, getLsbD_bits hhi hn, getLsbD_low hn]
  by_cases hi : i < n
  · simp [hi, Nat.not_le.mpr hi]
  · simp [hi, hin]

theorem field_add_and_low {hi : ℕ} (hhi : hi < 64) (hn : n < 64) (x y : Word) :
    (x &&& bits hi n) + (y &&& low n) = (x &&& bits hi n) ||| (y &&& low n) := by
  refine add_eq_or_of_and_eq_zero _ _ (eq_of_getLsbD_eq fun i _ => ?_)
  simp only [getLsbD_and, getLsbD_bits hhi hn, getLsbD_low hn]
  by_cases hi : i < n
  · simp [hi, Nat.not_le.mpr hi]
  · simp [hi]

/-! ## Tests of fields -/

theorem ushiftRight_and_one_ne_zero : x >>> n &&& 1 ≠ 0 ↔ x.getLsbD n = true := by
  change x >>> n &&& low 1 ≠ 0#64 ↔ _
  rw [Ne, zero_iff_eq_false]
  constructor
  · intro hne
    by_contra hclear
    refine hne fun i => ?_
    rw [getLsbD_and, getLsbD_ushiftRight, getLsbD_low (by decide)]
    by_cases hi : i < 1
    · obtain rfl : i = 0 := by omega
      simpa using hclear
    · rw [decide_eq_false hi, Bool.and_false]
  · intro hset hzero
    have hbit := hzero 0
    rw [getLsbD_and, getLsbD_ushiftRight, getLsbD_low (by decide)] at hbit
    simp [hset] at hbit

theorem and_one_shiftLeft_ne_zero (hn : n < 64) :
    x &&& (1 : Word) <<< n ≠ 0 ↔ x.getLsbD n = true := by
  change x &&& BitVec.twoPow 64 n ≠ 0#64 ↔ _
  rw [and_twoPow]
  by_cases hset : x.getLsbD n = true
  · rw [if_pos hset, Ne, ← toNat_inj, toNat_twoPow_of_lt hn]
    simp [hset]
  · simp [hset]

/-- All bits of a field are `b`. -/
def AllBits (x : Word) (lo hi : ℕ) (b : Bool) : Prop :=
  ∀ i, lo ≤ i → i ≤ hi → x.getLsbD i = b

theorem allBits_iff_and_bits {lo hi : ℕ} {b : Bool} (hlo : lo < 64) (hhi : hi < 64) :
    AllBits x lo hi b ↔ x &&& bits hi lo = if b then bits hi lo else 0 := by
  constructor
  · intro hall
    refine eq_of_getLsbD_eq fun i _ => ?_
    rw [getLsbD_and, getLsbD_bits hhi hlo]
    by_cases hin : lo ≤ i ∧ i ≤ hi
    · rw [hall i hin.1 hin.2]
      cases b <;> simp [getLsbD_bits hhi hlo, hin]
    · cases b <;> simp [getLsbD_bits hhi hlo, hin]
  · intro heq i hlow hhigh
    have hbit := congrArg (fun word : Word => word.getLsbD i) heq
    cases b <;> simpa [getLsbD_bits hhi hlo, hlow, hhigh] using hbit

theorem allBits_iff_ushiftRight (x : Word) (lo : ℕ) (b : Bool) (hn : 0 < n) (hlt : n < 64) :
    AllBits x lo (lo + n - 1) b ↔ x >>> lo &&& low n = if b then low n else 0 := by
  constructor
  · intro hall
    refine eq_of_getLsbD_eq fun i _ => ?_
    rw [getLsbD_and, getLsbD_ushiftRight, getLsbD_low hlt]
    by_cases hin : i < n
    · rw [hall (lo + i) (by omega) (by omega)]
      cases b <;> simp [getLsbD_low hlt, hin]
    · cases b <;> simp [getLsbD_low hlt, hin]
  · intro heq i hlow hhigh
    obtain ⟨k, rfl⟩ := Nat.exists_eq_add_of_le hlow
    have hin : k < n := by omega
    have hbit := congrArg (fun word : Word => word.getLsbD k) heq
    cases b <;> simpa [getLsbD_low hlt, hin] using hbit

/-- A field of a word above another one. -/
theorem and_bits_and_not_low {hi lo : ℕ} (hhi : hi < 64) (hlo : lo ≤ n) (hn : n < 64) (x : Word) :
    x &&& bits hi lo &&& ~~~low n = x &&& bits hi n := by
  refine eq_of_getLsbD_eq fun i hin => ?_
  rw [getLsbD_and, getLsbD_and, getLsbD_and, getLsbD_not,
    getLsbD_bits hhi (by omega), getLsbD_bits hhi hn, getLsbD_low hn]
  by_cases hbelow : i < n
  · simp [hbelow, Nat.not_le.mpr hbelow]
  · simp [hin, hbelow, Nat.le_of_not_lt hbelow, hlo.trans (Nat.le_of_not_lt hbelow)]

/-- An index of `n` bits from bit `lo` on, scaled by 8. -/
theorem index_eq {lo : ℕ} (hn : 0 < n) (hlt : lo + n ≤ 61) :
    (x &&& bits (lo + n - 1) lo) >>> lo <<< 3 = (x >>> lo &&& low n) * 8 := by
  have height : (8 : Word) = BitVec.twoPow 64 3 := by decide
  rw [height, mul_twoPow_eq_shiftLeft]
  congr 1
  refine eq_of_getLsbD_eq fun i _ => ?_
  rw [getLsbD_and, getLsbD_ushiftRight, getLsbD_ushiftRight,
    getLsbD_and, getLsbD_bits (by omega) (by omega), getLsbD_low (by omega)]
  congr 1
  rw [decide_eq_decide]
  omega

/-- An index is below every base that is aligned to the size of its table. -/
theorem add_index_eq_or {base : Word} (hn : n < 61) (hbase : AllBits base 0 (n + 2) false) :
    base + (x &&& low n) * 8 = base ||| (x &&& low n) * 8 := by
  have height : (8 : Word) = BitVec.twoPow 64 3 := by decide
  refine add_eq_or_of_and_eq_zero _ _ (eq_of_getLsbD_eq fun i hi => ?_)
  rw [height, mul_twoPow_eq_shiftLeft, getLsbD_and, getLsbD_shiftLeft,
    getLsbD_and, getLsbD_low (by omega)]
  by_cases hin : i ≤ n + 2
  · rw [hbase i (Nat.zero_le i) hin, Bool.false_and, getLsbD_zero]
  · have habove : decide (i - 3 < n) = false := decide_eq_false (by omega)
    rw [habove, Bool.and_false, Bool.and_false, Bool.and_false, getLsbD_zero]

end Vetro.Mask
