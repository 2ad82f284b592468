import Vetro.Core.Mask

/-!
# Bitmaps in 64-bit words

A set of numbers, one bit for each, packed into 64-bit words.
-/

namespace Vetro.Bitmap

open Mask List

/-- Bit `i` of the words. -/
def test (words : List Word) (i : ℕ) : Bool :=
  words.getD (i / 64) 0 &&& (1 : Word) <<< (i % 64) ≠ 0

/-- The words without bit `i`. -/
def clear (words : List Word) (i : ℕ) : List Word :=
  words.modify (i / 64) (· &&& ~~~((1 : Word) <<< (i % 64)))

/-- `count` words with the first `n` bits set. -/
def first (count n : ℕ) : List Word :=
  (range count).map fun w =>
    let here := min (n - min (w * 64) n) 64
    if here = 64 then BitVec.allOnes 64 else low here

/-- The bits that are set. -/
def members (words : List Word) : Finset ℕ :=
  (Finset.range (64 * words.length)).filter fun i => test words i = true

variable {words : List Word}

theorem test_eq (words : List Word) (i : ℕ) :
    test words i = (words.getD (i / 64) 0).getLsbD (i % 64) := by
  rw [test, Bool.eq_iff_iff, decide_eq_true_iff,
    and_one_shiftLeft_ne_zero (Nat.mod_lt i (by decide))]

theorem lt_of_test {i : ℕ} (htest : test words i = true) : i < 64 * words.length := by
  by_contra hout
  have hword : words[i / 64]? = none := getElem?_eq_none (by omega)
  rw [test_eq, getD_eq_getElem?_getD, hword] at htest
  simp at htest

@[simp]
theorem mem_members {i : ℕ} : i ∈ members words ↔ test words i = true := by
  rw [members, Finset.mem_filter, Finset.mem_range]
  exact and_iff_right_of_imp lt_of_test

@[simp]
theorem length_clear (words : List Word) (i : ℕ) : (clear words i).length = words.length :=
  length_modify _ _ _

theorem getLsbD_and_not_one_shiftLeft (word : Word) {n : ℕ} (hn : n < 64) {i : ℕ} (hi : i < 64) :
    (word &&& ~~~((1 : Word) <<< n)).getLsbD i = (word.getLsbD i && decide (i ≠ n)) := by
  change (word &&& ~~~BitVec.twoPow 64 n).getLsbD i = _
  rw [BitVec.getLsbD_and, BitVec.getLsbD_not, BitVec.getLsbD_twoPow, decide_eq_true hi,
    decide_eq_true hn, Bool.true_and, Bool.true_and, ← decide_not]
  simp only [ne_comm, ne_eq]

theorem test_clear (words : List Word) (i j : ℕ) :
    test (clear words i) j = (test words j && decide (j ≠ i)) := by
  have hi := Nat.mod_lt i (by decide : 0 < 64)
  have hj := Nat.mod_lt j (by decide : 0 < 64)
  rw [test_eq, test_eq, clear, getD_eq_getElem?_getD, getD_eq_getElem?_getD,
    getElem?_modify]
  cases words[j / 64]? with
  | none => simp
  | some word =>
    rw [Option.map_eq_map, Option.map_some, Option.getD_some, Option.getD_some]
    by_cases hword : i / 64 = j / 64
    · have hsame : j % 64 ≠ i % 64 ↔ j ≠ i := by omega
      rw [if_pos hword, getLsbD_and_not_one_shiftLeft word hi hj, decide_eq_decide.mpr hsame]
    · have hne : j ≠ i := by
        rintro rfl
        exact hword rfl
      rw [if_neg hword, decide_eq_true hne, Bool.and_true]

theorem members_clear (words : List Word) (i : ℕ) :
    members (clear words i) = (members words).erase i := by
  ext j
  rw [mem_members, Finset.mem_erase, mem_members, test_clear, Bool.and_eq_true,
    decide_eq_true_iff, and_comm]

@[simp]
theorem test_replicate_zero (count i : ℕ) : test (replicate count 0#64) i = false := by
  rw [test_eq, getD_eq_getElem?_getD, getElem?_replicate]
  split_ifs <;> simp

theorem test_first {count n : ℕ} (hfits : n ≤ 64 * count) (i : ℕ) :
    test (first count n) i = decide (i < n) := by
  rw [test_eq, getD_eq_getElem?_getD, first, getElem?_map]
  by_cases hword : i / 64 < count
  · rw [getElem?_range hword, Option.map_some, Option.getD_some]
    dsimp only
    split_ifs with hfull
    · rw [BitVec.getLsbD_allOnes, decide_eq_decide]
      omega
    · rw [getLsbD_low (by omega), decide_eq_decide]
      omega
  · have hnone : (range count)[i / 64]? = none :=
      getElem?_eq_none (by rw [length_range]; omega)
    have hout : ¬i < n := by omega
    rw [hnone, decide_eq_false hout]
    simp

end Vetro.Bitmap
