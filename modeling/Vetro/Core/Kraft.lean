import Mathlib.Tactic
import Mathlib.Algebra.BigOperators.Intervals

/-!
# Histograms of code lengths and canonical prefix codes

A histogram counts the codes of each length.  Its Kraft sum is a weighted sum
over the lengths, changed linearly by moving codes between lengths.  Canonical
codes number the codes of each length consecutively; seen as intervals of the
binary fractions they never overlap, and they fit whenever the Kraft sum does.
-/

namespace Vetro.Kraft

open Finset

/-! ## Histograms -/

/-- `count[index] += amount`. -/
def raise (count : ℕ → ℕ) (index amount other : ℕ) : ℕ :=
  if other = index then count index + amount else count other

/-- `count[index] -= amount`. -/
def lower (count : ℕ → ℕ) (index amount other : ℕ) : ℕ :=
  if other = index then count index - amount else count other

/-- The histogram of a list. -/
def tally (values : List ℕ) : ℕ → ℕ :=
  values.foldl (fun count value => raise count value 1) fun _ => 0

/-- The sum of the first `size` counts, each with its weight. -/
def weigh {R : Type*} [CommRing R] (weight : ℕ → R) (count : ℕ → ℕ) (size : ℕ) : R :=
  ∑ index ∈ Finset.range size, count index * weight index

section Weigh

variable {R : Type*} [CommRing R] (weight : ℕ → R) {count : ℕ → ℕ} {index size : ℕ}

theorem raise_of_ne {other amount : ℕ} (hne : other ≠ index) :
    raise count index amount other = count other :=
  if_neg hne

@[simp]
theorem raise_self (amount : ℕ) : raise count index amount index = count index + amount :=
  if_pos rfl

theorem lower_of_ne {other amount : ℕ} (hne : other ≠ index) :
    lower count index amount other = count other :=
  if_neg hne

@[simp]
theorem lower_self (amount : ℕ) : lower count index amount index = count index - amount :=
  if_pos rfl

/-- A change of one count changes the sum by its weight. -/
private theorem weigh_change (hindex : index < size) {changed : ℕ → ℕ}
    (hsame : ∀ other, other ≠ index → changed other = count other) :
    weigh weight changed size =
      weigh weight count size + (changed index - count index) * weight index := by
  have hmem : index ∈ Finset.range size := mem_range.mpr hindex
  have hrest : ∀ other ∈ (Finset.range size).erase index,
      (changed other : R) * weight other = count other * weight other := by
    intro other hother
    rw [hsame other (ne_of_mem_erase hother)]
  rw [weigh, weigh, ← add_sum_erase _ _ hmem, ← add_sum_erase _ _ hmem, sum_congr rfl hrest]
  ring

theorem weigh_raise (hindex : index < size) (amount : ℕ) :
    weigh weight (raise count index amount) size =
      weigh weight count size + amount * weight index := by
  rw [weigh_change weight hindex fun _ hne => raise_of_ne hne, raise_self]
  push_cast
  ring

theorem weigh_lower (hindex : index < size) {amount : ℕ} (hamount : amount ≤ count index) :
    weigh weight (lower count index amount) size =
      weigh weight count size - amount * weight index := by
  rw [weigh_change weight hindex fun _ hne => lower_of_ne hne, lower_self, Nat.cast_sub hamount]
  ring

private theorem weigh_foldl (values : List ℕ) (hvalues : ∀ value ∈ values, value < size)
    (start : ℕ → ℕ) :
    weigh weight (values.foldl (fun count value => raise count value 1) start) size =
      weigh weight start size + (values.map weight).sum := by
  induction values generalizing start with
  | nil => simp
  | cons value values ih =>
    rw [List.foldl_cons, ih (fun other hother => hvalues other (List.mem_cons_of_mem _ hother)),
      weigh_raise weight (hvalues value List.mem_cons_self), List.map_cons, List.sum_cons]
    ring

/-- A weighted histogram is the sum of the weights of what it counts. -/
theorem weigh_tally {values : List ℕ} (hvalues : ∀ value ∈ values, value < size) :
    weigh weight (tally values) size = (values.map weight).sum := by
  rw [tally, weigh_foldl weight values hvalues, weigh]
  simp

end Weigh

theorem tally_eq_count (values : List ℕ) (value : ℕ) : tally values value = values.count value := by
  have hfold : ∀ (values : List ℕ) (start : ℕ → ℕ),
      values.foldl (fun count value => raise count value 1) start value =
        start value + values.count value := by
    intro values
    induction values with
    | nil => simp
    | cons first values ih =>
      intro start
      rw [List.foldl_cons, ih, List.count_cons]
      by_cases hfirst : first = value
      · subst hfirst
        simp
        omega
      · rw [raise_of_ne (Ne.symm hfirst)]
        simp [hfirst]
  rw [tally, hfold, Nat.zero_add]

/-! ## Canonical codes -/

section Canonical

variable (count : ℕ → ℕ)

/-- The first code of each length: the codes of length `bits + 1` start where
those of length `bits` end. -/
def firstCode : ℕ → ℕ
  | 0 => 0
  | bits + 1 => (firstCode bits + count bits) * 2

/-- The codes of every length up to `bits` as parts of `2 ^ maximum`. -/
def kraft (maximum bits : ℕ) : ℕ :=
  ∑ index ∈ Finset.range bits, count index * 2 ^ (maximum - index)

variable {count}

/-- The first code of a length, as a binary fraction, is the Kraft sum of the
shorter codes. -/
theorem firstCode_mul {maximum bits : ℕ} (hbits : bits ≤ maximum) :
    firstCode count bits * 2 ^ (maximum - bits) = kraft count maximum bits := by
  induction bits with
  | zero => simp [firstCode, kraft]
  | succ bits ih =>
    have hpow : 2 ^ (maximum - bits) = 2 * 2 ^ (maximum - (bits + 1)) := by
      rw [← pow_succ']
      congr 1
      omega
    calc
      firstCode count (bits + 1) * 2 ^ (maximum - (bits + 1)) =
          firstCode count bits * 2 ^ (maximum - bits) +
            count bits * 2 ^ (maximum - bits) := by
        rw [firstCode, hpow]
        ring
      _ = kraft count maximum (bits + 1) := by
        rw [ih (by omega), kraft, kraft, sum_range_succ]

theorem kraft_mono (count : ℕ → ℕ) (maximum : ℕ) {bits more : ℕ} (hle : bits ≤ more) :
    kraft count maximum bits ≤ kraft count maximum more :=
  sum_le_sum_of_subset (range_subset_range.mpr hle)

/-- The fractions that start with the code number `rank` of length `bits`. -/
def Owns (count : ℕ → ℕ) (maximum bits rank fraction : ℕ) : Prop :=
  fraction / 2 ^ (maximum - bits) = firstCode count bits + rank

/-- The fractions of the codes of one length lie between the Kraft sums of the
shorter codes and of those up to that length. -/
theorem Owns.bounds {maximum bits rank fraction : ℕ} (hbits : bits ≤ maximum)
    (hrank : rank < count bits) (howns : Owns count maximum bits rank fraction) :
    kraft count maximum bits ≤ fraction ∧
      fraction < kraft count maximum (bits + 1) := by
  have hpow : 0 < 2 ^ (maximum - bits) := Nat.two_pow_pos _
  constructor
  · rw [← firstCode_mul hbits, ← Nat.le_div_iff_mul_le hpow, howns]
    exact Nat.le_add_right _ _
  · have hnext : kraft count maximum (bits + 1) =
        (firstCode count bits + count bits) * 2 ^ (maximum - bits) := by
      rw [kraft, sum_range_succ, ← kraft, ← firstCode_mul hbits]
      ring
    rw [hnext, ← Nat.div_lt_iff_lt_mul hpow, howns]
    omega

/-- No fraction starts with two codes. -/
theorem Owns.unique {maximum bits rank otherBits otherRank fraction : ℕ}
    (hbits : bits ≤ maximum) (hrank : rank < count bits)
    (hotherBits : otherBits ≤ maximum) (hotherRank : otherRank < count otherBits)
    (howns : Owns count maximum bits rank fraction)
    (hother : Owns count maximum otherBits otherRank fraction) :
    bits = otherBits ∧ rank = otherRank := by
  obtain ⟨hlow, hhigh⟩ := howns.bounds hbits hrank
  obtain ⟨hotherLow, hotherHigh⟩ := hother.bounds hotherBits hotherRank
  rcases Nat.lt_trichotomy bits otherBits with hlt | rfl | hgt
  · have := kraft_mono count maximum (show bits + 1 ≤ otherBits from hlt)
    omega
  · rw [Owns] at howns hother
    omega
  · have := kraft_mono count maximum (show otherBits + 1 ≤ bits from hgt)
    omega

/-- When the Kraft sum fits, every code fits its length. -/
theorem code_lt {maximum bits rank : ℕ} (hbits : bits ≤ maximum) (hrank : rank < count bits)
    (hkraft : kraft count maximum (maximum + 1) ≤ 2 ^ maximum) :
    firstCode count bits + rank < 2 ^ bits := by
  have howns : Owns count maximum bits rank
      ((firstCode count bits + rank) * 2 ^ (maximum - bits)) := by
    rw [Owns, Nat.mul_div_cancel _ (Nat.two_pow_pos _)]
  have hupper := (howns.bounds hbits hrank).2
  have hwhole : 2 ^ bits * 2 ^ (maximum - bits) = 2 ^ maximum := by
    rw [← pow_add, Nat.add_sub_cancel' hbits]
  have hmono := kraft_mono count maximum (show bits + 1 ≤ maximum + 1 by omega)
  refine lt_of_mul_lt_mul_right (a := 2 ^ (maximum - bits)) ?_ (Nat.zero_le _)
  omega

end Canonical

end Vetro.Kraft
