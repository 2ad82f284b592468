import Mathlib.Tactic

/-!
# Serial numbers

Sequence numbers of a fixed width that wrap around and are compared by the sign
of their difference.  The number of steps from one to another (`ahead`) turns
the comparisons into inequalities between natural numbers, as long as what is
compared is at most half a turn apart.
-/

namespace Vetro.Serial

variable {w : ℕ}

/-- `a` comes before `b`: the difference is negative as a signed number. -/
def seqLt (a b : BitVec w) : Bool := (a - b).toInt < 0

def seqLe (a b : BitVec w) : Bool := (a - b).toInt ≤ 0

/-- Steps from `a` to `b`. -/
def ahead (a b : BitVec w) : ℕ := (b - a).toNat

theorem ahead_lt (a b : BitVec w) : ahead a b < 2 ^ w := (b - a).isLt

variable (a : BitVec w)

@[simp]
theorem ahead_self : ahead a a = 0 := by
  simp [ahead]

theorem ahead_eq_zero {a b : BitVec w} : ahead a b = 0 ↔ a = b := by
  constructor
  · intro hzero
    have hsub : b - a = 0 := BitVec.eq_of_toNat_eq (by simpa [ahead] using hzero)
    grind
  · rintro rfl
    exact ahead_self a

/-- The number that is `ahead` steps on. -/
theorem add_ahead (a b : BitVec w) : a + BitVec.ofNat w (ahead a b) = b := by
  rw [ahead, BitVec.ofNat_toNat, BitVec.setWidth_eq, BitVec.add_comm, BitVec.sub_add_cancel]

theorem ahead_add_ofNat (n : ℕ) : ahead a (a + BitVec.ofNat w n) = n % 2 ^ w := by
  rw [ahead, BitVec.add_comm, BitVec.add_sub_cancel, BitVec.toNat_ofNat]

theorem ahead_add_ofNat_of_lt {n : ℕ} (hn : n < 2 ^ w) : ahead a (a + BitVec.ofNat w n) = n := by
  rw [ahead_add_ofNat, Nat.mod_eq_of_lt hn]

theorem ahead_left_inj {a b c : BitVec w} : ahead a b = ahead a c ↔ b = c := by
  constructor
  · intro heq
    rw [← add_ahead a b, heq, add_ahead]
  · rintro rfl
    rfl

/-- Going on from `b` after having gone from `a` to `b`. -/
theorem ahead_trans (a b c : BitVec w) : ahead a c = (ahead a b + ahead b c) % 2 ^ w := by
  have hsplit : c - a = (b - a) + (c - b) := by grind
  rw [ahead, hsplit, BitVec.toNat_add]
  rfl

/-- What is left from `b` to `c` when `b` is on the way from `a` to `c`. -/
theorem ahead_of_le {a b c : BitVec w} (hle : ahead a b ≤ ahead a c) :
    ahead b c = ahead a c - ahead a b := by
  have htrans := ahead_trans a b c
  have hrest := ahead_lt b c
  rcases Nat.lt_or_ge (ahead a b + ahead b c) (2 ^ w) with hsmall | hlarge
  · rw [Nat.mod_eq_of_lt hsmall] at htrans
    omega
  · rw [Nat.mod_eq_sub_mod hlarge, Nat.mod_eq_of_lt (by omega)] at htrans
    omega

theorem ahead_swap (a b : BitVec w) : ahead b a = (2 ^ w - ahead a b) % 2 ^ w := by
  have hneg : a - b = -(b - a) := by grind
  rw [ahead, hneg, BitVec.toNat_neg]
  rfl

/-- Some steps after `b`. -/
theorem ahead_add {a b : BitVec w} {n : ℕ} (hroom : ahead a b + n < 2 ^ w) :
    ahead a (b + BitVec.ofNat w n) = ahead a b + n := by
  rw [ahead_trans a b, ahead_add_ofNat_of_lt b (by omega), Nat.mod_eq_of_lt hroom]

/-! ## The comparisons -/

theorem seqLt_iff {a b : BitVec w} : seqLt a b = true ↔ 0 < ahead a b ∧ 2 * ahead a b ≤ 2 ^ w := by
  have hlt := ahead_lt a b
  have hswap := ahead_swap a b
  rw [seqLt, decide_eq_true_iff, BitVec.toInt_neg_iff]
  change 2 ^ w ≤ 2 * ahead b a ↔ _
  rcases Nat.eq_zero_or_pos (ahead a b) with hzero | hpos
  · rw [hzero, Nat.sub_zero, Nat.mod_self] at hswap
    omega
  · rw [Nat.mod_eq_of_lt (by omega)] at hswap
    omega

theorem seqLe_iff {a b : BitVec w} : seqLe a b = true ↔ 2 * ahead a b ≤ 2 ^ w := by
  have hsplit : seqLe a b = true ↔ seqLt a b = true ∨ a = b := by
    rw [seqLe, seqLt, decide_eq_true_iff, decide_eq_true_iff, Int.le_iff_lt_or_eq]
    refine or_congr_right ⟨fun hzero => ?_, fun heq => by simp [heq]⟩
    have hsub : a - b = 0 := BitVec.eq_of_toInt_eq (by simpa using hzero)
    grind
  rw [hsplit, seqLt_iff, ← ahead_eq_zero]
  have := Nat.two_pow_pos w
  omega

theorem not_seqLt_iff {a b : BitVec w} :
    seqLt a b = false ↔ ahead a b = 0 ∨ 2 ^ w < 2 * ahead a b := by
  rw [← Bool.not_eq_true, seqLt_iff]
  omega

theorem seqLt_irrefl : seqLt a a = false := by
  rw [not_seqLt_iff, ahead_self]
  exact Or.inl rfl

variable (base : BitVec w)

/-- Between two numbers ahead of a common start, less than half a turn. -/
theorem seqLt_of_ahead {a b : BitVec w} (ha : 2 * ahead base a < 2 ^ w)
    (hb : 2 * ahead base b < 2 ^ w) : seqLt a b = true ↔ ahead base a < ahead base b := by
  rw [seqLt_iff]
  rcases Nat.lt_or_ge (ahead base b) (ahead base a) with hlt | hge
  · have hback := ahead_of_le hlt.le
    have hswap := ahead_swap b a
    rw [hback, Nat.mod_eq_of_lt (by omega)] at hswap
    omega
  · have hrest := ahead_of_le hge
    omega

/-- A number ahead of the start and not past the end is on the way between
them. -/
theorem ahead_le_of_not_past {base a stop : BitVec w} (hstart : 2 * ahead base a ≤ 2 ^ w)
    (hpast : seqLt stop a = false) : ahead base a ≤ ahead base stop := by
  by_contra hover
  have hrest := ahead_of_le (Nat.le_of_lt (Nat.lt_of_not_le hover))
  rw [not_seqLt_iff, hrest] at hpast
  omega

/-! ## Positions of a stream -/

/-- The number of position `n` of a stream that starts at `base`. -/
def place (base : BitVec w) (n : ℕ) : BitVec w := base + BitVec.ofNat w n

@[simp]
theorem place_zero : place base 0 = base := by
  simp [place]

theorem place_add (m n : ℕ) : place base (m + n) = place base m + BitVec.ofNat w n := by
  rw [place, place, BitVec.ofNat_add, BitVec.add_assoc]

theorem place_place (m n : ℕ) :
    place (place base m) n = place base (m + n) := (place_add base m n).symm

/-- From one position to a later one. -/
theorem ahead_place {base : BitVec w} {m n : ℕ} (hle : m ≤ n) (hnear : n - m < 2 ^ w) :
    ahead (place base m) (place base n) = n - m := by
  obtain ⟨k, rfl⟩ := Nat.exists_eq_add_of_le hle
  rw [Nat.add_sub_cancel_left] at hnear ⊢
  rw [place_add]
  exact ahead_add_ofNat_of_lt _ hnear

theorem place_inj_of_near {base : BitVec w} {m n : ℕ} (hle : m ≤ n) (hnear : n - m < 2 ^ w)
    (heq : place base m = place base n) : m = n := by
  have hzero : ahead (place base m) (place base n) = n - m := ahead_place hle hnear
  rw [heq, ahead_self] at hzero
  omega

end Vetro.Serial
