import Vetro.Core.Kraft
import Vetro.Core.Outcome
import Vetro.Snapshot.Format

/-!
# Length-limited Huffman code lengths

The model of `code_lengths` of the frame codec: a Huffman tree built with two
queues, its depths, the method of JPEG Annex K.3 that limits the longest code,
and the assignment of the shortest codes to the most frequent symbols.  Arrays
of a fixed size are functions of the index; an index or a subtraction that the
source would reject is a panic of the model.
-/

namespace Vetro.Huffman

open Function List
open Kraft
open Outcome
open Format (Error)

/-! ## Model -/

/-- The next tree in order of weight: a leaf of the queue from `leaf`, or an
internal node of the queue from `node`, and the queues after it. -/
def pick (m : ℕ) (weight : List ℕ) (leaf node : ℕ) : ℕ × ℕ × ℕ :=
  if leaf < m ∧ (weight.length ≤ node ∨ weight.getD leaf 0 ≤ weight.getD node 0) then
    (leaf, leaf + 1, node)
  else (node, leaf, node + 1)

/-- The `m - 1` merges: the parents of all nodes. -/
def mergeLoop (m : ℕ) : ℕ → List ℕ → ℕ → ℕ → (ℕ → ℕ) → Result Error (ℕ → ℕ)
  | 0, _, _, _, parent => .ok parent
  | left + 1, weight, leaf, node, parent => do
    let (a, leaf, node) := pick m weight leaf node
    let (b, leaf, node) := pick m weight leaf node
    require (a < weight.length ∧ b < weight.length)
    let id := weight.length
    mergeLoop m left (weight ++ [weight.getD a 0 + weight.getD b 0]) leaf node
      (update (update parent a id) b id)

/-- The depths of the nodes below `i`, from those of their parents. -/
def depthLoop (parent : ℕ → ℕ) (size : ℕ) : ℕ → (ℕ → ℕ) → Result Error (ℕ → ℕ)
  | 0, depth => .ok depth
  | i + 1, depth => do
    require (parent i < size)
    depthLoop parent size i (update depth i (depth (parent i) + 1))

/-- `while count[j] == 0 { j -= 1 }`. -/
def donor (count : ℕ → ℕ) : ℕ → Result Error ℕ
  | 0 => if count 0 = 0 then panic else .ok 0
  | j + 1 => if count (j + 1) = 0 then donor count j else .ok (j + 1)

variable {count : ℕ → ℕ}

theorem donor_le {start j : ℕ} (hdonor : donor count start = .ok j) : j ≤ start := by
  induction start with
  | zero =>
    rw [donor] at hdonor
    split at hdonor
    · cases hdonor
    · cases hdonor
      exact le_rfl
  | succ start ih =>
    rw [donor] at hdonor
    split at hdonor
    · exact Nat.le_succ_of_le (ih hdonor)
    · cases hdonor
      exact le_rfl

/-- Two codes of length `i` become one of length `i - 1`; the other takes the
place of a code of length `j`, which moves one level down. -/
def lift (count : ℕ → ℕ) (i j : ℕ) : ℕ → ℕ :=
  lower (raise (raise (lower count i 2) (i - 1) 1) (j + 1) 2) j 1

variable {i j : ℕ}

theorem lift_level (count : ℕ → ℕ) (hi : 2 ≤ i) (hj : j ≤ i - 2) :
    lift count i j i = count i - 2 := by
  rw [lift, lower_of_ne (by omega), raise_of_ne (by omega), raise_of_ne (by omega), lower_self]

/-- `while count[i] > 0`: no code of length `i` is left. -/
def limitLevel (i : ℕ) (count : ℕ → ℕ) : Result Error (ℕ → ℕ) :=
  if _hnone : count i = 0 then .ok count
  else if _hlow : i < 2 then panic
  else
    match _hdonor : donor count (i - 2) with
    | .error stop => .error stop
    | .ok j => if count i < 2 then panic else limitLevel i (lift count i j)
termination_by count i
decreasing_by
  rw [lift_level count (by omega) (donor_le _hdonor)]
  omega

/-- The levels from `limit + steps` down to `limit + 1`. -/
def limitLoop (limit : ℕ) : ℕ → (ℕ → ℕ) → Result Error (ℕ → ℕ)
  | 0, count => .ok count
  | steps + 1, count => do
    let count ← limitLevel (limit + (steps + 1)) count
    limitLoop limit steps count

/-- `while count[l] == 0 { l += 1 }`. -/
def advance (size : ℕ) (count : ℕ → ℕ) (l : ℕ) : Result Error ℕ :=
  if size ≤ l then panic
  else if count l = 0 then advance size count (l + 1) else .ok l
termination_by size - l

/-- The lengths of the symbols in the order given, shortest first. -/
def assignLoop (size : ℕ) : List ℕ → ℕ → (ℕ → ℕ) → List ℕ → Result Error (List ℕ)
  | [], _, _, len => .ok len
  | s :: syms, l, count, len => do
    let l ← advance size count l
    require (s < len.length)
    assignLoop size syms l (lower count l 1) (len.set s (l % 256))

/-- The order of `sort_by_key(|&s| (freq[s], s))`. -/
def rarer (freq : List ℕ) (s t : ℕ) : Bool :=
  decide (freq.getD s 0 < freq.getD t 0 ∨ freq.getD s 0 = freq.getD t 0 ∧ s ≤ t)

def usedSymbols (freq : List ℕ) : List ℕ :=
  (List.range freq.length).filter fun s => 0 < freq.getD s 0

/-- Two or more symbols: the lengths of a limited Huffman code. -/
def treeLengths (freq syms : List ℕ) (limit : ℕ) : Result Error (List ℕ) := do
  let m := syms.length
  let weight := syms.map fun s => freq.getD s 0
  let parent ← mergeLoop m (m - 1) weight 0 m fun _ => 2 ^ 64 - 1
  let depth ← depthLoop parent (2 * m - 1) (2 * m - 2) fun _ => 0
  let depths := (List.range m).map depth
  let deepest := depths.foldr max 0
  let count ← limitLoop limit (deepest - limit) (tally depths)
  assignLoop (max deepest limit + 1) syms.reverse 1 count
    (List.replicate freq.length 0)

/-- Code lengths for the frequencies `freq`, at most `limit` bits. -/
def codeLengths (freq : List ℕ) (limit : ℕ) : Result Error (List ℕ) :=
  match usedSymbols freq with
  | [] => .ok (List.replicate freq.length 0)
  | [s] => .ok ((List.replicate freq.length 0).set s 1)
  | syms => treeLengths freq (syms.mergeSort (rarer freq)) limit

/-! ## The tree -/

/-- The nodes that already have a parent: the leaves before `leaf` and the
internal nodes before `node`. -/
def Taken (m leaf node i : ℕ) : Prop := i < leaf ∨ m ≤ i ∧ i < node

/-- A sum over the trees of the two queues. -/
def openSum (f : ℕ → ℚ) (m leaf node size : ℕ) : ℚ :=
  ∑ i ∈ Finset.Ico leaf m, f i + ∑ i ∈ Finset.Ico node size, f i

/-- Where the two queues stand after `merged` merges. -/
structure Queues (m size leaf node : ℕ) : Prop where
  leaf_le : leaf ≤ m
  le_node : m ≤ node
  node_le : node ≤ size

/-- One tree `a` leaves the queues. -/
structure Picked (m size leaf node a leaf' node' : ℕ) : Prop where
  queues : Queues m size leaf' node'
  sum : leaf' + node' = leaf + node + 1
  lt : a < size
  was_open : ¬Taken m leaf node a
  taken_iff : ∀ i, Taken m leaf' node' i ↔ i = a ∨ Taken m leaf node i
  openSum_eq : ∀ f, openSum f m leaf node size = f a + openSum f m leaf' node' size

variable {m : ℕ}

/-- `pick` takes the first tree of one of the queues. -/
theorem pick_spec {leaf node : ℕ} {weight : List ℕ} (hqueues : Queues m weight.length leaf node)
    (hleft : leaf < m ∨ node < weight.length) :
    ∃ a leaf' node', pick m weight leaf node = (a, leaf', node') ∧
      Picked m weight.length leaf node a leaf' node' := by
  obtain ⟨hleaf, hnode, hsize⟩ := hqueues
  rw [pick]
  split_ifs with htake
  · refine ⟨_, _, _, rfl, ⟨by omega, hnode, hsize⟩, by omega, by omega, ?_, ?_, ?_⟩
    · simp only [Taken]
      omega
    · intro i
      simp only [Taken]
      omega
    · intro f
      rw [openSum, openSum, Finset.sum_eq_sum_Ico_succ_bot htake.1, add_assoc]
  · have hinner : node < weight.length := by
      by_contra hnone
      exact htake ⟨by omega, .inl (by omega)⟩
    refine ⟨_, _, _, rfl, ⟨hleaf, by omega, by omega⟩, by omega, hinner, ?_, ?_, ?_⟩
    · simp only [Taken]
      omega
    · intro i
      simp only [Taken]
      omega
    · intro f
      rw [openSum, openSum, Finset.sum_eq_sum_Ico_succ_bot hinner]
      ring

/-- What the parents of a finished tree say about the queues it was built
from. -/
structure Built (m size leaf node : ℕ) (before after : ℕ → ℕ) : Prop where
  kept : ∀ i, Taken m leaf node i → after i = before i
  above : ∀ i, ¬Taken m leaf node i → i < 2 * m - 2 → i < after i ∧ after i < 2 * m - 1
  kraft : ∀ depth : ℕ → ℕ, (∀ i < 2 * m - 2, depth i = depth (after i) + 1) →
    depth (2 * m - 2) = 0 → openSum (fun i => (1 / 2) ^ depth i) m leaf node size = 1

variable {size : ℕ}

/-- A merge of the trees `a` and `b` into the node `size`: what holds of the
queues after it holds of those before it. -/
theorem Built.merge {leaf node a leaf₁ node₁ b leaf₂ node₂ : ℕ} {before after : ℕ → ℕ}
    (hfirst : Picked m size leaf node a leaf₁ node₁)
    (hsecond : Picked m size leaf₁ node₁ b leaf₂ node₂) (hsize : size < 2 * m - 1)
    (hbuilt : Built m (size + 1) leaf₂ node₂ (update (update before a size) b size) after) :
    Built m size leaf node before after := by
  have hnode₂ := hsecond.queues.node_le
  have hchild : ∀ i, i = a ∨ i = b → after i = size := by
    intro i hi
    rw [hbuilt.kept i (by rw [hsecond.taken_iff, hfirst.taken_iff]; tauto)]
    simp only [update_apply]
    split_ifs <;> tauto
  refine ⟨?_, ?_, ?_⟩
  · intro i htaken
    have hne : i ≠ a := fun heq => hfirst.was_open (heq ▸ htaken)
    have htaken₁ : Taken m leaf₁ node₁ i := (hfirst.taken_iff i).mpr (.inr htaken)
    have hne' : i ≠ b := fun heq => hsecond.was_open (heq ▸ htaken₁)
    rw [hbuilt.kept i ((hsecond.taken_iff i).mpr (.inr htaken₁)),
      update_of_ne hne', update_of_ne hne]
  · intro i hopen hi
    by_cases hnew : i = a ∨ i = b
    · have hlt : i < size := by
        rcases hnew with rfl | rfl
        · exact hfirst.lt
        · exact hsecond.lt
      rw [hchild i hnew]
      exact ⟨hlt, hsize⟩
    · refine hbuilt.above i ?_ hi
      rw [hsecond.taken_iff, hfirst.taken_iff]
      tauto
  · intro depth hdepth hroot
    have hhalf : ∀ i, i = a ∨ i = b → i < 2 * m - 2 →
        ((1 / 2 : ℚ)) ^ depth i = 1 / 2 * (1 / 2) ^ depth size := by
      intro i hi hlt
      rw [hdepth i hlt, hchild i hi, pow_succ']
    have ha := hfirst.lt
    have hb := hsecond.lt
    have hsum := hbuilt.kraft depth hdepth hroot
    rw [openSum, Finset.sum_Ico_succ_top hnode₂, ← add_assoc, ← openSum] at hsum
    rw [hfirst.openSum_eq, hsecond.openSum_eq, hhalf a (.inl rfl) (by omega),
      hhalf b (.inr rfl) (by omega)]
    linarith

/-- The merges take two trees each until the root is the only one left. -/
theorem mergeLoop_spec {left merged leaf node : ℕ} {weight : List ℕ} (parent : ℕ → ℕ) (hm : 2 ≤ m)
    (hleft : merged + left + 1 = m) (hweight : weight.length = m + merged)
    (hqueues : Queues m weight.length leaf node) (hsum : leaf + node = m + 2 * merged)
    (hfresh : 0 < merged → node < m + merged) :
    ∃ after, mergeLoop m left weight leaf node parent = .ok after ∧
      Built m weight.length leaf node parent after := by
  induction left generalizing merged leaf node weight parent with
  | zero =>
    obtain ⟨hleaf, hnode, -⟩ := hqueues
    obtain rfl : node = 2 * m - 2 := by omega
    obtain rfl : leaf = m := by omega
    refine ⟨parent, rfl, fun _ _ => rfl, ?_, ?_⟩
    · intro i hopen hi
      simp only [Taken] at hopen
      omega
    · intro depth _ hdepth
      have hsize : weight.length = 2 * leaf - 2 + 1 := by omega
      rw [openSum, hsize, Nat.Ico_succ_singleton]
      simp [hdepth]
  | succ left ih =>
    obtain ⟨a, leaf₁, node₁, hpick₁, hfirst⟩ := pick_spec hqueues (by omega)
    have hsum₁ := hfirst.sum
    obtain ⟨b, leaf₂, node₂, hpick₂, hsecond⟩ := pick_spec hfirst.queues (by omega)
    obtain ⟨hleaf₂, hnode₂, hsize₂⟩ := hsecond.queues
    have hsum₂ := hsecond.sum
    have hpushed : (weight ++ [weight.getD a 0 + weight.getD b 0]).length =
        weight.length + 1 := by simp
    obtain ⟨after, hrun, hbuilt⟩ := @ih (merged + 1) leaf₂ node₂
      (weight ++ [weight.getD a 0 + weight.getD b 0])
      (update (update parent a weight.length) b weight.length)
      (by omega) (by rw [hpushed]; omega)
      ⟨hleaf₂, hnode₂, by rw [hpushed]; omega⟩ (by omega) (by omega)
    rw [hpushed] at hbuilt
    refine ⟨after, ?_, hbuilt.merge hfirst hsecond (by omega)⟩
    rw [mergeLoop]
    simp only [hpick₁, hpick₂]
    rw [require_eq_ok ⟨hfirst.lt, hsecond.lt⟩, ok_bind, hrun]

/-- All the merges, from the leaves to the root. -/
theorem mergeLoop_leaves {weight : List ℕ} (hm : 2 ≤ m) (hweight : weight.length = m)
    (parent : ℕ → ℕ) :
    ∃ after, mergeLoop m (m - 1) weight 0 m parent = .ok after ∧
      Built m m 0 m parent after := by
  have hqueues : Queues m weight.length 0 m := ⟨Nat.zero_le m, le_rfl, hweight.ge⟩
  have hrun := mergeLoop_spec parent hm (show 0 + (m - 1) + 1 = m by omega) hweight hqueues
    (by omega) (by omega)
  rwa [hweight] at hrun

/-! ## Depths -/

/-- Every node lies one level below its parent, the root at level zero. -/
structure Depths (parent : ℕ → ℕ) (root : ℕ) (depth : ℕ → ℕ) : Prop where
  step : ∀ i < root, depth i = depth (parent i) + 1
  root : depth root = 0

variable {i : ℕ}

theorem depthLoop_spec {parent : ℕ → ℕ} {root : ℕ}
    (hparent : ∀ i < root, i < parent i ∧ parent i < root + 1) (hi : i ≤ root)
    (depth : ℕ → ℕ) (hroot : depth root = 0)
    (hdone : ∀ j, i ≤ j → j < root → depth j = depth (parent j) + 1) :
    ∃ after, depthLoop parent (root + 1) i depth = .ok after ∧
      Depths parent root after := by
  induction i generalizing depth with
  | zero => exact ⟨depth, rfl, fun j hj => hdone j (Nat.zero_le j) hj, hroot⟩
  | succ i ih =>
    rw [depthLoop, require_eq_ok (hparent i hi).2, ok_bind]
    refine ih (by omega) _ (by rw [update_of_ne (by omega)]; exact hroot) ?_
    intro j hij hj
    have habove := (hparent j hj).1
    rw [update_of_ne (show parent j ≠ i by omega)]
    by_cases hsame : j = i
    · rw [hsame, update_self]
    · rw [update_of_ne hsame]
      exact hdone j (by omega) hj

/-! ## Limiting the lengths -/

/-- The part of the code space that one code of length `l` takes. -/
def share (l : ℕ) : ℚ := (1 / 2) ^ l

/-- `m` codes that fill the code space exactly. -/
structure Complete (count : ℕ → ℕ) (size m : ℕ) : Prop where
  kraft : weigh share count size = 1
  total : weigh (fun _ => (1 : ℚ)) count size = m

theorem weigh_cut {weight : ℕ → ℚ} {small : ℕ} (hsmall : small ≤ size)
    (hzero : ∀ j, small ≤ j → j < size → count j = 0) :
    weigh weight count size = weigh weight count small := by
  symm
  apply Finset.sum_subset (Finset.range_subset_range.mpr hsmall)
  intro j hj hout
  rw [hzero j (by simpa using hout) (by simpa using hj), Nat.cast_zero, zero_mul]

/-- A code space filled by codes of at most `i` bits, counted in codes of `i`
bits. -/
theorem Complete.levels (hcomplete : Complete count size m) (hi : i < size)
    (hdeep : ∀ j, i < j → j < size → count j = 0) :
    ∑ j ∈ Finset.range (i + 1), count j * 2 ^ (i - j) = 2 ^ i := by
  have hkraft := hcomplete.kraft
  rw [weigh_cut (show i + 1 ≤ size from hi) (fun j hj => hdeep j hj), weigh] at hkraft
  have hscaled : ∀ j ∈ Finset.range (i + 1),
      (count j * 2 ^ (i - j) : ℚ) = count j * share j * 2 ^ i := by
    intro j hj
    have hle : j ≤ i := Nat.lt_succ_iff.mp (Finset.mem_range.mp hj)
    have hunit : share j * 2 ^ j = 1 := by
      rw [share, ← mul_pow]
      norm_num
    calc
      (count j * 2 ^ (i - j) : ℚ) = count j * 2 ^ (i - j) * (share j * 2 ^ j) := by
        rw [hunit, mul_one]
      _ = count j * share j * 2 ^ (i - j + j) := by ring
      _ = count j * share j * 2 ^ i := by rw [Nat.sub_add_cancel hle]
  have hcast : ((∑ j ∈ Finset.range (i + 1), count j * 2 ^ (i - j) : ℕ) : ℚ) =
      ((2 ^ i : ℕ) : ℚ) := by
    push_cast
    rw [Finset.sum_congr rfl hscaled, ← Finset.sum_mul, hkraft, one_mul]
  exact_mod_cast hcast

/-- The codes of the deepest level come in pairs. -/
theorem Complete.deepest_even (hcomplete : Complete count size m) (hi : i < size)
    (hpos : 0 < i) (hdeep : ∀ j, i < j → j < size → count j = 0) : 2 ∣ count i := by
  have hlevels := hcomplete.levels hi hdeep
  rw [Finset.sum_range_succ, Nat.sub_self, pow_zero, mul_one] at hlevels
  have habove : 2 ∣ ∑ j ∈ Finset.range i, count j * 2 ^ (i - j) := by
    refine Finset.dvd_sum fun j hj => Dvd.dvd.mul_left (dvd_pow_self 2 ?_) _
    have := Finset.mem_range.mp hj
    omega
  have hwhole : 2 ∣ 2 ^ i := dvd_pow_self 2 (by omega)
  omega

/-- With room for all codes above the deepest level, some code lies at least
two levels above it. -/
theorem Complete.exists_donor (hcomplete : Complete count size m) (hi : i + 2 < size)
    (hdeep : ∀ j, i + 2 < j → j < size → count j = 0) (hsome : count (i + 2) ≠ 0)
    (hroom : m ≤ 2 ^ (i + 1)) : ∃ j ≤ i, count j ≠ 0 := by
  by_contra hnone
  push Not at hnone
  have hshallow : ∀ f : ℕ → ℕ, ∑ j ∈ Finset.range (i + 1), count j * f j = 0 := by
    intro f
    refine Finset.sum_eq_zero fun j hj => ?_
    rw [hnone j (Nat.lt_succ_iff.mp (Finset.mem_range.mp hj)), zero_mul]
  have hlevels := hcomplete.levels hi hdeep
  rw [Finset.sum_range_succ, Finset.sum_range_succ, hshallow,
    show i + 2 - (i + 1) = 1 by omega, Nat.sub_self] at hlevels
  have htotal : ((count (i + 1) + count (i + 2) : ℕ) : ℚ) = (m : ℚ) := by
    have hshallow' : ∑ j ∈ Finset.range (i + 1), (count j : ℚ) * 1 = 0 := by
      exact_mod_cast hshallow fun _ => 1
    rw [← hcomplete.total, weigh_cut (show i + 2 + 1 ≤ size from hi)
      (fun j hj => hdeep j hj), weigh, Finset.sum_range_succ, Finset.sum_range_succ,
      hshallow']
    push_cast
    ring
  have hcount : count (i + 1) + count (i + 2) = m := by exact_mod_cast htotal
  have hpow : 2 ^ (i + 2) = 2 * 2 ^ (i + 1) := pow_succ' 2 (i + 1)
  omega

theorem donor_spec {start : ℕ} (hsome : ∃ j ≤ start, count j ≠ 0) :
    ∃ j ≤ start, donor count start = .ok j ∧ count j ≠ 0 := by
  induction start with
  | zero =>
    obtain ⟨j, hj, hcount⟩ := hsome
    obtain rfl : j = 0 := by omega
    exact ⟨0, le_rfl, by rw [donor, if_neg hcount], hcount⟩
  | succ start ih =>
    rw [donor]
    split_ifs with hzero
    · obtain ⟨j, hj, hcount⟩ := hsome
      have hne : j ≠ start + 1 := fun heq => hcount (heq ▸ hzero)
      obtain ⟨found, hle, hrun, hfound⟩ := ih ⟨j, by omega, hcount⟩
      exact ⟨found, by omega, hrun, hfound⟩
    · exact ⟨start + 1, le_rfl, rfl, hzero⟩

/-- Moving codes keeps their number and the space they take. -/
theorem Complete.lift (hcomplete : Complete count size m) (hi : i + 2 < size) (hj : j ≤ i)
    (htwo : 2 ≤ count (i + 2)) (hdonor : count j ≠ 0) : Complete (lift count (i + 2) j) size m := by
  have hmoved : ∀ weight : ℕ → ℚ, weigh weight (Huffman.lift count (i + 2) j) size =
      weigh weight count size - 2 * weight (i + 2) + weight (i + 1) +
        2 * weight (j + 1) - weight j := by
    intro weight
    have hsource : 1 ≤ raise (raise (lower count (i + 2) 2) (i + 2 - 1) 1) (j + 1) 2 j := by
      rw [raise_of_ne (by omega), raise_of_ne (by omega), lower_of_ne (by omega)]
      omega
    rw [Huffman.lift, weigh_lower weight (by omega) hsource, weigh_raise weight (by omega),
      weigh_raise weight (by omega), weigh_lower weight hi htwo,
      show i + 2 - 1 = i + 1 by omega]
    ring
  constructor
  · rw [hmoved, hcomplete.kraft]
    simp only [share]
    ring
  · rw [hmoved, hcomplete.total]
    ring

theorem limitLevel_step (hi : 2 ≤ i) (hdonor : donor count (i - 2) = .ok j)
    (htwo : 2 ≤ count i) : limitLevel i count = limitLevel i (lift count i j) := by
  rw [limitLevel, dif_neg (by omega), dif_neg (by omega)]
  split
  · next stop heq => rw [hdonor] at heq; cases heq
  · next found heq =>
    rw [hdonor] at heq
    cases heq
    rw [if_neg (by omega)]

theorem limitLevel_spec (hcomplete : Complete count size m) (hi : i + 2 < size)
    (hdeep : ∀ j, i + 2 < j → j < size → count j = 0) (hroom : m ≤ 2 ^ (i + 1)) :
    ∃ after, limitLevel (i + 2) count = .ok after ∧ Complete after size m ∧
      ∀ j, i + 1 < j → j < size → after j = 0 := by
  induction hleft : count (i + 2) using Nat.strong_induction_on generalizing count with
  | _ left ih =>
    by_cases hnone : count (i + 2) = 0
    · rw [limitLevel, dif_pos hnone]
      refine ⟨count, rfl, hcomplete, fun j hj hsize => ?_⟩
      rcases Nat.lt_or_eq_of_le (show i + 2 ≤ j from hj) with hlt | rfl
      · exact hdeep j hlt hsize
      · exact hnone
    obtain ⟨j, hj, hdonor, hcount⟩ := donor_spec (hcomplete.exists_donor hi hdeep hnone hroom)
    have heven := hcomplete.deepest_even hi (by omega) hdeep
    have hlevel := lift_level count (show 2 ≤ i + 2 by omega) (show j ≤ i + 2 - 2 by omega)
    rw [limitLevel_step (by omega) hdonor (by omega)]
    refine ih _ (by omega) (hcomplete.lift hi hj (by omega) hcount) ?_ rfl
    intro deeper hdeeper hsize
    rw [Huffman.lift, lower_of_ne (by omega), raise_of_ne (by omega),
      raise_of_ne (by omega), lower_of_ne (by omega)]
    exact hdeep deeper hdeeper hsize

variable {limit : ℕ}

theorem limitLoop_spec (steps : ℕ) (hlimit : 1 ≤ limit) (hcomplete : Complete count size m)
    (hsteps : limit + steps < size) (hdeep : ∀ j, limit + steps < j → j < size → count j = 0)
    (hroom : m ≤ 2 ^ limit) :
    ∃ after, limitLoop limit steps count = .ok after ∧ Complete after size m ∧
      ∀ j, limit < j → j < size → after j = 0 := by
  induction steps generalizing count with
  | zero => exact ⟨count, rfl, hcomplete, hdeep⟩
  | succ steps ih =>
    obtain ⟨i, hi⟩ : ∃ i, limit + (steps + 1) = i + 2 := ⟨limit + steps - 1, by omega⟩
    have hwide : 2 ^ limit ≤ 2 ^ (i + 1) := Nat.pow_le_pow_right (by decide) (by omega)
    rw [hi] at hdeep
    obtain ⟨middle, hlevel, hmiddle, hzero⟩ := limitLevel_spec hcomplete (by omega) hdeep (by omega)
    rw [limitLoop, hi, hlevel, ok_bind]
    exact ih hmiddle (by omega) fun j hj => hzero j (by omega)

/-! ## Assigning the lengths -/

/-- The part of the code space of a symbol; length zero is an unused symbol. -/
def codeShare (l : ℕ) : ℚ := if l = 0 then 0 else share l

theorem sum_codeShare_set {len : List ℕ} {s l : ℕ} (hs : len[s]? = some 0) :
    ((len.set s l).map codeShare).sum = (len.map codeShare).sum + codeShare l := by
  induction len generalizing s with
  | nil => simp at hs
  | cons first len ih =>
    cases s with
    | zero =>
      obtain rfl : first = 0 := by simpa using hs
      simp only [set_cons_zero, map_cons, sum_cons]
      rw [show codeShare 0 = 0 from rfl]
      ring
    | succ s =>
      rw [set_cons_succ, map_cons, sum_cons, ih (by simpa using hs), map_cons, sum_cons, add_assoc]

theorem advance_spec {l : ℕ} (hsome : ∃ j, l ≤ j ∧ j < size ∧ count j ≠ 0) :
    ∃ found, advance size count l = .ok found ∧ l ≤ found ∧ found < size ∧
      count found ≠ 0 ∧ ∀ j, l ≤ j → j < found → count j = 0 := by
  fun_induction advance size count l with
  | case1 l hsize => omega
  | case2 l hsize hzero ih =>
    obtain ⟨j, hlj, hj, hcount⟩ := hsome
    have hne : j ≠ l := fun heq => hcount (heq ▸ hzero)
    obtain ⟨found, hrun, hle, hlt, hfound, hbefore⟩ := ih ⟨j, by omega, hj, hcount⟩
    refine ⟨found, hrun, by omega, hlt, hfound, fun other hother hlt => ?_⟩
    by_cases hhere : other = l
    · rw [hhere, hzero]
    · exact hbefore other (by omega) hlt
  | case3 l hsize hcount => exact ⟨l, rfl, le_rfl, by omega, hcount, fun j _ _ => by omega⟩

/-- The counts that remain belong to `left` symbols, none of them shorter than
`l` or longer than `limit`. -/
structure Remaining (count : ℕ → ℕ) (size limit l left : ℕ) : Prop where
  total : weigh (fun _ => (1 : ℚ)) count size = left
  low : ∀ j < l, count j = 0
  high : ∀ j, limit < j → j < size → count j = 0

theorem Remaining.sum_eq {l left : ℕ} (hremaining : Remaining count size limit l left) :
    ∑ j ∈ Finset.range size, count j = left := by
  have htotal := hremaining.total
  simp only [weigh, mul_one] at htotal
  exact_mod_cast htotal

theorem Remaining.take {l left found : ℕ} (hremaining : Remaining count size limit l (left + 1))
    (hfound : found < size) (hcount : count found ≠ 0)
    (hbefore : ∀ j, l ≤ j → j < found → count j = 0) :
    Remaining (lower count found 1) size limit found left := by
  have hlimit : found ≤ limit := by
    by_contra hhigh
    exact hcount (hremaining.high found (by omega) hfound)
  refine ⟨?_, ?_, ?_⟩
  · rw [weigh_lower _ hfound (by omega), hremaining.total]
    simp
  · intro j hj
    rw [lower_of_ne (by omega)]
    by_cases hlow : j < l
    · exact hremaining.low j hlow
    · exact hbefore j (by omega) hj
  · intro j hj hsize
    rw [lower_of_ne (by omega)]
    exact hremaining.high j hj hsize

/-- The lengths that the symbols `syms` got. -/
structure Assigned (before after : List ℕ) (syms : List ℕ) (limit : ℕ) : Prop where
  length : after.length = before.length
  kept : ∀ s, s ∉ syms → after[s]? = before[s]?
  given : ∀ s ∈ syms, ∃ l, after[s]? = some l ∧ 1 ≤ l ∧ l ≤ limit

theorem assignLoop_spec {l : ℕ} {syms len : List ℕ} (hbyte : limit < 256) (hl : 1 ≤ l)
    (hremaining : Remaining count size limit l syms.length) (hnodup : syms.Nodup)
    (hunset : ∀ s ∈ syms, len[s]? = some 0) :
    ∃ after, assignLoop size syms l count len = .ok after ∧
      Assigned len after syms limit ∧
      (after.map codeShare).sum = (len.map codeShare).sum + weigh share count size ∧
      (l :: syms.map fun s => after.getD s 0).Pairwise (· ≤ ·) := by
  induction syms generalizing l count len with
  | nil =>
    have hzero := hremaining.sum_eq
    rw [length_nil, Finset.sum_eq_zero_iff] at hzero
    refine ⟨len, rfl, ⟨rfl, fun _ _ => rfl, fun s hs => absurd hs not_mem_nil⟩, ?_,
      pairwise_singleton _ l⟩
    rw [weigh, Finset.sum_eq_zero fun j hj => by rw [hzero j hj, Nat.cast_zero, zero_mul], add_zero]
  | cons s syms ih =>
    have hsome : ∃ j, l ≤ j ∧ j < size ∧ count j ≠ 0 := by
      have hsum := hremaining.sum_eq
      obtain ⟨j, hj, hcount⟩ := Finset.exists_ne_zero_of_sum_ne_zero
        (show ∑ j ∈ Finset.range size, count j ≠ 0 by rw [hsum]; simp)
      refine ⟨j, ?_, Finset.mem_range.mp hj, hcount⟩
      by_contra hlow
      exact hcount (hremaining.low j (by omega))
    obtain ⟨found, hadvance, hle, hlt, hcount, hbefore⟩ := advance_spec hsome
    have hlimit : found ≤ limit := by
      by_contra hhigh
      exact hcount (hremaining.high found (by omega) hlt)
    have hs := hunset s mem_cons_self
    have hinside : s < len.length := (List.getElem?_eq_some_iff.mp hs).1
    rw [nodup_cons] at hnodup
    have hunset' : ∀ t ∈ syms, (len.set s found)[t]? = some 0 := by
      intro t ht
      have hne : s ≠ t := fun heq => hnodup.1 (heq ▸ ht)
      rw [List.getElem?_set_ne hne]
      exact hunset t (mem_cons_of_mem _ ht)
    obtain ⟨after, hrun, hassigned, hsum, hordered⟩ := ih (by omega)
      (hremaining.take hlt hcount hbefore) hnodup.2 hunset'
    have hafter : after[s]? = some found := by
      rw [hassigned.kept s hnodup.1, List.getElem?_set_self hinside]
    refine ⟨after, ?_, ⟨?_, ?_, ?_⟩, ?_, ?_⟩
    · rw [assignLoop, hadvance, ok_bind, require_eq_ok hinside, ok_bind,
        Nat.mod_eq_of_lt (by omega), hrun]
    · rw [hassigned.length, length_set]
    · intro t ht
      rw [mem_cons, not_or] at ht
      rw [hassigned.kept t ht.2, List.getElem?_set_ne (Ne.symm ht.1)]
    · intro t ht
      rcases mem_cons.mp ht with rfl | htail
      · exact ⟨found, hafter, by omega, hlimit⟩
      · exact hassigned.given t htail
    · rw [hsum, sum_codeShare_set hs, weigh_lower _ hlt (by omega), codeShare, if_neg (by omega)]
      ring
    · rw [map_cons, getD_eq_getElem?_getD, hafter, Option.getD_some]
      refine pairwise_cons.mpr ⟨fun later hlater => ?_, hordered⟩
      obtain rfl | htail := mem_cons.mp hlater
      · exact hle
      · exact hle.trans ((pairwise_cons.mp hordered).1 later htail)

/-! ## The whole function -/

/-- Two or more codes that fill the code space are not empty codes. -/
theorem Complete.root_unused (hcomplete : Complete count (size + 1) m) (hm : 2 ≤ m) :
    count 0 = 0 := by
  by_contra hroot
  have hkraft := hcomplete.kraft
  have htotal := hcomplete.total
  rw [weigh, Finset.sum_range_succ'] at hkraft htotal
  have hnonneg : ∀ j ∈ Finset.range size, (0 : ℚ) ≤ count (j + 1) * share (j + 1) := by
    intro j _
    exact mul_nonneg (Nat.cast_nonneg _) (pow_nonneg (by norm_num) _)
  have hpos : (1 : ℚ) ≤ count 0 := by exact_mod_cast Nat.one_le_iff_ne_zero.mpr hroot
  have hsum := Finset.sum_nonneg hnonneg
  rw [show share 0 = 1 from pow_zero _, mul_one] at hkraft
  have hone : (count 0 : ℚ) = 1 := by linarith
  have hrest : ∑ j ∈ Finset.range size, (count (j + 1) : ℚ) * share (j + 1) = 0 := by
    linarith
  rw [Finset.sum_eq_zero_iff_of_nonneg hnonneg] at hrest
  have hempty : ∑ j ∈ Finset.range size, (count (j + 1) : ℚ) * 1 = 0 := by
    refine Finset.sum_eq_zero fun j hj => ?_
    have hshare : share (j + 1) ≠ 0 := pow_ne_zero _ (by norm_num)
    rw [(mul_eq_zero.mp (hrest j hj)).resolve_right hshare, zero_mul]
  rw [hempty, hone, mul_one, zero_add] at htotal
  have hsingle : 1 = m := by exact_mod_cast htotal
  omega

private theorem sum_map_range (f : ℕ → ℚ) (m : ℕ) :
    ((List.range m).map f).sum = ∑ i ∈ Finset.range m, f i := rfl

/-- The leaves of the tree fill the code space. -/
theorem tree_complete {before parent depth : ℕ → ℕ} (hbuilt : Built m m 0 m before parent)
    (hdepth : Depths parent (2 * m - 2) depth) (hsize : ∀ d ∈ (List.range m).map depth, d < size) :
    Complete (tally ((List.range m).map depth)) size m := by
  constructor
  · have hleaves := hbuilt.kraft depth hdepth.step hdepth.root
    rw [openSum, Finset.Ico_self, Finset.sum_empty, add_zero, ← Finset.range_eq_Ico] at hleaves
    rw [weigh_tally share hsize, map_map, sum_map_range, ← hleaves]
    rfl
  · rw [weigh_tally _ hsize, map_map, sum_map_range]
    simp

/-- The lengths of a code for `freq`: a length for every symbol that occurs and
for no other, within the code space. -/
structure CodeFor (freq : List ℕ) (limit : ℕ) (lens : List ℕ) : Prop where
  length : lens.length = freq.length
  used : ∀ s < freq.length, (lens.getD s 0 = 0 ↔ freq.getD s 0 = 0)
  limited : ∀ l ∈ lens, l ≤ limit
  kraft : (lens.map codeShare).sum ≤ 1

variable {freq : List ℕ}

theorem treeLengths_spec {syms : List ℕ} (hlimit : 1 ≤ limit) (hbyte : limit < 256)
    (htwo : 2 ≤ syms.length) (hroom : syms.length ≤ 2 ^ limit) (hnodup : syms.Nodup)
    (hinside : ∀ s ∈ syms, s < freq.length) :
    ∃ lens, treeLengths freq syms limit = .ok lens ∧
      Assigned (List.replicate freq.length 0) lens syms limit ∧
      (lens.map codeShare).sum = 1 ∧ syms.Pairwise fun s t => lens.getD t 0 ≤ lens.getD s 0 := by
  set m := syms.length with hm
  obtain ⟨parent, hmerge, hbuilt⟩ := mergeLoop_leaves htwo
    (show (syms.map fun s => freq.getD s 0).length = m by rw [length_map])
    fun _ => 2 ^ 64 - 1
  have habove : ∀ i < 2 * m - 2, i < parent i ∧ parent i < 2 * m - 2 + 1 := by
    intro i hi
    have hopen : ¬Taken m 0 m i := by
      rw [Taken]
      omega
    have := hbuilt.above i hopen hi
    omega
  obtain ⟨depth, hdepthRun, hdepth⟩ := depthLoop_spec habove le_rfl (fun _ => 0) rfl (by omega)
  rw [show 2 * m - 2 + 1 = 2 * m - 1 by omega] at hdepthRun
  set depths := (List.range m).map depth with hdepths
  set deepest := depths.foldr max 0 with hdeepest
  have hmax : ∀ d ∈ depths, d ≤ deepest := fun d hd => le_max_of_le hd le_rfl
  have hunused : ∀ j, deepest < j → tally depths j = 0 := by
    intro j hj
    rw [tally_eq_count, count_eq_zero]
    exact fun hmem => absurd (hmax j hmem) (by omega)
  have hcomplete : Complete (tally depths) (max deepest limit + 1) m :=
    tree_complete hbuilt hdepth fun d hd => by have := hmax d hd; omega
  obtain ⟨count, hlimitRun, hlimited, hhigh⟩ := limitLoop_spec (deepest - limit)
    hlimit hcomplete (by omega) (fun j hj _ => hunused j (by omega)) hroom
  have hremaining : Remaining count (max deepest limit + 1) limit 1
      syms.reverse.length := by
    refine ⟨by rw [length_reverse]; exact hlimited.total, ?_, hhigh⟩
    intro j hj
    obtain rfl : j = 0 := by omega
    exact hlimited.root_unused htwo
  have hunset : ∀ s ∈ syms.reverse, (List.replicate freq.length 0)[s]? = some 0 := by
    intro s hs
    rw [List.getElem?_replicate_of_lt (hinside s (mem_reverse.mp hs))]
  obtain ⟨lens, hassign, hassigned, hsum, hordered⟩ := assignLoop_spec hbyte le_rfl hremaining
    (nodup_reverse.mpr hnodup) hunset
  refine ⟨lens, ?_, ⟨hassigned.length, ?_, ?_⟩, ?_,
    pairwise_reverse.mp (pairwise_map.mp hordered.of_cons)⟩
  · rw [treeLengths]
    simp only [← hm, hmerge, hdepthRun, ok_bind, ← hdepths, ← hdeepest, hlimitRun, hassign]
  · intro s hs
    exact hassigned.kept s fun hmem => hs (mem_reverse.mp hmem)
  · intro s hs
    exact hassigned.given s (mem_reverse.mpr hs)
  · rw [hsum, hlimited.kraft, map_replicate, sum_replicate]
    simp [codeShare]

theorem mem_usedSymbols {s : ℕ} : s ∈ usedSymbols freq ↔ s < freq.length ∧ freq.getD s 0 ≠ 0 := by
  rw [usedSymbols, mem_filter, mem_range, decide_eq_true_iff, Nat.pos_iff_ne_zero]

theorem nodup_usedSymbols (freq : List ℕ) : (usedSymbols freq).Nodup :=
  nodup_range.filter _

/-- The lengths given to the symbols that occur are a code for them. -/
theorem Assigned.codeFor {lens syms : List ℕ}
    (hassigned : Assigned (List.replicate freq.length 0) lens syms limit)
    (hsyms : ∀ s, s ∈ syms ↔ s ∈ usedSymbols freq) (hkraft : (lens.map codeShare).sum ≤ 1) :
    CodeFor freq limit lens := by
  refine ⟨by rw [hassigned.length, length_replicate], ?_, ?_, hkraft⟩
  · intro s hs
    rw [getD_eq_getElem?_getD]
    by_cases hmem : s ∈ syms
    · obtain ⟨l, hl, hpos, -⟩ := hassigned.given s hmem
      have hfreq := (mem_usedSymbols.mp ((hsyms s).mp hmem)).2
      rw [hl, Option.getD_some]
      exact ⟨fun hzero => absurd hzero (by omega), fun hzero => absurd hzero hfreq⟩
    · have hfreq : freq.getD s 0 = 0 := by
        by_contra hne
        exact hmem ((hsyms s).mpr (mem_usedSymbols.mpr ⟨hs, hne⟩))
      rw [hassigned.kept s hmem, List.getElem?_replicate_of_lt hs, hfreq]
      simp
  · intro l hl
    obtain ⟨s, hs⟩ := mem_iff_getElem?.mp hl
    by_cases hmem : s ∈ syms
    · obtain ⟨given, hgiven, -, hle⟩ := hassigned.given s hmem
      rw [hs, Option.some.injEq] at hgiven
      omega
    · rw [hassigned.kept s hmem, List.getElem?_replicate] at hs
      split at hs
      · cases hs
        exact Nat.zero_le limit
      · cases hs

theorem assigned_none (len : List ℕ) (limit : ℕ) : Assigned len len [] limit :=
  ⟨rfl, fun _ _ => rfl, fun _ hs => absurd hs not_mem_nil⟩

theorem assigned_one {len : List ℕ} {only : ℕ} (honly : only < len.length) (hlimit : 1 ≤ limit) :
    Assigned len (len.set only 1) [only] limit := by
  refine ⟨length_set, ?_, ?_⟩
  · intro s hs
    have hne : only ≠ s := fun heq => hs (mem_singleton.mpr heq.symm)
    rw [List.getElem?_set_ne hne]
  · intro s hs
    obtain rfl := mem_singleton.mp hs
    exact ⟨1, List.getElem?_set_self honly, le_rfl, hlimit⟩

theorem pairwise_rarer (syms : List ℕ) :
    (syms.mergeSort (rarer freq)).Pairwise fun s t => freq.getD s 0 ≤ freq.getD t 0 := by
  refine (pairwise_mergeSort (fun s t u => ?_) (fun s t => ?_) syms).imp fun {s t} hrarer => ?_
  · simp only [rarer, decide_eq_true_iff]
    omega
  · simp only [rarer, Bool.or_eq_true, decide_eq_true_iff]
    omega
  · simp only [rarer, decide_eq_true_iff] at hrarer
    omega

/-- `code_lengths` returns, and what it returns is a code within `limit` bits
for the symbols that occur: a complete one if there are two or more, with no longer code
for a more frequent symbol. -/
theorem codeLengths_spec (hlimit : 1 ≤ limit) (hbyte : limit < 256)
    (hroom : (usedSymbols freq).length ≤ 2 ^ limit) :
    ∃ lens, codeLengths freq limit = .ok lens ∧ CodeFor freq limit lens ∧
      (2 ≤ (usedSymbols freq).length → (lens.map codeShare).sum = 1) ∧
      ∀ s ∈ usedSymbols freq, ∀ t ∈ usedSymbols freq, freq.getD s 0 < freq.getD t 0 →
        lens.getD t 0 ≤ lens.getD s 0 := by
  have hzeros : ((List.replicate freq.length 0).map codeShare).sum = 0 := by
    simp [codeShare]
  rcases hsyms : usedSymbols freq with _ | ⟨only, _ | ⟨second, rest⟩⟩
  · refine ⟨_, by rw [codeLengths, hsyms], (assigned_none _ limit).codeFor ?_ ?_, ?_, ?_⟩
    · simp [hsyms]
    · rw [hzeros]
      exact zero_le_one
    · simp
    · simp
  · have honly : only < (List.replicate freq.length 0).length := by
      rw [length_replicate]
      exact (mem_usedSymbols.mp (hsyms ▸ mem_singleton_self only)).1
    refine ⟨_, by rw [codeLengths, hsyms], (assigned_one honly hlimit).codeFor ?_ ?_, ?_, ?_⟩
    · simp [hsyms]
    · rw [sum_codeShare_set (by rw [List.getElem?_eq_getElem honly]; simp), hzeros]
      norm_num [codeShare, share]
    · simp
    · simp
  · have hperm := mergeSort_perm (usedSymbols freq) (rarer freq)
    have hlength := hperm.length_eq
    have hmany : (usedSymbols freq).length = rest.length + 2 := by rw [hsyms]; rfl
    obtain ⟨lens, hrun, hassigned, hsum, hordered⟩ := treeLengths_spec hlimit hbyte
      (by omega) (by omega) (hperm.nodup_iff.mpr (nodup_usedSymbols freq))
      fun s hs => (mem_usedSymbols.mp (hperm.mem_iff.mp hs)).1
    refine ⟨lens, ?_, hassigned.codeFor (fun s => hperm.mem_iff) hsum.le, fun _ => hsum, ?_⟩
    · rw [hsyms] at hrun
      rw [codeLengths, hsyms]
      exact hrun
    · intro s hs t ht hrarer
      rw [← hsyms] at hs ht
      let fair (s t : ℕ) : Prop :=
        (freq.getD s 0 < freq.getD t 0 → lens.getD t 0 ≤ lens.getD s 0) ∧
          (freq.getD t 0 < freq.getD s 0 → lens.getD s 0 ≤ lens.getD t 0)
      have hsymm : Std.Symm fair := ⟨fun _ _ => And.symm⟩
      have hfair : ((usedSymbols freq).mergeSort (rarer freq)).Pairwise fair :=
        ((pairwise_rarer (usedSymbols freq)).and hordered).imp fun h =>
          ⟨fun _ => h.2, fun hlt => absurd hlt (not_lt.mpr h.1)⟩
      have hne : s ≠ t := fun heq => absurd (heq ▸ hrarer) (lt_irrefl _)
      exact (hfair.forall (hperm.mem_iff.mpr hs) (hperm.mem_iff.mpr ht) hne).1 hrarer

/-- With 12 bits: no frequencies of up to 4096 symbols, however skewed, make the search for a
donor fail. -/
theorem codeLengths_twelve (hroom : (usedSymbols freq).length ≤ 4096) :
    ∃ lens, codeLengths freq 12 = .ok lens ∧ lens.length = freq.length ∧
      (∀ s < freq.length, (lens.getD s 0 = 0 ↔ freq.getD s 0 = 0) ∧ lens.getD s 0 ≤ 12) ∧
      (2 ≤ (usedSymbols freq).length → (lens.map codeShare).sum = 1) ∧
      ∀ s t, freq.getD s 0 ≠ 0 → freq.getD s 0 < freq.getD t 0 →
        lens.getD t 0 ≤ lens.getD s 0 := by
  obtain ⟨lens, hrun, hcode, hkraft, hordered⟩ :=
    codeLengths_spec (by decide : 1 ≤ 12) (by decide) hroom
  refine ⟨lens, hrun, hcode.length, fun s hs => ⟨hcode.used s hs, ?_⟩, hkraft, ?_⟩
  · rw [← hcode.length] at hs
    rw [getD_eq_getElem?_getD, getElem?_eq_getElem hs]
    exact hcode.limited _ (getElem_mem hs)
  · intro s t hs hrarer
    have hused : ∀ u, freq.getD u 0 ≠ 0 → u ∈ usedSymbols freq := by
      intro u hu
      refine mem_usedSymbols.mpr ⟨?_, hu⟩
      by_contra hout
      simp [getElem?_eq_none (not_lt.mp hout)] at hu
    exact hordered s (hused s hs) t (hused t (by omega)) hrarer

theorem codeLengths_twelve_rare : ∃ lens, codeLengths [1, 5, 0, 2] 12 = .ok lens ∧
    (lens.map codeShare).sum = 1 := by
  obtain ⟨lens, hrun, -, -, hkraft, -⟩ := codeLengths_twelve
    (by decide : (usedSymbols [1, 5, 0, 2]).length ≤ 4096)
  exact ⟨lens, hrun, hkraft (by decide)⟩

end Vetro.Huffman
