import Mathlib.Order.Bounds.Basic
import Vetro.User.Memory

/-!
# Holes of an address space

`find_free` of `vetro-cpu/src/mem.rs` looks for a hole from the top down, region by
region.  It stops early at the first gap that is large enough, and at the first
region below which none can be.  Sums wrap, as in a release build.
-/

namespace Vetro.User

open List

namespace UserMemory

/-- The regions below `stop`, the highest first; sums are of 64 bits. -/
def findFreeLoop (len bottom : ℕ) : ℕ → List (ℕ × Region) → Option ℕ
  | stop, [] => if min (bottom + len) maxAddr ≤ stop then some (stop - len) else none
  | stop, (b, r) :: rest =>
    let start := max ((b + r.len) % 2 ^ 64) bottom
    if start ≤ stop ∧ len ≤ stop - start then some (stop - len)
    else
      let stop := min stop b
      if stop < min (bottom + len) maxAddr then none else findFreeLoop len bottom stop rest

/-- Searches from top to bottom for a hole of `len` bytes within `[bottom, top)`. -/
def findFree (m : UserMemory) (len bottom top : ℕ) : Option ℕ :=
  findFreeLoop len bottom top (m.regions.filter fun x => x.1 < top).reverse

/-- The starts of the holes of `len` bytes within `[bottom, top)`. -/
def holes (m : UserMemory) (len bottom top : ℕ) : Set ℕ :=
  {a | bottom ≤ a ∧ a + len ≤ top ∧ Intervals.Free Region.len m.regions a (a + len)}

end UserMemory

/-- The highest element of a set, if it has any. -/
def Highest (set : Set ℕ) : Option ℕ → Prop
  | some a => IsGreatest set a
  | none => set = ∅

namespace UserMemory

variable {m : UserMemory} {len bottom top stop : ℕ}

/-- Where the search is: the regions that are left are those below `stop`, and every hole is. -/
structure Searching (m : UserMemory) (len bottom top stop : ℕ) (items : List (ℕ × Region)) :
    Prop where
  le_top : stop ≤ top
  sorted : items.Pairwise fun x y => y.1 + y.2.len ≤ x.1
  mem : ∀ x ∈ items, x ∈ m.regions
  rest : ∀ x ∈ m.regions, x ∈ items ∨ stop ≤ x.1
  below : ∀ a ∈ m.holes len bottom top, a + len ≤ stop

/-- The search begins with the regions below `top`. -/
theorem searching_top (hdisjoint : Intervals.Disjoint Region.len m.regions) :
    Searching m len bottom top top (m.regions.filter fun x => x.1 < top).reverse where
  le_top := Nat.le_refl top
  sorted := pairwise_reverse.mpr (hdisjoint.sorted.filter _)
  mem := by
    intro x hx
    exact (mem_filter.mp (mem_reverse.mp hx)).1
  rest := by
    intro x hx
    by_cases hlt : x.1 < top
    · exact .inl (mem_reverse.mpr (mem_filter.mpr ⟨hx, by simpa using hlt⟩))
    · exact .inr (Nat.le_of_not_lt hlt)
  below := fun a ha => ha.2.1

variable {items : List (ℕ × Region)}

/-- A gap below `stop` that no region that is left touches is the highest hole. -/
theorem Searching.highest (hsearch : Searching m len bottom top stop items) (hlen : len ≤ stop)
    (hbottom : bottom ≤ stop - len) (hgap : ∀ x ∈ items, x.1 + x.2.len ≤ stop - len) :
    Highest (m.holes len bottom top) (some (stop - len)) := by
  refine ⟨⟨hbottom, ?_, ?_⟩, ?_⟩
  · rw [Nat.sub_add_cancel hlen]
    exact hsearch.le_top
  · intro x hx
    rw [Nat.sub_add_cancel hlen]
    exact (hsearch.rest x hx).imp (hgap x) id
  · intro a ha
    exact Nat.le_sub_of_add_le (hsearch.below a ha)

/-- The next region does not leave enough room above it. -/
theorem Searching.next {b : ℕ} {r : Region}
    (hsearch : Searching m len bottom top stop ((b, r) :: items)) (hlen : 0 < len)
    (hsmall : ¬(max (b + r.len) bottom ≤ stop ∧ len ≤ stop - max (b + r.len) bottom)) :
    Searching m len bottom top (min stop b) items where
  le_top := (Nat.min_le_left _ _).trans hsearch.le_top
  sorted := (pairwise_cons.mp hsearch.sorted).2
  mem := fun x hx => hsearch.mem x (mem_cons_of_mem _ hx)
  rest := by
    intro x hx
    rcases hsearch.rest x hx with hitem | hle
    · rcases mem_cons.mp hitem with rfl | hlater
      · exact .inr (Nat.min_le_right _ _)
      · exact .inl hlater
    · exact .inr ((Nat.min_le_left _ _).trans hle)
  below := by
    intro a ha
    have hstop := hsearch.below a ha
    have hbottom : bottom ≤ a := ha.1
    have hbelow : a + len ≤ b := by
      rcases ha.2.2 (b, r) (hsearch.mem _ mem_cons_self) with habove | hbelow
      · have hroom : max (b + r.len) bottom ≤ a := Nat.max_le.mpr ⟨habove, hbottom⟩
        exact absurd ⟨by omega, by omega⟩ hsmall
      · exact hbelow
    exact Nat.le_min.mpr ⟨hstop, hbelow⟩

/-- Too little is left above `bottom`. -/
theorem Searching.empty (hsearch : Searching m len bottom top stop items)
    (hlow : stop < min (bottom + len) maxAddr) : m.holes len bottom top = ∅ := by
  refine Set.eq_empty_of_forall_notMem fun a ha => ?_
  have hstop := hsearch.below a ha
  have hbottom : bottom ≤ a := ha.1
  omega

theorem findFreeLoop_highest (hlen : 0 < len)
    (hwrap : bottom + len ≤ maxAddr ∨ top < maxAddr)
    (hfits : ∀ x ∈ m.regions, x.1 + x.2.len ≤ maxAddr)
    (hsearch : Searching m len bottom top stop items) :
    Highest (m.holes len bottom top) (findFreeLoop len bottom stop items) := by
  have hmax : maxAddr < 2 ^ 64 := by decide
  induction items generalizing stop with
  | nil =>
    rw [findFreeLoop]
    split_ifs with hroom
    · have hle := hsearch.le_top
      have hsum : bottom + len ≤ stop := by omega
      exact hsearch.highest (by omega) (by omega) (by rintro _ ⟨⟩)
    · exact hsearch.empty (Nat.lt_of_not_le hroom)
  | cons x items ih =>
    obtain ⟨b, r⟩ := x
    have hend : (b + r.len) % 2 ^ 64 = b + r.len :=
      Nat.mod_eq_of_lt (Nat.lt_of_le_of_lt (hfits _ (hsearch.mem _ mem_cons_self)) hmax)
    rw [findFreeLoop, hend]
    dsimp only
    split_ifs with hroom hlow
    · refine hsearch.highest (by omega) (by omega) fun x hx => ?_
      rcases mem_cons.mp hx with rfl | hlater
      · dsimp only
        omega
      · have hbefore := (pairwise_cons.mp hsearch.sorted).1 x hlater
        omega
    · exact (hsearch.next hlen hroom).empty hlow
    · exact ih (hsearch.next hlen hroom)

/-- A search finds the highest hole, and nothing only if there is none. -/
theorem findFree_isGreatest (m : UserMemory) {len bottom top : ℕ}
    (hdisjoint : Intervals.Disjoint Region.len m.regions)
    (hfits : ∀ x ∈ m.regions, x.1 + x.2.len ≤ maxAddr) (hlen : 0 < len)
    (hwrap : bottom + len ≤ maxAddr ∨ top < maxAddr) :
    ((m.findFree len bottom top).isSome ↔ (m.holes len bottom top).Nonempty) ∧
      ∀ a, m.findFree len bottom top = some a → IsGreatest (m.holes len bottom top) a := by
  have hhighest := findFreeLoop_highest hlen hwrap hfits (searching_top hdisjoint)
  rw [← findFree] at hhighest
  cases hfind : m.findFree len bottom top with
  | none =>
    rw [hfind] at hhighest
    have hempty : m.holes len bottom top = ∅ := hhighest
    simp [hempty]
  | some a =>
    rw [hfind] at hhighest
    have hgreatest : IsGreatest (m.holes len bottom top) a := hhighest
    refine ⟨⟨fun _ => ⟨a, hgreatest.1⟩, fun _ => rfl⟩, fun other hother => ?_⟩
    rw [← Option.some.inj hother]
    exact hgreatest

/-- One page is mapped in the middle of four. -/
def onePage : UserMemory := ⟨[(0x2000, .zeroed 0x1000 ⟨true, true, false⟩)], ⟨[], []⟩⟩

theorem findFree_onePage :
    onePage.findFree 0x1000 0x1000 0x3800 = some 0x1000 ∧
      IsGreatest (onePage.holes 0x1000 0x1000 0x3800) 0x1000 := by
  have hfind : onePage.findFree 0x1000 0x1000 0x3800 = some 0x1000 := by decide
  refine ⟨hfind, (findFree_isGreatest onePage ⟨?_, ?_⟩ ?_ ?_ ?_).2 _ hfind⟩
  · exact pairwise_singleton _ _
  · decide
  · decide
  · decide
  · exact .inl (by decide)

/-- Where `bottom + len` wraps and `top` is the last address, the answer is below `bottom`. -/
example : new.findFree 10 (maxAddr - 4) maxAddr = some (maxAddr - 10) := by decide

end UserMemory

end Vetro.User
