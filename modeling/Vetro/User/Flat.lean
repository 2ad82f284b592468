import Vetro.User.Memory

/-!
# Memory without regions

An address has a cell, private or shared, with its permissions, or nothing.  The
address space of the source shows such a map; mapping, moving, extending and
removing regions are simple changes of it.
-/

namespace Vetro.User

open Bytes Mask Splice Option Intervals Region

/-- Cells with permissions, and the shared buffers. -/
structure Flat where
  map : ℕ → Option (Cell × Perm)
  buffers : Buffers

namespace Flat

/-- New cells in `[start, start + len)`. -/
def place (f : Flat) (start len : ℕ) (cell : ℕ → Cell) (perm : Perm) : Flat :=
  { f with map := fun a =>
      if start ≤ a ∧ a < start + len then some (cell (a - start), perm) else f.map a }

/-- Nothing is left in `[start, stop)`. -/
def clear (f : Flat) (start stop : ℕ) : Flat :=
  { f with map := fun a => if start ≤ a ∧ a < stop then none else f.map a }

/-- The cells of `[old, old + len)` go to `dst`. -/
def move (f : Flat) (old len dst : ℕ) : Flat :=
  { f with map := fun a =>
      if dst ≤ a ∧ a < dst + len then f.map (a - dst + old)
      else if old ≤ a ∧ a < old + len then none else f.map a }

/-- What stays of a cell that is moved without unmapping. -/
def leftBehind : Cell → Cell
  | .own _ => .own 0
  | .shared buffer index => .shared buffer index

/-- The cells of `[old, old + len)` go to `dst`; zeros stay, and what is shared stays. -/
def moveCopy (f : Flat) (old len dst : ℕ) : Flat :=
  { f with map := fun a =>
      if dst ≤ a ∧ a < dst + len then f.map (a - dst + old)
      else if old ≤ a ∧ a < old + len then (f.map a).map fun x => (leftBehind x.1, x.2)
      else f.map a }

/-- The cell some places after another. -/
def onward (k : ℕ) : Cell → Cell
  | .own _ => .own 0
  | .shared buffer index => .shared buffer (index + k)

/-- What is before `stop` goes on for `extra` bytes. -/
def extend (f : Flat) (stop extra : ℕ) : Flat :=
  match f.map (stop - 1) with
  | some (cell, perm) => f.place stop extra (fun k => onward (k + 1) cell) perm
  | none => f

theorem place_zero (f : Flat) (start : ℕ) (cell : ℕ → Cell) (perm : Perm) :
    f.place start 0 cell perm = f := by
  have hnone : ∀ a, ¬(start ≤ a ∧ a < start + 0) := by
    intro a
    omega
  simp only [place, if_neg (hnone _)]

def protect (f : Flat) (start stop : ℕ) (perm : Perm) : Flat :=
  { f with map := fun a =>
      if start ≤ a ∧ a < stop then (f.map a).map fun x => (x.1, perm) else f.map a }

/-- The byte may be accessed. -/
def ByteOk (f : Flat) (a : Access) (addr : ℕ) : Prop :=
  ∃ cell perm, f.map addr = some (cell, perm) ∧ perm.allows a = true ∧
    cell.pastEnd f.buffers = false

/-- Every byte of the access is mapped with the permission and is not beyond the end of its
buffer. -/
def Allowed (f : Flat) (a : Access) (addr : Word) (len : ℕ) : Prop :=
  ∀ k < len, f.ByteOk a (addr + BitVec.ofNat 64 k).toNat

def get (f : Flat) (addr : ℕ) : Byte :=
  match f.map addr with
  | some (cell, _) => cell.value f.buffers
  | none => 0

def read (f : Flat) (addr : Word) (len : ℕ) : List Byte :=
  (List.range len).map fun k => f.get (addr + BitVec.ofNat 64 k).toNat

/-- A shared buffer grows up to the byte. -/
def set (f : Flat) (addr : ℕ) (byte : Byte) : Flat :=
  match f.map addr with
  | some (.own _, perm) => { f with map := Function.update f.map addr (some (.own byte, perm)) }
  | some (.shared buffer index, _) =>
    { f with buffers :=
        Function.update f.buffers buffer (writeGrow 0 (f.buffers buffer) index [byte]) }
  | none => f

def write (f : Flat) (addr : Word) : List Byte → Flat
  | [] => f
  | byte :: data => (f.set addr.toNat byte).write (addr + 1) data

end Flat

namespace UserMemory

/-- The map that the regions show. -/
def flat (m : UserMemory) (buffers : Buffers) : Flat :=
  ⟨view len shown m.regions, buffers⟩

/-- The regions are disjoint and end before the end of the address space. -/
structure Good (m : UserMemory) : Prop where
  disjoint : Disjoint len m.regions
  bounded : ∀ x ∈ m.regions, x.1 + x.2.len < 2 ^ 64

variable {m : UserMemory} {buffers : Buffers}

theorem flat_eq (m m' : UserMemory) (hview : ∀ a, view len shown m.regions a =
      view len shown m'.regions a) (buffers : Buffers) :
    m.flat buffers = m'.flat buffers := by
  rw [flat, flat, funext hview]

/-! ## Removing -/

theorem Good.new : Good new := ⟨Disjoint.nil, by decide⟩

section

variable (hm : Good m)
include hm

variable (start stop : ℕ)

theorem Good.touch : Good (m.touch start stop) :=
  ⟨hm.disjoint, hm.bounded⟩

theorem bounded_splitAt (position : ℕ) :
    ∀ x ∈ (m.splitAt position).regions, x.1 + x.2.len < 2 ^ 64 := by
  intro y hy
  rcases splitAt_cases hm.disjoint splitOff position with
    ⟨heq, -⟩ | ⟨x, hx, hlow, hhigh, heq⟩
  · rw [splitAt, heq] at hy
    exact hm.bounded y hy
  · have hhead := splits.head_length x.2 (k := position - x.1) (by omega)
    have htail := splits.tail_length x.2 (k := position - x.1) (by omega)
    have hend := hm.bounded x hx
    rw [splitAt, heq] at hy
    rcases (mem_split hm.disjoint hx hlow hhigh).mp hy with rfl | rfl | ⟨hmem, -⟩
    · dsimp only
      omega
    · dsimp only
      omega
    · exact hm.bounded y hmem

theorem Good.splitAt (position : ℕ) : Good (m.splitAt position) :=
  ⟨disjoint_splitAt hm.disjoint splits position, bounded_splitAt hm position⟩

omit hm in
theorem flat_splitAt (buffers : Buffers) (hm : Good m) (position : ℕ) :
    (m.splitAt position).flat buffers = m.flat buffers :=
  flat_eq _ m (view_splitAt hm.disjoint splits position) buffers

/-- Split at both ends of a range. -/
theorem boundary_splitAt_splitAt :
    Boundary len ((m.splitAt start).splitAt stop).regions start ∧
      Boundary len ((m.splitAt start).splitAt stop).regions stop := by
  obtain ⟨-, hstart, hstop, -⟩ := splitAt_splitAt hm.disjoint splits start stop
  exact ⟨hstart, hstop⟩

theorem Good.unmap : Good (m.unmap start stop) := by
  rw [UserMemory.unmap]
  split_ifs
  · exact hm
  · have hsplit := ((hm.touch start stop).splitAt start).splitAt stop
    exact ⟨hsplit.disjoint.filter _, fun x hx => hsplit.bounded x (List.mem_of_mem_filter hx)⟩

theorem flat_unmap : (m.unmap start stop).flat buffers = (m.flat buffers).clear start stop := by
  rw [UserMemory.unmap]
  split_ifs with hempty
  · have hnone : ∀ a, ¬(start ≤ a ∧ a < stop) := by
      intro a
      omega
    simp [Flat.clear, hnone]
  · rw [flat, Flat.clear]
    congr 1
    funext a
    exact view_carve hm.disjoint splits start stop a

/-- Nothing is left in the range. -/
theorem free_unmap {start stop : ℕ} (hlt : start < stop) :
    Free len (m.unmap start stop).regions start stop := by
  rw [UserMemory.unmap, if_neg (by omega)]
  exact free_carve hm.disjoint splits start stop

/-! ## Mapping -/

variable {base : ℕ} {r : Region}

theorem Good.insert (hpos : 0 < r.len) (hend : base + r.len < 2 ^ 64)
    (hfree : Free len m.regions base (base + r.len)) : Good (m.insert base r) := by
  refine ⟨hm.disjoint.insert hpos fun x hx => .inr (hfree x hx), fun x hx => ?_⟩
  rcases mem_insert.mp hx with rfl | ⟨hmem, -⟩
  · exact hend
  · exact hm.bounded x hmem

theorem flat_insert (hpos : 0 < r.len) (hfree : Free len m.regions base (base + r.len)) :
    (m.insert base r).flat buffers = (m.flat buffers).place base r.len r.cell r.perm := by
  rw [flat, Flat.place]
  congr 1
  funext a
  exact view_insert hm.disjoint hpos hfree a

omit hm in
/-- A region in place of what was there. -/
theorem insert_unmap (buffers : Buffers) (hm : Good m) (hpos : 0 < r.len)
    (hend : base + r.len < 2 ^ 64) :
    Good ((m.unmap base (base + r.len)).insert base r) ∧
      ((m.unmap base (base + r.len)).insert base r).flat buffers =
        (m.flat buffers).place base r.len r.cell r.perm := by
  have hfree := free_unmap hm (Nat.lt_add_of_pos_right (n := base) hpos)
  have hunmap := hm.unmap base (base + r.len)
  refine ⟨hunmap.insert hpos hend hfree, ?_⟩
  rw [flat_insert hunmap hpos hfree, flat_unmap hm, Flat.place, Flat.place, Flat.clear]
  congr 1
  funext a
  dsimp only
  split_ifs <;> rfl

/-- The check for what is there. -/
theorem overlaps_iff {start stop : ℕ} :
    m.overlaps start stop = false ↔ Free len m.regions start stop := by
  rw [overlaps]
  cases hbefore : before m.regions stop with
  | none =>
    simp only [true_iff]
    exact fun x hx => .inr (before_eq_none hbefore x hx)
  | some y =>
    obtain ⟨hy, hylt, hothers⟩ := before_eq_some hm.disjoint hbefore
    rw [decide_eq_false_iff_not, Nat.not_lt]
    constructor
    · intro hend x hx
      rcases Nat.lt_or_ge x.1 stop with hbelow | habove
      · have hpos := hm.disjoint.pos y hy
        rcases hothers x hx hbelow with rfl | hle
        · exact .inl hend
        · exact .inl (by omega)
      · exact .inr habove
    · intro hfree
      rcases hfree y hy with hle | hle
      · exact hle
      · omega

end

section

variable (buffers : Buffers)

theorem free_iff (hm : Good m) {start stop : ℕ} (hlt : start < stop) :
    Free len m.regions start stop ↔
      ∀ a, start ≤ a → a < stop → (m.flat buffers).map a = none := by
  constructor
  · intro hfree a hlow hhigh
    refine (view_eq_none hm.disjoint).mpr fun x hx hcovers => ?_
    have hleft := hcovers.1
    have hright := hcovers.2
    rcases hfree x hx with h | h <;> omega
  · exact free_of_view hm.disjoint hlt

/-! ## Moving -/

theorem regions_foldl_insert (items : Regions) (m : UserMemory) :
    (items.foldl (fun m x => m.insert x.1 x.2) m).regions =
      items.foldl (fun t x => Intervals.insert x.1 x.2 t) m.regions := by
  induction items generalizing m with
  | nil => rfl
  | cons x items ih => exact ih (m.insert x.1 x.2)

/-- Regions that are put in where there is room for them. -/
theorem foldl_insert (hm : Good m) {items : Regions} (hitems : Intervals.Disjoint len items)
    (hend : ∀ x ∈ items, x.1 + x.2.len < 2 ^ 64)
    (hfree : ∀ x ∈ items, Free len m.regions x.1 (x.1 + x.2.len)) :
    Good (items.foldl (fun m x => m.insert x.1 x.2) m) ∧
      ∀ a, ((items.foldl (fun m x => m.insert x.1 x.2) m).flat buffers).map a =
        (view len shown items a).or ((m.flat buffers).map a) := by
  obtain ⟨hdisjoint, hmem⟩ := Intervals.foldl_insert hm.disjoint hitems hfree
  refine ⟨⟨?_, ?_⟩, fun a => ?_⟩
  · rw [regions_foldl_insert]
    exact hdisjoint
  · rw [regions_foldl_insert]
    intro x hx
    rcases (hmem x).mp hx with hx | hx
    · exact hm.bounded x hx
    · exact hend x hx
  · rw [flat, regions_foldl_insert]
    exact view_foldl_insert hm.disjoint hitems hfree a

/-- The regions of a range between two boundaries, and what they show. -/
theorem within_splitAt (hm : Good m) (old len : ℕ) :
    let regions := ((m.splitAt old).splitAt (old + len)).regions
    Disjoint Region.len (within regions old (old + len)) ∧
      (∀ x ∈ within regions old (old + len), old ≤ x.1 ∧ x.1 + x.2.len ≤ old + len) ∧
      ∀ a, view Region.len Region.shown (within regions old (old + len)) a =
        if old ≤ a ∧ a < old + len then (m.flat buffers).map a else none := by
  intro regions
  obtain ⟨hstart, hstop⟩ := boundary_splitAt_splitAt hm old (old + len)
  have hsplit := (hm.splitAt old).splitAt (old + len)
  refine ⟨hsplit.disjoint.filter _, fun x hx => ?_, fun a => ?_⟩
  · obtain ⟨hmem, hlow, hhigh⟩ := mem_within.mp hx
    have hbound : x.1 + x.2.len ≤ old + len ∨ old + len ≤ x.1 := hstop x hmem
    exact ⟨hlow, by omega⟩
  · rw [view_within hsplit.disjoint hstart hstop, ← flat_splitAt buffers hm old,
      ← flat_splitAt buffers (hm.splitAt old) (old + len)]
    rfl

/-- What starts in a range between two boundaries goes away. -/
theorem without_splitAt (hm : Good m) (old len : ℕ) :
    let split := (m.splitAt old).splitAt (old + len)
    Good { split with regions := Intervals.without split.regions old (old + len) } ∧
      UserMemory.flat { split with regions := Intervals.without split.regions old (old + len) }
        buffers = (m.flat buffers).clear old (old + len) := by
  intro split
  have hsplit : Good split := (hm.splitAt old).splitAt (old + len)
  obtain ⟨hstart, hstop⟩ := boundary_splitAt_splitAt hm old (old + len)
  refine ⟨⟨hsplit.disjoint.filter _, fun x hx => hsplit.bounded x (List.mem_of_mem_filter hx)⟩, ?_⟩
  have hflat : split.flat buffers = m.flat buffers := by
    rw [flat_splitAt _ (hm.splitAt old), flat_splitAt _ hm]
  rw [← hflat, flat, Flat.clear]
  congr 1
  funext a
  exact view_without hsplit.disjoint hstart hstop a

theorem remap_spec (hm : Good m) (old : ℕ) {len dst : ℕ} (hdst : dst + len < 2 ^ 64) :
    Good (m.remap old len dst) ∧
      (m.remap old len dst).flat buffers = (m.flat buffers).move old len dst := by
  have htouched := (hm.touch old (min (old + len) maxAddr)).touch dst (min (dst + len) maxAddr)
  obtain ⟨hdisjoint, hrange, hview⟩ := within_splitAt buffers htouched old len
  obtain ⟨hrest, hflat⟩ := without_splitAt buffers htouched old len
  rw [remap, List.foldl_map]
  generalize within _ old (old + len) = range at *
  generalize UserMemory.mk _ _ = rest at *
  have hfold : range.foldl (fun m x => m.insert (dst + (x.1 - old)) x.2)
      (rest.unmap dst (dst + len)) =
        (range.map fun x => (dst + (x.1 - old), x.2)).foldl (fun m x => m.insert x.1 x.2)
          (rest.unmap dst (dst + len)) := by
    rw [List.foldl_map]
  have hitems : ∀ y ∈ range.map fun x => (dst + (x.1 - old), x.2), dst ≤ y.1 ∧
      y.1 + y.2.len ≤ dst + len ∧ 0 < y.2.len := by
    intro y hy
    obtain ⟨x, hx, rfl⟩ := List.mem_map.mp hy
    obtain ⟨hlow, hhigh⟩ := hrange x hx
    have hpos : 0 < x.2.len := hdisjoint.pos x hx
    dsimp only
    omega
  obtain ⟨hgood, hmap⟩ := foldl_insert buffers (hrest.unmap dst (dst + len))
    (disjoint_shift dst hdisjoint fun x hx => (hrange x hx).1)
    (fun y hy => by
      have := hitems y hy
      omega)
    (fun y hy x hx => by
      have hy' := hitems y hy
      rcases free_unmap hrest (by omega : dst < dst + len) x hx with h | h
      · exact .inl (by omega)
      · exact .inr (by omega))
  rw [hfold]
  refine ⟨hgood, ?_⟩
  refine congrArg (Flat.mk · buffers) (funext fun a => (hmap a).trans ?_)
  rw [view_shift hdisjoint fun x hx => (hrange x hx).1, hview, flat_unmap hrest, hflat,
    Flat.clear, Flat.clear]
  dsimp only
  by_cases hin : dst ≤ a ∧ a < dst + len
  · rw [if_pos hin.1, if_pos (show old ≤ a - dst + old ∧ a - dst + old < old + len by omega),
      if_pos hin, if_pos hin, or_none]
    rfl
  · rw [if_neg hin, if_neg hin]
    by_cases hlow : dst ≤ a
    · rw [if_pos hlow, if_neg (show ¬(old ≤ a - dst + old ∧ a - dst + old < old + len) by omega),
        none_or]
      rfl
    · rw [if_neg hlow, none_or]
      rfl

theorem shown_leftBehind (r : Region) (off : ℕ) :
    (leftBehind r).shown off = (Flat.leftBehind (r.cell off), r.perm) := by
  obtain ⟨⟨pages, base⟩ | ⟨buffer, base⟩, rlen, perm⟩ := r <;> rfl

/-- The ranges of a move that leaves the old one mapped do not overlap. -/
theorem remapDontunmap_spec (hm : Good m) {old len dst : ℕ} (hold : old + len < 2 ^ 64)
    (hdst : dst + len < 2 ^ 64) (hapart : old + len ≤ dst ∨ dst + len ≤ old) :
    Good (m.remapDontunmap old len dst) ∧
      (m.remapDontunmap old len dst).flat buffers = (m.flat buffers).moveCopy old len dst := by
  obtain ⟨hdisjoint, hrange, hview⟩ := within_splitAt buffers hm old len
  have hsplit := (hm.splitAt old).splitAt (old + len)
  have hflat : ((m.splitAt old).splitAt (old + len)).flat buffers = m.flat buffers := by
    rw [flat_splitAt _ (hm.splitAt old), flat_splitAt _ hm]
  obtain ⟨hmoved, hmap⟩ := remap_spec buffers hsplit old hdst
  rw [remapDontunmap]
  generalize within _ old (old + len) = range at *
  generalize ((m.splitAt old).splitAt (old + len)).remap old len dst = moved at *
  have hlength : ∀ x ∈ range, (leftBehind x.2).len = x.2.len := fun _ _ => rfl
  have hitems : ∀ y ∈ range.map fun x => (x.1, leftBehind x.2), old ≤ y.1 ∧
      y.1 + y.2.len ≤ old + len ∧ 0 < y.2.len := by
    intro y hy
    obtain ⟨x, hx, rfl⟩ := List.mem_map.mp hy
    obtain ⟨hlow, hhigh⟩ := hrange x hx
    have hpos : 0 < x.2.len := hdisjoint.pos x hx
    exact ⟨hlow, hhigh, hpos⟩
  have hempty : ∀ a, old ≤ a → a < old + len → (moved.flat buffers).map a = none := by
    intro a hlow hhigh
    rw [hmap, Flat.move]
    dsimp only
    rw [if_neg (by omega), if_pos ⟨hlow, hhigh⟩]
  obtain ⟨hgood, hall⟩ := foldl_insert buffers hmoved
    (disjoint_map hdisjoint hlength)
    (fun y hy => by
      have := hitems y hy
      omega)
    (fun y hy x hx => by
      have hy' := hitems y hy
      rcases (free_iff buffers hmoved (by omega : old < old + len)).mpr hempty x hx with h | h
      · exact .inl (by omega)
      · exact .inr (by omega))
  refine ⟨hgood, ?_⟩
  refine congrArg (Flat.mk · buffers) (funext fun a => (hall a).trans ?_)
  have hleft : ((Intervals.find Region.len range a).map fun x =>
      (leftBehind x.2).shown (a - x.1)) =
        (view Region.len Region.shown range a).map fun x => (Flat.leftBehind x.1, x.2) := by
    rw [view, map_map]
    exact congrArg (Option.map · _) (funext fun x => shown_leftBehind x.2 (a - x.1))
  rw [view_map hdisjoint hlength, hleft, hview, hmap, hflat, Flat.move]
  dsimp only
  by_cases hin : old ≤ a ∧ a < old + len
  · rw [if_pos hin, if_neg (by omega), if_pos hin, if_neg (by omega), if_pos hin, or_none]
  · rw [if_neg hin, if_neg hin, if_neg hin]
    rfl

/-! ## Extending -/

/-- A region ends there. -/
def EndsAt (m : UserMemory) (stop : ℕ) : Prop := ∃ x ∈ m.regions, x.1 + x.2.len = stop

instance (m : UserMemory) (stop : ℕ) : Decidable (m.EndsAt stop) := by
  unfold EndsAt
  infer_instance

theorem cell_onward {r : Region} (hpos : 0 < r.len) (extra k : ℕ) :
    (onwardRegion r extra).cell k = Flat.onward (k + 1) (r.cell (r.len - 1)) := by
  obtain ⟨⟨pages, base⟩ | ⟨buffer, base⟩, rlen, perm⟩ := r
  · rfl
  · refine congrArg (Cell.shared buffer) ?_
    omega

theorem extend_spec (hm : Good m) {stop extra : ℕ} (hend : stop + extra < 2 ^ 64) :
    Good (m.extend stop extra) ∧
      (m.extend stop extra).flat buffers =
        if m.EndsAt stop then (m.flat buffers).extend stop extra else m.flat buffers := by
  rw [extend]
  cases hbefore : before m.regions stop with
  | none =>
    have hnot : ¬m.EndsAt stop := by
      rintro ⟨x, hx, hends⟩
      have hpos : 0 < x.2.len := hm.disjoint.pos x hx
      have hle := before_eq_none hbefore x hx
      omega
    rw [if_neg hnot]
    exact ⟨hm, rfl⟩
  | some y =>
    obtain ⟨hy, hlt, hothers⟩ := before_eq_some hm.disjoint hbefore
    have hpos : 0 < y.2.len := hm.disjoint.pos y hy
    have hiff : m.EndsAt stop ↔ y.1 + y.2.len = stop := by
      constructor
      · rintro ⟨x, hx, hends⟩
        have hxpos : 0 < x.2.len := hm.disjoint.pos x hx
        rcases hothers x hx (by omega) with rfl | hle
        · exact hends
        · have hle' : x.1 + x.2.len ≤ y.1 := hle
          omega
      · exact fun hends => ⟨y, hy, hends⟩
    dsimp only
    by_cases hends : y.1 + y.2.len = stop
    · have hlast : (m.flat buffers).map (stop - 1) = some (y.2.shown (y.2.len - 1)) := by
        rw [show y.2.len - 1 = stop - 1 - y.1 by omega]
        exact view_of_covers hm.disjoint hy ⟨by omega, by omega⟩
      rw [if_pos (hiff.mpr hends), Flat.extend, hlast]
      by_cases hextra : extra = 0
      · rw [if_pos (by simp [hextra]), hextra]
        exact ⟨hm, (Flat.place_zero _ _ _ _).symm⟩
      · rw [if_neg (by simp [hends, hextra])]
        obtain ⟨hgood, hflat⟩ := insert_unmap buffers (r := onwardRegion y.2 extra) hm
          (Nat.pos_of_ne_zero hextra) hend
        refine ⟨hgood, hflat.trans ?_⟩
        rw [funext (cell_onward hpos extra)]
        rfl
    · rw [if_pos (by simp [hends]), if_neg (mt hiff.mp hends)]
      exact ⟨hm, rfl⟩

end

/-! ## Permissions -/

theorem isMapped_iff (hm : Good m) (start stop : ℕ) :
    m.isMapped start stop = true ↔ ∀ a, start ≤ a → a < stop → ((m.flat buffers).map a).isSome := by
  fun_induction UserMemory.isMapped m start stop with
  | case1 start hlt b r hfind ih =>
    obtain ⟨hmem, hcovers⟩ := (find_eq_some hm.disjoint).mp hfind
    have hleft := hcovers.1
    have hright := hcovers.2
    dsimp only at hleft hright
    rw [ih]
    constructor
    · intro hrest a hlow hhigh
      rcases Nat.lt_or_ge a (b + r.len) with hin | hout
      · rw [flat]
        dsimp only
        rw [view_of_covers hm.disjoint hmem ⟨by omega, hin⟩]
        rfl
      · exact hrest a hout hhigh
    · exact fun hall a hlow hhigh => hall a (by omega) hhigh
  | case2 start hlt hfind =>
    have hnone : (m.flat buffers).map start = none :=
      (view_eq_none hm.disjoint).mpr ((find_eq_none hm.disjoint).mp hfind)
    simp only [Bool.false_eq_true, false_iff]
    intro hall
    have hsome := hall start (le_refl _) hlt
    rw [hnone] at hsome
    cases hsome
  | case3 start hge => simp only [true_iff]; intro a; omega

theorem protect_of_not_mapped (hm : Good m) {start stop : ℕ} (perm : Perm)
    (hhole : ¬∀ a, start ≤ a → a < stop → ((m.flat buffers).map a).isSome) :
    m.protect start stop perm = (.error ⟨start, .read⟩, m) := by
  rw [protect, if_neg (mt (isMapped_iff hm start stop).mp hhole)]

theorem protect_of_mapped (hm : Good m) {start stop : ℕ} (perm : Perm)
    (hall : ∀ a, start ≤ a → a < stop → ((m.flat buffers).map a).isSome) :
    (m.protect start stop perm).1 = .ok () ∧ Good (m.protect start stop perm).2 ∧
      (m.protect start stop perm).2.flat buffers = (m.flat buffers).protect start stop perm := by
  have hsplit := ((hm.touch start stop).splitAt start).splitAt stop
  have hflat : (((m.touch start stop).splitAt start).splitAt stop).flat buffers =
      m.flat buffers := by
    rw [flat_splitAt _ ((hm.touch start stop).splitAt start), flat_splitAt _ (hm.touch start stop)]
    rfl
  obtain ⟨hstart, hstop⟩ := boundary_splitAt_splitAt (hm.touch start stop) start stop
  rw [protect, if_pos ((isMapped_iff hm start stop).mpr hall)]
  generalize ((m.touch start stop).splitAt start).splitAt stop = split at *
  have hlength : ∀ x ∈ split.regions,
      (if start ≤ x.1 && x.1 < stop then { x.2 with perm } else x.2 : Region).len = x.2.len := by
    intro x _
    split <;> rfl
  refine ⟨rfl, ⟨disjoint_map hsplit.disjoint hlength, fun y hy => ?_⟩, ?_⟩
  · obtain ⟨x, hx, rfl⟩ := List.mem_map.mp hy
    rw [hlength x hx]
    exact hsplit.bounded x hx
  · rw [← hflat, flat, Flat.protect]
    congr 1
    funext a
    rw [view_map hsplit.disjoint hlength]
    dsimp only [flat]
    rw [view]
    cases hfind : Intervals.find len split.regions a with
    | none => simp
    | some x =>
      obtain ⟨hx, hcovers⟩ := (find_eq_some hsplit.disjoint).mp hfind
      have hleft := hcovers.1
      have hright := hcovers.2
      have hxstart := hstart x hx
      have hxstop := hstop x hx
      split_ifs with hin
      · rw [map_some, map_some, map_some, if_pos (by
          simp only [Bool.and_eq_true, decide_eq_true_eq]
          omega)]
        rfl
      · rw [map_some, map_some, if_neg (by
          simp only [Bool.and_eq_true, decide_eq_true_eq]
          omega)]

end UserMemory

end Vetro.User
