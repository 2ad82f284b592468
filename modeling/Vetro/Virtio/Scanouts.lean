import Vetro.Virtio.Gpu

/-!
# Which scanout shows which resource

The relation between scanouts and resources is kept three times: in the scanout,
in the mask of the resource and in the map of the renderer.  A view has just these
three.  They agree after every hiding, showing, adding and removing, when a
scanout is hidden before it shows something else.
-/

namespace Vetro.Gpu

open Option BitVec

/-! ## Bits of a mask -/

section

variable (mask : BitVec 32)

variable {i : ℕ}

end

/-! ## Views -/

/-- A resource of either kind: its mask, its size and whether it is 3D. -/
structure Shape where
  mask : BitVec 32
  width : ℕ
  height : ℕ
  solid : Bool

structure View where
  table : ℕ → Option Shape
  scanouts : List Scanout
  map : Option (ℕ → Option (ℕ × Rect))

namespace View

def Shows (v : View) (i r : ℕ) : Prop := ∃ s, v.scanouts[i]? = some s ∧ s.resourceId = r

/-- The three agree. -/
structure Consistent (v : View) : Prop where
  zero : v.table 0 = none
  bits : ∀ {r : ℕ} {shape : Shape}, v.table r = some shape → ∀ i, shape.mask.getLsbD i = true ↔
    v.Shows i r
  inside : ∀ {i : ℕ} {s : Scanout}, v.scanouts[i]? = some s → s.resourceId ≠ 0 →
    ∃ shape, v.table s.resourceId = some shape ∧ s.rect.within shape.width shape.height = true
  named : ∀ {m}, v.map = some m → ∀ i entry, m i = some entry ↔
    ∃ (s : Scanout) (shape : Shape), v.scanouts[i]? = some s ∧ v.table s.resourceId = some shape ∧
      shape.solid = true ∧ entry = (s.resourceId, s.rect)
  count : v.scanouts.length ≤ 16

def setMask (table : ℕ → Option Shape) (id : ℕ) (f : BitVec 32 → BitVec 32) :
    ℕ → Option Shape := fun r =>
  if r = id then (table r).map fun shape => { shape with mask := f shape.mask } else table r

def solid (v : View) (id : ℕ) : Bool := ((v.table id).map Shape.solid).getD false

/-- Scanout `i` shows nothing any more. -/
def hide (v : View) (i : ℕ) : View :=
  match v.scanouts[i]? with
  | none => v
  | some s =>
    if s.resourceId = 0 then v
    else
      { table := setMask v.table s.resourceId (clearBit · i)
        scanouts := v.scanouts.set i .default
        map := if v.solid s.resourceId then v.map.map fun m j => if j = i then none else m j
          else v.map }

def add (v : View) (id : ℕ) (shape : Shape) : View :=
  { v with table := fun r => if r = id then some shape else v.table r }

def remove (v : View) (id : ℕ) : View :=
  { v with
    table := fun r => if r = id then none else v.table r
    map := if v.solid id then v.map.map fun m i => (m i).filter fun entry => entry.1 != id
      else v.map }

variable {v : View} {shape : Shape}

theorem Shows.eq {r r' : ℕ} (hr : v.Shows i r) (hr' : v.Shows i r') : r = r' := by
  obtain ⟨s, hs, rfl⟩ := hr
  obtain ⟨s', hs', rfl⟩ := hr'
  rw [hs] at hs'
  rw [some.inj hs']

variable {s : Scanout}

variable {table : ℕ → Option Shape}

/-- The first `n` scanouts with a bit in the mask show nothing any more. -/
def hideMask (v : View) (mask : BitVec 32) (n : ℕ) : View :=
  (List.range n).foldl (fun v i => if hasBit mask i then v.hide i else v) v

/-- A resource goes after the scanouts that show it were hidden. -/
def destroy (v : View) (id : ℕ) : View :=
  match v.table id with
  | none => v
  | some shape => (v.hideMask shape.mask v.scanouts.length).remove id

end View

end Vetro.Gpu
