import Vetro.Core.Lookup
import Vetro.Virtio.Scanouts

/-!
# The scanouts of virtio-gpu

Every command, reset and restore of a saved state keeps the three records of what
a scanout shows in agreement, as long as no 2D resource is shown on a scanout that
shows a 3D one.
-/

namespace Vetro.Gpu

open Bytes View VirtioGpu List Option Std.TreeMap

/-! ## The view of the device -/

def shape2d (r : Resource) : Shape := ⟨r.scanouts, r.width, r.height, false⟩

def shape3d (r : Res3d) : Shape := ⟨r.scanouts, r.args.width, r.args.height, true⟩

def VirtioGpu.view (g : VirtioGpu) : View where
  table := fun r => ((g.resources[r]?).map shape2d).or ((g.res3d[r]?).map shape3d)
  scanouts := g.scanouts
  map := g.renderer.map fun rd i => rd.scanouts[i]?

/-- No id is used twice. -/
def Apart (g : VirtioGpu) : Prop := ∀ r : ℕ, g.resources[r]? = none ∨ g.res3d[r]? = none

variable {g : VirtioGpu}

variable {r : Res3d}

variable {next : VirtioGpu}

variable {V : Type}

variable {i : ℕ}

variable {s : Scanout}

/-- The device of this configuration keeps its books: no id is used twice, and what
the scanouts show is recorded everywhere. -/
structure Sound (config : Config) (g : VirtioGpu) : Prop where
  apart : Apart g
  consistent : g.view.Consistent
  config_eq : g.config = config
  installed : g.renderer.isSome = config.virgl
  plain : config.virgl = false → ∀ r : ℕ, g.res3d[r]? = none

variable {config : Config}

/-- A change that takes no id. -/
structure Frame (g next : VirtioGpu) : Prop where
  resources : ∀ r : ℕ, g.resources[r]? = none → next.resources[r]? = none
  res3d : ∀ r : ℕ, g.res3d[r]? = none → next.res3d[r]? = none
  config : next.config = g.config
  renderer : next.renderer.isSome = g.renderer.isSome

theorem Frame.refl (g : VirtioGpu) : Frame g g := ⟨fun _ => id, fun _ => id, rfl, rfl⟩

variable {rd : Renderer}

variable {shape : Shape} {cmd : List Byte}

def VirtioGpu.dropped (g : VirtioGpu) (id : ℕ) : VirtioGpu :=
  let g := match g.resources[id]? with
    | some r => { g with resources := g.resources.erase id, hostmem := g.hostmem - r.dataLen }
    | none => g
  match g.res3d[id]? with
  | some r =>
    { g with
      res3d := g.res3d.erase id
      hostmem := g.hostmem - r.hostmem
      renderer := g.renderer.map fun rd : Renderer => rd.resourceDestroy id }
  | none => g

/-- The scanouts that show a part of `rect` of `id`, with that part. -/
def VirtioGpu.flushed (g : VirtioGpu) (id : ℕ) (rect : Rect) : List (ℕ × Rect) :=
  g.scanouts.zipIdx.filterMap fun (s, i) =>
    if s.resourceId = id then (dirtyPart rect s).map fun dirty => (i, dirty) else none

/-- The scanouts with a bit in the mask, and the part to be shown again. -/
def marked (mask : BitVec 32) (rect : Rect) (entries : List (Scanout × ℕ)) : List (ℕ × Rect) :=
  entries.filterMap fun (s, i) =>
    if hasBit mask i then (dirtyPart rect s).map fun dirty => (i, dirty) else none

/-- A SET_SCANOUT of a 2D resource is not for a scanout that shows a 3D one. -/
def Allowed (g : VirtioGpu) (cmd : List Byte) : Prop :=
  le32 cmd 0 = CMD_SET_SCANOUT → ∀ s, g.scanouts[le32 cmd (HDR_LEN + 16)]? = some s →
    g.resources.contains (le32 cmd (HDR_LEN + 20)) = true → g.res3d.contains s.resourceId = false

section

variable (hg : Sound config g)
include hg

omit hg in
theorem map_modify {map : Std.TreeMap ℕ V} {shape : V → Shape} {f : V → V}
    (hf : ∀ r, shape (f r) = shape r) (id r : ℕ) :
    ((map.modify id f)[r]?).map shape = (map[r]?).map shape := by
  rw [getElem?_modify_key]
  split_ifs
  · rw [Option.map_map, show shape ∘ f = shape from funext hf]
  · rfl

end

/-- The states of the device in every run of commands, resets and restores of states
saved on the way, when all commands are allowed. -/
inductive Reachable (config : Config) : VirtioGpu → Prop
  | new : Reachable config (VirtioGpu.new config)
  | command {g : VirtioGpu} (cmd : List Byte) (o : Outside) :
      Reachable config g → Allowed g cmd → Reachable config (g.command cmd o).2
  | reset {g : VirtioGpu} : Reachable config g → Reachable config g.reset
  | restore {g saved next : VirtioGpu} :
      Reachable config g → Reachable config saved →
        g.restoreState saved.saveState = some next → Reachable config next

def words (values : List ℕ) : List Byte := values.flatMap fun v => leBytes 4 v

def backed : Outside := ⟨some [], 0, .ok ()⟩

end Vetro.Gpu
