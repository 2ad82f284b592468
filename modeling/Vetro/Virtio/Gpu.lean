import Mathlib.Tactic
import Std.Data.TreeMap
import Std.Data.TreeSet
import Vetro.Core.Bytes

/-!
# virtio-gpu: resources and scanouts

The commands of the control queue with what they do to resources, contexts and
scanouts, and the part of the gfxstream renderer that knows about scanouts.
Pixels, cursors and requested resolutions are left out; the display backend is
the list of the calls it has received.  What a command takes from guest memory or
from the contents of the renderer comes with the command.  Sizes are computed
modulo 2^64, as in a release build.
-/

namespace Vetro.Gpu

open Bytes

def HDR_LEN : ℕ := 24

def CMD_GET_DISPLAY_INFO : ℕ := 0x0100
def CMD_RESOURCE_CREATE_2D : ℕ := 0x0101
def CMD_RESOURCE_UNREF : ℕ := 0x0102
def CMD_SET_SCANOUT : ℕ := 0x0103
def CMD_RESOURCE_FLUSH : ℕ := 0x0104
def CMD_TRANSFER_TO_HOST_2D : ℕ := 0x0105
def CMD_RESOURCE_ATTACH_BACKING : ℕ := 0x0106
def CMD_RESOURCE_DETACH_BACKING : ℕ := 0x0107
def CMD_GET_CAPSET_INFO : ℕ := 0x0108
def CMD_GET_CAPSET : ℕ := 0x0109
def CMD_GET_EDID : ℕ := 0x010a
def CMD_RESOURCE_CREATE_BLOB : ℕ := 0x010c
def CMD_SET_SCANOUT_BLOB : ℕ := 0x010d
def CMD_CTX_CREATE : ℕ := 0x0200
def CMD_CTX_DESTROY : ℕ := 0x0201
def CMD_CTX_ATTACH_RESOURCE : ℕ := 0x0202
def CMD_CTX_DETACH_RESOURCE : ℕ := 0x0203
def CMD_RESOURCE_CREATE_3D : ℕ := 0x0204
def CMD_TRANSFER_TO_HOST_3D : ℕ := 0x0205
def CMD_TRANSFER_FROM_HOST_3D : ℕ := 0x0206
def CMD_SUBMIT_3D : ℕ := 0x0207

def RESP_ERR_UNSPEC : ℕ := 0x1200
def RESP_ERR_OUT_OF_MEMORY : ℕ := 0x1201
def RESP_ERR_INVALID_SCANOUT_ID : ℕ := 0x1202
def RESP_ERR_INVALID_RESOURCE_ID : ℕ := 0x1203
def RESP_ERR_INVALID_CONTEXT_ID : ℕ := 0x1204
def RESP_ERR_INVALID_PARAMETER : ℕ := 0x1205

def MAX_SCANOUTS : ℕ := 16
def MAX_BACKING_ENTRIES : ℕ := 16384

def le32 (b : List Byte) (o : ℕ) : ℕ := ofLeBytes ((b.drop o).take 4)

inductive PixelFormat where
  | B8G8R8A8
  | B8G8R8X8
  | A8R8G8B8
  | X8R8G8B8
  | R8G8B8A8
  | X8B8G8R8
  | A8B8G8R8
  | R8G8B8X8
  deriving Repr, DecidableEq

def PixelFormat.fromVirtio (v : ℕ) : Option PixelFormat :=
  match v with
  | 1 => some .B8G8R8A8
  | 2 => some .B8G8R8X8
  | 3 => some .A8R8G8B8
  | 4 => some .X8R8G8B8
  | 67 => some .R8G8B8A8
  | 68 => some .X8B8G8R8
  | 121 => some .A8B8G8R8
  | 134 => some .R8G8B8X8
  | _ => none

structure Rect where
  x : ℕ
  y : ℕ
  width : ℕ
  height : ℕ
  deriving Repr, DecidableEq

namespace Rect

def default : Rect := ⟨0, 0, 0, 0⟩

def parse (b : List Byte) : Rect := ⟨le32 b 0, le32 b 4, le32 b 8, le32 b 12⟩

def within (r : Rect) (w h : ℕ) : Bool :=
  r.x ≤ w && r.y ≤ h && r.width ≤ w && r.height ≤ h && r.x + r.width ≤ w && r.y + r.height ≤ h

def intersect (r o : Rect) : Option Rect :=
  let x0 := max r.x o.x
  let y0 := max r.y o.y
  let x1 := min (r.x + r.width) (o.x + o.width)
  let y1 := min (r.y + r.height) (o.y + o.height)
  if x1 > x0 ∧ y1 > y0 then some ⟨x0, y0, x1 - x0, y1 - y0⟩ else none

end Rect

/-- A 2D resource; `dataLen` is the length of its pixels. -/
structure Resource where
  width : ℕ
  height : ℕ
  format : PixelFormat
  dataLen : ℕ
  backing : Option (List (ℕ × ℕ))
  scanouts : BitVec 32
  deriving Repr, DecidableEq

structure Create3d where
  target : ℕ
  format : ℕ
  bind : ℕ
  width : ℕ
  height : ℕ
  depth : ℕ
  arraySize : ℕ
  lastLevel : ℕ
  nrSamples : ℕ
  flags : ℕ
  deriving Repr, DecidableEq

structure Res3d where
  args : Create3d
  backing : Option (List (ℕ × ℕ))
  scanouts : BitVec 32
  hostmem : ℕ
  deriving Repr, DecidableEq

/-- The resource shown (0 = none) and its part. -/
structure Scanout where
  resourceId : ℕ
  rect : Rect
  deriving Repr, DecidableEq

def Scanout.default : Scanout := ⟨0, .default⟩

/-- The calls of the display backend. -/
inductive Notice where
  | update (scanout : ℕ) (dirty : Rect)
  | update3d (scanout : ℕ) (dirty : Rect)
  | disable (scanout : ℕ)
  deriving Repr, DecidableEq

/-- What the gfxstream renderer keeps of resources and scanouts; `presented` are the
resources it has put on the screen, the last one at the end. -/
structure Renderer where
  resources : Std.TreeSet ℕ
  scanouts : Std.TreeMap ℕ (ℕ × Rect)
  presented : List ℕ

namespace Renderer

def new : Renderer := ⟨∅, ∅, []⟩

def resourceCreate (rd : Renderer) (res : ℕ) : Renderer :=
  { rd with resources := rd.resources.insert res }

def resourceDestroy (rd : Renderer) (res : ℕ) : Renderer :=
  { rd with
    resources := rd.resources.erase res
    scanouts := rd.scanouts.filter fun _ v => v.1 != res }

def scanout (rd : Renderer) (scanout : ℕ) (resource : Option (ℕ × Rect)) : Renderer :=
  match resource with
  | some r => { rd with scanouts := rd.scanouts.insert scanout r }
  | none => { rd with scanouts := rd.scanouts.erase scanout }

def flush (rd : Renderer) (scanout res : ℕ) : Renderer :=
  if (rd.scanouts[scanout]?).map Prod.fst = some res then
    { rd with presented := rd.presented ++ [res] }
  else rd

def reset (rd : Renderer) : Renderer := rd.resources.toList.foldl resourceDestroy rd

end Renderer

structure Config where
  scanouts : ℕ
  edid : Bool
  maxHostmem : ℕ
  virgl : Bool
  deriving Repr, DecidableEq

structure VirtioGpu where
  config : Config
  backend : List Notice
  resources : Std.TreeMap ℕ Resource
  res3d : Std.TreeMap ℕ Res3d
  contexts : Std.TreeSet ℕ
  renderer : Option Renderer
  hostmem : ℕ
  scanouts : List Scanout

/-- What a command takes from outside of the device. -/
structure Outside where
  /-- The entries of ATTACH_BACKING, when all were read and lie in RAM. -/
  entries : Option (List (ℕ × ℕ))
  /-- The memory the renderer reports for a 3D resource. -/
  size : ℕ
  /-- What the renderer answers to a transfer. -/
  transfer : Except ℕ Unit

def setBit (mask : BitVec 32) (i : ℕ) : BitVec 32 := mask ||| (1#32 <<< i)

def clearBit (mask : BitVec 32) (i : ℕ) : BitVec 32 := mask &&& ~~~(1#32 <<< i)

def hasBit (mask : BitVec 32) (i : ℕ) : Bool := mask &&& (1#32 <<< i) != 0

namespace VirtioGpu

/-- The device of the machine: with virgl it has a renderer. -/
def new (config : Config) : VirtioGpu where
  config := config
  backend := []
  resources := ∅
  res3d := ∅
  contexts := ∅
  renderer := if config.virgl then some .new else none
  hostmem := 0
  scanouts := List.replicate (min (max config.scanouts 1) MAX_SCANOUTS) .default

def notify (g : VirtioGpu) (notice : Notice) : VirtioGpu :=
  { g with backend := g.backend ++ [notice] }

def idUsed (g : VirtioGpu) (id : ℕ) : Bool :=
  id == 0 || g.resources.contains id || g.res3d.contains id

/-- Sizes wrap.  If the sum with `hostmem` does too, `size` is more than a `vec!` can have: the
source panics there, the model goes on. -/
def create2d (g : VirtioGpu) (cmd : List Byte) : Except ℕ Unit × VirtioGpu :=
  let id := le32 cmd HDR_LEN
  let format := le32 cmd (HDR_LEN + 4)
  let width := le32 cmd (HDR_LEN + 8)
  let height := le32 cmd (HDR_LEN + 12)
  if g.idUsed id then (.error RESP_ERR_INVALID_RESOURCE_ID, g)
  else
    match PixelFormat.fromVirtio format with
    | none => (.error RESP_ERR_INVALID_PARAMETER, g)
    | some format =>
      let size := width * 4 * height % 2 ^ 64
      if (size + g.hostmem) % 2 ^ 64 ≥ g.config.maxHostmem then
        (.error RESP_ERR_OUT_OF_MEMORY, g)
      else
        (.ok (), { g with
          hostmem := (g.hostmem + size) % 2 ^ 64
          resources := g.resources.insert id ⟨width, height, format, size, none, 0⟩ })

/-- The bit of scanout `i` cleared in the resource `id`, of either kind. -/
def clear2d (g : VirtioGpu) (id i : ℕ) : VirtioGpu :=
  { g with
    resources := g.resources.modify id fun r => { r with scanouts := clearBit r.scanouts i } }

def clear3d (g : VirtioGpu) (id i : ℕ) : VirtioGpu :=
  { g with res3d := g.res3d.modify id fun r => { r with scanouts := clearBit r.scanouts i } }

def disableScanout (g : VirtioGpu) (i : ℕ) : VirtioGpu :=
  match g.scanouts[i]? with
  | none => g
  | some s =>
    if s.resourceId = 0 then g
    else
      let renderer :=
        if g.res3d.contains s.resourceId then g.renderer.map fun rd : Renderer => rd.scanout i none
        else g.renderer
      ({ ((g.clear2d s.resourceId i).clear3d s.resourceId i) with
        renderer
        scanouts := g.scanouts.set i .default }).notify (.disable i)

def destroy (g : VirtioGpu) (id : ℕ) : VirtioGpu :=
  let mask := match g.resources[id]?, g.res3d[id]? with
    | some r, _ => some r.scanouts
    | none, some r => some r.scanouts
    | none, none => none
  match mask with
  | none => g
  | some mask =>
    let g := (List.range g.scanouts.length).foldl
      (fun g i => if hasBit mask i then g.disableScanout i else g) g
    let g := match g.resources[id]? with
      | some r => { g with resources := g.resources.erase id, hostmem := g.hostmem - r.dataLen }
      | none => g
    match g.res3d[id]? with
    | some r =>
      { g with
        res3d := g.res3d.erase id
        hostmem := g.hostmem - r.hostmem
        renderer := g.renderer.map fun rd : Renderer => rd.resourceDestroy id }
    | none => g

def unref (g : VirtioGpu) (cmd : List Byte) : Except ℕ Unit × VirtioGpu :=
  let id := le32 cmd HDR_LEN
  if !g.resources.contains id && !g.res3d.contains id then
    (.error RESP_ERR_INVALID_RESOURCE_ID, g)
  else (.ok (), g.destroy id)

def withBacking (g : VirtioGpu) (id : ℕ) : Except ℕ Resource :=
  match g.resources[id]? with
  | none => .error RESP_ERR_INVALID_RESOURCE_ID
  | some r => if r.backing.isNone then .error RESP_ERR_UNSPEC else .ok r

/-- `set_scanout_3d`, for a 3D resource `r` with this id. -/
def setScanout3d (g : VirtioGpu) (i id : ℕ) (r : Res3d) (rect : Rect) : Except ℕ Unit × VirtioGpu :=
  if rect.width < 16 || rect.height < 16 || !rect.within r.args.width r.args.height then
    (.error RESP_ERR_INVALID_PARAMETER, g)
  else
    let old := ((g.scanouts[i]?).map Scanout.resourceId).getD 0
    let g := if old ≠ id then (g.clear2d old i).clear3d old i else g
    (.ok (), ({ g with
      res3d := g.res3d.modify id fun r => { r with scanouts := setBit r.scanouts i }
      scanouts := g.scanouts.set i ⟨id, rect⟩
      renderer := g.renderer.map fun rd : Renderer => rd.scanout i (some (id, rect)) }).notify
        (.update3d i ⟨0, 0, rect.width, rect.height⟩))

/-- The part of `set_scanout` for a 2D resource. -/
def setScanout2d (g : VirtioGpu) (i id : ℕ) (rect : Rect) : Except ℕ Unit × VirtioGpu :=
  match g.withBacking id with
  | .error e => (.error e, g)
  | .ok r =>
    if rect.width < 16 || rect.height < 16 || !rect.within r.width r.height then
      (.error RESP_ERR_INVALID_PARAMETER, g)
    else
      let old := ((g.scanouts[i]?).map Scanout.resourceId).getD 0
      let g := { g with
        resources := g.resources.modify id fun r => { r with scanouts := setBit r.scanouts i } }
      -- only a 2D resource loses its bit here
      let g := if old ≠ id then g.clear2d old i else g
      (.ok (), ({ g with scanouts := g.scanouts.set i ⟨id, rect⟩ }).notify
        (.update i ⟨0, 0, rect.width, rect.height⟩))

def setScanout (g : VirtioGpu) (cmd : List Byte) : Except ℕ Unit × VirtioGpu :=
  let rect := Rect.parse (cmd.drop HDR_LEN)
  let i := le32 cmd (HDR_LEN + 16)
  let id := le32 cmd (HDR_LEN + 20)
  if g.scanouts.length ≤ i then (.error RESP_ERR_INVALID_SCANOUT_ID, g)
  else if id = 0 then (.ok (), g.disableScanout i)
  else
    match g.res3d[id]? with
    | some r => g.setScanout3d i id r rect
    | none => g.setScanout2d i id rect

/-- The part of `rect` that scanout `s` shows, in its coordinates. -/
def dirtyPart (rect : Rect) (s : Scanout) : Option Rect :=
  (rect.intersect s.rect).map fun d => ⟨d.x - s.rect.x, d.y - s.rect.y, d.width, d.height⟩

def flush3d (g : VirtioGpu) (id : ℕ) (r : Res3d) (rect : Rect) : Except ℕ Unit × VirtioGpu :=
  if !rect.within r.args.width r.args.height then (.error RESP_ERR_INVALID_PARAMETER, g)
  else
    (.ok (), g.scanouts.zipIdx.foldl
      (fun g (s, i) =>
        if !hasBit r.scanouts i then g
        else
          match dirtyPart rect s with
          | none => g
          | some dirty =>
            ({ g with renderer := g.renderer.map fun rd : Renderer => rd.flush i id }).notify
              (.update3d i dirty)) g)

def flush (g : VirtioGpu) (cmd : List Byte) : Except ℕ Unit × VirtioGpu :=
  let rect := Rect.parse (cmd.drop HDR_LEN)
  let id := le32 cmd (HDR_LEN + 16)
  match g.res3d[id]? with
  | some r => g.flush3d id r rect
  | none =>
    match g.resources[id]? with
    | none => (.error RESP_ERR_INVALID_RESOURCE_ID, g)
    | some r =>
      if !rect.within r.width r.height then (.error RESP_ERR_INVALID_PARAMETER, g)
      else
        (.ok (), g.scanouts.zipIdx.foldl
          (fun g (s, i) =>
            if !hasBit r.scanouts i then g
            else
              match dirtyPart rect s with
              | none => g
              | some dirty => g.notify (.update i dirty)) g)

/-- The pixels it copies are left out. -/
def transfer (g : VirtioGpu) (cmd : List Byte) : Except ℕ Unit :=
  let rect := Rect.parse (cmd.drop HDR_LEN)
  match g.withBacking (le32 cmd (HDR_LEN + 24)) with
  | .error e => .error e
  | .ok r => if !rect.within r.width r.height then .error RESP_ERR_INVALID_PARAMETER else .ok ()

def attachBacking (g : VirtioGpu) (cmd : List Byte) (o : Outside) : Except ℕ Unit × VirtioGpu :=
  let id := le32 cmd HDR_LEN
  let n := le32 cmd (HDR_LEN + 4)
  let slot := match g.resources[id]?, g.res3d[id]? with
    | some r, _ => some r.backing
    | none, some r => some r.backing
    | none, none => none
  match slot with
  | none => (.error RESP_ERR_INVALID_RESOURCE_ID, g)
  | some backing =>
    if backing.isSome || n > MAX_BACKING_ENTRIES then (.error RESP_ERR_UNSPEC, g)
    else
      match o.entries with
      | none => (.error RESP_ERR_UNSPEC, g)
      | some entries =>
        if g.resources.contains id then
          (.ok (), { g with
            resources := g.resources.modify id fun r => { r with backing := some entries } })
        else
          (.ok (), { g with
            res3d := g.res3d.modify id fun r => { r with backing := some entries } })

def detachBacking (g : VirtioGpu) (cmd : List Byte) : Except ℕ Unit × VirtioGpu :=
  let id := le32 cmd HDR_LEN
  match g.res3d[id]? with
  | some r =>
    if r.backing.isNone then (.error RESP_ERR_UNSPEC, g)
    else
      (.ok (), { g with res3d := g.res3d.modify id fun r => { r with backing := none } })
  | none =>
    match g.withBacking id with
    | .error e => (.error e, g)
    | .ok _ =>
      (.ok (), { g with resources := g.resources.modify id fun r => { r with backing := none } })

def ctxCreate (g : VirtioGpu) (cmd : List Byte) : Except ℕ Unit × VirtioGpu :=
  let ctx := le32 cmd 16
  if ctx == 0 || g.contexts.contains ctx then (.error RESP_ERR_INVALID_CONTEXT_ID, g)
  else if g.renderer.isNone then (.error RESP_ERR_UNSPEC, g)
  else (.ok (), { g with contexts := g.contexts.insert ctx })

def ctxDestroy (g : VirtioGpu) (cmd : List Byte) : Except ℕ Unit × VirtioGpu :=
  let ctx := le32 cmd 16
  if !g.contexts.contains ctx then (.error RESP_ERR_INVALID_CONTEXT_ID, g)
  else
    (if g.renderer.isNone then .error RESP_ERR_UNSPEC else .ok (),
      { g with contexts := g.contexts.erase ctx })

def ctxResource (g : VirtioGpu) (cmd : List Byte) : Except ℕ Unit :=
  if !g.contexts.contains (le32 cmd 16) then .error RESP_ERR_INVALID_CONTEXT_ID
  else if !g.res3d.contains (le32 cmd HDR_LEN) then .error RESP_ERR_INVALID_RESOURCE_ID
  else if g.renderer.isNone then .error RESP_ERR_UNSPEC
  else .ok ()

def create3d (g : VirtioGpu) (cmd : List Byte) (o : Outside) : Except ℕ Unit × VirtioGpu :=
  let w := fun k => le32 cmd (HDR_LEN + 4 * k)
  let id := w 0
  let args : Create3d := ⟨w 1, w 2, w 3, w 4, w 5, w 6, w 7, w 8, w 9, w 10⟩
  if g.idUsed id then (.error RESP_ERR_INVALID_RESOURCE_ID, g)
  else
    match g.renderer with
    | none => (.error RESP_ERR_UNSPEC, g)
    | some rd =>
      let rd := rd.resourceCreate id
      if o.size + g.hostmem ≥ g.config.maxHostmem then
        (.error RESP_ERR_OUT_OF_MEMORY, { g with renderer := some (rd.resourceDestroy id) })
      else
        (.ok (), { g with
          renderer := some rd
          hostmem := g.hostmem + o.size
          res3d := g.res3d.insert id ⟨args, none, 0, o.size⟩ })

def transfer3d (g : VirtioGpu) (cmd : List Byte) (o : Outside) : Except ℕ Unit :=
  match g.res3d[le32 cmd (HDR_LEN + 32)]? with
  | none => .error RESP_ERR_INVALID_RESOURCE_ID
  | some r =>
    if r.backing.isNone || g.renderer.isNone then .error RESP_ERR_UNSPEC else o.transfer

def submit3d (g : VirtioGpu) (cmd : List Byte) : Except ℕ Unit :=
  if !g.contexts.contains (le32 cmd 16) then .error RESP_ERR_INVALID_CONTEXT_ID
  else if cmd.length < HDR_LEN + 8 + le32 cmd HDR_LEN then .error RESP_ERR_INVALID_PARAMETER
  else if g.renderer.isNone then .error RESP_ERR_UNSPEC
  else .ok ()

/-- The length a command needs. -/
def need (virgl : Bool) (ty : ℕ) : ℕ :=
  if virgl && (ty == CMD_GET_CAPSET_INFO || ty == CMD_GET_CAPSET) then HDR_LEN + 8
  else if virgl && ty == CMD_CTX_CREATE then HDR_LEN + 72
  else if virgl && (ty == CMD_CTX_ATTACH_RESOURCE || ty == CMD_CTX_DETACH_RESOURCE) then
    HDR_LEN + 8
  else if virgl && ty == CMD_RESOURCE_CREATE_3D then HDR_LEN + 48
  else if virgl && (ty == CMD_TRANSFER_TO_HOST_3D || ty == CMD_TRANSFER_FROM_HOST_3D) then
    HDR_LEN + 48
  else if virgl && ty == CMD_SUBMIT_3D then HDR_LEN + 8
  else if ty == CMD_GET_DISPLAY_INFO then HDR_LEN
  else if ty == CMD_GET_EDID then HDR_LEN + 8
  else if ty == CMD_RESOURCE_CREATE_2D then HDR_LEN + 16
  else if ty == CMD_RESOURCE_UNREF || ty == CMD_RESOURCE_DETACH_BACKING then HDR_LEN + 8
  else if ty == CMD_SET_SCANOUT || ty == CMD_RESOURCE_FLUSH then HDR_LEN + 24
  else if ty == CMD_TRANSFER_TO_HOST_2D then HDR_LEN + 32
  else if ty == CMD_RESOURCE_ATTACH_BACKING then HDR_LEN + 8
  else HDR_LEN

/-- A command of the control queue; the data that some of them answer are left
out.  The renderer has no capability sets. -/
def command (g : VirtioGpu) (cmd : List Byte) (o : Outside) : Except ℕ Unit × VirtioGpu :=
  let virgl := g.config.virgl
  let ty := le32 cmd 0
  if cmd.length < HDR_LEN then (.error RESP_ERR_INVALID_PARAMETER, g)
  else if cmd.length < need virgl ty then (.error RESP_ERR_INVALID_PARAMETER, g)
  else if ty == CMD_GET_DISPLAY_INFO then (.ok (), g)
  else if ty == CMD_GET_EDID && g.config.edid then
    (if g.scanouts.length ≤ le32 cmd HDR_LEN then .error RESP_ERR_INVALID_PARAMETER else .ok (), g)
  else if ty == CMD_RESOURCE_CREATE_2D then g.create2d cmd
  else if ty == CMD_RESOURCE_UNREF then g.unref cmd
  else if ty == CMD_SET_SCANOUT then g.setScanout cmd
  else if ty == CMD_RESOURCE_FLUSH then g.flush cmd
  else if ty == CMD_TRANSFER_TO_HOST_2D then (g.transfer cmd, g)
  else if ty == CMD_RESOURCE_ATTACH_BACKING then g.attachBacking cmd o
  else if ty == CMD_RESOURCE_DETACH_BACKING then g.detachBacking cmd
  else if virgl && (ty == CMD_GET_CAPSET_INFO || ty == CMD_GET_CAPSET) then
    (.error RESP_ERR_INVALID_PARAMETER, g)
  else if virgl && ty == CMD_CTX_CREATE then g.ctxCreate cmd
  else if virgl && ty == CMD_CTX_DESTROY then g.ctxDestroy cmd
  else if virgl && (ty == CMD_CTX_ATTACH_RESOURCE || ty == CMD_CTX_DETACH_RESOURCE) then
    (g.ctxResource cmd, g)
  else if virgl && ty == CMD_RESOURCE_CREATE_3D then g.create3d cmd o
  else if virgl && (ty == CMD_TRANSFER_TO_HOST_3D || ty == CMD_TRANSFER_FROM_HOST_3D) then
    (g.transfer3d cmd o, g)
  else if virgl && ty == CMD_SUBMIT_3D then (g.submit3d cmd, g)
  else if ty == CMD_RESOURCE_CREATE_BLOB || ty == CMD_SET_SCANOUT_BLOB then
    (.error RESP_ERR_INVALID_PARAMETER, g)
  else (.error RESP_ERR_UNSPEC, g)

def reset (g : VirtioGpu) : VirtioGpu :=
  let ids := g.resources.keys ++ g.res3d.keys
  let g := ids.foldl destroy g
  { g with contexts := ∅, renderer := g.renderer.map Renderer.reset }

/-! ## Saved states -/

/-- What `save_state` writes of the device and of the renderer. -/
structure Saved where
  count : ℕ
  resources : List (ℕ × Resource)
  res3d : List (ℕ × Res3d)
  contexts : List ℕ
  hostmem : ℕ
  scanouts : List Scanout
  renderer : Option (List ℕ × List (ℕ × ℕ × Rect))

def saveState (g : VirtioGpu) : Saved where
  count := g.scanouts.length
  resources := g.resources.toList
  res3d := if g.config.virgl then g.res3d.toList else []
  contexts := if g.config.virgl then g.contexts.toList else []
  hostmem := g.hostmem
  scanouts := g.scanouts
  renderer :=
    if g.config.virgl then
      g.renderer.map fun rd => (rd.resources.toList, rd.scanouts.toList)
    else none

/-- The scanout shows nothing or a part of a resource. -/
def fits (resources : Std.TreeMap ℕ Resource) (res3d : Std.TreeMap ℕ Res3d) (s : Scanout) : Bool :=
  s.resourceId == 0 ||
    match resources[s.resourceId]?, res3d[s.resourceId]? with
    | some r, _ => s.rect.within r.width r.height
    | none, some r => s.rect.within r.args.width r.args.height
    | none, none => false

/-- The display is told what each scanout shows. -/
def shown (g : VirtioGpu) : List Notice :=
  g.scanouts.zipIdx.map fun (s, i) =>
    if g.resources.contains s.resourceId then .update i ⟨0, 0, s.rect.width, s.rect.height⟩
    else if g.res3d.contains s.resourceId then .update3d i ⟨0, 0, s.rect.width, s.rect.height⟩
    else .disable i

/-- The device after `restore_state`, when it accepts what was saved. -/
def restoreState (g : VirtioGpu) (saved : Saved) : Option VirtioGpu :=
  let resources := Std.TreeMap.ofList saved.resources
  let res3d := Std.TreeMap.ofList saved.res3d
  if saved.count ≠ g.scanouts.length then none
  else if saved.resources.any fun r =>
      r.1 == 0 || r.2.dataLen != r.2.width * 4 * r.2.height % 2 ^ 64 then none
  else if saved.res3d.any fun r => r.1 == 0 || resources.contains r.1 then none
  else if !saved.scanouts.all (fits resources res3d) then none
  else
    let renderer := match saved.renderer, g.renderer with
      | some (ids, scanouts), some rd =>
        some (some { rd with
          resources := Std.TreeSet.ofList ids
          scanouts := Std.TreeMap.ofList scanouts })
      | none, rd => some rd
      | some _, none => none
    match renderer with
    | none => none
    | some renderer =>
      let g := { g with
        resources, res3d, renderer
        contexts := Std.TreeSet.ofList saved.contexts
        hostmem := saved.hostmem
        scanouts := saved.scanouts }
      some { g with backend := g.backend ++ g.shown }

end VirtioGpu

end Vetro.Gpu
