import Vetro.Core.Mask
import Vetro.Core.Outcome
import Vetro.User.Region

/-!
# Address space of a process

`UserMemory` of `vetro-cpu/src/mem.rs`: disjoint regions with permissions that
are mapped, moved, split and removed in pieces, and the accesses to them.
Addresses are natural numbers: the ranges of a run do not wrap (`Op.NoWrap`), and
there a release build and one with overflow checks agree.
-/

namespace Vetro.User

open Bytes Mask Outcome

structure MemFault where
  addr : ℕ
  access : Access
  deriving Repr, DecidableEq

structure Overlap where
  base : ℕ
  deriving Repr, DecidableEq

/-- Code pages that are watched for the JIT, and those that have changed. -/
structure CodeWatch where
  pages : List ℕ
  dirty : List ℕ
  deriving Repr, DecidableEq

/-- Regions by their first address. -/
abbrev Regions := Intervals.Table Region

structure UserMemory where
  regions : Regions
  watch : CodeWatch

namespace CodeWatch

/-- A page that is watched becomes dirty. -/
def hit (watch : CodeWatch) (p : ℕ) : CodeWatch :=
  if watch.pages.contains p then ⟨watch.pages.filter (· ≠ p), watch.dirty ++ [p]⟩ else watch

/-- The watched pages that touch `[start, stop)` become dirty. -/
def touch (watch : CodeWatch) (start stop : ℕ) : CodeWatch :=
  if watch.pages.isEmpty || stop ≤ start then watch
  else
    let first := start / page
    let last := (stop - 1) / page
    if last - first < 64 then (List.range' first (last - first + 1)).foldl hit watch
    else (watch.pages.filter fun p => first ≤ p && p ≤ last).foldl hit watch

end CodeWatch

namespace UserMemory

def new : UserMemory := ⟨[], ⟨[], []⟩⟩

def touch (m : UserMemory) (start stop : ℕ) : UserMemory :=
  { m with watch := m.watch.touch start stop }

/-- Largest address. -/
def maxAddr : ℕ := 2 ^ 64 - 1

def touchWrite (m : UserMemory) (addr : Word) (len : ℕ) : UserMemory :=
  m.touch addr.toNat (min (addr.toNat + len) maxAddr)

def overlaps (m : UserMemory) (start stop : ℕ) : Bool :=
  match Intervals.before m.regions stop with
  | some (b, r) => start < b + r.len
  | none => false

def insert (m : UserMemory) (base : ℕ) (r : Region) : UserMemory :=
  { m with regions := Intervals.insert base r m.regions }

/-- The region that contains `position` is split there. -/
def splitAt (m : UserMemory) (position : ℕ) : UserMemory :=
  { m with regions := Intervals.splitAt Region.len Region.splitOff m.regions position }

/-- Removes every mapping in `[start, stop)`. -/
def unmap (m : UserMemory) (start stop : ℕ) : UserMemory :=
  if stop ≤ start then m
  else
    let m := ((m.touch start stop).splitAt start).splitAt stop
    { m with regions := Intervals.without m.regions start stop }

/-- Maps `[base, base + data.length)`, which must not overlap anything. -/
def map (m : UserMemory) (base : ℕ) (data : List Byte) (perm : Perm) :
    Except Overlap Unit × UserMemory :=
  if maxAddr < base + data.length then (.error ⟨base⟩, m)
  else if data.isEmpty || m.overlaps base (base + data.length) then (.error ⟨base⟩, m)
  else (.ok (), (m.touch base (base + data.length)).insert base (.own data perm))

/-- Replaces what was there (MAP_FIXED). -/
def mapFixed (m : UserMemory) (base : ℕ) (data : List Byte) (perm : Perm) : UserMemory :=
  if data.isEmpty then m
  else (m.unmap base (base + data.length)).insert base (.own data perm)

/-- Maps zeros without allocating. -/
def mapZeroed (m : UserMemory) (base len : ℕ) (perm : Perm) : UserMemory :=
  if len = 0 then m else (m.unmap base (base + len)).insert base (.zeroed len perm)

/-- Maps `len` bytes of a shared buffer from `off` on (MAP_SHARED). -/
def mapShared (m : UserMemory) (base buffer off len : ℕ) (perm : Perm) : UserMemory :=
  if len = 0 then m
  else (m.unmap base (base + len)).insert base ⟨.shared buffer off, len, perm⟩

/-- Moves the regions of `[old, old + len)` to `dst`, replacing what was there. -/
def remap (m : UserMemory) (old len dst : ℕ) : UserMemory :=
  let m := (m.touch old (min (old + len) maxAddr)).touch dst (min (dst + len) maxAddr)
  let m := (m.splitAt old).splitAt (old + len)
  let moved := (Intervals.within m.regions old (old + len)).map fun x => (x.1 - old, x.2)
  let m := { m with regions := Intervals.without m.regions old (old + len) }
  let m := m.unmap dst (dst + len)
  moved.foldl (fun m x => m.insert (dst + x.1) x.2) m

/-- What stays of a region that is moved without unmapping. -/
def leftBehind (r : Region) : Region :=
  { r with backing := match r.backing with
      | .shared buffer base => .shared buffer base
      | .pages _ _ => .pages (fun _ => none) 0 }

/-- Like `remap`, but the old range stays mapped (MREMAP_DONTUNMAP). -/
def remapDontunmap (m : UserMemory) (old len dst : ℕ) : UserMemory :=
  let m := (m.splitAt old).splitAt (old + len)
  let left := (Intervals.within m.regions old (old + len)).map fun x => (x.1, leftBehind x.2)
  left.foldl (fun m x => m.insert x.1 x.2) (m.remap old len dst)

/-- What comes after a region: a shared one goes on in its buffer, a private one with zeros. -/
def onwardRegion (r : Region) (extra : ℕ) : Region where
  backing := match r.backing with
    | .shared buffer base => .shared buffer (base + r.len)
    | .pages _ _ => .pages (fun _ => none) 0
  len := extra
  perm := r.perm

/-- Extends by `extra` bytes the region that ends at `stop`. -/
def extend (m : UserMemory) (stop extra : ℕ) : UserMemory :=
  match Intervals.before m.regions stop with
  | none => m
  | some (b, r) =>
    if b + r.len ≠ stop || extra = 0 then m
    else (m.unmap stop (stop + extra)).insert stop (onwardRegion r extra)

def find (m : UserMemory) (addr : ℕ) : Option (ℕ × Region) :=
  Intervals.find Region.len m.regions addr

/-- Every byte of `[start, stop)` is mapped. -/
def isMapped (m : UserMemory) (start stop : ℕ) : Bool :=
  if start < stop then
    match hfind : m.find start with
    | some (b, r) => m.isMapped (b + r.len) stop
    | none => false
  else true
termination_by stop - start
decreasing_by
  have hlt := Intervals.lt_of_find hfind
  dsimp only at hlt
  omega

/-- Changes the permissions of `[start, stop)`, if all of it is mapped.  The source panics when
`stop` is before `start`. -/
def protect (m : UserMemory) (start stop : ℕ) (perm : Perm) : Except MemFault Unit × UserMemory :=
  if m.isMapped start stop then
    let m := ((m.touch start stop).splitAt start).splitAt stop
    (.ok (), { m with regions := m.regions.map fun x =>
      (x.1, if start ≤ x.1 && x.1 < stop then { x.2 with perm } else x.2) })
  else (.error ⟨start, .read⟩, m)

/-! ## Accesses -/

/-- The region that contains all of the access; none if it goes across several regions. -/
def locate (m : UserMemory) (buffers : Buffers) (addr : Word) (len : ℕ) (a : Access) :
    Except MemFault (Option (ℕ × Region)) :=
  match m.find addr.toNat with
  | some (b, r) =>
    let off := addr.toNat - b
    if !r.perm.allows a || r.pastEnd buffers (off + max len 1 - 1) then
      .error ⟨addr.toNat, a⟩
    else if off + len ≤ r.len then .ok (some (b, r)) else .ok none
  | none => .error ⟨addr.toNat, a⟩

/-- Checks byte by byte an access that goes across several regions. -/
def checkSlow (m : UserMemory) (buffers : Buffers) (addr : Word) (a : Access) :
    ℕ → Except MemFault Unit
  | 0 => .ok ()
  | len + 1 =>
    match m.find addr.toNat with
    | some (b, r) =>
      if r.perm.allows a && !r.pastEnd buffers (addr.toNat - b) then
        m.checkSlow buffers (addr + 1) a len
      else .error ⟨addr.toNat, a⟩
    | none => .error ⟨addr.toNat, a⟩

/-- Reads byte by byte. -/
def loadSlow (m : UserMemory) (buffers : Buffers) (addr : Word) : ℕ → Result MemFault (List Byte)
  | 0 => .ok []
  | len + 1 =>
    match m.find addr.toNat with
    | some (b, r) => do
      let rest ← m.loadSlow buffers (addr + 1) len
      .ok (r.read buffers (addr.toNat - b) 1 ++ rest)
    | none => panic

/-- The bytes of a read or of a fetch. -/
def load (m : UserMemory) (buffers : Buffers) (addr : Word) (len : ℕ) (a : Access) :
    Result MemFault (List Byte) :=
  match m.locate buffers addr len a with
  | .error fault => fail fault
  | .ok (some (b, r)) => .ok (r.read buffers (addr.toNat - b) len)
  | .ok none =>
    match m.checkSlow buffers addr a len with
    | .error fault => fail fault
    | .ok () => m.loadSlow buffers addr len

/-- An empty access does not touch memory. -/
def read (m : UserMemory) (buffers : Buffers) (addr : Word) (len : ℕ) :
    Result MemFault (List Byte) :=
  if len = 0 then .ok [] else m.load buffers addr len .read

def fetch (m : UserMemory) (buffers : Buffers) (addr : Word) : Result MemFault ℕ :=
  (m.load buffers addr 4 .fetch).map ofLeBytes

/-- A write in one region. -/
def writeIn (m : UserMemory) (buffers : Buffers) (b : ℕ) (r : Region) (off : ℕ)
    (data : List Byte) : UserMemory × Buffers :=
  let written := r.write buffers off data
  (m.insert b written.1, written.2)

/-- Writes byte by byte. -/
def writeSlow (m : UserMemory) (buffers : Buffers) (addr : Word) :
    List Byte → Result MemFault (UserMemory × Buffers)
  | [] => .ok (m, buffers)
  | byte :: data =>
    match m.find addr.toNat with
    | some (b, r) =>
      let next := m.writeIn buffers b r (addr.toNat - b) [byte]
      next.1.writeSlow next.2 (addr + 1) data
    | none => panic

/-- The memory and the buffers after the write. -/
def write (m : UserMemory) (buffers : Buffers) (addr : Word) (data : List Byte) :
    Result MemFault (UserMemory × Buffers) :=
  if data.isEmpty then .ok (m, buffers)
  else
    match m.locate buffers addr data.length .write with
    | .error fault => fail fault
    | .ok (some (b, r)) =>
      let next := m.writeIn buffers b r (addr.toNat - b) data
      .ok (next.1.touchWrite addr data.length, next.2)
    | .ok none =>
      match m.checkSlow buffers addr .write data.length with
      | .error fault => fail fault
      | .ok () => (m.touchWrite addr data.length).writeSlow buffers addr data

end UserMemory

end Vetro.User
