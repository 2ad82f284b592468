import Vetro.Core.Bitmap
import Vetro.Core.Bytes
import Vetro.Core.PointInTime
import Vetro.Core.Splice

/-!
# The guest RAM

`vetro-machine/src/board.rs`: the RAM with the pages that the JIT watches, and the
write trap of a deferred save.  The trap has a bit for each page; the first write
to a page whose bit is set keeps the old bytes of the page, and the save takes
each page from the kept ones or from the RAM.
-/

namespace Vetro.Board

open Bytes Mask Splice List

def ramBase : ℕ := 0x40000000

def pageSize : ℕ := 4096

/-- Pages from which the JITs have translated code. -/
structure Watch where
  /-- One bit per page: watched. -/
  code : List Word
  watched : ℕ
  /-- Pages watched and then written, for each consumer. -/
  dirty : List (List ℕ)
  consumers : ℕ
  deriving Repr, DecidableEq

/-- The pages of a deferred save that are not copied yet. -/
structure Trap where
  bits : List Word
  /-- Bits set; with 0 every write goes straight through. -/
  armed : ℕ
  /-- Old bytes of the pages written before the save took them. -/
  kept : ℕ → Option (List Byte)
  keptBytes : ℕ
  /-- Grows with every start and every restore. -/
  epoch : ℕ

/-- The guest RAM, from `ramBase`. -/
structure Ram where
  bytes : List Byte
  watch : Watch
  trap : Trap

/-- Number of pages of `len` bytes; the last one may be shorter. -/
def pageCount (len : ℕ) : ℕ := (len + 4095) / pageSize

/-- Bytes of page `i`. -/
def pageLen (len i : ℕ) : ℕ := min (len - i * pageSize) pageSize

/-- Words of a bitmap of the pages. -/
def wordCount (len : ℕ) : ℕ := (pageCount len + 63) / 64

/-- The pages of `len` bytes from `o` on, of which there is at least one. -/
def pagesOf (o len : ℕ) : List ℕ :=
  range' (o / pageSize) ((o + len - 1) / pageSize + 1 - o / pageSize)

/-- Page `i` of the bytes. -/
def page (bytes : List Byte) (i : ℕ) : List Byte :=
  slice bytes (i * pageSize) (i * pageSize + pageLen bytes.length i)

def Trap.new (len : ℕ) : Trap where
  bits := replicate (wordCount len) 0
  armed := 0
  kept := fun _ => none
  keptBytes := 0
  epoch := 0

/-- Bits cleared, kept pages dropped. -/
def Trap.disarm (trap : Trap) : Trap :=
  { trap with
    bits := replicate trap.bits.length 0
    armed := 0
    kept := fun _ => none
    keptBytes := 0 }

namespace Ram

/-- A RAM of `size` bytes that up to `n` JITs can follow. -/
def withConsumers (size n : ℕ) : Ram where
  bytes := replicate size 0
  watch := {
    code := replicate (wordCount size) 0
    watched := 0
    dirty := replicate (max n 1) []
    consumers := 1 }
  trap := Trap.new size

def size (ram : Ram) : ℕ := ram.bytes.length

def pages (ram : Ram) : ℕ := pageCount ram.size

/-- Ends the trap. -/
def trapDisarm (ram : Ram) : Ram := { ram with trap := ram.trap.disarm }

/-- Starts the trap over every page; its epoch. -/
def trapArm (ram : Ram) : ℕ × Ram :=
  let trap := ram.trap.disarm
  let trap := { trap with
    bits := Bitmap.first trap.bits.length ram.pages
    armed := ram.pages
    epoch := trap.epoch + 1 }
  (trap.epoch, { ram with trap })

/-- Page `number`, which is `pa >> 12`, is still to be copied: a write must go through
`write`. -/
def writeTrapped (ram : Ram) (number : ℕ) : Bool :=
  if ram.trap.armed = 0 then false
  else
    let pa := number * pageSize
    if ramBase ≤ pa ∧ pa - ramBase < ram.size then
      Bitmap.test ram.trap.bits ((pa - ramBase) / pageSize)
    else false

/-- The old bytes of page `i`, if it is trapped. -/
def keepPage (ram : Ram) (i : ℕ) : Ram :=
  if Bitmap.test ram.trap.bits i then
    { ram with trap := { ram.trap with
        kept := Function.update ram.trap.kept i (some (page ram.bytes i))
        bits := Bitmap.clear ram.trap.bits i
        armed := ram.trap.armed - 1
        keptBytes := ram.trap.keptBytes + pageLen ram.size i } }
  else ram

def keep (ram : Ram) (o len : ℕ) : Ram := (pagesOf o len).foldl keepPage ram

/-- Before a write of `len` bytes at `o`: the old bytes of the trapped pages. -/
def beforeWrite (ram : Ram) (o len : ℕ) : Ram :=
  if ram.trap.armed ≠ 0 ∧ len ≠ 0 then ram.keep o len else ram

/-- The bytes, as of the start of the trap, of the pages in the list; false if one of them
is neither trapped nor kept. -/
def takePages : List ℕ → Ram → List Byte → Bool × Ram × List Byte
  | [], ram, out => (true, ram, out)
  | i :: rest, ram, out =>
    if Bitmap.test ram.trap.bits i then
      takePages rest { ram with trap := { ram.trap with
          bits := Bitmap.clear ram.trap.bits i
          armed := ram.trap.armed - 1 } }
        (out ++ page ram.bytes i)
    else
      match ram.trap.kept i with
      | none => (false, ram, out)
      | some kept =>
        takePages rest { ram with trap := { ram.trap with
            kept := Function.update ram.trap.kept i none
            keptBytes := ram.trap.keptBytes - pageLen ram.size i } }
          (out ++ kept)

/-- Appends to `out` the pages from `start` up to `stop`; false if the trap is another one. -/
def trapTake (ram : Ram) (epoch start stop : ℕ) (out : List Byte) : Bool × Ram × List Byte :=
  if ram.trap.epoch ≠ epoch then (false, ram, out)
  else takePages (range' start (min stop ram.pages - start)) ram out

/-- A watched page that is written. -/
def touchPage (state : Watch × Bool) (i : ℕ) : Watch × Bool :=
  let watch := state.1
  if Bitmap.test watch.code i then
    ({ watch with
        code := Bitmap.clear watch.code i
        watched := watch.watched - 1
        dirty := watch.dirty.mapIdx fun consumer list =>
          if consumer < watch.consumers then list ++ [ramBase / pageSize + i] else list },
      true)
  else state

/-- Marks the pages of a write dirty; true if one of them was watched. -/
def touch (ram : Ram) (o len : ℕ) : Bool × Ram :=
  if ram.watch.watched = 0 ∨ len = 0 then (false, ram)
  else
    let touched := (pagesOf o len).foldl touchPage (ram.watch, false)
    (touched.2, { ram with watch := touched.1 })

/-- Offset of `len` bytes at `pa`, if they are inside the RAM. -/
def range (ram : Ram) (pa len : ℕ) : Option ℕ :=
  if ramBase ≤ pa ∧ pa - ramBase + len ≤ ram.size then some (pa - ramBase) else none

def store (ram : Ram) (o : ℕ) (data : List Byte) : Ram :=
  { ram with bytes := writeAt ram.bytes o data }

/-- A write that also says whether it touched watched code. -/
def writeWatched (ram : Ram) (pa : ℕ) (data : List Byte) : Option Bool × Ram :=
  match ram.range pa data.length with
  | none => (none, ram)
  | some o =>
    let touched := ((ram.beforeWrite o data.length).store o data).touch o data.length
    (some touched.1, touched.2)

def write (ram : Ram) (pa : ℕ) (data : List Byte) : Bool × Ram :=
  let written := ram.writeWatched pa data
  (written.1.isSome, written.2)

/-- Compare-and-exchange of 1, 2, 4 or 8 aligned bytes. -/
def cmpxchg (ram : Ram) (pa : ℕ) (old new : List Byte) : Option Bool × Ram :=
  let n := old.length
  if n ≠ new.length ∨ n ∉ [1, 2, 4, 8] ∨ pa % n ≠ 0 then (none, ram)
  else
    match ram.range pa n with
    | none => (none, ram)
    | some o =>
      let ram := ram.beforeWrite o n
      if slice ram.bytes o (o + n) = old then
        (some true, ((ram.store o new).touch o n).2)
      else (some false, ram)

/-- A write of the software TLB of a JIT, straight to the bytes: it has the pages only for
which `writeTrapped` says no. -/
def writeDirect (ram : Ram) (pa : ℕ) (data : List Byte) : Ram :=
  match ram.range pa data.length with
  | none => ram
  | some o =>
    if data ≠ [] ∧ ∃ i ∈ pagesOf o data.length, ram.writeTrapped (ramBase / pageSize + i) then ram
    else ram.store o data

/-- A block of a snapshot that is decoded into the RAM. -/
def restoreBlock (bytes : List Byte) (block : ℕ × List Byte) : List Byte :=
  if block.1 < pageCount bytes.length ∧ block.2.length = pageLen bytes.length block.1 then
    writeAt bytes (block.1 * pageSize) block.2
  else bytes

/-- Restores the RAM. `blocks` are those that were decoded up to the end of the section, or
up to the error that makes the restore fail. -/
def restoreFrom (ram : Ram) (blocks : List (ℕ × List Byte)) (ok : Bool) : Ram :=
  -- a deferred save in progress no longer describes this RAM
  let ram := { ram with trap := { ram.trap with epoch := ram.trap.epoch + 1 } }.trapDisarm
  let ram := { ram with bytes := blocks.foldl restoreBlock ram.bytes }
  if ok then
    let absent := (List.range ram.pages).filter fun i => i ∉ blocks.map Prod.fst
    let bytes := absent.foldl
      (fun bytes i => restoreBlock bytes (i, List.replicate (pageLen bytes.length i) 0)) ram.bytes
    (Ram.touch { ram with bytes } 0 ram.size).2
  else ram

end Ram

end Vetro.Board
