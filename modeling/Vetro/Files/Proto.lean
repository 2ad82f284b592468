import Mathlib.Data.List.Basic
import Vetro.Core.Bytes

/-!
# The `vetro-files` protocol

Requests as bytes, the frames of the daemon and the bodies of its replies.  A
frame is a length, a type, an id and a body, in little endian.  Texts that the
source takes with `from_utf8_lossy` stay bytes here, since nothing looks at them.
-/

namespace Vetro.Files

open Bytes

def PORT : ℕ := 5200
/-- "VTRF" in little endian. -/
def MAGIC : ℕ := ofLeBytes [0x56, 0x54, 0x52, 0x46]
def VERSION : ℕ := 2
def MIN_VERSION : ℕ := 1
def MAX_FRAME : ℕ := 64 * 2 ^ 20
def CHUNK : ℕ := 256 * 2 ^ 10

inductive Kind where
  | other
  | file
  | dir
  | symlink
  | char
  | block
  | fifo
  | socket
  deriving Repr, DecidableEq

def Kind.fromU8 (v : ℕ) : Kind :=
  match v with
  | 1 => .file
  | 2 => .dir
  | 3 => .symlink
  | 4 => .char
  | 5 => .block
  | 6 => .fifo
  | 7 => .socket
  | _ => .other

structure Stat where
  kind : Kind
  mode : ℕ
  uid : ℕ
  gid : ℕ
  size : ℕ
  mtimeS : ℕ
  mtimeNs : ℕ
  nlink : ℕ
  link : List Byte
  selinux : List Byte
  deriving Repr, DecidableEq

structure Entry where
  name : List Byte
  stat : Stat
  deriving Repr, DecidableEq

/-- An inotify event. -/
structure Event where
  wd : ℕ
  mask : ℕ
  cookie : ℕ
  name : List Byte
  deriving Repr, DecidableEq

/-- The greeting of the daemon. -/
structure Hello where
  version : ℕ
  flags : ℕ
  maxChunk : ℕ
  deriving Repr, DecidableEq

inductive Frame where
  | hello (h : Hello)
  | reply (id status : ℕ) (body : List Byte)
  | event (e : Event)
  deriving Repr, DecidableEq

/-- A value of SQLite; integers and reals are their 64 bits. -/
inductive SqlValue where
  | null
  | int (bits : ℕ)
  | real (bits : ℕ)
  | text (bytes : List Byte)
  | blob (bytes : List Byte)
  deriving Repr, DecidableEq

structure SqlResult where
  changes : ℕ
  lastRowid : ℕ
  truncated : Bool
  columns : List (List Byte)
  rows : List (List SqlValue)
  deriving Repr, DecidableEq

inductive Request where
  | stat (path : List Byte)
  | list (path : List Byte)
  | read (path : List Byte) (offset len : ℕ)
  | wOpen (handle : ℕ) (path : List Byte) (mode : ℕ) (excl : Bool)
  | wData (handle offset : ℕ) (data : List Byte)
  | wCommit (handle : ℕ)
  | wAbort (handle : ℕ)
  | mkdir (path : List Byte) (mode : ℕ)
  | create (path : List Byte) (mode : ℕ)
  | delete (path : List Byte) (recursive : Bool)
  | rename (source target : List Byte)
  | watch (path : List Byte)
  | unwatch (wd : ℕ)
  | sql (path statements : List Byte) (params : List SqlValue) (expect : Option ℕ) (readonly : Bool)
  deriving Repr, DecidableEq

/-! ## Writing -/

namespace W

def str (s : List Byte) : List Byte :=
  let b := s.take 0xffff
  leBytes 2 b.length ++ b

def bytes (b : List Byte) : List Byte := leBytes 4 b.length ++ b

def bool (b : Bool) : List Byte := leBytes 1 b.toNat

def value : SqlValue → List Byte
  | .null => leBytes 1 0
  | .int bits => leBytes 1 1 ++ leBytes 8 bits
  | .real bits => leBytes 1 2 ++ leBytes 8 bits
  | .text b => leBytes 1 3 ++ bytes b
  | .blob b => leBytes 1 4 ++ bytes b

/-- Length, type and id before the body. -/
def frame (ty id : ℕ) (body : List Byte) : List Byte :=
  let rest := leBytes 1 ty ++ leBytes 4 id ++ body
  leBytes 4 rest.length ++ rest

end W

def Request.ty : Request → ℕ
  | .stat .. => 1
  | .list .. => 2
  | .read .. => 3
  | .wOpen .. => 4
  | .wData .. => 5
  | .wCommit .. => 6
  | .wAbort .. => 7
  | .mkdir .. => 8
  | .create .. => 9
  | .delete .. => 10
  | .rename .. => 11
  | .watch .. => 12
  | .unwatch .. => 13
  | .sql .. => 14

def Request.body : Request → List Byte
  | .stat path | .list path | .watch path => W.str path
  | .read path offset len => W.str path ++ leBytes 8 offset ++ leBytes 4 len
  | .wOpen handle path mode excl =>
    leBytes 4 handle ++ W.str path ++ leBytes 4 mode ++ W.bool excl
  | .wData handle offset data => leBytes 4 handle ++ leBytes 8 offset ++ W.bytes data
  | .wCommit handle | .wAbort handle => leBytes 4 handle
  | .mkdir path mode | .create path mode => W.str path ++ leBytes 4 mode
  | .delete path recursive => W.str path ++ W.bool recursive
  | .rename source target => W.str source ++ W.str target
  | .unwatch wd => leBytes 4 wd
  | .sql path statements params expect readonly =>
    W.str path ++ W.bool readonly ++ leBytes 4 (expect.getD (2 ^ 32 - 1)) ++
      W.bytes statements ++ leBytes 2 (min params.length 0xffff) ++
      (params.take 0xffff).flatMap W.value

def Request.encode (r : Request) (id : ℕ) : List Byte := W.frame r.ty id r.body

/-! ## Reading -/

/-- The bytes of a frame and how many of them have been read. -/
structure R where
  b : List Byte
  pos : ℕ
  deriving Repr, DecidableEq

/-- Reads from a frame, or says what is wrong with it. -/
abbrev Reads := StateT R (Except String)

/-- A number as the source prints it with `{:#x}`. -/
def hex (n : ℕ) : String := "0x" ++ String.ofList (Nat.toDigits 16 n)

namespace R

def take (n : ℕ) : Reads (List Byte) := fun r =>
  let len := r.b.length
  let needed := r.pos + n
  if len - r.pos < n then .error s!"short frame ({len} bytes, {needed} needed)"
  else .ok ((r.b.drop r.pos).take n, { r with pos := r.pos + n })

def le (width : ℕ) : Reads ℕ := ofLeBytes <$> take width

def u8 : Reads ℕ := le 1
def u16 : Reads ℕ := le 2
def u32 : Reads ℕ := le 4
def u64 : Reads ℕ := le 8

/-- A text or a name: both are bytes. -/
def name : Reads (List Byte) := do take (← u16)

def bytes : Reads (List Byte) := do take (← u32)

def value : Reads SqlValue := do
  match ← u8 with
  | 0 => return .null
  | 1 => return .int (← u64)
  | 2 => return .real (← u64)
  | 3 => return .text (← bytes)
  | 4 => return .blob (← bytes)
  | t => throw s!"SQL value of type {t}"

/-- Nothing is left. -/
def done : Reads Unit := fun r =>
  let extra := r.b.length - r.pos
  if r.pos ≠ r.b.length then .error s!"{extra} extra bytes in the frame" else .ok ((), r)

def stat : Reads Stat := do
  return {
    kind := Kind.fromU8 (← u8)
    mode := ← u32
    uid := ← u32
    gid := ← u32
    size := ← u64
    mtimeS := ← u64
    mtimeNs := ← u32
    nlink := ← u32
    link := ← name
    selinux := ← name }

/-- The same read `n` times. -/
def times {A : Type} (read : Reads A) : ℕ → Reads (List A)
  | 0 => return []
  | n + 1 => do
    let first ← read
    let rest ← times read n
    return first :: rest

/-- Reads the whole of `b`. -/
def whole {A : Type} (read : Reads A) (b : List Byte) : Except String A :=
  Prod.fst <$> (do let a ← read; done; return a : Reads A).run ⟨b, 0⟩

end R

def parseStat (body : List Byte) : Except String Stat := R.whole R.stat body

def parseList (body : List Byte) : Except String (List Entry) :=
  R.whole (do
    let n ← R.u32
    let len := body.length
    if n > len / 45 then throw s!"list of {n} entries in {len} bytes"
    R.times (do return { name := ← R.name, stat := ← R.stat }) n) body

def parseRead (body : List Byte) : Except String (ℕ × List Byte) :=
  R.whole (do return (← R.u64, ← R.bytes)) body

/-- The rows, or the code and message of SQLite. -/
def parseSql (body : List Byte) : Except String (Except (ℕ × List Byte) SqlResult) :=
  R.whole (do
    let code ← R.u32
    let message ← R.name
    if code ≠ 0 then return .error (code, message)
    let changes ← R.u64
    let lastRowid ← R.u64
    let truncated := (← R.u8) != 0
    let ncols ← R.u16
    let columns ← R.times R.name ncols
    let nrows ← R.u32
    let len := body.length
    if ncols > 0 ∧ nrows > len / ncols then throw s!"{nrows} rows of {ncols} columns in {len} bytes"
    let rows ← R.times (R.times R.value ncols) nrows
    return .ok { changes, lastRowid, truncated, columns, rows }) body

def parseWatch (body : List Byte) : Except String ℕ := R.whole R.u32 body

/-! ## Frames -/

/-- The bytes of the daemon and how many of them have been taken. -/
structure Decoder where
  buf : List Byte
  pos : ℕ
  deriving Repr, DecidableEq

namespace Decoder

def default : Decoder := ⟨[], 0⟩

def push (d : Decoder) (bytes : List Byte) : Decoder :=
  if 0 < d.pos ∧ d.pos = d.buf.length then ⟨bytes, 0⟩ else { d with buf := d.buf ++ bytes }

def pending (d : Decoder) : ℕ := d.buf.length - d.pos

def parse (frame : List Byte) : Except String Frame :=
  Prod.fst <$> (do
    let t ← R.u8
    let id ← R.u32
    match t with
    | 0x80 =>
      let magic ← R.u32
      let text := hex magic
      if magic ≠ MAGIC then throw s!"greeting with magic {text}"
      let h : Hello := { version := ← R.u16, flags := ← R.u16, maxChunk := ← R.u32 }
      R.done
      return .hello h
    | 0x81 =>
      let status ← R.u32
      return .reply id status (frame.drop (← get).pos)
    | 0x82 =>
      let e : Event := { wd := ← R.u32, mask := ← R.u32, cookie := ← R.u32, name := ← R.name }
      R.done
      return .event e
    | t =>
      let text := hex t
      throw s!"frame of type {text}" : Reads Frame).run ⟨frame, 0⟩

/-- The next complete frame, if any. -/
def nextFrame (d : Decoder) : Option (Except String Frame × Decoder) :=
  let rest := d.buf.drop d.pos
  if rest.length < 4 then none
  else
    let len := ofLeBytes (rest.take 4)
    if ¬ (5 ≤ len ∧ len ≤ MAX_FRAME) then some (.error s!"frame {len} bytes long", d)
    else if rest.length < 4 + len then none
    else
      let out := parse ((rest.drop 4).take len)
      let pos := d.pos + (4 + len)
      some (out, if pos > 2 ^ 20 then ⟨d.buf.drop pos, 0⟩ else { d with pos })

/-- A frame uses up bytes. -/
theorem pending_nextFrame {d d' : Decoder} {frame : Frame}
    (hnext : d.nextFrame = some (.ok frame, d')) : d'.pending < d.pending := by
  unfold nextFrame at hnext
  dsimp only at hnext
  split at hnext
  · cases hnext
  · split at hnext
    · cases hnext
    · split at hnext
      · cases hnext
      · rename_i hrest
        obtain ⟨_, rfl⟩ := Prod.mk.inj (Option.some.inj hnext)
        rw [List.length_drop] at hrest
        unfold pending
        split
        · rw [List.length_drop]
          omega
        · dsimp only
          omega

end Decoder

end Vetro.Files
