import Vetro.Snapshot.Blocks

/-!
# Writing a snapshot

`vetro-snapshot/src/lib.rs`, the writer.  A normal writer compresses large data
as it comes and fills in the length of a section when the section ends.  A
deferred writer copies large data as it is and notes in marks where the data is
and where section lengths go.  A `Script` is a sequence of writer operations;
both writers are described by what they append for it.
-/

namespace Vetro.Save

open Bytes
open Splice
open Outcome
open Format
open Blocks (Level encode)

/-! ## Model -/

/-- What a position of the raw stream holds: the length of a section whose
content ends at `stop`, or `len` bytes of large data. -/
inductive Mark where
  | lengthField (start stop : ℕ)
  | blocks (start len : ℕ)
  deriving Repr, DecidableEq

def Mark.start : Mark → ℕ
  | .lengthField start _ => start
  | .blocks start _ => start

/-- What the assembler needs besides the raw stream. -/
structure Plan where
  configHash : ℕ
  marks : List Mark
  rawLen : ℕ
  deriving Repr, DecidableEq

/-- The four bytes that name a section. -/
structure Tag where
  bytes : List Byte
  length_eq : bytes.length = 4

/-- Write buffer: everything little endian, fixed width.  A deferred writer has
marks. -/
structure Writer where
  buf : List Byte
  level : Level
  marks : Option (List Mark)

namespace Writer

def new : Writer := ⟨[], .fast, none⟩

def deferred : Writer := ⟨[], .fast, some []⟩

/-- Bytes without a length. -/
def raw (w : Writer) (b : List Byte) : Writer := { w with buf := w.buf ++ b }

def u8 (w : Writer) (v : UInt8) : Writer := w.raw [v]
def u16 (w : Writer) (v : UInt16) : Writer := w.raw (leBytes 2 v.toNat)
def u32 (w : Writer) (v : UInt32) : Writer := w.raw (leBytes 4 v.toNat)
def u64 (w : Writer) (v : UInt64) : Writer := w.raw (leBytes 8 v.toNat)
def u128 (w : Writer) (v : BitVec 128) : Writer := w.raw (leBytes 16 v.toNat)
def bool (w : Writer) (v : Bool) : Writer := w.raw [if v then 1 else 0]

/-- A length or a number of elements. -/
def lenOf (w : Writer) (n : ℕ) : Writer := w.raw (leBytes 8 n)

/-- Bytes preceded by their length. -/
def bytes (w : Writer) (b : List Byte) : Writer := (w.lenOf b.length).raw b

/-- The start of a section: the tag and room for the length.  Returns where the
length is and, on a deferred writer, the number of the section's mark. -/
def openSection (w : Writer) (tag : Tag) : ℕ × Option ℕ × Writer :=
  let w := w.raw tag.bytes
  let start := w.buf.length
  let w := w.u64 0
  (start, w.marks.map List.length,
    { w with marks := w.marks.map fun m => m ++ [.lengthField start 0] })

/-- The end of a section: its length, and its mark. -/
def closeSection (w : Writer) (start : ℕ) (mark : Option ℕ) : Result Error Writer := do
  require (start + 8 ≤ w.buf.length)
  let len := w.buf.length - start - 8
  let w := { w with buf := writeAt w.buf start (leBytes 8 len) }
  match mark, w.marks with
  | some i, some m => do
    require (i < m.length)
    .ok { w with marks := some (m.set i (.lengthField start w.buf.length)) }
  | _, _ => .ok w

/-- `section`: 4-byte tag, length (u64), content written by `f`. -/
def inSection (w : Writer) (tag : Tag) (f : Writer → Result Error Writer) :
    Result Error Writer := do
  let (start, mark, w) := w.openSection tag
  let w ← f w
  w.closeSection start mark

/-- The last part of a deferred writer's content: a section that holds `len`
bytes of large data, which the caller streams after the writer's bytes. -/
def externalSection (w : Writer) (tag : Tag) (len : ℕ) : Result Error Writer :=
  let w := w.raw tag.bytes
  let start := w.buf.length
  let w := w.u64 0
  match w.marks with
  | none => panic
  | some m => .ok { w with
    marks := some (m ++ [.lengthField start (start + 8 + len), .blocks (start + 8) len]) }

/-- The marks and bytes of a deferred writer, with `extra` bytes streamed after
them. -/
def intoPlan (w : Writer) (configHash extra : ℕ) : Result Error (Plan × List Byte) :=
  match w.marks with
  | none => panic
  | some marks => .ok (⟨configHash, marks, w.buf.length + extra⟩, w.buf)

end Writer

/-- Writes `data` in blocks; a deferred writer copies it. -/
def compress (w : Writer) (data : List Byte) : Result Error Writer :=
  match w.marks with
  | some m => .ok { w with
    buf := w.buf ++ data, marks := some (m ++ [.blocks w.buf.length data.length]) }
  | none => do
    let chunks ← encode w.level data
    .ok (chunks.foldl Writer.raw w)

/-! ## Scripts -/

/-- An operation that appends the same bytes to every writer. -/
inductive Item where
  | u8 (v : UInt8)
  | u16 (v : UInt16)
  | u32 (v : UInt32)
  | u64 (v : UInt64)
  | u128 (v : BitVec 128)
  | bool (v : Bool)
  | lenOf (n : ℕ)
  | raw (b : List Byte)
  | bytes (b : List Byte)

def Writer.put (w : Writer) : Item → Writer
  | .u8 v => w.u8 v
  | .u16 v => w.u16 v
  | .u32 v => w.u32 v
  | .u64 v => w.u64 v
  | .u128 v => w.u128 v
  | .bool v => w.bool v
  | .lenOf n => w.lenOf n
  | .raw b => w.raw b
  | .bytes b => w.bytes b

/-- A sequence of writer operations.  Strings, options and sequences are
written with these (`str`, `opt` and `seq` of the source). -/
inductive Script where
  | done
  | put (item : Item) (rest : Script)
  | nested (tag : Tag) (body rest : Script)
  | compress (data : List Byte) (rest : Script)

def Script.run : Script → Writer → Result Error Writer
  | .done, w => .ok w
  | .put item rest, w => rest.run (w.put item)
  | .nested tag body rest, w => do
    let w ← w.inSection tag body.run
    rest.run w
  | .compress data rest, w => do
    let w ← Save.compress w data
    rest.run w

/-- What is saved: a script, and possibly large data that closes it in a
section of its own and that a deferred writer does not hold. -/
structure Content where
  body : Script
  external : Option (Tag × List Byte)

/-- The payload that a normal writer gives. -/
def Content.payload (content : Content) : Result Error (List Byte) := do
  let w ← content.body.run Writer.new
  match content.external with
  | none => .ok w.buf
  | some (tag, data) => do
    let w ← w.inSection tag fun w => Save.compress w data
    .ok w.buf

/-- The plan and the raw stream that a deferred writer gives. -/
def Content.plan (content : Content) (configHash : ℕ) : Result Error (Plan × List Byte) := do
  let w ← content.body.run Writer.deferred
  match content.external with
  | none => w.intoPlan configHash 0
  | some (tag, data) => do
    let w ← w.externalSection tag data.length
    let (plan, head) ← w.intoPlan configHash data.length
    .ok (plan, head ++ data)

/-! ## A normal writer -/

def Item.encoding : Item → List Byte
  | .u8 v => [v]
  | .u16 v => leBytes 2 v.toNat
  | .u32 v => leBytes 4 v.toNat
  | .u64 v => leBytes 8 v.toNat
  | .u128 v => leBytes 16 v.toNat
  | .bool v => [if v then 1 else 0]
  | .lenOf n => leBytes 8 n
  | .raw b => b
  | .bytes b => leBytes 8 b.length ++ b

theorem Writer.put_eq (w : Writer) (item : Item) : w.put item = w.raw item.encoding := by
  cases item <;> simp [Writer.put, Item.encoding, Writer.u8, Writer.u16, Writer.u32,
    Writer.u64, Writer.u128, Writer.bool, Writer.lenOf, Writer.bytes, Writer.raw]

/-- Large data as a normal writer at `Level::Fast` writes it. -/
def fastText (data : List Byte) : List Byte :=
  match encode .fast data with
  | .ok chunks => chunks.flatten
  | .error _ => []

theorem encode_fast (data : List Byte) :
    ∃ chunks, encode .fast data = .ok chunks ∧ chunks.flatten = fastText data := by
  obtain ⟨chunks, _, _, hencode, _⟩ := Blocks.encode_spec .fast data
  exact ⟨chunks, hencode, by rw [fastText, hencode]⟩

/-- What a normal writer appends for a script. -/
def Script.text : Script → List Byte
  | .done => []
  | .put item rest => item.encoding ++ rest.text
  | .nested tag body rest => tag.bytes ++ leBytes 8 body.text.length ++ body.text ++ rest.text
  | .compress data rest => fastText data ++ rest.text

theorem foldl_raw (chunks : List (List Byte)) (w : Writer) :
    chunks.foldl Writer.raw w = w.raw chunks.flatten := by
  induction chunks generalizing w with
  | nil => simp [Writer.raw]
  | cons chunk chunks ih => simp [ih, Writer.raw]

theorem compress_normal (buf data : List Byte) :
    compress ⟨buf, .fast, none⟩ data = .ok ⟨buf ++ fastText data, .fast, none⟩ := by
  obtain ⟨chunks, hencode, hflatten⟩ := encode_fast data
  simp only [compress, hencode, ok_bind, foldl_raw, hflatten, Writer.raw]

/-- A section whose content is `text`. -/
theorem inSection_normal (tag : Tag) {f : Writer → Result Error Writer} {buf text : List Byte}
    (hf : ∀ buf, f ⟨buf, .fast, none⟩ = .ok ⟨buf ++ text, .fast, none⟩) :
    Writer.inSection ⟨buf, .fast, none⟩ tag f =
      .ok ⟨buf ++ tag.bytes ++ leBytes 8 text.length ++ text, .fast, none⟩ := by
  have hlength : (buf ++ tag.bytes ++ leBytes 8 0 ++ text).length -
      (buf ++ tag.bytes).length - 8 = text.length := by
    simp only [List.length_append, length_leBytes]
    omega
  simp only [Writer.inSection, Writer.openSection, Writer.raw, Writer.u64, Option.map_none,
    hf, ok_bind, Writer.closeSection, UInt64.toNat_zero, hlength]
  rw [require_eq_ok (by simp only [List.length_append, length_leBytes]; omega), ok_bind,
    writeAt_middle _ _ _ _ (by simp only [length_leBytes])]

theorem Script.run_normal (script : Script) (buf : List Byte) :
    script.run ⟨buf, .fast, none⟩ = .ok ⟨buf ++ script.text, .fast, none⟩ := by
  induction script generalizing buf with
  | done => simp [run, text]
  | put item rest ih => simp [run, text, Writer.put_eq, Writer.raw, ih]
  | nested tag body rest ihbody ihrest =>
    simp [run, text, inSection_normal tag ihbody, ihrest]
  | compress data rest ih => simp [run, text, compress_normal, ih]

/-- The payload of a normal save. -/
def Content.text (content : Content) : List Byte :=
  match content.external with
  | none => content.body.text
  | some (tag, data) => content.body.text ++ tag.bytes ++
    leBytes 8 (fastText data).length ++ fastText data

theorem Content.payload_eq (content : Content) : content.payload = .ok content.text := by
  obtain ⟨body, external⟩ := content
  have hbody : body.run Writer.new = .ok ⟨body.text, .fast, none⟩ := body.run_normal []
  cases external with
  | none => simp [payload, text, hbody]
  | some pair =>
    obtain ⟨tag, data⟩ := pair
    have hsection : Writer.inSection ⟨body.text, .fast, none⟩ tag
        (fun w => Save.compress w data) = _ :=
      inSection_normal tag fun buf => compress_normal buf data
    simp only [payload, text, hbody, ok_bind, hsection]

/-! ## A deferred writer -/

/-- The raw bytes of a script: section lengths are those of the raw content. -/
def Script.raw : Script → List Byte
  | .done => []
  | .put item rest => item.encoding ++ rest.raw
  | .nested tag body rest => tag.bytes ++ leBytes 8 body.raw.length ++ body.raw ++ rest.raw
  | .compress data rest => data ++ rest.raw

/-- The marks of a script whose raw bytes start at `pos`. -/
def Script.marks : Script → ℕ → List Mark
  | .done, _ => []
  | .put item rest, pos => rest.marks (pos + item.encoding.length)
  | .nested _ body rest, pos =>
    .lengthField (pos + 4) (pos + 12 + body.raw.length) ::
      (body.marks (pos + 12) ++ rest.marks (pos + 12 + body.raw.length))
  | .compress data rest, pos =>
    .blocks pos data.length :: rest.marks (pos + data.length)

/-- A section of a deferred writer: the mark is patched when its end is
known. -/
theorem inSection_deferred (tag : Tag) {f : Writer → Result Error Writer}
    {buf raw : List Byte} {marks more : List Mark}
    (hf : ∀ buf' marks', buf'.length = buf.length + 12 →
      f ⟨buf', .fast, some marks'⟩ = .ok ⟨buf' ++ raw, .fast, some (marks' ++ more)⟩) :
    Writer.inSection ⟨buf, .fast, some marks⟩ tag f =
      .ok ⟨buf ++ tag.bytes ++ leBytes 8 raw.length ++ raw, .fast,
        some (marks ++ .lengthField (buf.length + 4) (buf.length + 12 + raw.length) :: more)⟩ := by
  have htag := tag.length_eq
  have hstart : (buf ++ tag.bytes).length = buf.length + 4 := by
    rw [List.length_append, htag]
  have hopen : (buf ++ tag.bytes ++ leBytes 8 0).length = buf.length + 12 := by
    rw [List.length_append, hstart, length_leBytes]
  have hend : (buf ++ tag.bytes ++ leBytes 8 0 ++ raw).length =
      buf.length + 12 + raw.length := by
    rw [List.length_append, hopen]
  have hlength : buf.length + 12 + raw.length - (buf.length + 4) - 8 = raw.length := by
    omega
  have hset : ∀ old new : Mark, (marks ++ [old] ++ more).set marks.length new =
      marks ++ new :: more := by
    intro old new
    simp
  have hpatch : writeAt (buf ++ tag.bytes ++ leBytes 8 0 ++ raw) (buf.length + 4)
      (leBytes 8 raw.length) = buf ++ tag.bytes ++ leBytes 8 raw.length ++ raw := by
    rw [← hstart, writeAt_middle _ _ _ _ (by simp only [length_leBytes])]
  have hnew : (buf ++ tag.bytes ++ leBytes 8 raw.length ++ raw).length =
      buf.length + 12 + raw.length := by
    simp only [List.length_append, htag, length_leBytes]
  simp only [Writer.inSection, Writer.openSection, Writer.raw, Writer.u64, Option.map_some,
    UInt64.toNat_zero]
  rw [hf _ _ hopen, ok_bind]
  simp only [Writer.closeSection, hstart, hend, hlength, hpatch]
  rw [require_eq_ok (by omega), ok_bind, require_eq_ok (by simp), ok_bind, hset, hnew]

theorem Script.run_deferred (script : Script) (buf : List Byte) (marks : List Mark) :
    script.run ⟨buf, .fast, some marks⟩ =
      .ok ⟨buf ++ script.raw, .fast, some (marks ++ script.marks buf.length)⟩ := by
  induction script generalizing buf marks with
  | done => simp [run, raw, Script.marks]
  | put item rest ih => simp [run, raw, Script.marks, Writer.put_eq, Writer.raw, ih]
  | nested tag body rest ihbody ihrest =>
    have hsection := @inSection_deferred tag body.run buf body.raw marks
      (body.marks (buf.length + 12)) fun buf' marks' hlength => by
        rw [ihbody, hlength]
    simp only [run, hsection, ok_bind, ihrest, raw, Script.marks, List.length_append,
      tag.length_eq, length_leBytes]
    simp [Nat.add_assoc]
  | compress data rest ih => simp [run, raw, Script.marks, Save.compress, ih]

/-- The raw stream of a deferred save. -/
def Content.raw (content : Content) : List Byte :=
  match content.external with
  | none => content.body.raw
  | some (tag, data) => content.body.raw ++ tag.bytes ++ leBytes 8 0 ++ data

/-- The marks of a deferred save. -/
def Content.marks (content : Content) : List Mark :=
  match content.external with
  | none => content.body.marks 0
  | some (_, data) =>
    let start := content.body.raw.length + 4
    content.body.marks 0 ++
      [.lengthField start (start + 8 + data.length), .blocks (start + 8) data.length]

theorem Content.plan_eq (content : Content) (configHash : ℕ) :
    content.plan configHash =
      .ok (⟨configHash, content.marks, content.raw.length⟩, content.raw) := by
  obtain ⟨body, external⟩ := content
  have hbody : body.run Writer.deferred = .ok ⟨body.raw, .fast, some (body.marks 0)⟩ :=
    body.run_deferred [] []
  cases external with
  | none => simp [plan, marks, raw, hbody, Writer.intoPlan]
  | some pair =>
    obtain ⟨tag, data⟩ := pair
    simp [plan, marks, raw, hbody, Writer.externalSection, Writer.raw, Writer.u64,
      Writer.intoPlan, tag.length_eq]
    omega

end Vetro.Save
