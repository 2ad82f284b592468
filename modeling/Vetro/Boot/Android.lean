import Vetro.Boot.Plan
import Vetro.Core.Outcome

/-!
# Android boot images

`vetro-machine/src/android/mod.rs`: `boot.img` (header v0 to v4), `init_boot.img` and
`vendor_boot.img` cut into their sections.  Sizes and, for one section, a 64-bit
offset come from the image; sums wrap, as in a release build, and a range that is
not in the image panics.
-/

namespace Vetro.Android

open Bytes Splice Outcome Boot

/-- Which image, for the errors. -/
inductive Which where
  | boot
  | vendorBoot
  | initBoot
  deriving Repr, DecidableEq

inductive AndroidError where
  | truncated (w : Which)
  | badMagic (w : Which)
  | unsupportedVersion (w : Which) (version : ℕ)
  | badPageSize (w : Which) (page : ℕ)
  | outOfBounds (w : Which) (what : String)
  | badRamdiskTable (message : String)
  | badInitBoot (message : String)
  deriving Repr, DecidableEq

/-- `ANDROID!`. -/
def bootMagic : List Byte := [0x41, 0x4e, 0x44, 0x52, 0x4f, 0x49, 0x44, 0x21]

/-- `VNDRBOOT`. -/
def vendorBootMagic : List Byte := [0x56, 0x4e, 0x44, 0x52, 0x42, 0x4f, 0x4f, 0x54]

def bootV3PageSize : ℕ := 4096

/-- The header of a `boot.img` of version 0, 1 or 2. -/
def bootV0Header (version : ℕ) : ℕ :=
  if version = 0 then 1632 else if version = 1 then 1648 else 1660

def bootV3Header (version : ℕ) : ℕ := if version = 3 then 1580 else 1584

def vendorV3Header : ℕ := 2112

def vendorV4Header : ℕ := 2128

/-- Minimum size of an entry of the ramdisk table. -/
def ramdiskEntryV4 : ℕ := 108

/-- `bytes[start..stop]`. -/
def sub (bytes : List Byte) (start stop : ℕ) : Result AndroidError (List Byte) :=
  if start ≤ stop ∧ stop ≤ bytes.length then .ok (slice bytes start stop) else panic

/-- The little-endian number of `width` bytes at `off`. -/
def field (bytes : List Byte) (width off : ℕ) : Result AndroidError ℕ := do
  let found ← sub bytes off (off + width)
  .ok (ofLeBytes found)

def le32 (bytes : List Byte) (off : ℕ) : Result AndroidError ℕ := field bytes 4 off

def le64 (bytes : List Byte) (off : ℕ) : Result AndroidError ℕ := field bytes 8 off

/-- Bytes up to a NUL. -/
def cstr (bytes : List Byte) : List Byte := bytes.takeWhile (· ≠ 0)

def roundUp (n page : ℕ) : ℕ := alignUp n page

/-- Section `[off, off + len)` of the image, and the page after it. -/
def take (img : List Byte) (off len page : ℕ) (w : Which) (what : String) :
    Result AndroidError (List Byte × ℕ) :=
  let stop := add64 off len
  if img.length < stop then fail (.outOfBounds w what)
  else do
    let found ← sub img off stop
    .ok (found, roundUp stop page)

/-- The last section, which only one version has; its length is at `lenAt`. -/
def takeWhen (present : Bool) (img : List Byte) (off lenAt page : ℕ) (w : Which) (what : String) :
    Result AndroidError (List Byte) :=
  if present then do
    let (found, _) ← take img off (← le32 img lenAt) page w what
    .ok found
  else .ok []

def checkPage (w : Which) (page : ℕ) : Result AndroidError Unit :=
  if page ∈ [2048, 4096, 8192, 16384] then .ok () else fail (.badPageSize w page)

structure OsVersion where
  major : ℕ
  minor : ℕ
  patch : ℕ
  year : ℕ
  month : ℕ
  deriving Repr, DecidableEq

def OsVersion.fromRaw (v : ℕ) : OsVersion :=
  let ver := v >>> 11
  let lvl := v &&& 0x7ff
  { major := (ver >>> 14) % 256 &&& 0x7f
    minor := (ver >>> 7) % 256 &&& 0x7f
    patch := ver % 256 &&& 0x7f
    year := if lvl = 0 then 0 else 2000 + (lvl >>> 4)
    month := lvl &&& 0xf }

/-- A `boot.img` or `init_boot.img` as read. -/
structure BootImage where
  headerVersion : ℕ
  pageSize : ℕ
  kernel : List Byte
  ramdisk : List Byte
  second : List Byte
  recoveryDtbo : List Byte
  dtb : List Byte
  cmdline : List Byte
  name : List Byte
  osVersion : OsVersion
  signature : List Byte
  deriving Repr, DecidableEq

namespace BootImage

/-- The `recovery_dtbo` of v1 and v2 has an offset of its own; `off` stays after it. -/
def takeDtbo (img : List Byte) (version off page : ℕ) (w : Which) :
    Result AndroidError (List Byte × ℕ) :=
  if version < 1 then .ok ([], off)
  else do
    let size ← le32 img 1632
    let start ← le64 img 1636
    if size = 0 then .ok ([], off)
    else do
      let (found, after) ← take img start size page w "recovery_dtbo"
      .ok (found, max off after)

def parseV0 (img : List Byte) (version : ℕ) (w : Which) : Result AndroidError BootImage :=
  let hdr := bootV0Header version
  if img.length < hdr then fail (.truncated w)
  else do
    let page ← le32 img 36
    checkPage w page
    let (kernel, off) ← take img (roundUp hdr page) (← le32 img 8) page w "kernel"
    let (ramdisk, off) ← take img off (← le32 img 16) page w "ramdisk"
    let (second, off) ← take img off (← le32 img 24) page w "second"
    let (recoveryDtbo, off) ← takeDtbo img version off page w
    let dtb ← takeWhen (version = 2) img off 1648 page w "dtb"
    let cmdline ← sub img 64 576
    let extra ← sub img 608 1632
    let name ← sub img 48 64
    let os ← le32 img 44
    .ok ⟨version, page, kernel, ramdisk, second, recoveryDtbo, dtb, cstr cmdline ++ cstr extra,
      cstr name, .fromRaw os, []⟩

def parseV3 (img : List Byte) (version : ℕ) (w : Which) : Result AndroidError BootImage :=
  if img.length < bootV3Header version then fail (.truncated w)
  else do
    let page := bootV3PageSize
    let (kernel, off) ← take img page (← le32 img 8) page w "kernel"
    let (ramdisk, off) ← take img off (← le32 img 12) page w "ramdisk"
    let signature ← takeWhen (version = 4) img off 1580 page w "boot_signature"
    let cmdline ← sub img 44 1580
    let os ← le32 img 16
    .ok ⟨version, page, kernel, ramdisk, [], [], [], cstr cmdline, [], .fromRaw os, signature⟩

def parseAs (img : List Byte) (w : Which) : Result AndroidError BootImage :=
  if img.length < 44 then fail (.truncated w)
  else do
    let magic ← sub img 0 8
    if magic ≠ bootMagic then fail (.badMagic w)
    else do
      let version ← le32 img 40
      if version ≤ 2 then parseV0 img version w
      else if version = 3 ∨ version = 4 then parseV3 img version w
      else fail (.unsupportedVersion w version)

def parse (img : List Byte) : Result AndroidError BootImage := parseAs img .boot

/-- `init_boot.img`: a v4 header without a kernel. -/
def parseInitBoot (img : List Byte) : Result AndroidError BootImage := do
  let b ← parseAs img .initBoot
  if b.headerVersion < 4 then fail (.badInitBoot "header older than version 4")
  else if b.kernel ≠ [] then fail (.badInitBoot "contains a kernel")
  else .ok b

end BootImage

inductive RamdiskType where
  | none
  | platform
  | recovery
  | dlkm
  | other (raw : ℕ)
  deriving Repr, DecidableEq

def RamdiskType.fromRaw : ℕ → RamdiskType
  | 0 => .none
  | 1 => .platform
  | 2 => .recovery
  | 3 => .dlkm
  | raw => .other raw

structure VendorRamdisk where
  kind : RamdiskType
  name : List Byte
  boardId : List ℕ
  data : List Byte
  deriving Repr, DecidableEq

structure VendorBoot where
  headerVersion : ℕ
  pageSize : ℕ
  cmdline : List Byte
  name : List Byte
  ramdiskSection : List Byte
  ramdisks : List VendorRamdisk
  dtb : List Byte
  bootconfig : List Byte
  deriving Repr, DecidableEq

namespace VendorBoot

/-- An entry of the ramdisk table; numbers of 32 bits do not wrap a sum of 64. -/
def entry (ramdiskSection e : List Byte) : Result AndroidError VendorRamdisk := do
  let size ← le32 e 0
  let start ← le32 e 4
  if ramdiskSection.length < start + size then
    fail (.badRamdiskTable "ramdisk outside the section")
  else do
    let boardId ← (List.range 16).mapM fun i => le32 e (44 + 4 * i)
    let kind ← le32 e 8
    let name ← sub e 12 44
    .ok ⟨.fromRaw kind, cstr name, boardId, slice ramdiskSection start (start + size)⟩

/-- The ramdisks and the bootconfig of a v4 image, from `off` on. -/
def table (img ramdiskSection : List Byte) (off page : ℕ) (w : Which) :
    Result AndroidError (List VendorRamdisk × List Byte) := do
  let tableSize ← le32 img 2112
  let num ← le32 img 2116
  let entrySize ← le32 img 2120
  let (table, off) ← take img off tableSize page w "ramdisk table"
  let (bootconfig, _) ← take img off (← le32 img 2124) page w "bootconfig"
  if 0 < num ∧ entrySize < ramdiskEntryV4 then
    fail (.badRamdiskTable "entries shorter than 108 bytes")
  else if table.length < num * entrySize then
    fail (.badRamdiskTable "more entries than fit in the table")
  else do
    let ramdisks ← ((asChunks (max entrySize 1) table).1.take num).mapM (entry ramdiskSection)
    .ok (ramdisks, bootconfig)

/-- The whole section in v3, the entries of the table in v4. -/
def ramdisksOf (img : List Byte) (version : ℕ) (ramdiskSection : List Byte) (off page : ℕ)
    (w : Which) : Result AndroidError (List VendorRamdisk × List Byte) :=
  if version = 3 then .ok ([⟨.platform, [], List.replicate 16 0, ramdiskSection⟩], [])
  else table img ramdiskSection off page w

def parse (img : List Byte) : Result AndroidError VendorBoot :=
  let w := Which.vendorBoot
  if img.length < 12 then fail (.truncated w)
  else do
    let magic ← sub img 0 8
    if magic ≠ vendorBootMagic then fail (.badMagic w)
    else do
      let version ← le32 img 8
      if version ≠ 3 ∧ version ≠ 4 then fail (.unsupportedVersion w version)
      else
        let hdr := if version = 3 then vendorV3Header else vendorV4Header
        if img.length < hdr then fail (.truncated w)
        else do
          let page ← le32 img 12
          checkPage w page
          let (ramdiskSection, off) ←
            take img (roundUp hdr page) (← le32 img 24) page w "vendor ramdisk"
          let (dtb, off) ← take img off (← le32 img 2100) page w "dtb"
          let (ramdisks, bootconfig) ← ramdisksOf img version ramdiskSection off page w
          let cmdline ← sub img 28 2076
          let name ← sub img 2080 2096
          .ok ⟨version, page, cstr cmdline, cstr name, ramdiskSection, ramdisks, dtb, bootconfig⟩

end VendorBoot

end Vetro.Android
