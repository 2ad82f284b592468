import Vetro.Board.Ram

/-!
# Boot layout of a Linux kernel

`vetro-machine/src/boot.rs`: from the header of an arm64 `Image` and the lengths of
the initramfs and of the device tree, where each piece goes in RAM.  The sums are
of 64 bits and wrap, as in a release build; all fields of the header are the
image's choice.
-/

namespace Vetro.Boot

open Bytes Splice Option

def kib : ℕ := 1024

def mib : ℕ := 1024 * kib

def headerLen : ℕ := 64

/-- `ARM\x64`. -/
def magic : ℕ := 0x644d5241

def maxDtb : ℕ := 2 * mib

def legacyTextOffset : ℕ := 0x80000

def bootloaderMax : ℕ := 4 * kib

def page : ℕ := 4 * kib

/-- Page granule that the kernel declares. -/
inductive PageSize where
  | unspecified
  | k4
  | k16
  | k64
  deriving Repr, DecidableEq

structure ImageHeader where
  textOffset : ℕ
  imageSize : ℕ
  flags : ℕ
  pageSize : PageSize
  physAnywhere : Bool
  deriving Repr, DecidableEq

inductive BootError where
  | truncated
  | badMagic (found : ℕ)
  | bigEndian
  | unsupportedPageSize (size : PageSize)
  | misalignedRam (base : ℕ)
  | dtbTooLarge (len : ℕ)
  | doesNotFit (what : String)
  deriving Repr, DecidableEq

def le64 (bytes : List Byte) (off : ℕ) : ℕ := ofLeBytes (slice bytes off (off + 8))

def ImageHeader.parse (image : List Byte) : Except BootError ImageHeader :=
  if image.length < headerLen then .error .truncated
  else
    let found := ofLeBytes (slice image 56 60)
    if found ≠ magic then .error (.badMagic found)
    else
      let imageSize := le64 image 16
      let flags := le64 image 24
      -- before 3.17 the offset is not reliable
      let textOffset := if imageSize = 0 then legacyTextOffset else le64 image 8
      if flags &&& 1 ≠ 0 then .error .bigEndian
      else
        let pageSize := match (flags >>> 1) &&& 3 with
          | 0 => PageSize.unspecified
          | 1 => .k4
          | 2 => .k16
          | _ => .k64
        if pageSize = .k16 then .error (.unsupportedPageSize pageSize)
        else .ok ⟨textOffset, imageSize, flags, pageSize, flags &&& 8 ≠ 0⟩

/-- A sum of 64 bits. -/
def add64 (left right : ℕ) : ℕ := (left + right) % 2 ^ 64

structure RamConfig where
  base : ℕ
  size : ℕ
  deriving Repr, DecidableEq

def RamConfig.stop (ram : RamConfig) : ℕ := add64 ram.base ram.size

/-- Physical memory `[addr, addr + len)`. -/
structure Region where
  addr : ℕ
  len : ℕ
  deriving Repr, DecidableEq

def Region.stop (r : Region) : ℕ := add64 r.addr r.len

structure EntryState where
  pc : ℕ
  x : List ℕ
  el : ℕ
  pstate : ℕ
  mmuOn : Bool
  deriving Repr, DecidableEq

def entryPstate : ℕ := 0x3c5

structure BootPlan where
  header : ImageHeader
  kernel : Region
  kernelFootprint : Region
  initrd : Option Region
  dtb : Region
  entry : EntryState
  deriving Repr, DecidableEq

/-- A multiple of `a` that is not below `v`. -/
def up (v a : ℕ) : ℕ := (v + a - 1) / a * a

def alignUp (v a : ℕ) : ℕ := up v a % 2 ^ 64

/-- The kernel stays clear of the boot stub. -/
def kernelOffset (header : ImageHeader) : ℕ :=
  if header.textOffset < bootloaderMax then header.textOffset + 2 * mib else header.textOffset

def plan (ram : RamConfig) (image : List Byte) (initrdLen : Option ℕ) (dtbLen : ℕ) :
    Except BootError BootPlan := do
  let header ← ImageHeader.parse image
  if ram.base % (2 * mib) ≠ 0 then .error (.misalignedRam ram.base)
  else if maxDtb < dtbLen then .error (.dtbTooLarge dtbLen)
  else
    let fileLen := image.length
    let kernel : Region := ⟨add64 ram.base (kernelOffset header), fileLen⟩
    let kernelFootprint : Region := ⟨kernel.addr, max header.imageSize fileLen⟩
    if ram.stop < kernelFootprint.stop then .error (.doesNotFit "kernel")
    else
      let initrdStart := alignUp
        (max (add64 ram.base (min (ram.size / 2) (128 * mib))) kernelFootprint.stop) page
      let initrd := initrdLen.map fun len => (⟨initrdStart, len⟩ : Region)
      if initrd.any fun r => ram.stop < r.stop then .error (.doesNotFit "initramfs")
      else
        let dtb : Region := ⟨alignUp (add64 initrdStart (initrdLen.getD 0)) (2 * mib), dtbLen⟩
        if ram.stop < dtb.stop then .error (.doesNotFit "DTB")
        else .ok ⟨header, kernel, kernelFootprint, initrd, dtb,
          ⟨kernel.addr, [dtb.addr, 0, 0, 0], 1, entryPstate, false⟩⟩

/-- Addresses with the bytes to copy there. -/
def BootPlan.segments (p : BootPlan) (image : List Byte) (initrd : Option (List Byte))
    (dtb : List Byte) : List (ℕ × List Byte) :=
  [(p.kernel.addr, image)] ++
    (match p.initrd, initrd with
      | some r, some bytes => [(r.addr, bytes)]
      | _, _ => []) ++
    [(p.dtb.addr, dtb)]

/-! ## Where the pieces should be -/

def Region.Inside (r : Region) (ram : RamConfig) : Prop :=
  ram.base ≤ r.addr ∧ r.addr + r.len ≤ ram.base + ram.size

def Region.Apart (r s : Region) : Prop := r.addr + r.len ≤ s.addr ∨ s.addr + s.len ≤ r.addr

/-- The pieces are inside the RAM and do not overlap. -/
structure BootPlan.Placed (p : BootPlan) (ram : RamConfig) : Prop where
  kernel : p.kernelFootprint.Inside ram
  initrd : ∀ r ∈ p.initrd, r.Inside ram ∧ p.kernelFootprint.Apart r ∧ r.Apart p.dtb
  dtb : p.dtb.Inside ram
  apart : p.kernelFootprint.Apart p.dtb
  aligned : p.dtb.addr % (2 * mib) = 0

section Layout

variable (ram : RamConfig) (header : ImageHeader) (fileLen : ℕ) (initrdLen : Option ℕ) (dtbLen : ℕ)

/-- The end of the kernel, if sums did not wrap. -/
def kernelEnd : ℕ := ram.base + kernelOffset header + max header.imageSize fileLen

def initrdAt : ℕ :=
  up (max (ram.base + min (ram.size / 2) (128 * mib)) (kernelEnd ram header fileLen)) page

def dtbAt : ℕ := up (initrdAt ram header fileLen + initrdLen.getD 0) (2 * mib)

/-- The end of the whole layout, if sums did not wrap. -/
def planEnd : ℕ := dtbAt ram header fileLen initrdLen + dtbLen

end Layout

/-! ## Alignment -/

theorem le_up (v : ℕ) {a : ℕ} (ha : 0 < a) : v ≤ up v a := by
  have hdiv := Nat.div_add_mod (v + a - 1) a
  have hmod := Nat.mod_lt (v + a - 1) ha
  rw [Nat.mul_comm] at hdiv
  rw [up]
  omega

theorem up_mod (v a : ℕ) : up v a % a = 0 := Nat.mul_mod_left _ _

theorem up_le {v a bound : ℕ} (ha : 0 < a) (hbound : a ∣ bound) (hv : v ≤ bound) :
    up v a ≤ bound := by
  obtain ⟨k, rfl⟩ := hbound
  rw [up, Nat.mul_comm a k]
  refine Nat.mul_le_mul_right a (Nat.lt_succ_iff.mp ((Nat.div_lt_iff_lt_mul ha).mpr ?_))
  rw [Nat.succ_mul, Nat.mul_comm k a]
  omega

/-- An aligned address is exact, or it has wrapped to zero. -/
theorem alignUp_cases {v a : ℕ} (ha : 0 < a) (hdvd : a ∣ 2 ^ 64) (hv : v < 2 ^ 64) :
    alignUp v a = up v a ∧ up v a < 2 ^ 64 ∨ alignUp v a = 0 ∧ up v a = 2 ^ 64 := by
  have hle := up_le ha hdvd (Nat.le_of_lt hv)
  rw [alignUp]
  rcases Nat.lt_or_eq_of_le hle with hlt | heq
  · exact .inl ⟨Nat.mod_eq_of_lt hlt, hlt⟩
  · exact .inr ⟨by rw [heq, Nat.mod_self], heq⟩

/-! ## Accepted plans -/

theorem ImageHeader.textOffset_lt {image : List Byte} {header : ImageHeader}
    (hparse : ImageHeader.parse image = .ok header) : header.textOffset < 2 ^ 64 := by
  have hread : le64 image 8 < 2 ^ 64 :=
    ofLeBytes_lt_of_le 8 (by rw [length_slice]; omega) (by decide)
  rw [ImageHeader.parse] at hparse
  dsimp only at hparse
  split_ifs at hparse
  · cases hparse
    exact show legacyTextOffset < 2 ^ 64 by decide
  · cases hparse
    exact hread

/-- What an accepted plan looks like. -/
theorem plan_eq_ok {ram : RamConfig} {image : List Byte} {initrdLen : Option ℕ} {dtbLen : ℕ}
    {p : BootPlan} (hplan : plan ram image initrdLen dtbLen = .ok p) :
    ∃ header start, ImageHeader.parse image = .ok header ∧ p.header = header ∧
      p.kernel = ⟨add64 ram.base (kernelOffset header), image.length⟩ ∧
      p.kernelFootprint = ⟨p.kernel.addr, max header.imageSize image.length⟩ ∧
      p.kernelFootprint.stop ≤ ram.stop ∧
      start = alignUp (max (add64 ram.base (min (ram.size / 2) (128 * mib)))
        p.kernelFootprint.stop) page ∧
      p.initrd = initrdLen.map (fun len => ⟨start, len⟩) ∧
      (∀ r ∈ p.initrd, r.stop ≤ ram.stop) ∧
      p.dtb = ⟨alignUp (add64 start (initrdLen.getD 0)) (2 * mib), dtbLen⟩ ∧
      p.dtb.stop ≤ ram.stop := by
  rw [plan] at hplan
  cases hparse : ImageHeader.parse image with
  | error error =>
    rw [hparse] at hplan
    cases hplan
  | ok header =>
    rw [hparse] at hplan
    dsimp only [bind, Except.bind] at hplan
    split_ifs at hplan with hbase hdtb hkernel hinitrd hfits
    cases hplan
    refine ⟨header, _, rfl, rfl, rfl, rfl, Nat.le_of_not_lt hkernel, rfl, rfl, ?_, rfl,
      Nat.le_of_not_lt hfits⟩
    intro r hr
    dsimp only at hr
    rw [hr] at hinitrd
    simpa using hinitrd

theorem kernelOffset_lt {image : List Byte} {header : ImageHeader}
    (hparse : ImageHeader.parse image = .ok header) : kernelOffset header < 2 ^ 64 := by
  have hlt := ImageHeader.textOffset_lt hparse
  have hsmall : bootloaderMax + 2 * mib < 2 ^ 64 := by decide
  rw [kernelOffset]
  split_ifs with hlow
  · omega
  · exact hlt

theorem add64_of_lt {left right : ℕ} (hlt : left + right < 2 ^ 64) :
    add64 left right = left + right := Nat.mod_eq_of_lt hlt

section Accepted

variable {ram : RamConfig} {image : List Byte} {initrdLen : Option ℕ} {dtbLen : ℕ} {p : BootPlan}

/-- The positions of the layout follow one another. -/
theorem layout_le (ram : RamConfig) (header : ImageHeader) (fileLen : ℕ) (initrdLen : Option ℕ) :
    kernelEnd ram header fileLen ≤ initrdAt ram header fileLen ∧
      ram.base + min (ram.size / 2) (128 * mib) ≤ initrdAt ram header fileLen ∧
      initrdAt ram header fileLen + initrdLen.getD 0 ≤ dtbAt ram header fileLen initrdLen := by
  have hinitrd := le_up (max (ram.base + min (ram.size / 2) (128 * mib))
    (kernelEnd ram header fileLen)) (show 0 < page by decide)
  exact ⟨(Nat.le_max_right _ _).trans hinitrd, (Nat.le_max_left _ _).trans hinitrd,
    le_up _ (show 0 < 2 * mib by decide)⟩

/-- If no sum wraps, an accepted plan is placed. -/
theorem placed_of_planEnd_lt (hram : ram.base + ram.size < 2 ^ 64)
    (hplan : plan ram image initrdLen dtbLen = .ok p)
    (hend : planEnd ram p.header image.length initrdLen dtbLen < 2 ^ 64) : p.Placed ram := by
  obtain ⟨header, start, -, rfl, hkernel, hfootprint, hkernelFits, hstart, hinitrd, hinitrdFits,
    hdtb, hdtbFits⟩ := plan_eq_ok hplan
  obtain ⟨hfirst, hhalf, hsecond⟩ := layout_le ram p.header image.length initrdLen
  rw [planEnd] at hend
  have hstop : ram.stop = ram.base + ram.size := add64_of_lt hram
  have hkernelEnd : kernelEnd ram p.header image.length =
      ram.base + kernelOffset p.header + max p.header.imageSize image.length := rfl
  rw [hkernel, add64_of_lt (by omega)] at hfootprint
  have hfootprintStop : p.kernelFootprint.stop = kernelEnd ram p.header image.length := by
    rw [hfootprint, hkernelEnd]
    exact add64_of_lt (by dsimp only; omega)
  have hstartEq : start = initrdAt ram p.header image.length := by
    rw [hstart, hfootprintStop, add64_of_lt (by omega), alignUp, ← initrdAt]
    exact Nat.mod_eq_of_lt (by omega)
  have hdtbEq : p.dtb = ⟨dtbAt ram p.header image.length initrdLen, dtbLen⟩ := by
    rw [hdtb, hstartEq, add64_of_lt (by omega), alignUp, ← dtbAt]
    rw [Nat.mod_eq_of_lt (by omega)]
  have hdtbStop : p.dtb.stop = dtbAt ram p.header image.length initrdLen + dtbLen := by
    rw [hdtbEq]
    exact add64_of_lt hend
  rw [hstop] at hkernelFits hdtbFits
  rw [hfootprintStop] at hkernelFits
  rw [hdtbStop] at hdtbFits
  refine ⟨?_, ?_, ?_, ?_, ?_⟩
  · rw [hfootprint]
    exact ⟨Nat.le_add_right _ _, hkernelFits⟩
  · intro r hr
    rw [hinitrd, mem_def] at hr
    obtain ⟨len, hlen, rfl⟩ := map_eq_some_iff.mp hr
    rw [hlen, getD_some] at hsecond
    rw [hfootprint, hdtbEq, hstartEq, hlen]
    refine ⟨⟨?_, ?_⟩, .inl hfirst, .inl hsecond⟩
    · dsimp only
      omega
    · dsimp only
      rw [hlen] at hdtbFits
      omega
  · rw [hdtbEq]
    exact ⟨by dsimp only; omega, hdtbFits⟩
  · rw [hfootprint, hdtbEq]
    exact .inl (by dsimp only; omega)
  · rw [hdtbEq]
    exact up_mod _ _

/-- In RAM that does not start at zero, a plan that is placed has no sum that wraps. -/
theorem planEnd_lt_of_placed (hram : ram.base + ram.size < 2 ^ 64) (hbase : 0 < ram.base)
    (hplan : plan ram image initrdLen dtbLen = .ok p) (hplaced : p.Placed ram) :
    planEnd ram p.header image.length initrdLen dtbLen < 2 ^ 64 := by
  obtain ⟨header, start, hparse, rfl, hkernel, hfootprint, -, hstart, hinitrd, -, hdtb, -⟩ :=
    plan_eq_ok hplan
  have hoffset := kernelOffset_lt hparse
  obtain ⟨hkernelLow, hkernelHigh⟩ := hplaced.kernel
  obtain ⟨hdtbLow, hdtbHigh⟩ := hplaced.dtb
  -- a sum that wraps ends below the start of the RAM
  have haddr : ram.base + kernelOffset p.header < 2 ^ 64 := by
    by_contra hwrap
    rw [hfootprint, hkernel, add64] at hkernelLow
    dsimp only at hkernelLow
    omega
  rw [hfootprint, hkernel, add64_of_lt haddr] at hkernelHigh
  have hkernelEnd : kernelEnd ram p.header image.length ≤ ram.base + ram.size := hkernelHigh
  have hfootprintStop : p.kernelFootprint.stop = kernelEnd ram p.header image.length := by
    rw [hfootprint, hkernel, add64_of_lt haddr]
    exact add64_of_lt (Nat.lt_of_le_of_lt hkernelHigh hram)
  rw [hfootprintStop, add64_of_lt (by omega)] at hstart
  have hnotZero : start ≠ 0 := by
    rintro rfl
    cases hlen : initrdLen with
    | none =>
      rw [hdtb, hlen] at hdtbLow
      exact absurd hdtbLow (Nat.not_le.mpr hbase)
    | some len =>
      rw [hlen] at hinitrd
      have hlow := (hplaced.initrd ⟨0, len⟩ hinitrd).1.1
      exact absurd hlow (Nat.not_le.mpr hbase)
  have hstartEq : start = initrdAt ram p.header image.length := by
    rcases alignUp_cases (show 0 < page by decide) (by decide)
      (show max (ram.base + min (ram.size / 2) (128 * mib)) (kernelEnd ram p.header image.length) <
        2 ^ 64 by omega) with ⟨hexact, -⟩ | ⟨hzero, -⟩
    · exact hstart.trans hexact
    · exact absurd (hstart.trans hzero) hnotZero
  have hsum : initrdAt ram p.header image.length + initrdLen.getD 0 < 2 ^ 64 := by
    rw [← hstartEq]
    cases hlen : initrdLen with
    | none =>
      rw [hstart, getD_none]
      exact Nat.mod_lt _ (by decide)
    | some len =>
      rw [hlen] at hinitrd
      exact Nat.lt_of_le_of_lt (hplaced.initrd ⟨start, len⟩ hinitrd).1.2 hram
  rw [hstartEq, add64_of_lt hsum] at hdtb
  rcases alignUp_cases (show 0 < 2 * mib by decide) (by decide) hsum with ⟨hexact, -⟩ | ⟨hzero, -⟩
  · rw [hdtb, hexact] at hdtbHigh
    exact Nat.lt_of_le_of_lt hdtbHigh hram
  · rw [hdtb, hzero] at hdtbLow
    exact absurd hdtbLow (Nat.not_le.mpr hbase)

/-- The pieces of a plan that is placed are written to the RAM. -/
theorem written_of_placed (hplan : plan ram image initrdLen dtbLen = .ok p)
    (hplaced : p.Placed ram) {board : Board.Ram} (hboard : ram = ⟨Board.ramBase, board.size⟩)
    {initrd : Option (List Byte)} (hinitrd : initrd.map List.length = initrdLen)
    {dtb : List Byte} (hdtb : dtb.length = dtbLen) {x : ℕ × List Byte}
    (hx : x ∈ p.segments image initrd dtb) : (board.write x.1 x.2).1 = true := by
  obtain ⟨header, start, -, rfl, hkernel, hfootprint, -, -, hinitrdAt, -, hdtbAt, -⟩ :=
    plan_eq_ok hplan
  have hwrite {r : Region} (hinside : r.Inside ram) {bytes : List Byte}
      (hlen : bytes.length ≤ r.len) : (board.write r.addr bytes).1 = true := by
    obtain ⟨hlow, hhigh⟩ := hinside
    rw [hboard] at hlow hhigh
    dsimp only at hlow hhigh
    have hrange : board.range r.addr bytes.length = some (r.addr - Board.ramBase) :=
      if_pos ⟨hlow, by omega⟩
    rw [Board.Ram.write, Board.Ram.writeWatched, hrange]
    rfl
  unfold BootPlan.segments at hx
  rw [List.mem_append, List.mem_append] at hx
  rcases hx with (himage | hmiddle) | hlast
  · rw [List.mem_singleton.mp himage]
    have hsame : p.kernelFootprint.addr = p.kernel.addr := by rw [hfootprint]
    rw [← hsame]
    refine hwrite hplaced.kernel ?_
    rw [hfootprint]
    exact Nat.le_max_right _ _
  · cases hbytes : initrd with
    | none =>
      rw [hbytes] at hmiddle
      exact absurd hmiddle (by cases p.initrd <;> exact List.not_mem_nil)
    | some bytes =>
      rw [← hinitrd, hbytes, map_some, map_some] at hinitrdAt
      rw [hbytes, hinitrdAt] at hmiddle
      rw [List.mem_singleton.mp hmiddle]
      exact hwrite (hplaced.initrd _ hinitrdAt).1 (Nat.le_refl _)
  · rw [List.mem_singleton.mp hlast]
    refine hwrite hplaced.dtb ?_
    rw [hdtbAt, hdtb]

/-- An accepted layout is inside the RAM, without overlaps and with an aligned DTB, if its end
computed without wrapping is a 64-bit address, and only then if the RAM does not start at
zero; its pieces are then written without a failed assertion. -/
theorem placed_iff_of_plan (hram : ram.base + ram.size < 2 ^ 64)
    (hplan : plan ram image initrdLen dtbLen = .ok p) :
    (planEnd ram p.header image.length initrdLen dtbLen < 2 ^ 64 → p.Placed ram) ∧
    (0 < ram.base → p.Placed ram → planEnd ram p.header image.length initrdLen dtbLen < 2 ^ 64) ∧
    (p.Placed ram → ∀ (board : Board.Ram) initrd dtb, ram = ⟨Board.ramBase, board.size⟩ →
      initrd.map List.length = initrdLen → dtb.length = dtbLen →
      ∀ x ∈ p.segments image initrd dtb, (board.write x.1 x.2).1 = true) :=
  ⟨placed_of_planEnd_lt hram hplan, fun hbase => planEnd_lt_of_placed hram hbase hplan,
    fun hplaced _ _ _ hboard hinitrd hdtb _ hx =>
      written_of_placed hplan hplaced hboard hinitrd hdtb hx⟩

end Accepted

/-- A header with the given fields. -/
def image (textOffset imageSize : ℕ) : List Byte :=
  leBytes 8 0 ++ leBytes 8 textOffset ++ leBytes 8 imageSize ++ leBytes 32 0 ++ leBytes 4 magic ++
    leBytes 4 0

/-- The virt machine with 256 MiB. -/
def smallRam : RamConfig := ⟨0x40000000, 256 * mib⟩

/-- The plan for a header with these fields, by the positions of its pieces. -/
def planOf (textOffset kernel dtb : ℕ) (initrd : Option Region) : BootPlan :=
  ⟨⟨textOffset, 64, 0, .unspecified, false⟩, ⟨kernel, 64⟩, ⟨kernel, 64⟩, initrd, ⟨dtb, 64⟩,
    ⟨kernel, [dtb, 0, 0, 0], 1, entryPstate, false⟩⟩

/-- A text offset takes the kernel to address zero, and the plan is accepted. -/
theorem plan_wraps :
    plan smallRam (image (2 ^ 64 - 0x40000000) 64) none 64 =
      .ok (planOf (2 ^ 64 - 0x40000000) 0 0x48000000 none) ∧
    ¬(planOf (2 ^ 64 - 0x40000000) 0 0x48000000 none).Placed smallRam := by
  refine ⟨by decide +kernel, fun hplaced => ?_⟩
  exact absurd hplaced.kernel.1 (by decide)

theorem placed_iff_of_plan_small :
    plan smallRam (image 0 64) (some 100) 64 =
      .ok (planOf 0 0x40200000 0x48200000 (some ⟨0x48000000, 100⟩)) ∧
    (planOf 0 0x40200000 0x48200000 (some ⟨0x48000000, 100⟩)).Placed smallRam := by
  have hplan : plan smallRam (image 0 64) (some 100) 64 =
      .ok (planOf 0 0x40200000 0x48200000 (some ⟨0x48000000, 100⟩)) := by decide +kernel
  exact ⟨hplan, (placed_iff_of_plan (by decide) hplan).1 (by decide +kernel)⟩

end Vetro.Boot
