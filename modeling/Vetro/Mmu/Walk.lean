import Vetro.Core.Mask

/-!
# Table walk of stage 1 and permissions

`vetro-mmu/src/regs.rs`, `fault.rs` and `walk.rs`: the registers that govern
translation, the walk of the tables with a granule of 4 KiB, and the checks of
an access against its outcome.
-/

namespace Vetro.Paging

open Mask

inductive Access where
  | read
  | write
  | fetch
  deriving Repr, DecidableEq

/-- Error response of the physical bus. -/
inductive BusError where
  | decode
  | slave
  deriving Repr, DecidableEq

/-- Fault type; the number is the lookup level. -/
inductive FaultKind where
  | addressSize (level : ℕ)
  | translation (level : ℕ)
  | accessFlag (level : ℕ)
  | permission (level : ℕ)
  | alignment
  | externalWalk (level : ℕ) (error : BusError)
  | external (error : BusError)
  | unimplemented (what : String)
  deriving Repr, DecidableEq

/-- A failed access. -/
structure Fault where
  kind : FaultKind
  va : Word
  access : Access
  el : ℕ
  deriving Repr, DecidableEq

/-- Physical memory as the walk reads it: descriptors of 8 bytes. -/
abbrev Phys := Word → Except BusError Word

/-! ## Registers -/

def pageSize : Word := 4096

namespace Sctlr

def m : Word := (1 : Word) <<< 0

def i : Word := (1 : Word) <<< 12

def wxn : Word := (1 : Word) <<< 19

def ee : Word := (1 : Word) <<< 25

end Sctlr

namespace Tcr

def epd0 : Word := (1 : Word) <<< 7

def a1 : Word := (1 : Word) <<< 22

def epd1 : Word := (1 : Word) <<< 23

def asBit : Word := (1 : Word) <<< 36

def tbi0 : Word := (1 : Word) <<< 37

def tbi1 : Word := (1 : Word) <<< 38

end Tcr

/-- The registers that determine translation. -/
structure MmuRegs where
  sctlr : Word := 0
  tcr : Word := 0
  ttbr0 : Word := 0
  ttbr1 : Word := 0
  mair : Word := 0
  deriving Repr, DecidableEq

/-- Granule of one of the halves of the virtual space. -/
inductive Granule where
  | k4
  | k64
  deriving Repr, DecidableEq

namespace MmuRegs

/-- Equality without branches. -/
def same (r o : MmuRegs) : Bool :=
  (r.sctlr ^^^ o.sctlr) ||| (r.tcr ^^^ o.tcr) ||| (r.ttbr0 ^^^ o.ttbr0) |||
    (r.ttbr1 ^^^ o.ttbr1) ||| (r.mair ^^^ o.mair) == 0

def enabled (r : MmuRegs) : Bool := r.sctlr &&& Sctlr.m ≠ 0

def wxn (r : MmuRegs) : Bool := r.sctlr &&& Sctlr.wxn ≠ 0

def asid (r : MmuRegs) : BitVec 16 :=
  let ttbr := if r.tcr &&& Tcr.a1 ≠ 0 then r.ttbr1 else r.ttbr0
  let asid := (ttbr >>> 48).setWidth 16
  if r.tcr &&& Tcr.asBit ≠ 0 then asid else asid &&& 0xff

/-- Highest bit that takes part in translation: 55 with Top Byte Ignore. -/
def addrTop (r : MmuRegs) (va : Word) : ℕ :=
  let tbi := if va >>> 55 &&& 1 ≠ 0 then Tcr.tbi1 else Tcr.tbi0
  if r.tcr &&& tbi ≠ 0 then 55 else 63

/-- Bits of the virtual address that are translated. -/
def inputSize (r : MmuRegs) (hi : Bool) : ℕ :=
  let shift := if hi then 16 else 0
  let txsz := (r.tcr >>> shift &&& 0x3f).toNat
  64 - min (max txsz 16) 39

def granule (r : MmuRegs) (hi : Bool) : Granule :=
  let k64 := if hi then r.tcr >>> 30 &&& 3 = 0b11 else r.tcr >>> 14 &&& 3 = 0b01
  if k64 then .k64 else .k4

def walkDisabled (r : MmuRegs) (hi : Bool) : Bool :=
  r.tcr &&& (if hi then Tcr.epd1 else Tcr.epd0) ≠ 0

def ttbr (r : MmuRegs) (hi : Bool) : Word := if hi then r.ttbr1 else r.ttbr0

/-- Bits of the physical address that is put out. -/
def outputSize (r : MmuRegs) (paBits : ℕ) : ℕ :=
  let ips := match (r.tcr >>> 32 &&& 7).toNat with
    | 0 => 32
    | 1 => 36
    | 2 => 40
    | 3 => 42
    | 4 => 44
    | _ => 48
  min ips paBits

def mairAttr (r : MmuRegs) (attrIndex : BitVec 8) : BitVec 8 :=
  (r.mair >>> (8 * (attrIndex &&& 7).toNat)).setWidth 8

theorem same_iff (r o : MmuRegs) : r.same o = true ↔ r = o := by
  cases r with
  | mk sctlr tcr ttbr0 ttbr1 mair =>
    cases o with
    | mk sctlr' tcr' ttbr0' ttbr1' mair' =>
      rw [same, beq_iff_eq]
      change _ = 0#64 ↔ _
      simp only [BitVec.or_eq_zero_iff, BitVec.xor_eq_zero_iff, MmuRegs.mk.injEq]
      tauto

theorem inputSize_bounds (r : MmuRegs) (hi : Bool) : 25 ≤ r.inputSize hi ∧ r.inputSize hi ≤ 48 := by
  rw [inputSize]
  omega

end MmuRegs

/-! ## Permissions -/

/-- Permissions of a translation: those of the leaf combined with those of the tables. -/
structure Perms where
  /-- AP[2:1]: bit 1 is read-only, bit 0 is access from EL0. -/
  ap : BitVec 8
  uxn : Bool
  pxn : Bool
  deriving Repr, DecidableEq

/-- The access is permitted at privilege `el`. -/
def Perms.allows (p : Perms) (access : Access) (el : ℕ) (wxn : Bool) : Bool :=
  let privW : Bool := p.ap &&& 0b10 = 0
  let userR : Bool := p.ap &&& 0b01 ≠ 0
  let userW : Bool := p.ap = 0b01
  if el = 0 then
    match access with
    | .read => userR
    | .write => userW
    | .fetch => !(p.uxn || (userW && wxn))
  else
    match access with
    | .read => true
    | .write => privW
    | .fetch => !(p.pxn || (privW && wxn) || userW)

/-- Outcome of a translation. -/
structure Translation where
  pa : Word
  level : ℕ
  blockSize : Word
  perms : Option Perms
  attrIndex : Option (BitVec 8)
  mairAttr : BitVec 8
  sh : BitVec 8
  ng : Bool
  asid : BitVec 16
  deriving Repr, DecidableEq

/-! ## The walk -/

/-- Translation with the MMU off. -/
def mmuOff (regs : MmuRegs) (paBits : ℕ) (va : Word) (access : Access) (el : ℕ) :
    Except Fault Translation :=
  let top := regs.addrTop va
  if va &&& bits top paBits ≠ 0 then .error ⟨.addressSize 0, va, access, el⟩
  else
    .ok {
      pa := va &&& low paBits
      level := 0
      blockSize := pageSize
      perms := none
      attrIndex := none
      mairAttr := match access with
        | .fetch => if regs.sctlr &&& Sctlr.i ≠ 0 then 0xaa else 0x44
        | .read | .write => 0x00
      sh := 0b10
      ng := false
      asid := regs.asid }

/-- The half of the virtual space, if the bits above the input size agree with it. -/
def select (regs : MmuRegs) (va : Word) : Except FaultKind Bool :=
  let top := regs.addrTop va
  let hi : Bool := va >>> top &&& 1 ≠ 0
  let field := va &&& bits top (regs.inputSize hi)
  let ok : Bool := if hi then field = bits top (regs.inputSize hi) else field = 0
  if ok then .ok hi else .error (.translation 0)

/-- What the tables of a walk take away: APTable, UXNTable and PXNTable. -/
structure Tables where
  ap : BitVec 8 := 0
  xn : Bool := false
  pxn : Bool := false
  deriving Repr, DecidableEq

/-- A table descriptor on the way. -/
def Tables.through (t : Tables) (desc : Word) : Tables where
  ap := t.ap ||| (desc >>> 61 &&& 3).setWidth 8
  xn := t.xn || desc >>> 60 &&& 1 ≠ 0
  pxn := t.pxn || desc >>> 59 &&& 1 ≠ 0

/-- Lowest bit of the index of a level, `rest` levels above the last one. -/
def bottom (rest : ℕ) : ℕ := rest * 9 + 12

/-- Leaf descriptor with the levels below it. -/
structure Leaf where
  rest : ℕ
  desc : Word
  tables : Tables
  deriving Repr, DecidableEq

/-- The descriptor of a level. -/
def descriptor (phys : Phys) (va : Word) (rest : ℕ) (base : Word) (addrtop : ℕ) :
    Except FaultKind Word :=
  let index := (va &&& bits addrtop (bottom rest)) >>> bottom rest <<< 3
  match phys (base ||| index) with
  | .error e => .error (.externalWalk (3 - rest) e)
  | .ok desc => if desc &&& 1 = 0 then .error (.translation (3 - rest)) else .ok desc

/-- The levels of a walk, `rest` of them after this one. -/
def descend (phys : Phys) (oversize : Word → Bool) (va : Word) :
    ℕ → Word → ℕ → Tables → Except FaultKind Leaf
  | 0, base, addrtop, tables =>
    match descriptor phys va 0 base addrtop with
    | .error e => .error e
    | .ok desc => if desc &&& 3 = 1 then .error (.translation 3) else .ok ⟨0, desc, tables⟩
  | rest + 1, base, addrtop, tables =>
    match descriptor phys va (rest + 1) base addrtop with
    | .error e => .error e
    | .ok desc =>
      if desc &&& 3 = 1 then .ok ⟨rest + 1, desc, tables⟩
      else if oversize desc then .error (.addressSize (3 - (rest + 1)))
      else descend phys oversize va rest (desc &&& bits 47 12) (bottom (rest + 1) - 1)
        (tables.through desc)

/-- Permissions of a leaf. -/
def Leaf.perms (leaf : Leaf) : Perms :=
  let ap : BitVec 8 := (leaf.desc >>> 6 &&& 3).setWidth 8
  { -- APTable[1] forces read-only, APTable[0] removes access from EL0
    ap := (ap ||| (leaf.tables.ap &&& 0b10)) &&& ~~~(leaf.tables.ap &&& 0b01)
    uxn := leaf.desc >>> 54 &&& 1 ≠ 0 || leaf.tables.xn
    pxn := leaf.desc >>> 53 &&& 1 ≠ 0 || leaf.tables.pxn }

/-- Address that a leaf puts out. -/
def Leaf.pa (leaf : Leaf) (va : Word) : Word :=
  (leaf.desc &&& bits 47 (bottom leaf.rest)) ||| (va &&& low (bottom leaf.rest))

/-- Translation of a leaf. -/
def Leaf.translation (leaf : Leaf) (regs : MmuRegs) (va : Word) : Translation :=
  let attrIndex : BitVec 8 := (leaf.desc >>> 2 &&& 7).setWidth 8
  { pa := leaf.pa va
    level := 3 - leaf.rest
    blockSize := (1 : Word) <<< bottom leaf.rest
    perms := some leaf.perms
    attrIndex := some attrIndex
    mairAttr := regs.mairAttr attrIndex
    sh := (leaf.desc >>> 8 &&& 3).setWidth 8
    ng := leaf.desc >>> 11 &&& 1 ≠ 0
    asid := regs.asid }

/-- The address is too large for the output. -/
def oversize (regs : MmuRegs) (paBits : ℕ) (addr : Word) : Bool :=
  let outputsize := regs.outputSize paBits
  outputsize < 48 && addr &&& bits 47 outputsize ≠ 0

/-- Levels of a walk after the first one. -/
def firstRest (inputsize : ℕ) : ℕ := 3 - (4 - (inputsize - 12 + 8) / 9)

/-- The leaf of an address. -/
def findLeaf (regs : MmuRegs) (paBits : ℕ) (phys : Phys) (va : Word) (hi : Bool) :
    Except FaultKind Leaf :=
  if regs.walkDisabled hi then .error (.translation 0)
  else if regs.granule hi = .k64 then .error (.unimplemented "64 KiB translation granule")
  else if regs.sctlr &&& Sctlr.ee ≠ 0 then
    .error (.unimplemented "big-endian descriptors (SCTLR_EL1.EE = 1)")
  else
    let inputsize := regs.inputSize hi
    let ttbr := regs.ttbr hi
    if oversize regs paBits ttbr then .error (.addressSize 0)
    else
      let rest := firstRest inputsize
      let baselowerbound := 3 + inputsize - bottom rest
      descend phys (oversize regs paBits) va rest (ttbr &&& bits 47 baselowerbound)
        (inputsize - 1) {}

/-- Table walk for an address that `select` accepts, without the permissions. -/
def walkTables (regs : MmuRegs) (paBits : ℕ) (phys : Phys) (va : Word) (hi : Bool) :
    Except FaultKind Translation :=
  match findLeaf regs paBits phys va hi with
  | .error e => .error e
  | .ok leaf =>
    let level := 3 - leaf.rest
    -- the first level with blocks is level 1
    if level < 1 then .error (.translation level)
    else if oversize regs paBits (leaf.pa va) then .error (.addressSize level)
    else if leaf.desc >>> 10 &&& 1 = 0 then .error (.accessFlag level)
    else .ok (leaf.translation regs va)

/-! ### Addresses of one block -/

section Block

variable {phys : Phys} {va va' : Word}

theorem bottom_lt {rest : ℕ} (hrest : rest ≤ 3) : bottom rest < 64 := by
  rw [bottom]
  omega

theorem bottom_mono {rest rest' : ℕ} (hle : rest ≤ rest') : bottom rest ≤ bottom rest' := by
  rw [bottom, bottom]
  omega

theorem descriptor_congr {rest addrtop : ℕ} {base : Word} (hrest : rest ≤ 3)
    (htop : addrtop ≤ 47) (hagree : AgreeOn (bottom rest) 47 va va') :
    descriptor phys va rest base addrtop = descriptor phys va' rest base addrtop := by
  have hindex : va &&& bits addrtop (bottom rest) = va' &&& bits addrtop (bottom rest) :=
    (hagree.mono (le_refl _) htop).and_bits (bottom_lt hrest) (by omega)
  rw [descriptor, descriptor, hindex]

variable {leaf : Leaf}

/-- A walk leads to the same leaf for every address of the block. -/
theorem descend_congr {oversize : Word → Bool} {rest addrtop : ℕ} {base : Word} {tables : Tables}
    (hrest : rest ≤ 3) (htop : addrtop ≤ 47)
    (hleaf : descend phys oversize va rest base addrtop tables = .ok leaf)
    (hagree : AgreeOn (bottom leaf.rest) 47 va va') :
    leaf.rest ≤ rest ∧ descend phys oversize va' rest base addrtop tables = .ok leaf := by
  induction rest generalizing base addrtop tables with
  | zero =>
    rw [descend] at hleaf ⊢
    cases hdesc : descriptor phys va 0 base addrtop with
    | error e =>
      rw [hdesc] at hleaf
      cases hleaf
    | ok desc =>
      rw [hdesc] at hleaf
      dsimp only at hleaf
      split_ifs at hleaf with hblock
      cases hleaf
      rw [← descriptor_congr hrest htop hagree, hdesc]
      exact ⟨le_refl _, if_neg hblock⟩
  | succ rest ih =>
    rw [descend] at hleaf ⊢
    cases hdesc : descriptor phys va (rest + 1) base addrtop with
    | error e =>
      rw [hdesc] at hleaf
      cases hleaf
    | ok desc =>
      rw [hdesc] at hleaf
      dsimp only at hleaf
      split_ifs at hleaf with hblock hover
      · cases hleaf
        rw [← descriptor_congr hrest htop hagree, hdesc]
        exact ⟨le_refl _, if_pos hblock⟩
      · have hbottom : bottom (rest + 1) - 1 ≤ 47 := by
          rw [bottom]
          omega
        obtain ⟨hle, hnext⟩ := ih (by omega) hbottom hleaf
        have hagree' := hagree.mono (bottom_mono (hle.trans (Nat.le_succ rest))) (le_refl 47)
        rw [← descriptor_congr hrest htop hagree', hdesc]
        dsimp only
        rw [if_neg hblock, if_neg hover]
        exact ⟨hle.trans (Nat.le_succ rest), hnext⟩

theorem firstRest_le (inputsize : ℕ) : firstRest inputsize ≤ 3 := by
  rw [firstRest]
  omega

variable {paBits : ℕ} {regs : MmuRegs} {hi : Bool}

theorem findLeaf_congr (hleaf : findLeaf regs paBits phys va hi = .ok leaf)
    (hagree : AgreeOn (bottom leaf.rest) 47 va va') :
    leaf.rest ≤ 3 ∧ findLeaf regs paBits phys va' hi = .ok leaf := by
  have hsize := regs.inputSize_bounds hi
  rw [findLeaf] at hleaf ⊢
  dsimp only at hleaf ⊢
  split_ifs at hleaf ⊢
  obtain ⟨hle, hsame⟩ := descend_congr (firstRest_le _) (by omega) hleaf hagree
  exact ⟨hle.trans (firstRest_le _), hsame⟩

/-- What a walk that succeeds has found. -/
theorem walkTables_eq_ok {t : Translation} :
    walkTables regs paBits phys va hi = .ok t ↔
      ∃ leaf, findLeaf regs paBits phys va hi = .ok leaf ∧ leaf.rest ≤ 2 ∧
        oversize regs paBits (leaf.pa va) = false ∧ leaf.desc >>> 10 &&& 1 ≠ 0 ∧
        t = leaf.translation regs va := by
  rw [walkTables]
  cases findLeaf regs paBits phys va hi with
  | error e => simp
  | ok leaf =>
    dsimp only
    split_ifs with hlevel hover hflag
    · simp
      omega
    · simp [hover]
    · constructor
      · intro h
        cases h
      · rintro ⟨found, hfound, -, -, hset, -⟩
        cases hfound
        exact absurd hflag hset
    · constructor
      · intro heq
        exact ⟨leaf, rfl, by omega, by simpa using hover, hflag, (Except.ok.inj heq).symm⟩
      · rintro ⟨found, hfound, -, -, -, rfl⟩
        rw [Except.ok.inj hfound]

theorem outputSize_ge (regs : MmuRegs) (hbits : 32 ≤ paBits) : 32 ≤ regs.outputSize paBits := by
  refine le_min ?_ hbits
  split <;> decide

/-- The offset in a block does not make an address too large. -/
theorem oversize_pa_congr (regs : MmuRegs) (hbits : 32 ≤ paBits) (hrest : leaf.rest ≤ 2)
    (va va' : Word) : oversize regs paBits (leaf.pa va) = oversize regs paBits (leaf.pa va') := by
  have hsize := outputSize_ge regs hbits
  rw [oversize, oversize]
  by_cases hsmall : regs.outputSize paBits < 48
  · have hagree : AgreeOn (regs.outputSize paBits) 47 (leaf.pa va) (leaf.pa va') := by
      intro i hi _
      have hbottom : bottom leaf.rest ≤ 30 := by
        rw [bottom]
        omega
      have hoffset : decide (i < bottom leaf.rest) = false := decide_eq_false (by omega)
      rw [Leaf.pa, Leaf.pa, BitVec.getLsbD_or, BitVec.getLsbD_or, BitVec.getLsbD_and (y := low _),
        BitVec.getLsbD_and (y := low _), getLsbD_low (by omega), hoffset, Bool.and_false,
        Bool.and_false]
    rw [hagree.and_bits (by omega) (by decide)]
  · rw [decide_eq_false hsmall, Bool.false_and, Bool.false_and]

/-- Every address of the block of a walk that succeeds is translated by the same leaf. -/
theorem walkTables_block (hbits : 32 ≤ paBits) (hleaf : findLeaf regs paBits phys va hi = .ok leaf)
    (hwalk : walkTables regs paBits phys va hi = .ok (leaf.translation regs va))
    (hagree : AgreeOn (bottom leaf.rest) 47 va va') :
    walkTables regs paBits phys va' hi = .ok (leaf.translation regs va') := by
  obtain ⟨found, hfound, hrest, hover, hflag, -⟩ := walkTables_eq_ok.mp hwalk
  cases hleaf.symm.trans hfound
  refine walkTables_eq_ok.mpr ⟨leaf, (findLeaf_congr hleaf hagree).2, hrest, ?_, hflag, rfl⟩
  rw [← oversize_pa_congr regs hbits hrest va va']
  exact hover

end Block

/-- A data access without alignment on Device memory. -/
def checkDeviceAlignment (t : Translation) (access : Access) (aligned : Bool) :
    Except FaultKind Unit :=
  if !aligned && access ≠ .fetch && t.mairAttr &&& 0xf0 = 0 then .error .alignment else .ok ()

/-- The permissions of an access. -/
def check (regs : MmuRegs) (t : Translation) (access : Access) (el : ℕ) : Except FaultKind Unit :=
  match t.perms with
  | some p => if p.allows access el regs.wxn then .ok () else .error (.permission t.level)
  | none => .ok ()

end Vetro.Paging
