import Vetro.Mmu.Tlb

/-!
# The MMU of a core

`vetro-mmu/src/mmu.rs`: translation through the TLB, with a cache of recent
translations in front of it that skips the lookup and the checks.
-/

namespace Vetro.Paging

open Mask

/-- Recent translation with the MMU on. -/
structure Recent where
  /-- Whole VA[63:12], tag included. -/
  vpage : Word
  /-- Physical address of the 4 KiB page. -/
  paPage : Word
  perms : Perms
  /-- Device memory: data accesses without alignment fault. -/
  device : Bool
  epoch : ℕ
  tlbGen : ℕ
  deriving Repr, DecidableEq

def Recent.empty : Recent :=
  ⟨BitVec.allOnes 64, 0, ⟨0, true, true⟩, true, 0, 0⟩

/-- Stage 1 MMU of the EL1&0 regime for one core. -/
structure Mmu where
  regs : MmuRegs
  paBits : ℕ
  paBits_ge : 32 ≤ paBits
  paBits_le : paBits ≤ 48
  tlb : Tlb
  recent : Slot → Recent
  /-- Registers with which the entries of the current epoch were filled. -/
  recentRegs : MmuRegs
  recentEpoch : ℕ

/-- Saved MMU. -/
structure SavedMmu where
  paBits : ℕ
  regs : MmuRegs
  tlb : SavedTlb
  deriving Repr, DecidableEq

namespace Mmu

def new (paBits : ℕ) (hge : 32 ≤ paBits) (hle : paBits ≤ 48) : Mmu where
  regs := {}
  paBits := paBits
  paBits_ge := hge
  paBits_le := hle
  tlb := Tlb.new
  recent := fun _ => Recent.empty
  recentRegs := {}
  recentEpoch := 1

/-- The checks of an access, after the walk. -/
def checked (regs : MmuRegs) (t : Translation) (va : Word) (access : Access) (el : ℕ)
    (aligned : Bool) : Except Fault Translation :=
  match checkDeviceAlignment t access aligned with
  | .error kind => .error ⟨kind, va, access, el⟩
  | .ok () =>
    match check regs t access el with
    | .error kind => .error ⟨kind, va, access, el⟩
    | .ok () => .ok t

/-- The walk of an address that is not in the TLB; its outcome goes into it. -/
def walkAndInsert (m : Mmu) (phys : Phys) (va : Word) (hi : Bool) :
    Except FaultKind Translation × Mmu :=
  match walkTables m.regs m.paBits phys va hi with
  | .error kind => (.error kind, m)
  | .ok t =>
    match TlbEntry.new (va &&& vaMask) t with
    | some e => (.ok t, { m with tlb := m.tlb.insert (va &&& vaMask) e })
    | none => (.ok t, m)

/-- Translation through the TLB: identity if the MMU is off, check of the half, lookup,
walk, alignment on Device memory, permissions. -/
def translateChecked (m : Mmu) (phys : Phys) (va : Word) (access : Access) (el : ℕ)
    (aligned : Bool) : Except Fault Translation × Mmu :=
  if m.regs.enabled = false then
    (match mmuOff m.regs m.paBits va access el with
      | .error fault => .error fault
      | .ok t =>
        match checkDeviceAlignment t access aligned with
        | .error kind => .error ⟨kind, va, access, el⟩
        | .ok () => .ok t, m)
  else
    match select m.regs va with
    | .error kind => (.error ⟨kind, va, access, el⟩, m)
    | .ok hi =>
      match m.tlb.lookup (va &&& vaMask) m.regs.asid with
      | some e =>
        (checked m.regs (e.translation (va &&& vaMask) m.regs) va access el aligned, m)
      | none =>
        let walked := m.walkAndInsert phys va hi
        match walked.1 with
        | .error kind => (.error ⟨kind, va, access, el⟩, walked.2)
        | .ok t => (checked m.regs t va access el aligned, walked.2)

def translate (m : Mmu) (phys : Phys) (va : Word) (access : Access) (el : ℕ) :
    Except Fault Translation × Mmu := m.translateChecked phys va access el true

/-- New epoch of the recent cache if the registers have changed. -/
def syncRecent (m : Mmu) (regs : MmuRegs) : Mmu :=
  if regs.same m.recentRegs then m
  else { m with recentRegs := regs, recentEpoch := m.recentEpoch + 1 }

/-- The recent entry answers the access. -/
def recentHit (m : Mmu) (va : Word) (access : Access) (el : ℕ) (aligned : Bool) (i : Slot) : Bool :=
  let r := m.recent i
  r.vpage = va / pageSize && r.epoch = m.recentEpoch && r.tlbGen = m.tlb.generation i &&
    (aligned || access = .fetch || !r.device) && r.perms.allows access el m.recentRegs.wxn

/-- Full path, and filling of the recent entry. -/
def translateFill (m : Mmu) (phys : Phys) (va : Word) (access : Access) (el : ℕ)
    (aligned : Bool) (i : Slot) : Except Fault Word × Mmu :=
  let full := m.translateChecked phys va access el aligned
  match full.1 with
  | .error fault => (.error fault, full.2)
  | .ok t =>
    (.ok t.pa,
      match full.2.regs.enabled, t.perms with
      | true, some perms => { full.2 with
        recent := Function.update full.2.recent i {
          vpage := va / pageSize
          paPage := t.pa &&& ~~~(pageSize - 1)
          perms
          device := t.mairAttr &&& 0xf0 = 0
          epoch := full.2.recentEpoch
          tlbGen := full.2.tlb.generation i } }
      | _, _ => full.2)

/-- Recent cache, then full path. -/
def translateRecent (m : Mmu) (phys : Phys) (va : Word) (access : Access) (el : ℕ)
    (aligned : Bool) : Except Fault Word × Mmu :=
  let i := Tlb.slot (va &&& vaMask)
  if m.recentRegs.enabled && m.recentHit va access el aligned i then
    (.ok ((m.recent i).paPage ||| (va &&& (pageSize - 1))), m)
  else m.translateFill phys va access el aligned i

/-- `translateChecked` with the registers `regs`, for the physical address only. -/
def translatePaWith (m : Mmu) (regs : MmuRegs) (phys : Phys) (va : Word) (access : Access)
    (el : ℕ) (aligned : Bool) : Except Fault Word × Mmu :=
  (Mmu.syncRecent { m with regs } regs).translateRecent phys va access el aligned

/-- Translation without the TLB. -/
def walk (m : Mmu) (phys : Phys) (va : Word) (access : Access) (el : ℕ) :
    Except Fault Translation :=
  if m.regs.enabled = false then mmuOff m.regs m.paBits va access el
  else
    match select m.regs va with
    | .error kind => .error ⟨kind, va, access, el⟩
    | .ok hi =>
      match walkTables m.regs m.paBits phys va hi with
      | .error kind => .error ⟨kind, va, access, el⟩
      | .ok t =>
        match check m.regs t access el with
        | .error kind => .error ⟨kind, va, access, el⟩
        | .ok () => .ok t

def tlbi (m : Mmu) (op : TlbiOp) (xt : Word) : Mmu := { m with tlb := m.tlb.tlbi op xt }

def flushAll (m : Mmu) : Mmu := { m with tlb := m.tlb.flushAll }

def save (m : Mmu) : SavedMmu := ⟨m.paBits, m.regs, m.tlb.save⟩

/-- The recent cache is emptied only if everything is accepted. -/
def restore (m : Mmu) (saved : SavedMmu) : Except RestoreError Unit × Mmu :=
  if saved.paBits ≠ m.paBits then (.error .paRange, m)
  else
    let read := m.tlb.restore saved.tlb
    match read.1 with
    | .error e => (.error e, { m with regs := saved.regs, tlb := read.2 })
    | .ok () => (.ok (), { m with
      regs := saved.regs
      tlb := read.2
      recent := fun _ => Recent.empty
      recentRegs := {}
      recentEpoch := m.recentEpoch + 1 })

end Mmu

end Vetro.Paging
