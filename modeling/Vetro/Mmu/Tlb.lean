import Vetro.Mmu.Walk

/-!
# Software TLB

`vetro-mmu/src/tlb.rs`.  One slot for every 4 KiB page, chosen by the low bits
of the page number; an entry remembers the whole page or block it comes from.
-/

namespace Vetro.Paging

open Mask Function

/-- The part of an address that identifies an entry: VA[55:0]. -/
def vaMask : Word := ((1 : Word) <<< 56) - 1

structure TlbEntry where
  /-- Base of the page or block, in VA[55:0]. -/
  vaBase : Word
  size : Word
  paBase : Word
  asid : BitVec 16
  global : Bool
  level : ℕ
  perms : Perms
  attrIndex : BitVec 8
  sh : BitVec 8
  deriving Repr, DecidableEq

namespace TlbEntry

/-- Entry for the outcome of a walk; a translation with the MMU off has none. -/
def new (key : Word) (t : Translation) : Option TlbEntry :=
  let mask := ~~~(t.blockSize - 1)
  match t.perms, t.attrIndex with
  | some perms, some attrIndex => some {
    vaBase := key &&& mask
    size := t.blockSize
    paBase := t.pa &&& mask
    asid := t.asid
    global := !t.ng
    level := t.level
    perms
    attrIndex
    sh := t.sh }
  | _, _ => none

def contains (e : TlbEntry) (key : Word) : Bool := key - e.vaBase < e.size

/-- Translation for `key`; MAIR is read again. -/
def translation (e : TlbEntry) (key : Word) (regs : MmuRegs) : Translation where
  pa := e.paBase + (key - e.vaBase)
  level := e.level
  blockSize := e.size
  perms := some e.perms
  attrIndex := some e.attrIndex
  mairAttr := regs.mairAttr e.attrIndex
  sh := e.sh
  ng := !e.global
  asid := e.asid

/-- The entry of a leaf contains its block. -/
theorem contains_iff {e : TlbEntry} {n : ℕ} (hn : n < 64) {key : Word}
    (hbase : e.vaBase = key &&& ~~~low n) (hsize : e.size = (1 : Word) <<< n) (key' : Word) :
    e.contains key' = true ↔ key'.toNat / 2 ^ n = key.toNat / 2 ^ n := by
  rw [contains, decide_eq_true_iff, hbase, hsize, BitVec.lt_def, toNat_one_shiftLeft hn,
    sub_lt_iff hn]

/-- The entry of a leaf gives the translation of the leaf, with the ASID of the walk. -/
theorem translation_leaf {leaf : Leaf} (hrest : leaf.rest ≤ 3) {regs : MmuRegs} {va key : Word}
    {e : TlbEntry} (hnew : new key (leaf.translation regs va) = some e) {key' : Word}
    (hin : e.contains key' = true) (regs' : MmuRegs) :
    key'.toNat / 2 ^ bottom leaf.rest = key.toNat / 2 ^ bottom leaf.rest ∧
      e.translation key' regs' = { leaf.translation regs' key' with asid := regs.asid } := by
  have hn := bottom_lt hrest
  obtain rfl := Option.some.inj hnew
  have hdiv := (contains_iff hn rfl rfl key').mp hin
  have hpa : (leaf.pa va &&& ~~~low (bottom leaf.rest)) +
      (key' - (key &&& ~~~low (bottom leaf.rest))) = leaf.pa key' := by
    rw [sub_and_not_low hn hdiv, Leaf.pa, field_or_and_not_low (by decide) hn,
      field_add_and_low (by decide) hn]
    rfl
  refine ⟨hdiv, ?_⟩
  rw [translation, Leaf.translation]
  congr 1
  exact Bool.not_not _

end TlbEntry

/-- What an invalidation covered. -/
inductive Inval where
  | all
  | va (va : Word)
  deriving Repr, DecidableEq

inductive TlbiOp where
  | vmalle1
  | vae1
  | aside1
  | vaae1
  | vale1
  | vaale1
  | vmalle1is
  | vae1is
  | aside1is
  | vaae1is
  | vale1is
  | vaale1is
  deriving Repr, DecidableEq

/-- Slots of the TLB. -/
abbrev Slot := Fin 512

/-- TLB of a core. -/
structure Tlb where
  entries : Slot → Option TlbEntry
  /-- Grows on every change to the slot. -/
  gens : Slot → ℕ
  /-- Invalidations performed. -/
  flushes : ℕ
  /-- The last invalidations. -/
  log : Fin 64 → Inval

/-- Saved entries, each with its slot, and how many there should be. -/
structure SavedTlb where
  count : ℕ
  records : List (ℕ × TlbEntry)
  deriving Repr, DecidableEq

/-- Why saved data are not accepted. -/
inductive RestoreError where
  | truncated
  | entries (n : ℕ)
  | slot (slot : ℕ)
  | entry (e : TlbEntry)
  | paRange
  deriving Repr, DecidableEq

def tlbiVa (xt : Word) : Word := (xt &&& ((1 : Word) <<< 44 - 1)) <<< 12

def tlbiAsid (xt : Word) : BitVec 16 := (xt >>> 48).setWidth 16

namespace Tlb

def new : Tlb := ⟨fun _ => none, fun _ => 0, 0, fun _ => .all⟩

def slot (key : Word) : Slot := Fin.ofNat 512 (key >>> 12).toNat

def generation (t : Tlb) (i : Slot) : ℕ := t.gens i

/-- The entry applies to the address and the ASID. -/
def applies (e : TlbEntry) (key : Word) (asid : BitVec 16) : Bool :=
  e.contains key && (e.global || e.asid = asid)

def lookup (t : Tlb) (key : Word) (asid : BitVec 16) : Option TlbEntry :=
  (t.entries (slot key)).filter fun e => applies e key asid

def insert (t : Tlb) (key : Word) (e : TlbEntry) : Tlb :=
  { t with
    entries := update t.entries (slot key) (some e)
    gens := update t.gens (slot key) (t.gens (slot key) + 1) }

theorem entries_insert (t : Tlb) (key : Word) (e : TlbEntry) (i : Slot) :
    (t.insert key e).entries i = if i = slot key then some e else t.entries i :=
  update_apply _ _ _ _

theorem gens_insert (t : Tlb) (key : Word) (e : TlbEntry) (i : Slot) :
    (t.insert key e).gens i = if i = slot key then t.gens (slot key) + 1 else t.gens i :=
  update_apply _ _ _ _

def note (t : Tlb) (i : Inval) : Tlb :=
  { t with
    log := update t.log (Fin.ofNat 64 t.flushes) i
    flushes := t.flushes + 1 }

def removeIf (t : Tlb) (pred : TlbEntry → Bool) : Tlb :=
  { t with
    entries := fun i => (t.entries i).filter fun e => !pred e
    gens := fun i => if (t.entries i).any pred then t.gens i + 1 else t.gens i }

/-- Flushes everything. -/
def flushAll (t : Tlb) : Tlb :=
  let t := t.note .all
  { t with entries := fun _ => none, gens := fun i => t.gens i + 1 }

def flushVa (t : Tlb) (va : Word) (asid : BitVec 16) : Tlb :=
  t.removeIf fun e => applies e (va &&& vaMask) asid

def flushAsid (t : Tlb) (asid : BitVec 16) : Tlb :=
  t.removeIf fun e => !e.global && e.asid = asid

def flushVaAllAsids (t : Tlb) (va : Word) : Tlb :=
  t.removeIf fun e => e.contains (va &&& vaMask)

/-- A TLBI with the value of its register. -/
def tlbi (t : Tlb) (op : TlbiOp) (xt : Word) : Tlb :=
  let t := t.note (match op with
    | .vae1 | .vae1is | .vale1 | .vale1is | .vaae1 | .vaae1is | .vaale1 | .vaale1is =>
      .va (tlbiVa xt)
    | _ => .all)
  match op with
  | .vmalle1 | .vmalle1is => t.flushAll
  | .vae1 | .vae1is | .vale1 | .vale1is => t.flushVa (tlbiVa xt) (tlbiAsid xt)
  | .aside1 | .aside1is => t.flushAsid (tlbiAsid xt)
  | .vaae1 | .vaae1is | .vaale1 | .vaale1is => t.flushVaAllAsids (tlbiVa xt)

/-! ## Snapshots -/

def save (t : Tlb) : SavedTlb :=
  let valid := (List.finRange 512).filterMap fun i => (t.entries i).map fun e => (i.val, e)
  ⟨valid.length, valid⟩

/-- An entry that `restore` takes. -/
def accepts (e : TlbEntry) : Bool :=
  (∃ n < 64, e.size = (1 : Word) <<< n) && e.vaBase &&& (e.size - 1) = 0 && e.attrIndex ≤ 7

/-- Entries one after the other, in growing slots; what was read before an error stays. -/
def restoreEntries (entries : Slot → Option TlbEntry) (last : Option ℕ) :
    ℕ → List (ℕ × TlbEntry) → Except RestoreError Unit × (Slot → Option TlbEntry)
  | 0, _ => (.ok (), entries)
  | _ + 1, [] => (.error .truncated, entries)
  | n + 1, (i, e) :: records =>
    if h : i < 512 then
      if last.any (i ≤ ·) then (.error (.slot i), entries)
      else if !accepts e then (.error (.entry e), entries)
      else restoreEntries (update entries ⟨i, h⟩ (some e)) (some i) n records
    else (.error (.slot i), entries)

/-- The generations do not change if there is an error. -/
def restore (t : Tlb) (saved : SavedTlb) : Except RestoreError Unit × Tlb :=
  if saved.count > 512 then (.error (.entries saved.count), t)
  else
    let read := restoreEntries (fun _ => none) none saved.count saved.records
    match read.1 with
    | .error e => (.error e, { t with entries := read.2 })
    | .ok () =>
      (.ok (), Tlb.note { t with entries := read.2, gens := fun i => t.gens i + 1 } .all)

end Tlb

end Vetro.Paging
