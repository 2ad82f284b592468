import Vetro.Core.SlotTable
import Vetro.Snapshot.Format

/-!
# The file of a persistent copy-on-write overlay

`vetro-snapshot/src/overlay.rs`.  The written clusters of a disk are kept in the
slots of a file, after a header with the generation and the number of slots.
`update` gives the writes that bring the file to a new state, the header last;
`load` reads the file back and tolerates slots that are damaged or missing.
-/

namespace Vetro

open Bytes List
open Splice
open Outcome
open SlotTable
open Format (hash64 rotateLeft)

/-- The state of an overlay file.  The clusters with their slots and data
checks (`map`), the free slots and the number of slots are in `table`. -/
structure Overlay where
  identity : List Byte
  diskSize : ℕ
  generation : ℕ
  table : Table ℕ UInt64
  damaged : ℕ
  fresh : Bool

namespace Overlay

/-! ## Model -/

/-- First 8 bytes of the file: `VETROCOW`. -/
def magic : List Byte := [0x56, 0x45, 0x54, 0x52, 0x4f, 0x43, 0x4f, 0x57]

def version : ℕ := 1

/-- Bytes in a cluster. -/
def clusterLen : ℕ := 4096

def headerLen : ℕ := 4096

/-- Bytes in a slot: cluster, check, data. -/
def slotLen : ℕ := 16 + clusterLen

/-- Cluster of a free slot. -/
def freeMark : ℕ := 2 ^ 64 - 1

def maxIdentity : ℕ := headerLen - 64

/-- Why a file cannot be used: a valid file of another base image or of a disk
of another size, or not a readable overlay. -/
inductive LoadError where
  | otherBase (found expected : List Byte)
  | otherSize (found expected : ℕ)
  | corrupt (why : String)
  deriving Repr, DecidableEq

/-- Writes to perform on the file, in order: first the truncation, if any, then
the bytes at their offsets. -/
structure Patches where
  truncate : Option ℕ
  writes : List (ℕ × List Byte)

/-- The file after some writes. -/
def applyWrites (file : List Byte) (writes : List (ℕ × List Byte)) : List Byte :=
  writes.foldl (fun file write => writeGrow 0 file write.1 write.2) file

def Patches.applyTo (p : Patches) (file : List Byte) : List Byte :=
  applyWrites (match p.truncate with | some n => file.take n | none => file) p.writes

/-- Checksum of a slot: binds the data to the cluster. -/
def slotCheck (cluster : ℕ) (data : List Byte) : UInt64 :=
  hash64 data ^^^ rotateLeft (UInt64.ofNat cluster) 17 ^^^ 0x5a17c0de0f5e7a11

/-- Empty overlay; the file must be written from scratch. -/
def new (identity : List Byte) (diskSize : ℕ) : Overlay where
  identity := identity.take maxIdentity
  diskSize := diskSize
  generation := 0
  table := Table.empty
  damaged := 0
  fresh := true

/-- Clusters of a disk. -/
def clusterCount (diskSize : ℕ) : ℕ := (diskSize + clusterLen - 1) / clusterLen

/-- Bytes of cluster `c` that are in the disk. -/
def dataLen (diskSize c : ℕ) : ℕ := min (diskSize - c * clusterLen) clusterLen

def slotOffset (k : ℕ) : ℕ := headerLen + k * slotLen

def headerOf (identity : List Byte) (diskSize generation slots : ℕ) : List Byte :=
  let h := magic ++ leBytes 4 version ++ leBytes 4 clusterLen ++ leBytes 8 diskSize ++
    leBytes 8 generation ++ leBytes 8 slots ++ leBytes 4 identity.length ++ identity
  let h := h ++ List.replicate (headerLen - 8 - h.length) 0
  h ++ leBytes 8 (hash64 h).toNat

def header (ov : Overlay) : List Byte :=
  headerOf ov.identity ov.diskSize ov.generation ov.table.slots

/-- The data of a slot, filled with zeros. -/
def pad (data : List Byte) : List Byte := data ++ List.replicate (clusterLen - data.length) 0

/-- The check and the bytes of a slot. -/
def slotBytes (cluster : ℕ) (data : List Byte) : UInt64 × List Byte :=
  let check := slotCheck cluster (pad data)
  (check, leBytes 8 cluster ++ leBytes 8 check.toNat ++ pad data)

/-- `(index, some data)` writes the cluster, `(index, none)` removes it. -/
abbrev Change := ℕ × Option (List Byte)

/-- One change of `update`, with the write it needs. -/
def change (ov : Overlay) (c : ℕ) :
    Option (List Byte) → Result LoadError (Option (ℕ × List Byte) × Overlay)
  | some data => do
    require (c < clusterCount ov.diskSize ∧ data.length ≤ clusterLen)
    let (check, bytes) := slotBytes c data
    if (ov.table.map[c]?).map Prod.snd = some check then .ok (none, ov)
    else
      let (slot, table) := ov.table.put c check
      .ok (some (slotOffset slot, bytes), { ov with table })
  | none =>
    match ov.table.remove c with
    | none => .ok (none, ov)
    | some (slot, table) =>
      .ok (some (slotOffset slot, (slotBytes freeMark []).2), { ov with table })

/-- The changes of `update`, with the writes they need. -/
def changeAll (ov : Overlay) :
    List Change → Result LoadError (List (ℕ × List Byte) × Overlay)
  | [] => .ok ([], ov)
  | (c, data) :: rest => do
    let (write, ov) ← ov.change c data
    let (writes, ov) ← ov.changeAll rest
    .ok (write.toList ++ writes, ov)

/-- Brings the file to the state of the given clusters.  If there is anything to
write, the generation grows by one and the header is the last write. -/
def update (ov : Overlay) (changes : List Change) : Result LoadError (Patches × Overlay) := do
  let truncate := if ov.fresh then some 0 else none
  let (writes, ov) ← ov.changeAll changes
  if writes ≠ [] ∨ ov.fresh = true then
    let ov := { ov with generation := (ov.generation + 1) % 2 ^ 64, fresh := false }
    .ok (⟨truncate, writes ++ [(0, ov.header)]⟩, ov)
  else .ok (⟨truncate, writes⟩, ov)

/-- The changes that leave exactly the clusters `all`. -/
def syncChanges (ov : Overlay) (all : List (ℕ × List Byte)) : List Change :=
  let gone := ov.table.map.keys.filter fun c => c ∉ all.map Prod.fst
  (all.map fun cluster => (cluster.1, some cluster.2)) ++ gone.map fun c => (c, none)

/-- `update` with the complete state: clusters of the file that are missing in
`all` are removed. -/
def sync (ov : Overlay) (all : List (ℕ × List Byte)) : Result LoadError (Patches × Overlay) :=
  ov.update (ov.syncChanges all)

/-! ### Reading -/

def u32At (h : List Byte) (o : ℕ) : ℕ := ofLeBytes (slice h o (o + 4))

def u64At (h : List Byte) (o : ℕ) : ℕ := ofLeBytes (slice h o (o + 8))

/-- Slot `k` of the file, if the file is long enough. -/
def slotAt (bytes : List Byte) (k : ℕ) : Option (List Byte) :=
  if slotOffset k + slotLen ≤ bytes.length then
    some (slice bytes (slotOffset k) (slotOffset k + slotLen))
  else none

/-- What `load` found: the overlay, and the clusters with their data in index
order. -/
structure Loaded where
  overlay : Overlay
  clusters : List (ℕ × List Byte)

def Loaded.spare (loaded : Loaded) (k : ℕ) : Loaded :=
  let table := loaded.overlay.table
  { loaded with
    overlay := { loaded.overlay with table := { table with free := table.free.insert k } } }

/-- Slot `k` of the file. -/
def readSlot (bytes : List Byte) (loaded : Loaded) (k : ℕ) : Loaded :=
  match slotAt bytes k with
  | none => loaded.spare k
  | some slot =>
    let ov := loaded.overlay
    let c := u64At slot 0
    let check := UInt64.ofNat (u64At slot 8)
    let data := slot.drop 16
    if check ≠ slotCheck c data ∨
        c ≠ freeMark ∧ (clusterCount ov.diskSize ≤ c ∨ (ov.table.map[c]?).isSome) then
      { loaded with overlay := { ov with damaged := ov.damaged + 1 } }.spare k
    else if c = freeMark then loaded.spare k
    else
      ⟨{ ov with table := { ov.table with map := ov.table.map.insert c (k, check) } },
        loaded.clusters ++ [(c, data.take (dataLen ov.diskSize c))]⟩

/-- The slots that the header counts. -/
def readSlots (bytes : List Byte) (ov : Overlay) : Loaded :=
  let loaded := (List.range ov.table.slots).foldl (readSlot bytes) ⟨ov, []⟩
  { loaded with clusters := loaded.clusters.mergeSort fun a b => a.1 ≤ b.1 }

/-- The generation and the number of slots of a header of this disk. -/
def readHeader (h identity : List Byte) (diskSize : ℕ) : Result LoadError (ℕ × ℕ) :=
  if h.take 8 ≠ magic then fail (.corrupt "not a Vetro overlay")
  else if u32At h 8 ≠ version then
    fail (.corrupt s!"format version {u32At h 8}, expected {version}")
  else if u64At h (headerLen - 8) ≠ (hash64 (h.take (headerLen - 8))).toNat then
    fail (.corrupt "corrupted header")
  else if u32At h 12 ≠ clusterLen then fail (.corrupt s!"clusters of {u32At h 12} bytes")
  else if maxIdentity < u32At h 40 then fail (.corrupt "identity too long")
  else if slice h 44 (44 + u32At h 40) ≠ identity then
    fail (.otherBase (slice h 44 (44 + u32At h 40)) identity)
  else if u64At h 16 ≠ diskSize then fail (.otherSize (u64At h 16) diskSize)
  else .ok (u64At h 24, u64At h 32)

/-- The overlay of a header, before its slots are read. -/
def ofHeader (identity : List Byte) (diskSize generation slots : ℕ) : Overlay :=
  { new identity diskSize with
    generation
    table := { Table.empty with slots }
    fresh := false }

/-- Reads the whole file.  An empty file gives a new overlay with no
clusters. -/
def load (bytes identity : List Byte) (diskSize : ℕ) : Result LoadError Loaded :=
  let ov := new identity diskSize
  if bytes = [] then .ok ⟨ov, []⟩
  else if bytes.length < headerLen then fail (.corrupt "shorter than the header")
  else do
    let (generation, slots) ← readHeader (bytes.take headerLen) ov.identity diskSize
    .ok (readSlots bytes (ofHeader identity diskSize generation slots))

/-! ## What a change does -/

/-- One change: it does nothing when the check is the stored one or the cluster
to remove is absent; otherwise it writes one slot. -/
inductive Changed (ov : Overlay) (c : ℕ) :
    Option (List Byte) → Option (ℕ × List Byte) → Overlay → Prop where
  | same {data : List Byte}
      (hcheck : (ov.table.map[c]?).map Prod.snd = some (slotBytes c data).1) :
      Changed ov c (some data) none ov
  | written {data : List Byte} {slot : ℕ} {table : Table ℕ UInt64}
      (hinside : c < clusterCount ov.diskSize) (hlength : data.length ≤ clusterLen)
      (hcheck : (ov.table.map[c]?).map Prod.snd ≠ some (slotBytes c data).1)
      (hplaced : Placed ov.table c (slotBytes c data).1 slot table) :
      Changed ov c (some data) (some (slotOffset slot, (slotBytes c data).2)) { ov with table }
  | absent (hnone : ov.table.map[c]? = none) : Changed ov c none none ov
  | removed {slot : ℕ} {table : Table ℕ UInt64}
      (hremove : ov.table.remove c = some (slot, table)) :
      Changed ov c none (some (slotOffset slot, (slotBytes freeMark []).2)) { ov with table }

variable {ov : Overlay} {c : ℕ} {write : Option (ℕ × List Byte)} {data : Option (List Byte)}

theorem changed {next : Overlay}
    (hchange : ov.change c data = .ok (write, next)) : Changed ov c data write next := by
  cases data with
  | some data =>
    obtain ⟨_, hrequire, hrest⟩ := bind_eq_ok.mp hchange
    have hinside : c < clusterCount ov.diskSize ∧ data.length ≤ clusterLen := by
      by_contra hout
      rw [require, if_neg hout] at hrequire
      cases hrequire
    dsimp only at hrest
    split_ifs at hrest with hcheck
    · cases hrest
      exact .same hcheck
    · cases hrest
      exact .written hinside.1 hinside.2 hcheck (placed_put _ _ _)
  | none =>
    rw [change] at hchange
    split at hchange
    · rename_i hremove
      cases hchange
      refine .absent ?_
      rw [Table.remove] at hremove
      split at hremove
      · cases hremove
      · assumption
    · rename_i slot table hremove
      cases hchange
      exact .removed hremove

/-- A change that is inside the disk does not panic. -/
theorem change_ok (ov : Overlay) (c : ℕ) (data : Option (List Byte))
    (hinside : ∀ d, data = some d → c < clusterCount ov.diskSize ∧ d.length ≤ clusterLen) :
    ∃ write next, ov.change c data = .ok (write, next) := by
  cases data with
  | some data =>
    rw [change, require_eq_ok (hinside data rfl), ok_bind]
    dsimp only
    split_ifs
    · exact ⟨_, _, rfl⟩
    · exact ⟨_, _, rfl⟩
  | none =>
    rw [change]
    split
    · exact ⟨_, _, rfl⟩
    · exact ⟨_, _, rfl⟩

/-! ## The slots -/

/-- The slots below `slots` are shared out between the clusters and the free
slots. -/
def Slots (ov : Overlay) : Prop := Valid ov.table ov.table.slots

variable {table : Table ℕ UInt64}

section Slots

variable {ov next : Overlay} {c : ℕ} {data : Option (List Byte)}
  {write : Option (ℕ × List Byte)} {writes : List (ℕ × List Byte)} {changes : List Change}

theorem Slots.change (hslots : Slots ov) (hchanged : Changed ov c data write next) :
    Slots next := by
  cases hchanged with
  | same hcheck => exact hslots
  | written hinside hlength hcheck hplaced => exact Valid.placed hslots hplaced
  | absent hnone => exact hslots
  | removed hremove => exact Valid.remove hslots hremove

/-- The changes of a call as single steps. -/
inductive ChangedAll : Overlay → List Change → List (ℕ × List Byte) → Overlay → Prop where
  | nil {ov : Overlay} : ChangedAll ov [] [] ov
  | cons {ov middle next : Overlay} {c : ℕ} {data : Option (List Byte)}
      {write : Option (ℕ × List Byte)} {rest : List Change} {writes : List (ℕ × List Byte)}
      (hchanged : Changed ov c data write middle)
      (hrest : ChangedAll middle rest writes next) :
      ChangedAll ov ((c, data) :: rest) (write.toList ++ writes) next

theorem changedAll (hchange : ov.changeAll changes = .ok (writes, next)) :
    ChangedAll ov changes writes next := by
  induction changes generalizing ov writes with
  | nil =>
    cases hchange
    exact .nil
  | cons change rest ih =>
    obtain ⟨⟨write, middle⟩, hfirst, hsecond⟩ := bind_eq_ok.mp hchange
    obtain ⟨⟨later, last⟩, hrest, hlast⟩ := bind_eq_ok.mp hsecond
    cases hlast
    exact .cons (changed hfirst) (ih hrest)

theorem Slots.changeAll (hslots : Slots ov) (hchanged : ChangedAll ov changes writes next) :
    Slots next := by
  induction hchanged with
  | nil => exact hslots
  | cons hchanged _ ih => exact ih (hslots.change hchanged)

variable {p : Patches}

/-- A call is a run of changes, followed by the header if there is anything to
write. -/
theorem update_cases (hupdate : ov.update changes = .ok (p, next)) :
    ∃ writes last, ChangedAll ov changes writes last ∧
      p.truncate = (if ov.fresh then some 0 else none) ∧
      ((writes ≠ [] ∨ last.fresh = true) ∧
          next = { last with generation := (last.generation + 1) % 2 ^ 64, fresh := false } ∧
          p.writes = writes ++ [(0, next.header)] ∨
        writes = [] ∧ last.fresh = false ∧ next = last ∧ p.writes = []) := by
  obtain ⟨⟨writes, last⟩, hchange, hrest⟩ := bind_eq_ok.mp hupdate
  refine ⟨writes, last, changedAll hchange, ?_⟩
  dsimp only at hrest
  by_cases hwrite : writes ≠ [] ∨ last.fresh = true
  · rw [if_pos hwrite] at hrest
    cases hrest
    exact ⟨rfl, .inl ⟨hwrite, rfl, rfl⟩⟩
  · rw [if_neg hwrite] at hrest
    cases hrest
    rw [not_or, not_not, Bool.not_eq_true] at hwrite
    exact ⟨rfl, .inr ⟨hwrite.1, hwrite.2, rfl, hwrite.1⟩⟩

theorem Slots.update (hslots : Slots ov) (hupdate : ov.update changes = .ok (p, next)) :
    Slots next := by
  obtain ⟨writes, last, hchanged, _, hcases⟩ := update_cases hupdate
  have hlast := hslots.changeAll hchanged
  rcases hcases with ⟨_, rfl, _⟩ | ⟨_, _, rfl, _⟩
  · exact hlast
  · exact hlast

/-! ### After reading a file -/

variable {loaded : Loaded}

variable (bytes : List Byte)

theorem Valid.readSlot {k : ℕ} (hvalid : Valid loaded.overlay.table k) :
    Valid (readSlot bytes loaded k).overlay.table (k + 1) := by
  rw [Overlay.readSlot]
  split
  · exact hvalid.spare _
  · dsimp only
    split_ifs with hdamaged hfree
    · exact hvalid.spare _
    · exact hvalid.spare _
    · refine hvalid.claim ?_ _
      push Not at hdamaged
      exact Option.not_isSome_iff_eq_none.mp (by simpa using (hdamaged.2 hfree).2)

/-- Reading a slot leaves the other fields as they are. -/
theorem readSlot_frame (loaded : Loaded) (k : ℕ) :
    (readSlot bytes loaded k).overlay.diskSize = loaded.overlay.diskSize ∧
      (readSlot bytes loaded k).overlay.generation = loaded.overlay.generation ∧
      (readSlot bytes loaded k).overlay.fresh = loaded.overlay.fresh ∧
      (readSlot bytes loaded k).overlay.table.slots = loaded.overlay.table.slots := by
  rw [Overlay.readSlot]
  split
  · exact ⟨rfl, rfl, rfl, rfl⟩
  · dsimp only
    split_ifs <;> exact ⟨rfl, rfl, rfl, rfl⟩

theorem foldl_readSlot_frame (loaded : Loaded) (n : ℕ) :
    ((List.range n).foldl (readSlot bytes) loaded).overlay.diskSize = loaded.overlay.diskSize ∧
      ((List.range n).foldl (readSlot bytes) loaded).overlay.generation =
        loaded.overlay.generation ∧
      ((List.range n).foldl (readSlot bytes) loaded).overlay.fresh = loaded.overlay.fresh ∧
      ((List.range n).foldl (readSlot bytes) loaded).overlay.table.slots =
        loaded.overlay.table.slots := by
  induction n with
  | zero => exact ⟨rfl, rfl, rfl, rfl⟩
  | succ n ih =>
    rw [range_succ, foldl_append, foldl_cons, foldl_nil]
    obtain ⟨hsize, hgeneration, hfresh, hslots⟩ := readSlot_frame bytes
      ((List.range n).foldl (readSlot bytes) loaded) n
    exact ⟨hsize.trans ih.1, hgeneration.trans ih.2.1, hfresh.trans ih.2.2.1, hslots.trans ih.2.2.2⟩

theorem valid_readSlots (hempty : Valid ov.table 0) (n : ℕ) :
    Valid ((List.range n).foldl (readSlot bytes) ⟨ov, []⟩).overlay.table n := by
  induction n with
  | zero => exact hempty
  | succ n ih =>
    rw [range_succ, foldl_append, foldl_cons, foldl_nil]
    exact Valid.readSlot bytes ih

variable {diskSize : ℕ} {bytes identity : List Byte}

theorem load_cases
    (hload : load bytes identity diskSize = .ok loaded) :
    loaded = ⟨new identity diskSize, []⟩ ∨
      ∃ generation slots,
        loaded = readSlots bytes (ofHeader identity diskSize generation slots) := by
  rw [load] at hload
  split_ifs at hload
  · exact .inl (Except.ok.inj hload).symm
  · cases hload
  · obtain ⟨⟨generation, slots⟩, _, hread⟩ := bind_eq_ok.mp hload
    exact .inr ⟨generation, slots, (Except.ok.inj hread).symm⟩

theorem slots_new (identity : List Byte) (diskSize : ℕ) : Slots (new identity diskSize) :=
  valid_empty

theorem slots_load
    (hload : load bytes identity diskSize = .ok loaded) :
    Slots loaded.overlay := by
  rcases load_cases hload with rfl | ⟨generation, slots, rfl⟩
  · exact slots_new identity diskSize
  · have hempty : Valid (ofHeader identity diskSize generation slots).table 0 :=
      ⟨valid_empty.injective, valid_empty.disjoint, valid_empty.covers⟩
    have hvalid := valid_readSlots bytes hempty slots
    obtain ⟨_, _, _, hslots⟩ := foldl_readSlot_frame bytes
      ⟨ofHeader identity diskSize generation slots, []⟩ slots
    rw [Slots]
    exact hslots ▸ hvalid

/-! ## The writes -/

theorem u64At_slotBytes (hc : c < 2 ^ 64) (data : List Byte) :
    u64At (slotBytes c data).2 0 = c := by
  rw [u64At, slotBytes, slice_zero, append_assoc,
    take_left' (length_leBytes 8 c), ofLeBytes_leBytes_of_lt (by simpa using hc)]

theorem slotOffset_ne_zero (k : ℕ) : slotOffset k ≠ 0 := by
  simp [slotOffset, headerLen]

theorem clusterCount_lt (hsize : diskSize < 2 ^ 64) : clusterCount diskSize < 2 ^ 64 - 1 := by
  rw [clusterCount, clusterLen]
  omega

/-- The disk is addressed with 64 bits and the clusters are inside it. -/
structure Inside (ov : Overlay) : Prop where
  size : ov.diskSize < 2 ^ 64
  below : ∀ {c slot}, ov.table.At c slot → c < clusterCount ov.diskSize

theorem Changed.diskSize_eq (hchanged : Changed ov c data write next) :
    next.diskSize = ov.diskSize := by
  cases hchanged <;> rfl

theorem at_placed {after : Table ℕ UInt64} {c' slot slot' : ℕ} {value : UInt64}
    (hplaced : Placed table c value slot after) :
    after.At c' slot' ↔ if c = c' then slot' = slot else table.At c' slot' := by
  cases hplaced <;> exact at_insert

theorem Inside.change (hinside : Inside ov) (hchanged : Changed ov c data write next) :
    Inside next := by
  cases hchanged with
  | same hcheck => exact hinside
  | written hc hlength hcheck hplaced =>
    refine ⟨hinside.size, fun {c' slot'} hat => ?_⟩
    rw [at_placed hplaced] at hat
    split_ifs at hat with hsame
    · exact hsame ▸ hc
    · exact hinside.below hat
  | absent hnone => exact hinside
  | removed hremove =>
    obtain ⟨_, rfl⟩ := remove_eq_some hremove
    exact ⟨hinside.size, fun hat => hinside.below (at_erase.mp hat).2⟩

theorem Inside.readSlot (hinside : Inside loaded.overlay) (bytes : List Byte) (k : ℕ) :
    Inside (readSlot bytes loaded k).overlay := by
  rw [Overlay.readSlot]
  split
  · exact ⟨hinside.size, hinside.below⟩
  · dsimp only
    split_ifs with hdamaged hfree
    · exact ⟨hinside.size, hinside.below⟩
    · exact ⟨hinside.size, hinside.below⟩
    · refine ⟨hinside.size, fun {c slot} hat => ?_⟩
      rw [at_insert] at hat
      split_ifs at hat with hsame
      · subst hsame
        by_contra houtside
        exact hdamaged (.inr ⟨hfree, .inl (Nat.le_of_not_lt houtside)⟩)
      · exact hinside.below hat

theorem ChangedAll.diskSize_eq (hchanged : ChangedAll ov changes writes next) :
    next.diskSize = ov.diskSize := by
  induction hchanged with
  | nil => rfl
  | cons hchanged _ ih => exact ih.trans hchanged.diskSize_eq

theorem Inside.changeAll (hinside : Inside ov) (hchanged : ChangedAll ov changes writes next) :
    Inside next := by
  induction hchanged with
  | nil => exact hinside
  | cons hchanged _ ih => exact ih (hinside.change hchanged)

theorem Inside.update (hinside : Inside ov) (hupdate : ov.update changes = .ok (p, next)) :
    Inside next := by
  obtain ⟨writes, last, hchanged, _, hcases⟩ := update_cases hupdate
  have hlast := hinside.changeAll hchanged
  rcases hcases with ⟨_, rfl, _⟩ | ⟨_, _, rfl, _⟩
  · exact ⟨hlast.size, hlast.below⟩
  · exact hlast

theorem inside_new (identity : List Byte) (hsize : diskSize < 2 ^ 64) :
    Inside (new identity diskSize) :=
  ⟨hsize, fun {c slot} hat => by simp [new, Table.At, Table.empty] at hat⟩

theorem inside_load (hsize : diskSize < 2 ^ 64)
    (hload : load bytes identity diskSize = .ok loaded) : Inside loaded.overlay := by
  have hnew := inside_new identity hsize
  rcases load_cases hload with rfl | ⟨generation, slots, rfl⟩
  · exact hnew
  · have hread : ∀ n, Inside ((List.range n).foldl (readSlot bytes)
        ⟨ofHeader identity diskSize generation slots, []⟩).overlay := by
      intro n
      induction n with
      | zero => exact ⟨hnew.size, hnew.below⟩
      | succ n ih =>
        rw [range_succ, foldl_append, foldl_cons, foldl_nil]
        exact ih.readSlot bytes n
    exact hread slots

/-- Every write of cluster `c` goes to slot `slot`. -/
def WritesAt (writes : List (ℕ × List Byte)) (c slot : ℕ) : Prop :=
  ∀ write ∈ writes, write.1 ≠ 0 → u64At write.2 0 = c → write.1 = slotOffset slot

/-- A cluster that is removed is not written again by the same call. -/
def NoReturn (changes : List Change) : Prop :=
  changes.Pairwise fun first second => first.2 = none → second.2 ≠ none → first.1 ≠ second.1

/-- An absent cluster that is not written stays absent. -/
theorem ChangedAll.absent (hchanged : ChangedAll ov changes writes next)
    (habsent : ∀ slot, ¬ov.table.At c slot)
    (hnone : ∀ change ∈ changes, change.1 = c → change.2 = none) (slot : ℕ) :
    ¬next.table.At c slot := by
  induction hchanged with
  | nil => exact habsent slot
  | @cons ov middle next c' data write rest writes hstep hrest ih =>
    refine ih (fun slot' hat => ?_) fun change hmem =>
      hnone change (mem_cons_of_mem _ hmem)
    cases hstep with
    | same hcheck => exact habsent slot' hat
    | @written data _ _ hc hlength hcheck hplaced =>
      rw [at_placed hplaced] at hat
      split_ifs at hat with hsame
      · have hdata := hnone (c', some data) mem_cons_self hsame
        cases hdata
      · exact habsent slot' hat
    | absent hmissing => exact habsent slot' hat
    | removed hremove =>
      obtain ⟨_, rfl⟩ := remove_eq_some hremove
      exact habsent slot' (at_erase.mp hat).2

/-- A cluster that is present before and after keeps its slot. -/
theorem ChangedAll.keep (hchanged : ChangedAll ov changes writes next) {slot slot' : ℕ}
    (hreturn : NoReturn changes) (hbefore : ov.table.At c slot) (hafter : next.table.At c slot') :
    slot = slot' := by
  induction hchanged with
  | nil => exact hbefore.unique hafter
  | @cons ov middle next c' data write rest writes hstep hrest ih =>
    obtain ⟨hfirst, hlater⟩ := pairwise_cons.mp hreturn
    cases hstep with
    | same hcheck => exact ih hlater hbefore hafter
    | written hc hlength hcheck hplaced =>
      refine ih hlater ((at_placed hplaced).mpr ?_) hafter
      split_ifs with hsame
      · subst hsame
        cases hplaced with
        | keep hat => exact hbefore.unique hat
        | reuse hnew hfree => simp [Table.At, hnew] at hbefore
        | grow hnew hfull => simp [Table.At, hnew] at hbefore
      · exact hbefore
    | absent hmissing => exact ih hlater hbefore hafter
    | removed hremove =>
      obtain ⟨_, rfl⟩ := remove_eq_some hremove
      by_cases hsame : c' = c
      · subst hsame
        refine absurd hafter (hrest.absent (fun _ hat => (at_erase.mp hat).1 rfl) ?_ slot')
        intro change hmem hcluster
        by_contra hsome
        exact hfirst change hmem rfl hsome hcluster.symm
      · exact ih hlater (at_erase.mpr ⟨hsame, hbefore⟩) hafter

/-- The state right after a written change. -/
theorem Changed.at_write (hchanged : Changed ov c data write next) (hinside : Inside ov)
    {offset : ℕ} {bytes : List Byte} (hwrite : write = some (offset, bytes)) {c' : ℕ}
    (hcluster : u64At bytes 0 = c') (hpresent : c' < clusterCount ov.diskSize) :
    ∃ slot, next.table.At c' slot ∧ offset = slotOffset slot := by
  have hcount := clusterCount_lt hinside.size
  cases hchanged with
  | same hcheck => cases hwrite
  | @written data slot table hc hlength hcheck hplaced =>
    cases hwrite
    rw [u64At_slotBytes (by omega)] at hcluster
    exact ⟨slot, (at_placed hplaced).mpr (by rw [if_pos hcluster]), rfl⟩
  | absent hnone => cases hwrite
  | removed hremove =>
    cases hwrite
    rw [u64At_slotBytes (by simp [freeMark])] at hcluster
    rw [← hcluster, freeMark] at hpresent
    omega

theorem ChangedAll.writesAt (hchanged : ChangedAll ov changes writes next) {slot : ℕ}
    (hinside : Inside ov) (hreturn : NoReturn changes) (hafter : next.table.At c slot) :
    WritesAt writes c slot := by
  induction hchanged with
  | nil => exact fun write hmem => absurd hmem not_mem_nil
  | @cons ov middle next c' data write rest writes hstep hrest ih =>
    obtain ⟨_, hlater⟩ := pairwise_cons.mp hreturn
    have hmiddle := hinside.change hstep
    have hpresent : c < clusterCount ov.diskSize :=
      hstep.diskSize_eq ▸ hrest.diskSize_eq ▸ (hmiddle.changeAll hrest).below hafter
    rintro ⟨offset, bytes⟩ hmem hoffset hcluster
    rcases mem_append.mp hmem with hhere | hthere
    · obtain ⟨own, hown, rfl⟩ :=
        hstep.at_write hinside (Option.mem_toList.mp hhere) hcluster hpresent
      rw [hrest.keep hlater hown hafter]
    · exact ih hmiddle hlater hafter _ hthere hoffset hcluster

variable {write : ℕ × List Byte}

/-- The write of a change comes from the state that the changes before it
leave. -/
theorem mem_writes_changeAll (hchange : ov.changeAll changes = .ok (writes, next))
    (hmem : write ∈ writes) :
    ∃ before c data after earlier previous middle,
      changes = before ++ (c, data) :: after ∧
      ov.changeAll (before ++ [(c, data)]) = .ok (earlier ++ [write], middle) ∧
      Changed previous c data (some write) middle := by
  induction changes generalizing ov writes with
  | nil =>
    cases hchange
    cases hmem
  | cons change rest ih =>
    obtain ⟨c, data⟩ := change
    obtain ⟨⟨first, middle⟩, hfirst, hsecond⟩ := bind_eq_ok.mp hchange
    obtain ⟨⟨later, last⟩, hrest, hlast⟩ := bind_eq_ok.mp hsecond
    cases hlast
    rcases mem_append.mp hmem with hhere | hthere
    · rw [Option.mem_toList] at hhere
      subst hhere
      refine ⟨[], c, data, rest, [], ov, middle, rfl, ?_, changed hfirst⟩
      rw [nil_append, changeAll, hfirst, ok_bind]
      rfl
    · obtain ⟨before, c', data', after, earlier, previous, inner, rfl, hbefore, hchanged⟩ :=
        ih hrest hthere
      refine ⟨(c, data) :: before, c', data', after, first.toList ++ earlier, previous,
        inner, rfl, ?_, hchanged⟩
      rw [cons_append, changeAll, hfirst, ok_bind]
      dsimp only
      rw [hbefore, ok_bind, append_assoc]

/-- `write` stores a cluster of `changes` in the slot that the cluster has right
after its change. -/
def OwnWrite (ov : Overlay) (changes : List Change) (write : ℕ × List Byte) : Prop :=
  ∃ before c data after earlier middle slot,
    changes = before ++ (c, some data) :: after ∧
    ov.changeAll (before ++ [(c, some data)]) = .ok (earlier ++ [write], middle) ∧
    middle.table.At c slot ∧ write = (slotOffset slot, (slotBytes c data).2)

/-- `write` marks as free a slot that is free right after its change. -/
def FreeWrite (ov : Overlay) (changes : List Change) (write : ℕ × List Byte) : Prop :=
  ∃ before c after earlier middle slot,
    changes = before ++ (c, none) :: after ∧
    ov.changeAll (before ++ [(c, none)]) = .ok (earlier ++ [write], middle) ∧
    slot ∈ middle.table.free ∧ write = (slotOffset slot, (slotBytes freeMark []).2)

theorem own_or_free (hchange : ov.changeAll changes = .ok (writes, next))
    (hmem : write ∈ writes) :
    OwnWrite ov changes write ∨ FreeWrite ov changes write := by
  obtain ⟨before, c, data, after, earlier, previous, middle, hsplit, hbefore, hchanged⟩ :=
    mem_writes_changeAll hchange hmem
  cases hchanged with
  | @written data slot table hc hlength hcheck hplaced =>
    exact .inl ⟨before, c, data, after, earlier, _, slot, hsplit, hbefore,
      (at_placed hplaced).mpr (by rw [if_pos rfl]), rfl⟩
  | @removed slot table hremove =>
    obtain ⟨_, rfl⟩ := remove_eq_some hremove
    exact .inr ⟨before, c, after, earlier, _, slot, hsplit, hbefore,
      mem_insert_slot.mpr (.inl rfl), rfl⟩

theorem noReturn_syncChanges (ov : Overlay) (all : List (ℕ × List Byte)) :
    NoReturn (ov.syncChanges all) := by
  rw [NoReturn, syncChanges, pairwise_append]
  refine ⟨?_, ?_, ?_⟩
  · rw [pairwise_map]
    exact pairwise_of_forall fun _ _ hnone => absurd hnone (by simp)
  · rw [pairwise_map]
    exact pairwise_of_forall fun _ _ _ hsome => absurd rfl hsome
  · intro first hfirst second _ hnone
    obtain ⟨cluster, _, rfl⟩ := mem_map.mp hfirst
    cases hnone

end Slots

/-! ## Every reachable state -/

/-- The overlays that calls can lead to.  The size of a disk is a 64-bit
number. -/
inductive Reachable : Overlay → Prop where
  | new (identity : List Byte) {diskSize : ℕ} (hsize : diskSize < 2 ^ 64) :
      Reachable (new identity diskSize)
  | load {bytes identity : List Byte} {diskSize : ℕ} {loaded : Loaded}
      (hsize : diskSize < 2 ^ 64) (hload : load bytes identity diskSize = .ok loaded) :
      Reachable loaded.overlay
  | update {ov next : Overlay} {changes : List Change} {p : Patches} (hreach : Reachable ov)
      (hupdate : ov.update changes = .ok (p, next)) : Reachable next
  | sync {ov next : Overlay} {all : List (ℕ × List Byte)} {p : Patches}
      (hreach : Reachable ov) (hsync : ov.sync all = .ok (p, next)) : Reachable next

theorem Reachable.slots (hreach : Reachable ov) : Slots ov := by
  induction hreach with
  | new identity hsize => exact slots_new identity _
  | load hsize hload => exact slots_load hload
  | update hreach hupdate ih => exact ih.update hupdate
  | sync hreach hsync ih => exact ih.update hsync

theorem Reachable.inside (hreach : Reachable ov) : Inside ov := by
  induction hreach with
  | new identity hsize => exact inside_new identity hsize
  | load hsize hload => exact inside_load hsize hload
  | update hreach hupdate ih => exact ih.update hupdate
  | sync hreach hsync ih => exact ih.update hsync

variable {slot : ℕ} {changes : List Change}

theorem writesAt_update {next : Overlay} {p : Patches} (hinside : Inside ov)
    (hreturn : NoReturn changes) (hupdate : ov.update changes = .ok (p, next))
    (hat : next.table.At c slot) : WritesAt p.writes c slot := by
  obtain ⟨writes, last, hchanged, _, hcases⟩ := update_cases hupdate
  rcases hcases with ⟨_, rfl, hwrites⟩ | ⟨rfl, _, rfl, hwrites⟩
  · intro write hmem hoffset hcluster
    rw [hwrites] at hmem
    rcases mem_append.mp hmem with hslot | hheader
    · exact hchanged.writesAt hinside hreturn hat write hslot hoffset hcluster
    · rw [mem_singleton.mp hheader] at hoffset
      exact absurd rfl hoffset
  · rw [hwrites]
    exact fun write hmem => absurd hmem not_mem_nil

/-- In every reachable state the slots are shared out between the clusters and
the free slots.  A call writes slots and then the header, or nothing.  It stores
each cluster in the slot that the cluster has at that moment, and frees only free
slots; unless it writes again a cluster that it removed, every write of a cluster
that it leaves present is in the cluster's own slot, and `sync` never does that. -/
theorem Reachable.slot_invariant {ov : Overlay} (hreach : Reachable ov) :
    Slots ov ∧
      (∀ changes p next, ov.update changes = .ok (p, next) →
        (∃ writes, (p.writes = writes ++ [(0, next.header)] ∨ p.writes = [] ∧ writes = []) ∧
          ∀ write ∈ writes, OwnWrite ov changes write ∨ FreeWrite ov changes write) ∧
        (NoReturn changes → ∀ c slot, next.table.At c slot → WritesAt p.writes c slot)) ∧
      ∀ all p next, ov.sync all = .ok (p, next) →
        ∀ c slot, next.table.At c slot → WritesAt p.writes c slot := by
  refine ⟨hreach.slots, fun changes p next hupdate => ⟨?_,
    fun hreturn c slot hat => writesAt_update hreach.inside hreturn hupdate hat⟩,
    fun all p next hsync c slot hat =>
      writesAt_update hreach.inside (noReturn_syncChanges ov all) hsync hat⟩
  obtain ⟨⟨writes, last⟩, hchange, hrest⟩ := bind_eq_ok.mp hupdate
  dsimp only at hrest
  refine ⟨writes, ?_, fun write hmem => own_or_free hchange hmem⟩
  by_cases hwrite : writes ≠ [] ∨ last.fresh = true
  · rw [if_pos hwrite] at hrest
    cases hrest
    exact .inl rfl
  · rw [if_neg hwrite] at hrest
    cases hrest
    obtain rfl : writes = [] := not_not.mp fun hne => hwrite (.inl hne)
    exact .inr ⟨rfl, rfl⟩

theorem change_absent {data : List Byte} (hinside : c < clusterCount ov.diskSize)
    (hlength : data.length ≤ clusterLen) (hnone : ov.table.map[c]? = none)
    (hput : ov.table.put c (slotBytes c data).1 = (slot, table)) :
    ov.change c (some data) =
      .ok (some (slotOffset slot, (slotBytes c data).2), { ov with table }) := by
  rw [change, require_eq_ok ⟨hinside, hlength⟩, ok_bind]
  dsimp only
  rw [hnone, Option.map_none, if_neg (by simp), hput]

theorem change_remove (hremove : ov.table.remove c = some (slot, table)) :
    ov.change c none =
      .ok (some (slotOffset slot, (slotBytes freeMark []).2), { ov with table }) := by
  rw [change, hremove]

variable {writes : List (ℕ × List Byte)}

theorem changeAll_cons {middle next : Overlay}
    {rest : List Change}
    (hchange : ov.change c data = .ok (write, middle))
    (hrest : middle.changeAll rest = .ok (writes, next)) :
    ov.changeAll ((c, data) :: rest) = .ok (write.toList ++ writes, next) := by
  rw [changeAll, hchange, ok_bind]
  dsimp only
  rw [hrest, ok_bind]

theorem update_of_writes {last : Overlay}
    (hchange : ov.changeAll changes = .ok (writes, last)) (hwrites : writes ≠ []) :
    ∃ p next, ov.update changes = .ok (p, next) ∧ next.table = last.table ∧
      next.diskSize = last.diskSize ∧ writes ⊆ p.writes := by
  rw [update]
  rw [hchange, ok_bind]
  dsimp only
  rw [if_pos (.inl hwrites)]
  exact ⟨_, _, rfl, rfl, rfl, subset_append_left _ _⟩

/-- Two keys are put and removed, and the second one is put again. -/
theorem second_key_moves (a b d : UInt64) : ∃ one two three four five : Table ℕ UInt64,
    Table.empty.put 0 a = (0, one) ∧ one.map[1]? = none ∧ one.put 1 b = (1, two) ∧
      two.remove 0 = some (0, three) ∧ three.remove 1 = some (1, four) ∧
      four.map[1]? = none ∧ four.put 1 d = (0, five) ∧ five.At 1 0 := by
  let one : Table ℕ UInt64 := ⟨(∅ : Std.TreeMap ℕ (ℕ × UInt64) compare).insert 0 (0, a), ∅, 1⟩
  let two : Table ℕ UInt64 := ⟨one.map.insert 1 (1, b), ∅, 2⟩
  let three : Table ℕ UInt64 := ⟨two.map.erase 0, two.free.insert 0, 2⟩
  let four : Table ℕ UInt64 := ⟨three.map.erase 1, three.free.insert 1, 2⟩
  let five : Table ℕ UInt64 := ⟨four.map.insert 1 (0, d), four.free.erase 0, 2⟩
  have hnew : one.map[1]? = none := by simp [one]
  have hzero : two.map[0]? = some (0, a) := by
    rfl
  have hone : three.map[1]? = some (1, b) := by
    simp [three, two]
  have hgone : four.map[1]? = none := by simp [four]
  have hmin : four.free.min? = some 0 :=
    Std.TreeSet.min?_eq_some_iff_mem_and_forall.mpr
      ⟨by simp [four, three], fun slot _ => by simp [Nat.isLE_compare]⟩
  refine ⟨one, two, three, four, five, ?_, hnew, ?_, ?_, ?_, hgone, ?_, ?_⟩
  · simp [Table.put, Table.alloc, Table.empty, one]
  · simp [Table.put, Table.alloc, one, two]
  · rw [Table.remove, hzero]
  · rw [Table.remove, hone]
  · rw [Table.put, hgone, Table.alloc, hmin]
  · exact at_insert.mpr (by rw [if_pos rfl])

theorem length_single_le (byte : Byte) : [byte].length ≤ clusterLen := by simp [clusterLen]

/-- Both clusters of a disk are written and removed, and the second one is written again, in the
slot that the first one had. -/
theorem slot_invariant_reused : ∃ p ov p' next,
    (new [] 8192).update [(0, some [1]), (1, some [2]), (0, none), (1, none)] = .ok (p, ov) ∧
    ov.update [(1, some [3])] = .ok (p', next) ∧ next.table.At 1 0 ∧ Slots next ∧
    WritesAt p'.writes 1 0 ∧ ∃ writes, p'.writes = writes ++ [(0, next.header)] := by
  obtain ⟨one, two, three, four, five, hone, hnew, htwo, hthree, hfour, hgone, hfive, hat⟩ :=
    second_key_moves (slotBytes 0 [1]).1 (slotBytes 1 [2]).1 (slotBytes 1 [3]).1
  have hcount : clusterCount 8192 = 2 := by decide
  have hchange : (new [] 8192).changeAll [(0, some [1]), (1, some [2]), (0, none), (1, none)] =
      .ok ([(slotOffset 0, (slotBytes 0 [1]).2), (slotOffset 1, (slotBytes 1 [2]).2),
        (slotOffset 0, (slotBytes freeMark []).2), (slotOffset 1, (slotBytes freeMark []).2)],
        { new [] 8192 with table := four }) := by
    refine changeAll_cons (change_absent (hcount ▸ by decide) (length_single_le 1) rfl hone) ?_
    refine changeAll_cons (change_absent (hcount ▸ by decide) (length_single_le 2) hnew htwo) ?_
    refine changeAll_cons (change_remove hthree) ?_
    exact changeAll_cons (change_remove hfour) rfl
  obtain ⟨p, ov, hupdate, htable, hsize, -⟩ := update_of_writes hchange (by simp)
  have hsize' : ov.diskSize = 8192 := hsize
  have hagain : ov.changeAll [(1, some [3])] =
      .ok ([(slotOffset 0, (slotBytes 1 [3]).2)], { ov with table := five }) :=
    changeAll_cons (change_absent (by rw [hsize', hcount]; decide) (length_single_le 3)
      (htable ▸ hgone) (htable ▸ hfive)) rfl
  obtain ⟨p', next, hupdate', htable', -, hwrites⟩ := update_of_writes hagain (by simp)
  have hreach : Reachable ov := .update (.new [] (by decide)) hupdate
  have hmoved : next.table.At 1 0 := htable' ▸ hat
  obtain ⟨⟨writes, hlast, -⟩, hown⟩ := hreach.slot_invariant.2.1 _ p' next hupdate'
  refine ⟨p, ov, p', next, hupdate, hupdate', hmoved,
    (Reachable.slot_invariant (hreach.update hupdate')).1,
    hown (pairwise_singleton _ _) 1 0 hmoved, writes, hlast.resolve_right fun hnone => ?_⟩
  rw [hnone.1] at hwrites
  exact absurd (hwrites mem_cons_self) not_mem_nil

/-- A call that removes a cluster and writes it again can move it: cluster 1 is
first written in slot 1 and ends in slot 0. -/
theorem update_moves_cluster :
    ¬∀ (ov next : Overlay) (changes : List Change) (p : Patches), Reachable ov →
      ov.update changes = .ok (p, next) →
      ∀ c slot, next.table.At c slot → WritesAt p.writes c slot := by
  intro hall
  obtain ⟨one, two, three, four, five, hone, hnew, htwo, hthree, hfour, hgone, hfive, hat⟩ :=
    second_key_moves (slotBytes 0 [1]).1 (slotBytes 1 [2]).1 (slotBytes 1 [3]).1
  have hcount : clusterCount 8192 = 2 := by decide
  have hchange : (new [] 8192).changeAll
      [(0, some [1]), (1, some [2]), (0, none), (1, none), (1, some [3])] =
        .ok ([(slotOffset 0, (slotBytes 0 [1]).2), (slotOffset 1, (slotBytes 1 [2]).2),
          (slotOffset 0, (slotBytes freeMark []).2), (slotOffset 1, (slotBytes freeMark []).2),
          (slotOffset 0, (slotBytes 1 [3]).2)], { new [] 8192 with table := five }) := by
    refine changeAll_cons (change_absent (hcount ▸ by decide) (length_single_le 1) rfl hone) ?_
    refine changeAll_cons (change_absent (hcount ▸ by decide) (length_single_le 2) hnew htwo) ?_
    refine changeAll_cons (change_remove hthree) ?_
    refine changeAll_cons (change_remove hfour) ?_
    exact changeAll_cons (change_absent (hcount ▸ by decide) (length_single_le 3) hgone hfive) rfl
  obtain ⟨p, next, hupdate, htable, -, hwrites⟩ := update_of_writes hchange (by simp)
  have hmem : (slotOffset 1, (slotBytes 1 [2]).2) ∈ p.writes :=
    hwrites (mem_cons_of_mem _ mem_cons_self)
  have hmoved := hall _ next _ p (.new [] (by decide)) hupdate 1 0 (htable ▸ hat) _ hmem
    (slotOffset_ne_zero 1) (u64At_slotBytes (by decide) [2])
  simp [slotOffset, slotLen] at hmoved

end Overlay

end Vetro
