import Vetro.Snapshot.Overlay

/-!
# Overlay files and what they hold

The contents of an overlay are a partial map from clusters to data.  `Holds`
says that a file has them in the slots of the overlay's table; every change
keeps it, and `load` of a file that holds them gives them back.
-/

namespace Vetro.Overlay

open Bytes List Option Prod
open Splice
open Outcome
open SlotTable
open Format (hash64)

/-! ## Slots of a file -/

variable {data : List Byte}

theorem length_pad (hlength : data.length ≤ clusterLen) : (pad data).length = clusterLen := by
  rw [pad, length_append, length_replicate]
  omega

theorem length_slotBytes (c : ℕ) (hlength : data.length ≤ clusterLen) :
    (slotBytes c data).2.length = slotLen := by
  rw [slotBytes, length_append, length_append, length_leBytes, length_leBytes,
    length_pad hlength, slotLen]

theorem drop_slotBytes (c : ℕ) (data : List Byte) : (slotBytes c data).2.drop 16 = pad data := by
  exact drop_left' (by rw [length_append, length_leBytes, length_leBytes])

theorem check_slotBytes (c : ℕ) (data : List Byte) :
    UInt64.ofNat (u64At (slotBytes c data).2 8) = slotCheck c (pad data) := by
  have hslice : slice (slotBytes c data).2 8 (8 + 8) =
      leBytes 8 (slotCheck c (pad data)).toNat := by
    have hmiddle := slice_middle (leBytes 8 c) (leBytes 8 (slotCheck c (pad data)).toNat) (pad data)
    rwa [length_leBytes, length_leBytes] at hmiddle
  have hlt : (slotCheck c (pad data)).toNat < 256 ^ 8 := UInt64.toNat_lt _
  rw [u64At, hslice, ofLeBytes_leBytes_of_lt hlt, UInt64.ofNat_toNat]

variable {k : ℕ} {file slot : List Byte}

theorem slotAt_eq_some (hslot : slotAt file k = some slot) :
    slotOffset k + slotLen ≤ file.length ∧
      slice file (slotOffset k) (slotOffset k + slotLen) = slot := by
  rw [slotAt] at hslot
  split_ifs at hslot with hroom
  exact ⟨hroom, some.inj hslot⟩

variable {bytes : List Byte}

theorem slotAt_write_same (file : List Byte) (k : ℕ) (hlength : bytes.length = slotLen) :
    slotAt (writeGrow 0 file (slotOffset k) bytes) k = some bytes := by
  have hslice := slice_writeGrow_same 0 file (slotOffset k) bytes
  rw [hlength] at hslice
  rw [slotAt, if_pos, hslice]
  rw [length_writeGrow, hlength]
  exact le_max_right _ _

/-- A write that does not touch slot `k`. -/
theorem slotAt_write_frame {start : ℕ} (hslot : slotAt file k = some slot)
    (hapart : slotOffset k + slotLen ≤ start ∨ start + bytes.length ≤ slotOffset k) :
    slotAt (writeGrow 0 file start bytes) k = some slot := by
  obtain ⟨hroom, hslice⟩ := slotAt_eq_some hslot
  rw [slotAt, if_pos]
  · rcases hapart with hbefore | hafter
    · rw [slice_writeGrow_before hbefore hroom, hslice]
    · rw [slice_writeGrow_after hafter, hslice]
  · rw [length_writeGrow]
    exact le_max_of_le_left hroom

theorem slotAt_write_other {j : ℕ} (hslot : slotAt file k = some slot)
    (hlength : bytes.length = slotLen) (hne : k ≠ j) :
    slotAt (writeGrow 0 file (slotOffset j) bytes) k = some slot := by
  apply slotAt_write_frame hslot
  rw [hlength, slotOffset, slotOffset]
  rcases Nat.lt_or_gt_of_ne hne with hlow | hhigh
  · left
    have hstep : (k + 1) * slotLen ≤ j * slotLen := Nat.mul_le_mul_right _ hlow
    rw [Nat.succ_mul] at hstep
    omega
  · right
    have hstep : (j + 1) * slotLen ≤ k * slotLen := Nat.mul_le_mul_right _ hhigh
    rw [Nat.succ_mul] at hstep
    omega

/-! ## The contents -/

/-- The data of the written clusters. -/
abbrev Store := ℕ → Option (List Byte)

/-- A store after one change. -/
def Store.set (store : Store) (change : Change) : Store :=
  fun c => if change.1 = c then change.2 else store c

/-- Data for cluster `c` of the disk has the cluster's length. -/
def FitsDisk (diskSize : ℕ) (change : Change) : Prop :=
  ∀ data, change.2 = some data →
    change.1 < clusterCount diskSize ∧ data.length = dataLen diskSize change.1

/-- The store that the file has after a change: a cluster whose check is the
stored one is not written. -/
def storeAfter (ov : Overlay) (store : Store) (c : ℕ) (data : Option (List Byte)) : Store :=
  if data ≠ none ∧ (ov.table.map[c]?).map snd = data.map fun d => (slotBytes c d).1
  then store else store.set (c, data)

/-- The file has the store in the slots of the overlay. -/
structure Holds (ov : Overlay) (store : Store) (file : List Byte) : Prop where
  slots : Slots ov
  count : ov.table.slots ≤ clusterCount ov.diskSize
  entry : ∀ {c slot check}, ov.table.map[c]? = some (slot, check) →
    ∃ data, store c = some data ∧ c < clusterCount ov.diskSize ∧
      data.length = dataLen ov.diskSize c ∧ check = (slotBytes c data).1 ∧
      slotAt file slot = some (slotBytes c data).2
  absent : ∀ {c}, ov.table.map[c]? = none → store c = none
  free : ∀ {k}, k ∈ ov.table.free → slotAt file k = some (slotBytes freeMark []).2

theorem dataLen_le (diskSize c : ℕ) : dataLen diskSize c ≤ clusterLen := min_le_right _ _

variable {c : ℕ} {check : UInt64} {table next : Table ℕ UInt64}

theorem placed_map {slot : ℕ}
    (hplaced : Placed table c check slot next) : next.map = table.map.insert c (slot, check) := by
  cases hplaced <;> rfl

theorem placed_free {slot : ℕ}
    (hplaced : Placed table c check slot next) (hfree : k ∈ next.free) : k ∈ table.free := by
  cases hplaced with
  | keep hat => exact hfree
  | reuse hnew hmem => exact (mem_erase_slot.mp hfree).2
  | grow hnew hfull => exact hfree

section Change

variable {ov next : Overlay} {store : Store} {file : List Byte} {c : ℕ}
  {data : Option (List Byte)} {write : Option (ℕ × List Byte)}

variable (hholds : Holds ov store file)
include hholds

variable {slot : ℕ}

theorem Holds.inside (hat : ov.table.At c slot) : c < clusterCount ov.diskSize := by
  obtain ⟨check, hentry⟩ := hat
  obtain ⟨_, _, hc, _⟩ := hholds.entry hentry
  exact hc

/-- Without free slots there are as many slots as clusters, so that a new
cluster finds room. -/
theorem Holds.room (hnew : ov.table.map[c]? = none) (hc : c < clusterCount ov.diskSize)
    (hfull : ∀ k, k ∉ ov.table.free) : ov.table.slots < clusterCount ov.diskSize := by
  have howner : ∀ k ∈ Finset.range ov.table.slots, ∃ key, ov.table.At key k := by
    intro k hk
    rcases (hholds.slots.covers k).mp (Finset.mem_range.mp hk) with hfree | howner
    · exact absurd hfree (hfull k)
    · exact howner
  choose! owner hat using howner
  have hcard := Finset.card_le_card_of_injOn owner
    (s := Finset.range ov.table.slots) (t := (Finset.range (clusterCount ov.diskSize)).erase c)
    (fun k hk => ?_) (fun k hk k' hk' hsame => ?_)
  · rw [Finset.card_range, Finset.card_erase_of_mem (Finset.mem_range.mpr hc),
      Finset.card_range] at hcard
    omega
  · refine Finset.mem_erase.mpr ⟨?_, Finset.mem_range.mpr (hholds.inside (hat k hk))⟩
    intro hkey
    obtain ⟨check, hentry⟩ := hkey ▸ hat k hk
    rw [hnew] at hentry
    cases hentry
  · exact (hat k hk).unique (hsame ▸ hat k' hk')

variable {table : Table ℕ UInt64}

theorem Holds.count_placed (hc : c < clusterCount ov.diskSize)
    (hplaced : Placed ov.table c check slot table) : table.slots ≤ clusterCount ov.diskSize := by
  cases hplaced with
  | keep hat => exact hholds.count
  | reuse hnew hmem => exact hholds.count
  | grow hnew hfull => exact hholds.room hnew hc hfull

theorem Holds.written {d : List Byte} (hc : c < clusterCount ov.diskSize)
    (hlength : d.length = dataLen ov.diskSize c)
    (hplaced : Placed ov.table c (slotBytes c d).1 slot table) :
    Holds { ov with table } (store.set (c, some d))
      (writeGrow 0 file (slotOffset slot) (slotBytes c d).2) := by
  have hvalid : Valid table table.slots := Valid.placed hholds.slots hplaced
  have hown : table.At c slot := (at_placed hplaced).mpr (by rw [if_pos rfl])
  have hbytes : (slotBytes c d).2.length = slotLen := length_slotBytes c (hlength ▸ dataLen_le _ _)
  refine ⟨hvalid, hholds.count_placed hc hplaced, fun {c' slot' check'} hentry => ?_,
    fun {c'} hnone => ?_, fun {k} hfree => ?_⟩
  · have hother : table.At c' slot' := ⟨check', hentry⟩
    rw [placed_map hplaced, getElem?_insert_key] at hentry
    rw [Store.set]
    split_ifs at hentry ⊢ with hsame
    · cases hentry
      subst hsame
      exact ⟨d, rfl, hc, hlength, rfl, slotAt_write_same file slot hbytes⟩
    · obtain ⟨data, hstore, hc', hlength', hcheck, hslot⟩ := hholds.entry hentry
      refine ⟨data, hstore, hc', hlength', hcheck, slotAt_write_other hslot hbytes ?_⟩
      rintro rfl
      exact hsame (hvalid.injective hown hother)
  · rw [placed_map hplaced, getElem?_insert_key] at hnone
    rw [Store.set]
    split_ifs at hnone ⊢ with hsame
    exact hholds.absent hnone
  · refine slotAt_write_other (hholds.free (placed_free hplaced hfree)) hbytes ?_
    rintro rfl
    exact hvalid.disjoint hown hfree

theorem Holds.removed (hremove : ov.table.remove c = some (slot, table)) :
    Holds { ov with table } (store.set (c, none))
      (writeGrow 0 file (slotOffset slot) (slotBytes freeMark []).2) := by
  have hvalid := Valid.remove hholds.slots hremove
  obtain ⟨hat, rfl⟩ := remove_eq_some hremove
  have hbytes : (slotBytes freeMark []).2.length = slotLen := length_slotBytes _ (Nat.zero_le _)
  refine ⟨hvalid, hholds.count, fun {c' slot' check'} hentry => ?_, fun {c'} hnone => ?_,
    fun {k} hfree => ?_⟩
  · rw [getElem?_erase_key] at hentry
    rw [Store.set]
    split_ifs at hentry ⊢ with hsame
    obtain ⟨data, hstore, hc', hlength', hcheck, hslot⟩ := hholds.entry hentry
    refine ⟨data, hstore, hc', hlength', hcheck, slotAt_write_other hslot hbytes ?_⟩
    rintro rfl
    exact hsame (hholds.slots.injective hat ⟨check', hentry⟩)
  · rw [getElem?_erase_key] at hnone
    rw [Store.set]
    split_ifs at hnone ⊢ with hsame
    · rfl
    · exact hholds.absent hnone
  · rcases mem_insert_slot.mp hfree with rfl | hold
    · exact slotAt_write_same file k hbytes
    · refine slotAt_write_other (hholds.free hold) hbytes ?_
      rintro rfl
      exact hholds.slots.disjoint hat hold

/-- Every change keeps the file in step with the overlay. -/
theorem Holds.change (hfits : FitsDisk ov.diskSize (c, data))
    (hchanged : Changed ov c data write next) :
    Holds next (storeAfter ov store c data) (applyWrites file write.toList) := by
  rw [storeAfter]
  cases hchanged with
  | same hcheck =>
    rw [if_pos ⟨by simp, hcheck⟩]
    exact hholds
  | @written d slot table hc hlength hcheck hplaced =>
    rw [if_neg fun hboth => hcheck hboth.2]
    exact hholds.written hc (hfits d rfl).2 hplaced
  | absent hnone =>
    have hsame : store.set (c, none) = store := by
      funext c'
      rw [Store.set]
      split_ifs with hc
      · exact (hholds.absent (hc ▸ hnone)).symm
      · rfl
    rw [if_neg fun hboth => hboth.1 rfl, hsame]
    exact hholds
  | removed hremove =>
    exact hholds.removed hremove

end Change

/-! ## Reading the slots back -/

section Read

variable {loaded : Loaded} {bytes : List Byte} {k c : ℕ}

theorem readSlot_free (hslot : slotAt bytes k = some (slotBytes freeMark []).2) :
    readSlot bytes loaded k = loaded.spare k := by
  have hmark : u64At (slotBytes freeMark []).2 0 = freeMark := u64At_slotBytes (by decide) []
  rw [readSlot, hslot]
  dsimp only
  rw [hmark, check_slotBytes, drop_slotBytes, if_neg, if_pos rfl]
  simp

theorem readSlot_cluster (hslot : slotAt bytes k = some (slotBytes c data).2)
    (hsize : loaded.overlay.diskSize < 2 ^ 64) (hc : c < clusterCount loaded.overlay.diskSize)
    (hlength : data.length = dataLen loaded.overlay.diskSize c)
    (hnew : loaded.overlay.table.map[c]? = none) :
    readSlot bytes loaded k =
      ⟨{ loaded.overlay with table := { loaded.overlay.table with
          map := loaded.overlay.table.map.insert c (k, (slotBytes c data).1) } },
        loaded.clusters ++ [(c, data)]⟩ := by
  have hcount := clusterCount_lt hsize
  have hcluster : u64At (slotBytes c data).2 0 = c := u64At_slotBytes (by omega) data
  have hmark : c ≠ freeMark := by
    rw [freeMark]
    omega
  have htake : (pad data).take (dataLen loaded.overlay.diskSize c) = data := by
    rw [pad, ← hlength, take_left]
  rw [readSlot, hslot]
  dsimp only
  rw [hcluster, check_slotBytes, drop_slotBytes, htake, if_neg, if_neg hmark]
  · rfl
  · rintro (hcheck | ⟨_, houtside | hdouble⟩)
    · exact hcheck rfl
    · exact absurd hc (Nat.not_lt.mpr houtside)
    · rw [hnew] at hdouble
      cases hdouble

variable {ov : Overlay} {store : Store} {file : List Byte}

/-- What `load` has after the first `k` slots of a file that holds `store`. -/
structure ReadUpTo (ov : Overlay) (store : Store) (k : ℕ) (loaded : Loaded) : Prop where
  size : loaded.overlay.diskSize = ov.diskSize
  damaged : loaded.overlay.damaged = 0
  map : ∀ c : ℕ, loaded.overlay.table.map[c]? =
    (ov.table.map[c]?).filter fun entry : ℕ × UInt64 => entry.1 < k
  clusters : ∀ c data, (c, data) ∈ loaded.clusters ↔
    ∃ slot, slot < k ∧ ov.table.At c slot ∧ store c = some data
  distinct : (loaded.clusters.map fst).Nodup

theorem filter_lt_succ {entry : Option (ℕ × UInt64)}
    (hother : ∀ slot check, entry = some (slot, check) → slot ≠ k) :
    (entry.filter fun entry => entry.1 < k + 1) =
      entry.filter fun entry => entry.1 < k := by
  cases entry with
  | none => rfl
  | some entry =>
    have hne := hother entry.1 entry.2 rfl
    have hiff : decide (entry.1 < k + 1) = decide (entry.1 < k) := by
      rw [decide_eq_decide]
      omega
    rw [filter_some, filter_some, hiff]

/-- A free slot adds nothing. -/
theorem ReadUpTo.spare (hread : ReadUpTo ov store k loaded)
    (hnone : ∀ c, ¬ov.table.At c k) : ReadUpTo ov store (k + 1) (loaded.spare k) := by
  refine ⟨hread.size, hread.damaged, fun c => ?_, fun c data => ?_, hread.distinct⟩
  · rw [filter_lt_succ]
    · exact hread.map c
    · rintro slot check hentry rfl
      exact hnone c ⟨check, hentry⟩
  · refine (hread.clusters c data).trans ⟨?_, ?_⟩
    · rintro ⟨slot, hslot, hrest⟩
      exact ⟨slot, Nat.lt_succ_of_lt hslot, hrest⟩
    · rintro ⟨slot, hslot, hat, hstore⟩
      have hne : slot ≠ k := fun hsame => hnone c (hsame ▸ hat)
      exact ⟨slot, by omega, hat, hstore⟩

theorem ReadUpTo.absent (hread : ReadUpTo ov store k loaded) (hat : ov.table.At c k) :
    loaded.overlay.table.map[c]? = none := by
  obtain ⟨check, hentry⟩ := hat
  rw [hread.map c, hentry, filter_some, if_neg (by simp)]

/-- The slot of a cluster adds it. -/
theorem ReadUpTo.cluster (hread : ReadUpTo ov store k loaded) (hslots : Slots ov)
    (hentry : ov.table.map[c]? = some (k, check)) (hstore : store c = some data) :
    ReadUpTo ov store (k + 1)
      ⟨{ loaded.overlay with table := { loaded.overlay.table with
          map := loaded.overlay.table.map.insert c (k, check) } },
        loaded.clusters ++ [(c, data)]⟩ := by
  have hat : ov.table.At c k := ⟨check, hentry⟩
  refine ⟨hread.size, hread.damaged, fun c' => ?_, fun c' data' => ?_, ?_⟩
  · rw [getElem?_insert_key]
    split_ifs with hsame
    · rw [← hsame, hentry, filter_some, if_pos (by simp)]
    · rw [filter_lt_succ, hread.map c']
      intro slot check' hentry' hslot
      exact hsame (hslots.injective hat ⟨check', hslot ▸ hentry'⟩)
  · rw [mem_append, hread.clusters c' data', mem_singleton, Prod.mk.injEq]
    constructor
    · rintro (⟨slot, hslot, hrest⟩ | ⟨rfl, rfl⟩)
      · exact ⟨slot, Nat.lt_succ_of_lt hslot, hrest⟩
      · exact ⟨k, Nat.lt_succ_self k, hat, hstore⟩
    · rintro ⟨slot, hslot, hat', hstore'⟩
      rcases Nat.lt_succ_iff_lt_or_eq.mp hslot with hlow | rfl
      · exact .inl ⟨slot, hlow, hat', hstore'⟩
      · obtain rfl := hslots.injective hat hat'
        rw [hstore] at hstore'
        exact .inr ⟨rfl, (some.inj hstore').symm⟩
  · rw [map_append, nodup_append]
    refine ⟨hread.distinct, nodup_singleton c, fun c' hmem c'' hlast hsame => ?_⟩
    rw [mem_singleton.mp hlast] at hsame
    subst hsame
    obtain ⟨⟨c'', data'⟩, hmem', rfl⟩ := mem_map.mp hmem
    obtain ⟨slot, hslot, hat', _⟩ := (hread.clusters c'' data').mp hmem'
    exact absurd (hat.unique hat') (Nat.ne_of_gt hslot)

theorem Holds.readUpTo (hholds : Holds ov store file) (hsize : ov.diskSize < 2 ^ 64)
    {start : Overlay} (hstart : ReadUpTo ov store 0 ⟨start, []⟩) (hk : k ≤ ov.table.slots) :
    ReadUpTo ov store k ((List.range k).foldl (readSlot file) ⟨start, []⟩) := by
  induction k with
  | zero => exact hstart
  | succ k ih =>
    have hread := ih (Nat.le_of_succ_le hk)
    rw [range_succ, foldl_append, foldl_cons, foldl_nil]
    -- the slot belongs to a cluster or is free
    rcases (hholds.slots.covers k).mp hk with hfree | ⟨c, hat⟩
    · rw [readSlot_free (hholds.free hfree)]
      exact hread.spare fun c hat => hholds.slots.disjoint hat hfree
    · obtain ⟨check, hentry⟩ := hat
      obtain ⟨data, hstore, hc, hlength, rfl, hslot⟩ := hholds.entry hentry
      rw [readSlot_cluster hslot (hread.size ▸ hsize) (hread.size ▸ hc)
        (hread.size ▸ hlength) (hread.absent ⟨_, hentry⟩)]
      exact hread.cluster hholds.slots hentry hstore

end Read

/-! ## The header -/

variable {identity : List Byte}

theorem length_headerOf (hidentity : identity.length ≤ maxIdentity)
    (diskSize generation slots : ℕ) :
    (headerOf identity diskSize generation slots).length = headerLen := by
  rw [maxIdentity, headerLen] at hidentity
  simp only [headerOf, magic, headerLen, length_append, length_leBytes,
    length_replicate, length_cons, length_nil]
  omega

/-- A field of a header, after the fields before it. -/
theorem slice_field {whole left field : List Byte} {start stop : ℕ}
    (hstarts : left ++ field <+: whole) (hstart : left.length = start)
    (hstop : left.length + field.length = stop) : slice whole start stop = field := by
  obtain ⟨right, rfl⟩ := hstarts
  subst hstart hstop
  exact slice_middle left field right

section Header

variable {identity : List Byte} {diskSize generation slots : ℕ} {whole left : List Byte}

theorem u64At_field {start value : ℕ}
    (hstarts : left ++ leBytes 8 value <+: whole) (hstart : left.length = start)
    (hvalue : value < 2 ^ 64) : u64At whole start = value := by
  rw [u64At, slice_field hstarts hstart (by rw [hstart, length_leBytes]),
    ofLeBytes_leBytes_of_lt (by simpa using hvalue)]

theorem u32At_field {start value : ℕ}
    (hstarts : left ++ leBytes 4 value <+: whole) (hstart : left.length = start)
    (hvalue : value < 2 ^ 32) : u32At whole start = value := by
  rw [u32At, slice_field hstarts hstart (by rw [hstart, length_leBytes]),
    ofLeBytes_leBytes_of_lt (by simpa using hvalue)]

theorem readHeader_headerOf (hidentity : identity.length ≤ maxIdentity)
    (hsize : diskSize < 2 ^ 64) (hgeneration : generation < 2 ^ 64) (hslots : slots < 2 ^ 64) :
    readHeader (headerOf identity diskSize generation slots) identity diskSize =
      .ok (generation, slots) := by
  have hshort : identity.length ≤ 4032 := hidentity
  -- the header, one more field at a time
  let upToVersion := magic ++ leBytes 4 version
  let upToCluster := upToVersion ++ leBytes 4 clusterLen
  let upToSize := upToCluster ++ leBytes 8 diskSize
  let upToGeneration := upToSize ++ leBytes 8 generation
  let upToSlots := upToGeneration ++ leBytes 8 slots
  let upToLength := upToSlots ++ leBytes 4 identity.length
  let body := upToLength ++ identity
  let filled := body ++ List.replicate (headerLen - 8 - body.length) 0
  let h := filled ++ leBytes 8 (hash64 filled).toNat
  have hfilled : filled.length = headerLen - 8 := by
    simp only [filled, body, upToLength, upToSlots, upToGeneration, upToSize, upToCluster,
      upToVersion, magic, headerLen, length_append, length_leBytes,
      length_replicate, length_cons, length_nil]
    omega
  have hbody : body <+: h := (prefix_append _ _).trans (prefix_append _ _)
  have hlength : upToLength <+: h := (prefix_append _ _).trans hbody
  have hcount : upToSlots <+: h := (prefix_append _ _).trans hlength
  have hgrown : upToGeneration <+: h := (prefix_append _ _).trans hcount
  have hdisk : upToSize <+: h := (prefix_append _ _).trans hgrown
  have hcluster : upToCluster <+: h := (prefix_append _ _).trans hdisk
  have hversion : upToVersion <+: h := (prefix_append _ _).trans hcluster
  have hmagic : h.take 8 = magic := by
    exact slice_field ((prefix_append _ _).trans hversion) length_nil rfl
  have htake : h.take (headerLen - 8) = filled := take_left' hfilled
  have hsum : u64At h (headerLen - 8) = (hash64 filled).toNat :=
    u64At_field (prefix_refl h) hfilled (UInt64.toNat_lt _)
  have hreadVersion : u32At h 8 = version := u32At_field hversion rfl (by decide)
  have hreadCluster : u32At h 12 = clusterLen := u32At_field hcluster rfl (by decide)
  have hreadSize : u64At h 16 = diskSize := u64At_field hdisk rfl hsize
  have hreadGeneration : u64At h 24 = generation := u64At_field hgrown rfl hgeneration
  have hreadSlots : u64At h 32 = slots := u64At_field hcount rfl hslots
  have hreadLength : u32At h 40 = identity.length := u32At_field hlength rfl (by omega)
  have hreadIdentity : slice h 44 (44 + identity.length) = identity := slice_field hbody rfl rfl
  change readHeader h identity diskSize = _
  rw [readHeader, if_neg (not_not.mpr hmagic), if_neg (not_not.mpr hreadVersion), htake,
    if_neg (not_not.mpr hsum), if_neg (not_not.mpr hreadCluster), hreadLength,
    if_neg (Nat.not_lt.mpr hidentity), hreadIdentity, if_neg (not_not.mpr rfl),
    if_neg (not_not.mpr hreadSize), hreadGeneration, hreadSlots]

end Header

/-! ## Reading a file -/

theorem pairwise_lt_mergeSort {clusters : List (ℕ × List Byte)}
    (hdistinct : (clusters.map fst).Nodup) :
    (clusters.mergeSort fun a b => a.1 ≤ b.1).Pairwise fun a b => a.1 < b.1 := by
  have hsorted : (clusters.mergeSort fun a b => a.1 ≤ b.1).Pairwise
      fun a b => decide (a.1 ≤ b.1) = true :=
    pairwise_mergeSort (fun a b c => by simpa using le_trans)
      (fun a b => by simpa using le_total a.1 b.1) clusters
  have hnodup : (clusters.mergeSort fun a b => a.1 ≤ b.1).Pairwise fun a b => a.1 ≠ b.1 := by
    have hperm := (mergeSort_perm clusters fun a b => a.1 ≤ b.1).map fst
    exact pairwise_map.mp (hperm.nodup_iff.mpr hdistinct)
  refine (hsorted.and hnodup).imp fun {a b} hboth => ?_
  exact lt_of_le_of_ne (by simpa using hboth.1) hboth.2

variable {ov : Overlay} {file : List Byte}

/-- A file whose header counts `n` of the slots is read back as the clusters in
those slots. -/
theorem Holds.load {store : Store} {generation n : ℕ}
    (hholds : Holds ov store file) (hsize : ov.diskSize < 2 ^ 64) (hn : n ≤ ov.table.slots)
    (hgeneration : generation < 2 ^ 64)
    (hheader : file.take headerLen =
      headerOf (identity.take maxIdentity) ov.diskSize generation n) :
    ∃ loaded, load file identity ov.diskSize = .ok loaded ∧
      loaded.overlay.damaged = 0 ∧ loaded.overlay.generation = generation ∧
      (loaded.clusters.Pairwise fun a b => a.1 < b.1) ∧
      ∀ c data, (c, data) ∈ loaded.clusters ↔
        ∃ slot, slot < n ∧ ov.table.At c slot ∧ store c = some data := by
  have hidentity : (identity.take maxIdentity).length ≤ maxIdentity := by
    rw [length_take]
    exact min_le_left _ _
  have hlength : headerLen ≤ file.length := by
    have htake := congrArg List.length hheader
    rw [length_headerOf hidentity, length_take] at htake
    exact min_eq_left_iff.mp htake
  have hcount := clusterCount_lt hsize
  have hslots : n < 2 ^ 64 := by
    have := hholds.count
    omega
  have hstart : ReadUpTo ov store 0 ⟨ofHeader identity ov.diskSize generation n, []⟩ := by
    refine ⟨rfl, rfl, fun c => ?_, fun c data => ?_, nodup_nil⟩
    · cases ov.table.map[c]? <;> simp [ofHeader, Table.empty]
    · simp
  have hread := hholds.readUpTo hsize hstart hn
  refine ⟨readSlots file (ofHeader identity ov.diskSize generation n), ?_, hread.damaged, ?_,
    pairwise_lt_mergeSort hread.distinct, fun c data => ?_⟩
  · rw [Overlay.load]
    rw [if_neg, if_neg (Nat.not_lt.mpr hlength), hheader]
    · change (readHeader _ (identity.take maxIdentity) _ >>= _) = _
      rw [readHeader_headerOf hidentity hsize hgeneration hslots]
      rfl
    · rintro rfl
      simp [headerLen] at hlength
  · exact (foldl_readSlot_frame file _ n).2.1
  · exact (mem_mergeSort).trans (hread.clusters c data)

/-! ## Calls -/

/-- A call on the overlay. -/
inductive Call where
  | update (changes : List Change)
  | sync (all : List (ℕ × List Byte))

/-- The clusters of `all` as changes. -/
def writesOf (all : List (ℕ × List Byte)) : List Change :=
  all.map fun cluster => (cluster.1, some cluster.2)

namespace Call

/-- The overlay and the file after a call whose patches are applied. -/
def apply (ov : Overlay) (file : List Byte) : Call → Result LoadError (Overlay × List Byte)
  | update changes => do
    let (p, next) ← ov.update changes
    .ok (next, p.applyTo file)
  | sync all => do
    let (p, next) ← ov.sync all
    .ok (next, p.applyTo file)

/-- The changes of a call have their clusters' lengths. -/
def Fits (diskSize : ℕ) : Call → Prop
  | update changes => ∀ change ∈ changes, FitsDisk diskSize change
  | sync all => ∀ change ∈ writesOf all, FitsDisk diskSize change

/-- What a call is to leave: `sync` leaves only the clusters it is given. -/
def leave (store : Store) : Call → Store
  | update changes => changes.foldl Store.set store
  | sync all => (writesOf all).foldl Store.set fun _ => none

end Call

/-- Calls in order, each with its patches applied to the file. -/
def runCalls (ov : Overlay) (file : List Byte) :
    List Call → Result LoadError (Overlay × List Byte)
  | [] => .ok (ov, file)
  | call :: rest => do
    let (ov, file) ← call.apply ov file
    runCalls ov file rest

/-- No change replaces the data of a cluster with other data of the same
hash. -/
def NoCollision : Store → List Change → Prop
  | _, [] => True
  | store, (c, data) :: rest =>
    (∀ old new, store c = some old → data = some new →
      hash64 (pad old) = hash64 (pad new) → old = new) ∧
    NoCollision (store.set (c, data)) rest

/-- The same for every call of a sequence. -/
def NoCollisions : Store → List Call → Prop
  | _, [] => True
  | store, call :: rest =>
    (match call with
      | .update changes => NoCollision store changes
      | .sync all => NoCollision store (writesOf all)) ∧
    NoCollisions (call.leave store) rest

theorem slotBytes_check_eq {left right : List Byte} :
    (slotBytes c left).1 = (slotBytes c right).1 ↔ hash64 (pad left) = hash64 (pad right) := by
  rw [slotBytes, slotBytes]
  rw [slotCheck, slotCheck, UInt64.xor_left_inj, UInt64.xor_left_inj]

section Calls

variable {ov next : Overlay} {store : Store} {file : List Byte} {changes : List Change}
  {writes : List (ℕ × List Byte)}

variable {data : Option (List Byte)}

theorem Holds.storeAfter_eq (hholds : Holds ov store file)
    (hdistinct : ∀ old new, store c = some old → data = some new →
      hash64 (pad old) = hash64 (pad new) → old = new) :
    storeAfter ov store c data = store.set (c, data) := by
  rw [storeAfter]
  split_ifs with hsame
  · obtain ⟨hsome, hcheck⟩ := hsame
    obtain ⟨d, rfl⟩ := ne_none_iff_exists'.mp hsome
    obtain ⟨⟨slot, check⟩, hentry, hequal⟩ := map_eq_some_iff.mp hcheck
    obtain ⟨old, hold, _, _, rfl, _⟩ := hholds.entry hentry
    have heq : old = d := hdistinct old d hold rfl (slotBytes_check_eq.mp hequal)
    funext c'
    rw [Store.set]
    split_ifs with hc
    · rw [← hc, hold, heq]
    · rfl
  · rfl

theorem Holds.changeAll (hholds : Holds ov store file)
    (hfits : ∀ change ∈ changes, FitsDisk ov.diskSize change)
    (hdistinct : NoCollision store changes) (hchanged : ChangedAll ov changes writes next) :
    Holds next (changes.foldl Store.set store) (applyWrites file writes) := by
  induction hchanged generalizing store file with
  | nil => exact hholds
  | @cons ov middle next c data write rest writes hstep hrest ih =>
    have hmiddle := hholds.change (hfits _ mem_cons_self) hstep
    rw [hholds.storeAfter_eq hdistinct.1] at hmiddle
    rw [foldl_cons, applyWrites, foldl_append]
    refine ih hmiddle (fun change hmem => ?_) hdistinct.2
    rw [hstep.diskSize_eq]
    exact hfits change (mem_cons_of_mem _ hmem)

theorem changeAll_ok (ov : Overlay) (hinside : ∀ c d, (c, some d) ∈ changes →
      c < clusterCount ov.diskSize ∧ d.length ≤ clusterLen) :
    ∃ writes next, ov.changeAll changes = .ok (writes, next) := by
  induction changes generalizing ov with
  | nil => exact ⟨[], ov, rfl⟩
  | cons change rest ih =>
    obtain ⟨c, data⟩ := change
    obtain ⟨write, middle, hfirst⟩ := change_ok ov c data
      fun d hd => hinside c d (hd ▸ mem_cons_self)
    obtain ⟨writes, next, hrest⟩ := ih middle fun c' d hmem => by
      rw [(changed hfirst).diskSize_eq]
      exact hinside c' d (mem_cons_of_mem _ hmem)
    exact ⟨_, next, changeAll_cons hfirst hrest⟩

/-- The overlay and its file between two calls: the file has the store and the
header, or there is no file yet. -/
structure Mirrors (identity : List Byte) (ov : Overlay) (store : Store) (file : List Byte) :
    Prop where
  size : ov.diskSize < 2 ^ 64
  fresh : ov.fresh = true → ov = new identity ov.diskSize ∧ store = fun _ => none
  identity : ov.identity = identity.take maxIdentity
  generation : ov.generation < 2 ^ 64
  holds : ov.fresh = false → Holds ov store file
  header : ov.fresh = false → file.take headerLen = ov.header

variable {identity : List Byte}

theorem mirrors_new (identity : List Byte) {diskSize : ℕ} (hsize : diskSize < 2 ^ 64)
    (file : List Byte) : Mirrors identity (new identity diskSize) (fun _ => none) file :=
  ⟨hsize, fun _ => ⟨rfl, rfl⟩, rfl, by simp [new], by rintro ⟨⟩, by rintro ⟨⟩⟩

theorem holds_new (identity : List Byte) (diskSize : ℕ) (file : List Byte) :
    Holds (new identity diskSize) (fun _ => none) file := by
  refine ⟨slots_new identity diskSize, Nat.zero_le _, fun {c slot check} hentry => ?_,
    fun _ => rfl, fun {k} hfree => ?_⟩
  · simp [new, Table.empty] at hentry
  · simp [new, Table.empty] at hfree

/-- The file as a call finds it: a new file is truncated. -/
theorem Mirrors.holds_start (hmirrors : Mirrors identity ov store file) :
    Holds ov store
      (match (if ov.fresh then some 0 else none) with | some n => file.take n | none => file) := by
  cases hfresh : ov.fresh with
  | true =>
    obtain ⟨hnew, rfl⟩ := hmirrors.fresh hfresh
    rw [hnew]
    exact holds_new identity _ _
  | false => exact hmirrors.holds hfresh

theorem Changed.frame {write : Option (ℕ × List Byte)}
    (hchanged : Changed ov c data write next) :
    next.identity = ov.identity ∧ next.generation = ov.generation ∧ next.fresh = ov.fresh := by
  cases hchanged <;> exact ⟨rfl, rfl, rfl⟩

theorem ChangedAll.frame (hchanged : ChangedAll ov changes writes next) :
    next.identity = ov.identity ∧ next.generation = ov.generation ∧ next.fresh = ov.fresh := by
  induction hchanged with
  | nil => exact ⟨rfl, rfl, rfl⟩
  | cons hstep _ ih =>
    obtain ⟨hidentity, hgeneration, hfresh⟩ := hstep.frame
    exact ⟨ih.1.trans hidentity, ih.2.1.trans hgeneration, ih.2.2.trans hfresh⟩

/-- Changes that write nothing leave the overlay as it is. -/
theorem ChangedAll.eq_of_nil (hchanged : ChangedAll ov changes writes next)
    (hnil : writes = []) : next = ov := by
  induction hchanged with
  | nil => rfl
  | cons hstep _ ih =>
    rw [append_eq_nil_iff, toList_eq_nil_iff] at hnil
    obtain ⟨rfl, hrest⟩ := hnil
    rw [ih hrest]
    cases hstep with
    | same hcheck => rfl
    | absent hnone => rfl

theorem length_header (hidentity : ov.identity.length ≤ maxIdentity) :
    ov.header.length = headerLen := length_headerOf hidentity _ _ _

/-- Writing the header leaves the slots as they are. -/
theorem Holds.header (hholds : Holds ov store file) (hlength : bytes.length = headerLen) :
    Holds ov store (writeGrow 0 file 0 bytes) := by
  have hframe : ∀ {k slot}, slotAt file k = some slot →
      slotAt (writeGrow 0 file 0 bytes) k = some slot := by
    intro k slot hslot
    refine slotAt_write_frame hslot (.inr ?_)
    rw [hlength, slotOffset]
    omega
  refine ⟨hholds.slots, hholds.count, fun {c slot check} hentry => ?_, hholds.absent,
    fun {k} hfree => hframe (hholds.free hfree)⟩
  obtain ⟨data, hstore, hc, hdata, hcheck, hslot⟩ := hholds.entry hentry
  exact ⟨data, hstore, hc, hdata, hcheck, hframe hslot⟩

theorem take_write_header (hlength : bytes.length = headerLen) :
    (writeGrow 0 file 0 bytes).take headerLen = bytes := by
  have hslice := slice_writeGrow_same 0 file 0 bytes
  rwa [Nat.zero_add, hlength, slice_zero] at hslice

theorem Mirrors.update (hmirrors : Mirrors identity ov store file)
    (hfits : ∀ change ∈ changes, FitsDisk ov.diskSize change)
    (hdistinct : NoCollision store changes) :
    ∃ p next, ov.update changes = .ok (p, next) ∧ next.diskSize = ov.diskSize ∧
      next.fresh = false ∧
      Mirrors identity next (changes.foldl Store.set store) (p.applyTo file) := by
  obtain ⟨writes, last, hchange⟩ := @changeAll_ok changes ov fun c d hmem => by
    obtain ⟨hc, hlength⟩ := hfits _ hmem d rfl
    exact ⟨hc, hlength ▸ dataLen_le _ _⟩
  have hchanged := changedAll hchange
  obtain ⟨hidentity, hgeneration, hfresh⟩ := hchanged.frame
  have hsize := hchanged.diskSize_eq
  have hlast := hmirrors.holds_start.changeAll hfits hdistinct hchanged
  have hshort : last.identity.length ≤ maxIdentity := by
    rw [hidentity, hmirrors.identity, length_take]
    exact min_le_left _ _
  rw [Overlay.update]
  rw [hchange, ok_bind]
  dsimp only
  by_cases hwrite : writes ≠ [] ∨ last.fresh = true
  · rw [if_pos hwrite]
    let next : Overlay := { last with generation := (last.generation + 1) % 2 ^ 64, fresh := false }
    have hheader : next.header.length = headerLen := length_header hshort
    refine ⟨_, next, rfl, hsize, rfl, ?_⟩
    rw [Patches.applyTo, applyWrites, foldl_append]
    refine ⟨hsize ▸ hmirrors.size, by simp, hidentity.trans hmirrors.identity,
      Nat.mod_lt _ (by decide), fun _ => ?_, fun _ => take_write_header hheader⟩
    have hheld := hlast.header hheader
    exact ⟨hheld.slots, hheld.count, hheld.entry, hheld.absent, hheld.free⟩
  · rw [if_neg hwrite]
    rw [not_or, not_not, Bool.not_eq_true] at hwrite
    obtain ⟨rfl, hold⟩ := hwrite
    have hcommitted : ov.fresh = false := hfresh ▸ hold
    rw [hcommitted] at hlast ⊢
    refine ⟨_, last, rfl, hsize, hold, hsize ▸ hmirrors.size, ?_,
      hidentity.trans hmirrors.identity, hgeneration ▸ hmirrors.generation, fun _ => hlast, ?_⟩
    · rw [hold]
      simp
    · rw [hchanged.eq_of_nil rfl]
      exact hmirrors.header

/-! ### Complete states -/

theorem foldl_set_apply {left right : Store} (hsame : c ∈ changes.map fst ∨ left c = right c) :
    changes.foldl Store.set left c = changes.foldl Store.set right c := by
  induction changes generalizing left right with
  | nil =>
    rcases hsame with hmem | hequal
    · cases hmem
    · exact hequal
  | cons change rest ih =>
    apply ih
    by_cases hc : change.1 = c
    · exact .inr (by rw [Store.set, Store.set, if_pos hc, if_pos hc])
    · rcases hsame with hmem | hequal
      · rcases mem_cons.mp hmem with hhead | htail
        · exact absurd hhead.symm hc
        · exact .inl htail
      · exact .inr (by rw [Store.set, Store.set, if_neg hc, if_neg hc, hequal])

theorem foldl_set_of_notMem (hc : c ∉ changes.map fst) :
    changes.foldl Store.set store c = store c := by
  induction changes generalizing store with
  | nil => rfl
  | cons change rest ih =>
    rw [map_cons, mem_cons, not_or] at hc
    rw [foldl_cons, ih hc.2, Store.set, if_neg (Ne.symm hc.1)]

theorem foldl_set_remove {gone : List ℕ} :
    (gone.map fun c => ((c, none) : Change)).foldl Store.set store c =
      if c ∈ gone then none else store c := by
  induction gone generalizing store with
  | nil => rfl
  | cons first rest ih =>
    rw [map_cons, foldl_cons, ih, Store.set]
    by_cases hc : first = c
    · rw [if_pos hc, hc]
      simp
    · have hne : ¬c = first := fun h => hc h.symm
      simp [hc, hne]

/-- The changes of `sync` leave exactly the given clusters. -/
theorem Holds.foldl_syncChanges (hholds : Holds ov store file) (all : List (ℕ × List Byte)) :
    (ov.syncChanges all).foldl Store.set store =
      (writesOf all).foldl Store.set fun _ => none := by
  have hkeys : (writesOf all).map fst = all.map fst := by
    rw [writesOf, List.map_map]
    rfl
  funext c
  rw [syncChanges, foldl_append, foldl_set_remove]
  by_cases hmem : c ∈ all.map fst
  · rw [if_neg fun hgone => by simpa [hmem] using of_mem_filter hgone]
    exact foldl_set_apply (.inl (hkeys ▸ hmem))
  · rw [foldl_set_of_notMem (hkeys ▸ hmem), foldl_set_of_notMem (hkeys ▸ hmem)]
    split_ifs with hgone
    · rfl
    · apply hholds.absent
      by_contra hpresent
      refine hgone (mem_filter.mpr ⟨?_, by simpa using hmem⟩)
      rw [Std.TreeMap.mem_keys, ← Std.TreeMap.isSome_getElem?_iff_mem]
      exact isSome_iff_ne_none.mpr hpresent

theorem NoCollision.append {first second : List Change} (hfirst : NoCollision store first)
    (hsecond : ∀ change ∈ second, change.2 = none) : NoCollision store (first ++ second) := by
  induction first generalizing store with
  | nil =>
    clear hfirst
    induction second generalizing store with
    | nil => trivial
    | cons change rest ih =>
      refine ⟨fun old new _ hsome => ?_, ih fun other hmem =>
        hsecond other (mem_cons_of_mem _ hmem)⟩
      rw [hsecond change mem_cons_self] at hsome
      cases hsome
  | cons change rest ih => exact ⟨hfirst.1, ih hfirst.2⟩

/-! ### Runs -/

variable (hmirrors : Mirrors identity ov store file)
include hmirrors

theorem Mirrors.sync {all : List (ℕ × List Byte)}
    (hfits : ∀ change ∈ writesOf all, FitsDisk ov.diskSize change)
    (hdistinct : NoCollision store (writesOf all)) :
    ∃ p next, ov.sync all = .ok (p, next) ∧ next.diskSize = ov.diskSize ∧
      next.fresh = false ∧
      Mirrors identity next ((writesOf all).foldl Store.set fun _ => none) (p.applyTo file) := by
  have hremoved : ∀ change ∈ (ov.table.map.keys.filter fun c => c ∉ all.map fst).map
      fun c => ((c, none) : Change), change.2 = none := by
    intro change hmem
    obtain ⟨c, _, rfl⟩ := mem_map.mp hmem
    rfl
  rw [← hmirrors.holds_start.foldl_syncChanges all]
  refine hmirrors.update (fun change hmem => ?_) (hdistinct.append hremoved)
  rcases mem_append.mp hmem with hwrite | hremove
  · exact hfits change hwrite
  · intro data hsome
    rw [hremoved change hremove] at hsome
    cases hsome

theorem Mirrors.call {call : Call} (hfits : call.Fits ov.diskSize) {rest : List Call}
    (hdistinct : NoCollisions store (call :: rest)) :
    ∃ next file', call.apply ov file = .ok (next, file') ∧ next.diskSize = ov.diskSize ∧
      next.fresh = false ∧ Mirrors identity next (call.leave store) file' := by
  cases call with
  | update changes =>
    obtain ⟨p, next, hupdate, hrest⟩ := hmirrors.update hfits hdistinct.1
    exact ⟨next, p.applyTo file, by rw [Call.apply, hupdate]; rfl, hrest⟩
  | sync all =>
    obtain ⟨p, next, hsync, hrest⟩ := hmirrors.sync hfits hdistinct.1
    exact ⟨next, p.applyTo file, by rw [Call.apply, hsync]; rfl, hrest⟩

theorem Mirrors.run {calls : List Call} (hfits : ∀ call ∈ calls, call.Fits ov.diskSize)
    (hdistinct : NoCollisions store calls) :
    ∃ next file', runCalls ov file calls = .ok (next, file') ∧ next.diskSize = ov.diskSize ∧
      (calls ≠ [] → next.fresh = false) ∧ (calls = [] → next = ov ∧ file' = file) ∧
      Mirrors identity next (calls.foldl Call.leave store) file' := by
  induction calls generalizing ov store file with
  | nil => exact ⟨ov, file, rfl, rfl, fun hne => absurd rfl hne, fun _ => ⟨rfl, rfl⟩, hmirrors⟩
  | cons call rest ih =>
    obtain ⟨middle, file', hcall, hsize, hfresh, hmiddle⟩ :=
      hmirrors.call (hfits call mem_cons_self) hdistinct
    obtain ⟨next, file'', hrun, hsize', hlater, hnone, hnext⟩ := ih hmiddle
      (fun other hmem => hsize ▸ hfits other (mem_cons_of_mem _ hmem)) hdistinct.2
    refine ⟨next, file'', ?_, hsize'.trans hsize, fun _ => ?_, by simp, hnext⟩
    · rw [runCalls, hcall]
      exact hrun
    · cases rest with
      | nil =>
        obtain ⟨rfl, _⟩ := hnone rfl
        exact hfresh
      | cons other rest => exact hlater (by simp)

theorem Mirrors.load (hfresh : ov.fresh = false) :
    ∃ loaded, load file identity ov.diskSize = .ok loaded ∧
      loaded.overlay.damaged = 0 ∧ loaded.overlay.generation = ov.generation ∧
      (loaded.clusters.Pairwise fun a b => a.1 < b.1) ∧
      ∀ c data, (c, data) ∈ loaded.clusters ↔ store c = some data := by
  have hholds := hmirrors.holds hfresh
  have hheader : file.take headerLen =
      headerOf (identity.take maxIdentity) ov.diskSize ov.generation ov.table.slots := by
    rw [← hmirrors.identity]
    exact hmirrors.header hfresh
  obtain ⟨loaded, hload, hdamaged, hgeneration, hsorted, hclusters⟩ :=
    hholds.load hmirrors.size (le_refl _) hmirrors.generation hheader
  refine ⟨loaded, hload, hdamaged, hgeneration, hsorted, fun c data => ?_⟩
  rw [hclusters c data]
  constructor
  · rintro ⟨slot, _, _, hstore⟩
    exact hstore
  · intro hstore
    cases hentry : ov.table.map[c]? with
    | none =>
      rw [hholds.absent hentry] at hstore
      cases hstore
    | some entry =>
      have hat : ov.table.At c entry.1 := ⟨entry.2, hentry⟩
      exact ⟨entry.1, (hholds.slots.covers _).mpr (.inr ⟨c, hat⟩), hat, hstore⟩

end Calls

/-! ## Persistence -/

/-- The calls succeed, and `load` of the file they leave finds no damage, the
generation of the overlay, and in index order exactly the clusters that the
calls leave. -/
def Persists (identity : List Byte) (diskSize : ℕ) (file : List Byte) (calls : List Call) : Prop :=
  ∃ ov file' loaded, runCalls (new identity diskSize) file calls = .ok (ov, file') ∧
    load file' identity diskSize = .ok loaded ∧
    loaded.overlay.damaged = 0 ∧ loaded.overlay.generation = ov.generation ∧
    (loaded.clusters.Pairwise fun a b => a.1 < b.1) ∧
    ∀ c data, (c, data) ∈ loaded.clusters ↔
      calls.foldl Call.leave (fun _ => none) c = some data

/-- Calls that never replace the data of a cluster with other data of the same
hash persist.  The first call truncates the file, so that a file that was
there before does not matter. -/
theorem persists {identity : List Byte} {diskSize : ℕ} (hsize : diskSize < 2 ^ 64)
    {file : List Byte} {calls : List Call} (hfits : ∀ call ∈ calls, call.Fits diskSize)
    (hfile : calls ≠ [] ∨ file = []) (hdistinct : NoCollisions (fun _ => none) calls) :
    Persists identity diskSize file calls := by
  obtain ⟨ov, file', hrun, hdisk, hlater, hnone, hmirrors⟩ :=
    (mirrors_new identity hsize file).run hfits hdistinct
  by_cases hcalls : calls = []
  · obtain ⟨rfl, rfl⟩ := hnone hcalls
    obtain rfl := hfile.resolve_left (not_not.mpr hcalls)
    subst hcalls
    exact ⟨_, [], ⟨new identity diskSize, []⟩, hrun, rfl, rfl, rfl, List.Pairwise.nil,
      fun c data => by simp⟩
  · obtain ⟨loaded, hload, hrest⟩ := hmirrors.load (hlater hcalls)
    have hdisk' : ov.diskSize = diskSize := hdisk
    exact ⟨ov, file', loaded, hrun, hdisk' ▸ hload, hrest⟩

/-- A disk of a whole cluster and a byte. -/
theorem fitsDisk_whole (byte : Byte) :
    FitsDisk 4097 (0, some (List.replicate clusterLen byte)) := by
  intro data hdata
  cases hdata
  refine ⟨(by decide : 0 < clusterCount 4097), ?_⟩
  rw [length_replicate]
  exact (by decide : clusterLen = dataLen 4097 0)

theorem fitsDisk_last (byte : Byte) : FitsDisk 4097 (1, some [byte]) := by
  intro data hdata
  cases hdata
  exact ⟨(by decide : 1 < clusterCount 4097), (by decide : 1 = dataLen 4097 1)⟩

/-- One cluster stays, the other one is replaced. -/
theorem persists_replaced : Persists [] 4097 [7]
    [.update [(0, some (List.replicate clusterLen 5)), (1, some [2])],
      .update [(1, none), (1, some [3])]] := by
  refine persists (by decide) ?_ (.inl (by simp)) ?_
  · simp only [mem_cons, not_mem_nil, or_false, forall_eq_or_imp, forall_eq, Call.Fits]
    exact ⟨⟨fitsDisk_whole 5, fitsDisk_last 2⟩, by simp [FitsDisk], fitsDisk_last 3⟩
  · exact ⟨⟨by simp, by simp [Store.set], trivial⟩, ⟨by simp, by simp [Store.set], trivial⟩,
      trivial⟩

/-! ### A lost update -/

open Format (hashWord hashSeed)

/-- Two changed words can compensate each other. -/
theorem hash64_of_two_words {one two one' two' : List Byte} (rest : List Byte)
    (hone : one.length = 8) (htwo : two.length = 8) (hone' : one'.length = 8)
    (htwo' : two'.length = 8)
    (hwords : hashWord (hashWord (hashSeed ^^^ UInt64.ofNat (16 + rest.length)) one) two =
      hashWord (hashWord (hashSeed ^^^ UInt64.ofNat (16 + rest.length)) one') two') :
    hash64 (one ++ (two ++ rest)) = hash64 (one' ++ (two' ++ rest)) := by
  have hlength : ∀ {left right : List Byte}, left.length = 8 → right.length = 8 →
      (left ++ (right ++ rest)).length = 16 + rest.length := by
    intro left right hleft hright
    rw [length_append, length_append, hleft, hright, ← Nat.add_assoc]
  rw [Format.hash64, Format.hash64, hlength hone htwo, hlength hone' htwo']
  rw [asChunks_append (by decide) hone, asChunks_append (by decide) htwo,
    asChunks_append (by decide) hone', asChunks_append (by decide) htwo']
  dsimp only
  rw [foldl_cons, foldl_cons, foldl_cons, foldl_cons, hwords]

/-- The data of a cluster and other data with the same hash. -/
def zeroData : List Byte := [0, 0, 0, 0, 0, 0, 0, 0, 0, 0, 0, 0, 0, 0, 0, 0]

def twinData : List Byte := [1, 0, 0, 0, 0, 0, 0, 0, 0, 0, 128, 249, 0, 0, 0, 128]

theorem hash64_twinData : hash64 (pad zeroData) = hash64 (pad twinData) := by
  have hwords : Format.hash64 ([0, 0, 0, 0, 0, 0, 0, 0] ++ ([0, 0, 0, 0, 0, 0, 0, 0] ++
      List.replicate 4080 0)) = Format.hash64 ([1, 0, 0, 0, 0, 0, 0, 0] ++
      ([0, 0, 128, 249, 0, 0, 0, 128] ++ List.replicate 4080 0)) := by
    refine hash64_of_two_words (List.replicate 4080 0) rfl rfl rfl rfl ?_
    decide +kernel
  exact hwords

theorem change_same (hinside : c < clusterCount ov.diskSize) (hlength : data.length ≤ clusterLen)
    (hcheck : (ov.table.map[c]?).map snd = some (slotBytes c data).1) :
    ov.change c (some data) = .ok (none, ov) := by
  rw [change, require_eq_ok ⟨hinside, hlength⟩, ok_bind]
  dsimp only
  rw [if_pos hcheck]

/-- An update that replaces a cluster with data of the same hash is lost. -/
theorem Mirrors.update_lost {store : Store}
    (hmirrors : Mirrors identity ov store file) (hfresh : ov.fresh = false) {old new : List Byte}
    (hstore : store c = some old) (hlength : new.length ≤ clusterLen)
    (hhash : hash64 (pad old) = hash64 (pad new)) :
    ov.update [(c, some new)] = .ok (⟨none, []⟩, ov) := by
  have hholds := hmirrors.holds hfresh
  have hentry : ov.table.map[c]? ≠ none := by
    intro hnone
    rw [hholds.absent hnone] at hstore
    cases hstore
  obtain ⟨⟨slot, check⟩, hentry⟩ := ne_none_iff_exists'.mp hentry
  obtain ⟨data, hdata, hc, _, rfl, _⟩ := hholds.entry hentry
  rw [hstore] at hdata
  obtain rfl := some.inj hdata
  have hcheck : (ov.table.map[c]?).map snd = some (slotBytes c new).1 := by
    rw [hentry, map_some, slotBytes_check_eq.mpr hhash]
  have hchange := changeAll_cons (change_same hc hlength hcheck) (rfl : ov.changeAll [] = _)
  rw [Overlay.update]
  rw [hchange, ok_bind]
  dsimp only
  rw [if_neg, hfresh]
  · rfl
  · rintro (hwrites | hnew)
    · exact hwrites rfl
    · rw [hfresh] at hnew
      cases hnew

/-- A cluster is written, and then written again with data of the same hash. -/
theorem not_persists :
    ¬∀ (identity : List Byte) (diskSize : ℕ) (file : List Byte) (calls : List Call),
      diskSize < 2 ^ 64 → (∀ call ∈ calls, call.Fits diskSize) → calls ≠ [] ∨ file = [] →
      Persists identity diskSize file calls := by
  intro hall
  have hfits : ∀ data : List Byte, data.length = 16 →
      (Call.update [(0, some data)]).Fits 16 := by
    intro data hlength change hmem data' hdata'
    obtain rfl := mem_singleton.mp hmem
    cases hdata'
    exact ⟨by simp [clusterCount, clusterLen], by simp [hlength, dataLen, clusterLen]⟩
  obtain ⟨ov, file', loaded, hrun, hload, _, _, _, hclusters⟩ :=
    hall [] 16 [] [.update [(0, some zeroData)], .update [(0, some twinData)]] (by decide)
      (by
        simp only [mem_cons, not_mem_nil, or_false, forall_eq_or_imp, forall_eq]
        exact ⟨hfits zeroData rfl, hfits twinData rfl⟩)
      (.inr rfl)
  obtain ⟨p, middle, hupdate, hsize, hfresh, hmirrors⟩ :=
    (mirrors_new [] (by decide : 16 < 2 ^ 64) []).update (hfits zeroData rfl)
      ⟨by simp, trivial⟩
  -- the second update writes nothing, and the file keeps the old data
  have hlost : middle.update [(0, some twinData)] = .ok (⟨none, []⟩, middle) :=
    hmirrors.update_lost hfresh rfl (by decide) hash64_twinData
  have hsame : runCalls (new [] 16) [] [.update [(0, some zeroData)],
      .update [(0, some twinData)]] = .ok (middle, p.applyTo []) := by
    rw [runCalls, Call.apply, hupdate, ok_bind]
    rw [ok_bind]
    dsimp only
    rw [runCalls, Call.apply, hlost]
    rfl
  obtain ⟨rfl, rfl⟩ := Prod.mk.inj (Except.ok.inj (hsame.symm.trans hrun))
  obtain ⟨loaded', hload', _, _, _, hclusters'⟩ := hmirrors.load hfresh
  have hsize' : middle.diskSize = 16 := hsize
  rw [hsize', hload] at hload'
  cases hload'
  have hnew := (hclusters 0 twinData).mpr rfl
  have hold := (hclusters' 0 twinData).mp hnew
  exact absurd hold (by decide)

end Vetro.Overlay
