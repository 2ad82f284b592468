import Vetro.Snapshot.OverlayFile

/-!
# Interrupted updates of an overlay file

The patches of a call are written in order, the header with the new generation
last.  When the writing stops in between, the file still has the header of the
generation before, but slots that the call rewrites in place already have their
new contents.  Only a call that appends leaves every cut readable as the
contents of a committed generation.
-/

namespace Vetro.Overlay

open Bytes List
open Splice
open Outcome
open SlotTable

/-- The file after the first `m` writes. -/
def Patches.cut (p : Patches) (file : List Byte) (m : ℕ) : List Byte :=
  applyWrites (match p.truncate with | some n => file.take n | none => file) (p.writes.take m)

/-- The file `found` reads as the contents that `file` committed. -/
def ReadsAs (identity : List Byte) (diskSize : ℕ) (found : Loaded) (file : List Byte) : Prop :=
  ∃ committed, load file identity diskSize = .ok committed ∧
    found.overlay.generation = committed.overlay.generation ∧
    found.clusters = committed.clusters

/-- Wherever the writes stop, a file that loads has the generation and the
clusters of the file before the call or after it. -/
def CutsAgree (identity : List Byte) (diskSize : ℕ) (file : List Byte) (p : Patches) : Prop :=
  ∀ m found, load (p.cut file m) identity diskSize = .ok found →
    ReadsAs identity diskSize found file ∨ ReadsAs identity diskSize found (p.applyTo file)

/-- The changes write no slot that the header of the file counts: a cluster that
is there keeps its data, and a new one finds no free slot. -/
def Appends (ov : Overlay) (changes : List Change) : Prop :=
  ∀ change ∈ changes,
    (∀ slot check, ov.table.map[change.1]? = some (slot, check) →
      change.2.map (fun data => (slotBytes change.1 data).1) = some check) ∧
    (ov.table.map[change.1]? = none → change.2 = none ∨ ∀ k, k ∉ ov.table.free)

/-! ## What appending changes do -/

section Append

variable {ov middle next : Overlay} {changes : List Change} {writes : List (ℕ × List Byte)}
  {c : ℕ} {data : Option (List Byte)} {write : Option (ℕ × List Byte)}

/-- A state that appending changes reach from `ov`. -/
structure Appended (ov middle : Overlay) : Prop where
  kept : ∀ {c : ℕ} {entry}, ov.table.map[c]? = some entry → middle.table.map[c]? = some entry
  added : ∀ {c slot : ℕ}, ov.table.map[c]? = none → middle.table.At c slot → ov.table.slots ≤ slot
  free : ∀ {k}, k ∈ middle.table.free → k ∈ ov.table.free ∨ ov.table.slots ≤ k
  slots : ov.table.slots ≤ middle.table.slots

theorem Appended.refl (ov : Overlay) : Appended ov ov := by
  refine ⟨id, fun {c slot} hnone hat => ?_, .inl, le_refl _⟩
  obtain ⟨check, hentry⟩ := hat
  rw [hnone] at hentry
  cases hentry

/-- One change of `Appends`, as a condition on the state it finds. -/
theorem Appended.change (happended : Appended ov middle) (happends : Appends ov [(c, data)])
    (hchanged : Changed middle c data write next) :
    Appended ov next ∧ ∀ offset bytes, write = some (offset, bytes) →
      bytes.length = slotLen ∧ ∃ k, ov.table.slots ≤ k ∧ offset = slotOffset k := by
  obtain ⟨hpresent, habsent⟩ := happends (c, data) mem_cons_self
  cases hentry : ov.table.map[c]? with
  | some entry =>
    -- the cluster is there with the same check: nothing is written
    obtain ⟨slot, check⟩ := entry
    have hsame := hpresent slot check hentry
    have hkept := happended.kept hentry
    cases hchanged with
    | same hcheck => exact ⟨happended, by simp⟩
    | written hc hlength hcheck hplaced =>
      rw [hkept] at hcheck
      exact absurd hsame.symm hcheck
    | absent hnone => cases hsame
    | removed hremove => cases hsame
  | none =>
    cases hchanged with
    | same hcheck => exact ⟨happended, by simp⟩
    | @written d slot table hc hlength hcheck hplaced =>
      have hfull := (habsent hentry).resolve_left (by simp)
      have hslot : ov.table.slots ≤ slot := by
        cases hplaced with
        | keep hat => exact happended.added hentry hat
        | reuse hnew hfree =>
          exact (happended.free hfree).resolve_left (hfull slot)
        | grow hnew hempty => exact happended.slots
      refine ⟨⟨fun {c' entry} hentry' => ?_, fun {c' slot'} hnone hat => ?_,
        fun {k} hfree => happended.free (placed_free hplaced hfree), ?_⟩, ?_⟩
      · rw [placed_map hplaced, getElem?_insert_key, if_neg]
        · exact happended.kept hentry'
        · rintro rfl
          rw [hentry] at hentry'
          cases hentry'
      · rw [at_placed hplaced] at hat
        split_ifs at hat with hsame
        · exact hat ▸ hslot
        · exact happended.added hnone hat
      · cases hplaced with
        | keep hat => exact happended.slots
        | reuse hnew hfree => exact happended.slots
        | grow hnew hempty => exact Nat.le_succ_of_le happended.slots
      · intro offset bytes hwrite
        cases hwrite
        exact ⟨length_slotBytes c hlength, slot, hslot, rfl⟩
    | absent hnone => exact ⟨happended, by simp⟩
    | @removed slot table hremove =>
      obtain ⟨hat, rfl⟩ := remove_eq_some hremove
      have hslot := happended.added hentry hat
      refine ⟨⟨fun {c' entry} hentry' => ?_,
        fun {c' slot'} hnone hat' => happended.added hnone (at_erase.mp hat').2,
        fun {k} hfree => ?_, happended.slots⟩, ?_⟩
      · rw [getElem?_erase_key, if_neg]
        · exact happended.kept hentry'
        · rintro rfl
          rw [hentry] at hentry'
          cases hentry'
      · rcases mem_insert_slot.mp hfree with rfl | hold
        · exact .inr hslot
        · exact happended.free hold
      · intro offset bytes hwrite
        cases hwrite
        exact ⟨length_slotBytes _ (Nat.zero_le _), slot, hslot, rfl⟩

/-- The writes of appending changes are past the slots of the file. -/
theorem Appended.changeAll (happended : Appended ov middle) (happends : Appends ov changes)
    (hchanged : ChangedAll middle changes writes next) :
    Appended ov next ∧ ∀ write ∈ writes,
      write.2.length = slotLen ∧ ∃ k, ov.table.slots ≤ k ∧ write.1 = slotOffset k := by
  induction hchanged with
  | nil => exact ⟨happended, fun _ hmem => absurd hmem not_mem_nil⟩
  | @cons middle after next c data write rest writes hstep hrest ih =>
    obtain ⟨hafter, hhere⟩ := happended.change
      (fun change hmem => happends change (mem_singleton.mp hmem ▸ mem_cons_self))
      hstep
    obtain ⟨hnext, hthere⟩ := ih hafter fun change hmem => happends change (mem_cons_of_mem _ hmem)
    refine ⟨hnext, fun other hmem => ?_⟩
    rcases mem_append.mp hmem with hfirst | hlater
    · exact hhere other.1 other.2 (Option.mem_toList.mp hfirst)
    · exact hthere other hlater

/-- With a free slot, appending changes write nothing. -/
theorem ChangedAll.eq_of_free (hchanged : ChangedAll ov changes writes next)
    (happends : Appends ov changes) {k : ℕ} (hfree : k ∈ ov.table.free) : writes = [] := by
  induction hchanged with
  | nil => rfl
  | @cons ov after next c data write rest writes hstep hrest ih =>
    obtain ⟨hpresent, habsent⟩ := happends (c, data) mem_cons_self
    have hnothing : write = none ∧ after = ov := by
      cases hstep with
      | same hcheck => exact ⟨rfl, rfl⟩
      | written hc hlength hcheck hplaced =>
        cases hentry : ov.table.map[c]? with
        | some entry =>
          rw [hentry] at hcheck
          exact absurd (hpresent entry.1 entry.2 hentry).symm hcheck
        | none => exact absurd hfree ((habsent hentry).resolve_left (by simp) k)
      | absent hnone => exact ⟨rfl, rfl⟩
      | removed hremove =>
        obtain ⟨⟨check, hentry⟩, _⟩ := remove_eq_some hremove
        cases hpresent _ _ hentry
    obtain ⟨rfl, rfl⟩ := hnothing
    exact ih (fun change hmem => happends change (mem_cons_of_mem _ hmem)) hfree

end Append

/-! ## Writes past the slots of a file -/

variable {loaded : Loaded}

section Past

variable {identity file file' : List Byte} {diskSize n : ℕ} {writes : List (ℕ × List Byte)}

/-- Every write is in a slot from `n` on. -/
def PastSlots (n : ℕ) (writes : List (ℕ × List Byte)) : Prop :=
  ∀ write ∈ writes, write.2.length = slotLen ∧ ∃ k, n ≤ k ∧ write.1 = slotOffset k

theorem PastSlots.take (hpast : PastSlots n writes) (m : ℕ) : PastSlots n (writes.take m) :=
  fun write hmem => hpast write (mem_of_mem_take hmem)

theorem PastSlots.slotAt (hpast : PastSlots n writes) {k : ℕ} {slot : List Byte} (hk : k < n)
    (hslot : slotAt file k = some slot) : slotAt (applyWrites file writes) k = some slot := by
  induction writes generalizing file with
  | nil => exact hslot
  | cons write rest ih =>
    obtain ⟨hlength, j, hj, hoffset⟩ := hpast write mem_cons_self
    refine ih (fun other hmem => hpast other (mem_cons_of_mem _ hmem)) ?_
    dsimp only
    rw [hoffset]
    exact slotAt_write_other hslot hlength (by omega)

theorem PastSlots.header (hpast : PastSlots n writes) (hlength : headerLen ≤ file.length) :
    headerLen ≤ (applyWrites file writes).length ∧
      (applyWrites file writes).take headerLen = file.take headerLen := by
  induction writes generalizing file with
  | nil => exact ⟨hlength, rfl⟩
  | cons write rest ih =>
    obtain ⟨_, j, _, hoffset⟩ := hpast write mem_cons_self
    have hgrown : headerLen ≤ (writeGrow 0 file write.1 write.2).length := by
      rw [length_writeGrow]
      exact le_max_of_le_left hlength
    obtain ⟨hlong, htake⟩ := ih (fun other hmem => hpast other (mem_cons_of_mem _ hmem)) hgrown
    refine ⟨hlong, htake.trans ?_⟩
    rw [← slice_zero, ← slice_zero]
    refine slice_writeGrow_before ?_ hlength
    rw [hoffset, slotOffset]
    exact Nat.le_add_right _ _

theorem head_writeGrow {start : ℕ} {values : List Byte} (hstart : 0 < start)
    (hzero : ∀ byte, file[0]? = some byte → byte = 0) (byte : Byte)
    (hbyte : (writeGrow 0 file start values)[0]? = some byte) : byte = 0 := by
  rw [writeGrow, getElem?_writeAt, if_pos hstart] at hbyte
  · cases file with
    | nil => exact eq_of_mem_replicate (mem_of_getElem? hbyte)
    | cons first rest => exact hzero byte hbyte
  · rw [length_append, length_replicate]
    omega

/-- Slots written to an empty file leave the place of the header blank. -/
theorem PastSlots.head (hpast : PastSlots n writes)
    (hzero : ∀ byte, file[0]? = some byte → byte = 0) (byte : Byte)
    (hbyte : (applyWrites file writes)[0]? = some byte) : byte = 0 := by
  induction writes generalizing file with
  | nil => exact hzero byte hbyte
  | cons write rest ih =>
    obtain ⟨_, j, _, hoffset⟩ := hpast write mem_cons_self
    refine ih (fun other hmem => hpast other (mem_cons_of_mem _ hmem)) (fun byte' => ?_) hbyte
    refine head_writeGrow ?_ hzero byte'
    rw [hoffset, slotOffset, headerLen]
    omega

/-- A file that loads is empty or starts with the magic bytes. -/
theorem load_starts (hload : load file identity diskSize = .ok loaded) :
    file = [] ∨ headerLen ≤ file.length ∧ ∃ generation slots,
      readHeader (file.take headerLen) (identity.take maxIdentity) diskSize =
        .ok (generation, slots) ∧
      loaded = readSlots file (ofHeader identity diskSize generation slots) := by
  rw [load] at hload
  split_ifs at hload with hempty hshort
  · exact .inl hempty
  · cases hload
  · obtain ⟨⟨generation, slots⟩, hread, hrest⟩ := bind_eq_ok.mp hload
    exact .inr ⟨Nat.le_of_not_lt hshort, generation, slots, hread, (Except.ok.inj hrest).symm⟩

theorem readHeader_magic {h : List Byte} {result : ℕ × ℕ}
    (hread : readHeader h identity diskSize = .ok result) : h.take 8 = magic := by
  by_contra hmagic
  rw [readHeader, if_pos hmagic] at hread
  cases hread

theorem not_load_of_head (hne : file ≠ [])
    (hzero : ∀ byte, file[0]? = some byte → byte = 0) (loaded : Loaded) :
    load file identity diskSize ≠ .ok loaded := by
  intro hload
  rcases load_starts hload with hempty | ⟨_, generation, slots, hread, _⟩
  · exact hne hempty
  · have hmagic := readHeader_magic hread
    have hfirst : ((file.take headerLen).take 8)[0]? = file[0]? := by
      rw [List.getElem?_take, if_pos (by decide), List.getElem?_take, if_pos (by decide)]
    rw [hmagic] at hfirst
    exact absurd (hzero 0x56 hfirst.symm) (by decide)

/-- `load` reads the header and the slots that it counts. -/
theorem load_congr {generation : ℕ} (hlength : headerLen ≤ file.length)
    (hlength' : headerLen ≤ file'.length) (hheader : file'.take headerLen = file.take headerLen)
    (hread : readHeader (file.take headerLen) (identity.take maxIdentity) diskSize =
      .ok (generation, n)) (hslots : ∀ k, k < n → slotAt file' k = slotAt file k) :
    load file' identity diskSize = load file identity diskSize := by
  have hne : ∀ {bytes : List Byte}, headerLen ≤ bytes.length → bytes ≠ [] := by
    rintro bytes hlong rfl
    simp [headerLen] at hlong
  have hfold : ∀ start, (List.range n).foldl (readSlot file') start =
      (List.range n).foldl (readSlot file) start := by
    intro start
    refine foldl_ext _ _ _ fun loaded k hk => ?_
    rw [readSlot, readSlot, hslots k (mem_range.mp hk)]
  rw [load, load]
  rw [if_neg (hne hlength), if_neg (hne hlength'), if_neg (Nat.not_lt.mpr hlength),
    if_neg (Nat.not_lt.mpr hlength'), hheader]
  change (readHeader _ (identity.take maxIdentity) _ >>= _) =
    (readHeader _ (identity.take maxIdentity) _ >>= _)
  rw [hread, ok_bind, ok_bind]
  dsimp only [readSlots]
  rw [show (ofHeader identity diskSize generation n).table.slots = n from rfl, hfold]

end Past

/-! ## Appending is enough -/

section Enough

variable {identity file : List Byte} {ov next : Overlay} {changes : List Change} {p : Patches}

/-- The file is the one that the overlay was read from or has written. -/
structure Tracks (identity : List Byte) (ov : Overlay) (file : List Byte) : Prop where
  start : ov.fresh = true → file = []
  header : ov.fresh = false → headerLen ≤ file.length ∧ ∃ generation,
    readHeader (file.take headerLen) (identity.take maxIdentity) ov.diskSize =
      .ok (generation, ov.table.slots)
  present : ov.fresh = false → (∀ k, k ∉ ov.table.free) → ∀ k, k < ov.table.slots →
    ∃ slot, slotAt file k = some slot

/-- The writes of a cut that leaves out the header. -/
theorem take_of_lt_length {writes : List (ℕ × List Byte)} {m : ℕ} {header : ℕ × List Byte}
    (hwrites : p.writes = writes ++ [header] ∨ p.writes = []) (hm : m < p.writes.length) :
    p.writes.take m = writes.take m := by
  rcases hwrites with hwrites | hwrites <;> rw [hwrites] at hm ⊢
  · rw [length_append, length_singleton] at hm
    exact take_append_of_le_length (by omega)
  · simp at hm

/-- A call that appends leaves what the file reads as, up to the header. -/
theorem Tracks.load_cut (htracks : Tracks identity ov file) (hfresh : ov.fresh = false)
    (hupdate : ov.update changes = .ok (p, next)) (happends : Appends ov changes) {m : ℕ}
    (hm : m < p.writes.length) :
    load (p.cut file m) identity ov.diskSize = load file identity ov.diskSize := by
  obtain ⟨writes, last, hchanged, htruncate, hcases⟩ := update_cases hupdate
  have hpast : PastSlots ov.table.slots writes := ((Appended.refl ov).changeAll happends hchanged).2
  have hcut : p.cut file m = applyWrites file (writes.take m) := by
    rw [Patches.cut, take_of_lt_length (hcases.imp (·.2.2) (·.2.2.2)) hm, htruncate, hfresh]
    rfl
  rw [hcut]
  obtain ⟨hlength, generation, hread⟩ := htracks.header hfresh
  obtain ⟨hlength', hheader⟩ := (hpast.take m).header hlength
  refine load_congr hlength hlength' hheader hread fun k hk => ?_
  by_cases hfull : ∀ k, k ∉ ov.table.free
  · obtain ⟨slot, hslot⟩ := htracks.present hfresh hfull k hk
    rw [(hpast.take m).slotAt hk hslot, hslot]
  · push Not at hfull
    obtain ⟨j, hfree⟩ := hfull
    rw [hchanged.eq_of_free happends hfree, take_nil]
    rfl

theorem Tracks.cutsAgree (htracks : Tracks identity ov file)
    (hupdate : ov.update changes = .ok (p, next)) (happends : Appends ov changes) :
    CutsAgree identity ov.diskSize file p := by
  intro m found hload
  -- all the writes: this is the file after the call
  by_cases hall : p.writes.length ≤ m
  · refine .inr ⟨found, ?_, rfl, rfl⟩
    rwa [Patches.cut, take_of_length_le hall] at hload
  -- otherwise the header is not written yet
  left
  have hm := Nat.lt_of_not_le hall
  cases hfresh : ov.fresh with
  | false => exact ⟨found, htracks.load_cut hfresh hupdate happends hm ▸ hload, rfl, rfl⟩
  | true =>
    obtain ⟨writes, last, hchanged, htruncate, hcases⟩ := update_cases hupdate
    have hpast : PastSlots ov.table.slots writes :=
      ((Appended.refl ov).changeAll happends hchanged).2
    rw [Patches.cut, take_of_lt_length (hcases.imp (·.2.2) (·.2.2.2)) hm, htruncate,
      hfresh] at hload
    obtain rfl := htracks.start hfresh
    by_cases hempty : applyWrites [] (writes.take m) = []
    · change load (applyWrites [] (writes.take m)) identity ov.diskSize = .ok found at hload
      rw [hempty] at hload
      exact ⟨found, hload, rfl, rfl⟩
    · exact absurd hload (not_load_of_head hempty ((hpast.take m).head (by simp)) found)

end Enough

/-! ### Files that an overlay tracks -/

section Tracked

variable {identity file : List Byte} {ov next : Overlay} {store : Store}

theorem mem_free_readSlot {bytes : List Byte} {j k : ℕ}
    (hfree : j ∈ loaded.overlay.table.free ∨ j = k ∧ slotAt bytes k = none) :
    j ∈ (readSlot bytes loaded k).overlay.table.free := by
  rw [readSlot]
  split
  · refine mem_insert_slot.mpr ?_
    rcases hfree with hold | ⟨hsame, _⟩
    · exact .inr hold
    · exact .inl hsame
  · rename_i slot hslot
    have hold := hfree.resolve_right fun hnone => by
      rw [hslot] at hnone
      cases hnone.2
    dsimp only
    split_ifs
    · exact mem_insert_slot.mpr (.inr hold)
    · exact mem_insert_slot.mpr (.inr hold)
    · exact hold

/-- A slot that the file does not have is free. -/
theorem mem_free_readSlots {bytes : List Byte} (loaded : Loaded) {k n : ℕ} (hk : k < n)
    (hnone : slotAt bytes k = none) :
    k ∈ ((List.range n).foldl (readSlot bytes) loaded).overlay.table.free := by
  induction n with
  | zero => exact absurd hk (Nat.not_lt_zero k)
  | succ n ih =>
    rw [range_succ, foldl_append, foldl_cons, foldl_nil]
    apply mem_free_readSlot
    rcases Nat.lt_succ_iff_lt_or_eq.mp hk with hlow | rfl
    · exact .inl (ih hlow)
    · exact .inr ⟨rfl, hnone⟩

theorem tracks_load {diskSize : ℕ} (hload : load file identity diskSize = .ok loaded) :
    loaded.overlay.diskSize = diskSize ∧ Tracks identity loaded.overlay file := by
  rcases load_starts hload with rfl | ⟨hlength, generation, slots, hread, rfl⟩
  · cases hload
    exact ⟨rfl, fun _ => rfl, by rintro ⟨⟩, by rintro ⟨⟩⟩
  · obtain ⟨hsize, _, hfresh, hslots⟩ := foldl_readSlot_frame file
      ⟨ofHeader identity diskSize generation slots, []⟩ slots
    have hsize' : (readSlots file
      (ofHeader identity diskSize generation slots)).overlay.diskSize = diskSize := hsize
    have hslots' : (readSlots file
      (ofHeader identity diskSize generation slots)).overlay.table.slots = slots := hslots
    have hfresh' : (readSlots file
      (ofHeader identity diskSize generation slots)).overlay.fresh = false := hfresh
    refine ⟨hsize', fun hnew => ?_, fun _ => ?_, fun _ hfull k hk => ?_⟩
    · rw [hfresh'] at hnew
      cases hnew
    · rw [hsize', hslots']
      exact ⟨hlength, generation, hread⟩
    · rw [hslots'] at hk
      cases hslot : slotAt file k with
      | some slot => exact ⟨slot, rfl⟩
      | none => exact absurd (mem_free_readSlots _ hk hslot) (hfull k)

theorem Mirrors.tracks (hmirrors : Mirrors identity ov store file)
    (hfile : ov.fresh = true → file = []) : Tracks identity ov file := by
  refine ⟨hfile, fun hfresh => ?_, fun hfresh hfull k hk => ?_⟩
  · have hheader := hmirrors.header hfresh
    have hcount := clusterCount_lt hmirrors.size
    have hslots := (hmirrors.holds hfresh).count
    have hidentity : ov.identity.length ≤ maxIdentity := by
      rw [hmirrors.identity, length_take]
      exact min_le_left _ _
    constructor
    · have hlength := congrArg List.length hheader
      rw [length_header hidentity, length_take] at hlength
      exact min_eq_left_iff.mp hlength
    · refine ⟨ov.generation, ?_⟩
      rw [hheader, ← hmirrors.identity]
      exact readHeader_headerOf hidentity hmirrors.size hmirrors.generation (by omega)
  · have hholds := hmirrors.holds hfresh
    rcases (hholds.slots.covers k).mp hk with hfree | ⟨c, check, hentry⟩
    · exact absurd hfree (hfull k)
    · obtain ⟨data, _, _, _, _, hslot⟩ := hholds.entry hentry
      exact ⟨_, hslot⟩

end Tracked

/-! ## Appending is needed -/

section Needed

variable {identity file : List Byte} {ov middle after next last : Overlay} {store : Store}
  {first second rest changes : List Change} {writes : List (ℕ × List Byte)} {p : Patches}
  {c : ℕ} {data : Option (List Byte)}

theorem ChangedAll.append (hchanged : ChangedAll ov (first ++ second) writes next) :
    ∃ middle earlier later, ChangedAll ov first earlier middle ∧
      ChangedAll middle second later next ∧ writes = earlier ++ later := by
  induction first generalizing ov writes with
  | nil => exact ⟨ov, [], writes, .nil, hchanged, rfl⟩
  | cons change first ih =>
    cases hchanged with
    | @cons _ mid _ c data write _ others hstep hrest =>
      obtain ⟨middle, earlier, later, hfirst, hsecond, rfl⟩ := ih hrest
      exact ⟨middle, write.toList ++ earlier, later, .cons hstep hfirst, hsecond,
        (append_assoc _ _ _).symm⟩

/-- Every write of a change fills one slot. -/
theorem ChangedAll.pastSlots (hchanged : ChangedAll ov changes writes next) :
    PastSlots 0 writes := by
  induction hchanged with
  | nil => exact fun _ hmem => absurd hmem not_mem_nil
  | @cons ov middle next c data write rest writes hstep hrest ih =>
    intro other hmem
    rcases mem_append.mp hmem with hfirst | hlater
    · rw [Option.mem_toList] at hfirst
      cases hstep with
      | same hcheck => cases hfirst
      | written hc hlength hcheck hplaced =>
        cases hfirst
        exact ⟨length_slotBytes c hlength, _, Nat.zero_le _, rfl⟩
      | absent hnone => cases hfirst
      | removed hremove =>
        cases hfirst
        exact ⟨length_slotBytes _ (Nat.zero_le _), _, Nat.zero_le _, rfl⟩
    · exact ih other hlater

theorem Holds.exists_changeAll (hholds : Holds ov store file)
    (hfits : ∀ change ∈ changes, FitsDisk ov.diskSize change)
    (hchanged : ChangedAll ov changes writes next) :
    ∃ store', Holds next store' (applyWrites file writes) := by
  induction hchanged generalizing store file with
  | nil => exact ⟨store, hholds⟩
  | @cons ov middle next c data write rest writes hstep hrest ih =>
    rw [applyWrites, foldl_append]
    refine ih (hholds.change (hfits _ mem_cons_self) hstep) fun change hmem => ?_
    rw [hstep.diskSize_eq]
    exact hfits change (mem_cons_of_mem _ hmem)

/-- A file with a whole header has the generation of the header. -/
theorem generation_of_header {identity' : List Byte} {diskSize generation slots : ℕ}
    (hidentity : identity = identity'.take maxIdentity) (hsize : diskSize < 2 ^ 64)
    (hgeneration : generation < 2 ^ 64) (hslots : slots < 2 ^ 64)
    (hheader : file.take headerLen = headerOf identity diskSize generation slots)
    (hload : load file identity' diskSize = .ok loaded) :
    loaded.overlay.generation = generation := by
  have hshort : identity.length ≤ maxIdentity := by
    rw [hidentity, length_take]
    exact min_le_left _ _
  rcases load_starts hload with rfl | ⟨_, generation', slots', hread, rfl⟩
  · have hlength := congrArg List.length hheader
    rw [length_headerOf hshort] at hlength
    simp [headerLen] at hlength
  · rw [hheader, ← hidentity, readHeader_headerOf hshort hsize hgeneration hslots] at hread
    cases hread
    exact (foldl_readSlot_frame file _ _).2.1

variable (hmirrors : Mirrors identity ov store file)
include hmirrors

/-- A cut before the header has to read as the file before the call. -/
theorem Mirrors.reads_before (hfresh : ov.fresh = false)
    (hfits : ∀ change ∈ changes, FitsDisk ov.diskSize change)
    (hcuts : CutsAgree identity ov.diskSize file p) (hchanged : ChangedAll ov changes writes last)
    (hp : p.truncate = none ∧ p.writes = writes ++ [(0, next.header)])
    (hnext : next = { last with generation := (last.generation + 1) % 2 ^ 64, fresh := false })
    {m : ℕ} {found : Loaded} (hm : m ≤ writes.length)
    (hload : Overlay.load (applyWrites file (writes.take m)) identity ov.diskSize = .ok found)
    (hfound : found.overlay.generation = ov.generation) :
    ∀ c data, (c, data) ∈ found.clusters ↔ store c = some data := by
  have hcut : p.cut file m = applyWrites file (writes.take m) := by
    rw [Patches.cut, hp.1, hp.2, take_append_of_le_length hm]
  obtain ⟨hidentity, hgeneration, _⟩ := hchanged.frame
  have hsize := hchanged.diskSize_eq
  rcases hcuts m found (hcut ▸ hload) with ⟨committed, hcommitted, _, hclusters⟩ |
    ⟨committed, hcommitted, hsame, _⟩
  · obtain ⟨loaded, hloaded, _, _, _, hmem⟩ := hmirrors.load hfresh
    rw [hcommitted] at hloaded
    cases hloaded
    rw [hclusters]
    exact hmem
  · -- the new header has another generation
    obtain ⟨store', hlast⟩ := (hmirrors.holds hfresh).exists_changeAll hfits hchanged
    have hcount := clusterCount_lt (hsize ▸ hmirrors.size : last.diskSize < 2 ^ 64)
    have hslots := hlast.count
    have hown : next.identity = identity.take maxIdentity := by
      rw [hnext]
      exact hidentity.trans hmirrors.identity
    have hlength : next.header.length = headerLen := by
      refine length_header ?_
      rw [hown, length_take]
      exact min_le_left _ _
    have hheader : (p.applyTo file).take headerLen = next.header := by
      rw [Patches.applyTo, hp.1, hp.2, applyWrites, foldl_append]
      exact take_write_header hlength
    have hdisk : next.diskSize = ov.diskSize := by
      rw [hnext]
      exact hsize
    have hnew : committed.overlay.generation = (ov.generation + 1) % 2 ^ 64 := by
      rw [generation_of_header hown (hdisk ▸ hmirrors.size) ?_ ?_ hheader (hdisk ▸ hcommitted),
        hnext, ← hgeneration]
      · rw [hnext]
        exact Nat.mod_lt _ (by decide)
      · rw [hnext]
        dsimp only
        omega
    omega

omit hmirrors in
theorem Changed.slots_le {write : Option (ℕ × List Byte)}
    (hchanged : Changed ov c data write next) : ov.table.slots ≤ next.table.slots := by
  cases hchanged with
  | same hcheck => exact le_refl _
  | written hc hlength hcheck hplaced =>
    cases hplaced with
    | keep hat => exact le_refl _
    | reuse hnew hfree => exact le_refl _
    | grow hnew hfull => exact Nat.le_succ _
  | absent hnone => exact le_refl _
  | removed hremove =>
    obtain ⟨_, rfl⟩ := remove_eq_some hremove
    exact le_refl _

/-- Where the first changes append and the next one writes, the cut right after
that write shows what it wrote. -/
theorem Mirrors.visible (hfresh : ov.fresh = false)
    (hfits : ∀ change ∈ first ++ (c, data) :: rest, FitsDisk ov.diskSize change)
    (hcuts : CutsAgree identity ov.diskSize file p) (hfirst : Appends ov first)
    {earlier later : List (ℕ × List Byte)} {write : ℕ × List Byte}
    (hearlier : ChangedAll ov first earlier middle)
    (hstep : Changed middle c data (some write) after)
    (hchanged : ChangedAll ov (first ++ (c, data) :: rest) (earlier ++ write :: later) last)
    (hp : p.truncate = none ∧ p.writes = (earlier ++ write :: later) ++ [(0, next.header)])
    (hnext : next = { last with generation := (last.generation + 1) % 2 ^ 64, fresh := false }) :
    ∃ store', ∀ c' d, (∃ slot, slot < ov.table.slots ∧ after.table.At c' slot ∧
      storeAfter middle store' c data c' = some d) ↔ store c' = some d := by
  have hsize : after.diskSize = ov.diskSize := hstep.diskSize_eq.trans hearlier.diskSize_eq
  obtain ⟨store', hmiddle⟩ := (hmirrors.holds hfresh).exists_changeAll
    (fun change hmem => hfits change (mem_append_left _ hmem)) hearlier
  have hafter := hmiddle.change (hearlier.diskSize_eq ▸
    hfits (c, data) (mem_append_right _ mem_cons_self)) hstep
  -- the writes up to the cut
  have htake : (earlier ++ write :: later).take (earlier.length + 1) = earlier ++ [write] := by
    rw [take_append, take_of_length_le (Nat.le_succ _), Nat.add_sub_cancel_left]
    rfl
  have hcut : applyWrites (applyWrites file earlier) (some write).toList =
      applyWrites file ((earlier ++ write :: later).take (earlier.length + 1)) := by
    rw [htake, applyWrites, applyWrites, applyWrites, foldl_append]
    rfl
  rw [hcut] at hafter
  have hslots : ov.table.slots ≤ after.table.slots :=
    (((Appended.refl ov).changeAll hfirst hearlier).1.slots).trans hstep.slots_le
  have htracks := hmirrors.tracks (by simp [hfresh])
  obtain ⟨_, hheader⟩ := (hchanged.pastSlots.take (earlier.length + 1)).header
    (htracks.header hfresh).1
  have hheader' : (applyWrites file
      ((earlier ++ write :: later).take (earlier.length + 1))).take headerLen =
        headerOf (identity.take maxIdentity) after.diskSize ov.generation ov.table.slots := by
    rw [← hmirrors.identity, hsize]
    exact hheader.trans (hmirrors.header hfresh)
  obtain ⟨found, hload, _, hgeneration, _, hclusters⟩ :=
    hafter.load (hsize ▸ hmirrors.size) hslots hmirrors.generation hheader'
  have hbefore := hmirrors.reads_before hfresh hfits hcuts hchanged hp hnext
    (by simp) (hsize ▸ hload) hgeneration
  exact ⟨store', fun c' d => (hclusters c' d).symm.trans (hbefore c' d)⟩

/-- One more change of a call whose cuts agree. -/
theorem Mirrors.appends_step (hfresh : ov.fresh = false)
    (hfits : ∀ change ∈ first ++ (c, data) :: rest, FitsDisk ov.diskSize change)
    (hupdate : ov.update (first ++ (c, data) :: rest) = .ok (p, next))
    (hcuts : CutsAgree identity ov.diskSize file p) (hfirst : Appends ov first) :
    Appends ov [(c, data)] := by
  have hholds := hmirrors.holds hfresh
  obtain ⟨writes, last, hchanged, htruncate, hcases⟩ := update_cases hupdate
  rw [hfresh] at htruncate
  obtain ⟨middle, earlier, others, hearlier, hothers, rfl⟩ := hchanged.append
  have happended := ((Appended.refl ov).changeAll hfirst hearlier).1
  cases hothers with
  | @cons _ after _ _ _ write _ later hstep hrest =>
    -- what a write of the change would show
    have hvisible : ∀ written, write = some written → ∃ store', ∀ c' d,
        (∃ slot, slot < ov.table.slots ∧ after.table.At c' slot ∧
          storeAfter middle store' c data c' = some d) ↔ store c' = some d := by
      rintro written rfl
      rcases hcases with ⟨_, hnext, hwrites⟩ | ⟨hnone, _⟩
      · exact hmirrors.visible hfresh hfits hcuts hfirst hearlier hstep hchanged
          ⟨htruncate, hwrites⟩ hnext
      · simp at hnone
    intro change hmem
    obtain rfl := mem_singleton.mp hmem
    refine ⟨fun slot check hentry => ?_, fun hnone => ?_⟩
    · obtain ⟨old, hold, _, _, hcheck, _⟩ := hholds.entry hentry
      have hkept := happended.kept hentry
      cases hstep with
      | same hsame =>
        rw [hkept] at hsame
        exact hsame.symm
      | @written d slot' table hc hlength hne hplaced =>
        obtain ⟨store', hshown⟩ := hvisible _ rfl
        obtain ⟨_, _, _, hstored⟩ := (hshown c old).mpr hold
        rw [storeAfter, if_neg fun hboth => hne hboth.2, Store.set, if_pos rfl] at hstored
        rw [hcheck, hstored]
        rfl
      | absent hmissing =>
        rw [hkept] at hmissing
        cases hmissing
      | removed hremove =>
        obtain ⟨store', hshown⟩ := hvisible _ rfl
        obtain ⟨_, _, hat, _⟩ := (hshown c old).mpr hold
        obtain ⟨_, rfl⟩ := remove_eq_some hremove
        exact absurd rfl (at_erase.mp hat).1
    · by_contra hboth
      rw [not_or] at hboth
      obtain ⟨hsome, hfree⟩ := hboth
      push Not at hfree
      obtain ⟨k, hk⟩ := hfree
      -- with a free slot nothing was written before
      obtain rfl := hearlier.eq_of_nil (hearlier.eq_of_free hfirst hk)
      cases hstep with
      | same hsame =>
        rw [hnone] at hsame
        cases hsame
      | @written d slot' table hc hlength hne hplaced =>
        obtain ⟨store', hshown⟩ := hvisible _ rfl
        have hat : table.At c slot' := (at_placed hplaced).mpr (by rw [if_pos rfl])
        have hslot : slot' < middle.table.slots := by
          cases hplaced with
          | keep hold => exact (hholds.slots.covers _).mpr (.inr ⟨c, hold⟩)
          | reuse hnew hmem => exact (hholds.slots.covers _).mpr (.inl hmem)
          | grow hnew hfull => exact absurd hk (hfull k)
        have hstored := (hshown c d).mp ⟨slot', hslot, hat, by
          rw [storeAfter, if_neg fun hboth => hne hboth.2, Store.set, if_pos rfl]⟩
        rw [hholds.absent hnone] at hstored
        cases hstored
      | absent hmissing => exact hsome rfl
      | removed hremove => exact hsome rfl

theorem Mirrors.appends_of_cutsAgree (hfits : ∀ change ∈ changes, FitsDisk ov.diskSize change)
    (hupdate : ov.update changes = .ok (p, next)) (hcuts : CutsAgree identity ov.diskSize file p) :
    Appends ov changes := by
  cases hfresh : ov.fresh with
  | true =>
    obtain ⟨hnew, _⟩ := hmirrors.fresh hfresh
    rw [hnew]
    intro change _
    simp [new, Table.empty]
  | false =>
    have htake : ∀ k, Appends ov (changes.take k) := by
      intro k
      induction k with
      | zero => exact fun _ hmem => absurd hmem not_mem_nil
      | succ k ih =>
        by_cases hk : k < changes.length
        · rw [take_succ_eq_append_getElem hk]
          have hsplit := (take_append_drop k changes).symm
          rw [drop_eq_getElem_cons hk] at hsplit
          have hstep : Appends ov [(changes[k].1, changes[k].2)] :=
            hmirrors.appends_step hfresh (hsplit ▸ hfits) (hsplit ▸ hupdate) hcuts ih
          intro change hmem
          rcases mem_append.mp hmem with hfirst | hlast
          · exact ih change hfirst
          · exact hstep change hlast
        · rw [take_of_length_le (by omega)] at ih ⊢
          exact ih
    have hall := htake changes.length
    rwa [take_length] at hall

end Needed

/-! ## Generations across interruptions -/

/-- A call on a file that was just loaded, whatever the file, leaves every cut
with the contents of a committed generation if it only appends; on the files
that the overlay itself writes it does so only if it only appends.  `sync` is
`update` with the changes it computes. -/
theorem cutsAgree_iff_appends {identity file : List Byte} {changes : List Change}
    {p : Patches} {next : Overlay} : (∀ {diskSize : ℕ} {before : Loaded},
      load file identity diskSize = .ok before →
      before.overlay.update changes = .ok (p, next) → Appends before.overlay changes →
      CutsAgree identity diskSize file p) ∧
    ∀ {ov : Overlay} {store : Store},
      Mirrors identity ov store file → (ov.fresh = true → file = []) →
      (∀ change ∈ changes, FitsDisk ov.diskSize change) →
      ov.update changes = .ok (p, next) →
      (CutsAgree identity ov.diskSize file p ↔ Appends ov changes) := by
  constructor
  · intro diskSize before hload hupdate happends
    obtain ⟨hsize, htracks⟩ := tracks_load hload
    exact hsize ▸ htracks.cutsAgree hupdate happends
  · intro ov store hmirrors hfile hfits hupdate
    exact ⟨hmirrors.appends_of_cutsAgree hfits hupdate, (hmirrors.tracks hfile).cutsAgree hupdate⟩

/-- The first update writes cluster 0. -/
theorem update_first {diskSize : ℕ} (hsize : diskSize < 2 ^ 64) {data : List Byte}
    (hfits : FitsDisk diskSize (0, some data)) :
    ∃ p next, (new [] diskSize).update [(0, some data)] = .ok (p, next) ∧
      next.diskSize = diskSize ∧ next.fresh = false ∧ (∀ k, k ∉ next.table.free) ∧
      Mirrors [] next (Store.set (fun _ => none) (0, some data)) (p.applyTo []) := by
  have hall : ∀ change ∈ [(0, some data)], FitsDisk diskSize change :=
    fun change hmem => mem_singleton.mp hmem ▸ hfits
  obtain ⟨p, next, hupdate, hdisk, hfresh, hmirrors⟩ :=
    (mirrors_new [] hsize []).update hall ⟨by simp, trivial⟩
  refine ⟨p, next, hupdate, hdisk, hfresh, ?_, hmirrors⟩
  obtain ⟨hinside, hlength⟩ := hfits data rfl
  have hput : Table.empty.put 0 (slotBytes 0 data).1 =
      (0, ⟨(∅ : Std.TreeMap ℕ (ℕ × UInt64) compare).insert 0 (0, (slotBytes 0 data).1), ∅, 1⟩) := by
    simp [Table.put, Table.alloc, Table.empty]
  have hchange : (new [] diskSize).changeAll [(0, some data)] = .ok _ :=
    changeAll_cons (change_absent hinside (hlength ▸ dataLen_le diskSize 0) rfl hput) rfl
  obtain ⟨p', next', hupdate', htable, -⟩ := update_of_writes hchange (by simp)
  cases hupdate.symm.trans hupdate'
  rw [htable]
  simp

/-- Cluster 0 is committed and cluster 1 appended: up to the new header the file reads as before. -/
theorem cutsAgree_appended : ∃ p ov p' next committed,
    (new [] 4097).update [(0, some (replicate clusterLen 5))] = .ok (p, ov) ∧
    ov.update [(1, some [2])] = .ok (p', next) ∧ CutsAgree [] 4097 [] p ∧
    CutsAgree [] 4097 (p.applyTo []) p' ∧ load (p'.cut (p.applyTo []) 1) [] 4097 = .ok committed ∧
    committed.overlay.generation = ov.generation ∧
    (0, replicate clusterLen 5) ∈ committed.clusters := by
  obtain ⟨p, ov, hupdate, hdisk, hfresh, hfull, hmirrors⟩ :=
    update_first (by decide) (fitsDisk_whole 5)
  have hfits : ∀ change ∈ [((1, some [2]) : Change)], FitsDisk ov.diskSize change := by
    intro change hmem
    rw [mem_singleton.mp hmem, hdisk]
    exact fitsDisk_last 2
  obtain ⟨p', next, hupdate', _⟩ := hmirrors.update hfits ⟨by simp [Store.set], trivial⟩
  have habsent : ov.table.map[1]? = none := by
    cases hentry : ov.table.map[1]? with
    | none => rfl
    | some entry =>
      obtain ⟨data, hdata, _⟩ := (hmirrors.holds hfresh).entry hentry
      simp [Store.set] at hdata
  have happends : Appends ov [(1, some [2])] := by
    intro change hmem
    obtain rfl := mem_singleton.mp hmem
    exact ⟨fun slot check hentry => by simp [habsent] at hentry, fun _ => .inr hfull⟩
  have hcuts := (cutsAgree_iff_appends.2 hmirrors (by simp [hfresh]) hfits hupdate').mpr happends
  obtain ⟨committed, hload, _, hgeneration, _, hclusters⟩ := hmirrors.load hfresh
  have hwrites : 1 < p'.writes.length := by
    obtain ⟨writes, last, hchanged, -, hcases⟩ := update_cases hupdate'
    cases hchanged with
    | cons hstep hrest =>
      cases hstep with
      | same hcheck => simp [habsent] at hcheck
      | written hinside hlength hcheck hplaced =>
        rcases hcases with ⟨-, -, hboth⟩ | ⟨hnone, -⟩
        · simp [hboth]
        · simp at hnone
  have hcut := (hmirrors.tracks (by simp [hfresh])).load_cut hfresh hupdate' happends hwrites
  rw [hdisk] at hcuts hload hcut
  refine ⟨p, ov, p', next, committed, hupdate, hupdate',
    cutsAgree_iff_appends.1 (rfl : load [] [] 4097 = _) hupdate ?_, hcuts, hcut.trans hload,
    hgeneration, (hclusters 0 _).mpr rfl⟩
  intro change _
  simp [new, Table.empty]

/-- The one cluster is removed: after the first write the file has the old
generation, without the cluster. -/
theorem not_cutsAgree_remove :
    ¬∀ (identity file : List Byte) (ov next : Overlay) (store : Store) (changes : List Change)
        (p : Patches),
      Mirrors identity ov store file → (ov.fresh = true → file = []) →
      (∀ change ∈ changes, FitsDisk ov.diskSize change) →
      ov.update changes = .ok (p, next) → CutsAgree identity ov.diskSize file p := by
  intro hall
  obtain ⟨p, ov, _, _, hfresh, _, hmirrors⟩ := update_first (by decide) (fitsDisk_whole 5)
  have hfits : ∀ change ∈ [((0, none) : Change)], FitsDisk ov.diskSize change := by
    intro change hmem data hdata
    obtain rfl := mem_singleton.mp hmem
    cases hdata
  obtain ⟨p', next, hupdate, _⟩ := hmirrors.update hfits ⟨fun _ _ _ => by simp, trivial⟩
  have hcuts := hall [] _ ov next _ _ p' hmirrors (by simp [hfresh]) hfits hupdate
  obtain ⟨hpresent, _⟩ := hmirrors.appends_of_cutsAgree hfits hupdate hcuts (0, none) mem_cons_self
  cases hentry : ov.table.map[0]? with
  | some entry => cases hpresent entry.1 entry.2 hentry
  | none =>
    have habsent := (hmirrors.holds hfresh).absent hentry
    simp [Store.set] at habsent

end Vetro.Overlay
