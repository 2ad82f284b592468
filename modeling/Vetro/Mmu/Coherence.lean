import Vetro.Mmu.Recent

/-!
# The TLB and the tables

A history of accesses, invalidations and restores of one core.  An entry of the
TLB comes from a walk of the history that no invalidation has covered since.  As
long as the guest invalidates what it changes, translation through the TLB gives
what a walk of the present tables gives.
-/

namespace Vetro.Paging

open Mask List Option BitVec

/-! ## Histories -/

/-- What happened to a core, with the registers and the memory of every access. -/
inductive Deed where
  | walked (regs : MmuRegs) (phys : Phys) (va : Word)
  | tlbi (op : TlbiOp) (xt : Word)
  | flushed

/-- The address is in the page or block that `key` was translated with. -/
def InBlock (key : Word) (t : Translation) (key' : Word) : Prop :=
  key'.toNat / t.blockSize.toNat = key.toNat / t.blockSize.toNat

/-- The translation of `key` is covered by an invalidation: everything, the address with its
ASID or with any, or the ASID of what is not global. -/
def Deed.Covers (key : Word) (t : Translation) : Deed → Prop
  | .walked _ _ _ => False
  | .flushed => True
  | .tlbi op xt =>
    match op with
    | .vmalle1 | .vmalle1is => True
    | .vae1 | .vae1is | .vale1 | .vale1is =>
      InBlock key t (tlbiVa xt) ∧ (t.ng = false ∨ t.asid = tlbiAsid xt)
    | .aside1 | .aside1is => t.ng = true ∧ t.asid = tlbiAsid xt
    | .vaae1 | .vaae1is | .vaale1 | .vaale1is => InBlock key t (tlbiVa xt)

/-- An access of the history, what its walk gave, and what has happened since. -/
structure Looked (history : List Deed) (paBits : ℕ) (regs : MmuRegs) (phys : Phys) (va : Word)
    (hi : Bool) (t : Translation) (later : List Deed) : Prop where
  deed : ∃ earlier, history = later ++ .walked regs phys va :: earlier
  enabled : regs.enabled = true
  select : select regs va = .ok hi
  walk : walkTables regs paBits phys va hi = .ok t

/-- A walk without what is read again on every access: the attributes of MAIR and the
current ASID. -/
def Translation.core (t : Translation) : Translation := { t with mairAttr := 0, asid := 0 }

/-- Every change since an access is covered: for the addresses of a block that was used
before, the walk gives what it gave then, under the same ASID or a global leaf, if no
invalidation has covered the block. -/
def Maintained (history : List Deed) (paBits : ℕ) (regs : MmuRegs) (phys : Phys) : Prop :=
  ∀ regs₀ phys₀ va₀ hi₀ t₀ later, Looked history paBits regs₀ phys₀ va₀ hi₀ t₀ later →
    (∀ deed ∈ later, ¬deed.Covers (va₀ &&& vaMask) t₀) →
    (t₀.ng = false ∨ t₀.asid = regs.asid) →
    ∀ va hi, InBlock (va₀ &&& vaMask) t₀ (va &&& vaMask) → select regs va = .ok hi →
      (walkTables regs paBits phys va hi).map Translation.core =
        (walkTables regs₀ paBits phys₀ va hi₀).map Translation.core

/-- The runs of a core with their histories.  A restore brings back the state of another
run, with its history. -/
inductive Run : List Deed → Mmu → Prop where
  | new (paBits : ℕ) (hge : 32 ≤ paBits) (hle : paBits ≤ 48) : Run [] (Mmu.new paBits hge hle)
  | setRegs {history : List Deed} {m : Mmu} (hrun : Run history m) (regs : MmuRegs) :
      Run history { m with regs }
  | translate {history : List Deed} {m : Mmu} (hrun : Run history m) (phys : Phys) (va : Word)
      (access : Access) (el : ℕ) (aligned : Bool) :
      Run (.walked m.regs phys va :: history) (m.translateChecked phys va access el aligned).2
  | access {history : List Deed} {m : Mmu} (hrun : Run history m) (regs : MmuRegs) (phys : Phys)
      (va : Word) (access : Access) (el : ℕ) (aligned : Bool) :
      Run (.walked regs phys va :: history)
        (m.translatePaWith regs phys va access el aligned).2
  | tlbi {history : List Deed} {m : Mmu} (hrun : Run history m) (op : TlbiOp) (xt : Word) :
      Run (.tlbi op xt :: history) (m.tlbi op xt)
  | flushAll {history : List Deed} {m : Mmu} (hrun : Run history m) :
      Run (.flushed :: history) m.flushAll
  | restore {history saved : List Deed} {m m' : Mmu} (hrun : Run history m)
      (hsaved : Run saved m') (hbits : m.paBits = m'.paBits) :
      Run saved (m.restore m'.save).2

/-! ## Where entries come from -/

/-- The entry comes from a walk that nothing has covered. -/
def Inserted (history : List Deed) (paBits : ℕ) (e : TlbEntry) : Prop :=
  ∃ regs phys va hi t later, Looked history paBits regs phys va hi t later ∧
    TlbEntry.new (va &&& vaMask) t = some e ∧
    ∀ deed ∈ later, ¬deed.Covers (va &&& vaMask) t

/-- An entry that a TLBI has to remove. -/
def TlbEntry.CoveredBy (e : TlbEntry) (op : TlbiOp) (xt : Word) : Prop :=
  match op with
  | .vmalle1 | .vmalle1is => True
  | .vae1 | .vae1is | .vale1 | .vale1is =>
    e.contains (tlbiVa xt) = true ∧ (e.global = true ∨ e.asid = tlbiAsid xt)
  | .aside1 | .aside1is => e.global = false ∧ e.asid = tlbiAsid xt
  | .vaae1 | .vaae1is | .vaale1 | .vaale1is => e.contains (tlbiVa xt) = true

theorem tlbiVa_and_vaMask (xt : Word) : tlbiVa xt &&& vaMask = tlbiVa xt := by
  refine eq_of_getLsbD_eq fun i hi => ?_
  have hmask : ((1 : Word) <<< 44 - 1) = low 44 := rfl
  rw [tlbiVa, hmask, vaMask_eq]
  simp only [getLsbD_and, getLsbD_shiftLeft, getLsbD_low (show 44 < 64 by decide),
    getLsbD_low (show 56 < 64 by decide)]
  by_cases hsmall : i < 56
  · simp [hsmall]
  · simp [hsmall, show ¬i - 12 < 44 by omega]

/-- A TLBI removes exactly what it covers. -/
theorem entries_tlbi (t : Tlb) (op : TlbiOp) (xt : Word) (i : Slot) (e : TlbEntry) :
    (t.tlbi op xt).entries i = some e ↔ t.entries i = some e ∧ ¬e.CoveredBy op xt := by
  have hremove : ∀ pred : TlbEntry → Bool, ∀ inval, (pred e = true ↔ e.CoveredBy op xt) →
      (((t.note inval).removeIf pred).entries i = some e ↔
        t.entries i = some e ∧ ¬e.CoveredBy op xt) := by
    intro pred inval hpred
    rw [← hpred]
    refine filter_eq_some_iff.trans ?_
    rw [Bool.not_eq_true', Bool.not_eq_true]
    rfl
  have hva : Tlb.applies e (tlbiVa xt &&& vaMask) (tlbiAsid xt) = true ↔
      e.contains (tlbiVa xt) = true ∧ (e.global = true ∨ e.asid = tlbiAsid xt) := by
    rw [Tlb.applies, tlbiVa_and_vaMask, Bool.and_eq_true, Bool.or_eq_true, decide_eq_true_iff]
  have hall : e.contains (tlbiVa xt &&& vaMask) = true ↔ e.contains (tlbiVa xt) = true := by
    rw [tlbiVa_and_vaMask]
  cases op with
  | vmalle1 | vmalle1is =>
    simp only [TlbEntry.CoveredBy, not_true, and_false, iff_false]
    rintro ⟨⟩
  | vae1 | vae1is | vale1 | vale1is => exact hremove _ _ hva
  | aside1 | aside1is =>
    refine hremove _ _ ?_
    rw [Bool.and_eq_true, Bool.not_eq_true', decide_eq_true_iff]
    rfl
  | vaae1 | vaae1is | vaale1 | vaale1is => exact hremove _ _ hall

theorem inBlock_iff {leaf : Leaf} (hrest : leaf.rest ≤ 2) (regs : MmuRegs) (va key key' : Word) :
    InBlock key (leaf.translation regs va) key' ↔
      key'.toNat / 2 ^ bottom leaf.rest = key.toNat / 2 ^ bottom leaf.rest := by
  have hsize : (leaf.translation regs va).blockSize.toNat = 2 ^ bottom leaf.rest :=
    toNat_one_shiftLeft (bottom_lt (hrest.trans (by decide)))
  rw [InBlock, hsize]

variable {regs : MmuRegs} {e : TlbEntry} {va : Word}

/-- An entry is covered as the block it comes from. -/
theorem coveredBy_iff {leaf : Leaf} (hrest : leaf.rest ≤ 2) {key : Word}
    (hnew : TlbEntry.new key (leaf.translation regs va) = some e) (op : TlbiOp) (xt : Word) :
    e.CoveredBy op xt ↔ Deed.Covers key (leaf.translation regs va) (.tlbi op xt) := by
  have hn := bottom_lt (hrest.trans (by decide : 2 ≤ 3))
  have hblock : ∀ key', e.contains key' = true ↔ InBlock key (leaf.translation regs va) key' := by
    intro key'
    obtain rfl := some.inj hnew
    rw [TlbEntry.contains_iff hn rfl rfl, inBlock_iff hrest]
  have hglobal : e.global = !(leaf.translation regs va).ng := by
    obtain rfl := some.inj hnew
    rfl
  have hasid : e.asid = (leaf.translation regs va).asid := by
    obtain rfl := some.inj hnew
    rfl
  cases op <;> simp [TlbEntry.CoveredBy, Deed.Covers, hblock, hglobal, hasid]

variable {phys : Phys} {hi : Bool}

namespace Inserted

variable {history : List Deed} {paBits : ℕ} {e : TlbEntry}

/-- Something that does not cover the entry happens. -/
theorem later (he : Inserted history paBits e) {deed : Deed}
    (hfree : ∀ key t, TlbEntry.new key t = some e → (∃ leaf : Leaf, ∃ regs va, leaf.rest ≤ 2 ∧
      t = leaf.translation regs va) → ¬deed.Covers key t) :
    Inserted (deed :: history) paBits e := by
  obtain ⟨regs, phys, va, hi, t, later, hlooked, hnew, hnone⟩ := he
  obtain ⟨earlier, hhistory⟩ := hlooked.deed
  refine ⟨regs, phys, va, hi, t, deed :: later,
    ⟨⟨earlier, by rw [hhistory, List.cons_append]⟩, hlooked.enabled, hlooked.select,
      hlooked.walk⟩, hnew, ?_⟩
  intro d hd
  rcases mem_cons.mp hd with rfl | hd
  · obtain ⟨leaf, -, hrest, -, -, heq⟩ := walkTables_eq_ok.mp hlooked.walk
    exact hfree _ t hnew ⟨leaf, regs, va, hrest, heq⟩
  · exact hnone d hd

theorem now {t : Translation} (henabled : regs.enabled = true) (hselect : select regs va = .ok hi)
    (hwalk : walkTables regs paBits phys va hi = .ok t)
    (hnew : TlbEntry.new (va &&& vaMask) t = some e) :
    Inserted (.walked regs phys va :: history) paBits e :=
  ⟨regs, phys, va, hi, t, [], ⟨⟨history, rfl⟩, henabled, hselect, hwalk⟩, hnew, by simp⟩

end Inserted

/-! ## Saved entries come back -/

/-- What is saved of some slots. -/
def Tlb.records (t : Tlb) (slots : List Slot) : List (ℕ × TlbEntry) :=
  slots.filterMap fun i => (t.entries i).map fun e => (i.val, e)

theorem Tlb.save_eq (t : Tlb) : ∃ slots : List Slot, slots.Pairwise (· < ·) ∧
    (∀ i, i ∈ slots) ∧ slots.length = 512 ∧
    t.save = ⟨(t.records slots).length, t.records slots⟩ :=
  ⟨List.finRange 512, pairwise_lt_finRange 512, mem_finRange, length_finRange, rfl⟩

/-- The entries that the records of some slots leave. -/
theorem restoreEntries_slots {t : Tlb} (haccepted : ∀ i e, t.entries i = some e →
    Tlb.accepts e = true) {slots : List Slot} (hsorted : slots.Pairwise (· < ·))
    (entries : Slot → Option TlbEntry) (last : Option ℕ)
    (hlast : ∀ l ∈ last, ∀ i ∈ slots, l < i.val) :
    Tlb.restoreEntries entries last (t.records slots).length (t.records slots) =
      (.ok (), fun j => if j ∈ slots then (t.entries j).or (entries j) else entries j) := by
  induction slots generalizing entries last with
  | nil => simp [Tlb.records, Tlb.restoreEntries]
  | cons i slots ih =>
    rw [pairwise_cons] at hsorted
    have hnotin : i ∉ slots := fun hmem => lt_irrefl i (hsorted.1 i hmem)
    cases hentry : t.entries i with
    | none =>
      have hrecords : t.records (i :: slots) = t.records slots :=
        filterMap_cons_none (by simp [hentry])
      rw [hrecords, ih hsorted.2 entries last fun l hl j hj => hlast l hl j (mem_cons_of_mem _ hj)]
      congr 1
      funext j
      by_cases hj : j = i
      · simp [hj, hnotin, hentry]
      · simp [hj]
    | some e =>
      have hfirst : ¬last.any (i.val ≤ ·) = true := by
        rw [Option.any_eq_true]
        rintro ⟨l, hl, hle⟩
        have hlt := hlast l hl i mem_cons_self
        exact absurd (of_decide_eq_true hle) (Nat.not_le.mpr hlt)
      have hnext : ∀ l ∈ some i.val, ∀ j ∈ slots, l < j.val := by
        rintro l hl j hj
        cases hl
        exact hsorted.1 j hj
      have hrecords : t.records (i :: slots) = (i.val, e) :: t.records slots :=
        filterMap_cons_some (by simp [hentry])
      rw [hrecords, length_cons,
        Tlb.restoreEntries, dif_pos i.isLt, if_neg hfirst,
        if_neg (by rw [haccepted i e hentry]; decide), ih hsorted.2 _ _ hnext]
      congr 1
      funext j
      by_cases hj : j = i
      · simp [hj, hnotin, hentry]
      · simp [hj]

theorem restoreEntries_save {t : Tlb} (haccepted : ∀ i e, t.entries i = some e →
    Tlb.accepts e = true) :
    Tlb.restoreEntries (fun _ => none) none t.save.count t.save.records = (.ok (), t.entries) := by
  obtain ⟨slots, hsorted, hall, -, hsave⟩ := t.save_eq
  rw [hsave, restoreEntries_slots haccepted hsorted (fun _ => none) none (by simp)]
  simp [hall]

/-- What a TLB of accepted entries of whole pages saves is sound. -/
theorem Tlb.save_sound {t : Tlb} (haccepted : ∀ i e, t.entries i = some e →
    Tlb.accepts e = true) (hpaged : ∀ i e, t.entries i = some e → e.Paged) : t.save.Sound := by
  obtain ⟨slots, hsorted, -, hlength, hsave⟩ := t.save_eq
  have hrecord : ∀ r ∈ t.records slots, ∃ i : Slot, t.entries i = some r.2 ∧ r.1 = i.val := by
    intro r hr
    obtain ⟨i, -, hmap⟩ := mem_filterMap.mp hr
    obtain ⟨e, hentry, rfl⟩ := map_eq_some_iff.mp hmap
    exact ⟨i, hentry, rfl⟩
  rw [hsave]
  refine ⟨?_, le_refl _, ?_, fun r hr => ?_, fun r hr => ?_, fun r hr => ?_⟩
  · calc (t.records slots).length ≤ slots.length := length_filterMap_le _ _
      _ = 512 := hlength
  · rw [pairwise_map]
    refine List.Pairwise.filterMap _ ?_ hsorted
    intro i j hlt r hr r' hr'
    obtain ⟨e, -, rfl⟩ := map_eq_some_iff.mp hr
    obtain ⟨e', -, rfl⟩ := map_eq_some_iff.mp hr'
    exact hlt
  · obtain ⟨i, -, hi⟩ := hrecord r hr
    rw [hi]
    exact i.isLt
  · obtain ⟨i, hentry, -⟩ := hrecord r hr
    exact haccepted i _ hentry
  · obtain ⟨i, hentry, -⟩ := hrecord r hr
    exact hpaged i _ hentry

variable {history : List Deed}

/-- A restore takes the entries of walks. -/
theorem Inserted.accepts {paBits : ℕ} (he : Inserted history paBits e) : Tlb.accepts e = true := by
  obtain ⟨regs, phys, va, hi, t, later, hlooked, hnew, -⟩ := he
  obtain ⟨leaf, -, hrest, -, -, rfl⟩ := walkTables_eq_ok.mp hlooked.walk
  have hn := bottom_lt (hrest.trans (by decide : 2 ≤ 3))
  obtain rfl := some.inj hnew
  have hattr : ((leaf.desc >>> 2 &&& 7).setWidth 8 : BitVec 8) ≤ 7 := by
    exact (Nat.mod_le _ _).trans Nat.and_le_right
  have hbase : (va &&& vaMask) &&& ~~~low (bottom leaf.rest) &&& low (bottom leaf.rest) = 0 := by
    rw [BitVec.and_assoc, BitVec.and_comm (~~~_), BitVec.and_not_self]
    exact and_zero
  simp only [Tlb.accepts, Bool.and_eq_true, decide_eq_true_eq]
  exact ⟨⟨⟨bottom leaf.rest, hn, rfl⟩, hbase⟩, hattr⟩

/-! ## Runs -/

/-- Every entry of the TLB comes from the history. -/
structure Traced (history : List Deed) (m : Mmu) : Prop where
  backed : Backed m
  inserted : ∀ i e, m.tlb.entries i = some e → Inserted history m.paBits e

namespace Traced

variable {history : List Deed} {m : Mmu}

variable (hm : Traced history m)
include hm

/-- What an access leaves in the TLB. -/
theorem inserted_translateChecked (phys : Phys) (va : Word) (access : Access) (el : ℕ)
    (aligned : Bool) {i : Slot}
    (hentry : (m.translateChecked phys va access el aligned).2.tlb.entries i = some e) :
    Inserted (.walked m.regs phys va :: history) m.paBits e := by
  have hold : m.tlb.entries i = some e → Inserted (.walked m.regs phys va :: history) m.paBits e :=
    fun hkept => (hm.inserted i e hkept).later fun _ _ _ _ hcovers => hcovers
  obtain ⟨-, hsame | ⟨new, -, hinsert, henabled, hi, t, hselect, hwalk, hnew⟩⟩ :=
    translateChecked_tlb m phys va access el aligned
  · rw [hsame] at hentry
    exact hold hentry
  · rw [hinsert, Tlb.entries_insert] at hentry
    split_ifs at hentry
    · cases hentry
      exact Inserted.now henabled hselect hwalk hnew
    · exact hold hentry

theorem translate (phys : Phys) (va : Word) (access : Access) (el : ℕ) (aligned : Bool) :
    Traced (.walked m.regs phys va :: history)
      (m.translateChecked phys va access el aligned).2 := by
  refine ⟨hm.backed.translateChecked phys va access el aligned, fun i e hentry => ?_⟩
  have hbits : (m.translateChecked phys va access el aligned).2.paBits = m.paBits := by
    rw [(translateChecked_tlb m phys va access el aligned).1]
  rw [hbits]
  exact hm.inserted_translateChecked phys va access el aligned hentry

theorem access (regs : MmuRegs) (phys : Phys) (va : Word) (access : Access) (el : ℕ)
    (aligned : Bool) :
    Traced (.walked regs phys va :: history)
      (m.translatePaWith regs phys va access el aligned).2 := by
  refine ⟨hm.backed.translatePaWith phys va access el aligned regs, fun i e hentry => ?_⟩
  rw [translatePaWith_paBits]
  rw [(hm.backed.translatePaWith_eq phys va access el aligned regs).2] at hentry
  have hset : Traced history { m with regs } := ⟨hm.backed.setRegs regs, hm.inserted⟩
  exact hset.inserted_translateChecked phys va access el aligned hentry

theorem tlbi (op : TlbiOp) (xt : Word) : Traced (.tlbi op xt :: history) (m.tlbi op xt) := by
  refine ⟨hm.backed.tlbi op xt, fun i e hentry => ?_⟩
  obtain ⟨hkept, hfree⟩ := (entries_tlbi m.tlb op xt i e).mp hentry
  refine (hm.inserted i e hkept).later ?_
  rintro key t hnew ⟨leaf, regs, va, hrest, rfl⟩ hcovers
  exact hfree ((coveredBy_iff hrest hnew op xt).mpr hcovers)

omit hm in
theorem restore {saved : List Deed} {m' : Mmu} (hm' : Traced saved m')
    (hbits : m.paBits = m'.paBits) : Traced saved (m.restore m'.save).2 := by
  have haccepted := fun i e hentry => (hm'.inserted i e hentry).accepts
  have hsound : m'.save.Sound m.paBits := ⟨hbits.symm, Tlb.save_sound haccepted hm'.backed.paged⟩
  refine ⟨Backed.restore hsound, fun i e hentry => ?_⟩
  have hread : (m.restore m'.save).2.tlb.entries = m'.tlb.entries := by
    have hsave : m'.save.tlb = m'.tlb.save := rfl
    rw [restore_entries hsound, hsave, restoreEntries_save haccepted]
  have hkept : (m.restore m'.save).2.paBits = m'.paBits := by
    rw [restore_eq hsound]
    exact hbits
  rw [hkept]
  rw [hread] at hentry
  exact hm'.inserted i e hentry

end Traced

theorem Run.traced {m : Mmu} (hrun : Run history m) : Traced history m := by
  induction hrun with
  | new paBits hge hle => exact ⟨Backed.new hge hle, (by rintro _ _ ⟨⟩)⟩
  | setRegs _ regs ih => exact ⟨ih.backed.setRegs regs, ih.inserted⟩
  | translate _ phys va access el aligned ih => exact ih.translate phys va access el aligned
  | access _ regs phys va access el aligned ih =>
    exact ih.access regs phys va access el aligned
  | tlbi _ op xt ih => exact ih.tlbi op xt
  | flushAll _ ih => exact ⟨ih.backed.flushAll, (by rintro _ _ ⟨⟩)⟩
  | restore _ _ hbits _ ih' => exact Traced.restore ih' hbits

/-! ## The TLB agrees with the walk -/

/-- The same fault, or the same translation; the ASID of a global entry may be that of an
earlier walk. -/
def SameResult : Except Fault Translation → Except Fault Translation → Prop
  | .error fault, .error fault' => fault = fault'
  | .ok t, .ok w => t = { w with asid := t.asid } ∧ (t.ng = true → t.asid = w.asid)
  | _, _ => False

theorem SameResult.refl (result : Except Fault Translation) : SameResult result result := by
  cases result with
  | error fault => rfl
  | ok t => exact ⟨rfl, fun _ => rfl⟩

/-- A hit gives the translation of a walk. -/
theorem translation_of_hit {m : Mmu} (hm : Traced history m)
    (hmaintained : Maintained history m.paBits m.regs phys) (hselect : select m.regs va = .ok hi)
    (hlookup : m.tlb.lookup (va &&& vaMask) m.regs.asid = some e) :
    ∃ w, walkTables m.regs m.paBits phys va hi = .ok w ∧
      e.translation (va &&& vaMask) m.regs = { w with asid := e.asid } ∧
      (e.global = false → e.asid = w.asid) := by
  obtain ⟨hentry, happlies⟩ := filter_eq_some_iff.mp hlookup
  rw [Tlb.applies, Bool.and_eq_true, Bool.or_eq_true, decide_eq_true_iff] at happlies
  obtain ⟨regs, phys₀, va₀, hi₀, t, later, hlooked, hnew, hfree⟩ := hm.inserted _ e hentry
  obtain ⟨leaf, hleaf, hrest, -, -, rfl⟩ := walkTables_eq_ok.mp hlooked.walk
  obtain ⟨hdiv, htranslation⟩ := TlbEntry.translation_leaf (hrest.trans (by decide)) hnew
    happlies.1 m.regs
  have hglobal : e.global = !(leaf.translation regs va₀).ng := by
    obtain rfl := some.inj hnew
    rfl
  have hasid : e.asid = regs.asid := by
    obtain rfl := some.inj hnew
    rfl
  -- the block of the earlier walk, with the address of this one
  have hagree : AgreeOn (bottom leaf.rest) 47 va₀ va := by
    intro i hlo hhi
    have hkey := agreeOn_of_div hdiv.symm 47 i hlo hhi
    rw [vaMask_eq, getLsbD_and, getLsbD_and, getLsbD_low (by decide),
      decide_eq_true (show i < 56 by omega), Bool.and_true, Bool.and_true] at hkey
    exact hkey
  have hthen := walkTables_block m.paBits_ge hleaf hlooked.walk hagree
  have hnow := hmaintained regs phys₀ va₀ hi₀ _ later hlooked hfree (by
    rcases happlies.2 with hall | hsame
    · rw [hglobal] at hall
      exact .inl (by simpa using hall)
    · exact .inr (hasid.symm.trans hsame)) va hi ((inBlock_iff hrest _ _ _ _).mpr hdiv) hselect
  rw [hthen] at hnow
  cases hwalk : walkTables m.regs m.paBits phys va hi with
  | error kind =>
    rw [hwalk] at hnow
    cases hnow
  | ok w =>
    obtain ⟨leaf', -, -, -, -, rfl⟩ := walkTables_eq_ok.mp hwalk
    rw [hwalk] at hnow
    have hcore := Except.ok.inj hnow
    simp only [Translation.core, Leaf.translation, Translation.mk.injEq] at hcore
    refine ⟨_, rfl, ?_, fun hlocal => ?_⟩
    · rw [htranslation, Leaf.translation_key (hrest.trans (by decide)), ← hasid]
      simp only [Leaf.translation, Translation.mk.injEq]
      grind
    · have hcurrent : e.asid = m.regs.asid := by
        rw [hlocal] at happlies
        simpa using happlies.2
      exact hcurrent

/-- The checks of an aligned access are those of a walk. -/
theorem checked_aligned (regs : MmuRegs) (t : Translation) (va : Word) (access : Access) (el : ℕ) :
    Mmu.checked regs t va access el true =
      match check regs t access el with
      | .error kind => .error ⟨kind, va, access, el⟩
      | .ok () => .ok t := rfl

/-- In every run that is maintained, translation through the TLB gives what a walk of the
present tables gives; and a TLBI leaves no entry that it covers. -/
theorem translate_eq_walk {history : List Deed} {m : Mmu} (hrun : Run history m) {phys : Phys}
    (hmaintained : Maintained history m.paBits m.regs phys) (va : Word) (access : Access) (el : ℕ) :
    SameResult (m.translate phys va access el).1 (m.walk phys va access el) ∧
      ∀ op xt i e, (m.tlbi op xt).tlb.entries i = some e → ¬e.CoveredBy op xt := by
  refine ⟨?_, fun op xt i e hentry => ((entries_tlbi m.tlb op xt i e).mp hentry).2⟩
  rw [Mmu.translate, Mmu.translateChecked, Mmu.walk]
  split_ifs with henabled
  · cases mmuOff m.regs m.paBits va access el with
    | error fault => exact SameResult.refl _
    | ok t => exact SameResult.refl (.ok t)
  · cases hselect : select m.regs va with
    | error kind => exact SameResult.refl _
    | ok hi =>
      cases hlookup : m.tlb.lookup (va &&& vaMask) m.regs.asid with
      | some e =>
        obtain ⟨w, hwalk, htranslation, hasid⟩ :=
          translation_of_hit hrun.traced hmaintained hselect hlookup
        have hng : w.ng = !e.global := (congrArg Translation.ng htranslation).symm
        dsimp only
        rw [hwalk, htranslation, checked_aligned]
        change SameResult (match check m.regs w access el with
          | .error kind => _
          | .ok () => _) _
        dsimp only
        cases check m.regs w access el with
        | error kind => exact SameResult.refl _
        | ok _ => exact ⟨rfl, fun hlocal => hasid (by simpa [hng] using hlocal)⟩
      | none =>
        dsimp only
        rw [Mmu.walkAndInsert]
        cases walkTables m.regs m.paBits phys va hi with
        | error kind => exact SameResult.refl _
        | ok t =>
          dsimp only
          cases TlbEntry.new (va &&& vaMask) t with
          | none => exact SameResult.refl _
          | some e => exact SameResult.refl _

/-- The half of an address is bit 55. -/
theorem getLsbD_of_select (hselect : select regs va = .ok hi) : va.getLsbD 55 = hi := by
  have htop : 55 ≤ regs.addrTop va ∧ regs.addrTop va < 64 := by
    rw [MmuRegs.addrTop]
    split_ifs <;> decide
  have hbit : ∀ half, (va &&& bits (regs.addrTop va) (regs.inputSize half)).getLsbD 55 =
      va.getLsbD 55 ∧ (bits (regs.addrTop va) (regs.inputSize half)).getLsbD 55 = true := by
    intro half
    have hsize := regs.inputSize_bounds half
    have hset : (bits (regs.addrTop va) (regs.inputSize half)).getLsbD 55 = true := by
      rw [getLsbD_bits htop.2 (by omega), decide_eq_true_iff]
      omega
    rw [getLsbD_and, hset, Bool.and_true]
    exact ⟨rfl, rfl⟩
  rw [select] at hselect
  generalize (decide (va >>> regs.addrTop va &&& 1 ≠ 0)) = half at hselect
  obtain ⟨hva, hset⟩ := hbit half
  cases half with
  | false =>
    simp only [Bool.false_eq_true, if_false] at hselect
    split_ifs at hselect with hzero
    cases hselect
    rw [← hva, of_decide_eq_true hzero]
    rfl
  | true =>
    simp only [if_true] at hselect
    split_ifs at hselect with hall
    cases hselect
    rw [← hva, of_decide_eq_true hall, hset]

/-- Nothing has changed since the accesses of the history. -/
theorem maintained_of_unchanged {paBits : ℕ}
    (hsame : ∀ deed ∈ history, ∃ va, deed = .walked regs phys va) :
    Maintained history paBits regs phys := by
  intro regs₀ phys₀ va₀ hi₀ t₀ later hlooked _ _ va hi hin hselect
  obtain ⟨earlier, hhistory⟩ := hlooked.deed
  obtain ⟨va', heq⟩ := hsame (.walked regs₀ phys₀ va₀) (by simp [hhistory])
  obtain ⟨rfl, rfl, rfl⟩ := Deed.walked.inj heq
  obtain ⟨leaf, -, hrest, -, -, rfl⟩ := walkTables_eq_ok.mp hlooked.walk
  have hdiv := (inBlock_iff hrest _ _ _ _).mp hin
  have hbit := agreeOn_of_div hdiv 55 55 (by rw [bottom]; omega) (le_refl _)
  have hhalf : hi = hi₀ := by
    rw [vaMask_eq, getLsbD_and, getLsbD_and, getLsbD_of_select hselect,
      getLsbD_of_select hlooked.select, getLsbD_low (by decide)] at hbit
    simpa using hbit
  rw [hhalf]

/-- A block of 1 GiB in the first entry of the first table,
  used at one page and then at another of the same slot. -/
theorem translate_eq_walk_block :
    let regs : MmuRegs := ⟨1, 25, 0, 0, 0xff⟩
    let phys : Phys := fun _ => .ok 0x40000401
    let m := (Mmu.translateChecked { Mmu.new 40 (by decide) (by decide) with regs } phys 0x1000
      .read 1 true).2
    SameResult (m.translate phys 0x201008 .read 1).1 (m.walk phys 0x201008 .read 1) := by
  intro regs phys m
  have hregs : m.regs = regs :=
    congrArg (·.2.regs) (translateChecked_tlb _ phys 0x1000 .read 1 true).1
  have hmaintained : Maintained [.walked regs phys 0x1000] m.paBits m.regs phys := by
    rw [hregs]
    exact maintained_of_unchanged fun deed hdeed => ⟨0x1000, mem_singleton.mp hdeed⟩
  exact (translate_eq_walk (.translate (.setRegs (.new 40 (by decide) (by decide)) regs) phys
    0x1000 .read 1 true) hmaintained 0x201008 .read 1).1

end Vetro.Paging
