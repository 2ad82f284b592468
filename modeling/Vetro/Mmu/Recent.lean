import Vetro.Mmu.Translate

/-!
# The cache of recent translations

A hit skips the TLB and the checks.  A recent entry counts only while its slot
of the TLB and the registers are as they were, and then the full path finds the
same entry and gives the same answer.  Entries that come from a snapshot must be
pages for that: the cache knows no smaller blocks.
-/

namespace Vetro.Paging

open Mask List Option BitVec

/-! ## Pages -/

/-- Whole pages to whole pages. -/
structure TlbEntry.Paged (e : TlbEntry) : Prop where
  size : e.size.toNat % 4096 = 0
  vaBase : e.vaBase.toNat % 4096 = 0
  paBase : e.paBase.toNat % 4096 = 0

theorem vaMask_eq : vaMask = low 56 := rfl

theorem toNat_key (va : Word) : (va &&& vaMask).toNat = va.toNat % 2 ^ 56 := by
  rw [vaMask_eq, toNat_and_low (by decide)]

theorem toNat_page (va : Word) : (va / pageSize).toNat = va.toNat / 4096 := rfl

/-- Two addresses of one page. -/
def SamePage (va va' : Word) : Prop := va.toNat / 4096 = va'.toNat / 4096

variable {va va' : Word}

theorem samePage_of_eq (heq : va / pageSize = va' / pageSize) :
    SamePage va va' := by
  have hnat := congrArg BitVec.toNat heq
  rwa [toNat_page, toNat_page] at hnat

theorem SamePage.key (hpage : SamePage va va') :
    (va &&& vaMask).toNat / 4096 = (va' &&& vaMask).toNat / 4096 := by
  rw [SamePage] at hpage
  rw [toNat_key, toNat_key]
  omega

theorem SamePage.select (hpage : SamePage va va') (regs : MmuRegs) :
    select regs va = select regs va' := by
  have hagree : AgreeOn 12 63 va va' := agreeOn_of_div (n := 12) hpage 63
  have htop : regs.addrTop va = regs.addrTop va' := by
    rw [MmuRegs.addrTop, MmuRegs.addrTop, hagree.ushiftRight (by decide)]
  have hlarge : 12 ≤ regs.addrTop va' ∧ regs.addrTop va' < 64 := by
    rw [MmuRegs.addrTop]
    split_ifs <;> decide
  have hfield : ∀ hi, va &&& bits (regs.addrTop va') (regs.inputSize hi) =
      va' &&& bits (regs.addrTop va') (regs.inputSize hi) := by
    intro hi
    have hsize := regs.inputSize_bounds hi
    exact (hagree.mono (by omega) (by omega)).and_bits (by omega) hlarge.2
  rw [Paging.select, Paging.select, htop, hagree.ushiftRight hlarge.1, hfield]

theorem mul_add_mod (a : ℕ) {r : ℕ} (hr : r < 4096) :
    (4096 * a + r) % 2 ^ 64 = 4096 * (a % 2 ^ 52) + r := by
  omega

/-- Differences from the start of a page. -/
theorem toNat_sub_aligned {b : Word} (hb : b.toNat % 4096 = 0) (x : Word) : (x - b).toNat =
    4096 * ((2 ^ 52 - b.toNat / 4096 + x.toNat / 4096) % 2 ^ 52) + x.toNat % 4096 := by
  rw [toNat_sub, ← mul_add_mod _ (Nat.mod_lt _ (by decide))]
  congr 1
  omega

theorem toNat_add_aligned {p : Word} (hp : p.toNat % 4096 = 0) (y : Word) : (p + y).toNat =
    4096 * ((p.toNat / 4096 + y.toNat / 4096) % 2 ^ 52) + y.toNat % 4096 := by
  rw [toNat_add, ← mul_add_mod _ (Nat.mod_lt _ (by decide))]
  congr 1
  omega

variable {e : TlbEntry}

/-- An entry of whole pages contains all of a page or nothing of it. -/
theorem TlbEntry.Paged.contains (hpaged : e.Paged) {key key' : Word}
    (hpage : key.toNat / 4096 = key'.toNat / 4096) : e.contains key = e.contains key' := by
  have hsize := hpaged.size
  rw [TlbEntry.contains, TlbEntry.contains, Bool.eq_iff_iff, decide_eq_true_iff,
    decide_eq_true_iff, lt_def, lt_def, toNat_sub_aligned hpaged.vaBase,
    toNat_sub_aligned hpaged.vaBase, hpage]
  omega

/-- An entry of whole pages keeps the offset in the page. -/
theorem TlbEntry.Paged.pa (hpaged : e.Paged) {key key' : Word}
    (hpage : key.toNat / 4096 = key'.toNat / 4096) :
    (e.paBase + (key' - e.vaBase)).toNat / 4096 = (e.paBase + (key - e.vaBase)).toNat / 4096 ∧
      (e.paBase + (key' - e.vaBase)).toNat % 4096 = key'.toNat % 4096 := by
  have hoffset : ∀ x : Word, (x - e.vaBase).toNat / 4096 =
      (2 ^ 52 - e.vaBase.toNat / 4096 + x.toNat / 4096) % 2 ^ 52 ∧
      (x - e.vaBase).toNat % 4096 = x.toNat % 4096 := by
    intro x
    rw [toNat_sub_aligned hpaged.vaBase]
    omega
  rw [toNat_add_aligned hpaged.paBase, toNat_add_aligned hpaged.paBase, (hoffset key).1,
    (hoffset key').1, (hoffset key').2, hpage]
  omega

/-! ## The full path -/

section Full

variable {m : Mmu} {phys : Phys} {va : Word} {access : Access} {el : ℕ} {aligned : Bool}

theorem Leaf.pa_key {leaf : Leaf} (hrest : leaf.rest ≤ 3) (va : Word) :
    leaf.pa (va &&& vaMask) = leaf.pa va := by
  have hlow : va &&& vaMask &&& low (bottom leaf.rest) = va &&& low (bottom leaf.rest) := by
    have hbottom : bottom leaf.rest ≤ 39 := by
      rw [bottom]
      omega
    refine eq_of_getLsbD_eq fun i _ => ?_
    rw [vaMask_eq]
    simp only [getLsbD_and, getLsbD_low (show bottom leaf.rest < 64 by omega),
      getLsbD_low (show 56 < 64 by decide)]
    by_cases hi : i < bottom leaf.rest
    · simp [hi, show i < 56 by omega]
    · simp [hi]
  rw [Leaf.pa, Leaf.pa, hlow]

theorem Leaf.translation_key {leaf : Leaf} (hrest : leaf.rest ≤ 3) (regs : MmuRegs) (va : Word) :
    leaf.translation regs (va &&& vaMask) = leaf.translation regs va := by
  rw [Leaf.translation, Leaf.translation, Leaf.pa_key hrest]

theorem two_pow_bottom (rest : ℕ) (k : ℕ) : 2 ^ bottom rest * k % 4096 = 0 := by
  rw [bottom, Nat.pow_add, Nat.mul_comm (2 ^ (rest * 9)), Nat.mul_assoc]
  exact Nat.mul_mod_right 4096 _

/-- The entry for a walk: whole pages that apply to the address and give its translation. -/
theorem new_walkTables {hi : Bool} {t : Translation}
    (hwalk : walkTables m.regs m.paBits phys va hi = .ok t) :
    ∃ e, TlbEntry.new (va &&& vaMask) t = some e ∧ e.Paged ∧
      Tlb.applies e (va &&& vaMask) m.regs.asid = true ∧
      e.translation (va &&& vaMask) m.regs = t := by
  obtain ⟨leaf, -, hrest, -, -, rfl⟩ := walkTables_eq_ok.mp hwalk
  have hrest' : leaf.rest ≤ 3 := hrest.trans (by decide)
  have hn := bottom_lt hrest'
  obtain ⟨e, hnew⟩ : ∃ e, TlbEntry.new (va &&& vaMask) (leaf.translation m.regs va) = some e :=
    ⟨_, rfl⟩
  have hcontains : e.contains (va &&& vaMask) = true := by
    obtain rfl := some.inj hnew
    exact (TlbEntry.contains_iff hn rfl rfl _).mpr rfl
  obtain ⟨-, htranslation⟩ := TlbEntry.translation_leaf hrest' hnew hcontains m.regs
  refine ⟨e, hnew, ?_, ?_, ?_⟩
  · obtain rfl := some.inj hnew
    refine ⟨?_, ?_, ?_⟩
    · change ((1 : Word) <<< bottom leaf.rest).toNat % 4096 = 0
      rw [toNat_one_shiftLeft hn, ← Nat.mul_one (2 ^ bottom leaf.rest)]
      exact two_pow_bottom _ _
    · exact (congrArg (· % 4096) (toNat_and_not_low hn _)).trans (two_pow_bottom _ _)
    · exact (congrArg (· % 4096) (toNat_and_not_low hn _)).trans (two_pow_bottom _ _)
  · have hasid : e.asid = m.regs.asid := by
      obtain rfl := some.inj hnew
      rfl
    rw [Tlb.applies, hcontains, hasid]
    simp
  · rw [htranslation, Leaf.translation_key hrest']
    rfl

/-- What the full path leaves in the TLB: an entry of whole pages for the address, if there
was none, and nothing else. -/
theorem translateChecked_tlb (m : Mmu) (phys : Phys) (va : Word) (access : Access) (el : ℕ)
    (aligned : Bool) :
    m.translateChecked phys va access el aligned =
      ((m.translateChecked phys va access el aligned).1,
        { m with tlb := (m.translateChecked phys va access el aligned).2.tlb }) ∧
    ((m.translateChecked phys va access el aligned).2.tlb = m.tlb ∨
      ∃ e : TlbEntry, e.Paged ∧ (m.translateChecked phys va access el aligned).2.tlb =
        m.tlb.insert (va &&& vaMask) e ∧ m.regs.enabled = true ∧
        ∃ hi t, select m.regs va = .ok hi ∧ walkTables m.regs m.paBits phys va hi = .ok t ∧
          TlbEntry.new (va &&& vaMask) t = some e) := by
  rw [Mmu.translateChecked]
  split_ifs with henabled
  · exact ⟨rfl, .inl rfl⟩
  · split
    · exact ⟨rfl, .inl rfl⟩
    · rename_i hi hselect
      split
      · exact ⟨rfl, .inl rfl⟩
      · rw [Mmu.walkAndInsert]
        cases hwalk : walkTables m.regs m.paBits phys va hi with
        | error kind => exact ⟨rfl, .inl rfl⟩
        | ok t =>
          obtain ⟨e, hnew, hpaged, -⟩ := new_walkTables hwalk
          simp only [hnew, true_and]
          exact .inr ⟨e, hpaged, rfl, by simpa using henabled, hi, t, hselect, hwalk, hnew⟩

/-- A translation with the MMU on comes from the entry that is then in the TLB. -/
theorem translateChecked_ok (henabled : m.regs.enabled = true) {t : Translation}
    (hok : (m.translateChecked phys va access el aligned).1 = .ok t) :
    (∃ hi, select m.regs va = .ok hi) ∧
      ∃ e, (m.translateChecked phys va access el aligned).2.tlb.entries
          (Tlb.slot (va &&& vaMask)) = some e ∧
        Tlb.applies e (va &&& vaMask) m.regs.asid = true ∧
        t = e.translation (va &&& vaMask) m.regs := by
  have hchecked : ∀ t', Mmu.checked m.regs t' va access el aligned = .ok t → t' = t := by
    intro t' hcheck
    rw [Mmu.checked] at hcheck
    split at hcheck
    · cases hcheck
    · split at hcheck
      · cases hcheck
      · exact Except.ok.inj hcheck
  rw [Mmu.translateChecked, if_neg (by rw [henabled]; decide)] at hok ⊢
  split at hok
  · cases hok
  · rename_i hi hselect
    refine ⟨⟨hi, hselect⟩, ?_⟩
    split at hok
    · rename_i e hlookup
      obtain ⟨hentry, happlies⟩ := filter_eq_some_iff.mp hlookup
      exact ⟨e, hentry, happlies, (hchecked _ hok).symm⟩
    · rw [Mmu.walkAndInsert] at hok ⊢
      cases hwalk : walkTables m.regs m.paBits phys va hi with
      | error kind =>
        rw [hwalk] at hok
        cases hok
      | ok t' =>
        obtain ⟨e, hnew, -, happlies, htranslation⟩ := new_walkTables hwalk
        simp only [hwalk, hnew] at hok ⊢
        refine ⟨e, ?_, happlies, ?_⟩
        · simp [Tlb.insert]
        · rw [htranslation, hchecked _ hok]

end Full

/-! ## Recent entries are backed by the TLB -/

/-- What a recent entry stands for. -/
structure Backs (regs : MmuRegs) (entry : Option TlbEntry) (r : Recent) (e : TlbEntry) : Prop where
  enabled : regs.enabled = true
  entry : entry = some e
  perms : e.perms = r.perms
  device : r.device = decide (regs.mairAttr e.attrIndex &&& 0xf0 = 0)
  applies : ∀ va, va / pageSize = r.vpage → Tlb.applies e (va &&& vaMask) regs.asid = true
  select : ∀ va, va / pageSize = r.vpage → ∃ hi, Paging.select regs va = .ok hi
  pa : ∀ va, va / pageSize = r.vpage →
    e.paBase + ((va &&& vaMask) - e.vaBase) = r.paPage ||| (va &&& (pageSize - 1))

/-- Every recent entry that counts is backed by its slot of the TLB. -/
structure Backed (m : Mmu) : Prop where
  epoch_pos : 0 < m.recentEpoch
  epochs : ∀ i, (m.recent i).epoch ≤ m.recentEpoch
  gens : ∀ i, (m.recent i).tlbGen ≤ m.tlb.gens i
  paged : ∀ i e, m.tlb.entries i = some e → e.Paged
  backs : ∀ i, (m.recent i).epoch = m.recentEpoch → (m.recent i).tlbGen = m.tlb.gens i →
    ∃ e, Backs m.recentRegs (m.tlb.entries i) (m.recent i) e

variable {m : Mmu}

namespace Backed

variable {m : Mmu}

theorem new {paBits : ℕ} (hge : 32 ≤ paBits) (hle : paBits ≤ 48) :
    Backed (Mmu.new paBits hge hle) := by
  refine ⟨Nat.one_pos, fun _ => Nat.zero_le _, fun _ => Nat.zero_le _, (by rintro _ _ ⟨⟩),
    fun i hepoch => ?_⟩
  cases hepoch

variable (hm : Backed m)
include hm

/-- The slots of the TLB change only with their generations. -/
theorem tlb {tlb : Tlb} (hgens : ∀ i, m.tlb.gens i ≤ tlb.gens i)
    (hpaged : ∀ i e, tlb.entries i = some e → e.Paged)
    (hsame : ∀ i, tlb.gens i = m.tlb.gens i → tlb.entries i = m.tlb.entries i) :
    Backed { m with tlb } := by
  refine ⟨hm.epoch_pos, hm.epochs, fun i => (hm.gens i).trans (hgens i), hpaged,
    fun i hepoch hgen => ?_⟩
  have hkept : tlb.gens i = m.tlb.gens i := by
    have hold := hm.gens i
    have hnew := hgens i
    change (m.recent i).tlbGen = tlb.gens i at hgen
    omega
  obtain ⟨e, hbacks⟩ := hm.backs i hepoch (hgen.trans hkept)
  refine ⟨e, ?_⟩
  rw [hsame i hkept]
  exact hbacks

theorem insert (key : Word) (hpaged : e.Paged) : Backed { m with tlb := m.tlb.insert key e } := by
  refine hm.tlb (fun i => ?_) (fun i e' hentry => ?_) fun i hgen => ?_
  · rw [Tlb.gens_insert]
    split_ifs with hi
    · rw [hi]
      exact Nat.le_succ _
    · exact le_refl _
  · rw [Tlb.entries_insert] at hentry
    split_ifs at hentry
    · exact some.inj hentry ▸ hpaged
    · exact hm.paged i e' hentry
  · rw [Tlb.gens_insert] at hgen
    rw [Tlb.entries_insert]
    split_ifs at hgen ⊢ with hi
    · rw [hi] at hgen
      omega
    · rfl

theorem removeIf (pred : TlbEntry → Bool) : Backed { m with tlb := m.tlb.removeIf pred } := by
  refine hm.tlb (fun i => ?_) (fun i e hentry => ?_) fun i hgen => ?_
  · rw [Tlb.removeIf]
    dsimp only
    split_ifs <;> omega
  · exact hm.paged i e (filter_eq_some_iff.mp hentry).1
  · rw [Tlb.removeIf] at hgen ⊢
    dsimp only at hgen ⊢
    split_ifs at hgen with hany
    · omega
    · cases hentry : m.tlb.entries i with
      | none => rfl
      | some e =>
        rw [hentry, any_some, Bool.not_eq_true] at hany
        simp [Option.filter, hany]

theorem note (inval : Inval) : Backed { m with tlb := m.tlb.note inval } :=
  hm.tlb (fun _ => le_refl _) hm.paged fun _ _ => rfl

theorem flushAll : Backed m.flushAll :=
  hm.tlb (fun _ => Nat.le_succ _) (by rintro _ _ ⟨⟩) fun i hgen => absurd hgen (Nat.succ_ne_self _)

theorem tlbi (op : TlbiOp) (xt : Word) : Backed (m.tlbi op xt) := by
  have hnoted := fun inval => hm.note inval
  cases op with
  | vmalle1 | vmalle1is => exact (hnoted _).flushAll
  | _ => exact (hnoted _).removeIf _

/-- A new epoch has no recent entries yet. -/
theorem syncRecent (regs : MmuRegs) : Backed (m.syncRecent regs) := by
  rw [Mmu.syncRecent]
  split_ifs
  · exact hm
  · refine ⟨Nat.succ_pos _, fun i => (hm.epochs i).trans (Nat.le_succ _), hm.gens, hm.paged,
      fun i hepoch => ?_⟩
    have hold := hm.epochs i
    change (m.recent i).epoch = m.recentEpoch + 1 at hepoch
    omega

theorem setRegs (regs : MmuRegs) : Backed { m with regs } :=
  ⟨hm.epoch_pos, hm.epochs, hm.gens, hm.paged, hm.backs⟩

theorem translateChecked (phys : Phys) (va : Word) (access : Access) (el : ℕ) (aligned : Bool) :
    Backed (m.translateChecked phys va access el aligned).2 := by
  obtain ⟨hframe, hsame | ⟨e, hpaged, hinsert, -⟩⟩ :=
    translateChecked_tlb m phys va access el aligned
  · rw [hframe, hsame]
    exact hm
  · rw [hframe, hinsert]
    exact hm.insert _ hpaged

/-- A recent entry in its slot. -/
theorem fill {i : Slot} {r : Recent} (hepoch : r.epoch ≤ m.recentEpoch)
    (hgen : r.tlbGen ≤ m.tlb.gens i) (hbacks : Backs m.recentRegs (m.tlb.entries i) r e) :
    Backed { m with recent := Function.update m.recent i r } := by
  refine ⟨hm.epoch_pos, fun j => ?_, fun j => ?_, hm.paged, fun j => ?_⟩ <;> dsimp only <;>
    rw [Function.update_apply] <;> split_ifs with hj
  · exact hepoch
  · exact hm.epochs j
  · rw [hj]
    exact hgen
  · exact hm.gens j
  · rw [hj]
    exact fun _ _ => ⟨e, hbacks⟩
  · exact hm.backs j

omit hm in
/-- The entry that the full path has used backs a recent entry for its page. -/
theorem backs_of_applies {regs : MmuRegs} {va : Word} {epoch gen : ℕ} {hi : Bool}
    (henabled : regs.enabled = true) (hpaged : e.Paged)
    (happlies : Tlb.applies e (va &&& vaMask) regs.asid = true)
    (hselect : Paging.select regs va = .ok hi) :
    Backs regs (some e) {
      vpage := va / pageSize
      paPage := (e.translation (va &&& vaMask) regs).pa &&& ~~~(pageSize - 1)
      perms := e.perms
      device := (e.translation (va &&& vaMask) regs).mairAttr &&& 0xf0 = 0
      epoch := epoch
      tlbGen := gen } e := by
  refine ⟨henabled, rfl, rfl, rfl, fun va' hpage => ?_, fun va' hpage => ⟨hi, ?_⟩,
    fun va' hpage => ?_⟩
  · have hkey := (samePage_of_eq hpage).key
    rw [Tlb.applies] at happlies ⊢
    rw [hpaged.contains hkey]
    exact happlies
  · rw [(samePage_of_eq hpage).select]
    exact hselect
  · have hkey := (samePage_of_eq hpage).key
    obtain ⟨hdiv, hmod⟩ := hpaged.pa hkey.symm
    refine (and_not_low_or_and_low (n := 12) (by decide) hdiv ?_).symm
    refine hmod.trans ?_
    rw [toNat_key]
    omega

section

variable (hregs : m.regs = m.recentRegs)
include hregs

variable (phys : Phys) (va : Word) (access : Access) (el : ℕ) (aligned : Bool)

/-- The full path fills the slot with an entry that is backed. -/
theorem translateFill :
    Backed (m.translateFill phys va access el aligned (Tlb.slot (va &&& vaMask))).2 := by
  have hfull := hm.translateChecked phys va access el aligned
  obtain ⟨hframe, -⟩ := translateChecked_tlb m phys va access el aligned
  have hregs' : (m.translateChecked phys va access el aligned).2.regs = m.regs := by
    rw [hframe]
  have hrecent' : (m.translateChecked phys va access el aligned).2.recentRegs = m.regs := by
    rw [hframe]
    exact hregs.symm
  rw [Mmu.translateFill]
  cases hresult : (m.translateChecked phys va access el aligned).1 with
  | error fault => exact hfull
  | ok t =>
    cases henabled : (m.translateChecked phys va access el aligned).2.regs.enabled with
    | false => exact hfull
    | true =>
      rw [hregs'] at henabled
      obtain ⟨⟨hi, hselect⟩, e, hentry, happlies, rfl⟩ := translateChecked_ok henabled hresult
      refine hfull.fill (le_refl _) (le_refl _) (e := e) ?_
      rw [hentry, hrecent']
      exact backs_of_applies henabled (hfull.paged _ e hentry) happlies hselect

theorem translateRecent : Backed (m.translateRecent phys va access el aligned).2 := by
  rw [Mmu.translateRecent]
  split_ifs
  · exact hm
  · exact hm.translateFill hregs phys va access el aligned

/-! ## A hit gives what the full path gives -/

theorem translateChecked_of_hit
    (hhit : m.recentHit va access el aligned (Tlb.slot (va &&& vaMask)) = true) :
    ∃ t, m.translateChecked phys va access el aligned = (.ok t, m) ∧
      t.pa = (m.recent (Tlb.slot (va &&& vaMask))).paPage ||| (va &&& (pageSize - 1)) := by
  rw [Mmu.recentHit] at hhit
  simp only [Bool.and_eq_true, decide_eq_true_eq] at hhit
  obtain ⟨⟨⟨⟨hpage, hepoch⟩, hgen⟩, haligned⟩, hallowed⟩ := hhit
  obtain ⟨e, hbacks⟩ := hm.backs _ hepoch hgen
  rw [← hregs] at hbacks hallowed
  obtain ⟨hi, hselect⟩ := hbacks.select va hpage.symm
  have hlookup : m.tlb.lookup (va &&& vaMask) m.regs.asid = some e :=
    filter_eq_some_iff.mpr ⟨hbacks.entry, hbacks.applies va hpage.symm⟩
  have hchecked : Mmu.checked m.regs (e.translation (va &&& vaMask) m.regs) va access el aligned =
      .ok (e.translation (va &&& vaMask) m.regs) := by
    have hdevice : checkDeviceAlignment (e.translation (va &&& vaMask) m.regs) access aligned =
        .ok () := by
      have hattr := hbacks.device
      rw [checkDeviceAlignment, if_neg]
      simp only [Bool.and_eq_true, Bool.not_eq_true', decide_eq_true_eq]
      rintro ⟨⟨hnot, hdata⟩, hzero⟩
      have hdev : (m.recent (Tlb.slot (va &&& vaMask))).device = true := by
        rw [hattr]
        exact decide_eq_true hzero
      rw [hnot, hdev] at haligned
      simp [hdata] at haligned
    have hcheck : check m.regs (e.translation (va &&& vaMask) m.regs) access el = .ok () := by
      have hperms := hbacks.perms
      rw [← hperms] at hallowed
      exact if_pos hallowed
    rw [Mmu.checked, hdevice]
    rw [hcheck]
  refine ⟨e.translation (va &&& vaMask) m.regs, ?_, hbacks.pa va hpage.symm⟩
  rw [Mmu.translateChecked, if_neg (by rw [hbacks.enabled]; decide), hselect]
  rw [hlookup]
  dsimp only
  rw [hchecked]

omit hregs in
omit hm in
theorem translateFill_eq (i : Slot) :
    (m.translateFill phys va access el aligned i).1 =
        (m.translateChecked phys va access el aligned).1.map Translation.pa ∧
      (m.translateFill phys va access el aligned i).2.tlb =
        (m.translateChecked phys va access el aligned).2.tlb := by
  rw [Mmu.translateFill]
  cases (m.translateChecked phys va access el aligned).1 with
  | error fault => exact ⟨rfl, rfl⟩
  | ok t =>
    dsimp only
    refine ⟨rfl, ?_⟩
    split <;> rfl

/-- With the registers in step, the cache is transparent. -/
theorem translateRecent_eq :
    (m.translateRecent phys va access el aligned).1 =
        (m.translateChecked phys va access el aligned).1.map Translation.pa ∧
      (m.translateRecent phys va access el aligned).2.tlb =
        (m.translateChecked phys va access el aligned).2.tlb := by
  rw [Mmu.translateRecent]
  split_ifs with hhit
  · rw [Bool.and_eq_true] at hhit
    obtain ⟨t, hfull, hpa⟩ := hm.translateChecked_of_hit hregs phys _ _ _ _ hhit.2
    rw [hfull, ← hpa]
    exact ⟨rfl, rfl⟩
  · exact translateFill_eq phys va access el aligned _

end

variable (phys : Phys) (va : Word)

omit hm in
theorem walkAndInsert_congr {m' : Mmu} (hregs : m.regs = m'.regs) (hbits : m.paBits = m'.paBits)
    (htlb : m.tlb = m'.tlb) (hi : Bool) :
    (m.walkAndInsert phys va hi).1 = (m'.walkAndInsert phys va hi).1 ∧
      (m.walkAndInsert phys va hi).2.tlb = (m'.walkAndInsert phys va hi).2.tlb := by
  have hwalk : walkTables m.regs m.paBits phys va hi =
      walkTables m'.regs m'.paBits phys va hi := by
    rw [hregs, hbits]
  rw [Mmu.walkAndInsert, Mmu.walkAndInsert, hwalk]
  split
  · exact ⟨rfl, htlb⟩
  · split
    · exact ⟨rfl, congrArg (Tlb.insert · _ _) htlb⟩
    · exact ⟨rfl, htlb⟩

variable (access : Access) (el : ℕ) (aligned : Bool)

omit hm in
/-- The full path does not look at the recent cache. -/
theorem translateChecked_congr (m m' : Mmu) (hregs : m.regs = m'.regs)
    (hbits : m.paBits = m'.paBits) (htlb : m.tlb = m'.tlb) :
    (m.translateChecked phys va access el aligned).1 =
        (m'.translateChecked phys va access el aligned).1 ∧
      (m.translateChecked phys va access el aligned).2.tlb =
        (m'.translateChecked phys va access el aligned).2.tlb := by
  rw [Mmu.translateChecked, Mmu.translateChecked, hregs, hbits, htlb]
  split_ifs
  · exact ⟨rfl, htlb⟩
  · split
    · exact ⟨rfl, htlb⟩
    · rename_i hi _
      split
      · exact ⟨rfl, htlb⟩
      · obtain ⟨hresult, hkept⟩ := walkAndInsert_congr phys va hregs hbits htlb hi
        dsimp only
        rw [hresult]
        split
        · exact ⟨rfl, hkept⟩
        · exact ⟨rfl, hkept⟩

omit hm in
/-- The registers of the cache are those of the access. -/
theorem syncRecent_regs (m : Mmu) (regs : MmuRegs) :
    (Mmu.syncRecent { m with regs } regs).regs = regs ∧
      (Mmu.syncRecent { m with regs } regs).recentRegs = regs ∧
      (Mmu.syncRecent { m with regs } regs).paBits = m.paBits ∧
      (Mmu.syncRecent { m with regs } regs).tlb = m.tlb := by
  rw [Mmu.syncRecent]
  split_ifs with hsame
  · exact ⟨rfl, ((MmuRegs.same_iff _ _).mp hsame).symm, rfl, rfl⟩
  · exact ⟨rfl, rfl, rfl, rfl⟩

theorem translatePaWith (regs : MmuRegs) :
    Backed (m.translatePaWith regs phys va access el aligned).2 := by
  obtain ⟨hregs, hrecent, -⟩ := syncRecent_regs m regs
  exact ((hm.setRegs regs).syncRecent regs).translateRecent (hregs.trans hrecent.symm) phys va
    access el aligned

theorem translatePaWith_eq (regs : MmuRegs) :
    (m.translatePaWith regs phys va access el aligned).1 =
        (Mmu.translateChecked { m with regs } phys va access el aligned).1.map Translation.pa ∧
      (m.translatePaWith regs phys va access el aligned).2.tlb =
        (Mmu.translateChecked { m with regs } phys va access el aligned).2.tlb := by
  obtain ⟨hregs, hrecent, hbits, htlb⟩ := syncRecent_regs m regs
  have hcongr := translateChecked_congr phys va access el aligned
    (Mmu.syncRecent { m with regs } regs) { m with regs } hregs hbits htlb
  rw [← hcongr.1, ← hcongr.2]
  exact ((hm.setRegs regs).syncRecent regs).translateRecent_eq (hregs.trans hrecent.symm) phys va
    access el aligned

end Backed

theorem translateRecent_paBits (m : Mmu) (phys : Phys) (va : Word) (access : Access) (el : ℕ)
    (aligned : Bool) : (m.translateRecent phys va access el aligned).2.paBits = m.paBits := by
  have hfull : (m.translateChecked phys va access el aligned).2.paBits = m.paBits := by
    rw [(translateChecked_tlb m phys va access el aligned).1]
  rw [Mmu.translateRecent]
  split_ifs
  · rfl
  · rw [Mmu.translateFill, ← hfull]
    split
    · rfl
    · split <;> rfl

theorem translatePaWith_paBits (m : Mmu) (regs : MmuRegs) (phys : Phys) (va : Word)
    (access : Access) (el : ℕ) (aligned : Bool) :
    (m.translatePaWith regs phys va access el aligned).2.paBits = m.paBits :=
  (translateRecent_paBits _ phys va access el aligned).trans (Backed.syncRecent_regs m regs).2.2.1

/-! ## Snapshots -/

/-- Entries that a snapshot of a running MMU has: accepted, in growing slots, of whole
pages. -/
structure SavedTlb.Sound (saved : SavedTlb) : Prop where
  count : saved.count ≤ 512
  complete : saved.count ≤ saved.records.length
  sorted : (saved.records.map Prod.fst).Pairwise (· < ·)
  slots : ∀ r ∈ saved.records, r.1 < 512
  accepted : ∀ r ∈ saved.records, Tlb.accepts r.2 = true
  paged : ∀ r ∈ saved.records, r.2.Paged

theorem restoreEntries_sound {records : List (ℕ × TlbEntry)} {n : ℕ}
    (entries : Slot → Option TlbEntry) (last : Option ℕ) (hn : n ≤ records.length)
    (hsorted : (records.map Prod.fst).Pairwise (· < ·)) (hslots : ∀ r ∈ records, r.1 < 512)
    (haccepted : ∀ r ∈ records, Tlb.accepts r.2 = true)
    (hlast : ∀ l ∈ last, ∀ r ∈ records, l < r.1) :
    (Tlb.restoreEntries entries last n records).1 = .ok () ∧
      ∀ j e, (Tlb.restoreEntries entries last n records).2 j = some e →
        entries j = some e ∨ ∃ r ∈ records, r.2 = e := by
  induction n generalizing records entries last with
  | zero => exact ⟨rfl, fun j e hentry => .inl hentry⟩
  | succ n ih =>
    cases records with
    | nil => cases hn
    | cons r records =>
      obtain ⟨i, e⟩ := r
      have hi : i < 512 := hslots _ mem_cons_self
      have hnot : ¬last.any (i ≤ ·) = true := by
        rw [Option.any_eq_true]
        rintro ⟨l, hl, hle⟩
        have hlt := hlast l hl _ mem_cons_self
        exact absurd (of_decide_eq_true hle) (Nat.not_le.mpr hlt)
      have hgood : ¬(!Tlb.accepts e) = true := by
        rw [haccepted _ mem_cons_self]
        decide
      rw [map_cons, pairwise_cons] at hsorted
      rw [Tlb.restoreEntries, dif_pos hi, if_neg hnot, if_neg hgood]
      have hnext : ∀ l ∈ some i, ∀ r ∈ records, l < r.1 := by
        rintro l hl r hr
        cases hl
        exact hsorted.1 _ (mem_map_of_mem hr)
      obtain ⟨hok, hfrom⟩ := ih (Function.update entries ⟨i, hi⟩ (some e)) (some i)
        (Nat.le_of_succ_le_succ hn) hsorted.2
        (fun r hr => hslots r (mem_cons_of_mem _ hr))
        (fun r hr => haccepted r (mem_cons_of_mem _ hr)) hnext
      refine ⟨hok, fun j e' hentry => ?_⟩
      rcases hfrom j e' hentry with hold | ⟨r, hr, heq⟩
      · rw [Function.update_apply] at hold
        split_ifs at hold
        · exact .inr ⟨_, mem_cons_self, some.inj hold⟩
        · exact .inl hold
      · exact .inr ⟨r, mem_cons_of_mem _ hr, heq⟩

/-- A sound snapshot of an MMU with these address bits. -/
structure SavedMmu.Sound (saved : SavedMmu) (paBits : ℕ) : Prop where
  paBits : saved.paBits = paBits
  tlb : saved.tlb.Sound

variable {saved : SavedMmu}

/-- A sound snapshot is accepted. -/
theorem restore_eq (hsound : saved.Sound m.paBits) :
    m.restore saved = (.ok (), { m with
      regs := saved.regs
      tlb := Tlb.note { m.tlb with
        entries := (Tlb.restoreEntries (fun _ => none) none saved.tlb.count saved.tlb.records).2
        gens := fun i => m.tlb.gens i + 1 } .all
      recent := fun _ => Recent.empty
      recentRegs := {}
      recentEpoch := m.recentEpoch + 1 }) := by
  have htlb := hsound.tlb
  obtain ⟨hok, -⟩ := restoreEntries_sound (fun _ => none) none htlb.complete htlb.sorted
    htlb.slots htlb.accepted (by simp)
  rw [Mmu.restore, if_neg (not_not.mpr hsound.paBits), Tlb.restore,
    if_neg (Nat.not_lt.mpr htlb.count)]
  dsimp only
  rw [hok]

theorem restore_entries (hsound : saved.Sound m.paBits) : (m.restore saved).2.tlb.entries =
      (Tlb.restoreEntries (fun _ => none) none saved.tlb.count saved.tlb.records).2 := by
  rw [restore_eq hsound]
  rfl

theorem Backed.restore (hsound : saved.Sound m.paBits) :
    Backed (m.restore saved).2 := by
  have htlb := hsound.tlb
  obtain ⟨-, hfrom⟩ := restoreEntries_sound (fun _ => none) none htlb.complete htlb.sorted
    htlb.slots htlb.accepted (by simp)
  rw [restore_eq hsound]
  refine ⟨Nat.succ_pos _, fun _ => Nat.zero_le _, fun _ => Nat.zero_le _, fun i e hentry => ?_,
    fun i hepoch => ?_⟩
  · rcases hfrom i e hentry with hnone | ⟨r, hr, rfl⟩
    · cases hnone
    · exact htlb.paged r hr
  · change 0 = m.recentEpoch + 1 at hepoch
    omega

/-! ## Runs -/

/-- What happens to an MMU: register changes, accesses with and without the recent cache
(each with the physical memory of its time), invalidations, restores. -/
inductive Op where
  | setRegs (regs : MmuRegs)
  | access (regs : MmuRegs) (phys : Phys) (va : Word) (access : Access) (el : ℕ) (aligned : Bool)
  | translate (phys : Phys) (va : Word) (access : Access) (el : ℕ) (aligned : Bool)
  | tlbi (op : TlbiOp) (xt : Word)
  | flushAll
  | restore (saved : SavedMmu)

def Mmu.step (m : Mmu) : Op → Mmu
  | .setRegs regs => { m with regs }
  | .access regs phys va access el aligned => (m.translatePaWith regs phys va access el aligned).2
  | .translate phys va access el aligned => (m.translateChecked phys va access el aligned).2
  | .tlbi op xt => m.tlbi op xt
  | .flushAll => m.flushAll
  | .restore saved => (m.restore saved).2

/-- The states that runs reach when every step meets `ok`. -/
inductive Mmu.Reached (ok : Mmu → Op → Prop) : Mmu → Prop where
  | new (paBits : ℕ) (hge : 32 ≤ paBits) (hle : paBits ≤ 48) :
      Mmu.Reached ok (Mmu.new paBits hge hle)
  | step {m : Mmu} (hreached : Mmu.Reached ok m) (op : Op) (hok : ok m op) :
      Mmu.Reached ok (m.step op)

/-- Snapshots that are restored are sound. -/
def RestoresSound (m : Mmu) (op : Op) : Prop :=
  ∀ saved, op = .restore saved → saved.Sound m.paBits

theorem Backed.reached (hreached : Mmu.Reached RestoresSound m) : Backed m := by
  induction hreached with
  | new paBits hge hle => exact Backed.new hge hle
  | step _ op hok ih =>
    cases op with
    | setRegs regs => exact ih.setRegs regs
    | access regs phys va access el aligned =>
      exact ih.translatePaWith phys va access el aligned regs
    | translate phys va access el aligned =>
      exact ih.translateChecked phys va access el aligned
    | tlbi op xt => exact ih.tlbi op xt
    | flushAll => exact ih.flushAll
    | restore saved => exact Backed.restore (hok saved rfl)

/-- In every run whose restores are sound, the recent cache changes neither the address or
the fault of an access nor the TLB. -/
theorem translatePaWith_transparent {m : Mmu} (hreached : Mmu.Reached RestoresSound m)
    (regs : MmuRegs) (phys : Phys) (va : Word) (access : Access) (el : ℕ) (aligned : Bool) :
    (m.translatePaWith regs phys va access el aligned).1 =
        (Mmu.translateChecked { m with regs } phys va access el aligned).1.map Translation.pa ∧
      (m.translatePaWith regs phys va access el aligned).2.tlb =
        (Mmu.translateChecked { m with regs } phys va access el aligned).2.tlb :=
  (Backed.reached hreached).translatePaWith_eq phys va access el aligned regs

/-- An access walks the tables and fills the cache.  The tables then change without an
invalidation, and the next access to the page hits the cache: it finds what the TLB still has. -/
theorem translatePaWith_transparent_hit :
    let regs : MmuRegs := ⟨1, 16, 0, 0, 0xff⟩
    let m := (Mmu.new 40 (by decide) (by decide)).step
      (.access regs (fun _ => .ok 0x5403) 0x1000 .read 1 true)
    m.recentHit 0x1008 .read 1 true (Tlb.slot (0x1008 &&& vaMask)) = true ∧
    (m.translatePaWith regs (fun _ => .ok 0) 0x1008 .read 1 true).1 = .ok 0x5008 ∧
    (Mmu.translateChecked { m with regs } (fun _ => .ok 0) 0x1008 .read 1 true).1.map
      Translation.pa = .ok 0x5008 := by
  intro regs m
  have hreached : Mmu.Reached RestoresSound m :=
    .step (.new 40 _ _) _ (by rintro saved ⟨⟩)
  have hsame := (translatePaWith_transparent hreached regs (fun _ => .ok 0) 0x1008 .read 1 true).1
  have hhit : (m.translatePaWith regs (fun _ => .ok 0) 0x1008 .read 1 true).1 = .ok 0x5008 := by
    decide +kernel
  exact ⟨by decide +kernel, hhit, hsame.symm.trans hhit⟩

/-- A snapshot with an entry of a single byte is accepted.  After an access to the byte the
cache answers for all of its page, and the full path does not. -/
theorem not_transparent_byte : ∃ m, Mmu.Reached (fun _ _ => True) m ∧
    ∃ (regs : MmuRegs) (phys : Phys) (va : Word),
      (m.translatePaWith regs phys va .read 1 true).1 ≠
        (Mmu.translateChecked { m with regs } phys va .read 1 true).1.map Translation.pa := by
  let regs : MmuRegs := ⟨1, 16, 0, 0, 0xff⟩
  let entry : TlbEntry := ⟨0, 1, 0x5000, 0, true, 3, ⟨0, true, true⟩, 0, 0⟩
  let saved : SavedMmu := ⟨40, regs, ⟨1, [(0, entry)]⟩⟩
  let phys : Phys := fun _ => .ok 0
  refine ⟨((Mmu.new 40 (by decide) (by decide)).step (.restore saved)).step
    (.access regs phys 0 .read 1 true), .step (.step (.new 40 _ _) _ trivial) _ trivial,
    regs, phys, 1, ?_⟩
  decide +kernel

end Vetro.Paging
