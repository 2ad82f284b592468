import Vetro.Mmu.Translate

/-!
# Virtual memory of the guest, read from outside

`vetro-analysis/src/introspect/mem.rs`: translation of virtual addresses through
the tables of the guest with a granule of 4 KiB, without TLB and without faults.
It finds the addresses that the walk of the MMU finds.
-/

namespace Vetro.Introspect

open Mask Paging BitVec

/-- The guest physical memory, as the descriptors of 8 bytes in RAM. -/
abbrev PhysMem := Word → Option Word

/-- Translation registers of the EL1&0 regime. -/
structure Space where
  tcr : Word := 0
  ttbr0 : Word := 0
  ttbr1 : Word := 0
  deriving Repr, DecidableEq

/-- Table address in a TTBR, without ASID or CnP. -/
def ttbrBase (ttbr : Word) : Word := ttbr &&& 0x0000fffffffffffe

/-- The tables from one on, with `rest` levels after its own. -/
def translateFrom (mem : PhysMem) (va : Word) (rest idxBits : ℕ) (table : Word) : Option Word :=
  let shift := 12 + 9 * rest
  let idx := va >>> shift &&& low idxBits
  match mem (table + idx * 8) with
  | none => none
  | some desc =>
    let out := desc &&& 0x0000fffffffff000
    if desc &&& 3 = 3 then
      match rest with
      | 0 => some (out ||| (va &&& 0xfff))
      | rest + 1 => translateFrom mem va rest 9 out
    else if desc &&& 3 = 1 ∧ (rest = 2 ∨ rest = 1) then
      some ((out &&& ~~~low shift) ||| (va &&& low shift))
    else none

/-- Physical address of `va`, if its page is mapped. -/
def Space.translate (s : Space) (mem : PhysMem) (va : Word) : Option Word :=
  let hi : Bool := va >>> 55 &&& 1 ≠ 0
  let txsz := if hi then s.tcr >>> 16 &&& 0x3f else s.tcr &&& 0x3f
  let tg := if hi then s.tcr >>> 30 &&& 3 else s.tcr >>> 14 &&& 3
  let ttbr := if hi then s.ttbr1 else s.ttbr0
  -- 4 KiB only: TG1 = 0b10, TG0 = 0b00
  if tg ≠ if hi then 0b10 else 0b00 then none
  else
    let width := 64 - min (max txsz.toNat 16) 39
    let tbi := (if hi then s.tcr >>> 38 &&& 1 else s.tcr >>> 37 &&& 1) ≠ 0
    let top := if tbi then 56 else 64
    let upper := if top > width then va >>> width &&& low (top - width) else 0
    let want := if hi then low (top - width) else 0
    if upper ≠ want then none
    else
      let level := 4 - (width - 12 + 8) / 9
      translateFrom mem va (3 - level) (width - (12 + 9 * (3 - level))) (ttbrBase ttbr)

/-! ## The walk of the MMU -/

/-- The half of the virtual space of an address. -/
def half (va : Word) : Bool := va.getLsbD 55

/-- The registers of the MMU that the translation reads. -/
def space (regs : MmuRegs) : Space := ⟨regs.tcr, regs.ttbr0, regs.ttbr1⟩

/-- The physical memory of the walk, without its errors. -/
def memory (phys : Phys) : PhysMem := fun pa => (phys pa).toOption

/-- TG of a half of the virtual space is the one of 4 KiB. -/
def Granule4K (tcr : Word) (hi : Bool) : Prop :=
  if hi then tcr >>> 30 &&& 3 = 0b10 else tcr >>> 14 &&& 3 = 0b00

/-- Bits of an address in the first table of a half. -/
def firstTableBits (regs : MmuRegs) (hi : Bool) : ℕ :=
  3 + regs.inputSize hi - bottom (firstRest (regs.inputSize hi))

/-- The TTBR of a half points to a table that is aligned to its size. -/
def TableAligned (regs : MmuRegs) (hi : Bool) : Prop :=
  (ttbrBase (regs.ttbr hi)).toNat % 2 ^ firstTableBits regs hi = 0

/-- What the two walks of the levels have to do with each other. -/
def Matches (va : Word) (found : Option Word) : Except FaultKind Leaf → Prop
  | .ok leaf => found = if leaf.rest ≤ 2 then some (leaf.pa va) else none
  | .error (.addressSize _) => True
  | .error _ => found = none

theorem outMask_eq : (0x0000fffffffff000 : Word) = bits 47 12 := by decide

theorem lowMask_eq : (0xfff : Word) = low 12 := by decide

/-- The bits 0 and 1 of a valid descriptor. -/
theorem kind_iff_valid {desc : Word} :
    desc &&& 3 = 1 ∨ desc &&& 3 = 3 ↔ desc &&& 1 ≠ 0 := by
  have hone : (desc &&& 1).toNat = desc.toNat % 2 := toNat_and_low (n := 1) (by decide) desc
  have hthree : (desc &&& 3).toNat = desc.toNat % 4 := toNat_and_low (n := 2) (by decide) desc
  rw [Ne, ← toNat_inj, ← toNat_inj, ← toNat_inj, hthree, hone]
  change desc.toNat % 4 = 1 ∨ desc.toNat % 4 = 3 ↔ ¬desc.toNat % 2 = 0
  omega

section Levels

variable {phys : Phys} {va base : Word} {rest idxBits : ℕ} {tables : Tables}

/-- Both walks read the same descriptor. -/
theorem address_eq (hidx : 0 < idxBits) (hwidth : bottom rest + idxBits ≤ 48)
    (hbase : AllBits base 0 (idxBits + 2) false) :
    base + (va >>> (12 + 9 * rest) &&& low idxBits) * (8 : Word) =
      base ||| (va &&& bits (bottom rest + idxBits - 1) (bottom rest)) >>> bottom rest <<< 3 := by
  have hshift : 12 + 9 * rest = bottom rest := by
    rw [bottom]
    omega
  rw [hshift, index_eq hidx (by omega), add_index_eq_or (by omega) hbase]

/-- A descriptor that is read, or the reason for which the walk stops. -/
theorem descriptor_cases (phys : Phys) (va : Word) (hidx : 0 < idxBits)
    (hwidth : bottom rest + idxBits ≤ 48) (hbase : AllBits base 0 (idxBits + 2) false) :
    (∃ kind, descriptor phys va rest base (bottom rest + idxBits - 1) = .error kind ∧
      translateFrom (memory phys) va rest idxBits base = none) ∨
    ∃ desc, descriptor phys va rest base (bottom rest + idxBits - 1) = .ok desc ∧
      (desc &&& 3 = 1 ∨ desc &&& 3 = 3) ∧
      memory phys (base + (va >>> (12 + 9 * rest) &&& low idxBits) * (8 : Word)) = some desc := by
  rw [translateFrom, descriptor]
  dsimp only [memory]
  rw [address_eq hidx hwidth hbase]
  cases phys (base ||| (va &&& bits (bottom rest + idxBits - 1) (bottom rest)) >>> bottom rest
      <<< 3) with
  | error e => exact .inl ⟨_, rfl, rfl⟩
  | ok desc =>
    dsimp only [Except.toOption]
    by_cases hvalid : desc &&& 1 = 0
    · obtain ⟨hblock, htable⟩ := not_or.mp fun hkind => kind_iff_valid.mp hkind hvalid
      refine .inl ⟨.translation (3 - rest), if_pos hvalid, ?_⟩
      rw [if_neg htable, if_neg (fun hkind => hblock hkind.1)]
    · exact .inr ⟨desc, if_neg hvalid, kind_iff_valid.mpr hvalid, rfl⟩

theorem matches_error {kind : FaultKind} {found : Option Word} (hfound : found = none) :
    Matches va found (.error kind) := by
  cases kind with
  | addressSize level => trivial
  | _ => exact hfound

/-- Address of a block, as the translation puts it together. -/
theorem blockAddress_eq (hrest : rest ≤ 3) (desc : Word) :
    (desc &&& 0x0000fffffffff000 &&& ~~~low (12 + 9 * rest)) ||| (va &&& low (12 + 9 * rest)) =
      Leaf.pa ⟨rest, desc, tables⟩ va := by
  have hshift : 12 + 9 * rest = bottom rest := by
    rw [bottom]
    omega
  have hle : 12 ≤ bottom rest := by
    omega
  rw [Leaf.pa, hshift, outMask_eq, and_bits_and_not_low (by decide) hle (bottom_lt hrest)]

/-- A table descriptor points to an aligned table. -/
theorem allBits_table (desc : Word) : AllBits (desc &&& bits 47 12) 0 (9 + 2) false := by
  intro i _ hi
  have hbelow : ¬(12 ≤ i ∧ i ≤ 47) := by omega
  rw [getLsbD_and, getLsbD_bits (by decide) (by decide), decide_eq_false hbelow, Bool.and_false]

end Levels

/-- The two walks of the levels agree from every table on. -/
theorem descend_matches (phys : Phys) (oversize : Word → Bool) (va : Word) {base : Word}
    {rest idxBits : ℕ} (tables : Tables) (hrest : rest ≤ 3) (hidx : 0 < idxBits)
    (hwidth : bottom rest + idxBits ≤ 48) (hbase : AllBits base 0 (idxBits + 2) false) :
    Matches va (translateFrom (memory phys) va rest idxBits base)
      (descend phys oversize va rest base (bottom rest + idxBits - 1) tables) := by
  induction rest generalizing idxBits base tables with
  | zero =>
    rcases descriptor_cases phys va hidx hwidth hbase with
      ⟨kind, hdesc, hnone⟩ | ⟨desc, hdesc, hkind, hread⟩
    · rw [descend, hdesc]
      exact matches_error hnone
    · rw [descend, hdesc, translateFrom, hread]
      dsimp only
      rcases hkind with hblock | hpage
      · rw [if_pos hblock, hblock]
        exact matches_error rfl
      · rw [hpage, if_pos rfl, if_neg (by decide), outMask_eq]
        rw [Matches, if_pos (Nat.zero_le 2), Leaf.pa, lowMask_eq]
        rfl
  | succ rest ih =>
    rcases descriptor_cases phys va hidx hwidth hbase with
      ⟨kind, hdesc, hnone⟩ | ⟨desc, hdesc, hkind, hread⟩
    · rw [descend, hdesc]
      exact matches_error hnone
    · rw [descend, hdesc, translateFrom, hread]
      dsimp only
      rcases hkind with hblock | htable
      · rw [if_pos hblock, hblock, if_neg (by decide), blockAddress_eq hrest desc]
        -- a block at level 0 is none of either
        have hlevel : ((1 : Word) = 1 ∧ (rest + 1 = 2 ∨ rest + 1 = 1)) ↔ rest + 1 ≤ 2 := by
          rw [eq_self, true_and]
          omega
        exact if_congr hlevel rfl rfl
      · rw [htable, if_pos rfl, if_neg (by decide)]
        by_cases hover : oversize desc = true
        · rw [if_pos hover]
          trivial
        · have hnext : bottom (rest + 1) - 1 = bottom rest + 9 - 1 := by
            rw [bottom, bottom]
            omega
          have hsmall : bottom rest + 9 ≤ 48 := by
            omega
          rw [if_neg hover, outMask_eq, hnext]
          exact ih _ (by omega) (by decide) hsmall (allBits_table desc)

/-! ## Both translations -/

theorem bit_eq (va : Word) (n : ℕ) : decide (va >>> n &&& 1 ≠ 0) = va.getLsbD n := by
  rw [Bool.eq_iff_iff, decide_eq_true_iff, ushiftRight_and_one_ne_zero]

/-- Top Byte Ignore of the half. -/
theorem addrTop_eq (regs : MmuRegs) (va : Word) :
    regs.addrTop va = if regs.tcr.getLsbD (if half va then 38 else 37) then 55 else 63 := by
  rw [MmuRegs.addrTop, half]
  by_cases hhalf : va.getLsbD 55 = true
  · rw [if_pos (ushiftRight_and_one_ne_zero.mpr hhalf), if_pos hhalf, Tcr.tbi1]
    exact if_congr (and_one_shiftLeft_ne_zero (by decide)) rfl rfl
  · rw [if_neg (fun hne => hhalf (ushiftRight_and_one_ne_zero.mp hne)), if_neg hhalf, Tcr.tbi0]
    exact if_congr (and_one_shiftLeft_ne_zero (by decide)) rfl rfl

theorem addrTop_bounds (regs : MmuRegs) (va : Word) :
    55 ≤ regs.addrTop va ∧ regs.addrTop va ≤ 63 := by
  rw [addrTop_eq]
  split_ifs <;> decide

/-- The bits above the input size are all those of the half. -/
def Canonical (regs : MmuRegs) (va : Word) : Prop :=
  AllBits va (regs.inputSize (half va)) (regs.addrTop va) (half va)

variable {regs : MmuRegs} {hi : Bool} {va : Word}

/-- The half that `select` tests is the highest bit of the field. -/
theorem select_eq_ok_top :
    select regs va = .ok hi ↔
      hi = va.getLsbD (regs.addrTop va) ∧ AllBits va (regs.inputSize hi) (regs.addrTop va) hi := by
  have htop := addrTop_bounds regs va
  have hsize := regs.inputSize_bounds hi
  rw [allBits_iff_and_bits (by omega) (by omega), select, bit_eq]
  generalize va.getLsbD (regs.addrTop va) = b
  cases b <;> cases hi <;> simp [ite_eq_iff]

theorem select_eq_ok : select regs va = .ok hi ↔ hi = half va ∧ Canonical regs va := by
  have htop := addrTop_bounds regs va
  rw [select_eq_ok_top]
  constructor
  · rintro ⟨-, hall⟩
    have hsize := regs.inputSize_bounds hi
    have hhalf : half va = hi := hall 55 (by omega) (by omega)
    rw [Canonical, hhalf]
    exact ⟨rfl, hall⟩
  · rintro ⟨rfl, hall⟩
    have hsize := regs.inputSize_bounds (half va)
    exact ⟨(hall _ (by omega) (le_refl _)).symm, hall⟩

/-- Faults of the walk that the translation does not know. -/
def Excused (regs : MmuRegs) (va : Word) : FaultKind → Prop
  | .accessFlag _ | .addressSize _ | .permission _ | .externalWalk _ _ | .external _ => True
  | .translation _ => regs.walkDisabled (half va) = true
  | .alignment | .unimplemented _ => False

theorem width_eq (regs : MmuRegs) (hi : Bool) :
    64 - min (max (if hi then regs.tcr >>> 16 &&& 0x3f else regs.tcr &&& 0x3f).toNat 16) 39 =
      regs.inputSize hi := by
  rw [MmuRegs.inputSize]
  cases hi with
  | true => rfl
  | false => simp

theorem top_eq (regs : MmuRegs) (va : Word) :
    (if (if half va then regs.tcr >>> 38 &&& 1 else regs.tcr >>> 37 &&& 1) ≠ 0 then 56 else 64) =
      regs.addrTop va + 1 := by
  rw [addrTop_eq]
  cases half va with
  | true =>
    rw [apply_ite (· + 1)]
    exact if_congr ushiftRight_and_one_ne_zero rfl rfl
  | false =>
    rw [apply_ite (· + 1)]
    exact if_congr ushiftRight_and_one_ne_zero rfl rfl

/-- The start of the translation at the first table of the MMU. -/
theorem translate_eq_some {pa : Word} {mem : PhysMem} (hgranule : Granule4K regs.tcr (half va)) :
    (space regs).translate mem va = some pa ↔
      Canonical regs va ∧
        translateFrom mem va (firstRest (regs.inputSize (half va)))
          (regs.inputSize (half va) - bottom (firstRest (regs.inputSize (half va))))
          (ttbrBase (regs.ttbr (half va))) = some pa := by
  have htop := addrTop_bounds regs va
  have hsize := regs.inputSize_bounds (half va)
  have hgranule' : (if half va then regs.tcr >>> 30 &&& 3 else regs.tcr >>> 14 &&& 3) =
      if half va then 0b10 else 0b00 := by
    rw [Granule4K] at hgranule
    cases hhalf : half va <;> simpa [hhalf] using hgranule
  have hrest : 12 + 9 * firstRest (regs.inputSize (half va)) =
      bottom (firstRest (regs.inputSize (half va))) := by
    rw [bottom]
    omega
  have hcanonical := allBits_iff_ushiftRight va (regs.inputSize (half va)) (half va)
    (n := regs.addrTop va + 1 - regs.inputSize (half va)) (by omega) (by omega)
  rw [show regs.inputSize (half va) + (regs.addrTop va + 1 - regs.inputSize (half va)) - 1 =
    regs.addrTop va by omega] at hcanonical
  rw [Space.translate, space]
  dsimp only
  rw [bit_eq, ← half, width_eq, top_eq, if_neg (not_not.mpr hgranule'),
    if_pos (by omega : regs.addrTop va + 1 > regs.inputSize (half va)), Canonical, hcanonical,
    ← hrest]
  by_cases hfield : va >>> regs.inputSize (half va) &&&
      low (regs.addrTop va + 1 - regs.inputSize (half va)) =
        if half va then low (regs.addrTop va + 1 - regs.inputSize (half va)) else 0
  · rw [if_neg (not_not.mpr hfield)]
    exact (and_iff_right hfield).symm
  · rw [if_pos hfield]
    constructor
    · intro hnone
      cases hnone
    · rintro ⟨hall, -⟩
      exact absurd hall hfield

theorem firstTableBits_eq (regs : MmuRegs) (hi : Bool) :
    firstTableBits regs hi =
        regs.inputSize hi - bottom (firstRest (regs.inputSize hi)) + 3 ∧
      0 < regs.inputSize hi - bottom (firstRest (regs.inputSize hi)) ∧
      firstTableBits regs hi ≤ 12 := by
  have hsize := regs.inputSize_bounds hi
  rw [firstTableBits, firstRest, bottom]
  omega

theorem TableAligned.allBits (haligned : TableAligned regs hi) :
    AllBits (ttbrBase (regs.ttbr hi)) 0 (firstTableBits regs hi - 1) false := by
  obtain ⟨hbits, hpos, hle⟩ := firstTableBits_eq regs hi
  have hshift := allBits_iff_ushiftRight (ttbrBase (regs.ttbr hi)) 0 false
    (n := firstTableBits regs hi) (by omega) (by omega)
  rw [Nat.zero_add] at hshift
  rw [hshift, ushiftRight_zero, ← toNat_inj, toNat_and_low (by omega)]
  exact haligned

/-- Base of the first table, as the walk cuts it out. -/
theorem TableAligned.base_eq (haligned : TableAligned regs hi) :
    regs.ttbr hi &&& bits 47 (firstTableBits regs hi) = ttbrBase (regs.ttbr hi) := by
  obtain ⟨hbits, hpos, hle⟩ := firstTableBits_eq regs hi
  have hmask : (0x0000fffffffffffe : Word) = bits 47 1 := by decide
  refine eq_of_getLsbD_eq fun i _ => ?_
  by_cases hlow : i < firstTableBits regs hi
  · have hnot : ¬(firstTableBits regs hi ≤ i ∧ i ≤ 47) := by omega
    rw [haligned.allBits i (Nat.zero_le i) (by omega), getLsbD_and,
      getLsbD_bits (by decide) (by omega), decide_eq_false hnot, Bool.and_false]
  · have hiff : (firstTableBits regs hi ≤ i ∧ i ≤ 47) ↔ (1 ≤ i ∧ i ≤ 47) := by omega
    rw [ttbrBase, hmask, getLsbD_and, getLsbD_and,
      getLsbD_bits (by decide) (by omega), getLsbD_bits (by decide) (by decide),
      decide_eq_decide.mpr hiff]

theorem Granule4K.ne_k64 (hgranule : Granule4K regs.tcr hi) : regs.granule hi ≠ .k64 := by
  have hother : ¬(if hi then regs.tcr >>> 30 &&& 3 = 0b11 else regs.tcr >>> 14 &&& 3 = 0b01) := by
    rw [Granule4K] at hgranule
    cases hi with
    | true =>
      rw [if_pos rfl] at hgranule ⊢
      rw [hgranule]
      decide
    | false =>
      rw [if_neg Bool.false_ne_true] at hgranule ⊢
      rw [hgranule]
      decide
  rw [MmuRegs.granule, if_neg hother]
  decide

/-- The leaf of the walk, and the address that the translation finds. -/
theorem findLeaf_matches (paBits : ℕ) (phys : Phys) (hendian : regs.sctlr &&& Sctlr.ee = 0)
    (hgranule : Granule4K regs.tcr (half va)) (haligned : TableAligned regs (half va))
    (hwalks : regs.walkDisabled (half va) = false) :
    Matches va
      (translateFrom (memory phys) va (firstRest (regs.inputSize (half va)))
        (regs.inputSize (half va) - bottom (firstRest (regs.inputSize (half va))))
        (ttbrBase (regs.ttbr (half va)))) (findLeaf regs paBits phys va (half va)) := by
  obtain ⟨hbits, hpos, hle⟩ := firstTableBits_eq regs (half va)
  have hsize := regs.inputSize_bounds (half va)
  have htable := haligned.allBits
  rw [hbits] at htable
  have hlevels := descend_matches phys (oversize regs paBits) va {}
    (firstRest_le (regs.inputSize (half va))) hpos (by omega) htable
  rw [findLeaf, if_neg (by simp [hwalks]), if_neg hgranule.ne_k64, if_neg (not_not.mpr hendian)]
  dsimp only
  split_ifs with hover
  · trivial
  · rw [← firstTableBits, haligned.base_eq]
    rwa [show bottom (firstRest (regs.inputSize (half va))) +
      (regs.inputSize (half va) - bottom (firstRest (regs.inputSize (half va)))) - 1 =
        regs.inputSize (half va) - 1 by omega] at hlevels

section Walks

variable {m : Mmu} {phys : Phys} {va : Word} {access : Access} {el : ℕ}

/-- What a walk that succeeds has done. -/
theorem walk_eq_ok {t : Translation} (hon : m.regs.enabled = true)
    (hwalk : m.walk phys va access el = .ok t) :
    ∃ hi, select m.regs va = .ok hi ∧ walkTables m.regs m.paBits phys va hi = .ok t := by
  rw [Mmu.walk, if_neg (by simp [hon])] at hwalk
  cases hselect : select m.regs va with
  | error kind =>
    rw [hselect] at hwalk
    cases hwalk
  | ok hi =>
    rw [hselect] at hwalk
    dsimp only at hwalk
    cases htables : walkTables m.regs m.paBits phys va hi with
    | error kind =>
      rw [htables] at hwalk
      cases hwalk
    | ok t' =>
      rw [htables] at hwalk
      dsimp only at hwalk
      cases hcheck : check m.regs t' access el with
      | error kind =>
        rw [hcheck] at hwalk
        cases hwalk
      | ok _ =>
        rw [hcheck] at hwalk
        cases hwalk
        exact ⟨hi, rfl, htables⟩

/-- A walk of the tables, for an address that the translation finds. -/
theorem walkTables_of_translateFrom {pa : Word} (hendian : m.regs.sctlr &&& Sctlr.ee = 0)
    (hgranule : Granule4K m.regs.tcr (half va)) (haligned : TableAligned m.regs (half va))
    (hfound : translateFrom (memory phys) va (firstRest (m.regs.inputSize (half va)))
      (m.regs.inputSize (half va) - bottom (firstRest (m.regs.inputSize (half va))))
      (ttbrBase (m.regs.ttbr (half va))) = some pa) :
    match walkTables m.regs m.paBits phys va (half va) with
    | .ok t => t.pa = pa
    | .error kind => Excused m.regs va kind := by
  cases hwalks : m.regs.walkDisabled (half va) with
  | true =>
    rw [walkTables, findLeaf, if_pos hwalks]
    exact hwalks
  | false =>
    have hmatches := findLeaf_matches m.paBits phys hendian hgranule haligned hwalks
    rw [hfound] at hmatches
    rw [walkTables]
    cases hleaf : findLeaf m.regs m.paBits phys va (half va) with
    | error kind =>
      rw [hleaf] at hmatches
      cases kind with
      | addressSize level => trivial
      | _ => cases hmatches
    | ok leaf =>
      rw [hleaf, Matches] at hmatches
      by_cases hrest : leaf.rest ≤ 2
      · rw [if_pos hrest] at hmatches
        dsimp only
        rw [if_neg (by omega : ¬3 - leaf.rest < 1)]
        by_cases hover : oversize m.regs m.paBits (leaf.pa va) = true
        · rw [if_pos hover]
          trivial
        · rw [if_neg hover]
          split_ifs with hflag
          · trivial
          · exact (Option.some.inj hmatches).symm
      · rw [if_neg hrest] at hmatches
        cases hmatches

theorem check_eq_error {t : Translation} {kind : FaultKind}
    (hcheck : check regs t access el = .error kind) : ∃ level, kind = .permission level := by
  rw [check] at hcheck
  cases hperms : t.perms with
  | none =>
    rw [hperms] at hcheck
    cases hcheck
  | some p =>
    rw [hperms] at hcheck
    dsimp only at hcheck
    split_ifs at hcheck
    exact ⟨t.level, (Except.error.inj hcheck).symm⟩

end Walks

/-- The translation finds the address of the walk, and the walk the one of the translation
unless it faults for a reason of its own. -/
theorem translate_agrees_with_walk (m : Mmu) (phys : Phys) (va : Word) (access : Access) (el : ℕ)
    (hon : m.regs.enabled = true) (hendian : m.regs.sctlr &&& Sctlr.ee = 0)
    (hgranule : Granule4K m.regs.tcr (half va)) (haligned : TableAligned m.regs (half va)) :
    (∀ t, m.walk phys va access el = .ok t →
      (space m.regs).translate (memory phys) va = some t.pa) ∧
    ∀ pa, (space m.regs).translate (memory phys) va = some pa →
      (∃ t, m.walk phys va access el = .ok t ∧ t.pa = pa) ∨
        ∃ fault, m.walk phys va access el = .error fault ∧ Excused m.regs va fault.kind := by
  constructor
  · intro t hwalk
    obtain ⟨hi, hselect, htables⟩ := walk_eq_ok hon hwalk
    obtain ⟨rfl, hcanonical⟩ := select_eq_ok.mp hselect
    obtain ⟨leaf, hleaf, hrest, -, -, rfl⟩ := walkTables_eq_ok.mp htables
    have hwalks : m.regs.walkDisabled (half va) = false := by
      by_contra hdisabled
      rw [findLeaf, if_pos (by simpa using hdisabled)] at hleaf
      cases hleaf
    have hmatches := findLeaf_matches m.paBits phys hendian hgranule haligned hwalks
    rw [hleaf, Matches, if_pos hrest] at hmatches
    exact (translate_eq_some hgranule).mpr ⟨hcanonical, hmatches⟩
  · intro pa htranslate
    obtain ⟨hcanonical, hfound⟩ := (translate_eq_some hgranule).mp htranslate
    have hselect : select m.regs va = .ok (half va) := select_eq_ok.mpr ⟨rfl, hcanonical⟩
    have htables := walkTables_of_translateFrom (m := m) hendian hgranule haligned hfound
    rw [Mmu.walk, if_neg (by simp [hon]), hselect]
    dsimp only
    cases hwalked : walkTables m.regs m.paBits phys va (half va) with
    | error kind =>
      rw [hwalked] at htables
      exact .inr ⟨_, rfl, htables⟩
    | ok t =>
      rw [hwalked] at htables
      dsimp only
      cases hcheck : check m.regs t access el with
      | error kind =>
        obtain ⟨level, rfl⟩ := check_eq_error hcheck
        exact .inr ⟨_, rfl, trivial⟩
      | ok _ => exact .inl ⟨t, rfl, htables⟩

/-- Three levels of tables of 39 bits, with one page at address 0. -/
def pageMmu : Mmu :=
  { Mmu.new 48 (by decide) (by decide) with
    regs := { sctlr := Sctlr.m, tcr := 25, ttbr0 := 0x1000 } }

def pagePhys : Phys := fun pa =>
  if pa = 0x1000 then .ok 0x2003
  else if pa = 0x2000 then .ok 0x3003
  else if pa = 0x3000 then .ok 0x4403
  else .error .decode

theorem translate_agrees_with_walk_page :
    (space pageMmu.regs).translate (memory pagePhys) 0x123 = some 0x4123 ∧
      ((∃ t, pageMmu.walk pagePhys 0x123 .read 1 = .ok t ∧ t.pa = 0x4123) ∨
        ∃ fault, pageMmu.walk pagePhys 0x123 .read 1 = .error fault ∧
          Excused pageMmu.regs 0x123 fault.kind) :=
  ⟨by decide +kernel,
    (translate_agrees_with_walk pageMmu pagePhys 0x123 .read 1 (by decide) (by decide)
      (by unfold Granule4K; decide) (by unfold TableAligned; decide +kernel)).2 0x4123
        (by decide +kernel)⟩

end Vetro.Introspect
