import Mathlib.Tactic
import Vetro.Core.Lookup

/-!
# Slots for the keys of a map

A store that keeps the value of each key in a slot of its own: a key that is
written again keeps its slot, a new key takes the lowest free slot or a new one
at the end, and a removed key gives its slot back.  `Valid` says that the slots
up to a bound are shared out: each belongs to one key or is free.
-/

namespace Vetro.SlotTable

variable {K V : Type} [Ord K]

/-- Where every key is, the free slots, and the number of slots. -/
structure Table (K V : Type) [Ord K] where
  map : Std.TreeMap K (ℕ × V) compare
  free : Std.TreeSet ℕ compare
  slots : ℕ

namespace Table

def empty : Table K V := ⟨∅, ∅, 0⟩

/-- A slot for a new key: the lowest free one, or one more. -/
def alloc (table : Table K V) : ℕ × Table K V :=
  match table.free.min? with
  | some slot => (slot, { table with free := table.free.erase slot })
  | none => (table.slots, { table with slots := table.slots + 1 })

/-- Key `key` with `value`, and its slot. -/
def put (table : Table K V) (key : K) (value : V) : ℕ × Table K V :=
  match table.map[key]? with
  | some (slot, _) => (slot, { table with map := table.map.insert key (slot, value) })
  | none =>
    let (slot, table) := table.alloc
    (slot, { table with map := table.map.insert key (slot, value) })

/-- Without key `key`, if it was there, and the slot it had. -/
def remove (table : Table K V) (key : K) : Option (ℕ × Table K V) :=
  match table.map[key]? with
  | some (slot, _) => some (slot,
    { table with map := table.map.erase key, free := table.free.insert slot })
  | none => none

/-- Key `key` is in slot `slot`. -/
def At (table : Table K V) (key : K) (slot : ℕ) : Prop :=
  ∃ value, table.map[key]? = some (slot, value)

end Table

/-- The slots below `bound` are shared out between the keys and the free
slots. -/
structure Valid (table : Table K V) (bound : ℕ) : Prop where
  injective : ∀ {key key' slot}, table.At key slot → table.At key' slot → key = key'
  disjoint : ∀ {key slot}, table.At key slot → slot ∉ table.free
  covers : ∀ slot, slot < bound ↔ slot ∈ table.free ∨ ∃ key, table.At key slot

/-! ## What an operation does -/

/-- Putting a key keeps its slot, takes a free one or adds one at the end. -/
inductive Placed (table : Table K V) (key : K) (value : V) : ℕ → Table K V → Prop where
  | keep {slot : ℕ} (hat : table.At key slot) :
      Placed table key value slot { table with map := table.map.insert key (slot, value) }
  | reuse {slot : ℕ} (hnew : table.map[key]? = none) (hfree : slot ∈ table.free) :
      Placed table key value slot { table with
        map := table.map.insert key (slot, value), free := table.free.erase slot }
  | grow (hnew : table.map[key]? = none) (hfull : ∀ slot, slot ∉ table.free) :
      Placed table key value table.slots { table with
        map := table.map.insert key (table.slots, value), slots := table.slots + 1 }

theorem placed_put (table : Table K V) (key : K) (value : V) :
    Placed table key value (table.put key value).1 (table.put key value).2 := by
  cases hkey : table.map[key]? with
  | some entry =>
    obtain ⟨slot, old⟩ := entry
    rw [Table.put, hkey]
    exact .keep ⟨old, hkey⟩
  | none =>
    rw [Table.put, hkey, Table.alloc]
    cases hmin : table.free.min? with
    | none =>
      refine .grow hkey fun slot hmem => ?_
      exact Std.TreeSet.not_mem_of_isEmpty (Std.TreeSet.min?_eq_none_iff.mp hmin) hmem
    | some slot =>
      exact .reuse hkey (Std.TreeSet.min?_eq_some_iff_mem_and_forall.mp hmin).1

theorem remove_eq_some {table next : Table K V} {key : K} {slot : ℕ}
    (hremove : table.remove key = some (slot, next)) : table.At key slot ∧
      next = { table with map := table.map.erase key, free := table.free.insert slot } := by
  rw [Table.remove] at hremove
  split at hremove
  · rename_i slot' value hkey
    cases hremove
    exact ⟨⟨value, hkey⟩, rfl⟩
  · cases hremove

variable {free : Std.TreeSet ℕ compare} {slot slot' : ℕ}

theorem mem_insert_slot :
    slot' ∈ free.insert slot ↔ slot' = slot ∨ slot' ∈ free := by
  rw [Std.TreeSet.mem_insert, Nat.compare_eq_eq]
  exact or_congr_left eq_comm

theorem mem_erase_slot :
    slot' ∈ free.erase slot ↔ slot' ≠ slot ∧ slot' ∈ free := by
  rw [Std.TreeSet.mem_erase, ne_eq, Nat.compare_eq_eq]
  exact and_congr_left fun _ => ne_comm

theorem Table.At.unique {table : Table K V} {key : K}
    (hat : table.At key slot) (hat' : table.At key slot') : slot = slot' := by
  obtain ⟨value, hvalue⟩ := hat
  obtain ⟨value', hvalue'⟩ := hat'
  rw [hvalue] at hvalue'
  exact congrArg Prod.fst (Option.some.inj hvalue')

/-! ## The invariant -/

section Invariant

variable [Std.TransOrd K] [Std.LawfulEqOrd K] [DecidableEq K]
  {table next : Table K V} {key : K} {value : V} {slot bound : ℕ}

/-- Where the keys are after one of them was set. -/
theorem at_insert {slots slot' : ℕ} {key' : K} :
    (Table.mk (table.map.insert key (slot, value)) free slots).At key' slot' ↔
      if key = key' then slot' = slot else table.At key' slot' := by
  simp only [Table.At, getElem?_insert_key]
  split_ifs with hkey
  · simp [eq_comm]
  · rfl

theorem at_erase {slots slot' : ℕ} {key' : K} :
    (Table.mk (table.map.erase key) free slots).At key' slot' ↔
      key ≠ key' ∧ table.At key' slot' := by
  simp only [Table.At, getElem?_erase_key]
  split_ifs with hkey
  · simp [hkey]
  · simp [hkey]

omit [Std.LawfulEqOrd K] [DecidableEq K] in
theorem valid_empty : Valid (Table.empty : Table K V) 0 := by
  have hnone : ∀ {key slot}, ¬(Table.empty : Table K V).At key slot := by
    rintro key slot ⟨value, hvalue⟩
    simp [Table.empty] at hvalue
  refine ⟨fun hat => absurd hat hnone, fun hat => absurd hat hnone, fun slot => ?_⟩
  simp [Table.empty, Table.At]

/-- A new key in the slot after the last one. -/
theorem Valid.claim (hvalid : Valid table bound) (hnew : table.map[key]? = none) (slots : ℕ) :
    Valid ⟨table.map.insert key (bound, value), table.free, slots⟩ (bound + 1) := by
  have hbound : ∀ {key'}, ¬table.At key' bound := fun hat =>
    lt_irrefl bound ((hvalid.covers bound).mpr (.inr ⟨_, hat⟩))
  refine ⟨fun {left right slot} hleft hright => ?_, fun {other slot} hat hmem => ?_, fun slot => ?_⟩
  · rw [at_insert] at hleft hright
    split_ifs at hleft hright with hone htwo htwo
    · exact hone.symm.trans htwo
    · exact absurd (hleft ▸ hright) hbound
    · exact absurd (hright ▸ hleft) hbound
    · exact hvalid.injective hleft hright
  · rw [at_insert] at hat
    split_ifs at hat with hkey
    · rw [hat] at hmem
      exact lt_irrefl bound ((hvalid.covers bound).mpr (.inl hmem))
    · exact hvalid.disjoint hat hmem
  · constructor
    · intro hslot
      rcases Nat.lt_succ_iff_lt_or_eq.mp hslot with hlow | rfl
      · rcases (hvalid.covers slot).mp hlow with hmem | ⟨other, hat⟩
        · exact .inl hmem
        · refine .inr ⟨other, at_insert.mpr ?_⟩
          rw [if_neg]
          · exact hat
          · rintro rfl
            obtain ⟨old, hold⟩ := hat
            rw [hnew] at hold
            cases hold
      · exact .inr ⟨key, at_insert.mpr (by rw [if_pos rfl])⟩
    · rintro (hmem | ⟨other, hat⟩)
      · exact Nat.lt_succ_of_lt ((hvalid.covers slot).mpr (.inl hmem))
      · rw [at_insert] at hat
        split_ifs at hat with hkey
        · exact hat ▸ Nat.lt_succ_self bound
        · exact Nat.lt_succ_of_lt ((hvalid.covers slot).mpr (.inr ⟨other, hat⟩))

omit [Std.TransOrd K] [Std.LawfulEqOrd K] [DecidableEq K] in
/-- A free slot after the last one. -/
theorem Valid.spare (hvalid : Valid table bound) (slots : ℕ) :
    Valid ⟨table.map, table.free.insert bound, slots⟩ (bound + 1) := by
  refine ⟨hvalid.injective, fun {other slot} hat hmem => ?_, fun slot => ?_⟩
  · rcases mem_insert_slot.mp hmem with rfl | hold
    · exact lt_irrefl slot ((hvalid.covers slot).mpr (.inr ⟨other, hat⟩))
    · exact hvalid.disjoint hat hold
  · rw [Nat.lt_succ_iff_lt_or_eq, hvalid.covers slot, mem_insert_slot]
    constructor
    · rintro ((hmem | hat) | hlast)
      · exact .inl (.inr hmem)
      · exact .inr hat
      · exact .inl (.inl hlast)
    · rintro ((hlast | hmem) | hat)
      · exact .inr hlast
      · exact .inl (.inl hmem)
      · exact .inl (.inr hat)

/-- A key that is set in its own slot, or in a free one. -/
theorem Valid.set (hvalid : Valid table bound) {slots : ℕ}
    (howner : ∀ key', table.At key' slot → key' = key)
    (hkeep : ∀ old, table.At key old → old = slot)
    (hfree : ∀ slot', slot' ∈ free ↔ slot' ≠ slot ∧ slot' ∈ table.free) (hslot : slot < bound) :
    Valid ⟨table.map.insert key (slot, value), free, slots⟩ bound := by
  refine ⟨fun {left right slot'} hleft hright => ?_, fun {other slot'} hat hmem => ?_,
    fun slot' => ?_⟩
  · rw [at_insert] at hleft hright
    split_ifs at hleft hright with hone htwo htwo
    · exact hone.symm.trans htwo
    · exact absurd (howner right (hleft ▸ hright)).symm htwo
    · exact absurd (howner left (hright ▸ hleft)).symm hone
    · exact hvalid.injective hleft hright
  · rw [at_insert] at hat
    obtain ⟨hne, hold⟩ := (hfree slot').mp hmem
    split_ifs at hat with hkey
    · exact hne hat
    · exact hvalid.disjoint hat hold
  · simp only [hfree, at_insert]
    constructor
    · intro hlow
      by_cases hsame : slot' = slot
      · exact .inr ⟨key, by rw [if_pos rfl]; exact hsame⟩
      · rcases (hvalid.covers slot').mp hlow with hmem | ⟨other, hat⟩
        · exact .inl ⟨hsame, hmem⟩
        · refine .inr ⟨other, ?_⟩
          rw [if_neg]
          · exact hat
          · rintro rfl
            exact hsame (hkeep slot' hat)
    · rintro (⟨_, hmem⟩ | ⟨other, hat⟩)
      · exact (hvalid.covers slot').mpr (.inl hmem)
      · split_ifs at hat with hkey
        · exact hat ▸ hslot
        · exact (hvalid.covers slot').mpr (.inr ⟨other, hat⟩)

theorem Valid.placed (hvalid : Valid table table.slots)
    (hplaced : Placed table key value slot next) : Valid next next.slots := by
  cases hplaced with
  | keep hat =>
    refine hvalid.set (fun _ hother => hvalid.injective hother hat)
      (fun _ hold => hold.unique hat) (fun slot' => ?_)
      ((hvalid.covers slot).mpr (.inr ⟨key, hat⟩))
    exact ⟨fun hmem => ⟨fun hsame => hvalid.disjoint hat (hsame ▸ hmem), hmem⟩, And.right⟩
  | reuse hnew hfree =>
    refine hvalid.set (fun _ hother => absurd hfree (hvalid.disjoint hother)) (fun _ hold => ?_)
      (fun slot' => mem_erase_slot) ((hvalid.covers slot).mpr (.inl hfree))
    obtain ⟨old, hold⟩ := hold
    rw [hnew] at hold
    cases hold
  | grow hnew hfull => exact hvalid.claim hnew _

theorem Valid.remove (hvalid : Valid table table.slots)
    (hremove : table.remove key = some (slot, next)) : Valid next next.slots := by
  obtain ⟨hat, rfl⟩ := remove_eq_some hremove
  refine ⟨fun {left right slot'} hleft hright => ?_, fun {other slot'} hother hmem => ?_,
    fun slot' => ?_⟩
  · exact hvalid.injective (at_erase.mp hleft).2 (at_erase.mp hright).2
  · obtain ⟨hne, hold⟩ := at_erase.mp hother
    rcases mem_insert_slot.mp hmem with rfl | hfree
    · exact hne (hvalid.injective hat hold)
    · exact hvalid.disjoint hold hfree
  · simp only [hvalid.covers slot', mem_insert_slot, at_erase]
    constructor
    · rintro (hmem | ⟨other, hother⟩)
      · exact .inl (.inr hmem)
      · by_cases hkey : key = other
        · subst hkey
          exact .inl (.inl (hother.unique hat))
        · exact .inr ⟨other, hkey, hother⟩
    · rintro ((rfl | hmem) | ⟨other, _, hother⟩)
      · exact .inr ⟨key, hat⟩
      · exact .inl hmem
      · exact .inr ⟨other, hother⟩

end Invariant

end Vetro.SlotTable
