import Vetro.User.Flat

/-!
# Accesses and runs

An access in one region and an access byte by byte across regions do what the
map of cells says.  The exception is an access that goes on past the end of the
shared region it starts in: its last byte is then looked for in the buffer of
that region.
-/

namespace Vetro.User

open Bytes Mask Outcome List Intervals

variable {len : ℕ}

namespace Flat

variable {f : Flat} {a : Access} {addr : Word}

theorem add_ofNat_succ (addr : Word) (k : ℕ) :
    addr + BitVec.ofNat 64 (k + 1) = addr + 1 + BitVec.ofNat 64 k := by
  rw [Nat.add_comm, BitVec.ofNat_add, BitVec.add_assoc]
  rfl

theorem allowed_succ :
    f.Allowed a addr (len + 1) ↔ f.ByteOk a addr.toNat ∧ f.Allowed a (addr + 1) len := by
  constructor
  · intro hall
    refine ⟨?_, fun k hk => ?_⟩
    · simpa using hall 0 (Nat.succ_pos _)
    · rw [← add_ofNat_succ]
      exact hall (k + 1) (Nat.succ_lt_succ hk)
  · rintro ⟨hfirst, hrest⟩ k hk
    cases k with
    | zero => simpa using hfirst
    | succ k =>
      rw [add_ofNat_succ]
      exact hrest k (Nat.lt_of_succ_lt_succ hk)

theorem read_succ (f : Flat) (addr : Word) (len : ℕ) :
    f.read addr (len + 1) = f.get addr.toNat :: f.read (addr + 1) len := by
  rw [read, range_succ_eq_map, map_cons, map_map, read]
  congr 1
  · simp
  · refine map_congr_left fun k _ => ?_
    rw [Function.comp_apply, add_ofNat_succ]

/-- A write does not map or unmap anything. -/
theorem map_set_isSome (f : Flat) (addr : ℕ) (byte : Byte) (x : ℕ) :
    ((f.set addr byte).map x).isSome = (f.map x).isSome := by
  rw [set]
  split
  · rename_i value perm hmap
    dsimp only
    rw [Function.update_apply]
    split_ifs with hx
    · rw [hx, hmap]
      rfl
    · rfl
  · rfl
  · rfl

end Flat

variable {data : List Byte}

namespace UserMemory

variable {m : UserMemory} {buffers : Buffers} {a : Access} {addr : Word}

variable {r : Region} {position : ℕ} {b : ℕ}

theorem map_of_find (buffers : Buffers) (hm : Good m)
    (hfind : m.find position = some (b, r)) :
    (m.flat buffers).map position = some (r.cell (position - b), r.perm) := by
  obtain ⟨hmem, hcovers⟩ := (find_eq_some hm.disjoint).mp hfind
  exact view_of_covers hm.disjoint hmem hcovers

theorem map_of_find_none (hm : Good m) (hfind : m.find position = none) :
    (m.flat buffers).map position = none :=
  (view_eq_none hm.disjoint).mpr ((find_eq_none hm.disjoint).mp hfind)

theorem byteOk_of_find (hm : Good m) (hfind : m.find position = some (b, r)) :
    (m.flat buffers).ByteOk a position ↔
      r.perm.allows a = true ∧ r.pastEnd buffers (position - b) = false := by
  have hmap := map_of_find buffers hm hfind
  rw [Region.pastEnd_eq]
  constructor
  · rintro ⟨cell, perm, hcell, hperm, hpast⟩
    rw [hmap] at hcell
    cases hcell
    exact ⟨hperm, hpast⟩
  · rintro ⟨hperm, hpast⟩
    exact ⟨_, _, hmap, hperm, hpast⟩

theorem not_byteOk_of_find_none (hm : Good m) (hfind : m.find position = none) :
    ¬(m.flat buffers).ByteOk a position := by
  rintro ⟨cell, perm, hcell, -⟩
  rw [map_of_find_none hm hfind] at hcell
  cases hcell

/-! ## Byte by byte -/

theorem checkSlow_spec (buffers : Buffers) (hm : Good m) (addr : Word) (len : ℕ) :
    (m.checkSlow buffers addr a len = .ok () ∧ (m.flat buffers).Allowed a addr len) ∨
      (∃ fault, m.checkSlow buffers addr a len = .error fault) ∧
        ¬(m.flat buffers).Allowed a addr len := by
  induction len generalizing addr with
  | zero => exact .inl ⟨rfl, by rintro _ ⟨⟩⟩
  | succ len ih =>
    rw [checkSlow, Flat.allowed_succ]
    cases hfind : m.find addr.toNat with
    | none =>
      exact .inr ⟨⟨_, rfl⟩, fun hboth => not_byteOk_of_find_none hm hfind hboth.1⟩
    | some x =>
      rw [byteOk_of_find hm hfind]
      dsimp only
      split_ifs with hok
      · rw [Bool.and_eq_true, Bool.not_eq_true'] at hok
        rcases ih (addr + 1) with ⟨heq, hall⟩ | ⟨herror, hnot⟩
        · exact .inl ⟨heq, hok, hall⟩
        · exact .inr ⟨herror, fun hboth => hnot hboth.2⟩
      · rw [Bool.and_eq_true, Bool.not_eq_true'] at hok
        exact .inr ⟨⟨_, rfl⟩, fun hboth => hok hboth.1⟩

theorem loadSlow_spec (hm : Good m) (hall : (m.flat buffers).Allowed a addr len) :
    m.loadSlow buffers addr len = .ok ((m.flat buffers).read addr len) := by
  induction len generalizing addr with
  | zero => rfl
  | succ len ih =>
    obtain ⟨hbyte, hrest⟩ := Flat.allowed_succ.mp hall
    rw [loadSlow, Flat.read_succ]
    cases hfind : m.find addr.toNat with
    | none => exact absurd hbyte (not_byteOk_of_find_none hm hfind)
    | some x =>
      dsimp only
      rw [ih hrest, ok_bind, Region.read_eq, Flat.get, map_of_find _ hm hfind]
      rfl

/-! ## In one region -/

/-- An access in a region that does not leave it. -/
theorem toNat_add_of_le (hm : Good m) (hfind : m.find addr.toNat = some (b, r))
    (hin : addr.toNat - b + len ≤ r.len) {k : ℕ} (hk : k < len) :
    (addr + BitVec.ofNat 64 k).toNat = addr.toNat + k ∧ m.find (addr.toNat + k) = some (b, r) ∧
      addr.toNat + k - b = addr.toNat - b + k := by
  obtain ⟨hmem, hcovers⟩ := (find_eq_some hm.disjoint).mp hfind
  have hleft : b ≤ addr.toNat := hcovers.1
  have hbound : b + r.len < 2 ^ 64 := hm.bounded _ hmem
  refine ⟨?_, (find_eq_some hm.disjoint).mpr ⟨hmem, ⟨?_, ?_⟩⟩, by omega⟩
  · rw [BitVec.toNat_add, BitVec.toNat_ofNat, Nat.mod_eq_of_lt (a := k) (by omega),
      Nat.mod_eq_of_lt (by omega)]
  · omega
  · dsimp only
    omega

theorem allowed_of_le (buffers : Buffers) (hm : Good m)
    (hfind : m.find addr.toNat = some (b, r)) (hpos : 0 < len)
    (hin : addr.toNat - b + len ≤ r.len) :
    (m.flat buffers).Allowed a addr len ↔
      r.perm.allows a = true ∧ r.pastEnd buffers (addr.toNat - b + len - 1) = false := by
  have hbyte : ∀ k < len, (m.flat buffers).ByteOk a (addr + BitVec.ofNat 64 k).toNat ↔
      r.perm.allows a = true ∧ r.pastEnd buffers (addr.toNat - b + k) = false := by
    intro k hk
    obtain ⟨htoNat, hfindk, hoff⟩ := toNat_add_of_le hm hfind hin hk
    rw [htoNat, byteOk_of_find hm hfindk, hoff]
  constructor
  · intro hall
    have hlast := (hbyte (len - 1) (by omega)).mp (hall (len - 1) (by omega))
    rw [Nat.add_sub_assoc (by omega)]
    exact hlast
  · rintro ⟨hperm, hpast⟩ k hk
    refine (hbyte k hk).mpr ⟨hperm, ?_⟩
    cases hcell : r.pastEnd buffers (addr.toNat - b + k) with
    | false => rfl
    | true =>
      have hlater := Region.pastEnd_mono (addr.toNat - b + len - 1) (by omega) hcell
      rw [hlater] at hpast
      cases hpast

/-- Past the end of the region it starts in, an access is not also beyond the end of the
buffer of that region. -/
def Contained (m : UserMemory) (buffers : Buffers) (addr : Word) (len : ℕ) : Prop :=
  ∀ b r, m.find addr.toNat = some (b, r) → b + r.len < addr.toNat + len →
    r.pastEnd buffers (addr.toNat + len - 1 - b) = false

/-- The way an access takes. -/
theorem locate_spec (hm : Good m) (hpos : 0 < len) (hcontained : m.Contained buffers addr len)
    (a : Access) :
    (∃ b r, m.locate buffers addr len a = .ok (some (b, r)) ∧ m.find addr.toNat = some (b, r) ∧
        addr.toNat - b + len ≤ r.len ∧ (m.flat buffers).Allowed a addr len) ∨
      m.locate buffers addr len a = .ok none ∨
      (∃ fault, m.locate buffers addr len a = .error fault) ∧
        ¬(m.flat buffers).Allowed a addr len := by
  rw [locate]
  cases hfind : m.find addr.toNat with
  | none =>
    refine .inr (.inr ⟨⟨_, rfl⟩, fun hall => ?_⟩)
    have hfirst : (m.flat buffers).ByteOk a addr.toNat := by simpa using hall 0 hpos
    exact not_byteOk_of_find_none hm hfind hfirst
  | some x =>
    obtain ⟨b, r⟩ := x
    obtain ⟨hmem, hcovers⟩ := (find_eq_some hm.disjoint).mp hfind
    have hleft : b ≤ addr.toNat := hcovers.1
    have hlast : addr.toNat - b + max len 1 - 1 = addr.toNat - b + len - 1 := by omega
    dsimp only
    rw [hlast]
    by_cases hin : addr.toNat - b + len ≤ r.len
    · have hiff := allowed_of_le buffers (a := a) hm hfind hpos hin
      split_ifs with hbad
      · refine .inr (.inr ⟨⟨_, rfl⟩, fun hall => ?_⟩)
        obtain ⟨hperm, hpast⟩ := hiff.mp hall
        rw [hperm, hpast] at hbad
        cases hbad
      · rw [Bool.or_eq_true, Bool.not_eq_true', not_or, Bool.not_eq_false, Bool.not_eq_true] at hbad
        exact .inl ⟨b, r, rfl, rfl, hin, hiff.mpr hbad⟩
    · have hpast : r.pastEnd buffers (addr.toNat - b + len - 1) = false := by
        rw [show addr.toNat - b + len - 1 = addr.toNat + len - 1 - b by omega]
        exact hcontained b r hfind (by omega)
      rw [hpast, Bool.or_false]
      split_ifs with hperm
      · refine .inr (.inr ⟨⟨_, rfl⟩, fun hall => ?_⟩)
        have hfirst : (m.flat buffers).ByteOk a addr.toNat := by simpa using hall 0 hpos
        rw [((byteOk_of_find hm hfind).mp hfirst).1] at hperm
        cases hperm
      · exact .inr (.inl rfl)

theorem load_spec (hm : Good m) (hpos : 0 < len) (hcontained : m.Contained buffers addr len)
    (a : Access) : (m.load buffers addr len a = .ok ((m.flat buffers).read addr len) ∧
        (m.flat buffers).Allowed a addr len) ∨
      (∃ fault, m.load buffers addr len a = fail fault) ∧
        ¬(m.flat buffers).Allowed a addr len := by
  rw [load]
  rcases locate_spec hm hpos hcontained a with
    ⟨b, r, hlocate, hfind, hin, hall⟩ | hlocate | ⟨⟨fault, hlocate⟩, hnot⟩
  · refine .inl ⟨?_, hall⟩
    rw [hlocate]
    dsimp only
    rw [Region.read_eq, Flat.read]
    congr 1
    refine map_congr_left fun k hk => ?_
    obtain ⟨htoNat, hfindk, hoff⟩ := toNat_add_of_le hm hfind hin (mem_range.mp hk)
    rw [htoNat, Flat.get, map_of_find _ hm hfindk, hoff]
    rfl
  · rw [hlocate]
    rcases checkSlow_spec buffers (a := a) hm addr len with
      ⟨hcheck, hall⟩ | ⟨⟨fault, hcheck⟩, hnot⟩
    · rw [hcheck]
      exact .inl ⟨loadSlow_spec hm hall, hall⟩
    · rw [hcheck]
      exact .inr ⟨⟨fault, rfl⟩, hnot⟩
  · rw [hlocate]
    exact .inr ⟨⟨fault, rfl⟩, hnot⟩

/-! ## Writes -/

/-- A region in place of one that it is like, but for its bytes. -/
theorem flat_replace (buffers : Buffers) (hm : Good m) {r' : Region}
    (hmem : (b, r) ∈ m.regions) (hlen : r'.len = r.len) (hperm : r'.perm = r.perm) :
    Good (m.insert b r') ∧ ∀ x, ((m.insert b r').flat buffers).map x =
      if b ≤ x ∧ x < b + r.len then some (r'.cell (x - b), r.perm)
      else (m.flat buffers).map x := by
  refine ⟨⟨disjoint_replace hm.disjoint hmem hlen, fun y hy => ?_⟩, fun x => ?_⟩
  · rcases mem_insert.mp hy with rfl | ⟨hy, -⟩
    · rw [hlen]
      exact hm.bounded _ hmem
    · exact hm.bounded y hy
  · refine (view_replace hm.disjoint hmem hlen x).trans ?_
    rw [Region.shown, hperm]
    rfl

theorem writeIn_byte (buffers : Buffers) (hm : Good m) {b off : ℕ} (hmem : (b, r) ∈ m.regions)
    (hoff : off < r.len) (byte : Byte) :
    Good (m.writeIn buffers b r off [byte]).1 ∧
      (m.writeIn buffers b r off [byte]).1.flat (m.writeIn buffers b r off [byte]).2 =
        (m.flat buffers).set (b + off) byte := by
  obtain ⟨hlen, hperm⟩ := r.write_len buffers off [byte]
  have hold : ∀ x, b ≤ x ∧ x < b + r.len →
      (m.flat buffers).map x = some (r.cell (x - b), r.perm) := fun x hx =>
    map_of_find _ hm ((find_eq_some hm.disjoint).mpr ⟨hmem, hx⟩)
  have hmap := hold (b + off) ⟨by omega, by omega⟩
  rw [Nat.add_sub_cancel_left] at hmap
  obtain ⟨hgood, hview⟩ := flat_replace (r.write buffers off [byte]).2 hm hmem hlen hperm
  refine ⟨hgood, ?_⟩
  rw [Flat.set, hmap]
  obtain ⟨⟨pages, base⟩ | ⟨buffer, base⟩, rlen, perm⟩ := r
  · refine congrArg (Flat.mk · buffers) (funext fun x => (hview x).trans ?_)
    rw [Function.update_apply]
    by_cases hx : x = b + off
    · rw [if_pos hx, if_pos (by omega), hx]
      simp only [Region.write, Region.cell, Pages.byteAt_write, Nat.add_sub_cancel_left]
      simp
    · rw [if_neg hx]
      split_ifs with hin
      · rw [hold x hin]
        simp only [Region.write, Region.cell, Pages.byteAt_write, length_singleton]
        rw [if_neg (by omega)]
      · rfl
  · refine congrArg (Flat.mk · _) (funext fun x => (hview x).trans ?_)
    split_ifs with hin
    · exact (hold x hin).symm
    · rfl

theorem writeIn_spec (buffers : Buffers) (hm : Good m) {b off : ℕ} (hmem : (b, r) ∈ m.regions)
    (hdata : data ≠ []) (hfits : off + data.length ≤ r.len) (haddr : addr.toNat = b + off) :
    Good (m.writeIn buffers b r off data).1 ∧
      (m.writeIn buffers b r off data).1.flat (m.writeIn buffers b r off data).2 =
        (m.flat buffers).write addr data := by
  induction data generalizing m buffers r off addr with
  | nil => exact absurd rfl hdata
  | cons byte data ih =>
    rw [length_cons] at hfits
    obtain ⟨hgood, hfirst⟩ := writeIn_byte buffers hm hmem (by omega : off < r.len) byte
    rw [Flat.write, haddr, ← hfirst]
    cases data with
    | nil => exact ⟨hgood, rfl⟩
    | cons next data =>
      obtain ⟨hlen, hperm⟩ := r.write_len buffers off [byte]
      have hbound : b + r.len < 2 ^ 64 := hm.bounded _ hmem
      have hin : (b, (r.write buffers off [byte]).1) ∈
          (m.writeIn buffers b r off [byte]).1.regions :=
        mem_insert.mpr (.inl rfl)
      have hnext : (addr + 1).toNat = b + (off + 1) := by
        rw [BitVec.toNat_add, haddr, show (1 : Word).toNat = 1 from rfl,
          Nat.mod_eq_of_lt (by omega), Nat.add_assoc]
      have hroom : off + 1 + (next :: data).length ≤ (r.write buffers off [byte]).1.len := by
        omega
      obtain ⟨hrest, hflat⟩ := ih (r.write buffers off [byte]).2 hgood hin
        (cons_ne_nil _ _) hroom hnext
      -- the bytes one after the other leave the region as the whole write does
      obtain ⟨hlen', hperm'⟩ := r.write_len buffers off (byte :: next :: data)
      obtain ⟨hlen'', hperm''⟩ := (r.write buffers off [byte]).1.write_len
        (r.write buffers off [byte]).2 (off + 1) (next :: data)
      obtain ⟨hwhole, hview⟩ := flat_replace buffers hm hmem hlen' hperm'
      obtain ⟨-, hview₁⟩ := flat_replace buffers hm hmem hlen hperm
      obtain ⟨-, hview₂⟩ := flat_replace buffers hgood hin hlen'' hperm''
      have hcons := fun i => r.write_cons buffers off byte (next :: data) i
      refine ⟨hwhole, Eq.trans ?_ hflat⟩
      have hmaps : ((m.writeIn buffers b r off (byte :: next :: data)).1.flat buffers).map =
          (((m.writeIn buffers b r off [byte]).1.insert b
            ((r.write buffers off [byte]).1.write (r.write buffers off [byte]).2 (off + 1)
              (next :: data)).1).flat buffers).map := by
        funext x
        refine (hview x).trans ((hview₂ x).trans ?_).symm
        rw [hlen, hperm]
        split_ifs with hx
        · rw [(hcons (x - b)).1]
        · exact (hview₁ x).trans (if_neg hx)
      exact congrArg₂ Flat.mk hmaps (hcons 0).2

theorem writeSlow_spec (buffers : Buffers) (hm : Good m)
    (hmapped : ∀ k < data.length, ((m.flat buffers).map (addr + BitVec.ofNat 64 k).toNat).isSome =
      true) :
    ∃ next, m.writeSlow buffers addr data = .ok next ∧ Good next.1 ∧
      next.1.flat next.2 = (m.flat buffers).write addr data := by
  induction data generalizing m buffers addr with
  | nil => exact ⟨(m, buffers), rfl, hm, rfl⟩
  | cons byte data ih =>
    have hfirst : ((m.flat buffers).map addr.toNat).isSome = true := by
      simpa using hmapped 0 (Nat.succ_pos _)
    rw [writeSlow, Flat.write]
    cases hfind : m.find addr.toNat with
    | none =>
      rw [map_of_find_none hm hfind] at hfirst
      cases hfirst
    | some x =>
      obtain ⟨b, r⟩ := x
      obtain ⟨hmem, hcovers⟩ := (find_eq_some hm.disjoint).mp hfind
      have hleft : b ≤ addr.toNat := hcovers.1
      have hright : addr.toNat < b + r.len := hcovers.2
      obtain ⟨hgood, hflat⟩ := writeIn_byte buffers hm hmem
        (show addr.toNat - b < r.len by omega) byte
      rw [Nat.add_sub_cancel' hleft] at hflat
      rw [← hflat]
      refine ih _ hgood fun k hk => ?_
      rw [hflat, Flat.map_set_isSome, ← Flat.add_ofNat_succ]
      exact hmapped (k + 1) (Nat.succ_lt_succ hk)

theorem isSome_of_allowed {f : Flat} (hall : f.Allowed a addr len) :
    ∀ k < len, (f.map (addr + BitVec.ofNat 64 k).toNat).isSome = true := by
  intro k hk
  obtain ⟨cell, perm, hmap, -⟩ := hall k hk
  rw [hmap]
  rfl

theorem write_spec (hm : Good m) (hcontained : m.Contained buffers addr data.length) :
    (∃ next, m.write buffers addr data = .ok next ∧ Good next.1 ∧
        next.1.flat next.2 = (m.flat buffers).write addr data ∧
        (m.flat buffers).Allowed .write addr data.length) ∨
      (∃ fault, m.write buffers addr data = fail fault) ∧
        ¬(m.flat buffers).Allowed .write addr data.length := by
  rw [write]
  by_cases hdata : data = []
  · rw [hdata]
    exact .inl ⟨(m, buffers), rfl, hm, rfl, by rintro _ ⟨⟩⟩
  · have hpos : 0 < data.length := length_pos_of_ne_nil hdata
    rw [if_neg (by simpa using hdata)]
    rcases locate_spec hm hpos hcontained .write with
      ⟨b, r, hlocate, hfind, hin, hall⟩ | hlocate | ⟨⟨fault, hlocate⟩, hnot⟩
    · obtain ⟨hmem, hcovers⟩ := (find_eq_some hm.disjoint).mp hfind
      have hleft : b ≤ addr.toNat := hcovers.1
      have haddr : addr.toNat = b + (addr.toNat - b) := by omega
      obtain ⟨hgood, hflat⟩ := writeIn_spec buffers hm hmem hdata hin haddr
      rw [hlocate]
      exact .inl ⟨_, rfl, hgood.touch _ _, hflat, hall⟩
    · rw [hlocate]
      rcases checkSlow_spec buffers (a := .write) hm addr data.length with
        ⟨hcheck, hall⟩ | ⟨⟨fault, hcheck⟩, hnot⟩
      · obtain ⟨next, hwrite, hgood, hflat⟩ := writeSlow_spec buffers
          (m := m.touchWrite addr data.length) (hm.touch _ _) (isSome_of_allowed hall)
        rw [hcheck]
        exact .inl ⟨next, hwrite, hgood, hflat, hall⟩
      · rw [hcheck]
        exact .inr ⟨⟨fault, rfl⟩, hnot⟩
    · rw [hlocate]
      exact .inr ⟨⟨fault, rfl⟩, hnot⟩

end UserMemory

namespace UserMemory

variable {m : UserMemory} {buffers : Buffers}

/-! ## Mappings that replace -/

variable (buffers : Buffers) {base : ℕ}

theorem mapFixed_spec (hm : Good m) (hend : base + data.length < 2 ^ 64) (perm : Perm) :
    Good (m.mapFixed base data perm) ∧ (m.mapFixed base data perm).flat buffers =
      (m.flat buffers).place base data.length (fun k => .own (data.getD k 0)) perm := by
  rw [mapFixed]
  by_cases hdata : data = []
  · rw [hdata]
    exact ⟨hm, (Flat.place_zero _ _ _ _).symm⟩
  · rw [if_neg (by simpa using hdata), ← funext (Region.cell_own data perm)]
    exact insert_unmap _ (r := .own data perm) hm (length_pos_of_ne_nil hdata) hend

theorem mapZeroed_spec (hm : Good m) (hend : base + len < 2 ^ 64) (perm : Perm) :
    Good (m.mapZeroed base len perm) ∧ (m.mapZeroed base len perm).flat buffers =
      (m.flat buffers).place base len (fun _ => .own 0) perm := by
  rw [mapZeroed]
  split_ifs with hlen
  · rw [hlen]
    exact ⟨hm, (Flat.place_zero _ _ _ _).symm⟩
  · exact insert_unmap _ (r := .zeroed len perm) hm (Nat.pos_of_ne_zero hlen) hend

theorem mapShared_spec (hm : Good m) (hend : base + len < 2 ^ 64) (buffer off : ℕ)
    (perm : Perm) :
    Good (m.mapShared base buffer off len perm) ∧
      (m.mapShared base buffer off len perm).flat buffers =
        (m.flat buffers).place base len (fun k => .shared buffer (off + k)) perm := by
  rw [mapShared]
  split_ifs with hlen
  · rw [hlen]
    exact ⟨hm, (Flat.place_zero _ _ _ _).symm⟩
  · exact insert_unmap _ (r := ⟨.shared buffer off, len, perm⟩) hm (Nat.pos_of_ne_zero hlen) hend

/-- A mapping where nothing may be. -/
theorem map_spec (hm : Good m) (base : ℕ) (data : List Byte) (perm : Perm) :
    Good (m.map base data perm).2 ∧
      ((data ≠ [] ∧ base + data.length < 2 ^ 64 ∧
          ∀ x, base ≤ x → x < base + data.length → (m.flat buffers).map x = none) ∧
        (m.map base data perm).1 = .ok () ∧
        (m.map base data perm).2.flat buffers =
          (m.flat buffers).place base data.length (fun k => .own (data.getD k 0)) perm ∨
      ¬(data ≠ [] ∧ base + data.length < 2 ^ 64 ∧
          ∀ x, base ≤ x → x < base + data.length → (m.flat buffers).map x = none) ∧
        m.map base data perm = (.error ⟨base⟩, m)) := by
  rw [map]
  split_ifs with hlarge hused
  · refine ⟨hm, .inr ⟨fun hroom => ?_, rfl⟩⟩
    rw [maxAddr] at hlarge
    omega
  · refine ⟨hm, .inr ⟨fun hroom => ?_, rfl⟩⟩
    have hlt : base < base + data.length := Nat.lt_add_of_pos_right (length_pos_of_ne_nil hroom.1)
    have hfree := (overlaps_iff hm).mpr ((free_iff _ hm hlt).mpr hroom.2.2)
    rw [hfree, Bool.or_false] at hused
    exact hroom.1 (by simpa using hused)
  · rw [Bool.or_eq_true, not_or, Bool.not_eq_true, Bool.not_eq_true] at hused
    have hdata : data ≠ [] := by simpa using hused.1
    have hpos : 0 < data.length := length_pos_of_ne_nil hdata
    have hlt : base < base + data.length := Nat.lt_add_of_pos_right hpos
    have hend : base + data.length < 2 ^ 64 := by
      rw [maxAddr] at hlarge
      omega
    have hfree := (overlaps_iff hm).mp hused.2
    have htouched := hm.touch base (base + data.length)
    refine ⟨htouched.insert (r := .own data perm) hpos hend hfree,
      .inl ⟨⟨hdata, hend, (free_iff _ hm hlt).mp hfree⟩, rfl, ?_⟩⟩
    rw [← funext (Region.cell_own data perm)]
    exact flat_insert (r := .own data perm) htouched hpos hfree

end UserMemory

/-! ## Runs -/

/-- What a process does with its memory. -/
inductive Op where
  | map (base : ℕ) (data : List Byte) (perm : Perm)
  | mapFixed (base : ℕ) (data : List Byte) (perm : Perm)
  | mapZeroed (base len : ℕ) (perm : Perm)
  | mapShared (base buffer off len : ℕ) (perm : Perm)
  | remap (old len dst : ℕ)
  | remapDontunmap (old len dst : ℕ)
  | extend (stop extra : ℕ)
  | unmap (start stop : ℕ)
  | protect (start stop : ℕ) (perm : Perm)
  | read (addr : Word) (len : ℕ)
  | write (addr : Word) (data : List Byte)
  | fetch (addr : Word)

/-- What an operation gives. -/
inductive Answer where
  | done
  | bytes (data : List Byte)
  | word (value : ℕ)
  deriving Repr, DecidableEq

inductive OpError where
  | overlap (overlap : Overlap)
  | fault (fault : MemFault)
  deriving Repr, DecidableEq

/-- Memory of a process and the shared buffers. -/
structure State where
  memory : UserMemory
  buffers : Buffers

/-- The errors of the accesses. -/
def ofFault {A : Type} : Result MemFault A → Result OpError A
  | .ok value => .ok value
  | .error (.error fault) => fail (.fault fault)
  | .error .panic => panic
  | .error .hang => hang

def State.step (s : State) : Op → Result OpError Answer × State
  | .map base data perm =>
    let mapped := s.memory.map base data perm
    (match mapped.1 with
      | .ok () => .ok .done
      | .error e => fail (.overlap e), { s with memory := mapped.2 })
  | .mapFixed base data perm => (.ok .done, { s with memory := s.memory.mapFixed base data perm })
  | .mapZeroed base len perm => (.ok .done, { s with memory := s.memory.mapZeroed base len perm })
  | .mapShared base buffer off len perm =>
    (.ok .done, { s with memory := s.memory.mapShared base buffer off len perm })
  | .remap old len dst => (.ok .done, { s with memory := s.memory.remap old len dst })
  | .remapDontunmap old len dst =>
    (.ok .done, { s with memory := s.memory.remapDontunmap old len dst })
  | .extend stop extra => (.ok .done, { s with memory := s.memory.extend stop extra })
  | .unmap start stop => (.ok .done, { s with memory := s.memory.unmap start stop })
  | .protect start stop perm =>
    let changed := s.memory.protect start stop perm
    (match changed.1 with
      | .ok () => .ok .done
      | .error e => fail (.fault e), { s with memory := changed.2 })
  | .read addr len => ((ofFault (s.memory.read s.buffers addr len)).map .bytes, s)
  | .write addr data =>
    match s.memory.write s.buffers addr data with
    | .ok next => (.ok .done, ⟨next.1, next.2⟩)
    | .error e => (ofFault (.error e), s)
  | .fetch addr => ((ofFault (s.memory.fetch s.buffers addr)).map .word, s)

def State.flat (s : State) : Flat := s.memory.flat s.buffers

open Classical in
/-- The operations on the map of cells; `ends` says where mappings end. -/
noncomputable def Flat.step (ends : ℕ → Prop) (f : Flat) : Op → Option Answer × Flat
  | .map base data perm =>
    if data ≠ [] ∧ base + data.length < 2 ^ 64 ∧
        ∀ x, base ≤ x → x < base + data.length → f.map x = none then
      (some .done, f.place base data.length (fun k => .own (data.getD k 0)) perm)
    else (none, f)
  | .mapFixed base data perm =>
    (some .done, f.place base data.length (fun k => .own (data.getD k 0)) perm)
  | .mapZeroed base len perm => (some .done, f.place base len (fun _ => .own 0) perm)
  | .mapShared base buffer off len perm =>
    (some .done, f.place base len (fun k => .shared buffer (off + k)) perm)
  | .remap old len dst => (some .done, f.move old len dst)
  | .remapDontunmap old len dst => (some .done, f.moveCopy old len dst)
  | .extend stop extra => (some .done, if ends stop then f.extend stop extra else f)
  | .unmap start stop => (some .done, f.clear start stop)
  | .protect start stop perm =>
    if ∀ x, start ≤ x → x < stop → (f.map x).isSome then
      (some .done, f.protect start stop perm)
    else (none, f)
  | .read addr len =>
    if f.Allowed .read addr len then (some (.bytes (f.read addr len)), f) else (none, f)
  | .write addr data =>
    if f.Allowed .write addr data.length then (some .done, f.write addr data) else (none, f)
  | .fetch addr =>
    if f.Allowed .fetch addr 4 then (some (.word (ofLeBytes (f.read addr 4))), f) else (none, f)

/-- The outcome is an answer, or an error where there is none. -/
def Answers (outcome : Result OpError Answer) : Option Answer → Prop
  | some answer => outcome = .ok answer
  | none => ∃ e, outcome = fail e

/-- The range of a shared buffer that comes after the region stays below `2 ^ 64`. -/
def Region.Onward (r : Region) (extra : ℕ) : Prop :=
  ∀ buffer base, r.backing = .shared buffer base → base + r.len + extra < 2 ^ 64

/-- The ranges, of addresses and of shared buffers, do not wrap around, and the one that is
protected does not end before it starts. -/
def Op.NoWrap (s : State) : Op → Prop
  | .map _ _ _ | .read _ _ | .write _ _ | .fetch _ => True
  | .mapFixed base data _ => base + data.length < 2 ^ 64
  | .mapZeroed base len _ => base + len < 2 ^ 64
  | .mapShared base _ off len _ => base + len < 2 ^ 64 ∧ off + len < 2 ^ 64
  | .remap old len dst | .remapDontunmap old len dst => old + len < 2 ^ 64 ∧ dst + len < 2 ^ 64
  | .extend stop extra => stop + extra < 2 ^ 64 ∧
    ∀ b r, Intervals.before s.memory.regions stop = some (b, r) → r.Onward extra
  | .unmap _ stop => stop < 2 ^ 64
  | .protect start stop _ => start ≤ stop ∧ stop < 2 ^ 64

/-- A move that leaves the old range mapped goes to another range; an access is contained. -/
def Op.Apart (s : State) : Op → Prop
  | .remapDontunmap old len dst => old + len ≤ dst ∨ dst + len ≤ old
  | .read addr len => s.memory.Contained s.buffers addr len
  | .write addr data => s.memory.Contained s.buffers addr data.length
  | .fetch addr => s.memory.Contained s.buffers addr 4
  | _ => True

/-- States that runs reach when every step meets `ok`. -/
inductive State.Reached (ok : State → Op → Prop) : State → Prop where
  | new (buffers : Buffers) : State.Reached ok ⟨UserMemory.new, buffers⟩
  | step {s : State} (hreached : State.Reached ok s) (op : Op) (hok : ok s op) :
      State.Reached ok (s.step op).2

variable {s : State}

/-- One operation does what it does to the map. -/
theorem State.step_spec (hs : s.memory.Good) {op : Op} (hwrap : op.NoWrap s)
    (hapart : op.Apart s) : (s.step op).2.memory.Good ∧
      Answers (s.step op).1 (s.flat.step s.memory.EndsAt op).1 ∧
      (s.step op).2.flat = (s.flat.step s.memory.EndsAt op).2 := by
  obtain ⟨m, buffers⟩ := s
  have hf : State.flat ⟨m, buffers⟩ = m.flat buffers := rfl
  rw [hf]
  cases op with
  | map base data perm =>
    obtain ⟨hgood, ⟨hroom, hok, hflat⟩ | ⟨hnot, hfail⟩⟩ :=
      UserMemory.map_spec buffers hs base data perm
    · simp only [State.step, Flat.step, hok]
      rw [if_pos hroom]
      exact ⟨hgood, rfl, hflat⟩
    · simp only [State.step, Flat.step, hfail]
      rw [if_neg hnot]
      exact ⟨hs, ⟨_, rfl⟩, rfl⟩
  | mapFixed base data perm =>
    obtain ⟨hgood, hflat⟩ := UserMemory.mapFixed_spec buffers hs hwrap perm
    exact ⟨hgood, rfl, hflat⟩
  | mapZeroed base len perm =>
    obtain ⟨hgood, hflat⟩ := UserMemory.mapZeroed_spec buffers hs hwrap perm
    exact ⟨hgood, rfl, hflat⟩
  | mapShared base buffer off len perm =>
    obtain ⟨hgood, hflat⟩ := UserMemory.mapShared_spec buffers hs hwrap.1 buffer off perm
    exact ⟨hgood, rfl, hflat⟩
  | remap old len dst =>
    obtain ⟨hgood, hflat⟩ := UserMemory.remap_spec buffers hs old hwrap.2
    exact ⟨hgood, rfl, hflat⟩
  | remapDontunmap old len dst =>
    obtain ⟨hgood, hflat⟩ := UserMemory.remapDontunmap_spec buffers hs hwrap.1 hwrap.2 hapart
    exact ⟨hgood, rfl, hflat⟩
  | extend stop extra =>
    obtain ⟨hgood, hflat⟩ := UserMemory.extend_spec buffers hs hwrap.1
    refine ⟨hgood, rfl, hflat.trans ?_⟩
    congr
  | unmap start stop => exact ⟨hs.unmap start stop, rfl, UserMemory.flat_unmap hs start stop⟩
  | protect start stop perm =>
    by_cases hall : ∀ x, start ≤ x → x < stop → ((m.flat buffers).map x).isSome
    · obtain ⟨hok, hgood, hflat⟩ := UserMemory.protect_of_mapped hs perm hall
      simp only [State.step, Flat.step, hok]
      rw [if_pos hall]
      exact ⟨hgood, rfl, hflat⟩
    · simp only [State.step, Flat.step, UserMemory.protect_of_not_mapped hs perm hall]
      rw [if_neg hall]
      exact ⟨hs, ⟨_, rfl⟩, rfl⟩
  | read addr len =>
    simp only [State.step, Flat.step, UserMemory.read]
    by_cases hlen : len = 0
    · rw [if_pos hlen, hlen, if_pos (by rintro _ ⟨⟩)]
      exact ⟨hs, rfl, rfl⟩
    · rw [if_neg hlen]
      rcases UserMemory.load_spec hs (Nat.pos_of_ne_zero hlen) hapart .read with
        ⟨hload, hall⟩ | ⟨⟨fault, hload⟩, hnot⟩
      · rw [hload, if_pos hall]
        exact ⟨hs, rfl, rfl⟩
      · rw [hload, if_neg hnot]
        exact ⟨hs, ⟨_, rfl⟩, rfl⟩
  | write addr data =>
    simp only [State.step, Flat.step]
    rcases UserMemory.write_spec hs hapart with
      ⟨next, hwrite, hgood, hflat, hall⟩ | ⟨⟨fault, hwrite⟩, hnot⟩
    · rw [hwrite, if_pos hall]
      exact ⟨hgood, rfl, hflat⟩
    · rw [hwrite, if_neg hnot]
      exact ⟨hs, ⟨_, rfl⟩, rfl⟩
  | fetch addr =>
    simp only [State.step, Flat.step, UserMemory.fetch]
    rcases UserMemory.load_spec hs (by decide : 0 < 4) hapart .fetch with
      ⟨hload, hall⟩ | ⟨⟨fault, hload⟩, hnot⟩
    · rw [hload, if_pos hall]
      exact ⟨hs, rfl, rfl⟩
    · rw [hload, if_neg hnot]
      exact ⟨hs, ⟨_, rfl⟩, rfl⟩

end Vetro.User
