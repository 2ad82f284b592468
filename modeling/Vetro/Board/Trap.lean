import Vetro.Board.Ram

/-!
# The write trap of a deferred save

The counters of the trap are those of its bits and of its kept pages after every
operation, and every page that a save has still to take can be read as it was at
the start: writes keep the old bytes first.
-/

namespace Vetro.Board

open Bytes Mask Splice List Bool Finset Function

/-! ## Pages -/

variable {len : ℕ}

theorem mem_pagesOf {o i : ℕ} (hlen : len ≠ 0) :
    i ∈ pagesOf o len ↔ i * pageSize < o + len ∧ o < (i + 1) * pageSize := by
  rw [pagesOf, mem_range'_1, pageSize]
  omega

variable {i : ℕ}

theorem lt_pageCount : i < pageCount len ↔ i * pageSize < len := by
  rw [pageCount, pageSize]
  omega

@[simp]
theorem length_page (bytes : List Byte) (i : ℕ) :
    (page bytes i).length = pageLen bytes.length i := by
  rw [page, length_slice, pageLen, pageSize]
  omega

variable {data : List Byte}

/-- A write leaves the pages outside it as they are. -/
theorem page_writeAt {bytes : List Byte} {o i : ℕ} (hfits : o + data.length ≤ bytes.length)
    (hout : data ≠ [] → i ∉ pagesOf o data.length) :
    page (writeAt bytes o data) i = page bytes i := by
  by_cases hdata : data = []
  · rw [hdata, writeAt_nil]
  · have hlen : data.length ≠ 0 := by
      rw [Ne, length_eq_zero_iff]
      exact hdata
    have hcases := hout hdata
    rw [mem_pagesOf hlen, not_and_or, Nat.not_lt, Nat.not_lt] at hcases
    rw [page, page, length_writeAt hfits]
    rcases hcases with hafter | hbefore
    · exact slice_writeAt_after hfits hafter
    · refine slice_writeAt_before hfits ?_
      rw [pageLen]
      rw [Nat.add_mul, Nat.one_mul] at hbefore
      omega

theorem page_eq_slice (bytes : List Byte) (i : ℕ) :
    page bytes i = slice bytes (i * pageSize) ((i + 1) * pageSize) := by
  rw [page, Splice.slice, Splice.slice, pageLen, Nat.add_sub_cancel_left, Nat.add_mul,
    Nat.one_mul, Nat.add_sub_cancel_left, take_eq_take_iff, length_drop]
  omega

theorem take_pageCount (bytes : List Byte) :
    bytes.take (pageCount bytes.length * pageSize) = bytes := by
  refine take_of_length_le ?_
  rw [pageCount, pageSize]
  omega

/-! ## The counters -/

/-- Bytes of a page that may be kept. -/
def keptSize (kept : Option (List Byte)) : ℕ := (kept.map List.length).getD 0

/-- Bytes of the kept pages. -/
def keptTotal (len : ℕ) (kept : ℕ → Option (List Byte)) : ℕ :=
  ∑ i ∈ Finset.range (pageCount len), keptSize (kept i)

theorem keptTotal_update (hi : i < pageCount len) (kept : ℕ → Option (List Byte))
    (entry : Option (List Byte)) :
    keptTotal len (update kept i entry) + keptSize (kept i) =
      keptTotal len kept + keptSize entry := by
  have hmem : i ∈ Finset.range (pageCount len) := Finset.mem_range.mpr hi
  rw [keptTotal, keptTotal, ← add_sum_erase _ _ hmem,
    ← add_sum_erase _ (fun i => keptSize (kept i)) hmem, update_self]
  have hrest : ∑ j ∈ (Finset.range (pageCount len)).erase i,
      keptSize (update kept i entry j) =
        ∑ j ∈ (Finset.range (pageCount len)).erase i, keptSize (kept j) := by
    refine sum_congr rfl fun j hj => ?_
    rw [update_of_ne (ne_of_mem_erase hj)]
  omega

/-- The trap of a RAM of `len` bytes, with the counters that its bits and pages have. -/
structure Trap.Wf (len : ℕ) (trap : Trap) : Prop where
  words : trap.bits.length = wordCount len
  inside : ∀ i, Bitmap.test trap.bits i = true → i < pageCount len
  armed : trap.armed = (Bitmap.members trap.bits).card
  keptInside : ∀ i kept, trap.kept i = some kept → i < pageCount len ∧ kept.length = pageLen len i
  keptBytes : trap.keptBytes = keptTotal len trap.kept
  apart : ∀ i, Bitmap.test trap.bits i = true → trap.kept i = none

/-- No page is trapped, and none is kept. -/
def Trap.Idle (trap : Trap) : Prop :=
  (∀ i, Bitmap.test trap.bits i = false) ∧ ∀ i, trap.kept i = none

variable {trap : Trap}

theorem Trap.Wf.disarm (hwf : trap.Wf len) : trap.disarm.Wf len where
  words := by
    rw [Trap.disarm, length_replicate]
    exact hwf.words
  inside := by simp [Trap.disarm]
  armed := by
    refine (card_eq_zero.mpr (eq_empty_of_forall_notMem fun i => ?_)).symm
    simp [Trap.disarm]
  keptInside := by simp [Trap.disarm]
  keptBytes := by simp [Trap.disarm, keptTotal, keptSize]
  apart := by simp [Trap.disarm]

theorem Trap.idle_disarm (trap : Trap) : trap.disarm.Idle := by
  simp [Trap.Idle, Trap.disarm]

theorem pageCount_le (len : ℕ) : pageCount len ≤ 64 * wordCount len := by
  rw [wordCount]
  omega

variable {ram : Ram}

/-- Every page is trapped at the start. -/
theorem Ram.test_trapArm (hwf : ram.trap.Wf ram.size) (i : ℕ) :
    Bitmap.test ram.trapArm.2.trap.bits i = decide (i < ram.pages) := by
  refine Bitmap.test_first ?_ i
  rw [hwf.disarm.words]
  exact pageCount_le ram.size

theorem Ram.wf_trapArm (hwf : ram.trap.Wf ram.size) : ram.trapArm.2.trap.Wf ram.size := by
  have hdisarm := hwf.disarm
  exact {
    words := by
      have hwords := hdisarm.words
      simpa [Ram.trapArm, Bitmap.first] using hwords
    inside := by
      intro i htest
      rw [test_trapArm hwf, decide_eq_true_iff] at htest
      exact htest
    armed := by
      have hmembers : Bitmap.members ram.trapArm.2.trap.bits = Finset.range ram.pages := by
        ext i
        rw [Bitmap.mem_members, test_trapArm hwf, decide_eq_true_iff, Finset.mem_range]
      rw [hmembers, card_range]
      rfl
    keptInside := hdisarm.keptInside
    keptBytes := hdisarm.keptBytes
    apart := fun i _ => rfl }

/-- A page that is no longer trapped. -/
theorem Trap.Wf.clear (hwf : trap.Wf len) (htest : Bitmap.test trap.bits i = true) :
    Trap.Wf len { trap with bits := Bitmap.clear trap.bits i, armed := trap.armed - 1 } where
  words := (Bitmap.length_clear _ _).trans hwf.words
  inside := by
    intro j hj
    rw [Bitmap.test_clear, and_eq_true] at hj
    exact hwf.inside j hj.1
  armed := by
    have hmem : i ∈ Bitmap.members trap.bits := Bitmap.mem_members.mpr htest
    rw [Bitmap.members_clear, card_erase_of_mem hmem, ← hwf.armed]
  keptInside := hwf.keptInside
  keptBytes := hwf.keptBytes
  apart := by
    intro j hj
    rw [Bitmap.test_clear, and_eq_true] at hj
    exact hwf.apart j hj.1

/-- Another entry for a page. -/
theorem Trap.Wf.update {entry : Option (List Byte)} {bytes : ℕ} (hwf : trap.Wf len)
    (hinside : ∀ kept, entry = some kept → i < pageCount len ∧ kept.length = pageLen len i)
    (hapart : Bitmap.test trap.bits i = true → entry = none)
    (hbytes : bytes = keptTotal len (update trap.kept i entry)) :
    Trap.Wf len { trap with
      kept := update trap.kept i entry
      keptBytes := bytes } where
  words := hwf.words
  inside := hwf.inside
  armed := hwf.armed
  keptInside := (forall_update_iff trap.kept fun j (e : Option (List Byte)) =>
    ∀ kept, e = some kept → j < pageCount len ∧ kept.length = pageLen len j).mpr
      ⟨hinside, fun j _ => hwf.keptInside j⟩
  keptBytes := hbytes
  apart := (forall_update_iff trap.kept fun j (e : Option (List Byte)) =>
    Bitmap.test trap.bits j = true → e = none).mpr ⟨hapart, fun j _ => hwf.apart j⟩

/-- A page that is kept from now on. -/
theorem Trap.Wf.insert {kept : List Byte} (hwf : trap.Wf len) (hi : i < pageCount len)
    (hlength : kept.length = pageLen len i) (htest : Bitmap.test trap.bits i = false)
    (hnone : trap.kept i = none) :
    Trap.Wf len { trap with
      kept := Function.update trap.kept i (some kept)
      keptBytes := trap.keptBytes + pageLen len i } := by
  have hupdate := keptTotal_update hi trap.kept (some kept)
  rw [hnone, show keptSize (some kept) = pageLen len i from hlength] at hupdate
  refine hwf.update ?_ (fun hset => absurd hset (by simp [htest])) ?_
  · rintro _ ⟨⟩
    exact ⟨hi, hlength⟩
  · rw [hwf.keptBytes, ← hupdate]
    rfl

/-- A kept page that is taken. -/
theorem Trap.Wf.remove {kept : List Byte} (hwf : trap.Wf len)
    (hkept : trap.kept i = some kept) :
    Trap.Wf len { trap with
      kept := Function.update trap.kept i none
      keptBytes := trap.keptBytes - pageLen len i } := by
  obtain ⟨hi, hlength⟩ := hwf.keptInside i kept hkept
  have hupdate := keptTotal_update hi trap.kept none
  rw [hkept, show keptSize (some kept) = pageLen len i from hlength] at hupdate
  refine hwf.update (by simp) (fun _ => rfl) ?_
  rw [hwf.keptBytes]
  exact (Nat.eq_sub_of_add_eq hupdate).symm

/-! ## Changes of the RAM while a save is in progress -/

/-- The pages from `start` on can be read as they were in `image`. -/
def Ram.Holds (ram : Ram) (image : List Byte) (start : ℕ) : Prop :=
  PointInTime.Holds (page image) (page ram.bytes) (Bitmap.test ram.trap.bits) ram.trap.kept
    (fun i => start ≤ i ∧ i < ram.pages)

/-- What a write does to the trap: it keeps the counters, and the pages of a save. -/
structure Ram.Guarded (ram next : Ram) : Prop where
  size : next.size = ram.size
  epoch : next.trap.epoch = ram.trap.epoch
  wf : ram.trap.Wf ram.size → next.trap.Wf next.size
  idle : ram.trap.Idle → next.trap.Idle
  holds : ∀ {image start}, ram.trap.Wf ram.size → ram.Holds image start → next.Holds image start

namespace Ram.Guarded

variable {ram next last : Ram}

theorem refl (ram : Ram) : Guarded ram ram where
  size := rfl
  epoch := rfl
  wf := id
  idle := id
  holds := fun _ => id

theorem trans (hfirst : Guarded ram next) (hsecond : Guarded next last) : Guarded ram last where
  size := hsecond.size.trans hfirst.size
  epoch := hsecond.epoch.trans hfirst.epoch
  wf := fun hwf => hsecond.wf (hfirst.wf hwf)
  idle := fun hidle => hsecond.idle (hfirst.idle hidle)
  holds := fun hwf hholds => hsecond.holds (hfirst.wf hwf) (hfirst.holds hwf hholds)

theorem foldl {A : Type*} {f : Ram → A → Ram} (hstep : ∀ ram a, Guarded ram (f ram a))
    (list : List A) (ram : Ram) : Guarded ram (list.foldl f ram) := by
  induction list generalizing ram with
  | nil => exact refl ram
  | cons a list ih => exact (hstep ram a).trans (ih (f ram a))

end Ram.Guarded

/-- A page that a write keeps. -/
theorem Ram.guarded_keepPage (ram : Ram) (i : ℕ) : Guarded ram (ram.keepPage i) := by
  by_cases htest : Bitmap.test ram.trap.bits i = true
  · rw [keepPage, if_pos htest]
    exact {
      size := rfl
      epoch := rfl
      wf := fun hwf => (hwf.clear htest).insert (hwf.inside i htest) (length_page ram.bytes i)
        (by simp [Bitmap.test_clear]) (hwf.apart i htest)
      idle := fun hidle => absurd htest (by simp [hidle.1 i])
      holds := fun _ hholds => hholds.keep htest (Bitmap.test_clear ram.trap.bits i) }
  · rw [keepPage, if_neg htest]
    exact Guarded.refl ram

theorem Ram.guarded_keep (ram : Ram) (o len : ℕ) : Guarded ram (ram.keep o len) :=
  Guarded.foldl guarded_keepPage (pagesOf o len) ram

theorem Ram.bytes_keepPage (ram : Ram) (i : ℕ) : (ram.keepPage i).bytes = ram.bytes := by
  rw [keepPage]
  split_ifs <;> rfl

/-- None of the pages that are kept is trapped. -/
theorem Ram.foldl_keepPage (list : List ℕ) (ram : Ram) :
    (list.foldl keepPage ram).bytes = ram.bytes ∧
      ∀ j, Bitmap.test (list.foldl keepPage ram).trap.bits j = true →
        Bitmap.test ram.trap.bits j = true ∧ j ∉ list := by
  induction list generalizing ram with
  | nil => exact ⟨rfl, fun j htest => ⟨htest, not_mem_nil⟩⟩
  | cons i list ih =>
    obtain ⟨hbytes, hpending⟩ := ih (ram.keepPage i)
    refine ⟨hbytes.trans (ram.bytes_keepPage i), fun j htest => ?_⟩
    obtain ⟨hj, hout⟩ := hpending j htest
    have hfirst : Bitmap.test ram.trap.bits j = true ∧ j ≠ i := by
      by_cases hi : Bitmap.test ram.trap.bits i = true
      · rw [keepPage, if_pos hi, Bitmap.test_clear, and_eq_true, decide_eq_true_iff] at hj
        exact hj
      · rw [keepPage, if_neg hi] at hj
        refine ⟨hj, ?_⟩
        rintro rfl
        exact hi hj
    exact ⟨hfirst.1, by simp [hfirst.2, hout]⟩

theorem Trap.Wf.test_of_armed (hwf : trap.Wf len) (harmed : trap.armed = 0) (i : ℕ) :
    Bitmap.test trap.bits i = false := by
  have hempty := card_eq_zero.mp (hwf.armed.symm.trans harmed)
  have hout : i ∉ Bitmap.members trap.bits := by
    rw [hempty]
    exact notMem_empty i
  rw [Bitmap.mem_members, not_eq_true] at hout
  exact hout

/-- Bytes that change in pages that are not trapped. -/
theorem Ram.guarded_store {o : ℕ} (hfits : o + data.length ≤ ram.size)
    (hout : ram.trap.Wf ram.size → data ≠ [] → ∀ i ∈ pagesOf o data.length,
      Bitmap.test ram.trap.bits i = false) : Guarded ram (ram.store o data) := by
  have hsize : (ram.store o data).size = ram.size := length_writeAt hfits
  exact {
    size := hsize
    epoch := rfl
    wf := by
      intro hwf
      rw [hsize]
      exact hwf
    idle := id
    holds := by
      intro image start hwf hholds
      rw [Holds, pages, hsize]
      refine hholds.change fun i hpending => page_writeAt hfits fun hdata hmem => ?_
      rw [hout hwf hdata i hmem] at hpending
      cases hpending }

theorem Ram.guarded_touch (ram : Ram) (o len : ℕ) : Guarded ram (ram.touch o len).2 := by
  rw [touch]
  split_ifs
  · exact Guarded.refl ram
  · exact {
      size := rfl
      epoch := rfl
      wf := id
      idle := id
      holds := fun _ => id }

/-- The old bytes are safe before a write. -/
theorem Ram.guarded_beforeWrite (ram : Ram) (o len : ℕ) :
    Guarded ram (ram.beforeWrite o len) ∧ (ram.beforeWrite o len).bytes = ram.bytes ∧
      ((ram.beforeWrite o len).trap.Wf (ram.beforeWrite o len).size → len ≠ 0 →
        ∀ i ∈ pagesOf o len, Bitmap.test (ram.beforeWrite o len).trap.bits i = false) := by
  obtain ⟨hbytes, hpending⟩ := foldl_keepPage (pagesOf o len) ram
  rw [beforeWrite]
  split_ifs with harmed
  · refine ⟨ram.guarded_keep o len, hbytes, fun _ _ i hi => ?_⟩
    by_contra htest
    exact (hpending i (not_eq_false _ ▸ htest)).2 hi
  · refine ⟨Guarded.refl ram, rfl, fun hwf hlen i _ => hwf.test_of_armed ?_ i⟩
    by_contra hne
    exact harmed ⟨hne, hlen⟩

theorem Ram.range_eq_some {pa o : ℕ} (hrange : ram.range pa len = some o) : o + len ≤ ram.size := by
  rw [range] at hrange
  split_ifs at hrange with hinside
  rw [← Option.some.inj hrange]
  exact hinside.2

/-- Bytes that are written after the old ones were kept. -/
theorem Ram.guarded_overwrite {o : ℕ} (hfits : o + data.length ≤ ram.size) :
    Guarded ram ((ram.beforeWrite o data.length).store o data) := by
  obtain ⟨hguarded, hbytes, hclear⟩ := ram.guarded_beforeWrite o data.length
  have hnext : o + data.length ≤ (ram.beforeWrite o data.length).size := by
    rw [hguarded.size]
    exact hfits
  refine hguarded.trans (guarded_store hnext fun hwf hdata => hclear hwf ?_)
  rw [Ne, length_eq_zero_iff]
  exact hdata

theorem Ram.guarded_writeWatched (ram : Ram) (pa : ℕ) (data : List Byte) :
    Guarded ram (ram.writeWatched pa data).2 := by
  rw [writeWatched]
  cases hrange : ram.range pa data.length with
  | none => exact Guarded.refl ram
  | some o => exact (guarded_overwrite (range_eq_some hrange)).trans (guarded_touch _ _ _)

theorem Ram.guarded_cmpxchg (ram : Ram) (pa : ℕ) (old new : List Byte) :
    Guarded ram (ram.cmpxchg pa old new).2 := by
  rw [cmpxchg]
  split_ifs with hshape
  · exact Guarded.refl ram
  · have hlength : old.length = new.length := by
      by_contra hne
      exact hshape (Or.inl hne)
    cases hrange : ram.range pa old.length with
    | none => exact Guarded.refl ram
    | some o =>
      dsimp only
      split_ifs with hequal
      · have hfits := range_eq_some hrange
        rw [hlength] at hfits ⊢
        exact (guarded_overwrite hfits).trans (guarded_touch _ _ _)
      · exact (ram.guarded_beforeWrite o old.length).1

/-- The answer that the writers get who do not go through `write`. -/
theorem Ram.writeTrapped_eq (hwf : ram.trap.Wf ram.size) (i : ℕ) :
    ram.writeTrapped (ramBase / pageSize + i) = Bitmap.test ram.trap.bits i := by
  have haddress : (ramBase / pageSize + i) * pageSize = ramBase + i * pageSize := by
    rw [Nat.add_mul]
    rfl
  rw [writeTrapped]
  split_ifs with harmed
  · rw [hwf.test_of_armed harmed]
  · rw [haddress]
    dsimp only
    rw [Nat.add_sub_cancel_left, Nat.mul_div_cancel _ (by decide : 0 < pageSize)]
    by_cases hinside : i * pageSize < ram.size
    · rw [if_pos ⟨Nat.le_add_right _ _, hinside⟩]
    · rw [if_neg (fun h => hinside h.2)]
      by_contra hne
      exact hinside (lt_pageCount.mp (hwf.inside i (eq_true_of_not_eq_false (Ne.symm hne))))

theorem Ram.guarded_writeDirect (ram : Ram) (pa : ℕ) (data : List Byte) :
    Guarded ram (ram.writeDirect pa data) := by
  rw [writeDirect]
  cases hrange : ram.range pa data.length with
  | none => exact Guarded.refl ram
  | some o =>
    dsimp only
    split_ifs with htrapped
    · exact Guarded.refl ram
    · refine guarded_store (range_eq_some hrange) fun hwf hdata i hi => ?_
      by_contra htest
      rw [← writeTrapped_eq hwf, not_eq_false] at htest
      exact htrapped ⟨hdata, i, hi, htest⟩

/-! ## Taking the pages -/

theorem test_clear_of_lt {words : List Word} {i j : ℕ} (hlt : i < j) :
    Bitmap.test (Bitmap.clear words i) j = Bitmap.test words j := by
  rw [Bitmap.test_clear, decide_eq_true (Nat.ne_of_gt hlt), Bool.and_true]

/-- The pages that a save takes are those of its start. -/
theorem Ram.takePages_eq {image : List Byte} {start count : ℕ} (out : List Byte)
    (hwf : ram.trap.Wf ram.size) (hholds : ram.Holds image start)
    (hcount : start + count ≤ ram.pages) :
    ∃ next : Ram,
      takePages (List.range' start count) ram out =
        (true, next, out ++ slice image (start * pageSize) ((start + count) * pageSize)) ∧
      next.bytes = ram.bytes ∧ next.trap.epoch = ram.trap.epoch ∧ next.trap.Wf next.size ∧
      next.Holds image (start + count) := by
  induction count generalizing ram start out with
  | zero =>
    refine ⟨ram, ?_, rfl, rfl, hwf, hholds⟩
    rw [Nat.add_zero, slice_self, append_nil]
    rfl
  | succ count ih =>
    have hinside : start < ram.pages := by omega
    have hfewer : start + 1 + count ≤ ram.pages := by omega
    have hsum : start + (count + 1) = start + 1 + count := by omega
    have hslice : slice image (start * pageSize) ((start + 1 + count) * pageSize) =
        page image start ++
          slice image ((start + 1) * pageSize) ((start + 1 + count) * pageSize) := by
      rw [page_eq_slice, slice_append_slice]
      · exact Nat.mul_le_mul_right _ (by omega)
      · exact Nat.mul_le_mul_right _ (by omega)
    have hread := hholds.read ⟨le_refl start, hinside⟩
    have hlater : ∀ i, start + 1 ≤ i ∧ i < ram.pages → start ≤ i ∧ i < ram.pages := by
      intro i hi
      omega
    rw [List.range'_succ, takePages, hsum, hslice, ← append_assoc]
    split_ifs at hread ⊢ with htest
    · rw [Option.some.inj hread]
      have hnext := (hholds.mono hlater).congr (fun i hi => test_clear_of_lt hi.1) (fun i _ => rfl)
      exact ih _ (hwf.clear htest) hnext hfewer
    · rw [hread]
      have hkept : ∀ i, start + 1 ≤ i ∧ i < ram.pages →
          update ram.trap.kept start none i = ram.trap.kept i := by
        intro i hi
        rw [update_of_ne (Nat.ne_of_gt hi.1)]
      have hnext := (hholds.mono hlater).congr (fun i _ => rfl) hkept
      exact ih _ (hwf.remove hread) hnext hfewer

end Vetro.Board
