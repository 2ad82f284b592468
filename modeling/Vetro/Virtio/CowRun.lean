import Vetro.Virtio.Cow

/-!
# Requests to the copy-on-write disk

A request that finds the base without its data is repeated until it does not.
What a write has already written when it fails is a beginning of its data, and
writing all of it again hides that.
-/

namespace Vetro.Blk

open Bytes Outcome Splice List

/-! ## Requests -/

/-- A read into a buffer or a write. -/
inductive Request where
  | read (sector : ℕ) (buf : List Byte)
  | write (sector : ℕ) (data : List Byte)

/-- A request to the copy-on-write disk. -/
def Cow.attempt (s : Cow) : Request → Result BlockError (List Byte) × Cow
  | .read sector buf =>
    let read := s.readSectors sector buf
    (read.1.map fun _ => read.2.2, read.2.1)
  | .write sector data =>
    let written := s.writeSectors sector data
    (written.1.map fun _ => [], written.2)

/-- The request to a flat disk. -/
def serve (disk : List Byte) : Request → Result BlockError (List Byte) × List Byte
  | .read sector buf =>
    match byteRange disk.length sector buf.length with
    | .error e => (fail e, disk)
    | .ok (start, stop) => (.ok (slice disk start stop), disk)
  | .write sector data =>
    match byteRange disk.length sector data.length with
    | .error e => (fail e, disk)
    | .ok (start, _) => (.ok [], writeAt disk start data)

/-- Runs over a base: the disk, the flat disk, the request that waits to be repeated, and
what the disk showed when the dirty clusters were last taken. -/
inductive Run (base : Base) : Cow → List Byte → Option Request → List Byte → Prop where
  | new : Run base (Cow.new base) base.data none base.data
  | again {s : Cow} {disk clean : List Byte} {pending : Option Request}
      (hrun : Run base s disk pending clean) (request : Request)
      (hpending : ∀ r ∈ pending, r = request)
      (hfailed : (s.attempt request).1 = fail .notReady) :
      Run base (s.attempt request).2 disk (some request) clean
  | done {s : Cow} {disk clean : List Byte} {pending : Option Request}
      (hrun : Run base s disk pending clean) (request : Request)
      (hpending : ∀ r ∈ pending, r = request)
      (hdone : (s.attempt request).1 ≠ fail .notReady) :
      Run base (s.attempt request).2 (serve disk request).2 none clean
  | takeDirty {s : Cow} {disk clean : List Byte} {pending : Option Request}
      (hrun : Run base s disk pending clean) : Run base s.takeDirty.2 disk pending s.flat

/-- A disk with some of the request that waits. -/
def Partly (disk : List Byte) (pending : Option Request) (shown : List Byte) : Prop :=
  shown = disk ∨ ∃ sector data start stop done, pending = some (.write sector data) ∧
    byteRange disk.length sector data.length = .ok (start, stop) ∧
    done ≤ data.length ∧ shown = writeAt disk start (data.take done)

theorem length_flat (s : Cow) : s.flat.length = s.size := by
  rw [Cow.flat, length_map, length_range]

theorem getElem?_flat (s : Cow) {p : ℕ} (hp : p < s.size) : s.flat[p]? = some (s.get p) := by
  rw [Cow.flat, List.getElem?_map, List.getElem?_range hp, Option.map_some]

variable {data : List Byte} {s : Cow}

/-- What a write has done so far, on the disk as a byte array. -/
theorem flat_of_written {s' : Cow} {start done : ℕ} (hwritten : Cow.Written s start data done s')
    (hdone : done ≤ data.length) (hend : start + data.length ≤ s.size) :
    s'.flat = writeAt s.flat start (data.take done) := by
  have hsize : s'.size = s.size := hwritten.base.size
  have hlength : (data.take done).length = done := by
    rw [length_take]
    omega
  have hfits : start + (data.take done).length ≤ s.flat.length := by
    rw [hlength, length_flat]
    omega
  apply ext_getElem?
  intro p
  rw [getElem?_writeAt hfits, hlength]
  rcases Nat.lt_or_ge p s.size with hp | hp
  · rw [getElem?_flat s' (hsize ▸ hp), getElem?_flat s hp, hwritten.get p hp]
    split_ifs with hrange hbefore hinside hbefore hinside
    · omega
    · rw [List.getElem?_take_of_lt (by omega), getD_eq_getElem?_getD,
        List.getElem?_eq_getElem (by omega), Option.getD_some]
    · omega
    · rfl
    · omega
    · rfl
  · rw [if_neg (by omega), if_neg (by omega), List.getElem?_eq_none (by rw [length_flat]; omega),
      List.getElem?_eq_none (by rw [length_flat]; omega)]

/-- What holds in every run. -/
structure Kept (base : Base) (s : Cow) (disk : List Byte) (pending : Option Request)
    (clean : List Byte) : Prop where
  good : s.Good
  later : Cow.BaseLater base s.base
  length : disk.length = base.size
  shown : Partly disk pending s.flat
  dirty : ∀ p < base.size, s.flat[p]? ≠ clean[p]? → p / Cow.cluster ∈ s.dirty

namespace Kept

variable {base : Base} {s : Cow} {disk clean : List Byte} {pending : Option Request}

variable (hs : Kept base s disk pending clean)
include hs

theorem size : s.size = base.size := hs.later.size

theorem unchanged {s' : Cow} (hsame : Cow.Unchanged s s') : Kept base s' disk pending clean := by
  have hflat : s'.flat = s.flat := by
    rw [Cow.flat, Cow.flat, funext hsame.get]
    congr 2
    exact hsame.base.size
  refine ⟨hsame.good hs.good, hs.later.trans hsame.base, hs.length, hflat.symm ▸ hs.shown, ?_⟩
  rw [hflat, hsame.dirty]
  exact hs.dirty

/-- The clusters that a write changed are dirty. -/
theorem dirty_of_written {s' : Cow} {start done : ℕ} (hwritten : Cow.Written s start data done s')
    {p : ℕ} (hp : p < base.size) (hne : s'.flat[p]? ≠ clean[p]?) : p / Cow.cluster ∈ s'.dirty := by
  have hp' : p < s.size := hs.size ▸ hp
  have hsize : s'.size = s.size := hwritten.base.size
  rw [getElem?_flat s' (hsize ▸ hp')] at hne
  by_cases hsame : s'.get p = s.get p
  · refine hwritten.kept (hs.dirty p hp ?_)
    rw [getElem?_flat s hp', ← hsame]
    exact hne
  · exact hwritten.dirty p hp' hsame

end Kept

/-- Writes of two beginnings of the same data. -/
theorem writeAt_take_take {disk : List Byte} {start first second : ℕ} (hfirst : first ≤ data.length)
    (hsecond : second ≤ data.length) (hend : start + data.length ≤ disk.length) :
    writeAt (writeAt disk start (data.take first)) start (data.take second) =
      writeAt disk start (data.take (max first second)) := by
  have hlength : ∀ n ≤ data.length, (data.take n).length = n := by
    intro n hn
    rw [length_take]
    omega
  have hfits : ∀ n ≤ data.length, start + (data.take n).length ≤ disk.length := by
    intro n hn
    rw [hlength n hn]
    omega
  have hmax : max first second ≤ data.length := by omega
  apply ext_getElem?
  intro p
  rw [getElem?_writeAt (by rw [length_writeAt (hfits first hfirst)]; exact hfits second hsecond),
    getElem?_writeAt (hfits first hfirst), getElem?_writeAt (hfits _ hmax), hlength first hfirst,
    hlength second hsecond, hlength _ hmax]
  split_ifs with hbefore hin hin' hin' hin' hin'
  · rfl
  · rw [List.getElem?_take_of_lt (by omega), List.getElem?_take_of_lt (by omega)]
  · omega
  · rw [List.getElem?_take_of_lt (by omega), List.getElem?_take_of_lt (by omega)]
  · omega
  · omega
  · rfl

variable {pending : Option Request} {base : Base} {disk clean : List Byte}

/-- A request that waits: read requests have changed nothing, and a write has written a
beginning of its data. -/
theorem Kept.shown_of_pending (hs : Kept base s disk pending clean)
    {request : Request} (hpending : ∀ r ∈ pending, r = request) :
    s.flat = disk ∨ ∃ sector data start stop done, request = .write sector data ∧
      byteRange disk.length sector data.length = .ok (start, stop) ∧ done ≤ data.length ∧
      s.flat = writeAt disk start (data.take done) := by
  rcases hs.shown with hsame | ⟨sector, data, start, stop, done, rfl, hrange, hdone, hshown⟩
  · exact .inl hsame
  · exact .inr ⟨sector, data, start, stop, done, (hpending _ rfl).symm, hrange, hdone, hshown⟩

/-- One attempt: not ready, or what the flat disk does. -/
theorem attempt_spec (hs : Kept base s disk pending clean)
    {request : Request} (hpending : ∀ r ∈ pending, r = request) :
    ((s.attempt request).1 = fail .notReady ∧
        Kept base (s.attempt request).2 disk (some request) clean ∧
        (∃ n, s.base.asked ≤ n ∧ s.base.ready n = false) ∧
        ∀ e, (serve disk request).1 ≠ fail e) ∨
      (s.attempt request).1 = (serve disk request).1 ∧ (s.attempt request).1 ≠ fail .notReady ∧
        Kept base (s.attempt request).2 (serve disk request).2 none clean ∧
        ∀ e, (serve disk request).1 = fail e → (s.attempt request).2 = s := by
  have hsize : s.size = disk.length := hs.size.trans hs.length.symm
  have hout : ∀ {e : BlockError}, e = .outOfRange →
      (fail e : Result BlockError (List Byte)) ≠ fail .notReady := by
    rintro e rfl heq
    cases heq
  cases request with
  | read sector buf =>
    have hshown : s.flat = disk := by
      rcases hs.shown_of_pending hpending with hsame | ⟨_, _, _, _, _, hwrite, -⟩
      · exact hsame
      · cases hwrite
    have hnone : Kept base s disk none clean :=
      ⟨hs.good, hs.later, hs.length, .inl hshown, hs.dirty⟩
    have hsome : Kept base s disk (some (.read sector buf)) clean :=
      ⟨hs.good, hs.later, hs.length, .inl hshown, hs.dirty⟩
    simp only [Cow.attempt, serve]
    rw [← hsize]
    cases hrange : byteRange s.size sector buf.length with
    | error e =>
      rw [Cow.readSectors, hrange]
      exact .inr ⟨rfl, hout (Cow.byteRange_eq_error hrange), hnone, fun _ _ => rfl⟩
    | ok range =>
      rcases Cow.readSectors_spec hs.good hrange with
        ⟨s', bytes, heq, hsame, rfl⟩ | ⟨s', bytes, heq, hsame, hready⟩
      · rw [heq, ← hshown]
        exact .inr ⟨rfl, by rintro ⟨⟩, hshown.symm ▸ hnone.unchanged hsame, by rintro _ ⟨⟩⟩
      · rw [heq]
        exact .inl ⟨rfl, hsome.unchanged hsame, hready, by rintro _ ⟨⟩⟩
  | write sector data =>
    simp only [Cow.attempt, serve]
    rw [← hsize]
    cases hrange : byteRange s.size sector data.length with
    | error e =>
      have hshown : s.flat = disk := by
        rcases hs.shown_of_pending hpending with hsame | ⟨_, _, start, stop, _, hwrite, hok, -⟩
        · exact hsame
        · cases hwrite
          rw [← hsize, hrange] at hok
          cases hok
      rw [Cow.writeSectors, hrange]
      exact .inr ⟨rfl, hout (Cow.byteRange_eq_error hrange),
        ⟨hs.good, hs.later, hs.length, .inl hshown, hs.dirty⟩, fun _ _ => rfl⟩
    | ok range =>
      obtain ⟨start, stop⟩ := range
      have hend : start + data.length ≤ s.size := by
        obtain ⟨-, hend, -, hpair⟩ := Cow.byteRange_eq_ok.mp hrange
        cases hpair
        exact hend
      -- the write goes over what it has written before
      have hover : ∀ done ≤ data.length, ∃ done', done ≤ done' ∧ done' ≤ data.length ∧
          writeAt s.flat start (data.take done) = writeAt disk start (data.take done') := by
        intro done hdone
        rcases hs.shown_of_pending hpending with hsame | ⟨_, _, start', _, before, hwrite, hok,
          hbefore, hpart⟩
        · exact ⟨done, le_refl _, hdone, by rw [hsame]⟩
        · cases hwrite
          rw [← hsize, hrange] at hok
          cases hok
          refine ⟨max before done, Nat.le_max_right _ _, by omega, ?_⟩
          rw [hpart, writeAt_take_take hbefore hdone (hsize ▸ hend)]
      rcases Cow.writeSectors_spec hs.good hrange with
        ⟨s', heq, hwritten⟩ | ⟨s', done, heq, hwritten, hdone, hready⟩
      · obtain ⟨all, hle, hle', hflat⟩ := hover data.length (le_refl _)
        have hall : all = data.length := Nat.le_antisymm hle' hle
        rw [heq]
        refine .inr ⟨rfl, by rintro ⟨⟩, ⟨hwritten.good, hs.later.trans hwritten.base, ?_, .inl ?_,
          fun p hp => hs.dirty_of_written hwritten hp⟩, by rintro _ ⟨⟩⟩
        · rw [length_writeAt (hsize ▸ hend)]
          exact hs.length
        · rw [flat_of_written hwritten (le_refl _) hend, hflat, hall, take_length]
      · obtain ⟨done', -, hle', hflat⟩ := hover done hdone
        rw [heq]
        refine .inl ⟨rfl, ⟨hwritten.good, hs.later.trans hwritten.base, hs.length, .inr ?_,
          fun p hp => hs.dirty_of_written hwritten hp⟩, hready, by rintro _ ⟨⟩⟩
        refine ⟨sector, data, start, stop, done', rfl, hsize ▸ hrange, hle', ?_⟩
        rw [flat_of_written hwritten hdone hend, hflat]

theorem Kept.run (hrun : Run base s disk pending clean) :
    Kept base s disk pending clean := by
  induction hrun with
  | new =>
    have hflat : (Cow.new base).flat = base.data := by
      apply ext_getElem?
      intro p
      rcases Nat.lt_or_ge p base.data.length with hp | hp
      · have hget : (Cow.new base).get p = base.data.getD p 0 := rfl
        rw [getElem?_flat _ (show p < (Cow.new base).size from hp), hget,
          getD_eq_getElem?_getD, List.getElem?_eq_getElem hp, Option.getD_some]
      · rw [List.getElem?_eq_none (by rw [length_flat]; exact hp), List.getElem?_eq_none hp]
    exact ⟨(by rintro _ _ ⟨⟩), .refl _, rfl, .inl hflat, fun p _ hne => absurd (by rw [hflat]) hne⟩
  | again _ request hpending hfailed ih =>
    rcases attempt_spec ih hpending with ⟨-, hkept, -⟩ | ⟨-, hne, -⟩
    · exact hkept
    · exact absurd hfailed hne
  | done _ request hpending hdone ih =>
    rcases attempt_spec ih hpending with ⟨hfailed, -⟩ | ⟨-, -, hkept, -⟩
    · exact absurd hfailed hdone
    · exact hkept
  | takeDirty _ ih =>
    exact ⟨ih.good, ih.later, ih.length, ih.shown, fun p _ hne => absurd rfl hne⟩

/-- In every run: between requests the disk shows what a flat disk would have, the base has
the data it had, and the clusters that changed since they were last taken are dirty; every
request that is not put off gives what it gives on the flat disk, is not put off if the base is
ready, and changes nothing if it is refused. -/
theorem cow_refines_flat {base : Base} {s : Cow} {disk clean : List Byte}
    {pending : Option Request} (hrun : Run base s disk pending clean) :
    (pending = none → s.flat = disk) ∧ s.base.data = base.data ∧
      (∀ p < base.size, s.flat[p]? ≠ clean[p]? → p / Cow.cluster ∈ s.dirty) ∧
      ∀ request, (∀ r ∈ pending, r = request) →
        ((s.attempt request).1 ≠ fail .notReady ∨ (∀ n, s.base.asked ≤ n → s.base.ready n = true) →
          (s.attempt request).1 = (serve disk request).1) ∧
        ∀ e, (serve disk request).1 = fail e → s.attempt request = (fail e, s) := by
  have hs := Kept.run hrun
  refine ⟨fun hnone => ?_, hs.later.data, hs.dirty, fun request hpending => ?_⟩
  · rcases hs.shown with hsame | ⟨_, _, _, _, _, hwrite, -⟩
    · exact hsame
    · rw [hnone] at hwrite
      cases hwrite
  · rcases attempt_spec hs hpending with
      ⟨hfailed, hkept, ⟨n, hn, hready⟩, hserved⟩ | ⟨heq, -, -, herror⟩
    · constructor
      · rintro (hne | hall)
        · exact absurd hfailed hne
        · rw [hall n hn] at hready
          cases hready
      · exact fun e he => absurd he (hserved e)
    · exact ⟨fun _ => heq, fun e he => Prod.ext (heq.trans he) (herror e he)⟩

/-- A disk of a cluster and two sectors that is not ready for the second read. -/
def lateBase : Base where
  data := List.replicate 5120 7
  whole := by rw [length_replicate]; rfl
  small := by rw [length_replicate]; decide
  ready := fun n => n ≠ 1
  asked := 0

/-- A write across the two clusters. -/
def acrossWrite : Request := .write 7 (List.replicate 1024 9)

/-- The sectors of the write. -/
def acrossRead : Request := .read 7 (List.replicate 1024 0)

theorem attempt_acrossWrite : ((Cow.new lateBase).attempt acrossWrite).1 = fail .notReady ∧
    (((Cow.new lateBase).attempt acrossWrite).2.attempt acrossWrite).1 ≠ fail .notReady ∧
    ((((Cow.new lateBase).attempt acrossWrite).2.attempt acrossWrite).2.attempt acrossRead).1 ≠
      fail .notReady := by
  decide +kernel

theorem serve_acrossWrite : serve lateBase.data acrossWrite =
    (.ok [], writeAt (List.replicate 5120 7) 3584 (List.replicate 1024 9)) := by
  have hrange : byteRange 5120 7 1024 = .ok (3584, 4608) := by decide
  rw [acrossWrite, serve, lateBase, length_replicate, length_replicate, hrange]

/-- The second cluster of a write is not ready; the write is repeated, and a read then gives
what it has written. -/
theorem cow_refines_flat_retry :
    let s := ((Cow.new lateBase).attempt acrossWrite).2
    let t := (s.attempt acrossWrite).2
    let disk := writeAt (List.replicate 5120 7) 3584 (List.replicate 1024 9)
    ((Cow.new lateBase).attempt acrossWrite).1 = fail .notReady ∧
      (s.attempt acrossWrite).1 = .ok [] ∧ t.flat = disk ∧
      (t.attempt acrossRead).1 = (serve disk acrossRead).1 := by
  intro s t disk
  obtain ⟨hfailed, hdone, hread⟩ := attempt_acrossWrite
  have hagain : Run lateBase s lateBase.data (some acrossWrite) lateBase.data :=
    .again .new acrossWrite (by rintro _ ⟨⟩) hfailed
  have hwritten : Run lateBase t (serve lateBase.data acrossWrite).2 none lateBase.data :=
    .done hagain acrossWrite (by rintro _ ⟨⟩; rfl) hdone
  obtain ⟨hflat, -, -, hanswer⟩ := cow_refines_flat hwritten
  have hretry := ((cow_refines_flat hagain).2.2.2 acrossWrite (by rintro _ ⟨⟩; rfl)).1 (.inl hdone)
  have hanswer := (hanswer acrossRead (by rintro _ ⟨⟩)).1 (.inl hread)
  rw [serve_acrossWrite] at hflat hretry hanswer
  exact ⟨hfailed, hretry, hflat rfl, hanswer⟩

end Vetro.Blk
