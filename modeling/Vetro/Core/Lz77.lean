import Vetro.Core.Splice

/-!
# Back-references

A decoder that fills a buffer from the left: `Filled target buffer count` says
that the first `count` positions already hold the target's values.  A
back-reference whose bytes really repeat in the target extends the filled part,
whichever way the copy is carried out.
-/

namespace Vetro.Lz77

open Splice List

variable {A : Type*}

/-- `buffer` has the target's length and its first `count` values. -/
structure Filled (target buffer : List A) (count : ℕ) : Prop where
  length_eq : buffer.length = target.length
  agrees : ∀ index < count, buffer[index]? = target[index]?

/-- The target repeats itself at distance `distance` for `length` values from
position `start` on. -/
structure Repeats (target : List A) (start distance length : ℕ) : Prop where
  pos : 0 < distance
  back : distance ≤ start
  fits : start + length ≤ target.length
  same : ∀ offset < length, target[start + offset]? = target[start + offset - distance]?

variable {target buffer : List A}

theorem filled_zero (hlength : buffer.length = target.length) : Filled target buffer 0 :=
  ⟨hlength, fun _ hindex => absurd hindex (Nat.not_lt_zero _)⟩

theorem Filled.eq (hfilled : Filled target buffer target.length) : buffer = target := by
  apply ext_getElem?
  intro index
  by_cases hindex : index < target.length
  · exact hfilled.agrees index hindex
  · rw [getElem?_eq_none (by have := hfilled.length_eq; omega),
      getElem?_eq_none (by omega)]

variable {count : ℕ}

theorem Filled.mono {smaller : ℕ} (hfilled : Filled target buffer count) (hle : smaller ≤ count) :
    Filled target buffer smaller :=
  ⟨hfilled.length_eq, fun index hindex =>
    hfilled.agrees index (Nat.lt_of_lt_of_le hindex hle)⟩

/-- Writing values whose first `good` are the target's extends the filled part
by `good`. -/
theorem Filled.writeAt (hfilled : Filled target buffer count) (values : List A) (good : ℕ)
    (hfits : count + values.length ≤ target.length) (hgood : good ≤ values.length)
    (hvalues : ∀ offset < good, values[offset]? = target[count + offset]?) :
    Filled target (writeAt buffer count values) (count + good) := by
  have hroom : count + values.length ≤ buffer.length := by
    rw [hfilled.length_eq]
    exact hfits
  refine ⟨by rw [length_writeAt hroom, hfilled.length_eq], fun index hindex => ?_⟩
  rw [getElem?_writeAt hroom]
  split_ifs with hbefore hinside
  · exact hfilled.agrees index hbefore
  · rw [hvalues (index - count) (by omega)]
    congr 1
    omega
  · omega

/-- Copying the target's own values extends the filled part. -/
theorem Filled.writeAt_slice {stop : ℕ} (hfilled : Filled target buffer count)
    (hcount : count ≤ stop) (hstop : stop ≤ target.length) :
    Filled target (Splice.writeAt buffer count (slice target count stop)) stop := by
  have hlength : (slice target count stop).length = stop - count := length_slice_of_le hstop
  have hnext := hfilled.writeAt (slice target count stop) _
    (by rw [hlength]; omega) le_rfl
    (fun offset hoffset => by rw [getElem?_slice, if_pos (by omega)])
  rwa [hlength, Nat.add_sub_cancel' hcount] at hnext

theorem Filled.set {value : A} (hfilled : Filled target buffer count)
    (hvalue : target[count]? = some value) :
    Filled target (buffer.set count value) (count + 1) := by
  have hinside : count < target.length := (List.getElem?_eq_some_iff.mp hvalue).1
  refine ⟨by rw [length_set, hfilled.length_eq], fun index hindex => ?_⟩
  by_cases hsame : count = index
  · rw [← hsame, getElem?_set_self (by rw [hfilled.length_eq]; exact hinside), hvalue]
  · rw [getElem?_set_ne hsame]
    exact hfilled.agrees index (by omega)

/-! ## The ways to carry out a copy -/

section Copies

variable {target buffer : List A} {start distance length : ℕ}

section

variable (hfilled : Filled target buffer start)
include hfilled

/-- A source range that lies in the filled part holds the target's values. -/
private theorem source_agrees (hrepeats : Repeats target start distance length) {offset : ℕ}
    (hoffset : offset < length) (hfar : offset < distance) :
    buffer[start - distance + offset]? = target[start + offset]? := by
  have hback := hrepeats.back
  rw [hfilled.agrees _ (by omega), hrepeats.same offset hoffset]
  congr 1
  omega

/-- The whole source range lies before the copy. -/
theorem Filled.copy_within (hrepeats : Repeats target start distance length)
    (hfar : length ≤ distance) :
    Filled target (Splice.writeAt buffer start
      (slice buffer (start - distance) (start - distance + length))) (start + length) := by
  have hfits := hrepeats.fits
  have hlength : (slice buffer (start - distance)
      (start - distance + length)).length = length := by
    rw [length_slice_of_le (by rw [hfilled.length_eq]; omega), Nat.add_sub_cancel_left]
  refine hfilled.writeAt _ _ (by rw [hlength]; exact hfits) hlength.ge ?_
  intro offset hoffset
  rw [getElem?_slice, if_pos (by omega)]
  exact source_agrees hfilled hrepeats hoffset (by omega)

/-- A copy at distance one repeats the last value. -/
theorem Filled.fill_last (hrepeats : Repeats target start 1 length) {last : A}
    (hlast : buffer[start - 1]? = some last) :
    Filled target (Splice.writeAt buffer start (replicate length last)) (start + length) := by
  have hback := hrepeats.back
  have hsame : ∀ offset, offset ≤ length → target[start - 1 + offset]? = some last := by
    intro offset hoffset
    induction offset with
    | zero => rw [← hlast, Nat.add_zero, hfilled.agrees _ (by omega)]
    | succ offset ih =>
      have hstep := hrepeats.same offset (by omega)
      rw [show start - 1 + (offset + 1) = start + offset by omega, hstep,
        show start + offset - 1 = start - 1 + offset by omega, ih (by omega)]
  refine hfilled.writeAt _ _ (by rw [length_replicate]; exact hrepeats.fits)
    (length_replicate (n := length) (a := last)).ge ?_
  intro offset hoffset
  rw [getElem?_replicate_of_lt hoffset, ← hsame (offset + 1) (by omega)]
  congr 1
  omega

omit hfilled in
/-- One value at a time, forwards, so that the copy may read what it has just
written. -/
def copyForward (buffer : List A) (start distance : ℕ) : ℕ → List A
  | 0 => buffer
  | length + 1 =>
    let copied := copyForward buffer start distance length
    match copied[start + length - distance]? with
    | some value => copied.set (start + length) value
    | none => copied

theorem Filled.copyForward (hrepeats : Repeats target start distance length) :
    Filled target (copyForward buffer start distance length) (start + length) := by
  induction length with
  | zero => exact hfilled
  | succ length ih =>
    have hback := hrepeats.back
    have hpos := hrepeats.pos
    have hfits := hrepeats.fits
    have hprevious := ih ⟨hpos, hback, by omega,
      fun offset hoffset => hrepeats.same offset (by omega)⟩
    have hread : (Lz77.copyForward buffer start distance length)[
        start + length - distance]? = target[start + length]? := by
      rw [hprevious.agrees _ (by omega), hrepeats.same length (by omega)]
    have hsome : target[start + length]? = some target[start + length] :=
      getElem?_eq_getElem (by omega)
    rw [Lz77.copyForward]
    simp only [hread, hsome]
    exact hprevious.set hsome

end

/-- `width` values at a time, which may write past the copy: the words start
at the offsets `done`, `done + width`, and so on below `length`. -/
def copyWide (width : ℕ) (buffer : List A) (start distance length done : ℕ) : List A :=
  if done < length ∧ 0 < width then
    copyWide width (Splice.writeAt buffer (start + done)
      (slice buffer (start + done - distance) (start + done - distance + width)))
      start distance length (done + width)
  else buffer
termination_by length - done

/-- Words no longer than the distance are read from the filled part; what is
written past the copy stays inside the buffer. -/
theorem Filled.copyWide {width done : ℕ} (hwidth : 0 < width) (hnear : width ≤ distance)
    (hrepeats : Repeats target start distance length)
    (hroom : start + length + width ≤ target.length)
    (hfilled : Filled target buffer (start + min done length)) :
    Filled target (copyWide width buffer start distance length done) (start + length) := by
  induction hleft : length - done using Nat.strong_induction_on generalizing
    buffer done with
  | _ left ih =>
    have hback := hrepeats.back
    rw [Lz77.copyWide]
    split_ifs with hmore
    · have hdone : min done length = done := by omega
      rw [hdone] at hfilled
      have hlength : (slice buffer (start + done - distance)
          (start + done - distance + width)).length = width := by
        rw [length_slice_of_le (by rw [hfilled.length_eq]; omega), Nat.add_sub_cancel_left]
      refine ih _ (by omega) ?_ rfl
      have hnext := hfilled.writeAt
        (slice buffer (start + done - distance) (start + done - distance + width))
        (min width (length - done)) (by rw [hlength]; omega)
        (by rw [hlength]; omega) ?_
      · rwa [show start + min (done + width) length =
          start + done + min width (length - done) by omega]
      intro offset hoffset
      rw [getElem?_slice, if_pos (by omega), hfilled.agrees _ (by omega),
        show start + done + offset = start + (done + offset) by omega,
        hrepeats.same (done + offset) (by omega)]
      congr 1
      omega
    · exact hfilled.mono (by omega)

end Copies

end Vetro.Lz77
