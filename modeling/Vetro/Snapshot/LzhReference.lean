import Vetro.Core.BitSource
import Vetro.Snapshot.Lzh

/-!
# A plain decoder of frames

The frame decoder of `vetro-snapshot/src/lzh.rs` fills a 64-bit accumulator
ahead of what it uses, finds symbols in tables, copies eight bytes at a time and
asks only at the end whether the stream was long enough.  `Reference.decode` is
the plain decoder of the same format: it reads one bit at a time, never past the
end, looks for the symbol after every bit and appends one byte at a time.  The
two accept the same frames and produce the same bytes, and the fast one neither
panics nor runs for ever.
-/

namespace Vetro.Lzh

open Bytes List Option
open BitPack
open BitSource
open Splice
open Outcome
open Lz77
open PrefixCode
open BitStream
open Matcher
open Format (Error)

/-! ## The plain decoder -/

variable {out : List Byte}

namespace Reference

/-- The symbol whose code has `length` bits and the value `code`. -/
def findSymbol (len : List ℕ) (length code : ℕ) : Option ℕ :=
  (List.range len.length).find? fun s =>
    decide (len.getD s 0 = length) && decide (canonicalCode len s = code)

def readSymbol (len : List ℕ) (stream : List Byte) (p : ℕ) : Option (ℕ × ℕ) :=
  readCode (findSymbol len) stream maxBits 0 0 p

/-- A value: the base of its code and the extra bits that follow. -/
def readValue (stream : List Byte) (code p : ℕ) : Option (ℕ × ℕ) := do
  let (extra, p) ← readBits stream (codeBase code).2 p
  some ((codeBase code).1 + extra, p)

/-- `len` bytes from `dist` bytes back, one at a time, each of them already
written. -/
def copyBytes (dist : ℕ) : ℕ → List Byte → List Byte
  | 0, out => out
  | len + 1, out => copyBytes dist len (out ++ [out.getD (out.length - dist) 0])

/-- The rest of a token whose first symbol is `s`: the position after it and the
output with its bytes. -/
def token (dd : List ℕ) (stream : List Byte) (stop s p : ℕ) (out : List Byte) :
    Option (ℕ × List Byte) :=
  if s < 256 then some (p, out ++ [UInt8.ofNat s])
  else do
    let (value, p) ← readValue stream (s - 256) p
    let (code, p) ← readSymbol dd stream p
    let (distance, p) ← readValue stream code p
    if out.length < distance + 1 ∨ stop < out.length + (value + minMatch) then none
    else some (p, copyBytes (distance + 1) (value + minMatch) out)

theorem length_copyBytes (dist len : ℕ) (out : List Byte) :
    (copyBytes dist len out).length = out.length + len := by
  induction len generalizing out with
  | zero => rfl
  | succ len ih =>
    rw [copyBytes, ih, length_append, length_singleton]
    omega

/-- Every token writes at least one byte. -/
theorem length_lt_of_token {dd : List ℕ} {stream next : List Byte} {stop s p q : ℕ}
    (htoken : token dd stream stop s p out = some (q, next)) : out.length < next.length := by
  rw [token] at htoken
  split_ifs at htoken
  · cases htoken
    simp
  · simp only [bind_eq_bind, bind_eq_some_iff] at htoken
    obtain ⟨value, -, symbol, -, distance, -, htoken⟩ := htoken
    split_ifs at htoken
    cases htoken
    rw [length_copyBytes, show minMatch = 4 from rfl]
    omega

/-- Tokens until the output has `stop` bytes. -/
def decodeFrom (ll dd : List ℕ) (stream : List Byte) (stop p : ℕ) (out : List Byte) :
    Option (List Byte) :=
  if out.length < stop then
    match readSymbol ll stream p with
    | none => none
    | some (s, p) =>
      match _htoken : token dd stream stop s p out with
      | none => none
      | some (p, next) => decodeFrom ll dd stream stop p next
  else some out
termination_by stop - out.length
decreasing_by
  have := length_lt_of_token _htoken
  omega

/-- The lengths of a prefix code. -/
def ValidCode (len : List ℕ) : Prop := (∀ l ∈ len, l ≤ maxBits) ∧ used len ≤ tableSize

instance (len : List ℕ) : Decidable (ValidCode len) := inferInstanceAs (Decidable (_ ∧ _))

/-- The frame `src`, of `stop` bytes when decoded. -/
def decode (src : List Byte) (stop : ℕ) : Option (List Byte) :=
  if src.length < header then none
  else
    let lens := (List.range (llCodes + distCodes)).map (nibble src)
    if ValidCode (lens.take llCodes) ∧ ValidCode (lens.drop llCodes) then
      decodeFrom (lens.take llCodes) (lens.drop llCodes) (src.drop header) stop 0 []
    else none

end Reference

/-! ## Symbols -/

variable {r : BitReader}

section Symbols

open Reference

variable {len : List ℕ}

/-- The plain search finds the symbol whose code comes next, if its code has
`m` bits. -/
theorem findSymbol_eq_some_iff (hvalid : ValidCode len) {v s m : ℕ} (hpos : 0 < m)
    (hm : m ≤ maxBits) :
    findSymbol len m (reverseBits m v) = some s ↔ Starts len (v % tableSize) s m := by
  have hmod : v % tableSize % 2 ^ m = v % 2 ^ m := Nat.mod_mod_of_dvd _ (Nat.pow_dvd_pow 2 hm)
  -- what the search tests is what `Starts` says
  have htest : ∀ t, t < len.length → len.getD t 0 = m → canonicalCode len t = reverseBits m v →
      Starts len (v % tableSize) t m := by
    intro t ht hlength hcode
    refine ⟨?_, hpos, ?_⟩
    · rw [List.getElem?_eq_getElem ht, some.injEq, ← hlength,
        getD_eq_getElem?_getD, List.getElem?_eq_getElem ht, getD_some]
    · rw [hmod, hcode, reverseBits_reverseBits]
  have hfound : ∀ t, findSymbol len m (reverseBits m v) = some t →
      Starts len (v % tableSize) t m := by
    intro t hfind
    have hholds := List.find?_some hfind
    simp only [Bool.and_eq_true, decide_eq_true_eq] at hholds
    exact htest t (mem_range.mp (mem_of_find?_eq_some hfind)) hholds.1 hholds.2
  refine ⟨hfound s, fun hstarts => ?_⟩
  have hs : s < len.length := (List.getElem?_eq_some_iff.mp hstarts.length).1
  have hlength : len.getD s 0 = m := by
    rw [getD_eq_getElem?_getD, hstarts.length, getD_some]
  have hcode : canonicalCode len s = reverseBits m v := by
    have hbits := hstarts.bits
    rw [hmod] at hbits
    rw [← reverseBits_mod, hbits, reverseBits_reverseBits, Nat.mod_eq_of_lt
      (canonicalCode_lt hvalid.1 hvalid.2 hstarts.length hpos)]
  obtain ⟨t, hfind⟩ : ∃ t, findSymbol len m (reverseBits m v) = some t := by
    rw [← isSome_iff_exists, findSymbol, List.find?_isSome]
    exact ⟨s, mem_range.mpr hs, by
      simp only [hlength, hcode, decide_true, Bool.and_self]⟩
  rw [hfind, ((hfound t hfind).unique hvalid.1 hvalid.2 (Nat.mod_lt _ (Nat.two_pow_pos _))
    hstarts).1]

/-- Reading a symbol through the table, against reading it bit by bit. -/
theorem symbol_agrees {out : ℕ → ℕ} (hvalid : ValidCode len) (htable : table len = .ok out) {p : ℕ}
    (hreads : Reads r p) (hn : maxBits ≤ r.n) :
    (∃ e, r.symbol out = fail e ∧ readSymbol len r.src p = none) ∨
      ∃ s l next, r.symbol out = .ok (s, next) ∧ Reads next (p + l) ∧ next.src = r.src ∧
        next.n = r.n - l ∧ l ≤ maxBits ∧ s < len.length ∧
        (p ≤ 8 * r.src.length → readSymbol len r.src p =
          if p + l ≤ 8 * r.src.length then some (s, p + l) else none) := by
  obtain ⟨out', htable', hfinds, hnone⟩ := table_starts hvalid.1 hvalid.2
  rw [htable] at htable'
  cases htable'
  set x := ofLeBytes r.src / 2 ^ p % tableSize with hx
  have hlt : x < tableSize := Nat.mod_lt _ (Nat.two_pow_pos _)
  have hpeek : r.acc % tableSize = x := hreads.window.mod_eq hn
  by_cases hstarts : ∃ s l, Starts len x s l
  · right
    obtain ⟨s, l, hstarts⟩ := hstarts
    have hl : l ≤ maxBits := hvalid.1 l (mem_of_getElem? hstarts.length)
    have hpos := hstarts.pos
    have hentry := hfinds x s l hlt hstarts
    have hlow : (s * 16 + l) % 16 = l := by
      rw [maxBits] at hl
      omega
    have hhigh : (s * 16 + l) / 16 = s := by
      omega
    refine ⟨s, l, _, ?_, hreads.skip (hl.trans hn), rfl, rfl, hl,
      (List.getElem?_eq_some_iff.mp hstarts.length).1, fun hp => ?_⟩
    · rw [BitReader.symbol]
      simp only [hpeek, hentry, hlow, hhigh]
      rw [if_neg (by omega), require_eq_ok (hl.trans hn), ok_bind]
    · refine readCode_eq_some hpos hl hp (fun m hm hless => ?_)
        ((findSymbol_eq_some_iff hvalid hpos hl).mpr hstarts)
      rw [eq_none_iff_forall_ne_some]
      intro t hfind
      have hother := (findSymbol_eq_some_iff hvalid hm (by omega)).mp hfind
      have hsame := (hstarts.unique hvalid.1 hvalid.2 hlt hother).2
      omega
  · left
    have hzero := hnone x hlt fun s l h => hstarts ⟨s, l, h⟩
    refine ⟨.invalid "frame: invalid code", ?_, ?_⟩
    · rw [BitReader.symbol]
      simp only [hpeek, hzero, Nat.zero_mod, if_true]
    · refine readCode_eq_none fun m hm hle => ?_
      rw [eq_none_iff_forall_ne_some]
      intro t hfind
      exact hstarts ⟨t, m, (findSymbol_eq_some_iff hvalid hm hle).mp hfind⟩

/-- Reading a value through the accumulator, against reading it bit by bit. -/
theorem value_agrees {p code : ℕ} (hreads : Reads r p) (hn : (codeBase code).2 ≤ r.n) :
    ∃ extra next, r.bits (codeBase code).2 = .ok (extra, next) ∧
      Reads next (p + (codeBase code).2) ∧ next.src = r.src ∧
      next.n = r.n - (codeBase code).2 ∧
      (p ≤ 8 * r.src.length → readValue r.src code p =
        if p + (codeBase code).2 ≤ 8 * r.src.length then
          some ((codeBase code).1 + extra, p + (codeBase code).2)
        else none) := by
  obtain ⟨next, hbits, hnext, hsrc, hleft⟩ := bits_spec hreads hn
  refine ⟨_, next, hbits, hnext, hsrc, hleft, fun hp => ?_⟩
  rw [readValue, readBits_eq _ _ hp]
  split_ifs
  · rfl
  · rfl

end Symbols

/-! ## Copies -/

section Copies

open Reference

variable {dist len o : ℕ} {out dst : List Byte}

theorem getElem?_copyBytes_of_lt {index : ℕ} (hindex : index < out.length) :
    (copyBytes dist len out)[index]? = out[index]? := by
  induction len generalizing out with
  | zero => rfl
  | succ len ih =>
    rw [copyBytes, ih (by rw [length_append]; omega), List.getElem?_append_left hindex]

theorem copyBytes_repeats (hback : dist ≤ out.length) (hpos : 0 < dist) {offset : ℕ}
    (hoffset : offset < len) : (copyBytes dist len out)[out.length + offset]? =
      (copyBytes dist len out)[out.length + offset - dist]? := by
  induction len generalizing out offset with
  | zero => omega
  | succ len ih =>
    set longer := out ++ [out.getD (out.length - dist) 0] with hlonger
    have hlength : longer.length = out.length + 1 := by
      rw [hlonger, length_append, length_singleton]
    rw [copyBytes, ← hlonger]
    cases offset with
    | zero =>
      rw [getElem?_copyBytes_of_lt (by omega), getElem?_copyBytes_of_lt (by omega),
        hlonger, List.getElem?_append_right (by omega), List.getElem?_append_left (by omega),
        Nat.add_zero, Nat.sub_self, List.getElem?_cons_zero, getD_eq_getElem?_getD,
        List.getElem?_eq_getElem (by omega), getD_some]
    | succ offset =>
      have hnext := ih (show dist ≤ longer.length by omega) (show offset < len by omega)
      rwa [hlength, show out.length + 1 + offset = out.length + (offset + 1) by omega] at hnext

/-- Whichever way the fast decoder carries out a copy, it writes what copying
one byte at a time writes. -/
theorem copyMatch_take (hpos : 0 < dist) (hback : dist ≤ o) (hfits : o + len ≤ dst.length) :
    ∃ filled, copyMatch dst dst.length o dist len = .ok filled ∧
      filled.length = dst.length ∧
      filled.take (o + len) = copyBytes dist len (dst.take o) := by
  set out := dst.take o with hout
  have hlength : out.length = o := by
    rw [hout, length_take, Nat.min_eq_left (by omega)]
  set target := copyBytes dist len out ++ dst.drop (o + len) with htarget
  have hcopied : (copyBytes dist len out).length = o + len := by
    rw [length_copyBytes, hlength]
  have htotal : target.length = dst.length := by
    rw [htarget, length_append, hcopied, length_drop]
    omega
  have hread : ∀ index < o + len, target[index]? = (copyBytes dist len out)[index]? :=
    fun index hindex => List.getElem?_append_left (by omega)
  have hfilled : Filled target dst o := by
    refine ⟨htotal.symm, fun index hindex => ?_⟩
    rw [hread index (by omega), getElem?_copyBytes_of_lt (by omega), hout,
      List.getElem?_take_of_lt hindex]
  have hrepeats : Repeats target o dist len := by
    refine ⟨hpos, hback, by omega, fun offset hoffset => ?_⟩
    have hsame := copyBytes_repeats (show dist ≤ out.length by omega) hpos hoffset
    rw [hlength] at hsame
    rw [hread _ (by omega), hread _ (by omega), hsame]
  obtain ⟨filled, hcopy, hfull⟩ := copyMatch_filled hfilled hrepeats
  rw [htotal] at hcopy
  refine ⟨filled, hcopy, hfull.length_eq.trans htotal, ?_⟩
  apply ext_getElem?
  intro index
  by_cases hindex : index < o + len
  · rw [List.getElem?_take_of_lt hindex, hfull.agrees index hindex, hread index hindex]
  · rw [List.getElem?_eq_none (by rw [length_take]; omega), List.getElem?_eq_none (by omega)]

end Copies

/-! ## Whole frames -/

section Frames

open Reference

theorem codeBase_bits {code : ℕ} (hcode : code < distCodes) :
    (codeBase code).2 ≤ 16 ∧ (code < lenCodes → (codeBase code).2 ≤ 14) := by
  rw [show distCodes = 44 from rfl] at hcode
  rw [show lenCodes = 40 from rfl, codeBase]
  split_ifs
  · exact ⟨Nat.zero_le _, fun _ => Nat.zero_le _⟩
  · constructor
    · simp only
      omega
    · intro hshort
      simp only
      omega

variable {ll dd : ℕ → ℕ} {llLen ddLen : List ℕ}

/-- The symbol of a distance and the bits behind it, whatever is done with them. -/
theorem distance_agrees (hvalid : ValidCode ddLen) (hlength : ddLen.length = distCodes)
    (htable : table ddLen = .ok dd) {p : ℕ} (hreads : Reads r p) (hn : 28 ≤ r.n) {A B : Type}
    (next : ℕ → BitReader → Result Error A) (plain : ℕ → ℕ → Option B) {decoded : Result Error A}
    {read : Option B}
    (hdecoded : decoded = do
      let x ← r.symbol dd
      require (x.1 < distCodes)
      let y ← x.2.bits (codeBase x.1).2
      next ((codeBase x.1).1 + y.1) y.2)
    (hread : read = do
      let x ← readSymbol ddLen r.src p
      let y ← readValue r.src x.1 x.2
      plain y.1 y.2) :
    (∃ e, decoded = fail e ∧ read = none) ∨
      ∃ distance after q, decoded = next distance after ∧ Reads after q ∧ after.src = r.src ∧
        p ≤ q ∧ (p ≤ 8 * r.src.length →
          read = if q ≤ 8 * r.src.length then plain distance q else none) := by
  rcases symbol_agrees hvalid htable hreads (show 12 ≤ r.n by omega) with
    ⟨e, hsymbol, hnone⟩ | ⟨code, l, r₁, hsymbol, hreads₁, hsrc₁, hn₁, hl, hcode, hplain⟩
  · exact .inl ⟨e, by rw [hdecoded, hsymbol]; rfl, by rw [hread, hnone]; rfl⟩
  right
  rw [hlength] at hcode
  rw [show maxBits = 12 from rfl] at hl
  have hbits := (codeBase_bits hcode).1
  obtain ⟨extra, after, hvalue, hafter, hsrc, -, hbehind⟩ :=
    value_agrees hreads₁ (show (codeBase code).2 ≤ r₁.n by omega)
  rw [hsrc₁] at hbehind
  refine ⟨(codeBase code).1 + extra, after, _, ?_, hafter, hsrc.trans hsrc₁, by omega,
    fun hp => ?_⟩
  · rw [hdecoded, hsymbol, ok_bind]
    rw [require_eq_ok hcode, ok_bind, hvalue, ok_bind]
  · rw [hread, hplain hp]
    by_cases hsymbolFits : p + l ≤ 8 * r.src.length
    · rw [if_pos hsymbolFits, bind_eq_bind, bind_some]
      rw [hbehind hsymbolFits]
      split_ifs
      · rfl
      · rfl
    · rw [if_neg hsymbolFits, if_neg (by omega)]
      rfl

/-- The part of a match after its length symbol. -/
theorem match_agrees (hvalid : ValidCode ddLen) (hlength : ddLen.length = distCodes)
    (htable : table ddLen = .ok dd) {p s o : ℕ} {dst : List Byte} (hreads : Reads r p)
    (hs : s < llCodes) (hmatch : ¬s < 256) (ho : o ≤ dst.length) :
    (∃ e, decodeMatch dd dst.length s r o dst = fail e ∧ (p ≤ 8 * r.src.length →
        token ddLen r.src dst.length s p (dst.take o) = none)) ∨
      ∃ len next filled q, decodeMatch dd dst.length s r o dst = .ok (len, next, filled) ∧
        Reads next q ∧ next.src = r.src ∧ p ≤ q ∧ 0 < len ∧ o + len ≤ dst.length ∧
        filled.length = dst.length ∧
        (p ≤ 8 * r.src.length → token ddLen r.src dst.length s p (dst.take o) =
          if q ≤ 8 * r.src.length then some (q, filled.take (o + len)) else none) := by
  have hfour : minMatch = 4 := rfl
  have hcode : s - 256 < 40 := by
    rw [show llCodes = 296 from rfl] at hs
    omega
  have htake : (dst.take o).length = o := by rw [length_take, Nat.min_eq_left ho]
  obtain ⟨r₁, hrefill, hreads₁, hsrc₁, hn₁⟩ := refill_spec hreads
  have hbits := (codeBase_bits (show s - 256 < 44 by omega)).2 hcode
  obtain ⟨extra, r₂, hvalue, hreads₂, hsrc₂, hn₂, hplain⟩ :=
    value_agrees hreads₁ (show (codeBase (s - 256)).2 ≤ r₁.n by omega)
  have hsrc : r₂.src = r.src := hsrc₂.trans hsrc₁
  rw [hsrc₁] at hplain
  obtain ⟨q₁, hq₁⟩ : ∃ q₁, p + (codeBase (s - 256)).2 = q₁ := ⟨_, rfl⟩
  obtain ⟨len, hlen⟩ : ∃ len, (codeBase (s - 256)).1 + extra + minMatch = len := ⟨_, rfl⟩
  rw [hq₁] at hreads₂ hplain
  have hdecode : decodeMatch dd dst.length s r o dst = (do
      let x ← r₂.symbol dd
      require (x.1 < distCodes)
      let y ← x.2.bits (codeBase x.1).2
      if o < (codeBase x.1).1 + y.1 + 1 ∨ dst.length - o < len then
        fail (.invalid "frame: copy outside the frame")
      else
        let dst ← copyMatch dst dst.length o ((codeBase x.1).1 + y.1 + 1) len
        .ok (len, y.2, dst)) := by
    rw [decodeMatch, hrefill, ok_bind]
    rw [if_neg (show ¬lenCodes ≤ s - 256 by rw [show lenCodes = 40 from rfl]; omega), hvalue,
      ok_bind, ← hlen]
  obtain ⟨read, hread⟩ : ∃ read, read = (do
      let x ← readSymbol ddLen r₂.src q₁
      let y ← readValue r₂.src x.1 x.2
      if o < y.1 + 1 ∨ dst.length < o + len then none
      else some (y.2, copyBytes (y.1 + 1) len (dst.take o))) := ⟨_, rfl⟩
  have htoken : p ≤ 8 * r.src.length → token ddLen r.src dst.length s p (dst.take o) =
      if q₁ ≤ 8 * r.src.length then read else none := by
    intro hp
    rw [token, if_neg hmatch, hplain hp, htake, hread, hsrc, ← hlen]
    split_ifs
    · rfl
    · rfl
  -- Both decoders are now at the distance.
  rcases distance_agrees hvalid hlength htable hreads₂ (show 28 ≤ r₂.n by omega)
    (fun distance r =>
      if o < distance + 1 ∨ dst.length - o < len then
        fail (.invalid "frame: copy outside the frame")
      else do
        let dst ← copyMatch dst dst.length o (distance + 1) len
        .ok (len, r, dst))
    (fun distance q =>
      if o < distance + 1 ∨ dst.length < o + len then none
      else some (q, copyBytes (distance + 1) len (dst.take o))) hdecode hread with
    ⟨e, hfail, hnone⟩ | ⟨distance, after, q, hok, hafter, hsrc₃, hq, hplain'⟩
  · exact .inl ⟨e, hfail, fun hp => by rw [htoken hp, hnone, ite_self]⟩
  rw [hsrc] at hsrc₃ hplain'
  have htoken' : p ≤ 8 * r.src.length → token ddLen r.src dst.length s p (dst.take o) =
      if q ≤ 8 * r.src.length then
        if o < distance + 1 ∨ dst.length < o + len then none
        else some (q, copyBytes (distance + 1) len (dst.take o))
      else none := by
    intro hp
    rw [htoken hp]
    by_cases hfirst : q₁ ≤ 8 * r.src.length
    · rw [if_pos hfirst, hplain' hfirst]
    · rw [if_neg hfirst, if_neg (by omega)]
  by_cases hguard : o < distance + 1 ∨ dst.length - o < len
  · left
    refine ⟨_, by rw [hok, if_pos hguard], fun hp => ?_⟩
    rw [htoken' hp, if_pos (show o < distance + 1 ∨ dst.length < o + len by omega), ite_self]
  · right
    obtain ⟨filled, hcopy, hfull, hcopied⟩ := copyMatch_take (Nat.succ_pos distance)
      (show distance + 1 ≤ o by omega) (show o + len ≤ dst.length by omega)
    refine ⟨len, after, filled, q, by rw [hok, if_neg hguard, hcopy, ok_bind], hafter, hsrc₃,
      by omega, by omega, by omega, hfull, fun hp => ?_⟩
    rw [htoken' hp, if_neg (show ¬(o < distance + 1 ∨ dst.length < o + len) by omega), hcopied]

/-- The plain decoder after it has read the symbol `s`. -/
def afterSymbol (llLen ddLen : List ℕ) (stream : List Byte) (stop s p : ℕ) (out : List Byte) :
    Option (List Byte) := do
  let (p, next) ← token ddLen stream stop s p out
  decodeFrom llLen ddLen stream stop p next

theorem decodeFrom_eq (stream : List Byte) {stop p : ℕ} (hmore : out.length < stop) :
    decodeFrom llLen ddLen stream stop p out = (do
      let (s, p) ← readSymbol llLen stream p
      afterSymbol llLen ddLen stream stop s p out) := by
  rw [decodeFrom, if_pos hmore]
  cases readSymbol llLen stream p with
  | none => rfl
  | some read =>
    simp only [bind_eq_bind, bind_some, afterSymbol]
    split
    · rename_i hnone
      rw [hnone]
      rfl
    · rename_i q next hsome
      rw [hsome]
      rfl

/-- What the fast decoder makes of the rest of a frame, from bit `p` of the
stream on, against the plain one: both fail, or the fast one succeeds at a later
bit, and the plain one then gives the same frame if the stream has the bits. -/
def RestAgrees (stream : List Byte) (stop p : ℕ) (fast : Result Error (BitReader × List Byte))
    (plain : Option (List Byte)) : Prop :=
  (∃ e, fast = fail e ∧ (p ≤ 8 * stream.length → plain = none)) ∨
    ∃ next filled q, fast = .ok (next, filled) ∧ Reads next q ∧ next.src = stream ∧ p ≤ q ∧
      filled.length = stop ∧
      (p ≤ 8 * stream.length →
        plain = if q ≤ 8 * stream.length then some filled else none)

/-- A part of the plain decoder's work before the rest. -/
theorem RestAgrees.after {stream : List Byte} {stop p q : ℕ}
    {fast : Result Error (BitReader × List Byte)} {plain before : Option (List Byte)}
    (hrest : RestAgrees stream stop q fast plain) (hle : p ≤ q) (hbefore : p ≤ 8 * stream.length →
      before = if q ≤ 8 * stream.length then plain else none) :
    RestAgrees stream stop p fast before := by
  rcases hrest with ⟨e, hfail, hnone⟩ | ⟨next, filled, q', hok, hreads, hsrc, hlater, hlength,
    hsome⟩
  · left
    refine ⟨e, hfail, fun hp => ?_⟩
    rw [hbefore hp]
    split_ifs with hin
    · exact hnone hin
    · rfl
  · right
    refine ⟨next, filled, q', hok, hreads, hsrc, hle.trans hlater, hlength, fun hp => ?_⟩
    rw [hbefore hp]
    by_cases hin : q ≤ 8 * stream.length
    · rw [if_pos hin, hsome hin]
    · rw [if_neg hin, if_neg (by omega)]

/-- Reading the next symbol, when the rest agrees after every symbol. -/
theorem symbol_restAgrees (hll : ValidCode llLen) (hllLength : llLen.length = llCodes)
    (hllTable : table llLen = .ok ll) {p stop : ℕ} (hreads : Reads r p) (hn : maxBits ≤ r.n)
    (hmore : out.length < stop) {fast : ℕ × BitReader → Result Error (BitReader × List Byte)}
    (hrest : ∀ s next q, s < llCodes → Reads next q → next.src = r.src →
      RestAgrees r.src stop q (fast (s, next)) (afterSymbol llLen ddLen r.src stop s q out)) :
    RestAgrees r.src stop p (r.symbol ll >>= fast) (decodeFrom llLen ddLen r.src stop p out) := by
  rw [decodeFrom_eq _ hmore]
  rcases symbol_agrees hll hllTable hreads hn with
    ⟨e, hsymbol, hnone⟩ | ⟨s, l, next, hsymbol, hnext, hsrc, -, -, hs, hplain⟩
  · left
    refine ⟨e, by rw [hsymbol]; rfl, fun _ => ?_⟩
    rw [hnone]
    rfl
  · rw [hsymbol, ok_bind]
    refine (hrest s next (p + l) (hllLength ▸ hs) hnext hsrc).after (Nat.le_add_right _ _)
      fun hp => ?_
    rw [hplain hp]
    split_ifs
    · rfl
    · rfl

/-- The loop of the fast decoder, which has read the symbol `s`, against the
plain one after the same symbol.  The induction is on the fuel: every turn
writes at least one byte. -/
theorem decodeLoop_agrees (hll : ValidCode llLen) (hllLength : llLen.length = llCodes)
    (hllTable : table llLen = .ok ll) (hdd : ValidCode ddLen) (hddLength : ddLen.length = distCodes)
    (hddTable : table ddLen = .ok dd) {fuel s o p : ℕ} {dst : List Byte} (hreads : Reads r p)
    (hs : s < llCodes) (ho : o < dst.length) (hfuel : dst.length ≤ o + fuel) :
    RestAgrees r.src dst.length p (decodeLoop ll dd dst.length fuel s r o dst)
      (afterSymbol llLen ddLen r.src dst.length s p (dst.take o)) := by
  induction fuel generalizing s o p r dst with
  | zero => omega
  | succ fuel ih =>
    rw [decodeLoop]
    by_cases hliteral : s < 256
    · -- a literal takes no more bits
      have hset : (dst.set o (UInt8.ofNat s)).length = dst.length := length_set
      have htake : (dst.set o (UInt8.ofNat s)).take (o + 1) = dst.take o ++ [UInt8.ofNat s] := by
        rw [take_add_one, take_set_of_le le_rfl, List.getElem?_set_self ho]
        rfl
      have hplain : afterSymbol llLen ddLen r.src dst.length s p (dst.take o) =
          decodeFrom llLen ddLen r.src dst.length p
            ((dst.set o (UInt8.ofNat s)).take (o + 1)) := by
        rw [afterSymbol, token, if_pos hliteral, htake]
        rfl
      rw [if_pos hliteral, hplain, require_eq_ok ho, ok_bind]
      by_cases hlast : o + 1 = dst.length
      · right
        refine ⟨r, _, p, if_pos hlast, hreads, rfl, le_rfl, hset, fun hp => ?_⟩
        rw [if_pos hp, hlast, take_of_length_le hset.le, decodeFrom, if_neg (by omega)]
      · obtain ⟨r', htop, hreads', hsrc', hn'⟩ : ∃ r', topUp r = .ok r' ∧ Reads r' p ∧
            r'.src = r.src ∧ maxBits ≤ r'.n := by
          rw [topUp]
          split_ifs with hfew
          · obtain ⟨r', hrefill, hreads', hsrc', hn'⟩ := refill_spec hreads
            exact ⟨r', hrefill, hreads', hsrc', show 12 ≤ r'.n by omega⟩
          · exact ⟨r, rfl, hreads, rfl, by omega⟩
        rw [if_neg hlast, htop, ok_bind, ← hsrc', ← hset]
        have hroom : ((dst.set o (UInt8.ofNat s)).take (o + 1)).length <
            (dst.set o (UInt8.ofNat s)).length := by
          rw [length_take]
          omega
        refine symbol_restAgrees hll hllLength hllTable hreads' hn' hroom
          fun t next q ht hnext hsrc => ?_
        rw [← hsrc]
        exact ih hnext ht (by omega) (by omega)
    · rw [if_neg hliteral]
      rcases match_agrees hdd hddLength hddTable hreads hs hliteral ho.le with
        ⟨e, hfail, hnone⟩ |
          ⟨len, next, filled, q, hok, hnext, hsrc, hle, hpos, hfits, hfull, htoken⟩
      · left
        refine ⟨e, by rw [hfail]; rfl, fun hp => ?_⟩
        rw [afterSymbol, hnone hp]
        rfl
      · have hplain : p ≤ 8 * r.src.length →
            afterSymbol llLen ddLen r.src dst.length s p (dst.take o) =
              if q ≤ 8 * r.src.length then
                decodeFrom llLen ddLen r.src dst.length q (filled.take (o + len))
              else none := by
          intro hp
          rw [afterSymbol, htoken hp]
          split_ifs
          · rfl
          · rfl
        rw [hok, ok_bind]
        simp only
        split_ifs with hmore
        · obtain ⟨r', hrefill, hreads', hsrc', hn'⟩ := refill_spec hnext
          have hsame : r'.src = r.src := hsrc'.trans hsrc
          rw [hrefill, ok_bind]
          refine RestAgrees.after ?_ hle hplain
          rw [← hsame, ← hfull]
          have hroom : (filled.take (o + len)).length < filled.length := by
            rw [length_take]
            omega
          refine symbol_restAgrees hll hllLength hllTable hreads' (show 12 ≤ r'.n by omega)
            hroom fun t next' q' ht hnext' hsrc' => ?_
          rw [← hsrc']
          exact ih hnext' ht (by omega) (by omega)
        · right
          refine ⟨next, filled, q, rfl, hnext, hsrc, hle, hfull, fun hp => ?_⟩
          have hwhole : filled.take (o + len) = filled := take_of_length_le (by omega)
          rw [hplain hp, hwhole, decodeFrom, if_neg (show ¬filled.length < dst.length by omega)]

/-- The final check asks whether the stream had all the bits. -/
theorem check_eq {q : ℕ} (hreads : Reads r q) :
    r.check = if q ≤ 8 * r.src.length then .ok () else fail .truncated := by
  split_ifs with hin
  · exact check_spec hreads hin
  · have hpos := hreads.pos_eq
    rw [BitReader.check, require_eq_ok (by omega), ok_bind, if_pos (by omega)]

/-- The table of a code that is not a prefix code is an error. -/
theorem table_eq_fail {len : List ℕ} (hinvalid : ¬ValidCode len) : ∃ e, table len = fail e := by
  rw [table]
  split_ifs with hlong hmany
  · exact ⟨_, rfl⟩
  · exact ⟨_, rfl⟩
  · push Not at hlong
    exact absurd ⟨hlong, by omega⟩ hinvalid

/-- The bit stream of a frame: an error where the plain decoder fails, and its
bytes where it succeeds. -/
theorem decodeStream_agrees (hll : ValidCode llLen) (hllLength : llLen.length = llCodes)
    (hllTable : table llLen = .ok ll) (hdd : ValidCode ddLen)
    (hddLength : ddLen.length = distCodes) (hddTable : table ddLen = .ok dd)
    (stream dst : List Byte) : (∃ e, decodeStream ll dd ⟨stream, 0, 0, 0⟩ dst = fail e ∧
        decodeFrom llLen ddLen stream dst.length 0 [] = none) ∨
      ∃ d, decodeStream ll dd ⟨stream, 0, 0, 0⟩ dst = .ok d ∧
        decodeFrom llLen ddLen stream dst.length 0 [] = some d := by
  have hstart := reads_start stream
  by_cases hempty : 0 < dst.length
  swap
  · right
    refine ⟨dst, ?_, ?_⟩
    · rw [decodeStream, if_neg hempty, ok_bind]
      simp only [check_eq hstart, Nat.zero_le, if_true, ok_bind]
    · rw [decodeFrom, if_neg (show ¬([] : List Byte).length < dst.length from hempty),
        eq_nil_of_length_eq_zero (show dst.length = 0 by omega)]
  obtain ⟨r, hrefill, hreads, hsrc, hn⟩ := refill_spec hstart
  obtain rfl : r.src = stream := hsrc
  have hrest : RestAgrees r.src dst.length 0
      (r.symbol ll >>= fun x => decodeLoop ll dd dst.length dst.length x.1 x.2 0 dst)
      (decodeFrom llLen ddLen r.src dst.length 0 []) := by
    refine symbol_restAgrees hll hllLength hllTable hreads (show 12 ≤ r.n by omega) hempty
      fun s next q hs hnext hsame => ?_
    have hloop := decodeLoop_agrees hll hllLength hllTable hdd hddLength hddTable hnext hs
      hempty (Nat.le_add_left _ _)
    rwa [hsame] at hloop
  have hdecode : decodeStream ll dd ⟨r.src, 0, 0, 0⟩ dst = (do
      let x ← r.symbol ll >>= fun x =>
        decodeLoop ll dd dst.length dst.length x.1 x.2 0 dst
      x.1.check
      .ok x.2) := by
    rw [decodeStream, if_pos hempty, hrefill, ok_bind]
    cases r.symbol ll with
    | error stop => rfl
    | ok read => rfl
  rw [hdecode]
  rcases hrest with ⟨e, hfail, hnone⟩ | ⟨next, filled, q, hok, hnext, hsame, -, -, hsome⟩
  · left
    exact ⟨e, by rw [hfail]; rfl, hnone (Nat.zero_le _)⟩
  · rw [hok, ok_bind, hsome (Nat.zero_le _)]
    simp only [check_eq hnext, hsame]
    by_cases hin : q ≤ 8 * r.src.length
    · right
      exact ⟨filled, by rw [if_pos hin, ok_bind], if_pos hin⟩
    · left
      exact ⟨.truncated, by rw [if_neg hin]; rfl, if_neg hin⟩

end Frames

/-- For every output length of a frame, the fast decoder returns (it neither
panics nor runs for ever), and it accepts exactly the frames that the plain
decoder accepts, with the same bytes. -/
theorem decompress_iff_reference (src dst : List Byte) (hframe : dst.length ≤ frame) :
    (decompress src dst ≠ panic ∧ decompress src dst ≠ hang) ∧
      ∀ d, decompress src dst = .ok d ↔ Reference.decode src dst.length = some d := by
  -- an error of both, or the bytes of both
  have houtcome : (∃ e, decompress src dst = fail e ∧ Reference.decode src dst.length = none) ∨
      ∃ d, decompress src dst = .ok d ∧ Reference.decode src dst.length = some d := by
    rw [decompress, if_neg (by omega), Reference.decode]
    split_ifs with hshort
    · exact .inl ⟨_, rfl, rfl⟩
    set lens := (List.range (llCodes + distCodes)).map (nibble src) with hlens
    have hlength : lens.length = llCodes + distCodes := by
      rw [hlens, length_map, length_range]
    have hllLength : (lens.take llCodes).length = llCodes := by
      rw [length_take, hlength]
      omega
    have hddLength : (lens.drop llCodes).length = distCodes := by
      rw [length_drop, hlength]
      omega
    simp only
    by_cases hll : Reference.ValidCode (lens.take llCodes)
    swap
    · obtain ⟨e, hfail⟩ := table_eq_fail hll
      exact .inl ⟨e, by rw [hfail]; rfl, if_neg fun h => hll h.1⟩
    obtain ⟨ll, hllTable, -⟩ := table_starts hll.1 hll.2
    by_cases hdd : Reference.ValidCode (lens.drop llCodes)
    swap
    · obtain ⟨e, hfail⟩ := table_eq_fail hdd
      exact .inl ⟨e, by rw [hllTable, ok_bind, hfail]; rfl, if_neg fun h => hdd h.2⟩
    obtain ⟨dd, hddTable, -⟩ := table_starts hdd.1 hdd.2
    rw [hllTable, ok_bind, hddTable, ok_bind, if_pos ⟨hll, hdd⟩]
    exact decodeStream_agrees hll hllLength hllTable hdd hddLength hddTable _ dst
  rcases houtcome with ⟨e, hfail, hnone⟩ | ⟨d, hok, hsome⟩
  · rw [hfail, hnone]
    exact ⟨⟨by rintro ⟨⟩, by rintro ⟨⟩⟩, fun d => ⟨by rintro ⟨⟩, by simp⟩⟩
  · rw [hok, hsome]
    refine ⟨⟨by rintro ⟨⟩, by rintro ⟨⟩⟩, fun d' => ?_⟩
    rw [Except.ok.injEq, some.injEq]

/-- The frame of two literals and a match of six bytes, which overlaps itself. -/
theorem decompress_iff_reference_abab : ∃ src,
    encodeTokens [(97, 0), (98, 0), (6, 2)] = .ok src ∧
    decompress src (List.replicate 8 0) = .ok [97, 98, 97, 98, 97, 98, 97, 98] ∧
    Reference.decode src 8 = some [97, 98, 97, 98, 97, 98, 97, 98] := by
  have hspells : Spells [97, 98, 97, 98, 97, 98, 97, 98] 0 [(97, 0), (98, 0), (6, 2)] := by
    refine ⟨by decide, rfl, by decide, rfl, by decide, by decide, ?_, rfl⟩
    refine ⟨by decide, by decide, by decide, ?_⟩
    decide
  obtain ⟨src, hencode, hdecode⟩ := decompress_encodeTokens (by decide) hspells
  have hfast := hdecode (List.replicate 8 0) rfl
  exact ⟨src, hencode, hfast,
    ((decompress_iff_reference src (List.replicate 8 0) (by decide)).2 _).mp hfast⟩

end Vetro.Lzh
