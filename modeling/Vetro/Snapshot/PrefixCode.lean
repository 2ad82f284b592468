import Vetro.Core.BitPack
import Vetro.Snapshot.CodeLengths

/-!
# Canonical codes and decoding tables

`codes` and `table` of the frame codec.  The codes are canonical and stored
with their bits reversed, because the stream is written from the least
significant bit on; the table is indexed with the next twelve bits of the
stream.  A table entry is `16 * symbol + length`.
-/

namespace Vetro.PrefixCode

open Function List
open BitPack
open Kraft
open Outcome
open Huffman
open Format (Error)

/-! ## Model -/

/-- Longest code, in bits. -/
def maxBits : ℕ := 12

/-- Entries of a decoding table. -/
def tableSize : ℕ := 2 ^ maxBits

/-- How many codes each length has; unused symbols do not count. -/
def countLengths (len : List ℕ) : ℕ → ℕ := update (tally len) 0 0

/-- The code of every symbol in turn, `next` being the next code of each
length. -/
def assignCodes : List ℕ → (ℕ → ℕ) → List ℕ
  | [], _ => []
  | l :: len, next =>
    if l = 0 then 0 :: assignCodes len next
    else reverseBits 16 (next l) / 2 ^ (16 - l) :: assignCodes len (raise next l 1)

/-- Canonical codes for `len`, bit-reversed (written from their first bit). -/
def codes (len : List ℕ) : Result Error (List ℕ) := do
  require (∀ l ∈ len, l ≤ maxBits)
  .ok (assignCodes len (firstCode (countLengths len)))

/-- The entries that a code of `l` bits takes in the table. -/
def space (l : ℕ) : ℕ := if 0 < l then tableSize >>> l else 0

def used (len : List ℕ) : ℕ := (len.map space).sum

/-- `while i < TABLE { out[i] = e; i += step }`. -/
def fill (out : ℕ → ℕ) (e step i : ℕ) : ℕ → ℕ :=
  if i < tableSize ∧ 0 < step then fill (update out i e) e step (i + step) else out
termination_by tableSize - i

/-- The entries of the symbols from `s` on, given as lengths and codes. -/
def fillTable : ℕ → List (ℕ × ℕ) → (ℕ → ℕ) → ℕ → ℕ
  | _, [], out => out
  | s, (l, c) :: symbols, out =>
    fillTable (s + 1) symbols (if l = 0 then out else fill out (s * 16 + l) (2 ^ l) c)

/-- Decoding table: for every `maxBits` bits the symbol and its length, zero
when no code starts with those bits. -/
def table (len : List ℕ) : Result Error (ℕ → ℕ) :=
  if ∃ l ∈ len, maxBits < l then fail (.invalid "frame: code longer than 12 bits")
  else if tableSize < used len then fail (.invalid "frame: over-subscribed code")
  else do
    let codes ← codes len
    .ok (fillTable 0 (len.zip codes) fun _ => 0)

/-! ## The codes fit the table -/

theorem space_of_pos {l : ℕ} (hpos : 0 < l) (hl : l ≤ maxBits) : space l = 2 ^ (maxBits - l) := by
  rw [space, if_pos hpos, Nat.shiftRight_eq_div_pow, tableSize, Nat.pow_div hl (by decide)]

variable {len : List ℕ}

/-- The entries taken are the Kraft sum of the lengths. -/
theorem kraft_countLengths (hlen : ∀ l ∈ len, l ≤ maxBits) :
    kraft (countLengths len) maxBits (maxBits + 1) = used len := by
  have hsum : weigh (fun l => (space l : ℤ)) (tally len) (maxBits + 1) =
      (len.map fun l => (space l : ℤ)).sum :=
    weigh_tally _ fun l hl => Nat.lt_succ_of_le (hlen l hl)
  have hused : (len.map fun l => (space l : ℤ)).sum = (used len : ℤ) := by
    rw [used, Nat.cast_list_sum, map_map]
    rfl
  have hterms : ∀ l ∈ Finset.range (maxBits + 1),
      ((countLengths len l * 2 ^ (maxBits - l) : ℕ) : ℤ) = tally len l * (space l : ℤ) := by
    intro l hl
    rcases Nat.eq_zero_or_pos l with rfl | hpos
    · simp [countLengths, space]
    · rw [space_of_pos hpos (Nat.lt_succ_iff.mp (Finset.mem_range.mp hl)), countLengths,
        update_of_ne (by omega)]
      push_cast
      ring
  have hcast : ((kraft (countLengths len) maxBits (maxBits + 1) : ℕ) : ℤ) = used len := by
    rw [kraft, Nat.cast_sum, Finset.sum_congr rfl hterms, ← hused, ← hsum, weigh]
  exact_mod_cast hcast

/-- The lengths that `code_lengths` returns fit the table. -/
theorem used_le {freq : List ℕ} (hcode : CodeFor freq maxBits len) : used len ≤ tableSize := by
  have hspace : ∀ l ∈ len, (space l : ℚ) = tableSize * codeShare l := by
    intro l hl
    rcases Nat.eq_zero_or_pos l with rfl | hpos
    · simp [space, codeShare]
    have hle := hcode.limited l hl
    have hsplit : (2 : ℚ) ^ maxBits = 2 ^ (maxBits - l) * 2 ^ l := by
      rw [← pow_add, Nat.sub_add_cancel hle]
    have hunit : (2 : ℚ) ^ l * (1 / 2) ^ l = 1 := by
      rw [← mul_pow]
      norm_num
    rw [space_of_pos hpos hle, codeShare, if_neg (by omega), share, tableSize]
    push_cast
    rw [hsplit, mul_assoc, hunit, mul_one]
  have hcast : (used len : ℚ) = tableSize * (len.map codeShare).sum := by
    rw [used, Nat.cast_list_sum, map_map, ← sum_map_mul_left]
    congr 1
    exact map_congr_left hspace
  have hle : (used len : ℚ) ≤ tableSize := by
    rw [hcast]
    exact mul_le_of_le_one_right (Nat.cast_nonneg _) hcode.kraft
  exact_mod_cast hle

/-! ## The code of a symbol -/

/-- The number of earlier symbols with the same length. -/
def rank (len : List ℕ) (s l : ℕ) : ℕ := (len.take s).count l

variable {s l : ℕ}

theorem getElem?_assignCodes (hs : len[s]? = some l) (hpos : 0 < l) (hl : l ≤ 16)
    (next : ℕ → ℕ) : (assignCodes len next)[s]? = some (reverseBits l (next l + rank len s l)) := by
  induction len generalizing s next with
  | nil => simp at hs
  | cons first len ih =>
    cases s with
    | zero =>
      obtain rfl : first = l := by simpa using hs
      rw [assignCodes, if_neg (by omega), reverseBits_div hl]
      simp [rank]
    | succ s =>
      have htail := ih (by simpa using hs)
      have hrank : rank (first :: len) (s + 1) l =
          rank len s l + if first = l then 1 else 0 := by
        rw [rank, take_succ_cons, count_cons, rank]
        simp
      rw [assignCodes, hrank]
      split_ifs with hzero hsame hsame
      · omega
      · rw [List.getElem?_cons_succ, htail, Nat.add_zero]
      · subst hsame
        rw [List.getElem?_cons_succ, htail, raise_self]
        congr 2
        omega
      · rw [List.getElem?_cons_succ, htail, raise_of_ne (Ne.symm hsame), Nat.add_zero]

theorem rank_lt_of_lt {s t l : ℕ} (hs : len[s]? = some l) (hlt : s < t) :
    rank len s l < rank len t l := by
  have hnext : rank len (s + 1) l = rank len s l + 1 := by
    rw [rank, take_add_one, hs, count_append, rank]
    simp
  have hmono : rank len (s + 1) l ≤ rank len t l :=
    (take_sublist_take_left (show s + 1 ≤ t from hlt)).count_le l
  omega

theorem rank_lt_count (hs : len[s]? = some l) : rank len s l < len.count l := by
  have hinside : s < len.length := (List.getElem?_eq_some_iff.mp hs).1
  have hlt := rank_lt_of_lt hs hinside
  rwa [rank.eq_1 len len.length, take_length] at hlt

/-- Two symbols of one length with the same rank are one symbol. -/
theorem rank_injective {s t l : ℕ} (hs : len[s]? = some l) (ht : len[t]? = some l)
    (hrank : rank len s l = rank len t l) : s = t := by
  rcases Nat.lt_trichotomy s t with hlt | heq | hgt
  · have := rank_lt_of_lt hs hlt
    omega
  · exact heq
  · have := rank_lt_of_lt ht hgt
    omega

/-! ## The table -/

theorem fill_apply {step : ℕ} (hstep : 0 < step) (out : ℕ → ℕ) (e i x : ℕ) :
    fill out e step i x =
      if x < tableSize ∧ i ≤ x ∧ (x - i) % step = 0 then e else out x := by
  fun_induction fill out e step i with
  | case1 out i hmore ih =>
    rw [ih]
    by_cases hx : x = i
    · subst hx
      rw [if_neg (by omega), update_self, if_pos (by simp [hmore.1])]
    · rw [update_of_ne hx]
      by_cases hle : i + step ≤ x
      · have hshift : (x - i) % step = (x - (i + step)) % step := by
          rw [show x - i = x - (i + step) + step by omega, Nat.add_mod_right]
        congr 1
        simp only [eq_iff_iff]
        omega
      · rw [if_neg (by omega), if_neg]
        rintro ⟨-, hi, hmod⟩
        rw [Nat.mod_eq_of_lt (by omega)] at hmod
        omega
  | case2 out i hdone => rw [if_neg (by omega)]

/-- A code fills exactly the entries whose low bits are the code. -/
theorem fill_code {l c x : ℕ} (hc : c < 2 ^ l) (hx : x < tableSize) (out : ℕ → ℕ)
    (e : ℕ) : fill out e (2 ^ l) c x = if x % 2 ^ l = c then e else out x := by
  rw [fill_apply (Nat.two_pow_pos l)]
  congr 1
  simp only [eq_iff_iff]
  constructor
  · rintro ⟨-, hle, hmod⟩
    have hx' := Nat.div_add_mod (x - c) (2 ^ l)
    rw [show x = c + 2 ^ l * ((x - c) / 2 ^ l) by omega, Nat.add_mul_mod_self_left,
      Nat.mod_eq_of_lt hc]
  · rintro rfl
    refine ⟨hx, Nat.mod_le _ _, ?_⟩
    rw [show x - x % 2 ^ l = 2 ^ l * (x / 2 ^ l) by
      have := Nat.div_add_mod x (2 ^ l)
      omega, Nat.mul_mod_right]

/-- The entry of the bits `x` when every code that `x` starts with says the
same. -/
theorem fillTable_apply {symbols : List (ℕ × ℕ)} {s x value : ℕ} {out : ℕ → ℕ} (hx : x < tableSize)
    (hfits : ∀ k l c : ℕ, symbols[k]? = some (l, c) → 0 < l → c < 2 ^ l)
    (hsame : ∀ k l c : ℕ, symbols[k]? = some (l, c) → 0 < l → x % 2 ^ l = c →
      (s + k) * 16 + l = value) (hsome : out x = value ∨
      ∃ k l c : ℕ, symbols[k]? = some (l, c) ∧ 0 < l ∧ x % 2 ^ l = c) :
    fillTable s symbols out x = value := by
  induction symbols generalizing s out with
  | nil =>
    rcases hsome with hout | ⟨k, l, c, hk, -⟩
    · exact hout
    · simp at hk
  | cons symbol symbols ih =>
    obtain ⟨l, c⟩ := symbol
    refine ih (fun k => hfits (k + 1)) (fun k l c hk hl hcode => ?_) ?_
    · rw [← hsame (k + 1) l c hk hl hcode]
      ring
    · have hfirst : 0 < l → x % 2 ^ l = c → s * 16 + l = value := hsame 0 l c rfl
      have hhead : 0 < l → c < 2 ^ l := hfits 0 l c rfl
      by_cases hmatch : 0 < l ∧ x % 2 ^ l = c
      · left
        rw [if_neg (by omega), fill_code (hhead hmatch.1) hx, if_pos hmatch.2,
          hfirst hmatch.1 hmatch.2]
      · rcases hsome with hout | ⟨k, l', c', hk, hl', hcode⟩
        · left
          split_ifs with hzero
          · exact hout
          · rw [fill_code (hhead (by omega)) hx, if_neg fun heq => hmatch ⟨by omega, heq⟩, hout]
        · right
          cases k with
          | zero =>
            obtain ⟨rfl, rfl⟩ : l = l' ∧ c = c' := by simpa using hk
            exact absurd ⟨hl', hcode⟩ hmatch
          | succ k => exact ⟨k, l', c', by simpa using hk, hl', hcode⟩

/-- Codes and table of one alphabet: the table finds the symbol of a code
whatever bits follow it. -/
structure Agree (len codes : List ℕ) (out : ℕ → ℕ) : Prop where
  fits : ∀ s l : ℕ, len[s]? = some l → 0 < l → l ≤ maxBits ∧ codes.getD s 0 < 2 ^ l
  finds : ∀ s l x : ℕ, len[s]? = some l → 0 < l → x < tableSize →
    x % 2 ^ l = codes.getD s 0 → out x = s * 16 + l

/-- The bits `x` start with the code number `k` of length `l` when the reversed
bits, as a fraction, do. -/
theorem owns_of_mod {count : ℕ → ℕ} {l r x : ℕ} (hl : l ≤ maxBits)
    (hcode : firstCode count l + r < 2 ^ l)
    (hx : x % 2 ^ l = reverseBits l (firstCode count l + r)) :
    Owns count maxBits l r (reverseBits maxBits x) := by
  rw [Owns, reverseBits_div hl, ← reverseBits_mod, hx, reverseBits_reverseBits,
    Nat.mod_eq_of_lt hcode]

theorem codes_table_agree (hlen : ∀ l ∈ len, l ≤ maxBits) (hused : used len ≤ tableSize) :
    ∃ cs out, codes len = .ok cs ∧ table len = .ok out ∧ Agree len cs out := by
  set count := countLengths len with hcount
  set cs := assignCodes len (firstCode count) with hcs
  have hkraft : kraft count maxBits (maxBits + 1) ≤ 2 ^ maxBits := by
    rw [hcount, kraft_countLengths hlen]
    exact hused
  have hcodes : codes len = .ok cs := by
    rw [codes, require_eq_ok hlen, ok_bind]
  have hbound : ∀ {s l : ℕ}, len[s]? = some l → l ≤ maxBits := fun hs => hlen _ (mem_of_getElem? hs)
  have hrank : ∀ {s l : ℕ}, len[s]? = some l → 0 < l → rank len s l < count l := by
    intro s l hs hpos
    rw [hcount, countLengths, update_of_ne (by omega), tally_eq_count]
    exact rank_lt_count hs
  have hcode : ∀ {s l : ℕ}, len[s]? = some l → 0 < l →
      cs[s]? = some (reverseBits l (firstCode count l + rank len s l)) := by
    intro s l hs hpos
    have := hbound hs
    exact getElem?_assignCodes hs hpos (by rw [maxBits] at this; omega) _
  have hlt : ∀ {s l : ℕ}, len[s]? = some l → 0 < l →
      firstCode count l + rank len s l < 2 ^ l :=
    fun hs hpos => code_lt (hbound hs) (hrank hs hpos) hkraft
  have hzip : ∀ {k l c : ℕ}, (len.zip cs)[k]? = some (l, c) →
      len[k]? = some l ∧ cs[k]? = some c := by
    intro k l c hk
    rw [List.getElem?_zip_eq_some] at hk
    exact hk
  refine ⟨cs, fillTable 0 (len.zip cs) fun _ => 0, hcodes, ?_, ?_, ?_⟩
  · rw [table, if_neg (by push Not; exact hlen), if_neg (by omega), hcodes, ok_bind]
  · intro s l hs hpos
    rw [getD_eq_getElem?_getD, hcode hs hpos]
    exact ⟨hbound hs, reverseBits_lt _ _⟩
  · intro s l x hs hpos hx hmod
    rw [getD_eq_getElem?_getD, hcode hs hpos, Option.getD_some] at hmod
    have howns := owns_of_mod (hbound hs) (hlt hs hpos) hmod
    refine fillTable_apply hx ?_ ?_ (.inr ⟨s, l, _, ?_, hpos, hmod⟩)
    · intro k l' c hk hpos'
      obtain ⟨hk, hc⟩ := hzip hk
      rw [hcode hk hpos', Option.some.injEq] at hc
      rw [← hc]
      exact reverseBits_lt _ _
    · intro k l' c hk hpos' hmod'
      obtain ⟨hk, hc⟩ := hzip hk
      rw [hcode hk hpos', Option.some.injEq] at hc
      rw [← hc] at hmod'
      have hother := owns_of_mod (hbound hk) (hlt hk hpos') hmod'
      obtain ⟨rfl, hranks⟩ := howns.unique (hbound hs) (hrank hs hpos) (hbound hk)
        (hrank hk hpos') hother
      rw [rank_injective hs hk hranks, Nat.zero_add]
    · rw [List.getElem?_zip_eq_some]
      exact ⟨hs, hcode hs hpos⟩

/-! ## The table against the codes -/

/-- The code of symbol `s`, its first bit the most significant: codes are in
order of length, then of symbol. -/
def canonicalCode (len : List ℕ) (s : ℕ) : ℕ :=
  firstCode (countLengths len) (len.getD s 0) + rank len s (len.getD s 0)

/-- The bits `x` start with the code of symbol `s`, which has `l` bits. -/
structure Starts (len : List ℕ) (x s l : ℕ) : Prop where
  length : len[s]? = some l
  pos : 0 < l
  bits : x % 2 ^ l = reverseBits l (canonicalCode len s)

theorem getElem?_codes {cs : List ℕ} (hlen : ∀ l ∈ len, l ≤ maxBits)
    (hcodes : codes len = .ok cs) (hs : len[s]? = some l) (hpos : 0 < l) :
    cs[s]? = some (reverseBits l (canonicalCode len s)) := by
  have hl : l ≤ 12 := hlen l (mem_of_getElem? hs)
  rw [codes, require_eq_ok hlen, ok_bind] at hcodes
  cases hcodes
  rw [getElem?_assignCodes hs hpos (by omega), canonicalCode, getD_eq_getElem?_getD, hs,
    Option.getD_some]

theorem canonicalCode_lt (hlen : ∀ l ∈ len, l ≤ maxBits) (hused : used len ≤ tableSize)
    (hs : len[s]? = some l) (hpos : 0 < l) : canonicalCode len s < 2 ^ l := by
  have hkraft : kraft (countLengths len) maxBits (maxBits + 1) ≤ 2 ^ maxBits := by
    rw [kraft_countLengths hlen]
    exact hused
  have hrank : rank len s l < countLengths len l := by
    rw [countLengths, update_of_ne (by omega), tally_eq_count]
    exact rank_lt_count hs
  rw [canonicalCode, getD_eq_getElem?_getD, hs, Option.getD_some]
  exact code_lt (hlen l (mem_of_getElem? hs)) hrank hkraft

/-- The table finds the symbol whose code comes next, and nothing when there is
none. -/
theorem table_starts (hlen : ∀ l ∈ len, l ≤ maxBits) (hused : used len ≤ tableSize) :
    ∃ out, table len = .ok out ∧
      (∀ x s l, x < tableSize → Starts len x s l → out x = s * 16 + l) ∧
      ∀ x, x < tableSize → (∀ s l, ¬Starts len x s l) → out x = 0 := by
  obtain ⟨cs, out, hcodes, htable, hagree⟩ := codes_table_agree hlen hused
  refine ⟨out, htable, fun x s l hx hstarts => ?_, fun x hx hnone => ?_⟩
  · apply hagree.finds s l x hstarts.length hstarts.pos hx
    rw [getD_eq_getElem?_getD, getElem?_codes hlen hcodes hstarts.length hstarts.pos,
      Option.getD_some, hstarts.bits]
  · rw [table, if_neg (by push Not; exact hlen), if_neg (by omega), hcodes, ok_bind] at htable
    cases htable
    have hcode : ∀ k l c : ℕ, (len.zip cs)[k]? = some (l, c) → 0 < l →
        len[k]? = some l ∧ c = reverseBits l (canonicalCode len k) := by
      intro k l c hk hpos
      rw [List.getElem?_zip_eq_some] at hk
      refine ⟨hk.1, ?_⟩
      rw [getElem?_codes hlen hcodes hk.1 hpos, Option.some.injEq] at hk
      exact hk.2.symm
    refine fillTable_apply hx (fun k l c hk hpos => ?_) (fun k l c hk hpos hbits => ?_) (.inl rfl)
    · rw [(hcode k l c hk hpos).2]
      exact reverseBits_lt _ _
    · obtain ⟨hlength, rfl⟩ := hcode k l c hk hpos
      exact absurd ⟨hlength, hpos, hbits⟩ (hnone k l)

/-- At most one code comes next. -/
theorem Starts.unique {x s t l m : ℕ} (hlen : ∀ l ∈ len, l ≤ maxBits) (hused : used len ≤ tableSize)
    (hx : x < tableSize) (hs : Starts len x s l) (ht : Starts len x t m) : s = t ∧ l = m := by
  obtain ⟨out, -, hfinds, -⟩ := table_starts hlen hused
  have hl : l ≤ 12 := hlen l (mem_of_getElem? hs.length)
  have hm : m ≤ 12 := hlen m (mem_of_getElem? ht.length)
  have hsame := (hfinds x s l hx hs).symm.trans (hfinds x t m hx ht)
  omega

end Vetro.PrefixCode
