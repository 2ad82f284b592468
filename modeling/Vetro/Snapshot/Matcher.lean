import Vetro.Core.BitPack
import Vetro.Core.Lz77
import Vetro.Snapshot.Format

/-!
# Matches of the frame codec

The first half of `Encoder::compress`: hash chains over the frame and one step
of lazy matching turn the bytes into tokens.  `head` and `prev` keep what an
earlier frame left in them; only `head` is cleared, and a chain never leaves
the positions of the current frame.
-/

namespace Vetro.Matcher

open Function List
open Bytes
open BitPack
open Splice
open Outcome
open Lz77
open Format (Error)

/-! ## Model -/

/-- Largest frame (64 pages of 4 KiB). -/
def frame : ℕ := 64 * 4096

/-- Shortest match. -/
def minMatch : ℕ := 4

/-- Longest match (`len - minMatch` below `2 ^ 16`). -/
def maxMatch : ℕ := minMatch + 2 ^ 16 - 1

def maxChain : ℕ := 48

/-- Matches at least this long are taken without looking one byte further. -/
def lazyMax : ℕ := 64

/-- Working memory of the compressor.  Tokens: `dist = 0` is the literal
`len`. -/
structure Encoder where
  head : ℕ → ℕ
  prev : ℕ → ℕ
  toks : List (ℕ × ℕ)

def Encoder.new : Encoder := ⟨fun _ => 0, fun _ => 0, []⟩

def hash4 (b : List Byte) (i : ℕ) : ℕ :=
  (ofLeBytes (slice b i (i + 4)) * 0x9e3779b1 % 2 ^ 32) >>> 16

/-- The end of `common`, one byte at a time. -/
def commonBytes (b : List Byte) (a i max l : ℕ) : Result Error ℕ :=
  if l < max then do
    require (a + l < b.length ∧ i + l < b.length)
    if b[a + l]? = b[i + l]? then commonBytes b a i max (l + 1) else .ok l
  else .ok l
termination_by max - l

/-- Common length of `b[a..]` and `b[i..]` from `l` on, at most `max`. -/
def common (b : List Byte) (a i max l : ℕ) : Result Error ℕ :=
  if l + 8 ≤ max then do
    require (a + l + 8 ≤ b.length ∧ i + l + 8 ≤ b.length)
    let x := ofLeBytes (slice b (a + l) (a + l + 8))
    let y := ofLeBytes (slice b (i + l) (i + l + 8))
    if x ≠ y then .ok (l + trailingZeros 64 (x ^^^ y) / 8)
    else common b a i max (l + 8)
  else commonBytes b a i max l
termination_by max - l

def Encoder.insert (self : Encoder) (b : List Byte) (i : ℕ) : Result Error Encoder :=
  if i + minMatch ≤ b.length then do
    let h := hash4 b i
    require (i < frame)
    .ok { self with prev := update self.prev i (self.head h)
                    head := update self.head h (i + 1) }
  else .ok self

/-- The best match after the candidate `c`. -/
def improve (b : List Byte) (i max c best dist : ℕ) : Result Error (ℕ × ℕ) :=
  if best < max then do
    require (c + best < b.length ∧ i + best < b.length)
    if b[c + best]? = b[i + best]? then
      let l ← common b c i max 0
      if best < l then
        require (c ≤ i)
        .ok (l, i - c)
      else .ok (best, dist)
    else .ok (best, dist)
  else .ok (best, dist)

/-- The loop of `find` over a chain of candidates. -/
def findLoop (prev : ℕ → ℕ) (b : List Byte) (i max : ℕ) :
    ℕ → ℕ → ℕ → ℕ → Result Error (ℕ × ℕ)
  | 0, _, best, dist => .ok (best, dist)
  | chain + 1, cand, best, dist =>
    if cand = 0 then .ok (best, dist)
    else do
      let c := cand - 1
      let (best', dist') ← improve b i max c best dist
      -- the source breaks out when a better match cannot be improved
      if best < best' ∧ best' = max then .ok (best', dist')
      else
        require (c < frame)
        findLoop prev b i max chain (prev c) best' dist'

/-- Longest earlier match for position `i`: (length, distance). -/
def Encoder.find (self : Encoder) (b : List Byte) (i : ℕ) : Result Error (ℕ × ℕ) :=
  if b.length < i + minMatch then .ok (0, 0)
  else do
    let max := min (b.length - i) maxMatch
    let (best, dist) ← findLoop self.prev b i max maxChain (self.head (hash4 b i)) 0 0
    if best < minMatch then .ok (0, 0) else .ok (best, dist)

def Encoder.push (self : Encoder) (l d : ℕ) : Encoder :=
  { self with toks := self.toks ++ [(l, d)] }

/-- The byte at `i` as a token. -/
def Encoder.pushLiteral (self : Encoder) (src : List Byte) (i : ℕ) : Encoder :=
  self.push (src.getD i 0).toNat 0

/-- `for p in from..from + count { self.insert(src, p) }`. -/
def Encoder.insertRange (self : Encoder) (src : List Byte) (start : ℕ) :
    ℕ → Result Error Encoder
  | 0 => .ok self
  | count + 1 => do
    let self ← self.insert src start
    self.insertRange src (start + 1) count

/-- One step of lazy matching: a longer match one byte further is taken
instead, after a literal. -/
def Encoder.lazy (self : Encoder) (src : List Byte) (i l₀ d₀ : ℕ) :
    Result Error (ℕ × ℕ × ℕ × Encoder) :=
  if l₀ < lazyMax ∧ i + 1 < src.length then do
    let (l₁, d₁) ← self.find src (i + 1)
    if l₀ < l₁ then
      let self ← (self.pushLiteral src i).insert src (i + 1)
      .ok (i + 1, l₁, d₁, self)
    else .ok (i, l₀, d₀, self)
  else .ok (i, l₀, d₀, self)

/-- The loop over the frame.  Every turn takes at least one byte, so `fuel`
turns are enough for as many bytes. -/
def Encoder.tokenLoop (src : List Byte) : ℕ → ℕ → Encoder → Result Error Encoder
  | 0, i, self => if i < src.length then hang else .ok self
  | fuel + 1, i, self =>
    if i < src.length then do
      let (l₀, d₀) ← self.find src i
      let self ← self.insert src i
      if l₀ = 0 then tokenLoop src fuel (i + 1) (self.pushLiteral src i)
      else
        let (i, l, d, self) ← self.lazy src i l₀ d₀
        let self ← (self.push l d).insertRange src (i + 1) (l - 1)
        tokenLoop src fuel (i + l) self
    else .ok self

/-- The tokens of a frame. -/
def Encoder.tokens (self : Encoder) (src : List Byte) : Result Error Encoder :=
  Encoder.tokenLoop src src.length 0 { self with head := fun _ => 0, toks := [] }

/-! ## Common lengths -/

/-- `b` has the same bytes from `a` and from `i` on, for `l` bytes. -/
def Matches (b : List Byte) (a i l : ℕ) : Prop := ∀ k < l, b[a + k]? = b[i + k]?

variable {b : List Byte} {i : ℕ}

theorem Matches.append {a l more : ℕ} (hfirst : Matches b a i l)
    (hmore : Matches b (a + l) (i + l) more) : Matches b a i (l + more) := by
  intro k hk
  by_cases hlow : k < l
  · exact hfirst k hlow
  · have hnext := hmore (k - l) (by omega)
    rwa [show a + l + (k - l) = a + k by omega,
      show i + l + (k - l) = i + k by omega] at hnext

theorem commonBytes_spec {a max l : ℕ} (ha : a < i) (hmax : i + max ≤ b.length) (hl : l ≤ max)
    (hmatches : Matches b a i l) :
    ∃ found, commonBytes b a i max l = .ok found ∧ found ≤ max ∧
      Matches b a i found := by
  fun_induction commonBytes b a i max l with
  | case1 l hmore ih =>
    rw [require_eq_ok (by omega), ok_bind]
    split_ifs with hsame
    · have hone : Matches b (a + l) (i + l) 1 := by
        intro k hk
        obtain rfl : k = 0 := by omega
        exact hsame
      exact ih (by omega) (hmatches.append hone)
    · exact ⟨l, rfl, hl, hmatches⟩
  | case2 l hdone => exact ⟨l, rfl, hl, hmatches⟩

/-- Eight bytes read as numbers that agree on their low bits. -/
theorem matches_of_mod_eq {a count : ℕ} (hcount : count ≤ 8) (ha : a + 8 ≤ b.length)
    (hi : i + 8 ≤ b.length) (heq : ofLeBytes (slice b a (a + 8)) % 2 ^ (8 * count) =
      ofLeBytes (slice b i (i + 8)) % 2 ^ (8 * count)) : Matches b a i count := by
  have hpow : 2 ^ (8 * count) = 256 ^ count := by
    rw [pow_mul]
    norm_num
  rw [hpow, ← ofLeBytes_take, ← ofLeBytes_take] at heq
  have hbytes := ofLeBytes_injective_of_length
    (by rw [length_take, length_take, length_slice, length_slice]; omega) heq
  intro k hk
  have hat := congrArg (fun list => list[k]?) hbytes
  simpa [List.getElem?_take_of_lt hk, getElem?_slice, show k < 8 by omega] using hat

/-- Eight bytes that differ agree up to the byte of the first bit that does. -/
theorem matches_of_ne {a : ℕ} (ha : a + 8 ≤ b.length) (hi : i + 8 ≤ b.length)
    (hne : ofLeBytes (slice b a (a + 8)) ≠ ofLeBytes (slice b i (i + 8))) :
    let zeros := trailingZeros 64 (ofLeBytes (slice b a (a + 8)) ^^^ ofLeBytes (slice b i (i + 8)))
    zeros / 8 < 8 ∧ Matches b a i (zeros / 8) := by
  intro zeros
  have hlt : zeros < 64 := by
    by_contra hlong
    have heq := mod_eq_of_trailingZeros_xor (show 64 ≤ zeros by omega)
    have hword : ∀ j, ofLeBytes (slice b j (j + 8)) < 2 ^ 64 := fun j =>
      ofLeBytes_lt_of_le 8 (by rw [length_slice]; omega) (by decide)
    rw [Nat.mod_eq_of_lt (hword a), Nat.mod_eq_of_lt (hword i)] at heq
    exact hne heq
  refine ⟨by omega, matches_of_mod_eq (by omega) ha hi ?_⟩
  exact mod_eq_of_trailingZeros_xor (show 8 * (zeros / 8) ≤ zeros by omega)

theorem common_spec {a max l : ℕ} (ha : a < i) (hmax : i + max ≤ b.length) (hl : l ≤ max)
    (hmatches : Matches b a i l) :
    ∃ found, common b a i max l = .ok found ∧ found ≤ max ∧ Matches b a i found := by
  fun_induction common b a i max l with
  | case1 l hmore ih =>
    rw [require_eq_ok (by omega), ok_bind]
    dsimp only
    split_ifs with hne
    · obtain ⟨hfew, hmore'⟩ := matches_of_ne (by omega) (by omega) hne
      exact ⟨_, rfl, by omega, hmatches.append hmore'⟩
    · have heq := not_not.mp hne
      have height : Matches b (a + l) (i + l) 8 :=
        matches_of_mod_eq le_rfl (by omega) (by omega) (by rw [heq])
      exact ih (by omega) (hmatches.append height)
  | case2 l hdone => exact commonBytes_spec ha hmax hl hmatches

/-! ## Chains -/

/-- A candidate of position `i`: zero, or one more than an earlier position
with room for a match. -/
def Earlier (n i cand : ℕ) : Prop := cand ≠ 0 → cand ≤ i ∧ cand + 3 ≤ n

/-- All positions before `i` are in the chains, and the chains go back from
there. -/
structure Chained (src : List Byte) (enc : Encoder) (i : ℕ) : Prop where
  head : ∀ h, Earlier src.length i (enc.head h)
  prev : ∀ p < i, p + minMatch ≤ src.length → Earlier src.length p (enc.prev p)

/-- Two encoders that differ only in what earlier frames left in `prev`. -/
structure Twins (src : List Byte) (i : ℕ) (enc other : Encoder) : Prop where
  chained : Chained src enc i
  head_eq : other.head = enc.head
  toks_eq : other.toks = enc.toks
  prev_eq : ∀ p < i, p + minMatch ≤ src.length → other.prev p = enc.prev p

variable {src : List Byte} {other : Encoder} {enc : Encoder}

theorem insert_twins (htwins : Twins src i enc other)
    (hframe : src.length ≤ frame) :
    ∃ next otherNext, enc.insert src i = .ok next ∧ other.insert src i = .ok otherNext ∧
      next.toks = enc.toks ∧ Twins src (i + 1) next otherNext := by
  obtain ⟨⟨hhead, hprev⟩, hheads, htoks, hprevs⟩ := htwins
  have hmin : minMatch = 4 := rfl
  rw [Encoder.insert, Encoder.insert]
  split_ifs with hroom
  · rw [require_eq_ok (show i < frame by omega), ok_bind, ok_bind]
    refine ⟨_, _, rfl, rfl, rfl, ⟨?_, ?_⟩, ?_, htoks, ?_⟩
    · intro h
      simp only [update_apply]
      split_ifs with hsame
      · intro _
        omega
      · intro hne
        have := hhead h hne
        omega
    · intro p hp hfits
      simp only [update_apply]
      split_ifs with hsame
      · rw [hsame]
        exact hhead _
      · exact hprev p (by omega) hfits
    · simp only [hheads]
    · intro p hp hfits
      simp only [update_apply, hheads]
      split_ifs with hsame
      · rfl
      · exact hprevs p (by omega) hfits
  · refine ⟨_, _, rfl, rfl, rfl, ⟨?_, ?_⟩, hheads, htoks, ?_⟩
    · intro h hne
      have := hhead h hne
      omega
    · intro p hp hfits
      exact hprev p (by omega) hfits
    · intro p hp hfits
      exact hprevs p (by omega) hfits

/-! ## Searching -/

/-- A match of position `i` found so far: none, or `best` bytes at distance
`dist`. -/
structure Candidate (b : List Byte) (i max best dist : ℕ) : Prop where
  le_max : best ≤ max
  repeats : best ≠ 0 → Repeats b i dist best

theorem improve_spec {max c best dist : ℕ} (hc : c < i) (hmax : i + max ≤ b.length)
    (hcandidate : Candidate b i max best dist) :
    ∃ best' dist', improve b i max c best dist = .ok (best', dist') ∧
      Candidate b i max best' dist' := by
  have hkeep : ∃ best' dist', Except.ok (best, dist) =
      (Except.ok (best', dist') : Result Error (ℕ × ℕ)) ∧
        Candidate b i max best' dist' := ⟨best, dist, rfl, hcandidate⟩
  by_cases hroom : best < max
  · rw [improve, if_pos hroom, require_eq_ok (by omega), ok_bind]
    by_cases hsame : b[c + best]? = b[i + best]?
    · obtain ⟨l, hcommon, hl, hmatches⟩ :=
        common_spec hc hmax (Nat.zero_le max) fun k hk => absurd hk (Nat.not_lt_zero k)
      rw [if_pos hsame, hcommon, ok_bind]
      by_cases hbetter : best < l
      · rw [if_pos hbetter, require_eq_ok (by omega), ok_bind]
        refine ⟨l, i - c, rfl, hl, fun _ => ⟨by omega, by omega, by omega, ?_⟩⟩
        intro offset hoffset
        rw [← hmatches offset hoffset]
        congr 1
        omega
      · rwa [if_neg hbetter]
    · rwa [if_neg hsame]
  · rwa [improve, if_neg hroom]

theorem findLoop_twins {max : ℕ} (htwins : Twins src i enc other)
    (hframe : src.length ≤ frame) (hmax : i + max ≤ src.length) (chain : ℕ) {cand best dist : ℕ}
    (hcand : Earlier src.length i cand) (hcandidate : Candidate src i max best dist) :
    ∃ best' dist',
      findLoop enc.prev src i max chain cand best dist = .ok (best', dist') ∧
      findLoop other.prev src i max chain cand best dist = .ok (best', dist') ∧
      Candidate src i max best' dist' := by
  induction chain generalizing cand best dist with
  | zero => exact ⟨best, dist, rfl, rfl, hcandidate⟩
  | succ chain ih =>
    have hmin : minMatch = 4 := rfl
    rw [findLoop, findLoop]
    split_ifs with hnone
    · exact ⟨best, dist, rfl, rfl, hcandidate⟩
    obtain ⟨hbefore, hroom⟩ := hcand hnone
    obtain ⟨best', dist', himprove, hcandidate'⟩ :=
      improve_spec (show cand - 1 < i by omega) hmax hcandidate
    simp only [himprove, ok_bind]
    split_ifs with hbreak
    · exact ⟨best', dist', rfl, rfl, hcandidate'⟩
    · rw [require_eq_ok (show cand - 1 < frame by omega), ok_bind, ok_bind,
        htwins.prev_eq (cand - 1) (by omega) (by omega)]
      refine ih (fun hne => ?_) hcandidate'
      have hback := htwins.chained.prev (cand - 1) (by omega) (by omega) hne
      omega

/-- What `find` returns: no match, or a long enough repetition. -/
def Found (src : List Byte) (i l d : ℕ) : Prop :=
  l = 0 ∨ minMatch ≤ l ∧ l ≤ maxMatch ∧ Repeats src i d l

theorem find_twins (htwins : Twins src i enc other) (hframe : src.length ≤ frame) :
    ∃ l d, enc.find src i = .ok (l, d) ∧ other.find src i = .ok (l, d) ∧
      Found src i l d := by
  rw [Encoder.find, Encoder.find]
  split_ifs with hshort
  · exact ⟨0, 0, rfl, rfl, .inl rfl⟩
  have hmin : minMatch = 4 := rfl
  have hnothing : Candidate src i (min (src.length - i) maxMatch) 0 0 :=
    ⟨Nat.zero_le _, fun hne => absurd rfl hne⟩
  obtain ⟨best, dist, hself, hother, hcandidate⟩ :=
    findLoop_twins htwins hframe (show i + min (src.length - i) maxMatch ≤ _ by omega) maxChain
      (htwins.chained.head (hash4 src i)) hnothing
  simp only [hself, htwins.head_eq, hother, ok_bind]
  split_ifs with hfew
  · exact ⟨0, 0, rfl, rfl, .inl rfl⟩
  · have hle := hcandidate.le_max
    exact ⟨best, dist, rfl, rfl, .inr ⟨by omega, by omega, hcandidate.repeats (by omega)⟩⟩

/-! ## Tokens -/

/-- The tokens spell the bytes of `src` from `o` on. -/
def Spells (src : List Byte) : ℕ → List (ℕ × ℕ) → Prop
  | o, [] => o = src.length
  | o, (l, d) :: toks =>
    if d = 0 then o < src.length ∧ l = (src.getD o 0).toNat ∧ Spells src (o + 1) toks
    else minMatch ≤ l ∧ l ≤ maxMatch ∧ Repeats src o d l ∧ Spells src (o + l) toks

variable {toks : List (ℕ × ℕ)} {o : ℕ}

theorem spells_literal (ho : o < src.length) (htoks : Spells src (o + 1) toks) :
    Spells src o (((src.getD o 0).toNat, 0) :: toks) := by
  exact ⟨ho, rfl, htoks⟩

theorem spells_match {l d : ℕ} (hmin : minMatch ≤ l) (hmax : l ≤ maxMatch)
    (hrepeats : Repeats src o d l) (htoks : Spells src (o + l) toks) :
    Spells src o ((l, d) :: toks) := by
  have hpos := hrepeats.pos
  rw [Spells, if_neg (by omega)]
  exact ⟨hmin, hmax, hrepeats, htoks⟩

theorem Spells.lt {tok : ℕ × ℕ} (hspells : Spells src o (tok :: toks)) : o < src.length := by
  rw [Spells] at hspells
  split_ifs at hspells with hliteral
  · exact hspells.1
  · have hmin : 4 ≤ tok.1 := hspells.1
    have hfits := hspells.2.2.1.fits
    omega

/-- A token is a literal byte or a match within the frame. -/
def Valid (n : ℕ) (tok : ℕ × ℕ) : Prop :=
  tok.2 = 0 ∧ tok.1 < 256 ∨
    tok.2 ≠ 0 ∧ tok.2 ≤ n ∧ minMatch ≤ tok.1 ∧ tok.1 ≤ maxMatch

theorem Spells.valid (hspells : Spells src o toks) : ∀ tok ∈ toks, Valid src.length tok := by
  induction toks generalizing o with
  | nil => simp
  | cons first toks ih =>
    intro tok htok
    rw [Spells] at hspells
    split_ifs at hspells with hliteral
    · obtain ⟨-, hbyte, hrest⟩ := hspells
      rcases mem_cons.mp htok with rfl | hlater
      · exact .inl ⟨hliteral, hbyte ▸ (src.getD o 0).toNat_lt⟩
      · exact ih hrest tok hlater
    · obtain ⟨hmin, hmax, hrepeats, hrest⟩ := hspells
      have hback := hrepeats.back
      have hfits := hrepeats.fits
      rcases mem_cons.mp htok with rfl | hlater
      · exact .inr ⟨hliteral, by omega, hmin, hmax⟩
      · exact ih hrest tok hlater

theorem Twins.push (htwins : Twins src i enc other) (l d : ℕ) :
    Twins src i (enc.push l d) (other.push l d) := by
  refine ⟨⟨htwins.chained.head, htwins.chained.prev⟩, htwins.head_eq, ?_, htwins.prev_eq⟩
  simp only [Encoder.push, htwins.toks_eq]

theorem insertRange_twins (hframe : src.length ≤ frame) (count : ℕ) {start : ℕ}
    (htwins : Twins src start enc other) :
    ∃ next otherNext, enc.insertRange src start count = .ok next ∧
      other.insertRange src start count = .ok otherNext ∧ next.toks = enc.toks ∧
      Twins src (start + count) next otherNext := by
  induction count generalizing start enc other with
  | zero => exact ⟨enc, other, rfl, rfl, rfl, htwins⟩
  | succ count ih =>
    obtain ⟨middle, otherMiddle, hinsert, hotherInsert, htoks, hmiddle⟩ :=
      insert_twins htwins hframe
    obtain ⟨next, otherNext, hrest, hotherRest, htoks', hnext⟩ := ih hmiddle
    refine ⟨next, otherNext, ?_, ?_, by rw [htoks', htoks], ?_⟩
    · rw [Encoder.insertRange, hinsert, ok_bind, hrest]
    · rw [Encoder.insertRange, hotherInsert, ok_bind, hotherRest]
    · rwa [show start + (count + 1) = start + 1 + count by omega]

/-- What the lazy step settles on: the match at `i'`, and the literals before
it. -/
structure Settled (src : List Byte) (i i' l d : ℕ) (enc next otherNext : Encoder)
    (lits : List (ℕ × ℕ)) : Prop where
  le : i ≤ i'
  min_le : minMatch ≤ l
  le_max : l ≤ maxMatch
  repeats : Repeats src i' d l
  twins : Twins src (i' + 1) next otherNext
  toks_eq : next.toks = enc.toks ++ lits
  spells : ∀ toks, Spells src i' toks → Spells src i (lits ++ toks)

theorem lazy_twins (hframe : src.length ≤ frame) {l₀ d₀ : ℕ}
    (htwins : Twins src (i + 1) enc other) (hmin : minMatch ≤ l₀) (hmax : l₀ ≤ maxMatch)
    (hrepeats : Repeats src i d₀ l₀) :
    ∃ i' l d next otherNext lits, enc.lazy src i l₀ d₀ = .ok (i', l, d, next) ∧
      other.lazy src i l₀ d₀ = .ok (i', l, d, otherNext) ∧
      Settled src i i' l d enc next otherNext lits := by
  have hstay : Settled src i i l₀ d₀ enc enc other [] :=
    ⟨le_rfl, hmin, hmax, hrepeats, htwins, (append_nil _).symm, fun _ h => h⟩
  by_cases hlook : l₀ < lazyMax ∧ i + 1 < src.length
  · obtain ⟨l₁, d₁, hfind, hotherFind, hfound⟩ := find_twins htwins hframe
    by_cases hlonger : l₀ < l₁
    · obtain ⟨hmin₁, hmax₁, hrepeats₁⟩ := hfound.resolve_left (by omega)
      obtain ⟨next, otherNext, hinsert, hotherInsert, htoks, hnext⟩ :=
        insert_twins (htwins.push (src.getD i 0).toNat 0) hframe
      refine ⟨i + 1, l₁, d₁, next, otherNext, [((src.getD i 0).toNat, 0)], ?_, ?_,
        by omega, hmin₁, hmax₁, hrepeats₁, hnext, htoks, fun toks hspells => ?_⟩
      · simp only [Encoder.lazy, if_pos hlook, hfind, ok_bind, if_pos hlonger,
          Encoder.pushLiteral, hinsert]
      · simp only [Encoder.lazy, if_pos hlook, hotherFind, ok_bind, if_pos hlonger,
          Encoder.pushLiteral, hotherInsert]
      · exact spells_literal (by omega) hspells
    · refine ⟨i, l₀, d₀, enc, other, [], ?_, ?_, hstay⟩
      · simp only [Encoder.lazy, if_pos hlook, hfind, ok_bind, if_neg hlonger]
      · simp only [Encoder.lazy, if_pos hlook, hotherFind, ok_bind, if_neg hlonger]
  · refine ⟨i, l₀, d₀, enc, other, [], ?_, ?_, hstay⟩
    · rw [Encoder.lazy, if_neg hlook]
    · rw [Encoder.lazy, if_neg hlook]

theorem tokenLoop_twins (hframe : src.length ≤ frame) (fuel : ℕ)
    (htwins : Twins src i enc other) (hi : i ≤ src.length) (hfuel : src.length ≤ i + fuel) :
    ∃ next otherNext toks, Encoder.tokenLoop src fuel i enc = .ok next ∧
      Encoder.tokenLoop src fuel i other = .ok otherNext ∧
      otherNext.toks = next.toks ∧ next.toks = enc.toks ++ toks ∧ Spells src i toks := by
  induction fuel generalizing i enc other with
  | zero =>
    refine ⟨enc, other, [], ?_, ?_, htwins.toks_eq, (append_nil _).symm, ?_⟩
    · rw [Encoder.tokenLoop, if_neg (by omega)]
    · rw [Encoder.tokenLoop, if_neg (by omega)]
    · rw [Spells]
      omega
  | succ fuel ih =>
    by_cases hmore : i < src.length
    · obtain ⟨l₀, d₀, hfind, hotherFind, hfound⟩ := find_twins htwins hframe
      obtain ⟨enc₁, other₁, hinsert, hotherInsert, htoks₁, htwins₁⟩ := insert_twins htwins hframe
      by_cases hnone : l₀ = 0
      · obtain ⟨next, otherNext, toks, hrun, hotherRun, hsame, htoks, hspells⟩ :=
          ih (htwins₁.push (src.getD i 0).toNat 0) (by omega) (by omega)
        refine ⟨next, otherNext, ((src.getD i 0).toNat, 0) :: toks, ?_, ?_, hsame, ?_,
          spells_literal hmore hspells⟩
        · simp only [Encoder.tokenLoop, if_pos hmore, hfind, hinsert, ok_bind,
            if_pos hnone, Encoder.pushLiteral, hrun]
        · simp only [Encoder.tokenLoop, if_pos hmore, hotherFind, hotherInsert, ok_bind,
            if_pos hnone, Encoder.pushLiteral, hotherRun]
        · rw [htoks, Encoder.push, htoks₁, append_assoc, singleton_append]
      · obtain ⟨hmin₀, hmax₀, hrepeats₀⟩ := hfound.resolve_left hnone
        obtain ⟨i', l, d, enc₂, other₂, lits, hlazy, hotherLazy, hsettled⟩ :=
          lazy_twins hframe htwins₁ hmin₀ hmax₀ hrepeats₀
        have hle := hsettled.le
        have hl : 4 ≤ l := hsettled.min_le
        have hfits := hsettled.repeats.fits
        obtain ⟨enc₃, other₃, hrange, hotherRange, htoks₃, htwins₃⟩ :=
          insertRange_twins hframe (l - 1) (hsettled.twins.push l d)
        rw [show i' + 1 + (l - 1) = i' + l by omega] at htwins₃
        obtain ⟨next, otherNext, toks, hrun, hotherRun, hsame, htoks, hspells⟩ :=
          ih htwins₃ (by omega) (by omega)
        refine ⟨next, otherNext, lits ++ (l, d) :: toks, ?_, ?_, hsame, ?_, ?_⟩
        · simp only [Encoder.tokenLoop, if_pos hmore, hfind, hinsert, ok_bind,
            if_neg hnone, hlazy, hrange, hrun]
        · simp only [Encoder.tokenLoop, if_pos hmore, hotherFind, hotherInsert, ok_bind,
            if_neg hnone, hotherLazy, hotherRange, hotherRun]
        · rw [htoks, htoks₃, Encoder.push, hsettled.toks_eq, htoks₁]
          simp only [append_assoc, singleton_append]
        · exact hsettled.spells _
            (spells_match hsettled.min_le hsettled.le_max hsettled.repeats hspells)
    · refine ⟨enc, other, [], ?_, ?_, htwins.toks_eq, (append_nil _).symm, ?_⟩
      · rw [Encoder.tokenLoop, if_neg hmore]
      · rw [Encoder.tokenLoop, if_neg hmore]
      · rw [Spells]
        omega

/-- Whatever two encoders compressed before, they cut a frame into the same
tokens, and the tokens spell the frame. -/
theorem tokens_spec (hframe : src.length ≤ frame) (enc other : Encoder) :
    ∃ next otherNext, enc.tokens src = .ok next ∧ other.tokens src = .ok otherNext ∧
      otherNext.toks = next.toks ∧ Spells src 0 next.toks := by
  have hfresh : Twins src 0 { enc with head := fun _ => 0, toks := [] }
      { other with head := fun _ => 0, toks := [] } :=
    ⟨⟨fun _ hne => absurd rfl hne, fun p hp => absurd hp (Nat.not_lt_zero p)⟩, rfl, rfl,
      fun p hp => absurd hp (Nat.not_lt_zero p)⟩
  obtain ⟨next, otherNext, toks, hrun, hotherRun, hsame, htoks, hspells⟩ :=
    tokenLoop_twins hframe src.length hfresh (Nat.zero_le _) (by omega)
  exact ⟨next, otherNext, hrun, hotherRun, hsame, htoks ▸ hspells⟩

end Vetro.Matcher
