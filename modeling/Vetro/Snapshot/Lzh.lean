import Vetro.Snapshot.BitStream
import Vetro.Snapshot.Matcher

/-!
# The frame codec

`vetro-snapshot/src/lzh.rs`: the tokens of a frame are written with two prefix
codes, one for literals and match lengths and one for distances, whose lengths
come first.  Every frame decompresses to the bytes it was made from, whatever
the encoder compressed before.
-/

namespace Vetro.Lzh

open Bytes List Option
open BitPack
open Splice
open Kraft
open Outcome
open Lz77
open Huffman
open PrefixCode
open BitStream
open Matcher
open Format (Error)

/-! ## Model -/

/-- Length codes (values below `2 ^ 16`). -/
def lenCodes : ℕ := 40

/-- Literal/length alphabet: 256 bytes and the length codes. -/
def llCodes : ℕ := 256 + lenCodes

/-- Distance codes (values below `2 ^ 18`). -/
def distCodes : ℕ := 44

/-- Bytes of the code lengths at the start of a frame. -/
def header : ℕ := (llCodes + distCodes) / 2

/-- Bucket of value `v`: (code, extra bits, extra value). -/
def bucket (v : ℕ) : ℕ × ℕ × ℕ :=
  if v < 16 then (v, 0, 0)
  else
    let n := Nat.log2 v
    let m := (v >>> (n - 1)) % 2
    (16 + 2 * (n - 4) + m, n - 1, v % 2 ^ (n - 1))

/-- Base value and extra bits of a code. -/
def codeBase (code : ℕ) : ℕ × ℕ :=
  if code < 16 then (code, 0)
  else
    let n := (code - 16) / 2 + 4
    let m := (code - 16) % 2
    ((2 ||| m) <<< (n - 1), n - 1)

/-- The literal/length symbol of a token. -/
def llSymbol (tok : ℕ × ℕ) : ℕ :=
  if tok.2 = 0 then tok.1 else 256 + (bucket (tok.1 - minMatch)).1

/-- The distance symbol of a token. -/
def distSymbol (tok : ℕ × ℕ) : ℕ := (bucket (tok.2 - 1)).1

/-- How often each of `size` symbols occurs. -/
def frequency (size : ℕ) (symbols : List ℕ) : Result Error (List ℕ) := do
  require (∀ s ∈ symbols, s < size)
  .ok ((List.range size).map (tally symbols))

/-- The lengths and codes of the two alphabets. -/
structure Codes where
  llLen : List ℕ
  ddLen : List ℕ
  llCode : List ℕ
  ddCode : List ℕ

/-- What a token writes after its first code. -/
def Codes.tail (codes : Codes) (tok : ℕ × ℕ) : List (ℕ × ℕ) :=
  if tok.2 = 0 then []
  else
    let (_, bits, extra) := bucket (tok.1 - minMatch)
    let (c, distBits, distExtra) := bucket (tok.2 - 1)
    [(extra, bits), (codes.ddCode.getD c 0, codes.ddLen.getD c 0), (distExtra, distBits)]

/-- The fields that a token writes. -/
def Codes.fields (codes : Codes) (tok : ℕ × ℕ) : List (ℕ × ℕ) :=
  (codes.llCode.getD (llSymbol tok) 0, codes.llLen.getD (llSymbol tok) 0) ::
    codes.tail tok

/-- The code lengths, two to a byte, low nibble first. -/
def nibbles : List ℕ → List Byte
  | [] => []
  | [low] => [UInt8.ofNat low]
  | low :: high :: rest => UInt8.ofNat (low ||| (high <<< 4) % 2 ^ 8) :: nibbles rest

/-- The second half of `Encoder::compress`: the bytes of the tokens. -/
def encodeTokens (toks : List (ℕ × ℕ)) : Result Error (List Byte) := do
  require (∀ tok ∈ toks, tok.2 ≠ 0 → minMatch ≤ tok.1)
  let ll ← frequency llCodes (toks.map llSymbol)
  let dd ← frequency distCodes ((toks.filter fun tok => tok.2 ≠ 0).map distSymbol)
  let llLen ← codeLengths ll maxBits
  let ddLen ← codeLengths dd maxBits
  let llCode ← codes llLen
  let ddCode ← codes ddLen
  let fields := toks.flatMap (Codes.fields ⟨llLen, ddLen, llCode, ddCode⟩)
  .ok (BitWriter.putAll ⟨nibbles (llLen ++ ddLen), 0, 0⟩ fields).finish

/-- Compresses `src` (at most `frame` bytes): the bytes appended, and the
encoder afterwards. -/
def compress (self : Encoder) (src : List Byte) : Result Error (List Byte × Encoder) := do
  require (src.length ≤ frame)
  let self ← self.tokens src
  let out ← encodeTokens self.toks
  .ok (out, self)

def nibble (src : List Byte) (i : ℕ) : ℕ :=
  ((src.getD (i / 2) 0).toNat >>> (4 * (i % 2))) % 16

/-- The four ways to carry out a copy.  A range outside the buffer, or one that
starts before it, is a panic. -/
def copyMatch (dst : List Byte) (stop o dist len : ℕ) : Result Error (List Byte) :=
  if dist = 1 then do
    require (1 ≤ o ∧ o + len ≤ dst.length)
    .ok (writeAt dst o (List.replicate len (dst.getD (o - 1) 0)))
  else if 8 ≤ dist ∧ o + len + 8 ≤ stop then do
    require (∀ k < len, k % 8 = 0 → dist ≤ o + k ∧ o + k + 8 ≤ dst.length)
    .ok (copyWide 8 dst o dist len 0)
  else if len ≤ dist then do
    require (dist ≤ o ∧ o + len ≤ dst.length)
    .ok (writeAt dst o (slice dst (o - dist) (o - dist + len)))
  else do
    require (∀ k < len, dist ≤ o + k ∧ o + k < dst.length)
    .ok (copyForward dst o dist len)

/-- The copy whose length symbol is `s`: its length and the buffer after it. -/
def decodeMatch (dd : ℕ → ℕ) (stop s : ℕ) (r : BitReader) (o : ℕ) (dst : List Byte) :
    Result Error (ℕ × BitReader × List Byte) := do
  let r ← r.refill
  let code := s - 256
  if lenCodes ≤ code then fail (.invalid "frame: length code")
  else
    let (extra, r) ← r.bits (codeBase code).2
    let len := (codeBase code).1 + extra + minMatch
    let (dc, r) ← r.symbol dd
    require (dc < distCodes)
    let (extra, r) ← r.bits (codeBase dc).2
    let dist := (codeBase dc).1 + extra + 1
    if o < dist ∨ stop - o < len then fail (.invalid "frame: copy outside the frame")
    else
      let dst ← copyMatch dst stop o dist len
      .ok (len, r, dst)

/-- `if r.n < MAX_BITS { r.refill() }`. -/
def topUp (r : BitReader) : Result Error BitReader :=
  if r.n < maxBits then r.refill else .ok r

/-- One turn for every symbol `s` that was read.  Inside a run of literals the
reader is refilled only when it may not hold a whole code, and always after a
copy.  Every symbol writes at least one byte, so `fuel` turns are enough for as
many bytes. -/
def decodeLoop (ll dd : ℕ → ℕ) (stop : ℕ) :
    ℕ → ℕ → BitReader → ℕ → List Byte → Result Error (BitReader × List Byte)
  | 0, _, _, _, _ => hang
  | fuel + 1, s, r, o, dst =>
    if s < 256 then do
      require (o < dst.length)
      let dst := dst.set o (UInt8.ofNat s)
      if o + 1 = stop then .ok (r, dst)
      else
        let r ← topUp r
        let (s, r) ← r.symbol ll
        decodeLoop ll dd stop fuel s r (o + 1) dst
    else do
      let (len, r, dst) ← decodeMatch dd stop s r o dst
      if o + len < stop then
        let r ← r.refill
        let (s, r) ← r.symbol ll
        decodeLoop ll dd stop fuel s r (o + len) dst
      else .ok (r, dst)

/-- The bit stream of a frame, decoded into `dst`. -/
def decodeStream (ll dd : ℕ → ℕ) (r : BitReader) (dst : List Byte) :
    Result Error (List Byte) := do
  let (r, dst) ←
    if 0 < dst.length then do
      let r ← r.refill
      let (s, r) ← r.symbol ll
      decodeLoop ll dd dst.length dst.length s r 0 dst
    else .ok (r, dst)
  r.check
  .ok dst

/-- Decompresses the frame `src` into `dst`, which must come out exactly
full. -/
def decompress (src dst : List Byte) : Result Error (List Byte) :=
  if frame < dst.length then fail (.invalid "frame too long")
  else if src.length < header then fail .truncated
  else do
    let lens := (List.range (llCodes + distCodes)).map (nibble src)
    let ll ← table (lens.take llCodes)
    let dd ← table (lens.drop llCodes)
    decodeStream ll dd ⟨src.drop header, 0, 0, 0⟩ dst

/-! ## Buckets -/

private theorem bucket_large {v : ℕ} (hv : 16 ≤ v) :
    let n := Nat.log2 v
    4 ≤ n ∧ 2 ≤ v / 2 ^ (n - 1) ∧ v / 2 ^ (n - 1) < 4 := by
  intro n
  have hne : v ≠ 0 := by omega
  have hlow : 2 ^ n ≤ v := Nat.log2_self_le hne
  have hhigh : v < 2 ^ (n + 1) := Nat.lt_log2_self
  have hfour : 4 ≤ n := (Nat.le_log2 hne).mpr (by omega)
  obtain ⟨k, hk⟩ : ∃ k, n = k + 1 := ⟨n - 1, by omega⟩
  have hpow : 0 < 2 ^ k := Nat.two_pow_pos k
  rw [hk] at hlow hhigh
  refine ⟨hfour, ?_, ?_⟩
  · rw [hk, Nat.add_sub_cancel, Nat.le_div_iff_mul_le hpow]
    omega
  · rw [hk, Nat.add_sub_cancel, Nat.div_lt_iff_lt_mul hpow]
    omega

/-- A value is the base of its code plus the extra bits. -/
theorem codeBase_bucket (v : ℕ) : (codeBase (bucket v).1).1 + (bucket v).2.2 = v ∧
      (codeBase (bucket v).1).2 = (bucket v).2.1 ∧
      (bucket v).2.2 < 2 ^ (bucket v).2.1 := by
  by_cases hsmall : v < 16
  · simp [bucket, codeBase, hsmall]
  obtain ⟨hn, hlow, hhigh⟩ := bucket_large (Nat.le_of_not_lt hsmall)
  set n := Nat.log2 v with hlog
  have hbucket : bucket v =
      (16 + 2 * (n - 4) + (v >>> (n - 1)) % 2, n - 1, v % 2 ^ (n - 1)) := by
    rw [bucket, if_neg hsmall]
  set m := (v >>> (n - 1)) % 2 with hm
  have htop : 2 ||| m = v / 2 ^ (n - 1) := by
    have hsum : 2 ||| m = 2 + m := by
      rcases (show m = 0 ∨ m = 1 by omega) with h | h
      · rw [h]
        rfl
      · rw [h]
        rfl
    omega
  have hbase : codeBase (16 + 2 * (n - 4) + m) =
      (v / 2 ^ (n - 1) * 2 ^ (n - 1), n - 1) := by
    rw [codeBase, if_neg (by omega)]
    simp only [show (16 + 2 * (n - 4) + m - 16) / 2 + 4 = n by omega,
      show (16 + 2 * (n - 4) + m - 16) % 2 = m by omega, htop, Nat.shiftLeft_eq]
  rw [hbucket]
  simp only [hbase]
  refine ⟨?_, trivial, Nat.mod_lt _ (Nat.two_pow_pos _)⟩
  rw [Nat.mul_comm]
  exact Nat.div_add_mod v _

theorem bucket_bounds {v bits : ℕ} (hbits : 4 ≤ bits) (hv : v < 2 ^ bits) :
    (bucket v).1 < 8 + 2 * bits ∧ (bucket v).2.1 < bits := by
  by_cases hsmall : v < 16
  · simp only [bucket, if_pos hsmall]
    omega
  have hlog : Nat.log2 v < bits := (Nat.log2_lt (by omega)).mpr hv
  obtain ⟨hn, -, -⟩ := bucket_large (Nat.le_of_not_lt hsmall)
  simp only [bucket, if_neg hsmall]
  omega

/-! ## The header -/

theorem length_nibbles (lens : List ℕ) : (nibbles lens).length = (lens.length + 1) / 2 := by
  fun_induction nibbles lens with
  | case1 => rfl
  | case2 low => simp
  | case3 low high rest ih =>
    simp only [length_cons, ih]
    omega

private theorem nibble_byte {low high : ℕ} (hlow : low < 16) (hhigh : high < 16) :
    (UInt8.ofNat (low ||| (high <<< 4) % 2 ^ 8)).toNat = low + high * 16 := by
  have hor := or_shiftLeft_mod (show low < 2 ^ 4 by omega) (show high * 2 ^ 4 < 2 ^ 8 by omega)
  rw [hor, UInt8.toNat_ofNat']
  omega

/-- Reading back the lengths, whatever follows them. -/
theorem nibble_nibbles {lens : List ℕ} (hlens : ∀ l ∈ lens, l < 16) (more : List Byte)
    {i : ℕ} (hi : i < lens.length) : nibble (nibbles lens ++ more) i = lens.getD i 0 := by
  fun_induction nibbles lens generalizing i with
  | case1 => simp at hi
  | case2 low =>
    obtain rfl : i = 0 := by simpa using hi
    have hlow := hlens low (by simp)
    simp [nibble]
    omega
  | case3 low high rest ih =>
    have hlow := hlens low (by simp)
    have hhigh := hlens high (by simp)
    have hbyte := nibble_byte hlow hhigh
    rcases i with _ | _ | i
    · simp only [nibble, cons_append, Nat.zero_div, getD_cons_zero, hbyte,
        Nat.zero_mod, Nat.mul_zero, Nat.shiftRight_zero]
      omega
    · simp only [nibble, cons_append, getD_cons_succ, getD_cons_zero,
        show 1 / 2 = 0 from rfl, hbyte, Nat.shiftRight_eq_div_pow,
        show 2 ^ (4 * (1 % 2)) = 16 from rfl]
      omega
    · have hrest := ih (fun l hl => hlens l (by simp [hl])) (show i < rest.length by simpa using hi)
      simp only [nibble, cons_append, getD_cons_succ,
        show (i + 2) / 2 = i / 2 + 1 by omega, show (i + 2) % 2 = i % 2 by omega]
      exact hrest

theorem map_nibble {lens : List ℕ} (hlens : ∀ l ∈ lens, l < 16) (more : List Byte) :
    (List.range lens.length).map (nibble (nibbles lens ++ more)) = lens := by
  apply ext_getElem
  · simp
  · intro i hi hi'
    rw [getElem_map, getElem_range, nibble_nibbles hlens more hi',
      getD_eq_getElem?_getD, List.getElem?_eq_getElem hi', getD_some]

/-! ## Decoding the tokens -/

/-- The tables decode the codes that the tokens are written with. -/
structure Coded (codes : Codes) (ll dd : ℕ → ℕ) (toks : List (ℕ × ℕ)) : Prop where
  llAgree : Agree codes.llLen codes.llCode ll
  ddAgree : Agree codes.ddLen codes.ddCode dd
  llUsed : ∀ tok ∈ toks, ∃ l, codes.llLen[llSymbol tok]? = some l ∧ 0 < l
  ddUsed : ∀ tok ∈ toks, tok.2 ≠ 0 → ∃ l, codes.ddLen[distSymbol tok]? = some l ∧ 0 < l

variable {toks : List (ℕ × ℕ)} {tok : ℕ × ℕ} {ll dd : ℕ → ℕ}

theorem Coded.tail {codes : Codes} (hcoded : Coded codes ll dd (tok :: toks)) :
    Coded codes ll dd toks :=
  ⟨hcoded.llAgree, hcoded.ddAgree, fun other hother => hcoded.llUsed other (by simp [hother]),
    fun other hother => hcoded.ddUsed other (by simp [hother])⟩

/-- The reader stands where the fields begin. -/
structure At (r : BitReader) (stream : List Byte) (position : ℕ) (fields : List (ℕ × ℕ)) :
    Prop where
  reads : Reads r position
  src_eq : r.src = stream
  ahead : ofLeBytes stream / 2 ^ position = pack fields

variable {stream : List Byte} {fields : List (ℕ × ℕ)} {r : BitReader} {position : ℕ}

theorem At.refill (hat : At r stream position fields) :
    ∃ next, r.refill = .ok next ∧ At next stream position fields ∧ 56 ≤ next.n := by
  obtain ⟨next, hrefill, hreads, hsrc, hn⟩ := refill_spec hat.reads
  exact ⟨next, hrefill, ⟨hreads, hsrc.trans hat.src_eq, hat.ahead⟩, hn⟩

theorem At.topUp (hat : At r stream position fields) :
    ∃ next, topUp r = .ok next ∧ At next stream position fields ∧ maxBits ≤ next.n := by
  rw [Lzh.topUp]
  split_ifs with hfew
  · obtain ⟨next, hrefill, hnext, hn⟩ := hat.refill
    exact ⟨next, hrefill, hnext, by rw [show maxBits = 12 from rfl]; omega⟩
  · exact ⟨r, rfl, hat, by omega⟩

private theorem ahead_next {value bits : ℕ} (hvalue : value < 2 ^ bits)
    (hahead : ofLeBytes stream / 2 ^ position = pack ((value, bits) :: fields)) :
    ofLeBytes stream / 2 ^ (position + bits) = pack fields := by
  rw [pow_add, ← Nat.div_div_eq_div_mul, hahead, pack_cons_div fields hvalue]

theorem At.bits {value bits : ℕ} (hat : At r stream position ((value, bits) :: fields))
    (hvalue : value < 2 ^ bits) (hn : bits ≤ r.n) :
    ∃ next, r.bits bits = .ok (value, next) ∧ At next stream (position + bits) fields ∧
      next.n = r.n - bits := by
  obtain ⟨next, hbits, hreads, hsrc, hleft⟩ := bits_spec hat.reads hn
  rw [hat.src_eq, hat.ahead, pack_cons_mod fields hvalue] at hbits
  exact ⟨next, hbits, ⟨hreads, hsrc.trans hat.src_eq, ahead_next hvalue hat.ahead⟩, hleft⟩

theorem At.symbol {s l : ℕ} {len codes : List ℕ} {out : ℕ → ℕ} (hagree : Agree len codes out)
    (hs : len[s]? = some l) (hl : 0 < l)
    (hat : At r stream position ((codes.getD s 0, len.getD s 0) :: fields)) (hn : maxBits ≤ r.n) :
    ∃ next, r.symbol out = .ok (s, next) ∧ At next stream (position + l) fields ∧
      next.n = r.n - l := by
  obtain ⟨-, hfits⟩ := hagree.fits s l hs hl
  have hlen : len.getD s 0 = l := by rw [getD_eq_getElem?_getD, hs, getD_some]
  obtain ⟨hreads, hsrc, hahead⟩ := hat
  rw [hlen] at hahead
  obtain ⟨next, hsymbol, hnext, hsame, hleft⟩ := symbol_spec hreads hagree hn hs hl
    (by rw [hsrc, hahead, pack_cons_mod fields hfits])
  exact ⟨next, hsymbol, ⟨hnext, hsame.trans hsrc, ahead_next hfits hahead⟩, hleft⟩

variable {dst src : List Byte}

/-- Whichever way a copy is carried out, it stays inside the buffer and extends
what is decoded. -/
theorem copyMatch_filled {o dist len : ℕ} (hfilled : Filled src dst o)
    (hrepeats : Repeats src o dist len) :
    ∃ filled, copyMatch dst src.length o dist len = .ok filled ∧
      Filled src filled (o + len) := by
  have hback := hrepeats.back
  have hfits := hrepeats.fits
  have hlength := hfilled.length_eq
  rw [copyMatch]
  split_ifs with hone hwide hfar
  · subst hone
    have hlast : dst[o - 1]? = some (dst.getD (o - 1) 0) := by
      rw [getD_eq_getElem?_getD, List.getElem?_eq_getElem (by omega), getD_some]
    rw [require_eq_ok (by omega), ok_bind]
    exact ⟨_, rfl, hfilled.fill_last hrepeats hlast⟩
  · rw [require_eq_ok (fun k hk _ => by omega), ok_bind]
    exact ⟨_, rfl, Filled.copyWide (by decide) hwide.1 hrepeats hwide.2 (by simpa using hfilled)⟩
  · rw [require_eq_ok (by omega), ok_bind]
    exact ⟨_, rfl, hfilled.copy_within hrepeats hfar⟩
  · rw [require_eq_ok (fun k hk => by omega), ok_bind]
    exact ⟨_, rfl, hfilled.copyForward hrepeats⟩

/-- The part of a match after its length code. -/
theorem decodeMatch_spec {codes : Codes} {rest : List (ℕ × ℕ)} {o : ℕ}
    (hcoded : Coded codes ll dd (tok :: toks)) (hd : tok.2 ≠ 0) (hmin : minMatch ≤ tok.1)
    (hmax : tok.1 ≤ maxMatch) (hrepeats : Repeats src o tok.2 tok.1) (hframe : src.length ≤ frame)
    (hat : At r stream position (codes.tail tok ++ rest)) (hfilled : Filled src dst o) :
    ∃ next filled, decodeMatch dd src.length (llSymbol tok) r o dst =
        .ok (tok.1, next, filled) ∧
      At next stream (position + width (codes.tail tok)) rest ∧
      Filled src filled (o + tok.1) := by
  obtain ⟨l, d⟩ := tok
  have hback := hrepeats.back
  have hfits := hrepeats.fits
  have hbounds : minMatch = 4 ∧ maxMatch = 4 + 2 ^ 16 - 1 ∧ frame = 2 ^ 18 := ⟨rfl, rfl, rfl⟩
  obtain ⟨hlenCode, hlenBits⟩ :=
    bucket_bounds (show 4 ≤ 16 by decide) (show l - minMatch < 2 ^ 16 by omega)
  obtain ⟨hdistCode, hdistBits⟩ :=
    bucket_bounds (show 4 ≤ 18 by decide) (show d - 1 < 2 ^ 18 by omega)
  obtain ⟨hlen, hlenBase, hlenExtra⟩ := codeBase_bucket (l - minMatch)
  obtain ⟨hdist, hdistBase, hdistExtra⟩ := codeBase_bucket (d - 1)
  obtain ⟨bits, hbits, hbitsPos⟩ := hcoded.ddUsed (l, d) mem_cons_self hd
  have hbitsMax := (hcoded.ddAgree.fits _ _ hbits hbitsPos).1
  rw [show maxBits = 12 from rfl] at hbitsMax
  have htail : codes.tail (l, d) =
      [((bucket (l - minMatch)).2.2, (bucket (l - minMatch)).2.1),
        (codes.ddCode.getD (distSymbol (l, d)) 0, codes.ddLen.getD (distSymbol (l, d)) 0),
        ((bucket (d - 1)).2.2, (bucket (d - 1)).2.1)] := by
    rw [Codes.tail, if_neg hd]
    rfl
  have hsymbol : llSymbol (l, d) - 256 = (bucket (l - minMatch)).1 := by
    rw [llSymbol, if_neg hd, Nat.add_sub_cancel_left]
  rw [htail] at hat
  obtain ⟨r₁, hrefill, hat₁, hn₁⟩ := hat.refill
  obtain ⟨r₂, hextra, hat₂, hn₂⟩ := hat₁.bits hlenExtra (by omega)
  obtain ⟨r₃, hread, hat₃, hn₃⟩ := hat₂.symbol hcoded.ddAgree hbits hbitsPos
    (show 12 ≤ r₂.n by omega)
  obtain ⟨r₄, hextra', hat₄, -⟩ := hat₃.bits hdistExtra (by omega)
  obtain ⟨filled, hcopy, hfilled'⟩ := copyMatch_filled hfilled hrepeats
  refine ⟨r₄, filled, ?_, ?_, hfilled'⟩
  · rw [decodeMatch, hrefill, ok_bind]
    simp only [hsymbol]
    rw [if_neg (show ¬lenCodes ≤ (bucket (l - minMatch)).1 by
      rw [show lenCodes = 40 from rfl]; omega)]
    simp only [hlenBase, hextra, ok_bind, hread]
    rw [require_eq_ok (show distSymbol (l, d) < distCodes by
      rw [show distCodes = 44 from rfl, distSymbol]; omega), ok_bind]
    simp only [distSymbol, hdistBase, hextra', ok_bind, hlen, hdist]
    rw [show l - minMatch + minMatch = l by omega, show d - 1 + 1 = d by omega,
      if_neg (by omega), hcopy, ok_bind]
  · have hwidth : width (codes.tail (l, d)) = (bucket (l - minMatch)).2.1 + (bits +
        (bucket (d - 1)).2.1) := by
      rw [htail]
      simp [hbits]
    rw [hwidth, ← Nat.add_assoc, ← Nat.add_assoc]
    exact hat₄

/-- Reading the first code of the next token. -/
theorem Coded.symbol {codes : Codes} (hcoded : Coded codes ll dd (tok :: toks))
    (hat : At r stream position ((tok :: toks).flatMap codes.fields)) (hn : maxBits ≤ r.n) :
    ∃ next, r.symbol ll = .ok (llSymbol tok, next) ∧
      At next stream (position + codes.llLen.getD (llSymbol tok) 0)
        (codes.tail tok ++ toks.flatMap codes.fields) := by
  obtain ⟨l, hl, hpos⟩ := hcoded.llUsed tok mem_cons_self
  have hlen : codes.llLen.getD (llSymbol tok) 0 = l := by
    rw [getD_eq_getElem?_getD, hl, getD_some]
  obtain ⟨next, hsymbol, hnext, -⟩ := hat.symbol hcoded.llAgree hl hpos hn
  rw [hlen]
  exact ⟨next, hsymbol, hnext⟩

/-- What a turn of the loop does with the token whose symbol was read. -/
theorem decodeLoop_turn {codes : Codes} (hframe : src.length ≤ frame) {o : ℕ}
    (hcoded : Coded codes ll dd (tok :: toks)) (hspells : Spells src o (tok :: toks))
    (hat : At r stream position (codes.tail tok ++ toks.flatMap codes.fields))
    (hfilled : Filled src dst o) (fuel : ℕ) :
    ∃ next o' filled,
      At next stream (position + width (codes.tail tok)) (toks.flatMap codes.fields) ∧
      Spells src o' toks ∧ Filled src filled o' ∧ o < o' ∧
      (o' = src.length → decodeLoop ll dd src.length (fuel + 1) (llSymbol tok) r o dst =
        .ok (next, filled)) ∧
      (o' < src.length → ∃ ready, At ready stream (position + width (codes.tail tok))
          (toks.flatMap codes.fields) ∧ maxBits ≤ ready.n ∧
        decodeLoop ll dd src.length (fuel + 1) (llSymbol tok) r o dst =
          (do let (s, r) ← ready.symbol ll
              decodeLoop ll dd src.length fuel s r o' filled)) := by
  obtain ⟨l, d⟩ := tok
  rw [Spells] at hspells
  split_ifs at hspells with hd
  · -- a literal: nothing more of it is in the stream
    obtain ⟨ho, hl, hrest⟩ := hspells
    have hsymbol : llSymbol (l, d) = l := by rw [llSymbol, if_pos hd]
    have hbyte : UInt8.ofNat l = src.getD o 0 := by rw [hl, UInt8.ofNat_toNat]
    have hsmall : l < 256 := hl ▸ (src.getD o 0).toNat_lt
    have htail : codes.tail (l, d) = [] := by rw [Codes.tail, if_pos hd]
    have hsrc : src[o]? = some (UInt8.ofNat l) := by
      rw [hbyte, getD_eq_getElem?_getD, List.getElem?_eq_getElem ho, getD_some]
    rw [htail, nil_append] at hat
    rw [htail, width_nil, Nat.add_zero, hsymbol]
    refine ⟨r, o + 1, dst.set o (UInt8.ofNat l), hat, hrest, hfilled.set hsrc, by omega, ?_, ?_⟩
    · intro hlast
      rw [decodeLoop, if_pos hsmall, require_eq_ok (by rw [hfilled.length_eq]; omega), ok_bind]
      rw [if_pos hlast]
    · intro hmore
      obtain ⟨ready, hrun, hat', hn⟩ := hat.topUp
      refine ⟨ready, hat', hn, ?_⟩
      rw [decodeLoop, if_pos hsmall, require_eq_ok (by rw [hfilled.length_eq]; omega), ok_bind]
      rw [if_neg (by omega), hrun, ok_bind]
  · obtain ⟨hmin, hmax, hrepeats, hrest⟩ := hspells
    obtain ⟨next, filled, hmatch, hat', hfilled'⟩ :=
      decodeMatch_spec hcoded hd hmin hmax hrepeats hframe hat hfilled
    have hlarge : ¬llSymbol (l, d) < 256 := by
      rw [llSymbol, if_neg hd]
      omega
    have hpos : 4 ≤ l := hmin
    refine ⟨next, o + l, filled, hat', hrest, hfilled', by omega, ?_, ?_⟩
    · intro hlast
      rw [decodeLoop, if_neg hlarge, hmatch, ok_bind]
      dsimp only
      rw [if_neg (by omega)]
    · intro hmore
      obtain ⟨ready, hrefill, hready, hn⟩ := hat'.refill
      refine ⟨ready, hready, by rw [show maxBits = 12 from rfl]; omega, ?_⟩
      rw [decodeLoop, if_neg hlarge, hmatch, ok_bind]
      dsimp only
      rw [if_pos hmore, hrefill, ok_bind]

/-- The decoder's loop turns the fields of the tokens into the frame. -/
theorem decodeLoop_spec {codes : Codes} (hframe : src.length ≤ frame) {fuel o : ℕ}
    (hcoded : Coded codes ll dd (tok :: toks)) (hspells : Spells src o (tok :: toks))
    (hat : At r stream position (codes.tail tok ++ toks.flatMap codes.fields))
    (hfilled : Filled src dst o) (hfuel : src.length ≤ o + fuel) :
    ∃ next, decodeLoop ll dd src.length fuel (llSymbol tok) r o dst = .ok (next, src) ∧
      At next stream (position + width (codes.tail tok ++ toks.flatMap codes.fields)) [] := by
  induction toks generalizing tok fuel o r dst position with
  | nil =>
    have hlt := hspells.lt
    obtain ⟨fuel, rfl⟩ : ∃ left, fuel = left + 1 := ⟨fuel - 1, by omega⟩
    obtain ⟨next, o', filled, hnext, hend, hfilled', -, hlast, -⟩ :=
      decodeLoop_turn hframe hcoded hspells hat hfilled fuel
    rw [hend] at hfilled'
    refine ⟨next, by rw [hlast hend, hfilled'.eq], ?_⟩
    rwa [flatMap_nil, append_nil]
  | cons following toks ih =>
    have hlt := hspells.lt
    obtain ⟨fuel, rfl⟩ : ∃ left, fuel = left + 1 := ⟨fuel - 1, by omega⟩
    obtain ⟨-, o', filled, -, hrest, hfilled', ho', -, hmore⟩ :=
      decodeLoop_turn hframe hcoded hspells hat hfilled fuel
    obtain ⟨ready, hready, hn, hturn⟩ := hmore hrest.lt
    obtain ⟨r', hsymbol, hat'⟩ := hcoded.tail.symbol hready hn
    obtain ⟨next, hrun, hnext⟩ := ih hcoded.tail hrest hat' hfilled'
      (show src.length ≤ o' + fuel by omega)
    refine ⟨next, by rw [hturn, hsymbol, ok_bind]; exact hrun, ?_⟩
    have hwidth : width (codes.tail tok ++ (following :: toks).flatMap codes.fields) =
        width (codes.tail tok) + (codes.llLen.getD (llSymbol following) 0 +
          width (codes.tail following ++ toks.flatMap codes.fields)) := by
      rw [width_append, flatMap_cons, Codes.fields, cons_append, width_cons]
    rwa [hwidth, ← Nat.add_assoc, ← Nat.add_assoc]

/-- The whole stream of a frame. -/
theorem decodeStream_spec {codes : Codes} (hframe : src.length ≤ frame)
    (hcoded : Coded codes ll dd toks) (hspells : Spells src 0 toks)
    (hstream : ofLeBytes stream = pack (toks.flatMap codes.fields))
    (hwidth : width (toks.flatMap codes.fields) ≤ 8 * stream.length)
    (hlength : dst.length = src.length) : decodeStream ll dd ⟨stream, 0, 0, 0⟩ dst = .ok src := by
  have hat : At ⟨stream, 0, 0, 0⟩ stream 0 (toks.flatMap codes.fields) :=
    ⟨reads_start stream, rfl, by rw [pow_zero, Nat.div_one, hstream]⟩
  cases toks with
  | nil =>
    rw [Spells] at hspells
    have hsrc : src = [] := eq_nil_of_length_eq_zero hspells.symm
    have hdst : dst = [] := eq_nil_of_length_eq_zero (by omega)
    subst hsrc hdst
    rw [decodeStream, if_neg (by simp), ok_bind]
    dsimp only
    rw [check_spec hat.reads (Nat.zero_le _), ok_bind]
  | cons tok toks =>
    have hlt := hspells.lt
    obtain ⟨ready, hrefill, hready, hn⟩ := hat.refill
    obtain ⟨r, hsymbol, hat'⟩ := hcoded.symbol hready (by rw [show maxBits = 12 from rfl]; omega)
    obtain ⟨next, hrun, hnext⟩ := decodeLoop_spec hframe hcoded hspells hat'
      (filled_zero hlength) (show src.length ≤ 0 + src.length by omega)
    have hend : 0 + codes.llLen.getD (llSymbol tok) 0 +
        width (codes.tail tok ++ toks.flatMap codes.fields) ≤ 8 * next.src.length := by
      rw [hnext.src_eq, Nat.zero_add]
      rwa [flatMap_cons, Codes.fields, cons_append, width_cons] at hwidth
    rw [decodeStream, if_pos (by omega), hrefill, ok_bind, hsymbol, ok_bind]
    simp only [hlength, hrun, ok_bind, check_spec hnext.reads hend]

/-! ## Round trip -/

theorem llSymbol_lt {n : ℕ} (hvalid : Valid n tok) : llSymbol tok < llCodes := by
  have hbounds : llCodes = 296 ∧ minMatch = 4 ∧ maxMatch = 4 + 2 ^ 16 - 1 := ⟨rfl, rfl, rfl⟩
  rcases hvalid with ⟨hliteral, hbyte⟩ | ⟨hmatch, -, hmin, hmax⟩
  · rw [llSymbol, if_pos hliteral]
    omega
  · have hcode := (bucket_bounds (show 4 ≤ 16 by decide)
      (show tok.1 - minMatch < 2 ^ 16 by omega)).1
    rw [llSymbol, if_neg hmatch]
    omega

theorem distSymbol_lt {n : ℕ} (hframe : n ≤ frame) (hvalid : Valid n tok) :
    distSymbol tok < distCodes := by
  have hbounds : frame = 2 ^ 18 ∧ distCodes = 44 := ⟨rfl, rfl⟩
  have hsmall : tok.2 - 1 < 2 ^ 18 := by
    rcases hvalid with ⟨hliteral, -⟩ | ⟨-, hle, -⟩
    · omega
    · omega
  have hcode := (bucket_bounds (show 4 ≤ 18 by decide) hsmall).1
  rw [distSymbol]
  omega

/-- One alphabet: its symbols get lengths, codes and a table that agree. -/
theorem alphabet_spec {size : ℕ} {symbols : List ℕ} (hsize : size ≤ tableSize)
    (hsymbols : ∀ s ∈ symbols, s < size) :
    ∃ freq len cs out, frequency size symbols = .ok freq ∧
      codeLengths freq maxBits = .ok len ∧ codes len = .ok cs ∧ table len = .ok out ∧
      Agree len cs out ∧ len.length = size ∧ (∀ l ∈ len, l ≤ maxBits) ∧
      ∀ s ∈ symbols, ∃ l, len[s]? = some l ∧ 0 < l := by
  set freq := (List.range size).map (tally symbols) with hfreq
  have hlength : freq.length = size := by simp [hfreq]
  have hcount : ∀ s < size, freq.getD s 0 = symbols.count s := by
    intro s hs
    rw [hfreq, getD_eq_getElem?_getD, List.getElem?_map, List.getElem?_range hs,
      map_some, getD_some, tally_eq_count]
  have hroom : (usedSymbols freq).length ≤ 2 ^ maxBits := by
    calc
      (usedSymbols freq).length ≤ (List.range freq.length).length :=
        length_filter_le _ _
      _ ≤ 2 ^ maxBits := by rw [length_range, hlength]; exact hsize
  obtain ⟨len, hlen, hcode, -⟩ := codeLengths_spec (show 1 ≤ maxBits by decide)
    (show maxBits < 256 by decide) hroom
  obtain ⟨cs, out, hcodes, htable, hagree⟩ := codes_table_agree hcode.limited (used_le hcode)
  refine ⟨freq, len, cs, out, ?_, hlen, hcodes, htable, hagree,
    hcode.length.trans hlength, hcode.limited, fun s hs => ?_⟩
  · rw [frequency, require_eq_ok hsymbols, ok_bind]
  · have hlt : s < len.length := by
      rw [hcode.length, hlength]
      exact hsymbols s hs
    refine ⟨len[s], List.getElem?_eq_getElem hlt, Nat.pos_of_ne_zero fun hzero => ?_⟩
    have hunused := (hcode.used s (by rw [hlength]; exact hsymbols s hs)).mp
      (by rw [getD_eq_getElem?_getD, List.getElem?_eq_getElem hlt, getD_some,
        hzero])
    rw [hcount s (hsymbols s hs), count_eq_zero] at hunused
    exact hunused hs

/-- Every field that a token writes fits its width. -/
theorem Coded.fields_fit {codes : Codes} {n : ℕ} (hframe : n ≤ frame)
    (hcoded : Coded codes ll dd toks) (hvalid : ∀ tok ∈ toks, Valid n tok) :
    ∀ field ∈ toks.flatMap codes.fields, field.1 < 2 ^ field.2 ∧ field.2 ≤ 56 := by
  have hcode : ∀ {len cs : List ℕ} {out : ℕ → ℕ} {s : ℕ}, Agree len cs out →
      (∃ l, len[s]? = some l ∧ 0 < l) →
      cs.getD s 0 < 2 ^ len.getD s 0 ∧ len.getD s 0 ≤ 56 := by
    rintro len cs out s hagree ⟨l, hl, hpos⟩
    obtain ⟨hmax, hfits⟩ := hagree.fits s l hl hpos
    rw [show maxBits = 12 from rfl] at hmax
    rw [show len.getD s 0 = l by rw [getD_eq_getElem?_getD, hl, getD_some]]
    exact ⟨hfits, by omega⟩
  have hextra : ∀ {v bits : ℕ}, 4 ≤ bits → bits ≤ 56 → v < 2 ^ bits →
      (bucket v).2.2 < 2 ^ (bucket v).2.1 ∧ (bucket v).2.1 ≤ 56 := by
    intro v bits hfour hsmall hv
    have hbits := (bucket_bounds hfour hv).2
    exact ⟨(codeBase_bucket v).2.2, by omega⟩
  intro field hfield
  obtain ⟨tok, htok, hfield⟩ := mem_flatMap.mp hfield
  have hbounds : frame = 2 ^ 18 ∧ minMatch = 4 ∧ maxMatch = 4 + 2 ^ 16 - 1 := ⟨rfl, rfl, rfl⟩
  rw [Codes.fields, Codes.tail] at hfield
  rcases mem_cons.mp hfield with rfl | htail
  · exact hcode hcoded.llAgree (hcoded.llUsed tok htok)
  · split_ifs at htail with hliteral
    · exact absurd htail not_mem_nil
    · rcases hvalid tok htok with ⟨hzero, -⟩ | ⟨-, hdist, hmin, hmax⟩
      · exact absurd hzero hliteral
      simp only [mem_cons, not_mem_nil, or_false] at htail
      rcases htail with rfl | rfl | rfl
      · exact hextra (show 4 ≤ 16 by decide) (by decide) (by omega)
      · exact hcode hcoded.ddAgree (hcoded.ddUsed tok htok hliteral)
      · exact hextra (show 4 ≤ 18 by decide) (by decide) (by omega)

/-- What the tokens of a frame are written as decompresses to the frame. -/
theorem decompress_encodeTokens (hframe : src.length ≤ frame) (hspells : Spells src 0 toks) :
    ∃ out, encodeTokens toks = .ok out ∧
      ∀ dst : List Byte, dst.length = src.length → decompress out dst = .ok src := by
  have hvalid := hspells.valid
  have hmins : ∀ tok ∈ toks, tok.2 ≠ 0 → minMatch ≤ tok.1 := by
    intro tok htok hmatch
    rcases hvalid tok htok with ⟨hzero, -⟩ | ⟨-, -, hmin, -⟩
    · exact absurd hzero hmatch
    · exact hmin
  obtain ⟨llFreq, llLen, llCode, ll, hll, hllLen, hllCode, hllTable, hllAgree, hllSize,
    hllMax, hllUsed⟩ := alphabet_spec (show llCodes ≤ tableSize by decide)
      (show ∀ s ∈ toks.map llSymbol, s < llCodes by
        intro s hs
        obtain ⟨tok, htok, rfl⟩ := mem_map.mp hs
        exact llSymbol_lt (hvalid tok htok))
  obtain ⟨ddFreq, ddLen, ddCode, dd, hdd, hddLen, hddCode, hddTable, hddAgree, hddSize,
    hddMax, hddUsed⟩ := alphabet_spec (show distCodes ≤ tableSize by decide)
      (show ∀ s ∈ (toks.filter fun tok => tok.2 ≠ 0).map distSymbol, s < distCodes by
        intro s hs
        obtain ⟨tok, htok, rfl⟩ := mem_map.mp hs
        exact distSymbol_lt hframe (hvalid tok (mem_filter.mp htok).1))
  have hcoded : Coded ⟨llLen, ddLen, llCode, ddCode⟩ ll dd toks := by
    refine ⟨hllAgree, hddAgree, fun tok htok => ?_, fun tok htok hmatch => ?_⟩
    · exact hllUsed _ (mem_map_of_mem htok)
    · exact hddUsed _ (mem_map_of_mem (mem_filter.mpr ⟨htok, by simpa using hmatch⟩))
  obtain ⟨stream, hfinish, hstream, hwidth⟩ := putAll_finish (nibbles (llLen ++ ddLen))
    (hcoded.fields_fit hframe hvalid)
  have hlens : ∀ l ∈ llLen ++ ddLen, l < 16 := by
    intro l hl
    have hmax : l ≤ maxBits := (mem_append.mp hl).elim (hllMax l) (hddMax l)
    rw [show maxBits = 12 from rfl] at hmax
    omega
  have hlength : (llLen ++ ddLen).length = llCodes + distCodes := by
    rw [length_append, hllSize, hddSize]
  have hheader : (nibbles (llLen ++ ddLen)).length = header := by
    rw [length_nibbles, hlength]
    rfl
  refine ⟨nibbles (llLen ++ ddLen) ++ stream, ?_, fun dst hdst => ?_⟩
  · rw [encodeTokens, require_eq_ok hmins, ok_bind, hll, ok_bind, hdd, ok_bind, hllLen,
      ok_bind, hddLen, ok_bind, hllCode, ok_bind, hddCode, ok_bind]
    exact congrArg Except.ok hfinish
  · have hread := map_nibble hlens stream
    rw [hlength] at hread
    rw [decompress, if_neg (by omega), if_neg (by rw [length_append, hheader]; omega)]
    simp only [hread]
    rw [take_left' hllSize, drop_left' hllSize, drop_left' hheader, hllTable,
      ok_bind, hddTable, ok_bind]
    exact decodeStream_spec hframe hcoded hspells hstream hwidth hdst

/-- Compressing a frame returns, and decompressing gives the frame back. -/
theorem compress_decodes (hframe : src.length ≤ frame) (enc : Encoder) :
    ∃ out next, compress enc src = .ok (out, next) ∧
      ∀ dst : List Byte, dst.length = src.length → decompress out dst = .ok src := by
  obtain ⟨next, -, htokens, -, -, hspells⟩ := tokens_spec hframe enc enc
  obtain ⟨out, hencode, hdecode⟩ := decompress_encodeTokens hframe hspells
  refine ⟨out, next, ?_, hdecode⟩
  rw [compress, require_eq_ok hframe, ok_bind, htokens, ok_bind, hencode, ok_bind]

/-- The bytes of a frame do not depend on the encoder's state. -/
theorem compress_other {out : List Byte} {enc next : Encoder} (hframe : src.length ≤ frame)
    (hcompress : compress enc src = .ok (out, next)) (other : Encoder) :
    ∃ otherNext, compress other src = .ok (out, otherNext) := by
  obtain ⟨self, otherNext, htokens, hother, hsame, -⟩ := tokens_spec hframe enc other
  rw [compress, require_eq_ok hframe, ok_bind, htokens, ok_bind, bind_eq_ok] at hcompress
  obtain ⟨bytes, hencode, hbytes⟩ := hcompress
  cases hbytes
  refine ⟨otherNext, ?_⟩
  rw [compress, require_eq_ok hframe, ok_bind, hother, ok_bind, hsame, hencode, ok_bind]

/-- For every frame and every state that earlier frames may have left the
encoder in, compressing returns, decompressing into a buffer of the frame's
length gives the frame back, and the bytes are those of every other encoder. -/
theorem frame_round_trip (src : List Byte) (hframe : src.length ≤ frame) (enc : Encoder) :
    ∃ out next, compress enc src = .ok (out, next) ∧
      (∀ dst : List Byte, dst.length = src.length → decompress out dst = .ok src) ∧
      ∀ other : Encoder, ∃ otherNext, compress other src = .ok (out, otherNext) := by
  obtain ⟨out, next, hcompress, hdecode⟩ := compress_decodes hframe enc
  exact ⟨out, next, hcompress, hdecode, compress_other hframe hcompress⟩

theorem frame_round_trip_abab :
    ∃ out next, compress Encoder.new [97, 98, 97, 98, 97, 98, 97, 98] = .ok (out, next) ∧
      (∀ dst : List Byte, dst.length = 8 →
        decompress out dst = .ok [97, 98, 97, 98, 97, 98, 97, 98]) ∧
      ∀ other : Encoder, ∃ otherNext,
        compress other [97, 98, 97, 98, 97, 98, 97, 98] = .ok (out, otherNext) :=
  frame_round_trip [97, 98, 97, 98, 97, 98, 97, 98] (by decide) Encoder.new

end Vetro.Lzh
