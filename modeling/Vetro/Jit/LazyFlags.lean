import Mathlib.Tactic.IntervalCases
import Vetro.Core.Wasm

/-!
# Lazy flags

The JIT does not compute NZCV after an instruction that sets the flags: it saves the operands,
the result and the kind of the instruction in locals, and works out the flags, or a condition
directly, when something reads them.  This module relates both to the flags of the
interpreter, for operands of 32 and of 64 bits.
-/

namespace Vetro.LazyFlags

open Wasm BitVec Bool

/-! ## The interpreter -/

structure Flags where
  n : Bool
  z : Bool
  c : Bool
  v : Bool
deriving DecidableEq, Repr

/-- The NZCV that `set_flags` writes. -/
def Flags.nzcv (f : Flags) : BitVec 32 :=
  flag f.n <<< 31 ||| flag f.z <<< 30 ||| flag f.c <<< 29 ||| flag f.v <<< 28

def trunc (v : BitVec 64) (sf : Bool) : BitVec 64 :=
  if sf then v else (v.setWidth 32).setWidth 64

def overflowingAdd (x y : BitVec 64) : BitVec 64 × Bool :=
  (x + y, decide (2 ^ 64 ≤ x.toNat + y.toNat))

def addWithCarry (x y : BitVec 64) (carry sf : Bool) : BitVec 64 × Flags :=
  if sf then
    let (r1, c1) := overflowingAdd x y
    let (r, c2) := overflowingAdd r1 ((ofBool carry).setWidth 64)
    let v := ((x ^^^ r) &&& (y ^^^ r)) >>> 63 != 0
    (r, ⟨r >>> 63 != 0, r == 0, c1 || c2, v⟩)
  else
    let x := x.setWidth 32
    let y := y.setWidth 32
    let wide : BitVec 64 := x.setWidth 64 + y.setWidth 64 + (ofBool carry).setWidth 64
    let r := wide.setWidth 32
    let v := ((x ^^^ r) &&& (y ^^^ r)) >>> 31 != 0
    (r.setWidth 64, ⟨r >>> 31 != 0, r == 0, wide >>> 32 != 0, v⟩)

/-- The flags that `add_sub` sets. -/
def addSubFlags (x y : BitVec 64) (sub sf : Bool) : Flags :=
  (if sub then addWithCarry x (~~~y) true sf else addWithCarry x y false sf).2

/-- The flags that `set_logic_flags` sets. -/
def logicFlags (r : BitVec 64) (sf : Bool) : Flags :=
  ⟨(r >>> (if sf then 63 else 31)) &&& 1 != 0, r == 0, false, false⟩

def Flags.holds (f : Flags) : ℕ → Bool
  | 0 => f.z
  | 1 => f.c
  | 2 => f.n
  | 3 => f.v
  | 4 => f.c && !f.z
  | 5 => f.n == f.v
  | 6 => f.n == f.v && !f.z
  | _ => true

def conditionHolds (nzcv : BitVec 32) (cond : ℕ) : Bool :=
  let f : Flags := ⟨nzcv &&& 1 <<< 31 != 0, nzcv &&& 1 <<< 30 != 0, nzcv &&& 1 <<< 29 != 0,
    nzcv &&& 1 <<< 28 != 0⟩
  let r := f.holds (cond / 2)
  if cond % 2 = 1 ∧ cond ≠ 15 then !r else r

/-! ## The translator -/

/-- The locals that the flags live in, and the registers that the code here writes. -/
structure Locals where
  fk : BitVec 32
  fa : BitVec 64
  fb : BitVec 64
  fr : BitVec 64
  nzcv : BitVec 32
  rd : BitVec 64
deriving DecidableEq, Repr

def lFk : Local Locals :=
  ⟨fun l => .i32 l.fk, fun v l => match v with | .i32 v => some { l with fk := v } | _ => none⟩

def lFa : Local Locals :=
  ⟨fun l => .i64 l.fa, fun v l => match v with | .i64 v => some { l with fa := v } | _ => none⟩

def lFb : Local Locals :=
  ⟨fun l => .i64 l.fb, fun v l => match v with | .i64 v => some { l with fb := v } | _ => none⟩

def lFr : Local Locals :=
  ⟨fun l => .i64 l.fr, fun v l => match v with | .i64 v => some { l with fr := v } | _ => none⟩

def lNzcv : Local Locals :=
  ⟨fun l => .i32 l.nzcv, fun v l => match v with | .i32 v => some { l with nzcv := v } | _ => none⟩

def lRd : Local Locals :=
  ⟨fun l => .i64 l.rd, fun v l => match v with | .i64 v => some { l with rd := v } | _ => none⟩

inductive Kind where
  | add64 | sub64 | add32 | sub32 | logic64 | logic32
deriving DecidableEq, Repr

/-- The number of a kind in `L_FK`. -/
def Kind.code : Kind → BitVec 32
  | add64 => 1
  | sub64 => 2
  | add32 => 3
  | sub32 => 4
  | logic64 => 5
  | logic32 => 6

def Kind.narrow : Kind → Bool
  | add32 | sub32 | logic32 => true
  | _ => false

/-- NZCV of the lazy flags, in the host. -/
def lazyNzcv (k : BitVec 32) (a b r : BitVec 64) (old : BitVec 32) : BitVec 32 :=
  if k = 0 then old
  else
    let sh := if k = 3 ∨ k = 4 ∨ k = 6 then 31 else 63
    let n := ((r >>> sh) &&& 1).setWidth 32
    let z := flag (r == 0)
    let (c, v) :=
      if k = 1 ∨ k = 3 then
        (flag (r.ult a), (((~~~(a ^^^ b) &&& (a ^^^ r)) >>> sh) &&& 1).setWidth 32)
      else if k = 2 ∨ k = 4 then
        (flag (b.ule a), ((((a ^^^ b) &&& (a ^^^ r)) >>> sh) &&& 1).setWidth 32)
      else (0, 0)
    n <<< 31 ||| z <<< 30 ||| c <<< 29 ||| v <<< 28

/-- The runtime's `nzcv` function; the parameters stand for its locals. -/
def rtNzcv (k : BitVec 32) (a b r : BitVec 64) (old : BitVec 32) : Code Locals Unit := do
  i32Const k; i32Eqz
  ifElse (i32Const old) do
    i32Const k; i32Const 3; i32Cmp (· == ·)
    i32Const k; i32Const 4; i32Cmp (· == ·); i32Op (· ||| ·)
    i32Const k; i32Const 6; i32Cmp (· == ·); i32Op (· ||| ·)
    ifElse (body 31) (body 63)
where
  /-- The rest, with the sign bit's position in the local `sh`. -/
  body (sh : BitVec 64) : Code Locals Unit := do
    i64Const r; i64Const sh; i64Op shrU; i32WrapI64; i32Const 1; i32Op (· &&& ·)
    i32Const 31; i32Op shl
    i64Const r; i64Eqz; i32Const 30; i32Op shl; i32Op (· ||| ·)
    i32Const k; i32Const 5; i32Cmp fun a b => b.ule a
    ifElse (i32Const 0) do
      i32Const k; i32Const 1; i32Op (· &&& ·)
      ifElse
        (do
          i64Const r; i64Const a; i64Cmp BitVec.ult; i32Const 29; i32Op shl
          i64Const a; i64Const b; i64Op (· ^^^ ·); i64Const (-1); i64Op (· ^^^ ·)
          i64Const a; i64Const r; i64Op (· ^^^ ·); i64Op (· &&& ·)
          i64Const sh; i64Op shrU; i32WrapI64; i32Const 1; i32Op (· &&& ·)
          i32Const 28; i32Op shl; i32Op (· ||| ·))
        (do
          i64Const a; i64Const b; i64Cmp fun a b => b.ule a; i32Const 29; i32Op shl
          i64Const a; i64Const b; i64Op (· ^^^ ·)
          i64Const a; i64Const r; i64Op (· ^^^ ·); i64Op (· &&& ·)
          i64Const sh; i64Op shrU; i32WrapI64; i32Const 1; i32Op (· &&& ·)
          i32Const 28; i32Op shl; i32Op (· ||| ·))
    i32Op (· ||| ·)

def callNzcv : Code Locals Unit := fun s => match s.stack with
  | .i32 old :: .i64 r :: .i64 b :: .i64 a :: .i32 k :: rest =>
    rtNzcv k a b r old { s with stack := rest }
  | _ => none

/-- What the translator knows about the flags. -/
inductive Fl where
  | materialized
  | lazy (k : Kind)
  | unknown
deriving DecidableEq, Repr

def materialize (fl : Fl) : Code Locals Unit :=
  match fl with
  | .materialized => pure ()
  | .lazy _ => compute
  | .unknown => do localGet lFk; ifElse compute (pure ())
where
  compute : Code Locals Unit := do
    localGet lFk; localGet lFa; localGet lFb; localGet lFr; localGet lNzcv
    callNzcv
    localSet lNzcv; i32Const 0; localSet lFk

/-- `trunc` of the translator. -/
def emitTrunc (sf : Bool) : Code Locals Unit :=
  if sf then pure () else do i64Const 0xffffffff; i64Op (· &&& ·)

def addSubKind : Bool → Bool → Kind
  | false, true => .add64
  | true, true => .sub64
  | false, false => .add32
  | true, false => .sub32

def setLazy (k : Kind) : Code Locals Unit := do
  i32Const k.code; localSet lFk

def addSubOp (sub : Bool) : Code Locals Unit := i64Op fun x y => if sub then x - y else x + y

/-- `flag_op`; `xzr` is `rd == 31`. -/
def flagOp (sub sf xzr : Bool) : Code Locals Unit := do
  localGet lFa; localGet lFb; addSubOp sub; emitTrunc sf
  if xzr then localSet lFr else do localTee lFr; localSet lRd
  setLazy (addSubKind sub sf)

def emitLogicFlags (sf : Bool) : Code Locals Unit := do
  localTee lFr
  setLazy (if sf then .logic64 else .logic32)

/-- Condition `c` from the bits of `L_NZCV`. -/
def condNzcv (c : ℕ) : Code Locals Unit :=
  let bit (sh : BitVec 32) : Code Locals Unit := do
    localGet lNzcv; i32Const sh; i32Op shrU; i32Const 1; i32Op (· &&& ·)
  match c with
  | 0 => bit 30
  | 1 => bit 29
  | 2 => bit 31
  | 3 => bit 28
  | 4 => do bit 29; bit 30; i32Const 1; i32Op (· ^^^ ·); i32Op (· &&& ·)
  | 5 => do bit 31; bit 28; i32Cmp (· == ·)
  | _ => do
    bit 31; bit 28; i32Cmp (· == ·)
    bit 30; i32Const 1; i32Op (· ^^^ ·); i32Op (· &&& ·)

/-- Condition `c` from the saved operands of kind `k`. -/
def condLazy (k : Kind) (c : ℕ) : Code Locals Unit :=
  let n : Code Locals Unit :=
    if k.narrow then do localGet lFr; i32WrapI64; i32Const 0; i32Cmp BitVec.slt
    else do localGet lFr; i64Const 0; i64Cmp BitVec.slt
  let scmp (o32 : BitVec 32 → BitVec 32 → Bool) (o64 : BitVec 64 → BitVec 64 → Bool) :
      Code Locals Unit :=
    if k.narrow then do localGet lFa; i32WrapI64; localGet lFb; i32WrapI64; i32Cmp o32
    else do localGet lFa; localGet lFb; i64Cmp o64
  let v (add : Bool) : Code Locals Unit := do
    localGet lFa; localGet lFb; i64Op (· ^^^ ·)
    if add then do i64Const (-1); i64Op (· ^^^ ·)
    localGet lFa; localGet lFr; i64Op (· ^^^ ·); i64Op (· &&& ·)
    i64Const (if k.narrow then 31 else 63); i64Op shrU; i32WrapI64
    i32Const 1; i32Op (· &&& ·)
  match k with
  | .sub64 | .sub32 => match c with
    | 0 => do localGet lFa; localGet lFb; i64Cmp (· == ·)
    | 1 => do localGet lFa; localGet lFb; i64Cmp fun a b => b.ule a
    | 2 => n
    | 3 => v false
    | 4 => do localGet lFa; localGet lFb; i64Cmp fun a b => b.ult a
    | 5 => scmp (fun a b => b.sle a) (fun a b => b.sle a)
    | _ => scmp (fun a b => b.slt a) (fun a b => b.slt a)
  | .logic64 | .logic32 => match c with
    | 0 => do localGet lFr; i64Eqz
    | 1 | 3 | 4 => i32Const 0
    | 2 => n
    | 5 => do n; i32Eqz
    | _ => do localGet lFr; i64Eqz; n; i32Op (· ||| ·); i32Eqz
  | .add64 | .add32 => match c with
    | 0 => do localGet lFr; i64Eqz
    | 1 => do localGet lFr; localGet lFa; i64Cmp BitVec.ult
    | 2 => n
    | 3 => v true
    | 4 => do
      localGet lFr; localGet lFa; i64Cmp BitVec.ult
      localGet lFr; i64Eqz; i32Eqz; i32Op (· &&& ·)
    | 5 => do n; v true; i32Cmp (· == ·)
    | _ => do
      n; v true; i32Cmp (· == ·)
      localGet lFr; i64Eqz; i32Eqz; i32Op (· &&& ·)

/-- `ConditionHolds(cond)`. -/
def emitCond (fl : Fl) (cond : ℕ) : Code Locals Unit :=
  if cond / 2 = 7 then i32Const 1
  else do
    match fl with
    | .lazy k => condLazy k (cond / 2)
    | fl => do materialize fl; condNzcv (cond / 2)
    if cond % 2 = 1 then i32Eqz

/-! ## Flags of a width -/

section Width

variable {w : ℕ}

def addFlags (a b : BitVec w) : Flags :=
  ⟨(a + b).msb, a + b == 0, (a + b).ult a, !(a.msb ^^ b.msb) && (a.msb ^^ (a + b).msb)⟩

def subFlags (a b : BitVec w) : Flags :=
  ⟨(a - b).msb, a - b == 0, b.ule a, (a.msb ^^ b.msb) && (a.msb ^^ (a - b).msb)⟩

/-- `AddWithCarry` of the architecture. -/
def carryFlags (x y : BitVec w) (carry : Bool) : Flags :=
  let r := x + y + (ofBool carry).setWidth w
  ⟨r.msb, r == 0, decide (2 ^ w ≤ x.toNat + y.toNat + carry.toNat),
    (x.msb ^^ r.msb) && (y.msb ^^ r.msb)⟩

theorem carryFlags_add (x y : BitVec w) : carryFlags x y false = addFlags x y := by
  have hr : x + y + (ofBool false).setWidth w = x + y := by simp
  have hcarry : decide (2 ^ w ≤ x.toNat + y.toNat + false.toNat) = (x + y).ult x := by
    rw [BitVec.ult, decide_eq_decide, BitVec.toNat_add, toNat_false, Nat.add_zero]
    by_cases hfit : x.toNat + y.toNat < 2 ^ w
    · rw [Nat.mod_eq_of_lt hfit]
      omega
    · rw [Nat.mod_eq_sub_mod (Nat.le_of_not_lt hfit), Nat.mod_eq_of_lt (by omega)]
      omega
  unfold carryFlags addFlags
  rw [hr, hcarry]
  dsimp only
  cases x.msb <;> cases y.msb <;> cases (x + y).msb <;> rfl

theorem carryFlags_sub (x y : BitVec w) (hw : 0 < w) : carryFlags x (~~~y) true = subFlags x y := by
  have hone : (ofBool true).setWidth w = 1#w := by
    apply eq_of_toNat_eq
    simp
  have hr : x + ~~~y + (ofBool true).setWidth w = x - y := by
    rw [hone, BitVec.sub_eq_add_neg, BitVec.neg_eq_not_add, BitVec.add_assoc]
  have hcarry : decide (2 ^ w ≤ x.toNat + (~~~y).toNat + true.toNat) = y.ule x := by
    rw [BitVec.ule, decide_eq_decide, BitVec.toNat_not, toNat_true]
    omega
  have hmsb : (~~~y).msb = !y.msb := by simp [hw]
  unfold carryFlags subFlags
  rw [hr, hcarry, hmsb]
  dsimp only
  cases x.msb <;> cases y.msb <;> cases (x - y).msb <;> rfl

variable (a b : BitVec w)

theorem sub_beq_zero : (a - b == 0) = (a == b) := by
  grind

theorem ule_and_ne : (b.ule a && !(a == b)) = b.ult a := by
  rw [Bool.eq_iff_iff, Bool.and_eq_true, Bool.not_eq_true', beq_eq_false_iff_ne,
    ule_iff_toNat_le]
  rw [ult_iff_toNat_lt, ← toNat_ne_iff_ne]
  omega

/-- Signed comparison from N and V. -/
theorem sle_eq (hw : 0 < w) :
    ((a - b).msb == ((a.msb ^^ b.msb) && (a.msb ^^ (a - b).msb))) = b.sle a := by
  have hpow : 2 ^ w = 2 * 2 ^ (w - 1) := by
    rw [← Nat.pow_succ', Nat.succ_eq_add_one, Nat.sub_add_cancel hw]
  have hcast : (2 : Int) ^ w = 2 * ((2 ^ (w - 1) : ℕ) : Int) := by exact_mod_cast hpow
  have hsub : b.toNat ≤ a.toNat ∧ (a - b).toNat = a.toNat - b.toNat ∨
      a.toNat < b.toNat ∧ (a - b).toNat = 2 ^ w + a.toNat - b.toNat := by
    rw [BitVec.toNat_sub]
    by_cases hle : b.toNat ≤ a.toNat
    · left
      rw [show 2 ^ w - b.toNat + a.toNat = a.toNat - b.toNat + 2 ^ w by omega,
        Nat.add_mod_right, Nat.mod_eq_of_lt (by omega)]
      exact ⟨hle, rfl⟩
    · right
      rw [Nat.mod_eq_of_lt (by omega)]
      omega
  rw [BitVec.sle, BitVec.toInt_eq_msb_cond, BitVec.toInt_eq_msb_cond]
  simp only [BitVec.msb_eq_decide]
  rcases hsub with ⟨hle, hsub⟩ | ⟨hlt, hsub⟩
  · rw [hsub]
    by_cases h1 : 2 ^ (w - 1) ≤ a.toNat <;> by_cases h2 : 2 ^ (w - 1) ≤ b.toNat <;>
      by_cases h3 : 2 ^ (w - 1) ≤ a.toNat - b.toNat <;> simp [h1, h2, h3] <;> omega
  · rw [hsub]
    by_cases h1 : 2 ^ (w - 1) ≤ a.toNat <;> by_cases h2 : 2 ^ (w - 1) ≤ b.toNat <;>
      by_cases h3 : 2 ^ (w - 1) ≤ 2 ^ w + a.toNat - b.toNat <;> simp [h1, h2, h3] <;> omega

theorem sle_and_ne : (b.sle a && !(a == b)) = b.slt a := by
  rw [Bool.eq_iff_iff, Bool.and_eq_true, Bool.not_eq_true', beq_eq_false_iff_ne,
    sle_iff_toInt_le,
    slt_iff_toInt_lt, Ne, ← toInt_inj]
  omega

end Width

/-- The flags of saved operands. -/
def Kind.flags (k : Kind) (a b r : BitVec 64) : Flags :=
  let sh := if k.narrow then 31 else 63
  match k with
  | .add64 | .add32 =>
    ⟨r.getLsbD sh, r == 0, r.ult a, (~~~(a ^^^ b) &&& (a ^^^ r)).getLsbD sh⟩
  | .sub64 | .sub32 => ⟨r.getLsbD sh, r == 0, b.ule a, ((a ^^^ b) &&& (a ^^^ r)).getLsbD sh⟩
  | .logic64 | .logic32 => ⟨r.getLsbD sh, r == 0, false, false⟩

theorem lazyNzcv_eq (k : Kind) (a b r : BitVec 64) (old : BitVec 32) :
    lazyNzcv k.code a b r old = (k.flags a b r).nzcv := by
  have hbit : ∀ (x : BitVec 64) (i : ℕ), ((x >>> i) &&& 1).setWidth 32 = flag (x.getLsbD i) := by
    intro x i
    rw [setWidth_and]
    exact bit_eq_flag x i
  unfold lazyNzcv
  simp only [hbit]
  cases k <;> rfl

def pushed (s : Frame Locals) (value : BitVec 32) : Option (Unit × Frame Locals) :=
  some ((), { s with stack := .i32 value :: s.stack })

theorem rtNzcv_eq (k : Kind) (a b r : BitVec 64) (old : BitVec 32) (s : Frame Locals) :
    rtNzcv k.code a b r old s = pushed s (k.flags a b r).nzcv := by
  have hnot : ∀ x : BitVec 64, x ^^^ -1 = ~~~x := by
    intro x
    exact BitVec.xor_allOnes
  cases k <;> refine congrArg (pushed s) ?_ <;>
    simp only [shrU, shl, BitVec.reduceToNat, Nat.reduceMod, bit_eq_flag, hnot, ← BitVec.or_assoc]
  case logic64 | logic32 => simp [Kind.flags, Kind.narrow, Flags.nzcv, flag]
  all_goals rfl

theorem bits_nzcv (f : Flags) : shrU f.nzcv 31 &&& 1 = flag f.n ∧
    shrU f.nzcv 30 &&& 1 = flag f.z ∧ shrU f.nzcv 29 &&& 1 = flag f.c ∧
    shrU f.nzcv 28 &&& 1 = flag f.v := by
  obtain ⟨n, z, c, v⟩ := f
  cases n <;> cases z <;> cases c <;> cases v <;> decide

theorem condNzcv_eq (f : Flags) {c : ℕ} (hc : c < 7) (s : Frame Locals)
    (hs : s.locals.nzcv = f.nzcv) : condNzcv c s = pushed s (flag (f.holds c)) := by
  obtain ⟨hn, hz, hc', hv⟩ := bits_nzcv f
  rw [← hs] at hn hz hc' hv
  interval_cases c <;> refine congrArg (pushed s) ?_ <;>
    simp only [hn, hz, hc', hv, flag_xor_one, flag_and, flag_beq] <;> rfl

theorem conditionHolds_eq (f : Flags) (cond : ℕ) : conditionHolds f.nzcv cond =
      if cond % 2 = 1 ∧ cond ≠ 15 then !f.holds (cond / 2) else f.holds (cond / 2) := by
  have hbits : (⟨f.nzcv &&& 1 <<< 31 != 0, f.nzcv &&& 1 <<< 30 != 0, f.nzcv &&& 1 <<< 29 != 0,
    f.nzcv &&& 1 <<< 28 != 0⟩ : Flags) = f := by
    obtain ⟨n, z, c, v⟩ := f
    cases n <;> cases z <;> cases c <;> cases v <;> rfl
  unfold conditionHolds
  rw [hbits]

/-! ## Saved operands -/

section Extended

variable (a b : BitVec 32)

theorem extended_beq : (a.setWidth 64 == b.setWidth 64) = (a == b) := by
  rw [Bool.eq_iff_iff, beq_iff_eq, beq_iff_eq]
  constructor
  · intro h
    simpa using congrArg (setWidth 32) h
  · exact congrArg _

theorem extended_beq_zero : (a.setWidth 64 == 0) = (a == 0) :=
  extended_beq a 0

theorem extended_ult : (a.setWidth 64).ult (b.setWidth 64) = a.ult b := by
  rw [BitVec.ult, BitVec.ult, decide_eq_decide, BitVec.toNat_setWidth, BitVec.toNat_setWidth]
  omega

theorem extended_ule : (a.setWidth 64).ule (b.setWidth 64) = a.ule b := by
  rw [BitVec.ule, BitVec.ule, decide_eq_decide, BitVec.toNat_setWidth, BitVec.toNat_setWidth]
  omega

theorem extended_bit : (a.setWidth 64).getLsbD 31 = a.msb := by
  simp [msb_eq_getLsbD_last]

theorem extended_wrap : (a.setWidth 64).setWidth 32 = a := by
  simp

end Extended

theorem top_bit (a : BitVec 64) : a.getLsbD 63 = a.msb := by
  simp [msb_eq_getLsbD_last]

/-- What the locals hold after an instruction of kind `k`: operands and result of the width,
extended with zeros. -/
inductive Saved : Kind → Locals → Prop
  | add64 {l : Locals} (hr : l.fr = l.fa + l.fb) : Saved .add64 l
  | sub64 {l : Locals} (hr : l.fr = l.fa - l.fb) : Saved .sub64 l
  | add32 {l : Locals} (a b : BitVec 32) (ha : l.fa = a.setWidth 64) (hb : l.fb = b.setWidth 64)
      (hr : l.fr = (a + b).setWidth 64) : Saved .add32 l
  | sub32 {l : Locals} (a b : BitVec 32) (ha : l.fa = a.setWidth 64) (hb : l.fb = b.setWidth 64)
      (hr : l.fr = (a - b).setWidth 64) : Saved .sub32 l
  | logic64 {l : Locals} : Saved .logic64 l
  | logic32 {l : Locals} (r : BitVec 32) (hr : l.fr = r.setWidth 64) : Saved .logic32 l

theorem condLazy_eq {k : Kind} {s : Frame Locals} (hsaved : Saved k s.locals) {c : ℕ}
    (hc : c < 7) : condLazy k c s =
      pushed s (flag ((k.flags s.locals.fa s.locals.fb s.locals.fr).holds c)) := by
  have hnot : ∀ x : BitVec 64, x ^^^ -1 = ~~~x := by
    intro x
    exact BitVec.xor_allOnes
  have hsign : ∀ {n : ℕ} (x : BitVec n), x.slt 0 = x.msb := fun _ => slt_zero_eq_msb
  cases hsaved <;> interval_cases c <;> refine congrArg (pushed s) ?_ <;>
    simp only [*, shrU, BitVec.reduceToNat, Nat.reduceMod, Flags.holds, Kind.flags, Kind.narrow,
      if_true, if_false, false_eq_true, bit_eq_flag, flag_and, flag_or, flag_beq,
      flag_beq_zero, extended_beq, extended_beq_zero, extended_ult, extended_ule, extended_bit,
      extended_wrap, top_bit, BitVec.getLsbD_and, BitVec.getLsbD_xor, BitVec.msb_and,
      BitVec.msb_xor, sub_beq_zero, ule_and_ne, sle_eq, sle_and_ne, Nat.zero_lt_succ,
      beq_false, Bool.not_or]
  case logic64.«6» | logic32.«6» => rw [Bool.and_comm]
  all_goals rfl

/-! ## Instructions -/

/-- The instructions that set lazy flags, with the values of their operands. -/
inductive Insn where
  /-- ADDS and SUBS; CMN and CMP when the result goes to XZR. -/
  | addSub (sub sf xzr : Bool) (x y : BitVec 64)
  /-- ANDS and BICS, by the result before it is cut to the width; TST when it goes to XZR. -/
  | logic (sf xzr : Bool) (value : BitVec 64)
deriving DecidableEq, Repr

namespace Insn

/-- The flags of the interpreter. -/
def flags : Insn → Flags
  | addSub sub sf _ x y => addSubFlags x y sub sf
  | logic sf _ value => logicFlags (trunc value sf) sf

/-- The code of the JIT. -/
def code : Insn → Code Locals Unit
  | addSub sub sf xzr x y => do
    i64Const x; emitTrunc sf; localSet lFa
    i64Const y; emitTrunc sf; localSet lFb
    flagOp sub sf xzr
  | logic sf xzr value => do
    i64Const value; emitTrunc sf
    emitLogicFlags sf
    if xzr then drop else localSet lRd

def kind : Insn → Kind
  | addSub sub sf _ _ _ => addSubKind sub sf
  | logic sf _ _ => if sf then .logic64 else .logic32

end Insn

theorem shift_top {w : ℕ} (x : BitVec w) : (x >>> (w - 1) != 0) = x.msb := by
  have hzero : x >>> (w - 1) = 0 ↔ ¬2 ^ (w - 1) ≤ x.toNat := by
    rw [← BitVec.toNat_inj, BitVec.toNat_ushiftRight, Nat.shiftRight_eq_div_pow]
    have hpos : 0 < 2 ^ (w - 1) := Nat.two_pow_pos _
    change x.toNat / 2 ^ (w - 1) = (0#w).toNat ↔ _
    rw [BitVec.toNat_ofNat, Nat.zero_mod, Nat.div_eq_zero_iff_lt hpos, Nat.not_le]
  rw [BitVec.msb_eq_decide, Bool.eq_iff_iff, bne_iff_ne, decide_eq_true_iff, Ne, hzero,
    Classical.not_not]

variable (x y : BitVec 64)

theorem addWithCarry_wide (carry : Bool) :
    (addWithCarry x y carry true).2 = carryFlags x y carry := by
  have hcarry : (decide (2 ^ 64 ≤ x.toNat + y.toNat) ||
      decide (2 ^ 64 ≤ (x + y).toNat + ((ofBool carry).setWidth 64).toNat)) =
      decide (2 ^ 64 ≤ x.toNat + y.toNat + carry.toNat) := by
    have hone : ((ofBool carry).setWidth 64).toNat = carry.toNat := by cases carry <;> rfl
    rw [hone, toNat_add, ← decide_or, decide_eq_decide]
    omega
  unfold addWithCarry carryFlags overflowingAdd
  rw [if_pos rfl]
  dsimp only
  rw [hcarry, shift_top (w := 64), shift_top (w := 64), msb_and, msb_xor,
    msb_xor]

theorem addWithCarry_narrow (carry : Bool) :
    (addWithCarry x y carry false).2 = carryFlags (x.setWidth 32) (y.setWidth 32) carry := by
  unfold addWithCarry carryFlags
  rw [if_neg Bool.false_ne_true]
  dsimp only
  generalize x.setWidth 32 = a
  generalize y.setWidth 32 = b
  have hr : (a.setWidth 64 + b.setWidth 64 + (ofBool carry).setWidth 64).setWidth 32 =
      a + b + (ofBool carry).setWidth 32 := by
    rw [setWidth_add _ _ (by decide), setWidth_add _ _ (by decide), extended_wrap,
      extended_wrap, setWidth_setWidth_of_le _ (by decide)]
  have hcarry : ((a.setWidth 64 + b.setWidth 64 + (ofBool carry).setWidth 64) >>> 32 != 0) =
      decide (2 ^ 32 ≤ a.toNat + b.toNat + carry.toNat) := by
    have hone : ((ofBool carry).setWidth 64).toNat = carry.toNat := by cases carry <;> rfl
    have hle : carry.toNat ≤ 1 := by cases carry <;> decide
    have hzero : (0 : BitVec 64).toNat = 0 := rfl
    rw [Bool.eq_iff_iff, bne_iff_ne, decide_eq_true_iff, Ne, ← toNat_inj,
      toNat_ushiftRight, toNat_add, toNat_add, hone, toNat_setWidth,
      toNat_setWidth, Nat.shiftRight_eq_div_pow, hzero]
    omega
  rw [hr, hcarry, shift_top (w := 32), shift_top (w := 32), msb_and, msb_xor,
    msb_xor]

theorem mask_eq (x : BitVec 64) : x &&& 0xffffffff = (x.setWidth 32).setWidth 64 := by
  apply eq_of_toNat_eq
  change x.toNat &&& 2 ^ 32 - 1 = _
  rw [Nat.and_two_pow_sub_one_eq_mod]
  simp
  omega

/-- `add_sub` of the operands as they are saved. -/
def addSubResult (x y : BitVec 64) (sub sf : Bool) : BitVec 64 :=
  trunc (if sub then trunc x sf - trunc y sf else trunc x sf + trunc y sf) sf

theorem addSubResult_eq (sub sf : Bool) : addSubResult x y sub sf =
    if sf then if sub then x - y else x + y
    else (if sub then x.setWidth 32 - y.setWidth 32
      else x.setWidth 32 + y.setWidth 32).setWidth 64 := by
  cases sf with
  | true => cases sub <;> rfl
  | false =>
    unfold addSubResult trunc
    cases sub <;> refine congrArg (setWidth 64) (eq_of_toNat_eq ?_) <;>
      simp only [toNat_setWidth, toNat_sub, toNat_add, if_true, if_false,
        false_eq_true] <;> omega

theorem addSubFlags_eq (sub sf : Bool) : addSubFlags x y sub sf =
    if sf then if sub then subFlags x y else addFlags x y
    else if sub then subFlags (x.setWidth 32) (y.setWidth 32)
    else addFlags (x.setWidth 32) (y.setWidth 32) := by
  cases sf <;> cases sub <;> unfold addSubFlags
  · exact (addWithCarry_narrow x y false).trans (carryFlags_add _ _)
  · refine (addWithCarry_narrow x (~~~y) true).trans ?_
    rw [setWidth_not (by decide)]
    exact carryFlags_sub _ _ (by decide)
  · exact (addWithCarry_wide x y false).trans (carryFlags_add _ _)
  · exact (addWithCarry_wide x (~~~y) true).trans (carryFlags_sub _ _ (by decide))

/-- The operands are saved, and their flags are those of the interpreter. -/
theorem saved_addSub (sub sf : Bool) (l : Locals) (ha : l.fa = trunc x sf) (hb : l.fb = trunc y sf)
    (hr : l.fr = addSubResult x y sub sf) :
    Saved (addSubKind sub sf) l ∧
      (addSubKind sub sf).flags l.fa l.fb l.fr = addSubFlags x y sub sf := by
  constructor
  · cases sf with
    | false =>
      rw [addSubResult_eq] at hr
      cases sub
      · exact .add32 _ _ ha hb hr
      · exact .sub32 _ _ ha hb hr
    | true =>
      cases sub
      · exact .add64 (by rw [ha, hb, hr]; rfl)
      · exact .sub64 (by rw [ha, hb, hr]; rfl)
  · rw [ha, hb, hr, addSubFlags_eq]
    cases sf <;> cases sub <;>
      simp only [addSubResult_eq, trunc, Kind.flags, Kind.narrow, addSubKind,
        addFlags, subFlags, extended_beq_zero, extended_ult, extended_ule, extended_bit, top_bit,
        getLsbD_and, getLsbD_xor, getLsbD_not, msb_and,
        msb_xor, msb_not, if_true, if_false, false_eq_true] <;> rfl

theorem saved_of_code (insn : Insn) (s : Frame Locals) : ∃ l,
    insn.code s = some ((), { s with locals := l }) ∧ l.fk = insn.kind.code ∧
      Saved insn.kind l ∧ insn.kind.flags l.fa l.fb l.fr = insn.flags := by
  cases insn with
  | addSub sub sf xzr x y =>
    let r := addSubResult x y sub sf
    refine ⟨⟨(addSubKind sub sf).code, trunc x sf, trunc y sf, r, s.locals.nzcv,
      if xzr then s.locals.rd else r⟩, ?_, rfl, saved_addSub x y sub sf _ rfl rfl rfl⟩
    simp only [r, addSubResult, trunc, ← mask_eq]
    cases sub <;> cases sf <;> cases xzr <;> rfl
  | logic sf xzr value =>
    let r := trunc value sf
    refine ⟨⟨(Insn.logic sf xzr value).kind.code, s.locals.fa, s.locals.fb, r, s.locals.nzcv,
      if xzr then s.locals.rd else r⟩, ?_, rfl, ?_, ?_⟩
    · simp only [r, trunc, ← mask_eq]
      cases sf <;> cases xzr <;> rfl
    · cases sf with
      | false => exact .logic32 _ rfl
      | true => exact .logic64
    · have hbit : ∀ i : ℕ, ((r >>> i) &&& 1 != 0) = r.getLsbD i := by
        intro i
        have hone := and_one_eq_setWidth_ofBool_getLsbD (x := r >>> i)
        rw [getLsbD_ushiftRight, Nat.add_zero] at hone
        change ((r >>> i) &&& 1#64 != 0) = _
        rw [hone]
        cases r.getLsbD i <;> rfl
      change _ = logicFlags r sf
      rw [logicFlags, hbit]
      cases sf <;> rfl

/-- What reads the flags of saved operands: the host, the runtime, and code that materializes
them or tests a condition, whether the translator knows the kind or not. -/
structure Reads (insn : Insn) (l : Locals) : Prop where
  host : lazyNzcv l.fk l.fa l.fb l.fr l.nzcv = insn.flags.nzcv
  runtime : ∀ s : Frame Locals,
    rtNzcv l.fk l.fa l.fb l.fr l.nzcv s = pushed s insn.flags.nzcv
  materialized : ∀ fl, fl = .lazy insn.kind ∨ fl = .unknown → ∀ stack : List Value,
    materialize fl ⟨stack, l⟩ = some ((), ⟨stack, { l with nzcv := insn.flags.nzcv, fk := 0 }⟩)
  condition : ∀ fl, fl = .lazy insn.kind ∨ fl = .unknown → ∀ (cond : Fin 16) (stack : List Value),
    ∃ next,
    emitCond fl cond ⟨stack, l⟩ =
      some ((), ⟨.i32 (flag (conditionHolds insn.flags.nzcv cond)) :: stack, next⟩)

theorem materialize_eq {l : Locals} {k : Kind} {f : Flags} (hk : l.fk = k.code)
    (hruntime : ∀ s : Frame Locals, rtNzcv l.fk l.fa l.fb l.fr l.nzcv s = pushed s f.nzcv)
    {fl : Fl} (hfl : fl = .lazy k ∨ fl = .unknown) (stack : List Value) :
    materialize fl ⟨stack, l⟩ = some ((), ⟨stack, { l with nzcv := f.nzcv, fk := 0 }⟩) := by
  have hcompute : materialize.compute ⟨stack, l⟩ =
      some ((), ⟨stack, { l with nzcv := f.nzcv, fk := 0 }⟩) := by
    change (rtNzcv l.fk l.fa l.fb l.fr l.nzcv ⟨stack, l⟩ >>= fun result =>
      (do localSet lNzcv; i32Const 0; localSet lFk : Code Locals Unit) result.2) = _
    rw [hruntime]
    rfl
  rcases hfl with rfl | rfl
  · exact hcompute
  · have hcode : l.fk ≠ 0 := by
      rw [hk]
      cases k <;> decide
    change (if l.fk = 0 then pure () else materialize.compute) (⟨stack, l⟩ : Frame Locals) = _
    rw [if_neg hcode, hcompute]

theorem emitCond_eq {l : Locals} {k : Kind} {f : Flags} (hsaved : Saved k l)
    (hflags : k.flags l.fa l.fb l.fr = f) {fl : Fl} (hfl : fl = .lazy k ∨ fl = .unknown)
    (hmaterialize : ∀ stack, materialize .unknown ⟨stack, l⟩ =
      some ((), ⟨stack, { l with nzcv := f.nzcv, fk := 0 }⟩)) (cond : Fin 16)
    (stack : List Value) : ∃ next, emitCond fl cond ⟨stack, l⟩ =
      some ((), ⟨.i32 (flag (conditionHolds f.nzcv cond)) :: stack, next⟩) := by
  obtain ⟨cond, hcond⟩ := cond
  rw [conditionHolds_eq]
  unfold emitCond
  by_cases hseven : cond / 2 = 7
  · have hone : (if cond % 2 = 1 ∧ cond ≠ 15 then !f.holds (cond / 2) else f.holds (cond / 2)) =
        true := by
      rw [if_neg (by omega), hseven]
      rfl
    rw [if_pos hseven, hone]
    exact ⟨l, rfl⟩
  · have hc : cond / 2 < 7 := by omega
    have hnegate : ∀ (code : Code Locals Unit) (next : Locals),
        code ⟨stack, next⟩ = pushed ⟨stack, next⟩ (flag (f.holds (cond / 2))) →
        (do code; if cond % 2 = 1 then i32Eqz : Code Locals Unit) ⟨stack, next⟩ = some ((),
          ⟨.i32 (flag (if cond % 2 = 1 ∧ cond ≠ 15 then !f.holds (cond / 2)
            else f.holds (cond / 2))) :: stack, next⟩) := by
      intro code next hcode
      change (code ⟨stack, next⟩ >>= fun result =>
        (if cond % 2 = 1 then i32Eqz else pure () : Code Locals Unit) result.2) = _
      rw [hcode]
      by_cases hodd : cond % 2 = 1
      · rw [if_pos hodd, if_pos ⟨hodd, by omega⟩, ← flag_beq_zero]
        rfl
      · rw [if_neg hodd, if_neg (fun h => hodd h.1)]
        rfl
    rw [if_neg hseven]
    rcases hfl with rfl | rfl
    · refine ⟨l, hnegate _ l ?_⟩
      rw [← hflags]
      exact condLazy_eq (s := ⟨stack, l⟩) hsaved hc
    · refine ⟨{ l with nzcv := f.nzcv, fk := 0 }, ?_⟩
      change (materialize .unknown ⟨stack, l⟩ >>= fun result => (do
        condNzcv (cond / 2); if cond % 2 = 1 then i32Eqz : Code Locals Unit) result.2) = _
      rw [hmaterialize]
      exact hnegate _ _ (condNzcv_eq f hc _ rfl)

/-- Lazy flags agree with the interpreter: whatever the locals were before, after an instruction
that sets the flags every reader finds the NZCV of the interpreter. -/
theorem reads_of_code (insn : Insn) (s : Frame Locals) : ∃ l,
    insn.code s = some ((), { s with locals := l }) ∧ Reads insn l := by
  obtain ⟨l, hcode, hk, hsaved, hflags⟩ := saved_of_code insn s
  have hhost := lazyNzcv_eq insn.kind l.fa l.fb l.fr l.nzcv
  have hruntime := rtNzcv_eq insn.kind l.fa l.fb l.fr l.nzcv
  rw [← hk, hflags] at hhost hruntime
  have hmaterialize : ∀ stack, materialize .unknown ⟨stack, l⟩ = _ :=
    materialize_eq hk hruntime (.inr rfl)
  refine ⟨l, hcode, hhost, hruntime, ?_, ?_⟩
  · exact fun fl hfl => materialize_eq hk hruntime hfl
  · exact fun fl hfl => emitCond_eq hsaved hflags hfl hmaterialize

end Vetro.LazyFlags
