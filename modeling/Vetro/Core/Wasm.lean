import Mathlib.Tactic.Common

/-!
# Straight-line WebAssembly

The instructions of WebAssembly that work on the operand stack and on the locals, as state
transformers: code that emits instructions one after the other is a `do` block of them.  A
wrong type or a missing operand is `none`, as validation would refuse it.
-/

namespace Vetro.Wasm

inductive Value where
  | i32 (value : BitVec 32)
  | i64 (value : BitVec 64)
deriving DecidableEq, Repr

structure Frame (L : Type) where
  stack : List Value
  locals : L

abbrev Code (L : Type) := StateT (Frame L) Option

/-- A local variable of one type. -/
structure Local (L : Type) where
  get : L → Value
  set : Value → L → Option L

def flag (b : Bool) : BitVec 32 := if b then 1 else 0

variable {L : Type}

def push (value : Value) : Code L Unit := fun s => some ((), { s with stack := value :: s.stack })

def i32Const (value : BitVec 32) : Code L Unit := push (.i32 value)

def i64Const (value : BitVec 64) : Code L Unit := push (.i64 value)

def localGet (var : Local L) : Code L Unit := fun s => push (var.get s.locals) s

def localTee (var : Local L) : Code L Unit := fun s => match s.stack with
  | value :: _ => (var.set value s.locals).map fun locals => ((), { s with locals })
  | [] => none

def drop : Code L Unit := fun s => match s.stack with
  | _ :: rest => some ((), { s with stack := rest })
  | [] => none

def localSet (var : Local L) : Code L Unit := do localTee var; drop

def i32Op (f : BitVec 32 → BitVec 32 → BitVec 32) : Code L Unit := fun s => match s.stack with
  | .i32 b :: .i32 a :: rest => some ((), { s with stack := .i32 (f a b) :: rest })
  | _ => none

def i64Op (f : BitVec 64 → BitVec 64 → BitVec 64) : Code L Unit := fun s => match s.stack with
  | .i64 b :: .i64 a :: rest => some ((), { s with stack := .i64 (f a b) :: rest })
  | _ => none

/-- A comparison of 64-bit values. -/
def i64Cmp (f : BitVec 64 → BitVec 64 → Bool) : Code L Unit := fun s => match s.stack with
  | .i64 b :: .i64 a :: rest => some ((), { s with stack := .i32 (flag (f a b)) :: rest })
  | _ => none

/-- A comparison of 32-bit values. -/
def i32Cmp (f : BitVec 32 → BitVec 32 → Bool) : Code L Unit := i32Op fun a b => flag (f a b)

def i64Eqz : Code L Unit := do i64Const 0; i64Cmp (· == ·)

def i32Eqz : Code L Unit := do i32Const 0; i32Cmp (· == ·)

def i32WrapI64 : Code L Unit := fun s => match s.stack with
  | .i64 a :: rest => some ((), { s with stack := .i32 (a.setWidth 32) :: rest })
  | _ => none

def ifElse (yes no : Code L Unit) : Code L Unit := fun s => match s.stack with
  | .i32 c :: rest => (if c = 0 then no else yes) { s with stack := rest }
  | _ => none

/-- The shifts of both types take the amount modulo the width. -/
def shl {w : ℕ} (a b : BitVec w) : BitVec w := a <<< (b.toNat % w)

def shrU {w : ℕ} (a b : BitVec w) : BitVec w := a >>> (b.toNat % w)

theorem flag_and (a b : Bool) : flag a &&& flag b = flag (a && b) := by
  cases a <;> cases b <;> rfl

theorem flag_or (a b : Bool) : flag a ||| flag b = flag (a || b) := by
  cases a <;> cases b <;> rfl

theorem flag_xor_one (a : Bool) : flag a ^^^ 1 = flag !a := by
  cases a <;> rfl

theorem flag_beq (a b : Bool) : (flag a == flag b) = (a == b) := by
  cases a <;> cases b <;> rfl

theorem flag_beq_zero (a : Bool) : (flag a == 0) = !a := by
  cases a <;> rfl

/-- One bit of a 64-bit value, as a flag. -/
theorem bit_eq_flag (x : BitVec 64) (i : ℕ) : (x >>> i).setWidth 32 &&& 1 = flag (x.getLsbD i) := by
  have hone : (x >>> i).setWidth 32 &&& 1#32 = flag ((x >>> i).getLsbD 0) := by
    apply BitVec.eq_of_getLsbD_eq
    intro j hj
    unfold flag
    cases j with
    | zero => cases hbit : (x >>> i).getLsbD 0 <;> simp_all
    | succ j => cases hbit : (x >>> i).getLsbD 0 <;> simp [BitVec.getLsbD_one]
  exact hone

end Vetro.Wasm
