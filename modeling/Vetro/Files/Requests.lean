import Vetro.Files.Proto

/-!
# Requests on the wire

What `Request::decode` makes of the bytes that `Request::encode` writes.  Names and
parameters past 65535 are cut off, and the largest expected count of rows stands for no
expectation; every other request that fits in a frame is read back as it was.
-/

namespace Vetro.Files

open Bytes List

/-- The rest of a request of type `t`. -/
def Request.reader : ℕ → Reads Request
  | 1 => return .stat (← R.name)
  | 2 => return .list (← R.name)
  | 12 => return .watch (← R.name)
  | 3 => return .read (← R.name) (← R.u64) (← R.u32)
  | 4 => return .wOpen (← R.u32) (← R.name) (← R.u32) ((← R.u8) % 2 != 0)
  | 5 => return .wData (← R.u32) (← R.u64) (← R.bytes)
  | 6 => return .wCommit (← R.u32)
  | 7 => return .wAbort (← R.u32)
  | 8 => return .mkdir (← R.name) (← R.u32)
  | 9 => return .create (← R.name) (← R.u32)
  | 10 => return .delete (← R.name) ((← R.u8) % 2 != 0)
  | 11 => return .rename (← R.name) (← R.name)
  | 13 => return .unwatch (← R.u32)
  | 14 => do
    let path ← R.name
    let readonly := (← R.u8) % 2 != 0
    let expect := (some (← R.u32)).filter (· != 2 ^ 32 - 1)
    let statements ← R.bytes
    let n ← R.u16
    let params ← R.times R.value n
    return .sql path statements params expect readonly
  | t => throw s!"request of type {t}"

/-- A request with its id, from a frame without its length. -/
def Request.decode (frame : List Byte) : Except String (ℕ × Request) :=
  R.whole (do
    let t ← R.u8
    let id ← R.u32
    return (id, ← Request.reader t)) frame

def SqlValue.Typed : SqlValue → Prop
  | .int bits | .real bits => bits < 2 ^ 64
  | _ => True

/-- The numbers are in the range of their types. -/
def Request.Typed : Request → Prop
  | .read _ offset len => offset < 2 ^ 64 ∧ len < 2 ^ 32
  | .wOpen handle _ mode _ => handle < 2 ^ 32 ∧ mode < 2 ^ 32
  | .wData handle offset _ => handle < 2 ^ 32 ∧ offset < 2 ^ 64
  | .mkdir _ n | .create _ n | .wCommit n | .wAbort n | .unwatch n => n < 2 ^ 32
  | .sql _ _ params expect _ => (∀ e ∈ expect, e < 2 ^ 32) ∧ ∀ v ∈ params, v.Typed
  | _ => True

/-! ## Reading what was written -/

/-- Between what was read and what was not. -/
def R.between (front rest : List Byte) : R := ⟨front ++ rest, front.length⟩

/-- `read` takes these bytes for the value, whatever is around them. -/
def Yields {A : Type} (read : Reads A) (bytes : List Byte) (value : A) : Prop :=
  ∀ front rest, read (R.between front (bytes ++ rest)) =
    .ok (value, R.between (front ++ bytes) rest)

namespace Yields

variable {A B : Type} {read : Reads A} {next : A → Reads B} {bytes : List Byte}
  {others : List Byte} {a : A} {b : B}

theorem bind (hread : Yields read bytes a) (hnext : Yields (next a) others b) :
    Yields (read >>= next) (bytes ++ others) b := by
  intro front rest
  change (read _ >>= fun r => next r.1 r.2) = _
  rw [append_assoc, hread, ← append_assoc]
  exact hnext _ _

theorem pure (a : A) : Yields (Pure.pure a) [] a := by
  intro front rest
  rw [append_nil]
  rfl

/-- The last read. -/
theorem map (hread : Yields read bytes a) (f : A → B) :
    Yields (read >>= fun a => Pure.pure (f a)) bytes (f a) := by
  have hboth : Yields (read >>= fun a => Pure.pure (f a)) (bytes ++ []) (f a) := hread.bind (pure _)
  rwa [append_nil] at hboth

theorem take (bytes : List Byte) : Yields (R.take bytes.length) bytes bytes := by
  intro front rest
  unfold R.take R.between
  have hroom : ¬(front ++ (bytes ++ rest)).length - front.length < bytes.length := by
    rw [length_append, length_append]
    omega
  rw [if_neg hroom, drop_left, take_left, append_assoc, length_append]

theorem le (width : ℕ) {value : ℕ} (hvalue : value < 256 ^ width) :
    Yields (R.le width) (leBytes width value) value := by
  have htake := take (leBytes width value)
  rw [length_leBytes] at htake
  have hmap := htake.map ofLeBytes
  rwa [ofLeBytes_leBytes_of_lt hvalue] at hmap

theorem name (s : List Byte) : Yields R.name (W.str s) (s.take 0xffff) := by
  have hlen : (s.take 0xffff).length < 256 ^ 2 :=
    Nat.lt_of_le_of_lt (length_take_le _ _) (by decide)
  exact (le 2 hlen).bind (take _)

theorem sized {bytes : List Byte} (hlen : bytes.length < 2 ^ 32) :
    Yields R.bytes (W.bytes bytes) bytes :=
  (le 4 hlen).bind (take _)

theorem bool (b : Bool) : Yields R.u8 (W.bool b) b.toNat := by
  cases b <;> exact le 1 (by decide)

theorem value {v : SqlValue} (htyped : v.Typed) (hlen : (W.value v).length < 2 ^ 32) :
    Yields R.value (W.value v) v := by
  have hbytes : ∀ b : List Byte, b.length ≤ (leBytes 1 3 ++ W.bytes b).length := by
    intro b
    rw [length_append, W.bytes, length_append]
    omega
  cases v with
  | null => exact (le 1 (by decide)).bind (pure _)
  | int bits => exact (le 1 (by decide)).bind ((le 8 htyped).map _)
  | real bits => exact (le 1 (by decide)).bind ((le 8 htyped).map _)
  | text b => exact (le 1 (by decide)).bind ((sized ((hbytes b).trans_lt hlen)).map _)
  | blob b => exact (le 1 (by decide)).bind ((sized ((hbytes b).trans_lt hlen)).map _)

theorem times {values : List SqlValue} (htyped : ∀ v ∈ values, v.Typed)
    (hlen : (values.flatMap W.value).length < 2 ^ 32) :
    Yields (R.times R.value values.length) (values.flatMap W.value) values := by
  induction values with
  | nil => exact pure _
  | cons v values ih =>
    rw [flatMap_cons, length_append] at hlen
    rw [forall_mem_cons] at htyped
    exact (value htyped.1 (by omega)).bind ((ih htyped.2 (by omega)).map _)

theorem whole (hread : Yields read bytes a) : R.whole read bytes = .ok a := by
  have hrun := hread [] []
  rw [append_nil, nil_append] at hrun
  have hdone : R.done (R.between bytes []) = .ok ((), R.between bytes []) :=
    if_neg (by simp [R.between])
  change Prod.fst <$> (read (R.between [] bytes) >>= fun r =>
    R.done r.2 >>= fun d => .ok (r.1, d.2)) = _
  rw [hrun]
  change Prod.fst <$> (R.done (R.between bytes []) >>= fun d => .ok (a, d.2)) = _
  rw [hdone]
  rfl

end Yields

/-- What is read back. -/
def Request.clip : Request → Request
  | .stat path => .stat (path.take 0xffff)
  | .list path => .list (path.take 0xffff)
  | .read path offset len => .read (path.take 0xffff) offset len
  | .wOpen handle path mode excl => .wOpen handle (path.take 0xffff) mode excl
  | .mkdir path mode => .mkdir (path.take 0xffff) mode
  | .create path mode => .create (path.take 0xffff) mode
  | .delete path recursive => .delete (path.take 0xffff) recursive
  | .rename source target => .rename (source.take 0xffff) (target.take 0xffff)
  | .watch path => .watch (path.take 0xffff)
  | .sql path statements params expect readonly =>
    .sql (path.take 0xffff) statements (params.take 0xffff) (expect.filter (· != 2 ^ 32 - 1))
      readonly
  | r => r

variable {r : Request}

open Yields in
theorem Request.yields_reader (htyped : r.Typed) (hlen : r.body.length < 2 ^ 32) :
    Yields (Request.reader r.ty) r.body r.clip := by
  cases r with
  | stat path => exact (name path).map _
  | list path => exact (name path).map _
  | watch path => exact (name path).map _
  | read path offset n =>
    rw [body, append_assoc]
    exact (name path).bind ((le 8 htyped.1).bind ((le 4 htyped.2).map _))
  | wOpen handle path mode excl =>
    rw [body, append_assoc, append_assoc]
    cases excl <;>
      exact (le 4 htyped.1).bind ((name path).bind ((le 4 htyped.2).bind ((bool _).map _)))
  | wData handle offset data =>
    have hdata : data.length < 2 ^ 32 := by
      simp only [body, W.bytes, length_append] at hlen
      omega
    exact (le 4 htyped.1).bind ((le 8 htyped.2).bind ((sized hdata).map _))
  | wCommit handle => exact (le 4 htyped).map _
  | wAbort handle => exact (le 4 htyped).map _
  | mkdir path mode => exact (name path).bind ((le 4 htyped).map _)
  | create path mode => exact (name path).bind ((le 4 htyped).map _)
  | delete path recursive => cases recursive <;> exact (name path).bind ((bool _).map _)
  | rename source target => exact (name source).bind ((name target).map _)
  | unwatch wd => exact (le 4 htyped).map _
  | sql path statements params expect readonly =>
    obtain ⟨hexpect, hparams⟩ := htyped
    simp only [body, W.bytes, length_append] at hlen
    have hcount : (params.take 0xffff).length < 256 ^ 2 :=
      Nat.lt_of_le_of_lt (length_take_le _ _) (by decide)
    have hvalues := times (fun v hv => hparams v (mem_of_mem_take hv))
      (show ((params.take 0xffff).flatMap W.value).length < 2 ^ 32 by omega)
    have hstatements : statements.length < 2 ^ 32 := by omega
    have hrows : expect.getD (2 ^ 32 - 1) < 256 ^ 4 := by
      cases expect with
      | none => decide
      | some e => exact hexpect e rfl
    have hkept : (some (expect.getD (2 ^ 32 - 1))).filter (· != 2 ^ 32 - 1) =
        expect.filter (· != 2 ^ 32 - 1) := by
      cases expect <;> rfl
    have hlength : min params.length 0xffff = (params.take 0xffff).length := by
      rw [length_take, Nat.min_comm]
    simp only [body, append_assoc, hlength, clip, ← hkept]
    cases readonly <;>
      exact (name path).bind ((bool _).bind ((le 4 hrows).bind ((sized hstatements).bind
        ((le 2 hcount).bind (hvalues.map _)))))

/-! ## Round trips -/

/-- The bytes of a request are one frame, and what is read from it is the request. -/
structure Request.RoundTrips (r : Request) (id : ℕ) : Prop where
  consumed : (r.encode id).length = 4 + ofLeBytes ((r.encode id).take 4)
  decoded : Request.decode ((r.encode id).drop 4) = .ok (id, r)

/-- Names and parameters that are not cut off, and an expectation that is one. -/
def Request.Exact : Request → Prop
  | .stat path | .list path | .read path .. | .wOpen _ path .. | .mkdir path _ | .create path _
  | .delete path _ | .watch path => path.length ≤ 0xffff
  | .rename source target => source.length ≤ 0xffff ∧ target.length ≤ 0xffff
  | .sql path _ params expect _ =>
    path.length ≤ 0xffff ∧ params.length ≤ 0xffff ∧ expect ≠ some (2 ^ 32 - 1)
  | _ => True

theorem Request.clip_eq_iff (r : Request) : r.clip = r ↔ r.Exact := by
  cases r with
  | sql path statements params expect readonly =>
    have hfilter : expect.filter (· != 2 ^ 32 - 1) = expect ↔ expect ≠ some (2 ^ 32 - 1) := by
      cases expect <;> simp
    simp only [clip, Exact, sql.injEq, take_eq_self_iff, hfilter, true_and, and_true]
  | _ => simp [clip, Exact]

theorem Request.decode_eq_clip {id : ℕ} (htyped : r.Typed) (hid : id < 2 ^ 32)
    (hlen : r.body.length < 2 ^ 32) : Request.decode ((r.encode id).drop 4) = .ok (id, r.clip) := by
  have hty : r.ty < 256 ^ 1 := by
    cases r <;> simp [ty]
  have hread : Yields (do
      let t ← R.u8
      let id ← R.u32
      return (id, ← Request.reader t)) (leBytes 1 r.ty ++ (leBytes 4 id ++ r.body))
      (id, r.clip) :=
    (Yields.le 1 hty).bind ((Yields.le 4 hid).bind ((yields_reader htyped hlen).map _))
  exact hread.whole

/-- A request is read back as it was, unless it has a name or parameters that are cut off, the
largest expectation, or more bytes than a frame can have. -/
theorem Request.roundTrips_iff {id : ℕ} (htyped : r.Typed) (hid : id < 2 ^ 32) :
    r.RoundTrips id ↔ r.Exact ∧ r.body.length + 5 < 2 ^ 32 := by
  have hlength : (r.encode id).length = 4 + (r.body.length + 5) := by
    simp only [encode, W.frame, length_append, length_leBytes]
    omega
  have hprefix : ofLeBytes ((r.encode id).take 4) = (r.body.length + 5) % 2 ^ 32 := by
    rw [encode, W.frame, take_left' (length_leBytes _ _), ofLeBytes_leBytes]
    simp only [length_append, length_leBytes]
    congr 1
    omega
  constructor
  · rintro ⟨hconsumed, hdecoded⟩
    have hsmall : r.body.length + 5 < 2 ^ 32 := by omega
    rw [decode_eq_clip htyped hid (by omega)] at hdecoded
    have hclip : r.clip = r := congrArg Prod.snd (Except.ok.inj hdecoded)
    exact ⟨(clip_eq_iff r).mp hclip, hsmall⟩
  · rintro ⟨hexact, hsmall⟩
    refine ⟨?_, ?_⟩
    · rw [hlength, hprefix, Nat.mod_eq_of_lt hsmall]
    · rw [decode_eq_clip htyped hid (by omega), (clip_eq_iff r).mpr hexact]

theorem Request.roundTrips_stat : (Request.stat [47]).RoundTrips 1 :=
  (roundTrips_iff (r := .stat [47]) trivial (by decide)).mpr
    ⟨show [(47 : Byte)].length ≤ 0xffff by decide, by decide⟩

/-- The largest expectation is lost. -/
theorem Request.not_roundTrips_expect :
    ¬(Request.sql [100] [] [] (some (2 ^ 32 - 1)) false).RoundTrips 1 := by
  rintro ⟨-, hdecoded⟩
  have hlost : Request.decode
      (((Request.sql [100] [] [] (some (2 ^ 32 - 1)) false).encode 1).drop 4) =
      .ok (1, Request.sql [100] [] [] none false) := by decide +kernel
  rw [hlost] at hdecoded
  simp at hdecoded

end Vetro.Files
