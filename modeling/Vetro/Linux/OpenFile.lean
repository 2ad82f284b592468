import Vetro.Core.Bytes
import Vetro.Core.Machine

/-!
# Generated files

`vetro-cli/src/linux/fs.rs`: reading and seeking in a file of /proc, whose content is in
memory, and in a pagemap.  They behave as files as long as a read of /proc does not start
past the end, where it panics, and a read of a pagemap is of whole entries and of at most
1 MiB.  Sums wrap, as in a release build.
-/

namespace Vetro.Linux.OpenFile

open Bytes Machine List

inductive Kind where
  | mem (data : List Byte) (pos : ℕ)
  /-- The pages of the address space that are present, by their addresses. -/
  | pagemap (present : ℕ → Bool) (pos : ℕ)

inductive Call where
  | lseek (off whence : BitVec 64)
  | read (len : ℕ)

inductive Answer where
  | bytes (bytes : List Byte)
  | moved (n : BitVec 64)
  | failed (errno : ℕ)
  deriving Repr, DecidableEq

def EINVAL : ℕ := 22

/-- The entry of a page: bit 63 if it is present. -/
def entry (present : Bool) : List Byte := leBytes 8 (if present then 2 ^ 63 else 0)

/-- The entries of up to `n` pages; past 48 bits the file ends. -/
def entries (present : ℕ → Bool) (page : ℕ) : ℕ → List Byte
  | 0 => []
  | n + 1 =>
    if 2 ^ 48 ≤ page * 4096 then []
    else entry (present (page * 4096)) ++ entries present (page + 1) n

namespace Kind

def pos : Kind → ℕ
  | mem _ pos => pos
  | pagemap _ pos => pos

def seek : Kind → ℕ → Kind
  | mem data _, pos => mem data pos
  | pagemap present _, pos => pagemap present pos

/-- The number that `whence` adds to. -/
def base (k : Kind) (whence : BitVec 64) : Option ℕ :=
  if whence = 0 then some 0
  else if whence = 1 then some k.pos
  else
    match k with
    | mem data _ => if whence = 2 then some data.length else none
    | pagemap _ _ => none

/-- The sum wraps around. -/
def lseek (k : Kind) (off whence : BitVec 64) : Kind × Answer :=
  match k.base whence with
  | none => (k, .failed EINVAL)
  | some base =>
    let n := BitVec.ofNat 64 base + off
    if n.msb then (k, .failed EINVAL) else (k.seek n.toNat, .moved n)

/-- No result is a panic. -/
def read (k : Kind) (len : ℕ) : Option (Kind × Answer) :=
  match k with
  | mem data pos =>
    let n := min len (data.length - pos)
    if data.length < pos + n then none
    else some (mem data (pos + n), .bytes ((data.drop pos).take n))
  | pagemap present pos =>
    if pos % 8 ≠ 0 ∨ len % 8 ≠ 0 then some (k, .failed EINVAL)
    else
      let out := entries present (pos / 8) (min (len / 8) (2 ^ 17))
      some (pagemap present (pos + out.length), .bytes out)

def step (k : Kind) : Call → Option (Kind × Answer)
  | .lseek off whence => some (k.lseek off whence)
  | .read len => k.read len

/-! ## What a file is -/

/-- The bytes of the file; a pagemap has an entry for each page of 48 bits. -/
def content : Kind → List Byte
  | mem data _ => data
  | pagemap present _ => (range (2 ^ 36)).flatMap fun page => entry (present (page * 4096))

/-- A read within the file, and of a pagemap of whole entries. -/
def Inside : Kind → Call → Prop
  | _, .lseek _ _ => True
  | mem data pos, .read _ => pos ≤ data.length
  | pagemap _ pos, .read len => pos % 8 = 0 ∧ len % 8 = 0 ∧ len ≤ 2 ^ 20

end Kind

/-- The answer of a file with this content at `pos`, which then is at `next`. -/
def Serves (content : List Byte) (pos : ℕ) : Call → Answer → ℕ → Prop
  | .read len, .bytes bytes, next => bytes = (content.drop pos).take len ∧ next = pos + bytes.length
  | .lseek _ _, .moved n, next => next = n.toNat
  | .lseek _ _, .failed _, next => next = pos
  | _, _, _ => False

/-- The answers to a sequence of calls. -/
def Follows (content : List Byte) : ℕ → List Call → List Answer → Prop
  | _, [], [] => True
  | pos, call :: calls, answer :: answers =>
    ∃ next, Serves content pos call answer next ∧ Follows content next calls answers
  | _, _, _ => False

/-! ## The entries of a pagemap -/

section

variable (f : ℕ → Bool)

theorem length_entry (present : Bool) : (entry present).length = 8 := length_leBytes _ _

theorem drop_pages (start count skip : ℕ) :
    ((range' start count).flatMap fun page => entry (f page)).drop (8 * skip) =
      (range' (start + skip) (count - skip)).flatMap fun page => entry (f page) := by
  induction skip generalizing start count with
  | zero => rfl
  | succ skip ih =>
    cases count with
    | zero => rw [Nat.zero_sub]; exact drop_nil
    | succ count =>
      have hskip : 8 * (skip + 1) = (entry (f start)).length + 8 * skip := by
        rw [length_entry]
        omega
      rw [range'_succ, flatMap_cons, hskip, drop_length_add_append, ih, Nat.add_sub_add_right,
        Nat.add_assoc, Nat.add_comm 1]

theorem take_pages (present : ℕ → Bool) (page n : ℕ) :
    ((range' page (2 ^ 36 - page)).flatMap fun p => entry (present (p * 4096))).take (8 * n) =
      entries present page n := by
  induction n generalizing page with
  | zero => rfl
  | succ n ih =>
    rw [entries]
    split_ifs with hend
    · rw [Nat.sub_eq_zero_of_le (by omega)]
      exact take_nil
    · have hskip : 8 * (n + 1) = (entry (present (page * 4096))).length + 8 * n := by
        rw [length_entry]
        omega
      have hcount : 2 ^ 36 - page = 2 ^ 36 - (page + 1) + 1 := by omega
      rw [hcount, range'_succ, flatMap_cons, hskip, take_length_add_append, ih]

end

/-! ## Runs -/

variable {k : Kind}

theorem seek_spec (k : Kind) (pos : ℕ) :
    (k.seek pos).pos = pos ∧ (k.seek pos).content = k.content := by
  cases k with
  | mem data _ => exact ⟨rfl, rfl⟩
  | pagemap present _ => exact ⟨rfl, rfl⟩

theorem read_spec {len : ℕ} (hinside : k.Inside (.read len)) :
    let bytes := (k.content.drop k.pos).take len
    k.read len = some (k.seek (k.pos + bytes.length), .bytes bytes) := by
  cases k with
  | mem data pos =>
    have hpos : pos ≤ data.length := hinside
    have hn : ((data.drop pos).take len).length = min len (data.length - pos) := by
      rw [length_take, length_drop]
    have htake : (data.drop pos).take len = (data.drop pos).take (min len (data.length - pos)) := by
      rw [take_eq_take_min, length_drop]
    dsimp only [Kind.content, Kind.pos]
    rw [hn, htake]
    exact if_neg (by omega)
  | pagemap present pos =>
    obtain ⟨hpos, hlen, hshort⟩ := hinside
    have hdrop := drop_pages (fun page => present (page * 4096)) 0 (2 ^ 36) (pos / 8)
    have hbytes : ((Kind.pagemap present pos).content.drop pos).take len =
        entries present (pos / 8) (min (len / 8) (2 ^ 17)) := by
      rw [Nat.mul_div_cancel' (Nat.dvd_of_mod_eq_zero hpos), Nat.zero_add] at hdrop
      rw [Nat.min_eq_left (by omega), ← take_pages, Nat.mul_div_cancel' (by omega), Kind.content,
        range_eq_range', hdrop]
    dsimp only [Kind.pos]
    rw [hbytes]
    exact if_neg (by omega)

theorem step_spec {call : Call} (hinside : k.Inside call) :
    ∃ next answer, k.step call = some (next, answer) ∧ next.content = k.content ∧
      Serves k.content k.pos call answer next.pos := by
  cases call with
  | read len =>
    obtain ⟨hnext, hcontent⟩ := seek_spec k (k.pos + ((k.content.drop k.pos).take len).length)
    exact ⟨_, _, read_spec hinside, hcontent, rfl, hnext⟩
  | lseek off whence =>
    refine ⟨_, _, rfl, ?_⟩
    change (k.lseek off whence).1.content = _ ∧ Serves _ _ _ _ (k.lseek off whence).1.pos
    unfold Kind.lseek
    split
    · exact ⟨rfl, rfl⟩
    · rename_i base _
      dsimp only
      split_ifs
      · exact ⟨rfl, rfl⟩
      · exact (seek_spec k (BitVec.ofNat 64 base + off).toNat).symm

/-- Whatever the content and the calls: if the reads are inside, no call panics and the answers
are those of a file with the content. -/
theorem follows_of_inside (k : Kind) (calls : List Call)
    (hinside : EachStep Kind.step Kind.Inside k calls) :
    ∃ last answers, run Kind.step k calls = some (last, answers) ∧
      Follows k.content k.pos calls answers := by
  induction calls generalizing k with
  | nil => exact ⟨k, [], rfl, trivial⟩
  | cons call calls ih =>
    obtain ⟨next, answer, hstep, hcontent, hserves⟩ := step_spec hinside.1
    obtain ⟨last, answers, hrun, hfollows⟩ := ih next (hinside.2 next answer hstep)
    rw [hcontent] at hfollows
    exact ⟨last, answer :: answers, run_cons.mpr ⟨next, answer, answers, hstep, hrun, rfl⟩,
      next.pos, hserves, hfollows⟩

theorem follows_of_inside_mem : ∃ last answers,
    run Kind.step (.mem [1, 2, 3] 0) [.lseek 1 0, .read 5] = some (last, answers) ∧
      Follows [1, 2, 3] 0 [.lseek 1 0, .read 5] answers := by
  refine follows_of_inside _ _ ⟨trivial, fun m output hstep => ?_⟩
  cases hstep
  exact ⟨(by decide : 1 ≤ 3), fun _ _ _ => trivial⟩

/-- A read past the end of an empty file panics. -/
theorem run_past_end : run Kind.step (.mem [] 0) [.lseek 1 0, .read 1] = none := by decide

end Vetro.Linux.OpenFile
