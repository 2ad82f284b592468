import Vetro.Board.Trap
import Vetro.Snapshot.Format

/-!
# Deferred saves

`vetro-machine/src/machine/snapshot.rs`: a deferred save gives its head and then
the pages of the RAM, a few at a time, while the guest goes on writing.  Whatever
happens between the calls, a save that ends has given the RAM of the instant at
which it started.
-/

namespace Vetro.Board

open Bytes Splice
open Format (Error)

/-- A deferred save in progress. -/
structure DeferredSave where
  head : List Byte
  headLen : ℕ
  /-- Bytes of `head` already given. -/
  sent : ℕ
  /-- Next page of the RAM to give. -/
  page : ℕ
  epoch : ℕ
  done : Bool
  deriving Repr, DecidableEq

/-- Starts a deferred save with the sections in `head`; the trap is over the RAM from now on. -/
def saveDeferred (ram : Ram) (parallel : Bool) (head : List Byte) :
    Except String DeferredSave × Ram :=
  if parallel then
    (.error "the cores run in parallel: stop them before starting a deferred save", ram)
  else
    let armed := ram.trapArm
    (.ok ⟨head, head.length, 0, 0, armed.1, false⟩, armed.2)

namespace DeferredSave

/-- Bytes of the raw stream given so far. -/
def given (save : DeferredSave) (ram : Ram) : ℕ :=
  if save.sent < save.headLen then save.sent
  else save.headLen + min (save.page * pageSize) ram.size

/-- The next bytes of the head, at most `most`. -/
def pumpHead (save : DeferredSave) (most : ℕ) : DeferredSave × List Byte :=
  if save.sent < save.head.length then
    let n := min (save.head.length - save.sent) most
    let sent := save.sent + n
    ({ save with sent, head := if sent = save.head.length then [] else save.head },
      slice save.head save.sent sent)
  else (save, [])

/-- The next pages of the RAM, after the bytes `out` of the head. -/
def pumpPages (save : DeferredSave) (ram : Ram) (room : ℕ) (out : List Byte) :
    Except Error Bool × DeferredSave × Ram × List Byte :=
  let pages := ram.pages
  let stop := min (save.page + max (room / pageSize) 1) pages
  match ram.trapTake save.epoch save.page stop out with
  | (false, ram, out) =>
    (.error (.invalid "deferred save: the machine was restored meanwhile"), save, ram, out)
  | (true, ram, out) =>
    if stop = pages then (.ok true, { save with page := stop, done := true },
      ram.trapDisarm, out)
    else (.ok false, { save with page := stop }, ram, out)

/-- The next bytes of the raw stream, about `most`; true once everything has been given. -/
def pump (save : DeferredSave) (ram : Ram) (most : ℕ) :
    Except Error Bool × DeferredSave × Ram × List Byte :=
  if save.done then (.ok true, save, ram, [])
  else
    let first := save.pumpHead most
    let room := most - first.2.length
    if first.1.head.length ≤ first.1.sent ∧ (0 < room ∨ first.2 = []) then
      first.1.pumpPages ram room first.2
    else (.ok false, first.1, ram, first.2)

/-- An unfinished save stops trapping writes, unless the trap is no longer its own. -/
def drop (save : DeferredSave) (ram : Ram) : Ram :=
  if save.done = false ∧ ram.trap.epoch = save.epoch then ram.trapDisarm else ram

end DeferredSave

/-! ## Runs -/

/-- A save as its owner has it, with the history of the save. -/
structure Session where
  /-- None once the save is dropped. -/
  save : Option DeferredSave
  /-- All that `pump` has given. -/
  given : List Byte
  /-- Answer of the last `pump`. -/
  answer : Option (Except Error Bool)
  /-- The head of the save. -/
  head : List Byte
  /-- The RAM of the instant at which the save started. -/
  image : List Byte
  /-- Another save was started, or the machine was restored, before the save was done. -/
  overtaken : Bool

/-- A save that has just started. -/
def Session.new (save : DeferredSave) (head image : List Byte) : Session :=
  ⟨some save, [], none, head, image, false⟩

/-- The save is alive, and nothing has taken its place. -/
def Session.InProgress (session : Session) : Prop :=
  ∃ save, session.save = some save ∧ save.done = false ∧ session.overtaken = false

/-- Another save or a restore. -/
def Session.overtake (session : Session) : Session :=
  { session with overtaken := session.overtaken || session.save.any fun save => !save.done }

/-- The RAM with all the saves that were ever started. -/
structure System where
  ram : Ram
  sessions : List Session

inductive Event where
  | start (parallel : Bool) (head : List Byte)
  | pump (id most : ℕ)
  | drop (id : ℕ)
  | write (pa : ℕ) (data : List Byte)
  | writeWatched (pa : ℕ) (data : List Byte)
  | cmpxchg (pa : ℕ) (old new : List Byte)
  | writeDirect (pa : ℕ) (data : List Byte)
  | restore (blocks : List (ℕ × List Byte)) (ok : Bool)

namespace System

/-- The save `id` and its session. -/
def find (system : System) (id : ℕ) : Option (Session × DeferredSave) :=
  system.sessions[id]?.bind fun session => session.save.map fun save => (session, save)

def step (system : System) : Event → System
  | .start parallel head =>
    match saveDeferred system.ram parallel head with
    | (.error _, ram) => { system with ram }
    | (.ok save, ram) => {
      ram
      sessions := system.sessions.map Session.overtake ++
        [Session.new save head system.ram.bytes] }
  | .pump id most =>
    match system.find id with
    | none => system
    | some (session, save) =>
      let pumped := save.pump system.ram most
      { ram := pumped.2.2.1
        sessions := system.sessions.set id { session with
          save := some pumped.2.1
          given := session.given ++ pumped.2.2.2
          answer := some pumped.1 } }
  | .drop id =>
    match system.find id with
    | none => system
    | some (session, save) => {
      ram := save.drop system.ram
      sessions := system.sessions.set id { session with save := none } }
  | .write pa data => { system with ram := (system.ram.write pa data).2 }
  | .writeWatched pa data => { system with ram := (system.ram.writeWatched pa data).2 }
  | .cmpxchg pa old new => { system with ram := (system.ram.cmpxchg pa old new).2 }
  | .writeDirect pa data => { system with ram := system.ram.writeDirect pa data }
  | .restore blocks ok => {
    ram := system.ram.restoreFrom blocks ok
    sessions := system.sessions.map Session.overtake }

def run (system : System) (events : List Event) : System := events.foldl step system

end System

end Vetro.Board
