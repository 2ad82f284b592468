import Std.Data.TreeMap
import Vetro.Core.Machine
import Vetro.Files.Proto
import Vetro.Vsock.Device

/-!
# The client of `vetro-files`

Operations are pushed, sent as one or more requests, and finished by the replies
of the daemon or by the end of the connection.  Every operation is completed
exactly once or is still in the table.  Ids and sizes are numbers with the bounds
of their types; counters wrap, as in a
release build.
-/

namespace Vetro.Files

open Bytes Vsock

def RETRY_NS : ℕ := 100000000

/-- The outcome of an operation. -/
inductive Outcome where
  | stat (s : Stat)
  | list (entries : List Entry)
  | data (size : ℕ) (data : List Byte)
  | written (s : Stat)
  | watch (wd : ℕ)
  | sql (r : SqlResult)
  | done
  deriving Repr, DecidableEq

/-- Why an operation failed. -/
inductive FilesError where
  | errno (e : ℕ)
  | protocol (message : String)
  | disconnected
  | sql (code : ℕ) (message : List Byte)
  deriving Repr, DecidableEq

structure Completion where
  op : ℕ
  result : Except FilesError Outcome

inductive LinkState where
  | idle
  | connecting
  | ready (h : Hello)
  | waiting (untilNs : ℕ)
  deriving Repr, DecidableEq

inductive Work where
  | simple (r : Request)
  | read (path : List Byte) (offset left : ℕ) (size : Option ℕ) (data : List Byte)
  | write (path data : List Byte) (mode : ℕ) (excl : Bool) (replies : ℕ)
      (err : Option FilesError)
  deriving Repr, DecidableEq

structure Op where
  work : Work
  started : Bool
  deriving Repr, DecidableEq

structure FilesClient where
  port : BitVec 32
  conn : Option VsockConn
  link : LinkState
  cleaned : Bool
  dec : Decoder
  out : List Byte
  nextId : ℕ
  nextOp : ℕ
  nextHandle : ℕ
  ops : Std.TreeMap ℕ Op
  /-- The operation a request belongs to. -/
  waiting : Std.TreeMap ℕ ℕ
  done : List Completion
  events : List Event
  generation : ℕ

/-- `checked_add(1).unwrap_or(1)` on a u32. -/
def bump (n : ℕ) : ℕ := if n + 1 < 2 ^ 32 then n + 1 else 1

namespace FilesClient

def new (port : BitVec 32) : FilesClient where
  port := port
  conn := none
  link := .idle
  cleaned := false
  dec := .default
  out := []
  nextId := 1
  nextOp := 1
  nextHandle := 1
  ops := ∅
  waiting := ∅
  done := []
  events := []
  generation := 0

def isReady (s : FilesClient) : Bool :=
  match s.link with
  | .ready _ => true
  | _ => false

def chunk (s : FilesClient) : ℕ :=
  match s.link with
  | .ready h => min CHUNK (max h.maxChunk 1)
  | _ => CHUNK

def send (s : FilesClient) (op : ℕ) (req : Request) : FilesClient :=
  { s with
    nextId := bump s.nextId
    out := s.out ++ req.encode s.nextId
    waiting := s.waiting.insert s.nextId op }

def sendAll (s : FilesClient) (op : ℕ) (reqs : List Request) : FilesClient :=
  reqs.foldl (fun s r => s.send op r) s

/-- The requests that write `data` in pieces. -/
def writeRequests (handle : ℕ) (path data : List Byte) (mode : ℕ) (excl : Bool) (chunk : ℕ) :
    List Request :=
  .wOpen handle path mode excl ::
    ((data.toChunks chunk).zipIdx.map fun c => .wData handle (c.2 * chunk) c.1) ++
    [.wCommit handle]

def start (s : FilesClient) (id : ℕ) : FilesClient :=
  let chunk := s.chunk
  match s.ops[id]? with
  | none => s
  | some op =>
    if op.started then s
    else
      match op.work with
      | .simple r =>
        { s with ops := s.ops.insert id { op with started := true } }.sendAll id [r]
      | .read path offset left _ _ =>
        { s with ops := s.ops.insert id { op with started := true } }.sendAll id
          [.read path offset (min left chunk)]
      | .write path data mode excl _ err =>
        let reqs := writeRequests s.nextHandle path data mode excl chunk
        let work := .write path data mode excl (reqs.length % 2 ^ 32) err
        { s with
          nextHandle := bump s.nextHandle
          ops := s.ops.insert id ⟨work, true⟩ }.sendAll id reqs

/-- Every operation of the client: `stat`, `list`, `read`, ... with its work. -/
def push (s : FilesClient) (work : Work) : ℕ × FilesClient :=
  let id := s.nextOp
  let s := { s with nextOp := bump s.nextOp, ops := s.ops.insert id ⟨work, false⟩ }
  (id, if s.isReady then s.start id else s)

def complete (s : FilesClient) (op : ℕ) (result : Except FilesError Outcome) : FilesClient :=
  { s with done := s.done ++ [⟨op, result⟩] }

def finish (s : FilesClient) (op : ℕ) (result : Except FilesError Outcome) : FilesClient :=
  { s with ops := s.ops.erase op }.complete op result

def takeCompletion (s : FilesClient) : Option Completion × FilesClient :=
  match s.done with
  | [] => (none, s)
  | c :: rest => (some c, { s with done := rest })

def takeEvent (s : FilesClient) : Option Event × FilesClient :=
  match s.events with
  | [] => (none, s)
  | e :: rest => (some e, { s with events := rest })

/-- What a reply to a simple request gives. -/
def simpleOutcome (req : Request) (body : List Byte) : Except String (Except FilesError Outcome) :=
  match req with
  | .stat _ => (fun s => .ok (.stat s)) <$> parseStat body
  | .list _ => (fun l => .ok (.list l)) <$> parseList body
  | .watch _ => (fun wd => .ok (.watch wd)) <$> parseWatch body
  | .sql .. =>
    (fun r => match r with
      | .ok r => .ok (.sql r)
      | .error (code, message) => .error (.sql code message)) <$> parseSql body
  | _ => .ok (.ok .done)

/-- What a reply does to an operation that was taken out of the table. -/
inductive Advance where
  /-- It goes on; the request that continues it. -/
  | more (op : Op) (req : Option Request)
  | finished (result : Except FilesError Outcome)
  /-- The daemon broke the protocol. -/
  | broken (message : String)

def advance (chunk : ℕ) (op : Op) (status : ℕ) (body : List Byte) : Advance :=
  let err : Option FilesError := if status ≠ 0 then some (.errno status) else none
  match op.work with
  | .simple req =>
    match err with
    | some e => .finished (.error e)
    | none =>
      match simpleOutcome req body with
      | .ok result => .finished result
      | .error message => .broken message
  | .read path offset left size data =>
    match err with
    | some e => .finished (.error e)
    | none =>
      match parseRead body with
      | .error message => .broken message
      | .ok (sz, got) =>
        let asked := min left chunk
        let len := got.length
        if len > asked then .broken s!"{len} bytes read, {asked} requested"
        else
          let size := size.getD sz
          let offset := (offset + len) % 2 ^ 64
          let left := left - len
          let data := data ++ got
          if len < asked ∨ left = 0 then .finished (.ok (.data size data))
          else
            .more { op with work := .read path offset left (some size) data }
              (some (.read path offset (min left chunk)))
  | .write path data mode excl replies first =>
    let replies := (replies + (2 ^ 32 - 1)) % 2 ^ 32
    let first := if first.isNone then err else first
    if 0 < replies then .more { op with work := .write path data mode excl replies first } none
    else
      match first with
      | some e => .finished (.error e)
      | none =>
        match parseStat body with
        | .ok stat => .finished (.ok (.written stat))
        | .error message => .broken message

def onReply (s : FilesClient) (id status : ℕ) (body : List Byte) :
    Except String Unit × FilesClient :=
  match s.ops[id]? with
  | none => (.error "unknown operation", s)
  | some op =>
    let s := { s with ops := s.ops.erase id }
    match advance s.chunk op status body with
    | .more op req =>
      let s := s.sendAll id req.toList
      (.ok (), { s with ops := s.ops.insert id op })
    | .finished result => (.ok (), s.complete id result)
    | .broken message => (.error message, s.complete id (.error (.protocol message)))

def onFrame (s : FilesClient) : Frame → Except String Unit × FilesClient
  | .hello h =>
    let version := h.version
    if s.isReady then (.error "second greeting", s)
    else if ¬ (MIN_VERSION ≤ version ∧ version ≤ VERSION) then
      (.error s!"daemon version {version}, expected {MIN_VERSION} to {VERSION}", s)
    else
      let s := { s with link := .ready h, generation := (s.generation + 1) % 2 ^ 32 }
      (.ok (), s.ops.keys.foldl start s)
  | .event e => (.ok (), { s with events := s.events ++ [e] })
  | .reply id status body =>
    match s.waiting[id]? with
    | none => (.error s!"response to an unknown request ({id})", s)
    | some op => { s with waiting := s.waiting.erase id }.onReply op status body

/-! ## Nothing but `on_bytes` takes bytes from the decoder -/

variable (s : FilesClient)

theorem dec_sendAll (op : ℕ) (reqs : List Request) : (s.sendAll op reqs).dec = s.dec := by
  induction reqs generalizing s with
  | nil => rfl
  | cons r reqs ih => exact ih (s.send op r)

theorem dec_start (id : ℕ) : (s.start id).dec = s.dec := by
  unfold start
  split
  · rfl
  · split_ifs
    · rfl
    · split <;> rw [dec_sendAll]

theorem dec_startAll (ids : List ℕ) : (ids.foldl start s).dec = s.dec := by
  induction ids generalizing s with
  | nil => rfl
  | cons id ids ih => exact (ih (s.start id)).trans (dec_start s id)

theorem dec_onReply (id status : ℕ) (body : List Byte) :
    (s.onReply id status body).2.dec = s.dec := by
  unfold onReply
  split
  · rfl
  · dsimp only
    split
    · exact dec_sendAll _ _ _
    · rfl
    · rfl

theorem dec_onFrame (frame : Frame) : (s.onFrame frame).2.dec = s.dec := by
  cases frame with
  | hello h =>
    unfold onFrame
    dsimp only
    split_ifs
    · rfl
    · exact dec_startAll _ _
    · rfl
  | event e => rfl
  | reply id status body =>
    unfold onFrame
    dsimp only
    split
    · rfl
    · exact dec_onReply _ _ _ _

/-- The loop of `on_bytes` over the complete frames. -/
def frames (s : FilesClient) : Except String Unit × FilesClient :=
  match hnext : s.dec.nextFrame with
  | none => (.ok (), s)
  | some (.error message, dec) => (.error message, { s with dec })
  | some (.ok frame, dec) =>
    match hframe : { s with dec }.onFrame frame with
    | (.error message, s) => (.error message, s)
    | (.ok (), s) => s.frames
termination_by s.dec.pending
decreasing_by
  have hdec := congrArg (fun r => r.2.dec) hframe
  rw [dec_onFrame] at hdec
  rw [← hdec]
  exact Decoder.pending_nextFrame hnext

def onBytes (s : FilesClient) (bytes : List Byte) : Except String Unit × FilesClient :=
  { s with dec := s.dec.push bytes }.frames

/-- The connection is over: what was sent fails, what was not waits for the next. -/
def onClosed (s : FilesClient) (why : FilesError) : FilesClient :=
  let s := { s with conn := none, dec := .default, out := [], waiting := ∅ }
  let started := (s.ops.toList.filter fun o => o.2.started).map Prod.fst
  started.foldl (fun s id => s.finish id (.error why)) s

/-- What the client asks of the machine. -/
inductive VsockOp where
  | release (c : VsockConn)
  | connect (port : BitVec 32)
  | recv (c : VsockConn) (max : ℕ)
  | send (c : VsockConn) (data : List Byte)
  deriving Repr, DecidableEq

/-- What the machine answers while `pump` runs. -/
structure Answers where
  /-- It is stopped or replays, or it has no virtio-vsock. -/
  absent : Bool
  conns : List VsockConn
  now : ℕ
  connect : Option VsockConn
  state : Option VsockState
  available : ℕ
  recv : Option (List Byte)
  eof : Bool

/-- The part of `pump` with a connection, after the bytes that came. -/
def pumpOut (s : FilesClient) (c : VsockConn) (a : Answers) : List VsockOp × FilesClient :=
  let sending := s.isReady && !s.out.isEmpty && a.state == some .connected
  let sent := if sending then [.send c s.out] else []
  let s := if sending then { s with out := [] } else s
  if a.state = none ∨ a.state = some .closed ∨ (a.eof ∧ a.state ≠ some .connecting) then
    (sent ++ [.release c],
      { s.onClosed .disconnected with link := .waiting ((a.now + RETRY_NS) % 2 ^ 64) })
  else (sent, s)

def pump (s : FilesClient) (a : Answers) : List VsockOp × FilesClient :=
  if a.absent then ([], s)
  else
    let stale := if s.cleaned then []
      else (a.conns.filter fun c => c.guestPort == s.port && some c != s.conn).map .release
    let s := { s with cleaned := true }
    match s.conn with
    | none =>
      let early := match s.link with
        | .waiting untilNs => decide (a.now < untilNs)
        | _ => false
      if early then (stale, s)
      else
        (stale ++ [.connect s.port], match a.connect with
          | some c => { s with conn := some c, link := .connecting }
          | none => s)
    | some c =>
      if 0 < a.available then
        match a.recv with
        | some bytes =>
          match s.onBytes bytes with
          | (.error message, s) =>
            (stale ++ [.recv c a.available, .release c],
              { s.onClosed (.protocol message) with
                link := .waiting ((a.now + RETRY_NS) % 2 ^ 64) })
          | (.ok (), s) =>
            let r := s.pumpOut c a
            (stale ++ [.recv c a.available] ++ r.1, r.2)
        | none =>
          let r := s.pumpOut c a
          (stale ++ [.recv c a.available] ++ r.1, r.2)
      else
        let r := s.pumpOut c a
        (stale ++ r.1, r.2)

def close (s : FilesClient) : FilesClient :=
  match s.conn with
  | some _ => { s.onClosed .disconnected with link := .idle }
  | none => { s with link := .idle }

end FilesClient

end Vetro.Files
