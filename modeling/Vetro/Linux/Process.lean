import Mathlib.Tactic
import Vetro.Core.Machine

/-!
# Processes and threads

The tasks of the user-mode kernel: `clone`, `execve`, `exit`, `exit_group`, fatal
signals and `wait4`.  A task keeps the fields that decide who is whose child and
who has ended.  Of the signal actions only the one of SIGCHLD is kept; tables of
actions are shared by reference, here by their index.  Whether a user address
can be written comes with the call.  A run ends with a panic, or where the pid
counter would leave its 32 bits; a release build goes on there with pids that wrap.
-/

namespace Vetro.Linux

abbrev Pid := ℤ

def ESRCH : ℤ := 3
def ECHILD : ℤ := 10
def EFAULT : ℤ := 14
def EINVAL : ℤ := 22

def CLONE_VM : BitVec 64 := 0x100
def CLONE_SIGHAND : BitVec 64 := 0x800
def CLONE_VFORK : BitVec 64 := 0x4000
def CLONE_PARENT : BitVec 64 := 0x8000
def CLONE_THREAD : BitVec 64 := 0x10000
def CLONE_PARENT_SETTID : BitVec 64 := 0x100000
def CLONE_CHILD_SETTID : BitVec 64 := 0x1000000

def WNOHANG : BitVec 64 := 1
def SIG_IGN : BitVec 64 := 1
def SA_NOCLDWAIT : BitVec 64 := 2
def SIGCHLD : BitVec 64 := 17

/-- What a task waits for; the waits that do not look at tasks are one. -/
inductive Wait where
  | child (pid : Pid)
  | vfork (child : Pid)
  | other
  deriving Repr, DecidableEq

inductive State where
  | runnable
  | blocked (wait : Wait)
  | zombie (status : BitVec 32)
  | dead
  deriving Repr, DecidableEq

structure Action where
  handler : BitVec 64
  flags : BitVec 64
  deriving Repr, DecidableEq

def Action.default : Action := ⟨0, 0⟩

/-- SIGCHLD is ignored, or no zombies are wanted. -/
def Action.ignoresChildren (action : Action) : Bool :=
  action.handler == SIG_IGN || action.flags &&& SA_NOCLDWAIT != 0

structure Task where
  tid : Pid
  tgid : Pid
  ppid : Pid
  pgid : Pid
  sighand : ℕ
  state : State
  exitSignal : BitVec 64
  vforkParent : Option Pid
  deriving Repr, DecidableEq

/-- Runnable or blocked. -/
def Task.live (task : Task) : Bool :=
  match task.state with
  | .runnable | .blocked _ => true
  | .zombie _ | .dead => false

def Task.isZombie (task : Task) : Bool :=
  match task.state with
  | .zombie _ => true
  | _ => false

inductive Exit where
  | code (code : BitVec 32)
  | signal (signo : BitVec 32)
  deriving Repr, DecidableEq

structure Kernel where
  tasks : List Task
  sighands : List Action
  nextPid : Pid
  init : Pid
  initExit : Option Exit
  deriving Repr, DecidableEq

/-- An address of user memory, and whether it takes a write. -/
structure UserPtr where
  addr : BitVec 64
  writable : Bool
  deriving Repr, DecidableEq

/-- What a system call does to its caller. -/
inductive Sys where
  | ret (value : ℤ)
  | block (wait : Wait)
  | noReturn
  deriving Repr, DecidableEq

namespace Kernel

/-- The kernel after `spawn` of the initial process. -/
def spawned : Kernel where
  tasks := [⟨100, 100, 1, 100, 0, .runnable, SIGCHLD, none⟩]
  sighands := [.default]
  nextPid := 101
  init := 100
  initExit := none

def setState (k : Kernel) (t : ℕ) (state : State) : Kernel :=
  { k with tasks := k.tasks.modify t fun x => { x with state } }

/-- The action of the table that the task refers to. -/
def action (k : Kernel) (x : Task) : Action := (k.sighands[x.sighand]?).getD .default

def find (k : Kernel) (tid : Pid) : Option ℕ :=
  k.tasks.findIdx? fun x => x.tid == tid && x.state != .dead

/-- The next pid; without one the counter, an i32, would overflow, and the run ends. -/
def allocPid (k : Kernel) : Option (Pid × Kernel) :=
  if k.nextPid + 1 < 2 ^ 31 then some (k.nextPid, { k with nextPid := k.nextPid + 1 }) else none

/-- `child` as `sys_clone` makes it from the calling task, with the action table it
is given. -/
def cloned (parent : Task) (flags : BitVec 64) (tid : Pid) (sighand : ℕ) : Task :=
  let thread := flags &&& CLONE_THREAD != 0
  { tid
    tgid := if thread then parent.tgid else tid
    ppid := if thread || flags &&& CLONE_PARENT != 0 then parent.ppid else parent.tgid
    pgid := parent.pgid
    sighand
    state := .runnable
    exitSignal := if thread then 0 else flags &&& 0xff
    vforkParent := if flags &&& CLONE_VFORK != 0 then some parent.tid else none }

/-- `clone` by task `t`, which is `parent`. -/
def sysClone (k : Kernel) (t : ℕ) (parent : Task) (flags : BitVec 64) (ptid ctid : UserPtr) :
    Option (Except ℤ Sys × Kernel) :=
  if (flags &&& CLONE_THREAD != 0 && flags &&& CLONE_SIGHAND == 0) ||
      (flags &&& CLONE_SIGHAND != 0 && flags &&& CLONE_VM == 0) then
    some (.error EINVAL, k)
  else
    match k.allocPid with
    | none => none
    | some (tid, k) =>
      let shared := flags &&& CLONE_SIGHAND != 0
      let child := cloned parent flags tid (if shared then parent.sighand else k.sighands.length)
      let sighands :=
        if shared then k.sighands
        else k.sighands ++ [k.action parent]
      if flags &&& CLONE_PARENT_SETTID != 0 && !ptid.writable then some (.error EFAULT, k)
      else if flags &&& CLONE_CHILD_SETTID != 0 && !ctid.writable then some (.error EFAULT, k)
      else
        let k := { k with tasks := k.tasks ++ [child], sighands }
        if flags &&& CLONE_VFORK != 0 then
          some (.ok .noReturn, k.setState t (.blocked (.vfork tid)))
        else some (.ok (.ret tid), k)

/-- `execve` by task `t`, which is `task`; `loaded` is what reading and loading the
image gives. -/
def sysExecve (k : Kernel) (t : ℕ) (task : Task) (loaded : Except ℤ Unit) : Except ℤ Sys × Kernel :=
  match loaded with
  | .error errno => (.error errno, k)
  | .ok () =>
    let action := if (k.action task).handler != SIG_IGN then .default else k.action task
    let tasks := k.tasks.mapIdx fun i x =>
      if i != t && x.tgid == task.tgid && x.state != .dead then { x with state := .dead } else x
    let tasks := tasks.modify t fun x =>
      { x with sighand := k.sighands.length, vforkParent := none }
    (.ok .noReturn, { k with tasks, sighands := k.sighands ++ [action] })

/-- `matches`: the child is one of those `pid` asks for. -/
def matchesPid (k : Kernel) (c : Task) (parentTgid pid : Pid) : Bool :=
  if pid = -1 then true
  else if pid = 0 then
    c.pgid == (((k.find parentTgid).bind fun p => k.tasks[p]?).map Task.pgid).getD 0
  else if 0 < pid then c.tgid == pid
  else c.pgid == -pid

/-- The condition of `reap` and of `has_waitable_child`. -/
def waitable (k : Kernel) (parentTgid pid : Pid) (c : Task) : Bool :=
  c.ppid == parentTgid && c.tid == c.tgid && c.isZombie && k.matchesPid c parentTgid pid

def hasWaitableChild (k : Kernel) (parentTgid pid : Pid) : Bool :=
  k.tasks.any (k.waitable parentTgid pid)

def hasChild (k : Kernel) (parentTgid pid : Pid) : Bool :=
  k.tasks.any fun c =>
    c.ppid == parentTgid && c.tid == c.tgid && c.state != .dead && c.exitSignal != 0 &&
      k.matchesPid c parentTgid pid

/-- Pid and status of a child that has ended, which is then gone. -/
def reap (k : Kernel) (parentTgid pid : Pid) : Option ((Pid × BitVec 32) × Kernel) :=
  match k.tasks.findIdx? (k.waitable parentTgid pid) with
  | none => none
  | some i =>
    match k.tasks[i]? with
    | some { tid, state := .zombie status, .. } => some ((tid, status), k.setState i .dead)
    | _ => none

/-- The child and the kernel after `wait4` by a task of process `me`; no child when
it has to wait. -/
def sysWait4 (k : Kernel) (me pid : Pid) (status : UserPtr) (options : BitVec 64) :
    Except ℤ (Option ℤ) × Kernel :=
  if options &&& ~~~(1 ||| 2 ||| 8 ||| 0x20000000 ||| 0x40000000 ||| 0x80000000) != 0 then
    (.error EINVAL, k)
  else if pid = -2 ^ 31 then (.error ESRCH, k)
  else
    match k.reap me pid with
    | some ((cpid, _), k) =>
      if status.addr != 0 && !status.writable then (.error EFAULT, k) else (.ok (some cpid), k)
    | none =>
      if !k.hasChild me pid then (.error ECHILD, k)
      else if options &&& WNOHANG != 0 then (.ok (some 0), k)
      else (.ok none, k)

/-- The call number of `wait4`, with the resource usage it writes at the end. -/
def wait4 (k : Kernel) (me pid : Pid) (status : UserPtr) (options : BitVec 64)
    (rusage : UserPtr) : Except ℤ Sys × Kernel :=
  match k.sysWait4 me pid status options with
  | (.error errno, k) => (.error errno, k)
  | (.ok (some value), k) =>
    if rusage.addr != 0 && !rusage.writable then (.error EFAULT, k) else (.ok (.ret value), k)
  | (.ok none, k) => (.ok (.block (.child pid)), k)

/-- What `finish_thread` makes of the task. -/
def finished (x : Task) : Task :=
  { x with
    vforkParent := none
    state := if x.tid = x.tgid then .zombie 0 else .dead }

def finishThread (k : Kernel) (t : ℕ) : Kernel :=
  { k with tasks := k.tasks.modify t finished }

/-- The orphans of process `tgid` go to the initial one. -/
def reparent (k : Kernel) (tgid : Pid) : Kernel :=
  { k with
    tasks := k.tasks.map fun x =>
      if x.ppid == tgid && x.tgid != tgid then { x with ppid := k.init } else x }

def exitOf (status : BitVec 32) : Exit :=
  if status &&& 0x7f = 0 then .code (status.sshiftRight 8 &&& 0xff) else .signal (status &&& 0x7f)

/-- Some task of the process is runnable or blocked. -/
def alive (k : Kernel) (tgid : Pid) : Bool :=
  k.tasks.any fun x => x.tgid == tgid && x.live

/-- What the end of process `tgid` makes of the tasks. -/
def endProcess (k : Kernel) (tgid : Pid) (status : BitVec 32) : Kernel :=
  match k.tasks.findIdx? fun x => x.tid == tgid with
  | none => k
  | some leader =>
    let k := k.reparent tgid
    let k := if tgid == k.init then { k with initExit := some (exitOf status) } else k
    let ppid := ((k.tasks[leader]?).map Task.ppid).getD 0
    let parent := (k.find ppid).bind fun p => k.tasks[p]?
    let autoReap := parent.all fun p => (k.action p).ignoresChildren
    k.setState leader (if autoReap && tgid != k.init then .dead else .zombie status)

/-- A thread of process `tgid` that runs or is blocked looks up the action of the signal, of
which there are 65.  Pending signals are not kept. -/
def sendToProcess (k : Kernel) (tgid : Pid) (signal : BitVec 64) : Option Kernel :=
  if k.alive tgid && 65 ≤ signal.toNat then none else some k

/-- The process ends and its parent is told; a signal that it has no action for is a panic. -/
def finishProcess (k : Kernel) (tgid : Pid) (status : BitVec 32) : Option Kernel :=
  let next := k.endProcess tgid status
  match (k.tasks.findIdx? fun x => x.tid == tgid).bind fun i => (k.reparent tgid).tasks[i]? with
  | none => some next
  | some leader =>
    if leader.exitSignal != 0 && ((k.reparent tgid).find leader.ppid).isSome then
      next.sendToProcess leader.ppid leader.exitSignal
    else some next

/-- `exit` of task `t` of process `tgid`. -/
def exitThread (k : Kernel) (t : ℕ) (tgid : Pid) (status : BitVec 32) : Option Kernel :=
  let k := k.finishThread t
  if k.alive tgid then some k else k.finishProcess tgid status

def exitGroup (k : Kernel) (tgid : Pid) (status : BitVec 32) : Option Kernel :=
  finishProcess { k with
    tasks := k.tasks.map fun x => if x.tgid == tgid && x.live then finished x else x } tgid status

def waitSatisfied (k : Kernel) (i : ℕ) (wait : Wait) (satisfied : Bool) : Bool :=
  match wait with
  | .child pid =>
    let me := ((k.tasks[i]?).map Task.tgid).getD 0
    k.hasWaitableChild me pid || !k.hasChild me pid
  | .vfork child =>
    match (k.find child).bind fun c => k.tasks[c]? with
    | none => true
    | some c => c.vforkParent.isNone
  | .other => satisfied

/-- The scheduler looks at task `i`; `satisfied` answers for the waits that do not
look at tasks, `signalled` is a signal that wakes it. -/
def ready (k : Kernel) (i : ℕ) (satisfied signalled : Bool) : Kernel :=
  match k.tasks[i]? with
  | some { state := .blocked wait, .. } =>
    if k.waitSatisfied i wait satisfied || signalled then k.setState i .runnable else k
  | _ => k

end Kernel

/-- What a running task does. -/
inductive Call where
  | clone (flags : BitVec 64) (ptid ctid : UserPtr)
  | execve (loaded : Except ℤ Unit)
  | wait4 (pid : Pid) (status : UserPtr) (options : BitVec 64) (rusage : UserPtr)
  | exit (code : BitVec 64)
  | exitGroup (code : BitVec 64)
  /-- A fatal signal is delivered to the task. -/
  | killed (wstatus : BitVec 32)
  /-- SIGCHLD's action changes (`rt_sigaction`, or a handler that is reset). -/
  | setAction (action : Action)
  | setpgid (pid pgid : Pid)
  | setsid
  /-- Any other call that blocks. -/
  | block

inductive Event where
  /-- Task `t` runs. -/
  | call (t : ℕ) (call : Call)
  /-- The scheduler looks at task `i`. -/
  | ready (i : ℕ) (satisfied signalled : Bool)

namespace Kernel

/-- `(a[0] & 0xff) << 8` as an i32. -/
def exitStatus (code : BitVec 64) : BitVec 32 := ((code &&& 0xff) <<< 8).setWidth 32

def setpgid (k : Kernel) (pid pgid : Pid) : Except ℤ Sys × Kernel :=
  if k.tasks.any fun x => x.tgid == pid then
    (.ok (.ret 0), { k with
      tasks := k.tasks.map fun x => if x.tgid == pid then { x with pgid } else x })
  else (.error ESRCH, k)

/-- The call of task `t`, which is `task`. -/
def dispatch (k : Kernel) (t : ℕ) (task : Task) : Call → Option (Except ℤ Sys × Kernel)
  | .clone flags ptid ctid => k.sysClone t task flags ptid ctid
  | .execve loaded => some (k.sysExecve t task loaded)
  | .wait4 pid status options rusage => some (k.wait4 task.tgid pid status options rusage)
  | .exit code => (k.exitThread t task.tgid (exitStatus code)).map fun k => (.ok .noReturn, k)
  | .exitGroup code => (k.exitGroup task.tgid (exitStatus code)).map fun k => (.ok .noReturn, k)
  | .killed wstatus => (k.exitGroup task.tgid wstatus).map fun k => (.ok .noReturn, k)
  | .setAction action =>
    some (.ok (.ret 0), { k with sighands := k.sighands.set task.sighand action })
  | .setpgid pid pgid =>
    let pid := if pid = 0 then task.tgid else pid
    some (k.setpgid pid (if pgid = 0 then pid else pgid))
  | .setsid =>
    some (.ok (.ret task.tgid), { k with
      tasks := k.tasks.map fun x =>
        if x.tgid == task.tgid then { x with pgid := task.tgid } else x })
  | .block => some (.ok (.block .other), k)

/-- The child that a call returns: for `wait4` a value other than 0. -/
def returned : Call → Except ℤ Sys → Option Pid
  | .wait4 .., .ok (.ret value) => if value = 0 then none else some value
  | _, _ => none

/-- One step, and the child that a `wait4` returned in it.  Only a runnable task
makes calls, and nothing runs after the initial process has ended. -/
def step (k : Kernel) : Event → Option (Kernel × Option Pid)
  | .ready i satisfied signalled =>
    if k.initExit.isSome then none else some (k.ready i satisfied signalled, none)
  | .call t call =>
    match k.tasks[t]? with
    | none => none
    | some task =>
      if k.initExit.isSome || task.state != .runnable then none
      else
        match k.dispatch t task call with
        | none => none
        | some (result, k) =>
          match result with
          | .ok (.block wait) => some (k.setState t (.blocked wait), none)
          | result => some (k, returned call result)

end Kernel

end Vetro.Linux
