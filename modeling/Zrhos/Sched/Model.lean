import Zrhos.Lib.Steps
import Zrhos.Sync.Semaphore

/-! The processes of `proc.c` with the locks and semaphores of `lock.c`, on any number of
CPUs. A CPU works off a list of instructions, each one access to shared memory or a few of
them under one lock; a call stands for the instructions of its body, and a branch or a loop
puts those of the next round in front. -/
namespace Zrhos.Sched
open Steps Sync

/-- The task table in its order. -/
@[irreducible] def slots : List ℕ := List.range NTASK

theorem mem_slots {t : ℕ} : t ∈ slots ↔ t < NTASK := by
  unfold slots
  exact List.mem_range

/-- The `sons_sem` of a task, or a semaphore of another part of the kernel. -/
inductive Sem where
  | sons (t : ℕ)
  | other (n : ℕ)
  deriving DecidableEq, Repr

inductive Lock where
  | task (t : ℕ)
  | wait
  | sem (s : Sem)
  | other (n : ℕ)
  deriving DecidableEq, Repr

/-- A condition that tasks sleep for: the lock that protects it and the channel. -/
structure Cond where
  lk : ℕ
  chan : ℕ
  deriving DecidableEq, Repr

/-- What a CPU does next. The local variable `t` or `myt` of the source is an argument; `p`
in `up` and `wake` names the child on whose account an exiting task signals. -/
inductive Instr where
  | lock (l : Lock)
  | unlock (l : Lock)
  | setState (t : ℕ) (state : TaskState)
  | sched (t : ℕ)
  | swtch (t : ℕ)
  | scan (t : ℕ)
  | pick (t : ℕ)
  | setCurrent (t : Option ℕ)
  | enter (t : ℕ)
  | goToSleep (t chan : ℕ)
  | tidy (t : ℕ)
  | wakeIf (t chan : ℕ)
  | down (t : ℕ) (s : Sem)
  | up (s : Sem) (p : Option ℕ)
  | wake (t : ℕ) (p : Option ℕ)
  | zombie (t : ℕ) (status : BitVec 32)
  | signalParent (t : ℕ)
  | adopt (t p : ℕ)
  | waitScan (t status p : ℕ)
  | waitCheck (t status p : ℕ)
  | reap (t status p : ℕ)
  | forkScan (t nt : ℕ)
  | forkCheck (t nt : ℕ)
  | forkFill (t nt : ℕ)
  | killScan (pid : BitVec 32) (t : ℕ)
  | killCheck (pid : BitVec 32) (t : ℕ)
  | timer
  | await (t : ℕ) (q : Cond)
  | raise (myt : Option ℕ) (q : Cond)
  | lower (q : Cond)
  deriving DecidableEq, Repr

/-! ### The functions -/

def yield (t : ℕ) : List Instr :=
  [.lock (.task t), .setState t .RUNNABLE, .sched t, .unlock (.task t)]

def sleep (t chan lk : ℕ) : List Instr :=
  [.lock (.task t), .unlock (.other lk), .goToSleep t chan, .sched t, .tidy t,
    .unlock (.task t), .lock (.other lk)]

/-- A round of the loop of `wakeup`. -/
def wakeupRound (myt : Option ℕ) (chan t : ℕ) : List Instr :=
  if some t = myt then [] else [.lock (.task t), .wakeIf t chan, .unlock (.task t)]

def wakeup (myt : Option ℕ) (chan : ℕ) : List Instr := slots.flatMap (wakeupRound myt chan)

def lmP (t : ℕ) (s : Sem) : List Instr := [.lock (.sem s), .down t s]

/-- The branch of `lm_P` that goes to sleep. -/
def lmPSleep (t : ℕ) (s : Sem) : List Instr :=
  [.lock (.task t), .setState t .SLEEPING, .unlock (.sem s), .sched t, .unlock (.task t)]

def lmV (s : Sem) (p : Option ℕ) : List Instr := [.lock (.sem s), .up s p]

/-- The branch of `lm_V` that wakes `t`. -/
def lmVWake (t : ℕ) (s : Sem) (p : Option ℕ) : List Instr :=
  [.lock (.task t), .wake t p, .unlock (.task t), .unlock (.sem s)]

def reparent (t : ℕ) : List Instr := (slots.filter (· ≠ t)).map (.adopt t)

/-- `exit` once the state is set. -/
def exitRest (t : ℕ) : List Instr :=
  .lock .wait :: .signalParent t :: (reparent t ++ [.unlock .wait, .swtch t])

def exit (t : ℕ) (status : BitVec 32) : List Instr :=
  .lock (.task t) :: .zombie t status :: exitRest t

/-- `sys_wait`; `status` is the address that the user gives. -/
def sysWait (t status : ℕ) : List Instr := lmP t (.sons t) ++ [.waitScan t status 0]

def sysFork (t : ℕ) : List Instr := [.forkScan t 0]

def sysKill (pid : BitVec 32) : List Instr := [.killScan pid 0]

/-- What `scheduler` does when it is back from task `t`. -/
def back (t : ℕ) : List Instr := [.setCurrent none, .unlock (.task t), .scan (t + 1)]

/-! ### Conditions -/

/-- What code does under a lock about a condition of that lock: it sleeps in a loop until
the condition holds, makes it true and calls `wakeup`, or makes it false. -/
inductive CondOp where
  | await (chan : ℕ)
  | raise (chan : ℕ)
  | lower (chan : ℕ)
  deriving DecidableEq, Repr

def CondOp.sleeps : CondOp → Bool
  | .await _ => true
  | _ => false

def CondOp.code (myt : Option ℕ) (l : ℕ) : CondOp → List Instr
  | .await chan => myt.toList.map fun t => .await t ⟨l, chan⟩
  | .raise chan => [.raise myt ⟨l, chan⟩]
  | .lower chan => [.lower ⟨l, chan⟩]

/-- A critical section under a spinlock. -/
def criticalSection (myt : Option ℕ) (l : ℕ) (ops : List CondOp) : List Instr :=
  .lock (.other l) :: (ops.flatMap (CondOp.code myt l) ++ [.unlock (.other l)])

/-! ### The state -/

/-- A `task_t`. The history keeps where the scan of `sys_wait` stands from `lm_P` on, the
condition that the task sleeps for until it is woken, whether its exit has been signalled
to its parent, and the number of its birth. -/
structure Task where
  id : BitVec 32
  state : TaskState
  killed : Bool
  chan : Option ℕ
  parent : Option ℕ
  xstatus : BitVec 32
  token : Option ℕ
  waits : Option Cond
  announced : Bool
  birth : ℕ

/-- What a `sys_wait` tells: the waiting task, the child with the number of its birth, the
pid in `a0`, the user's address and the integer copied there. -/
structure Report where
  waiter : ℕ
  child : ℕ
  birth : ℕ
  a0 : BitVec 32
  status : ℕ
  copied : BitVec 32

/-- `code` is what a CPU executes, `home` the context of its scheduler and `context` that of
a task that is switched out. The waiters of a semaphore stand in the order of the list, the
latest first. -/
structure Kernel where
  task : ℕ → Task
  context : ℕ → List Instr
  code : ℕ → List Instr
  current : ℕ → Option ℕ
  home : ℕ → List Instr
  noff : ℕ → ℕ
  owner : Lock → Option ℕ
  value : Sem → ℤ
  waiters : Sem → List ℕ
  cond : Cond → Bool
  nextpid : BitVec 32
  births : ℕ
  reports : List Report

namespace Kernel

def goto (k : Kernel) (c : ℕ) (code : List Instr) : Kernel :=
  { k with code := Function.update k.code c code }

def setTask (k : Kernel) (t : ℕ) (x : Task) : Kernel :=
  { k with task := Function.update k.task t x }

/-- The `swtch` from task `t` to the scheduler. -/
def leave (k : Kernel) (c t : ℕ) (rest : List Instr) : Kernel :=
  { k with
    context := Function.update k.context t rest
    code := Function.update k.code c (k.home c) }

@[simp] theorem setTask_self (k : Kernel) (t : ℕ) (x : Task) : (k.setTask t x).task t = x :=
  Function.update_self _ _ _

theorem setTask_of_ne (k : Kernel) {t u : ℕ} (x : Task) (h : u ≠ t) :
    (k.setTask t x).task u = k.task u := Function.update_of_ne h _ _

@[simp] theorem goto_code (k : Kernel) (c : ℕ) (code : List Instr) :
    (k.goto c code).code c = code := Function.update_self _ _ _

def setValue (k : Kernel) (s : Sem) (value : ℤ) : Kernel :=
  { k with value := Function.update k.value s value }

/-- A task that has called `lm_P` on its own `sons_sem` is to scan from slot 0. -/
def startScan (k : Kernel) (t : ℕ) (s : Sem) : Kernel :=
  if s = .sons t then k.setTask t { k.task t with token := some 0 } else k

def announce (k : Kernel) : Option ℕ → Kernel
  | none => k
  | some p => k.setTask p { k.task p with announced := true }

/-- `utask_create` on the slot that it finds `DEAD`. -/
def utaskCreate (k : Kernel) (nt : ℕ) : Kernel :=
  { k.setTask nt { k.task nt with
      id := k.nextpid
      state := .USED
      token := none
      waits := none
      announced := false
      birth := k.births } with
    context := Function.update k.context nt [.unlock (.task nt)]
    owner := Function.update k.owner (.sem (.sons nt)) none
    value := Function.update k.value (.sons nt) 0
    waiters := Function.update k.waiters (.sons nt) []
    nextpid := k.nextpid + 1
    births := k.births + 1 }

/-- `sys_wait` on its child `p`, with `free_task`. -/
def freeTask (k : Kernel) (t status p : ℕ) : Kernel :=
  { (k.setTask t { k.task t with token := none }).setTask p
      { k.task p with id := -1, state := .DEAD, parent := none } with
    reports := k.reports ++
      [⟨t, p, (k.task p).birth, (k.task p).id, status, (k.task t).xstatus⟩] }

/-- One instruction of CPU `c`, with `rest` after it. A panic, a null pointer, a value that is
no `int` or a lock that is not free is no step. -/
def perform (k : Kernel) (c : ℕ) (rest : List Instr) : Instr → Option Kernel
  | .lock l =>
    if k.owner l = none then
      some { k.goto c rest with
        owner := Function.update k.owner l (some c)
        noff := Function.update k.noff c (k.noff c + 1) }
    else none
  | .unlock l =>
    if k.owner l = some c ∧ k.noff c ≠ 0 then
      some { k.goto c rest with
        owner := Function.update k.owner l none
        noff := Function.update k.noff c (k.noff c - 1) }
    else none
  | .setState t state => some ((k.goto c rest).setTask t { k.task t with state := state })
  | .sched t =>
    if k.owner (.task t) = some c ∧ k.noff c = 1 ∧ (k.task t).state ≠ .RUNNING then
      some (k.leave c t rest)
    else none
  | .swtch t => some (k.leave c t rest)
  | .scan t =>
    if t < NTASK then
      some (k.goto c (.lock (.task t) :: .pick t :: .unlock (.task t) :: .scan (t + 1) :: rest))
    else some (k.goto c (.scan 0 :: rest))
  | .pick t =>
    if (k.task t).id ≠ -1 ∧ (k.task t).state = .RUNNABLE then
      some ((k.goto c (.setCurrent (some t) :: .enter t :: .setCurrent none :: rest)).setTask t
        { k.task t with state := .RUNNING })
    else some (k.goto c rest)
  | .setCurrent t => some { k.goto c rest with current := Function.update k.current c t }
  | .enter t =>
    some { k with
      home := Function.update k.home c rest
      code := Function.update k.code c (k.context t) }
  | .goToSleep t chan =>
    some ((k.goto c rest).setTask t { k.task t with chan := some chan, state := .SLEEPING })
  | .tidy t => some ((k.goto c rest).setTask t { k.task t with chan := none })
  | .wakeIf t chan =>
    if (k.task t).state = .SLEEPING ∧ (k.task t).chan = some chan then
      some ((k.goto c rest).setTask t { k.task t with state := .RUNNABLE, waits := none })
    else some (k.goto c rest)
  | .down t s =>
    let k := (k.startScan t s).setValue s (k.value s - 1)
    if k.value s < 0 then
      some { k.goto c (lmPSleep t s ++ rest) with
        waiters := Function.update k.waiters s (t :: k.waiters s) }
    else some (k.goto c (.unlock (.sem s) :: rest))
  | .up s p =>
    let k := (k.announce p).setValue s (k.value s + 1)
    if 2 ^ 31 ≤ k.value s then none
    else if k.value s ≤ 0 then
      match (k.waiters s).getLast? with
      | some t =>
        some { k.goto c (lmVWake t s p ++ rest) with
          waiters := Function.update k.waiters s (k.waiters s).dropLast }
      | none => none
    else some (k.goto c (.unlock (.sem s) :: rest))
  | .wake t _ => some ((k.goto c rest).setTask t { k.task t with state := .RUNNABLE })
  | .zombie t status =>
    some ((k.goto c rest).setTask t
      { k.task t with state := .ZOMBIE, xstatus := status, announced := false })
  | .signalParent t =>
    match (k.task t).parent with
    | some q => some (k.goto c (lmV (.sons q) (some t) ++ rest))
    | none => some (k.goto c rest)
  | .adopt t p =>
    if (k.task p).parent = some t then
      some ((k.goto c (lmV (.sons 0) (some p) ++ rest)).setTask p
        { k.task p with parent := some 0, announced := false })
    else some (k.goto c rest)
  | .waitScan t status p =>
    if p < NTASK then some (k.goto c (.lock (.task p) :: .waitCheck t status p :: rest))
    else some ((k.goto c (sysWait t status ++ rest)).setTask t { k.task t with token := none })
  | .waitCheck t status p =>
    if (k.task p).state = .ZOMBIE then
      some (k.goto c (.lock .wait :: .reap t status p :: rest))
    else
      some ((k.goto c (.unlock (.task p) :: .waitScan t status (p + 1) :: rest)).setTask t
        { k.task t with token := some (p + 1) })
  | .reap t status p =>
    if (k.task p).parent = some t then
      some ((k.goto c (.unlock .wait :: .unlock (.task p) :: rest)).freeTask t status p)
    else
      some ((k.goto c (.unlock .wait :: .unlock (.task p) ::
          .waitScan t status (p + 1) :: rest)).setTask t
        { k.task t with token := some (p + 1) })
  | .forkScan t nt =>
    if nt < NTASK then some (k.goto c (.lock (.task nt) :: .forkCheck t nt :: rest)) else none
  | .forkCheck t nt =>
    if (k.task nt).state = .DEAD then
      some ((k.goto c (.forkFill t nt :: .unlock (.task nt) :: rest)).utaskCreate nt)
    else some (k.goto c (.unlock (.task nt) :: .forkScan t (nt + 1) :: rest))
  | .forkFill t nt =>
    some ((k.goto c rest).setTask nt { k.task nt with state := .RUNNABLE, parent := some t })
  | .killScan pid t =>
    if t < NTASK then some (k.goto c (.lock (.task t) :: .killCheck pid t :: rest))
    else some (k.goto c rest)
  -- `force_exit` switches away when the task is that of the CPU
  | .killCheck pid t =>
    if (k.task t).id = pid then
      let code := if k.current c = some t then .swtch t :: .unlock (.task t) :: rest
        else .unlock (.task t) :: rest
      some ((k.goto c code).setTask t { k.task t with killed := true })
    else some (k.goto c (.unlock (.task t) :: .killScan pid (t + 1) :: rest))
  | .timer =>
    match k.current c with
    | some t => if (k.task t).state = .RUNNING then some (k.goto c (yield t ++ rest))
      else some (k.goto c rest)
    | none => some (k.goto c rest)
  | .await t q =>
    if k.cond q then some (k.goto c rest)
    else
      some ((k.goto c (sleep t q.chan q.lk ++ .await t q :: rest)).setTask t
        { k.task t with waits := some q })
  | .raise myt q =>
    some { k.goto c (wakeup myt q.chan ++ rest) with cond := Function.update k.cond q true }
  | .lower q => some { k.goto c rest with cond := Function.update k.cond q false }

end Kernel

/-- What the kernel code of a task calls. -/
inductive Op where
  | fork
  | exit (status : BitVec 32)
  | wait (status : ℕ)
  | kill (pid : BitVec 32)
  | P (n : ℕ)
  | V (n : ℕ)
  | underLock (l : ℕ) (ops : List CondOp)
  deriving DecidableEq, Repr

def Op.code (t : ℕ) : Op → List Instr
  | .fork => sysFork t
  | .exit status => Sched.exit t status
  | .wait status => sysWait t status
  | .kill pid => sysKill pid
  | .P n => lmP t (.other n)
  | .V n => lmV (.other n) none
  | .underLock l ops => criticalSection (some t) l ops

/-- The channel `&ticks`. -/
def ticks : ℕ := 0

/-- `handle_software`, and the handlers of the devices. -/
inductive Irq where
  | software
  | device (l : ℕ) (ops : List CondOp)
  deriving DecidableEq, Repr

def Irq.code (c : ℕ) (myt : Option ℕ) : Irq → List Instr
  | .software => (if c = 0 then wakeup myt ticks else []) ++ [.timer]
  | .device l ops => criticalSection myt l ops

/-- The handler of a device does not sleep. -/
def Irq.Awake : Irq → Prop
  | .software => True
  | .device _ ops => ∀ op ∈ ops, op.sleeps = false

instance : DecidablePred Irq.Awake
  | .software => .isTrue trivial
  | .device _ ops => inferInstanceAs (Decidable (∀ op ∈ ops, op.sleeps = false))

inductive Act where
  | exec (c : ℕ)
  | call (c : ℕ) (op : Op)
  | interrupt (c : ℕ) (irq : Irq)
  deriving DecidableEq, Repr

/-- A step of the kernel. A task that has nothing left to do is in user space, from where it
calls the kernel; an interrupt comes at any point outside the critical sections. -/
def Kernel.step (k : Kernel) : Act → Option Kernel
  | .exec c =>
    match k.code c with
    | [] => none
    | i :: rest => k.perform c rest i
  | .call c op =>
    match k.current c with
    | some t => if k.code c = [] then some (k.goto c (op.code t)) else none
    | none => none
  | .interrupt c irq =>
    if k.noff c = 0 ∧ irq.Awake then some (k.goto c (irq.code c (k.current c) ++ k.code c))
    else none

/-- `task_init`, and the task that `user_init` makes in slot 0. -/
def taskInit (t : ℕ) : Task where
  id := if t = 0 then 1 else -1
  state := if t = 0 then .RUNNABLE else .DEAD
  killed := false
  chan := none
  parent := none
  xstatus := 0
  token := none
  waits := none
  announced := false
  birth := 0

def semInit (value : ℕ → ℕ) : Sem → ℤ
  | .sons _ => 0
  | .other n => value n

/-- The CPUs come up in their schedulers. -/
def kernelInit (value : ℕ → ℕ) (cond : Cond → Bool) : Kernel where
  task := taskInit
  context t := if t = 0 then [.unlock (.task 0)] else []
  code _ := [.scan 0]
  current _ := none
  home _ := []
  noff _ := 0
  owner _ := none
  value := semInit value
  waiters _ := []
  cond := cond
  nextpid := 2
  births := 1
  reports := []

end Zrhos.Sched
