import Zrhos.Lib.Steps
import Zrhos.Platform
import Zrhos.Sync.Semaphore
import Zrhos.Sysfile.Model

/-! The life of one slot of the task table of `proc.c`: who initialises which field of a
`task_t`, and what an earlier occupant leaves behind. -/
namespace Zrhos.Proc
open Steps Sync Sysfile

structure Context where
  ra : ℕ
  sp : ℕ
  saved : Fin 12 → ℕ

/-- The words of a `trapframe_t`. -/
abbrev Registers := Fin 36 → BitVec 64

def kernelSatp : Fin 36 := 0

def a0 : Fin 36 := 14

/-- A `task_t` but for its lock, with the trapframe that it points to. Pointers are
addresses; 0 is `NULL`. -/
structure Task where
  id : ℤ
  state : TaskState
  killed : ℤ
  kstack : ℕ
  context : Context
  entry : ℕ
  arg : ℕ
  pagetable : ℕ
  trapframe : ℕ
  registers : Registers
  chan : ℕ
  parent : ℕ
  sonsSem : Semophore
  xstatus : ℤ
  mmapObj : ℕ
  ofile : Fin NOFILE → ℕ
  cwd : ℕ

/-- The slot after `task_init`, in memory that starts out as zeros. -/
def taskInit (kstack : ℕ) : Task where
  id := -1
  state := .DEAD
  killed := 0
  kstack := kstack
  context := ⟨0, 0, fun _ => 0⟩
  entry := 0
  arg := 0
  pagetable := 0
  trapframe := 0
  registers := fun _ => 0
  chan := 0
  parent := 0
  sonsSem := ⟨0, 0, 0⟩
  xstatus := 0
  mmapObj := 0
  ofile := fun _ => 0
  cwd := 0

/-- The addresses of the two functions where a new task starts. -/
def retEntry : ℕ := 1

def realEntry : ℕ := 2

def initContext (t : Task) (entry : ℕ) : Task :=
  { t with context := ⟨entry, t.kstack + PGSIZE, fun _ => 0⟩ }

/-- What the allocators give a new task: its pid, the addresses of its page table, trapframe
and region tree, and the old contents of the trapframe page. -/
structure Fresh where
  pid : ℕ
  pagetable : ℕ
  trapframe : ℕ
  page : Registers
  mmapObj : ℕ

/-- `utask_create` on the slot that it finds `DEAD`. The `memset` of the trapframe clears
`sizeof(PGSIZE)` bytes of it. -/
def utaskCreate (t : Task) (fresh : Fresh) : Task :=
  let t := { t with id := fresh.pid, state := .USED }
  let t := initContext t retEntry
  { t with
    trapframe := fresh.trapframe
    registers := Function.update fresh.page 0 (fresh.page 0 &&& 0xffffffff00000000)
    pagetable := fresh.pagetable
    sonsSem := { t.sonsSem with value := 0, head := 0 }
    mmapObj := fresh.mmapObj }

/-- `sys_fork` of the task `t` at address `addr`, into the slot `slot`. -/
def sysFork (slot : Task) (fresh : Fresh) (addr : ℕ) (t : Task) : Task :=
  let nt := utaskCreate slot fresh
  { nt with
    registers := Function.update t.registers a0 0
    state := .RUNNABLE
    parent := addr
    cwd := if t.cwd ≠ 0 then t.cwd else nt.cwd
    ofile := fun i => if t.ofile i ≠ 0 then t.ofile i else nt.ofile i }

/-- `task_create` on a slot without an id. -/
def taskCreate (t : Task) (index entry arg : ℕ) : Task :=
  initContext { t with id := index, entry := entry, arg := arg, state := .RUNNABLE } realEntry

def freeTask (t : Task) : Task :=
  { t with
    pagetable := 0
    trapframe := 0
    id := -1
    state := .DEAD
    parent := 0
    mmapObj := 0
    ofile := fun _ => 0
    cwd := 0 }

/-! ### Histories -/

/-- Where the occupant of a slot stands: in its own code, inside `sleep`, or switched away
for good by `force_exit`. -/
inductive Occupant where
  | awake
  | inSleep
  | left
  deriving DecidableEq, Repr

structure Slot where
  task : Task
  occupant : Occupant

/-- What befalls a slot. The system calls of the occupant change what they own in any way;
other tasks kill it, wake it, signal its semaphore or give it another parent. -/
inductive Event where
  | fork (fresh : Fresh) (addr : ℕ) (parent : Task)
  | taskCreate (index entry arg : ℕ)
  | dispatch
  | yield
  | sleep (chan : ℕ)
  | waitSem
  | wakeup
  | tidy
  | sem (s : Semophore)
  | reparent (addr : ℕ)
  | trap (registers : Registers)
  | exec (pagetable mmapObj : ℕ)
  | files (ofile : Fin NOFILE → ℕ) (cwd : ℕ)
  | kill
  | killSelf
  | exit (status : ℤ)
  | free

def Slot.Active (s : Slot) : Prop := s.task.state = .RUNNING ∧ s.occupant = .awake

instance (s : Slot) : Decidable s.Active := inferInstanceAs (Decidable (_ ∧ _))

/-- The slot after an event, when the event is possible. -/
def Slot.step (s : Slot) : Event → Option Slot
  | .fork fresh addr parent =>
    if s.task.state = .DEAD then some ⟨sysFork s.task fresh addr parent, .awake⟩ else none
  | .taskCreate index entry arg =>
    if s.task.id = -1 then some ⟨Proc.taskCreate s.task index entry arg, .awake⟩ else none
  | .dispatch =>
    if s.task.state = .RUNNABLE then some { s with task := { s.task with state := .RUNNING } }
    else none
  | .yield =>
    if s.Active then some { s with task := { s.task with state := .RUNNABLE } } else none
  | .sleep chan =>
    if s.Active then some ⟨{ s.task with chan := chan, state := .SLEEPING }, .inSleep⟩ else none
  | .waitSem =>
    if s.Active then some { s with task := { s.task with state := .SLEEPING } } else none
  | .wakeup =>
    if s.task.state = .SLEEPING then some { s with task := { s.task with state := .RUNNABLE } }
    else none
  | .tidy =>
    if s.task.state = .RUNNING ∧ s.occupant = .inSleep then
      some ⟨{ s.task with chan := 0 }, .awake⟩
    else none
  | .sem sem => some { s with task := { s.task with sonsSem := sem } }
  | .reparent addr =>
    if s.task.parent ≠ 0 then some { s with task := { s.task with parent := addr } } else none
  | .trap registers =>
    if s.Active then some { s with task := { s.task with registers := registers } } else none
  | .exec pagetable mmapObj =>
    if s.Active then
      some { s with task := { s.task with pagetable := pagetable, mmapObj := mmapObj } }
    else none
  | .files ofile cwd =>
    if s.Active then some { s with task := { s.task with ofile := ofile, cwd := cwd } } else none
  | .kill => some { s with task := { s.task with killed := 1 } }
  | .killSelf => if s.Active then some ⟨{ s.task with killed := 1 }, .left⟩ else none
  | .exit status =>
    if s.Active then some { s with task := { s.task with state := .ZOMBIE, xstatus := status } }
    else none
  | .free =>
    if s.task.state = .ZOMBIE then some ⟨freeTask s.task, .awake⟩ else none

def slotInit (kstack : ℕ) : Slot := ⟨taskInit kstack, .awake⟩

/-- What a user task and those that deal with it can see of the slot: only `real_entry`
reads `entry` and `arg`, and `lm_V` reads `tail` only after an `lm_P` has set it. -/
def Task.seen (t : Task) : Task :=
  { t with entry := 0, arg := 0, sonsSem := { t.sonsSem with tail := 0 } }

/-- Some `sys_kill` has hit the slot. -/
def Event.kills : Event → Bool
  | .kill => true
  | .killSelf => true
  | _ => false

/-- The status of the last exit, or the 0 of unused memory. -/
def lastStatus : ℤ → List Event → ℤ
  | status, [] => status
  | _, .exit status :: events => lastStatus status events
  | status, _ :: events => lastStatus status events

/-! ### What is left in a slot -/

/-- `kstack` is the slot's own; a channel is pending only inside `sleep`; a dead slot has no
files. -/
structure Kept (kstack : ℕ) (s : Slot) : Prop where
  kstack : s.task.kstack = kstack
  chan : s.occupant ≠ .inSleep → s.task.chan = 0
  inactive : s.task.state = .DEAD ∨ s.task.state = .ZOMBIE → s.occupant ≠ .inSleep
  dead : s.task.id = -1 → s.task.state = .DEAD
  ofile : s.task.state = .DEAD → s.task.ofile = fun _ => 0
  cwd : s.task.state = .DEAD → s.task.cwd = 0

variable {kstack : ℕ} {s s' : Slot} {e : Event} {events : List Event}

theorem Kept.init (kstack : ℕ) : Kept kstack (slotInit kstack) where
  kstack := rfl
  chan _ := rfl
  inactive _ := Occupant.noConfusion
  dead _ := rfl
  ofile _ := rfl
  cwd _ := rfl

theorem Slot.Active.awake (h : s.Active) : s.occupant ≠ .inSleep := by
  rw [h.2]
  exact Occupant.noConfusion

theorem Kept.id_ne (h : Kept kstack s) (hstate : s.task.state ≠ .DEAD) : s.task.id ≠ -1 :=
  fun hid => hstate (h.dead hid)

/-- A step that leaves the slot with a live occupant. -/
theorem Kept.alive {t : Task} {o : Occupant} (hkstack : t.kstack = kstack)
    (hchan : o ≠ .inSleep → t.chan = 0) (hstate : t.state ≠ .DEAD)
    (hzombie : t.state = .ZOMBIE → o ≠ .inSleep) (hid : t.id ≠ -1) : Kept kstack ⟨t, o⟩ where
  kstack := hkstack
  chan := hchan
  inactive hs := hzombie (hs.resolve_left hstate)
  dead he := absurd he hid
  ofile he := absurd he hstate
  cwd he := absurd he hstate

/-- The state moves on between those of a live task. -/
theorem Kept.setState (h : Kept kstack s) (hlive : s.task.state ≠ .DEAD) {state : TaskState}
    (hstate : state ≠ .DEAD) (hzombie : state = .ZOMBIE → s.occupant ≠ .inSleep) :
    Kept kstack { s with task := { s.task with state := state } } :=
  .alive h.kstack h.chan hstate hzombie (h.id_ne hlive)

theorem Slot.Active.live (h : s.Active) : s.task.state ≠ .DEAD := by
  rw [h.1]
  exact TaskState.noConfusion

theorem Slot.Active.not_zombie (h : s.Active) {P : Prop} (hz : s.task.state = .ZOMBIE) : P := by
  rw [h.1] at hz
  cases hz

theorem Kept.step (h : Kept kstack s) (hs : s.step e = some s') : Kept kstack s' := by
  cases e with
  | sem sem =>
    cases hs
    exact ⟨h.kstack, h.chan, h.inactive, h.dead, h.ofile, h.cwd⟩
  | kill =>
    cases hs
    exact ⟨h.kstack, h.chan, h.inactive, h.dead, h.ofile, h.cwd⟩
  | fork fresh addr parent =>
    simp only [Slot.step] at hs
    split_ifs at hs with hdead
    cases hs
    have hchan : s.task.chan = 0 := h.chan (h.inactive (.inl hdead))
    have hid : (fresh.pid : ℤ) ≠ -1 := by omega
    exact .alive h.kstack (fun _ => hchan) TaskState.noConfusion TaskState.noConfusion hid
  | taskCreate index entry arg =>
    simp only [Slot.step] at hs
    split_ifs at hs with hnone
    cases hs
    have hchan : s.task.chan = 0 := h.chan (h.inactive (.inl (h.dead hnone)))
    have hid : (index : ℤ) ≠ -1 := by omega
    exact .alive h.kstack (fun _ => hchan) TaskState.noConfusion TaskState.noConfusion hid
  | dispatch =>
    simp only [Slot.step] at hs
    split_ifs at hs with hstate
    cases hs
    exact h.setState (by rw [hstate]; exact TaskState.noConfusion) TaskState.noConfusion
      TaskState.noConfusion
  | yield =>
    simp only [Slot.step] at hs
    split_ifs at hs with hactive
    cases hs
    exact h.setState hactive.live TaskState.noConfusion TaskState.noConfusion
  | sleep chan =>
    simp only [Slot.step] at hs
    split_ifs at hs with hactive
    cases hs
    exact .alive h.kstack (fun hne => absurd rfl hne) TaskState.noConfusion TaskState.noConfusion
      (h.id_ne hactive.live)
  | waitSem =>
    simp only [Slot.step] at hs
    split_ifs at hs with hactive
    cases hs
    exact h.setState hactive.live TaskState.noConfusion TaskState.noConfusion
  | wakeup =>
    simp only [Slot.step] at hs
    split_ifs at hs with hstate
    cases hs
    exact h.setState (by rw [hstate]; exact TaskState.noConfusion) TaskState.noConfusion
      TaskState.noConfusion
  | tidy =>
    simp only [Slot.step] at hs
    split_ifs at hs with hstate
    cases hs
    have hlive : s.task.state ≠ .DEAD := by
      rw [hstate.1]
      exact TaskState.noConfusion
    exact .alive h.kstack (fun _ => rfl) hlive (fun _ => Occupant.noConfusion) (h.id_ne hlive)
  | reparent addr =>
    simp only [Slot.step] at hs
    split_ifs at hs
    cases hs
    exact ⟨h.kstack, h.chan, h.inactive, h.dead, h.ofile, h.cwd⟩
  | trap registers =>
    simp only [Slot.step] at hs
    split_ifs at hs
    cases hs
    exact ⟨h.kstack, h.chan, h.inactive, h.dead, h.ofile, h.cwd⟩
  | exec pagetable mmapObj =>
    simp only [Slot.step] at hs
    split_ifs at hs
    cases hs
    exact ⟨h.kstack, h.chan, h.inactive, h.dead, h.ofile, h.cwd⟩
  | files ofile cwd =>
    simp only [Slot.step] at hs
    split_ifs at hs with hactive
    cases hs
    exact .alive h.kstack h.chan hactive.live hactive.not_zombie (h.id_ne hactive.live)
  | killSelf =>
    simp only [Slot.step] at hs
    split_ifs at hs with hactive
    cases hs
    exact .alive h.kstack (fun _ => h.chan hactive.awake) hactive.live hactive.not_zombie
      (h.id_ne hactive.live)
  | exit status =>
    simp only [Slot.step] at hs
    split_ifs at hs with hactive
    cases hs
    exact .alive h.kstack h.chan TaskState.noConfusion (fun _ => hactive.awake)
      (h.id_ne hactive.live)
  | free =>
    simp only [Slot.step] at hs
    split_ifs at hs with hstate
    cases hs
    exact ⟨h.kstack, fun _ => h.chan (h.inactive (.inr hstate)), fun _ => Occupant.noConfusion,
      fun _ => rfl, fun _ => rfl, fun _ => rfl⟩

theorem Kept.after (h : Kept kstack s) (ha : after Slot.step anyStep s events = some s') :
    Kept kstack s' :=
  (reached_after ha).invariant h fun _ _ _ hk _ hs => hk.step hs

/-- The two fields that nobody clears. -/
theorem step_stale (hs : s.step e = some s') :
    s'.task.killed = (if e.kills then 1 else s.task.killed) ∧
      s'.task.xstatus = lastStatus s.task.xstatus [e] := by
  cases e with
  | sem sem =>
    cases hs
    exact ⟨rfl, rfl⟩
  | kill =>
    cases hs
    exact ⟨rfl, rfl⟩
  | _ =>
    simp only [Slot.step] at hs
    split_ifs at hs
    cases hs
    exact ⟨rfl, rfl⟩

theorem lastStatus_cons (status : ℤ) :
    lastStatus status (e :: events) = lastStatus (lastStatus status [e]) events := by
  cases e <;> rfl

theorem after_stale (ha : after Slot.step anyStep s events = some s') :
    s'.task.killed = (if events.any Event.kills then 1 else s.task.killed) ∧
      s'.task.xstatus = lastStatus s.task.xstatus events := by
  induction events generalizing s with
  | nil =>
    cases ha
    exact ⟨rfl, rfl⟩
  | cons e events ih =>
    unfold after at ha
    rw [if_pos (show anyStep s e from trivial)] at ha
    obtain ⟨m, hm, hrest⟩ := Option.bind_eq_some_iff.mp ha
    obtain ⟨hkilled, hstatus⟩ := step_stale hm
    obtain ⟨hkilled', hstatus'⟩ := ih hrest
    rw [lastStatus_cons, List.any_cons, hkilled', hkilled, hstatus', hstatus]
    refine ⟨?_, rfl⟩
    cases e.kills <;> cases events.any Event.kills <;> rfl

/-- A fork into a dead slot differs from a fork into an unused one in the stale fields. -/
theorem sysFork_seen (fresh : Fresh) (addr : ℕ) (parent : Task) (h : Kept kstack s) (hdead : s.task.state = .DEAD) :
    (sysFork s.task fresh addr parent).seen =
      { (sysFork (taskInit kstack) fresh addr parent).seen with
        killed := s.task.killed
        xstatus := s.task.xstatus } := by
  have hchan : s.task.chan = 0 := h.chan (h.inactive (.inl hdead))
  simp only [sysFork, utaskCreate, initContext, Task.seen, taskInit, h.kstack, hchan,
    h.ofile hdead, h.cwd hdead]

/-- A task that is forked into a reused slot is as if the slot had never been used exactly
where no kill has hit the slot and its last occupant exited with status 0; in every history
all but these two fields are. -/
theorem slot_reuse (kstack : ℕ) (events : List Event) (s : Slot)
    (ha : after Slot.step anyStep (slotInit kstack) events = some s)
    (hdead : s.task.state = .DEAD) (fresh : Fresh) (addr : ℕ) (parent : Task) :
    ((sysFork s.task fresh addr parent).seen =
        (sysFork (taskInit kstack) fresh addr parent).seen ↔
      events.any Event.kills = false ∧ lastStatus 0 events = 0) ∧
    { (sysFork s.task fresh addr parent).seen with killed := 0, xstatus := 0 } =
      (sysFork (taskInit kstack) fresh addr parent).seen := by
  have hseen := sysFork_seen fresh addr parent ((Kept.init kstack).after ha) hdead
  obtain ⟨hkilled, hstatus⟩ := after_stale ha
  rw [hseen]
  refine ⟨?_, rfl⟩
  constructor
  · intro hsame
    have hkilled₀ := congrArg Task.killed hsame
    have hstatus₀ := congrArg Task.xstatus hsame
    change s.task.killed = 0 at hkilled₀
    change s.task.xstatus = 0 at hstatus₀
    rw [hkilled] at hkilled₀
    rw [hstatus] at hstatus₀
    refine ⟨?_, hstatus₀⟩
    by_contra hany
    rw [if_pos (Bool.not_eq_false _ ▸ hany)] at hkilled₀
    cases hkilled₀
  · rintro ⟨hnone, hzero⟩
    rw [hnone] at hkilled
    change s.task.killed = 0 at hkilled
    change s.task.xstatus = lastStatus 0 events at hstatus
    rw [hkilled, hstatus, hzero]
    rfl

/-- What the allocators may give the first task. -/
def firstFresh : Fresh := ⟨1, 4096, 8192, fun _ => 0, 12288⟩

/-- An occupant that runs once and exits with status 0. -/
def plainLife : List Event :=
  [.fork firstFresh 64 (taskInit 0), .dispatch, .exit 0, .free]

theorem slot_reuse_plain : ∃ s, after Slot.step anyStep (slotInit 0) plainLife = some s ∧
    (sysFork s.task firstFresh 64 (taskInit 0)).seen =
      (sysFork (taskInit 0) firstFresh 64 (taskInit 0)).seen := by
  have hrun : (after Slot.step anyStep (slotInit 0) plainLife).map (fun s => s.task.state) =
      some .DEAD := by decide
  obtain ⟨s, hs, hdead⟩ := Option.map_eq_some_iff.mp hrun
  have hreuse := slot_reuse 0 plainLife s hs hdead firstFresh 64 (taskInit 0)
  exact ⟨s, hs, hreuse.1.mpr ⟨by decide, by decide⟩⟩

/-- An occupant that is killed leaves its mark on the next one. -/
def killedLife : List Event :=
  [.fork firstFresh 64 (taskInit 0), .kill, .dispatch, .exit 0, .free]

theorem killed_slot_kills : ¬∀ s, after Slot.step anyStep (slotInit 0) killedLife = some s →
    (sysFork s.task firstFresh 64 (taskInit 0)).killed = 0 := by
  intro hall
  have hrun : (after Slot.step anyStep (slotInit 0) killedLife).map
      (fun s => (sysFork s.task firstFresh 64 (taskInit 0)).killed) = some 1 := by decide
  obtain ⟨s, hs, hkilled⟩ := Option.map_eq_some_iff.mp hrun
  rw [hall s hs] at hkilled
  cases hkilled

end Zrhos.Proc
