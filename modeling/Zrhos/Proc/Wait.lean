import Zrhos.Lib.Steps
import Zrhos.Mmap.Copyout
import Zrhos.Sync.Semaphore
import Zrhos.Sysfile.Model

/-! What `sys_wait` tells a parent about a child that has exited. A step is what one task
does under the locks of `proc.c`; user memory is as the tasks have left it by then. -/
namespace Zrhos.Proc
open Steps
open Sync (TaskState)
open Mmap (Phys copyout storeBytes Touches Writable)
open Sysfile (littleEndian)

/-- The fields of a `task_t` that `sys_fork`, `exit` and `sys_wait` pass on. `birth` tells
the tasks apart that use a slot one after the other. -/
structure Member where
  id : ℤ
  state : TaskState
  parent : Option ℕ
  xstatus : ℤ
  birth : ℕ

/-- A call `exit(status)`. -/
structure Exit where
  child : ℕ
  pid : ℤ
  status : ℤ

/-- A return of `sys_wait(status)`: who waited, the task that was reaped and its parent, the
result in `a0`, and the memory of the waiter around the copy to `status`. -/
structure Report where
  waiter : ℕ
  child : ℕ
  parent : Option ℕ
  a0 : ℤ
  status : ℕ
  image : Mmap.Task
  before : Phys
  after : Phys

structure Family where
  task : ℕ → Member
  nextpid : ℕ
  births : ℕ
  exits : List Exit
  reports : List Report

def Member.Live (m : Member) : Prop :=
  m.state = .RUNNING ∨ m.state = .RUNNABLE ∨ m.state = .SLEEPING

instance (m : Member) : Decidable m.Live := inferInstanceAs (Decidable (_ ∨ _))

/-- What the tasks do. A task that was killed exits with status 0; `turn` moves a live task
between the states of the scheduler. -/
inductive Act where
  | userInit (j : ℕ)
  | taskCreate (j : ℕ)
  | fork (i j : ℕ)
  | turn (i : ℕ) (state : TaskState)
  | exit (i : ℕ) (status : ℤ)
  | wait (i p status : ℕ) (memory : Phys) (image : Mmap.Task)

/-- The four bytes of an `int`. -/
def intBytes (x : ℤ) : List ℕ := littleEndian 4 (x % 2 ^ 32).toNat

/-- A new task in slot `j`. -/
def Family.born (s : Family) (j : ℕ) (m : Member) : Family :=
  { s with
    task := Function.update s.task j { m with birth := s.births }
    births := s.births + 1 }

/-- Process identifiers are of type `int`, which wraps around. -/
@[irreducible] def pidOf (n : ℕ) : ℤ := (n : ℤ).bmod (2 ^ 32)

def Family.allocPid (s : Family) : ℤ × Family :=
  (pidOf s.nextpid, { s with nextpid := s.nextpid + 1 })

def reparent (t : ℕ) (task : ℕ → Member) : ℕ → Member := fun p =>
  if p ≠ t ∧ (task p).parent = some t then { task p with parent := some 0 } else task p

/-- `exit` of task `i`. -/
def Family.exit (s : Family) (i : ℕ) (status : ℤ) : Family :=
  let t := s.task i
  { s with
    task := reparent i (Function.update s.task i { t with state := .ZOMBIE, xstatus := status })
    exits := ⟨t.birth, t.id, status⟩ :: s.exits }

/-- The copy goes out of the waiter's own `xstatus`. -/
def copyStatus (memory : Phys) (image : Mmap.Task) (status : ℕ) (xstatus : ℤ) : Phys :=
  if status ≠ 0 then (copyout memory image.pagetable status (intBytes xstatus)).2 else memory

/-- `sys_wait` of task `i` when its search has come to its zombie `p`. -/
def Family.reap (s : Family) (i p status : ℕ) (memory : Phys) (image : Mmap.Task) : Family :=
  let t := s.task i
  let son := s.task p
  { s with
    task := Function.update s.task p { son with id := -1, state := .DEAD, parent := none }
    reports := ⟨i, son.birth, son.parent, son.id, status, image, memory,
      copyStatus memory image status t.xstatus⟩ :: s.reports }

/-- The next state, when the step is possible. -/
def Family.step (s : Family) : Act → Option Family
  | .userInit j =>
    if j < NTASK ∧ (s.task j).state = .DEAD then
      let (pid, s) := s.allocPid
      some (s.born j { s.task j with id := pid, state := .RUNNABLE })
    else none
  | .taskCreate j =>
    if j < NTASK ∧ (s.task j).id = -1 then
      some (s.born j { s.task j with id := j, state := .RUNNABLE })
    else none
  | .fork i j =>
    if (s.task i).Live ∧ j < NTASK ∧ (s.task j).state = .DEAD then
      let (pid, s) := s.allocPid
      some (s.born j { s.task j with id := pid, state := .RUNNABLE, parent := some i })
    else none
  | .turn i state =>
    if (s.task i).Live ∧ ({ s.task i with state := state } : Member).Live then
      some { s with task := Function.update s.task i { s.task i with state := state } }
    else none
  | .exit i status => if (s.task i).Live then some (s.exit i status) else none
  | .wait i p status memory image =>
    if (s.task i).Live ∧ p < NTASK ∧ status < WORD ∧ (s.task p).state = .ZOMBIE ∧
        (s.task p).parent = some i then
      some (s.reap i p status memory image)
    else none

/-- The family after `task_init`. -/
def familyInit : Family where
  task _ := ⟨-1, .DEAD, none, 0, 0⟩
  nextpid := 1
  births := 0
  exits := []
  reports := []

/-- A user task could store an `int` at the address. -/
def Storable (memory : Phys) (image : Mmap.Task) (status : ℕ) : Prop :=
  status ≠ 0 ∧ ∃ bs r, bs.length = 4 ∧ storeBytes memory image status bs = .ok r

/-- The report is about a child of the waiter that has exited. -/
def Report.Names (r : Report) (e : Exit) : Prop :=
  r.parent = some r.waiter ∧ e.child = r.child ∧ e.pid = r.a0

/-- The memory is as if the waiter had stored the status of the exit. -/
def Report.Stores (r : Report) (e : Exit) : Prop := Storable r.before r.image r.status →
  storeBytes r.before r.image r.status (intBytes e.status) = .ok (r.after, r.image)

/-- No exit is reported twice, and each report is about one. -/
structure Family.Named (s : Family) : Prop where
  once : (s.reports.map Report.child).Nodup
  exitOnce : (s.exits.map Exit.child).Nodup
  names : ∀ r ∈ s.reports, ∃ e ∈ s.exits, r.Names e

/-- The reports hand over the statuses too. -/
structure Family.Told (s : Family) : Prop extends s.Named where
  stores : ∀ r ∈ s.reports, ∀ e ∈ s.exits, r.Names e → r.Stores e

/-- A waiter that asks for a status has present pages to take it, and its own `xstatus` is
that of the child. -/
def SameStatus (s : Family) : Act → Prop
  | .wait i p status memory image => Storable memory image status →
      (∀ a, Touches status 4 a → Writable image a) ∧ (s.task i).xstatus = (s.task p).xstatus
  | _ => True

/-! ### Births and exits -/

/-- Births tell the tasks in the slots from each other and from those that have exited or
were reported. -/
structure Family.Kept (s : Family) : Prop where
  past : ∀ j, (s.task j).state ≠ .DEAD → (s.task j).birth < s.births
  apart : ∀ i j, (s.task i).state ≠ .DEAD → (s.task j).state ≠ .DEAD →
    (s.task i).birth = (s.task j).birth → i = j
  zombie : ∀ j, (s.task j).state = .ZOMBIE →
    ⟨(s.task j).birth, (s.task j).id, (s.task j).xstatus⟩ ∈ s.exits
  live : ∀ j, (s.task j).Live → ∀ e ∈ s.exits, e.child ≠ (s.task j).birth
  unreported : ∀ j, (s.task j).state ≠ .DEAD → ∀ r ∈ s.reports, r.child ≠ (s.task j).birth
  exited : ∀ e ∈ s.exits, e.child < s.births
  reported : ∀ r ∈ s.reports, r.child < s.births
  exitOnce : (s.exits.map Exit.child).Nodup
  once : (s.reports.map Report.child).Nodup

variable {s s' : Family} {m : Member} {i j p status : ℕ} {a : Act} {memory : Phys}
  {image : Mmap.Task} {e : Exit} {k : ℕ}

theorem Member.Live.state_ne (h : m.Live) : m.state ≠ .DEAD ∧ m.state ≠ .ZOMBIE := by
  rcases h with h | h | h <;> rw [h] <;> decide

theorem Family.Kept.init : familyInit.Kept where
  past _ h := absurd rfl h
  apart _ _ h := absurd rfl h
  zombie _ h := by cases h
  live _ _ _ he := by cases he
  unreported _ h := absurd rfl h
  exited _ he := by cases he
  reported _ hr := by cases hr
  exitOnce := List.nodup_nil
  once := List.nodup_nil

theorem Family.Kept.allocPid (h : s.Kept) : s.allocPid.2.Kept :=
  ⟨h.past, h.apart, h.zombie, h.live, h.unreported, h.exited, h.reported, h.exitOnce, h.once⟩

theorem Family.Kept.born (h : s.Kept) (hm : m.state = .RUNNABLE) : (s.born j m).Kept := by
  have hself : (s.born j m).task j = { m with birth := s.births } := Function.update_self ..
  have hother {k : ℕ} (hk : k ≠ j) : (s.born j m).task k = s.task k :=
    Function.update_of_ne hk ..
  constructor
  case past =>
    intro k hstate
    by_cases hk : k = j
    · subst hk
      rw [hself]
      exact Nat.lt_succ_self _
    · rw [hother hk] at hstate ⊢
      exact (h.past k hstate).trans (Nat.lt_succ_self _)
  case apart =>
    intro k l hsk hsl hbirth
    by_cases hk : k = j
    · by_cases hl : l = j
      · exact hk.trans hl.symm
      · rw [hk, hself, hother hl] at hbirth
        rw [hother hl] at hsl
        exact absurd hbirth (h.past l hsl).ne'
    · by_cases hl : l = j
      · rw [hl, hself, hother hk] at hbirth
        rw [hother hk] at hsk
        exact absurd hbirth (h.past k hsk).ne
      · rw [hother hk, hother hl] at hbirth
        rw [hother hk] at hsk
        rw [hother hl] at hsl
        exact h.apart k l hsk hsl hbirth
  case zombie =>
    intro k hstate
    by_cases hk : k = j
    · rw [hk, hself] at hstate
      rw [show m.state = .ZOMBIE from hstate] at hm
      cases hm
    · rw [hother hk] at hstate ⊢
      exact h.zombie k hstate
  case live =>
    intro k hlive e he
    by_cases hk : k = j
    · rw [hk, hself]
      exact (h.exited e he).ne
    · rw [hother hk] at hlive ⊢
      exact h.live k hlive e he
  case unreported =>
    intro k hstate r hr
    by_cases hk : k = j
    · rw [hk, hself]
      exact (h.reported r hr).ne
    · rw [hother hk] at hstate ⊢
      exact h.unreported k hstate r hr
  case exited => exact fun e he => (h.exited e he).trans (Nat.lt_succ_self _)
  case reported => exact fun r hr => (h.reported r hr).trans (Nat.lt_succ_self _)
  case exitOnce => exact h.exitOnce
  case once => exact h.once

/-- Steps that leave births and the two logs alone and only wake, stop or reparent. -/
theorem Family.Kept.congr (h : s.Kept) (hbirths : s'.births = s.births) (hexits : s'.exits = s.exits)
    (hreports : s'.reports = s.reports)
    (htask : ∀ k, (s'.task k).birth = (s.task k).birth ∧ (s'.task k).id = (s.task k).id ∧
      (s'.task k).xstatus = (s.task k).xstatus ∧
      ((s'.task k).state = (s.task k).state ∨ (s'.task k).Live ∧ (s.task k).Live)) : s'.Kept := by
  have hdead {k : ℕ} (hk : (s'.task k).state ≠ .DEAD) : (s.task k).state ≠ .DEAD := by
    rcases (htask k).2.2.2 with heq | ⟨-, hlive⟩
    · rwa [← heq]
    · exact hlive.state_ne.1
  constructor
  case past =>
    intro k hk
    rw [(htask k).1, hbirths]
    exact h.past k (hdead hk)
  case apart =>
    intro k l hk hl hbirth
    rw [(htask k).1, (htask l).1] at hbirth
    exact h.apart k l (hdead hk) (hdead hl) hbirth
  case zombie =>
    intro k hk
    obtain ⟨hbirth, hid, hx, hstate⟩ := htask k
    rcases hstate with heq | ⟨hlive, -⟩
    · rw [hbirth, hid, hx, hexits]
      exact h.zombie k (heq ▸ hk)
    · exact absurd hk hlive.state_ne.2
  case live =>
    intro k hk e he
    obtain ⟨hbirth, -, -, hstate⟩ := htask k
    rw [hbirth]
    rw [hexits] at he
    rcases hstate with heq | ⟨-, hlive⟩
    · have hk' : (s.task k).Live := by
        unfold Member.Live at hk ⊢
        rwa [← heq]
      exact h.live k hk' e he
    · exact h.live k hlive e he
  case unreported =>
    intro k hk r hr
    rw [(htask k).1]
    rw [hreports] at hr
    exact h.unreported k (hdead hk) r hr
  case exited =>
    rw [hexits, hbirths]
    exact h.exited
  case reported =>
    rw [hreports, hbirths]
    exact h.reported
  case exitOnce =>
    rw [hexits]
    exact h.exitOnce
  case once =>
    rw [hreports]
    exact h.once

theorem reparent_same {task : ℕ → Member} (k t : ℕ) : (reparent t task k).birth = (task k).birth ∧
    (reparent t task k).id = (task k).id ∧ (reparent t task k).xstatus = (task k).xstatus ∧
    (reparent t task k).state = (task k).state := by
  unfold reparent
  split_ifs <;> exact ⟨rfl, rfl, rfl, rfl⟩

/-- The member that exits, before its sons go to the first task. -/
def Family.zombify (s : Family) (i : ℕ) (status : ℤ) : Family :=
  { s with
    task := Function.update s.task i { s.task i with state := .ZOMBIE, xstatus := status }
    exits := ⟨(s.task i).birth, (s.task i).id, status⟩ :: s.exits }

theorem Family.Kept.zombify {status : ℤ} (h : s.Kept) (hlive : (s.task i).Live) :
    (s.zombify i status).Kept := by
  have hself : (s.zombify i status).task i =
      { s.task i with state := .ZOMBIE, xstatus := status } := Function.update_self ..
  have hother {k : ℕ} (hk : k ≠ i) : (s.zombify i status).task k = s.task k :=
    Function.update_of_ne hk ..
  have hbirth (k : ℕ) : ((s.zombify i status).task k).birth = (s.task k).birth := by
    by_cases hk : k = i
    · rw [hk, hself]
    · rw [hother hk]
  have hdead {k : ℕ} (hk : ((s.zombify i status).task k).state ≠ .DEAD) :
      (s.task k).state ≠ .DEAD := by
    by_cases hki : k = i
    · rw [hki]
      exact hlive.state_ne.1
    · rwa [← hother hki]
  constructor
  case past =>
    intro k hk
    rw [hbirth]
    exact h.past k (hdead hk)
  case apart =>
    intro k l hk hl heq
    rw [hbirth, hbirth] at heq
    exact h.apart k l (hdead hk) (hdead hl) heq
  case zombie =>
    intro k hk
    by_cases hki : k = i
    · rw [hki, hself]
      exact List.mem_cons_self
    · rw [hother hki] at hk ⊢
      exact List.mem_cons_of_mem _ (h.zombie k hk)
  case live =>
    intro k hk e he
    by_cases hki : k = i
    · rw [hki, hself] at hk
      exact absurd rfl hk.state_ne.2
    · rw [hother hki] at hk ⊢
      rcases List.mem_cons.mp he with rfl | he
      · intro heq
        exact hki (h.apart k i hk.state_ne.1 hlive.state_ne.1 heq.symm)
      · exact h.live k hk e he
  case unreported =>
    intro k hk r hr
    rw [hbirth]
    exact h.unreported k (hdead hk) r hr
  case exited =>
    intro e he
    rcases List.mem_cons.mp he with rfl | he
    · exact h.past i hlive.state_ne.1
    · exact h.exited e he
  case reported => exact h.reported
  case exitOnce =>
    refine List.nodup_cons.mpr ⟨fun hmem => ?_, h.exitOnce⟩
    obtain ⟨e, he, heq⟩ := List.mem_map.mp hmem
    exact h.live i hlive e he heq
  case once => exact h.once

theorem Family.Kept.exit {status : ℤ} (h : s.Kept) (hlive : (s.task i).Live) :
    (s.exit i status).Kept := by
  refine (h.zombify hlive).congr rfl rfl rfl fun k => ?_
  obtain ⟨hbirth, hid, hx, hstate⟩ := reparent_same k i
  exact ⟨hbirth, hid, hx, .inl hstate⟩

theorem Family.Kept.reap (h : s.Kept) (hzombie : (s.task p).state = .ZOMBIE) :
    (s.reap i p status memory image).Kept := by
  have hp : (s.task p).state ≠ .DEAD := by
    rw [hzombie]
    decide
  have hother {k : ℕ} (hk : k ≠ p) : (s.reap i p status memory image).task k = s.task k :=
    Function.update_of_ne hk ..
  have hself : (s.reap i p status memory image).task p =
      { s.task p with id := -1, state := .DEAD, parent := none } := Function.update_self ..
  have hne {k : ℕ} (hk : ((s.reap i p status memory image).task k).state ≠ .DEAD) : k ≠ p := by
    rintro rfl
    rw [hself] at hk
    exact hk rfl
  have hstate {k : ℕ} (hk : ((s.reap i p status memory image).task k).state ≠ .DEAD) :
      (s.task k).state ≠ .DEAD := by rwa [← hother (hne hk)]
  constructor
  case past =>
    intro k hk
    rw [hother (hne hk)]
    exact h.past k (hstate hk)
  case apart =>
    intro k l hk hl heq
    rw [hother (hne hk), hother (hne hl)] at heq
    exact h.apart k l (hstate hk) (hstate hl) heq
  case zombie =>
    intro k hk
    have hk' : ((s.reap i p status memory image).task k).state ≠ .DEAD := by
      rw [hk]
      decide
    rw [hother (hne hk')] at hk ⊢
    exact h.zombie k hk
  case live =>
    intro k hk e he
    have hkp : k ≠ p := hne hk.state_ne.1
    rw [hother hkp] at hk ⊢
    exact h.live k hk e he
  case unreported =>
    intro k hk r hr
    rw [hother (hne hk)]
    rcases List.mem_cons.mp hr with rfl | hr
    · intro heq
      exact hne hk (h.apart k p (hstate hk) hp heq.symm)
    · exact h.unreported k (hstate hk) r hr
  case exited => exact h.exited
  case reported =>
    intro r hr
    rcases List.mem_cons.mp hr with rfl | hr
    · exact h.past p hp
    · exact h.reported r hr
  case exitOnce => exact h.exitOnce
  case once =>
    refine List.nodup_cons.mpr ⟨fun hmem => ?_, h.once⟩
    obtain ⟨r, hr, heq⟩ := List.mem_map.mp hmem
    exact h.unreported p hp r hr heq

theorem Family.Kept.step (h : s.Kept) (hs : s.step a = some s') : s'.Kept := by
  cases a with
  | userInit j =>
    simp only [Family.step] at hs
    split_ifs at hs
    cases hs
    exact h.allocPid.born rfl
  | taskCreate j =>
    simp only [Family.step] at hs
    split_ifs at hs
    cases hs
    exact h.born rfl
  | fork i j =>
    simp only [Family.step] at hs
    split_ifs at hs
    cases hs
    exact h.allocPid.born rfl
  | turn i state =>
    simp only [Family.step] at hs
    split_ifs at hs with hlive
    cases hs
    refine h.congr rfl rfl rfl fun k => ?_
    simp only [Function.update_apply]
    split_ifs with hk
    · subst hk
      exact ⟨rfl, rfl, rfl, .inr ⟨hlive.2, hlive.1⟩⟩
    · exact ⟨rfl, rfl, rfl, .inl rfl⟩
  | exit i status =>
    simp only [Family.step] at hs
    split_ifs at hs with hlive
    cases hs
    exact h.exit hlive
  | wait i p status memory image =>
    simp only [Family.step] at hs
    split_ifs at hs with hready
    cases hs
    exact h.reap hready.2.2.2.1

/-! ### Reports -/

/-- The copy of the waiter's status is a store of the child's when the two agree. -/
theorem copyStatus_eq (hstatus : status ≠ 0) (hw : status < WORD) (x : ℤ)
    (hwrite : ∀ a, Touches status 4 a → Writable image a) :
    storeBytes memory image status (intBytes x) =
      .ok (copyStatus memory image status x, image) := by
  have hlen : (intBytes x).length = 4 := by simp [intBytes, littleEndian]
  obtain ⟨m', hcopy, hstore⟩ := Mmap.copyoutLoop_store (s := memory) (t := image)
    le_rfl hw (hlen ▸ hwrite)
  have hcopy' : copyout memory image.pagetable status (intBytes x) = (0, m') := hcopy
  rw [hstore, copyStatus, if_pos hstatus, hcopy']

/-- Births keep their exits: a new exit is not one of a child that was reported. -/
theorem Family.step_exits (h : s.Kept) (hs : s.step a = some s') (he : e ∈ s'.exits) :
    e ∈ s.exits ∨ ∀ r ∈ s.reports, e.child ≠ r.child := by
  cases a with
  | exit i status =>
    simp only [Family.step] at hs
    split_ifs at hs with hlive
    cases hs
    rcases List.mem_cons.mp he with rfl | he
    · exact .inr fun r hr heq => h.unreported i hlive.state_ne.1 r hr heq.symm
    · exact .inl he
  | _ =>
    simp only [Family.step] at hs
    split_ifs at hs
    cases hs
    exact .inl he

/-- What a step does to the two logs. -/
theorem Family.step_reports (h : s.Kept) (hs : s.step a = some s') :
    (∀ e ∈ s.exits, e ∈ s'.exits) ∧ (s'.reports = s.reports ∨
      ∃ i p status memory image, a = .wait i p status memory image ∧ status < WORD ∧
        (s.task p).parent = some i ∧
        ⟨(s.task p).birth, (s.task p).id, (s.task p).xstatus⟩ ∈ s.exits ∧
        s' = s.reap i p status memory image) := by
  cases a with
  | exit i status =>
    simp only [Family.step] at hs
    split_ifs at hs
    cases hs
    exact ⟨fun e he => List.mem_cons_of_mem _ he, .inl rfl⟩
  | wait i p status memory image =>
    simp only [Family.step] at hs
    split_ifs at hs with hready
    cases hs
    obtain ⟨-, -, hw, hzombie, hparent⟩ := hready
    exact ⟨fun _ he => he, .inr ⟨i, p, status, memory, image, rfl, hw, hparent,
      h.zombie p hzombie, rfl⟩⟩
  | _ =>
    simp only [Family.step] at hs
    split_ifs at hs
    cases hs
    exact ⟨fun _ he => he, .inl rfl⟩

theorem Family.Named.step (h : s.Kept) (hn : s.Named) (hs : s.step a = some s') : s'.Named := by
  refine ⟨(h.step hs).once, (h.step hs).exitOnce, ?_⟩
  obtain ⟨hexits, hreports | ⟨i, p, status, memory, image, rfl, -, hparent, hexit, rfl⟩⟩ :=
    Family.step_reports h hs
  · intro r hr
    rw [hreports] at hr
    obtain ⟨e, he, hnames⟩ := hn.names r hr
    exact ⟨e, hexits e he, hnames⟩
  · intro r hr
    rcases List.mem_cons.mp hr with rfl | hr
    · exact ⟨_, hexits _ hexit, hparent, rfl, rfl⟩
    · exact hn.names r hr

theorem Family.Told.step (h : s.Kept) (ht : s.Told) (hm : SameStatus s a)
    (hs : s.step a = some s') : s'.Told := by
  refine ⟨ht.toNamed.step h hs, ?_⟩
  have hexits := (h.step hs).exitOnce
  obtain ⟨-, hreports | ⟨i, p, status, memory, image, rfl, hw, -, hexit, rfl⟩⟩ :=
    Family.step_reports h hs
  · intro r hr e he hnames
    rw [hreports] at hr
    rcases Family.step_exits h hs he with hold | hnew
    · exact ht.stores r hr e hold hnames
    · exact absurd hnames.2.1 (hnew r hr)
  · intro r hr e he hnames
    rcases List.mem_cons.mp hr with rfl | hr
    · intro hstorable
      have hsame : e = ⟨(s.task p).birth, (s.task p).id, (s.task p).xstatus⟩ :=
        List.inj_on_of_nodup_map hexits he hexit hnames.2.1
      obtain ⟨hwrite, hstatus⟩ := hm hstorable
      rw [hsame, ← hstatus]
      exact copyStatus_eq hstorable.1 hw _ hwrite
    · exact ht.stores r hr e he hnames

theorem Family.Kept.reached {meets : Family → Act → Prop}
    (h : Reached Family.step meets familyInit s) : s.Kept :=
  h.invariant .init fun _ _ _ hk _ hs => hk.step hs

theorem Family.Named.init : familyInit.Named :=
  ⟨List.nodup_nil, List.nodup_nil, fun _ hr => by cases hr⟩

/-- A task whose only page can be written. -/
def oneWritablePage : Mmap.Task where
  pagetable v := if v = 1 then PA2PTE 0x80300000 ||| (PTE_V ||| PTE_R ||| PTE_W ||| PTE_U) else 0
  trapframe := 0
  tree := []
  highLevel := 0

def emptyPages : Phys := Mmap.mmapInit (fun _ _ => 0) [] 0x80301000

theorem oneWritablePage_writable (h : Touches 4096 4 k) : Writable oneWritablePage k := by
  obtain ⟨i, hi, rfl⟩ := h
  unfold Writable
  interval_cases i <;> decide

theorem oneWritablePage_storable : Storable emptyPages oneWritablePage 4096 :=
  ⟨by decide, intBytes 0, _, rfl,
    copyStatus_eq (by decide) (by decide) 0 fun _ => oneWritablePage_writable⟩

/-- The first user task has a child that exits with `status`. -/
def childExits (status : ℤ) : Option Family :=
  ((familyInit.step (.userInit 0)).bind fun s => s.step (.fork 0 1)).bind fun s =>
    s.step (.exit 1 status)

theorem childExits_reached {meets : Family → Act → Prop} {status : ℤ} (hs : childExits status = some s)
    (hinit : ∀ s, meets s (.userInit 0)) (hfork : ∀ s, meets s (.fork 0 1))
    (hexit : ∀ s, meets s (.exit 1 status)) : Reached Family.step meets familyInit s := by
  obtain ⟨s₂, h, hs⟩ := Option.bind_eq_some_iff.mp hs
  obtain ⟨s₁, h₁, h₂⟩ := Option.bind_eq_some_iff.mp h
  exact ((Reached.start.step (hinit _) h₁).step (hfork _) h₂).step (hexit _) hs

/-- The first user task waits for it. -/
def waitForChild : Act := .wait 0 1 4096 emptyPages oneWritablePage

theorem childExits_eq {status : ℤ} (hs : childExits status = some s) :
    s.task 0 = ⟨pidOf 1, .RUNNABLE, none, 0, 0⟩ ∧
      s.task 1 = ⟨pidOf 2, .ZOMBIE, some 0, status, 1⟩ ∧
      s.exits = [⟨1, pidOf 2, status⟩] ∧ s.reports = [] := by
  cases hs
  exact ⟨rfl, rfl, rfl, rfl⟩

theorem childExits_wait {status : ℤ} (hs : childExits status = some s) :
    s.step waitForChild = some (s.reap 0 1 4096 emptyPages oneWritablePage) := by
  obtain ⟨hparent, hchild, -⟩ := childExits_eq hs
  have hlive : (s.task 0).Live := by
    rw [hparent]
    exact .inr (.inl rfl)
  have hzombie : (s.task 1).state = .ZOMBIE ∧ (s.task 1).parent = some 0 := by
    rw [hchild]
    exact ⟨rfl, rfl⟩
  have htask : 1 < NTASK := by decide
  have hword : 4096 < WORD := by decide
  unfold Family.step waitForChild
  dsimp only
  rw [if_pos ⟨hlive, htask, hword, hzombie⟩]

theorem copyStatus_ne : storeBytes emptyPages oneWritablePage 4096 (intBytes 1) ≠
    .ok (copyStatus emptyPages oneWritablePage 4096 0, oneWritablePage) := by
  intro hstores
  have hone := hstores.symm.trans
    (copyStatus_eq (by decide) (by decide) 1 fun _ => oneWritablePage_writable)
  have hpages : copyStatus emptyPages oneWritablePage 4096 0 =
      copyStatus emptyPages oneWritablePage 4096 1 := congrArg Prod.fst (Except.ok.inj hone)
  have hbyte := congrArg (fun memory : Phys => memory.mem 0x80300000 0) hpages
  exact absurd hbyte (by decide)

end Zrhos.Proc
