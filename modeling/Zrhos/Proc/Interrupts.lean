import Zrhos.Lib.Steps
import Zrhos.Sync.Semaphore

/-! The interrupt bookkeeping of `lock.c` and `proc.c`. Any code may run on any number of
CPUs: it takes and releases locks in any order, and gives up its CPU by `sched` while it
holds its own lock. -/
namespace Zrhos.Proc
open Steps Sync

inductive Lock where
  | task (t : ℕ)
  | other (n : ℕ)
  deriving DecidableEq, Repr

/-- The code that a CPU runs: its scheduler or a task. -/
inductive Ctx where
  | scheduler (c : ℕ)
  | task (t : ℕ)
  deriving DecidableEq, Repr

/-- A call of `lock.c` or `sched` that a CPU is in the middle of: `lm_lock` before it has
the lock, a function before its `pop_off`, and `sched` back from `swtch`. -/
inductive Inside where
  | none
  | acquiring (l : Lock)
  | popping
  | restoring
  deriving DecidableEq, Repr

structure Cpu where
  noff : ℕ
  intena : Bool
  intr : Bool
  current : Option ℕ
  inside : Inside

/-- The CPUs, the owner of each lock, the state of each task, the `intena` that a task has
saved in `sched`, and whether a task is still at `ret_entry`. The history counts for each
context the `push_off` calls that it has not matched yet, and keeps for each task the
interrupt flag at the point where it began its outermost critical section. -/
structure Harts where
  cpu : ℕ → Cpu
  owner : Lock → Option ℕ
  state : ℕ → TaskState
  saved : ℕ → Bool
  fresh : ℕ → Bool
  unmatched : Ctx → ℕ
  began : ℕ → Option Bool

namespace Harts

/-- The context that CPU `c` runs. -/
def running (m : Harts) (c : ℕ) : Ctx :=
  match (m.cpu c).current with
  | none => .scheduler c
  | some t => .task t

def setCpu (m : Harts) (c : ℕ) (x : Cpu) : Harts := { m with cpu := Function.update m.cpu c x }

/-- `push_off` on a CPU, on the way into `inside`. -/
def pushOff (m : Harts) (c : ℕ) (inside : Inside) : Harts :=
  let x := m.cpu c
  let old := x.intr
  { m with
    cpu := Function.update m.cpu c { x with
      intr := false
      intena := if x.noff = 0 then old else x.intena
      noff := x.noff + 1
      inside := inside }
    unmatched := Function.update m.unmatched (m.running c) (m.unmatched (m.running c) + 1)
    began := match x.current with
      | none => m.began
      | some t =>
        if m.unmatched (.task t) = 0 then Function.update m.began t (some old) else m.began }

/-- `pop_off` on a CPU where interrupts are off and `noff` is positive. -/
def undo (m : Harts) (c : ℕ) : Harts :=
  let x := m.cpu c
  { m with
    cpu := Function.update m.cpu c { x with
      noff := x.noff - 1
      intr := if x.noff - 1 = 0 ∧ x.intena then true else x.intr
      inside := .none }
    unmatched := Function.update m.unmatched (m.running c) (m.unmatched (m.running c) - 1)
    began := match x.current with
      | none => m.began
      | some t =>
        if m.unmatched (.task t) - 1 = 0 then Function.update m.began t none else m.began }

def popOff (m : Harts) (c : ℕ) : Option Harts :=
  if (m.cpu c).intr = true ∨ (m.cpu c).noff < 1 then none else some (m.undo c)

/-- The `swtch` of a scheduler to task `t`. A task that has left by `sched` comes back
there. -/
def dispatch (m : Harts) (c t : ℕ) : Harts :=
  { m.setCpu c { m.cpu c with
      current := some t
      inside := if m.fresh t then .none else .restoring } with
    state := Function.update m.state t .RUNNING }

end Harts

inductive HartOp where
  | setIntr (on : Bool)
  | lock (l : Lock)
  | acquire
  | unlock (l : Lock)
  | peek
  | popOff
  | setState (state : TaskState)
  | wake (t : ℕ)
  | reap (t : ℕ)
  | create (t : ℕ)
  | sched
  | exit
  | dispatch (t : ℕ)
  | restore
  deriving DecidableEq, Repr

/-- One step of CPU `c`. A panic is no step. -/
def Harts.step (m : Harts) : ℕ × HartOp → Option Harts
  -- `intr_on`, `intr_off`, a trap and its return, outside of every critical section
  | (c, .setIntr on) =>
    if (m.cpu c).inside = .none ∧ m.unmatched (m.running c) = 0 then
      some (m.setCpu c { m.cpu c with intr := on })
    else none
  | (c, .lock l) =>
    if (m.cpu c).inside = .none ∧ m.owner l ≠ some c then some (m.pushOff c (.acquiring l))
    else none
  | (c, .acquire) =>
    match (m.cpu c).inside with
    | .acquiring l =>
      if m.owner l = none then
        some { m.setCpu c { m.cpu c with inside := .none } with
          owner := Function.update m.owner l (some c) }
      else none
    | _ => none
  -- a task gives its own lock back only while it is `RUNNING`
  | (c, .unlock l) =>
    if (m.cpu c).inside = .none ∧ m.owner l = some c ∧
        ∀ t ∈ (m.cpu c).current, l = .task t → m.state t = .RUNNING then
      some { m.setCpu c { m.cpu c with inside := .popping } with
        owner := Function.update m.owner l none }
    else none
  -- `mytask`
  | (c, .peek) => if (m.cpu c).inside = .none then some (m.pushOff c .popping) else none
  | (c, .popOff) => if (m.cpu c).inside = .popping then m.popOff c else none
  -- the running task changes its own state, on its way to `sched` or out of `exit`
  | (c, .setState state) =>
    match (m.cpu c).current with
    | some t =>
      if (m.cpu c).inside = .none ∧ m.owner (.task t) = some c then
        some { m with state := Function.update m.state t state }
      else none
    | none => none
  | (c, .wake t) =>
    if (m.cpu c).inside = .none ∧ m.owner (.task t) = some c ∧ m.state t = .SLEEPING then
      some { m with state := Function.update m.state t .RUNNABLE }
    else none
  | (c, .reap t) =>
    if (m.cpu c).inside = .none ∧ m.owner (.task t) = some c ∧ m.state t = .ZOMBIE ∧
        (m.cpu c).current ≠ some t then
      some { m with state := Function.update m.state t .DEAD }
    else none
  -- a new task starts at `ret_entry`, which matches the `push_off` of the scheduler
  | (c, .create t) =>
    if (m.cpu c).inside = .none ∧ m.owner (.task t) = some c ∧ m.state t = .DEAD ∧
        (m.cpu c).current ≠ some t then
      some { m with
        state := Function.update m.state t .RUNNABLE
        fresh := Function.update m.fresh t true
        unmatched := Function.update m.unmatched (.task t) 1
        began := Function.update m.began t none }
    else none
  | (c, .sched) =>
    match (m.cpu c).current with
    | some t =>
      if (m.cpu c).inside = .none ∧ m.owner (.task t) = some c ∧ (m.cpu c).noff = 1 ∧
          m.state t ≠ .RUNNING ∧ (m.cpu c).intr = false then
        some { m.setCpu c { m.cpu c with current := none } with
          saved := Function.update m.saved t (m.cpu c).intena
          fresh := Function.update m.fresh t false }
      else none
    | none => none
  -- the `swtch` of `exit`, without the checks of `sched`
  | (c, .exit) =>
    match (m.cpu c).current with
    | some t =>
      if (m.cpu c).inside = .none ∧ m.owner (.task t) = some c ∧ m.state t = .ZOMBIE ∧
          m.unmatched (.task t) = 1 then
        some (m.setCpu c { m.cpu c with current := none })
      else none
    | none => none
  -- the scheduler holds the lock of the task and no other
  | (c, .dispatch t) =>
    if (m.cpu c).current = none ∧ (m.cpu c).inside = .none ∧ m.owner (.task t) = some c ∧
        m.state t = .RUNNABLE ∧ m.unmatched (.scheduler c) = 1 then
      some (m.dispatch c t)
    else none
  | (c, .restore) =>
    match (m.cpu c).current with
    | some t =>
      if (m.cpu c).inside = .restoring then
        some (m.setCpu c { m.cpu c with intena := m.saved t, inside := .none })
      else none
    | none => none

/-- The CPUs come up in their schedulers with interrupts off; no task exists. -/
def hartsInit : Harts where
  cpu _ := ⟨0, false, false, none, .none⟩
  owner _ := none
  state _ := .DEAD
  saved _ := false
  fresh _ := false
  unmatched _ := 0
  began _ := none

/-! ### The invariant -/

namespace Harts

/-- Task `t` is switched out, and its state may bring it back. -/
def Ready (m : Harts) (t : ℕ) : Prop :=
  (∀ c, (m.cpu c).current ≠ some t) ∧ (m.state t = .RUNNABLE ∨ m.state t = .SLEEPING)

/-- Where `intena` keeps the flag of the running task: on its CPU, or in its frame of
`sched` until that is done. -/
def kept (m : Harts) (c t : ℕ) : Bool :=
  if (m.cpu c).inside = .restoring then m.saved t else (m.cpu c).intena

structure Booked (m : Harts) : Prop where
  noff : ∀ c, (m.cpu c).noff = m.unmatched (m.running c)
  off : ∀ c, 0 < (m.cpu c).noff → (m.cpu c).intr = false
  away : ∀ c t, (m.cpu c).current = some t → m.unmatched (.scheduler c) = 1
  once : ∀ c c' t, (m.cpu c).current = some t → (m.cpu c').current = some t → c = c'
  runs : ∀ c t, (m.cpu c).current = some t →
    m.state t = .RUNNING ∨ m.owner (.task t) = some c
  began : ∀ c t b, (m.cpu c).current = some t → m.began t = some b → m.kept c t = b
  ready_unmatched : ∀ t, m.Ready t → m.unmatched (.task t) = 1
  ready_saved : ∀ t b, m.Ready t → m.began t = some b → m.saved t = b
  ready_fresh : ∀ t, m.Ready t → m.fresh t = true → m.began t = none

variable {m m' : Harts} {c c' t t' : ℕ} {x : Cpu}

theorem kept_of (hcpu : m.cpu c = x) {b : Bool} (hsaved : m.saved t = b) :
    m.kept c t = if x.inside = .restoring then b else x.intena := by rw [kept, hcpu, hsaved]

theorem running_task (h : (m.cpu c).current = some t) : m.running c = .task t := by
  rw [running, h]

theorem running_scheduler (h : (m.cpu c).current = none) : m.running c = .scheduler c := by
  rw [running, h]

theorem Booked.running_inj (h : m.Booked) (he : m.running c = m.running c') : c = c' := by
  cases hc : (m.cpu c).current with
  | none =>
    rw [running_scheduler hc] at he
    cases hc' : (m.cpu c').current with
    | none =>
      rw [running_scheduler hc'] at he
      exact Ctx.scheduler.inj he
    | some t' =>
      rw [running_task hc'] at he
      cases he
  | some t =>
    rw [running_task hc] at he
    cases hc' : (m.cpu c').current with
    | none =>
      rw [running_scheduler hc'] at he
      cases he
    | some t' =>
      rw [running_task hc'] at he
      cases Ctx.task.inj he
      exact h.once c c' t hc hc'

theorem Booked.running_eq_task (h : m.running c = .task t) : (m.cpu c).current = some t := by
  cases hc : (m.cpu c).current with
  | none =>
    rw [running_scheduler hc] at h
    cases h
  | some t' =>
    rw [running_task hc] at h
    rw [Ctx.task.inj h]

theorem running_eq_scheduler (h : m.running c = .scheduler c') : (m.cpu c).current = none := by
  cases hc : (m.cpu c).current with
  | none => rfl
  | some t =>
    rw [running_task hc] at h
    cases h

/-- The state of a task changes under its lock, while it is not running elsewhere. -/
theorem Booked.not_elsewhere (h : m.Booked) (howner : m.owner (.task t) = some c)
    (hstate : m.state t ≠ .RUNNING) (hself : (m.cpu c).current ≠ some t) (c' : ℕ) :
    (m.cpu c').current ≠ some t := by
  intro hc'
  rcases h.runs c' t hc' with hrun | hown
  · exact hstate hrun
  · rw [howner] at hown
    cases hown
    exact hself hc'

/-! ### Steps of the running context -/

/-- CPU `c` goes on with the code it runs: nothing of another context changes. -/
structure Turn (m m' : Harts) (c : ℕ) : Prop where
  cpu : ∀ c', c' ≠ c → m'.cpu c' = m.cpu c'
  current : (m'.cpu c).current = (m.cpu c).current
  state : m'.state = m.state
  saved : m'.saved = m.saved
  fresh : m'.fresh = m.fresh
  unmatched : ∀ x, x ≠ m.running c → m'.unmatched x = m.unmatched x
  began : ∀ t, (m.cpu c).current ≠ some t → m'.began t = m.began t

theorem Turn.current_eq (h : Turn m m' c) (c' : ℕ) : (m'.cpu c').current = (m.cpu c').current := by
  by_cases hc : c' = c
  · rw [hc]
    exact h.current
  · rw [h.cpu c' hc]

theorem Turn.running_eq (h : Turn m m' c) (c' : ℕ) : m'.running c' = m.running c' := by
  unfold running
  rw [h.current_eq]

theorem Turn.ready (h : Turn m m' c) : m'.Ready t ↔ m.Ready t := by
  unfold Ready
  simp only [h.current_eq, h.state]

/-- The invariant after a turn follows from what it leaves on its own CPU. -/
theorem Booked.turn (h : m.Booked) (ht : Turn m m' c)
    (hnoff : (m'.cpu c).noff = m'.unmatched (m.running c))
    (hoff : 0 < (m'.cpu c).noff → (m'.cpu c).intr = false)
    (hruns : ∀ c' t, (m.cpu c').current = some t →
      m.state t = .RUNNING ∨ m'.owner (.task t) = some c')
    (hbegan : ∀ t b, (m.cpu c).current = some t → m'.began t = some b → m'.kept c t = b) :
    m'.Booked := by
  constructor
  case noff =>
    intro c'
    rw [ht.running_eq]
    by_cases hc : c' = c
    · subst hc
      exact hnoff
    · rw [ht.cpu c' hc, ht.unmatched _ fun he => hc (h.running_inj he)]
      exact h.noff c'
  case off =>
    intro c' hpos
    by_cases hc : c' = c
    · subst hc
      exact hoff hpos
    · rw [ht.cpu c' hc] at hpos ⊢
      exact h.off c' hpos
  case away =>
    intro c' t hcurrent
    rw [ht.current_eq] at hcurrent
    have hne : Ctx.scheduler c' ≠ m.running c := by
      intro he
      have hidle := running_eq_scheduler he.symm
      rw [running_scheduler hidle] at he
      cases Ctx.scheduler.inj he
      rw [hidle] at hcurrent
      cases hcurrent
    rw [ht.unmatched _ hne]
    exact h.away c' t hcurrent
  case once =>
    intro c₁ c₂ t h₁ h₂
    rw [ht.current_eq] at h₁ h₂
    exact h.once c₁ c₂ t h₁ h₂
  case runs =>
    intro c' t hcurrent
    rw [ht.current_eq] at hcurrent
    rw [ht.state]
    exact hruns c' t hcurrent
  case began =>
    intro c' t b hcurrent hb
    rw [ht.current_eq] at hcurrent
    by_cases hc : c' = c
    · subst hc
      exact hbegan t b hcurrent hb
    · rw [ht.began t fun he => hc (h.once c' c t hcurrent he)] at hb
      rw [kept, ht.cpu c' hc, ht.saved]
      exact h.began c' t b hcurrent hb
  case ready_unmatched =>
    intro t hready
    rw [ht.ready] at hready
    rw [ht.unmatched _ fun he => hready.1 c (Booked.running_eq_task he.symm)]
    exact h.ready_unmatched t hready
  case ready_saved =>
    intro t b hready hb
    rw [ht.ready] at hready
    rw [ht.began t (hready.1 c)] at hb
    rw [ht.saved]
    exact h.ready_saved t b hready hb
  case ready_fresh =>
    intro t hready hfresh
    rw [ht.ready] at hready
    rw [ht.fresh] at hfresh
    rw [ht.began t (hready.1 c)]
    exact h.ready_fresh t hready hfresh

/-- A step that changes the CPU at most, and neither `noff` nor `current`. -/
theorem Turn.setCpu (hcurrent : x.current = (m.cpu c).current) (owner : Lock → Option ℕ) :
    Turn m { m.setCpu c x with owner := owner } c where
  cpu c' hc := Function.update_of_ne hc _ _
  current := by
    dsimp only [Harts.setCpu]
    rw [Function.update_self]
    exact hcurrent
  state := rfl
  saved := rfl
  fresh := rfl
  unmatched _ _ := rfl
  began _ _ := rfl

theorem Booked.setCpu (h : m.Booked) (hcurrent : x.current = (m.cpu c).current)
    (hnoff : x.noff = (m.cpu c).noff) (hoff : 0 < x.noff → x.intr = false)
    {owner : Lock → Option ℕ}
    (hruns : ∀ c' t, (m.cpu c').current = some t →
      m.state t = .RUNNING ∨ owner (.task t) = some c')
    (hkept : ∀ t b, (m.cpu c).current = some t → m.began t = some b →
      (if x.inside = .restoring then m.saved t else x.intena) = b) :
    Booked { m.setCpu c x with owner := owner } := by
  have hcpu : ({ m.setCpu c x with owner := owner } : Harts).cpu c = x :=
    Function.update_self _ _ _
  apply h.turn (.setCpu hcurrent owner)
  · rw [hcpu, hnoff]
    exact h.noff c
  · rw [hcpu]
    exact hoff
  · exact hruns
  · intro t b ht hb
    rw [kept, hcpu]
    exact hkept t b ht hb

/-! ### `push_off` and `pop_off` -/

theorem Turn.pushOff (m : Harts) (c : ℕ) (inside : Inside) : Turn m (m.pushOff c inside) c where
  cpu c' hc := Function.update_of_ne hc _ _
  current := by
    dsimp only [Harts.pushOff]
    rw [Function.update_self]
  state := rfl
  saved := rfl
  fresh := rfl
  unmatched _ hx := Function.update_of_ne hx _ _
  began t hne := by
    dsimp only [Harts.pushOff]
    cases hc : (m.cpu c).current with
    | none => rfl
    | some t' =>
      dsimp only
      split_ifs
      · exact Function.update_of_ne (fun he => hne (by rw [hc, he])) _ _
      · rfl

theorem Booked.pushOff (h : m.Booked) (hnone : (m.cpu c).inside = .none) {inside : Inside}
    (hrestore : inside ≠ .restoring) : (m.pushOff c inside).Booked := by
  have hcpu : (m.pushOff c inside).cpu c = { m.cpu c with
      intr := false
      intena := if (m.cpu c).noff = 0 then (m.cpu c).intr else (m.cpu c).intena
      noff := (m.cpu c).noff + 1
      inside := inside } := Function.update_self _ _ _
  have hself : (m.pushOff c inside).unmatched (m.running c) = m.unmatched (m.running c) + 1 :=
    Function.update_self _ _ _
  apply h.turn (.pushOff m c inside)
  · rw [hcpu, hself, ← h.noff]
  · rw [hcpu]
    exact fun _ => rfl
  · exact h.runs
  · intro t b hcurrent hbegan
    have hnoff := h.noff c
    rw [running_task hcurrent] at hnoff
    have hold := h.began c t b hcurrent
    rw [kept, hnone, if_neg Inside.noConfusion] at hold
    rw [kept, hcpu, if_neg hrestore]
    dsimp only [Harts.pushOff] at hbegan
    rw [hcurrent] at hbegan
    dsimp only at hbegan
    -- the outermost `push_off` begins the section, the others find it begun
    split_ifs at hbegan with hzero
    · rw [Function.update_self] at hbegan
      rw [if_pos (by omega)]
      exact Option.some.inj hbegan
    · rw [if_neg (by omega)]
      exact hold hbegan

theorem popOff_eq (hp : m.popOff c = some m') :
    (m.cpu c).intr = false ∧ 0 < (m.cpu c).noff ∧ m' = m.undo c := by
  unfold popOff at hp
  split_ifs at hp with hpanic
  cases hp
  obtain ⟨hintr, hpos⟩ := not_or.mp hpanic
  exact ⟨Bool.eq_false_iff.mpr hintr, by omega, rfl⟩

theorem undo_cpu (hoff : (m.cpu c).intr = false) : (m.undo c).cpu c = { m.cpu c with
    noff := (m.cpu c).noff - 1
    intr := decide ((m.cpu c).noff - 1 = 0) && (m.cpu c).intena
    inside := .none } := by
  dsimp only [undo]
  rw [Function.update_self, hoff]
  congr 1
  by_cases hzero : (m.cpu c).noff - 1 = 0 <;> cases (m.cpu c).intena <;> simp [hzero]

theorem undo_began (hcurrent : (m.cpu c).current = some t) :
    (m.undo c).began t = if m.unmatched (.task t) - 1 = 0 then none else m.began t := by
  dsimp only [undo]
  rw [hcurrent]
  dsimp only
  split_ifs
  · exact Function.update_self _ _ _
  · rfl

theorem Turn.undo (m : Harts) (c : ℕ) : Turn m (m.undo c) c where
  cpu c' hc := Function.update_of_ne hc _ _
  current := by
    dsimp only [Harts.undo]
    rw [Function.update_self]
  state := rfl
  saved := rfl
  fresh := rfl
  unmatched _ hx := Function.update_of_ne hx _ _
  began t hne := by
    dsimp only [Harts.undo]
    cases hc : (m.cpu c).current with
    | none => rfl
    | some t' =>
      dsimp only
      split_ifs
      · exact Function.update_of_ne (fun he => hne (by rw [hc, he])) _ _
      · rfl

theorem Booked.popOff (h : m.Booked) (hinside : (m.cpu c).inside = .popping)
    (hp : m.popOff c = some m') : m'.Booked := by
  obtain ⟨hoff, hpos, rfl⟩ := popOff_eq hp
  have hcpu := undo_cpu hoff
  have hself : (m.undo c).unmatched (m.running c) = m.unmatched (m.running c) - 1 :=
    Function.update_self _ _ _
  apply h.turn (.undo m c)
  · rw [hcpu, hself, ← h.noff]
  · rw [hcpu]
    intro hleft
    dsimp only at hleft
    rw [decide_eq_false (by omega), Bool.false_and]
  · exact h.runs
  · intro t b hcurrent hbegan
    have hold := h.began c t b hcurrent
    rw [kept, hinside, if_neg Inside.noConfusion] at hold
    rw [kept, hcpu, if_neg Inside.noConfusion]
    rw [undo_began hcurrent] at hbegan
    split_ifs at hbegan with hzero
    exact hold hbegan

/-- The end of a section that the task began itself restores its flag. -/
theorem Booked.popOff_intr (h : m.Booked) (hinside : (m.cpu c).inside = .popping)
    (hp : m.popOff c = some m') (hcurrent : (m.cpu c).current = some t) {b : Bool}
    (hbegan : m.began t = some b) (hend : m'.unmatched (.task t) = 0) :
    (m'.cpu c).intr = b := by
  obtain ⟨hoff, -, rfl⟩ := popOff_eq hp
  have hself : (m.undo c).unmatched (m.running c) = m.unmatched (m.running c) - 1 :=
    Function.update_self _ _ _
  have hnoff := h.noff c
  rw [running_task hcurrent] at hnoff hself
  have hkept := h.began c t b hcurrent hbegan
  rw [kept, hinside, if_neg Inside.noConfusion] at hkept
  rw [undo_cpu hoff, ← hkept]
  dsimp only
  rw [decide_eq_true (by omega), Bool.true_and]

/-! ### Changes of state -/

theorem Booked.setState (h : m.Booked) {state : TaskState}
    (hruns : ∀ c', (m.cpu c').current = some t → m.owner (.task t) = some c')
    (hready : (∀ c', (m.cpu c').current ≠ some t) → state = .RUNNABLE ∨ state = .SLEEPING →
      m.Ready t) : Booked { m with state := Function.update m.state t state } := by
  have hback (t' : ℕ) (hr : Ready { m with state := Function.update m.state t state } t') :
      m.Ready t' := by
    obtain ⟨hout, hstate⟩ := hr
    by_cases he : t' = t
    · subst he
      dsimp only at hstate
      rw [Function.update_self] at hstate
      exact hready hout hstate
    · dsimp only at hstate
      rw [Function.update_of_ne he] at hstate
      exact ⟨hout, hstate⟩
  constructor
  case noff => exact h.noff
  case off => exact h.off
  case away => exact h.away
  case once => exact h.once
  case runs =>
    intro c' t' hcurrent
    by_cases he : t' = t
    · subst he
      exact .inr (hruns c' hcurrent)
    · dsimp only
      rw [Function.update_of_ne he]
      exact h.runs c' t' hcurrent
  case began => exact h.began
  case ready_unmatched => exact fun t' hr => h.ready_unmatched t' (hback t' hr)
  case ready_saved => exact fun t' b hr => h.ready_saved t' b (hback t' hr)
  case ready_fresh => exact fun t' hr => h.ready_fresh t' (hback t' hr)

/-- A new context, for a task that no CPU runs. -/
theorem Booked.create (h : m.Booked) (hout : ∀ c, (m.cpu c).current ≠ some t) :
    Booked { m with
      state := Function.update m.state t .RUNNABLE
      fresh := Function.update m.fresh t true
      unmatched := Function.update m.unmatched (.task t) 1
      began := Function.update m.began t none } := by
  have hrunning (c' : ℕ) : m.running c' ≠ .task t := fun he => hout c' (Booked.running_eq_task he)
  have hback (t' : ℕ) (he : t' ≠ t) (hr : Ready { m with
      state := Function.update m.state t .RUNNABLE
      fresh := Function.update m.fresh t true
      unmatched := Function.update m.unmatched (.task t) 1
      began := Function.update m.began t none } t') : m.Ready t' := by
    obtain ⟨hout', hstate⟩ := hr
    dsimp only at hstate
    rw [Function.update_of_ne he] at hstate
    exact ⟨hout', hstate⟩
  constructor
  case noff =>
    intro c'
    change (m.cpu c').noff = Function.update m.unmatched (.task t) 1 (m.running c')
    rw [Function.update_of_ne (hrunning c')]
    exact h.noff c'
  case off => exact h.off
  case away =>
    intro c' t' hcurrent
    dsimp only
    rw [Function.update_of_ne Ctx.noConfusion]
    exact h.away c' t' hcurrent
  case once => exact h.once
  case runs =>
    intro c' t' hcurrent
    have he : t' ≠ t := fun he => hout c' (he ▸ hcurrent)
    dsimp only
    rw [Function.update_of_ne he]
    exact h.runs c' t' hcurrent
  case began =>
    intro c' t' b hcurrent hbegan
    have he : t' ≠ t := fun he => hout c' (he ▸ hcurrent)
    dsimp only at hbegan
    rw [Function.update_of_ne he] at hbegan
    exact h.began c' t' b hcurrent hbegan
  case ready_unmatched =>
    intro t' hr
    dsimp only
    by_cases he : t' = t
    · subst he
      exact Function.update_self _ _ _
    · rw [Function.update_of_ne fun hc => he (Ctx.task.inj hc)]
      exact h.ready_unmatched t' (hback t' he hr)
  case ready_saved =>
    intro t' b hr hbegan
    dsimp only at hbegan
    by_cases he : t' = t
    · subst he
      rw [Function.update_self] at hbegan
      cases hbegan
    · rw [Function.update_of_ne he] at hbegan
      exact h.ready_saved t' b (hback t' he hr) hbegan
  case ready_fresh =>
    intro t' hr hfresh
    dsimp only at hfresh ⊢
    by_cases he : t' = t
    · subst he
      exact Function.update_self _ _ _
    · rw [Function.update_of_ne he] at hfresh ⊢
      exact h.ready_fresh t' (hback t' he hr) hfresh

/-! ### Switches of the context -/

/-- A task that leaves its CPU to the scheduler holds one `push_off`, as the scheduler
does. -/
theorem Booked.leave (h : m.Booked) (hcurrent : (m.cpu c).current = some t)
    (hone : m.unmatched (.task t) = 1)
    {saved fresh : ℕ → Bool} (hsaved : ∀ t', t' ≠ t → saved t' = m.saved t')
    (hfresh : ∀ t', t' ≠ t → fresh t' = m.fresh t')
    (hback : m.state t = .RUNNABLE ∨ m.state t = .SLEEPING →
      (∀ b, m.began t = some b → saved t = b) ∧ fresh t = false) :
    Booked { m.setCpu c { m.cpu c with current := none } with saved := saved, fresh := fresh } := by
  have hself : Function.update m.cpu c { m.cpu c with current := none } c =
      { m.cpu c with current := none } := Function.update_self _ _ _
  have hother (c' : ℕ) (hc : c' ≠ c) :
      Function.update m.cpu c { m.cpu c with current := none } c' = m.cpu c' :=
    Function.update_of_ne hc _ _
  have hold (c' t' : ℕ) (hc' : (Function.update m.cpu c { m.cpu c with current := none } c').current
      = some t') : c' ≠ c ∧ (m.cpu c').current = some t' ∧ t' ≠ t := by
    by_cases hc : c' = c
    · subst hc
      rw [hself] at hc'
      cases hc'
    · rw [hother c' hc] at hc'
      exact ⟨hc, hc', fun he => hc (h.once c' c t (he ▸ hc') hcurrent)⟩
  have hready (t' : ℕ) (he : t' ≠ t) (hr : Ready { m.setCpu c { m.cpu c with current := none } with
      saved := saved
      fresh := fresh } t') : m.Ready t' := by
    obtain ⟨hout, hstate⟩ := hr
    refine ⟨fun c' hc' => ?_, hstate⟩
    by_cases hc : c' = c
    · subst hc
      rw [hcurrent] at hc'
      exact he (Option.some.inj hc').symm
    · refine hout c' ?_
      dsimp only [Harts.setCpu]
      rw [hother c' hc]
      exact hc'
  have hnoff := h.noff c
  rw [running_task hcurrent, hone] at hnoff
  constructor
  case noff =>
    intro c'
    dsimp only [Harts.setCpu, running]
    by_cases hc : c' = c
    · subst hc
      rw [hself]
      exact hnoff.trans (h.away c' t hcurrent).symm
    · rw [hother c' hc]
      exact h.noff c'
  case off =>
    intro c' hpos
    dsimp only [Harts.setCpu] at hpos ⊢
    by_cases hc : c' = c
    · subst hc
      rw [hself] at hpos ⊢
      exact h.off c' hpos
    · rw [hother c' hc] at hpos ⊢
      exact h.off c' hpos
  case away =>
    intro c' t' hc'
    exact h.away c' t' (hold c' t' hc').2.1
  case once =>
    intro c₁ c₂ t' h₁ h₂
    exact h.once c₁ c₂ t' (hold c₁ t' h₁).2.1 (hold c₂ t' h₂).2.1
  case runs =>
    intro c' t' hc'
    exact h.runs c' t' (hold c' t' hc').2.1
  case began =>
    intro c' t' b hc' hbegan
    obtain ⟨hc, hc', he⟩ := hold c' t' hc'
    exact (kept_of (hother c' hc) (hsaved t' he)).trans (h.began c' t' b hc' hbegan)
  case ready_unmatched =>
    intro t' hr
    by_cases he : t' = t
    · subst he
      exact hone
    · exact h.ready_unmatched t' (hready t' he hr)
  case ready_saved =>
    intro t' b hr hbegan
    by_cases he : t' = t
    · subst he
      exact (hback hr.2).1 b hbegan
    · dsimp only
      rw [hsaved t' he]
      exact h.ready_saved t' b (hready t' he hr) hbegan
  case ready_fresh =>
    intro t' hr hf
    by_cases he : t' = t
    · subst he
      have hnot : fresh t' = false := (hback hr.2).2
      exact absurd (hnot.symm.trans hf) Bool.noConfusion
    · exact h.ready_fresh t' (hready t' he hr) ((hfresh t' he).symm.trans hf)

/-- A task comes to any CPU whose scheduler holds its lock and no other. -/
theorem Booked.dispatch (h : m.Booked) (hidle : (m.cpu c).current = none)
    (howner : m.owner (.task t) = some c) (hstate : m.state t = .RUNNABLE)
    (hone : m.unmatched (.scheduler c) = 1) : (m.dispatch c t).Booked := by
  unfold Harts.dispatch
  have hout := h.not_elsewhere howner (by rw [hstate]; exact TaskState.noConfusion)
    (by simp [hidle])
  have hr : m.Ready t := ⟨hout, .inl hstate⟩
  generalize hx : ({ m.cpu c with
    current := some t
    inside := if m.fresh t then .none else .restoring } : Cpu) = x
  have hself : Function.update m.cpu c x c = x := Function.update_self _ _ _
  have hother (c' : ℕ) (hc : c' ≠ c) : Function.update m.cpu c x c' = m.cpu c' :=
    Function.update_of_ne hc _ _
  have hcurrent : x.current = some t := by rw [← hx]
  have hnoff : x.noff = 1 := by
    have hold := h.noff c
    rw [running_scheduler hidle, hone] at hold
    rw [← hx]
    exact hold
  have hold (c' t' : ℕ) (hc' : (Function.update m.cpu c x c').current = some t') :
      (c' = c ∧ t' = t) ∨ (c' ≠ c ∧ t' ≠ t ∧ (m.cpu c').current = some t') := by
    by_cases hc : c' = c
    · subst hc
      rw [hself, hcurrent] at hc'
      exact .inl ⟨rfl, (Option.some.inj hc').symm⟩
    · rw [hother c' hc] at hc'
      exact .inr ⟨hc, fun he => hout c' (he ▸ hc'), hc'⟩
  have hready (t' : ℕ) (hr' : Ready { m.setCpu c x with
      state := Function.update m.state t .RUNNING } t') : m.Ready t' := by
    obtain ⟨hout', hstate'⟩ := hr'
    dsimp only [Harts.setCpu] at hout' hstate'
    have he : t' ≠ t := by
      intro he
      refine hout' c ?_
      rw [hself, hcurrent, he]
    rw [Function.update_of_ne he] at hstate'
    refine ⟨fun c' hc' => ?_, hstate'⟩
    by_cases hc : c' = c
    · subst hc
      rw [hidle] at hc'
      cases hc'
    · refine hout' c' ?_
      rw [hother c' hc]
      exact hc'
  constructor
  case noff =>
    intro c'
    dsimp only [Harts.setCpu, running]
    by_cases hc : c' = c
    · subst hc
      rw [hself, hcurrent, hnoff]
      exact (h.ready_unmatched t hr).symm
    · rw [hother c' hc]
      exact h.noff c'
  case off =>
    intro c' hpos
    dsimp only [Harts.setCpu] at hpos ⊢
    by_cases hc : c' = c
    · subst hc
      rw [hself, ← hx] at hpos ⊢
      exact h.off c' hpos
    · rw [hother c' hc] at hpos ⊢
      exact h.off c' hpos
  case away =>
    intro c' t' hc'
    rcases hold c' t' hc' with ⟨rfl, -⟩ | ⟨-, -, hc'⟩
    · exact hone
    · exact h.away c' t' hc'
  case once =>
    intro c₁ c₂ t' h₁ h₂
    rcases hold c₁ t' h₁ with ⟨rfl, rfl⟩ | ⟨-, hne, h₁⟩
    · rcases hold c₂ t' h₂ with ⟨rfl, -⟩ | ⟨-, hne, -⟩
      · rfl
      · exact absurd rfl hne
    · rcases hold c₂ t' h₂ with ⟨-, he⟩ | ⟨-, -, h₂⟩
      · exact absurd he hne
      · exact h.once c₁ c₂ t' h₁ h₂
  case runs =>
    intro c' t' hc'
    dsimp only
    rcases hold c' t' hc' with ⟨-, rfl⟩ | ⟨-, hne, hc'⟩
    · exact .inl (Function.update_self _ _ _)
    · rw [Function.update_of_ne hne]
      exact h.runs c' t' hc'
  case began =>
    intro c' t' b hc' hbegan
    change m.began t' = some b at hbegan
    rcases hold c' t' hc' with ⟨rfl, rfl⟩ | ⟨hc, -, hc'⟩
    · have hnot : ¬m.fresh t' = true := by
        intro hf
        rw [h.ready_fresh t' hr hf] at hbegan
        cases hbegan
      refine (kept_of hself rfl).trans ?_
      rw [← hx, if_neg hnot, if_pos rfl]
      exact h.ready_saved t' b hr hbegan
    · exact (kept_of (hother c' hc) rfl).trans (h.began c' t' b hc' hbegan)
  case ready_unmatched => exact fun t' hr' => h.ready_unmatched t' (hready t' hr')
  case ready_saved => exact fun t' b hr' => h.ready_saved t' b (hready t' hr')
  case ready_fresh => exact fun t' hr' => h.ready_fresh t' (hready t' hr')

/-! ### Whole runs -/

theorem Booked.init : hartsInit.Booked where
  noff _ := rfl
  off _ _ := rfl
  away _ _ hc := by cases hc
  once _ _ _ hc := by cases hc
  runs _ _ hc := by cases hc
  began _ _ _ hc := by cases hc
  ready_unmatched _ hr := by rcases hr.2 with hs | hs <;> cases hs
  ready_saved _ _ hr := by rcases hr.2 with hs | hs <;> cases hs
  ready_fresh _ hr := by rcases hr.2 with hs | hs <;> cases hs

/-- A CPU that keeps its counters may leave or enter a function of `lock.c`. -/
theorem Booked.goto (h : m.Booked) {inside : Inside} (hrestore : (m.cpu c).inside ≠ .restoring)
    (hplace : inside ≠ .restoring) {owner : Lock → Option ℕ}
    (hruns : ∀ c' t, (m.cpu c').current = some t →
      m.state t = .RUNNING ∨ owner (.task t) = some c') :
    Booked { m.setCpu c { m.cpu c with inside := inside } with owner := owner } := by
  refine h.setCpu (x := { m.cpu c with inside := inside }) rfl rfl (h.off c) hruns ?_
  intro t b hcurrent hbegan
  have hold := h.began c t b hcurrent hbegan
  rw [kept, if_neg hrestore] at hold
  rw [if_neg hplace]
  exact hold

theorem Booked.step {op : HartOp} (h : m.Booked) (hs : m.step (c, op) = some m') : m'.Booked := by
  cases op with
  | setIntr on =>
    simp only [Harts.step] at hs
    split_ifs at hs with hok
    have hnoff := h.noff c
    rw [hok.2] at hnoff
    cases hs
    exact h.setCpu (x := { m.cpu c with intr := on }) rfl rfl (fun hpos => absurd hnoff hpos.ne')
      h.runs fun t b => h.began c t b
  | lock l =>
    simp only [Harts.step] at hs
    split_ifs at hs with hok
    cases hs
    exact h.pushOff hok.1 Inside.noConfusion
  | acquire =>
    simp only [Harts.step] at hs
    split at hs
    case _ l hinside =>
      split_ifs at hs with hfree
      cases hs
      refine h.goto (by rw [hinside]; exact Inside.noConfusion) Inside.noConfusion
        fun c' t hcurrent => ?_
      rcases h.runs c' t hcurrent with hrun | hown
      · exact .inl hrun
      · right
        have hne : Lock.task t ≠ l := by
          rintro rfl
          rw [hfree] at hown
          cases hown
        rw [Function.update_of_ne hne]
        exact hown
    case _ => cases hs
  | unlock l =>
    simp only [Harts.step] at hs
    split_ifs at hs with hok
    obtain ⟨hnone, howner, hself⟩ := hok
    cases hs
    refine h.goto (by rw [hnone]; exact Inside.noConfusion) Inside.noConfusion
      fun c' t hcurrent => ?_
    rcases h.runs c' t hcurrent with hrun | hown
    · exact .inl hrun
    by_cases hl : l = .task t
    · subst hl
      rw [howner] at hown
      cases hown
      exact .inl (hself t hcurrent rfl)
    · right
      rw [Function.update_of_ne (Ne.symm hl)]
      exact hown
  | peek =>
    simp only [Harts.step] at hs
    split_ifs at hs with hok
    cases hs
    exact h.pushOff hok Inside.noConfusion
  | popOff =>
    simp only [Harts.step] at hs
    split_ifs at hs with hok
    exact h.popOff hok hs
  | setState state =>
    simp only [Harts.step] at hs
    split at hs
    case _ t hcurrent =>
      split_ifs at hs with hok
      cases hs
      refine h.setState (fun c' hc' => ?_) fun hout => absurd hcurrent (hout c)
      rw [h.once c' c t hc' hcurrent]
      exact hok.2
    case _ => cases hs
  | wake t =>
    simp only [Harts.step] at hs
    split_ifs at hs with hok
    obtain ⟨-, howner, hstate⟩ := hok
    cases hs
    refine h.setState (fun c' hc' => ?_) fun hout _ => ⟨hout, .inr hstate⟩
    exact (h.runs c' t hc').resolve_left (by rw [hstate]; exact TaskState.noConfusion)
  | reap t =>
    simp only [Harts.step] at hs
    split_ifs at hs with hok
    obtain ⟨-, howner, hstate, hself⟩ := hok
    cases hs
    refine h.setState (fun c' hc' => ?_) fun _ hbad => ?_
    · exact (h.runs c' t hc').resolve_left (by rw [hstate]; exact TaskState.noConfusion)
    · rcases hbad with hbad | hbad <;> cases hbad
  | create t =>
    simp only [Harts.step] at hs
    split_ifs at hs with hok
    obtain ⟨-, howner, hstate, hself⟩ := hok
    cases hs
    exact h.create (h.not_elsewhere howner (by rw [hstate]; exact TaskState.noConfusion) hself)
  | sched =>
    simp only [Harts.step] at hs
    split at hs
    case _ t hcurrent =>
      split_ifs at hs with hok
      obtain ⟨hnone, -, hone, -, -⟩ := hok
      cases hs
      have hnoff := h.noff c
      rw [running_task hcurrent, hone] at hnoff
      refine h.leave hcurrent hnoff.symm (fun t' he => Function.update_of_ne he _ _)
        (fun t' he => Function.update_of_ne he _ _) fun _ => ⟨fun b hbegan => ?_, ?_⟩
      · have hold := h.began c t b hcurrent hbegan
        rw [kept, hnone, if_neg Inside.noConfusion] at hold
        rw [Function.update_self]
        exact hold
      · exact Function.update_self _ _ _
    case _ => cases hs
  | exit =>
    simp only [Harts.step] at hs
    split at hs
    case _ t hcurrent =>
      split_ifs at hs with hok
      obtain ⟨hnone, -, hstate, hone⟩ := hok
      cases hs
      refine h.leave hcurrent hone (fun _ _ => rfl) (fun _ _ => rfl) fun hback => ?_
      rw [hstate] at hback
      rcases hback with hbad | hbad <;> cases hbad
    case _ => cases hs
  | dispatch t =>
    simp only [Harts.step] at hs
    split_ifs at hs with hok
    obtain ⟨hidle, -, howner, hstate, hone⟩ := hok
    cases hs
    exact h.dispatch hidle howner hstate hone
  | restore =>
    simp only [Harts.step] at hs
    split at hs
    case _ t hcurrent =>
      split_ifs at hs with hinside
      cases hs
      refine h.setCpu (x := { m.cpu c with intena := m.saved t, inside := .none }) rfl rfl
        (h.off c) h.runs ?_
      intro t' b hcurrent' hbegan
      have hold := h.began c t' b hcurrent' hbegan
      rw [hcurrent] at hcurrent'
      cases hcurrent'
      rw [kept, if_pos hinside] at hold
      exact hold
    case _ => cases hs

end Harts

/-- In every state that any number of tasks reach on any number of CPUs, `noff` is the number
of `push_off` calls that the running code has not matched, interrupts are off while it is
positive, and the end of an outermost section that a task began itself leaves the flag as it
was where the task began it, on whatever CPU. -/
theorem interrupts_kept (m : Harts) (hr : Reached Harts.step anyStep hartsInit m) :
    (∀ c, (m.cpu c).noff = m.unmatched (m.running c)) ∧
    (∀ c, 0 < (m.cpu c).noff → (m.cpu c).intr = false) ∧
    ∀ c t b m', m.running c = .task t → m.began t = some b → m.step (c, .popOff) = some m' →
      m'.unmatched (.task t) = 0 → (m'.cpu c).intr = b := by
  have h : m.Booked := by
    apply hr.invariant .init
    rintro _ ⟨c, op⟩ _ hb - hs
    exact hb.step hs
  refine ⟨h.noff, h.off, fun c t b m' hrunning hbegan hs hend => ?_⟩
  simp only [Harts.step] at hs
  split_ifs at hs with hinside
  exact h.popOff_intr hinside hs (Harts.Booked.running_eq_task hrunning) hbegan hend

/-- A task that goes to sleep on CPU 0 with interrupts on and is woken by CPU 1, up to the
end of its section there. -/
def sleeperActs : List (ℕ × HartOp) :=
  [(0, .lock (.task 0)), (0, .acquire), (0, .create 0), (0, .unlock (.task 0)), (0, .popOff),
    (0, .setIntr true), (0, .lock (.task 0)), (0, .acquire), (0, .dispatch 0),
    (0, .unlock (.task 0)), (0, .popOff),
    (0, .lock (.other 7)), (0, .acquire), (0, .lock (.task 0)), (0, .acquire),
    (0, .setState .SLEEPING), (0, .unlock (.other 7)), (0, .popOff), (0, .sched),
    (0, .unlock (.task 0)), (0, .popOff),
    (1, .lock (.task 0)), (1, .acquire), (1, .wake 0), (1, .dispatch 0), (1, .restore),
    (1, .unlock (.task 0))]

theorem interrupts_kept_sleeper : ∃ m m', Reached Harts.step anyStep hartsInit m ∧
    m.step (1, .popOff) = some m' ∧ (m.cpu 1).intr = false ∧ (m'.cpu 1).intr = true := by
  have hrun : (after Harts.step anyStep hartsInit sleeperActs).map
      (fun m => (m.running 1, m.began 0, (m.cpu 1).intr,
        (m.step (1, .popOff)).map fun m' => m'.unmatched (.task 0))) =
          some (.task 0, some true, false, some 0) := by decide
  obtain ⟨m, hm, hfacts⟩ := Option.map_eq_some_iff.mp hrun
  obtain ⟨hrunning, hbegan, hintr, hstep⟩ : m.running 1 = .task 0 ∧ m.began 0 = some true ∧
      (m.cpu 1).intr = false ∧
        (m.step (1, .popOff)).map (fun m' => m'.unmatched (.task 0)) = some 0 := by
    simpa using hfacts
  obtain ⟨m', hm', hend⟩ := Option.map_eq_some_iff.mp hstep
  have hr := reached_after hm
  exact ⟨m, m', hr, hm', hintr,
    (interrupts_kept m hr).2.2 1 0 true m' hrunning hbegan hm' hend⟩

end Zrhos.Proc
