import Zrhos.Sched.Model

/-! The discipline that the code of `proc.c` and `lock.c` keeps, as a check of lists of
instructions against what the code knows at each point: the locks that it holds, and what
it has done to its own task and to the one that it looks at. -/
namespace Zrhos.Sched
open Sync

/-- What a piece of code knows. `own`, `chan`, `token` and `waits` are fields of its own
task; `queued` is the semaphore where it has enqueued itself and is not asleep yet; `known`
is the state of a task whose lock it holds; `popped` is the task that `lm_V` is about to
wake, and `target` the parent that an exiting task is about to signal. -/
@[ext] structure View where
  held : List Lock := []
  own : TaskState := .RUNNING
  chan : Option ℕ := none
  token : Option ℕ := none
  waits : Option Cond := none
  queued : Option Sem := none
  known : Option (ℕ × TaskState) := none
  popped : Option ℕ := none
  target : Option ℕ := none

namespace View

/-- Nothing is under way but for the locks. -/
def plain (token : Option ℕ) (held : List Lock) : View := { held := held, token := token }

/-- What a view says is consistent, and rests on locks that are held. -/
structure Ok (me : Option ℕ) (v : View) : Prop where
  nodup : v.held.Nodup
  calm : v.held = [] → v = plain v.token []
  off : v.own ≠ .RUNNING → ∃ t, me = some t ∧ .task t ∈ v.held
  live : v.own ≠ .DEAD ∧ v.own ≠ .USED
  known : ∀ i state, v.known = some (i, state) →
    .task i ∈ v.held ∧ (state = .ZOMBIE ∨ state = .USED)
  waits : ∀ q, v.waits = some q →
    ∃ t, me = some t ∧ (.other q.lk ∈ v.held ∨ .task t ∈ v.held)
  queued : ∀ s, v.queued = some s → .sem s ∈ v.held
  target : ∀ q, v.target = some q → .wait ∈ v.held
  sons : ∀ q, .sem (.sons q) ∈ v.held → me = some q ∨ v.target = some q

/-- The least rank in the lock order that a lock can have that the code holds. -/
def least (me : Option ℕ) (v : View) : Lock → ℕ
  | .sem _ => 1
  | .wait => 2
  | .other _ => 4
  | .task t =>
    if (me = some t ∧ v.own = .ZOMBIE) ∨ v.known = some (t, .ZOMBIE) then 3 else 0

/-- The highest rank in the lock order that a lock can have that the code asks for. -/
def most (me : Option ℕ) (v : View) : Lock → ℕ
  | .sem _ => 1
  | .wait => 2
  | .other _ => 4
  | .task t => if (me = some t ∧ v.own ≠ .ZOMBIE) ∨ v.popped = some t then 0 else 3

end View

/-- In `exit`, with or without `wait_lock`. -/
def View.exiting (held : List Lock) : View := { held := held, own := .ZOMBIE }

/-- The locks under which `lm_V` may be called on a semaphore. -/
structure View.Signals (me : Option ℕ) (v : View) (s : Sem) : Prop where
  ok : v.Ok me
  queued : v.queued = none
  known : v.known = none
  popped : v.popped = none
  free : .sem s ∉ v.held
  rank : ∀ h ∈ v.held, 1 < v.least me h
  sons : ∀ q, s = .sons q → me = some q ∨ v.target = some q

/-- What the code knows once an instruction and all that it stands for is done. -/
def Instr.next (v : View) : Instr → View
  | .lock l => { v with held := l :: v.held }
  | .unlock l =>
    { v with
      held := v.held.erase l
      known := none
      target := match l with
        | .sem _ => none
        | _ => v.target }
  | .setState _ state => { v with own := state, queued := none }
  | .sched _ => { v with own := .RUNNING, waits := none }
  | .goToSleep _ chan => { v with own := .SLEEPING, chan := some chan }
  | .tidy _ => { v with chan := none }
  | .down t s =>
    { v with held := [], token := if s = .sons t then some 0 else v.token }
  | .up s _ => { v with held := v.held.erase (.sem s), target := none }
  | .wake _ _ => { v with popped := none }
  | .zombie _ _ => { v with own := .ZOMBIE }
  | .waitScan _ _ _ => .plain none []
  | .waitCheck _ _ _ => .plain none []
  | .reap _ _ _ => .plain none []
  | .forkScan _ _ => .plain v.token []
  | .forkCheck _ _ => .plain v.token []
  | .forkFill _ _ => { v with known := none }
  | .killScan _ _ => .plain v.token []
  | .killCheck _ _ => .plain v.token []
  | _ => v

/-- When the code of task `me`, or of a scheduler, may come to an instruction. -/
def Instr.Allowed (me : Option ℕ) (v : View) : Instr → Prop
  | .lock l => (∀ h ∈ v.held, v.most me l < v.least me h) ∧
      ∀ q, l = .sem (.sons q) → me = some q ∨ v.target = some q
  | .unlock l => l ∈ v.held ∧ v.queued = none ∧ v.popped = none
  | .setState t state => me = some t ∧ .task t ∈ v.held ∧ v.own = .RUNNING ∧ v.chan = none ∧
      ((state = .RUNNABLE ∧ v.queued = none) ∨
        (state = .SLEEPING ∧ ∃ s, v.queued = some s ∧ (v.token ≠ none → s = .sons t)))
  | .sched t => me = some t ∧ v.held = [.task t] ∧ v.own ≠ .RUNNING ∧ v.own ≠ .ZOMBIE ∧
      v.queued = none ∧ v.known = none ∧ v.popped = none ∧ v.target = none ∧
      ∀ q, v.waits = some q → v.own = .SLEEPING ∧ v.chan = some q.chan
  | .swtch t => me = some t ∧ v = .exiting [.task t]
  | .goToSleep t chan => me = some t ∧ v.held = [.task t] ∧ v.own = .RUNNING ∧
      v.chan = none ∧ v.token = none ∧ ∃ lk, v.waits = some ⟨lk, chan⟩
  | .tidy t => me = some t ∧ .task t ∈ v.held ∧ v.own = .RUNNING
  | .wakeIf t _ => .task t ∈ v.held ∧ me ≠ some t
  | .down t s => me = some t ∧ v = .plain none [.sem s] ∧ ∀ q, s = .sons q → q = t
  | .up s _ => ∃ w : View, w.Signals me s ∧ v = { w with held := .sem s :: w.held }
  | .wake t _ => v.popped = some t ∧ .task t ∈ v.held ∧ me ≠ some t
  | .zombie t _ => me = some t ∧ v = .plain none [.task t]
  | .signalParent t => me = some t ∧ v = .exiting [.wait, .task t]
  | .adopt t _ => me = some t ∧ v = .exiting [.wait, .task t]
  | .waitScan t _ i => me = some t ∧ v = .plain (some i) []
  | .waitCheck t _ i => me = some t ∧ v = .plain (some i) [.task i]
  | .reap t _ i => me = some t ∧
      v = { held := [.wait, .task i], token := some i, known := some (i, .ZOMBIE) }
  | .forkScan t _ => me = some t ∧ v = .plain none []
  | .forkCheck t i => me = some t ∧ v = .plain none [.task i] ∧ i < NTASK
  | .forkFill t i => me = some t ∧
      v = { held := [.task i], known := some (i, .USED) }
  | .killScan _ _ => me ≠ none ∧ v = .plain none []
  | .killCheck _ i => me ≠ none ∧ v = .plain none [.task i]
  | .timer => v = .plain v.token []
  | .await t q => me = some t ∧ v = .plain none [.other q.lk]
  | .raise myt q => me = myt ∧ v = .plain v.token [.other q.lk]
  | .lower q => v = .plain v.token [.other q.lk]
  | .scan _ | .pick _ | .setCurrent _ | .enter _ => False

/-- The code keeps the discipline to its end: a task goes back to user space, and a
scheduler goes on for ever. -/
def Does (me : Option ℕ) : View → List Instr → Prop
  | v, [] => me ≠ none ∧ v = .plain none []
  | v, .scan _ :: k => me = none ∧ v = .plain none [] ∧ k = []
  | v, .pick t :: k => me = none ∧ v = .plain none [.task t] ∧
      k = [.unlock (.task t), .scan (t + 1)]
  | v, .swtch t :: k => v.Ok me ∧ (Instr.swtch t).Allowed me v ∧ k = []
  | v, .zombie t status :: k => v.Ok me ∧ (Instr.zombie t status).Allowed me v ∧
      k = exitRest t ∧ Does me ((Instr.zombie t status).next v) k
  | v, i :: k => v.Ok me ∧ i.Allowed me v ∧ Does me (i.next v) k

/-! ### The functions keep it -/

variable {me : Option ℕ} {v : View} {k : List Instr} {t : ℕ} {token : Option ℕ}
  {held : List Lock}

theorem View.ok_plain (hnd : held.Nodup) (hsons : ∀ q, .sem (.sons q) ∈ held → me = some q) :
    (View.plain token held).Ok me where
  nodup := hnd
  calm h := by
    have h : held = [] := h
    rw [h]
    rfl
  off h := absurd rfl h
  live := ⟨TaskState.noConfusion, TaskState.noConfusion⟩
  known i state h := by cases h
  waits q h := by cases h
  queued s h := by cases h
  target q h := by cases h
  sons q h := .inl (hsons q h)

theorem View.Ok.hold (h : v.Ok me) {l : Lock} (hl : l ∉ v.held)
    (hs : ∀ q, l = .sem (.sons q) → me = some q ∨ v.target = some q) :
    ({ v with held := l :: v.held }).Ok me where
  nodup := List.nodup_cons.mpr ⟨hl, h.nodup⟩
  calm he := absurd he (List.cons_ne_nil _ _)
  off ho := by
    obtain ⟨t, ht, hmem⟩ := h.off ho
    exact ⟨t, ht, List.mem_cons_of_mem _ hmem⟩
  live := h.live
  known i state hk := (h.known i state hk).imp_left (List.mem_cons_of_mem _)
  waits q hq := by
    obtain ⟨t, ht, hmem⟩ := h.waits q hq
    exact ⟨t, ht, hmem.imp (List.mem_cons_of_mem _) (List.mem_cons_of_mem _)⟩
  queued s hq := List.mem_cons_of_mem _ (h.queued s hq)
  target q hq := List.mem_cons_of_mem _ (h.target q hq)
  sons q hq := by
    rcases List.mem_cons.mp hq with hq | hq
    · exact hs q hq.symm
    · exact h.sons q hq

/-- What `lm_V` has taken off the queue does not matter to the locks. -/
theorem View.Ok.pop (h : v.Ok me) (hheld : v.held ≠ []) (u : Option ℕ) :
    ({ v with popped := u }).Ok me where
  nodup := h.nodup
  calm he := absurd he hheld
  off := h.off
  live := h.live
  known := h.known
  waits := h.waits
  queued := h.queued
  target := h.target
  sons := h.sons

/-- The locks under which a loop over the tasks may run. -/
def View.Outer (held : List Lock) : Prop := held = [] ∨ ∃ n, held = [.other n]

theorem View.Outer.rank (h : Outer held) {l : Lock} (hl : l ∈ held) : ∃ n, l = .other n := by
  rcases h with rfl | ⟨n, rfl⟩
  · cases hl
  · exact ⟨n, List.mem_singleton.mp hl⟩

theorem View.Outer.ok (h : Outer held) : (View.plain token held).Ok me := by
  apply ok_plain
  · rcases h with rfl | ⟨n, rfl⟩
    · exact List.nodup_nil
    · exact List.nodup_singleton _
  · intro q hq
    obtain ⟨n, hn⟩ := h.rank hq
    cases hn

theorem View.Outer.ok_task (h : Outer held) {i : ℕ} :
    (View.plain token (.task i :: held)).Ok me := by
  apply ok_plain
  · rcases h with rfl | ⟨n, rfl⟩
    · exact List.nodup_singleton _
    · simp
  · intro q hq
    rcases List.mem_cons.mp hq with hq | hq
    · cases hq
    · obtain ⟨n, hn⟩ := h.rank hq
      cases hn

/-- The lock of a task may be taken under a spinlock of a condition. -/
theorem View.Outer.allowed (h : Outer v.held) (i : ℕ) :
    (Instr.lock (.task i)).Allowed me v := by
  refine ⟨fun l hl => ?_, fun q hq => by cases hq⟩
  obtain ⟨n, rfl⟩ := h.rank hl
  simp only [View.most, View.least]
  split_ifs <;> omega

theorem Does.ok (h : Does me v k) : v.Ok me := by
  have hnone : View.Outer [] := .inl rfl
  cases k with
  | nil =>
    rw [h.2]
    exact hnone.ok
  | cons i k =>
    cases i with
    | scan _ =>
      rw [h.2.1]
      exact hnone.ok
    | pick _ =>
      rw [h.2.1]
      exact hnone.ok_task
    | _ => exact h.1

/-- The instructions that the check does not single out. -/
def Instr.Regular : Instr → Prop
  | .scan _ | .pick _ | .swtch _ | .zombie _ _ | .setCurrent _ | .enter _ => False
  | _ => True

theorem Does.cons {i : Instr} {w : View} (hr : i.Regular) (hok : v.Ok me)
    (ha : i.Allowed me v) (hw : i.next v = w) (hk : Does me w k) : Does me v (i :: k) := by
  subst hw
  cases i with
  | scan _ => exact hr.elim
  | pick _ => exact hr.elim
  | swtch _ => exact hr.elim
  | zombie _ _ => exact hr.elim
  | setCurrent _ => exact hr.elim
  | enter _ => exact hr.elim
  | _ => exact ⟨hok, ha, hk⟩

theorem Does.head {i : Instr} (h : Does me v (i :: k)) (hr : i.Regular) :
    v.Ok me ∧ i.Allowed me v ∧ Does me (i.next v) k := by
  cases i with
  | scan _ => exact hr.elim
  | pick _ => exact hr.elim
  | swtch _ => exact hr.elim
  | zombie _ _ => exact hr.elim
  | setCurrent _ => exact hr.elim
  | enter _ => exact hr.elim
  | _ => exact h

/-- A lock is released that was taken last, with nothing else under way. -/
theorem Does.unlock {l : Lock} (hok : (View.plain token (l :: held)).Ok me)
    (hk : Does me (.plain token held) k) :
    Does me (.plain token (l :: held)) (.unlock l :: k) := by
  have hnext : (Instr.unlock l).next (.plain token (l :: held)) = .plain token held := by
    cases l <;> simp [Instr.next, View.plain]
  exact Does.cons trivial hok ⟨List.mem_cons_self, rfl, rfl⟩ hnext hk

theorem does_wakeupRounds (h : View.Outer held) (chan : ℕ)
    (hk : Does me (.plain token held) k) (l : List ℕ) :
    Does me (.plain token held) (l.flatMap (wakeupRound me chan) ++ k) := by
  induction l with
  | nil => exact hk
  | cons i l ih =>
    rw [List.flatMap_cons, List.append_assoc]
    by_cases hi : some i = me
    · rw [wakeupRound, if_pos hi]
      exact ih
    · rw [wakeupRound, if_neg hi]
      refine Does.cons trivial h.ok (h.allowed i) rfl ?_
      refine Does.cons trivial h.ok_task ⟨List.mem_cons_self, fun he => hi he.symm⟩ rfl ?_
      exact Does.unlock h.ok_task ih

theorem does_wakeup (h : View.Outer held) (chan : ℕ)
    (hk : Does me (.plain token held) k) :
    Does me (.plain token held) (wakeup me chan ++ k) := by
  unfold wakeup
  exact does_wakeupRounds h chan hk _

theorem does_yield (hk : Does (some t) (.plain token []) k) :
    Does (some t) (.plain token []) (yield t ++ k) := by
  have houter : View.Outer [] := .inl rfl
  have hoff : View.Ok (some t) { held := [.task t], own := .RUNNABLE, token := token } := by
    constructor <;> simp
  refine Does.cons trivial houter.ok (houter.allowed t) rfl ?_
  refine Does.cons trivial houter.ok_task
    ⟨rfl, List.mem_cons_self, rfl, rfl, .inl ⟨rfl, rfl⟩⟩ rfl ?_
  refine Does.cons trivial hoff
    ⟨rfl, rfl, TaskState.noConfusion, TaskState.noConfusion, rfl, rfl, rfl, rfl,
      fun q hq => by cases hq⟩ rfl ?_
  exact Does.unlock houter.ok_task hk

theorem does_sleep {chan lk : ℕ} (hk : Does (some t) (.plain none [.other lk]) k) :
    Does (some t) { held := [.other lk], waits := some ⟨lk, chan⟩ } (sleep t chan lk ++ k) := by
  have hbefore : View.Ok (some t) { held := [.other lk], waits := some ⟨lk, chan⟩ } := by
    constructor <;> simp
  have hboth : View.Ok (some t) { held := [.task t, .other lk], waits := some ⟨lk, chan⟩ } := by
    constructor <;> simp
  have hself : View.Ok (some t) { held := [.task t], waits := some ⟨lk, chan⟩ } := by
    constructor <;> simp
  have hoff : View.Ok (some t)
      { held := [.task t], own := .SLEEPING, chan := some chan, waits := some ⟨lk, chan⟩ } := by
    constructor <;> simp
  have hwoken : View.Ok (some t) { held := [.task t], chan := some chan } := by
    constructor <;> simp
  have hnone : View.Outer [] := .inl rfl
  have houter : View.Outer [.other lk] := .inr ⟨lk, rfl⟩
  have hrelease : (Instr.unlock (.other lk)).next
      { held := [.task t, .other lk], waits := some ⟨lk, chan⟩ } =
        { held := [.task t], waits := some ⟨lk, chan⟩ } := by
    simp [Instr.next]
  refine Does.cons trivial hbefore (houter.allowed t) rfl ?_
  refine Does.cons trivial hboth
    ⟨List.mem_cons_of_mem _ List.mem_cons_self, rfl, rfl⟩ hrelease ?_
  refine Does.cons trivial hself ⟨rfl, rfl, rfl, rfl, rfl, lk, rfl⟩ rfl ?_
  refine Does.cons trivial hoff
    ⟨rfl, rfl, TaskState.noConfusion, TaskState.noConfusion, rfl, rfl, rfl, rfl,
      fun q hq => by cases hq; exact ⟨rfl, rfl⟩⟩ rfl ?_
  refine Does.cons trivial hwoken ⟨rfl, List.mem_cons_self, rfl⟩ rfl ?_
  apply Does.unlock hnone.ok_task
  exact Does.cons trivial hnone.ok ⟨by simp [View.plain], fun q hq => by cases hq⟩ rfl hk

theorem does_lmP {s : Sem} (hs : ∀ q, s = .sons q → q = t)
    (hk : Does (some t) (.plain (if s = .sons t then some 0 else none) []) k) :
    Does (some t) (.plain none []) (lmP t s ++ k) := by
  have hnone : View.Outer [] := .inl rfl
  have hsons : ∀ q, Lock.sem s = .sem (.sons q) → some t = some q := by
    intro q hq
    rw [hs q (Lock.sem.inj hq)]
  have hsem : (View.plain none [.sem s]).Ok (some t) := by
    apply View.ok_plain (List.nodup_singleton _)
    intro q hq
    exact hsons q (List.mem_singleton.mp hq).symm
  refine Does.cons trivial hnone.ok ⟨by simp [View.plain], fun q hq => .inl (hsons q hq)⟩ rfl ?_
  exact Does.cons trivial hsem ⟨rfl, rfl, hs⟩ rfl hk

/-- The semaphore has been counted down, and the task stands in the queue. -/
theorem does_lmPSleep {s : Sem} (hs : ∀ q, s = .sons q → q = t)
    (htoken : token ≠ none → s = .sons t) (hk : Does (some t) (.plain token []) k) :
    Does (some t) { held := [.sem s], token := token, queued := some s } (lmPSleep t s ++ k) := by
  have hsons : ∀ q, Sem.sons q = s → t = q := fun q hq => (hs q hq.symm).symm
  have hsem : View.Ok (some t) { held := [.sem s], token := token, queued := some s } := by
    constructor <;> simp
    exact hsons
  have hboth : View.Ok (some t)
      { held := [.task t, .sem s], token := token, queued := some s } := by
    constructor <;> simp
    exact hsons
  have hoff : View.Ok (some t)
      { held := [.task t, .sem s], own := .SLEEPING, token := token } := by
    constructor <;> simp
    exact hsons
  have hself : View.Ok (some t) { held := [.task t], own := .SLEEPING, token := token } := by
    constructor <;> simp
  have hnone : View.Outer [] := .inl rfl
  have hrelease : (Instr.unlock (.sem s)).next
      { held := [.task t, .sem s], own := .SLEEPING, token := token } =
        { held := [.task t], own := .SLEEPING, token := token } := by
    simp [Instr.next]
  refine Does.cons trivial hsem
    ⟨by simp [View.most, View.least], fun q hq => by cases hq⟩ rfl ?_
  refine Does.cons trivial hboth
    ⟨rfl, List.mem_cons_self, rfl, rfl, .inr ⟨rfl, s, rfl, htoken⟩⟩ rfl ?_
  refine Does.cons trivial hoff
    ⟨List.mem_cons_of_mem _ List.mem_cons_self, rfl, rfl⟩ hrelease ?_
  refine Does.cons trivial hself
    ⟨rfl, rfl, TaskState.noConfusion, TaskState.noConfusion, rfl, rfl, rfl, rfl,
      fun q hq => by cases hq⟩ rfl ?_
  exact Does.unlock hnone.ok_task hk

theorem View.Signals.hold {s : Sem} (h : v.Signals me s) :
    ({ v with held := .sem s :: v.held }).Ok me :=
  h.ok.hold h.free fun q hq => h.sons q (Lock.sem.inj hq)

theorem does_lmV {s : Sem} (h : v.Signals me s) (p : Option ℕ)
    (hk : Does me { v with target := none } k) : Does me v (lmV s p ++ k) := by
  have hdone : (Instr.up s p).next { v with held := .sem s :: v.held } =
      { v with target := none } := by
    simp [Instr.next]
  refine Does.cons trivial h.ok ⟨h.rank, fun q hq => h.sons q (Lock.sem.inj hq)⟩ rfl ?_
  exact Does.cons trivial h.hold ⟨v, h, rfl⟩ hdone hk

theorem does_unlockSem {s : Sem} (h : v.Signals me s) (hk : Does me { v with target := none } k) :
    Does me { v with held := .sem s :: v.held } (.unlock (.sem s) :: k) := by
  have hdone : (Instr.unlock (.sem s)).next { v with held := .sem s :: v.held } =
      { v with target := none } := by
    simp [Instr.next, h.known]
  exact Does.cons trivial h.hold ⟨List.mem_cons_self, h.queued, h.popped⟩ hdone hk

/-- The semaphore has been counted up, and `u` taken off the queue. -/
theorem does_lmVWake {s : Sem} (h : v.Signals me s) {u : ℕ} (hu : .task u ∉ v.held)
    (hme : me ≠ some u) (p : Option ℕ) (hk : Does me { v with target := none } k) :
    Does me { v with held := .sem s :: v.held, popped := some u } (lmVWake u s p ++ k) := by
  have hpop := h.hold.pop (List.cons_ne_nil _ _) (some u)
  have hu' : .task u ∉ .sem s :: v.held := by
    rw [List.mem_cons, not_or]
    exact ⟨Lock.noConfusion, hu⟩
  have hboth := hpop.hold hu' fun q hq => by cases hq
  have hwoken := hboth.pop (List.cons_ne_nil _ _) none
  have hopen : (Instr.unlock (.task u)).next
      { v with held := .task u :: .sem s :: v.held, popped := none } =
        { v with held := .sem s :: v.held } := by
    simp [Instr.next, h.known, ← h.popped]
  refine Does.cons trivial hpop ⟨fun l hl => ?_, fun q hq => by cases hq⟩ rfl ?_
  · rw [show View.most me _ (.task u) = 0 by simp [View.most]]
    rcases List.mem_cons.mp hl with rfl | hl
    · exact Nat.one_pos
    · exact lt_trans Nat.one_pos (h.rank l hl)
  refine Does.cons trivial hboth ⟨rfl, List.mem_cons_self, hme⟩ rfl ?_
  refine Does.cons trivial hwoken ⟨List.mem_cons_self, h.queued, rfl⟩ hopen ?_
  exact does_unlockSem h hk

/-! ### `exit`, `sys_wait`, `sys_fork` and `sys_kill` -/

theorem View.ok_exiting (t : ℕ) : (exiting [.task t]).Ok (some t) := by
  constructor <;> simp [exiting]

theorem View.ok_exiting_wait (t : ℕ) : (exiting [.wait, .task t]).Ok (some t) := by
  constructor <;> simp [exiting]

theorem does_adopts (hk : Does (some t) (.exiting [.wait, .task t]) k) (l : List ℕ) :
    Does (some t) (.exiting [.wait, .task t]) (l.map (.adopt t) ++ k) := by
  induction l with
  | nil => exact hk
  | cons p l ih => exact Does.cons trivial (View.ok_exiting_wait t) ⟨rfl, rfl⟩ rfl ih

theorem does_reparent (hk : Does (some t) (.exiting [.wait, .task t]) k) :
    Does (some t) (.exiting [.wait, .task t]) (reparent t ++ k) := by
  unfold reparent
  exact does_adopts hk _

theorem does_exitRest : Does (some t) (.exiting [.task t]) (exitRest t) := by
  have hrelease : (Instr.unlock .wait).next (.exiting [.wait, .task t]) =
      .exiting [.task t] := by
    simp [Instr.next, View.exiting]
  have hwait : (Instr.lock .wait).Allowed (some t) (.exiting [.task t]) :=
    ⟨by simp [View.exiting, View.most, View.least], fun q hq => by cases hq⟩
  rw [exitRest]
  refine Does.cons trivial (View.ok_exiting t) hwait rfl ?_
  refine Does.cons trivial (View.ok_exiting_wait t) ⟨rfl, rfl⟩ rfl ?_
  apply does_reparent
  refine Does.cons trivial (View.ok_exiting_wait t) ⟨List.mem_cons_self, rfl, rfl⟩ hrelease ?_
  exact ⟨View.ok_exiting t, ⟨rfl, rfl⟩, rfl⟩

theorem does_exit (status : BitVec 32) :
    Does (some t) (.plain none []) (exit t status) := by
  have hnone : View.Outer [] := .inl rfl
  rw [exit]
  refine Does.cons trivial hnone.ok (hnone.allowed t) rfl ?_
  exact ⟨hnone.ok_task, ⟨rfl, rfl⟩, rfl, does_exitRest⟩

/-- An exiting task signals its own parent, or the first task. -/
theorem View.signals_exiting (t q : ℕ) :
    ({ View.exiting [.wait, .task t] with target := some q }).Signals (some t) (.sons q) := by
  constructor
  case ok => constructor <;> simp [exiting]
  case queued => rfl
  case known => rfl
  case popped => rfl
  case free => simp [exiting]
  case rank => simp [exiting, least]
  case sons =>
    intro q' hq
    cases hq
    exact .inr rfl

theorem View.signals_plain (n : ℕ) : (View.plain none []).Signals me (.other n) := by
  constructor
  case ok => exact Outer.ok (.inl rfl)
  case queued => rfl
  case known => rfl
  case popped => rfl
  case free => simp [plain]
  case rank => simp [plain]
  case sons =>
    intro q hq
    cases hq

theorem does_sysWait (status : ℕ) (hk : Does (some t) (.plain none []) k) :
    Does (some t) (.plain none []) (sysWait t status ++ k) := by
  have hnone : View.Outer [] := .inl rfl
  rw [sysWait, List.append_assoc]
  apply does_lmP
  · intro q hq
    exact (Sem.sons.inj hq).symm
  · rw [if_pos rfl]
    exact Does.cons trivial hnone.ok ⟨rfl, rfl⟩ rfl hk

theorem does_waitScan {status p : ℕ} (hk : Does (some t) (.plain none []) k) :
    Does (some t) (.plain (some p) []) (.waitScan t status p :: k) :=
  Does.cons trivial (View.Outer.ok (.inl rfl)) ⟨rfl, rfl⟩ rfl hk

theorem does_waitRound {status p : ℕ} (hk : Does (some t) (.plain none []) k) :
    Does (some t) (.plain (some p) []) (.lock (.task p) :: .waitCheck t status p :: k) := by
  have hnone : View.Outer [] := .inl rfl
  refine Does.cons trivial hnone.ok (hnone.allowed p) rfl ?_
  exact Does.cons trivial hnone.ok_task ⟨rfl, rfl⟩ rfl hk

theorem does_waitZombie {status p : ℕ} (hk : Does (some t) (.plain none []) k) :
    Does (some t) { held := [.task p], token := some p, known := some (p, .ZOMBIE) }
      (.lock .wait :: .reap t status p :: k) := by
  have hzombie : View.Ok (some t)
      { held := [.task p], token := some p, known := some (p, .ZOMBIE) } := by
    constructor <;> simp
  have hboth : View.Ok (some t)
      { held := [.wait, .task p], token := some p, known := some (p, .ZOMBIE) } := by
    constructor <;> simp
  refine Does.cons trivial hzombie ⟨?_, fun q hq => by cases hq⟩ rfl ?_
  · simp [View.most, View.least]
  · exact Does.cons trivial hboth ⟨rfl, rfl⟩ rfl hk

/-- The two locks are given back after a look at a child. -/
theorem does_release {p : ℕ} (hk : Does me (.plain token []) k) :
    Does me (.plain token [.wait, .task p]) (.unlock .wait :: .unlock (.task p) :: k) := by
  have hboth : (View.plain token [.wait, .task p]).Ok me := by
    apply View.ok_plain
    · simp
    · intro q hq
      simp at hq
  apply Does.unlock hboth
  exact Does.unlock (View.Outer.ok_task (.inl rfl)) hk

theorem does_forkRound {nt : ℕ} (hnt : nt < NTASK) (hk : Does (some t) (.plain none []) k) :
    Does (some t) (.plain none []) (.lock (.task nt) :: .forkCheck t nt :: k) := by
  have hnone : View.Outer [] := .inl rfl
  refine Does.cons trivial hnone.ok (hnone.allowed nt) rfl ?_
  exact Does.cons trivial hnone.ok_task ⟨rfl, rfl, hnt⟩ rfl hk

theorem does_forkFill {nt : ℕ} (hk : Does (some t) (.plain none []) k) :
    Does (some t) { held := [.task nt], known := some (nt, .USED) }
      (.forkFill t nt :: .unlock (.task nt) :: k) := by
  have hused : View.Ok (some t) { held := [.task nt], known := some (nt, .USED) } := by
    constructor <;> simp
  refine Does.cons trivial hused ⟨rfl, rfl⟩ rfl ?_
  exact Does.unlock (View.Outer.ok_task (.inl rfl)) hk

theorem does_forkScan {nt : ℕ} (hk : Does (some t) (.plain none []) k) :
    Does (some t) (.plain none []) (.forkScan t nt :: k) :=
  Does.cons trivial (View.Outer.ok (.inl rfl)) ⟨rfl, rfl⟩ rfl hk

theorem does_killScan {pid : BitVec 32} {p : ℕ} (hk : Does (some t) (.plain none []) k) :
    Does (some t) (.plain none []) (.killScan pid p :: k) :=
  Does.cons trivial (View.Outer.ok (.inl rfl)) ⟨Option.some_ne_none t, rfl⟩ rfl hk

theorem does_killRound {pid : BitVec 32} {p : ℕ} (hk : Does (some t) (.plain none []) k) :
    Does (some t) (.plain none []) (.lock (.task p) :: .killCheck pid p :: k) := by
  have hnone : View.Outer [] := .inl rfl
  refine Does.cons trivial hnone.ok (hnone.allowed p) rfl ?_
  exact Does.cons trivial hnone.ok_task ⟨Option.some_ne_none t, rfl⟩ rfl hk

/-! ### Critical sections, handlers and the scheduler -/

theorem does_op {l : ℕ} {op : CondOp}
    (hop : op.sleeps = true → token = none ∧ ∃ t, me = some t)
    (hk : Does me (.plain token [.other l]) k) :
    Does me (.plain token [.other l]) (op.code me l ++ k) := by
  have houter : View.Outer [.other l] := .inr ⟨l, rfl⟩
  cases op with
  | await chan =>
    obtain ⟨rfl, t, rfl⟩ := hop rfl
    exact Does.cons trivial houter.ok ⟨rfl, rfl⟩ rfl hk
  | raise chan => exact Does.cons trivial houter.ok ⟨rfl, rfl⟩ rfl hk
  | lower chan => exact Does.cons trivial houter.ok rfl rfl hk

theorem does_criticalSection {l : ℕ} {ops : List CondOp}
    (hops : ∀ op ∈ ops, op.sleeps = true → token = none ∧ ∃ t, me = some t)
    (hk : Does me (.plain token []) k) :
    Does me (.plain token []) (criticalSection me l ops ++ k) := by
  have hnone : View.Outer [] := .inl rfl
  have houter : View.Outer [.other l] := .inr ⟨l, rfl⟩
  rw [criticalSection, List.cons_append, List.append_assoc]
  refine Does.cons (w := .plain token [.other l]) trivial hnone.ok
    ⟨by simp [View.plain], fun q hq => by cases hq⟩ rfl ?_
  have hend : Does me (.plain token [.other l]) ([.unlock (.other l)] ++ k) :=
    Does.unlock houter.ok hk
  induction ops with
  | nil => exact hend
  | cons op ops ih =>
    rw [List.flatMap_cons, List.append_assoc]
    apply does_op (hops op List.mem_cons_self)
    exact ih fun op' hop' => hops op' (List.mem_cons_of_mem _ hop')

/-- A call from user space. -/
theorem does_call (op : Op) : Does (some t) (.plain none []) (op.code t) := by
  have hend : Does (some t) (.plain none []) [] := ⟨Option.some_ne_none t, rfl⟩
  rw [← List.append_nil (op.code t)]
  cases op with
  | fork => exact does_forkScan hend
  | exit status =>
    rw [List.append_nil, Op.code]
    exact does_exit status
  | wait status => exact does_sysWait status hend
  | kill pid => exact does_killScan hend
  | P n =>
    apply does_lmP
    · intro q hq
      cases hq
    · rw [if_neg Sem.noConfusion]
      exact hend
  | V n => exact does_lmV (View.signals_plain n) none hend
  | underLock l ops =>
    apply does_criticalSection _ hend
    intro op _ _
    exact ⟨rfl, t, rfl⟩

/-- An interrupt, wherever no lock is held. -/
theorem does_interrupt {irq : Irq} (ha : irq.Awake) (c : ℕ) (hk : Does me (.plain token []) k) :
    Does me (.plain token []) (irq.code c me ++ k) := by
  have hnone : View.Outer [] := .inl rfl
  cases irq with
  | software =>
    have htimer : Does me (.plain token []) ([.timer] ++ k) :=
      Does.cons trivial hnone.ok rfl rfl hk
    rw [Irq.code, List.append_assoc]
    split_ifs
    · exact does_wakeup hnone ticks htimer
    · exact htimer
  | device l ops =>
    apply does_criticalSection _ hk
    intro op hop hsleeps
    rw [ha op hop] at hsleeps
    cases hsleeps

theorem does_scan (i : ℕ) : Does none (.plain none []) [.scan i] := ⟨rfl, rfl, rfl⟩

theorem does_back (i : ℕ) :
    Does none (.plain none [.task i]) [.unlock (.task i), .scan (i + 1)] :=
  Does.unlock (View.Outer.ok_task (.inl rfl)) (does_scan _)

theorem does_scanRound (i : ℕ) : Does none (.plain none [])
    [.lock (.task i), .pick i, .unlock (.task i), .scan (i + 1)] := by
  have hnone : View.Outer [] := .inl rfl
  exact Does.cons trivial hnone.ok (hnone.allowed i) rfl ⟨rfl, rfl, rfl⟩

end Zrhos.Sched
