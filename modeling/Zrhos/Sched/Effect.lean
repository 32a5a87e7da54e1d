import Zrhos.Sched.Family

/-! What one instruction changes, whatever the state: the registers and locks of its own
CPU, the code in front of what is left, and the fields of the tasks that it is about. -/
namespace Zrhos.Sched
open Sync

variable {k k' : Kernel} {mode : ℕ → Mode} {view : ℕ → View} {c c' t u p : ℕ} {m : Mode}
  {v : View} {i : Instr} {code rest : List Instr} {x y : Task} {s : Sem} {status n : ℕ}
  {l : Lock}

theorem startScan_task (k : Kernel) (t : ℕ) (s : Sem) :
    k.startScan t s = { k with task := (k.startScan t s).task } := by
  unfold Kernel.startScan
  split_ifs <;> rfl

theorem announce_task (k : Kernel) (p : Option ℕ) :
    k.announce p = { k with task := (k.announce p).task } := by
  cases p <;> rfl

/-! ### Registers and locks -/

theorem Local.lock (hfree : k.owner l = none) : Local k { k.goto c rest with
    owner := Function.update k.owner l (some c)
    noff := Function.update k.noff c n } c where
  code _ hne := Function.update_of_ne hne _ _
  current _ _ := rfl
  home _ _ := rfl
  noff _ hne := Function.update_of_ne hne _ _
  owner c' hne l' := by
    by_cases hl : l' = l
    · subst hl
      simp [hfree, hne.symm]
    · simp [hl]

theorem Local.unlock (howned : k.owner l = some c) : Local k { k.goto c rest with
    owner := Function.update k.owner l none
    noff := Function.update k.noff c n } c where
  code _ hne := Function.update_of_ne hne _ _
  current _ _ := rfl
  home _ _ := rfl
  noff _ hne := Function.update_of_ne hne _ _
  owner c' hne l' := by
    by_cases hl : l' = l
    · subst hl
      simp [howned, hne.symm]
    · simp [hl]

theorem Local.utaskCreate (hfree : ∀ c, k.owner (.sem (.sons u)) ≠ some c) :
    Local k ((k.goto c code).utaskCreate u) c where
  code _ hne := Function.update_of_ne hne _ _
  current _ _ := rfl
  home _ _ := rfl
  noff _ _ := rfl
  owner c' hne l' := by
    by_cases hl : l' = .sem (.sons u)
    · subst hl
      simp [Kernel.utaskCreate, hfree]
    · simp [Kernel.utaskCreate, hl, Kernel.goto, Kernel.setTask]

/-- The semaphore of a slot that is free has no holder: `hfree` is `Sound.sons_free`. -/
theorem perform_local (hs : k.perform c rest i = some k')
    (hfree : ∀ u, (k.task u).state = .DEAD → ∀ c, k.owner (.sem (.sons u)) ≠ some c) :
    Local k k' c := by
  cases i with
  | lock l =>
    simp only [Kernel.perform] at hs
    split_ifs at hs with hnone
    cases hs
    exact .lock hnone
  | unlock l =>
    simp only [Kernel.perform] at hs
    split_ifs at hs with howned
    cases hs
    exact .unlock howned.1
  | sched t =>
    simp only [Kernel.perform] at hs
    split_ifs at hs
    cases hs
    exact .leave
  | swtch t =>
    cases hs
    exact .leave
  | setCurrent o =>
    cases hs
    exact .setCurrent
  | enter t =>
    cases hs
    exact ⟨fun _ hne => Function.update_of_ne hne _ _, fun _ _ => rfl,
      fun _ hne => Function.update_of_ne hne _ _, fun _ _ => rfl, fun _ _ _ => Iff.rfl⟩
  | forkCheck t u =>
    simp only [Kernel.perform] at hs
    split_ifs at hs with hdead <;> cases hs
    · exact .utaskCreate (hfree u hdead)
    · exact (Quiet.goto _ k.cond).toLocal
  | down t s =>
    rw [Kernel.perform, startScan_task] at hs
    dsimp only at hs
    split_ifs at hs <;> cases hs <;>
      exact ⟨fun _ hne => Function.update_of_ne hne _ _, fun _ _ => rfl, fun _ _ => rfl,
        fun _ _ => rfl, fun _ _ _ => Iff.rfl⟩
  | up s p =>
    rw [Kernel.perform, announce_task] at hs
    dsimp only at hs
    repeat' split at hs
    all_goals cases hs
    all_goals exact ⟨fun _ hne => Function.update_of_ne hne _ _, fun _ _ => rfl,
      fun _ _ => rfl, fun _ _ => rfl, fun _ _ _ => Iff.rfl⟩
  | _ =>
    simp only [Kernel.perform] at hs
    repeat' split at hs
    all_goals cases hs
    all_goals exact ⟨fun _ hne => Function.update_of_ne hne _ _, fun _ _ => rfl,
      fun _ _ => rfl, fun _ _ => rfl, fun _ _ _ => Iff.rfl⟩

theorem perform_current (hs : k.perform c rest i = some k') (hi : ∀ o, i ≠ .setCurrent o) :
    k'.current = k.current := by
  cases i with
  | setCurrent o => exact (hi o rfl).elim
  | down t s =>
    rw [Kernel.perform, startScan_task] at hs
    dsimp only at hs
    split_ifs at hs <;> cases hs <;> rfl
  | up s p =>
    rw [Kernel.perform, announce_task] at hs
    dsimp only at hs
    repeat' split at hs
    all_goals cases hs
    all_goals rfl
  | _ =>
    simp only [Kernel.perform] at hs
    repeat' split at hs
    all_goals cases hs
    all_goals rfl

/-- A CPU keeps the code that other CPUs and tasks are to go on with. -/
theorem perform_context (hs : k.perform c rest i = some k')
    (hi : (∀ t, i ≠ .sched t) ∧ (∀ t, i ≠ .swtch t) ∧ ∀ t nt, i ≠ .forkCheck t nt) :
    k'.context = k.context := by
  cases i with
  | sched t => exact (hi.1 t rfl).elim
  | swtch t => exact (hi.2.1 t rfl).elim
  | forkCheck t nt => exact (hi.2.2 t nt rfl).elim
  | down t s =>
    rw [Kernel.perform, startScan_task] at hs
    dsimp only at hs
    split_ifs at hs <;> cases hs <;> rfl
  | up s p =>
    rw [Kernel.perform, announce_task] at hs
    dsimp only at hs
    repeat' split at hs
    all_goals cases hs
    all_goals rfl
  | _ =>
    simp only [Kernel.perform] at hs
    repeat' split at hs
    all_goals cases hs
    all_goals rfl

/-! ### Code -/

/-- The two ways from a task to its scheduler, and the way to a task. -/
def Instr.Switches : Instr → Prop
  | .sched _ | .swtch _ | .enter _ => True
  | _ => False

/-- The rest of the code comes after whatever an instruction stands for. -/
theorem perform_code (hs : k.perform c rest i = some k') (hi : ¬ i.Switches) :
    ∃ before, k'.code c = before ++ rest := by
  cases i with
  | sched t => exact (hi trivial).elim
  | swtch t => exact (hi trivial).elim
  | enter t => exact (hi trivial).elim
  | down t s =>
    rw [Kernel.perform, startScan_task] at hs
    dsimp only at hs
    split_ifs at hs <;> cases hs
    · exact ⟨lmPSleep t s, Kernel.goto_code _ _ _⟩
    · exact ⟨[.unlock (.sem s)], Kernel.goto_code _ _ _⟩
  | up s p =>
    rw [Kernel.perform, announce_task] at hs
    dsimp only at hs
    split_ifs at hs
    · split at hs <;> cases hs
      exact ⟨lmVWake _ s p, Kernel.goto_code _ _ _⟩
    · cases hs
      exact ⟨[.unlock (.sem s)], Kernel.goto_code _ _ _⟩
  | killCheck pid t =>
    simp only [Kernel.perform] at hs
    split_ifs at hs <;> cases hs
    · exact ⟨[.swtch t, .unlock (.task t)], Kernel.goto_code _ _ _⟩
    · exact ⟨[.unlock (.task t)], Kernel.goto_code _ _ _⟩
    · exact ⟨[.unlock (.task t), .killScan pid (t + 1)], Kernel.goto_code _ _ _⟩
  | await t q =>
    simp only [Kernel.perform] at hs
    split_ifs at hs <;> cases hs
    · exact ⟨[], Kernel.goto_code _ _ _⟩
    · refine ⟨sleep t q.chan q.lk ++ [.await t q], ?_⟩
      rw [List.append_assoc]
      exact Kernel.goto_code _ _ _
  | _ =>
    simp only [Kernel.perform] at hs
    repeat' split at hs
    all_goals cases hs
    all_goals first
      | exact ⟨[], Kernel.goto_code _ _ _⟩
      | exact ⟨[_], Kernel.goto_code _ _ _⟩
      | exact ⟨[_, _], Kernel.goto_code _ _ _⟩
      | exact ⟨[_, _, _], Kernel.goto_code _ _ _⟩
      | exact ⟨[_, _, _, _], Kernel.goto_code _ _ _⟩
      | exact ⟨_, Kernel.goto_code _ _ _⟩

/-! ### Tasks -/

/-- What holds of the task that is changed, and of one that is not, holds of all. -/
theorem setTask_rel (R : ℕ → Task → Task → Prop) (hrefl : ∀ u x, R u x x) (k : Kernel)
    (h : R t x (k.task t)) (u : ℕ) : R u ((k.setTask t x).task u) (k.task u) := by
  by_cases hu : u = t
  · subst hu
    rw [k.setTask_self]
    exact h
  · rw [k.setTask_of_ne x hu]
    exact hrefl u _

/-- A task that may have gone on, but has neither been made, nor exited, nor been freed, nor
got another parent. -/
structure Task.Stays (x y : Task) : Prop where
  parent : x.parent = y.parent
  dead : x.state = .DEAD → y.state = .DEAD
  used : x.state = .USED → y.state = .USED
  zombie : x.state = .ZOMBIE → y.state = .ZOMBIE

theorem Task.Stays.same (hparent : x.parent = y.parent) (hstate : x.state = y.state) :
    x.Stays y := by
  refine ⟨hparent, ?_, ?_, ?_⟩ <;>
  · rw [hstate]
    exact fun h => h

theorem Task.Stays.refl (x : Task) : x.Stays x := .same rfl rfl

/-- A task that runs, may run or sleeps. -/
theorem Task.Stays.alive (hparent : x.parent = y.parent)
    (hstate : x.state = .RUNNING ∨ x.state = .RUNNABLE ∨ x.state = .SLEEPING) : x.Stays y := by
  refine ⟨hparent, fun h => ?_, fun h => ?_, fun h => ?_⟩ <;>
  · rw [h] at hstate
    rcases hstate with hstate | hstate | hstate <;> cases hstate

theorem setTask_stays (k : Kernel) (h : x.Stays (k.task t)) (u : ℕ) :
    ((k.setTask t x).task u).Stays (k.task u) :=
  setTask_rel (fun _ => Task.Stays) (fun _ => .refl) k h u

theorem startScan_stays (k : Kernel) (t : ℕ) (s : Sem) (u : ℕ) :
    ((k.startScan t s).task u).Stays (k.task u) := by
  unfold Kernel.startScan
  split_ifs
  · refine setTask_stays _ ?_ u
    exact .same rfl rfl
  · exact .refl _

theorem announce_stays (k : Kernel) (p : Option ℕ) (u : ℕ) :
    ((k.announce p).task u).Stays (k.task u) := by
  cases p with
  | none => exact .refl _
  | some p =>
    refine setTask_stays _ ?_ u
    exact .same rfl rfl

/-- The instructions that make, hand over or free a task, or let it exit; `setState` gives a
state that the discipline only knows. -/
def Instr.Kin : Instr → Prop
  | .setState _ _ | .zombie _ _ | .adopt _ _ | .reap _ _ _ | .forkCheck _ _
  | .forkFill _ _ => True
  | _ => False

theorem perform_stays (hs : k.perform c rest i = some k') (hi : ¬ i.Kin) (u : ℕ) :
    (k'.task u).Stays (k.task u) := by
  cases i with
  | setState _ _ => exact (hi trivial).elim
  | zombie _ _ => exact (hi trivial).elim
  | adopt _ _ => exact (hi trivial).elim
  | reap _ _ _ => exact (hi trivial).elim
  | forkCheck _ _ => exact (hi trivial).elim
  | forkFill _ _ => exact (hi trivial).elim
  | down t s =>
    have hscan := startScan_stays k t s u
    rw [Kernel.perform, startScan_task] at hs
    dsimp only at hs
    split_ifs at hs <;> cases hs <;> exact hscan
  | up s p =>
    have hannounce := announce_stays k p u
    rw [Kernel.perform, announce_task] at hs
    dsimp only at hs
    repeat' split at hs
    all_goals cases hs
    all_goals exact hannounce
  | pick t =>
    simp only [Kernel.perform] at hs
    split_ifs at hs <;> cases hs
    · refine setTask_stays _ ?_ u
      exact .alive rfl (.inl rfl)
    · exact .refl _
  | goToSleep t chan =>
    cases hs
    refine setTask_stays _ ?_ u
    exact .alive rfl (.inr (.inr rfl))
  | wakeIf t chan =>
    simp only [Kernel.perform] at hs
    split_ifs at hs <;> cases hs
    · refine setTask_stays _ ?_ u
      exact .alive rfl (.inr (.inl rfl))
    · exact .refl _
  | wake t p =>
    cases hs
    refine setTask_stays _ ?_ u
    exact .alive rfl (.inr (.inl rfl))
  | _ =>
    simp only [Kernel.perform] at hs
    repeat' split at hs
    all_goals cases hs
    all_goals first
      | exact .refl _
      | (refine setTask_stays _ ?_ u; exact .same rfl rfl)

/-! ### Announcements -/

/-- The instructions after which child `u` is no longer announced. -/
def Instr.Forgets (u : ℕ) : Instr → Prop
  | .zombie t _ => t = u
  | .adopt _ p => p = u
  | .forkCheck _ nt => nt = u
  | _ => False

/-- Whether child `u` is announced, before and after an instruction. -/
structure Told (i : Instr) (u : ℕ) (x y : Task) : Prop where
  announced : x.announced = true → y.announced = true ∨ ∃ s, i = .up s (some u)
  stays : y.announced = true → x.announced = true ∨ i.Forgets u

theorem Told.same (h : x.announced = y.announced) : Told i u x y := by
  constructor <;>
  · rw [h]
    exact .inl

theorem Told.forgets (hx : x.announced = false) (hi : i.Forgets u) : Told i u x y := by
  refine ⟨fun h => ?_, fun _ => .inr hi⟩
  rw [hx] at h
  cases h

theorem setTask_told (k : Kernel) (h : Told i t x (k.task t)) (u : ℕ) :
    Told i u ((k.setTask t x).task u) (k.task u) :=
  setTask_rel (Told i) (fun _ _ => .same rfl) k h u

theorem perform_told (hs : k.perform c rest i = some k') (u : ℕ) :
    Told i u (k'.task u) (k.task u) := by
  cases i with
  | zombie t status =>
    cases hs
    refine setTask_told _ ?_ u
    exact .forgets rfl rfl
  | adopt t p =>
    simp only [Kernel.perform] at hs
    split_ifs at hs <;> cases hs
    · refine setTask_told _ ?_ u
      exact .forgets rfl rfl
    · exact .same rfl
  | forkCheck t nt =>
    simp only [Kernel.perform] at hs
    split_ifs at hs <;> cases hs
    · refine setTask_told _ ?_ u
      exact .forgets rfl rfl
    · exact .same rfl
  | down t s =>
    have hscan : Told (.down t s) u ((k.startScan t s).task u) (k.task u) := by
      unfold Kernel.startScan
      split_ifs
      · refine setTask_told _ ?_ u
        exact .same rfl
      · exact .same rfl
    rw [Kernel.perform, startScan_task] at hs
    dsimp only at hs
    split_ifs at hs <;> cases hs <;> exact hscan
  | up s p =>
    have hannounce : Told (.up s p) u ((k.announce p).task u) (k.task u) := by
      cases p with
      | none => exact .same rfl
      | some p =>
        refine setTask_told _ ?_ u
        exact ⟨fun _ => .inr ⟨s, rfl⟩, fun _ => .inl rfl⟩
    rw [Kernel.perform, announce_task] at hs
    dsimp only at hs
    repeat' split at hs
    all_goals cases hs
    all_goals exact hannounce
  | reap t status p =>
    have htoken : ((k.setTask t { k.task t with token := none }).task u).announced =
        (k.task u).announced := by
      refine setTask_rel (fun _ x y => x.announced = y.announced) (fun _ _ => rfl) k ?_ u
      rfl
    simp only [Kernel.perform] at hs
    split_ifs at hs <;> cases hs
    · by_cases hu : u = p
      · subst hu
        apply Told.same
        rw [show (Kernel.freeTask _ t status u).task u = _ from Kernel.setTask_self _ _ _]
        rfl
      · rw [show (Kernel.freeTask _ t status p).task u = _ from Kernel.setTask_of_ne _ _ hu]
        exact .same htoken
    · refine setTask_told _ ?_ u
      exact .same rfl
  | _ =>
    simp only [Kernel.perform] at hs
    repeat' split at hs
    all_goals cases hs
    all_goals first
      | exact .same rfl
      | (refine setTask_told _ ?_ u; exact .same rfl)

/-! ### Semaphores -/

/-- The instructions that count, and the scan of `sys_wait`. -/
def Instr.Counts : Instr → Prop
  | .down _ _ | .up _ _ | .waitScan _ _ _ | .waitCheck _ _ _ | .reap _ _ _
  | .forkCheck _ _ => True
  | _ => False

theorem perform_counts (hs : k.perform c rest i = some k') (hi : ¬ i.Counts) :
    k'.value = k.value ∧ k'.waiters = k.waiters ∧
      ∀ u, (k'.task u).token = (k.task u).token := by
  have hset : ∀ (j : Kernel) t x, x.token = (j.task t).token →
      ∀ u, ((j.setTask t x).task u).token = (j.task u).token := fun j t x hx u =>
    setTask_rel (fun _ x y => x.token = y.token) (fun _ _ => rfl) j hx u
  cases i with
  | down _ _ => exact (hi trivial).elim
  | up _ _ => exact (hi trivial).elim
  | waitScan _ _ _ => exact (hi trivial).elim
  | waitCheck _ _ _ => exact (hi trivial).elim
  | reap _ _ _ => exact (hi trivial).elim
  | forkCheck _ _ => exact (hi trivial).elim
  | _ =>
    simp only [Kernel.perform] at hs
    repeat' split at hs
    all_goals cases hs
    all_goals first
      | exact ⟨rfl, rfl, fun _ => rfl⟩
      | (refine ⟨rfl, rfl, fun u => ?_⟩; refine hset _ _ _ ?_ u; rfl)

/-! ### Conditions -/

/-- A condition becomes true by `raise` only, and then all its sleepers are to be woken. -/
theorem perform_cond {q : Cond} (hs : k.perform c rest i = some k') (hq : k'.cond q = true) :
    k.cond q = true ∨ ∃ myt, i = .raise myt q ∧ k'.code c = wakeup myt q.chan ++ rest := by
  cases i with
  | down t s =>
    rw [Kernel.perform, startScan_task] at hs
    dsimp only at hs
    split_ifs at hs <;> cases hs <;> exact .inl hq
  | up s p =>
    rw [Kernel.perform, announce_task] at hs
    dsimp only at hs
    repeat' split at hs
    all_goals cases hs
    all_goals exact .inl hq
  | raise myt q' =>
    cases hs
    by_cases hne : q = q'
    · subst hne
      exact .inr ⟨myt, rfl, Kernel.goto_code _ _ _⟩
    · left
      simpa [Function.update_of_ne hne] using hq
  | lower q' =>
    cases hs
    by_cases hne : q = q'
    · subst hne
      simp at hq
    · left
      simpa [Function.update_of_ne hne] using hq
  | _ =>
    simp only [Kernel.perform] at hs
    repeat' split at hs
    all_goals cases hs
    all_goals exact .inl hq

/-- What a task waits for, if it was waiting for it before. -/
def Task.Awaits (x y : Task) : Prop := x.waits = y.waits ∨ x.waits = none

theorem setTask_awaits (k : Kernel) (h : x.Awaits (k.task t)) (u : ℕ) :
    ((k.setTask t x).task u).Awaits (k.task u) :=
  setTask_rel (fun _ => Task.Awaits) (fun _ _ => .inl rfl) k h u

/-- A task begins to wait in `await` only, for a condition that does not hold. -/
theorem perform_waits (hs : k.perform c rest i = some k') (u : ℕ) :
    (k'.task u).Awaits (k.task u) ∨
      ∃ q, i = .await u q ∧ k.cond q = false ∧ (k'.task u).waits = some q := by
  cases i with
  | down t s =>
    left
    have hscan : ((k.startScan t s).task u).Awaits (k.task u) := by
      unfold Kernel.startScan
      split_ifs
      · refine setTask_awaits _ ?_ u
        exact .inl rfl
      · exact .inl rfl
    rw [Kernel.perform, startScan_task] at hs
    dsimp only at hs
    split_ifs at hs <;> cases hs <;> exact hscan
  | up s p =>
    left
    have hsame := (announce_same k p u).waits
    rw [Kernel.perform, announce_task] at hs
    dsimp only at hs
    repeat' split at hs
    all_goals cases hs
    all_goals exact .inl hsame
  | reap t status p =>
    left
    simp only [Kernel.perform] at hs
    split_ifs at hs <;> cases hs
    · have hself : ((k.setTask t { k.task t with token := none }).task u).Awaits (k.task u) := by
        refine setTask_awaits _ ?_ u
        exact .inl rfl
      by_cases hu : u = p
      · subst hu
        left
        rw [show (Kernel.freeTask _ t status u).task u = _ from Kernel.setTask_self _ _ _]
        rfl
      · rwa [show (Kernel.freeTask _ t status p).task u = _ from Kernel.setTask_of_ne _ _ hu]
    · refine setTask_awaits _ ?_ u
      exact .inl rfl
  | forkCheck t nt =>
    left
    simp only [Kernel.perform] at hs
    split_ifs at hs <;> cases hs
    · refine setTask_awaits _ ?_ u
      exact .inr rfl
    · exact .inl rfl
  | await t q =>
    simp only [Kernel.perform] at hs
    split_ifs at hs with hcond <;> cases hs
    · exact .inl (.inl rfl)
    · by_cases hu : u = t
      · subst hu
        exact .inr ⟨q, rfl, eq_false_of_ne_true hcond, by simp⟩
      · exact .inl (.inl (by rw [Kernel.setTask_of_ne _ _ hu]; rfl))
  | _ =>
    left
    simp only [Kernel.perform] at hs
    repeat' split at hs
    all_goals cases hs
    all_goals first
      | exact .inl rfl
      | (refine setTask_awaits _ ?_ u; exact .inl rfl)
      | (refine setTask_awaits _ ?_ u; exact .inr rfl)

end Zrhos.Sched
