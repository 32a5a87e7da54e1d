import Zrhos.Sched.Zombies

/-! The reports of `sys_wait`: every child is reported once. -/
namespace Zrhos.Sched
open Steps Sync

variable {k k' : Kernel} {mode : ℕ → Mode} {view : ℕ → View} {c t u p : ℕ} {i : Instr}
  {code rest : List Instr} {act : Act} {status : ℕ} {value : ℕ → ℕ} {cond : Cond → Bool}

/-- A slot that is free stays free until `sys_fork` takes it. -/
theorem Sound.dead_stays (h : Sound k mode view) (hcode : k.code c = i :: rest)
    (hs : k.perform c rest i = some k') (hi : ∀ t, i ≠ .forkCheck t u)
    (hdead : (k.task u).state = .DEAD) : (k'.task u).state = .DEAD := by
  have hset : ∀ (j : Kernel) t x, (j.task u).state = .DEAD →
      (u = t → (j.task t).state = .DEAD → x.state = .DEAD) →
        ((j.setTask t x).task u).state = .DEAD := by
    intro j t x hj hx
    by_cases hut : u = t
    · subst hut
      rw [j.setTask_self]
      exact hx rfl hj
    · rwa [j.setTask_of_ne x hut]
  have hown : ∀ t, (mode c).Steady → (mode c).me = some t → (k.task t).state ≠ .DEAD := by
    intro t hm hme
    rw [h.own_state (hm.task hme)]
    exact (h.cpu c).ok.live.1
  cases i with
  | setState t state =>
    obtain ⟨hm, -, ⟨hme, -⟩, -⟩ := (h.cpu c).head hcode trivial
    cases hs
    refine hset _ _ _ hdead fun _ hd => (hown t hm hme hd).elim
  | goToSleep t chan =>
    obtain ⟨hm, -, ⟨hme, -⟩, -⟩ := (h.cpu c).head hcode trivial
    cases hs
    refine hset _ _ _ hdead fun _ hd => (hown t hm hme hd).elim
  | zombie t xstatus =>
    obtain ⟨hm, -, -⟩ := (h.cpu c).zombie_head hcode
    have hm' : (mode c).me = some t := by
      rw [hm]
      rfl
    cases hs
    refine hset _ _ _ hdead fun _ hd => (hown t (.inr ⟨t, hm⟩) hm' hd).elim
  | wake t q =>
    obtain ⟨-, -, ⟨hpopped, -⟩, -⟩ := (h.cpu c).head hcode trivial
    have hsleep := ((h.cpu c).popped t hpopped).1
    cases hs
    refine hset _ _ _ hdead fun _ (hd : (k.task t).state = .DEAD) => ?_
    rw [hd] at hsleep
    cases hsleep
  | forkFill t nt =>
    obtain ⟨-, -, ⟨-, hview⟩, -⟩ := (h.cpu c).head hcode trivial
    have hused : (k.task nt).state = .USED := by
      apply (h.cpu c).known
      rw [hview]
    cases hs
    refine hset _ _ _ hdead fun _ (hd : (k.task nt).state = .DEAD) => ?_
    rw [hd] at hused
    cases hused
  | pick t =>
    simp only [Kernel.perform] at hs
    split_ifs at hs with hpick <;> cases hs
    · refine hset _ _ _ hdead fun _ (hd : (k.task t).state = .DEAD) => ?_
      rw [hd] at hpick
      cases hpick.2
    · exact hdead
  | wakeIf t chan =>
    simp only [Kernel.perform] at hs
    split_ifs at hs with hsleep <;> cases hs
    · refine hset _ _ _ hdead fun _ (hd : (k.task t).state = .DEAD) => ?_
      rw [hd] at hsleep
      cases hsleep.1
    · exact hdead
  | forkCheck t nt =>
    simp only [Kernel.perform] at hs
    split_ifs at hs <;> cases hs
    · refine hset _ _ _ hdead fun hun => ?_
      exact (hi t (by rw [hun])).elim
    · exact hdead
  | down t s =>
    obtain ⟨-, htask, -⟩ := perform_down_fields hs
    rw [htask, Kernel.startScan]
    split_ifs
    · exact hset _ _ _ hdead fun _ hd => hd
    · exact hdead
  | up s o =>
    obtain ⟨-, htask, -⟩ := perform_up_fields hs
    rw [htask, (announce_same k o u).state]
    exact hdead
  | reap t status p =>
    simp only [Kernel.perform] at hs
    split_ifs at hs <;> cases hs
    · refine hset _ _ _ ?_ fun _ _ => rfl
      exact hset _ _ _ hdead fun _ hd => hd
    · exact hset _ _ _ hdead fun _ hd => hd
  | _ =>
    simp only [Kernel.perform] at hs
    repeat' split at hs
    all_goals cases hs
    all_goals first
      | exact hdead
      | exact hset _ _ _ hdead fun _ hd => hd

/-- The births of the tasks that are there and of those that were reported are all
different. -/
structure Registered (k : Kernel) : Prop where
  once : (k.reports.map Report.birth).Nodup
  past : ∀ r ∈ k.reports, r.birth < k.births
  live : ∀ u, (k.task u).state ≠ .DEAD →
    (k.task u).birth < k.births ∧ ∀ r ∈ k.reports, r.birth ≠ (k.task u).birth
  apart : ∀ u w, (k.task u).state ≠ .DEAD → (k.task w).state ≠ .DEAD →
    (k.task u).birth = (k.task w).birth → u = w

theorem Registered.init : Registered (kernelInit value cond) where
  once := List.nodup_nil
  past r hr := by cases hr
  live u hu := ⟨Nat.one_pos, fun r hr => by cases hr⟩
  apart u w hu hw _ := by
    have hzero : ∀ u, (taskInit u).state ≠ .DEAD → u = 0 := by
      intro u hu
      by_contra hne
      simp [taskInit, hne] at hu
    rw [hzero u hu, hzero w hw]

/-- No slot is taken and no child found. -/
def Instr.Registers : Instr → Prop
  | .reap _ _ _ | .forkCheck _ _ => True
  | _ => False

theorem perform_births (hs : k.perform c rest i = some k') (hi : ¬ i.Registers) :
    k'.reports = k.reports ∧ k'.births = k.births ∧
      ∀ u, (k'.task u).birth = (k.task u).birth := by
  have hset : ∀ (j : Kernel) t x, x.birth = (j.task t).birth →
      ∀ u, ((j.setTask t x).task u).birth = (j.task u).birth := fun j t x hx u =>
    setTask_rel (fun _ x y => x.birth = y.birth) (fun _ _ => rfl) j hx u
  cases i with
  | reap _ _ _ => exact (hi trivial).elim
  | forkCheck _ _ => exact (hi trivial).elim
  | down t s =>
    have hscan : ∀ u, ((k.startScan t s).task u).birth = (k.task u).birth := by
      intro u
      unfold Kernel.startScan
      split_ifs
      · refine hset _ _ _ ?_ u
        rfl
      · rfl
    rw [Kernel.perform, startScan_task] at hs
    dsimp only at hs
    split_ifs at hs <;> cases hs <;> exact ⟨rfl, rfl, hscan⟩
  | up s o =>
    have hannounce : ∀ u, ((k.announce o).task u).birth = (k.task u).birth := by
      intro u
      cases o with
      | none => rfl
      | some p =>
        refine hset _ _ _ ?_ u
        rfl
    rw [Kernel.perform, announce_task] at hs
    dsimp only at hs
    repeat' split at hs
    all_goals cases hs
    all_goals exact ⟨rfl, rfl, hannounce⟩
  | _ =>
    simp only [Kernel.perform] at hs
    repeat' split at hs
    all_goals cases hs
    all_goals first
      | exact ⟨rfl, rfl, fun _ => rfl⟩
      | (refine ⟨rfl, rfl, fun u => ?_⟩; refine hset _ _ _ ?_ u; rfl)

/-- Tasks may go, but none comes. -/
theorem Registered.fewer (hr : Registered k) (hreports : k'.reports = k.reports)
    (hbirths : k'.births = k.births) (hbirth : ∀ u, (k'.task u).birth = (k.task u).birth)
    (hlive : ∀ u, (k'.task u).state ≠ .DEAD → (k.task u).state ≠ .DEAD) : Registered k' where
  once := by
    rw [hreports]
    exact hr.once
  past := by
    rw [hreports, hbirths]
    exact hr.past
  live u hu := by
    rw [hreports, hbirths, hbirth]
    exact hr.live u (hlive u hu)
  apart u w hu hw := by
    rw [hbirth, hbirth]
    exact hr.apart u w (hlive u hu) (hlive w hw)

/-- The new task is the latest. -/
theorem Registered.forkCheck (hr : Registered k) :
    Registered ((k.goto c code).utaskCreate u) := by
  set k' := (k.goto c code).utaskCreate u with hk'
  have hnew : (k'.task u).birth = k.births := by
    rw [show k'.task u = _ from Kernel.setTask_self _ _ _]
    rfl
  have hother : ∀ w, w ≠ u → k'.task w = k.task w := fun w hw => Kernel.setTask_of_ne _ _ hw
  constructor
  case once => exact hr.once
  case past => exact fun r hmem => Nat.lt_succ_of_lt (hr.past r hmem)
  case live =>
    intro w hw
    by_cases hwu : w = u
    · rw [hwu, hnew]
      exact ⟨Nat.lt_succ_self _, fun r hmem => (hr.past r hmem).ne⟩
    · rw [hother w hwu] at hw ⊢
      obtain ⟨hlt, hne⟩ := hr.live w hw
      exact ⟨Nat.lt_succ_of_lt hlt, hne⟩
  case apart =>
    intro v w hv hw heq
    by_cases hvu : v = u <;> by_cases hwu : w = u
    · rw [hvu, hwu]
    · subst hvu
      rw [hother w hwu] at hw heq
      rw [hnew] at heq
      exact absurd heq (hr.live w hw).1.ne'
    · subst hwu
      rw [hother v hvu] at hv heq
      rw [hnew] at heq
      exact absurd heq (hr.live v hv).1.ne
    · rw [hother v hvu] at hv heq
      rw [hother w hwu] at hw heq
      exact hr.apart v w hv hw heq

/-- A child is reported as it is freed. -/
theorem Registered.reap (hr : Registered k) (hlive : (k.task p).state ≠ .DEAD) :
    Registered ((k.goto c code).freeTask t status p) := by
  set k' := (k.goto c code).freeTask t status p with hk'
  have hself : (k'.task p).state = .DEAD := by
    rw [show k'.task p = _ from Kernel.setTask_self _ _ _]
  have hother : ∀ u, u ≠ p → (k'.task u).birth = (k.task u).birth ∧
      (k'.task u).state = (k.task u).state := by
    intro u hu
    rw [show k'.task u = _ from Kernel.setTask_of_ne _ _ hu]
    refine setTask_rel (fun _ x y => x.birth = y.birth ∧ x.state = y.state)
      (fun _ _ => ⟨rfl, rfl⟩) (k.goto c code) ?_ u
    exact ⟨rfl, rfl⟩
  have hreports : ∃ r : Report, k'.reports = k.reports ++ [r] ∧ r.birth = (k.task p).birth :=
    ⟨_, rfl, rfl⟩
  obtain ⟨r, hreports, hbirth⟩ := hreports
  have hmem : ∀ r', r' ∈ k'.reports → r' ∈ k.reports ∨ r' = r := by
    intro r' hr'
    rw [hreports] at hr'
    simpa using hr'
  constructor
  case once =>
    rw [hreports, List.map_append, List.map_singleton, List.nodup_append]
    refine ⟨hr.once, List.nodup_singleton _, ?_⟩
    intro a ha b hb
    obtain ⟨r', hr', rfl⟩ := List.mem_map.mp ha
    rw [List.mem_singleton.mp hb, hbirth]
    exact (hr.live p hlive).2 r' hr'
  case past =>
    intro r' hr'
    rcases hmem r' hr' with hold | rfl
    · exact hr.past r' hold
    · rw [hbirth]
      exact (hr.live p hlive).1
  case live =>
    intro u hu
    have hne : u ≠ p := by
      rintro rfl
      exact hu hself
    rw [(hother u hne).2] at hu
    rw [(hother u hne).1]
    refine ⟨(hr.live u hu).1, fun r' hr' => ?_⟩
    rcases hmem r' hr' with hold | rfl
    · exact (hr.live u hu).2 r' hold
    · rw [hbirth]
      exact fun heq => hne (hr.apart p u hlive hu heq).symm
  case apart =>
    intro u w hu hw
    have hup : u ≠ p := by
      rintro rfl
      exact hu hself
    have hwp : w ≠ p := by
      rintro rfl
      exact hw hself
    rw [(hother u hup).2] at hu
    rw [(hother w hwp).2] at hw
    rw [(hother u hup).1, (hother w hwp).1]
    exact hr.apart u w hu hw

theorem Registered.perform (hr : Registered k) (h : Sound k mode view)
    (hcode : k.code c = i :: rest) (hs : k.perform c rest i = some k') : Registered k' := by
  have hlive : (∀ t u, i ≠ .forkCheck t u) → ∀ u, (k'.task u).state ≠ .DEAD →
      (k.task u).state ≠ .DEAD :=
    fun hi u hu hd => hu (h.dead_stays hcode hs (fun t => hi t u) hd)
  cases i with
  | reap t status p =>
    replace hlive := hlive fun _ _ => Instr.noConfusion
    obtain ⟨-, -, ⟨-, hview⟩, -⟩ := (h.cpu c).head hcode trivial
    have hzombie : (k.task p).state = .ZOMBIE := by
      apply (h.cpu c).known
      rw [hview]
    simp only [Kernel.perform] at hs
    split_ifs at hs <;> cases hs
    · apply hr.reap
      rw [hzombie]
      exact TaskState.noConfusion
    · refine hr.fewer rfl rfl (fun u => ?_) hlive
      refine setTask_rel (fun _ x y => x.birth = y.birth) (fun _ _ => rfl) (k.goto c _) ?_ u
      rfl
  | forkCheck t nt =>
    simp only [Kernel.perform] at hs
    split_ifs at hs <;> cases hs
    · exact hr.forkCheck
    · exact hr.fewer rfl rfl (fun _ => rfl) fun _ hu => hu
  | _ =>
    obtain ⟨hreports, hbirths, hbirth⟩ := perform_births hs id
    exact hr.fewer hreports hbirths hbirth (hlive fun _ _ => Instr.noConfusion)

theorem Registered.step (hr : Registered k) (h : k.Sane) (hs : k.step act = some k') :
    Registered k' := by
  obtain ⟨mode, view, hsound⟩ := h
  cases act with
  | exec c =>
    simp only [Kernel.step] at hs
    split at hs
    · cases hs
    · rename_i i rest hcode
      exact hr.perform hsound hcode hs
  | call c op =>
    simp only [Kernel.step] at hs
    repeat' split at hs
    all_goals cases hs
    exact hr.fewer rfl rfl (fun _ => rfl) fun _ hu => hu
  | interrupt c irq =>
    simp only [Kernel.step] at hs
    split_ifs at hs
    cases hs
    exact hr.fewer rfl rfl (fun _ => rfl) fun _ hu => hu

structure Kernel.Recorded (k : Kernel) : Prop extends Kernel.Good k where
  registered : Registered k

/-- Every child is reported at most once, however often its slot is used, and none that is
still there. -/
theorem reported_once (h : Runs value cond k) :
    (k.reports.map Report.birth).Nodup ∧
      ∀ r ∈ k.reports, ∀ u, (k.task u).state ≠ .DEAD → r.birth ≠ (k.task u).birth := by
  have hk : k.Recorded := h.invariant ⟨.init value cond, .init⟩ fun _ _ _ hk hspare hs =>
    ⟨hk.toGood.step hspare hs, hk.registered.step hk.sane hs⟩
  exact ⟨hk.registered.once, fun r hr u hu => (hk.registered.live u hu).2 r hr⟩

/-! ### A slot that is used twice -/

/-- A task without children goes through `reparent` and leaves the others alone. -/
theorem reached_adopts {k₀ : Kernel} {ps : List ℕ} (h : Reached Kernel.step SparesItself k₀ k)
    (hcode : k.code c = ps.map (.adopt t) ++ rest)
    (hnone : ∀ p ∈ ps, (k.task p).parent ≠ some t) :
    Reached Kernel.step SparesItself k₀ (k.goto c rest) := by
  induction ps generalizing k with
  | nil =>
    have hsame : k.goto c rest = k := by
      unfold Kernel.goto
      rw [show rest = k.code c from hcode.symm, Function.update_eq_self]
    rwa [hsame]
  | cons p ps ih =>
    have hstep : k.step (.exec c) = some (k.goto c (ps.map (.adopt t) ++ rest)) := by
      rw [Kernel.step, hcode]
      exact if_neg (hnone p List.mem_cons_self)
    have hspare : SparesItself k (.exec c) := by
      rw [SparesItself, hcode]
      trivial
    have hrest := ih (h.step hspare hstep) (Kernel.goto_code _ _ _)
      fun p hp => hnone p (List.mem_cons_of_mem _ hp)
    have hsame : (k.goto c (ps.map (.adopt t) ++ rest)).goto c rest = k.goto c rest := by
      unfold Kernel.goto
      rw [Function.update_idem]
    rwa [hsame] at hrest

/-- The state behind a list of actions. -/
def Kernel.follow (k : Kernel) (acts : List Act) : Kernel :=
  (after Kernel.step SparesItself k acts).getD k

theorem reached_follow {k₀ : Kernel} (h : Reached Kernel.step SparesItself k₀ k) (acts : List Act) :
    Reached Kernel.step SparesItself k₀ (k.follow acts) := by
  unfold Kernel.follow
  cases ha : after Kernel.step SparesItself k acts with
  | none => exact h
  | some k' => exact h.trans ha

/-- The task on CPU 0 forks, and CPU `c` runs its child up to `reparent`. -/
def childExits (c : ℕ) (status : BitVec 32) : List Act :=
  .call 0 .fork :: List.replicate 9 (.exec 0) ++ List.replicate 10 (.exec c) ++
    .call c (.exit status) :: List.replicate 7 (.exec c)

/-- CPU `c` leaves the child, and CPU 0 waits for it. -/
def parentWaits (c : ℕ) : List Act :=
  List.replicate 4 (.exec c) ++ .call 0 (.wait 0) :: List.replicate 14 (.exec 0)

def firstChild : Kernel := bare.follow (boot ++ childExits 1 7)

def secondChild : Kernel :=
  (firstChild.goto 1 [.unlock .wait, .swtch 1]).follow (parentWaits 1 ++ childExits 2 9)

def bothReported : Kernel := (secondChild.goto 2 [.unlock .wait, .swtch 1]).follow (parentWaits 2)

set_option maxRecDepth 4000 in
theorem bothReported_reached : Reached Kernel.step SparesItself bare bothReported := by
  have hfirst : ∀ p ∈ slots.filter (· ≠ 1), (firstChild.task p).parent ≠ some 1 := by
    unfold slots
    decide +kernel
  have hsecond : ∀ p ∈ slots.filter (· ≠ 1), (secondChild.task p).parent ≠ some 1 := by
    unfold slots
    decide +kernel
  have hcode : firstChild.code 1 = (slots.filter (· ≠ 1)).map (.adopt 1) ++
      [.unlock .wait, .swtch 1] := rfl
  have hcode' : secondChild.code 2 = (slots.filter (· ≠ 1)).map (.adopt 1) ++
      [.unlock .wait, .swtch 1] := rfl
  have h₁ : Reached Kernel.step SparesItself bare firstChild := reached_follow .start _
  have h₂ : Reached Kernel.step SparesItself bare secondChild :=
    reached_follow (reached_adopts h₁ hcode hfirst) _
  exact reached_follow (reached_adopts h₂ hcode' hsecond) _

/-- Slot 1 is used twice, and each of its children is reported under its own birth. -/
theorem reported_once_reused : ∃ k : Kernel,
    k.reports.map (fun r => (r.child, r.birth, r.a0)) = [(1, 1, 2), (1, 2, 3)] ∧
    (k.reports.map Report.birth).Nodup ∧
      ∀ r ∈ k.reports, ∀ u, (k.task u).state ≠ .DEAD → r.birth ≠ (k.task u).birth :=
  ⟨bothReported, by decide +kernel, reported_once bothReported_reached⟩

end Zrhos.Sched
