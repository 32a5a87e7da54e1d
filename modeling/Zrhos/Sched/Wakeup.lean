import Zrhos.Sched.System

/-! `sleep` and `wakeup`: whoever makes a condition true holds its lock until all the tasks
that sleep for it are woken. -/
namespace Zrhos.Sched
open Steps Sync

variable {k k' : Kernel} {mode : ℕ → Mode} {view : ℕ → View} {c c' t : ℕ} {i : Instr}
  {code rest : List Instr} {act : Act} {chan : ℕ} {q : Cond} {value : ℕ → ℕ}
  {cond : Cond → Bool}

/-- The instructions of the loop of `wakeup`. -/
def Instr.InWakeup : Instr → Prop
  | .lock (.task _) | .wakeIf _ _ | .unlock (.task _) => True
  | _ => False

/-- The code is in a loop of `wakeup` that has still to come to task `t`. -/
def Wakes (t chan : ℕ) (code : List Instr) : Prop :=
  ∃ before after, code = before ++ .wakeIf t chan :: after ∧ ∀ i ∈ before, i.InWakeup

theorem wakes_cons (hi : i.InWakeup) (h : Wakes t chan code) : Wakes t chan (i :: code) := by
  obtain ⟨before, after, rfl, hall⟩ := h
  refine ⟨i :: before, after, rfl, fun j hj => ?_⟩
  rcases List.mem_cons.mp hj with rfl | hj
  · exact hi
  · exact hall j hj

/-- One step further in the loop. -/
theorem Wakes.tail (h : Wakes t chan (i :: rest)) :
    i = .wakeIf t chan ∨ (i.InWakeup ∧ Wakes t chan rest) := by
  obtain ⟨before, after, heq, hall⟩ := h
  cases before with
  | nil =>
    cases heq
    exact .inl rfl
  | cons j before =>
    cases heq
    exact .inr ⟨hall _ List.mem_cons_self, before, after, rfl,
      fun i hi => hall i (List.mem_cons_of_mem _ hi)⟩

theorem wakes_rounds {myt : Option ℕ} (hne : some t ≠ myt) {l : List ℕ} (hmem : t ∈ l) :
    Wakes t chan (l.flatMap (wakeupRound myt chan) ++ rest) := by
  induction l with
  | nil => cases hmem
  | cons u l ih =>
    rw [List.flatMap_cons, List.append_assoc]
    by_cases hu : t = u
    · subst hu
      rw [wakeupRound, if_neg hne]
      exact wakes_cons trivial ⟨[], _, rfl, fun i hi => by cases hi⟩
    · have hrest := ih ((List.mem_cons.mp hmem).resolve_left hu)
      unfold wakeupRound
      split_ifs
      · exact hrest
      · exact wakes_cons trivial (wakes_cons trivial (wakes_cons trivial hrest))

/-- `wakeup` comes to every task but the one that calls it. -/
theorem wakes_wakeup {myt : Option ℕ} (hne : some t ≠ myt) (hsmall : t < NTASK) :
    Wakes t chan (wakeup myt chan ++ rest) := by
  unfold wakeup
  exact wakes_rounds hne (mem_slots.mpr hsmall)

/-- A condition that holds while a task waits for it is one that its sleepers are just being
told of. -/
def Heard (k : Kernel) : Prop :=
  ∀ t q, (k.task t).waits = some q → k.cond q = true →
    ∃ c, k.owner (.other q.lk) = some c ∧ Wakes t q.chan (k.code c)

theorem Heard.init : Heard (kernelInit value cond) := fun t q h => by cases h

/-- A task that waits has a slot. -/
theorem Sound.waiting_small (h : Sound k mode view) (hw : (k.task t).waits = some q) :
    t < NTASK := by
  by_contra hlarge
  have hdead := (h.task t).small (not_lt.mp hlarge)
  rcases (h.task t).waits q hw with ⟨c, hm⟩ | ⟨hsleep, -⟩
  · have hok := (h.cpu c).ok.live.1
    exact hok ((h.own_state hm).symm.trans hdead)
  · rw [hdead] at hsleep
    cases hsleep

/-- `wakeup` finds a task asleep that waits: a task on its way to sleep holds one of the two
locks. -/
theorem Sound.found_asleep (h : Sound k mode view) (hcode : k.code c = .wakeIf t chan :: rest)
    (howner : k.owner (.other q.lk) = some c) (hw : (k.task t).waits = some q) :
    (k.task t).state = .SLEEPING ∧ (k.task t).chan = some q.chan := by
  obtain ⟨hsteady, -, ⟨hheld, hme⟩, -⟩ := (h.cpu c).head hcode trivial
  rcases (h.task t).waits q hw with ⟨c', hm⟩ | hsleep
  · exfalso
    have hne : c' ≠ c := by
      rintro rfl
      rw [hm] at hme
      exact hme rfl
    have hview : (view c').waits = some q := (h.tells hm).2.2.2.symm.trans hw
    obtain ⟨t', ht', hmem⟩ := (h.cpu c').ok.waits q hview
    rw [hm] at ht'
    cases ht'
    rcases hmem with hmem | hmem
    · have howner' := ((h.cpu c').held _).mpr hmem
      rw [howner] at howner'
      exact hne (Option.some.inj howner').symm
    · have howner' := ((h.cpu c').held _).mpr hmem
      rw [((h.cpu c).held _).mpr hheld] at howner'
      exact hne (Option.some.inj howner').symm
  · exact hsleep

/-- A step in a loop of `wakeup` keeps the lock of the condition, and goes on in the loop. -/
theorem perform_inWakeup (hs : k.perform c rest i = some k') (hi : i.InWakeup) (lk : ℕ) :
    k'.owner (.other lk) = k.owner (.other lk) ∧ k'.code c = rest := by
  cases i with
  | lock l =>
    cases l with
    | task u =>
      simp only [Kernel.perform] at hs
      split_ifs at hs
      cases hs
      refine ⟨?_, Kernel.goto_code _ _ _⟩
      simp
    | _ => exact hi.elim
  | unlock l =>
    cases l with
    | task u =>
      simp only [Kernel.perform] at hs
      split_ifs at hs
      cases hs
      refine ⟨?_, Kernel.goto_code _ _ _⟩
      simp
    | _ => exact hi.elim
  | wakeIf u chan =>
    simp only [Kernel.perform] at hs
    split_ifs at hs <;> cases hs <;> exact ⟨rfl, Kernel.goto_code _ _ _⟩
  | _ => exact hi.elim

/-- A task that is woken no longer waits. -/
theorem perform_wakeIf (hs : k.perform c rest (.wakeIf t chan) = some k')
    (hsleep : (k.task t).state = .SLEEPING ∧ (k.task t).chan = some chan) :
    (k'.task t).waits = none := by
  rw [Kernel.perform, if_pos hsleep] at hs
  cases hs
  rw [Kernel.setTask_self]

theorem Heard.perform (hk : Heard k) (h : Sound k mode view) (hcode : k.code c = i :: rest)
    (hs : k.perform c rest i = some k') : Heard k' := by
  intro t q hw hq
  have hl := h.perform_local hs
  rcases perform_waits hs t with hwaits | ⟨q', rfl, hcond, hwaits⟩
  swap
  · rw [hwaits] at hw
    cases hw
    rcases perform_cond hs hq with htrue | ⟨myt, heq, -⟩
    · rw [hcond] at htrue
      cases htrue
    · cases heq
  have hold : (k.task t).waits = some q := by
    rcases hwaits with hsame | hnone
    · exact hsame.symm.trans hw
    · rw [hnone] at hw
      cases hw
  rcases perform_cond hs hq with htrue | ⟨myt, rfl, hcode'⟩
  · obtain ⟨c', howner, hwakes⟩ := hk t q hold htrue
    by_cases hc : c' = c
    · subst hc
      rw [hcode] at hwakes
      rcases hwakes.tail with rfl | ⟨hi, hrest⟩
      · have hsleep := h.found_asleep hcode howner hold
        rw [perform_wakeIf hs hsleep] at hw
        cases hw
      · obtain ⟨howner', hcode'⟩ := perform_inWakeup hs hi q.lk
        refine ⟨c', howner'.trans howner, ?_⟩
        rwa [hcode']
    · refine ⟨c', (hl.owner c' hc _).mpr howner, ?_⟩
      rwa [hl.code c' hc]
  · obtain ⟨hsteady, -, ⟨hme, hview⟩, -⟩ := (h.cpu c).head hcode trivial
    have howner : k.owner (.other q.lk) = some c := by
      rw [(h.cpu c).held, hview]
      exact List.mem_singleton_self _
    have hne : some t ≠ myt := by
      intro heq
      have hm := hsteady.task (hme.trans heq.symm)
      have hwaits := (h.tells hm).2.2.2
      rw [hview, hold] at hwaits
      cases hwaits
    refine ⟨c, ?_, ?_⟩
    · cases hs
      exact howner
    · rw [hcode']
      exact wakes_wakeup hne (h.waiting_small hold)

theorem Heard.step (hk : Heard k) (h : k.Good) (hs : k.step act = some k') : Heard k' := by
  obtain ⟨⟨mode, view, hsound⟩, -⟩ := h
  -- a CPU that begins something else is in no loop of `wakeup`
  have hgoto : ∀ c code, (∀ lk, k.owner (.other lk) ≠ some c) → Heard (k.goto c code) := by
    intro c code hfree t q hw hq
    obtain ⟨c', howner, hwakes⟩ := hk t q hw hq
    have hne : c' ≠ c := by
      rintro rfl
      exact hfree _ howner
    refine ⟨c', howner, ?_⟩
    rwa [show (k.goto c code).code c' = k.code c' from Function.update_of_ne hne _ _]
  cases act with
  | exec c =>
    simp only [Kernel.step] at hs
    split at hs
    · cases hs
    · rename_i i rest hcode
      exact hk.perform hsound hcode hs
  | call c op =>
    simp only [Kernel.step] at hs
    split at hs
    · split_ifs at hs with hcode
      cases hs
      exact hgoto c _ fun lk howner => hsound.busy howner hcode
    · cases hs
  | interrupt c irq =>
    simp only [Kernel.step] at hs
    split_ifs at hs with hready
    cases hs
    obtain ⟨-, -, hview⟩ := hsound.unlocked hready.1
    refine hgoto c _ fun lk howner => ?_
    rw [(hsound.cpu c).held, hview] at howner
    cases howner

/-- What every step keeps, with the sleepers. -/
structure Kernel.Alert (k : Kernel) : Prop extends Kernel.Good k where
  heard : Heard k

theorem Runs.alert (h : Runs value cond k) : k.Alert :=
  h.invariant ⟨.init value cond, .init⟩ fun _ _ _ hk hspare hs =>
    ⟨hk.toGood.step hspare hs, hk.heard.step hk.toGood hs⟩

/-- No wakeup is lost: a task that sleeps on a channel waits for a condition that does not
hold, or it is about to be woken by a CPU that still has the condition's lock. -/
theorem no_wakeup_lost (h : Runs value cond k) (hsleep : (k.task t).state = .SLEEPING)
    (hchan : (k.task t).chan = some chan) :
    ∃ lk, (k.task t).waits = some ⟨lk, chan⟩ ∧
      (k.cond ⟨lk, chan⟩ = false ∨
        ∃ c, k.owner (.other lk) = some c ∧ Wakes t chan (k.code c)) := by
  obtain ⟨⟨⟨mode, view, hsound⟩, -⟩, hheard⟩ := h.alert
  obtain ⟨lk, hw, -⟩ := (hsound.task t).sleeper hsleep chan hchan
  refine ⟨lk, hw, ?_⟩
  cases hcond : k.cond ⟨lk, chan⟩ with
  | false => exact .inl rfl
  | true => exact .inr (hheard t _ hw hcond)

/-- The first task waits for a condition, a handler on another CPU makes it true. -/
def answered : List Act :=
  boot ++ [.call 0 (.underLock 5 [.await 3])] ++ List.replicate 6 (.exec 0) ++
    [.interrupt 1 (.device 5 [.raise 3]), .exec 1, .exec 1]

theorem bare_answered : ∃ k, after Kernel.step SparesItself bare answered = some k ∧
    (k.task 0).state = .SLEEPING ∧ (k.task 0).chan = some 3 ∧ k.cond ⟨5, 3⟩ = true :=
  ⟨_, rfl, rfl, rfl, rfl⟩

theorem no_wakeup_lost_answered : ∃ k : Kernel, (k.task 0).state = .SLEEPING ∧
    ∃ lk, (k.task 0).waits = some ⟨lk, 3⟩ ∧
      (k.cond ⟨lk, 3⟩ = false ∨
        ∃ c, k.owner (.other lk) = some c ∧ Wakes 0 3 (k.code c)) := by
  obtain ⟨k, hk, hsleep, hchan, -⟩ := bare_answered
  exact ⟨k, hsleep, no_wakeup_lost (reached_after hk) hsleep hchan⟩

end Zrhos.Sched
