import Zrhos.Sched.Lineage

/-! The whole system: what holds in every state that the CPUs reach together. -/
namespace Zrhos.Sched
open Steps Sync

variable {k k' : Kernel} {mode : ℕ → Mode} {view : ℕ → View} {c c' t u p q : ℕ} {m : Mode}
  {v : View} {i : Instr} {code rest : List Instr} {x y : Task} {s : Sem} {status n : ℕ}
  {l : Lock} {act : Act}

/-- No task kills itself: `force_exit` switches to the scheduler and leaves the task
`RUNNING`. -/
def SparesItself (k : Kernel) : Act → Prop
  | .exec c =>
    match k.code c with
    | .killCheck pid t :: _ => (k.task t).id = pid → k.current c ≠ some t
    | _ => True
  | _ => True

instance (k : Kernel) (act : Act) : Decidable (SparesItself k act) := by
  unfold SparesItself
  repeat' split
  all_goals infer_instance

theorem Sound.perform (h : Sound k mode view) (hf : Family k) (hcode : k.code c = i :: rest)
    (hspare : SparesItself k (.exec c)) (hs : k.perform c rest i = some k') : k'.Sane := by
  cases i with
  | lock l =>
    simp only [Kernel.perform] at hs
    split_ifs at hs with hfree
    cases hs
    exact (h.lock hcode hfree).sane
  | unlock l =>
    simp only [Kernel.perform] at hs
    split_ifs at hs with howned
    cases hs
    exact (h.unlock hcode howned.1).sane
  | setState t state =>
    cases hs
    exact h.setState hcode
  | sched t =>
    simp only [Kernel.perform] at hs
    split_ifs at hs
    cases hs
    exact h.sched hcode
  | swtch t =>
    cases hs
    exact h.swtch hcode
  | scan t =>
    simp only [Kernel.perform] at hs
    split_ifs at hs <;> cases hs
    · exact (h.scan hcode).1
    · exact (h.scan hcode).2
  | pick t =>
    simp only [Kernel.perform] at hs
    split_ifs at hs with hpick <;> cases hs
    · exact h.pick hcode hpick.2
    · obtain ⟨hm, hview, rfl⟩ := (h.cpu c).pick_head hcode
      apply h.enters (.inl hm)
      rw [hm, hview]
      exact does_back t
  | setCurrent o =>
    cases hs
    exact h.setCurrent hcode
  | enter t =>
    cases hs
    exact h.enter hcode
  | goToSleep t chan =>
    cases hs
    exact h.goToSleep hcode
  | tidy t =>
    cases hs
    exact h.tidy hcode
  | wakeIf t chan => exact h.wakeIf hcode hs
  | down t s => exact h.down hcode hs
  | up s p => exact h.up hcode hs
  | wake t p =>
    cases hs
    exact h.wake hcode
  | zombie t status =>
    cases hs
    exact h.zombie hcode
  | signalParent t => exact h.signalParent hf hcode hs
  | adopt t p => exact h.adopt hf hcode hs
  | waitScan t status p => exact h.waitScan hcode hs
  | waitCheck t status p => exact h.waitCheck hcode hs
  | reap t status p => exact h.reap hcode hs
  | forkScan t nt => exact h.forkScan hcode hs
  | forkCheck t nt => exact h.forkCheck hcode hs
  | forkFill t nt =>
    cases hs
    exact h.forkFill hcode
  | killScan pid t => exact h.killScan hcode hs
  | killCheck pid t =>
    refine h.killCheck hcode ?_ hs
    rwa [SparesItself, hcode] at hspare
  | timer => exact h.timer hcode hs
  | await t q => exact h.await hcode hs
  | raise myt q =>
    cases hs
    exact h.raise hcode
  | lower q =>
    cases hs
    exact h.lower hcode

/-- A task that has nothing left to do is in user space. -/
theorem Sound.user (h : Sound k mode view) (hcurrent : k.current c = some t)
    (hcode : k.code c = []) : mode c = .task t ∧ view c = .plain none [] := by
  have hmode := (h.cpu c).mode
  cases hm : mode c with
  | sched =>
    rw [hm] at hmode
    rw [hmode.1] at hcurrent
    cases hcurrent
  | task t' =>
    rw [hm] at hmode
    obtain ⟨hcurrent', -, hdoes, -⟩ := hmode
    rw [hcode] at hdoes
    rw [hcurrent] at hcurrent'
    cases hcurrent'
    exact ⟨rfl, hdoes.2⟩
  | picked t' =>
    rw [hm] at hmode
    rw [hmode.1] at hcurrent
    cases hcurrent
  | entering t' =>
    rw [hm] at hmode
    rw [hmode.2.1] at hcode
    cases hcode
  | back t' =>
    rw [hm] at hmode
    rw [hmode.2.1] at hcode
    cases hcode

theorem Sound.call (h : Sound k mode view) {op : Op} (hs : k.step (.call c op) = some k') :
    k'.Sane := by
  simp only [Kernel.step] at hs
  split at hs
  · rename_i t hcurrent
    split_ifs at hs with hcode
    cases hs
    obtain ⟨hm, hview⟩ := h.user hcurrent hcode
    apply h.enters (.inr ⟨t, hm⟩)
    rw [hm, hview]
    exact does_call op
  · cases hs

/-- A CPU without locks is in its scheduler or in a task. -/
theorem Sound.unlocked (h : Sound k mode view) (hnoff : k.noff c = 0) :
    (mode c).Steady ∧ (mode c).me = k.current c ∧ view c = .plain (view c).token [] := by
  have hc := h.cpu c
  have hheld : (view c).held = [] := List.length_eq_zero_iff.mp (hc.noff.symm.trans hnoff)
  have hmode := hc.mode
  refine ⟨?_, ?_, hc.ok.calm hheld⟩
  all_goals
    cases hm : mode c with
    | sched =>
      rw [hm] at hmode
      first
        | exact .inl rfl
        | exact hmode.1.symm
    | task t =>
      rw [hm] at hmode
      first
        | exact .inr ⟨t, rfl⟩
        | exact hmode.1.symm
    | picked t =>
      rw [hm] at hmode
      rw [hmode.2.2.2] at hheld
      cases hheld
    | entering t =>
      rw [hm] at hmode
      rw [hmode.2.2.2] at hheld
      cases hheld
    | back t =>
      rw [hm] at hmode
      rw [hmode.2.2.2] at hheld
      cases hheld

theorem Sound.interrupt (h : Sound k mode view) {irq : Irq}
    (hs : k.step (.interrupt c irq) = some k') : k'.Sane := by
  simp only [Kernel.step] at hs
  split_ifs at hs with hready
  cases hs
  obtain ⟨hsteady, hme, hview⟩ := h.unlocked hready.1
  apply h.enters hsteady
  have hdoes : Does (mode c).me (view c) (k.code c) := by
    have hmode := (h.cpu c).mode
    rcases hsteady with hm | ⟨t, hm⟩
    · rw [hm] at hmode ⊢
      exact hmode.2
    · rw [hm] at hmode ⊢
      exact hmode.2.2.1
  rw [← hme]
  rw [hview] at hdoes ⊢
  exact does_interrupt hready.2 c hdoes

/-! ### Runs -/

theorem Sound.perform_local (h : Sound k mode view) (hs : k.perform c rest i = some k') :
    Local k k' c :=
  Sched.perform_local hs fun _ hdead => (h.sons_free hdead).1

/-- What every step keeps as long as no task kills itself. -/
structure Kernel.Good (k : Kernel) : Prop where
  sane : k.Sane
  family : Family k

theorem Kernel.Good.init (value : ℕ → ℕ) (cond : Cond → Bool) : (kernelInit value cond).Good :=
  ⟨(Sound.init value cond).sane, .init value cond⟩

/-- A CPU that begins something more has given up none of its work. -/
theorem Family.enters (hf : Family k) (hcode : ∀ i ∈ k.code c, i ∈ code) :
    Family (k.goto c code) := by
  refine hf.stays (fun u => ?_) fun p q _ _ ⟨c', hcurrent, hmem⟩ => ⟨c', hcurrent, ?_⟩
  · exact .refl _
  · by_cases hc : c' = c
    · subst hc
      rw [Kernel.goto_code]
      exact hcode _ hmem
    · rwa [show (k.goto c code).code c' = k.code c' from Function.update_of_ne hc _ _]

theorem Kernel.Good.step (h : k.Good) (hspare : SparesItself k act)
    (hs : k.step act = some k') : k'.Good := by
  obtain ⟨⟨mode, view, hsound⟩, hf⟩ := h
  cases act with
  | exec c =>
    simp only [Kernel.step] at hs
    split at hs
    · cases hs
    · rename_i i rest hcode
      exact ⟨hsound.perform hf hcode hspare hs,
        hf.perform hsound hcode (hsound.perform_local hs) hs⟩
  | call c op =>
    refine ⟨hsound.call hs, ?_⟩
    simp only [Kernel.step] at hs
    split at hs
    · split_ifs at hs with hcode
      cases hs
      apply hf.enters
      rw [hcode]
      exact fun i hi => by cases hi
    · cases hs
  | interrupt c irq =>
    refine ⟨hsound.interrupt hs, ?_⟩
    simp only [Kernel.step] at hs
    split_ifs at hs
    cases hs
    exact hf.enters fun i hi => List.mem_append_right _ hi

/-- The states of the kernel when no task kills itself. -/
abbrev Runs (value : ℕ → ℕ) (cond : Cond → Bool) : Kernel → Prop :=
  Reached Kernel.step SparesItself (kernelInit value cond)

variable {value : ℕ → ℕ} {cond : Cond → Bool}

theorem Runs.good (h : Runs value cond k) : k.Good :=
  h.invariant (.init value cond) fun _ _ _ hk hspare hs => hk.step hspare hs

/-! ### The scheduler -/

/-- A CPU is at a task that runs, or is just about to say so. -/
theorem OnCpu.current_of_about (h : OnCpu k c m v) (habout : m.about = some t)
    (hfree : k.owner (.task t) = none) : k.current c = some t := by
  have hmode := h.mode
  have hnot : v ≠ .plain none [.task t] := by
    intro hv
    have howner : k.owner (.task t) = some c := by
      rw [h.held, hv]
      exact List.mem_singleton_self _
    rw [hfree] at howner
    cases howner
  cases m with
  | sched => cases habout
  | task t' =>
    cases habout
    exact hmode.1
  | picked t' =>
    cases habout
    exact absurd hmode.2.2.2 hnot
  | entering t' =>
    cases habout
    exact absurd hmode.2.2.2 hnot
  | back t' =>
    cases habout
    exact absurd hmode.2.2.2 hnot

/-- No task is on two CPUs, and a task whose lock is free is `RUNNING` just if it is the
current one of a CPU. -/
theorem running_iff_current (h : Runs value cond k) :
    (∀ c c' t, k.current c = some t → k.current c' = some t → c = c') ∧
      ∀ t, k.owner (.task t) = none →
        ((k.task t).state = .RUNNING ↔ ∃ c, k.current c = some t) := by
  obtain ⟨⟨mode, view, hsound⟩, -⟩ := h.good
  constructor
  · intro c c' t hc hc'
    exact hsound.once c c' t ((hsound.cpu c).current hc) ((hsound.cpu c').current hc')
  · intro t hfree
    constructor
    · intro hrun
      obtain ⟨c, habout⟩ := (hsound.task t).running hrun
      exact ⟨c, (hsound.cpu c).current_of_about habout hfree⟩
    · rintro ⟨c, hc⟩
      rcases (hsound.cpu c).about ((hsound.cpu c).current hc) with hrun | howner
      · exact hrun
      · rw [hfree] at howner
        cases howner

/-- A kernel whose semaphores are taken and whose conditions do not hold. -/
def bare : Kernel := kernelInit (fun _ => 0) fun _ => false

/-- The first CPU picks the first task and is in user space with it. -/
def boot : List Act := List.replicate 6 (.exec 0)

theorem bare_boot : ∃ k, after Kernel.step SparesItself bare boot = some k ∧
    k.owner (.task 0) = none ∧ k.current 0 = some 0 := ⟨_, rfl, rfl, rfl⟩

theorem running_iff_current_booted :
    ∃ k : Kernel, k.current 0 = some 0 ∧ (k.task 0).state = .RUNNING := by
  obtain ⟨k, hk, hfree, hcurrent⟩ := bare_boot
  have hall := (running_iff_current (reached_after hk)).2
  exact ⟨k, hcurrent, (hall 0 hfree).mpr ⟨0, hcurrent⟩⟩

/-! ### Locks -/

/-- CPU `c` spins on a lock that `c'` holds. -/
def Kernel.Blocks (k : Kernel) (c c' : ℕ) : Prop :=
  ∃ l rest, k.code c = .lock l :: rest ∧ k.owner l = some c'

/-- The rank of the lock that a CPU asks for next. -/
def rank (k : Kernel) (mode : ℕ → Mode) (view : ℕ → View) (c : ℕ) : ℕ :=
  match k.code c with
  | .lock l :: _ => (view c).most (mode c).me l
  | _ => 0

theorem rank_lock (hcode : k.code c = .lock l :: rest) :
    rank k mode view c = (view c).most (mode c).me l := by
  rw [rank, hcode]

/-- A lock that is held does not rank higher than whoever asks for it says: a task that has
exited is neither asleep nor on its way. -/
theorem Sound.least_le_most (h : Sound k mode view) (hm : (mode c).Steady) (hm' : (mode c').Steady)
    (l : Lock) :
    (view c').least (mode c').me l ≤ (view c).most (mode c).me l := by
  cases l with
  | sem s => exact le_refl _
  | wait => exact le_refl _
  | other n => exact le_refl _
  | task t =>
    simp only [View.least, View.most]
    split_ifs with hzombie hlive <;> try omega
    exfalso
    have hz : (k.task t).state = .ZOMBIE := by
      rcases hzombie with ⟨hme, hown⟩ | hknown
      · exact (h.own_state (hm'.task hme)).trans hown
      · exact (h.cpu c').known t _ hknown
    rcases hlive with ⟨hme, hown⟩ | hpopped
    · exact hown ((h.own_state (hm.task hme)).symm.trans hz)
    · have hsleep := ((h.cpu c).popped t hpopped).1
      rw [hz] at hsleep
      cases hsleep

/-- Along the holders of the locks that CPUs spin on the rank goes down. -/
theorem Sound.rank_lt (h : Sound k mode view) (hb : k.Blocks c c')
    (hcode : k.code c' = .lock l :: rest) : rank k mode view c' < rank k mode view c := by
  obtain ⟨l₀, rest₀, hcode₀, howner⟩ := hb
  obtain ⟨hm, -, -, -⟩ := (h.cpu c).head hcode₀ trivial
  obtain ⟨hm', -, ⟨hrank, -⟩, -⟩ := (h.cpu c').head hcode trivial
  rw [rank_lock hcode, rank_lock hcode₀]
  calc (view c').most (mode c').me l < (view c').least (mode c').me l₀ :=
        hrank l₀ (((h.cpu c').held l₀).mp howner)
    _ ≤ (view c).most (mode c).me l₀ := h.least_le_most hm hm' l₀

/-- Who holds a lock is not in user space. -/
theorem Sound.busy (h : Sound k mode view) (howner : k.owner l = some c) : k.code c ≠ [] := by
  intro hcode
  have hmem := ((h.cpu c).held l).mp howner
  have hmode := (h.cpu c).mode
  cases hm : mode c with
  | sched =>
    rw [hm, Kernel.At, hcode] at hmode
    exact hmode.2.1 rfl
  | task t =>
    rw [hm, Kernel.At, hcode] at hmode
    rw [hmode.2.2.1.2] at hmem
    cases hmem
  | picked t =>
    rw [hm, Kernel.At, hcode] at hmode
    cases hmode.2.1
  | entering t =>
    rw [hm, Kernel.At, hcode] at hmode
    cases hmode.2.1
  | back t =>
    rw [hm, Kernel.At, hcode] at hmode
    cases hmode.2.1

/-- `sys_fork` has found no free slot, and `utask_create` returns a null pointer; or `lm_V`
counts past the largest `int`. -/
def Kernel.Full (k : Kernel) : Instr → Prop
  | .forkScan _ nt => NTASK ≤ nt
  | .up s _ => 2 ^ 31 ≤ k.value s + 1
  | _ => False

/-- What `sched` checks of the lock, of `noff` and of the state, what `unlock` and `pop_off`
check of the holder and of `noff`, and the waiter that `lm_V` takes are as they have to be: an
instruction that is not possible asks for a lock that is held, or there is no room. -/
theorem Sound.possible (h : Sound k mode view) (hcode : k.code c = i :: rest) :
    (∃ k', k.perform c rest i = some k') ∨ (∃ c', k.Blocks c c') ∨ k.Full i := by
  cases i with
  | lock l =>
    cases howner : k.owner l with
    | none =>
      left
      rw [Kernel.perform, if_pos howner]
      exact ⟨_, rfl⟩
    | some c' => exact .inr (.inl ⟨c', l, rest, hcode, howner⟩)
  | unlock l =>
    left
    obtain ⟨-, -, ⟨hmem, -⟩, -⟩ := (h.cpu c).head hcode trivial
    have hnoff : k.noff c ≠ 0 := by
      rw [(h.cpu c).noff]
      exact (List.length_pos_of_mem hmem).ne'
    rw [Kernel.perform, if_pos ⟨((h.cpu c).held l).mpr hmem, hnoff⟩]
    exact ⟨_, rfl⟩
  | sched t =>
    left
    obtain ⟨hm, -, ⟨hme, hheld, hown, -⟩, -⟩ := (h.cpu c).head hcode trivial
    have hc := h.cpu c
    rw [Kernel.perform, if_pos]
    · exact ⟨_, rfl⟩
    · refine ⟨?_, ?_, ?_⟩
      · rw [hc.held, hheld]
        exact List.mem_singleton_self _
      · rw [hc.noff, hheld]
        rfl
      · rw [h.own_state (hm.task hme)]
        exact hown
  | up s p =>
    rw [perform_up]
    split_ifs with hlarge hneg
    · exact .inr (.inr hlarge)
    · left
      have hcount := (h.sem s).count
      cases hlast : (k.waiters s).getLast? with
      | none =>
        rw [List.getLast?_eq_none_iff.mp hlast, List.length_nil] at hcount
        omega
      | some u => exact ⟨_, rfl⟩
    · exact .inl ⟨_, rfl⟩
  | down t s =>
    left
    simp only [Kernel.perform]
    split_ifs <;> exact ⟨_, rfl⟩
  | forkScan t nt =>
    by_cases hnt : nt < NTASK
    · left
      rw [Kernel.perform, if_pos hnt]
      exact ⟨_, rfl⟩
    · exact .inr (.inr (not_lt.mp hnt))
  | _ =>
    left
    simp only [Kernel.perform]
    repeat' split
    all_goals exact ⟨_, rfl⟩

/-- From a CPU that executes kernel code the holders of the locks lead to one that can go on,
or that has no room for a new task or for a unit more: there is no deadlock. -/
theorem lock_holder_goes_on (h : Runs value cond k) (hbusy : k.code c ≠ []) :
    ∃ c', Relation.ReflTransGen k.Blocks c c' ∧
      ((∃ k', k.step (.exec c') = some k') ∨ ∃ i : Instr, ∃ rest, k.code c' = i :: rest ∧ k.Full i) := by
  obtain ⟨⟨mode, view, hsound⟩, -⟩ := h.good
  induction hn : rank k mode view c using Nat.strong_induction_on generalizing c with
  | _ n ih =>
    subst hn
    obtain ⟨i, rest, hcode⟩ := List.exists_cons_of_ne_nil hbusy
    rcases hsound.possible hcode with ⟨k', hs⟩ | ⟨c', hb⟩ | hfull
    · refine ⟨c, .refl, .inl ⟨k', ?_⟩⟩
      simp only [Kernel.step, hcode]
      exact hs
    · have howner := hb.choose_spec.choose_spec.2
      have hbusy' := hsound.busy howner
      by_cases hlock : ∃ l' rest', k.code c' = .lock l' :: rest'
      · obtain ⟨l', rest', hcode'⟩ := hlock
        obtain ⟨c'', hchain, hend⟩ := ih _ (hsound.rank_lt hb hcode') hbusy' rfl
        exact ⟨c'', .head hb hchain, hend⟩
      · refine ⟨c', .single hb, ?_⟩
        obtain ⟨i', rest', hcode'⟩ := List.exists_cons_of_ne_nil hbusy'
        rcases hsound.possible hcode' with ⟨k', hs⟩ | ⟨-, l', rest'', hl', -⟩ | hfull
        · left
          refine ⟨k', ?_⟩
          simp only [Kernel.step, hcode']
          exact hs
        · exact absurd ⟨l', rest'', hl'⟩ hlock
        · exact .inr ⟨i', rest', hcode', hfull⟩
    · exact ⟨c, .refl, .inr ⟨i, rest, hcode, hfull⟩⟩

/-- Two CPUs ask for the lock of the first task. -/
theorem bare_contended : ∃ k, after Kernel.step SparesItself bare [.exec 0, .exec 0, .exec 1] =
    some k ∧ k.Blocks 1 0 := ⟨_, rfl, .task 0, _, rfl, rfl⟩

theorem lock_holder_goes_on_contended : ∃ k : Kernel, k.Blocks 1 0 ∧
    ∃ c', Relation.ReflTransGen k.Blocks 1 c' ∧
      ((∃ k', k.step (.exec c') = some k') ∨ ∃ i : Instr, ∃ rest, k.code c' = i :: rest ∧ k.Full i) := by
  obtain ⟨k, hk, hb⟩ := bare_contended
  refine ⟨k, hb, lock_holder_goes_on (reached_after hk) ?_⟩
  obtain ⟨l, rest, hcode, -⟩ := hb
  rw [hcode]
  exact List.cons_ne_nil _ _

end Zrhos.Sched
