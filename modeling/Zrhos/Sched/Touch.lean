import Zrhos.Sched.Sound

/-! Steps that keep the invariant, by what they touch: locks only, the own task, or a task
that another CPU has put to sleep. -/
namespace Zrhos.Sched
open Sync

variable {k k' : Kernel} {mode : ℕ → Mode} {view : ℕ → View} {c c' t u : ℕ} {m : Mode} {v : View}
  {l : Lock} {code rest : List Instr} {x : Task}

/-- Some assignment of modes and views explains the state. -/
def Kernel.Sane (k : Kernel) : Prop := ∃ mode view, Sound k mode view

theorem Sound.sane (h : Sound k mode view) : k.Sane := ⟨mode, view, h⟩

/-! ### Locks and jumps -/

theorem Quiet.goto (code : List Instr) (cond : Cond → Bool) :
    Quiet k { k.goto c code with cond := cond } c where
  code _ hne := Function.update_of_ne hne _ _
  current _ _ := rfl
  home _ _ := rfl
  noff _ _ := rfl
  owner _ _ _ := Iff.rfl
  same _ := .refl _
  context := rfl
  waiters := rfl
  value := rfl
  currents := rfl
  homes := rfl

theorem Local.setTask : Local k ((k.goto c code).setTask t x) c where
  code _ hne := Function.update_of_ne hne _ _
  current _ _ := rfl
  home _ _ := rfl
  noff _ _ := rfl
  owner _ _ _ := Iff.rfl

theorem Quiet.setTask (code : List Instr) (hx : x.Same (k.task u)) :
    Quiet k ((k.goto c code).setTask u x) c where
  toLocal := .setTask
  same w := by
    by_cases hw : w = u
    · subst hw
      rw [Kernel.setTask_self]
      exact hx
    · rw [Kernel.setTask_of_ne _ _ hw]
      exact .refl _
  context := rfl
  waiters := rfl
  value := rfl
  currents := rfl
  homes := rfl

/-- A jump of the running code, with what it has found out. -/
theorem Sound.jump (h : Sound k mode view) (hq : Quiet k k' c) (hm : (mode c).Steady)
    (howner : k'.owner = k.owner) (hnoff : k'.noff = k.noff)
    (hdoes : Does (mode c).me v (k'.code c)) (hheld : v.held = (view c).held)
    (hown : v.own = (view c).own ∧ v.chan = (view c).chan ∧ v.token = (view c).token ∧
      v.waits = (view c).waits)
    (hqueued : v.queued = (view c).queued) (hpopped : v.popped = (view c).popped)
    (hknown : ∀ i state, v.known = some (i, state) → (k.task i).state = state)
    (htarget : ∀ q, v.target = some q → (k.task q).state ≠ .DEAD) :
    Sound k' mode (Function.update view c v) := by
  apply h.quiet hq hm _ _ hdoes hown hqueued hpopped hknown htarget
  · rw [howner, hheld]
    exact (h.cpu c).held
  · rw [hnoff, hheld]
    exact (h.cpu c).noff

/-- A jump that leaves the view as it is. -/
theorem Sound.step_on (h : Sound k mode view) (hq : Quiet k k' c) (hm : (mode c).Steady)
    (howner : k'.owner = k.owner) (hnoff : k'.noff = k.noff)
    (hdoes : Does (mode c).me (view c) (k'.code c)) : Sound k' mode view := by
  have hall := h.jump hq hm howner hnoff hdoes rfl ⟨rfl, rfl, rfl, rfl⟩ rfl rfl
    (h.cpu c).known (h.cpu c).target
  rwa [Function.update_eq_self] at hall

theorem Sound.lock (h : Sound k mode view) (hcode : k.code c = .lock l :: rest)
    (hfree : k.owner l = none) :
    Sound { k.goto c rest with
      owner := Function.update k.owner l (some c)
      noff := Function.update k.noff c (k.noff c + 1) } mode
      (Function.update view c ((Instr.lock l).next (view c))) := by
  obtain ⟨hm, -, -, hdoes⟩ := (h.cpu c).head hcode trivial
  have hq : Quiet k { k.goto c rest with
      owner := Function.update k.owner l (some c)
      noff := Function.update k.noff c (k.noff c + 1) } c :=
    { code := fun _ hne => Function.update_of_ne hne _ _
      current := fun _ _ => rfl
      home := fun _ _ => rfl
      noff := fun _ hne => Function.update_of_ne hne _ _
      owner := by
        intro c' hne l'
        by_cases hl : l' = l
        · subst hl
          simp [hfree, hne.symm]
        · simp [hl]
      same := fun _ => .refl _
      context := rfl
      waiters := rfl
      value := rfl
      currents := rfl
      homes := rfl }
  apply h.quiet hq hm
  case hheld =>
    intro l'
    by_cases hl : l' = l
    · subst hl
      simp [Instr.next]
    · simp [Instr.next, hl, (h.cpu c).held]
  case hnoff => simp [Instr.next, (h.cpu c).noff]
  case hdoes =>
    dsimp only [Kernel.goto]
    rw [Function.update_self]
    exact hdoes
  case hown => exact ⟨rfl, rfl, rfl, rfl⟩
  case hqueued => rfl
  case hpopped => rfl
  case hknown => exact (h.cpu c).known
  case htarget => exact (h.cpu c).target

theorem Sound.unlock (h : Sound k mode view) (hcode : k.code c = .unlock l :: rest)
    (howned : k.owner l = some c) :
    Sound { k.goto c rest with
      owner := Function.update k.owner l none
      noff := Function.update k.noff c (k.noff c - 1) } mode
      (Function.update view c ((Instr.unlock l).next (view c))) := by
  obtain ⟨hm, hok, ⟨hmem, -, -⟩, hdoes⟩ := (h.cpu c).head hcode trivial
  have hq : Quiet k { k.goto c rest with
      owner := Function.update k.owner l none
      noff := Function.update k.noff c (k.noff c - 1) } c :=
    { code := fun _ hne => Function.update_of_ne hne _ _
      current := fun _ _ => rfl
      home := fun _ _ => rfl
      noff := fun _ hne => Function.update_of_ne hne _ _
      owner := by
        intro c' hne l'
        by_cases hl : l' = l
        · subst hl
          simp [howned, hne.symm]
        · simp [hl]
      same := fun _ => .refl _
      context := rfl
      waiters := rfl
      value := rfl
      currents := rfl
      homes := rfl }
  apply h.quiet hq hm
  case hheld =>
    intro l'
    by_cases hl : l' = l
    · subst hl
      simp [Instr.next, hok.nodup.mem_erase_iff]
    · simp [Instr.next, hl, (h.cpu c).held, hok.nodup.mem_erase_iff]
  case hnoff => simp [Instr.next, (h.cpu c).noff, List.length_erase_of_mem hmem]
  case hdoes =>
    dsimp only [Kernel.goto]
    rw [Function.update_self]
    exact hdoes
  case hown => exact ⟨rfl, rfl, rfl, rfl⟩
  case hqueued => rfl
  case hpopped => rfl
  case hknown =>
    intro i state hi
    cases hi
  case htarget =>
    intro q hq
    apply (h.cpu c).target
    cases l with
    | sem s => cases hq
    | task t => exact hq
    | wait => exact hq
    | other n => exact hq

/-! ### The own task -/

theorem Sound.own_state (h : Sound k mode view) (hm : mode c = .task t) :
    (k.task t).state = (view c).own := by
  have hmode := (h.cpu c).mode
  rw [hm] at hmode
  exact hmode.2.2.2.1

/-- Nobody else knows anything about a task that runs. -/
theorem Sound.free_self (h : Sound k mode view) (hm : mode c = .task t)
    (hrun : (k.task t).state = .RUNNING) : Free mode view c t := by
  intro c' hne
  refine ⟨fun habout => ?_, fun state hknown => ?_, fun hpopped => ?_⟩
  · apply hne
    apply h.once c' c t habout
    rw [hm]
    rfl
  · have hstate := ((h.cpu c').known t state hknown).symm.trans hrun
    rcases ((h.cpu c').ok.known t state hknown).2 with rfl | rfl <;> cases hstate
  · have hsleep := ((h.cpu c').popped t hpopped).1
    rw [hrun] at hsleep
    cases hsleep

/-- A task that runs and has not enqueued itself is in no queue. -/
theorem Sound.not_waiting (h : Sound k mode view) (hm : mode c = .task t)
    (hrun : (k.task t).state = .RUNNING) {s : Sem} (hmem : t ∈ k.waiters s) :
    (view c).queued = some s := by
  rcases (h.sem s).asleep t hmem with hsleep | ⟨c', hc', hq⟩
  · rw [hrun] at hsleep
    cases hsleep.1
  · have hc : c' = c := by
      apply h.once c' c t
      · rw [hc']
        rfl
      · rw [hm]
        rfl
    rw [← hc]
    exact hq

theorem Sound.touch_self (h : Sound k mode view) (hm : mode c = .task t)
    (hrun : (view c).own = .RUNNING) (hheld : v.held = (view c).held)
    (hdoes : Does (some t) v code) (htells : v.Tells x)
    (hqueued : ∀ s, (view c).queued = some s → v.queued = some s ∨
      (x.state = .SLEEPING ∧ x.chan = none))
    (hqueued' : ∀ s, v.queued = some s → (view c).queued = some s)
    (hpopped : v.popped = (view c).popped)
    (hknown : ∀ i state, v.known = some (i, state) → (view c).known = some (i, state))
    (htarget : ∀ q, v.target = some q → (view c).target = some q)
    (hlive : x.state ≠ .DEAD)
    (hparked : x.state = .SLEEPING → x.chan = none →
      ∃ s, (view c).queued = some s ∧ (x.token ≠ none → s = .sons t))
    (hsleeper : x.state = .SLEEPING → ∀ chan, x.chan = some chan →
      ∃ lk, x.waits = some ⟨lk, chan⟩ ∧ x.token = none)
    (hzombie : x.state = .ZOMBIE → x.chan = none) :
    Sound ((k.goto c code).setTask t x) mode (Function.update view c v) := by
  have hc := h.cpu c
  have hstate := (h.own_state hm).trans hrun
  have hself : ((k.goto c code).setTask t x).task t = x := Kernel.setTask_self _ _ _
  have hother : ∀ u, u ≠ t → ((k.goto c code).setTask t x).task u = k.task u :=
    fun u hu => Kernel.setTask_of_ne _ _ hu
  have hmode := hc.mode
  rw [hm] at hmode
  obtain ⟨hcurrent, hhome, -⟩ := hmode
  apply h.turn (fun u => u = t)
  case hl => exact .setTask
  case hcpu =>
    constructor
    case held =>
      rw [hheld]
      exact hc.held
    case noff =>
      rw [hheld]
      exact hc.noff
    case mode =>
      rw [hm]
      refine ⟨hcurrent, hhome, ?_, ?_⟩
      · dsimp only [Kernel.setTask, Kernel.goto]
        rw [Function.update_self]
        exact hdoes
      · rw [hself]
        exact htells
    case known =>
      intro i state hi
      have hold := hc.known i state (hknown i state hi)
      have hne : i ≠ t := by
        intro he
        subst he
        rw [hstate] at hold
        rcases (hc.ok.known i state (hknown i state hi)).2 with rfl | rfl <;> cases hold
      rw [hother i hne]
      exact hold
    case queued => exact fun s hs => hc.queued s (hqueued' s hs)
    case target =>
      intro q hq
      by_cases he : q = t
      · rw [he, hself]
        exact hlive
      · rw [hother q he]
        exact hc.target q (htarget q hq)
    case popped =>
      intro u hu
      rw [hpopped] at hu
      have hold := hc.popped u hu
      have hne : u ≠ t := by
        intro he
        subst he
        rw [hstate] at hold
        cases hold.1
      rw [hother u hne]
      exact hold
  case hsame =>
    intro u hu
    rw [hother u hu]
    exact ⟨.refl _, rfl⟩
  case hfree =>
    rintro u rfl
    exact h.free_self hm hstate
  case hdead =>
    rintro u rfl hd
    rw [hself] at hd
    exact absurd hd hlive
  case htask =>
    rintro u rfl
    have hsize : ¬ NTASK ≤ u := by
      intro hu
      have hdead := (h.task u).small hu
      rw [hstate] at hdead
      cases hdead
    constructor
    case running =>
      intro _
      refine ⟨c, ?_⟩
      rw [hm]
      rfl
    case context => exact fun hout => absurd hm (hout c)
    case parked =>
      rw [hself]
      intro hs hch
      obtain ⟨s, hs, hsons⟩ := hparked hs hch
      obtain ⟨t', ht', hmem⟩ := hc.queued s hs
      rw [hm] at ht'
      cases ht'
      exact .inl ⟨s, hmem, hsons⟩
    case sleeper =>
      rw [hself]
      exact hsleeper
    case waits => exact fun q _ => .inl ⟨c, hm⟩
    case dead =>
      rw [hself]
      exact fun hd => hzombie (hd.resolve_left hlive)
    case small => exact fun hu => absurd hu hsize
  case hwaiters => rfl
  case hvalue => exact fun s => (h.sem s).count
  case hasleep =>
    rintro u s rfl hmem
    rw [hself]
    rcases hqueued s (h.not_waiting hm hstate hmem) with hq | hsleep
    · exact .inr ⟨hm, hq⟩
    · exact .inl hsleep
  case hqueue =>
    intro u s hu hne
    rw [hm] at hu
    cases hu
    exact absurd rfl hne
  case hpop =>
    intro u hu
    rw [hpopped]
    exact .inl hu
  case hpopper =>
    intro u hu
    rw [← hpopped]
    exact hu

/-! ### Other tasks -/

/-- Nobody else knows anything about a task that does not run and whose lock a CPU holds. -/
theorem Sound.free_other (h : Sound k mode view) (howner : k.owner (.task u) = some c)
    (hstate : (k.task u).state ≠ .RUNNING)
    (hpopped : ∀ c', c' ≠ c → (view c').popped ≠ some u) : Free mode view c u := by
  intro c' hne
  refine ⟨h.not_elsewhere howner hstate hne, fun state hknown => ?_, hpopped c' hne⟩
  have hmem := ((h.cpu c').ok.known u state hknown).1
  rw [← (h.cpu c').held, howner] at hmem
  exact hne (Option.some.inj hmem).symm

/-- A task that is not at this CPU either is not in any mode of its own. -/
theorem Sound.out (h : Sound k mode view) (howner : k.owner (.task u) = some c)
    (hstate : (k.task u).state ≠ .RUNNING) (hne : (mode c).about ≠ some u) :
    ∀ c', (mode c').about ≠ some u := by
  intro c'
  by_cases hc : c' = c
  · rw [hc]
    exact hne
  · exact h.not_elsewhere howner hstate hc

theorem Sound.rouse (h : Sound k mode view) (hm : (mode c).Steady)
    (howner : k.owner (.task u) = some c) (hne : (mode c).about ≠ some u)
    (hstate : (k.task u).state = .SLEEPING ∨ (k.task u).state = .USED)
    (hout : ∀ s, u ∉ k.waiters s) (hpopper : ∀ c', c' ≠ c → (view c').popped ≠ some u)
    (hx : x.state = .RUNNABLE ∧ x.chan = (k.task u).chan ∧ x.token = (k.task u).token ∧
      x.waits = none)
    (hheld : v.held = (view c).held) (hdoes : Does (mode c).me v code)
    (hown : v.own = (view c).own ∧ v.chan = (view c).chan ∧ v.token = (view c).token ∧
      v.waits = (view c).waits)
    (hqueued : v.queued = (view c).queued)
    (hpopped : ∀ w, v.popped = some w ↔ (view c).popped = some w ∧ w ≠ u)
    (hknown : ∀ i state, v.known = some (i, state) → i ≠ u ∧ (view c).known = some (i, state))
    (htarget : ∀ q, v.target = some q → (view c).target = some q) :
    Sound ((k.goto c code).setTask u x) mode (Function.update view c v) := by
  have hc := h.cpu c
  obtain ⟨hrunnable, hchan, htoken, hwaits⟩ := hx
  have hrun : (k.task u).state ≠ .RUNNING := by
    rcases hstate with hs | hs <;> rw [hs] <;> exact TaskState.noConfusion
  have hself : ((k.goto c code).setTask u x).task u = x := Kernel.setTask_self _ _ _
  have hother : ∀ w, w ≠ u → ((k.goto c code).setTask u x).task w = k.task w :=
    fun w hw => Kernel.setTask_of_ne _ _ hw
  have hmodes := h.out howner hrun hne
  apply h.turn (fun w => w = u)
  case hl => exact .setTask
  case hcpu =>
    constructor
    case held =>
      rw [hheld]
      exact hc.held
    case noff =>
      rw [hheld]
      exact hc.noff
    case mode =>
      refine hc.mode.steady hm rfl rfl ?_ ?_
      · dsimp only [Kernel.setTask, Kernel.goto]
        rw [Function.update_self]
        exact hdoes
      · intro t ht
        have hmode := hc.mode
        rw [ht] at hmode
        obtain ⟨-, -, -, hs, hch, hto, hw⟩ := hmode
        have htu : t ≠ u := by
          intro he
          apply hne
          rw [ht, he]
          rfl
        rw [hother t htu]
        exact ⟨hs.trans hown.1.symm, hch.trans hown.2.1.symm, hto.trans hown.2.2.1.symm,
          hw.trans hown.2.2.2.symm⟩
    case known =>
      intro i state hi
      obtain ⟨hiu, hi⟩ := hknown i state hi
      rw [hother i hiu]
      exact hc.known i state hi
    case queued =>
      rw [hqueued]
      exact hc.queued
    case target =>
      intro q hq
      by_cases he : q = u
      · rw [he, hself, hrunnable]
        exact TaskState.noConfusion
      · rw [hother q he]
        exact hc.target q (htarget q hq)
    case popped =>
      intro w hw
      obtain ⟨hw, hwu⟩ := (hpopped w).mp hw
      rw [hother w hwu]
      exact hc.popped w hw
  case hsame =>
    intro w hw
    rw [hother w hw]
    exact ⟨.refl _, rfl⟩
  case hfree =>
    rintro w rfl
    exact h.free_other howner hrun hpopper
  case hdead =>
    rintro w rfl hd
    rw [hself, hrunnable] at hd
    cases hd
  case htask =>
    rintro w rfl
    have hw := h.task w
    constructor
    case running =>
      rw [hself, hrunnable]
      exact fun hr => by cases hr
    case context =>
      intro hout' _ _
      have hresume : resume x w = resume (k.task w) w := by
        simp only [resume, hchan, htoken]
      rw [hself, hresume]
      apply hw.context hout'
      · rcases hstate with hs | hs <;> rw [hs] <;> exact TaskState.noConfusion
      · rcases hstate with hs | hs <;> rw [hs] <;> exact TaskState.noConfusion
    case parked =>
      rw [hself, hrunnable]
      exact fun hr => by cases hr
    case sleeper =>
      rw [hself, hrunnable]
      exact fun hr => by cases hr
    case waits =>
      rw [hself, hwaits]
      exact fun q hq => by cases hq
    case dead =>
      rw [hself, hrunnable]
      exact fun hd => by rcases hd with hd | hd <;> cases hd
    case small =>
      intro hsize
      have hd := hw.small hsize
      rcases hstate with hs | hs <;> rw [hs] at hd <;> cases hd
  case hwaiters => rfl
  case hvalue => exact fun s => (h.sem s).count
  case hasleep =>
    rintro w s rfl hmem
    exact absurd hmem (hout s)
  case hqueue =>
    intro t s _ _ hs
    rw [hqueued]
    exact hs
  case hpop =>
    intro w hw
    by_cases hwu : w = u
    · exact .inr hwu
    · exact .inl ((hpopped w).mpr ⟨hw, hwu⟩)
  case hpopper => exact fun w hw => ((hpopped w).mp hw).1

end Zrhos.Sched
