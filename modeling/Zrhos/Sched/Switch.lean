import Zrhos.Sched.Touch

/-! The steps that hand a CPU from one piece of code to another, and those that change the
queue of a semaphore. -/
namespace Zrhos.Sched
open Sync

variable {k k' : Kernel} {mode : ℕ → Mode} {view : ℕ → View} {c c' t u : ℕ} {m : Mode} {v : View}
  {code rest : List Instr} {x : Task} {s : Sem} {p : Option ℕ}

/-! ### Switches -/

/-- A CPU changes its mode and touches task `t` at most. -/
theorem Sound.switch (h : Sound k mode view) (hl : Local k k' c) (hcpu : OnCpu k' c m v)
    (hsame : ∀ u, u ≠ t → (k'.task u).Same (k.task u) ∧ k'.context u = k.context u)
    (hfree : (k'.task t).Same (k.task t) ∨ Free mode view c t)
    (hdead : (k'.task t).state = .DEAD → (k.task t).state = .DEAD)
    (htask : OnTask k' (Function.update mode c m) (Function.update view c v) t)
    (honce : ∀ t, m.about = some t → (mode c).about = some t ∨ ∀ c', (mode c').about ≠ some t)
    (hleave : ∀ u, (mode c).about = some u → m.about = some u ∨ u = t)
    (hmode : ∀ u, u ≠ t → (mode c = .task u ↔ m = .task u))
    (hwaiters : k'.waiters = k.waiters) (hvalue : k'.value = k.value)
    (hqueued : (view c).queued = none) (hpopped : (view c).popped = none)
    (hpopped' : v.popped = none)
    (hawake : (k'.task t).Same (k.task t) ∨ ∀ s, t ∉ k.waiters s) :
    Sound k' (Function.update mode c m) (Function.update view c v) := by
  apply h.advance (fun u => u = t) hl hcpu hsame
  case hfree =>
    rintro u rfl
    exact hfree
  case hdead =>
    rintro u rfl hd
    exact .inl (hdead hd)
  case htask =>
    rintro u rfl
    exact htask
  case honce => exact honce
  case hleave => exact hleave
  case hmode => exact hmode
  case hsem =>
    intro s
    rw [hwaiters]
    exact .inl rfl
  case hsems =>
    intro s
    have hs := h.sem s
    constructor
    case asleep =>
      rw [hwaiters]
      intro u hu
      have hrecord : (k'.task u).Same (k.task u) := by
        by_cases ht : u = t
        · subst ht
          exact hawake.resolve_right fun hout => hout s hu
        · exact (hsame u ht).1
      rw [hrecord.state, hrecord.chan]
      rcases hs.asleep u hu with hsleep | ⟨c', hc', hq⟩
      · exact .inl hsleep
      · have hne : c' ≠ c := by
          intro hc
          rw [hc, hqueued] at hq
          cases hq
        refine .inr ⟨c', ?_⟩
        rw [Function.update_of_ne hne, Function.update_of_ne hne]
        exact ⟨hc', hq⟩
    case nodup =>
      rw [hwaiters]
      exact hs.nodup
    case count =>
      rw [hwaiters, hvalue]
      exact hs.count
    case own =>
      rw [hwaiters]
      exact hs.own
  case hapart =>
    rw [hwaiters]
    exact h.apart
  case hstay =>
    rw [hwaiters]
    exact fun s u hu => .inl hu
  case hnew =>
    rw [hwaiters]
    exact fun s u hu => .inl hu
  case hpop =>
    intro u hu
    rw [hpopped] at hu
    cases hu
  case hpopper =>
    intro u hu
    rw [hpopped'] at hu
    cases hu

theorem popped_update (hpopped : (view c).popped = none) :
    (∃ c', (view c').popped = some t) →
      ∃ c', (Function.update view c v c').popped = some t := by
  rintro ⟨c', hc'⟩
  refine ⟨c', ?_⟩
  have hne : c' ≠ c := by
    intro hc
    rw [hc, hpopped] at hc'
    cases hc'
  rw [Function.update_of_ne hne]
  exact hc'

theorem Local.leave : Local k (k.leave c t rest) c where
  code _ hne := Function.update_of_ne hne _ _
  current _ _ := rfl
  home _ _ := rfl
  noff _ _ := rfl
  owner _ _ _ := Iff.rfl

/-- A task gives up its CPU while it holds its own lock and no other. -/
theorem Sound.leave (h : Sound k mode view) (hm : mode c = .task t)
    (hheld : (view c).held = [.task t]) (hown : (view c).own ≠ .RUNNING)
    (hqueued : (view c).queued = none) (hpopped : (view c).popped = none)
    (hwaits : ∀ q, (view c).waits = some q →
      (view c).own = .SLEEPING ∧ (view c).chan = some q.chan)
    (hdoes : (view c).own ≠ .ZOMBIE →
      Does (some t) { held := [.task t], chan := (view c).chan, token := (view c).token } rest) :
    (k.leave c t rest).Sane := by
  have hc := h.cpu c
  have hmode := hc.mode
  rw [hm] at hmode
  obtain ⟨hcurrent, hhome, -, hstate, hchan, htoken, hwait⟩ := hmode
  have hrun : (k.task t).state ≠ .RUNNING := by
    rw [hstate]
    exact hown
  apply Sound.sane
  apply h.switch (t := t) (m := .back t) (v := .plain none [.task t]) Local.leave
  case hcpu =>
    constructor
    case held =>
      intro l
      have hl := hc.held l
      rw [hheld] at hl
      exact hl
    case noff =>
      have hn := hc.noff
      rw [hheld] at hn
      exact hn
    case mode =>
      refine ⟨hcurrent, ?_, hrun, rfl⟩
      change Function.update k.code c (k.home c) c = back t
      rw [Function.update_self, hhome]
    case known => exact fun i state hi => by cases hi
    case queued => exact fun s hs => by cases hs
    case target => exact fun q hq => by cases hq
    case popped => exact fun u hu => by cases hu
  case hsame => exact fun u hu => ⟨.refl _, Function.update_of_ne hu _ _⟩
  case hfree => exact .inl (.refl _)
  case hdead => exact id
  case htask =>
    apply OnTask.same (h.task t)
    case hs => exact .refl _
    case hrunning => exact fun hr => absurd hr hrun
    case hcontext =>
      intro _ _ hz
      have hcontext : (k.leave c t rest).context t = rest := Function.update_self _ _ _
      rw [hcontext, resume, hchan, htoken]
      rw [hstate] at hz
      exact hdoes hz
    case hstay => exact fun s hs => .inl hs
    case hpop => exact popped_update hpopped
    case hwaits =>
      intro _
      right
      intro q hq
      rw [hwait] at hq
      rw [hstate, hchan]
      exact hwaits q hq
  case honce =>
    intro u hu
    left
    rw [hm]
    exact hu
  case hleave =>
    intro u hu
    rw [hm] at hu
    exact .inl hu
  case hmode =>
    intro u hu
    rw [hm]
    constructor
    · intro he
      cases he
      exact absurd rfl hu
    · intro he
      cases he
  case hwaiters => rfl
  case hvalue => rfl
  case hqueued => exact hqueued
  case hpopped => exact hpopped
  case hpopped' => rfl
  case hawake => exact .inl (.refl _)

/-- The scheduler has found a task to run. -/
theorem Sound.pick (h : Sound k mode view) (hcode : k.code c = .pick t :: rest)
    (hstate : (k.task t).state = .RUNNABLE) :
    ((k.goto c (.setCurrent (some t) :: .enter t :: .setCurrent none :: rest)).setTask t
      { k.task t with state := .RUNNING }).Sane := by
  have hc := h.cpu c
  obtain ⟨hm, hview, rfl⟩ : mode c = .sched ∧ view c = .plain none [.task t] ∧
      rest = [.unlock (.task t), .scan (t + 1)] := hc.pick_head hcode
  have hmode := hc.mode
  rw [hm] at hmode
  have howner : k.owner (.task t) = some c := by
    rw [hc.held, hview]
    exact List.mem_cons_self
  have hrun : (k.task t).state ≠ .RUNNING := by
    rw [hstate]
    exact TaskState.noConfusion
  have hnone : (mode c).about ≠ some t := by
    rw [hm]
    exact fun he => by cases he
  have hout := h.out howner hrun hnone
  apply Sound.sane
  apply h.switch (t := t) (m := .picked t) (v := .plain none [.task t]) Local.setTask
  case hcpu =>
    constructor
    case held =>
      have hl := hc.held
      rw [hview] at hl
      exact hl
    case noff =>
      have hn := hc.noff
      rw [hview] at hn
      exact hn
    case mode =>
      refine ⟨hmode.1, Function.update_self _ _ _, ?_, rfl⟩
      rw [Kernel.setTask_self]
    case known => exact fun i state hi => by cases hi
    case queued => exact fun s hs => by cases hs
    case target => exact fun q hq => by cases hq
    case popped => exact fun u hu => by cases hu
  case hsame =>
    intro u hu
    rw [Kernel.setTask_of_ne _ _ hu]
    exact ⟨.refl _, rfl⟩
  case hfree =>
    right
    apply h.free_other howner hrun
    intro c' _ hpopped
    have hsleep := ((h.cpu c').popped t hpopped).1
    rw [hstate] at hsleep
    cases hsleep
  case hdead =>
    rw [Kernel.setTask_self]
    exact fun hd => by cases hd
  case htask =>
    have ht := h.task t
    constructor
    case running =>
      refine fun _ => ⟨c, ?_⟩
      rw [Function.update_self]
      rfl
    case context =>
      intro _ _ _
      rw [Kernel.setTask_self]
      apply ht.context
      · intro c' hc'
        apply hout c'
        rw [hc']
        rfl
      · rw [hstate]
        exact TaskState.noConfusion
      · rw [hstate]
        exact TaskState.noConfusion
    case parked =>
      rw [Kernel.setTask_self]
      exact fun hs => by cases hs
    case sleeper =>
      rw [Kernel.setTask_self]
      exact fun hs => by cases hs
    case waits =>
      rw [Kernel.setTask_self]
      intro q hq
      rcases ht.waits q hq with ⟨c', hc'⟩ | ⟨hs, -⟩
      · have habout := hout c'
        rw [hc'] at habout
        exact absurd rfl habout
      · rw [hstate] at hs
        cases hs
    case dead =>
      rw [Kernel.setTask_self]
      exact fun hd => by rcases hd with hd | hd <;> cases hd
    case small =>
      intro hsize
      have hd := ht.small hsize
      rw [hstate] at hd
      cases hd
  case honce =>
    intro u hu
    cases hu
    exact .inr hout
  case hleave =>
    intro u hu
    rw [hm] at hu
    cases hu
  case hmode =>
    intro u _
    rw [hm]
    constructor <;> intro he <;> cases he
  case hwaiters => rfl
  case hvalue => rfl
  case hqueued =>
    rw [hview]
    rfl
  case hpopped =>
    rw [hview]
    rfl
  case hpopped' => rfl
  case hawake =>
    right
    intro s hmem
    rcases (h.sem s).asleep t hmem with ⟨hs, -⟩ | ⟨c', hc', -⟩
    · rw [hstate] at hs
      cases hs
    · apply hout c'
      rw [hc']
      rfl

theorem Local.setCurrent {o : Option ℕ} :
    Local k { k.goto c code with current := Function.update k.current c o } c where
  code _ hne := Function.update_of_ne hne _ _
  current _ hne := Function.update_of_ne hne _ _
  home _ _ := rfl
  noff _ _ := rfl
  owner _ _ _ := Iff.rfl

/-- On the way to a task. -/
theorem Sound.arrive (h : Sound k mode view) (hm : mode c = .picked t) :
    ({ k.goto c (.enter t :: back t) with
      current := Function.update k.current c (some t) }).Sane := by
  have hc := h.cpu c
  have hmode := hc.mode
  rw [hm] at hmode
  obtain ⟨-, -, hrun, hview⟩ := hmode
  apply Sound.sane
  apply h.switch (t := t) (m := .entering t) (v := view c) Local.setCurrent
  case hcpu =>
    constructor
    case held => exact hc.held
    case noff => exact hc.noff
    case mode => exact ⟨Function.update_self _ _ _, Function.update_self _ _ _, hrun, hview⟩
    case known => exact hc.known
    case queued =>
      rw [hview]
      exact fun s hs => by cases hs
    case target => exact hc.target
    case popped => exact hc.popped
  case hsame => exact fun u _ => ⟨.refl _, rfl⟩
  case hfree => exact .inl (.refl _)
  case hdead => exact id
  case htask =>
    have hne : ∀ c', mode c' = .task t → c' ≠ c := by
      intro c' hc' he
      rw [he, hm] at hc'
      cases hc'
    apply OnTask.same (h.task t)
    case hs => exact .refl _
    case hrunning =>
      refine fun _ => ⟨c, ?_⟩
      rw [Function.update_self]
      rfl
    case hcontext =>
      intro hout hd hz
      apply (h.task t).context _ hd hz
      intro c' hc'
      apply hout c'
      rw [Function.update_of_ne (hne c' hc')]
      exact hc'
    case hstay => exact fun s hs => .inl hs
    case hpop =>
      rw [Function.update_eq_self]
      exact id
    case hwaits =>
      rintro ⟨c', hc'⟩
      refine .inl ⟨c', ?_⟩
      rw [Function.update_of_ne (hne c' hc')]
      exact hc'
  case honce =>
    intro u hu
    rw [hm]
    exact .inl hu
  case hleave =>
    intro u hu
    rw [hm] at hu
    exact .inl hu
  case hmode =>
    intro u _
    rw [hm]
    constructor <;> intro he <;> cases he
  case hwaiters => rfl
  case hvalue => rfl
  case hqueued =>
    rw [hview]
    rfl
  case hpopped =>
    rw [hview]
    rfl
  case hpopped' =>
    rw [hview]
    rfl
  case hawake => exact .inl (.refl _)

/-- The scheduler is back from a task. -/
theorem Sound.depart (h : Sound k mode view) (hm : mode c = .back t) :
    ({ k.goto c [.unlock (.task t), .scan (t + 1)] with
      current := Function.update k.current c none }).Sane := by
  have hc := h.cpu c
  have hmode := hc.mode
  rw [hm] at hmode
  obtain ⟨-, -, hrun, hview⟩ := hmode
  apply Sound.sane
  apply h.switch (t := t) (m := .sched) (v := view c) Local.setCurrent
  case hcpu =>
    constructor
    case held => exact hc.held
    case noff => exact hc.noff
    case mode =>
      refine ⟨Function.update_self _ _ _, ?_⟩
      change Does none (view c) (Function.update k.code c [.unlock (.task t), .scan (t + 1)] c)
      rw [Function.update_self, hview]
      exact does_back t
    case known => exact hc.known
    case queued =>
      rw [hview]
      exact fun s hs => by cases hs
    case target => exact hc.target
    case popped => exact hc.popped
  case hsame => exact fun u _ => ⟨.refl _, rfl⟩
  case hfree => exact .inl (.refl _)
  case hdead => exact id
  case htask =>
    have hne : ∀ c', mode c' = .task t → c' ≠ c := by
      intro c' hc' he
      rw [he, hm] at hc'
      cases hc'
    apply OnTask.same (h.task t)
    case hs => exact .refl _
    case hrunning => exact fun hr => absurd hr hrun
    case hcontext =>
      intro hout hd hz
      apply (h.task t).context _ hd hz
      intro c' hc'
      apply hout c'
      rw [Function.update_of_ne (hne c' hc')]
      exact hc'
    case hstay => exact fun s hs => .inl hs
    case hpop =>
      rw [Function.update_eq_self]
      exact id
    case hwaits =>
      rintro ⟨c', hc'⟩
      refine .inl ⟨c', ?_⟩
      rw [Function.update_of_ne (hne c' hc')]
      exact hc'
  case honce => exact fun u hu => by cases hu
  case hleave =>
    intro u hu
    rw [hm] at hu
    cases hu
    exact .inr rfl
  case hmode =>
    intro u _
    rw [hm]
    constructor <;> intro he <;> cases he
  case hwaiters => rfl
  case hvalue => rfl
  case hqueued =>
    rw [hview]
    rfl
  case hpopped =>
    rw [hview]
    rfl
  case hpopped' =>
    rw [hview]
    rfl
  case hawake => exact .inl (.refl _)

theorem Sound.setCurrent {o : Option ℕ} (h : Sound k mode view)
    (hcode : k.code c = .setCurrent o :: rest) :
    ({ k.goto c rest with current := Function.update k.current c o }).Sane := by
  rcases (h.cpu c).setCurrent_head hcode with ⟨t, hm, rfl, rfl⟩ | ⟨t, hm, rfl, rfl⟩
  · exact h.arrive hm
  · exact h.depart hm

theorem Sound.enter (h : Sound k mode view) (hcode : k.code c = .enter t :: rest) :
    ({ k with
      home := Function.update k.home c rest
      code := Function.update k.code c (k.context t) }).Sane := by
  have hc := h.cpu c
  obtain ⟨hm, rfl⟩ := hc.enter_head hcode
  have hmode := hc.mode
  rw [hm] at hmode
  obtain ⟨hcurrent, -, hrun, hview⟩ := hmode
  have hl : Local k { k with
      home := Function.update k.home c (back t)
      code := Function.update k.code c (k.context t) } c :=
    { code := fun _ hne => Function.update_of_ne hne _ _
      current := fun _ _ => rfl
      home := fun _ hne => Function.update_of_ne hne _ _
      noff := fun _ _ => rfl
      owner := fun _ _ _ => Iff.rfl }
  have hout : ∀ c', mode c' ≠ .task t := by
    intro c' hc'
    have hcc : c' = c := by
      apply h.once c' c t
      · rw [hc']
        rfl
      · rw [hm]
        rfl
    rw [hcc, hm] at hc'
    cases hc'
  have hwaits : (k.task t).waits = none := by
    rw [Option.eq_none_iff_forall_not_mem]
    intro q hq
    rcases (h.task t).waits q hq with ⟨c', hc'⟩ | ⟨hs, -⟩
    · exact hout c' hc'
    · rw [hrun] at hs
      cases hs
  apply Sound.sane
  apply h.switch (t := t) (m := .task t) (v := resume (k.task t) t) hl
  case hcpu =>
    constructor
    case held =>
      have hl := hc.held
      rw [hview] at hl
      exact hl
    case noff =>
      have hn := hc.noff
      rw [hview] at hn
      exact hn
    case mode =>
      refine ⟨hcurrent, Function.update_self _ _ _, ?_, hrun, rfl, rfl, hwaits⟩
      change Does (some t) _ (Function.update k.code c (k.context t) c)
      rw [Function.update_self]
      apply (h.task t).context hout
      · rw [hrun]
        exact TaskState.noConfusion
      · rw [hrun]
        exact TaskState.noConfusion
    case known => exact fun i state hi => by cases hi
    case queued => exact fun s hs => by cases hs
    case target => exact fun q hq => by cases hq
    case popped => exact fun u hu => by cases hu
  case hsame => exact fun u _ => ⟨.refl _, rfl⟩
  case hfree => exact .inl (.refl _)
  case hdead => exact id
  case htask =>
    apply OnTask.same (h.task t)
    case hs => exact .refl _
    case hrunning =>
      refine fun _ => ⟨c, ?_⟩
      rw [Function.update_self]
      rfl
    case hcontext =>
      intro hno
      exact absurd (Function.update_self c (Mode.task t) mode) (hno c)
    case hstay => exact fun s hs => .inl hs
    case hpop =>
      apply popped_update
      rw [hview]
      rfl
    case hwaits => exact fun _ => .inl ⟨c, Function.update_self _ _ _⟩
  case honce =>
    intro u hu
    rw [hm]
    exact .inl hu
  case hleave =>
    intro u hu
    rw [hm] at hu
    exact .inl hu
  case hmode =>
    intro u hu
    rw [hm]
    constructor
    · intro he
      cases he
    · intro he
      cases he
      exact absurd rfl hu
  case hwaiters => rfl
  case hvalue => rfl
  case hqueued =>
    rw [hview]
    rfl
  case hpopped =>
    rw [hview]
    rfl
  case hpopped' => rfl
  case hawake => exact .inl (.refl _)

end Zrhos.Sched
