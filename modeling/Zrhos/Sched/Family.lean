import Zrhos.Sched.Calls

/-! Parents and children: the instructions of `exit`, `sys_wait` and `sys_fork` that make,
hand over and free a task. -/
namespace Zrhos.Sched
open Sync

variable {k k' : Kernel} {mode : ℕ → Mode} {view : ℕ → View} {c c' t u p : ℕ} {m : Mode}
  {v : View} {code rest : List Instr} {x : Task} {s : Sem} {status : ℕ}

/-- Nobody's parent is a slot that is free, or one whose task has handed its children over. The
first task lives for ever. -/
structure Family (k : Kernel) : Prop where
  root : (k.task 0).parent = none ∧ (k.task 0).state ≠ .DEAD ∧ (k.task 0).state ≠ .USED
  born : ∀ p q, (k.task p).parent = some q → (k.task p).state ≠ .DEAD
  parent : ∀ p q, (k.task p).parent = some q → p ≠ q ∧ (k.task q).state ≠ .DEAD
  fresh : ∀ p, (k.task p).state = .USED → (k.task p).parent = none
  orphan : ∀ p q, (k.task p).parent = some q → q ≠ 0 → (k.task q).state = .ZOMBIE →
    ∃ c, k.current c = some q ∧ .adopt q p ∈ k.code c

theorem Family.init (value : ℕ → ℕ) (cond : Cond → Bool) : Family (kernelInit value cond) where
  root := ⟨rfl, TaskState.noConfusion, TaskState.noConfusion⟩
  born p q h := by cases h
  parent p q h := by cases h
  fresh p h := rfl
  orphan p q h := by cases h

/-! ### Tasks that neither run nor sleep -/

/-- Nobody but the holder of its lock knows anything about such a task. -/
structure Idle (k : Kernel) (mode : ℕ → Mode) (view : ℕ → View) (u : ℕ) : Prop where
  out : ∀ c, (mode c).about ≠ some u
  popped : ∀ c, (view c).popped ≠ some u
  waiters : ∀ s, u ∉ k.waiters s
  waits : (k.task u).waits = none

theorem Sound.idle (h : Sound k mode view) (howner : k.owner (.task u) = some c)
    (hne : (mode c).about ≠ some u)
    (hstate : (k.task u).state ≠ .RUNNING ∧ (k.task u).state ≠ .SLEEPING) :
    Idle k mode view u := by
  have hout := h.out howner hstate.1 hne
  have hmode : ∀ c', mode c' ≠ .task u := by
    intro c' hc'
    apply hout c'
    rw [hc']
    rfl
  constructor
  case out => exact hout
  case popped => exact fun c' hc' => hstate.2 ((h.cpu c').popped u hc').1
  case waiters =>
    intro s hs
    rcases (h.sem s).asleep u hs with ⟨hsleep, -⟩ | ⟨c', hc', -⟩
    · exact hstate.2 hsleep
    · exact hmode c' hc'
  case waits =>
    by_contra hsome
    obtain ⟨q, hq⟩ := Option.ne_none_iff_exists'.mp hsome
    rcases (h.task u).waits q hq with ⟨c', hc'⟩ | ⟨hsleep, -⟩
    · exact hmode c' hc'
    · exact hstate.2 hsleep

theorem Sound.idle_of_held (h : Sound k mode view) (hm : mode c = .task t)
    (hmem : .task u ∈ (view c).held) (hrun : (view c).own = .RUNNING)
    (hstate : (k.task u).state ≠ .RUNNING ∧ (k.task u).state ≠ .SLEEPING) :
    Idle k mode view u ∧ t ≠ u := by
  have hne : t ≠ u := by
    rintro rfl
    exact hstate.1 ((h.own_state hm).trans hrun)
  refine ⟨h.idle (((h.cpu c).held _).mpr hmem) ?_ hstate, hne⟩
  rw [hm]
  exact fun he => hne (Option.some.inj he)

theorem Idle.free (h : Idle k mode view u) (hs : Sound k mode view)
    (howner : k.owner (.task u) = some c) : Free mode view c u := by
  intro c' hne
  refine ⟨h.out c', fun state hknown => ?_, h.popped c'⟩
  have hmem := ((hs.cpu c').ok.known u state hknown).1
  rw [← (hs.cpu c').held, howner] at hmem
  exact hne (Option.some.inj hmem).symm

/-! ### `exit` -/

theorem Sound.zombie {xstatus : BitVec 32} (h : Sound k mode view)
    (hcode : k.code c = .zombie t xstatus :: rest) :
    ((k.goto c rest).setTask t
      { k.task t with state := .ZOMBIE, xstatus := xstatus, announced := false }).Sane := by
  obtain ⟨hm, hview, rfl⟩ := (h.cpu c).zombie_head hcode
  obtain ⟨-, hchan, htoken, hwaits⟩ := h.tells hm
  rw [hview] at hchan htoken hwaits
  apply Sound.sane
  apply h.touch_self (v := .exiting [.task t]) hm
  case hrun =>
    rw [hview]
    rfl
  case hheld =>
    rw [hview]
    rfl
  case hdoes => exact does_exitRest
  case htells => exact ⟨rfl, hchan, htoken, hwaits⟩
  case hqueued =>
    rw [hview]
    exact fun s hs => by cases hs
  case hqueued' => exact fun s hs => by cases hs
  case hpopped =>
    rw [hview]
    rfl
  case hknown => exact fun i state hi => by cases hi
  case htarget => exact fun q hq => by cases hq
  case hlive => exact TaskState.noConfusion
  case hparked => exact fun hs => by cases hs
  case hsleeper => exact fun hs => by cases hs
  case hzombie => exact fun _ => hchan

/-- An exiting task is about to signal a parent that is there. -/
theorem Sound.signals {q : ℕ} (h : Sound k mode view) (hq : Quiet k k' c)
    (hsteady : (mode c).Steady) (hme : (mode c).me = some t)
    (hview : view c = .exiting [.wait, .task t]) (howner : k'.owner = k.owner)
    (hnoff : k'.noff = k.noff) (htarget : (k.task q).state ≠ .DEAD) {p : Option ℕ}
    (hcode : k'.code c = lmV (.sons q) p ++ rest)
    (hrest : Does (some t) (.exiting [.wait, .task t]) rest) : k'.Sane := by
  refine (h.jump (v := { View.exiting [.wait, .task t] with target := some q }) hq hsteady howner
    hnoff ?_ ?_ ?_ ?_ ?_ ?_ ?_).sane
  · rw [hcode, hme]
    exact does_lmV (View.signals_exiting t q) p hrest
  · rw [hview]
  · rw [hview]
    exact ⟨rfl, rfl, rfl, rfl⟩
  · rw [hview]
  · rw [hview]
  · exact fun i state hi => by cases hi
  · intro q' hq'
    cases hq'
    exact htarget

theorem Sound.signalParent (h : Sound k mode view) (hf : Family k)
    (hcode : k.code c = .signalParent t :: rest)
    (hs : k.perform c rest (.signalParent t) = some k') : k'.Sane := by
  obtain ⟨hsteady, -, ⟨hme, hview⟩, hdoes⟩ := (h.cpu c).head hcode trivial
  have hrest : Does (some t) (.exiting [.wait, .task t]) rest := by
    rw [hme, hview] at hdoes
    exact hdoes
  simp only [Kernel.perform] at hs
  split at hs
  · rename_i q hparent
    cases hs
    exact h.signals (Quiet.goto _ k.cond) hsteady hme hview rfl rfl (hf.parent t q hparent).2
      (Kernel.goto_code _ _ _) hrest
  · cases hs
    apply h.enters hsteady
    rwa [hme, hview]

theorem Sound.adopt (h : Sound k mode view) (hf : Family k)
    (hcode : k.code c = .adopt t p :: rest)
    (hs : k.perform c rest (.adopt t p) = some k') : k'.Sane := by
  obtain ⟨hsteady, -, ⟨hme, hview⟩, hdoes⟩ := (h.cpu c).head hcode trivial
  have hrest : Does (some t) (.exiting [.wait, .task t]) rest := by
    rw [hme, hview] at hdoes
    exact hdoes
  simp only [Kernel.perform] at hs
  split_ifs at hs
  · cases hs
    have hquiet : Quiet k ((k.goto c (lmV (.sons 0) (some p) ++ rest)).setTask p
        { k.task p with parent := some 0, announced := false }) c :=
      Quiet.setTask _ ⟨rfl, rfl, rfl, rfl⟩
    exact h.signals hquiet hsteady hme hview rfl rfl hf.root.2.1 (Kernel.goto_code _ _ _) hrest
  · cases hs
    apply h.enters hsteady
    rwa [hme, hview]

/-! ### `sys_wait` -/

/-- `sys_wait` frees a child. -/
theorem Sound.freeTask (h : Sound k mode view) (hm : mode c = .task t)
    (hview : view c =
      { held := [.wait, .task p], token := some p, known := some (p, .ZOMBIE) })
    (hdoes : Does (some t) (.plain none [.wait, .task p]) code) :
    ((k.goto c code).freeTask t status p).Sane := by
  have hc := h.cpu c
  have hzombie : (k.task p).state = .ZOMBIE := by
    apply hc.known
    rw [hview]
  obtain ⟨hstate, hchan, -, hwaits⟩ := h.tells hm
  rw [hview] at hstate hchan hwaits
  have hstate : (k.task t).state = .RUNNING := hstate
  have howner : k.owner (.task p) = some c := by
    rw [hc.held, hview]
    exact List.mem_cons_of_mem _ List.mem_cons_self
  obtain ⟨hidle, hne⟩ := h.idle_of_held (u := p) hm (by rw [hview]; simp) (by rw [hview])
    (by rw [hzombie]; exact ⟨TaskState.noConfusion, TaskState.noConfusion⟩)
  have hself : ((k.goto c code).freeTask t status p).task t =
      { k.task t with token := none } := by
    change Function.update (Function.update k.task t _) p _ t = _
    rw [Function.update_of_ne hne, Function.update_self]
    rfl
  have hchild : ((k.goto c code).freeTask t status p).task p =
      { k.task p with id := -1, state := .DEAD, parent := none } :=
    Function.update_self _ _ _
  have hother : ∀ u, ¬ (u = t ∨ u = p) →
      ((k.goto c code).freeTask t status p).task u = k.task u := by
    intro u hu
    rw [not_or] at hu
    change Function.update (Function.update k.task t _) p _ u = _
    rw [Function.update_of_ne hu.2, Function.update_of_ne hu.1]
  have hmode := hc.mode
  rw [hm] at hmode
  apply Sound.sane
  apply h.turn (fun u => u = t ∨ u = p) (v := .plain none [.wait, .task p])
  case hl =>
    exact ⟨fun _ hne => Function.update_of_ne hne _ _, fun _ _ => rfl, fun _ _ => rfl,
      fun _ _ => rfl, fun _ _ _ => Iff.rfl⟩
  case hcpu =>
    constructor
    case held =>
      have hheld := hc.held
      rw [hview] at hheld
      exact hheld
    case noff =>
      have hnoff := hc.noff
      rw [hview] at hnoff
      exact hnoff
    case mode =>
      rw [hm]
      refine ⟨hmode.1, hmode.2.1, ?_, ?_⟩
      · change Does (some t) _ (Function.update k.code c code c)
        rw [Function.update_self]
        exact hdoes
      · rw [hself]
        exact ⟨hstate, hchan, rfl, hwaits⟩
    case known => exact fun i state hi => by cases hi
    case queued => exact fun s hs => by cases hs
    case target => exact fun q hq => by cases hq
    case popped => exact fun u hu => by cases hu
  case hsame =>
    intro u hu
    rw [hother u hu]
    exact ⟨.refl _, rfl⟩
  case hfree =>
    rintro u (rfl | rfl)
    · exact h.free_self hm hstate
    · exact hidle.free h howner
  case hdead =>
    rintro u (rfl | rfl) hd
    · rw [hself, hstate] at hd
      cases hd
    · right
      rw [hc.held, hview]
      exact List.mem_cons_self
  case htask =>
    rintro u (rfl | rfl)
    · have hsize : ¬ NTASK ≤ u := by
        intro hu
        have hd := (h.task u).small hu
        rw [hstate] at hd
        cases hd
      constructor
      case running =>
        refine fun _ => ⟨c, ?_⟩
        rw [hm]
        rfl
      case context => exact fun hout => absurd hm (hout c)
      case parked =>
        rw [hself, hstate]
        exact fun hs => by cases hs
      case sleeper =>
        rw [hself, hstate]
        exact fun hs => by cases hs
      case waits => exact fun q _ => .inl ⟨c, hm⟩
      case dead =>
        rw [hself, hstate]
        exact fun hd => by rcases hd with hd | hd <;> cases hd
      case small => exact fun hu => absurd hu hsize
    · constructor
      case running =>
        rw [hchild]
        exact fun hs => by cases hs
      case context =>
        rw [hchild]
        exact fun _ hd => absurd rfl hd
      case parked =>
        rw [hchild]
        exact fun hs => by cases hs
      case sleeper =>
        rw [hchild]
        exact fun hs => by cases hs
      case waits =>
        rw [hchild]
        intro q hq
        rw [hidle.waits] at hq
        cases hq
      case dead =>
        rw [hchild]
        exact fun _ => (h.task u).dead (.inr hzombie)
      case small =>
        rw [hchild]
        exact fun _ => rfl
  case hwaiters => rfl
  case hvalue => exact fun s => (h.sem s).count
  case hasleep =>
    rintro u s (rfl | rfl) hmem
    · have hq := h.not_waiting hm hstate hmem
      rw [hview] at hq
      cases hq
    · exact absurd hmem (hidle.waiters s)
  case hqueue =>
    intro u s hu hT
    rw [hm] at hu
    cases hu
    exact absurd (.inl rfl) hT
  case hpop =>
    rw [hview]
    exact fun u hu => by cases hu
  case hpopper => exact fun u hu => by cases hu

theorem Sound.reap (h : Sound k mode view) (hcode : k.code c = .reap t status p :: rest)
    (hs : k.perform c rest (.reap t status p) = some k') : k'.Sane := by
  obtain ⟨hsteady, -, ⟨hme, hview⟩, hdoes⟩ := (h.cpu c).head hcode trivial
  have hm := hsteady.task hme
  have hrest : Does (some t) (.plain none []) rest := by rwa [hme] at hdoes
  simp only [Kernel.perform] at hs
  split_ifs at hs
  · cases hs
    exact h.freeTask hm hview (does_release hrest)
  · cases hs
    apply h.pass [.wait, .task p] hm
    · rw [hview]
      exact ⟨rfl, rfl, rfl, rfl, rfl, rfl⟩
    · exact does_release (does_waitScan hrest)

/-! ### `sys_fork` -/

/-- The semaphore of a free slot is not in use. -/
theorem Sound.sons_free (h : Sound k mode view) (hdead : (k.task u).state = .DEAD) :
    (∀ c, k.owner (.sem (.sons u)) ≠ some c) ∧ k.waiters (.sons u) = [] := by
  have hmode : ∀ c, mode c ≠ .task u := by
    intro c hm
    have hown := (h.own_state hm).symm
    rw [hdead] at hown
    exact (h.cpu c).ok.live.1 hown
  constructor
  · intro c hc
    rcases (h.cpu c).ok.sons u (((h.cpu c).held _).mp hc) with hme | htarget
    · cases hmc : mode c with
      | task t =>
        rw [hmc] at hme
        cases hme
        exact hmode c hmc
      | _ =>
        rw [hmc] at hme
        cases hme
    · exact (h.cpu c).target u htarget hdead
  · rw [List.eq_nil_iff_forall_not_mem]
    intro w hw
    obtain rfl := (h.sem (.sons u)).own u w rfl hw
    rcases (h.sem (.sons w)).asleep w hw with ⟨hsleep, -⟩ | ⟨c, hc, -⟩
    · rw [hdead] at hsleep
      cases hsleep
    · exact hmode c hc

theorem Sound.utaskCreate (h : Sound k mode view) (hm : mode c = .task t)
    (hview : view c = .plain none [.task u]) (hsize : u < NTASK)
    (hdead : (k.task u).state = .DEAD)
    (hdoes : Does (some t) { held := [.task u], known := some (u, .USED) } code) :
    ((k.goto c code).utaskCreate u).Sane := by
  have hc := h.cpu c
  obtain ⟨hstate, hchan, htoken, hwaits⟩ := h.tells hm
  rw [hview] at hstate hchan htoken hwaits
  have hstate : (k.task t).state = .RUNNING := hstate
  have howner : k.owner (.task u) = some c := by
    rw [hc.held, hview]
    exact List.mem_cons_self
  obtain ⟨hidle, hne⟩ := h.idle_of_held (u := u) hm (by rw [hview]; simp [View.plain])
    (by rw [hview]; rfl) (by rw [hdead]; exact ⟨TaskState.noConfusion, TaskState.noConfusion⟩)
  obtain ⟨hunowned, hempty⟩ := h.sons_free hdead
  have hself : ((k.goto c code).utaskCreate u).task u = { k.task u with
      id := k.nextpid
      state := .USED
      token := none
      waits := none
      announced := false
      birth := k.births } := Function.update_self _ _ _
  have hother : ∀ w, w ≠ u → ((k.goto c code).utaskCreate u).task w = k.task w :=
    fun w hw => Function.update_of_ne hw _ _
  have hunlocked : ∀ c' l, ((k.goto c code).utaskCreate u).owner l = some c' ↔
      k.owner l = some c' := by
    intro c' l
    change Function.update k.owner _ none l = some c' ↔ _
    by_cases hl : l = .sem (.sons u)
    · subst hl
      rw [Function.update_self]
      constructor
      · intro he
        cases he
      · exact fun he => absurd he (hunowned c')
    · rw [Function.update_of_ne hl]
  have hmode := hc.mode
  rw [hm] at hmode
  apply Sound.sane
  apply h.turn (fun w => w = u) (v := { held := [.task u], known := some (u, .USED) })
  case hl =>
    exact ⟨fun _ hne => Function.update_of_ne hne _ _, fun _ _ => rfl, fun _ _ => rfl,
      fun _ _ => rfl, fun c' _ => hunlocked c'⟩
  case hcpu =>
    constructor
    case held =>
      have hheld := hc.held
      rw [hview] at hheld
      exact fun l => (hunlocked c l).trans (hheld l)
    case noff =>
      have hnoff := hc.noff
      rw [hview] at hnoff
      exact hnoff
    case mode =>
      rw [hm]
      refine ⟨hmode.1, hmode.2.1, ?_, ?_⟩
      · change Does (some t) _ (Function.update k.code c code c)
        rw [Function.update_self]
        exact hdoes
      · rw [hother t hne]
        exact ⟨hstate, hchan, htoken, hwaits⟩
    case known =>
      intro i state hi
      cases hi
      rw [hself]
    case queued => exact fun s hs => by cases hs
    case target => exact fun q hq => by cases hq
    case popped => exact fun w hw => by cases hw
  case hsame =>
    intro w hw
    rw [hother w hw]
    exact ⟨.refl _, Function.update_of_ne hw _ _⟩
  case hfree =>
    rintro w rfl
    exact hidle.free h howner
  case hdead =>
    rintro w rfl -
    exact .inl hdead
  case htask =>
    rintro w rfl
    constructor
    case running =>
      rw [hself]
      exact fun hs => by cases hs
    case context =>
      intro _ _ _
      have hcontext : ((k.goto c code).utaskCreate w).context w = [.unlock (.task w)] :=
        Function.update_self _ _ _
      have hresume : resume (((k.goto c code).utaskCreate w).task w) w =
          .plain none [.task w] := by
        rw [hself, resume, (h.task w).dead (.inl hdead)]
        rfl
      rw [hcontext, hresume]
      exact Does.unlock (View.Outer.ok_task (.inl rfl)) ⟨Option.some_ne_none w, rfl⟩
    case parked =>
      rw [hself]
      exact fun hs => by cases hs
    case sleeper =>
      rw [hself]
      exact fun hs => by cases hs
    case waits =>
      rw [hself]
      exact fun q hq => by cases hq
    case dead =>
      rw [hself]
      exact fun hd => by rcases hd with hd | hd <;> cases hd
    case small => exact fun hw => absurd hsize (not_lt.mpr hw)
  case hwaiters =>
    change Function.update k.waiters (.sons u) [] = k.waiters
    rw [← hempty, Function.update_eq_self]
  case hvalue =>
    intro s
    change (k.waiters s).length = (-Function.update k.value (.sons u) 0 s).toNat
    by_cases hs : s = .sons u
    · subst hs
      rw [hempty, Function.update_self]
      rfl
    · rw [Function.update_of_ne hs]
      exact (h.sem s).count
  case hasleep =>
    rintro w s rfl hmem
    exact absurd hmem (hidle.waiters s)
  case hqueue =>
    rw [hview]
    exact fun t s _ _ hs => by cases hs
  case hpop =>
    rw [hview]
    exact fun w hw => by cases hw
  case hpopper => exact fun w hw => by cases hw

theorem Sound.forkCheck (h : Sound k mode view) (hcode : k.code c = .forkCheck t u :: rest)
    (hs : k.perform c rest (.forkCheck t u) = some k') : k'.Sane := by
  obtain ⟨hsteady, -, ⟨hme, hview, hsize⟩, hdoes⟩ := (h.cpu c).head hcode trivial
  have hrest : Does (some t) (.plain none []) rest := by
    rw [hme, hview] at hdoes
    exact hdoes
  simp only [Kernel.perform] at hs
  split_ifs at hs with hdead
  · cases hs
    exact h.utaskCreate (hsteady.task hme) hview hsize hdead (does_forkFill hrest)
  · cases hs
    apply h.enters hsteady
    rw [hme, hview]
    exact Does.unlock (View.Outer.ok_task (.inl rfl)) (does_forkScan hrest)

theorem Sound.forkFill (h : Sound k mode view) (hcode : k.code c = .forkFill t u :: rest) :
    ((k.goto c rest).setTask u
      { k.task u with state := .RUNNABLE, parent := some t }).Sane := by
  obtain ⟨hsteady, -, ⟨hme, hview⟩, hdoes⟩ := (h.cpu c).head hcode trivial
  have hused : (k.task u).state = .USED := by
    apply (h.cpu c).known
    rw [hview]
  have hmem : .task u ∈ (view c).held := by
    rw [hview]
    exact List.mem_cons_self
  obtain ⟨hidle, -⟩ := h.idle_of_held (hsteady.task hme) hmem (by rw [hview])
    (by rw [hused]; exact ⟨TaskState.noConfusion, TaskState.noConfusion⟩)
  apply Sound.sane
  apply h.rouse (v := (Instr.forkFill t u).next (view c)) hsteady
    (((h.cpu c).held _).mpr hmem) (hidle.out c) (.inr hused) hidle.waiters
    (fun c' _ => hidle.popped c')
  case hx => exact ⟨rfl, rfl, rfl, hidle.waits⟩
  case hheld => rfl
  case hdoes => exact hdoes
  case hown => exact ⟨rfl, rfl, rfl, rfl⟩
  case hqueued => rfl
  case hpopped =>
    intro w
    refine ⟨fun hw => ⟨hw, fun he => hidle.popped c (he ▸ hw)⟩, fun hw => hw.1⟩
  case hknown => exact fun i state hi => by cases hi
  case htarget => exact fun q hq => hq

end Zrhos.Sched
