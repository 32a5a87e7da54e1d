import Zrhos.Sched.Queue

/-! The instructions of `sched`, `sleep` and `wakeup`, and those of the system calls. -/
namespace Zrhos.Sched
open Sync

variable {k k' : Kernel} {mode : ℕ → Mode} {view : ℕ → View} {c c' t u p : ℕ} {m : Mode}
  {v : View} {code rest : List Instr} {x : Task} {s : Sem} {status : ℕ}

theorem Sound.tells (h : Sound k mode view) (hm : mode c = .task t) :
    (view c).Tells (k.task t) := by
  have hmode := (h.cpu c).mode
  rw [hm] at hmode
  exact hmode.2.2.2

/-- A task changes what it keeps in its own record, and runs on. -/
theorem Sound.adjust (h : Sound k mode view) (hm : mode c = .task t)
    (hrun : (view c).own = .RUNNING) (hx : x.state = .RUNNING) (hheld : v.held = (view c).held)
    (hdoes : Does (some t) v code) (htells : v.Tells x) (hqueued : (view c).queued = none)
    (hqueued' : v.queued = none) (hpopped : v.popped = (view c).popped)
    (hknown : ∀ i state, v.known = some (i, state) → (view c).known = some (i, state))
    (htarget : ∀ q, v.target = some q → (view c).target = some q) :
    ((k.goto c code).setTask t x).Sane := by
  apply Sound.sane
  apply h.touch_self hm hrun hheld hdoes htells
  case hqueued =>
    rw [hqueued]
    exact fun s hs => by cases hs
  case hqueued' =>
    rw [hqueued']
    exact fun s hs => by cases hs
  case hpopped => exact hpopped
  case hknown => exact hknown
  case htarget => exact htarget
  case hlive =>
    rw [hx]
    exact TaskState.noConfusion
  case hparked =>
    rw [hx]
    exact fun hs => by cases hs
  case hsleeper =>
    rw [hx]
    exact fun hs => by cases hs
  case hzombie =>
    rw [hx]
    exact fun hs => by cases hs

/-! ### `sched` and `sleep` -/

theorem Sound.setState {state : TaskState} (h : Sound k mode view)
    (hcode : k.code c = .setState t state :: rest) :
    ((k.goto c rest).setTask t { k.task t with state := state }).Sane := by
  obtain ⟨hsteady, -, ⟨hme, -, hown, hchan, hcases⟩, hdoes⟩ := (h.cpu c).head hcode trivial
  have hm := hsteady.task hme
  rw [hme] at hdoes
  obtain ⟨-, hch, hto, hw⟩ := h.tells hm
  apply Sound.sane
  apply h.touch_self (v := (Instr.setState t state).next (view c)) hm hown rfl hdoes
  case htells => exact ⟨rfl, hch, hto, hw⟩
  case hqueued =>
    intro s hs
    rcases hcases with ⟨-, hq⟩ | ⟨hstate, -⟩
    · rw [hq] at hs
      cases hs
    · exact .inr ⟨hstate, hch.trans hchan⟩
  case hqueued' => exact fun s hs => by cases hs
  case hpopped => rfl
  case hknown => exact fun i state hi => hi
  case htarget => exact fun q hq => hq
  case hlive => rcases hcases with ⟨rfl, -⟩ | ⟨rfl, -⟩ <;> exact TaskState.noConfusion
  case hparked =>
    intro hs _
    rcases hcases with ⟨rfl, -⟩ | ⟨-, s, hq, hsons⟩
    · cases hs
    · refine ⟨s, hq, ?_⟩
      rw [← hto] at hsons
      exact hsons
  case hsleeper =>
    intro _ chan hc
    rw [hchan] at hch
    rw [show (k.task t).chan = some chan from hc] at hch
    cases hch
  case hzombie =>
    rcases hcases with ⟨rfl, -⟩ | ⟨rfl, -⟩ <;> exact fun hs => by cases hs

theorem Sound.sched (h : Sound k mode view) (hcode : k.code c = .sched t :: rest) :
    (k.leave c t rest).Sane := by
  obtain ⟨hsteady, -, ⟨hme, hheld, hrun, -, hqueued, hknown, hpopped, htarget, hwaits⟩, hdoes⟩ :=
    (h.cpu c).head hcode trivial
  rw [hme] at hdoes
  apply h.leave (hsteady.task hme) hheld hrun hqueued hpopped hwaits
  intro _
  have hnext : (Instr.sched t).next (view c) =
      { held := [.task t], chan := (view c).chan, token := (view c).token } := by
    ext <;> simp [Instr.next, hheld, hqueued, hknown, hpopped, htarget]
  rwa [hnext] at hdoes

theorem Sound.swtch (h : Sound k mode view) (hcode : k.code c = .swtch t :: rest) :
    (k.leave c t rest).Sane := by
  obtain ⟨hm, hview, -⟩ := (h.cpu c).swtch_head hcode
  apply h.leave hm
  case hheld =>
    rw [hview]
    rfl
  case hown =>
    rw [hview]
    exact TaskState.noConfusion
  case hqueued =>
    rw [hview]
    rfl
  case hpopped =>
    rw [hview]
    rfl
  case hwaits =>
    rw [hview]
    exact fun q hq => by cases hq
  case hdoes =>
    rw [hview]
    exact fun hz => absurd rfl hz

theorem Sound.goToSleep {chan : ℕ} (h : Sound k mode view)
    (hcode : k.code c = .goToSleep t chan :: rest) :
    ((k.goto c rest).setTask t
      { k.task t with chan := some chan, state := .SLEEPING }).Sane := by
  obtain ⟨hsteady, hok, ⟨hme, hheld, hown, hchan, htoken, lk, hwaits⟩, hdoes⟩ :=
    (h.cpu c).head hcode trivial
  have hm := hsteady.task hme
  rw [hme] at hdoes
  obtain ⟨-, -, hto, hw⟩ := h.tells hm
  have hqueued : ∀ s, (view c).queued ≠ some s := by
    intro s hs
    have hmem := hok.queued s hs
    rw [hheld] at hmem
    cases List.mem_singleton.mp hmem
  apply Sound.sane
  apply h.touch_self (v := (Instr.goToSleep t chan).next (view c)) hm hown rfl hdoes
  case htells => exact ⟨rfl, rfl, hto, hw⟩
  case hqueued => exact fun s hs => absurd hs (hqueued s)
  case hqueued' => exact fun s hs => hs
  case hpopped => rfl
  case hknown => exact fun i state hi => hi
  case htarget => exact fun q hq => hq
  case hlive => exact TaskState.noConfusion
  case hparked => exact fun _ hc => by cases hc
  case hsleeper =>
    intro _ chan' hc
    cases hc
    exact ⟨lk, hw.trans hwaits, hto.trans htoken⟩
  case hzombie => exact fun hs => by cases hs

theorem Sound.tidy (h : Sound k mode view) (hcode : k.code c = .tidy t :: rest) :
    ((k.goto c rest).setTask t { k.task t with chan := none }).Sane := by
  obtain ⟨hsteady, hok, ⟨hme, hmem, hown⟩, hdoes⟩ := (h.cpu c).head hcode trivial
  have hm := hsteady.task hme
  rw [hme] at hdoes
  obtain ⟨hs, -, hto, hw⟩ := h.tells hm
  apply Sound.sane
  apply h.touch_self (v := (Instr.tidy t).next (view c)) hm hown rfl hdoes
  case htells => exact ⟨hs, rfl, hto, hw⟩
  case hqueued => exact fun s hq => .inl hq
  case hqueued' => exact fun s hq => hq
  case hpopped => rfl
  case hknown => exact fun i state hi => hi
  case htarget => exact fun q hq => hq
  case hlive =>
    change (k.task t).state ≠ .DEAD
    rw [hs]
    exact hok.live.1
  case hparked =>
    intro hsleep
    rw [show (k.task t).state = .SLEEPING from hsleep, hown] at hs
    cases hs
  case hsleeper => exact fun _ chan hc => by cases hc
  case hzombie => exact fun _ => rfl

/-- Code that works on a task by itself does not find it at its own CPU. -/
theorem Mode.Steady.about_ne (hm : m.Steady) (hne : m.me ≠ some t) : m.about ≠ some t := by
  rcases hm with rfl | ⟨t', rfl⟩
  · exact fun he => by cases he
  · exact hne

theorem Sound.not_popped (h : Sound k mode view) (hchan : (k.task u).chan ≠ none) :
    (view c).popped ≠ some u :=
  fun hpopped => hchan ((h.cpu c).popped u hpopped).2.1

theorem Sound.wakeIf {chan : ℕ} (h : Sound k mode view)
    (hcode : k.code c = .wakeIf u chan :: rest)
    (hs : k.perform c rest (.wakeIf u chan) = some k') : k'.Sane := by
  obtain ⟨hsteady, hok, ⟨hmem, hme⟩, hdoes⟩ := (h.cpu c).head hcode trivial
  simp only [Kernel.perform] at hs
  split_ifs at hs with hsleep
  · cases hs
    obtain ⟨hstate, hchan⟩ := hsleep
    have hsome : (k.task u).chan ≠ none := by
      rw [hchan]
      exact Option.some_ne_none chan
    have hrun : (k.task u).state ≠ .RUNNING := by
      rw [hstate]
      exact TaskState.noConfusion
    have howner := ((h.cpu c).held _).mpr hmem
    have hne := hsteady.about_ne hme
    have hout := h.out howner hrun hne
    apply Sound.sane
    apply h.rouse (v := view c) hsteady howner hne (.inl hstate)
    case hout =>
      intro s hs
      rcases (h.sem s).asleep u hs with ⟨-, hc⟩ | ⟨c', hc', -⟩
      · exact hsome hc
      · apply hout c'
        rw [hc']
        rfl
    case hpopper => exact fun c' _ => h.not_popped hsome
    case hx => exact ⟨rfl, rfl, rfl, rfl⟩
    case hheld => rfl
    case hdoes => exact hdoes
    case hown => exact ⟨rfl, rfl, rfl, rfl⟩
    case hqueued => rfl
    case hpopped =>
      intro w
      constructor
      · intro hw
        refine ⟨hw, fun he => ?_⟩
        rw [he] at hw
        exact h.not_popped hsome hw
      · exact fun hw => hw.1
    case hknown =>
      intro i state hi
      refine ⟨fun he => ?_, hi⟩
      subst he
      have hold := ((h.cpu c).known i state hi).symm.trans hstate
      rcases (hok.known i state hi).2 with rfl | rfl <;> cases hold
    case htarget => exact fun q hq => hq
  · cases hs
    exact (h.step_on (Quiet.goto rest k.cond) hsteady rfl rfl
      (by rw [Kernel.goto_code]; exact hdoes)).sane

/-- What a CPU knows of a task by its lock rules out other states. -/
theorem OnCpu.not_known {i : ℕ} {state : TaskState} (h : OnCpu k c m v)
    (hstate : (k.task u).state ≠ .ZOMBIE ∧ (k.task u).state ≠ .USED)
    (hi : v.known = some (i, state)) : i ≠ u := by
  rintro rfl
  have hold := h.known i state hi
  rcases (h.ok.known i state hi).2 with rfl | rfl
  · exact hstate.1 hold
  · exact hstate.2 hold

theorem Sound.wake {q : Option ℕ} (h : Sound k mode view)
    (hcode : k.code c = .wake u q :: rest) :
    ((k.goto c rest).setTask u { k.task u with state := .RUNNABLE }).Sane := by
  obtain ⟨hsteady, -, ⟨hpop, hmem, hme⟩, hdoes⟩ := (h.cpu c).head hcode trivial
  obtain ⟨hstate, hchan, hout⟩ := (h.cpu c).popped u hpop
  have hrun : (k.task u).state ≠ .RUNNING := by
    rw [hstate]
    exact TaskState.noConfusion
  have howner := ((h.cpu c).held _).mpr hmem
  have hne := hsteady.about_ne hme
  have habout := h.out howner hrun hne
  have hwaits : (k.task u).waits = none := by
    by_contra hsome
    obtain ⟨q, hq⟩ := Option.ne_none_iff_exists'.mp hsome
    rcases (h.task u).waits q hq with ⟨c', hc'⟩ | ⟨-, hc⟩
    · apply habout c'
      rw [hc']
      rfl
    · rw [hchan] at hc
      cases hc
  apply Sound.sane
  apply h.rouse (v := (Instr.wake u q).next (view c)) hsteady howner hne (.inl hstate) hout
  case hpopper => exact fun c' hc' hpop' => hc' (h.popper c' c u hpop' hpop)
  case hx => exact ⟨rfl, rfl, rfl, hwaits⟩
  case hheld => rfl
  case hdoes => exact hdoes
  case hown => exact ⟨rfl, rfl, rfl, rfl⟩
  case hqueued => rfl
  case hpopped =>
    intro w
    constructor
    · intro hw
      cases hw
    · rintro ⟨hw, hwu⟩
      rw [hpop] at hw
      exact absurd (Option.some.inj hw).symm hwu
  case hknown =>
    intro i state hi
    refine ⟨(h.cpu c).not_known ?_ hi, hi⟩
    rw [hstate]
    exact ⟨TaskState.noConfusion, TaskState.noConfusion⟩
  case htarget => exact fun q hq => hq

/-! ### Jumps -/

/-- A call from user space, or the code of an interrupt in front of the rest. -/
theorem Sound.enters (h : Sound k mode view) (hm : (mode c).Steady)
    (hdoes : Does (mode c).me (view c) code) : (k.goto c code).Sane := by
  refine (h.step_on (Quiet.goto code k.cond) hm rfl rfl ?_).sane
  rw [Kernel.goto_code]
  exact hdoes

/-- The code goes on after an instruction with what stands for the rest of it. -/
theorem Sound.goes_on {i : Instr} (h : Sound k mode view) (hcode : k.code c = i :: rest)
    (hr : i.Regular) (hdoes : ∀ me, i.Allowed me (view c) → Does me (i.next (view c)) rest →
      Does me (view c) code) (cond : Cond → Bool) : Kernel.Sane { k.goto c code with cond := cond } := by
  obtain ⟨hsteady, -, hallowed, hrest⟩ := (h.cpu c).head hcode hr
  refine (h.step_on (Quiet.goto code cond) hsteady rfl rfl ?_).sane
  change Does (mode c).me (view c) ((k.goto c code).code c)
  rw [Kernel.goto_code]
  exact hdoes _ hallowed hrest

theorem Sound.scan (h : Sound k mode view) (hcode : k.code c = .scan t :: rest) :
    (k.goto c (.lock (.task t) :: .pick t :: .unlock (.task t) :: .scan (t + 1) :: rest)).Sane ∧
      (k.goto c (.scan 0 :: rest)).Sane := by
  obtain ⟨hm, hview, rfl⟩ := (h.cpu c).scan_head hcode
  have hsteady : (mode c).Steady := .inl hm
  have hme : (mode c).me = none := by
    rw [hm]
    rfl
  constructor
  · apply h.enters hsteady
    rw [hme, hview]
    exact does_scanRound t
  · apply h.enters hsteady
    rw [hme, hview]
    exact does_scan 0

/-- A task that has found nothing in a slot goes on to the next one. -/
theorem Sound.pass {token : Option ℕ} (h : Sound k mode view) (held : List Lock)
    (hm : mode c = .task t) (hview : (view c).held = held ∧ (view c).own = .RUNNING ∧
      (view c).chan = none ∧ (view c).waits = none ∧ (view c).queued = none ∧
      (view c).popped = none)
    (hdoes : Does (some t) (.plain token held) code) :
    ((k.goto c code).setTask t { k.task t with token := token }).Sane := by
  obtain ⟨hheld, hown, hchan, hwaits, hqueued, hpopped⟩ := hview
  obtain ⟨hs, hch, -, hw⟩ := h.tells hm
  apply h.adjust (v := .plain token held) hm hown
  case hx => exact hs.trans hown
  case hheld => exact hheld.symm
  case hdoes => exact hdoes
  case htells => exact ⟨hs.trans hown, hch.trans hchan, rfl, hw.trans hwaits⟩
  case hqueued => exact hqueued
  case hqueued' => rfl
  case hpopped => exact hpopped.symm
  case hknown => exact fun i state hi => by cases hi
  case htarget => exact fun q hq => by cases hq

theorem Sound.waitScan (h : Sound k mode view) (hcode : k.code c = .waitScan t status p :: rest)
    (hs : k.perform c rest (.waitScan t status p) = some k') : k'.Sane := by
  obtain ⟨hsteady, -, ⟨hme, hview⟩, hdoes⟩ := (h.cpu c).head hcode trivial
  rw [hme] at hdoes
  simp only [Kernel.perform] at hs
  split_ifs at hs
  · cases hs
    apply h.enters hsteady
    rw [hme, hview]
    exact does_waitRound hdoes
  · cases hs
    apply h.pass [] (hsteady.task hme)
    · rw [hview]
      exact ⟨rfl, rfl, rfl, rfl, rfl, rfl⟩
    · exact does_sysWait status hdoes

theorem Sound.waitCheck (h : Sound k mode view)
    (hcode : k.code c = .waitCheck t status p :: rest)
    (hs : k.perform c rest (.waitCheck t status p) = some k') : k'.Sane := by
  obtain ⟨hsteady, -, ⟨hme, hview⟩, hdoes⟩ := (h.cpu c).head hcode trivial
  have hrest : Does (some t) (.plain none []) rest := by rwa [hme] at hdoes
  simp only [Kernel.perform] at hs
  split_ifs at hs with hzombie
  · cases hs
    refine (h.jump (v := { held := [.task p], token := some p, known := some (p, .ZOMBIE) })
      (Quiet.goto (.lock .wait :: .reap t status p :: rest) k.cond) hsteady rfl rfl ?_ ?_ ?_ ?_ ?_
      ?_ ?_).sane
    · change Does (mode c).me _ ((k.goto c _).code c)
      rw [Kernel.goto_code, hme]
      exact does_waitZombie hrest
    · rw [hview]
      rfl
    · rw [hview]
      exact ⟨rfl, rfl, rfl, rfl⟩
    · rw [hview]
      rfl
    · rw [hview]
      rfl
    · intro i state hi
      cases hi
      exact hzombie
    · exact fun q hq => by cases hq
  · cases hs
    apply h.pass [.task p] (hsteady.task hme)
    · rw [hview]
      exact ⟨rfl, rfl, rfl, rfl, rfl, rfl⟩
    · exact Does.unlock (View.Outer.ok_task (.inl rfl)) (does_waitScan hrest)

theorem Sound.forkScan {nt : ℕ} (h : Sound k mode view)
    (hcode : k.code c = .forkScan t nt :: rest)
    (hs : k.perform c rest (.forkScan t nt) = some k') : k'.Sane := by
  simp only [Kernel.perform] at hs
  split_ifs at hs with hnt
  cases hs
  apply h.goes_on hcode trivial _ k.cond
  rintro me ⟨rfl, hview⟩ hdoes
  rw [hview] at hdoes ⊢
  exact does_forkRound hnt hdoes

theorem Sound.killScan {pid : BitVec 32} (h : Sound k mode view)
    (hcode : k.code c = .killScan pid p :: rest)
    (hs : k.perform c rest (.killScan pid p) = some k') : k'.Sane := by
  simp only [Kernel.perform] at hs
  split_ifs at hs
  · cases hs
    apply h.goes_on hcode trivial _ k.cond
    rintro me ⟨hme, hview⟩ hdoes
    obtain ⟨t, rfl⟩ := Option.ne_none_iff_exists'.mp hme
    rw [hview] at hdoes ⊢
    exact does_killRound hdoes
  · cases hs
    apply h.goes_on hcode trivial _ k.cond
    rintro me ⟨-, hview⟩ hdoes
    rw [hview] at hdoes ⊢
    exact hdoes

/-- `force_exit` on a task of another CPU, or of none. -/
theorem Sound.killCheck {pid : BitVec 32} (h : Sound k mode view)
    (hcode : k.code c = .killCheck pid p :: rest)
    (hother : (k.task p).id = pid → k.current c ≠ some p)
    (hs : k.perform c rest (.killCheck pid p) = some k') : k'.Sane := by
  obtain ⟨hsteady, -, ⟨hme, hview⟩, hdoes⟩ := (h.cpu c).head hcode trivial
  obtain ⟨t, ht⟩ := Option.ne_none_iff_exists'.mp hme
  have hrest : Does (some t) (.plain none []) rest := by
    rw [hview, ht] at hdoes
    exact hdoes
  have hnone : View.Outer [] := .inl rfl
  simp only [Kernel.perform] at hs
  split_ifs at hs with hid hcurrent
  · exact absurd hcurrent (hother hid)
  · cases hs
    have hkilled : Quiet k ((k.goto c (.unlock (.task p) :: rest)).setTask p
        { k.task p with killed := true }) c := Quiet.setTask _ ⟨rfl, rfl, rfl, rfl⟩
    refine (h.step_on hkilled hsteady rfl rfl ?_).sane
    change Does (mode c).me (view c) ((k.goto c _).code c)
    rw [Kernel.goto_code, hview, ht]
    exact Does.unlock hnone.ok_task hrest
  · cases hs
    apply h.enters hsteady
    rw [hview, ht]
    exact Does.unlock hnone.ok_task (does_killScan hrest)

theorem Sound.timer (h : Sound k mode view) (hcode : k.code c = .timer :: rest)
    (hs : k.perform c rest .timer = some k') : k'.Sane := by
  obtain ⟨hsteady, -, hview, hdoes⟩ := (h.cpu c).head hcode trivial
  have hview : view c = .plain (view c).token [] := hview
  have hrest : Does (mode c).me (view c) rest := hdoes
  have hgo : (k.goto c rest).Sane := h.enters hsteady hrest
  simp only [Kernel.perform] at hs
  split at hs
  · rename_i t hcurrent
    split_ifs at hs
    · cases hs
      apply h.enters hsteady
      have hme : (mode c).me = some t := by
        have hmode := (h.cpu c).mode
        rcases hsteady with hm | ⟨t', hm⟩
        · rw [hm] at hmode
          rw [hmode.1] at hcurrent
          cases hcurrent
        · rw [hm] at hmode ⊢
          exact hmode.1.symm.trans hcurrent
      rw [hme] at hrest ⊢
      rw [hview] at hrest ⊢
      exact does_yield hrest
    · cases hs
      exact hgo
  · cases hs
    exact hgo

/-! ### Conditions -/

theorem Sound.await {q : Cond} (h : Sound k mode view) (hcode : k.code c = .await t q :: rest)
    (hs : k.perform c rest (.await t q) = some k') : k'.Sane := by
  obtain ⟨hsteady, hok, ⟨hme, hview⟩, hdoes⟩ := (h.cpu c).head hcode trivial
  have hrest : Does (mode c).me (view c) rest := hdoes
  simp only [Kernel.perform] at hs
  split_ifs at hs
  · cases hs
    exact h.enters hsteady hrest
  · cases hs
    have hm := hsteady.task hme
    obtain ⟨hstate, hchan, htoken, -⟩ := h.tells hm
    rw [hview] at hstate hchan htoken
    apply h.adjust (v := { held := [.other q.lk], waits := some q }) hm
    case hrun =>
      rw [hview]
      rfl
    case hx => exact hstate
    case hheld =>
      rw [hview]
      rfl
    case hdoes =>
      apply does_sleep
      rw [hme, hview] at hrest hok
      exact Does.cons trivial hok ⟨rfl, rfl⟩ rfl hrest
    case htells => exact ⟨hstate, hchan, htoken, rfl⟩
    case hqueued =>
      rw [hview]
      rfl
    case hqueued' => rfl
    case hpopped =>
      rw [hview]
      rfl
    case hknown => exact fun i state hi => by cases hi
    case htarget => exact fun q hq => by cases hq

theorem Sound.raise {myt : Option ℕ} {q : Cond} (h : Sound k mode view)
    (hcode : k.code c = .raise myt q :: rest) :
    Kernel.Sane { k.goto c (wakeup myt q.chan ++ rest) with
      cond := Function.update k.cond q true } := by
  apply h.goes_on hcode trivial
  rintro me ⟨rfl, hview⟩ hdoes
  have hview : view c = .plain (view c).token [.other q.lk] := hview
  have hrest : Does me (view c) rest := hdoes
  rw [hview] at hrest ⊢
  exact does_wakeup (.inr ⟨q.lk, rfl⟩) q.chan hrest

theorem Sound.lower {q : Cond} (h : Sound k mode view) (hcode : k.code c = .lower q :: rest) :
    Kernel.Sane { k.goto c rest with cond := Function.update k.cond q false } :=
  h.goes_on hcode trivial (fun _ _ hdoes => hdoes) _

end Zrhos.Sched
