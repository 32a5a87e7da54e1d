import Zrhos.Sched.Switch

/-! `lm_P` and `lm_V` inside their critical sections. -/
namespace Zrhos.Sched
open Sync

variable {k k' : Kernel} {mode : ℕ → Mode} {view : ℕ → View} {c c' t u : ℕ} {m : Mode} {v : View}
  {code rest : List Instr} {x : Task} {s : Sem} {p : Option ℕ}

/-! ### `lm_P` -/

/-- The own task gets a token for its scan, or not. -/
def Task.granted (x : Task) (t : ℕ) (s : Sem) : Task :=
  { x with token := if s = .sons t then some 0 else none }

/-- The state of `lm_P` before its branch. -/
def Kernel.counted (k : Kernel) (t : ℕ) (s : Sem) : Kernel :=
  (k.setTask t ((k.task t).granted t s)).setValue s (k.value s - 1)

theorem startScan_eq (htoken : (k.task t).token = none) :
    k.startScan t s = k.setTask t ((k.task t).granted t s) := by
  unfold Kernel.startScan Task.granted
  split_ifs
  · rfl
  · rw [← htoken]
    unfold Kernel.setTask
    rw [Function.update_eq_self]

theorem perform_down (htoken : (k.task t).token = none) :
    k.perform c rest (.down t s) =
      if k.value s - 1 < 0 then
        some { (k.counted t s).goto c (lmPSleep t s ++ rest) with
          waiters := Function.update k.waiters s (t :: k.waiters s) }
      else some ((k.counted t s).goto c (.unlock (.sem s) :: rest)) := by
  have hvalue : ((k.startScan t s).setValue s (k.value s - 1)).value s = k.value s - 1 :=
    Function.update_self _ _ _
  have hwaiters : (k.startScan t s).waiters = k.waiters := by
    rw [startScan_eq htoken]
    rfl
  simp only [Kernel.perform, hvalue, Kernel.counted, ← startScan_eq htoken]
  split_ifs
  · rw [← hwaiters]
    rfl
  · rfl

theorem OnTask.granted (h : Sound k mode view) (hm : mode c = .task t)
    (hrun : (k.task t).state = .RUNNING) (htask : k'.task t = (k.task t).granted t s) :
    OnTask k' mode (Function.update view c v) t := by
  have hstate : (k'.task t).state = .RUNNING := by
    rw [htask]
    exact hrun
  constructor
  case running =>
    refine fun _ => ⟨c, ?_⟩
    rw [hm]
    rfl
  case context => exact fun hout => absurd hm (hout c)
  case parked =>
    rw [hstate]
    exact fun hs => by cases hs
  case sleeper =>
    rw [hstate]
    exact fun hs => by cases hs
  case waits => exact fun q _ => .inl ⟨c, hm⟩
  case dead =>
    rw [hstate]
    exact fun hd => by rcases hd with hd | hd <;> cases hd
  case small =>
    intro hsize
    have hd := (h.task t).small hsize
    rw [hrun] at hd
    cases hd

/-- What a task is after a look at the semaphore. -/
structure Down (k k' : Kernel) (c t : ℕ) (s : Sem) : Prop extends Local k k' c where
  self : k'.task t = (k.task t).granted t s
  other : ∀ u, u ≠ t → k'.task u = k.task u
  context : k'.context = k.context
  currents : k'.current = k.current
  homes : k'.home = k.home
  owners : k'.owner = k.owner
  noffs : k'.noff = k.noff

theorem counted_down (code : List Instr) (waiters : Sem → List ℕ) :
    Down k { (k.counted t s).goto c code with waiters := waiters } c t s where
  code _ hne := Function.update_of_ne hne _ _
  current _ _ := rfl
  home _ _ := rfl
  noff _ _ := rfl
  owner _ _ _ := Iff.rfl
  self := Function.update_self _ _ _
  other _ hu := Function.update_of_ne hu _ _
  context := rfl
  currents := rfl
  homes := rfl
  owners := rfl
  noffs := rfl

theorem Down.onCpu (hd : Down k k' c t s) (h : Sound k mode view) (hm : mode c = .task t)
    (hrun : (k.task t).state = .RUNNING) (hview : view c = .plain none [.sem s])
    (hv : v.held = [.sem s] ∧ v.own = .RUNNING ∧ v.chan = none ∧ v.waits = none ∧
      v.known = none ∧ v.popped = none ∧ v.target = none ∧
      v.token = if s = .sons t then some 0 else none)
    (hqueued : ∀ s, v.queued = some s → t ∈ k'.waiters s)
    (hdoes : Does (some t) v (k'.code c)) : OnCpu k' c (mode c) v := by
  have hc := h.cpu c
  have hmode := hc.mode
  rw [hm] at hmode
  obtain ⟨hcurrent, hhome, -, -, hchan, -, hwaits⟩ := hmode
  obtain ⟨hheld, hown, hvchan, hvwaits, hknown, hpopped, htarget, htoken⟩ := hv
  constructor
  case held =>
    intro l
    have hl := hc.held l
    rw [hview] at hl
    rw [hd.owners, hheld]
    exact hl
  case noff =>
    have hn := hc.noff
    rw [hview] at hn
    rw [hd.noffs, hheld]
    exact hn
  case mode =>
    rw [hview] at hchan hwaits
    rw [hm]
    refine ⟨(congrFun hd.currents c).trans hcurrent, (congrFun hd.homes c).trans hhome, hdoes, ?_⟩
    rw [hd.self, hown, hvchan, hvwaits, htoken]
    exact ⟨hrun, hchan, rfl, hwaits⟩
  case known =>
    rw [hknown]
    exact fun i state hi => by cases hi
  case queued => exact fun s hs => ⟨t, hm, hqueued s hs⟩
  case target =>
    rw [htarget]
    exact fun q hq => by cases hq
  case popped =>
    rw [hpopped]
    exact fun u hu => by cases hu

/-- A task that runs enters the queue of a semaphore whose lock its CPU holds. -/
theorem Sound.enqueue (h : Sound k mode view) (hd : Down k k' c t s) (hm : mode c = .task t)
    (hrun : (k.task t).state = .RUNNING) (hqueued : (view c).queued = none)
    (hnot : ∀ s, t ∉ k.waiters s) (howner : k.owner (.sem s) = some c)
    (hsons : ∀ q, s = .sons q → q = t) (hcpu : OnCpu k' c (mode c) v)
    (hv : v.queued = some s) (hpopped : v.popped = (view c).popped)
    (hwaiters : ∀ s', s' ≠ s → k'.waiters s' = k.waiters s')
    (hvalue : ∀ s', s' ≠ s → k'.value s' = k.value s')
    (hqueue : k'.waiters s = t :: k.waiters s) (hdown : k'.value s = k.value s - 1)
    (hneg : k.value s ≤ 0) : Sound k' mode (Function.update view c v) := by
  have hmode : Function.update mode c (mode c) = mode := Function.update_eq_self c mode
  have hother : ∀ u c' s', mode c' = .task u → (view c').queued = some s' → c' ≠ c := by
    intro u c' s' _ hq hc
    rw [hc, hqueued] at hq
    cases hq
  have hall : Sound k' (Function.update mode c (mode c)) (Function.update view c v) := by
    apply h.advance (fun u => u = t) hd.toLocal hcpu
    case hsame =>
      intro u hu
      rw [hd.other u hu]
      exact ⟨.refl _, congrFun hd.context u⟩
    case hfree =>
      rintro u rfl
      exact .inr (h.free_self hm hrun)
    case hdead =>
      rintro u rfl hdead
      rw [hd.self] at hdead
      exact .inl hdead
    case htask =>
      rintro u rfl
      rw [hmode]
      exact OnTask.granted h hm hrun hd.self
    case honce => exact fun u hu => .inl hu
    case hleave => exact fun u hu => .inl hu
    case hmode => exact fun u _ => Iff.rfl
    case hsem =>
      intro s'
      by_cases hs' : s' = s
      · subst hs'
        right
        intro c' hne hc'
        rw [howner] at hc'
        exact hne (Option.some.inj hc').symm
      · exact .inl (hwaiters s' hs')
    case hsems =>
      rw [hmode]
      intro s'
      have hs := h.sem s'
      have hold : ∀ u ∈ k.waiters s', ((k'.task u).state = .SLEEPING ∧ (k'.task u).chan = none) ∨
          ∃ c', mode c' = .task u ∧ (Function.update view c v c').queued = some s' := by
        intro u hu
        have hut : u ≠ t := by
          intro he
          exact hnot s' (he ▸ hu)
        rw [hd.other u hut]
        rcases hs.asleep u hu with hsleep | ⟨c', hc', hq⟩
        · exact .inl hsleep
        · refine .inr ⟨c', hc', ?_⟩
          rw [Function.update_of_ne (hother u c' s' hc' hq)]
          exact hq
      by_cases hs' : s' = s
      · subst hs'
        constructor
        case asleep =>
          rw [hqueue]
          intro u hu
          rcases List.mem_cons.mp hu with rfl | hu
          · refine .inr ⟨c, hm, ?_⟩
            rw [Function.update_self]
            exact hv
          · exact hold u hu
        case nodup =>
          rw [hqueue]
          exact List.nodup_cons.mpr ⟨hnot s', hs.nodup⟩
        case count =>
          have hcount := hs.count
          rw [hqueue, hdown, List.length_cons]
          omega
        case own =>
          rw [hqueue]
          intro q u hq hu
          rcases List.mem_cons.mp hu with rfl | hu
          · exact (hsons q hq).symm
          · exact hs.own q u hq hu
      · constructor
        case asleep =>
          rw [hwaiters s' hs']
          exact hold
        case nodup =>
          rw [hwaiters s' hs']
          exact hs.nodup
        case count =>
          rw [hwaiters s' hs', hvalue s' hs']
          exact hs.count
        case own =>
          rw [hwaiters s' hs']
          exact hs.own
    case hapart =>
      have hin : ∀ s' u, u ∈ k'.waiters s' → u ∈ k.waiters s' ∨ (u = t ∧ s' = s) := by
        intro s' u hu
        by_cases hs' : s' = s
        · subst hs'
          rw [hqueue] at hu
          exact (List.mem_cons.mp hu).symm.imp_right fun he => ⟨he, rfl⟩
        · rw [hwaiters s' hs'] at hu
          exact .inl hu
      intro s₁ s₂ u h₁ h₂
      rcases hin s₁ u h₁ with h₁ | ⟨rfl, rfl⟩
      · rcases hin s₂ u h₂ with h₂ | ⟨rfl, rfl⟩
        · exact h.apart s₁ s₂ u h₁ h₂
        · exact absurd h₁ (hnot s₁)
      · rcases hin s₂ u h₂ with h₂ | ⟨-, rfl⟩
        · exact absurd h₂ (hnot s₂)
        · rfl
    case hstay =>
      intro s' u hu
      left
      by_cases hs' : s' = s
      · subst hs'
        rw [hqueue]
        exact List.mem_cons_of_mem _ hu
      · rw [hwaiters s' hs']
        exact hu
    case hnew =>
      intro s' u hu
      by_cases hs' : s' = s
      · subst hs'
        rw [hqueue] at hu
        rcases List.mem_cons.mp hu with rfl | hu
        · right
          rw [hrun]
          exact TaskState.noConfusion
        · exact .inl hu
      · rw [hwaiters s' hs'] at hu
        exact .inl hu
    case hpop =>
      intro u hu
      rw [hpopped]
      exact .inl hu
    case hpopper =>
      intro u hu
      rw [hpopped] at hu
      exact .inl hu
  rwa [hmode] at hall

theorem Sound.down (h : Sound k mode view) (hcode : k.code c = .down t s :: rest)
    (hs : k.perform c rest (.down t s) = some k') : k'.Sane := by
  have hc := h.cpu c
  obtain ⟨hsteady, -, ⟨hme, hview, hsons⟩, hdoes⟩ := hc.head hcode trivial
  have hm := hsteady.task hme
  have hmode := hc.mode
  rw [hm, hview] at hmode
  obtain ⟨-, -, -, hrun, -, htoken, -⟩ := hmode
  have hrun : (k.task t).state = .RUNNING := hrun
  rw [hview] at hdoes
  rw [hme] at hdoes
  have hqueued : (view c).queued = none := by
    rw [hview]
    rfl
  have hnot : ∀ s', t ∉ k.waiters s' := by
    intro s' hmem
    have hq := h.not_waiting hm hrun hmem
    rw [hqueued] at hq
    cases hq
  have howner : k.owner (.sem s) = some c := by
    rw [hc.held, hview]
    exact List.mem_cons_self
  have hcount := (h.sem s).count
  have hrest : Does (some t) (.plain (if s = .sons t then some 0 else none) []) rest := hdoes
  rw [perform_down htoken] at hs
  split_ifs at hs with hneg
  · cases hs
    have hd : Down k { (k.counted t s).goto c (lmPSleep t s ++ rest) with
        waiters := Function.update k.waiters s (t :: k.waiters s) } c t s :=
      counted_down _ _
    have hcpu := hd.onCpu h hm hrun hview
      (v := { held := [.sem s], token := if s = .sons t then some 0 else none, queued := some s })
      ⟨rfl, rfl, rfl, rfl, rfl, rfl, rfl, rfl⟩
      (fun s' hs' => by
        cases hs'
        dsimp only
        rw [Function.update_self]
        exact List.mem_cons_self)
      (by
        rw [Kernel.goto_code]
        apply does_lmPSleep hsons _ hrest
        intro hne
        by_contra hs
        rw [if_neg hs] at hne
        exact hne rfl)
    exact (h.enqueue hd hm hrun hqueued hnot howner hsons hcpu rfl (by rw [hview]; rfl)
      (fun s' hs' => Function.update_of_ne hs' _ _) (fun s' hs' => Function.update_of_ne hs' _ _)
      (Function.update_self _ _ _) (Function.update_self _ _ _) (by omega)).sane
  · cases hs
    have hd : Down k ((k.counted t s).goto c (.unlock (.sem s) :: rest)) c t s :=
      counted_down _ k.waiters
    have hsem : (View.plain (if s = .sons t then some 0 else none) [.sem s]).Ok (some t) := by
      apply View.ok_plain (List.nodup_singleton _)
      intro q hq
      rw [hsons q (Lock.sem.inj (List.mem_singleton.mp hq)).symm]
    have hcpu := hd.onCpu h hm hrun hview
      (v := .plain (if s = .sons t then some 0 else none) [.sem s])
      ⟨rfl, rfl, rfl, rfl, rfl, rfl, rfl, rfl⟩ (fun s' hs' => by cases hs')
      (by
        rw [Kernel.goto_code]
        exact Does.unlock hsem hrest)
    apply Sound.sane
    apply h.turn (fun u => u = t) hd.toLocal hcpu
    case hsame =>
      intro u hu
      rw [hd.other u hu]
      exact ⟨.refl _, rfl⟩
    case hfree =>
      rintro u rfl
      exact h.free_self hm hrun
    case hdead =>
      rintro u rfl hdead
      rw [hd.self] at hdead
      exact .inl hdead
    case htask =>
      rintro u rfl
      exact OnTask.granted h hm hrun hd.self
    case hwaiters => rfl
    case hvalue =>
      intro s'
      by_cases hs' : s' = s
      · subst hs'
        have hvalue : ((k.counted t s').goto c (.unlock (.sem s') :: rest)).value s' =
            k.value s' - 1 := Function.update_self _ _ _
        rw [hvalue]
        omega
      · have hvalue : ((k.counted t s).goto c (.unlock (.sem s) :: rest)).value s' =
            k.value s' := Function.update_of_ne hs' _ _
        rw [hvalue]
        exact (h.sem s').count
    case hasleep =>
      rintro u s' rfl hmem
      exact absurd hmem (hnot s')
    case hqueue =>
      intro u s' hu hne
      rw [hm] at hu
      cases hu
      exact absurd rfl hne
    case hpop =>
      rw [hview]
      exact fun u hu => by cases hu
    case hpopper => exact fun u hu => by cases hu

/-! ### `lm_V` -/

theorem announce_same (k : Kernel) (p : Option ℕ) (u : ℕ) :
    ((k.announce p).task u).Same (k.task u) := by
  cases p with
  | none => exact .refl _
  | some p =>
    unfold Kernel.announce
    by_cases hu : u = p
    · subst hu
      rw [Kernel.setTask_self]
      exact ⟨rfl, rfl, rfl, rfl⟩
    · rw [Kernel.setTask_of_ne _ _ hu]
      exact .refl _

/-- The state of `lm_V` before its branch. -/
def Kernel.raised (k : Kernel) (s : Sem) (p : Option ℕ) : Kernel :=
  (k.announce p).setValue s (k.value s + 1)

theorem announce_eq (k : Kernel) (p : Option ℕ) :
    ∃ task, k.announce p = { k with task := task } := by
  cases p with
  | none => exact ⟨k.task, rfl⟩
  | some p => exact ⟨_, rfl⟩

theorem raised_eq (k : Kernel) (s : Sem) (p : Option ℕ) :
    k.raised s p = { k with
      task := (k.announce p).task
      value := Function.update k.value s (k.value s + 1) } := by
  obtain ⟨task, htask⟩ := announce_eq k p
  rw [Kernel.raised, htask]
  rfl

/-- What a CPU keeps beside the tasks and the values. -/
theorem raised_keeps (k : Kernel) (s : Sem) (p : Option ℕ) :
    (k.raised s p).current = k.current ∧ (k.raised s p).home = k.home ∧
      (k.raised s p).owner = k.owner ∧ (k.raised s p).noff = k.noff ∧
      (k.raised s p).context = k.context ∧ (k.raised s p).waiters = k.waiters := by
  rw [raised_eq]
  exact ⟨rfl, rfl, rfl, rfl, rfl, rfl⟩

theorem perform_up :
    k.perform c rest (.up s p) =
      if 2 ^ 31 ≤ k.value s + 1 then none
      else if k.value s + 1 ≤ 0 then
        match (k.waiters s).getLast? with
        | some u =>
          some { (k.raised s p).goto c (lmVWake u s p ++ rest) with
            waiters := Function.update k.waiters s (k.waiters s).dropLast }
        | none => none
      else some ((k.raised s p).goto c (.unlock (.sem s) :: rest)) := by
  have hvalue : (k.raised s p).value s = k.value s + 1 := Function.update_self _ _ _
  have hwaiters := (raised_keeps k s p).2.2.2.2.2
  have hperform : k.perform c rest (.up s p) =
      if 2 ^ 31 ≤ (k.raised s p).value s then none
      else if (k.raised s p).value s ≤ 0 then
        match ((k.raised s p).waiters s).getLast? with
        | some u =>
          some { (k.raised s p).goto c (lmVWake u s p ++ rest) with
            waiters := Function.update (k.raised s p).waiters s
              ((k.raised s p).waiters s).dropLast }
        | none => none
      else some ((k.raised s p).goto c (.unlock (.sem s) :: rest)) := rfl
  rw [hperform, hvalue, hwaiters]

/-- What `lm_V` on a semaphore finds of a task in the queue. -/
theorem Sound.asleep_of_mem (h : Sound k mode view) (howner : k.owner (.sem s) = some c)
    (hqueued : (view c).queued = none) (hu : u ∈ k.waiters s) :
    (k.task u).state = .SLEEPING ∧ (k.task u).chan = none := by
  rcases (h.sem s).asleep u hu with hsleep | ⟨c', -, hq⟩
  · exact hsleep
  · have hc' := ((h.cpu c').held _).mpr ((h.cpu c').ok.queued s hq)
    rw [howner] at hc'
    cases hc'
    rw [hqueued] at hq
    cases hq

theorem View.Signals.not_held {me : Option ℕ} (h : v.Signals me s)
    (hstate : me = some u → v.own ≠ .ZOMBIE) : .task u ∉ v.held := by
  intro hmem
  have hrank := h.rank _ hmem
  have hawake : ¬ ((me = some u ∧ v.own = .ZOMBIE) ∨ v.known = some (u, .ZOMBIE)) := by
    rw [h.known]
    rintro (⟨hme, hown⟩ | hz)
    · exact hstate hme hown
    · cases hz
  rw [View.least, if_neg hawake] at hrank
  omega

theorem OnCpu.steady_same (h : OnCpu k c m v) (hm : m.Steady) {v' : View}
    (hsame : ∀ u, (k'.task u).Same (k.task u)) (hcurrent : k'.current = k.current)
    (hhome : k'.home = k.home) (howner : k'.owner = k.owner) (hnoff : k'.noff = k.noff)
    (hheld : v'.held = v.held) (hdoes : Does m.me v' (k'.code c))
    (hown : v'.own = v.own ∧ v'.chan = v.chan ∧ v'.token = v.token ∧ v'.waits = v.waits)
    (hknown : v'.known = v.known) (hqueued : v'.queued = none) (htarget : v'.target = v.target)
    (hpopped : ∀ u, v'.popped = some u → (k.task u).state = .SLEEPING ∧
      (k.task u).chan = none ∧ ∀ s, u ∉ k'.waiters s) : OnCpu k' c m v' := by
  constructor
  case held =>
    rw [howner, hheld]
    exact h.held
  case noff =>
    rw [hnoff, hheld]
    exact h.noff
  case mode =>
    apply h.mode.steady hm (congrFun hcurrent c) (congrFun hhome c) hdoes
    intro t ht
    have hmode := h.mode
    rw [ht] at hmode
    obtain ⟨-, -, -, hs, hch, hto, hw⟩ := hmode
    obtain ⟨hs', hch', hto', hw'⟩ := hsame t
    exact ⟨(hs'.trans hs).trans hown.1.symm, (hch'.trans hch).trans hown.2.1.symm,
      (hto'.trans hto).trans hown.2.2.1.symm, (hw'.trans hw).trans hown.2.2.2.symm⟩
  case known =>
    intro i state hi
    rw [hknown] at hi
    rw [(hsame i).state]
    exact h.known i state hi
  case queued =>
    rw [hqueued]
    exact fun s hs => by cases hs
  case target =>
    intro q hq
    rw [htarget] at hq
    rw [(hsame q).state]
    exact h.target q hq
  case popped =>
    intro u hu
    rw [(hsame u).state, (hsame u).chan]
    exact hpopped u hu

/-- The task that has waited longest leaves the queue. -/
theorem Sound.dequeue (h : Sound k mode view) (hl : Local k k' c)
    (hcpu : OnCpu k' c (mode c) v) (hsame : ∀ u, (k'.task u).Same (k.task u))
    (hcontext : k'.context = k.context) (howner : k.owner (.sem s) = some c)
    (hqueued : (view c).queued = none) (hpop : (view c).popped = none)
    (hpopped : v.popped = some u) (hlast : (k.waiters s).getLast? = some u)
    (hwaiters : k'.waiters = Function.update k.waiters s (k.waiters s).dropLast)
    (hvalue : k'.value = Function.update k.value s (k.value s + 1)) :
    Sound k' mode (Function.update view c v) := by
  have hmode : Function.update mode c (mode c) = mode := Function.update_eq_self c mode
  have hmem : u ∈ k.waiters s := List.mem_of_getLast? hlast
  have hother : ∀ s', s' ≠ s → k'.waiters s' = k.waiters s' := by
    intro s' hs'
    rw [hwaiters, Function.update_of_ne hs']
  have hself : k'.waiters s = (k.waiters s).dropLast := by
    rw [hwaiters, Function.update_self]
  have hsub : ∀ s' w, w ∈ k'.waiters s' → w ∈ k.waiters s' := by
    intro s' w hw
    by_cases hs' : s' = s
    · subst hs'
      rw [hself] at hw
      exact List.mem_of_mem_dropLast hw
    · rwa [hother s' hs'] at hw
  have hall : Sound k' (Function.update mode c (mode c)) (Function.update view c v) := by
    apply h.advance (fun _ => False) hl hcpu
    case hsame => exact fun w _ => ⟨hsame w, congrFun hcontext w⟩
    case hfree => exact fun w hw => hw.elim
    case hdead => exact fun w hw => hw.elim
    case htask => exact fun w hw => hw.elim
    case honce => exact fun w hw => .inl hw
    case hleave => exact fun w hw => .inl hw
    case hmode => exact fun w _ => Iff.rfl
    case hsem =>
      intro s'
      by_cases hs' : s' = s
      · subst hs'
        right
        intro c' hne hc'
        rw [howner] at hc'
        exact hne (Option.some.inj hc').symm
      · exact .inl (hother s' hs')
    case hsems =>
      rw [hmode]
      intro s'
      have hs := h.sem s'
      constructor
      case asleep =>
        intro w hw
        rw [(hsame w).state, (hsame w).chan]
        rcases hs.asleep w (hsub s' w hw) with hsleep | ⟨c', hc', hq⟩
        · exact .inl hsleep
        · have hne : c' ≠ c := by
            intro hc
            rw [hc, hqueued] at hq
            cases hq
          refine .inr ⟨c', hc', ?_⟩
          rw [Function.update_of_ne hne]
          exact hq
      case nodup =>
        by_cases hs' : s' = s
        · subst hs'
          rw [hself]
          exact hs.nodup.sublist (List.dropLast_sublist _)
        · rw [hother s' hs']
          exact hs.nodup
      case count =>
        have hcount := hs.count
        by_cases hs' : s' = s
        · subst hs'
          rw [hself, hvalue, Function.update_self, List.length_dropLast]
          omega
        · rw [hother s' hs', hvalue, Function.update_of_ne hs']
          exact hcount
      case own => exact fun t w ht hw => hs.own t w ht (hsub s' w hw)
    case hapart => exact fun s₁ s₂ w h₁ h₂ => h.apart s₁ s₂ w (hsub s₁ w h₁) (hsub s₂ w h₂)
    case hstay =>
      intro s' w hw
      by_cases hs' : s' = s
      · subst hs'
        rw [hself]
        by_cases hwu : w = u
        · subst hwu
          exact .inr (.inl hpopped)
        · left
          rw [← List.dropLast_append_getLast? u hlast] at hw
          exact (List.mem_append.mp hw).resolve_right fun he => hwu (List.mem_singleton.mp he)
      · rw [hother s' hs']
        exact .inl hw
    case hnew => exact fun s' w hw => .inl (hsub s' w hw)
    case hpop =>
      rw [hpop]
      exact fun w hw => by cases hw
    case hpopper =>
      intro w hw
      rw [hpopped] at hw
      cases hw
      right
      intro c' hc'
      exact ((h.cpu c').popped u hc').2.2 s hmem
  rwa [hmode] at hall

/-- The CPU in `lm_V` behind the count. -/
theorem OnCpu.raised {m : Mode} {v v' : View} {code : List Instr} {waiters : Sem → List ℕ}
    (h : OnCpu k c m v) (hm : m.Steady) (hheld : v'.held = v.held) (hdoes : Does m.me v' code)
    (hown : v'.own = v.own ∧ v'.chan = v.chan ∧ v'.token = v.token ∧ v'.waits = v.waits)
    (hknown : v'.known = v.known) (hqueued : v'.queued = none) (htarget : v'.target = v.target)
    (hpopped : ∀ u, v'.popped = some u → (k.task u).state = .SLEEPING ∧
      (k.task u).chan = none ∧ ∀ s, u ∉ waiters s) :
    OnCpu { (k.raised s p).goto c code with waiters := waiters } c m v' := by
  obtain ⟨hcurrent, hhome, howner, hnoff, -, -⟩ := raised_keeps k s p
  refine h.steady_same hm ?_ hcurrent hhome howner hnoff hheld ?_ hown hknown hqueued htarget
    hpopped
  · dsimp only [Kernel.goto]
    rw [raised_eq]
    exact announce_same k p
  · dsimp only [Kernel.goto]
    rwa [Function.update_self]

theorem Sound.up (h : Sound k mode view) (hcode : k.code c = .up s p :: rest)
    (hs : k.perform c rest (.up s p) = some k') : k'.Sane := by
  have hc := h.cpu c
  obtain ⟨hsteady, -, ⟨w, hsignals, hview⟩, hdoes⟩ := hc.head hcode trivial
  have hrest : Does (mode c).me { w with target := none } rest := by
    have hnext : (Instr.up s p).next (view c) = { w with target := none } := by
      rw [hview]
      simp [Instr.next]
    rwa [hnext] at hdoes
  have howner : k.owner (.sem s) = some c := by
    rw [hc.held, hview]
    exact List.mem_cons_self
  have hqueued : (view c).queued = none := by
    rw [hview]
    exact hsignals.queued
  have hpopped : (view c).popped = none := by
    rw [hview]
    exact hsignals.popped
  have hsame : ∀ u, ((k.raised s p).task u).Same (k.task u) := by
    rw [raised_eq]
    exact announce_same k p
  have hcount := (h.sem s).count
  have hlocal : ∀ (code : List Instr) (waiters : Sem → List ℕ),
      Local k { (k.raised s p).goto c code with waiters := waiters } c := by
    rw [raised_eq]
    exact fun code waiters =>
      { code := fun _ hne => Function.update_of_ne hne _ _
        current := fun _ _ => rfl
        home := fun _ _ => rfl
        noff := fun _ _ => rfl
        owner := fun _ _ _ => Iff.rfl }
  rw [perform_up] at hs
  split_ifs at hs with hlarge hneg
  · have hne : k.waiters s ≠ [] := by
      intro he
      rw [he, List.length_nil] at hcount
      omega
    obtain ⟨u, hlast⟩ : ∃ u, (k.waiters s).getLast? = some u :=
      ⟨_, List.getLast?_eq_some_getLast hne⟩
    rw [hlast] at hs
    cases hs
    have hmem : u ∈ k.waiters s := List.mem_of_getLast? hlast
    obtain ⟨hstate, hchan⟩ := h.asleep_of_mem howner hqueued hmem
    have hnot : .task u ∉ w.held := by
      apply hsignals.not_held
      intro hme hown
      have hself := h.own_state (hsteady.task hme)
      rw [hview, hstate] at hself
      exact absurd (hself.trans hown) TaskState.noConfusion
    have hself : (mode c).me ≠ some u := by
      intro hme
      have hown := h.own_state (hsteady.task hme)
      rw [hstate] at hown
      obtain ⟨t, ht, hheld⟩ := hc.ok.off (by rw [← hown]; exact TaskState.noConfusion)
      obtain rfl : t = u := Option.some.inj (ht.symm.trans hme)
      rw [hview] at hheld
      exact hnot ((List.mem_cons.mp hheld).resolve_left Lock.noConfusion)
    have hout : ∀ s', u ∉ Function.update k.waiters s (k.waiters s).dropLast s' := by
      intro s' hs'
      by_cases he : s' = s
      · subst he
        rw [Function.update_self] at hs'
        have hnodup := (h.sem s').nodup
        rw [← List.dropLast_append_getLast? u hlast] at hnodup
        exact (List.nodup_append.mp hnodup).2.2 u hs' u (List.mem_singleton_self u) rfl
      · rw [Function.update_of_ne he] at hs'
        exact he (h.apart s' s u hs' hmem)
    apply Sound.sane
    apply h.dequeue (s := s) (u := u) (v := { view c with popped := some u }) (hlocal _ _)
    case hcpu =>
      apply hc.raised hsteady
      case hheld => rfl
      case hdoes =>
        rw [hview]
        exact does_lmVWake hsignals hnot hself p hrest
      case hown => exact ⟨rfl, rfl, rfl, rfl⟩
      case hknown => rfl
      case hqueued => exact hqueued
      case htarget => rfl
      case hpopped =>
        intro w' hw'
        cases hw'
        exact ⟨hstate, hchan, hout⟩
    case hsame => exact hsame
    case hcontext => exact (raised_keeps k s p).2.2.2.2.1
    case howner => exact howner
    case hqueued => exact hqueued
    case hpop => exact hpopped
    case hpopped => rfl
    case hlast => exact hlast
    case hwaiters => rfl
    case hvalue =>
      rw [raised_eq]
      rfl
  · cases hs
    have hcpu : OnCpu { (k.raised s p).goto c (.unlock (.sem s) :: rest) with
        waiters := (k.raised s p).waiters } c (mode c) (view c) := by
      apply hc.raised hsteady
      case hheld => rfl
      case hdoes =>
        rw [hview]
        exact does_unlockSem hsignals hrest
      case hown => exact ⟨rfl, rfl, rfl, rfl⟩
      case hknown => rfl
      case hqueued => exact hqueued
      case htarget => rfl
      case hpopped =>
        intro u hu
        rw [hpopped] at hu
        cases hu
    apply Sound.sane
    apply h.turn (fun _ => False) (hlocal _ (k.raised s p).waiters) hcpu
    case hsame =>
      intro u _
      refine ⟨hsame u, ?_⟩
      rw [raised_eq]
      rfl
    case hfree => exact fun u hu => hu.elim
    case hdead => exact fun u hu => hu.elim
    case htask => exact fun u hu => hu.elim
    case hwaiters => exact (raised_keeps k s p).2.2.2.2.2
    case hvalue =>
      intro s'
      rw [raised_eq]
      change (k.waiters s').length = (-Function.update k.value s (k.value s + 1) s').toNat
      by_cases hs' : s' = s
      · subst hs'
        rw [Function.update_self]
        omega
      · rw [Function.update_of_ne hs']
        exact (h.sem s').count
    case hasleep => exact fun u s' hu => hu.elim
    case hqueue => exact fun t s' _ _ hq => hq
    case hpop => exact fun u hu => .inl hu
    case hpopper => exact fun u hu => hu

end Zrhos.Sched
