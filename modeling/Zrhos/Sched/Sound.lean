import Zrhos.Sched.Discipline

/-! The invariant of the running kernel: what each CPU is doing, and what holds of each task
and each semaphore. A step of one CPU touches only what its locks protect. -/
namespace Zrhos.Sched
open Sync

/-- What a CPU is doing: its scheduler, the way from the scheduler to a task, a task, or the
way back. -/
inductive Mode where
  | sched
  | picked (t : ℕ)
  | entering (t : ℕ)
  | task (t : ℕ)
  | back (t : ℕ)
  deriving DecidableEq

def Mode.about : Mode → Option ℕ
  | .sched => none
  | .picked t | .entering t | .task t | .back t => some t

def Mode.me : Mode → Option ℕ
  | .task t => some t
  | _ => none

/-- What a task knows when it comes out of `swtch`. -/
def resume (x : Task) (t : ℕ) : View :=
  { held := [.task t], chan := x.chan, token := x.token }

/-- The mode of a CPU, as its registers and the task show it. -/
def Kernel.At (k : Kernel) (c : ℕ) (v : View) : Mode → Prop
  | .sched => k.current c = none ∧ Does none v (k.code c)
  | .picked t => k.current c = none ∧ k.code c = .setCurrent (some t) :: .enter t :: back t ∧
      (k.task t).state = .RUNNING ∧ v = .plain none [.task t]
  | .entering t => k.current c = some t ∧ k.code c = .enter t :: back t ∧
      (k.task t).state = .RUNNING ∧ v = .plain none [.task t]
  | .task t => k.current c = some t ∧ k.home c = back t ∧ Does (some t) v (k.code c) ∧
      (k.task t).state = v.own ∧ (k.task t).chan = v.chan ∧ (k.task t).token = v.token ∧
      (k.task t).waits = v.waits
  | .back t => k.current c = some t ∧ k.code c = back t ∧ (k.task t).state ≠ .RUNNING ∧
      v = .plain none [.task t]

structure OnCpu (k : Kernel) (c : ℕ) (m : Mode) (v : View) : Prop where
  held : ∀ l, k.owner l = some c ↔ l ∈ v.held
  noff : k.noff c = v.held.length
  mode : k.At c v m
  known : ∀ i state, v.known = some (i, state) → (k.task i).state = state
  queued : ∀ s, v.queued = some s → ∃ t, m = .task t ∧ t ∈ k.waiters s
  target : ∀ q, v.target = some q → (k.task q).state ≠ .DEAD
  popped : ∀ u, v.popped = some u →
    (k.task u).state = .SLEEPING ∧ (k.task u).chan = none ∧ ∀ s, u ∉ k.waiters s

structure OnTask (k : Kernel) (mode : ℕ → Mode) (view : ℕ → View) (t : ℕ) : Prop where
  running : (k.task t).state = .RUNNING → ∃ c, (mode c).about = some t
  context : (∀ c, mode c ≠ .task t) → (k.task t).state ≠ .DEAD → (k.task t).state ≠ .ZOMBIE →
    Does (some t) (resume (k.task t) t) (k.context t)
  parked : (k.task t).state = .SLEEPING → (k.task t).chan = none →
    (∃ s, t ∈ k.waiters s ∧ ((k.task t).token ≠ none → s = .sons t)) ∨
      ∃ c, (view c).popped = some t
  sleeper : (k.task t).state = .SLEEPING → ∀ chan, (k.task t).chan = some chan →
    ∃ lk, (k.task t).waits = some ⟨lk, chan⟩ ∧ (k.task t).token = none
  waits : ∀ q, (k.task t).waits = some q → (∃ c, mode c = .task t) ∨
    ((k.task t).state = .SLEEPING ∧ (k.task t).chan = some q.chan)
  dead : (k.task t).state = .DEAD ∨ (k.task t).state = .ZOMBIE → (k.task t).chan = none
  small : NTASK ≤ t → (k.task t).state = .DEAD

structure OnSem (k : Kernel) (mode : ℕ → Mode) (view : ℕ → View) (s : Sem) : Prop where
  asleep : ∀ u ∈ k.waiters s, ((k.task u).state = .SLEEPING ∧ (k.task u).chan = none) ∨
    ∃ c, mode c = .task u ∧ (view c).queued = some s
  nodup : (k.waiters s).Nodup
  count : (k.waiters s).length = (-k.value s).toNat
  own : ∀ t u, s = .sons t → u ∈ k.waiters s → u = t

structure Sound (k : Kernel) (mode : ℕ → Mode) (view : ℕ → View) : Prop where
  cpu : ∀ c, OnCpu k c (mode c) (view c)
  task : ∀ t, OnTask k mode view t
  sem : ∀ s, OnSem k mode view s
  once : ∀ c c' t, (mode c).about = some t → (mode c').about = some t → c = c'
  apart : ∀ s s' u, u ∈ k.waiters s → u ∈ k.waiters s' → s = s'
  popper : ∀ c c' u, (view c).popped = some u → (view c').popped = some u → c = c'

variable {k k' : Kernel} {mode : ℕ → Mode} {view : ℕ → View} {c c' t u : ℕ} {m : Mode} {v : View}

theorem Sound.init (value : ℕ → ℕ) (cond : Cond → Bool) :
    Sound (kernelInit value cond) (fun _ => .sched) (fun _ => .plain none []) where
  cpu c := {
    held l := by simp [kernelInit, View.plain]
    noff := rfl
    mode := ⟨rfl, does_scan 0⟩
    known i state h := by cases h
    queued s h := by cases h
    target q h := by cases h
    popped u h := by cases h }
  task t := {
    running h := by
      simp only [kernelInit, taskInit] at h
      split_ifs at h
    context _ h _ := by
      by_cases ht : t = 0
      · subst ht
        exact Does.unlock (View.Outer.ok_task (.inl rfl)) ⟨Option.some_ne_none 0, rfl⟩
      · simp [kernelInit, taskInit, ht] at h
    parked h := by
      simp only [kernelInit, taskInit] at h
      split_ifs at h
    sleeper h := by
      simp only [kernelInit, taskInit] at h
      split_ifs at h
    waits q h := by cases h
    dead _ := rfl
    small h := by
      have ht : t ≠ 0 := by
        have hsize : NTASK = 1010 := rfl
        omega
      simp [kernelInit, taskInit, ht] }
  sem s := {
    asleep u h := by cases h
    nodup := List.nodup_nil
    count := by cases s <;> simp [kernelInit, semInit]
    own t u _ h := by cases h }
  once c c' t h := by cases h
  apart s s' u h := by cases h
  popper c c' u h := by cases h

/-! ### What a sound state says -/

theorem OnCpu.ok (h : OnCpu k c m v) : v.Ok m.me := by
  have hmode := h.mode
  cases m with
  | sched => exact hmode.2.ok
  | task t => exact hmode.2.2.1.ok
  | picked t =>
    rw [hmode.2.2.2]
    exact View.Outer.ok_task (.inl rfl)
  | entering t =>
    rw [hmode.2.2.2]
    exact View.Outer.ok_task (.inl rfl)
  | back t =>
    rw [hmode.2.2.2]
    exact View.Outer.ok_task (.inl rfl)

/-- A task that a CPU is at runs, or the CPU has its lock. -/
theorem OnCpu.about (h : OnCpu k c m v) (hm : m.about = some t) :
    (k.task t).state = .RUNNING ∨ k.owner (.task t) = some c := by
  have hmode := h.mode
  cases m with
  | sched => cases hm
  | task t =>
    cases hm
    by_cases hown : v.own = .RUNNING
    · exact .inl (hmode.2.2.2.1.trans hown)
    · obtain ⟨t', ht, hmem⟩ := h.ok.off hown
      cases ht
      exact .inr ((h.held _).mpr hmem)
  | picked t =>
    cases hm
    exact .inl hmode.2.2.1
  | entering t =>
    cases hm
    exact .inl hmode.2.2.1
  | back t =>
    cases hm
    right
    rw [h.held, hmode.2.2.2]
    exact List.mem_cons_self

/-- A task whose lock a CPU holds and that does not run is at no other CPU. -/
theorem Sound.not_elsewhere (h : Sound k mode view) (howner : k.owner (.task t) = some c)
    (hstate : (k.task t).state ≠ .RUNNING) (hne : c' ≠ c) : (mode c').about ≠ some t := by
  intro habout
  rcases (h.cpu c').about habout with hrun | hown
  · exact hstate hrun
  · rw [howner] at hown
    exact hne (Option.some.inj hown).symm

/-! ### A step of one CPU -/

/-- The registers and the locks of the other CPUs stay. -/
structure Local (k k' : Kernel) (c : ℕ) : Prop where
  code : ∀ c', c' ≠ c → k'.code c' = k.code c'
  current : ∀ c', c' ≠ c → k'.current c' = k.current c'
  home : ∀ c', c' ≠ c → k'.home c' = k.home c'
  noff : ∀ c', c' ≠ c → k'.noff c' = k.noff c'
  owner : ∀ c', c' ≠ c → ∀ l, k'.owner l = some c' ↔ k.owner l = some c'

/-- What the discipline looks at in a task. -/
structure Task.Same (x y : Task) : Prop where
  state : x.state = y.state
  chan : x.chan = y.chan
  token : x.token = y.token
  waits : x.waits = y.waits

theorem Task.Same.refl (x : Task) : x.Same x := ⟨rfl, rfl, rfl, rfl⟩

/-- No CPU but `c` knows anything about task `u`. -/
def Free (mode : ℕ → Mode) (view : ℕ → View) (c u : ℕ) : Prop :=
  ∀ c', c' ≠ c → (mode c').about ≠ some u ∧ (∀ state, (view c').known ≠ some (u, state)) ∧
    (view c').popped ≠ some u

theorem OnCpu.other (h : OnCpu k c' m v) (hl : Local k k' c) (hne : c' ≠ c) {T : ℕ → Prop}
    (hsame : ∀ u, ¬ T u → (k'.task u).Same (k.task u))
    (hfree : ∀ u, T u → m.about ≠ some u ∧ (∀ state, v.known ≠ some (u, state)) ∧
      v.popped ≠ some u)
    (hdead : ∀ u, T u → (k'.task u).state = .DEAD →
      (k.task u).state = .DEAD ∨ k.owner .wait = some c)
    (hsem : ∀ s, k'.waiters s = k.waiters s ∨ k.owner (.sem s) ≠ some c')
    (hnew : ∀ s u, u ∈ k'.waiters s → u ∈ k.waiters s ∨ (k.task u).state ≠ .SLEEPING) :
    OnCpu k' c' m v := by
  have hcode := hl.code c' hne
  have hcurrent := hl.current c' hne
  have hhome := hl.home c' hne
  have habout : ∀ u, m.about = some u → (k'.task u).Same (k.task u) :=
    fun u hu => hsame u fun hT => (hfree u hT).1 hu
  constructor
  case held => exact fun l => (hl.owner c' hne l).trans (h.held l)
  case noff => exact (hl.noff c' hne).trans h.noff
  case mode =>
    have hmode := h.mode
    cases m with
    | sched =>
      simp only [Kernel.At, hcode, hcurrent]
      exact hmode
    | task t =>
      obtain ⟨hs, hc, ht, hw⟩ := habout t rfl
      simp only [Kernel.At, hcode, hcurrent, hhome, hs, hc, ht, hw]
      exact hmode
    | picked t =>
      simp only [Kernel.At, hcode, hcurrent, (habout t rfl).state]
      exact hmode
    | entering t =>
      simp only [Kernel.At, hcode, hcurrent, (habout t rfl).state]
      exact hmode
    | back t =>
      simp only [Kernel.At, hcode, hcurrent, (habout t rfl).state]
      exact hmode
  case known =>
    intro i state hi
    rw [(hsame i fun hT => (hfree i hT).2.1 state hi).state]
    exact h.known i state hi
  case queued =>
    intro s hs
    obtain ⟨t, ht, hmem⟩ := h.queued s hs
    refine ⟨t, ht, ?_⟩
    rcases hsem s with heq | hown
    · rw [heq]
      exact hmem
    · exact absurd ((h.held _).mpr (h.ok.queued s hs)) hown
  case target =>
    intro q hq hd
    by_cases hT : T q
    · rcases hdead q hT hd with hd | hown
      · exact h.target q hq hd
      · have hwait := (h.held _).mpr (h.ok.target q hq)
        rw [hown] at hwait
        exact hne (Option.some.inj hwait).symm
    · rw [(hsame q hT).state] at hd
      exact h.target q hq hd
  case popped =>
    intro u hu
    obtain ⟨hstate, hchan, hout⟩ := h.popped u hu
    have hs := hsame u fun hT => (hfree u hT).2.2 hu
    refine ⟨hs.state.trans hstate, hs.chan.trans hchan, fun s hmem => ?_⟩
    rcases hnew s u hmem with hold | hawake
    · exact hout s hold
    · exact hawake hstate

/-- A task whose record stays the same. -/
theorem OnTask.same {mode' : ℕ → Mode} {view' : ℕ → View} (h : OnTask k mode view t)
    (hs : (k'.task t).Same (k.task t))
    (hrunning : (k.task t).state = .RUNNING → ∃ c, (mode' c).about = some t)
    (hcontext : (∀ c, mode' c ≠ .task t) → (k.task t).state ≠ .DEAD →
      (k.task t).state ≠ .ZOMBIE → Does (some t) (resume (k.task t) t) (k'.context t))
    (hstay : ∀ s, t ∈ k.waiters s → t ∈ k'.waiters s ∨ ∃ c, (view' c).popped = some t)
    (hpop : (∃ c, (view c).popped = some t) → ∃ c, (view' c).popped = some t)
    (hwaits : (∃ c, mode c = .task t) → (∃ c, mode' c = .task t) ∨
      ∀ q, (k.task t).waits = some q →
        (k.task t).state = .SLEEPING ∧ (k.task t).chan = some q.chan) :
    OnTask k' mode' view' t := by
  obtain ⟨hstate, hchan, htoken, hwait⟩ := hs
  constructor
  case running =>
    rw [hstate]
    exact hrunning
  case context =>
    have hresume : resume (k'.task t) t = resume (k.task t) t := by
      simp only [resume, hchan, htoken]
    rw [hstate, hresume]
    exact hcontext
  case parked =>
    rw [hstate, hchan, htoken]
    intro hs hc
    rcases h.parked hs hc with ⟨s, hmem, hsons⟩ | hpopped
    · exact (hstay s hmem).imp_left fun hmem => ⟨s, hmem, hsons⟩
    · exact .inr (hpop hpopped)
  case sleeper =>
    rw [hstate, hchan, hwait, htoken]
    exact h.sleeper
  case waits =>
    rw [hstate, hchan, hwait]
    intro q hq
    rcases h.waits q hq with hmode | hsleep
    · exact (hwaits hmode).imp_right fun hall => hall q hq
    · exact .inr hsleep
  case dead =>
    rw [hstate, hchan]
    exact h.dead
  case small =>
    rw [hstate]
    exact h.small

/-- The tasks of `T` have been touched by CPU `c`, and the state around them is sound. -/
theorem Sound.advance (h : Sound k mode view) (T : ℕ → Prop)
    (hl : Local k k' c) (hcpu : OnCpu k' c m v)
    (hsame : ∀ u, ¬ T u → (k'.task u).Same (k.task u) ∧ k'.context u = k.context u)
    (hfree : ∀ u, T u → (k'.task u).Same (k.task u) ∨ Free mode view c u)
    (hdead : ∀ u, T u → (k'.task u).state = .DEAD →
      (k.task u).state = .DEAD ∨ k.owner .wait = some c)
    (htask : ∀ u, T u → OnTask k' (Function.update mode c m) (Function.update view c v) u)
    (honce : ∀ t, m.about = some t → (mode c).about = some t ∨ ∀ c', (mode c').about ≠ some t)
    (hleave : ∀ t, (mode c).about = some t → m.about = some t ∨ T t)
    (hmode : ∀ t, ¬ T t → (mode c = .task t ↔ m = .task t))
    (hsem : ∀ s, k'.waiters s = k.waiters s ∨ ∀ c', c' ≠ c → k.owner (.sem s) ≠ some c')
    (hsems : ∀ s, OnSem k' (Function.update mode c m) (Function.update view c v) s)
    (hapart : ∀ s s' u, u ∈ k'.waiters s → u ∈ k'.waiters s' → s = s')
    (hstay : ∀ s u, u ∈ k.waiters s → u ∈ k'.waiters s ∨ v.popped = some u ∨ T u)
    (hnew : ∀ s u, u ∈ k'.waiters s → u ∈ k.waiters s ∨ (k.task u).state ≠ .SLEEPING)
    (hpop : ∀ u, (view c).popped = some u → v.popped = some u ∨ T u)
    (hpopper : ∀ u, v.popped = some u →
      (view c).popped = some u ∨ ∀ c', (view c').popped ≠ some u) :
    Sound k' (Function.update mode c m) (Function.update view c v) := by
  have hmodes : ∀ c', c' ≠ c → Function.update mode c m c' = mode c' :=
    fun c' hne => Function.update_of_ne hne _ _
  have hviews : ∀ c', c' ≠ c → Function.update view c v c' = view c' :=
    fun c' hne => Function.update_of_ne hne _ _
  constructor
  case cpu =>
    intro c'
    by_cases hc : c' = c
    · subst hc
      rw [Function.update_self, Function.update_self]
      exact hcpu
    · rw [hmodes c' hc, hviews c' hc]
      apply (h.cpu c').other (T := fun u => ¬ (k'.task u).Same (k.task u)) hl hc
      case hsame => exact fun u hu => not_not.mp hu
      case hfree =>
        intro u hu
        have hT : T u := by
          by_contra hT
          exact hu (hsame u hT).1
        exact (hfree u hT).resolve_left hu c' hc
      case hdead =>
        intro u hu
        have hT : T u := by
          by_contra hT
          exact hu (hsame u hT).1
        exact hdead u hT
      case hsem => exact fun s => (hsem s).imp_right fun hs => hs c' hc
      case hnew => exact hnew
  case task =>
    intro t
    by_cases hT : T t
    · exact htask t hT
    · obtain ⟨hs, hcontext⟩ := hsame t hT
      have ht := h.task t
      have hat : ∀ c', mode c' = .task t → Function.update mode c m c' = .task t := by
        intro c' hc'
        by_cases hc : c' = c
        · subst hc
          rw [Function.update_self]
          exact (hmode t hT).mp hc'
        · rw [hmodes c' hc]
          exact hc'
      apply ht.same hs
      case hrunning =>
        intro hrun
        obtain ⟨c', hc'⟩ := ht.running hrun
        refine ⟨c', ?_⟩
        by_cases hc : c' = c
        · subst hc
          rw [Function.update_self]
          exact (hleave t hc').resolve_right hT
        · rw [hmodes c' hc]
          exact hc'
      case hcontext =>
        rw [hcontext]
        exact fun hout => ht.context fun c' hc' => hout c' (hat c' hc')
      case hstay =>
        intro s hmem
        rcases hstay s t hmem with hmem | hpopped | hT'
        · exact .inl hmem
        · refine .inr ⟨c, ?_⟩
          rw [Function.update_self]
          exact hpopped
        · exact absurd hT' hT
      case hpop =>
        rintro ⟨c', hc'⟩
        refine ⟨c', ?_⟩
        by_cases hc : c' = c
        · subst hc
          rw [Function.update_self]
          exact (hpop t hc').resolve_right hT
        · rw [hviews c' hc]
          exact hc'
      case hwaits =>
        rintro ⟨c', hc'⟩
        exact .inl ⟨c', hat c' hc'⟩
  case sem => exact hsems
  case once =>
    have hself : ∀ c' t, c' ≠ c → m.about = some t → (mode c').about = some t → False := by
      intro c' t hne hm hc'
      rcases honce t hm with hold | hnone
      · exact hne (h.once c' c t hc' hold)
      · exact hnone c' hc'
    intro c₁ c₂ t h₁ h₂
    by_cases hc₁ : c₁ = c <;> by_cases hc₂ : c₂ = c
    · rw [hc₁, hc₂]
    · subst hc₁
      rw [Function.update_self] at h₁
      rw [hmodes c₂ hc₂] at h₂
      exact (hself c₂ t hc₂ h₁ h₂).elim
    · subst hc₂
      rw [Function.update_self] at h₂
      rw [hmodes c₁ hc₁] at h₁
      exact (hself c₁ t hc₁ h₂ h₁).elim
    · rw [hmodes c₁ hc₁] at h₁
      rw [hmodes c₂ hc₂] at h₂
      exact h.once c₁ c₂ t h₁ h₂
  case apart => exact hapart
  case popper =>
    have hself : ∀ c' u, c' ≠ c → v.popped = some u → (view c').popped = some u → False := by
      intro c' u hne hv hc'
      rcases hpopper u hv with hold | hnone
      · exact hne (h.popper c' c u hc' hold)
      · exact hnone c' hc'
    intro c₁ c₂ u h₁ h₂
    by_cases hc₁ : c₁ = c <;> by_cases hc₂ : c₂ = c
    · rw [hc₁, hc₂]
    · subst hc₁
      rw [Function.update_self] at h₁
      rw [hviews c₂ hc₂] at h₂
      exact (hself c₂ u hc₂ h₁ h₂).elim
    · subst hc₂
      rw [Function.update_self] at h₂
      rw [hviews c₁ hc₁] at h₁
      exact (hself c₁ u hc₁ h₂ h₁).elim
    · rw [hviews c₁ hc₁] at h₁
      rw [hviews c₂ hc₂] at h₂
      exact h.popper c₁ c₂ u h₁ h₂

/-- The scheduler and the tasks go on without a `swtch`. -/
theorem Sound.turn (h : Sound k mode view) (T : ℕ → Prop)
    (hl : Local k k' c) (hcpu : OnCpu k' c (mode c) v)
    (hsame : ∀ u, ¬ T u → (k'.task u).Same (k.task u) ∧ k'.context u = k.context u)
    (hfree : ∀ u, T u → Free mode view c u)
    (hdead : ∀ u, T u → (k'.task u).state = .DEAD →
      (k.task u).state = .DEAD ∨ k.owner .wait = some c)
    (htask : ∀ u, T u → OnTask k' mode (Function.update view c v) u)
    (hwaiters : k'.waiters = k.waiters)
    (hvalue : ∀ s, (k.waiters s).length = (-k'.value s).toNat)
    (hasleep : ∀ u s, T u → u ∈ k.waiters s →
      ((k'.task u).state = .SLEEPING ∧ (k'.task u).chan = none) ∨
        (mode c = .task u ∧ v.queued = some s))
    (hqueue : ∀ t s, mode c = .task t → ¬ T t → (view c).queued = some s → v.queued = some s)
    (hpop : ∀ u, (view c).popped = some u → v.popped = some u ∨ T u)
    (hpopper : ∀ u, v.popped = some u → (view c).popped = some u) :
    Sound k' mode (Function.update view c v) := by
  have hmode : Function.update mode c (mode c) = mode := Function.update_eq_self c mode
  have hall : Sound k' (Function.update mode c (mode c)) (Function.update view c v) := by
    apply h.advance T hl hcpu hsame (fun u hu => .inr (hfree u hu)) hdead
    case htask =>
      rw [hmode]
      exact htask
    case honce => exact fun t ht => .inl ht
    case hleave => exact fun t ht => .inl ht
    case hmode => exact fun t _ => Iff.rfl
    case hsem =>
      intro s
      rw [hwaiters]
      exact .inl rfl
    case hsems =>
      rw [hmode]
      intro s
      have hs := h.sem s
      constructor
      case asleep =>
        rw [hwaiters]
        intro u hu
        by_cases hT : T u
        · rcases hasleep u s hT hu with hsleep | ⟨hc, hq⟩
          · exact .inl hsleep
          · refine .inr ⟨c, hc, ?_⟩
            rw [Function.update_self]
            exact hq
        · rw [(hsame u hT).1.state, (hsame u hT).1.chan]
          rcases hs.asleep u hu with hsleep | ⟨c', hc', hq⟩
          · exact .inl hsleep
          · refine .inr ⟨c', hc', ?_⟩
            by_cases hc : c' = c
            · subst hc
              rw [Function.update_self]
              exact hqueue u s hc' hT hq
            · rw [Function.update_of_ne hc]
              exact hq
      case nodup =>
        rw [hwaiters]
        exact hs.nodup
      case count =>
        rw [hwaiters]
        exact hvalue s
      case own =>
        rw [hwaiters]
        exact hs.own
    case hapart =>
      rw [hwaiters]
      exact h.apart
    case hstay =>
      rw [hwaiters]
      exact fun s u hu => .inl hu
    case hnew =>
      rw [hwaiters]
      exact fun s u hu => .inl hu
    case hpop => exact hpop
    case hpopper => exact fun u hu => .inl (hpopper u hu)
  rwa [hmode] at hall

/-- The CPU runs its scheduler's or its task's code. -/
def Mode.Steady (m : Mode) : Prop := m = .sched ∨ ∃ t, m = .task t

/-- The two instructions between a scheduler and a task. -/
def Instr.Between : Instr → Prop
  | .setCurrent _ | .enter _ => True
  | _ => False

theorem OnCpu.does {i : Instr} {rest : List Instr} (h : OnCpu k c m v)
    (hcode : k.code c = i :: rest) (hi : ¬ i.Between) : m.Steady ∧ Does m.me v (i :: rest) := by
  have hmode := h.mode
  cases m with
  | sched =>
    obtain ⟨-, hdoes⟩ := hmode
    rw [hcode] at hdoes
    exact ⟨.inl rfl, hdoes⟩
  | task t =>
    obtain ⟨-, -, hdoes, -⟩ := hmode
    rw [hcode] at hdoes
    exact ⟨.inr ⟨t, rfl⟩, hdoes⟩
  | picked t =>
    obtain ⟨-, hcode', -⟩ := hmode
    rw [hcode'] at hcode
    cases hcode
    exact (hi trivial).elim
  | entering t =>
    obtain ⟨-, hcode', -⟩ := hmode
    rw [hcode'] at hcode
    cases hcode
    exact (hi trivial).elim
  | back t =>
    obtain ⟨-, hcode', -⟩ := hmode
    rw [hcode'] at hcode
    cases hcode
    exact (hi trivial).elim

theorem Mode.Steady.sched (hm : m.Steady) (hme : m.me = none) : m = .sched := by
  rcases hm with rfl | ⟨t, rfl⟩
  · rfl
  · cases hme

theorem Mode.Steady.task (hm : m.Steady) (hme : m.me = some t) : m = .task t := by
  rcases hm with rfl | ⟨t', rfl⟩
  · cases hme
  · cases hme
    rfl

theorem OnCpu.head {i : Instr} {rest : List Instr} (h : OnCpu k c m v)
    (hcode : k.code c = i :: rest) (hr : i.Regular) :
    m.Steady ∧ v.Ok m.me ∧ i.Allowed m.me v ∧ Does m.me (i.next v) rest := by
  have hi : ¬ i.Between := by
    intro hi
    cases i with
    | setCurrent _ => exact hr
    | enter _ => exact hr
    | _ => exact hi
  obtain ⟨hm, hdoes⟩ := h.does hcode hi
  exact ⟨hm, hdoes.head hr⟩

theorem OnCpu.scan_head {rest : List Instr} (h : OnCpu k c m v)
    (hcode : k.code c = .scan t :: rest) : m = .sched ∧ v = .plain none [] ∧ rest = [] := by
  obtain ⟨hm, hme, hdoes⟩ := h.does hcode id
  exact ⟨hm.sched hme, hdoes⟩

theorem OnCpu.pick_head {rest : List Instr} (h : OnCpu k c m v)
    (hcode : k.code c = .pick t :: rest) :
    m = .sched ∧ v = .plain none [.task t] ∧ rest = [.unlock (.task t), .scan (t + 1)] := by
  obtain ⟨hm, hme, hdoes⟩ := h.does hcode id
  exact ⟨hm.sched hme, hdoes⟩

theorem OnCpu.swtch_head {rest : List Instr} (h : OnCpu k c m v)
    (hcode : k.code c = .swtch t :: rest) :
    m = .task t ∧ v = .exiting [.task t] ∧ rest = [] := by
  obtain ⟨hm, -, ⟨hme, hview⟩, hrest⟩ := h.does hcode id
  exact ⟨hm.task hme, hview, hrest⟩

theorem OnCpu.zombie_head {status : BitVec 32} {rest : List Instr} (h : OnCpu k c m v)
    (hcode : k.code c = .zombie t status :: rest) :
    m = .task t ∧ v = .plain none [.task t] ∧ rest = exitRest t := by
  obtain ⟨hm, -, ⟨hme, hview⟩, hrest, -⟩ := h.does hcode id
  exact ⟨hm.task hme, hview, hrest⟩

theorem OnCpu.setCurrent_head {o : Option ℕ} {rest : List Instr} (h : OnCpu k c m v)
    (hcode : k.code c = .setCurrent o :: rest) :
    (∃ t, m = .picked t ∧ o = some t ∧ rest = .enter t :: back t) ∨
      ∃ t, m = .back t ∧ o = none ∧ rest = [.unlock (.task t), .scan (t + 1)] := by
  have hmode := h.mode
  cases m with
  | sched =>
    obtain ⟨-, hdoes⟩ := hmode
    rw [hcode] at hdoes
    exact hdoes.2.1.elim
  | task t =>
    obtain ⟨-, -, hdoes, -⟩ := hmode
    rw [hcode] at hdoes
    exact hdoes.2.1.elim
  | picked t =>
    have hcode' := hmode.2.1
    rw [hcode] at hcode'
    cases hcode'
    exact .inl ⟨t, rfl, rfl, rfl⟩
  | entering t =>
    have hcode' := hmode.2.1
    rw [hcode] at hcode'
    cases hcode'
  | back t =>
    have hcode' := hmode.2.1
    rw [hcode] at hcode'
    cases hcode'
    exact .inr ⟨t, rfl, rfl, rfl⟩

theorem OnCpu.enter_head {rest : List Instr} (h : OnCpu k c m v)
    (hcode : k.code c = .enter t :: rest) : m = .entering t ∧ rest = back t := by
  have hmode := h.mode
  cases m with
  | sched =>
    obtain ⟨-, hdoes⟩ := hmode
    rw [hcode] at hdoes
    exact hdoes.2.1.elim
  | task t' =>
    obtain ⟨-, -, hdoes, -⟩ := hmode
    rw [hcode] at hdoes
    exact hdoes.2.1.elim
  | picked t' =>
    have hcode' := hmode.2.1
    rw [hcode] at hcode'
    cases hcode'
  | entering t' =>
    have hcode' := hmode.2.1
    rw [hcode] at hcode'
    cases hcode'
    exact ⟨rfl, rfl⟩
  | back t' =>
    have hcode' := hmode.2.1
    rw [hcode] at hcode'
    cases hcode'

/-- What the own task of a view has to be like. -/
def View.Tells (v : View) (x : Task) : Prop :=
  x.state = v.own ∧ x.chan = v.chan ∧ x.token = v.token ∧ x.waits = v.waits

theorem Kernel.At.steady (h : k.At c v m) (hm : m.Steady) {v' : View}
    (hcurrent : k'.current c = k.current c) (hhome : k'.home c = k.home c)
    (hdoes : Does m.me v' (k'.code c)) (htells : ∀ t, m = .task t → v'.Tells (k'.task t)) :
    k'.At c v' m := by
  rcases hm with rfl | ⟨t, rfl⟩
  · exact ⟨hcurrent.trans h.1, hdoes⟩
  · exact ⟨hcurrent.trans h.1, hhome.trans h.2.1, hdoes, htells t rfl⟩

/-- Nothing changes but the code of a CPU, its locks, and what no view speaks of. -/
structure Quiet (k k' : Kernel) (c : ℕ) : Prop extends Local k k' c where
  same : ∀ u, (k'.task u).Same (k.task u)
  context : k'.context = k.context
  waiters : k'.waiters = k.waiters
  value : k'.value = k.value
  currents : k'.current = k.current
  homes : k'.home = k.home

theorem Sound.quiet (h : Sound k mode view) (hq : Quiet k k' c) (hm : (mode c).Steady)
    (hheld : ∀ l, k'.owner l = some c ↔ l ∈ v.held) (hnoff : k'.noff c = v.held.length)
    (hdoes : Does (mode c).me v (k'.code c))
    (hown : v.own = (view c).own ∧ v.chan = (view c).chan ∧ v.token = (view c).token ∧
      v.waits = (view c).waits)
    (hqueued : v.queued = (view c).queued) (hpopped : v.popped = (view c).popped)
    (hknown : ∀ i state, v.known = some (i, state) → (k.task i).state = state)
    (htarget : ∀ q, v.target = some q → (k.task q).state ≠ .DEAD) :
    Sound k' mode (Function.update view c v) := by
  have hc := h.cpu c
  apply h.turn (fun _ => False) hq.toLocal
  case hcpu =>
    constructor
    case held => exact hheld
    case noff => exact hnoff
    case mode =>
      apply hc.mode.steady hm (congrFun hq.currents c) (congrFun hq.homes c) hdoes
      intro t ht
      have hmode := hc.mode
      rw [ht] at hmode
      obtain ⟨-, -, -, hs, hch, hto, hw⟩ := hmode
      obtain ⟨hs', hch', hto', hw'⟩ := hq.same t
      exact ⟨(hs'.trans hs).trans hown.1.symm, (hch'.trans hch).trans hown.2.1.symm,
        (hto'.trans hto).trans hown.2.2.1.symm, (hw'.trans hw).trans hown.2.2.2.symm⟩
    case known =>
      intro i state hi
      rw [(hq.same i).state]
      exact hknown i state hi
    case queued =>
      rw [hqueued, hq.waiters]
      exact hc.queued
    case target =>
      intro q ht
      rw [(hq.same q).state]
      exact htarget q ht
    case popped =>
      intro u hu
      rw [hpopped] at hu
      rw [(hq.same u).state, (hq.same u).chan, hq.waiters]
      exact hc.popped u hu
  case hsame => exact fun u _ => ⟨hq.same u, congrFun hq.context u⟩
  case hfree => exact fun u hu => hu.elim
  case hdead => exact fun u hu => hu.elim
  case htask => exact fun u hu => hu.elim
  case hwaiters => exact hq.waiters
  case hvalue =>
    rw [hq.value]
    exact fun s => (h.sem s).count
  case hasleep => exact fun u s hu => hu.elim
  case hqueue =>
    intro t s _ _ hs
    rw [hqueued]
    exact hs
  case hpop =>
    intro u hu
    rw [hpopped]
    exact .inl hu
  case hpopper =>
    intro u hu
    rw [← hpopped]
    exact hu

end Zrhos.Sched
