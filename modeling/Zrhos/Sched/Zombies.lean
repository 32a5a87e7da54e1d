import Zrhos.Sched.System

/-! `exit` and `sys_wait`: a child that has exited is announced to its parent, and counted in
the parent's semaphore until the parent finds it. -/
namespace Zrhos.Sched
open Steps Sync

variable {k k' : Kernel} {mode : ℕ → Mode} {view : ℕ → View} {c c' t u p q : ℕ} {i : Instr}
  {code rest : List Instr} {act : Act} {s : Sem} {status : ℕ} {value : ℕ → ℕ}
  {cond : Cond → Bool}

/-! ### Announcements on their way -/

def Instr.Announces : Instr → Bool
  | .up _ (some _) => true
  | _ => false

/-- No child is about to be announced. -/
def Clean (code : List Instr) : Prop := ∀ i ∈ code, i.Announces = false

@[simp] theorem clean_nil : Clean [] := fun i hi => by cases hi

@[simp] theorem clean_cons : Clean (i :: rest) ↔ i.Announces = false ∧ Clean rest :=
  List.forall_mem_cons

@[simp] theorem clean_append {a b : List Instr} : Clean (a ++ b) ↔ Clean a ∧ Clean b :=
  List.forall_mem_append

@[simp] theorem clean_wakeup (myt : Option ℕ) (chan : ℕ) : Clean (wakeup myt chan) := by
  intro i hi
  obtain ⟨t, -, hmem⟩ := List.mem_flatMap.mp hi
  unfold wakeupRound at hmem
  split_ifs at hmem
  · cases hmem
  · simp only [List.mem_cons, List.not_mem_nil, or_false] at hmem
    rcases hmem with rfl | rfl | rfl <;> rfl

theorem clean_reparent (t : ℕ) : Clean (reparent t) := by
  intro i hi
  obtain ⟨p, -, rfl⟩ := List.mem_map.mp hi
  rfl

theorem clean_back (t : ℕ) : Clean (back t) := by
  simp [back, Instr.Announces]

theorem clean_criticalSection (myt : Option ℕ) (l : ℕ) (ops : List CondOp) :
    Clean (criticalSection myt l ops) := by
  have hops : Clean (ops.flatMap (CondOp.code myt l)) := by
    intro i hi
    obtain ⟨op, -, hmem⟩ := List.mem_flatMap.mp hi
    cases op with
    | await chan =>
      obtain ⟨t, -, rfl⟩ := List.mem_map.mp hmem
      rfl
    | raise chan =>
      rw [List.mem_singleton.mp hmem]
      rfl
    | lower chan =>
      rw [List.mem_singleton.mp hmem]
      rfl
  simp [criticalSection, Instr.Announces, hops]

theorem clean_call (op : Op) : Clean (op.code t) := by
  cases op with
  | underLock l ops => exact clean_criticalSection _ l ops
  | exit status =>
    simp [Op.code, exit, exitRest, clean_reparent, Instr.Announces]
  | _ => simp [Op.code, sysFork, sysWait, sysKill, lmP, lmV, Instr.Announces]

theorem clean_interrupt (irq : Irq) (myt : Option ℕ) : Clean (irq.code c myt) := by
  cases irq with
  | software =>
    rw [Irq.code]
    split_ifs <;> simp [Instr.Announces]
  | device l ops => exact clean_criticalSection _ l ops

/-- The instructions with which an exiting task begins to announce a child. -/
def Instr.Signals : Instr → Prop
  | .signalParent _ | .adopt _ _ => True
  | _ => False

/-- Nothing but those puts an announcement in front. -/
theorem perform_clean (hs : k.perform c rest i = some k') (hi : ¬ i.Switches)
    (hsignal : ¬ i.Signals) (hrest : Clean rest) : Clean (k'.code c) := by
  cases i with
  | sched t => exact (hi trivial).elim
  | swtch t => exact (hi trivial).elim
  | enter t => exact (hi trivial).elim
  | signalParent t => exact (hsignal trivial).elim
  | adopt t p => exact (hsignal trivial).elim
  | down t s =>
    rw [Kernel.perform, startScan_task] at hs
    dsimp only at hs
    split_ifs at hs <;> cases hs <;> simp [lmPSleep, Instr.Announces, hrest]
  | up s p =>
    rw [Kernel.perform, announce_task] at hs
    dsimp only at hs
    repeat' split at hs
    all_goals cases hs
    all_goals simp [lmVWake, Instr.Announces, hrest]
  | _ =>
    simp only [Kernel.perform] at hs
    repeat' split at hs
    all_goals cases hs
    all_goals simp [Instr.Announces, Kernel.setTask, Kernel.utaskCreate, Kernel.freeTask,
      sysWait, lmP, yield, sleep, hrest]

/-- The code of `lm_V` that announces child `p` to its parent `q`. -/
def Tells (q p : ℕ) (code : List Instr) : Prop :=
  ∃ rest, Clean rest ∧
    (code = lmV (.sons q) (some p) ++ rest ∨ code = .up (.sons q) (some p) :: rest)

theorem tells_lmV (hrest : Clean rest) : Tells q p (lmV (.sons q) (some p) ++ rest) :=
  ⟨rest, hrest, .inl rfl⟩

theorem Tells.cases (h : Tells q p (i :: rest)) :
    (i = .lock (.sem (.sons q)) ∧ Tells q p rest) ∨
      (i = .up (.sons q) (some p) ∧ Clean rest) := by
  obtain ⟨rest', hclean, heq | heq⟩ := h
  · cases heq
    exact .inl ⟨rfl, rest', hclean, .inr rfl⟩
  · cases heq
    exact .inr ⟨rfl, hclean⟩

/-- An announcement under way is that of a child to its parent, under `wait_lock`. -/
structure Posted (k : Kernel) : Prop where
  context : ∀ t, Clean (k.context t)
  code : ∀ c, Clean (k.code c) ∨
    ∃ q p, k.owner .wait = some c ∧ (k.task p).parent = some q ∧ Tells q p (k.code c)

theorem Posted.init : Posted (kernelInit value cond) where
  context t := by
    simp only [kernelInit]
    split_ifs <;> simp [Instr.Announces]
  code c := .inl (by simp [kernelInit, Instr.Announces])

/-- Only who holds `wait_lock` changes the parent of a task that has one. -/
theorem Sound.parent_stays (h : Sound k mode view) (hf : Family k)
    (hcode : k.code c = i :: rest) (hs : k.perform c rest i = some k')
    (hwait : k.owner .wait ≠ some c) (hp : (k.task p).parent = some q) :
    (k'.task p).parent = some q := by
  have hset : ∀ (j : Kernel) u x, (p = u → x.parent = (j.task u).parent) →
      ((j.setTask u x).task p).parent = (j.task p).parent := by
    intro j u x hx
    by_cases hu : p = u
    · subst hu
      rw [j.setTask_self]
      exact hx rfl
    · rw [j.setTask_of_ne x hu]
  cases i with
  | setState t state =>
    cases hs
    refine (hset _ _ _ ?_).trans hp
    exact fun _ => rfl
  | zombie t status =>
    cases hs
    refine (hset _ _ _ ?_).trans hp
    exact fun _ => rfl
  | forkCheck t u =>
    simp only [Kernel.perform] at hs
    split_ifs at hs <;> cases hs
    · refine (hset _ _ _ ?_).trans hp
      exact fun _ => rfl
    · exact hp
  | forkFill t u =>
    obtain ⟨-, -, ⟨-, hview⟩, -⟩ := (h.cpu c).head hcode trivial
    have hused : (k.task u).state = .USED := by
      apply (h.cpu c).known
      rw [hview]
    cases hs
    refine (hset _ _ _ ?_).trans hp
    rintro rfl
    rw [hf.fresh p hused] at hp
    cases hp
  | adopt t p' =>
    obtain ⟨-, -, ⟨-, hview⟩, -⟩ := (h.cpu c).head hcode trivial
    refine absurd ?_ hwait
    rw [(h.cpu c).held, hview]
    exact List.mem_cons_self
  | reap t status p' =>
    obtain ⟨-, -, ⟨-, hview⟩, -⟩ := (h.cpu c).head hcode trivial
    refine absurd ?_ hwait
    rw [(h.cpu c).held, hview]
    exact List.mem_cons_self
  | _ => exact (perform_stays hs id p).parent.trans hp

theorem Posted.perform (hk : Posted k) (h : Sound k mode view) (hf : Family k)
    (hcode : k.code c = i :: rest) (hs : k.perform c rest i = some k') : Posted k' := by
  have hl := h.perform_local hs
  -- the executing CPU is in the middle of an announcement, or at its beginning, or not
  have hrest : Clean (i :: rest) ∨ ∃ q p, k.owner .wait = some c ∧
      (k.task p).parent = some q ∧ Tells q p (i :: rest) := by
    rw [← hcode]
    exact hk.code c
  constructor
  case context =>
    intro t
    by_cases hi : (∀ t, i ≠ .sched t) ∧ (∀ t, i ≠ .swtch t) ∧ ∀ t nt, i ≠ .forkCheck t nt
    · rw [perform_context hs hi]
      exact hk.context t
    cases i with
    | sched u =>
      have hclean : Clean rest := by
        rcases hrest with hclean | ⟨q, p, -, -, htells⟩
        · exact (clean_cons.mp hclean).2
        · rcases htells.cases with ⟨heq, -⟩ | ⟨heq, -⟩ <;> cases heq
      simp only [Kernel.perform] at hs
      split_ifs at hs
      cases hs
      by_cases hu : t = u
      · subst hu
        simpa [Kernel.leave] using hclean
      · simpa [Kernel.leave, Function.update_of_ne hu] using hk.context t
    | swtch u =>
      obtain ⟨-, -, rfl⟩ := (h.cpu c).swtch_head hcode
      cases hs
      by_cases hu : t = u
      · subst hu
        simp [Kernel.leave]
      · simpa [Kernel.leave, Function.update_of_ne hu] using hk.context t
    | forkCheck u nt =>
      simp only [Kernel.perform] at hs
      split_ifs at hs <;> cases hs
      · by_cases hu : t = nt
        · subst hu
          simp [Kernel.utaskCreate, Instr.Announces]
        · rw [show Kernel.context _ t = _ from Function.update_of_ne hu _ _]
          exact hk.context t
      · exact hk.context t
    | _ =>
      refine absurd ⟨?_, ?_, ?_⟩ hi
      · exact fun _ => Instr.noConfusion
      · exact fun _ => Instr.noConfusion
      · exact fun _ _ => Instr.noConfusion
  case code =>
    intro c'
    by_cases hc : c' = c
    swap
    · rw [hl.code c' hc]
      rcases hk.code c' with hclean | ⟨q, p, howner, hparent, htells⟩
      · exact .inl hclean
      · refine .inr ⟨q, p, (hl.owner c' hc _).mpr howner, ?_, htells⟩
        apply h.parent_stays hf hcode hs _ hparent
        rw [howner]
        exact fun he => hc (Option.some.inj he)
    subst hc
    rcases hrest with hclean | ⟨q, p, howner, hparent, htells⟩
    · replace hclean := (clean_cons.mp hclean).2
      cases i with
      | signalParent t =>
        obtain ⟨-, -, ⟨-, hview⟩, -⟩ := (h.cpu c').head hcode trivial
        have howner : k.owner .wait = some c' := by
          rw [(h.cpu c').held, hview]
          exact List.mem_cons_self
        simp only [Kernel.perform] at hs
        split at hs <;> cases hs
        · rename_i q hparent
          rw [Kernel.goto_code]
          exact .inr ⟨q, t, howner, hparent, tells_lmV hclean⟩
        · rw [Kernel.goto_code]
          exact .inl hclean
      | adopt t p =>
        obtain ⟨-, -, ⟨-, hview⟩, -⟩ := (h.cpu c').head hcode trivial
        have howner : k.owner .wait = some c' := by
          rw [(h.cpu c').held, hview]
          exact List.mem_cons_self
        simp only [Kernel.perform] at hs
        split_ifs at hs <;> cases hs
        · refine .inr ⟨0, p, howner, ?_, ?_⟩
          · rw [Kernel.setTask_self]
          · change Tells 0 p ((k.goto c' _).code c')
            rw [Kernel.goto_code]
            exact tells_lmV hclean
        · rw [Kernel.goto_code]
          exact .inl hclean
      | sched t =>
        obtain ⟨hm, -, ⟨hme, -⟩, -⟩ := (h.cpu c').head hcode trivial
        have hmode := (h.cpu c').mode
        rw [hm.task hme] at hmode
        simp only [Kernel.perform] at hs
        split_ifs at hs
        cases hs
        left
        rw [show (k.leave c' t rest).code c' = k.home c' from Function.update_self _ _ _,
          hmode.2.1]
        exact clean_back t
      | swtch t =>
        obtain ⟨hm, -, -⟩ := (h.cpu c').swtch_head hcode
        have hmode := (h.cpu c').mode
        rw [hm] at hmode
        cases hs
        left
        rw [show (k.leave c' t rest).code c' = k.home c' from Function.update_self _ _ _,
          hmode.2.1]
        exact clean_back t
      | enter t =>
        cases hs
        left
        rw [show Kernel.code _ c' = k.context t from Function.update_self _ _ _]
        exact hk.context t
      | _ => exact .inl (perform_clean hs id id hclean)
    · rcases htells.cases with ⟨rfl, hrest⟩ | ⟨rfl, hclean⟩
      · simp only [Kernel.perform] at hs
        split_ifs at hs
        cases hs
        refine .inr ⟨q, p, ?_, hparent, ?_⟩
        · simpa using howner
        · change Tells q p ((k.goto c' rest).code c')
          rwa [Kernel.goto_code]
      · exact .inl (perform_clean hs id id hclean)

/-! ### Children that have exited -/

/-- Child `p` has exited, and its announcement to parent `q` is still to come. -/
def Due (k : Kernel) (q p : ℕ) : Prop :=
  (∃ c, k.current c = some p ∧ .signalParent p ∈ k.code c) ∨
    ∃ c, k.owner .wait = some c ∧ Tells q p (k.code c)

/-- A child that has exited has been announced to its parent, or that is still to come. -/
def Announced (k : Kernel) : Prop :=
  ∀ p q, (k.task p).state = .ZOMBIE → (k.task p).parent = some q →
    (k.task p).announced = true ∨ Due k q p

theorem Announced.init : Announced (kernelInit value cond) := fun p q _ hp => by cases hp

theorem signalParent_not_back (p t : ℕ) : .signalParent p ∉ back t := by
  simp [back]

theorem Posted.rest_clean (hk : Posted k) (hcode : k.code c = i :: rest)
    (hi : (∀ l, i ≠ .lock l) ∧ ∀ s p, i ≠ .up s p) : Clean rest := by
  rcases hk.code c with hclean | ⟨q, p, -, -, htells⟩
  · rw [hcode] at hclean
    exact (clean_cons.mp hclean).2
  · rw [hcode] at htells
    rcases htells.cases with ⟨heq, -⟩ | ⟨heq, -⟩
    · exact (hi.1 _ heq).elim
    · exact (hi.2 _ _ heq).elim

/-- An announcement that is to come is made, or is still to come. -/
theorem Due.perform (hd : Due k q p) (hk : Posted k) (h : Sound k mode view)
    (hcode : k.code c = i :: rest) (hs : k.perform c rest i = some k')
    (hz : (k.task p).state = .ZOMBIE) (hp : (k.task p).parent = some q) :
    (k'.task p).announced = true ∨ Due k' q p := by
  have hl := h.perform_local hs
  rcases hd with hpending | ⟨c', howner, htells⟩
  · by_cases hi : i = .signalParent p
    · subst hi
      right
      right
      obtain ⟨-, -, ⟨-, hview⟩, -⟩ := (h.cpu c).head hcode trivial
      have howner : k.owner .wait = some c := by
        rw [(h.cpu c).held, hview]
        exact List.mem_cons_self
      simp only [Kernel.perform, hp] at hs
      cases hs
      refine ⟨c, howner, ?_⟩
      rw [Kernel.goto_code]
      exact tells_lmV (hk.rest_clean hcode (by simp))
    · exact .inr (.inl (h.pending hcode hs hl hi (signalParent_not_back p) hz hpending))
  · by_cases hc : c' = c
    · subst hc
      rw [hcode] at htells
      rcases htells.cases with ⟨rfl, hrest⟩ | ⟨rfl, -⟩
      · simp only [Kernel.perform] at hs
        split_ifs at hs
        cases hs
        refine .inr (.inr ⟨c', ?_, ?_⟩)
        · simpa using howner
        · change Tells q p ((k.goto c' rest).code c')
          rwa [Kernel.goto_code]
      · left
        have hself : ((k.announce (some p)).task p).announced = true := by
          rw [Kernel.announce, Kernel.setTask_self]
        rw [Kernel.perform, announce_task] at hs
        dsimp only at hs
        repeat' split at hs
        all_goals cases hs
        all_goals exact hself
    · refine .inr (.inr ⟨c', (hl.owner c' hc _).mpr howner, ?_⟩)
      rwa [hl.code c' hc]

/-- Where a zombie comes from. -/
theorem Sound.zombie_was (h : Sound k mode view) (hcode : k.code c = i :: rest)
    (hs : k.perform c rest i = some k') (hz : (k'.task p).state = .ZOMBIE) :
    ((k.task p).state = .ZOMBIE ∧ (k'.task p).parent = (k.task p).parent ∧
        ((k.task p).announced = true → (k'.task p).announced = true)) ∨
      (∃ status, i = .zombie p status) ∨
      ∃ t, i = .adopt t p ∧ (k.task p).parent = some t := by
  have hsame : k'.task p = k.task p → ((k.task p).state = .ZOMBIE ∧
      (k'.task p).parent = (k.task p).parent ∧
        ((k.task p).announced = true → (k'.task p).announced = true)) := by
    intro he
    rw [he] at hz ⊢
    exact ⟨hz, rfl, id⟩
  have htold := perform_told hs p
  have hstays : ¬ i.Forgets p → (k'.task p).Stays (k.task p) → ((k.task p).state = .ZOMBIE ∧
      (k'.task p).parent = (k.task p).parent ∧
        ((k.task p).announced = true → (k'.task p).announced = true)) :=
    fun hi hst => ⟨hst.zombie hz, hst.parent, fun hann => (htold.stays hann).resolve_right hi⟩
  cases i with
  | setState t state =>
    left
    obtain ⟨-, -, ⟨-, -, -, -, hstate⟩, -⟩ := (h.cpu c).head hcode trivial
    apply hstays id
    cases hs
    refine setTask_stays _ ?_ p
    rcases hstate with ⟨rfl, -⟩ | ⟨rfl, -⟩
    · exact .alive rfl (.inr (.inl rfl))
    · exact .alive rfl (.inr (.inr rfl))
  | zombie t xstatus =>
    by_cases hpt : p = t
    · subst hpt
      exact .inr (.inl ⟨xstatus, rfl⟩)
    · cases hs
      exact .inl (hsame (Kernel.setTask_of_ne _ _ hpt))
  | adopt t p' =>
    simp only [Kernel.perform] at hs
    split_ifs at hs with hchild <;> cases hs
    · by_cases hpp : p = p'
      · subst hpp
        exact .inr (.inr ⟨t, rfl, hchild⟩)
      · exact .inl (hsame (Kernel.setTask_of_ne _ _ hpp))
    · exact .inl (hsame rfl)
  | reap t status p' =>
    left
    have htoken : ∀ j : Kernel, ((j.setTask t { j.task t with token := none }).task p).Stays
        (j.task p) := by
      intro j
      refine setTask_stays _ ?_ p
      exact .same rfl rfl
    simp only [Kernel.perform] at hs
    split_ifs at hs <;> cases hs
    · by_cases hpp : p = p'
      · subst hpp
        rw [show (Kernel.freeTask _ t status p).task p = _ from Kernel.setTask_self _ _ _] at hz
        cases hz
      · apply hstays id
        rw [show (Kernel.freeTask _ t status p').task p = _ from Kernel.setTask_of_ne _ _ hpp]
        exact htoken (k.goto c _)
    · apply hstays id
      refine setTask_stays _ ?_ p
      exact .same rfl rfl
  | forkCheck t nt =>
    left
    simp only [Kernel.perform] at hs
    split_ifs at hs <;> cases hs
    · by_cases hpn : p = nt
      · subst hpn
        rw [show (Kernel.utaskCreate _ p).task p = _ from Kernel.setTask_self _ _ _] at hz
        cases hz
      · exact hsame (Kernel.setTask_of_ne _ _ hpn)
    · exact hsame rfl
  | forkFill t nt =>
    left
    cases hs
    by_cases hpn : p = nt
    · subst hpn
      rw [Kernel.setTask_self] at hz
      cases hz
    · exact hsame (Kernel.setTask_of_ne _ _ hpn)
  | _ => exact .inl (hstays id (perform_stays hs id p))

theorem Announced.perform (ha : Announced k) (hk : Posted k) (h : Sound k mode view)
    (hcode : k.code c = i :: rest) (hs : k.perform c rest i = some k') : Announced k' := by
  intro p q hz hp
  rcases h.zombie_was hcode hs hz with ⟨hz', hp', hann'⟩ | ⟨xstatus, rfl⟩ | ⟨t, rfl, hchild⟩
  · rw [hp'] at hp
    rcases ha p q hz' hp with hann | hdue
    · exact .inl (hann' hann)
    · exact hdue.perform hk h hcode hs hz' hp
  · obtain ⟨hm, -, rfl⟩ := (h.cpu c).zombie_head hcode
    have hmode := (h.cpu c).mode
    rw [hm] at hmode
    cases hs
    refine .inr (.inl ⟨c, hmode.1, ?_⟩)
    change .signalParent p ∈ (k.goto c (exitRest p)).code c
    rw [Kernel.goto_code]
    simp [exitRest]
  · obtain ⟨-, -, ⟨-, hview⟩, -⟩ := (h.cpu c).head hcode trivial
    have howner : k.owner .wait = some c := by
      rw [(h.cpu c).held, hview]
      exact List.mem_cons_self
    rw [Kernel.perform, if_pos hchild] at hs
    cases hs
    rw [Kernel.setTask_self] at hp
    cases hp
    refine .inr (.inr ⟨c, howner, ?_⟩)
    change Tells 0 p ((k.goto c _).code c)
    rw [Kernel.goto_code]
    exact tells_lmV (hk.rest_clean hcode (by simp))

/-! ### Counting them -/

/-- The children of task `t` that have been announced to it and that it has not found yet. -/
def Kernel.reapable (k : Kernel) (t : ℕ) : Finset ℕ :=
  (Finset.range NTASK).filter fun p =>
    (k.task p).parent = some t ∧ (k.task p).state = .ZOMBIE ∧ (k.task p).announced = true

theorem mem_reapable : p ∈ k.reapable t ↔ p < NTASK ∧ (k.task p).parent = some t ∧
    (k.task p).state = .ZOMBIE ∧ (k.task p).announced = true := by
  rw [Kernel.reapable, Finset.mem_filter, Finset.mem_range]

/-- No child becomes one of them but the one that `lm_V` announces. -/
theorem Sound.reapable_was (h : Sound k mode view) (hcode : k.code c = i :: rest)
    (hs : k.perform c rest i = some k') (hp : p ∈ k'.reapable t) :
    p ∈ k.reapable t ∨ ((∃ s, i = .up s (some p)) ∧ (k.task p).parent = some t) := by
  obtain ⟨hsmall, hparent, hz, hann⟩ := mem_reapable.mp hp
  rcases h.zombie_was hcode hs hz with ⟨hz', hp', -⟩ | ⟨xstatus, rfl⟩ | ⟨t', rfl, hchild⟩
  · rw [hp'] at hparent
    rcases (perform_told hs p).announced hann with hann | hup
    · exact .inl (mem_reapable.mpr ⟨hsmall, hparent, hz', hann⟩)
    · exact .inr ⟨hup, hparent⟩
  · cases hs
    rw [Kernel.setTask_self] at hann
    cases hann
  · rw [Kernel.perform, if_pos hchild] at hs
    cases hs
    rw [Kernel.setTask_self] at hann
    cases hann

theorem Sound.reapable_subset (h : Sound k mode view) (hcode : k.code c = i :: rest)
    (hs : k.perform c rest i = some k') (hi : ∀ s p, i ≠ .up s (some p)) :
    k'.reapable t ⊆ k.reapable t := by
  intro p hp
  rcases h.reapable_was hcode hs hp with hold | ⟨⟨s, hup⟩, -⟩
  · exact hold
  · exact (hi s p hup).elim

/-- What the semaphore of task `t` says of its children: it is at least their number, less
one for the child that a `sys_wait` under way is looking for; and those that its scan has
passed have been signalled after it began. -/
structure Counted (k : Kernel) (t : ℕ) : Prop where
  idle : (k.task t).token = none → ((k.reapable t).card : ℤ) ≤ k.value (.sons t)
  scan : ∀ i, (k.task t).token = some i →
    ((k.reapable t).card : ℤ) ≤ k.value (.sons t) + 1 ∧
      (0 < i → (((k.reapable t).filter (· < i)).card : ℤ) ≤ k.value (.sons t))
  asleep : t ∈ k.waiters (.sons t) → (k.task t).token = some 0

theorem Counted.init (t : ℕ) : Counted (kernelInit value cond) t where
  idle _ := by
    have hnone : (kernelInit value cond).reapable t = ∅ := by
      rw [Finset.eq_empty_iff_forall_notMem]
      intro p hp
      cases (mem_reapable.mp hp).2.1
    rw [hnone]
    exact le_refl _
  scan i hi := by cases hi
  asleep ht := by cases ht

/-- A step that gives no new child and counts nothing. -/
theorem Counted.fewer (hc : Counted k t) (hsub : k'.reapable t ⊆ k.reapable t)
    (hvalue : k'.value (.sons t) = k.value (.sons t))
    (hwaiters : k'.waiters (.sons t) = k.waiters (.sons t))
    (htoken : (k'.task t).token = (k.task t).token) : Counted k' t := by
  have hcard : (k'.reapable t).card ≤ (k.reapable t).card := Finset.card_le_card hsub
  have hbelow : ∀ i, ((k'.reapable t).filter (· < i)).card ≤
      ((k.reapable t).filter (· < i)).card := fun i =>
    Finset.card_le_card (Finset.filter_subset_filter _ hsub)
  constructor
  case idle =>
    intro hnone
    rw [htoken] at hnone
    have hold := hc.idle hnone
    omega
  case scan =>
    intro i hi
    rw [htoken] at hi
    obtain ⟨hall, hpassed⟩ := hc.scan i hi
    have hi := hbelow i
    refine ⟨by omega, fun hpos => ?_⟩
    have hold := hpassed hpos
    omega
  case asleep =>
    rw [hwaiters, htoken]
    exact hc.asleep

/-- The semaphore of a task that runs is not in debt. -/
theorem Sound.value_nonneg (h : Sound k mode view) (hm : mode c = .task t)
    (hrun : (view c).own = .RUNNING) (hqueued : (view c).queued = none) :
    0 ≤ k.value (.sons t) ∧ t ∉ k.waiters (.sons t) := by
  have hout : ∀ u, u ∉ k.waiters (.sons t) := by
    intro u hu
    have heq := (h.sem _).own t u rfl hu
    subst heq
    have hq := h.not_waiting hm ((h.own_state hm).trans hrun) hu
    rw [hqueued] at hq
    cases hq
  have hcount := (h.sem (.sons t)).count
  rw [List.eq_nil_iff_forall_not_mem.mpr hout, List.length_nil] at hcount
  exact ⟨by omega, hout t⟩

/-- The scan of a task goes past slot `p`, where it has found no child to report. -/
theorem Counted.pass (hc : Counted k t) (hsub : k'.reapable t ⊆ k.reapable t)
    (hvalue : k'.value (.sons t) = k.value (.sons t)) (hnonneg : 0 ≤ k.value (.sons t))
    (hasleep : t ∉ k'.waiters (.sons t)) (htoken : (k.task t).token = some p)
    (htoken' : (k'.task t).token = some (p + 1)) (hnot : p ∉ k.reapable t) : Counted k' t := by
  obtain ⟨hall, hpassed⟩ := hc.scan p htoken
  have hcard : (k'.reapable t).card ≤ (k.reapable t).card := Finset.card_le_card hsub
  have hbelow : (k'.reapable t).filter (· < p + 1) ⊆ (k.reapable t).filter (· < p) := by
    intro u hu
    obtain ⟨hold, hlt⟩ := Finset.mem_filter.mp hu
    have hne : u ≠ p := by
      rintro rfl
      exact hnot (hsub hold)
    exact Finset.mem_filter.mpr ⟨hsub hold, by omega⟩
  have hpass : (((k.reapable t).filter (· < p)).card : ℤ) ≤ k.value (.sons t) := by
    rcases Nat.eq_zero_or_pos p with rfl | hpos
    · simpa using hnonneg
    · exact hpassed hpos
  constructor
  case idle =>
    intro hnone
    rw [htoken'] at hnone
    cases hnone
  case scan =>
    intro i hi
    rw [htoken'] at hi
    cases hi
    have hle := Finset.card_le_card hbelow
    exact ⟨by omega, fun _ => by omega⟩
  case asleep => exact fun hmem => absurd hmem hasleep

/-- `lm_P` of the task on its own semaphore: it begins to look for a child. -/
theorem Counted.down (hc : Counted k t) (hsub : k'.reapable t ⊆ k.reapable t)
    (hvalue : k'.value (.sons t) = k.value (.sons t) - 1) (htoken : (k.task t).token = none)
    (htoken' : (k'.task t).token = some 0) : Counted k' t := by
  have hcard : (k'.reapable t).card ≤ (k.reapable t).card := Finset.card_le_card hsub
  constructor
  case idle =>
    intro hnone
    rw [htoken'] at hnone
    cases hnone
  case scan =>
    intro i hi
    rw [htoken'] at hi
    cases hi
    have hold := hc.idle htoken
    exact ⟨by omega, fun hpos => by omega⟩
  case asleep => exact fun _ => htoken'

/-- `lm_V`: one child more, at most. -/
theorem Counted.up (hc : Counted k t) (p : ℕ) (hsub : k'.reapable t ⊆ insert p (k.reapable t))
    (hvalue : k'.value (.sons t) = k.value (.sons t) + 1)
    (hwaiters : ∀ u, u ∈ k'.waiters (.sons t) → u ∈ k.waiters (.sons t))
    (htoken : (k'.task t).token = (k.task t).token) : Counted k' t := by
  have hinsert : ∀ a : Finset ℕ, (insert p a).card ≤ a.card + 1 := fun a =>
    Finset.card_insert_le p a
  have hcard : (k'.reapable t).card ≤ (k.reapable t).card + 1 :=
    (Finset.card_le_card hsub).trans (hinsert _)
  have hbelow : ∀ i, ((k'.reapable t).filter (· < i)).card ≤
      ((k.reapable t).filter (· < i)).card + 1 := by
    intro i
    refine (Finset.card_le_card ?_).trans (hinsert _)
    intro u hu
    obtain ⟨hmem, hlt⟩ := Finset.mem_filter.mp hu
    rcases Finset.mem_insert.mp (hsub hmem) with rfl | hold
    · exact Finset.mem_insert_self _ _
    · exact Finset.mem_insert_of_mem (Finset.mem_filter.mpr ⟨hold, hlt⟩)
  constructor
  case idle =>
    intro hnone
    rw [htoken] at hnone
    have hold := hc.idle hnone
    omega
  case scan =>
    intro i hi
    rw [htoken] at hi
    obtain ⟨hall, hpassed⟩ := hc.scan i hi
    have hi := hbelow i
    refine ⟨by omega, fun hpos => ?_⟩
    have hold := hpassed hpos
    omega
  case asleep =>
    intro hmem
    rw [htoken]
    exact hc.asleep (hwaiters t hmem)

/-- The scan has found its child, or the task takes up another scan. -/
theorem Counted.done (hcard : ((k'.reapable t).card : ℤ) ≤ k'.value (.sons t))
    (hasleep : t ∉ k'.waiters (.sons t)) (htoken : (k'.task t).token = none) : Counted k' t where
  idle _ := hcard
  scan i hi := by
    rw [htoken] at hi
    cases hi
  asleep hmem := absurd hmem hasleep

theorem perform_down_fields (hs : k.perform c rest (.down u s) = some k') :
    k'.value = Function.update k.value s (k.value s - 1) ∧ k'.task = (k.startScan u s).task ∧
      ∀ s', s' ≠ s → k'.waiters s' = k.waiters s' := by
  rw [Kernel.perform, startScan_task] at hs
  dsimp only at hs
  split_ifs at hs <;> cases hs
  · exact ⟨rfl, rfl, fun s' hne => Function.update_of_ne hne _ _⟩
  · exact ⟨rfl, rfl, fun s' _ => rfl⟩

theorem perform_up_fields {o : Option ℕ} (hs : k.perform c rest (.up s o) = some k') :
    k'.value = Function.update k.value s (k.value s + 1) ∧ k'.task = (k.announce o).task ∧
      (∀ s', s' ≠ s → k'.waiters s' = k.waiters s') ∧
        ∀ s' u, u ∈ k'.waiters s' → u ∈ k.waiters s' := by
  rw [Kernel.perform, announce_task] at hs
  dsimp only at hs
  split_ifs at hs
  · split at hs <;> cases hs
    refine ⟨rfl, rfl, fun s' hne => Function.update_of_ne hne _ _, fun s' u hu => ?_⟩
    by_cases hss : s' = s
    · subst hss
      rw [show Kernel.waiters _ s' = (k.waiters s').dropLast from Function.update_self _ _ _]
        at hu
      exact List.mem_of_mem_dropLast hu
    · rwa [show Kernel.waiters _ s' = k.waiters s' from Function.update_of_ne hss _ _] at hu
  · cases hs
    exact ⟨rfl, rfl, fun s' _ => rfl, fun s' u hu => hu⟩

/-- The token of the only task that an instruction changes. -/
theorem setTask_token {x : Task} (hne : t ≠ u) :
    ((k.setTask u x).task t).token = (k.task t).token := by
  rw [k.setTask_of_ne x hne]

/-- A child that `sys_wait` finds under `wait_lock` has been announced. -/
theorem Sound.found_announced (h : Sound k mode view) (ha : Announced k)
    (hcode : k.code c = .reap t status p :: rest) (hchild : (k.task p).parent = some t) :
    p ∈ k.reapable t := by
  obtain ⟨hsteady, -, ⟨hme, hview⟩, -⟩ := (h.cpu c).head hcode trivial
  have hzombie : (k.task p).state = .ZOMBIE := by
    apply (h.cpu c).known
    rw [hview]
  obtain ⟨hidle, -⟩ := h.idle_of_held (u := p) (hsteady.task hme) (by rw [hview]; simp)
    (by rw [hview]) (by rw [hzombie]; exact ⟨TaskState.noConfusion, TaskState.noConfusion⟩)
  have hsmall : p < NTASK := by
    by_contra hlarge
    rw [(h.task p).small (not_lt.mp hlarge)] at hzombie
    cases hzombie
  rw [mem_reapable]
  refine ⟨hsmall, hchild, hzombie, ?_⟩
  rcases ha p t hzombie hchild with hann | ⟨c', hcurrent, -⟩ | ⟨c', howner, htells⟩
  · exact hann
  · exact absurd ((h.cpu c').current hcurrent) (hidle.out c')
  · have hown : k.owner .wait = some c := by
      rw [(h.cpu c).held, hview]
      exact List.mem_cons_self
    rw [hown] at howner
    cases howner
    rw [hcode] at htells
    rcases htells.cases with ⟨heq, -⟩ | ⟨heq, -⟩ <;> cases heq

/-- The child is gone, and the scan is over. -/
theorem Counted.reap (hc : Counted k t) (ha : Announced k) (h : Sound k mode view)
    (hcode : k.code c = .reap t status p :: rest) (hchild : (k.task p).parent = some t)
    (hsub : ((k.goto c code).freeTask t status p).reapable t ⊆ k.reapable t) :
    Counted ((k.goto c code).freeTask t status p) t := by
  obtain ⟨hsteady, -, ⟨hme, hview⟩, -⟩ := (h.cpu c).head hcode trivial
  have hm := hsteady.task hme
  have htoken : (k.task t).token = some p := by
    rw [(h.tells hm).2.2.1, hview]
  obtain ⟨-, hout⟩ := h.value_nonneg hm (by rw [hview]) (by rw [hview])
  have hfound := h.found_announced ha hcode hchild
  have hgone : ((k.goto c code).freeTask t status p).reapable t ⊆ (k.reapable t).erase p := by
    intro u hu
    refine Finset.mem_erase.mpr ⟨?_, hsub hu⟩
    rintro rfl
    have hdead := (mem_reapable.mp hu).2.2.1
    rw [show (Kernel.freeTask _ t status u).task u = _ from Kernel.setTask_self _ _ _] at hdead
    cases hdead
  have hcard := Finset.card_le_card hgone
  rw [Finset.card_erase_of_mem hfound] at hcard
  have hpos : 0 < (k.reapable t).card := Finset.card_pos.mpr ⟨p, hfound⟩
  have hall := (hc.scan p htoken).1
  have hne : t ≠ p := by
    rintro rfl
    have hrun := h.own_state hm
    rw [hview, (mem_reapable.mp hfound).2.2.1] at hrun
    cases hrun
  refine Counted.done ?_ hout ?_
  · change _ ≤ k.value (.sons t)
    omega
  · rw [show (Kernel.freeTask _ t status p).task t = _ from Kernel.setTask_of_ne _ _ hne,
      Kernel.setTask_self]

/-- A slot that is taken has no children. -/
theorem Counted.forkCheck (hf : Family k) (hdead : (k.task t).state = .DEAD)
    (hsub : ((k.goto c code).utaskCreate t).reapable t ⊆ k.reapable t) :
    Counted ((k.goto c code).utaskCreate t) t := by
  have hnone : ((k.goto c code).utaskCreate t).reapable t = ∅ := by
    rw [Finset.eq_empty_iff_forall_notMem]
    intro u hu
    exact (hf.parent u t (mem_reapable.mp (hsub hu)).2.1).2 hdead
  refine Counted.done ?_ ?_ ?_
  · rw [hnone]
    simp [Kernel.utaskCreate]
  · simp [Kernel.utaskCreate]
  · rw [show (Kernel.utaskCreate _ t).task t = _ from Kernel.setTask_self _ _ _]

theorem Counted.perform (hc : Counted k t) (ha : Announced k) (hk : Posted k)
    (h : Sound k mode view) (hf : Family k) (hcode : k.code c = i :: rest)
    (hs : k.perform c rest i = some k') : Counted k' t := by
  have hsub : (∀ s p, i ≠ .up s (some p)) → k'.reapable t ⊆ k.reapable t :=
    fun hi => h.reapable_subset hcode hs hi
  cases i with
  | down u s =>
    replace hsub := hsub fun _ _ => Instr.noConfusion
    obtain ⟨hsteady, -, ⟨hme, hview, hsons⟩, -⟩ := (h.cpu c).head hcode trivial
    obtain ⟨hvalue, htask, hwaiters⟩ := perform_down_fields hs
    by_cases hst : s = .sons t
    · have htu := hsons t hst
      subst hst htu
      apply hc.down hsub
      · rw [hvalue, Function.update_self]
      · rw [(h.tells (hsteady.task hme)).2.2.1, hview]
        rfl
      · rw [htask, Kernel.startScan, if_pos rfl, Kernel.setTask_self]
    · apply hc.fewer hsub
      · rw [hvalue, Function.update_of_ne (Ne.symm hst)]
      · exact hwaiters _ (Ne.symm hst)
      · rw [htask, Kernel.startScan]
        split_ifs with hsu
        · apply setTask_token
          rintro rfl
          exact hst hsu
        · rfl
  | up s o =>
    obtain ⟨hvalue, htask, hwaiters, hmem⟩ := perform_up_fields hs
    have htoken : (k'.task t).token = (k.task t).token := by
      rw [htask]
      exact (announce_same k o t).token
    have hsons : ∀ p, o = some p → ∃ q, s = .sons q ∧ (k.task p).parent = some q := by
      rintro p rfl
      rcases hk.code c with hclean | ⟨q, p', -, hparent, htells⟩
      · rw [hcode] at hclean
        cases (clean_cons.mp hclean).1
      · rw [hcode] at htells
        rcases htells.cases with ⟨heq, -⟩ | ⟨heq, -⟩
        · cases heq
        · cases heq
          exact ⟨q, rfl, hparent⟩
    have hwas : ∀ p, p ∈ k'.reapable t → p ∈ k.reapable t ∨
        ((∃ s', Instr.up s o = .up s' (some p)) ∧ (k.task p).parent = some t) :=
      fun p hp => h.reapable_was hcode hs hp
    by_cases hst : s = .sons t
    · subst hst
      apply hc.up (o.getD 0) _ _ (hmem _) htoken
      · intro p hp
        rcases hwas p hp with hold | ⟨⟨s', heq⟩, -⟩
        · exact Finset.mem_insert_of_mem hold
        · cases heq
          exact Finset.mem_insert_self _ _
      · rw [hvalue, Function.update_self]
    · apply hc.fewer _ _ (hwaiters _ (Ne.symm hst)) htoken
      · intro p hp
        rcases hwas p hp with hold | ⟨⟨s', heq⟩, hparent⟩
        · exact hold
        · cases heq
          obtain ⟨q, rfl, hparent'⟩ := hsons p rfl
          rw [hparent] at hparent'
          cases hparent'
          exact (hst rfl).elim
      · rw [hvalue, Function.update_of_ne (Ne.symm hst)]
  | waitScan u status p =>
    replace hsub := hsub fun _ _ => Instr.noConfusion
    obtain ⟨hsteady, -, ⟨hme, hview⟩, -⟩ := (h.cpu c).head hcode trivial
    have hm := hsteady.task hme
    simp only [Kernel.perform] at hs
    split_ifs at hs with hlt <;> cases hs
    · exact hc.fewer hsub rfl rfl rfl
    · by_cases htu : t = u
      · subst htu
        have htoken : (k.task t).token = some p := by
          rw [(h.tells hm).2.2.1, hview]
          rfl
        obtain ⟨-, hout⟩ := h.value_nonneg hm (by rw [hview]; rfl) (by rw [hview]; rfl)
        have hpos : 0 < p := lt_of_lt_of_le (by decide) (not_lt.mp hlt)
        have hpassed := (hc.scan p htoken).2 hpos
        have hall : (k.reapable t).filter (· < p) = k.reapable t := by
          rw [Finset.filter_eq_self]
          intro w hw
          exact lt_of_lt_of_le (mem_reapable.mp hw).1 (not_lt.mp hlt)
        rw [hall] at hpassed
        have hcard := Finset.card_le_card hsub
        refine Counted.done ?_ hout ?_
        · exact le_trans (by exact_mod_cast hcard) hpassed
        · rw [Kernel.setTask_self]
      · exact hc.fewer hsub rfl rfl (setTask_token htu)
  | waitCheck u status p =>
    replace hsub := hsub fun _ _ => Instr.noConfusion
    obtain ⟨hsteady, -, ⟨hme, hview⟩, -⟩ := (h.cpu c).head hcode trivial
    have hm := hsteady.task hme
    simp only [Kernel.perform] at hs
    split_ifs at hs with hz <;> cases hs
    · exact hc.fewer hsub rfl rfl rfl
    · by_cases htu : t = u
      · subst htu
        have htoken : (k.task t).token = some p := by
          rw [(h.tells hm).2.2.1, hview]
          rfl
        obtain ⟨hnonneg, hout⟩ := h.value_nonneg hm (by rw [hview]; rfl) (by rw [hview]; rfl)
        apply hc.pass hsub rfl hnonneg hout htoken
        · rw [Kernel.setTask_self]
        · exact fun hmem => hz (mem_reapable.mp hmem).2.2.1
      · exact hc.fewer hsub rfl rfl (setTask_token htu)
  | reap u status p =>
    replace hsub := hsub fun _ _ => Instr.noConfusion
    obtain ⟨hsteady, -, ⟨hme, hview⟩, -⟩ := (h.cpu c).head hcode trivial
    have hm := hsteady.task hme
    simp only [Kernel.perform] at hs
    split_ifs at hs with hchild <;> cases hs
    · by_cases htu : t = u
      · subst htu
        exact hc.reap ha h hcode hchild hsub
      · apply hc.fewer hsub rfl rfl
        by_cases htp : t = p
        · subst htp
          rw [show (Kernel.freeTask _ u status t).task t = _ from Kernel.setTask_self _ _ _]
          rfl
        · rw [show (Kernel.freeTask _ u status p).task t = _ from Kernel.setTask_of_ne _ _ htp]
          exact setTask_token htu
    · by_cases htu : t = u
      · subst htu
        have htoken : (k.task t).token = some p := by
          rw [(h.tells hm).2.2.1, hview]
        obtain ⟨hnonneg, hout⟩ := h.value_nonneg hm (by rw [hview]) (by rw [hview])
        apply hc.pass hsub rfl hnonneg hout htoken
        · rw [Kernel.setTask_self]
        · exact fun hmem => hchild (mem_reapable.mp hmem).2.1
      · exact hc.fewer hsub rfl rfl (setTask_token htu)
  | forkCheck u nt =>
    replace hsub := hsub fun _ _ => Instr.noConfusion
    simp only [Kernel.perform] at hs
    split_ifs at hs with hdead <;> cases hs
    · by_cases htn : t = nt
      · subst htn
        exact Counted.forkCheck hf hdead hsub
      · have hsons : Sem.sons t ≠ .sons nt := fun he => htn (Sem.sons.inj he)
        refine hc.fewer hsub ?_ ?_ ?_
        · exact Function.update_of_ne hsons _ _
        · exact Function.update_of_ne hsons _ _
        · exact setTask_token htn
    · exact hc.fewer hsub rfl rfl rfl
  | _ =>
    obtain ⟨hvalue, hwaiters, htoken⟩ := perform_counts hs id
    apply hc.fewer (hsub fun _ _ => Instr.noConfusion) _ _ (htoken t)
    · rw [hvalue]
    · rw [hwaiters]

/-! ### Runs -/

/-- What every step keeps, with the children. -/
structure Kernel.Kept (k : Kernel) : Prop extends Kernel.Good k where
  posted : Posted k
  announced : Announced k
  counted : ∀ t, Counted k t

/-- A CPU that begins something else announces no child in it. -/
theorem Kernel.Kept.enters (hk : k.Kept) {before : List Instr} (hbefore : Clean before)
    (hwait : k.owner .wait ≠ some c) (hgood : (k.goto c (before ++ k.code c)).Good) :
    (k.goto c (before ++ k.code c)).Kept where
  toGood := hgood
  posted := {
    context := hk.posted.context
    code := by
      intro c'
      by_cases hc : c' = c
      · subst hc
        rw [Kernel.goto_code]
        rcases hk.posted.code c' with hclean | ⟨q, p, howner, -⟩
        · exact .inl (clean_append.mpr ⟨hbefore, hclean⟩)
        · exact (hwait howner).elim
      · rw [show (k.goto c _).code c' = k.code c' from Function.update_of_ne hc _ _]
        exact hk.posted.code c' }
  announced := by
    intro p q hz hp
    rcases hk.announced p q hz hp with hann | ⟨c', hcurrent, hmem⟩ | ⟨c', howner, htells⟩
    · exact .inl hann
    · refine .inr (.inl ⟨c', hcurrent, ?_⟩)
      by_cases hc : c' = c
      · subst hc
        rw [Kernel.goto_code]
        exact List.mem_append_right _ hmem
      · rwa [show (k.goto c _).code c' = k.code c' from Function.update_of_ne hc _ _]
    · refine .inr (.inr ⟨c', howner, ?_⟩)
      have hc : c' ≠ c := by
        rintro rfl
        exact hwait howner
      rwa [show (k.goto c _).code c' = k.code c' from Function.update_of_ne hc _ _]
  counted t := (hk.counted t).fewer (Finset.Subset.refl _) rfl rfl rfl

theorem Kernel.Kept.step (hk : k.Kept) (hspare : SparesItself k act)
    (hs : k.step act = some k') : k'.Kept := by
  have hgood := hk.toGood.step hspare hs
  obtain ⟨mode, view, h⟩ := hk.sane
  cases act with
  | exec c =>
    simp only [Kernel.step] at hs
    split at hs
    · cases hs
    · rename_i i rest hcode
      exact ⟨hgood, hk.posted.perform h hk.family hcode hs,
        hk.announced.perform hk.posted h hcode hs,
        fun t => (hk.counted t).perform hk.announced hk.posted h hk.family hcode hs⟩
  | call c op =>
    simp only [Kernel.step] at hs
    split at hs
    · split_ifs at hs with hcode
      cases hs
      rw [← List.append_nil (op.code _), ← hcode] at hgood ⊢
      exact hk.enters (clean_call op) (fun howner => h.busy howner hcode) hgood
    · cases hs
  | interrupt c irq =>
    simp only [Kernel.step] at hs
    split_ifs at hs with hready
    cases hs
    obtain ⟨-, -, hview⟩ := h.unlocked hready.1
    apply hk.enters (clean_interrupt irq _) _ hgood
    rw [ne_eq, (h.cpu c).held, hview]
    exact List.not_mem_nil

theorem Runs.kept (h : Runs value cond k) : k.Kept :=
  h.invariant ⟨.init value cond, .init, .init, .init⟩ fun _ _ _ hk hspare hs =>
    hk.step hspare hs

/-- No zombie is missed: while a task is asleep on its own semaphore, the announcement of a
child that has exited is still to come. -/
theorem no_zombie_missed (h : Runs value cond k) (hasleep : t ∈ k.waiters (.sons t))
    (hchild : (k.task p).parent = some t) (hz : (k.task p).state = .ZOMBIE) : Due k t p := by
  have hk := h.kept
  obtain ⟨mode, view, hsound⟩ := hk.sane
  refine (hk.announced p t hz hchild).resolve_left fun hann => ?_
  have hsmall : p < NTASK := by
    by_contra hlarge
    rw [(hsound.task p).small (not_lt.mp hlarge)] at hz
    cases hz
  have hmem : p ∈ k.reapable t := mem_reapable.mpr ⟨hsmall, hchild, hz, hann⟩
  have hall := ((hk.counted t).scan 0 ((hk.counted t).asleep hasleep)).1
  have hcount := (hsound.sem (.sons t)).count
  have hqueue := List.length_pos_of_mem hasleep
  have hpos := Finset.card_pos.mpr ⟨p, hmem⟩
  omega

/-- The first task forks and waits, and its child exits on another CPU. -/
def bereaved : List Act :=
  boot ++ [.call 0 .fork] ++ List.replicate 9 (.exec 0) ++
    [.call 0 (.wait 0)] ++ List.replicate 8 (.exec 0) ++ List.replicate 10 (.exec 1) ++
      [.call 1 (.exit 7)] ++ List.replicate 2 (.exec 1)

theorem bare_bereaved : ∃ k, after Kernel.step SparesItself bare bereaved = some k ∧
    k.waiters (.sons 0) = [0] ∧ (k.task 1).parent = some 0 ∧ (k.task 1).state = .ZOMBIE :=
  ⟨_, rfl, rfl, rfl, rfl⟩

theorem no_zombie_missed_bereaved : ∃ k : Kernel, k.waiters (.sons 0) = [0] ∧
    (k.task 1).state = .ZOMBIE ∧ Due k 0 1 := by
  obtain ⟨k, hk, hqueue, hparent, hz⟩ := bare_bereaved
  refine ⟨k, hqueue, hz, no_zombie_missed (reached_after hk) ?_ hparent hz⟩
  rw [hqueue]
  exact List.mem_singleton_self _

end Zrhos.Sched
