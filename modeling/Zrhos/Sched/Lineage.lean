import Zrhos.Sched.Effect

/-! The families through every instruction: children are handed over before their parent's
slot is free. -/
namespace Zrhos.Sched
open Sync

variable {k k' : Kernel} {mode : ℕ → Mode} {view : ℕ → View} {c c' t u p q : ℕ} {m : Mode}
  {v : View} {i : Instr} {code rest : List Instr} {x y : Task} {s : Sem} {status n : ℕ}

theorem OnCpu.current (h : OnCpu k c m v) (hcurrent : k.current c = some t) :
    m.about = some t := by
  have hmode := h.mode
  cases m with
  | sched =>
    rw [hmode.1] at hcurrent
    cases hcurrent
  | picked t' =>
    rw [hmode.1] at hcurrent
    cases hcurrent
  | entering t' =>
    rw [hmode.1] at hcurrent
    exact hcurrent
  | task t' =>
    rw [hmode.1] at hcurrent
    exact hcurrent
  | back t' =>
    rw [hmode.1] at hcurrent
    exact hcurrent

/-- A task that exits goes on to the end: it comes to whatever it still has to do. -/
theorem Sound.pending {j : Instr} (h : Sound k mode view) (hcode : k.code c = i :: rest)
    (hs : k.perform c rest i = some k') (hl : Local k k' c) (hi : i ≠ j)
    (hback : ∀ t, j ∉ back t) (hq : (k.task q).state = .ZOMBIE)
    (hex : ∃ c, k.current c = some q ∧ j ∈ k.code c) :
    ∃ c, k'.current c = some q ∧ j ∈ k'.code c := by
  obtain ⟨c', hcurrent, hmem⟩ := hex
  by_cases hc : c' = c
  swap
  · refine ⟨c', (hl.current c' hc).trans hcurrent, ?_⟩
    rwa [hl.code c' hc]
  subst hc
  rw [hcode] at hmem
  replace hmem := (List.mem_cons.mp hmem).resolve_left hi.symm
  by_cases hset : ∃ o, i = .setCurrent o
  · obtain ⟨o, rfl⟩ := hset
    exfalso
    rcases (h.cpu c').setCurrent_head hcode with ⟨t, hm, -, -⟩ | ⟨t, -, -, rfl⟩
    · have hmode := (h.cpu c').mode
      rw [hm] at hmode
      rw [hmode.1] at hcurrent
      cases hcurrent
    · exact hback t (List.mem_cons_of_mem _ hmem)
  have hcurrent' : k'.current c' = some q := by
    rw [perform_current hs fun o ho => hset ⟨o, ho⟩]
    exact hcurrent
  by_cases hswitch : i.Switches
  swap
  · obtain ⟨before, hbefore⟩ := perform_code hs hswitch
    refine ⟨c', hcurrent', ?_⟩
    rw [hbefore]
    exact List.mem_append_right _ hmem
  exfalso
  cases i with
  | sched t =>
    obtain ⟨hm, -, ⟨hme, -, -, hown, -⟩, -⟩ := (h.cpu c').head hcode trivial
    have hm := hm.task hme
    have hmode := (h.cpu c').mode
    rw [hm] at hmode
    rw [hmode.1] at hcurrent
    cases hcurrent
    exact hown ((h.own_state hm).symm.trans hq)
  | swtch t =>
    obtain ⟨-, -, hrest⟩ := (h.cpu c').swtch_head hcode
    rw [hrest] at hmem
    exact List.not_mem_nil hmem
  | enter t =>
    obtain ⟨-, rfl⟩ := (h.cpu c').enter_head hcode
    exact hback t hmem
  | _ => exact hswitch

theorem adopt_not_back (q p t : ℕ) : .adopt q p ∉ back t := by
  simp [back]

/-- The families stay as they are while no task is made, exits or is freed. -/
theorem Family.stays (hf : Family k) (hstays : ∀ u, (k'.task u).Stays (k.task u))
    (hadopts : ∀ p q, (k.task q).state = .ZOMBIE → (k.task p).parent = some q →
      (∃ c, k.current c = some q ∧ .adopt q p ∈ k.code c) →
        ∃ c, k'.current c = some q ∧ .adopt q p ∈ k'.code c) : Family k' where
  root := by
    refine ⟨(hstays 0).parent.trans hf.root.1, fun h => ?_, fun h => ?_⟩
    · exact hf.root.2.1 ((hstays 0).dead h)
    · exact hf.root.2.2 ((hstays 0).used h)
  born p q hp hd := by
    rw [(hstays p).parent] at hp
    exact hf.born p q hp ((hstays p).dead hd)
  parent p q hp := by
    rw [(hstays p).parent] at hp
    obtain ⟨hne, hlive⟩ := hf.parent p q hp
    exact ⟨hne, fun hd => hlive ((hstays q).dead hd)⟩
  fresh p hused := by
    rw [(hstays p).parent]
    exact hf.fresh p ((hstays p).used hused)
  orphan p q hp hq hz := by
    rw [(hstays p).parent] at hp
    have hz := (hstays q).zombie hz
    exact hadopts p q hz hp (hf.orphan p q hp hq hz)

/-- A task that makes itself a zombie is about to hand over all the children it has. -/
theorem Family.zombie {xstatus : BitVec 32} (hf : Family k) (h : Sound k mode view)
    (hcode : k.code c = .zombie t xstatus :: rest) :
    Family ((k.goto c rest).setTask t
      { k.task t with state := .ZOMBIE, xstatus := xstatus, announced := false }) := by
  obtain ⟨hm, -, rfl⟩ := (h.cpu c).zombie_head hcode
  have hmode := (h.cpu c).mode
  rw [hm] at hmode
  set k' := (k.goto c (exitRest t)).setTask t
    { k.task t with state := .ZOMBIE, xstatus := xstatus, announced := false } with hk'
  have hself : k'.task t =
      { k.task t with state := .ZOMBIE, xstatus := xstatus, announced := false } :=
    Kernel.setTask_self _ _ _
  have hother : ∀ u, u ≠ t → k'.task u = k.task u := fun u hu => Kernel.setTask_of_ne _ _ hu
  have hparent : ∀ u, (k'.task u).parent = (k.task u).parent := by
    intro u
    by_cases hu : u = t
    · rw [hu, hself]
    · rw [hother u hu]
  have hstate : ∀ u state, state ≠ .ZOMBIE → (k'.task u).state = state →
      (k.task u).state = state := by
    intro u state hne hs
    by_cases hu : u = t
    · rw [hu, hself] at hs
      exact absurd hs.symm hne
    · rwa [hother u hu] at hs
  constructor
  case root =>
    rw [hparent]
    refine ⟨hf.root.1, fun hd => ?_, fun hd => ?_⟩
    · exact hf.root.2.1 (hstate _ _ TaskState.noConfusion hd)
    · exact hf.root.2.2 (hstate _ _ TaskState.noConfusion hd)
  case born =>
    intro p q hp hd
    rw [hparent] at hp
    exact hf.born p q hp (hstate _ _ TaskState.noConfusion hd)
  case parent =>
    intro p q hp
    rw [hparent] at hp
    obtain ⟨hne, hlive⟩ := hf.parent p q hp
    exact ⟨hne, fun hd => hlive (hstate _ _ TaskState.noConfusion hd)⟩
  case fresh =>
    intro p hu
    rw [hparent]
    exact hf.fresh p (hstate _ _ TaskState.noConfusion hu)
  case orphan =>
    intro p q hp hq hz
    rw [hparent] at hp
    by_cases hqt : q = t
    · subst hqt
      refine ⟨c, hmode.1, ?_⟩
      rw [show k'.code c = exitRest q from Kernel.goto_code _ _ _]
      have hsmall : p < NTASK := by
        by_contra hlarge
        exact hf.born p q hp ((h.task p).small (not_lt.mp hlarge))
      have hp : .adopt q p ∈ reparent q := by
        apply List.mem_map_of_mem
        rw [List.mem_filter, mem_slots]
        exact ⟨hsmall, decide_eq_true (hf.parent p q hp).1⟩
      simp [exitRest, hp]
    · rw [hother q hqt] at hz
      obtain ⟨c', hcurrent, hmem⟩ := hf.orphan p q hp hq hz
      refine ⟨c', hcurrent, ?_⟩
      have hne : c' ≠ c := by
        rintro rfl
        rw [hmode.1] at hcurrent
        exact hqt (Option.some.inj hcurrent).symm
      rwa [show k'.code c' = k.code c' from Function.update_of_ne hne _ _]

/-- An exiting task hands a child over to the first task. -/
theorem Family.adopt (hf : Family k) (h : Sound k mode view)
    (hcode : k.code c = .adopt t p :: rest) (hl : Local k k' c)
    (hs : k.perform c rest (.adopt t p) = some k') : Family k' := by
  have hadopts : ∀ p' q, ¬ (q = t ∧ p' = p) → (k.task q).state = .ZOMBIE →
      (∃ c, k.current c = some q ∧ .adopt q p' ∈ k.code c) →
        ∃ c, k'.current c = some q ∧ .adopt q p' ∈ k'.code c := by
    intro p' q hne hq hex
    apply h.pending hcode hs hl _ (adopt_not_back q p') hq hex
    rintro heq
    cases heq
    exact hne ⟨rfl, rfl⟩
  simp only [Kernel.perform] at hs
  split_ifs at hs with hchild
  · cases hs
    have hpne : p ≠ 0 := by
      rintro rfl
      rw [hf.root.1] at hchild
      cases hchild
    have hstate : ∀ u, (((k.goto c (lmV (.sons 0) (some p) ++ rest)).setTask p
        { k.task p with parent := some 0, announced := false }).task u).state =
          (k.task u).state := by
      intro u
      by_cases hu : u = p
      · rw [hu, Kernel.setTask_self]
      · rw [Kernel.setTask_of_ne _ _ hu]
        rfl
    have hparent : ∀ u, u ≠ p → (((k.goto c (lmV (.sons 0) (some p) ++ rest)).setTask p
        { k.task p with parent := some 0, announced := false }).task u).parent =
          (k.task u).parent := by
      intro u hu
      rw [Kernel.setTask_of_ne _ _ hu]
      rfl
    constructor
    case root =>
      rw [hstate, hparent 0 hpne.symm]
      exact hf.root
    case born =>
      intro p' q hp'
      rw [hstate]
      by_cases hp : p' = p
      · rw [hp]
        exact hf.born p t hchild
      · rw [hparent p' hp] at hp'
        exact hf.born p' q hp'
    case parent =>
      intro p' q hp'
      rw [hstate]
      by_cases hp : p' = p
      · subst hp
        rw [Kernel.setTask_self] at hp'
        cases hp'
        exact ⟨hpne, hf.root.2.1⟩
      · rw [hparent p' hp] at hp'
        exact hf.parent p' q hp'
    case fresh =>
      intro p' hu
      rw [hstate] at hu
      have hne : p' ≠ p := by
        rintro rfl
        rw [hf.fresh p' hu] at hchild
        cases hchild
      rw [hparent p' hne]
      exact hf.fresh p' hu
    case orphan =>
      intro p' q hp' hq hz
      rw [hstate] at hz
      have hp : p' ≠ p := by
        rintro rfl
        rw [Kernel.setTask_self] at hp'
        cases hp'
        exact hq rfl
      rw [hparent p' hp] at hp'
      exact hadopts p' q (fun h => hp h.2) hz (hf.orphan p' q hp' hq hz)
  · cases hs
    refine hf.stays (fun u => ?_) fun p' q hz hp' hex => ?_
    · exact .refl _
    · apply hadopts p' q _ hz hex
      rintro ⟨rfl, rfl⟩
      exact hchild hp'

/-- A child that is freed has no children any more. -/
theorem Family.reap (hf : Family k) (h : Sound k mode view)
    (hcode : k.code c = .reap t status p :: rest) (hl : Local k k' c)
    (hs : k.perform c rest (.reap t status p) = some k') : Family k' := by
  obtain ⟨hsteady, -, ⟨hme, hview⟩, -⟩ := (h.cpu c).head hcode trivial
  have hm := hsteady.task hme
  have hadopts : ∀ p' q, (k.task q).state = .ZOMBIE →
      (∃ c, k.current c = some q ∧ .adopt q p' ∈ k.code c) →
        ∃ c, k'.current c = some q ∧ .adopt q p' ∈ k'.code c :=
    fun p' q hq hex => h.pending hcode hs hl Instr.noConfusion (adopt_not_back q p') hq hex
  simp only [Kernel.perform] at hs
  split_ifs at hs with hchild
  · cases hs
    have hzombie : (k.task p).state = .ZOMBIE := by
      apply (h.cpu c).known
      rw [hview]
    obtain ⟨hidle, hne⟩ := h.idle_of_held (u := p) hm (by rw [hview]; simp) (by rw [hview])
      (by rw [hzombie]; exact ⟨TaskState.noConfusion, TaskState.noConfusion⟩)
    have hpne : p ≠ 0 := by
      rintro rfl
      rw [hf.root.1] at hchild
      cases hchild
    have hchildless : ∀ p', (k.task p').parent ≠ some p := by
      intro p' hp'
      obtain ⟨c', hcurrent, -⟩ := hf.orphan p' p hp' hpne hzombie
      exact hidle.out c' ((h.cpu c').current hcurrent)
    set k' := (k.goto c (.unlock .wait :: .unlock (.task p) :: rest)).freeTask t status p with hk'
    have hself : k'.task p = { k.task p with id := -1, state := .DEAD, parent := none } :=
      Kernel.setTask_self _ _ _
    have hother : ∀ u, u ≠ p → (k'.task u).parent = (k.task u).parent ∧
        (k'.task u).state = (k.task u).state := by
      intro u hu
      rw [show k'.task u = _ from Kernel.setTask_of_ne _ _ hu]
      by_cases hut : u = t
      · rw [hut, Kernel.setTask_self]
        exact ⟨rfl, rfl⟩
      · rw [Kernel.setTask_of_ne _ _ hut]
        exact ⟨rfl, rfl⟩
    have hold : ∀ p' q, (k'.task p').parent = some q →
        (k.task p').parent = some q ∧ p' ≠ p ∧ q ≠ p := by
      intro p' q hp'
      have hne : p' ≠ p := by
        rintro rfl
        rw [hself] at hp'
        cases hp'
      rw [(hother p' hne).1] at hp'
      refine ⟨hp', hne, ?_⟩
      rintro rfl
      exact hchildless p' hp'
    constructor
    case root =>
      rw [(hother 0 hpne.symm).1, (hother 0 hpne.symm).2]
      exact hf.root
    case born =>
      intro p' q hp'
      obtain ⟨hp', hne, -⟩ := hold p' q hp'
      rw [(hother p' hne).2]
      exact hf.born p' q hp'
    case parent =>
      intro p' q hp'
      obtain ⟨hp', -, hne⟩ := hold p' q hp'
      rw [(hother q hne).2]
      exact hf.parent p' q hp'
    case fresh =>
      intro p' hu
      have hne : p' ≠ p := by
        rintro rfl
        rw [hself] at hu
        cases hu
      rw [(hother p' hne).2] at hu
      rw [(hother p' hne).1]
      exact hf.fresh p' hu
    case orphan =>
      intro p' q hp' hq hz
      obtain ⟨hp', -, hne⟩ := hold p' q hp'
      rw [(hother q hne).2] at hz
      exact hadopts p' q hz (hf.orphan p' q hp' hq hz)
  · cases hs
    apply hf.stays (fun u => ?_) fun p' q hz _ hex => hadopts p' q hz hex
    refine setTask_stays _ ?_ u
    exact .same rfl rfl

/-- A slot that is taken has no parent yet, and is nobody's. -/
theorem Family.forkCheck (hf : Family k) (h : Sound k mode view)
    (hcode : k.code c = .forkCheck t u :: rest) (hl : Local k k' c)
    (hs : k.perform c rest (.forkCheck t u) = some k') : Family k' := by
  have hadopts : ∀ p' q, (k.task q).state = .ZOMBIE →
      (∃ c, k.current c = some q ∧ .adopt q p' ∈ k.code c) →
        ∃ c, k'.current c = some q ∧ .adopt q p' ∈ k'.code c :=
    fun p' q hq hex => h.pending hcode hs hl Instr.noConfusion (adopt_not_back q p') hq hex
  simp only [Kernel.perform] at hs
  split_ifs at hs with hdead
  · cases hs
    set k' := (k.goto c (.forkFill t u :: .unlock (.task u) :: rest)).utaskCreate u with hk'
    have hparent : ∀ w, (k'.task w).parent = (k.task w).parent := by
      intro w
      by_cases hw : w = u
      · rw [hw, show k'.task u = _ from Kernel.setTask_self _ _ _]
        rfl
      · rw [show k'.task w = _ from Kernel.setTask_of_ne _ _ hw]
        rfl
    have hnew : (k'.task u).state = .USED := by
      rw [show k'.task u = _ from Kernel.setTask_self _ _ _]
    have hother : ∀ w, w ≠ u → (k'.task w).state = (k.task w).state := by
      intro w hw
      rw [show k'.task w = _ from Kernel.setTask_of_ne _ _ hw]
      rfl
    have hlive : ∀ w, (k.task w).state ≠ .DEAD → (k'.task w).state ≠ .DEAD := by
      intro w hw
      rw [hother w fun he => hw (he ▸ hdead)]
      exact hw
    constructor
    case root =>
      have hne : 0 ≠ u := fun he => hf.root.2.1 (he ▸ hdead)
      rw [hparent, hother 0 hne]
      exact hf.root
    case born =>
      intro p' q hp'
      rw [hparent] at hp'
      exact hlive p' (hf.born p' q hp')
    case parent =>
      intro p' q hp'
      rw [hparent] at hp'
      obtain ⟨hne, hq⟩ := hf.parent p' q hp'
      exact ⟨hne, hlive q hq⟩
    case fresh =>
      intro p' hu
      rw [hparent]
      by_cases hp : p' = u
      · subst hp
        by_contra hne
        obtain ⟨q, hq⟩ := Option.ne_none_iff_exists'.mp hne
        exact hf.born p' q hq hdead
      · rw [hother p' hp] at hu
        exact hf.fresh p' hu
    case orphan =>
      intro p' q hp' hq hz
      rw [hparent] at hp'
      have hne : q ≠ u := by
        rintro rfl
        rw [hnew] at hz
        cases hz
      rw [hother q hne] at hz
      exact hadopts p' q hz (hf.orphan p' q hp' hq hz)
  · cases hs
    refine hf.stays (fun u => ?_) fun p' q hz _ hex => hadopts p' q hz hex
    exact .refl _

/-- The new task gets its parent. -/
theorem Family.forkFill (hf : Family k) (h : Sound k mode view)
    (hcode : k.code c = .forkFill t u :: rest) (hl : Local k k' c)
    (hs : k.perform c rest (.forkFill t u) = some k') : Family k' := by
  obtain ⟨hsteady, -, ⟨hme, hview⟩, -⟩ := (h.cpu c).head hcode trivial
  have hm := hsteady.task hme
  have hadopts : ∀ p' q, (k.task q).state = .ZOMBIE →
      (∃ c, k.current c = some q ∧ .adopt q p' ∈ k.code c) →
        ∃ c, k'.current c = some q ∧ .adopt q p' ∈ k'.code c :=
    fun p' q hq hex => h.pending hcode hs hl Instr.noConfusion (adopt_not_back q p') hq hex
  have hrun : (k.task t).state = .RUNNING := by
    rw [h.own_state hm, hview]
  have hused : (k.task u).state = .USED := by
    apply (h.cpu c).known
    rw [hview]
  have hne : u ≠ t := by
    rintro rfl
    rw [hrun] at hused
    cases hused
  cases hs
  set k' := (k.goto c rest).setTask u { k.task u with state := .RUNNABLE, parent := some t }
    with hk'
  have hself : k'.task u = { k.task u with state := .RUNNABLE, parent := some t } :=
    Kernel.setTask_self _ _ _
  have hother : ∀ w, w ≠ u → k'.task w = k.task w := fun w hw => Kernel.setTask_of_ne _ _ hw
  have hlive : ∀ w, (k.task w).state ≠ .DEAD → (k'.task w).state ≠ .DEAD := by
    intro w hw
    by_cases hwu : w = u
    · rw [hwu, hself]
      exact TaskState.noConfusion
    · rw [hother w hwu]
      exact hw
  constructor
  case root =>
    have hzero : 0 ≠ u := fun he => hf.root.2.2 (he ▸ hused)
    rw [hother 0 hzero]
    exact hf.root
  case born =>
    intro p' q hp'
    apply hlive
    by_cases hp : p' = u
    · rw [hp, hused]
      exact TaskState.noConfusion
    · rw [hother p' hp] at hp'
      exact hf.born p' q hp'
  case parent =>
    intro p' q hp'
    by_cases hp : p' = u
    · subst hp
      rw [hself] at hp'
      cases hp'
      refine ⟨hne, hlive t ?_⟩
      rw [hrun]
      exact TaskState.noConfusion
    · rw [hother p' hp] at hp'
      obtain ⟨hne, hq⟩ := hf.parent p' q hp'
      exact ⟨hne, hlive q hq⟩
  case fresh =>
    intro p' hu
    have hne : p' ≠ u := by
      rintro rfl
      rw [hself] at hu
      cases hu
    rw [hother p' hne] at hu ⊢
    exact hf.fresh p' hu
  case orphan =>
    intro p' q hp' hq hz
    have hqu : q ≠ u := by
      rintro rfl
      rw [hself] at hz
      cases hz
    rw [hother q hqu] at hz
    have hp : p' ≠ u := by
      rintro rfl
      rw [hself] at hp'
      cases hp'
      rw [hrun] at hz
      cases hz
    rw [hother p' hp] at hp'
    exact hadopts p' q hz (hf.orphan p' q hp' hq hz)

theorem Family.perform (hf : Family k) (h : Sound k mode view) (hcode : k.code c = i :: rest)
    (hl : Local k k' c) (hs : k.perform c rest i = some k') : Family k' := by
  cases i with
  | setState t state =>
    obtain ⟨-, -, ⟨-, -, -, -, hstate⟩, -⟩ := (h.cpu c).head hcode trivial
    apply hf.stays (fun u => ?_) fun p q hz _ hex =>
      h.pending hcode hs hl Instr.noConfusion (adopt_not_back q p) hz hex
    cases hs
    refine setTask_stays _ ?_ u
    rcases hstate with ⟨rfl, -⟩ | ⟨rfl, -⟩
    · exact .alive rfl (.inr (.inl rfl))
    · exact .alive rfl (.inr (.inr rfl))
  | zombie t xstatus =>
    cases hs
    exact hf.zombie h hcode
  | adopt t p => exact hf.adopt h hcode hl hs
  | reap t status p => exact hf.reap h hcode hl hs
  | forkCheck t u => exact hf.forkCheck h hcode hl hs
  | forkFill t u => exact hf.forkFill h hcode hl hs
  | _ =>
    apply hf.stays (perform_stays hs id) fun p q hz _ hex => ?_
    exact h.pending hcode hs hl Instr.noConfusion (adopt_not_back q p) hz hex

end Zrhos.Sched
