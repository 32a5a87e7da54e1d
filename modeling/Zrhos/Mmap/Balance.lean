import Zrhos.Mmap.Account

/-! Reference counters over whole runs of the system. -/
namespace Zrhos.Mmap

def rows (σ : Sys) (i : ℕ) : ℕ → ℕ := (σ.task i).elim (fun _ => 0) Task.pagetable

def trapframes (σ : Sys) (i : ℕ) : Option ℕ := (σ.task i).map Task.trapframe

/-- The system before its first user task. -/
structure Boot (σ : Sys) : Prop where
  frames : FramesOk σ.phys
  trampoline : InUse σ.phys σ.trampoline
  ref : ∀ P, σ.phys.ref P = 0
  handed : σ.phys.handed = []
  freed : σ.phys.freed = []
  tasks : ∀ i, σ.task i = none

/-- The invariant of a run whose regions all satisfy `Q`. -/
structure SysOk (Q : MmapNode → Prop) (σ : Sys) : Prop where
  accounted : Accounted σ.trampoline (trapframes σ) (fun _ => 0) σ.phys (rows σ)
  live : ∀ i t, σ.task i = some t → i < NTASK
  regions : ∀ i t, σ.task i = some t → ∀ n ∈ t.tree, Q n
  apart : ∀ i j P, trapframes σ i = some P → trapframes σ j = some P → i = j
  trampoline_ne : ∀ i, trapframes σ i ≠ some σ.trampoline

variable {Q : MmapNode → Prop} {C : Phys → ℕ → ℕ → Prop} {σ : Sys} {s s' : Phys} {i j : ℕ}
  {t t' nt : Task} {P : ℕ}

theorem rows_of_task (h : σ.task i = some t) : rows σ i = t.pagetable := by
  unfold rows
  rw [h]
  rfl

theorem rows_of_none (h : σ.task i = none) : rows σ i = fun _ => 0 := by
  unfold rows
  rw [h]
  rfl

theorem update_rows (h : σ.task i = some t) : Function.update (rows σ) i t.pagetable = rows σ := by
  rw [← rows_of_task h, Function.update_eq_self]

theorem task_set_self {o : Option Task} : (σ.set s i o).task i = o := Function.update_self _ _ _

theorem task_set_of_ne {k : ℕ} {o : Option Task} (h : k ≠ i) : (σ.set s i o).task k = σ.task k :=
  Function.update_of_ne h _ _

theorem rows_set : rows (σ.set s i (some t)) = Function.update (rows σ) i t.pagetable := by
  funext k
  by_cases hk : k = i
  · rw [hk, Function.update_self]
    exact rows_of_task task_set_self
  · rw [Function.update_of_ne hk, rows, rows, task_set_of_ne hk]

theorem trapframes_set :
    trapframes (σ.set s i (some t)) = Function.update (trapframes σ) i (some t.trapframe) := by
  funext k
  by_cases hk : k = i
  · rw [hk, Function.update_self, trapframes, task_set_self]
    rfl
  · rw [Function.update_of_ne hk, trapframes, trapframes, task_set_of_ne hk]

theorem update_trapframes (h : σ.task i = some t) :
    Function.update (trapframes σ) i (some t.trapframe) = trapframes σ := by
  have : trapframes σ i = some t.trapframe := congrArg (Option.map Task.trapframe) h
  rw [← this, Function.update_eq_self]

theorem task_set {k : ℕ} {o : Option Task} {u : Task} (h : (σ.set s i o).task k = some u) :
    (k = i ∧ o = some u) ∨ (k ≠ i ∧ σ.task k = some u) := by
  by_cases hk : k = i
  · rw [hk, task_set_self] at h
    exact Or.inl ⟨hk, h⟩
  · rw [task_set_of_ne hk] at h
    exact Or.inr ⟨hk, h⟩

/-- Operations that create and reap no task. -/
theorem SysOk.of_accounted {σ' : Sys} (h : SysOk Q σ) (htr : σ'.trampoline = σ.trampoline)
    (htf : trapframes σ' = trapframes σ)
    (hQ : ∀ k u, σ'.task k = some u → ∀ n ∈ u.tree, Q n)
    (ha : Accounted σ.trampoline (trapframes σ) (fun _ => 0) σ'.phys (rows σ')) : SysOk Q σ' := by
  refine ⟨by rwa [htr, htf], fun k u hu => ?_, hQ, by rw [htf]; exact h.apart,
    by rw [htr, htf]; exact h.trampoline_ne⟩
  have hk : trapframes σ k = some u.trapframe := by
    rw [← htf, trapframes, hu]
    rfl
  obtain ⟨u', hu', -⟩ := Option.map_eq_some_iff.mp hk
  exact h.live k u' hu'

/-- An operation on one task that keeps its trapframe. -/
theorem SysOk.set (h : SysOk Q σ) (ht : σ.task i = some t) (hf : t'.trapframe = t.trapframe)
    (hQ : ∀ n ∈ t'.tree, Q n)
    (ha : Accounted σ.trampoline (trapframes σ) (fun _ => 0) s
      (Function.update (rows σ) i t'.pagetable)) : SysOk Q (σ.set s i (some t')) := by
  refine h.of_accounted rfl ?_ (fun k u hu => ?_) ?_
  · rw [trapframes_set, hf, update_trapframes ht]
  · rcases task_set hu with ⟨-, he⟩ | ⟨-, hu⟩
    · rw [← Option.some.inj he]
      exact hQ
    · exact h.regions k u hu
  · rw [rows_set]
    exact ha

/-! ### New tasks -/

variable {kern kern' : ℕ → Prop} {c : ℕ → ℕ} {trampoline trapframe highLevel : ℕ}

/-- The kernel takes a frame for itself. -/
theorem CountsOk.reserve (h : CountsOk kern s c) (hm : memMalloc s = .ok (P, s'))
    (hk : ∀ R, kern' R → kern R ∨ R = P) : CountsOk kern' s' c := by
  rcases memMalloc_spec h.frames with he | ⟨P', s₁, he, ht, hh⟩
  · rw [hm] at he
    cases he
  · rw [hm] at he
    cases he
    refine ⟨ht.frames, fun R hR => ?_, fun R hR => ?_, fun R hR => ?_, fun R => ?_, ?_⟩
    · rw [ht.ref_eq] at hR
      exact ht.keeps R (h.used R hR)
    · rw [ht.ref_eq]
      rcases hk R hR with hR | rfl
      · exact ⟨ht.keeps R (h.kernel R hR).1, (h.kernel R hR).2⟩
      · exact ⟨ht.inUse, h.ref_fresh ht.free⟩
    · rw [ht.ref_eq, h.counts R hR]
    · rw [ht.ref_eq, hh, ht.freed_eq]
      exact h.logs R
    · rw [hh]
      exact h.handed_lt

/-- The three entries of a new page table. -/
theorem userTask_entry (v : ℕ) :
    (v = vpn TRAMPOLINE ∧ (userTask trampoline trapframe highLevel).pagetable v =
        PA2PTE trampoline ||| (PTE_R ||| PTE_X ||| PTE_V)) ∨
      (v = vpn TRAPFRAME ∧ (userTask trampoline trapframe highLevel).pagetable v =
        PA2PTE trapframe ||| (PTE_R ||| PTE_W ||| PTE_V)) ∨
      (v = vpn USERRDONLYMAP ∧ (userTask trampoline trapframe highLevel).pagetable v =
        PA2PTE USERRDONLY ||| (PTE_R ||| PTE_U ||| PTE_V)) ∨
      (¬ Reserved v ∧ (userTask trampoline trapframe highLevel).pagetable v = 0) := by
  by_cases h1 : v = vpn TRAMPOLINE
  · exact Or.inl ⟨h1, by simp only [userTask, h1, ↓reduceIte, Nat.or_assoc]⟩
  by_cases h2 : v = vpn TRAPFRAME
  · refine Or.inr (Or.inl ⟨h2, ?_⟩)
    simp only [userTask, if_neg h1, if_pos h2, Nat.or_assoc]
  by_cases h3 : v = vpn USERRDONLYMAP
  · refine Or.inr (Or.inr (Or.inl ⟨h3, ?_⟩))
    simp only [userTask, if_neg h1, if_neg h2, if_pos h3, Nat.or_assoc]
  · refine Or.inr (Or.inr (Or.inr ⟨?_, ?_⟩))
    · rintro (h | h | h)
      · exact h1 h
      · exact h2 h
      · exact h3 h
    · simp only [userTask, if_neg h1, if_neg h2, if_neg h3]

/-- A flag of an entry made of a frame and flags is one of the flags. -/
theorem pack_and {pa flags k : ℕ} (hk : k < 10) :
    (PA2PTE pa ||| flags) &&& 1 <<< k ≠ 0 ↔ flags.testBit k = true := by
  rw [and_flag_ne_zero, Nat.testBit_or, testBit_PA2PTE_low hk, Bool.false_or]

theorem userTask_tableOk (htr : trampoline % PGSIZE = 0) (htr' : trampoline < MEMSTOP)
    (htf : trapframe % PGSIZE = 0) (htf' : trapframe < MEMSTOP) :
    TableOk trampoline (some trapframe) (userTask trampoline trapframe highLevel).pagetable := by
  have hlt {x : ℕ} (hx : x < MEMSTOP) : x < WORD := hx.trans (by decide)
  have hne {x : ℕ} (hx : x < MEMSTOP) : x ≠ USERRDONLY := by
    rintro rfl
    exact absurd hx (by decide)
  refine ⟨fun v hv hu => ?_, fun v hv hp => ?_⟩
  · rcases userTask_entry
      v with ⟨h, he⟩ | ⟨h, he⟩ | ⟨h, he⟩ | ⟨h, he⟩
    · exact Or.inl ⟨h, by rw [he, PTE2PA_pack htr (hlt htr') (by decide)]⟩
    · refine Or.inr ⟨h, ?_, ?_⟩
      · rw [he, PTE2PA_pack htf (hlt htf') (by decide)]
      · rw [he]
        exact (pack_and (by decide)).mpr (by decide)
    · rw [he] at hu
      exact absurd hu ((pack_and (by decide)).mpr (by decide))
    · rw [he] at hv
      exact absurd (Nat.zero_and _) hv
  · rcases userTask_entry
      v with ⟨h, he⟩ | ⟨h, he⟩ | ⟨h, he⟩ | ⟨h, he⟩
    · rw [he, PTE2PA_pack htr (hlt htr') (by decide)] at hp
      exact absurd hp (hne htr')
    · rw [he, PTE2PA_pack htf (hlt htf') (by decide)] at hp
      exact absurd hp (hne htf')
    · exact h
    · rw [he] at hv
      exact absurd (Nat.zero_and _) hv

/-- A new page table maps no page but the read-only one for the user. -/
theorem userTask_not_userMaps (hP : P ≠ USERRDONLY) (v : ℕ) :
    ¬ UserMaps ((userTask trampoline trapframe highLevel).pagetable v) P := by
  rintro ⟨hv, hu, hp⟩
  rcases userTask_entry
    v with ⟨h, he⟩ | ⟨h, he⟩ | ⟨h, he⟩ | ⟨h, he⟩
  · rw [he] at hu
    exact absurd ((pack_and (by decide)).mp hu) (by decide)
  · rw [he] at hu
    exact absurd ((pack_and (by decide)).mp hu) (by decide)
  · rw [he, PTE2PA_pack (by decide) (by decide) (by decide)] at hp
    exact hP hp.symm
  · rw [he] at hv
    exact absurd (Nat.zero_and _) hv

theorem userTask_reserved {v : ℕ} (hv : Reserved v) :
    (userTask trampoline trapframe highLevel).pagetable v &&& PTE_V ≠ 0 := by
  rcases userTask_entry
    v with ⟨h, he⟩ | ⟨h, he⟩ | ⟨h, he⟩ | ⟨h, he⟩
  · rw [he]
    exact (pack_and (by decide)).mpr (by decide)
  · rw [he]
    exact (pack_and (by decide)).mpr (by decide)
  · rw [he]
    exact (pack_and (by decide)).mpr (by decide)
  · exact absurd hv h

theorem utaskCreate_ok (h : utaskCreate trampoline s highLevel = .ok (s', t)) :
    ∃ P, memMalloc s = .ok (P, s') ∧ t = userTask trampoline P highLevel := by
  unfold utaskCreate at h
  obtain ⟨⟨P, s₁⟩, hm, h⟩ := bind_ok h
  cases h
  exact ⟨P, hm, rfl⟩

/-- Replacing a row that maps nothing for the user by the table of a new image. -/
theorem mapCount_userTask {E : ℕ → ℕ → ℕ} (hi : i < NTASK) (hP : P ≠ USERRDONLY) :
    mapCount (Function.update E i (userTask trampoline trapframe highLevel).pagetable) P +
      rowCount (E i) P = mapCount E P := by
  have hrow :
      mapCount (Function.update E i (userTask trampoline trapframe highLevel).pagetable) P +
        rowCount (E i) P =
      mapCount E P + rowCount (userTask trampoline trapframe highLevel).pagetable P :=
    mapCount_update_row hi
  have hzero : rowCount (userTask trampoline trapframe highLevel).pagetable P = 0 :=
    rowCount_eq_zero (userTask_not_userMaps hP)
  omega

theorem SysOk.create (h : SysOk Q σ) (hi : i < NTASK) (hnone : σ.task i = none)
    (hc : utaskCreate σ.trampoline σ.phys highLevel = .ok (s, t)) :
    SysOk Q (σ.set s i (some t)) := by
  obtain ⟨P, hm, rfl⟩ := utaskCreate_ok hc
  have ht := memMalloc_taken h.accounted.counts.frames hm
  have hkernel (R : ℕ) (hR : KernelFrame σ.trampoline (trapframes σ) R) : R ≠ P := fun he =>
    ht.free (he ▸ (h.accounted.counts.kernel R hR).1)
  have htr := h.accounted.counts.kernel σ.trampoline (Or.inl rfl)
  have hzero (R : ℕ) : rowCount (rows σ i) R = 0 := by
    rw [rows_of_none hnone]
    exact rowCount_eq_zero fun _ => not_userMaps_zero R
  refine ⟨⟨?_, fun k => ?_⟩, fun k u hu => ?_, fun k u hu => ?_, fun k l R hk hl => ?_,
    fun k hk => ?_⟩
  · rw [rows_set]
    refine (h.accounted.counts.reserve hm fun R hR => ?_).congr fun R hR => ?_
    · rw [trapframes_set] at hR
      rcases hR with rfl | ⟨k, hk⟩
      · exact Or.inl (Or.inl rfl)
      · by_cases hki : k = i
        · rw [hki, Function.update_self] at hk
          exact Or.inr (Option.some.inj hk).symm
        · rw [Function.update_of_ne hki] at hk
          exact Or.inl (Or.inr ⟨k, hk⟩)
    · have hcount : mapCount
          (Function.update (rows σ) i (userTask σ.trampoline P highLevel).pagetable) R +
            rowCount (rows σ i) R = mapCount (rows σ) R := mapCount_userTask hi hR
      rw [hzero, Nat.add_zero] at hcount
      rw [hcount]
  · rw [rows_set, trapframes_set]
    by_cases hk : k = i
    · rw [hk, Function.update_self, Function.update_self]
      exact userTask_tableOk htr.1.aligned (htr.1.lt_memstop h.accounted.counts.frames)
        ht.inUse.aligned (ht.inUse.lt_memstop ht.frames)
    · rw [Function.update_of_ne hk, Function.update_of_ne hk]
      exact h.accounted.tables k
  · rcases task_set hu with ⟨rfl, -⟩ | ⟨-, hu⟩
    · exact hi
    · exact h.live k u hu
  · rcases task_set hu with ⟨-, he⟩ | ⟨-, hu⟩
    · rw [← Option.some.inj he]
      intro n hn
      exact absurd hn (List.not_mem_nil)
    · exact h.regions k u hu
  · rw [trapframes_set, Function.update_apply] at hk hl
    split_ifs at hk hl with h1 h2 h3
    · rw [h1, h2]
    · cases hk
      exact absurd rfl (hkernel P (Or.inr ⟨l, hl⟩))
    · cases hl
      exact absurd rfl (hkernel P (Or.inr ⟨k, hk⟩))
    · exact h.apart k l R hk hl
  · rw [trapframes_set, Function.update_apply] at hk
    split_ifs at hk with h1
    · exact hkernel σ.trampoline (Or.inl rfl) (Option.some.inj hk).symm
    · exact h.trampoline_ne k hk

theorem copyMmap_moves (hi : i < NTASK) (hj : j < NTASK) (hij : i ≠ j) (hQ : ∀ n ∈ t.tree, Q n)
    {E : ℕ → ℕ → ℕ} {nt' : Task}
    (h : copyMmap s t (userTask trampoline trapframe highLevel) = .ok (s', t', nt')) :
    Moves Q C
      (s, Function.update (Function.update E i t.pagetable) j
        (userTask trampoline trapframe highLevel).pagetable)
      (s', Function.update (Function.update E i t'.pagetable) j nt'.pagetable) := by
  obtain ⟨hall, -⟩ := copyMmap_ok h
  refine copyAll_moves hi hj hij (fun p hp => ?_) (fun v hv => userTask_reserved hv) hall
  exact hQ p.1 (mem_regionPages.mp hp).1

theorem SysOk.fork {s₁ : Phys} {nt' : Task} (hperm : ∀ n, Q n → PermOk n.perm)
    (hC : ∀ s va pte, C s va pte → pte &&& PTE_U ≠ 0) (h : SysOk Q σ)
    (ht : σ.task i = some t) (hj : j < NTASK) (hnone : σ.task j = none)
    (hc : utaskCreate σ.trampoline σ.phys highLevel = .ok (s₁, nt))
    (hf : copyMmap s₁ t nt = .ok (s, t', nt')) :
    SysOk Q (σ.set s₁ j (some nt)) ∧
      Moves Q C (s₁, rows (σ.set s₁ j (some nt)))
        (s, rows ((σ.set s i (some t')).set s j (some nt'))) ∧
      SysOk Q ((σ.set s i (some t')).set s j (some nt')) := by
  have hcreate := h.create hj hnone hc
  obtain ⟨P, -, rfl⟩ := utaskCreate_ok hc
  have hij : i ≠ j := fun he => by
    rw [he, hnone] at ht
    cases ht
  obtain ⟨-, ht', hnt', hmem⟩ := copyMmap_ok hf
  have hmoves := copyMmap_moves (Q := Q) (C := C) (E := rows σ) (h.live i t ht) hj hij
    (h.regions i t ht) hf
  rw [update_rows ht] at hmoves
  have hrows : rows ((σ.set s i (some t')).set s j (some nt')) =
      Function.update (Function.update (rows σ) i t'.pagetable) j nt'.pagetable := by
    rw [rows_set, rows_set]
  refine ⟨hcreate, ?_, hcreate.of_accounted rfl ?_ (fun k u hu => ?_) ?_⟩
  · rw [rows_set, hrows]
    exact hmoves
  · rw [trapframes_set, trapframes_set, trapframes_set, hnt', show t'.trapframe = t.trapframe by
      rw [ht'], update_trapframes ht]
  · rcases task_set hu with ⟨-, he⟩ | ⟨-, hu⟩
    · rw [← Option.some.inj he]
      intro n hn
      rcases (hmem n).mp hn with hn | hn
      · exact absurd hn List.not_mem_nil
      · exact h.regions i t ht n hn
    · rcases task_set hu with ⟨-, he⟩ | ⟨-, hu⟩
      · rw [← Option.some.inj he, ht']
        exact h.regions i t ht
      · exact h.regions k u hu
  · rw [hrows]
    refine hmoves.preserves (Accounted.move hperm hC) ?_
    have := hcreate.accounted
    rw [rows_set] at this
    exact this

end Zrhos.Mmap
