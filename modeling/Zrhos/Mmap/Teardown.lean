import Zrhos.Mmap.Balance

/-! Images that are replaced by `exec` or reaped by `wait`, and the counters after any
run. `mmap_destroy` counts down the virtual addresses of the regions. -/
namespace Zrhos.Mmap

variable {Q : MmapNode → Prop} {C : Phys → ℕ → ℕ → Prop} {σ σ' : Sys} {s s' : Phys} {i : ℕ}
  {t t' nt : Task} {P : ℕ} {kern kern' : ℕ → Prop} {c d : ℕ → ℕ} {trampoline : ℕ}
  {trapframe : ℕ → Option ℕ} {E : ℕ → ℕ → ℕ} {pt : ℕ → ℕ}

theorem CountsOk.foldl_dec (h : CountsOk kern s c) (vas : List ℕ) :
    CountsOk kern (vas.foldl refCntDec s) fun P => c P - vas.count P := by
  induction vas generalizing s c with
  | nil => exact h
  | cons va vas ih =>
    refine (ih (h.dec (p := va)
      fun _ _ => rfl)).congr fun P _ => ?_
    rw [List.count_cons]
    by_cases hP : P = va
    · simp [hP]
      omega
    · simp [hP, Ne.symm hP]

/-- The kernel gives back a frame of its own. -/
theorem CountsOk.release (h : CountsOk kern s c) (hP : kern P)
    (hk : ∀ R, kern' R → kern R ∧ R ≠ P) : CountsOk kern' (memFree s P) c := by
  obtain ⟨hu, hr⟩ := h.kernel P hP
  have hret := memFree_spec h.frames hu
  refine ⟨hret.frames, fun R hR => ?_, fun R hR => ?_, fun R hR => ?_, fun R => ?_, ?_⟩
  · rw [hret.ref_eq] at hR
    exact hret.keeps R (h.used R hR) (fun he => hR (he ▸ hr))
  · obtain ⟨hkR, hne⟩ := hk R hR
    rw [hret.ref_eq]
    exact ⟨hret.keeps R (h.kernel R hkR).1 hne, (h.kernel R hkR).2⟩
  · rw [hret.ref_eq, h.counts R hR]
  · rw [hret.ref_eq, hret.handed_eq, hret.freed_eq]
    exact h.logs R
  · rw [hret.handed_eq]
    exact h.handed_lt

/-- What makes the teardown of a task come out even: `free_pagetable` sees leaves only, and
for every counted frame the task has as many region addresses equal to it as entries
that map it. -/
structure Settled (s : Phys) (t : Task) : Prop where
  leaves : ∀ v, t.pagetable v &&& PTE_V ≠ 0 → t.pagetable v &&& PERM_RWX ≠ 0
  even : ∀ P, s.ref P ≠ 0 →
    min (s.ref P) ((t.tree.flatMap MmapNode.vas).count P) = rowCount t.pagetable P

theorem Accounted.destroy (h : Accounted trampoline trapframe (rowCount t.pagetable) s E)
    (hs : Settled s t) :
    Accounted trampoline trapframe (fun _ => 0) (mmapDestroy s t.tree) E := by
  refine ⟨(h.counts.foldl_dec _).congr fun P hP => ?_, h.tables⟩
  have hcount := h.counts.counts P hP
  have heven := hs.even P
  generalize mapCount E P = m at *
  generalize rowCount t.pagetable P = r at *
  generalize (t.tree.flatMap MmapNode.vas).count P = k at *
  omega

/-- The mappings of a row that is taken out move to the second account. -/
theorem Accounted.detach (h : Accounted trampoline trapframe (fun _ => 0) s E) (hi : i < NTASK)
    (hpt : TableOk trampoline (trapframe i) pt)
    (hzero : ∀ P, P ≠ USERRDONLY → rowCount pt P = 0) :
    Accounted trampoline trapframe (rowCount (E i)) s (Function.update E i pt) := by
  refine ⟨h.counts.congr fun P hP => ?_, fun k => ?_⟩
  · rw [mapCount_update_row hi, hzero P hP]
  · by_cases hk : k = i
    · rw [hk, Function.update_self]
      exact hpt
    · rw [Function.update_of_ne hk]
      exact h.tables k

/-! ### Reaping -/

theorem rows_set_none : rows (σ.set s i none) = Function.update (rows σ) i fun _ => 0 := by
  funext k
  by_cases hk : k = i
  · rw [hk, Function.update_self]
    exact rows_of_none task_set_self
  · rw [Function.update_of_ne hk, rows, rows, task_set_of_ne hk]

theorem trapframes_set_none {k : ℕ} (h : trapframes (σ.set s i none) k = some P) :
    k ≠ i ∧ trapframes σ k = some P := by
  by_cases hk : k = i
  · rw [hk, trapframes, task_set_self] at h
    cases h
  · rw [trapframes, task_set_of_ne hk] at h
    exact ⟨hk, h⟩

theorem tableOk_zero {tf : Option ℕ} : TableOk trampoline tf fun _ => 0 :=
  ⟨fun _ hv => absurd (Nat.zero_and _) hv, fun _ hv => absurd (Nat.zero_and _) hv⟩

theorem SysOk.wait (h : SysOk Q σ) (ht : σ.task i = some t) (hs : Settled σ.phys t) :
    SysOk Q (σ.set (freeTask σ.phys t) i none) := by
  have hi := h.live i t ht
  have htf : trapframes σ i = some t.trapframe := congrArg (Option.map Task.trapframe) ht
  have hdetach := h.accounted.detach hi tableOk_zero
    fun P _ => rowCount_eq_zero fun _ => not_userMaps_zero P
  rw [rows_of_task ht] at hdetach
  have hkern (R : ℕ)
      (hR : KernelFrame σ.trampoline (trapframes (σ.set (freeTask σ.phys t) i none)) R) :
      KernelFrame σ.trampoline (trapframes σ) R ∧ R ≠ t.trapframe := by
    rcases hR with rfl | ⟨k, hk⟩
    · exact ⟨Or.inl rfl, fun he => h.trampoline_ne i (he ▸ htf)⟩
    · obtain ⟨hne, hk⟩ := trapframes_set_none hk
      exact ⟨Or.inr ⟨k, hk⟩, fun he => hne (h.apart k i R hk (he ▸ htf))⟩
  have hcounts := hdetach.counts.release (P := t.trapframe) (Or.inr ⟨i, htf⟩) hkern
  have hsettled : Settled (memFree σ.phys t.trapframe) t := by
    refine ⟨hs.leaves, fun P hP => ?_⟩
    have href := (memFree_spec h.accounted.counts.frames
      (h.accounted.counts.kernel t.trapframe (Or.inr ⟨i, htf⟩)).1).ref_eq
    rw [href] at hP ⊢
    exact hs.even P hP
  have hacc : Accounted σ.trampoline (trapframes (σ.set (freeTask σ.phys t) i none))
      (rowCount t.pagetable) (memFree σ.phys t.trapframe)
      (Function.update (rows σ) i fun _ => 0) := by
    refine ⟨hcounts, fun k => ?_⟩
    by_cases hk : k = i
    · rw [hk, Function.update_self]
      exact tableOk_zero
    · rw [trapframes, task_set_of_ne hk]
      exact hdetach.tables k
  refine ⟨?_, fun k u hu => ?_, fun k u hu => ?_, fun k l R hk hl => ?_, fun k hk => ?_⟩
  · rw [rows_set_none]
    exact hacc.destroy hsettled
  · rcases task_set hu with ⟨-, he⟩ | ⟨-, hu⟩
    · cases he
    · exact h.live k u hu
  · rcases task_set hu with ⟨-, he⟩ | ⟨-, hu⟩
    · cases he
    · exact h.regions k u hu
  · exact h.apart k l R (trapframes_set_none hk).2 (trapframes_set_none hl).2
  · exact h.trampoline_ne k (trapframes_set_none hk).2

/-! ### Replacing an image -/

theorem copyoutLoop_mem {fuel va : ℕ} {src : List ℕ} :
    ∃ mem, (copyoutLoop pt fuel s va src).2 = { s with mem := mem } := by
  induction fuel generalizing s va src with
  | zero => exact ⟨s.mem, rfl⟩
  | succ fuel ih =>
    unfold copyoutLoop
    dsimp only
    split_ifs
    · exact ⟨s.mem, rfl⟩
    · exact ⟨s.mem, rfl⟩
    · have hrest (mem : ℕ → ℕ → ℕ) (va : ℕ) (src : List ℕ) :
          ∃ mem', (copyoutLoop pt fuel { s with mem := mem } va src).2 = { s with mem := mem' } :=
        ih
      exact hrest _ _ _

theorem loadsegLoop_mem {fuel va : ℕ} {data : List ℕ}
    (h : loadsegLoop pt fuel s va data = .ok s') : ∃ mem, s' = { s with mem := mem } := by
  induction fuel generalizing s va data with
  | zero =>
    cases h
    exact ⟨s'.mem, rfl⟩
  | succ fuel ih =>
    unfold loadsegLoop at h
    dsimp only at h
    split at h
    · cases h
      exact ⟨s'.mem, rfl⟩
    split at h
    · cases h
    · obtain ⟨mem, rfl⟩ := ih h
      exact ⟨mem, rfl⟩

theorem pushArgs_mem {args : List (List ℕ)} {sp : ℕ} {ustack : List ℕ}
    (h : pushArgs pt args s sp ustack = .ok s') : ∃ mem, s' = { s with mem := mem } := by
  induction args generalizing s sp ustack with
  | nil =>
    unfold pushArgs at h
    dsimp only at h
    split at h
    · cases h
    · cases h
      exact copyoutLoop_mem
  | cons arg args ih =>
    unfold pushArgs at h
    dsimp only at h
    split at h
    · cases h
    split at h
    · cases h
    · obtain ⟨mem, he⟩ := ih h
      obtain ⟨mem', he'⟩ := copyoutLoop_mem (s := s)
      refine ⟨mem, ?_⟩
      rw [he, copyout, he']

/-- Regions whose permissions carry no frame bits. -/
def CleanRegion (n : MmapNode) : Prop := PermOk n.perm

theorem flags2perm_ok (flags : ℕ) : PermOk (flags2perm flags) := by
  unfold flags2perm
  split_ifs <;> decide

/-- The condition on write faults that the counters need. -/
def OnUserPage (_ : Phys) (_ pte : ℕ) : Prop := pte &&& PTE_U ≠ 0

theorem Accounted.moves {x y : Phys × (ℕ → ℕ → ℕ)}
    (h : Accounted trampoline trapframe d x.1 x.2) (hm : Moves CleanRegion OnUserPage x y) :
    Accounted trampoline trapframe d y.1 y.2 :=
  hm.preserves (Accounted.move (fun _ h => h) fun _ _ _ h => h) h

theorem Accounted.mmapByObj {addr sz perm flag r : ℕ} {allocPhy : Bool}
    (h : Accounted trampoline trapframe d s (Function.update E i t.pagetable)) (hi : i < NTASK)
    (hp : PermOk perm) (hQ : ∀ n ∈ t.tree, CleanRegion n)
    (he : Mmap.mmapByObj s t addr sz perm flag allocPhy = .ok (r, s', t')) :
    Accounted trampoline trapframe d s' (Function.update E i t'.pagetable) ∧
      t'.trapframe = t.trapframe ∧ ∀ n ∈ t'.tree, CleanRegion n := by
  have hclean (n : MmapNode) (hn : n.perm = perm) : CleanRegion n := by
    unfold CleanRegion
    rwa [hn]
  obtain ⟨hm, htf, hmem⟩ := mmapByObj_moves (Q := CleanRegion) (C := OnUserPage) (E := E) hi
    (fun n hn _ => hclean n hn) he
  exact ⟨h.moves hm, htf, fun n hn => (hmem n hn).elim (hQ n) id⟩

theorem Accounted.loadProgram {phs : List ProgHdr} (hi : i < NTASK)
    (h : Accounted trampoline trapframe d s (Function.update E i t.pagetable))
    (hQ : ∀ n ∈ t.tree, CleanRegion n) (he : Mmap.loadProgram phs s t = .ok (s', t')) :
    Accounted trampoline trapframe d s' (Function.update E i t'.pagetable) ∧
      t'.trapframe = t.trapframe ∧ ∀ n ∈ t'.tree, CleanRegion n := by
  induction phs generalizing s t with
  | nil =>
    cases he
    exact ⟨h, rfl, hQ⟩
  | cons ph phs ih =>
    unfold Mmap.loadProgram at he
    split at he
    · cases he
    split at he
    · cases he
    split at he
    · cases he
    obtain ⟨⟨maddr, s₁, t₁⟩, hm, he⟩ := bind_ok he
    dsimp only at he
    split at he
    · cases he
    obtain ⟨s₂, hl, he⟩ := bind_ok he
    obtain ⟨hacc, htf, hQ₁⟩ := h.mmapByObj hi (flags2perm_ok ph.flags) hQ hm
    obtain ⟨mem, rfl⟩ := loadsegLoop_mem hl
    obtain ⟨hacc, htf', hQ'⟩ := ih (hacc.withMem mem) hQ₁ he
    exact ⟨hacc, htf'.trans htf, hQ'⟩

theorem Accounted.execImage {highLevel : ℕ} {phs : List ProgHdr} {argv : List (List ℕ)}
    (hi : i < NTASK)
    (h : Accounted trampoline trapframe d s
      (Function.update E i (userTask trampoline t.trapframe highLevel).pagetable))
    (he : Mmap.execImage trampoline s t highLevel phs argv = .ok (s', nt)) :
    Accounted trampoline trapframe d s' (Function.update E i nt.pagetable) ∧
      nt.trapframe = t.trapframe ∧ ∀ n ∈ nt.tree, CleanRegion n := by
  unfold Mmap.execImage at he
  obtain ⟨⟨s₁, t₁⟩, hl, he⟩ := bind_ok he
  obtain ⟨⟨addr, s₂, t₂⟩, hm, he⟩ := bind_ok he
  dsimp only at he
  split at he
  · cases he
  obtain ⟨s₃, hp, he⟩ := bind_ok he
  cases he
  obtain ⟨hacc, htf, hQ⟩ := h.loadProgram hi (fun n hn => absurd hn List.not_mem_nil) hl
  obtain ⟨hacc, htf', hQ⟩ := hacc.mmapByObj hi (by decide) hQ hm
  obtain ⟨mem, rfl⟩ := pushArgs_mem hp
  exact ⟨hacc.withMem mem, htf'.trans htf, hQ⟩

theorem SysOk.exec {highLevel : ℕ} {phs : List ProgHdr} {argv : List (List ℕ)}
    (h : SysOk CleanRegion σ) (ht : σ.task i = some t)
    (he : Mmap.execImage σ.trampoline σ.phys t highLevel phs argv = .ok (s, nt))
    (hs : Settled s t) : SysOk CleanRegion (σ.set (mmapDestroy s t.tree) i (some nt)) := by
  have hi := h.live i t ht
  have htf : trapframes σ i = some t.trapframe := congrArg (Option.map Task.trapframe) ht
  have htr := (h.accounted.counts.kernel σ.trampoline (Or.inl rfl)).1
  have hfr := (h.accounted.counts.kernel t.trapframe (Or.inr ⟨i, htf⟩)).1
  have hframes := h.accounted.counts.frames
  have htable : TableOk σ.trampoline (trapframes σ i)
      (userTask σ.trampoline t.trapframe highLevel).pagetable := by
    rw [htf]
    exact userTask_tableOk htr.aligned (htr.lt_memstop hframes) hfr.aligned
      (hfr.lt_memstop hframes)
  have hdetach := h.accounted.detach hi htable fun P hP =>
    rowCount_eq_zero (userTask_not_userMaps hP)
  rw [rows_of_task ht] at hdetach
  obtain ⟨hacc, hnt, hQ⟩ := hdetach.execImage hi he
  exact h.set ht hnt hQ (hacc.destroy hs)

/-! ### Runs -/

/-- The rest of the kernel leaves frames in use alone. -/
structure KernelKeeps (σ : Sys) (s' : Phys) : Prop where
  frames : FramesOk s'
  keeps : ∀ P, σ.phys.ref P ≠ 0 ∨ KernelFrame σ.trampoline (trapframes σ) P → InUse s' P
  mem_eq : ∀ P, σ.phys.ref P ≠ 0 → s'.mem P = σ.phys.mem P

/-- Steps after which counters and mappings still agree: permissions carry no frame bits,
no store fault is on the trampoline, and images are torn down when that comes out even. -/
def Orderly (σ : Sys) : Act → Prop
  | .mmap _ _ _ perm _ _ => PermOk perm
  | .fault _ stval scause => scause = 15 → vpn stval ≠ vpn TRAMPOLINE
  | .exec i highLevel phs argv => ∀ t s nt, σ.task i = some t →
      execImage σ.trampoline σ.phys t highLevel phs argv = .ok (s, nt) → Settled s t
  | .wait i => ∀ t, σ.task i = some t → Settled σ.phys t
  | .kernel mem pages heapTop =>
      KernelKeeps σ { σ.phys with mem := mem, pages := pages, heapTop := heapTop }
  | _ => True

theorem TableOk.store_fault {tf : Option ℕ} {v : ℕ} (h : TableOk trampoline tf pt)
    (hv : pt v &&& PTE_V ≠ 0) (hw : pt v &&& PTE_W = 0) (hne : v ≠ vpn TRAMPOLINE) :
    pt v &&& PTE_U ≠ 0 := by
  intro hu
  rcases h.kernel v hv hu with ⟨hk, -⟩ | ⟨-, -, hk⟩
  · exact hne hk
  · exact hk hw

theorem SysOk.fault {stval scause : ℕ} (hperm : ∀ n, Q n → PermOk n.perm)
    (hC : ∀ s va pte, C s va pte → pte &&& PTE_U ≠ 0) (h : SysOk Q σ) (ht : σ.task i = some t)
    (hcond : t.pagetable (vpn stval) &&& PTE_V ≠ 0 → t.pagetable (vpn stval) &&& PTE_W = 0 →
      scause = 15 → C σ.phys (pgRoundDown stval) (t.pagetable (vpn stval)))
    (he : handlePagefault σ.phys t stval scause = .ok (s, t')) :
    Moves Q C (σ.phys, rows σ) (s, rows (σ.set s i (some t'))) ∧
      SysOk Q (σ.set s i (some t')) := by
  obtain ⟨hm, ht'⟩ := handlePagefault_moves (E := rows σ) (h.live i t ht) (h.regions i t ht)
    hcond he
  rw [update_rows ht] at hm
  rw [rows_set]
  refine ⟨hm, h.set ht (by rw [ht']) (by rw [ht']; exact h.regions i t ht) ?_⟩
  exact hm.preserves (Accounted.move hperm hC) h.accounted

theorem SysOk.munmap {addr : ℕ} {r : ℤ} (hperm : ∀ n, Q n → PermOk n.perm)
    (hC : ∀ s va pte, C s va pte → pte &&& PTE_U ≠ 0) (h : SysOk Q σ) (ht : σ.task i = some t)
    (he : Mmap.munmap σ.phys t addr = .ok (r, s, t')) :
    Moves Q C (σ.phys, rows σ) (s, rows (σ.set s i (some t'))) ∧
      SysOk Q (σ.set s i (some t')) := by
  obtain ⟨hm, htf, hQ⟩ := munmap_moves (Q := Q) (C := C) (E := rows σ) (h.live i t ht) he
  rw [update_rows ht] at hm
  rw [rows_set]
  refine ⟨hm, h.set ht htf (fun n hn => h.regions i t ht n (hQ n hn)) ?_⟩
  exact hm.preserves (Accounted.move hperm hC) h.accounted

theorem SysOk.kernel {mem : ℕ → ℕ → ℕ} {pages : List ℕ} {heapTop : ℕ} (h : SysOk Q σ)
    (hk : KernelKeeps σ { σ.phys with mem := mem, pages := pages, heapTop := heapTop }) :
    SysOk Q { σ with phys := { σ.phys with mem := mem, pages := pages, heapTop := heapTop } } :=
  h.of_accounted rfl rfl h.regions
    ⟨⟨hk.frames, fun P hP => hk.keeps P (Or.inl hP),
      fun P hP => ⟨hk.keeps P (Or.inr hP), (h.accounted.counts.kernel P hP).2⟩,
      h.accounted.counts.counts, h.accounted.counts.logs, h.accounted.counts.handed_lt⟩,
      h.accounted.tables⟩

theorem SysOk.withMem (h : SysOk Q σ) (mem : ℕ → ℕ → ℕ) :
    SysOk Q { σ with phys := { σ.phys with mem := mem } } :=
  h.of_accounted rfl rfl h.regions (h.accounted.withMem mem)

theorem SysOk.step {a : Act} (h : SysOk CleanRegion σ) (ho : Orderly σ a) (hs : Step σ a σ') :
    SysOk CleanRegion σ' := by
  have hperm (n : MmapNode) (hn : CleanRegion n) : PermOk n.perm := hn
  have hC (s : Phys) (va pte : ℕ) (hc : OnUserPage s va pte) : pte &&& PTE_U ≠ 0 := hc
  cases hs with
  | create hi hnone hc => exact h.create hi hnone hc
  | @mmap i _ _ _ _ _ t _ _ _ ht he =>
    have hacc := h.accounted
    rw [← update_rows ht] at hacc
    obtain ⟨hacc, htf, hQ⟩ := hacc.mmapByObj (h.live i t ht) ho (h.regions i t ht) he
    exact h.set ht htf hQ hacc
  | @fault i stval scause t _ _ ht he =>
    refine (h.fault hperm hC ht (fun hv hw h15 => ?_) he).2
    have htable := h.accounted.tables i
    rw [rows_of_task ht] at htable
    exact htable.store_fault hv hw (ho h15)
  | store _ _ => exact h.withMem _
  | fork ht hj hnone hc hf => exact (h.fork hperm hC ht hj hnone hc hf).2.2
  | munmap ht he => exact (h.munmap hperm hC ht he).2
  | exec ht he => exact h.exec ht he (ho _ _ _ ht he)
  | wait ht => exact h.wait ht (ho _ ht)
  | kernel => exact h.kernel ho

theorem Boot.sysOk (h : Boot σ) : SysOk Q σ := by
  have hrows (i : ℕ) : rows σ i = fun _ => 0 := rows_of_none (h.tasks i)
  have htf (i : ℕ) : trapframes σ i = none := by rw [trapframes, h.tasks i]; rfl
  have hmap (P : ℕ) : mapCount (rows σ) P = 0 := by
    refine mapCount_eq_zero fun i v => ?_
    rw [hrows i]
    exact not_userMaps_zero P
  refine ⟨⟨⟨h.frames, ?_, ?_, ?_, ?_, ?_⟩, fun i => ?_⟩, ?_, ?_, ?_, ?_⟩
  · exact fun P hP => absurd (h.ref P) hP
  · rintro P (rfl | ⟨i, hi⟩)
    · exact ⟨h.trampoline, h.ref _⟩
    · rw [htf i] at hi
      cases hi
  · intro P _
    rw [h.ref, hmap]
  · intro P
    simp [h.handed, h.freed, h.ref]
  · simp [h.handed]
  · rw [hrows i]
    exact tableOk_zero
  · intro i t ht
    rw [h.tasks i] at ht
    cases ht
  · intro i t ht
    rw [h.tasks i] at ht
    cases ht
  · intro i j P hi
    rw [htf i] at hi
    cases hi
  · intro i hi
    rw [htf i] at hi
    cases hi

theorem run_sysOk {σ₀ : Sys} (hb : Boot σ₀) (hr : Run Orderly σ₀ σ) : SysOk CleanRegion σ := by
  induction hr with
  | refl => exact hb.sysOk
  | tail _ ho hs ih => exact ih.step ho hs

/-- Counters are mapping counts, and a page is out exactly while it is mapped. -/
structure Exact (σ : Sys) : Prop where
  counter : ∀ P ∈ σ.phys.handed, σ.phys.ref P = mapCount (rows σ) P
  out : ∀ P ∈ σ.phys.handed, σ.phys.handed.count P =
    σ.phys.freed.count P + if mapCount (rows σ) P = 0 then 0 else 1

theorem SysOk.exact (h : SysOk Q σ) : Exact σ := by
  have hne (P : ℕ) (hP : P ∈ σ.phys.handed) : P ≠ USERRDONLY := by
    rintro rfl
    exact absurd (h.accounted.counts.handed_lt _ hP) (by decide)
  have hcount (P : ℕ) (hP : P ∈ σ.phys.handed) : σ.phys.ref P = mapCount (rows σ) P := by
    have := h.accounted.counts.counts P (hne P hP)
    simpa only [Nat.add_zero] using this
  refine ⟨hcount, fun P hP => ?_⟩
  rw [← hcount P hP]
  exact h.accounted.counts.logs P

/-- In every run of orderly steps, the counter of every page handed to a user is the
number of entries that map it. -/
theorem run_counters_match_mappings {σ₀ : Sys} (hb : Boot σ₀) (hr : Run Orderly σ₀ σ) : Exact σ :=
  (run_sysOk hb hr).exact

/-! ### A child that touches one page -/

theorem run_trampoline {m : Sys → Act → Prop} {σ₀ : Sys} (h : Run m σ₀ σ) :
    σ.trampoline = σ₀.trampoline := by
  induction h with
  | refl => rfl
  | tail _ _ hs ih => cases hs <;> exact ih

theorem Run.mono {m m' : Sys → Act → Prop} (hm : ∀ σ a, m σ a → m' σ a) {σ₀ : Sys}
    (h : Run m σ₀ σ) : Run m' σ₀ σ := by
  induction h with
  | refl => exact .refl
  | tail _ ha hs ih => exact .tail ih (hm _ _ ha) hs

/-- A machine with its trampoline at `0x80001000` and free memory from `0x80300000`. -/
def machine : Sys where
  trampoline := 0x80001000
  phys := mmapInit (fun _ _ => 0) [] 0x80300000
  task _ := none

theorem boot_machine : Boot machine where
  frames := ⟨by simp [machine, mmapInit], by simp [machine, mmapInit],
    by simp [machine, mmapInit], by simp [machine, mmapInit], by decide, by decide, by decide⟩
  trampoline := ⟨by decide, by decide, by decide, by simp [machine, mmapInit]⟩
  ref _ := rfl
  handed := rfl
  freed := rfl
  tasks _ := rfl

/-- Creating, mapping, touching and forking, away from the reserved pages. -/
def PlainCall (_ : Sys) : Act → Prop
  | .mmap _ _ _ perm _ _ => PermOk perm
  | .fault _ stval _ => stval < USERRDONLYMAP
  | .munmap .. | .exec .. | .wait .. | .kernel .. => False
  | _ => True

theorem PlainCall.orderly {a : Act} (h : PlainCall σ a) : Orderly σ a := by
  cases a with
  | fault i stval scause => exact fun _ he => not_reserved_of_lt h (Or.inl he)
  | exec i highLevel phs argv => exact h.elim
  | wait i => exact h.elim
  | kernel mem pages heapTop => exact h.elim
  | munmap i addr => trivial
  | _ => exact h

/-- The first task forks a child, which maps a page and touches it. -/
theorem run_child_page : ∃ σ t, Run PlainCall machine σ ∧ σ.task 1 = some t ∧
    σ.phys = refCntInc { machine.phys with heapTop := 0x80303000, handed := [0x80302000] }
      0x80302000 ∧
    t.trapframe = 0x80301000 ∧ t.tree = [⟨0x10000000, 4096, 6, 3⟩] ∧ (∃ u, σ.task 0 = some u ∧
      u.pagetable = (userTask 0x80001000 0x80300000 0).pagetable) ∧
    ∀ k, k ≠ 0 → k ≠ 1 → σ.task k = none := by
  let s₁ := { machine.phys with heapTop := 0x80301000 }
  let s₂ := { machine.phys with heapTop := 0x80302000 }
  let t₀ := userTask 0x80001000 0x80300000 0
  let t₁ := userTask 0x80001000 0x80301000 0
  let σ₁ := machine.set s₁ 0 (some t₀)
  let σ₂ := (σ₁.set s₂ 0 (some t₀)).set s₂ 1 (some t₁)
  let u := { t₁ with tree := [⟨0x10000000, 4096, 6, 3⟩] }
  let σ₃ := σ₂.set s₂ 1 (some u)
  have h₁ : Step machine (.create 0 0) σ₁ := .create (by decide) rfl rfl
  have h₂ : Step σ₁ (.fork 0 1 0) σ₂ := .fork rfl (by decide) rfl rfl rfl
  have h₃ : Step σ₂ (.mmap 1 0x10000000 4096 6 1 false) σ₃ :=
    .mmap (t := t₁) (r := 0x10000000) rfl rfl
  have hregion : regionAt u (pgRoundDown 0x10000000) = some ⟨0x10000000, 4096, 6, 3⟩ := by decide
  have h₄ := @Step.fault σ₃ 1 0x10000000 15 u _ _ rfl
    (handlePagefault_of_userPage hregion
      (by decide) (by decide) (rfl : userPage s₂ = .ok (0x80302000, { s₂ with
        heapTop := 0x80303000
        handed := [0x80302000] })))
  refine ⟨_, _, .tail (.tail (.tail (.tail .refl ?_ h₁) ?_ h₂) ?_ h₃) ?_ h₄,
    task_set_self, rfl, rfl, rfl, ⟨t₀, rfl, rfl⟩, fun k h0 h1 => ?_⟩
  · trivial
  · trivial
  · exact (by decide : PermOk 6)
  · exact (by decide : 0x10000000 < USERRDONLYMAP)
  · rw [task_set_of_ne h1, task_set_of_ne h1, task_set_of_ne h1, task_set_of_ne h0,
      task_set_of_ne h0]
    rfl

theorem child_page_counted : ∃ σ, Boot machine ∧ Run Orderly machine σ ∧
    0x80302000 ∈ σ.phys.handed ∧ Exact σ := by
  obtain ⟨σ, -, hr, -, hs, -⟩ := run_child_page
  have hr := hr.mono fun _ _ => PlainCall.orderly
  refine ⟨σ, boot_machine, hr, ?_, run_counters_match_mappings boot_machine hr⟩
  rw [hs]
  exact List.mem_singleton.mpr rfl

/-- When the child is reaped, the counter of its page stays at one: the region starts at
`0x10000000`, and that is the number `mmap_freef` counts down. -/
theorem reaped_page_leaks : ∃ σ, Boot machine ∧
    Run (fun σ a => PlainCall σ a ∨ a = .wait 1) machine σ ∧ 0x80302000 ∈ σ.phys.handed ∧
    σ.phys.ref 0x80302000 = 1 ∧ σ.phys.freed = [] ∧ mapCount (rows σ) 0x80302000 = 0 := by
  obtain ⟨σ, t, hr, ht, hs, htf, htree, ⟨u, hu, hpt⟩, hnone⟩ := run_child_page
  have hfree : freeTask σ.phys t = { σ.phys with
      mem := setLink σ.phys.mem 0x80301000 0
      pages := [0x80301000] } := by
    rw [freeTask, htf, htree, hs]
    rfl
  refine ⟨_, boot_machine, .tail (hr.mono fun _ _ => Or.inl) (Or.inr rfl) (.wait ht), ?_⟩
  have hphys : (σ.set (freeTask σ.phys t) 1 none).phys = freeTask σ.phys t := rfl
  rw [hphys, hfree, hs]
  refine ⟨List.mem_singleton.mpr rfl, rfl, rfl, mapCount_eq_zero fun k v => ?_⟩
  rw [rows_set_none]
  by_cases h1 : k = 1
  · rw [h1, Function.update_self]
    exact not_userMaps_zero _
  rw [Function.update_of_ne h1]
  by_cases h0 : k = 0
  · rw [h0, rows_of_task hu, hpt]
    exact userTask_not_userMaps (by decide) v
  · rw [rows_of_none (hnone k h0 h1)]
    exact not_userMaps_zero _

end Zrhos.Mmap
