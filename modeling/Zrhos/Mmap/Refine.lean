import Zrhos.Mmap.Cow

/-! Copy-on-write refines eager copies in every run, as long as no write fault takes the
counter of a virtual address for the counter of the page behind it. -/
namespace Zrhos.Mmap
open OrderedSet

variable {σ σ₀ σ' : Sys} {s s' : Phys} {i j v : ℕ} {t t' : Task} {a : Act} {r : Views}

/-- Steps of private memory: clean permissions, no shared regions, and write faults on
pages of the user whose virtual address and frame are counted alike. -/
def CowSafe (σ : Sys) : Act → Prop
  | .mmap _ _ _ perm flag _ => PermOk perm ∧ flag &&& MAP_SHARED = 0
  | .fault i stval scause => scause = 15 → vpn stval ≠ vpn TRAMPOLINE ∧
      ∀ t, σ.task i = some t → t.pagetable (vpn stval) &&& PTE_V ≠ 0 →
        t.pagetable (vpn stval) &&& PTE_W = 0 →
        (σ.phys.ref (pgRoundDown stval) = 1 ↔ σ.phys.ref (PTE2PA (t.pagetable (vpn stval))) = 1)
  | .exec .. | .wait .. => False
  | .kernel mem pages heapTop =>
      KernelKeeps σ { σ.phys with mem := mem, pages := pages, heapTop := heapTop }
  | _ => True

structure CowOk (σ : Sys) : Prop where
  sys : SysOk PrivateRegion σ
  once : WritableOnce σ.phys (rows σ)

/-- The system and the reference model side by side. -/
inductive Joint (meets : Sys → Act → Prop) : Sys → Sys → Views → Prop where
  | start {σ : Sys} : Joint meets σ σ fun _ _ => none
  | tail {σ₀ σ σ' : Sys} {r : Views} {a : Act} : Joint meets σ₀ σ r → meets σ a → Step σ a σ' →
      Joint meets σ₀ σ' (refStep σ σ' r a)

theorem userTask_not_writable {trampoline trapframe highLevel P : ℕ}
    (h : UserMaps ((userTask trampoline trapframe highLevel).pagetable v) P) :
    (userTask trampoline trapframe highLevel).pagetable v &&& PTE_W = 0 := by
  by_contra hw
  rcases userTask_entry
    v with ⟨-, he⟩ | ⟨-, he⟩ | ⟨-, he⟩ | ⟨-, he⟩
  · rw [he] at hw
    exact absurd ((pack_and (by decide)).mp hw) (by decide)
  · rw [he] at h
    exact absurd ((pack_and (by decide)).mp h.2.1) (by decide)
  · rw [he] at hw
    exact absurd ((pack_and (by decide)).mp hw) (by decide)
  · rw [he] at h
    exact not_userMaps_zero P h

theorem CowOk.create {highLevel : ℕ} (h : CowOk σ) (hi : i < NTASK) (hnone : σ.task i = none)
    (hc : utaskCreate σ.trampoline σ.phys highLevel = .ok (s, t)) :
    CowOk (σ.set s i (some t)) ∧ viewOf s (rows (σ.set s i (some t))) =
      Function.update (viewOf σ.phys (rows σ)) i fun _ => none := by
  have hsys := h.sys.create hi hnone hc
  obtain ⟨P, hm, rfl⟩ := utaskCreate_ok hc
  have hmem := memMalloc_mem hm
  have href := (memMalloc_taken h.sys.accounted.counts.frames hm).ref_eq
  refine ⟨⟨hsys, fun k w R hk hw hmaps hwr => ?_⟩, ?_⟩
  · rw [rows_set] at hmaps hwr
    change s.ref R = 1
    rw [href]
    by_cases hki : k = i
    · rw [hki, Function.update_self] at hmaps hwr
      exact absurd (userTask_not_writable hmaps) hwr
    · rw [Function.update_of_ne hki] at hmaps hwr
      exact h.once k w R hk hw hmaps hwr
  · funext k w
    rw [rows_set]
    by_cases hki : k = i
    · rw [hki, Function.update_self, viewOf, Function.update_self,
        viewPte_of_not fun R hR => userTask_not_userMaps hR w, ite_self]
    · rw [Function.update_of_ne hki]
      exact viewOf_congr (Function.update_of_ne hki _ _ ▸ rfl) fun _ _ _ _ _ => by rw [hmem]

theorem CowOk.mmap {addr sz perm flag x : ℕ} {allocPhy : Bool} (h : CowOk σ)
    (ht : σ.task i = some t) (hp : PermOk perm) (hf : flag &&& MAP_SHARED = 0)
    (he : mmapByObj σ.phys t addr sz perm flag allocPhy = .ok (x, s, t')) :
    CowOk (σ.set s i (some t')) ∧ viewOf s (rows (σ.set s i (some t'))) =
      refPresent (viewOf σ.phys (rows σ)) (viewOf s (rows (σ.set s i (some t')))) i := by
  have hprivate (n : MmapNode) (hn : n.perm = perm)
      (hfl : flag &&& MAP_SHARED = 0 → n.flag &&& MAP_PRIVATE ≠ 0) : PrivateRegion n :=
    ⟨by rwa [hn], hfl hf⟩
  obtain ⟨hm, htf, hmem⟩ := mmapByObj_moves (C := CountedAlike) (E := rows σ) (h.sys.live i t ht)
    hprivate he
  rw [update_rows ht] at hm
  have hQ : ∀ n ∈ t'.tree, PrivateRegion n := fun n hn =>
    (hmem n hn).elim (h.sys.regions i t ht n) id
  have hacc := hm.preserves (Accounted.move privateRegion_perm countedAlike_user)
    h.sys.accounted
  refine ⟨⟨h.sys.set ht htf hQ hacc, ?_⟩, ?_⟩
  · rw [rows_set]
    exact h.once.moves hm h.sys.accounted
  · have hview := viewOf_fill (E := rows σ) (i := i) (mmapByObj_mem he) (mmapByObj_keeps he).2
    rw [update_rows ht] at hview
    rwa [rows_set]

theorem CowOk.fault {stval scause : ℕ} (h : CowOk σ) (ht : σ.task i = some t)
    (hc : CowSafe σ (.fault i stval scause))
    (he : handlePagefault σ.phys t stval scause = .ok (s, t')) :
    CowOk (σ.set s i (some t')) ∧ viewOf s (rows (σ.set s i (some t'))) =
      refPresent (viewOf σ.phys (rows σ)) (viewOf s (rows (σ.set s i (some t')))) i := by
  have hi := h.sys.live i t ht
  have htable := h.sys.accounted.tables i
  rw [rows_of_task ht] at htable
  have halike (hv : t.pagetable (vpn stval) &&& PTE_V ≠ 0)
      (hw : t.pagetable (vpn stval) &&& PTE_W = 0) (h15 : scause = 15) :
      CountedAlike σ.phys (pgRoundDown stval) (t.pagetable (vpn stval)) :=
    ⟨htable.store_fault hv hw (hc h15).1, (hc h15).2 t ht hv hw⟩
  obtain ⟨hm, hsys⟩ := h.sys.fault privateRegion_perm countedAlike_user ht halike he
  refine ⟨⟨hsys, h.once.moves hm h.sys.accounted⟩, ?_⟩
  have hacc := h.sys.accounted
  rw [← update_rows ht] at hacc
  obtain ⟨n, -, ⟨rfl, rfl, -⟩ | ⟨pa, s₁, hv, hp, rfl, rfl⟩ | ⟨hv, hw, h15, -, hcow⟩⟩ :=
    handlePagefault_cases he
  · have hview := viewOf_fill (E := rows σ) (i := i)
      (rfl : σ.phys.mem = σ.phys.mem) fun v (_ : t'.pagetable v &&& PTE_V ≠ 0) =>
        (rfl : t'.pagetable v = t'.pagetable v)
    rw [update_rows ht] at hview
    rwa [rows_set, update_rows ht]
  · have hkeep (w : ℕ) (hw : t.pagetable w &&& PTE_V ≠ 0) :
        Function.update t.pagetable (vpn stval) (userPte pa n.perm) w = t.pagetable w :=
      Function.update_of_ne (fun hwv => hw (by rw [hwv, hv])) _ _
    have hmem : (refCntInc s₁ pa).mem = σ.phys.mem := by
      have := userPage_mem hp
      exact this
    have hview := viewOf_fill (E := rows σ) (i := i) hmem hkeep
    rw [update_rows ht] at hview
    rwa [rows_set]
  · have hview := viewOf_copyOnWrite (E := rows σ) hi hacc
      (by rw [vpn_pgRoundDown]; exact halike hv hw h15) (by rwa [vpn_pgRoundDown]) hcow
    rw [update_rows ht] at hview
    rwa [rows_set]

theorem CowOk.fork {highLevel : ℕ} {s₁ : Phys} {nt nt' : Task} (h : CowOk σ)
    (ht : σ.task i = some t) (hj : j < NTASK) (hnone : σ.task j = none)
    (hc : utaskCreate σ.trampoline σ.phys highLevel = .ok (s₁, nt))
    (hf : copyMmap s₁ t nt = .ok (s, t', nt')) :
    CowOk ((σ.set s i (some t')).set s j (some nt')) ∧
      viewOf s (rows ((σ.set s i (some t')).set s j (some nt'))) =
        refFork (viewOf σ.phys (rows σ)) i j (t.tree.flatMap MmapNode.vpns) := by
  have hij : i ≠ j := fun he => by
    rw [he, hnone] at ht
    cases ht
  obtain ⟨hcreate, -⟩ := h.create hj hnone hc
  obtain ⟨-, hm, hsys⟩ := h.sys.fork privateRegion_perm countedAlike_user ht hj hnone hc hf
  refine ⟨⟨hsys, hcreate.once.moves hm hcreate.sys.accounted⟩, ?_⟩
  obtain ⟨P, hmal, rfl⟩ := utaskCreate_ok hc
  have hacc := hcreate.sys.accounted
  rw [rows_set, ← update_rows ht] at hacc
  have hview := viewOf_fork (E := rows σ) (h.sys.live i t ht) hj hij hacc
    (fun n hn => (h.sys.regions i t ht n hn).1) hf
  rw [update_rows ht] at hview
  rw [rows_set, rows_set, hview]
  congr 1
  funext k w
  have hmem : (σ.set s₁ j (some (userTask σ.trampoline P highLevel))).phys.mem = σ.phys.mem :=
    memMalloc_mem hmal
  exact viewOf_congr rfl fun _ _ _ _ _ => by rw [hmem]

theorem CowOk.munmap {addr : ℕ} {x : ℤ} (h : CowOk σ) (ht : σ.task i = some t)
    (he : Mmap.munmap σ.phys t addr = .ok (x, s, t')) :
    CowOk (σ.set s i (some t')) ∧ viewOf s (rows (σ.set s i (some t'))) =
      refStep σ (σ.set s i (some t')) (viewOf σ.phys (rows σ)) (.munmap i addr) := by
  obtain ⟨hm, hsys⟩ := h.sys.munmap privateRegion_perm countedAlike_user ht he
  refine ⟨⟨hsys, h.once.moves hm h.sys.accounted⟩, ?_⟩
  have hacc' := hsys.accounted
  rw [rows_set, trapframes_set] at hacc'
  have hacc := h.sys.accounted
  rw [← update_rows ht] at hacc
  unfold Mmap.munmap at he
  simp only [refStep, ht]
  rcases hl : locate MmapNode.addr t.tree addr with _ | ⟨xs, n, ys⟩
  · simp only [hl] at he ⊢
    cases he
    rw [rows_set, update_rows ht]
  · simp only [hl] at he ⊢
    obtain ⟨⟨s₁, pt₁⟩, hu, he⟩ := bind_ok he
    cases he
    have htf : Function.update (trapframes σ) i (some t.trapframe) = trapframes σ :=
      update_trapframes ht
    dsimp only at hacc'
    rw [htf] at hacc'
    have hview := viewOf_unmapPages (h.sys.live i t ht) hacc hacc' hu
    rw [update_rows ht] at hview
    rw [rows_set]
    exact hview

/-- A step keeps the invariant and is the step of the reference model on the views. -/
theorem CowOk.step (h : CowOk σ) (hc : CowSafe σ a) (hs : Step σ a σ') :
    CowOk σ' ∧ viewOf σ'.phys (rows σ') = refStep σ σ' (viewOf σ.phys (rows σ)) a := by
  cases hs with
  | create hi hnone hu => exact h.create hi hnone hu
  | mmap ht he => exact h.mmap ht hc.1 hc.2 he
  | fault ht he => exact h.fault ht hc he
  | @store i va b t pa ht htr =>
    refine ⟨⟨h.sys.withMem _, h.once⟩, ?_⟩
    exact viewOf_store (h.sys.live i t ht) h.sys.accounted h.once (rows_of_task ht) htr
  | fork ht hj hnone hu hf =>
    simp only [refStep, ht]
    exact h.fork ht hj hnone hu hf
  | munmap ht he => exact h.munmap ht he
  | exec _ _ => exact hc.elim
  | wait _ => exact hc.elim
  | kernel =>
    refine ⟨⟨h.sys.kernel hc, h.once⟩, ?_⟩
    funext k w
    exact viewOf_congr rfl fun R hk hw hR hm => hc.mem_eq R (h.sys.accounted.ref_pos hk hw hm hR)

theorem Boot.cowOk (h : Boot σ) : CowOk σ := by
  refine ⟨h.sysOk, fun k w R hk hw hm => ?_⟩
  rw [rows_of_none (h.tasks k)] at hm
  exact absurd hm (not_userMaps_zero R)

theorem joint_views (hb : Boot σ₀) (hr : Joint CowSafe σ₀ σ r) :
    CowOk σ ∧ r = viewOf σ.phys (rows σ) := by
  induction hr with
  | start =>
    refine ⟨hb.cowOk, ?_⟩
    funext k w
    unfold viewOf
    rw [rows_of_none (hb.tasks k), viewPte_of_not fun P _ => not_userMaps_zero P, ite_self]
  | tail _ hc hs ih =>
    obtain ⟨hok, hr⟩ := ih
    obtain ⟨hok', hview⟩ := hok.step hc hs
    exact ⟨hok', by rw [hview, hr]⟩

/-- In every joint run, a load returns the byte of the task's own copy in the reference
model. -/
theorem joint_loads_agree (hb : Boot σ₀) (hr : Joint CowSafe σ₀ σ r) :
    ∀ i t va pa, σ.task i = some t → translate t va 0 = some pa → pa ≠ USERRDONLY →
      (r i (vpn va)).map (fun page => page (va % PGSIZE)) =
        some (σ.phys.mem pa (va % PGSIZE)) := by
  obtain ⟨hok, rfl⟩ := joint_views hb hr
  intro i t va pa ht htr hpa
  have hmaps := (translate_some htr).1
  rw [← rows_of_task ht] at hmaps
  rw [viewOf_of_maps (hok.sys.live i t ht) (vpn_lt va) hmaps hpa]
  rfl

/-! ### A page shared by parent and child -/

/-- The first task maps a page, stores a seven in it and forks; then it is the first to
ask for a page of its own. -/
def forkedPage : Except Stop (Phys × Task × Task) := do
  let (s, t) ← utaskCreate machine.trampoline machine.phys 0
  let (_, s, t) ← sysMmap s t 0x10000000 4096 6 1
  check (t.pagetable (vpn 0x10000000) &&& PTE_V = 0)
  let (s, t) ← handlePagefault s t 0x10000000 15
  check (translate t 0x10000000 PTE_W = some 0x80301000)
  let s := { s with mem := writeBytes s.mem 0x80301000 (0x10000000 % PGSIZE) [7] }
  let (s, nt) ← utaskCreate machine.trampoline s 0
  let (s, t, nt) ← copyMmap s t nt
  check (s.ref 0x10000000 = 1 ↔ s.ref (PTE2PA (t.pagetable (vpn 0x10000000))) = 1)
  let (s, t) ← handlePagefault s t 0x10000000 15
  check (translate nt 0x10000000 0 = some 0x80301000 ∧ s.mem 0x80301000 0 = 7)
  return (s, t, nt)

theorem joint_forkedPage {s : Phys} {t nt : Task} (h : forkedPage = .ok (s, t, nt)) :
    translate nt 0x10000000 0 = some 0x80301000 ∧ s.mem 0x80301000 0 = 7 ∧
    ∃ σ r, Joint CowSafe machine σ r ∧ σ.phys = s ∧ σ.task 1 = some nt := by
  unfold forkedPage at h
  obtain ⟨⟨s₁, t₁⟩, h₁, h⟩ := bind_ok h
  obtain ⟨⟨x, s₂, t₂⟩, h₂, h⟩ := bind_ok h
  obtain ⟨_, hv, h⟩ := bind_ok h
  obtain ⟨⟨s₃, t₃⟩, h₃, h⟩ := bind_ok h
  obtain ⟨_, htr, h⟩ := bind_ok h
  obtain ⟨⟨s₅, nt₁⟩, h₅, h⟩ := bind_ok h
  obtain ⟨⟨s₆, t₆, nt₂⟩, h₆, h⟩ := bind_ok h
  obtain ⟨_, hiff, h⟩ := bind_ok h
  obtain ⟨⟨s₇, t₇⟩, h₇, h⟩ := bind_ok h
  obtain ⟨_, hfinal, h⟩ := bind_ok h
  cases h
  refine ⟨(of_check hfinal).1, (of_check hfinal).2, ?_⟩
  let σ₁ := machine.set s₁ 0 (some t₁)
  let σ₂ := σ₁.set s₂ 0 (some t₂)
  let σ₃ := σ₂.set s₃ 0 (some t₃)
  let σ₄ := { σ₃ with phys := { s₃ with
    mem := writeBytes s₃.mem 0x80301000 (0x10000000 % PGSIZE) [7] } }
  let σ₆ := (σ₄.set s₆ 0 (some t₆)).set s₆ 1 (some nt)
  have k₁ : Step machine (.create 0 0) σ₁ := .create (by decide) rfl h₁
  have k₂ : Step σ₁ (.mmap 0 0x10000000 4096 6 1 false) σ₂ := .mmap task_set_self h₂
  have k₃ : Step σ₂ (.fault 0 0x10000000 15) σ₃ := .fault task_set_self h₃
  have k₄ : Step σ₃ (.store 0 0x10000000 7) σ₄ := .store task_set_self (of_check htr)
  have k₅ : Step σ₄ (.fork 0 1 0) σ₆ := .fork (t := t₃) rfl (by decide) rfl h₅ h₆
  have k₆ : Step σ₆ (.fault 0 0x10000000 15) (σ₆.set s 0 (some t)) := .fault (t := t₆) rfl h₇
  refine ⟨_, _, .tail (.tail (.tail (.tail (.tail (.tail .start ?_ k₁) ?_ k₂) ?_ k₃) ?_ k₄) ?_ k₅)
    ?_ k₆, rfl, rfl⟩
  · trivial
  · exact ⟨by decide, by decide⟩
  · refine fun _ => ⟨by decide, fun u hu hvalid => ?_⟩
    cases (task_set_self (σ := σ₁) (s := s₂)).symm.trans hu
    exact absurd (of_check hv) hvalid
  · trivial
  · trivial
  · refine fun _ => ⟨by decide, fun u hu _ _ => ?_⟩
    cases (rfl : σ₆.task 0 = some t₆).symm.trans hu
    exact of_check hiff

theorem child_load_agrees : ∃ σ r t, Boot machine ∧ Joint CowSafe machine σ r ∧
    σ.task 1 = some t ∧ translate t 0x10000000 0 = some 0x80301000 ∧
    (r 1 (vpn 0x10000000)).map (fun page => page 0) = some 7 := by
  obtain ⟨⟨s, t, nt⟩, h⟩ := ok_of_toBool (x := forkedPage) (by decide)
  obtain ⟨htr, hbyte, σ, r, hj, rfl, ht⟩ := joint_forkedPage h
  have := joint_loads_agree boot_machine hj 1 nt 0x10000000 0x80301000 ht htr (by decide)
  refine ⟨σ, r, nt, boot_machine, hj, ht, htr, ?_⟩
  rw [← hbyte]
  exact this

theorem Joint.mono {m m' : Sys → Act → Prop} (hm : ∀ σ b, m σ b → m' σ b)
    (h : Joint m σ₀ σ r) : Joint m' σ₀ σ r := by
  induction h with
  | start => exact .start
  | tail _ ha hs ih => exact .tail ih (hm _ _ ha) hs

/-- Then the child stores to the page: the handler counts its last reference down, which
gives the page back and writes a list link into it, and takes the same page again. -/
def clobberedPage : Except Stop (Phys × Task) := do
  let (s, _, nt) ← forkedPage
  let (s, nt) ← handlePagefault s nt 0x10000000 15
  check (translate nt 0x10000000 0 = some 0x80301000 ∧ s.mem 0x80301000 0 = 0)
  return (s, nt)

theorem child_page_clobbered : ∃ σ r t, Boot machine ∧
    Joint (fun σ a => CowSafe σ a ∨ a = .fault 1 0x10000000 15) machine σ r ∧
    σ.task 1 = some t ∧ translate t 0x10000000 0 = some 0x80301000 ∧
    σ.phys.mem 0x80301000 0 = 0 ∧
    (r 1 (vpn 0x10000000)).map (fun page => page 0) = some 7 := by
  obtain ⟨⟨s', nt'⟩, h⟩ := ok_of_toBool (x := clobberedPage) (by decide)
  unfold clobberedPage at h
  obtain ⟨⟨s, t, nt⟩, hf, h⟩ := bind_ok h
  obtain ⟨⟨s₁, nt₁⟩, hfault, h⟩ := bind_ok h
  obtain ⟨_, hfinal, h⟩ := bind_ok h
  cases h
  obtain ⟨htr, hbyte, σ, r, hj, rfl, ht⟩ := joint_forkedPage hf
  have hr : (r 1 (vpn 0x10000000)) = some (σ.phys.mem 0x80301000) := by
    obtain ⟨hok, rfl⟩ := joint_views boot_machine hj
    have hmaps := (translate_some htr).1
    rw [← rows_of_task ht] at hmaps
    exact viewOf_of_maps (by decide) (vpn_lt _) hmaps (by decide)
  refine ⟨_, _, nt', boot_machine, .tail (hj.mono fun _ _ => Or.inl) (Or.inr rfl)
    (.fault ht hfault), task_set_self, (of_check hfinal).1, (of_check hfinal).2, ?_⟩
  rw [refStep, refPresent, Function.update_self, hr, ← hbyte]
  rfl

end Zrhos.Mmap
