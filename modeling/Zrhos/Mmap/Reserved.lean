import Zrhos.Mmap.Teardown

/-! The three pages that `user_pagetable` maps at the top of every task. No check keeps a
region away from them, so faults and unmaps have to. -/
namespace Zrhos.Mmap
open OrderedSet

variable {σ σ₀ σ' : Sys} {s s' : Phys} {i j v : ℕ} {t t' nt : Task} {pt pt' npt npt' : ℕ → ℕ}

/-- The entries `user_pagetable` made. -/
structure ReservedOk (trampoline trapframe : ℕ) (pt : ℕ → ℕ) : Prop where
  trampoline : pt (vpn TRAMPOLINE) = PA2PTE trampoline ||| (PTE_R ||| PTE_X) ||| PTE_V
  trapframe : pt (vpn TRAPFRAME) = PA2PTE trapframe ||| (PTE_R ||| PTE_W) ||| PTE_V
  rdonly : pt (vpn USERRDONLYMAP) = PA2PTE USERRDONLY ||| (PTE_R ||| PTE_U) ||| PTE_V

/-- Faults and unmaps at or above `USERRDONLYMAP` find nothing to do: a fault is on a
present page and asks for no copy, or is in a region without memory; an unmap meets no
present page there. Permissions carry no frame bits, with which a task could map a page
table, and what `Orderly` asks of tear-downs and of the rest of the kernel holds, so that
no frame becomes a page table while it is mapped. -/
def KeepsOut (σ : Sys) : Act → Prop
  | .mmap _ _ _ perm _ _ => PermOk perm
  | .fault i stval scause => ∀ t n, σ.task i = some t →
      regionAt t (pgRoundDown stval) = some n → USERRDONLYMAP ≤ stval →
      (t.pagetable (vpn stval) &&& PTE_V = 0 → n.flag &&& MAP_ANONYMOUS = 0) ∧
      (t.pagetable (vpn stval) &&& PTE_V ≠ 0 → scause = 15 →
        t.pagetable (vpn stval) &&& PTE_W ≠ 0)
  | .munmap i addr => ∀ t xs n ys, σ.task i = some t →
      locate MmapNode.addr t.tree addr = some (xs, n, ys) →
      ∀ va ∈ n.vas, USERRDONLYMAP ≤ va → t.pagetable (vpn va) &&& PTE_V = 0
  | a => Orderly σ a

/-! ### Entries that stay -/

theorem ReservedOk.congr {trampoline trapframe : ℕ} (h : ReservedOk trampoline trapframe pt)
    (hk : ∀ v, Reserved v → pt' v = pt v) : ReservedOk trampoline trapframe pt' :=
  ⟨(hk _ (Or.inl rfl)).trans h.trampoline, (hk _ (Or.inr (Or.inl rfl))).trans h.trapframe,
    (hk _ (Or.inr (Or.inr rfl))).trans h.rdonly⟩

theorem ReservedOk.valid {trampoline trapframe : ℕ} (h : ReservedOk trampoline trapframe pt)
    (hv : Reserved v) : pt v &&& PTE_V ≠ 0 := by
  rcases hv with rfl | rfl | rfl
  · rw [h.trampoline]
    exact or_PTE_V_valid _
  · rw [h.trapframe]
    exact or_PTE_V_valid _
  · rw [h.rdonly]
    exact or_PTE_V_valid _

theorem reservedOk_userTask {trampoline trapframe highLevel : ℕ} :
    ReservedOk trampoline trapframe (userTask trampoline trapframe highLevel).pagetable where
  trampoline := by
    simp only [userTask]
    rw [if_pos trivial]
  trapframe := by
    simp only [userTask]
    rw [if_neg (by decide), if_pos trivial]
  rdonly := by
    simp only [userTask]
    rw [if_neg (by decide), if_neg (by decide), if_pos trivial]

/-- Without remapping, present entries stay. -/
theorem uvmMappagesLoop_keeps {last perm fuel a : ℕ}
    (h : uvmMappagesLoop last perm fuel s pt a = .ok (s', pt')) (hv : pt v &&& PTE_V ≠ 0) :
    pt' v = pt v := by
  induction fuel generalizing s pt a with
  | zero => cases h
  | succ fuel ih =>
    unfold uvmMappagesLoop at h
    obtain ⟨⟨pa, s₁⟩, -, h⟩ := bind_ok h
    obtain ⟨pt₁, hm, h⟩ := bind_ok h
    obtain ⟨hvac, -, rfl⟩ := uvmMap_eq_ok.mp hm
    have hne : v ≠ vpn a := fun he => hv (he ▸ hvac.resolve_right (by simp))
    have hv₁ : Function.update pt (vpn a) (userPte pa perm) v = pt v := Function.update_of_ne hne _ _
    dsimp only at h
    split at h
    · cases h
      exact hv₁
    · exact (ih h (by rwa [hv₁])).trans hv₁

theorem mmapByObj_keeps {addr sz perm flag r : ℕ} {allocPhy : Bool}
    (h : mmapByObj s t addr sz perm flag allocPhy = .ok (r, s', t')) :
    t'.trapframe = t.trapframe ∧
      ∀ v, t.pagetable v &&& PTE_V ≠ 0 → t'.pagetable v = t.pagetable v := by
  unfold mmapByObj at h
  split at h
  · cases h
  dsimp only at h
  split at h
  · cases h
  split at h
  · obtain ⟨⟨s₁, pt₁⟩, hu, h⟩ := bind_ok h
    cases h
    refine ⟨rfl, fun v hv => ?_⟩
    unfold uvmMappages at hu
    split at hu
    · cases hu
      rfl
    · exact uvmMappagesLoop_keeps hu hv
  · cases h
    exact ⟨rfl, fun _ _ => rfl⟩

theorem loadProgram_keeps {phs : List ProgHdr} (h : loadProgram phs s t = .ok (s', t')) :
    t'.trapframe = t.trapframe ∧
      ∀ v, t.pagetable v &&& PTE_V ≠ 0 → t'.pagetable v = t.pagetable v := by
  induction phs generalizing s t with
  | nil =>
    cases h
    exact ⟨rfl, fun _ _ => rfl⟩
  | cons ph phs ih =>
    unfold loadProgram at h
    split at h
    · cases h
    split at h
    · cases h
    split at h
    · cases h
    obtain ⟨⟨maddr, s₁, t₁⟩, hm, h⟩ := bind_ok h
    dsimp only at h
    split at h
    · cases h
    obtain ⟨s₂, -, h⟩ := bind_ok h
    obtain ⟨htf, hk⟩ := mmapByObj_keeps hm
    obtain ⟨htf', hk'⟩ := ih h
    exact ⟨htf'.trans htf, fun v hv => (hk' v (by rwa [hk v hv])).trans (hk v hv)⟩

theorem execImage_keeps {trampoline highLevel : ℕ} {phs : List ProgHdr} {argv : List (List ℕ)}
    (h : execImage trampoline s t highLevel phs argv = .ok (s', nt)) :
    nt.trapframe = t.trapframe ∧
      ∀ v, Reserved v → nt.pagetable v =
        (userTask trampoline t.trapframe highLevel).pagetable v := by
  unfold execImage at h
  obtain ⟨⟨s₁, t₁⟩, hl, h⟩ := bind_ok h
  obtain ⟨⟨addr, s₂, t₂⟩, hm, h⟩ := bind_ok h
  dsimp only at h
  split at h
  · cases h
  obtain ⟨s₃, -, h⟩ := bind_ok h
  cases h
  obtain ⟨htf, hk⟩ := loadProgram_keeps hl
  obtain ⟨htf', hk'⟩ := mmapByObj_keeps hm
  refine ⟨htf'.trans htf, fun v hv => ?_⟩
  have h1 := hk v (userTask_reserved hv)
  exact (hk' v (by rw [h1]; exact userTask_reserved hv)).trans h1

/-- The only entry a page fault writes. -/
theorem handlePagefault_other {stval scause : ℕ}
    (h : handlePagefault s t stval scause = .ok (s', t')) (hv : v ≠ vpn stval) :
    t'.pagetable v = t.pagetable v := by
  obtain ⟨n, -, ⟨-, rfl, -⟩ | ⟨pa, s₁, -, -, -, rfl⟩ | ⟨-, -, -, -, hcow⟩⟩ :=
    handlePagefault_cases h
  · rfl
  · exact Function.update_of_ne hv _ _
  · unfold copyOnWrite at hcow
    rw [vpn_pgRoundDown] at hcow
    dsimp only at hcow
    split at hcow
    · cases hcow
      exact Function.update_of_ne hv _ _
    · obtain ⟨⟨pa, s₁⟩, -, hcow⟩ := bind_ok hcow
      cases hcow
      exact Function.update_of_ne hv _ _

/-- A fault that finds nothing to do. -/
theorem handlePagefault_idle {stval scause : ℕ}
    (h : handlePagefault s t stval scause = .ok (s', t'))
    (hanon : ∀ n, regionAt t (pgRoundDown stval) = some n →
      t.pagetable (vpn stval) &&& PTE_V = 0 → n.flag &&& MAP_ANONYMOUS = 0)
    (hw : t.pagetable (vpn stval) &&& PTE_V ≠ 0 → scause = 15 →
      t.pagetable (vpn stval) &&& PTE_W ≠ 0) : t' = t := by
  have hfault := h
  obtain ⟨n, hn, ⟨-, ht, -⟩ | ⟨pa, s₁, hv, -⟩ | ⟨hv, hz, h15, -⟩⟩ := handlePagefault_cases h
  · exact ht
  · unfold handlePagefault at hfault
    simp only [hn, vpn_pgRoundDown, hv, ne_eq, not_true_eq_false, ↓reduceIte, hanon n hn hv] at hfault
    cases hfault
    rfl
  · exact absurd hz (hw hv h15)

/-- An unmap writes entries of present pages of the region only. -/
theorem unmapPages_other {vas : List ℕ} (h : unmapPages vas s pt = .ok (s', pt'))
    (hv : ∀ va ∈ vas, vpn va = v → pt v &&& PTE_V = 0) : pt' v = pt v := by
  induction vas generalizing s pt with
  | nil =>
    cases h
    rfl
  | cons va vas ih =>
    have hrest : ∀ va ∈ vas, vpn va = v → pt v &&& PTE_V = 0 := fun a ha =>
      hv a (List.mem_cons_of_mem _ ha)
    unfold unmapPages at h
    dsimp only at h
    split at h
    · exact ih h hrest
    case _ hva =>
      split at h
      · cases h
      split at h
      · cases h
      have hne : v ≠ vpn va := fun he => hva (he ▸ hv va List.mem_cons_self he.symm)
      have hv₁ : Function.update pt (vpn va) 0 v = pt v := Function.update_of_ne hne _ _
      exact (ih h (by rwa [hv₁])).trans hv₁

theorem munmap_other {addr : ℕ} {r : ℤ} (h : munmap s t addr = .ok (r, s', t'))
    (hne : t'.pagetable v ≠ t.pagetable v) :
    ∃ xs n ys, locate MmapNode.addr t.tree addr = some (xs, n, ys) ∧
      ∃ va ∈ n.vas, vpn va = v ∧ t.pagetable v &&& PTE_V ≠ 0 := by
  unfold munmap at h
  split at h
  · cases h
    exact absurd rfl hne
  case _ xs n ys hl =>
    obtain ⟨⟨s₁, pt₁⟩, hu, h⟩ := bind_ok h
    cases h
    refine ⟨xs, n, ys, hl, ?_⟩
    by_contra hno
    push Not at hno
    exact hne (unmapPages_other hu hno)

theorem munmap_trapframe {addr : ℕ} {r : ℤ} (h : munmap s t addr = .ok (r, s', t')) :
    t'.trapframe = t.trapframe := by
  unfold munmap at h
  split at h
  · cases h
    rfl
  · obtain ⟨⟨s₁, pt₁⟩, -, h⟩ := bind_ok h
    cases h
    rfl

/-! ### Runs -/

theorem copyMmap_reserved {nt' : Task} {trampoline trapframe highLevel : ℕ}
    (h : copyMmap s t (userTask trampoline trapframe highLevel) = .ok (s', t', nt'))
    (hv : Reserved v) :
    t'.pagetable v = t.pagetable v ∧
      nt'.pagetable v = (userTask trampoline trapframe highLevel).pagetable v := by
  obtain ⟨hall, -⟩ := copyMmap_ok h
  have hcopied := copyAll_copied hall
  refine hcopied.kept v fun p hp he => ?_
  by_contra hvalid
  rw [← he] at hvalid
  have hvac := hcopied.vacant p hp hvalid
  rw [he] at hvac
  exact userTask_reserved hv hvac

/-- Every task has the entries it was made with. -/
def AllReserved (σ : Sys) : Prop :=
  ∀ i t, σ.task i = some t → ReservedOk σ.trampoline t.trapframe t.pagetable

theorem AllReserved.set (h : AllReserved σ)
    (ht : ReservedOk σ.trampoline t.trapframe t.pagetable) : AllReserved (σ.set s i (some t)) := by
  intro k u hu
  rcases task_set hu with ⟨-, he⟩ | ⟨-, hu⟩
  · rw [← Option.some.inj he]
    exact ht
  · exact h k u hu

theorem AllReserved.step {a : Act} (h : AllReserved σ) (hk : KeepsOut σ a) (hs : Step σ a σ') :
    AllReserved σ' := by
  cases hs with
  | create _ _ hc =>
    obtain ⟨P, -, rfl⟩ := utaskCreate_ok hc
    exact h.set reservedOk_userTask
  | @mmap i _ _ _ _ _ t _ _ t' ht he =>
    obtain ⟨htf, hkeep⟩ := mmapByObj_keeps he
    have hr := h i t ht
    refine h.set ?_
    rw [htf]
    exact hr.congr fun v hv => hkeep v (hr.valid hv)
  | @fault i stval scause t _ t' ht he =>
    have hr := h i t ht
    have ht' : t' = { t with pagetable := t'.pagetable } := (handlePagefault_moves
      (Q := fun _ => True) (C := fun _ _ _ => True) (E := rows σ) (i := 0) (by decide)
      (fun _ _ => trivial) (fun _ _ _ => trivial) he).2
    refine h.set ?_
    rw [show t'.trapframe = t.trapframe by rw [ht']]
    refine hr.congr fun v hv => ?_
    by_cases hlt : stval < USERRDONLYMAP
    · exact handlePagefault_other he fun hvs => not_reserved_of_lt hlt (hvs ▸ hv)
    · rw [handlePagefault_idle he (fun n hn => (hk t n ht hn (not_lt.mp hlt)).1)
        fun hvalid h15 => ?_]
      obtain ⟨n, hn, -⟩ := handlePagefault_cases he
      exact (hk t n ht hn (not_lt.mp hlt)).2 hvalid h15
  | store _ _ => exact h
  | @fork i j _ t _ _ _ t' nt' ht _ _ hc hf =>
    obtain ⟨P, -, rfl⟩ := utaskCreate_ok hc
    obtain ⟨-, ht', hnt', -⟩ := copyMmap_ok hf
    have hr := h i t ht
    refine (h.set (s := _) ?_).set ?_
    · rw [show t'.trapframe = t.trapframe by rw [ht']]
      exact hr.congr fun v hv => (copyMmap_reserved hf hv).1
    · rw [hnt']
      exact reservedOk_userTask.congr fun v hv => (copyMmap_reserved hf hv).2
  | @munmap i addr t _ _ t' ht he =>
    have hr := h i t ht
    refine h.set ?_
    rw [munmap_trapframe he]
    refine hr.congr fun v hv => ?_
    by_contra hne
    obtain ⟨xs, n, ys, hl, va, hva, hvv, hvalid⟩ := munmap_other he hne
    by_cases hlt : va < USERRDONLYMAP
    · exact not_reserved_of_lt hlt (hvv ▸ hv)
    · exact hvalid (hvv ▸ hk t xs n ys ht hl va hva (not_lt.mp hlt))
  | @exec i _ _ _ t _ nt ht he =>
    obtain ⟨htf, hkeep⟩ := execImage_keeps he
    refine h.set ?_
    rw [htf]
    exact reservedOk_userTask.congr hkeep
  | wait ht =>
    intro k u hu
    rcases task_set hu with ⟨-, he⟩ | ⟨-, hu⟩
    · cases he
    · exact h k u hu
  | kernel => exact h

theorem run_allReserved (hb : Boot σ₀) (hr : Run KeepsOut σ₀ σ) : AllReserved σ := by
  induction hr with
  | refl =>
    intro i t ht
    rw [hb.tasks i] at ht
    cases ht
  | tail _ hk hs ih => exact ih.step hk hs

theorem PlainCall.keepsOut {a : Act} (h : PlainCall σ a) : KeepsOut σ a := by
  cases a with
  | mmap i addr sz perm flag allocPhy => exact h
  | fault i stval scause => exact fun _ _ _ _ hle => absurd h (not_lt.mpr hle)
  | munmap i addr => exact h.elim
  | _ => exact PlainCall.orderly h

theorem munmap_over_trampoline :
    munmap { machine.phys with heapTop := 0x80301000 }
      { userTask 0x80001000 0x80300000 0 with tree := [⟨TRAMPOLINE, 4096, 2, 3⟩] } TRAMPOLINE =
    .ok (0, { machine.phys with heapTop := 0x80301000 },
      { userTask 0x80001000 0x80300000 0 with
        pagetable := Function.update (userTask 0x80001000 0x80300000 0).pagetable
          (vpn TRAMPOLINE) 0 }) := by
  have hl : locate MmapNode.addr [⟨TRAMPOLINE, 4096, 2, 3⟩] TRAMPOLINE =
      some ([], ⟨TRAMPOLINE, 4096, 2, 3⟩, []) := by decide
  rw [munmap, hl]
  rfl

end Zrhos.Mmap
