import Zrhos.Mmap.Perm
import Zrhos.Mmap.Frames

/-! The entries that page faults and forks install. `copy_mmap` is brought into the form
of one loop over the pages of all regions. -/
namespace Zrhos.Mmap
open OrderedSet

variable {s s' : Phys} {pt npt pt' npt' : ℕ → ℕ} {t t' nt nt' : Task}

theorem uvmMap_eq_ok {va pa perm : ℕ} {remap : Bool} :
    uvmMap pt va pa perm remap = .ok pt' ↔
      (pt (vpn va) &&& PTE_V = 0 ∨ remap = true) ∧ va % PGSIZE = 0 ∧
        pt' = Function.update pt (vpn va) (userPte pa perm) := by
  unfold uvmMap userPte
  split_ifs with h ha
  · simp only [false_iff]
    rintro ⟨h1 | h1, -⟩
    · exact h.1 h1
    · simp [h1] at h
  · simp [ha]
  · rw [Except.ok.injEq, eq_comm]
    refine ⟨fun he => ⟨?_, not_not.mp ha, he⟩, fun he => he.2.2⟩
    by_contra hn
    push Not at hn
    exact h ⟨hn.1, by simpa using hn.2⟩

/-- The pages of the regions with the region each belongs to. -/
def regionPages (ns : List MmapNode) : List (MmapNode × ℕ) :=
  ns.flatMap fun n => n.vas.map fun va => (n, va)

theorem mem_regionPages {ns : List MmapNode} {n : MmapNode} {va : ℕ} :
    (n, va) ∈ regionPages ns ↔ n ∈ ns ∧ va ∈ n.vas := by
  simp only [regionPages, List.mem_flatMap, List.mem_map, Prod.mk.injEq]
  constructor
  · rintro ⟨m, hm, va', hva, rfl, rfl⟩
    exact ⟨hm, hva⟩
  · rintro ⟨hn, hva⟩
    exact ⟨n, hn, va, hva, rfl, rfl⟩

def copyAll : List (MmapNode × ℕ) → Phys → (ℕ → ℕ) → (ℕ → ℕ) →
    Except Stop (Phys × (ℕ → ℕ) × (ℕ → ℕ))
  | [], s, pt, npt => .ok (s, pt, npt)
  | (n, va) :: ps, s, pt, npt => do
    let (s, pt, npt) ← copyPage n s pt npt va
    copyAll ps s pt npt

theorem copyAll_append (ps qs : List (MmapNode × ℕ)) (s : Phys) (pt npt : ℕ → ℕ) :
    copyAll (ps ++ qs) s pt npt =
      (do let (s, pt, npt) ← copyAll ps s pt npt
          copyAll qs s pt npt) := by
  induction ps generalizing s pt npt with
  | nil => rfl
  | cons p ps ih =>
    simp only [List.cons_append, copyAll, ih, bind_assoc]

theorem copyPages_eq (n : MmapNode) (vas : List ℕ) (s : Phys) (pt npt : ℕ → ℕ) :
    copyPages n vas s pt npt = copyAll (vas.map fun va => (n, va)) s pt npt := by
  induction vas generalizing s pt npt with
  | nil => rfl
  | cons va vas ih => simp only [copyPages, List.map_cons, copyAll, ih]

theorem copyRegions_ok {ns : List MmapNode} (h : copyRegions ns s t nt = .ok (s', t', nt')) :
    copyAll (regionPages ns) s t.pagetable nt.pagetable =
        .ok (s', t'.pagetable, nt'.pagetable) ∧
      t' = { t with pagetable := t'.pagetable } ∧ nt'.trapframe = nt.trapframe ∧
      ∀ m, m ∈ nt'.tree ↔ m ∈ nt.tree ∨ m ∈ ns := by
  induction ns generalizing s t nt with
  | nil =>
    cases h
    exact ⟨rfl, rfl, rfl, by simp⟩
  | cons n ns ih =>
    unfold copyRegions at h
    split at h
    · cases h
    case _ tree hi =>
      obtain ⟨⟨s₁, pt₁, npt₁⟩, h1, h2⟩ := bind_ok h
      obtain ⟨hall, ht, hnt, hmem⟩ := ih h2
      refine ⟨?_, ht, hnt, fun m => ?_⟩
      · rw [copyPages_eq] at h1
        rw [regionPages, List.flatMap_cons, copyAll_append, h1]
        exact hall
      · rw [hmem, insert_mem hi, List.mem_cons]
        tauto

/-- What a fork leaves in the two page tables. -/
structure Copied (ps : List (MmapNode × ℕ)) (pt npt pt' npt' : ℕ → ℕ) : Prop where
  vacant : ∀ p ∈ ps, pt (vpn p.2) &&& PTE_V ≠ 0 → npt (vpn p.2) &&& PTE_V = 0
  installed : ∀ p ∈ ps, pt (vpn p.2) &&& PTE_V ≠ 0 →
    pt' (vpn p.2) = userPte (PTE2PA (pt (vpn p.2))) (copyPerm p.1) ∧
      npt' (vpn p.2) = userPte (PTE2PA (pt (vpn p.2))) (copyPerm p.1)
  kept : ∀ v, (∀ p ∈ ps, vpn p.2 = v → pt v &&& PTE_V = 0) → pt' v = pt v ∧ npt' v = npt v

theorem userPte_valid (pa perm : ℕ) : userPte pa perm &&& PTE_V ≠ 0 := or_PTE_V_valid _

theorem copyAll_copied {ps : List (MmapNode × ℕ)}
    (h : copyAll ps s pt npt = .ok (s', pt', npt')) : Copied ps pt npt pt' npt' := by
  induction ps generalizing s pt npt with
  | nil =>
    cases h
    exact ⟨by simp, by simp, fun _ _ => ⟨rfl, rfl⟩⟩
  | cons p ps ih =>
    obtain ⟨n, va⟩ := p
    unfold copyAll at h
    obtain ⟨⟨s₁, pt₁, npt₁⟩, h1, h2⟩ := bind_ok h
    have hrest := ih h2
    by_cases hv : pt (vpn va) &&& PTE_V = 0
    · rw [copyPage, if_pos hv] at h1
      cases h1
      refine ⟨?_, ?_, ?_⟩
      · intro p hp hpv
        rcases List.mem_cons.mp hp with rfl | hp
        · exact absurd hv hpv
        · exact hrest.vacant p hp hpv
      · intro p hp hpv
        rcases List.mem_cons.mp hp with rfl | hp
        · exact absurd hv hpv
        · exact hrest.installed p hp hpv
      · exact fun v hkeep => hrest.kept v fun p hp => hkeep p (List.mem_cons_of_mem _ hp)
    · rw [copyPage, if_neg hv] at h1
      obtain ⟨pt₂, hpt, h1⟩ := bind_ok h1
      obtain ⟨npt₂, hnpt, h1⟩ := bind_ok h1
      cases h1
      obtain ⟨-, -, rfl⟩ := uvmMap_eq_ok.mp hpt
      obtain ⟨hvac, -, rfl⟩ := uvmMap_eq_ok.mp hnpt
      have hvac : npt (vpn va) &&& PTE_V = 0 := hvac.resolve_right (by simp)
      -- a second visit to this page would find it mapped in the new table
      have honce : ∀ p ∈ ps, vpn p.2 ≠ vpn va := by
        intro p hp he
        have := hrest.vacant p hp (by rw [he, Function.update_self]; exact userPte_valid _ _)
        rw [he, Function.update_self] at this
        exact userPte_valid _ _ this
      obtain ⟨hpt', hnpt'⟩ := hrest.kept (vpn va) fun p hp he => absurd he (honce p hp)
      rw [Function.update_self] at hpt' hnpt'
      refine ⟨?_, ?_, ?_⟩
      · intro p hp hpv
        rcases List.mem_cons.mp hp with rfl | hp
        · exact hvac
        · have hne := honce p hp
          have := hrest.vacant p hp (by rwa [Function.update_of_ne hne])
          rwa [Function.update_of_ne hne] at this
      · intro p hp hpv
        rcases List.mem_cons.mp hp with rfl | hp
        · exact ⟨hpt', hnpt'⟩
        · have hne := honce p hp
          have := hrest.installed p hp (by rwa [Function.update_of_ne hne])
          rwa [Function.update_of_ne hne] at this
      · intro v hkeep
        have hne : v ≠ vpn va := fun he => hv (by
          have := hkeep (n, va) List.mem_cons_self he.symm
          rwa [he] at this)
        obtain ⟨h1, h2⟩ := hrest.kept v fun p hp he => by
          rw [Function.update_of_ne hne]
          exact hkeep p (List.mem_cons_of_mem _ hp) he
        rw [Function.update_of_ne hne] at h1 h2
        exact ⟨h1, h2⟩

theorem copyMmap_ok (h : copyMmap s t nt = .ok (s', t', nt')) :
    copyAll (regionPages t.tree) s t.pagetable nt.pagetable =
        .ok (s', t'.pagetable, nt'.pagetable) ∧
      t' = { t with pagetable := t'.pagetable } ∧ nt'.trapframe = nt.trapframe ∧
      ∀ m, m ∈ nt'.tree ↔ m ∈ nt.tree ∨ m ∈ t.tree := by
  unfold copyMmap at h
  obtain ⟨⟨s₁, t₁, nt₁⟩, h1, h2⟩ := bind_ok h
  cases h2
  obtain ⟨hall, ht, hnt, hmem⟩ := copyRegions_ok h1
  exact ⟨hall, ht, hnt, hmem⟩

/-! ### Page faults -/

theorem vpn_pgRoundDown (a : ℕ) : vpn (pgRoundDown a) = vpn a := by
  simp only [vpn, pgRoundDown, PGSIZE]
  omega

/-- A fault on an absent page of an anonymous region maps a new page. -/
theorem handlePagefault_absent {stval scause : ℕ} {n : MmapNode}
    (hn : regionAt t (pgRoundDown stval) = some n) (hv : t.pagetable (vpn stval) &&& PTE_V = 0)
    (ha : n.flag &&& MAP_ANONYMOUS ≠ 0) (h : handlePagefault s t stval scause = .ok (s', t')) :
    ∃ pa s₁, userPage s = .ok (pa, s₁) ∧ s' = refCntInc s₁ pa ∧
      t' = { t with
        pagetable := Function.update t.pagetable (vpn stval) (userPte pa n.perm) } := by
  unfold handlePagefault at h
  simp only [hn, vpn_pgRoundDown, hv, ne_eq, not_true_eq_false, ↓reduceIte, ha,
    not_false_eq_true] at h
  obtain ⟨⟨pa, s₁⟩, h1, h⟩ := bind_ok h
  obtain ⟨pt, h2, h⟩ := bind_ok h
  cases h
  obtain ⟨-, -, rfl⟩ := uvmMap_eq_ok.mp h2
  exact ⟨pa, s₁, h1, rfl, by rw [vpn_pgRoundDown]⟩

/-- The fault succeeds whenever there is a page left. -/
theorem handlePagefault_of_userPage {stval scause pa : ℕ} {n : MmapNode} {s₁ : Phys}
    (hn : regionAt t (pgRoundDown stval) = some n) (hv : t.pagetable (vpn stval) &&& PTE_V = 0)
    (ha : n.flag &&& MAP_ANONYMOUS ≠ 0) (hp : userPage s = .ok (pa, s₁)) :
    handlePagefault s t stval scause = .ok (refCntInc s₁ pa, { t with
      pagetable := Function.update t.pagetable (vpn stval) (userPte pa n.perm) }) := by
  have hmap : uvmMap t.pagetable (pgRoundDown stval) pa n.perm false =
      .ok (Function.update t.pagetable (vpn stval) (userPte pa n.perm)) := by
    refine uvmMap_eq_ok.mpr ⟨Or.inl ?_, pgRoundDown_mod _, ?_⟩
    · rw [vpn_pgRoundDown, hv]
    · rw [vpn_pgRoundDown]
  unfold handlePagefault
  simp only [hn, vpn_pgRoundDown, hv, ne_eq, not_true_eq_false, ↓reduceIte, ha,
    not_false_eq_true]
  rw [hp]
  change (uvmMap t.pagetable (pgRoundDown stval) pa n.perm false >>= _) = _
  rw [hmap]
  rfl

theorem userPage_ok {pa : ℕ} (h : userPage s = .ok (pa, s')) :
    ∃ s₁, memMalloc s = .ok (pa, s₁) ∧ s' = { s₁ with handed := pa :: s₁.handed } := by
  unfold userPage at h
  obtain ⟨⟨pa', s₁⟩, h1, h2⟩ := bind_ok h
  cases h2
  exact ⟨s₁, h1, rfl⟩

theorem memMalloc_taken {pa : ℕ} (h : FramesOk s) (hm : memMalloc s = .ok (pa, s')) :
    Taken s s' pa := by
  rcases memMalloc_spec h with he | ⟨p, s₁, he, ht, -⟩
  · rw [hm] at he
    cases he
  · rw [hm] at he
    cases he
    exact ht

/-! ### User-chosen permissions -/

/-- The permission word reaches the region unchanged. -/
theorem sysMmap_perm {addr sz perm flag r : ℕ}
    (h : sysMmap s t addr sz perm flag = .ok (r, s', t')) :
    ∃ n ∈ t'.tree, n.addr = r ∧ n.sz = pgRoundUp sz ∧ n.perm = perm ∧
      n.flag &&& MAP_ANONYMOUS = flag &&& MAP_ANONYMOUS := by
  unfold sysMmap mmapByObj at h
  split at h
  · cases h
  dsimp only at h
  split at h
  · cases h
  case _ tree hi =>
    simp only [Bool.false_eq_true, ↓reduceIte, Except.ok.injEq, Prod.mk.injEq] at h
    obtain ⟨rfl, -, rfl⟩ := h
    refine ⟨_, (insert_mem hi _).mpr (Or.inl rfl), rfl, rfl, rfl, ?_⟩
    dsimp only
    split_ifs
    · rw [Nat.and_or_distrib_right]
      exact Nat.or_zero _
    · rfl

/-- Whatever permission word a user passes, the entries that later faults and forks
install are clean exactly when its upper bits are harmless for the frame. -/
theorem installed_entries_clean_iff (h : FramesOk s) :
    (∀ addr sz perm flag r s' t', sysMmap s t addr sz perm flag = .ok (r, s', t') →
      ∃ n ∈ t'.tree, n.addr = r ∧ n.sz = pgRoundUp sz ∧ n.perm = perm ∧
        n.flag &&& MAP_ANONYMOUS = flag &&& MAP_ANONYMOUS) ∧
    (∀ n stval scause s' t', regionAt t (pgRoundDown stval) = some n →
      n.flag &&& MAP_ANONYMOUS ≠ 0 → t.pagetable (vpn stval) &&& PTE_V = 0 →
      handlePagefault s t stval scause = .ok (s', t') →
      ∃ pa s₁, memMalloc s = .ok (pa, s₁) ∧
        (Clean (t'.pagetable (vpn stval)) pa n.perm ↔ Harmless n.perm pa)) ∧
    ∀ nt s' t' nt' n va, copyMmap s t nt = .ok (s', t', nt') → n ∈ t.tree → va ∈ n.vas →
      t.pagetable (vpn va) &&& PTE_V ≠ 0 →
      (Clean (t'.pagetable (vpn va)) (PTE2PA (t.pagetable (vpn va))) (copyPerm n) ↔
        Harmless (copyPerm n) (PTE2PA (t.pagetable (vpn va)))) ∧
      (Clean (nt'.pagetable (vpn va)) (PTE2PA (t.pagetable (vpn va))) (copyPerm n) ↔
        Harmless (copyPerm n) (PTE2PA (t.pagetable (vpn va)))) := by
  refine ⟨fun _ _ _ _ _ _ _ he => sysMmap_perm he, ?_, ?_⟩
  · intro n stval scause s' t' hn ha hv he
    obtain ⟨pa, s₁, hp, -, rfl⟩ := handlePagefault_absent hn hv ha he
    obtain ⟨s₂, hm, -⟩ := userPage_ok hp
    have ht := memMalloc_taken h hm
    refine ⟨pa, s₂, hm, ?_⟩
    simp only [Function.update_self]
    exact userPte_clean_iff n.perm ht.inUse.aligned (ht.inUse.lt_word ht.frames)
  · intro nt s' t' nt' n va he hn hva hv
    obtain ⟨hall, -⟩ := copyMmap_ok he
    obtain ⟨h1, h2⟩ := (copyAll_copied hall).installed (n, va)
      (mem_regionPages.mpr ⟨hn, hva⟩) hv
    rw [h1, h2]
    exact ⟨userPte_clean_iff _ (PTE2PA_mod _) (PTE2PA_lt _),
      userPte_clean_iff _ (PTE2PA_mod _) (PTE2PA_lt _)⟩

/-- The task of one anonymous page at `0x10000000`. -/
theorem installed_entries_clean_iff_rw : ∃ (s s' : Phys) (t t' : Task),
    FramesOk s ∧ handlePagefault s t 0x10000000 15 = .ok (s', t') ∧
      Clean (t'.pagetable (vpn 0x10000000)) 0x80200000 6 := by
  let s := mmapInit (fun _ _ => 0) [] 0x80200000
  let t : Task := { userTask 0x80000000 0x80100000 0 with tree := [⟨0x10000000, 4096, 6, 3⟩] }
  have h : FramesOk s := ⟨by simp [s, mmapInit], by simp [s, mmapInit], by simp [s, mmapInit],
    by simp [s, mmapInit], by decide, by decide, by decide⟩
  have hok : (handlePagefault s t 0x10000000 15).toBool = true := by decide
  obtain ⟨s', t', he⟩ : ∃ s' t', handlePagefault s t 0x10000000 15 = .ok (s', t') := by
    cases he : handlePagefault s t 0x10000000 15 with
    | error e => simp [he, Except.toBool] at hok
    | ok r => exact ⟨r.1, r.2, rfl⟩
  obtain ⟨pa, s₁, hm, hiff⟩ := (installed_entries_clean_iff (t := t) h).2.1
    ⟨0x10000000, 4096, 6, 3⟩ 0x10000000 15 s' t' (by decide) (by decide) (by decide) he
  cases hm
  exact ⟨s, s', t, t', h, he, hiff.mpr (harmless_of_lt _ (by decide))⟩

/-- Bit 10 of the permission word moves the mapping to the next frame. -/
theorem perm_moves_mapping :
    (do let (_, s, t) ← sysMmap (mmapInit (fun _ _ => 0) [] 0x80200000)
          (userTask 0x80000000 0x80100000 0) 0x10000000 4096 0x406 1
        let (pa, _) ← memMalloc s
        let (_, t) ← handlePagefault s t 0x10000000 15
        return (pa, PTE2PA (t.pagetable (vpn 0x10000000)))) =
      (.ok (0x80200000, 0x80201000) : Except Stop (ℕ × ℕ)) := by decide

end Zrhos.Mmap
