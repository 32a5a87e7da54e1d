import Zrhos.Mmap.Counts

/-! Every operation on user memory is a sequence of moves, each of which rewrites one
entry of one page table (two for a shared page) and the counter of one frame. -/
namespace Zrhos.Mmap
open OrderedSet

def setPte (E : ℕ → ℕ → ℕ) (i v e : ℕ) : ℕ → ℕ → ℕ :=
  Function.update E i (Function.update (E i) v e)

/-- The pages at the top of every user page table. -/
def Reserved (v : ℕ) : Prop := v = vpn TRAMPOLINE ∨ v = vpn TRAPFRAME ∨ v = vpn USERRDONLYMAP

theorem not_reserved_of_lt {va : ℕ} (h : va < USERRDONLYMAP) : ¬ Reserved (vpn va) := by
  have h1 : vpn TRAMPOLINE = 2 ^ 26 - 1 := by decide
  have h2 : vpn TRAPFRAME = 2 ^ 26 - 2 := by decide
  have h3 : vpn USERRDONLYMAP = 2 ^ 26 - 3 := by decide
  have h4 : USERRDONLYMAP = 2 ^ 38 - 3 * 4096 := by decide
  have h5 : vpn va = va / 4096 := vpn_of_lt (h.trans (by decide))
  rw [Reserved, h1, h2, h3, h5]
  omega

/-- The moves on the frames and the page tables. `Q` holds of the regions they serve and
`C` of the frames, the address and the entry of a write fault. -/
inductive Move (Q : MmapNode → Prop) (C : Phys → ℕ → ℕ → Prop) :
    Phys × (ℕ → ℕ → ℕ) → Phys × (ℕ → ℕ → ℕ) → Prop where
  | map {s s₁ E i va pa n} : i < NTASK → Q n → E i (vpn va) &&& PTE_V = 0 →
      userPage s = .ok (pa, s₁) →
      Move Q C (s, E) (refCntInc s₁ pa, setPte E i (vpn va) (userPte pa n.perm))
  | grant {s E i va} : i < NTASK → C s va (E i (vpn va)) → E i (vpn va) &&& PTE_V ≠ 0 →
      s.ref va = 1 → Move Q C (s, E) (s, setPte E i (vpn va) (E i (vpn va) ||| PTE_W))
  | copy {s s₁ E i va pa} : i < NTASK → C s va (E i (vpn va)) → E i (vpn va) &&& PTE_V ≠ 0 →
      s.ref va ≠ 1 → userPage (refCntDec s (PTE2PA (E i (vpn va)))) = .ok (pa, s₁) →
      Move Q C (s, E)
        (refCntInc { s₁ with
          mem := Function.update s₁.mem pa (s₁.mem (PTE2PA (E i (vpn va)))) } pa,
        setPte E i (vpn va) (PA2PTE pa ||| PTE_FLAGS (E i (vpn va)) ||| PTE_W))
  | share {s E i j va n e} : i < NTASK → j < NTASK → i ≠ j → Q n → ¬ Reserved (vpn va) →
      E i (vpn va) &&& PTE_V ≠ 0 → E j (vpn va) &&& PTE_V = 0 →
      e = userPte (PTE2PA (E i (vpn va))) (copyPerm n) →
      Move Q C (s, E)
        (refCntInc s (PTE2PA (E i (vpn va))), setPte (setPte E i (vpn va) e) j (vpn va) e)
  | unmap {s E i va} : i < NTASK → E i (vpn va) &&& PTE_V ≠ 0 →
      Move Q C (s, E) (refCntDec s (PTE2PA (E i (vpn va))), setPte E i (vpn va) 0)

def Moves (Q : MmapNode → Prop) (C : Phys → ℕ → ℕ → Prop) (x y : Phys × (ℕ → ℕ → ℕ)) : Prop :=
  Relation.ReflTransGen (Move Q C) x y

/-- What every move preserves holds after an operation. -/
theorem Moves.preserves {Q : MmapNode → Prop} {C : Phys → ℕ → ℕ → Prop}
    {I : Phys → (ℕ → ℕ → ℕ) → Prop} (hstep : ∀ x y, Move Q C x y → I x.1 x.2 → I y.1 y.2)
    {x y : Phys × (ℕ → ℕ → ℕ)} (h : Moves Q C x y) (hx : I x.1 x.2) : I y.1 y.2 := by
  induction h with
  | refl => exact hx
  | tail _ hm ih => exact hstep _ _ hm ih

variable {Q : MmapNode → Prop} {C : Phys → ℕ → ℕ → Prop} {E : ℕ → ℕ → ℕ} {i j : ℕ}
  {s s' : Phys} {pt pt' npt npt' : ℕ → ℕ} {t t' : Task}

theorem setPte_update (v e : ℕ) :
    setPte (Function.update E i pt) i v e = Function.update E i (Function.update pt v e) := by
  unfold setPte
  rw [Function.update_self, Function.update_idem]

theorem setPte_update_of_ne (hij : i ≠ j) (v e : ℕ) :
    setPte (Function.update (Function.update E i pt) j npt) i v e =
      Function.update (Function.update E i (Function.update pt v e)) j npt := by
  rw [Function.update_comm hij, setPte_update, Function.update_comm hij.symm]

/-! ### Page faults -/

theorem accessPerm_eq_W {scause : ℕ} : accessPerm scause = PERM_W ↔ scause = 15 := by
  unfold accessPerm
  split_ifs with h1 h2 h3
  · simp [h1, PERM_X, PERM_W]
  · simp [h2, PERM_R, PERM_W]
  · simp [h3]
  · simp [h3, PERM_W]

theorem PTE_FLAGS_and_PTE_W (pte : ℕ) : PTE_FLAGS pte &&& PTE_W = pte &&& PTE_W := by
  rw [PTE_FLAGS, Nat.and_assoc]
  rfl

theorem regionAt_congr (h : t'.tree = t.tree) (va : ℕ) : regionAt t' va = regionAt t va := by
  unfold regionAt
  rw [h]

theorem regionAt_mem {va : ℕ} {n : MmapNode} (h : regionAt t va = some n) : n ∈ t.tree := by
  unfold regionAt at h
  split at h
  · cases h
  case _ m hm =>
    split_ifs at h
    cases h
    exact (List.takeWhile_sublist _).subset (List.mem_of_getLast? hm)

/-- All that a page fault can do. -/
theorem handlePagefault_cases {stval scause : ℕ}
    (h : handlePagefault s t stval scause = .ok (s', t')) :
    ∃ n, regionAt t (pgRoundDown stval) = some n ∧
      ((s' = s ∧ t' = t ∧
          (t.pagetable (vpn stval) &&& PTE_V ≠ 0 → scause = 15 →
            t.pagetable (vpn stval) &&& PTE_W ≠ 0)) ∨
        (∃ pa s₁, t.pagetable (vpn stval) &&& PTE_V = 0 ∧ userPage s = .ok (pa, s₁) ∧
          s' = refCntInc s₁ pa ∧
          t' = { t with
            pagetable := Function.update t.pagetable (vpn stval) (userPte pa n.perm) }) ∨
        (t.pagetable (vpn stval) &&& PTE_V ≠ 0 ∧ t.pagetable (vpn stval) &&& PTE_W = 0 ∧
          scause = 15 ∧ n.perm &&& PERM_W ≠ 0 ∧
          copyOnWrite s t (pgRoundDown stval) = .ok (s', t'))) := by
  have hfault := h
  unfold handlePagefault at h
  cases hn : regionAt t (pgRoundDown stval) with
  | none => simp [hn] at h
  | some n =>
    refine ⟨n, rfl, ?_⟩
    simp only [hn, vpn_pgRoundDown] at h
    by_cases hv : t.pagetable (vpn stval) &&& PTE_V = 0
    · by_cases ha : n.flag &&& MAP_ANONYMOUS = 0
      · simp only [hv, ha, ne_eq, not_true_eq_false, ↓reduceIte] at h
        cases h
        exact Or.inl ⟨rfl, rfl, fun hv' => absurd hv hv'⟩
      · obtain ⟨pa, s₁, hp, hs, ht⟩ := handlePagefault_absent hn hv ha hfault
        exact Or.inr (Or.inl ⟨pa, s₁, hv, hp, hs, ht⟩)
    · rw [if_pos hv] at h
      by_cases hd : n.perm &&& accessPerm scause = 0
      · rw [if_pos hd] at h
        cases h
      · rw [if_neg hd] at h
        simp only [PTE_FLAGS_and_PTE_W, accessPerm_eq_W] at h
        by_cases hw : t.pagetable (vpn stval) &&& PTE_W = 0 ∧ scause = 15
        · rw [if_pos hw] at h
          rw [accessPerm_eq_W.mpr hw.2] at hd
          exact Or.inr (Or.inr ⟨hv, hw.1, hw.2, hd, h⟩)
        · rw [if_neg hw] at h
          cases h
          exact Or.inl ⟨rfl, rfl, fun _ h15 hz => hw ⟨hz, h15⟩⟩

theorem copyOnWrite_move {va : ℕ} (hi : i < NTASK) (hC : C s va (t.pagetable (vpn va)))
    (hv : t.pagetable (vpn va) &&& PTE_V ≠ 0) (h : copyOnWrite s t va = .ok (s', t')) :
    Move Q C (s, Function.update E i t.pagetable) (s', Function.update E i t'.pagetable) ∧
      t' = { t with pagetable := t'.pagetable } := by
  have hE : Function.update E i t.pagetable i = t.pagetable := Function.update_self _ _ _
  unfold copyOnWrite at h
  dsimp only at h
  split at h
  case _ hr =>
    cases h
    have := Move.grant (Q := Q) (E := Function.update E i t.pagetable) hi (by rwa [hE])
      (by rwa [hE]) hr
    rw [setPte_update, hE] at this
    exact ⟨this, rfl⟩
  case _ hr =>
    obtain ⟨⟨pa, s₁⟩, hp, h⟩ := bind_ok h
    cases h
    have := Move.copy (Q := Q) (E := Function.update E i t.pagetable) hi
      (by rwa [hE]) (by rwa [hE]) hr (by rw [hE]; exact hp)
    rw [setPte_update, hE] at this
    exact ⟨this, rfl⟩

theorem handlePagefault_moves {stval scause : ℕ} (hi : i < NTASK) (hQ : ∀ n ∈ t.tree, Q n)
    (hC : t.pagetable (vpn stval) &&& PTE_V ≠ 0 → t.pagetable (vpn stval) &&& PTE_W = 0 →
      scause = 15 → C s (pgRoundDown stval) (t.pagetable (vpn stval)))
    (h : handlePagefault s t stval scause = .ok (s', t')) :
    Moves Q C (s, Function.update E i t.pagetable) (s', Function.update E i t'.pagetable) ∧
      t' = { t with pagetable := t'.pagetable } := by
  obtain ⟨n, hn, ⟨rfl, rfl, -⟩ | ⟨pa, s₁, hv, hp, rfl, rfl⟩ | ⟨hv, hw, h15, -, hcow⟩⟩ :=
    handlePagefault_cases h
  · exact ⟨.refl, rfl⟩
  · have := Move.map (C := C) (E := Function.update E i t.pagetable) hi
      (hQ n (regionAt_mem hn)) (by rwa [Function.update_self]) hp
    rw [setPte_update] at this
    exact ⟨.single this, rfl⟩
  · rw [← vpn_pgRoundDown] at hv hw hC
    obtain ⟨hm, ht⟩ := copyOnWrite_move (Q := Q) (E := E) hi (hC hv hw h15) hv hcow
    exact ⟨.single hm, ht⟩

/-! ### Loops over pages -/

theorem uvmMappagesLoop_moves {last : ℕ} {n : MmapNode} (hi : i < NTASK) (hQ : Q n) :
    ∀ {fuel a : ℕ} {s s' : Phys} {pt pt' : ℕ → ℕ},
      uvmMappagesLoop last n.perm fuel s pt a = .ok (s', pt') →
      Moves Q C (s, Function.update E i pt) (s', Function.update E i pt') := by
  intro fuel
  induction fuel with
  | zero =>
    intro a s s' pt pt' h
    cases h
  | succ fuel ih =>
    intro a s s' pt pt' h
    unfold uvmMappagesLoop at h
    obtain ⟨⟨pa, s₁⟩, hp, h⟩ := bind_ok h
    obtain ⟨pt₁, hm, h⟩ := bind_ok h
    obtain ⟨hv, -, rfl⟩ := uvmMap_eq_ok.mp hm
    have hmove := Move.map (C := C) (E := Function.update E i pt) hi hQ
      (by rw [Function.update_self]; exact hv.resolve_right (by simp)) hp
    rw [setPte_update] at hmove
    dsimp only at h
    split at h
    · cases h
      exact .single hmove
    · exact .head hmove (ih h)

theorem mmapByObj_moves {addr sz perm flag r : ℕ} {allocPhy : Bool} (hi : i < NTASK)
    (hQ : ∀ n : MmapNode, n.perm = perm → (flag &&& MAP_SHARED = 0 → n.flag &&& MAP_PRIVATE ≠ 0) →
      Q n)
    (h : mmapByObj s t addr sz perm flag allocPhy = .ok (r, s', t')) :
    Moves Q C (s, Function.update E i t.pagetable) (s', Function.update E i t'.pagetable) ∧
      t'.trapframe = t.trapframe ∧ ∀ n ∈ t'.tree, n ∈ t.tree ∨ Q n := by
  unfold mmapByObj at h
  split at h
  · cases h
  dsimp only at h
  split at h
  · cases h
  case _ tree hins =>
    -- the node that is inserted
    have hnode (a z : ℕ) : Q ⟨a, z, perm,
        if flag &&& MAP_SHARED = 0 then flag ||| MAP_PRIVATE else flag⟩ := by
      refine hQ _ rfl fun hs => ?_
      rw [if_pos hs, Nat.and_or_distrib_right]
      intro hz
      have := Nat.right_le_or (n := flag &&& MAP_PRIVATE) (m := MAP_PRIVATE &&& MAP_PRIVATE)
      rw [hz] at this
      exact absurd this (by decide)
    have hmem : ∀ n ∈ tree, n ∈ t.tree ∨ Q n := by
      intro n hn
      rcases (insert_mem hins n).mp hn with rfl | hn
      · exact Or.inr (hnode _ _)
      · exact Or.inl hn
    split at h
    · obtain ⟨⟨s₁, pt₁⟩, hu, h⟩ := bind_ok h
      cases h
      refine ⟨?_, rfl, hmem⟩
      unfold uvmMappages at hu
      split at hu
      · cases hu
        exact .refl
      · exact uvmMappagesLoop_moves hi (hnode 0 0) hu
    · cases h
      exact ⟨.refl, rfl, hmem⟩

theorem unmapPages_moves (hi : i < NTASK) {vas : List ℕ}
    (h : unmapPages vas s pt = .ok (s', pt')) :
    Moves Q C (s, Function.update E i pt) (s', Function.update E i pt') := by
  induction vas generalizing s pt with
  | nil =>
    cases h
    exact .refl
  | cons va vas ih =>
    unfold unmapPages at h
    dsimp only at h
    split at h
    · exact ih h
    case _ hv =>
      split at h
      · cases h
      split at h
      · cases h
      have hmove := Move.unmap (Q := Q) (C := C) (s := s) (E := Function.update E i pt) hi
        (by rwa [Function.update_self])
      rw [setPte_update, Function.update_self] at hmove
      exact .head hmove (ih h)

theorem munmap_moves {addr : ℕ} {r : ℤ} (hi : i < NTASK)
    (h : munmap s t addr = .ok (r, s', t')) :
    Moves Q C (s, Function.update E i t.pagetable) (s', Function.update E i t'.pagetable) ∧
      t'.trapframe = t.trapframe ∧ ∀ n ∈ t'.tree, n ∈ t.tree := by
  unfold munmap at h
  split at h
  · cases h
    exact ⟨.refl, rfl, fun _ hn => hn⟩
  case _ xs n ys hl =>
    obtain ⟨⟨s₁, pt₁⟩, hu, h⟩ := bind_ok h
    cases h
    refine ⟨unmapPages_moves hi hu, rfl, fun m hm => ?_⟩
    obtain ⟨hsplit, -⟩ := locate_eq_some hl
    rw [hsplit]
    rcases List.mem_append.mp hm with hm | hm
    · exact List.mem_append_left _ hm
    · exact List.mem_append_right _ (List.mem_cons_of_mem _ hm)

theorem copyAll_moves (hi : i < NTASK) (hj : j < NTASK) (hij : i ≠ j)
    {ps : List (MmapNode × ℕ)} (hQ : ∀ p ∈ ps, Q p.1)
    (hres : ∀ v, Reserved v → npt v &&& PTE_V ≠ 0)
    (h : copyAll ps s pt npt = .ok (s', pt', npt')) :
    Moves Q C (s, Function.update (Function.update E i pt) j npt)
      (s', Function.update (Function.update E i pt') j npt') := by
  induction ps generalizing s pt npt with
  | nil =>
    cases h
    exact .refl
  | cons p ps ih =>
    obtain ⟨n, va⟩ := p
    have hQ' : ∀ p ∈ ps, Q p.1 := fun p hp => hQ p (List.mem_cons_of_mem _ hp)
    unfold copyAll at h
    obtain ⟨⟨s₁, pt₁, npt₁⟩, h1, h2⟩ := bind_ok h
    by_cases hv : pt (vpn va) &&& PTE_V = 0
    · rw [copyPage, if_pos hv] at h1
      cases h1
      exact ih hQ' hres h2
    · rw [copyPage, if_neg hv] at h1
      obtain ⟨pt₂, hpt, h1⟩ := bind_ok h1
      obtain ⟨npt₂, hnpt, h1⟩ := bind_ok h1
      cases h1
      obtain ⟨-, -, rfl⟩ := uvmMap_eq_ok.mp hpt
      obtain ⟨hvac, -, rfl⟩ := uvmMap_eq_ok.mp hnpt
      have hvac : npt (vpn va) &&& PTE_V = 0 := hvac.resolve_right (by simp)
      have hrow : Function.update (Function.update E i pt) j npt i = pt := by
        rw [Function.update_of_ne hij, Function.update_self]
      have hmove := Move.share (Q := Q) (C := C) (s := s)
        (E := Function.update (Function.update E i pt) j npt) hi hj hij
        (hQ (n, va) List.mem_cons_self) (fun hr => hres _ hr hvac) (by rwa [hrow])
        (by rwa [Function.update_self]) rfl
      rw [hrow, setPte_update_of_ne hij, setPte_update] at hmove
      refine .head hmove (ih hQ' (fun v hr => ?_) h2)
      by_cases hva : v = vpn va
      · rw [hva, Function.update_self]
        exact userPte_valid _ _
      · rw [Function.update_of_ne hva]
        exact hres v hr

end Zrhos.Mmap
