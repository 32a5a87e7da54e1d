import Zrhos.Mmap.Moves

/-! Moves keep the counters equal to the number of mappings. -/
namespace Zrhos.Mmap

/-- A user page table: an entry the user cannot reach is the trampoline or the trapframe,
and the read-only kernel page is mapped at its own place only. -/
structure TableOk (trampoline : ℕ) (trapframe : Option ℕ) (pt : ℕ → ℕ) : Prop where
  kernel : ∀ v, pt v &&& PTE_V ≠ 0 → pt v &&& PTE_U = 0 →
    (v = vpn TRAMPOLINE ∧ PTE2PA (pt v) = trampoline) ∨
      (v = vpn TRAPFRAME ∧ trapframe = some (PTE2PA (pt v)) ∧ pt v &&& PTE_W ≠ 0)
  rdonly : ∀ v, pt v &&& PTE_V ≠ 0 → PTE2PA (pt v) = USERRDONLY → v = vpn USERRDONLYMAP

/-- The frames the kernel keeps for itself. -/
def KernelFrame (trampoline : ℕ) (trapframe : ℕ → Option ℕ) (P : ℕ) : Prop :=
  P = trampoline ∨ ∃ i, trapframe i = some P

/-- The counters are the mappings in the tables `E` and `d` mappings elsewhere. -/
structure Accounted (trampoline : ℕ) (trapframe : ℕ → Option ℕ) (d : ℕ → ℕ) (s : Phys)
    (E : ℕ → ℕ → ℕ) : Prop where
  counts : CountsOk (KernelFrame trampoline trapframe) s fun P => mapCount E P + d P
  tables : ∀ i, TableOk trampoline (trapframe i) (E i)

variable {trampoline : ℕ} {trapframe : ℕ → Option ℕ} {d : ℕ → ℕ} {s s' : Phys}
  {E : ℕ → ℕ → ℕ} {i v e P : ℕ} {tf : Option ℕ} {pt : ℕ → ℕ}

theorem setPte_self : setPte E i v e i = Function.update (E i) v e := Function.update_self _ _ _

theorem setPte_of_ne {k : ℕ} (h : k ≠ i) : setPte E i v e k = E k := Function.update_of_ne h _ _

theorem mapCount_setPte (hi : i < NTASK) (hv : v < NPTE) :
    mapCount (setPte E i v e) P + (if UserMaps (E i v) P then 1 else 0) =
      mapCount E P + if UserMaps e P then 1 else 0 := by
  have hentry : rowCount (Function.update (E i) v e) P + (if UserMaps (E i v) P then 1 else 0) =
      rowCount (E i) P + if UserMaps e P then 1 else 0 := rowCount_update hv
  have hrow : mapCount (setPte E i v e) P + rowCount (E i) P =
      mapCount E P + rowCount (Function.update (E i) v e) P := mapCount_update_row hi
  omega

theorem UserMaps.iff_eq {Q : ℕ} (h : UserMaps e P) : UserMaps e Q ↔ Q = P :=
  ⟨fun hQ => hQ.2.2.symm.trans h.2.2, fun hQ => hQ ▸ h⟩

theorem TableOk.update (h : TableOk trampoline tf pt)
    (he : e &&& PTE_V ≠ 0 → e &&& PTE_U ≠ 0 ∧ PTE2PA e ≠ USERRDONLY) :
    TableOk trampoline tf (Function.update pt v e) := by
  refine ⟨fun w hw hu => ?_, fun w hw hp => ?_⟩
  · by_cases hwv : w = v
    · rw [hwv, Function.update_self] at hw hu
      exact absurd hu (he hw).1
    · rw [Function.update_of_ne hwv] at hw hu ⊢
      exact h.kernel w hw hu
  · by_cases hwv : w = v
    · rw [hwv, Function.update_self] at hw hp
      exact absurd hp (he hw).2
    · rw [Function.update_of_ne hwv] at hw hp
      exact h.rdonly w hw hp

theorem TableOk.grant (h : TableOk trampoline tf pt) (hu : pt v &&& PTE_U ≠ 0) :
    TableOk trampoline tf (Function.update pt v (pt v ||| PTE_W)) := by
  refine ⟨fun w hw hu' => ?_, fun w hw hp => ?_⟩
  · by_cases hwv : w = v
    · rw [hwv, Function.update_self] at hu'
      rw [← not_ne_iff, user_iff, Nat.testBit_or, user_iff.mp hu] at hu'
      simp at hu'
    · rw [Function.update_of_ne hwv] at hw hu' ⊢
      exact h.kernel w hw hu'
  · by_cases hwv : w = v
    · rw [hwv, Function.update_self] at hw hp
      rw [PTE2PA_or_PTE_W] at hp
      rw [valid_iff, Nat.testBit_or, show PTE_W.testBit 0 = false by decide, Bool.or_false,
        ← valid_iff] at hw
      exact hwv.trans (h.rdonly v hw hp)
    · rw [Function.update_of_ne hwv] at hw hp
      exact h.rdonly w hw hp

theorem tables_setPte (h : ∀ k, TableOk trampoline (trapframe k) (E k))
    (hi : TableOk trampoline (trapframe i) (Function.update (E i) v e)) (k : ℕ) :
    TableOk trampoline (trapframe k) (setPte E i v e k) := by
  by_cases hk : k = i
  · rw [hk, setPte_self]
    exact hi
  · rw [setPte_of_ne hk]
    exact h k

/-- Either kind of entry a table holds. -/
theorem Accounted.entry (h : Accounted trampoline trapframe d s E) (hv : E i v &&& PTE_V ≠ 0) :
    UserMaps (E i v) (PTE2PA (E i v)) ∨
      (E i v &&& PTE_U = 0 ∧ KernelFrame trampoline trapframe (PTE2PA (E i v))) := by
  by_cases hu : E i v &&& PTE_U = 0
  · right
    refine ⟨hu, ?_⟩
    rcases (h.tables i).kernel v hv hu with ⟨-, hp⟩ | ⟨-, hp, -⟩
    · exact Or.inl hp
    · exact Or.inr ⟨i, hp⟩
  · exact Or.inl ⟨hv, hu, rfl⟩

theorem Accounted.kernel_unmapped (h : Accounted trampoline trapframe d s E)
    (hP : KernelFrame trampoline trapframe P) : mapCount E P + d P = 0 := by
  obtain ⟨hu, hr⟩ := h.counts.kernel P hP
  rw [← h.counts.counts P (hu.ne_rdonly h.counts.frames), hr]

/-- Counting a page down together with the entry that maps it. -/
theorem Accounted.drop (h : Accounted trampoline trapframe d s E) (hi : i < NTASK)
    (hn : v < NPTE) (hv : E i v &&& PTE_V ≠ 0) :
    Accounted trampoline trapframe d (refCntDec s (PTE2PA (E i v))) (setPte E i v 0) := by
  refine ⟨h.counts.dec fun P hP => ?_, tables_setPte h.tables ((h.tables i).update (by simp))⟩
  have hset := mapCount_setPte (E := E) (e := 0) (P := P) hi hn
  rw [if_neg (not_userMaps_zero P)] at hset
  rcases h.entry hv with hm | ⟨hu, hk⟩
  · simp only [hm.iff_eq] at hset
    split_ifs at hset ⊢ <;> omega
  · have hnot : ¬ UserMaps (E i v) P := fun hm => hm.2.1 hu
    rw [if_neg hnot] at hset
    split_ifs with hPk
    · have := h.kernel_unmapped hk
      rw [← hPk] at this
      omega
    · omega

/-- Mapping a new page into a vacant entry. -/
theorem Accounted.fill {s₁ : Phys} {pa : ℕ} (h : Accounted trampoline trapframe d s E)
    (hi : i < NTASK) (hn : v < NPTE) (hv : ∀ P, ¬ UserMaps (E i v) P)
    (hp : userPage s = .ok (pa, s₁)) (he : UserMaps e pa) :
    Accounted trampoline trapframe d (refCntInc s₁ pa) (setPte E i v e) := by
  have htaken := (userPage_taken h.counts.frames hp).1
  refine ⟨h.counts.take hp fun P hP => ?_, tables_setPte h.tables ((h.tables i).update fun _ => ?_)⟩
  · have hset := mapCount_setPte (E := E) (e := e) (P := P) hi hn
    rw [if_neg (hv P)] at hset
    simp only [he.iff_eq] at hset
    omega
  · exact ⟨he.2.1, he.2.2 ▸ htaken.inUse.ne_rdonly htaken.frames⟩

theorem Accounted.withMem (h : Accounted trampoline trapframe d s E) (mem : ℕ → ℕ → ℕ) :
    Accounted trampoline trapframe d { s with mem := mem } E :=
  ⟨h.counts.withMem mem, h.tables⟩

theorem not_userMaps_of_invalid (h : e &&& PTE_V = 0) (P : ℕ) : ¬ UserMaps e P :=
  fun hm => hm.1 h

theorem setPte_setPte (e' : ℕ) : setPte (setPte E i v e) i v e' = setPte E i v e' := by
  unfold setPte
  rw [Function.update_self, Function.update_idem, Function.update_idem]

/-- A page that a fork can copy. -/
theorem Accounted.copied_entry (h : Accounted trampoline trapframe d s E) (hr : ¬ Reserved v)
    (hv : E i v &&& PTE_V ≠ 0) :
    UserMaps (E i v) (PTE2PA (E i v)) ∧ PTE2PA (E i v) ≠ USERRDONLY := by
  have hne : PTE2PA (E i v) ≠ USERRDONLY := fun hp =>
    hr (Or.inr (Or.inr ((h.tables i).rdonly v hv hp)))
  refine ⟨⟨hv, fun hu => ?_, rfl⟩, hne⟩
  rcases (h.tables i).kernel v hv hu with ⟨hk, -⟩ | ⟨hk, -⟩
  · exact hr (Or.inl hk)
  · exact hr (Or.inr (Or.inl hk))

theorem Accounted.ref_pos (h : Accounted trampoline trapframe d s E) (hi : i < NTASK)
    (hn : v < NPTE) (hm : UserMaps (E i v) P) (hP : P ≠ USERRDONLY) : s.ref P ≠ 0 := by
  have := mapCount_pos hi hn hm
  rw [h.counts.counts P hP]
  omega

/-- Mapping a page a second time. -/
theorem Accounted.duplicate {j : ℕ} (h : Accounted trampoline trapframe d s E) (hi : i < NTASK)
    (hj : j < NTASK) (hij : i ≠ j) (hn : v < NPTE) (hm : UserMaps (E i v) P)
    (hP : P ≠ USERRDONLY) (hv : ∀ P, ¬ UserMaps (E j v) P) (he : UserMaps e P) :
    Accounted trampoline trapframe d (refCntInc s P) (setPte (setPte E i v e) j v e) := by
  have hrow : setPte E i v e j = E j := setPte_of_ne hij.symm
  have htable (pt : ℕ → ℕ) (tf : Option ℕ) (ht : TableOk trampoline tf pt) :
      TableOk trampoline tf (Function.update pt v e) :=
    ht.update fun _ => ⟨he.2.1, he.2.2 ▸ hP⟩
  refine ⟨h.counts.inc (h.ref_pos hi hn hm hP) fun R _ => ?_, ?_⟩
  · have h1 := mapCount_setPte (E := E) (e := e) (P := R) hi hn
    have h2 := mapCount_setPte (E := setPte E i v e) (e := e) (P := R) hj hn
    rw [hrow, if_neg (hv R)] at h2
    simp only [hm.iff_eq, he.iff_eq] at h1 h2
    omega
  · refine tables_setPte (tables_setPte h.tables (htable _ _ (h.tables i))) ?_
    rw [hrow]
    exact htable _ _ (h.tables j)

/-- Every move preserves the accounts, as long as permissions carry no frame bits and
write faults are on pages of the user. -/
theorem Accounted.move {Q : MmapNode → Prop} {C : Phys → ℕ → ℕ → Prop}
    (hQ : ∀ n, Q n → PermOk n.perm) (hC : ∀ s va pte, C s va pte → pte &&& PTE_U ≠ 0)
    (x y : Phys × (ℕ → ℕ → ℕ)) (hm : Move Q C x y)
    (h : Accounted trampoline trapframe d x.1 x.2) :
    Accounted trampoline trapframe d y.1 y.2 := by
  cases hm with
  | @map s s₁ E i va pa n hi hn hv hp =>
    have ht := (userPage_taken h.counts.frames hp).1
    exact h.fill hi (vpn_lt va) (not_userMaps_of_invalid hv) hp
      (userMaps_userPte (hQ n hn) ht.inUse.aligned (ht.inUse.lt_word ht.frames))
  | @grant s E i va hi hc hv hr =>
    refine ⟨h.counts.congr fun P _ => ?_, tables_setPte h.tables ((h.tables i).grant (hC _ _ _ hc))⟩
    have hset := mapCount_setPte (E := E) (e := E i (vpn va) ||| PTE_W) (P := P) hi (vpn_lt va)
    simp only [userMaps_or_PTE_W] at hset
    dsimp only
    omega
  | @copy s s₁ E i va pa hi hc hv hr hp =>
    -- the old entry is dropped before the new one is filled in
    have hdrop := h.drop hi (vpn_lt va) hv
    have ht := (userPage_taken hdrop.counts.frames hp).1
    have hmaps : UserMaps (E i (vpn va)) (PTE2PA (E i (vpn va))) := ⟨hv, hC _ _ _ hc, rfl⟩
    have hfill := hdrop.fill hi (vpn_lt va)
      (by rw [setPte_self, Function.update_self]; exact not_userMaps_zero) hp
      (userMaps_copied hmaps ht.inUse.aligned (ht.inUse.lt_word ht.frames))
    rw [setPte_setPte] at hfill
    exact hfill.withMem _
  | @share s E i j va n e hi hj hij hn hr hv hvac he =>
    obtain ⟨hmaps, hne⟩ := h.copied_entry hr hv
    refine h.duplicate hi hj hij (vpn_lt va) hmaps hne (not_userMaps_of_invalid hvac) ?_
    rw [he]
    exact userMaps_userPte (hQ n hn).copyPerm (PTE2PA_mod _) (PTE2PA_lt _)
  | unmap hi hv => exact h.drop hi (vpn_lt _) hv

end Zrhos.Mmap
