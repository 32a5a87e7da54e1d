import Zrhos.Vm.Table

/-! What `vm_map`, `vm_unmap` and `walkaddr` do to the map a page table stands for. -/
namespace Zrhos.Vm

variable {S : Supply} {s s' : Ram} {r : ℕ} {d d' : Dir} {t t' : Table}

/-! ### Mapping -/

/-- Entries for `n` pages from page number `v` on, onto the frames from `pa` on. -/
def mapPages (t : Table) (v pa n flags : ℕ) : Table := fun w =>
  if v ≤ w ∧ w < v + n then PA2PTE ((pa + (w - v) * PGSIZE) % WORD) ||| flags else t w

theorem mapPages_succ (t : Table) {v pa n flags : ℕ} (hpa : pa < WORD) :
    mapPages (Function.update t v (PA2PTE pa ||| flags)) (v + 1) ((pa + PGSIZE) % WORD) n flags =
      mapPages t v pa (n + 1) flags := by
  funext w
  unfold mapPages
  by_cases hw : w = v
  · subst hw
    rw [if_neg (by omega), if_pos (by omega), Function.update_self, Nat.sub_self, Nat.zero_mul,
      Nat.add_zero, Nat.mod_eq_of_lt hpa]
  · rw [Function.update_of_ne hw]
    by_cases hin : v + 1 ≤ w ∧ w < v + 1 + n
    · rw [if_pos hin, if_pos (by omega), Nat.mod_add_mod,
        show w - v = w - (v + 1) + 1 by omega, Nat.succ_mul]
      congr 3
      omega
    · rw [if_neg hin, if_neg (by omega)]

theorem vpn_add {va : ℕ} (h : vpn va + 1 < 2 ^ 27) : vpn (va + PGSIZE) = vpn va + 1 := by
  simp only [vpn, PGSIZE] at *
  omega

/-- One turn of the loop: the entry of `va` is set, then the loop stops or goes on. -/
theorem vmMapLoop_turn {last fuel va pa perm : ℕ} {remap : Bool} (h : Repr S r s d t)
    (hfree : remap = true ∨ t (vpn va) &&& PTE_V = 0) :
    (vmMapLoop S (S.page r) last perm remap (fuel + 1) s va pa = .error .noSpaceInHeap ∧
      S.count < s.next + 2) ∨
    ∃ s' d', Repr S r s' d' (Function.update t (vpn va) (PA2PTE pa ||| (sext32 perm ||| PTE_V))) ∧
      s'.next ≤ s.next + 2 ∧
      vmMapLoop S (S.page r) last perm remap (fuel + 1) s va pa =
        if va = last then .ok (0, s')
        else vmMapLoop S (S.page r) last perm remap fuel s' ((va + PGSIZE) % WORD)
          ((pa + PGSIZE) % WORD) := by
  rcases walk_alloc_spec h va with ⟨hw, hc⟩ | ⟨k, s₁, d₁, hw, hr, hk, hn⟩
  · refine Or.inl ⟨?_, hc⟩
    simp only [vmMapLoop, hw, bind, Except.bind]
  · refine Or.inr ⟨_, d₁, hr.setLeaf hk _, hn, ?_⟩
    have hgo : ¬ (s₁.word (entry (S.page k) (PX 0 va)) &&& PTE_V ≠ 0 ∧ (!remap) = true) := by
      rw [hr.leaf hk]
      rcases hfree with hf | hf <;> simp [hf]
    simp only [vmMapLoop, hw, bind, Except.bind, if_neg hgo, Nat.or_assoc]

theorem vmMapLoop_spec {m fuel va pa perm : ℕ} {remap : Bool} (h : Repr S r s d t)
    (hfuel : m < fuel) (hva : va + m * PGSIZE < WORD) (hv : vpn va + m < 2 ^ 27)
    (hpa : pa < WORD)
    (hfree : remap = true ∨ ∀ i ≤ m, t (vpn va + i) &&& PTE_V = 0) :
    (vmMapLoop S (S.page r) (va + m * PGSIZE) perm remap fuel s va pa = .error .noSpaceInHeap ∧
      S.count < s.next + 2 * (m + 1)) ∨
    ∃ s' d', vmMapLoop S (S.page r) (va + m * PGSIZE) perm remap fuel s va pa = .ok (0, s') ∧
      Repr S r s' d' (mapPages t (vpn va) pa (m + 1) (sext32 perm ||| PTE_V)) := by
  induction m generalizing fuel s d t va pa with
  | zero =>
    obtain ⟨fuel, rfl⟩ := Nat.exists_eq_succ_of_ne_zero (by omega : fuel ≠ 0)
    rcases vmMapLoop_turn h
      (hfree.imp_right fun hf => hf 0 le_rfl) with ⟨he, hc⟩ | ⟨s₁, d₁, hr, -, he⟩
    · exact Or.inl ⟨he, by omega⟩
    · rw [if_pos (by omega)] at he
      refine Or.inr ⟨s₁, d₁, he, ?_⟩
      rw [← mapPages_succ t hpa]
      convert hr using 1
      funext w
      exact if_neg (by omega)
  | succ m ih =>
    obtain ⟨fuel, rfl⟩ := Nat.exists_eq_succ_of_ne_zero (by omega : fuel ≠ 0)
    rcases vmMapLoop_turn
      h (hfree.imp_right fun hf => hf 0 (Nat.zero_le _)) with
      ⟨he, hc⟩ | ⟨s₁, d₁, hr, hn, he⟩
    · exact Or.inl ⟨he, by omega⟩
    · have hpos : 0 < (m + 1) * PGSIZE := Nat.mul_pos (Nat.succ_pos m) (by decide)
      have hlast : va + (m + 1) * PGSIZE = va + PGSIZE + m * PGSIZE := by ring
      have hnext : vpn (va + PGSIZE) = vpn va + 1 := vpn_add (by omega)
      rw [if_neg (by omega), Nat.mod_eq_of_lt (by omega)] at he
      rw [Nat.succ_eq_add_one, he, hlast]
      have hfree' : remap = true ∨ ∀ i ≤ m,
          Function.update t (vpn va) (PA2PTE pa ||| (sext32 perm ||| PTE_V))
            (vpn (va + PGSIZE) + i) &&& PTE_V = 0 := by
        refine hfree.imp_right fun hf i hi => ?_
        rw [hnext, Function.update_of_ne (by omega), show vpn va + 1 + i = vpn va + (i + 1) by omega]
        exact hf (i + 1) (by omega)
      have hm : m < fuel := by omega
      rcases ih hr hm (by omega) (by omega) (Nat.mod_lt _ (by decide)) hfree' with
        ⟨he', hc⟩ | ⟨s₂, d₂, he', hr'⟩
      · exact Or.inl ⟨he', by omega⟩
      · rw [hnext, mapPages_succ t hpa] at hr'
        exact Or.inr ⟨s₂, d₂, he', hr'⟩

/-- `vm_map` of an aligned range below the last table index sets one entry for each page
it touches. -/
theorem vmMap_spec {va pa sz perm : ℕ} {remap : Bool} (h : Repr S r s d t)
    (hva : va % PGSIZE = 0) (hsz : 0 < sz) (hend : va + sz ≤ WORD)
    (hv : vpn va + (sz - 1) / PGSIZE < 2 ^ 27) (hpa : pa < WORD)
    (hfree : remap = true ∨ ∀ i ≤ (sz - 1) / PGSIZE, t (vpn va + i) &&& PTE_V = 0) :
    (vmMap S s (S.page r) va pa sz perm remap = .error .noSpaceInHeap ∧
      S.count < s.next + 2 * ((sz - 1) / PGSIZE + 1)) ∨
    ∃ s' d', vmMap S s (S.page r) va pa sz perm remap = .ok (0, s') ∧
      Repr S r s' d'
        (mapPages t (vpn va) pa ((sz - 1) / PGSIZE + 1) (sext32 perm ||| PTE_V)) := by
  have hlast : pgRoundDown ((va + sz + WORD - 1) % WORD) = va + (sz - 1) / PGSIZE * PGSIZE := by
    rw [show va + sz + WORD - 1 = va + sz - 1 + WORD by omega, Nat.add_mod_right,
      Nat.mod_eq_of_lt (by omega), pgRoundDown]
    simp only [PGSIZE] at *
    omega
  have hlt : va + (sz - 1) / PGSIZE * PGSIZE < WORD := by
    have := Nat.div_mul_le_self (sz - 1) PGSIZE
    omega
  have hfuel : (sz - 1) / PGSIZE < WORD / PGSIZE :=
    (show (sz - 1) / PGSIZE < 2 ^ 27 by omega).trans (by decide)
  unfold vmMap
  rw [hlast]
  exact vmMapLoop_spec h hfuel hlt hv hpa hfree

/-! ### Unmapping -/

def unmapPages (t : Table) (v n : ℕ) : Table := fun w => if v ≤ w ∧ w < v + n then 0 else t w

theorem unmapPages_succ (t : Table) (v n : ℕ) :
    unmapPages (Function.update t v 0) (v + 1) n = unmapPages t v (n + 1) := by
  funext w
  unfold unmapPages
  by_cases hw : w = v
  · subst hw
    rw [if_neg (by omega), if_pos (by omega), Function.update_self]
  · rw [Function.update_of_ne hw]
    by_cases hin : v + 1 ≤ w ∧ w < v + 1 + n
    · rw [if_pos hin, if_pos (by omega)]
    · rw [if_neg hin, if_neg (by omega)]

/-- An entry that `vm_unmap` accepts. -/
def IsLeaf (pte : ℕ) : Prop := pte &&& PTE_V ≠ 0 ∧ PTE_FLAGS pte ≠ PTE_V

theorem Repr.leaf_of_ne_zero (h : Repr S r s d t) {va : ℕ} (ht : t (vpn va) ≠ 0) :
    ∃ k, d (.low (PX 2 va) (PX 1 va)) = some k :=
  Option.ne_none_iff_exists'.mp fun hd => ht (h.absent_leaf hd)

theorem IsLeaf.ne_zero {pte : ℕ} (h : IsLeaf pte) : pte ≠ 0 := by
  rintro rfl
  exact h.1 rfl

theorem vmUnmapLoop_spec {n fuel a : ℕ} (h : Repr S r s d t) (hfuel : n < fuel)
    (ha : a + n * PGSIZE < WORD) (hv : vpn a + n < 2 ^ 27)
    (hleaf : ∀ i < n, IsLeaf (t (vpn a + i))) :
    ∃ s', vmUnmapLoop S (S.page r) (a + n * PGSIZE) false fuel s a = .ok s' ∧
      Repr S r s' d (unmapPages t (vpn a) n) := by
  induction n generalizing fuel s t a with
  | zero =>
    obtain ⟨fuel, rfl⟩ := Nat.exists_eq_succ_of_ne_zero (by omega : fuel ≠ 0)
    refine ⟨s, by simp [vmUnmapLoop], ?_⟩
    convert h using 1
    funext w
    exact if_neg (by omega)
  | succ n ih =>
    obtain ⟨fuel, rfl⟩ := Nat.exists_eq_succ_of_ne_zero (by omega : fuel ≠ 0)
    have hl : IsLeaf (t (vpn a)) := hleaf 0 (Nat.succ_pos n)
    obtain ⟨k, hk⟩ := h.leaf_of_ne_zero hl.ne_zero
    have hw := walk_spec h a
    rw [hk, Option.map_some] at hw
    have hpos : 0 < (n + 1) * PGSIZE := Nat.mul_pos (Nat.succ_pos n) (by decide)
    have hstop : a + (n + 1) * PGSIZE = a + PGSIZE + n * PGSIZE := by ring
    have hturn : vmUnmapLoop S (S.page r) (a + (n + 1) * PGSIZE) false (fuel + 1) s a =
        vmUnmapLoop S (S.page r) (a + PGSIZE + n * PGSIZE) false fuel
          (setWord s (entry (S.page k) (PX 0 a)) 0) (a + PGSIZE) := by
      rw [vmUnmapLoop, if_pos (by omega), hw]
      simp only [bind, Except.bind, h.leaf hk, if_neg hl.1, if_neg hl.2, Bool.false_eq_true,
        ↓reduceIte, hstop]
      rw [Nat.mod_eq_of_lt (by omega)]
    rw [Nat.succ_eq_add_one, hturn]
    have hnext : vpn (a + PGSIZE) = vpn a + 1 := vpn_add (by omega)
    have hn : n < fuel := by omega
    obtain ⟨s', he, hr'⟩ := ih (a := a + PGSIZE) (h.setLeaf hk 0) hn
      (by omega) (by omega) (fun i hi => by
        rw [hnext, Function.update_of_ne (by omega),
          show vpn a + 1 + i = vpn a + (i + 1) by omega]
        exact hleaf (i + 1) (by omega))
    rw [hnext, unmapPages_succ] at hr'
    exact ⟨s', he, hr'⟩

theorem vmUnmap_spec {va npages : ℕ} (h : Repr S r s d t) (hva : va % PGSIZE = 0)
    (hend : va + npages * PGSIZE < WORD) (hv : vpn va + npages < 2 ^ 27)
    (hleaf : ∀ i < npages, IsLeaf (t (vpn va + i))) :
    ∃ s', vmUnmap S s (S.page r) va npages false = .ok s' ∧
      Repr S r s' d (unmapPages t (vpn va) npages) := by
  have hfuel : npages < WORD / PGSIZE + 1 :=
    (show npages < 2 ^ 27 by omega).trans (by decide)
  unfold vmUnmap
  rw [if_neg (by simpa using hva), Nat.mod_eq_of_lt hend]
  exact vmUnmapLoop_spec h hfuel hend hv hleaf

/-! ### Lookup -/

/-- `walkaddr` reads nothing but the entry of the page. -/
theorem walkaddr_spec (h : Repr S r s d t) (va : ℕ) :
    walkaddr S s (S.page r) va = .ok (
      if va ≥ MAXVA then 0
      else if t (vpn va) &&& PTE_V = 0 then 0
      else if t (vpn va) &&& PTE_U = 0 then 0
      else PTE2PA (t (vpn va)) ||| (va &&& 0xFFF)) := by
  unfold walkaddr
  split_ifs with hmax
  · rfl
  all_goals
    rw [walk_spec h va]
    cases hk : d (.low (PX 2 va) (PX 1 va)) with
    | none => simp_all [h.absent_leaf hk, bind, Except.bind, pure, Except.pure]
    | some k => simp_all [h.leaf hk, bind, Except.bind, pure, Except.pure]

/-! ### Code outside the page tables -/

/-- The pages `walk` can come through. -/
def IsTable (s : Ram) (pagetable p : ℕ) : Prop :=
  p = pagetable ∨ ∃ i < 512, s.word (entry pagetable i) &&& PTE_V ≠ 0 ∧
    (p = PTE2PA (s.word (entry pagetable i)) ∨
      ∃ j < 512, s.word (entry (PTE2PA (s.word (entry pagetable i))) j) &&& PTE_V ≠ 0 ∧
        p = PTE2PA (s.word (entry (PTE2PA (s.word (entry pagetable i))) j)))

theorem Repr.isTable (h : Repr S r s d t) {q : Path} {j : ℕ} (hj : d q = some j) :
    IsTable s (S.page r) (S.page j) := by
  have hmid {a k : ℕ} (hk : d (.mid a) = some k) :
      s.word (entry (S.page r) a) &&& PTE_V ≠ 0 ∧
        PTE2PA (s.word (entry (S.page r) a)) = S.page k := by
    have hw : s.word (entry (S.page r) a) = pointer S (some k) := by
      rw [h.words h.root a (h.bound hk), content, hk]
    rw [hw]
    exact pointer_valid S (h.lt_count hk)
  cases q with
  | root =>
    rw [h.root] at hj
    cases hj
    exact Or.inl rfl
  | mid a => exact Or.inr ⟨a, h.bound hj, (hmid hj).1, Or.inl (hmid hj).2.symm⟩
  | low a b =>
    obtain ⟨ha, hb⟩ := h.bound hj
    cases hk : d (.mid a) with
    | none =>
      rw [h.parent hk] at hj
      cases hj
    | some k =>
      obtain ⟨hv, hp⟩ := hmid hk
      have hw : s.word (entry (S.page k) b) = pointer S (some j) := by
        rw [h.words hk b hb, content, hj]
      refine Or.inr ⟨a, ha, hv, Or.inr ⟨b, hb, ?_⟩⟩
      rw [hp, hw]
      obtain ⟨hv', hp'⟩ := pointer_valid S (h.lt_count hj)
      exact ⟨hv', hp'.symm⟩

/-- Code that leaves the table pages alone leaves the map alone. -/
theorem Repr.frame (h : Repr S r s d t) (hn : s.next ≤ s'.next) (hc : s'.next ≤ S.count)
    (hw : ∀ p, IsTable s (S.page r) p → ∀ i < 512, s'.word (entry p i) = s.word (entry p i)) :
    Repr S r s' d t :=
  ⟨h.root, hc, fun hj => (h.issued hj).trans_le hn, h.injective,
    fun hj i hi => (hw _ (h.isTable hj) i hi).trans (h.words hj i hi), h.parent, h.bound,
    h.absent⟩

theorem vmCreate_spec (s : Ram) :
    (vmCreate S s = .error .noSpaceInHeap ∧ S.count ≤ s.next) ∨
      ∃ s' d, vmCreate S s = .ok (S.page s.next, s') ∧ Repr S s.next s' d (fun _ => 0) := by
  unfold vmCreate memMalloc
  by_cases hlt : s.next < S.count
  · refine Or.inr ⟨clearPage { s with next := s.next + 1 } (S.page s.next),
      fun q => if q = .root then some s.next else none, ?_,
      ⟨if_pos rfl, hlt, ?_, ?_, ?_, ?_, ?_, ?_⟩⟩
    · simp [hlt, S.ne_null _ hlt, bind, Except.bind, pure, Except.pure]
    · intro q j hj
      split_ifs at hj
      cases hj
      exact Nat.lt_succ_self _
    · intro q q' j hj hj'
      split_ifs at hj hj' with h1 h2
      rw [h1, h2]
    · intro q j hj i hi
      split_ifs at hj with hq
      cases hj
      subst hq
      simp [clearPage, entry_mem S hi, content, pointer]
    · intro a b _
      rfl
    · intro q j hj
      split_ifs at hj with hq
      subst hq
      trivial
    · intro a b i _ _ _
      rfl
  · exact Or.inl ⟨by simp [hlt, bind, Except.bind], not_lt.mp hlt⟩

end Zrhos.Vm
