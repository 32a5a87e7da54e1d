import Zrhos.Mmap.Teardown
import Zrhos.Mmap.Reserved

/-! Copy-on-write against eager copies. In the reference model each task has its own copy
of every present private page; a fork copies them all. -/
namespace Zrhos.Mmap
open OrderedSet

variable {trampoline : ℕ} {trapframe : ℕ → Option ℕ} {d : ℕ → ℕ} {σ σ₀ σ' : Sys}
  {s s' : Phys} {E E' : ℕ → ℕ → ℕ} {i j v e P : ℕ} {t t' nt : Task} {pt pt' : ℕ → ℕ}

/-! ### Writable pages have one user -/

/-- A page that some entry lets its user write is counted once. -/
def WritableOnce (s : Phys) (E : ℕ → ℕ → ℕ) : Prop :=
  ∀ i v P, i < NTASK → v < NPTE → UserMaps (E i v) P → E i v &&& PTE_W ≠ 0 → s.ref P = 1

/-- Private regions whose permissions carry no frame bits. -/
def PrivateRegion (n : MmapNode) : Prop := PermOk n.perm ∧ n.flag &&& MAP_PRIVATE ≠ 0

/-- A write fault on a page of the user whose virtual address has a counter of one exactly
when its frame has. -/
def CountedAlike (s : Phys) (va pte : ℕ) : Prop :=
  pte &&& PTE_U ≠ 0 ∧ (s.ref va = 1 ↔ s.ref (PTE2PA pte) = 1)

theorem one_lt_mapCount {k w : ℕ} (hi : i < NTASK) (hv : v < NPTE) (hk : k < NTASK)
    (hw : w < NPTE) (hne : (i, v) ≠ (k, w)) (h : UserMaps (E i v) P) (h' : UserMaps (E k w) P) :
    1 < mapCount E P :=
  Tally.one_lt_tally (p := (UserMaps · P)) (f := fun x : ℕ × ℕ => E x.1 x.2) (x := (i, v))
    (y := (k, w)) (Finset.mem_product.mpr ⟨mem_upTo hi, mem_upTo hv⟩)
    (Finset.mem_product.mpr ⟨mem_upTo hk, mem_upTo hw⟩) hne h h'

/-- Two entries for one page: it is counted more than once. -/
theorem Accounted.ref_ne_one {k w : ℕ} (h : Accounted trampoline trapframe d s E) (hi : i < NTASK)
    (hv : v < NPTE) (hk : k < NTASK) (hw : w < NPTE) (hne : (i, v) ≠ (k, w))
    (hm : UserMaps (E i v) P) (hm' : UserMaps (E k w) P) : s.ref P ≠ 1 := by
  intro hr
  have hP : P ≠ USERRDONLY := (h.counts.used P (by rw [hr]; decide)).ne_rdonly h.counts.frames
  have hcount := h.counts.counts P hP
  have := one_lt_mapCount hi hv hk hw hne hm hm'
  omega

theorem setPte_apply {k w : ℕ} (h : (k, w) ≠ (i, v)) : setPte E i v e k w = E k w := by
  by_cases hk : k = i
  · rw [hk, setPte_self, Function.update_of_ne fun hw => h (by rw [hk, hw])]
  · rw [setPte_of_ne hk]

theorem setPte_same : setPte E i v e i v = e := by rw [setPte_self, Function.update_self]

/-- One entry is rewritten, and the counters of the pages behind the other writable
entries stay. -/
theorem WritableOnce.rewrite (h : WritableOnce s E)
    (hkeep : ∀ k w R, k < NTASK → w < NPTE → (k, w) ≠ (i, v) → UserMaps (E k w) R →
      s.ref R = 1 → s'.ref R = 1)
    (hnew : ∀ R, UserMaps e R → e &&& PTE_W ≠ 0 → s'.ref R = 1) :
    WritableOnce s' (setPte E i v e) := by
  intro k w R hk hw hm hwr
  by_cases hkw : (k, w) = (i, v)
  · obtain ⟨rfl, rfl⟩ := Prod.mk.inj hkw
    rw [setPte_same] at hm hwr
    exact hnew R hm hwr
  · rw [setPte_apply hkw] at hm hwr
    exact hkeep k w R hk hw hkw hm (h k w R hk hw hm hwr)

theorem not_writable_copyPerm {n : MmapNode} (hn : n.flag &&& MAP_PRIVATE ≠ 0) (pa : ℕ) :
    userPte pa (copyPerm n) &&& PTE_W = 0 := by
  by_contra h
  rw [← ne_eq, writable_userPte, copyPerm, if_pos hn, Nat.testBit_and] at h
  exact absurd h (by simp [show (WORD - 1 - PTE_W).testBit 2 = false by decide])

theorem refCntInc_ref_of_ne {q : ℕ} (h : q ≠ P) : (refCntInc s P).ref q = s.ref q := by
  rw [refCntInc_ref, if_neg h]

theorem refCntDec_ref_of_ne {q : ℕ} (h : Accounted trampoline trapframe d s E) (hq : q ≠ P) :
    (refCntDec s P).ref q = s.ref q := by
  rw [(refCntDec_spec h.counts.frames (h.counts.used P)).ref_eq, if_neg hq]

/-- A page just taken has no counter yet. -/
theorem Accounted.taken_ne {pa R : ℕ} {s₁ : Phys} (h : Accounted trampoline trapframe d s E)
    (hp : userPage s = .ok (pa, s₁)) (hr : s.ref R ≠ 0) : R ≠ pa :=
  fun he => (userPage_taken h.counts.frames hp).1.free (he ▸ h.counts.used R hr)

theorem Accounted.taken_ref {pa : ℕ} {s₁ : Phys} (h : Accounted trampoline trapframe d s E)
    (hp : userPage s = .ok (pa, s₁)) : (refCntInc s₁ pa).ref pa = 1 := by
  have ht := (userPage_taken h.counts.frames hp).1
  rw [refCntInc_ref, if_pos rfl, ht.ref_eq, h.counts.ref_fresh ht.free]

theorem WritableOnce.move {x y : Phys × (ℕ → ℕ → ℕ)} (hm : Move PrivateRegion CountedAlike x y)
    (ha : Accounted trampoline trapframe d x.1 x.2) (h : WritableOnce x.1 x.2) :
    WritableOnce y.1 y.2 := by
  cases hm with
  | @map s s₁ E i va pa n hi hn hv hp =>
    have ht := (userPage_taken ha.counts.frames hp).1
    refine h.rewrite (fun k w R hk hw hne hmaps hr => ?_) fun R hmaps _ => ?_
    · rw [refCntInc_ref_of_ne (ha.taken_ne hp (by rw [hr]; decide)), ht.ref_eq, hr]
    · have hpa := userMaps_userPte hn.1 ht.inUse.aligned (ht.inUse.lt_word ht.frames)
      rw [(hpa.iff_eq.mp hmaps)]
      exact ha.taken_ref hp
  | @grant s E i va hi hc hv hr =>
    refine h.rewrite (fun _ _ _ _ _ _ _ hr => hr) fun R hmaps _ => ?_
    rw [userMaps_or_PTE_W] at hmaps
    rw [← hmaps.2.2]
    exact hc.2.mp hr
  | @copy s s₁ E i va pa hi hc hv hr hp =>
    have hdrop := ha.drop hi (vpn_lt va) hv
    have ht := (userPage_taken hdrop.counts.frames hp).1
    have hne1 : s.ref (PTE2PA (E i (vpn va))) ≠ 1 := fun h1 => hr (hc.2.mpr h1)
    refine h.rewrite (fun k w R hk hw hne hmaps hR => ?_) fun R hmaps _ => ?_
    · have hRP : R ≠ PTE2PA (E i (vpn va)) := fun he => hne1 (he ▸ hR)
      have hdec : (refCntDec s (PTE2PA (E i (vpn va)))).ref R = 1 := by
        rw [refCntDec_ref_of_ne ha hRP, hR]
      change (refCntInc s₁ pa).ref R = 1
      rw [refCntInc_ref_of_ne (hdrop.taken_ne hp (by rw [hdec]; decide)), ht.ref_eq, hdec]
    · have hmaps' : UserMaps (E i (vpn va)) (PTE2PA (E i (vpn va))) := ⟨hv, hc.1, rfl⟩
      have hpa := userMaps_copied hmaps' ht.inUse.aligned (ht.inUse.lt_word ht.frames)
      rw [hpa.iff_eq.mp hmaps]
      change (refCntInc s₁ pa).ref pa = 1
      exact hdrop.taken_ref hp
  | @share s E i j va n e hi hj hij hn hres hv hvac he =>
    obtain ⟨hmaps, hP⟩ := ha.copied_entry hres hv
    have hnw : e &&& PTE_W = 0 := he ▸ not_writable_copyPerm hn.2 _
    have hkeep (k w R : ℕ) (hk : k < NTASK) (hw : w < NPTE) (hne : (k, w) ≠ (i, vpn va))
        (hmR : UserMaps (E k w) R) (hR : s.ref R = 1) :
        (refCntInc s (PTE2PA (E i (vpn va)))).ref R = 1 := by
      have hRP : R ≠ PTE2PA (E i (vpn va)) := by
        rintro rfl
        exact ha.ref_ne_one hk hw hi (vpn_lt va) hne hmR hmaps hR
      rw [refCntInc_ref_of_ne hRP, hR]
    have hfirst : WritableOnce (refCntInc s (PTE2PA (E i (vpn va)))) (setPte E i (vpn va) e) :=
      h.rewrite hkeep fun _ _ hw => absurd hnw hw
    exact hfirst.rewrite (fun _ _ _ _ _ _ _ hr => hr) fun _ _ hw => absurd hnw hw
  | @unmap s E i va hi hv =>
    refine h.rewrite (fun k w R hk hw hne hmR hR => ?_) fun R hmaps _ => ?_
    · rcases ha.entry hv with hmaps | ⟨hu, hkern⟩
      · have hRP : R ≠ PTE2PA (E i (vpn va)) := by
          rintro rfl
          exact ha.ref_ne_one hk hw hi (vpn_lt va) hne hmR hmaps hR
        rw [refCntDec_ref_of_ne ha hRP, hR]
      · have hRP : R ≠ PTE2PA (E i (vpn va)) := by
          rintro rfl
          rw [(ha.counts.kernel _ hkern).2] at hR
          cases hR
        rw [refCntDec_ref_of_ne ha hRP, hR]
    · exact absurd hmaps (not_userMaps_zero R)

theorem privateRegion_perm (n : MmapNode) (h : PrivateRegion n) : PermOk n.perm := h.1

theorem countedAlike_user (s : Phys) (va pte : ℕ) (h : CountedAlike s va pte) :
    pte &&& PTE_U ≠ 0 := h.1

theorem WritableOnce.moves {x y : Phys × (ℕ → ℕ → ℕ)}
    (hm : Moves PrivateRegion CountedAlike x y) (ha : Accounted trampoline trapframe d x.1 x.2)
    (h : WritableOnce x.1 x.2) : WritableOnce y.1 y.2 :=
  (hm.preserves (I := fun s E => Accounted trampoline trapframe d s E ∧ WritableOnce s E)
    (fun x y hm h => ⟨h.1.move privateRegion_perm countedAlike_user x y hm, h.2.move hm h.1⟩)
    ⟨ha, h⟩).2

/-! ### Views -/

/-- The bytes of a page as its user sees them. The read-only kernel page is nobody's. -/
def viewPte (s : Phys) (pte : ℕ) : Option (ℕ → ℕ) :=
  if UserMaps pte (PTE2PA pte) ∧ PTE2PA pte ≠ USERRDONLY then some (s.mem (PTE2PA pte)) else none

def viewOf (s : Phys) (E : ℕ → ℕ → ℕ) (i v : ℕ) : Option (ℕ → ℕ) :=
  if i < NTASK ∧ v < NPTE then viewPte s (E i v) else none

theorem viewPte_of_maps (h : UserMaps e P) (hP : P ≠ USERRDONLY) :
    viewPte s e = some (s.mem P) := by
  obtain ⟨hv, hu, rfl⟩ := h
  exact if_pos ⟨⟨hv, hu, rfl⟩, hP⟩

theorem viewPte_of_not (h : ∀ P, P ≠ USERRDONLY → ¬ UserMaps e P) : viewPte s e = none :=
  if_neg fun hm => h _ hm.2 hm.1

/-- Either kind of entry. -/
theorem viewPte_cases (s : Phys) (e : ℕ) :
    (∃ P, UserMaps e P ∧ P ≠ USERRDONLY ∧ viewPte s e = some (s.mem P)) ∨
      ((∀ P, P ≠ USERRDONLY → ¬ UserMaps e P) ∧ viewPte s e = none) := by
  by_cases h : UserMaps e (PTE2PA e) ∧ PTE2PA e ≠ USERRDONLY
  · exact Or.inl ⟨_, h.1, h.2, if_pos h⟩
  · have hno : ∀ P, P ≠ USERRDONLY → ¬ UserMaps e P := by
      rintro P hP ⟨hv, hu, rfl⟩
      exact h ⟨⟨hv, hu, rfl⟩, hP⟩
    exact Or.inr ⟨hno, viewPte_of_not hno⟩

/-- Views agree where entries map the same pages and those pages hold the same bytes. -/
theorem viewPte_congr {e' : ℕ} (hm : ∀ P, P ≠ USERRDONLY → (UserMaps e P ↔ UserMaps e' P))
    (hmem : ∀ P, P ≠ USERRDONLY → UserMaps e P → s'.mem P = s.mem P) :
    viewPte s' e' = viewPte s e := by
  rcases viewPte_cases s e with ⟨P, hP, hne, hv⟩ | ⟨hno, hv⟩
  · rw [hv, viewPte_of_maps ((hm P hne).mp hP) hne, hmem P hne hP]
  · rw [hv, viewPte_of_not fun P hP h => hno P hP ((hm P hP).mpr h)]

theorem viewOf_congr (hE : E' i v = E i v)
    (hmem : ∀ P, i < NTASK → v < NPTE → P ≠ USERRDONLY → UserMaps (E i v) P →
      s'.mem P = s.mem P) : viewOf s' E' i v = viewOf s E i v := by
  unfold viewOf
  split_ifs with h
  · rw [hE]
    exact viewPte_congr (fun _ _ => Iff.rfl) fun P hP hm => hmem P h.1 h.2 hP hm
  · rfl

/-! ### The reference model -/

/-- Task and page number to the task's own copy of the page, if it is present. -/
abbrev Views : Type := ℕ → ℕ → Option (ℕ → ℕ)

/-- Pages that become present bring the bytes the allocator left in them. -/
def refPresent (r fresh : Views) (i : ℕ) : Views :=
  Function.update r i fun v => (r i v).orElse fun _ => fresh i v

/-- Fork copies every present page of a region. -/
def refFork (r : Views) (i j : ℕ) (pages : List ℕ) : Views :=
  Function.update r j fun v => if v ∈ pages then r i v else none

def refMunmap (r : Views) (i : ℕ) (pages : List ℕ) : Views :=
  Function.update r i fun v => if v ∈ pages then none else r i v

def refStore (r : Views) (i va b : ℕ) : Views :=
  Function.update r i (Function.update (r i) (vpn va)
    ((r i (vpn va)).map fun page => Function.update page (va % PGSIZE) b))

/-- The numbers of the pages of a region. -/
def MmapNode.vpns (n : MmapNode) : List ℕ := n.vas.map vpn

/-- The step of the reference model that goes with a step of the system. -/
def refStep (σ σ' : Sys) (r : Views) : Act → Views
  | .create i _ => Function.update r i fun _ => none
  | .mmap i _ _ _ _ _ => refPresent r (viewOf σ'.phys (rows σ')) i
  | .fault i _ _ => refPresent r (viewOf σ'.phys (rows σ')) i
  | .store i va b => refStore r i va b
  | .fork i j _ =>
    match σ.task i with
    | none => r
    | some t => refFork r i j (t.tree.flatMap MmapNode.vpns)
  | .munmap i addr =>
    match σ.task i with
    | none => r
    | some t =>
      match locate MmapNode.addr t.tree addr with
      | none => r
      | some (_, n, _) => refMunmap r i n.vpns
  | _ => r

/-! ### Steps and views -/

theorem memMalloc_mem {pa : ℕ} (h : memMalloc s = .ok (pa, s')) : s'.mem = s.mem := by
  unfold memMalloc at h
  split at h
  · cases h
    rfl
  · split_ifs at h
    cases h
    rfl

theorem userPage_mem {pa : ℕ} (h : userPage s = .ok (pa, s')) : s'.mem = s.mem := by
  obtain ⟨s₁, hm, rfl⟩ := userPage_ok h
  have := memMalloc_mem hm
  exact this

theorem uvmMappagesLoop_mem {last perm fuel a : ℕ}
    (h : uvmMappagesLoop last perm fuel s pt a = .ok (s', pt')) : s'.mem = s.mem := by
  induction fuel generalizing s pt a with
  | zero => cases h
  | succ fuel ih =>
    unfold uvmMappagesLoop at h
    obtain ⟨⟨pa, s₁⟩, hp, h⟩ := bind_ok h
    obtain ⟨pt₁, -, h⟩ := bind_ok h
    have hmem : s₁.mem = s.mem := userPage_mem hp
    dsimp only at h
    split at h
    · cases h
      exact hmem
    · exact (ih h).trans hmem

theorem mmapByObj_mem {addr sz perm flag r : ℕ} {allocPhy : Bool}
    (h : mmapByObj s t addr sz perm flag allocPhy = .ok (r, s', t')) : s'.mem = s.mem := by
  unfold mmapByObj at h
  split at h
  · cases h
  dsimp only at h
  split at h
  · cases h
  split at h
  · obtain ⟨⟨s₁, pt₁⟩, hu, h⟩ := bind_ok h
    cases h
    unfold uvmMappages at hu
    split at hu
    · cases hu
      rfl
    · exact uvmMappagesLoop_mem hu
  · cases h
    rfl

/-- An operation on the pages of one task that hides nothing. -/
theorem viewOf_present
    (hother : ∀ k v, k ≠ i → viewOf s' E' k v = viewOf s E k v)
    (hself : ∀ v page, viewOf s E i v = some page → viewOf s' E' i v = some page) :
    viewOf s' E' = refPresent (viewOf s E) (viewOf s' E') i := by
  funext k v
  by_cases hk : k = i
  · subst hk
    rw [refPresent, Function.update_self]
    cases hv : viewOf s E k v with
    | none => rfl
    | some page => exact hself v page hv
  · rw [refPresent, Function.update_of_ne hk]
    exact hother k v hk

theorem viewOf_some {page : ℕ → ℕ} (h : viewOf s E i v = some page) :
    i < NTASK ∧ v < NPTE ∧ ∃ P, UserMaps (E i v) P ∧ P ≠ USERRDONLY ∧ page = s.mem P := by
  unfold viewOf at h
  split_ifs at h with hr
  rcases viewPte_cases s (E i v) with ⟨P, hP, hne, hv⟩ | ⟨-, hv⟩
  · rw [hv] at h
    exact ⟨hr.1, hr.2, P, hP, hne, (Option.some.inj h).symm⟩
  · rw [hv] at h
    cases h

theorem viewOf_of_maps (hi : i < NTASK) (hv : v < NPTE) (h : UserMaps (E i v) P)
    (hP : P ≠ USERRDONLY) : viewOf s E i v = some (s.mem P) := by
  rw [viewOf, if_pos ⟨hi, hv⟩, viewPte_of_maps h hP]

/-- Filling vacant entries of one table, with the bytes of all pages left alone. -/
theorem viewOf_fill (hmem : s'.mem = s.mem)
    (hkeep : ∀ v, pt v &&& PTE_V ≠ 0 → pt' v = pt v) :
    viewOf s' (Function.update E i pt') =
      refPresent (viewOf s (Function.update E i pt)) (viewOf s' (Function.update E i pt')) i := by
  refine viewOf_present (fun k v hk => ?_) fun v page hv => ?_
  · exact viewOf_congr (by rw [Function.update_of_ne hk, Function.update_of_ne hk])
      fun _ _ _ _ _ => by rw [hmem]
  · obtain ⟨-, -, P, hP, -⟩ := viewOf_some hv
    rw [Function.update_self] at hP
    rw [← hv]
    exact viewOf_congr (by rw [Function.update_self, Function.update_self, hkeep v hP.1])
      fun _ _ _ _ _ => by rw [hmem]

/-- A copy-on-write fault is invisible. -/
theorem viewOf_copyOnWrite {va : ℕ} (hi : i < NTASK)
    (ha : Accounted trampoline trapframe d s (Function.update E i t.pagetable))
    (hc : CountedAlike s va (t.pagetable (vpn va))) (hv : t.pagetable (vpn va) &&& PTE_V ≠ 0)
    (h : copyOnWrite s t va = .ok (s', t')) :
    viewOf s' (Function.update E i t'.pagetable) =
      refPresent (viewOf s (Function.update E i t.pagetable))
        (viewOf s' (Function.update E i t'.pagetable)) i := by
  have hmaps : UserMaps (t.pagetable (vpn va)) (PTE2PA (t.pagetable (vpn va))) := ⟨hv, hc.1, rfl⟩
  have hrow : Function.update E i t.pagetable i = t.pagetable := Function.update_self _ _ _
  unfold copyOnWrite at h
  dsimp only at h
  split at h
  · cases h
    dsimp only
    refine viewOf_present (fun k v hk => ?_) fun v page hpage => ?_
    · exact viewOf_congr (by rw [Function.update_of_ne hk, Function.update_of_ne hk])
        fun _ _ _ _ _ => rfl
    · obtain ⟨-, hn, P, hP, hne, rfl⟩ := viewOf_some hpage
      rw [hrow] at hP
      refine viewOf_of_maps hi hn ?_ hne
      rw [Function.update_self]
      by_cases hvv : v = vpn va
      · rw [hvv] at hP ⊢
        rw [Function.update_self]
        exact userMaps_or_PTE_W.mpr hP
      · rwa [Function.update_of_ne hvv]
  case _ hr =>
    obtain ⟨⟨pa, s₁⟩, hp, h⟩ := bind_ok h
    cases h
    dsimp only
    have hne1 : s.ref (PTE2PA (t.pagetable (vpn va))) ≠ 1 := fun h1 => hr (hc.2.mpr h1)
    have hdrop := ha.drop hi (vpn_lt va) (by rwa [hrow])
    rw [hrow] at hdrop
    have ht := (userPage_taken hdrop.counts.frames hp).1
    have hdec := refCntDec_spec ha.counts.frames (ha.counts.used (PTE2PA (t.pagetable (vpn va))))
    -- pages that are counted before keep their bytes and are not the new one
    have hold (R : ℕ) (hR : s.ref R ≠ 0) : R ≠ pa ∧ s₁.mem R = s.mem R := by
      refine ⟨hdrop.taken_ne hp ?_, ?_⟩
      · rw [hdec.ref_eq]
        split_ifs with hRP
        · rw [hRP] at hR
          omega
        · exact hR
      · rw [userPage_mem hp]
        exact hdec.mem_eq R (ha.counts.used R hR) (Or.inr hne1)
    have hmem (R : ℕ) (hR : s.ref R ≠ 0) :
        Function.update s₁.mem pa (s₁.mem (PTE2PA (t.pagetable (vpn va)))) R = s.mem R := by
      rw [Function.update_of_ne (hold R hR).1, (hold R hR).2]
    refine viewOf_present (fun k v hk => ?_) fun v page hpage => ?_
    · refine viewOf_congr (by rw [Function.update_of_ne hk, Function.update_of_ne hk])
        fun R hki hvn hR hmR => hmem R (ha.ref_pos hki hvn hmR hR)
    · obtain ⟨-, hn, P, hP, hne, rfl⟩ := viewOf_some hpage
      have hPref := ha.ref_pos hi hn hP hne
      rw [hrow] at hP
      by_cases hvv : v = vpn va
      · rw [hvv] at hP
        have hnew := userMaps_copied hP ht.inUse.aligned (ht.inUse.lt_word ht.frames)
        have hPe : PTE2PA (t.pagetable (vpn va)) = P := hP.2.2
        rw [viewOf_of_maps (P := pa) hi hn ?_ (ht.inUse.ne_rdonly ht.frames)]
        · change some (Function.update s₁.mem pa (s₁.mem (PTE2PA (t.pagetable (vpn va)))) pa) = _
          rw [Function.update_self, hPe, (hold P hPref).2]
        · rw [Function.update_self, hvv, Function.update_self]
          exact hnew
      · rw [viewOf_of_maps (P := P) hi hn ?_ hne]
        · exact congrArg some (hmem P hPref)
        · rwa [Function.update_self, Function.update_of_ne hvv]

theorem testBit_of_and_eq {x n k : ℕ} (h : x &&& n = n) (hk : n.testBit k = true) :
    x.testBit k = true := by
  rw [← h, Nat.testBit_and] at hk
  exact (Bool.and_eq_true_iff.mp hk).1

/-- What an access that goes through says about the entry. -/
theorem translate_some {va bits pa : ℕ} (h : translate t va bits = some pa) :
    UserMaps (t.pagetable (vpn va)) pa ∧
      ∀ k, bits.testBit k = true → (t.pagetable (vpn va)).testBit k = true := by
  unfold translate at h
  dsimp only at h
  split_ifs at h with hc
  obtain rfl := Option.some.inj h
  have hbit (k : ℕ) (hk : (PTE_V ||| PTE_U ||| PTE_R ||| bits).testBit k = true) :=
    testBit_of_and_eq hc.2 hk
  refine ⟨⟨valid_iff.mpr (hbit 0 ?_), user_iff.mpr (hbit 4 ?_), rfl⟩, fun k hk => hbit k ?_⟩
  · simp only [Nat.testBit_or, show PTE_V.testBit 0 = true by decide, Bool.true_or]
  · simp only [Nat.testBit_or, show PTE_U.testBit 4 = true by decide, Bool.or_true, Bool.true_or]
  · simp only [Nat.testBit_or, hk, Bool.or_true]

theorem writeBytes_of_ne {mem : ℕ → ℕ → ℕ} {p q off : ℕ} {bs : List ℕ} (h : q ≠ p) :
    writeBytes mem p off bs q = mem q := Function.update_of_ne h _ _

theorem writeBytes_single {mem : ℕ → ℕ → ℕ} {p off b : ℕ} :
    writeBytes mem p off [b] p = Function.update (mem p) off b := by
  rw [writeBytes, Function.update_self]
  funext k
  by_cases hk : k = off
  · simp [hk]
  · rw [Function.update_of_ne hk]
    split_ifs with hle
    · obtain ⟨m, hm⟩ : ∃ m, k - off = m + 1 := ⟨k - off - 1, by omega⟩
      simp [hm]
    · rfl

theorem viewOf_store {va b pa : ℕ} (hi : i < NTASK)
    (ha : Accounted trampoline trapframe d s E) (hw : WritableOnce s E)
    (hrow : E i = t.pagetable) (h : translate t va PTE_W = some pa) :
    viewOf { s with mem := writeBytes s.mem pa (va % PGSIZE) [b] } E =
      refStore (viewOf s E) i va b := by
  obtain ⟨hmaps, hbits⟩ := translate_some h
  rw [← hrow] at hmaps hbits
  have hone : s.ref pa = 1 := hw i (vpn va) pa hi (vpn_lt va) hmaps
    (writable_iff.mpr (hbits 2 (by decide)))
  have hpa : pa ≠ USERRDONLY :=
    (ha.counts.used pa (by rw [hone]; decide)).ne_rdonly ha.counts.frames
  funext k w
  by_cases hkw : (k, w) = (i, vpn va)
  · obtain ⟨rfl, rfl⟩ := Prod.mk.inj hkw
    rw [refStore, Function.update_self, Function.update_self,
      viewOf_of_maps hi (vpn_lt va) hmaps hpa, viewOf_of_maps hi (vpn_lt va) hmaps hpa]
    exact congrArg some writeBytes_single
  · have hright : refStore (viewOf s E) i va b k w = viewOf s E k w := by
      unfold refStore
      by_cases hk : k = i
      · rw [hk, Function.update_self, Function.update_of_ne fun hwv => hkw (by rw [hk, hwv])]
      · rw [Function.update_of_ne hk]
    rw [hright]
    refine viewOf_congr rfl fun R hk hn hR hmR => writeBytes_of_ne ?_
    rintro rfl
    exact ha.ref_ne_one hk hn hi (vpn_lt va) hkw hmR hmaps hone

theorem copyAll_mem {npt npt' : ℕ → ℕ} {ps : List (MmapNode × ℕ)}
    (h : copyAll ps s pt npt = .ok (s', pt', npt')) : s'.mem = s.mem := by
  induction ps generalizing s pt npt with
  | nil =>
    cases h
    rfl
  | cons p ps ih =>
    unfold copyAll at h
    obtain ⟨⟨s₁, pt₁, npt₁⟩, h1, h2⟩ := bind_ok h
    have hstep : s₁.mem = s.mem := by
      unfold copyPage at h1
      dsimp only at h1
      split at h1
      · cases h1
        rfl
      · obtain ⟨pt₂, -, h1⟩ := bind_ok h1
        obtain ⟨npt₂, -, h1⟩ := bind_ok h1
        cases h1
        rfl
    exact (ih h2).trans hstep

theorem mem_vpns {tree : List MmapNode} :
    v ∈ tree.flatMap MmapNode.vpns ↔ ∃ p ∈ regionPages tree, vpn p.2 = v := by
  simp only [List.mem_flatMap, MmapNode.vpns, List.mem_map]
  constructor
  · rintro ⟨n, hn, va, hva, rfl⟩
    exact ⟨(n, va), mem_regionPages.mpr ⟨hn, hva⟩, rfl⟩
  · rintro ⟨⟨n, va⟩, hp, rfl⟩
    obtain ⟨hn, hva⟩ := mem_regionPages.mp hp
    exact ⟨n, hn, va, hva, rfl⟩

/-- A fork is an eager copy. -/
theorem viewOf_fork {nt' : Task} {tf highLevel : ℕ} (hi : i < NTASK) (hj : j < NTASK)
    (hij : i ≠ j)
    (ha : Accounted trampoline trapframe d s (Function.update (Function.update E i t.pagetable) j
      (userTask trampoline tf highLevel).pagetable))
    (hQ : ∀ n ∈ t.tree, PermOk n.perm)
    (h : copyMmap s t (userTask trampoline tf highLevel) = .ok (s', t', nt')) :
    viewOf s' (Function.update (Function.update E i t'.pagetable) j nt'.pagetable) =
      refFork (viewOf s (Function.update E i t.pagetable)) i j
        (t.tree.flatMap MmapNode.vpns) := by
  obtain ⟨hall, -⟩ := copyMmap_ok h
  have hcopied := copyAll_copied hall
  have hmem := copyAll_mem hall
  have hrow : Function.update (Function.update E i t.pagetable) j
      (userTask trampoline tf highLevel).pagetable i = t.pagetable := by
    rw [Function.update_of_ne hij, Function.update_self]
  -- a copied entry maps the page the old one did
  have hsame (p : MmapNode × ℕ) (hp : p ∈ regionPages t.tree)
      (hv : t.pagetable (vpn p.2) &&& PTE_V ≠ 0) (P : ℕ) :
      UserMaps (t.pagetable (vpn p.2)) P ↔
        UserMaps (userPte (PTE2PA (t.pagetable (vpn p.2))) (copyPerm p.1)) P := by
    have hres : ¬ Reserved (vpn p.2) := fun hr => userTask_reserved hr (hcopied.vacant p hp hv)
    have hold := (ha.copied_entry (i := i) hres (by rwa [hrow])).1
    rw [hrow] at hold
    have hnew := userMaps_userPte (hQ p.1 (mem_regionPages.mp hp).1).copyPerm
      (PTE2PA_mod (t.pagetable (vpn p.2))) (PTE2PA_lt _)
    rw [hold.iff_eq, hnew.iff_eq]
  funext k v
  by_cases hkj : k = j
  · subst hkj
    rw [refFork, Function.update_self]
    unfold viewOf
    rw [Function.update_self, Function.update_self]
    by_cases hcp : ∃ p ∈ regionPages t.tree, vpn p.2 = v ∧ t.pagetable v &&& PTE_V ≠ 0
    · obtain ⟨p, hp, rfl, hv⟩ := hcp
      rw [if_pos (mem_vpns.mpr ⟨p, hp, rfl⟩), (hcopied.installed p hp hv).2]
      split_ifs with h1 h2 h2
      · exact viewPte_congr (fun P _ => hsame p hp hv P) fun P _ _ => by rw [hmem]
      · exact absurd ⟨hi, h1.2⟩ h2
      · exact absurd ⟨hj, h2.2⟩ h1
      · rfl
    · push Not at hcp
      rw [(hcopied.kept v hcp).2, viewPte_of_not fun P hP => userTask_not_userMaps hP v, ite_self]
      split_ifs with h1 h2
      · obtain ⟨p, hp, hpv⟩ := mem_vpns.mp h1
        exact (viewPte_of_not fun P _ => not_userMaps_of_invalid (hcp p hp hpv) P).symm
      · rfl
      · rfl
  · rw [refFork, Function.update_of_ne hkj]
    by_cases hki : k = i
    · subst hki
      unfold viewOf
      rw [Function.update_of_ne hkj, Function.update_self, Function.update_self]
      split_ifs
      · by_cases hcp : ∃ p ∈ regionPages t.tree, vpn p.2 = v ∧ t.pagetable v &&& PTE_V ≠ 0
        · obtain ⟨p, hp, rfl, hv⟩ := hcp
          rw [(hcopied.installed p hp hv).1]
          exact viewPte_congr (fun P _ => hsame p hp hv P) fun P _ _ => by rw [hmem]
        · push Not at hcp
          rw [(hcopied.kept v hcp).1]
          exact viewPte_congr (fun _ _ => Iff.rfl) fun P _ _ => by rw [hmem]
      · rfl
    · refine viewOf_congr ?_ fun P _ _ _ _ => by rw [hmem]
      rw [Function.update_of_ne hkj, Function.update_of_ne hki, Function.update_of_ne hki]

/-- Unmapped pages are gone. -/
theorem unmapPages_absent {vas : List ℕ} (h : unmapPages vas s pt = .ok (s', pt'))
    (hv : v ∈ vas.map vpn) : pt' v &&& PTE_V = 0 := by
  induction vas generalizing s pt with
  | nil => cases hv
  | cons va vas ih =>
    unfold unmapPages at h
    dsimp only at h
    by_cases hrest : v ∈ vas.map vpn
    · split at h
      · exact ih h hrest
      · split at h
        · cases h
        split at h
        · cases h
        · exact ih h hrest
    · have hva : v = vpn va := by
        rcases List.mem_cons.mp hv with hv | hv
        · exact hv
        · exact absurd hv hrest
      have hnone : ∀ a ∈ vas, vpn a ≠ v := fun a ha he => hrest (he ▸ List.mem_map_of_mem ha)
      split at h
      case _ hz =>
        rw [unmapPages_other h fun a ha he => absurd he (hnone a ha), hva]
        exact hz
      · split at h
        · cases h
        split at h
        · cases h
        · rw [unmapPages_other h fun a ha he => absurd he (hnone a ha), hva, Function.update_self]
          exact Nat.zero_and _

/-- A page that is still counted after an unmap was counted before and keeps its bytes. -/
theorem unmapPages_mem {vas : List ℕ} (hi : i < NTASK)
    (ha : Accounted trampoline trapframe d s (Function.update E i pt))
    (h : unmapPages vas s pt = .ok (s', pt')) {R : ℕ} (hR : s'.ref R ≠ 0) :
    s.ref R ≠ 0 ∧ s'.mem R = s.mem R := by
  induction vas generalizing s pt with
  | nil =>
    cases h
    exact ⟨hR, rfl⟩
  | cons va vas ih =>
    unfold unmapPages at h
    dsimp only at h
    split at h
    · exact ih ha h
    case _ hv =>
      split at h
      · cases h
      split at h
      · cases h
      have hdrop := ha.drop hi (vpn_lt va) (by rwa [Function.update_self])
      rw [Function.update_self, setPte_update] at hdrop
      obtain ⟨hR₁, hmem⟩ := ih hdrop h
      have hdec := refCntDec_spec ha.counts.frames (ha.counts.used (PTE2PA (pt (vpn va))))
      have href := hdec.ref_eq R
      have hR₀ : s.ref R ≠ 0 := by
        rw [href] at hR₁
        split_ifs at hR₁ with he
        · rw [he]
          omega
        · exact hR₁
      refine ⟨hR₀, hmem.trans (hdec.mem_eq R (ha.counts.used R hR₀) ?_)⟩
      by_cases he : R = PTE2PA (pt (vpn va))
      · right
        intro h1
        rw [href, if_pos he, h1] at hR₁
        exact hR₁ rfl
      · exact Or.inl he

theorem viewOf_unmapPages {vas : List ℕ} (hi : i < NTASK)
    (ha : Accounted trampoline trapframe d s (Function.update E i pt))
    (ha' : Accounted trampoline trapframe d s' (Function.update E i pt'))
    (h : unmapPages vas s pt = .ok (s', pt')) :
    viewOf s' (Function.update E i pt') =
      refMunmap (viewOf s (Function.update E i pt)) i (vas.map vpn) := by
  have hmem (k w R : ℕ) (hk : k < NTASK) (hw : w < NPTE) (hR : R ≠ USERRDONLY)
      (hm : UserMaps (Function.update E i pt' k w) R) : s'.mem R = s.mem R :=
    (unmapPages_mem hi ha h (ha'.ref_pos hk hw hm hR)).2
  have hback (k w : ℕ) (he : Function.update E i pt' k w = Function.update E i pt k w) :
      viewOf s' (Function.update E i pt') k w = viewOf s (Function.update E i pt) k w :=
    viewOf_congr he fun R hk hw hR hm => hmem k w R hk hw hR (he ▸ hm)
  funext k w
  by_cases hk : k = i
  · rw [hk, refMunmap, Function.update_self]
    split_ifs with hw
    · unfold viewOf
      rw [Function.update_self, viewPte_of_not fun P _ =>
        not_userMaps_of_invalid (unmapPages_absent h hw) P, ite_self]
    · refine hback i w ?_
      rw [Function.update_self, Function.update_self]
      exact unmapPages_other h fun va hva he => absurd (he ▸ List.mem_map_of_mem hva) hw
  · rw [refMunmap, Function.update_of_ne hk]
    exact hback k w (by rw [Function.update_of_ne hk, Function.update_of_ne hk])

end Zrhos.Mmap
