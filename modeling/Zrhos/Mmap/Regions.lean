import Zrhos.Mmap.Teardown

/-! The region tree of a task: intervals that stay apart and are found again. Insertion
refuses equal start addresses only, so requests have to be placed well. -/
namespace Zrhos.Mmap
open OrderedSet

variable {σ σ₀ σ' : Sys} {s s' : Phys} {i : ℕ} {t t' nt : Task} {tree tree' : List MmapNode}
  {n : MmapNode} {addr sz perm flag r : ℕ} {allocPhy : Bool}

/-- The regions are ordered, end before the next one starts, and do not wrap around. -/
structure RegionsOk (tree : List MmapNode) : Prop where
  sorted : Sorted MmapNode.addr tree
  apart : ∀ a ∈ tree, ∀ b ∈ tree, a.addr < b.addr → a.addr + a.sz ≤ b.addr
  bound : ∀ n ∈ tree, n.addr + n.sz < WORD

/-- A request without an address. -/
def KernelChosen (addr flag : ℕ) : Prop :=
  addr = 0 ∧ flag &&& MAP_ZERO = 0 ∧ flag &&& MAP_ANONYMOUS ≠ 0

/-- `rand_memory` of `mmap_by_obj`, which looks at the address after rounding. -/
def RandMemory (addr flag : ℕ) : Prop := KernelChosen (pgRoundDown addr) flag

instance (addr flag : ℕ) : Decidable (RandMemory addr flag) := by
  unfold RandMemory KernelChosen
  infer_instance

def mmapAddr (t : Task) (addr flag : ℕ) : ℕ :=
  if RandMemory addr flag then (VA_ANYNOMOUS + t.highLevel) % WORD else pgRoundDown addr

/-- A request for which rounding and placement do what they should: an address below one
page is not taken for none, the end survives the rounding, nothing wraps around, and the
region meets no other. -/
structure WellPlaced (t : Task) (addr sz flag : ℕ) : Prop where
  given : RandMemory addr flag → addr = 0
  covers : ¬ KernelChosen addr flag → addr % PGSIZE + sz ≤ pgRoundUp sz
  bump : KernelChosen addr flag → VA_ANYNOMOUS + t.highLevel < WORD
  fits : mmapAddr t addr flag + pgRoundUp sz < WORD
  clear : ∀ n ∈ t.tree,
    mmapAddr t addr flag + pgRoundUp sz ≤ n.addr ∨ n.addr + n.sz ≤ mmapAddr t addr flag

/-- The condition on a step: a new tree starts with an aligned `high_level` (the source
leaves it as it finds it), and requests are well placed. Their permissions carry no frame
bits, with which a task could map the nodes of a tree. -/
def PlacedStep (σ : Sys) : Act → Prop
  | .create _ highLevel => highLevel % PGSIZE = 0
  | .mmap i addr sz perm flag _ =>
    PermOk perm ∧ ∀ t, σ.task i = some t → WellPlaced t addr sz flag
  | .exec .. => False
  | _ => True

/-! ### One request -/

theorem kernelChosen_or_private : KernelChosen addr (flag ||| MAP_PRIVATE) ↔
    KernelChosen addr flag := by
  unfold KernelChosen
  rw [Nat.and_or_distrib_right, Nat.and_or_distrib_right,
    show MAP_PRIVATE &&& MAP_ZERO = 0 by decide, show MAP_PRIVATE &&& MAP_ANONYMOUS = 0 by decide,
    Nat.or_zero, Nat.or_zero]

/-- The region that a successful request registers. -/
theorem mmapByObj_region (h : mmapByObj s t addr sz perm flag allocPhy = .ok (r, s', t')) :
    r = mmapAddr t addr flag ∧
      (∃ n, n.addr = r ∧ n.sz = pgRoundUp sz ∧ insert MmapNode.addr t.tree n = some t'.tree) ∧
      t'.highLevel = if RandMemory addr flag then (t.highLevel + pgRoundUp sz) % WORD
        else t.highLevel := by
  unfold mmapByObj at h
  split at h
  · cases h
  dsimp only at h
  have hrand : (pgRoundDown addr = 0 ∧
      (if flag &&& MAP_SHARED = 0 then flag ||| MAP_PRIVATE else flag) &&& MAP_ZERO = 0 ∧
      (if flag &&& MAP_SHARED = 0 then flag ||| MAP_PRIVATE else flag) &&& MAP_ANONYMOUS ≠ 0) ↔
      RandMemory addr flag := by
    split_ifs
    · exact kernelChosen_or_private
    · exact Iff.rfl
  simp only [hrand] at h
  split at h
  · cases h
  case _ tree hins =>
    split at h
    · obtain ⟨⟨s₁, pt₁⟩, -, h⟩ := bind_ok h
      cases h
      exact ⟨rfl, ⟨_, rfl, rfl, hins⟩, rfl⟩
    · cases h
      exact ⟨rfl, ⟨_, rfl, rfl, hins⟩, rfl⟩

theorem RegionsOk.insert (h : RegionsOk tree) (hi : insert MmapNode.addr tree n = some tree')
    (hb : n.addr + n.sz < WORD)
    (hc : ∀ m ∈ tree, n.addr + n.sz ≤ m.addr ∨ m.addr + m.sz ≤ n.addr) : RegionsOk tree' := by
  obtain ⟨hs, -⟩ := h.sorted.insert hi
  refine ⟨hs, fun a ha b hb' hlt => ?_, fun m hm => ?_⟩
  · rcases (insert_mem hi a).mp ha with rfl | ha
    · rcases (insert_mem hi b).mp hb' with rfl | hb'
      · exact absurd hlt (lt_irrefl _)
      · rcases hc b hb' with hle | hle
        · exact hle
        · omega
    · rcases (insert_mem hi b).mp hb' with rfl | hb'
      · rcases hc a ha with hle | hle
        · omega
        · exact hle
      · exact h.apart a ha b hb' hlt
  · rcases (insert_mem hi m).mp hm with rfl | hm
    · exact hb
    · exact h.bound m hm

/-- Every address of a region is found, and found in that region. -/
theorem RegionsOk.regionAt (h : RegionsOk t.tree) (hn : n ∈ t.tree) {va : ℕ}
    (hlo : n.addr ≤ va) (hhi : va < n.addr + n.sz) :
    floor MmapNode.addr t.tree va = some n ∧ Mmap.regionAt t va = some n := by
  have hfloor : floor MmapNode.addr t.tree va = some n :=
    floor_eq_some h.sorted hn hlo fun m hm hlt => hhi.trans_le (h.apart n hn m hm hlt)
  have hmod : (n.addr + n.sz) % WORD = n.addr + n.sz := Nat.mod_eq_of_lt (h.bound n hn)
  refine ⟨hfloor, ?_⟩
  unfold Mmap.regionAt
  rw [hfloor]
  exact if_pos ⟨hlo, by rwa [hmod]⟩

theorem RegionsOk.erase {xs ys : List MmapNode} (h : RegionsOk (xs ++ n :: ys)) :
    RegionsOk (xs ++ ys) := by
  have hmem {m : MmapNode} (hm : m ∈ xs ++ ys) : m ∈ xs ++ n :: ys := by
    rcases List.mem_append.mp hm with hm | hm
    · exact List.mem_append_left _ hm
    · exact List.mem_append_right _ (List.mem_cons_of_mem _ hm)
  exact ⟨(sorted_split.mp h.sorted).1, fun a ha b hb => h.apart a (hmem ha) b (hmem hb),
    fun m hm => h.bound m (hmem hm)⟩

theorem munmap_tree {r : ℤ} (h : munmap s t addr = .ok (r, s', t')) (ht : RegionsOk t.tree) :
    RegionsOk t'.tree ∧ t'.highLevel = t.highLevel := by
  unfold munmap at h
  split at h
  · cases h
    exact ⟨ht, rfl⟩
  case _ xs n ys hl =>
    obtain ⟨⟨s₁, pt₁⟩, -, h⟩ := bind_ok h
    cases h
    obtain ⟨hsplit, -⟩ := locate_eq_some hl
    rw [hsplit] at ht
    exact ⟨ht.erase, rfl⟩

/-- A fork gives the child the same tree. -/
theorem copyRegions_tree {ns : List MmapNode} {nt' : Task}
    (h : copyRegions ns s t nt = .ok (s', t', nt'))
    (hs : Sorted MmapNode.addr (nt.tree ++ ns)) : nt'.tree = nt.tree ++ ns := by
  induction ns generalizing s t nt with
  | nil =>
    cases h
    exact (List.append_nil _).symm
  | cons n ns ih =>
    have hlast : insert MmapNode.addr nt.tree n = some (nt.tree ++ [n]) :=
      insert_last (sorted_split.mp hs).2.1
    unfold copyRegions at h
    rw [hlast] at h
    obtain ⟨⟨s₁, pt₁, npt₁⟩, -, h⟩ := bind_ok h
    have := ih h (by simpa using hs)
    simpa using this

theorem copyMmap_tree {nt' : Task} (h : copyMmap s t nt = .ok (s', t', nt'))
    (hnt : nt.tree = []) (ht : RegionsOk t.tree) :
    nt'.tree = t.tree ∧ nt'.highLevel = t.highLevel := by
  unfold copyMmap at h
  obtain ⟨⟨s₁, t₁, nt₁⟩, h1, h2⟩ := bind_ok h
  obtain ⟨-, ht₁, -⟩ := copyRegions_ok h1
  cases h2
  refine ⟨?_, by rw [ht₁]⟩
  have := copyRegions_tree h1 (by rw [hnt]; exact ht.sorted)
  rw [hnt] at this
  exact this

/-! ### Runs -/

/-- The tree of a task together with the alignment of its bump pointer. -/
structure TreeOk (t : Task) : Prop where
  regions : RegionsOk t.tree
  aligned : t.highLevel % PGSIZE = 0

theorem WellPlaced.region (hw : WellPlaced t addr sz flag) (ht : TreeOk t)
    (h : mmapByObj s t addr sz perm flag allocPhy = .ok (r, s', t')) :
    TreeOk t' ∧ ∃ n ∈ t'.tree, n.addr = r ∧
      (¬ KernelChosen addr flag → n.addr ≤ addr ∧ addr + sz ≤ n.addr + n.sz) ∧
      (KernelChosen addr flag → n.addr % PGSIZE = 0 ∧ VA_ANYNOMOUS ≤ n.addr) := by
  obtain ⟨hr, ⟨n, hn, hsz, hins⟩, hhigh⟩ := mmapByObj_region h
  have haddr : n.addr = mmapAddr t addr flag := hn.trans hr
  have hmem : n ∈ t'.tree := (insert_mem hins n).mpr (Or.inl rfl)
  refine ⟨⟨ht.regions.insert hins ?_ ?_, ?_⟩, n, hmem, hn, fun hk => ?_, fun hk => ?_⟩
  · rw [haddr, hsz]
    exact hw.fits
  · rw [haddr, hsz]
    exact hw.clear
  · rw [hhigh]
    split_ifs
    · have h1 := ht.aligned
      have h2 := pgRoundUp_mod sz
      simp only [PGSIZE, WORD] at *
      omega
    · exact ht.aligned
  · have hrand : ¬ RandMemory addr flag := fun hrand => hk ⟨hw.given hrand, hrand.2⟩
    have hcov := hw.covers hk
    rw [hsz, haddr, mmapAddr, if_neg hrand]
    simp only [pgRoundDown, PGSIZE] at hcov ⊢
    omega
  · have hrand : RandMemory addr flag := by
      obtain ⟨rfl, hflags⟩ := hk
      exact ⟨rfl, hflags⟩
    have h1 := ht.aligned
    have h2 : VA_ANYNOMOUS % PGSIZE = 0 := by decide
    rw [haddr, mmapAddr, if_pos hrand, Nat.mod_eq_of_lt (hw.bump hk)]
    simp only [PGSIZE] at h1 h2 ⊢
    omega

/-- Every live task. -/
def AllTrees (σ : Sys) : Prop := ∀ i t, σ.task i = some t → TreeOk t

theorem AllTrees.set (h : AllTrees σ) (ht : TreeOk t) : AllTrees (σ.set s i (some t)) := by
  intro k u hu
  rcases task_set hu with ⟨-, he⟩ | ⟨-, hu⟩
  · rw [← Option.some.inj he]
    exact ht
  · exact h k u hu

theorem regionsOk_nil : RegionsOk [] := ⟨List.Pairwise.nil, by simp, by simp⟩

theorem AllTrees.step {a : Act} (h : AllTrees σ) (hp : PlacedStep σ a) (hs : Step σ a σ') :
    AllTrees σ' := by
  cases hs with
  | create _ _ hc =>
    obtain ⟨P, -, rfl⟩ := utaskCreate_ok hc
    exact h.set ⟨regionsOk_nil, hp⟩
  | @mmap i _ _ _ _ _ t _ _ _ ht he => exact h.set ((hp.2 t ht).region (h i t ht) he).1
  | @fault i stval scause t _ t' ht he =>
    have ht' : t' = { t with pagetable := t'.pagetable } := (handlePagefault_moves
      (Q := fun _ => True) (C := fun _ _ _ => True) (E := rows σ) (i := 0) (by decide)
      (fun _ _ => trivial) (fun _ _ _ => trivial) he).2
    refine h.set ?_
    rw [ht']
    exact ⟨(h i t ht).regions, (h i t ht).aligned⟩
  | store _ _ => exact h
  | @fork i j _ t _ _ _ t' nt' ht _ _ hc hf =>
    obtain ⟨P, -, rfl⟩ := utaskCreate_ok hc
    obtain ⟨-, ht', -, -⟩ := copyMmap_ok hf
    have htree := h i t ht
    obtain ⟨hnt, hhigh⟩ := copyMmap_tree hf rfl htree.regions
    refine (h.set (s := _) ?_).set ?_
    · rw [ht']
      exact ⟨htree.regions, htree.aligned⟩
    · exact ⟨hnt ▸ htree.regions, hhigh ▸ htree.aligned⟩
  | @munmap i _ t _ _ _ ht he =>
    obtain ⟨hr, hhigh⟩ := munmap_tree he (h i t ht).regions
    exact h.set ⟨hr, hhigh ▸ (h i t ht).aligned⟩
  | exec _ _ => exact hp.elim
  | wait _ =>
    intro k u hu
    rcases task_set hu with ⟨-, he⟩ | ⟨-, hu⟩
    · cases he
    · exact h k u hu
  | kernel => exact h

theorem run_allTrees (hb : Boot σ₀) (hr : Run PlacedStep σ₀ σ) : AllTrees σ := by
  induction hr with
  | refl =>
    intro i t ht
    rw [hb.tasks i] at ht
    cases ht
  | tail _ hp hs ih => exact ih.step hp hs

/-- In every run of well-placed requests the regions of a task are disjoint, every address
in a region is found in it, and a request gets a region that covers it. -/
theorem run_regions_found (hb : Boot σ₀) (hr : Run PlacedStep σ₀ σ) :
    (∀ i t, σ.task i = some t →
      (t.tree.Pairwise fun a b => a.addr + a.sz ≤ b.addr) ∧
      ∀ n ∈ t.tree, ∀ va, n.addr ≤ va → va < n.addr + n.sz →
        floor MmapNode.addr t.tree va = some n ∧ regionAt t va = some n) ∧
    ∀ i t addr sz perm flag allocPhy r s' t', σ.task i = some t →
      PlacedStep σ (.mmap i addr sz perm flag allocPhy) →
      mmapByObj σ.phys t addr sz perm flag allocPhy = .ok (r, s', t') →
      ∃ n ∈ t'.tree, n.addr = r ∧
        (¬ KernelChosen addr flag → n.addr ≤ addr ∧ addr + sz ≤ n.addr + n.sz) ∧
        (KernelChosen addr flag → n.addr % PGSIZE = 0 ∧ VA_ANYNOMOUS ≤ n.addr) := by
  have hall := run_allTrees hb hr
  refine ⟨fun i t ht => ⟨?_, fun n hn va => (hall i t ht).regions.regionAt hn⟩, ?_⟩
  · have hok := (hall i t ht).regions
    exact hok.sorted.imp_of_mem fun {a b} ha hb' hlt => hok.apart a ha b hb' hlt
  · intro i t addr sz perm flag allocPhy r s' t' ht hp he
    exact ((hp.2 t ht).region (hall i t ht) he).2

/-- A private page and two shared ones behind it. -/
def twoRegions : List MmapNode := [⟨0x10000000, 4096, 6, 3⟩, ⟨0x10001000, 8192, 2, 5⟩]

/-- A task maps two regions side by side and forks: the child finds both. -/
theorem two_regions_found : ∃ σ t, Boot machine ∧ Run PlacedStep machine σ ∧
    σ.task 1 = some t ∧ regionAt t 0x10000800 = some ⟨0x10000000, 4096, 6, 3⟩ ∧
    regionAt t 0x10002800 = some ⟨0x10001000, 8192, 2, 5⟩ := by
  let s₁ := { machine.phys with heapTop := 0x80301000 }
  let s₂ := { machine.phys with heapTop := 0x80302000 }
  let t₀ := userTask 0x80001000 0x80300000 0
  let t₁ := { t₀ with tree := [⟨0x10000000, 4096, 6, 3⟩] }
  let t₂ := { t₀ with tree := twoRegions }
  let σ₁ := machine.set s₁ 0 (some t₀)
  let σ₂ := σ₁.set s₁ 0 (some t₁)
  let σ₃ := σ₂.set s₁ 0 (some t₂)
  have h₁ : Step machine (.create 0 0) σ₁ := .create (by decide) rfl rfl
  have h₂ : Step σ₁ (.mmap 0 0x10000000 4096 6 1 false) σ₂ :=
    .mmap (t := t₀) (r := 0x10000000) rfl rfl
  have h₃ : Step σ₂ (.mmap 0 0x10001000 8192 2 5 false) σ₃ :=
    .mmap (t := t₁) (r := 0x10001000) rfl rfl
  obtain ⟨⟨s, t, nt⟩, hcopy⟩ := ok_of_toBool
    (x := copyMmap s₂ t₂ (userTask 0x80001000 0x80301000 0)) (by decide)
  have hregions : RegionsOk twoRegions :=
    ⟨by simp [Sorted, twoRegions], by simp [twoRegions], by simp [twoRegions, WORD]⟩
  have htree : nt.tree = twoRegions := (copyMmap_tree hcopy rfl hregions).1
  have h₄ : Step σ₃ (.fork 0 1 0) ((σ₃.set s 0 (some t)).set s 1 (some nt)) :=
    .fork (t := t₂) rfl (by decide) rfl rfl hcopy
  have hrun : Run PlacedStep machine _ :=
    .tail (.tail (.tail (.tail .refl ?create h₁) ?first h₂) ?second h₃) ?fork h₄
  · have hfound := ((run_regions_found boot_machine hrun).1 1 nt task_set_self).2
    refine ⟨_, nt, boot_machine, hrun, task_set_self, ?_, ?_⟩
    · exact (hfound _ (by rw [htree]; exact List.mem_cons_self) 0x10000800 (by decide)
        (by decide)).2
    · exact (hfound ⟨0x10001000, 8192, 2, 5⟩
        (by rw [htree]; exact List.mem_cons_of_mem _ List.mem_cons_self) 0x10002800 (by decide)
        (by decide)).2
  case create => exact (by decide : 0 % PGSIZE = 0)
  case first =>
    refine ⟨by decide, fun t ht => ?_⟩
    cases ht
    exact ⟨fun h => absurd h (by decide), fun _ => by decide, fun h => absurd h.1 (by decide),
      by decide, by simp [t₀, userTask]⟩
  case second =>
    refine ⟨by decide, fun t ht => ?_⟩
    cases ht
    exact ⟨fun h => absurd h (by decide), fun _ => by decide, fun h => absurd h.1 (by decide),
      by decide, by decide⟩
  case fork => trivial

/-- A second request inside the first is accepted, and hides the rest of the first. -/
theorem overlap_hides_region : ∃ t₁ t₂ s₁ s₂,
    sysMmap machine.phys (userTask 0x80001000 0x80300000 0) 0x10000000 0x3000 6 1 =
      .ok (0x10000000, s₁, t₁) ∧
    sysMmap s₁ t₁ 0x10001000 0x1000 6 1 = .ok (0x10001000, s₂, t₂) ∧
    ⟨0x10000000, 0x3000, 6, 3⟩ ∈ t₂.tree ∧ ⟨0x10001000, 0x1000, 6, 3⟩ ∈ t₂.tree ∧
    regionAt t₂ 0x10002000 = none ∧
    handlePagefault s₂ t₂ 0x10002000 15 = .error .pageFaultNoMapping :=
  ⟨{ userTask 0x80001000 0x80300000 0 with tree := [⟨0x10000000, 0x3000, 6, 3⟩] },
    { userTask 0x80001000 0x80300000 0 with
      tree := [⟨0x10000000, 0x3000, 6, 3⟩, ⟨0x10001000, 0x1000, 6, 3⟩] },
    machine.phys, machine.phys, rfl, rfl, by simp, by simp, by decide, rfl⟩

end Zrhos.Mmap
