import Zrhos.Mmap.Model
import Zrhos.Lib.OrderedSet

/-! The page frames behind user memory: what `mem_malloc` and `mem_free` of single pages
do to the page list and to the bytes of other pages. -/
namespace Zrhos.Mmap
open LinkedList

variable {s s' : Phys} {p : ℕ}

/-- The page list is ascending and holds frames below the top of the heap. -/
structure FramesOk (s : Phys) : Prop where
  sorted : s.pages.Pairwise (· < ·)
  aligned : ∀ p ∈ s.pages, p % PGSIZE = 0
  ne_null : ∀ p ∈ s.pages, p ≠ 0
  below : ∀ p ∈ s.pages, p < s.heapTop
  top_mod : s.heapTop % PGSIZE = 0
  top_pos : 0 < s.heapTop
  top_le : s.heapTop ≤ MEMSTOP

/-- A frame that is in use. -/
structure InUse (s : Phys) (p : ℕ) : Prop where
  aligned : p % PGSIZE = 0
  ne_null : p ≠ 0
  below : p < s.heapTop
  not_free : p ∉ s.pages

theorem FramesOk.congr (h : FramesOk s) (hp : s'.pages = s.pages)
    (ht : s'.heapTop = s.heapTop) : FramesOk s' := by
  obtain ⟨h1, h2, h3, h4, h5, h6, h7⟩ := h
  rw [← hp] at h1 h2 h3 h4
  rw [← ht] at h4 h5 h6 h7
  exact ⟨h1, h2, h3, h4, h5, h6, h7⟩

theorem InUse.congr (h : InUse s p) (hp : s'.pages = s.pages) (ht : s'.heapTop = s.heapTop) :
    InUse s' p := ⟨h.aligned, h.ne_null, ht ▸ h.below, hp ▸ h.not_free⟩

theorem InUse.lt_word (h : InUse s p) (hs : FramesOk s) : p < WORD :=
  h.below.trans_le (hs.top_le.trans (by decide))

/-- The result of taking a page. -/
structure Taken (s s' : Phys) (p : ℕ) : Prop where
  frames : FramesOk s'
  inUse : InUse s' p
  free : ¬ InUse s p
  keeps : ∀ q, InUse s q → InUse s' q
  mem_eq : s'.mem = s.mem
  ref_eq : s'.ref = s.ref
  freed_eq : s'.freed = s.freed

theorem memMalloc_spec (h : FramesOk s) :
    memMalloc s = .error .noSpaceInHeap ∨
      ∃ p s', memMalloc s = .ok (p, s') ∧ Taken s s' p ∧ s'.handed = s.handed := by
  unfold memMalloc
  cases hp : s.pages with
  | cons p rest =>
    have hs := h.sorted
    rw [hp, List.pairwise_cons] at hs
    have hmem {q : ℕ} (hq : q ∈ rest) : q ∈ s.pages := by rw [hp]; exact List.mem_cons_of_mem _ hq
    have hpm : p ∈ s.pages := by rw [hp]; exact List.mem_cons_self
    refine Or.inr ⟨p, _, rfl, ⟨⟨hs.2, fun q hq => h.aligned q (hmem hq),
      fun q hq => h.ne_null q (hmem hq), fun q hq => h.below q (hmem hq), h.top_mod, h.top_pos,
      h.top_le⟩, ⟨h.aligned p hpm, h.ne_null p hpm, h.below p hpm, fun hm => ?_⟩,
      fun hu => hu.not_free hpm, fun q hq => ⟨hq.aligned, hq.ne_null, hq.below, fun hm => ?_⟩,
      rfl, rfl, rfl⟩, rfl⟩
    · exact lt_irrefl _ (hs.1 p hm)
    · exact hq.not_free (hmem hm)
  | nil =>
    have hmod := h.top_mod
    have hpos := h.top_pos
    dsimp only
    split_ifs with hf
    · exact Or.inl rfl
    · refine Or.inr ⟨s.heapTop, _, rfl, ⟨⟨by simp, by simp, by simp, by simp, ?_, ?_, ?_⟩,
        ⟨hmod, hpos.ne', ?_, by simp⟩, fun hu => lt_irrefl _ hu.below,
        fun q hq => ⟨hq.aligned, hq.ne_null, ?_, by simp⟩, rfl, rfl, rfl⟩, rfl⟩
      · simpa using hmod
      · simp only
        omega
      · simp only
        omega
      · simp only [PGSIZE]
        omega
      · exact hq.below.trans_le (Nat.le_add_right _ _)

theorem userPage_spec (h : FramesOk s) :
    userPage s = .error .noSpaceInHeap ∨
      ∃ p s', userPage s = .ok (p, s') ∧ Taken s s' p ∧ s'.handed = p :: s.handed := by
  unfold userPage
  rcases memMalloc_spec h with he | ⟨p, s₁, he, ht, hh⟩
  · left
    rw [he]
    rfl
  · refine Or.inr ⟨p, { s₁ with handed := p :: s₁.handed }, by rw [he]; rfl, ?_, by rw [hh]⟩
    exact ⟨ht.frames.congr rfl rfl, ht.inUse.congr rfl rfl, ht.free,
      fun q hq => (ht.keeps q hq).congr rfl rfl, ht.mem_eq, ht.ref_eq, ht.freed_eq⟩

/-- The result of giving back a page: it is free, and only free pages were written. -/
structure Returned (s s' : Phys) (p : ℕ) : Prop where
  frames : FramesOk s'
  free : ¬ InUse s' p
  keeps : ∀ q, InUse s q → q ≠ p → InUse s' q
  mem_eq : ∀ q, InUse s q → q ≠ p → s'.mem q = s.mem q
  ref_eq : s'.ref = s.ref
  handed_eq : s'.handed = s.handed
  freed_eq : s'.freed = s.freed
  heapTop_eq : s'.heapTop = s.heapTop

theorem setLink_of_ne {mem : ℕ → ℕ → ℕ} {q v : ℕ} (h : q ≠ p) : setLink mem p v q = mem q :=
  Function.update_of_ne h _ _

/-- Linking a page in use into the page list at its place. -/
theorem returned_of_insert (h : FramesOk s) (hp : InUse s p) {xs ys : List ℕ}
    {mem : ℕ → ℕ → ℕ} (hs : s.pages = xs ++ ys) (hx : ∀ x ∈ xs, x < p) (hy : ∀ y ∈ ys, p < y)
    (hm : ∀ q, q ≠ p → q ∉ s.pages → mem q = s.mem q) :
    Returned s { s with mem := mem, pages := xs ++ p :: ys } p := by
  have hmem (q : ℕ) : q ∈ xs ++ p :: ys ↔ q = p ∨ q ∈ s.pages := by
    rw [hs]
    simp only [List.mem_append, List.mem_cons]
    tauto
  have hsorted := h.sorted
  rw [hs, List.pairwise_append] at hsorted
  refine ⟨⟨?_, ?_, ?_, ?_, h.top_mod, h.top_pos, h.top_le⟩, fun hu => ?_, fun q hq hne => ?_,
    fun q hq hne => hm q hne hq.not_free, rfl, rfl, rfl, rfl⟩
  · refine List.pairwise_append.mpr ⟨hsorted.1, List.pairwise_cons.mpr ⟨hy, hsorted.2.1⟩, ?_⟩
    intro a ha b hb
    rcases List.mem_cons.mp hb with rfl | hb
    · exact hx a ha
    · exact hsorted.2.2 a ha b hb
  · intro q hq
    rcases (hmem q).mp hq with rfl | hq
    · exact hp.aligned
    · exact h.aligned q hq
  · intro q hq
    rcases (hmem q).mp hq with rfl | hq
    · exact hp.ne_null
    · exact h.ne_null q hq
  · intro q hq
    rcases (hmem q).mp hq with rfl | hq
    · exact hp.below
    · exact h.below q hq
  · exact hu.not_free ((hmem p).mpr (Or.inl rfl))
  · refine ⟨hq.aligned, hq.ne_null, hq.below, fun hm => ?_⟩
    rcases (hmem q).mp hm with he | hm
    · exact hne he
    · exact hq.not_free hm

theorem memFree_spec (h : FramesOk s) (hp : InUse s p) : Returned s (memFree s p) p := by
  unfold memFree
  split
  case _ hs =>
    have hs' : s.pages = [] ++ [] := hs
    exact returned_of_insert h hp hs' (by simp) (by simp) fun q hq _ => setLink_of_ne hq
  case _ q₀ rest hs =>
    have hne (m : ℕ) (hm : m ∈ s.pages) : id m ≠ p := fun he => hp.not_free (he ▸ hm)
    have hq₀ : q₀ ∈ s.pages := by rw [hs]; exact List.mem_cons_self
    have hsorted : OrderedSet.Sorted id s.pages := h.sorted
    have hsplit := List.takeWhile_append_dropWhile (p := fun x => decide (x < p)) (l := s.pages)
    dsimp only
    split_ifs with hlt heq
    · -- the page would have to be on the list already
      cases hd : s.pages.dropWhile (fun x => decide (x < p)) with
      | nil =>
        rw [hd] at heq
        exact absurd heq.symm hp.ne_null
      | cons y ys =>
        rw [hd] at heq hsplit
        exact absurd heq (hne y (by rw [← hsplit]; simp))
    · refine returned_of_insert h hp hsplit.symm (fun x hx => ?_) (fun y hy => ?_)
        fun q hq hfree => ?_
      · exact OrderedSet.takeWhile_lt hx
      · exact hsorted.lt_dropWhile hne hy
      · rw [setLink_of_ne hq, setLink_of_ne]
        rintro rfl
        have hxs : s.pages.takeWhile (fun x => decide (x < p)) ≠ [] := by
          rw [hs, List.takeWhile_cons_of_pos (by simpa using hlt)]
          simp
        exact hfree ((List.takeWhile_sublist _).subset (lastOr_mem hxs))
    · have hs' : s.pages = [] ++ s.pages := rfl
      refine returned_of_insert h hp hs' (by simp) (fun y hy => ?_)
        fun q hq _ => setLink_of_ne hq
      have hp0 : p < q₀ := lt_of_le_of_ne (not_lt.mp hlt) (Ne.symm (hne q₀ hq₀))
      rw [hs] at hy
      rcases List.mem_cons.mp hy with rfl | hy
      · exact hp0
      · have hall := h.sorted
        rw [hs, List.pairwise_cons] at hall
        exact hp0.trans (hall.1 y hy)

/-! ### Counters -/

theorem refCntInc_ref (s : Phys) (q : ℕ) :
    (refCntInc s p).ref q = if q = p then s.ref p + 1 else s.ref q := by
  unfold refCntInc
  split_ifs with h
  · rw [h]
    exact Function.update_self _ _ _
  · exact Function.update_of_ne h _ _

/-- The result of counting a page down: its last reference gives it back. -/
structure Dropped (s s' : Phys) (p : ℕ) : Prop where
  frames : FramesOk s'
  ref_eq : ∀ q, s'.ref q = if q = p then s.ref p - 1 else s.ref q
  keeps : ∀ q, InUse s q → q ≠ p ∨ s.ref p ≠ 1 → InUse s' q
  mem_eq : ∀ q, InUse s q → q ≠ p ∨ s.ref p ≠ 1 → s'.mem q = s.mem q
  handed_eq : s'.handed = s.handed
  freed_eq : s'.freed = if s.ref p = 1 then p :: s.freed else s.freed

theorem refCntDec_spec (h : FramesOk s) (hp : s.ref p ≠ 0 → InUse s p) :
    Dropped s (refCntDec s p) p := by
  unfold refCntDec
  split_ifs with h0
  · refine ⟨h, fun q => ?_, fun q hq _ => hq, fun _ _ _ => rfl, rfl, by simp [h0]⟩
    split_ifs with hq
    · rw [hq, h0]
    · rfl
  · have hone : Function.update s.ref p (s.ref p - 1) p = 0 ↔ s.ref p = 1 := by
      rw [Function.update_self]
      omega
    have href (q : ℕ) : Function.update s.ref p (s.ref p - 1) q =
        if q = p then s.ref p - 1 else s.ref q := Function.update_apply _ _ _ _
    dsimp only
    split_ifs with h1
    · have hin := hp h0
      have hr := memFree_spec (s := { s with ref := Function.update s.ref p (s.ref p - 1) })
        (p := p) (h.congr rfl rfl) (hin.congr rfl rfl)
      have hr1 := hone.mp h1
      refine ⟨hr.frames.congr rfl rfl, fun q => ?_, fun q hq hne => ?_, fun q hq hne => ?_,
        hr.handed_eq, by simp [hr1]⟩
      · rw [← href]
        exact congrFun hr.ref_eq q
      · exact (hr.keeps q (hq.congr rfl rfl) (hne.resolve_right (by simp [hr1]))).congr rfl rfl
      · exact hr.mem_eq q (hq.congr rfl rfl) (hne.resolve_right (by simp [hr1]))
    · have hr1 : s.ref p ≠ 1 := fun he => h1 (hone.mpr he)
      exact ⟨h.congr rfl rfl, href, fun q hq _ => hq.congr rfl rfl, fun _ _ _ => rfl, rfl,
        by simp [hr1]⟩

end Zrhos.Mmap
