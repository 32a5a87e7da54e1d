import Zrhos.Mem.Invariant

/-! Allocation: taking a page from the page list or the top of the heap, refilling a
slab class, and the `mm_malloc` of a slab block or a single page. -/
namespace Zrhos.Mem
open LinkedList

variable {B n : ℕ} {s s' : Heap} {g g' : Ghost}

/-! ### Pages -/

/-- The heap after `allocpage`. -/
def pushPage (s : Heap) (tag : ℕ) : Heap :=
  { s with
    heapTop := s.heapTop + PGSIZE
    pageArray := Function.update s.pageArray s.len ⟨s.heapTop, tag⟩
    len := s.len + 1 }

theorem allocpage_eq (s : Heap) (tag : ℕ) :
    allocpage s tag = if PGSIZE + s.heapTop > s.heapEnd then .error .noSpaceInHeap
      else .ok (s.heapTop, pushPage s tag) := by
  unfold allocpage memSbrk
  split_ifs <;> rfl

theorem Inv.pageIndex_lt (h : Inv B n s g) {o : Owner} (ho : g.Has o) :
    s.len ≠ 0 ∧ (o.start - B) / PGSIZE < s.len := by
  have hb := h.owned.bounds ho
  have hs := o.size_pos
  have ht := h.geom.top
  refine ⟨h.geom.len_ne hb.1 hb.2 hs, ?_⟩
  simp only [PGSIZE] at *
  omega

theorem Inv.pushPage (h : Inv B n s g) (hf : PGSIZE + s.heapTop ≤ s.heapEnd) (tag : ℕ) :
    Inv B n (pushPage s tag) g ∧ Unowned B (pushPage s tag) g s.heapTop PGSIZE ∧
      getinfobybp (pushPage s tag) s.heapTop = ⟨s.heapTop, tag⟩ := by
  have htop := h.geom.top
  have hstart : ((Mem.pushPage s tag).pageArray 0).start = B := by
    by_cases hz : s.len = 0
    · simp [Mem.pushPage, hz, htop]
    · simp only [Mem.pushPage]
      rw [Function.update_of_ne (Ne.symm hz)]
      exact h.geom.start0 hz
  have hgeom : Geometry B (Mem.pushPage s tag) :=
    { base_pos := h.geom.base_pos
      base_mod := h.geom.base_mod
      top := by simp only [Mem.pushPage, htop]; ring
      fits := by simp only [Mem.pushPage]; omega
      stop := h.geom.stop
      start0 := fun _ => hstart }
  have hidx (bp : ℕ) : pageIndex (Mem.pushPage s tag) bp = (bp - B) / PGSIZE := by
    rw [pageIndex, hstart]
  refine ⟨⟨hgeom, ⟨?_, h.owned.excl, h.owned.aligned, ?_⟩, ⟨h.linked.pages, h.linked.slabs,
    h.linked.heads, h.linked.empty, h.linked.classes, h.linked.sorted⟩, h.live⟩,
    ⟨?_, ?_, ?_⟩, ?_⟩
  · intro o ho
    have := h.owned.bounds ho
    simp only [Mem.pushPage]
    omega
  · intro o ho
    obtain ⟨hl, hlt⟩ := h.pageIndex_lt ho
    have hsame : getinfobybp (Mem.pushPage s tag) o.start = getinfobybp s o.start := by
      rw [getinfobybp, getinfobybp, hidx, h.geom.pageIndex_eq hl]
      exact Function.update_of_ne (by omega) _ _
    have ht := h.owned.tagged ho
    cases o <;> simp_all [Owner.Tagged, Owner.start]
  · omega
  · exact le_rfl
  · intro o x ho hc hx
    have := h.owned.bounds ho
    unfold Owner.Covers at hc
    omega
  · have he : (s.heapTop - B) / PGSIZE = s.len := by
      rw [htop, Nat.add_sub_cancel_left]
      exact Nat.mul_div_cancel _ (by decide)
    rw [getinfobybp, hidx, he]
    exact Function.update_self _ _ _

theorem Inv.takePage (h : Inv B n s g) {p : ℕ} {ps : List ℕ} (hg : g.pages = p :: ps) :
    Inv B n { s with pagehead := s.word p } { g with pages := ps } ∧
      Unowned B { s with pagehead := s.word p } { g with pages := ps } p PGSIZE := by
  have hc := h.linked.pages
  rw [hg] at hc
  have hnd := List.nodup_cons.mp hc.nodup
  have hsub {o : Owner} (ho : ({ g with pages := ps } : Ghost).Has o) :
      g.Has o ∧ o ≠ .page p := by
    cases o with
    | slab k b => exact ⟨ho, by simp⟩
    | page q =>
      refine ⟨show q ∈ g.pages from hg ▸ List.mem_cons_of_mem _ ho, ?_⟩
      rintro ⟨⟩
      exact hnd.1 ho
    | live b => exact ⟨ho, by simp⟩
  have ho : Owned B { s with pagehead := s.word p } g := h.owned.congr rfl rfl
  refine ⟨⟨h.geom.congr rfl rfl rfl (fun _ => rfl), ho.mono (fun ho => (hsub ho).1), ?_,
    h.live⟩, ?_⟩
  · have hs := h.linked.sorted
    rw [hg] at hs
    exact ⟨hc.tail, h.linked.slabs, h.linked.heads, h.linked.empty, h.linked.classes, hs.of_cons⟩
  · exact ho.release (o := .page p) (by simp [Ghost.Has, hg]) hsub

/-- The result of taking one page: it is unowned, aligned and carries the tag, and
nothing but the page list changed. -/
structure TookPage (B n : ℕ) (s s' : Heap) (g g' : Ghost) (p tag : ℕ) : Prop where
  inv : Inv B n s' g'
  unowned : Unowned B s' g' p PGSIZE
  aligned : p % PGSIZE = 0
  tag_eq : (getinfobybp s' p).usedORbitposBigORlen = tag
  slab_eq : g'.slab = g.slab
  live_eq : g'.live = g.live
  word_eq : s'.word = s.word
  sizehead_eq : s'.sizehead = s.sizehead
  filled : Filled B s g 0 0 → Filled B s' g' p PGSIZE
  kept : s.pagehead ≠ 0 →
    s'.heapTop = s.heapTop ∧ s'.len = s.len ∧ g.pages = p :: g'.pages

theorem getpage_spec (h : Inv B n s g) (tag : ℕ) :
    getpage s tag = .error .noSpaceInHeap ∨
      ∃ p s' g', getpage s tag = .ok (p, s') ∧ TookPage B n s s' g g' p tag := by
  unfold getpage
  split_ifs with hz
  · rw [allocpage_eq]
    split_ifs with hf
    · exact Or.inl rfl
    · obtain ⟨hi, hu, ht⟩ := h.pushPage (not_lt.mp hf) tag
      have htop := h.geom.top
      have hb := h.geom.base_mod
      refine Or.inr ⟨_, _, g, rfl, hi, hu, ?_, by rw [ht], rfl, rfl, rfl, rfl, fun hf =>
        hf.raise rfl, fun hne => absurd hz hne⟩
      simp only [PGSIZE] at *
      omega
  · have hne : g.pages ≠ [] := fun he => hz (h.linked.pages.null_iff.mpr he)
    obtain ⟨p, ps, hg⟩ := List.exists_cons_of_ne_nil hne
    have hp : s.pagehead = p := by simpa [hg] using h.linked.pages.head
    obtain ⟨hi, hu⟩ := h.takePage hg
    have hal : p % PGSIZE = 0 := by
      simpa [Owner.start, Owner.size] using
        h.owned.aligned (o := .page p) (by simp [Ghost.Has, hg])
    rw [hp]
    refine Or.inr ⟨p, _, { g with pages := ps }, rfl, ?_⟩
    refine ⟨hi.retag hu hal tag, hu.congr le_rfl, hal,
      congrArg Page.usedORbitposBigORlen (getinfobybp_setinfobybp hi hu hal tag),
      rfl, rfl, rfl, rfl, fun hf => hf.transfer rfl (fun {o} ho => ?_) (by omega),
      fun _ => ⟨rfl, rfl, hg⟩⟩
    cases o with
    | slab k b => exact Or.inl ho
    | page q =>
      rcases List.mem_cons.mp (hg ▸ ho : q ∈ p :: ps) with rfl | hq
      · exact Or.inr fun x hx => hx
      · exact Or.inl hq
    | live b => exact Or.inl ho

/-! ### Slab pages -/

def blocks (p k : ℕ) : List ℕ := (List.range (PGSIZE / 2 ^ k)).map (nbp p k)

theorem block_count {k : ℕ} (hk : k ≤ 12) : PGSIZE / 2 ^ k * 2 ^ k = PGSIZE :=
  Nat.div_mul_cancel (show 2 ^ k ∣ 2 ^ 12 from pow_dvd_pow 2 hk)

theorem block_count_pos {k : ℕ} (hk : k ≤ 12) : 0 < PGSIZE / 2 ^ k :=
  Nat.div_pos (show 2 ^ k ≤ 2 ^ 12 from Nat.pow_le_pow_right (by decide) hk) (Nat.two_pow_pos k)

theorem nbp_injective (p k : ℕ) : Function.Injective (nbp p k) := by
  intro i j h
  have := Nat.two_pow_pos k
  exact Nat.eq_of_mul_eq_mul_right this (Nat.add_left_cancel h)

theorem nbp_bounds {p k i : ℕ} (hk : k ≤ 12) (hi : i < PGSIZE / 2 ^ k) :
    p ≤ nbp p k i ∧ nbp p k i + 2 ^ k ≤ p + PGSIZE := by
  have hm := Nat.mul_le_mul_right (2 ^ k) (Nat.succ_le_of_lt hi)
  rw [block_count hk, Nat.succ_mul] at hm
  unfold nbp
  omega

theorem mem_blocks {p k b : ℕ} : b ∈ blocks p k ↔ ∃ i < PGSIZE / 2 ^ k, nbp p k i = b := by
  simp [blocks]

theorem blocks_nodup (p k : ℕ) : (blocks p k).Nodup :=
  List.nodup_range.map (nbp_injective p k)

theorem formatPage_outside {word : ℕ → ℕ} {p k x : ℕ} (hk : k < 12)
    (hx : ¬ (p ≤ x ∧ x < p + PGSIZE)) : formatPage word p k x = word x := by
  have hN := block_count_pos hk.le
  have hne (i : ℕ) (hi : i < PGSIZE / 2 ^ k) : x ≠ nbp p k i := by
    have := nbp_bounds (p := p) hk.le hi
    have := Nat.two_pow_pos k
    omega
  simp only [formatPage]
  rw [Function.update_of_ne (hne _ (by omega))]
  exact (foldl_update_range (nbp_injective p k) word _).2 x (fun i hi => hne i (by omega))

theorem formatPage_seg (word : ℕ → ℕ) (p : ℕ) {k : ℕ} (hk : k < 12) :
    Seg (formatPage word p k) p (blocks p k) 0 := by
  obtain ⟨m, hm⟩ := Nat.exists_eq_succ_of_ne_zero (block_count_pos hk.le).ne'
  have hlink (i : ℕ) (hi : i < m) : formatPage word p k (nbp p k i) = nbp p k (i + 1) := by
    simp only [formatPage, hm]
    rw [Function.update_of_ne ((nbp_injective p k).ne (by omega))]
    exact (foldl_update_range (nbp_injective p k) word m).1 i hi
  have hlast : formatPage word p k (nbp p k m) = 0 := by
    simp [formatPage, hm]
  have hseg := Seg.of_steps (f := nbp p k) (i := 0) (m := m)
    (fun j _ hj => hlink j (by omega))
  rw [blocks, hm, List.range_succ, List.map_append]
  refine seg_append.mpr ⟨nbp p k m, ?_, rfl, hlast⟩
  simpa [List.range_eq_range', nbp] using hseg

/-- The blocks of an unowned page with the tag of class `k` may join that class. -/
theorem Owned.addBlocks (h : Owned B s g) (hg : Geometry B s) {p k : ℕ}
    (hu : Unowned B s g p PGSIZE) (hp : p % PGSIZE = 0) (hk : k < 12)
    (ht : (getinfobybp s p).usedORbitposBigORlen = 1 ||| 2 ^ k)
    (hs : ∀ {o}, g'.Has o → g.Has o ∨ ∃ b ∈ blocks p k, o = .slab k b) : Owned B s g' := by
  have hpow := Nat.two_pow_pos k
  refine h.grow hu (fun o => ∃ b ∈ blocks p k, o = .slab k b) hs ?_ ?_ ?_ ?_
  · rintro _ ⟨b, hb, rfl⟩
    obtain ⟨i, hi, rfl⟩ := mem_blocks.mp hb
    exact nbp_bounds hk.le hi
  · rintro _ _ x ⟨b, hb, rfl⟩ ⟨b', hb', rfl⟩ hc hc'
    obtain ⟨i, -, rfl⟩ := mem_blocks.mp hb
    obtain ⟨j, -, rfl⟩ := mem_blocks.mp hb'
    simp only [Owner.Covers, Owner.start, Owner.size, nbp] at hc hc'
    have hi : (x - p) / 2 ^ k = i := Nat.div_eq_of_lt_le (by omega) (by rw [Nat.succ_mul]; omega)
    have hj : (x - p) / 2 ^ k = j := Nat.div_eq_of_lt_le (by omega) (by rw [Nat.succ_mul]; omega)
    rw [← hi, hj]
  · rintro _ ⟨b, hb, rfl⟩
    obtain ⟨i, -, rfl⟩ := mem_blocks.mp hb
    have hle : 2 ^ k ≤ PGSIZE := Nat.pow_le_pow_right (n := 2) (by omega) hk.le
    have hdvd : 2 ^ k ∣ p := (show 2 ^ k ∣ 2 ^ 12 from pow_dvd_pow 2 hk.le).trans
      (Nat.dvd_of_mod_eq_zero hp)
    simp only [Owner.start, Owner.size, min_eq_left hle, nbp]
    exact Nat.mod_eq_zero_of_dvd (Dvd.dvd.add hdvd (Nat.dvd_mul_left _ _))
  · rintro _ ⟨b, hb, rfl⟩
    obtain ⟨i, hi, rfl⟩ := mem_blocks.mp hb
    have hb := nbp_bounds (p := p) hk.le hi
    have hl := hg.len_ne hu.low hu.high (by decide)
    have hsame : (nbp p k i - B) / PGSIZE = (p - B) / PGSIZE := by
      have := hu.low
      have := hg.base_mod
      simp only [PGSIZE] at *
      omega
    simp only [Owner.Tagged, ← ht, getinfobybp, hg.pageIndex_eq hl, hsame]

/-- The result of `acquireonepage` for a slab class. -/
structure GotSlab (B n : ℕ) (s s' : Heap) (g g' : Ghost) (p k : ℕ) : Prop where
  inv : Inv B n s' g'
  unowned : Unowned B s' g' p PGSIZE
  aligned : p % PGSIZE = 0
  tag_eq : (getinfobybp s' p).usedORbitposBigORlen = 1 ||| 2 ^ k
  slab_eq : g'.slab = g.slab
  live_eq : g'.live = g.live
  sizehead_eq : s'.sizehead = s.sizehead
  seg : Seg s'.word p (blocks p k) 0
  outside {x : ℕ} : ¬ (p ≤ x ∧ x < p + PGSIZE) → s'.word x = s.word x
  filled : Filled B s g 0 0 → Filled B s' g' p PGSIZE
  kept : s.pagehead ≠ 0 →
    s'.heapTop = s.heapTop ∧ s'.len = s.len ∧ g.pages = p :: g'.pages

theorem acquireonepage_spec (h : Inv B n s g) {k : ℕ} (hk : k < 12) :
    acquireonepage s k = .error .noSpaceInHeap ∨
      ∃ p s' g', acquireonepage s k = .ok (p, s') ∧ GotSlab B n s s' g g' p k := by
  unfold acquireonepage
  rcases getpage_spec h (1 ||| 2 ^ k) with he | ⟨p, s₁, g', he, ht⟩
  · left
    rw [he]
    rfl
  · right
    refine ⟨p, { s₁ with word := formatPage s₁.word p k }, g', ?_, ?_⟩
    · rw [he]
      simp [bind, Except.bind, pure, Except.pure, hk]
    · have hout (x : ℕ) (hx : ¬ (p ≤ x ∧ x < p + PGSIZE)) : formatPage s₁.word p k x = s₁.word x :=
        formatPage_outside hk hx
      exact
        { inv := ht.inv.rewrite
            (fun a ha => hout a (fun hx => ht.unowned.not_page hx ha))
            (fun j h3 hj a ha => hout a (fun hx => ht.unowned.not_slab hx ⟨h3, hj⟩ ha))
          unowned := ht.unowned.congr le_rfl
          aligned := ht.aligned
          tag_eq := ht.tag_eq
          slab_eq := ht.slab_eq
          live_eq := ht.live_eq
          sizehead_eq := ht.sizehead_eq
          seg := formatPage_seg _ _ hk
          outside := fun hx => (hout _ hx).trans (congrFun ht.word_eq _)
          filled := fun hf => (ht.filled hf).congr rfl
          kept := ht.kept }

theorem Inv.slab_not_page (h : Inv B n s g) {k b : ℕ} (hk : 3 ≤ k ∧ k < 12)
    (hb : b ∈ g.slab k) : b ∉ g.pages := fun hp => by
  have hhas : g.Has (.page b) := hp
  have := h.owned.excl (o := .slab k b) ⟨hk, hb⟩ hhas
    (Owner.covers_start _) (Owner.covers_start _)
  simp at this

theorem Inv.slab_not_slab (h : Inv B n s g) {k j b : ℕ} (hk : 3 ≤ k ∧ k < 12)
    (hj : 3 ≤ j ∧ j < 12) (hb : b ∈ g.slab k) (hne : j ≠ k) : b ∉ g.slab j := fun hp => by
  have hhas : g.Has (.slab j b) := ⟨hj, hp⟩
  have := h.owned.excl (o := .slab k b) ⟨hk, hb⟩ hhas
    (Owner.covers_start _) (Owner.covers_start _)
  simp only [Owner.slab.injEq, and_true] at this
  exact hne this.symm

def Ghost.withSlab (g : Ghost) (k : ℕ) (xs : List ℕ) : Ghost :=
  { g with slab := Function.update g.slab k xs }

@[simp] theorem Ghost.withSlab_self (g : Ghost) (k : ℕ) (xs : List ℕ) :
    (g.withSlab k xs).slab k = xs := Function.update_self _ _ _

@[simp] theorem Ghost.withSlab_of_ne (g : Ghost) {k j : ℕ} (hj : j ≠ k) (xs : List ℕ) :
    (g.withSlab k xs).slab j = g.slab j := Function.update_of_ne hj _ _

/-- Replace the list of one class, given its new chain. -/
theorem Inv.setSlab (h : Inv B 12 s g) {k : ℕ} {w : ℕ → ℕ} {t : List ℕ} (hk : 3 ≤ k ∧ k < 12)
    (ho : Owned B s (g.withSlab k (s.sizehead k :: t)))
    (hp : ∀ a ∈ g.pages, w a = s.word a)
    (hs : ∀ j, 3 ≤ j → j < 12 → j ≠ k → ∀ a ∈ g.slab j, w a = s.word a)
    (hc : Chain w (s.sizehead k) (s.sizehead k :: t)) :
    Inv B 12 { s with word := w }
      (g.withSlab k (s.sizehead k :: t)) where
  geom := h.geom.congr rfl rfl rfl (fun _ => rfl)
  owned := ho.congr rfl rfl
  linked :=
    { pages := h.linked.pages.congr hp
      slabs := fun {j} h3 hn => by
        by_cases hj : j = k
        · subst hj
          simpa using hc
        · simpa [hj] using (h.linked.slabs h3 hn).congr (hs j h3 hn hj)
      heads := fun {j} h3 hn => by
        refine ⟨(h.linked.heads h3 hn).1, ?_⟩
        by_cases hj : j = k
        · subst hj
          exact ⟨t, by simp⟩
        · simpa [hj] using (h.linked.heads h3 hn).2
      empty := fun {j} hn => by
        simpa [show j ≠ k by omega] using h.linked.empty hn
      classes := le_rfl
      sorted := h.linked.sorted }
  live := h.live

/-- Refilling a class whose list is down to its sentinel. -/
theorem Inv.refill (h : Inv B 12 s g) {k p : ℕ} (hk : 3 ≤ k ∧ k < 12)
    (hg : g.slab k = [s.sizehead k]) (hu : Unowned B s g p PGSIZE) (hp : p % PGSIZE = 0)
    (ht : (getinfobybp s p).usedORbitposBigORlen = 1 ||| 2 ^ k)
    (hseg : Seg s.word p (blocks p k) 0) :
    Inv B 12 (setNext s (s.sizehead k) p)
      (g.withSlab k (s.sizehead k :: blocks p k)) := by
  have hmem : s.sizehead k ∈ g.slab k := by simp [hg]
  have hnot : s.sizehead k ∉ blocks p k := by
    intro hm
    obtain ⟨i, hi, he⟩ := mem_blocks.mp hm
    have hb := nbp_bounds (p := p) hk.2.le hi
    have := Nat.two_pow_pos k
    exact hu.not_slab (by omega) hk hmem
  have hpos : ∀ b ∈ blocks p k, b ≠ 0 := by
    intro b hb
    obtain ⟨i, hi, rfl⟩ := mem_blocks.mp hb
    have := nbp_bounds (p := p) hk.2.le hi
    have := hu.low
    have := h.geom.base_pos
    omega
  refine h.setSlab hk ?_ ?_ ?_ ?_
  · refine h.owned.addBlocks h.geom hu hp hk.2 ht (fun {o} ho => ?_)
    cases o with
    | slab j b =>
      by_cases hj : j = k
      · subst hj
        obtain ⟨-, hm⟩ := ho
        simp only [Ghost.withSlab_self, List.mem_cons] at hm
        rcases hm with rfl | hm
        · exact Or.inl ⟨hk, hmem⟩
        · exact Or.inr ⟨b, hm, rfl⟩
      · exact Or.inl ⟨ho.1, by simpa [hj] using ho.2⟩
    | page q => exact Or.inl ho
    | live b => exact Or.inl ho
  · intro a ha
    exact Function.update_of_ne (by rintro rfl; exact h.slab_not_page hk hmem ha) _ _
  · intro j h3 hj hne a ha
    exact Function.update_of_ne
      (by rintro rfl; exact h.slab_not_slab hk ⟨h3, hj⟩ hmem hne ha) _ _
  · refine ⟨⟨rfl, ?_⟩, ?_, List.nodup_cons.mpr ⟨hnot, blocks_nodup p k⟩⟩
    · rw [Function.update_self]
      exact hseg.congr (fun b hb => Function.update_of_ne (by rintro rfl; exact hnot hb) _ _)
    · intro x hx
      rcases List.mem_cons.mp hx with rfl | hx
      · exact (h.linked.slabs hk.1 hk.2).ne_null _ hmem
      · exact hpos x hx

theorem covers_block {p k x : ℕ} (hk : k ≤ 12) (hx : p ≤ x ∧ x < p + PGSIZE) :
    ∃ b ∈ blocks p k, (Owner.slab k b).Covers x := by
  have hpow := Nat.two_pow_pos k
  have hdiv := Nat.div_add_mod' (x - p) (2 ^ k)
  have hmod := Nat.mod_lt (x - p) hpow
  have hcount : (x - p) / 2 ^ k < PGSIZE / 2 ^ k := by
    refine Nat.div_lt_of_lt_mul ?_
    rw [Nat.mul_comm, block_count hk]
    omega
  refine ⟨nbp p k ((x - p) / 2 ^ k), mem_blocks.mpr ⟨_, hcount, rfl⟩, ?_⟩
  simp only [Owner.Covers, Owner.start, Owner.size, nbp]
  omega

theorem Filled.refill {k p : ℕ} (h : Filled B s g p PGSIZE) (hk : 3 ≤ k ∧ k < 12)
    (hg : g.slab k = [s.sizehead k]) :
    Filled B (setNext s (s.sizehead k) p) (g.withSlab k (s.sizehead k :: blocks p k)) 0 0 := by
  refine h.transfer rfl (fun {o} ho => Or.inl ?_) fun x h1 h2 _ => ?_
  · cases o with
    | slab j b =>
      refine ⟨ho.1, ?_⟩
      by_cases hj : j = k
      · subst hj
        have hb := ho.2
        rw [hg] at hb
        rw [Ghost.withSlab_self, List.mem_singleton.mp hb]
        exact List.mem_cons_self
      · rw [Ghost.withSlab_of_ne g hj]
        exact ho.2
    | page q => exact ho
    | live b => exact ho
  · obtain ⟨b, hb, hc⟩ := covers_block hk.2.le ⟨h1, h2⟩
    refine ⟨.slab k b, ⟨hk, ?_⟩, hc⟩
    rw [Ghost.withSlab_self]
    exact List.mem_cons_of_mem _ hb

/-- Unlinking the block behind the sentinel. -/
theorem Inv.takeBlock (h : Inv B 12 s g) {k q : ℕ} {rest : List ℕ} (hk : 3 ≤ k ∧ k < 12)
    (hg : g.slab k = s.sizehead k :: q :: rest) :
    Inv B 12 (setNext s (s.sizehead k) (s.word q))
        (g.withSlab k (s.sizehead k :: rest)) ∧
      Unowned B (setNext s (s.sizehead k) (s.word q))
        (g.withSlab k (s.sizehead k :: rest)) q (2 ^ k) := by
  have hc := h.linked.slabs hk.1 hk.2
  rw [hg] at hc
  have hnd := hc.nodup
  simp only [List.nodup_cons, List.mem_cons, not_or] at hnd
  have hmem : s.sizehead k ∈ g.slab k := by simp [hg]
  have hsub {o : Owner} (ho : (g.withSlab k (s.sizehead k :: rest)).Has o) : g.Has o ∧ o ≠ .slab k q := by
    cases o with
    | slab j b =>
      by_cases hj : j = k
      · subst hj
        obtain ⟨-, hm⟩ := ho
        simp only [Ghost.withSlab_self, List.mem_cons] at hm
        refine ⟨⟨hk, by rw [hg]; simp only [List.mem_cons]; tauto⟩, ?_⟩
        rintro ⟨⟩
        rcases hm with hm | hm
        · exact hnd.1.1 hm.symm
        · exact hnd.2.1 hm
      · refine ⟨⟨ho.1, by simpa [hj] using ho.2⟩, ?_⟩
        rintro ⟨⟩
        exact hj rfl
    | page p => exact ⟨ho, by simp⟩
    | live b => exact ⟨ho, by simp⟩
  refine ⟨h.setSlab hk (h.owned.mono (fun ho => (hsub ho).1)) ?_ ?_ ?_, ?_⟩
  · intro a ha
    exact Function.update_of_ne (by rintro rfl; exact h.slab_not_page hk hmem ha) _ _
  · intro j h3 hj hne a ha
    exact Function.update_of_ne
      (by rintro rfl; exact h.slab_not_slab hk ⟨h3, hj⟩ hmem hne ha) _ _
  · have hc' : Chain s.word (s.sizehead k) ([] ++ s.sizehead k :: ([q] ++ rest)) := hc
    have hrm := hc'.removeAfter
      (w := Function.update s.word (s.sizehead k) (s.word q)) (by simp)
      (fun y hy => Function.update_of_ne (by rintro rfl; exact hnd.1.2 hy) _ _)
      (by rw [Function.update_self]; exact hc.tail.tail.head)
    exact hrm
  · exact ((h.owned.release (o := .slab k q) ⟨hk, by simp [hg]⟩ hsub :)).congr le_rfl

theorem Filled.takeBlock {k q : ℕ} {rest : List ℕ} (h : Filled B s g 0 0)
    (hg : g.slab k = s.sizehead k :: q :: rest) :
    Filled B (setNext s (s.sizehead k) (s.word q)) (g.withSlab k (s.sizehead k :: rest)) q
      (2 ^ k) := by
  refine h.transfer rfl (fun {o} ho => ?_) fun x _ hx => by omega
  cases o with
  | slab j b =>
    by_cases hj : j = k
    · subst hj
      have hb := ho.2
      rw [hg, List.mem_cons, List.mem_cons] at hb
      rcases hb with rfl | rfl | hb
      · exact Or.inl ⟨ho.1, by rw [Ghost.withSlab_self]; exact List.mem_cons_self⟩
      · exact Or.inr fun x hx => hx
      · exact Or.inl ⟨ho.1, by rw [Ghost.withSlab_self]; exact List.mem_cons_of_mem _ hb⟩
    · exact Or.inl ⟨ho.1, by rw [Ghost.withSlab_of_ne g hj]; exact ho.2⟩
  | page p => exact Or.inl ho
  | live b => exact Or.inl ho

/-! ### Requests of at most a page -/

/-- The bytes a request was given before it becomes a live block. -/
structure Carved (B : ℕ) (s' : Heap) (g g' : Ghost) (p size : ℕ) : Prop where
  inv : Inv B 12 s' g'
  unowned : Unowned B s' g' p (capacity size)
  aligned : p % min (capacity size) PGSIZE = 0
  tag_eq : (getinfobybp s' p).usedORbitposBigORlen = tagOf size
  live_eq : g'.live = g.live

theorem Inv.carveBlock (h : Inv B 12 s g) {k q : ℕ} {rest : List ℕ} (hk : 3 ≤ k ∧ k < 12)
    (hg : g.slab k = s.sizehead k :: q :: rest) {size : ℕ} (hsize : classOf size = k) :
    Carved B (setNext s (s.sizehead k) (s.word q)) g (g.withSlab k (s.sizehead k :: rest))
      q size := by
  have hcap : capacity size = 2 ^ k := by simp [capacity, hsize, hk.2.le]
  have htag : tagOf size = 1 ||| 2 ^ k := by simp [tagOf, hsize, hk.2.le]
  have ho : g.Has (.slab k q) := ⟨hk, by simp [hg]⟩
  obtain ⟨hi, hu⟩ := h.takeBlock hk hg
  exact ⟨hi, hcap ▸ hu, hcap ▸ h.owned.aligned ho, htag ▸ h.owned.tagged ho, rfl⟩

/-- A class with blocks behind its sentinel gives its first one. -/
theorem smallfind_listed {k q : ℕ} {rest : List ℕ}
    (hc : Chain s.word (s.sizehead k) (s.sizehead k :: q :: rest)) :
    smallfind s k = .ok (q, setNext s (s.sizehead k) (s.word q)) := by
  have hnext : s.word (s.sizehead k) = q := hc.tail.head
  have hq0 : q ≠ 0 := hc.ne_null q (by simp)
  unfold smallfind
  simp [hnext, hq0, bind, Except.bind, pure, Except.pure]

/-- A class down to its sentinel gives the first block of a new page. -/
theorem smallfind_refilled (h : Inv B 12 s g) {k p : ℕ} {s₁ : Heap} {g₁ : Ghost}
    (hk : 3 ≤ k ∧ k < 12) (hg : g.slab k = [s.sizehead k])
    (he : acquireonepage s k = .ok (p, s₁)) (ha : GotSlab B 12 s s₁ g g₁ p k) :
    ∃ s₂ rest, s₂ = setNext s₁ (s₁.sizehead k) p ∧ blocks p k = p :: rest ∧
      smallfind s k = .ok (p, setNext s₂ (s₂.sizehead k) (s₂.word p)) ∧
      Inv B 12 s₂ (g₁.withSlab k (s₂.sizehead k :: blocks p k)) := by
  have hc := h.linked.slabs hk.1 hk.2
  rw [hg] at hc
  have hnext : s.word (s.sizehead k) = 0 := hc.tail.head
  have hh : s₁.sizehead k = s.sizehead k := congrFun ha.sizehead_eq k
  have hg₁ : g₁.slab k = [s₁.sizehead k] := by rw [ha.slab_eq, hg, hh]
  have hr := ha.inv.refill hk hg₁ ha.unowned ha.aligned ha.tag_eq ha.seg
  obtain ⟨q, rest, hb⟩ : ∃ q rest, blocks p k = q :: rest := by
    apply List.exists_cons_of_ne_nil
    have := block_count_pos hk.2.le
    simp only [blocks, ne_eq, List.map_eq_nil_iff, List.range_eq_nil]
    omega
  obtain rfl : p = q := by
    have hs := ha.seg
    rw [hb] at hs
    exact hs.1
  have hp0 : p ≠ 0 := by
    have := ha.unowned.low
    have := h.geom.base_pos
    omega
  refine ⟨_, rest, rfl, hb, ?_, hr⟩
  have hw : (setNext s₁ (s₁.sizehead k) p).word ((setNext s₁ (s₁.sizehead k) p).sizehead k) = p :=
    Function.update_self _ _ _
  unfold smallfind
  simp only [hnext, he, bind, Except.bind, pure, Except.pure, ↓reduceIte]
  rw [hw]
  exact if_pos hp0

theorem smallfind_spec (h : Inv B 12 s g) {k size : ℕ} (hk : 3 ≤ k ∧ k < 12)
    (hsize : classOf size = k) :
    smallfind s k = .error .noSpaceInHeap ∨
      ∃ p s' g', smallfind s k = .ok (p, s') ∧ Carved B s' g g' p size ∧
        (Filled B s g 0 0 → Filled B s' g' p (capacity size)) := by
  have hcap : capacity size = 2 ^ k := by simp [capacity, hsize, hk.2.le]
  obtain ⟨t, hg⟩ := (h.linked.heads hk.1 hk.2).2
  have hc := h.linked.slabs hk.1 hk.2
  rw [hg] at hc
  cases t with
  | nil =>
    rcases acquireonepage_spec h hk.2 with he | ⟨p, s₁, g₁, he, ha⟩
    · left
      have hnext : s.word (s.sizehead k) = 0 := hc.tail.head
      unfold smallfind
      simp [hnext, he, bind, Except.bind]
    · right
      obtain ⟨s₂, rest, rfl, hb, hfind, hr⟩ := smallfind_refilled h hk hg he ha
      have hg₁ : g₁.slab k = [s₁.sizehead k] := by rw [ha.slab_eq, hg, ha.sizehead_eq]
      have hlist : (g₁.withSlab k (s₁.sizehead k :: blocks p k)).slab k =
          s₁.sizehead k :: p :: rest := by simp [hb]
      have hcv := hr.carveBlock (q := p) hk hlist hsize
      refine ⟨p, _, _, hfind, { hcv with live_eq := ha.live_eq }, fun hf => ?_⟩
      rw [hcap]
      exact ((ha.filled hf).refill hk hg₁).takeBlock hlist
  | cons q rest =>
    exact Or.inr ⟨q, _, _, smallfind_listed hc, h.carveBlock hk hg hsize,
      fun hf => hcap ▸ hf.takeBlock hg⟩

theorem Filled.give {p size : ℕ} (h : Filled B s g' p (capacity size)) (hl : g'.live = g.live) :
    Filled B s { g' with live := (p, size) :: g.live } 0 0 := by
  refine h.transfer rfl (fun {o} ho => Or.inl ?_) fun x h1 h2 _ =>
    ⟨.live (p, size), List.mem_cons_self, h1, h2⟩
  cases o with
  | slab j b => exact ho
  | page q => exact ho
  | live b => exact List.mem_cons_of_mem _ (hl ▸ ho)

/-- A carved range becomes a live block. -/
theorem Carved.give {p size : ℕ} (h : Carved B s' g g' p size) :
    Inv B 12 s' { g' with live := (p, size) :: g.live } := by
  have hnot : (p, size) ∉ g'.live := fun hm =>
    h.unowned.free (o := .live (p, size)) hm (Owner.covers_start _)
      ⟨le_rfl, Nat.lt_add_of_pos_right (capacity_pos size)⟩
  rw [← h.live_eq]
  refine ⟨h.inv.geom, ?_, ⟨h.inv.linked.pages, h.inv.linked.slabs, h.inv.linked.heads,
    h.inv.linked.empty, h.inv.linked.classes, h.inv.linked.sorted⟩, List.nodup_cons.mpr ⟨hnot, h.inv.live⟩⟩
  refine h.inv.owned.grow h.unowned (fun o => o = .live (p, size)) ?_ ?_ ?_ ?_ ?_
  · intro o ho
    cases o with
    | slab j b => exact Or.inl ho
    | page q => exact Or.inl ho
    | live b =>
      rcases List.mem_cons.mp ho with rfl | hm
      · exact Or.inr rfl
      · exact Or.inl hm
  · rintro _ rfl
    exact ⟨le_rfl, le_rfl⟩
  · rintro _ _ x rfl rfl _ _
    rfl
  · rintro _ rfl
    exact h.aligned
  · rintro _ rfl
    exact h.tag_eq

end Zrhos.Mem
