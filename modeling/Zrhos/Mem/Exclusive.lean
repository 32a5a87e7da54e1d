import Zrhos.Mem.Free

/-! Exclusivity of the heap over whole runs: from `mem_init` on, no sequence of
`mm_malloc` and `mm_free` calls hands out bytes that are in use or on a free list. -/
namespace Zrhos.Mem
open LinkedList

variable {B n : ℕ} {s s' : Heap} {g g' : Ghost} {word : ℕ → ℕ} {kend : ℕ}

/-! ### Allocation of any size -/

/-- A request for which `bigfind` falls through. -/
def Wasteful (s : Heap) (size : ℕ) : Prop := 12 < classOf size ∧ Spills s (pagesOf size)

theorem getpage_carved (h : Inv B 12 s g) {size : ℕ} (hc : classOf size = 12) :
    getpage s (1 ||| 2 ^ 12) = .error .noSpaceInHeap ∨
      ∃ p s' g', getpage s (1 ||| 2 ^ 12) = .ok (p, s') ∧ Carved B s' g g' p size ∧
        (Filled B s g 0 0 → Filled B s' g' p (capacity size)) := by
  have hcap : capacity size = PGSIZE := by simp [capacity, hc, PGSIZE]
  have htag : tagOf size = 1 ||| 2 ^ 12 := by simp [tagOf, hc]
  rcases getpage_spec h (1 ||| 2 ^ 12) with he | ⟨p, s', g', he, ht⟩
  · exact Or.inl he
  · refine Or.inr ⟨p, s', g', he, ⟨ht.inv, hcap ▸ ht.unowned, ?_, htag ▸ ht.tag_eq, ht.live_eq⟩,
      fun hf => hcap ▸ ht.filled hf⟩
    rw [hcap, min_self]
    exact ht.aligned

theorem mmMalloc_eq {size : ℕ} (hsize : size ≤ 2 ^ 24) :
    mmMalloc s size = if classOf size < 12 then smallfind s (classOf size)
      else if classOf size = 12 then getpage s (1 ||| 2 ^ 12) else bigfind s (pagesOf size) := by
  unfold mmMalloc
  simp only [not_lt.mpr hsize, PAGEPOS_eq, ↓reduceIte]
  rfl

theorem mmMalloc_spec (h : Inv B 12 s g) {size : ℕ} (hsize : size ≤ 2 ^ 24) :
    mmMalloc s size = .error .noSpaceInHeap ∨
      ∃ p s' g', mmMalloc s size = .ok (p, s') ∧ Carved B s' g g' p size ∧
        (¬ Wasteful s size → Filled B s g 0 0 → Filled B s' g' p (capacity size)) ∧
        (Wasteful s size → Unowned B s' g' (p + capacity size) PGSIZE) := by
  have h3 := three_le_classOf size
  rw [mmMalloc_eq hsize]
  split_ifs with hs hp
  · rcases smallfind_spec h ⟨h3, hs⟩ rfl with he | ⟨p, s', g', he, hc, hf⟩
    · exact Or.inl he
    · exact Or.inr ⟨p, s', g', he, hc, fun _ => hf, fun hw => absurd hw.1 (by omega)⟩
  · rcases getpage_carved h hp with he | ⟨p, s', g', he, hc, hf⟩
    · exact Or.inl he
    · exact Or.inr ⟨p, s', g', he, hc, fun _ => hf, fun hw => absurd hw.1 (by omega)⟩
  · have hbig : 12 < classOf size := by omega
    have hcap : capacity size = pagesOf size * PGSIZE := by simp [capacity, hbig]
    rcases bigfind_spec h hbig with he | ⟨p, s', g', he, hc, ha⟩
    · exact Or.inl he
    · refine Or.inr ⟨p, s', g', he, hc, fun hno hf => ?_, fun hw => ?_⟩
      · rw [hcap]
        exact ha.filled (fun hs => hno ⟨hbig, hs⟩) hf
      · rw [hcap]
        exact ha.lost hw.2

/-! ### Initialisation -/

/-- The first byte behind `PageArray`. -/
def heapBase (kend : ℕ) : ℕ := pgRoundUp kend + pageArrayBytes (pgRoundUp kend) MEMSTOP

theorem heapBase_pos (kend : ℕ) : 0 < heapBase kend := by
  unfold heapBase
  by_cases h : pgRoundUp kend = 0
  · rw [h]
    decide
  · omega

theorem heapBase_mod (kend : ℕ) : heapBase kend % PGSIZE = 0 := by
  have h1 := pgRoundUp_mod kend
  have h2 := pgRoundUp_mod ((MEMSTOP - pgRoundUp kend) / PGSIZE)
  unfold heapBase pageArrayBytes
  simp only [PGSIZE] at *
  omega

/-- While the page list is empty, pages come from the top of the heap. -/
theorem acquireonepage_fresh {k p : ℕ} (hz : s.pagehead = 0)
    (he : acquireonepage s k = .ok (p, s')) :
    p = s.heapTop ∧ s'.pagehead = 0 ∧ s'.len = s.len + 1 := by
  unfold acquireonepage getpage at he
  rw [if_pos hz, allocpage_eq] at he
  split_ifs at he <;> cases he <;> exact ⟨rfl, hz, rfl⟩

/-- A formatted page becomes the list of a class that had none. -/
theorem Inv.openSlab (h : Inv B n s g) {p : ℕ} (hn : 3 ≤ n ∧ n < 12)
    (hu : Unowned B s g p PGSIZE) (hp : p = B + (n - 3) * PGSIZE)
    (ht : (getinfobybp s p).usedORbitposBigORlen = 1 ||| 2 ^ n)
    (hseg : Seg s.word p (blocks p n) 0) :
    Inv B (n + 1) { s with sizehead := Function.update s.sizehead n p }
      (g.withSlab n (blocks p n)) := by
  have hmod : p % PGSIZE = 0 := by
    have := h.geom.base_mod
    rw [hp]
    simp only [PGSIZE] at *
    omega
  have hpos : ∀ b ∈ blocks p n, b ≠ 0 := by
    intro b hb
    obtain ⟨i, hi, rfl⟩ := mem_blocks.mp hb
    have := nbp_bounds (p := p) hn.2.le hi
    have := hu.low
    have := h.geom.base_pos
    omega
  have howned : Owned B s (g.withSlab n (blocks p n)) := by
    refine h.owned.addBlocks h.geom hu hmod hn.2 ht (fun {o} ho => ?_)
    cases o with
    | slab j b =>
      by_cases hj : j = n
      · subst hj
        exact Or.inr ⟨b, by simpa using ho.2, rfl⟩
      · exact Or.inl ⟨ho.1, by simpa [hj] using ho.2⟩
    | page q => exact Or.inl ho
    | live b => exact Or.inl ho
  obtain ⟨t, hb⟩ : ∃ t, blocks p n = p :: t := by
    cases hb : blocks p n with
    | nil =>
      have := block_count_pos hn.2.le
      simp only [blocks, List.map_eq_nil_iff, List.range_eq_nil] at hb
      omega
    | cons q t =>
      rw [hb] at hseg
      exact ⟨t, by rw [hseg.1]⟩
  refine ⟨h.geom.congr rfl rfl rfl (fun _ => rfl), howned.congr rfl rfl,
    ⟨h.linked.pages, ?_, ?_, ?_, hn.2, h.linked.sorted⟩, h.live⟩
  · intro k h3 hk
    by_cases hkn : k = n
    · subst hkn
      simpa using (⟨hseg, hpos, blocks_nodup p k⟩ : Chain s.word p (blocks p k))
    · simpa [hkn] using h.linked.slabs h3 (by omega)
  · intro k h3 hk
    by_cases hkn : k = n
    · subst hkn
      exact ⟨by simp [hp], t, by simp [hb]⟩
    · simpa [hkn] using h.linked.heads h3 (by omega)
  · intro k hk
    simpa [show k ≠ n by omega] using h.linked.empty (show n ≤ k by omega)

theorem Filled.openSlab {p : ℕ} (h : Filled B s g p PGSIZE) (hn : 3 ≤ n ∧ n < 12)
    (hg : g.slab n = []) :
    Filled B { s with sizehead := Function.update s.sizehead n p } (g.withSlab n (blocks p n))
      0 0 := by
  refine h.transfer rfl (fun {o} ho => Or.inl ?_) fun x h1 h2 _ => ?_
  · cases o with
    | slab j b =>
      refine ⟨ho.1, ?_⟩
      by_cases hj : j = n
      · subst hj
        exact absurd (hg ▸ ho.2) List.not_mem_nil
      · rw [Ghost.withSlab_of_ne g hj]
        exact ho.2
    | page q => exact ho
    | live b => exact ho
  · obtain ⟨b, hb, hc⟩ := covers_block hn.2.le ⟨h1, h2⟩
    exact ⟨.slab n b, ⟨hn, by rwa [Ghost.withSlab_self]⟩, hc⟩

theorem mmInitLoop_spec {m : ℕ} (h : Inv B n s g) (hn : 3 ≤ n) (hm : n + m = 12)
    (hz : s.pagehead = 0) (hlen : s.len = n - 3) (hl : g.live = []) (hf : Filled B s g 0 0) :
    mmInitLoop s (List.range' n m) = .error .noSpaceInHeap ∨
      ∃ s' g', mmInitLoop s (List.range' n m) = .ok s' ∧ Inv B 12 s' g' ∧ g'.live = [] ∧
        Filled B s' g' 0 0 := by
  induction m generalizing n s g with
  | zero =>
    obtain rfl : n = 12 := by omega
    exact Or.inr ⟨s, g, rfl, h, hl, hf⟩
  | succ m ih =>
    rw [List.range'_succ]
    unfold mmInitLoop
    rcases acquireonepage_spec h (k := n) (by omega) with he | ⟨p, s₁, g₁, he, hs⟩
    · left
      rw [he]
      rfl
    · obtain ⟨hp, hz₁, hlen₁⟩ := acquireonepage_fresh hz he
      have hpB : p = B + (n - 3) * PGSIZE := by rw [hp, h.geom.top, hlen]
      have ho := hs.inv.openSlab ⟨hn, by omega⟩ hs.unowned hpB hs.tag_eq hs.seg
      have hrest := ih ho (by omega) (by omega) hz₁ (by simp only [hlen₁, hlen]; omega)
        (hs.live_eq.trans hl)
        ((hs.filled hf).openSlab ⟨hn, by omega⟩ (hs.inv.linked.empty le_rfl))
      simpa only [he, bind, Except.bind] using hrest

theorem memInit_spec (word : ℕ → ℕ) (kend : ℕ) :
    memInit word kend = .error .noSpaceInHeap ∨
      ∃ s g, memInit word kend = .ok s ∧ Inv (heapBase kend) 12 s g ∧ g.live = [] ∧
        Filled (heapBase kend) s g 0 0 := by
  have hnone {o : Owner} : ¬ (⟨fun _ => [], [], []⟩ : Ghost).Has o := by
    cases o <;> simp [Ghost.Has]
  unfold memInit mmInit memSbrk
  split_ifs with hf
  · exact Or.inl rfl
  · simp only [bind, Except.bind, PAGEPOS_eq]
    refine mmInitLoop_spec (n := 3) (m := 9) (g := ⟨fun _ => [], [], []⟩) ?_ le_rfl rfl rfl rfl rfl
      fun x hB hx _ => absurd (hx.trans_le (by simp [heapBase])) (not_lt.mpr hB)
    refine ⟨⟨heapBase_pos kend, heapBase_mod kend, ?_, ?_, rfl, fun hl => absurd rfl hl⟩,
      ⟨fun ho => (hnone ho).elim, fun ho => (hnone ho).elim, fun ho => (hnone ho).elim,
        fun ho => (hnone ho).elim⟩,
      ⟨Chain.nil, ?_, ?_, fun _ => rfl, by decide, List.Pairwise.nil⟩,
      List.nodup_nil⟩
    · simp [heapBase]
    · simp only at hf ⊢
      omega
    · intro k h3 hk
      omega
    · intro k h3 hk
      omega

/-- The entries of `PageArray` in use lie inside the bytes reserved for it, so the
array and the blocks do not share memory. -/
theorem Inv.pageArray_fits (h : Inv (heapBase kend) n s g) :
    s.len * 16 ≤ pageArrayBytes (pgRoundUp kend) MEMSTOP := by
  have htop := h.geom.top
  have hfits := h.geom.fits
  rw [h.geom.stop] at hfits
  have hlen : s.len ≤ (MEMSTOP - pgRoundUp kend) / PGSIZE := by
    rw [Nat.le_div_iff_mul_le (by decide)]
    unfold heapBase at htop
    omega
  have hup : (MEMSTOP - pgRoundUp kend) / PGSIZE ≤
      pgRoundUp ((MEMSTOP - pgRoundUp kend) / PGSIZE) := by
    have hle : (MEMSTOP - pgRoundUp kend) / PGSIZE ≤ MEMSTOP :=
      (Nat.div_le_self _ _).trans (Nat.sub_le _ _)
    exact le_pgRoundUp ((Nat.add_le_add_right hle _).trans (by decide))
  unfold pageArrayBytes
  omega

/-! ### Runs -/

/-- The states after `mem_init`, with the live blocks and the sizes they were requested
for. Between calls the owner of a block may write anything into it. -/
inductive Reachable (word : ℕ → ℕ) (kend : ℕ) : Heap → List (ℕ × ℕ) → Prop where
  | init {s : Heap} : memInit word kend = .ok s → Reachable word kend s []
  | malloc {s s' : Heap} {L : List (ℕ × ℕ)} {p size : ℕ} : Reachable word kend s L →
      size ≤ 2 ^ 24 → mmMalloc s size = .ok (p, s') → Reachable word kend s' ((p, size) :: L)
  | free {s s' : Heap} {L : List (ℕ × ℕ)} {b : ℕ × ℕ} : Reachable word kend s L → b ∈ L →
      mmFree s b.1 = .ok s' → Reachable word kend s' (L.erase b)
  | store {s : Heap} {L : List (ℕ × ℕ)} {b : ℕ × ℕ} {w : ℕ → ℕ} : Reachable word kend s L →
      b ∈ L → (∀ a, a + 8 ≤ b.1 ∨ b.1 + b.2 ≤ a → w a = s.word a) →
      Reachable word kend { s with word := w } L

/-- A first block of 100 bytes. -/
theorem first_block : ∃ s p, Reachable (fun _ => 0) 0x80030000 s [(p, 100)] := by
  have hok : ((memInit (fun _ => 0) 0x80030000).bind (mmMalloc · 100)).toBool = true := by
    decide +kernel
  cases hi : memInit (fun _ => 0) 0x80030000 with
  | error e =>
    rw [hi] at hok
    cases hok
  | ok s₀ =>
    cases hm : mmMalloc s₀ 100 with
    | error e =>
      rw [hi, Except.bind, hm] at hok
      cases hok
    | ok r =>
      exact ⟨r.2, r.1, (Reachable.init hi).malloc (by decide) hm⟩

theorem Inv.store (h : Inv B n s g) {b : ℕ × ℕ} {w : ℕ → ℕ} (hb : b ∈ g.live)
    (hsize : b.2 ≤ 2 ^ 24) (hw : ∀ a, a + 8 ≤ b.1 ∨ b.1 + b.2 ≤ a → w a = s.word a) :
    Inv B n { s with word := w } g := by
  have hcap := le_capacity hsize
  have hout {o : Owner} (ho : g.Has o) (hne : o ≠ .live b) (h8 : 8 ≤ o.size) :
      w o.start = s.word o.start := by
    apply hw
    by_contra hover
    push Not at hover
    have hsub {o' : Owner} (ho' : (⟨fun _ => [], [], [b]⟩ : Ghost).Has o') :
        g.Has o' ∧ o' ≠ o := by
      cases o' with
      | live c =>
        obtain rfl : c = b := by simpa [Ghost.Has] using ho'
        exact ⟨hb, hne.symm⟩
      | _ => simp [Ghost.Has] at ho'
    have hu := h.owned.release ho hsub
    have hmem : (⟨fun _ => [], [], [b]⟩ : Ghost).Has (.live b) := by simp [Ghost.Has]
    have hpos := capacity_pos b.2
    have hcov : (Owner.live b).Covers (max o.start b.1) := by
      refine ⟨le_max_right _ _, ?_⟩
      change max o.start b.1 < b.1 + capacity b.2
      omega
    exact hu.free hmem hcov (by omega)
  refine h.rewrite (fun a ha => hout (o := .page a) ha (by simp) ?_) (fun k h3 hk a ha =>
    hout (o := .slab k a) ⟨⟨h3, hk⟩, ha⟩ (by simp) ?_)
  · simp [Owner.size, PGSIZE]
  · exact Nat.pow_le_pow_right (n := 2) (by decide) h3

/-- Every reachable state satisfies the ownership invariant for its live blocks. -/
theorem Reachable.inv {L : List (ℕ × ℕ)} (h : Reachable word kend s L) :
    (∃ g, Inv (heapBase kend) 12 s g ∧ g.live = L) ∧ ∀ b ∈ L, b.2 ≤ 2 ^ 24 := by
  induction h with
  | init he =>
    rcases memInit_spec word kend with hf | ⟨s', g, hs, hi, hl, -⟩
    · rw [hf] at he
      cases he
    · rw [hs] at he
      cases he
      exact ⟨⟨g, hi, hl⟩, by simp⟩
  | malloc _ hsize he ih =>
    obtain ⟨⟨g, hi, rfl⟩, hL⟩ := ih
    rcases mmMalloc_spec hi hsize with hf | ⟨p', s'', g', hs, hc, -⟩
    · rw [hf] at he
      cases he
    · rw [hs] at he
      cases he
      refine ⟨⟨_, hc.give, rfl⟩, fun b hb => ?_⟩
      rcases List.mem_cons.mp hb with rfl | hb
      · exact hsize
      · exact hL b hb
  | free _ hb he ih =>
    obtain ⟨⟨g, hi, rfl⟩, hL⟩ := ih
    obtain ⟨s'', g', hs, hf⟩ := mmFree_spec hi hb (hL _ hb)
    rw [hs] at he
    cases he
    exact ⟨⟨g', hf.inv, hf.live_eq⟩, fun b hm => hL b (List.mem_of_mem_erase hm)⟩
  | store _ hb hw ih =>
    obtain ⟨⟨g, hi, rfl⟩, hL⟩ := ih
    exact ⟨⟨g, hi.store hb (hL _ hb) hw, rfl⟩, hL⟩

/-! ### Exclusivity -/

/-- The size of the block at `p` as the tag of its page tells it. -/
def capacityAt (s : Heap) (p : ℕ) : ℕ :=
  let tag := (getinfobybp s p).usedORbitposBigORlen
  if tag &&& BIGBIT = 0 then 2 ^ log2 (tag - tag % 2) else tag % BIGBIT * PGSIZE

/-- `m` bytes at `p` and `n` bytes at `q` do not overlap. -/
def Apart (p m q n : ℕ) : Prop := p + m ≤ q ∨ q + n ≤ p

structure Exclusive (kend : ℕ) (s : Heap) (L : List (ℕ × ℕ)) : Prop where
  capacity : ∀ b ∈ L, b.2 ≤ capacityAt s b.1
  aligned : ∀ b ∈ L, b.1 % min (capacityAt s b.1) PGSIZE = 0
  within : ∀ b ∈ L, heapBase kend ≤ b.1 ∧ b.1 + capacityAt s b.1 ≤ s.heapTop
  live : L.Pairwise fun b c => Apart b.1 (capacityAt s b.1) c.1 (capacityAt s c.1)
  slabs : ∀ k, 3 ≤ k → k < 12 → ∃ t, Chain s.word (s.sizehead k) (s.sizehead k :: t) ∧
    ∀ b ∈ L, ∀ q ∈ s.sizehead k :: t, Apart b.1 (capacityAt s b.1) q (2 ^ k)
  pages : ∃ zs, Chain s.word s.pagehead zs ∧
    ∀ b ∈ L, ∀ q ∈ zs, Apart b.1 (capacityAt s b.1) q PGSIZE

theorem Inv.capacityAt_eq (h : Inv B n s g) {b : ℕ × ℕ} (hb : b ∈ g.live)
    (hsize : b.2 ≤ 2 ^ 24) : capacityAt s b.1 = capacity b.2 := by
  have ht : (getinfobybp s b.1).usedORbitposBigORlen = tagOf b.2 :=
    h.owned.tagged (o := .live b) hb
  by_cases hc : classOf b.2 ≤ 12
  · obtain ⟨h1, -, h3⟩ := small_tag ⟨three_le_classOf b.2, hc⟩
    simp only [tagOf, PAGEPOS_eq, hc, ↓reduceIte] at ht
    simp only [capacityAt, capacity, ht, h1, h3, PAGEPOS_eq, hc, ↓reduceIte]
  · obtain ⟨h1, h2⟩ := big_tag (pagesOf_le hsize)
    simp only [tagOf, PAGEPOS_eq, hc, ↓reduceIte] at ht
    simp only [capacityAt, capacity, ht, h1, h2, PAGEPOS_eq, hc, ↓reduceIte]

theorem Owned.apart (h : Owned B s g) {o o' : Owner} (ho : g.Has o) (ho' : g.Has o')
    (hne : o ≠ o') : Apart o.start o.size o'.start o'.size := by
  by_contra hover
  unfold Apart at hover
  have hs := o.size_pos
  have hs' := o'.size_pos
  refine hne (h.excl (x := max o.start o'.start) ho ho' ⟨le_max_left _ _, ?_⟩
    ⟨le_max_right _ _, ?_⟩) <;> omega

theorem Inv.exclusive (h : Inv (heapBase kend) 12 s g) (hsize : ∀ b ∈ g.live, b.2 ≤ 2 ^ 24) :
    Exclusive kend s g.live := by
  have hcap {b : ℕ × ℕ} (hb : b ∈ g.live) : capacityAt s b.1 = capacity b.2 :=
    h.capacityAt_eq hb (hsize b hb)
  refine ⟨fun b hb => ?_, fun b hb => ?_, fun b hb => ?_, ?_, fun k h3 hk => ?_, ?_⟩
  · rw [hcap hb]
    exact le_capacity (hsize b hb)
  · rw [hcap hb]
    exact h.owned.aligned (o := .live b) hb
  · rw [hcap hb]
    exact h.owned.bounds (o := .live b) hb
  · refine h.live.imp_of_mem (fun {b c} hb hc hne => ?_)
    rw [hcap hb, hcap hc]
    have hhas : g.Has (.live c) := hc
    exact h.owned.apart (o := .live b) hb hhas (by simpa using hne)
  · obtain ⟨t, ht⟩ := (h.linked.heads h3 hk).2
    refine ⟨t, ht ▸ h.linked.slabs h3 hk, fun b hb q hq => ?_⟩
    rw [hcap hb]
    have hhas : g.Has (.slab k q) := ⟨⟨h3, hk⟩, ht ▸ hq⟩
    exact h.owned.apart (o := .live b) hb hhas (by simp)
  · refine ⟨g.pages, h.linked.pages, fun b hb q hq => ?_⟩
    rw [hcap hb]
    have hhas : g.Has (.page q) := hq
    exact h.owned.apart (o := .live b) hb hhas (by simp)

/-- In every state a run reaches, live blocks are exclusive, a live block can be freed
and an allocation fails only for want of space. -/
theorem reachable_exclusive {L : List (ℕ × ℕ)} (h : Reachable word kend s L) :
    Exclusive kend s L ∧ (∀ b ∈ L, ∃ s', mmFree s b.1 = .ok s') ∧
      ∀ size ≤ 2 ^ 24, mmMalloc s size = .error .noSpaceInHeap ∨
        ∃ r, mmMalloc s size = .ok r := by
  obtain ⟨⟨g, hi, rfl⟩, hsize⟩ := h.inv
  refine ⟨hi.exclusive hsize, fun b hb => ?_, fun size hs => ?_⟩
  · obtain ⟨s', -, he, -⟩ := mmFree_spec hi hb (hsize b hb)
    exact ⟨s', he⟩
  · exact (mmMalloc_spec hi hs).imp_right fun ⟨p, s', _, he, _⟩ => ⟨(p, s'), he⟩

/-- Blocks of less than a page, of a page and of two, the first of which is freed. -/
def severalBlocks : Except Stop (ℕ × ℕ × ℕ × ℕ × Heap) := do
  let s ← memInit (fun _ => 0) 0x80030000
  let (p₁, s) ← mmMalloc s 100
  check (s.pagehead = 0)
  let (p₂, s) ← mmMalloc s 8192
  let (p₃, s) ← mmMalloc s 4096
  let s ← mmFree s p₁
  let (p₄, s) ← mmMalloc s 24
  return (p₁, p₂, p₃, p₄, s)

/-- The calls of that run. -/
structure SeveralBlocks (s₀ s₁ s₂ s₃ s₄ s : Heap) (p₁ p₂ p₃ p₄ : ℕ) : Prop where
  init : memInit (fun _ => 0) 0x80030000 = .ok s₀
  first : mmMalloc s₀ 100 = .ok (p₁, s₁)
  noPages : s₁.pagehead = 0
  second : mmMalloc s₁ 8192 = .ok (p₂, s₂)
  third : mmMalloc s₂ 4096 = .ok (p₃, s₃)
  freed : mmFree s₃ p₁ = .ok s₄
  fourth : mmMalloc s₄ 24 = .ok (p₄, s)

theorem severalBlocks_calls :
    ∃ s₀ s₁ s₂ s₃ s₄ s p₁ p₂ p₃ p₄, SeveralBlocks s₀ s₁ s₂ s₃ s₄ s p₁ p₂ p₃ p₄ := by
  obtain ⟨⟨p₁, p₂, p₃, p₄, s⟩, h⟩ := ok_of_toBool (x := severalBlocks) (by decide +kernel)
  obtain ⟨s₀, h₀, h⟩ := bind_ok h
  obtain ⟨⟨q₁, s₁⟩, h₁, h⟩ := bind_ok h
  obtain ⟨_, hcheck, h⟩ := bind_ok h
  obtain ⟨⟨q₂, s₂⟩, h₂, h⟩ := bind_ok h
  obtain ⟨⟨q₃, s₃⟩, h₃, h⟩ := bind_ok h
  obtain ⟨s₄, h₄, h⟩ := bind_ok h
  obtain ⟨⟨q₄, s₅⟩, h₅, h⟩ := bind_ok h
  cases h
  exact ⟨s₀, s₁, s₂, s₃, s₄, s, p₁, p₂, p₃, p₄, h₀, h₁, of_check hcheck, h₂, h₃, h₄, h₅⟩

theorem several_blocks_exclusive : ∃ s p₂ p₃ p₄,
    Reachable (fun _ => 0) 0x80030000 s [(p₄, 24), (p₃, 4096), (p₂, 8192)] ∧
    Exclusive 0x80030000 s [(p₄, 24), (p₃, 4096), (p₂, 8192)] := by
  obtain ⟨s₀, s₁, s₂, s₃, s₄, s, p₁, p₂, p₃, p₄, h⟩ := severalBlocks_calls
  have hr := (((Reachable.init h.init).malloc (by decide) h.first).malloc (by decide)
    h.second).malloc (by decide) h.third
  have hlast := (hr.free (b := (p₁, 100)) (by simp) h.freed).malloc (by decide) h.fourth
  rw [show [(p₃, 4096), (p₂, 8192), (p₁, 100)].erase (p₁, 100) = [(p₃, 4096), (p₂, 8192)] by
    simp] at hlast
  exact ⟨s, p₂, p₃, p₄, hlast, (reachable_exclusive hlast).1⟩

end Zrhos.Mem
