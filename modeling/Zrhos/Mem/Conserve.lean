import Zrhos.Mem.Exclusive

/-! Conservation of the heap over whole runs: no page drops out of the page list, the slab
classes and the live blocks, as long as no request falls through `bigfind`. -/
namespace Zrhos.Mem
open LinkedList

variable {B n : ℕ} {s s' : Heap} {g g' : Ghost} {word : ℕ → ℕ} {kend p : ℕ} {o : Owner}

/-- Runs without wasteful requests. -/
inductive Thrifty (word : ℕ → ℕ) (kend : ℕ) : Heap → List (ℕ × ℕ) → Prop where
  | init {s : Heap} : memInit word kend = .ok s → Thrifty word kend s []
  | malloc {s s' : Heap} {L : List (ℕ × ℕ)} {p size : ℕ} : Thrifty word kend s L →
      size ≤ 2 ^ 24 → ¬ Wasteful s size → mmMalloc s size = .ok (p, s') →
      Thrifty word kend s' ((p, size) :: L)
  | free {s s' : Heap} {L : List (ℕ × ℕ)} {b : ℕ × ℕ} : Thrifty word kend s L → b ∈ L →
      mmFree s b.1 = .ok s' → Thrifty word kend s' (L.erase b)
  | store {s : Heap} {L : List (ℕ × ℕ)} {b : ℕ × ℕ} {w : ℕ → ℕ} : Thrifty word kend s L →
      b ∈ L → (∀ a, a + 8 ≤ b.1 ∨ b.1 + b.2 ≤ a → w a = s.word a) →
      Thrifty word kend { s with word := w } L

theorem Thrifty.filled {L : List (ℕ × ℕ)} (h : Thrifty word kend s L) :
    (∃ g, Inv (heapBase kend) 12 s g ∧ g.live = L ∧ Filled (heapBase kend) s g 0 0) ∧
      ∀ b ∈ L, b.2 ≤ 2 ^ 24 := by
  induction h with
  | init he =>
    rcases memInit_spec word kend with hf | ⟨s', g, hs, hi, hl, hfill⟩
    · rw [hf] at he
      cases he
    · rw [hs] at he
      cases he
      exact ⟨⟨g, hi, hl, hfill⟩, by simp⟩
  | malloc _ hsize hw he ih =>
    obtain ⟨⟨g, hi, rfl, hfill⟩, hL⟩ := ih
    rcases mmMalloc_spec hi hsize with hf | ⟨p', s'', g', hs, hc, hkeep, -⟩
    · rw [hf] at he
      cases he
    · rw [hs] at he
      cases he
      refine ⟨⟨_, hc.give, rfl, (hkeep hw hfill).give hc.live_eq⟩, fun b hb => ?_⟩
      rcases List.mem_cons.mp hb with rfl | hb
      · exact hsize
      · exact hL b hb
  | free _ hb he ih =>
    obtain ⟨⟨g, hi, rfl, hfill⟩, hL⟩ := ih
    obtain ⟨s'', g', hs, hf⟩ := mmFree_spec hi hb (hL _ hb)
    rw [hs] at he
    cases he
    exact ⟨⟨g', hf.inv, hf.live_eq, hf.filled hfill⟩, fun b hm => hL b (List.mem_of_mem_erase hm)⟩
  | store _ hb hw ih =>
    obtain ⟨⟨g, hi, rfl, hfill⟩, hL⟩ := ih
    exact ⟨⟨g, hi.store hb (hL _ hb) hw, rfl, hfill.congr rfl⟩, hL⟩

/-! ### What a page is used for -/

inductive Use where
  | listed
  | slab (k : ℕ)
  | block (b : ℕ × ℕ)

/-- The page at `p` is on the page list `zs`, or a slab page whose blocks are free in
their class or live, or a page of a live block of at least a page. -/
def Use.Holds (s : Heap) (zs : List ℕ) (slabs : ℕ → List ℕ) (L : List (ℕ × ℕ)) (p : ℕ) :
    Use → Prop
  | listed => p ∈ zs
  | slab k => (3 ≤ k ∧ k < 12) ∧ (getinfobybp s p).usedORbitposBigORlen = 1 ||| 2 ^ k ∧
      ∀ q ∈ blocks p k, q ∈ slabs k ∨ ∃ b ∈ L, b.1 = q ∧ classOf b.2 = k
  | block b => b ∈ L ∧ 12 ≤ classOf b.2 ∧ p ∈ run b.1 (pagesOf b.2)

/-- The use of the page in which an owner starts. -/
def Owner.use : Owner → Use
  | .slab k _ => .slab k
  | .page _ => .listed
  | .live b => if classOf b.2 < 12 then .slab (classOf b.2) else .block b

theorem capacity_big {size : ℕ} (h : 12 ≤ classOf size) (hs : size ≤ 2 ^ 24) :
    capacity size = pagesOf size * PGSIZE := by
  unfold capacity
  split_ifs with hc
  · have h12 : classOf size = 12 := le_antisymm (by simpa using hc) h
    have hle : size ≤ 2 ^ 12 := h12 ▸ le_two_pow_classOf hs
    have hlow : 2 ^ 11 < size := by
      by_contra hlt
      have hl : log2 size ≤ 11 := log2Loop_le (not_lt.mp hlt) (by omega)
      unfold classOf at h12
      split_ifs at h12 <;> omega
    simp only [h12, pagesOf, PGSIZE]
    omega
  · rfl

/-- An owner in a slab page. -/
theorem Owned.small (h : Owned B s g) (ho : g.Has o) {k : ℕ} (hu : o.use = .slab k) :
    (3 ≤ k ∧ k < 12) ∧ o.size = 2 ^ k ∧ o.start % 2 ^ k = 0 ∧
      (getinfobybp s o.start).usedORbitposBigORlen = 1 ||| 2 ^ k ∧
      (o.start ∈ g.slab k ∨ ∃ b ∈ g.live, b.1 = o.start ∧ classOf b.2 = k) := by
  have hal := h.aligned ho
  have htag := h.tagged ho
  cases o with
  | slab j b =>
    cases hu
    have hle : 2 ^ k ≤ PGSIZE := Nat.pow_le_pow_right (n := 2) (by omega) ho.1.2.le
    exact ⟨ho.1, rfl, by simpa only [Owner.start, Owner.size, min_eq_left hle] using hal, htag,
      Or.inl ho.2⟩
  | page q => cases hu
  | live b =>
    simp only [Owner.use] at hu
    split_ifs at hu with hc
    cases hu
    have hle : 2 ^ classOf b.2 ≤ PGSIZE := Nat.pow_le_pow_right (n := 2) (by omega) hc.le
    have hcap : capacity b.2 = 2 ^ classOf b.2 := by simp [capacity, hc.le]
    have hsz : (Owner.live b).size = 2 ^ classOf b.2 := hcap
    refine ⟨⟨three_le_classOf _, hc⟩, hsz, ?_, ?_, Or.inr ⟨b, ho, rfl, rfl⟩⟩
    · rwa [hsz, min_eq_left hle] at hal
    · have htag' : (getinfobybp s b.1).usedORbitposBigORlen = tagOf b.2 := htag
      rw [tagOf, PAGEPOS_eq, if_pos hc.le] at htag'
      exact htag'

/-- Other owners are made of whole pages. -/
theorem Owned.large (h : Owned B s g) (hsize : ∀ b ∈ g.live, b.2 ≤ 2 ^ 24) (ho : g.Has o)
    (hu : ∀ k, o.use ≠ .slab k) : o.start % PGSIZE = 0 ∧ o.size % PGSIZE = 0 := by
  have hal := h.aligned ho
  cases o with
  | slab j b => exact absurd rfl (hu j)
  | page q => exact ⟨by simpa [Owner.size] using hal, Nat.mod_self _⟩
  | live b =>
    have hbig : 12 ≤ classOf b.2 := by
      by_contra hc
      exact hu (classOf b.2) (if_pos (not_le.mp hc))
    have hcap : (Owner.live b).size = pagesOf b.2 * PGSIZE :=
      capacity_big hbig (hsize b ho)
    have hpos := (Owner.live b).size_pos
    have hge : PGSIZE ≤ (Owner.live b).size := by
      rw [hcap] at hpos ⊢
      simp only [PGSIZE] at *
      omega
    exact ⟨by rwa [min_eq_right hge] at hal, hcap ▸ Nat.mul_mod_left _ _⟩

theorem Use.Holds.owner {u : Use} (hsize : ∀ b ∈ g.live, b.2 ≤ 2 ^ 24)
    (hu : u.Holds s g.pages g.slab g.live p) : ∃ o, g.Has o ∧ o.Covers p ∧ o.use = u := by
  cases u with
  | listed => exact ⟨.page p, hu, Owner.covers_start _, rfl⟩
  | slab k =>
    obtain ⟨hk, -, hall⟩ := hu
    have hmem : p ∈ blocks p k := mem_blocks.mpr ⟨0, block_count_pos hk.2.le, by simp [nbp]⟩
    rcases hall p hmem with hq | ⟨b, hb, rfl, rfl⟩
    · exact ⟨.slab k p, ⟨hk, hq⟩, Owner.covers_start _, rfl⟩
    · exact ⟨.live b, hb, Owner.covers_start _, if_pos hk.2⟩
  | block b =>
    obtain ⟨hb, hbig, hrun⟩ := hu
    refine ⟨.live b, hb, ?_, if_neg (not_lt.mpr hbig)⟩
    obtain ⟨i, hi, rfl⟩ := mem_run.mp hrun
    simp only [Owner.Covers, Owner.start, Owner.size, capacity_big hbig (hsize b hb), PGSIZE]
    omega

theorem eq_of_dvd_of_lt {a b m : ℕ} (ha : m ∣ a) (hb : m ∣ b) (h1 : a ≤ b) (h2 : b < a + m) :
    a = b := by
  have := Nat.eq_zero_of_dvd_of_lt (Nat.dvd_sub hb ha) (by omega)
  omega

/-- A slab page holds blocks of one class only. -/
theorem Inv.slab_page (h : Inv B 12 s g) (hf : Filled B s g 0 0)
    (hsize : ∀ b ∈ g.live, b.2 ≤ 2 ^ 24) (hp : p % PGSIZE = 0) (hB : B ≤ p)
    (ht : p < s.heapTop) (ho : g.Has o) (hc : o.Covers p) {k : ℕ} (hu : o.use = .slab k) :
    (Use.slab k).Holds s g.pages g.slab g.live p := by
  obtain ⟨hk, hosize, hoal, hotag, -⟩ := h.owned.small ho hu
  have htop := h.geom.top
  have hBmod := h.geom.base_mod
  have hpow : PGSIZE % 2 ^ k = 0 :=
    Nat.mod_eq_zero_of_dvd (show 2 ^ k ∣ 2 ^ 12 from pow_dvd_pow 2 hk.2.le)
  have hdvd : 2 ^ k ∣ p := (Nat.dvd_of_mod_eq_zero hpow).trans (Nat.dvd_of_mod_eq_zero hp)
  have hstart : o.start = p := eq_of_dvd_of_lt (Nat.dvd_of_mod_eq_zero hoal) hdvd hc.1 (hosize ▸ hc.2)
  have hl : s.len ≠ 0 := (h.pageIndex_lt ho).1
  refine ⟨hk, hstart ▸ hotag, fun q hq => ?_⟩
  obtain ⟨i, hi, rfl⟩ := mem_blocks.mp hq
  have hq := nbp_bounds (p := p) hk.2.le hi
  have hend : p + PGSIZE ≤ s.heapTop := by
    simp only [PGSIZE] at *
    omega
  have hpos := Nat.two_pow_pos k
  obtain ⟨o', ho', hc'⟩ := hf (nbp p k i) (by omega) (by omega) (by omega)
  by_cases hsmall : ∃ j, o'.use = .slab j
  · obtain ⟨j, hj⟩ := hsmall
    obtain ⟨hj12, hsize', hal', htag', hin⟩ := h.owned.small ho' hj
    have hdvd' : 2 ^ j ∣ p := (show 2 ^ j ∣ 2 ^ 12 from pow_dvd_pow 2 hj12.2.le).trans
      (Nat.dvd_of_mod_eq_zero hp)
    have hlow : p ≤ o'.start := by
      by_contra hlt
      have := eq_of_dvd_of_lt (Nat.dvd_of_mod_eq_zero hal') hdvd' (not_le.mp hlt).le
        (hq.1.trans_lt (hsize' ▸ hc'.2))
      omega
    have hidx : (o'.start - B) / PGSIZE = (p - B) / PGSIZE := by
      have := hc'.1
      simp only [PGSIZE] at *
      omega
    have htags : 1 ||| 2 ^ j = 1 ||| 2 ^ k := by
      rw [← htag', ← hotag, hstart, getinfobybp, getinfobybp, h.geom.pageIndex_eq hl,
        h.geom.pageIndex_eq hl, hidx]
    obtain rfl := small_tag_injective ⟨hj12.1, hj12.2.le⟩ ⟨hk.1, hk.2.le⟩ htags
    have hq2 : 2 ^ j ∣ nbp p j i := Dvd.dvd.add hdvd (Nat.dvd_mul_left _ _)
    rwa [eq_of_dvd_of_lt (Nat.dvd_of_mod_eq_zero hal') hq2 hc'.1 (hsize' ▸ hc'.2)] at hin
  · obtain ⟨h1, h2⟩ := h.owned.large hsize ho' fun j hj => hsmall ⟨j, hj⟩
    have hcp : o'.Covers p := by
      obtain ⟨h3, h4⟩ := hc'
      constructor
      · simp only [PGSIZE] at *
        omega
      · omega
    rw [h.owned.excl ho' ho hcp hc] at hsmall
    exact absurd ⟨k, hu⟩ hsmall

theorem Inv.use_holds (h : Inv B 12 s g) (hf : Filled B s g 0 0)
    (hsize : ∀ b ∈ g.live, b.2 ≤ 2 ^ 24) (hp : p % PGSIZE = 0) (hB : B ≤ p)
    (ht : p < s.heapTop) (ho : g.Has o) (hc : o.Covers p) :
    o.use.Holds s g.pages g.slab g.live p := by
  by_cases hsmall : ∃ k, o.use = .slab k
  · obtain ⟨k, hk⟩ := hsmall
    rw [hk]
    exact h.slab_page hf hsize hp hB ht ho hc hk
  · obtain ⟨h1, h2⟩ := h.owned.large hsize ho fun k hk => hsmall ⟨k, hk⟩
    cases o with
    | slab k b => exact absurd ⟨k, rfl⟩ hsmall
    | page q =>
      have hq : q = p := eq_of_dvd_of_lt (Nat.dvd_of_mod_eq_zero h1) (Nat.dvd_of_mod_eq_zero hp)
        hc.1 hc.2
      exact hq ▸ ho
    | live b =>
      have hbig : 12 ≤ classOf b.2 := by
        by_contra hlt
        exact hsmall ⟨classOf b.2, if_pos (not_le.mp hlt)⟩
      rw [show (Owner.live b).use = .block b from if_neg (not_lt.mpr hbig)]
      refine ⟨ho, hbig, mem_run.mpr ⟨(p - b.1) / PGSIZE, ?_, ?_⟩⟩
      · have hlow := hc.1
        have hhigh := hc.2
        simp only [Owner.start, Owner.size, capacity_big hbig (hsize b ho)] at hlow hhigh
        exact Nat.div_lt_of_lt_mul (by rw [Nat.mul_comm]; omega)
      · have := hc.1
        simp only [Owner.start, PGSIZE] at *
        omega

/-- In a state whose bytes are all owned, every page has exactly one use. -/
theorem Inv.one_use (h : Inv B 12 s g) (hf : Filled B s g 0 0)
    (hsize : ∀ b ∈ g.live, b.2 ≤ 2 ^ 24) (hp : p % PGSIZE = 0) (hB : B ≤ p)
    (ht : p < s.heapTop) : ∃! u : Use, u.Holds s g.pages g.slab g.live p := by
  obtain ⟨o, ho, hc⟩ := hf p hB ht (by omega)
  refine ⟨o.use, h.use_holds hf hsize hp hB ht ho hc, fun u hu => ?_⟩
  obtain ⟨o', ho', hc', rfl⟩ := hu.owner hsize
  rw [h.owned.excl ho' ho hc' hc]

/-! ### Taking pages again -/

/-- `n` requests for a page. -/
def mallocPages : ℕ → Heap → Except Stop (List ℕ × Heap)
  | 0, s => .ok ([], s)
  | n + 1, s => do
    let (p, s) ← mmMalloc s PGSIZE
    let (ps, s) ← mallocPages n s
    return (p :: ps, s)

/-- The pages of the page list can all be had again. -/
theorem mallocPages_listed {zs : List ℕ} (h : Chain s.word s.pagehead zs) :
    ∃ s', mallocPages zs.length s = .ok (zs, s') := by
  have hpage (s : Heap) : mmMalloc s PGSIZE = getpage s (1 ||| 2 ^ PAGEPOS) := by
    unfold mmMalloc
    rw [if_neg (by decide), if_neg (by decide), if_pos (by decide)]
  induction zs generalizing s with
  | nil => exact ⟨s, rfl⟩
  | cons z zs ih =>
    have hz : s.pagehead = z := h.head
    have hne : s.pagehead ≠ 0 := hz ▸ h.ne_null z List.mem_cons_self
    have hget : mmMalloc s PGSIZE = .ok (z, { setinfobybp s z ⟨z, 1 ||| 2 ^ PAGEPOS⟩ with
        pagehead := s.word z }) := by
      rw [hpage, getpage, if_neg hne, hz]
    obtain ⟨s', hs'⟩ := ih (s := { setinfobybp s z ⟨z, 1 ||| 2 ^ PAGEPOS⟩ with
      pagehead := s.word z }) h.tail
    refine ⟨s', ?_⟩
    rw [List.length_cons, mallocPages, hget]
    change (mallocPages zs.length _ >>= _) = _
    rw [hs']
    rfl

/-- A state in which every page between `PageArray` and `heap_top` is accounted for. -/
structure Conserved (kend : ℕ) (s : Heap) (L : List (ℕ × ℕ)) (zs : List ℕ)
    (slabs : ℕ → List ℕ) : Prop where
  pages : Chain s.word s.pagehead zs
  classes : ∀ k, 3 ≤ k → k < 12 → Chain s.word (s.sizehead k) (slabs k)
  use : ∀ p, p % PGSIZE = 0 → heapBase kend ≤ p → p < s.heapTop →
    ∃! u : Use, u.Holds s zs slabs L p

theorem Use.Holds.congr {zs : List ℕ} {slabs : ℕ → List ℕ} {L : List (ℕ × ℕ)} {u : Use}
    (hs : ∀ k, 3 ≤ k → k < 12 → slabs k = g.slab k) (hu : u.Holds s zs slabs L p) :
    u.Holds s zs g.slab L p := by
  cases u with
  | slab k =>
    obtain ⟨hk, htag, hall⟩ := hu
    exact ⟨hk, htag, hs k hk.1 hk.2 ▸ hall⟩
  | _ => exact hu

theorem Inv.not_conserved (h : Inv (heapBase kend) 12 s g) (hsize : ∀ b ∈ g.live, b.2 ≤ 2 ^ 24)
    (hp : p % PGSIZE = 0) (hu : Unowned (heapBase kend) s g p PGSIZE) (zs : List ℕ)
    (slabs : ℕ → List ℕ) : ¬ Conserved kend s g.live zs slabs := by
  intro hc
  have hzs : zs = g.pages := hc.pages.unique h.linked.pages
  have hslabs (k : ℕ) (h3 : 3 ≤ k) (hk : k < 12) : slabs k = g.slab k :=
    (hc.classes k h3 hk).unique (h.linked.slabs h3 hk)
  have hin : p ≤ p ∧ p < p + PGSIZE := ⟨le_rfl, Nat.lt_add_of_pos_right (by decide)⟩
  obtain ⟨u, hholds, -⟩ := hc.use p hp hu.low (hin.2.trans_le hu.high)
  rw [hzs] at hholds
  obtain ⟨o, ho, hcov, -⟩ := (hholds.congr hslabs).owner hsize
  exact hu.free ho hcov hin

/-- A wasteful request leaves a page that belongs to nobody. -/
theorem Inv.wasteful_not_conserved (h : Inv (heapBase kend) 12 s g)
    (hsize : ∀ b ∈ g.live, b.2 ≤ 2 ^ 24) {size : ℕ} (hs : size ≤ 2 ^ 24) (hw : Wasteful s size)
    (he : mmMalloc s size = .ok (p, s')) (zs : List ℕ) (slabs : ℕ → List ℕ) :
    ¬ Conserved kend s' ((p, size) :: g.live) zs slabs := by
  rcases mmMalloc_spec h hs with hf | ⟨p', s'', g', he', hc, -, hlost⟩
  · rw [hf] at he
    cases he
  · rw [he'] at he
    cases he
    have hcap := capacity_big hw.1.le hs
    have hpos := two_le_pagesOf hw.1
    have hal : p % PGSIZE = 0 := by
      have := hc.aligned
      rwa [hcap, min_eq_right (by simp only [PGSIZE]; omega)] at this
    have hu := hlost hw
    refine hc.give.not_conserved (p := p + capacity size) ?_ ?_ ⟨hu.low, hu.high, ?_⟩ zs slabs
    · intro b hb
      rcases List.mem_cons.mp hb with rfl | hb
      · exact hs
      · exact hsize b hb
    · rw [hcap, Nat.add_mul_mod_self_right, hal]
    · intro o x ho hcov hx
      cases o with
      | slab k b => exact hu.free (o := .slab k b) ho hcov hx
      | page q => exact hu.free (o := .page q) ho hcov hx
      | live b =>
        rcases List.mem_cons.mp ho with rfl | hb
        · have := hcov.2
          simp only [Owner.start, Owner.size] at this
          omega
        · exact hu.free (o := .live b) (show b ∈ g'.live from hc.live_eq ▸ hb) hcov hx

/-- In a run without wasteful requests every page has exactly one use in every state, so
once no block of a page or more is live, all pages but those of the slabs are on the page
list and can be had again. A wasteful request loses a page. -/
theorem run_conserves_pages {L : List (ℕ × ℕ)} (h : Thrifty word kend s L) :
    (∃ zs slabs, Conserved kend s L zs slabs ∧
      ((∀ b ∈ L, classOf b.2 < 12) →
        (∀ p, p % PGSIZE = 0 → heapBase kend ≤ p → p < s.heapTop →
          p ∈ zs ∨ ∃ k, (Use.slab k).Holds s zs slabs L p) ∧
        ∃ s', mallocPages zs.length s = .ok (zs, s'))) ∧
      ∀ size ≤ 2 ^ 24, Wasteful s size → ∀ p s', mmMalloc s size = .ok (p, s') →
        ∀ zs slabs, ¬ Conserved kend s' ((p, size) :: L) zs slabs := by
  obtain ⟨⟨g, hi, rfl, hfill⟩, hsize⟩ := h.filled
  have hcons : Conserved kend s g.live g.pages g.slab := ⟨hi.linked.pages,
    fun k h3 hk => hi.linked.slabs h3 hk, fun p hp hB ht => hi.one_use hfill hsize hp hB ht⟩
  refine ⟨⟨g.pages, g.slab, hcons, fun hsmall => ⟨fun p hp hB ht => ?_, ?_⟩⟩,
    fun size hs hw p s' he zs slabs => ?_⟩
  · obtain ⟨u, hu, -⟩ := hcons.use p hp hB ht
    cases u with
    | listed => exact Or.inl hu
    | slab k => exact Or.inr ⟨k, hu⟩
    | block b => exact absurd (hsmall b hu.1) (not_lt.mpr hu.2.1)
  · exact mallocPages_listed hi.linked.pages
  · exact hi.wasteful_not_conserved hsize hs hw he zs slabs

theorem several_blocks_conserved : ∃ s p₂ p₃ p₄ zs slabs,
    Thrifty (fun _ => 0) 0x80030000 s [(p₄, 24), (p₃, 4096), (p₂, 8192)] ∧
    Conserved 0x80030000 s [(p₄, 24), (p₃, 4096), (p₂, 8192)] zs slabs := by
  obtain ⟨s₀, s₁, s₂, s₃, s₄, s, p₁, p₂, p₃, p₄, h⟩ := severalBlocks_calls
  have hthrifty : ¬ Wasteful s₁ 8192 := by
    rintro ⟨-, zs, hchain, hne, -⟩
    exact hne (hchain.null_iff.mp h.noPages)
  have hr := (((Thrifty.init h.init).malloc (by decide) (fun hw => absurd hw.1 (by decide))
    h.first).malloc (by decide) hthrifty h.second).malloc (by decide)
    (fun hw => absurd hw.1 (by decide)) h.third
  have hlast := (hr.free (b := (p₁, 100)) (by simp) h.freed).malloc (by decide)
    (fun hw => absurd hw.1 (by decide)) h.fourth
  rw [show [(p₃, 4096), (p₂, 8192), (p₁, 100)].erase (p₁, 100) = [(p₃, 4096), (p₂, 8192)] by
    simp] at hlast
  obtain ⟨zs, slabs, hc, -⟩ := (run_conserves_pages hlast).1
  exact ⟨s, p₂, p₃, p₄, zs, slabs, hlast, hc⟩

/-- Two pages are taken, the lower one is freed, and two adjacent pages are wanted. -/
def spilled : Except Stop (ℕ × ℕ × ℕ × Heap) := do
  let s ← memInit (fun _ => 0) 0x80030000
  let (p₁, s) ← mmMalloc s 4096
  let (p₂, s) ← mmMalloc s 4096
  let s ← mmFree s p₁
  check (s.pagehead = p₁ ∧ p₁ ≠ 0 ∧ s.word p₁ = 0 ∧ p₁ + PGSIZE ≠ s.heapTop)
  let (p₃, s) ← mmMalloc s 8192
  return (p₁, p₂, p₃, s)

theorem spilled_page_lost : ∃ s L, Reachable (fun _ => 0) 0x80030000 s L ∧
    ∀ zs slabs, ¬ Conserved 0x80030000 s L zs slabs := by
  obtain ⟨⟨p₁, p₂, p₃, s⟩, h⟩ := ok_of_toBool (x := spilled) (by decide +kernel)
  unfold spilled at h
  obtain ⟨s₀, h₀, h⟩ := bind_ok h
  obtain ⟨⟨q₁, s₁⟩, h₁, h⟩ := bind_ok h
  obtain ⟨⟨q₂, s₂⟩, h₂, h⟩ := bind_ok h
  obtain ⟨s₃, h₃, h⟩ := bind_ok h
  obtain ⟨_, hcheck, h⟩ := bind_ok h
  obtain ⟨⟨q₃, s₄⟩, h₄, h⟩ := bind_ok h
  cases h
  obtain ⟨hhead, hne, hnext, htop⟩ := of_check hcheck
  have hr := (((Reachable.init h₀).malloc (by decide) h₁).malloc (by decide) h₂).free
    (b := (p₁, 4096)) (by simp) h₃
  have hspill : Spills s₃ (pagesOf 8192) := by
    refine ⟨[p₁], ⟨⟨hhead, hnext⟩, by simpa using hne, by simp⟩, by simp, fun q hq => ?_, htop⟩
    have := hq.length_le
    simp [pagesOf, PGSIZE] at this
  obtain ⟨⟨g, hi, hl⟩, hsize⟩ := hr.inv
  refine ⟨_, _, hr.malloc (by decide) h₄, fun zs slabs => ?_⟩
  rw [← hl] at hsize ⊢
  exact hi.wasteful_not_conserved hsize (by decide) ⟨by decide, hspill⟩ h₄ zs slabs

end Zrhos.Mem
