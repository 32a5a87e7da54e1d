import Zrhos.Mem.Exclusive

/-! The contents of live blocks. `mm_malloc` and `mm_free` store list links in free blocks
only, so a live block holds what its owner stored there, whatever else is allocated and
freed in the meantime. -/
namespace Zrhos.Mem
open LinkedList

variable {B n : ℕ} {s s' : Heap} {g g' : Ghost} {word : ℕ → ℕ} {kend : ℕ}
  {L L' : List (ℕ × ℕ)} {w w' w'' : ℕ → ℕ}

/-- The words inside the blocks `L` agree in both memories. -/
def Kept (L : List (ℕ × ℕ)) (w w' : ℕ → ℕ) : Prop :=
  ∀ b ∈ L, ∀ x, (Owner.live b).Covers x → w' x = w x

theorem Kept.refl (L : List (ℕ × ℕ)) (w : ℕ → ℕ) : Kept L w w := fun _ _ _ _ => rfl

theorem Kept.trans (h : Kept L w w') (h' : Kept L w' w'') : Kept L w w'' :=
  fun b hb x hx => (h' b hb x hx).trans (h b hb x hx)

theorem Kept.mono (h : Kept L w w') (hs : L' ⊆ L) : Kept L' w w' :=
  fun b hb => h b (hs hb)

/-- The address lies in no live block. -/
def Outside (L : List (ℕ × ℕ)) (a : ℕ) : Prop := ∀ b ∈ L, ¬ (Owner.live b).Covers a

theorem Kept.update (h : Kept L w w') {a : ℕ} (ha : Outside L a) (v : ℕ) :
    Kept L w (Function.update w' a v) := by
  intro b hb x hx
  rw [Function.update_of_ne, h b hb x hx]
  rintro rfl
  exact ha b hb hx

/-! ### Where links are stored -/

theorem Inv.null_outside (h : Inv B n s g) : Outside g.live 0 := by
  intro b hb hc
  have hlow := (h.owned.bounds (o := .live b) hb).1
  have hpos := h.geom.base_pos
  have := hc.1
  omega

theorem Inv.page_outside (h : Inv B n s g) {a : ℕ} (ha : a ∈ g.pages) : Outside g.live a := by
  intro b hb hc
  have hhas : g.Has (.live b) := hb
  have := h.owned.excl (o := .page a) ha hhas (Owner.covers_start _) hc
  cases this

theorem Inv.slab_outside (h : Inv B n s g) {k a : ℕ} (hk : 3 ≤ k ∧ k < 12)
    (ha : a ∈ g.slab k) : Outside g.live a := by
  intro b hb hc
  have hhas : g.Has (.live b) := hb
  have := h.owned.excl (o := .slab k a) ⟨hk, ha⟩ hhas (Owner.covers_start _) hc
  cases this

/-- The node before the insertion point of a list, or the null pointer. -/
theorem lastOr_eq_zero_or_mem (xs : List ℕ) : lastOr 0 xs = 0 ∨ lastOr 0 xs ∈ xs := by
  by_cases hx : xs = []
  · exact Or.inl (by rw [hx, lastOr_nil])
  · exact Or.inr (lastOr_mem hx)

/-! ### Allocation -/

theorem smallfind_kept (h : Inv B 12 s g) {k p : ℕ} (hk : 3 ≤ k ∧ k < 12)
    (he : smallfind s k = .ok (p, s')) : Kept g.live s.word s'.word := by
  obtain ⟨t, hg⟩ := (h.linked.heads hk.1 hk.2).2
  have hc := h.linked.slabs hk.1 hk.2
  have hhead : Outside g.live (s.sizehead k) :=
    h.slab_outside hk (by rw [hg]; exact List.mem_cons_self)
  rw [hg] at hc
  cases t with
  | nil =>
    rcases acquireonepage_spec h hk.2 with hf | ⟨q, s₁, g₁, ha, hs⟩
    · have hnext : s.word (s.sizehead k) = 0 := hc.tail.head
      simp [smallfind, hnext, hf, bind, Except.bind] at he
    · obtain ⟨s₂, rest, rfl, -, hfind, -⟩ := smallfind_refilled h hk hg ha hs
      rw [hfind] at he
      cases he
      have hnew : Kept g.live s.word s₁.word := by
        intro b hb x hx
        have hb' : g₁.Has (.live b) := by
          rw [← hs.live_eq] at hb
          exact hb
        exact hs.outside fun hin => hs.unowned.free hb' hx hin
      have hh : s₁.sizehead k = s.sizehead k := congrFun hs.sizehead_eq k
      rw [← hh] at hhead
      exact (hnew.update hhead _).update hhead _
  | cons q rest =>
    rw [smallfind_listed hc] at he
    cases he
    exact (Kept.refl _ _).update hhead _

theorem allocpage_word {tag p : ℕ} (he : allocpage s tag = .ok (p, s')) : s'.word = s.word := by
  rw [allocpage_eq] at he
  split_ifs at he
  cases he
  rfl

theorem allocpages_word {m : ℕ} (he : allocpages s m = .ok s') : s'.word = s.word := by
  induction m generalizing s with
  | zero =>
    cases he
    rfl
  | succ m ih =>
    obtain ⟨⟨p, s₁⟩, h₁, h₂⟩ := bind_ok he
    rw [ih h₂, allocpage_word h₁]

/-- `bigfind` redirects the pointer behind the page before its range, and that page is on
the page list. -/
theorem bigfindRange_kept (h : Inv B 12 s g) {m p : ℕ} (hm : 2 ≤ m)
    (he : bigfindRange s m = .ok (p, s')) : Kept g.live s.word s'.word := by
  unfold bigfindRange at he
  split_ifs at he with hz
  · obtain ⟨⟨q, s₁⟩, h₁, he⟩ := bind_ok he
    obtain ⟨s₂, h₂, he⟩ := bind_ok he
    cases he
    rw [allocpages_word h₂, allocpage_word h₁]
    exact Kept.refl _ _
  · obtain ⟨c, hloop, ⟨xs, ys, hpret, hsplit, -⟩, -⟩ := h.scan hm hz
    have hout : Outside g.live c.pret := by
      rw [hpret]
      rcases lastOr_eq_zero_or_mem xs with h0 | hmem
      · rw [h0]
        exact h.null_outside
      · refine h.page_outside ?_
        rw [hsplit, List.append_assoc]
        exact List.mem_append_left _ hmem
    obtain ⟨c', hc', he⟩ := bind_ok he
    rw [hloop] at hc'
    cases hc'
    by_cases hcnt : c.count = m
    · rw [if_pos hcnt] at he
      split_ifs at he <;> cases he
      · exact Kept.refl _ _
      · exact (Kept.refl _ _).update hout _
    rw [if_neg hcnt] at he
    by_cases htop : istop s c.lp = true
    · rw [if_pos htop] at he
      obtain ⟨s₁, h₁, he⟩ := bind_ok he
      have hsame : Kept g.live s.word s₁.word := by
        rw [allocpages_word h₁]
        exact Kept.refl _ _
      split_ifs at he <;> cases he
      · exact hsame
      · exact hsame.update hout _
    · rw [if_neg htop] at he
      obtain ⟨⟨q, s₁⟩, h₁, he⟩ := bind_ok he
      obtain ⟨s₂, h₂, he⟩ := bind_ok he
      have hsame : Kept g.live s.word s₂.word := by
        rw [allocpages_word h₂, allocpage_word h₁]
        exact Kept.refl _ _
      cases he
      split_ifs
      · exact hsame.update hout _
      · exact hsame

theorem mmMalloc_kept (h : Inv B 12 s g) {size p : ℕ} (hsize : size ≤ 2 ^ 24)
    (he : mmMalloc s size = .ok (p, s')) : Kept g.live s.word s'.word := by
  rw [mmMalloc_eq hsize] at he
  split_ifs at he with hs hp
  · exact smallfind_kept h ⟨three_le_classOf size, hs⟩ he
  · rcases getpage_spec h (1 ||| 2 ^ 12) with hf | ⟨q, s₁, g₁, h₁, ht⟩
    · rw [hf] at he
      cases he
    · rw [h₁] at he
      cases he
      rw [ht.word_eq]
      exact Kept.refl _ _
  · obtain ⟨⟨q, s₁⟩, h₁, he⟩ := bind_ok he
    have hk := bigfindRange_kept h (two_le_pagesOf (by omega)) h₁
    cases he
    split_ifs
    · exact hk
    · exact hk

/-! ### Freeing -/

/-- A search through a list stops behind one of its nodes or at its head. -/
theorem seek_outside (h : Inv B n s g) {zs : List ℕ} {bp q lp p : ℕ} (hz : Chain s.word q zs)
    (ho : ∀ z ∈ zs, ∃ o, g.Has o ∧ o.start = z) (hout : ∀ z ∈ zs, Outside g.live z)
    (he : seek s.word bp s.heapTop 0 q = .ok (lp, p)) : Outside g.live lp := by
  obtain ⟨xs, ys, hsplit, -, -, hs⟩ := seek_spec hz (h.fuel_suffices hz ho)
  rw [hs] at he
  cases he
  rcases lastOr_eq_zero_or_mem xs with h0 | hmem
  · rw [h0]
    exact h.null_outside
  · refine hout _ ?_
    rw [hsplit]
    exact List.mem_append_left _ hmem

theorem insertAt_kept {bp lp p : ℕ} (hb : Outside L bp) (hl : Outside L lp) :
    Kept L s.word (insertAt s bp lp p).word := by
  unfold insertAt
  split_ifs
  · exact ((Kept.refl _ _).update hl _).update hb _
  · exact ((Kept.refl _ _).update hl _).update hb _
  · exact Kept.refl _ _

theorem linkPages_kept (h : Inv B n s g) {bp pend : ℕ} (hb : Outside g.live pend)
    (he : linkPages s bp pend = .ok s') : Kept g.live s.word s'.word := by
  unfold linkPages at he
  split_ifs at he
  · cases he
    exact (Kept.refl _ _).update hb _
  · obtain ⟨⟨lp, p⟩, hs, he⟩ := bind_ok he
    have hl := seek_outside h h.linked.pages (fun z hz => ⟨.page z, hz, rfl⟩)
      (fun z hz => h.page_outside hz) hs
    cases he
    exact ((Kept.refl _ _).update hl _).update hb _
  · cases he
    exact (Kept.refl _ _).update hb _

/-- `mm_free` writes to the block it is given and to free blocks. -/
theorem mmFree_kept (h : Inv B 12 s g) {b : ℕ × ℕ} (hb : b ∈ g.live) (hsize : b.2 ≤ 2 ^ 24)
    (he : mmFree s b.1 = .ok s') : Kept (g.live.erase b) s.word s'.word := by
  obtain ⟨hi, hu⟩ := h.takeLive hb
  have ht : (getinfobybp s b.1).usedORbitposBigORlen = tagOf b.2 :=
    h.owned.tagged (o := .live b) hb
  have hpos := capacity_pos b.2
  have hin {x : ℕ} (hx : b.1 ≤ x ∧ x < b.1 + capacity b.2) : Outside (g.live.erase b) x :=
    fun c hc hcov => hu.free (o := .live c) hc hcov hx
  have hb1 : Outside (g.live.erase b) b.1 := hin ⟨le_rfl, by omega⟩
  rcases Nat.lt_trichotomy (classOf b.2) 12 with hc | hc | hc
  · have hk : 3 ≤ classOf b.2 ∧ classOf b.2 < 12 := ⟨three_le_classOf b.2, hc⟩
    rw [tagOf, PAGEPOS_eq, if_pos hc.le] at ht
    rw [mmFree_small hk ht] at he
    obtain ⟨⟨lp, p⟩, hs, he⟩ := bind_ok he
    have hl : Outside (g.live.erase b) lp := seek_outside hi (hi.linked.slabs hk.1 hk.2)
      (fun z hz => ⟨.slab _ z, ⟨hk, hz⟩, rfl⟩) (fun z hz => hi.slab_outside hk hz) hs
    cases he
    exact insertAt_kept hb1 hl
  · have hal := h.owned.aligned (o := .live b) hb
    rw [tagOf, PAGEPOS_eq, if_pos hc.le, hc] at ht
    rw [mmFree_page hi (hu.not_page ⟨le_rfl, by omega⟩) ht] at he
    cases hl : linkPages s b.1 b.1 with
    | error e =>
      rw [hl] at he
      cases he
    | ok s₁ =>
      rw [hl] at he
      cases he
      have hk := linkPages_kept hi hb1 hl
      exact hk
  · have hm := two_le_pagesOf hc
    have hcap : capacity b.2 = pagesOf b.2 * PGSIZE := by simp [capacity, hc]
    have hal := h.owned.aligned (o := .live b) hb
    rw [tagOf, PAGEPOS_eq, if_neg (not_le.mpr hc)] at ht
    simp only [Owner.start, Owner.size, hcap] at hal
    rw [min_eq_right (by simp only [PGSIZE]; omega)] at hal
    have hu' : Unowned B s { g with live := g.live.erase b } b.1
        ((pagesOf b.2 - 1 + 1) * PGSIZE) := by
      rwa [Nat.sub_add_cancel (by omega), ← hcap]
    obtain ⟨s₁, h₁, ha⟩ := adjustpages_spec hi hu' hal
    rw [mmFree_big (pagesOf_le hsize) ht, h₁] at he
    have hrun {x : ℕ} (hx : x ∈ run b.1 (pagesOf b.2 - 1 + 1)) : Outside (g.live.erase b) x := by
      rw [Nat.sub_add_cancel (by omega)] at hx
      exact hin (hcap ▸ run_bounds hx)
    have hadj : Kept (g.live.erase b) s.word s₁.word := by
      intro c hc x hx
      exact ha.outside fun hmem => hrun hmem c hc hx
    refine hadj.trans (linkPages_kept ha.inv (hrun ?_) he)
    exact mem_run.mpr ⟨pagesOf b.2 - 1, Nat.lt_succ_self _, rfl⟩

/-! ### Runs -/

theorem Reachable.nodup (h : Reachable word kend s L) : L.Nodup := by
  obtain ⟨⟨g, hi, rfl⟩, -⟩ := h.inv
  exact hi.live

/-- `mm_malloc` leaves the contents of every live block alone. -/
theorem Reachable.malloc_kept (h : Reachable word kend s L) {size p : ℕ} (hsize : size ≤ 2 ^ 24)
    (he : mmMalloc s size = .ok (p, s')) : Kept L s.word s'.word := by
  obtain ⟨⟨g, hi, rfl⟩, -⟩ := h.inv
  exact mmMalloc_kept hi hsize he

/-- `mm_free` leaves the contents of the other live blocks alone. -/
theorem Reachable.free_kept (h : Reachable word kend s L) {b : ℕ × ℕ} (hb : b ∈ L)
    (he : mmFree s b.1 = .ok s') : Kept (L.erase b) s.word s'.word := by
  obtain ⟨⟨g, hi, rfl⟩, hsize⟩ := h.inv
  exact mmFree_kept hi hb (hsize b hb) he

/-- A store into one block leaves the words of another alone. -/
theorem Reachable.store_kept (h : Reachable word kend s L) {b c : ℕ × ℕ} (hb : b ∈ L)
    (hc : c ∈ L) (hne : c ≠ b) (hw : ∀ a, a + 8 ≤ b.1 ∨ b.1 + b.2 ≤ a → w a = s.word a) {x : ℕ}
    (hlow : c.1 ≤ x) (hhigh : x + 8 ≤ c.1 + capacity c.2) : w x = s.word x := by
  obtain ⟨⟨g, hi, rfl⟩, hsize⟩ := h.inv
  have hcap := le_capacity (hsize b hb)
  have hhas : g.Has (.live b) := hb
  have hap := hi.owned.apart (o := .live c) hc hhas (by simpa using hne)
  simp only [Apart, Owner.start, Owner.size] at hap
  refine hw x ?_
  omega

/-- A byte of a block lies in no other block. -/
theorem Reachable.outside (h : Reachable word kend s L) {b : ℕ × ℕ} (hb : b ∈ L) {x : ℕ}
    (hx : (Owner.live b).Covers x) : Outside (L.erase b) x := by
  obtain ⟨⟨g, hi, rfl⟩, -⟩ := h.inv
  intro c hc hcov
  have hc' := (hi.live.mem_erase_iff).mp hc
  have hhas : g.Has (.live c) := hc'.2
  have hsame := hi.owned.excl (o := .live b) hb hhas hx hcov
  exact hc'.1 (by simpa using hsame.symm)

/-- The owner of a block stores a word in it. -/
theorem Reachable.setWord (h : Reachable word kend s L) {b : ℕ × ℕ} (hb : b ∈ L) {x : ℕ}
    (hx : b.1 ≤ x ∧ x < b.1 + b.2) (v : ℕ) :
    Reachable word kend { s with word := Function.update s.word x v } L := by
  refine h.store hb fun a ha => Function.update_of_ne ?_ _ _
  omega

/-! ### Pages -/

theorem classOf_PGSIZE : classOf PGSIZE = 12 := by decide

theorem capacity_PGSIZE : capacity PGSIZE = PGSIZE := by
  rw [capacity, classOf_PGSIZE, PAGEPOS_eq, if_pos le_rfl]
  rfl

theorem Reachable.page_bounds (h : Reachable word kend s L) {p : ℕ} (hp : (p, PGSIZE) ∈ L) :
    p % PGSIZE = 0 ∧ p ≠ 0 ∧ p + PGSIZE ≤ WORD := by
  obtain ⟨⟨g, hi, rfl⟩, -⟩ := h.inv
  have hb := hi.owned.bounds (o := .live (p, PGSIZE)) hp
  have hal := hi.owned.aligned (o := .live (p, PGSIZE)) hp
  have hpos := hi.geom.base_pos
  have hfits := hi.geom.fits
  rw [hi.geom.stop] at hfits
  have hstop : MEMSTOP ≤ WORD := by decide
  simp only [Owner.start, Owner.size, capacity_PGSIZE, min_self] at hb hal
  exact ⟨hal, by omega, by omega⟩

/-- The page is on the page list. -/
def Listed (s : Heap) (p : ℕ) : Prop := ∃ zs, Chain s.word s.pagehead zs ∧ p ∈ zs

theorem Reachable.setWord_listed (h : Reachable word kend s L) {b : ℕ × ℕ} (hb : b ∈ L) {x : ℕ}
    (hx : b.1 ≤ x ∧ x < b.1 + b.2) (v : ℕ) {q : ℕ} (hq : Listed s q) :
    Listed { s with word := Function.update s.word x v } q := by
  obtain ⟨⟨g, hi, rfl⟩, hsize⟩ := h.inv
  obtain ⟨zs, hz, hq⟩ := hq
  rw [hz.unique hi.linked.pages] at hq
  have hi' := hi.store hb (hsize b hb) fun a ha =>
    Function.update_of_ne (show a ≠ x by omega) v s.word
  exact ⟨g.pages, hi'.linked.pages, hq⟩

/-- A live page can be freed; then it is on the page list, and so is every page that was
there before. -/
theorem Reachable.free_page (h : Reachable word kend s L) {p : ℕ} (hp : (p, PGSIZE) ∈ L) :
    ∃ s', mmFree s p = .ok s' ∧ Reachable word kend s' (L.erase (p, PGSIZE)) ∧ Listed s' p ∧
      ∀ q, Listed s q → Listed s' q := by
  obtain ⟨⟨g, hi, rfl⟩, -⟩ := h.inv
  obtain ⟨s', g', he, hf, hlisted⟩ := mmFree_page_listed hi hp classOf_PGSIZE
  refine ⟨s', he, h.free hp he, ⟨g'.pages, hf.inv.linked.pages, hlisted p (Or.inr rfl)⟩, ?_⟩
  rintro q ⟨zs, hz, hq⟩
  rw [hz.unique hi.linked.pages] at hq
  exact ⟨g'.pages, hf.inv.linked.pages, hlisted q (Or.inl hq)⟩

end Zrhos.Mem
