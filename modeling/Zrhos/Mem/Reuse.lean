import Zrhos.Mem.Exclusive

/-! Reuse of free memory: a request that fits is served from the free lists and the heap
does not grow. A second `mm_free` of a block that was just freed changes nothing. -/
namespace Zrhos.Mem
open LinkedList

variable {B n : ℕ} {s s' : Heap} {g g' : Ghost} {word : ℕ → ℕ} {kend : ℕ}

/-! ### The free lists -/

/-- The free blocks of each class, without its sentinel, and the free pages. -/
structure FreeLists (s : Heap) (slab : ℕ → List ℕ) (zs : List ℕ) : Prop where
  slabs : ∀ k, 3 ≤ k → k < 12 → Chain s.word (s.sizehead k) (s.sizehead k :: slab k)
  pages : Chain s.word s.pagehead zs
  sorted : zs.Pairwise (· < ·)

/-- The heap has not grown from `s` to `s'`, and these are the free lists of `s'`. -/
structure Reused (s s' : Heap) (slab : ℕ → List ℕ) (zs : List ℕ) : Prop where
  top_eq : s'.heapTop = s.heapTop
  len_eq : s'.len = s.len
  lists : FreeLists s' slab zs

def Ghost.free (g : Ghost) (k : ℕ) : List ℕ := (g.slab k).tail

@[simp] theorem Ghost.free_withSlab (g : Ghost) (k x : ℕ) (t : List ℕ) :
    (g.withSlab k (x :: t)).free = Function.update g.free k t := by
  funext j
  by_cases hj : j = k
  · subst hj
    simp [Ghost.free]
  · simp [Ghost.free, hj]

theorem Inv.slab_eq (h : Inv B 12 s g) {k : ℕ} (hk : 3 ≤ k ∧ k < 12) :
    g.slab k = s.sizehead k :: g.free k := by
  obtain ⟨t, ht⟩ := (h.linked.heads hk.1 hk.2).2
  rw [Ghost.free, ht, List.tail_cons]

theorem Inv.freeLists (h : Inv B 12 s g) : FreeLists s g.free g.pages where
  slabs _ h3 hk := h.slab_eq ⟨h3, hk⟩ ▸ h.linked.slabs h3 hk
  pages := h.linked.pages
  sorted := h.linked.sorted

/-! ### Classes by size -/

theorem classOf_le {size m : ℕ} (h : size ≤ 2 ^ m) (hm : 3 ≤ m) : classOf size ≤ m := by
  have hl : log2 size ≤ m := log2Loop_le h (Nat.zero_le m)
  unfold classOf
  split_ifs <;> omega

theorem classOf_small {size : ℕ} (h : size ≤ PGSIZE / 2) : 3 ≤ classOf size ∧ classOf size < 12 :=
  ⟨three_le_classOf size, Nat.lt_succ_of_le (classOf_le (m := 11) h (by decide))⟩

theorem lt_classOf {size m : ℕ} (h : size ≤ 2 ^ 24) (hm : 2 ^ m < size) : m < classOf size := by
  by_contra hle
  have hc := le_two_pow_classOf h
  have := Nat.pow_le_pow_right (n := 2) (by decide) (not_lt.mp hle)
  omega

theorem classOf_page {size : ℕ} (h : PGSIZE / 2 < size) (h' : size ≤ PGSIZE) :
    classOf size = 12 := by
  have h24 : size ≤ 2 ^ 24 := h'.trans (by decide)
  have hlt : 11 < classOf size := lt_classOf h24 h
  have hle : classOf size ≤ 12 := classOf_le h' (by decide)
  omega

/-! ### Requests of at most a page -/

theorem Inv.reuse_block (h : Inv B 12 s g) {k q : ℕ} {rest : List ℕ} (hk : 3 ≤ k ∧ k < 12)
    (hq : g.free k = q :: rest) :
    ∃ s', smallfind s k = .ok (q, s') ∧
      Reused s s' (Function.update g.free k rest) g.pages := by
  have hg : g.slab k = s.sizehead k :: q :: rest := by rw [h.slab_eq hk, hq]
  have hc := h.linked.slabs hk.1 hk.2
  rw [hg] at hc
  obtain ⟨hi, -⟩ := h.takeBlock hk hg
  have hl := hi.freeLists
  rw [Ghost.free_withSlab] at hl
  exact ⟨_, smallfind_listed hc, rfl, rfl, hl⟩

theorem Inv.reuse_refill (h : Inv B 12 s g) {k p : ℕ} {ps : List ℕ} (hk : 3 ≤ k ∧ k < 12)
    (hempty : g.free k = []) (hp : g.pages = p :: ps) :
    ∃ s', smallfind s k = .ok (p, s') ∧
      Reused s s' (Function.update g.free k (blocks p k).tail) ps := by
  have hg : g.slab k = [s.sizehead k] := by rw [h.slab_eq hk, hempty]
  have hz : s.pagehead ≠ 0 := by
    rw [Ne, h.linked.pages.null_iff, hp]
    exact List.cons_ne_nil p ps
  rcases acquireonepage_spec h hk.2 with he | ⟨p', s₁, g₁, he, ha⟩
  · have hget : getpage s (1 ||| 2 ^ k) = .ok (s.pagehead,
        { setinfobybp s s.pagehead ⟨s.pagehead, 1 ||| 2 ^ k⟩ with
          pagehead := s.word s.pagehead }) := by
      unfold getpage
      rw [if_neg hz]
    rw [acquireonepage, hget] at he
    simp [bind, Except.bind, hk.2, pure, Except.pure] at he
  obtain ⟨htop, hlen, hpages⟩ := ha.kept hz
  obtain ⟨rfl, rfl⟩ : p = p' ∧ ps = g₁.pages := by simpa [hp] using hpages
  obtain ⟨s₂, rest, rfl, hb, hfind, hr⟩ := smallfind_refilled h hk hg he ha
  have hslab : (g₁.withSlab k ((setNext s₁ (s₁.sizehead k) p).sizehead k :: blocks p k)).slab k =
      (setNext s₁ (s₁.sizehead k) p).sizehead k :: p :: rest := by simp [hb]
  obtain ⟨hi, -⟩ := hr.takeBlock hk hslab
  refine ⟨_, hfind, htop, hlen, ?_⟩
  have hfree : g₁.free = g.free := by
    funext j
    rw [Ghost.free, Ghost.free, ha.slab_eq]
  have hl := hi.freeLists
  rw [Ghost.free_withSlab, Ghost.free_withSlab, Function.update_idem, hfree] at hl
  rw [hb, List.tail_cons]
  exact hl

theorem Inv.reuse_page (h : Inv B 12 s g) {p tag : ℕ} {ps : List ℕ} (hp : g.pages = p :: ps) :
    ∃ s', getpage s tag = .ok (p, s') ∧ Reused s s' g.free ps := by
  have hz : s.pagehead ≠ 0 := by
    rw [Ne, h.linked.pages.null_iff, hp]
    exact List.cons_ne_nil p ps
  rcases getpage_spec h tag with he | ⟨p', s', g', he, ht⟩
  · rw [getpage, if_neg hz] at he
    cases he
  obtain ⟨htop, hlen, hpages⟩ := ht.kept hz
  obtain ⟨rfl, rfl⟩ : p = p' ∧ ps = g'.pages := by simpa [hp] using hpages
  refine ⟨s', he, htop, hlen, ?_⟩
  have hfree : g'.free = g.free := by
    funext j
    rw [Ghost.free, Ghost.free, ht.slab_eq]
  rw [← hfree]
  exact ht.inv.freeLists

/-! ### Runs of pages -/

/-- In a list of pages, the pages of a run that continues the first one follow it. -/
theorem run_prefix {q m : ℕ} {t : List ℕ}
    (hs : (q :: t).Pairwise fun x y => x + PGSIZE ≤ y)
    (hm : ∀ x ∈ run (q + PGSIZE) m, x ∈ t) : run (q + PGSIZE) m <+: t := by
  induction m generalizing q t with
  | zero => exact List.nil_prefix
  | succ m ih =>
    rw [run_cons] at hm ⊢
    obtain ⟨hq, ht⟩ := List.pairwise_cons.mp hs
    have hfirst : q + PGSIZE ∈ t := hm _ List.mem_cons_self
    cases t with
    | nil => cases hfirst
    | cons z t =>
      have hz := hq z List.mem_cons_self
      have hlater := (List.pairwise_cons.mp ht).1
      obtain rfl : q + PGSIZE = z := by
        rcases List.mem_cons.mp hfirst with he | hmem
        · exact he
        · have := hlater _ hmem
          simp only [PGSIZE] at *
          omega
      rw [List.cons_prefix_cons]
      refine ⟨rfl, ih ht fun x hx => ?_⟩
      rcases List.mem_cons.mp (hm x (List.mem_cons_of_mem _ hx)) with rfl | hmem
      · have := (run_bounds hx).1
        simp only [PGSIZE] at this
        omega
      · exact hmem

/-- Adjacent free pages lie next to each other on the page list. -/
theorem Inv.run_infix (h : Inv B n s g) {q m : ℕ} (hm : 0 < m)
    (hq : ∀ x ∈ run q m, x ∈ g.pages) : ∃ a b, g.pages = a ++ run q m ++ b := by
  obtain ⟨m, rfl⟩ := Nat.exists_eq_succ_of_ne_zero hm.ne'
  rw [Nat.succ_eq_add_one, run_cons] at hq ⊢
  have hspaced : g.pages.Pairwise fun x y => x + PGSIZE ≤ y := by
    refine h.linked.sorted.imp_of_mem (fun {x y} hx hy hlt => ?_)
    have := h.page_aligned hx
    have := h.page_aligned hy
    simp only [PGSIZE] at *
    omega
  obtain ⟨a, t, hg⟩ := List.append_of_mem (hq q List.mem_cons_self)
  have hsort := h.linked.sorted
  rw [hg] at hspaced hsort
  have hrest : run (q + PGSIZE) m <+: t := by
    refine run_prefix (List.pairwise_append.mp hspaced).2.1 fun x hx => ?_
    have hmem := hq x (List.mem_cons_of_mem _ hx)
    have hlow := (run_bounds hx).1
    simp only [PGSIZE] at hlow
    rw [hg, List.mem_append, List.mem_cons] at hmem
    rcases hmem with hmem | rfl | hmem
    · have := (List.pairwise_append.mp hsort).2.2 x hmem q List.mem_cons_self
      omega
    · omega
    · exact hmem
  obtain ⟨b, rfl⟩ := hrest
  exact ⟨a, b, by simp [hg]⟩

/-- `bigfind` cuts out the first run that is long enough. -/
theorem bigfindRange_found (h : Inv B 12 s g) {m q : ℕ} (hm : 2 ≤ m)
    (hq : ∀ x ∈ run q m, x ∈ g.pages) :
    ∃ p xs ys, bigfindRange s m = .ok (p, unlink s xs (ys.headD 0)) ∧
      g.pages = xs ++ run p m ++ ys ∧ ∀ q, (∀ x ∈ run q m, x ∈ g.pages) → p ≤ q := by
  obtain ⟨a, b, hab⟩ := h.run_infix (by omega) hq
  have hc := h.linked.pages
  have hz : s.pagehead ≠ 0 := by
    rw [Ne, hc.null_iff]
    rintro he
    have := congrArg List.length hab
    simp only [he, List.length_nil, List.length_append, run_length] at this
    omega
  obtain ⟨c, hloop, ⟨xs, ys, hpret, hsplit, hend⟩, hshort, hfirst⟩ := h.scan hm hz
  rcases hend with ⟨hcnt, hword⟩ | ⟨hcnt, -, -, -⟩
  · refine ⟨c.ret, xs, ys, ?_, hcnt ▸ hsplit, fun q' hq' => ?_⟩
    · unfold bigfindRange
      rw [if_neg hz]
      simp only [hloop, bind, Except.bind]
      rw [if_pos hcnt, ← hword, ← cut_eq hc hsplit hpret (by omega) rfl]
      split_ifs <;> rfl
    · obtain ⟨a', b', hab'⟩ := h.run_infix (by omega) hq'
      obtain ⟨m, rfl⟩ := Nat.exists_eq_succ_of_ne_zero (show m ≠ 0 by omega)
      have hsort := h.linked.sorted
      rcases List.mem_append.mp (hfirst hcnt a' q' b' hab') with hmem | hmem
      · rw [hab', Nat.succ_eq_add_one, run_cons, List.append_assoc] at hsort
        exact ((List.pairwise_append.mp hsort).2.2 _ hmem q' (by simp)).le
      · exact (List.mem_singleton.mp hmem).le
  · exact absurd ⟨a, b, hab.symm⟩ (hshort hcnt q)

theorem Inv.reuse_run (h : Inv B 12 s g) {m q : ℕ} (hm : 2 ≤ m)
    (hq : ∀ x ∈ run q m, x ∈ g.pages) :
    ∃ p s' xs ys, bigfind s m = .ok (p, s') ∧ g.pages = xs ++ run p m ++ ys ∧
      (∀ q, (∀ x ∈ run q m, x ∈ g.pages) → p ≤ q) ∧ Reused s s' g.free (xs ++ ys) := by
  obtain ⟨p, xs, ys, he, hsplit, hleast⟩ := bigfindRange_found h hm hq
  obtain ⟨hi, -⟩ := h.takeRun hsplit (by omega)
  have hp0 : p ≠ 0 := h.linked.pages.ne_null p (run_head_mem hsplit (by omega))
  refine ⟨p, setinfobybp (unlink s xs (ys.headD 0)) p ⟨p, BIGBIT ||| m⟩, xs, ys, ?_, hsplit,
    hleast, ?_, ?_, ?_⟩
  · unfold bigfind
    simp only [he, bind, Except.bind, pure, Except.pure, ne_eq, hp0, not_false_eq_true,
      ↓reduceIte]
  · exact unlink_heapTop s xs _
  · unfold unlink
    split_ifs <;> rfl
  · exact ⟨hi.freeLists.slabs, hi.freeLists.pages, hi.freeLists.sorted⟩

/-! ### Results -/

/-- The heap grows only when nothing fits: in every state a run reaches, a request for
which the free lists have room takes its bytes from them and nothing else. -/
theorem malloc_reuses {L : List (ℕ × ℕ)} (h : Reachable word kend s L) :
    ∃ slab pages, FreeLists s slab pages ∧ ∀ size ≤ 2 ^ 24,
      (∀ q rest, size ≤ PGSIZE / 2 → slab (classOf size) = q :: rest →
        ∃ s', mmMalloc s size = .ok (q, s') ∧
          Reused s s' (Function.update slab (classOf size) rest) pages) ∧
      (∀ p ps, size ≤ PGSIZE / 2 → slab (classOf size) = [] → pages = p :: ps →
        ∃ s', mmMalloc s size = .ok (p, s') ∧
          Reused s s' (Function.update slab (classOf size) (blocks p (classOf size)).tail) ps) ∧
      (∀ p ps, PGSIZE / 2 < size → size ≤ PGSIZE → pages = p :: ps →
        ∃ s', mmMalloc s size = .ok (p, s') ∧ Reused s s' slab ps) ∧
      (∀ q, PGSIZE < size → (∀ x ∈ run q (pagesOf size), x ∈ pages) →
        ∃ p s' xs ys, mmMalloc s size = .ok (p, s') ∧
          pages = xs ++ run p (pagesOf size) ++ ys ∧
          (∀ q, (∀ x ∈ run q (pagesOf size), x ∈ pages) → p ≤ q) ∧
          Reused s s' slab (xs ++ ys)) := by
  obtain ⟨⟨g, hi, rfl⟩, -⟩ := h.inv
  refine ⟨g.free, g.pages, hi.freeLists, fun size hsize => ?_⟩
  rw [mmMalloc_eq hsize]
  refine ⟨fun q rest hs hq => ?_, fun p ps hs hempty hp => ?_, fun p ps hs hs' hp => ?_,
    fun q hs hq => ?_⟩
  · have hk := classOf_small hs
    rw [if_pos hk.2]
    exact hi.reuse_block hk hq
  · have hk := classOf_small hs
    rw [if_pos hk.2]
    exact hi.reuse_refill hk hempty hp
  · have hk := classOf_page hs hs'
    rw [if_neg (by omega), if_pos hk]
    exact hi.reuse_page hp
  · have hk : 12 < classOf size := lt_classOf hsize hs
    rw [if_neg (by omega), if_neg (by omega)]
    exact hi.reuse_run (two_le_pagesOf hk) hq

theorem first_request_reuses : ∃ s q s', memInit (fun _ => 0) 0x80030000 = .ok s ∧
    mmMalloc s 100 = .ok (q, s') ∧ s'.heapTop = s.heapTop ∧ s'.len = s.len := by
  have hok : ((memInit (fun _ => 0) 0x80030000).toOption.map fun s =>
      s.word (s.sizehead 7) == 0) = some false := by decide +kernel
  cases hi : memInit (fun _ => 0) 0x80030000 with
  | error e =>
    rw [hi] at hok
    cases hok
  | ok s =>
    obtain ⟨slab, pages, hl, hr⟩ := malloc_reuses (Reachable.init hi)
    have hk : classOf 100 = 7 := by decide
    cases hs : slab 7 with
    | nil =>
      have hc := hl.slabs 7 (by decide) (by decide)
      rw [hs] at hc
      rw [hi, Except.toOption, Option.map_some, hc.tail.head] at hok
      cases hok
    | cons q rest =>
      obtain ⟨s', he, hkept⟩ := (hr 100 (by decide)).1 q rest (by decide) (hk ▸ hs)
      exact ⟨s, q, s', rfl, he, hkept.top_eq, hkept.len_eq⟩

/-- An immediate double free is harmless: in every state a run reaches, freeing a live
block twice leaves the heap as freeing it once does. -/
theorem double_free_harmless {L : List (ℕ × ℕ)} (h : Reachable word kend s L) {b : ℕ × ℕ}
    (hb : b ∈ L) : ∃ s', mmFree s b.1 = .ok s' ∧ mmFree s' b.1 = .ok s' := by
  obtain ⟨⟨g, hi, rfl⟩, hsize⟩ := h.inv
  obtain ⟨s', g', he, hf⟩ := mmFree_spec hi hb (hsize b hb)
  exact ⟨s', he, hf.again⟩

theorem first_block_freed_twice : ∃ s p s', Reachable (fun _ => 0) 0x80030000 s [(p, 100)] ∧
    mmFree s p = .ok s' ∧ mmFree s' p = .ok s' := by
  obtain ⟨s, p, hr⟩ := first_block
  obtain ⟨s', he, hagain⟩ := double_free_harmless hr List.mem_cons_self
  exact ⟨s, p, s', hr, he, hagain⟩

end Zrhos.Mem
