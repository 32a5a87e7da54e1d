import Zrhos.Mem.Alloc

/-! Multi-page requests. `bigfind` looks for a run of adjacent pages on the page list,
extends a run that ends at the top of the heap, or grows the heap. -/
namespace Zrhos.Mem
open LinkedList

variable {B n : ℕ} {s s' : Heap} {g g' : Ghost}

/-- The addresses of `m` adjacent pages. -/
def run (p m : ℕ) : List ℕ := (List.range m).map fun i => p + i * PGSIZE

theorem run_succ (p m : ℕ) : run p (m + 1) = run p m ++ [p + m * PGSIZE] := by
  simp [run, List.range_succ]

@[simp] theorem run_length (p m : ℕ) : (run p m).length = m := by simp [run]

theorem mem_run {p m q : ℕ} : q ∈ run p m ↔ ∃ i < m, p + i * PGSIZE = q := by simp [run]

theorem run_cons (p m : ℕ) : run p (m + 1) = p :: run (p + PGSIZE) m := by
  simp only [run, List.range_succ_eq_map, List.map_cons, List.map_map, Function.comp_def]
  simp only [Nat.zero_mul, Nat.add_zero, List.cons.injEq, true_and]
  apply List.map_congr_left
  intro i _
  simp only [Nat.succ_eq_add_one]
  ring

/-! ### Growing the heap -/

/-- `s'` is `s` with `m` more pages at the top. -/
structure Grown (B n : ℕ) (s s' : Heap) (g : Ghost) (m : ℕ) : Prop where
  inv : Inv B n s' g
  unowned : Unowned B s' g s.heapTop (m * PGSIZE)
  top_eq : s'.heapTop = s.heapTop + m * PGSIZE
  word_eq : s'.word = s.word
  pagehead_eq : s'.pagehead = s.pagehead

theorem Grown.refl (h : Inv B n s g) : Grown B n s s g 0 := by
  refine ⟨h, ⟨?_, ?_, ?_⟩, ?_, rfl, rfl⟩
  · have := h.geom.top
    omega
  · omega
  · intro o x _ _ hx
    omega
  · omega

theorem Grown.trans {s₁ s₂ : Heap} {m m' : ℕ} (h : Grown B n s s₁ g m)
    (h' : Grown B n s₁ s₂ g m') : Grown B n s s₂ g (m + m') where
  inv := h'.inv
  unowned := by
    have hu := h'.unowned
    rw [h.top_eq] at hu
    rw [Nat.add_mul]
    exact (h.unowned.congr (by rw [h'.top_eq]; omega)).append hu
  top_eq := by rw [h'.top_eq, h.top_eq]; ring
  word_eq := h'.word_eq.trans h.word_eq
  pagehead_eq := h'.pagehead_eq.trans h.pagehead_eq

theorem allocpage_grown (h : Inv B n s g) (tag : ℕ) :
    allocpage s tag = .error .noSpaceInHeap ∨
      ∃ s', allocpage s tag = .ok (s.heapTop, s') ∧ Grown B n s s' g 1 := by
  rw [allocpage_eq]
  split_ifs with hf
  · exact Or.inl rfl
  · obtain ⟨hi, hu, -⟩ := h.pushPage (not_lt.mp hf) tag
    exact Or.inr ⟨_, rfl, hi, by rwa [Nat.one_mul], by simp [pushPage], rfl, rfl⟩

theorem allocpages_grown (h : Inv B n s g) (m : ℕ) :
    allocpages s m = .error .noSpaceInHeap ∨
      ∃ s', allocpages s m = .ok s' ∧ Grown B n s s' g m := by
  induction m generalizing s with
  | zero => exact Or.inr ⟨s, rfl, Grown.refl h⟩
  | succ m ih =>
    unfold allocpages
    rcases allocpage_grown h (BIGBIT ||| 1) with he | ⟨s₁, he, h₁⟩
    · left
      rw [he]
      rfl
    · rcases ih h₁.inv with he' | ⟨s₂, he', h₂⟩
      · left
        rw [he]
        exact he'
      · right
        refine ⟨s₂, ?_, Nat.add_comm m 1 ▸ h₁.trans h₂⟩
        rw [he]
        exact he'

/-! ### The search loop -/

/-- The loop stands behind the run `c.ret`, with the pages `xs` before that run and
the pages `ys` still to be visited. -/
structure ScanAt (zs xs ys : List ℕ) (c : Scan) : Prop where
  split : zs = xs ++ run c.ret c.count ++ ys
  count_pos : 0 < c.count
  last : c.lp + PGSIZE = c.ret + c.count * PGSIZE
  pret_eq : c.pret = lastOr 0 xs
  llp_eq : c.count = 1 → c.llp = lastOr 0 xs
  p_eq : c.p = ys.headD 0

/-- The loop ends either on a run of the requested length, still standing on its last
page, or at the end of the list behind a shorter run. -/
def Scanned (zs : List ℕ) (pages : ℕ) (word : ℕ → ℕ) (c : Scan) : Prop :=
  ∃ xs ys, c.pret = lastOr 0 xs ∧ zs = xs ++ run c.ret c.count ++ ys ∧
    ((c.count = pages ∧ word c.p = ys.headD 0) ∨
      (c.count < pages ∧ 0 < c.count ∧ ys = [] ∧ c.lp + PGSIZE = c.ret + c.count * PGSIZE))

theorem run_suffix {q m r c : ℕ} {xs : List ℕ} (h : run q (m + 1) <:+ xs ++ run r (c + 1)) :
    q + m * PGSIZE = r + c * PGSIZE ∧ run q m <:+ xs ++ run r c := by
  rw [run_succ r c, ← List.append_assoc, List.suffix_concat_iff] at h
  rcases h with h | ⟨t, ht, hs⟩
  · rw [run_cons] at h
    cases h
  · rw [run_succ] at ht
    obtain ⟨rfl, he⟩ := List.append_inj' ht rfl
    exact ⟨by simpa using he, hs⟩

/-- A run that starts behind a gap is not the end of a longer one. -/
theorem no_long_suffix {q m r c : ℕ} {xs : List ℕ} (hgap : xs ≠ [] → lastOr 0 xs + PGSIZE ≠ r)
    (hc : c < m) (he : q + m * PGSIZE = r + c * PGSIZE) : ¬ run q m <:+ xs ++ run r c := by
  intro h
  induction c generalizing m with
  | zero =>
    obtain ⟨m, rfl⟩ := Nat.exists_eq_succ_of_ne_zero hc.ne'
    have h : run q (m + 1) <:+ xs := by simpa [run] using h
    obtain ⟨t, rfl⟩ := h
    rw [run_succ, ← List.append_assoc, lastOr_concat] at hgap
    refine hgap (by simp) ?_
    rw [Nat.succ_mul] at he
    omega
  | succ c ih =>
    obtain ⟨m, rfl⟩ := Nat.exists_eq_succ_of_ne_zero (Nat.ne_of_gt (Nat.zero_lt_of_lt hc))
    obtain ⟨he', h'⟩ := run_suffix h
    exact ih (Nat.lt_of_succ_lt_succ hc) he' h'

/-- The loop has seen no run of the requested length. -/
structure Sparse (pages : ℕ) (xs : List ℕ) (c : Scan) : Prop where
  gap : xs ≠ [] → lastOr 0 xs + PGSIZE ≠ c.ret
  short : ∀ q, ¬ run q pages <:+: xs ++ run c.ret c.count

theorem Sparse.extend {pages r c : ℕ} {xs : List ℕ} (hgap : xs ≠ [] → lastOr 0 xs + PGSIZE ≠ r)
    (h : ∀ q, ¬ run q pages <:+: xs ++ run r c) (hc : c + 1 < pages) (q : ℕ) :
    ¬ run q pages <:+: xs ++ run r (c + 1) := by
  intro hq
  rw [run_succ, ← List.append_assoc, List.infix_concat_iff, List.append_assoc, ← run_succ] at hq
  rcases hq with hq | hq
  · obtain ⟨m, rfl⟩ := Nat.exists_eq_succ_of_ne_zero (Nat.ne_of_gt (Nat.zero_lt_of_lt hc))
    obtain ⟨he, hs⟩ := run_suffix hq
    exact no_long_suffix hgap (by omega) he hs
  · exact h q hq

/-- The first run of a list starts before any other. -/
theorem first_run {r c : ℕ} {xs ys zs : List ℕ} (hz : zs = xs ++ run r (c + 1) ++ ys)
    (hs : ∀ q, ¬ run q (c + 1) <:+: xs ++ run r c) {a b : List ℕ} {q : ℕ}
    (hq : zs = a ++ run q (c + 1) ++ b) : r ∈ a ++ [q] := by
  by_cases hlen : a.length < xs.length
  · have hshort : a ++ run q (c + 1) <+: xs ++ run r c := by
      have hpre : a ++ run q (c + 1) <+: zs := ⟨b, hq.symm⟩
      refine List.prefix_of_prefix_length_le hpre ?_ ?_
      · rw [hz, run_succ, ← List.append_assoc, List.append_assoc]
        exact List.prefix_append _ _
      · simp only [List.length_append, run_length]
        omega
    exact absurd ((List.suffix_append _ _).isInfix.trans hshort.isInfix) (hs q)
  · have hlong : xs ++ [r] <+: a ++ [q] := by
      have hpre : xs ++ [r] <+: zs := by
        rw [hz, run_cons]
        exact ⟨run (r + PGSIZE) c ++ ys, by simp⟩
      refine List.prefix_of_prefix_length_le hpre ?_ ?_
      · rw [hq, run_cons]
        exact ⟨run (q + PGSIZE) c ++ b, by simp⟩
      · simp only [List.length_append, List.length_singleton]
        omega
    exact hlong.subset (by simp)

theorem bigfindLoop_spec {word : ℕ → ℕ} {h₀ pages fuel : ℕ} {zs xs ys : List ℕ} {c : Scan}
    (hz : Chain word h₀ zs) (hc : ScanAt zs xs ys c) (hs : Sparse pages xs c)
    (hp : c.count < pages) (hf : ys.length < fuel) :
    ∃ c', bigfindLoop word pages fuel c = .ok c' ∧ Scanned zs pages word c' ∧
      (c'.count < pages → ∀ q, ¬ run q pages <:+: zs) ∧
      (c'.count = pages → ∀ a q b, zs = a ++ run q pages ++ b → c'.ret ∈ a ++ [q]) := by
  induction fuel generalizing c xs ys with
  | zero => omega
  | succ fuel ih =>
    unfold bigfindLoop
    cases ys with
    | nil =>
      have hp0 : c.p = 0 := hc.p_eq
      refine ⟨c, by simp [hp0], ⟨xs, [], hc.pret_eq, hc.split,
        Or.inr ⟨hp, hc.count_pos, rfl, hc.last⟩⟩, fun _ q hq => hs.short q ?_,
        fun he => absurd he hp.ne⟩
      rwa [hc.split, List.append_nil] at hq
    | cons y ys =>
      have hpy : c.p = y := hc.p_eq
      have hy0 : y ≠ 0 := hz.ne_null y (by rw [hc.split]; simp)
      have hnext : word y = ys.headD 0 := by
        have hd := hz
        rw [hc.split] at hd
        exact hd.drop.tail.head
      have hlen : ys.length < fuel := by simpa using hf
      have hc0 := hc.count_pos
      rw [if_neg (by rw [hpy]; exact hy0)]
      by_cases hadj : c.lp + PGSIZE = c.p
      · rw [if_pos hadj]
        have hy : c.ret + c.count * PGSIZE = y := by rw [← hc.last, hadj, hpy]
        have hsplit : zs = xs ++ run c.ret (c.count + 1) ++ ys := by
          rw [hc.split, run_succ, hy]
          simp
        -- a run of one page starts at `lp`, so `ret` and `pret` keep their values
        have hone : c.count = 1 → c.lp = c.ret := by
          intro h1
          have := hc.last
          rw [h1] at this
          omega
        have hsame : (if c.count = 1 then { c with count := c.count + 1, pret := c.llp, ret := c.lp }
            else { c with count := c.count + 1 }) =
            ({ c with count := c.count + 1 } : Scan) := by
          split_ifs with h1
          · rw [hc.llp_eq h1, hone h1, ← hc.pret_eq]
          · rfl
        simp only [hsame]
        by_cases hfull : pages = c.count + 1
        · rw [if_pos hfull]
          refine ⟨_, rfl, ⟨xs, ys, hc.pret_eq, hsplit, Or.inl ⟨hfull.symm, ?_⟩⟩, fun hlt => ?_,
            fun _ a q b hq => ?_⟩
          case refine_3 =>
            rw [hfull] at hq
            exact first_run hsplit (hfull ▸ hs.short) hq
          · simp only [hpy, hnext]
          · simp only at hlt
            omega
        · rw [if_neg hfull]
          refine ih
            ⟨hsplit, Nat.succ_pos _, ?_, hc.pret_eq, fun h1 => ?_, ?_⟩
            ⟨hs.gap, Sparse.extend hs.gap hs.short (by omega)⟩ (by simp only; omega) hlen
          · simp only [hpy, ← hy]
            ring
          · simp only at h1
            omega
          · simp only [hpy, hnext]
      · rw [if_neg hadj]
        have hlast : c.lp = lastOr 0 (xs ++ run c.ret c.count) := by
          obtain ⟨m, hm⟩ := Nat.exists_eq_succ_of_ne_zero hc0.ne'
          have hl := hc.last
          rw [hm, Nat.succ_mul] at hl
          rw [hm, Nat.succ_eq_add_one, run_succ, ← List.append_assoc, lastOr_concat]
          omega
        have hgap : xs ++ run c.ret c.count ≠ [] →
            lastOr 0 (xs ++ run c.ret c.count) + PGSIZE ≠ c.p := fun _ => hlast ▸ hadj
        refine ih
          ⟨?_, Nat.one_pos, ?_, hlast, fun _ => hlast, ?_⟩
          ⟨hgap, Sparse.extend hgap (fun q hq => hs.short q ?_) (by omega)⟩
          (by simp only; omega) hlen
        · rw [hc.split]
          simp [run, hpy]
        · simp
        · simp only [hpy, hnext]
        · simpa [run] using hq

/-! ### Cutting a run out of the page list -/

/-- Redirect the pointer behind the pages `xs` of the page list. -/
def unlink (s : Heap) (xs : List ℕ) (v : ℕ) : Heap :=
  if xs = [] then { s with pagehead := v } else setNext s (lastOr 0 xs) v

@[simp] theorem unlink_heapTop (s : Heap) (xs : List ℕ) (v : ℕ) :
    (unlink s xs v).heapTop = s.heapTop := by
  unfold unlink
  split_ifs <;> rfl

theorem Inv.page_not_slab (h : Inv B n s g) {k p : ℕ} (hk : 3 ≤ k ∧ k < 12)
    (hp : p ∈ g.pages) : p ∉ g.slab k := fun hb => h.slab_not_page hk hb hp

theorem Owned.releaseRun (h : Owned B s g) {p m : ℕ} {xs ys : List ℕ}
    (hd : g.pages.Nodup) (hg : g.pages = xs ++ run p m ++ ys) (hm : 0 < m) :
    Owned B s { g with pages := xs ++ ys } ∧
      Unowned B s { g with pages := xs ++ ys } p (m * PGSIZE) := by
  have hin {i : ℕ} (hi : i < m) : g.Has (.page (p + i * PGSIZE)) := by
    simp only [Ghost.Has, hg, List.mem_append, mem_run]
    exact Or.inl (Or.inr ⟨i, hi, rfl⟩)
  have hout {i : ℕ} (hi : i < m) : p + i * PGSIZE ∉ xs ++ ys := by
    rw [hg] at hd
    have hr : p + i * PGSIZE ∈ run p m := mem_run.mpr ⟨i, hi, rfl⟩
    rw [List.append_assoc, List.nodup_append] at hd
    obtain ⟨-, hd, hx⟩ := hd
    have hy := (List.nodup_append.mp hd).2.2
    intro hmem
    rcases List.mem_append.mp hmem with hmem | hmem
    · exact hx _ hmem _ (List.mem_append_left _ hr) rfl
    · exact hy _ hr _ hmem rfl
  have hsub {o : Owner} (ho : ({ g with pages := xs ++ ys } : Ghost).Has o) : g.Has o := by
    cases o with
    | slab k b => exact ho
    | page q =>
      simp only [Ghost.Has, List.mem_append, hg] at ho ⊢
      tauto
    | live b => exact ho
  refine ⟨h.mono hsub, ⟨?_, ?_, ?_⟩⟩
  · exact (h.bounds (hin hm)).1.trans (by simp [Owner.start])
  · have hb := (h.bounds (hin (Nat.sub_lt hm Nat.one_pos))).2
    simp only [Owner.start, Owner.size] at hb
    have : m * PGSIZE = (m - 1) * PGSIZE + PGSIZE := by
      rw [← Nat.succ_mul, Nat.succ_eq_add_one, Nat.sub_add_cancel hm]
    omega
  · intro o x ho hc hx
    have hi : (x - p) / PGSIZE < m := Nat.div_lt_of_lt_mul (by rw [Nat.mul_comm]; omega)
    have hcov : (Owner.page (p + (x - p) / PGSIZE * PGSIZE)).Covers x := by
      simp only [Owner.Covers, Owner.start, Owner.size, PGSIZE]
      omega
    have he := h.excl (hsub ho) (hin hi) hc hcov
    subst he
    exact hout hi ho

theorem Inv.takeRun (h : Inv B n s g) {p m : ℕ} {xs ys : List ℕ}
    (hg : g.pages = xs ++ run p m ++ ys) (hm : 0 < m) :
    Inv B n (unlink s xs (ys.headD 0)) { g with pages := xs ++ ys } ∧
      Unowned B (unlink s xs (ys.headD 0)) { g with pages := xs ++ ys } p (m * PGSIZE) := by
  have hc := h.linked.pages
  obtain ⟨ho, hu⟩ := h.owned.releaseRun hc.nodup hg hm
  have hsort : (xs ++ ys).Pairwise (· < ·) :=
    h.linked.sorted.sublist (by rw [hg]; simp)
  refine ⟨?_, hu.congr (by simp)⟩
  rw [hg] at hc
  rcases xs.eq_nil_or_concat with rfl | ⟨xs, l, rfl⟩
  · refine ⟨h.geom.congr rfl rfl rfl (fun _ => rfl), ho.congr rfl rfl, ?_, h.live⟩
    exact ⟨hc.drop, h.linked.slabs, h.linked.heads, h.linked.empty, h.linked.classes, hsort⟩
  · have hs : unlink s (xs.concat l) (ys.headD 0) = setNext s l (ys.headD 0) := by
      simp [unlink, List.concat_eq_append]
    rw [hs]
    simp only [List.concat_eq_append, List.append_assoc, List.cons_append, List.nil_append] at *
    have hl : l ∈ g.pages := by rw [hg]; simp
    have hnd := hc.nodup
    rw [List.nodup_append, List.nodup_cons] at hnd
    refine ⟨h.geom.congr rfl rfl rfl (fun _ => rfl), ho.congr rfl rfl, ?_, h.live⟩
    refine ⟨?_, ?_, h.linked.heads, h.linked.empty, h.linked.classes, hsort⟩
    · refine hc.removeAfter ?_ ?_ (Function.update_self _ _ _)
      · intro x hx
        exact Function.update_of_ne (hnd.2.2 x hx l (by simp)) _ _
      · intro y hy
        refine Function.update_of_ne ?_ _ _
        rintro rfl
        exact hnd.2.1.1 (List.mem_append_right _ hy)
    · intro k h3 hn
      exact (h.linked.slabs h3 hn).update
        (h.page_not_slab ⟨h3, hn.trans_le h.linked.classes⟩ hl)

theorem mem_run_of_covers {p m x : ℕ} {q : ℕ} (hq : q ∈ run p m) (hx : (Owner.page q).Covers x) :
    p ≤ x ∧ x < p + m * PGSIZE := by
  obtain ⟨i, hi, rfl⟩ := mem_run.mp hq
  simp only [Owner.Covers, Owner.start, Owner.size, PGSIZE] at hx ⊢
  omega

theorem Filled.empty {p : ℕ} (h : Filled B s g 0 0) : Filled B s g p 0 :=
  h.transfer rfl Or.inl fun x _ hx => by omega

theorem Filled.takeRun {p m k : ℕ} {xs ys : List ℕ} {v : ℕ}
    (h : Filled B s g (p + m * PGSIZE) k) (hg : g.pages = xs ++ run p m ++ ys) :
    Filled B (unlink s xs v) { g with pages := xs ++ ys } p (m * PGSIZE + k) := by
  refine h.transfer (unlink_heapTop s xs v) (fun {o} ho => ?_) fun x h1 h2 hout => ?_
  · cases o with
    | slab j b => exact Or.inl ho
    | page q =>
      have hq : q ∈ g.pages := ho
      simp only [hg, List.mem_append] at hq
      rcases hq with (hq | hq) | hq
      · exact Or.inl (List.mem_append_left _ hq)
      · refine Or.inr fun x hx => ?_
        have := mem_run_of_covers hq hx
        omega
      · exact Or.inl (List.mem_append_right _ hq)
    | live b => exact Or.inl ho
  · omega

/-! ### The allocation -/

/-- The end of `bigfind`: the first page of the range gets the tag of the block. -/
theorem Inv.carveRun (h : Inv B 12 s g') {p size : ℕ} (hc : 12 < classOf size)
    (hu : Unowned B s g' p (pagesOf size * PGSIZE)) (hp : p % PGSIZE = 0)
    (hl : g'.live = g.live) :
    Carved B (setinfobybp s p ⟨p, BIGBIT ||| pagesOf size⟩) g g' p size := by
  have hcap : capacity size = pagesOf size * PGSIZE := by simp [capacity, hc]
  have htag : tagOf size = BIGBIT ||| pagesOf size := by simp [tagOf, hc]
  have h2 := two_le_pagesOf hc
  have hpage : Unowned B s g' p PGSIZE := hu.sub le_rfl (by simp only [PGSIZE]; omega)
  refine ⟨h.retag hpage hp _, hcap ▸ hu.congr le_rfl, ?_, ?_, hl⟩
  · rw [hcap, min_eq_right (by simp only [PGSIZE]; omega)]
    exact hp
  · rw [getinfobybp_setinfobybp h hpage hp, htag]

/-- The range `bigfind` decided on. -/
structure Ranged (B : ℕ) (s' : Heap) (g g' : Ghost) (p m : ℕ) : Prop where
  inv : Inv B 12 s' g'
  unowned : Unowned B s' g' p (m * PGSIZE)
  aligned : p % PGSIZE = 0
  live_eq : g'.live = g.live

theorem Inv.heapTop_mod (h : Inv B n s g) : s.heapTop % PGSIZE = 0 := by
  have := h.geom.top
  have := h.geom.base_mod
  simp only [PGSIZE] at *
  omega

theorem Inv.page_aligned (h : Inv B n s g) {p : ℕ} (hp : p ∈ g.pages) : p % PGSIZE = 0 := by
  simpa [Owner.start, Owner.size] using h.owned.aligned (o := .page p) hp

theorem Grown.ranged {m : ℕ} (h : Inv B 12 s g) (hg : Grown B 12 s s' g m) :
    Ranged B s' g g s.heapTop m := ⟨hg.inv, hg.unowned, h.heapTop_mod, rfl⟩

/-- Pushing `m` pages: the first by `allocpage`, the others by the loop. -/
theorem push_grown (h : Inv B n s g) (tag m : ℕ) :
    (do let (ret, s) ← allocpage s tag
        let s ← allocpages s m
        return (ret, s)) = (.error .noSpaceInHeap : Except Stop (ℕ × Heap)) ∨
      ∃ s', (do let (ret, s) ← allocpage s tag
                let s ← allocpages s m
                return (ret, s)) = (.ok (s.heapTop, s') : Except Stop (ℕ × Heap)) ∧
        Grown B n s s' g (m + 1) := by
  rcases allocpage_grown h tag with he | ⟨s₁, he, h₁⟩
  · left
    rw [he]
    rfl
  · rcases allocpages_grown h₁.inv m with he' | ⟨s₂, he', h₂⟩
    · left
      simp only [he, he', bind, Except.bind]
    · right
      refine ⟨s₂, ?_, Nat.add_comm 1 m ▸ h₁.trans h₂⟩
      simp only [he, he', bind, Except.bind, pure, Except.pure]

theorem ret_eq_pagehead {h₀ ret m : ℕ} {word : ℕ → ℕ} {zs xs ys : List ℕ} (hz : Chain word h₀ zs)
    (hs : zs = xs ++ run ret m ++ ys) (hm : 0 < m) : ret = h₀ ↔ xs = [] := by
  obtain ⟨m, rfl⟩ := Nat.exists_eq_succ_of_ne_zero hm.ne'
  have hh := hz.head
  have hd := hz.nodup
  rw [hs, Nat.succ_eq_add_one, run_cons] at hh hd
  cases xs with
  | nil => simpa using hh.symm
  | cons x xs =>
    simp only [List.cons_append, List.headD_cons, List.append_assoc, List.nodup_cons,
      List.mem_append, List.mem_cons, not_or] at hh hd
    simp only [reduceCtorEq, iff_false, hh]
    exact fun he => hd.1.2.1 he.symm

/-- The page behind which `bigfind` may extend a run is the last one of the heap. -/
theorem Inv.istop_iff (h : Inv B n s g) {p : ℕ} (hp : p ∈ g.pages) (ht : istop s p = true) :
    p + PGSIZE = s.heapTop := by
  have hb := h.owned.bounds (o := .page p) hp
  simp only [Owner.start, Owner.size] at hb
  have hl := h.geom.len_ne hb.1 hb.2 (by decide)
  have hal := h.page_aligned hp
  have hbm := h.geom.base_mod
  have htop := h.geom.top
  simp only [istop, h.geom.pageIndex_eq hl, beq_iff_eq] at ht
  simp only [PGSIZE] at *
  omega

theorem Inv.istop_of_top (h : Inv B n s g) {p : ℕ} (hp : p ∈ g.pages)
    (ht : p + PGSIZE = s.heapTop) : istop s p = true := by
  have hb := h.owned.bounds (o := .page p) hp
  simp only [Owner.start, Owner.size] at hb
  have hl := h.geom.len_ne hb.1 hb.2 (by decide)
  have htop := h.geom.top
  simp only [istop, h.geom.pageIndex_eq hl, beq_iff_eq]
  simp only [PGSIZE] at *
  omega

/-- A request that falls through `bigfind`: the page list has no run of that length, and
its last page is not the last page of the heap. -/
def Spills (s : Heap) (m : ℕ) : Prop :=
  ∃ zs, Chain s.word s.pagehead zs ∧ zs ≠ [] ∧ (∀ q, ¬ run q m <:+: zs) ∧
    lastOr 0 zs + PGSIZE ≠ s.heapTop

/-- The range `bigfind` decided on, and what becomes of the other pages. -/
structure Accounts (B : ℕ) (s s' : Heap) (g g' : Ghost) (p m : ℕ) : Prop where
  filled : ¬ Spills s m → Filled B s g 0 0 → Filled B s' g' p (m * PGSIZE)
  lost : Spills s m → Unowned B s' g' (p + m * PGSIZE) PGSIZE

/-- The search from the head of the page list. -/
theorem Inv.scan (h : Inv B 12 s g) {m : ℕ} (hm : 2 ≤ m) (hz : s.pagehead ≠ 0) :
    ∃ c, bigfindLoop s.word m s.heapTop (scanStart s) = .ok c ∧ Scanned g.pages m s.word c ∧
      (c.count < m → ∀ q, ¬ run q m <:+: g.pages) ∧
      (c.count = m → ∀ a q b, g.pages = a ++ run q m ++ b → c.ret ∈ a ++ [q]) := by
  have hc := h.linked.pages
  obtain ⟨p, ps, hg⟩ := List.exists_cons_of_ne_nil (fun he => hz (hc.null_iff.mpr he))
  have hph : s.pagehead = p := by simpa [hg] using hc.head
  have hlt : g.pages.length < s.heapTop := by
    refine length_lt_of_nodup hc.nodup (fun x hx => ⟨hc.ne_null x hx, ?_⟩) ?_
    · have := (h.owned.bounds (o := .page x) hx).2
      simp only [Owner.start, Owner.size, PGSIZE] at this
      omega
    · have := h.geom.top
      have := h.geom.base_pos
      omega
  rw [hg, List.length_cons] at hlt
  have hscan : ScanAt g.pages [] ps (scanStart s) := by
    refine ⟨?_, Nat.one_pos, by simp [scanStart], rfl, fun _ => rfl, ?_⟩
    · simp [scanStart, run, hg, hph]
    · rw [hg] at hc
      simpa [scanStart, hph] using hc.tail.head
  have hsparse : Sparse m [] (scanStart s) := by
    refine ⟨fun hne => absurd rfl hne, fun q hq => ?_⟩
    have := hq.length_le
    simp only [List.nil_append, run_length, scanStart] at this
    omega
  exact bigfindLoop_spec hc hscan hsparse (by simp only [scanStart]; omega) (by omega)

/-- The two ways in which `bigfind` cuts a run off the page list. -/
theorem cut_eq {c : Scan} {xs ys : List ℕ} {v : ℕ} (hc : Chain s.word s.pagehead g.pages)
    (hsplit : g.pages = xs ++ run c.ret c.count ++ ys) (hpret : c.pret = lastOr 0 xs)
    (hcnt : 0 < c.count) (he : s'.pagehead = s.pagehead) :
    (if c.ret = s'.pagehead then (c.ret, { s' with pagehead := v })
      else (c.ret, setNext s' c.pret v)) = (c.ret, unlink s' xs v) := by
  have hiff := ret_eq_pagehead hc hsplit hcnt
  rw [he, unlink, hpret]
  split_ifs with h1 h2 h2 <;> first | rfl | tauto

theorem run_head_mem {zs xs ys : List ℕ} {p m : ℕ} (h : zs = xs ++ run p m ++ ys) (hm : 0 < m) :
    p ∈ zs := by
  rw [h]
  simp only [List.mem_append, mem_run]
  exact Or.inl (Or.inr ⟨0, hm, by simp⟩)

/-- The run behind which the search ended, with its last page `lp`. -/
theorem lastOr_run {xs : List ℕ} {p m lp : ℕ} (hm : 0 < m) (hl : lp + PGSIZE = p + m * PGSIZE) :
    lastOr 0 (xs ++ run p m) = lp := by
  obtain ⟨m, rfl⟩ := Nat.exists_eq_succ_of_ne_zero hm.ne'
  rw [Nat.succ_eq_add_one, run_succ, ← List.append_assoc, lastOr_concat]
  rw [Nat.succ_mul] at hl
  omega

theorem shrunk_has {xs ys rs : List ℕ} (hg : g.pages = xs ++ rs ++ ys) {o : Owner}
    (ho : ({ g with pages := xs ++ ys } : Ghost).Has o) : g.Has o := by
  cases o with
  | page q =>
    simp only [Ghost.Has, hg, List.mem_append] at ho ⊢
    tauto
  | _ => exact ho

/-- A run of the requested length is cut out. -/
theorem Inv.rangeFound (h : Inv B 12 s g) {p m v : ℕ} {xs ys : List ℕ} (hm : 2 ≤ m)
    (hsplit : g.pages = xs ++ run p m ++ ys) (hv : v = ys.headD 0) :
    Ranged B (unlink s xs v) g { g with pages := xs ++ ys } p m ∧
      Accounts B s (unlink s xs v) g { g with pages := xs ++ ys } p m := by
  subst hv
  obtain ⟨hi, hu⟩ := h.takeRun hsplit (by omega)
  refine ⟨⟨hi, hu, h.page_aligned (run_head_mem hsplit (by omega)), rfl⟩,
    fun _ hf => ?_, fun ⟨zs, hz, _, hno, _⟩ => ?_⟩
  · have hf' := Filled.takeRun (v := ys.headD 0) hf.empty hsplit
    rwa [Nat.add_zero] at hf'
  · rw [hz.unique h.linked.pages, hsplit] at hno
    exact absurd ⟨xs, ys, rfl⟩ (hno p)

/-- The last run reaches the top of the heap and is extended there. -/
theorem Inv.rangeExtended (h : Inv B 12 s g) {s₁ : Heap} {p m c : ℕ} {xs : List ℕ}
    (hgr : Grown B 12 s s₁ g (m - c)) (hc : 0 < c) (hcm : c < m)
    (hsplit : g.pages = xs ++ run p c ++ []) (htop : p + c * PGSIZE = s.heapTop) :
    Ranged B (unlink s₁ xs 0) g { g with pages := xs ++ [] } p m ∧
      Accounts B s (unlink s₁ xs 0) g { g with pages := xs ++ [] } p m := by
  have hsum : c * PGSIZE + (m - c) * PGSIZE = m * PGSIZE := by
    rw [← Nat.add_mul, Nat.add_sub_cancel' hcm.le]
  obtain ⟨hi, hu⟩ := hgr.inv.takeRun hsplit hc
  have hu' : Unowned B (unlink s₁ xs 0) { g with pages := xs ++ [] } (p + c * PGSIZE)
      ((m - c) * PGSIZE) := by
    rw [htop]
    exact (hgr.unowned.congr (by simp)).mono (shrunk_has hsplit)
  refine ⟨⟨hi, hsum ▸ hu.append hu', h.page_aligned (run_head_mem hsplit hc), rfl⟩,
    fun _ hf => ?_, fun ⟨zs, hz, _, _, hlast⟩ => ?_⟩
  · have hf' := hf.raise hgr.top_eq
    rw [← htop] at hf'
    exact hsum ▸ hf'.takeRun hsplit
  · rw [hz.unique h.linked.pages, hsplit, List.append_nil] at hlast
    obtain ⟨k, rfl⟩ := Nat.exists_eq_succ_of_ne_zero hc.ne'
    rw [Nat.succ_mul] at htop
    have hend : p + k * PGSIZE + PGSIZE = p + k.succ * PGSIZE := by
      rw [Nat.succ_mul]
      omega
    rw [lastOr_run hc hend] at hlast
    omega

/-- New pages are taken past a run that does not reach the top: one too many, and the
page list is cut off before that run. -/
theorem Inv.rangeSpilled (h : Inv B 12 s g) {s₂ : Heap} {p m c : ℕ} {xs : List ℕ}
    (hgr : Grown B 12 s s₂ g (1 + m)) (hc : 0 < c) (hsplit : g.pages = xs ++ run p c ++ [])
    (hspill : Spills s m) :
    ∃ g', Ranged B (if lastOr 0 xs ≠ 0 then setNext s₂ (lastOr 0 xs) 0 else s₂) g g' s.heapTop m ∧
      Accounts B s (if lastOr 0 xs ≠ 0 then setNext s₂ (lastOr 0 xs) 0 else s₂) g g' s.heapTop m := by
  have hsum : (1 + m) * PGSIZE = m * PGSIZE + PGSIZE := by rw [Nat.add_mul, Nat.one_mul, Nat.add_comm]
  have hin : Unowned B s₂ g s.heapTop (m * PGSIZE) := hgr.unowned.sub le_rfl (by omega)
  have hmore : Unowned B s₂ g (s.heapTop + m * PGSIZE) PGSIZE :=
    hgr.unowned.sub (Nat.le_add_right _ _) (by omega)
  by_cases hx : xs = []
  · rw [hx, lastOr_nil, if_neg fun hne => hne rfl]
    exact ⟨g, ⟨hgr.inv, hin, h.heapTop_mod, rfl⟩, fun hno => absurd hspill hno, fun _ => hmore⟩
  · have hp0 : lastOr 0 xs ≠ 0 := by
      refine h.linked.pages.ne_null _ ?_
      rw [hsplit]
      simp [lastOr_mem hx]
    have hcut : setNext s₂ (lastOr 0 xs) 0 = unlink s₂ xs 0 := by rw [unlink, if_neg hx]
    rw [if_pos hp0, hcut]
    obtain ⟨hi, -⟩ := hgr.inv.takeRun hsplit hc
    exact ⟨_, ⟨hi, (hin.congr (by simp)).mono (shrunk_has hsplit), h.heapTop_mod, rfl⟩,
      fun hno => absurd hspill hno, fun _ => (hmore.congr (by simp)).mono (shrunk_has hsplit)⟩

theorem bigfindRange_spec (h : Inv B 12 s g) {m : ℕ} (hm : 2 ≤ m) :
    bigfindRange s m = .error .noSpaceInHeap ∨
      ∃ p s' g', bigfindRange s m = .ok (p, s') ∧ Ranged B s' g g' p m ∧
        Accounts B s s' g g' p m := by
  have hc := h.linked.pages
  unfold bigfindRange
  split_ifs with hz
  · rcases push_grown h (m ||| BIGBIT) (m - 1) with he | ⟨s', he, hg⟩
    · exact Or.inl he
    · rw [Nat.sub_add_cancel (by omega)] at hg
      refine Or.inr ⟨_, s', g, he, hg.ranged h, fun _ hf => hf.raise hg.top_eq,
        fun ⟨zs, hzs, hne, _⟩ => absurd (hzs.null_iff.mp hz) hne⟩
  · obtain ⟨c, hloop, ⟨xs, ys, hpret, hsplit, hend⟩, hshort, -⟩ := h.scan hm hz
    simp only [hloop, bind, Except.bind]
    rcases hend with ⟨hcnt, hword⟩ | ⟨hcnt, hpos, rfl, hlast⟩
    · obtain ⟨hr, ha⟩ := h.rangeFound hm (hcnt ▸ hsplit) hword
      refine Or.inr ⟨c.ret, _, _, ?_, hr, ha⟩
      rw [if_pos hcnt, ← cut_eq hc hsplit hpret (by omega) rfl]
      split_ifs <;> rfl
    · have hlp : lastOr 0 g.pages = c.lp := by
        rw [hsplit, List.append_nil]
        exact lastOr_run hpos hlast
      have hmem : c.lp ∈ g.pages := hlp ▸ lastOr_mem fun he => hz (hc.null_iff.mpr he)
      rw [if_neg (by omega)]
      by_cases htop : istop s c.lp = true
      · rw [if_pos htop]
        rcases allocpages_grown h (m - c.count) with he | ⟨s₁, he, hgr⟩
        · left
          simp only [he]
        · obtain ⟨hr, ha⟩ := h.rangeExtended hgr hpos hcnt hsplit
            (hlast.symm.trans (h.istop_iff hmem htop))
          refine Or.inr ⟨c.ret, _, _, ?_, hr, ha⟩
          simp only [he, pure, Except.pure]
          rw [← cut_eq hc hsplit hpret hpos hgr.pagehead_eq]
          split_ifs <;> rfl
      · rw [if_neg htop]
        have hspill : Spills s m := ⟨g.pages, hc, fun he => hz (hc.null_iff.mpr he),
          hshort hcnt, fun he => htop (h.istop_of_top hmem (hlp ▸ he))⟩
        rcases allocpage_grown h (m ||| BIGBIT) with he | ⟨s₁, he, h₁⟩
        · left
          simp only [he]
        rcases allocpages_grown h₁.inv m with he' | ⟨s₂, he', h₂⟩
        · left
          simp only [he, he']
        obtain ⟨g', hr, ha⟩ := h.rangeSpilled (h₁.trans h₂) hpos hsplit hspill
        refine Or.inr ⟨s.heapTop, _, g', ?_, hr, ha⟩
        simp only [he, he', hpret, pure, Except.pure]

theorem bigfind_spec (h : Inv B 12 s g) {size : ℕ} (hc : 12 < classOf size) :
    bigfind s (pagesOf size) = .error .noSpaceInHeap ∨
      ∃ p s' g', bigfind s (pagesOf size) = .ok (p, s') ∧ Carved B s' g g' p size ∧
        Accounts B s s' g g' p (pagesOf size) := by
  unfold bigfind
  rcases bigfindRange_spec h (two_le_pagesOf hc) with he | ⟨p, s₁, g₁, he, hr, ha⟩
  · left
    simp only [he, bind, Except.bind]
  · right
    refine ⟨p, _, g₁, ?_, hr.inv.carveRun hc hr.unowned hr.aligned hr.live_eq,
      fun hno hf => (ha.filled hno hf).congr rfl, fun hs => (ha.lost hs).congr le_rfl⟩
    have hp0 : p ≠ 0 := by
      have := hr.unowned.low
      have := hr.inv.geom.base_pos
      omega
    simp only [he, bind, Except.bind, pure, Except.pure, ne_eq, hp0, not_false_eq_true, ↓reduceIte]

end Zrhos.Mem
