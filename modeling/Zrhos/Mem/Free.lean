import Zrhos.Mem.Big

/-! `mm_free` of a live block: it is found through the tag of its page and goes back
to the list its bytes came from. -/
namespace Zrhos.Mem
open LinkedList

variable {B n : ℕ} {s s' : Heap} {g g' : Ghost}

/-! ### Decoding the tag -/

theorem small_tag {k : ℕ} (hk : 3 ≤ k ∧ k ≤ 12) :
    (1 ||| 2 ^ k) &&& BIGBIT = 0 ∧ (1 ||| 2 ^ k) &&& 1 ≠ 0 ∧
      log2 ((1 ||| 2 ^ k) - (1 ||| 2 ^ k) % 2) = k := by
  obtain ⟨h3, h12⟩ := hk
  interval_cases k <;> decide

theorem small_tag_injective {j k : ℕ} (hj : 3 ≤ j ∧ j ≤ 12) (hk : 3 ≤ k ∧ k ≤ 12)
    (h : 1 ||| 2 ^ j = 1 ||| 2 ^ k) : j = k := by
  rw [← (small_tag hj).2.2, h, (small_tag hk).2.2]

theorem big_tag {m : ℕ} (hm : m ≤ 4096) :
    (BIGBIT ||| m) &&& BIGBIT ≠ 0 ∧ (BIGBIT ||| m) % BIGBIT = m := by
  constructor
  · rw [Nat.and_comm, Nat.and_or_distrib_left, Nat.and_self]
    have : BIGBIT ≤ BIGBIT ||| (BIGBIT &&& m) := Nat.left_le_or
    simp only [BIGBIT] at *
    omega
  · have h := Nat.two_pow_add_eq_or_of_lt (i := 31) (b := m) (by omega) 1
    simp only [BIGBIT]
    norm_num at h ⊢
    omega

/-! ### The search for the insertion point -/

theorem seek_spec {word : ℕ → ℕ} {bp fuel lp p : ℕ} {zs : List ℕ} (hz : Chain word p zs)
    (hf : zs.length < fuel) :
    ∃ xs ys, zs = xs ++ ys ∧ (∀ x ∈ xs, x < bp) ∧ (∀ y ∈ ys.head?, bp ≤ y) ∧
      seek word bp fuel lp p = .ok (lastOr lp xs, ys.headD 0) := by
  induction fuel generalizing lp p zs with
  | zero => omega
  | succ fuel ih =>
    unfold seek
    cases zs with
    | nil =>
      have hp : p = 0 := hz.head
      exact ⟨[], [], rfl, by simp, by simp, by simp [hp]⟩
    | cons z zs =>
      have hp : p = z := hz.head
      have hp0 : z ≠ 0 := hz.ne_null z (by simp)
      by_cases hlt : z < bp
      · obtain ⟨xs, ys, he, hx, hy, hs⟩ := ih hz.tail (by simpa using hf)
        refine ⟨z :: xs, ys, by simp [he], ?_, hy, ?_⟩
        · intro x hm
          rcases List.mem_cons.mp hm with rfl | hm
          · exact hlt
          · exact hx x hm
        · rw [if_pos ⟨by rw [hp]; exact hp0, by rw [hp]; exact hlt⟩, hp, hs, lastOr_cons]
      · refine ⟨[], z :: zs, rfl, by simp, by simpa using not_lt.mp hlt, ?_⟩
        rw [if_neg (by rw [hp]; exact fun h => hlt h.2), hp]
        rfl

/-- A block on the list stops the search at itself. -/
theorem seek_stops {word : ℕ → ℕ} {bp fuel lp p : ℕ} {xs ys : List ℕ}
    (hz : Chain word p (xs ++ bp :: ys)) (hx : ∀ x ∈ xs, x < bp) (hf : xs.length < fuel) :
    seek word bp fuel lp p = .ok (lastOr lp xs, bp) := by
  induction xs generalizing fuel lp p with
  | nil =>
    obtain ⟨fuel, rfl⟩ := Nat.exists_eq_succ_of_ne_zero (Nat.ne_of_gt hf)
    have hp : p = bp := hz.head
    rw [hp, seek, if_neg (fun h => lt_irrefl _ h.2), lastOr_nil]
  | cons x xs ih =>
    obtain ⟨fuel, rfl⟩ := Nat.exists_eq_succ_of_ne_zero (Nat.ne_of_gt (Nat.zero_lt_of_lt hf))
    have hp : p = x := hz.head
    have hx0 : x ≠ 0 := hz.ne_null x (by simp)
    rw [hp, seek, if_pos ⟨hx0, hx x (by simp)⟩, lastOr_cons]
    exact ih hz.tail (fun y hy => hx y (by simp [hy])) (by simpa using hf)

theorem insertAt_self {bp lp : ℕ} (h : bp ≠ 0) : insertAt s bp lp bp = s := by
  unfold insertAt
  rw [if_neg (fun hlt => lt_irrefl _ hlt.2), if_neg h]

theorem insertAt_eq {bp lp p : ℕ} (h : p = 0 ∨ bp < p) :
    insertAt s bp lp p = setNext (setNext s lp bp) bp p := by
  unfold insertAt
  split_ifs with h1 h2
  · rfl
  · rw [h2]
  · omega

/-- Lists of blocks below the top of the heap fit into the fuel of the searches. -/
theorem Inv.fuel_suffices (h : Inv B n s g) {p : ℕ} {zs : List ℕ} (hz : Chain s.word p zs)
    (ho : ∀ z ∈ zs, ∃ o, g.Has o ∧ o.start = z) : zs.length < s.heapTop := by
  refine length_lt_of_nodup hz.nodup (fun x hx => ⟨hz.ne_null x hx, ?_⟩) ?_
  · obtain ⟨o, ho, rfl⟩ := ho x hx
    have := h.owned.bounds ho
    have := o.size_pos
    omega
  · have := h.geom.top
    have := h.geom.base_pos
    omega

/-! ### Giving up a live block -/

theorem Inv.takeLive (h : Inv B n s g) {b : ℕ × ℕ} (hb : b ∈ g.live) :
    Inv B n s { g with live := g.live.erase b } ∧
      Unowned B s { g with live := g.live.erase b } b.1 (capacity b.2) := by
  have hsub {o : Owner} (ho : ({ g with live := g.live.erase b } : Ghost).Has o) :
      g.Has o ∧ o ≠ .live b := by
    cases o with
    | slab k q => exact ⟨ho, by simp⟩
    | page q => exact ⟨ho, by simp⟩
    | live c =>
      have hm := (h.live.mem_erase_iff).mp ho
      exact ⟨hm.2, by simpa using hm.1⟩
  exact ⟨⟨h.geom, h.owned.mono (fun ho => (hsub ho).1),
    ⟨h.linked.pages, h.linked.slabs, h.linked.heads, h.linked.empty, h.linked.classes,
      h.linked.sorted⟩,
    h.live.erase b⟩, h.owned.release (o := .live b) hb hsub⟩

theorem Filled.takeLive (h : Filled B s g 0 0) (b : ℕ × ℕ) :
    Filled B s { g with live := g.live.erase b } b.1 (capacity b.2) := by
  refine h.transfer rfl (fun {o} ho => ?_) fun x _ hx => by omega
  cases o with
  | slab k q => exact Or.inl ho
  | page q => exact Or.inl ho
  | live c =>
    by_cases hc : c = b
    · subst hc
      exact Or.inr fun x hx => hx
    · exact Or.inl ((List.mem_erase_of_ne hc).mpr ho)

/-- A block of class `k` lies above the sentinel of its class: the pages below that
sentinel carry the tags of smaller classes. -/
theorem Inv.sentinel_lt (h : Inv B 12 s g) {k p : ℕ} (hk : 3 ≤ k ∧ k < 12) (hB : B ≤ p)
    (ht : (getinfobybp s p).usedORbitposBigORlen = 1 ||| 2 ^ k) (hne : p ≠ s.sizehead k) :
    s.sizehead k < p := by
  by_contra hlt
  have hh := (h.linked.heads hk.1 hk.2).1
  have hhas {j : ℕ} (hj : 3 ≤ j ∧ j < 12) : g.Has (.slab j (s.sizehead j)) := by
    obtain ⟨t, ht⟩ := (h.linked.heads hj.1 hj.2).2
    exact ⟨hj, by rw [ht]; simp⟩
  have hl := (h.pageIndex_lt (hhas hk)).1
  have hj : 3 ≤ (p - B) / PGSIZE + 3 ∧ (p - B) / PGSIZE + 3 < k := by
    simp only [PGSIZE] at *
    omega
  have hj' : 3 ≤ (p - B) / PGSIZE + 3 ∧ (p - B) / PGSIZE + 3 < 12 := by omega
  have htag := h.owned.tagged (hhas hj')
  have hs := (h.linked.heads hj'.1 hj'.2).1
  have hidx : (s.sizehead ((p - B) / PGSIZE + 3) - B) / PGSIZE = (p - B) / PGSIZE := by
    rw [hs, Nat.add_sub_cancel, Nat.add_sub_cancel_left]
    exact Nat.mul_div_cancel _ (by decide)
  simp only [Owner.Tagged, getinfobybp, h.geom.pageIndex_eq hl, hidx] at htag
  simp only [getinfobybp, h.geom.pageIndex_eq hl] at ht
  have := small_tag_injective ⟨hj'.1, hj'.2.le⟩ ⟨hk.1, hk.2.le⟩ (htag.symm.trans ht)
  omega

/-! ### A slab block -/

/-- An unowned block with the tag of class `k` goes back to the list of that class. -/
theorem Inv.giveBlock (h : Inv B 12 s g) {k bp : ℕ} (hk : 3 ≤ k ∧ k < 12)
    (hu : Unowned B s g bp (2 ^ k)) (hal : bp % 2 ^ k = 0)
    (ht : (getinfobybp s bp).usedORbitposBigORlen = 1 ||| 2 ^ k) :
    ∃ lp p g', seek s.word bp s.heapTop 0 (s.sizehead k) = .ok (lp, p) ∧
      Inv B 12 (insertAt s bp lp p) g' ∧ g'.live = g.live ∧
      (Filled B s g bp (2 ^ k) → Filled B (insertAt s bp lp p) g' 0 0) ∧
      seek (insertAt s bp lp p).word bp s.heapTop 0 (s.sizehead k) = .ok (lp, bp) := by
  have hpow := Nat.two_pow_pos k
  have hc := h.linked.slabs hk.1 hk.2
  obtain ⟨t, hg⟩ := (h.linked.heads hk.1 hk.2).2
  have hself : bp ≤ bp ∧ bp < bp + 2 ^ k := ⟨le_rfl, by omega⟩
  have hnot : bp ∉ g.slab k := hu.not_slab hself hk
  have hlt : s.sizehead k < bp := by
    refine h.sentinel_lt hk hu.low ht ?_
    rintro rfl
    exact hnot (by simp [hg])
  have hfuel := h.fuel_suffices hc (fun z hm => ⟨.slab k z, ⟨hk, hm⟩, rfl⟩)
  obtain ⟨xs, ys, hz, hxs, hys, hs⟩ := @seek_spec s.word bp _ 0 _ _ hc hfuel
  have hhead : s.sizehead k = (xs ++ ys).headD 0 := hz ▸ hc.head
  obtain ⟨xs', rfl⟩ : ∃ xs', xs = s.sizehead k :: xs' := by
    cases xs with
    | nil =>
      rw [hz, List.nil_append] at hg
      have := hys (s.sizehead k) (by simp [hg])
      omega
    | cons x xs' => exact ⟨xs', by rw [hhead]; rfl⟩
  have hp : ys.headD 0 = 0 ∨ bp < ys.headD 0 := by
    cases ys with
    | nil => exact Or.inl rfl
    | cons y ys =>
      refine Or.inr (lt_of_le_of_ne (hys y rfl) ?_)
      rintro rfl
      exact hnot (by simp [hz])
  set l := lastOr 0 (s.sizehead k :: xs') with hl
  have hlm : l ∈ g.slab k := by
    rw [hz]
    exact List.mem_append_left _ (lastOr_mem (by simp))
  have hlb : l ≠ bp := fun he => hnot (he ▸ hlm)
  set w := Function.update (Function.update s.word l bp) bp (ys.headD 0) with hw
  have hout {a : ℕ} (ha : a ≠ l) (hb : a ≠ bp) : w a = s.word a := by
    rw [hw, Function.update_of_ne hb, Function.update_of_ne ha]
  have hwl : w l = bp := by
    rw [hw, Function.update_of_ne hlb, Function.update_self]
  have hwb : w bp = ys.headD 0 := Function.update_self _ _ _
  have hchain : Chain w (s.sizehead k) (s.sizehead k :: (xs' ++ bp :: ys)) := by
    have hc' := hc
    rw [hz] at hc'
    change Chain w (s.sizehead k) (s.sizehead k :: xs' ++ ([bp] ++ ys))
    refine hc'.splice (by simp) ?_ ?_ ?_ (by simp) ?_
    · intro x hx hne
      exact hout hne (by rintro rfl; exact hnot (hz ▸ hx))
    · exact ⟨hwl, hwb⟩
    · simp only [List.mem_singleton, forall_eq]
      omega
    · simp only [List.mem_singleton, forall_eq]
      exact hz ▸ hnot
  refine ⟨l, ys.headD 0, g.withSlab k (s.sizehead k :: (xs' ++ bp :: ys)), hs, ?_, rfl,
    fun hf => ?_, ?_⟩
  case refine_3 =>
    rw [insertAt_eq hp]
    rw [hz, List.length_append] at hfuel
    have hc' : Chain w (s.sizehead k) (s.sizehead k :: xs' ++ bp :: ys) := hchain
    exact seek_stops hc' hxs (by omega)
  case refine_2 =>
    rw [insertAt_eq hp]
    refine hf.transfer rfl (fun {o} ho => Or.inl ?_) fun x h1 h2 _ =>
      ⟨.slab k bp, ⟨hk, by simp⟩, h1, h2⟩
    cases o with
    | slab j b =>
      refine ⟨ho.1, ?_⟩
      by_cases hj : j = k
      · subst hj
        have hb := ho.2
        rw [hz, List.cons_append, List.mem_cons, List.mem_append] at hb
        rw [Ghost.withSlab_self, List.mem_cons, List.mem_append, List.mem_cons]
        tauto
      · rw [Ghost.withSlab_of_ne g hj]
        exact ho.2
    | page q => exact ho
    | live b => exact ho
  rw [insertAt_eq hp]
  refine h.setSlab hk ?_ ?_ ?_ hchain
  · refine h.owned.grow hu (fun o => o = .slab k bp) ?_ ?_ ?_ ?_ ?_
    · intro o ho
      cases o with
      | slab j b =>
        by_cases hj : j = k
        · subst hj
          obtain ⟨-, hm⟩ := ho
          simp only [Ghost.withSlab_self, List.mem_cons, List.mem_append] at hm
          by_cases hb : b = bp
          · exact Or.inr (by rw [hb])
          · refine Or.inl ⟨hk, ?_⟩
            rw [hz]
            simp only [List.cons_append, List.mem_cons, List.mem_append]
            tauto
        · exact Or.inl ⟨ho.1, by simpa [hj] using ho.2⟩
      | page q => exact Or.inl ho
      | live b => exact Or.inl ho
    · rintro _ rfl
      exact ⟨le_rfl, le_rfl⟩
    · rintro _ _ x rfl rfl _ _
      rfl
    · rintro _ rfl
      have hle : 2 ^ k ≤ PGSIZE := Nat.pow_le_pow_right (n := 2) (by omega) hk.2.le
      simpa only [Owner.start, Owner.size, min_eq_left hle] using hal
    · rintro _ rfl
      exact ht
  · intro a ha
    refine hout ?_ ?_
    · rintro rfl
      exact h.slab_not_page hk hlm ha
    · rintro rfl
      exact hu.not_page hself ha
  · intro j h3 hj hne a ha
    refine hout ?_ ?_
    · rintro rfl
      exact h.slab_not_slab hk ⟨h3, hj⟩ hlm hne ha
    · rintro rfl
      exact hu.not_slab hself ⟨h3, hj⟩ ha

/-! ### Pages -/

theorem run_sorted (p m : ℕ) : (run p m).Pairwise (· < ·) := by
  refine List.pairwise_map.mpr (List.pairwise_lt_range.imp (fun {i j} hij => ?_))
  simp only [PGSIZE]
  omega

theorem run_nodup (p m : ℕ) : (run p m).Nodup := by
  refine List.nodup_range.map (fun i j h => ?_)
  simp only [PGSIZE] at h
  omega

theorem run_bounds {p m a : ℕ} (ha : a ∈ run p m) : p ≤ a ∧ a < p + m * PGSIZE := by
  obtain ⟨i, hi, rfl⟩ := mem_run.mp ha
  simp only [PGSIZE]
  omega

/-- Unowned pages in their place keep the page list in order. -/
theorem Unowned.spliced {p m : ℕ} {xs ys : List ℕ} (hu : Unowned B s g p (m * PGSIZE))
    (hsort : g.pages.Pairwise (· < ·)) (hg : g.pages = xs ++ ys) (hx : ∀ x ∈ xs, x < p)
    (hy : ∀ y ∈ ys.head?, p ≤ y) : (xs ++ (run p m ++ ys)).Pairwise (· < ·) := by
  rw [hg] at hsort
  obtain ⟨hxs, hys, hxy⟩ := List.pairwise_append.mp hsort
  have hlow : ∀ y ∈ ys, p ≤ y := by
    cases ys with
    | nil => simp
    | cons z ys =>
      have hz : p ≤ z := hy z rfl
      simp only [List.mem_cons, forall_eq_or_imp]
      exact ⟨hz, fun y hm => hz.trans (List.rel_of_pairwise_cons hys hm).le⟩
  have hhigh : ∀ y ∈ ys, p + m * PGSIZE ≤ y := by
    intro y hm
    by_contra hlt
    have hmem : y ∈ g.pages := by
      rw [hg]
      exact List.mem_append_right _ hm
    exact hu.not_page ⟨hlow y hm, not_le.mp hlt⟩ hmem
  refine List.pairwise_append.mpr ⟨hxs, List.pairwise_append.mpr ⟨run_sorted p m, hys, ?_⟩, ?_⟩
  · intro a ha y hm
    exact (run_bounds ha).2.trans_le (hhigh y hm)
  · intro x hxm y hm
    rcases List.mem_append.mp hm with hm | hm
    · exact (hx x hxm).trans_le (run_bounds hm).1
    · exact hxy x hxm y hm

/-- Unowned pages join the page list, given its new chain. -/
theorem Inv.givePages (h : Inv B n s g) {p m q : ℕ} {w : ℕ → ℕ} {zs : List ℕ}
    (hu : Unowned B s g p (m * PGSIZE)) (hp : p % PGSIZE = 0)
    (hz : ∀ z ∈ zs, z ∈ g.pages ∨ z ∈ run p m)
    (hs : ∀ k, 3 ≤ k → k < 12 → ∀ a ∈ g.slab k, w a = s.word a) (hc : Chain w q zs)
    (hsort : zs.Pairwise (· < ·)) :
    Inv B n { s with word := w, pagehead := q } { g with pages := zs } := by
  refine ⟨h.geom.congr rfl rfl rfl (fun _ => rfl), ?_, ⟨hc, ?_, h.linked.heads, h.linked.empty,
    h.linked.classes, hsort⟩, h.live⟩
  · refine Owned.congr ?_ (s := s) rfl rfl
    refine h.owned.grow hu (fun o => ∃ i < m, o = .page (p + i * PGSIZE)) ?_ ?_ ?_ ?_ ?_
    · intro o ho
      cases o with
      | slab j b => exact Or.inl ho
      | page z =>
        rcases hz z ho with hm | hm
        · exact Or.inl hm
        · obtain ⟨i, hi, rfl⟩ := mem_run.mp hm
          exact Or.inr ⟨i, hi, rfl⟩
      | live b => exact Or.inl ho
    · rintro _ ⟨i, hi, rfl⟩
      simp only [Owner.start, Owner.size, PGSIZE]
      omega
    · rintro _ _ x ⟨i, -, rfl⟩ ⟨j, -, rfl⟩ hc hc'
      simp only [Owner.Covers, Owner.start, Owner.size, PGSIZE] at hc hc'
      rw [show i = j by omega]
    · rintro _ ⟨i, -, rfl⟩
      simp only [Owner.start, Owner.size, PGSIZE, min_self] at *
      omega
    · rintro _ ⟨i, -, rfl⟩
      trivial
  · intro k h3 hk
    exact (h.linked.slabs h3 hk).congr (hs k h3 (hk.trans_le h.linked.classes))

theorem Filled.givePages {p m q : ℕ} {w : ℕ → ℕ} {zs : List ℕ} (h : Filled B s g p (m * PGSIZE))
    (hz : ∀ z, z ∈ g.pages ∨ z ∈ run p m → z ∈ zs) :
    Filled B { s with word := w, pagehead := q } { g with pages := zs } 0 0 := by
  refine h.transfer rfl (fun {o} ho => Or.inl ?_) fun x h1 h2 _ => ?_
  · cases o with
    | slab j b => exact ho
    | page z => exact hz z (Or.inl ho)
    | live b => exact ho
  · have hi : (x - p) / PGSIZE < m := Nat.div_lt_of_lt_mul (by rw [Nat.mul_comm]; omega)
    refine ⟨.page (p + (x - p) / PGSIZE * PGSIZE), hz _ (Or.inr (mem_run.mpr ⟨_, hi, rfl⟩)), ?_⟩
    simp only [Owner.Covers, Owner.start, Owner.size, PGSIZE]
    omega

/-- The three ways in which `mm_free` links the pages from `bp` to `pend` into the page
list. -/
def linkPages (s : Heap) (bp pend : ℕ) : Except Stop Heap :=
  if s.pagehead = 0 then .ok (setNext { s with pagehead := bp } pend 0)
  else if s.pagehead < bp then do
    let (lp, p) ← seek s.word bp s.heapTop 0 s.pagehead
    return setNext (setNext s lp bp) pend p
  else .ok { setNext s pend s.pagehead with pagehead := bp }

theorem linkPages_setinfobybp (s : Heap) (bp pend q : ℕ) (info : Page) :
    (linkPages s bp pend).map (fun s => setinfobybp s q info) =
      linkPages (setinfobybp s q info) bp pend := by
  have hhead : (setinfobybp s q info).pagehead = s.pagehead := rfl
  have hseek : seek (setinfobybp s q info).word bp (setinfobybp s q info).heapTop 0 s.pagehead =
      seek s.word bp s.heapTop 0 s.pagehead := rfl
  unfold linkPages
  rw [hhead, hseek]
  split_ifs with h0 hlt
  · rfl
  · cases seek s.word bp s.heapTop 0 s.pagehead <;> rfl
  · rfl

/-- The place of an unowned page in the page list. -/
theorem Inv.seekPage (h : Inv B n s g) {bp : ℕ} (hb : bp ∉ g.pages) (hlt : s.pagehead < bp)
    (h0 : s.pagehead ≠ 0) :
    ∃ xs ys, g.pages = xs ++ ys ∧ xs ≠ [] ∧ (ys.headD 0 = 0 ∨ bp < ys.headD 0) ∧
      (∀ x ∈ xs, x < bp) ∧ (∀ y ∈ ys.head?, bp ≤ y) ∧
      seek s.word bp s.heapTop 0 s.pagehead = .ok (lastOr 0 xs, ys.headD 0) := by
  have hc := h.linked.pages
  obtain ⟨xs, ys, hz, hxs, hys, hs⟩ := seek_spec hc
    (h.fuel_suffices hc (fun z hm => ⟨.page z, hm, rfl⟩))
  refine ⟨xs, ys, hz, ?_, ?_, hxs, hys, hs⟩
  · rintro rfl
    have hhead := hc.head
    cases ys with
    | nil => exact h0 (by simpa [hz] using hhead)
    | cons y ys =>
      have := hys y rfl
      simp only [hz, List.nil_append, List.headD_cons] at hhead
      omega
  · cases ys with
    | nil => exact Or.inl rfl
    | cons y ys =>
      refine Or.inr (lt_of_le_of_ne (hys y rfl) ?_)
      rintro rfl
      exact hb (by simp [hz])

theorem linkPages_spec (h : Inv B n s g) {p m q : ℕ}
    (hu : Unowned B s g p ((m + 1) * PGSIZE)) (hp : p % PGSIZE = 0)
    (hr : Seg s.word p (run p (m + 1)) q) :
    ∃ w ph zs, linkPages s p (p + m * PGSIZE) = .ok { s with word := w, pagehead := ph } ∧
      Inv B n { s with word := w, pagehead := ph } { g with pages := zs } ∧
      ∀ z, z ∈ g.pages ∨ z ∈ run p (m + 1) → z ∈ zs := by
  set pend := p + m * PGSIZE with hpend
  have hin {a : ℕ} (ha : a ∈ run p (m + 1)) : p ≤ a ∧ a < p + (m + 1) * PGSIZE := run_bounds ha
  have hpm : p ∈ run p (m + 1) := by simp [run_cons]
  have hem : pend ∈ run p (m + 1) := by simp [run_succ, hpend]
  have hfresh : ∀ a ∈ run p (m + 1), a ∉ g.pages := fun a ha => hu.not_page (hin ha)
  have hrn : ∀ a ∈ run p (m + 1), a ≠ 0 := by
    intro a ha
    have := hin ha
    have := hu.low
    have := h.geom.base_pos
    omega
  have hnd := run_nodup p (m + 1)
  have hlast (w : ℕ → ℕ) (v : ℕ) (hw : Seg w p (run p (m + 1)) q) :
      Seg (Function.update w pend v) p (run p (m + 1)) v := by
    rw [run_succ] at hw hnd ⊢
    refine hw.update_last ?_
    simp only [List.nodup_append, List.mem_singleton] at hnd
    exact fun hm => hnd.2.2 _ hm _ rfl rfl
  have hslab {k a : ℕ} (h3 : 3 ≤ k) (hk : k < 12) (ha : a ∈ g.slab k) : a ≠ pend := by
    rintro rfl
    exact hu.not_slab (hin hem) ⟨h3, hk⟩ ha
  unfold linkPages
  split_ifs with h0 hlt
  · have hg : g.pages = [] := h.linked.pages.null_iff.mp h0
    refine ⟨_, _, run p (m + 1), rfl, h.givePages hu hp (fun z hz => Or.inr hz) ?_
      ⟨hlast _ _ hr, hrn, hnd⟩ (run_sorted p (m + 1)), fun z hz => ?_⟩
    · intro k h3 hk a ha
      exact Function.update_of_ne (hslab h3 hk ha) _ _
    · rw [hg] at hz
      exact hz.resolve_left List.not_mem_nil
  · obtain ⟨xs, ys, hz, hx, -, hxs, hys, hs⟩ := h.seekPage (hfresh p hpm) hlt h0
    have hlm : lastOr 0 xs ∈ g.pages := hz ▸ List.mem_append_left _ (lastOr_mem hx)
    have hle : lastOr 0 xs ≠ pend := fun he => hfresh pend hem (he ▸ hlm)
    refine ⟨_, _, xs ++ (run p (m + 1) ++ ys), by rw [hs]; rfl, h.givePages hu hp ?_ ?_ ?_
      (hu.spliced h.linked.sorted hz hxs hys), fun z hm => ?_⟩
    case refine_4 =>
      rw [hz] at hm
      simp only [List.mem_append] at hm ⊢
      tauto
    · intro z hm
      rw [hz]
      simp only [List.mem_append] at hm ⊢
      tauto
    · intro k h3 hk a ha
      rw [Function.update_of_ne (hslab h3 hk ha), setNext_word, Function.update_of_ne]
      rintro rfl
      exact h.page_not_slab ⟨h3, hk⟩ hlm ha
    · have hc := h.linked.pages
      rw [hz] at hc
      refine hc.splice hx ?_ ?_ hrn hnd (fun a ha => hz ▸ hfresh a ha)
      · intro a ha hne
        rw [Function.update_of_ne, setNext_word, Function.update_of_ne hne]
        rintro rfl
        exact hfresh _ hem (hz ▸ ha)
      · rw [Function.update_of_ne hle, setNext_word, Function.update_self]
        refine hlast _ _ (hr.congr (fun a ha => Function.update_of_ne ?_ _ _))
        rintro rfl
        exact hfresh _ ha hlm
  · have hfirst : ∀ y ∈ g.pages.head?, p ≤ y := by
      intro y hy
      rw [h.linked.pages.head, List.headD_eq_head?_getD, hy] at hlt
      exact not_lt.mp hlt
    have hlow : ∀ x ∈ ([] : List ℕ), x < p := by simp
    have hsort := hu.spliced h.linked.sorted rfl hlow hfirst
    refine ⟨_, _, run p (m + 1) ++ g.pages, rfl, h.givePages hu hp ?_ ?_ ?_ hsort,
      fun z hm => List.mem_append.mpr hm.symm⟩
    · intro z hm
      rcases List.mem_append.mp hm with hm | hm
      · exact Or.inr hm
      · exact Or.inl hm
    · intro k h3 hk a ha
      exact Function.update_of_ne (hslab h3 hk ha) _ _
    · refine h.linked.pages.prepend ?_ (hlast _ _ hr) hrn
        (hnd.append h.linked.pages.nodup hfresh)
      intro y hy
      refine Function.update_of_ne ?_ _ _
      rintro rfl
      exact hfresh _ hem hy

/-- What `adjustpages` leaves behind. -/
structure Adjusted (B n : ℕ) (s s' : Heap) (g : Ghost) (p m : ℕ) : Prop where
  inv : Inv B n s' g
  seg : Seg s'.word p (run p (m + 1)) 0
  outside {x : ℕ} : x ∉ run p (m + 1) → s'.word x = s.word x
  top_eq : s'.heapTop = s.heapTop
  tag_eq : (getinfobybp s' p).usedORbitposBigORlen = 0
  below {q : ℕ} : B ≤ q → q + PGSIZE ≤ p → getinfobybp s' q = getinfobybp s q

theorem Inv.adjustOne (h : Inv B n s g) {p : ℕ} (hu : Unowned B s g p PGSIZE)
    (hp : p % PGSIZE = 0) (v : ℕ) : Inv B n (setinfobybp (setNext s p v) p ⟨p, 0⟩) g := by
  refine (h.write_unowned hu v ⟨le_rfl, ?_⟩).retag (hu.congr le_rfl) hp 0
  simp only [PGSIZE]
  omega

theorem Inv.adjustOne_tags (h : Inv B n s g) {p : ℕ} (hu : Unowned B s g p PGSIZE)
    (hp : p % PGSIZE = 0) (v : ℕ) :
    (getinfobybp (setinfobybp (setNext s p v) p ⟨p, 0⟩) p).usedORbitposBigORlen = 0 ∧
      ∀ {q : ℕ}, B ≤ q → q + PGSIZE ≤ p →
        getinfobybp (setinfobybp (setNext s p v) p ⟨p, 0⟩) q = getinfobybp s q := by
  have hw : Inv B n (setNext s p v) g :=
    h.write_unowned hu v ⟨le_rfl, by simp only [PGSIZE]; omega⟩
  have hu' : Unowned B (setNext s p v) g p PGSIZE := hu.congr le_rfl
  refine ⟨by rw [getinfobybp_setinfobybp hw hu' hp], fun {q} hB hq => ?_⟩
  refine getinfobybp_setinfobybp_of_ne hw hu' hp 0 ?_
  have := h.geom.base_mod
  simp only [PGSIZE] at *
  omega

theorem adjustpages_spec (h : Inv B n s g) {p m : ℕ} (hu : Unowned B s g p ((m + 1) * PGSIZE))
    (hp : p % PGSIZE = 0) :
    ∃ s', adjustpages m s p = (p + m * PGSIZE, s') ∧ Adjusted B n s s' g p m := by
  have hpage : Unowned B s g p PGSIZE := hu.sub le_rfl (by rw [Nat.succ_mul]; omega)
  induction m generalizing s p with
  | zero =>
    obtain ⟨htag, hbelow⟩ := h.adjustOne_tags hpage hp 0
    refine ⟨_, by simp [adjustpages], h.adjustOne hpage hp 0, ?_, ?_, rfl, htag, hbelow⟩
    · rw [run_cons]
      exact ⟨rfl, Function.update_self _ _ _⟩
    · intro x hx
      refine Function.update_of_ne ?_ _ _
      rintro rfl
      exact hx (by simp [run_cons])
  | succ m ih =>
    have hp' : (p + PGSIZE) % PGSIZE = 0 := by simpa using hp
    have hu' : Unowned B (setinfobybp (setNext s p (p + PGSIZE)) p ⟨p, 0⟩) g (p + PGSIZE)
        ((m + 1) * PGSIZE) := by
      refine (hu.sub (by omega) ?_).congr le_rfl
      rw [Nat.succ_mul (m + 1)]
      omega
    obtain ⟨s', he, ha⟩ := ih (h.adjustOne hpage hp (p + PGSIZE)) hu' hp'
      (hu'.sub le_rfl (by rw [Nat.succ_mul]; omega))
    have hnot : p ∉ run (p + PGSIZE) (m + 1) := by
      intro hm
      obtain ⟨i, -, hi⟩ := mem_run.mp hm
      simp only [PGSIZE] at hi
      omega
    obtain ⟨htag, hbelow⟩ := h.adjustOne_tags hpage hp (p + PGSIZE)
    refine ⟨s', ?_, ha.inv, ?_, ?_, ha.top_eq, ?_, fun {q} hB hq => ?_⟩
    case refine_4 =>
      rw [ha.below hpage.low le_rfl]
      exact htag
    case refine_5 =>
      rw [ha.below hB (hq.trans (Nat.le_add_right _ _))]
      exact hbelow hB hq
    · rw [adjustpages, he]
      ring_nf
    · rw [run_cons]
      refine ⟨rfl, ?_⟩
      rw [ha.outside hnot]
      simpa [setinfobybp, setNext] using ha.seg
    · intro x hx
      rw [run_cons, List.mem_cons, not_or] at hx
      rw [ha.outside hx.2]
      exact Function.update_of_ne hx.1 _ _

/-! ### The call -/

theorem mmFree_small {bp k : ℕ} (hk : 3 ≤ k ∧ k < 12)
    (ht : (getinfobybp s bp).usedORbitposBigORlen = 1 ||| 2 ^ k) :
    mmFree s bp = (do
      let (lp, p) ← seek s.word bp s.heapTop 0 (s.sizehead k)
      return insertAt s bp lp p) := by
  obtain ⟨h1, h2, h3⟩ := small_tag ⟨hk.1, hk.2.le⟩
  unfold mmFree
  simp only [ht, h1, h2, h3, hk.2, PAGEPOS_eq, ↓reduceIte]

theorem mmFree_page (h : Inv B n s g) {bp : ℕ} (hb : bp ∉ g.pages)
    (ht : (getinfobybp s bp).usedORbitposBigORlen = 1 ||| 2 ^ 12) :
    mmFree s bp = (linkPages s bp bp).map (fun s => setinfobybp s bp ⟨bp, 0⟩) := by
  obtain ⟨h1, h2, h3⟩ := small_tag (k := 12) (by decide)
  unfold mmFree linkPages
  simp only [ht, h1, h2, h3, PAGEPOS_eq, lt_irrefl, ↓reduceIte]
  split_ifs with h0 hlt
  · rfl
  · obtain ⟨xs, ys, -, -, hp, -, -, hs⟩ := h.seekPage hb hlt h0
    rw [hs]
    simp only [bind, Except.bind, pure, Except.pure, Except.map, insertAt_eq hp]
  · rfl

theorem mmFree_big {bp m : ℕ} (hm : m ≤ 4096)
    (ht : (getinfobybp s bp).usedORbitposBigORlen = BIGBIT ||| m) :
    mmFree s bp = linkPages (adjustpages (m - 1) s bp).2 bp (adjustpages (m - 1) s bp).1 := by
  obtain ⟨h1, h2⟩ := big_tag hm
  unfold mmFree linkPages
  simp only [ht, h1, h2, ↓reduceIte]
  rfl

/-- The first page of a free block has no tag, so a second `mm_free` does nothing. -/
theorem mmFree_unused {bp : ℕ} (ht : (getinfobybp s bp).usedORbitposBigORlen = 0) :
    mmFree s bp = .ok s := by
  unfold mmFree
  simp only [ht, Nat.zero_and, ↓reduceIte]
  rfl

/-- What `mm_free` of the live block `b` leaves behind. -/
structure Freed (B : ℕ) (s s' : Heap) (g g' : Ghost) (b : ℕ × ℕ) : Prop where
  inv : Inv B 12 s' g'
  live_eq : g'.live = g.live.erase b
  filled : Filled B s g 0 0 → Filled B s' g' 0 0
  again : mmFree s' b.1 = .ok s'

theorem mmFree_small_spec (h : Inv B 12 s g) {b : ℕ × ℕ} (hb : b ∈ g.live)
    (hc : classOf b.2 < 12) : ∃ s' g', mmFree s b.1 = .ok s' ∧ Freed B s s' g g' b := by
  have hfill (hf : Filled B s g 0 0) := hf.takeLive b
  obtain ⟨hi, hu⟩ := h.takeLive hb
  have ht := h.owned.tagged (o := .live b) hb
  have hal := h.owned.aligned (o := .live b) hb
  have hk : 3 ≤ classOf b.2 ∧ classOf b.2 < 12 := ⟨three_le_classOf b.2, hc⟩
  simp only [Owner.Tagged, Owner.start, Owner.size, capacity, tagOf, PAGEPOS_eq, hc.le,
    ↓reduceIte] at ht hal hu hfill
  have hle : 2 ^ classOf b.2 ≤ PGSIZE := Nat.pow_le_pow_right (n := 2) (by omega) hc.le
  rw [min_eq_left hle] at hal
  have hb0 : b.1 ≠ 0 := by
    have := hu.low
    have := h.geom.base_pos
    omega
  obtain ⟨lp, p, g', hs, hi', hl, hf', hagain⟩ := hi.giveBlock hk hu hal ht
  have hsame : (insertAt s b.1 lp p).pageArray = s.pageArray ∧
      (insertAt s b.1 lp p).heapTop = s.heapTop ∧
      (insertAt s b.1 lp p).sizehead = s.sizehead := by
    unfold insertAt
    split_ifs <;> exact ⟨rfl, rfl, rfl⟩
  have ht' : (getinfobybp (insertAt s b.1 lp p) b.1).usedORbitposBigORlen =
      1 ||| 2 ^ classOf b.2 := by
    rw [← ht, getinfobybp, getinfobybp, pageIndex, pageIndex, hsame.1]
  refine ⟨insertAt s b.1 lp p, g', ?_, hi', hl, fun hf => hf' (hfill hf), ?_⟩
  · rw [mmFree_small hk ht, hs]
    rfl
  · rw [mmFree_small hk ht', hsame.2.1, hsame.2.2, hagain]
    simp only [bind, Except.bind, pure, Except.pure, insertAt_self hb0]

/-- A single page joins the page list. -/
theorem mmFree_page_listed (h : Inv B 12 s g) {b : ℕ × ℕ} (hb : b ∈ g.live)
    (hc : classOf b.2 = 12) : ∃ s' g', mmFree s b.1 = .ok s' ∧ Freed B s s' g g' b ∧
      ∀ z, z ∈ g.pages ∨ z = b.1 → z ∈ g'.pages := by
  have hfill (hf : Filled B s g 0 0) := hf.takeLive b
  obtain ⟨hi, hu⟩ := h.takeLive hb
  have ht := h.owned.tagged (o := .live b) hb
  have hal := h.owned.aligned (o := .live b) hb
  simp only [Owner.Tagged, Owner.start, Owner.size, capacity, tagOf, PAGEPOS_eq, hc, le_refl,
    ↓reduceIte] at ht hal hu hfill
  have hu' : Unowned B s { g with live := g.live.erase b } b.1 ((0 + 1) * PGSIZE) := hu
  have hpos := capacity_pos b.2
  have hret := hi.retag hu hal 0
  obtain ⟨w, ph, zs, hl, hi', hall⟩ := linkPages_spec hret (hu'.congr le_rfl) hal
    (q := s.word b.1) (by simp [run, setinfobybp])
  refine ⟨_, _, ?_, ⟨hi', rfl, fun hf => Filled.givePages (m := 0 + 1) ?_ hall,
    mmFree_unused ?_⟩, fun z hz => hall z (hz.imp_right fun he => ?_)⟩
  · rw [mmFree_page hi (hu.not_page ⟨le_rfl, by omega⟩) ht, linkPages_setinfobybp]
    simpa using hl
  · exact (hfill hf).congr rfl
  · exact congrArg Page.usedORbitposBigORlen (getinfobybp_setinfobybp hi hu hal 0)
  · exact mem_run.mpr ⟨0, Nat.one_pos, by simp [he]⟩

theorem mmFree_big_spec (h : Inv B 12 s g) {b : ℕ × ℕ} (hb : b ∈ g.live)
    (hsize : b.2 ≤ 2 ^ 24) (hc : 12 < classOf b.2) :
    ∃ s' g', mmFree s b.1 = .ok s' ∧ Freed B s s' g g' b := by
  have hfill (hf : Filled B s g 0 0) := hf.takeLive b
  obtain ⟨hi, hu⟩ := h.takeLive hb
  have ht := h.owned.tagged (o := .live b) hb
  have hal := h.owned.aligned (o := .live b) hb
  have hm := two_le_pagesOf hc
  simp only [Owner.Tagged, Owner.start, Owner.size, capacity, tagOf, PAGEPOS_eq, not_le.mpr hc,
    ↓reduceIte] at ht hal hu hfill
  rw [min_eq_right (by simp only [PGSIZE]; omega)] at hal
  have hu' : Unowned B s { g with live := g.live.erase b } b.1
      ((pagesOf b.2 - 1 + 1) * PGSIZE) := by rwa [Nat.sub_add_cancel (by omega)]
  obtain ⟨s₁, he, ha⟩ := adjustpages_spec hi hu' hal
  obtain ⟨w, ph, zs, hl, hi', hall⟩ := linkPages_spec ha.inv (hu'.congr ha.top_eq.ge) hal ha.seg
  refine ⟨_, _, ?_, hi', rfl, fun hf => Filled.givePages (m := pagesOf b.2 - 1 + 1) ?_ hall,
    mmFree_unused ha.tag_eq⟩
  · rw [mmFree_big (pagesOf_le hsize) ht, he]
    exact hl
  · rw [Nat.sub_add_cancel (by omega)]
    exact (hfill hf).congr ha.top_eq

theorem mmFree_spec (h : Inv B 12 s g) {b : ℕ × ℕ} (hb : b ∈ g.live) (hsize : b.2 ≤ 2 ^ 24) :
    ∃ s' g', mmFree s b.1 = .ok s' ∧ Freed B s s' g g' b := by
  rcases Nat.lt_trichotomy (classOf b.2) 12 with hc | hc | hc
  · exact mmFree_small_spec h hb hc
  · obtain ⟨s', g', he, hf, -⟩ := mmFree_page_listed h hb hc
    exact ⟨s', g', he, hf⟩
  · exact mmFree_big_spec h hb hsize hc

end Zrhos.Mem
