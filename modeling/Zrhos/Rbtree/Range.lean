import Zrhos.Rbtree.Insert
import Zrhos.Rbtree.Erase

/-! Whole ranges of a tree: counting them, erasing them, and freeing all nodes. Between two
nodes the loops come by what stands between them in the order of the tree. -/
namespace Zrhos.Rbtree
open RedBlack RedBlack.Tree Rbtree.Mem

variable {rb : Tree} {t : RedBlack.Tree ℕ} {xs ys zs : List ℕ} {fuel rounds start stop dist p q : ℕ}

/-- A tree is no higher than twice the logarithm of its size. -/
theorem Sound.height_le (h : Sound rb t) : t.height ≤ 2 * Nat.log 2 (t.inorder.length + 1) := by
  obtain ⟨n, hn⟩ := h.balanced
  exact hn.height_log h.root

theorem Sound.head_notin (h : Sound rb t) : rb.head ∉ t.inorder :=
  (List.nodup_cons.mp h.holds.nodup).1

theorem Sound.lmst (h : Sound rb t) : rb.mem.left rb.head = t.inorder.head?.getD rb.head :=
  h.ends .left

/-- A range is empty exactly when its ends are the same. -/
theorem range_empty (h : Sound rb t) (ht : t.inorder = xs ++ ys ++ zs) :
    (ys ++ zs).head?.getD rb.head = zs.head?.getD rb.head ↔ ys = [] := by
  constructor
  · intro he
    cases ys with
    | nil => rfl
    | cons y ys =>
      have hnd := (List.nodup_cons.mp h.holds.nodup).2
      rw [ht, List.append_assoc] at hnd
      have hy := (List.nodup_cons.mp (List.nodup_append.mp hnd).2.1).1
      cases zs with
      | nil =>
        have hhead : y = rb.head := he
        exact (h.head_notin (by rw [ht, hhead]; simp)).elim
      | cons z zs =>
        have hyz : y = z := he
        exact (hy (by simp [hyz])).elim
  · rintro rfl
    rfl

/-- From the first node to the end lies the whole tree. -/
theorem range_all (h : Sound rb t) (ht : t.inorder = xs ++ ys ++ zs)
    (hstart : (ys ++ zs).head?.getD rb.head = rb.mem.left rb.head)
    (hstop : zs.head?.getD rb.head = rb.head) : xs = [] ∧ zs = [] := by
  have hz : zs = [] := by
    cases zs with
    | nil => rfl
    | cons z zs =>
      have hzh : z = rb.head := hstop
      exact (h.head_notin (by rw [ht, hzh]; simp)).elim
  refine ⟨?_, hz⟩
  have hnil : xs = [] := by
    rw [h.lmst, ht, hz, List.append_nil, List.append_nil] at hstart
    by_contra hx
    obtain ⟨x, xs, rfl⟩ := List.exists_cons_of_ne_nil hx
    have hxs : (ys.head?).getD rb.head = x := hstart
    have hnd := h.holds.nodup
    rw [ht] at hnd
    cases ys with
    | nil =>
      have hhead : rb.head = x := hxs
      simp [hhead] at hnd
    | cons y ys =>
      have hyx : y = x := hxs
      simp [hyx] at hnd
  exact hnil

/-- The loop of `rb_dist` counts the nodes of the range. -/
theorem distLoop_eq (dist : ℕ) (h : Sound rb t) (ht : t.inorder = xs ++ ys ++ zs)
    (hfuel : t.height ≤ fuel)
    (hrounds : ys.length < rounds) :
    distLoop rb.mem fuel (zs.head?.getD rb.head) rounds ((ys ++ zs).head?.getD rb.head) dist =
      some (dist + ys.length) := by
  induction rounds generalizing xs ys dist with
  | zero => cases hrounds
  | succ rounds ih =>
    rw [distLoop]
    cases ys with
    | nil => simp
    | cons y ys =>
      have hne := mt (range_empty h ht).mp (List.cons_ne_nil y ys)
      have hsplit : t.inorder = xs ++ y :: (ys ++ zs) := by rw [ht]; simp
      have hnext := nodeNext_eq h.holds hsplit hfuel
      have hrest := ih (dist + 1) (show t.inorder = xs ++ [y] ++ ys ++ zs by rw [ht]; simp)
        (by simpa using hrounds)
      rw [if_neg hne]
      simp only [List.cons_append, List.head?_cons, Option.getD_some,
        hnext, Option.bind_some, hrest]
      simp only [List.length_cons, Option.some.injEq]
      omega

theorem rbDist_eq (h : Sound rb t) (ht : t.inorder = xs ++ ys ++ zs) (hfuel : t.height ≤ fuel)
    (hrounds : ys.length < rounds) :
    rbDist fuel rounds rb ((ys ++ zs).head?.getD rb.head) (zs.head?.getD rb.head) = some ys.length := by
  rw [rbDist]
  split_ifs with hall
  · obtain ⟨rfl, rfl⟩ := range_all h ht hall.1 hall.2
    rw [h.size, ht]
    simp
  · rw [distLoop_eq 0 h ht hfuel hrounds, Nat.zero_add]

/-- The loop of `rb_erase_range` and `rb_erase_rgcnt` erases the nodes of the range. -/
theorem eraseLoop_sound (dist : ℕ) (h : Sound rb t) (ht : t.inorder = xs ++ ys ++ zs)
    (hfuel : 2 * Nat.log 2 (t.inorder.length + 1) + 2 ≤ fuel) (hrounds : ys.length < rounds) :
    ∃ rb' t',
      eraseLoop fuel (zs.head?.getD rb.head) rounds rb ((ys ++ zs).head?.getD rb.head) dist =
        some (rb', zs.head?.getD rb.head, dist + ys.length) ∧ Sound rb' t' ∧
      t'.inorder = xs ++ zs ∧ rb'.head = rb.head ∧
      ∀ q ∉ rb.head :: t.inorder, Agree rb.mem rb'.mem q := by
  induction rounds generalizing rb t ys dist with
  | zero => cases hrounds
  | succ rounds ih =>
    rw [eraseLoop]
    cases ys with
    | nil => exact ⟨rb, t, by simp, h, by simpa using ht, rfl, fun q _ => .refl _ q⟩
    | cons y ys =>
      have hne := mt (range_empty h ht).mp (List.cons_ne_nil y ys)
      have hsplit : t.inorder = xs ++ y :: (ys ++ zs) := by rw [ht]; simp
      obtain ⟨rb₁, t₁, hrun, hsound, hinorder, hhead, hframe⟩ := eraseNode_sound h hsplit
        ((Nat.add_le_add_right h.height_le 2).trans hfuel)
      have hlength : t₁.inorder.length ≤ t.inorder.length := by
        rw [hinorder, ht]
        simp
      have hlog : Nat.log 2 (t₁.inorder.length + 1) ≤ Nat.log 2 (t.inorder.length + 1) :=
        Nat.log_mono_right (by omega)
      obtain ⟨rb₂, t₂, hloop, hsound₂, hinorder₂, hhead₂, hframe₂⟩ := ih (dist + 1)
        hsound (show t₁.inorder = xs ++ ys ++ zs by rw [hinorder]; simp) (by omega)
        (by simpa using hrounds)
      rw [if_neg hne]
      rw [hhead] at hloop hhead₂ hframe₂
      refine ⟨rb₂, t₂, ?_, hsound₂, hinorder₂, hhead₂, fun q hq => ?_⟩
      · simp only [List.cons_append, List.head?_cons, Option.getD_some,
          hrun, Option.bind_some, hloop]
        simp only [List.length_cons, Option.some.injEq, Prod.mk.injEq, true_and]
        omega
      · apply (hframe q hq).trans (hframe₂ q _)
        rw [hinorder]
        rw [ht] at hq
        simp only [List.mem_cons, List.mem_append, not_or] at hq ⊢
        tauto

/-! ### Clearing -/

variable {m : Mem} {head : ℕ}

theorem headInit_sound : Sound ⟨headInit m head, head, 0⟩ .nil := by
  refine ⟨⟨trivial, by simp [inorder], ?_, ?_, ?_⟩, fun d => ?_, rfl, rfl, 0, .nil⟩
  · simp [headInit, ptr]
  · simp [headInit]
  · simp [headInit]
  · cases d <;> simp [headInit, inorder]

theorem headInit_agree (hq : q ≠ head) : Agree m (headInit m head) q := by
  refine ⟨?_, fun d => ?_, ?_, ?_⟩ <;> simp [headInit, hq]

/-- `rb_erase_range` erases the nodes of the range, also where it clears the whole tree. -/
theorem rbEraseRange_sound (h : Sound rb t) (ht : t.inorder = xs ++ ys ++ zs)
    (hfuel : 2 * Nat.log 2 (t.inorder.length + 1) + 2 ≤ fuel) (hrounds : ys.length < rounds) :
    ∃ rb' t', rbEraseRange fuel rounds rb ((ys ++ zs).head?.getD rb.head) (zs.head?.getD rb.head) =
        some (rb', zs.head?.getD rb.head) ∧ Sound rb' t' ∧ t'.inorder = xs ++ zs ∧
      rb'.head = rb.head ∧ ∀ q ∉ rb.head :: t.inorder, Agree rb.mem rb'.mem q := by
  rw [rbEraseRange]
  split_ifs with hall
  · obtain ⟨rfl, rfl⟩ := range_all h ht hall.1 hall.2
    refine ⟨rbClear rb, .nil, ?_, headInit_sound, rfl, rfl, fun q hq => ?_⟩
    · have hsound : Sound (rbClear rb) .nil := headInit_sound
      exact congrArg (fun p => some (rbClear rb, p)) hsound.lmst
    · exact headInit_agree fun he => hq (by simp [he])
  · obtain ⟨rb', t', hloop, hrest⟩ := eraseLoop_sound 0 h ht hfuel hrounds
    exact ⟨rb', t', by rw [hloop]; rfl, hrest⟩

/-- `rb_erase_rgcnt` counts them too. -/
theorem rbEraseRgcnt_sound (h : Sound rb t) (ht : t.inorder = xs ++ ys ++ zs)
    (hfuel : 2 * Nat.log 2 (t.inorder.length + 1) + 2 ≤ fuel) (hrounds : ys.length < rounds) :
    ∃ rb' t', rbEraseRgcnt fuel rounds rb ((ys ++ zs).head?.getD rb.head) (zs.head?.getD rb.head) =
        some (rb', ys.length) ∧ Sound rb' t' ∧ t'.inorder = xs ++ zs ∧ rb'.head = rb.head ∧
      ∀ q ∉ rb.head :: t.inorder, Agree rb.mem rb'.mem q := by
  rw [rbEraseRgcnt]
  split_ifs with hall
  · obtain ⟨rfl, rfl⟩ := range_all h ht hall.1 hall.2
    refine ⟨rbClear rb, .nil, ?_, headInit_sound, rfl, rfl, fun q hq => ?_⟩
    · rw [h.size, ht]
      simp
    · exact headInit_agree fun he => hq (by simp [he])
  · obtain ⟨rb', t', hloop, hrest⟩ := eraseLoop_sound 0 h ht hfuel hrounds
    exact ⟨rb', t', by rw [hloop]; simp, hrest⟩

section Order
variable {κ : Type} [LinearOrder κ] {key : ℕ → κ} {comp : Comp} {val : ℕ}

/-- `rb_vcnt` counts the nodes with the key. -/
theorem rbVcnt_eq (h : Sound rb t) (ho : Ordered comp key t.inorder)
    (hfuel : 2 * Nat.log 2 (t.inorder.length + 1) + 2 ≤ fuel)
    (hrounds : t.inorder.length < rounds) :
    rbVcnt comp fuel rounds rb val = some (t.inorder.countP fun q => key q = key val) := by
  have hsorted : OrderedBag.Sorted key t.inorder := ho.sorted
  have hsplit := hsorted.split (key val)
  have hheight := h.height_le
  have hlt : (t.inorder.filter fun q => key q = key val).length < rounds :=
    (List.length_filter_le _ _).trans_lt hrounds
  have hdist := rbDist_eq h hsplit (show t.height ≤ fuel by omega) hlt
  rw [rbVcnt, eqrange_eq h.holds ho (by omega), hsorted.lower,
    ← List.head?_filter, Option.bind_some,
    List.countP_eq_length_filter]
  exact hdist

/-- `rb_erase_val` erases the nodes with the key and counts them. -/
theorem rbEraseVal_sound (h : Sound rb t) (ho : Ordered comp key t.inorder)
    (hfuel : 2 * Nat.log 2 (t.inorder.length + 1) + 2 ≤ fuel)
    (hrounds : t.inorder.length < rounds) :
    ∃ rb' t', rbEraseVal comp fuel rounds rb val =
        some (rb', t.inorder.countP fun q => key q = key val) ∧ Sound rb' t' ∧
      t'.inorder = t.inorder.filter (fun q => key q ≠ key val) ∧ rb'.head = rb.head ∧
      ∀ q ∉ rb.head :: t.inorder, Agree rb.mem rb'.mem q := by
  have hsorted : OrderedBag.Sorted key t.inorder := ho.sorted
  have hsplit := hsorted.split (key val)
  have hheight := h.height_le
  have hlt : (t.inorder.filter fun q => key q = key val).length < rounds :=
    (List.length_filter_le _ _).trans_lt hrounds
  obtain ⟨rb', t', hrun, hsound, hinorder, hrest⟩ := rbEraseRgcnt_sound h hsplit hfuel hlt
  refine ⟨rb', t', ?_, hsound, hinorder.trans (hsorted.filter_ne (key val)).symm, hrest⟩
  rw [rbEraseVal, eqrange_eq h.holds ho (by omega), hsorted.lower,
    ← List.head?_filter, Option.bind_some,
    List.countP_eq_length_filter]
  exact hrun

end Order

/-! ### Freeing all nodes -/

/-- A function that `rb_clear_free` may call. Beside the node that it frees it writes at the blocks
that it has in use alone, and it takes no other into use. -/
structure FreeF (σ : Type) where
  run : σ → Mem → ℕ → σ × Mem
  uses : σ → Set ℕ
  frame : ∀ s m p q, q ∉ uses s → q ≠ p → Agree m (run s m p).2 q
  takes : ∀ s m p, uses (run s m p).1 ⊆ insert p (uses s)

variable {σ : Type} {freef : FreeF σ} {s : σ}

/-- The loop of `rb_clear_free` frees the nodes in order, each once it is erased. What `freef` has
in use grows by nodes that are out of the tree. -/
theorem clearLoop_sound (freed : List ℕ) (h : Sound rb t)
    (huses : ∀ q ∈ rb.head :: t.inorder, q ∉ freef.uses s)
    (hfuel : 2 * Nat.log 2 (t.inorder.length + 1) + 2 ≤ fuel)
    (hrounds : t.inorder.length < rounds) :
    ∃ s' rb', clearLoop freef.run fuel rounds s rb (t.inorder.head?.getD rb.head) freed =
        some (s', rb', freed ++ t.inorder) ∧ rb'.head = rb.head ∧
      (∀ q ∈ freef.uses s', q ∈ freef.uses s ∨ q ∈ t.inorder) ∧
      ∀ q ∉ freef.uses s, q ∉ rb.head :: t.inorder → Agree rb.mem rb'.mem q := by
  induction rounds generalizing rb t s freed with
  | zero => cases hrounds
  | succ rounds ih =>
    rw [clearLoop]
    cases ht : t.inorder with
    | nil => exact ⟨s, rb, by simp, rfl, fun q hq => Or.inl hq, fun q _ _ => .refl _ q⟩
    | cons p ys =>
      have hph : p ≠ rb.head := fun he => h.head_notin (by rw [ht, he]; simp)
      have hheight := h.height_le
      have hsplit : t.inorder = [] ++ p :: ys := ht
      have hnext := nodeNext_eq h.holds hsplit (show t.height ≤ fuel by omega)
      obtain ⟨rb₁, t₁, hrun, hsound, hinorder, hhead, hframe⟩ := eraseNode_sound h hsplit
        (show t.height + 2 ≤ fuel by omega)
      rw [List.nil_append] at hinorder
      have hnd := (List.nodup_cons.mp h.holds.nodup).2
      rw [ht, List.nodup_cons] at hnd
      -- the nodes that are left are neither the one that is freed nor in use
      have hleft : ∀ q ∈ rb₁.head :: t₁.inorder, q ∉ freef.uses s ∧ q ≠ p := by
        rw [hinorder, hhead]
        intro q hq
        refine ⟨huses q ?_, ?_⟩
        · rw [ht]
          simp only [List.mem_cons] at hq ⊢
          tauto
        · rintro rfl
          rcases List.mem_cons.mp hq with he | hq
          · exact hph he
          · exact hnd.1 hq
      have hsound' : Sound { rb₁ with mem := (freef.run s rb₁.mem p).2 } t₁ :=
        hsound.congr fun q hq => freef.frame _ _ _ q (hleft q hq).1 (hleft q hq).2
      have huses' : ∀ q ∈ rb₁.head :: t₁.inorder, q ∉ freef.uses (freef.run s rb₁.mem p).1 :=
        fun q hq hu => (freef.takes _ _ _ hu).elim (hleft q hq).2 (hleft q hq).1
      have hlength : t₁.inorder.length < rounds := by
        rw [hinorder]
        simpa [ht] using hrounds
      have hlog : Nat.log 2 (t₁.inorder.length + 1) ≤ Nat.log 2 (t.inorder.length + 1) := by
        apply Nat.log_mono_right
        rw [hinorder, ht]
        simp
      obtain ⟨s₂, rb₂, hloop, hhead₂, htakes₂, hframe₂⟩ := ih (freed ++ [p]) hsound' huses'
        (by omega) hlength
      rw [hinorder] at hloop htakes₂ hframe₂
      refine ⟨s₂, rb₂, ?_, hhead₂.trans hhead, fun q hq => ?_, fun q hqu hq => ?_⟩
      · simp only [List.head?_cons, Option.getD_some, if_neg hph, hnext, Option.bind_some, hrun]
        rw [List.append_cons freed p ys, ← hloop, ← hhead]
      · rcases htakes₂ q hq with hq | hq
        · rcases freef.takes _ _ _ hq with rfl | hq
          · exact Or.inr List.mem_cons_self
          · exact Or.inl hq
        · exact Or.inr (List.mem_cons_of_mem _ hq)
      · have hqp : q ≠ p := fun he => hq (by simp [he])
        apply (hframe q (ht ▸ hq)).trans
        apply (freef.frame _ _ _ q hqu hqp).trans
        apply hframe₂ q fun hu => (freef.takes _ _ _ hu).elim hqp hqu
        simp only [List.mem_cons, not_or, hhead] at hq ⊢
        exact ⟨hq.1, hq.2.2⟩

/-- `rb_clear_free` frees every node of the tree once, in order, and leaves the empty tree. -/
theorem rbClearFree_sound (h : Sound rb t) (huses : ∀ q ∈ rb.head :: t.inorder, q ∉ freef.uses s)
    (hfuel : 2 * Nat.log 2 (t.inorder.length + 1) + 2 ≤ fuel)
    (hrounds : t.inorder.length < rounds) :
    ∃ s' rb', rbClearFree freef.run fuel rounds s rb = some (s', rb', t.inorder) ∧
      Sound rb' .nil ∧ rb'.head = rb.head ∧
      (∀ q ∈ freef.uses s', q ∈ freef.uses s ∨ q ∈ t.inorder) ∧
      ∀ q ∉ freef.uses s, q ∉ rb.head :: t.inorder → Agree rb.mem rb'.mem q := by
  rw [rbClearFree]
  split_ifs with hsize
  · have hnil : t.inorder = [] := by
      rw [h.size] at hsize
      exact List.length_eq_zero_iff.mp hsize
    obtain rfl : t = .nil := inorder_eq_nil.mp hnil
    exact ⟨s, rb, rfl, h, rfl, fun q hq => Or.inl hq, fun q _ _ => .refl _ q⟩
  · obtain ⟨s', rb', hloop, hhead, htakes, hframe⟩ := clearLoop_sound [] h huses hfuel hrounds
    rw [← h.lmst, List.nil_append] at hloop
    refine ⟨s', rbClear rb', by rw [hloop]; rfl, headInit_sound, hhead, htakes, fun q hqu hq => ?_⟩
    apply (hframe q hqu hq).trans
    apply headInit_agree
    rintro rfl
    exact hq (by simp [hhead])

end Zrhos.Rbtree
