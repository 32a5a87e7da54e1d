import Mathlib.Tactic

/-! Singly linked lists threaded through a word memory. A memory maps the address
of a node to the word stored there, the address of the next node; `0` is the null
pointer. -/
namespace LinkedList

/-- Following `next` from `p` visits exactly the nodes `xs` and arrives at `q`. -/
def Seg (next : ℕ → ℕ) : ℕ → List ℕ → ℕ → Prop
  | p, [], q => p = q
  | p, x :: xs, q => p = x ∧ Seg next (next x) xs q

/-- A null-terminated list of pairwise distinct nodes. -/
structure Chain (next : ℕ → ℕ) (p : ℕ) (xs : List ℕ) : Prop where
  seg : Seg next p xs 0
  ne_null : ∀ x ∈ xs, x ≠ 0
  nodup : xs.Nodup

/-- The pointer a search carries to the node before its position. -/
def lastOr (d : ℕ) (xs : List ℕ) : ℕ := xs.getLast?.getD d

variable {next next' : ℕ → ℕ} {p q r : ℕ} {xs ys zs : List ℕ}

@[simp] theorem seg_nil : Seg next p [] q ↔ p = q := Iff.rfl

@[simp] theorem seg_cons {x : ℕ} : Seg next p (x :: xs) q ↔ p = x ∧ Seg next (next x) xs q :=
  Iff.rfl

theorem seg_append : Seg next p (xs ++ ys) r ↔ ∃ q, Seg next p xs q ∧ Seg next q ys r := by
  induction xs generalizing p with
  | nil => simp
  | cons x xs ih =>
    simp only [List.cons_append, seg_cons, ih]
    constructor
    · rintro ⟨rfl, q, hq, hr⟩
      exact ⟨q, ⟨rfl, hq⟩, hr⟩
    · rintro ⟨q, ⟨rfl, hq⟩, hr⟩
      exact ⟨rfl, q, hq, hr⟩

theorem Seg.congr (h : Seg next p xs q) (he : ∀ x ∈ xs, next' x = next x) :
    Seg next' p xs q := by
  induction xs generalizing p with
  | nil => exact h
  | cons x xs ih =>
    obtain ⟨rfl, h⟩ := h
    refine ⟨rfl, ?_⟩
    rw [he p (by simp)]
    exact ih h (fun y hy => he y (by simp [hy]))

/-- Redirecting the last node of a segment redirects its end. -/
theorem Seg.update_last {x v : ℕ} (h : Seg next p (xs ++ [x]) q) (hx : x ∉ xs) :
    Seg (Function.update next x v) p (xs ++ [x]) v := by
  obtain ⟨m, h1, h2⟩ := seg_append.mp h
  refine seg_append.mpr ⟨m, h1.congr ?_, h2.1, by simp⟩
  intro y hy
  exact Function.update_of_ne (by rintro rfl; exact hx hy) _ _

/-- Nodes laid out by `f` and linked in order form a segment. -/
theorem Seg.of_steps {f : ℕ → ℕ} {i m : ℕ} (h : ∀ j, i ≤ j → j < i + m → next (f j) = f (j + 1)) :
    Seg next (f i) ((List.range' i m).map f) (f (i + m)) := by
  induction m generalizing i with
  | zero => simp
  | succ m ih =>
    rw [List.range'_succ, List.map_cons, seg_cons, h i le_rfl (by omega)]
    refine ⟨rfl, ?_⟩
    rw [show i + (m + 1) = i + 1 + m by omega]
    exact ih (fun j hj hm => h j (by omega) (by omega))

theorem Chain.congr (h : Chain next p xs) (he : ∀ x ∈ xs, next' x = next x) :
    Chain next' p xs := ⟨h.seg.congr he, h.ne_null, h.nodup⟩

theorem Chain.update {a v : ℕ} (h : Chain next p xs) (ha : a ∉ xs) :
    Chain (Function.update next a v) p xs :=
  h.congr fun x hx => Function.update_of_ne (by rintro rfl; exact ha hx) _ _

theorem Chain.nil : Chain next 0 [] := ⟨rfl, by simp, List.nodup_nil⟩

theorem Chain.null_iff (h : Chain next p xs) : p = 0 ↔ xs = [] := by
  cases xs with
  | nil => simpa using h.seg
  | cons x xs =>
    have hx := h.ne_null x (by simp)
    obtain ⟨rfl, -⟩ := h.seg
    simpa using hx

theorem Chain.tail {x : ℕ} (h : Chain next p (x :: xs)) : Chain next (next x) xs :=
  ⟨h.seg.2, fun y hy => h.ne_null y (by simp [hy]), (List.nodup_cons.mp h.nodup).2⟩

theorem Chain.head (h : Chain next p xs) : p = xs.headD 0 := by
  cases xs with
  | nil => exact h.seg
  | cons x xs => exact h.seg.1

theorem Chain.drop (h : Chain next p (xs ++ ys)) : Chain next (ys.headD 0) ys := by
  induction xs generalizing p with
  | nil =>
    rw [List.nil_append] at h
    exact h.head ▸ h
  | cons x xs ih => exact ih h.tail

/-- A memory holds one list from each head. -/
theorem Chain.unique (h : Chain next p xs) (h' : Chain next p ys) : xs = ys := by
  induction xs generalizing p ys with
  | nil => exact (h'.null_iff.mp h.seg).symm
  | cons x xs ih =>
    cases ys with
    | nil => exact absurd (h.seg.1.symm.trans h'.seg) (h.ne_null x List.mem_cons_self)
    | cons y ys =>
      obtain rfl : x = y := h.seg.1.symm.trans h'.seg.1
      rw [ih h.tail h'.tail]

/-- Put the nodes `rs` in front of a list. -/
theorem Chain.prepend {w : ℕ → ℕ} {rs : List ℕ} (h : Chain next p ys)
    (hw : ∀ y ∈ ys, w y = next y) (hr : Seg w r rs p) (hn : ∀ x ∈ rs, x ≠ 0)
    (hd : (rs ++ ys).Nodup) : Chain w r (rs ++ ys) where
  seg := seg_append.mpr ⟨p, hr, h.seg.congr hw⟩
  ne_null x hx := (List.mem_append.mp hx).elim (hn x) (h.ne_null x)
  nodup := hd

/-- Put the nodes `rs` behind the node `l` of a list. -/
theorem Chain.insertAfter {w : ℕ → ℕ} {l : ℕ} {rs : List ℕ} (h : Chain next p (xs ++ l :: ys))
    (hx : ∀ x ∈ xs, w x = next x) (hy : ∀ y ∈ ys, w y = next y)
    (hr : Seg w (w l) rs (ys.headD 0)) (hn : ∀ x ∈ rs, x ≠ 0)
    (hd : (xs ++ l :: (rs ++ ys)).Nodup) : Chain w p (xs ++ l :: (rs ++ ys)) := by
  obtain ⟨m, h1, h2⟩ := seg_append.mp h.seg
  have hys : Chain next (ys.headD 0) ys := h.drop.tail.head ▸ h.drop.tail
  refine ⟨seg_append.mpr ⟨m, h1.congr hx, h2.1, ?_⟩, ?_, hd⟩
  · exact seg_append.mpr ⟨_, hr, hys.seg.congr hy⟩
  · intro x hm
    rcases List.mem_append.mp hm with hm | hm
    · exact h.ne_null x (by simp [hm])
    rcases List.mem_cons.mp hm with rfl | hm
    · exact h.ne_null x (by simp)
    rcases List.mem_append.mp hm with hm | hm
    · exact hn x hm
    · exact h.ne_null x (by simp [hm])

/-- Cut the nodes `rs` out from behind the node `l`. -/
theorem Chain.removeAfter {w : ℕ → ℕ} {l : ℕ} {rs : List ℕ}
    (h : Chain next p (xs ++ l :: (rs ++ ys))) (hx : ∀ x ∈ xs, w x = next x)
    (hy : ∀ y ∈ ys, w y = next y) (hl : w l = ys.headD 0) : Chain w p (xs ++ l :: ys) := by
  obtain ⟨m, h1, h2⟩ := seg_append.mp h.seg
  have hys : Chain next (ys.headD 0) ys := h.drop.tail.drop
  refine ⟨seg_append.mpr ⟨m, h1.congr hx, h2.1, ?_⟩, ?_, ?_⟩
  · rw [hl]
    exact hys.seg.congr hy
  · intro x hm
    apply h.ne_null x
    simp only [List.mem_append, List.mem_cons] at hm ⊢
    tauto
  · exact h.nodup.sublist (by simp)

/-- Distinct non-null addresses below `N` are fewer than `N`. -/
theorem length_lt_of_nodup {N : ℕ} (hd : xs.Nodup) (hx : ∀ x ∈ xs, x ≠ 0 ∧ x < N)
    (hN : 0 < N) : xs.length < N := by
  have hs : xs.toFinset ⊆ Finset.Ico 1 N := by
    intro x hm
    have := hx x (List.mem_toFinset.mp hm)
    exact Finset.mem_Ico.mpr ⟨Nat.one_le_iff_ne_zero.mpr this.1, this.2⟩
  have hc := Finset.card_le_card hs
  rw [List.toFinset_card_of_nodup hd, Nat.card_Ico] at hc
  omega

/-- A loop of stores to distinct addresses. -/
theorem foldl_update_range {f v : ℕ → ℕ} (hf : Function.Injective f) (w : ℕ → ℕ) (m : ℕ) :
    (∀ i < m, (List.range m).foldl (fun w i => Function.update w (f i) (v i)) w (f i) = v i) ∧
    ∀ x, (∀ i < m, x ≠ f i) →
      (List.range m).foldl (fun w i => Function.update w (f i) (v i)) w x = w x := by
  induction m with
  | zero => simp
  | succ m ih =>
    simp only [List.range_succ, List.foldl_append, List.foldl_cons, List.foldl_nil]
    constructor
    · intro i hi
      by_cases he : i = m
      · rw [he, Function.update_self]
      · rw [Function.update_of_ne (fun hc => he (hf hc))]
        exact ih.1 i (by omega)
    · intro x hx
      rw [Function.update_of_ne (hx m (by omega))]
      exact ih.2 x (fun i hi => hx i (by omega))

@[simp] theorem lastOr_nil (d : ℕ) : lastOr d [] = d := rfl

@[simp] theorem lastOr_concat (d x : ℕ) : lastOr d (xs ++ [x]) = x := by simp [lastOr]

theorem lastOr_mem {d : ℕ} (h : xs ≠ []) : lastOr d xs ∈ xs := by
  obtain ⟨ys, x, rfl⟩ := xs.eq_nil_or_concat.resolve_left h
  simp

theorem lastOr_cons (d x : ℕ) : lastOr d (x :: xs) = lastOr x xs := by
  simp [lastOr, List.getLast?_cons]

/-- Put the nodes `rs` behind the nonempty front part `xs` of a list. -/
theorem Chain.splice {w : ℕ → ℕ} {rs : List ℕ} (h : Chain next p (xs ++ ys)) (hx : xs ≠ [])
    (hw : ∀ x ∈ xs ++ ys, x ≠ lastOr 0 xs → w x = next x)
    (hr : Seg w (w (lastOr 0 xs)) rs (ys.headD 0)) (hn : ∀ x ∈ rs, x ≠ 0) (hrs : rs.Nodup)
    (hd : ∀ x ∈ rs, x ∉ xs ++ ys) : Chain w p (xs ++ (rs ++ ys)) := by
  have hnodup : (xs ++ (rs ++ ys)).Nodup := by
    rw [← (List.perm_append_comm_assoc rs xs ys).nodup_iff]
    exact hrs.append h.nodup hd
  obtain ⟨xs, l, rfl⟩ := xs.eq_nil_or_concat.resolve_left hx
  simp only [List.concat_eq_append, lastOr_concat, List.append_assoc, List.cons_append,
    List.nil_append] at *
  have hnd := h.nodup
  rw [List.nodup_append, List.nodup_cons] at hnd
  refine h.insertAfter (fun x hm => hw x (by simp [hm]) (hnd.2.2 x hm l (by simp)))
    (fun y hm => hw y (by simp [hm]) ?_) hr hn hnodup
  rintro rfl
  exact hnd.2.1.1 hm

end LinkedList
