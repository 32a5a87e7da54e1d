import Zrhos.Lib.OrderedSet

/-! Ordered lists in which a key may come more than once, as search trees hold them that do not
insist on unique keys. Where no key comes twice they are ordered sets. -/
namespace OrderedBag

variable {α κ : Type*} [LinearOrder κ] (key : α → κ)

def Sorted (t : List α) : Prop := t.Pairwise (key · ≤ key ·)

/-- A new node comes behind all nodes that do not exceed it. -/
def insert (t : List α) (node : α) : List α :=
  t.filter (key · ≤ key node) ++ node :: t.filter (key node < key ·)

variable {key} {t : List α} {n node : α} {k : κ}

/-- The first node with a key is the first that is not less, if it has the key. -/
theorem Sorted.find?_key (h : Sorted key t) :
    t.find? (key · = k) = (t.find? (k ≤ key ·)).filter (key · = k) := by
  induction t with
  | nil => rfl
  | cons x t ih =>
    obtain ⟨hx, ht⟩ := List.pairwise_cons.mp h
    rcases lt_trichotomy (key x) k with hlt | heq | hgt
    · rw [List.find?_cons_of_neg (by simp [hlt.ne]), List.find?_cons_of_neg (by simp [hlt]), ih ht]
    · rw [List.find?_cons_of_pos (by simp [heq]), List.find?_cons_of_pos (by simp [heq])]
      simp [Option.filter, heq]
    · have hnone : (x :: t).find? (fun q => key q = k) = none := by
        rw [List.find?_eq_none]
        intro q hq
        rcases List.mem_cons.mp hq with rfl | hq
        · simp [hgt.ne']
        · simp [(hgt.trans_le (hx q hq)).ne']
      rw [hnone, List.find?_cons_of_pos (by simp [hgt.le])]
      simp [Option.filter, hgt.ne']

/-- The nodes in order, by how they compare with a key. -/
theorem Sorted.split (h : Sorted key t) (k : κ) :
    t = t.filter (key · < k) ++ t.filter (key · = k) ++ t.filter (k < key ·) := by
  induction t with
  | nil => rfl
  | cons x t ih =>
    obtain ⟨hx, ht⟩ := List.pairwise_cons.mp h
    rcases lt_trichotomy (key x) k with hlt | heq | hgt
    · simpa [hlt, hlt.ne, hlt.not_gt] using ih ht
    · have hless : t.filter (key · < k) = [] := by
        rw [List.filter_eq_nil_iff]
        intro q hq
        simpa [heq] using hx q hq
      simpa [heq, hless] using ih ht
    · have hall : ∀ q ∈ t, k < key q := fun q hq => hgt.trans_le (hx q hq)
      have hless : t.filter (key · < k) = [] := by
        rw [List.filter_eq_nil_iff]
        intro q hq
        simpa using (hall q hq).le
      have hsame : t.filter (key · = k) = [] := by
        rw [List.filter_eq_nil_iff]
        intro q hq
        simpa using (hall q hq).ne'
      simpa [hgt, hgt.ne', hgt.not_gt, hless, hsame] using ih ht

theorem find?_filter_append (p : α → Bool) {xs ys zs : List α} (hx : ∀ x ∈ xs, p x = false)
    (hy : ∀ y ∈ ys ++ zs, p y = true) : (xs ++ ys ++ zs).find? p = (ys ++ zs).head? := by
  have hnone : xs.find? p = none := by
    rw [List.find?_eq_none]
    intro x hxm
    simp [hx x hxm]
  rw [List.append_assoc, List.find?_append, hnone, Option.none_or]
  cases hys : ys ++ zs with
  | nil => rfl
  | cons y rest => rw [List.find?_cons_of_pos (hy y (by simp [hys])), List.head?_cons]

/-- The lower bound is the first node that has the key or exceeds it. -/
theorem Sorted.lower (h : Sorted key t) (k : κ) :
    t.find? (k ≤ key ·) = (t.filter (key · = k) ++ t.filter (k < key ·)).head? := by
  conv_lhs => rw [h.split k]
  apply find?_filter_append
  · intro x hx
    simpa using (List.mem_filter.mp hx).2
  · intro y hy
    rcases List.mem_append.mp hy with hy | hy
    · have hyk : key y = k := by simpa using (List.mem_filter.mp hy).2
      simp [hyk]
    · have hyk : k < key y := by simpa using (List.mem_filter.mp hy).2
      simp [hyk.le]

theorem Sorted.filter_ne (h : Sorted key t) (k : κ) :
    t.filter (key · ≠ k) = t.filter (key · < k) ++ t.filter (k < key ·) := by
  have hless : (t.filter (key · < k)).filter (key · ≠ k) = t.filter (key · < k) := by
    rw [List.filter_eq_self]
    intro q hq
    simpa using (of_decide_eq_true (List.mem_filter.mp hq).2).ne
  have hsame : (t.filter (key · = k)).filter (key · ≠ k) = [] := by
    rw [List.filter_eq_nil_iff]
    intro q hq
    simpa using of_decide_eq_true (List.mem_filter.mp hq).2
  have hmore : (t.filter (k < key ·)).filter (key · ≠ k) = t.filter (k < key ·) := by
    rw [List.filter_eq_self]
    intro q hq
    simpa using (of_decide_eq_true (List.mem_filter.mp hq).2).ne'
  conv_lhs => rw [h.split k]
  rw [List.filter_append, List.filter_append, hless, hsame, hmore, List.append_nil]

/-! ### Insertion -/

theorem Sorted.insert (h : Sorted key t) : Sorted key (insert key t node) := by
  simp only [Sorted, OrderedBag.insert, List.pairwise_append, List.pairwise_cons, List.mem_cons]
  refine ⟨List.Pairwise.filter _ h, ⟨fun y hy => ?_, List.Pairwise.filter _ h⟩, fun x hx y hy => ?_⟩
  · have hlt : key node < key y := by simpa using (List.mem_filter.mp hy).2
    exact hlt.le
  · have hle : key x ≤ key node := by simpa using (List.mem_filter.mp hx).2
    rcases hy with rfl | hy
    · exact hle
    · have hlt : key node < key y := by simpa using (List.mem_filter.mp hy).2
      exact hle.trans hlt.le

theorem mem_insert : n ∈ insert key t node ↔ n = node ∨ n ∈ t := by
  simp only [insert, List.mem_append, List.mem_filter, List.mem_cons, decide_eq_true_eq]
  constructor
  · rintro (⟨hn, -⟩ | rfl | ⟨hn, -⟩)
    · exact Or.inr hn
    · exact Or.inl rfl
    · exact Or.inr hn
  · rintro (rfl | hn)
    · exact Or.inr (Or.inl rfl)
    · rcases le_or_gt (key n) (key node) with hle | hlt
      · exact Or.inl ⟨hn, hle⟩
      · exact Or.inr (Or.inr ⟨hn, hlt⟩)

/-! ### Ordered sets -/

theorem sorted_of_set (h : OrderedSet.Sorted key t) : Sorted key t := h.imp le_of_lt

/-- In front of a bound stands the part of the list that a filter gives. -/
theorem Sorted.filter_front (h : Sorted key t) {p : α → Bool}
    (hp : ∀ a b, key a ≤ key b → p b = true → p a = true) :
    t.filter p = t.takeWhile p ∧ t.filter (fun a => !p a) = t.dropWhile p := by
  induction t with
  | nil => exact ⟨rfl, rfl⟩
  | cons x t ih =>
    obtain ⟨hx, ht⟩ := List.pairwise_cons.mp h
    cases hpx : p x with
    | true => simp [hpx, ih ht]
    | false =>
      have hnone : ∀ q ∈ t, p q = false := by
        intro q hq
        by_contra hpq
        rw [hp x q (hx q hq) (by simpa using hpq)] at hpx
        cases hpx
      have hback : t.filter (fun a => !p a) = t := by
        rw [List.filter_eq_self]
        intro q hq
        simp [hnone q hq]
      have hfront : t.filter p = [] := by
        rw [List.filter_eq_nil_iff]
        intro q hq
        simp [hnone q hq]
      simp [hpx, hback, hfront]

/-- A new key comes to the same place as in an ordered set. -/
theorem insert_of_new (h : OrderedSet.Sorted key t) (hnew : ∀ m ∈ t, key m ≠ key node) :
    OrderedSet.insert key t node = some (insert key t node) := by
  have hfront : t.filter (key · ≤ key node) = t.filter (key · < key node) := by
    apply List.filter_congr
    intro m hm
    simp [le_iff_lt_or_eq, hnew m hm]
  have hback : t.filter (key node < key ·) = t.filter fun m => !decide (key m < key node) := by
    apply List.filter_congr
    intro m hm
    rw [← decide_not, decide_eq_decide, not_lt, lt_iff_le_and_ne, and_iff_left (hnew m hm).symm]
  obtain ⟨htake, hdrop⟩ := (sorted_of_set h).filter_front (p := fun m => decide (key m < key node))
    fun a b hab hb => by simpa using hab.trans_lt (by simpa using hb)
  rw [OrderedSet.insert, OrderedSet.locate_eq_none hnew, insert, hfront, hback, htake, hdrop]

/-- One before the upper bound stands the last node that does not exceed the key. -/
theorem Sorted.floor (h : Sorted key t) :
    OrderedSet.floor key t k = (t.filter (key · ≤ k)).getLast? := by
  obtain ⟨htake, -⟩ := h.filter_front (p := fun m => decide (key m ≤ k))
    fun a b hab hb => by simpa using hab.trans (by simpa using hb)
  rw [OrderedSet.floor, htake]

/-- An ordered set has one node with a key at most. -/
theorem locate_eq (h : OrderedSet.Sorted key t) :
    (OrderedSet.locate key t k).map (fun r => r.2.1) = t.find? (key · = k) := by
  cases hf : t.find? (key · = k) with
  | none =>
    rw [List.find?_eq_none] at hf
    rw [OrderedSet.locate_eq_none fun m hm => by simpa using hf m hm, Option.map_none]
  | some n =>
    have hn : n ∈ t := List.mem_of_find?_eq_some hf
    have hk : key n = k := by simpa using List.find?_some hf
    obtain ⟨xs, ys, -, hl⟩ := OrderedSet.locate_of_mem h hn
    rw [← hk, hl, Option.map_some]

end OrderedBag
