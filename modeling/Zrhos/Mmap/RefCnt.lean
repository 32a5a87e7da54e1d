import Zrhos.Platform
import Zrhos.Lib.OrderedSet

/-! The page reference counters of `mmap.c`. They live in a tree ordered by
`ref_cnt_compf`, which compares the counts; the count of a lookup key is whatever the
stack holds, here the argument `g` of each call. -/
namespace Zrhos.RefCnt
open OrderedSet

structure Node where
  addr : ℕ
  refCnt : ℕ
  deriving DecidableEq, Repr

abbrev Tree := List Node

def refCntInc (t : Tree) (pa g : ℕ) : Tree :=
  let cmp : Node := ⟨pa, g⟩
  match locate Node.refCnt t cmp.refCnt with
  | none => (insert Node.refCnt t ⟨pa, 1⟩).getD t
  | some (xs, n, ys) => xs ++ { n with refCnt := (n.refCnt + 1) % WORD } :: ys

/-- The return value, the page given to `mem_free`, if any, and the tree. -/
def refCntDec (t : Tree) (pa g : ℕ) : ℤ × Option ℕ × Tree :=
  let cmp : Node := ⟨pa, g⟩
  match locate Node.refCnt t cmp.refCnt with
  | none => (-1, none, t)
  | some (xs, n, ys) =>
    let n := { n with refCnt := (n.refCnt + WORD - 1) % WORD }
    if n.refCnt = 0 then (0, some n.addr, xs ++ ys) else (0, none, xs ++ n :: ys)

def refCntGet (t : Tree) (pa g : ℕ) : ℕ :=
  let cmp : Node := ⟨pa, g⟩
  match locate Node.refCnt t cmp.refCnt with
  | none => 0
  | some (_, n, _) => n.refCnt

/-! ### When a call finds its page -/

variable {t : Tree} {c : ℕ → ℕ} {pa g : ℕ}

/-- The tree holds exactly the outstanding references `c`. -/
def Holds (t : Tree) (c : ℕ → ℕ) : Prop :=
  ∀ n : Node, n ∈ t ↔ n.refCnt = c n.addr ∧ n.refCnt ≠ 0

/-- The garbage in the key is the count of the page, or of no page when the page has no
references. -/
def Found (c : ℕ → ℕ) (pa g : ℕ) : Prop :=
  (c pa ≠ 0 ∧ g = c pa) ∨ (c pa = 0 ∧ ∀ q, c q ≠ 0 → c q ≠ g)

/-- No other page has the count `v`. -/
def Unshared (c : ℕ → ℕ) (pa v : ℕ) : Prop := ∀ q ≠ pa, c q ≠ 0 → c q ≠ v

structure Tracks (t : Tree) (c : ℕ → ℕ) : Prop where
  sorted : Sorted Node.refCnt t
  holds : Holds t c
  lt_word : ∀ q, c q < WORD

theorem Tracks.mem (h : Tracks t c) (hc : c pa ≠ 0) : ⟨pa, c pa⟩ ∈ t :=
  (h.holds ⟨pa, c pa⟩).mpr ⟨rfl, hc⟩

theorem Tracks.locate_hit (h : Tracks t c) (hc : c pa ≠ 0) :
    ∃ xs ys, t = xs ++ ⟨pa, c pa⟩ :: ys ∧
      locate Node.refCnt t (c pa) = some (xs, ⟨pa, c pa⟩, ys) :=
  locate_of_mem h.sorted (h.mem hc)

theorem Tracks.locate_miss (h : Tracks t c) :
    locate Node.refCnt t g = none ↔ ∀ q, c q ≠ 0 → c q ≠ g := by
  constructor
  · intro hn q hq he
    obtain ⟨xs, ys, -, hl⟩ := h.locate_hit hq
    rw [he, hn] at hl
    cases hl
  · intro hq
    refine locate_eq_none fun n hn => ?_
    obtain ⟨hc, h0⟩ := (h.holds n).mp hn
    rw [hc] at h0 ⊢
    exact hq _ h0

theorem Tracks.located (h : Tracks t c) {xs ys : List Node} {n : Node}
    (hl : locate Node.refCnt t g = some (xs, n, ys)) :
    t = xs ++ n :: ys ∧ n.refCnt = g ∧ c n.addr = g ∧ g ≠ 0 := by
  obtain ⟨hs, hk⟩ := locate_eq_some hl
  obtain ⟨hc, h0⟩ := (h.holds n).mp (by rw [hs]; simp)
  exact ⟨hs, hk, by rw [← hc, hk], hk ▸ h0⟩

/-- The nodes around a node of the tree belong to other pages. -/
theorem Tracks.around (h : Tracks t c) {xs ys : List Node} {n m : Node}
    (hs : t = xs ++ n :: ys) (hm : m ∈ xs ++ ys) : m.addr ≠ n.addr ∧ m.refCnt ≠ n.refCnt := by
  have hsorted := h.sorted
  rw [hs] at hsorted
  obtain ⟨-, hx, hy⟩ := sorted_split.mp hsorted
  have hne : m.refCnt ≠ n.refCnt := by
    rcases List.mem_append.mp hm with hm | hm
    · exact (hx m hm).ne
    · exact (hy m hm).ne'
  refine ⟨fun he => hne ?_, hne⟩
  have hmt : m ∈ t := by
    rw [hs]
    simp only [List.mem_append, List.mem_cons] at hm ⊢
    tauto
  have hnt : n ∈ t := by rw [hs]; simp
  rw [((h.holds m).mp hmt).1, ((h.holds n).mp hnt).1, he]

/-- Changing the count of the page `n.addr` in place. -/
theorem Tracks.holds_replace (h : Tracks t c) {xs ys : List Node} {n : Node} {v : ℕ}
    (hs : t = xs ++ n :: ys) (hv : v ≠ 0) :
    Holds (xs ++ { n with refCnt := v } :: ys) (Function.update c n.addr v) := by
  intro m
  have hmem : m ∈ xs ++ { n with refCnt := v } :: ys ↔ m = ⟨n.addr, v⟩ ∨ m ∈ xs ++ ys := by
    simp only [List.mem_append, List.mem_cons]
    tauto
  rw [hmem]
  by_cases ha : m.addr = n.addr
  · rw [ha, Function.update_self]
    constructor
    · rintro (rfl | hm)
      · exact ⟨rfl, hv⟩
      · exact absurd ha (h.around hs hm).1
    · rintro ⟨hc, -⟩
      cases m
      simp_all
  · rw [Function.update_of_ne ha, ← h.holds m, hs]
    have h1 : m ≠ ⟨n.addr, v⟩ := fun he => ha (by rw [he])
    have h2 : m ≠ n := fun he => ha (by rw [he])
    simp only [List.mem_append, List.mem_cons, h1, h2, false_or]

/-- The tree stays ordered if the new count keeps its place. -/
theorem Tracks.replace (h : Tracks t c) {xs ys : List Node} {n : Node} {v : ℕ}
    (hs : t = xs ++ n :: ys) (hv : v ≠ 0) (hlt : v < WORD)
    (hx : ∀ x ∈ xs, x.refCnt < v) (hy : ∀ y ∈ ys, v < y.refCnt) :
    Tracks (xs ++ { n with refCnt := v } :: ys) (Function.update c n.addr v) := by
  refine ⟨?_, h.holds_replace hs hv, fun q => ?_⟩
  · have hsorted := h.sorted
    rw [hs] at hsorted
    exact sorted_split.mpr ⟨(sorted_split.mp hsorted).1, hx, hy⟩
  · by_cases hq : q = n.addr
    · rw [hq, Function.update_self]
      exact hlt
    · rw [Function.update_of_ne hq]
      exact h.lt_word q

theorem Tracks.remove (h : Tracks t c) {xs ys : List Node} {n : Node}
    (hs : t = xs ++ n :: ys) : Tracks (xs ++ ys) (Function.update c n.addr 0) := by
  refine ⟨?_, fun m => ?_, fun q => ?_⟩
  · have hsorted := h.sorted
    rw [hs] at hsorted
    exact (sorted_split.mp hsorted).1
  · by_cases ha : m.addr = n.addr
    · rw [ha, Function.update_self]
      constructor
      · intro hm
        exact absurd ha (h.around hs hm).1
      · rintro ⟨hc, h0⟩
        exact absurd hc h0
    · rw [Function.update_of_ne ha, ← h.holds m, hs]
      have h2 : m ≠ n := fun he => ha (by rw [he])
      simp only [List.mem_append, List.mem_cons, h2, false_or]
  · by_cases hq : q = n.addr
    · rw [hq, Function.update_self]
      decide
    · rw [Function.update_of_ne hq]
      exact h.lt_word q

theorem Tracks.add (h : Tracks t c) (h0 : c pa = 0) (h1 : ∀ q, c q ≠ 1) :
    ∃ t', insert Node.refCnt t ⟨pa, 1⟩ = some t' ∧ Tracks t' (Function.update c pa 1) := by
  have hnew (m : Node) (hm : m ∈ t) : m.refCnt ≠ (⟨pa, 1⟩ : Node).refCnt := fun he =>
    h1 m.addr (by rw [← ((h.holds m).mp hm).1, he])
  obtain ⟨xs, ys, hs, hi, hsorted⟩ := insert_eq_some h.sorted hnew
  refine ⟨_, hi, hsorted, fun m => ?_, fun q => ?_⟩
  · have hmem : m ∈ xs ++ ⟨pa, 1⟩ :: ys ↔ m = ⟨pa, 1⟩ ∨ m ∈ t := by
      rw [hs]
      simp only [List.mem_append, List.mem_cons]
      tauto
    rw [hmem, h.holds m]
    by_cases ha : m.addr = pa
    · rw [ha, Function.update_self, h0]
      cases m
      simp_all
    · rw [Function.update_of_ne ha]
      have hne : m ≠ ⟨pa, 1⟩ := fun he => ha (by rw [he])
      simp [hne]
  · by_cases hq : q = pa
    · rw [hq, Function.update_self]
      decide
    · rw [Function.update_of_ne hq]
      exact h.lt_word q

/-! ### The calls -/

theorem dec_word {v : ℕ} (h0 : v ≠ 0) (hw : v < WORD) : (v + WORD - 1) % WORD = v - 1 := by
  rw [show v + WORD - 1 = v - 1 + WORD by omega, Nat.add_mod_right, Nat.mod_eq_of_lt (by omega)]

theorem Tracks.inc (h : Tracks t c) (hf : Found c pa g) (hu : Unshared c pa (c pa + 1))
    (hw : c pa + 1 < WORD) : Tracks (refCntInc t pa g) (Function.update c pa (c pa + 1)) := by
  rcases hf with ⟨hc, rfl⟩ | ⟨hc, hmiss⟩
  · obtain ⟨xs, ys, hs, hl⟩ := h.locate_hit hc
    have hsorted := h.sorted
    rw [hs] at hsorted
    obtain ⟨-, hx, hy⟩ := sorted_split.mp hsorted
    simp only [refCntInc, hl, Nat.mod_eq_of_lt hw]
    refine h.replace hs (Nat.succ_ne_zero _) hw (fun x hm => (hx x hm).trans (Nat.lt_succ_self _))
      fun y hm => ?_
    have hya := h.around hs (m := y) (by simp [hm])
    obtain ⟨hyc, hy0⟩ := (h.holds y).mp (by rw [hs]; simp [hm])
    have hgt : c pa < y.refCnt := hy y hm
    have hne := hu y.addr hya.1 (hyc ▸ hy0)
    omega
  · have hone (q : ℕ) : c q ≠ 1 := by
      by_cases hq : q = pa
      · rw [hq, hc]
        decide
      · intro he
        exact hu q hq (by omega) (by omega)
    obtain ⟨t', hi, ht⟩ := h.add hc hone
    simp only [refCntInc, h.locate_miss.mpr hmiss, hi, Option.getD_some, hc]
    exact ht

/-- What exact counters ask of one `ref_cnt_dec`. -/
structure DecExact (t : Tree) (c : ℕ → ℕ) (pa g : ℕ) : Prop where
  ret : (refCntDec t pa g).1 = -1 ↔ c pa = 0
  freed : (refCntDec t pa g).2.1 = if c pa = 1 then some pa else none
  holds : Holds (refCntDec t pa g).2.2 (Function.update c pa (c pa - 1))

theorem Tracks.update_zero (hc : c pa = 0) : Function.update c pa (c pa - 1) = c := by
  rw [hc]
  exact Function.update_eq_self_iff.mpr hc.symm

theorem Tracks.dec_hit (h : Tracks t c) (hc : c pa ≠ 0) :
    ∃ xs ys, t = xs ++ ⟨pa, c pa⟩ :: ys ∧ refCntDec t pa (c pa) =
      if c pa = 1 then (0, some pa, xs ++ ys) else (0, none, xs ++ ⟨pa, c pa - 1⟩ :: ys) := by
  obtain ⟨xs, ys, hs, hl⟩ := h.locate_hit hc
  refine ⟨xs, ys, hs, ?_⟩
  simp only [refCntDec, hl, dec_word hc (h.lt_word pa)]
  by_cases h1 : c pa = 1
  · rw [if_pos (by omega), if_pos h1]
  · rw [if_neg (by omega), if_neg h1]

theorem Tracks.decExact (h : Tracks t c) (hf : Found c pa g) : DecExact t c pa g := by
  rcases hf with ⟨hc, rfl⟩ | ⟨hc, hmiss⟩
  · obtain ⟨xs, ys, hs, hd⟩ := h.dec_hit hc
    by_cases h1 : c pa = 1
    · rw [if_pos h1] at hd
      refine ⟨by rw [hd]; simpa using hc, by rw [hd, if_pos h1], ?_⟩
      rw [hd, h1]
      exact (h.remove hs).holds
    · rw [if_neg h1] at hd
      refine ⟨by rw [hd]; simpa using hc, by rw [hd, if_neg h1], ?_⟩
      rw [hd]
      exact h.holds_replace (v := c pa - 1) hs (by omega)
  · have hd : refCntDec t pa g = (-1, none, t) := by
      simp only [refCntDec, h.locate_miss.mpr hmiss]
    refine ⟨by simp [hd, hc], by simp [hd, hc], ?_⟩
    rw [hd, Tracks.update_zero hc]
    exact h.holds

theorem Tracks.dec (h : Tracks t c) (hf : Found c pa g)
    (hu : c pa ≤ 1 ∨ Unshared c pa (c pa - 1)) :
    Tracks (refCntDec t pa g).2.2 (Function.update c pa (c pa - 1)) := by
  rcases hf with ⟨hc, rfl⟩ | ⟨hc, hmiss⟩
  · obtain ⟨xs, ys, hs, hd⟩ := h.dec_hit hc
    by_cases h1 : c pa = 1
    · rw [hd, if_pos h1, h1]
      exact h.remove hs
    · rw [hd, if_neg h1]
      have hu := hu.resolve_left (by omega)
      have hsorted := h.sorted
      rw [hs] at hsorted
      obtain ⟨-, hx, hy⟩ := sorted_split.mp hsorted
      have hlt := h.lt_word pa
      refine h.replace (v := c pa - 1) hs (by omega) (by omega) (fun x hm => ?_)
        fun y hm => lt_of_le_of_lt (Nat.sub_le _ _) (hy y hm)
      have hxa := h.around hs (m := x) (by simp [hm])
      obtain ⟨hxc, hx0⟩ := (h.holds x).mp (by rw [hs]; simp [hm])
      have hxlt : x.refCnt < c pa := hx x hm
      have hne := hu x.addr hxa.1 (hxc ▸ hx0)
      omega
  · have hd : refCntDec t pa g = (-1, none, t) := by
      simp only [refCntDec, h.locate_miss.mpr hmiss]
    rw [hd, Tracks.update_zero hc]
    exact h

/-- The value read is right exactly when the key finds its page. -/
theorem Tracks.get_iff (h : Tracks t c) : refCntGet t pa g = c pa ↔ Found c pa g := by
  constructor
  · intro he
    cases hl : locate Node.refCnt t g with
    | none =>
      simp only [refCntGet, hl] at he
      exact Or.inr ⟨he.symm, h.locate_miss.mp hl⟩
    | some r =>
      obtain ⟨xs, n, ys⟩ := r
      obtain ⟨-, hk, -, h0⟩ := h.located hl
      simp only [refCntGet, hl, hk] at he
      exact Or.inl ⟨he ▸ h0, he⟩
  · rintro (⟨hc, rfl⟩ | ⟨hc, hmiss⟩)
    · obtain ⟨xs, ys, -, hl⟩ := h.locate_hit hc
      simp only [refCntGet, hl]
    · simp only [refCntGet, h.locate_miss.mpr hmiss, hc]

/-- A count that a call changes in place is lost for the page it belongs to. -/
theorem Tracks.not_mem_changed (h : Tracks t c) {xs ys : List Node} {n : Node} {v : ℕ}
    (hs : t = xs ++ n :: ys) (hv : v ≠ n.refCnt) : n ∉ xs ++ { n with refCnt := v } :: ys := by
  intro hm
  have hmem : n = { n with refCnt := v } ∨ n ∈ xs ++ ys := by
    simp only [List.mem_append, List.mem_cons] at hm ⊢
    tauto
  rcases hmem with he | hm
  · exact hv (congrArg Node.refCnt he).symm
  · exact (h.around hs hm).2 rfl

/-- A call whose key finds another page changes the count of that page. -/
theorem Tracks.found_of_located (h : Tracks t c) {xs ys : List Node} {n : Node} {v : ℕ}
    {t' : Tree} (hl : locate Node.refCnt t g = some (xs, n, ys)) (hn : n ∉ t')
    (ht : Holds t' (Function.update c pa v)) : c pa ≠ 0 ∧ g = c pa := by
  obtain ⟨-, hk, hc, h0⟩ := h.located hl
  have ha : n.addr = pa := by
    by_contra ha
    refine hn ((ht n).mpr ⟨?_, hk ▸ h0⟩)
    rw [Function.update_of_ne ha, hc, hk]
  exact ⟨by rw [← ha, hc]; exact h0, by rw [← ha, hc]⟩

/-- `ref_cnt_dec` is right exactly when the key finds its page. -/
theorem Tracks.dec_iff (h : Tracks t c) : DecExact t c pa g ↔ Found c pa g := by
  refine ⟨fun he => ?_, h.decExact⟩
  cases hl : locate Node.refCnt t g with
  | none =>
    have hd : refCntDec t pa g = (-1, none, t) := by simp only [refCntDec, hl]
    exact Or.inr ⟨he.ret.mp (by rw [hd]), h.locate_miss.mp hl⟩
  | some r =>
    obtain ⟨xs, n, ys⟩ := r
    obtain ⟨hs, hk, hc, h0⟩ := h.located hl
    have hw : g < WORD := hc ▸ h.lt_word n.addr
    refine Or.inl (h.found_of_located hl ?_ he.holds)
    simp only [refCntDec, hl, hk, dec_word h0 hw]
    split_ifs
    · exact fun hm => (h.around hs hm).2 rfl
    · exact h.not_mem_changed hs (by rw [hk]; omega)

/-- `ref_cnt_inc` is right exactly when the key finds its page and, for a page without
references, no page has the count of the new node. -/
theorem Tracks.inc_iff (h : Tracks t c) (hw : c pa + 1 < WORD) :
    Holds (refCntInc t pa g) (Function.update c pa (c pa + 1)) ↔
      Found c pa g ∧ (c pa = 0 → ∀ q, c q ≠ 1) := by
  constructor
  · intro he
    cases hl : locate Node.refCnt t g with
    | none =>
      have hnew := (he ⟨pa, c pa + 1⟩).mpr ⟨by simp, Nat.succ_ne_zero _⟩
      have hold : (⟨pa, c pa + 1⟩ : Node) ∉ t := fun hm => by
        have := ((h.holds _).mp hm).1
        simp at this
      simp only [refCntInc, hl] at hnew
      cases hi : insert Node.refCnt t ⟨pa, 1⟩ with
      | none =>
        rw [hi] at hnew
        exact absurd hnew hold
      | some t' =>
        have hone : ∀ q, c q ≠ 1 := fun q hq => by
          have hne : c q ≠ 0 := by omega
          have hm := h.mem hne
          rw [insert_eq_none h.sorted hm hq] at hi
          cases hi
        have hnew' (m : Node) (hm : m ∈ t) : m.refCnt ≠ (⟨pa, 1⟩ : Node).refCnt := fun hem =>
          hone m.addr (by rw [← ((h.holds m).mp hm).1, hem])
        obtain ⟨xs, ys, hs, hi', -⟩ := insert_eq_some h.sorted hnew'
        rw [hi', Option.getD_some] at hnew
        have hmem : (⟨pa, c pa + 1⟩ : Node) = ⟨pa, 1⟩ ∨ (⟨pa, c pa + 1⟩ : Node) ∈ t := by
          rw [hs]
          simp only [List.mem_append, List.mem_cons] at hnew ⊢
          tauto
        have h0 : c pa = 0 := by simpa using hmem.resolve_right hold
        exact ⟨Or.inr ⟨h0, h.locate_miss.mp hl⟩, fun _ => hone⟩
    | some r =>
      obtain ⟨xs, n, ys⟩ := r
      obtain ⟨hs, hk, hc, h0⟩ := h.located hl
      have hlt : g < WORD := hc ▸ h.lt_word n.addr
      have hf := h.found_of_located hl (fun hm => ?_) he
      · exact ⟨Or.inl hf, fun hz => absurd hz hf.1⟩
      · simp only [refCntInc, hl, hk] at hm
        refine h.not_mem_changed hs (v := (g + 1) % WORD) ?_ hm
        rw [hk]
        by_cases hg : g + 1 = WORD
        · rw [hg, Nat.mod_self]
          exact h0.symm
        · rw [Nat.mod_eq_of_lt (by omega)]
          omega
  · rintro ⟨⟨hc, rfl⟩ | ⟨hc, hmiss⟩, hone⟩
    · obtain ⟨xs, ys, hs, hl⟩ := h.locate_hit hc
      simp only [refCntInc, hl, Nat.mod_eq_of_lt hw]
      exact h.holds_replace (v := c pa + 1) hs (Nat.succ_ne_zero _)
    · obtain ⟨t', hi, ht⟩ := h.add hc (hone hc)
      simp only [refCntInc, h.locate_miss.mpr hmiss, hi, Option.getD_some, hc]
      exact ht.holds

/-! ### Runs -/

/-- The calls since `mmap_init`, with the outstanding references of each page. Every key
finds its page and no call gives two pages the same count. -/
inductive Run : Tree → (ℕ → ℕ) → Prop where
  | init : Run [] (fun _ => 0)
  | inc {t : Tree} {c : ℕ → ℕ} {pa g : ℕ} : Run t c → Found c pa g →
      Unshared c pa (c pa + 1) → c pa + 1 < WORD →
      Run (refCntInc t pa g) (Function.update c pa (c pa + 1))
  | dec {t : Tree} {c : ℕ → ℕ} {pa g : ℕ} : Run t c → Found c pa g →
      c pa ≤ 1 ∨ Unshared c pa (c pa - 1) →
      Run (refCntDec t pa g).2.2 (Function.update c pa (c pa - 1))

theorem Run.tracks (h : Run t c) : Tracks t c := by
  induction h with
  | init => exact ⟨List.Pairwise.nil, fun n => by simp, fun _ => by decide⟩
  | inc _ hf hu hw ih => exact ih.inc hf hu hw
  | dec _ hf hu ih => exact ih.dec hf hu

/-- After such a run the next call is exact if and only if its key finds its page (and,
for the first reference, the new node is not refused). -/
theorem run_counters_exact (h : Run t c) :
    Holds t c ∧ (∀ pa g, refCntGet t pa g = c pa ↔ Found c pa g) ∧
    (∀ pa g, DecExact t c pa g ↔ Found c pa g) ∧
    ∀ pa g, c pa + 1 < WORD →
      (Holds (refCntInc t pa g) (Function.update c pa (c pa + 1)) ↔
        Found c pa g ∧ (c pa = 0 → ∀ q, c q ≠ 1)) :=
  ⟨h.tracks.holds, fun _ _ => h.tracks.get_iff, fun _ _ => h.tracks.dec_iff,
    fun _ _ hw => h.tracks.inc_iff hw⟩

/-- The counts of two pages. -/
def twoPages (i j q : ℕ) : ℕ := if q = 0x80200000 then i else if q = 0x80201000 then j else 0

theorem twoPages_cases (i j q : ℕ) :
    q = 0x80200000 ∧ twoPages i j q = i ∨ q = 0x80201000 ∧ twoPages i j q = j ∨
      twoPages i j q = 0 := by
  unfold twoPages
  split_ifs with h1 h2
  · exact Or.inl ⟨h1, rfl⟩
  · exact Or.inr (Or.inl ⟨h2, rfl⟩)
  · exact Or.inr (Or.inr rfl)

theorem twoPages_first {i j v : ℕ} (hj : j ≠ v) : Unshared (twoPages i j) 0x80200000 v ∧
    Function.update (twoPages i j) 0x80200000 v = twoPages v j := by
  constructor
  · intro q hq h0
    rcases twoPages_cases i j q with ⟨h, -⟩ | ⟨-, h⟩ | h
    · exact absurd h hq
    · rwa [h]
    · exact absurd h h0
  · funext q
    rw [Function.update_apply, twoPages, twoPages]
    split_ifs
    · rfl
    · rfl
    · rfl

theorem twoPages_second {i v : ℕ} (hi : i ≠ v) : Unshared (twoPages i 0) 0x80201000 v ∧
    Function.update (twoPages i 0) 0x80201000 v = twoPages i v := by
  constructor
  · intro q hq h0
    rcases twoPages_cases i 0 q with ⟨-, h⟩ | ⟨h, -⟩ | h
    · rwa [h]
    · exact absurd h hq
    · exact absurd h h0
  · funext q
    rw [Function.update_apply, twoPages, twoPages]
    split_ifs with h1 h2
    · rw [h1] at h2
      exact absurd h2 (by decide)
    · rfl
    · rfl
    · rfl

/-- A page with two references after three and a decrement, and one with one. -/
theorem run_counters_exact_two_pages : ∃ t, Run t (twoPages 2 1) ∧ Holds t (twoPages 2 1) ∧
    refCntGet t 0x80200000 2 = 2 ∧ refCntGet t 0x80201000 1 = 1 := by
  have hzero : twoPages 0 0 = fun _ => 0 := by
    funext q
    rcases twoPages_cases 0 0 q with ⟨-, h⟩ | ⟨-, h⟩ | h
    · exact h
    · exact h
    · exact h
  have h₀ : Run [] (twoPages 0 0) := hzero ▸ Run.init
  have hnone : Found (twoPages 0 0) 0x80200000 7 :=
    Or.inr ⟨rfl, fun q h0 => absurd (congrFun hzero q) h0⟩
  have hnone' : Found (twoPages 2 0) 0x80201000 7 := by
    refine Or.inr ⟨rfl, fun q h0 => ?_⟩
    rcases twoPages_cases 2 0 q with ⟨-, h⟩ | ⟨-, h⟩ | h
    · rw [h]
      decide
    · exact absurd h h0
    · exact absurd h h0
  have hinc {t : Tree} {i j g : ℕ} (hr : Run t (twoPages i j)) (hj : j ≠ i + 1)
      (hw : i + 1 < WORD) (hf : Found (twoPages i j) 0x80200000 g) :
      Run (refCntInc t 0x80200000 g) (twoPages (i + 1) j) := by
    have hstep := hr.inc hf (twoPages_first hj).1 hw
    rwa [show twoPages i j 0x80200000 = i from rfl, (twoPages_first hj).2] at hstep
  have h₂ := hinc (hinc h₀ (by decide) (by decide) hnone) (by decide) (by decide)
    (Or.inl ⟨by decide, rfl⟩)
  have h₃ := h₂.inc hnone' (twoPages_second (by decide)).1 (by decide)
  rw [show twoPages (0 + 1 + 1) 0 0x80201000 + 1 = 1 from rfl, (twoPages_second (by decide)).2] at h₃
  have h₄ := (hinc h₃ (by decide) (by decide) (Or.inl ⟨by decide, rfl⟩)).dec
    (Or.inl ⟨by decide, rfl⟩) (Or.inr (twoPages_first (by decide)).1)
  rw [(twoPages_first (by decide)).2] at h₄
  obtain ⟨hholds, hget, -, -⟩ := run_counters_exact h₄
  exact ⟨_, h₄, hholds, (hget 0x80200000 2).mpr (Or.inl ⟨by decide, rfl⟩),
    (hget 0x80201000 1).mpr (Or.inl ⟨by decide, rfl⟩)⟩

/-- With other garbage a counted page has no references, and a decrement of one page
frees another. -/
theorem garbage_key_breaks_counters :
    refCntGet (refCntInc [] 0x80200000 7) 0x80200000 5 = 0 ∧
    refCntDec (refCntInc (refCntInc [] 0x80200000 7) 0x80201000 7) 0x80201000 1 =
      (0, some 0x80200000, []) := by decide

end Zrhos.RefCnt
