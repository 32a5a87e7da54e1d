import Zrhos.Vm.Model

/-! A page table in memory stands for a map from virtual page numbers to entries. The
table pages form a tree of three levels; `Dir` records which page of the supply holds
which table. -/
namespace Zrhos.Vm

inductive Path where
  | root
  | mid (i : ℕ)
  | low (i j : ℕ)
  deriving DecidableEq

/-- The indices on the path are in range. -/
def Path.Small : Path → Prop
  | .root => True
  | .mid i => i < 512
  | .low i j => i < 512 ∧ j < 512

/-- The supply index of the page that holds a table. -/
abbrev Dir := Path → Option ℕ

/-- Leaf entries by virtual page number; an absent entry is `0`. -/
abbrev Table := ℕ → ℕ

variable {S : Supply} {s s' : Ram} {r : ℕ} {d d' : Dir} {t t' : Table}

def pointer (S : Supply) : Option ℕ → ℕ
  | none => 0
  | some j => PA2PTE (S.page j) ||| PTE_V

/-- The word at entry `i` of a table. -/
def content (S : Supply) (d : Dir) (t : Table) : Path → ℕ → ℕ
  | .root, i => pointer S (d (.mid i))
  | .mid a, i => pointer S (d (.low a i))
  | .low a b, i => t (a * 2 ^ 18 + b * 2 ^ 9 + i)

structure Repr (S : Supply) (r : ℕ) (s : Ram) (d : Dir) (t : Table) : Prop where
  root : d .root = some r
  next_le : s.next ≤ S.count
  issued {q : Path} {j : ℕ} : d q = some j → j < s.next
  injective {q q' : Path} {j : ℕ} : d q = some j → d q' = some j → q = q'
  words {q : Path} {j : ℕ} : d q = some j → ∀ i < 512,
    s.word (entry (S.page j) i) = content S d t q i
  parent {a b : ℕ} : d (.mid a) = none → d (.low a b) = none
  bound {q : Path} {j : ℕ} : d q = some j → q.Small
  absent {a b i : ℕ} : b < 512 → i < 512 → d (.low a b) = none →
    t (a * 2 ^ 18 + b * 2 ^ 9 + i) = 0

/-! ### Addresses of entries -/

theorem Supply.apart (S : Supply) {i j x : ℕ} (hi : i < S.count) (hj : j < S.count)
    (hx : S.page i ≤ x ∧ x < S.page i + PGSIZE) (hx' : S.page j ≤ x ∧ x < S.page j + PGSIZE) :
    i = j := by
  have ai := S.aligned i hi
  have aj := S.aligned j hj
  apply S.injective i hi j hj
  simp only [PGSIZE] at *
  omega

theorem entry_mem (S : Supply) {j i : ℕ} (hi : i < 512) :
    S.page j ≤ entry (S.page j) i ∧ entry (S.page j) i < S.page j + PGSIZE := by
  simp only [entry, PGSIZE]
  omega

theorem entry_injective (S : Supply) {j j' i i' : ℕ} (hj : j < S.count) (hj' : j' < S.count)
    (hi : i < 512) (hi' : i' < 512) (h : entry (S.page j) i = entry (S.page j') i') :
    j = j' ∧ i = i' := by
  obtain rfl : j = j' := S.apart hj hj' (entry_mem S hi) (h ▸ entry_mem S hi')
  simp only [entry] at h
  exact ⟨rfl, by omega⟩

theorem pointer_valid (S : Supply) {j : ℕ} (hj : j < S.count) :
    pointer S (some j) &&& PTE_V ≠ 0 ∧ PTE2PA (pointer S (some j)) = S.page j := by
  refine ⟨or_PTE_V_valid _, PTE2PA_pack (S.aligned j hj) ?_ (by decide)⟩
  have := S.fits j hj
  simp only [PGSIZE] at this
  omega

theorem Repr.lt_count (h : Repr S r s d t) {q : Path} {j : ℕ} (hj : d q = some j) :
    j < S.count := (h.issued hj).trans_le h.next_le

theorem vpn_split {a b i va : ℕ} (hb : b < 512) (hi : i < 512)
    (h : a * 2 ^ 18 + b * 2 ^ 9 + i = vpn va) : a = PX 2 va ∧ b = PX 1 va ∧ i = PX 0 va := by
  rw [vpn_eq_PX] at h
  have h1 := PX_lt 1 va
  have h0 := PX_lt 0 va
  omega

/-! ### Reading -/

/-- The table below entry `i` of the table `q`. -/
def Path.child : Path → ℕ → Path
  | .root, i => .mid i
  | .mid a, i => .low a i
  | .low a b, _ => .low a b

/-- The tables that point to tables. -/
def Path.Inner : Path → Prop
  | .low _ _ => False
  | _ => True

theorem content_inner {q : Path} (hq : q.Inner) (i : ℕ) :
    content S d t q i = pointer S (d (q.child i)) := by
  cases q with
  | root => rfl
  | mid a => rfl
  | low a b => exact hq.elim

theorem Path.child_injective {q q' : Path} {i i' : ℕ} (hq : q.Inner) (hq' : q'.Inner)
    (h : q.child i = q'.child i') : q = q' ∧ i = i' := by
  cases q <;> cases q' <;> simp_all [Path.child, Path.Inner]

theorem walkStep_present (h : Repr S r s d t) {q : Path} {j k va level : ℕ} {alloc : Bool}
    (hq : q.Inner) (hj : d q = some j) (hk : d (q.child (PX level va)) = some k) :
    walkStep S s (S.page j) va level alloc = .ok (some (S.page k), s) := by
  have hw := h.words hj _ (PX_lt level va)
  rw [content_inner hq, hk] at hw
  obtain ⟨hv, hp⟩ := pointer_valid S (h.lt_count hk)
  simp only [walkStep, hw, hp, if_pos hv]

theorem walkStep_absent (h : Repr S r s d t) {q : Path} {j va level : ℕ}
    (hq : q.Inner) (hj : d q = some j) (hk : d (q.child (PX level va)) = none) :
    walkStep S s (S.page j) va level false = .ok (none, s) := by
  have hw := h.words hj _ (PX_lt level va)
  rw [content_inner hq, hk] at hw
  simp [walkStep, hw, pointer]

/-- `walk` without allocation finds the entry of the page, if its table exists. -/
theorem walk_spec (h : Repr S r s d t) (va : ℕ) :
    walk S s (S.page r) va false =
      .ok ((d (.low (PX 2 va) (PX 1 va))).map fun j => entry (S.page j) (PX 0 va), s) := by
  unfold walk
  cases hm : d (.mid (PX 2 va)) with
  | none =>
    rw [walkStep_absent h (q := .root) trivial h.root hm, h.parent hm]
    rfl
  | some j =>
    rw [walkStep_present h (q := .root) trivial h.root hm]
    cases hl : d (.low (PX 2 va) (PX 1 va)) with
    | none =>
      simp only [bind, Except.bind,
        walkStep_absent h (q := .mid (PX 2 va)) trivial hm hl]
      rfl
    | some k =>
      simp only [bind, Except.bind,
        walkStep_present h (q := .mid (PX 2 va)) trivial hm hl]
      rfl

theorem Repr.leaf (h : Repr S r s d t) {j va : ℕ}
    (hj : d (.low (PX 2 va) (PX 1 va)) = some j) :
    s.word (entry (S.page j) (PX 0 va)) = t (vpn va) := by
  rw [h.words hj _ (PX_lt 0 va), vpn_eq_PX]
  rfl

theorem Repr.absent_leaf (h : Repr S r s d t) {va : ℕ}
    (hj : d (.low (PX 2 va) (PX 1 va)) = none) : t (vpn va) = 0 := by
  rw [vpn_eq_PX]
  exact h.absent (PX_lt 1 va) (PX_lt 0 va) hj

/-! ### Growing the tree -/

theorem content_congr {q : Path} {i : ℕ} (h : q.Inner → d' (q.child i) = d (q.child i)) :
    content S d t q i = content S d' t q i := by
  cases q with
  | root => exact congrArg (pointer S) (h trivial).symm
  | mid a => exact congrArg (pointer S) (h trivial).symm
  | low a b => rfl

/-- A table that does not exist yet starts out empty. -/
theorem Repr.content_fresh (h : Repr S r s d t) {q : Path} {i i' : ℕ} (hq : q.Inner)
    (hi : i < 512) (hc : d (q.child i) = none) (hi' : i' < 512) :
    0 = content S (Function.update d (q.child i) (some s.next)) t (q.child i) i' := by
  cases q with
  | root =>
    have hl : d (.low i i') = none := h.parent hc
    simp [Path.child, content, pointer, hl]
  | mid a => exact (h.absent hi hi' hc).symm
  | low a b => exact hq.elim

/-- `walk` hangs a cleared page of the supply into the tree. -/
theorem Repr.grow (h : Repr S r s d t) {q : Path} {j i : ℕ} (hq : q.Inner) (hi : i < 512)
    (hj : d q = some j) (hc : d (q.child i) = none) (hn : s.next < S.count) :
    Repr S r (setWord (clearPage { s with next := s.next + 1 } (S.page s.next))
        (entry (S.page j) i) (PA2PTE (S.page s.next) ||| PTE_V))
      (Function.update d (q.child i) (some s.next)) t := by
  have hjn : j ≠ s.next := (h.issued hj).ne
  have hold {q' : Path} (hq' : q' ≠ q.child i) :
      Function.update d (q.child i) (some s.next) q' = d q' := Function.update_of_ne hq' _ _
  have hself : Function.update d (q.child i) (some s.next) (q.child i) = some s.next :=
    Function.update_self _ _ _
  refine ⟨?_, hn, ?_, ?_, ?_, ?_, ?_, ?_⟩
  · rw [hold (by cases q <;> simp [Path.child]), h.root]
  · intro q' k hk
    change k < s.next + 1
    by_cases hq' : q' = q.child i
    · rw [hq', hself] at hk
      cases hk
      omega
    · rw [hold hq'] at hk
      exact (h.issued hk).trans (Nat.lt_succ_self _)
  · intro q' q'' k hk hk'
    by_cases hq' : q' = q.child i <;> by_cases hq'' : q'' = q.child i
    · rw [hq', hq'']
    · rw [hq', hself] at hk
      rw [hold hq''] at hk'
      cases hk
      exact absurd (h.issued hk') (lt_irrefl _)
    · rw [hq'', hself] at hk'
      rw [hold hq'] at hk
      cases hk'
      exact absurd (h.issued hk) (lt_irrefl _)
    · rw [hold hq'] at hk
      rw [hold hq''] at hk'
      exact h.injective hk hk'
  · intro q' k hk i' hi'
    by_cases hq' : q' = q.child i
    · rw [hq', hself] at hk
      cases hk
      have hne : entry (S.page s.next) i' ≠ entry (S.page j) i := fun he =>
        hjn (entry_injective S hn (h.lt_count hj) hi' hi he).1.symm
      simp only [setWord, clearPage, Function.update_of_ne hne, entry_mem S hi', and_self,
        ↓reduceIte]
      rw [hq', h.content_fresh hq hi hc hi']
    · rw [hold hq'] at hk
      by_cases he : q' = q ∧ i' = i
      · obtain ⟨rfl, rfl⟩ := he
        rw [hj] at hk
        cases hk
        rw [content_inner hq, hself]
        exact Function.update_self _ _ _
      · have hne : entry (S.page k) i' ≠ entry (S.page j) i := by
          intro hee
          obtain ⟨rfl, rfl⟩ := entry_injective S (h.lt_count hk) (h.lt_count hj) hi' hi hee
          exact he ⟨h.injective hk hj, rfl⟩
        have hout : ¬ (S.page s.next ≤ entry (S.page k) i' ∧
            entry (S.page k) i' < S.page s.next + PGSIZE) := fun hin =>
          (h.issued hk).ne (S.apart (h.lt_count hk) hn (entry_mem S hi') hin)
        simp only [setWord, clearPage, Function.update_of_ne hne, if_neg hout]
        rw [h.words hk i' hi', content_congr]
        intro hin
        exact hold (fun hcc => he (Path.child_injective hin hq hcc))
  · intro a b hm
    have ha : (Path.mid a) ≠ q.child i := by
      intro he
      rw [he, hself] at hm
      cases hm
    rw [hold ha] at hm
    rw [hold ?_, h.parent hm]
    intro he
    obtain ⟨rfl, -⟩ := Path.child_injective (q := .mid a) (i := b) trivial hq he
    rw [hm] at hj
    cases hj
  · intro q' k hk
    by_cases he : q' = q.child i
    · have hsmall := h.bound hj
      cases q with
      | root => exact he ▸ hi
      | mid a => exact he ▸ ⟨hsmall, hi⟩
      | low a b => exact hq.elim
    · rw [hold he] at hk
      exact h.bound hk
  · intro a b k hb hk hl
    have ha : (Path.low a b) ≠ q.child i := by
      intro he
      rw [he, hself] at hl
      cases hl
    rw [hold ha] at hl
    exact h.absent hb hk hl

theorem walkStep_alloc (h : Repr S r s d t) {q : Path} {j va level : ℕ} (hq : q.Inner)
    (hj : d q = some j) :
    (walkStep S s (S.page j) va level true = .error .noSpaceInHeap ∧ S.count ≤ s.next) ∨
    ∃ k s' d', walkStep S s (S.page j) va level true = .ok (some (S.page k), s') ∧
      Repr S r s' d' t ∧ d' (q.child (PX level va)) = some k ∧ s'.next ≤ s.next + 1 := by
  cases hk : d (q.child (PX level va)) with
  | some k =>
    exact Or.inr ⟨k, s, d, walkStep_present h hq hj hk, h, hk, Nat.le_succ _⟩
  | none =>
    have hw := h.words hj _ (PX_lt level va)
    rw [content_inner hq, hk] at hw
    by_cases hn : s.next < S.count
    · refine Or.inr ⟨s.next, _, _, ?_, h.grow hq (PX_lt level va) hj hk hn,
        Function.update_self _ _ _, le_rfl⟩
      simp [walkStep, hw, pointer, memMalloc, hn, S.ne_null _ hn, bind, Except.bind, pure,
        Except.pure]
    · refine Or.inl ⟨?_, not_lt.mp hn⟩
      simp [walkStep, hw, pointer, memMalloc, hn, bind, Except.bind]

/-- `walk` with allocation finds an entry and leaves the map as it was; it fails only
when the supply runs out. -/
theorem walk_alloc_spec (h : Repr S r s d t) (va : ℕ) :
    (walk S s (S.page r) va true = .error .noSpaceInHeap ∧ S.count < s.next + 2) ∨
    ∃ k s' d', walk S s (S.page r) va true = .ok (some (entry (S.page k) (PX 0 va)), s') ∧
      Repr S r s' d' t ∧ d' (.low (PX 2 va) (PX 1 va)) = some k ∧ s'.next ≤ s.next + 2 := by
  unfold walk
  rcases @walkStep_alloc S s r d t h .root r va 2 trivial h.root with
    ⟨h1, hc⟩ | ⟨j, s₁, d₁, h1, hr₁, hd₁, hn₁⟩
  · refine Or.inl ⟨?_, by omega⟩
    simp only [h1, bind, Except.bind]
  rcases @walkStep_alloc S s₁ r d₁ t hr₁ (.mid (PX 2 va)) j va 1 trivial hd₁ with
    ⟨h2, hc⟩ | ⟨k, s₂, d₂, h2, hr₂, hd₂, hn₂⟩
  · refine Or.inl ⟨?_, by omega⟩
    simp only [h1, h2, bind, Except.bind]
  · refine Or.inr ⟨k, s₂, d₂, ?_, hr₂, hd₂, by omega⟩
    simp only [h1, h2, bind, Except.bind, pure, Except.pure, Option.map_some]

/-- Storing a leaf entry changes the map at one page. -/
theorem Repr.setLeaf (h : Repr S r s d t) {k va : ℕ}
    (hk : d (.low (PX 2 va) (PX 1 va)) = some k) (v : ℕ) :
    Repr S r (setWord s (entry (S.page k) (PX 0 va)) v) d (Function.update t (vpn va) v) := by
  refine ⟨h.root, h.next_le, h.issued, h.injective, ?_, h.parent, h.bound, ?_⟩
  · intro q j hj i hi
    by_cases he : q = .low (PX 2 va) (PX 1 va) ∧ i = PX 0 va
    · obtain ⟨rfl, rfl⟩ := he
      rw [hk] at hj
      cases hj
      simp [setWord, content, vpn_eq_PX]
    · have hne : entry (S.page j) i ≠ entry (S.page k) (PX 0 va) := by
        intro hee
        obtain ⟨rfl, rfl⟩ :=
          entry_injective S (h.lt_count hj) (h.lt_count hk) hi (PX_lt 0 va) hee
        exact he ⟨h.injective hj hk, rfl⟩
      simp only [setWord, Function.update_of_ne hne]
      rw [h.words hj i hi]
      cases q with
      | root => rfl
      | mid a => rfl
      | low a b =>
        refine (Function.update_of_ne (fun hv => he ?_) _ _ : _ = t _).symm
        obtain ⟨rfl, rfl, rfl⟩ := vpn_split (h.bound hj).2 hi hv
        exact ⟨rfl, rfl⟩
  · intro a b i hb hi hl
    rw [Function.update_of_ne, h.absent hb hi hl]
    intro hv
    obtain ⟨rfl, rfl, rfl⟩ := vpn_split hb hi hv
    rw [hk] at hl
    cases hl

end Zrhos.Vm
