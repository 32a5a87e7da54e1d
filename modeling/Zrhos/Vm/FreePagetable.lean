import Zrhos.Vm.Backed

/-! `free_pagetable` gives every page of its table back to the allocator, once, and no
other page. It frees a table below an entry before it reads the next entry, and `mem_free`
stores a list link in each page it takes, so the proof follows the words of the tables
that are still to be freed. -/
namespace Zrhos.Vm
open Mem

variable {word : ℕ → ℕ} {kend pt r n p : ℕ} {s s' s₁ : Kernel} {S : Supply}
  {M N L : List (ℕ × ℕ)} {ps qs : List ℕ} {d : Dir} {t : Table} {w w' : ℕ → ℕ}

/-! ### The tables below a table -/

/-- An entry of the page `p` points to the table at `q`. -/
def Points (w : ℕ → ℕ) (p q : ℕ) : Prop :=
  ∃ i < 512, isPagetable (w (entry p i)) = true ∧ q = PTE2PA (w (entry p i))

/-- The root and the interior table pages reachable from it. -/
def TablePage (w : ℕ → ℕ) (root p : ℕ) : Prop := Relation.ReflTransGen (Points w) root p

/-- The tables below `p` end after `n` levels. -/
def Shaped (w : ℕ → ℕ) : ℕ → ℕ → Prop
  | 0, _ => False
  | n + 1, p => p ≠ 0 ∧ ∀ i < 512, isPagetable (w (entry p i)) = true →
      Shaped w n (PTE2PA (w (entry p i)))

/-- The tables of a tree of `n` levels, each after the tables below it. -/
def tables (w : ℕ → ℕ) : ℕ → ℕ → List ℕ
  | 0, _ => []
  | n + 1, p => (List.range 512).flatMap (fun i =>
      if isPagetable (w (entry p i)) then tables w n (PTE2PA (w (entry p i))) else []) ++ [p]

/-- The tables below one entry. -/
def below (w : ℕ → ℕ) (n p i : ℕ) : List ℕ :=
  if isPagetable (w (entry p i)) then tables w n (PTE2PA (w (entry p i))) else []

theorem tables_succ (w : ℕ → ℕ) (n p : ℕ) :
    tables w (n + 1) p = (List.range 512).flatMap (below w n p) ++ [p] := rfl

theorem mem_tables (h : Shaped w n p) {q : ℕ} : q ∈ tables w n p ↔ TablePage w p q := by
  induction n generalizing p with
  | zero => exact h.elim
  | succ n ih =>
    rw [tables_succ, List.mem_append, List.mem_flatMap, List.mem_singleton]
    constructor
    · rintro (⟨i, hi, hq⟩ | rfl)
      · have hi := List.mem_range.mp hi
        unfold below at hq
        split_ifs at hq with hp
        · exact Relation.ReflTransGen.head ⟨i, hi, hp, rfl⟩ ((ih (h.2 i hi hp)).mp hq)
        · cases hq
      · exact Relation.ReflTransGen.refl
    · intro hq
      rcases Relation.ReflTransGen.cases_head hq with rfl | ⟨c, ⟨i, hi, hp, rfl⟩, hc⟩
      · exact Or.inr rfl
      · refine Or.inl ⟨i, List.mem_range.mpr hi, ?_⟩
        rw [below, if_pos hp]
        exact (ih (h.2 i hi hp)).mpr hc

/-- The words of the tables determine them. -/
theorem tables_congr (hw : ∀ q ∈ tables w n p, ∀ i < 512, w' (entry q i) = w (entry q i)) :
    tables w' n p = tables w n p := by
  induction n generalizing p with
  | zero => rfl
  | succ n ih =>
    rw [tables_succ] at hw
    rw [tables_succ, tables_succ]
    refine congrArg (· ++ [p]) (List.flatMap_congr fun i hi => ?_)
    have hlt := List.mem_range.mp hi
    have hself : w' (entry p i) = w (entry p i) := hw p (by simp) i hlt
    unfold below
    rw [hself]
    split_ifs with hp
    · refine ih fun q hq => hw q (List.mem_append_left _ (List.mem_flatMap.mpr ⟨i, hi, ?_⟩))
      rwa [below, if_pos hp]
    · rfl

theorem shaped_congr (hw : ∀ q ∈ tables w n p, ∀ i < 512, w' (entry q i) = w (entry q i))
    (h : Shaped w n p) : Shaped w' n p := by
  induction n generalizing p with
  | zero => exact h
  | succ n ih =>
    rw [tables_succ] at hw
    refine ⟨h.1, fun i hi hp => ?_⟩
    have hself : w' (entry p i) = w (entry p i) := hw p (by simp) i hi
    rw [hself] at hp ⊢
    refine ih (fun q hq => hw q (List.mem_append_left _ ?_)) (h.2 i hi hp)
    refine List.mem_flatMap.mpr ⟨i, List.mem_range.mpr hi, ?_⟩
    rwa [below, if_pos hp]

/-! ### Giving pages back -/

/-- The pages `ps` went back to the page list, and the blocks `N` are still live. -/
structure Released (word : ℕ → ℕ) (kend : ℕ) (s s' : Kernel) (ps : List ℕ)
    (N : List (ℕ × ℕ)) : Prop where
  freed : s'.freed = s.freed ++ ps
  heap : ∃ L, Reachable word kend s'.heap L ∧ L.Perm N
  listed {q : ℕ} : q ∈ ps ∨ Listed s.heap q → Listed s'.heap q

theorem Released.trans (h : Released word kend s s₁ ps M) (h' : Released word kend s₁ s' qs N) :
    Released word kend s s' (ps ++ qs) N where
  freed := by rw [h'.freed, h.freed, List.append_assoc]
  heap := h'.heap
  listed {q} hq := by
    rw [List.mem_append] at hq
    rcases hq with (hq | hq) | hq
    · exact h'.listed (Or.inr (h.listed (Or.inl hq)))
    · exact h'.listed (Or.inl hq)
    · exact h'.listed (Or.inr (h.listed (Or.inr hq)))

theorem memFree_page (hr : Reachable word kend s.heap L) (hL : L.Perm ((p, PGSIZE) :: N)) :
    ∃ s', s.memFree p = .ok s' ∧ Released word kend s s' [p] N ∧ Kept N s.word s'.word := by
  have hp : (p, PGSIZE) ∈ L := hL.mem_iff.mpr List.mem_cons_self
  have hN : (L.erase (p, PGSIZE)).Perm N := by
    have := hL.erase (p, PGSIZE)
    rwa [List.erase_cons_head] at this
  obtain ⟨heap, he, hr', hlisted, hold⟩ := hr.free_page hp
  refine ⟨{ s with heap := heap, freed := s.freed ++ [p] }, ?_, ⟨rfl, ⟨_, hr', hN⟩, ?_⟩, ?_⟩
  · rw [Kernel.memFree, he]
    rfl
  · rintro q (hq | hq)
    · rw [List.mem_singleton.mp hq]
      exact hlisted
    · exact hold q hq
  · exact (hr.free_kept hp he).mono hN.symm.subset

/-- `free_pagetable` releases every tree of `n` levels of tables. -/
def Frees (word : ℕ → ℕ) (kend n : ℕ) : Prop :=
  ∀ (s : Kernel) (p : ℕ) (L N : List (ℕ × ℕ)), Reachable word kend s.heap L →
    Shaped s.word n p → L.Perm (pageBlocks (tables s.word n p) ++ N) →
    ∃ s', (∀ depth, n ≤ depth → Kernel.freePagetable false depth s p = .ok s') ∧
      Released word kend s s' (tables s.word n p) N ∧ Kept N s.word s'.word

theorem freeEntry_table (hc : Frees word kend n) {i : ℕ} (hi : i < 512)
    (hp : isPagetable (s.word (entry p i)) = true) (hr : Reachable word kend s.heap L)
    (hs : Shaped s.word n (PTE2PA (s.word (entry p i)))) (hpN : (p, PGSIZE) ∈ N)
    (hL : L.Perm (pageBlocks (below s.word n p i) ++ N)) :
    ∃ s', (∀ depth, n ≤ depth →
        Kernel.freeEntry (Kernel.freePagetable false depth) false p s i = .ok s') ∧
      Released word kend s s' (below s.word n p i) N ∧
      Kept (N.erase (p, PGSIZE)) s.word s'.word ∧
      ∀ j < 512, j ≠ i → s'.word (entry p j) = s.word (entry p j) := by
  rw [below, if_pos hp] at hL ⊢
  obtain ⟨s₁, he, hrel, hk⟩ := hc s _ L N hr hs hL
  obtain ⟨L₁, hr₁, hL₁⟩ := hrel.heap
  have hpL : (p, PGSIZE) ∈ L₁ := hL₁.mem_iff.mpr hpN
  have hin : p ≤ entry p i ∧ entry p i < p + PGSIZE := by
    simp only [entry, PGSIZE]
    omega
  have hout := hr₁.outside hpL (covers_entry p hi)
  refine ⟨s₁.setWord (entry p i) 0, fun depth hd => ?_,
    ⟨hrel.freed, ⟨L₁, hr₁.setWord hpL hin 0, hL₁⟩, fun hq =>
      hr₁.setWord_listed hpL hin 0 (hrel.listed hq)⟩, ?_, fun j hj hne => ?_⟩
  · unfold Kernel.freeEntry
    rw [if_pos hp, he depth hd]
    rfl
  · refine (hk.mono List.erase_subset).update (fun b hb => hout b ?_) 0
    exact (hL₁.erase _).mem_iff.mpr hb
  · have hne' : entry p j ≠ entry p i := by
      simp only [entry]
      omega
    exact (Function.update_of_ne hne' _ _).trans (hk _ hpN _ (covers_entry p hj))

theorem freeEntry_other {free : Kernel → ℕ → Except Stop Kernel} {i : ℕ}
    (hp : isPagetable (s.word (entry p i)) ≠ true) : Kernel.freeEntry free false p s i = .ok s := by
  unfold Kernel.freeEntry
  rw [if_neg hp, if_neg fun h => Bool.false_ne_true h.2]

theorem below_congr {i : ℕ} (hi : w' (entry p i) = w (entry p i))
    (hw : ∀ q ∈ below w n p i, ∀ i < 512, w' (entry q i) = w (entry q i)) :
    below w' n p i = below w n p i := by
  unfold below at hw ⊢
  rw [hi]
  split_ifs with hp
  · rw [if_pos hp] at hw
    exact tables_congr hw
  · rfl

/-- The loop over the entries: what remains below the other entries is not disturbed by
the tables freed so far. -/
theorem freeEntries_spec (hc : Frees word kend n) {is : List ℕ} (his : ∀ i ∈ is, i < 512)
    (hnd : is.Nodup) (hr : Reachable word kend s.heap L)
    (hs : ∀ i ∈ is, isPagetable (s.word (entry p i)) = true →
      Shaped s.word n (PTE2PA (s.word (entry p i))))
    (hL : L.Perm (pageBlocks (is.flatMap (below s.word n p)) ++ (p, PGSIZE) :: N)) :
    ∃ s', (∀ depth, n ≤ depth →
        is.foldlM (Kernel.freeEntry (Kernel.freePagetable false depth) false p) s = .ok s') ∧
      Released word kend s s' (is.flatMap (below s.word n p)) ((p, PGSIZE) :: N) ∧
      Kept N s.word s'.word := by
  induction is generalizing s L with
  | nil =>
    exact ⟨s, fun _ _ => rfl, ⟨(List.append_nil _).symm, ⟨L, hr, hL⟩, fun hq => by simpa using hq⟩,
      Kept.refl _ _⟩
  | cons i is ih =>
    have hi := his i List.mem_cons_self
    obtain ⟨hnot, hnd⟩ := List.nodup_cons.mp hnd
    have his' : ∀ j ∈ is, j < 512 := fun j hj => his j (List.mem_cons_of_mem _ hj)
    rw [List.flatMap_cons] at hL ⊢
    by_cases hp : isPagetable (s.word (entry p i)) = true
    · set rest := is.flatMap (below s.word n p) with hrest
      have hL' : L.Perm (pageBlocks (below s.word n p i) ++
          (pageBlocks rest ++ (p, PGSIZE) :: N)) := by
        simpa [pageBlocks] using hL
      obtain ⟨s₁, he, hrel, hk, hself⟩ := freeEntry_table hc hi hp hr (hs i List.mem_cons_self hp)
        (List.mem_append_right _ List.mem_cons_self) hL'
      obtain ⟨L₁, hr₁, hL₁⟩ := hrel.heap
      have hpr : (p, PGSIZE) ∉ pageBlocks rest := fun hin =>
        List.disjoint_of_nodup_append (hL₁.nodup hr₁.nodup) hin List.mem_cons_self
      rw [List.erase_append_right _ hpr, List.erase_cons_head] at hk
      have hwords (q : ℕ) (hq : q ∈ rest) (k : ℕ) (hk512 : k < 512) :
          s₁.word (entry q k) = s.word (entry q k) :=
        hk _ (List.mem_append_left _ (mem_pageBlocks.mpr hq)) _ (covers_entry q hk512)
      have hentry (j : ℕ) (hj : j ∈ is) : s₁.word (entry p j) = s.word (entry p j) :=
        hself j (his' j hj) fun he => hnot (he ▸ hj)
      have hbelow (j : ℕ) (hj : j ∈ is) (q : ℕ) (hq : q ∈ below s.word n p j) : q ∈ rest :=
        List.mem_flatMap.mpr ⟨j, hj, hq⟩
      have hflat : is.flatMap (below s₁.word n p) = rest :=
        List.flatMap_congr fun j hj =>
          below_congr (hentry j hj) fun q hq => hwords q (hbelow j hj q hq)
      have hs₁ (j : ℕ) (hj : j ∈ is) (hpj : isPagetable (s₁.word (entry p j)) = true) :
          Shaped s₁.word n (PTE2PA (s₁.word (entry p j))) := by
        rw [hentry j hj] at hpj ⊢
        refine shaped_congr (fun q hq => hwords q (hbelow j hj q ?_))
          (hs j (List.mem_cons_of_mem _ hj) hpj)
        rwa [below, if_pos hpj]
      obtain ⟨s', he', hrel', hk'⟩ := ih his' hnd hr₁ hs₁ (hflat ▸ hL₁)
      rw [hflat] at hrel'
      refine ⟨s', fun depth hd => ?_, hrel.trans hrel',
        (hk.mono (List.subset_append_right _ _)).trans hk'⟩
      rw [List.foldlM_cons, he depth hd]
      exact he' depth hd
    · have hnil : below s.word n p i = [] := if_neg hp
      rw [hnil, List.nil_append] at hL ⊢
      obtain ⟨s', he, hrel, hk⟩ := ih his' hnd hr (fun j hj => hs j (List.mem_cons_of_mem _ hj)) hL
      refine ⟨s', fun depth hd => ?_, hrel, hk⟩
      rw [List.foldlM_cons, freeEntry_other hp]
      exact he depth hd

theorem frees (word : ℕ → ℕ) (kend n : ℕ) : Frees word kend n := by
  induction n with
  | zero => exact fun _ _ _ _ _ h _ => h.elim
  | succ n ih =>
    intro s p L N hr hs hL
    rw [tables_succ] at hL ⊢
    have hL' : L.Perm (pageBlocks ((List.range 512).flatMap (below s.word n p)) ++
        (p, PGSIZE) :: N) := by
      simpa [pageBlocks] using hL
    obtain ⟨s₁, he, hrel, hk⟩ := freeEntries_spec ih (fun i hi => List.mem_range.mp hi)
      List.nodup_range hr (fun i hi => hs.2 i (List.mem_range.mp hi)) hL'
    obtain ⟨L₁, hr₁, hL₁⟩ := hrel.heap
    obtain ⟨s₂, hf, hrel₂, hk₂⟩ := memFree_page hr₁ hL₁
    refine ⟨s₂, fun depth hd => ?_, hrel.trans hrel₂, hk.trans hk₂⟩
    obtain ⟨depth, rfl⟩ := Nat.exists_eq_succ_of_ne_zero (show depth ≠ 0 by omega)
    rw [Kernel.freePagetable, if_neg hs.1, he depth (by omega)]
    exact hf

/-! ### The tree of a sound table -/

/-- The paths below a table in the order in which their tables are freed. -/
def midPaths (a : ℕ) : List Path := (List.range 512).map (.low a) ++ [.mid a]

def allPaths : List Path := (List.range 512).flatMap midPaths ++ [.root]

theorem mem_midPaths {a : ℕ} {q : Path} :
    q ∈ midPaths a ↔ (∃ b < 512, q = .low a b) ∨ q = .mid a := by
  simp [midPaths, eq_comm]

theorem mem_allPaths {q : Path} : q ∈ allPaths ↔ q.Small := by
  simp only [allPaths, List.mem_append, List.mem_flatMap, List.mem_range, mem_midPaths,
    List.mem_singleton]
  cases q with
  | root => simp [Path.Small]
  | mid a => simp [Path.Small]
  | low a b => simp [Path.Small]

theorem allPaths_nodup : allPaths.Nodup := by
  refine List.Nodup.append (List.nodup_flatMap.mpr ⟨fun a _ => ?_, ?_⟩)
    (List.nodup_singleton _) ?_
  · refine List.Nodup.append (List.nodup_range.map fun b c h => by cases h; rfl)
      (List.nodup_singleton _) ?_
    simp
  · refine List.nodup_range.imp fun {a b} hne => ?_
    intro q hq hq'
    rw [mem_midPaths] at hq hq'
    rcases hq with ⟨_, -, rfl⟩ | rfl <;> rcases hq' with ⟨_, -, h⟩ | h <;> cases h <;>
      exact hne rfl
  · simp [mem_midPaths]

/-- The page of a table, if the table exists. -/
def pageAt (S : Supply) (d : Dir) (q : Path) : Option ℕ := (d q).map S.page

theorem Backed.below_inner (h : Backed word kend s M S r d t) {q : Path} {j i : ℕ} (hq : q.Inner)
    (hj : d q = some j) (hi : i < 512) (n : ℕ) :
    below s.word n (S.page j) i =
      ((d (q.child i)).map fun k => tables s.word n (S.page k)).getD [] := by
  have hw := h.word_inner hq hi hj
  unfold below
  rw [hw]
  cases hk : d (q.child i) with
  | none =>
    rw [pointer, if_neg (by decide)]
    rfl
  | some k =>
    rw [if_pos (isPagetable_pointer S k), (pointer_valid S (h.repr.lt_count hk)).2]
    rfl

/-- A lowest table has no tables below it. -/
theorem Backed.low_entry (h : Backed word kend s M S r d t) {a b j i : ℕ}
    (hj : d (.low a b) = some j) (hi : i < 512) :
    isPagetable (s.word (entry (S.page j) i)) = false := by
  have hw : s.word (entry (S.page j) i) = content S d t (.low a b) i := h.repr.words hj i hi
  rw [hw]
  exact h.leafy _

theorem Backed.tables_low (h : Backed word kend s M S r d t) {a b j : ℕ}
    (hj : d (.low a b) = some j) : tables s.word 1 (S.page j) = [S.page j] := by
  have hnil : (List.range 512).flatMap (below s.word 0 (S.page j)) = [] := by
    refine List.flatMap_eq_nil_iff.mpr fun i hi => ?_
    rw [below, h.low_entry hj (List.mem_range.mp hi)]
    rfl
  rw [tables_succ, hnil, List.nil_append]

theorem Backed.tables_mid (h : Backed word kend s M S r d t) {a j : ℕ}
    (hj : d (.mid a) = some j) :
    tables s.word 2 (S.page j) = (midPaths a).filterMap (pageAt S d) := by
  have hself : [S.page j] = [Path.mid a].filterMap (pageAt S d) := by simp [pageAt, hj]
  rw [tables_succ, midPaths, List.filterMap_append, ← hself, List.filterMap_map,
    List.filterMap_eq_flatMap_toList]
  refine congrArg (· ++ [S.page j]) (List.flatMap_congr fun b hb => ?_)
  rw [h.below_inner (q := .mid a) trivial hj (List.mem_range.mp hb)]
  cases hk : d (.low a b) with
  | none => simp [Path.child, hk, pageAt]
  | some k => simp [Path.child, hk, pageAt, h.tables_low hk]

theorem Backed.tables_root (h : Backed word kend s M S r d t) :
    tables s.word 3 (S.page r) = allPaths.filterMap (pageAt S d) := by
  have hself : [S.page r] = [Path.root].filterMap (pageAt S d) := by simp [pageAt, h.repr.root]
  rw [tables_succ, allPaths, List.filterMap_append, ← hself, List.filterMap_flatMap]
  refine congrArg (· ++ [S.page r]) (List.flatMap_congr fun a ha => ?_)
  rw [h.below_inner (q := .root) trivial h.repr.root (List.mem_range.mp ha)]
  cases hk : d (.mid a) with
  | none =>
    have hnil : (midPaths a).filterMap (pageAt S d) = [] := by
      rw [List.filterMap_eq_nil_iff]
      intro q hq
      rcases mem_midPaths.mp hq with ⟨b, -, rfl⟩ | rfl
      · simp [pageAt, h.repr.parent hk]
      · simp [pageAt, hk]
    simp [Path.child, hk, hnil]
  | some k => simp [Path.child, hk, h.tables_mid hk]

theorem Backed.shaped (h : Backed word kend s M S r d t) : Shaped s.word 3 (S.page r) := by
  have hne {q : Path} {j : ℕ} (hj : d q = some j) : S.page j ≠ 0 :=
    S.ne_null j (h.repr.lt_count hj)
  have hinner {n : ℕ} {q : Path} {j : ℕ} (hq : q.Inner) (hj : d q = some j)
      (hchild : ∀ i < 512, ∀ k, d (q.child i) = some k → Shaped s.word n (S.page k)) :
      Shaped s.word (n + 1) (S.page j) := by
    refine ⟨hne hj, fun i hi hp => ?_⟩
    rw [h.word_inner hq hi hj] at hp ⊢
    cases hk : d (q.child i) with
    | none =>
      rw [hk, pointer, isPagetable_zero] at hp
      cases hp
    | some k =>
      rw [(pointer_valid S (h.repr.lt_count hk)).2]
      exact hchild i hi k hk
  refine hinner (q := .root) trivial h.repr.root fun a _ j hj => ?_
  refine hinner (q := .mid a) trivial hj fun b _ k hk => ⟨hne hk, fun i hi hp => ?_⟩
  have hk' : d (.low a b) = some k := hk
  rw [h.low_entry hk' hi] at hp
  cases hp

/-- The tables of a sound page table are the pages that were taken for it. -/
theorem Backed.tables_perm (h : Backed word kend s M S r d t) :
    (tables s.word 3 (S.page r)).Perm s.taken ∧ (tables s.word 3 (S.page r)).Nodup := by
  have hnd : (allPaths.filterMap (pageAt S d)).Nodup := by
    refine allPaths_nodup.filterMap fun q q' p hq hq' => ?_
    obtain ⟨j, hj, rfl⟩ := Option.map_eq_some_iff.mp hq
    obtain ⟨k, hk, he⟩ := Option.map_eq_some_iff.mp hq'
    obtain rfl := S.injective k (h.repr.lt_count hk) j (h.repr.lt_count hj) he
    exact h.repr.injective hj hk
  have htaken : s.taken.Nodup := by
    rw [h.taken]
    refine List.Nodup.map_on (fun i hi j hj he => ?_) List.nodup_range
    exact S.injective i (List.mem_range.mp hi) j (List.mem_range.mp hj) he
  rw [h.tables_root]
  refine ⟨(List.perm_ext_iff_of_nodup hnd htaken).mpr fun p => ?_, hnd⟩
  rw [List.mem_filterMap, h.taken, List.mem_map]
  constructor
  · rintro ⟨q, -, hp⟩
    obtain ⟨j, hj, rfl⟩ := Option.map_eq_some_iff.mp hp
    exact ⟨j, List.mem_range.mpr (h.repr.lt_count hj), rfl⟩
  · rintro ⟨j, hj, rfl⟩
    obtain ⟨q, hq⟩ := h.onto (List.mem_range.mp hj)
    exact ⟨q, mem_allPaths.mpr (h.repr.bound hq), by simp [pageAt, hq]⟩

/-! ### Freeing a table -/

/-- The pages `ps` are the table pages of `pt` and all that was taken for it; each is freed
once and ends up on the page list. The blocks `M` of other code stay live, with their
contents. -/
structure FreedTable (word : ℕ → ℕ) (kend pt : ℕ) (s s' : Kernel) (M : List (ℕ × ℕ))
    (ps : List ℕ) : Prop where
  freed : s'.freed = s.freed ++ ps
  once : ps.Nodup
  tables : ∀ p, p ∈ ps ↔ TablePage s.word pt p
  taken : ps.Perm s.taken
  listed : ∀ p ∈ ps, Listed s'.heap p
  others : ∀ p ∈ ps, Outside M p
  live : ∃ L, Reachable word kend s'.heap L ∧ L.Perm M
  kept : Kept M s.word s'.word

/-- In every state a run reaches, `free_pagetable(pt, 0)` returns, nesting its calls no more
than three deep, and frees exactly the table. -/
theorem free_pagetable_exact (h : Built word kend pt s M) :
    ∃ s' ps, (∀ depth, 3 ≤ depth → Kernel.freePagetable false depth s pt = .ok s') ∧
      FreedTable word kend pt s s' M ps := by
  obtain ⟨S, r, d, t, rfl, hb⟩ := h.intact
  obtain ⟨hperm, hnd⟩ := hb.tables_perm
  obtain ⟨L, hr, hL⟩ := hb.heap
  have hblocks : (pageBlocks s.taken).Perm (pageBlocks (tables s.word 3 (S.page r))) :=
    (hperm.map _).symm
  have hL' := hL.trans (hblocks.append_right M)
  obtain ⟨s', he, hrel, hk⟩ := frees word kend 3 s (S.page r) L M hr hb.shaped hL'
  refine ⟨s', _, he, hrel.freed, hnd, fun p => mem_tables hb.shaped, hperm,
    fun p hp => hrel.listed (Or.inl hp), fun p hp b hbM => ?_, hrel.heap, hk⟩
  have hmem : (p, PGSIZE) ∈ pageBlocks (tables s.word 3 (S.page r)) := mem_pageBlocks.mpr hp
  have hne : b ≠ (p, PGSIZE) := by
    rintro rfl
    exact List.disjoint_of_nodup_append (hL'.nodup hr.nodup) hmem hbM
  refine hr.outside (hL'.mem_iff.mpr (List.mem_append_left _ hmem)) (Owner.covers_start _) b ?_
  exact (List.mem_erase_of_ne hne).mpr (hL'.mem_iff.mpr (List.mem_append_right _ hbM))

/-- A table with one mapped page is its root and two tables below it. -/
theorem mapped_page_table_freed : ∃ pt s s' ps,
    Built (fun _ => 0) 0x80030000 pt s [] ∧ ps.length = 3 ∧
      (∀ depth, 3 ≤ depth → Kernel.freePagetable false depth s pt = .ok s') ∧
      FreedTable (fun _ => 0) 0x80030000 pt s s' [] ps := by
  have hok : (do
      let heap ← memInit (fun _ => 0) 0x80030000
      let r ← Kernel.vmCreate ⟨heap, [], []⟩
      let r ← r.2.vmMap r.1 0x1000 0x80200000 PGSIZE 22 false
      return r.2.taken.length) = Except.ok 3 := by decide +kernel
  obtain ⟨heap, hi, hok⟩ := bind_ok hok
  obtain ⟨⟨pt, s₀⟩, hc, hok⟩ := bind_ok hok
  obtain ⟨⟨ret, s⟩, hm, hok⟩ := bind_ok hok
  have hlen : s.taken.length = 3 := Except.ok.inj hok
  have hbuilt := (Built.create (Reachable.init hi) hc).map (by decide) hm
  obtain ⟨s', ps, he, hf⟩ := free_pagetable_exact hbuilt
  exact ⟨pt, s, s', ps, hbuilt, hf.taken.length_eq.trans hlen, he, hf⟩

end Zrhos.Vm
