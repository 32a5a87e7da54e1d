import Zrhos.Vm.Map
import Zrhos.Vm.Kernel
import Zrhos.Mem.Contents

/-! A page table on the heap: its pages are live blocks that nobody else owns, they form
the tree of `Repr`, and no leaf entry looks like a pointer to a table. -/
namespace Zrhos.Vm
open Mem

variable {word : ℕ → ℕ} {kend pt r : ℕ} {s s' : Kernel} {S S' S'' : Supply} {M L : List (ℕ × ℕ)}
  {d d' : Dir} {t : Table}

/-! ### Entries -/

theorem isPagetable_zero : isPagetable 0 = false := by decide

theorem PA2PTE_and (pa : ℕ) {m : ℕ} (hm : m < 2 ^ 10) : PA2PTE pa &&& m = 0 := by
  apply Nat.eq_of_testBit_eq
  intro i
  rw [Nat.testBit_and, PA2PTE, Nat.testBit_shiftLeft, Nat.zero_testBit]
  by_cases hi : 10 ≤ i
  · have : m.testBit i = false :=
      Nat.testBit_lt_two_pow (hm.trans_le (Nat.pow_le_pow_right (by decide) hi))
    simp [this]
  · simp [hi]

theorem sext32_and (x : ℕ) {m : ℕ} (hm : m < 2 ^ 31) : sext32 x &&& m = x &&& m := by
  apply Nat.eq_of_testBit_eq
  intro i
  rw [Nat.testBit_and, Nat.testBit_and, testBit_sext32]
  by_cases hi : i < 31
  · simp [min_eq_left hi.le, show i < 64 by omega]
  · have : m.testBit i = false :=
      Nat.testBit_lt_two_pow (hm.trans_le (Nat.pow_le_pow_right (by decide) (not_lt.mp hi)))
    simp [this]

theorem isPagetable_pointer (S : Supply) (j : ℕ) : isPagetable (pointer S (some j)) = true := by
  rw [isPagetable, decide_eq_true_eq, pointer]
  refine ⟨or_PTE_V_valid _, ?_⟩
  rw [Nat.and_or_distrib_right, PA2PTE_and _ (by decide)]
  rfl

theorem isPagetable_leaf (pa : ℕ) {perm : ℕ}
    (hp : perm &&& (PTE_R ||| PTE_W ||| PTE_X) ≠ 0) :
    isPagetable (PA2PTE pa ||| sext32 perm ||| PTE_V) = false := by
  rw [isPagetable, decide_eq_false_iff_not]
  rintro ⟨-, hz⟩
  rw [Nat.and_or_distrib_right, Nat.and_or_distrib_right, PA2PTE_and _ (by decide),
    sext32_and _ (by decide), Nat.zero_or] at hz
  exact hp (Nat.le_zero.mp (Nat.left_le_or.trans_eq hz))

/-! ### Supplies -/

/-- The pages of `S'` are those of `S`, and maybe more. -/
structure Supply.Extends (S S' : Supply) : Prop where
  count_le : S.count ≤ S'.count
  page_eq {i : ℕ} : i < S.count → S'.page i = S.page i

theorem Supply.Extends.refl (S : Supply) : S.Extends S := ⟨le_rfl, fun _ => rfl⟩

theorem Supply.Extends.trans (h : S.Extends S') (h' : S'.Extends S'') : S.Extends S'' :=
  ⟨h.count_le.trans h'.count_le, fun hi =>
    (h'.page_eq (hi.trans_le h.count_le)).trans (h.page_eq hi)⟩

def Supply.nil : Supply where
  page _ := 0
  count := 0
  injective i hi := absurd hi (Nat.not_lt_zero i)
  aligned i hi := absurd hi (Nat.not_lt_zero i)
  ne_null i hi := absurd hi (Nat.not_lt_zero i)
  fits i hi := absurd hi (Nat.not_lt_zero i)

def Supply.push (S : Supply) (p : ℕ) (hp : p % PGSIZE = 0 ∧ p ≠ 0 ∧ p + PGSIZE ≤ WORD)
    (hnew : ∀ i < S.count, S.page i ≠ p) : Supply where
  page := Function.update S.page S.count p
  count := S.count + 1
  injective i hi j hj h := by
    rcases Nat.lt_succ_iff_lt_or_eq.mp hi with hi | rfl <;>
      rcases Nat.lt_succ_iff_lt_or_eq.mp hj with hj | rfl
    · rw [Function.update_of_ne hi.ne, Function.update_of_ne hj.ne] at h
      exact S.injective i hi j hj h
    · rw [Function.update_of_ne hi.ne, Function.update_self] at h
      exact absurd h (hnew i hi)
    · rw [Function.update_self, Function.update_of_ne hj.ne] at h
      exact absurd h.symm (hnew j hj)
    · rfl
  aligned i hi := by
    rcases Nat.lt_succ_iff_lt_or_eq.mp hi with hi | rfl
    · rw [Function.update_of_ne hi.ne]
      exact S.aligned i hi
    · rw [Function.update_self]
      exact hp.1
  ne_null i hi := by
    rcases Nat.lt_succ_iff_lt_or_eq.mp hi with hi | rfl
    · rw [Function.update_of_ne hi.ne]
      exact S.ne_null i hi
    · rw [Function.update_self]
      exact hp.2.1
  fits i hi := by
    rcases Nat.lt_succ_iff_lt_or_eq.mp hi with hi | rfl
    · rw [Function.update_of_ne hi.ne]
      exact S.fits i hi
    · rw [Function.update_self]
      exact hp.2.2

theorem Repr.extend {u : Ram} (h : Repr S r u d t) (he : S.Extends S') : Repr S' r u d t := by
  refine ⟨h.root, h.next_le.trans he.count_le, h.issued, h.injective, fun {q j} hj i hi => ?_,
    h.parent, h.bound, h.absent⟩
  have hpointer (o : Option ℕ) (ho : ∀ k, o = some k → k < S.count) :
      pointer S' o = pointer S o := by
    cases o with
    | none => rfl
    | some k => rw [pointer, pointer, he.page_eq (ho k rfl)]
  rw [he.page_eq (h.lt_count hj), h.words hj i hi]
  cases q with
  | root => exact (hpointer _ fun k hk => h.lt_count hk).symm
  | mid a => exact (hpointer _ fun k hk => h.lt_count hk).symm
  | low a b => rfl

theorem Repr.rewrite {u u' : Ram} (h : Repr S r u d t) (hn : u'.next = u.next)
    (hw : ∀ q j, d q = some j → ∀ i < 512,
      u'.word (entry (S.page j) i) = u.word (entry (S.page j) i)) : Repr S r u' d t :=
  ⟨h.root, hn ▸ h.next_le, fun hj => hn ▸ h.issued hj, h.injective,
    fun hj i hi => (hw _ _ hj i hi).trans (h.words hj i hi), h.parent, h.bound, h.absent⟩

/-! ### Table pages as live blocks -/

/-- The blocks of the pages `T`. -/
def pageBlocks (T : List ℕ) : List (ℕ × ℕ) := T.map fun p => (p, PGSIZE)

theorem mem_pageBlocks {T : List ℕ} {p : ℕ} : (p, PGSIZE) ∈ pageBlocks T ↔ p ∈ T := by
  simp [pageBlocks]

theorem covers_entry (p : ℕ) {i : ℕ} (hi : i < 512) :
    (Owner.live (p, PGSIZE)).Covers (entry p i) := by
  change p ≤ entry p i ∧ entry p i < p + capacity PGSIZE
  rw [capacity_PGSIZE]
  simp only [entry, PGSIZE]
  omega

/-- The memory the table code sees. -/
def Kernel.ram (s : Kernel) : Ram := ⟨s.word, s.taken.length, s.freed⟩

/-- The live blocks are the pages taken for the table and the blocks `M` of others. -/
structure Backed (word : ℕ → ℕ) (kend : ℕ) (s : Kernel) (M : List (ℕ × ℕ)) (S : Supply) (r : ℕ)
    (d : Dir) (t : Table) : Prop where
  heap : ∃ L, Reachable word kend s.heap L ∧ L.Perm (pageBlocks s.taken ++ M)
  taken : s.taken = (List.range S.count).map S.page
  repr : Repr S r s.ram d t
  onto {i : ℕ} : i < S.count → ∃ q, d q = some i
  leafy : ∀ v, isPagetable (t v) = false

theorem Backed.length (h : Backed word kend s M S r d t) : s.taken.length = S.count := by
  rw [h.taken, List.length_map, List.length_range]

theorem Backed.mem_taken (h : Backed word kend s M S r d t) {q : Path} {j : ℕ}
    (hj : d q = some j) : S.page j ∈ s.taken := by
  rw [h.taken]
  exact List.mem_map_of_mem (List.mem_range.mpr (h.repr.lt_count hj))

/-- Code that leaves the table pages and their contents alone leaves the table alone. -/
theorem Backed.reheap (h : Backed word kend s M S r d t) {N : List (ℕ × ℕ)}
    (ht : s'.taken = s.taken)
    (hheap : ∃ L, Reachable word kend s'.heap L ∧ L.Perm (pageBlocks s.taken ++ N))
    (hw : ∀ p ∈ s.taken, ∀ i < 512, s'.word (entry p i) = s.word (entry p i)) :
    Backed word kend s' N S r d t where
  heap := by rwa [ht]
  taken := ht.trans h.taken
  repr := h.repr.rewrite (congrArg List.length ht)
    fun _ _ hj i hi => hw _ (h.mem_taken hj) i hi
  onto := h.onto
  leafy := h.leafy

/-! ### Other code -/

theorem Backed.malloc (h : Backed word kend s M S r d t) {size p : ℕ} {heap : Heap}
    (hsize : size ≤ 2 ^ 24) (he : mmMalloc s.heap size = .ok (p, heap)) :
    Backed word kend { s with heap := heap } ((p, size) :: M) S r d t := by
  obtain ⟨L, hr, hL⟩ := h.heap
  refine h.reheap rfl ⟨_, hr.malloc hsize he, (hL.cons _).trans List.perm_middle.symm⟩
    fun q hq i hi => ?_
  have hmem : (q, PGSIZE) ∈ L :=
    hL.mem_iff.mpr (List.mem_append_left _ (mem_pageBlocks.mpr hq))
  exact hr.malloc_kept hsize he _ hmem _ (covers_entry q hi)

theorem Backed.free (h : Backed word kend s M S r d t) {b : ℕ × ℕ} {heap : Heap} (hb : b ∈ M)
    (he : mmFree s.heap b.1 = .ok heap) (freed : List ℕ) :
    Backed word kend { s with heap := heap, freed := freed } (M.erase b) S r d t := by
  obtain ⟨L, hr, hL⟩ := h.heap
  have hbL : b ∈ L := hL.mem_iff.mpr (List.mem_append_right _ hb)
  have hnot : b ∉ pageBlocks s.taken := fun hin =>
    List.disjoint_of_nodup_append (hL.nodup hr.nodup) hin hb
  refine h.reheap rfl ⟨_, hr.free hbL he, ?_⟩ fun q hq i hi => ?_
  · rw [← List.erase_append_right _ hnot]
    exact hL.erase b
  · have hmem : (q, PGSIZE) ∈ pageBlocks s.taken := mem_pageBlocks.mpr hq
    refine hr.free_kept hbL he (q, PGSIZE) ?_ _ (covers_entry q hi)
    refine (List.mem_erase_of_ne ?_).mpr (hL.mem_iff.mpr (List.mem_append_left _ hmem))
    rintro rfl
    exact hnot hmem

theorem Backed.store (h : Backed word kend s M S r d t) {b : ℕ × ℕ} {w : ℕ → ℕ} (hb : b ∈ M)
    (hw : ∀ a, a + 8 ≤ b.1 ∨ b.1 + b.2 ≤ a → w a = s.word a) :
    Backed word kend { s with heap := { s.heap with word := w } } M S r d t := by
  obtain ⟨L, hr, hL⟩ := h.heap
  have hbL : b ∈ L := hL.mem_iff.mpr (List.mem_append_right _ hb)
  refine h.reheap rfl ⟨L, hr.store hbL hw, hL⟩ fun q hq i hi => ?_
  have hmem : (q, PGSIZE) ∈ pageBlocks s.taken := mem_pageBlocks.mpr hq
  refine hr.store_kept hbL (hL.mem_iff.mpr (List.mem_append_left _ hmem)) ?_ hw
    (covers_entry q hi).1 ?_
  · rintro rfl
    exact List.disjoint_of_nodup_append (hL.nodup hr.nodup) hmem hb
  · rw [capacity_PGSIZE]
    simp only [entry, PGSIZE]
    omega

/-! ### The table code -/

theorem Backed.mem_live (h : Backed word kend s M S r d t) (hL : L.Perm (pageBlocks s.taken ++ M))
    {q : Path} {j : ℕ} (hj : d q = some j) : (S.page j, PGSIZE) ∈ L :=
  hL.mem_iff.mpr (List.mem_append_left _ (mem_pageBlocks.mpr (h.mem_taken hj)))

theorem clearPage_outside {p a : ℕ} (ha : a + 8 ≤ p ∨ p + PGSIZE ≤ a) :
    (s.clearPage p).word a = s.word a := by
  have hout : ¬ (p ≤ a ∧ a < p + PGSIZE) := by omega
  exact if_neg hout

/-- A page from the allocator extends the supply. -/
theorem Backed.newPage (h : Backed word kend s M S r d t) {p : ℕ} {heap : Heap}
    (he : mmMalloc s.heap PGSIZE = .ok (p, heap)) :
    p ≠ 0 ∧ ∃ S', S.Extends S' ∧ S'.count = S.count + 1 ∧ S'.page S.count = p ∧
      s.taken ++ [p] = (List.range S'.count).map S'.page := by
  obtain ⟨L, hr, hL⟩ := h.heap
  have hm := hr.malloc (by decide) he
  have hp := hm.page_bounds List.mem_cons_self
  have hnew (i : ℕ) (hi : i < S.count) : S.page i ≠ p := by
    rintro rfl
    obtain ⟨q, hq⟩ := h.onto hi
    exact (List.nodup_cons.mp hm.nodup).1 (h.mem_live hL hq)
  have hold {i : ℕ} (hi : i < S.count) : (S.push p hp hnew).page i = S.page i :=
    Function.update_of_ne hi.ne _ _
  have hself : (S.push p hp hnew).page S.count = p := Function.update_self _ _ _
  refine ⟨hp.2.1, S.push p hp hnew, ⟨Nat.le_succ _, hold⟩, rfl, hself, ?_⟩
  change _ = (List.range (S.count + 1)).map _
  rw [List.range_succ, List.map_append, h.taken, List.map_singleton, hself]
  congr 1
  exact List.map_congr_left fun i hi => (hold (List.mem_range.mp hi)).symm

/-- `walk` hangs a cleared page of the allocator into the tree. -/
theorem Backed.grow (h : Backed word kend s M S r d t) {q : Path} {j i p : ℕ} {heap : Heap}
    (hq : q.Inner) (hi : i < 512) (hj : d q = some j) (hc : d (q.child i) = none)
    (he : mmMalloc s.heap PGSIZE = .ok (p, heap)) :
    p ≠ 0 ∧ ∃ S', S.Extends S' ∧ S'.page S.count = p ∧
      Backed word kend ((Kernel.clearPage ⟨heap, s.taken ++ [p], s.freed⟩ p).setWord
        (entry (S.page j) i) (PA2PTE p ||| PTE_V)) M S' r
        (Function.update d (q.child i) (some S.count)) t := by
  obtain ⟨hp0, S', hext, hcount, hpage, htaken⟩ := h.newPage he
  obtain ⟨L, hr, hL⟩ := h.heap
  have hm := hr.malloc (by decide) he
  have hjL := h.mem_live hL hj
  set s₁ : Kernel := ⟨heap, s.taken ++ [p], s.freed⟩ with hs₁
  have hclear : Reachable word kend (s₁.clearPage p).heap ((p, PGSIZE) :: L) :=
    hm.store List.mem_cons_self fun a ha => clearPage_outside ha
  have hset := hclear.setWord (List.mem_cons_of_mem _ hjL) (entry_mem S hi) (PA2PTE p ||| PTE_V)
  have hkept : Repr S r ⟨heap.word, S.count, s.freed⟩ d t :=
    h.repr.rewrite h.length.symm fun q' k hk i' hi' =>
      hr.malloc_kept (by decide) he _ (h.mem_live hL hk) _ (covers_entry _ hi')
  have hgrow := (hkept.extend hext).grow hq hi hj hc (by simp only; omega)
  refine ⟨hp0, S', hext, hpage, ⟨⟨_, hset, ?_⟩, htaken, ?_, fun {k} hk => ?_, h.leafy⟩⟩
  · have hlist : pageBlocks s₁.taken ++ M = pageBlocks s.taken ++ (p, PGSIZE) :: M := by
      simp [hs₁, pageBlocks]
    change List.Perm _ (pageBlocks s₁.taken ++ M)
    rw [hlist]
    exact (hL.cons _).trans List.perm_middle.symm
  · simp only [hext.page_eq (h.repr.lt_count hj), hpage] at hgrow
    have hlen : s₁.taken.length = S.count + 1 := by simp [hs₁, h.length]
    have hram : ((s₁.clearPage p).setWord (entry (S.page j) i) (PA2PTE p ||| PTE_V)).ram =
        setWord (clearPage ⟨heap.word, S.count + 1, s.freed⟩ p) (entry (S.page j) i)
          (PA2PTE p ||| PTE_V) := by
      unfold Kernel.ram
      rw [show ((s₁.clearPage p).setWord (entry (S.page j) i) (PA2PTE p ||| PTE_V)).taken.length =
        S.count + 1 from hlen]
      rfl
    rwa [hram]
  · by_cases hnew : k = S.count
    · exact ⟨q.child i, by rw [hnew, Function.update_self]⟩
    · obtain ⟨q', hq'⟩ := h.onto (show k < S.count by omega)
      refine ⟨q', ?_⟩
      rw [Function.update_of_ne, hq']
      rintro rfl
      rw [hc] at hq'
      cases hq'

theorem Backed.word_inner (h : Backed word kend s M S r d t) {q : Path} {j i : ℕ} (hq : q.Inner)
    (hi : i < 512) (hj : d q = some j) :
    s.word (entry (S.page j) i) = pointer S (d (q.child i)) :=
  (h.repr.words hj i hi).trans (content_inner hq i)

theorem Backed.walkStep (h : Backed word kend s M S r d t) {q : Path} {j va level : ℕ}
    {alloc : Bool} {o : Option ℕ} (hq : q.Inner) (hj : d q = some j)
    (he : s.walkStep (S.page j) va level alloc = .ok (o, s')) :
    ∃ S' d', S.Extends S' ∧ Backed word kend s' M S' r d' t ∧
      ∀ p, o = some p → ∃ k, d' (q.child (PX level va)) = some k ∧ p = S'.page k := by
  have hw := h.word_inner hq (PX_lt level va) hj
  unfold Kernel.walkStep at he
  cases hk : d (q.child (PX level va)) with
  | some k =>
    rw [hk] at hw
    obtain ⟨hv, hp⟩ := pointer_valid S (h.repr.lt_count hk)
    simp only [hw, if_pos hv, hp] at he
    cases he
    refine ⟨S, d, Supply.Extends.refl S, h, fun p hp' => ⟨k, hk, ?_⟩⟩
    cases hp'
    rfl
  | none =>
    rw [hk] at hw
    have hv : ¬ pointer S none &&& PTE_V ≠ 0 := by simp [pointer]
    simp only [hw, if_neg hv] at he
    cases alloc with
    | false =>
      cases he
      exact ⟨S, d, Supply.Extends.refl S, h, fun p hp => by cases hp⟩
    | true =>
      obtain ⟨⟨p, s₁⟩, hpage, he⟩ := bind_ok he
      obtain ⟨⟨p', heap⟩, hm, hs₁⟩ := bind_ok hpage
      cases hs₁
      obtain ⟨hp0, S', hext, hpage, hb⟩ := h.grow hq (PX_lt level va) hj hk hm
      dsimp only at he
      rw [if_neg hp0] at he
      cases he
      refine ⟨S', _, hext, hb, fun p' hp' => ⟨S.count, Function.update_self _ _ _, ?_⟩⟩
      cases hp'
      exact hpage.symm

/-- `walk` keeps the table and returns the address of a leaf entry. -/
theorem Backed.walk (h : Backed word kend s M S r d t) {va : ℕ} {alloc : Bool} {o : Option ℕ}
    (he : s.walk (S.page r) va alloc = .ok (o, s')) :
    ∃ S' d', S.Extends S' ∧ Backed word kend s' M S' r d' t ∧ ∀ a, o = some a →
      ∃ k, d' (.low (PX 2 va) (PX 1 va)) = some k ∧ a = entry (S'.page k) (PX 0 va) := by
  obtain ⟨⟨mid, s₁⟩, h₁, he⟩ := bind_ok he
  obtain ⟨S₁, d₁, hext₁, hb₁, hmid⟩ := h.walkStep (q := .root) trivial h.repr.root h₁
  cases mid with
  | none =>
    cases he
    exact ⟨S₁, d₁, hext₁, hb₁, fun a ha => by cases ha⟩
  | some mid =>
    obtain ⟨j, hj, rfl⟩ := hmid mid rfl
    obtain ⟨⟨low, s₂⟩, h₂, he⟩ := bind_ok he
    obtain ⟨S₂, d₂, hext₂, hb₂, hlow⟩ := hb₁.walkStep (q := .mid (PX 2 va)) trivial hj h₂
    cases he
    refine ⟨S₂, d₂, hext₁.trans hext₂, hb₂, fun a ha => ?_⟩
    obtain ⟨p, hp, rfl⟩ := Option.map_eq_some_iff.mp ha
    obtain ⟨k, hk, rfl⟩ := hlow p hp
    exact ⟨k, hk, rfl⟩

/-- Storing a leaf entry. -/
theorem Backed.setLeaf (h : Backed word kend s M S r d t) {k va v : ℕ}
    (hk : d (.low (PX 2 va) (PX 1 va)) = some k) (hv : isPagetable v = false) :
    Backed word kend (s.setWord (entry (S.page k) (PX 0 va)) v) M S r d
      (Function.update t (vpn va) v) := by
  obtain ⟨L, hr, hL⟩ := h.heap
  refine ⟨⟨L, hr.setWord (h.mem_live hL hk) (entry_mem S (PX_lt 0 va)) v, hL⟩, h.taken,
    h.repr.setLeaf hk v, h.onto, fun w => ?_⟩
  by_cases hw : w = vpn va
  · rw [hw, Function.update_self, hv]
  · rw [Function.update_of_ne hw]
    exact h.leafy w

/-! ### Runs -/

/-- The table at `pt` is sound, and `M` are the live blocks of other code. -/
def Intact (word : ℕ → ℕ) (kend pt : ℕ) (s : Kernel) (M : List (ℕ × ℕ)) : Prop :=
  ∃ S r d t, pt = S.page r ∧ Backed word kend s M S r d t

theorem Backed.intact (h : Backed word kend s M S' r d t) (hext : S.Extends S')
    (hr : r < S.count) : Intact word kend (S.page r) s M :=
  ⟨S', r, d, t, (hext.page_eq hr).symm, h⟩

theorem Intact.vmMapLoop {fuel last perm va pa : ℕ} {remap : Bool} {ret : ℤ}
    (h : Intact word kend pt s M) (hp : perm &&& (PTE_R ||| PTE_W ||| PTE_X) ≠ 0)
    (he : Kernel.vmMapLoop pt last perm remap fuel s va pa = .ok (ret, s')) :
    Intact word kend pt s' M := by
  induction fuel generalizing s va pa with
  | zero => cases he
  | succ fuel ih =>
    obtain ⟨S, r, d, t, rfl, hb⟩ := h
    have hr := hb.repr.lt_count hb.repr.root
    obtain ⟨⟨o, s₁⟩, hwalk, he⟩ := bind_ok he
    obtain ⟨S₁, d₁, hext, hb₁, hleaf⟩ := hb.walk hwalk
    cases o with
    | none =>
      cases he
      exact hb₁.intact hext hr
    | some pte =>
      obtain ⟨k, hk, rfl⟩ := hleaf pte rfl
      have hset := hb₁.setLeaf hk (isPagetable_leaf pa hp)
      dsimp only at he
      split_ifs at he
      · cases he
        exact hset.intact hext hr
      · exact ih (hset.intact hext hr) he

theorem memFree_inv {p : ℕ} (he : s.memFree p = .ok s') :
    ∃ heap, mmFree s.heap p = .ok heap ∧
      s' = { s with heap := heap, freed := s.freed ++ [p] } := by
  obtain ⟨heap, hf, he⟩ := bind_ok he
  cases he
  exact ⟨heap, hf, rfl⟩

theorem walkStep_freed {p va level : ℕ} {alloc : Bool} {o : Option ℕ}
    (he : s.walkStep p va level alloc = .ok (o, s')) : s'.freed = s.freed := by
  unfold Kernel.walkStep at he
  dsimp only at he
  split_ifs at he with hv ha
  · cases he
    rfl
  · cases he
    rfl
  · obtain ⟨⟨q, s₁⟩, hm, he⟩ := bind_ok he
    obtain ⟨⟨q', heap⟩, -, hs₁⟩ := bind_ok hm
    cases hs₁
    dsimp only at he
    split_ifs at he <;> cases he <;> rfl

theorem walk_freed {p va : ℕ} {alloc : Bool} {o : Option ℕ}
    (he : s.walk p va alloc = .ok (o, s')) : s'.freed = s.freed := by
  obtain ⟨⟨mid, s₁⟩, h₁, he⟩ := bind_ok he
  have hmid := walkStep_freed h₁
  cases mid with
  | none =>
    cases he
    exact hmid
  | some mid =>
    obtain ⟨⟨low, s₂⟩, h₂, he⟩ := bind_ok he
    cases he
    exact (walkStep_freed h₂).trans hmid

/-- One turn of `vm_unmap`: it looks the entry up, frees the page if it is told to, and
clears the entry. -/
theorem vmUnmapLoop_turn {fuel stop a : ℕ} {doFree : Bool}
    (he : Kernel.vmUnmapLoop pt stop doFree (fuel + 1) s a = .ok s') :
    s' = s ∨ ∃ pte s₁ s₂ ps, s.walk pt a false = .ok (some pte, s₁) ∧
      ((ps = [] ∧ s₂ = s₁) ∨ ∃ heap, ps = [PTE2PA (s₁.word pte)] ∧
        mmFree s₁.heap (PTE2PA (s₁.word pte)) = .ok heap ∧
        s₂ = { s₁ with heap := heap, freed := s₁.freed ++ ps }) ∧
      Kernel.vmUnmapLoop pt stop doFree fuel (s₂.setWord pte 0) ((a + PGSIZE) % WORD) = .ok s' ∧
      s₂.freed = s.freed ++ ps := by
  unfold Kernel.vmUnmapLoop at he
  by_cases hstop : a < stop
  · rw [if_pos hstop] at he
    obtain ⟨⟨o, s₁⟩, hwalk, he⟩ := bind_ok he
    have hlog := walk_freed hwalk
    cases o with
    | none => cases he
    | some pte =>
      dsimp only at he
      by_cases hv : s₁.word pte &&& PTE_V = 0
      · rw [if_pos hv] at he
        cases he
      rw [if_neg hv] at he
      by_cases hl : PTE_FLAGS (s₁.word pte) = PTE_V
      · rw [if_pos hl] at he
        cases he
      rw [if_neg hl] at he
      cases doFree with
      | false =>
        exact Or.inr ⟨pte, s₁, s₁, [], hwalk, Or.inl ⟨rfl, rfl⟩, he, by rw [hlog, List.append_nil]⟩
      | true =>
        rw [if_pos rfl] at he
        obtain ⟨s₂, hfree, he⟩ := bind_ok he
        obtain ⟨heap, hf, rfl⟩ := memFree_inv hfree
        exact Or.inr ⟨pte, s₁, _, _, hwalk, Or.inr ⟨heap, rfl, hf, rfl⟩, he, by rw [hlog]⟩
  · rw [if_neg hstop] at he
    cases he
    exact Or.inl rfl

theorem vmUnmapLoop_freed {fuel stop a : ℕ} {doFree : Bool}
    (he : Kernel.vmUnmapLoop pt stop doFree fuel s a = .ok s') :
    ∃ ps, s'.freed = s.freed ++ ps := by
  induction fuel generalizing s a with
  | zero => cases he
  | succ fuel ih =>
    rcases vmUnmapLoop_turn he with rfl | ⟨pte, s₁, s₂, ps, -, -, he, hlog⟩
    · exact ⟨[], (List.append_nil _).symm⟩
    · obtain ⟨qs, hqs⟩ := ih he
      refine ⟨ps ++ qs, ?_⟩
      change s'.freed = s₂.freed ++ qs at hqs
      rw [hqs, hlog, List.append_assoc]

/-- `vm_unmap` keeps the table; the pages it frees, if any, must be blocks of others. -/
theorem Intact.vmUnmapLoop {fuel stop a : ℕ} {doFree : Bool} {fs : List (ℕ × ℕ)}
    (h : Intact word kend pt s M)
    (he : Kernel.vmUnmapLoop pt stop doFree fuel s a = .ok s')
    (hfreed : s'.freed = s.freed ++ fs.map Prod.fst) (hnd : fs.Nodup) (hsub : fs ⊆ M) :
    Intact word kend pt s' (M.diff fs) := by
  induction fuel generalizing s M fs a with
  | zero => cases he
  | succ fuel ih =>
    obtain ⟨S, r, d, t, rfl, hb⟩ := h
    have hr := hb.repr.lt_count hb.repr.root
    rcases vmUnmapLoop_turn he with rfl | ⟨pte, s₁, s₂, ps, hwalk, hs₂, he, hlog⟩
    · have hnil : fs = [] := by simpa using hfreed
      rw [hnil, List.diff_nil]
      exact ⟨S, r, d, t, rfl, hb⟩
    · obtain ⟨S₁, d₁, hext, hb₁, hleaf⟩ := hb.walk hwalk
      obtain ⟨k, hk, rfl⟩ := hleaf pte rfl
      obtain ⟨qs, hqs⟩ := vmUnmapLoop_freed he
      change s'.freed = s₂.freed ++ qs at hqs
      have hsplit : fs.map Prod.fst = ps ++ qs := by
        rw [hqs, hlog, List.append_assoc] at hfreed
        exact (List.append_cancel_left hfreed).symm
      rcases hs₂ with ⟨rfl, rfl⟩ | ⟨heap, rfl, hf, rfl⟩
      · refine ih ((hb₁.setLeaf hk isPagetable_zero).intact hext hr) he ?_ hnd hsub
        rw [hqs, hsplit]
        rfl
      · cases fs with
        | nil => cases hsplit
        | cons b fs =>
          obtain ⟨hpa, hrest⟩ := List.cons.inj hsplit
          have hqs' : qs = fs.map Prod.fst := hrest.symm
          have hbM : b ∈ M := hsub List.mem_cons_self
          rw [← hpa] at hf
          have hfree := hb₁.free hbM hf (s₁.freed ++ [PTE2PA (s₁.word (entry (S₁.page k) (PX 0 a)))])
          rw [List.diff_cons]
          refine ih ((hfree.setLeaf hk isPagetable_zero).intact hext hr) he ?_
            (List.nodup_cons.mp hnd).2 fun c hc => ?_
          · rw [hqs, hqs']
            rfl
          · refine (List.mem_erase_of_ne ?_).mpr (hsub (List.mem_cons_of_mem _ hc))
            rintro rfl
            exact (List.nodup_cons.mp hnd).1 hc

theorem Intact.fresh {p : ℕ} {heap heap' : Heap} (hr : Reachable word kend heap M)
    (hm : mmMalloc heap PGSIZE = .ok (p, heap')) :
    p ≠ 0 ∧ Intact word kend p (Kernel.clearPage ⟨heap', [p], []⟩ p) M := by
  have hmal := hr.malloc (by decide) hm
  have hp := hmal.page_bounds List.mem_cons_self
  have hclear : Reachable word kend (Kernel.clearPage ⟨heap', [p], []⟩ p).heap
      ((p, PGSIZE) :: M) := hmal.store List.mem_cons_self fun a ha => clearPage_outside ha
  let S := Supply.nil.push p hp fun i hi => absurd hi (Nat.not_lt_zero i)
  have hpage : S.page 0 = p := by
    change Function.update Supply.nil.page 0 p 0 = p
    exact Function.update_self _ _ _
  have hcreate : vmCreate S ⟨heap'.word, 0, []⟩ =
      .ok (p, clearPage ⟨heap'.word, 1, []⟩ p) := by
    have hlt : 0 < S.count := Nat.one_pos
    simp [vmCreate, memMalloc, hlt, hpage, hp.2.1, bind, Except.bind, pure, Except.pure]
  refine ⟨hp.2.1, ?_⟩
  rcases vmCreate_spec (S := S) ⟨heap'.word, 0, []⟩ with ⟨hf, -⟩ | ⟨u, d, hu, hrepr⟩
  · rw [hcreate] at hf
    cases hf
  · rw [hcreate] at hu
    cases hu
    refine ⟨S, 0, d, fun _ => 0, hpage.symm, ⟨_, hclear, List.Perm.refl _⟩, ?_, hrepr,
      fun {i} hi => ?_, fun _ => isPagetable_zero⟩
    · change [p] = [S.page 0]
      rw [hpage]
    · obtain rfl : i = 0 := Nat.lt_one_iff.mp hi
      exact ⟨.root, hrepr.root⟩

theorem Intact.create {heap : Heap} (hr : Reachable word kend heap M)
    (he : Kernel.vmCreate ⟨heap, [], []⟩ = .ok (pt, s)) : Intact word kend pt s M := by
  obtain ⟨⟨p, s₁⟩, hpage, he⟩ := bind_ok he
  obtain ⟨⟨p', heap'⟩, hm, hs₁⟩ := bind_ok hpage
  cases hs₁
  obtain ⟨hp0, hi⟩ := Intact.fresh hr hm
  dsimp only at he
  rw [if_neg hp0] at he
  cases he
  exact hi

/-- A table created by `vm_create`, the calls on it, and other code of the kernel, which
allocates and frees blocks and writes to its own. -/
inductive Built (word : ℕ → ℕ) (kend : ℕ) : ℕ → Kernel → List (ℕ × ℕ) → Prop where
  | create {heap : Heap} {M : List (ℕ × ℕ)} {pt : ℕ} {s : Kernel} : Reachable word kend heap M →
      Kernel.vmCreate ⟨heap, [], []⟩ = .ok (pt, s) → Built word kend pt s M
  | map {pt : ℕ} {s s' : Kernel} {M : List (ℕ × ℕ)} {va pa sz perm : ℕ} {remap : Bool} {ret : ℤ} :
      Built word kend pt s M → perm &&& (PTE_R ||| PTE_W ||| PTE_X) ≠ 0 →
      s.vmMap pt va pa sz perm remap = .ok (ret, s') → Built word kend pt s' M
  | unmap {pt : ℕ} {s s' : Kernel} {M fs : List (ℕ × ℕ)} {va npages : ℕ} {doFree : Bool} :
      Built word kend pt s M → s.vmUnmap pt va npages doFree = .ok s' →
      s'.freed = s.freed ++ fs.map Prod.fst → fs.Nodup → fs ⊆ M →
      Built word kend pt s' (M.diff fs)
  | malloc {pt : ℕ} {s : Kernel} {M : List (ℕ × ℕ)} {size p : ℕ} {heap : Heap} :
      Built word kend pt s M → size ≤ 2 ^ 24 → mmMalloc s.heap size = .ok (p, heap) →
      Built word kend pt { s with heap := heap } ((p, size) :: M)
  | free {pt : ℕ} {s : Kernel} {M : List (ℕ × ℕ)} {b : ℕ × ℕ} {heap : Heap} :
      Built word kend pt s M → b ∈ M → mmFree s.heap b.1 = .ok heap →
      Built word kend pt { s with heap := heap } (M.erase b)
  | store {pt : ℕ} {s : Kernel} {M : List (ℕ × ℕ)} {b : ℕ × ℕ} {w : ℕ → ℕ} :
      Built word kend pt s M → b ∈ M →
      (∀ a, a + 8 ≤ b.1 ∨ b.1 + b.2 ≤ a → w a = s.word a) →
      Built word kend pt { s with heap := { s.heap with word := w } } M

theorem Built.intact (h : Built word kend pt s M) : Intact word kend pt s M := by
  induction h with
  | create hr he => exact Intact.create hr he
  | map _ hp he ih => exact ih.vmMapLoop hp he
  | unmap _ he hfreed hnd hsub ih =>
    unfold Kernel.vmUnmap at he
    split_ifs at he
    exact ih.vmUnmapLoop he hfreed hnd hsub
  | malloc _ hsize he ih =>
    obtain ⟨S, r, d, t, rfl, hb⟩ := ih
    exact ⟨S, r, d, t, rfl, hb.malloc hsize he⟩
  | free _ hm he ih =>
    obtain ⟨S, r, d, t, rfl, hb⟩ := ih
    exact ⟨S, r, d, t, rfl, hb.free hm he _⟩
  | store _ hm hw ih =>
    obtain ⟨S, r, d, t, rfl, hb⟩ := ih
    exact ⟨S, r, d, t, rfl, hb.store hm hw⟩

end Zrhos.Vm
