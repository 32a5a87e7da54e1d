import Zrhos.Mem.Model
import Zrhos.Lib.Chain

/-! The ownership invariant of the heap. Every byte between the page array and
`heap_top` belongs to at most one owner: a block of a slab list, a page of the page
list, or a live block. The operations move bytes between owners through an unowned
range, so each of them is a few applications of the transfer lemmas below. -/
namespace Zrhos.Mem
open LinkedList

/-! ### Size classes -/

theorem log2Loop_covers {size fuel pos : ℕ} (h : size ≤ 2 ^ (pos + fuel)) :
    size ≤ 2 ^ log2Loop size fuel pos := by
  induction fuel generalizing pos with
  | zero => simpa [log2Loop] using h
  | succ fuel ih =>
    unfold log2Loop
    split_ifs with hp
    · exact ih (by rwa [show pos + 1 + fuel = pos + (fuel + 1) by omega])
    · omega

theorem log2Loop_le {size fuel pos m : ℕ} (h : size ≤ 2 ^ m) (hp : pos ≤ m) :
    log2Loop size fuel pos ≤ m := by
  induction fuel generalizing pos with
  | zero => simpa [log2Loop] using hp
  | succ fuel ih =>
    unfold log2Loop
    split_ifs with hs
    · refine ih (Nat.succ_le_of_lt (lt_of_le_of_ne hp ?_))
      rintro rfl
      omega
    · exact hp

/-- The class `mm_malloc` computes for a request. -/
def classOf (size : ℕ) : ℕ := if log2 size > 3 then log2 size else 3

@[simp] theorem PAGEPOS_eq : PAGEPOS = 12 := by decide

theorem three_le_classOf (size : ℕ) : 3 ≤ classOf size := by
  unfold classOf
  split_ifs <;> omega

theorem le_two_pow_classOf {size : ℕ} (h : size ≤ 2 ^ 24) : size ≤ 2 ^ classOf size := by
  have hl : size ≤ 2 ^ log2 size := log2Loop_covers (by omega)
  refine hl.trans (Nat.pow_le_pow_right (by omega) ?_)
  unfold classOf
  split_ifs <;> omega

theorem PGSIZE_lt_of_classOf {size : ℕ} (h : 12 < classOf size) : PGSIZE < size := by
  by_contra hs
  have hl : log2 size ≤ 12 := log2Loop_le (not_lt.mp hs) (by omega)
  unfold classOf at h
  split_ifs at h <;> omega

/-- Pages of a multi-page request. -/
def pagesOf (size : ℕ) : ℕ := (size + PGSIZE - 1) / PGSIZE

/-- Bytes set aside for a request. -/
def capacity (size : ℕ) : ℕ :=
  if classOf size ≤ PAGEPOS then 2 ^ classOf size else pagesOf size * PGSIZE

/-- The tag of the page in which the block of a request starts. -/
def tagOf (size : ℕ) : ℕ :=
  if classOf size ≤ PAGEPOS then 1 ||| 2 ^ classOf size else BIGBIT ||| pagesOf size

theorem two_le_pagesOf {size : ℕ} (h : 12 < classOf size) : 2 ≤ pagesOf size := by
  have hs := PGSIZE_lt_of_classOf h
  unfold pagesOf
  simp only [PGSIZE] at hs ⊢
  omega

theorem pagesOf_le {size : ℕ} (h : size ≤ 2 ^ 24) : pagesOf size ≤ 4096 := by
  unfold pagesOf
  simp only [PGSIZE]
  omega

theorem capacity_pos (size : ℕ) : 0 < capacity size := by
  unfold capacity
  split_ifs with h
  · positivity
  · have := two_le_pagesOf (not_le.mp (by simpa using h))
    simp only [PGSIZE]
    omega

theorem le_capacity {size : ℕ} (h : size ≤ 2 ^ 24) : size ≤ capacity size := by
  unfold capacity
  split_ifs with hc
  · exact le_two_pow_classOf h
  · simp only [pagesOf, PGSIZE]
    omega

/-! ### Owners -/

/-- The lists the heap stands for: the nodes of each slab list with its sentinel, the
page list, and the live blocks with the size each was requested for. -/
structure Ghost where
  slab : ℕ → List ℕ
  pages : List ℕ
  live : List (ℕ × ℕ)

inductive Owner where
  | slab (k b : ℕ)
  | page (p : ℕ)
  | live (b : ℕ × ℕ)
  deriving DecidableEq

namespace Owner

def start : Owner → ℕ
  | slab _ b => b
  | page p => p
  | live b => b.1

def size : Owner → ℕ
  | slab k _ => 2 ^ k
  | page _ => PGSIZE
  | live b => capacity b.2

def Covers (o : Owner) (x : ℕ) : Prop := o.start ≤ x ∧ x < o.start + o.size

/-- The tag `mm_free` expects at the page of a slab block or a live block. -/
def Tagged (s : Heap) : Owner → Prop
  | slab k b => (getinfobybp s b).usedORbitposBigORlen = 1 ||| 2 ^ k
  | page _ => True
  | live b => (getinfobybp s b.1).usedORbitposBigORlen = tagOf b.2

theorem size_pos (o : Owner) : 0 < o.size := by
  cases o with
  | slab k b => exact Nat.two_pow_pos k
  | page p => exact Nat.succ_pos _
  | live b => exact capacity_pos b.2

theorem covers_start (o : Owner) : o.Covers o.start := ⟨le_rfl, by have := o.size_pos; omega⟩

end Owner

def Ghost.Has (g : Ghost) : Owner → Prop
  | .slab k b => (3 ≤ k ∧ k < 12) ∧ b ∈ g.slab k
  | .page p => p ∈ g.pages
  | .live b => b ∈ g.live

/-- `B` is the address of the first page. -/
structure Owned (B : ℕ) (s : Heap) (g : Ghost) : Prop where
  bounds {o : Owner} : g.Has o → B ≤ o.start ∧ o.start + o.size ≤ s.heapTop
  excl {o o' : Owner} {x : ℕ} : g.Has o → g.Has o' → o.Covers x → o'.Covers x → o = o'
  aligned {o : Owner} : g.Has o → o.start % min o.size PGSIZE = 0
  tagged {o : Owner} : g.Has o → o.Tagged s

/-- The range from `p` on belongs to the heap and to no owner. -/
structure Unowned (B : ℕ) (s : Heap) (g : Ghost) (p n : ℕ) : Prop where
  low : B ≤ p
  high : p + n ≤ s.heapTop
  free {o : Owner} {x : ℕ} : g.Has o → o.Covers x → ¬ (p ≤ x ∧ x < p + n)

/-- Every byte of the heap belongs to an owner, apart from the range from `p` on. -/
def Filled (B : ℕ) (s : Heap) (g : Ghost) (p n : ℕ) : Prop :=
  ∀ x, B ≤ x → x < s.heapTop → ¬ (p ≤ x ∧ x < p + n) → ∃ o, g.Has o ∧ o.Covers x

/-- The page geometry: `len` pages from `B` up to `heap_top`. -/
structure Geometry (B : ℕ) (s : Heap) : Prop where
  base_pos : 0 < B
  base_mod : B % PGSIZE = 0
  top : s.heapTop = B + s.len * PGSIZE
  fits : s.heapTop ≤ s.heapEnd
  stop : s.heapEnd = MEMSTOP
  start0 : s.len ≠ 0 → (s.pageArray 0).start = B

/-- The lists in memory; classes from `n` on are not initialised yet. The pages are in
ascending order. -/
structure Linked (B n : ℕ) (s : Heap) (g : Ghost) : Prop where
  pages : Chain s.word s.pagehead g.pages
  slabs {k : ℕ} : 3 ≤ k → k < n → Chain s.word (s.sizehead k) (g.slab k)
  heads {k : ℕ} : 3 ≤ k → k < n →
    s.sizehead k = B + (k - 3) * PGSIZE ∧ ∃ t, g.slab k = s.sizehead k :: t
  empty {k : ℕ} : n ≤ k → g.slab k = []
  classes : n ≤ 12
  sorted : g.pages.Pairwise (· < ·)

structure Inv (B n : ℕ) (s : Heap) (g : Ghost) : Prop where
  geom : Geometry B s
  owned : Owned B s g
  linked : Linked B n s g
  live : g.live.Nodup

variable {B n : ℕ} {s s' : Heap} {g g' : Ghost}

@[simp] theorem setNext_word (s : Heap) (p np : ℕ) :
    (setNext s p np).word = Function.update s.word p np := rfl

/-! ### Transfer of ownership -/

theorem Owned.congr (h : Owned B s g) (ht : s'.heapTop = s.heapTop)
    (ha : s'.pageArray = s.pageArray) : Owned B s' g where
  bounds ho := by rw [ht]; exact h.bounds ho
  excl := h.excl
  aligned := h.aligned
  tagged {o} ho := by
    have := h.tagged ho
    cases o <;> simp_all [Owner.Tagged, getinfobybp, pageIndex]

theorem Unowned.congr {p m : ℕ} (h : Unowned B s g p m) (ht : s.heapTop ≤ s'.heapTop) :
    Unowned B s' g p m := ⟨h.low, h.high.trans ht, h.free⟩

theorem Owned.mono (h : Owned B s g) (hs : ∀ {o}, g'.Has o → g.Has o) : Owned B s g' where
  bounds ho := h.bounds (hs ho)
  excl ho ho' := h.excl (hs ho) (hs ho')
  aligned ho := h.aligned (hs ho)
  tagged ho := h.tagged (hs ho)

/-- What an owner covered is unowned once the owner is gone. -/
theorem Owned.release (h : Owned B s g) {o : Owner} (ho : g.Has o)
    (hs : ∀ {o'}, g'.Has o' → g.Has o' ∧ o' ≠ o) : Unowned B s g' o.start o.size where
  low := (h.bounds ho).1
  high := (h.bounds ho).2
  free h' hc hx := (hs h').2 (h.excl (hs h').1 ho hc hx)

/-- New owners inside an unowned range keep the ownership invariant. -/
theorem Owned.grow (h : Owned B s g) {p m : ℕ} (hu : Unowned B s g p m) (N : Owner → Prop)
    (hs : ∀ {o}, g'.Has o → g.Has o ∨ N o)
    (hin : ∀ {o}, N o → p ≤ o.start ∧ o.start + o.size ≤ p + m)
    (hex : ∀ {o o' x}, N o → N o' → o.Covers x → o'.Covers x → o = o')
    (hal : ∀ {o}, N o → o.start % min o.size PGSIZE = 0)
    (htag : ∀ {o}, N o → o.Tagged s) : Owned B s g' where
  bounds ho := by
    rcases hs ho with ho | ho
    · exact h.bounds ho
    · have := hin ho
      have := hu.low
      have := hu.high
      omega
  excl {o o' x} ho ho' hc hc' := by
    have inside {o : Owner} (hN : N o) (hc : o.Covers x) : p ≤ x ∧ x < p + m := by
      have := hin hN
      unfold Owner.Covers at hc
      omega
    rcases hs ho with ho | ho <;> rcases hs ho' with ho' | ho'
    · exact h.excl ho ho' hc hc'
    · exact (hu.free ho hc (inside ho' hc')).elim
    · exact (hu.free ho' hc' (inside ho hc)).elim
    · exact hex ho ho' hc hc'
  aligned ho := (hs ho).elim h.aligned hal
  tagged ho := (hs ho).elim h.tagged htag

theorem Unowned.sub {p m p' m' : ℕ} (h : Unowned B s g p m) (hp : p ≤ p')
    (hm : p' + m' ≤ p + m) : Unowned B s g p' m' where
  low := h.low.trans hp
  high := hm.trans h.high
  free ho hc hx := h.free ho hc (by omega)

theorem Unowned.append {p m m' : ℕ} (h : Unowned B s g p m) (h' : Unowned B s g (p + m) m') :
    Unowned B s g p (m + m') where
  low := h.low
  high := by have := h'.high; omega
  free {o x} ho hc hx := by
    by_cases hlt : x < p + m
    · exact h.free ho hc ⟨hx.1, hlt⟩
    · exact h'.free ho hc (by omega)

theorem Unowned.mono {p m : ℕ} (h : Unowned B s g p m) (hs : ∀ {o}, g'.Has o → g.Has o) :
    Unowned B s g' p m := ⟨h.low, h.high, fun ho => h.free (hs ho)⟩

theorem Unowned.not_page {p m a : ℕ} (h : Unowned B s g p m) (ha : p ≤ a ∧ a < p + m) :
    a ∉ g.pages := fun hm => h.free (o := .page a) hm (Owner.covers_start _) ha

theorem Unowned.not_slab {p m a k : ℕ} (h : Unowned B s g p m) (ha : p ≤ a ∧ a < p + m)
    (hk : 3 ≤ k ∧ k < 12) : a ∉ g.slab k :=
  fun hm => h.free (o := .slab k a) ⟨hk, hm⟩ (Owner.covers_start _) ha

/-- Owners may go when their bytes lie in the new range, and the bytes of the old range
need a new owner when they do not. -/
theorem Filled.transfer {p m p' m' : ℕ} (h : Filled B s g p m) (ht : s'.heapTop = s.heapTop)
    (hk : ∀ {o}, g.Has o → g'.Has o ∨ ∀ x, o.Covers x → p' ≤ x ∧ x < p' + m')
    (hr : ∀ x, p ≤ x → x < p + m → ¬ (p' ≤ x ∧ x < p' + m') → ∃ o, g'.Has o ∧ o.Covers x) :
    Filled B s' g' p' m' := by
  intro x hB hx hout
  by_cases hin : p ≤ x ∧ x < p + m
  · exact hr x hin.1 hin.2 hout
  · obtain ⟨o, ho, hc⟩ := h x hB (ht ▸ hx) hin
    rcases hk ho with ho | ho
    · exact ⟨o, ho, hc⟩
    · exact absurd (ho x hc) hout

theorem Filled.congr {p m : ℕ} (h : Filled B s g p m) (ht : s'.heapTop = s.heapTop) :
    Filled B s' g p m := h.transfer ht Or.inl fun _ h1 h2 hout => absurd ⟨h1, h2⟩ hout

/-- The top of the heap moved up and nobody was given the new bytes. -/
theorem Filled.raise {m : ℕ} (h : Filled B s g 0 0) (ht : s'.heapTop = s.heapTop + m) :
    Filled B s' g s.heapTop m := by
  intro x hB hx hout
  refine h x hB ?_ (by omega)
  by_contra hge
  exact hout ⟨not_lt.mp hge, ht ▸ hx⟩

theorem Geometry.len_ne (h : Geometry B s) {p m : ℕ} (hp : B ≤ p) (ht : p + m ≤ s.heapTop)
    (hm : 0 < m) : s.len ≠ 0 := by
  intro hz
  have := h.top
  rw [hz] at this
  omega

theorem Geometry.pageIndex_eq (h : Geometry B s) (hl : s.len ≠ 0) (bp : ℕ) :
    pageIndex s bp = (bp - B) / PGSIZE := by rw [pageIndex, h.start0 hl]

theorem Geometry.congr (h : Geometry B s) (ht : s'.heapTop = s.heapTop)
    (he : s'.heapEnd = s.heapEnd) (hl : s'.len = s.len)
    (ha : s'.len ≠ 0 → (s'.pageArray 0).start = (s.pageArray 0).start) : Geometry B s' where
  base_pos := h.base_pos
  base_mod := h.base_mod
  top := by rw [ht, hl, h.top]
  fits := by rw [ht, he]; exact h.fits
  stop := he.trans h.stop
  start0 hn := (ha hn).trans (h.start0 (hl ▸ hn))

/-- Memory outside the lists is of no concern to the invariant. -/
theorem Inv.rewrite (h : Inv B n s g) {w : ℕ → ℕ} (hp : ∀ a ∈ g.pages, w a = s.word a)
    (hs : ∀ k, 3 ≤ k → k < 12 → ∀ a ∈ g.slab k, w a = s.word a) :
    Inv B n { s with word := w } g where
  geom := h.geom.congr rfl rfl rfl (fun _ => rfl)
  owned := h.owned.congr rfl rfl
  linked :=
    { pages := h.linked.pages.congr hp
      slabs := fun h3 hn => (h.linked.slabs h3 hn).congr
        (hs _ h3 (hn.trans_le h.linked.classes))
      heads := h.linked.heads
      empty := h.linked.empty
      classes := h.linked.classes
      sorted := h.linked.sorted }
  live := h.live

theorem Inv.write (h : Inv B n s g) {a : ℕ} (v : ℕ) (hp : a ∉ g.pages)
    (hs : ∀ k, 3 ≤ k → k < 12 → a ∉ g.slab k) : Inv B n (setNext s a v) g :=
  h.rewrite (fun x hx => Function.update_of_ne (by rintro rfl; exact hp hx) _ _)
    (fun k h3 hk x hx => Function.update_of_ne (by rintro rfl; exact hs k h3 hk hx) _ _)

theorem Inv.write_unowned (h : Inv B n s g) {p m a : ℕ} (hu : Unowned B s g p m) (v : ℕ)
    (ha : p ≤ a ∧ a < p + m) : Inv B n (setNext s a v) g :=
  h.write v (hu.not_page ha) (fun _ h3 hk => hu.not_slab ha ⟨h3, hk⟩)

/-- The page of an owner is not the page of an unowned range. -/
theorem Unowned.pageIndex_ne {p : ℕ} (h : Unowned B s g p PGSIZE) (hb : B % PGSIZE = 0)
    (hp : p % PGSIZE = 0) {o : Owner} (ho : g.Has o) (hB : B ≤ o.start) :
    (o.start - B) / PGSIZE ≠ (p - B) / PGSIZE := by
  intro he
  apply h.free ho o.covers_start
  have hlow := h.low
  simp only [PGSIZE] at *
  omega

/-- The tag of an unowned page is free to change. -/
theorem Inv.retag (h : Inv B n s g) {p : ℕ} (hu : Unowned B s g p PGSIZE)
    (hp : p % PGSIZE = 0) (tag : ℕ) : Inv B n (setinfobybp s p ⟨p, tag⟩) g := by
  have hl := h.geom.len_ne hu.low hu.high (by decide)
  have hi : pageIndex s p = (p - B) / PGSIZE := h.geom.pageIndex_eq hl p
  have hstart : ((setinfobybp s p ⟨p, tag⟩).pageArray 0).start = B := by
    by_cases hz : pageIndex s p = 0
    · have hlow := hu.low
      have hb := h.geom.base_mod
      simp only [setinfobybp, hz, Function.update_self]
      rw [hi] at hz
      simp only [PGSIZE] at *
      omega
    · simp only [setinfobybp]
      rw [Function.update_of_ne (Ne.symm hz)]
      exact h.geom.start0 hl
  refine ⟨h.geom.congr rfl rfl rfl (fun _ => hstart.trans (h.geom.start0 hl).symm), ?_,
    ⟨h.linked.pages, h.linked.slabs, h.linked.heads, h.linked.empty, h.linked.classes,
      h.linked.sorted⟩, h.live⟩
  refine ⟨h.owned.bounds, h.owned.excl, h.owned.aligned, fun {o} ho => ?_⟩
  have hne := hu.pageIndex_ne h.geom.base_mod hp ho (h.owned.bounds ho).1
  have hsame : getinfobybp (setinfobybp s p ⟨p, tag⟩) o.start = getinfobybp s o.start := by
    simp only [getinfobybp, pageIndex]
    rw [hstart, h.geom.start0 hl]
    simp only [setinfobybp, hi]
    exact Function.update_of_ne hne _ _
  have ht := h.owned.tagged ho
  cases o <;> simp_all [Owner.Tagged, Owner.start]

theorem getinfobybp_setinfobybp (h : Inv B n s g) {p : ℕ} (hu : Unowned B s g p PGSIZE)
    (hp : p % PGSIZE = 0) (tag : ℕ) :
    getinfobybp (setinfobybp s p ⟨p, tag⟩) p = ⟨p, tag⟩ := by
  have hl := h.geom.len_ne hu.low hu.high (by decide)
  have hl' : (setinfobybp s p ⟨p, tag⟩).len ≠ 0 := hl
  rw [getinfobybp, (h.retag hu hp tag).geom.pageIndex_eq hl', setinfobybp]
  simp only [h.geom.pageIndex_eq hl p, Function.update_self]

/-- The other tags stay. -/
theorem getinfobybp_setinfobybp_of_ne (h : Inv B n s g) {p q : ℕ} (hu : Unowned B s g p PGSIZE)
    (hp : p % PGSIZE = 0) (tag : ℕ) (hne : (q - B) / PGSIZE ≠ (p - B) / PGSIZE) :
    getinfobybp (setinfobybp s p ⟨p, tag⟩) q = getinfobybp s q := by
  have hl := h.geom.len_ne hu.low hu.high (by decide)
  have hl' : (setinfobybp s p ⟨p, tag⟩).len ≠ 0 := hl
  rw [getinfobybp, getinfobybp, (h.retag hu hp tag).geom.pageIndex_eq hl',
    h.geom.pageIndex_eq hl, setinfobybp, h.geom.pageIndex_eq hl]
  exact Function.update_of_ne hne _ _

end Zrhos.Mem
