import Zrhos.Platform
import Zrhos.Lib.Steps

/-! `malloc` and `free` of `ulib.c` over the regions that the kernel maps for a task. -/
namespace Zrhos.User
open Steps

structure Region where
  addr : ℕ
  len : ℕ
  deriving DecidableEq, Repr

def Region.Contains (r : Region) (a : ℕ) : Prop := r.addr ≤ a ∧ a < r.addr + r.len

def Region.Apart (r r' : Region) : Prop :=
  r.addr + r.len ≤ r'.addr ∨ r'.addr + r'.len ≤ r.addr

instance (r : Region) (a : ℕ) : Decidable (r.Contains a) := by
  unfold Region.Contains
  infer_instance

instance (r r' : Region) : Decidable (r.Apart r') := by
  unfold Region.Apart
  infer_instance

/-- The pointer that `malloc` has returned and the size that it was asked for. -/
structure Block where
  ptr : ℕ
  n : ℕ
  deriving DecidableEq, Repr

def Block.bytes (b : Block) : Region := ⟨b.ptr, b.n⟩

def SIZEOF_SIZE_T : ℕ := 8

/-- What `mmap` maps for a block. -/
def Block.region (b : Block) : Region := ⟨b.ptr, pgRoundUp (b.n + SIZEOF_SIZE_T)⟩

/-- An address that is loaded or stored on account of a region, and the regions before and
after a block is freed. -/
inductive Event where
  | access (addr : ℕ) (region : Region)
  | unmap (region : Region) (before after : List Region)

/-- `live` are the blocks that have been allocated and not freed; `faulted` is set by an
access outside all regions, which is the end of the task. -/
structure Heap where
  regions : List Region
  mem : ℕ → ℕ
  live : List Block
  faulted : Bool
  events : List Event

/-- The addresses of a `size_t`. -/
def sizeAt (a : ℕ) : List ℕ := (List.range SIZEOF_SIZE_T).map fun i => (a + i) % WORD

namespace Heap

def Mapped (h : Heap) (a : ℕ) : Prop := ∃ r ∈ h.regions, r.Contains a

instance (h : Heap) (a : ℕ) : Decidable (h.Mapped a) := by
  unfold Mapped
  infer_instance

/-- A load or store of a `size_t` by a call that works on `region`. -/
def touch (h : Heap) (region : Region) (a : ℕ) : Heap :=
  { h with
    faulted := decide (∃ x ∈ sizeAt a, ¬ h.Mapped x)
    events := h.events ++ (sizeAt a).map (.access · region) }

def storeSize (mem : ℕ → ℕ) (a v : ℕ) : ℕ → ℕ := fun x =>
  if a ≤ x ∧ x < a + SIZEOF_SIZE_T then v / 256 ^ (x - a) % 256 else mem x

/-- The `size_t` at `a`. -/
def loadSize (mem : ℕ → ℕ) (a : ℕ) : ℕ :=
  ((sizeAt a).map mem).foldr (fun b v => b + 256 * v) 0

/-- `mmap(0, total, ..)` has returned `ptr`: a page-aligned region apart from the others. -/
def Fresh (h : Heap) (b : Block) : Prop :=
  b.ptr % PGSIZE = 0 ∧ b.n + SIZEOF_SIZE_T ≤ b.region.len ∧ b.ptr + b.region.len ≤ WORD ∧
    ∀ r ∈ h.regions, r.Apart b.region

instance (h : Heap) (b : Block) : Decidable (h.Fresh b) := by
  unfold Fresh
  infer_instance

/-- `malloc`, once `mmap` has returned the pointer of `b`. -/
def malloc (h : Heap) (b : Block) : Heap :=
  let total := b.n + SIZEOF_SIZE_T
  let h := { h with regions := b.region :: h.regions }
  let h := h.touch b.region (b.ptr + total - SIZEOF_SIZE_T)
  { h with
    mem := storeSize h.mem (b.ptr + total - SIZEOF_SIZE_T) total
    live := b :: h.live }

/-- The kernel unmaps the region that begins at `addr` and does not look at the size. -/
def munmap (h : Heap) (addr _size : ℕ) : Heap :=
  match h.regions.find? (·.addr = addr) with
  | none => h
  | some r => { h with regions := h.regions.erase r }

def free (h : Heap) (b : Block) : Heap :=
  let before := h.regions
  let header := (b.ptr + WORD - SIZEOF_SIZE_T) % WORD
  let h := h.touch b.region header
  if h.faulted then h
  else
    let h := h.munmap b.ptr (loadSize h.mem header)
    { h with
      live := h.live.erase b
      events := h.events ++ [.unmap b.region before h.regions] }

end Heap

/-- `ret` is what `mmap` returns, `none` for -1. -/
inductive HeapAct where
  | malloc (n : ℕ) (ret : Option ℕ)
  | free (p : ℕ)
  deriving DecidableEq, Repr

def Heap.step (h : Heap) : HeapAct → Option Heap
  | .malloc n ret =>
    if h.faulted ∨ WORD ≤ n + SIZEOF_SIZE_T then none
    else
      match ret with
      | none => some h
      | some ptr => if h.Fresh ⟨ptr, n⟩ then some (h.malloc ⟨ptr, n⟩) else none
  | .free p =>
    if h.faulted then none
    else
      match h.live.find? (·.ptr = p) with
      | none => none
      | some b => some (h.free b)

/-- A program that has not used the heap yet, with the regions that it is started with. -/
def heapInit (regions : List Region) (mem : ℕ → ℕ) : Heap where
  regions := regions
  mem := mem
  live := []
  faulted := false
  events := []

/-- Live blocks do not overlap, every access is inside the region that the call is about,
every `free` has unmapped the region of its block and no other, and nothing has faulted. -/
structure Heap.Correct (h : Heap) : Prop where
  disjoint : h.live.Pairwise fun b b' => b.bytes.Apart b'.bytes
  inside : ∀ a r, Event.access a r ∈ h.events → r.Contains a
  unmapped : ∀ r before after, Event.unmap r before after ∈ h.events →
    r ∈ before ∧ ∀ r', r' ∈ after ↔ r' ∈ before ∧ r' ≠ r
  alive : h.faulted = false

def HeapAct.isFree : HeapAct → Bool
  | .malloc _ _ => false
  | .free _ => true

/-! ### Allocations -/

namespace Heap

variable {h h' : Heap} {b : Block} {a : HeapAct}

/-- Nothing has been freed so far. -/
structure Grown (h : Heap) : Prop extends Correct h where
  held : ∀ b ∈ h.live, b.region ∈ h.regions
  room : ∀ b ∈ h.live, b.n ≤ b.region.len

theorem Grown.init (regions : List Region) (mem : ℕ → ℕ) : (heapInit regions mem).Grown where
  disjoint := List.Pairwise.nil
  inside a r h := by cases h
  unmapped r before after h := by cases h
  alive := rfl
  held b hb := by cases hb
  room b hb := by cases hb

theorem mem_sizeAt {x y : ℕ} : x ∈ sizeAt y ↔ ∃ i < SIZEOF_SIZE_T, (y + i) % WORD = x := by
  simp only [sizeAt, List.mem_map, List.mem_range]

/-- The size that `malloc` stores lies at the end of its block. -/
theorem Fresh.header_inside (hf : h.Fresh b) {x : ℕ}
    (hx : x ∈ sizeAt (b.ptr + (b.n + SIZEOF_SIZE_T) - SIZEOF_SIZE_T)) : b.region.Contains x := by
  obtain ⟨-, hroom, hword, -⟩ := hf
  obtain ⟨i, hi, rfl⟩ := mem_sizeAt.mp hx
  have haddr : b.region.addr = b.ptr := rfl
  rw [Nat.mod_eq_of_lt (by omega)]
  constructor <;> omega

theorem apart_of_regions {b b' : Block} (hapart : b.region.Apart b'.region)
    (hb : b.n ≤ b.region.len) (hb' : b'.n ≤ b'.region.len) : b'.bytes.Apart b.bytes := by
  have haddr : b.region.addr = b.bytes.addr := rfl
  have haddr' : b'.region.addr = b'.bytes.addr := rfl
  have hlen : b.bytes.len = b.n := rfl
  have hlen' : b'.bytes.len = b'.n := rfl
  unfold Region.Apart at hapart ⊢
  omega

theorem mem_touch_events {region : Region} {x : ℕ} {e : Event} :
    e ∈ (h.touch region x).events ↔
      e ∈ h.events ∨ ∃ a ∈ sizeAt x, Event.access a region = e := by
  simp only [touch, List.mem_append, List.mem_map]

theorem Grown.malloc (hg : h.Grown) (hf : h.Fresh b) : (h.malloc b).Grown := by
  have hroom : b.n ≤ b.region.len := by
    have := hf.2.1
    omega
  constructor
  case toCorrect =>
    constructor
    case disjoint =>
      apply List.Pairwise.cons _ hg.disjoint
      intro b' hb'
      exact apart_of_regions (hf.2.2.2 _ (hg.held b' hb')) (hg.room b' hb') hroom
    case inside =>
      intro a r he
      rcases mem_touch_events.mp he with he | ⟨x, hx, he⟩
      · exact hg.inside a r he
      · cases he
        exact hf.header_inside hx
    case unmapped =>
      intro r before after he
      rcases mem_touch_events.mp he with he | ⟨x, -, he⟩
      · exact hg.unmapped r before after he
      · cases he
    case alive =>
      simp only [Heap.malloc, touch, decide_eq_false_iff_not]
      rintro ⟨x, hx, hout⟩
      exact hout ⟨b.region, List.mem_cons_self, hf.header_inside hx⟩
  case held =>
    intro b' hb'
    rcases List.mem_cons.mp hb' with rfl | hb'
    · exact List.mem_cons_self
    · exact List.mem_cons_of_mem _ (hg.held b' hb')
  case room =>
    intro b' hb'
    rcases List.mem_cons.mp hb' with rfl | hb'
    · exact hroom
    · exact hg.room b' hb'

theorem Grown.step (hg : h.Grown) (ha : a.isFree = false) (hs : h.step a = some h') :
    h'.Grown := by
  cases a with
  | free p => cases ha
  | malloc n ret =>
    simp only [Heap.step] at hs
    split_ifs at hs
    cases ret with
    | none =>
      cases hs
      exact hg
    | some ptr =>
      simp only at hs
      split_ifs at hs with hf
      cases hs
      exact hg.malloc hf

/-! ### Frees -/

/-- An access has left its region. -/
def Strays (h : Heap) : Prop := ∃ a r, Event.access a r ∈ h.events ∧ ¬ r.Contains a

theorem not_correct_of_strays (hs : h.Strays) : ¬ h.Correct := by
  obtain ⟨a, r, he, hout⟩ := hs
  exact fun hc => hout (hc.inside a r he)

theorem pgRoundUp_lt (n : ℕ) : pgRoundUp n + PGSIZE ≤ WORD := by
  simp only [pgRoundUp, pgRoundDown, PGSIZE, WORD]
  omega

/-- `free` looks for the size in front of its block. -/
theorem header_outside (b : Block) :
    ¬ b.region.Contains ((b.ptr + WORD - SIZEOF_SIZE_T) % WORD) := by
  have hlen : b.region.len + PGSIZE ≤ WORD := pgRoundUp_lt _
  have haddr : b.region.addr = b.ptr := rfl
  rintro ⟨hlo, hhi⟩
  rw [haddr] at hlo hhi
  simp only [SIZEOF_SIZE_T, PGSIZE, WORD] at *
  omega

theorem touch_free_rest (h : Heap) (b : Block) :
    (h.touch b.region ((b.ptr + WORD - SIZEOF_SIZE_T) % WORD)).events <+: (h.free b).events := by
  unfold free
  dsimp only
  split_ifs
  · exact List.prefix_rfl
  · have hevents : ∀ (h : Heap) addr size, (h.munmap addr size).events = h.events := by
      intro h addr size
      unfold munmap
      split <;> rfl
    dsimp only
    rw [hevents]
    exact List.prefix_append _ _

theorem free_strays (h : Heap) (b : Block) : (h.free b).Strays := by
  refine ⟨_, b.region, (touch_free_rest h b).subset ?_, header_outside b⟩
  apply mem_touch_events.mpr
  right
  refine ⟨_, mem_sizeAt.mpr ⟨0, by decide, ?_⟩, rfl⟩
  rw [Nat.add_zero, Nat.mod_mod]

theorem step_events (hs : h.step a = some h') : h.events <+: h'.events := by
  cases a with
  | malloc n ret =>
    simp only [step] at hs
    split_ifs at hs
    cases ret with
    | none =>
      cases hs
      exact List.prefix_rfl
    | some ptr =>
      simp only at hs
      split_ifs at hs
      cases hs
      exact List.prefix_append _ _
  | free p =>
    simp only [step] at hs
    split_ifs at hs
    split at hs
    case _ => cases hs
    case _ b _ =>
      cases hs
      exact (List.prefix_append _ _).trans (touch_free_rest h b)

theorem Strays.step (hs : h.step a = some h') (hstray : h.Strays) : h'.Strays := by
  obtain ⟨x, r, he, hout⟩ := hstray
  exact ⟨x, r, (step_events hs).subset he, hout⟩

theorem step_free_strays (ha : a.isFree = true) (hs : h.step a = some h') : h'.Strays := by
  cases a with
  | malloc n ret => cases ha
  | free p =>
    simp only [Heap.step] at hs
    split_ifs at hs
    split at hs
    case _ => cases hs
    case _ b _ =>
      cases hs
      exact free_strays h b

/-! ### Runs -/

variable {acts : List HeapAct}

theorem Grown.run (hg : h.Grown) (hacts : ∀ a ∈ acts, a.isFree = false)
    (hr : after Heap.step anyStep h acts = some h') : h'.Grown := by
  induction acts generalizing h with
  | nil =>
    cases hr
    exact hg
  | cons a acts ih =>
    unfold after at hr
    rw [if_pos (show anyStep h a from trivial)] at hr
    obtain ⟨m, hs, hrest⟩ := Option.bind_eq_some_iff.mp hr
    exact ih (hg.step (hacts a List.mem_cons_self) hs)
      (fun a ha => hacts a (List.mem_cons_of_mem _ ha)) hrest

theorem strays_run (hbad : h.Strays ∨ ∃ a ∈ acts, a.isFree = true)
    (hr : after step anyStep h acts = some h') : h'.Strays := by
  induction acts generalizing h with
  | nil =>
    cases hr
    rcases hbad with hbad | ⟨a, ha, -⟩
    · exact hbad
    · cases ha
  | cons a acts ih =>
    unfold after at hr
    rw [if_pos (show anyStep h a from trivial)] at hr
    obtain ⟨m, hs, hrest⟩ := Option.bind_eq_some_iff.mp hr
    apply ih _ hrest
    rcases hbad with hbad | ⟨a', ha', hfree⟩
    · exact .inl (hbad.step hs)
    · rcases List.mem_cons.mp ha' with rfl | ha'
      · exact .inl (step_free_strays hfree hs)
      · exact .inr ⟨a', ha', hfree⟩

end Heap

variable {h : Heap} {acts : List HeapAct}

/-- A program gets along with its heap exactly as long as it frees nothing. -/
theorem malloc_free_correct_iff {regions : List Region} {mem : ℕ → ℕ}
    (hr : after Heap.step anyStep (heapInit regions mem) acts = some h) :
    h.Correct ↔ ∀ a ∈ acts, a.isFree = false := by
  constructor
  · intro hc a ha
    by_contra hfree
    rw [Bool.not_eq_false] at hfree
    exact Heap.not_correct_of_strays (Heap.strays_run (.inr ⟨a, ha, hfree⟩) hr) hc
  · intro hacts
    exact ((Heap.Grown.init regions mem).run hacts hr).toCorrect

theorem malloc_free_correct_two : ∃ h,
    after Heap.step anyStep (heapInit [] fun _ => 0)
      [.malloc 100 (some 8192), .malloc 24 (some 4096)] = some h ∧ h.Correct := by
  have hr : after Heap.step anyStep (heapInit [] fun _ => 0)
      [.malloc 100 (some 8192), .malloc 24 (some 4096)] = some _ := rfl
  exact ⟨_, hr, (malloc_free_correct_iff hr).mpr (by decide)⟩

/-- The first block that a program allocates cannot be freed: the access in front of it
faults. -/
theorem free_faults : ∃ h,
    after Heap.step anyStep (heapInit [] fun _ => 0)
      [.malloc 8 (some 4096), .free 4096] = some h ∧ h.faulted = true ∧ ¬ h.Correct := by
  refine ⟨_, rfl, rfl, fun hc => ?_⟩
  exact absurd hc.alive (by decide)

end Zrhos.User
