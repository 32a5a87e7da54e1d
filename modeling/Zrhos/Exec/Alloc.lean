import Zrhos.Mmap.Frames
import Zrhos.Mmap.RefCnt

/-! What `exec` takes from the allocator of `mem.c`: pages for frames and page tables, and small
blocks for regions and counters, which come out of pages too. Of the small blocks their number is
kept; what they hold is left out. -/
namespace Zrhos.Exec
open Mmap OrderedSet

/-! ### Counters -/

/-- The reference counters: `inc` says whether it made a new counter, `dec` which page it gave
back. -/
structure Counters (κ : Type) where
  inc : κ → ℕ → Bool × κ
  dec : κ → ℕ → Option ℕ × κ

/-- The tree of counters, with what the stack holds in the key of each lookup to come. -/
abbrev RefTree := RefCnt.Tree × (ℕ → ℕ)

/-- The counters of `mmap.c`. -/
def refTree : Counters RefTree where
  inc c pa :=
    ((locate RefCnt.Node.refCnt c.1 (c.2 0)).isNone,
      RefCnt.refCntInc c.1 pa (c.2 0), fun i => c.2 (i + 1))
  dec c va :=
    let r := RefCnt.refCntDec c.1 va (c.2 0)
    (r.2.1, r.2.2, fun i => c.2 (i + 1))

/-! ### Pages and blocks -/

/-- The list of free pages and the top of the heap, the number of free blocks of each size, and
the counters. -/
structure Alloc (κ : Type) where
  pages : List ℕ
  heapTop : ℕ
  blocks : ℕ → ℕ
  counters : κ

variable {κ : Type}

def Alloc.phys (a : Alloc κ) (mem : ℕ → ℕ → ℕ) : Phys where
  mem := mem
  pages := a.pages
  heapTop := a.heapTop
  ref := fun _ => 0
  handed := []
  freed := []

/-- `mem_malloc(PGSIZE)`. -/
def getpage (a : Alloc κ) : Except Stop (ℕ × Alloc κ) := do
  let (p, s) ← memMalloc (a.phys fun _ _ => 0)
  return (p, { a with pages := s.pages, heapTop := s.heapTop })

/-- A block of the `pos`-th list, which takes a page when there is none left. -/
def smallfind (a : Alloc κ) (pos : ℕ) : Except Stop (Alloc κ) :=
  if a.blocks pos = 0 then do
    let (_, a) ← getpage a
    return { a with blocks := Function.update a.blocks pos (PGSIZE / 2 ^ pos - 1) }
  else .ok { a with blocks := Function.update a.blocks pos (a.blocks pos - 1) }

/-- `_log2`, rounded up. -/
def log2 (size : ℕ) : ℕ := ((List.range 32).find? fun pos => size ≤ 2 ^ pos).getD 32

/-- `mem_malloc` of less than a page. -/
def memMallocSmall (a : Alloc κ) (size : ℕ) : Except Stop (Alloc κ) :=
  smallfind a (if log2 size > 3 then log2 size else 3)

/-- `mem_free` of such a block. -/
def memFreeSmall (a : Alloc κ) (size : ℕ) : Alloc κ :=
  let pos := if log2 size > 3 then log2 size else 3
  { a with blocks := Function.update a.blocks pos (a.blocks pos + 1) }

/-- The sizes of `struct rb_node`, `MmapNode_t`, `RefCntNode_t` and `Mmap_t`. -/
def RB_NODE_SIZE : ℕ := 48
def MMAP_NODE_SIZE : ℕ := 32
def REF_CNT_NODE_SIZE : ℕ := 16
def MMAP_SIZE : ℕ := 88

variable (cnt : Counters κ)

def refCntInc (a : Alloc κ) (pa : ℕ) : Except Stop (Alloc κ) :=
  let (made, counters) := cnt.inc a.counters pa
  let a := { a with counters }
  if made then do
    let a ← memMallocSmall a RB_NODE_SIZE
    memMallocSmall a REF_CNT_NODE_SIZE
  else .ok a

/-! ### Taking -/

variable {cnt} {a a' : Alloc κ} {p q : ℕ} {mem mem' : ℕ → ℕ → ℕ}

/-- The page list is in order. -/
def Alloc.Ok (a : Alloc κ) : Prop := FramesOk (a.phys fun _ _ => 0)

instance : Decidable a.Ok :=
  decidable_of_iff (a.pages.Pairwise (· < ·) ∧
    (∀ p ∈ a.pages, p % PGSIZE = 0 ∧ p ≠ 0 ∧ p < a.heapTop) ∧
    a.heapTop % PGSIZE = 0 ∧ 0 < a.heapTop ∧ a.heapTop ≤ MEMSTOP)
    ⟨fun ⟨h1, h2, h3, h4, h5⟩ => ⟨h1, fun p hp => (h2 p hp).1, fun p hp => (h2 p hp).2.1,
      fun p hp => (h2 p hp).2.2, h3, h4, h5⟩,
    fun ⟨h1, h2, h3, h4, h5, h6, h7⟩ => ⟨h1, fun p hp => ⟨h2 p hp, h3 p hp, h4 p hp⟩, h5, h6, h7⟩⟩

def Alloc.InUse (a : Alloc κ) (p : ℕ) : Prop := Mmap.InUse (a.phys fun _ _ => 0) p

/-- Pages were taken. -/
structure Grown (a a' : Alloc κ) : Prop where
  ok : a'.Ok
  keeps : ∀ q, a.InUse q → a'.InUse q

theorem Grown.refl (h : a.Ok) : Grown a a := ⟨h, fun _ hq => hq⟩

theorem Grown.trans {a'' : Alloc κ} (h : Grown a a') (h' : Grown a' a'') : Grown a a'' :=
  ⟨h'.ok, fun q hq => h'.keeps q (h.keeps q hq)⟩

/-- A page is taken that was free. -/
theorem getpage_spec (hok : a.Ok) (h : getpage a = .ok (p, a')) :
    Grown a a' ∧ a'.InUse p ∧ ¬ a.InUse p := by
  obtain ⟨⟨p', s⟩, hm, h⟩ := bind_ok h
  cases h
  rcases memMalloc_spec hok with he | ⟨p', s', hs, ht, -⟩
  · rw [he] at hm
    cases hm
  · rw [hs] at hm
    cases hm
    exact ⟨⟨ht.frames.congr rfl rfl, fun q hq => (ht.keeps q hq).congr rfl rfl⟩,
      ht.inUse.congr rfl rfl, ht.free⟩

theorem smallfind_grown {pos : ℕ} (hok : a.Ok) (h : smallfind a pos = .ok a') : Grown a a' := by
  unfold smallfind at h
  split_ifs at h
  · obtain ⟨⟨p, a₁⟩, hp, h⟩ := bind_ok h
    cases h
    obtain ⟨hg, -⟩ := getpage_spec hok hp
    exact ⟨hg.ok, hg.keeps⟩
  · cases h
    exact ⟨hok, fun _ hq => hq⟩

theorem memMallocSmall_grown {size : ℕ} (hok : a.Ok) (h : memMallocSmall a size = .ok a') :
    Grown a a' := smallfind_grown hok h

theorem refCntInc_grown (hok : a.Ok) (h : refCntInc cnt a p = .ok a') : Grown a a' := by
  have hstart : Grown a { a with counters := (cnt.inc a.counters p).2 } :=
    ⟨hok, fun _ hq => hq⟩
  unfold refCntInc at h
  dsimp only at h
  split_ifs at h
  · obtain ⟨a₁, hnode, hdata⟩ := bind_ok h
    have hone := memMallocSmall_grown hstart.ok hnode
    exact (hstart.trans hone).trans (memMallocSmall_grown hone.ok hdata)
  · cases h
    exact hstart

end Zrhos.Exec
