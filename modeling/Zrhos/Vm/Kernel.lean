import Zrhos.Vm.Model
import Zrhos.Mem.Model

/-! The page-table code of `vm.c` on the heap of `mem.c`: table pages come from
`mem_malloc` and go back through `mem_free`, which keeps its list links in them. -/
namespace Zrhos.Vm
open Mem

/-- The heap, the pages the table code has taken from `mem_malloc`, and the addresses it
has given to `mem_free`, both in order. -/
structure Kernel where
  heap : Heap
  taken : List ℕ
  freed : List ℕ

namespace Kernel

def word (s : Kernel) : ℕ → ℕ := s.heap.word

/-- `mem_malloc(PGSIZE)`. -/
def memMalloc (s : Kernel) : Except Stop (ℕ × Kernel) := do
  let (p, heap) ← mmMalloc s.heap PGSIZE
  return (p, { s with heap := heap, taken := s.taken ++ [p] })

def memFree (s : Kernel) (p : ℕ) : Except Stop Kernel := do
  let heap ← mmFree s.heap p
  return { s with heap := heap, freed := s.freed ++ [p] }

/-- `memset(p, 0, PGSIZE)`. -/
def clearPage (s : Kernel) (p : ℕ) : Kernel :=
  { s with heap := { s.heap with
      word := fun a => if p ≤ a ∧ a < p + PGSIZE then 0 else s.word a } }

def setWord (s : Kernel) (a v : ℕ) : Kernel :=
  { s with heap := { s.heap with word := Function.update s.word a v } }

def vmCreate (s : Kernel) : Except Stop (ℕ × Kernel) := do
  let (pagetable, s) ← s.memMalloc
  if pagetable = 0 then return (0, s) else return (pagetable, s.clearPage pagetable)

/-- One turn of the loop in `walk`. -/
def walkStep (s : Kernel) (pagetable va level : ℕ) (alloc : Bool) :
    Except Stop (Option ℕ × Kernel) :=
  let pte := entry pagetable (PX level va)
  if s.word pte &&& PTE_V ≠ 0 then .ok (some (PTE2PA (s.word pte)), s)
  else if !alloc then .ok (none, s)
  else do
    let (p, s) ← s.memMalloc
    if p = 0 then return (none, s)
    else return (some p, (s.clearPage p).setWord pte (PA2PTE p ||| PTE_V))

def walk (s : Kernel) (pagetable va : ℕ) (alloc : Bool) : Except Stop (Option ℕ × Kernel) := do
  let (mid, s) ← s.walkStep pagetable va 2 alloc
  match mid with
  | none => return (none, s)
  | some mid =>
    let (low, s) ← s.walkStep mid va 1 alloc
    return (low.map fun low => entry low (PX 0 va), s)

def vmMapLoop (pagetable last perm : ℕ) (remap : Bool) : ℕ → Kernel → ℕ → ℕ →
    Except Stop (ℤ × Kernel)
  | 0, _, _, _ => .error .spin
  | fuel + 1, s, va, pa => do
    let (pte, s) ← s.walk pagetable va true
    match pte with
    | none => .ok (-1, s)
    | some pte =>
      if s.word pte &&& PTE_V ≠ 0 ∧ !remap then .error .vmMapRemap
      else
        let s := s.setWord pte (PA2PTE pa ||| sext32 perm ||| PTE_V)
        if va = last then .ok (0, s)
        else
          vmMapLoop pagetable last perm remap fuel s ((va + PGSIZE) % WORD)
            ((pa + PGSIZE) % WORD)

def vmMap (s : Kernel) (pagetable va pa sz perm : ℕ) (remap : Bool) :
    Except Stop (ℤ × Kernel) :=
  vmMapLoop pagetable (pgRoundDown ((va + sz + WORD - 1) % WORD)) perm remap (WORD / PGSIZE)
    s va pa

def vmUnmapLoop (pagetable stop : ℕ) (doFree : Bool) : ℕ → Kernel → ℕ → Except Stop Kernel
  | 0, _, _ => .error .spin
  | fuel + 1, s, a =>
    if a < stop then do
      let (pte, s) ← s.walk pagetable a false
      match pte with
      | none => .error .uvmunmapWalk
      | some pte =>
        if s.word pte &&& PTE_V = 0 then .error .uvmunmapNotMapped
        else if PTE_FLAGS (s.word pte) = PTE_V then .error .uvmunmapNotALeaf
        else do
          let s ← if doFree then s.memFree (PTE2PA (s.word pte)) else .ok s
          vmUnmapLoop pagetable stop doFree fuel (s.setWord pte 0) ((a + PGSIZE) % WORD)
    else .ok s

def vmUnmap (s : Kernel) (pagetable va npages : ℕ) (doFree : Bool) : Except Stop Kernel :=
  if va % PGSIZE ≠ 0 then .error .uvmunmapNotAligned
  else vmUnmapLoop pagetable ((va + npages * PGSIZE) % WORD) doFree (WORD / PGSIZE + 1) s va

end Kernel

def isPagetable (pte : ℕ) : Bool :=
  pte &&& PTE_V ≠ 0 ∧ pte &&& (PTE_R ||| PTE_W ||| PTE_X) = 0

namespace Kernel

/-- One turn of the loop in `free_pagetable`; `free` is the call on the child. -/
def freeEntry (free : Kernel → ℕ → Except Stop Kernel) (doFree : Bool) (pagetable : ℕ)
    (s : Kernel) (i : ℕ) : Except Stop Kernel :=
  let pte := s.word (entry pagetable i)
  if isPagetable pte then do
    let s ← free s (PTE2PA pte)
    return s.setWord (entry pagetable i) 0
  else if pte &&& PTE_V ≠ 0 ∧ doFree then s.memFree (PTE2PA pte)
  else .ok s

/-- The source recurses without a level count; here calls nest at most `depth` deep. -/
def freePagetable (doFree : Bool) : ℕ → Kernel → ℕ → Except Stop Kernel
  | 0, _, _ => .error .spin
  | depth + 1, s, pagetable =>
    if pagetable = 0 then .ok s
    else do
      let s ← (List.range 512).foldlM (freeEntry (freePagetable doFree depth) doFree pagetable) s
      s.memFree pagetable

end Kernel

end Zrhos.Vm
