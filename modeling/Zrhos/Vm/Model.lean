import Zrhos.Platform

/-! The three-level page tables of `vm.c`, embedded over the words of physical memory. -/
namespace Zrhos.Vm

/-- Physical memory as words at byte addresses, the number of pages `mem_malloc` has
handed out, and the pages given to `mem_free`, newest first. -/
structure Ram where
  word : ℕ → ℕ
  next : ℕ
  freed : List ℕ

/-- The pages that successive calls of `mem_malloc(PGSIZE)` return; when all are handed
out the allocator panics. -/
structure Supply where
  page : ℕ → ℕ
  count : ℕ
  injective : ∀ i < count, ∀ j < count, page i = page j → i = j
  aligned : ∀ i < count, page i % PGSIZE = 0
  ne_null : ∀ i < count, page i ≠ 0
  fits : ∀ i < count, page i + PGSIZE ≤ WORD

variable (S : Supply)

def memMalloc (s : Ram) : Except Stop (ℕ × Ram) :=
  if s.next < S.count then .ok (S.page s.next, { s with next := s.next + 1 })
  else .error .noSpaceInHeap

/-- `memset(p, 0, PGSIZE)`. -/
def clearPage (s : Ram) (p : ℕ) : Ram :=
  { s with word := fun a => if p ≤ a ∧ a < p + PGSIZE then 0 else s.word a }

def setWord (s : Ram) (a v : ℕ) : Ram := { s with word := Function.update s.word a v }

/-- The address of entry `i` of the table at `pagetable`. -/
def entry (pagetable i : ℕ) : ℕ := pagetable + 8 * i

def vmCreate (s : Ram) : Except Stop (ℕ × Ram) := do
  let (pagetable, s) ← memMalloc S s
  if pagetable = 0 then return (0, s) else return (pagetable, clearPage s pagetable)

/-- One turn of the loop in `walk`: the table one level down, if there is one. -/
def walkStep (s : Ram) (pagetable va level : ℕ) (alloc : Bool) : Except Stop (Option ℕ × Ram) :=
  let pte := entry pagetable (PX level va)
  if s.word pte &&& PTE_V ≠ 0 then .ok (some (PTE2PA (s.word pte)), s)
  else if !alloc then .ok (none, s)
  else do
    let (p, s) ← memMalloc S s
    if p = 0 then return (none, s)
    else return (some p, setWord (clearPage s p) pte (PA2PTE p ||| PTE_V))

/-- The address of the leaf entry for `va`; `none` is the null pointer. -/
def walk (s : Ram) (pagetable va : ℕ) (alloc : Bool) : Except Stop (Option ℕ × Ram) := do
  let (mid, s) ← walkStep S s pagetable va 2 alloc
  match mid with
  | none => return (none, s)
  | some mid =>
    let (low, s) ← walkStep S s mid va 1 alloc
    return (low.map fun low => entry low (PX 0 va), s)

/-- The loop of `vm_map`; the result is its return value. -/
def vmMapLoop (pagetable last perm : ℕ) (remap : Bool) : ℕ → Ram → ℕ → ℕ →
    Except Stop (ℤ × Ram)
  | 0, _, _, _ => .error .spin
  | fuel + 1, s, va, pa => do
    let (pte, s) ← walk S s pagetable va true
    match pte with
    | none => .ok (-1, s)
    | some pte =>
      if s.word pte &&& PTE_V ≠ 0 ∧ !remap then .error .vmMapRemap
      else
        let s := setWord s pte (PA2PTE pa ||| sext32 perm ||| PTE_V)
        if va = last then .ok (0, s)
        else
          vmMapLoop pagetable last perm remap fuel s ((va + PGSIZE) % WORD)
            ((pa + PGSIZE) % WORD)

/-- After `WORD / PGSIZE` turns `va` is back where it started, so the fuel runs out only
on a loop that never ends. -/
def vmMap (s : Ram) (pagetable va pa sz perm : ℕ) (remap : Bool) : Except Stop (ℤ × Ram) :=
  vmMapLoop S pagetable (pgRoundDown ((va + sz + WORD - 1) % WORD)) perm remap (WORD / PGSIZE)
    s va pa

def uvmMap (s : Ram) (pagetable va pa sz perm : ℕ) (remap : Bool) : Except Stop (ℤ × Ram) :=
  vmMap S s pagetable va pa sz (perm ||| PTE_U) remap

def vmUnmapLoop (pagetable stop : ℕ) (doFree : Bool) : ℕ → Ram → ℕ → Except Stop Ram
  | 0, _, _ => .error .spin
  | fuel + 1, s, a =>
    if a < stop then do
      let (pte, s) ← walk S s pagetable a false
      match pte with
      | none => .error .uvmunmapWalk
      | some pte =>
        if s.word pte &&& PTE_V = 0 then .error .uvmunmapNotMapped
        else if PTE_FLAGS (s.word pte) = PTE_V then .error .uvmunmapNotALeaf
        else
          let s := if doFree then { s with freed := PTE2PA (s.word pte) :: s.freed } else s
          vmUnmapLoop pagetable stop doFree fuel (setWord s pte 0) ((a + PGSIZE) % WORD)
    else .ok s

def vmUnmap (s : Ram) (pagetable va npages : ℕ) (doFree : Bool) : Except Stop Ram :=
  if va % PGSIZE ≠ 0 then .error .uvmunmapNotAligned
  else vmUnmapLoop S pagetable ((va + npages * PGSIZE) % WORD) doFree (WORD / PGSIZE + 1) s va

def walkaddr (s : Ram) (pagetable va : ℕ) : Except Stop ℕ :=
  if va ≥ MAXVA then .ok 0
  else do
    let (pte, s) ← walk S s pagetable va false
    match pte with
    | none => return 0
    | some pte =>
      if s.word pte &&& PTE_V = 0 then return 0
      else if s.word pte &&& PTE_U = 0 then return 0
      else return PTE2PA (s.word pte) ||| (va &&& 0xFFF)

end Zrhos.Vm
