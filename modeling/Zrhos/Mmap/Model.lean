import Zrhos.Platform
import Zrhos.Lib.OrderedSet
import Zrhos.Lib.Chain

/-! User memory: regions, page faults, copy-on-write and fork, from `mmap.c`, `proc.c`
and `vm.c`. A page table is the map from page numbers to entries that it stands for, and
the reference counters are exact. -/
namespace Zrhos.Mmap
open OrderedSet LinkedList

def PERM_R : ℕ := 1 <<< 1
def PERM_W : ℕ := 1 <<< 2
def PERM_X : ℕ := 1 <<< 3

def MAP_ANONYMOUS : ℕ := 1
def MAP_PRIVATE : ℕ := 2
def MAP_SHARED : ℕ := 4
def MAP_ZERO : ℕ := 8

/-! ### Physical pages -/

/-- The bytes of each page frame, the page list and the top of the heap, the reference
counters, and two logs: the pages taken for users and the pages `ref_cnt_dec` gave
back. -/
structure Phys where
  mem : ℕ → ℕ → ℕ
  pages : List ℕ
  heapTop : ℕ
  ref : ℕ → ℕ
  handed : List ℕ
  freed : List ℕ

/-- The state `mmap_init` finds: no page has a reference. -/
def mmapInit (mem : ℕ → ℕ → ℕ) (pages : List ℕ) (heapTop : ℕ) : Phys :=
  { mem := mem
    pages := pages
    heapTop := heapTop
    ref := fun _ => 0
    handed := []
    freed := [] }

/-- `SETNEXT(p, v)`: the first eight bytes of the page at `p`. -/
def setLink (mem : ℕ → ℕ → ℕ) (p v : ℕ) : ℕ → ℕ → ℕ :=
  Function.update mem p fun i => if i < 8 then v / 256 ^ i % 256 else mem p i

/-- `mem_malloc(PGSIZE)`. -/
def memMalloc (s : Phys) : Except Stop (ℕ × Phys) :=
  match s.pages with
  | p :: rest => .ok (p, { s with pages := rest })
  | [] =>
    if PGSIZE + s.heapTop > MEMSTOP then .error .noSpaceInHeap
    else .ok (s.heapTop, { s with heapTop := s.heapTop + PGSIZE })

/-- `mem_free` of a block of one page. -/
def memFree (s : Phys) (p : ℕ) : Phys :=
  match s.pages with
  | [] => { s with mem := setLink s.mem p 0, pages := [p] }
  | q :: _ =>
    if q < p then
      let xs := s.pages.takeWhile (· < p)
      let ys := s.pages.dropWhile (· < p)
      if ys.headD 0 = p then s
      else { s with
        mem := setLink (setLink s.mem (lastOr 0 xs) p) p (ys.headD 0)
        pages := xs ++ p :: ys }
    else { s with mem := setLink s.mem p q, pages := p :: s.pages }

def refCntInc (s : Phys) (pa : ℕ) : Phys := { s with ref := Function.update s.ref pa (s.ref pa + 1) }

def refCntDec (s : Phys) (pa : ℕ) : Phys :=
  if s.ref pa = 0 then s
  else
    let s := { s with ref := Function.update s.ref pa (s.ref pa - 1) }
    if s.ref pa = 0 then { memFree s pa with freed := pa :: s.freed } else s

/-- A page for a user, counted once. -/
def userPage (s : Phys) : Except Stop (ℕ × Phys) := do
  let (pa, s) ← memMalloc s
  return (pa, { s with handed := pa :: s.handed })

/-! ### Tasks -/

/-- A node of the region tree. -/
structure MmapNode where
  addr : ℕ
  sz : ℕ
  perm : ℕ
  flag : ℕ
  deriving DecidableEq, Repr

/-- The page table by page number, the trapframe, and the fields of `mmap_obj`. -/
structure Task where
  pagetable : ℕ → ℕ
  trapframe : ℕ
  tree : List MmapNode
  highLevel : ℕ

/-- `for (va = addr; va < addr + sz; va += PGSIZE)` of a region, in 64-bit arithmetic. -/
def MmapNode.vas (n : MmapNode) : List ℕ :=
  if n.addr + n.sz < WORD then (List.range (n.sz / PGSIZE)).map fun i => n.addr + i * PGSIZE
  else []

/-- `uvm_map` of one page. The loop of `vm_map` runs past an address that is not
aligned. -/
def uvmMap (pagetable : ℕ → ℕ) (va pa perm : ℕ) (remap : Bool) : Except Stop (ℕ → ℕ) :=
  if pagetable (vpn va) &&& PTE_V ≠ 0 ∧ !remap then .error .vmMapRemap
  else if va % PGSIZE ≠ 0 then .error .spin
  else .ok (Function.update pagetable (vpn va) (PA2PTE pa ||| sext32 (perm ||| PTE_U) ||| PTE_V))

/-- `user_pagetable` and `mmap_create` of a new task: nobody sets `high_level`. -/
def userTask (trampoline trapframe highLevel : ℕ) : Task where
  pagetable v :=
    if v = vpn TRAMPOLINE then PA2PTE trampoline ||| (PTE_R ||| PTE_X) ||| PTE_V
    else if v = vpn TRAPFRAME then PA2PTE trapframe ||| (PTE_R ||| PTE_W) ||| PTE_V
    else if v = vpn USERRDONLYMAP then PA2PTE USERRDONLY ||| (PTE_R ||| PTE_U) ||| PTE_V
    else 0
  trapframe := trapframe
  tree := []
  highLevel := highLevel

def uvmMappagesLoop (last perm : ℕ) : ℕ → Phys → (ℕ → ℕ) → ℕ → Except Stop (Phys × (ℕ → ℕ))
  | 0, _, _, _ => .error .spin
  | fuel + 1, s, pagetable, a => do
    let (pa, s) ← userPage s
    let pagetable ← uvmMap pagetable a pa perm false
    let s := refCntInc s pa
    if a = last then return (s, pagetable)
    else uvmMappagesLoop last perm fuel s pagetable ((a + PGSIZE) % WORD)

def uvmMappages (s : Phys) (pagetable : ℕ → ℕ) (va sz perm : ℕ) :
    Except Stop (Phys × (ℕ → ℕ)) :=
  if sz = 0 then .ok (s, pagetable)
  else uvmMappagesLoop (pgRoundDown ((va + sz + WORD - 1) % WORD)) perm (WORD / PGSIZE) s
    pagetable (pgRoundDown va)

/-- The address mapped is the first component. -/
def mmapByObj (s : Phys) (t : Task) (addr sz perm flag : ℕ) (allocPhy : Bool) :
    Except Stop (ℕ × Phys × Task) :=
  if flag &&& MAP_PRIVATE ≠ 0 ∧ flag &&& MAP_SHARED ≠ 0 then .error .mmapPrivateAndShared
  else
    let flag := if flag &&& MAP_SHARED = 0 then flag ||| MAP_PRIVATE else flag
    let addr := pgRoundDown addr
    let sz := pgRoundUp sz
    let randMemory := addr = 0 ∧ flag &&& MAP_ZERO = 0 ∧ flag &&& MAP_ANONYMOUS ≠ 0
    let addr := if randMemory then (VA_ANYNOMOUS + t.highLevel) % WORD else addr
    match insert MmapNode.addr t.tree ⟨addr, sz, perm, flag⟩ with
    | none => .error .mmapFailed
    | some tree =>
      let t := { t with
        tree := tree
        highLevel := if randMemory then (t.highLevel + sz) % WORD else t.highLevel }
      if allocPhy then do
        let (s, pagetable) ← uvmMappages s t.pagetable addr sz perm
        return (addr, s, { t with pagetable := pagetable })
      else .ok (addr, s, t)

def sysMmap (s : Phys) (t : Task) (addr sz perm flag : ℕ) : Except Stop (ℕ × Phys × Task) :=
  mmapByObj s t addr sz perm flag false

/-! ### Page faults -/

/-- The region that `handle_pagefault` takes to contain `va`. -/
def regionAt (t : Task) (va : ℕ) : Option MmapNode :=
  match floor MmapNode.addr t.tree va with
  | none => none
  | some n => if n.addr ≤ va ∧ va < (n.addr + n.sz) % WORD then some n else none

def accessPerm (scause : ℕ) : ℕ :=
  if scause = 12 then PERM_X else if scause = 13 then PERM_R else if scause = 15 then PERM_W else 0

/-- Un-share the page of `va`: the source looks the counter up under the virtual
address. -/
def copyOnWrite (s : Phys) (t : Task) (va : ℕ) : Except Stop (Phys × Task) :=
  let pte := t.pagetable (vpn va)
  if s.ref va = 1 then
    .ok (s, { t with pagetable := Function.update t.pagetable (vpn va) (pte ||| PTE_W) })
  else do
    let s := refCntDec s (PTE2PA pte)
    let (pa, s) ← userPage s
    let s := { s with mem := Function.update s.mem pa (s.mem (PTE2PA pte)) }
    let pte := PA2PTE pa ||| PTE_FLAGS pte ||| PTE_W
    return (refCntInc s pa, { t with pagetable := Function.update t.pagetable (vpn va) pte })

def handlePagefault (s : Phys) (t : Task) (stval scause : ℕ) : Except Stop (Phys × Task) :=
  let va := pgRoundDown stval
  match regionAt t va with
  | none => .error .pageFaultNoMapping
  | some n =>
    let pte := t.pagetable (vpn va)
    if pte &&& PTE_V ≠ 0 then
      if n.perm &&& accessPerm scause = 0 then .error .accessFaultDenied
      else if PTE_FLAGS pte &&& PTE_W = 0 ∧ accessPerm scause = PERM_W then copyOnWrite s t va
      else .ok (s, t)
    else if n.flag &&& MAP_ANONYMOUS ≠ 0 then do
      let (pa, s) ← userPage s
      let pagetable ← uvmMap t.pagetable va pa n.perm false
      return (refCntInc s pa, { t with pagetable := pagetable })
    else .ok (s, t)

/-! ### User accesses -/

/-- Sv39 accepts addresses whose upper bits repeat bit 38. -/
def Canonical (va : ℕ) : Prop := va < 2 ^ 38 ∨ (2 ^ 64 - 2 ^ 38 ≤ va ∧ va < 2 ^ 64)

instance (va : ℕ) : Decidable (Canonical va) := by unfold Canonical; infer_instance

/-- The frame a user access with the permissions `bits` goes to. -/
def translate (t : Task) (va bits : ℕ) : Option ℕ :=
  let pte := t.pagetable (vpn va)
  let need := PTE_V ||| PTE_U ||| PTE_R ||| bits
  if Canonical va ∧ pte &&& need = need then some (PTE2PA pte) else none

/-- An access faults until the page lets it through. Two faults can change the page, so a
third one would repeat for ever. -/
def access (bits scause : ℕ) : ℕ → Phys → Task → ℕ → Except Stop (ℕ × Phys × Task)
  | 0, _, _, _ => .error .spin
  | fuel + 1, s, t, va =>
    match translate t va bits with
    | some pa => .ok (pa, s, t)
    | none => do
      let (s, t) ← handlePagefault s t va scause
      access bits scause fuel s t va

def userLoad (s : Phys) (t : Task) (va : ℕ) : Except Stop (ℕ × Phys × Task) := do
  let (pa, s, t) ← access 0 13 3 s t va
  return (s.mem pa (va % PGSIZE), s, t)

/-- A store of one byte. -/
def userStore (s : Phys) (t : Task) (va b : ℕ) : Except Stop (Phys × Task) := do
  let (pa, s, t) ← access PTE_W 15 3 s t va
  return ({ s with mem := Function.update s.mem pa (Function.update (s.mem pa) (va % PGSIZE) b) }, t)

/-! ### Fork, unmap and teardown -/

/-- The permissions `copy_mmap` gives a page. -/
def copyPerm (n : MmapNode) : ℕ :=
  if n.flag &&& MAP_PRIVATE ≠ 0 then n.perm &&& (WORD - 1 - PTE_W) else n.perm

def copyPage (n : MmapNode) (s : Phys) (pt npt : ℕ → ℕ) (va : ℕ) :
    Except Stop (Phys × (ℕ → ℕ) × (ℕ → ℕ)) :=
  let pte := pt (vpn va)
  if pte &&& PTE_V = 0 then .ok (s, pt, npt)
  else do
    let pa := PTE2PA pte
    let pt ← uvmMap pt va pa (copyPerm n) true
    let npt ← uvmMap npt va pa (copyPerm n) false
    return (refCntInc s pa, pt, npt)

def copyPages (n : MmapNode) : List ℕ → Phys → (ℕ → ℕ) → (ℕ → ℕ) →
    Except Stop (Phys × (ℕ → ℕ) × (ℕ → ℕ))
  | [], s, pt, npt => .ok (s, pt, npt)
  | va :: vas, s, pt, npt => do
    let (s, pt, npt) ← copyPage n s pt npt va
    copyPages n vas s pt npt

def copyRegions : List MmapNode → Phys → Task → Task → Except Stop (Phys × Task × Task)
  | [], s, t, nt => .ok (s, t, nt)
  | n :: ns, s, t, nt =>
    match insert MmapNode.addr nt.tree n with
    | none => .error .copyMmapInsert
    | some tree => do
      let (s, pt, npt) ← copyPages n n.vas s t.pagetable nt.pagetable
      copyRegions ns s { t with pagetable := pt } { nt with pagetable := npt, tree := tree }

def copyMmap (s : Phys) (t nt : Task) : Except Stop (Phys × Task × Task) := do
  let (s, t, nt) ← copyRegions t.tree s t nt
  return (s, t, { nt with highLevel := t.highLevel })

def unmapPages : List ℕ → Phys → (ℕ → ℕ) → Except Stop (Phys × (ℕ → ℕ))
  | [], s, pt => .ok (s, pt)
  | va :: vas, s, pt =>
    let pte := pt (vpn va)
    if pte &&& PTE_V = 0 then unmapPages vas s pt
    else if va % PGSIZE ≠ 0 then .error .uvmunmapNotAligned
    else if PTE_FLAGS pte = PTE_V then .error .uvmunmapNotALeaf
    else unmapPages vas (refCntDec s (PTE2PA pte)) (Function.update pt (vpn va) 0)

/-- The return value is the first component. -/
def munmap (s : Phys) (t : Task) (addr : ℕ) : Except Stop (ℤ × Phys × Task) :=
  match locate MmapNode.addr t.tree addr with
  | none => .ok (-1, s, t)
  | some (xs, n, ys) => do
    let (s, pt) ← unmapPages n.vas s t.pagetable
    return (0, s, { t with pagetable := pt, tree := xs ++ ys })

/-- `mmap_destroy`: `mmap_freef` counts down the virtual addresses of each region. -/
def mmapDestroy (s : Phys) (tree : List MmapNode) : Phys :=
  (tree.flatMap MmapNode.vas).foldl refCntDec s

end Zrhos.Mmap
