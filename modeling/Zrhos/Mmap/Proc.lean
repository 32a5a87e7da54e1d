import Zrhos.Mmap.Model

/-! The task table and the system calls that create, replace and reap user images, from
`proc.c`, `exec.c` and `vm.c`. Trapframe bytes and the frames of the page tables belong to
the rest of the kernel, which moves by steps of its own. -/
namespace Zrhos.Mmap

/-! ### Copies to user memory -/

/-- Zero for an address that no user page backs. -/
def walkaddr (pagetable : ℕ → ℕ) (va : ℕ) : ℕ :=
  if va ≥ MAXVA then 0
  else
    let pte := pagetable (vpn va)
    if pte &&& PTE_V = 0 then 0
    else if pte &&& PTE_U = 0 then 0
    else PTE2PA pte ||| (va &&& 0xFFF)

/-- `memmove` of the bytes `bs` to offset `off` of the frame at `p`. -/
def writeBytes (mem : ℕ → ℕ → ℕ) (p off : ℕ) (bs : List ℕ) : ℕ → ℕ → ℕ :=
  Function.update mem p fun i => if off ≤ i then bs.getD (i - off) (mem p i) else mem p i

/-- The bytes left are the length of `src`; every round moves at least one of them. -/
def copyoutLoop (pagetable : ℕ → ℕ) : ℕ → Phys → ℕ → List ℕ → ℤ × Phys
  | 0, s, _, _ => (0, s)
  | fuel + 1, s, dstva, src =>
    if src.length = 0 then (0, s)
    else
      let va0 := pgRoundDown dstva
      let pa0 := walkaddr pagetable va0
      if pa0 = 0 then (-1, s)
      else
        let n := min (PGSIZE - (dstva - va0)) src.length
        copyoutLoop pagetable fuel
          { s with mem := writeBytes s.mem pa0 (dstva - va0) (src.take n) }
          ((va0 + PGSIZE) % WORD) (src.drop n)

/-- The return value and the memory. -/
def copyout (s : Phys) (pagetable : ℕ → ℕ) (dstva : ℕ) (src : List ℕ) : ℤ × Phys :=
  copyoutLoop pagetable src.length s dstva src

/-! ### Images -/

/-- A program header with the bytes of its segment in the file. -/
structure ProgHdr where
  vaddr : ℕ
  memsz : ℕ
  flags : ℕ
  data : List ℕ

def flags2perm (flags : ℕ) : ℕ :=
  PTE_R ||| (if flags &&& 1 ≠ 0 then PTE_X else 0) ||| (if flags &&& 2 ≠ 0 then PTE_W else 0)

def loadsegLoop (pagetable : ℕ → ℕ) : ℕ → Phys → ℕ → List ℕ → Except Stop Phys
  | 0, s, _, _ => .ok s
  | fuel + 1, s, va, data =>
    if data.length = 0 then .ok s
    else
      let pa := walkaddr pagetable va
      if pa = 0 then .error .loadsegNoAddress
      else loadsegLoop pagetable fuel
        { s with mem := writeBytes s.mem pa 0 (data.take PGSIZE) } ((va + PGSIZE) % WORD)
        (data.drop PGSIZE)

def loadseg (s : Phys) (pagetable : ℕ → ℕ) (va : ℕ) (data : List ℕ) : Except Stop Phys :=
  loadsegLoop pagetable data.length s va data

def loadProgram : List ProgHdr → Phys → Task → Except Stop (Phys × Task)
  | [], s, t => .ok (s, t)
  | ph :: phs, s, t =>
    if ph.memsz < ph.data.length then .error .execBad
    else if (ph.vaddr + ph.memsz) % WORD < ph.vaddr then .error .execBad
    else if ph.vaddr % PGSIZE ≠ 0 then .error .execBad
    else do
      let (maddr, s, t) ← mmapByObj s t ph.vaddr ph.memsz (flags2perm ph.flags) MAP_PRIVATE true
      if maddr ≠ ph.vaddr then .error .execBad
      else
        let s ← loadseg s t.pagetable ph.vaddr ph.data
        loadProgram phs s t

def MAXARG : ℕ := 32
def VA_USERSTACK : ℕ := VA_ANYNOMOUS - 2 * PGSIZE

/-- `sp -= n; sp -= sp % 16`. -/
def pushDown (sp n : ℕ) : ℕ :=
  let sp := (sp + WORD - n) % WORD
  sp - sp % 16

/-- The eight bytes of a word. -/
def wordBytes (x : ℕ) : List ℕ := (List.range 8).map fun i => x / 256 ^ i % 256

/-- The argument strings, each with its final zero; `ustack` collects their addresses. -/
def pushArgs (pagetable : ℕ → ℕ) : List (List ℕ) → Phys → ℕ → List ℕ → Except Stop Phys
  | [], s, sp, ustack =>
    let src := ustack.flatMap wordBytes ++ wordBytes 0
    let (r, s) := copyout s pagetable (pushDown sp src.length) src
    if r < 0 then .error .execBad else .ok s
  | arg :: args, s, sp, ustack =>
    if ustack.length ≥ MAXARG then .error .execBad
    else
      let sp := pushDown sp (arg.length + 1)
      let (r, s) := copyout s pagetable sp (arg ++ [0])
      if r < 0 then .error .execBad else pushArgs pagetable args s sp (ustack ++ [sp])

/-- `exec` up to the point where it commits: the new page table and region tree. -/
def execImage (trampoline : ℕ) (s : Phys) (t : Task) (highLevel : ℕ) (phs : List ProgHdr)
    (argv : List (List ℕ)) : Except Stop (Phys × Task) := do
  let (s, nt) ← loadProgram phs s (userTask trampoline t.trapframe highLevel)
  let (addr, s, nt) ← mmapByObj s nt VA_USERSTACK (2 * PGSIZE) (PERM_R ||| PERM_W) MAP_PRIVATE true
  if addr = 0 then .error .execBad
  else
    let s ← pushArgs nt.pagetable argv s (VA_USERSTACK + 2 * PGSIZE) []
    return (s, nt)

/-! ### The system -/

structure Sys where
  trampoline : ℕ
  phys : Phys
  task : ℕ → Option Task

def Sys.set (σ : Sys) (s : Phys) (i : ℕ) (t : Option Task) : Sys :=
  { σ with phys := s, task := Function.update σ.task i t }

def utaskCreate (trampoline : ℕ) (s : Phys) (highLevel : ℕ) : Except Stop (Phys × Task) := do
  let (trapframe, s) ← memMalloc s
  return (s, userTask trampoline trapframe highLevel)

/-- `free_task`. The page table frames go back first and leave the pages alone
(`free_pagetable` with `do_free` zero). -/
def freeTask (s : Phys) (t : Task) : Phys := mmapDestroy (memFree s t.trapframe) t.tree

/-- What user tasks and the kernel can do. A store is a step of its own, taken when the
hardware lets it through; until then the task faults. -/
inductive Act where
  | create (i highLevel : ℕ)
  | mmap (i addr sz perm flag : ℕ) (allocPhy : Bool)
  | fault (i stval scause : ℕ)
  | store (i va b : ℕ)
  | fork (i j highLevel : ℕ)
  | munmap (i addr : ℕ)
  | exec (i highLevel : ℕ) (phs : List ProgHdr) (argv : List (List ℕ))
  | wait (i : ℕ)
  | kernel (mem : ℕ → ℕ → ℕ) (pages : List ℕ) (heapTop : ℕ)

inductive Step : Sys → Act → Sys → Prop where
  | create {σ i highLevel s t} : i < NTASK → σ.task i = none →
      utaskCreate σ.trampoline σ.phys highLevel = .ok (s, t) →
      Step σ (.create i highLevel) (σ.set s i (some t))
  | mmap {σ i addr sz perm flag allocPhy t r s t'} : σ.task i = some t →
      mmapByObj σ.phys t addr sz perm flag allocPhy = .ok (r, s, t') →
      Step σ (.mmap i addr sz perm flag allocPhy) (σ.set s i (some t'))
  | fault {σ i stval scause t s t'} : σ.task i = some t →
      handlePagefault σ.phys t stval scause = .ok (s, t') →
      Step σ (.fault i stval scause) (σ.set s i (some t'))
  | store {σ i va b t pa} : σ.task i = some t → translate t va PTE_W = some pa →
      Step σ (.store i va b)
        { σ with phys := { σ.phys with mem := writeBytes σ.phys.mem pa (va % PGSIZE) [b] } }
  | fork {σ i j highLevel t s₁ nt s t' nt'} : σ.task i = some t → j < NTASK → σ.task j = none →
      utaskCreate σ.trampoline σ.phys highLevel = .ok (s₁, nt) →
      copyMmap s₁ t nt = .ok (s, t', nt') →
      Step σ (.fork i j highLevel) ((σ.set s i (some t')).set s j (some nt'))
  | munmap {σ i addr t r s t'} : σ.task i = some t →
      Mmap.munmap σ.phys t addr = .ok (r, s, t') →
      Step σ (.munmap i addr) (σ.set s i (some t'))
  | exec {σ i highLevel phs argv t s nt} : σ.task i = some t →
      execImage σ.trampoline σ.phys t highLevel phs argv = .ok (s, nt) →
      Step σ (.exec i highLevel phs argv) (σ.set (mmapDestroy s t.tree) i (some nt))
  | wait {σ i t} : σ.task i = some t →
      Step σ (.wait i) (σ.set (freeTask σ.phys t) i none)
  | kernel {σ mem pages heapTop} :
      Step σ (.kernel mem pages heapTop)
        { σ with phys := { σ.phys with mem := mem, pages := pages, heapTop := heapTop } }

/-- Runs whose steps all meet a condition. -/
inductive Run (meets : Sys → Act → Prop) : Sys → Sys → Prop where
  | refl {σ} : Run meets σ σ
  | tail {σ σ' σ'' a} : Run meets σ σ' → meets σ' a → Step σ' a σ'' → Run meets σ σ''

end Zrhos.Mmap
