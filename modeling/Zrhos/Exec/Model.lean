import Zrhos.Exec.Alloc
import Zrhos.Mmap.Proc
import Zrhos.Sysfile.Model

/-! `exec` on the bytes of a file, as `sys_exec` calls it, from `exec.c`, `elf.h`, `sysfile.c`,
`proc.c` and `mmap.c`: the headers it reads, the pages it takes in their order, the image it builds,
the registers it leaves, and the end of the old image. The file system's side of the call is left
out, and a page table is the map from page numbers to entries that it stands for. -/
namespace Zrhos.Exec
open Mmap
open Fs (BSIZE)
open Sysfile (MAXFILE)

/-! ### Files -/

/-- What `readi` finds in an inode: the bytes of the file, and those its blocks hold
behind them. -/
structure File where
  content : List ℕ
  slack : List ℕ
  byte_lt : ∀ b ∈ content ++ slack, b < 256
  size_lt : content.length < 2 ^ 32

def File.bytes (f : File) (off n : ℕ) : List ℕ := ((f.content ++ f.slack).drop off).take n

/-- The bytes copied, or none where `readi` returns `-1`. -/
def File.readi (f : File) (off n : ℕ) : Option (List ℕ) :=
  if off > f.content.length ∨ (off + n) % 2 ^ 32 < off ∨ (off + n) % 2 ^ 32 > MAXFILE * BSIZE then
    none
  else some (f.bytes off n)

def fromBytes : List ℕ → ℕ
  | [] => 0
  | b :: bs => b + 256 * fromBytes bs

/-- A field of `n` bytes at an offset. -/
def field (bs : List ℕ) (off n : ℕ) : ℕ := fromBytes ((bs.drop off).take n)

def ELF_MAGIC : ℕ := 0x464C457F
def ELF_PROG_LOAD : ℕ := 1
def ELF_PROG_FLAG_EXEC : ℕ := 1
def ELF_PROG_FLAG_WRITE : ℕ := 2

/-- `sizeof(struct elfhdr)` and `sizeof(struct proghdr)`. -/
def EHSIZE : ℕ := 64
def PHSIZE : ℕ := 56

/-- The fields of `struct elfhdr` that `exec` reads. -/
structure Elfhdr where
  magic : ℕ
  entry : ℕ
  phoff : ℕ
  phnum : ℕ

def elfhdr (bs : List ℕ) : Elfhdr where
  magic := field bs 0 4
  entry := field bs 24 8
  phoff := field bs 32 8
  phnum := field bs 56 2

structure Proghdr where
  type : ℕ
  flags : ℕ
  off : ℕ
  vaddr : ℕ
  filesz : ℕ
  memsz : ℕ
  deriving DecidableEq

def proghdr (bs : List ℕ) : Proghdr where
  type := field bs 0 4
  flags := field bs 4 4
  off := field bs 8 8
  vaddr := field bs 16 8
  filesz := field bs 32 8
  memsz := field bs 40 8

/-! ### Page tables and regions -/

/-- The image of a task: beside its entries and regions the pages of its page table, and for which
parts of the address space there are tables of level 1 and of level 0. -/
structure Image extends Task where
  tables : List ℕ
  mids : List ℕ
  lows : List ℕ

/-- The bytes of all pages, and the allocator. -/
structure Kern (κ : Type) where
  mem : ℕ → ℕ → ℕ
  alloc : Alloc κ

variable {κ : Type}

def Kern.phys (k : Kern κ) : Phys := k.alloc.phys k.mem

/-- One level of `walk` with `alloc`: the table of the `n`-th part of the address space. -/
def descend (a : Alloc κ) (tables parts : List ℕ) (n : ℕ) :
    Except Stop (Alloc κ × List ℕ × List ℕ) :=
  if n ∈ parts then .ok (a, tables, parts)
  else do
    let (p, a) ← getpage a
    return (a, tables ++ [p], n :: parts)

/-- `walk` with `alloc`: the tables on the way to an entry. -/
def walk (a : Alloc κ) (im : Image) (va : ℕ) : Except Stop (Alloc κ × Image) := do
  let (a, tables, mids) ← descend a im.tables im.mids (vpn va / 2 ^ 18)
  let (a, tables, lows) ← descend a tables im.lows (vpn va / 2 ^ 9)
  return (a, { im with tables, mids, lows })

/-- `uvm_map` of one page that is not mapped yet. -/
def uvmMap (a : Alloc κ) (im : Image) (va pa perm : ℕ) : Except Stop (Alloc κ × Image) := do
  let (a, im) ← walk a im va
  let pagetable ← Mmap.uvmMap im.pagetable va pa perm false
  return (a, { im with pagetable })

/-- `user_pagetable`, whose entries `userTask` lists: the tables are taken on the way to them. -/
def userPagetable (a : Alloc κ) (trampoline trapframe highLevel : ℕ) :
    Except Stop (Alloc κ × Image) := do
  let (root, a) ← getpage a
  let im : Image :=
    { userTask trampoline trapframe highLevel with tables := [root], mids := [], lows := [] }
  let (a, im) ← walk a im TRAMPOLINE
  let (a, im) ← walk a im TRAPFRAME
  walk a im USERRDONLYMAP

/-- `mmap_alloc`. -/
def mmapAlloc (a : Alloc κ) : Except Stop (Alloc κ) := do
  let a ← memMallocSmall a MMAP_NODE_SIZE
  memMallocSmall a RB_NODE_SIZE

/-- `sys_mmap`: the blocks for the region, and the region. -/
def sysMmap (k : Kern κ) (im : Image) (addr sz perm flag : ℕ) :
    Except Stop (ℕ × Kern κ × Image) := do
  let a ← mmapAlloc k.alloc
  let (addr, _, t) ← Mmap.sysMmap (a.phys k.mem) im.toTask addr sz perm flag
  return (addr, { k with alloc := a }, { im with toTask := t })

section Counted
variable (cnt : Counters κ)

def uvmMappagesLoop (last perm : ℕ) : ℕ → Alloc κ → Image → ℕ → Except Stop (Alloc κ × Image)
  | 0, _, _, _ => .error .spin
  | fuel + 1, alloc, im, a => do
    let (pa, alloc) ← getpage alloc
    let (alloc, im) ← uvmMap alloc im a pa perm
    let alloc ← refCntInc cnt alloc pa
    if a = last then return (alloc, im)
    else uvmMappagesLoop last perm fuel alloc im ((a + PGSIZE) % WORD)

def uvmMappages (a : Alloc κ) (im : Image) (va sz perm : ℕ) : Except Stop (Alloc κ × Image) :=
  if sz = 0 then .ok (a, im)
  else uvmMappagesLoop cnt (pgRoundDown ((va + sz + WORD - 1) % WORD)) perm (WORD / PGSIZE) a im
    (pgRoundDown va)

/-- `mmap_by_obj` with `alloc_phy`; the region is that of `Mmap.mmapByObj`. -/
def mmapByObj (a : Alloc κ) (im : Image) (addr sz perm flag : ℕ) :
    Except Stop (ℕ × Alloc κ × Image) := do
  let a ← mmapAlloc a
  let (addr, _, t) ← Mmap.mmapByObj (a.phys fun _ _ => 0) im.toTask addr sz perm flag false
  let (a, im) ← uvmMappages cnt a { im with toTask := t } addr (pgRoundUp sz) perm
  return (addr, a, im)

/-! ### Loading -/

/-- `loadseg`, with `offset`, `sz` and `i` of 32 bits. -/
def File.loadsegLoop (f : File) (pagetable : ℕ → ℕ) (va offset sz : ℕ) :
    ℕ → ℕ → Phys → Except Stop Phys
  | 0, _, _ => .error .spin
  | fuel + 1, i, s =>
    if i < sz then
      let pa := walkaddr pagetable ((va + i) % WORD)
      if pa = 0 then .error .loadsegNoAddress
      else
        let n := if sz - i < PGSIZE then sz - i else PGSIZE
        match f.readi ((offset + i) % 2 ^ 32) n with
        | none => .error .execBad
        | some bs =>
          if bs.length ≠ n then .error .execBad
          else f.loadsegLoop pagetable va offset sz fuel ((i + PGSIZE) % 2 ^ 32)
            { s with mem := writeBytes s.mem pa 0 bs }
    else .ok s

/-- After `2 ^ 32 / PGSIZE` pages `i` is back at zero. -/
def File.loadseg (f : File) (s : Phys) (pagetable : ℕ → ℕ) (va offset sz : ℕ) :
    Except Stop Phys :=
  f.loadsegLoop pagetable va offset sz (2 ^ 32 / PGSIZE + 1) 0 s

/-- The loop over the program headers; `off` is an `int` that `readi` takes as unsigned. -/
def File.load (f : File) : ℕ → ℕ → Kern κ → Image → Except Stop (Kern κ × Image)
  | 0, _, k, im => .ok (k, im)
  | n + 1, off, k, im =>
    match f.readi off PHSIZE with
    | none => .error .execBad
    | some bs =>
      if bs.length ≠ PHSIZE then .error .execBad
      else
        let ph := proghdr bs
        if ph.type ≠ ELF_PROG_LOAD then f.load n ((off + PHSIZE) % 2 ^ 32) k im
        else if ph.memsz < ph.filesz then .error .execBad
        else if (ph.vaddr + ph.memsz) % WORD < ph.vaddr then .error .execBad
        else if ph.vaddr % PGSIZE ≠ 0 then .error .execBad
        else do
          let (maddr, a, im) ←
            mmapByObj cnt k.alloc im ph.vaddr ph.memsz (flags2perm ph.flags) MAP_PRIVATE
          if maddr ≠ ph.vaddr then .error .execBad
          else
            let s ← f.loadseg (a.phys k.mem) im.pagetable ph.vaddr (ph.off % 2 ^ 32)
              (ph.filesz % 2 ^ 32)
            f.load n ((off + PHSIZE) % 2 ^ 32) ⟨s.mem, a⟩ im

end Counted

/-- The strings and the array; the second component is `sp`. -/
def pushStack (pagetable : ℕ → ℕ) :
    List (List ℕ) → Phys → ℕ → List ℕ → Except Stop (Phys × ℕ)
  | [], s, sp, ustack =>
    let sp := pushDown sp ((ustack.length + 1) * 8)
    let (r, s) := copyout s pagetable sp (ustack.flatMap wordBytes ++ wordBytes 0)
    if r < 0 then .error .execBad else .ok (s, sp)
  | arg :: args, s, sp, ustack =>
    if ustack.length ≥ MAXARG then .error .execBad
    else
      let sp := pushDown sp (arg.length + 1)
      let (r, s) := copyout s pagetable sp (arg ++ [0])
      if r < 0 then .error .execBad else pushStack pagetable args s sp (ustack ++ [sp])

/-! ### Registers -/

/-- The words of a trapframe by their offset. -/
abbrev Trapframe := ℕ → ℕ

def TF_EPC : ℕ := 24
def TF_SP : ℕ := 48
def TF_A0 : ℕ := 112
def TF_A1 : ℕ := 120

/-- `memset(t->trapframe, 0, n)`. -/
def Trapframe.memset (tf : Trapframe) (n : ℕ) : Trapframe := fun off =>
  if off + 8 ≤ n then 0 else tf off

def Trapframe.set (tf : Trapframe) (off x : ℕ) : Trapframe := Function.update tf off x

/-! ### The end of an image -/

/-- `mem_free` of a page, which refuses one that is free. -/
def memFree (k : Kern κ) (p : ℕ) : Kern κ :=
  if p ∈ k.alloc.pages then k
  else
    let s := Mmap.memFree k.phys p
    ⟨s.mem, { k.alloc with pages := s.pages }⟩

variable (cnt : Counters κ)

def refCntDec (k : Kern κ) (va : ℕ) : Kern κ :=
  let (freed, counters) := cnt.dec k.alloc.counters va
  let k := { k with alloc := { k.alloc with counters } }
  match freed with
  | none => k
  | some p =>
    let k := memFree k p
    { k with alloc := memFreeSmall (memFreeSmall k.alloc REF_CNT_NODE_SIZE) RB_NODE_SIZE }

/-- `mmap_freef`: the counts of the virtual addresses of a region, then its node. -/
def mmapFreef (k : Kern κ) (n : MmapNode) : Kern κ :=
  let k := n.vas.foldl (refCntDec cnt) k
  { k with alloc := memFreeSmall (memFreeSmall k.alloc MMAP_NODE_SIZE) RB_NODE_SIZE }

def mmapDestroy (k : Kern κ) (tree : List MmapNode) : Kern κ :=
  let k := tree.foldl (mmapFreef cnt) k
  { k with alloc := memFreeSmall k.alloc MMAP_SIZE }

/-- `free_pagetable` without `do_free`: the pages of the tables alone. -/
def freePagetable (k : Kern κ) (tables : List ℕ) : Kern κ := tables.foldl memFree k

/-! ### `exec` -/

/-- `exec` after `namei`; the trapframe is cleared over the size of a pointer. -/
def exec (trampoline : ℕ) (k : Kern κ) (old : Image) (tf : Trapframe) (highLevel : ℕ) (f : File)
    (argv : List (List ℕ)) : Except Stop (Kern κ × Image × Trapframe) :=
  match f.readi 0 EHSIZE with
  | none => .error .execBad
  | some bs =>
    if bs.length ≠ EHSIZE then .error .execBad
    else
      let elf := elfhdr bs
      if elf.magic ≠ ELF_MAGIC then .error .execBad
      else do
        let (a, im) ← userPagetable k.alloc trampoline old.trapframe highLevel
        let a ← memMallocSmall a MMAP_SIZE
        let (k, im) ← f.load cnt elf.phnum (elf.phoff % 2 ^ 32) ⟨k.mem, a⟩ im
        let (addr, a, im) ←
          mmapByObj cnt k.alloc im VA_USERSTACK (2 * PGSIZE) (PERM_R ||| PERM_W) MAP_PRIVATE
        if addr = 0 then .error .execBad
        else
          let (s, sp) ←
            pushStack im.pagetable argv (a.phys k.mem) (VA_USERSTACK + 2 * PGSIZE) []
          let tf := (tf.set TF_A1 sp).set TF_A0 argv.length
          let k := mmapDestroy cnt (freePagetable ⟨s.mem, a⟩ old.tables) old.tree
          return (k, im, ((tf.memset 8).set TF_EPC elf.entry).set TF_SP sp)

/-- The loop of `sys_exec` over the strings that it finds in user memory: whether all were fetched,
and the pages `argv[i]` they are in. -/
def fetchArgs : List (List ℕ) → ℕ → Kern κ → Except Stop (Bool × List ℕ × Kern κ)
  | argv, i, k =>
    if i ≥ MAXARG then .ok (false, [], k)
    else match argv with
      | [] => .ok (true, [], k)
      | arg :: args => do
        let (p, a) ← getpage k.alloc
        let k : Kern κ := ⟨writeBytes k.mem p 0 ((arg ++ [0]).take PGSIZE), a⟩
        -- `fetchstr` wants the zero among the first `PGSIZE` bytes
        if arg.length ≥ PGSIZE then .ok (false, [p], k)
        else do
          let (fetched, ps, k) ← fetchArgs args (i + 1) k
          return (fetched, p :: ps, k)

/-- `sys_exec` behind the path: the return value, the memory, the image and the trapframe. -/
def sysExec (trampoline : ℕ) (k : Kern κ) (old : Image) (tf : Trapframe) (highLevel : ℕ) (f : File)
    (argv : List (List ℕ)) : Except Stop (ℤ × Kern κ × Image × Trapframe) := do
  let (fetched, ps, k) ← fetchArgs argv 0 k
  if fetched then do
    let (k, im, tf) ← exec cnt trampoline k old tf highLevel f argv
    return (0, ps.foldl memFree k, im, tf)
  else .ok (-1, ps.foldl memFree k, old, tf)

end Zrhos.Exec
