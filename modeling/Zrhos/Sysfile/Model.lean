import Zrhos.Fs.Layout
import Zrhos.Klib.Str
import Zrhos.Lib.Turns

/-! The inode layer of `fs.c` as programs over the operations it performs on the buffer
cache, the inode table and the semaphores. The answers to the operations are left open
here. -/
namespace Zrhos.Sysfile
open Turns
open Fs (Block BSIZE ROOTDEV Superblock IPB BPB IBLOCK BBLOCK getDatastart bitClear setBit)
open Klib (strncmp strncpy)

def NDIRECT : ℕ := 12
def NINDIRECT : ℕ := BSIZE / 4
def MAXFILE : ℕ := NDIRECT + NINDIRECT
def NINODE : ℕ := 100
def NOFILE : ℕ := 100
def ROOTINO : ℕ := 1
def DIRSIZ : ℕ := 14
def DPB : ℕ := BSIZE / 16

def T_DIR : ℤ := 1
def T_FILE : ℤ := 2
def T_DEVICE : ℤ := 3

/-! ### The bytes of a block -/

def half (data : Block) (i : ℕ) : ℕ := data i + 256 * data (i + 1)

def word (data : Block) (i : ℕ) : ℕ := half data i + 65536 * half data (i + 2)

def short (data : Block) (i : ℕ) : ℤ :=
  if half data i < 32768 then half data i else half data i - 65536

def littleEndian (n x : ℕ) : List ℕ := (List.range n).map fun i => x / 256 ^ i % 256

def shortBytes (x : ℤ) : List ℕ := littleEndian 2 (x % 65536).toNat

/-- The bytes of the block with `bytes` stored from `off` on. -/
def writeAt (data : Block) (off : ℕ) (bytes : List ℕ) : Block := fun i =>
  if off ≤ i ∧ i < off + bytes.length then bytes.getD (i - off) 0 else data i

/-- The fields of an inode that are on disk and, while it is in use, in memory. -/
structure Dinode where
  type : ℤ
  major : ℤ
  minor : ℤ
  nlink : ℤ
  size : ℕ
  addrs : ℕ → ℕ

def dinodeAt (data : Block) (k : ℕ) : Dinode where
  type := short data (64 * k)
  major := short data (64 * k + 2)
  minor := short data (64 * k + 4)
  nlink := short data (64 * k + 6)
  size := word data (64 * k + 8)
  addrs i := word data (64 * k + 12 + 4 * i)

def dinodeBytes (d : Dinode) : List ℕ :=
  shortBytes d.type ++ shortBytes d.major ++ shortBytes d.minor ++ shortBytes d.nlink ++
    littleEndian 4 d.size ++ (List.range (NDIRECT + 1)).flatMap fun i => littleEndian 4 (d.addrs i)

structure Inode where
  dev : ℕ
  inum : ℕ
  ref : ℤ
  valid : Bool
  copy : Dinode

def clearBit (data : Block) (i : ℕ) : Block :=
  let bi := i % BPB
  Function.update data (bi / 8) (Nat.ldiff (data (bi / 8)) (1 <<< (bi % 8)))

/-! ### Operations -/

inductive FileType where
  | FD_NONE
  | FD_DEVICE
  | FD_INODE
  deriving DecidableEq, Repr

/-- `ip` is an entry of the inode table, `none` for a null pointer. -/
structure File where
  type : FileType
  ref : ℤ
  readable : Bool
  writable : Bool
  major : ℤ
  ip : Option ℕ
  off : ℕ

inductive Sem where
  | fs
  | inode (e : ℕ)
  | sons
  deriving DecidableEq, Repr

inductive Panic where
  | ballocOutOfBlocks
  | bfreeFreeBlock
  | ilock
  | ilockNoType
  | bmapBalloc
  | dirlookupNotDir
  | dirlookupRead
  | addLinkInNonDir
  | loadsegAddress
  | execBad
  | nullPointer
  deriving DecidableEq, Repr

/-- Calls into the rest of the kernel: user memory, page tables, devices, task identifiers.
`stray` is what lies in memory behind a name of 14 bytes and behind the directory entry it is
compared with; `pid` reads the identifier of a task; `forceExit` has no answer for the task
that runs. -/
inductive Ext where
  | stray
  | argstr (pos max : ℕ)
  | fetchaddr (va : ℕ)
  | fetchstr (va max : ℕ)
  | memMalloc
  | memFree
  | copyin (user : Bool) (src n : ℕ)
  | copyout (dst : ℕ) (bytes : List ℕ)
  | memmove (dst : ℕ) (bytes : List ℕ)
  | devWrite (major : ℤ) (buf : ℕ) (count : ℤ)
  | devRead (major : ℤ) (buf : ℕ) (count : ℤ)
  | userPagetable
  | mmapCreate
  | mmapByObj (va sz perm flag : ℕ)
  | walkaddr (va : ℕ)
  | copyMmap (nt : ℕ)
  | setA0 (v : ℤ)
  | uartPutc (c : ℕ)
  | mmap (addr sz perm flag : ℕ)
  | munmap (addr : ℕ)
  | mytaskId
  | pid (t : ℕ)
  | forceExit (t : ℕ)
  | hasIoctl (major : ℤ)
  | monitorInfo (user : Bool) (dst : ℕ)

/-- A copy from user memory may stop half way: the bytes that were copied and whether it
came to its end. -/
@[reducible] def Ext.Resp : Ext → Type
  | stray => ℕ × ℕ
  | argstr _ _ => Option (List ℕ)
  | fetchaddr _ => Option ℕ
  | fetchstr _ _ => Option (List ℕ)
  | memMalloc => Bool
  | memFree => Unit
  | copyin _ _ _ => List ℕ × Bool
  | copyout _ _ => Bool
  | memmove _ _ => Unit
  | devWrite _ _ _ => Option ℤ
  | devRead _ _ _ => Option ℤ
  | userPagetable => Bool
  | mmapCreate => Bool
  | mmapByObj _ _ _ _ => ℕ
  | walkaddr _ => ℕ
  | copyMmap _ => Unit
  | setA0 _ => Unit
  | uartPutc _ => Unit
  | mmap _ _ _ _ => ℕ
  | munmap _ => Bool
  | mytaskId => Option ℤ
  | pid _ => ℤ
  | forceExit _ => Unit
  | hasIoctl _ => Bool
  | monitorInfo _ _ => Bool

/-- One operation is one critical section together with the accesses next to it that no
other task can see. `iput` answers `true` when it goes into the branch of the last link and
keeps `itable.lock`; `entryExist` is the message of `dirlink` for an entry it has found and
lets go; `inew` is the `iget` of `ialloc` with the store to `ip->type`;
`closeSlot` and `dupSlot` access a descriptor of a task that is the caller or is locked by
it; `openFile` is `fdalloc` and, when it succeeds, the stores to the new file; `leaveCwd` reads `t->cwd` to put it; `wantsTrunc` and `writable` are the
tests of `sys_open` and `sys_write`; `commit` installs the new image in `exec`. -/
inductive Op where
  | P (s : Sem)
  | V (s : Sem)
  | panic (why : Panic)
  | bread (dev blockno : ℕ)
  | bstore (dev blockno : ℕ) (data : Block)
  | bwrite (dev blockno : ℕ)
  | brelse (dev blockno : ℕ)
  | iget (dev inum : ℕ)
  | inew (dev inum : ℕ) (type : ℤ)
  | idup (e : ℕ)
  | iput (e : ℕ)
  | itableUnlock
  | entryExist (e : ℕ)
  | inode (e : ℕ)
  | setCopy (e : ℕ) (d : Dinode)
  | setValid (e : ℕ) (valid : Bool)
  | filealloc
  | fileclose (f : ℕ)
  | file (f : ℕ)
  | openFile (f : ℕ) (type : FileType) (major : ℤ) (ip : ℕ) (readable writable : Bool)
  | setOff (f off : ℕ)
  | ofile (fd : ℕ)
  | closeSlot (task : Option ℕ) (fd : ℕ)
  | dupSlot (nt fd : ℕ)
  | cwd
  | leaveCwd (task : Option ℕ)
  | setCwd (task : Option ℕ) (ip : Option ℕ)
  | wantsTrunc (e omode : ℕ)
  | writable (f : ℕ)
  | commit
  | utaskCreate
  | setRunnable (nt : ℕ)
  | unlockTask (t : ℕ)
  | reap
  | setZombie
  | ext (c : Ext)

@[reducible] def Op.Resp : Op → Type
  | panic _ => Empty
  | bread _ _ => Block
  | iget _ _ => ℕ
  | inew _ _ _ => ℕ
  | iput _ => Bool
  | inode _ => Inode
  | filealloc => Option ℕ
  | file _ => File
  | openFile _ _ _ _ _ _ => Option ℕ
  | ofile _ => Option ℕ
  | closeSlot _ _ => Bool
  | cwd => Option ℕ
  | leaveCwd _ => Option ℕ
  | wantsTrunc _ _ => Bool
  | writable _ => Bool
  | utaskCreate => ℕ
  | reap => ℕ
  | ext c => c.Resp
  | _ => Unit

abbrev FsM := Prog Op Op.Resp

/-- The program that performs one operation. -/
abbrev call (o : Op) : FsM o.Resp := Prog.call o

def panic {α : Type} (why : Panic) : FsM α := .op (.panic why) Empty.elim

def when (c : Prop) [Decidable c] (p : FsM Unit) : FsM Unit := if c then p else return ()

/-- A store to the fields of an inode that are on disk too. -/
def update (e : ℕ) (f : Dinode → Dinode) : FsM Unit := do
  let ip ← call (.inode e)
  call (.setCopy e (f ip.copy))

/-! ### Blocks and inodes -/

/-- The buffer of the search loops: the one held so far while it is not behind `blockno`,
else a new one. -/
def nextBuf (dev blockno : ℕ) : Option (ℕ × Block) → FsM (ℕ × Block)
  | none => do
    let data ← call (.bread dev blockno)
    return (blockno, data)
  | some (b, data) =>
    if blockno > b then do
      call (.brelse dev b)
      let data ← call (.bread dev blockno)
      return (blockno, data)
    else return (b, data)

def ballocLoop (sb : Superblock) : ℕ → ℕ → Option (ℕ × Block) → FsM ℕ
  | 0, _, _ => panic .ballocOutOfBlocks
  | n + 1, i, b => do
    let b ← nextBuf ROOTDEV (BBLOCK i sb) b
    if bitClear b.2 i then
      call (.bstore ROOTDEV b.1 (setBit b.2 i))
      call (.bwrite ROOTDEV b.1)
      call (.brelse ROOTDEV b.1)
      return i
    else ballocLoop sb n (i + 1) (some b)

def balloc (sb : Superblock) : FsM ℕ :=
  ballocLoop sb (sb.nblocks - getDatastart sb) (getDatastart sb) none

def iallocLoop (sb : Superblock) (dev : ℕ) (type : ℤ) :
    ℕ → ℕ → Option (ℕ × Block) → FsM (Option ℕ)
  | 0, _, _ => return none
  | n + 1, i, b => do
    let b ← nextBuf dev (IBLOCK i sb) b
    if (dinodeAt b.2 (i % IPB)).type = 0 then
      let e ← call (.inew dev i type)
      call (.brelse dev b.1)
      return some e
    else iallocLoop sb dev type n (i + 1) (some b)

def ialloc (sb : Superblock) (dev : ℕ) (type : ℤ) : FsM (Option ℕ) :=
  iallocLoop sb dev type (sb.ninodes - 1) 1 none

def iupdate (sb : Superblock) (e : ℕ) : FsM Unit := do
  let ip ← call (.inode e)
  let data ← call (.bread ROOTDEV (IBLOCK ip.inum sb))
  call (.bstore ROOTDEV (IBLOCK ip.inum sb)
    (writeAt data (64 * (ip.inum % IPB)) (dinodeBytes ip.copy)))
  call (.bwrite ROOTDEV (IBLOCK ip.inum sb))
  call (.brelse ROOTDEV (IBLOCK ip.inum sb))

def bfree (sb : Superblock) (dev b : ℕ) : FsM Unit := do
  let data ← call (.bread dev (BBLOCK b sb))
  if bitClear data b then panic .bfreeFreeBlock
  else
    call (.bstore dev (BBLOCK b sb) (clearBit data b))
    call (.bwrite dev (BBLOCK b sb))
    call (.brelse dev (BBLOCK b sb))

def truncDirect (sb : Superblock) (e : ℕ) : ℕ → ℕ → FsM Unit
  | 0, _ => return ()
  | n + 1, i => do
    let ip ← call (.inode e)
    when (ip.copy.addrs i ≠ 0) do
      bfree sb ROOTDEV (ip.copy.addrs i)
      update e fun d => { d with addrs := Function.update d.addrs i 0 }
    truncDirect sb e n (i + 1)

def truncIndirect (sb : Superblock) (a : Block) : ℕ → ℕ → FsM Unit
  | 0, _ => return ()
  | n + 1, j => do
    when (word a (4 * j) ≠ 0) (bfree sb ROOTDEV (word a (4 * j)))
    truncIndirect sb a n (j + 1)

def itrunc (sb : Superblock) (e : ℕ) : FsM Unit := do
  call (.P (.inode e))
  truncDirect sb e NDIRECT 0
  let ip ← call (.inode e)
  let addr := ip.copy.addrs NDIRECT
  when (addr ≠ 0) do
    let a ← call (.bread ROOTDEV addr)
    truncIndirect sb a NINDIRECT 0
    call (.brelse ROOTDEV addr)
    bfree sb ROOTDEV addr
    update e fun d => { d with addrs := Function.update d.addrs NDIRECT 0 }
  update e fun d => { d with size := 0 }
  iupdate sb e
  call (.V (.inode e))

def ilock (sb : Superblock) (e : ℕ) : FsM Unit := do
  let ip ← call (.inode e)
  if ip.ref < 1 then panic .ilock
  else
    call (.P (.inode e))
    let ip ← call (.inode e)
    if ip.valid then return ()
    else
      let data ← call (.bread ip.dev (IBLOCK ip.inum sb))
      let d := dinodeAt data (ip.inum % IPB)
      call (.setCopy e d)
      call (.brelse ip.dev (IBLOCK ip.inum sb))
      call (.setValid e true)
      if d.type = 0 then panic .ilockNoType else return ()

def iunlock (e : ℕ) : FsM Unit := call (.V (.inode e))

def iput (sb : Superblock) (e : ℕ) : FsM Unit := do
  let last ← call (.iput e)
  if last then
    call (.P (.inode e))
    itrunc sb e
    update e fun d => { d with type := 0 }
    iupdate sb e
    call (.setValid e false)
    call (.V (.inode e))
    call .itableUnlock
  else return ()

def iunlockput (sb : Superblock) (e : ℕ) : FsM Unit := do
  iunlock e
  iput sb e

/-! ### File contents -/

/-- `-1` as a block number. -/
def NOBLOCK : ℕ := 2 ^ 32 - 1

/-- The first loop of `bmap`; it answers whether `balloc` returned 0. -/
def appendDirect (sb : Superblock) (e : ℕ) : ℕ → ℕ → FsM Bool
  | 0, _ => return false
  | n + 1, i => do
    let addr ← balloc sb
    if addr = 0 then return true
    else
      update e fun d => { d with addrs := Function.update d.addrs i addr }
      appendDirect sb e n (i + 1)

/-- The second loop of `bmap`, over the indirect block at `blockno`. -/
def appendIndirect (sb : Superblock) (dev blockno : ℕ) : ℕ → ℕ → Block → FsM Block
  | 0, _, data => return data
  | n + 1, i, data =>
    if word data (4 * i) ≠ 0 then appendIndirect sb dev blockno n (i + 1) data
    else do
      let addr ← balloc sb
      if addr = 0 then panic .bmapBalloc
      else
        let data := writeAt data (4 * i) (littleEndian 4 addr)
        call (.bstore dev blockno data)
        appendIndirect sb dev blockno n (i + 1) data

/-- `bmap` from the comment "append indirect" on. -/
def bmapIndirect (sb : Superblock) (e start : ℕ) : FsM ℕ := do
  let ip ← call (.inode e)
  when (ip.copy.addrs NDIRECT = 0) do
    let addr ← balloc sb
    if addr = 0 then panic .bmapBalloc
    else update e fun d => { d with addrs := Function.update d.addrs NDIRECT addr }
  let ip ← call (.inode e)
  let blockno := ip.copy.addrs NDIRECT
  let data ← call (.bread ip.dev blockno)
  let data ← appendIndirect sb ip.dev blockno (start + 1 - NDIRECT) 0 data
  call (.brelse ip.dev blockno)
  return word data (4 * (start - NDIRECT))

def bmapAppend (sb : Superblock) (e start endBlock : ℕ) : FsM ℕ :=
  if endBlock < NDIRECT then do
    let high := if start < NDIRECT then start else NDIRECT
    let failed ← appendDirect sb e (high - endBlock) endBlock
    if failed then return NOBLOCK
    else if high ≥ start then
      let ip ← call (.inode e)
      return ip.copy.addrs start
    else bmapIndirect sb e start
  else bmapIndirect sb e start

def bmap (sb : Superblock) (e start : ℕ) : FsM ℕ :=
  if start ≥ MAXFILE then return NOBLOCK
  else do
    let ip ← call (.inode e)
    let endBlock := ip.copy.size / BSIZE + 1
    if endBlock < start then bmapAppend sb e start endBlock
    else if start < NDIRECT then return ip.copy.addrs start
    else
      let blockno := ip.copy.addrs NDIRECT
      let data ← call (.bread ip.dev blockno)
      call (.brelse ip.dev blockno)
      return word data (4 * (start - NDIRECT))

/-- The test at the start of `readi` and `writei`, in 32-bit arithmetic. -/
def outOfRange (size off n : ℕ) : Bool :=
  off > size || (off + n) % 2 ^ 32 < off || (off + n) % 2 ^ 32 > MAXFILE * BSIZE

/-- The loop of `writei` with `left` bytes to go; it answers how many it has written. -/
def writeiLoop (sb : Superblock) (e : ℕ) (user : Bool) : ℕ → ℕ → ℕ → ℕ → FsM ℕ
  | 0, _, _, _ => return 0
  | fuel + 1, src, off, left =>
    if left = 0 then return 0
    else do
      let addr ← bmap sb e (off / BSIZE)
      if addr = 0 then return 0
      else
        let ip ← call (.inode e)
        let data ← call (.bread ip.dev addr)
        let m := min left (BSIZE - off % BSIZE)
        let copied ← call (.ext (.copyin user src m))
        call (.bstore ip.dev addr (writeAt data (off % BSIZE) copied.1))
        call (.brelse ip.dev addr)
        if copied.2 then
          let tot ← writeiLoop sb e user fuel (src + m) (off + m) (left - m)
          return m + tot
        else return 0

def writei (sb : Superblock) (e : ℕ) (user : Bool) (src off n : ℕ) : FsM ℤ := do
  let ip ← call (.inode e)
  if outOfRange ip.copy.size off n then return -1
  else
    let tot ← writeiLoop sb e user n src off n
    update e fun d => { d with size := if off + tot > d.size then off + tot else d.size }
    iupdate sb e
    return tot

/-- The loop of `readi`. Bytes for the kernel are handed back, bytes for the user are
copied out. -/
def readiLoop (sb : Superblock) (e : ℕ) (user : Bool) : ℕ → ℕ → ℕ → ℕ → FsM (List ℕ)
  | 0, _, _, _ => return []
  | fuel + 1, dst, off, left =>
    if left = 0 then return []
    else do
      let addr ← bmap sb e (off / BSIZE)
      if addr = 0 then return []
      else
        let ip ← call (.inode e)
        let data ← call (.bread ip.dev addr)
        let m := min (BSIZE - off % BSIZE) left
        let bytes := (List.range m).map fun i => data (off % BSIZE + i)
        let done ← if user then call (.ext (.copyout dst bytes)) else pure true
        call (.brelse ip.dev addr)
        if done then
          let rest ← readiLoop sb e user fuel (dst + m) (off + m) (left - m)
          return bytes ++ rest
        else return []

/-- The result of `readi` and the bytes it has read. -/
def readi (sb : Superblock) (e : ℕ) (user : Bool) (dst off n : ℕ) : FsM (ℤ × List ℕ) := do
  let ip ← call (.inode e)
  if outOfRange ip.copy.size off n then return (-1, [])
  else
    let bytes ← readiLoop sb e user n dst off n
    return (bytes.length, bytes)

/-! ### Directories and paths -/

def direntInum (bytes : List ℕ) : ℕ := half (bytes.getD · 0) 0

/-- A field of 14 bytes with the byte behind it. A shorter string ends in zeros. -/
def nameField (name : List ℕ) (beyond : ℕ) : ℕ → ℕ := fun i =>
  if i < DIRSIZ then name.getD i 0 else beyond

def namecmp (name de : List ℕ) (beyond : ℕ × ℕ) : ℤ :=
  strncmp DIRSIZ (nameField name beyond.1) (nameField (de.drop 2) beyond.2)

def dirlookupLoop (sb : Superblock) (dp dev : ℕ) (name : List ℕ) : ℕ → ℕ → FsM (Option ℕ)
  | 0, _ => return none
  | n + 1, off => do
    let de ← readi sb dp false 0 off 16
    if de.1 ≠ 16 then panic .dirlookupRead
    else if direntInum de.2 = 0 then dirlookupLoop sb dp dev name n (off + 16)
    else
      let beyond ← call (.ext .stray)
      if namecmp name de.2 beyond = 0 then
        let e ← call (.iget dev (direntInum de.2))
        return some e
      else dirlookupLoop sb dp dev name n (off + 16)

def dirlookup (sb : Superblock) (dp : ℕ) (name : List ℕ) : FsM (Option ℕ) := do
  let ip ← call (.inode dp)
  if ip.copy.type ≠ T_DIR then panic .dirlookupNotDir
  else dirlookupLoop sb dp ip.dev name ((ip.copy.size + 15) / 16) 0

def slash : ℕ := 47

/-- The next element of a path and what is left behind it and its slashes. -/
def skipelem (path : List ℕ) : Option (List ℕ × List ℕ) :=
  let path := path.dropWhile (· = slash)
  if path = [] then none
  else some ((path.takeWhile (· ≠ slash)).take DIRSIZ,
    (path.dropWhile (· ≠ slash)).dropWhile (· = slash))

/-- The elements `namex` gets from `skipelem`, each with the rest of the path behind it. -/
def elems : ℕ → List ℕ → List (List ℕ × List ℕ)
  | 0, _ => []
  | fuel + 1, path =>
    match skipelem path with
    | none => []
    | some (name, rest) => (name, rest) :: elems fuel rest

/-- The loop of `namex`; with `parent` it answers the directory of the last element and
that element. -/
def namexLoop (sb : Superblock) (parent : Bool) :
    List (List ℕ × List ℕ) → ℕ → FsM (Option (ℕ × List ℕ))
  | [], ip =>
    if parent then do
      iput sb ip
      return none
    else return some (ip, [])
  | (name, rest) :: path, ip => do
    ilock sb ip
    let ino ← call (.inode ip)
    if ino.copy.type ≠ T_DIR then
      iunlockput sb ip
      return none
    else if parent ∧ rest = [] then
      iunlock ip
      return some (ip, name)
    else
      let next ← dirlookup sb ip name
      match next with
      | none => do
        iunlockput sb ip
        return none
      | some next => do
        iunlockput sb ip
        namexLoop sb parent path next

/-- The directory a path starts from. -/
def startDir (path : List ℕ) : FsM ℕ :=
  if path.head? = some slash then call (.iget ROOTDEV ROOTINO)
  else do
    let cwd ← call .cwd
    match cwd with
    | none => panic .nullPointer
    | some e => do
      call (.idup e)
      return e

def namex (sb : Superblock) (path : List ℕ) (parent : Bool) : FsM (Option (ℕ × List ℕ)) := do
  let ip ← startDir path
  namexLoop sb parent (elems path.length path) ip

def namei (sb : Superblock) (path : List ℕ) : FsM (Option ℕ) := do
  let r ← namex sb path false
  return r.map Prod.fst

def nameiparent (sb : Superblock) (path : List ℕ) : FsM (Option (ℕ × List ℕ)) :=
  namex sb path true

/-- A directory block in a buffer: its number among the direct blocks, its address and its
contents. -/
structure DirBuf where
  ndirect : ℕ
  blockno : ℕ
  data : Block

/-- `dirlink` allocates directory blocks on its way. -/
def readDirBlock (sb : Superblock) (dp ndirect : ℕ) : FsM DirBuf := do
  let ip ← call (.inode dp)
  when (ip.copy.addrs ndirect = 0) do
    let addr ← balloc sb
    update dp fun d => { d with addrs := Function.update d.addrs ndirect addr }
  let ip ← call (.inode dp)
  let data ← call (.bread ip.dev (ip.copy.addrs ndirect))
  return ⟨ndirect, ip.copy.addrs ndirect, data⟩

/-- The buffer of the directory entry `i`. -/
def nextDirBlock (sb : Superblock) (dp dev i : ℕ) : Option DirBuf → FsM DirBuf
  | none => readDirBlock sb dp 0
  | some b =>
    if i ≥ (b.ndirect + 1) * DPB then do
      call (.brelse dev b.blockno)
      readDirBlock sb dp (b.ndirect + 1)
    else return b

/-- What `dirlink` stores in a free entry. -/
def direntBytes (name : List ℕ) (inum : ℕ) : List ℕ :=
  littleEndian 2 inum ++ strncpy name DIRSIZ

def dirlinkLoop (sb : Superblock) (dp dev : ℕ) (name : List ℕ) (inum : ℕ) :
    ℕ → ℕ → Option DirBuf → FsM ℤ
  | 0, _, none => return -1
  | 0, _, some b => do
    call (.brelse dev b.blockno)
    return -1
  | n + 1, i, b => do
    let b ← nextDirBlock sb dp dev i b
    if half b.data (16 * (i % DPB)) = 0 then
      call (.bstore dev b.blockno (writeAt b.data (16 * (i % DPB)) (direntBytes name inum)))
      update dp fun d => { d with size := (d.size + 16) % 2 ^ 32 }
      call (.brelse dev b.blockno)
      iupdate sb dp
      return 0
    else dirlinkLoop sb dp dev name inum n (i + 1) (some b)

def dirlink (sb : Superblock) (dp : ℕ) (name : List ℕ) (inum : ℕ) : FsM ℤ := do
  let ip ← call (.inode dp)
  if ip.copy.type ≠ T_DIR then panic .addLinkInNonDir
  else
    let old ← dirlookup sb dp name
    match old with
    | some e => do
      call (.entryExist e)
      return -1
    | none => dirlinkLoop sb dp ip.dev name inum (NDIRECT * DPB) 0 none

end Zrhos.Sysfile
