import Zrhos.Sysfile.Model
import Zrhos.Mmap.Proc

/-! The system calls on files of `sysfile.c`, `exec` and the calls of `proc.c` that copy and
drop descriptors, as programs. -/
namespace Zrhos.Sysfile
open Turns
open Fs (Block Superblock)

def MAXPATH : ℕ := 128
def DEV_MAX : ℤ := 16

def O_RDONLY : ℕ := 0x000
def O_WRONLY : ℕ := 0x001
def O_RDWR : ℕ := 0x002
def O_CREATE : ℕ := 0x200
def O_TRUNC : ℕ := 0x400

/-! ### open -/

/-- The label `fail` of `create`. -/
def createFail (sb : Superblock) (dp ip : ℕ) : FsM (Option ℕ) := do
  update ip fun d => { d with nlink := 0 }
  iupdate sb ip
  iunlockput sb ip
  iunlockput sb dp
  return none

/-- The entries `.` and `..` of a new directory; it answers whether both are there. -/
def linkDots (sb : Superblock) (ip inum parent : ℕ) : FsM Bool := do
  let r ← dirlink sb ip [46] inum
  if r < 0 then return false
  else
    let r ← dirlink sb ip [46, 46] parent
    return r ≥ 0

/-- `create` behind the entries of a new directory, which may be missing. -/
def createLink (sb : Superblock) (dp : ℕ) (name : List ℕ) (ip inum : ℕ) (type : ℤ)
    (dots : Bool) : FsM (Option ℕ) :=
  if !dots then createFail sb dp ip
  else do
    let r ← dirlink sb dp name inum
    if r < 0 then createFail sb dp ip
    else
      when (type = T_DIR) do
        update dp fun d => { d with nlink := d.nlink + 1 }
        iupdate sb dp
      iunlockput sb dp
      return some ip

/-- `create` from the `ilock` of the new inode on. -/
def createNew (sb : Superblock) (dp : ℕ) (name : List ℕ) (ip : ℕ) (type major minor : ℤ) :
    FsM (Option ℕ) := do
  ilock sb ip
  update ip fun d => { d with major := major, minor := minor, nlink := 1 }
  iupdate sb ip
  let ino ← call (.inode ip)
  let dino ← call (.inode dp)
  let dots ← if type = T_DIR then linkDots sb ip ino.inum dino.inum else pure true
  createLink sb dp name ip ino.inum type dots

/-- `create` when the name is there already. -/
def createOld (sb : Superblock) (dp ip : ℕ) (type : ℤ) : FsM (Option ℕ) := do
  iunlockput sb dp
  ilock sb ip
  let ino ← call (.inode ip)
  if type = T_FILE ∧ (ino.copy.type = T_FILE ∨ ino.copy.type = T_DEVICE) then return some ip
  else
    iunlockput sb ip
    return none

def create (sb : Superblock) (path : List ℕ) (type major minor : ℤ) : FsM (Option ℕ) := do
  let r ← nameiparent sb path
  match r with
  | none => return none
  | some (dp, name) => do
    ilock sb dp
    let old ← dirlookup sb dp name
    match old with
    | some ip => createOld sb dp ip type
    | none => do
      let dino ← call (.inode dp)
      let new ← ialloc sb dino.dev type
      match new with
      | none => do
        iunlockput sb dp
        return none
      | some ip => createNew sb dp name ip type major minor

/-- The inode `sys_open` works on, locked. -/
def openInode (sb : Superblock) (path : List ℕ) (omode : ℕ) : FsM (Option ℕ) :=
  if omode &&& O_CREATE ≠ 0 then create sb path T_FILE 0 0
  else do
    let r ← namei sb path
    match r with
    | none => return none
    | some ip => do
      ilock sb ip
      let ino ← call (.inode ip)
      if ino.copy.type = T_DIR ∧ omode ≠ O_RDONLY then
        iunlockput sb ip
        return none
      else return some ip

/-- The way out of `sys_open` after a failure behind `ilock`. -/
def openFail (sb : Superblock) (ip : ℕ) : FsM ℤ := do
  iunlockput sb ip
  call (.V .fs)
  return -1

/-- `sys_open` behind the stores to its new file. -/
def openDone (sb : Superblock) (ip omode fd : ℕ) : FsM ℤ := do
  let trunc ← call (.wantsTrunc ip omode)
  when (trunc = true) (itrunc sb ip)
  iunlock ip
  call (.V .fs)
  call (.ext (.setA0 fd))
  return 0

def fileTypeOf (d : Dinode) : FileType := if d.type = T_DEVICE then .FD_DEVICE else .FD_INODE

def openDescriptor (sb : Superblock) (ip omode : ℕ) : FsM ℤ := do
  let ino ← call (.inode ip)
  if ino.copy.type = T_DEVICE ∧ (ino.copy.major < 0 ∨ ino.copy.major ≥ DEV_MAX) then
    openFail sb ip
  else
    let f ← call .filealloc
    match f with
    | none => openFail sb ip
    | some f => do
      let fd ← call (.openFile f (fileTypeOf ino.copy) ino.copy.major ip (omode &&& O_WRONLY = 0)
        (omode &&& O_WRONLY ≠ 0 ∨ omode &&& O_RDWR ≠ 0))
      match fd with
      | none => do
        call (.fileclose f)
        openFail sb ip
      | some fd => openDone sb ip omode fd

def sysOpen (sb : Superblock) (omode : ℕ) : FsM ℤ := do
  let path ← call (.ext (.argstr 0 MAXPATH))
  match path with
  | none => return -1
  | some path => do
    call (.P .fs)
    let ip ← openInode sb path omode
    match ip with
    | none => do
      call (.V .fs)
      return -1
    | some ip => openDescriptor sb ip omode

/-! ### chdir, write, read and close -/

/-- The task leaves its old directory for `ip`. -/
def changeDir (sb : Superblock) (ip : ℕ) : FsM ℤ := do
  iunlock ip
  let old ← call (.leaveCwd none)
  match old with
  | none => panic .nullPointer
  | some old => do
    iput sb old
    call (.setCwd none (some ip))
    call (.V .fs)
    return 0

def sysChdir (sb : Superblock) : FsM ℤ := do
  let path ← call (.ext (.argstr 0 MAXPATH))
  match path with
  | none => return -1
  | some path => do
    call (.P .fs)
    let r ← namei sb path
    match r with
    | none => do
      call (.V .fs)
      return -1
    | some ip => do
      ilock sb ip
      let ino ← call (.inode ip)
      if ino.copy.type ≠ T_DIR then
        iunlockput sb ip
        call (.V .fs)
        return -1
      else changeDir sb ip

/-- An `int` as a `uint_t`. -/
def toUint (x : ℤ) : ℕ := (x % 2 ^ 32).toNat

def writeInode (sb : Superblock) (f ip buf : ℕ) (count : ℤ) : FsM ℤ := do
  call (.P .fs)
  ilock sb ip
  let writable ← call (.writable f)
  if !writable then
    iunlock ip
    return -1
  else
    let file ← call (.file f)
    let n ← writei sb ip true buf file.off (toUint count)
    when (n > 0) (call (.setOff f (toUint (file.off + n))))
    iunlock ip
    call (.V .fs)
    call (.ext (.setA0 n))
    return -1

def readInode (sb : Superblock) (f ip buf : ℕ) (count : ℤ) : FsM ℤ := do
  ilock sb ip
  let file ← call (.file f)
  if !file.readable then
    iunlock ip
    return -1
  else
    let n ← readi sb ip true buf file.off (toUint count)
    when (n.1 > 0) (call (.setOff f (toUint (file.off + n.1))))
    iunlock ip
    call (.ext (.setA0 n.1))
    return -1

/-- The common frame of `sys_write` and `sys_read`. A device without the operation answers
`none`. -/
def onFile (fd : ℤ) (device : ℤ → Ext) (answer : ∀ major, (device major).Resp → Option ℤ)
    (inode : ℕ → ℕ → FsM ℤ) : FsM ℤ :=
  if fd < 0 ∨ fd ≥ NOFILE then return -1
  else do
    let f ← call (.ofile fd.toNat)
    match f with
    | none => return -1
    | some f => do
      let file ← call (.file f)
      match file.type with
      | .FD_DEVICE => do
        let r ← call (.ext (device file.major))
        match answer file.major r with
        | none => return -1
        | some n => do
          call (.ext (.setA0 n))
          return -1
      | .FD_INODE =>
        match file.ip with
        | none => panic .nullPointer
        | some ip => inode f ip
      | .FD_NONE => return -1

def sysWrite (sb : Superblock) (fd : ℤ) (buf : ℕ) (count : ℤ) : FsM ℤ :=
  onFile fd (.devWrite · buf count) (fun _ r => r) fun f ip => writeInode sb f ip buf count

def sysRead (sb : Superblock) (fd : ℤ) (buf : ℕ) (count : ℤ) : FsM ℤ :=
  onFile fd (.devRead · buf count) (fun _ r => r) fun f ip => readInode sb f ip buf count

def sysClose (fd : ℤ) : FsM ℤ :=
  if fd < 0 ∨ fd ≥ NOFILE then return -1
  else do
    let there ← call (.closeSlot none fd.toNat)
    if there then return 0 else return -1

/-! ### exec -/

def ELF_MAGIC : ℕ := 0x464C457F

def dword (data : Block) (i : ℕ) : ℕ := word data i + 2 ^ 32 * word data (i + 4)

def loadsegLoop (sb : Superblock) (ip va offset sz : ℕ) : ℕ → ℕ → FsM Unit
  | 0, _ => return ()
  | k + 1, i => do
    let pa ← call (.ext (.walkaddr (va + i)))
    if pa = 0 then panic .loadsegAddress
    else
      let n := min (sz - i) PGSIZE
      let r ← readi sb ip false pa ((offset + i) % 2 ^ 32) n
      call (.ext (.memmove pa r.2))
      if r.1 ≠ n then panic .execBad
      else loadsegLoop sb ip va offset sz k (i + PGSIZE)

def loadseg (sb : Superblock) (ip va offset sz : ℕ) : FsM Unit :=
  loadsegLoop sb ip va offset sz ((sz + PGSIZE - 1) / PGSIZE) 0

/-- The segments of the program; every `goto bad` is the panic at that label. -/
def loadProgram (sb : Superblock) (ip : ℕ) : ℕ → ℕ → FsM Unit
  | 0, _ => return ()
  | n + 1, off => do
    let r ← readi sb ip false 0 off 56
    let ph : Block := (r.2.getD · 0)
    if r.1 ≠ 56 then panic .execBad
    else if word ph 0 ≠ 1 then loadProgram sb ip n ((off + 56) % 2 ^ 32)
    else
      let vaddr := dword ph 16
      let memsz := dword ph 40
      if memsz < dword ph 32 ∨ (vaddr + memsz) % WORD < vaddr ∨ vaddr % PGSIZE ≠ 0 then
        panic .execBad
      else
        let maddr ← call (.ext (.mmapByObj vaddr memsz (Mmap.flags2perm (word ph 4))
          Mmap.MAP_PRIVATE))
        if maddr ≠ vaddr then panic .execBad
        else
          loadseg sb ip vaddr (dword ph 8 % 2 ^ 32) (dword ph 32 % 2 ^ 32)
          loadProgram sb ip n ((off + 56) % 2 ^ 32)

/-- The argument strings and the array of their addresses go onto the new stack. -/
def pushArgs : List (List ℕ) → ℕ → List ℕ → FsM Unit
  | [], sp, ustack => do
    let src := ustack.flatMap Mmap.wordBytes ++ Mmap.wordBytes 0
    let done ← call (.ext (.copyout (Mmap.pushDown sp src.length) src))
    if done then return () else panic .execBad
  | arg :: args, sp, ustack =>
    if ustack.length ≥ Mmap.MAXARG then panic .execBad
    else do
      let sp := Mmap.pushDown sp (arg.length + 1)
      let done ← call (.ext (.copyout sp (arg ++ [0])))
      if done then pushArgs args sp (ustack ++ [sp]) else panic .execBad

def exec (sb : Superblock) (path : List ℕ) (argv : List (List ℕ)) : FsM ℤ := do
  let r ← namei sb path
  match r with
  | none => return -1
  | some ip => do
    ilock sb ip
    let hdr ← readi sb ip false 0 0 64
    let elf : Block := (hdr.2.getD · 0)
    if hdr.1 ≠ 64 ∨ word elf 0 ≠ ELF_MAGIC then panic .execBad
    else
      let pagetable ← call (.ext .userPagetable)
      if !pagetable then panic .execBad
      else
        let mmapObj ← call (.ext .mmapCreate)
        if !mmapObj then panic .execBad
        else
          loadProgram sb ip (half elf 56) (dword elf 32 % 2 ^ 32)
          iunlockput sb ip
          let addr ← call (.ext (.mmapByObj Mmap.VA_USERSTACK (2 * PGSIZE)
            (Mmap.PERM_R ||| Mmap.PERM_W) Mmap.MAP_PRIVATE))
          if addr = 0 then panic .execBad
          else
            pushArgs argv (Mmap.VA_USERSTACK + 2 * PGSIZE) []
            call (.ext (.setA0 argv.length))
            call .commit
            call (.V .fs)
            return 0

/-- The arguments `sys_exec` fetches, `none` on an error, and the number of pages it has
allocated for them. -/
def fetchArgs (uargv : ℕ) : ℕ → ℕ → List (List ℕ) → FsM (ℕ × Option (List (List ℕ)))
  | 0, i, _ => return (i, none)
  | n + 1, i, argv => do
    let uarg ← call (.ext (.fetchaddr (uargv + 8 * i)))
    match uarg with
    | none => return (i, none)
    | some uarg =>
      if uarg = 0 then return (i, some argv)
      else do
        let page ← call (.ext .memMalloc)
        if !page then return (i, none)
        else
          let arg ← call (.ext (.fetchstr uarg PGSIZE))
          match arg with
          | none => return (i + 1, none)
          | some arg => fetchArgs uargv n (i + 1) (argv ++ [arg])

def freeArgs : ℕ → FsM Unit
  | 0 => return ()
  | n + 1 => do
    call (.ext .memFree)
    freeArgs n

def sysExec (sb : Superblock) (uargv : ℕ) : FsM ℤ := do
  let path ← call (.ext (.argstr 0 MAXPATH))
  match path with
  | none => return -1
  | some path => do
    let args ← fetchArgs uargv Mmap.MAXARG 0 []
    match args.2 with
    | none => do
      freeArgs args.1
      return -1
    | some argv => do
      let ret ← exec sb path argv
      freeArgs args.1
      return ret

/-! ### fork, wait and exit -/

def dupSlots (nt : ℕ) : ℕ → ℕ → FsM Unit
  | 0, _ => return ()
  | n + 1, fd => do
    call (.dupSlot nt fd)
    dupSlots nt n (fd + 1)

/-- `sys_fork` behind the copy of the directory. -/
def forkFiles (nt : ℕ) : FsM ℤ := do
  dupSlots nt NOFILE 0
  call (.unlockTask nt)
  return 0

def sysFork : FsM ℤ := do
  let nt ← call .utaskCreate
  call (.ext (.copyMmap nt))
  let pid ← call (.ext (.pid nt))
  call (.ext (.setA0 pid))
  call (.setRunnable nt)
  let cwd ← call .cwd
  match cwd with
  | none => forkFiles nt
  | some e => do
    call (.idup e)
    call (.setCwd (some nt) (some e))
    forkFiles nt

def closeSlots (t : ℕ) : ℕ → ℕ → FsM Unit
  | 0, _ => return ()
  | n + 1, fd => do
    let _ ← call (.closeSlot (some t) fd)
    closeSlots t n (fd + 1)

/-- The part of `free_task` behind the page table and the regions. -/
def freeTask (sb : Superblock) (t : ℕ) : FsM Unit := do
  closeSlots t NOFILE 0
  let cwd ← call (.leaveCwd (some t))
  match cwd with
  | none => return ()
  | some e => do
    iput sb e
    call (.setCwd (some t) none)

/-- `reap` stands for the search of a zombie son and the stores that make it `DEAD`; the
rounds of the loop that find none change nothing. -/
def sysWait (sb : Superblock) : FsM ℤ := do
  call (.P .sons)
  let p ← call .reap
  let pid ← call (.ext (.pid p))
  call (.ext (.setA0 pid))
  freeTask sb p
  call (.unlockTask p)
  return 0

def sysExit : FsM ℤ := do
  call .setZombie
  return 0

inductive Syscall where
  | open (omode : ℕ)
  | chdir
  | write (fd : ℤ) (buf : ℕ) (count : ℤ)
  | read (fd : ℤ) (buf : ℕ) (count : ℤ)
  | exec (uargv : ℕ)
  | close (fd : ℤ)
  | fork
  | wait
  | exit

def Syscall.prog (sb : Superblock) : Syscall → FsM ℤ
  | .open omode => sysOpen sb omode
  | .chdir => sysChdir sb
  | .write fd buf count => sysWrite sb fd buf count
  | .read fd buf count => sysRead sb fd buf count
  | .exec uargv => sysExec sb uargv
  | .close fd => sysClose fd
  | .fork => sysFork
  | .wait => sysWait sb
  | .exit => sysExit

end Zrhos.Sysfile
