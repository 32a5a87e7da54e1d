import Zrhos.Sysfile.Calls

/-! The table of `syscall.c`, the handlers that are not on files, and `syscall`. -/
namespace Zrhos.Sysfile
open Turns
open Fs (Superblock)

/-- The registers of the caller that `syscall` and the handlers read. -/
structure Trapframe where
  a0 : ℕ
  a1 : ℕ
  a2 : ℕ
  a3 : ℕ
  a7 : ℕ

/-- A register as an `int`. -/
@[irreducible] def toInt (x : ℕ) : ℤ := (x : ℤ).bmod (2 ^ 32)

theorem toInt_of_lt {x : ℕ} (h : x < 2 ^ 31) : toInt x = x := by
  unfold toInt
  rw [Int.bmod_eq_of_le] <;> omega

/-- A signed value in a register. -/
def toReg (v : ℤ) : ℕ := (v % 2 ^ 64).toNat

/-! ### Handlers -/

def sysPutc (c : ℕ) : FsM ℤ := do
  call (.ext (.uartPutc c))
  return 0

def sysMmap (addr sz perm flag : ℕ) : FsM ℤ := do
  let ret ← call (.ext (.mmap addr sz perm flag))
  call (.ext (.setA0 ret))
  return 0

def sysMunmap (addr : ℕ) : FsM ℤ := do
  let found ← call (.ext (.munmap addr))
  if found then return 0 else return -1

def sysGetpid : FsM ℤ := do
  let id ← call (.ext .mytaskId)
  return id.getD (-1)

/-- The loop of `sys_kill` over the `n` tasks from `t` on. -/
def killLoop (pid : ℤ) : ℕ → ℕ → FsM ℤ
  | 0, _ => return -1
  | n + 1, t => do
    let id ← call (.ext (.pid t))
    if id = pid then
      call (.ext (.forceExit t))
      return 0
    else killLoop pid n (t + 1)

def sysKill (pid : ℤ) : FsM ℤ := killLoop pid NTASK 0

def MONITOR_GET_INFO : ℕ := 1

/-- The bytes of `struct monitor_info`. -/
def INFOSZ : ℕ := 8

def getMonitorInfo (userDst : ℤ) (dst n : ℕ) : FsM ℤ :=
  if n < INFOSZ then return -1
  else do
    let copied ← call (.ext (.monitorInfo (userDst ≠ 0) dst))
    if copied then return INFOSZ else return -1

def monitorIoctl (userSrc : ℤ) (cmd arg : ℕ) : FsM ℤ :=
  if cmd = MONITOR_GET_INFO then getMonitorInfo userSrc arg INFOSZ else return 0

/-- The way out of `sys_ioctl`. -/
def ioctlFail : FsM ℤ := do
  call (.ext (.setA0 (-1)))
  return -1

/-- The monitor is the only device with an `ioctl`. It gets the request where it expects
`user_src`. -/
def ioctlDevice (major request : ℤ) (buf : ℕ) : FsM ℤ := do
  let there ← call (.ext (.hasIoctl major))
  if !there then ioctlFail
  else
    let r ← monitorIoctl request 1 buf
    call (.ext (.setA0 r))
    ioctlFail

def sysIoctl (fd request : ℤ) (buf : ℕ) : FsM ℤ :=
  if fd < 0 ∨ fd ≥ NOFILE then ioctlFail
  else do
    let f ← call (.ofile fd.toNat)
    match f with
    | none => ioctlFail
    | some f => do
      let file ← call (.file f)
      if file.type = .FD_DEVICE then ioctlDevice file.major request buf else ioctlFail

/-! ### The table -/

@[match_pattern] abbrev SYS_putc : ℕ := 1
@[match_pattern] abbrev SYS_exit : ℕ := 2
@[match_pattern] abbrev SYS_fork : ℕ := 3
@[match_pattern] abbrev SYS_wait : ℕ := 4
@[match_pattern] abbrev SYS_mmap : ℕ := 5
@[match_pattern] abbrev SYS_munmap : ℕ := 6
@[match_pattern] abbrev SYS_write : ℕ := 7
@[match_pattern] abbrev SYS_read : ℕ := 8
@[match_pattern] abbrev SYS_getpid : ℕ := 9
@[match_pattern] abbrev SYS_kill : ℕ := 10
@[match_pattern] abbrev SYS_exec : ℕ := 11
@[match_pattern] abbrev SYS_open : ℕ := 12
@[match_pattern] abbrev SYS_chdir : ℕ := 13
@[match_pattern] abbrev SYS_ioctl : ℕ := 14
@[match_pattern] abbrev SYS_close : ℕ := 15

/-- The length of `syscalls`. -/
def NSYSCALL : ℤ := 16

/-- The handlers of `syscalls`, each with the arguments it reads from the trapframe; `none`
for a null entry. -/
def syscalls (sb : Superblock) (tf : Trapframe) : ℕ → Option (FsM ℤ)
  | SYS_putc => some (sysPutc (tf.a0 % 256))
  | SYS_exit => some sysExit
  | SYS_fork => some sysFork
  | SYS_wait => some (sysWait sb)
  | SYS_mmap => some (sysMmap tf.a0 tf.a1 tf.a2 tf.a3)
  | SYS_munmap => some (sysMunmap tf.a0)
  | SYS_write => some (sysWrite sb (toInt tf.a0) tf.a1 (toInt tf.a2))
  | SYS_read => some (sysRead sb (toInt tf.a0) tf.a1 (toInt tf.a2))
  | SYS_getpid => some sysGetpid
  | SYS_kill => some (sysKill (toInt tf.a0))
  | SYS_exec => some (sysExec sb tf.a1)
  | SYS_open => some (sysOpen sb tf.a1)
  | SYS_chdir => some (sysChdir sb)
  | SYS_ioctl => some (sysIoctl (toInt tf.a0) (toInt tf.a1) tf.a2)
  | SYS_close => some (sysClose (toInt tf.a0))
  | _ => none

/-- What a handler returns goes nowhere. -/
def syscall (sb : Superblock) (tf : Trapframe) : FsM Unit :=
  let num := toInt tf.a7
  if num > 0 ∧ num < NSYSCALL then
    match syscalls sb tf num.toNat with
    | none => return ()
    | some handler => do
      let _ ← handler
      return ()
  else return ()

end Zrhos.Sysfile
