import Zrhos.Sysfile.Dispatch
import Zrhos.Sysfile.Quiet

/-! What a system call comes to, and what of it reaches `a0`. The handlers are written once
more so that they say how they ended; without that they are the handlers again. -/
namespace Zrhos.Sysfile
open Turns
open Fs (Superblock)

/-- `gone` is the outcome of a call that does not come back. -/
inductive Outcome where
  | failed
  | done (r : ℤ)
  | gone

/-- The C value of a handler that stores its result. -/
def Outcome.code : Outcome → ℤ
  | .failed => -1
  | _ => 0

/-- The outcome of a handler that returns its result. -/
def Outcome.ofCode (r : ℤ) : Outcome := if r = -1 then .failed else .done r

/-! ### The handlers with their outcomes -/

section Handlers

variable (sb : Superblock)

def openDescriptorOutcome (ip omode : ℕ) : FsM Outcome := do
  let ino ← call (.inode ip)
  if ino.copy.type = T_DEVICE ∧ (ino.copy.major < 0 ∨ ino.copy.major ≥ DEV_MAX) then do
    let _ ← openFail sb ip
    return .failed
  else
    let f ← call .filealloc
    match f with
    | none => do
      let _ ← openFail sb ip
      return .failed
    | some f => do
      let fd ← call (.openFile f (fileTypeOf ino.copy) ino.copy.major ip (omode &&& O_WRONLY = 0)
        (omode &&& O_WRONLY ≠ 0 ∨ omode &&& O_RDWR ≠ 0))
      match fd with
      | none => do
        call (.fileclose f)
        let _ ← openFail sb ip
        return .failed
      | some fd => do
        let _ ← openDone sb ip omode fd
        return .done fd

def openOutcome (omode : ℕ) : FsM Outcome := do
  let path ← call (.ext (.argstr 0 MAXPATH))
  match path with
  | none => return .failed
  | some path => do
    call (.P .fs)
    let ip ← openInode sb path omode
    match ip with
    | none => do
      call (.V .fs)
      return .failed
    | some ip => openDescriptorOutcome sb ip omode

def writeInodeOutcome (f ip buf : ℕ) (count : ℤ) : FsM Outcome := do
  call (.P .fs)
  ilock sb ip
  let writable ← call (.writable f)
  if !writable then
    iunlock ip
    return .failed
  else
    let file ← call (.file f)
    let n ← writei sb ip true buf file.off (toUint count)
    when (n > 0) (call (.setOff f (toUint (file.off + n))))
    iunlock ip
    call (.V .fs)
    call (.ext (.setA0 n))
    return .done n

def readInodeOutcome (f ip buf : ℕ) (count : ℤ) : FsM Outcome := do
  ilock sb ip
  let file ← call (.file f)
  if !file.readable then
    iunlock ip
    return .failed
  else
    let n ← readi sb ip true buf file.off (toUint count)
    when (n.1 > 0) (call (.setOff f (toUint (file.off + n.1))))
    iunlock ip
    call (.ext (.setA0 n.1))
    return .done n.1

def onFileOutcome (fd : ℤ) (device : ℤ → Ext) (answer : ∀ major, (device major).Resp → Option ℤ)
    (inode : ℕ → ℕ → FsM Outcome) : FsM Outcome :=
  if fd < 0 ∨ fd ≥ NOFILE then return .failed
  else do
    let f ← call (.ofile fd.toNat)
    match f with
    | none => return .failed
    | some f => do
      let file ← call (.file f)
      match file.type with
      | .FD_DEVICE => do
        let r ← call (.ext (device file.major))
        match answer file.major r with
        | none => return .failed
        | some n => do
          call (.ext (.setA0 n))
          return .done n
      | .FD_INODE =>
        match file.ip with
        | none => panic .nullPointer
        | some ip => inode f ip
      | .FD_NONE => return .failed

def writeOutcome (fd : ℤ) (buf : ℕ) (count : ℤ) : FsM Outcome :=
  onFileOutcome fd (.devWrite · buf count) (fun _ r => r) fun f ip =>
    writeInodeOutcome sb f ip buf count

def readOutcome (fd : ℤ) (buf : ℕ) (count : ℤ) : FsM Outcome :=
  onFileOutcome fd (.devRead · buf count) (fun _ r => r) fun f ip =>
    readInodeOutcome sb f ip buf count

/-- The result of `exec` is the `argc` of the new image. -/
def execOutcome (uargv : ℕ) : FsM Outcome := do
  let path ← call (.ext (.argstr 0 MAXPATH))
  match path with
  | none => return .failed
  | some path => do
    let args ← fetchArgs uargv Mmap.MAXARG 0 []
    match args.2 with
    | none => do
      freeArgs args.1
      return .failed
    | some argv => do
      let ret ← exec sb path argv
      freeArgs args.1
      return if ret = -1 then .failed else .done argv.length

def forkOutcome : FsM Outcome := do
  let nt ← call .utaskCreate
  call (.ext (.copyMmap nt))
  let pid ← call (.ext (.pid nt))
  call (.ext (.setA0 pid))
  call (.setRunnable nt)
  let cwd ← call .cwd
  match cwd with
  | none => do
    let _ ← forkFiles nt
    return .done pid
  | some e => do
    call (.idup e)
    call (.setCwd (some nt) (some e))
    let _ ← forkFiles nt
    return .done pid

def waitOutcome : FsM Outcome := do
  call (.P .sons)
  let p ← call .reap
  let pid ← call (.ext (.pid p))
  call (.ext (.setA0 pid))
  freeTask sb p
  call (.unlockTask p)
  return .done pid

def mmapOutcome (addr sz perm flag : ℕ) : FsM Outcome := do
  let ret ← call (.ext (.mmap addr sz perm flag))
  call (.ext (.setA0 ret))
  return .done ret

/-- The monitor's answer to `request` as the user gave it. -/
def monitorAnswer (request r : ℤ) : ℤ := if request = MONITOR_GET_INFO then r else 0

def ioctlDeviceOutcome (major request : ℤ) (buf : ℕ) : FsM Outcome := do
  let there ← call (.ext (.hasIoctl major))
  if !there then do
    let _ ← ioctlFail
    return .failed
  else
    let r ← monitorIoctl request 1 buf
    call (.ext (.setA0 r))
    let _ ← ioctlFail
    return .done (monitorAnswer request r)

def ioctlOutcome (fd request : ℤ) (buf : ℕ) : FsM Outcome :=
  if fd < 0 ∨ fd ≥ NOFILE then do
    let _ ← ioctlFail
    return .failed
  else do
    let f ← call (.ofile fd.toNat)
    match f with
    | none => do
      let _ ← ioctlFail
      return .failed
    | some f => do
      let file ← call (.file f)
      if file.type = .FD_DEVICE then ioctlDeviceOutcome file.major request buf
      else do
        let _ ← ioctlFail
        return .failed

end Handlers

/-- The handler with the number `num` and its outcome. -/
def outcomes (sb : Superblock) (tf : Trapframe) : ℕ → Option (FsM Outcome)
  | SYS_putc => some (Outcome.ofCode <$> sysPutc (tf.a0 % 256))
  | SYS_exit => some ((fun _ => .gone) <$> sysExit)
  | SYS_fork => some forkOutcome
  | SYS_wait => some (waitOutcome sb)
  | SYS_mmap => some (mmapOutcome tf.a0 tf.a1 tf.a2 tf.a3)
  | SYS_munmap => some (Outcome.ofCode <$> sysMunmap tf.a0)
  | SYS_write => some (writeOutcome sb (toInt tf.a0) tf.a1 (toInt tf.a2))
  | SYS_read => some (readOutcome sb (toInt tf.a0) tf.a1 (toInt tf.a2))
  | SYS_getpid => some (Outcome.ofCode <$> sysGetpid)
  | SYS_kill => some (Outcome.ofCode <$> sysKill (toInt tf.a0))
  | SYS_exec => some (execOutcome sb tf.a1)
  | SYS_open => some (openOutcome sb tf.a1)
  | SYS_chdir => some (Outcome.ofCode <$> sysChdir sb)
  | SYS_ioctl => some (ioctlOutcome (toInt tf.a0) (toInt tf.a1) tf.a2)
  | SYS_close => some (Outcome.ofCode <$> sysClose (toInt tf.a0))
  | _ => none

/-- `syscall` with the outcome of the call; a call with no handler fails. -/
def syscallOutcome (sb : Superblock) (tf : Trapframe) : FsM Outcome :=
  let num := toInt tf.a7
  if num > 0 ∧ num < NSYSCALL then (outcomes sb tf num.toNat).getD (pure .failed)
  else return .failed

/-! ### The outcome is all that was added -/

variable {sb : Superblock}

theorem ends_panic {α : Type} {why : Panic} {a : α} : ¬ (panic why : FsM α).Ends a := by
  rintro ⟨r, -⟩
  exact r.elim

theorem openFail_code {ip : ℕ} : (openFail sb ip >>= fun _ => pure (-1)) = openFail sb ip := by
  simp only [openFail, prog_bind_assoc, prog_pure_bind]

theorem openDescriptor_outcome {ip omode : ℕ} :
    (openDescriptorOutcome sb ip omode >>= fun out => pure out.code) =
      openDescriptor sb ip omode := by
  unfold openDescriptorOutcome openDescriptor
  rw [prog_bind_assoc]
  refine bind_congr fun ino => ?_
  split_ifs
  · rw [prog_bind_assoc]
    exact openFail_code
  · rw [prog_bind_assoc]
    refine bind_congr fun f => ?_
    cases f with
    | none =>
      rw [prog_bind_assoc]
      exact openFail_code
    | some f =>
      dsimp only
      rw [prog_bind_assoc]
      refine bind_congr fun fd => ?_
      cases fd with
      | none =>
        simp only [prog_bind_assoc]
        exact bind_congr fun _ => openFail_code
      | some fd =>
        simp only [openDone, prog_bind_assoc, prog_pure_bind, Outcome.code]

theorem open_outcome {omode : ℕ} :
    (openOutcome sb omode >>= fun out => pure out.code) = sysOpen sb omode := by
  unfold openOutcome sysOpen
  rw [prog_bind_assoc]
  refine bind_congr fun path => ?_
  cases path with
  | none => rfl
  | some path =>
    simp only [prog_bind_assoc]
    refine bind_congr fun _ => bind_congr fun ip => ?_
    cases ip with
    | none => rfl
    | some ip => exact openDescriptor_outcome

theorem writeInode_outcome {f ip buf : ℕ} {count : ℤ} :
    (writeInodeOutcome sb f ip buf count >>= fun _ => pure (-1)) =
      writeInode sb f ip buf count := by
  unfold writeInodeOutcome writeInode
  simp only [prog_bind_assoc]
  refine bind_congr fun _ => bind_congr fun _ => bind_congr fun writable => ?_
  split_ifs
  · rfl
  · simp only [prog_bind_assoc, prog_pure_bind]

theorem readInode_outcome {f ip buf : ℕ} {count : ℤ} :
    (readInodeOutcome sb f ip buf count >>= fun _ => pure (-1)) =
      readInode sb f ip buf count := by
  unfold readInodeOutcome readInode
  simp only [prog_bind_assoc]
  refine bind_congr fun _ => bind_congr fun file => ?_
  split_ifs
  · rfl
  · simp only [prog_bind_assoc, prog_pure_bind]

theorem onFile_outcome {fd : ℤ} {device : ℤ → Ext}
    {answer : ∀ major, (device major).Resp → Option ℤ} {inode : ℕ → ℕ → FsM ℤ}
    {outcome : ℕ → ℕ → FsM Outcome}
    (h : ∀ f ip, (outcome f ip >>= fun _ => pure (-1)) = inode f ip) :
    (onFileOutcome fd device answer outcome >>= fun _ => pure (-1)) =
      onFile fd device answer inode := by
  unfold onFileOutcome onFile
  split_ifs
  · rfl
  · rw [prog_bind_assoc]
    refine bind_congr fun f => ?_
    cases f with
    | none => rfl
    | some f =>
      dsimp only
      rw [prog_bind_assoc]
      refine bind_congr fun file => ?_
      cases file.type with
      | FD_NONE => rfl
      | FD_DEVICE =>
        dsimp only
        rw [prog_bind_assoc]
        refine bind_congr fun r => ?_
        cases answer file.major r with
        | none => rfl
        | some n => rfl
      | FD_INODE =>
        dsimp only
        cases file.ip with
        | none => exact congrArg (Prog.op _) (funext fun r => r.elim)
        | some ip => exact h f ip

/-- `exec` behind its header check. -/
def execImage (sb : Superblock) (ip : ℕ) (elf : Fs.Block) (argv : List (List ℕ)) : FsM ℤ := do
  let pagetable ← call (.ext .userPagetable)
  if !pagetable then panic .execBad
  else
    let mmapObj ← call (.ext .mmapCreate)
    if !mmapObj then panic .execBad
    else
      loadProgram sb ip (half elf 56) (dword elf 32 % 2 ^ 32)
      iunlockput sb ip
      let addr ← call (.ext (.mmapByObj Mmap.VA_USERSTACK (2 * PGSIZE)
        (Mmap.PERM_R ||| Mmap.PERM_W) Mmap.MAP_PRIVATE))
      if addr = 0 then panic .execBad
      else
        pushArgs argv (Mmap.VA_USERSTACK + 2 * PGSIZE) []
        call (.ext (.setA0 argv.length))
        call .commit
        call (.V .fs)
        return 0

/-- `exec` of the file behind entry `ip`. -/
def execFile (sb : Superblock) (ip : ℕ) (argv : List (List ℕ)) : FsM ℤ := do
  ilock sb ip
  let hdr ← readi sb ip false 0 0 64
  let elf : Fs.Block := (hdr.2.getD · 0)
  if hdr.1 ≠ 64 ∨ word elf 0 ≠ ELF_MAGIC then panic .execBad else execImage sb ip elf argv

theorem exec_eq {path : List ℕ} {argv : List (List ℕ)} : exec sb path argv =
    namei sb path >>= fun r => r.elim (pure (-1)) fun ip => execFile sb ip argv := by
  refine bind_congr fun r => ?_
  cases r <;> rfl

/-- Behind its `goto`s `exec` returns 0. -/
theorem execFile_ends {ip : ℕ} {argv : List (List ℕ)} {ret : ℤ}
    (h : (execFile sb ip argv).Ends ret) : ret = 0 := by
  unfold execFile execImage at h
  obtain ⟨-, -, h⟩ := ends_bind.mp h
  obtain ⟨hdr, -, h⟩ := ends_bind.mp h
  dsimp only at h
  split_ifs at h
  · exact absurd h ends_panic
  obtain ⟨pagetable, -, h⟩ := ends_bind.mp h
  split_ifs at h
  · exact absurd h ends_panic
  obtain ⟨mmapObj, -, h⟩ := ends_bind.mp h
  split_ifs at h
  · exact absurd h ends_panic
  obtain ⟨-, -, h⟩ := ends_bind.mp h
  obtain ⟨-, -, h⟩ := ends_bind.mp h
  obtain ⟨addr, -, h⟩ := ends_bind.mp h
  split_ifs at h
  · exact absurd h ends_panic
  obtain ⟨-, -, h⟩ := ends_bind.mp h
  obtain ⟨-, -, h⟩ := ends_bind.mp h
  obtain ⟨-, -, h⟩ := ends_bind.mp h
  obtain ⟨-, -, h⟩ := ends_bind.mp h
  exact h.symm

theorem exec_ends {path : List ℕ} {argv : List (List ℕ)} {ret : ℤ}
    (h : (exec sb path argv).Ends ret) : ret = -1 ∨ ret = 0 := by
  rw [exec_eq] at h
  obtain ⟨r, -, h⟩ := ends_bind.mp h
  cases r with
  | none => exact Or.inl h.symm
  | some ip => exact Or.inr (execFile_ends h)

theorem exec_outcome {uargv : ℕ} :
    (execOutcome sb uargv >>= fun out => pure out.code) = sysExec sb uargv := by
  unfold execOutcome sysExec
  rw [prog_bind_assoc]
  refine bind_congr fun path => ?_
  cases path with
  | none => rfl
  | some path =>
    simp only [prog_bind_assoc]
    refine bind_congr fun args => ?_
    cases args.2 with
    | none => simp only [prog_bind_assoc, prog_pure_bind, Outcome.code]
    | some argv =>
      simp only [prog_bind_assoc, prog_pure_bind]
      refine prog_bind_congr fun ret hret => bind_congr fun _ => ?_
      rcases exec_ends hret with rfl | rfl <;> rfl

theorem fork_outcome : (forkOutcome >>= fun out => pure out.code) = sysFork := by
  unfold forkOutcome sysFork
  simp only [prog_bind_assoc]
  refine bind_congr fun nt => bind_congr fun _ => bind_congr fun pid => bind_congr fun _ => ?_
  refine bind_congr fun _ => bind_congr fun cwd => ?_
  cases cwd <;> simp only [forkFiles, prog_bind_assoc, prog_pure_bind, Outcome.code]

theorem wait_outcome : (waitOutcome sb >>= fun out => pure out.code) = sysWait sb := by
  simp only [waitOutcome, sysWait, prog_bind_assoc, prog_pure_bind, Outcome.code]

theorem mmap_outcome {addr sz perm flag : ℕ} :
    (mmapOutcome addr sz perm flag >>= fun out => pure out.code) = sysMmap addr sz perm flag := by
  simp only [mmapOutcome, sysMmap, prog_bind_assoc, prog_pure_bind, Outcome.code]

theorem ioctl_outcome {fd request : ℤ} {buf : ℕ} :
    (ioctlOutcome fd request buf >>= fun _ => pure (-1)) = sysIoctl fd request buf := by
  unfold ioctlOutcome sysIoctl
  split_ifs
  · rfl
  · rw [prog_bind_assoc]
    refine bind_congr fun f => ?_
    cases f with
    | none => rfl
    | some f =>
      dsimp only
      rw [prog_bind_assoc]
      refine bind_congr fun file => ?_
      split_ifs
      · unfold ioctlDeviceOutcome ioctlDevice
        rw [prog_bind_assoc]
        refine bind_congr fun there => ?_
        split_ifs
        · rfl
        · simp only [ioctlFail, prog_bind_assoc, prog_pure_bind]
      · rfl

end Zrhos.Sysfile
