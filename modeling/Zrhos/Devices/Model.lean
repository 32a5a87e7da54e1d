import Zrhos.Lib.Partial
import Zrhos.Driver.Console
import Zrhos.Driver.Keyboard
import Zrhos.Vm.Copy

/-! The handlers that `sys_write`, `sys_read` and `sys_ioctl` call on a device, with the
spinlocks and the interrupt bookkeeping of `lock.c`. A call runs alone; other code acts while
it sleeps. -/
namespace Zrhos.Devices
open Driver (Keyboard Cons copySize sizeofKeyboardEvent INPUT_BUF_SIZE ctrl newline)

/-- The spinlocks that the handlers take. -/
inductive Spinlock where
  | cons
  | keyboard
  | monitor0
  | vgpu
  | task (t : ℕ)
  deriving DecidableEq, Repr

/-- The CPU that runs the call, and for each lock the CPU that has it. -/
structure Hart where
  cpu : ℕ
  noff : ℕ
  intena : Bool
  intr : Bool
  locked : Spinlock → Option ℕ

namespace Hart

def holding (h : Hart) (l : Spinlock) : Prop := h.locked l = some h.cpu

instance (h : Hart) (l : Spinlock) : Decidable (h.holding l) :=
  inferInstanceAs (Decidable (h.locked l = some h.cpu))

def pushOff (h : Hart) : Hart := { h with
  intr := false
  intena := if h.noff = 0 then h.intr else h.intena
  noff := h.noff + 1 }

def popOff (h : Hart) : Option Hart :=
  if h.intr = true ∨ h.noff < 1 then none
  else some { h with
    noff := h.noff - 1
    intr := if h.noff - 1 = 0 ∧ h.intena = true then true else h.intr }

/-- A call that waits for a lock goes on from a state in which the lock is free. -/
def acquire (l : Spinlock) (h : Hart) : Option Hart :=
  if h.locked l = none then some { h with locked := Function.update h.locked l (some h.cpu) }
  else none

def lmLock (l : Spinlock) (h : Hart) : Option Hart := h.pushOff.acquire l

def lmUnlock (l : Spinlock) (h : Hart) : Option Hart :=
  if h.holding l then { h with locked := Function.update h.locked l none }.popOff else none

/-- `mytask` and `uart_putc` turn interrupts off for their time. The wait for the transmitter
and the store to it are left out. -/
def uninterrupted (h : Hart) : Option Hart := h.pushOff.popOff

end Hart

/-- What interrupts and other tasks change. The locks are in `Hart`, not in `keyboard`; of the
GPU there are the number of its free descriptors, whether the command is pending and whether
its response is `VIRTIO_GPU_RESP_OK_NODATA`. -/
structure Input where
  keyboard : Keyboard
  cons : Cons
  killed : Bool
  gpuFree : ℕ
  gpuPending : Bool
  gpuOk : Bool

/-- What a task finds when the scheduler of `cpu` gives it the CPU: the scheduler has the lock
of the task and no other. -/
structure Wake where
  cpu : ℕ
  input : Input
  mem : Vm.Memory
  locked : Spinlock → Option ℕ
  alone : ∀ l, locked l ≠ some cpu

/-- What stays the same during a call: the task and its page table, the addresses of
`keyboard.buffer`, of the local variables and of the framebuffer, the size of the framebuffer,
and what a store of the monitor's info at a kernel address does to the locks and the CPU,
which the same memory holds. -/
structure Setting where
  self : ℕ
  table : Vm.Table
  keyboardBuffer : ℕ
  locals : ℕ
  framebuffer : ℕ
  bufLen : BitVec 64
  store : ℕ → Hart → Option Hart

structure Machine where
  hart : Hart
  input : Input
  mem : Vm.Memory
  wakes : List Wake

/-- `none` stands for a panic and for a call that does not return. -/
abbrev DevM := StateT Machine Option

def never {α : Type} : DevM α := fun _ => none

def onHart (f : Hart → Option Hart) : DevM Unit := fun m =>
  (f m.hart).map fun h => ((), { m with hart := h })

def input : DevM Input := fun m => some (m.input, m)

def setInput (f : Input → Input) : DevM Unit := fun m => some ((), { m with input := f m.input })

def lmLock (l : Spinlock) : DevM Unit := onHart (Hart.lmLock l)

def lmUnlock (l : Spinlock) : DevM Unit := onHart (Hart.lmUnlock l)

def mytask : DevM Unit := onHart Hart.uninterrupted

def uartPutc : DevM Unit := onHart Hart.uninterrupted

section Calls

variable (S : Setting)

/-! ### Sleeping -/

def swtch : DevM Unit := fun m =>
  match m.wakes with
  | [] => none
  | w :: wakes => some ((), {
      hart := { m.hart with
        cpu := w.cpu
        locked := Function.update w.locked (.task S.self) (some w.cpu) }
      input := w.input
      mem := w.mem
      wakes := wakes })

/-- The state of the task is not `RUNNING` where `sleep` calls it. -/
def sched : DevM Unit := do
  mytask
  onHart fun h =>
    if h.holding (.task S.self) ∧ h.noff = 1 ∧ h.intr = false then some h else none
  swtch S

def sleep (l : Spinlock) : DevM Unit := do
  mytask
  lmLock (.task S.self)
  lmUnlock l
  sched S
  lmUnlock (.task S.self)
  lmLock l

/-- The loop of `wakeup` over the `n` tasks from `t` on. -/
def wakeupLoop : ℕ → ℕ → DevM Unit
  | 0, _ => pure ()
  | n + 1, t =>
    if t ≠ S.self then do
      lmLock (.task t)
      lmUnlock (.task t)
      wakeupLoop n (t + 1)
    else wakeupLoop n (t + 1)

def wakeup : DevM Unit := do
  mytask
  wakeupLoop S NTASK 0

/-! ### Copies -/

def onMem (copy : Vm.Memory → Except Stop (ℤ × Vm.Memory)) : DevM ℤ := fun m =>
  match copy m.mem with
  | .ok (r, mem) => some (r, { m with mem := mem })
  | .error _ => none

/-- The monitor's info is all that goes to a kernel address. -/
def eitherCopyout (userDst : ℤ) (dst src len : ℕ) : DevM ℤ := do
  mytask
  if userDst ≠ 0 then onMem fun mem => Vm.copyout S.table mem dst src len
  else
    onHart (S.store dst)
    return 0

/-- The source is always in user memory. -/
def eitherCopyin (dst src len : ℕ) : DevM ℤ := do
  mytask
  onMem fun mem => Vm.copyin S.table mem dst src len

/-! ### Keyboard -/

def keyboardReadEvent (dst n : BitVec 64) : DevM (BitVec 64) :=
  if n < BitVec.ofNat 64 sizeofKeyboardEvent then return -1
  else do
    lmLock .keyboard
    let keyboard := (← input).keyboard
    if keyboard.head = keyboard.tail then
      lmUnlock .keyboard
      return 0
    else
      let size := copySize keyboard n
      let src := ((S.keyboardBuffer + 4 * keyboard.tail) % 2 ^ 64).toNat
      let r ← eitherCopyout S 1 dst.toNat src size.toNat
      if r ≠ 0 then return -1
      else
        setInput fun x => { x with keyboard := { x.keyboard with tail := x.keyboard.head } }
        lmUnlock .keyboard
        return size

/-! ### Monitor -/

def printf : List Char → DevM Unit
  | [] => pure ()
  | _ :: s => do
    uartPutc
    printf s

/-- `free_desc` on a descriptor in use. -/
def freeDesc : DevM Unit := do
  setInput fun x => { x with gpuFree := x.gpuFree + 1 }
  wakeup S

/-- The loop around `allocn_desc` for two descriptors. -/
def allocDescs : ℕ → DevM Unit
  | 0 => never
  | fuel + 1 => do
    let x ← input
    if x.gpuFree ≥ 2 then setInput fun x => { x with gpuFree := x.gpuFree - 2 }
    else if x.gpuFree = 1 then do
      setInput fun x => { x with gpuFree := 0 }
      freeDesc S
      sleep S .vgpu
      allocDescs fuel
    else do
      sleep S .vgpu
      allocDescs fuel

def awaitGpu : ℕ → DevM Unit
  | 0 => never
  | fuel + 1 => do
    let x ← input
    if x.gpuPending then do
      sleep S .vgpu
      awaitGpu fuel
    else pure ()

/-- The common body of `virtio_gpu_transfer_to_host_2d` and `virtio_gpu_resource_flush`. -/
def gpuCommand (fuel : ℕ) (name : List Char) : DevM Unit := do
  lmLock .vgpu
  allocDescs S fuel
  setInput fun x => { x with gpuPending := true }
  awaitGpu S fuel
  freeDesc S
  freeDesc S
  lmUnlock .vgpu
  let x ← input
  if x.gpuOk then printf name else never

def virtioGpuTransferToHost2d (fuel : ℕ) : DevM Unit :=
  gpuCommand S fuel "virtio_gpu_transfer_to_host_2d success\n".toList

def virtioGpuResourceFlush (fuel : ℕ) : DevM Unit :=
  gpuCommand S fuel "virtio_gpu_resource_flush success\n".toList

def monitorWrite (fuel : ℕ) (src n : BitVec 64) : DevM (BitVec 64) := do
  lmLock .monitor0
  if n < S.bufLen then return -1
  else
    let r ← eitherCopyin S S.framebuffer src.toNat S.bufLen.toNat
    if r = -1 then return -1
    else
      lmUnlock .monitor0
      virtioGpuTransferToHost2d S fuel
      virtioGpuResourceFlush S fuel
      return S.bufLen

/-- The size of `struct monitor_info`. -/
def sizeofMonitorInfo : ℕ := 8

def getMonitorInfo (userDst : ℤ) (dst n : BitVec 64) : DevM (BitVec 64) :=
  if n < BitVec.ofNat 64 sizeofMonitorInfo then return -1
  else do
    let r ← eitherCopyout S userDst dst.toNat S.locals sizeofMonitorInfo
    if r = -1 then return -1 else return BitVec.ofNat 64 sizeofMonitorInfo

def MONITOR_GET_INFO : BitVec 64 := 1

def monitorIoctl (userSrc : ℤ) (cmd arg : BitVec 64) : DevM (BitVec 64) :=
  if cmd = MONITOR_GET_INFO then getMonitorInfo S userSrc arg (BitVec.ofNat 64 sizeofMonitorInfo)
  else return 0

/-! ### Console -/

def consoleWriteLoop (src n : BitVec 64) : ℕ → BitVec 32 → DevM (BitVec 32)
  | 0, _ => never
  | fuel + 1, i =>
    if i.signExtend 64 < n then do
      let r ← eitherCopyin S S.locals (src + i.signExtend 64).toNat 1
      if r = -1 then return i
      else
        uartPutc
        consoleWriteLoop src n fuel (i + 1)
    else return i

def consoleWrite (fuel : ℕ) (src n : BitVec 64) : DevM (BitVec 64) := do
  let i ← consoleWriteLoop S src n fuel 0
  return i.signExtend 64

/-- The inner loop of `console_read`; it answers `false` behind the `lm_unlock` of a task that
has been killed. -/
def awaitInput : ℕ → DevM Bool
  | 0 => never
  | fuel + 1 => do
    let x ← input
    if x.cons.r = x.cons.w then do
      mytask
      if x.killed then do
        lmUnlock .cons
        return false
      else
        sleep S .cons
        awaitInput fuel
    else return true

def setConsR (f : BitVec 32 → BitVec 32) : DevM Unit :=
  setInput fun x => { x with cons := { x.cons with r := f x.cons.r } }

/-- The outer loop; it answers what is left of `n`, `none` for a task that has been killed. -/
def consoleReadLoop (target : BitVec 32) : ℕ → BitVec 64 → BitVec 64 → DevM (Option (BitVec 64))
  | 0, _, _ => never
  | fuel + 1, dst, n =>
    if n > 0 then do
      let there ← awaitInput S fuel
      if !there then return none
      else
        let x ← input
        let c := x.cons.buf (x.cons.r.toNat % INPUT_BUF_SIZE)
        setConsR (· + 1)
        if c = ctrl 'D' then
          if n < target.setWidth 64 then do
            setConsR (· - 1)
            return some n
          else return some n
        else
          let r ← eitherCopyout S 1 dst.toNat S.locals 1
          if r = -1 then return some n
          else if c = newline then return some (n - 1)
          else consoleReadLoop target fuel (dst + 1) (n - 1)
    else return some n

def consoleRead (fuel : ℕ) (dst n : BitVec 64) : DevM (BitVec 64) := do
  let target : BitVec 32 := n.setWidth 32
  lmLock .cons
  let left ← consoleReadLoop S target fuel dst n
  match left with
  | none => return -1
  | some left => do
    lmUnlock .cons
    return target.setWidth 64 - left

end Calls

/-! ### The calls -/

inductive Device where
  | console
  | monitor0
  | keyboard
  deriving DecidableEq, Repr

def Device.lock : Device → Spinlock
  | console => .cons
  | monitor0 => .monitor0
  | keyboard => .keyboard

/-- `sys_write`, `sys_read` and `sys_ioctl` with the registers behind the descriptor. -/
inductive DeviceCall where
  | write (buf : BitVec 64) (count : BitVec 32)
  | read (buf : BitVec 64) (count : BitVec 32)
  | ioctl (request : BitVec 32) (buf : BitVec 64)
  deriving DecidableEq, Repr

/-- What the handler of the device answers, `none` where `devsw` has no handler. The `count` is
an `int`, and `sys_ioctl` hands its request to `monitor_ioctl` as `user_src`. -/
def deviceCall (S : Setting) (fuel : ℕ) : Device → DeviceCall → DevM (Option (BitVec 64))
  | .console, .write buf count => some <$> consoleWrite S fuel buf (count.signExtend 64)
  | .monitor0, .write buf count => some <$> monitorWrite S fuel buf (count.signExtend 64)
  | .keyboard, .write _ _ => return none
  | .console, .read buf count => some <$> consoleRead S fuel buf (count.signExtend 64)
  | .monitor0, .read _ _ => return none
  | .keyboard, .read buf count => some <$> keyboardReadEvent S buf (count.signExtend 64)
  | .monitor0, .ioctl request buf => some <$> monitorIoctl S request.toInt 1 buf
  | .console, .ioctl _ _ | .keyboard, .ioctl _ _ => return none

end Zrhos.Devices
