import Zrhos.Sysfile.Quiet
import Zrhos.Sync.Semaphore
import Zrhos.Mmap.Counts

/-! The inode table, the open files and the tasks, and what each operation does to them.
The contents of blocks are left open. -/
namespace Zrhos.Sysfile
open Turns Tally
open Fs (Block)
open Sync (TaskState)
open Mmap (upTo)

/-- `RUNNABLE` stands for every task the scheduler may run or has put to sleep. `owns` is
false while a call has taken over the reference of `cwd`. -/
structure Task where
  state : TaskState
  ofile : ℕ → Option ℕ
  cwd : Option ℕ
  owns : Bool

/-- `holder` is the task between `lm_P` and `lm_V` of an inode, `itable` the one that keeps
`itable.lock` over several operations, `kid` the task whose lock a call keeps. `hand` counts
the references a call has taken and not passed on, `alloc` is the file it has allocated, and
`lost` counts the references to an inode that were dropped without `iput`. -/
structure Kernel where
  inode : ℕ → Inode
  holder : ℕ → Option ℕ
  itable : Option ℕ
  file : ℕ → File
  task : ℕ → Task
  hand : ℕ → ℕ → ℕ
  alloc : ℕ → Option ℕ
  kid : ℕ → Option ℕ
  lost : ℕ → ℕ

namespace Kernel

def setInode (K : Kernel) (e : ℕ) (ip : Inode) : Kernel :=
  { K with inode := Function.update K.inode e ip }

def setFile (K : Kernel) (f : ℕ) (file : File) : Kernel :=
  { K with file := Function.update K.file f file }

def setTask (K : Kernel) (t : ℕ) (task : Task) : Kernel :=
  { K with task := Function.update K.task t task }

def setHand (K : Kernel) (i e n : ℕ) : Kernel :=
  { K with hand := Function.update K.hand i (Function.update (K.hand i) e n) }

def setAlloc (K : Kernel) (i : ℕ) (f : Option ℕ) : Kernel :=
  { K with alloc := Function.update K.alloc i f }

def setKid (K : Kernel) (i : ℕ) (t : Option ℕ) : Kernel :=
  { K with kid := Function.update K.kid i t }

def addRef (K : Kernel) (e : ℕ) (n : ℤ) : Kernel :=
  K.setInode e { K.inode e with ref := (K.inode e).ref + n }

def addFileRef (K : Kernel) (f : ℕ) (n : ℤ) : Kernel :=
  K.setFile f { K.file f with ref := (K.file f).ref + n }

def setSlot (K : Kernel) (t fd : ℕ) (f : Option ℕ) : Kernel :=
  K.setTask t { K.task t with ofile := Function.update (K.task t).ofile fd f }

/-- A reference to the inode goes, the inode is not put. -/
def forget (K : Kernel) (e : ℕ) : Kernel :=
  { K with lost := Function.update K.lost e (K.lost e + 1) }

/-- The last descriptor of a file goes. -/
def lose (K : Kernel) (f : ℕ) : Kernel :=
  match (K.file f).ip with
  | none => K
  | some e => K.forget e

end Kernel

/-- The entry `iget` returns and what it holds afterwards. -/
def igetEntry (table : ℕ → Inode) (dev inum : ℕ) : Option (ℕ × Inode) :=
  match (List.range NINODE).find? fun e =>
      0 < (table e).ref ∧ (table e).dev = dev ∧ (table e).inum = inum with
  | some e => some (e, { table e with ref := (table e).ref + 1 })
  | none =>
    match (List.range NINODE).find? fun e => (table e).ref = 0 with
    | some e =>
      some (e, { table e with
        dev := dev
        inum := inum
        ref := 1
        valid := false })
    | none => none

/-- The answers that the state does not determine. -/
structure Oracle where
  block : Block
  ext : (c : Ext) → c.Resp
  pick : ℕ

def freeFile (K : Kernel) : Option ℕ := (List.range NOFILE).find? fun f => (K.file f).ref = 0

def freeSlot (T : Task) : Option ℕ := (List.range NOFILE).find? fun fd => T.ofile fd = none

/-- One operation of task `i`; `none` if it panics or waits. -/
def perform (ω : Oracle) (K : Kernel) (i : ℕ) : (o : Op) → Option (o.Resp × Kernel)
  | .P (.inode e) =>
    if K.holder e = none then
      some ((), { K with holder := Function.update K.holder e (some i) })
    else none
  | .P .fs | .P .sons | .V .fs | .V .sons => some ((), K)
  | .V (.inode e) => some ((), { K with holder := Function.update K.holder e none })
  | .panic _ => none
  | .bread _ _ => some (ω.block, K)
  | .bstore _ _ _ | .bwrite _ _ | .brelse _ _ => some ((), K)
  | .iget dev inum =>
    if K.itable = none then
      (igetEntry K.inode dev inum).map fun r =>
        (r.1, (K.setInode r.1 r.2).setHand i r.1 (K.hand i r.1 + 1))
    else none
  | .inew dev inum type =>
    if K.itable = none then
      (igetEntry K.inode dev inum).map fun r =>
        (r.1, (K.setInode r.1 { r.2 with copy := { r.2.copy with type := type } }).setHand i r.1
          (K.hand i r.1 + 1))
    else none
  | .idup e =>
    if K.itable = none then some ((), (K.addRef e 1).setHand i e (K.hand i e + 1)) else none
  | .iput e =>
    if K.itable = none then
      if (K.inode e).ref = 1 ∧ (K.inode e).valid = true ∧ (K.inode e).copy.nlink = 0 then
        some (true, { K with itable := some i })
      else some (false, (K.addRef e (-1)).setHand i e (K.hand i e - 1))
    else none
  | .itableUnlock => some ((), { K with itable := none })
  | .entryExist e => some ((), (K.forget e).setHand i e (K.hand i e - 1))
  | .inode e => some (K.inode e, K)
  | .setCopy e d => some ((), K.setInode e { K.inode e with copy := d })
  | .setValid e valid => some ((), K.setInode e { K.inode e with valid := valid })
  | .filealloc =>
    match freeFile K with
    | none => some (none, K)
    | some f => some (some f, (K.addFileRef f 1).setAlloc i (some f))
  | .fileclose f => some ((), (K.addFileRef f (-1)).setAlloc i none)
  | .file f => some (K.file f, K)
  | .openFile f type major ip readable writable =>
    match freeSlot (K.task i) with
    | none => some (none, K)
    | some fd =>
      some (some fd, (((K.setFile f { K.file f with
        type := type
        major := if type = .FD_DEVICE then major else (K.file f).major
        off := if type = .FD_INODE then 0 else (K.file f).off
        ip := some ip
        readable := readable
        writable := writable }).setSlot i fd (some f)).setAlloc i none).setHand i ip
          (K.hand i ip - 1))
  | .setOff f off => some ((), K.setFile f { K.file f with off := off })
  | .ofile fd => some ((K.task i).ofile fd, K)
  | .closeSlot t fd =>
    match (K.task (t.getD i)).ofile fd with
    | none => some (false, K)
    | some f =>
      some (true, ((if (K.file f).ref = 1 then K.lose f else K).setSlot (t.getD i) fd
        none).addFileRef f (-1))
  | .dupSlot nt fd =>
    match (K.task i).ofile fd with
    | none => some ((), K)
    | some f => some ((), (K.addFileRef f 1).setSlot nt fd (some f))
  | .cwd => some ((K.task i).cwd, K)
  | .leaveCwd t =>
    match (K.task (t.getD i)).cwd with
    | none => some (none, K)
    | some e =>
      some (some e, (K.setTask (t.getD i) { K.task (t.getD i) with owns := false }).setHand i e
        (K.hand i e + 1))
  | .setCwd t none => some ((), K.setTask (t.getD i) { K.task (t.getD i) with
      cwd := none
      owns := true })
  | .setCwd t (some e) => some ((), (K.setTask (t.getD i) { K.task (t.getD i) with
      cwd := some e
      owns := true }).setHand i e (K.hand i e - 1))
  | .wantsTrunc e omode =>
    some (omode &&& O_TRUNC ≠ 0 ∧ (K.inode e).copy.type = T_FILE, K)
  | .writable f => some ((K.file f).writable, K)
  | .commit => some ((), K)
  | .utaskCreate =>
    if ω.pick < NTASK ∧ (K.task ω.pick).state = .DEAD then
      some (ω.pick, (K.setTask ω.pick { K.task ω.pick with state := .USED }).setKid i
        (some ω.pick))
    else none
  | .setRunnable nt => some ((), K.setTask nt { K.task nt with state := .RUNNABLE })
  | .unlockTask _ => some ((), K.setKid i none)
  | .reap =>
    if ω.pick < NTASK ∧ (K.task ω.pick).state = .ZOMBIE then
      some (ω.pick, (K.setTask ω.pick { K.task ω.pick with state := .DEAD }).setKid i
        (some ω.pick))
    else none
  | .setZombie => some ((), K.setTask i { K.task i with state := .ZOMBIE })
  | .ext c => some (ω.ext c, K)

/-- No call keeps the lock of the task. -/
def Unlocked (K : Kernel) (t : ℕ) : Prop := ∀ j, K.kid j ≠ some t

/-- `utask_create` and `sys_wait` wait for the lock of the task they take. -/
def Grants (K : Kernel) : (o : Op) → o.Resp → Prop
  | .utaskCreate, t => Unlocked K t
  | .reap, t => Unlocked K t
  | _, _ => True

structure Does (K : Kernel) (i : ℕ) (o : Op) (r : o.Resp) (K' : Kernel) : Prop where
  lt : i < NTASK
  runs : (K.task i).state = .RUNNABLE
  unlocked : Unlocked K i
  grants : Grants K o r
  performs : ∃ ω, perform ω K i o = some (r, K')

/-- A task that is not in a call begins one. -/
def Enters (sb : Fs.Superblock) (K : Kernel) (i : ℕ) (p : FsM ℤ) : Prop :=
  i < NTASK ∧ (K.task i).state = .RUNNABLE ∧ Unlocked K i ∧ ∃ c : Syscall, p = c.prog sb

/-! ### References -/

/-- Descriptors that refer to file `f`. -/
noncomputable def slots (K : Kernel) (f : ℕ) : ℕ :=
  tally (upTo NTASK ×ˢ upTo NOFILE) (· = some f) fun x =>
    (K.task x.1).ofile x.2

/-- Calls that have allocated file `f` and given it no descriptor yet. -/
noncomputable def allocs (K : Kernel) (f : ℕ) : ℕ := tally (upTo NTASK) (· = some f) K.alloc

/-- Files in use on inode `e`. A file that is still being allocated is not one of them: its
`ip` is what the last user of the entry left. -/
noncomputable def filesOn (K : Kernel) (e : ℕ) : ℕ :=
  tally (upTo NOFILE) (fun x : File × ℕ => 0 < x.1.ref ∧ x.1.ip = some e ∧ x.2 = 0)
    fun f => (K.file f, allocs K f)

noncomputable def cwdsOn (K : Kernel) (e : ℕ) : ℕ :=
  tally (upTo NTASK) (fun T : Task => T.cwd = some e ∧ T.owns = true) K.task

noncomputable def handsOn (K : Kernel) (e : ℕ) : ℕ := ∑ i ∈ upTo NTASK, K.hand i e

/-- The references to inode `e`: open files, current directories and calls in progress. -/
noncomputable def references (K : Kernel) (e : ℕ) : ℕ := filesOn K e + cwdsOn K e + handsOn K e

end Zrhos.Sysfile
