import Zrhos.Proc.Slot
import Zrhos.Proc.Wait
import Zrhos.Mmap.Proc
import Zrhos.Sysfile.State

/-! `sys_fork` as a whole: the task table, user memory, open files and inodes together, and
what becomes of a call when the table is full. -/
namespace Zrhos.Proc
open Sysfile (NOFILE Kernel)

/-- A task without an entry in `sys` has no `mmap_obj`. -/
structure Machine where
  sys : Mmap.Sys
  kernel : Kernel
  id : ℕ → ℤ
  parent : ℕ → Option ℕ
  registers : ℕ → Registers
  nextpid : ℕ

/-- An access to the task behind a pointer. Nothing is mapped at address 0 in the kernel's
page table, so a null pointer ends in `handle_trap`. -/
def deref : Option ℕ → Except Stop ℕ
  | none => .error .nullPointer
  | some j => .ok j

namespace Machine

def setRegisters (m : Machine) (t : ℕ) (r : Registers) : Machine :=
  { m with registers := Function.update m.registers t r }

def setA0 (m : Machine) (t : ℕ) (v : ℤ) : Machine :=
  m.setRegisters t (Function.update (m.registers t) a0 (BitVec.ofInt 64 v))

/-- The first slot that is `DEAD`. -/
def deadSlot (m : Machine) : Option ℕ :=
  (List.range NTASK).find? fun j => (m.kernel.task j).state = .DEAD

/-- `utask_create`; `page` and `highLevel` are what the new memory holds. -/
def utaskCreate (m : Machine) (highLevel : ℕ) (page : Registers) :
    Except Stop (Option ℕ × Machine) :=
  match m.deadSlot with
  | none => .ok (none, m)
  | some j => do
    let (s, nt) ← Mmap.utaskCreate m.sys.trampoline m.sys.phys highLevel
    let m := { m with
      sys := m.sys.set s j (some nt)
      kernel := m.kernel.setTask j { m.kernel.task j with state := .USED }
      id := Function.update m.id j (pidOf m.nextpid)
      nextpid := m.nextpid + 1 }
    return (some j, m.setRegisters j (Function.update page kernelSatp
      (page kernelSatp &&& 0xffffffff00000000)))

/-- `t->mmap_obj`, which `copy_mmap` goes on to use. -/
def mmapObj (m : Machine) (t : Option ℕ) : Except Stop Mmap.Task :=
  match t.bind m.sys.task with
  | none => .error .nullPointer
  | some image => .ok image

def copyMmap (m : Machine) (t : ℕ) (nt : Option ℕ) : Except Stop Machine := do
  let obj ← m.mmapObj (some t)
  let nobj ← m.mmapObj nt
  let j ← deref nt
  let (s, obj, nobj) ← Mmap.copyMmap m.sys.phys obj nobj
  return { m with sys := (m.sys.set s t (some obj)).set s j (some nobj) }

def dupCwd (K : Kernel) (t nt : ℕ) : Kernel :=
  match (K.task t).cwd with
  | none => K
  | some e => (K.addRef e 1).setTask nt { K.task nt with cwd := some e }

def dupFile (K : Kernel) (t nt fd : ℕ) : Kernel :=
  match (K.task t).ofile fd with
  | none => K
  | some f => (K.addFileRef f 1).setSlot nt fd (some f)

def dupFiles (K : Kernel) (t nt : ℕ) : Kernel :=
  (List.range NOFILE).foldl (fun K fd => dupFile K t nt fd) K

/-- `sys_fork` of the task `t`. -/
def sysFork (m : Machine) (t highLevel : ℕ) (page : Registers) : Except Stop Machine := do
  let (nt, m) ← m.utaskCreate highLevel page
  let m ← m.copyMmap t nt
  let j ← deref nt
  let m := (m.setRegisters j (m.registers t)).setA0 j 0
  let m := m.setA0 t (m.id j)
  return { m with
    kernel := dupFiles (dupCwd (m.kernel.setTask j { m.kernel.task j with state := .RUNNABLE }) t j)
      t j
    parent := Function.update m.parent j (some t) }

/-- The table has no `DEAD` slot. -/
def Full (m : Machine) : Prop := ∀ j < NTASK, (m.kernel.task j).state ≠ .DEAD

/-- The caller gets -1 and everything else is as before. -/
def FailsCleanly (m : Machine) (t highLevel : ℕ) (page : Registers) : Prop :=
  m.sysFork t highLevel page = .ok (m.setA0 t (-1))

variable {m m' : Machine} {t highLevel : ℕ} {page : Registers}

theorem deadSlot_eq_none : m.deadSlot = none ↔ m.Full := by
  simp only [deadSlot, List.find?_eq_none, List.mem_range, decide_eq_true_eq]
  rfl

theorem utaskCreate_full (h : m.Full) : m.utaskCreate highLevel page = .ok (none, m) := by
  unfold utaskCreate
  rw [deadSlot_eq_none.mpr h]

theorem mmapObj_error {nt : Option ℕ} {e : Stop} (h : m.mmapObj nt = .error e) :
    e = .nullPointer := by
  unfold mmapObj at h
  cases ht : nt.bind m.sys.task with
  | none =>
    rw [ht] at h
    cases h
    rfl
  | some image =>
    rw [ht] at h
    cases h

/-- `copy_mmap` takes the null pointer for a task. -/
theorem copyMmap_none : m.copyMmap t none = .error .nullPointer := by
  have hobj : m.mmapObj none = .error .nullPointer := rfl
  unfold copyMmap
  rw [hobj]
  cases ht : m.mmapObj (some t) with
  | ok obj => rfl
  | error e =>
    rw [mmapObj_error ht]
    rfl

theorem sysFork_full (h : m.Full) : m.sysFork t highLevel page = .error .nullPointer := by
  unfold sysFork
  rw [utaskCreate_full h]
  change (m.copyMmap t none >>= _) = _
  rw [copyMmap_none]
  rfl

/-- A call that returns has found a slot. -/
theorem sysFork_takes_slot (h : m.sysFork t highLevel page = .ok m') :
    ∃ j < NTASK, (m.kernel.task j).state = .DEAD := by
  by_contra hfull
  have hnone : m.Full := fun j hj hdead => hfull ⟨j, hj, hdead⟩
  rw [sysFork_full hnone] at h
  cases h

theorem fork_never_fails_cleanly (h : m.Full) : ¬m.FailsCleanly t highLevel page := by
  intro hclean
  unfold FailsCleanly at hclean
  rw [sysFork_full h] at hclean
  cases hclean

end Machine

/-- Every slot has a task that wants to run. -/
def fullMachine : Machine where
  sys := ⟨0x80001000, Mmap.mmapInit (fun _ _ => 0) [] 0x80300000,
    fun _ => some (Mmap.userTask 0x80001000 0x80002000 0)⟩
  kernel :=
    { inode := fun _ => ⟨0, 0, 0, false, ⟨0, 0, 0, 0, 0, fun _ => 0⟩⟩
      holder := fun _ => none
      itable := none
      file := fun _ => ⟨.FD_NONE, 0, false, false, 0, none, 0⟩
      task := fun _ => ⟨.RUNNABLE, fun _ => none, none, true⟩
      hand := fun _ _ => 0
      alloc := fun _ => none
      kid := fun _ => none
      lost := fun _ => 0 }
  id i := i + 1
  parent i := if i = 0 then none else some 0
  registers _ _ := 0
  nextpid := NTASK + 1

theorem fullMachine_full : fullMachine.Full := fun _ _ hdead => by cases hdead

theorem fork_never_fails_cleanly_full : ¬fullMachine.FailsCleanly 0 0 (fun _ => 0) :=
  Machine.fork_never_fails_cleanly fullMachine_full

theorem fork_dereferences_null : ¬∀ m : Machine, m.Full → m.FailsCleanly 0 0 fun _ => 0 := by
  intro hall
  have hclean := hall fullMachine fullMachine_full
  unfold Machine.FailsCleanly at hclean
  rw [Machine.sysFork_full fullMachine_full] at hclean
  cases hclean

end Zrhos.Proc
