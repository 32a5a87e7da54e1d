import Zrhos.Sysfile.Outcome

/-! `a0` along every path of `syscall`: which answers reach the caller and which are lost
with the value of the handler. -/
namespace Zrhos.Sysfile
open Turns
open Fs (Superblock)

/-- What an operation of the caller does to its `a0`. -/
def storeA0 : Sigma Op.Resp → ℕ → ℕ
  | ⟨.ext (.setA0 v), _⟩, _ => toReg v
  | _, a0 => a0

def a0After (a0 : ℕ) (tr : List (Sigma Op.Resp)) : ℕ := tr.foldl (fun a x => storeA0 x a) a0

/-- What the caller is owed: -1 after a failure, else the result. -/
def Delivered : Outcome → ℕ → Prop
  | .failed, a0 => a0 = toReg (-1)
  | .done r, a0 => a0 = toReg r
  | .gone, _ => True

/-- The handlers that store their result in `a0`. -/
def StoresResult (num : ℤ) : Prop :=
  num = SYS_fork ∨ num = SYS_wait ∨ num = SYS_mmap ∨ num = SYS_write ∨ num = SYS_read ∨
    num = SYS_exec ∨ num = SYS_open

instance (num : ℤ) : Decidable (StoresResult num) :=
  inferInstanceAs (Decidable (_ ∨ _))

/-- The exits that lose no answer. A failure is stored by `ioctl` only, which stores it over
every result; the other handlers that store nothing leave the first argument. -/
def Arrives (tf : Trapframe) : Outcome → Prop
  | .failed => toInt tf.a7 = SYS_ioctl ∨ tf.a0 = toReg (-1)
  | .done r => StoresResult (toInt tf.a7) ∨ toInt tf.a7 = SYS_ioctl ∧ r = -1 ∨
      toInt tf.a7 ≠ SYS_ioctl ∧ tf.a0 = toReg r
  | .gone => True

/-! ### The stores of each handler -/

def reporting : Contract Op Op.Resp ℕ where
  pre _ _ := True
  post o a0 r a0' := a0' = storeA0 ⟨o, r⟩ a0

/-- Operations that leave `a0` alone. -/
def Op.Silent : Op → Prop
  | ext (.setA0 _) => False
  | _ => True

variable {sb : Superblock} {α : Type} {p : FsM α} {a0 : ℕ}

@[simp] theorem uses_silent (h : p.Uses Op.Inner) : p.Uses Op.Silent := by
  refine h.mono fun o ho => ?_
  cases o with
  | ext c => cases c <;> trivial
  | _ => trivial

theorem silent_safe {Q : α → ℕ → Prop} (h : p.Uses Op.Silent) (hQ : ∀ a, Q a a0) :
    Safe reporting p a0 Q := by
  refine h.safe (fun o ho => ⟨trivial, fun r a0' h' => h'.trans ?_⟩) hQ
  cases o with
  | ext c => cases c <;> first
    | exact ho.elim
    | rfl
  | _ => rfl

theorem setA0_safe {v : ℤ} {Q : Unit → ℕ → Prop} (hQ : Q () (toReg v)) :
    Safe reporting (call (.ext (.setA0 v))) a0 Q :=
  ⟨trivial, fun _ _ h => h ▸ hQ⟩

/-- A result is in `a0`, a failure leaves it alone. -/
def Stored (a0 : ℕ) : Outcome → ℕ → Prop
  | .failed, a => a = a0
  | .done r, a => a = toReg r
  | .gone, _ => True

theorem failed_safe (h : p.Uses Op.Silent) :
    Safe reporting (p >>= fun _ => pure Outcome.failed) a0 (Stored a0) := by
  simp only [safe_bind]
  exact silent_safe h fun _ => rfl

theorem done_safe {r : ℤ} (h : p.Uses Op.Silent) :
    Safe reporting (p >>= fun _ => pure (Outcome.done r)) (toReg r) (Stored a0) := by
  simp only [safe_bind]
  exact silent_safe h fun _ => rfl

theorem openFail_silent {ip : ℕ} : (openFail sb ip).Uses Op.Silent := by
  simp [openFail, Op.Silent]

theorem openDescriptor_stored {ip omode : ℕ} :
    Safe reporting (openDescriptorOutcome sb ip omode) a0 (Stored a0) := by
  unfold openDescriptorOutcome
  rw [safe_bind]
  refine silent_safe (by simp [Op.Silent]) fun ino => ?_
  split_ifs
  · exact failed_safe openFail_silent
  · rw [safe_bind]
    refine silent_safe (by simp [Op.Silent]) fun f => ?_
    cases f with
    | none => exact failed_safe openFail_silent
    | some f =>
      dsimp only
      rw [safe_bind]
      refine silent_safe (by simp [Op.Silent]) fun fd => ?_
      cases fd with
      | none =>
        dsimp only
        rw [safe_bind]
        exact silent_safe (by simp [Op.Silent]) fun _ => failed_safe openFail_silent
      | some fd =>
        simp only [openDone, safe_bind]
        refine silent_safe (by simp [Op.Silent]) fun trunc => silent_safe (by simp) fun _ => ?_
        refine silent_safe (by simp [iunlock, Op.Silent]) fun _ => ?_
        exact silent_safe (by simp [Op.Silent]) fun _ => setA0_safe rfl

theorem open_stored {omode : ℕ} : Safe reporting (openOutcome sb omode) a0 (Stored a0) := by
  unfold openOutcome
  rw [safe_bind]
  refine silent_safe (by simp [Op.Silent]) fun path => ?_
  cases path with
  | none => rfl
  | some path =>
    simp only [safe_bind]
    refine silent_safe (by simp [Op.Silent]) fun _ => silent_safe (by simp) fun ip => ?_
    cases ip with
    | none => exact failed_safe (by simp [Op.Silent])
    | some ip => exact openDescriptor_stored

theorem writeInode_stored {f ip buf : ℕ} {count : ℤ} :
    Safe reporting (writeInodeOutcome sb f ip buf count) a0 (Stored a0) := by
  unfold writeInodeOutcome
  simp only [safe_bind]
  refine silent_safe (by simp [Op.Silent]) fun _ => silent_safe (by simp) fun _ => ?_
  refine silent_safe (by simp [Op.Silent]) fun writable => ?_
  split_ifs
  · exact failed_safe (by simp [iunlock, Op.Silent])
  · simp only [safe_bind]
    refine silent_safe (by simp [Op.Silent]) fun file => silent_safe (by simp) fun n => ?_
    refine silent_safe (by simp [Op.Silent]) fun _ => ?_
    refine silent_safe (by simp [iunlock, Op.Silent]) fun _ => ?_
    exact silent_safe (by simp [Op.Silent]) fun _ => setA0_safe rfl

theorem readInode_stored {f ip buf : ℕ} {count : ℤ} :
    Safe reporting (readInodeOutcome sb f ip buf count) a0 (Stored a0) := by
  unfold readInodeOutcome
  simp only [safe_bind]
  refine silent_safe (by simp) fun _ => silent_safe (by simp [Op.Silent]) fun file => ?_
  split_ifs
  · exact failed_safe (by simp [iunlock, Op.Silent])
  · simp only [safe_bind]
    refine silent_safe (by simp) fun n => silent_safe (by simp [Op.Silent]) fun _ => ?_
    exact silent_safe (by simp [iunlock, Op.Silent]) fun _ => setA0_safe rfl

theorem onFile_stored {fd : ℤ} {device : ℤ → Ext}
    {answer : ∀ major, (device major).Resp → Option ℤ} {outcome : ℕ → ℕ → FsM Outcome}
    (hdevice : ∀ major, (Op.ext (device major)).Silent)
    (h : ∀ f ip, Safe reporting (outcome f ip) a0 (Stored a0)) :
    Safe reporting (onFileOutcome fd device answer outcome) a0 (Stored a0) := by
  unfold onFileOutcome
  split_ifs
  · rfl
  · rw [safe_bind]
    refine silent_safe (by simp [Op.Silent]) fun f => ?_
    cases f with
    | none => rfl
    | some f =>
      dsimp only
      rw [safe_bind]
      refine silent_safe (by simp [Op.Silent]) fun file => ?_
      cases file.type with
      | FD_NONE => rfl
      | FD_DEVICE =>
        dsimp only
        rw [safe_bind]
        refine silent_safe (uses_call.mpr (hdevice file.major)) fun r => ?_
        cases answer file.major r with
        | none => rfl
        | some n =>
          simp only [safe_bind]
          exact setA0_safe rfl
      | FD_INODE =>
        dsimp only
        cases file.ip with
        | none => exact safe_panic.mpr trivial
        | some ip => exact h f ip

theorem write_stored {fd : ℤ} {buf : ℕ} {count : ℤ} :
    Safe reporting (writeOutcome sb fd buf count) a0 (Stored a0) := by
  unfold writeOutcome
  exact onFile_stored (fun _ => trivial) fun _ _ => writeInode_stored

theorem read_stored {fd : ℤ} {buf : ℕ} {count : ℤ} :
    Safe reporting (readOutcome sb fd buf count) a0 (Stored a0) := by
  unfold readOutcome
  exact onFile_stored (fun _ => trivial) fun _ _ => readInode_stored

/-- `exec` stores `argc` on its way to 0 and nothing on its way to -1. -/
theorem exec_stored {path : List ℕ} {argv : List (List ℕ)} :
    Safe reporting (exec sb path argv) a0 fun ret a =>
      ret = -1 ∧ a = a0 ∨ ret = 0 ∧ a = toReg argv.length := by
  unfold exec
  simp only [safe_bind]
  refine silent_safe (by simp) fun r => ?_
  cases r with
  | none => exact Or.inl ⟨rfl, rfl⟩
  | some ip =>
    simp only [safe_bind]
    refine silent_safe (by simp) fun _ => silent_safe (by simp) fun hdr => ?_
    split_ifs
    · exact safe_panic.mpr trivial
    simp only [safe_bind]
    refine silent_safe (by simp [Op.Silent]) fun pagetable => ?_
    split_ifs
    · exact safe_panic.mpr trivial
    simp only [safe_bind]
    refine silent_safe (by simp [Op.Silent]) fun mmapObj => ?_
    split_ifs
    · exact safe_panic.mpr trivial
    simp only [safe_bind]
    refine silent_safe (by simp) fun _ => silent_safe (by simp) fun _ => ?_
    refine silent_safe (by simp [Op.Silent]) fun addr => ?_
    split_ifs
    · exact safe_panic.mpr trivial
    simp only [safe_bind]
    refine silent_safe (by simp) fun _ => setA0_safe ?_
    refine silent_safe (by simp [Op.Silent]) fun _ => ?_
    exact silent_safe (by simp [Op.Silent]) fun _ => Or.inr ⟨rfl, rfl⟩

theorem sysExec_stored {uargv : ℕ} : Safe reporting (execOutcome sb uargv) a0 (Stored a0) := by
  unfold execOutcome
  rw [safe_bind]
  refine silent_safe (by simp [Op.Silent]) fun path => ?_
  cases path with
  | none => rfl
  | some path =>
    simp only [safe_bind]
    refine silent_safe (by simp) fun args => ?_
    cases args.2 with
    | none => exact failed_safe (by simp)
    | some argv =>
      simp only [safe_bind]
      refine exec_stored.mono fun ret a ha => silent_safe (by simp) fun _ => ?_
      rcases ha with ⟨rfl, rfl⟩ | ⟨rfl, rfl⟩
      · rfl
      · rfl

theorem forkFiles_silent {nt : ℕ} : (forkFiles nt).Uses Op.Silent := by
  simp [forkFiles, Op.Silent, uses_silent dupSlots_inner]

theorem fork_stored : Safe reporting forkOutcome a0 (Stored a0) := by
  unfold forkOutcome
  simp only [safe_bind]
  refine silent_safe (by simp [Op.Silent]) fun nt => silent_safe (by simp [Op.Silent]) fun _ => ?_
  refine silent_safe (by simp [Op.Silent]) fun pid => setA0_safe ?_
  refine silent_safe (by simp [Op.Silent]) fun _ => silent_safe (by simp [Op.Silent]) fun cwd => ?_
  cases cwd with
  | none => exact done_safe forkFiles_silent
  | some e =>
    simp only [safe_bind]
    refine silent_safe (by simp [Op.Silent]) fun _ => silent_safe (by simp [Op.Silent]) fun _ => ?_
    exact silent_safe forkFiles_silent fun _ => rfl

theorem freeTask_silent {t : ℕ} : (freeTask sb t).Uses Op.Silent := by
  unfold freeTask
  refine Prog.Uses.bind (uses_silent closeSlots_inner) fun _ => ?_
  refine Prog.Uses.bind (by simp [Op.Silent]) fun cwd => ?_
  cases cwd <;> simp [Op.Silent]

theorem wait_stored : Safe reporting (waitOutcome sb) a0 (Stored a0) := by
  unfold waitOutcome
  simp only [safe_bind]
  refine silent_safe (by simp [Op.Silent]) fun _ => silent_safe (by simp [Op.Silent]) fun p => ?_
  refine silent_safe (by simp [Op.Silent]) fun pid => setA0_safe ?_
  refine silent_safe freeTask_silent fun _ => silent_safe (by simp [Op.Silent]) fun _ => rfl

theorem mmap_stored {addr sz perm flag : ℕ} :
    Safe reporting (mmapOutcome addr sz perm flag) a0 (Stored a0) := by
  unfold mmapOutcome
  simp only [safe_bind]
  exact silent_safe (by simp [Op.Silent]) fun ret => setA0_safe rfl

theorem ioctlFail_safe {Q : ℤ → ℕ → Prop} (hQ : Q (-1) (toReg (-1))) :
    Safe reporting ioctlFail a0 Q := by
  unfold ioctlFail
  simp only [safe_bind]
  exact setA0_safe hQ

/-- Whatever `ioctl` comes to, `a0` ends as -1. -/
def Overwritten : Outcome → ℕ → Prop
  | .failed, a => a = toReg (-1)
  | .done r, a => a = toReg (-1) ∧ (r = -1 ∨ r = 0 ∨ r = INFOSZ)
  | .gone, _ => True

theorem ioctlFailed_safe :
    Safe reporting (ioctlFail >>= fun _ => pure Outcome.failed) a0 Overwritten := by
  simp only [safe_bind]
  exact ioctlFail_safe rfl

theorem monitorIoctl_safe {userSrc : ℤ} {cmd arg : ℕ} : Safe reporting (monitorIoctl userSrc cmd arg)
    a0 fun r _ => r = -1 ∨ r = 0 ∨ r = INFOSZ := by
  unfold monitorIoctl getMonitorInfo
  split_ifs
  · exact Or.inl rfl
  · simp only [safe_bind]
    refine silent_safe (by simp [Op.Silent]) fun copied => ?_
    split_ifs
    · exact Or.inr (Or.inr rfl)
    · exact Or.inl rfl
  · exact Or.inr (Or.inl rfl)

theorem ioctlDevice_overwritten {major request : ℤ} {buf : ℕ} :
    Safe reporting (ioctlDeviceOutcome major request buf) a0 Overwritten := by
  unfold ioctlDeviceOutcome
  rw [safe_bind]
  refine silent_safe (by simp [Op.Silent]) fun there => ?_
  split_ifs
  · exact ioctlFailed_safe
  · simp only [safe_bind]
    refine monitorIoctl_safe.mono fun r _ hr => setA0_safe (ioctlFail_safe ⟨rfl, ?_⟩)
    unfold monitorAnswer
    split_ifs
    · exact hr
    · exact Or.inr (Or.inl rfl)

theorem ioctl_overwritten {fd request : ℤ} {buf : ℕ} :
    Safe reporting (ioctlOutcome fd request buf) a0 Overwritten := by
  unfold ioctlOutcome
  split_ifs
  · exact ioctlFailed_safe
  · rw [safe_bind]
    refine silent_safe (by simp [Op.Silent]) fun f => ?_
    cases f with
    | none => exact ioctlFailed_safe
    | some f =>
      dsimp only
      rw [safe_bind]
      refine silent_safe (by simp [Op.Silent]) fun file => ?_
      split_ifs
      · exact ioctlDevice_overwritten
      · exact ioctlFailed_safe

theorem killLoop_silent {pid : ℤ} {n t : ℕ} : (killLoop pid n t).Uses Op.Silent := by
  induction n generalizing t with
  | zero => simp [killLoop]
  | succ n ih => simp [killLoop, Op.Silent, ih]

theorem sysChdir_silent : (sysChdir sb).Uses Op.Silent := by
  unfold sysChdir
  refine Prog.Uses.bind (by simp [Op.Silent]) fun path => ?_
  cases path with
  | none => simp
  | some path =>
    refine Prog.Uses.bind (by simp [Op.Silent]) fun _ => Prog.Uses.bind (by simp) fun r => ?_
    cases r with
    | none => simp [Op.Silent]
    | some ip =>
      refine Prog.Uses.bind (by simp) fun _ => Prog.Uses.bind (by simp [Op.Silent]) fun ino => ?_
      simp only [uses_ite]
      refine ⟨fun _ => by simp [Op.Silent], fun _ => ?_⟩
      unfold changeDir
      refine Prog.Uses.bind (by simp [iunlock, Op.Silent]) fun _ => ?_
      refine Prog.Uses.bind (by simp [Op.Silent]) fun old => ?_
      cases old <;> simp [Op.Silent]

/-! ### syscall -/

/-- The other handlers leave the first argument where it is. -/
theorem returned_safe {p : FsM ℤ} (h : p.Uses Op.Silent) {f : ℤ → Outcome} :
    Safe reporting (f <$> p) a0 fun _ a => a = a0 := by
  have hmap : f <$> p = p >>= fun r => pure (f r) := rfl
  rw [hmap, safe_bind]
  exact silent_safe h fun _ => rfl

variable {tf : Trapframe} {out : Outcome} {a : ℕ}

theorem stored_arrives (hnum : StoresResult (toInt tf.a7)) (h : Stored tf.a0 out a) :
    Delivered out a ↔ Arrives tf out := by
  cases out with
  | failed =>
    have hne : toInt tf.a7 ≠ SYS_ioctl := by
      rcases hnum with hnum | hnum | hnum | hnum | hnum | hnum | hnum <;> rw [hnum] <;> decide
    have ha : a = tf.a0 := h
    subst ha
    exact ⟨Or.inr, fun harr => harr.resolve_left hne⟩
  | done r => exact iff_of_true h (Or.inl hnum)
  | gone => exact Iff.rfl

theorem returned_arrives (hnum : ¬ StoresResult (toInt tf.a7)) (hne : toInt tf.a7 ≠ SYS_ioctl)
    (h : a = tf.a0) : Delivered out a ↔ Arrives tf out := by
  subst h
  cases out with
  | failed => exact ⟨Or.inr, fun harr => harr.resolve_left hne⟩
  | done r =>
    constructor
    · intro hd
      exact Or.inr (Or.inr ⟨hne, hd⟩)
    · rintro (hs | ⟨he, -⟩ | ⟨-, hd⟩)
      · exact absurd hs hnum
      · exact absurd he hne
      · exact hd
  | gone => exact Iff.rfl

theorem overwritten_arrives (hnum : toInt tf.a7 = SYS_ioctl) (h : Overwritten out a) :
    Delivered out a ↔ Arrives tf out := by
  cases out with
  | failed => exact iff_of_true h (Or.inl hnum)
  | done r =>
    obtain ⟨ha, hr⟩ := h
    have hstores : ¬ StoresResult (toInt tf.a7) := by
      rw [hnum]
      decide
    have hreg : toReg (-1) = toReg r ↔ r = -1 := by
      rcases hr with rfl | rfl | rfl <;> decide
    subst ha
    constructor
    · intro hd
      exact Or.inr (Or.inl ⟨hnum, hreg.mp hd⟩)
    · rintro (hs | ⟨-, hr⟩ | ⟨hne, -⟩)
      · exact absurd hs hstores
      · exact hreg.mpr hr
      · exact absurd hnum hne
  | gone => exact Iff.rfl

/-- Every entry of the table. -/
theorem outcomes_arrive {num : ℕ} {p : FsM Outcome} (hnum : toInt tf.a7 = num)
    (hp : outcomes sb tf num = some p) :
    Safe reporting p tf.a0 fun out a => Delivered out a ↔ Arrives tf out := by
  have hstored {p : FsM Outcome} (hs : StoresResult num)
      (h : Safe reporting p tf.a0 (Stored tf.a0)) :
      Safe reporting p tf.a0 fun out a => Delivered out a ↔ Arrives tf out :=
    h.mono fun _ _ => stored_arrives (hnum ▸ hs)
  have hreturned {p : FsM ℤ} {f : ℤ → Outcome} (hs : ¬ StoresResult num) (hne : (num : ℤ) ≠ SYS_ioctl)
      (h : p.Uses Op.Silent) :
      Safe reporting (f <$> p) tf.a0 fun out a => Delivered out a ↔ Arrives tf out :=
    (returned_safe h).mono fun _ _ => returned_arrives (hnum ▸ hs) (hnum ▸ hne)
  unfold outcomes at hp
  split at hp
  all_goals first
    | exact absurd hp.symm (Option.some_ne_none _)
    | rw [← Option.some.inj hp]
  · exact hreturned (by decide) (by decide) (by simp [sysPutc, Op.Silent])
  · exact hreturned (by decide) (by decide) (by simp [sysExit, Op.Silent])
  · exact hstored (by decide) fork_stored
  · exact hstored (by decide) wait_stored
  · exact hstored (by decide) mmap_stored
  · exact hreturned (by decide) (by decide) (by simp [sysMunmap, Op.Silent])
  · exact hstored (by decide) write_stored
  · exact hstored (by decide) read_stored
  · exact hreturned (by decide) (by decide) (by simp [sysGetpid, Op.Silent])
  · exact hreturned (by decide) (by decide) killLoop_silent
  · exact hstored (by decide) sysExec_stored
  · exact hstored (by decide) open_stored
  · exact hreturned (by decide) (by decide) sysChdir_silent
  · exact ioctl_overwritten.mono fun _ _ => overwritten_arrives hnum
  · exact hreturned (by decide) (by decide) (by simp [sysClose, Op.Silent])

theorem syscallOutcome_arrives :
    Safe reporting (syscallOutcome sb tf) tf.a0 fun out a => Delivered out a ↔ Arrives tf out := by
  have hnone (hne : toInt tf.a7 ≠ SYS_ioctl) :
      Delivered .failed tf.a0 ↔ Arrives tf .failed :=
    ⟨Or.inr, fun harr => harr.resolve_left hne⟩
  unfold syscallOutcome
  dsimp only
  split_ifs with hnum
  · obtain ⟨hpos, hlt⟩ := hnum
    have hcast : toInt tf.a7 = ((toInt tf.a7).toNat : ℤ) := by omega
    cases hp : outcomes sb tf (toInt tf.a7).toNat with
    | some p => exact outcomes_arrive hcast hp
    | none =>
      refine hnone fun he => ?_
      have hsome : outcomes sb tf SYS_ioctl =
          some (ioctlOutcome (toInt tf.a0) (toInt tf.a1) tf.a2) := rfl
      rw [he, Int.toNat_natCast, hsome] at hp
      exact Option.some_ne_none _ hp
  · refine hnone fun he => hnum ?_
    rw [he]
    decide

/-- A handler and its version with the outcome have the same paths. -/
theorem outcomes_erase (sb : Superblock) (tf : Trapframe) (num : ℕ) :
    (outcomes sb tf num).map (fun p => p >>= fun _ => pure ()) =
      (syscalls sb tf num).map fun p => p >>= fun _ => pure () := by
  have hcode {p : FsM Outcome} {q : FsM ℤ} {f : Outcome → ℤ}
      (h : (p >>= fun out => pure (f out)) = q) :
      some (p >>= fun _ => pure ()) = some (q >>= fun _ => pure ()) := by
    rw [← h, prog_bind_assoc]
    rfl
  have hmap {q : FsM ℤ} {f : ℤ → Outcome} :
      some ((f <$> q) >>= fun _ => pure ()) = some (q >>= fun _ => pure ()) := by
    have hbind : f <$> q = q >>= fun r => pure (f r) := rfl
    rw [hbind, prog_bind_assoc]
    rfl
  unfold outcomes
  split
  · exact hmap
  · exact hmap
  · exact hcode fork_outcome
  · exact hcode wait_outcome
  · exact hcode mmap_outcome
  · exact hmap
  · exact hcode (onFile_outcome fun _ _ => writeInode_outcome)
  · exact hcode (onFile_outcome fun _ _ => readInode_outcome)
  · exact hmap
  · exact hmap
  · exact hcode exec_outcome
  · exact hcode open_outcome
  · exact hmap
  · exact hcode ioctl_outcome
  · exact hmap
  · simp [syscalls, *]

theorem syscall_erase : (syscallOutcome sb tf >>= fun _ => pure ()) = syscall sb tf := by
  unfold syscallOutcome syscall
  dsimp only
  split_ifs
  · have herase := outcomes_erase sb tf (toInt tf.a7).toNat
    cases hq : syscalls sb tf (toInt tf.a7).toNat with
    | none =>
      rw [hq] at herase
      rw [Option.map_eq_none_iff.mp herase]
      rfl
    | some q =>
      rw [hq] at herase
      obtain ⟨p, hp, hpq⟩ := Option.map_eq_some_iff.mp herase
      rw [hp]
      exact hpq
  · rfl

/-- For every number, every argument and all answers of the kernel: `syscall` comes to one
outcome, and the caller finds what it is owed exactly if the call leaves through an exit that
loses no answer. -/
theorem syscall_delivers_iff (sb : Superblock) (tf : Trapframe) (tr : List (Sigma Op.Resp))
    (h : (syscall sb tf).Path tr ()) :
    ∃ out, (∀ out', (syscallOutcome sb tf).Path tr out' ↔ out' = out) ∧
      (Delivered out (a0After tf.a0 tr) ↔ Arrives tf out) := by
  rw [← syscall_erase] at h
  obtain ⟨out, -, hp⟩ := path_bind_pure.mp h
  refine ⟨out, fun out' => ⟨fun h' => h'.unique hp, fun he => he ▸ hp⟩, ?_⟩
  exact syscallOutcome_arrives.path (fun _ _ _ => rfl) hp

/-- `open` of a path at address 4096. -/
def openTrap : Trapframe := ⟨4096, 0, 0, 0, SYS_open⟩

/-- The path cannot be copied from the user. -/
def badPath : List (Sigma Op.Resp) := [⟨.ext (.argstr 0 MAXPATH), none⟩]

theorem openTrap_fails : (syscallOutcome sb openTrap).Path badPath .failed := by
  have hnum : toInt openTrap.a7 = SYS_open := toInt_of_lt (by decide)
  have hrange : (SYS_open : ℤ) > 0 ∧ (SYS_open : ℤ) < NSYSCALL := by decide
  unfold syscallOutcome
  dsimp only
  rw [hnum, if_pos hrange]
  exact .op .ret

theorem openTrap_path : (syscall sb openTrap).Path badPath () := by
  rw [← syscall_erase]
  exact path_bind_pure.mpr ⟨.failed, rfl, openTrap_fails⟩

theorem syscall_delivers_iff_open : (syscall Fs.mkfsSb openTrap).Path badPath () ∧
    ∃ out, (∀ out', (syscallOutcome Fs.mkfsSb openTrap).Path badPath out' ↔ out' = out) ∧
      (Delivered out (a0After openTrap.a0 badPath) ↔ Arrives openTrap out) :=
  ⟨openTrap_path, syscall_delivers_iff Fs.mkfsSb openTrap badPath openTrap_path⟩

/-- The program finds 4096 where it looks for a descriptor or -1. -/
theorem open_failure_is_lost : (syscall Fs.mkfsSb openTrap).Path badPath () ∧
    (syscallOutcome Fs.mkfsSb openTrap).Path badPath .failed ∧
    a0After openTrap.a0 badPath = 4096 ∧ ¬ Delivered .failed (a0After openTrap.a0 badPath) := by
  have hne : 4096 ≠ toReg (-1) := by decide
  exact ⟨openTrap_path, openTrap_fails, rfl, hne⟩

end Zrhos.Sysfile
