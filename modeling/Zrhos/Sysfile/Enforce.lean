import Zrhos.Sysfile.Modes

/-! What the mode of a descriptor allows and what `sys_write` and `sys_read` check of it. The
branch for inodes consults the flags of the file, the branch for devices does not. -/
namespace Zrhos.Sysfile
open Turns Tally
open Fs (Block Superblock)
open Sync (TaskState)

variable {sb : Superblock} {K K' K₀ : Kernel} {i j t₀ e₀ : ℕ}
  {admits : Kernel → Modes → ℕ → Syscall → Prop} {c : Config ℕ Op Op.Resp Kernel ℤ}
  {calls : ℕ → Syscall} {M : Modes}

/-- What the handlers find behind a descriptor. -/
structure Access where
  file : ℕ
  type : FileType
  major : ℤ
  readable : Bool
  writable : Bool

def access (K : Kernel) (t : ℕ) (fd : ℤ) : Option Access :=
  if fd < 0 ∨ fd ≥ NOFILE then none
  else ((K.task t).ofile fd.toNat).map fun f =>
    ⟨f, (K.file f).type, (K.file f).major, (K.file f).readable, (K.file f).writable⟩

namespace Syscall

def transfers : Syscall → Bool
  | write _ _ _ | read _ _ _ => true
  | _ => false

/-- The descriptor of a transfer. -/
def fd : Syscall → ℤ
  | write fd _ _ | read fd _ _ => fd
  | _ => -1

/-- The devices that answer the transfer. -/
def handler : Syscall → ℤ → Bool
  | write _ _ _ => devswWrite
  | read _ _ _ => devswRead
  | _ => fun _ => false

def flag : Syscall → Access → Bool
  | write _ _ _ => Access.writable
  | read _ _ _ => Access.readable
  | _ => fun _ => true

/-- The modes that allow the call. -/
def allowedBy : Syscall → ℕ → Prop
  | write _ _ _, m => m &&& O_WRONLY ≠ 0 ∨ m &&& O_RDWR ≠ 0
  | read _ _ _, m => m &&& O_WRONLY = 0
  | _, _ => True

end Syscall

/-- The call is a transfer on a descriptor that was opened for it. -/
def Fits (M : Modes) (i : ℕ) (call' : Syscall) : Prop :=
  0 ≤ call'.fd ∧ ∃ m, M i call'.fd.toNat = some m ∧ call'.allowedBy m

/-- The call is a transfer on a device that answers it. -/
def OnDevice (K : Kernel) (i : ℕ) (call' : Syscall) : Prop :=
  ∃ a, access K i call'.fd = some a ∧ a.type = .FD_DEVICE ∧ call'.handler a.major = true

def Suits (K : Kernel) (M : Modes) (i : ℕ) (call' : Syscall) : Prop :=
  OnDevice K i call' → Fits M i call'

/-- The operations that carry data, change what is on the disk or move an offset. An inode
that is not in memory yet may still be read. -/
def Moves : (o : Op) → o.Resp → Prop
  | .bstore _ _ _, _ | .bwrite _ _, _ | .setOff _ _, _ => True
  | .ext (.copyin _ _ _), _ | .ext (.copyout _ _), _ | .ext (.setA0 _), _ => True
  | .ext (.devWrite _ _ _), r => r.isSome = true
  | .ext (.devRead _ _ _), r => r.isSome = true
  | _, _ => False

/-- The next operation of the program moves nothing and changes no file; a program at its
end has failed. -/
def Denied (K : Kernel) (i : ℕ) : FsM ℤ → Prop
  | .ret r => r = -1
  | .op o _ => ∀ r K', Does K i o r K' → wired o r = true → ¬ Moves o r ∧ K'.file = K.file

/-- Transfers the mode does not allow are denied. -/
def Enforced (c : Config ℕ Op Op.Resp Kernel ℤ) (calls : ℕ → Syscall) (M : Modes) : Prop :=
  ∀ i p, c.prog i = some p → (calls i).transfers = true → ¬ Fits M i (calls i) →
    Denied c.state i p

/-! ### What the handlers check -/

/-- The test of the handlers. -/
def Permits (a : Option Access) (call' : Syscall) : Prop :=
  ∃ x, a = some x ∧
    (x.type = .FD_DEVICE ∧ call'.handler x.major = true ∨ call'.flag x = true)

/-- The operations of `sys_write` and `sys_read`. -/
def Op.Steady : Op → Prop
  | P _ | V _ | panic _ | bread _ _ | bstore _ _ _ | bwrite _ _ | brelse _ _ => True
  | inode _ | setCopy _ _ | setValid _ _ | file _ | setOff _ _ | ofile _ | writable _ => True
  | ext _ => True
  | _ => False

theorem Op.Quiet.steady {o : Op} (h : o.Quiet) : o.Steady := by
  cases o with
  | ext | panic | bread | bstore | bwrite | brelse | inode | setCopy | setValid => trivial
  | _ => exact h.elim

/-- The operations of `ilock`. -/
def Op.Looks : Op → Prop
  | P _ | V _ | panic _ | bread _ _ | brelse _ _ => True
  | inode _ | setCopy _ _ | setValid _ _ => True
  | _ => False

theorem Op.Looks.steady {o : Op} (h : o.Looks) : o.Steady ∧ ∀ r, ¬ Moves o r := by
  cases o with
  | P | V | panic | bread | brelse | inode | setCopy | setValid => exact ⟨trivial, fun _ => id⟩
  | _ => exact h.elim

@[simp] theorem ilock_looks {e : ℕ} : (ilock sb e).Uses Op.Looks := by
  simp [ilock, Op.Looks]

/-- What the answers tell about the descriptor. -/
def Tells (fd : ℤ) (a : Option Access) : (o : Op) → o.Resp → Prop
  | .ofile d, r => ¬ (fd < 0 ∨ fd ≥ NOFILE) → d = fd.toNat → r = a.map Access.file
  | .file f, r => ∀ x, a = some x → x.file = f →
      r.type = x.type ∧ r.major = x.major ∧ r.readable = x.readable
  | .writable f, r => ∀ x, a = some x → x.file = f → r = x.writable
  | _, _ => True

/-- A transfer moves data only if the test of the handlers lets it. -/
def sees (call' : Syscall) : Contract Op Op.Resp (Option Access) where
  pre o a := o.Steady ∧ ∀ r, wired o r = true → Moves o r → Permits a call'
  post o a r a' := a' = a ∧ wired o r = true ∧ Tells call'.fd a o r

section Sees

variable {α : Type} {call' : Syscall} {a : Option Access} {x : Access} {p : FsM α}
  {Q : α → Option Access → Prop}

theorem looks_sees (h : p.Uses Op.Looks) (hQ : ∀ r, Q r a) : Safe (sees call') p a Q := by
  refine h.safe (fun o ho => ?_) hQ
  obtain ⟨hsteady, hstill⟩ := ho.steady
  exact ⟨⟨hsteady, fun r _ hm => absurd hm (hstill r)⟩, fun _ _ hp => hp.1⟩

theorem steady_sees (hok : Permits a call') (h : p.Uses Op.Steady) (hQ : ∀ r, Q r a) :
    Safe (sees call') p a Q :=
  h.safe (fun _ ho => ⟨⟨ho, fun _ _ _ => hok⟩, fun _ _ hp => hp.1⟩) hQ

/-- An operation that moves nothing. -/
theorem still_sees {o : Op} {Q : o.Resp → Option Access → Prop} (ho : o.Steady)
    (hstill : ∀ r, ¬ Moves o r) (hQ : ∀ r, Tells call'.fd a o r → Q r a) :
    Safe (sees call') (call o) a Q := by
  refine safe_call.mpr ⟨⟨ho, fun r _ hm => absurd hm (hstill r)⟩, ?_⟩
  rintro r _ ⟨rfl, -, htells⟩
  exact hQ r htells

theorem onFile_sees {fd : ℤ} {device : ℤ → Ext} {answer : ∀ major, (device major).Resp → Option ℤ}
    {inode : ℕ → ℕ → FsM ℤ} (hfd : call'.fd = fd)
    (hmoves : ∀ major r, wired (.ext (device major)) r = true →
      (Moves (.ext (device major)) r ∨ (answer major r).isSome = true) →
        call'.handler major = true)
    (hinode : ∀ x ip, a = some x →
      Safe (sees call') (inode x.file ip) a fun r _ => r = -1) :
    Safe (sees call') (onFile fd device answer inode) a fun r _ => r = -1 := by
  unfold onFile
  split_ifs with hrange
  · exact rfl
  rw [safe_bind]
  refine still_sees trivial (fun _ => id) fun f hf => ?_
  have hslot : f = a.map Access.file := hf (by rwa [hfd]) (by rw [hfd])
  cases f with
  | none => exact rfl
  | some f =>
    obtain ⟨x, hx, rfl⟩ := Option.map_eq_some_iff.mp hslot.symm
    dsimp only
    rw [safe_bind]
    refine still_sees trivial (fun _ => id) fun file hfile => ?_
    obtain ⟨htype, hmajor, -⟩ := hfile x hx rfl
    cases ht : file.type with
    | FD_NONE => exact rfl
    | FD_INODE =>
      dsimp only
      cases file.ip with
      | none => simp [sees, Op.Steady, Moves]
      | some ip => exact hinode x ip hx
    | FD_DEVICE =>
      have hpermits (r) (hw : wired (.ext (device file.major)) r = true)
          (hm : Moves (.ext (device file.major)) r ∨ (answer file.major r).isSome = true) :
          Permits a call' := by
        refine ⟨x, hx, .inl ⟨by rw [← htype, ht], ?_⟩⟩
        rw [← hmajor]
        exact hmoves file.major r hw hm
      dsimp only
      rw [safe_bind]
      refine safe_call.mpr ⟨⟨trivial, fun r hw hm => hpermits r hw (.inl hm)⟩, ?_⟩
      rintro r _ ⟨rfl, hw, -⟩
      cases ha : answer file.major r with
      | none => exact rfl
      | some n =>
        dsimp only
        have hok := hpermits r hw (.inr (by rw [ha, Option.isSome_some]))
        rw [safe_bind]
        exact steady_sees hok (by simp [Op.Steady]) fun _ => rfl

theorem sysWrite_sees {fd : ℤ} {buf : ℕ} {count : ℤ} :
    Safe (sees (.write fd buf count)) (sysWrite sb fd buf count) a fun r _ => r = -1 := by
  refine onFile_sees rfl (fun major r hw hm => ?_) fun x ip hx => ?_
  · have hsome : r.isSome = true := hm.elim id id
    exact (beq_iff_eq.mp hw).symm.trans hsome
  · unfold writeInode
    simp only [safe_bind]
    refine looks_sees (by simp [Op.Looks]) fun _ => looks_sees ilock_looks fun _ => ?_
    refine still_sees trivial (fun _ => id) fun writable hwritable => ?_
    have hflag : writable = x.writable := hwritable x hx rfl
    split_ifs with hno
    · exact safe_bind.mpr (looks_sees (by simp [iunlock, Op.Looks]) fun _ => rfl)
    · have hok : Permits a (.write fd buf count) := by
        refine ⟨x, hx, .inr ?_⟩
        rw [Syscall.flag, ← hflag]
        simpa using hno
      simp only [safe_bind]
      refine steady_sees hok (by simp [Op.Steady]) fun file => ?_
      refine steady_sees hok (writei_quiet.mono fun _ => Op.Quiet.steady) fun n => ?_
      refine steady_sees hok (by simp [when, Op.Steady]) fun _ => ?_
      refine steady_sees hok (by simp [iunlock, Op.Steady]) fun _ => ?_
      refine steady_sees hok (by simp [Op.Steady]) fun _ => ?_
      exact steady_sees hok (by simp [Op.Steady]) fun _ => rfl

theorem sysRead_sees {fd : ℤ} {buf : ℕ} {count : ℤ} :
    Safe (sees (.read fd buf count)) (sysRead sb fd buf count) a fun r _ => r = -1 := by
  refine onFile_sees rfl (fun major r hw hm => ?_) fun x ip hx => ?_
  · have hsome : r.isSome = true := hm.elim id id
    exact (beq_iff_eq.mp hw).symm.trans hsome
  · unfold readInode
    simp only [safe_bind]
    refine looks_sees ilock_looks fun _ => ?_
    refine still_sees trivial (fun _ => id) fun file hfile => ?_
    have hflag : file.readable = x.readable := (hfile x hx rfl).2.2
    split_ifs with hno
    · exact safe_bind.mpr (looks_sees (by simp [iunlock, Op.Looks]) fun _ => rfl)
    · have hok : Permits a (.read fd buf count) := by
        refine ⟨x, hx, .inr ?_⟩
        rw [Syscall.flag, ← hflag]
        simpa using hno
      simp only [safe_bind]
      refine steady_sees hok (readi_quiet.mono fun _ => Op.Quiet.steady) fun n => ?_
      refine steady_sees hok (by simp [when, Op.Steady]) fun _ => ?_
      refine steady_sees hok (by simp [iunlock, Op.Steady]) fun _ => ?_
      exact steady_sees hok (by simp [Op.Steady]) fun _ => rfl

theorem prog_sees (h : call'.transfers = true) :
    Safe (sees call') (call'.prog sb) a fun r _ => r = -1 := by
  cases call' with
  | write fd buf count => exact sysWrite_sees
  | read fd buf count => exact sysRead_sees
  | _ => cases h

end Sees

/-! ### A task in a call keeps its descriptors -/

theorem perform_tasks {ω : Oracle} {o : Op} {x : o.Resp × Kernel} (ho : o.Steady)
    (h : perform ω K i o = some x) : x.2.task = K.task := by
  obtain ⟨r, K'⟩ := x
  cases o with
  | P s =>
    cases s <;> simp only [perform] at h
    case inode e =>
      split_ifs at h
      cases h
      rfl
    all_goals
      cases h
      rfl
  | V s => cases s <;> cases h <;> rfl
  | panic => cases h
  | bread | bstore | bwrite | brelse | inode | setCopy | setValid | file | setOff | ofile
  | writable | ext =>
    cases h
    rfl
  | _ => exact ho.elim

theorem perform_files {ω : Oracle} {o : Op} {x : o.Resp × Kernel} (ho : o.Steady)
    (hmoves : ¬ Moves o x.1) (h : perform ω K i o = some x) : x.2.file = K.file := by
  obtain ⟨r, K'⟩ := x
  cases o with
  | P s =>
    cases s <;> simp only [perform] at h
    case inode e =>
      split_ifs at h
      cases h
      rfl
    all_goals
      cases h
      rfl
  | V s => cases s <;> cases h <;> rfl
  | panic => cases h
  | setOff => exact absurd trivial hmoves
  | bread | bstore | bwrite | brelse | inode | setCopy | setValid | file | ofile | writable
  | ext =>
    cases h
    rfl
  | _ => exact ho.elim

theorem Op.Steady.alone {o : Op} (h : o.Steady) : o.Alone = true := by
  cases o <;> first
  | rfl
  | exact h.elim

theorem Op.Steady.not_slots {o : Op} (h : o.Steady) : ¬ o.Slots := by
  cases o <;> first
  | exact id
  | exact h.elim

theorem Unlocked.of_kid (h : Unlocked K i) (hkid : K'.kid = K.kid) : Unlocked K' i := by
  intro t ht
  exact h t (by rw [← hkid]; exact ht)

theorem state_setTask {t : ℕ} {T : Task} (hT : T.state = (K.task t).state) (u : ℕ) :
    ((K.setTask t T).task u).state = (K.task u).state := by
  by_cases hu : u = t
  · subst hu
    simpa [Kernel.setTask] using hT
  · simp [Kernel.setTask, hu]

/-- Operations of one task alone let the others run on. -/
theorem perform_runs {ω : Oracle} {o : Op} {x : o.Resp × Kernel} (ho : o.Alone = true)
    (hruns : (K.task i).state = .RUNNABLE) (h : perform ω K j o = some x) :
    (x.2.task i).state = .RUNNABLE := by
  by_cases hsteady : o.Steady
  · rw [perform_tasks hsteady h]
    exact hruns
  obtain ⟨r, K'⟩ := x
  cases o with
  | P | V | panic | bread | bstore | bwrite | brelse | inode | setCopy | setValid | file | setOff
  | ofile | writable | ext => exact absurd trivial hsteady
  | utaskCreate | reap | unlockTask | setZombie => cases ho
  | iget | inew =>
    simp only [perform] at h
    split_ifs at h
    obtain ⟨y, -, hy⟩ := Option.map_eq_some_iff.mp h
    cases hy
    exact hruns
  | idup | iput =>
    simp only [perform] at h
    split_ifs at h <;> cases h <;> exact hruns
  | filealloc =>
    simp only [perform] at h
    split at h <;> cases h <;> exact hruns
  | openFile | dupSlot | leaveCwd =>
    simp only [perform] at h
    split at h <;> cases h
    · exact hruns
    · refine (state_setTask ?_ i).trans hruns
      rfl
  | closeSlot t fd =>
    simp only [perform] at h
    split at h
    case _ => cases h; exact hruns
    case _ f hf =>
      cases h
      obtain ⟨lost, hlose, -⟩ := lose_eq (K := K) (f := f)
      rw [hlose]
      refine (state_setTask ?_ i).trans hruns
      rfl
  | setCwd t ip =>
    cases ip <;> cases h <;> refine (state_setTask ?_ i).trans hruns <;> rfl
  | setRunnable nt =>
    cases h
    by_cases hnt : i = nt
    · simp [Kernel.setTask, hnt]
    · simpa [Kernel.setTask, hnt] using hruns
  | _ =>
    cases h
    exact hruns

/-- A running task that nobody has locked stays one while the others act. -/
theorem Does.runs_on {o : Op} {r : o.Resp} (hd : Does K j o r K')
    (hruns : (K.task i).state = .RUNNABLE) (hun : Unlocked K i) (hij : i = j → o.Steady) :
    (K'.task i).state = .RUNNABLE ∧ Unlocked K' i := by
  obtain ⟨-, -, -, -, ω, hp⟩ := hd
  by_cases halone : o.Alone = true
  · have hkid : K'.kid = K.kid := perform_kid halone hp
    exact ⟨perform_runs halone hruns hp, hun.of_kid hkid⟩
  have hne : i ≠ j := fun h => halone (hij h).alone
  have hkeep {t : Option ℕ} (ht : t ≠ some i) : Unlocked (K.setKid j t) i := by
    intro u hu
    by_cases huj : u = j
    · subst huj
      exact ht (by simpa [Kernel.setKid] using hu)
    · exact hun u (by simpa [Kernel.setKid, huj] using hu)
  cases o with
  | utaskCreate | reap =>
    simp only [perform] at hp
    split_ifs at hp with hpick
    cases hp
    have hpicked : i ≠ ω.pick := by
      rintro rfl
      rw [hruns] at hpick
      cases hpick.2
    refine ⟨?_, (hkeep fun h => hpicked (Option.some.inj h).symm).of_kid rfl⟩
    simpa [Kernel.setKid, Kernel.setTask, hpicked] using hruns
  | unlockTask =>
    cases hp
    exact ⟨hruns, hkeep fun h => by cases h⟩
  | setZombie =>
    cases hp
    exact ⟨by simpa [Kernel.setTask, hne] using hruns, hun.of_kid rfl⟩
  | _ => exact absurd rfl halone

theorem access_congr (hslot : (K'.task i).ofile = (K.task i).ofile)
    (hflag : ∀ fd < NOFILE, ∀ f, (K.task i).ofile fd = some f → SameFlags (K.file f) (K'.file f))
    (fd : ℤ) : access K' i fd = access K i fd := by
  unfold access
  split_ifs with hfd
  · rfl
  rw [hslot]
  cases hf : (K.task i).ofile fd.toNat with
  | none => rfl
  | some f =>
    obtain ⟨htype, hmajor, hreadable, hwritable⟩ := hflag fd.toNat (by omega) f hf
    simp only [Option.map_some, htype, hmajor, hreadable, hwritable]

theorem record_of_not_slots {o : Op} {r : o.Resp} {call' : Syscall} (ho : ¬ o.Slots) :
    record M call' j o r = M := by
  cases o <;> first
  | rfl
  | exact absurd trivial ho

theorem setSlot_ofile_of_ne {t fd : ℕ} {f : Option ℕ} (hit : i ≠ t) :
    ((K.setSlot t fd f).task i).ofile = (K.task i).ofile := by
  simp [Kernel.setSlot, Kernel.setTask, hit]

theorem Modes.set_of_task_ne {t fd : ℕ} {m : Option ℕ} (hit : i ≠ t) : M.set t fd m i = M i :=
  Function.update_of_ne hit _ _

/-- A running task keeps its descriptors, their files and their modes while others act. -/
theorem Does.keeps {o : Op} {r : o.Resp} (call' : Syscall) (M : Modes) (hc : Counted K)
    (hasks : Asks False o (view K j)) (hd : Does K j o r K') (hi : i < NTASK)
    (hun : Unlocked K i) (hij : i = j → o.Steady) :
    (∀ fd, access K' i fd = access K i fd) ∧ record M call' j o r i = M i := by
  obtain ⟨hj, -, -, -, ω, hp⟩ := hd
  by_cases ho : o.Slots
  case neg =>
    have hstill := perform_still ho hp
    exact ⟨access_congr (hstill.1 i) fun _ _ f _ => hstill.2 f, by rw [record_of_not_slots ho]⟩
  have hne : i ≠ j := fun h => (hij h).not_slots ho
  have hkid {t : ℕ} {T : Task} (h : (view K j).kid = some (t, T)) : i ≠ t := by
    rintro rfl
    exact hun j (kid_of_view h)
  cases o with
  | openFile f type major ip rd wr =>
    simp only [perform] at hp
    split at hp
    case _ =>
      cases hp
      exact ⟨fun _ => rfl, rfl⟩
    case _ fd' hfree =>
      cases hp
      refine ⟨access_congr (setSlot_ofile_of_ne hne) fun d hd g hg => ?_, ?_⟩
      · have hgf : g ≠ f := by
          rintro rfl
          have := (hc.allocs_eq_zero hi hd hg).2
          have := (hc.alloc_new j g hasks.1).1
          omega
        simp only [Kernel.setHand, Kernel.setAlloc, Kernel.setSlot, Kernel.setTask, Kernel.setFile,
          Function.update_of_ne hgf]
        exact .refl
      · cases call' with
        | «open» omode => exact Modes.set_of_task_ne hne
        | _ => rfl
  | closeSlot u d =>
    have hut : i ≠ u.getD j := by
      cases u with
      | none => exact hne
      | some u =>
        obtain ⟨-, T, hT⟩ := hasks
        exact hkid hT
    refine ⟨?_, Modes.set_of_task_ne hut⟩
    simp only [perform] at hp
    split at hp
    case _ =>
      cases hp
      exact fun _ => rfl
    case _ f hf =>
      cases hp
      obtain ⟨lost, hlose, -⟩ := lose_eq (K := K) (f := f)
      rw [hlose]
      refine access_congr (setSlot_ofile_of_ne hut) fun _ _ g _ => ?_
      exact SameFlags.addFileRef
        (K := ({ K with lost := lost } : Kernel).setSlot (u.getD j) d none) (-1) g
  | dupSlot nt d =>
    obtain ⟨-, T, hT, -⟩ := hasks
    have hnt : i ≠ nt := hkid hT
    refine ⟨?_, Modes.set_of_task_ne hnt⟩
    simp only [perform] at hp
    split at hp
    case _ =>
      cases hp
      exact fun _ => rfl
    case _ f hf =>
      cases hp
      exact access_congr (setSlot_ofile_of_ne hnt) fun _ _ g _ => SameFlags.addFileRef 1 g
  | _ => exact ho.elim

/-! ### The mode is enforced where the calls on devices suit it -/

/-- What holds of a task in a transfer. -/
structure Watched (K : Kernel) (M : Modes) (i : ℕ) (call' : Syscall) (p : FsM ℤ) : Prop where
  lt : i < NTASK
  runs : (K.task i).state = .RUNNABLE
  unlocked : Unlocked K i
  suits : Suits K M i call'
  sees : Safe (sees call') p (access K i call'.fd) fun r _ => r = -1

theorem Fits.congr {M' : Modes} {call' : Syscall} (hM : M' i = M i) :
    Fits M' i call' ↔ Fits M i call' := by
  simp only [Fits, hM]

theorem Watched.turn {o : Op} {r : o.Resp} {call' : Syscall} {p : FsM ℤ} {owner : Syscall}
    (h : Watched K M i call' p) (hc : Counted K) (hasks : Asks False o (view K j))
    (hd : Does K j o r K') (hij : i = j → o.Steady) {p' : FsM ℤ}
    (hp : Safe (Sysfile.sees call') p' (access K i call'.fd) fun r _ => r = -1) :
    Watched K' (record M owner j o r) i call' p' := by
  obtain ⟨haccess, hmodes⟩ := hd.keeps owner M hc hasks h.lt h.unlocked hij
  obtain ⟨hruns, hun⟩ := hd.runs_on h.runs h.unlocked hij
  refine ⟨h.lt, hruns, hun, fun hdev => ?_, by rwa [haccess]⟩
  rw [Fits.congr hmodes]
  refine h.suits ?_
  simpa only [OnDevice, haccess] using hdev

theorem access_eq_some {fd : ℤ} {x : Access} (h : access K i fd = some x) :
    fd.toNat < NOFILE ∧ 0 ≤ fd ∧ (K.task i).ofile fd.toNat = some x.file ∧
      x = ⟨x.file, (K.file x.file).type, (K.file x.file).major, (K.file x.file).readable,
        (K.file x.file).writable⟩ := by
  unfold access at h
  split_ifs at h with hfd
  obtain ⟨f, hf, rfl⟩ := Option.map_eq_some_iff.mp h
  exact ⟨by omega, by omega, hf, rfl⟩

theorem tells_of_does {o : Op} {r : o.Resp} {fd : ℤ} (hd : Does K i o r K') :
    Tells fd (access K i fd) o r := by
  obtain ⟨-, -, -, -, ω, hp⟩ := hd
  cases o with
  | ofile d =>
    cases hp
    rintro hfd rfl
    rw [access, if_neg hfd, Option.map_map]
    exact (Option.map_id' (x := (K.task i).ofile fd.toNat)).symm
  | file f =>
    cases hp
    rintro x hx rfl
    rw [(access_eq_some hx).2.2.2]
    exact ⟨rfl, rfl, rfl⟩
  | writable f =>
    cases hp
    rintro x hx rfl
    rw [(access_eq_some hx).2.2.2]
  | _ => trivial

/-- In a history whose calls suit their devices every transfer in progress is watched. -/
theorem History.watched (hb : Booted K₀ t₀ e₀) (h : History Suits sb K₀ c calls M) {p : FsM ℤ}
    (hp : c.prog i = some p) (ht : (calls i).transfers = true) :
    Watched c.state M i (calls i) p := by
  induction h generalizing i p with
  | boot => cases hp
  | @turn K K' prog calls M j o k r hrun hj hd hw ih =>
    obtain ⟨hc, hasks⟩ := hrun.asks hb.idle hj
    dsimp only at hp
    by_cases hij : i = j
    · subst hij
      rw [Function.update_self] at hp
      cases hp
      have hold := ih hj ht
      have hsafe := hold.sees
      have hnext := hsafe.2 r (access K i (calls i).fd) ⟨rfl, hw, tells_of_does hd⟩
      exact hold.turn hc hasks hd (fun _ => hsafe.1.1) hnext
    · rw [Function.update_of_ne hij] at hp
      have hold := ih hp ht
      exact hold.turn hc hasks hd (fun h => absurd h hij) hold.sees
  | @leave K prog calls M j a _ hj ih =>
    dsimp only at hp
    by_cases hij : i = j
    · subst hij
      rw [Function.update_self] at hp
      cases hp
    · rw [Function.update_of_ne hij] at hp
      exact ih hp ht
  | @enter K prog calls M j c' _ hj he hsuits ih =>
    dsimp only at hp
    by_cases hij : i = j
    · subst hij
      rw [Function.update_self] at hp ht ⊢
      cases hp
      obtain ⟨hlt, hruns, hun, -⟩ := he
      exact ⟨hlt, hruns, hun, hsuits, prog_sees ht⟩
    · rw [Function.update_of_ne hij] at hp ht ⊢
      exact ih hp ht

/-- Where the test of the handlers and the devices let a call through its mode does too. -/
theorem fits_of_permits {call' : Syscall} (hf : Flagged K M) (hi : i < NTASK)
    (ht : call'.transfers = true) (hs : Suits K M i call')
    (h : Permits (access K i call'.fd) call') : Fits M i call' := by
  obtain ⟨x, hx, hdev | hflag⟩ := h
  · exact hs ⟨x, hx, hdev⟩
  obtain ⟨hlt, hpos, hslot, hfile⟩ := access_eq_some hx
  obtain ⟨m, hm, hreadable, hwritable⟩ := hf i hi _ hlt x.file hslot
  refine ⟨hpos, m, hm, ?_⟩
  rw [hfile] at hflag
  cases call' with
  | write fd buf count =>
    have hw : writeFlag m = true := hwritable.symm.trans hflag
    simpa [writeFlag, Syscall.allowedBy] using hw
  | read fd buf count =>
    have hr : readFlag m = true := hreadable.symm.trans hflag
    simpa [readFlag, Syscall.allowedBy] using hr
  | _ => cases ht

/-! ### Histories of one task -/

/-- Task `i` alone goes on with its call, and the modes with it. -/
def track (i : ℕ) (call' : Syscall) :
    List Oracle → Kernel → Modes → FsM ℤ → Option (Kernel × Modes × FsM ℤ)
  | [], K, M, p => some (K, M, p)
  | _ :: _, _, _, .ret _ => none
  | ω :: ωs, K, M, .op o k =>
    if (K.task i).state = .RUNNABLE ∧ o.Alone = true then
      (perform ω K i o).bind fun x =>
        if wired o x.1 = true then track i call' ωs x.2 (record M call' i o x.1) (k x.1) else none
    else none

theorem track_history {ωs : List Oracle} {p : FsM ℤ} {prog : ℕ → Option (FsM ℤ)}
    {x : Kernel × Modes × FsM ℤ} (hi : i < NTASK) (hkid : K.kid = fun _ => none)
    (h : History admits sb K₀ ⟨K, prog⟩ calls M) (hp : prog i = some p)
    (hx : track i (calls i) ωs K M p = some x) :
    ∃ prog', prog' i = some x.2.2 ∧ History admits sb K₀ ⟨x.1, prog'⟩ calls x.2.1 ∧
      x.1.kid = fun _ => none := by
  induction ωs generalizing K M p prog with
  | nil =>
    cases hx
    exact ⟨prog, hp, h, hkid⟩
  | cons ω ωs ih =>
    cases p with
    | ret a => cases hx
    | op o k =>
      unfold track at hx
      split_ifs at hx with hc
      obtain ⟨hruns, halone⟩ := hc
      obtain ⟨y, hy, hrest⟩ := Option.bind_eq_some_iff.mp hx
      split_ifs at hrest with hw
      have hun (t : ℕ) : Unlocked K t := fun j => by simp [hkid]
      have hgrants : Grants K o y.1 := by
        cases o <;> trivial
      have hdoes : Does K i o y.1 y.2 := ⟨hi, hruns, hun i, hgrants, ω, hy⟩
      have hkid' : y.2.kid = fun _ => none := (perform_kid halone hy).trans hkid
      exact ih hkid' (h.turn hp hdoes hw) (Function.update_self _ _ _) hrest

/-- A task that has ended its call begins the next one. -/
theorem History.next {prog : ℕ → Option (FsM ℤ)} {r : ℤ} (call' : Syscall)
    (h : History admits sb K₀ ⟨K, prog⟩ calls M) (hp : prog i = some (.ret r)) (hi : i < NTASK)
    (hruns : (K.task i).state = .RUNNABLE) (hkid : K.kid = fun _ => none)
    (hok : admits K M i call') :
    ∃ prog', prog' i = some (call'.prog sb) ∧
      History admits sb K₀ ⟨K, prog'⟩ (Function.update calls i call') M := by
  have hun : Unlocked K i := fun j => by simp [hkid]
  have hleft := h.leave hp
  have henters : Enters sb K i (call'.prog sb) := ⟨hi, hruns, hun, call', rfl⟩
  exact ⟨_, Function.update_self _ _ _, hleft.enter (Function.update_self _ _ _) henters hok⟩

/-- The first call of the first task. -/
theorem History.first (call' : Syscall) (hok : admits bootKernel (fun _ _ => none) 0 call') :
    ∃ prog, prog 0 = some (call'.prog sb) ∧ History admits sb bootKernel ⟨bootKernel, prog⟩
      (Function.update (fun _ => .exit) 0 call') fun _ _ => none := by
  have hun : Unlocked bootKernel 0 := fun t ht => by cases ht
  have henters : Enters sb bootKernel 0 (call'.prog sb) := ⟨by decide, rfl, hun, call', rfl⟩
  exact ⟨_, Function.update_self _ _ _, History.boot.enter rfl henters hok⟩

/-! ### Enforcement -/

/-- If every transfer on a device is entered with a mode that allows it, modes are enforced in
every state. -/
theorem modes_enforced (hb : Booted K₀ t₀ e₀) (h : History Suits sb K₀ c calls M) :
    Enforced c calls M := by
  intro i p hp ht hfits
  have hwatched := h.watched hb hp ht
  cases p with
  | ret r => exact hwatched.sees
  | op o k =>
    obtain ⟨⟨hsteady, hpre⟩, -⟩ := hwatched.sees
    intro r K' hd hw
    have hmoves : ¬ Moves o r := fun hm =>
      hfits (fits_of_permits (h.flagged hb) hwatched.lt ht hwatched.suits (hpre r hw hm))
    obtain ⟨-, -, -, -, ω, hperf⟩ := hd
    exact ⟨hmoves, perform_files hsteady hmoves hperf⟩

/-- The root directory is open for reading only, and a `write` to it is denied. -/
theorem root_write_denied : ∃ c calls M, History Suits Fs.mkfsSb bootKernel c calls M ∧
    c.prog 0 = some (sysWrite Fs.mkfsSb 0 0 1) ∧ M 0 0 = some O_RDONLY ∧ Enforced c calls M := by
  have hopen : (track 0 (.open O_RDONLY) (List.replicate 18 (answers [slash] rootBlock)) bootKernel
      (fun _ _ => none) (sysOpen Fs.mkfsSb O_RDONLY)).map
        (fun x => ((x.1.task 0).state, hasEnded x.2.2, x.2.1 0 0,
          ((x.1.task 0).ofile 0).map fun f => (x.1.file f).type)) =
      some (.RUNNABLE, true, some O_RDONLY, some .FD_INODE) := by
    decide
  obtain ⟨⟨K, M, p⟩, hopen, hended⟩ := Option.map_eq_some_iff.mp hopen
  simp only [Prod.mk.injEq] at hended
  obtain ⟨hruns, hret, hmode, htype⟩ := hended
  obtain ⟨r, rfl⟩ := eq_ret_of_hasEnded hret
  have hsuits : Suits K M 0 (.write 0 0 1) := by
    rintro ⟨x, hx, hdev, -⟩
    obtain ⟨-, -, hslot, hfile⟩ := access_eq_some hx
    have hzero : (K.task 0).ofile 0 = some x.file := hslot
    rw [hzero, Option.map_some, Option.some.injEq] at htype
    rw [hfile, htype] at hdev
    cases hdev
  have hopens : Suits bootKernel (fun _ _ => none) 0 (.open O_RDONLY) := by
    rintro ⟨_, _, _, h⟩
    cases h
  obtain ⟨prog, hprog, hfirst⟩ := History.first (.open O_RDONLY) hopens
  obtain ⟨prog, hprog, hopened, hkid⟩ := track_history (by decide) rfl hfirst hprog hopen
  obtain ⟨prog, hprog, hentered⟩ := hopened.next _ hprog (by decide) hruns hkid hsuits
  exact ⟨_, _, _, hentered, hprog, hmode, modes_enforced bootKernel_booted hentered⟩

/-! ### A device opened for reading is written -/

/-- The block of a disk whose root directory has the one entry `console`; it has the inodes
and the directory. -/
def consoleBlock : Block := fun i =>
  [2, 0, 99, 111, 110, 115, 111, 108, 101].getD i
    (if i = 64 then 1 else if i = 72 then 16 else if i = 76 then 60 else if i = 128 then 3 else 0)

/-- The path `/console`. -/
def consolePath : List ℕ := [47, 99, 111, 110, 115, 111, 108, 101]

/-- The answers of an environment whose devices take one byte. -/
def consoleAnswers : Oracle where
  block := consoleBlock
  ext
    | .devWrite _ _ _ => some 1
    | e => (answers consolePath consoleBlock).ext e
  pick := 0

/-- The first task opens the device `console` for reading. -/
def openConsole : Option (Kernel × Modes × FsM ℤ) :=
  track 0 (.open O_RDONLY) (List.replicate 36 consoleAnswers) bootKernel
    (fun _ _ => none) (sysOpen Fs.mkfsSb O_RDONLY)

/-- It calls `write` on the descriptor and comes to the device. -/
def writeConsole : Option (Kernel × Modes × FsM ℤ) :=
  openConsole.bind fun x => track 0 (.write 0 0 1)
    (List.replicate 2 consoleAnswers) x.1 x.2.1 (sysWrite Fs.mkfsSb 0 0 1)

/-- The device a program is about to write. -/
def devWritten : FsM ℤ → Option ℤ
  | .op (.ext (.devWrite major _ _)) _ => some major
  | _ => none

theorem openConsole_ends : (openConsole.map fun x => ((x.1.task 0).state, hasEnded x.2.2)) =
    some (.RUNNABLE, true) := by
  decide

theorem writeConsole_reaches : (writeConsole.map fun x =>
    ((x.1.task 0).state, x.2.1 0 0, devWritten x.2.2)) =
      some (.RUNNABLE, some O_RDONLY, some CONSOLE) := by
  decide

theorem eq_devWrite {p : FsM ℤ} {major : ℤ} (h : devWritten p = some major) :
    ∃ buf count k, p = .op (.ext (.devWrite major buf count)) k := by
  unfold devWritten at h
  split at h
  case h_1 _ major' buf count k =>
    cases h
    exact ⟨buf, count, k, rfl⟩
  case h_2 => cases h

/-- A descriptor that was opened with `O_RDONLY` writes to the console. -/
theorem console_written_readonly : ¬ ∀ (sb : Superblock) (K₀ : Kernel) (t₀ e₀ : ℕ)
    (c : Config ℕ Op Op.Resp Kernel ℤ) (calls : ℕ → Syscall) (M : Modes), Booted K₀ t₀ e₀ →
      History (fun _ _ _ _ => True) sb K₀ c calls M → Enforced c calls M := by
  intro hall
  obtain ⟨⟨K, M, p⟩, hopen, hended⟩ := Option.map_eq_some_iff.mp openConsole_ends
  obtain ⟨hruns, hret⟩ := Prod.mk.inj hended
  obtain ⟨r, rfl⟩ := eq_ret_of_hasEnded hret
  obtain ⟨⟨K', M', p'⟩, hwrite, hreached⟩ := Option.map_eq_some_iff.mp writeConsole_reaches
  simp only [Prod.mk.injEq] at hreached
  obtain ⟨hruns', hmode, hdev⟩ := hreached
  obtain ⟨buf, count, k, rfl⟩ := eq_devWrite hdev
  have hsecond : track 0 (.write 0 0 1) (List.replicate 2 consoleAnswers) K M
      (sysWrite Fs.mkfsSb 0 0 1) = some (K', M', .op (.ext (.devWrite CONSOLE buf count)) k) := by
    rwa [writeConsole, hopen] at hwrite
  -- open, then write up to the call of the device
  let admits : Kernel → Modes → ℕ → Syscall → Prop := fun _ _ _ _ => True
  obtain ⟨prog, hprog, hfirst⟩ : ∃ prog, prog 0 = some (sysOpen Fs.mkfsSb O_RDONLY) ∧
      History admits Fs.mkfsSb bootKernel ⟨bootKernel, prog⟩ _ _ :=
    History.first (.open O_RDONLY) trivial
  obtain ⟨prog, hprog, hopened, hkid⟩ := track_history (by decide) rfl hfirst hprog hopen
  obtain ⟨prog, hprog, hentered⟩ := hopened.next (.write 0 0 1) hprog (by decide) hruns
    hkid trivial
  obtain ⟨prog, hprog, hthere, hkid⟩ := track_history (by decide) hkid hentered hprog hsecond
  have henforced := hall Fs.mkfsSb bootKernel 0 0 _ _ _ bootKernel_booted hthere
  have hfits : ¬ Fits M' 0 (.write 0 0 1) := by
    rintro ⟨-, m, hm, hallowed⟩
    cases hmode.symm.trans hm
    simp [Syscall.allowedBy, O_RDONLY] at hallowed
  have hdenied := henforced 0 _ hprog rfl hfits
  have hdoes : Does K' 0 (.ext (.devWrite CONSOLE buf count)) (some 1) K' := by
    have hun : Unlocked K' 0 := fun t ht => by
      rw [show K'.kid = _ from hkid] at ht
      cases ht
    exact ⟨by decide, hruns', hun, trivial, consoleAnswers, rfl⟩
  exact (hdenied (some 1) K' hdoes rfl).1 rfl

end Zrhos.Sysfile
