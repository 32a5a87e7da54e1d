import Zrhos.Sysfile.Runs

/-! Descriptors with the mode words they were opened with. The modes are not stored by the
kernel; a history of the calls carries them along, through `open`, `fork` and `close`. -/
namespace Zrhos.Sysfile
open Turns Tally
open Fs (Superblock)
open Sync (TaskState)
open Mmap (upTo mem_upTo)

variable {sb : Superblock} {K K' K₀ : Kernel} {i t fd f t₀ e₀ : ℕ}

/-- The mode word behind descriptor `fd` of task `t`. -/
abbrev Modes := ℕ → ℕ → Option ℕ

def Modes.set (M : Modes) (t fd : ℕ) (m : Option ℕ) : Modes :=
  Function.update M t (Function.update (M t) fd m)

@[simp] theorem Modes.set_self {M : Modes} {m : Option ℕ} : M.set t fd m t fd = m := by
  simp [Modes.set]

theorem Modes.set_of_ne {M : Modes} {m : Option ℕ} {u d : ℕ} (h : ¬ (u = t ∧ d = fd)) :
    M.set t fd m u d = M u d := by
  unfold Modes.set
  by_cases hu : u = t
  · subst hu
    rw [Function.update_self, Function.update_of_ne fun hd => h ⟨rfl, hd⟩]
  · rw [Function.update_of_ne hu]

/-- What an operation of task `i` in the call `c` does to the modes. -/
def record (M : Modes) (c : Syscall) (i : ℕ) : (o : Op) → o.Resp → Modes
  | .openFile _ _ _ _ _ _, some fd =>
    match c with
    | .open omode => M.set i fd (some omode)
    | _ => M
  | .dupSlot nt fd, _ => M.set nt fd (M i fd)
  | .closeSlot t fd, _ => M.set (t.getD i) fd none
  | _, _ => M

def CONSOLE : ℤ := 0
def MONITOR0 : ℤ := 1
def KEYBOARD : ℤ := 2

/-- The devices whose entry of `devsw` has a `write`. -/
def devswWrite (major : ℤ) : Bool := major = CONSOLE ∨ major = MONITOR0

def devswRead (major : ℤ) : Bool := major = CONSOLE ∨ major = KEYBOARD

/-- Only devices with the operation answer. -/
def wired : (o : Op) → o.Resp → Bool
  | .ext (.devWrite major _ _), r => r.isSome == devswWrite major
  | .ext (.devRead major _ _), r => r.isSome == devswRead major
  | _, _ => true

/-- A run of the system calls from `K₀` on with the call each task is in and the modes.
Tasks enter the calls that `admits` allows. -/
inductive History (admits : Kernel → Modes → ℕ → Syscall → Prop) (sb : Superblock) (K₀ : Kernel) :
    Config ℕ Op Op.Resp Kernel ℤ → (ℕ → Syscall) → Modes → Prop
  | boot : History admits sb K₀ ⟨K₀, fun _ => none⟩ (fun _ => .exit) (fun _ _ => none)
  | turn {K K' : Kernel} {prog : ℕ → Option (FsM ℤ)} {calls : ℕ → Syscall} {M : Modes} {i : ℕ}
      {o : Op} {k : o.Resp → FsM ℤ} {r : o.Resp} : History admits sb K₀ ⟨K, prog⟩ calls M →
      prog i = some (.op o k) → Does K i o r K' → wired o r = true →
      History admits sb K₀ ⟨K', Function.update prog i (some (k r))⟩ calls
        (record M (calls i) i o r)
  | leave {K : Kernel} {prog : ℕ → Option (FsM ℤ)} {calls : ℕ → Syscall} {M : Modes} {i : ℕ}
      {a : ℤ} : History admits sb K₀ ⟨K, prog⟩ calls M → prog i = some (.ret a) →
      History admits sb K₀ ⟨K, Function.update prog i none⟩ calls M
  | enter {K : Kernel} {prog : ℕ → Option (FsM ℤ)} {calls : ℕ → Syscall} {M : Modes} {i : ℕ}
      {c : Syscall} : History admits sb K₀ ⟨K, prog⟩ calls M → prog i = none →
      Enters sb K i (c.prog sb) → admits K M i c →
      History admits sb K₀ ⟨K, Function.update prog i (some (c.prog sb))⟩
        (Function.update calls i c) M

variable {admits : Kernel → Modes → ℕ → Syscall → Prop} {c : Config ℕ Op Op.Resp Kernel ℤ}
  {calls : ℕ → Syscall} {M : Modes}

theorem History.run (h : History admits sb K₀ c calls M) :
    Run Does (Enters sb) ⟨K₀, fun _ => none⟩ c := by
  induction h with
  | boot => exact .refl
  | turn _ hp hd _ ih => exact ih.tail (.turn hp hd)
  | leave _ hp ih => exact ih.tail (.leave hp)
  | enter _ hp he _ ih => exact ih.tail (.enter hp he)

/-! ### Descriptors and flags under the operations -/

/-- The operations that change descriptors. -/
def Op.Slots : Op → Prop
  | openFile _ _ _ _ _ _ | closeSlot _ _ | dupSlot _ _ => True
  | _ => False

/-- What the two handlers read of an open file. -/
def SameFlags (F F' : File) : Prop :=
  F'.type = F.type ∧ F'.major = F.major ∧ F'.readable = F.readable ∧ F'.writable = F.writable

theorem SameFlags.refl {F : File} : SameFlags F F := ⟨rfl, rfl, rfl, rfl⟩

theorem SameFlags.setFile {F : File} (hs : SameFlags (K.file f) F) (g : ℕ) :
    SameFlags (K.file g) ((K.setFile f F).file g) := by
  by_cases hg : g = f
  · subst hg
    simpa [Kernel.setFile] using hs
  · simp only [Kernel.setFile, Function.update_of_ne hg]
    exact .refl

theorem SameFlags.addFileRef (n : ℤ) (g : ℕ) :
    SameFlags (K.file g) ((K.addFileRef f n).file g) :=
  SameFlags.setFile (F := { K.file f with ref := (K.file f).ref + n }) ⟨rfl, rfl, rfl, rfl⟩ g

theorem ofile_setTask {T : Task} (hT : T.ofile = (K.task t).ofile) (u : ℕ) :
    ((K.setTask t T).task u).ofile = (K.task u).ofile := by
  by_cases hu : u = t
  · subst hu
    simpa [Kernel.setTask] using hT
  · simp [Kernel.setTask, hu]

/-- Operations that change no descriptor change no flags either. -/
theorem perform_still {ω : Oracle} {o : Op} {x : o.Resp × Kernel} (ho : ¬ o.Slots)
    (h : perform ω K i o = some x) :
    (∀ u, (x.2.task u).ofile = (K.task u).ofile) ∧ ∀ g, SameFlags (K.file g) (x.2.file g) := by
  obtain ⟨r, K'⟩ := x
  cases o with
  | openFile | closeSlot | dupSlot => exact absurd trivial ho
  | panic => cases h
  | P s =>
    cases s <;> simp only [perform] at h
    case inode e =>
      split_ifs at h
      cases h
      exact ⟨fun _ => rfl, fun _ => .refl⟩
    all_goals
      cases h
      exact ⟨fun _ => rfl, fun _ => .refl⟩
  | V s => cases s <;> cases h <;> exact ⟨fun _ => rfl, fun _ => .refl⟩
  | iget | inew =>
    simp only [perform] at h
    split_ifs at h
    obtain ⟨y, -, hy⟩ := Option.map_eq_some_iff.mp h
    cases hy
    exact ⟨fun _ => rfl, fun _ => .refl⟩
  | idup | iput =>
    simp only [perform] at h
    split_ifs at h <;> cases h <;> exact ⟨fun _ => rfl, fun _ => .refl⟩
  | utaskCreate | reap =>
    simp only [perform] at h
    split_ifs at h
    cases h
    exact ⟨ofile_setTask rfl, fun _ => .refl⟩
  | filealloc =>
    simp only [perform] at h
    split at h
    case _ => cases h; exact ⟨fun _ => rfl, fun _ => .refl⟩
    case _ f hf =>
      cases h
      exact ⟨fun _ => rfl, SameFlags.addFileRef 1⟩
  | fileclose f =>
    cases h
    exact ⟨fun _ => rfl, SameFlags.addFileRef (-1)⟩
  | setOff f off =>
    cases h
    exact ⟨fun _ => rfl, SameFlags.setFile ⟨rfl, rfl, rfl, rfl⟩⟩
  | leaveCwd t =>
    simp only [perform] at h
    split at h
    case _ => cases h; exact ⟨fun _ => rfl, fun _ => .refl⟩
    case _ e he =>
      cases h
      exact ⟨ofile_setTask rfl, fun _ => .refl⟩
  | setCwd t ip => cases ip <;> cases h <;> exact ⟨ofile_setTask rfl, fun _ => .refl⟩
  | setRunnable | setZombie =>
    cases h
    exact ⟨ofile_setTask rfl, fun _ => .refl⟩
  | _ =>
    cases h
    exact ⟨fun _ => rfl, fun _ => .refl⟩

/-! ### Opens -/

def readFlag (m : ℕ) : Bool := m &&& O_WRONLY = 0

def writeFlag (m : ℕ) : Bool := m &&& O_WRONLY ≠ 0 ∨ m &&& O_RDWR ≠ 0

/-- Only `open` fills a file, with the flags of its mode word. -/
def Op.OpensAs (c : Syscall) : Op → Prop
  | openFile _ _ _ _ rd wr =>
    ∃ m, c = .open m ∧ rd = readFlag m ∧ wr = writeFlag m
  | _ => True

section Opens

variable {α : Type} {p : FsM α} {call' : Syscall}

theorem opens_of_layer (h : p.Uses Op.Layer) : p.Uses (Op.OpensAs call') :=
  h.mono fun o ho => by
    cases o with
    | openFile => exact ho.elim
    | _ => trivial

theorem sysOpen_opens {omode : ℕ} : (sysOpen sb omode).Uses (Op.OpensAs (.open omode)) := by
  have hfail (ip : ℕ) : (openFail sb ip).Uses (Op.OpensAs (.open omode)) := by
    simp [openFail, Op.OpensAs, opens_of_layer iunlockput_layer]
  have hdone (ip fd : ℕ) : (openDone sb ip omode fd).Uses (Op.OpensAs (.open omode)) := by
    simp [openDone, iunlock, Op.OpensAs, opens_of_layer itrunc_layer]
  unfold sysOpen
  refine Prog.Uses.bind (by simp [Op.OpensAs]) fun path => ?_
  cases path with
  | none => simp
  | some path =>
    refine Prog.Uses.bind (by simp [Op.OpensAs]) fun _ => ?_
    refine Prog.Uses.bind (opens_of_layer openInode_layer) fun ip => ?_
    cases ip with
    | none => simp [Op.OpensAs]
    | some ip =>
      refine Prog.Uses.bind (by simp [Op.OpensAs]) fun ino => ?_
      simp only [uses_ite]
      refine ⟨fun _ => hfail ip, fun _ => Prog.Uses.bind (by simp [Op.OpensAs]) fun f => ?_⟩
      cases f with
      | none => exact hfail ip
      | some f =>
        refine Prog.Uses.bind (uses_call.mpr ⟨omode, rfl, rfl, rfl⟩) fun fd => ?_
        cases fd with
        | none => simp [Op.OpensAs, hfail]
        | some fd => exact hdone ip fd

theorem sysChdir_opens : (sysChdir sb).Uses (Op.OpensAs call') := by
  have hchange (ip : ℕ) : (changeDir sb ip).Uses (Op.OpensAs call') := by
    refine Prog.Uses.bind (by simp [iunlock, Op.OpensAs]) fun _ => ?_
    refine Prog.Uses.bind (by simp [Op.OpensAs]) fun old => ?_
    cases old with
    | none => simp [Op.OpensAs]
    | some old => simp [Op.OpensAs, opens_of_layer iput_layer]
  unfold sysChdir
  refine Prog.Uses.bind (by simp [Op.OpensAs]) fun path => ?_
  cases path with
  | none => simp
  | some path =>
    refine Prog.Uses.bind (by simp [Op.OpensAs]) fun _ => ?_
    refine Prog.Uses.bind (opens_of_layer namei_layer) fun r => ?_
    cases r with
    | none => simp [Op.OpensAs]
    | some ip =>
      refine Prog.Uses.bind (opens_of_layer ilock_layer) fun _ => ?_
      simp [Op.OpensAs, opens_of_layer iunlockput_layer, hchange]

theorem onFile_opens {fd : ℤ} {device : ℤ → Ext} {answer : ∀ major, (device major).Resp → Option ℤ}
    {inode : ℕ → ℕ → FsM ℤ} (h : ∀ f ip, (inode f ip).Uses (Op.OpensAs call')) :
    (onFile fd device answer inode).Uses (Op.OpensAs call') := by
  unfold onFile
  simp only [uses_ite]
  refine ⟨fun _ => by simp, fun _ => Prog.Uses.bind (by simp [Op.OpensAs]) fun f => ?_⟩
  cases f with
  | none => simp
  | some f =>
    refine Prog.Uses.bind (by simp [Op.OpensAs]) fun file => ?_
    cases file.type with
    | FD_NONE => simp
    | FD_DEVICE =>
      refine Prog.Uses.bind (by simp [Op.OpensAs]) fun r => ?_
      cases answer file.major r with
      | none => simp
      | some n => simp [Op.OpensAs]
    | FD_INODE =>
      cases file.ip with
      | none => simp [Op.OpensAs]
      | some ip => exact h f ip

theorem sysWrite_opens {fd : ℤ} {buf : ℕ} {count : ℤ} :
    (sysWrite sb fd buf count).Uses (Op.OpensAs call') := by
  refine onFile_opens fun f ip => ?_
  simp [writeInode, iunlock, Op.OpensAs, opens_of_layer ilock_layer,
    opens_of_layer (uses_layer writei_quiet)]

theorem sysRead_opens {fd : ℤ} {buf : ℕ} {count : ℤ} :
    (sysRead sb fd buf count).Uses (Op.OpensAs call') := by
  refine onFile_opens fun f ip => ?_
  simp [readInode, iunlock, Op.OpensAs, opens_of_layer ilock_layer,
    opens_of_layer (uses_layer readi_quiet)]

theorem exec_opens {path : List ℕ} {argv : List (List ℕ)} :
    (exec sb path argv).Uses (Op.OpensAs call') := by
  unfold exec
  refine Prog.Uses.bind (opens_of_layer namei_layer) fun r => ?_
  cases r with
  | none => simp
  | some ip =>
    simp [Op.OpensAs, opens_of_layer ilock_layer, opens_of_layer iunlockput_layer,
      opens_of_layer (uses_layer readi_quiet), opens_of_layer (uses_layer loadProgram_quiet),
      opens_of_layer (uses_layer pushArgs_quiet)]

theorem sysExec_opens {uargv : ℕ} : (sysExec sb uargv).Uses (Op.OpensAs call') := by
  unfold sysExec
  refine Prog.Uses.bind (by simp [Op.OpensAs]) fun path => ?_
  cases path with
  | none => simp
  | some path =>
    refine Prog.Uses.bind (opens_of_layer (uses_layer fetchArgs_quiet)) fun args => ?_
    cases args.2 with
    | none => simp [opens_of_layer (uses_layer freeArgs_quiet)]
    | some argv => simp [opens_of_layer (uses_layer freeArgs_quiet), exec_opens]

theorem forkFiles_opens {nt : ℕ} : (forkFiles nt).Uses (Op.OpensAs call') := by
  have hdup (n fd : ℕ) : (dupSlots nt n fd).Uses (Op.OpensAs call') := by
    induction n generalizing fd with
    | zero => simp [dupSlots]
    | succ n ih => simp [dupSlots, Op.OpensAs, ih]
  simp [forkFiles, Op.OpensAs, hdup]

theorem sysFork_opens : sysFork.Uses (Op.OpensAs call') := by
  unfold sysFork
  simp only [uses_bind, uses_call, Op.OpensAs, true_and]
  intro nt _ _ _ _ _ _ _ _ _ cwd _
  cases cwd with
  | none => exact forkFiles_opens
  | some e => simp [Op.OpensAs, forkFiles_opens]

theorem sysWait_opens : (sysWait sb).Uses (Op.OpensAs call') := by
  have hclose (t n fd : ℕ) : (closeSlots t n fd).Uses (Op.OpensAs call') := by
    induction n generalizing fd with
    | zero => simp [closeSlots]
    | succ n ih => simp [closeSlots, Op.OpensAs, ih]
  have hfree (t : ℕ) : (freeTask sb t).Uses (Op.OpensAs call') := by
    refine Prog.Uses.bind (hclose t NOFILE 0) fun _ => ?_
    refine Prog.Uses.bind (by simp [Op.OpensAs]) fun cwd => ?_
    cases cwd with
    | none => simp
    | some e => simp [Op.OpensAs, opens_of_layer iput_layer]
  simp [sysWait, Op.OpensAs, hfree]

theorem prog_opens (c : Syscall) : (c.prog sb).Uses (Op.OpensAs c) := by
  cases c with
  | «open» omode => exact sysOpen_opens
  | chdir => exact sysChdir_opens
  | write fd buf count => exact sysWrite_opens
  | read fd buf count => exact sysRead_opens
  | exec uargv => exact sysExec_opens
  | close fd => simp [Syscall.prog, sysClose, Op.OpensAs]
  | fork => exact sysFork_opens
  | wait => exact sysWait_opens
  | exit => simp [Syscall.prog, sysExit, Op.OpensAs]

end Opens

/-! ### The flags of a descriptor -/

/-- The file behind each descriptor has the flags of the mode word of that descriptor. -/
def Flagged (K : Kernel) (M : Modes) : Prop :=
  ∀ t < NTASK, ∀ fd < NOFILE, ∀ f, (K.task t).ofile fd = some f →
    ∃ m, M t fd = some m ∧ (K.file f).readable = readFlag m ∧ (K.file f).writable = writeFlag m

theorem SameFlags.flagged {F F' : File} {m : ℕ} (h : SameFlags F F')
    (hm : F.readable = readFlag m ∧ F.writable = writeFlag m) :
    F'.readable = readFlag m ∧ F'.writable = writeFlag m := ⟨h.2.2.1.trans hm.1, h.2.2.2.trans hm.2⟩

theorem Flagged.still (h : Flagged K M) (hslot : ∀ u, (K'.task u).ofile = (K.task u).ofile)
    (hflag : ∀ g, SameFlags (K.file g) (K'.file g)) : Flagged K' M := by
  intro t ht fd hfd f hf
  rw [hslot] at hf
  obtain ⟨m, hm, hold⟩ := h t ht fd hfd f hf
  exact ⟨m, hm, (hflag f).flagged hold⟩

/-- A step that changes one descriptor and the flags of no file behind another. -/
theorem Flagged.setSlot (h : Flagged K M) {o : Option ℕ} {m : Option ℕ}
    (hslot : ∀ u, (K'.task u).ofile = ((K.setSlot t fd o).task u).ofile)
    (hflag : ∀ u < NTASK, ∀ d < NOFILE, ¬ (u = t ∧ d = fd) → ∀ g, (K.task u).ofile d = some g →
      SameFlags (K.file g) (K'.file g))
    (hnew : ∀ g, o = some g → ∃ w, m = some w ∧ (K'.file g).readable = readFlag w ∧
      (K'.file g).writable = writeFlag w) : Flagged K' (M.set t fd m) := by
  intro u hu d hd g hg
  rw [hslot] at hg
  by_cases he : u = t ∧ d = fd
  · obtain ⟨rfl, rfl⟩ := he
    have ho : o = some g := by simpa [Kernel.setSlot, Kernel.setTask] using hg
    rw [Modes.set_self]
    exact hnew g ho
  · have hold : (K.task u).ofile d = some g := by
      by_cases hut : u = t
      · subst hut
        have hdf : d ≠ fd := fun hdf => he ⟨rfl, hdf⟩
        simpa [Kernel.setSlot, Kernel.setTask, hdf] using hg
      · simpa [Kernel.setSlot, Kernel.setTask, hut] using hg
    rw [Modes.set_of_ne he]
    obtain ⟨w, hw, hflags⟩ := h u hu d hd g hold
    exact ⟨w, hw, (hflag u hu d hd he g hold).flagged hflags⟩

/-- What the contract of the references says about the next operation of a task. -/
theorem History.asks (hb : Idle K₀) (h : History admits sb K₀ c calls M) {o : Op}
    {k : o.Resp → FsM ℤ} (hp : c.prog i = some (.op o k)) :
    Counted c.state ∧ Asks False o (view c.state i) := by
  have hacts : Run (Acts False) (Enters sb) ⟨K₀, fun _ => none⟩ c :=
    h.run.mono fun _ _ _ _ _ he => ⟨he, False.elim⟩
  obtain ⟨hc, hg⟩ := run_duty hb hacts
  have hsafe := hg i
  simp only [hp] at hsafe
  exact ⟨hc, hsafe.1⟩

theorem kid_of_view {T : Task} (h : (view K i).kid = some (t, T)) : K.kid i = some t := by
  obtain ⟨u, hu, he⟩ := Option.map_eq_some_iff.mp h
  rw [hu, (Prod.mk.inj he).1]

theorem Flagged.turn (h : Flagged K M) (hc : Counted K) {o : Op} {r : o.Resp} {call' : Syscall}
    (hasks : Asks False o (view K i)) (hopens : o.OpensAs call') (hd : Does K i o r K') :
    Flagged K' (record M call' i o r) := by
  obtain ⟨hi, -, -, -, ω, hp⟩ := hd
  by_cases ho : o.Slots
  case neg =>
    have hstill := perform_still ho hp
    have hrecord : record M call' i o r = M := by
      cases o <;> first
      | rfl
      | exact absurd trivial ho
    rw [hrecord]
    exact h.still hstill.1 hstill.2
  cases o with
  | openFile f type major ip rd wr =>
    obtain ⟨m, rfl, rfl, rfl⟩ := hopens
    obtain ⟨halloc, -⟩ := hasks
    simp only [perform] at hp
    split at hp
    case _ =>
      cases hp
      exact h
    case _ fd' hfree =>
      cases hp
      -- nobody has a descriptor of a file that is being allocated
      have hslots := (hc.alloc_new i f halloc).1
      refine h.setSlot (fun u => rfl) (fun u hu d hd _ g hg => ?_) fun g hg => ?_
      · have hgf : g ≠ f := by
          rintro rfl
          have := (hc.allocs_eq_zero hu hd hg).2
          omega
        simp only [Kernel.setHand, Kernel.setAlloc, Kernel.setSlot, Kernel.setTask, Kernel.setFile,
          Function.update_of_ne hgf]
        exact .refl
      · obtain rfl : f = g := Option.some.inj hg
        simp [Kernel.setHand, Kernel.setAlloc, Kernel.setSlot, Kernel.setTask, Kernel.setFile]
  | closeSlot u d =>
    simp only [perform] at hp
    split at hp
    case _ hnone =>
      cases hp
      refine h.setSlot (o := none) (fun v => ?_) (fun _ _ _ _ _ _ _ => .refl)
        fun g hg => by cases hg
      rw [Kernel.setSlot, ofile_setTask]
      rw [← hnone, Function.update_eq_self]
    case _ f hf =>
      cases hp
      obtain ⟨lost, hlose, -⟩ := lose_eq (K := K) (f := f)
      rw [hlose]
      refine h.setSlot (o := none) (fun v => rfl) (fun _ _ _ _ _ g _ => ?_) fun g hg => by cases hg
      exact SameFlags.addFileRef (K := ({ K with lost := lost } : Kernel).setSlot (u.getD i) d none)
        (-1) g
  | dupSlot nt d =>
    obtain ⟨hd, T, hkid, hnone⟩ := hasks
    have hT : T = K.task nt := by
      obtain ⟨v, hv, he⟩ := Option.map_eq_some_iff.mp hkid
      obtain ⟨rfl, rfl⟩ := Prod.mk.inj he
      rfl
    rw [hT] at hnone
    simp only [perform] at hp
    split at hp
    case _ hempty =>
      cases hp
      refine h.setSlot (o := none) (fun v => ?_) (fun _ _ _ _ _ _ _ => .refl)
        fun g hg => by cases hg
      rw [Kernel.setSlot, ofile_setTask]
      rw [← hnone, Function.update_eq_self]
    case _ f hf =>
      cases hp
      refine h.setSlot (o := some f) (fun v => rfl) (fun _ _ _ _ _ g _ => SameFlags.addFileRef 1 g)
        fun g hg => ?_
      obtain rfl : f = g := Option.some.inj hg
      obtain ⟨m, hm, hold⟩ := h i hi d hd f hf
      exact ⟨m, hm, (SameFlags.addFileRef 1 f).flagged hold⟩
  | _ => exact ho.elim

/-- Every program in a history opens files for its own call only. -/
theorem History.opens (h : History admits sb K₀ c calls M) {p : FsM ℤ} (hp : c.prog i = some p) :
    p.Uses (Op.OpensAs (calls i)) := by
  induction h generalizing i p with
  | boot => cases hp
  | @turn K K' prog calls M j o k r _ hj _ _ ih =>
    dsimp only at hp
    by_cases hij : i = j
    · subst hij
      rw [Function.update_self] at hp
      cases hp
      exact (ih hj).2 r
    · rw [Function.update_of_ne hij] at hp
      exact ih hp
  | @leave K prog calls M j a _ hj ih =>
    dsimp only at hp
    by_cases hij : i = j
    · subst hij
      rw [Function.update_self] at hp
      cases hp
    · rw [Function.update_of_ne hij] at hp
      exact ih hp
  | @enter K prog calls M j c' _ hj _ _ ih =>
    dsimp only at hp
    by_cases hij : i = j
    · subst hij
      rw [Function.update_self] at hp ⊢
      cases hp
      exact prog_opens c'
    · rw [Function.update_of_ne hij] at hp ⊢
      exact ih hp

/-- In every state of a history the flags behind each descriptor are those of its mode. -/
theorem History.flagged (hb : Booted K₀ t₀ e₀) (h : History admits sb K₀ c calls M) :
    Flagged c.state M := by
  induction h with
  | boot =>
    intro t _ fd _ f hf
    rw [hb.ofile] at hf
    cases hf
  | turn hrun hp hd _ ih =>
    obtain ⟨hc, hasks⟩ := hrun.asks hb.idle hp
    exact ih.turn hc hasks (hrun.opens hp).1 hd
  | leave _ _ ih => exact ih
  | enter _ _ _ _ ih => exact ih

end Zrhos.Sysfile
