import Zrhos.Sysfile.Runs

/-! Waiting for a lock that the waiting task holds: the semaphore of an inode, or anything at
all while the task keeps `itable.lock`. -/
namespace Zrhos.Sysfile
open Turns
open Fs (Block Superblock)

/-- The operations of a run without the steps that lead into `itrunc` with the inode locked
and without an `ialloc` of an inode that the caller has locked. -/
def Careful (K : Kernel) (i : ℕ) (o : Op) (r : o.Resp) (K' : Kernel) : Prop :=
  Does K i o r K' ∧ ¬ Relocks K i o

variable {e : ℕ}

/-- The inode whose semaphore the program takes next. -/
def waitsFor : FsM ℤ → Option ℕ
  | .op (.P (.inode e)) _ => some e
  | _ => none

theorem eq_op_of_waitsFor {p : FsM ℤ} (h : waitsFor p = some e) :
    ∃ k, p = .op (.P (.inode e)) k := by
  unfold waitsFor at h
  split at h
  case _ k =>
    cases h
    exact ⟨k, rfl⟩
  case _ => cases h

/-- A block with the inodes 1 and 2, the root directory and a regular file, and with the one
entry of the root directory at its start. -/
def smallDisk : Block := fun i =>
  match i with
  | 0 => 2
  | 2 => 97
  | 64 => 1
  | 70 => 1
  | 72 => 16
  | 76 => 50
  | 128 => 2
  | 134 => 1
  | _ => 0

/-- The first `n` operations of the task that has booted when it opens the file to truncate
it. -/
def openTrunc (allowed : Op → Bool) (n : ℕ) : Option (Kernel × FsM ℤ) :=
  follow allowed 0 (List.replicate n (answers [slash, 97] smallDisk)) bootKernel
    (sysOpen Fs.mkfsSb (O_RDWR ||| O_TRUNC))

theorem openTrunc_run {allowed : Op → Bool} {n : ℕ}
    {exec : Kernel → ℕ → (o : Op) → o.Resp → Kernel → Prop} {x : Kernel × FsM ℤ}
    (hexec : ∀ K o r K', allowed o = true → Does K 0 o r K' → exec K 0 o r K')
    (h : openTrunc allowed n = some x) : Run exec (Enters Fs.mkfsSb) ⟨bootKernel, fun _ => none⟩
      ⟨x.1, Function.update (fun _ => none) 0 (some x.2)⟩ :=
  follow_enter (c := .open (O_RDWR ||| O_TRUNC)) (by decide) rfl rfl rfl hexec h

/-- In every state that careful calls of any number of tasks reach, no task is about to wait
for the semaphore of an inode that it holds, and none is about to wait for a semaphore or a
buffer while it keeps `itable.lock`. -/
theorem no_self_deadlock (sb : Superblock) (K₀ : Kernel) (h : Idle K₀)
    (c : Config ℕ Op Op.Resp Kernel ℤ) (hr : Run Careful (Enters sb) ⟨K₀, fun _ => none⟩ c)
    (i : ℕ) (o : Op) (k : o.Resp → FsM ℤ) (hp : c.prog i = some (.op o k)) :
    (∀ e, o = .P (.inode e) → c.state.holder e ≠ some i) ∧
    (((∃ s, o = .P s) ∨ ∃ dev b, o = .bread dev b) → c.state.itable ≠ some i) := by
  have hacts : Run (Acts True) (Enters sb) ⟨K₀, fun _ => none⟩ c :=
    hr.mono fun _ _ _ _ _ he => ⟨he.1, fun _ => he.2⟩
  obtain ⟨-, hguarded⟩ := run_duty h hacts
  have hsafe := hguarded i
  simp only [hp] at hsafe
  have hasks : Asks True o (view c.state i) := hsafe.1
  have hfree (hg : (view c.state i).itable = false) : c.state.itable ≠ some i := by
    simpa [view] using hg
  refine ⟨fun e he => ?_, fun ho => ?_⟩
  · subst he
    exact (hasks trivial).1
  · rcases ho with ⟨s, rfl⟩ | ⟨dev, b, rfl⟩
    · cases s with
      | inode e => exact hfree (hasks trivial).2
      | fs => exact hfree (hasks trivial)
      | sons => exact hfree (hasks trivial)
    · exact hfree (hasks trivial)

/-- The operations that relock no inode. -/
def neverRelocks : Op → Bool
  | .iput _ | .wantsTrunc _ _ | .inew _ _ _ => false
  | _ => true

/-- The task on its way into the root directory waits for an inode that nobody holds. -/
theorem no_self_deadlock_lookup : ∃ c k,
    Run Careful (Enters Fs.mkfsSb) ⟨bootKernel, fun _ => none⟩ c ∧
      c.prog 0 = some (.op (.P (.inode 0)) k) ∧ c.state.holder 0 ≠ some 0 := by
  have hopen : (openTrunc neverRelocks 4).map (fun x => waitsFor x.2) = some (some 0) := by decide
  obtain ⟨x, hx, hwaits⟩ := Option.map_eq_some_iff.mp hopen
  obtain ⟨k, hk⟩ := eq_op_of_waitsFor hwaits
  have hcareful (K : Kernel) (o : Op) (r : o.Resp) (K' : Kernel) (ho : neverRelocks o = true)
      (hd : Does K 0 o r K') : Careful K 0 o r K' := by
    refine ⟨hd, fun hrelocks => ?_⟩
    cases o with
    | iput | wantsTrunc | inew => cases ho
    | _ => exact hrelocks
  have hr := openTrunc_run hcareful hx
  have hprog : Function.update (fun _ => none) 0 (some x.2) 0 = some (.op (.P (.inode 0)) k) := by
    rw [Function.update_self, hk]
  have hfree := (no_self_deadlock Fs.mkfsSb bootKernel bootKernel_booted.idle _ hr 0 _ k hprog).1
  exact ⟨_, k, hr, hprog, hfree 0 rfl⟩

/-- `sys_open` with `O_TRUNC` waits in `itrunc` for the inode it has locked itself. -/
theorem open_trunc_waits_for_itself : ∃ c e k,
    Run Does (Enters Fs.mkfsSb) ⟨bootKernel, fun _ => none⟩ c ∧
      c.prog 0 = some (.op (.P (.inode e)) k) ∧ c.state.holder e = some 0 := by
  have hopen : (openTrunc (fun _ => true) 33).map (fun x => (waitsFor x.2, x.1.holder 1)) =
      some (some 1, some 0) := by decide
  obtain ⟨x, hx, hfacts⟩ := Option.map_eq_some_iff.mp hopen
  obtain ⟨hwaits, hholder⟩ : waitsFor x.2 = some 1 ∧ x.1.holder 1 = some 0 := by
    simpa using hfacts
  obtain ⟨k, hk⟩ := eq_op_of_waitsFor hwaits
  have hr : Run Does (Enters Fs.mkfsSb) ⟨bootKernel, fun _ => none⟩ _ :=
    openTrunc_run (fun _ _ _ _ _ hd => hd) hx
  refine ⟨_, 1, k, hr, ?_, hholder⟩
  dsimp only
  rw [Function.update_self, hk]

end Zrhos.Sysfile
