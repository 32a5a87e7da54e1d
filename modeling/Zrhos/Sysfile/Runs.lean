import Zrhos.Sysfile.Respects
import Zrhos.Sysfile.Duties

/-! Runs of the system calls from boot: what holds in every state of a run, and how runs of
one task are computed. -/
namespace Zrhos.Sysfile
open Turns Tally
open Fs (Block Superblock)
open Sync (TaskState)
open Mmap (upTo mem_upTo)

variable {sb : Superblock} {K K' K₀ : Kernel} {i t₀ e₀ : ℕ}

/-- The state in which `init_user` leaves the kernel: nothing is open and the first user
task has the root directory. -/
structure Booted (K : Kernel) (t₀ e₀ : ℕ) : Prop where
  lt : t₀ < NTASK
  live : (K.task t₀).state ≠ .DEAD
  root : (K.task t₀).cwd = some e₀
  cwd : ∀ t, t ≠ t₀ → (K.task t).cwd = none
  owns : ∀ t, (K.task t).owns = true
  ofile : ∀ t fd, (K.task t).ofile fd = none
  file : ∀ f, (K.file f).ref = 0
  inode : ∀ e, (K.inode e).ref = if e = e₀ then 1 else 0
  hand : K.hand = fun _ _ => 0
  alloc : K.alloc = fun _ => none
  kid : K.kid = fun _ => none
  holder : K.holder = fun _ => none
  itable : K.itable = none
  lost : K.lost = fun _ => 0

/-- A booted kernel whose first entry is the root directory, not yet read from disk. -/
def bootKernel : Kernel where
  inode e :=
    let unread : Dinode := ⟨0, 0, 0, 0, 0, fun _ => 0⟩
    if e = 0 then ⟨Fs.ROOTDEV, ROOTINO, 1, false, unread⟩ else ⟨0, 0, 0, false, unread⟩
  holder := fun _ => none
  itable := none
  file := fun _ => ⟨.FD_NONE, 0, false, false, 0, none, 0⟩
  task t := ⟨if t = 0 then .RUNNABLE else .DEAD, fun _ => none, if t = 0 then some 0 else none, true⟩
  hand := fun _ _ => 0
  alloc := fun _ => none
  kid := fun _ => none
  lost := fun _ => 0

theorem bootKernel_booted : Booted bootKernel 0 0 where
  lt := by decide
  live := by decide
  root := rfl
  cwd := fun t ht => if_neg ht
  owns := fun _ => rfl
  ofile := fun _ _ => rfl
  file := fun _ => rfl
  inode := fun e => by
    by_cases he : e = 0
    · subst he
      rfl
    · simp [bootKernel, he]
  hand := rfl
  alloc := rfl
  kid := rfl
  holder := rfl
  itable := rfl
  lost := rfl

/-- The counts are right and no call is in progress. -/
def Idle (K : Kernel) : Prop := Counted K ∧ ∀ i, view K i = .rest

theorem Booted.cwdsOn (h : Booted K t₀ e₀) (e : ℕ) : cwdsOn K e = if e = e₀ then 1 else 0 := by
  have hset := cwdsOn_setTask (K := K) (T := { K.task t₀ with cwd := none }) h.lt e
  have hzero : Sysfile.cwdsOn (K.setTask t₀ { K.task t₀ with cwd := none }) e = 0 := by
    refine tally_eq_zero.mpr fun t _ ht => ?_
    by_cases htt : t = t₀
    · subst htt
      simp [Kernel.setTask] at ht
    · simp [Kernel.setTask, htt, h.cwd t htt] at ht
  rw [hzero] at hset
  simp only [h.root, h.owns, Option.some.injEq, and_true, reduceCtorEq, ↓reduceIte,
    Nat.add_zero, Nat.zero_add] at hset
  rw [← hset]
  simp only [eq_comm]

theorem Booted.idle (h : Booted K t₀ e₀) : Idle K := by
  have hslots (f : ℕ) : slots K f = 0 := tally_eq_zero.mpr fun x _ hx => by simp [h.ofile] at hx
  have hallocs (f : ℕ) : allocs K f = 0 := tally_eq_zero.mpr fun x _ hx => by simp [h.alloc] at hx
  have hfiles (e : ℕ) : filesOn K e = 0 := tally_eq_zero.mpr fun f _ hf => by simp [h.file] at hf
  have hhands (e : ℕ) : handsOn K e = 0 := by simp [handsOn, h.hand]
  refine ⟨⟨⟨fun f _ => ?_, ?_, ?_, ?_⟩, ⟨?_, ?_, ?_, ?_⟩, fun e => ?_⟩, fun i => ?_⟩
  · simp [h.file, hslots, hallocs]
  · simp [h.ofile]
  · simp [h.alloc]
  · simp [h.alloc]
  · simp [h.kid]
  · simp [h.kid]
  · intro t hdead _
    have htt : t ≠ t₀ := fun htt => h.live (htt ▸ hdead)
    exact ⟨h.cwd t htt, fun fd _ => h.ofile t fd⟩
  · simp [h.owns]
  · rw [h.inode, references, hfiles, hhands, h.cwdsOn, h.lost]
    split_ifs <;> simp
  · simp [view, View.rest, h.holder, h.hand, h.itable, h.owns, h.alloc, h.kid]

/-- Every state of a run counts right, and every program in it is safe. -/
theorem run_duty {strict : Prop} {c : Config ℕ Op Op.Resp Kernel ℤ} (h : Idle K₀)
    (hr : Run (Acts strict) (Enters sb) ⟨K₀, fun _ => none⟩ c) :
    Counted c.state ∧ Guarded (duty strict) view .rest c := by
  refine Guarded.run respects (fun K i p he => ?_) h.1 (fun i => h.2 i) hr
  obtain ⟨-, -, -, c, rfl⟩ := he
  exact prog_duty c

theorem run_counted {c : Config ℕ Op Op.Resp Kernel ℤ} (h : Idle K₀)
    (hr : Run Does (Enters sb) ⟨K₀, fun _ => none⟩ c) : Counted c.state := by
  have hacts : Run (Acts False) (Enters sb) ⟨K₀, fun _ => none⟩ c :=
    hr.mono fun _ _ _ _ _ he => ⟨he, False.elim⟩
  exact (run_duty h hacts).1

/-! ### Runs of one task -/

/-- Operations that neither lock a task nor end one. -/
def Op.Alone : Op → Bool
  | utaskCreate | reap | unlockTask _ | setZombie => false
  | _ => true

/-- Task `i` alone performs one operation of the program for each oracle. -/
def follow (allowed : Op → Bool) (i : ℕ) : List Oracle → Kernel → FsM ℤ → Option (Kernel × FsM ℤ)
  | [], K, p => some (K, p)
  | _ :: _, _, .ret _ => none
  | ω :: ωs, K, .op o k =>
    if (K.task i).state = .RUNNABLE ∧ o.Alone = true ∧ allowed o = true then
      (perform ω K i o).bind fun x => follow allowed i ωs x.2 (k x.1)
    else none

theorem perform_kid {ω : Oracle} {o : Op} {x : o.Resp × Kernel} (ho : o.Alone = true)
    (h : perform ω K i o = some x) : x.2.kid = K.kid := by
  obtain ⟨r, K'⟩ := x
  cases o with
  | utaskCreate | reap | unlockTask | setZombie => cases ho
  | P s =>
    cases s <;> simp only [perform] at h
    case inode e =>
      split_ifs at h
      cases h
      rfl
    all_goals
      cases h
      rfl
  | V s => cases s <;> cases h <;> rfl
  | panic => cases h
  | iget | inew =>
    simp only [perform] at h
    split_ifs at h
    obtain ⟨y, -, hy⟩ := Option.map_eq_some_iff.mp h
    cases hy
    rfl
  | idup | iput =>
    simp only [perform] at h
    split_ifs at h <;> cases h <;> rfl
  | filealloc | openFile | dupSlot | leaveCwd =>
    simp only [perform] at h
    split at h <;> cases h <;> rfl
  | closeSlot t fd =>
    simp only [perform] at h
    split at h
    case _ => cases h; rfl
    case _ f hf =>
      cases h
      obtain ⟨lost, hlose, -⟩ := lose_eq (K := K) (f := f)
      rw [hlose]
      rfl
  | setCwd t ip => cases ip <;> cases h <;> rfl
  | _ => cases h; rfl

theorem follow_kid {allowed : Op → Bool} {ωs : List Oracle} {p : FsM ℤ} {x : Kernel × FsM ℤ}
    (h : follow allowed i ωs K p = some x) : x.1.kid = K.kid := by
  induction ωs generalizing K p with
  | nil =>
    cases h
    rfl
  | cons ω ωs ih =>
    cases p with
    | ret a => cases h
    | op o k =>
      unfold follow at h
      split_ifs at h with hc
      obtain ⟨y, hy, hrest⟩ := Option.bind_eq_some_iff.mp h
      exact (ih hrest).trans (perform_kid hc.2.1 hy)

/-- Where nobody has locked a task, what `follow` computes is a run. -/
theorem follow_run {allowed : Op → Bool} {exec : Kernel → ℕ → (o : Op) → o.Resp → Kernel → Prop}
    {enters : Kernel → ℕ → FsM ℤ → Prop} {ωs : List Oracle} {p : FsM ℤ} {x : Kernel × FsM ℤ}
    {prog : ℕ → Option (FsM ℤ)} (hi : i < NTASK)
    (hexec : ∀ K o r K', allowed o = true → Does K i o r K' → exec K i o r K')
    (hkid : K.kid = fun _ => none) (h : follow allowed i ωs K p = some x) :
    Run exec enters ⟨K, Function.update prog i (some p)⟩
      ⟨x.1, Function.update prog i (some x.2)⟩ := by
  induction ωs generalizing K p with
  | nil =>
    cases h
    exact .refl
  | cons ω ωs ih =>
    cases p with
    | ret a => cases h
    | op o k =>
      unfold follow at h
      split_ifs at h with hc
      obtain ⟨hruns, halone, hallowed⟩ := hc
      obtain ⟨y, hy, hrest⟩ := Option.bind_eq_some_iff.mp h
      have hun (t : ℕ) : Unlocked K t := fun j => by simp [hkid]
      have hgrants : Grants K o y.1 := by
        cases o <;> trivial
      have hdoes : Does K i o y.1 y.2 := ⟨hi, hruns, hun i, hgrants, ω, hy⟩
      have hstep : Step exec enters ⟨K, Function.update prog i (some (.op o k))⟩
          ⟨y.2, Function.update prog i (some (k y.1))⟩ := by
        have hturn : Step exec enters ⟨K, Function.update prog i (some (.op o k))⟩ _ :=
          .turn (Function.update_self i (some (.op o k)) prog) (hexec K o y.1 y.2 hallowed hdoes)
        rwa [Function.update_idem] at hturn
      have hkid' : y.2.kid = fun _ => none := (perform_kid halone hy).trans hkid
      exact .head hstep (ih hkid' hrest)

theorem follow_enter {allowed : Op → Bool}
    {exec : Kernel → ℕ → (o : Op) → o.Resp → Kernel → Prop} {ωs : List Oracle} {c : Syscall}
    {x : Kernel × FsM ℤ} {prog : ℕ → Option (FsM ℤ)} (hi : i < NTASK)
    (hkid : K.kid = fun _ => none) (hruns : (K.task i).state = .RUNNABLE) (hprog : prog i = none)
    (hexec : ∀ K o r K', allowed o = true → Does K i o r K' → exec K i o r K')
    (h : follow allowed i ωs K (c.prog sb) = some x) :
    Run exec (Enters sb) ⟨K, prog⟩ ⟨x.1, Function.update prog i (some x.2)⟩ := by
  have hun : Unlocked K i := fun j => by simp [hkid]
  exact .head (.enter hprog ⟨hi, hruns, hun, c, rfl⟩) (follow_run hi hexec hkid h)

/-- The answers of an environment with one path in user memory. -/
def answers (path : List ℕ) (block : Block) : Oracle where
  block := block
  ext
    | .stray => (0, 0)
    | .argstr _ _ => some path
    | .fetchaddr _ => none
    | .fetchstr _ _ => none
    | .memMalloc => false
    | .memFree => ()
    | .copyin _ _ _ => ([], false)
    | .copyout _ _ => false
    | .memmove _ _ => ()
    | .devWrite _ _ _ => none
    | .devRead _ _ _ => none
    | .userPagetable => false
    | .mmapCreate => false
    | .mmapByObj _ _ _ _ => 0
    | .walkaddr _ => 0
    | .copyMmap _ => ()
    | .setA0 _ => ()
    | .uartPutc _ => ()
    | .mmap _ _ _ _ => 0
    | .munmap _ => false
    | .mytaskId => some 1
    | .pid _ => 1
    | .forceExit _ => ()
    | .hasIoctl _ => false
    | .monitorInfo _ _ => false
  pick := 1

/-- The inode block of a disk with a root directory. -/
def rootBlock : Block := fun i => if i = 64 then 1 else 0

/-- The task that has booted opens the root directory. -/
def openRoot (allowed : Op → Bool) : Option (Kernel × FsM ℤ) :=
  follow allowed 0 (List.replicate 18 (answers [slash] rootBlock)) bootKernel
    (sysOpen Fs.mkfsSb O_RDONLY)

def hasEnded : FsM ℤ → Bool
  | .ret _ => true
  | .op _ _ => false

theorem eq_ret_of_hasEnded {p : FsM ℤ} (h : hasEnded p = true) : ∃ a, p = .ret a := by
  cases p with
  | ret a => exact ⟨a, rfl⟩
  | op o k => cases h

theorem openRoot_run {allowed : Op → Bool}
    {exec : Kernel → ℕ → (o : Op) → o.Resp → Kernel → Prop} {x : Kernel × FsM ℤ}
    (hexec : ∀ K o r K', allowed o = true → Does K 0 o r K' → exec K 0 o r K')
    (h : openRoot allowed = some x) : Run exec (Enters Fs.mkfsSb) ⟨bootKernel, fun _ => none⟩
      ⟨x.1, Function.update (fun _ => none) 0 (some x.2)⟩ :=
  follow_enter (c := .open O_RDONLY) (by decide) rfl rfl rfl hexec h

end Zrhos.Sysfile
