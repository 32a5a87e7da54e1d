import Zrhos.Sysfile.Quiet
import Zrhos.Sync.Semaphore

/-! `begin_op` and `end_op` along every path of a system call and over any interleaving of
system calls. The answers to the other operations are arbitrary. -/
namespace Zrhos.Sysfile
open Turns
open Fs (Superblock)
open Sync (World Act)

/-- Operations that neither touch `fs_lock` nor decide whether a call leaves it as it was. -/
def Op.Plain : Op → Prop
  | P .fs | V .fs | writable _ | commit => False
  | _ => True

/-- The steps after which `fs_lock` is out of balance: `sys_write` finds that the file is
not writable, or `exec` installs its image. -/
def Skews : Sigma Op.Resp → Prop
  | ⟨.writable _, r⟩ => r = false
  | ⟨.commit, _⟩ => True
  | _ => False

inductive Phase where
  | outside
  | inside
  | broken
  deriving DecidableEq, Repr

def Phase.P : Phase → Phase
  | outside => inside
  | _ => broken

def Phase.V : Phase → Phase
  | inside => outside
  | _ => broken

/-- Where a call stands with `fs_lock`, and whether a step has skewed it. -/
structure Watch where
  phase : Phase
  skewed : Bool

def advance : Sigma Op.Resp → Watch → Watch
  | ⟨.P .fs, _⟩, g => { g with phase := g.phase.P }
  | ⟨.V .fs, _⟩, g => { g with phase := g.phase.V }
  | ⟨.writable _, r⟩, g => { g with skewed := g.skewed || !r }
  | ⟨.commit, _⟩, g => { g with skewed := true }
  | _, g => g

/-- While nothing has skewed the call, it enters from outside and leaves from inside. -/
def watching : Contract Op Op.Resp Watch where
  pre
    | .P .fs, g => g.skewed = false → g.phase = .outside
    | .V .fs, g => g.skewed = false → g.phase = .inside
    | _, _ => True
  post o g r g' := g' = advance ⟨o, r⟩ g

variable {sb : Superblock} {α : Type} {p : FsM α} {g : Watch}

@[simp] theorem Op.Inner.plain {o : Op} (h : o.Inner) : o.Plain := by
  cases o with
  | P s => cases s <;> trivial
  | V s => cases s <;> trivial
  | _ => trivial

@[simp] theorem uses_plain (h : p.Uses Op.Inner) : p.Uses Op.Plain := h.mono fun _ => Op.Inner.plain

theorem plain_safe {Q : α → Watch → Prop} (h : p.Uses Op.Plain) (hQ : ∀ a, Q a g) :
    Safe watching p g Q := by
  refine h.safe (fun o ho => ?_) hQ
  unfold watching
  cases o <;> simp_all [Op.Plain, advance]
  case P s => cases s <;> simp_all
  case V s => cases s <;> simp_all

/-! ### The calls -/

/-- At its end a call is outside unless it was skewed. -/
def Settled (g : Watch) : Prop := g.phase = .outside ↔ g.skewed = false

def Watch.start : Watch := ⟨.outside, false⟩
def Watch.entered : Watch := ⟨.inside, false⟩

theorem settled_start : Settled .start := iff_of_true rfl rfl

theorem begin_watch {Q : Unit → Watch → Prop} (h : Q () .entered) :
    Safe watching (call (.P .fs)) .start Q :=
  ⟨fun _ => rfl, fun _ _ he => he ▸ h⟩

theorem end_watch {Q : Unit → Watch → Prop} (h : Q () .start) :
    Safe watching (call (.V .fs)) .entered Q :=
  ⟨fun _ => rfl, fun _ _ he => he ▸ h⟩

theorem openFail_watch {ip : ℕ} :
    Safe watching (openFail sb ip) .entered fun _ => Settled := by
  unfold openFail
  simp only [safe_bind, safe_pure]
  exact plain_safe (uses_plain (uses_inner iunlockput_layer)) fun _ => end_watch settled_start

theorem openDone_watch {ip omode fd : ℕ} :
    Safe watching (openDone sb ip omode fd) .entered fun _ => Settled := by
  unfold openDone
  simp only [safe_bind, safe_pure]
  refine plain_safe (by simp [Op.Plain]) fun trunc => plain_safe (by simp) fun _ => ?_
  refine plain_safe (by simp [iunlock, Op.Plain]) fun _ => end_watch ?_
  exact plain_safe (by simp [Op.Plain]) fun _ => settled_start

theorem openDescriptor_watch {ip omode : ℕ} :
    Safe watching (openDescriptor sb ip omode) .entered fun _ => Settled := by
  unfold openDescriptor
  simp only [safe_bind]
  refine plain_safe (by simp [Op.Plain]) fun ino => ?_
  split_ifs
  · exact openFail_watch
  · simp only [safe_bind]
    refine plain_safe (by simp [Op.Plain]) fun f => ?_
    cases f with
    | none => exact openFail_watch
    | some f =>
      simp only [safe_bind]
      refine plain_safe (by simp [Op.Plain]) fun fd => ?_
      cases fd with
      | none =>
        simp only [safe_bind]
        exact plain_safe (by simp [Op.Plain]) fun _ => openFail_watch
      | some fd => exact openDone_watch

theorem sysOpen_watch {omode : ℕ} :
    Safe watching (sysOpen sb omode) .start fun _ => Settled := by
  unfold sysOpen
  simp only [safe_bind]
  refine plain_safe (by simp [Op.Plain]) fun path => ?_
  cases path with
  | none => exact settled_start
  | some path =>
    simp only [safe_bind]
    refine begin_watch (plain_safe (uses_plain (uses_inner openInode_layer)) fun ip => ?_)
    cases ip with
    | none =>
      simp only [safe_bind]
      exact end_watch settled_start
    | some ip => exact openDescriptor_watch

theorem changeDir_watch {ip : ℕ} :
    Safe watching (changeDir sb ip) .entered fun _ => Settled := by
  unfold changeDir
  simp only [safe_bind]
  refine plain_safe (by simp [iunlock, Op.Plain]) fun _ => plain_safe (by simp [Op.Plain]) fun old => ?_
  cases old with
  | none => exact safe_panic.mpr trivial
  | some old =>
    simp only [safe_bind]
    refine plain_safe (uses_plain (uses_inner iput_layer)) fun _ => plain_safe (by simp [Op.Plain]) fun _ => ?_
    exact end_watch settled_start

theorem sysChdir_watch : Safe watching (sysChdir sb) .start fun _ => Settled := by
  unfold sysChdir
  simp only [safe_bind]
  refine plain_safe (by simp [Op.Plain]) fun path => ?_
  cases path with
  | none => exact settled_start
  | some path =>
    simp only [safe_bind]
    refine begin_watch (plain_safe (uses_plain (uses_inner namei_layer)) fun r => ?_)
    cases r with
    | none =>
      simp only [safe_bind]
      exact end_watch settled_start
    | some ip =>
      simp only [safe_bind]
      refine plain_safe (uses_plain (uses_inner ilock_layer)) fun _ => plain_safe (by simp [Op.Plain]) fun ino => ?_
      split_ifs
      · simp only [safe_bind]
        exact plain_safe (uses_plain (uses_inner iunlockput_layer)) fun _ => end_watch settled_start
      · exact changeDir_watch

theorem writeInode_watch {f ip buf : ℕ} {count : ℤ} :
    Safe watching (writeInode sb f ip buf count) .start fun _ => Settled := by
  unfold writeInode
  simp only [safe_bind]
  refine begin_watch (plain_safe (uses_plain (uses_inner ilock_layer)) fun _ => ?_)
  refine safe_call.mpr ⟨trivial, fun r g hg => ?_⟩
  subst hg
  split_ifs with hw
  · have hr : r = false := by simpa using hw
    subst hr
    simp only [safe_bind]
    exact plain_safe (by simp [iunlock, Op.Plain]) fun _ => iff_of_false nofun nofun
  · have hr : r = true := by simpa using hw
    subst hr
    simp only [safe_bind]
    refine plain_safe (by simp [Op.Plain]) fun file => plain_safe (by simp) fun n => ?_
    refine plain_safe (by simp [Op.Plain]) fun _ => ?_
    refine plain_safe (by simp [iunlock, Op.Plain]) fun _ => end_watch ?_
    exact plain_safe (by simp [Op.Plain]) fun _ => settled_start

theorem readInode_plain {f ip buf : ℕ} {count : ℤ} :
    (readInode sb f ip buf count).Uses Op.Plain := by
  simp [readInode, iunlock, Op.Plain]

theorem onFile_watch {fd : ℤ} {device : ℤ → Ext} {answer : ∀ major, (device major).Resp → Option ℤ}
    {inode : ℕ → ℕ → FsM ℤ}
    (h : ∀ f ip, Safe watching (inode f ip) .start fun _ => Settled) :
    Safe watching (onFile fd device answer inode) .start fun _ => Settled := by
  unfold onFile
  split_ifs
  · exact settled_start
  · simp only [safe_bind]
    refine plain_safe (by simp [Op.Plain]) fun f => ?_
    cases f with
    | none => exact settled_start
    | some f =>
      simp only [safe_bind]
      refine plain_safe (by simp [Op.Plain]) fun file => ?_
      cases file.type with
      | FD_NONE => exact settled_start
      | FD_DEVICE =>
        simp only [safe_bind]
        refine plain_safe (by simp [Op.Plain]) fun r => ?_
        cases answer file.major r with
        | none => exact settled_start
        | some n =>
          simp only [safe_bind]
          exact plain_safe (by simp [Op.Plain]) fun _ => settled_start
      | FD_INODE =>
        dsimp only
        cases file.ip with
        | none => exact safe_panic.mpr trivial
        | some ip => exact h f ip

theorem exec_watch {path : List ℕ} {argv : List (List ℕ)} :
    Safe watching (exec sb path argv) .start fun _ => Settled := by
  unfold exec
  simp only [safe_bind]
  refine plain_safe (uses_plain (uses_inner namei_layer)) fun r => ?_
  cases r with
  | none => exact settled_start
  | some ip =>
    simp only [safe_bind]
    refine plain_safe (uses_plain (uses_inner ilock_layer)) fun _ => plain_safe (by simp) fun hdr => ?_
    split_ifs
    · exact safe_panic.mpr trivial
    simp only [safe_bind]
    refine plain_safe (by simp [Op.Plain]) fun pagetable => ?_
    split_ifs
    · exact safe_panic.mpr trivial
    simp only [safe_bind]
    refine plain_safe (by simp [Op.Plain]) fun mmapObj => ?_
    split_ifs
    · exact safe_panic.mpr trivial
    simp only [safe_bind]
    refine plain_safe (by simp) fun _ => plain_safe (uses_plain (uses_inner iunlockput_layer)) fun _ => ?_
    refine plain_safe (by simp [Op.Plain]) fun addr => ?_
    split_ifs
    · exact safe_panic.mpr trivial
    simp only [safe_bind]
    refine plain_safe (by simp) fun _ => plain_safe (by simp [Op.Plain]) fun _ => ?_
    refine safe_call.mpr ⟨trivial, fun _ g hg => ?_⟩
    subst hg
    refine ⟨fun h => absurd h Bool.noConfusion, fun _ g hg => ?_⟩
    subst hg
    exact iff_of_false Phase.noConfusion Bool.noConfusion

theorem sysExec_watch {uargv : ℕ} :
    Safe watching (sysExec sb uargv) .start fun _ => Settled := by
  unfold sysExec
  simp only [safe_bind]
  refine plain_safe (by simp [Op.Plain]) fun path => ?_
  cases path with
  | none => exact settled_start
  | some path =>
    simp only [safe_bind]
    refine plain_safe (by simp) fun args => ?_
    cases args.2 with
    | none =>
      simp only [safe_bind]
      exact plain_safe (by simp) fun _ => settled_start
    | some argv =>
      simp only [safe_bind]
      exact exec_watch.mono fun _ _ hg => plain_safe (by simp) fun _ => hg

theorem sysFork_plain : sysFork.Uses Op.Plain := by
  unfold sysFork
  refine Prog.Uses.bind (by simp [Op.Plain]) fun nt => Prog.Uses.bind (by simp [Op.Plain]) fun _ => ?_
  refine Prog.Uses.bind (by simp [Op.Plain]) fun _ => Prog.Uses.bind (by simp [Op.Plain]) fun _ => ?_
  refine Prog.Uses.bind (by simp [Op.Plain]) fun _ => Prog.Uses.bind (by simp [Op.Plain]) fun cwd => ?_
  cases cwd <;> simp [Op.Plain, forkFiles, (uses_plain dupSlots_inner)]

theorem sysWait_plain : (sysWait sb).Uses Op.Plain := by
  unfold sysWait freeTask
  refine Prog.Uses.bind (by simp [Op.Plain]) fun _ => Prog.Uses.bind (by simp [Op.Plain]) fun p => ?_
  refine Prog.Uses.bind (by simp [Op.Plain]) fun _ => Prog.Uses.bind (by simp [Op.Plain]) fun _ => ?_
  refine Prog.Uses.bind ?_ fun _ => by simp [Op.Plain]
  refine Prog.Uses.bind (uses_plain closeSlots_inner) fun _ => Prog.Uses.bind (by simp [Op.Plain]) fun cwd => ?_
  cases cwd <;> simp [Op.Plain]

/-- Every system call. -/
theorem prog_watch (c : Syscall) : Safe watching (c.prog sb) .start fun _ => Settled := by
  cases c with
  | «open» omode => exact sysOpen_watch
  | chdir => exact sysChdir_watch
  | write fd buf count =>
    unfold Syscall.prog sysWrite
    exact onFile_watch fun _ _ => writeInode_watch
  | read fd buf count =>
    unfold Syscall.prog sysRead
    exact onFile_watch fun _ _ => plain_safe readInode_plain fun _ => settled_start
  | exec uargv => exact sysExec_watch
  | close fd =>
    refine plain_safe ?_ fun _ => settled_start
    simp [Syscall.prog, sysClose, Op.Plain]
  | fork => exact plain_safe sysFork_plain fun _ => settled_start
  | wait => exact plain_safe sysWait_plain fun _ => settled_start
  | exit =>
    refine plain_safe ?_ fun _ => settled_start
    simp [Syscall.prog, sysExit, Op.Plain]

/-! ### Along a path -/

/-- The operations on `fs_lock` of a path, `true` for `lm_P` and `false` for `lm_V`. -/
def lockEvents : List (Sigma Op.Resp) → List Bool
  | [] => []
  | ⟨.P .fs, _⟩ :: tr => true :: lockEvents tr
  | ⟨.V .fs, _⟩ :: tr => false :: lockEvents tr
  | _ :: tr => lockEvents tr

/-- `lm_P` and `lm_V` equally often and in that order. -/
def Alternates : List Bool → Prop
  | [] => True
  | true :: false :: l => Alternates l
  | _ => False

def Phase.after (ph : Phase) : List Bool → Phase
  | [] => ph
  | true :: l => ph.P.after l
  | false :: l => ph.V.after l

theorem Phase.after_broken (l : List Bool) : Phase.broken.after l = .broken := by
  induction l with
  | nil => rfl
  | cons b l ih => cases b <;> exact ih

theorem alternates_iff (l : List Bool) : Alternates l ↔ Phase.outside.after l = .outside := by
  induction l using Alternates.induct with
  | case1 => exact iff_of_true trivial rfl
  | case2 l ih => exact ih
  | case3 l h1 h2 =>
    refine iff_of_false ?_ ?_
    · cases l with
      | nil => exact absurd rfl h1
      | cons b l =>
        cases b with
        | false => exact id
        | true =>
          cases l with
          | nil => exact id
          | cons b' l =>
            cases b' with
            | false => exact absurd rfl (h2 l)
            | true => exact id
    · cases l with
      | nil => exact absurd rfl h1
      | cons b l =>
        cases b with
        | false =>
          change Phase.broken.after l ≠ .outside
          rw [Phase.after_broken]
          decide
        | true =>
          cases l with
          | nil => decide
          | cons b' l =>
            cases b' with
            | false => exact absurd rfl (h2 l)
            | true =>
              change Phase.broken.after l ≠ .outside
              rw [Phase.after_broken]
              decide

theorem advance_events {x : Sigma Op.Resp} {tr : List (Sigma Op.Resp)} {ph : Phase} {b : Bool} :
    (advance x ⟨ph, b⟩).phase.after (lockEvents tr) = ph.after (lockEvents (x :: tr)) := by
  obtain ⟨o, r⟩ := x
  cases o
  case P s => cases s <;> rfl
  case V s => cases s <;> rfl
  all_goals rfl

theorem advance_skewed {x : Sigma Op.Resp} :
    (advance x g).skewed = false ↔ g.skewed = false ∧ ¬ Skews x := by
  obtain ⟨o, r⟩ := x
  cases o
  case P s => cases s <;> simp [advance, Skews]
  case V s => cases s <;> simp [advance, Skews]
  all_goals simp [advance, Skews]

theorem foldl_advance {tr : List (Sigma Op.Resp)} :
    (tr.foldl (fun g x => advance x g) g).phase = g.phase.after (lockEvents tr) ∧
    ((tr.foldl (fun g x => advance x g) g).skewed = false ↔
      g.skewed = false ∧ ∀ x ∈ tr, ¬ Skews x) := by
  induction tr generalizing g with
  | nil => exact ⟨rfl, by simp⟩
  | cons x tr ih =>
    obtain ⟨hphase, hskew⟩ := @ih (advance x g)
    refine ⟨?_, ?_⟩
    · rw [List.foldl_cons, hphase]
      exact advance_events
    · rw [List.foldl_cons, hskew, advance_skewed, List.forall_mem_cons, and_assoc]

theorem path_alternates_iff {c : Syscall} {tr : List (Sigma Op.Resp)} {a : ℤ}
    (h : Prog.Path (c.prog sb) tr a) :
    Alternates (lockEvents tr) ↔ ∀ x ∈ tr, ¬ Skews x := by
  have hend := (prog_watch c).path (fun _ _ _ => rfl) h
  obtain ⟨hphase, hskew⟩ := @foldl_advance .start tr
  unfold Settled at hend
  rw [hphase, hskew] at hend
  rw [alternates_iff]
  exact hend.trans (and_iff_right rfl)

/-! ### Over any interleaving -/

/-- `fs_lock` and the program of each task that is in a system call. -/
structure Traffic where
  w : World
  prog : ℕ → Option (FsM ℤ)

/-- The scheduler and other code, as far as `fs_lock` sees them. -/
def Background : Act → Prop
  | .P _ _ | .V _ _ | .resume _ => False
  | _ => True

/-- A task that blocks in `lm_P` stays before that operation until it resumes. The steps
that `meets` leaves out do not happen. -/
inductive Move (sb : Superblock) (meets : Sigma Op.Resp → Prop) : Traffic → Traffic → Prop where
  | enter {w prog t} (c : Syscall) : prog t = none →
      Move sb meets ⟨w, prog⟩ ⟨w, Function.update prog t (some (c.prog sb))⟩
  | leave {w prog t a} : prog t = some (.ret a) →
      Move sb meets ⟨w, prog⟩ ⟨w, Function.update prog t none⟩
  | op {w prog t o k r} : prog t = some (.op o k) → o ≠ .P .fs → o ≠ .V .fs → meets ⟨o, r⟩ →
      Move sb meets ⟨w, prog⟩ ⟨w, Function.update prog t (some (k r))⟩
  | P {w w' prog t k tl} : prog t = some (.op (.P .fs) k) → Sync.Step w (.P t tl) w' →
      Move sb meets ⟨w, prog⟩
        ⟨w', if t ∈ w'.inP then prog else Function.update prog t (some (k ()))⟩
  | resume {w w' prog t k} : prog t = some (.op (.P .fs) k) → Sync.Step w (.resume t) w' →
      Move sb meets ⟨w, prog⟩ ⟨w', Function.update prog t (some (k ()))⟩
  | V {w w' prog t k junk} : prog t = some (.op (.V .fs) k) → Sync.Step w (.V t junk) w' →
      Move sb meets ⟨w, prog⟩ ⟨w', Function.update prog t (some (k ()))⟩
  | background {w w' prog a} : Background a → Sync.Step w a w' →
      Move sb meets ⟨w, prog⟩ ⟨w', prog⟩

/-- What `watching` sees of a task in a run without skewed steps. -/
def watchOf (w : World) (t : ℕ) : Watch :=
  ⟨if t ∈ w.inside then .inside else .outside, false⟩

def TaskOk (w : World) (t : ℕ) : Option (FsM ℤ) → Prop
  | none => t ∉ w.inside ∧ t ∉ w.inP
  | some p => Safe watching p (watchOf w t) (fun _ => Settled) ∧
      (t ∈ w.inP → ∃ k, p = .op (.P .fs) k)

structure TrafficOk (w₀ : World) (s : Traffic) : Prop where
  run : Sync.Run Sync.Paired w₀ s.w
  task : ∀ t, TaskOk s.w t (s.prog t)

variable {w₀ w w' : World} {s s' : Traffic} {t : ℕ}

theorem TaskOk.congr {o : Option (FsM ℤ)} (h : TaskOk w t o)
    (hin : t ∈ w'.inside ↔ t ∈ w.inside) (hp : t ∈ w'.inP ↔ t ∈ w.inP) : TaskOk w' t o := by
  have hw : watchOf w' t = watchOf w t := by simp only [watchOf, hin]
  cases o with
  | none => exact ⟨fun h' => h.1 (hin.mp h'), fun h' => h.2 (hp.mp h')⟩
  | some p => exact ⟨hw ▸ h.1, fun h' => h.2 (hp.mp h')⟩

/-- A move of one task. -/
theorem TrafficOk.update (h : TrafficOk w₀ s) {o : Option (FsM ℤ)}
    (hrun : Sync.Run Sync.Paired w₀ w')
    (hin : ∀ u, u ≠ t → (u ∈ w'.inside ↔ u ∈ s.w.inside))
    (hp : ∀ u, u ≠ t → (u ∈ w'.inP ↔ u ∈ s.w.inP)) (ht : TaskOk w' t o) :
    TrafficOk w₀ ⟨w', Function.update s.prog t o⟩ := by
  refine ⟨hrun, fun u => ?_⟩
  by_cases hu : u = t
  · subst hu
    simpa only [Function.update_self] using ht
  · simp only [Function.update_of_ne hu]
    exact (h.task u).congr (hin u hu) (hp u hu)

theorem advance_watchOf {x : Sigma Op.Resp} (hP : x.1 ≠ .P .fs) (hV : x.1 ≠ .V .fs)
    (hx : ¬ Skews x) : advance x (watchOf w t) = watchOf w t := by
  obtain ⟨o, r⟩ := x
  cases o
  case P s => cases s <;> first | exact absurd rfl hP | rfl
  case V s => cases s <;> first | exact absurd rfl hV | rfl
  case writable f =>
    have hr : r = true := by simpa [Skews] using hx
    subst hr
    rfl
  case commit => exact absurd trivial hx
  all_goals rfl

theorem watchOf_inside (h : t ∈ w.inside) : watchOf w t = .entered := by
  simp [watchOf, h, Watch.entered]

theorem watchOf_outside (h : t ∉ w.inside) : watchOf w t = .start := by
  simp [watchOf, h, Watch.start]

/-! The tasks in `lm_P` and inside, before and after a step of the semaphore. -/

theorem stepP_sets {tl : ℕ} (h : Sync.Step w (.P t tl) w') : t ∉ w.inP ∧
    (w'.inP = insert t w.inP ∧ w'.inside = w.inside ∨
      w'.inP = w.inP ∧ w'.inside = insert t w.inside) := by
  cases h with
  | P hn hst hnot h0 hf =>
    refine ⟨hnot, ?_⟩
    unfold Sync.afterP
    split_ifs
    · exact Or.inl ⟨rfl, rfl⟩
    · exact Or.inr ⟨rfl, rfl⟩

theorem stepV_sets {junk : Sync.TaskList} (h : Sync.Step w (.V t junk) w') :
    w'.inP = w.inP ∧ w'.inside = w.inside.erase t := by
  cases h with
  | V hl => exact ⟨rfl, rfl⟩

theorem stepResume_sets (h : Sync.Step w (.resume t) w') :
    t ∈ w.inP ∧ w'.inP = w.inP.erase t ∧ w'.inside = insert t w.inside := by
  cases h with
  | resume hin hst => exact ⟨hin, rfl, rfl⟩

theorem stepBackground_sets {a : Act} (ha : Background a) (h : Sync.Step w a w') :
    Sync.Paired w a ∧ w'.inP = w.inP ∧ w'.inside = w.inside := by
  cases h <;> first | exact ha.elim | exact ⟨trivial, rfl, rfl⟩

theorem TrafficOk.step (h₀ : Sync.Fresh 1 w₀) (h : TrafficOk w₀ s)
    (hm : Move sb (fun x => ¬ Skews x) s s') : TrafficOk w₀ s' := by
  have hapart := (h.run.paired h₀).1.apart
  cases hm with
  | @enter w prog t c hp =>
    have ht := h.task t
    simp only [hp] at ht
    refine h.update h.run (fun _ _ => Iff.rfl) (fun _ _ => Iff.rfl) ⟨?_, fun hin => absurd hin ht.2⟩
    rw [watchOf_outside ht.1]
    exact prog_watch c
  | @leave w prog t a hp =>
    have ht := h.task t
    simp only [hp] at ht
    refine h.update h.run (fun _ _ => Iff.rfl) (fun _ _ => Iff.rfl) ⟨fun hin => ?_, fun hin => ?_⟩
    · have hend : Settled (watchOf w t) := ht.1
      rw [watchOf_inside hin] at hend
      exact absurd (hend.mpr rfl) nofun
    · obtain ⟨k, hk⟩ := ht.2 hin
      cases hk
  | @op w prog t o k r hp hP hV hx =>
    have ht := h.task t
    simp only [hp] at ht
    refine h.update h.run (fun _ _ => Iff.rfl) (fun _ _ => Iff.rfl) ⟨?_, fun hin => ?_⟩
    · exact ht.1.2 r _ (advance_watchOf hP hV hx).symm
    · obtain ⟨k', hk⟩ := ht.2 hin
      cases hk
      exact absurd rfl hP
  | @P w w' prog t k tl hp hs =>
    have ht := h.task t
    simp only [hp] at ht
    have hout : t ∉ w.inside := fun hin => by
      have hpre := ht.1.1 rfl
      rw [watchOf_inside hin] at hpre
      cases hpre
    have hrun : Sync.Run Sync.Paired w₀ w' := h.run.tail (a := .P t tl) hout hs
    obtain ⟨hnot, ⟨hP, hI⟩ | ⟨hP, hI⟩⟩ := stepP_sets hs
    · rw [if_pos (by simp [hP])]
      refine ⟨hrun, fun u => ?_⟩
      by_cases hu : u = t
      · subst hu
        simp only [hp]
        refine ⟨?_, fun _ => ⟨k, rfl⟩⟩
        rw [watchOf_outside (by rwa [hI])]
        exact watchOf_outside hout ▸ ht.1
      · exact (h.task u).congr (by rw [hI]) (by simp [hP, hu])
    · rw [if_neg (by rwa [hP])]
      refine h.update hrun (fun u hu => by simp [hI, hu]) (fun u _ => by rw [hP])
        ⟨?_, fun hin => absurd hin (by rwa [hP])⟩
      rw [watchOf_inside (by simp [hI])]
      refine ht.1.2 () _ ?_
      rw [watchOf_outside hout]
      rfl
  | @resume w w' prog t k hp hs =>
    have ht := h.task t
    simp only [hp] at ht
    have hrun : Sync.Run Sync.Paired w₀ w' := h.run.tail (a := .resume t) trivial hs
    obtain ⟨hin, hP, hI⟩ := stepResume_sets hs
    have hout : t ∉ w.inside := Finset.disjoint_left.mp hapart hin
    refine h.update hrun (fun u hu => by simp [hI, hu]) (fun u hu => by simp [hP, hu])
      ⟨?_, by simp [hP]⟩
    rw [watchOf_inside (by simp [hI])]
    refine ht.1.2 () _ ?_
    rw [watchOf_outside hout]
    rfl
  | @V w w' prog t k junk hp hs =>
    have ht := h.task t
    simp only [hp] at ht
    have hin : t ∈ w.inside := by
      by_contra hout
      have hpre := ht.1.1 rfl
      rw [watchOf_outside hout] at hpre
      cases hpre
    have hrun : Sync.Run Sync.Paired w₀ w' := h.run.tail (a := .V t junk) hin hs
    obtain ⟨hP, hI⟩ := stepV_sets hs
    have hnot : t ∉ w.inP := fun hblocked => by
      obtain ⟨k', hk⟩ := ht.2 hblocked
      cases hk
    refine h.update hrun (fun u hu => by simp [hI, hu]) (fun u hu => by rw [hP])
      ⟨?_, fun hin' => absurd hin' (by rwa [hP])⟩
    rw [watchOf_outside (by simp [hI])]
    refine ht.1.2 () _ ?_
    rw [watchOf_inside hin]
    rfl
  | @background w w' prog a ha hs =>
    obtain ⟨hpair, hP, hI⟩ := stepBackground_sets ha hs
    exact ⟨h.run.tail hpair hs, fun u => (h.task u).congr (by rw [hI]) (by rw [hP])⟩

abbrev Traffic.Run (sb : Superblock) (meets : Sigma Op.Resp → Prop) :=
  Relation.ReflTransGen (Move sb meets)

theorem run_trafficOk (h₀ : Sync.Fresh 1 w₀)
    (hr : Traffic.Run sb (fun x => ¬ Skews x) ⟨w₀, fun _ => none⟩ s) : TrafficOk w₀ s := by
  induction hr with
  | refl => exact ⟨.refl, fun t => ⟨by simp [h₀.inside], by simp [h₀.inP]⟩⟩
  | tail _ hm ih => exact ih.step h₀ hm

/-- A path of a call takes `fs_lock` and gives it back in turn exactly when no step of it
finds a file not writable in `sys_write` or installs an image in `exec`. In any
interleaving without such steps `fs_lock` stays binary: its value is at most 1, at most one
task is inside, and no task is inside between its calls. -/
theorem transactions_balanced (sb : Superblock) :
    (∀ (c : Syscall) tr a, Prog.Path (c.prog sb) tr a →
      (Alternates (lockEvents tr) ↔ ∀ x ∈ tr, ¬ Skews x)) ∧
    ∀ w₀, Sync.Fresh 1 w₀ → ∀ s, Traffic.Run sb (fun x => ¬ Skews x) ⟨w₀, fun _ => none⟩ s →
      s.w.m.sem.value ≤ 1 ∧ s.w.inside.card ≤ 1 ∧ ∀ t, s.prog t = none → t ∉ s.w.inside := by
  refine ⟨fun c tr a h => path_alternates_iff h, fun w₀ h₀ s hr => ?_⟩
  have h := run_trafficOk h₀ hr
  obtain ⟨hpairOk, ns, hsem⟩ := h.run.paired h₀
  have hpair := hpairOk.count
  have hvalue := hsem.value
  have hbegun := hsem.begun
  have hpassed := hsem.passed_le.2
  refine ⟨by omega, by omega, fun t ht => ?_⟩
  have htask := h.task t
  simp only [ht] at htask
  exact htask.1

/-- A regular file that is open on entry 5 of the inode table. -/
def openedFile (writable : Bool) : File := ⟨.FD_INODE, 1, true, writable, 0, some 5, 0⟩

def loadedInode : Inode := ⟨1, 7, 1, true, ⟨T_FILE, 0, 0, 1, 0, fun _ => 0⟩⟩

/-- A task that has got to the `ilock` of `sys_write`. -/
theorem writer_inside : ∃ s, Traffic.Run Fs.mkfsSb (fun x => ¬ Skews x)
    ⟨Sync.binary, fun _ => none⟩ s ∧ 1 ∈ s.w.inside ∧ s.w.inside.card ≤ 1 := by
  have h₀ : Sync.Fresh 1 Sync.binary := Sync.semaphoreOf_fresh 1
  have hP : Sync.Step Sync.binary (.P 1 100) (Sync.afterP Sync.binary 1 100) :=
    .P (by decide) rfl (by decide) (by decide) (by decide)
  have hr : Traffic.Run Fs.mkfsSb (fun x => ¬ Skews x) ⟨Sync.binary, fun _ => none⟩ _ :=
    .tail (.tail (.tail (.tail .refl (.enter (t := 1) (.write 3 0 0) rfl))
      (.op (t := 1) (r := some 0) (Function.update_self _ _ _) (by simp) (by simp) id))
      (.op (t := 1) (r := openedFile true) (Function.update_self _ _ _) (by simp) (by simp) id))
      (.P (t := 1) (Function.update_self _ _ _) hP)
  obtain ⟨-, hcard, -⟩ := (transactions_balanced Fs.mkfsSb).2 _ h₀ _ hr
  exact ⟨_, hr, by decide, hcard⟩

/-- A write to a file that was opened for reading returns with `fs_lock` held. -/
theorem write_keeps_fs_lock : ∃ tr a,
    Prog.Path ((Syscall.write 3 0 1).prog Fs.mkfsSb) tr a ∧ ¬ Alternates (lockEvents tr) := by
  refine ⟨[⟨.ofile 3, some 0⟩, ⟨.file 0, openedFile false⟩, ⟨.P .fs, ()⟩, ⟨.inode 5, loadedInode⟩,
    ⟨.P (.inode 5), ()⟩, ⟨.inode 5, loadedInode⟩, ⟨.writable 0, false⟩, ⟨.V (.inode 5), ()⟩], -1,
    ?_, id⟩
  exact .op (.op (.op (.op (.op (.op (.op (.op .ret)))))))

end Zrhos.Sysfile
