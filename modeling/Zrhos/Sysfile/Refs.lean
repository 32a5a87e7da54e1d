import Zrhos.Sysfile.State

/-! What a call owns while it is in progress, what each operation asks of that and does to
it, and the counts of references that every operation keeps. -/
namespace Zrhos.Sysfile
open Turns Tally
open Sync (TaskState)
open Mmap (upTo mem_upTo)

/-! ### The contract of the operations -/

/-- What a call owns: inode locks, references to inodes, `itable.lock`, the reference of the
task's own directory, a new file, and a task whose lock it keeps. -/
structure View where
  held : Set ℕ
  hand : ℕ → ℕ
  itable : Bool
  away : Bool
  alloc : Option ℕ
  kid : Option (ℕ × Task)

def View.rest : View := ⟨∅, fun _ => 0, false, false, none, none⟩

def View.add (g : View) (e : ℕ) : View :=
  { g with hand := Function.update g.hand e (g.hand e + 1) }

def View.sub (g : View) (e : ℕ) : View :=
  { g with hand := Function.update g.hand e (g.hand e - 1) }

def view (K : Kernel) (i : ℕ) : View where
  held := { e | K.holder e = some i }
  hand := K.hand i
  itable := K.itable = some i
  away := (K.task i).state = .RUNNABLE ∧ (K.task i).owns = false
  alloc := K.alloc i
  kid := (K.kid i).map fun t => (t, K.task t)

/-- What an operation asks of its caller. With `strict` a caller waits for no lock that it
holds itself, and for nothing while it keeps `itable.lock`. -/
def Asks (strict : Prop) : Op → View → Prop
  | .P (.inode e), g => strict → e ∉ g.held ∧ g.itable = false
  | .P _, g => strict → g.itable = false
  | .bread _ _, g => strict → g.itable = false
  | .V (.inode e), g => e ∈ g.held
  | .iput e, g => 0 < g.hand e
  | .entryExist e, g => 0 < g.hand e
  | .itableUnlock, g => g.itable = true
  | .filealloc, g => g.alloc = none
  | .fileclose f, g => g.alloc = some f
  | .openFile f _ _ ip _ _, g => g.alloc = some f ∧ 0 < g.hand ip
  | .closeSlot none fd, _ => fd < NOFILE
  | .closeSlot (some t) fd, g => fd < NOFILE ∧ ∃ T, g.kid = some (t, T)
  | .dupSlot nt fd, g => fd < NOFILE ∧ ∃ T, g.kid = some (nt, T) ∧ T.ofile fd = none
  | .leaveCwd none, g => g.away = false
  | .leaveCwd (some t), g => ∃ T, g.kid = some (t, T) ∧ T.owns = true ∧ T.state = .DEAD
  | .setCwd none none, _ => False
  | .setCwd none (some e), g => g.away = true ∧ 0 < g.hand e
  | .setCwd (some t) ip, g => (∀ e, ip = some e → 0 < g.hand e) ∧
      ∃ T, g.kid = some (t, T) ∧ (T.cwd = none ∨ T.owns = false) ∧
        (T.state = .RUNNABLE → T.owns = true)
  | .utaskCreate, g => g.kid = none
  | .reap, g => g.kid = none
  | .setRunnable nt, g => ∃ T, g.kid = some (nt, T) ∧ T.owns = true
  | .unlockTask t, g => ∃ T, g.kid = some (t, T) ∧ T.owns = true ∧
      (T.state = .DEAD → T.cwd = none ∧ ∀ fd < NOFILE, T.ofile fd = none)
  | .setZombie, g => g.away = false
  | _, _ => True

/-- What an operation does to what its caller owns. -/
def Leaves (strict : Prop) : (o : Op) → View → o.Resp → View → Prop
  | .P (.inode e), g, _, g' => e ∉ g.held ∧ g' = { g with held := insert e g.held }
  | .V (.inode e), g, _, g' => g' = { g with held := g.held \ {e} }
  | .iget _ _, g, e, g' => g' = g.add e
  | .inew _ _ _, g, e, g' => (strict → ∀ d ∈ g.held, 0 < g.hand d → e ≠ d) ∧ g' = g.add e
  | .idup e, g, _, g' => g' = g.add e
  | .iput e, g, last, g' =>
    if last = true then ¬ strict ∧ g' = { g with itable := true } else g' = g.sub e
  | .itableUnlock, g, _, g' => g' = { g with itable := false }
  | .entryExist e, g, _, g' => g' = g.sub e
  | .filealloc, g, f, g' => g' = { g with alloc := f }
  | .fileclose _, g, _, g' => g' = { g with alloc := none }
  | .openFile _ _ _ _ _ _, g, none, g' => g' = g
  | .openFile _ _ _ ip _ _, g, some _, g' => g' = { g.sub ip with alloc := none }
  | .closeSlot (some t) fd, g, _, g' => ∀ T, g.kid = some (t, T) →
      g' = { g with kid := some (t, { T with ofile := Function.update T.ofile fd none }) }
  | .dupSlot nt fd, g, _, g' => ∀ T, g.kid = some (nt, T) →
      ∃ f, g' = { g with kid := some (nt, { T with ofile := Function.update T.ofile fd f }) }
  | .leaveCwd none, g, none, g' => g' = g
  | .leaveCwd none, g, some e, g' => g' = { g.add e with away := true }
  | .leaveCwd (some t), g, none, g' => ∀ T, g.kid = some (t, T) → T.cwd = none ∧ g' = g
  | .leaveCwd (some t), g, some e, g' => ∀ T, g.kid = some (t, T) →
      g' = { g.add e with kid := some (t, { T with owns := false }) }
  | .setCwd none (some e), g, _, g' => g' = { g.sub e with away := false }
  | .setCwd (some t) none, g, _, g' => ∀ T, g.kid = some (t, T) →
      g' = { g with kid := some (t, { T with cwd := none, owns := true }) }
  | .setCwd (some t) (some e), g, _, g' => ∀ T, g.kid = some (t, T) →
      g' = { g.sub e with kid := some (t, { T with cwd := some e, owns := true }) }
  | .utaskCreate, g, t, g' => ∃ T : Task, T.state = .USED ∧ T.cwd = none ∧ T.owns = true ∧
      (∀ fd < NOFILE, T.ofile fd = none) ∧ g' = { g with kid := some (t, T) }
  | .reap, g, t, g' => ∃ T : Task, T.state = .DEAD ∧ T.owns = true ∧
      g' = { g with kid := some (t, T) }
  | .setRunnable nt, g, _, g' => ∀ T, g.kid = some (nt, T) →
      g' = { g with kid := some (nt, { T with state := .RUNNABLE }) }
  | .unlockTask _, g, _, g' => g' = { g with kid := none }
  | .wantsTrunc _ _, g, r, g' => (strict → r = false) ∧ g' = g
  | _, g, _, g' => g' = g

def duty (strict : Prop) : Contract Op Op.Resp View := ⟨Asks strict, Leaves strict⟩

/-! ### The counts -/

/-- Each file entry counts its descriptors and its allocation in progress. -/
structure FilesOk (K : Kernel) : Prop where
  file_ref : ∀ f < NOFILE, (K.file f).ref = slots K f + allocs K f
  slot_lt : ∀ t fd f, (K.task t).ofile fd = some f → f < NOFILE
  alloc_lt : ∀ i f, K.alloc i = some f → f < NOFILE ∧ i < NTASK
  alloc_new : ∀ i f, K.alloc i = some f → slots K f = 0 ∧ ∀ j, K.alloc j = some f → j = i

/-- Only the call that keeps the lock of a task changes what a dead task has left. -/
structure KidsOk (K : Kernel) : Prop where
  kid_lt : ∀ i t, K.kid i = some t → t < NTASK
  kid_inj : ∀ i j t, K.kid i = some t → K.kid j = some t → i = j
  dead : ∀ t, (K.task t).state = .DEAD → Unlocked K t →
    (K.task t).cwd = none ∧ ∀ fd < NOFILE, (K.task t).ofile fd = none
  owns : ∀ t, (K.task t).owns = false → Unlocked K t → (K.task t).state = .RUNNABLE

/-- The counts of a kernel state. -/
structure Counted (K : Kernel) : Prop extends FilesOk K, KidsOk K where
  inode_ref : ∀ e, (K.inode e).ref = references K e + K.lost e

variable {K K' : Kernel} {i t e f fd n : ℕ} {T : Task}

theorem sum_hand {S : Finset ℕ} {hand : ℕ → ℕ → ℕ} (hi : i ∈ S) (d : ℕ) :
    ∑ j ∈ S, Function.update hand i (Function.update (hand i) e n) j d +
        (if d = e then hand i e else 0) =
      ∑ j ∈ S, hand j d + if d = e then n else 0 := by
  have hfun : (fun j => Function.update hand i (Function.update (hand i) e n) j d) =
      Function.update (fun j => hand j d) i (Function.update (hand i) e n d) := by
    funext j
    by_cases hj : j = i
    · subst hj
      simp
    · simp [hj]
  have hsum := sum_update (f := fun j => hand j d) (a := Function.update (hand i) e n d) hi
  rw [hfun]
  by_cases hd : d = e
  · subst hd
    simpa only [Function.update_self, ↓reduceIte] using hsum
  · rw [Function.update_of_ne hd] at hsum ⊢
    simpa only [hd, ↓reduceIte, Nat.add_zero, Nat.add_right_cancel_iff] using hsum

theorem handsOn_setHand (hi : i < NTASK) (d : ℕ) :
    handsOn (K.setHand i e n) d + (if d = e then K.hand i e else 0) =
      handsOn K d + if d = e then n else 0 :=
  sum_hand (mem_upTo hi) d

theorem slots_setSlot (ht : t < NTASK) (hfd : fd < NOFILE) {o : Option ℕ} (f : ℕ) :
    slots (K.setSlot t fd o) f + (if (K.task t).ofile fd = some f then 1 else 0) =
      slots K f + if o = some f then 1 else 0 := by
  have hmem : (t, fd) ∈ upTo NTASK ×ˢ upTo NOFILE :=
    Finset.mem_product.mpr ⟨mem_upTo ht, mem_upTo hfd⟩
  have hfun : (fun x : ℕ × ℕ => ((K.setSlot t fd o).task x.1).ofile x.2) =
      Function.update (fun x : ℕ × ℕ => (K.task x.1).ofile x.2) (t, fd) o := by
    funext ⟨u, d⟩
    by_cases hu : u = t
    · subst hu
      by_cases hd : d = fd
      · subst hd
        simp [Kernel.setSlot, Kernel.setTask]
      · simp [Kernel.setSlot, Kernel.setTask, hd]
    · simp [Kernel.setSlot, Kernel.setTask, hu]
  unfold slots
  rw [hfun]
  exact tally_update hmem

theorem allocs_setAlloc (hi : i < NTASK) {o : Option ℕ} (f : ℕ) :
    allocs (K.setAlloc i o) f + (if K.alloc i = some f then 1 else 0) =
      allocs K f + if o = some f then 1 else 0 :=
  tally_update (mem_upTo hi)

theorem cwdsOn_setTask (ht : t < NTASK) (d : ℕ) :
    cwdsOn (K.setTask t T) d +
        (if (K.task t).cwd = some d ∧ (K.task t).owns = true then 1 else 0) =
      cwdsOn K d + if T.cwd = some d ∧ T.owns = true then 1 else 0 :=
  tally_update (mem_upTo ht)

/-! ### What stays the same -/

theorem slots_congr (h : ∀ u, (K'.task u).ofile = (K.task u).ofile) (f : ℕ) :
    slots K' f = slots K f := by
  simp only [slots, h]

theorem cwdsOn_congr (h : ∀ u, (K'.task u).cwd = (K.task u).cwd ∧ (K'.task u).owns = (K.task u).owns)
    (d : ℕ) : cwdsOn K' d = cwdsOn K d :=
  tally_congr fun u _ => by simp only [h u]

theorem allocs_congr (h : K'.alloc = K.alloc) (f : ℕ) : allocs K' f = allocs K f := by
  simp only [allocs, h]

theorem filesOn_congr (hf : K'.file = K.file) (ha : K'.alloc = K.alloc) (d : ℕ) :
    filesOn K' d = filesOn K d := by
  simp only [filesOn, hf, allocs_congr ha]

theorem FilesOk.congr (h : FilesOk K) (ht : ∀ u, (K'.task u).ofile = (K.task u).ofile)
    (hf : ∀ f, (K'.file f).ref = (K.file f).ref) (ha : K'.alloc = K.alloc) : FilesOk K' := by
  refine ⟨fun f hlt => ?_, fun t => ?_, ?_, ?_⟩
  · rw [hf, slots_congr ht, allocs_congr ha]
    exact h.file_ref f hlt
  · rw [ht]
    exact h.slot_lt t
  · rw [ha]
    exact h.alloc_lt
  · simp only [ha, slots_congr ht]
    exact h.alloc_new

theorem KidsOk.congr (h : KidsOk K) (ht : K'.task = K.task) (hk : K'.kid = K.kid) : KidsOk K' := by
  have hunlocked (t : ℕ) : Unlocked K' t ↔ Unlocked K t := by simp only [Unlocked, hk]
  refine ⟨?_, ?_, ?_, ?_⟩
  · rw [hk]
    exact h.kid_lt
  · rw [hk]
    exact h.kid_inj
  · simp only [ht, hunlocked]
    exact h.dead
  · simp only [ht, hunlocked]
    exact h.owns

/-- The references to each entry and its count change alike. -/
theorem Counted.moved (h : Counted K) (hfiles : FilesOk K') (hkids : KidsOk K')
    (he : ∀ d, (K'.inode d).ref + (references K d + K.lost d : ℕ) =
      (K.inode d).ref + (references K' d + K'.lost d : ℕ)) : Counted K' := by
  refine ⟨hfiles, hkids, fun d => ?_⟩
  have hold := h.inode_ref d
  have hnew := he d
  push_cast at hnew
  omega

/-- A step that changes the inode table and what calls have in hand. -/
theorem Counted.withInodes (h : Counted K) (hf : K'.file = K.file) (ht : K'.task = K.task)
    (ha : K'.alloc = K.alloc) (hk : K'.kid = K.kid)
    (he : ∀ d, (K'.inode d).ref + (handsOn K d + K.lost d : ℕ) =
      (K.inode d).ref + (handsOn K' d + K'.lost d : ℕ)) : Counted K' := by
  refine h.moved (h.toFilesOk.congr (fun _ => by rw [ht]) (fun _ => by rw [hf]) ha)
    (h.toKidsOk.congr ht hk) fun d => ?_
  have hcwds : cwdsOn K' d = cwdsOn K d :=
    cwdsOn_congr (fun _ => by rw [ht]; exact ⟨rfl, rfl⟩) d
  have hd := he d
  unfold references
  rw [filesOn_congr hf ha, hcwds]
  push_cast at hd ⊢
  omega

theorem view_congr {j : ℕ} (hh : ∀ e, K'.holder e = some j ↔ K.holder e = some j)
    (hhand : K'.hand j = K.hand j) (hit : K'.itable = some j ↔ K.itable = some j)
    (haway : (K'.task j).state = .RUNNABLE ∧ (K'.task j).owns = false ↔
      (K.task j).state = .RUNNABLE ∧ (K.task j).owns = false)
    (ha : K'.alloc j = K.alloc j) (hk : K'.kid j = K.kid j)
    (hT : ∀ t, K.kid j = some t → K'.task t = K.task t) : view K' j = view K j := by
  have hkid : (K'.kid j).map (fun t => (t, K'.task t)) = (K.kid j).map fun t => (t, K.task t) := by
    rw [hk]
    cases hj : K.kid j with
    | none => rfl
    | some t => simp only [Option.map_some, hT t hj]
  simp only [view, hh, hhand, hit, haway, ha, hkid]

end Zrhos.Sysfile
