import Zrhos.Sysfile.Create
import Zrhos.Sysfile.Outcome

/-! `exec` of a file that cannot be executed. -/
namespace Zrhos.Sysfile
open Turns
open Fs (Superblock)

/-- The path leads to an inode. -/
def Exists (sb : Superblock) (i : ℕ) (g : Store) (path : List ℕ) : Prop :=
  ∃ e g', (namei sb path).exec (Store.perform i) g = some (some e, g')

/-- The call returns -1, and blocks, locks and references are as before. The memory of the
task is left out here. -/
structure FailsCleanly (sb : Superblock) (i : ℕ) (g : Store) (path : List ℕ)
    (argv : List (List ℕ)) (g' : Store) : Prop where
  returns : (exec sb path argv).exec (Store.perform i) g = some (-1, g')
  block : g'.block = g.block
  held : g'.held = g.held
  holder : g'.kernel.holder = g.kernel.holder
  ref : ∀ e, (g'.kernel.inode e).ref = (g.kernel.inode e).ref
  task : g'.kernel.task = g.kernel.task

/-- The call does not return 0. -/
def CannotSucceed (sb : Superblock) (i : ℕ) (g : Store) (path : List ℕ) (argv : List (List ℕ)) :
    Prop := ∀ g', (exec sb path argv).exec (Store.perform i) g ≠ some (0, g')

variable {sb : Superblock} {i : ℕ} {g g' : Store} {path : List ℕ} {argv : List (List ℕ)} {ret : ℤ}

/-- Once `exec` has found the file there is no way to return but success. -/
theorem exec_of_exists (hpath : Exists sb i g path)
    (h : (exec sb path argv).exec (Store.perform i) g = some (ret, g')) : ret = 0 := by
  obtain ⟨e, g₁, hnamei⟩ := hpath
  rw [exec_eq, exec_bind_of_eq hnamei] at h
  exact execFile_ends (ends_of_exec h)

theorem exec_never_fails_cleanly (hpath : Exists sb i g path) :
    ¬∃ g', FailsCleanly sb i g path argv g' := by
  rintro ⟨g', h⟩
  have hret := exec_of_exists hpath h.returns
  exact absurd hret (by decide)

theorem emptyDisk_exists : Exists Fs.mkfsSb 0 emptyDisk [slash] := ⟨0, _, rfl⟩

theorem exec_never_fails_cleanly_root :
    ¬∃ g', FailsCleanly Fs.mkfsSb 0 emptyDisk [slash] [] g' :=
  exec_never_fails_cleanly emptyDisk_exists

/-- The root directory is too short for a program, and `exec` of it panics. -/
theorem exec_panics : ¬∀ g path argv, Exists Fs.mkfsSb 0 g path →
    CannotSucceed Fs.mkfsSb 0 g path argv → ∃ g', FailsCleanly Fs.mkfsSb 0 g path argv g' := by
  intro hall
  have hnone : (exec Fs.mkfsSb [slash] []).exec (Store.perform 0) emptyDisk = none := by rfl
  have hcannot : CannotSucceed Fs.mkfsSb 0 emptyDisk [slash] [] := by
    intro g' h
    rw [hnone] at h
    cases h
  obtain ⟨g', h⟩ := hall emptyDisk [slash] [] emptyDisk_exists hcannot
  rw [h.returns] at hnone
  cases hnone

end Zrhos.Sysfile
