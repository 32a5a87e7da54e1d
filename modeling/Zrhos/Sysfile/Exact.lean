import Zrhos.Sysfile.Runs

/-! The reference counts of open files and of inodes in every state that any interleaving of
system calls reaches from boot. -/
namespace Zrhos.Sysfile
open Turns Tally
open Fs (Block Superblock)
open Mmap (upTo)

/-! ### Open files -/

/-- In every state that calls of any number of tasks reach from boot, the count of a file
entry is the number of descriptors that refer to it and of its allocations in progress.
`filealloc` never picks an entry that a descriptor refers to, and an entry without
descriptors is free for it. -/
theorem file_refs_exact (sb : Superblock) (K₀ : Kernel) (t₀ e₀ : ℕ) (h : Booted K₀ t₀ e₀)
    (c : Config ℕ Op Op.Resp Kernel ℤ) (hr : Run Does (Enters sb) ⟨K₀, fun _ => none⟩ c) :
    (∀ f < NOFILE, (c.state.file f).ref = slots c.state f + allocs c.state f) ∧
    (∀ i f K', Does c.state i .filealloc (some f) K' → f < NOFILE ∧ allocs c.state f = 0 ∧
      ∀ t < NTASK, ∀ fd < NOFILE, (c.state.task t).ofile fd ≠ some f) ∧
    ∀ f < NOFILE, allocs c.state f = 0 →
      (∀ t < NTASK, ∀ fd < NOFILE, (c.state.task t).ofile fd ≠ some f) →
        (c.state.file f).ref = 0 ∧ ∃ f', freeFile c.state = some f' := by
  have hc := run_counted h.idle hr
  refine ⟨hc.file_ref, fun i f K' hd => ?_, fun f hf hzero hnone => ?_⟩
  · obtain ⟨-, -, -, -, ω, hp⟩ := hd
    simp only [perform] at hp
    split at hp
    case _ => cases hp
    case _ f' hfree =>
      cases hp
      obtain ⟨hf, href⟩ := freeFile_spec hfree
      have hcount := hc.file_ref f hf
      refine ⟨hf, by omega, fun t ht fd hfd hs => ?_⟩
      obtain ⟨-, hpos⟩ := hc.allocs_eq_zero ht hfd hs
      omega
  · have hslots : slots c.state f = 0 := by
      refine tally_eq_zero.mpr fun x hx => ?_
      obtain ⟨ht, hfd⟩ := Finset.mem_product.mp hx
      exact hnone x.1 (by simpa [upTo] using ht) x.2 (by simpa [upTo] using hfd)
    have href : (c.state.file f).ref = 0 := by
      rw [hc.file_ref f hf, hslots, hzero]
      rfl
    refine ⟨href, Option.isSome_iff_exists.mp ?_⟩
    rw [freeFile, List.find?_isSome]
    exact ⟨f, List.mem_range.mpr hf, by simpa using href⟩

/-- After `open` the descriptor of the root directory is counted. -/
theorem file_refs_exact_open : ∃ c, Run Does (Enters Fs.mkfsSb) ⟨bootKernel, fun _ => none⟩ c ∧
    (c.state.file 0).ref = 1 ∧ ∀ f < NOFILE, (c.state.file f).ref = slots c.state f + allocs c.state f := by
  have hopen : (openRoot fun _ => true).map (fun x => (x.1.file 0).ref) = some 1 := by decide
  obtain ⟨x, hx, href⟩ := Option.map_eq_some_iff.mp hopen
  have hr : Run Does (Enters Fs.mkfsSb) ⟨bootKernel, fun _ => none⟩ _ :=
    openRoot_run (fun _ _ _ _ _ hd => hd) hx
  exact ⟨_, hr, href, (file_refs_exact Fs.mkfsSb bootKernel 0 0 bootKernel_booted _ hr).1⟩

/-! ### Inodes -/

/-- The steps that drop a reference to an inode without `iput`: the last descriptor of a
file goes, or `dirlink` finds that an entry exists. -/
def Drops (K : Kernel) (i : ℕ) : Op → Prop
  | .closeSlot t fd => ∃ f e, (K.task (t.getD i)).ofile fd = some f ∧ (K.file f).ref = 1 ∧
      (K.file f).ip = some e
  | .entryExist _ => True
  | _ => False

variable {sb : Superblock} {K K₀ : Kernel} {i t₀ e₀ : ℕ}

theorem perform_lost {ω : Oracle} {o : Op} {x : o.Resp × Kernel} (ho : ¬ Drops K i o)
    (h : perform ω K i o = some x) : x.2.lost = K.lost := by
  obtain ⟨r, K'⟩ := x
  cases o with
  | entryExist e => exact absurd trivial ho
  | closeSlot t fd =>
    simp only [perform] at h
    split at h
    case _ => cases h; rfl
    case _ f hf =>
      cases h
      obtain ⟨lost, hlose, hlost⟩ := lose_eq (K := K) (f := f)
      rw [hlose]
      funext d
      refine (hlost d).trans ?_
      rw [if_neg fun hd => ho ⟨f, d, hf, hd⟩, Nat.add_zero]
  | P s =>
    cases s <;> simp only [perform] at h
    case inode e =>
      split_ifs at h
      cases h
      rfl
    all_goals
      cases h
      rfl
  | V s => cases s <;> cases h <;> rfl
  | panic => cases h
  | iget | inew =>
    simp only [perform] at h
    split_ifs at h
    obtain ⟨y, -, hy⟩ := Option.map_eq_some_iff.mp h
    cases hy
    rfl
  | idup | iput | utaskCreate | reap =>
    simp only [perform] at h
    split_ifs at h <;> cases h <;> rfl
  | filealloc | openFile | dupSlot | leaveCwd =>
    simp only [perform] at h
    split at h <;> cases h <;> rfl
  | setCwd t ip => cases ip <;> cases h <;> rfl
  | _ => cases h; rfl

/-- The operations of a run in which no reference to an inode is dropped without `iput`. -/
def Puts (K : Kernel) (i : ℕ) (o : Op) (r : o.Resp) (K' : Kernel) : Prop :=
  Does K i o r K' ∧ ¬ Drops K i o

theorem run_lost {c c' : Config ℕ Op Op.Resp Kernel ℤ} (hr : Run Puts (Enters sb) c c') :
    c'.state.lost = c.state.lost := by
  induction hr with
  | refl => rfl
  | tail _ hs ih =>
    cases hs with
    | turn hp he =>
      obtain ⟨⟨-, -, -, -, ω, hperform⟩, hdrops⟩ := he
      exact (perform_lost hdrops hperform).trans ih
    | leave hp => exact ih
    | enter hp he => exact ih

/-- The operations that drop no reference. -/
def neverDrops : Op → Bool
  | .closeSlot _ _ | .entryExist _ => false
  | _ => true

/-- The task that has booted opens the root directory and closes it again. -/
def closeRoot (K : Kernel) : Option (Kernel × FsM ℤ) :=
  follow (fun _ => true) 0 [answers [slash] rootBlock] K (sysClose 0)

end Zrhos.Sysfile
