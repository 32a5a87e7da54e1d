import Zrhos.Sysfile.Lookup
import Zrhos.Sysfile.Runs

/-! What becomes of an inode that `create` has allocated. -/
namespace Zrhos.Sysfile
open Turns
open Fs (Block Superblock BSIZE ROOTDEV IPB IBLOCK BBLOCK getDatastart bitClear)

variable {sb : Superblock} {i e ip dp : ℕ} {g g' : Store} {name path : List ℕ}

/-! ### References -/

/-- Operations that put no reference to entry `ip`. -/
def Op.Spares (ip : ℕ) : Op → Prop
  | iput e => e ≠ ip
  | P _ | V _ | iget _ _ | entryExist _ | itableUnlock => True
  | o => o.Quiet

theorem Op.Quiet.spares {o : Op} (h : o.Quiet) : o.Spares ip := by
  cases o with
  | iput e => exact h.elim
  | _ => first | exact trivial | exact h

theorem spares_of_quiet {α : Type} {p : FsM α} (h : p.Uses Op.Quiet) : p.Uses (Op.Spares ip) :=
  h.mono fun _ => Op.Quiet.spares

@[simp] theorem itrunc_spares : (itrunc sb e).Uses (Op.Spares ip) := by
  simp only [itrunc, uses_bind, uses_call, uses_when, Op.Spares, Op.Quiet]
  simp only [spares_of_quiet truncDirect_quiet, spares_of_quiet truncIndirect_quiet,
    spares_of_quiet update_quiet, spares_of_quiet iupdate_quiet, spares_of_quiet bfree_quiet,
    implies_true, and_self]

theorem iput_spares (h : e ≠ ip) : (Sysfile.iput sb e).Uses (Op.Spares ip) := by
  simp only [Sysfile.iput, uses_bind, uses_call, uses_ite, Op.Spares, Op.Quiet]
  simp only [itrunc_spares, spares_of_quiet update_quiet, spares_of_quiet iupdate_quiet,
    uses_pure, implies_true, and_self, and_true]
  exact h

theorem dirlookupLoop_spares {dev n off : ℕ} :
    (dirlookupLoop sb dp dev name n off).Uses (Op.Spares ip) := by
  induction n generalizing off with
  | zero => exact uses_pure
  | succ n ih =>
    simp only [dirlookupLoop, uses_bind, uses_call, uses_ite, uses_panic, uses_pure, Op.Spares,
      Op.Quiet, ih, spares_of_quiet readi_quiet, implies_true, and_self]

theorem dirlink_spares {inum : ℕ} : (dirlink sb dp name inum).Uses (Op.Spares ip) := by
  simp only [dirlink, dirlookup, uses_bind, uses_call, uses_ite, uses_panic, Op.Spares, Op.Quiet,
    dirlookupLoop_spares, implies_true, and_self, true_and]
  intro _ _ _ old _
  cases old with
  | none => exact spares_of_quiet dirlinkLoop_quiet
  | some e => exact ⟨trivial, fun _ => trivial⟩

/-- `iget` shares an entry or takes one that nobody refers to. -/
theorem igetEntry_cases {table : ℕ → Inode} {dev inum e : ℕ} {x : Inode}
    (h : igetEntry table dev inum = some (e, x)) :
    (0 < (table e).ref ∧ x.ref = (table e).ref + 1) ∨
      ((table e).ref = 0 ∧ x.ref = 1 ∧ x.valid = false) := by
  unfold igetEntry at h
  split at h
  · rename_i e' hfind
    obtain ⟨rfl, rfl⟩ := Prod.mk.inj (Option.some_injective _ h)
    have hp := List.find?_some hfind
    simp only [decide_eq_true_eq] at hp
    exact Or.inl ⟨hp.1, rfl⟩
  · split at h
    · rename_i e' hfind
      obtain ⟨rfl, rfl⟩ := Prod.mk.inj (Option.some_injective _ h)
      have hp := List.find?_some hfind
      simp only [decide_eq_true_eq] at hp
      exact Or.inr ⟨hp, rfl, rfl⟩
    · cases h

theorem perform_spares {o : Op} {r : o.Resp} (ho : o.Spares ip)
    (href : 2 ≤ (g.kernel.inode ip).ref) (h : g.perform i o = some (r, g')) :
    2 ≤ (g'.kernel.inode ip).ref := by
  cases o with
  | iput e =>
    obtain ⟨x, hx, hr⟩ := Option.map_eq_some_iff.mp h
    obtain ⟨-, rfl⟩ := Prod.mk.inj hr
    simp only [Sysfile.perform] at hx
    split_ifs at hx <;> cases hx
    · exact href
    · simpa [Kernel.setHand, Kernel.addRef, Kernel.setInode, Function.update_of_ne ho.symm]
        using href
  | iget dev inum =>
    obtain ⟨x, hx, hr⟩ := Option.map_eq_some_iff.mp h
    obtain ⟨-, rfl⟩ := Prod.mk.inj hr
    simp only [Sysfile.perform] at hx
    split_ifs at hx
    obtain ⟨⟨e, y⟩, hy, rfl⟩ := Option.map_eq_some_iff.mp hx
    by_cases he : ip = e
    · subst he
      have hcases := igetEntry_cases hy
      simp only [Kernel.setHand, Kernel.setInode, Function.update_self]
      omega
    · simpa [Kernel.setHand, Kernel.setInode, Function.update_of_ne he] using href
  | P s =>
    cases s with
    | inode e =>
      obtain ⟨x, hx, hr⟩ := Option.map_eq_some_iff.mp h
      obtain ⟨-, rfl⟩ := Prod.mk.inj hr
      simp only [Sysfile.perform, Option.ite_none_right_eq_some, Option.some.injEq] at hx
      obtain ⟨-, rfl⟩ := hx
      exact href
    | fs | sons =>
      cases h
      exact href
  | V s =>
    cases s <;> cases h <;> exact href
  | bread dev b =>
    simp only [Store.perform, Option.ite_none_left_eq_some, Option.some.injEq] at h
    obtain ⟨-, h⟩ := h
    cases h
    exact href
  | setCopy e d | setValid e d =>
    cases h
    by_cases he : ip = e
    · subst he
      simpa [Kernel.setInode] using href
    · simpa [Kernel.setInode, Function.update_of_ne he] using href
  | entryExist e | itableUnlock | bstore dev b data | bwrite dev b | brelse dev b | inode e
  | ext c =>
    cases h
    exact href
  | panic why => cases h
  | _ => exact ho.elim

theorem exec_spares {α : Type} {p : FsM α} {a : α} (hp : p.Uses (Op.Spares ip))
    (href : 2 ≤ (g.kernel.inode ip).ref) (h : p.exec (Store.perform i) g = some (a, g')) :
    2 ≤ (g'.kernel.inode ip).ref :=
  hp.exec (fun g => 2 ≤ (g.kernel.inode ip).ref)
    (fun _ _ _ _ ho hg hr => perform_spares ho hg hr) href h

/-! ### Locks -/

theorem ilock_spares : (ilock sb e).Uses (Op.Spares ip) := by
  simp only [ilock, uses_bind, uses_call, uses_ite, uses_panic, uses_pure, Op.Spares, Op.Quiet,
    implies_true, and_self]

/-- `ilock` ends with the lock, and an inode that it reads has a type. -/
theorem exec_ilock_some (h : (ilock sb e).exec (Store.perform i) g = some ((), g')) :
    g.kernel.holder e = none ∧ g'.kernel.holder e = some i ∧ ((g.kernel.inode e).valid = false →
      (g.dinode sb (g.kernel.inode e).dev (g.kernel.inode e).inum).type ≠ 0) := by
  unfold ilock at h
  rw [exec_bind_of_eq (exec_call.trans (Store.perform_inode e))] at h
  split_ifs at h with href
  · cases h
  · by_cases hfree : g.kernel.holder e = none
    · rw [exec_bind_of_eq (exec_call.trans (Store.perform_P hfree)),
        exec_bind_of_eq (exec_call.trans (Store.perform_inode e))] at h
      have hlocked : (g.lock i e).kernel.holder e = some i := Function.update_self ..
      have hip : (g.lock i e).kernel.inode e = g.kernel.inode e := rfl
      rw [hip] at h
      by_cases hv : (g.kernel.inode e).valid = true
      · rw [if_pos hv] at h
        cases h
        exact ⟨hfree, hlocked, fun hc => absurd (hv.symm.trans hc) (by decide)⟩
      · rw [if_neg hv] at h
        obtain ⟨data, g₁, hread, h⟩ := exec_bind_eq_some.mp h
        rw [exec_call] at hread
        simp only [Store.perform, Option.ite_none_left_eq_some, Option.some.injEq,
          Prod.mk.injEq] at hread
        obtain ⟨-, rfl, rfl⟩ := hread
        simp only [exec_bind, exec_call, Store.perform_setCopy, Option.bind_some,
          Store.perform_brelse, Store.perform_setValid] at h
        split_ifs at h with htype
        · cases h
        · cases h
          exact ⟨hfree, hlocked, fun _ => htype⟩
    · simp only [exec_bind, exec_call, Store.perform, Sysfile.perform, if_neg hfree,
        Option.map_none, Option.bind_none, reduceCtorEq] at h

/-- Operations that leave the locks of inodes alone. -/
def Op.KeepsLocks : Op → Prop
  | iget _ _ | inew _ _ _ => True
  | o => o.Quiet

theorem perform_keepsLocks {o : Op} {r : o.Resp} (ho : o.KeepsLocks)
    (h : g.perform i o = some (r, g')) : g'.kernel.holder = g.kernel.holder := by
  cases o with
  | iget dev inum | inew dev inum type =>
    obtain ⟨x, hx, hr⟩ := Option.map_eq_some_iff.mp h
    obtain ⟨-, rfl⟩ := Prod.mk.inj hr
    simp only [Sysfile.perform] at hx
    split_ifs at hx
    obtain ⟨y, -, rfl⟩ := Option.map_eq_some_iff.mp hx
    rfl
  | bread dev b =>
    simp only [Store.perform, Option.ite_none_left_eq_some, Option.some.injEq] at h
    obtain ⟨-, h⟩ := h
    cases h
    rfl
  | setCopy e d | setValid e d | bstore dev b data | bwrite dev b | brelse dev b | inode e
  | ext c =>
    cases h
    rfl
  | panic why => cases h
  | _ => exact ho.elim

theorem exec_keepsLocks {α : Type} {p : FsM α} {a : α} (hp : p.Uses Op.KeepsLocks)
    (h : p.exec (Store.perform i) g = some (a, g')) : g'.kernel.holder = g.kernel.holder :=
  hp.exec (fun g' => g'.kernel.holder = g.kernel.holder)
    (fun _ _ _ _ ho hg hr => (perform_keepsLocks ho hr).trans hg) rfl h

theorem Op.Quiet.keepsLocks {o : Op} (h : o.Quiet) : o.KeepsLocks := by
  cases o with
  | iget _ _ | inew _ _ _ => exact trivial
  | _ => exact h

theorem keepsLocks_of_quiet {α : Type} {p : FsM α} (h : p.Uses Op.Quiet) :
    p.Uses Op.KeepsLocks :=
  h.mono fun _ => Op.Quiet.keepsLocks

theorem dirlookupLoop_keepsLocks {dev n off : ℕ} :
    (dirlookupLoop sb dp dev name n off).Uses Op.KeepsLocks := by
  induction n generalizing off with
  | zero => exact uses_pure
  | succ n ih =>
    simp only [dirlookupLoop, uses_bind, uses_call, uses_ite, uses_panic, uses_pure,
      Op.KeepsLocks, Op.Quiet, ih, keepsLocks_of_quiet readi_quiet, implies_true, and_self]

theorem dirlookup_keepsLocks : (dirlookup sb dp name).Uses Op.KeepsLocks := by
  simp only [dirlookup, uses_bind, uses_call, uses_ite, uses_panic, Op.KeepsLocks, Op.Quiet,
    dirlookupLoop_keepsLocks, implies_true, and_self]

theorem iallocLoop_keepsLocks {dev n k : ℕ} {type : ℤ} {b : Option (ℕ × Block)} :
    (iallocLoop sb dev type n k b).Uses Op.KeepsLocks := by
  induction n generalizing k b with
  | zero => exact uses_pure
  | succ n ih =>
    simp only [iallocLoop, uses_bind, uses_call, uses_ite, uses_pure, Op.KeepsLocks, Op.Quiet, ih,
      keepsLocks_of_quiet nextBuf_quiet, implies_true, and_self]

/-! ### The new inode -/

/-- The buffer of the search covers the inode it has come to. -/
theorem exec_nextBuf {dev k : ℕ} {b : Option (ℕ × Block)} {x : ℕ × Block}
    (hb : ∀ y ∈ b, y.1 = IBLOCK (k - 1) sb ∧ y.2 = g.block dev y.1)
    (h : (nextBuf dev (IBLOCK k sb) b).exec (Store.perform i) g = some (x, g')) :
    x.1 = IBLOCK k sb ∧ x.2 = g.block dev x.1 ∧ g'.block = g.block := by
  cases b with
  | none =>
    obtain ⟨data, g₁, hread, h⟩ := exec_bind_eq_some.mp h
    rw [exec_call] at hread
    simp only [Store.perform, Option.ite_none_left_eq_some, Option.some.injEq,
      Prod.mk.injEq] at hread
    obtain ⟨-, rfl, rfl⟩ := hread
    cases h
    exact ⟨rfl, rfl, rfl⟩
  | some y =>
    obtain ⟨blk, data⟩ := y
    obtain ⟨hy, hdata⟩ := hb (blk, data) rfl
    dsimp only [nextBuf] at h
    split_ifs at h with hlt
    · rw [exec_bind_of_eq (exec_call.trans (Store.perform_brelse dev blk))] at h
      obtain ⟨data, g₁, hread, h⟩ := exec_bind_eq_some.mp h
      rw [exec_call] at hread
      simp only [Store.perform, Option.ite_none_left_eq_some, Option.some.injEq,
        Prod.mk.injEq] at hread
      obtain ⟨-, rfl, rfl⟩ := hread
      cases h
      exact ⟨rfl, rfl, rfl⟩
    · cases h
      have hle : IBLOCK (k - 1) sb ≤ IBLOCK k sb :=
        Nat.add_le_add_right (Nat.div_le_div_right (Nat.sub_le k 1)) _
      dsimp only at hy
      exact ⟨by dsimp only; omega, hdata, rfl⟩

/-- The inode that `ialloc` hands out has no type on disk; somebody refers to it already or it is
not in memory. -/
theorem exec_iallocLoop {dev n k : ℕ} {type : ℤ} {b : Option (ℕ × Block)}
    (hb : ∀ y ∈ b, y.1 = IBLOCK (k - 1) sb ∧ y.2 = g.block dev y.1)
    (h : (iallocLoop sb dev type n k b).exec (Store.perform i) g = some (some e, g')) :
    2 ≤ (g'.kernel.inode e).ref ∨ (g'.kernel.inode e).valid = false ∧
      (g'.dinode sb (g'.kernel.inode e).dev (g'.kernel.inode e).inum).type = 0 := by
  induction n generalizing k b g with
  | zero => cases h
  | succ n ih =>
    unfold iallocLoop at h
    obtain ⟨x, g₁, hx, h⟩ := exec_bind_eq_some.mp h
    obtain ⟨hblk, hdata, hblock⟩ := exec_nextBuf hb hx
    split_ifs at h with htype
    · obtain ⟨e', g₂, hnew, h⟩ := exec_bind_eq_some.mp h
      rw [exec_bind_of_eq (exec_call.trans (Store.perform_brelse dev x.1))] at h
      cases h
      rw [exec_call] at hnew
      obtain ⟨y, hy, hr⟩ := Option.map_eq_some_iff.mp hnew
      simp only [Sysfile.perform] at hy
      split_ifs at hy
      obtain ⟨⟨e, z⟩, hz, rfl⟩ := Option.map_eq_some_iff.mp hy
      cases hr
      obtain ⟨hdev, hinum⟩ := igetEntry_inum hz
      have hcases := igetEntry_cases hz
      simp only [Store.release, Kernel.setHand, Kernel.setInode, Function.update_self, hdev, hinum]
      rcases hcases with ⟨hpos, href⟩ | ⟨-, -, hvalid⟩
      · exact Or.inl (by omega)
      · refine Or.inr ⟨hvalid, ?_⟩
        rw [hdata, hblk, ← hblock] at htype
        exact htype
    · refine ih (fun y hy => ?_) h
      cases hy
      exact ⟨hblk, by rw [hdata, hblock]⟩

/-- An inode that `ialloc` hands out can be locked only if somebody else refers to it. -/
theorem ilock_ialloc {dev : ℕ} {type : ℤ} {g₁ : Store}
    (hnew : (ialloc sb dev type).exec (Store.perform i) g = some (some ip, g₁))
    (hlock : (ilock sb ip).exec (Store.perform i) g₁ = some ((), g')) :
    2 ≤ (g₁.kernel.inode ip).ref := by
  obtain ⟨-, -, htype⟩ := exec_ilock_some hlock
  rcases exec_iallocLoop (by simp) hnew with href | ⟨hvalid, h0⟩
  · exact href
  · exact absurd h0 (htype hvalid)

/-! ### Creating a file -/

/-- The inode number a path leads to. -/
def Store.resolve (sb : Superblock) (i : ℕ) (g : Store) (path : List ℕ) : Option ℕ :=
  ((namei sb path).exec (Store.perform i) g).bind fun r =>
    r.1.map fun e => (r.2.kernel.inode e).inum

/-- The parent of the path is directory `dp`, which task `i` has locked in `g'`. It has no entry
of the last name and room for one. -/
structure Missing (sb : Superblock) (i : ℕ) (g : Store) (path : List ℕ) (dp : ℕ) (name : List ℕ)
    (g' : Store) : Prop where
  parent : ∃ g₁, (nameiparent sb path).exec (Store.perform i) g = some (some (dp, name), g₁) ∧
    (ilock sb dp).exec (Store.perform i) g₁ = some ((), g')
  absent : ∃ g₁, (dirlookup sb dp name).exec (Store.perform i) g' = some (none, g₁)
  nonempty : 1 ≤ name.length
  short : name.length < DIRSIZ
  slot : ∃ k < NDIRECT * DPB, (g'.kernel.inode dp).copy.addrs (k / DPB) = 0 ∨
    half (g'.block (g'.kernel.inode dp).dev ((g'.kernel.inode dp).copy.addrs (k / DPB)))
      (16 * (k % DPB)) = 0

/-- The path names a file that can be made: there are a free inode and a free block. -/
structure Creatable (sb : Superblock) (i : ℕ) (g : Store) (path : List ℕ) : Prop where
  missing : ∃ dp name g', Missing sb i g path dp name g'
  inode : ∃ n, 1 ≤ n ∧ n < sb.ninodes ∧ (g.dinode sb ROOTDEV n).type = 0
  block : ∃ b, getDatastart sb ≤ b ∧ b < sb.nblocks ∧
    bitClear (g.block ROOTDEV (BBLOCK b sb)) b = true

/-- `create` answers with entry `e`, a new and empty file that nobody else refers to and that
the path leads to from then on. -/
structure Creates (sb : Superblock) (i : ℕ) (g : Store) (path : List ℕ) (major minor : ℤ)
    (e : ℕ) (g' : Store) : Prop where
  returns : (create sb path T_FILE major minor).exec (Store.perform i) g = some (some e, g')
  locked : g'.kernel.holder e = some i
  type : (g'.kernel.inode e).copy.type = T_FILE
  nlink : (g'.kernel.inode e).copy.nlink = 1
  size : (g'.kernel.inode e).copy.size = 0
  alone : (g'.kernel.inode e).ref = 1
  stored : (g'.dinode sb (g'.kernel.inode e).dev (g'.kernel.inode e).inum).type = T_FILE
  found : g'.resolve sb i path = some (g'.kernel.inode e).inum
  others : ∀ p n, g.resolve sb i p = some n → g'.resolve sb i p = some n

theorem createFail_returns {r : Option ℕ}
    (h : (createFail sb dp ip).exec (Store.perform i) g = some (r, g')) : r = none := by
  unfold createFail at h
  obtain ⟨_, _, -, h⟩ := exec_bind_eq_some.mp h
  obtain ⟨_, _, -, h⟩ := exec_bind_eq_some.mp h
  obtain ⟨_, _, -, h⟩ := exec_bind_eq_some.mp h
  obtain ⟨_, _, -, h⟩ := exec_bind_eq_some.mp h
  cases h
  rfl

theorem createLink_shared {inum : ℕ} (hne : dp ≠ ip) (href : 2 ≤ (g.kernel.inode ip).ref)
    (h : (createLink sb dp name ip inum T_FILE true).exec (Store.perform i) g =
      some (some e, g')) : 2 ≤ (g'.kernel.inode e).ref := by
  unfold createLink at h
  rw [Bool.not_true, if_neg Bool.false_ne_true] at h
  obtain ⟨r, g₁, hlink, h⟩ := exec_bind_eq_some.mp h
  have href₁ := exec_spares dirlink_spares href hlink
  split_ifs at h with hr
  · cases createFail_returns h
  · obtain ⟨_, g₂, hwhen, h⟩ := exec_bind_eq_some.mp h
    obtain ⟨_, g₃, hunlock, h⟩ := exec_bind_eq_some.mp h
    have hput : (iunlockput sb dp).Uses (Op.Spares ip) := by
      simp only [iunlockput, iunlock, uses_bind, uses_call, iput_spares hne, implies_true, and_true]
      exact trivial
    have href₂ : 2 ≤ (g₂.kernel.inode ip).ref := by
      cases hwhen
      exact href₁
    cases h
    exact exec_spares hput href₂ hunlock

/-- Where `create` returns a new file, somebody else refers to its inode. -/
theorem create_shared {major minor : ℤ} {g₁ : Store} (hm : Missing sb i g path dp name g₁)
    (h : (create sb path T_FILE major minor).exec (Store.perform i) g = some (some e, g')) :
    2 ≤ (g'.kernel.inode e).ref := by
  obtain ⟨g₂, hparent, hlock⟩ := hm.parent
  obtain ⟨g₃, habsent⟩ := hm.absent
  unfold create at h
  rw [exec_bind_of_eq hparent] at h
  dsimp only at h
  rw [exec_bind_of_eq hlock, exec_bind_of_eq habsent,
    exec_bind_of_eq (exec_call.trans (Store.perform_inode dp))] at h
  obtain ⟨new, g₄, hnew, h⟩ := exec_bind_eq_some.mp h
  cases new with
  | none =>
    obtain ⟨_, _, -, h⟩ := exec_bind_eq_some.mp h
    cases h
  | some ip =>
    obtain ⟨_, g₅, hilock, h⟩ := exec_bind_eq_some.mp h
    have href := ilock_ialloc hnew hilock
    have hne : dp ≠ ip := by
      rintro rfl
      have hheld := (exec_ilock_some hlock).2.1
      rw [← exec_keepsLocks dirlookup_keepsLocks habsent,
        ← exec_keepsLocks iallocLoop_keepsLocks hnew, (exec_ilock_some hilock).1] at hheld
      cases hheld
    have href₅ := exec_spares ilock_spares href hilock
    obtain ⟨_, g₆, hupdate, h⟩ := exec_bind_eq_some.mp h
    have href₆ := exec_spares (spares_of_quiet update_quiet) href₅ hupdate
    obtain ⟨_, g₇, hiupdate, h⟩ := exec_bind_eq_some.mp h
    have href₇ := exec_spares (spares_of_quiet iupdate_quiet) href₆ hiupdate
    rw [exec_bind_of_eq (exec_call.trans (Store.perform_inode ip)),
      exec_bind_of_eq (exec_call.trans (Store.perform_inode dp)),
      if_neg (by decide), exec_bind_of_eq exec_pure] at h
    exact createLink_shared hne href₇ h

/-- No file is ever made: the inode that `ialloc` hands out has no type on disk yet, and `ilock`
panics when it reads it. -/
theorem create_never_creates {major minor : ℤ} (h : Creatable sb i g path) :
    ¬ ∃ e g', Creates sb i g path major minor e g' := by
  rintro ⟨e, g', hc⟩
  obtain ⟨dp, name, g₁, hm⟩ := h.missing
  have href := create_shared hm hc.returns
  rw [hc.alone] at href
  omega

/-- A disk with an empty root directory. -/
def emptyDisk : Store where
  block _ b := if b = 2 then rootBlock else fun _ => 0
  disk b := if b = 2 then rootBlock else fun _ => 0
  held := []
  kernel := bootKernel
  oracle _ := answers [] fun _ => 0

theorem emptyDisk_creatable : Creatable Fs.mkfsSb 0 emptyDisk [slash, 97] := by
  constructor
  case missing =>
    exact ⟨0, [97], _, ⟨⟨_, rfl, rfl⟩, ⟨_, rfl⟩, by decide, by decide, ⟨0, by decide, Or.inl rfl⟩⟩⟩
  case inode => exact ⟨2, by decide, by decide, rfl⟩
  case block => exact ⟨BBLOCK 0 Fs.mkfsSb + 32, by decide, by decide, rfl⟩

theorem create_never_creates_root :
    ¬ ∃ e g', Creates Fs.mkfsSb 0 emptyDisk [slash, 97] 0 0 e g' :=
  create_never_creates emptyDisk_creatable

/-- The first file of an empty disk: the kernel panics. -/
theorem create_panics : Creatable Fs.mkfsSb 0 emptyDisk [slash, 97] ∧
    (create Fs.mkfsSb [slash, 97] T_FILE 0 0).exec (Store.perform 0) emptyDisk = none :=
  ⟨emptyDisk_creatable, by rfl⟩

end Zrhos.Sysfile
