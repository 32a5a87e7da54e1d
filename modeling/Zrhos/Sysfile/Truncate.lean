import Zrhos.Mkfs.Image
import Zrhos.Sysfile.Bitmap
import Zrhos.Sysfile.Bytes

/-! `itrunc` of a task that runs alone gives back the blocks of a file. -/
namespace Zrhos.Sysfile
open Turns
open Fs (Block Superblock BSIZE ROOTDEV BPB IPB IBLOCK BBLOCK Layout bitClear)
open Mkfs (Metadata)

variable {sb : Superblock} {i e a b c k n : ℕ} {g g' : Store} {l l' : List ℕ} {data : Block}
  {f : ℕ → ℕ}

/-! ### Writing an inode back -/

namespace Store

/-- A store to the fields of an inode. -/
def modify (g : Store) (e : ℕ) (f : Dinode → Dinode) : Store :=
  { g with kernel := g.kernel.setInode e { g.kernel.inode e with copy := f (g.kernel.inode e).copy } }

/-- `iupdate` has written the inode behind entry `e` back. -/
def written (sb : Superblock) (g : Store) (e : ℕ) : Store :=
  let ip := g.kernel.inode e
  let h := g.setBlock ROOTDEV (IBLOCK ip.inum sb) (writeAt (g.block ROOTDEV (IBLOCK ip.inum sb))
    (64 * (ip.inum % IPB)) (dinodeBytes ip.copy))
  { h with disk := Function.update g.disk (IBLOCK ip.inum sb) (h.block ROOTDEV (IBLOCK ip.inum sb)) }

theorem written_self : (g.written sb e).block ROOTDEV (IBLOCK (g.kernel.inode e).inum sb) =
    writeAt (g.block ROOTDEV (IBLOCK (g.kernel.inode e).inum sb))
      (64 * ((g.kernel.inode e).inum % IPB)) (dinodeBytes (g.kernel.inode e).copy) :=
  setBlock_self (g := g) ROOTDEV (IBLOCK (g.kernel.inode e).inum sb) _

theorem written_block {dev : ℕ} (hb : b ≠ IBLOCK (g.kernel.inode e).inum sb) :
    (g.written sb e).block dev b = g.block dev b :=
  setBlock_of_ne (g := g) _ fun he => hb (Prod.mk.inj he).2

theorem written_disk : (g.written sb e).disk =
    Function.update g.disk (IBLOCK (g.kernel.inode e).inum sb)
      ((g.written sb e).block ROOTDEV (IBLOCK (g.kernel.inode e).inum sb)) := rfl

def addrs (g : Store) (e : ℕ) : ℕ → ℕ := (g.kernel.inode e).copy.addrs

end Store

theorem exec_update {f : Dinode → Dinode} :
    (update e f).exec (Store.perform i) g = some ((), g.modify e f) := by
  unfold update
  rw [exec_bind_of_eq (exec_call.trans (Store.perform_inode e))]
  rfl

theorem exec_iupdate (hheld : g.held = []) :
    (iupdate sb e).exec (Store.perform i) g = some ((), g.written sb e) := by
  have hread : (ROOTDEV, IBLOCK (g.kernel.inode e).inum sb) ∉ g.held := by simp [hheld]
  unfold iupdate
  rw [exec_bind_of_eq (exec_call.trans (Store.perform_inode e)),
    exec_bind_of_eq (exec_call.trans (Store.perform_bread hread))]
  simp [Store.written, Store.setBlock, Store.hold, Store.release]

/-! ### Lists of blocks -/

/-- The numbers of a table from position `k` on without the holes. -/
def nonzero (f : ℕ → ℕ) (k n : ℕ) : List ℕ := ((List.range' k n).map f).filter (· ≠ 0)

@[simp] theorem nonzero_zero : nonzero f k 0 = [] := rfl

theorem nonzero_succ : nonzero f k (n + 1) =
    (if f k ≠ 0 then [f k] else []) ++ nonzero f (k + 1) n := by
  unfold nonzero
  rw [List.range'_succ, List.map_cons, List.filter_cons]
  by_cases h : f k = 0
  · simp [h]
  · simp [h]

theorem nonzero_congr {f' : ℕ → ℕ} (h : ∀ j, k ≤ j → j < k + n → f j = f' j) :
    nonzero f k n = nonzero f' k n := by
  unfold nonzero
  refine congrArg _ (List.map_congr_left fun j hj => ?_)
  have hj' := List.mem_range'_1.mp hj
  exact h j hj'.1 hj'.2

namespace Store

/-- The blocks of the list are given back one after the other. -/
def giveAll (sb : Superblock) (g : Store) : List ℕ → Store
  | [] => g
  | a :: l => (g.give sb a).giveAll sb l

theorem giveAll_append : g.giveAll sb (l ++ l') = (g.giveAll sb l).giveAll sb l' := by
  induction l generalizing g with
  | nil => rfl
  | cons a l ih => exact ih

theorem giveAll_rest : (g.giveAll sb l).kernel = g.kernel ∧ (g.giveAll sb l).held = g.held ∧
    (g.giveAll sb l).oracle = g.oracle := by
  induction l generalizing g with
  | nil => exact ⟨rfl, rfl, rfl⟩
  | cons a l ih => exact ih

theorem giveAll_isFree : (g.giveAll sb l).isFree sb c = (g.isFree sb c || decide (c ∈ l)) := by
  induction l generalizing g with
  | nil => simp [giveAll]
  | cons a l ih =>
    unfold giveAll
    rw [ih, give_isFree, Bool.or_assoc]
    simp [List.mem_cons]

theorem giveAll_block (h : ∀ a ∈ l, b ≠ BBLOCK a sb) (dev : ℕ) :
    (g.giveAll sb l).block dev b = g.block dev b := by
  induction l generalizing g with
  | nil => rfl
  | cons a l ih =>
    unfold giveAll
    rw [ih fun a ha => h a (List.mem_cons_of_mem _ ha), give_block (h a List.mem_cons_self)]

/-- `bfree` gets through the list: every block is in use until it is given back, and its bitmap
block is not locked. -/
def Releasable (sb : Superblock) (g : Store) (l : List ℕ) : Prop :=
  l.Nodup ∧ ∀ a ∈ l, (ROOTDEV, BBLOCK a sb) ∉ g.held ∧ g.isFree sb a = false

theorem releasable_nil : g.Releasable sb [] := ⟨List.nodup_nil, fun _ ha => by cases ha⟩

theorem releasable_cons : g.Releasable sb (a :: l) ↔
    ((ROOTDEV, BBLOCK a sb) ∉ g.held ∧ g.isFree sb a = false) ∧ (g.give sb a).Releasable sb l := by
  unfold Releasable
  simp only [List.nodup_cons, List.forall_mem_cons, give_held, give_isFree, Bool.or_eq_false_iff,
    decide_eq_false_iff_not]
  constructor
  · rintro ⟨⟨hnot, hnodup⟩, hhead, htail⟩
    exact ⟨hhead, hnodup, fun b hb =>
      ⟨(htail b hb).1, (htail b hb).2, fun hba => hnot (hba ▸ hb)⟩⟩
  · rintro ⟨hhead, hnodup, htail⟩
    exact ⟨⟨fun hmem => (htail a hmem).2.2 rfl, hnodup⟩, hhead, fun b hb =>
      ⟨(htail b hb).1, (htail b hb).2.1⟩⟩

theorem releasable_append : g.Releasable sb (l ++ l') ↔
    g.Releasable sb l ∧ (g.giveAll sb l).Releasable sb l' := by
  induction l generalizing g with
  | nil => simp [Releasable, giveAll]
  | cons a l ih =>
    rw [List.cons_append, releasable_cons, releasable_cons, ih, giveAll, ← and_assoc]

theorem releasable_hold : (g.hold ROOTDEV b).Releasable sb l ↔
    g.Releasable sb l ∧ ∀ a ∈ l, BBLOCK a sb ≠ b := by
  unfold Releasable
  have hmem (a : ℕ) : (ROOTDEV, BBLOCK a sb) ∉ (g.hold ROOTDEV b).held ↔
      BBLOCK a sb ≠ b ∧ (ROOTDEV, BBLOCK a sb) ∉ g.held := by
    simp [hold]
  have hfree (a : ℕ) : (g.hold ROOTDEV b).isFree sb a = g.isFree sb a := rfl
  simp only [hmem, hfree]
  constructor
  · rintro ⟨hnodup, hl⟩
    exact ⟨⟨hnodup, fun a ha => ⟨(hl a ha).1.2, (hl a ha).2⟩⟩, fun a ha => (hl a ha).1.1⟩
  · rintro ⟨⟨hnodup, hl⟩, hne⟩
    exact ⟨hnodup, fun a ha => ⟨⟨hne a ha, (hl a ha).1⟩, (hl a ha).2⟩⟩

theorem giveAll_hold : (g.hold ROOTDEV b).giveAll sb l = (g.giveAll sb l).hold ROOTDEV b := by
  induction l generalizing g with
  | nil => rfl
  | cons a l ih => exact ih (g := g.give sb a)

theorem giveAll_modify {m : Dinode → Dinode} :
    (g.modify e m).giveAll sb l = (g.giveAll sb l).modify e m := by
  induction l generalizing g with
  | nil => rfl
  | cons a l ih => exact ih (g := g.give sb a)

theorem giveAll_lock : (g.lock i e).giveAll sb l = (g.giveAll sb l).lock i e := by
  induction l generalizing g with
  | nil => rfl
  | cons a l ih => exact ih (g := g.give sb a)

theorem modify_modify {m m' : Dinode → Dinode} :
    (g.modify e m).modify e m' = g.modify e fun d => m' (m d) := by
  simp [modify, Kernel.setInode]

theorem modify_congr {m m' : Dinode → Dinode}
    (h : m (g.kernel.inode e).copy = m' (g.kernel.inode e).copy) : g.modify e m = g.modify e m' := by
  unfold modify
  rw [h]

theorem modify_self {m : Dinode → Dinode}
    (h : m (g.kernel.inode e).copy = (g.kernel.inode e).copy) : g.modify e m = g := by
  unfold modify Kernel.setInode
  rw [h]
  simp

end Store

/-! ### The loops -/

theorem truncIndirect_eq_some : (truncIndirect sb data n k).exec (Store.perform i) g = some ((), g') ↔
    g.Releasable sb (nonzero (fun j => word data (4 * j)) k n) ∧
      g' = g.giveAll sb (nonzero (fun j => word data (4 * j)) k n) := by
  induction n generalizing k g with
  | zero =>
    constructor
    · intro h
      cases h
      exact ⟨Store.releasable_nil, rfl⟩
    · rintro ⟨-, rfl⟩
      rfl
  | succ n ih =>
    unfold truncIndirect
    rw [nonzero_succ]
    by_cases h0 : word data (4 * k) = 0
    · unfold when
      rw [if_neg (not_not.mpr h0), if_neg (not_not.mpr h0), List.nil_append,
        exec_bind_of_eq exec_pure]
      exact ih
    · unfold when
      rw [if_pos h0, if_pos h0, List.singleton_append, Store.releasable_cons, Store.giveAll,
        exec_bind_eq_some]
      constructor
      · rintro ⟨⟨⟩, g₁, hfree, hrest⟩
        obtain ⟨hhead, rfl⟩ := bfree_eq_some.mp hfree
        obtain ⟨htail, rfl⟩ := ih.mp hrest
        exact ⟨⟨hhead, htail⟩, rfl⟩
      · rintro ⟨⟨hhead, htail⟩, rfl⟩
        exact ⟨(), _, bfree_eq_some.mpr ⟨hhead, rfl⟩, ih.mpr ⟨htail, rfl⟩⟩

/-- The addresses from `k` to `k + n` are gone. -/
def Dinode.clear (k n : ℕ) (d : Dinode) : Dinode :=
  { d with addrs := fun j => if k ≤ j ∧ j < k + n then 0 else d.addrs j }

theorem Dinode.clear_zero (d : Dinode) : d.clear k 0 = d := by
  have hnone (j : ℕ) : ¬ (k ≤ j ∧ j < k + 0) := by omega
  simp only [clear, hnone, if_false]

theorem Dinode.clear_succ (d : Dinode) :
    ({ d with addrs := Function.update d.addrs k 0 } : Dinode).clear (k + 1) n = d.clear k (n + 1) := by
  unfold clear
  congr 1
  funext j
  dsimp only
  by_cases hj : j = k
  · subst hj
    rw [if_neg (by omega), if_pos (by omega), Function.update_self]
  · rw [Function.update_of_ne hj]
    split_ifs <;> first | rfl | omega

theorem truncDirect_eq_some : (truncDirect sb e n k).exec (Store.perform i) g = some ((), g') ↔
    g.Releasable sb (nonzero (g.addrs e) k n) ∧
      g' = (g.giveAll sb (nonzero (g.addrs e) k n)).modify e (Dinode.clear k n) := by
  induction n generalizing k g with
  | zero =>
    rw [nonzero_zero, Store.giveAll, Store.modify_self (Dinode.clear_zero _)]
    constructor
    · intro h
      cases h
      exact ⟨Store.releasable_nil, rfl⟩
    · rintro ⟨-, rfl⟩
      rfl
  | succ n ih =>
    unfold truncDirect when
    have haddr : (g.kernel.inode e).copy.addrs k = g.addrs e k := rfl
    rw [exec_bind_of_eq (exec_call.trans (Store.perform_inode e)), nonzero_succ, haddr]
    by_cases h0 : g.addrs e k = 0
    · have hsame : g.modify e (Dinode.clear k (n + 1)) = g.modify e (Dinode.clear (k + 1) n) := by
        refine Store.modify_congr ?_
        rw [← Dinode.clear_succ, ← h0, ← haddr, Function.update_eq_self]
      rw [if_neg (not_not.mpr h0), if_neg (not_not.mpr h0), List.nil_append,
        exec_bind_of_eq exec_pure, ih, ← Store.giveAll_modify, ← Store.giveAll_modify, hsame]
    · have hnext (h : Store) (hh : h = (g.give sb (g.addrs e k)).modify e fun d =>
          { d with addrs := Function.update d.addrs k 0 }) :
          nonzero (h.addrs e) (k + 1) n = nonzero (g.addrs e) (k + 1) n ∧
          (h.Releasable sb (nonzero (g.addrs e) (k + 1) n) ↔
            (g.give sb (g.addrs e k)).Releasable sb (nonzero (g.addrs e) (k + 1) n)) ∧
          (h.giveAll sb (nonzero (g.addrs e) (k + 1) n)).modify e (Dinode.clear (k + 1) n) =
            ((g.give sb (g.addrs e k)).giveAll sb (nonzero (g.addrs e) (k + 1) n)).modify e
              (Dinode.clear k (n + 1)) := by
        subst hh
        refine ⟨nonzero_congr fun j hj _ => ?_, Iff.rfl, ?_⟩
        · simp only [Store.addrs, Store.modify, Kernel.setInode, Function.update_self]
          exact Function.update_of_ne (by omega) ..
        · rw [Store.giveAll_modify, Store.modify_modify]
          exact Store.modify_congr (Dinode.clear_succ _)
      rw [if_pos h0, if_pos h0, List.singleton_append, Store.releasable_cons, Store.giveAll,
        exec_bind_eq_some]
      constructor
      · rintro ⟨⟨⟩, g₁, hfirst, hrest⟩
        obtain ⟨⟨⟩, g₂, hfree, hupdate⟩ := exec_bind_eq_some.mp hfirst
        obtain ⟨hhead, rfl⟩ := bfree_eq_some.mp hfree
        rw [exec_update] at hupdate
        cases hupdate
        obtain ⟨haddrs, hrel, hend⟩ := hnext _ rfl
        obtain ⟨htail, rfl⟩ := ih.mp hrest
        rw [haddrs] at htail ⊢
        exact ⟨⟨hhead, hrel.mp htail⟩, hend⟩
      · rintro ⟨⟨hhead, htail⟩, rfl⟩
        obtain ⟨haddrs, hrel, hend⟩ := hnext _ rfl
        refine ⟨(), _, exec_bind_eq_some.mpr ⟨(), _, bfree_eq_some.mpr ⟨hhead, rfl⟩, exec_update⟩,
          ih.mpr ⟨?_, ?_⟩⟩
        · rw [haddrs]
          exact hrel.mpr htail
        · rw [haddrs]
          exact hend.symm

/-! ### The whole file -/

/-- What is left of an inode. -/
def Dinode.emptied (d : Dinode) : Dinode :=
  { d with
    size := 0
    addrs := fun j => if j ≤ NDIRECT then 0 else d.addrs j }

namespace Store

def direct (g : Store) (e : ℕ) : List ℕ := nonzero (g.addrs e) 0 NDIRECT

/-- The blocks that are listed in the indirect block `b`. -/
def listed (g : Store) (b : ℕ) : List ℕ :=
  if b = 0 then [] else nonzero (fun j => word (g.block ROOTDEV b) (4 * j)) 0 NINDIRECT

def indirect (g : Store) (e : ℕ) : List ℕ := nonzero (g.addrs e) NDIRECT 1

/-- The blocks of the file behind entry `e`. -/
def fileBlocks (g : Store) (e : ℕ) : List ℕ :=
  g.direct e ++ g.listed (g.addrs e NDIRECT) ++ g.indirect e

/-- The blocks that `itrunc` comes to: it reads the indirect block behind the direct ones. -/
def visited (sb : Superblock) (g : Store) (e : ℕ) : List ℕ :=
  g.direct e ++ (g.giveAll sb (g.direct e)).listed (g.addrs e NDIRECT) ++ g.indirect e

/-- The blocks of the list are free and the inode is empty. -/
def truncated (sb : Superblock) (g : Store) (e : ℕ) (l : List ℕ) : Store :=
  ((g.giveAll sb l).modify e Dinode.emptied).written sb e

theorem lock_modify {m : Dinode → Dinode} : (g.lock i e).modify e m = (g.modify e m).lock i e := rfl

end Store

theorem Dinode.emptied_eq (d : Dinode) :
    ({ (d.clear 0 NDIRECT).clear NDIRECT 1 with size := 0 } : Dinode) = d.emptied := by
  unfold clear emptied
  simp only [Dinode.mk.injEq, true_and]
  funext j
  split_ifs <;> first | rfl | omega

theorem indirect_eq : g.indirect e =
    if g.addrs e NDIRECT = 0 then [] else [g.addrs e NDIRECT] := by
  unfold Store.indirect
  rw [nonzero_succ, nonzero_zero, List.append_nil]
  by_cases h : g.addrs e NDIRECT = 0
  · simp [h]
  · simp [h]

/-- The second half of `itrunc`. -/
theorem truncTable_eq_some (hheld : g.held = []) :
    (when (g.addrs e NDIRECT ≠ 0) do
      let a ← call (.bread ROOTDEV (g.addrs e NDIRECT))
      truncIndirect sb a NINDIRECT 0
      call (.brelse ROOTDEV (g.addrs e NDIRECT))
      bfree sb ROOTDEV (g.addrs e NDIRECT)
      update e fun d => { d with addrs := Function.update d.addrs NDIRECT 0 } : FsM Unit).exec
        (Store.perform i) g = some ((), g') ↔
      g.Releasable sb (g.listed (g.addrs e NDIRECT) ++ g.indirect e) ∧
      (∀ a ∈ g.listed (g.addrs e NDIRECT), BBLOCK a sb ≠ g.addrs e NDIRECT) ∧
      g' = (g.giveAll sb (g.listed (g.addrs e NDIRECT) ++ g.indirect e)).modify e
        (Dinode.clear NDIRECT 1) := by
  unfold when Store.listed
  rw [indirect_eq]
  by_cases h0 : g.addrs e NDIRECT = 0
  · have hsame : g.modify e (Dinode.clear NDIRECT 1) = g := by
      have haddr : (g.kernel.inode e).copy.addrs NDIRECT = 0 := h0
      refine Store.modify_self ?_
      rw [← Dinode.clear_succ, Dinode.clear_zero, ← haddr, Function.update_eq_self]
    rw [if_neg (not_not.mpr h0), if_pos h0, if_pos h0, List.append_nil, Store.giveAll, hsame]
    constructor
    · intro h
      cases h
      exact ⟨Store.releasable_nil, fun a ha => (by cases ha), rfl⟩
    · rintro ⟨-, -, rfl⟩
      rfl
  · have hread : g.perform i (.bread ROOTDEV (g.addrs e NDIRECT)) = some
        (g.block ROOTDEV (g.addrs e NDIRECT), g.hold ROOTDEV (g.addrs e NDIRECT)) :=
      Store.perform_bread (by simp [hheld])
    have hclear (h : Store) : h.modify e (fun d => { d with
        addrs := Function.update d.addrs NDIRECT 0 }) = h.modify e (Dinode.clear NDIRECT 1) := by
      refine Store.modify_congr ?_
      rw [← Dinode.clear_succ, Dinode.clear_zero]
    obtain ⟨l, hl⟩ : ∃ l, nonzero (fun j => word (g.block ROOTDEV (g.addrs e NDIRECT)) (4 * j)) 0
        NINDIRECT = l := ⟨_, rfl⟩
    rw [if_pos h0, if_neg h0, if_neg h0, exec_bind_of_eq (exec_call.trans hread), hl,
      exec_bind_eq_some, Store.releasable_append, Store.giveAll_append, Store.releasable_cons]
    have hone (h : Store) : h.giveAll sb [g.addrs e NDIRECT] = h.give sb (g.addrs e NDIRECT) := rfl
    rw [hone]
    constructor
    · rintro ⟨⟨⟩, g₁, htable, hrest⟩
      obtain ⟨hrel, rfl⟩ := truncIndirect_eq_some.mp htable
      rw [hl] at hrel hrest
      obtain ⟨hrel', hne⟩ := Store.releasable_hold.mp hrel
      rw [exec_bind_of_eq (exec_call.trans (Store.perform_brelse _ _)), Store.giveAll_hold,
        Store.release_hold, exec_bind_eq_some] at hrest
      obtain ⟨⟨⟩, g₂, hfree, hupdate⟩ := hrest
      obtain ⟨hhead, rfl⟩ := bfree_eq_some.mp hfree
      rw [exec_update, hclear] at hupdate
      cases hupdate
      exact ⟨⟨hrel', hhead, Store.releasable_nil⟩, hne, rfl⟩
    · rintro ⟨⟨hrel, hhead, -⟩, hne, rfl⟩
      refine ⟨(), _, truncIndirect_eq_some.mpr ⟨?_, rfl⟩, ?_⟩
      · rw [hl]
        exact Store.releasable_hold.mpr ⟨hrel, hne⟩
      · rw [hl, exec_bind_of_eq (exec_call.trans (Store.perform_brelse _ _)), Store.giveAll_hold,
          Store.release_hold, exec_bind_of_eq (exec_bfree hhead.1 hhead.2), exec_update, hclear]

/-- `itrunc` comes to its end when `bfree` does for every block it comes to. -/
theorem itrunc_eq_some (hheld : g.held = []) (hholder : g.kernel.holder e = none) :
    (itrunc sb e).exec (Store.perform i) g = some ((), g') ↔
      g.Releasable sb (g.visited sb e) ∧
      (∀ a ∈ (g.giveAll sb (g.direct e)).listed (g.addrs e NDIRECT),
        BBLOCK a sb ≠ g.addrs e NDIRECT) ∧ g' = g.truncated sb e (g.visited sb e) := by
  obtain ⟨h, hh⟩ : ∃ h, h = ((g.giveAll sb (g.direct e)).modify e
    (Dinode.clear 0 NDIRECT)).lock i e := ⟨_, rfl⟩
  have hheld' : h.held = [] := by
    rw [hh]
    exact Store.giveAll_rest.2.1.trans hheld
  have hkept (j : ℕ) (hj : NDIRECT ≤ j) : h.addrs e j = g.addrs e j := by
    have hkernel : (g.giveAll sb (g.direct e)).kernel = g.kernel := Store.giveAll_rest.1
    simp only [hh, Store.addrs, Store.lock, Store.modify, Kernel.setInode, Function.update_self,
      Dinode.clear, hkernel]
    exact if_neg (by omega)
  have hlisted : h.listed (h.addrs e NDIRECT) =
      (g.giveAll sb (g.direct e)).listed (g.addrs e NDIRECT) := by
    rw [hkept NDIRECT le_rfl, hh]
    rfl
  have hindirect : h.indirect e = g.indirect e := nonzero_congr fun j hj _ => hkept j hj
  have hrel : h.Releasable sb (h.listed (h.addrs e NDIRECT) ++ h.indirect e) ↔
      (g.giveAll sb (g.direct e)).Releasable sb ((g.giveAll sb (g.direct e)).listed
        (g.addrs e NDIRECT) ++ g.indirect e) := by
    rw [hlisted, hindirect, hh]
    exact Iff.rfl
  have hend : ((h.giveAll sb (h.listed (h.addrs e NDIRECT) ++ h.indirect e)).modify e
      (Dinode.clear NDIRECT 1)).modify e (fun d => { d with size := 0 }) =
        (((g.giveAll sb (g.visited sb e)).modify e Dinode.emptied).lock i e) := by
    rw [hlisted, hindirect, hh, Store.giveAll_lock, Store.giveAll_modify, Store.visited,
      List.append_assoc, Store.giveAll_append (l := g.direct e), Store.lock_modify,
      Store.lock_modify, Store.modify_modify, Store.modify_modify]
    exact congrArg (fun x : Store => x.lock i e) (Store.modify_congr (Dinode.emptied_eq _))
  have hdirect : ((g.lock i e).giveAll sb (nonzero ((g.lock i e).addrs e) 0 NDIRECT)).modify e
      (Dinode.clear 0 NDIRECT) = h := by
    rw [Store.giveAll_lock, hh]
    rfl
  have hlast : (do
      update e fun d => { d with size := 0 }
      iupdate sb e
      call (.V (.inode e)) : FsM Unit).exec (Store.perform i)
        ((h.giveAll sb (h.listed (h.addrs e NDIRECT) ++ h.indirect e)).modify e
          (Dinode.clear NDIRECT 1)) = some ((), g.truncated sb e (g.visited sb e)) := by
    obtain ⟨x, hx⟩ : ∃ x, x = (g.giveAll sb (g.visited sb e)).modify e Dinode.emptied := ⟨_, rfl⟩
    have hxheld : (x.lock i e).held = [] := by
      rw [hx]
      exact Store.giveAll_rest.2.1.trans hheld
    have hxholder : (x.written sb e).kernel.holder e = none := by
      rw [hx]
      exact (congrArg (fun K : Kernel => K.holder e) Store.giveAll_rest.1).trans hholder
    rw [exec_bind_of_eq exec_update, hend, ← hx, exec_bind_of_eq (exec_iupdate hxheld)]
    have hV : (x.lock i e).written sb e = (x.written sb e).lock i e := rfl
    rw [hV, exec_call, Store.perform_V, Store.unlock_lock hxholder, Store.truncated, ← hx]
  unfold itrunc
  rw [exec_bind_of_eq (exec_call.trans (Store.perform_P hholder)), exec_bind_eq_some,
    Store.visited, List.append_assoc, Store.releasable_append]
  constructor
  · rintro ⟨⟨⟩, g₁, hrun, hrest⟩
    obtain ⟨hfirst, rfl⟩ := truncDirect_eq_some.mp hrun
    rw [hdirect, exec_bind_of_eq (exec_call.trans (Store.perform_inode e)),
      exec_bind_eq_some] at hrest
    obtain ⟨⟨⟩, g₂, htable, hrest⟩ := hrest
    obtain ⟨hsecond, hne, rfl⟩ := (truncTable_eq_some hheld').mp htable
    rw [hlisted, hkept NDIRECT le_rfl] at hne
    rw [hlast] at hrest
    cases hrest
    rw [Store.visited, List.append_assoc]
    exact ⟨⟨hfirst, hrel.mp hsecond⟩, hne, rfl⟩
  · rintro ⟨⟨hfirst, hsecond⟩, hne, rfl⟩
    refine ⟨(), _, truncDirect_eq_some.mpr ⟨hfirst, rfl⟩, ?_⟩
    rw [hdirect, exec_bind_of_eq (exec_call.trans (Store.perform_inode e))]
    have hne' : ∀ a ∈ h.listed (h.addrs e NDIRECT), BBLOCK a sb ≠ h.addrs e NDIRECT := by
      rw [hlisted, hkept NDIRECT le_rfl]
      exact hne
    have htable := (truncTable_eq_some (i := i) hheld').mpr ⟨hrel.mpr hsecond, hne', rfl⟩
    refine exec_bind_eq_some.mpr ⟨(), _, htable, ?_⟩
    rw [hlast, Store.visited, List.append_assoc]

/-! ### The bits on disk -/

namespace Store

theorem give_saved (h : b = BBLOCK a sb ∨ g.disk b = g.block ROOTDEV b) :
    (g.give sb a).disk b = (g.give sb a).block ROOTDEV b := by
  by_cases hb : b = BBLOCK a sb
  · subst hb
    exact Function.update_self ..
  · rw [give_block hb, ← h.resolve_left hb]
    exact Function.update_of_ne hb ..

theorem giveAll_saved (h : (∃ a ∈ l, b = BBLOCK a sb) ∨ g.disk b = g.block ROOTDEV b) :
    (g.giveAll sb l).disk b = (g.giveAll sb l).block ROOTDEV b := by
  induction l generalizing g with
  | nil =>
    rcases h with ⟨a, ha, -⟩ | h
    · cases ha
    · exact h
  | cons a l ih =>
    refine ih (g := g.give sb a) ?_
    rcases h with ⟨c, hc, hb⟩ | h
    · rcases List.mem_cons.mp hc with rfl | hc
      · exact .inr (give_saved (.inl hb))
      · exact .inl ⟨c, hc, hb⟩
    · exact .inr (give_saved (.inr h))

end Store

/-! ### Truncation -/

/-- The file behind entry `e` has data blocks that are in use, each of them once. -/
structure Store.Owns (sb : Superblock) (g : Store) (e : ℕ) : Prop where
  nodup : (g.fileBlocks e).Nodup
  used : ∀ a ∈ g.fileBlocks e, ¬ Metadata sb a ∧ a < sb.nblocks ∧ g.isFree sb a = false

/-- The bits of the blocks `l` are clear, in the buffers and on disk, and the inode is empty.
Nothing else has changed. -/
structure Truncated (sb : Superblock) (e : ℕ) (l : List ℕ) (g g' : Store) : Prop where
  bit : ∀ c, g'.isFree sb c = (g.isFree sb c || decide (c ∈ l))
  saved : ∀ c ∈ l, g'.disk (BBLOCK c sb) = g'.block ROOTDEV (BBLOCK c sb)
  block : ∀ dev b, b ≠ IBLOCK (g.kernel.inode e).inum sb → (∀ c ∈ l, b ≠ BBLOCK c sb) →
    g'.block dev b = g.block dev b
  kernel : g'.kernel = g.kernel.setInode e { g.kernel.inode e with
    copy := (g.kernel.inode e).copy.emptied }
  size : (dinodeAt (g'.disk (IBLOCK (g.kernel.inode e).inum sb))
    ((g.kernel.inode e).inum % IPB)).size = 0
  addrs : ∀ j ≤ NDIRECT, (dinodeAt (g'.disk (IBLOCK (g.kernel.inode e).inum sb))
    ((g.kernel.inode e).inum % IPB)).addrs j = 0
  dinodes : ∀ inum < sb.ninodes, inum ≠ (g.kernel.inode e).inum → ∀ x < 64,
    g'.block ROOTDEV (IBLOCK inum sb) (64 * (inum % IPB) + x) =
      g.block ROOTDEV (IBLOCK inum sb) (64 * (inum % IPB) + x)
  held : g'.held = g.held

theorem dinodeBytes_length (d : Dinode) : (dinodeBytes d).length = 64 := by
  simp [dinodeBytes, shortBytes, List.length_flatMap, NDIRECT]

theorem BBLOCK_ne (hl : Layout sb) {inum : ℕ} (hinum : inum < sb.ninodes) :
    IBLOCK inum sb ≠ BBLOCK c sb := by
  have hlt := hl.IBLOCK_lt hinum
  have hle : sb.bmapstart ≤ BBLOCK c sb := Nat.le_add_left _ _
  omega

/-- The store that `itrunc` leaves behind. -/
theorem truncated_spec (hl : Layout sb) (hinum : (g.kernel.inode e).inum < sb.ninodes) :
    Truncated sb e l g (g.truncated sb e l) := by
  obtain ⟨h, hh⟩ : ∃ h, h = (g.giveAll sb l).modify e Dinode.emptied := ⟨_, rfl⟩
  obtain ⟨inum, hi⟩ : ∃ inum, (g.kernel.inode e).inum = inum := ⟨_, rfl⟩
  rw [hi] at hinum
  have hkernel : h.kernel = g.kernel.setInode e { g.kernel.inode e with
      copy := (g.kernel.inode e).copy.emptied } := by
    have hrest : (g.giveAll sb l).kernel = g.kernel := Store.giveAll_rest.1
    rw [hh, ← hrest]
    rfl
  have hinum' : (h.kernel.inode e).inum = inum := by
    rw [hkernel, ← hi]
    simp [Kernel.setInode]
  have hcopy : (h.kernel.inode e).copy = (g.kernel.inode e).copy.emptied := by
    rw [hkernel]
    simp [Kernel.setInode]
  have hself : (h.written sb e).block ROOTDEV (IBLOCK inum sb) =
      writeAt (h.block ROOTDEV (IBLOCK inum sb)) (64 * (inum % IPB))
        (dinodeBytes (g.kernel.inode e).copy.emptied) := by
    rw [← hinum', ← hcopy]
    exact Store.written_self
  have hother {dev b : ℕ} (hb : b ≠ IBLOCK inum sb) :
      (h.written sb e).block dev b = (g.giveAll sb l).block dev b := by
    rw [Store.written_block (hinum' ▸ hb), hh]
    rfl
  have hdisk : (h.written sb e).disk = Function.update h.disk (IBLOCK inum sb)
      ((h.written sb e).block ROOTDEV (IBLOCK inum sb)) := by
    rw [Store.written_disk, hinum']
  have hsaved : (h.written sb e).disk (IBLOCK inum sb) =
      writeAt (h.block ROOTDEV (IBLOCK inum sb)) (64 * (inum % IPB))
        (dinodeBytes (g.kernel.inode e).copy.emptied) := by
    rw [hdisk, Function.update_self, hself]
  have htruncated : g.truncated sb e l = h.written sb e := by
    rw [hh]
    rfl
  obtain ⟨hsize, haddrs⟩ := dinodeAt_dinodeBytes (h.block ROOTDEV (IBLOCK inum sb))
    (inum % IPB) (g.kernel.inode e).copy.emptied
  rw [htruncated]
  constructor
  case bit =>
    intro c
    have hne : BBLOCK c sb ≠ IBLOCK inum sb := (BBLOCK_ne hl hinum).symm
    rw [← Store.giveAll_isFree]
    unfold Store.isFree
    rw [hother hne]
  case saved =>
    intro c hc
    have hne : BBLOCK c sb ≠ IBLOCK inum sb := (BBLOCK_ne hl hinum).symm
    rw [hdisk, Function.update_of_ne hne, hother hne, ← Store.giveAll_saved (.inl ⟨c, hc, rfl⟩), hh]
    rfl
  case block =>
    intro dev b hb hl
    rw [hi] at hb
    rw [hother hb, Store.giveAll_block hl]
  case kernel => exact hkernel
  case size =>
    rw [hi, hsaved, hsize]
    rfl
  case addrs =>
    intro j hj
    rw [hi, hsaved, haddrs j hj]
    simp [Dinode.emptied, hj]
  case dinodes =>
    intro other hlt hne x hx
    have hgiven : (g.giveAll sb l).block ROOTDEV (IBLOCK other sb) =
        g.block ROOTDEV (IBLOCK other sb) := Store.giveAll_block (fun a _ => BBLOCK_ne hl hlt) _
    by_cases hblk : IBLOCK other sb = IBLOCK inum sb
    · have hslot : other % IPB ≠ inum % IPB := by
        rw [hi] at hne
        simp only [IBLOCK, IPB, BSIZE] at *
        omega
      rw [hblk, hself, writeAt_of_disjoint, ← hblk, ← hgiven, hh]
      · rfl
      · rw [dinodeBytes_length]
        omega
    · rw [hother hblk, hgiven]
  case held =>
    rw [hh]
    exact Store.giveAll_rest.2.1

theorem mem_indirect : a ∈ g.indirect e ↔ a = g.addrs e NDIRECT ∧ a ≠ 0 := by
  rw [indirect_eq]
  by_cases h : g.addrs e NDIRECT = 0
  · simp [h]
  · simp only [h, if_false, List.mem_singleton]
    exact ⟨fun ha => ⟨ha, ha ▸ h⟩, fun ha => ha.1⟩

/-- The table has not changed when no direct block has its bit in the indirect block. -/
theorem visited_eq (h : ∀ a ∈ g.direct e, BBLOCK a sb ≠ g.addrs e NDIRECT) :
    g.visited sb e = g.fileBlocks e := by
  unfold Store.visited Store.fileBlocks Store.listed
  rw [Store.giveAll_block fun a ha => (h a ha).symm]

/-- The indirect block holds no bits of the bitmap. -/
theorem Store.Owns.bitmap_ne (h : g.Owns sb e) (hl : Layout sb) (hmem : a ∈ g.fileBlocks e) :
    BBLOCK a sb ≠ g.addrs e NDIRECT := by
  intro hblk
  have hle : sb.bmapstart ≤ BBLOCK a sb := Nat.le_add_left _ _
  have hpos := hl.bmapstart_ne_zero
  have hind : BBLOCK a sb ∈ g.fileBlocks e :=
    List.mem_append_right _ (mem_indirect.mpr ⟨hblk, by omega⟩)
  exact (h.used _ hind).1 (Fs.BBLOCK_lt (h.used a hmem).2.1)

/-- Truncation of a file with data blocks of its own frees exactly these blocks and empties the
inode. -/
theorem itrunc_exact (sb : Superblock) (i e : ℕ) (g : Store) (hl : Layout sb)
    (hheld : g.held = []) (hholder : g.kernel.holder e = none)
    (hinum : (g.kernel.inode e).inum < sb.ninodes) (h : g.Owns sb e) :
    ∃ g', (itrunc sb e).exec (Store.perform i) g = some ((), g') ∧
      Truncated sb e (g.fileBlocks e) g g' := by
  have hdirect : ∀ a ∈ g.direct e, BBLOCK a sb ≠ g.addrs e NDIRECT := fun a ha =>
    h.bitmap_ne hl (List.mem_append_left _ (List.mem_append_left _ ha))
  have hlisted : (g.giveAll sb (g.direct e)).listed (g.addrs e NDIRECT) =
      g.listed (g.addrs e NDIRECT) := by
    unfold Store.listed
    rw [Store.giveAll_block fun a ha => (hdirect a ha).symm]
  have hrel : g.Releasable sb (g.fileBlocks e) :=
    ⟨h.nodup, fun a ha => ⟨by simp [hheld], (h.used a ha).2.2⟩⟩
  have hrun : (itrunc sb e).exec (Store.perform i) g =
      some ((), g.truncated sb e (g.fileBlocks e)) := by
    apply (itrunc_eq_some hheld hholder).mpr
    rw [visited_eq hdirect, hlisted]
    exact ⟨hrel, fun a ha =>
      h.bitmap_ne hl (List.mem_append_left _ (List.mem_append_right _ ha)), rfl⟩
  exact ⟨_, hrun, truncated_spec hl hinum⟩

/-- A file system of `mkfs` whose inode 2 has the direct block 1058 behind a hole, and the
indirect block 1059, which lists block 1060 behind a hole. -/
def holesDisk : Store where
  block _ b := if b = 1026 then fun x => if x = 132 then 28 else 0
    else if b = 1059 then fun x => if x = 4 then 36 else if x = 5 then 4 else 0
    else fun _ => 0
  disk _ := fun _ => 0
  held := []
  kernel := { bootKernel with
    inode := fun _ => ⟨ROOTDEV, 2, 1, true, ⟨T_FILE, 0, 0, 1, 14 * BSIZE,
      fun k => if k = 1 then 1058 else if k = NDIRECT then 1059 else 0⟩⟩ }
  oracle _ := answers [] fun _ => 0

theorem holesDisk_layout : Layout Fs.mkfsSb := ⟨by decide, by decide, by decide, by decide⟩

theorem itrunc_exact_holes : ∃ g',
    (itrunc Fs.mkfsSb 0).exec (Store.perform 0) holesDisk = some ((), g') ∧
      Truncated Fs.mkfsSb 0 [1058, 1060, 1059] holesDisk g' := by
  have hlisted : holesDisk.listed 1059 = [1060] := by decide +kernel
  have hblocks : holesDisk.fileBlocks 0 = [1058, 1060, 1059] := by
    have hdirect : holesDisk.direct 0 = [1058] := by decide
    have hindirect : holesDisk.indirect 0 = [1059] := by decide
    have haddr : holesDisk.addrs 0 NDIRECT = 1059 := rfl
    rw [Store.fileBlocks, hdirect, haddr, hlisted, hindirect]
    rfl
  have howns : holesDisk.Owns Fs.mkfsSb 0 := by
    constructor
    · rw [hblocks]
      decide
    · rw [hblocks]
      intro a ha
      unfold Metadata
      fin_cases ha <;> decide
  rw [← hblocks]
  exact itrunc_exact Fs.mkfsSb 0 0 holesDisk holesDisk_layout rfl rfl (by decide) howns

end Zrhos.Sysfile
