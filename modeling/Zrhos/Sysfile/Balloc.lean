import Zrhos.Sysfile.Store

/-! `balloc` of a task that runs alone: it takes the first free block of the bitmap. -/
namespace Zrhos.Sysfile
open Turns
open Fs (Block Superblock BSIZE ROOTDEV BPB BBLOCK getDatastart bitClear setBit)

variable {sb : Superblock} {i a b c : ℕ} {g : Store} {data : Block}

/-! ### Bits -/

theorem bitClear_eq : bitClear data c = !(data (c % BPB / 8)).testBit (c % BPB % 8) := by
  simp only [bitClear, Nat.one_shiftLeft, Nat.and_two_pow]
  cases (data (c % BPB / 8)).testBit (c % BPB % 8) <;> simp

/-- Setting a bit of a bitmap block changes that bit only. -/
theorem bitClear_setBit : bitClear (setBit data a) c = (bitClear data c && decide (c % BPB ≠ a % BPB)) := by
  rw [bitClear_eq, bitClear_eq]
  unfold setBit
  by_cases hbyte : c % BPB / 8 = a % BPB / 8
  · rw [hbyte, Function.update_self, Nat.testBit_or, Nat.one_shiftLeft, Nat.testBit_two_pow]
    by_cases hbit : c % BPB = a % BPB
    · simp [hbit]
    · have hne : a % BPB % 8 ≠ c % BPB % 8 := by omega
      simp [hbit, hne]
  · have hne : c % BPB ≠ a % BPB := fun h => hbyte (h ▸ rfl)
    rw [Function.update_of_ne hbyte]
    simp [hne]

/-! ### The free blocks -/

namespace Store

def isFree (sb : Superblock) (g : Store) (a : ℕ) : Bool := bitClear (g.block ROOTDEV (BBLOCK a sb)) a

/-- The free ones among the `n` blocks from `k` on. -/
def freeFrom (sb : Superblock) (g : Store) (k n : ℕ) : List ℕ := (List.range' k n).filter (g.isFree sb)

/-- The free blocks in the order in which `balloc` comes to them. -/
def freeBlocks (sb : Superblock) (g : Store) : List ℕ :=
  g.freeFrom sb (getDatastart sb) (sb.nblocks - getDatastart sb)

/-- `balloc` has taken block `a`. -/
def take (sb : Superblock) (g : Store) (a : ℕ) : Store :=
  let h := g.setBlock ROOTDEV (BBLOCK a sb) (setBit (g.block ROOTDEV (BBLOCK a sb)) a)
  { h with disk := Function.update g.disk (BBLOCK a sb) (h.block ROOTDEV (BBLOCK a sb)) }

theorem take_block (h : b ≠ BBLOCK a sb) (dev : ℕ) : (g.take sb a).block dev b = g.block dev b :=
  setBlock_of_ne _ fun he => h (Prod.mk.inj he).2

@[simp] theorem take_kernel : (g.take sb a).kernel = g.kernel := rfl

@[simp] theorem take_held : (g.take sb a).held = g.held := rfl

@[simp] theorem take_oracle : (g.take sb a).oracle = g.oracle := rfl

theorem take_isFree : (g.take sb a).isFree sb c = (g.isFree sb c && decide (c ≠ a)) := by
  unfold isFree
  by_cases hblk : BBLOCK c sb = BBLOCK a sb
  · have hsame : (g.take sb a).block ROOTDEV (BBLOCK c sb) =
        setBit (g.block ROOTDEV (BBLOCK a sb)) a := by
      rw [hblk]
      exact setBlock_self (g := g) ROOTDEV (BBLOCK a sb) _
    rw [hsame, bitClear_setBit, hblk]
    have hiff : c % BPB ≠ a % BPB ↔ c ≠ a := by
      have hdiv : c / BPB = a / BPB := by
        unfold BBLOCK at hblk
        omega
      refine not_congr ⟨fun hmod => ?_, fun h => h ▸ rfl⟩
      rw [← Nat.div_add_mod c BPB, ← Nat.div_add_mod a BPB, hdiv, hmod]
    rw [decide_eq_decide.mpr hiff]
  · have hne : c ≠ a := fun h => hblk (h ▸ rfl)
    rw [take_block hblk, decide_eq_true hne, Bool.and_true]

/-- The buffer that the search loops hold. -/
def holdBuf (g : Store) : Option (ℕ × Block) → Store
  | none => g
  | some b => g.hold ROOTDEV b.1

end Store

/-! ### balloc -/

theorem exec_nextBuf_bitmap {k : ℕ} {o : Option (ℕ × Block)} (hheld : g.held = [])
    (ho : ∀ y ∈ o, y.1 = BBLOCK (k - 1) sb ∧ y.2 = g.block ROOTDEV y.1) :
    (nextBuf ROOTDEV (BBLOCK k sb) o).exec (Store.perform i) (g.holdBuf o) =
      some ((BBLOCK k sb, g.block ROOTDEV (BBLOCK k sb)), g.holdBuf (some (BBLOCK k sb, data))) := by
  have hread : g.perform i (.bread ROOTDEV (BBLOCK k sb)) =
      some (g.block ROOTDEV (BBLOCK k sb), g.hold ROOTDEV (BBLOCK k sb)) :=
    Store.perform_bread (by simp [hheld])
  cases o with
  | none =>
    dsimp only [nextBuf, Store.holdBuf]
    rw [exec_bind_of_eq (exec_call.trans hread)]
    rfl
  | some y =>
    obtain ⟨blk, bytes⟩ := y
    obtain ⟨hblk, hbytes⟩ := ho (blk, bytes) rfl
    dsimp only at hblk hbytes
    subst hblk hbytes
    dsimp only [nextBuf, Store.holdBuf]
    split_ifs with hlt
    · rw [exec_bind_of_eq (exec_call.trans (Store.perform_brelse _ _)), Store.release_hold,
        exec_bind_of_eq (exec_call.trans hread)]
      rfl
    · have hle : BBLOCK (k - 1) sb ≤ BBLOCK k sb :=
        Nat.add_le_add_right (Nat.div_le_div_right (Nat.sub_le k 1)) _
      have heq : BBLOCK (k - 1) sb = BBLOCK k sb := by omega
      rw [heq]
      rfl

theorem exec_ballocLoop {n k : ℕ} {o : Option (ℕ × Block)} (hheld : g.held = [])
    (ho : ∀ y ∈ o, y.1 = BBLOCK (k - 1) sb ∧ y.2 = g.block ROOTDEV y.1) :
    (ballocLoop sb n k o).exec (Store.perform i) (g.holdBuf o) =
      (g.freeFrom sb k n).head?.map fun a => (a, g.take sb a) := by
  induction n generalizing k o with
  | zero => rfl
  | succ n ih =>
    unfold ballocLoop
    rw [exec_bind_of_eq (exec_nextBuf_bitmap hheld ho)]
    unfold Store.freeFrom
    rw [List.range'_succ]
    by_cases hfree : g.isFree sb k = true
    · have hclear : bitClear (g.block ROOTDEV (BBLOCK k sb)) k = true := hfree
      rw [if_pos hclear, List.filter_cons_of_pos hfree]
      simp [Store.holdBuf, Store.take, Store.setBlock, Store.hold, Store.release]
    · have hclear : ¬ bitClear (g.block ROOTDEV (BBLOCK k sb)) k = true := hfree
      rw [if_neg hclear, List.filter_cons_of_neg hfree]
      refine ih fun y hy => ?_
      cases hy
      exact ⟨rfl, rfl⟩

theorem exec_balloc (hheld : g.held = []) : (balloc sb).exec (Store.perform i) g =
    (g.freeBlocks sb).head?.map fun a => (a, g.take sb a) :=
  exec_ballocLoop (o := none) hheld fun y hy => by cases hy

end Zrhos.Sysfile
