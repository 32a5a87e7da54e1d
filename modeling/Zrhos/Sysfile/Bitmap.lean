import Zrhos.Lib.FirstFit
import Zrhos.Sysfile.Balloc
import Zrhos.Sysfile.Runs

/-! The bitmap as a set of free blocks. `balloc` and `bfree` are a first-fit allocator on it,
and the allocator of `mkfs` agrees with them. -/
namespace Zrhos.Sysfile
open Turns FirstFit
open Fs (Block Superblock BSIZE ROOTDEV BPB BBLOCK getDatastart bitClear setBit mkfsBalloc
  mkfsBallocLoop)

variable {sb : Superblock} {i a b c k n : ℕ} {g g' : Store} {data : Block}
  {tr : List (Event ℕ)}

/-! ### Releasing a block -/

theorem bitClear_clearBit :
    bitClear (clearBit data a) c = (bitClear data c || decide (c % BPB = a % BPB)) := by
  rw [bitClear_eq, bitClear_eq]
  unfold clearBit
  by_cases hbyte : c % BPB / 8 = a % BPB / 8
  · rw [hbyte, Function.update_self, Nat.testBit_ldiff, Nat.one_shiftLeft, Nat.testBit_two_pow]
    by_cases hbit : c % BPB = a % BPB
    · simp [hbit]
    · have hne : a % BPB % 8 ≠ c % BPB % 8 := by omega
      simp [hbit, hne]
  · have hne : c % BPB ≠ a % BPB := fun h => hbyte (h ▸ rfl)
    rw [Function.update_of_ne hbyte]
    simp [hne]

/-- Clearing a bit that was just set. -/
theorem clearBit_setBit (h : bitClear data a = true) : clearBit (setBit data a) a = data := by
  have hclear : (data (a % BPB / 8)).testBit (a % BPB % 8) = false := by
    rw [bitClear_eq] at h
    simpa using h
  unfold clearBit setBit
  dsimp only
  rw [Function.update_idem, Function.update_self]
  refine (congrArg (Function.update data (a % BPB / 8)) ?_).trans (Function.update_eq_self ..)
  refine Nat.eq_of_testBit_eq fun j => ?_
  rw [Nat.testBit_ldiff, Nat.testBit_or, Nat.one_shiftLeft, Nat.testBit_two_pow]
  by_cases hj : a % BPB % 8 = j
  · subst hj
    simp [hclear]
  · simp [hj]

namespace Store

/-- `bfree` has given block `a` back. -/
def give (sb : Superblock) (g : Store) (a : ℕ) : Store :=
  let h := g.setBlock ROOTDEV (BBLOCK a sb) (clearBit (g.block ROOTDEV (BBLOCK a sb)) a)
  { h with disk := Function.update g.disk (BBLOCK a sb) (h.block ROOTDEV (BBLOCK a sb)) }

theorem give_block (h : b ≠ BBLOCK a sb) (dev : ℕ) : (g.give sb a).block dev b = g.block dev b :=
  setBlock_of_ne _ fun he => h (Prod.mk.inj he).2

@[simp] theorem give_kernel : (g.give sb a).kernel = g.kernel := rfl

@[simp] theorem give_held : (g.give sb a).held = g.held := rfl

@[simp] theorem give_oracle : (g.give sb a).oracle = g.oracle := rfl

theorem bit_eq_iff (h : BBLOCK c sb = BBLOCK a sb) : c % BPB = a % BPB ↔ c = a := by
  have hdiv : c / BPB = a / BPB := by
    unfold BBLOCK at h
    omega
  refine ⟨fun hmod => ?_, fun hca => hca ▸ rfl⟩
  rw [← Nat.div_add_mod c BPB, ← Nat.div_add_mod a BPB, hdiv, hmod]

theorem give_isFree : (g.give sb a).isFree sb c = (g.isFree sb c || decide (c = a)) := by
  unfold isFree
  by_cases hblk : BBLOCK c sb = BBLOCK a sb
  · have hsame : (g.give sb a).block ROOTDEV (BBLOCK c sb) =
        clearBit (g.block ROOTDEV (BBLOCK a sb)) a := by
      rw [hblk]
      exact setBlock_self (g := g) ROOTDEV (BBLOCK a sb) _
    rw [hsame, bitClear_clearBit, hblk, decide_eq_decide.mpr (bit_eq_iff hblk)]
  · have hne : c ≠ a := fun h => hblk (h ▸ rfl)
    rw [give_block hblk, decide_eq_false hne, Bool.or_false]

end Store

/-- The buffer of the bitmap block must not be locked. -/
theorem exec_bfree (hnot : (ROOTDEV, BBLOCK a sb) ∉ g.held) (h : g.isFree sb a = false) :
    (bfree sb ROOTDEV a).exec (Store.perform i) g = some ((), g.give sb a) := by
  have hread : g.perform i (.bread ROOTDEV (BBLOCK a sb)) =
      some (g.block ROOTDEV (BBLOCK a sb), g.hold ROOTDEV (BBLOCK a sb)) :=
    Store.perform_bread hnot
  have hclear : ¬ bitClear (g.block ROOTDEV (BBLOCK a sb)) a = true := by
    change ¬ g.isFree sb a = true
    simp [h]
  unfold bfree
  rw [exec_bind_of_eq (exec_call.trans hread), if_neg hclear]
  simp [Store.give, Store.setBlock, Store.hold, Store.release]

/-- `bfree` panics on a block that is free and waits for a buffer that is locked. -/
theorem bfree_eq_some : (bfree sb ROOTDEV a).exec (Store.perform i) g = some ((), g') ↔
    ((ROOTDEV, BBLOCK a sb) ∉ g.held ∧ g.isFree sb a = false) ∧ g' = g.give sb a := by
  constructor
  · intro h
    by_cases hmem : (ROOTDEV, BBLOCK a sb) ∈ g.held
    · have hwait : g.perform i (.bread ROOTDEV (BBLOCK a sb)) = none := if_pos hmem
      unfold bfree at h
      rw [exec_bind, exec_call, hwait] at h
      cases h
    by_cases hfree : g.isFree sb a = true
    · have hclear : bitClear (g.block ROOTDEV (BBLOCK a sb)) a = true := hfree
      unfold bfree at h
      rw [exec_bind_of_eq (exec_call.trans (Store.perform_bread hmem)), if_pos hclear] at h
      cases h
    have hused : g.isFree sb a = false := by simpa using hfree
    rw [exec_bfree hmem hused] at h
    cases h
    exact ⟨⟨hmem, hused⟩, rfl⟩
  · rintro ⟨⟨hnot, hused⟩, rfl⟩
    exact exec_bfree hnot hused

/-- All bytes are as before the allocation. -/
theorem give_take (h : g.isFree sb a = true) : ((g.take sb a).give sb a).block = g.block := by
  funext dev b
  by_cases hdev : dev = ROOTDEV
  · by_cases hb : b = BBLOCK a sb
    · subst hdev hb
      have hset : (g.take sb a).block ROOTDEV (BBLOCK a sb) =
          setBit (g.block ROOTDEV (BBLOCK a sb)) a :=
        Store.setBlock_self (g := g) ROOTDEV (BBLOCK a sb) _
      have hclear : ((g.take sb a).give sb a).block ROOTDEV (BBLOCK a sb) =
          clearBit ((g.take sb a).block ROOTDEV (BBLOCK a sb)) a :=
        Store.setBlock_self (g := g.take sb a) ROOTDEV (BBLOCK a sb) _
      rw [hclear, hset, clearBit_setBit h]
    · rw [Store.give_block hb, Store.take_block hb]
  · have hne (x : ℕ) : (dev, b) ≠ (ROOTDEV, x) := fun he => hdev (Prod.mk.inj he).1
    exact (Store.setBlock_of_ne (g := g.take sb a) _ (hne _)).trans
      (Store.setBlock_of_ne (g := g) _ (hne _))

/-! ### Data blocks -/

/-- The data blocks. -/
def DataBlock (sb : Superblock) (a : ℕ) : Prop := getDatastart sb ≤ a ∧ a < sb.nblocks

/-- The data blocks whose bit is clear. -/
def freeSet (sb : Superblock) (g : Store) : Set ℕ := {a | DataBlock sb a ∧ g.isFree sb a = true}

theorem mem_freeBlocks : a ∈ g.freeBlocks sb ↔ a ∈ freeSet sb g := by
  simp only [Store.freeBlocks, Store.freeFrom, List.mem_filter, List.mem_range'_1, freeSet,
    DataBlock, Set.mem_ofPred_eq]
  refine and_congr_left fun _ => ?_
  omega

theorem head_freeBlocks : (g.freeBlocks sb).head? = some a ↔ IsLeast (freeSet sb g) a := by
  have hsorted : (g.freeBlocks sb).Pairwise (· < ·) := List.Pairwise.filter _ List.pairwise_lt_range'
  constructor
  · intro h
    obtain ⟨l, hl⟩ : ∃ l, g.freeBlocks sb = a :: l := by
      cases hl : g.freeBlocks sb with
      | nil =>
        rw [hl] at h
        cases h
      | cons b l =>
        rw [hl] at h
        cases h
        exact ⟨l, rfl⟩
    refine ⟨mem_freeBlocks.mp (hl ▸ List.mem_cons_self), fun c hc => ?_⟩
    rw [hl] at hsorted
    rcases List.mem_cons.mp (hl ▸ mem_freeBlocks.mpr hc) with rfl | hmem
    · exact le_rfl
    · exact ((List.pairwise_cons.mp hsorted).1 c hmem).le
  · rintro ⟨hmem, hleast⟩
    cases hl : g.freeBlocks sb with
    | nil =>
      have hnil := mem_freeBlocks.mpr hmem
      rw [hl] at hnil
      cases hnil
    | cons b l =>
      have hb : b ∈ freeSet sb g := mem_freeBlocks.mp (hl ▸ List.mem_cons_self)
      have hle := hleast hb
      rw [hl] at hsorted
      rcases List.mem_cons.mp (hl ▸ mem_freeBlocks.mpr hmem) with rfl | hmem'
      · rfl
      · have := (List.pairwise_cons.mp hsorted).1 a hmem'
        omega

theorem freeSet_take : freeSet sb (g.take sb a) = freeSet sb g \ {a} := by
  ext c
  simp only [freeSet, Set.mem_ofPred_eq, Set.mem_sdiff, Set.mem_singleton_iff, Store.take_isFree,
    Bool.and_eq_true, decide_eq_true_eq, and_assoc]

theorem freeSet_give (h : DataBlock sb a) : freeSet sb (g.give sb a) = insert a (freeSet sb g) := by
  ext c
  simp only [freeSet, Set.mem_ofPred_eq, Set.mem_insert_iff, Store.give_isFree, Bool.or_eq_true,
    decide_eq_true_eq]
  constructor
  · rintro ⟨hdata, hfree | rfl⟩
    · exact .inr ⟨hdata, hfree⟩
    · exact .inl rfl
  · rintro (rfl | ⟨hdata, hfree⟩)
    · exact ⟨h, .inr rfl⟩
    · exact ⟨hdata, .inl hfree⟩

/-! ### Runs of the two allocators -/

/-- A sequence of calls. `balloc` has returned the block of an allocation, and only data blocks
in use are released. -/
inductive Calls (sb : Superblock) (i : ℕ) : Store → List (Event ℕ) → Store → Prop where
  | nil {g : Store} : Calls sb i g [] g
  | balloc {g g₁ g' : Store} {a : ℕ} {tr : List (Event ℕ)} :
      (balloc sb).exec (Store.perform i) g = some (a, g₁) → Calls sb i g₁ tr g' →
      Calls sb i g (.alloc a :: tr) g'
  | bfree {g g₁ g' : Store} {a : ℕ} {tr : List (Event ℕ)} :
      DataBlock sb a → g.isFree sb a = false →
      (bfree sb ROOTDEV a).exec (Store.perform i) g = some ((), g₁) → Calls sb i g₁ tr g' →
      Calls sb i g (.free a :: tr) g'

/-- What one call does to the bits of all blocks and to the other blocks. -/
structure Changes (sb : Superblock) (a : ℕ) (free : Bool) (g g' : Store) : Prop where
  bit : g'.isFree sb a = free
  others : ∀ c, c ≠ a → g'.isFree sb c = g.isFree sb c
  block : ∀ dev b, b ≠ BBLOCK a sb → g'.block dev b = g.block dev b
  kernel : g'.kernel = g.kernel
  held : g'.held = g.held

theorem balloc_eq_some (hheld : g.held = []) :
    (balloc sb).exec (Store.perform i) g = some (a, g') ↔
      IsLeast (freeSet sb g) a ∧ g' = g.take sb a := by
  rw [exec_balloc hheld, Option.map_eq_some_iff]
  constructor
  · rintro ⟨b, hb, heq⟩
    obtain ⟨rfl, rfl⟩ := Prod.mk.inj heq
    exact ⟨head_freeBlocks.mp hb, rfl⟩
  · rintro ⟨hleast, rfl⟩
    exact ⟨a, head_freeBlocks.mpr hleast, rfl⟩

theorem changes_take : Changes sb a false g (g.take sb a) where
  bit := by simp [Store.take_isFree]
  others c hc := by simp [Store.take_isFree, hc]
  block dev b hb := Store.take_block hb dev
  kernel := rfl
  held := rfl

theorem changes_give : Changes sb a true g (g.give sb a) where
  bit := by simp [Store.give_isFree]
  others c hc := by simp [Store.give_isFree, hc]
  block dev b hb := Store.give_block hb dev
  kernel := rfl
  held := rfl

/-- The calls are runs of a first-fit allocator on the free data blocks. -/
theorem Calls.run (h : Calls sb i g tr g') (hheld : g.held = []) :
    Run (freeSet sb g) tr (freeSet sb g') ∧ g'.held = [] := by
  induction h with
  | nil => exact ⟨.nil, hheld⟩
  | balloc hcall _ ih =>
    obtain ⟨hleast, rfl⟩ := (balloc_eq_some hheld).mp hcall
    obtain ⟨hrun, hend⟩ := ih hheld
    rw [freeSet_take] at hrun
    exact ⟨.alloc hleast hrun, hend⟩
  | bfree hdata hused hcall _ ih =>
    rw [exec_bfree (by simp [hheld]) hused] at hcall
    cases hcall
    obtain ⟨hrun, hend⟩ := ih hheld
    rw [freeSet_give hdata] at hrun
    refine ⟨.free (fun hmem => ?_) hrun, hend⟩
    rw [hmem.2] at hused
    cases hused

/-! ### mkfs -/

theorem mkfsBallocLoop_step {o : Option ℕ} (image : ℕ → Block)
    (ho : ∀ blk ∈ o, blk = BBLOCK (k - 1) sb) : mkfsBallocLoop sb (n + 1) k o image =
      if bitClear (image (BBLOCK k sb)) k then
        (k, Function.update image (BBLOCK k sb) (setBit (image (BBLOCK k sb)) k))
      else mkfsBallocLoop sb n (k + 1) (some (BBLOCK k sb)) image := by
  cases o with
  | none => rfl
  | some blk =>
    have hle : BBLOCK (k - 1) sb ≤ BBLOCK k sb :=
      Nat.add_le_add_right (Nat.div_le_div_right (Nat.sub_le k 1)) _
    have heq := ho blk rfl
    have hblk : (if BBLOCK k sb > blk then BBLOCK k sb else blk) = BBLOCK k sb := by
      split_ifs <;> omega
    rw [mkfsBallocLoop, hblk]

/-- The search of `mkfs` over the blocks that the kernel sees. -/
theorem mkfsBallocLoop_eq {o : Option ℕ} (ho : ∀ blk ∈ o, blk = BBLOCK (k - 1) sb) :
    (mkfsBallocLoop sb n k o (g.block ROOTDEV)).1 = (g.freeFrom sb k n).head?.getD 0 := by
  induction n generalizing k o with
  | zero => rfl
  | succ n ih =>
    unfold Store.freeFrom
    rw [mkfsBallocLoop_step _ ho, List.range'_succ]
    by_cases hfree : g.isFree sb k = true
    · have hclear : bitClear (g.block ROOTDEV (BBLOCK k sb)) k = true := hfree
      rw [if_pos hclear, List.filter_cons_of_pos hfree]
      rfl
    · have hclear : ¬ bitClear (g.block ROOTDEV (BBLOCK k sb)) k = true := hfree
      rw [if_neg hclear, List.filter_cons_of_neg hfree]
      refine ih fun blk hblk => ?_
      cases hblk
      rfl

theorem mkfsBalloc_eq : (mkfsBalloc sb (g.block ROOTDEV)).1 = (g.freeBlocks sb).head?.getD 0 :=
  mkfsBallocLoop_eq fun blk hblk => by cases hblk

/-- Over any bitmap and any sequence of calls: `balloc` takes the lowest free data block and
sets its bit only, `bfree` clears the bit of its block only, no block is handed out twice
without a release between, and a release undoes an allocation. `mkfs` picks the same block. -/
theorem balloc_exact (sb : Superblock) (i : ℕ) (g₀ : Store) (hheld : g₀.held = [])
    (tr : List (Event ℕ)) (g : Store) (h : Calls sb i g₀ tr g) :
    (∀ a, IsLeast (freeSet sb g) a → ∃ g', (balloc sb).exec (Store.perform i) g = some (a, g') ∧
      Changes sb a false g g' ∧ (mkfsBalloc sb (g.block ROOTDEV)).1 = a ∧
      ∃ g'', (bfree sb ROOTDEV a).exec (Store.perform i) g' = some ((), g'') ∧
        g''.block = g.block) ∧
    (∀ a g', (balloc sb).exec (Store.perform i) g = some (a, g') → IsLeast (freeSet sb g) a) ∧
    (∀ a, DataBlock sb a → g.isFree sb a = false →
      ∃ g', (bfree sb ROOTDEV a).exec (Store.perform i) g = some ((), g') ∧
        Changes sb a true g g') ∧
    (∀ a tr₁ tr₂ tr₃, tr = tr₁ ++ .alloc a :: (tr₂ ++ .alloc a :: tr₃) → .free a ∈ tr₂) := by
  obtain ⟨hrun, hheld'⟩ := h.run hheld
  refine ⟨fun a hleast => ?_, fun a g' hcall => ((balloc_eq_some hheld').mp hcall).1,
    fun a _ hused => ⟨_, exec_bfree (by simp [hheld']) hused, changes_give⟩, fun a tr₁ tr₂ tr₃ heq => ?_⟩
  · have htaken : (g.take sb a).isFree sb a = false := changes_take.bit
    refine ⟨_, (balloc_eq_some hheld').mpr ⟨hleast, rfl⟩, changes_take, ?_, _,
      exec_bfree (by simp [hheld']) htaken, give_take hleast.1.2⟩
    rw [mkfsBalloc_eq, head_freeBlocks.mpr hleast]
    rfl
  · subst heq
    exact hrun.free_between

/-- A disk with nothing on it. -/
def blankDisk : Store where
  block _ _ := fun _ => 0
  disk _ := fun _ => 0
  held := []
  kernel := bootKernel
  oracle _ := answers [] fun _ => 0

/-- The superblock of `mkfs` over as many blocks as one bitmap block has bits for. -/
def oneBitmap : Superblock := { Fs.mkfsSb with nblocks := Fs.BPB }

theorem blankDisk_least : IsLeast (freeSet oneBitmap blankDisk) 1027 :=
  ⟨⟨⟨by decide, by decide⟩, by decide⟩, fun _ ha => ha.1.1⟩

theorem blankDisk_next : IsLeast (freeSet oneBitmap (blankDisk.take oneBitmap 1027)) 1028 := by
  rw [freeSet_take]
  refine ⟨⟨⟨⟨by decide, by decide⟩, by decide⟩, by decide⟩, fun a ha => ?_⟩
  have hge := blankDisk_least.2 ha.1
  have hne : a ≠ 1027 := ha.2
  omega

/-- The first data blocks of a blank disk are taken, and the lower one is given back and taken
again. -/
theorem balloc_exact_two_blocks : ∃ g, Calls oneBitmap 0 blankDisk
    [.alloc 1027, .alloc 1028, .free 1027, .alloc 1027] g ∧
    (Event.free 1027 : Event ℕ) ∈ [(.alloc 1028 : Event ℕ), .free 1027] := by
  obtain ⟨g₂, hg₂⟩ : ∃ g₂, g₂ = (blankDisk.take oneBitmap 1027).take oneBitmap 1028 := ⟨_, rfl⟩
  have hheld : g₂.held = [] := by rw [hg₂]; rfl
  have hfree : (ROOTDEV, BBLOCK 1027 oneBitmap) ∉ g₂.held := by
    rw [hheld]
    exact List.not_mem_nil
  have hdata : DataBlock oneBitmap 1027 := blankDisk_least.1.1
  have hused : g₂.isFree oneBitmap 1027 = false := by
    rw [hg₂, changes_take.others 1027 (by decide)]
    exact changes_take.bit
  have hleast : IsLeast (freeSet oneBitmap (g₂.give oneBitmap 1027)) 1027 := by
    rw [freeSet_give hdata]
    refine ⟨Set.mem_insert _ _, fun a ha => ?_⟩
    rcases ha with rfl | ha
    · exact le_rfl
    · exact ha.1.1
  have hcalls : Calls oneBitmap 0 blankDisk [.alloc 1027, .alloc 1028, .free 1027, .alloc 1027]
      ((g₂.give oneBitmap 1027).take oneBitmap 1027) := by
    have hheld' : (g₂.give oneBitmap 1027).held = [] := hheld
    exact .balloc ((balloc_eq_some rfl).mpr ⟨blankDisk_least, rfl⟩)
      (.balloc ((balloc_eq_some rfl).mpr ⟨blankDisk_next, hg₂⟩)
        (.bfree hdata hused (exec_bfree hfree hused)
          (.balloc ((balloc_eq_some hheld').mpr ⟨hleast, rfl⟩) .nil)))
  exact ⟨_, hcalls, (balloc_exact oneBitmap 0 blankDisk rfl _ _ hcalls).2.2.2 1027 []
    [.alloc 1028, .free 1027] [] rfl⟩

end Zrhos.Sysfile
