import Mathlib.Tactic
import Mathlib.Data.Nat.Bitwise

/-! Page and page-table-entry arithmetic of `platform.h` and `memlayout.h`.
Addresses and entries are 64-bit words, kept as naturals below `WORD`; the
reductions modulo `WORD` stand where the source can wrap around. -/
namespace Zrhos

/-- Why a kernel call does not come back: a `panic` of the source, or a loop that
outlives its fuel. -/
inductive Stop where
  | noSpaceInHeap
  | smallfindError
  | vmMapRemap
  | uvmunmapNotAligned
  | uvmunmapWalk
  | uvmunmapNotMapped
  | uvmunmapNotALeaf
  | pageFaultNoMapping
  | accessFaultDenied
  | mmapPrivateAndShared
  | mmapFailed
  | copyMmapInsert
  | loadsegNoAddress
  | execBad
  | bgetNoBuffers
  | ballocOutOfBlocks
  | bmapBalloc
  | nullPointer
  | spin
  deriving DecidableEq, Repr

theorem bind_ok {α β : Type} {x : Except Stop α} {f : α → Except Stop β} {b : β}
    (h : (x >>= f) = .ok b) : ∃ a, x = .ok a ∧ f a = .ok b := by
  rcases x with e | a
  · cases h
  · exact ⟨a, rfl, h⟩

/-- An assertion inside a run that is given by its calls. -/
def check (p : Prop) [Decidable p] : Except Stop Unit := if p then .ok () else .error .spin

theorem of_check {p : Prop} [Decidable p] {u : Unit} (h : check p = .ok u) : p := by
  unfold check at h
  split_ifs at h with hp
  exact hp

theorem ok_of_toBool {α : Type} {x : Except Stop α} (h : x.toBool = true) : ∃ y, x = .ok y := by
  cases x with
  | error e => cases h
  | ok y => exact ⟨y, rfl⟩

def NTASK : ℕ := 1010

def WORD : ℕ := 2 ^ 64
def PGSIZE : ℕ := 4096

def PHYSTATR : ℕ := 0x80000000
def PHYSTOP : ℕ := PHYSTATR + 128 * 1024 * 1024
def MEMSTOP : ℕ := PHYSTOP - 2 * PGSIZE

def pgRoundDown (a : ℕ) : ℕ := a / PGSIZE * PGSIZE

def pgRoundUp (sz : ℕ) : ℕ := pgRoundDown ((sz + PGSIZE - 1) % WORD)

def PTE_V : ℕ := 1 <<< 0
def PTE_R : ℕ := 1 <<< 1
def PTE_W : ℕ := 1 <<< 2
def PTE_X : ℕ := 1 <<< 3
def PTE_U : ℕ := 1 <<< 4

def PA2PTE (pa : ℕ) : ℕ := (pa >>> 12) <<< 10

def PTE2PA (pte : ℕ) : ℕ := (pte >>> 10) <<< 12 % WORD

def PTE_FLAGS (pte : ℕ) : ℕ := pte &&& 0x3FF

def PX (level va : ℕ) : ℕ := (va >>> (12 + 9 * level)) &&& 0x1FF

def MAXVA : ℕ := 1 <<< 38

def TRAMPOLINE : ℕ := MAXVA - PGSIZE
def TRAPFRAME : ℕ := TRAMPOLINE - PGSIZE
def USERRDONLYMAP : ℕ := TRAPFRAME - PGSIZE
def USERRDONLY : ℕ := PHYSTOP - PGSIZE
def VA_ANYNOMOUS : ℕ := MAXVA >>> 1

/-- An argument of type `int` when it meets a 64-bit operand: 32 bits, sign-extended. -/
def sext32 (x : ℕ) : ℕ := ((BitVec.ofNat 32 x).signExtend 64).toNat

/-- The 27 bits of an address that the three table indices read. -/
def vpn (va : ℕ) : ℕ := va / PGSIZE % 2 ^ 27

theorem pgRoundDown_mod (a : ℕ) : pgRoundDown a % PGSIZE = 0 := Nat.mul_mod_left _ _

theorem pgRoundUp_mod (a : ℕ) : pgRoundUp a % PGSIZE = 0 := pgRoundDown_mod _

theorem pgRoundDown_le (a : ℕ) : pgRoundDown a ≤ a := Nat.div_mul_le_self _ _

theorem le_pgRoundUp {a : ℕ} (h : a + PGSIZE ≤ WORD) : a ≤ pgRoundUp a := by
  unfold pgRoundUp pgRoundDown
  rw [Nat.mod_eq_of_lt (by simp only [PGSIZE] at *; omega)]
  simp only [PGSIZE]
  omega

theorem pgRoundDown_eq {a : ℕ} (h : a % PGSIZE = 0) : pgRoundDown a = a :=
  Nat.div_mul_cancel (Nat.dvd_of_mod_eq_zero h)

/-! ### Packing and unpacking of entries -/

theorem PA2PTE_eq (pa : ℕ) : PA2PTE pa = 2 ^ 10 * (pa / PGSIZE) := by
  rw [PA2PTE, Nat.shiftLeft_eq, Nat.shiftRight_eq_div_pow, Nat.mul_comm]
  rfl

theorem PTE2PA_eq (pte : ℕ) : PTE2PA pte = pte / 2 ^ 10 * PGSIZE % WORD := by
  rw [PTE2PA, Nat.shiftLeft_eq, Nat.shiftRight_eq_div_pow]
  rfl

theorem PTE2PA_mod (pte : ℕ) : PTE2PA pte % PGSIZE = 0 := by
  rw [PTE2PA_eq]
  simp only [PGSIZE, WORD]
  omega

theorem PTE2PA_lt (pte : ℕ) : PTE2PA pte < WORD := by
  rw [PTE2PA_eq]
  exact Nat.mod_lt _ (by decide)

theorem PTE_FLAGS_eq (pte : ℕ) : PTE_FLAGS pte = pte % 2 ^ 10 :=
  Nat.and_two_pow_sub_one_eq_mod pte 10

theorem PA2PTE_or {flags : ℕ} (pa : ℕ) (h : flags < 2 ^ 10) :
    PA2PTE pa ||| flags = 2 ^ 10 * (pa / PGSIZE) + flags := by
  rw [PA2PTE_eq, Nat.two_pow_add_eq_or_of_lt h]

theorem PTE2PA_pack {pa flags : ℕ} (hpa : pa % PGSIZE = 0) (hw : pa < WORD)
    (h : flags < 2 ^ 10) : PTE2PA (PA2PTE pa ||| flags) = pa := by
  rw [PA2PTE_or pa h, PTE2PA_eq, Nat.mul_add_div (by decide), Nat.div_eq_of_lt h, Nat.add_zero]
  rw [Nat.div_mul_cancel (Nat.dvd_of_mod_eq_zero hpa), Nat.mod_eq_of_lt hw]

theorem PTE_FLAGS_pack {flags : ℕ} (pa : ℕ) (h : flags < 2 ^ 10) :
    PTE_FLAGS (PA2PTE pa ||| flags) = flags := by
  rw [PA2PTE_or pa h, PTE_FLAGS_eq, Nat.mul_add_mod, Nat.mod_eq_of_lt h]

theorem or_PTE_V_lt {perm : ℕ} (h : perm < 2 ^ 10) : perm ||| PTE_V < 2 ^ 10 :=
  Nat.or_lt_two_pow h (by decide)

theorem and_PTE_V (x : ℕ) : x &&& PTE_V = x % 2 := Nat.and_one_is_mod x

theorem or_PTE_V_valid (x : ℕ) : (x ||| PTE_V) &&& PTE_V ≠ 0 := by
  rw [Nat.and_or_distrib_right, Nat.and_self, and_PTE_V]
  intro h
  have : PTE_V ≤ x % 2 ||| PTE_V := Nat.right_le_or
  rw [h] at this
  exact absurd this (by decide)

theorem testBit_sext32 (x i : ℕ) :
    (sext32 x).testBit i = (decide (i < 64) && x.testBit (min i 31)) := by
  rw [sext32, BitVec.testBit_toNat, BitVec.getLsbD_signExtend, BitVec.msb_eq_getLsbD_last,
    BitVec.getLsbD_ofNat, BitVec.getLsbD_ofNat]
  by_cases hi : i < 32
  · have hm : min i 31 = i := by omega
    simp only [hi, hm, decide_true, Bool.true_and, ↓reduceIte]
  · have hm : min i 31 = 31 := by omega
    simp [hi, hm]

theorem sext32_of_lt {x : ℕ} (h : x < 2 ^ 31) : sext32 x = x := by
  have hhigh (i : ℕ) (hi : 31 ≤ i) : x.testBit i = false :=
    Nat.testBit_lt_two_pow (h.trans_le (Nat.pow_le_pow_right (by decide) hi))
  refine Nat.eq_of_testBit_eq fun i => ?_
  rw [testBit_sext32]
  by_cases hi : i < 31
  · simp [min_eq_left hi.le, show i < 64 by omega]
  · rw [min_eq_right (not_lt.mp hi), hhigh 31 le_rfl, hhigh i (not_lt.mp hi), Bool.and_false]

theorem PX_eq (level va : ℕ) : PX level va = va / 2 ^ (12 + 9 * level) % 2 ^ 9 := by
  rw [PX, Nat.shiftRight_eq_div_pow]
  exact Nat.and_two_pow_sub_one_eq_mod _ 9

theorem PX_lt (level va : ℕ) : PX level va < 512 := by
  rw [PX_eq]
  exact Nat.mod_lt _ (by decide)

theorem vpn_eq_PX (va : ℕ) : vpn va = PX 2 va * 2 ^ 18 + PX 1 va * 2 ^ 9 + PX 0 va := by
  simp only [PX_eq, vpn, PGSIZE]
  omega

theorem vpn_of_lt {va : ℕ} (h : va < 2 ^ 39) : vpn va = va / PGSIZE := by
  unfold vpn
  exact Nat.mod_eq_of_lt (by simp only [PGSIZE]; omega)

end Zrhos
