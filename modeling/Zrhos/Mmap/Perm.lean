import Zrhos.Mmap.Model

/-! Which entries `uvm_map` installs for a permission word that a user chose freely. The
word is narrowed to `int`, sign-extended and or-ed into the entry. -/
namespace Zrhos.Mmap
open OrderedSet

/-- The entry `uvm_map` stores. -/
def userPte (pa perm : ℕ) : ℕ := PA2PTE pa ||| sext32 (perm ||| PTE_U) ||| PTE_V

def PERM_RWX : ℕ := PTE_R ||| PTE_W ||| PTE_X

/-- An entry for `pa` with the requested permissions and nothing else. -/
structure Clean (pte pa perm : ℕ) : Prop where
  frame : PTE2PA pte = pa
  bits : pte = PA2PTE pa ||| (PTE_V ||| PTE_U ||| (perm &&& PERM_RWX))

/-- The bits of `perm` above the five flags fall on bits of the frame number. -/
def Harmless (perm pa : ℕ) : Prop :=
  PA2PTE pa ||| (sext32 perm >>> 5) <<< 5 = PA2PTE pa

/-! ### Bits -/

theorem testBit_PA2PTE (pa i : ℕ) :
    (PA2PTE pa).testBit i = (decide (10 ≤ i) && pa.testBit (i + 2)) := by
  rw [PA2PTE, Nat.testBit_shiftLeft, Nat.testBit_shiftRight]
  by_cases hi : 10 ≤ i
  · rw [show 12 + (i - 10) = i + 2 by omega]
  · simp [hi]

theorem testBit_small {x i : ℕ} (hx : x < 2 ^ 5) (hi : 5 ≤ i) : x.testBit i = false :=
  Nat.testBit_lt_two_pow (hx.trans_le (Nat.pow_le_pow_right (by decide) hi))

/-- Bit by bit, the entry differs from a clean one only where `perm` spills over. -/
theorem userPte_bit_iff (pa perm i : ℕ) :
    ((userPte pa perm).testBit i =
      (PA2PTE pa ||| (PTE_V ||| PTE_U ||| (perm &&& PERM_RWX))).testBit i) ↔
    ((PA2PTE pa ||| (sext32 perm >>> 5) <<< 5).testBit i = (PA2PTE pa).testBit i) := by
  by_cases hi : 5 ≤ i
  · have hand : perm &&& PERM_RWX < 2 ^ 5 := Nat.and_le_right.trans_lt (by decide)
    have hmin : 5 ≤ min i 31 := by omega
    simp only [userPte, Nat.testBit_or, testBit_sext32, testBit_small (show PTE_U < 2 ^ 5 by decide) hi,
      testBit_small (show PTE_U < 2 ^ 5 by decide) hmin,
      testBit_small (show PTE_V < 2 ^ 5 by decide) hi, testBit_small hand hi, Bool.or_false,
      Nat.testBit_shiftLeft, Nat.testBit_shiftRight, hi, decide_true, Bool.true_and,
      show 5 + (i - 5) = i by omega]
  · simp only [userPte, Nat.testBit_or, Nat.testBit_and, testBit_sext32, testBit_PA2PTE,
      Nat.testBit_shiftLeft, show ¬ 10 ≤ i by omega, hi, show i < 64 by omega,
      show min i 31 = i by omega, decide_false, decide_true, Bool.false_and, Bool.true_and,
      Bool.false_or, Bool.or_false, iff_true]
    have hconst : PTE_V.testBit i || PTE_U.testBit i || PERM_RWX.testBit i := by
      interval_cases i <;> decide
    have hdisj : PERM_RWX.testBit i = true → PTE_V.testBit i = false ∧ PTE_U.testBit i = false := by
      interval_cases i <;> decide
    cases hp : perm.testBit i <;> cases hv : PTE_V.testBit i <;> cases hu : PTE_U.testBit i <;>
      cases hr : PERM_RWX.testBit i <;> simp_all

theorem eq_iff_testBit {x y : ℕ} : x = y ↔ ∀ i, x.testBit i = y.testBit i :=
  ⟨fun h _ => by rw [h], Nat.eq_of_testBit_eq⟩

/-- The installed entry is clean exactly for a harmless permission word. -/
theorem userPte_clean_iff {pa : ℕ} (perm : ℕ) (hpa : pa % PGSIZE = 0) (hw : pa < WORD) :
    Clean (userPte pa perm) pa perm ↔ Harmless perm pa := by
  have hbits : userPte pa perm = PA2PTE pa ||| (PTE_V ||| PTE_U ||| (perm &&& PERM_RWX)) ↔
      Harmless perm pa := by
    rw [Harmless, eq_iff_testBit, eq_iff_testBit]
    exact forall_congr' (userPte_bit_iff pa perm)
  constructor
  · exact fun h => hbits.mp h.bits
  · intro h
    have hflags : PTE_V ||| PTE_U ||| (perm &&& PERM_RWX) < 2 ^ 10 :=
      Nat.or_lt_two_pow (by decide) (Nat.and_le_right.trans_lt (by decide))
    refine ⟨?_, hbits.mpr h⟩
    rw [hbits.mpr h, PTE2PA_pack hpa hw hflags]

/-- Permissions made of flag bits only are harmless. -/
theorem harmless_of_lt {perm : ℕ} (pa : ℕ) (h : perm < 2 ^ 5) : Harmless perm pa := by
  rw [Harmless, sext32_of_lt (h.trans (by decide)), Nat.shiftRight_eq_div_pow, Nat.div_eq_of_lt h]
  simp

end Zrhos.Mmap
