import Mathlib.Tactic

/-! `strncmp` and `strncpy` of `klib.c`. -/
namespace Zrhos.Klib

/-- The result of a comparison that stopped at the bytes `a` and `b`. -/
def stopped (a b : ℕ) : ℤ := if a = 0 ∧ b = 0 then 0 else a - b

/-- Behind `n` equal bytes it still compares the next two. -/
def strncmp : ℕ → (ℕ → ℕ) → (ℕ → ℕ) → ℤ
  | 0, s, t => stopped (s 0) (t 0)
  | n + 1, s, t =>
    if t 0 ≠ 0 ∧ s 0 ≠ 0 ∧ s 0 = t 0 then strncmp n (fun i => s (i + 1)) fun i => t (i + 1)
    else stopped (s 0) (t 0)

/-- The bytes stored for the string `src`: one of `n` bytes or more gives up the last of
them for the terminator, behind a shorter one the rest of the field stays as it was. -/
def strncpy (src : List ℕ) (n : ℕ) : List ℕ :=
  if (src.take n).length = n then src.take (n - 1) ++ [0] else src.take n ++ [0]

/-- The strings are equal up to a position where both end or where `n` bytes are used up. -/
def Agree (n : ℕ) (s t : ℕ → ℕ) : Prop :=
  ∃ k ≤ n, (∀ j < k, s j ≠ 0 ∧ s j = t j) ∧ s k = t k ∧ (k < n → s k = 0)

theorem stopped_eq_zero {a b : ℕ} : stopped a b = 0 ↔ a = b := by
  unfold stopped
  split_ifs with h
  · simp [h.1, h.2]
  · omega

theorem strncmp_eq_zero {n : ℕ} {s t : ℕ → ℕ} : strncmp n s t = 0 ↔ Agree n s t := by
  induction n generalizing s t with
  | zero =>
    rw [strncmp, stopped_eq_zero]
    constructor
    · intro h
      exact ⟨0, le_rfl, fun j hj => absurd hj (Nat.not_lt_zero j), h,
        fun h0 => absurd h0 (lt_irrefl 0)⟩
    · rintro ⟨k, hk, -, h, -⟩
      obtain rfl : k = 0 := Nat.le_zero.mp hk
      exact h
  | succ n ih =>
    unfold strncmp
    split_ifs with hc
    · rw [ih]
      constructor
      · rintro ⟨k, hk, hbefore, heq, hend⟩
        refine ⟨k + 1, Nat.succ_le_succ hk, ?_, heq, fun h => hend (Nat.lt_of_succ_lt_succ h)⟩
        intro j hj
        cases j with
        | zero => exact hc.2
        | succ j => exact hbefore j (Nat.lt_of_succ_lt_succ hj)
      · rintro ⟨k, hk, hbefore, heq, hend⟩
        cases k with
        | zero => exact absurd (hend (Nat.succ_pos n)) hc.2.1
        | succ k =>
          refine ⟨k, Nat.le_of_succ_le_succ hk, fun j hj => hbefore (j + 1) (Nat.succ_lt_succ hj),
            heq, fun h => hend (Nat.succ_lt_succ h)⟩
    · rw [stopped_eq_zero]
      constructor
      · intro h
        refine ⟨0, Nat.zero_le _, fun j hj => absurd hj (Nat.not_lt_zero j), h, fun _ => ?_⟩
        by_contra hs
        exact hc ⟨h ▸ hs, hs, h⟩
      · rintro ⟨k, hk, hbefore, heq, hend⟩
        cases k with
        | zero => exact heq
        | succ k =>
          have h0 := hbefore 0 (Nat.succ_pos k)
          exact absurd ⟨h0.2 ▸ h0.1, h0⟩ hc

end Zrhos.Klib
