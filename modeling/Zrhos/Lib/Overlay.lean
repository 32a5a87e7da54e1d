import Mathlib.Tactic

/-! Strings laid over positions: where the last of several writes to a memory decides. -/
namespace Zrhos.Overlay

variable {α : Type} {a k : ℕ} {bs cs : List α} {w : ℕ → Option α}

/-- The elements of `bs` from position `a` on, over those of `w`. -/
def lay (a : ℕ) (bs : List α) (w : ℕ → Option α) (k : ℕ) : Option α :=
  if a ≤ k ∧ k < a + bs.length then bs[k - a]? else w k

/-- Several strings, the first one lowest. -/
def layAll : List (ℕ × List α) → (ℕ → Option α) → ℕ → Option α
  | [], w => w
  | p :: ps, w => layAll ps (lay p.1 p.2 w)

/-- Two strings with no position in common. -/
def Apart (p q : ℕ × List α) : Prop := p.1 + p.2.length ≤ q.1 ∨ q.1 + q.2.length ≤ p.1

theorem lay_outside (h : k < a ∨ a + bs.length ≤ k) : lay a bs w k = w k := by
  unfold lay
  rw [if_neg]
  omega

theorem lay_inside {i : ℕ} (h : i < bs.length) : lay a bs w (a + i) = some (bs.get ⟨i, h⟩) := by
  unfold lay
  rw [if_pos (by omega), Nat.add_sub_cancel_left, List.getElem?_eq_getElem h]
  rfl

theorem lay_nil : lay a [] w = w := by
  funext k
  apply lay_outside
  simp only [List.length_nil]
  omega

/-- A string is written part by part. -/
theorem lay_append : lay a (bs ++ cs) w = lay (a + bs.length) cs (lay a bs w) := by
  funext k
  simp only [lay, List.length_append]
  by_cases hlow : a ≤ k ∧ k < a + bs.length
  · rw [if_pos (by omega), if_neg (by omega), if_pos hlow, List.getElem?_append_left (by omega)]
  · by_cases hhigh : a + bs.length ≤ k ∧ k < a + bs.length + cs.length
    · rw [if_pos (by omega), if_pos hhigh, List.getElem?_append_right (by omega)]
      congr 1
      omega
    · rw [if_neg (by omega), if_neg hhigh, if_neg hlow]

theorem lay_some {b : α} (h : lay a bs w k = some b) :
    (a ≤ k ∧ k < a + bs.length) ∨ w k = some b := by
  unfold lay at h
  split_ifs at h with hk
  · exact Or.inl hk
  · exact Or.inr h

theorem layAll_outside {ps : List (ℕ × List α)}
    (h : ∀ p ∈ ps, k < p.1 ∨ p.1 + p.2.length ≤ k) : layAll ps w k = w k := by
  induction ps generalizing w with
  | nil => rfl
  | cons p ps ih =>
    rw [layAll, ih fun q hq => h q (List.mem_cons_of_mem _ hq), lay_outside (h p List.mem_cons_self)]

/-- Where no string is on top of another, each can be read back. -/
theorem layAll_inside {ps : List (ℕ × List α)} (h : ps.Pairwise Apart) {p : ℕ × List α}
    (hp : p ∈ ps) {i : ℕ} (hi : i < p.2.length) :
    layAll ps w (p.1 + i) = some (p.2.get ⟨i, hi⟩) := by
  induction ps generalizing w with
  | nil => cases hp
  | cons q ps ih =>
    rw [List.pairwise_cons] at h
    rcases List.mem_cons.mp hp with rfl | hp
    · rw [layAll, layAll_outside, lay_inside hi]
      intro q hq
      have happart := h.1 q hq
      unfold Apart at happart
      omega
    · exact ih h.2 hp

/-- What lies below shows through where nothing was laid. -/
theorem layAll_or {ps : List (ℕ × List α)} :
    layAll ps w k = (layAll ps (fun _ => none) k).or (w k) := by
  induction ps generalizing w with
  | nil => rfl
  | cons p ps ih =>
    rw [layAll, layAll, ih, ih (w := lay p.1 p.2 fun _ => none), Option.or_assoc]
    congr 1
    unfold lay
    split_ifs with hk
    · rw [List.getElem?_eq_getElem (by omega)]
      rfl
    · rfl

end Zrhos.Overlay
