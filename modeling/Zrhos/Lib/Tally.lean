import Mathlib.Tactic
import Mathlib.Algebra.BigOperators.Group.Finset.Basic
import Mathlib.Algebra.BigOperators.Group.Finset.Piecewise

/-! How many places of a finite index set hold a value with a given property, and what
rewriting one place does to that number. -/
namespace Tally

variable {ι α : Type} {S : Finset ι} {p : α → Prop} [DecidablePred p]
  {f g : ι → α} {x y : ι} {a : α}

def tally (S : Finset ι) (p : α → Prop) [DecidablePred p] (f : ι → α) : ℕ :=
  (S.filter fun x => p (f x)).card

theorem tally_eq_sum : tally S p f = ∑ x ∈ S, if p (f x) then 1 else 0 :=
  Finset.card_filter _ _

theorem sum_update [DecidableEq ι] {f : ι → ℕ} {a : ℕ} (hx : x ∈ S) :
    ∑ y ∈ S, Function.update f x a y + f x = ∑ y ∈ S, f y + a := by
  have hsum := Finset.sum_update_of_mem hx f a
  have hsplit := Finset.add_sum_erase S f hx
  rw [Finset.sdiff_singleton_eq_erase] at hsum
  omega

theorem tally_update [DecidableEq ι] (hx : x ∈ S) :
    tally S p (Function.update f x a) + (if p (f x) then 1 else 0) =
      tally S p f + if p a then 1 else 0 := by
  have hcomp : (fun y => if p (Function.update f x a y) then 1 else 0) =
      Function.update (fun y => if p (f y) then 1 else 0) x (if p a then 1 else 0) :=
    funext fun y => Function.apply_update (fun _ b => if p b then 1 else 0) f x a y
  rw [tally_eq_sum, tally_eq_sum, hcomp]
  exact sum_update hx

theorem tally_congr (h : ∀ x ∈ S, p (f x) ↔ p (g x)) : tally S p f = tally S p g :=
  congrArg Finset.card (Finset.filter_congr h)

/-- A table of rows: its tally is the sum of the tallies of the rows. -/
theorem tally_rows {κ : Type} {T : Finset κ} (E : ι → κ → α) :
    tally (S ×ˢ T) p (fun x => E x.1 x.2) = ∑ i ∈ S, tally T p (E i) := by
  simp only [tally_eq_sum]
  exact Finset.sum_product _ _ _

theorem tally_update_row [DecidableEq ι] {κ : Type} {T : Finset κ} {E : ι → κ → α} {r : κ → α}
    (hx : x ∈ S) :
    tally (S ×ˢ T) p (fun y => Function.update E x r y.1 y.2) + tally T p (E x) =
      tally (S ×ˢ T) p (fun y => E y.1 y.2) + tally T p r := by
  have hcomp : (fun i => tally T p (Function.update E x r i)) =
      Function.update (fun i => tally T p (E i)) x (tally T p r) :=
    funext fun i => Function.apply_update (fun _ => tally T p) E x r i
  rw [tally_rows, tally_rows, hcomp]
  exact sum_update hx

theorem tally_eq_zero : tally S p f = 0 ↔ ∀ x ∈ S, ¬ p (f x) := by
  rw [tally, Finset.card_eq_zero, Finset.filter_eq_empty_iff]

theorem tally_pos (hx : x ∈ S) (h : p (f x)) : 0 < tally S p f :=
  Finset.card_pos.mpr ⟨x, Finset.mem_filter.mpr ⟨hx, h⟩⟩

theorem one_lt_tally (hx : x ∈ S) (hy : y ∈ S) (hne : x ≠ y) (h : p (f x)) (h' : p (f y)) :
    1 < tally S p f :=
  Finset.one_lt_card.mpr
    ⟨x, Finset.mem_filter.mpr ⟨hx, h⟩, y, Finset.mem_filter.mpr ⟨hy, h'⟩, hne⟩

end Tally
