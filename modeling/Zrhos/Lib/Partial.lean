import Mathlib.Tactic

/-! State programs that may fail to return, and what holds of the state if they do return. -/
namespace Partial

variable {σ α β : Type} {p : StateT σ Option α} {f : α → StateT σ Option β} {s s' : σ}

/-- If the program returns from `s`, then with `Q`. -/
def Always (p : StateT σ Option α) (s : σ) (Q : α → σ → Prop) : Prop :=
  ∀ a s', p s = some (a, s') → Q a s'

variable {Q R : α → σ → Prop} {Q' : β → σ → Prop}

theorem bind_eq_some {b : β} : (p >>= f) s = some (b, s') ↔
    ∃ a s₁, p s = some (a, s₁) ∧ f a s₁ = some (b, s') := by
  change ((p s).bind fun r => f r.1 r.2) = some (b, s') ↔ _
  rw [Option.bind_eq_some_iff]
  constructor
  · rintro ⟨⟨a, s₁⟩, hp, hf⟩
    exact ⟨a, s₁, hp, hf⟩
  · rintro ⟨a, s₁, hp, hf⟩
    exact ⟨(a, s₁), hp, hf⟩

@[simp] theorem always_pure {a : α} : Always (pure a) s Q ↔ Q a s := by
  constructor
  · intro h
    exact h a s rfl
  · intro h b s' hb
    cases hb
    exact h

@[simp] theorem always_bind :
    Always (p >>= f) s Q' ↔ Always p s fun a s₁ => Always (f a) s₁ Q' := by
  constructor
  · intro h a s₁ hp b s' hf
    exact h b s' (bind_eq_some.mpr ⟨a, s₁, hp, hf⟩)
  · intro h b s' hb
    obtain ⟨a, s₁, hp, hf⟩ := bind_eq_some.mp hb
    exact h a s₁ hp b s' hf

@[simp] theorem always_ite {c : Prop} [Decidable c] {q : StateT σ Option α} :
    Always (if c then p else q) s Q ↔ (c → Always p s Q) ∧ (¬ c → Always q s Q) := by
  split_ifs with hc
  · exact ⟨fun h => ⟨fun _ => h, fun hn => absurd hc hn⟩, fun h => h.1 hc⟩
  · exact ⟨fun h => ⟨fun hn => absurd hn hc, fun _ => h⟩, fun h => h.2 hc⟩

theorem Always.mono (h : Always p s Q) (hQ : ∀ a s', Q a s' → R a s') : Always p s R :=
  fun a s' hp => hQ a s' (h a s' hp)

/-- A program that never returns. -/
theorem always_failure : Always (fun _ => none : StateT σ Option α) s Q := fun _ _ h => by cases h

end Partial
