import Mathlib.Tactic

/-! Machines that take one step at a time. An action is possible in a state or not; the
steps of a run may have to meet a condition as well. -/
namespace Steps

variable {St Act : Type} {step : St → Act → Option St} {meets : St → Act → Prop} {s₀ s s' : St}

/-- The states that runs from `s₀` reach by steps that meet the condition. -/
inductive Reached (step : St → Act → Option St) (meets : St → Act → Prop) (s₀ : St) :
    St → Prop where
  | start : Reached step meets s₀ s₀
  | step {s s' : St} {a : Act} : Reached step meets s₀ s → meets s a → step s a = some s' →
      Reached step meets s₀ s'

/-- The condition that every step meets. -/
def anyStep : St → Act → Prop := fun _ _ => True

/-- What every step keeps holds in every state that is reached. -/
theorem Reached.invariant {Inv : St → Prop} (h : Reached step meets s₀ s) (h₀ : Inv s₀)
    (hstep : ∀ s a s', Inv s → meets s a → step s a = some s' → Inv s') : Inv s := by
  induction h with
  | start => exact h₀
  | step _ hm hs ih => exact hstep _ _ _ ih hm hs

/-- The state after a list of actions whose steps all meet the condition. -/
def after (step : St → Act → Option St) (meets : St → Act → Prop)
    [∀ s a, Decidable (meets s a)] : St → List Act → Option St
  | s, [] => some s
  | s, a :: acts =>
    if meets s a then (step s a).bind fun s' => after step meets s' acts else none

instance (s : St) (a : Act) : Decidable (anyStep s a) := .isTrue trivial

variable [∀ s a, Decidable (meets s a)]

theorem Reached.trans {acts : List Act} (h : Reached step meets s₀ s)
    (ha : after step meets s acts = some s') : Reached step meets s₀ s' := by
  induction acts generalizing s with
  | nil =>
    cases ha
    exact h
  | cons a acts ih =>
    unfold after at ha
    split_ifs at ha with hm
    obtain ⟨m, hs, hrest⟩ := Option.bind_eq_some_iff.mp ha
    exact ih (h.step hm hs) hrest

/-- What a list of actions computes is reached. -/
theorem reached_after {acts : List Act} (ha : after step meets s₀ acts = some s) :
    Reached step meets s₀ s := Reached.start.trans ha

/-- A machine that can follow every step of another one can follow its runs. -/
theorem after_simulates {St' : Type} {step' : St' → Act → Option St'} {R : St → St' → Prop}
    {t : St'} {acts : List Act} (hR : R s t)
    (hstep : ∀ s t a s', R s t → step s a = some s' → ∃ t', step' t a = some t' ∧ R s' t')
    (ha : after step anyStep s acts = some s') :
    ∃ t', after step' anyStep t acts = some t' ∧ R s' t' := by
  induction acts generalizing s t with
  | nil =>
    cases ha
    exact ⟨t, rfl, hR⟩
  | cons a acts ih =>
    unfold after at ha
    rw [if_pos (show anyStep s a from trivial)] at ha
    obtain ⟨m, hm, hrest⟩ := Option.bind_eq_some_iff.mp ha
    obtain ⟨m', hm', hR'⟩ := hstep s t a m hR hm
    obtain ⟨t', ht', hend⟩ := ih hR' hrest
    refine ⟨t', ?_, hend⟩
    unfold after
    rw [if_pos (show anyStep t a from trivial), hm']
    exact ht'

end Steps
