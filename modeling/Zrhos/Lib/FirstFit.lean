import Mathlib.Order.Bounds.Basic
import Mathlib.Tactic

/-! An allocator that hands out the least free element. A run is a list of allocations and
releases between two sets of free elements. -/
namespace FirstFit

variable {α : Type} [LinearOrder α] {S T U : Set α} {a c : α}

inductive Event (α : Type) where
  | alloc (a : α)
  | free (a : α)

/-- The free elements before and after the events. -/
inductive Run : Set α → List (Event α) → Set α → Prop where
  | nil {S : Set α} : Run S [] S
  | alloc {S T : Set α} {a : α} {tr : List (Event α)} :
      IsLeast S a → Run (S \ {a}) tr T → Run S (.alloc a :: tr) T
  | free {S T : Set α} {a : α} {tr : List (Event α)} :
      a ∉ S → Run (insert a S) tr T → Run S (.free a :: tr) T

variable {tr tr' : List (Event α)}

theorem run_append : Run S (tr ++ tr') U ↔ ∃ T, Run S tr T ∧ Run T tr' U := by
  induction tr generalizing S with
  | nil =>
    constructor
    · intro h
      exact ⟨S, .nil, h⟩
    · rintro ⟨T, hnil, h⟩
      cases hnil
      exact h
  | cons x tr ih =>
    constructor
    · intro h
      cases h with
      | alloc ha h =>
        obtain ⟨T, hT, hU⟩ := ih.mp h
        exact ⟨T, .alloc ha hT, hU⟩
      | free ha h =>
        obtain ⟨T, hT, hU⟩ := ih.mp h
        exact ⟨T, .free ha hT, hU⟩
    · rintro ⟨T, hT, hU⟩
      cases hT with
      | alloc ha h => exact .alloc ha (ih.mpr ⟨T, h, hU⟩)
      | free ha h => exact .free ha (ih.mpr ⟨T, h, hU⟩)

/-- What is not free stays so until it is released. -/
theorem Run.not_mem (h : Run S tr T) (ha : a ∉ S) (hfree : .free a ∉ tr) : a ∉ T := by
  induction h with
  | nil => exact ha
  | alloc _ _ ih => exact ih (fun hmem => ha hmem.1) fun hmem => hfree (List.mem_cons_of_mem _ hmem)
  | @free S T b tr _ _ ih =>
    refine ih (fun hmem => ?_) fun hmem => hfree (List.mem_cons_of_mem _ hmem)
    rcases Set.mem_insert_iff.mp hmem with rfl | hmem
    · exact hfree List.mem_cons_self
    · exact ha hmem

/-- Between two allocations of one element there is its release. -/
theorem Run.free_between {tr₁ tr₂ tr₃ : List (Event α)}
    (h : Run S (tr₁ ++ .alloc a :: (tr₂ ++ .alloc a :: tr₃)) T) : .free a ∈ tr₂ := by
  obtain ⟨S₁, -, h⟩ := run_append.mp h
  cases h with
  | alloc _ h =>
    obtain ⟨S₂, h₂, h⟩ := run_append.mp h
    cases h with
    | alloc hleast _ =>
      by_contra hfree
      exact h₂.not_mem (fun hmem => hmem.2 rfl) hfree hleast.1

end FirstFit
