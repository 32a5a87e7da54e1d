import Mathlib.Data.List.TakeWhile
import Zrhos.Sysfile.Model

/-! The elements that `skipelem` takes from a path are what is between its slashes. -/
namespace Zrhos.Sysfile
open Turns
open Fs (Superblock)

variable {sb : Superblock} {path rest name u v : List ℕ} {fuel ip : ℕ}
  {l l' : List (List ℕ × List ℕ)}

/-- The nonempty pieces of a path between slashes, each cut to 14 bytes. -/
def components (path : List ℕ) : List (List ℕ) :=
  ((path.splitOn slash).filter (· ≠ [])).map (List.take DIRSIZ)

@[simp] theorem components_nil : components [] = [] := rfl

theorem components_append : components (u ++ slash :: v) = components u ++ components v := by
  unfold components
  rw [List.splitOn_eq_splitOnP, List.splitOn_eq_splitOnP, List.splitOn_eq_splitOnP,
    List.splitOnP_append_cons u v (by simp), List.filter_append, List.map_append]

theorem components_slash : components (slash :: v) = components v := components_append (u := [])

theorem components_word (h : slash ∉ u) (hne : u ≠ []) : components u = [u.take DIRSIZ] := by
  unfold components
  rw [List.splitOn_eq_splitOnP, List.splitOnP_eq_singleton]
  · simp [hne]
  · intro x hx
    exact beq_false_of_ne fun he => h (he ▸ hx)

theorem components_dropWhile : components (path.dropWhile (· = slash)) = components path := by
  induction path with
  | nil => rfl
  | cons a path ih =>
    by_cases ha : a = slash
    · subst ha
      rw [List.dropWhile_cons_of_pos (by simp), ih, components_slash]
    · rw [List.dropWhile_cons_of_neg (by simpa using ha)]

theorem takeWhile_ne_nil (h : path.dropWhile (· = slash) ≠ []) :
    (path.dropWhile (· = slash)).takeWhile (· ≠ slash) ≠ [] := by
  cases hpath : path.dropWhile (· = slash) with
  | nil => exact absurd hpath h
  | cons a u =>
    have ha : a ≠ slash := by
      have := List.head?_dropWhile_not (· = slash) path
      rw [hpath] at this
      simpa using this
    rw [List.takeWhile_cons_of_pos (by simpa using ha)]
    exact List.cons_ne_nil _ _

/-- What is in front of the first slash and what is behind it. -/
theorem components_takeWhile (h : u.takeWhile (· ≠ slash) ≠ []) : components u =
    (u.takeWhile (· ≠ slash)).take DIRSIZ :: components (u.dropWhile (· ≠ slash)) := by
  have hword : slash ∉ u.takeWhile (· ≠ slash) := fun hmem => by
    have := List.mem_takeWhile_imp hmem
    simp at this
  cases hrest : u.dropWhile (· ≠ slash) with
  | nil =>
    have hall : u.takeWhile (· ≠ slash) = u := by
      have := List.takeWhile_append_dropWhile (p := (· ≠ slash)) (l := u)
      rw [hrest, List.append_nil] at this
      exact this
    rw [hall] at hword h ⊢
    exact components_word hword h
  | cons a v =>
    have ha : a = slash := by
      have := List.head?_dropWhile_not (· ≠ slash) u
      rw [hrest] at this
      simpa using this
    subst ha
    have hsplit : u.takeWhile (· ≠ slash) ++ slash :: v = u := by
      rw [← hrest]
      exact List.takeWhile_append_dropWhile
    conv_lhs => rw [← hsplit]
    rw [components_append, components_word hword h, components_slash]
    rfl

/-- Without slashes in front only the empty path has no component. -/
theorem components_eq_nil : components (path.dropWhile (· = slash)) = [] ↔
    path.dropWhile (· = slash) = [] := by
  constructor
  · intro h
    by_contra hne
    rw [components_takeWhile (takeWhile_ne_nil hne)] at h
    cases h
  · intro h
    rw [h, components_nil]

/-! ### skipelem -/

theorem components_of_skipelem_none (h : skipelem path = none) : components path = [] := by
  unfold skipelem at h
  by_cases hnil : path.dropWhile (· = slash) = []
  · rw [← components_dropWhile, hnil, components_nil]
  · rw [if_neg hnil] at h
    cases h

structure Skips (path name rest : List ℕ) : Prop where
  split : components path = name :: components rest
  last : rest = [] ↔ components rest = []
  shorter : rest.length < path.length

theorem skips_of_skipelem (h : skipelem path = some (name, rest)) : Skips path name rest := by
  unfold skipelem at h
  by_cases hnil : path.dropWhile (· = slash) = []
  · rw [if_pos hnil] at h
    cases h
  · rw [if_neg hnil] at h
    cases h
    have hword := takeWhile_ne_nil hnil
    constructor
    case split =>
      rw [← components_dropWhile, components_takeWhile hword, components_dropWhile]
    case last => exact components_eq_nil.symm
    case shorter =>
      have hsplit := congrArg List.length
        (List.takeWhile_append_dropWhile (p := (· ≠ slash)) (l := path.dropWhile (· = slash)))
      have hpos := List.length_pos_of_ne_nil hword
      have hle := (List.dropWhile_sublist (· = slash) (l := path)).length_le
      have hle' := (List.dropWhile_sublist (· = slash)
        (l := (path.dropWhile (· = slash)).dropWhile (· ≠ slash))).length_le
      rw [List.length_append] at hsplit
      omega

/-- The rest of the path is empty behind the last element only. -/
def Ended : List (List ℕ × List ℕ) → Prop
  | [] => True
  | (_, rest) :: l => (rest = [] ↔ l = []) ∧ Ended l

theorem elems_spec (h : path.length ≤ fuel) :
    (elems fuel path).map Prod.fst = components path ∧ Ended (elems fuel path) := by
  induction fuel generalizing path with
  | zero =>
    obtain rfl : path = [] := List.length_eq_zero_iff.mp (Nat.le_zero.mp h)
    exact ⟨rfl, trivial⟩
  | succ fuel ih =>
    unfold elems
    cases hskip : skipelem path with
    | none => exact ⟨(components_of_skipelem_none hskip).symm, trivial⟩
    | some x =>
      obtain ⟨name, rest⟩ := x
      have hs := skips_of_skipelem hskip
      have hshorter := hs.shorter
      obtain ⟨hnames, hended⟩ := ih (show rest.length ≤ fuel by omega)
      refine ⟨?_, ?_, hended⟩
      · rw [hs.split, ← hnames]
        rfl
      · rw [hs.last, ← hnames, List.map_eq_nil_iff]

/-- The loop of `namex` asks no more of a path than its elements. -/
theorem namexLoop_congr {parent : Bool} (hnames : l.map Prod.fst = l'.map Prod.fst) (h : Ended l)
    (h' : Ended l') : namexLoop sb parent l ip = namexLoop sb parent l' ip := by
  induction l generalizing l' ip with
  | nil =>
    obtain rfl : l' = [] := by simpa using hnames.symm
    rfl
  | cons x l ih =>
    cases l' with
    | nil => cases hnames
    | cons y l' =>
      obtain ⟨name, rest⟩ := x
      obtain ⟨name', rest'⟩ := y
      obtain ⟨rfl, htail⟩ := List.cons_eq_cons.mp hnames
      have hlast : rest = [] ↔ rest' = [] := by
        rw [h.1, h'.1, ← List.map_eq_nil_iff (f := Prod.fst), htail, List.map_eq_nil_iff]
      have hloop (e : ℕ) : namexLoop sb parent l e = namexLoop sb parent l' e := ih htail h.2 h'.2
      unfold namexLoop
      simp only [hlast, hloop]

/-- Paths with the same elements that start in the same directory. -/
theorem namex_congr {path' : List ℕ} {parent : Bool}
    (hstart : path.head? = some slash ↔ path'.head? = some slash)
    (hnames : components path = components path') : namex sb path parent = namex sb path' parent := by
  obtain ⟨hl, hended⟩ := elems_spec (le_refl path.length)
  obtain ⟨hl', hended'⟩ := elems_spec (le_refl path'.length)
  have hsame : startDir path = startDir path' := by
    unfold startDir
    simp only [hstart]
  unfold namex
  rw [hsame]
  refine congrArg (startDir path' >>= ·) (funext fun ip => ?_)
  exact namexLoop_congr (hl.trans (hnames.trans hl'.symm)) hended hended'

end Zrhos.Sysfile
