import Mathlib.Data.List.Basic

/-! Walks through a tree of names. A node is left only if it is a directory, along a name that
leads somewhere. -/
namespace Zrhos.Walk

variable {ν κ : Type} (dir : ν → Prop) [DecidablePred dir] (look : ν → κ → Option ν)

def step (n : ν) (x : κ) : Option ν := if dir n then look n x else none

def walk (n : ν) : List κ → Option ν
  | [] => some n
  | x :: xs => (step dir look n x).bind fun m => walk m xs

/-- The directory of the last name and that name. -/
def parent (n : ν) (xs : List κ) : Option (ν × κ) :=
  (walk dir look n xs.dropLast).bind fun p =>
    if dir p then xs.getLast?.map fun x => (p, x) else none

/-- The walk comes to `p` and takes `x` from there. -/
def Visits (n : ν) (xs : List κ) (p : ν) (x : κ) : Prop :=
  ∃ ys zs, xs = ys ++ x :: zs ∧ walk dir look n ys = some p

variable {dir look} {n m p : ν} {x y : κ} {xs ys : List κ}

@[simp] theorem parent_nil : parent dir look n [] = none := by
  simp [parent, walk]

theorem parent_singleton (look : ν → κ → Option ν) :
    parent dir look n [x] = if dir n then some (n, x) else none := by
  simp [parent, walk]

theorem parent_cons_cons : parent dir look n (x :: y :: ys) =
    (step dir look n x).bind fun m => parent dir look m (y :: ys) := by
  simp only [parent, List.dropLast_cons_cons, walk, Option.bind_assoc, List.getLast?_cons_cons]

theorem Visits.first : Visits dir look n (x :: xs) n x := ⟨[], xs, rfl, rfl⟩

theorem Visits.cons (hstep : step dir look n x = some m) (h : Visits dir look m xs p y) :
    Visits dir look n (x :: xs) p y := by
  obtain ⟨ys, zs, rfl, hwalk⟩ := h
  exact ⟨x :: ys, zs, rfl, by rw [walk, hstep, Option.bind_some, hwalk]⟩

end Zrhos.Walk
