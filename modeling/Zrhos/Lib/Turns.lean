import Mathlib.Tactic

/-! Programs as trees of operations. A program stops at every operation and goes on with
the answer of the environment, so several programs can take turns on one shared state. A
contract says what an operation asks of the part of the state its program sees and what it
does to that part. -/
namespace Turns

inductive Prog (Op : Type) (Resp : Op → Type) (α : Type) : Type where
  | ret (a : α)
  | op (o : Op) (k : Resp o → Prog Op Resp α)

variable {Op : Type} {Resp : Op → Type} {α β : Type}

namespace Prog

def bind (p : Prog Op Resp α) (f : α → Prog Op Resp β) : Prog Op Resp β :=
  match p with
  | .ret a => f a
  | .op o k => .op o fun r => (k r).bind f

instance : Monad (Prog Op Resp) where
  pure := .ret
  bind := bind

/-- The program that performs one operation. -/
def call (o : Op) : Prog Op Resp (Resp o) := .op o .ret

/-- Every operation of the program, whatever the answers, is one of `allowed`. -/
def Uses (allowed : Op → Prop) : Prog Op Resp α → Prop
  | .ret _ => True
  | .op o k => allowed o ∧ ∀ r, (k r).Uses allowed

/-- The program can end with the result `a`. -/
def Ends : Prog Op Resp α → α → Prop
  | .ret b, a => b = a
  | .op _ k, a => ∃ r, (k r).Ends a

/-- A complete path through the program with the result at its end. -/
inductive Path : Prog Op Resp α → List (Sigma Resp) → α → Prop where
  | ret {a : α} : Path (.ret a) [] a
  | op {o : Op} {k : Resp o → Prog Op Resp α} {r : Resp o} {tr : List (Sigma Resp)} {a : α} :
      Path (k r) tr a → Path (.op o k) (⟨o, r⟩ :: tr) a

end Prog

open Prog

theorem prog_pure_bind {a : α} {f : α → Prog Op Resp β} : (pure a : Prog Op Resp α) >>= f = f a :=
  rfl

theorem prog_bind_assoc {γ : Type} {p : Prog Op Resp α} {f : α → Prog Op Resp β}
    {g : β → Prog Op Resp γ} : p >>= f >>= g = p >>= fun a => f a >>= g := by
  induction p with
  | ret a => rfl
  | op o k ih => exact congrArg (Prog.op o) (funext ih)

theorem ends_bind {p : Prog Op Resp α} {f : α → Prog Op Resp β} {b : β} :
    (p >>= f).Ends b ↔ ∃ a, p.Ends a ∧ (f a).Ends b := by
  induction p with
  | ret a =>
    constructor
    · intro h
      exact ⟨a, rfl, h⟩
    · rintro ⟨_, rfl, h⟩
      exact h
  | op o k ih =>
    constructor
    · rintro ⟨r, hr⟩
      obtain ⟨a, ha, hb⟩ := (ih r).mp hr
      exact ⟨a, ⟨r, ha⟩, hb⟩
    · rintro ⟨a, ⟨r, ha⟩, hb⟩
      exact ⟨r, (ih r).mpr ⟨a, ha, hb⟩⟩

theorem Prog.Path.unique {p : Prog Op Resp α} {tr : List (Sigma Resp)} {a b : α}
    (ha : Path p tr a) (hb : Path p tr b) : a = b := by
  induction ha with
  | ret =>
    cases hb
    rfl
  | op _ ih =>
    cases hb with
    | op hb => exact ih hb

/-- A path does not see a result that is thrown away. -/
theorem path_bind_pure {p : Prog Op Resp α} {f : α → β} {tr : List (Sigma Resp)} {b : β} :
    Path (p >>= fun a => pure (f a)) tr b ↔ ∃ a, f a = b ∧ Path p tr a := by
  induction p generalizing tr with
  | ret a =>
    constructor
    · intro h
      cases h
      exact ⟨a, rfl, .ret⟩
    · rintro ⟨c, rfl, h⟩
      cases h
      exact .ret
  | op o k ih =>
    constructor
    · intro h
      cases h with
      | op h =>
        obtain ⟨a, ha, hp⟩ := (ih _).mp h
        exact ⟨a, ha, .op hp⟩
    · rintro ⟨a, ha, h⟩
      cases h with
      | op h => exact .op ((ih _).mpr ⟨a, ha, h⟩)

/-- Two continuations that agree on the results a program can end with. -/
theorem prog_bind_congr {p : Prog Op Resp α} {f g : α → Prog Op Resp β}
    (h : ∀ a, p.Ends a → f a = g a) : p >>= f = p >>= g := by
  induction p with
  | ret a => exact h a rfl
  | op o k ih => exact congrArg (Prog.op o) (funext fun r => ih r fun a ha => h a ⟨r, ha⟩)

/-! ### Programs that use some operations only -/

section Uses

variable {allowed : Op → Prop} {p : Prog Op Resp α} {f : α → Prog Op Resp β}

@[simp] theorem uses_pure {a : α} : (pure a : Prog Op Resp α).Uses allowed := trivial

@[simp] theorem uses_call {o : Op} :
    (call o : Prog Op Resp (Resp o)).Uses allowed ↔ allowed o :=
  ⟨And.left, fun h => ⟨h, fun _ => trivial⟩⟩

@[simp] theorem uses_ite {c : Prop} [Decidable c] {q : Prog Op Resp α} :
    (if c then p else q).Uses allowed ↔ (c → p.Uses allowed) ∧ (¬ c → q.Uses allowed) := by
  split_ifs with hc
  · exact ⟨fun h => ⟨fun _ => h, fun hn => absurd hc hn⟩, fun h => h.1 hc⟩
  · exact ⟨fun h => ⟨fun hn => absurd hn hc, fun _ => h⟩, fun h => h.2 hc⟩

@[simp] theorem uses_bind :
    (p >>= f).Uses allowed ↔ p.Uses allowed ∧ ∀ a, p.Ends a → (f a).Uses allowed := by
  induction p with
  | ret a =>
    constructor
    · rintro h
      exact ⟨trivial, fun b hb => hb ▸ h⟩
    · intro h
      exact h.2 a rfl
  | op o k ih =>
    constructor
    · intro h
      refine ⟨⟨h.1, fun r => ((ih r).mp (h.2 r)).1⟩, fun a ha => ?_⟩
      obtain ⟨r, hr⟩ := ha
      exact ((ih r).mp (h.2 r)).2 a hr
    · intro h
      exact ⟨h.1.1, fun r => (ih r).mpr ⟨h.1.2 r, fun a ha => h.2 a ⟨r, ha⟩⟩⟩

theorem Prog.Uses.bind (h : p.Uses allowed) (hf : ∀ a, (f a).Uses allowed) :
    (p >>= f).Uses allowed := uses_bind.mpr ⟨h, fun a _ => hf a⟩

theorem Prog.Uses.mono {weaker : Op → Prop} (h : p.Uses allowed) (hw : ∀ o, allowed o → weaker o) :
    p.Uses weaker := by
  induction p with
  | ret a => trivial
  | op o k ih => exact ⟨hw o h.1, fun r => ih r (h.2 r)⟩

end Uses

/-! ### Running alone -/

section Exec

variable {St : Type} {perform : St → (o : Op) → Option (Resp o × St)} {s : St}

/-- The program from its start to its end; `none` if an operation has no answer. -/
def Prog.exec (perform : St → (o : Op) → Option (Resp o × St)) :
    Prog Op Resp α → St → Option (α × St)
  | .ret a, s => some (a, s)
  | .op o k, s => (perform s o).bind fun r => (k r.1).exec perform r.2

@[simp] theorem exec_pure {a : α} :
    (pure a : Prog Op Resp α).exec perform s = some (a, s) := rfl

@[simp] theorem exec_call {o : Op} :
    (call o : Prog Op Resp (Resp o)).exec perform s = perform s o := by
  change ((perform s o).bind fun r => some (r.1, r.2)) = perform s o
  simp

@[simp] theorem exec_bind {p : Prog Op Resp α} {f : α → Prog Op Resp β} :
    (p >>= f).exec perform s = (p.exec perform s).bind fun r => (f r.1).exec perform r.2 := by
  induction p generalizing s with
  | ret a => rfl
  | op o k ih =>
    change ((perform s o).bind fun r => (k r.1 >>= f).exec perform r.2) =
      ((perform s o).bind fun r => (k r.1).exec perform r.2).bind fun r => (f r.1).exec perform r.2
    simp only [ih, Option.bind_assoc]

theorem exec_bind_of_eq {p : Prog Op Resp α} {f : α → Prog Op Resp β} {a : α} {s' : St}
    (h : p.exec perform s = some (a, s')) : (p >>= f).exec perform s = (f a).exec perform s' := by
  rw [exec_bind, h, Option.bind_some]

theorem exec_bind_eq_some {p : Prog Op Resp α} {f : α → Prog Op Resp β} {b : β} {s' : St} :
    (p >>= f).exec perform s = some (b, s') ↔
      ∃ a s₁, p.exec perform s = some (a, s₁) ∧ (f a).exec perform s₁ = some (b, s') := by
  rw [exec_bind, Option.bind_eq_some_iff]
  constructor
  · rintro ⟨x, hx, hr⟩
    exact ⟨x.1, x.2, hx, hr⟩
  · rintro ⟨a, s₁, hx, hr⟩
    exact ⟨(a, s₁), hx, hr⟩

theorem ends_of_exec {p : Prog Op Resp α} {a : α} {s' : St}
    (h : p.exec perform s = some (a, s')) : p.Ends a := by
  induction p generalizing s with
  | ret b => exact (Prod.mk.inj (Option.some_injective _ h)).1
  | op o k ih =>
    obtain ⟨r, -, hrest⟩ := Option.bind_eq_some_iff.mp h
    exact ⟨r.1, ih r.1 hrest⟩

/-- What every allowed operation keeps holds at the end of a program. -/
theorem Prog.Uses.exec {allowed : Op → Prop} {p : Prog Op Resp α} {a : α} {s' : St}
    (hu : p.Uses allowed) (Inv : St → Prop)
    (hkeep : ∀ s o r s', allowed o → Inv s → perform s o = some (r, s') → Inv s')
    (hs : Inv s) (h : p.exec perform s = some (a, s')) : Inv s' := by
  induction p generalizing s with
  | ret b =>
    obtain ⟨-, rfl⟩ := Prod.mk.inj (Option.some_injective _ h)
    exact hs
  | op o k ih =>
    obtain ⟨r, hr, hrest⟩ := Option.bind_eq_some_iff.mp h
    exact ih r.1 (hu.2 r.1) (hkeep s o r.1 r.2 hu.1 hs hr) hrest

end Exec

/-! ### Contracts -/

structure Contract (Op : Type) (Resp : Op → Type) (G : Type) where
  pre : Op → G → Prop
  post : (o : Op) → G → Resp o → G → Prop

variable {G : Type} {C : Contract Op Resp G} {g : G} {Q : α → G → Prop}

/-- From `g` on the program keeps to the contract and ends in `Q`. -/
def Safe (C : Contract Op Resp G) : Prog Op Resp α → G → (α → G → Prop) → Prop
  | .ret a, g, Q => Q a g
  | .op o k, g, Q => C.pre o g ∧ ∀ r g', C.post o g r g' → Safe C (k r) g' Q

@[simp] theorem safe_pure {a : α} : Safe C (pure a) g Q ↔ Q a g := Iff.rfl

@[simp] theorem safe_call {o : Op} {Q : Resp o → G → Prop} :
    Safe C (call o) g Q ↔ C.pre o g ∧ ∀ r g', C.post o g r g' → Q r g' := Iff.rfl

@[simp] theorem safe_bind {p : Prog Op Resp α} {f : α → Prog Op Resp β} {Q : β → G → Prop} :
    Safe C (p >>= f) g Q ↔ Safe C p g fun a g' => Safe C (f a) g' Q := by
  induction p generalizing g with
  | ret a => rfl
  | op o k ih =>
    constructor
    · intro h
      exact ⟨h.1, fun r g' hp => ih r |>.mp (h.2 r g' hp)⟩
    · intro h
      exact ⟨h.1, fun r g' hp => ih r |>.mpr (h.2 r g' hp)⟩

theorem Safe.mono {p : Prog Op Resp α} {Q' : α → G → Prop} (h : Safe C p g Q)
    (hQ : ∀ a g', Q a g' → Q' a g') : Safe C p g Q' := by
  induction p generalizing g with
  | ret a => exact hQ a g h
  | op o k ih => exact ⟨h.1, fun r g' hp => ih r (h.2 r g' hp)⟩

/-- A program whose operations change nothing of what is seen. -/
theorem Prog.Uses.safe {allowed : Op → Prop} {p : Prog Op Resp α} (h : p.Uses allowed)
    (hstill : ∀ o, allowed o → C.pre o g ∧ ∀ r g', C.post o g r g' → g' = g)
    (hQ : ∀ a, Q a g) : Safe C p g Q := by
  induction p with
  | ret a => exact hQ a
  | op o k ih =>
    obtain ⟨hpre, hpost⟩ := hstill o h.1
    refine ⟨hpre, fun r g' hp => ?_⟩
    rw [hpost r g' hp]
    exact ih r (h.2 r)

/-- A contract without demands whose operations act as a function, along a path. -/
theorem Safe.path {next : Sigma Resp → G → G} {p : Prog Op Resp α} {tr : List (Sigma Resp)}
    {a : α} (hnext : ∀ o r g, C.post o g r (next ⟨o, r⟩ g)) (h : Safe C p g Q)
    (hp : Path p tr a) : Q a (tr.foldl (fun g x => next x g) g) := by
  induction hp generalizing g with
  | ret => exact h
  | op _ ih => exact ih (h.2 _ _ (hnext _ _ _))

/-! ### Taking turns -/

/-- A shared state and the program of each task that is in a call. -/
structure Config (ι Op : Type) (Resp : Op → Type) (St α : Type) where
  state : St
  prog : ι → Option (Prog Op Resp α)

section Turns

variable {ι St : Type} [DecidableEq ι] (exec : St → ι → (o : Op) → Resp o → St → Prop)
  (enters : St → ι → Prog Op Resp α → Prop)

inductive Step : Config ι Op Resp St α → Config ι Op Resp St α → Prop where
  | turn {s s' : St} {prog : ι → Option (Prog Op Resp α)} {i : ι} {o : Op}
      {k : Resp o → Prog Op Resp α} {r : Resp o} :
      prog i = some (.op o k) → exec s i o r s' →
      Step ⟨s, prog⟩ ⟨s', Function.update prog i (some (k r))⟩
  | leave {s : St} {prog : ι → Option (Prog Op Resp α)} {i : ι} {a : α} :
      prog i = some (.ret a) → Step ⟨s, prog⟩ ⟨s, Function.update prog i none⟩
  | enter {s : St} {prog : ι → Option (Prog Op Resp α)} {i : ι} {p : Prog Op Resp α} :
      prog i = none → enters s i p → Step ⟨s, prog⟩ ⟨s, Function.update prog i (some p)⟩

abbrev Run := Relation.ReflTransGen (Step exec enters)

theorem Step.mono {exec enters} {exec' : St → ι → (o : Op) → Resp o → St → Prop}
    {c c' : Config ι Op Resp St α} (h : ∀ s i o r s', exec s i o r s' → exec' s i o r s')
    (hs : Step exec enters c c') : Step exec' enters c c' := by
  cases hs with
  | turn hp he => exact .turn hp (h _ _ _ _ _ he)
  | leave hp => exact .leave hp
  | enter hp he => exact .enter hp he

theorem Run.mono {exec enters} {exec' : St → ι → (o : Op) → Resp o → St → Prop}
    {c c' : Config ι Op Resp St α} (h : ∀ s i o r s', exec s i o r s' → exec' s i o r s')
    (hr : Run exec enters c c') : Run exec' enters c c' := by
  induction hr with
  | refl => exact .refl
  | tail _ hs ih => exact ih.tail (hs.mono h)

/-- An operation of task `i` does what the contract says to the view of `i`, keeps the
invariant and leaves the views of the others alone. -/
def Respects (C : Contract Op Resp G) (view : St → ι → G) (Inv : St → Prop) : Prop :=
  ∀ s i o r s', Inv s → C.pre o (view s i) → exec s i o r s' →
    Inv s' ∧ C.post o (view s i) r (view s' i) ∧ ∀ j, j ≠ i → view s' j = view s j

/-- Between calls the view of a task is `rest`; inside a call its program is safe. -/
def Guarded (C : Contract Op Resp G) (view : St → ι → G) (rest : G)
    (c : Config ι Op Resp St α) : Prop :=
  ∀ i, match c.prog i with
    | none => view c.state i = rest
    | some p => Safe C p (view c.state i) fun _ g => g = rest

variable {exec enters} {view : St → ι → G} {Inv : St → Prop} {rest : G}
  {c c' : Config ι Op Resp St α}

theorem Guarded.update (h : Guarded C view rest c) {s : St} {i : ι}
    {o : Option (Prog Op Resp α)} (hj : ∀ j, j ≠ i → view s j = view c.state j)
    (hi : match o with
      | none => view s i = rest
      | some p => Safe C p (view s i) fun _ g => g = rest) :
    Guarded C view rest ⟨s, Function.update c.prog i o⟩ := by
  intro j
  by_cases hji : j = i
  · subst hji
    simpa only [Function.update_self] using hi
  · simp only [Function.update_of_ne hji, hj j hji]
    exact h j

theorem Guarded.step (hr : Respects exec C view Inv)
    (hcall : ∀ s i p, enters s i p → Safe C p rest fun _ g => g = rest)
    (hi : Inv c.state) (h : Guarded C view rest c) (hs : Step exec enters c c') :
    Inv c'.state ∧ Guarded C view rest c' := by
  cases hs with
  | @turn s s' prog i o k r hp he =>
    have hsafe := h i
    simp only [hp] at hsafe
    obtain ⟨hinv, hpost, hothers⟩ := hr s i o r s' hi hsafe.1 he
    exact ⟨hinv, h.update hothers (hsafe.2 r _ hpost)⟩
  | @leave s prog i a hp =>
    have hsafe := h i
    simp only [hp] at hsafe
    exact ⟨hi, h.update (fun _ _ => rfl) hsafe⟩
  | @enter s prog i p hp he =>
    have hrest := h i
    simp only [hp] at hrest
    refine ⟨hi, h.update (fun _ _ => rfl) ?_⟩
    dsimp only
    rw [hrest]
    exact hcall s i p he

/-- What every operation and every call keeps holds in every state of a run. -/
theorem Guarded.run (hr : Respects exec C view Inv)
    (hcall : ∀ s i p, enters s i p → Safe C p rest fun _ g => g = rest)
    (hi : Inv c.state) (h : Guarded C view rest c) (hs : Run exec enters c c') :
    Inv c'.state ∧ Guarded C view rest c' := by
  induction hs with
  | refl => exact ⟨hi, h⟩
  | tail _ hst ih => exact Guarded.step hr hcall ih.1 ih.2 hst

end Turns

end Turns
