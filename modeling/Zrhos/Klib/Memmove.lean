import Zrhos.Lib.Steps

/-! `memmove` of `klib.c`: every call copies its chunks through one static buffer. Calls on
several CPUs, or of tasks that are preempted, take turns chunk copy by chunk copy. -/
namespace Zrhos.Klib
open Steps

/-- The loop of `memcpy`, between arrays that do not overlap. -/
def memcpy (out : ℕ → ℕ) (pout : ℕ) (src : ℕ → ℕ) (pin : ℕ) : ℕ → ℕ → ℕ
  | 0 => out
  | n + 1 => Function.update (memcpy out pout src pin n) (pout + n) (src (pin + n))

/-- A call of `memmove`: its arguments, the rest `n` to go, the position `i`, and whether a
chunk of it has been copied into the buffer and not out of it yet. -/
structure Memmove where
  dst : ℕ
  src : ℕ
  n : ℕ
  i : ℕ
  loaded : Bool
  deriving DecidableEq, Repr

/-- The memory without the buffer, the buffer and the calls under way. -/
structure Machine (ι : Type) where
  mem : ℕ → ℕ
  buf : ℕ → ℕ
  call : ι → Memmove

def chunk (n : ℕ) : ℕ := if n > 1024 then 1024 else n

variable {ι : Type}

/-- One of the two `memcpy` calls of a round of the loop. -/
def Machine.step [DecidableEq ι] (s : Machine ι) (c : ι) : Option (Machine ι) :=
  let m := s.call c
  if m.n = 0 then none
  else
    let len := chunk m.n
    if m.loaded then
      some { s with
        mem := memcpy s.mem (m.dst + m.i) s.buf 0 len
        call := Function.update s.call c
          { m with n := m.n - len, i := m.i + len, loaded := false } }
    else
      some { s with
        buf := memcpy s.buf 0 s.mem (m.src + m.i) len
        call := Function.update s.call c { m with loaded := true } }

/-- Nothing of the calls has been done yet, and no destination overlaps another region. -/
structure Machine.Begins (s : Machine ι) : Prop where
  start : ∀ c, (s.call c).i = 0 ∧ (s.call c).loaded = false
  apart : ∀ c c' k k', c ≠ c' → k < (s.call c).n → k' < (s.call c').n →
    (s.call c).dst + k ≠ (s.call c').dst + k'
  source : ∀ c c' k k', k < (s.call c).n → k' < (s.call c').n →
    (s.call c).dst + k ≠ (s.call c').src + k'

/-- A call that is done has copied its own source, and nothing else has changed. -/
structure Independent (s₀ s : Machine ι) : Prop where
  copied : ∀ c, (s.call c).n = 0 → ∀ k < (s₀.call c).n,
    s.mem ((s₀.call c).dst + k) = s₀.mem ((s₀.call c).src + k)
  kept : ∀ a, (∀ c, ∀ k < (s₀.call c).n, a ≠ (s₀.call c).dst + k) → s.mem a = s₀.mem a

/-- No call takes the buffer while the chunk of another is in it. -/
def Machine.BufferFree (s : Machine ι) (c : ι) : Prop :=
  (s.call c).loaded = false → ∀ c', (s.call c').loaded = false

/-! ### The copies -/

theorem memcpy_apply (out : ℕ → ℕ) (pout : ℕ) (src : ℕ → ℕ) (pin n a : ℕ) :
    memcpy out pout src pin n a =
      if pout ≤ a ∧ a < pout + n then src (pin + (a - pout)) else out a := by
  induction n with
  | zero =>
    rw [memcpy, if_neg]
    omega
  | succ n ih =>
    rw [memcpy]
    by_cases ha : a = pout + n
    · subst ha
      rw [Function.update_self, if_pos (by omega), Nat.add_sub_cancel_left]
    · rw [Function.update_of_ne ha, ih]
      by_cases hin : pout ≤ a ∧ a < pout + n
      · rw [if_pos hin, if_pos (by omega)]
      · rw [if_neg hin, if_neg (by omega)]

theorem chunk_le (n : ℕ) : chunk n ≤ n := by
  unfold chunk
  split_ifs <;> omega

/-! ### Runs with the buffer free -/

/-- How far the calls have come. -/
structure Copies (s₀ s : Machine ι) : Prop where
  args : ∀ c, (s.call c).dst = (s₀.call c).dst ∧ (s.call c).src = (s₀.call c).src ∧
    (s.call c).i + (s.call c).n = (s₀.call c).n
  alone : ∀ c c', (s.call c).loaded = true → (s.call c').loaded = true → c = c'
  source : ∀ c, ∀ k < (s₀.call c).n,
    s.mem ((s₀.call c).src + k) = s₀.mem ((s₀.call c).src + k)
  done : ∀ c, ∀ k < (s.call c).i,
    s.mem ((s₀.call c).dst + k) = s₀.mem ((s₀.call c).src + k)
  buffer : ∀ c, (s.call c).loaded = true → ∀ k < chunk (s.call c).n,
    s.buf k = s₀.mem ((s₀.call c).src + ((s.call c).i + k))
  kept : ∀ a, (∀ c, ∀ k < (s₀.call c).n, a ≠ (s₀.call c).dst + k) → s.mem a = s₀.mem a

variable {s₀ s s' : Machine ι} {c c' : ι}

theorem Copies.start (h : s₀.Begins) : Copies s₀ s₀ where
  args c := by
    rw [(h.start c).1]
    exact ⟨rfl, rfl, Nat.zero_add _⟩
  alone c c' hc := by
    rw [(h.start c).2] at hc
    cases hc
  source c k _ := rfl
  done c k hk := by
    rw [(h.start c).1] at hk
    exact absurd hk (Nat.not_lt_zero k)
  buffer c hc := by
    rw [(h.start c).2] at hc
    cases hc
  kept a _ := rfl

theorem Copies.independent (h : Copies s₀ s) : Independent s₀ s where
  copied c hn k hk := by
    obtain ⟨-, -, hsum⟩ := h.args c
    apply h.done
    omega
  kept := h.kept

variable [DecidableEq ι]

/-- A chunk goes into the buffer. -/
theorem Copies.load (h : Copies s₀ s) (hfree : ∀ c', (s.call c').loaded = false) :
    Copies s₀ { s with
      buf := memcpy s.buf 0 s.mem ((s.call c).src + (s.call c).i) (chunk (s.call c).n)
      call := Function.update s.call c { s.call c with loaded := true } } := by
  have hsame : ∀ c', (Function.update s.call c { s.call c with loaded := true } c').dst =
        (s.call c').dst ∧
      (Function.update s.call c { s.call c with loaded := true } c').src = (s.call c').src ∧
      (Function.update s.call c { s.call c with loaded := true } c').n = (s.call c').n ∧
      (Function.update s.call c { s.call c with loaded := true } c').i = (s.call c').i := by
    intro c'
    by_cases hc : c' = c
    · subst hc
      rw [Function.update_self]
      exact ⟨rfl, rfl, rfl, rfl⟩
    · rw [Function.update_of_ne hc]
      exact ⟨rfl, rfl, rfl, rfl⟩
  have honly : ∀ c', (Function.update s.call c { s.call c with loaded := true } c').loaded = true →
      c' = c := by
    intro c' hc'
    by_contra hne
    rw [Function.update_of_ne hne, hfree c'] at hc'
    cases hc'
  constructor
  case args =>
    intro c'
    obtain ⟨hdst, hsrc, hn, hi⟩ := hsame c'
    rw [hdst, hsrc, hn, hi]
    exact h.args c'
  case alone => exact fun c₁ c₂ h₁ h₂ => (honly c₁ h₁).trans (honly c₂ h₂).symm
  case source => exact h.source
  case done =>
    intro c' k hk
    rw [(hsame c').2.2.2] at hk
    exact h.done c' k hk
  case buffer =>
    intro c' hc' k hk
    obtain ⟨-, -, hn, hi⟩ := hsame c'
    obtain ⟨-, hsrc, hsum⟩ := h.args c'
    have hle := chunk_le (s.call c').n
    rw [hn] at hk
    rw [hi]
    have hcc := honly c' hc'
    subst hcc
    dsimp only
    rw [memcpy_apply, if_pos (by omega), Nat.sub_zero, hsrc, Nat.add_assoc]
    apply h.source
    omega
  case kept => exact h.kept

/-- A chunk goes to its destination. -/
theorem Copies.store (h₀ : s₀.Begins) (h : Copies s₀ s) (hloaded : (s.call c).loaded = true) :
    Copies s₀ { s with
      mem := memcpy s.mem ((s.call c).dst + (s.call c).i) s.buf 0 (chunk (s.call c).n)
      call := Function.update s.call c
        { s.call c with
          n := (s.call c).n - chunk (s.call c).n
          i := (s.call c).i + chunk (s.call c).n
          loaded := false } } := by
  have hle := chunk_le (s.call c).n
  obtain ⟨hdst, hsrc, hsum⟩ := h.args c
  have hout : ∀ a, (∀ k < (s₀.call c).n, a ≠ (s₀.call c).dst + k) →
      memcpy s.mem ((s.call c).dst + (s.call c).i) s.buf 0 (chunk (s.call c).n) a = s.mem a := by
    intro a ha
    rw [memcpy_apply, if_neg]
    rintro ⟨hlo, hhi⟩
    rw [hdst] at hlo hhi
    apply ha (a - (s₀.call c).dst) <;> omega
  have hothers : ∀ c', c' ≠ c → Function.update s.call c
      { s.call c with
        n := (s.call c).n - chunk (s.call c).n
        i := (s.call c).i + chunk (s.call c).n
        loaded := false } c' = s.call c' := fun c' hc => Function.update_of_ne hc _ _
  constructor
  case args =>
    intro c'
    by_cases hc : c' = c
    · subst hc
      dsimp only
      rw [Function.update_self]
      refine ⟨hdst, hsrc, ?_⟩
      dsimp only
      omega
    · dsimp only
      rw [hothers c' hc]
      exact h.args c'
  case alone =>
    intro c₁ c₂ h₁ _
    dsimp only at h₁
    by_cases hc : c₁ = c
    · subst hc
      rw [Function.update_self] at h₁
      cases h₁
    · rw [hothers c₁ hc] at h₁
      exact absurd (h.alone c₁ c h₁ hloaded) hc
  case source =>
    intro c' k hk
    rw [← h.source c' k hk]
    apply hout
    intro k' hk'
    exact (h₀.source c c' k' k hk' hk).symm
  case done =>
    intro c' k hk
    dsimp only at hk ⊢
    by_cases hc : c' = c
    · subst hc
      rw [Function.update_self] at hk
      dsimp only at hk
      rw [memcpy_apply, hdst]
      by_cases hold : k < (s.call c').i
      · rw [if_neg (by omega)]
        exact h.done c' k hold
      · rw [if_pos (by omega), h.buffer c' hloaded _ (by omega)]
        congr 2
        omega
    · rw [hothers c' hc] at hk
      obtain ⟨-, -, hsum'⟩ := h.args c'
      rw [hout, h.done c' k hk]
      intro k' hk'
      exact (h₀.apart c c' k' k (Ne.symm hc) hk' (by omega)).symm
  case buffer =>
    intro c' hc'
    dsimp only at hc'
    by_cases hc : c' = c
    · subst hc
      rw [Function.update_self] at hc'
      cases hc'
    · rw [hothers c' hc] at hc'
      exact absurd (h.alone c' c hc' hloaded) hc
  case kept =>
    intro a ha
    rw [← h.kept a ha]
    exact hout a (ha c)

theorem Copies.step (h₀ : s₀.Begins) (h : Copies s₀ s) (hfree : s.BufferFree c)
    (hs : s.step c = some s') : Copies s₀ s' := by
  unfold Machine.step at hs
  dsimp only at hs
  split_ifs at hs with hn hloaded
  · cases hs
    exact h.store h₀ hloaded
  · cases hs
    exact h.load (hfree (Bool.eq_false_iff.mpr hloaded))

/-- As long as no call takes the buffer from another, the calls do not disturb each other. -/
theorem memmoves_independent (h₀ : s₀.Begins)
    (hr : Reached Machine.step Machine.BufferFree s₀ s) : Independent s₀ s := by
  have hcopies : Copies s₀ s := by
    apply hr.invariant (Copies.start h₀)
    intro s c s' h hfree hs
    exact h.step h₀ hfree hs
  exact hcopies.independent

/-- Two calls of one byte, from 2 to 0 and from 3 to 1. -/
def twoBytes : Machine Bool where
  mem a := a
  buf _ := 0
  call c := if c then ⟨1, 3, 1, 0, false⟩ else ⟨0, 2, 1, 0, false⟩

theorem twoBytes_begins : twoBytes.Begins where
  start := by decide
  apart c c' k k' hc hk hk' := by
    cases c <;> cases c' <;> simp_all [twoBytes]
  source c c' k k' hk hk' := by
    cases c <;> cases c' <;> simp_all [twoBytes]

theorem memmoves_independent_first : ∃ s, Reached Machine.step Machine.BufferFree twoBytes s ∧
    (s.call false).n = 0 ∧ Independent twoBytes s := by
  have hfree : ∀ c, (twoBytes.call c).loaded = false := by decide
  have hload : Reached Machine.step Machine.BufferFree twoBytes _ :=
    .step .start (fun _ => hfree) (show twoBytes.step false = some _ from rfl)
  have hr := hload.step (a := false) (fun h => by cases h) rfl
  exact ⟨_, hr, rfl, memmoves_independent twoBytes_begins hr⟩

/-- The second call loads the buffer before the first one has emptied it. -/
theorem memmoves_disturbed : ∃ s, Reached Machine.step anyStep twoBytes s ∧
    (∀ c, (s.call c).n = 0) ∧ ¬ Independent twoBytes s := by
  have hrun : after Machine.step anyStep twoBytes [false, true, false, true] = some _ := rfl
  have hr := reached_after hrun
  refine ⟨_, hr, by decide, fun h => ?_⟩
  have hbyte := h.copied false rfl 0 Nat.one_pos
  exact absurd hbyte (by decide)

end Zrhos.Klib
