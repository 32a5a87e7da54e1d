import Zrhos.Klib.Str

/-! The loads of `strncmp`, and when it compares no more than the first `n` characters. A
string is the memory from its first byte on. -/
namespace Zrhos.Klib

/-- A load through one of the two pointers, with the offset from the start of the string. -/
inductive Load where
  | s1 (i : ℕ)
  | s2 (i : ℕ)
  deriving DecidableEq, Repr

def Load.offset : Load → ℕ
  | .s1 i => i
  | .s2 i => i

/-- What follows the loop, with both pointers at `i`. -/
def strncmpEnd (s1 s2 : ℕ → ℕ) (i : ℕ) : ℤ × List Load :=
  if s1 i = 0 then
    if s2 i = 0 then (0, [.s1 i, .s2 i])
    else ((s1 i : ℤ) - s2 i, [.s1 i, .s2 i, .s1 i, .s2 i])
  else ((s1 i : ℤ) - s2 i, [.s1 i, .s1 i, .s2 i])

/-- Loads that come first. -/
def behind (loads : List Load) (r : ℤ × List Load) : ℤ × List Load := (r.1, loads ++ r.2)

/-- The loop with `n` characters left. The pointers stay where they are when one of the four
conditions fails, also when `n` is used up. -/
def strncmpLoop (s1 s2 : ℕ → ℕ) : ℕ → ℕ → ℤ × List Load
  | n, i =>
    if s2 i = 0 then behind [.s2 i] (strncmpEnd s1 s2 i)
    else if s1 i = 0 then behind [.s2 i, .s1 i] (strncmpEnd s1 s2 i)
    else if s1 i ≠ s2 i then behind [.s2 i, .s1 i, .s1 i, .s2 i] (strncmpEnd s1 s2 i)
    else
      behind [.s2 i, .s1 i, .s1 i, .s2 i] <|
        match n with
        | 0 => strncmpEnd s1 s2 i
        | n + 1 => strncmpLoop s1 s2 n (i + 1)

/-- `strncmp` with its loads in order. -/
def strncmpLoads (s1 s2 : ℕ → ℕ) (n : ℕ) : ℤ × List Load := strncmpLoop s1 s2 n 0

/-- The strings agree in the first `n` characters, up to and including a common terminator. -/
def AgreeFirst (n : ℕ) (s t : ℕ → ℕ) : Prop :=
  ∃ k ≤ n, (∀ j < k, s j ≠ 0 ∧ s j = t j) ∧ (k < n → s k = 0 ∧ t k = 0)

/-- The difference of the first characters that are not the same, among the first `n`. -/
def FirstDifference (n : ℕ) (s t : ℕ → ℕ) (d : ℤ) : Prop :=
  ∃ k < n, (∀ j < k, s j ≠ 0 ∧ s j = t j) ∧ s k ≠ t k ∧ d = (s k : ℤ) - t k

/-- A comparison of the first `n` characters, by its result and its loads. -/
structure ComparesFirst (n : ℕ) (s t : ℕ → ℕ) (r : ℤ × List Load) : Prop where
  zero : r.1 = 0 ↔ AgreeFirst n s t
  difference : ¬ AgreeFirst n s t → FirstDifference n s t r.1
  loads : ∀ l ∈ r.2, l.offset < n

/-- The strings differ or end at a character. -/
def StopsAt (s t : ℕ → ℕ) (k : ℕ) : Prop := s k = 0 ∨ s k ≠ t k

variable {s t : ℕ → ℕ} {n i k : ℕ}

theorem not_stopsAt : ¬ StopsAt s t i ↔ s i ≠ 0 ∧ s i = t i := by
  unfold StopsAt
  tauto

theorem strncmpEnd_fst : (strncmpEnd s t i).1 = stopped (s i) (t i) := by
  unfold strncmpEnd stopped
  by_cases hs : s i = 0
  · by_cases ht : t i = 0
    · rw [if_pos hs, if_pos ht, if_pos ⟨hs, ht⟩]
    · rw [if_pos hs, if_neg ht, if_neg fun h => ht h.2]
  · rw [if_neg hs, if_neg fun h => hs h.1]

theorem offset_of_mem_strncmpEnd {l : Load} (h : l ∈ (strncmpEnd s t i).2) : l.offset = i := by
  unfold strncmpEnd at h
  split_ifs at h <;> grind [Load.offset]

theorem s1_mem_strncmpEnd : .s1 i ∈ (strncmpEnd s t i).2 := by
  unfold strncmpEnd
  split_ifs <;> exact List.mem_cons_self

/-- The loads of one evaluation of the loop's condition. -/
def conditionLoads (s1 s2 : ℕ → ℕ) (i : ℕ) : List Load :=
  if s2 i = 0 then [.s2 i]
  else if s1 i = 0 then [.s2 i, .s1 i]
  else [.s2 i, .s1 i, .s1 i, .s2 i]

theorem offset_of_mem_conditionLoads {l : Load} (h : l ∈ conditionLoads s t i) :
    l.offset = i := by
  unfold conditionLoads at h
  split_ifs at h <;> grind [Load.offset]

theorem strncmpLoop_ends (h : n = 0 ∨ StopsAt s t i) :
    strncmpLoop s t n i = behind (conditionLoads s t i) (strncmpEnd s t i) := by
  unfold strncmpLoop conditionLoads
  split_ifs with ht hs hne
  · rfl
  · rfl
  · rfl
  · cases n with
    | zero => rfl
    | succ n =>
      rcases h with h | h | h
      · cases h
      · exact absurd h hs
      · exact absurd h hne

theorem strncmpLoop_goes_on (h : ¬ StopsAt s t i) :
    strncmpLoop s t (n + 1) i =
      behind (conditionLoads s t i) (strncmpLoop s t n (i + 1)) := by
  obtain ⟨hs, heq⟩ := not_stopsAt.mp h
  have ht : t i ≠ 0 := heq ▸ hs
  rw [strncmpLoop, if_neg ht, if_neg hs, if_neg (not_not.mpr heq), conditionLoads, if_neg ht,
    if_neg hs]

/-- The result is the one of the comparison without its loads. -/
theorem strncmpLoop_fst :
    (strncmpLoop s t n i).1 = strncmp n (fun j => s (i + j)) fun j => t (i + j) := by
  induction n generalizing i with
  | zero =>
    rw [strncmpLoop_ends (.inl rfl)]
    exact strncmpEnd_fst
  | succ n ih =>
    unfold strncmp
    by_cases h : StopsAt s t i
    · have hstop : ¬ (t (i + 0) ≠ 0 ∧ s (i + 0) ≠ 0 ∧ s (i + 0) = t (i + 0)) :=
        fun hc => not_stopsAt.mpr hc.2 h
      rw [if_neg hstop, strncmpLoop_ends (.inr h)]
      exact strncmpEnd_fst
    · obtain ⟨hs, heq⟩ := not_stopsAt.mp h
      have hgo : t (i + 0) ≠ 0 ∧ s (i + 0) ≠ 0 ∧ s (i + 0) = t (i + 0) := ⟨heq ▸ hs, hs, heq⟩
      rw [if_pos hgo, strncmpLoop_goes_on h]
      refine ih.trans ?_
      congr 1 <;> funext j <;> rw [Nat.add_right_comm, Nat.add_assoc]

/-- The pointers come to the first position where the strings differ or end, or to the one
behind the `n` characters. Nothing behind it is loaded. -/
theorem strncmpLoop_stop (h : ∀ j < k, ¬ StopsAt s t (i + j)) (hk : k ≤ n)
    (hend : k = n ∨ StopsAt s t (i + k)) :
    (strncmpLoop s t n i).1 = stopped (s (i + k)) (t (i + k)) ∧
      (∀ l ∈ (strncmpLoop s t n i).2, l.offset ≤ i + k) ∧
      .s1 (i + k) ∈ (strncmpLoop s t n i).2 := by
  induction k generalizing i n with
  | zero =>
    rw [Nat.add_zero] at hend ⊢
    rw [strncmpLoop_ends (hend.imp Eq.symm id)]
    refine ⟨strncmpEnd_fst, ?_, List.mem_append_right _ s1_mem_strncmpEnd⟩
    intro l hl
    rcases List.mem_append.mp hl with hl | hl
    · exact (offset_of_mem_conditionLoads hl).le
    · exact (offset_of_mem_strncmpEnd hl).le
  | succ k ih =>
    obtain ⟨n, rfl⟩ := Nat.exists_eq_add_of_le' (Nat.one_le_of_lt hk)
    have hnext : i + (k + 1) = i + 1 + k := by omega
    have hbefore : ∀ j < k, ¬ StopsAt s t (i + 1 + j) := by
      intro j hj
      have hj' := h (j + 1) (Nat.succ_lt_succ hj)
      rwa [← Nat.add_assoc, Nat.add_right_comm] at hj'
    rw [hnext] at hend ⊢
    obtain ⟨hfst, hle, hmem⟩ := ih hbefore (Nat.le_of_succ_le_succ hk) (hend.imp Nat.succ.inj id)
    have hhere : ¬ StopsAt s t i := h 0 (Nat.succ_pos k)
    rw [strncmpLoop_goes_on hhere]
    refine ⟨hfst, ?_, List.mem_append_right _ hmem⟩
    intro l hl
    rcases List.mem_append.mp hl with hl | hl
    · have hi := offset_of_mem_conditionLoads hl
      omega
    · exact hle l hl

/-- Strings that stop among the first `n` characters agree if their agreement ends there. -/
theorem agree_iff_of_stop (h : ∃ k < n, StopsAt s t k) : Agree n s t ↔ AgreeFirst n s t := by
  obtain ⟨m, hm, hstop⟩ := h
  constructor
  · rintro ⟨k, hk, hbefore, heq, hend⟩
    exact ⟨k, hk, hbefore, fun hlt => ⟨hend hlt, heq ▸ hend hlt⟩⟩
  · rintro ⟨k, hk, hbefore, hend⟩
    have hlt : k < n := by
      by_contra hge
      exact not_stopsAt.mpr (hbefore m (by omega)) hstop
    obtain ⟨hs, ht⟩ := hend hlt
    exact ⟨k, hk, hbefore, hs.trans ht.symm, fun _ => hs⟩

/-- `strncmp` compares the first `n` characters only if the strings differ or end there.
Behind `n` equal characters it loads the next two, and its result is theirs. -/
theorem strncmp_first_iff (s t : ℕ → ℕ) (n : ℕ) :
    ComparesFirst n s t (strncmpLoads s t n) ↔ ∃ k < n, s k = 0 ∨ s k ≠ t k := by
  constructor
  · intro hc
    by_contra hno
    have hall : ∀ j < n, ¬ StopsAt s t (0 + j) := by
      intro j hj hstop
      rw [Nat.zero_add] at hstop
      exact hno ⟨j, hj, hstop⟩
    obtain ⟨-, -, hmem⟩ := strncmpLoop_stop hall le_rfl (.inl rfl)
    have hlt := hc.loads _ hmem
    rw [Load.offset, Nat.zero_add] at hlt
    exact lt_irrefl n hlt
  · intro hex
    classical
    -- `k` is the first position where the strings differ or end.
    obtain ⟨k, ⟨hk, hstop⟩, hfirst⟩ : ∃ k, (k < n ∧ StopsAt s t k) ∧
        ∀ j < k, ¬ StopsAt s t j := by
      refine ⟨Nat.find hex, Nat.find_spec hex, fun j hj hj' => Nat.find_min hex hj ⟨?_, hj'⟩⟩
      exact hj.trans (Nat.find_spec hex).1
    have hbefore : ∀ j < k, ¬ StopsAt s t (0 + j) := by
      simpa only [Nat.zero_add] using hfirst
    have hhere : k = n ∨ StopsAt s t (0 + k) := .inr (by rwa [Nat.zero_add])
    obtain ⟨hfst, hle, -⟩ := strncmpLoop_stop hbefore hk.le hhere
    rw [Nat.zero_add] at hfst hle
    refine ⟨?_, ?_, fun l hl => (hle l hl).trans_lt hk⟩
    · rw [← agree_iff_of_stop hex, ← strncmp_eq_zero, strncmpLoads, strncmpLoop_fst]
      simp only [Nat.zero_add]
    · intro hno
      have hne : s k ≠ t k := by
        intro heq
        have hs : s k = 0 := hstop.resolve_right (not_not.mpr heq)
        exact hno ⟨k, hk.le, fun j hj => not_stopsAt.mp (hfirst j hj), fun _ => ⟨hs, heq ▸ hs⟩⟩
      refine ⟨k, hk, fun j hj => not_stopsAt.mp (hfirst j hj), hne, ?_⟩
      rw [strncmpLoads, hfst, stopped, if_neg (fun h0 => hne (h0.1.trans h0.2.symm))]

/-- Two names of 14 characters each that agree, with other bytes behind them: the comparison
of the names gives the difference of those bytes. -/
theorem strncmp_beyond_names :
    let s : ℕ → ℕ := fun i => if i < 14 then 97 else 49
    let t : ℕ → ℕ := fun i => if i < 14 then 97 else 50
    AgreeFirst 14 s t ∧ (strncmpLoads s t 14).1 = -1 ∧
      ¬ ComparesFirst 14 s t (strncmpLoads s t 14) := by
  intro s t
  have hagree : AgreeFirst 14 s t := ⟨14, le_rfl, by decide, fun h => absurd h (lt_irrefl _)⟩
  have hresult : (strncmpLoads s t 14).1 = -1 := by decide
  refine ⟨hagree, hresult, fun hc => ?_⟩
  have hzero := hc.zero.mpr hagree
  rw [hresult] at hzero
  cases hzero

end Zrhos.Klib
