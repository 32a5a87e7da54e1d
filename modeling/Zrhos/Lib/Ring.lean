import Mathlib.Tactic

/-! Ring buffers behind free-running counters. Entry number `i` of the stream lies at
`i % size`; a machine word that counts the entries keeps the number only up to a power of
two. -/
namespace Ring

variable {α : Type} {size : ℕ} {buf : ℕ → α} {start n k : ℕ} {a : α}

/-- The `n` entries from number `start` on. -/
def window (size : ℕ) (buf : ℕ → α) (start n : ℕ) : List α :=
  (List.range n).map fun i => buf ((start + i) % size)

@[simp] theorem length_window : (window size buf start n).length = n := by simp [window]

@[simp] theorem window_zero : window size buf start 0 = [] := rfl

theorem window_succ :
    window size buf start (n + 1) = window size buf start n ++ [buf ((start + n) % size)] := by
  simp [window, List.range_succ]

theorem window_cons :
    window size buf start (n + 1) = buf (start % size) :: window size buf (start + 1) n := by
  simp only [window, List.range_succ_eq_map, List.map_cons, List.map_map, add_zero]
  congr 2
  funext i
  simp only [Function.comp_apply, Nat.succ_eq_add_one]
  congr 2
  omega

theorem window_drop :
    (window size buf start n).drop k = window size buf (start + k) (n - k) := by
  induction k generalizing start n with
  | zero => simp
  | succ k ih =>
    cases n with
    | zero => simp
    | succ n =>
      rw [window_cons, List.drop_succ_cons, ih]
      congr 1 <;> omega

theorem window_take (hk : k ≤ n) :
    (window size buf start n).take k = window size buf start k := by
  simp [window, ← List.map_take, List.take_range, hk]

theorem window_getElem? (hk : k < n) :
    (window size buf start n)[k]? = some (buf ((start + k) % size)) := by
  simp [window, hk]

theorem window_congr {buf' : ℕ → α}
    (h : ∀ i < n, buf' ((start + i) % size) = buf ((start + i) % size)) :
    window size buf' start n = window size buf start n := by
  apply List.map_congr_left
  intro i hi
  exact h i (List.mem_range.mp hi)

/-- Two numbers less than a lap apart do not share a slot. -/
theorem mod_ne {x y : ℕ} (h : x < y) (hy : y < x + size) : x % size ≠ y % size := by
  intro he
  have hdvd : size ∣ y - x := (Nat.modEq_iff_dvd' h.le).mp he
  have hle : size ≤ y - x := Nat.le_of_dvd (by omega) hdvd
  omega

/-- A write behind the window, less than a lap from its start, leaves it alone. -/
theorem window_update {p : ℕ} (hp : start + n ≤ p) (hlap : p < start + size) :
    window size (Function.update buf (p % size) a) start n = window size buf start n := by
  apply window_congr
  intro i hi
  exact Function.update_of_ne (mod_ne (by omega) (by omega)) _ _

theorem window_push (hn : n < size) :
    window size (Function.update buf ((start + n) % size) a) start (n + 1) =
      window size buf start n ++ [a] := by
  rw [window_succ, window_update le_rfl (by omega), Function.update_self]

/-- The window of a full ring after the oldest entry has been overwritten. -/
theorem window_overwrite (hn : n + 1 = size) :
    window size (Function.update buf (start % size) a) (start + 1) (n + 1) =
      window size buf (start + 1) n ++ [a] := by
  have hslot : start % size = (start + 1 + n) % size := by
    rw [show start + 1 + n = start + size by omega, Nat.add_mod_right]
  rw [hslot, window_push (by omega)]

/-- An entry of a stream after one more has come. -/
theorem getElem?_snoc {l : List α} {b : α} {i : ℕ} (h : (l ++ [a])[i]? = some b) :
    (i < l.length ∧ l[i]? = some b) ∨ (i = l.length ∧ b = a) := by
  rcases lt_trichotomy i l.length with hlt | heq | hgt
  · rw [List.getElem?_append_left hlt] at h
    exact .inl ⟨hlt, h⟩
  · subst heq
    rw [List.getElem?_concat_length] at h
    exact .inr ⟨rfl, (Option.some.inj h).symm⟩
  · rw [List.getElem?_eq_none (by simp; omega)] at h
    cases h

/-! ### Counters in machine words -/

variable {w : ℕ} {x y : ℕ}

theorem slot_ofNat (h : size ∣ 2 ^ w) : (BitVec.ofNat w x).toNat % size = x % size := by
  rw [BitVec.toNat_ofNat, Nat.mod_mod_of_dvd _ h]

theorem ofNat_inj (hxy : x ≤ y) (hy : y < x + 2 ^ w) :
    BitVec.ofNat w x = BitVec.ofNat w y ↔ x = y := by
  constructor
  · intro h
    by_contra hne
    have hmod := congrArg BitVec.toNat h
    simp only [BitVec.toNat_ofNat] at hmod
    exact mod_ne (by omega) hy hmod
  · intro h
    rw [h]

/-- `window_push` where the slots are machine words. -/
theorem window_push_ofNat {ring : ℕ → BitVec w} (hn : n < size) (hx : x < 2 ^ w) :
    window size (fun j => (Function.update ring ((start + n) % size) (BitVec.ofNat w x) j).toNat)
      start (n + 1) = window size (fun j => (ring j).toNat) start n ++ [x] := by
  have hword : (fun j => (Function.update ring ((start + n) % size) (BitVec.ofNat w x) j).toNat) =
      Function.update (fun j => (ring j).toNat) ((start + n) % size) x := by
    funext j
    rw [Function.update_apply, Function.update_apply]
    split_ifs
    · rw [BitVec.toNat_ofNat, Nat.mod_eq_of_lt hx]
    · rfl
  rw [hword, window_push hn]

/-- The distance of two counters survives the wrap. -/
theorem toNat_sub_ofNat (hxy : x ≤ y) (hy : y < x + 2 ^ w) :
    (BitVec.ofNat w y - BitVec.ofNat w x).toNat = y - x := by
  obtain ⟨d, rfl⟩ := Nat.exists_eq_add_of_le hxy
  have hsub : BitVec.ofNat w (x + d) - BitVec.ofNat w x = BitVec.ofNat w d := by
    rw [BitVec.ofNat_add, BitVec.add_comm, BitVec.add_sub_cancel]
  rw [hsub, BitVec.toNat_ofNat, Nat.mod_eq_of_lt (by omega)]
  omega

end Ring
