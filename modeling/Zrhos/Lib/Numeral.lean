import Mathlib.Data.Nat.Digits.Lemmas

/-! Numerals in positional notation, as texts of characters with the first digit first. -/
namespace Zrhos.Numeral

/-- The character of a digit below 16. -/
def digitChar (d : ℕ) : ℕ := if d < 10 then d + 48 else d + 97 - 10

def digitValue (c : ℕ) : ℕ := if c < 58 then c - 48 else c + 10 - 97

/-- The character of a digit below 16, with capital letters. -/
def upperChar (d : ℕ) : ℕ := if d < 10 then d + 48 else d + 65 - 10

def upperValue (c : ℕ) : ℕ := if c < 58 then c - 48 else c + 10 - 65

/-- The numeral of `n` without leading zeros. -/
def numeral (base n : ℕ) : List ℕ :=
  if n = 0 then [digitChar 0] else ((Nat.digits base n).map digitChar).reverse

/-- What the digits of a text mean. -/
def value (base : ℕ) (text : List ℕ) : ℕ := Nat.ofDigits base (text.reverse.map digitValue)

/-- The numeral of `n` without leading zeros, in the characters that `digit` gives. -/
def numeralIn (digit : ℕ → ℕ) (base n : ℕ) : List ℕ :=
  if n = 0 then [digit 0] else ((Nat.digits base n).map digit).reverse

/-- The last `width` digits of `n`, with the zeros in front. -/
def fixedIn (digit : ℕ → ℕ) (base width n : ℕ) : List ℕ :=
  ((List.range width).map fun i => digit (n / base ^ i % base)).reverse

/-- What the digits of a text mean, by the value that `read` gives a character. -/
def valueIn (read : ℕ → ℕ) (base : ℕ) (text : List ℕ) : ℕ :=
  Nat.ofDigits base (text.reverse.map read)

variable {base m n d c k width : ℕ} {digit digit' read : ℕ → ℕ}

/-! ### Numerals in any characters -/

theorem numeralIn_of_ne_zero (h : n ≠ 0) :
    numeralIn digit base n = ((Nat.digits base n).map digit).reverse := if_neg h

theorem numeralIn_ne_nil : numeralIn digit base n ≠ [] := by
  unfold numeralIn
  split_ifs with h
  · exact List.cons_ne_nil _ _
  · simpa [Nat.digits_eq_nil_iff_eq_zero] using h

theorem numeralIn_length_pos : 0 < (numeralIn digit base n).length :=
  List.length_pos_of_ne_nil numeralIn_ne_nil

theorem mem_numeralIn (h : c ∈ numeralIn digit base n) :
    c = digit 0 ∨ ∃ d ∈ Nat.digits base n, c = digit d := by
  unfold numeralIn at h
  split_ifs at h
  · exact .inl (List.mem_singleton.mp h)
  · obtain ⟨d, hd, rfl⟩ := List.mem_map.mp (List.mem_reverse.mp h)
    exact .inr ⟨d, hd, rfl⟩

/-- Only the characters of the digits below the base matter. -/
theorem numeralIn_congr (hb : 1 < base) (h : ∀ d < base, digit d = digit' d) :
    numeralIn digit base n = numeralIn digit' base n := by
  unfold numeralIn
  rw [h 0 (by omega), List.map_congr_left fun d hd => h d (Nat.digits_lt_base hb hd)]

theorem numeralIn_of_lt (h : n < base) : numeralIn digit base n = [digit n] := by
  unfold numeralIn
  split_ifs with hn
  · rw [hn]
  · rw [Nat.digits_of_lt base n hn h]
    rfl

/-- A longer numeral is the one of its front digits with the last digit behind. -/
theorem numeralIn_of_le (hb : 1 < base) (h : base ≤ n) :
    numeralIn digit base n = numeralIn digit base (n / base) ++ [digit (n % base)] := by
  have hn : 0 < n := by omega
  have hdiv : n / base ≠ 0 := (Nat.div_pos h (by omega)).ne'
  rw [numeralIn_of_ne_zero hn.ne', numeralIn_of_ne_zero hdiv, Nat.digits_def' hb hn,
    List.map_cons, List.reverse_cons]

/-- The numeral of a number with the digits of `m` in front of those of `n`. -/
theorem numeralIn_append (hb : 1 < base) (hm : m ≠ 0) (hn : n ≠ 0) :
    numeralIn digit base (n + base ^ (Nat.digits base n).length * m) =
      numeralIn digit base m ++ numeralIn digit base n := by
  have hsum : n + base ^ (Nat.digits base n).length * m ≠ 0 := by omega
  rw [numeralIn_of_ne_zero hsum, numeralIn_of_ne_zero hm, numeralIn_of_ne_zero hn,
    ← Nat.digits_append_digits (by omega), List.map_append, List.reverse_append]

theorem length_numeralIn_le (hb : 1 < base) (hk : 0 < k) :
    (numeralIn digit base n).length ≤ k ↔ n < base ^ k := by
  unfold numeralIn
  split_ifs with h
  · subst h
    exact iff_of_true hk (Nat.pow_pos (by omega))
  · rw [List.length_reverse, List.length_map, Nat.digits_length_le_iff hb]

theorem length_numeralIn_mono (hb : 1 < base) (h : m ≤ n) :
    (numeralIn digit base m).length ≤ (numeralIn digit base n).length := by
  rw [length_numeralIn_le hb numeralIn_length_pos]
  exact h.trans_lt ((length_numeralIn_le hb numeralIn_length_pos).mp le_rfl)

section
variable (hread : Function.LeftInverse read digit)
include hread

/-- Reading the digits back gives the number. -/
theorem valueIn_numeralIn : valueIn read base (numeralIn digit base n) = n := by
  unfold numeralIn valueIn
  split_ifs with h
  · simp [h, hread 0]
  · rw [List.reverse_reverse, List.map_map, hread.comp_eq_id, List.map_id, Nat.ofDigits_digits]

theorem numeralIn_injective : Function.Injective (numeralIn digit base) := by
  intro m n h
  have hm : valueIn read base (numeralIn digit base m) = m := valueIn_numeralIn hread
  rw [← hm, h, valueIn_numeralIn hread]

/-- Only the number zero starts with the digit zero. -/
theorem head_numeralIn (h : n ≠ 0) : (numeralIn digit base n).head? ≠ some (digit 0) := by
  rw [numeralIn_of_ne_zero h, List.head?_reverse, List.getLast?_map]
  intro hz
  obtain ⟨d, hd, hc⟩ := Option.map_eq_some_iff.mp hz
  obtain rfl := hread.injective hc
  have hne : Nat.digits base n ≠ [] := Nat.digits_ne_nil_iff_ne_zero.mpr h
  rw [List.getLast?_eq_some_getLast hne] at hd
  exact Nat.getLast_digit_ne_zero base h (Option.some.inj hd)

theorem valueIn_fixedIn :
    valueIn read base (fixedIn digit base width n) = n % base ^ width := by
  unfold valueIn fixedIn
  rw [List.reverse_reverse, List.map_map]
  induction width with
  | zero => simp [Nat.mod_one]
  | succ width ih =>
    rw [List.range_succ, List.map_append, Nat.ofDigits_append, ih, List.length_map,
      List.length_range, List.map_singleton, Nat.ofDigits_singleton, Function.comp_apply,
      hread, pow_succ, Nat.mod_mul]

end

theorem length_fixedIn : (fixedIn digit base width n).length = width := by
  rw [fixedIn, List.length_reverse, List.length_map, List.length_range]

/-! ### The characters -/

@[simp] theorem digitValue_digitChar (d : ℕ) : digitValue (digitChar d) = d := by
  unfold digitValue digitChar
  split_ifs <;> omega

@[simp] theorem upperValue_upperChar (d : ℕ) : upperValue (upperChar d) = d := by
  unfold upperValue upperChar
  split_ifs <;> omega

theorem le_digitChar (d : ℕ) : 48 ≤ digitChar d := by
  unfold digitChar
  split_ifs <;> omega

theorem digitChar_eq_upperChar (h : d < 10) : digitChar d = upperChar d := by
  rw [digitChar, upperChar, if_pos h, if_pos h]

theorem numeral_of_ne_zero (h : n ≠ 0) :
    numeral base n = ((Nat.digits base n).map digitChar).reverse := numeralIn_of_ne_zero h

theorem le_of_mem_numeral (h : c ∈ numeral base n) : 48 ≤ c := by
  obtain rfl | ⟨d, -, rfl⟩ := mem_numeralIn h <;> exact le_digitChar _

theorem numeral_ne_nil : numeral base n ≠ [] := numeralIn_ne_nil

theorem numeral_length_pos : 0 < (numeral base n).length := numeralIn_length_pos

theorem value_numeral : value base (numeral base n) = n := valueIn_numeralIn digitValue_digitChar

theorem head_numeral (h : n ≠ 0) : (numeral base n).head? ≠ some (digitChar 0) :=
  head_numeralIn digitValue_digitChar h

/-- Up to base 10 both kinds of characters are the same. -/
theorem numeral_eq_upper (hb : 1 < base) (hb' : base ≤ 10) :
    numeral base n = numeralIn upperChar base n :=
  numeralIn_congr hb fun _ hd => digitChar_eq_upperChar (hd.trans_le hb')

end Zrhos.Numeral
