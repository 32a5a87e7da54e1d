import Zrhos.Sysfile.Model

/-! Stores into a block and what the fields of a block hold behind them. -/
namespace Zrhos.Sysfile
open Fs (Block)

variable {data : Block} {off off' i x : ℕ} {bytes : List ℕ}

@[simp] theorem littleEndian_length (n x : ℕ) : (littleEndian n x).length = n := by
  simp [littleEndian]

theorem littleEndian_getD {n : ℕ} (hi : i < n) :
    (littleEndian n x).getD i 0 = x / 256 ^ i % 256 := by
  simp [littleEndian, List.getD_eq_getElem?_getD, hi]

theorem pad_getD (rest : List ℕ) {n x : ℕ} (hx : x < n) :
    (rest.take n ++ List.replicate (n - (rest.take n).length) 0).getD x 0 = rest.getD x 0 := by
  simp only [List.getD_eq_getElem?_getD]
  by_cases hlt : x < rest.length
  · have hlen : x < (rest.take n).length := by
      rw [List.length_take]
      omega
    rw [List.getElem?_append_left hlen, List.getElem?_take_of_lt hx]
  · have hlen : (rest.take n).length ≤ x := by
      rw [List.length_take]
      omega
    rw [List.getElem?_append_right hlen, List.getElem?_eq_none (not_lt.mp hlt)]
    rw [List.getElem?_replicate]
    split_ifs <;> rfl

theorem writeAt_get (hi : i < bytes.length) : writeAt data off bytes (off + i) = bytes.getD i 0 := by
  unfold writeAt
  rw [if_pos (by omega), Nat.add_sub_cancel_left]

theorem writeAt_of_disjoint (h : i < off ∨ off + bytes.length ≤ i) :
    writeAt data off bytes i = data i := if_neg (by omega)

theorem writeAt_append {as bs : List ℕ} :
    writeAt data off (as ++ bs) = writeAt (writeAt data (off + as.length) bs) off as := by
  funext i
  simp only [writeAt, List.length_append]
  by_cases h : off ≤ i ∧ i < off + as.length
  · rw [if_pos (by omega), if_pos h, List.getD_append _ _ _ _ (by omega)]
  · rw [if_neg h]
    by_cases h' : off + as.length ≤ i ∧ i < off + as.length + bs.length
    · rw [if_pos (by omega), if_pos h', List.getD_append_right _ _ _ _ (by omega), Nat.sub_sub]
    · rw [if_neg (by omega), if_neg h']

theorem half_writeAt_of_disjoint (h : off' + 2 ≤ off ∨ off + bytes.length ≤ off') :
    half (writeAt data off bytes) off' = half data off' := by
  simp only [half]
  rw [writeAt_of_disjoint (by omega), writeAt_of_disjoint (by omega)]

theorem word_writeAt_of_disjoint (h : off' + 4 ≤ off ∨ off + bytes.length ≤ off') :
    word (writeAt data off bytes) off' = word data off' := by
  simp only [word]
  rw [half_writeAt_of_disjoint (by omega), half_writeAt_of_disjoint (by omega)]

theorem short_writeAt_of_disjoint (h : off' + 2 ≤ off ∨ off + bytes.length ≤ off') :
    short (writeAt data off bytes) off' = short data off' := by
  simp only [short, half_writeAt_of_disjoint h]

@[simp] theorem half_writeAt_self : half (writeAt data off (littleEndian 2 x)) off = x % 65536 := by
  have h0 := @writeAt_get data off 0 (littleEndian 2 x) (by simp)
  have h1 := @writeAt_get data off 1 (littleEndian 2 x) (by simp)
  rw [littleEndian_getD (by decide)] at h0 h1
  simp only [half, Nat.add_zero] at *
  rw [h0, h1]
  omega

@[simp] theorem word_writeAt_self : word (writeAt data off (littleEndian 4 x)) off = x % 2 ^ 32 := by
  have hbyte (i : ℕ) (hi : i < 4) := @writeAt_get data off i (littleEndian 4 x) (by simpa using hi)
  have h0 := hbyte 0 (by decide)
  have h1 := hbyte 1 (by decide)
  have h2 := hbyte 2 (by decide)
  have h3 := hbyte 3 (by decide)
  rw [littleEndian_getD (by decide)] at h0 h1 h2 h3
  simp only [word, half, Nat.add_assoc, Nat.add_zero, Nat.reduceAdd] at *
  rw [h0, h1, h2, h3]
  omega

@[simp] theorem short_writeAt_self {v : ℤ} (hv : -32768 ≤ v ∧ v < 32768) :
    short (writeAt data off (shortBytes v)) off = v := by
  simp only [short, shortBytes, half_writeAt_self]
  split_ifs <;> omega

theorem half_writeAt_zero {n : ℕ} (h : off ≤ off' ∧ off' + 2 ≤ off + n) :
    half (writeAt data off (List.replicate n 0)) off' = 0 := by
  have hbyte (j : ℕ) (hj : off ≤ j ∧ j < off + n) :
      writeAt data off (List.replicate n 0) j = 0 := by
    unfold writeAt
    rw [if_pos (by simpa using hj), List.getD_eq_getElem?_getD, List.getElem?_replicate]
    split_ifs <;> rfl
  simp only [half]
  rw [hbyte off' (by omega), hbyte (off' + 1) (by omega)]

theorem word_writeAt_zero {n : ℕ} (h : off ≤ off' ∧ off' + 4 ≤ off + n) :
    word (writeAt data off (List.replicate n 0)) off' = 0 := by
  simp only [word]
  rw [half_writeAt_zero (by omega), half_writeAt_zero (by omega)]

/-- A table of numbers that is stored in one piece. -/
theorem word_writeAt_table {n j : ℕ} (f : ℕ → ℕ) (hj : j < n) :
    word (writeAt data off ((List.range n).flatMap fun i => littleEndian 4 (f i))) (off + 4 * j) =
      f j % 2 ^ 32 := by
  have hlen (m : ℕ) : ((List.range m).flatMap fun i => littleEndian 4 (f i)).length = 4 * m := by
    simp [List.length_flatMap, Nat.mul_comm]
  induction n generalizing data with
  | zero => exact absurd hj (Nat.not_lt_zero j)
  | succ n ih =>
    rw [List.range_succ, List.flatMap_append, List.flatMap_singleton, writeAt_append, hlen]
    by_cases hjn : j = n
    · subst hjn
      rw [word_writeAt_of_disjoint (by rw [hlen]; omega), word_writeAt_self]
    · exact ih (by omega)

/-! ### Stores into an inode -/

/-- An inode that has just been allocated: all of it is zero but the type. -/
structure Dinode.Fresh (d : Dinode) (type : ℤ) : Prop where
  type : d.type = type
  nlink : d.nlink = 0
  size : d.size = 0
  addrs : ∀ i ≤ NDIRECT, d.addrs i = 0

theorem dinodeAt_fresh (k : ℕ) {v : ℤ} (hv : -32768 ≤ v ∧ v < 32768) :
    (dinodeAt (writeAt (writeAt data (64 * k) (List.replicate 64 0)) (64 * k) (shortBytes v))
      k).Fresh v := by
  have hlen : (shortBytes v).length = 2 := littleEndian_length 2 _
  constructor
  case type => exact short_writeAt_self hv
  case nlink =>
    simp only [dinodeAt, short]
    rw [half_writeAt_of_disjoint (by omega), half_writeAt_zero (by omega)]
    rfl
  case size =>
    simp only [dinodeAt]
    rw [word_writeAt_of_disjoint (by omega), word_writeAt_zero (by omega)]
  case addrs =>
    intro i hi
    have hi' : i ≤ 12 := hi
    simp only [dinodeAt]
    rw [word_writeAt_of_disjoint (by omega), word_writeAt_zero (by omega)]

/-- What `iupdate` stores is read back. -/
theorem dinodeAt_dinodeBytes (data : Block) (k : ℕ) (d : Dinode) :
    (dinodeAt (writeAt data (64 * k) (dinodeBytes d)) k).size = d.size % 2 ^ 32 ∧
    ∀ i ≤ NDIRECT, (dinodeAt (writeAt data (64 * k) (dinodeBytes d)) k).addrs i =
      d.addrs i % 2 ^ 32 := by
  have hshort (v : ℤ) : (shortBytes v).length = 2 := littleEndian_length 2 _
  have hsize := littleEndian_length 4 d.size
  unfold dinodeBytes
  constructor
  · rw [writeAt_append, writeAt_append]
    simp only [dinodeAt, List.length_append, hshort, hsize]
    rw [word_writeAt_of_disjoint (by simp [hshort]), word_writeAt_self]
  · intro i hi
    rw [writeAt_append]
    simp only [dinodeAt, List.length_append, hshort, hsize]
    rw [word_writeAt_of_disjoint (by simp [hshort, hsize]),
      word_writeAt_table d.addrs (Nat.lt_succ_of_le hi)]

theorem dinodeAt_setSize (k : ℕ) : dinodeAt (writeAt data (64 * k + 8) (littleEndian 4 x)) k =
    { dinodeAt data k with size := x % 2 ^ 32 } := by
  have hlen := littleEndian_length 4 x
  simp only [dinodeAt, word_writeAt_self]
  congr 1
  · exact short_writeAt_of_disjoint (by omega)
  · exact short_writeAt_of_disjoint (by omega)
  · exact short_writeAt_of_disjoint (by omega)
  · exact short_writeAt_of_disjoint (by omega)
  · funext i
    exact word_writeAt_of_disjoint (by omega)

theorem dinodeAt_setNlink (k : ℕ) {v : ℤ} (hv : -32768 ≤ v ∧ v < 32768) :
    dinodeAt (writeAt data (64 * k + 6) (shortBytes v)) k = { dinodeAt data k with nlink := v } := by
  have hlen : (shortBytes v).length = 2 := littleEndian_length 2 _
  simp only [dinodeAt, short_writeAt_self hv]
  congr 1
  · exact short_writeAt_of_disjoint (by omega)
  · exact short_writeAt_of_disjoint (by omega)
  · exact short_writeAt_of_disjoint (by omega)
  · exact word_writeAt_of_disjoint (by omega)
  · funext i
    exact word_writeAt_of_disjoint (by omega)

theorem dinodeAt_setAddr (k j : ℕ) :
    dinodeAt (writeAt data (64 * k + 12 + 4 * j) (littleEndian 4 x)) k =
      { dinodeAt data k with
        addrs := Function.update (dinodeAt data k).addrs j (x % 2 ^ 32) } := by
  have hlen := littleEndian_length 4 x
  simp only [dinodeAt]
  congr 1
  · exact short_writeAt_of_disjoint (by omega)
  · exact short_writeAt_of_disjoint (by omega)
  · exact short_writeAt_of_disjoint (by omega)
  · exact short_writeAt_of_disjoint (by omega)
  · exact word_writeAt_of_disjoint (by omega)
  · funext i
    by_cases hi : i = j
    · subst hi
      simp only [word_writeAt_self, Function.update_self]
    · rw [Function.update_of_ne hi]
      exact word_writeAt_of_disjoint (by omega)

end Zrhos.Sysfile
