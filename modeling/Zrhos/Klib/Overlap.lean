import Zrhos.Klib.Memmove

/-! One call of `memmove` in one memory, with the buffer at an address of its own: source and
destination may overlap. -/
namespace Zrhos.Klib

/-- `sizeof(buf)`. -/
def BUF_SIZE : ℕ := 4096

/-- The loop of `memcpy` inside one memory. -/
def memcpyAt (mem : ℕ → ℕ) (out pin : ℕ) : ℕ → ℕ → ℕ
  | 0 => mem
  | n + 1 =>
    Function.update (memcpyAt mem out pin n) (out + n) (memcpyAt mem out pin n (pin + n))

def memmoveLoop (buf dst src : ℕ) : ℕ → (ℕ → ℕ) → ℕ → ℕ → Option (ℕ → ℕ)
  | 0, _, _, _ => none
  | fuel + 1, mem, i, n =>
    if n = 0 then some mem
    else
      let len := chunk n
      let mem := memcpyAt mem buf (src + i) len
      let mem := memcpyAt mem (dst + i) buf len
      memmoveLoop buf dst src fuel mem (i + len) (n - len)

/-- Every round moves at least one byte, so the fuel runs out only on a loop that never
ends. -/
def memmove (mem : ℕ → ℕ) (buf dst src n : ℕ) : Option (ℕ → ℕ) :=
  memmoveLoop buf dst src (n + 1) mem 0 n

/-- The region of `n` bytes at `a` does not meet the buffer. -/
def OffBuffer (buf a n : ℕ) : Prop := a + n ≤ buf ∨ buf + BUF_SIZE ≤ a

/-- The bytes at `dst` are those that were at `src`, and no other byte has changed outside
the buffer. -/
structure Moved (buf dst src n : ℕ) (mem mem' : ℕ → ℕ) : Prop where
  copied : ∀ j < n, mem' (dst + j) = mem (src + j)
  kept : ∀ a, (a < dst ∨ dst + n ≤ a) → (a < buf ∨ buf + BUF_SIZE ≤ a) → mem' a = mem a

/-- A source byte that lies in the destination of an earlier chunk equals the byte that this
chunk puts there. -/
def Undisturbed (mem : ℕ → ℕ) (dst src n : ℕ) : Prop :=
  ∀ j < n, ∀ k < n, src + j = dst + k → k / 1024 < j / 1024 → mem (src + j) = mem (src + k)

variable {mem mem' M M' : ℕ → ℕ} {buf dst src n i fuel : ℕ}

theorem memcpyAt_apply (h : dst + n ≤ src ∨ src + n ≤ dst) (a : ℕ) :
    memcpyAt mem dst src n a =
      if dst ≤ a ∧ a < dst + n then mem (src + (a - dst)) else mem a := by
  induction n generalizing a with
  | zero =>
    rw [memcpyAt, if_neg]
    omega
  | succ n ih =>
    have hread : memcpyAt mem dst src n (src + n) = mem (src + n) := by
      rw [ih (by omega), if_neg]
      omega
    rw [memcpyAt, hread]
    by_cases ha : a = dst + n
    · subst ha
      rw [Function.update_self, if_pos (by omega), Nat.add_sub_cancel_left]
    · rw [Function.update_of_ne ha, ih (by omega)]
      by_cases hin : dst ≤ a ∧ a < dst + n
      · rw [if_pos hin, if_pos (by omega)]
      · rw [if_neg hin, if_neg (by omega)]

theorem chunk_pos (h : n ≠ 0) : 0 < chunk n := by
  unfold chunk
  split_ifs <;> omega

theorem chunk_le_1024 (n : ℕ) : chunk n ≤ 1024 := by
  unfold chunk
  split_ifs <;> omega

/-- A round of the loop. -/
def moveChunk (mem : ℕ → ℕ) (buf dst src i len : ℕ) : ℕ → ℕ :=
  memcpyAt (memcpyAt mem buf (src + i) len) (dst + i) buf len

/-- The source as it is when the round begins comes to the destination. -/
theorem moveChunk_apply {len : ℕ} (hlen : len ≤ 1024) (hsrc : OffBuffer buf (src + i) len)
    (hdst : OffBuffer buf (dst + i) len) {a : ℕ} (ha : a < buf ∨ buf + BUF_SIZE ≤ a) :
    moveChunk mem buf dst src i len a =
      if dst + i ≤ a ∧ a < dst + i + len then mem (src + (a - dst)) else mem a := by
  unfold OffBuffer BUF_SIZE at *
  rw [moveChunk, memcpyAt_apply (by omega)]
  by_cases hin : dst + i ≤ a ∧ a < dst + i + len
  · rw [if_pos hin, if_pos hin, memcpyAt_apply (by omega), if_pos (by omega)]
    congr 1
    omega
  · rw [if_neg hin, if_neg hin, memcpyAt_apply (by omega), if_neg (by omega)]

/-- The first `i` bytes are moved, and nothing else has changed. -/
structure Prefix (buf dst src i : ℕ) (mem M : ℕ → ℕ) : Prop where
  apply : ∀ a, (a < buf ∨ buf + BUF_SIZE ≤ a) →
    M a = if dst ≤ a ∧ a < dst + i then mem (src + (a - dst)) else mem a

theorem Prefix.start : Prefix buf dst src 0 mem mem where
  apply a _ := by
    rw [if_neg]
    omega

/-- A round whose chunk of the source is what it was moves that chunk. -/
theorem Prefix.round {len : ℕ} (h : Prefix buf dst src i mem M) (hlen : len ≤ 1024)
    (hsrc : OffBuffer buf (src + i) len) (hdst : OffBuffer buf (dst + i) len)
    (hchunk : ∀ j, i ≤ j → j < i + len → M (src + j) = mem (src + j)) :
    Prefix buf dst src (i + len) mem (moveChunk M buf dst src i len) where
  apply a ha := by
    rw [moveChunk_apply hlen hsrc hdst ha]
    by_cases hnew : dst + i ≤ a ∧ a < dst + i + len
    · rw [if_pos hnew, if_pos (by omega)]
      apply hchunk <;> omega
    · rw [if_neg hnew, h.apply a ha]
      by_cases hold : dst ≤ a ∧ a < dst + i
      · rw [if_pos hold, if_pos (by omega)]
      · rw [if_neg hold, if_neg (by omega)]

theorem memmoveLoop_succ (hn : n ≠ 0) :
    memmoveLoop buf dst src (fuel + 1) M i n =
      memmoveLoop buf dst src fuel (moveChunk M buf dst src i (chunk n)) (i + chunk n)
        (n - chunk n) := by
  rw [memmoveLoop, if_neg hn]
  rfl

theorem OffBuffer.part {a m k : ℕ} (h : OffBuffer buf a m) (hk : i + k ≤ m) :
    OffBuffer buf (a + i) k := by
  unfold OffBuffer at *
  omega

/-- The loop ends, and keeps what lies outside the rest of the destination. -/
theorem memmoveLoop_keeps (hsrc : OffBuffer buf src (i + n)) (hdst : OffBuffer buf dst (i + n))
    (hfuel : n < fuel) :
    ∃ M', memmoveLoop buf dst src fuel M i n = some M' ∧
      ∀ a, (a < dst + i ∨ dst + (i + n) ≤ a) → (a < buf ∨ buf + BUF_SIZE ≤ a) → M' a = M a := by
  induction fuel generalizing M i n with
  | zero => exact absurd hfuel (Nat.not_lt_zero n)
  | succ fuel ih =>
    by_cases hn : n = 0
    · subst hn
      exact ⟨M, rfl, fun a _ _ => rfl⟩
    · have hpos := chunk_pos hn
      have hle := chunk_le n
      have hrest : i + chunk n + (n - chunk n) = i + n := by omega
      obtain ⟨M', hloop, hkeep⟩ := ih (M := moveChunk M buf dst src i (chunk n))
        (i := i + chunk n) (n := n - chunk n) (hrest ▸ hsrc) (hrest ▸ hdst) (by omega)
      refine ⟨M', (memmoveLoop_succ hn).trans hloop, fun a ha hbuf => ?_⟩
      rw [hkeep a (by omega) hbuf, moveChunk_apply (chunk_le_1024 n) (hsrc.part (by omega))
        (hdst.part (by omega)) hbuf, if_neg (by omega)]

/-- The rest of the bytes is moved if and only if the chunks find their sources undisturbed. -/
theorem memmoveLoop_iff {m : ℕ} (hsrc : OffBuffer buf src m) (hdst : OffBuffer buf dst m)
    (hm : i + n = m) (hi : i % 1024 = 0 ∨ n = 0) (h : Prefix buf dst src i mem M)
    (hloop : memmoveLoop buf dst src fuel M i n = some M') (hfuel : n < fuel) :
    (∀ j, i ≤ j → j < m → M' (dst + j) = mem (src + j)) ↔
      ∀ j, i ≤ j → j < m → ∀ k < m, src + j = dst + k → k / 1024 < j / 1024 →
        mem (src + j) = mem (src + k) := by
  induction fuel generalizing M i n with
  | zero => exact absurd hfuel (Nat.not_lt_zero n)
  | succ fuel ih =>
    by_cases hn : n = 0
    · subst hn
      constructor <;> intro _ j hj hj' <;> omega
    have hpos := chunk_pos hn
    have hle := chunk_le n
    have hle' := chunk_le_1024 n
    rw [memmoveLoop_succ hn] at hloop
    have hrest : i + chunk n + (n - chunk n) = m := by omega
    have hsrc' : OffBuffer buf (src + i) (chunk n) := hsrc.part (by omega)
    have hdst' : OffBuffer buf (dst + i) (chunk n) := hdst.part (by omega)
    have hoff (j : ℕ) (hj : j < m) :
        (dst + j < buf ∨ buf + BUF_SIZE ≤ dst + j) ∧ (src + j < buf ∨ buf + BUF_SIZE ≤ src + j) := by
      unfold OffBuffer at hsrc hdst
      omega
    have hresult (j : ℕ) (hj : i ≤ j) (hj' : j < i + chunk n) : M' (dst + j) = M (src + j) := by
      obtain ⟨M'', hloop', hkeep⟩ := memmoveLoop_keeps
        (M := moveChunk M buf dst src i (chunk n)) (i := i + chunk n) (n := n - chunk n)
        (hrest ▸ hsrc) (hrest ▸ hdst) (show n - chunk n < fuel by omega)
      rw [hloop] at hloop'
      cases hloop'
      rw [hkeep _ (by omega) (hoff j (by omega)).1,
        moveChunk_apply hle' hsrc' hdst' (hoff j (by omega)).1, if_pos (by omega)]
      congr 1
      omega
    have hread (j k : ℕ) (hj : j < m) (hk : k < i) (he : src + j = dst + k) :
        M (src + j) = mem (src + k) := by
      rw [h.apply _ (hoff j hj).2, if_pos (by omega)]
      congr 1
      omega
    have hsame (j : ℕ) (hj : j < m) (hout : src + j < dst ∨ dst + i ≤ src + j) :
        M (src + j) = mem (src + j) := by
      rw [h.apply _ (hoff j hj).2, if_neg (by omega)]
    have hmult : i % 1024 = 0 := hi.resolve_right hn
    -- What this round reads has changed only where an earlier chunk lies.
    have hchunk : (∀ j, i ≤ j → j < i + chunk n → M (src + j) = mem (src + j)) ↔
        ∀ j, i ≤ j → j < i + chunk n → ∀ k < m, src + j = dst + k → k / 1024 < j / 1024 →
          mem (src + j) = mem (src + k) := by
      constructor
      · intro hc j hj hj' k _ he hlt
        rw [← hc j hj hj']
        exact hread j k (by omega) (by omega) he
      · intro hc j hj hj'
        by_cases hin : dst ≤ src + j ∧ src + j < dst + i
        · have he : src + j = dst + (src + j - dst) := by omega
          rw [hread j (src + j - dst) (by omega) (by omega) he]
          exact (hc j hj hj' (src + j - dst) (by omega) he (by omega)).symm
        · exact hsame j (by omega) (by omega)
    have hnext : (i + chunk n) % 1024 = 0 ∨ n - chunk n = 0 := by
      unfold chunk
      split_ifs <;> omega
    have hgo (hc : ∀ j, i ≤ j → j < i + chunk n → M (src + j) = mem (src + j)) :=
      ih hrest hnext (h.round hle' hsrc' hdst' hc) hloop (by omega)
    constructor
    · intro hall j hj hj'
      have hc : ∀ j, i ≤ j → j < i + chunk n → M (src + j) = mem (src + j) := by
        intro j hj hj'
        rw [← hresult j hj hj', hall j hj (by omega)]
      by_cases hin : j < i + chunk n
      · exact hchunk.mp hc j hj hin
      · exact (hgo hc).mp (fun j hj hj' => hall j (by omega) hj') j (by omega) hj'
    · intro hall j hj hj'
      have hc := hchunk.mpr fun j hj hj' => hall j hj (by omega)
      by_cases hin : j < i + chunk n
      · rw [hresult j hj hin, hc j hj hin]
      · exact (hgo hc).mpr (fun j hj hj' => hall j (by omega) hj') j (by omega) hj'

theorem memmove_spec (mem : ℕ → ℕ) (hsrc : OffBuffer buf src n) (hdst : OffBuffer buf dst n) :
    ∃ mem', memmove mem buf dst src n = some mem' ∧
      (∀ a, (a < dst ∨ dst + n ≤ a) → (a < buf ∨ buf + BUF_SIZE ≤ a) → mem' a = mem a) ∧
      ((∀ j < n, mem' (dst + j) = mem (src + j)) ↔ Undisturbed mem dst src n) := by
  have hzero : 0 + n = n := Nat.zero_add n
  obtain ⟨mem', hloop, hkeep⟩ := memmoveLoop_keeps (M := mem) (i := 0) (n := n)
    (hzero ▸ hsrc) (hzero ▸ hdst) (Nat.lt_succ_self n)
  refine ⟨mem', hloop, fun a ha hbuf => hkeep a (by omega) hbuf, ?_⟩
  have hiff := memmoveLoop_iff hsrc hdst hzero (Or.inl rfl) Prefix.start hloop
    (Nat.lt_succ_self n)
  constructor
  · intro hall j hj
    exact hiff.mp (fun j _ hj => hall j hj) j (Nat.zero_le j) hj
  · intro hall j hj
    exact hiff.mpr (fun j _ hj => hall j hj) j (Nat.zero_le j) hj

/-- No content of the memory is disturbed if and only if the destination does not begin
inside the source, or there is only one chunk. -/
theorem forall_undisturbed_iff :
    (∀ mem, Undisturbed mem dst src n) ↔ dst ≤ src ∨ src + n ≤ dst ∨ n ≤ 1024 := by
  constructor
  · intro h
    by_contra hc
    by_cases hsmall : dst - src < 1024
    · have hj := h id 1024 (by omega) (src + 1024 - dst) (by omega) (by omega) (by omega)
      simp only [id_eq] at hj
      omega
    · have hj := h id (dst - src) (by omega) 0 (by omega) (by omega) (by omega)
      simp only [id_eq] at hj
      omega
  · intro h mem j hj k hk he hlt
    omega

/-- `memmove` moves its bytes if and only if no chunk finds that an earlier one has changed
its source; for every content of the memory that is so if and only if the destination does
not begin inside a source of more than one chunk. -/
theorem memmove_iff (mem : ℕ → ℕ) (buf dst src n : ℕ) :
    (OffBuffer buf src n → OffBuffer buf dst n →
      ((∃ mem', memmove mem buf dst src n = some mem' ∧ Moved buf dst src n mem mem') ↔
        Undisturbed mem dst src n)) ∧
    ((∀ mem, Undisturbed mem dst src n) ↔ dst ≤ src ∨ src + n ≤ dst ∨ n ≤ 1024) := by
  refine ⟨fun hsrc hdst => ?_, forall_undisturbed_iff⟩
  obtain ⟨mem', hmove, hkeep, hiff⟩ := memmove_spec mem hsrc hdst
  rw [← hiff]
  constructor
  · rintro ⟨mem'', hmove', hmoved⟩
    rw [hmove] at hmove'
    cases hmove'
    exact hmoved.copied
  · intro hall
    exact ⟨mem', hmove, hall, hkeep⟩

/-- Two bytes down by one: the regions overlap. -/
theorem memmove_iff_two_bytes :
    ∃ mem', memmove id 0 5000 5001 2 = some mem' ∧ Moved 0 5000 5001 2 id mem' :=
  ((memmove_iff id 0 5000 5001 2).1 (Or.inr (by decide)) (Or.inr (by decide))).mpr
    fun j hj k hk he hlt => by omega

/-- A page of numbered bytes up by one byte: the second chunk begins with the last byte of
the first one. -/
theorem memmove_loses_byte :
    ¬ ∃ mem', memmove id 0 5001 5000 4096 = some mem' ∧ Moved 0 5001 5000 4096 id mem' := by
  have hsrc : OffBuffer 0 5000 4096 := Or.inr (by decide)
  have hdst : OffBuffer 0 5001 4096 := Or.inr (by decide)
  obtain ⟨mem', hmove, -, hiff⟩ := memmove_spec id hsrc hdst
  rintro ⟨mem'', hmove', hmoved⟩
  rw [hmove] at hmove'
  cases hmove'
  have hsame := hiff.mp hmoved.copied 1024 (by decide) 1023 (by decide) rfl (by decide)
  exact absurd hsame (by decide)

end Zrhos.Klib
