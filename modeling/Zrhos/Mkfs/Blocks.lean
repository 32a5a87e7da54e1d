import Zrhos.Mkfs.Image

/-! The blocks of an inode in the image: the direct ones, the indirect one and those behind
it, and the steps by which `mkfs` adds to them. -/
namespace Zrhos.Mkfs
open Fs (Block BSIZE IPB Superblock IBLOCK Layout)
open Sysfile (Dinode writeAt littleEndian littleEndian_length word word_writeAt_self
  word_writeAt_of_disjoint NDIRECT)

variable {sb : Superblock} {m m' m'' : Image} {inum k b bno : ℕ} {indirect : Option ℕ}

/-- The address of block `j` of the inode. -/
def Image.addr (sb : Superblock) (inum : ℕ) (m : Image) (j : ℕ) : ℕ :=
  if j < NDIRECT then (m.dinode sb inum).addrs j
  else word (m.block ((m.dinode sb inum).addrs NDIRECT)) (4 * (j - NDIRECT))

/-- Blocks handed out are data blocks. -/
def Data (sb : Superblock) (m : Image) : Prop := ∀ b ∈ m.taken, b ≠ 0 ∧ ¬ Metadata sb b

theorem Data.of_suffix (h : Data sb m') (hs : m.taken <:+ m'.taken) : Data sb m :=
  fun b hb => h b (hs.subset hb)

theorem Data.ne_inode (h : Data sb m) (hl : Layout sb) (hi : inum < sb.ninodes)
    (hb : b ∈ m.taken) : b ≠ IBLOCK inum sb := by
  rintro rfl
  exact (h _ hb).2 (IBLOCK_metadata hl hi)

/-- The inode and the blocks handed out so far are as they were. -/
structure Kept (sb : Superblock) (inum : ℕ) (m m' : Image) : Prop where
  dinode : m'.dinode sb inum = m.dinode sb inum
  taken : ∀ b ∈ m.taken, b ∈ m'.taken
  block : ∀ b ∈ m.taken, m'.block b = m.block b

theorem Kept.trans (h : Kept sb inum m m') (h' : Kept sb inum m' m'') : Kept sb inum m m'' where
  dinode := h'.dinode.trans h.dinode
  taken b hb := h'.taken b (h.taken b hb)
  block b hb := (h'.block b (h.taken b hb)).trans (h.block b hb)

theorem kept_balloc (hl : Layout sb) (hi : inum < sb.ninodes) (hd : Data sb m) :
    Kept sb inum m (balloc sb m).2 where
  dinode := Image.dinode_balloc (IBLOCK_not_inBitmap hl hi)
  taken _ hb := List.mem_cons_of_mem _ hb
  block b hb := balloc_block fun hin => (hd b hb).2 hin.2

/-- A block is allocated and stored into. -/
theorem kept_fill (hl : Layout sb) (hi : inum < sb.ninodes) (hd : Data sb (balloc sb m).2)
    (hnew : (balloc sb m).1 ∉ m.taken) (off : ℕ) (bytes : List ℕ) :
    Kept sb inum m ((balloc sb m).2.write (balloc sb m).1 off bytes) := by
  have hkept : Kept sb inum m (balloc sb m).2 :=
    kept_balloc hl hi (hd.of_suffix (List.suffix_cons _ _))
  have hinode : IBLOCK inum sb ≠ (balloc sb m).1 :=
    (hd.ne_inode hl hi (List.mem_cons_self ..)).symm
  constructor
  case dinode => rw [Image.dinode_write off bytes hinode, hkept.dinode]
  case taken => exact hkept.taken
  case block =>
    intro b hb
    have hne : b ≠ (balloc sb m).1 := fun he => hnew (he ▸ hb)
    rw [Image.write_of_ne off bytes hne, hkept.block b hb]

/-! ### The addresses in use -/

/-- The first `k` blocks have addresses of their own, apart from the indirect block. -/
structure Blocks (sb : Superblock) (inum k : ℕ) (indirect : Option ℕ) (m : Image) : Prop where
  indirect_none : indirect = none → k ≤ NDIRECT
  indirect_some : ∀ b ∈ indirect, (m.dinode sb inum).addrs NDIRECT = b ∧ b ∈ m.taken
  taken : ∀ j < k, m.addr sb inum j ∈ m.taken
  apart : ∀ j < k, m.addr sb inum j ∉ indirect
  inj : ∀ j < k, ∀ j' < k, m.addr sb inum j = m.addr sb inum j' → j = j'

theorem blocks_zero : Blocks sb inum 0 none m where
  indirect_none _ := Nat.zero_le _
  indirect_some := by simp
  taken j hj := absurd hj (Nat.not_lt_zero j)
  apart j hj := absurd hj (Nat.not_lt_zero j)
  inj j hj := absurd hj (Nat.not_lt_zero j)

theorem Blocks.addr_kept (h : Blocks sb inum k indirect m) (hk : Kept sb inum m m') {j : ℕ}
    (hj : j < k) : m'.addr sb inum j = m.addr sb inum j := by
  simp only [Image.addr, hk.dinode]
  split_ifs with hd
  · rfl
  · cases indirect with
    | none =>
      have := h.indirect_none rfl
      omega
    | some b =>
      obtain ⟨hb, hmem⟩ := h.indirect_some b rfl
      rw [hb, hk.block b hmem]

theorem Blocks.kept (h : Blocks sb inum k indirect m) (hk : Kept sb inum m m') :
    Blocks sb inum k indirect m' := by
  constructor
  case indirect_none => exact h.indirect_none
  case indirect_some =>
    intro b hb
    rw [hk.dinode]
    exact ⟨(h.indirect_some b hb).1, hk.taken b (h.indirect_some b hb).2⟩
  case taken =>
    intro j hj
    rw [h.addr_kept hk hj]
    exact hk.taken _ (h.taken j hj)
  case apart =>
    intro j hj
    rw [h.addr_kept hk hj]
    exact h.apart j hj
  case inj =>
    intro j hj j' hj'
    rw [h.addr_kept hk hj, h.addr_kept hk hj']
    exact h.inj j hj j' hj'

theorem Blocks.of_addr (h : Blocks sb inum k indirect m)
    (hind : (m'.dinode sb inum).addrs NDIRECT = (m.dinode sb inum).addrs NDIRECT)
    (ht : m'.taken = m.taken) (ha : ∀ j < k, m'.addr sb inum j = m.addr sb inum j) :
    Blocks sb inum k indirect m' := by
  constructor
  case indirect_none => exact h.indirect_none
  case indirect_some =>
    rw [hind, ht]
    exact h.indirect_some
  case taken =>
    intro j hj
    rw [ha j hj, ht]
    exact h.taken j hj
  case apart =>
    intro j hj
    rw [ha j hj]
    exact h.apart j hj
  case inj =>
    intro j hj j' hj'
    rw [ha j hj, ha j' hj']
    exact h.inj j hj j' hj'

/-- The addresses of the first `k` blocks and what is in the blocks other than the indirect
one are as they were. -/
structure Same (sb : Superblock) (inum k : ℕ) (indirect : Option ℕ) (m m' : Image) : Prop where
  type : (m'.dinode sb inum).type = (m.dinode sb inum).type
  size : (m'.dinode sb inum).size = (m.dinode sb inum).size
  taken : m'.taken = m.taken
  block : ∀ b ∉ indirect, b ≠ IBLOCK inum sb → m'.block b = m.block b
  addr : ∀ j < k, m'.addr sb inum j = m.addr sb inum j

theorem Blocks.extend (h : Blocks sb inum k indirect m) (hs : Same sb inum k indirect m m')
    (hind : (m'.dinode sb inum).addrs NDIRECT = (m.dinode sb inum).addrs NDIRECT)
    (hnone : indirect = none → k < NDIRECT) (hself : m'.addr sb inum k = bno)
    (hmem : bno ∈ m.taken) (hapart : bno ∉ indirect) (hnew : ∀ j < k, m.addr sb inum j ≠ bno) :
    Blocks sb inum (k + 1) indirect m' := by
  have hsplit {P : ℕ → Prop} (hk : P k) (hlt : ∀ j < k, P j) (j : ℕ) (hj : j < k + 1) : P j := by
    rcases Nat.lt_succ_iff_lt_or_eq.mp hj with hj | rfl
    · exact hlt j hj
    · exact hk
  constructor
  case indirect_none => exact hnone
  case indirect_some =>
    intro b hb
    rw [hind, hs.taken]
    exact h.indirect_some b hb
  case taken =>
    rw [hs.taken]
    apply hsplit
    · rw [hself]
      exact hmem
    · intro j hj
      rw [hs.addr j hj]
      exact h.taken j hj
  case apart =>
    apply hsplit
    · rw [hself]
      exact hapart
    · intro j hj
      rw [hs.addr j hj]
      exact h.apart j hj
  case inj =>
    apply hsplit
    · apply hsplit
      · exact fun _ => rfl
      · intro j hj he
        rw [hself, hs.addr j hj] at he
        exact absurd he.symm (hnew j hj)
    · intro j hj
      apply hsplit
      · intro he
        rw [hself, hs.addr j hj] at he
        exact absurd he (hnew j hj)
      · intro j' hj'
        rw [hs.addr j hj, hs.addr j' hj']
        exact h.inj j hj j' hj'

/-- The address of a direct block is stored. -/
theorem Blocks.direct (h : Blocks sb inum k indirect m) (hk : k < NDIRECT)
    (hlt : bno < 2 ^ 32) (hmem : bno ∈ m.taken) (hind : bno ∉ indirect) (hnew : ∀ j < k, m.addr sb inum j ≠ bno) :
    Blocks sb inum (k + 1) indirect (m.setAddr sb inum k bno) ∧
      Same sb inum k indirect m (m.setAddr sb inum k bno) ∧
      (m.setAddr sb inum k bno).addr sb inum k = bno := by
  have hdin := Image.dinode_setAddr sb inum m k bno
  have hself : (m.setAddr sb inum k bno).addr sb inum k = bno := by
    simp only [Image.addr, hk, if_true, hdin, Function.update_self]
    exact Nat.mod_eq_of_lt hlt
  have hs : Same sb inum k indirect m (m.setAddr sb inum k bno) := by
    constructor
    case type => rw [hdin]
    case size => rw [hdin]
    case taken => rfl
    case block => exact fun b _ hb => Image.setAddr_block hb
    case addr =>
      intro j hj
      have hjd : j < NDIRECT := hj.trans hk
      simp only [Image.addr, hjd, if_true, hdin, Function.update_of_ne hj.ne]
  refine ⟨h.extend hs ?_ (fun _ => hk) hself hmem hind hnew, hs, hself⟩
  simp only [hdin, Function.update_of_ne hk.ne']

/-- The address of the indirect block is stored. -/
theorem Blocks.setIndirect (h : Blocks sb inum k none m) (hlt : b < 2 ^ 32)
    (hmem : b ∈ m.taken) (haddr : ∀ j < k, m.addr sb inum j ≠ b) :
    Blocks sb inum k (some b) (m.setAddr sb inum NDIRECT b) ∧
      Same sb inum k none m (m.setAddr sb inum NDIRECT b) := by
  have hk := h.indirect_none rfl
  have hdin := Image.dinode_setAddr sb inum m NDIRECT b
  have hother (j : ℕ) (hj : j < k) :
      (m.setAddr sb inum NDIRECT b).addr sb inum j = m.addr sb inum j := by
    have hjd : j < NDIRECT := by omega
    simp only [Image.addr, hjd, if_true, hdin, Function.update_of_ne hjd.ne]
  constructor
  · constructor
    case indirect_none => exact fun hc => absurd hc (Option.some_ne_none b)
    case indirect_some =>
      intro b' hb'
      obtain rfl : b = b' := Option.some_injective _ hb'
      simp only [hdin, Function.update_self, Image.setAddr_taken]
      exact ⟨Nat.mod_eq_of_lt hlt, hmem⟩
    case taken =>
      intro j hj
      rw [hother j hj]
      exact h.taken j hj
    case apart =>
      intro j hj hc
      rw [hother j hj] at hc
      exact haddr j hj (Option.some_injective _ hc).symm
    case inj =>
      intro j hj j' hj'
      rw [hother j hj, hother j' hj']
      exact h.inj j hj j' hj'
  · constructor
    case type => rw [hdin]
    case size => rw [hdin]
    case taken => rfl
    case block => exact fun b _ hb => Image.setAddr_block hb
    case addr => exact hother

/-- The address of a block is stored in the indirect block. -/
theorem Blocks.behind (h : Blocks sb inum k (some b) m) (hk : NDIRECT ≤ k)
    (hlt : bno < 2 ^ 32) (hmem : bno ∈ m.taken) (hinode : ∀ b ∈ m.taken, b ≠ IBLOCK inum sb)
    (hne : bno ≠ b) (hnew : ∀ j < k, m.addr sb inum j ≠ bno) :
    Blocks sb inum (k + 1) (some b) (m.write b (4 * (k - NDIRECT)) (littleEndian 4 bno)) ∧
      Same sb inum k (some b) m (m.write b (4 * (k - NDIRECT)) (littleEndian 4 bno)) ∧
      (m.write b (4 * (k - NDIRECT)) (littleEndian 4 bno)).addr sb inum k = bno := by
  obtain ⟨hb, hbmem⟩ := h.indirect_some b rfl
  have hdin : (m.write b (4 * (k - NDIRECT)) (littleEndian 4 bno)).dinode sb inum =
      m.dinode sb inum := Image.dinode_write _ _ (hinode b hbmem).symm
  have hlen := littleEndian_length 4 bno
  have hself : (m.write b (4 * (k - NDIRECT)) (littleEndian 4 bno)).addr sb inum k = bno := by
    simp only [Image.addr, hdin, hb, Image.write_self, not_lt.mpr hk, if_false,
      word_writeAt_self]
    exact Nat.mod_eq_of_lt hlt
  have hs : Same sb inum k (some b) m
      (m.write b (4 * (k - NDIRECT)) (littleEndian 4 bno)) := by
    constructor
    case type => rw [hdin]
    case size => rw [hdin]
    case taken => rfl
    case block => exact fun b' hb' _ => Image.write_of_ne _ _ fun he => hb' (he ▸ rfl)
    case addr =>
      intro j hj
      simp only [Image.addr, hdin, hb, Image.write_self]
      split_ifs with hjd
      · rfl
      · exact word_writeAt_of_disjoint (by omega)
  have hapart : bno ∉ some b := fun hc => hne (Option.some_injective _ hc).symm
  refine ⟨h.extend hs (by rw [hdin]) (fun hc => absurd hc (Option.some_ne_none b)) hself hmem
    hapart hnew, hs, hself⟩

end Zrhos.Mkfs
