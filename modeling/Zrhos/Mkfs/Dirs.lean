import Zrhos.Mkfs.Blocks
import Zrhos.Sysfile.Store

/-! The directories that `mkfs` fills entry by entry. -/
namespace Zrhos.Mkfs
open Fs (Block BSIZE IPB ROOTDEV Superblock IBLOCK Layout)
open Sysfile (Dinode dinodeAt writeAt writeAt_get half word NDIRECT NINDIRECT MAXFILE DPB DIRSIZ
  T_DIR)

variable {sb : Superblock} {m m' image : Image} {inum k i n b bno nb : ℕ} {indirect : Option ℕ}
  {ent : List ℕ} {entries : List (List ℕ × ℕ)} {get : ℕ → Image → ℕ × Image} {a : ℕ → ℕ}

/-! ### The search for a slot -/

theorem DPB_eq : DPB = 64 := rfl

/-- The buffer behind entry `i - 1` of the blocks `a`. -/
def bufAt (a : ℕ → ℕ) (i : ℕ) : Option (ℕ × ℕ) :=
  if i = 0 then none else some ((i - 1) / DPB, a ((i - 1) / DPB))

/-- A block is looked for at its first entry only. -/
theorem entryBuf_eq : entryBuf get i (bufAt a i) m =
    if i % DPB = 0 then ((i / DPB, (get (i / DPB) m).1), (get (i / DPB) m).2)
    else ((i / DPB, a (i / DPB)), m) := by
  unfold bufAt
  by_cases h0 : i = 0
  · subst h0
    rfl
  rw [if_neg h0]
  by_cases hmod : i % DPB = 0
  · have hdiv : (i - 1) / DPB + 1 = i / DPB := by
      simp only [DPB_eq] at hmod ⊢
      omega
    have hge : i ≥ i / DPB * DPB := Nat.div_mul_le_self i DPB
    simp only [entryBuf, hdiv, if_pos hge, if_pos hmod]
  · have hdiv : (i - 1) / DPB = i / DPB := by
      simp only [DPB_eq] at hmod ⊢
      omega
    have hlt : ¬ i ≥ (i / DPB + 1) * DPB := by
      simp only [DPB_eq]
      omega
    simp only [entryBuf, hdiv, if_neg hlt, if_neg hmod]

/-- The loop passes over the entries that are taken. -/
theorem appendLoop_scan (sb : Superblock) (inum : ℕ) (ent : List ℕ) {t : ℕ} (hget : ∀ j, j * DPB < t → get j m = (a j, m))
    (hfull : ∀ k < t, slotFree m (a (k / DPB)) k = false) (hit : i ≤ t) (hn : t ≤ i + n) :
    appendLoop sb inum ent get n i (bufAt a i) m =
      appendLoop sb inum ent get (i + n - t) t (bufAt a t) m := by
  induction n generalizing i with
  | zero =>
    obtain rfl : i = t := by omega
    simp
  | succ n ih =>
    by_cases he : i = t
    · subst he
      rw [Nat.add_sub_cancel_left]
    have hlt : i < t := by omega
    have hbuf : entryBuf get i (bufAt a i) m = ((i / DPB, a (i / DPB)), m) := by
      rw [entryBuf_eq]
      split_ifs
      · rw [hget (i / DPB) ((Nat.div_mul_le_self i DPB).trans_lt hlt)]
      · rfl
    have hnext : bufAt a (i + 1) = some (i / DPB, a (i / DPB)) := by
      simp [bufAt]
    conv_lhs => unfold appendLoop
    simp only [hbuf, hfull i hlt, Bool.false_eq_true, if_false]
    rw [← hnext, ih (by omega) (by omega)]
    congr 1
    omega

/-- The loop comes to entry `t`, in a block that is there or in a new one. -/
theorem appendLoop_at (sb : Superblock) (inum : ℕ) (ent : List ℕ) {t : ℕ} {r : ℕ × Image}
    (hget : ∀ j, j * DPB < t → get j m = (a j, m))
    (hfull : ∀ k < t, slotFree m (a (k / DPB)) k = false) (hn : t < n)
    (hr : (if t % DPB = 0 then get (t / DPB) m else (a (t / DPB), m)) = r) :
    appendLoop sb inum ent get n 0 none m =
      if slotFree r.2 r.1 t then (true, putEntry sb inum r.1 t ent r.2)
      else appendLoop sb inum ent get (n - t - 1) (t + 1) (some (t / DPB, r.1)) r.2 := by
  have hscan := appendLoop_scan sb inum ent (i := 0) hget hfull
    (Nat.zero_le t) (by omega : t ≤ 0 + n)
  have hstart : bufAt a 0 = none := rfl
  rw [hstart] at hscan
  obtain ⟨c, hc⟩ : ∃ c, 0 + n - t = c + 1 := ⟨n - t - 1, by omega⟩
  have hc' : n - t - 1 = c := by omega
  rw [hscan, hc, hc']
  conv_lhs => unfold appendLoop
  rw [entryBuf_eq]
  split_ifs at hr ⊢
  all_goals subst hr
  all_goals simp_all

/-- Without a free entry the loop changes nothing. -/
theorem appendLoop_full (hget : ∀ j, j * DPB < n → get j m = (a j, m))
    (hfull : ∀ k < n, slotFree m (a (k / DPB)) k = false) :
    appendLoop sb inum ent get n 0 none m = (false, m) := by
  have hscan := appendLoop_scan sb inum ent (i := 0) hget hfull
    (Nat.zero_le n) (by omega : n ≤ 0 + n)
  have hstart : bufAt a 0 = none := rfl
  have hzero : 0 + n - n = 0 := by omega
  rw [hstart, hzero] at hscan
  rw [hscan]
  rfl

/-! ### The entries of a directory -/

/-- Entry `k` of a directory, in block `b`. -/
structure EntryAt (m : Image) (b k : ℕ) (e : List ℕ × ℕ) : Prop where
  inum : half (m.block b) (16 * (k % DPB)) = e.2
  name : ∀ x < DIRSIZ, m.block b (16 * (k % DPB) + 2 + x) = e.1.getD x 0

/-- Addresses that are not in use are zero. -/
structure Unset (sb : Superblock) (inum nb : ℕ) (indirect : Option ℕ) (m : Image) : Prop where
  direct : ∀ j, nb ≤ j → j < NDIRECT → (m.dinode sb inum).addrs j = 0
  none : indirect = none → (m.dinode sb inum).addrs NDIRECT = 0
  behind : ∀ b ∈ indirect, ∀ j, nb ≤ j → NDIRECT ≤ j → j < MAXFILE →
    word (m.block b) (4 * (j - NDIRECT)) = 0

/-- The directory lists `entries` in `nb` blocks. Blocks that were never handed out are as
they were in `image`. -/
structure Listed (sb : Superblock) (inum : ℕ) (image : Image) (entries : List (List ℕ × ℕ))
    (nb : ℕ) (indirect : Option ℕ) (m : Image) : Prop where
  type : (m.dinode sb inum).type = T_DIR
  size : (m.dinode sb inum).size = 16 * entries.length
  blocks : Blocks sb inum nb indirect m
  unset : Unset sb inum nb indirect m
  fits : entries.length ≤ nb * DPB
  used : ∀ e ∈ entries, e.2 ≠ 0
  entry : ∀ k (hk : k < entries.length), EntryAt m (m.addr sb inum (k / DPB)) k entries[k]
  free : ∀ k, entries.length ≤ k → k < nb * DPB →
    half (m.block (m.addr sb inum (k / DPB))) (16 * (k % DPB)) = 0
  rest : ∀ b ∉ m.taken, ¬ Metadata sb b → m.block b = image.block b

theorem EntryAt.congr {e : List ℕ × ℕ} (h : EntryAt m b k e) (hb : m'.block b = m.block b) :
    EntryAt m' b k e := by
  constructor
  case inum => rw [hb, h.inum]
  case name =>
    intro x hx
    rw [hb, h.name x hx]

theorem Unset.kept (h : Unset sb inum nb indirect m) (hb : Blocks sb inum nb indirect m)
    (hk : Kept sb inum m m') : Unset sb inum nb indirect m' := by
  constructor
  case direct =>
    rw [hk.dinode]
    exact h.direct
  case none =>
    rw [hk.dinode]
    exact h.none
  case behind =>
    intro b hib
    rw [hk.block b (hb.indirect_some b hib).2]
    exact h.behind b hib

theorem Listed.kept (h : Listed sb inum image entries nb indirect m) (hk : Kept sb inum m m')
    (hrest : ∀ b ∉ m'.taken, ¬ Metadata sb b → m'.block b = m.block b) :
    Listed sb inum image entries nb indirect m' := by
  have hblock (k : ℕ) (hkn : k < nb * DPB) :
      m'.addr sb inum (k / DPB) = m.addr sb inum (k / DPB) ∧
        m'.block (m.addr sb inum (k / DPB)) = m.block (m.addr sb inum (k / DPB)) := by
    have hj : k / DPB < nb := Nat.div_lt_of_lt_mul (by rwa [Nat.mul_comm])
    exact ⟨h.blocks.addr_kept hk hj, hk.block _ (h.blocks.taken _ hj)⟩
  constructor
  case type => rw [hk.dinode, h.type]
  case size => rw [hk.dinode, h.size]
  case blocks => exact h.blocks.kept hk
  case unset => exact h.unset.kept h.blocks hk
  case fits => exact h.fits
  case used => exact h.used
  case entry =>
    intro k hkn
    obtain ⟨ha, hb⟩ := hblock k (hkn.trans_le h.fits)
    rw [ha]
    exact (h.entry k hkn).congr hb
  case free =>
    intro k hkn hkb
    obtain ⟨ha, hb⟩ := hblock k hkb
    rw [ha, hb]
    exact h.free k hkn hkb
  case rest =>
    intro b hb hmeta
    rw [hrest b hb hmeta]
    exact h.rest b (fun hc => hb (hk.taken b hc)) hmeta

theorem Blocks.entry_same (h : Blocks sb inum nb indirect m)
    (hs : Same sb inum nb indirect m m') (hinode : ∀ b ∈ m.taken, b ≠ IBLOCK inum sb)
    (hk : k < nb * DPB) : m'.addr sb inum (k / DPB) = m.addr sb inum (k / DPB) ∧
      m'.block (m.addr sb inum (k / DPB)) = m.block (m.addr sb inum (k / DPB)) := by
  have hj : k / DPB < nb := Nat.div_lt_of_lt_mul (by rwa [Nat.mul_comm])
  exact ⟨hs.addr _ hj, hs.block _ (h.apart _ hj) (hinode _ (h.taken _ hj))⟩

/-- An address of the inode or of the indirect block is stored. -/
theorem Listed.same {indirect' : Option ℕ} (h : Listed sb inum image entries nb indirect m)
    (hs : Same sb inum nb indirect m m') (hb : Blocks sb inum nb indirect' m')
    (hu : Unset sb inum nb indirect' m') (hmeta : Metadata sb (IBLOCK inum sb))
    (hinode : ∀ b ∈ m.taken, b ≠ IBLOCK inum sb) :
    Listed sb inum image entries nb indirect' m' := by
  have hblock (k : ℕ) (hkn : k < nb * DPB) := h.blocks.entry_same hs hinode hkn
  constructor
  case type => rw [hs.type, h.type]
  case size => rw [hs.size, h.size]
  case blocks => exact hb
  case unset => exact hu
  case fits => exact h.fits
  case used => exact h.used
  case entry =>
    intro k hkn
    obtain ⟨ha, hb⟩ := hblock k (hkn.trans_le h.fits)
    rw [ha]
    exact (h.entry k hkn).congr hb
  case free =>
    intro k hkn hkb
    obtain ⟨ha, hb⟩ := hblock k hkb
    rw [ha, hb]
    exact h.free k hkn hkb
  case rest =>
    intro b hbt hbm
    rw [hs.taken] at hbt
    rw [hs.block b (fun hc => hbt (h.blocks.indirect_some b hc).2) fun he => hbm (he ▸ hmeta)]
    exact h.rest b hbt hbm

theorem half_zero {data : Block} (hz : ∀ x < BSIZE, data x = 0) (k : ℕ) :
    half data (16 * (k % DPB)) = 0 := by
  have hlt : 16 * (k % DPB) + 1 < BSIZE := by
    simp only [DPB_eq, BSIZE]
    omega
  simp only [half]
  rw [hz _ (by omega), hz _ hlt]

theorem word_zero {data : Block} (hz : ∀ x < BSIZE, data x = 0) {x : ℕ} (hx : x + 4 ≤ BSIZE) :
    word data x = 0 := by
  simp only [word, half]
  rw [hz _ (by omega), hz _ (by omega), hz _ (by omega), hz _ (by omega)]

/-- The directory gets one more block, which is empty. -/
theorem Listed.grow (h : Listed sb inum image entries nb indirect m)
    (hs : Same sb inum nb indirect m m') (hb : Blocks sb inum (nb + 1) indirect m')
    (hself : m'.addr sb inum nb = bno) (hu : Unset sb inum (nb + 1) indirect m')
    (hmeta : Metadata sb (IBLOCK inum sb)) (hinode : ∀ b ∈ m.taken, b ≠ IBLOCK inum sb)
    (hmem : bno ∈ m.taken) (hapart : bno ∉ indirect) (hz : ∀ x < BSIZE, m.block bno x = 0) :
    Listed sb inum image entries (nb + 1) indirect m' := by
  have hblock (k : ℕ) (hkn : k < nb * DPB) := h.blocks.entry_same hs hinode hkn
  constructor
  case type => rw [hs.type, h.type]
  case size => rw [hs.size, h.size]
  case blocks => exact hb
  case unset => exact hu
  case fits =>
    rw [Nat.succ_mul]
    exact h.fits.trans (Nat.le_add_right _ _)
  case used => exact h.used
  case entry =>
    intro k hkn
    obtain ⟨ha, hb⟩ := hblock k (hkn.trans_le h.fits)
    rw [ha]
    exact (h.entry k hkn).congr hb
  case free =>
    intro k hkn hkb
    by_cases hlt : k < nb * DPB
    · obtain ⟨ha, hb⟩ := hblock k hlt
      rw [ha, hb]
      exact h.free k hkn hlt
    · have hdiv : k / DPB = nb := by
        simp only [DPB_eq] at hlt hkb ⊢
        omega
      rw [hdiv, hself, hs.block bno hapart (hinode bno hmem)]
      exact half_zero hz k
  case rest =>
    intro b hbt hbm
    rw [hs.taken] at hbt
    rw [hs.block b (fun hc => hbt (h.blocks.indirect_some b hc).2) fun he => hbm (he ▸ hmeta)]
    exact h.rest b hbt hbm

/-! ### Storing an entry -/

theorem direntBytes_length (name : List ℕ) (k : ℕ) : (direntBytes name k).length = 16 := by
  simp only [direntBytes, List.length_append, Sysfile.littleEndian_length, List.length_rightpad,
    List.length_take, DIRSIZ]
  omega

theorem entryAt_write {e : List ℕ × ℕ} (he : e.2 < 65536) :
    EntryAt (m.write b (16 * (k % DPB)) (direntBytes e.1 e.2)) b k e := by
  have hlen := Sysfile.littleEndian_length 2 e.2
  have hpad : ((e.1.take DIRSIZ).rightpad DIRSIZ 0).length = DIRSIZ := by
    simp only [List.length_rightpad, List.length_take, DIRSIZ]
    omega
  constructor
  case inum =>
    rw [Image.write_self, direntBytes, Sysfile.writeAt_append, Sysfile.half_writeAt_self]
    exact Nat.mod_eq_of_lt he
  case name =>
    intro x hx
    rw [Image.write_self, direntBytes, Sysfile.writeAt_append, Sysfile.writeAt_of_disjoint
      (by omega), hlen, writeAt_get (by rw [hpad]; exact hx)]
    exact Sysfile.pad_getD e.1 hx

theorem half_write_other {off : ℕ} {bytes : List ℕ} (hlen : bytes.length = 16)
    (hne : k % DPB ≠ off % DPB) : half (writeAt (m.block b) (16 * (off % DPB)) bytes)
      (16 * (k % DPB)) = half (m.block b) (16 * (k % DPB)) :=
  Sysfile.half_writeAt_of_disjoint (by omega)

theorem EntryAt.write_other {off : ℕ} {bytes : List ℕ} {e : List ℕ × ℕ} (h : EntryAt m b k e)
    (hlen : bytes.length = 16) (hne : k % DPB ≠ off % DPB) :
    EntryAt (m.write b (16 * (off % DPB)) bytes) b k e := by
  constructor
  case inum => rw [Image.write_self, half_write_other hlen hne, h.inum]
  case name =>
    intro x hx
    have hx' : x < 14 := hx
    rw [Image.write_self, Sysfile.writeAt_of_disjoint (by omega), h.name x hx]

/-- The entry goes to the end of the directory. -/
theorem Listed.put {e : List ℕ × ℕ} (h : Listed sb inum image entries nb indirect m)
    (hn : entries.length < nb * DPB) (he : e.2 ≠ 0) (he' : e.2 < 65536)
    (hinode : ∀ b ∈ m.taken, b ≠ IBLOCK inum sb) (hmeta : Metadata sb (IBLOCK inum sb))
    (hmax : 16 * entries.length + 16 < 2 ^ 32) :
    Listed sb inum image (entries ++ [e]) nb indirect
      (putEntry sb inum (m.addr sb inum (entries.length / DPB)) entries.length
        (direntBytes e.1 e.2) m) := by
  have hj : entries.length / DPB < nb := Nat.div_lt_of_lt_mul (by rwa [Nat.mul_comm])
  obtain ⟨b, hb⟩ : ∃ b, b = m.addr sb inum (entries.length / DPB) := ⟨_, rfl⟩
  obtain ⟨m₁, hm₁⟩ : ∃ m₁, m₁ = m.write b (16 * (entries.length % DPB)) (direntBytes e.1 e.2) :=
    ⟨_, rfl⟩
  have hbmem : b ∈ m.taken := hb ▸ h.blocks.taken _ hj
  have hbi : IBLOCK inum sb ≠ b := (hinode b hbmem).symm
  have hdin₁ : m₁.dinode sb inum = m.dinode sb inum := hm₁ ▸ Image.dinode_write _ _ hbi
  rw [← hb]
  simp only [putEntry, ← hm₁, hdin₁, h.size]
  obtain ⟨m₂, hm₂⟩ : ∃ m₂, m₂ = m₁.setSize sb inum (16 * entries.length + 16) := ⟨_, rfl⟩
  rw [← hm₂]
  have hdin : m₂.dinode sb inum =
      { m.dinode sb inum with size := 16 * entries.length + 16 } := by
    rw [hm₂, Image.dinode_setSize, hdin₁, Nat.mod_eq_of_lt hmax]
  have htaken : m₂.taken = m.taken := by rw [hm₂, hm₁]; rfl
  have hblock₁ (b' : ℕ) (h' : b' ≠ IBLOCK inum sb) : m₂.block b' = m₁.block b' :=
    hm₂ ▸ Image.setSize_block h'
  have hblock (b' : ℕ) (h' : b' ≠ IBLOCK inum sb) (hne : b' ≠ b) : m₂.block b' = m.block b' := by
    rw [hblock₁ b' h', hm₁, Image.write_of_ne _ _ hne]
  have hind (b' : ℕ) (hb' : b' ∈ indirect) : m₂.block b' = m.block b' := by
    apply hblock b' (hinode b' (h.blocks.indirect_some b' hb').2)
    rintro rfl
    exact h.blocks.apart _ hj (hb ▸ hb')
  have haddr (j : ℕ) (hjn : j < nb) : m₂.addr sb inum j = m.addr sb inum j := by
    simp only [Image.addr, hdin]
    split_ifs with hd
    · rfl
    · cases indirect with
      | none => exact absurd (hjn.trans_le (h.blocks.indirect_none rfl)) hd
      | some b' => rw [(h.blocks.indirect_some b' rfl).1, hind b' rfl]
  -- the other entries are in other blocks or at other places of this block
  have hother (k : ℕ) (hk : k < nb * DPB) (hne : k ≠ entries.length) :
      m.addr sb inum (k / DPB) ≠ b ∨
        m.addr sb inum (k / DPB) = b ∧ k % DPB ≠ entries.length % DPB := by
    by_cases hc : m.addr sb inum (k / DPB) = b
    · refine Or.inr ⟨hc, fun hmod => hne ?_⟩
      have hkj : k / DPB < nb := Nat.div_lt_of_lt_mul (by rwa [Nat.mul_comm])
      have hdiv := h.blocks.inj _ hkj _ hj (hc.trans hb)
      rw [← Nat.div_add_mod k DPB, hdiv, hmod, Nat.div_add_mod]
    · exact Or.inl hc
  have htake (k : ℕ) (hk : k < nb * DPB) :
      m.addr sb inum (k / DPB) ≠ IBLOCK inum sb := by
    have hkj : k / DPB < nb := Nat.div_lt_of_lt_mul (by rwa [Nat.mul_comm])
    exact hinode _ (h.blocks.taken _ hkj)
  have haddr' (k : ℕ) (hk : k < nb * DPB) :
      m₂.addr sb inum (k / DPB) = m.addr sb inum (k / DPB) :=
    haddr _ (Nat.div_lt_of_lt_mul (by rwa [Nat.mul_comm]))
  constructor
  case type => rw [hdin, h.type]
  case size =>
    rw [hdin, List.length_append, List.length_singleton, Nat.mul_succ]
  case blocks => exact h.blocks.of_addr (by rw [hdin]) htaken haddr
  case unset =>
    constructor
    case direct =>
      rw [hdin]
      exact h.unset.direct
    case none =>
      rw [hdin]
      exact h.unset.none
    case behind =>
      intro b' hb'
      rw [hind b' hb']
      exact h.unset.behind b' hb'
  case fits =>
    rw [List.length_append, List.length_singleton]
    exact hn
  case used =>
    intro e' he'
    rcases List.mem_append.mp he' with he' | he'
    · exact h.used e' he'
    · rw [List.mem_singleton.mp he']
      exact he
  case entry =>
    intro k hk
    rw [List.length_append, List.length_singleton] at hk
    have hkb : k < nb * DPB := by omega
    rw [haddr' k hkb]
    rcases Nat.lt_succ_iff_lt_or_eq.mp hk with hlt | heq
    · rw [List.getElem_append_left hlt]
      have hold := h.entry k hlt
      rcases hother k hkb hlt.ne with hne | ⟨hself, hmod⟩
      · exact hold.congr (hblock _ (htake k hkb) hne)
      · rw [hself] at hold ⊢
        have hw := hold.write_other (direntBytes_length e.1 e.2) hmod
        rw [← hm₁] at hw
        exact hw.congr (hblock₁ b hbi.symm)
    · subst heq
      rw [List.getElem_concat_length rfl, ← hb]
      have hw := entryAt_write (m := m) (b := b) (k := entries.length) he'
      rw [← hm₁] at hw
      exact hw.congr (hblock₁ b hbi.symm)
  case free =>
    intro k hkn hkb
    rw [List.length_append, List.length_singleton] at hkn
    have hold := h.free k (by omega) hkb
    rw [haddr' k hkb]
    rcases hother k hkb (by omega) with hne | ⟨hself, hmod⟩
    · rw [hblock _ (htake k hkb) hne]
      exact hold
    · rw [hself] at hold ⊢
      rw [hblock₁ b hbi.symm, hm₁, Image.write_self, half_write_other (direntBytes_length _ _) hmod]
      exact hold
  case rest =>
    intro b' hb' hm'
    rw [htaken] at hb'
    rw [hblock b' (fun hc => hm' (hc ▸ hmeta)) (fun hc => hb' (hc ▸ hbmem))]
    exact h.rest b' hb' hm'

/-! ### New blocks -/

/-- What is asked of the blocks `balloc` has handed out: they are data blocks, each is handed
out once, and they were zero in the image. -/
structure Supply (sb : Superblock) (image m : Image) : Prop where
  data : Data sb m
  nodup : m.taken.Nodup
  zero : ∀ b ∈ m.taken, ∀ x < BSIZE, image.block b x = 0

theorem Supply.of_suffix (h : Supply sb image m') (hs : m.taken <:+ m'.taken) :
    Supply sb image m where
  data := h.data.of_suffix hs
  nodup := h.nodup.sublist hs.sublist
  zero b hb := h.zero b (hs.subset hb)

theorem Supply.congr (h : Supply sb image m) (ht : m'.taken = m.taken) :
    Supply sb image m' where
  data := by
    unfold Data
    rw [ht]
    exact h.data
  nodup := by
    rw [ht]
    exact h.nodup
  zero := by
    rw [ht]
    exact h.zero

theorem Supply.new (h : Supply sb image (balloc sb m).2) : (balloc sb m).1 ∉ m.taken :=
  (List.nodup_cons.mp h.nodup).1

/-- A block that has just been handed out is still zero. -/
theorem Listed.new_zero (h : Listed sb inum image entries nb indirect m)
    (hs : Supply sb image (balloc sb m).2) :
    ∀ x < BSIZE, (balloc sb m).2.block (balloc sb m).1 x = 0 := by
  intro x hx
  have hmem : (balloc sb m).1 ∈ (balloc sb m).2.taken := List.mem_cons_self ..
  have hmeta := (hs.data _ hmem).2
  rw [balloc_block fun hin => hmeta hin.2, h.rest _ hs.new hmeta]
  exact hs.zero _ hmem x hx

theorem Listed.balloc (h : Listed sb inum image entries nb indirect m) (hl : Layout sb)
    (hi : inum < sb.ninodes) (hs : Supply sb image (balloc sb m).2) :
    Listed sb inum image entries nb indirect (Mkfs.balloc sb m).2 := by
  apply h.kept (kept_balloc hl hi (hs.data.of_suffix (List.suffix_cons _ _)))
  intro b _ hb
  exact balloc_block fun hin => hb hin.2

/-- A step of a directory: the number of its block and the directory with that block. -/
structure Step (sb : Superblock) (inum : ℕ) (image : Image) (entries : List (List ℕ × ℕ))
    (nb : ℕ) (indirect : Option ℕ) (r : ℕ × Image) : Prop where
  listed : Listed sb inum image entries nb indirect r.2
  addr : r.1 = r.2.addr sb inum (nb - 1)

theorem Listed.addr_ne_zero (h : Listed sb inum image entries nb indirect m) (hd : Data sb m)
    {j : ℕ} (hj : j < nb) : m.addr sb inum j ≠ 0 := (hd _ (h.blocks.taken j hj)).1

theorem Listed.directBlock_old (h : Listed sb inum image entries nb indirect m) (hd : Data sb m)
    {j : ℕ} (hj : j < nb) (hjd : j < NDIRECT) :
    directBlock sb inum j m = (m.addr sb inum j, m) := by
  have hne := h.addr_ne_zero hd hj
  simp only [Image.addr, if_pos hjd] at hne ⊢
  simp only [directBlock, if_neg hne]

theorem Listed.behindBlock_old (h : Listed sb inum image entries nb (some b) m) (hd : Data sb m)
    {j : ℕ} (hj : NDIRECT + j < nb) :
    behindBlock sb b j m = (m.addr sb inum (NDIRECT + j), m) := by
  have hne := h.addr_ne_zero hd hj
  have hjd : ¬ NDIRECT + j < NDIRECT := by omega
  simp only [Image.addr, if_neg hjd, (h.blocks.indirect_some b rfl).1,
    Nat.add_sub_cancel_left] at hne ⊢
  simp only [behindBlock, if_neg hne]

theorem Listed.directBlock_new (h : Listed sb inum image entries nb indirect m) (hl : Layout sb)
    (hi : inum < sb.ninodes) (hnb : nb < NDIRECT)
    (hsupply : Supply sb image (directBlock sb inum nb m).2) :
    Step sb inum image entries (nb + 1) indirect (directBlock sb inum nb m) := by
  have hzero : (m.dinode sb inum).addrs nb = 0 := h.unset.direct nb le_rfl hnb
  simp only [directBlock, if_pos hzero] at hsupply ⊢
  have hs : Supply sb image (Mkfs.balloc sb m).2 := hsupply.congr rfl
  have hkept : Kept sb inum m (Mkfs.balloc sb m).2 :=
    kept_balloc hl hi (hs.data.of_suffix (List.suffix_cons _ _))
  have h₁ := h.balloc hl hi hs
  have hmem : (Mkfs.balloc sb m).1 ∈ (Mkfs.balloc sb m).2.taken := List.mem_cons_self ..
  have hinode (b : ℕ) (hb : b ∈ (Mkfs.balloc sb m).2.taken) : b ≠ IBLOCK inum sb :=
    hs.data.ne_inode hl hi hb
  have hapart : (Mkfs.balloc sb m).1 ∉ indirect :=
    fun hc => hs.new (h.blocks.indirect_some _ hc).2
  have hnew : ∀ j < nb, (Mkfs.balloc sb m).2.addr sb inum j ≠ (Mkfs.balloc sb m).1 := by
    intro j hj he
    rw [h.blocks.addr_kept hkept hj] at he
    exact hs.new (he ▸ h.blocks.taken j hj)
  obtain ⟨hb, hsame, hself⟩ := h₁.blocks.direct hnb (balloc_lt hl) hmem hapart hnew
  have hdin := Image.dinode_setAddr sb inum (Mkfs.balloc sb m).2 nb
    (Mkfs.balloc sb m).1
  have hu : Unset sb inum (nb + 1) indirect
      ((Mkfs.balloc sb m).2.setAddr sb inum nb (Mkfs.balloc sb m).1) := by
    constructor
    case direct =>
      intro j hj hjd
      have hne : j ≠ nb := by omega
      simp only [hdin, Function.update_of_ne hne]
      exact h₁.unset.direct j (by omega) hjd
    case none =>
      simp only [hdin, Function.update_of_ne hnb.ne']
      exact h₁.unset.none
    case behind =>
      intro b hb j hj
      rw [Image.setAddr_block (hinode b (h₁.blocks.indirect_some b hb).2)]
      exact h₁.unset.behind b hb j (by omega)
  refine ⟨h₁.grow hsame hb hself hu (IBLOCK_metadata hl hi) hinode hmem hapart (h.new_zero hs), ?_⟩
  simp only [Nat.add_sub_cancel, Image.addr, if_pos hnb]

/-- The indirect block of the directory, allocated if it is missing. -/
theorem Listed.setIndirect (h : Listed sb inum image entries nb indirect m) (hl : Layout sb)
    (hi : inum < sb.ninodes) (hs : Supply sb image (directBlock sb inum NDIRECT m).2) :
    Listed sb inum image entries nb (some (directBlock sb inum NDIRECT m).1)
      (directBlock sb inum NDIRECT m).2 := by
  cases indirect with
  | some b =>
    obtain ⟨hb, hmem⟩ := h.blocks.indirect_some b rfl
    have hold : directBlock sb inum NDIRECT m = (b, m) := by
      by_cases h0 : b = 0
      · simp only [directBlock, hb, if_pos h0] at hs
        have hd := hs.data.of_suffix (m := m) (List.suffix_cons _ _)
        exact absurd h0 (hd b hmem).1
      · simp only [directBlock, hb, if_neg h0]
    rw [hold]
    exact h
  | none =>
    have hzero := h.unset.none rfl
    have hdin := Image.dinode_setAddr sb inum (Mkfs.balloc sb m).2 NDIRECT
      (Mkfs.balloc sb m).1
    have hlt := balloc_lt (m := m) hl
    simp only [directBlock, if_pos hzero, hdin, Function.update_self, Nat.mod_eq_of_lt hlt] at hs ⊢
    have hs₁ : Supply sb image (Mkfs.balloc sb m).2 := hs.congr rfl
    have hkept : Kept sb inum m (Mkfs.balloc sb m).2 :=
      kept_balloc hl hi (hs₁.data.of_suffix (List.suffix_cons _ _))
    have h₁ := h.balloc hl hi hs₁
    have hmem : (Mkfs.balloc sb m).1 ∈ (Mkfs.balloc sb m).2.taken := List.mem_cons_self ..
    have hinode (b : ℕ) (hb : b ∈ (Mkfs.balloc sb m).2.taken) : b ≠ IBLOCK inum sb :=
      hs₁.data.ne_inode hl hi hb
    have hnew : ∀ j < nb, (Mkfs.balloc sb m).2.addr sb inum j ≠ (Mkfs.balloc sb m).1 := by
      intro j hj he
      rw [h.blocks.addr_kept hkept hj] at he
      exact hs₁.new (he ▸ h.blocks.taken j hj)
    obtain ⟨hb, hsame⟩ := h₁.blocks.setIndirect hlt hmem hnew
    have hu : Unset sb inum nb (some (Mkfs.balloc sb m).1)
        ((Mkfs.balloc sb m).2.setAddr sb inum NDIRECT (Mkfs.balloc sb m).1) := by
      constructor
      case direct =>
        intro j hj hjd
        simp only [hdin, Function.update_of_ne hjd.ne]
        exact h₁.unset.direct j hj hjd
      case none => exact fun hc => absurd hc (Option.some_ne_none _)
      case behind =>
        intro b hb j _ hnd hmax
        obtain rfl : (Mkfs.balloc sb m).1 = b := Option.some_injective _ hb
        rw [Image.setAddr_block (hinode _ hmem)]
        have hmax' : j < 268 := hmax
        have hnd' : 12 ≤ j := hnd
        apply word_zero (h.new_zero hs₁)
        simp only [NDIRECT, BSIZE]
        omega
    exact h₁.same hsame hb hu (IBLOCK_metadata hl hi) hinode

theorem Listed.behindBlock_new (h : Listed sb inum image entries nb (some b) m) (hl : Layout sb)
    (hi : inum < sb.ninodes) (hnb : NDIRECT ≤ nb) (hmax : nb < MAXFILE)
    (hsupply : Supply sb image (behindBlock sb b (nb - NDIRECT) m).2) :
    Step sb inum image entries (nb + 1) (some b) (behindBlock sb b (nb - NDIRECT) m) := by
  have hzero : word (m.block b) (4 * (nb - NDIRECT)) = 0 :=
    h.unset.behind b rfl nb le_rfl hnb hmax
  simp only [behindBlock, if_pos hzero] at hsupply ⊢
  have hs : Supply sb image (Mkfs.balloc sb m).2 := hsupply.congr rfl
  have hkept : Kept sb inum m (Mkfs.balloc sb m).2 :=
    kept_balloc hl hi (hs.data.of_suffix (List.suffix_cons _ _))
  have h₁ := h.balloc hl hi hs
  have hmem : (Mkfs.balloc sb m).1 ∈ (Mkfs.balloc sb m).2.taken := List.mem_cons_self ..
  have hinode (b : ℕ) (hb : b ∈ (Mkfs.balloc sb m).2.taken) : b ≠ IBLOCK inum sb :=
    hs.data.ne_inode hl hi hb
  obtain ⟨hbind, hbmem⟩ := h₁.blocks.indirect_some b rfl
  have hne : (Mkfs.balloc sb m).1 ≠ b := fun hc => hs.new (hc ▸ (h.blocks.indirect_some b rfl).2)
  have hnew : ∀ j < nb, (Mkfs.balloc sb m).2.addr sb inum j ≠ (Mkfs.balloc sb m).1 := by
    intro j hj he
    rw [h.blocks.addr_kept hkept hj] at he
    exact hs.new (he ▸ h.blocks.taken j hj)
  have hlt := balloc_lt (m := m) hl
  obtain ⟨hb, hsame, hself⟩ := h₁.blocks.behind hnb hlt hmem hinode hne hnew
  have hdin : ((Mkfs.balloc sb m).2.write b (4 * (nb - NDIRECT))
      (Sysfile.littleEndian 4 (Mkfs.balloc sb m).1)).dinode sb inum =
        (Mkfs.balloc sb m).2.dinode sb inum := Image.dinode_write _ _ (hinode b hbmem).symm
  have hlen := Sysfile.littleEndian_length 4 (Mkfs.balloc sb m).1
  have hu : Unset sb inum (nb + 1) (some b) ((Mkfs.balloc sb m).2.write b (4 * (nb - NDIRECT))
      (Sysfile.littleEndian 4 (Mkfs.balloc sb m).1)) := by
    constructor
    case direct => exact fun j hj hjd => absurd hjd (by omega)
    case none => exact fun hc => absurd hc (Option.some_ne_none _)
    case behind =>
      intro b' hb' j hj hnd hjmax
      obtain rfl : b = b' := Option.some_injective _ hb'
      rw [Image.write_self, Sysfile.word_writeAt_of_disjoint (by omega)]
      exact h₁.unset.behind b rfl j (by omega) hnd hjmax
  refine ⟨h₁.grow hsame hb hself hu (IBLOCK_metadata hl hi) hinode hmem
    (fun hc => hne (Option.some_injective _ hc).symm) (h.new_zero hs), ?_⟩
  simp only [Nat.add_sub_cancel, Image.addr, if_neg (not_lt.mpr hnb), hdin, hbind]

/-! ### What is handed out -/

theorem directBlock_suffix {j : ℕ} : m.taken <:+ (directBlock sb inum j m).2.taken := by
  unfold directBlock
  split_ifs
  · exact List.suffix_cons _ _
  · exact List.suffix_rfl

theorem behindBlock_suffix {j : ℕ} : m.taken <:+ (behindBlock sb b j m).2.taken := by
  unfold behindBlock
  split_ifs
  · exact List.suffix_cons _ _
  · exact List.suffix_rfl

theorem entryBuf_suffix {buf : Option (ℕ × ℕ)} (hget : ∀ j m, m.taken <:+ (get j m).2.taken) :
    m.taken <:+ (entryBuf get i buf m).2.taken := by
  cases buf with
  | none => exact hget 0 m
  | some buf =>
    obtain ⟨nd, b⟩ := buf
    dsimp only [entryBuf]
    split_ifs
    · exact hget _ m
    · exact List.suffix_rfl

theorem appendLoop_suffix {buf : Option (ℕ × ℕ)} (hget : ∀ j m, m.taken <:+ (get j m).2.taken) :
    m.taken <:+ (appendLoop sb inum ent get n i buf m).2.taken := by
  induction n generalizing i buf m with
  | zero => exact List.suffix_rfl
  | succ n ih =>
    unfold appendLoop
    dsimp only
    split_ifs
    · exact entryBuf_suffix hget
    · exact (entryBuf_suffix hget).trans ih

theorem appendDirect_suffix : m.taken <:+ (appendDirect sb inum ent m).2.taken := by
  unfold appendDirect
  exact appendLoop_suffix fun _ _ => directBlock_suffix

theorem appendIndirect_suffix : m.taken <:+ (appendIndirect sb inum b ent m).2.taken := by
  unfold appendIndirect
  exact appendLoop_suffix fun _ _ => behindBlock_suffix

theorem dirappend_suffix : m.taken <:+ (dirappend sb inum ent m).2.taken := by
  have h₁ : m.taken <:+ (appendDirect sb inum ent m).2.taken := appendDirect_suffix
  obtain ⟨r₁, hr₁⟩ : ∃ r₁, r₁ = appendDirect sb inum ent m := ⟨_, rfl⟩
  have h₂ : r₁.2.taken <:+ (directBlock sb inum NDIRECT r₁.2).2.taken := directBlock_suffix
  obtain ⟨r₂, hr₂⟩ : ∃ r₂, r₂ = directBlock sb inum NDIRECT r₁.2 := ⟨_, rfl⟩
  have h₃ : r₂.2.taken <:+ (appendIndirect sb inum r₂.1 ent r₂.2).2.taken :=
    appendIndirect_suffix
  unfold dirappend
  simp only [← hr₁, ← hr₂] at h₁ h₂ h₃ ⊢
  split_ifs
  · exact List.suffix_rfl
  · exact h₁
  · exact h₁.trans (h₂.trans h₃)
  · exact h₁.trans (h₂.trans h₃)

/-! ### Appending -/

theorem Listed.slot_taken (h : Listed sb inum image entries nb indirect m)
    (hk : k < entries.length) : slotFree m (m.addr sb inum (k / DPB)) k = false := by
  have hne := h.used _ (List.getElem_mem hk)
  rw [← (h.entry k hk).inum] at hne
  simpa [slotFree] using hne

/-- The number of blocks that `n` entries take. -/
def blocksFor (n : ℕ) : ℕ := (n + DPB - 1) / DPB

theorem blocksFor_lt (hk : k * DPB < n) : k < blocksFor n := by
  simp only [blocksFor, DPB_eq] at *
  omega

theorem Listed.appendDirect {e : List ℕ × ℕ}
    (h : Listed sb inum image entries (blocksFor entries.length) indirect m) (hl : Layout sb)
    (hi : inum < sb.ninodes) (he : e.2 ≠ 0) (he' : e.2 < 65536)
    (hn : entries.length < NDIRECT * DPB)
    (hs : Supply sb image (Mkfs.appendDirect sb inum (direntBytes e.1 e.2) m).2) :
    (Mkfs.appendDirect sb inum (direntBytes e.1 e.2) m).1 = true ∧
      Listed sb inum image (entries ++ [e]) (blocksFor (entries.length + 1)) indirect
        (Mkfs.appendDirect sb inum (direntBytes e.1 e.2) m).2 := by
  have hd : Data sb m := hs.data.of_suffix appendDirect_suffix
  have hn' : entries.length < 768 := hn
  have hget (j : ℕ) (hj : j * DPB < entries.length) :
      directBlock sb inum j m = (m.addr sb inum j, m) := by
    apply h.directBlock_old hd (blocksFor_lt hj)
    simp only [DPB_eq, NDIRECT] at *
    omega
  obtain ⟨r, hr⟩ : ∃ r, r = if entries.length % DPB = 0
      then directBlock sb inum (entries.length / DPB) m
      else (m.addr sb inum (entries.length / DPB), m) := ⟨_, rfl⟩
  have hat := appendLoop_at sb inum (direntBytes e.1 e.2)
    (n := NDIRECT * DPB) hget (fun k hk => h.slot_taken hk) hn hr.symm
  rw [← Mkfs.appendDirect] at hat
  have hsr : Supply sb image r.2 := by
    apply hs.of_suffix
    rw [hat]
    split_ifs
    · exact List.suffix_rfl
    · exact appendLoop_suffix fun _ _ => directBlock_suffix
  have hstep : Listed sb inum image entries (blocksFor (entries.length + 1)) indirect r.2 ∧
      r.1 = r.2.addr sb inum (entries.length / DPB) := by
    split_ifs at hr with hmod
    · have hnb : entries.length / DPB = blocksFor entries.length := by
        simp only [blocksFor, DPB_eq] at *
        omega
      have hnb' : blocksFor (entries.length + 1) = blocksFor entries.length + 1 := by
        simp only [blocksFor, DPB_eq] at *
        omega
      rw [hnb] at hr ⊢
      have hlt : blocksFor entries.length < NDIRECT := by
        simp only [blocksFor, DPB_eq, NDIRECT] at *
        omega
      have hnew := h.directBlock_new hl hi hlt (hr ▸ hsr)
      rw [hr, hnb']
      exact ⟨hnew.listed, hnew.addr⟩
    · have hnb' : blocksFor (entries.length + 1) = blocksFor entries.length := by
        simp only [blocksFor, DPB_eq] at *
        omega
      rw [hr, hnb']
      exact ⟨h, rfl⟩
  obtain ⟨hlisted, haddr⟩ := hstep
  have hlt : entries.length < blocksFor (entries.length + 1) * DPB := by
    simp only [blocksFor, DPB_eq]
    omega
  have hfree : slotFree r.2 r.1 entries.length = true := by
    simpa [slotFree, haddr] using hlisted.free _ le_rfl hlt
  rw [hat, if_pos hfree, haddr]
  exact ⟨rfl, hlisted.put hlt he he' (fun b hb => hsr.data.ne_inode hl hi hb)
    (IBLOCK_metadata hl hi) (by omega)⟩

theorem Listed.appendIndirect {e : List ℕ × ℕ}
    (h : Listed sb inum image entries (blocksFor entries.length) (some b) m) (hl : Layout sb)
    (hi : inum < sb.ninodes) (he : e.2 ≠ 0) (he' : e.2 < 65536)
    (hn : NDIRECT * DPB ≤ entries.length) (hmax : entries.length < MAXFILE * DPB)
    (hs : Supply sb image (Mkfs.appendIndirect sb inum b (direntBytes e.1 e.2) m).2) :
    (Mkfs.appendIndirect sb inum b (direntBytes e.1 e.2) m).1 = true ∧
      Listed sb inum image (entries ++ [e]) (blocksFor (entries.length + 1)) (some b)
        (Mkfs.appendIndirect sb inum b (direntBytes e.1 e.2) m).2 := by
  have hd : Data sb m := hs.data.of_suffix appendIndirect_suffix
  have hmax' : entries.length < 17152 := hmax
  obtain ⟨t, ht⟩ : ∃ t, entries.length = NDIRECT * DPB + t := ⟨_, (Nat.add_sub_cancel' hn).symm⟩
  have ht' : entries.length = 768 + t := ht
  -- entry `k` behind the indirect block is entry `768 + k` of the directory
  have hmod (k : ℕ) : k % DPB = (768 + k) % DPB := by
    simp only [DPB_eq]
    omega
  have hdiv (k : ℕ) : NDIRECT + k / DPB = (768 + k) / DPB := by
    simp only [DPB_eq, NDIRECT]
    omega
  have hget (j : ℕ) (hj : j * DPB < t) :
      behindBlock sb b j m = (m.addr sb inum (NDIRECT + j), m) := by
    apply h.behindBlock_old hd (blocksFor_lt _)
    simp only [DPB_eq, NDIRECT] at *
    omega
  have hfull (k : ℕ) (hk : k < t) : slotFree m (m.addr sb inum (NDIRECT + k / DPB)) k = false := by
    rw [hdiv k, slotFree, hmod k]
    exact h.slot_taken (by omega)
  obtain ⟨r, hr⟩ : ∃ r, r = if t % DPB = 0 then behindBlock sb b (t / DPB) m
      else (m.addr sb inum (NDIRECT + t / DPB), m) := ⟨_, rfl⟩
  have hlt : t < NINDIRECT * DPB := by
    have hN : NINDIRECT * DPB = 16384 := rfl
    omega
  have hat := appendLoop_at sb inum (direntBytes e.1 e.2)
    (n := NINDIRECT * DPB) (a := fun j => m.addr sb inum (NDIRECT + j)) hget hfull hlt hr.symm
  rw [← Mkfs.appendIndirect] at hat
  have hsr : Supply sb image r.2 := by
    apply hs.of_suffix
    rw [hat]
    split_ifs
    · exact List.suffix_rfl
    · exact appendLoop_suffix fun _ _ => behindBlock_suffix
  have hstep : Listed sb inum image entries (blocksFor (entries.length + 1)) (some b) r.2 ∧
      r.1 = r.2.addr sb inum (entries.length / DPB) := by
    rw [ht', ← hdiv t]
    split_ifs at hr with hmod0
    · have hnb : t / DPB = blocksFor entries.length - NDIRECT := by
        simp only [blocksFor, DPB_eq, NDIRECT] at *
        omega
      have hnb' : blocksFor (768 + t + 1) = blocksFor entries.length + 1 := by
        simp only [blocksFor, DPB_eq] at *
        omega
      have hge : NDIRECT ≤ blocksFor entries.length := by
        simp only [blocksFor, DPB_eq, NDIRECT] at *
        omega
      have hltM : blocksFor entries.length < MAXFILE := by
        have hM : MAXFILE = 268 := rfl
        simp only [blocksFor, DPB_eq] at *
        omega
      have hsum : NDIRECT + (blocksFor entries.length - NDIRECT) = blocksFor entries.length :=
        Nat.add_sub_cancel' hge
      rw [hnb] at hr ⊢
      have hnew := h.behindBlock_new hl hi hge hltM (hr ▸ hsr)
      rw [hr, hnb', hsum]
      exact ⟨hnew.listed, hnew.addr⟩
    · have hnb' : blocksFor (768 + t + 1) = blocksFor entries.length := by
        simp only [blocksFor, DPB_eq] at *
        omega
      rw [hr, hnb']
      exact ⟨h, rfl⟩
  obtain ⟨hlisted, haddr⟩ := hstep
  have hltb : entries.length < blocksFor (entries.length + 1) * DPB := by
    simp only [blocksFor, DPB_eq]
    omega
  have hfree := hlisted.free _ le_rfl hltb
  rw [← haddr, ht', ← hmod t] at hfree
  have hput : putEntry sb inum r.1 t (direntBytes e.1 e.2) r.2 =
      putEntry sb inum r.1 entries.length (direntBytes e.1 e.2) r.2 := by
    rw [putEntry, putEntry, hmod t, ← ht']
  rw [hat, if_pos (by simpa [slotFree] using hfree), hput, haddr]
  exact ⟨rfl, hlisted.put hltb he he' (fun b hb => hsr.data.ne_inode hl hi hb)
    (IBLOCK_metadata hl hi) (by omega)⟩

/-- `dirlink` of `mkfs` adds its entry at the end, as long as there is room. -/
theorem Listed.dirlink {e : List ℕ × ℕ}
    (h : Listed sb inum image entries (blocksFor entries.length) indirect m) (hl : Layout sb)
    (hi : inum < sb.ninodes) (he : e.2 ≠ 0) (he' : e.2 < 65536)
    (hmax : entries.length < MAXFILE * DPB)
    (hs : Supply sb image (Mkfs.dirlink sb inum e.1 e.2 m).2) :
    (Mkfs.dirlink sb inum e.1 e.2 m).1 = 0 ∧ ∃ indirect', Listed sb inum image (entries ++ [e])
      (blocksFor (entries.length + 1)) indirect' (Mkfs.dirlink sb inum e.1 e.2 m).2 := by
  have hsuffix : m.taken <:+ (dirappend sb inum (direntBytes e.1 e.2) m).2.taken :=
    dirappend_suffix
  have hd : Data sb m := hs.data.of_suffix hsuffix
  obtain ⟨r₁, hr₁⟩ : ∃ r₁, r₁ = Mkfs.appendDirect sb inum (direntBytes e.1 e.2) m := ⟨_, rfl⟩
  obtain ⟨r₂, hr₂⟩ : ∃ r₂, r₂ = directBlock sb inum NDIRECT r₁.2 := ⟨_, rfl⟩
  obtain ⟨r₃, hr₃⟩ : ∃ r₃, r₃ = Mkfs.appendIndirect sb inum r₂.1 (direntBytes e.1 e.2) r₂.2 :=
    ⟨_, rfl⟩
  have heq : Mkfs.dirlink sb inum e.1 e.2 m =
      if r₁.1 then (0, r₁.2) else (if r₃.1 then 0 else -1, r₃.2) := by
    rw [Mkfs.dirlink, dirappend, if_neg (not_not.mpr h.type), hr₃, hr₂, hr₁]
  have hsuffix₂ : r₁.2.taken <:+ r₂.2.taken := hr₂ ▸ directBlock_suffix
  have hsuffix₃ : r₂.2.taken <:+ r₃.2.taken := hr₃ ▸ appendIndirect_suffix
  rw [heq] at hs ⊢
  by_cases hn : entries.length < NDIRECT * DPB
  · have hs₁ : Supply sb image r₁.2 := by
      split_ifs at hs
      · exact hs
      · exact hs.of_suffix (hsuffix₂.trans hsuffix₃)
      · exact hs.of_suffix (hsuffix₂.trans hsuffix₃)
    rw [hr₁] at hs₁
    obtain ⟨hdone, hlisted⟩ := h.appendDirect hl hi he he' hn hs₁
    rw [← hr₁] at hdone hlisted
    rw [if_pos hdone]
    exact ⟨rfl, indirect, hlisted⟩
  · have hge := not_lt.mp hn
    have hfull : Mkfs.appendDirect sb inum (direntBytes e.1 e.2) m = (false, m) := by
      unfold Mkfs.appendDirect
      apply appendLoop_full (a := m.addr sb inum)
      · intro j hj
        apply h.directBlock_old hd (blocksFor_lt (hj.trans_le hge))
        exact Nat.lt_of_mul_lt_mul_right hj
      · exact fun k hk => h.slot_taken (hk.trans_le hge)
    rw [hfull] at hr₁
    rw [hr₁] at hs hr₂ ⊢
    have hs₃ : Supply sb image r₃.2 := hs
    have hs₂ : Supply sb image (directBlock sb inum NDIRECT m).2 := by
      rw [← hr₂]
      exact hs₃.of_suffix hsuffix₃
    have hind := h.setIndirect hl hi hs₂
    rw [← hr₂] at hind
    rw [hr₃] at hs₃
    obtain ⟨hdone, hlisted⟩ := hind.appendIndirect hl hi he he' hge hmax hs₃
    rw [← hr₃] at hdone hlisted
    rw [if_neg Bool.false_ne_true, if_pos hdone]
    exact ⟨rfl, _, hlisted⟩

end Zrhos.Mkfs
