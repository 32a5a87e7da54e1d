import Zrhos.Mkfs.Mounted

/-! The layout of a file that `mkfs` has written, and what the kernel reads of it. -/
namespace Zrhos.Mkfs
open Turns
open Fs (Block BSIZE IPB ROOTDEV Superblock IBLOCK Layout)
open Sysfile (pad_getD Dinode dinodeAt writeAt writeAt_get writeAt_of_disjoint littleEndian
  littleEndian_length word word_writeAt_self word_writeAt_of_disjoint NDIRECT NINDIRECT MAXFILE
  T_FILE Store ilock readi)

variable {sb : Superblock} {m m' : Image} {inum k b bno : ℕ} {content : List ℕ}
  {indirect : Option ℕ}

/-- The block `bno` holds block `k` of the file. -/
def Holds (content : List ℕ) (m : Image) (bno k : ℕ) : Prop :=
  ∀ x < BSIZE, m.block bno x = content.getD (k * BSIZE + x) 0

/-- The first `k` blocks of the file are in place. -/
structure Laid (sb : Superblock) (inum : ℕ) (content : List ℕ) (k : ℕ) (indirect : Option ℕ)
    (m : Image) : Prop where
  type : (m.dinode sb inum).type = T_FILE
  size : (m.dinode sb inum).size = content.length
  blocks : Blocks sb inum k indirect m
  data : ∀ j < k, Holds content m (m.addr sb inum j) j

theorem Laid.kept (h : Laid sb inum content k indirect m) (hk : Kept sb inum m m') :
    Laid sb inum content k indirect m' := by
  constructor
  case type => rw [hk.dinode, h.type]
  case size => rw [hk.dinode, h.size]
  case blocks => exact h.blocks.kept hk
  case data =>
    intro j hj x hx
    rw [h.blocks.addr_kept hk hj, hk.block _ (h.blocks.taken j hj), h.data j hj x hx]

theorem Laid.same {indirect' : Option ℕ} (h : Laid sb inum content k indirect m)
    (hs : Same sb inum k indirect m m') (hb : Blocks sb inum k indirect' m')
    (hinode : ∀ b ∈ m.taken, b ≠ IBLOCK inum sb) : Laid sb inum content k indirect' m' := by
  constructor
  case type => rw [hs.type, h.type]
  case size => rw [hs.size, h.size]
  case blocks => exact hb
  case data =>
    intro j hj x hx
    rw [hs.addr j hj, hs.block _ (h.blocks.apart j hj) (hinode _ (h.blocks.taken j hj)),
      h.data j hj x hx]

theorem Laid.extend (h : Laid sb inum content k indirect m) (hs : Same sb inum k indirect m m')
    (hb : Blocks sb inum (k + 1) indirect m') (hself : m'.addr sb inum k = bno)
    (hinode : ∀ b ∈ m.taken, b ≠ IBLOCK inum sb) (hmem : bno ∈ m.taken) (hapart : bno ∉ indirect)
    (hdata : Holds content m bno k) : Laid sb inum content (k + 1) indirect m' := by
  constructor
  case type => rw [hs.type, h.type]
  case size => rw [hs.size, h.size]
  case blocks => exact hb
  case data =>
    intro j hj x hx
    rcases Nat.lt_succ_iff_lt_or_eq.mp hj with hj | rfl
    · rw [hs.addr j hj, hs.block _ (h.blocks.apart j hj) (hinode _ (h.blocks.taken j hj)),
        h.data j hj x hx]
    · rw [hself, hs.block _ hapart (hinode _ hmem), hdata x hx]

/-! ### The loop -/

theorem indirectBlock_suffix : m.taken <:+ (indirectBlock sb inum indirect m).2.taken := by
  cases indirect with
  | none => exact List.suffix_cons _ _
  | some b => exact List.suffix_rfl

theorem fileRound_suffix {rest : List ℕ} :
    m.taken <:+ (fileRound sb inum rest k indirect m).2.taken := by
  unfold fileRound
  dsimp only
  split_ifs
  · exact List.suffix_cons _ _
  · apply (List.suffix_cons (balloc sb m).1 m.taken).trans
    exact indirectBlock_suffix (m := (balloc sb m).2.write (balloc sb m).1 0
      (rest.take BSIZE ++ List.replicate (BSIZE - (rest.take BSIZE).length) 0))

theorem fileLoop_suffix {fuel : ℕ} {rest : List ℕ} :
    m.taken <:+ (fileLoop sb inum fuel rest k indirect m).taken := by
  induction fuel generalizing rest k indirect m with
  | zero => exact List.suffix_rfl
  | succ fuel ih =>
    unfold fileLoop
    split_ifs
    · exact List.suffix_rfl
    · exact fileRound_suffix.trans ih

theorem holds_fill (content : List ℕ) (m : Image) (b k : ℕ) : Holds content (m.write b 0
    ((content.drop (k * BSIZE)).take BSIZE ++
      List.replicate (BSIZE - ((content.drop (k * BSIZE)).take BSIZE).length) 0)) b k := by
  intro x hx
  have hlen : x < ((content.drop (k * BSIZE)).take BSIZE ++
      List.replicate (BSIZE - ((content.drop (k * BSIZE)).take BSIZE).length) 0).length := by
    rw [List.length_append, List.length_replicate, List.length_take]
    omega
  have hget := @writeAt_get (m.block b) 0 _ _ hlen
  rw [Nat.zero_add] at hget
  rw [Image.write_self, hget, pad_getD _ hx]
  simp [List.getD_eq_getElem?_getD]

theorem fileRound_laid (hl : Layout sb) (hi : inum < sb.ninodes)
    (h : Laid sb inum content k indirect m)
    (hd : Data sb (fileRound sb inum (content.drop (k * BSIZE)) k indirect m).2)
    (hn : (fileRound sb inum (content.drop (k * BSIZE)) k indirect m).2.taken.Nodup) :
    Laid sb inum content (k + 1) (fileRound sb inum (content.drop (k * BSIZE)) k indirect m).1
      (fileRound sb inum (content.drop (k * BSIZE)) k indirect m).2 := by
  have hfill := holds_fill content (balloc sb m).2 (balloc sb m).1 k
  unfold fileRound at hd hn ⊢
  dsimp only at hd hn ⊢
  generalize (content.drop (k * BSIZE)).take BSIZE ++ List.replicate
    (BSIZE - ((content.drop (k * BSIZE)).take BSIZE).length) 0 = bytes at hfill hd hn ⊢
  have hlt := balloc_lt (m := m) hl
  have hmem : (balloc sb m).1 ∈ (balloc sb m).2.taken := List.mem_cons_self ..
  -- the block of data, then the place of its address
  have hround (hd₁ : Data sb (balloc sb m).2) (hnew : (balloc sb m).1 ∉ m.taken) :
      Laid sb inum content k indirect ((balloc sb m).2.write (balloc sb m).1 0 bytes) ∧
      ∀ j < k, ((balloc sb m).2.write (balloc sb m).1 0 bytes).addr sb inum j ≠
        (balloc sb m).1 := by
    have hkept := kept_fill hl hi hd₁ hnew 0 bytes
    refine ⟨h.kept hkept, fun j hj he => ?_⟩
    rw [h.blocks.addr_kept hkept hj] at he
    exact hnew (he ▸ h.blocks.taken j hj)
  by_cases hk : k < NDIRECT
  · rw [if_pos hk] at hd hn ⊢
    have hd₁ : Data sb (balloc sb m).2 := hd
    have hnew : (balloc sb m).1 ∉ m.taken := (List.nodup_cons.mp hn).1
    have hind : (balloc sb m).1 ∉ indirect := fun hc => hnew (h.blocks.indirect_some _ hc).2
    obtain ⟨h₂, haddr⟩ := hround hd₁ hnew
    obtain ⟨hb, hs, hself⟩ := h₂.blocks.direct hk hlt hmem hind haddr
    exact h₂.extend hs hb hself (fun b hb => hd₁.ne_inode hl hi hb) hmem hind hfill
  · rw [if_neg hk] at hd hn ⊢
    cases indirect with
    | some b =>
      have hd₁ : Data sb (balloc sb m).2 := hd
      have hnew : (balloc sb m).1 ∉ m.taken := (List.nodup_cons.mp hn).1
      have hne : (balloc sb m).1 ≠ b := fun hc => hnew (hc ▸ (h.blocks.indirect_some b rfl).2)
      have hinode (b : ℕ) (hb : b ∈ (balloc sb m).2.taken) : b ≠ IBLOCK inum sb :=
        hd₁.ne_inode hl hi hb
      obtain ⟨h₂, haddr⟩ := hround hd₁ hnew
      obtain ⟨hb, hs, hself⟩ := h₂.blocks.behind (not_lt.mp hk) hlt hmem hinode hne haddr
      exact h₂.extend hs hb hself hinode hmem
        (fun hc => hne (Option.some_injective _ hc).symm) hfill
    | none =>
      set m₂ := (balloc sb m).2.write (balloc sb m).1 0 bytes with hm₂
      have hd₃ : Data sb (balloc sb m₂).2 := hd
      have hd₁ : Data sb (balloc sb m).2 := hd₃.of_suffix (List.suffix_cons _ _)
      obtain ⟨hb, hn₂⟩ := List.nodup_cons.mp hn
      have hb' : (balloc sb m₂).1 ∉ m₂.taken := hb
      obtain ⟨h₂, haddr⟩ := hround hd₁ (List.nodup_cons.mp hn₂).1
      have hinode (b : ℕ) (hb : b ∈ (balloc sb m₂).2.taken) : b ≠ IBLOCK inum sb :=
        hd₃.ne_inode hl hi hb
      have hd₂ : Data sb m₂ := hd₁
      have hkept : Kept sb inum m₂ (balloc sb m₂).2 := kept_balloc hl hi hd₂
      have h₃ := h₂.kept hkept
      have hmem₂ : (balloc sb m).1 ∈ m₂.taken := hmem
      have hmem₃ : (balloc sb m).1 ∈ (balloc sb m₂).2.taken := hkept.taken _ hmem₂
      have hapart : ∀ j < k, (balloc sb m₂).2.addr sb inum j ≠ (balloc sb m₂).1 := by
        intro j hj he
        rw [h₂.blocks.addr_kept hkept hj] at he
        exact hb' (he ▸ h₂.blocks.taken j hj)
      obtain ⟨hb₄, hs₄⟩ := h₃.blocks.setIndirect (balloc_lt hl) (List.mem_cons_self ..) hapart
      have h₄ := h₃.same hs₄ hb₄ hinode
      have hne : (balloc sb m).1 ≠ (balloc sb m₂).1 := fun he => hb' (he ▸ hmem₂)
      have haddr₄ : ∀ j < k, ((balloc sb m₂).2.setAddr sb inum NDIRECT (balloc sb m₂).1).addr
          sb inum j ≠ (balloc sb m).1 := by
        intro j hj
        rw [hs₄.addr j hj, h₂.blocks.addr_kept hkept hj]
        exact haddr j hj
      obtain ⟨hb₅, hs₅, hself⟩ := h₄.blocks.behind (not_lt.mp hk) hlt hmem₃ hinode hne haddr₄
      refine h₄.extend hs₅ hb₅ hself hinode hmem₃
        (fun hc => hne (Option.some_injective _ hc).symm) ?_
      intro x hx
      rw [Image.setAddr_block (hinode _ hmem₃), hkept.block _ hmem₂]
      exact hfill x hx

/-- The whole file is in place when the loop ends. -/
theorem fileLoop_laid (hl : Layout sb) (hi : inum < sb.ninodes) {fuel : ℕ}
    (h : Laid sb inum content k indirect m) (hfuel : content.length - k * BSIZE ≤ fuel)
    (hd : Data sb (fileLoop sb inum fuel (content.drop (k * BSIZE)) k indirect m))
    (hn : (fileLoop sb inum fuel (content.drop (k * BSIZE)) k indirect m).taken.Nodup) :
    ∃ k' indirect', content.length ≤ k' * BSIZE ∧ Laid sb inum content k' indirect'
      (fileLoop sb inum fuel (content.drop (k * BSIZE)) k indirect m) := by
  induction fuel generalizing k indirect m with
  | zero => exact ⟨k, indirect, by omega, h⟩
  | succ fuel ih =>
    unfold fileLoop at hd hn ⊢
    by_cases hr : content.drop (k * BSIZE) = []
    · rw [if_pos hr] at hd hn ⊢
      exact ⟨k, indirect, List.drop_eq_nil_iff.mp hr, h⟩
    · rw [if_neg hr] at hd hn ⊢
      have hdrop : (content.drop (k * BSIZE)).drop BSIZE = content.drop ((k + 1) * BSIZE) := by
        rw [List.drop_drop, Nat.succ_mul]
      dsimp only at hd hn ⊢
      rw [hdrop] at hd hn ⊢
      have hs : (fileRound sb inum (content.drop (k * BSIZE)) k indirect m).2.taken <:+
          (fileLoop sb inum fuel (content.drop ((k + 1) * BSIZE)) (k + 1)
            (fileRound sb inum (content.drop (k * BSIZE)) k indirect m).1
            (fileRound sb inum (content.drop (k * BSIZE)) k indirect m).2).taken :=
        fileLoop_suffix
      apply ih (fileRound_laid hl hi h (hd.of_suffix hs) (hn.sublist hs.sublist)) _ hd hn
      have hpos : BSIZE = 1024 := rfl
      rw [Nat.succ_mul]
      omega

theorem laid_start (hlen : content.length < 2 ^ 32)
    (h : Allocated sb T_FILE m inum m') :
    Laid sb inum content 0 none ((m'.setNlink sb inum 1).setSize sb inum content.length) := by
  have hdin := Image.dinode_setSize sb inum (m'.setNlink sb inum 1) content.length
  rw [Image.dinode_setNlink (by decide)] at hdin
  constructor
  case type => rw [hdin, h.fresh.type]
  case size =>
    rw [hdin]
    exact Nat.mod_eq_of_lt hlen
  case blocks => exact blocks_zero
  case data => exact fun j hj => absurd hj (Nat.not_lt_zero j)

theorem layFile_laid {image : ℕ → Block} (hl : Layout sb)
    (h : layFile sb content ⟨image, []⟩ = some (inum, m)) (hd : Data sb m) (hn : m.taken.Nodup) :
    content.length ≤ MAXFILE * BSIZE ∧ ∃ k indirect, content.length ≤ k * BSIZE ∧
      Laid sb inum content k indirect m := by
  unfold layFile at h
  split_ifs at h with hmax
  obtain ⟨⟨inum', m₁⟩, hm₁, hm⟩ := Option.bind_eq_some_iff.mp h
  simp only [Option.pure_def, Option.some.injEq, Prod.mk.injEq] at hm
  obtain ⟨rfl, rfl⟩ := hm
  have hmax' : content.length ≤ 274432 := not_lt.mp hmax
  have hall := ialloc_spec (by decide) hm₁
  have hstart : Laid sb inum' content 0 none
      ((m₁.setNlink sb inum' 1).setSize sb inum' content.length) := laid_start (by omega) hall
  refine ⟨not_lt.mp hmax, ?_⟩
  have hzero : content.drop (0 * BSIZE) = content := by simp
  have hfuel : content.length - 0 * BSIZE ≤ content.length := by omega
  have hloop := fileLoop_laid hl hall.lt hstart hfuel
  rw [hzero] at hloop
  exact hloop hd hn

/-! ### The kernel -/

variable {g g' : Store} {e i : ℕ}

theorem Laid.store_bytes (h : Laid sb inum content k indirect m) (hs : Shows sb inum m g)
    (hr : Read sb g' e inum g) {off n : ℕ} (hn : off + n ≤ content.length)
    (hk : content.length ≤ k * BSIZE) : g'.bytes e off n = (content.drop off).take n := by
  have hpos : 0 < BSIZE := by decide
  have hbyte (x : ℕ) (hx : x < content.length) : g'.byte e x = content.getD x 0 := by
    have hj : x / BSIZE < k := (Nat.div_lt_iff_lt_mul hpos).mpr (by omega)
    have hmod := Nat.mod_lt x hpos
    simp only [Store.byte, h.blocks.store_addr hs hr hj, hr.dev, hr.block]
    rw [hs.block _ (h.blocks.taken _ hj), h.data _ hj _ hmod, Nat.div_add_mod']
  apply List.ext_getElem
  · simp only [Store.bytes, List.length_map, List.length_range, List.length_take, List.length_drop]
    omega
  · intro x hx hx'
    simp only [Store.bytes, List.length_map, List.length_range] at hx
    simp only [Store.bytes, List.getElem_map, List.getElem_range, List.getElem_take,
      List.getElem_drop]
    rw [hbyte (off + x) (by omega), List.getD_eq_getElem _ _ (by omega)]

/-- What `mkfs` has written is what `readi` reads, wherever the read starts and ends and
however the file is read in pieces. -/
theorem files_read_back (sb : Superblock) (hl : Layout sb) (content : List ℕ)
    (image : ℕ → Block) (inum : ℕ) (m : Image)
    (hlay : layFile sb content ⟨image, []⟩ = some (inum, m)) (hd : Data sb m)
    (hn : m.taken.Nodup) (g : Store) (e i : ℕ) (hs : Shows sb inum m g) (hu : Unread g e inum)
    (user : Bool) (hout : g.Delivers user) :
    ∃ g', (ilock sb e).exec (Store.perform i) g = some ((), g') ∧
      ∀ dst off n, off + n ≤ content.length → ∃ k, (user = false → k = 0) ∧
        (readi sb e user dst off n).exec (Store.perform i) g' =
          some (((n : ℤ), (content.drop off).take n), g'.skip k) := by
  obtain ⟨hmax, k, indirect, hk, h⟩ := layFile_laid hl hlay hd hn
  have htype : (g.dinode sb ROOTDEV inum).type ≠ 0 := by
    rw [hs.type, h.type]
    decide
  obtain ⟨g', hg', hr⟩ := hu.ilock (i := i) htype
  refine ⟨g', hg', fun dst off n hoff => ?_⟩
  have hout' : g'.Delivers user := by
    intro hu n
    rw [hr.oracle]
    exact hout hu n
  have hsize : (g'.kernel.inode e).copy.size = content.length := by
    rw [hr.copy, hs.size, h.size]
  have hpos : BSIZE = 1024 := rfl
  have hbacked : g'.Backed e off n := by
    intro j _ hj
    have hjk : j < k := by
      by_contra hc
      have := Nat.mul_le_mul_right BSIZE (not_lt.mp hc)
      omega
    rw [h.blocks.store_addr hs hr hjk]
    exact (hd _ (h.blocks.taken j hjk)).1
  have hin : off + n ≤ ((g'.kernel.inode e).copy.size / BSIZE + 2) * BSIZE := by
    rw [hsize, hpos]
    omega
  obtain ⟨c, hc, hread⟩ : ∃ c, (user = false → c = 0) ∧
      (readi sb e user dst off n).exec (Store.perform i) g' =
        some (((n : ℤ), g'.bytes e off n), g'.skip c) :=
    Sysfile.exec_readi hr.held hout' (by omega) (by omega) hin hbacked
  refine ⟨c, hc, ?_⟩
  rw [hread, h.store_bytes hs hr hoff hk]

/-- A block of sevens and a byte behind it. -/
def twoBlocks : List ℕ := List.replicate BSIZE 7 ++ [9]

theorem files_read_back_two_blocks :
    ∃ m, layFile oneBitmapBlock twoBlocks ⟨fun _ _ => 0, []⟩ = some (1, m) ∧
      ∃ g', (ilock oneBitmapBlock 0).exec (Store.perform 0) (mounted m) = some ((), g') ∧
        ∃ k, (false = false → k = 0) ∧
          (readi oneBitmapBlock 0 false 0 1023 2).exec (Store.perform 0) g' =
            some ((((2 : ℕ) : ℤ), [7, 9]), g'.skip k) := by
  have hl : Layout oneBitmapBlock := ⟨by decide, by decide, by decide, by decide⟩
  have hlay : (layFile oneBitmapBlock twoBlocks ⟨fun _ _ => 0, []⟩).map
      (fun r => (r.1, r.2.taken)) = some (1, [1028, 1027]) := by decide +kernel
  obtain ⟨⟨inum, m⟩, hm, hr⟩ := Option.map_eq_some_iff.mp hlay
  obtain ⟨rfl, htaken⟩ := Prod.mk.inj hr
  have hd : Data oneBitmapBlock m := by
    intro b hb
    rw [htaken] at hb
    unfold Metadata
    revert b
    decide
  have hs : Shows oneBitmapBlock 1 m (mounted m) :=
    ⟨rfl, rfl, fun _ _ => rfl, fun _ _ => rfl⟩
  have hu : Unread (mounted m) 0 1 := ⟨⟨le_rfl, rfl⟩, rfl, rfl, rfl, rfl⟩
  obtain ⟨g', hg', hread⟩ := files_read_back oneBitmapBlock hl twoBlocks _ 1 m hm hd
    (by rw [htaken]; decide) (mounted m) 0 0 hs hu false (fun h => absurd h Bool.false_ne_true)
  obtain ⟨k, hk, hbytes⟩ := hread 0 1023 2 (by decide +kernel)
  rw [show (twoBlocks.drop 1023).take 2 = [7, 9] by decide +kernel] at hbytes
  exact ⟨m, hm, g', hg', k, hk, hbytes⟩

end Zrhos.Mkfs
