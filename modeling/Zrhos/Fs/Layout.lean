import Zrhos.Fs.Bio

/-! The disk layout of `fs.h`, the start of the data blocks and the block allocators of
the kernel and of `mkfs`. -/
namespace Zrhos.Fs

/-- The fields of the superblock that the allocators and the inode code read. -/
structure Superblock where
  nblocks : ℕ
  ninodes : ℕ
  inodestart : ℕ
  bmapstart : ℕ

/-- Inodes per block; `sizeof(struct dinode)` is 64. -/
def IPB : ℕ := BSIZE / 64

def BPB : ℕ := BSIZE * 8

def IBLOCK (i : ℕ) (sb : Superblock) : ℕ := i / IPB + sb.inodestart

/-- A sum of `uint_t`; the block numbers of an image stay below `2 ^ 32` (`Layout.fits`). -/
def BBLOCK (b : ℕ) (sb : Superblock) : ℕ := b / BPB + sb.bmapstart

def getDatastart (sb : Superblock) : ℕ :=
  let bits := sb.nblocks / BPB
  let bs := bits * 8 % 2 ^ 32
  let blocks := (bs + BSIZE - 1) % 2 ^ 32 / BSIZE
  (sb.bmapstart + blocks) % 2 ^ 32

/-- The bit of block `i` in a bitmap block. -/
def bitClear (data : Block) (i : ℕ) : Bool :=
  let bi := i % BPB
  data (bi / 8) &&& 1 <<< (bi % 8) == 0

def setBit (data : Block) (i : ℕ) : Block :=
  let bi := i % BPB
  Function.update data (bi / 8) (data (bi / 8) ||| 1 <<< (bi % 8))

/-! ### The kernel -/

/-- The bitmap buffer for block `i`: the one held so far while it covers `i`, else a new
one. -/
def ballocBuf (sb : Superblock) (held : Option ℕ) (i : ℕ) (s : Bcache) :
    Except Stop (ℕ × Bcache) :=
  match held with
  | none => do
    let s ← bread s ROOTDEV (BBLOCK i sb)
    return (BBLOCK i sb, s)
  | some blockno =>
    if BBLOCK i sb > blockno then do
      let s ← bread (brelse s ROOTDEV blockno) ROOTDEV (BBLOCK i sb)
      return (BBLOCK i sb, s)
    else .ok (blockno, s)

/-- The loop of `balloc` from block `i` on. -/
def ballocLoop (sb : Superblock) : ℕ → ℕ → Option ℕ → Bcache → Except Stop (ℕ × Bcache)
  | 0, _, _, _ => .error .ballocOutOfBlocks
  | fuel + 1, i, held, s => do
    let (blockno, s) ← ballocBuf sb held i s
    let data := bufData s ROOTDEV blockno
    if bitClear data i then
      let s := bwrite (setData s ROOTDEV blockno (setBit data i)) ROOTDEV blockno
      return (i, brelse s ROOTDEV blockno)
    else ballocLoop sb fuel (i + 1) (some blockno) s

/-- `fs_init` has set `datastart`. -/
def balloc (sb : Superblock) (s : Bcache) : Except Stop (ℕ × Bcache) :=
  ballocLoop sb (sb.nblocks - getDatastart sb) (getDatastart sb) none s

/-! ### mkfs -/

/-- The same loop over an image that is mapped into memory. -/
def mkfsBallocLoop (sb : Superblock) : ℕ → ℕ → Option ℕ → (ℕ → Block) → ℕ × (ℕ → Block)
  | 0, _, _, image => (0, image)
  | fuel + 1, i, held, image =>
    let blockno :=
      match held with
      | none => BBLOCK i sb
      | some blockno => if BBLOCK i sb > blockno then BBLOCK i sb else blockno
    if bitClear (image blockno) i then
      (i, Function.update image blockno (setBit (image blockno) i))
    else mkfsBallocLoop sb fuel (i + 1) (some blockno) image

def mkfsBalloc (sb : Superblock) (image : ℕ → Block) : ℕ × (ℕ → Block) :=
  mkfsBallocLoop sb (sb.nblocks - getDatastart sb) (getDatastart sb) none image

/-- The superblock `mkfs` writes. -/
def mkfsSb : Superblock :=
  { nblocks := 256 * 1024 * 1024 / BSIZE
    ninodes := 1024 * BSIZE / 64
    inodestart := 2
    bmapstart := 2 + 1024 }

/-! ### Metadata and data -/

/-- The documented layout: boot block, superblock, inode blocks, the bitmap with one bit
for each block, data, all with 32-bit block numbers. -/
structure Layout (sb : Superblock) : Prop where
  inodes : 2 ≤ sb.inodestart
  bitmap : sb.inodestart + (sb.ninodes + IPB - 1) / IPB ≤ sb.bmapstart
  fits : sb.bmapstart + (sb.nblocks + BPB - 1) / BPB < 2 ^ 32
  nblocks_lt : sb.nblocks < 2 ^ 32

theorem Layout.IBLOCK_lt {sb : Superblock} {inum : ℕ} (hl : Layout sb) (hi : inum < sb.ninodes) :
    IBLOCK inum sb < sb.bmapstart := by
  have hb := hl.bitmap
  simp only [IBLOCK, IPB, BSIZE] at *
  omega

/-- Data starts behind the bitmap, so no allocator hands out a bitmap block. -/
structure Separated (sb : Superblock) : Prop where
  datastart : sb.bmapstart + (sb.nblocks + BPB - 1) / BPB ≤ getDatastart sb
  kernel : ∀ s i s', balloc sb s = .ok (i, s') → ∀ b < sb.nblocks, i ≠ BBLOCK b sb
  mkfs : ∀ image, ∀ b < sb.nblocks, (mkfsBalloc sb image).1 ≠ BBLOCK b sb

theorem ballocLoop_ge {sb : Superblock} {fuel i r : ℕ} {held : Option ℕ} {s s' : Bcache}
    (h : ballocLoop sb fuel i held s = .ok (r, s')) : i ≤ r := by
  induction fuel generalizing i held s with
  | zero => cases h
  | succ fuel ih =>
    unfold ballocLoop at h
    cases hb : ballocBuf sb held i s with
    | error e =>
      rw [hb] at h
      cases h
    | ok r' =>
      simp only [hb, bind, Except.bind, pure, Except.pure] at h
      split_ifs at h
      · cases h
        exact le_rfl
      · have := ih h
        omega

theorem mkfsBallocLoop_ge (sb : Superblock) (fuel i : ℕ) (held : Option ℕ) (image : ℕ → Block) :
    (mkfsBallocLoop sb fuel i held image).1 = 0 ∨ i ≤ (mkfsBallocLoop sb fuel i held image).1 := by
  induction fuel generalizing i held with
  | zero => exact Or.inl rfl
  | succ fuel ih =>
    unfold mkfsBallocLoop
    dsimp only
    split_ifs
    · exact Or.inr le_rfl
    · refine (ih (i + 1) _).imp_right fun h => ?_
      omega

/-- The number of bitmap blocks that `get_datastart` leaves room for: it divides by the
bits of a block and then once more by the bytes of a block. -/
theorem getDatastart_eq {sb : Superblock} (h : Layout sb) :
    getDatastart sb = (sb.bmapstart + (sb.nblocks / BPB * 8 + BSIZE - 1) / BSIZE) % 2 ^ 32 := by
  have hn := h.nblocks_lt
  simp only [getDatastart, BPB, BSIZE]
  omega

theorem BBLOCK_lt {sb : Superblock} {b : ℕ} (hb : b < sb.nblocks) :
    BBLOCK b sb < sb.bmapstart + (sb.nblocks + BPB - 1) / BPB := by
  simp only [BBLOCK, BPB, BSIZE]
  omega

theorem Layout.bmapstart_ne_zero {sb : Superblock} (h : Layout sb) : sb.bmapstart ≠ 0 := by
  have hi := h.inodes
  have hb := (Nat.le_add_right _ _).trans h.bitmap
  omega

theorem separated_of_datastart {sb : Superblock} (h : Layout sb)
    (hd : sb.bmapstart + (sb.nblocks + BPB - 1) / BPB ≤ getDatastart sb) : Separated sb := by
  refine ⟨hd, fun s i s' he b hb => ?_, fun image b hb => ?_⟩
  · have hi := ballocLoop_ge he
    have := BBLOCK_lt hb
    omega
  · have := BBLOCK_lt hb
    have h0 := h.bmapstart_ne_zero
    have hge : sb.bmapstart ≤ BBLOCK b sb := Nat.le_add_left _ _
    rcases mkfsBallocLoop_ge sb (sb.nblocks - getDatastart sb) (getDatastart sb) none image with
      hz | hi
    · rw [mkfsBalloc, hz]
      omega
    · rw [mkfsBalloc]
      omega

/-- Metadata and data are separated only when there is nothing to map or the bitmap is
exactly one full block. -/
theorem separated_iff {sb : Superblock} (h : Layout sb) :
    Separated sb ↔ sb.nblocks = 0 ∨ sb.nblocks = BPB := by
  have hd := getDatastart_eq h
  have hfits := h.fits
  have hn := h.nblocks_lt
  constructor
  · intro hs
    have hds := hs.datastart
    rw [hd] at hds
    simp only [BPB, BSIZE] at *
    omega
  · intro hc
    apply separated_of_datastart h
    rw [hd]
    simp only [BPB, BSIZE] at *
    omega

theorem separated_iff_one_bitmap_block : Layout { mkfsSb with nblocks := BPB } ∧
    Separated { mkfsSb with nblocks := BPB } := by
  have h : Layout { mkfsSb with nblocks := BPB } :=
    ⟨by decide, by decide, by decide, by decide⟩
  exact ⟨h, (separated_iff h).mpr (Or.inr rfl)⟩

/-- On the image of `mkfs` both allocators hand out the second block of the bitmap. -/
theorem mkfs_overlap : Layout mkfsSb ∧ ¬ Separated mkfsSb ∧
    (∃ s', balloc mkfsSb (binit fun _ _ => 0) = .ok (BBLOCK BPB mkfsSb, s')) ∧
    (mkfsBalloc mkfsSb fun _ _ => 0).1 = BBLOCK BPB mkfsSb ∧ BPB < mkfsSb.nblocks := by
  have h : Layout mkfsSb := ⟨by decide, by decide, by decide, by decide⟩
  refine ⟨h, fun hs => ?_, ?_, ?_, by decide⟩
  · exact absurd hs.datastart (by decide)
  · exact ⟨_, rfl⟩
  · rfl

end Zrhos.Fs
