import Zrhos.Sysfile.Bytes

/-! `mkfs` on the image it has mapped: inodes, files and directories. -/
namespace Zrhos.Mkfs
open Fs (Block BSIZE BPB IPB Superblock IBLOCK BBLOCK Layout bitClear setBit getDatastart mkfsBalloc
  mkfsBallocLoop)
open Sysfile (Dinode dinodeAt writeAt littleEndian shortBytes half word NDIRECT NINDIRECT MAXFILE
  DPB DIRSIZ T_DIR T_FILE)

/-- The blocks of the image; `taken` lists what `balloc` has returned, last first. -/
structure Image where
  block : ℕ → Block
  taken : List ℕ

namespace Image

/-- A store through a pointer into block `b`. -/
def write (m : Image) (b off : ℕ) (bytes : List ℕ) : Image :=
  { m with block := Function.update m.block b (writeAt (m.block b) off bytes) }

def dinode (sb : Superblock) (m : Image) (inum : ℕ) : Dinode :=
  dinodeAt (m.block (IBLOCK inum sb)) (inum % IPB)

/-- A store into inode `inum`, `off` bytes behind its start. -/
def poke (sb : Superblock) (inum off : ℕ) (bytes : List ℕ) (m : Image) : Image :=
  m.write (IBLOCK inum sb) (64 * (inum % IPB) + off) bytes

def setNlink (sb : Superblock) (inum : ℕ) (nlink : ℤ) (m : Image) : Image :=
  m.poke sb inum 6 (shortBytes nlink)

def setSize (sb : Superblock) (inum size : ℕ) (m : Image) : Image :=
  m.poke sb inum 8 (littleEndian 4 size)

def setAddr (sb : Superblock) (inum i b : ℕ) (m : Image) : Image :=
  m.poke sb inum (12 + 4 * i) (littleEndian 4 b)

end Image

def balloc (sb : Superblock) (m : Image) : ℕ × Image :=
  let r := mkfsBalloc sb m.block
  (r.1, ⟨r.2, r.1 :: m.taken⟩)

/-- The buffer of a search for block `b`: the one held so far if it is not behind `b`. -/
def nextBuf (held : Option ℕ) (b : ℕ) : ℕ :=
  match held with
  | none => b
  | some b' => if b > b' then b else b'

/-- The loop of `ialloc` from inode `i` on; the buffer held so far is named by its block. -/
def iallocLoop (sb : Superblock) (type : ℤ) : ℕ → ℕ → Option ℕ → Image → Option (ℕ × Image)
  | 0, _, _, _ => none
  | n + 1, i, held, m =>
    let b := nextBuf held (IBLOCK i sb)
    if (dinodeAt (m.block b) (i % IPB)).type = 0 then
      let m := m.write b (64 * (i % IPB)) (List.replicate 64 0)
      some (i, m.write b (64 * (i % IPB)) (shortBytes type))
    else iallocLoop sb type n (i + 1) (some b) m

def ialloc (sb : Superblock) (type : ℤ) (m : Image) : Option (ℕ × Image) :=
  iallocLoop sb type (sb.ninodes - 1) 1 none m

/-! ### Files -/

/-- The block the file's addresses go to from the direct ones on. -/
def indirectBlock (sb : Superblock) (inum : ℕ) (indirect : Option ℕ) (m : Image) : ℕ × Image :=
  match indirect with
  | none =>
    let (b, m) := balloc sb m
    (b, m.setAddr sb inum NDIRECT b)
  | some b => (b, m)

/-- One round of the loop over a file that has `rest` left to be read, all of which `fread`
delivers. -/
def fileRound (sb : Superblock) (inum : ℕ) (rest : List ℕ) (pblock : ℕ) (indirect : Option ℕ)
    (m : Image) : Option ℕ × Image :=
  let (bno, m) := balloc sb m
  let chunk := rest.take BSIZE
  let m := m.write bno 0 (chunk ++ List.replicate (BSIZE - chunk.length) 0)
  if pblock < NDIRECT then (indirect, m.setAddr sb inum pblock bno)
  else
    let (b, m) := indirectBlock sb inum indirect m
    (some b, m.write b (4 * (pblock - NDIRECT)) (littleEndian 4 bno))

def fileLoop (sb : Superblock) (inum : ℕ) :
    ℕ → List ℕ → ℕ → Option ℕ → Image → Image
  | 0, _, _, _, m => m
  | fuel + 1, rest, pblock, indirect, m =>
    if rest = [] then m
    else
      let (indirect, m) := fileRound sb inum rest pblock indirect m
      fileLoop sb inum fuel (rest.drop BSIZE) (pblock + 1) indirect m

/-- A file given to `main`; it is skipped if it is too large. -/
def layFile (sb : Superblock) (content : List ℕ) (m : Image) : Option (ℕ × Image) :=
  if content.length > MAXFILE * BSIZE then none
  else do
    let (inum, m) ← ialloc sb T_FILE m
    let m := (m.setNlink sb inum 1).setSize sb inum content.length
    return (inum, fileLoop sb inum content.length content 0 none m)

/-! ### Directories -/

/-- The slot of the directory block at `b` for entry `i` if it is free. -/
def slotFree (m : Image) (b i : ℕ) : Bool := half (m.block b) (16 * (i % DPB)) == 0

/-- An entry and the new size of its directory. -/
def putEntry (sb : Superblock) (inum b i : ℕ) (ent : List ℕ) (m : Image) : Image :=
  let m := m.write b (16 * (i % DPB)) ent
  m.setSize sb inum ((m.dinode sb inum).size + 16)

/-- Direct block number `ndirect` of a directory, allocated if it is missing. -/
def directBlock (sb : Superblock) (inum ndirect : ℕ) (m : Image) : ℕ × Image :=
  if (m.dinode sb inum).addrs ndirect = 0 then
    let (b, m) := balloc sb m
    let m := m.setAddr sb inum ndirect b
    ((m.dinode sb inum).addrs ndirect, m)
  else ((m.dinode sb inum).addrs ndirect, m)

/-- Block number `nindirect` behind the indirect block, allocated if it is missing. -/
def behindBlock (sb : Superblock) (indirect nindirect : ℕ) (m : Image) : ℕ × Image :=
  if word (m.block indirect) (4 * nindirect) = 0 then
    let (b, m) := balloc sb m
    let m := m.write indirect (4 * nindirect) (littleEndian 4 b)
    (word (m.block indirect) (4 * nindirect), m)
  else (word (m.block indirect) (4 * nindirect), m)

/-- The buffer of entry `i`, named by its number and its block; `get` finds the blocks. -/
def entryBuf (get : ℕ → Image → ℕ × Image) (i : ℕ) : Option (ℕ × ℕ) → Image → (ℕ × ℕ) × Image
  | none, m =>
    let (b, m) := get 0 m
    ((0, b), m)
  | some (nd, b), m =>
    if i ≥ (nd + 1) * DPB then
      let (b, m) := get (nd + 1) m
      ((nd + 1, b), m)
    else ((nd, b), m)

/-- The loops of `dirappend` from entry `i` on; they answer whether they found a slot. -/
def appendLoop (sb : Superblock) (inum : ℕ) (ent : List ℕ) (get : ℕ → Image → ℕ × Image) :
    ℕ → ℕ → Option (ℕ × ℕ) → Image → Bool × Image
  | 0, _, _, m => (false, m)
  | n + 1, i, buf, m =>
    let (buf, m) := entryBuf get i buf m
    if slotFree m buf.2 i then (true, putEntry sb inum buf.2 i ent m)
    else appendLoop sb inum ent get n (i + 1) (some buf) m

def appendDirect (sb : Superblock) (inum : ℕ) (ent : List ℕ) (m : Image) : Bool × Image :=
  appendLoop sb inum ent (directBlock sb inum) (NDIRECT * DPB) 0 none m

def appendIndirect (sb : Superblock) (inum indirect : ℕ) (ent : List ℕ) (m : Image) :
    Bool × Image :=
  appendLoop sb inum ent (behindBlock sb indirect) (NINDIRECT * DPB) 0 none m

def dirappend (sb : Superblock) (inum : ℕ) (ent : List ℕ) (m : Image) : ℤ × Image :=
  if (m.dinode sb inum).type ≠ T_DIR then (0, m)
  else
    let (done, m) := appendDirect sb inum ent m
    if done then (0, m)
    else
      let (indirect, m) := directBlock sb inum NDIRECT m
      let (done, m) := appendIndirect sb inum indirect ent m
      (if done then 0 else -1, m)

/-- The host's `strncpy` pads with zeros and does not terminate a name of 14 bytes. -/
def direntBytes (name : List ℕ) (inum : ℕ) : List ℕ :=
  littleEndian 2 inum ++ (name.take DIRSIZ).rightpad DIRSIZ 0

def dirlink (sb : Superblock) (inum : ℕ) (name : List ℕ) (ent : ℕ) (m : Image) : ℤ × Image :=
  dirappend sb inum (direntBytes name ent) m

/-! ### What the operations leave alone -/

/-- The blocks in front of the data: the boot block, the superblock, the inodes and the
bitmap. -/
def Metadata (sb : Superblock) (b : ℕ) : Prop := b < sb.bmapstart + (sb.nblocks + BPB - 1) / BPB

def InBitmap (sb : Superblock) (b : ℕ) : Prop := sb.bmapstart ≤ b ∧ Metadata sb b

variable {sb : Superblock} {m m' : Image} {inum : ℕ}

theorem BBLOCK_inBitmap {i : ℕ} (hi : i < sb.nblocks) : InBitmap sb (BBLOCK i sb) :=
  ⟨Nat.le_add_left _ _, Fs.BBLOCK_lt hi⟩

theorem mkfsBallocLoop_spec {fuel i : ℕ} {held : Option ℕ} {image : ℕ → Block}
    (hfuel : i + fuel ≤ sb.nblocks) (hheld : ∀ b ∈ held, InBitmap sb b) :
    (mkfsBallocLoop sb fuel i held image).1 ≤ sb.nblocks ∧
      ∀ b, ¬ InBitmap sb b → (mkfsBallocLoop sb fuel i held image).2 b = image b := by
  induction fuel generalizing i held with
  | zero => exact ⟨Nat.zero_le _, fun _ _ => rfl⟩
  | succ fuel ih =>
    have hi : InBitmap sb (BBLOCK i sb) := BBLOCK_inBitmap (by omega)
    -- the two outcomes of the test, whatever the buffer is
    have hround (buf : ℕ) (hin : InBitmap sb buf) :
        (if bitClear (image buf) i then (i, Function.update image buf (setBit (image buf) i))
          else mkfsBallocLoop sb fuel (i + 1) (some buf) image).1 ≤ sb.nblocks ∧
        ∀ b, ¬ InBitmap sb b →
          (if bitClear (image buf) i then (i, Function.update image buf (setBit (image buf) i))
            else mkfsBallocLoop sb fuel (i + 1) (some buf) image).2 b = image b := by
      split_ifs
      · refine ⟨by dsimp only; omega, fun b hb => ?_⟩
        have hne : b ≠ buf := fun h => hb (h ▸ hin)
        exact Function.update_of_ne hne _ _
      · apply ih (by omega)
        intro b hb
        cases hb
        exact hin
    cases held with
    | none => exact hround _ hi
    | some b =>
      apply hround
      dsimp only
      split_ifs
      · exact hi
      · exact hheld b rfl

/-- `balloc` stores into the bitmap only. -/
theorem balloc_block {b : ℕ} (hb : ¬ InBitmap sb b) : (balloc sb m).2.block b = m.block b := by
  by_cases h : getDatastart sb ≤ sb.nblocks
  · exact (mkfsBallocLoop_spec (by omega) (by simp)).2 b hb
  · have hzero : sb.nblocks - getDatastart sb = 0 := by omega
    simp only [balloc, mkfsBalloc, hzero]
    rfl

theorem balloc_lt (hl : Layout sb) : (balloc sb m).1 < 2 ^ 32 := by
  have hn := hl.nblocks_lt
  by_cases h : getDatastart sb ≤ sb.nblocks
  · have hle : (mkfsBallocLoop sb (sb.nblocks - getDatastart sb) (getDatastart sb) none
        m.block).1 ≤ sb.nblocks := (mkfsBallocLoop_spec (by omega) (by simp)).1
    simp only [balloc, mkfsBalloc]
    omega
  · have hzero : sb.nblocks - getDatastart sb = 0 := by omega
    simp only [balloc, mkfsBalloc, hzero]
    exact Nat.two_pow_pos 32

@[simp] theorem balloc_taken : (balloc sb m).2.taken = (balloc sb m).1 :: m.taken := rfl

/-- Inode `inum` is one of the file system. -/
theorem IBLOCK_not_inBitmap (hl : Layout sb) (hi : inum < sb.ninodes) :
    ¬ InBitmap sb (IBLOCK inum sb) := fun h => absurd h.1 (not_le.mpr (hl.IBLOCK_lt hi))

theorem IBLOCK_metadata (hl : Layout sb) (hi : inum < sb.ninodes) :
    Metadata sb (IBLOCK inum sb) := Nat.lt_add_right _ (hl.IBLOCK_lt hi)

namespace Image

@[simp] theorem write_taken (b off : ℕ) (bytes : List ℕ) : (m.write b off bytes).taken = m.taken :=
  rfl

@[simp] theorem write_self (b off : ℕ) (bytes : List ℕ) :
    (m.write b off bytes).block b = writeAt (m.block b) off bytes := by
  simp [write]

theorem write_of_ne {b b' : ℕ} (off : ℕ) (bytes : List ℕ) (h : b' ≠ b) :
    (m.write b off bytes).block b' = m.block b' := by
  simp [write, h]

theorem dinode_write {b : ℕ} (off : ℕ) (bytes : List ℕ) (h : IBLOCK inum sb ≠ b) :
    (m.write b off bytes).dinode sb inum = m.dinode sb inum := by
  simp only [dinode, write_of_ne off bytes h]

theorem dinode_balloc (h : ¬ InBitmap sb (IBLOCK inum sb)) :
    (balloc sb m).2.dinode sb inum = m.dinode sb inum := by
  simp only [dinode, balloc_block h]

@[simp] theorem setAddr_taken (i b : ℕ) : (m.setAddr sb inum i b).taken = m.taken := rfl

@[simp] theorem setSize_taken (size : ℕ) : (m.setSize sb inum size).taken = m.taken := rfl

theorem setAddr_block {i b b' : ℕ} (h : b' ≠ IBLOCK inum sb) :
    (m.setAddr sb inum i b).block b' = m.block b' := write_of_ne _ _ h

theorem setSize_block {size b' : ℕ} (h : b' ≠ IBLOCK inum sb) :
    (m.setSize sb inum size).block b' = m.block b' := write_of_ne _ _ h

theorem dinode_setNlink {nlink : ℤ} (h : -32768 ≤ nlink ∧ nlink < 32768) :
    (m.setNlink sb inum nlink).dinode sb inum = { m.dinode sb inum with nlink := nlink } := by
  simp only [dinode, setNlink, poke, write_self, Sysfile.dinodeAt_setNlink _ h]

theorem dinode_setSize (sb : Superblock) (inum : ℕ) (m : Image) (size : ℕ) :
    (m.setSize sb inum size).dinode sb inum =
    { m.dinode sb inum with size := size % 2 ^ 32 } := by
  simp only [dinode, setSize, poke, write_self, Sysfile.dinodeAt_setSize]

theorem dinode_setAddr (sb : Superblock) (inum : ℕ) (m : Image) (i b : ℕ) :
    (m.setAddr sb inum i b).dinode sb inum =
    { m.dinode sb inum with
      addrs := Function.update (m.dinode sb inum).addrs i (b % 2 ^ 32) } := by
  simp only [dinode, setAddr, poke, write_self, ← Nat.add_assoc, Sysfile.dinodeAt_setAddr]

end Image

/-- What `ialloc` has done when it finds an inode. -/
structure Allocated (sb : Superblock) (type : ℤ) (m : Image) (inum : ℕ) (m' : Image) : Prop where
  pos : 0 < inum
  lt : inum < sb.ninodes
  fresh : (m'.dinode sb inum).Fresh type
  taken : m'.taken = m.taken
  block : ∀ b ≠ IBLOCK inum sb, m'.block b = m.block b

theorem nextBuf_eq {held : Option ℕ} {b : ℕ} (h : ∀ b' ∈ held, b' ≤ b) : nextBuf held b = b := by
  cases held with
  | none => rfl
  | some b' =>
    have hb := h b' rfl
    simp only [nextBuf]
    split_ifs <;> omega

theorem iallocLoop_spec {type : ℤ} (htype : -32768 ≤ type ∧ type < 32768) {n i : ℕ}
    {held : Option ℕ} (hi : 0 < i) (hn : i + n ≤ sb.ninodes) (hheld : ∀ b ∈ held, b ≤ IBLOCK i sb)
    (h : iallocLoop sb type n i held m = some (inum, m')) : Allocated sb type m inum m' := by
  induction n generalizing i held with
  | zero => cases h
  | succ n ih =>
    unfold iallocLoop at h
    simp only [nextBuf_eq hheld] at h
    split_ifs at h
    · cases h
      constructor
      case pos => exact hi
      case lt => omega
      case fresh =>
        simp only [Image.dinode, Image.write_self]
        exact Sysfile.dinodeAt_fresh _ htype
      case taken => rfl
      case block =>
        intro b hb
        rw [Image.write_of_ne _ _ hb, Image.write_of_ne _ _ hb]
    · refine ih (Nat.succ_pos i) (by omega) ?_ h
      intro b hb
      cases hb
      exact Nat.add_le_add_right (Nat.div_le_div_right (Nat.le_succ i)) _

theorem ialloc_spec {type : ℤ} (htype : -32768 ≤ type ∧ type < 32768)
    (h : ialloc sb type m = some (inum, m')) : Allocated sb type m inum m' := by
  by_cases hn : sb.ninodes = 0
  · simp only [ialloc, hn] at h
    cases h
  · exact iallocLoop_spec htype Nat.one_pos (by omega) (by simp) h

end Zrhos.Mkfs
