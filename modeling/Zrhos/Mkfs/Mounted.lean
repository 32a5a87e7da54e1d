import Zrhos.Mkfs.Blocks
import Zrhos.Sysfile.Store
import Zrhos.Sysfile.Runs

/-! The kernel on an image of `mkfs`: an inode that it reads and the addresses it finds. -/
namespace Zrhos.Mkfs
open Turns
open Fs (ROOTDEV Superblock)
open Sysfile (NDIRECT Store ilock)

variable {sb : Superblock} {m : Image} {inum k : ℕ} {indirect : Option ℕ} {g g' : Store} {e i : ℕ}

/-- The kernel sees the inode and the blocks of the file as they are in the image. -/
structure Shows (sb : Superblock) (inum : ℕ) (m : Image) (g : Store) : Prop where
  type : (g.dinode sb ROOTDEV inum).type = (m.dinode sb inum).type
  size : (g.dinode sb ROOTDEV inum).size = (m.dinode sb inum).size
  addrs : ∀ i ≤ NDIRECT, (g.dinode sb ROOTDEV inum).addrs i = (m.dinode sb inum).addrs i
  block : ∀ b ∈ m.taken, g.block ROOTDEV b = m.block b

/-- Entry `e` of the inode table stands for inode `inum`, which is not in memory yet. -/
structure Unread (g : Store) (e inum : ℕ) : Prop where
  ready : g.Ready e
  held : g.held = []
  dev : (g.kernel.inode e).dev = ROOTDEV
  inum : (g.kernel.inode e).inum = inum
  valid : (g.kernel.inode e).valid = false

/-- Entry `e` holds the inode that is on disk. -/
structure Read (sb : Superblock) (g' : Store) (e inum : ℕ) (g : Store) : Prop where
  dev : (g'.kernel.inode e).dev = ROOTDEV
  copy : (g'.kernel.inode e).copy = g.dinode sb ROOTDEV inum
  block : g'.block = g.block
  held : g'.held = []
  oracle : g'.oracle = g.oracle

theorem Unread.ilock (h : Unread g e inum) (htype : (g.dinode sb ROOTDEV inum).type ≠ 0) :
    ∃ g', (ilock sb e).exec (Store.perform i) g = some ((), g') ∧ Read sb g' e inum g := by
  refine ⟨(g.lock i e).load sb e, ?_, ?_⟩
  · rw [Sysfile.exec_ilock_load _ h.ready h.held h.valid, h.dev, h.inum, if_neg htype]
  · constructor
    case dev => simpa [Store.load, Store.lock, Sysfile.Kernel.setInode] using h.dev
    case copy =>
      simp only [Store.load, Store.lock, Sysfile.Kernel.setInode, Function.update_self, h.dev,
        h.inum]
      rfl
    case block => rfl
    case held => exact h.held
    case oracle => rfl

/-- The kernel finds the addresses that are in the image. -/
theorem Blocks.store_addr (h : Blocks sb inum k indirect m) (hs : Shows sb inum m g)
    (hr : Read sb g' e inum g) {j : ℕ} (hj : j < k) : g'.addr e j = m.addr sb inum j := by
  simp only [Store.addr, Image.addr, hr.copy, hr.dev, hr.block]
  split_ifs with hd
  · exact hs.addrs j hd.le
  · rw [hs.addrs NDIRECT le_rfl]
    cases indirect with
    | none => exact absurd (hj.trans_le (h.indirect_none rfl)) hd
    | some b =>
      obtain ⟨hb, hmem⟩ := h.indirect_some b rfl
      rw [hb, hs.block b hmem]

/-- The kernel that has booted from an image. -/
def mounted (m : Image) : Store where
  block _ := m.block
  disk := m.block
  held := []
  kernel := Sysfile.bootKernel
  oracle _ := Sysfile.answers [] fun _ => 0

/-- A layout whose bitmap is one block. -/
def oneBitmapBlock : Superblock := { Fs.mkfsSb with nblocks := Fs.BPB }

end Zrhos.Mkfs
