import Zrhos.Sysfile.State

/-! One task runs alone: the calls of the file system on the contents of blocks and on the
kernel's tables. -/
namespace Zrhos.Sysfile
open Turns
open Fs (Block Superblock BSIZE ROOTDEV IPB IBLOCK)

/-- `block` is what the kernel sees of a block: its buffer, which is not recycled before it
is written back, or the disk. `held` are the buffers that are locked. Every call out of the
file system takes its answer from the next element of `oracle`. -/
structure Store where
  block : ℕ → ℕ → Block
  disk : ℕ → Block
  held : List (ℕ × ℕ)
  kernel : Kernel
  oracle : ℕ → Oracle

namespace Store

def setBlock (g : Store) (dev b : ℕ) (data : Block) : Store :=
  { g with block := Function.update g.block dev (Function.update (g.block dev) b data) }

def hold (g : Store) (dev b : ℕ) : Store := { g with held := (dev, b) :: g.held }

def release (g : Store) (dev b : ℕ) : Store := { g with held := g.held.erase (dev, b) }

/-- The next `k` answers are gone. -/
def skip (g : Store) (k : ℕ) : Store := { g with oracle := fun n => g.oracle (n + k) }

/-- One operation of task `i`; `none` if it panics or waits. -/
def perform (i : ℕ) (g : Store) : (o : Op) → Option (o.Resp × Store)
  | .bread dev b =>
    if (dev, b) ∈ g.held then none
    else some (g.block dev b, g.hold dev b)
  | .bstore dev b data => some ((), g.setBlock dev b data)
  | .bwrite dev b => some ((), { g with disk := Function.update g.disk b (g.block dev b) })
  | .brelse dev b => some ((), g.release dev b)
  | .ext c => some ((g.oracle 0).ext c, g.skip 1)
  | o => (Sysfile.perform (g.oracle 0) g.kernel i o).map fun r => (r.1, { g with kernel := r.2 })

end Store

variable {α β : Type} {sb : Superblock} {i : ℕ} {g g' : Store}

@[simp] theorem exec_panic (why : Panic) :
    (panic why : FsM α).exec (Store.perform i) g = none := rfl

/-! ### The operations -/

namespace Store

@[simp] theorem skip_zero : g.skip 0 = g := rfl

@[simp] theorem skip_skip (k n : ℕ) : (g.skip k).skip n = g.skip (n + k) := by
  simp only [skip, Nat.add_assoc]

@[simp] theorem perform_inode (e : ℕ) :
    g.perform i (.inode e) = some (g.kernel.inode e, g) := rfl

@[simp] theorem perform_setCopy (e : ℕ) (d : Dinode) : g.perform i (.setCopy e d) =
    some ((), { g with kernel := g.kernel.setInode e { g.kernel.inode e with copy := d } }) := rfl

@[simp] theorem perform_setValid (e : ℕ) (valid : Bool) : g.perform i (.setValid e valid) =
    some ((), { g with kernel := g.kernel.setInode e { g.kernel.inode e with valid := valid } }) :=
  rfl

@[simp] theorem release_hold (dev b : ℕ) : (g.hold dev b).release dev b = g := by
  simp [hold, release]

@[simp] theorem skip_hold (dev b k : ℕ) : (g.hold dev b).skip k = (g.skip k).hold dev b := rfl

theorem perform_bread {dev b : ℕ} (h : (dev, b) ∉ g.held) :
    g.perform i (.bread dev b) = some (g.block dev b, g.hold dev b) := if_neg h

@[simp] theorem perform_brelse (dev b : ℕ) :
    g.perform i (.brelse dev b) = some ((), g.release dev b) := rfl

@[simp] theorem perform_bstore (dev b : ℕ) (data : Block) :
    g.perform i (.bstore dev b data) = some ((), g.setBlock dev b data) := rfl

@[simp] theorem perform_bwrite (dev b : ℕ) : g.perform i (.bwrite dev b) =
    some ((), { g with disk := Function.update g.disk b (g.block dev b) }) := rfl

@[simp] theorem perform_ext (c : Ext) :
    g.perform i (.ext c) = some ((g.oracle 0).ext c, g.skip 1) := rfl

@[simp] theorem setBlock_self (dev b : ℕ) (data : Block) :
    (g.setBlock dev b data).block dev b = data := by
  simp [setBlock]

theorem setBlock_of_ne {dev b dev' b' : ℕ} (data : Block) (h : (dev', b') ≠ (dev, b)) :
    (g.setBlock dev b data).block dev' b' = g.block dev' b' := by
  by_cases hd : dev' = dev
  · subst hd
    have hb : b' ≠ b := fun hb => h (hb ▸ rfl)
    simp [setBlock, hb]
  · simp [setBlock, hd]

end Store

/-! ### Locking an inode -/

namespace Store

/-- Task `i` has the inode behind entry `e`. -/
def lock (g : Store) (i e : ℕ) : Store :=
  { g with kernel := { g.kernel with holder := Function.update g.kernel.holder e (some i) } }

def unlock (g : Store) (e : ℕ) : Store :=
  { g with kernel := { g.kernel with holder := Function.update g.kernel.holder e none } }

/-- The inode as it is on disk. -/
def dinode (sb : Superblock) (g : Store) (dev inum : ℕ) : Dinode :=
  dinodeAt (g.block dev (IBLOCK inum sb)) (inum % IPB)

/-- `ilock` has read the inode behind entry `e`. -/
def load (sb : Superblock) (g : Store) (e : ℕ) : Store :=
  let ip := g.kernel.inode e
  { g with kernel := g.kernel.setInode e { ip with
      copy := g.dinode sb ip.dev ip.inum
      valid := true } }

/-- Entry `e` is in use and nobody has locked it. -/
structure Ready (g : Store) (e : ℕ) : Prop where
  ref : 1 ≤ (g.kernel.inode e).ref
  holder : g.kernel.holder e = none

@[simp] theorem perform_P {e : ℕ} (h : g.kernel.holder e = none) :
    g.perform i (.P (.inode e)) = some ((), g.lock i e) := by
  simp only [perform, Sysfile.perform, if_pos h]
  rfl

@[simp] theorem perform_V (e : ℕ) : g.perform i (.V (.inode e)) = some ((), g.unlock e) := rfl

theorem unlock_lock {e : ℕ} (h : g.kernel.holder e = none) : (g.lock i e).unlock e = g := by
  simp [lock, unlock, ← h]

end Store

theorem exec_ilock_valid {e : ℕ} (h : g.Ready e) (hv : (g.kernel.inode e).valid = true) :
    (ilock sb e).exec (Store.perform i) g = some ((), g.lock i e) := by
  unfold ilock
  rw [exec_bind_of_eq (exec_call.trans (Store.perform_inode e)), if_neg (not_lt.mpr h.ref),
    exec_bind_of_eq (exec_call.trans (Store.perform_P h.holder)),
    exec_bind_of_eq (exec_call.trans (Store.perform_inode e))]
  exact congrArg (fun p : FsM Unit => p.exec (Store.perform i) (g.lock i e)) (if_pos hv)

/-- An inode that is not in memory is read; it must have a type. -/
theorem exec_ilock_load (sb : Superblock) {e : ℕ} (h : g.Ready e) (hheld : g.held = [])
    (hv : (g.kernel.inode e).valid = false) : (ilock sb e).exec (Store.perform i) g =
      if (g.dinode sb (g.kernel.inode e).dev (g.kernel.inode e).inum).type = 0 then none
      else some ((), (g.lock i e).load sb e) := by
  have hnot : ((g.kernel.inode e).dev, IBLOCK (g.kernel.inode e).inum sb) ∉ (g.lock i e).held := by
    simp [Store.lock, hheld]
  unfold ilock
  rw [exec_bind_of_eq (exec_call.trans (Store.perform_inode e)), if_neg (not_lt.mpr h.ref),
    exec_bind_of_eq (exec_call.trans (Store.perform_P h.holder)),
    exec_bind_of_eq (exec_call.trans (Store.perform_inode e))]
  have hip : (g.lock i e).kernel.inode e = g.kernel.inode e := rfl
  rw [hip, if_neg (by simp [hv]), exec_bind_of_eq (exec_call.trans (Store.perform_bread hnot))]
  simp only [exec_bind, exec_call, Store.perform_setCopy, Option.bind_some, Store.perform_brelse,
    Store.perform_setValid]
  have hblock : (g.lock i e).block = g.block := rfl
  rw [hblock]
  split_ifs with h0 h1 h1
  · rfl
  · exact absurd h0 h1
  · exact absurd h1 h0
  · simp only [exec_pure]
    congr 2
    simp [Store.load, Store.lock, Store.hold, Store.release, Kernel.setInode, Store.dinode]

/-! ### Reading -/

namespace Store

/-- The address of block `j` of the file behind entry `e`. -/
def addr (g : Store) (e j : ℕ) : ℕ :=
  let ip := g.kernel.inode e
  if j < NDIRECT then ip.copy.addrs j
  else word (g.block ip.dev (ip.copy.addrs NDIRECT)) (4 * (j - NDIRECT))

/-- The byte at offset `x` of the file behind entry `e`. -/
def byte (g : Store) (e x : ℕ) : ℕ :=
  g.block (g.kernel.inode e).dev (g.addr e (x / BSIZE)) (x % BSIZE)

/-- The file has a block where it is read. -/
def Backed (g : Store) (e off n : ℕ) : Prop :=
  ∀ j, off / BSIZE ≤ j → j * BSIZE < off + n → g.addr e j ≠ 0

end Store

theorem exec_bmap {e j : ℕ} (hheld : g.held = []) (hj : j < MAXFILE)
    (hsize : j ≤ (g.kernel.inode e).copy.size / BSIZE + 1) :
    (bmap sb e j).exec (Store.perform i) g = some (g.addr e j, g) := by
  unfold bmap
  rw [if_neg (by omega)]
  simp only [exec_bind, exec_call, Store.perform_inode, Option.bind_some]
  rw [if_neg (by omega)]
  by_cases hd : j < NDIRECT
  · simp [hd, Store.addr]
  · rw [if_neg hd]
    have hnot : ((g.kernel.inode e).dev, (g.kernel.inode e).copy.addrs NDIRECT) ∉ g.held := by
      simp [hheld]
    simp only [exec_bind, exec_call, Store.perform_bread hnot, Option.bind_some,
      Store.perform_brelse, exec_pure, Store.release_hold, Store.addr, hd, if_false]

/-- The `n` bytes of the file from offset `off` on. -/
def Store.bytes (g : Store) (e off n : ℕ) : List ℕ := (List.range n).map fun x => g.byte e (off + x)

/-- Every copy to user memory comes to its end. -/
def Store.Delivers (g : Store) (user : Bool) : Prop :=
  user = true → ∀ n dst bytes, (g.oracle n).ext (.copyout dst bytes) = true

theorem Store.bytes_add (e off m n : ℕ) :
    g.bytes e off (m + n) = g.bytes e off m ++ g.bytes e (off + m) n := by
  simp only [Store.bytes, List.range_add, List.map_append, List.map_map, Function.comp_def,
    Nat.add_assoc]

theorem Store.bytes_eq_block {e off m : ℕ} (hm : m ≤ BSIZE - off % BSIZE) : g.bytes e off m =
    (List.range m).map fun x =>
      g.block (g.kernel.inode e).dev (g.addr e (off / BSIZE)) (off % BSIZE + x) := by
  apply List.map_congr_left
  intro x hx
  have hx' := List.mem_range.mp hx
  have hdiv : (off + x) / BSIZE = off / BSIZE := by
    simp only [BSIZE] at *
    omega
  have hmod : (off + x) % BSIZE = off % BSIZE + x := by
    simp only [BSIZE] at *
    omega
  simp only [Store.byte, hdiv, hmod]

@[simp] theorem Store.bytes_skip (e off n k : ℕ) : (g.skip k).bytes e off n = g.bytes e off n := rfl

theorem exec_copyout {dst : ℕ} {bytes : List ℕ} (hout : g.Delivers true) :
    (call (.ext (.copyout dst bytes)) : FsM Bool).exec (Store.perform i) g =
      some (true, g.skip 1) := by
  have hone := hout rfl 0 dst bytes
  rw [exec_call, Store.perform_ext, hone]

theorem readiLoop_done {e fuel dst off : ℕ} {user : Bool} :
    readiLoop sb e user fuel dst off 0 = return [] := by
  cases fuel with
  | zero => rfl
  | succ fuel => exact if_pos rfl

/-- One round of the loop, in a block that is there. -/
theorem exec_readiLoop_round {e fuel dst off left m : ℕ} {user : Bool} (hheld : g.held = [])
    (hout : g.Delivers user) (h0 : left ≠ 0) (hj : off / BSIZE < MAXFILE)
    (hj' : off / BSIZE ≤ (g.kernel.inode e).copy.size / BSIZE + 1)
    (haddr : g.addr e (off / BSIZE) ≠ 0) (hm : m = min (BSIZE - off % BSIZE) left) :
    (readiLoop sb e user (fuel + 1) dst off left).exec (Store.perform i) g =
      ((readiLoop sb e user fuel (dst + m) (off + m) (left - m)).exec (Store.perform i)
        (g.skip user.toNat)).map fun r => (g.bytes e off m ++ r.1, r.2) := by
  have hnot : ((g.kernel.inode e).dev, g.addr e (off / BSIZE)) ∉ g.held := by simp [hheld]
  have hbytes : (List.range m).map (fun x => g.block (g.kernel.inode e).dev
      (g.addr e (off / BSIZE)) (off % BSIZE + x)) = g.bytes e off m :=
    (Store.bytes_eq_block (by omega)).symm
  rw [readiLoop, if_neg h0, exec_bind_of_eq (exec_bmap hheld hj hj'), if_neg haddr,
    exec_bind_of_eq (exec_call.trans (Store.perform_inode e)),
    exec_bind_of_eq (exec_call.trans (Store.perform_bread hnot))]
  cases user with
  | false =>
    simp only [Bool.false_eq_true, if_false, exec_pure, Option.bind_some, Store.perform_brelse,
      Store.release_hold, if_true, exec_bind, exec_call, ← hm, hbytes, Bool.toNat_false,
      Store.skip_zero, Option.map_eq_bind, Function.comp_def]
  | true =>
    dsimp only
    rw [if_pos rfl, exec_bind_of_eq (exec_copyout (g := g.hold _ _) hout)]
    simp only [Store.skip_hold, Store.perform_brelse, Store.release_hold, if_true, exec_bind,
      exec_call, exec_pure, Option.bind_some, ← hm, hbytes, Bool.toNat_true,
      Option.map_eq_bind, Function.comp_def]

/-- The bytes are in blocks of the file. -/
def Store.Filled (g : Store) (e off n : ℕ) : Prop :=
  ∀ x, off ≤ x → x < off + n → g.addr e (x / BSIZE) ≠ 0

theorem Store.Backed.filled {e off n : ℕ} (h : g.Backed e off n) : g.Filled e off n :=
  fun x hx hlt => h _ (Nat.div_le_div_right hx) ((Nat.div_mul_le_self x BSIZE).trans_lt hlt)

theorem Store.Delivers.skip {user : Bool} (h : g.Delivers user) (k : ℕ) :
    (g.skip k).Delivers user := fun hu n => h hu (n + k)

/-- The loop over a stretch that ends with it or with a block. -/
theorem exec_readiLoop_stretch (sb : Superblock) (dst : ℕ) {e fuel off left a : ℕ} {user : Bool}
    (hheld : g.held = []) (hout : g.Delivers user) (hmax : off + a ≤ MAXFILE * BSIZE)
    (hin : off + a ≤ ((g.kernel.inode e).copy.size / BSIZE + 2) * BSIZE)
    (hfilled : g.Filled e off a) (hfuel : left ≤ fuel) (hle : a ≤ left)
    (hends : a = 0 ∨ a = left ∨ (off + a) % BSIZE = 0) :
    ∃ k dst' fuel', (user = false → k = 0) ∧ left - a ≤ fuel' ∧
      (readiLoop sb e user fuel dst off left).exec (Store.perform i) g =
        ((readiLoop sb e user fuel' dst' (off + a) (left - a)).exec (Store.perform i)
          (g.skip k)).map fun r => (g.bytes e off a ++ r.1, r.2) := by
  induction fuel generalizing dst off left a g with
  | zero =>
    obtain rfl : left = 0 := Nat.le_zero.mp hfuel
    obtain rfl : a = 0 := Nat.le_zero.mp hle
    exact ⟨0, dst, 0, fun _ => rfl, le_rfl, by simp [Store.bytes]⟩
  | succ fuel ih =>
    by_cases h0 : a = 0
    · subst h0
      exact ⟨0, dst, fuel + 1, fun _ => rfl, hfuel, by simp [Store.bytes]⟩
    have hpos : 0 < BSIZE := by decide
    have hmod : off % BSIZE < BSIZE := Nat.mod_lt off hpos
    have hsplit : off / BSIZE * BSIZE + off % BSIZE = off := Nat.div_add_mod' off BSIZE
    obtain ⟨m, hm⟩ : ∃ m, m = min (BSIZE - off % BSIZE) left := ⟨_, rfl⟩
    have hma : m ≤ a := by
      rcases hends with rfl | rfl | hends
      · exact absurd rfl h0
      · omega
      · by_contra hlt
        have hsmall : off % BSIZE + a < BSIZE := by omega
        rw [← hsplit, add_assoc, Nat.mul_add_mod', Nat.mod_eq_of_lt hsmall] at hends
        omega
    have haddr : g.addr e (off / BSIZE) ≠ 0 := hfilled off le_rfl (by omega)
    have hfilled' : g.Filled e (off + m) (a - m) := fun x hx hlt =>
      hfilled x (by omega) (by omega)
    have hends' : a - m = 0 ∨ a - m = left - m ∨ (off + m + (a - m)) % BSIZE = 0 := by
      rw [add_assoc, Nat.add_sub_cancel' hma]
      rcases hends with h | h | h
      · exact absurd h h0
      · exact .inr (.inl (by rw [h]))
      · exact .inr (.inr h)
    obtain ⟨k, dst', fuel', hk, hfuel', hrest⟩ := ih (dst + m) (g := g.skip user.toNat)
      (a := a - m) hheld (hout.skip _) (by omega)
      (by rw [add_assoc, Nat.add_sub_cancel' hma]; exact hin) hfilled' (by omega) (by omega) hends'
    refine ⟨k + user.toNat, dst', fuel', fun hu => by simp [hu, hk hu], by omega, ?_⟩
    have hj : off / BSIZE < MAXFILE := (Nat.div_lt_iff_lt_mul hpos).mpr (by omega)
    have hj' : off / BSIZE < (g.kernel.inode e).copy.size / BSIZE + 2 :=
      (Nat.div_lt_iff_lt_mul hpos).mpr (by omega)
    have hrest' := hrest
    rw [add_assoc, Nat.add_sub_cancel' hma, Nat.sub_sub, Nat.add_sub_cancel' hma,
      Store.skip_skip, Store.bytes_skip] at hrest'
    rw [exec_readiLoop_round hheld hout (show left ≠ 0 by omega) hj (Nat.le_of_lt_succ hj') haddr
      hm, hrest', Option.map_map, ← Nat.add_sub_cancel' hma, Store.bytes_add,
      Nat.add_sub_cancel' hma]
    simp only [Function.comp_def, List.append_assoc]

theorem exec_readiLoop {e fuel dst off left : ℕ} {user : Bool} (hheld : g.held = [])
    (hout : g.Delivers user) (hmax : off + left ≤ MAXFILE * BSIZE)
    (hin : off + left ≤ ((g.kernel.inode e).copy.size / BSIZE + 2) * BSIZE)
    (hbacked : g.Backed e off left) (hfuel : left ≤ fuel) :
    ∃ k, (user = false → k = 0) ∧
      (readiLoop sb e user fuel dst off left).exec (Store.perform i) g =
        some (g.bytes e off left, g.skip k) := by
  obtain ⟨k, dst', fuel', hk, -, hrest⟩ := exec_readiLoop_stretch (i := i) sb dst
    hheld hout hmax hin hbacked.filled hfuel le_rfl (.inr (.inl rfl))
  refine ⟨k, hk, ?_⟩
  rw [hrest, Nat.sub_self, readiLoop_done]
  simp

theorem outOfRange_eq_false {size off n : ℕ} (hoff : off ≤ size)
    (hmax : off + n ≤ MAXFILE * BSIZE) : outOfRange size off n = false := by
  have hmax' : off + n ≤ 274432 := hmax
  have hmod : (off + n) % 2 ^ 32 = off + n := Nat.mod_eq_of_lt (by omega)
  simp only [outOfRange, hmod, Bool.or_eq_false_iff, decide_eq_false_iff_not]
  omega

/-- `readi` where the file has blocks, up to the end of the block behind its last byte. -/
theorem exec_readi {e dst off n : ℕ} {user : Bool} (hheld : g.held = []) (hout : g.Delivers user)
    (hoff : off ≤ (g.kernel.inode e).copy.size) (hmax : off + n ≤ MAXFILE * BSIZE)
    (hin : off + n ≤ ((g.kernel.inode e).copy.size / BSIZE + 2) * BSIZE)
    (hbacked : g.Backed e off n) :
    ∃ k, (user = false → k = 0) ∧ (readi sb e user dst off n).exec (Store.perform i) g =
      some (((n : ℤ), g.bytes e off n), g.skip k) := by
  obtain ⟨k, hk, hloop⟩ : ∃ k, (user = false → k = 0) ∧
      (readiLoop sb e user n dst off n).exec (Store.perform i) g =
        some (g.bytes e off n, g.skip k) :=
    exec_readiLoop hheld hout hmax hin hbacked le_rfl
  refine ⟨k, hk, ?_⟩
  unfold readi
  rw [exec_bind_of_eq (exec_call.trans (Store.perform_inode e)), outOfRange_eq_false hoff hmax,
    if_neg Bool.false_ne_true, exec_bind_of_eq hloop]
  simp [Store.bytes]

end Zrhos.Sysfile
