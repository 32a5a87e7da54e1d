import Zrhos.Sysfile.Store
import Zrhos.Sysfile.Runs

/-! Reads and the end of the file. -/
namespace Zrhos.Sysfile
open Turns
open Fs (Superblock BSIZE)

variable {sb : Superblock} {i e f dst off n left fuel buf : ℕ} {g g' : Store} {user : Bool}
  {count : ℤ}

def Store.size (g : Store) (e : ℕ) : ℕ := (g.kernel.inode e).copy.size

/-- What is left of the file for a read of `n` bytes at `off`. -/
def Store.upTo (g : Store) (e off n : ℕ) : ℕ := min n (g.size e - off)

/-- The read gives the bytes of the file and stops at its end. -/
def StopsAtEnd (sb : Superblock) (i : ℕ) (g : Store) (e : ℕ) (user : Bool) (dst off n : ℕ) : Prop :=
  ∃ k, (readi sb e user dst off n).exec (Store.perform i) g =
    some (((g.upTo e off n : ℤ), g.bytes e off (g.upTo e off n)), g.skip k)

/-- The file has blocks where it is read; a read that goes on beyond the end finds no block
there. -/
structure Store.Closed (g : Store) (e off n : ℕ) : Prop where
  fits : off + n ≤ MAXFILE * BSIZE
  filled : g.Filled e off (g.upTo e off n)
  beyond : n ≤ g.size e - off ∨ g.addr e (g.size e / BSIZE) = 0

/-! ### The loop up to a missing block -/

theorem exec_readiLoop_hole (hheld : g.held = []) (hj : off / BSIZE < MAXFILE)
    (hj' : off / BSIZE ≤ g.size e / BSIZE + 1) (haddr : g.addr e (off / BSIZE) = 0) :
    (readiLoop sb e user fuel dst off left).exec (Store.perform i) g = some ([], g) := by
  cases fuel with
  | zero => rfl
  | succ fuel =>
    by_cases h0 : left = 0
    · subst h0
      rw [readiLoop_done]
      rfl
    · rw [readiLoop, if_neg h0, exec_bind_of_eq (exec_bmap hheld hj hj'), if_pos haddr]
      rfl

/-- The number of bytes in front of block `j`. -/
theorem exec_readiLoop_until (sb : Superblock) (dst : ℕ) {j left : ℕ} (hheld : g.held = []) (hout : g.Delivers user)
    (hj : off / BSIZE ≤ j) (hjmax : j < MAXFILE) (hjsize : j ≤ g.size e / BSIZE + 1)
    (hleft : j * BSIZE < off + left) (hfuel : left ≤ fuel) (haddr : g.addr e j = 0)
    (hbacked : ∀ j', off / BSIZE ≤ j' → j' < j → g.addr e j' ≠ 0) :
    ∃ k, (readiLoop sb e user fuel dst off left).exec (Store.perform i) g =
      some (g.bytes e off (j * BSIZE - off), g.skip k) := by
  have hpos : 0 < BSIZE := by decide
  by_cases hfirst : j * BSIZE ≤ off
  · have hdiv : off / BSIZE = j := by
      apply Nat.le_antisymm hj
      exact (Nat.le_div_iff_mul_le hpos).mpr hfirst
    subst hdiv
    refine ⟨0, ?_⟩
    rw [exec_readiLoop_hole hheld hjmax hjsize haddr, Nat.sub_eq_zero_of_le hfirst]
    rfl
  · have hsum : off + (j * BSIZE - off) = j * BSIZE := by omega
    have hmax : j * BSIZE ≤ MAXFILE * BSIZE := Nat.mul_le_mul_right _ hjmax.le
    have hin : j * BSIZE ≤ (g.size e / BSIZE + 2) * BSIZE :=
      Nat.mul_le_mul_right _ (Nat.le_succ_of_le hjsize)
    have hfilled : g.Filled e off (j * BSIZE - off) := by
      intro x hx hlt
      rw [hsum] at hlt
      exact hbacked _ (Nat.div_le_div_right hx) ((Nat.div_lt_iff_lt_mul hpos).mpr hlt)
    obtain ⟨k, dst', fuel', -, -, hrun⟩ := exec_readiLoop_stretch (i := i) sb dst
      hheld hout (hsum.symm ▸ hmax) (hsum.symm ▸ hin) hfilled hfuel (by omega)
      (.inr (.inr (by rw [hsum, Nat.mul_mod_left])))
    refine ⟨k, ?_⟩
    have hdiv : j * BSIZE / BSIZE = j := Nat.mul_div_cancel _ hpos
    rw [hrun, hsum, exec_readiLoop_hole (g := g.skip k) hheld (by rwa [hdiv]) (by rwa [hdiv])
      (by rwa [hdiv])]
    simp

/-! ### Reads -/

theorem exec_readi_fits (hoff : off ≤ g.size e) (hmax : off + n ≤ MAXFILE * BSIZE) :
    (readi sb e user dst off n).exec (Store.perform i) g =
      ((readiLoop sb e user n dst off n).exec (Store.perform i) g).map fun r =>
        (((r.1.length : ℤ), r.1), r.2) := by
  unfold readi
  have hin : outOfRange (g.kernel.inode e).copy.size off n = false := outOfRange_eq_false hoff hmax
  rw [exec_bind_of_eq (exec_call.trans (Store.perform_inode e)), hin,
    if_neg Bool.false_ne_true, exec_bind]
  simp only [exec_pure, Option.map_eq_bind, Function.comp_def]

theorem exec_readi_outOfRange (hn : off + n < 2 ^ 32) (hmax : ¬ off + n ≤ MAXFILE * BSIZE) :
    (readi sb e user dst off n).exec (Store.perform i) g = some ((-1, []), g) := by
  have hmax' : ¬ off + n ≤ 274432 := hmax
  have hout : outOfRange (g.kernel.inode e).copy.size off n = true := by
    simp only [outOfRange, Nat.mod_eq_of_lt hn, Bool.or_eq_true, decide_eq_true_eq]
    exact .inr (not_le.mp hmax')
  unfold readi
  rw [exec_bind_of_eq (exec_call.trans (Store.perform_inode e)), hout, if_pos rfl, exec_pure]

theorem Store.length_bytes (g : Store) (e off n : ℕ) : (g.bytes e off n).length = n := by
  simp [Store.bytes]

theorem Store.Closed.stops (h : g.Closed e off n) (hheld : g.held = []) (hout : g.Delivers user)
    (hoff : off ≤ g.size e) : StopsAtEnd sb i g e user dst off n := by
  have hpos : 0 < BSIZE := by decide
  have hle : g.upTo e off n ≤ n := Nat.min_le_left ..
  have hsize : off + g.upTo e off n ≤ g.size e := by
    have := Nat.min_le_right n (g.size e - off)
    unfold Store.upTo
    omega
  have hin : off + g.upTo e off n ≤ (g.size e / BSIZE + 2) * BSIZE := by
    refine hsize.trans ?_
    have := Nat.div_add_mod' (g.size e) BSIZE
    have := Nat.mod_lt (g.size e) hpos
    rw [Nat.add_mul]
    omega
  have hends : g.upTo e off n = 0 ∨ g.upTo e off n = n ∨ (off + g.upTo e off n) % BSIZE = 0 := by
    by_cases hn : n ≤ g.size e - off
    · exact .inr (.inl (Nat.min_eq_left hn))
    have hupto : g.upTo e off n = g.size e - off := Nat.min_eq_right (not_le.mp hn).le
    have hzero := h.beyond.resolve_left hn
    by_contra hnot
    push Not at hnot
    rw [hupto, Nat.add_sub_cancel' hoff] at hnot
    have hdivmod := Nat.div_add_mod' (g.size e) BSIZE
    have hlast : (g.size e - 1) / BSIZE = g.size e / BSIZE := by
      apply Nat.div_eq_of_lt_le
      · omega
      · rw [Nat.succ_mul]
        have := Nat.mod_lt (g.size e) hpos
        omega
    have hne := h.filled (g.size e - 1) (by omega) (by omega)
    rw [hlast] at hne
    exact hne hzero
  obtain ⟨k, dst', fuel', -, -, hrun⟩ := exec_readiLoop_stretch (i := i) sb dst
    hheld hout ((Nat.add_le_add_left hle off).trans h.fits) hin h.filled le_rfl hle hends
  have hrest : (readiLoop sb e user fuel' dst' (off + g.upTo e off n)
      (n - g.upTo e off n)).exec (Store.perform i) (g.skip k) = some ([], g.skip k) := by
    by_cases hn : n ≤ g.size e - off
    · have hupto : g.upTo e off n = n := Nat.min_eq_left hn
      rw [hupto, Nat.sub_self, readiLoop_done]
      rfl
    · have hupto : g.upTo e off n = g.size e - off := Nat.min_eq_right (not_le.mp hn).le
      rw [hupto, Nat.add_sub_cancel' hoff]
      have hlt : g.size e < MAXFILE * BSIZE := by
        have := h.fits
        omega
      exact exec_readiLoop_hole (g := g.skip k) hheld ((Nat.div_lt_iff_lt_mul hpos).mpr hlt)
        (Nat.le_succ _) (h.beyond.resolve_left hn)
  refine ⟨k, ?_⟩
  rw [exec_readi_fits hoff h.fits, hrun, hrest]
  simp [Store.length_bytes]

/-- The read ends early, at a missing block. -/
def EndsAtHole (sb : Superblock) (i : ℕ) (g : Store) (e : ℕ) (user : Bool) (dst off n : ℕ) : Prop :=
  ∃ a k, a < g.upTo e off n ∧ g.addr e ((off + a) / BSIZE) = 0 ∧
    (readi sb e user dst off n).exec (Store.perform i) g =
      some (((a : ℤ), g.bytes e off a), g.skip k)

/-- If the read returns, it has gone on beyond the end. -/
def GoesBeyond (sb : Superblock) (i : ℕ) (g : Store) (e : ℕ) (user : Bool) (dst off n : ℕ) : Prop :=
  ∀ r g', (readi sb e user dst off n).exec (Store.perform i) g = some (r, g') →
    r.1 = r.2.length ∧ g.size e - off < r.2.length

theorem endsAtHole_of_not_filled (hheld : g.held = []) (hout : g.Delivers user)
    (hoff : off ≤ g.size e) (hfits : off + n ≤ MAXFILE * BSIZE)
    (h : ¬ g.Filled e off (g.upTo e off n)) : EndsAtHole sb i g e user dst off n := by
  classical
  have hpos : 0 < BSIZE := by decide
  have hupto : g.upTo e off n ≤ n ∧ g.upTo e off n ≤ g.size e - off :=
    ⟨Nat.min_le_left .., Nat.min_le_right ..⟩
  have hhole : ∃ j, off / BSIZE ≤ j ∧ off < off + g.upTo e off n ∧
      j * BSIZE < off + g.upTo e off n ∧ g.addr e j = 0 := by
    unfold Store.Filled at h
    push Not at h
    obtain ⟨x, hx, hlt, hzero⟩ := h
    exact ⟨x / BSIZE, Nat.div_le_div_right hx, by omega,
      (Nat.div_mul_le_self x BSIZE).trans_lt hlt, hzero⟩
  obtain ⟨hj, hsome, hlt, haddr⟩ := Nat.find_spec hhole
  have hbefore : ∀ j', off / BSIZE ≤ j' → j' < Nat.find hhole → g.addr e j' ≠ 0 := by
    intro j' hj' hlt' hzero
    refine Nat.find_min hhole hlt' ⟨hj', hsome, ?_, hzero⟩
    exact (Nat.mul_le_mul_right _ hlt'.le).trans_lt hlt
  have hjmax : Nat.find hhole < MAXFILE := Nat.lt_of_mul_lt_mul_right (a := BSIZE) (by omega)
  have hjsize : Nat.find hhole ≤ g.size e / BSIZE := (Nat.le_div_iff_mul_le hpos).mpr (by omega)
  obtain ⟨k, hrun⟩ := exec_readiLoop_until (i := i) sb dst hheld hout hj hjmax
    (Nat.le_succ_of_le hjsize) (show Nat.find hhole * BSIZE < off + n by omega) le_rfl haddr hbefore
  refine ⟨Nat.find hhole * BSIZE - off, k, by omega, ?_, ?_⟩
  · by_cases hfirst : Nat.find hhole * BSIZE ≤ off
    · have hdiv : off / BSIZE = Nat.find hhole :=
        Nat.le_antisymm hj ((Nat.le_div_iff_mul_le hpos).mpr hfirst)
      rw [Nat.sub_eq_zero_of_le hfirst, Nat.add_zero, hdiv]
      exact haddr
    · rw [Nat.add_sub_cancel' (not_le.mp hfirst).le, Nat.mul_div_cancel _ hpos]
      exact haddr
  · rw [exec_readi_fits hoff hfits, hrun, Option.map_some, Store.length_bytes]

theorem goesBeyond_of_block (hheld : g.held = []) (hout : g.Delivers user) (hoff : off ≤ g.size e)
    (hfits : off + n ≤ MAXFILE * BSIZE) (hfilled : g.Filled e off (g.upTo e off n))
    (hbeyond : g.size e - off < n) (haddr : g.addr e (g.size e / BSIZE) ≠ 0) :
    GoesBeyond sb i g e user dst off n := by
  have hpos : 0 < BSIZE := by decide
  have hdivmod := Nat.div_add_mod' (g.size e) BSIZE
  have hmod := Nat.mod_lt (g.size e) hpos
  have hupto : g.upTo e off n = g.size e - off := Nat.min_eq_right hbeyond.le
  obtain ⟨a, ha⟩ : ∃ a, a = min n ((g.size e / BSIZE + 1) * BSIZE - off) := ⟨_, rfl⟩
  have hmul : (g.size e / BSIZE + 1) * BSIZE = g.size e / BSIZE * BSIZE + BSIZE := Nat.succ_mul ..
  have hmul' : (g.size e / BSIZE + 2) * BSIZE = g.size e / BSIZE * BSIZE + 2 * BSIZE :=
    Nat.add_mul ..
  have hfilled' : g.Filled e off a := by
    intro x hx hlt
    by_cases hlast : x < g.size e
    · exact hfilled x hx (by omega)
    · have hdiv : x / BSIZE = g.size e / BSIZE := by
        apply Nat.div_eq_of_lt_le
        · omega
        · rw [Nat.succ_mul]
          omega
      rw [hdiv]
      exact haddr
  have hends : a = 0 ∨ a = n ∨ (off + a) % BSIZE = 0 := by
    by_cases hle : n ≤ (g.size e / BSIZE + 1) * BSIZE - off
    · exact .inr (.inl (ha.trans (Nat.min_eq_left hle)))
    · refine .inr (.inr ?_)
      have hoffa : off + a = (g.size e / BSIZE + 1) * BSIZE := by omega
      rw [hoffa, Nat.mul_mod_left]
  obtain ⟨k, dst', fuel', -, -, hrun⟩ := exec_readiLoop_stretch (i := i) sb dst
    hheld hout (by omega) (show off + a ≤ (g.size e / BSIZE + 2) * BSIZE by omega) hfilled' le_rfl
    (by omega) hends
  intro r g' hread
  rw [exec_readi_fits hoff hfits, hrun, Option.map_map] at hread
  obtain ⟨x, -, hx⟩ := Option.map_eq_some_iff.mp hread
  obtain ⟨rfl, -⟩ := Prod.mk.inj hx
  refine ⟨rfl, ?_⟩
  rw [List.length_append, Store.length_bytes]
  omega

/-- Every other read that is in range ends at a hole or beyond the end. -/
theorem readi_not_closed (sb : Superblock) (dst : ℕ) (hheld : g.held = []) (hout : g.Delivers user) (hoff : off ≤ g.size e)
    (hfits : off + n ≤ MAXFILE * BSIZE) (h : ¬ g.Closed e off n) :
    EndsAtHole sb i g e user dst off n ∨ GoesBeyond sb i g e user dst off n := by
  by_cases hfilled : g.Filled e off (g.upTo e off n)
  · have hbeyond : ¬ (n ≤ g.size e - off ∨ g.addr e (g.size e / BSIZE) = 0) :=
      fun hb => h ⟨hfits, hfilled, hb⟩
    push Not at hbeyond
    exact .inr (goesBeyond_of_block hheld hout hoff hfits hfilled hbeyond.1 hbeyond.2)
  · exact .inl (endsAtHole_of_not_filled hheld hout hoff hfits hfilled)

theorem StopsAtEnd.closed (h : StopsAtEnd sb i g e user dst off n) (hheld : g.held = [])
    (hout : g.Delivers user) (hoff : off ≤ g.size e) (hn : off + n < 2 ^ 32) : g.Closed e off n := by
  obtain ⟨k, hread⟩ := h
  have hfits : off + n ≤ MAXFILE * BSIZE := by
    by_contra hmax
    rw [exec_readi_outOfRange hn hmax] at hread
    simp only [Option.some.injEq, Prod.mk.injEq] at hread
    omega
  by_contra hnot
  rcases readi_not_closed (i := i) sb dst hheld hout hoff hfits hnot with hhole | hbeyond
  · obtain ⟨a, k', hlt, -, hrun⟩ := hhole
    rw [hread] at hrun
    simp only [Option.some.injEq, Prod.mk.injEq] at hrun
    omega
  · have hlen := (hbeyond _ _ hread).2
    rw [Store.length_bytes] at hlen
    exact absurd (Nat.min_le_right n (g.size e - off)) (not_le.mpr hlen)

/-! ### Reading a file through a descriptor -/

/-- `readInode` with the result that it stores in `a0` and the bytes it has copied out. -/
def readInodeBytes (sb : Superblock) (f ip buf : ℕ) (count : ℤ) : FsM (Option (ℤ × List ℕ)) := do
  ilock sb ip
  let file ← call (.file f)
  if !file.readable then
    iunlock ip
    return none
  else
    let n ← readi sb ip true buf file.off (toUint count)
    when (n.1 > 0) (call (.setOff f (toUint (file.off + n.1))))
    iunlock ip
    call (.ext (.setA0 n.1))
    return some n

theorem readInodeBytes_code :
    (readInodeBytes sb f e buf count >>= fun _ => pure (-1)) = readInode sb f e buf count := by
  unfold readInodeBytes readInode
  rw [prog_bind_assoc]
  refine bind_congr fun _ => ?_
  rw [prog_bind_assoc]
  refine bind_congr fun file => ?_
  split_ifs
  · simp only [prog_bind_assoc, prog_pure_bind]
  · simp only [prog_bind_assoc, prog_pure_bind]

/-- `sys_read` of a descriptor for an inode. -/
theorem sysRead_inode {fd : ℕ} (hfd : fd < NOFILE) (hf : (g.kernel.task i).ofile fd = some f)
    (htype : (g.kernel.file f).type = .FD_INODE) (hip : (g.kernel.file f).ip = some e) :
    (sysRead sb fd buf count).exec (Store.perform i) g =
      (readInode sb f e buf count).exec (Store.perform i) g := by
  have hrange : ¬ ((fd : ℤ) < 0 ∨ (fd : ℤ) ≥ NOFILE) := by omega
  have hofile : g.perform i (.ofile (fd : ℤ).toNat) = some (some f, g) := by
    rw [Int.toNat_natCast, ← hf]
    rfl
  unfold sysRead onFile
  rw [if_neg hrange, exec_bind_of_eq (exec_call.trans hofile)]
  dsimp only
  rw [exec_bind_of_eq (exec_call.trans (show g.perform i (.file f) = some (g.kernel.file f, g) from rfl)),
    htype]
  dsimp only
  rw [hip]

/-- A task reads until it is told 0; `none` if it meets an error before. -/
def readAll (sb : Superblock) (f ip buf : ℕ) (count : ℤ) : ℕ → FsM (Option (List ℕ))
  | 0 => return none
  | fuel + 1 => do
    let r ← readInodeBytes sb f ip buf count
    match r with
    | none => return none
    | some (n, bytes) =>
      if n < 0 then return none
      else if n = 0 then return some []
      else do
        let rest ← readAll sb f ip buf count fuel
        return rest.map (bytes ++ ·)

/-- The file `f` is open for reading on the inode behind entry `e`. -/
structure Store.Opened (g : Store) (f e : ℕ) : Prop where
  ready : g.Ready e
  valid : (g.kernel.inode e).valid = true
  readable : (g.kernel.file f).readable = true
  held : g.held = []

def Store.setOff (g : Store) (f off : ℕ) : Store :=
  { g with kernel := g.kernel.setFile f { g.kernel.file f with off := off } }

/-- The offset of the open file. -/
def Store.offset (g : Store) (f : ℕ) : ℕ := (g.kernel.file f).off

theorem Store.offset_setOff (off k : ℕ) : ((g.setOff f off).skip k).offset f = off := by
  simp [Store.offset, Store.setOff, Store.skip, Kernel.setFile]

theorem Store.Opened.next (h : g.Opened f e) (off k : ℕ) : ((g.setOff f off).skip k).Opened f e where
  ready := ⟨h.ready.ref, h.ready.holder⟩
  valid := h.valid
  readable := by simpa [Store.setOff, Store.skip, Kernel.setFile] using h.readable
  held := h.held

/-- The calls around `readi`. -/
theorem exec_readInodeBytes (h : g.Opened f e) {n : ℤ} {bytes : List ℕ} {g₁ : Store}
    (hread : (readi sb e true buf (g.offset f) (toUint count)).exec (Store.perform i)
      (g.lock i e) = some ((n, bytes), g₁)) :
    (readInodeBytes sb f e buf count).exec (Store.perform i) g = some (some (n, bytes),
      ((if n > 0 then g₁.setOff f (toUint (g.offset f + n)) else g₁).unlock e).skip 1) := by
  have hfile : (g.lock i e).perform i (.file f) = some (g.kernel.file f, g.lock i e) := rfl
  unfold Store.offset at hread ⊢
  unfold readInodeBytes
  rw [exec_bind_of_eq (exec_ilock_valid h.ready h.valid), exec_bind_of_eq (exec_call.trans hfile),
    if_neg (by rw [h.readable]; decide), exec_bind_of_eq hread]
  unfold when
  split_ifs
  · rfl
  · rfl

/-- A read that has given some bytes moves the file on. -/
theorem exec_readInodeBytes_more (h : g.Opened f e) {a k : ℕ} (ha : 0 < a)
    (hsmall : g.offset f + a < 2 ^ 32) {bytes : List ℕ}
    (hread : (readi sb e true buf (g.offset f) (toUint count)).exec (Store.perform i)
      (g.lock i e) = some (((a : ℤ), bytes), (g.lock i e).skip k)) :
    (readInodeBytes sb f e buf count).exec (Store.perform i) g =
      some (some ((a : ℤ), bytes), (g.setOff f (g.offset f + a)).skip (k + 1)) := by
  have hoff : toUint ((g.offset f : ℤ) + a) = g.offset f + a := by
    unfold toUint
    omega
  have hback := congrArg (fun s : Store => ((s.setOff f (g.offset f + a)).skip k).skip 1)
    (Store.unlock_lock (i := i) h.ready.holder)
  rw [exec_readInodeBytes h hread, if_pos (by omega), hoff]
  refine congrArg (fun s => some (some ((a : ℤ), bytes), s)) ?_
  rw [Nat.add_comm k 1, ← Store.skip_skip]
  exact hback

theorem readAll_stop (fuel : ℕ) {bytes : List ℕ} (hread : (readInodeBytes sb f e buf count).exec
    (Store.perform i) g = some (some (0, bytes), g')) :
    (readAll sb f e buf count (fuel + 1)).exec (Store.perform i) g = some (some [], g') := by
  unfold readAll
  rw [exec_bind_of_eq hread]
  rfl

theorem readAll_more {a : ℕ} (ha : 0 < a) {bytes : List ℕ} (hread : (readInodeBytes sb f e buf
    count).exec (Store.perform i) g = some (some ((a : ℤ), bytes), g')) :
    (readAll sb f e buf count (fuel + 1)).exec (Store.perform i) g =
      ((readAll sb f e buf count fuel).exec (Store.perform i) g').map fun r =>
        (r.1.map (bytes ++ ·), r.2) := by
  rw [readAll, exec_bind_of_eq hread]
  dsimp only
  rw [if_neg (by omega), if_neg (by omega), exec_bind]
  simp only [exec_pure, Option.map_eq_bind, Function.comp_def]

/-- What a run of reads that gets to its end does first. -/
theorem readAll_some {l : List ℕ} (h : g.Opened f e)
    (hrun : (readAll sb f e buf count (fuel + 1)).exec (Store.perform i) g = some (some l, g')) :
    ∃ n bytes g₁, (readi sb e true buf (g.offset f) (toUint count)).exec (Store.perform i)
      (g.lock i e) = some ((n, bytes), g₁) ∧ 0 ≤ n ∧ (n ≠ 0 → ∃ rest, l = bytes ++ rest) ∧
      (n = 0 → l = []) := by
  rw [readAll] at hrun
  obtain ⟨r, g₂, hbytes, hrun⟩ := exec_bind_eq_some.mp hrun
  cases hread : (readi sb e true buf (g.offset f) (toUint count)).exec (Store.perform i)
      (g.lock i e) with
  | none =>
    have hfile : (g.lock i e).perform i (.file f) = some (g.kernel.file f, g.lock i e) := rfl
    unfold readInodeBytes at hbytes
    rw [exec_bind_of_eq (exec_ilock_valid h.ready h.valid),
      exec_bind_of_eq (exec_call.trans hfile), if_neg (by rw [h.readable]; decide), exec_bind,
      show (g.kernel.file f).off = g.offset f from rfl, hread] at hbytes
    cases hbytes
  | some x =>
    obtain ⟨⟨n, bytes⟩, g₁⟩ := x
    rw [exec_readInodeBytes h hread] at hbytes
    cases hbytes
    dsimp only at hrun
    have hneg : ¬ n < 0 := by
      intro hneg
      rw [if_pos hneg] at hrun
      cases hrun
    rw [if_neg hneg] at hrun
    refine ⟨n, bytes, g₁, rfl, not_lt.mp hneg, fun hn => ?_, fun hn => ?_⟩
    · rw [if_neg hn] at hrun
      obtain ⟨rest, g₃, -, hrun⟩ := exec_bind_eq_some.mp hrun
      cases rest with
      | none => cases hrun
      | some rest =>
        cases hrun
        exact ⟨rest, rfl⟩
    · rw [if_pos hn] at hrun
      cases hrun
      rfl

/-! ### Whole files -/

/-- The reads give what is left of the file and then 0. -/
def ReadsThrough (sb : Superblock) (i : ℕ) (g : Store) (f e buf : ℕ) (count : ℤ) : Prop :=
  ∃ fuel g', (readAll sb f e buf count fuel).exec (Store.perform i) g =
    some (some (g.bytes e (g.offset f) (g.size e - g.offset f)), g')

/-- Reads of `n` bytes each find all blocks of the file and none behind its end. -/
structure Store.Whole (g : Store) (e off n : ℕ) : Prop where
  fits : g.size e + n ≤ MAXFILE * BSIZE
  filled : g.Filled e off (g.size e - off)
  beyond : g.addr e (g.size e / BSIZE) = 0

theorem Store.closed_lock : (g.lock i e).Closed e off n ↔ g.Closed e off n :=
  ⟨fun h => ⟨h.fits, h.filled, h.beyond⟩, fun h => ⟨h.fits, h.filled, h.beyond⟩⟩

theorem Store.Whole.closed (h : g.Whole e off n) (hoff : off ≤ g.size e) : g.Closed e off n where
  fits := by
    have := h.fits
    omega
  filled x hx hlt := h.filled x hx (by
    have := Nat.min_le_right n (g.size e - off)
    unfold Store.upTo at hlt
    omega)
  beyond := .inr h.beyond

theorem Store.Whole.readAll (h : g.Whole e (g.offset f) (toUint count)) (ho : g.Opened f e)
    (hout : g.Delivers true) (hoff : g.offset f ≤ g.size e) (hcount : 0 < toUint count)
    (hfuel : g.size e - g.offset f < fuel) :
    ∃ g', (readAll sb f e buf count fuel).exec (Store.perform i) g =
      some (some (g.bytes e (g.offset f) (g.size e - g.offset f)), g') := by
  induction fuel generalizing g with
  | zero => exact absurd hfuel (Nat.not_lt_zero _)
  | succ fuel ih =>
    have hclosed : (g.lock i e).Closed e (g.offset f) (toUint count) :=
      Store.closed_lock.mpr (h.closed hoff)
    obtain ⟨k, hread⟩ : StopsAtEnd sb i (g.lock i e) e true buf (g.offset f) (toUint count) :=
      hclosed.stops ho.held hout hoff
    by_cases hend : g.offset f = g.size e
    · have hupto : (g.lock i e).upTo e (g.offset f) (toUint count) = 0 := by
        have hsize : (g.lock i e).size e = g.offset f := hend.symm
        simp [Store.upTo, hsize]
      rw [hupto] at hread
      have hstop := readAll_stop fuel (exec_readInodeBytes ho hread)
      rw [hend, Nat.sub_self]
      exact ⟨_, hstop⟩
    · obtain ⟨a, ha⟩ : ∃ a, a = g.upTo e (g.offset f) (toUint count) := ⟨_, rfl⟩
      have hrest : a ≤ g.size e - g.offset f := ha ▸ Nat.min_le_right ..
      have hpos : 0 < a := by
        rw [ha]
        exact lt_min hcount (by omega)
      have hsmall : g.offset f + a < 2 ^ 32 := by
        have hfits : g.size e + toUint count ≤ 274432 := h.fits
        omega
      have hread' : (readi sb e true buf (g.offset f) (toUint count)).exec (Store.perform i)
          (g.lock i e) = some (((a : ℤ), g.bytes e (g.offset f) a), (g.lock i e).skip k) := by
        rw [hread, ha]
        rfl
      have hmore := exec_readInodeBytes_more ho hpos hsmall hread'
      obtain ⟨g₂, hg₂⟩ : ∃ g₂, g₂ = (g.setOff f (g.offset f + a)).skip (k + 1) := ⟨_, rfl⟩
      have hoff₂ : g₂.offset f = g.offset f + a := hg₂ ▸ Store.offset_setOff ..
      have hsize₂ : g₂.size e = g.size e := hg₂ ▸ rfl
      have hbytes₂ (x n : ℕ) : g₂.bytes e x n = g.bytes e x n := hg₂ ▸ rfl
      have haddr₂ (j : ℕ) : g₂.addr e j = g.addr e j := hg₂ ▸ rfl
      have hwhole₂ : g₂.Whole e (g₂.offset f) (toUint count) := by
        rw [hoff₂]
        constructor
        case fits => exact hsize₂.symm ▸ h.fits
        case filled =>
          intro x hx hlt
          rw [haddr₂]
          rw [hsize₂] at hlt
          exact h.filled x (by omega) (by omega)
        case beyond =>
          rw [hsize₂, haddr₂]
          exact h.beyond
      obtain ⟨g', hrun⟩ := ih hwhole₂ (hg₂ ▸ ho.next ..)
        (hg₂ ▸ (show (g.setOff f (g.offset f + a)).Delivers true from hout).skip _)
        (by rw [hoff₂, hsize₂]; omega) (by rw [hoff₂, hsize₂]; omega)
      refine ⟨g', ?_⟩
      have hsum : a + (g.size e - (g.offset f + a)) = g.size e - g.offset f := by omega
      rw [readAll_more hpos hmore, ← hg₂, hrun, hoff₂, hsize₂, hbytes₂, Option.map_some,
        Option.map_some, ← Store.bytes_add, hsum]

/-- Where the next block is missing the reads end. -/
theorem readAll_hole {l : List ℕ} (ho : g.Opened f e)
    (hoff : g.offset f ≤ g.size e) (hcount : 0 < toUint count)
    (hsum : g.offset f + toUint count < 2 ^ 32) (haddr : g.addr e (g.offset f / BSIZE) = 0)
    (hrun : (readAll sb f e buf count (fuel + 1)).exec (Store.perform i) g = some (some l, g')) :
    l = [] := by
  have hpos : 0 < BSIZE := by decide
  obtain ⟨n, bytes, g₁, hread, hn, -, hzero⟩ := readAll_some ho hrun
  by_cases hfits : g.offset f + toUint count ≤ MAXFILE * BSIZE
  · have hj : g.offset f / BSIZE < MAXFILE := (Nat.div_lt_iff_lt_mul hpos).mpr (by omega)
    have hj' : g.offset f / BSIZE ≤ (g.lock i e).size e / BSIZE + 1 :=
      Nat.le_succ_of_le (Nat.div_le_div_right hoff)
    have hloop : (readiLoop sb e true (toUint count) buf (g.offset f) (toUint count)).exec
        (Store.perform i) (g.lock i e) = some ([], g.lock i e) :=
      exec_readiLoop_hole ho.held hj hj' haddr
    rw [exec_readi_fits (g := g.lock i e) hoff hfits, hloop] at hread
    cases hread
    exact hzero rfl
  · rw [exec_readi_outOfRange hsum hfits] at hread
    cases hread
    omega

/-- A run of reads goes on behind a read that has given some bytes. -/
theorem readAll_rest {a k : ℕ} {bytes l : List ℕ} (ho : g.Opened f e) (ha : 0 < a)
    (hsmall : g.offset f + a < 2 ^ 32)
    (hread : (readi sb e true buf (g.offset f) (toUint count)).exec (Store.perform i)
      (g.lock i e) = some (((a : ℤ), bytes), (g.lock i e).skip k))
    (hrun : (readAll sb f e buf count (fuel + 1)).exec (Store.perform i) g = some (some l, g')) :
    ∃ rest, l = bytes ++ rest ∧ (readAll sb f e buf count fuel).exec (Store.perform i)
      ((g.setOff f (g.offset f + a)).skip (k + 1)) = some (some rest, g') := by
  rw [readAll_more ha (exec_readInodeBytes_more ho ha hsmall hread)] at hrun
  obtain ⟨⟨r, g₂⟩, hr, hpair⟩ := Option.map_eq_some_iff.mp hrun
  obtain ⟨hl, rfl⟩ := Prod.mk.inj hpair
  obtain ⟨rest, hrest, rfl⟩ := Option.map_eq_some_iff.mp hl
  cases hrest
  exact ⟨rest, rfl, hr⟩

theorem whole_of_readAll {l : List ℕ} (ho : g.Opened f e) (hout : g.Delivers true)
    (hoff : g.offset f ≤ g.size e) (hcount : 0 < toUint count)
    (hsum : g.size e + toUint count < 2 ^ 32) (hlen : l.length = g.size e - g.offset f)
    (hrun : (readAll sb f e buf count fuel).exec (Store.perform i) g = some (some l, g')) :
    g.Whole e (g.offset f) (toUint count) := by
  induction fuel generalizing g l with
  | zero => cases hrun
  | succ fuel ih =>
    obtain ⟨n, bytes, g₁, hread, hn, hmore, hzero⟩ := readAll_some ho hrun
    have hfits : g.offset f + toUint count ≤ MAXFILE * BSIZE := by
      by_contra hmax
      rw [exec_readi_outOfRange (by omega) hmax] at hread
      cases hread
      omega
    by_cases hclosed : g.Closed e (g.offset f) (toUint count)
    · obtain ⟨k, hstop⟩ : StopsAtEnd sb i (g.lock i e) e true buf (g.offset f) (toUint count) :=
        (Store.closed_lock.mpr hclosed).stops ho.held hout hoff
      obtain ⟨a, ha⟩ : ∃ a, a = (g.lock i e).upTo e (g.offset f) (toUint count) := ⟨_, rfl⟩
      have hrest : a ≤ g.size e - g.offset f := ha ▸ Nat.min_le_right ..
      rw [← ha] at hstop
      by_cases h0 : a = 0
      · have hn0 : n = 0 := by
          rw [hstop] at hread
          cases hread
          exact congrArg Nat.cast h0
        rw [hzero hn0, List.length_nil] at hlen
        have hmin : min (toUint count) (g.size e - g.offset f) = a := ha.symm
        have hend : g.offset f = g.size e := by omega
        refine ⟨hend ▸ hfits, fun x hx hlt => ?_, hclosed.beyond.resolve_left (by omega)⟩
        omega
      · obtain ⟨rest, rfl, hrun'⟩ :=
          readAll_rest ho (Nat.pos_of_ne_zero h0) (by omega) hstop hrun
        rw [List.length_append, Store.length_bytes] at hlen
        have hih := ih (ho.next ..)
          ((show (g.setOff f (g.offset f + a)).Delivers true from hout).skip _)
          (by rw [Store.offset_setOff]; exact (show g.offset f + a ≤ g.size e by omega)) hsum
          (by rw [Store.offset_setOff]; exact (show rest.length = g.size e - (g.offset f + a) by omega))
          hrun'
        rw [Store.offset_setOff] at hih
        refine ⟨hih.fits, fun x hx hlt => ?_, hih.beyond⟩
        by_cases hxa : x < g.offset f + a
        · exact hclosed.filled x hx (ha ▸ hxa)
        · refine hih.filled x (not_lt.mp hxa) ?_
          change x < g.offset f + a + (g.size e - (g.offset f + a))
          omega
    · rcases readi_not_closed (i := i) (g := g.lock i e) sb buf ho.held hout hoff
        hfits (mt Store.closed_lock.mp hclosed) with ⟨a, k, ha, haddr, hstop⟩ | hbeyond
      · have hupto : (g.lock i e).upTo e (g.offset f) (toUint count) ≤ g.size e - g.offset f :=
          Nat.min_le_right ..
        by_cases h0 : a = 0
        · have hn0 : n = 0 := by
            rw [hstop] at hread
            cases hread
            exact congrArg Nat.cast h0
          rw [hzero hn0, List.length_nil] at hlen
          omega
        · obtain ⟨rest, rfl, hrun'⟩ :=
            readAll_rest ho (Nat.pos_of_ne_zero h0) (by omega) hstop hrun
          have hnil : rest = [] := by
            cases fuel with
            | zero => cases hrun'
            | succ fuel =>
              refine readAll_hole (ho.next ..) ?_ hcount ?_ ?_ hrun'
              · rw [Store.offset_setOff]
                exact (show g.offset f + a ≤ g.size e by omega)
              · rw [Store.offset_setOff]
                omega
              · rw [Store.offset_setOff]
                exact haddr
          rw [hnil, List.append_nil, Store.length_bytes] at hlen
          omega
      · obtain ⟨hn', hlong⟩ := hbeyond _ _ hread
        have hlong' : g.size e - g.offset f < bytes.length := hlong
        have hn' : n = bytes.length := hn'
        obtain ⟨rest, rfl⟩ := hmore (by omega)
        rw [List.length_append] at hlen
        omega

/-- Reads of one file in a row give it once and then 0 exactly where its blocks stop with it. -/
theorem readAll_iff (ho : g.Opened f e) (hout : g.Delivers true) (hoff : g.offset f ≤ g.size e)
    (hcount : 0 < toUint count) (hsum : g.size e + toUint count < 2 ^ 32) :
    ReadsThrough sb i g f e buf count ↔ g.Whole e (g.offset f) (toUint count) := by
  constructor
  · rintro ⟨fuel, g', hrun⟩
    exact whole_of_readAll ho hout hoff hcount hsum (Store.length_bytes ..) hrun
  · intro h
    obtain ⟨g', hrun⟩ := h.readAll (i := i) ho hout hoff hcount
      (Nat.lt_succ_self _)
    exact ⟨_, g', hrun⟩

/-- Single reads stop at the end of the file, and reads in a row deliver it once, exactly where
the blocks of the file stop with it. -/
theorem reads_stop_iff (sb : Superblock) (i e : ℕ) (g : Store) (user : Bool) (hheld : g.held = [])
    (hout : g.Delivers user) :
    (∀ dst off n, off ≤ g.size e → off + n < 2 ^ 32 →
      (StopsAtEnd sb i g e user dst off n ↔ g.Closed e off n)) ∧
    (user = true → ∀ f buf count, g.Opened f e → g.offset f ≤ g.size e → 0 < toUint count →
      g.size e + toUint count < 2 ^ 32 →
      (ReadsThrough sb i g f e buf count ↔ g.Whole e (g.offset f) (toUint count))) := by
  constructor
  · intro dst off n hoff hn
    exact ⟨fun h => h.closed hheld hout hoff hn, fun h => h.stops hheld hout hoff⟩
  · rintro rfl f buf count ho hoff hcount hsum
    exact readAll_iff ho hout hoff hcount hsum

/-- User memory takes every copy. -/
def writableAnswers : Oracle where
  block _ := 0
  ext
    | .copyout _ _ => true
    | c => (answers [] fun _ => 0).ext c
  pick := 0

/-- A task has opened a file of one block. -/
def oneBlockFile (size : ℕ) : Store where
  block _ _ := fun _ => 7
  disk _ := fun _ => 7
  held := []
  kernel := { bootKernel with
    inode := fun _ => ⟨Fs.ROOTDEV, 2, 1, true,
      ⟨T_FILE, 0, 0, 1, size, fun j => if j = 0 then 100 else 0⟩⟩
    file := fun _ => ⟨.FD_INODE, 1, true, false, 0, some 0, 0⟩ }
  oracle _ := writableAnswers

theorem oneBlockFile_delivers (size : ℕ) : (oneBlockFile size).Delivers true :=
  fun _ _ _ _ => rfl

theorem oneBlockFile_filled {size : ℕ} (h : off + n ≤ BSIZE) : (oneBlockFile size).Filled 0 off n := by
  intro x _ hlt
  have hx : x / BSIZE = 0 := Nat.div_eq_of_lt (by omega)
  rw [hx]
  exact (by decide : (100 : ℕ) ≠ 0)

/-- A file that fills its block. -/
theorem reads_stop_iff_full_block :
    StopsAtEnd Fs.mkfsSb 0 (oneBlockFile 1024) 0 true 4096 1000 500 ∧
      ReadsThrough Fs.mkfsSb 0 (oneBlockFile 1024) 0 0 4096 16 := by
  obtain ⟨hreads, hall⟩ := reads_stop_iff Fs.mkfsSb 0 0 (oneBlockFile 1024) true rfl
    (oneBlockFile_delivers 1024)
  constructor
  · refine (hreads 4096 1000 500 (by decide) (by decide)).mpr ?_
    exact ⟨by decide, oneBlockFile_filled (by decide), .inr rfl⟩
  · refine (hall rfl 0 4096 16 ⟨⟨by decide, rfl⟩, rfl, rfl, rfl⟩ (by decide) (by decide)
      (by decide)).mpr ?_
    exact ⟨by decide, oneBlockFile_filled (by decide), rfl⟩

/-- A file of 100 bytes gives 200. -/
theorem read_goes_beyond : ¬∀ g e off n, g.held = [] → g.Delivers true → off ≤ g.size e →
    off + n < 2 ^ 32 → StopsAtEnd Fs.mkfsSb 0 g e true 4096 off n := by
  intro hall
  have hout := oneBlockFile_delivers 100
  have hstops := hall (oneBlockFile 100) 0 0 200 rfl hout (by decide) (by decide)
  have hclosed := hstops.closed rfl hout (by decide) (by decide)
  exact absurd hclosed.beyond (by decide)

end Zrhos.Sysfile
