import Zrhos.Sysfile.Calls

/-! Which operations the functions of the inode layer perform. -/
namespace Zrhos.Sysfile
open Turns
open Fs (Block Superblock)

/-- Operations on blocks and on the contents of an inode. -/
def Op.Quiet : Op → Prop
  | panic _ | bread _ _ | bstore _ _ _ | bwrite _ _ | brelse _ _ => True
  | ext (.setA0 _) => False
  | inode _ | setCopy _ _ | setValid _ _ | ext _ => True
  | _ => False

attribute [local simp] Op.Quiet

variable {sb : Superblock} {allowed : Op → Prop}

@[simp] theorem uses_panic {α : Type} {why : Panic} :
    (panic why : FsM α).Uses allowed ↔ allowed (.panic why) :=
  ⟨And.left, fun h => ⟨h, fun r => r.elim⟩⟩

@[simp] theorem safe_panic {α G : Type} {C : Contract Op Op.Resp G} {g : G} {Q : α → G → Prop}
    {why : Panic} : Safe C (panic why : FsM α) g Q ↔ C.pre (.panic why) g :=
  ⟨And.left, fun h => ⟨h, fun r => r.elim⟩⟩

@[simp] theorem uses_when {c : Prop} [Decidable c] {p : FsM Unit} :
    (when c p).Uses allowed ↔ (c → p.Uses allowed) := by
  simp [when]

@[simp] theorem update_quiet {e : ℕ} {f : Dinode → Dinode} : (update e f).Uses Op.Quiet := by
  simp [update]

@[simp] theorem nextBuf_quiet {dev blockno : ℕ} {b : Option (ℕ × Block)} :
    (nextBuf dev blockno b).Uses Op.Quiet := by
  cases b <;> simp [nextBuf]

theorem ballocLoop_quiet {n i : ℕ} {b : Option (ℕ × Block)} :
    (ballocLoop sb n i b).Uses Op.Quiet := by
  induction n generalizing i b with
  | zero => simp [ballocLoop]
  | succ n ih => simp [ballocLoop, ih]

@[simp] theorem balloc_quiet : (balloc sb).Uses Op.Quiet := ballocLoop_quiet

@[simp] theorem iupdate_quiet {e : ℕ} : (iupdate sb e).Uses Op.Quiet := by
  simp [iupdate]

@[simp] theorem bfree_quiet {dev b : ℕ} : (bfree sb dev b).Uses Op.Quiet := by
  simp [bfree]

@[simp] theorem truncDirect_quiet {e n i : ℕ} : (truncDirect sb e n i).Uses Op.Quiet := by
  induction n generalizing i with
  | zero => simp [truncDirect]
  | succ n ih => simp [truncDirect, ih]

@[simp] theorem truncIndirect_quiet {a : Block} {n j : ℕ} :
    (truncIndirect sb a n j).Uses Op.Quiet := by
  induction n generalizing j with
  | zero => simp [truncIndirect]
  | succ n ih => simp [truncIndirect, ih]

@[simp] theorem appendDirect_quiet {e n i : ℕ} : (appendDirect sb e n i).Uses Op.Quiet := by
  induction n generalizing i with
  | zero => simp [appendDirect]
  | succ n ih => simp [appendDirect, ih]

@[simp] theorem appendIndirect_quiet {dev blockno n i : ℕ} {data : Block} :
    (appendIndirect sb dev blockno n i data).Uses Op.Quiet := by
  induction n generalizing i data with
  | zero => simp [appendIndirect]
  | succ n ih => simp [appendIndirect, ih]

@[simp] theorem bmapIndirect_quiet {e start : ℕ} : (bmapIndirect sb e start).Uses Op.Quiet := by
  simp [bmapIndirect]

@[simp] theorem bmap_quiet {e start : ℕ} : (bmap sb e start).Uses Op.Quiet := by
  simp [bmap, bmapAppend]

@[simp] theorem writeiLoop_quiet {e fuel src off left : ℕ} {user : Bool} :
    (writeiLoop sb e user fuel src off left).Uses Op.Quiet := by
  induction fuel generalizing src off left with
  | zero => simp [writeiLoop]
  | succ fuel ih => simp [writeiLoop, ih]

@[simp] theorem writei_quiet {e src off n : ℕ} {user : Bool} :
    (writei sb e user src off n).Uses Op.Quiet := by
  simp [writei]

@[simp] theorem readiLoop_quiet {e fuel dst off left : ℕ} {user : Bool} :
    (readiLoop sb e user fuel dst off left).Uses Op.Quiet := by
  induction fuel generalizing dst off left with
  | zero => simp [readiLoop]
  | succ fuel ih => simp [readiLoop, ih]

@[simp] theorem readi_quiet {e dst off n : ℕ} {user : Bool} :
    (readi sb e user dst off n).Uses Op.Quiet := by
  simp [readi]

@[simp] theorem nextDirBlock_quiet {dp dev i : ℕ} {b : Option DirBuf} :
    (nextDirBlock sb dp dev i b).Uses Op.Quiet := by
  cases b <;> simp [nextDirBlock, readDirBlock]

@[simp] theorem dirlinkLoop_quiet {dp dev n i inum : ℕ} {name : List ℕ} {b : Option DirBuf} :
    (dirlinkLoop sb dp dev name inum n i b).Uses Op.Quiet := by
  induction n generalizing i b with
  | zero => cases b <;> simp [dirlinkLoop]
  | succ n ih => simp [dirlinkLoop, ih]

@[simp] theorem loadsegLoop_quiet {ip va offset sz k i : ℕ} :
    (loadsegLoop sb ip va offset sz k i).Uses Op.Quiet := by
  induction k generalizing i with
  | zero => simp [loadsegLoop]
  | succ k ih => simp [loadsegLoop, ih]

@[simp] theorem loadProgram_quiet {ip n off : ℕ} : (loadProgram sb ip n off).Uses Op.Quiet := by
  induction n generalizing off with
  | zero => simp [loadProgram]
  | succ n ih =>
    unfold loadProgram
    simp only [uses_bind, uses_ite, uses_panic, uses_call, Op.Quiet, readi_quiet, loadseg,
      loadsegLoop_quiet, ih, implies_true, and_self]

@[simp] theorem pushArgs_quiet {argv : List (List ℕ)} {sp : ℕ} {ustack : List ℕ} :
    (pushArgs argv sp ustack).Uses Op.Quiet := by
  induction argv generalizing sp ustack with
  | nil => simp [pushArgs]
  | cons arg argv ih => simp [pushArgs, ih]

@[simp] theorem fetchArgs_quiet {uargv n i : ℕ} {argv : List (List ℕ)} :
    (fetchArgs uargv n i argv).Uses Op.Quiet := by
  induction n generalizing i argv with
  | zero => simp [fetchArgs]
  | succ n ih =>
    unfold fetchArgs
    refine Prog.Uses.bind (by simp) fun uarg => ?_
    cases uarg with
    | none => simp
    | some uarg =>
      simp only [uses_ite, uses_pure, implies_true, true_and]
      intro _
      refine Prog.Uses.bind (by simp) fun page => ?_
      simp only [uses_ite, uses_pure, implies_true, true_and]
      intro _
      refine Prog.Uses.bind (by simp) fun arg => ?_
      cases arg with
      | none => simp
      | some arg => exact ih

@[simp] theorem freeArgs_quiet {n : ℕ} : (freeArgs n).Uses Op.Quiet := by
  induction n with
  | zero => simp [freeArgs]
  | succ n ih => simp [freeArgs, ih]

/-! ### The functions between `begin_op` and `end_op` -/

/-- Operations on inodes: their contents, locks and references, and the caller's directory. -/
def Op.Layer : Op → Prop
  | P (.inode _) | V (.inode _) | iget _ _ | inew _ _ _ | idup _ | iput _ => True
  | itableUnlock | entryExist _ | cwd => True
  | panic _ | bread _ _ | bstore _ _ _ | bwrite _ _ | brelse _ _ => True
  | ext (.setA0 _) => False
  | inode _ | setCopy _ _ | setValid _ _ | ext _ => True
  | _ => False

attribute [local simp] Op.Layer

@[simp] theorem Op.Quiet.layer {o : Op} (h : o.Quiet) : o.Layer := by
  cases o with
  | ext c => cases c <;> exact h
  | panic | bread | bstore | bwrite | brelse | inode | setCopy | setValid => trivial
  | _ => exact h.elim

@[simp] theorem uses_layer {α : Type} {p : FsM α} (h : p.Uses Op.Quiet) : p.Uses Op.Layer :=
  h.mono fun _ => Op.Quiet.layer

@[simp] theorem itrunc_layer {e : ℕ} : (itrunc sb e).Uses Op.Layer := by
  simp [itrunc]

@[simp] theorem ilock_layer {e : ℕ} : (ilock sb e).Uses Op.Layer := by
  simp [ilock]

@[simp] theorem iput_layer {e : ℕ} : (iput sb e).Uses Op.Layer := by
  simp [iput]

@[simp] theorem iunlockput_layer {e : ℕ} : (iunlockput sb e).Uses Op.Layer := by
  simp [iunlockput, iunlock]

theorem dirlookupLoop_layer {dp dev n off : ℕ} {name : List ℕ} :
    (dirlookupLoop sb dp dev name n off).Uses Op.Layer := by
  induction n generalizing off with
  | zero => simp [dirlookupLoop]
  | succ n ih => simp [dirlookupLoop, ih]

@[simp] theorem dirlookup_layer {dp : ℕ} {name : List ℕ} : (dirlookup sb dp name).Uses Op.Layer := by
  simp [dirlookup, dirlookupLoop_layer]

@[simp] theorem namexLoop_layer {parent : Bool} {path : List (List ℕ × List ℕ)} {ip : ℕ} :
    (namexLoop sb parent path ip).Uses Op.Layer := by
  induction path generalizing ip with
  | nil => simp [namexLoop]
  | cons elem path ih =>
    obtain ⟨name, rest⟩ := elem
    unfold namexLoop
    refine Prog.Uses.bind ilock_layer fun _ => Prog.Uses.bind (by simp) fun ino => ?_
    simp only [uses_ite]
    refine ⟨fun _ => by simp, fun _ => ⟨fun _ => by simp [iunlock], fun _ => ?_⟩⟩
    refine Prog.Uses.bind dirlookup_layer fun next => ?_
    cases next with
    | none => simp
    | some next => exact Prog.Uses.bind iunlockput_layer fun _ => ih

@[simp] theorem startDir_layer {path : List ℕ} : (startDir path).Uses Op.Layer := by
  unfold startDir
  simp only [uses_ite]
  refine ⟨fun _ => by simp, fun _ => Prog.Uses.bind (by simp) fun cwd => ?_⟩
  cases cwd <;> simp

@[simp] theorem namex_layer {path : List ℕ} {parent : Bool} :
    (namex sb path parent).Uses Op.Layer := by
  simp [namex]

@[simp] theorem namei_layer {path : List ℕ} : (namei sb path).Uses Op.Layer := by
  simp [namei]

theorem iallocLoop_layer {dev n i : ℕ} {type : ℤ} {b : Option (ℕ × Block)} :
    (iallocLoop sb dev type n i b).Uses Op.Layer := by
  induction n generalizing i b with
  | zero => simp [iallocLoop]
  | succ n ih => simp [iallocLoop, ih]

@[simp] theorem dirlink_layer {dp inum : ℕ} {name : List ℕ} :
    (dirlink sb dp name inum).Uses Op.Layer := by
  unfold dirlink
  refine Prog.Uses.bind (by simp) fun ip => ?_
  simp only [uses_ite]
  refine ⟨fun _ => by simp, fun _ => Prog.Uses.bind dirlookup_layer fun old => ?_⟩
  cases old <;> simp

@[simp] theorem createFail_layer {dp ip : ℕ} : (createFail sb dp ip).Uses Op.Layer := by
  simp [createFail]

@[simp] theorem createNew_layer {dp ip : ℕ} {name : List ℕ} {type major minor : ℤ} :
    (createNew sb dp name ip type major minor).Uses Op.Layer := by
  simp [createNew, createLink, linkDots]

@[simp] theorem create_layer {path : List ℕ} {type major minor : ℤ} :
    (create sb path type major minor).Uses Op.Layer := by
  unfold create
  refine Prog.Uses.bind namex_layer fun r => ?_
  cases r with
  | none => simp
  | some r =>
    refine Prog.Uses.bind ilock_layer fun _ => Prog.Uses.bind dirlookup_layer fun old => ?_
    cases old with
    | some ip => simp [createOld]
    | none =>
      refine Prog.Uses.bind (by simp) fun dino => Prog.Uses.bind iallocLoop_layer fun new => ?_
      cases new <;> simp

@[simp] theorem openInode_layer {path : List ℕ} {omode : ℕ} :
    (openInode sb path omode).Uses Op.Layer := by
  unfold openInode
  simp only [uses_ite]
  refine ⟨fun _ => create_layer, fun _ => Prog.Uses.bind namei_layer fun r => ?_⟩
  cases r <;> simp

/-- Operations that neither touch `fs_lock` nor decide whether a call leaves it as it was, and
that leave `a0` alone. -/
def Op.Inner : Op → Prop
  | P .fs | V .fs | writable _ | commit | ext (.setA0 _) => False
  | _ => True

attribute [local simp] Op.Inner

@[simp] theorem Op.Layer.inner {o : Op} (h : o.Layer) : o.Inner := by
  cases o with
  | ext c => cases c <;> first
    | exact h.elim
    | trivial
  | P s | V s => cases s <;> first
    | exact h.elim
    | trivial
  | _ => first
    | exact h.elim
    | trivial

@[simp] theorem uses_inner {α : Type} {p : FsM α} (h : p.Uses Op.Layer) : p.Uses Op.Inner :=
  h.mono fun _ => Op.Layer.inner

@[simp] theorem quiet_inner {α : Type} {p : FsM α} (h : p.Uses Op.Quiet) : p.Uses Op.Inner :=
  uses_inner (uses_layer h)

theorem dupSlots_inner {nt n fd : ℕ} : (dupSlots nt n fd).Uses Op.Inner := by
  induction n generalizing fd with
  | zero => simp [dupSlots]
  | succ n ih => simp [dupSlots, ih]

theorem closeSlots_inner {t n fd : ℕ} : (closeSlots t n fd).Uses Op.Inner := by
  induction n generalizing fd with
  | zero => simp [closeSlots]
  | succ n ih => simp [closeSlots, ih]

end Zrhos.Sysfile
