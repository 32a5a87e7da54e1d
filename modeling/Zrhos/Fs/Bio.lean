import Zrhos.Platform

/-! The buffer cache of `bio.c` in front of the disk. A buffer is named by its device and
block number; one task uses the cache at a time, so the semaphores are left out. -/
namespace Zrhos.Fs

def NBUF : ℕ := 100
def ROOTDEV : ℕ := 1
def BSIZE : ℕ := 1024

/-- The bytes of a block by offset. -/
abbrev Block := ℕ → ℕ

/-- Lists of buffers and of requests are searched by pairs of numbers. -/
instance pairLawfulBEq : LawfulBEq (ℕ × ℕ) := inferInstance

structure Buf where
  valid : Bool
  dev : ℕ
  blockno : ℕ
  refcnt : ℕ
  data : Block

/-- `bufs` is the list through `next`, most recently used first. -/
structure Bcache where
  bufs : List Buf
  disk : ℕ → Block

def Buf.is (dev blockno : ℕ) (b : Buf) : Bool := b.dev == dev && b.blockno == blockno

/-- The list after an update of the first buffer that satisfies `p`. -/
def updateFirst (p : Buf → Bool) (f : Buf → Buf) : List Buf → List Buf
  | [] => []
  | b :: bs => if p b then f b :: bs else b :: updateFirst p f bs

def binit (disk : ℕ → Block) : Bcache :=
  { bufs := List.replicate NBUF ⟨false, 0, 0, 0, fun _ => 0⟩, disk := disk }

/-- The second search of the source runs through `prev`, from the least recently used
buffer. -/
def bget (s : Bcache) (dev blockno : ℕ) : Except Stop Bcache :=
  if s.bufs.any (Buf.is dev blockno) then
    .ok { s with
      bufs := updateFirst (Buf.is dev blockno) (fun b => { b with refcnt := b.refcnt + 1 }) s.bufs }
  else if s.bufs.any (fun b => b.refcnt == 0) then
    .ok { s with
      bufs := (updateFirst (fun b => b.refcnt == 0)
        (fun b => { b with valid := false, dev := dev, blockno := blockno, refcnt := 1 })
        s.bufs.reverse).reverse }
  else .error .bgetNoBuffers

/-- The contents of a buffer in the cache. -/
def bufData (s : Bcache) (dev blockno : ℕ) : Block :=
  match s.bufs.find? (Buf.is dev blockno) with
  | none => fun _ => 0
  | some b => b.data

/-- Stores through the pointer to a buffer. -/
def setData (s : Bcache) (dev blockno : ℕ) (data : Block) : Bcache :=
  { s with bufs := updateFirst (Buf.is dev blockno) (fun b => { b with data := data }) s.bufs }

def bread (s : Bcache) (dev blockno : ℕ) : Except Stop Bcache := do
  let s ← bget s dev blockno
  return { s with
    bufs := updateFirst (Buf.is dev blockno)
      (fun b => if b.valid then b else { b with valid := true, data := s.disk blockno }) s.bufs }

def bwrite (s : Bcache) (dev blockno : ℕ) : Bcache :=
  { s with disk := Function.update s.disk blockno (bufData s dev blockno) }

/-- A buffer nobody holds any more moves to the front of the list. -/
def brelse (s : Bcache) (dev blockno : ℕ) : Bcache :=
  match s.bufs.find? (Buf.is dev blockno) with
  | none => s
  | some b =>
    let b' := { b with refcnt := b.refcnt - 1 }
    if b'.refcnt = 0 then { s with bufs := b' :: s.bufs.eraseP (Buf.is dev blockno) }
    else { s with bufs := updateFirst (Buf.is dev blockno) (fun _ => b') s.bufs }

end Zrhos.Fs
