import Zrhos.Platform

/-! The kernel heap of `mem.c`: slab classes for 8 to 2048 bytes, single pages and
runs of pages, all carved out of one page list and a bump pointer. -/
namespace Zrhos.Mem

/-- Marks the first page of a multi-page block and the pages allocated behind it. -/
def BIGBIT : ℕ := 0x80000000

structure Page where
  start : ℕ
  usedORbitposBigORlen : ℕ
  deriving DecidableEq, Repr

/-- The globals of `mem.c`. `word a` is the word at address `a`; list links are
stored in the first word of a free block, so only words at block addresses matter
to the allocator. `pageArray` and `len` are the two fields of `Manager`. -/
structure Heap where
  word : ℕ → ℕ
  heapTop : ℕ
  heapEnd : ℕ
  pageArray : ℕ → Page
  len : ℕ
  sizehead : ℕ → ℕ
  pagehead : ℕ

def memSbrk (s : Heap) (size : ℕ) : Except Stop (ℕ × Heap) :=
  if size + s.heapTop > s.heapEnd then .error .noSpaceInHeap
  else .ok (s.heapTop, { s with heapTop := s.heapTop + size })

def log2Loop (size : ℕ) : ℕ → ℕ → ℕ
  | 0, pos => pos
  | fuel + 1, pos => if size > 2 ^ pos then log2Loop size fuel (pos + 1) else pos

/-- The source shifts an `int`, so positions stop at the sign bit. -/
def log2 (size : ℕ) : ℕ := log2Loop size 31 0

def PAGEPOS : ℕ := log2 PGSIZE

/-- Byte address of the `i`-th block of class `pos` in the page at `bp`. -/
def nbp (bp pos i : ℕ) : ℕ := bp + i * 2 ^ pos

def setNext (s : Heap) (p np : ℕ) : Heap := { s with word := Function.update s.word p np }

def pageIndex (s : Heap) (bp : ℕ) : ℕ := (bp - (s.pageArray 0).start) / PGSIZE

def getinfobybp (s : Heap) (bp : ℕ) : Page := s.pageArray (pageIndex s bp)

def setinfobybp (s : Heap) (bp : ℕ) (info : Page) : Heap :=
  { s with pageArray := Function.update s.pageArray (pageIndex s bp) info }

def istop (s : Heap) (bp : ℕ) : Bool := pageIndex s bp == s.len - 1

def allocpage (s : Heap) (tag : ℕ) : Except Stop (ℕ × Heap) := do
  let (p, s) ← memSbrk s PGSIZE
  return (p, { s with
    pageArray := Function.update s.pageArray s.len ⟨p, tag⟩
    len := s.len + 1 })

def getpage (s : Heap) (tag : ℕ) : Except Stop (ℕ × Heap) :=
  if s.pagehead = 0 then allocpage s tag
  else
    let pret := s.pagehead
    .ok (pret, { setinfobybp s pret ⟨pret, tag⟩ with pagehead := s.word pret })

/-- Thread the blocks of a fresh slab page into a list. -/
def formatPage (word : ℕ → ℕ) (p pos : ℕ) : ℕ → ℕ :=
  let n := PGSIZE / 2 ^ pos
  let linked := (List.range (n - 1)).foldl
    (fun w i => Function.update w (nbp p pos i) (nbp p pos (i + 1))) word
  Function.update linked (nbp p pos (n - 1)) 0

def acquireonepage (s : Heap) (pos : ℕ) : Except Stop (ℕ × Heap) := do
  let (p, s) ← getpage s (1 ||| 2 ^ pos)
  if pos < PAGEPOS then return (p, { s with word := formatPage s.word p pos })
  else return (p, s)

def mmInitLoop (s : Heap) : List ℕ → Except Stop Heap
  | [] => .ok s
  | i :: rest => do
    let (p, s) ← acquireonepage s i
    mmInitLoop { s with sizehead := Function.update s.sizehead i p } rest

/-- Bytes reserved for `PageArray`; `sizeof(Page)` is 16. -/
def pageArrayBytes (top stop : ℕ) : ℕ := pgRoundUp ((stop - top) / PGSIZE) * 16

def mmInit (s : Heap) : Except Stop Heap := do
  let (_, s) ← memSbrk { s with len := 0 } (pageArrayBytes s.heapTop s.heapEnd)
  mmInitLoop { s with pagehead := 0 } (List.range' 3 (PAGEPOS - 3))

/-- `mem_init` on a machine whose memory holds `word` and whose kernel image ends at
`kend`; the static arrays start out zeroed. -/
def memInit (word : ℕ → ℕ) (kend : ℕ) : Except Stop Heap :=
  mmInit {
    word := word
    heapTop := pgRoundUp kend
    heapEnd := MEMSTOP
    pageArray := fun _ => ⟨0, 0⟩
    len := 0
    sizehead := fun _ => 0
    pagehead := 0 }

def smallfind (s : Heap) (pos : ℕ) : Except Stop (ℕ × Heap) := do
  let s ← if s.word (s.sizehead pos) = 0 then do
      let (p, s) ← acquireonepage s pos
      pure (setNext s (s.sizehead pos) p)
    else pure s
  let pret := s.word (s.sizehead pos)
  if pret ≠ 0 then return (pret, setNext s (s.sizehead pos) (s.word pret))
  else throw .smallfindError

/-- Returns the last page; the caller passes the number of pages before it. -/
def adjustpages : ℕ → Heap → ℕ → ℕ × Heap
  | 0, s, pto => (pto, setinfobybp (setNext s pto 0) pto ⟨pto, 0⟩)
  | n + 1, s, pto =>
    adjustpages n (setinfobybp (setNext s pto (pto + PGSIZE)) pto ⟨pto, 0⟩) (pto + PGSIZE)

/-- Local variables of the search loop in `bigfind`. -/
structure Scan where
  count : ℕ
  p : ℕ
  lp : ℕ
  llp : ℕ
  ret : ℕ
  pret : ℕ

def scanStart (s : Heap) : Scan :=
  { count := 1, p := s.word s.pagehead, lp := s.pagehead, llp := 0, ret := s.pagehead, pret := 0 }

def bigfindLoop (word : ℕ → ℕ) (pages : ℕ) : ℕ → Scan → Except Stop Scan
  | 0, _ => .error .spin
  | fuel + 1, c =>
    if c.p = 0 then .ok c
    else if c.lp + PGSIZE = c.p then
      let c := if c.count = 1 then { c with count := c.count + 1, pret := c.llp, ret := c.lp }
        else { c with count := c.count + 1 }
      if pages = c.count then .ok c
      else bigfindLoop word pages fuel { c with llp := c.lp, lp := c.p, p := word c.p }
    else
      bigfindLoop word pages fuel
        { count := 1, ret := c.p, pret := c.lp, llp := c.lp, lp := c.p, p := word c.p }

def allocpages (s : Heap) : ℕ → Except Stop Heap
  | 0 => .ok s
  | n + 1 => do
    let (_, s) ← allocpage s (BIGBIT ||| 1)
    allocpages s n

/-- The body of `bigfind` up to the final `setinfobybp`. -/
def bigfindRange (s : Heap) (pages : ℕ) : Except Stop (ℕ × Heap) :=
  if s.pagehead = 0 then do
    let (ret, s) ← allocpage s (pages ||| BIGBIT)
    let s ← allocpages s (pages - 1)
    return (ret, s)
  else do
    let c ← bigfindLoop s.word pages s.heapTop (scanStart s)
    if c.count = pages then
      if c.ret = s.pagehead then return (c.ret, { s with pagehead := s.word c.p })
      else return (c.ret, setNext s c.pret (s.word c.p))
    else if istop s c.lp then
      let s ← allocpages s (pages - c.count)
      if c.ret = s.pagehead then return (c.ret, { s with pagehead := 0 })
      else return (c.ret, setNext s c.pret 0)
    else
      let (ret, s) ← allocpage s (pages ||| BIGBIT)
      -- the source counts from 0 here: one page more than the request
      let s ← allocpages s pages
      return (ret, if c.pret ≠ 0 then setNext s c.pret 0 else s)

def bigfind (s : Heap) (pages : ℕ) : Except Stop (ℕ × Heap) := do
  let (ret, s) ← bigfindRange s pages
  return (ret, if ret ≠ 0 then setinfobybp s ret ⟨ret, BIGBIT ||| pages⟩ else s)

def mmMalloc (s : Heap) (size : ℕ) : Except Stop (ℕ × Heap) :=
  let pos := if log2 size > 3 then log2 size else 3
  if size > 2 ^ 24 then .ok (0, s)
  else if pos < PAGEPOS then smallfind s pos
  else if pos = PAGEPOS then getpage s (1 ||| 2 ^ PAGEPOS)
  else bigfind s ((size + PGSIZE - 1) / PGSIZE)

/-- `for (; p && bp > p; p = NEXT(p)) lp = p;` -/
def seek (word : ℕ → ℕ) (bp : ℕ) : ℕ → ℕ → ℕ → Except Stop (ℕ × ℕ)
  | 0, _, _ => .error .spin
  | fuel + 1, lp, p =>
    if p ≠ 0 ∧ bp > p then seek word bp fuel p (word p) else .ok (lp, p)

/-- The two `SETNEXT` of a list insertion; a block already on the list stays put. -/
def insertAt (s : Heap) (bp lp p : ℕ) : Heap :=
  if p ≠ 0 ∧ bp < p then setNext (setNext s lp bp) bp p
  else if p = 0 then setNext (setNext s lp bp) bp 0
  else s

def mmFree (s : Heap) (bp : ℕ) : Except Stop Heap := do
  let tag := (getinfobybp s bp).usedORbitposBigORlen
  if tag &&& BIGBIT = 0 then
    if tag &&& 1 = 0 then return s
    else
      let pos := log2 (tag - tag % 2)
      if pos < PAGEPOS then
        let (lp, p) ← seek s.word bp s.heapTop 0 (s.sizehead pos)
        return insertAt s bp lp p
      else
        let s ←
          if s.pagehead = 0 then pure (setNext { s with pagehead := bp } bp 0)
          else if s.pagehead < bp then do
            let (lp, p) ← seek s.word bp s.heapTop 0 s.pagehead
            pure (insertAt s bp lp p)
          else pure { setNext s bp s.pagehead with pagehead := bp }
        return setinfobybp s bp ⟨bp, 0⟩
  else
    let pages := tag % BIGBIT
    let (pend, s) := adjustpages (pages - 1) s bp
    if s.pagehead = 0 then return setNext { s with pagehead := bp } pend 0
    else if s.pagehead < bp then
      let (lp, p) ← seek s.word bp s.heapTop 0 s.pagehead
      return setNext (setNext s lp bp) pend p
    else return { setNext s pend s.pagehead with pagehead := bp }

end Zrhos.Mem
