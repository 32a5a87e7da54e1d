import Zrhos.Lib.Steps
import Zrhos.Driver.Virtio
import Zrhos.Fs.Bio

/-! The disk driver of `virtio_disk.c` with its device. Each step of the driver is a stretch
of code under `vdisk_lock`; the interrupt handler keeps the lock over several steps, so that
the device can act between them. -/
namespace Zrhos.Driver
open Steps

/-- The memory that a descriptor points to: a request header, the data of a buffer or a
status byte. -/
inductive Addr where
  | null
  | op (i : ℕ)
  | data (b : ℕ)
  | status (i : ℕ)
  deriving DecidableEq, Repr

structure VirtqDesc where
  addr : Addr
  len : ℕ
  flags : ℕ
  next : ℕ
  deriving DecidableEq, Repr

def VIRTIO_BLK_T_IN : ℕ := 0

def VIRTIO_BLK_T_OUT : ℕ := 1

structure VirtioBlkReq where
  type : ℕ
  reserved : ℕ
  sector : ℕ
  deriving DecidableEq, Repr

/-- `struct disk`; `infoB` and `infoStatus` are the two fields of `info`, and a buffer is a
number, with 0 for none. -/
structure Disk where
  desc : ℕ → VirtqDesc
  avail : VirtqAvail
  used : VirtqUsed
  free : ℕ → Bool
  usedIdx : BitVec 16
  infoB : ℕ → ℕ
  infoStatus : ℕ → BitVec 8
  ops : ℕ → VirtioBlkReq

namespace Disk

/-- `alloc_desc`: the first free descriptor, or none. -/
def allocDesc (d : Disk) : Disk × Option ℕ :=
  match (List.range NUM).find? d.free with
  | some i => ({ d with free := Function.update d.free i false }, some i)
  | none => (d, none)

/-- `free_desc`, which panics on a descriptor that is no descriptor or already free. -/
def freeDesc (d : Disk) (i : ℕ) : Option Disk :=
  if NUM ≤ i ∨ d.free i = true then none
  else some { d with
    desc := Function.update d.desc i ⟨.null, 0, 0, 0⟩
    free := Function.update d.free i true }

/-- `free_chain`. Every round frees a descriptor, so that more than `NUM` rounds panic. -/
def freeChain : ℕ → Disk → ℕ → Option Disk
  | 0, _, _ => none
  | k + 1, d, i =>
    let flag := (d.desc i).flags
    let nxt := (d.desc i).next
    match d.freeDesc i with
    | none => none
    | some d => if flag &&& VRING_DESC_F_NEXT ≠ 0 then freeChain k d nxt else some d

/-- The loop of `alloc3_desc` that undoes a partial allocation. -/
def freeAll (d : Disk) : List ℕ → Option Disk
  | [] => some d
  | i :: is =>
    match d.freeDesc i with
    | none => none
    | some d => d.freeAll is

/-- The loop of `alloc3_desc` with `k` rounds to go; `idx` are the descriptors so far. -/
def allocLoop : ℕ → Disk → List ℕ → Option (Disk × Option (List ℕ))
  | 0, d, idx => some (d, some idx)
  | k + 1, d, idx =>
    match d.allocDesc with
    | (d, some i) => allocLoop k d (idx ++ [i])
    | (d, none) => (d.freeAll idx).map fun d => (d, none)

def alloc3Desc (d : Disk) : Option (Disk × Option (List ℕ)) := allocLoop 3 d []

end Disk

/-! ### Descriptors -/

namespace Disk

variable {d : Disk} {i : ℕ} {l l' : List ℕ}

/-- The state with the descriptors of `l` marked as not free. -/
def took (d : Disk) (l : List ℕ) : Disk := { d with free := fun i => d.free i && decide (i ∉ l) }

/-- The state with the descriptors of `l` cleared and marked as free. -/
def freed (d : Disk) (l : List ℕ) : Disk :=
  { d with
    desc := fun i => if i ∈ l then ⟨.null, 0, 0, 0⟩ else d.desc i
    free := fun i => d.free i || decide (i ∈ l) }

theorem took_nil : d.took [] = d := by simp [took]

theorem freed_nil : d.freed [] = d := by simp [freed]

theorem took_took : (d.took l).took l' = d.took (l ++ l') := by
  simp only [took, List.mem_append, not_or, Bool.decide_and, Bool.and_assoc]

theorem freed_freed : (d.freed l).freed l' = d.freed (l ++ l') := by
  simp only [freed, List.mem_append, Bool.decide_or, Bool.or_assoc]
  congr 1
  funext i
  by_cases hl' : i ∈ l' <;> by_cases hl : i ∈ l <;> simp [hl, hl']

theorem allocDesc_none (h : (List.range NUM).find? d.free = none) : d.allocDesc = (d, none) := by
  rw [allocDesc, h]

theorem allocDesc_some (h : (List.range NUM).find? d.free = some i) :
    d.allocDesc = (d.took [i], some i) ∧ i < NUM ∧ d.free i = true := by
  refine ⟨?_, List.mem_range.mp (List.mem_of_find?_eq_some h), List.find?_some h⟩
  have hfree : Function.update d.free i false = fun j => d.free j && decide (j ∉ [i]) := by
    funext j
    by_cases hj : j = i <;> simp [hj]
  rw [allocDesc, h, took, ← hfree]

theorem freeDesc_eq (hi : i < NUM) (hfree : d.free i = false) :
    d.freeDesc i = some (d.freed [i]) := by
  rw [freeDesc, if_neg (by simp [hfree]; omega), freed]
  congr 2
  · funext j
    by_cases hj : j = i <;> simp [hj]
  · funext j
    by_cases hj : j = i <;> simp [hj]

theorem freeAll_eq (hnd : l.Nodup) (hl : ∀ i ∈ l, i < NUM ∧ d.free i = false) :
    d.freeAll l = some (d.freed l) := by
  induction l generalizing d with
  | nil => rw [freeAll, freed_nil]
  | cons i l ih =>
    obtain ⟨hnot, hnd⟩ := List.nodup_cons.mp hnd
    obtain ⟨hi, hfree⟩ := hl i List.mem_cons_self
    rw [freeAll, freeDesc_eq hi hfree]
    dsimp only
    rw [ih hnd fun j hj => ?_, freed_freed, List.singleton_append]
    obtain ⟨hlt, hj'⟩ := hl j (List.mem_cons_of_mem i hj)
    have hne : j ≠ i := fun he => hnot (he ▸ hj)
    exact ⟨hlt, by simp [freed, hj', hne]⟩

/-- What the rounds of `alloc3_desc` have taken was free, and is free again when the
allocation fails. -/
theorem allocLoop_spec (k : ℕ) (hnd : l.Nodup) (hl : ∀ i ∈ l, i < NUM ∧ d.free i = true) :
    ∃ l', l'.Nodup ∧ (∀ i ∈ l', i < NUM ∧ d.free i = true) ∧
      ((l'.length = l.length + k ∧ allocLoop k (d.took l) l = some (d.took l', some l')) ∨
        allocLoop k (d.took l) l = some ((d.took l').freed l', none)) := by
  induction k generalizing l with
  | zero => exact ⟨l, hnd, hl, .inl ⟨rfl, rfl⟩⟩
  | succ k ih =>
    cases hfind : (List.range NUM).find? (d.took l).free with
    | none =>
      refine ⟨l, hnd, hl, .inr ?_⟩
      rw [allocLoop, allocDesc_none hfind]
      dsimp only
      rw [freeAll_eq hnd fun i hi => ⟨(hl i hi).1, by simp [took, hi]⟩]
      rfl
    | some i =>
      obtain ⟨halloc, hi, hfree⟩ := allocDesc_some hfind
      obtain ⟨hfree, hnot⟩ : d.free i = true ∧ i ∉ l := by simpa [took] using hfree
      obtain ⟨l', hnd', hl', hres⟩ := @ih (l ++ [i])
        (List.nodup_append.mpr ⟨hnd, List.nodup_singleton i, fun a ha b hb he => by
          rw [List.mem_singleton.mp hb] at he
          exact hnot (he ▸ ha)⟩)
        (fun j hj => by
          rcases List.mem_append.mp hj with hold | hnew
          · exact hl j hold
          · rw [List.mem_singleton.mp hnew]
            exact ⟨hi, hfree⟩)
      refine ⟨l', hnd', hl', ?_⟩
      rw [allocLoop, halloc]
      dsimp only
      rw [took_took]
      rw [List.length_append, List.length_singleton] at hres
      rcases hres with ⟨hlen, hok⟩ | hfail
      · exact .inl ⟨by omega, hok⟩
      · exact .inr hfail

/-- `alloc3_desc` does not panic; it takes three descriptors that were free, or leaves the
free set as it was. -/
theorem alloc3Desc_spec (d : Disk) :
    (∃ i₀ i₁ i₂, [i₀, i₁, i₂].Nodup ∧ (∀ i ∈ [i₀, i₁, i₂], i < NUM ∧ d.free i = true) ∧
      d.alloc3Desc = some (d.took [i₀, i₁, i₂], some [i₀, i₁, i₂])) ∨
    ∃ l, (∀ i ∈ l, d.free i = true) ∧
      d.alloc3Desc = some ({ d with desc := (d.freed l).desc }, none) := by
  obtain ⟨l, hnd, hl, hres⟩ := allocLoop_spec (d := d) (l := []) 3 List.nodup_nil (by simp)
  rw [took_nil] at hres
  rcases hres with ⟨hlen, hok⟩ | hfail
  · left
    obtain ⟨i₀, i₁, i₂, rfl⟩ := List.length_eq_three.mp hlen
    exact ⟨i₀, i₁, i₂, hnd, hl, hok⟩
  · right
    refine ⟨l, fun i hi => (hl i hi).2, ?_⟩
    rw [alloc3Desc, hfail]
    have hfree : ((d.took l).freed l).free = d.free := by
      funext i
      by_cases hi : i ∈ l
      · simp [took, freed, hi, (hl i hi).2]
      · simp [took, freed, hi]
    congr 2
    rw [freed, took] at hfree ⊢
    dsimp only at hfree ⊢
    rw [hfree]
    rfl

/-- `free_chain` on a chain of three. -/
theorem freeChain_eq {i₀ i₁ i₂ : ℕ} (k : ℕ) (hnd : [i₀, i₁, i₂].Nodup)
    (hl : ∀ i ∈ [i₀, i₁, i₂], i < NUM ∧ d.free i = false)
    (h₀ : (d.desc i₀).flags &&& VRING_DESC_F_NEXT ≠ 0) (hn₀ : (d.desc i₀).next = i₁)
    (h₁ : (d.desc i₁).flags &&& VRING_DESC_F_NEXT ≠ 0) (hn₁ : (d.desc i₁).next = i₂)
    (h₂ : (d.desc i₂).flags &&& VRING_DESC_F_NEXT = 0) :
    freeChain (k + 3) d i₀ = some (d.freed [i₀, i₁, i₂]) := by
  obtain ⟨h₀₁, h₀₂, h₁₂⟩ : i₀ ≠ i₁ ∧ i₀ ≠ i₂ ∧ i₁ ≠ i₂ := by simpa [and_assoc] using hnd
  obtain ⟨⟨hi₀, hf₀⟩, ⟨hi₁, hf₁⟩, hi₂, hf₂⟩ : (i₀ < NUM ∧ d.free i₀ = false) ∧
      (i₁ < NUM ∧ d.free i₁ = false) ∧ i₂ < NUM ∧ d.free i₂ = false := by simpa using hl
  have hfree₁ : (d.freed [i₀]).free i₁ = false := by simp [freed, hf₁, h₀₁.symm]
  have hdesc₁ : (d.freed [i₀]).desc i₁ = d.desc i₁ := by simp [freed, h₀₁.symm]
  have hfree₂ : (d.freed ([i₀] ++ [i₁])).free i₂ = false := by
    simp [freed, hf₂, h₀₂.symm, h₁₂.symm]
  have hdesc₂ : (d.freed ([i₀] ++ [i₁])).desc i₂ = d.desc i₂ := by
    simp [freed, h₀₂.symm, h₁₂.symm]
  rw [freeChain, freeDesc_eq hi₀ hf₀]
  dsimp only
  rw [if_pos h₀, hn₀, freeChain, freeDesc_eq hi₁ hfree₁]
  dsimp only
  rw [hdesc₁, if_pos h₁, hn₁, freed_freed, freeChain, freeDesc_eq hi₂ hfree₂]
  dsimp only
  rw [hdesc₂, if_neg (not_not.mpr h₂), freed_freed]
  rfl

end Disk

/-! ### Requests -/

/-- A call of `virtio_disk_rw`. -/
structure Call where
  b : ℕ
  blockno : ℕ
  write : Bool
  deriving DecidableEq, Repr

def Call.sector (call : Call) : ℕ := call.blockno * (Fs.BSIZE / 512)

def Call.type (call : Call) : ℕ := if call.write then VIRTIO_BLK_T_OUT else VIRTIO_BLK_T_IN

/-- The device writes `b->data` on a read of the disk. -/
def Call.dataFlags (call : Call) : ℕ :=
  (if call.write then 0 else VRING_DESC_F_WRITE) ||| VRING_DESC_F_NEXT

/-- `virtio_disk_rw` from the allocation to the entry in the avail ring. -/
def Disk.format (d : Disk) (call : Call) (i₀ i₁ i₂ : ℕ) : Disk :=
  { d with
    ops := Function.update d.ops i₀ ⟨call.type, 0, call.sector⟩
    desc := Function.update (Function.update (Function.update d.desc
      i₀ ⟨.op i₀, 16, VRING_DESC_F_NEXT, i₁⟩)
      i₁ ⟨.data call.b, Fs.BSIZE, call.dataFlags, i₂⟩)
      i₂ ⟨.status i₀, 1, VRING_DESC_F_WRITE, 0⟩
    infoStatus := Function.update d.infoStatus i₀ 0xff
    infoB := Function.update d.infoB i₀ call.b
    avail :=
      ⟨d.avail.idx + 1,
        Function.update d.avail.ring (d.avail.idx.toNat % NUM) (BitVec.ofNat 16 i₀)⟩ }

/-- Where a task stands: outside, asleep for descriptors, or asleep until its request is
done; then with its chain and the number of its entry in the avail ring. -/
inductive Pc where
  | idle
  | starved (call : Call)
  | waiting (call : Call) (i₀ i₁ i₂ k : ℕ)
  deriving DecidableEq, Repr

def Pc.call : Pc → Option Call
  | .idle => none
  | .starved call => some call
  | .waiting call _ _ _ _ => some call

/-- What the device has been asked to do, as it reads it from the descriptors. -/
structure Request where
  type : ℕ
  sector : ℕ
  b : ℕ
  status : ℕ
  deriving DecidableEq, Repr

/-- The request of the chain that starts at `head`. -/
def Disk.request (d : Disk) (head : ℕ) : Option Request :=
  let d₀ := d.desc head
  let d₁ := d.desc d₀.next
  let d₂ := d.desc d₁.next
  match d₀.addr, d₁.addr, d₂.addr with
  | .op i, .data b, .status j => some ⟨(d.ops i).type, (d.ops i).sector, b, j⟩
  | _, _, _ => none

/-- The driver with `b->disk` of each buffer, the tasks, whether the interrupt handler has
the lock, and the device: its place in the avail ring and the entries that it works on, as
the numbers of the entries and their descriptors. The history keeps the entries that are
offered and not taken, and completed and not yet handled, how many there have been of each,
and the entries completed with their requests. -/
structure DiskWorld where
  disk : Disk
  busy : ℕ → Bool
  pc : ℕ → Pc
  intr : Bool
  seen : BitVec 16
  working : List (ℕ × ℕ)
  queue : List (ℕ × ℕ)
  finished : List (ℕ × ℕ)
  taken : ℕ
  handled : ℕ
  served : List (ℕ × Request)

namespace DiskWorld

/-- The number of the next entry of the avail ring. -/
def offered (w : DiskWorld) : ℕ := w.taken + w.queue.length

def published (w : DiskWorld) : ℕ := w.handled + w.finished.length

/-- `virtio_disk_rw` up to its first or next sleep. -/
def submit (w : DiskWorld) (t : ℕ) (call : Call) : Option DiskWorld :=
  match w.disk.alloc3Desc with
  | some (d, some [i₀, i₁, i₂]) =>
    some { w with
      disk := d.format call i₀ i₁ i₂
      busy := Function.update w.busy call.b true
      pc := Function.update w.pc t (.waiting call i₀ i₁ i₂ w.offered)
      queue := w.queue ++ [(w.offered, i₀)] }
  | some (d, none) => some { w with disk := d, pc := Function.update w.pc t (.starved call) }
  | _ => none

/-- The end of `virtio_disk_rw`. -/
def finish (w : DiskWorld) (t i₀ : ℕ) : Option DiskWorld :=
  let d := { w.disk with infoB := Function.update w.disk.infoB i₀ 0 }
  (d.freeChain (NUM + 1) i₀).map fun d => { w with disk := d, pc := Function.update w.pc t .idle }

/-- A round of the loop of `virtio_disk_intr`. -/
def handle (w : DiskWorld) : Option DiskWorld :=
  let id := (w.disk.used.ring (w.disk.usedIdx.toNat % NUM)).toNat
  if w.disk.infoStatus id ≠ 0 then none
  else some { w with
    disk := { w.disk with usedIdx := w.disk.usedIdx + 1 }
    busy := Function.update w.busy (w.disk.infoB id) false
    finished := w.finished.tail
    handled := w.handled + 1 }

/-- The device completes an entry that it works on, with status 0. -/
def complete (w : DiskWorld) (x : ℕ × ℕ) : Option DiskWorld :=
  (w.disk.request x.2).map fun q =>
    { w with
      disk := { w.disk with
        infoStatus := Function.update w.disk.infoStatus q.status 0
        used :=
          ⟨w.disk.used.idx + 1,
            Function.update w.disk.used.ring (w.disk.used.idx.toNat % NUM)
              (BitVec.ofNat 32 x.2)⟩ }
      working := w.working.erase x
      finished := w.finished ++ [x]
      served := w.served ++ [(x.1, q)] }

end DiskWorld

inductive DiskAct where
  | start (t : ℕ) (call : Call)
  | retry (t : ℕ)
  | finish (t : ℕ)
  | enter
  | handle
  | leave
  | take
  | complete (x : ℕ × ℕ)

/-- No call of a task is about the buffer. -/
def DiskWorld.Unused (w : DiskWorld) (b : ℕ) : Prop := ∀ t, ∀ call ∈ (w.pc t).call, call.b ≠ b

/-- The calls are about distinct buffers. -/
def DiskAct.Distinct (w : DiskWorld) : DiskAct → Prop
  | .start _ call => w.Unused call.b
  | _ => True

def DiskWorld.step (w : DiskWorld) : DiskAct → Option DiskWorld
  | .start t call => if w.intr = false ∧ w.pc t = .idle then w.submit t call else none
  | .retry t =>
    match w.pc t with
    | .starved call => if w.intr = false then w.submit t call else none
    | _ => none
  | .finish t =>
    match w.pc t with
    | .waiting call i₀ _ _ _ =>
      if w.intr = false then (if w.busy call.b then some w else w.finish t i₀) else none
    | _ => none
  | .enter => if w.intr = false then some { w with intr := true } else none
  | .handle => if w.intr ∧ w.disk.usedIdx ≠ w.disk.used.idx then w.handle else none
  | .leave =>
    if w.intr ∧ w.disk.usedIdx = w.disk.used.idx then some { w with intr := false } else none
  | .take =>
    if w.seen ≠ w.disk.avail.idx then
      some { w with
        seen := w.seen + 1
        working := w.working ++
          [(w.taken, (w.disk.avail.ring (w.seen.toNat % NUM)).toNat)]
        queue := w.queue.tail
        taken := w.taken + 1 }
    else none
  | .complete x => if x ∈ w.working then w.complete x else none

/-- The queue after `virtio_disk_init`: every descriptor is free. -/
def diskInit (infoB : ℕ → ℕ) (infoStatus : ℕ → BitVec 8) (ops : ℕ → VirtioBlkReq) : Disk where
  desc _ := ⟨.null, 0, 0, 0⟩
  avail := ⟨0, fun _ => 0⟩
  used := ⟨0, fun _ => 0⟩
  free _ := true
  usedIdx := 0
  infoB := infoB
  infoStatus := infoStatus
  ops := ops

def diskWorldInit (d : Disk) : DiskWorld where
  disk := d
  busy _ := false
  pc _ := .idle
  intr := false
  seen := 0
  working := []
  queue := []
  finished := []
  taken := 0
  handled := 0
  served := []

end Zrhos.Driver
