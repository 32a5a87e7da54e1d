import Zrhos.Driver.VirtioDisk

/-! The invariant of the disk queue, over any interleaving of requests, interrupts and steps
of the device. -/
namespace Zrhos.Driver
open Steps Ring

/-- The request that the device is to read from the chain of a call. -/
def Call.request (call : Call) (i₀ : ℕ) : Request := ⟨call.type, call.sector, call.b, i₀⟩

/-- The three descriptors of a call as `virtio_disk_rw` links them. -/
structure Chain (d : Disk) (call : Call) (i₀ i₁ i₂ : ℕ) : Prop where
  nodup : [i₀, i₁, i₂].Nodup
  taken : ∀ i ∈ [i₀, i₁, i₂], i < NUM ∧ d.free i = false
  header : d.desc i₀ = ⟨.op i₀, 16, VRING_DESC_F_NEXT, i₁⟩
  data : d.desc i₁ = ⟨.data call.b, Fs.BSIZE, call.dataFlags, i₂⟩
  status : d.desc i₂ = ⟨.status i₀, 1, VRING_DESC_F_WRITE, 0⟩
  op : d.ops i₀ = ⟨call.type, 0, call.sector⟩
  infoB : d.infoB i₀ = call.b

namespace Chain

variable {d d' : Disk} {call : Call} {i₀ i₁ i₂ : ℕ}

/-- The chain stays as long as its own memory does. -/
theorem congr (h : Chain d call i₀ i₁ i₂)
    (hsame : ∀ i ∈ [i₀, i₁, i₂], d'.free i = d.free i ∧ d'.desc i = d.desc i ∧
      d'.ops i = d.ops i ∧ d'.infoB i = d.infoB i) : Chain d' call i₀ i₁ i₂ := by
  obtain ⟨h₀, h₁, h₂⟩ : (d'.free i₀ = d.free i₀ ∧ d'.desc i₀ = d.desc i₀ ∧
      d'.ops i₀ = d.ops i₀ ∧ d'.infoB i₀ = d.infoB i₀) ∧
      (d'.free i₁ = d.free i₁ ∧ d'.desc i₁ = d.desc i₁ ∧
        d'.ops i₁ = d.ops i₁ ∧ d'.infoB i₁ = d.infoB i₁) ∧
      (d'.free i₂ = d.free i₂ ∧ d'.desc i₂ = d.desc i₂ ∧
        d'.ops i₂ = d.ops i₂ ∧ d'.infoB i₂ = d.infoB i₂) := by
    refine ⟨hsame i₀ ?_, hsame i₁ ?_, hsame i₂ ?_⟩ <;> simp
  constructor
  case nodup => exact h.nodup
  case taken =>
    intro i hi
    rw [(hsame i hi).1]
    exact h.taken i hi
  case header => exact h₀.2.1.trans h.header
  case data => exact h₁.2.1.trans h.data
  case status => exact h₂.2.1.trans h.status
  case op => exact h₀.2.2.1.trans h.op
  case infoB => exact h₀.2.2.2.trans h.infoB

theorem request (h : Chain d call i₀ i₁ i₂) : d.request i₀ = some (call.request i₀) := by
  simp only [Disk.request, h.header, h.data, h.status, h.op]
  rfl

theorem freeChain (h : Chain d call i₀ i₁ i₂) :
    Disk.freeChain (NUM + 1) { d with infoB := Function.update d.infoB i₀ 0 } i₀ =
      some (Disk.freed { d with infoB := Function.update d.infoB i₀ 0 } [i₀, i₁, i₂]) := by
  have h₀ : (d.desc i₀).flags &&& VRING_DESC_F_NEXT ≠ 0 := by
    rw [h.header]
    change VRING_DESC_F_NEXT &&& VRING_DESC_F_NEXT ≠ 0
    decide
  have h₁ : (d.desc i₁).flags &&& VRING_DESC_F_NEXT ≠ 0 := by
    rw [h.data, Call.dataFlags]
    dsimp only
    split_ifs <;> decide
  have h₂ : (d.desc i₂).flags &&& VRING_DESC_F_NEXT = 0 := by
    rw [h.status]
    change VRING_DESC_F_WRITE &&& VRING_DESC_F_NEXT = 0
    decide
  have hn₀ : (d.desc i₀).next = i₁ := by rw [h.header]
  have hn₁ : (d.desc i₁).next = i₂ := by rw [h.data]
  exact Disk.freeChain_eq (d := { d with infoB := Function.update d.infoB i₀ 0 }) (NUM - 2)
    h.nodup h.taken h₀ hn₀ h₁ hn₁ h₂

end Chain

theorem Chain.format {d : Disk} {call : Call} {i₀ i₁ i₂ : ℕ} (hnd : [i₀, i₁, i₂].Nodup)
    (hl : ∀ i ∈ [i₀, i₁, i₂], i < NUM) :
    Chain ((d.took [i₀, i₁, i₂]).format call i₀ i₁ i₂) call i₀ i₁ i₂ := by
  obtain ⟨h₀₁, h₀₂, h₁₂⟩ : i₀ ≠ i₁ ∧ i₀ ≠ i₂ ∧ i₁ ≠ i₂ := by simpa [and_assoc] using hnd
  constructor
  case nodup => exact hnd
  case taken =>
    intro i hi
    refine ⟨hl i hi, ?_⟩
    simp only [Disk.format, Disk.took, hi, not_true_eq_false, decide_false, Bool.and_false]
  case header => simp [Disk.format, Function.update_of_ne, h₀₁, h₀₂]
  case data => simp [Disk.format, Function.update_of_ne, h₁₂]
  case status => simp [Disk.format]
  case op => simp [Disk.format]
  case infoB => simp [Disk.format]

/-- The memory of the other chains. -/
theorem format_other {d : Disk} {call : Call} {i i₀ i₁ i₂ : ℕ} (hi : i ∉ [i₀, i₁, i₂]) :
    ((d.took [i₀, i₁, i₂]).format call i₀ i₁ i₂).free i = d.free i ∧
      ((d.took [i₀, i₁, i₂]).format call i₀ i₁ i₂).desc i = d.desc i ∧
      ((d.took [i₀, i₁, i₂]).format call i₀ i₁ i₂).ops i = d.ops i ∧
      ((d.took [i₀, i₁, i₂]).format call i₀ i₁ i₂).infoB i = d.infoB i ∧
      ((d.took [i₀, i₁, i₂]).format call i₀ i₁ i₂).infoStatus i = d.infoStatus i := by
  obtain ⟨h₀, h₁, h₂⟩ : i ≠ i₀ ∧ i ≠ i₁ ∧ i ≠ i₂ := by simpa using hi
  simp [Disk.format, Disk.took, Function.update_of_ne, h₀, h₁, h₂]

namespace DiskWorld

/-- The entries that are offered and not yet handled. -/
def inflight (w : DiskWorld) : List (ℕ × ℕ) := w.queue ++ w.working ++ w.finished

structure Protocol (w : DiskWorld) : Prop where
  avail_idx : w.disk.avail.idx = BitVec.ofNat 16 w.offered
  seen : w.seen = BitVec.ofNat 16 w.taken
  ring : window NUM (fun i => (w.disk.avail.ring i).toNat) w.taken w.queue.length =
    w.queue.map Prod.snd
  number : w.queue.map Prod.fst = List.range' w.taken w.queue.length
  used_idx : w.disk.used.idx = BitVec.ofNat 16 w.published
  own_idx : w.disk.usedIdx = BitVec.ofNat 16 w.handled
  used_ring : window NUM (fun i => (w.disk.used.ring i).toNat) w.handled w.finished.length =
    w.finished.map Prod.snd
  nodup : (w.inflight.map Prod.snd).Nodup
  inflight : ∀ k h, (k, h) ∈ w.inflight ↔
    ∃ t call i₁ i₂, w.pc t = .waiting call h i₁ i₂ k ∧ w.busy call.b = true
  chains : ∀ t call i₀ i₁ i₂ k, w.pc t = .waiting call i₀ i₁ i₂ k → Chain w.disk call i₀ i₁ i₂
  disjoint : ∀ t t' call call' i₀ i₁ i₂ j₀ j₁ j₂ k k', t ≠ t' →
    w.pc t = .waiting call i₀ i₁ i₂ k → w.pc t' = .waiting call' j₀ j₁ j₂ k' →
      ∀ i ∈ [i₀, i₁, i₂], i ∉ [j₀, j₁, j₂]
  owned : ∀ i < NUM, w.disk.free i = false →
    ∃ t call i₀ i₁ i₂ k, w.pc t = .waiting call i₀ i₁ i₂ k ∧ i ∈ [i₀, i₁, i₂]
  status : ∀ k h, (k, h) ∈ w.finished → w.disk.infoStatus h = 0
  served : ∀ t call i₀ i₁ i₂ k, w.pc t = .waiting call i₀ i₁ i₂ k →
    (k, i₀) ∈ w.finished ∨ w.busy call.b = false → (k, call.request i₀) ∈ w.served
  buffers : ∀ t t' call call', (w.pc t).call = some call → (w.pc t').call = some call' →
    call.b = call'.b → t = t'

variable {w w' : DiskWorld}

theorem Protocol.init (infoB : ℕ → ℕ) (infoStatus : ℕ → BitVec 8) (ops : ℕ → VirtioBlkReq) :
    (diskWorldInit (diskInit infoB infoStatus ops)).Protocol where
  avail_idx := rfl
  seen := rfl
  ring := rfl
  number := rfl
  used_idx := rfl
  own_idx := rfl
  used_ring := rfl
  nodup := List.nodup_nil
  inflight k h := by simp [DiskWorld.inflight, diskWorldInit]
  chains t call i₀ i₁ i₂ k hpc := by cases hpc
  disjoint t t' call call' i₀ i₁ i₂ j₀ j₁ j₂ k k' _ hpc := by cases hpc
  owned i _ hfree := by cases hfree
  status k h hmem := by cases hmem
  served t call i₀ i₁ i₂ k hpc := by cases hpc
  buffers t t' call call' hc := by cases hc

/-- The heads in flight are descriptors that are not free. -/
theorem Protocol.head_taken (h : w.Protocol) {i : ℕ} (hi : i ∈ w.inflight.map Prod.snd) :
    i < NUM ∧ w.disk.free i = false := by
  obtain ⟨⟨k, i'⟩, hmem, rfl⟩ := List.mem_map.mp hi
  obtain ⟨t, call, i₁, i₂, hpc, -⟩ := (h.inflight k i').mp hmem
  exact (h.chains _ _ _ _ _ _ hpc).taken i' List.mem_cons_self

theorem length_le_of_nodup {l : List ℕ} (hnd : l.Nodup) (hl : ∀ i ∈ l, i < NUM) :
    l.length ≤ NUM := by
  have hle := (hnd.subperm fun i hi => List.mem_range.mpr (hl i hi)).length_le
  rwa [List.length_range] at hle

theorem Protocol.lengths (h : w.Protocol) :
    w.queue.length + w.working.length + w.finished.length ≤ NUM := by
  have hle := length_le_of_nodup h.nodup fun i hi => (h.head_taken hi).1
  rwa [List.length_map, DiskWorld.inflight, List.length_append, List.length_append] at hle

/-! ### The device -/

/-- A step that moves entries along without a change to the tasks or the buffers. -/
theorem inflight_perm (w' : DiskWorld) (h : w.Protocol) (hperm : w'.inflight.Perm w.inflight)
    (hpc : w'.pc = w.pc) (hbusy : w'.busy = w.busy) :
    (w'.inflight.map Prod.snd).Nodup ∧ ∀ k i, (k, i) ∈ w'.inflight ↔
      ∃ t call i₁ i₂, w'.pc t = .waiting call i i₁ i₂ k ∧ w'.busy call.b = true := by
  refine ⟨(hperm.map Prod.snd).nodup_iff.mpr h.nodup, fun k i => ?_⟩
  rw [hperm.mem_iff, hpc, hbusy]
  exact h.inflight k i

theorem Protocol.take (h : w.Protocol) (hs : w.step .take = some w') : w'.Protocol := by
  have hsize : NUM = 64 := rfl
  have hlen := h.lengths
  simp only [step] at hs
  split_ifs at hs with hne
  cases hqueue : w.queue with
  | nil =>
    rw [h.seen, h.avail_idx, offered, hqueue, List.length_nil, add_zero] at hne
    exact absurd rfl hne
  | cons x rest =>
    obtain ⟨k, i⟩ := x
    have hring := h.ring
    have hnumber := h.number
    rw [hqueue, List.length_cons, window_cons, List.map_cons, List.cons.injEq] at hring
    rw [hqueue, List.length_cons, List.range'_succ, List.map_cons, List.cons.injEq] at hnumber
    obtain ⟨hhead, hrest⟩ := hring
    obtain ⟨hk, hnumber⟩ := hnumber
    dsimp only at hhead hk
    rw [h.seen, slot_ofNat NUM_dvd, hhead, ← hk, hqueue, List.tail_cons] at hs
    cases hs
    have hperm : (rest ++ (w.working ++ [(k, i)]) ++ w.finished).Perm w.inflight := by
      rw [DiskWorld.inflight, hqueue, ← List.append_assoc]
      apply List.Perm.append_right
      exact List.perm_append_singleton _ _
    obtain ⟨hnodup, hinflight⟩ := inflight_perm { w with
        seen := BitVec.ofNat 16 k + 1
        working := w.working ++ [(k, i)]
        queue := rest
        taken := k + 1 } h hperm rfl rfl
    rw [← hk] at hrest hnumber
    constructor
    case avail_idx =>
      rw [h.avail_idx, offered, offered, hqueue, List.length_cons, ← hk]
      congr 1
      dsimp only
      omega
    case seen => exact (BitVec.ofNat_add k 1).symm
    case ring => exact hrest
    case number => exact hnumber
    case used_idx => exact h.used_idx
    case own_idx => exact h.own_idx
    case used_ring => exact h.used_ring
    case nodup => exact hnodup
    case inflight => exact hinflight
    case chains => exact h.chains
    case disjoint => exact h.disjoint
    case owned => exact h.owned
    case status => exact h.status
    case served => exact h.served
    case buffers => exact h.buffers

theorem Protocol.complete (h : w.Protocol) {x : ℕ × ℕ}
    (hs : w.step (.complete x) = some w') : w'.Protocol := by
  have hsize : NUM = 64 := rfl
  have hlen := h.lengths
  simp only [step] at hs
  split_ifs at hs with hmem
  obtain ⟨k, i⟩ := x
  have hin : (k, i) ∈ w.inflight := by
    rw [DiskWorld.inflight]
    simp [hmem]
  obtain ⟨t, call, i₁, i₂, hpc, hbusy⟩ := (h.inflight k i).mp hin
  have hchain := h.chains _ _ _ _ _ _ hpc
  have hi : i < NUM := (hchain.taken i List.mem_cons_self).1
  have hslot : w.disk.used.idx.toNat % NUM = (w.handled + w.finished.length) % NUM := by
    rw [h.used_idx, slot_ofNat NUM_dvd, published]
  have hworking : 0 < w.working.length := List.length_pos_of_mem hmem
  simp only [DiskWorld.complete, hchain.request, hslot, Option.map_some] at hs
  cases hs
  have hperm : (w.queue ++ w.working.erase (k, i) ++ (w.finished ++ [(k, i)])).Perm
      w.inflight := by
    have hmove : (w.working.erase (k, i) ++ (w.finished ++ [(k, i)])).Perm
        (w.working ++ w.finished) := by
      rw [← List.append_assoc]
      apply (List.perm_append_singleton _ _).trans
      rw [← List.cons_append]
      exact (List.perm_cons_erase hmem).symm.append_right _
    rw [DiskWorld.inflight, List.append_assoc, List.append_assoc]
    exact hmove.append_left _
  have hroom : w.finished.length < NUM := by omega
  have hword : i < 2 ^ 32 := by omega
  obtain ⟨hnodup, hinflight⟩ := inflight_perm { w with
      working := w.working.erase (k, i)
      finished := w.finished ++ [(k, i)] } h hperm rfl rfl
  constructor
  case avail_idx => exact h.avail_idx
  case seen => exact h.seen
  case ring => exact h.ring
  case number => exact h.number
  case used_idx =>
    dsimp only
    rw [h.used_idx, published, published, List.length_append]
    exact (BitVec.ofNat_add _ 1).symm
  case own_idx => exact h.own_idx
  case used_ring =>
    rw [List.length_append, List.map_append, ← h.used_ring]
    exact window_push_ofNat hroom hword
  case nodup => exact hnodup
  case inflight => exact hinflight
  case chains =>
    intro t' call' j₀ j₁ j₂ k' hpc'
    apply (h.chains _ _ _ _ _ _ hpc').congr
    intro j _
    exact ⟨rfl, rfl, rfl, rfl⟩
  case disjoint => exact h.disjoint
  case owned => exact h.owned
  case status =>
    intro k' j hmem'
    change Function.update w.disk.infoStatus i 0 j = 0
    rw [Function.update_apply]
    split_ifs with hj
    · rfl
    · rcases List.mem_append.mp hmem' with hold | hnew
      · exact h.status k' j hold
      · cases List.mem_singleton.mp hnew
        exact absurd rfl hj
  case served =>
    intro t' call' j₀ j₁ j₂ k' hpc' hdone
    rw [List.mem_append]
    by_cases hold : (k', j₀) ∈ w.finished ∨ w.busy call'.b = false
    · exact .inl (h.served _ _ _ _ _ _ hpc' hold)
    · have hnew : (k', j₀) = (k, i) := by
        rcases hdone with hfin | hclear
        · rcases List.mem_append.mp hfin with hfin | hfin
          · exact absurd (.inl hfin) hold
          · exact List.mem_singleton.mp hfin
        · exact absurd (.inr hclear) hold
      cases hnew
      have ht : t' = t := by
        by_contra hne
        have hout := h.disjoint _ _ _ _ _ _ _ _ _ _ _ _ hne hpc' hpc _ List.mem_cons_self
        exact hout List.mem_cons_self
      subst ht
      cases hpc.symm.trans hpc'
      exact .inr List.mem_cons_self
  case buffers => exact h.buffers

/-! ### The interrupt -/

/-- The first entry of the used ring names the chain of a call that waits. -/
theorem Protocol.next_done (h : w.Protocol) (hne : w.disk.usedIdx ≠ w.disk.used.idx) :
    ∃ k i rest t call i₁ i₂, w.finished = (k, i) :: rest ∧
      (w.disk.used.ring (w.disk.usedIdx.toNat % NUM)).toNat = i ∧
      w.pc t = .waiting call i i₁ i₂ k ∧ w.busy call.b = true := by
  cases hfin : w.finished with
  | nil =>
    rw [h.own_idx, h.used_idx, published, hfin] at hne
    exact absurd rfl hne
  | cons x rest =>
    obtain ⟨k, i⟩ := x
    have hring := h.used_ring
    rw [hfin, List.length_cons, window_cons, List.map_cons, List.cons.injEq] at hring
    have hin : (k, i) ∈ w.inflight := by
      rw [DiskWorld.inflight, hfin]
      simp
    obtain ⟨t, call, i₁, i₂, hpc, hbusy⟩ := (h.inflight k i).mp hin
    refine ⟨k, i, rest, t, call, i₁, i₂, rfl, ?_, hpc, hbusy⟩
    rw [h.own_idx, slot_ofNat NUM_dvd]
    exact hring.1

/-- A round of the interrupt handler does not panic and clears the buffer of the chain that
the used ring names. -/
theorem Protocol.handle_eq (h : w.Protocol) (hne : w.disk.usedIdx ≠ w.disk.used.idx) :
    ∃ k i t call i₁ i₂, (w.disk.used.ring (w.disk.usedIdx.toNat % NUM)).toNat = i ∧
      w.pc t = .waiting call i i₁ i₂ k ∧ w.busy call.b = true ∧ (k, i) ∈ w.finished ∧
      w.handle = some { w with
        disk := { w.disk with usedIdx := w.disk.usedIdx + 1 }
        busy := Function.update w.busy call.b false
        finished := w.finished.tail
        handled := w.handled + 1 } := by
  obtain ⟨k, i, rest, t, call, i₁, i₂, hfin, hid, hpc, hbusy⟩ := h.next_done hne
  have hmem : (k, i) ∈ w.finished := by
    rw [hfin]
    exact List.mem_cons_self
  refine ⟨k, i, t, call, i₁, i₂, hid, hpc, hbusy, hmem, ?_⟩
  simp only [DiskWorld.handle, hid, h.status k i hmem, (h.chains _ _ _ _ _ _ hpc).infoB, ne_eq,
    not_true_eq_false, ↓reduceIte]

theorem Protocol.handle (h : w.Protocol) (hs : w.step .handle = some w') : w'.Protocol := by
  have hsize : NUM = 64 := rfl
  simp only [step] at hs
  split_ifs at hs with hcond
  obtain ⟨k, i, rest, t, call, i₁, i₂, hfin, hid, hpc, hbusy⟩ := h.next_done hcond.2
  have hmem : (k, i) ∈ w.finished := by
    rw [hfin]
    exact List.mem_cons_self
  have hinfoB := (h.chains _ _ _ _ _ _ hpc).infoB
  simp only [DiskWorld.handle, hid, h.status k i hmem, hinfoB, ne_eq, not_true_eq_false,
    ↓reduceIte, hfin, List.tail_cons, Option.some.injEq] at hs
  subst hs
  have hring := h.used_ring
  rw [hfin, List.length_cons, window_cons, List.map_cons, List.cons.injEq] at hring
  have hperm : w.inflight.Perm ((k, i) :: (w.queue ++ w.working ++ rest)) := by
    rw [DiskWorld.inflight, hfin]
    exact List.perm_middle
  have hnodup := (hperm.map Prod.snd).nodup_iff.mp h.nodup
  rw [List.map_cons, List.nodup_cons] at hnodup
  have hother : ∀ t' call', (w.pc t').call = some call' → t' ≠ t →
      Function.update w.busy call.b false call'.b = w.busy call'.b := by
    intro t' call' hc hne
    apply Function.update_of_ne
    intro hb
    exact hne (h.buffers _ _ _ _ hc (by rw [hpc]; rfl) hb)
  constructor
  case avail_idx => exact h.avail_idx
  case seen => exact h.seen
  case ring => exact h.ring
  case number => exact h.number
  case used_idx =>
    dsimp only
    rw [h.used_idx, published, published, hfin, List.length_cons]
    congr 1
    dsimp only
    omega
  case own_idx =>
    dsimp only
    rw [h.own_idx]
    exact (BitVec.ofNat_add _ 1).symm
  case used_ring => exact hring.2
  case nodup => exact hnodup.2
  case inflight =>
    intro k' j
    have hold := h.inflight k' j
    rw [hperm.mem_iff, List.mem_cons] at hold
    constructor
    · intro hin
      obtain ⟨t', call', j₁, j₂, hpc', hbusy'⟩ := hold.mp (.inr hin)
      have hne : t' ≠ t := by
        intro ht
        subst ht
        cases hpc.symm.trans hpc'
        exact hnodup.1 (List.mem_map_of_mem hin)
      refine ⟨t', call', j₁, j₂, hpc', ?_⟩
      rw [← hbusy']
      exact hother t' call' (by rw [hpc']; rfl) hne
    · rintro ⟨t', call', j₁, j₂, hpc', hbusy'⟩
      have hne : t' ≠ t := by
        intro ht
        subst ht
        cases hpc.symm.trans hpc'
        have hclear : Function.update w.busy call.b false call.b = true := hbusy'
        rw [Function.update_self] at hclear
        cases hclear
      have hkeep := hother t' call' (by rw [hpc']; rfl) hne
      rcases hold.mpr ⟨t', call', j₁, j₂, hpc', hkeep.symm.trans hbusy'⟩ with heq | hin
      · cases heq
        exact absurd List.mem_cons_self
          (h.disjoint _ _ _ _ _ _ _ _ _ _ _ _ hne hpc' hpc _ List.mem_cons_self)
      · exact hin
  case chains =>
    intro t' call' j₀ j₁ j₂ k' hpc'
    apply (h.chains _ _ _ _ _ _ hpc').congr
    intro j _
    exact ⟨rfl, rfl, rfl, rfl⟩
  case disjoint => exact h.disjoint
  case owned => exact h.owned
  case status =>
    intro k' j hin
    apply h.status k' j
    rw [hfin]
    exact List.mem_cons_of_mem _ hin
  case served =>
    intro t' call' j₀ j₁ j₂ k' hpc' hdone
    by_cases ht : t' = t
    · subst ht
      cases hpc.symm.trans hpc'
      exact h.served _ _ _ _ _ _ hpc (.inl hmem)
    · apply h.served _ _ _ _ _ _ hpc'
      rcases hdone with hin | hclear
      · left
        rw [hfin]
        exact List.mem_cons_of_mem _ hin
      · right
        rw [← hclear]
        exact (hother t' call' (by rw [hpc']; rfl) ht).symm
  case buffers => exact h.buffers

/-! ### The driver -/

/-- Only the handler's lock changes. -/
theorem Protocol.lock (h : w.Protocol) (b : Bool) : ({ w with intr := b }).Protocol := by
  constructor
  case avail_idx => exact h.avail_idx
  case seen => exact h.seen
  case ring => exact h.ring
  case number => exact h.number
  case used_idx => exact h.used_idx
  case own_idx => exact h.own_idx
  case used_ring => exact h.used_ring
  case nodup => exact h.nodup
  case inflight => exact h.inflight
  case chains => exact h.chains
  case disjoint => exact h.disjoint
  case owned => exact h.owned
  case status => exact h.status
  case served => exact h.served
  case buffers => exact h.buffers

/-- The end of a call does not panic. -/
theorem Protocol.finish_eq (h : w.Protocol) {t : ℕ} {call : Call} {i₀ i₁ i₂ k : ℕ}
    (hpc : w.pc t = .waiting call i₀ i₁ i₂ k) :
    w.finish t i₀ = some { w with
      disk := Disk.freed { w.disk with infoB := Function.update w.disk.infoB i₀ 0 } [i₀, i₁, i₂]
      pc := Function.update w.pc t .idle } := by
  simp only [DiskWorld.finish, (h.chains _ _ _ _ _ _ hpc).freeChain, Option.map_some]

theorem Protocol.finish (h : w.Protocol) {t : ℕ} {call : Call} {i₀ i₁ i₂ k : ℕ}
    (hpc : w.pc t = .waiting call i₀ i₁ i₂ k) (hbusy : w.busy call.b = false)
    (hs : w.finish t i₀ = some w') : w'.Protocol := by
  rw [h.finish_eq hpc] at hs
  cases hs
  have hwait : ∀ t' call' j₀ j₁ j₂ k',
      Function.update w.pc t .idle t' = .waiting call' j₀ j₁ j₂ k' →
        t' ≠ t ∧ w.pc t' = .waiting call' j₀ j₁ j₂ k' := by
    intro t' call' j₀ j₁ j₂ k' hpc'
    rw [Function.update_apply] at hpc'
    split_ifs at hpc' with ht
    exact ⟨ht, hpc'⟩
  have hcall : ∀ t' call', (Function.update w.pc t .idle t').call = some call' →
      (w.pc t').call = some call' := by
    intro t' call' hc
    rw [Function.update_apply] at hc
    split_ifs at hc with ht
    · cases hc
    · exact hc
  constructor
  case avail_idx => exact h.avail_idx
  case seen => exact h.seen
  case ring => exact h.ring
  case number => exact h.number
  case used_idx => exact h.used_idx
  case own_idx => exact h.own_idx
  case used_ring => exact h.used_ring
  case nodup => exact h.nodup
  case inflight =>
    intro k' j
    apply (h.inflight k' j).trans
    constructor
    · rintro ⟨t', call', j₁, j₂, hpc', hbusy'⟩
      have hne : t' ≠ t := by
        intro ht
        subst ht
        cases hpc.symm.trans hpc'
        rw [hbusy] at hbusy'
        cases hbusy'
      exact ⟨t', call', j₁, j₂, (Function.update_of_ne hne _ _).trans hpc', hbusy'⟩
    · rintro ⟨t', call', j₁, j₂, hpc', hbusy'⟩
      exact ⟨t', call', j₁, j₂, (hwait _ _ _ _ _ _ hpc').2, hbusy'⟩
  case chains =>
    intro t' call' j₀ j₁ j₂ k' hpc'
    obtain ⟨hne, hpc'⟩ := hwait _ _ _ _ _ _ hpc'
    apply (h.chains _ _ _ _ _ _ hpc').congr
    intro j hj
    have hout := h.disjoint _ _ _ _ _ _ _ _ _ _ _ _ hne hpc' hpc j hj
    have hhead : j ≠ i₀ := fun he => hout (he ▸ List.mem_cons_self)
    simp only [Disk.freed, hout, decide_false, Bool.or_false, ↓reduceIte,
      Function.update_of_ne hhead, and_self]
  case disjoint =>
    intro t₁ t₂ call₁ call₂ i₀' i₁' i₂' j₀ j₁ j₂ k₁ k₂ hne h₁ h₂
    exact h.disjoint _ _ _ _ _ _ _ _ _ _ _ _ hne (hwait _ _ _ _ _ _ h₁).2
      (hwait _ _ _ _ _ _ h₂).2
  case owned =>
    intro i hi hfree
    simp only [Disk.freed, Bool.or_eq_false_iff, decide_eq_false_iff_not] at hfree
    obtain ⟨t', call', j₀, j₁, j₂, k', hpc', hmem⟩ := h.owned i hi hfree.1
    have hne : t' ≠ t := by
      intro ht
      subst ht
      cases hpc.symm.trans hpc'
      exact hfree.2 hmem
    exact ⟨t', call', j₀, j₁, j₂, k', (Function.update_of_ne hne _ _).trans hpc', hmem⟩
  case status => exact h.status
  case served =>
    intro t' call' j₀ j₁ j₂ k' hpc' hdone
    exact h.served _ _ _ _ _ _ (hwait _ _ _ _ _ _ hpc').2 hdone
  case buffers =>
    intro t₁ t₂ call₁ call₂ h₁ h₂
    exact h.buffers _ _ _ _ (hcall _ _ h₁) (hcall _ _ h₂)

/-- A task that does not wait for a request takes up a call. -/
theorem Protocol.submit (h : w.Protocol) {t : ℕ} {call : Call}
    (hidle : ∀ call' i₀ i₁ i₂ k, w.pc t ≠ .waiting call' i₀ i₁ i₂ k)
    (hother : ∀ t' call', t' ≠ t → (w.pc t').call = some call' → call'.b ≠ call.b)
    (hs : w.submit t call = some w') : w'.Protocol := by
  have hcall : ∀ p, Pc.call p = some call → ∀ t₁ t₂ call₁ call₂,
      (Function.update w.pc t p t₁).call = some call₁ →
        (Function.update w.pc t p t₂).call = some call₂ → call₁.b = call₂.b → t₁ = t₂ := by
    intro p hp t₁ t₂ call₁ call₂ h₁ h₂ hb
    rw [Function.update_apply] at h₁ h₂
    split_ifs at h₁ h₂ with ht₁ ht₂ ht₂
    · rw [ht₁, ht₂]
    · cases hp.symm.trans h₁
      exact absurd hb.symm (hother _ _ ht₂ h₂)
    · cases hp.symm.trans h₂
      exact absurd hb (hother _ _ ht₁ h₁)
    · exact h.buffers _ _ _ _ h₁ h₂ hb
  rcases w.disk.alloc3Desc_spec with ⟨i₀, i₁, i₂, hnd, hl, halloc⟩ | ⟨l, hl, halloc⟩
  · have hfree : ∀ i ∈ w.inflight.map Prod.snd, i ∉ [i₀, i₁, i₂] := by
      intro i hi hin
      have htaken := (h.head_taken hi).2
      rw [(hl i hin).2] at htaken
      cases htaken
    have hi₀ : i₀ ∈ [i₀, i₁, i₂] := List.mem_cons_self
    have hnodup : (i₀ :: w.inflight.map Prod.snd).Nodup :=
      List.nodup_cons.mpr ⟨fun hin => hfree i₀ hin hi₀, h.nodup⟩
    have hlen : w.inflight.length < NUM := by
      have hle := length_le_of_nodup hnodup fun i hi => by
        rcases List.mem_cons.mp hi with rfl | hin
        · exact (hl i hi₀).1
        · exact (h.head_taken hin).1
      rwa [List.length_cons, List.length_map] at hle
    have hqueue : w.queue.length < NUM := by
      rw [DiskWorld.inflight, List.length_append, List.length_append] at hlen
      omega
    have hword : i₀ < 2 ^ 16 := lt_trans (hl i₀ hi₀).1 (by decide)
    simp only [DiskWorld.submit, halloc] at hs
    cases hs
    have hslot : w.disk.avail.idx.toNat % NUM = (w.taken + w.queue.length) % NUM := by
      rw [h.avail_idx, slot_ofNat NUM_dvd, offered]
    have hwait : ∀ t' call' j₀ j₁ j₂ k',
        Function.update w.pc t (.waiting call i₀ i₁ i₂ w.offered) t' =
          .waiting call' j₀ j₁ j₂ k' →
        (t' = t ∧ call' = call ∧ j₀ = i₀ ∧ j₁ = i₁ ∧ j₂ = i₂ ∧ k' = w.offered) ∨
          (t' ≠ t ∧ w.pc t' = .waiting call' j₀ j₁ j₂ k' ∧ call'.b ≠ call.b ∧
            ∀ j ∈ [j₀, j₁, j₂], j ∉ [i₀, i₁, i₂]) := by
      intro t' call' j₀ j₁ j₂ k' hpc'
      rw [Function.update_apply] at hpc'
      split_ifs at hpc' with ht
      · cases hpc'
        exact .inl ⟨ht, rfl, rfl, rfl, rfl, rfl⟩
      · refine .inr ⟨ht, hpc', hother t' call' ht (by rw [hpc']; rfl), fun j hj hin => ?_⟩
        have htaken := ((h.chains _ _ _ _ _ _ hpc').taken j hj).2
        rw [(hl j hin).2] at htaken
        cases htaken
    have hperm : (w.queue ++ [(w.offered, i₀)] ++ w.working ++ w.finished).Perm
        ((w.offered, i₀) :: w.inflight) := by
      rw [DiskWorld.inflight, List.append_assoc, List.append_assoc, List.append_assoc]
      exact List.perm_middle
    constructor
    case avail_idx =>
      change w.disk.avail.idx + 1 = _
      rw [h.avail_idx, offered, offered, List.length_append]
      exact (BitVec.ofNat_add _ 1).symm
    case seen => exact h.seen
    case ring =>
      rw [List.length_append, List.map_append, ← h.ring]
      change window NUM (fun j => (Function.update w.disk.avail.ring
        (w.disk.avail.idx.toNat % NUM) (BitVec.ofNat 16 i₀) j).toNat) _ _ = _
      rw [hslot]
      exact window_push_ofNat hqueue hword
    case number =>
      rw [List.length_append, List.map_append, h.number, List.length_singleton,
        List.range'_concat, offered, one_mul]
      rfl
    case used_idx => exact h.used_idx
    case own_idx => exact h.own_idx
    case used_ring => exact h.used_ring
    case nodup => exact (hperm.map Prod.snd).nodup_iff.mpr hnodup
    case inflight =>
      intro k' j
      rw [DiskWorld.inflight, hperm.mem_iff, List.mem_cons, h.inflight]
      constructor
      · rintro (heq | ⟨t', call', j₁, j₂, hpc', hbusy'⟩)
        · cases heq
          exact ⟨t, call, i₁, i₂, Function.update_self _ _ _, Function.update_self _ _ _⟩
        · have hne : t' ≠ t := fun ht => hidle _ _ _ _ _ (ht ▸ hpc')
          have hb := hother t' call' hne (by rw [hpc']; rfl)
          exact ⟨t', call', j₁, j₂, (Function.update_of_ne hne _ _).trans hpc',
            (Function.update_of_ne hb _ _).trans hbusy'⟩
      · rintro ⟨t', call', j₁, j₂, hpc', hbusy'⟩
        rcases hwait _ _ _ _ _ _ hpc' with ⟨-, -, rfl, -, -, rfl⟩ | ⟨-, hold, hb, -⟩
        · exact .inl rfl
        · exact .inr ⟨t', call', j₁, j₂, hold, (Function.update_of_ne hb _ _).symm.trans hbusy'⟩
    case chains =>
      intro t' call' j₀ j₁ j₂ k' hpc'
      rcases hwait _ _ _ _ _ _ hpc' with ⟨-, rfl, rfl, rfl, rfl, -⟩ | ⟨-, hold, -, hout⟩
      · exact Chain.format hnd fun i hi => (hl i hi).1
      · apply (h.chains _ _ _ _ _ _ hold).congr
        intro j hj
        obtain ⟨hf, hd, ho, hi, -⟩ := format_other (d := w.disk) (hout j hj)
        exact ⟨hf, hd, ho, hi⟩
    case disjoint =>
      intro t₁ t₂ call₁ call₂ j₀ j₁ j₂ l₀ l₁ l₂ k₁ k₂ hne h₁ h₂ j hj hin
      rcases hwait _ _ _ _ _ _ h₁ with ⟨rfl, rfl, rfl, rfl, rfl, -⟩ | ⟨-, hold₁, -, hout₁⟩ <;>
        rcases hwait _ _ _ _ _ _ h₂ with ⟨rfl, rfl, rfl, rfl, rfl, -⟩ | ⟨-, hold₂, -, hout₂⟩
      · exact hne rfl
      · exact hout₂ j hin hj
      · exact hout₁ j hj hin
      · exact h.disjoint _ _ _ _ _ _ _ _ _ _ _ _ hne hold₁ hold₂ j hj hin
    case owned =>
      intro i hi hfree'
      by_cases hin : i ∈ [i₀, i₁, i₂]
      · exact ⟨t, call, i₀, i₁, i₂, w.offered, Function.update_self _ _ _, hin⟩
      · rw [(format_other (d := w.disk) hin).1] at hfree'
        obtain ⟨t', call', j₀, j₁, j₂, k', hpc', hmem⟩ := h.owned i hi hfree'
        have hne : t' ≠ t := fun ht => hidle _ _ _ _ _ (ht ▸ hpc')
        exact ⟨t', call', j₀, j₁, j₂, k', (Function.update_of_ne hne _ _).trans hpc', hmem⟩
    case status =>
      intro k' j hin
      have hout := hfree j (List.mem_map_of_mem (f := Prod.snd)
        (List.mem_append_right (w.queue ++ w.working) hin))
      rw [(format_other (d := w.disk) hout).2.2.2.2]
      exact h.status k' j hin
    case served =>
      intro t' call' j₀ j₁ j₂ k' hpc' hdone
      rcases hwait _ _ _ _ _ _ hpc' with ⟨-, rfl, rfl, rfl, rfl, -⟩ | ⟨-, hold, hb, -⟩
      · rcases hdone with hin | hclear
        · exact absurd hi₀ (hfree j₀ (List.mem_map_of_mem (f := Prod.snd)
            (List.mem_append_right (w.queue ++ w.working) hin)))
        · have hset : Function.update w.busy call'.b true call'.b = false := hclear
          rw [Function.update_self] at hset
          cases hset
      · apply h.served _ _ _ _ _ _ hold
        rcases hdone with hin | hclear
        · exact .inl hin
        · exact .inr ((Function.update_of_ne hb _ _).symm.trans hclear)
    case buffers => exact hcall _ rfl
  · simp only [DiskWorld.submit, halloc] at hs
    cases hs
    have hwait : ∀ t' call' j₀ j₁ j₂ k',
        Function.update w.pc t (.starved call) t' = .waiting call' j₀ j₁ j₂ k' ↔
          w.pc t' = .waiting call' j₀ j₁ j₂ k' := by
      intro t' call' j₀ j₁ j₂ k'
      rw [Function.update_apply]
      split_ifs with ht
      · rw [ht]
        exact ⟨fun hpc' => (by cases hpc'), fun hpc' => absurd hpc' (hidle _ _ _ _ _)⟩
      · rfl
    have hout : ∀ t' call' j₀ j₁ j₂ k', w.pc t' = .waiting call' j₀ j₁ j₂ k' →
        ∀ j ∈ [j₀, j₁, j₂], j ∉ l := by
      intro t' call' j₀ j₁ j₂ k' hpc' j hj hin
      have htaken := ((h.chains _ _ _ _ _ _ hpc').taken j hj).2
      rw [hl j hin] at htaken
      cases htaken
    constructor
    case avail_idx => exact h.avail_idx
    case seen => exact h.seen
    case ring => exact h.ring
    case number => exact h.number
    case used_idx => exact h.used_idx
    case own_idx => exact h.own_idx
    case used_ring => exact h.used_ring
    case nodup => exact h.nodup
    case inflight =>
      intro k' j
      simp only [hwait]
      exact h.inflight k' j
    case chains =>
      intro t' call' j₀ j₁ j₂ k' hpc'
      have hold := (hwait _ _ _ _ _ _).mp hpc'
      apply (h.chains _ _ _ _ _ _ hold).congr
      intro j hj
      refine ⟨rfl, ?_, rfl, rfl⟩
      exact if_neg (hout _ _ _ _ _ _ hold j hj)
    case disjoint =>
      intro t₁ t₂ call₁ call₂ j₀ j₁ j₂ l₀ l₁ l₂ k₁ k₂ hne h₁ h₂
      exact h.disjoint _ _ _ _ _ _ _ _ _ _ _ _ hne ((hwait _ _ _ _ _ _).mp h₁)
        ((hwait _ _ _ _ _ _).mp h₂)
    case owned =>
      intro i hi hfree
      simp only [hwait]
      exact h.owned i hi hfree
    case status => exact h.status
    case served =>
      intro t' call' j₀ j₁ j₂ k' hpc' hdone
      exact h.served _ _ _ _ _ _ ((hwait _ _ _ _ _ _).mp hpc') hdone
    case buffers => exact hcall _ rfl

theorem Protocol.step {a : DiskAct} (h : w.Protocol) (hd : a.Distinct w)
    (hs : w.step a = some w') : w'.Protocol := by
  cases a with
  | start t call =>
    simp only [DiskWorld.step] at hs
    split_ifs at hs with hcond
    apply h.submit _ _ hs
    · intro call' i₀ i₁ i₂ k hpc
      rw [hcond.2] at hpc
      cases hpc
    · intro t' call' _ hc
      exact hd t' call' hc
  | retry t =>
    simp only [DiskWorld.step] at hs
    split at hs
    case h_1 call hpc =>
      split_ifs at hs
      apply h.submit _ _ hs
      · intro call' i₀ i₁ i₂ k hpc'
        rw [hpc] at hpc'
        cases hpc'
      · intro t' call' hne hc hb
        exact hne (h.buffers _ _ _ _ hc (by rw [hpc]; rfl) hb)
    case h_2 => cases hs
  | finish t =>
    simp only [DiskWorld.step] at hs
    split at hs
    case h_1 call i₀ i₁ i₂ k hpc =>
      split_ifs at hs with hintr hbusy
      · cases hs
        exact h
      · exact h.finish hpc (by simpa using hbusy) hs
    case h_2 => cases hs
  | enter =>
    simp only [DiskWorld.step] at hs
    split_ifs at hs
    cases hs
    exact h.lock true
  | handle => exact h.handle hs
  | leave =>
    simp only [DiskWorld.step] at hs
    split_ifs at hs
    cases hs
    exact h.lock false
  | take => exact h.take hs
  | complete x => exact h.complete hs

/-! ### Runs -/

/-- The descriptor belongs to the chain of a call that waits for its request. -/
def Outstanding (w : DiskWorld) (i : ℕ) : Prop :=
  ∃ t call i₀ i₁ i₂ k, w.pc t = .waiting call i₀ i₁ i₂ k ∧ i ∈ [i₀, i₁, i₂]

/-- An entry that the device has not taken is still in its slot. -/
theorem Protocol.offered_entry (h : w.Protocol) {k : ℕ} (hk : w.taken ≤ k)
    (hlt : k < w.offered) : ∃ t call i₁ i₂,
      w.pc t = .waiting call (w.disk.avail.ring (k % NUM)).toNat i₁ i₂ k := by
  obtain ⟨n, rfl⟩ := Nat.exists_eq_add_of_le hk
  have hn : n < w.queue.length := by
    rw [offered] at hlt
    omega
  have hhead : (window NUM (fun i => (w.disk.avail.ring i).toNat) w.taken w.queue.length)[n]? =
      some (w.disk.avail.ring ((w.taken + n) % NUM)).toNat := window_getElem? hn
  have hnumber : (List.range' w.taken w.queue.length)[n]? = some (w.taken + 1 * n) :=
    List.getElem?_range' hn
  rw [h.ring, List.getElem?_map] at hhead
  rw [← h.number, List.getElem?_map, one_mul] at hnumber
  obtain ⟨⟨k, i⟩, hentry, hi⟩ := Option.map_eq_some_iff.mp hhead
  rw [hentry] at hnumber
  obtain rfl : k = w.taken + n := Option.some.inj hnumber
  obtain rfl : i = (w.disk.avail.ring ((w.taken + n) % NUM)).toNat := hi
  have hin : (w.taken + n, (w.disk.avail.ring ((w.taken + n) % NUM)).toNat) ∈ w.inflight := by
    rw [DiskWorld.inflight, List.append_assoc]
    exact List.mem_append_left _ (List.mem_of_getElem? hentry)
  obtain ⟨t, call, i₁, i₂, hpc, -⟩ := (h.inflight _ _).mp hin
  exact ⟨t, call, i₁, i₂, hpc⟩

/-- A failed allocation gives back what it has taken. -/
theorem alloc3Desc_none {d d' : Disk} (h : d.alloc3Desc = some (d', none)) :
    d'.free = d.free := by
  rcases d.alloc3Desc_spec with ⟨i₀, i₁, i₂, -, -, hok⟩ | ⟨l, -, hfail⟩
  · rw [hok] at h
    cases h
  · rw [hfail] at h
    cases h
    rfl

theorem Protocol.outstanding (h : w.Protocol) {i : ℕ} (hi : i < NUM) :
    w.disk.free i = false ↔ w.Outstanding i := by
  constructor
  · exact h.owned i hi
  · rintro ⟨t, call, i₀, i₁, i₂, k, hpc, hmem⟩
    exact ((h.chains _ _ _ _ _ _ hpc).taken i hmem).2

/-- A call ends only after its own request has been served, and its end does not panic. -/
theorem Protocol.ends (h : w.Protocol) {t : ℕ} {call : Call} {i₀ i₁ i₂ k : ℕ}
    (hpc : w.pc t = .waiting call i₀ i₁ i₂ k) (hintr : w.intr = false) :
    ∃ w', w.step (.finish t) = some w' ∧
      (w'.pc t ≠ w.pc t → (k, call.request i₀) ∈ w.served) := by
  simp only [DiskWorld.step, hpc, hintr, ↓reduceIte]
  split_ifs with hbusy
  · refine ⟨w, rfl, fun hne => ?_⟩
    rw [hpc] at hne
    exact absurd rfl hne
  · rw [h.finish_eq hpc]
    refine ⟨_, rfl, fun _ => h.served _ _ _ _ _ _ hpc (.inr ?_)⟩
    simpa using hbusy

/-- Over any interleaving of calls about distinct buffers, interrupts and the device: the
descriptors that are not free are those of the linked, pairwise disjoint chains of the calls
that wait, the avail ring keeps every entry until the device has taken it, a failed
allocation changes no mark, a call ends only after its request has been served, and each
entry of the used ring clears the buffer of the chain that it names and no other. -/
theorem disk_protocol (infoB : ℕ → ℕ) (infoStatus : ℕ → BitVec 8) (ops : ℕ → VirtioBlkReq)
    {w : DiskWorld} (hr : Reached DiskWorld.step DiskAct.Distinct
      (diskWorldInit (diskInit infoB infoStatus ops)) w) :
    (∀ i < NUM, w.disk.free i = false ↔ w.Outstanding i) ∧
    (∀ t call i₀ i₁ i₂ k, w.pc t = .waiting call i₀ i₁ i₂ k →
      Chain w.disk call i₀ i₁ i₂ ∧ w.disk.request i₀ = some (call.request i₀)) ∧
    (∀ t t' call call' i₀ i₁ i₂ j₀ j₁ j₂ k k', t ≠ t' →
      w.pc t = .waiting call i₀ i₁ i₂ k → w.pc t' = .waiting call' j₀ j₁ j₂ k' →
        ∀ i ∈ [i₀, i₁, i₂], i ∉ [j₀, j₁, j₂]) ∧
    w.offered ≤ w.taken + NUM ∧
    (∀ k, w.taken ≤ k → k < w.offered → ∃ t call i₁ i₂,
      w.pc t = .waiting call (w.disk.avail.ring (k % NUM)).toNat i₁ i₂ k) ∧
    (∃ d r, w.disk.alloc3Desc = some (d, r)) ∧
    (∀ d, w.disk.alloc3Desc = some (d, none) → d.free = w.disk.free) ∧
    (∀ t call i₀ i₁ i₂ k, w.pc t = .waiting call i₀ i₁ i₂ k → w.intr = false →
      ∃ w', w.step (.finish t) = some w' ∧
        (w'.pc t ≠ w.pc t → (k, call.request i₀) ∈ w.served)) ∧
    (w.intr = true → w.disk.usedIdx ≠ w.disk.used.idx → ∃ w' t call i₀ i₁ i₂ k,
      w.step .handle = some w' ∧
        (w.disk.used.ring (w.disk.usedIdx.toNat % NUM)).toNat = i₀ ∧
        w.pc t = .waiting call i₀ i₁ i₂ k ∧ (k, call.request i₀) ∈ w.served ∧
        w.busy call.b = true ∧ w'.busy = Function.update w.busy call.b false) := by
  have h : w.Protocol := hr.invariant (.init infoB infoStatus ops) fun _ _ _ hp hd hs =>
    hp.step hd hs
  refine ⟨fun i => h.outstanding, ?_, h.disjoint, ?_, fun k => h.offered_entry, ?_,
    fun d => alloc3Desc_none, fun t call i₀ i₁ i₂ k => h.ends, ?_⟩
  · intro t call i₀ i₁ i₂ k hpc
    have hchain := h.chains _ _ _ _ _ _ hpc
    exact ⟨hchain, hchain.request⟩
  · have hlen := h.lengths
    rw [offered]
    omega
  · rcases w.disk.alloc3Desc_spec with ⟨i₀, i₁, i₂, -, -, hok⟩ | ⟨l, -, hfail⟩
    · exact ⟨_, _, hok⟩
    · exact ⟨_, _, hfail⟩
  · intro hintr hne
    obtain ⟨k, i, t, call, i₁, i₂, hid, hpc, hbusy, hmem, hs⟩ := h.handle_eq hne
    have hserved := h.served _ _ _ _ _ _ hpc (.inl hmem)
    exact ⟨_, t, call, i, i₁, i₂, k, (if_pos ⟨hintr, hne⟩).trans hs, hid, hpc, hserved, hbusy, rfl⟩

/-- A task writes a block, and the device is about to be told that it is done. -/
theorem disk_protocol_write : ∃ w, Reached DiskWorld.step DiskAct.Distinct
    (diskWorldInit (diskInit (fun _ => 0) (fun _ => 0) fun _ => ⟨0, 0, 0⟩)) w ∧
      w.pc 7 = .waiting ⟨3, 46, true⟩ 0 1 2 0 ∧ w.served = [(0, ⟨1, 92, 3, 0⟩)] ∧
      ∀ i < NUM, w.disk.free i = false ↔ w.Outstanding i := by
  have hd : (DiskAct.start 7 ⟨3, 46, true⟩).Distinct
      (diskWorldInit (diskInit (fun _ => 0) (fun _ => 0) fun _ => ⟨0, 0, 0⟩)) := by
    intro t call hc
    cases hc
  have hstart : Reached DiskWorld.step DiskAct.Distinct _ _ := .step .start hd rfl
  have htake := hstart.step (show DiskAct.Distinct _ .take from trivial) rfl
  have hr := htake.step (show DiskAct.Distinct _ (.complete (0, 0)) from trivial) rfl
  exact ⟨_, hr, by decide, by decide, (disk_protocol _ _ _ hr).1⟩

end DiskWorld

end Zrhos.Driver
