import Zrhos.Lib.Steps
import Zrhos.Driver.Keyboard
import Zrhos.Driver.Virtio

/-! The interrupt handler of `virtio_input.c`, in any interleaving with its device. -/
namespace Zrhos.Driver
open Steps

/-- Where the handler stands: outside, before the test of its first loop, before it takes
the entry from the used ring, before it passes an event on, before the test of its second
loop and before it offers a descriptor. -/
inductive Handler where
  | idle
  | test
  | fetch
  | pass (id : ℕ)
  | refill
  | offer
  deriving DecidableEq, Repr

/-- The event queue, `input.used_idx` and `input.info[..].buffer` of the driver, what the
device has taken from the avail ring and not yet published, and the history: the events as
the device wrote and published them, those passed to `keyboard_intr`, and how often a
descriptor was offered. -/
structure VirtioInput where
  avail : VirtqAvail
  used : VirtqUsed
  usedIdx : BitVec 16
  buffer : ℕ → VirtioInputEvent
  handler : Handler
  seen : BitVec 16
  taken : List (ℕ × VirtioInputEvent)
  published : List VirtioInputEvent
  passed : List VirtioInputEvent
  offered : ℕ

/-- `virtio_input_init`: the avail ring names every descriptor once, in order. -/
def virtioInputInit (ring : ℕ → BitVec 32) (buffer : ℕ → VirtioInputEvent) : VirtioInput where
  avail := ⟨BitVec.ofNat 16 NUM, fun i => BitVec.ofNat 16 i⟩
  used := ⟨0, ring⟩
  usedIdx := 0
  buffer := buffer
  handler := .idle
  seen := 0
  taken := []
  published := []
  passed := []
  offered := NUM

/-- The test of the second loop: the words are promoted to `int` before they are
subtracted. -/
def wantsRefill (availIdx usedIdx : BitVec 16) : Bool :=
  decide ((availIdx.toNat : ℤ) - usedIdx.toNat < NUM)

/-- One step of `virtio_input_intr`; the interrupt enters it, and at its end it is left. -/
def virtioInputIntr (input : VirtioInput) : VirtioInput :=
  match input.handler with
  | .idle => { input with handler := .test }
  | .test =>
    if input.usedIdx ≠ input.used.idx then { input with handler := .fetch }
    else { input with handler := .refill }
  | .fetch =>
    let id := (input.used.ring (input.usedIdx.toNat % NUM)).toNat
    { input with usedIdx := input.usedIdx + 1, handler := .pass id }
  | .pass id =>
    { input with passed := input.passed ++ [input.buffer id], handler := .test }
  | .refill =>
    if wantsRefill input.avail.idx input.used.idx then { input with handler := .offer }
    else { input with handler := .idle }
  | .offer =>
    { input with
      avail := { input.avail with idx := input.avail.idx + 1 }
      offered := input.offered + 1
      handler := .refill }

inductive InputAct where
  | handler
  | write (event : VirtioInputEvent)
  | publish

/-- The device writes into the next descriptor that is offered, and publishes what it has
written in that order. -/
def VirtioInput.step (input : VirtioInput) : InputAct → Option VirtioInput
  | .handler => some (virtioInputIntr input)
  | .write event =>
    if input.seen ≠ input.avail.idx then
      let id := (input.avail.ring (input.seen.toNat % NUM)).toNat
      some { input with
        seen := input.seen + 1
        buffer := Function.update input.buffer id event
        taken := input.taken ++ [(id, event)] }
    else none
  | .publish =>
    match input.taken with
    | [] => none
    | (id, event) :: rest =>
      some { input with
        used :=
          ⟨input.used.idx + 1,
            Function.update input.used.ring (input.used.idx.toNat % NUM) (BitVec.ofNat 32 id)⟩
        taken := rest
        published := input.published ++ [event] }

/-- Every event is passed on as it was written, in order and once, and no descriptor is
offered again before its event has been passed on. -/
structure PassesOn (input : VirtioInput) : Prop where
  passed : input.passed <+: input.published
  offered : input.offered ≤ input.passed.length + NUM

/-- At the test of the second loop the device has published nothing that the first loop has
not passed on, and the count of its entries is a full ring away from the wrap. -/
def Undisturbed (input : VirtioInput) : InputAct → Prop
  | .handler => input.handler = .refill →
      input.used.idx = input.usedIdx ∧ input.used.idx.toNat + NUM < 2 ^ 16
  | .write _ => True
  | .publish => True

instance (input : VirtioInput) : DecidablePred (Undisturbed input)
  | .handler => inferInstanceAs (Decidable (input.handler = .refill →
      input.used.idx = input.usedIdx ∧ input.used.idx.toNat + NUM < 2 ^ 16))
  | .write _ => inferInstanceAs (Decidable True)
  | .publish => inferInstanceAs (Decidable True)

/-! ### The counters without their wrap -/

namespace VirtioInput

variable {input input' : VirtioInput}

/-- How many entries the handler has taken from the used ring. -/
def fetched (input : VirtioInput) : ℕ :=
  match input.handler with
  | .pass _ => input.passed.length + 1
  | _ => input.passed.length

/-- The events in the order in which the device wrote them. -/
def written (input : VirtioInput) : List VirtioInputEvent :=
  input.published ++ input.taken.map Prod.snd

/-- What the place of the handler says. -/
def Stands (input : VirtioInput) : Prop :=
  match input.handler with
  | .fetch => input.passed.length < input.published.length
  | .pass id => id = input.passed.length % NUM ∧ input.passed.length < input.published.length
  | .offer => input.offered < input.passed.length + NUM
  | _ => True

structure Tracks (input : VirtioInput) : Prop where
  avail_idx : input.avail.idx = BitVec.ofNat 16 input.offered
  avail_ring : ∀ i < NUM, (input.avail.ring i).toNat = i
  used_idx : input.used.idx = BitVec.ofNat 16 input.published.length
  used_ring : ∀ i, input.passed.length ≤ i → i < input.published.length →
    (input.used.ring (i % NUM)).toNat = i % NUM
  own_idx : input.usedIdx = BitVec.ofNat 16 input.fetched
  seen : input.seen = BitVec.ofNat 16 input.written.length
  taken : ∀ j x, input.taken[j]? = some x → x.1 = (input.published.length + j) % NUM
  buffer : ∀ i e, input.passed.length ≤ i → input.written[i]? = some e →
    input.buffer (i % NUM) = e
  prefix_published : input.passed <+: input.published
  written_le : input.written.length ≤ input.offered
  offered_le : input.offered ≤ input.passed.length + NUM
  stands : input.Stands

theorem Tracks.init (ring : ℕ → BitVec 32) (buffer : ℕ → VirtioInputEvent) :
    (virtioInputInit ring buffer).Tracks where
  avail_idx := rfl
  avail_ring i hi := by
    have hsize : NUM = 64 := rfl
    rw [virtioInputInit, BitVec.toNat_ofNat, Nat.mod_eq_of_lt (by omega)]
  used_idx := rfl
  used_ring i _ hi := absurd hi (Nat.not_lt_zero i)
  own_idx := rfl
  seen := rfl
  taken j x hx := by simp [virtioInputInit] at hx
  buffer i e _ hi := by simp [virtioInputInit, written] at hi
  prefix_published := List.prefix_rfl
  written_le := Nat.zero_le _
  offered_le := by simp [virtioInputInit]
  stands := trivial

theorem length_written :
    input.written.length = input.published.length + input.taken.length := by
  simp [written]

theorem Tracks.passed_le (h : input.Tracks) : input.passed.length ≤ input.published.length :=
  h.prefix_published.length_le

theorem Tracks.lap (h : input.Tracks) :
    input.published.length ≤ input.offered ∧ input.published.length ≤ input.passed.length + NUM := by
  have hwritten := h.written_le
  have hoffered := h.offered_le
  rw [length_written] at hwritten
  omega

/-! ### The device -/

theorem Tracks.write (h : input.Tracks) {event : VirtioInputEvent}
    (hs : input.step (.write event) = some input') : input'.Tracks := by
  have hsize : NUM = 64 := rfl
  have hle := h.written_le
  have hlap := h.offered_le
  have hpassed := h.passed_le
  simp only [step] at hs
  split_ifs at hs with hne
  rw [h.seen, h.avail_idx, ne_eq,
    Ring.ofNat_inj hle (by rw [length_written] at hle ⊢; omega)] at hne
  have hslot : (input.avail.ring (input.seen.toNat % NUM)).toNat = input.written.length % NUM := by
    rw [h.seen, Ring.slot_ofNat NUM_dvd]
    exact h.avail_ring _ (Nat.mod_lt _ (by omega))
  rw [hslot] at hs
  cases hs
  have hwritten : written { input with
      seen := input.seen + 1
      buffer := Function.update input.buffer (input.written.length % NUM) event
      taken := input.taken ++ [(input.written.length % NUM, event)] } =
        input.written ++ [event] := by
    simp [written]
  constructor
  case avail_idx => exact h.avail_idx
  case avail_ring => exact h.avail_ring
  case used_idx => exact h.used_idx
  case used_ring => exact h.used_ring
  case own_idx => exact h.own_idx
  case seen =>
    rw [hwritten, List.length_append, List.length_singleton, BitVec.ofNat_add, ← h.seen]
    rfl
  case taken =>
    intro j x hx
    rcases Ring.getElem?_snoc hx with ⟨-, hold⟩ | ⟨rfl, rfl⟩
    · exact h.taken j x hold
    · rw [length_written]
  case buffer =>
    intro i e hi he
    rw [hwritten] at he
    rcases Ring.getElem?_snoc he with ⟨hlt, hold⟩ | ⟨rfl, rfl⟩
    · dsimp only at hi ⊢
      rw [update_slot hlt (by omega)]
      exact h.buffer i e hi hold
    · exact Function.update_self _ _ _
  case prefix_published => exact h.prefix_published
  case written_le =>
    rw [hwritten, List.length_append, List.length_singleton]
    dsimp only
    omega
  case offered_le => exact h.offered_le
  case stands => exact h.stands

theorem Tracks.publish (h : input.Tracks) (hs : input.step .publish = some input') :
    input'.Tracks := by
  have hsize : NUM = 64 := rfl
  obtain ⟨hpublished, hlap⟩ := h.lap
  simp only [step] at hs
  split at hs
  case _ => cases hs
  case _ id event rest htaken =>
    have hid : id = input.published.length % NUM := h.taken 0 (id, event) (by rw [htaken]; rfl)
    have hslot : input.used.idx.toNat % NUM = input.published.length % NUM := by
      rw [h.used_idx, Ring.slot_ofNat NUM_dvd]
    have hmod : input.published.length % NUM < NUM := Nat.mod_lt _ (by omega)
    have hwritten : (input.published ++ [event]) ++ rest.map Prod.snd = input.written := by
      rw [written, htaken]
      simp
    have hlen : input.written.length = input.published.length + 1 + rest.length := by
      rw [length_written, htaken, List.length_cons]
      omega
    have hle := h.written_le
    have hoffered := h.offered_le
    rw [hslot, hid] at hs
    cases hs
    constructor
    case avail_idx => exact h.avail_idx
    case avail_ring => exact h.avail_ring
    case used_idx =>
      rw [h.used_idx, List.length_append, List.length_singleton, BitVec.ofNat_add]
      rfl
    case used_ring =>
      intro i hi hlt
      simp only [List.length_append, List.length_singleton] at hi hlt ⊢
      rcases Nat.lt_succ_iff_lt_or_eq.mp hlt with hold | rfl
      · rw [update_slot hold (by omega)]
        exact h.used_ring i hi hold
      · rw [Function.update_self, BitVec.toNat_ofNat, Nat.mod_eq_of_lt (by omega)]
    case own_idx => exact h.own_idx
    case seen =>
      rw [written, hwritten]
      exact h.seen
    case taken =>
      intro j x hx
      have hold := h.taken (j + 1) x (by rw [htaken]; exact hx)
      simp only [List.length_append, List.length_singleton]
      rw [hold]
      congr 1
      omega
    case buffer =>
      intro i e hi he
      rw [written, hwritten] at he
      exact h.buffer i e hi he
    case prefix_published => exact h.prefix_published.trans (List.prefix_append _ _)
    case written_le =>
      rw [written, hwritten]
      exact h.written_le
    case offered_le => exact h.offered_le
    case stands =>
      have hstands := h.stands
      unfold Stands at hstands ⊢
      simp only [List.length_append, List.length_singleton]
      split at hstands <;> simp_all <;> omega

/-! ### The handler -/

/-- The handler goes on without a change to what it has fetched. -/
theorem Tracks.goto (h : input.Tracks) {place : Handler}
    (hfetched : fetched { input with handler := place } = input.fetched)
    (hstands : Stands { input with handler := place }) :
    Tracks { input with handler := place } where
  avail_idx := h.avail_idx
  avail_ring := h.avail_ring
  used_idx := h.used_idx
  used_ring := h.used_ring
  own_idx := by
    rw [hfetched]
    exact h.own_idx
  seen := h.seen
  taken := h.taken
  buffer := h.buffer
  prefix_published := h.prefix_published
  written_le := h.written_le
  offered_le := h.offered_le
  stands := hstands

/-- Outside `pass` the counter of the handler meets that of the device exactly when all
that is published has been passed on. -/
theorem Tracks.own_eq_used (h : input.Tracks) (hfetched : input.fetched = input.passed.length) :
    input.usedIdx = input.used.idx ↔ input.passed.length = input.published.length := by
  have hsize : NUM = 64 := rfl
  have hlap := h.lap.2
  rw [h.own_idx, h.used_idx, hfetched, Ring.ofNat_inj h.passed_le (by omega)]

theorem Tracks.passes_all (h : input.Tracks) (hlen : input.passed.length = input.published.length) :
    input.passed = input.published := h.prefix_published.eq_of_length hlen

theorem Tracks.test (h : input.Tracks) (hat : input.handler = .test) :
    (virtioInputIntr input).Tracks ∧
      ((virtioInputIntr input).handler = .refill → input.passed = input.published) := by
  have hfetched : input.fetched = input.passed.length := by rw [fetched, hat]
  have howns := h.own_eq_used hfetched
  simp only [virtioInputIntr, hat]
  split_ifs with hne
  · refine ⟨h.goto hfetched.symm ?_, fun hplace => by cases hplace⟩
    have hpassed := h.passed_le
    have hlen : input.passed.length ≠ input.published.length := fun he => hne (howns.mpr he)
    exact lt_of_le_of_ne hpassed hlen
  · exact ⟨h.goto hfetched.symm trivial, fun _ => h.passes_all (howns.mp (not_not.mp hne))⟩

theorem Tracks.fetch (h : input.Tracks) (hat : input.handler = .fetch) :
    (virtioInputIntr input).Tracks := by
  have hfetched : input.fetched = input.passed.length := by rw [fetched, hat]
  have hlt : input.passed.length < input.published.length := by
    have hstands := h.stands
    rwa [Stands, hat] at hstands
  have hslot : input.usedIdx.toNat % NUM = input.passed.length % NUM := by
    rw [h.own_idx, hfetched, Ring.slot_ofNat NUM_dvd]
  have hid := h.used_ring _ le_rfl hlt
  simp only [virtioInputIntr, hat, hslot, hid]
  exact {
    avail_idx := h.avail_idx
    avail_ring := h.avail_ring
    used_idx := h.used_idx
    used_ring := h.used_ring
    own_idx := by
      rw [h.own_idx, hfetched, fetched, BitVec.ofNat_add]
      rfl
    seen := h.seen
    taken := h.taken
    buffer := h.buffer
    prefix_published := h.prefix_published
    written_le := h.written_le
    offered_le := h.offered_le
    stands := ⟨rfl, hlt⟩ }

theorem Tracks.pass (h : input.Tracks) {id : ℕ} (hat : input.handler = .pass id) :
    (virtioInputIntr input).Tracks := by
  obtain ⟨hid, hlt⟩ : id = input.passed.length % NUM ∧
      input.passed.length < input.published.length := by
    have hstands := h.stands
    rwa [Stands, hat] at hstands
  have hwritten : input.written[input.passed.length]? =
      some input.published[input.passed.length] := by
    rw [written, List.getElem?_append_left hlt, List.getElem?_eq_getElem hlt]
  have hevent : input.buffer id = input.published[input.passed.length] := by
    rw [hid]
    exact h.buffer _ _ le_rfl hwritten
  have htake : input.passed = input.published.take input.passed.length :=
    List.prefix_iff_eq_take.mp h.prefix_published
  have hnext : input.passed ++ [input.buffer id] =
      input.published.take (input.passed.length + 1) := by
    rw [hevent, ← List.take_concat_get' _ _ hlt, ← htake]
  simp only [virtioInputIntr, hat]
  exact {
    avail_idx := h.avail_idx
    avail_ring := h.avail_ring
    used_idx := h.used_idx
    used_ring := fun i hi hi' => by
      rw [List.length_append] at hi
      exact h.used_ring i (by omega) hi'
    own_idx := by
      rw [h.own_idx, fetched, hat, fetched, List.length_append]
      rfl
    seen := h.seen
    taken := h.taken
    buffer := fun i e hi he => by
      rw [List.length_append] at hi
      exact h.buffer i e (by omega) he
    prefix_published := by
      rw [hnext]
      exact List.take_prefix _ _
    written_le := h.written_le
    offered_le := by
      have hoffered := h.offered_le
      rw [List.length_append]
      dsimp only
      omega
    stands := trivial }

/-- Where the device is quiet and the counters are away from their wrap, the test of the
second loop counts the descriptors that have come back. -/
theorem Tracks.refill (h : input.Tracks) (hat : input.handler = .refill)
    (hquiet : Undisturbed input .handler) : (virtioInputIntr input).Tracks := by
  have hsize : NUM = 64 := rfl
  have hfetched : input.fetched = input.passed.length := by rw [fetched, hat]
  obtain ⟨hsame, hfar⟩ := hquiet hat
  have hall : input.passed.length = input.published.length :=
    (h.own_eq_used hfetched).mp hsame.symm
  simp only [virtioInputIntr, hat]
  split_ifs with hwants
  · refine h.goto hfetched.symm ?_
    have hoffered := h.offered_le
    have hpublished := h.lap.1
    rw [h.used_idx, BitVec.toNat_ofNat] at hfar
    simp only [wantsRefill, h.avail_idx, h.used_idx, BitVec.toNat_ofNat, decide_eq_true_eq]
      at hwants
    change input.offered < input.passed.length + NUM
    omega
  · exact h.goto hfetched.symm trivial

theorem Tracks.offer (h : input.Tracks) (hat : input.handler = .offer) :
    (virtioInputIntr input).Tracks := by
  have hlt : input.offered < input.passed.length + NUM := by
    have hstands := h.stands
    rwa [Stands, hat] at hstands
  simp only [virtioInputIntr, hat]
  exact {
    avail_idx := by
      rw [h.avail_idx, BitVec.ofNat_add]
      rfl
    avail_ring := h.avail_ring
    used_idx := h.used_idx
    used_ring := h.used_ring
    own_idx := by
      rw [h.own_idx, fetched, hat, fetched]
    seen := h.seen
    taken := h.taken
    buffer := h.buffer
    prefix_published := h.prefix_published
    written_le := h.written_le.trans (Nat.le_succ _)
    offered_le := hlt
    stands := trivial }

theorem Tracks.step (h : input.Tracks) {a : InputAct} (hm : Undisturbed input a)
    (hs : input.step a = some input') : input'.Tracks := by
  cases a with
  | write event => exact h.write hs
  | publish => exact h.publish hs
  | handler =>
    cases hs
    cases hat : input.handler with
    | idle =>
      have hfetched : input.fetched = input.passed.length := by rw [fetched, hat]
      simp only [virtioInputIntr, hat]
      exact h.goto hfetched.symm trivial
    | test => exact (h.test hat).1
    | fetch => exact h.fetch hat
    | pass id => exact h.pass hat
    | refill => exact h.refill hat hm
    | offer => exact h.offer hat

end VirtioInput

/-- In every run whose second loops find the device quiet and the counters away from their
wrap, the events are passed on as published, in order and once; no descriptor is offered
again before its event has been passed on; and the first loop ends only when all that is
published has been passed on. -/
theorem virtio_input_passes_on (ring : ℕ → BitVec 32) (buffer : ℕ → VirtioInputEvent)
    (input : VirtioInput)
    (hr : Reached VirtioInput.step Undisturbed (virtioInputInit ring buffer) input) :
    PassesOn input ∧ (input.handler = .test → (virtioInputIntr input).handler = .refill →
      input.passed = input.published) := by
  have htracks : input.Tracks :=
    hr.invariant (VirtioInput.Tracks.init ring buffer) fun _ _ _ h hm hs => h.step hm hs
  exact ⟨⟨htracks.prefix_published, htracks.offered_le⟩, fun hat => (htracks.test hat).2⟩

/-- The queue after `virtio_input_init` in cleared memory. -/
def clearedInput : VirtioInput := virtioInputInit (fun _ => 0) fun _ => ⟨0, 0, 0⟩

theorem virtio_input_passes_on_key : ∃ input, Reached VirtioInput.step Undisturbed clearedInput
    input ∧ input.passed = [⟨1, 30, 1⟩] ∧ input.offered = NUM + 1 ∧ PassesOn input := by
  have hrun : (after VirtioInput.step Undisturbed clearedInput
      [.write ⟨1, 30, 1⟩, .publish, .handler, .handler, .handler, .handler, .handler, .handler,
        .handler]).map (fun input => (input.passed, input.offered)) =
          some ([⟨1, 30, 1⟩], NUM + 1) := by decide
  obtain ⟨input, hinput, hfacts⟩ := Option.map_eq_some_iff.mp hrun
  obtain ⟨hpassed, hoffered⟩ := Prod.mk.inj hfacts
  have hr := reached_after hinput
  exact ⟨input, hr, hpassed, hoffered, (virtio_input_passes_on _ _ input hr).1⟩

/-- A completion between the two loops offers a descriptor whose event is still to be passed
on. -/
theorem virtio_input_offers_early : ¬∀ input,
    Reached VirtioInput.step anyStep clearedInput input → PassesOn input := by
  intro hall
  have hrun : (after VirtioInput.step anyStep clearedInput
      [.handler, .handler, .write ⟨1, 30, 1⟩, .publish, .handler, .handler]).map
        (fun input => (input.passed, input.offered)) = some ([], NUM + 1) := by decide
  obtain ⟨input, hinput, hfacts⟩ := Option.map_eq_some_iff.mp hrun
  obtain ⟨hpassed, hoffered⟩ := Prod.mk.inj hfacts
  have hle := (hall input (reached_after hinput)).offered
  rw [hpassed, hoffered] at hle
  exact absurd hle (by decide)

end Zrhos.Driver
