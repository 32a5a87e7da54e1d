import Zrhos.Lib.Ring

/-! The event queue of `keyboard.c`: a ring of the last events behind two `int` counters.
The reference queue drops its oldest event when a further one finds it full. -/
namespace Zrhos.Driver
open Ring

structure VirtioInputEvent where
  type : BitVec 16
  code : BitVec 16
  value : BitVec 32
  deriving DecidableEq, Repr

structure KeyboardEvent where
  type : BitVec 8
  code : BitVec 8
  value : BitVec 16
  deriving DecidableEq, Repr

def BUF_SIZE : ℕ := 128

def sizeofKeyboardEvent : ℕ := 4

/-- `buffer` is the memory at `keyboard.buffer`, one event an index: the indices outside
`0..BUF_SIZE-1` are not the array's. -/
structure Keyboard where
  locked : Bool
  buffer : ℤ → KeyboardEvent
  head : ℤ
  tail : ℤ

/-- The value that an `int` keeps of `x`. -/
def toInt (x : ℤ) : ℤ := Int.bmod x (2 ^ 32)

def VirtioInputEvent.keyboardEvent (event : VirtioInputEvent) : KeyboardEvent :=
  ⟨event.type.truncate 8, event.code.truncate 8, event.value.truncate 16⟩

def keyboardIntr (keyboard : Keyboard) (event : VirtioInputEvent) : Keyboard :=
  if event.type ≠ 1 then { keyboard with locked := false }
  else
    let keyboard := { keyboard with
      buffer := Function.update keyboard.buffer (keyboard.head.tmod BUF_SIZE) event.keyboardEvent
      head := toInt (keyboard.head + 1) }
    let keyboard := if toInt (keyboard.head - keyboard.tail) > BUF_SIZE
      then { keyboard with tail := toInt (keyboard.head - BUF_SIZE) } else keyboard
    { keyboard with locked := false }

/-- The event in memory, in the byte order of the machine. -/
def KeyboardEvent.bytes (e : KeyboardEvent) : List (BitVec 8) :=
  [e.type, e.code, e.value.truncate 8, (e.value >>> 8).truncate 8]

/-- The first `n` bytes from event `i` of the memory on. -/
def bytesFrom (buffer : ℤ → KeyboardEvent) (i : ℤ) (n : ℕ) : List (BitVec 8) :=
  ((List.range (n / sizeofKeyboardEvent + 1)).flatMap fun j : ℕ => (buffer (i + j)).bytes).take n

/-- The bytes at `keyboard.buffer[tail]` that a read of `n` bytes copies. -/
def copySize (keyboard : Keyboard) (n : BitVec 64) : BitVec 64 :=
  let pending := BitVec.ofNat 64 sizeofKeyboardEvent *
    BitVec.ofInt 64 (toInt (keyboard.head - keyboard.tail))
  if pending < n then pending else n

/-- The state, the result and the bytes copied out; `copied` tells whether `either_copyout`
reaches the destination. A failed copy returns with the lock held. -/
def keyboardReadEvent (keyboard : Keyboard) (n : BitVec 64) (copied : Bool) :
    Keyboard × BitVec 64 × List (BitVec 8) :=
  if n < BitVec.ofNat 64 sizeofKeyboardEvent then (keyboard, -1, [])
  else if keyboard.head = keyboard.tail then ({ keyboard with locked := false }, 0, [])
  else
    let size := copySize keyboard n
    if !copied then ({ keyboard with locked := true }, -1, [])
    else ({ keyboard with locked := false, tail := keyboard.head }, size,
      bytesFrom keyboard.buffer keyboard.tail size.toNat)

/-- `keyboard_init`; the memory may hold anything. -/
def keyboardInit (buffer : ℤ → KeyboardEvent) : Keyboard := ⟨false, buffer, 0, 0⟩

/-! ### The reference queue -/

/-- The queue after one more event; a full queue drops its oldest. -/
def push (queue : List KeyboardEvent) (e : KeyboardEvent) : List KeyboardEvent :=
  (queue ++ [e]).drop (queue.length + 1 - BUF_SIZE)

/-- The events that a read of `n` bytes has room for. -/
def room (queue : List KeyboardEvent) (n : ℕ) : ℕ := min (n / sizeofKeyboardEvent) queue.length

/-! ### Runs -/

inductive KeyboardAct where
  | intr (event : VirtioInputEvent)
  | read (n : BitVec 64)

/-- Readers offer room for an event at least. -/
def KeyboardAct.Valid : KeyboardAct → Prop
  | .intr _ => True
  | .read n => sizeofKeyboardEvent ≤ n.toNat

instance : DecidablePred KeyboardAct.Valid
  | .intr _ => inferInstanceAs (Decidable True)
  | .read n => inferInstanceAs (Decidable (sizeofKeyboardEvent ≤ n.toNat))

def Keyboard.after (keyboard : Keyboard) : KeyboardAct → Keyboard
  | .intr event => keyboardIntr keyboard event
  | .read n => (keyboardReadEvent keyboard n true).1

def queueAfter (queue : List KeyboardEvent) : KeyboardAct → List KeyboardEvent
  | .intr event => if event.type = 1 then push queue event.keyboardEvent else queue
  | .read n => queue.drop (room queue n.toNat)

/-- What a call gives its caller: the result of a read and the bytes at its destination. -/
def Keyboard.answer (keyboard : Keyboard) : KeyboardAct → ℕ × List (BitVec 8)
  | .intr _ => (0, [])
  | .read n =>
    let (_, size, bytes) := keyboardReadEvent keyboard n true
    (size.toNat, bytes)

def queueAnswer (queue : List KeyboardEvent) : KeyboardAct → ℕ × List (BitVec 8)
  | .intr _ => (0, [])
  | .read n =>
    (sizeofKeyboardEvent * room queue n.toNat,
      (queue.take (room queue n.toNat)).flatMap KeyboardEvent.bytes)

/-- The events between the two counters, each in its slot of the ring. -/
def Keyboard.contents (keyboard : Keyboard) : List KeyboardEvent :=
  (List.range (keyboard.head - keyboard.tail).toNat).map fun i : ℕ =>
    keyboard.buffer ((keyboard.tail + i).tmod BUF_SIZE)

/-- Every byte that the call copies lies in the array. -/
def Keyboard.Inside (keyboard : Keyboard) : KeyboardAct → Prop
  | .intr _ => True
  | .read n => keyboard.head ≠ keyboard.tail → 0 ≤ keyboard.tail ∧
      sizeofKeyboardEvent * keyboard.tail + (copySize keyboard n).toNat ≤
        sizeofKeyboardEvent * BUF_SIZE

/-- The call answers as the reference queue does, copies from the array only, and leaves
the events that the reference queue holds. -/
structure StepFollows (keyboard : Keyboard) (queue : List KeyboardEvent) (a : KeyboardAct) :
    Prop where
  answer : keyboard.answer a = queueAnswer queue a
  inside : keyboard.Inside a
  contents : (keyboard.after a).contents = queueAfter queue a

def Follows : Keyboard → List KeyboardEvent → List KeyboardAct → Prop
  | _, _, [] => True
  | keyboard, queue, a :: acts => StepFollows keyboard queue a ∧
      Follows (keyboard.after a) (queueAfter queue a) acts

/-- A read takes all that is pending, from the first lap of the ring; the counter of an
arriving event has not reached the largest `int`. -/
def Keyboard.Fits (keyboard : Keyboard) : KeyboardAct → Prop
  | .intr event => event.type = 1 → keyboard.head < 2 ^ 31 - 1
  | .read n => keyboard.head ≠ keyboard.tail →
      sizeofKeyboardEvent * (keyboard.head - keyboard.tail) ≤ n.toNat ∧ keyboard.head ≤ BUF_SIZE

instance (keyboard : Keyboard) : DecidablePred keyboard.Fits
  | .intr event => inferInstanceAs (Decidable (event.type = 1 → keyboard.head < 2 ^ 31 - 1))
  | .read n => inferInstanceAs (Decidable (keyboard.head ≠ keyboard.tail →
      sizeofKeyboardEvent * (keyboard.head - keyboard.tail) ≤ n.toNat ∧ keyboard.head ≤ BUF_SIZE))

def AllFit : Keyboard → List KeyboardAct → Prop
  | _, [] => True
  | keyboard, a :: acts => keyboard.Fits a ∧ AllFit (keyboard.after a) acts

/-! ### One step -/

/-- The counters count up to `h` and `t`, at most a lap apart. -/
structure Keyboard.At (keyboard : Keyboard) (h t : ℕ) : Prop where
  head : keyboard.head = h
  tail : keyboard.tail = t
  order : t ≤ h
  lap : h ≤ t + BUF_SIZE
  bound : h < 2 ^ 31

variable {keyboard : Keyboard} {queue : List KeyboardEvent} {h t : ℕ} {n : BitVec 64}

theorem toInt_of_lt {x : ℤ} (hl : -2 ^ 31 ≤ x) (hu : x < 2 ^ 31) : toInt x = x := by
  unfold toInt
  apply Int.bmod_eq_of_le <;> omega

theorem tmod_natCast (i : ℕ) : ((i : ℤ)).tmod BUF_SIZE = ((i % BUF_SIZE : ℕ) : ℤ) := by
  rw [Int.tmod_eq_emod_of_nonneg (by omega)]
  rfl

theorem Keyboard.At.contents (hat : keyboard.At h t) :
    keyboard.contents = window BUF_SIZE (fun i => keyboard.buffer i) t (h - t) := by
  have hcount : (keyboard.head - keyboard.tail).toNat = h - t := by
    rw [hat.head, hat.tail]
    omega
  unfold Keyboard.contents window
  rw [hcount]
  apply List.map_congr_left
  intro i _
  rw [hat.tail, ← Nat.cast_add, tmod_natCast]

theorem Keyboard.At.pending (hat : keyboard.At h t) :
    toInt (keyboard.head - keyboard.tail) = ((h - t : ℕ) : ℤ) := by
  have horder := hat.order
  have hbound := hat.bound
  rw [hat.head, hat.tail, toInt_of_lt (by omega) (by omega)]
  omega

/-- An event moves the head by one, and the tail where the ring was full. -/
theorem Keyboard.At.intr (hat : keyboard.At h t) {event : VirtioInputEvent}
    (htype : event.type = 1) (hfits : h + 1 < 2 ^ 31) :
    (keyboardIntr keyboard event).At (h + 1) (max t (h + 1 - BUF_SIZE)) ∧
      (keyboardIntr keyboard event).buffer =
        Function.update keyboard.buffer ((h % BUF_SIZE : ℕ) : ℤ) event.keyboardEvent := by
  have hsize : BUF_SIZE = 128 := rfl
  have horder := hat.order
  have hlap := hat.lap
  have hhead : toInt ((h : ℤ) + 1) = ((h + 1 : ℕ) : ℤ) := by
    rw [toInt_of_lt (by omega) (by omega)]
    rfl
  have hpending : toInt (((h + 1 : ℕ) : ℤ) - t) = ((h + 1 - t : ℕ) : ℤ) := by
    rw [toInt_of_lt (by omega) (by omega)]
    omega
  have htail : toInt (((h + 1 : ℕ) : ℤ) - BUF_SIZE) = ((h + 1 : ℕ) : ℤ) - BUF_SIZE :=
    toInt_of_lt (by omega) (by omega)
  simp only [keyboardIntr, htype, ne_eq, not_true_eq_false, if_false, hat.head, hat.tail, hhead,
    hpending, htail, tmod_natCast]
  split_ifs with hfull
  · refine ⟨⟨rfl, ?_, ?_, ?_, hfits⟩, rfl⟩
    · dsimp only
      omega
    · omega
    · omega
  · refine ⟨⟨rfl, ?_, ?_, ?_, hfits⟩, rfl⟩
    · dsimp only
      omega
    · omega
    · omega

theorem natCast_update (buffer : ℤ → KeyboardEvent) (i : ℕ) (e : KeyboardEvent) :
    (fun j : ℕ => Function.update buffer (i : ℤ) e (j : ℤ)) =
      Function.update (fun j : ℕ => buffer (j : ℤ)) i e := by
  funext j
  simp only [Function.update_apply, Nat.cast_inj]

/-- The ring after an event holds the reference queue after it. -/
theorem Keyboard.At.intr_contents (hat : keyboard.At h t) {event : VirtioInputEvent}
    (htype : event.type = 1) (hfits : h + 1 < 2 ^ 31) :
    (keyboardIntr keyboard event).contents = push keyboard.contents event.keyboardEvent := by
  have horder := hat.order
  have hlap := hat.lap
  obtain ⟨hafter, hbuffer⟩ := hat.intr htype hfits
  rw [hafter.contents, hbuffer, natCast_update, hat.contents, push, length_window]
  by_cases hfull : h = t + BUF_SIZE
  · have hsize : 0 < BUF_SIZE := by decide
    obtain ⟨m, hm⟩ : ∃ m, m + 1 = BUF_SIZE := ⟨BUF_SIZE - 1, by omega⟩
    have hslot : h % BUF_SIZE = t % BUF_SIZE := by rw [hfull, Nat.add_mod_right]
    have hcount : h - t = m + 1 := by omega
    rw [max_eq_right (by omega), hslot, show h + 1 - BUF_SIZE = t + 1 by omega,
      show h + 1 - (t + 1) = m + 1 by omega, window_overwrite hm, hcount,
      show m + 1 + 1 - BUF_SIZE = 1 by omega, List.drop_append_of_le_length (by simp),
      window_drop]
    rfl
  · rw [max_eq_left (by omega), show h + 1 - t = h - t + 1 by omega,
      show h - t + 1 - BUF_SIZE = 0 by omega, List.drop_zero]
    have hpush : window BUF_SIZE (Function.update (fun i : ℕ => keyboard.buffer i)
        ((t + (h - t)) % BUF_SIZE) event.keyboardEvent) t (h - t + 1) =
          window BUF_SIZE (fun i : ℕ => keyboard.buffer i) t (h - t) ++ [event.keyboardEvent] :=
      window_push (by omega)
    rw [show t + (h - t) = h by omega] at hpush
    exact hpush

/-- The counter past the largest `int` leaves nothing between head and tail. -/
theorem Keyboard.At.intr_overflow (hat : keyboard.At h t) {event : VirtioInputEvent}
    (htype : event.type = 1) (hmax : h + 1 = 2 ^ 31) :
    (keyboardIntr keyboard event).contents = [] := by
  have hsize : BUF_SIZE = 128 := rfl
  have horder := hat.order
  have hlap := hat.lap
  have hhead : toInt ((h : ℤ) + 1) = -2 ^ 31 := by
    rw [show (h : ℤ) + 1 = 2 ^ 31 by omega]
    rfl
  have htail : toInt (-2 ^ 31 - (BUF_SIZE : ℤ)) = 2 ^ 31 - 128 := by rfl
  have hcount : ((keyboardIntr keyboard event).head -
      (keyboardIntr keyboard event).tail).toNat = 0 := by
    simp only [keyboardIntr, htype, ne_eq, not_true_eq_false, if_false, hat.head, hat.tail, hhead,
      htail]
    split_ifs with hfull
    · dsimp only
      omega
    · dsimp only
      omega
  unfold Keyboard.contents
  rw [hcount]
  rfl

/-! ### Reads -/

theorem Keyboard.At.toNat_copySize (hat : keyboard.At h t) :
    (copySize keyboard n).toNat = min (sizeofKeyboardEvent * (h - t)) n.toNat := by
  have hsize : BUF_SIZE = 128 := rfl
  have hevent : sizeofKeyboardEvent = 4 := rfl
  have hlap := hat.lap
  have hpending : (BitVec.ofNat 64 sizeofKeyboardEvent *
      BitVec.ofInt 64 (toInt (keyboard.head - keyboard.tail))).toNat =
        sizeofKeyboardEvent * (h - t) := by
    rw [hat.pending, BitVec.ofInt_natCast, ← BitVec.ofNat_mul, BitVec.toNat_ofNat]
    apply Nat.mod_eq_of_lt
    rw [hevent]
    omega
  unfold copySize
  simp only [BitVec.lt_def, hpending]
  split_ifs with hlt
  · rw [hpending, min_eq_left hlt.le]
  · rw [min_eq_right (by omega)]

theorem bytes_length (e : KeyboardEvent) : e.bytes.length = sizeofKeyboardEvent := rfl

theorem bytesFrom_whole (buffer : ℤ → KeyboardEvent) (i : ℤ) (m : ℕ) :
    bytesFrom buffer i (sizeofKeyboardEvent * m) =
      (List.range m).flatMap fun j : ℕ => (buffer (i + j)).bytes := by
  have hlen : ((List.range m).flatMap fun j : ℕ => (buffer (i + j)).bytes).length =
      sizeofKeyboardEvent * m := by
    simp [List.length_flatMap, bytes_length, mul_comm]
  have hevent : 0 < sizeofKeyboardEvent := by decide
  rw [bytesFrom, Nat.mul_div_cancel_left _ hevent, List.range_succ, List.flatMap_append,
    List.take_append_of_le_length hlen.ge, List.take_of_length_le hlen.le]

theorem read_ge {a b : BitVec 64} (h : b.toNat ≤ a.toNat) : ¬a < b := by
  rw [BitVec.lt_def]
  omega

/-- A read of a nonempty queue. -/
theorem Keyboard.At.read (hat : keyboard.At h t) (hn : sizeofKeyboardEvent ≤ n.toNat)
    (hsome : t < h) : keyboardReadEvent keyboard n true =
      ({ keyboard with locked := false, tail := keyboard.head }, copySize keyboard n,
        bytesFrom keyboard.buffer t (min (sizeofKeyboardEvent * (h - t)) n.toNat)) := by
  have hroom : ¬n < BitVec.ofNat 64 sizeofKeyboardEvent := read_ge hn
  have hne : keyboard.head ≠ keyboard.tail := by
    rw [hat.head, hat.tail]
    omega
  simp only [keyboardReadEvent, hroom, hne, if_false, Bool.not_true, Bool.false_eq_true,
    hat.toNat_copySize]
  rw [hat.tail]

theorem Keyboard.At.read_empty (hat : keyboard.At h t) (hn : sizeofKeyboardEvent ≤ n.toNat)
    (hnone : h = t) : keyboardReadEvent keyboard n true =
      ({ keyboard with locked := false }, 0, []) := by
  have hroom : ¬n < BitVec.ofNat 64 sizeofKeyboardEvent := read_ge hn
  have heq : keyboard.head = keyboard.tail := by rw [hat.head, hat.tail, hnone]
  simp only [keyboardReadEvent, hroom, heq, if_false, if_true]

theorem Keyboard.At.fits_read (hat : keyboard.At h t) : keyboard.Fits (.read n) ↔
    (t < h → sizeofKeyboardEvent * (h - t) ≤ n.toNat ∧ h ≤ BUF_SIZE) := by
  have horder := hat.order
  have hevent : sizeofKeyboardEvent = 4 := rfl
  simp only [Keyboard.Fits, hat.head, hat.tail, hevent, ne_eq, Nat.cast_inj]
  constructor
  · intro hfits hsome
    have hboth := hfits (by omega)
    exact ⟨by omega, by omega⟩
  · intro hfits hne
    have hboth := hfits (by omega)
    exact ⟨by omega, by omega⟩

/-- On the first lap the copied bytes are those of the pending events. -/
theorem Keyboard.At.bytes (hat : keyboard.At h t) (hlap : h ≤ BUF_SIZE) :
    bytesFrom keyboard.buffer t (sizeofKeyboardEvent * (h - t)) =
      keyboard.contents.flatMap KeyboardEvent.bytes := by
  rw [bytesFrom_whole, hat.contents, window, List.flatMap_map]
  apply List.flatMap_congr
  intro i hi
  have hlt := List.mem_range.mp hi
  rw [Nat.mod_eq_of_lt (by omega)]
  rfl

theorem room_eq_length (hall : sizeofKeyboardEvent * queue.length ≤ n.toNat) :
    room queue n.toNat = queue.length := by
  have hevent : sizeofKeyboardEvent = 4 := rfl
  rw [room, min_eq_right]
  rw [hevent] at hall ⊢
  omega

/-- A read follows the reference queue exactly where it takes all from the first lap. -/
theorem Keyboard.At.read_follows (hat : keyboard.At h t) (hn : sizeofKeyboardEvent ≤ n.toNat) :
    StepFollows keyboard keyboard.contents (.read n) ↔ keyboard.Fits (.read n) := by
  have horder := hat.order
  have hevent : sizeofKeyboardEvent = 4 := rfl
  have hlen : keyboard.contents.length = h - t := by rw [hat.contents, length_window]
  rw [hat.fits_read]
  by_cases hsome : t < h
  · have hread := hat.read hn hsome
    have hempty : (keyboard.after (.read n)).contents = [] := by
      rw [Keyboard.after, hread, Keyboard.contents, sub_self]
      rfl
    constructor
    · intro hs _
      have hdrop : keyboard.contents.drop (room keyboard.contents n.toNat) = [] := by
        rw [← hempty]
        exact hs.contents.symm
      have hroom : h - t ≤ n.toNat / sizeofKeyboardEvent := by
        have hle := List.drop_eq_nil_iff.mp hdrop
        rw [room, hlen] at hle
        omega
      have hall : sizeofKeyboardEvent * (h - t) ≤ n.toNat := by
        rw [hevent] at hroom ⊢
        omega
      have hinside := (hs.inside (by rw [hat.head, hat.tail]; omega)).2
      rw [hat.toNat_copySize, hat.tail, min_eq_left hall, hevent] at hinside
      refine ⟨hall, ?_⟩
      omega
    · intro hfits
      obtain ⟨hall, hlap⟩ := hfits hsome
      have hroom : room keyboard.contents n.toNat = h - t := by
        rw [room_eq_length (by rwa [hlen]), hlen]
      constructor
      · simp only [Keyboard.answer, hread, queueAnswer, hroom, hat.toNat_copySize, min_eq_left hall]
        rw [hat.bytes hlap, ← hlen, List.take_length]
      · intro _
        rw [hat.toNat_copySize, hat.tail, min_eq_left hall, hevent]
        exact ⟨by omega, by omega⟩
      · rw [hempty, queueAfter, hroom, ← hlen, List.drop_length]
  · have hnone : h = t := by omega
    have hread := hat.read_empty hn hnone
    have hempty : keyboard.contents = [] := List.length_eq_zero_iff.mp (by omega)
    constructor
    · intro _ hlt
      exact absurd hlt hsome
    · intro _
      constructor
      · simp [Keyboard.answer, hread, queueAnswer, hempty, room]
      · intro hne
        rw [hat.head, hat.tail, hnone] at hne
        exact absurd rfl hne
      · rw [queueAfter, hempty, List.drop_nil, ← hempty, Keyboard.after, hread]
        rfl

/-- The counters after a read. -/
theorem Keyboard.At.read_at (hat : keyboard.At h t) (hn : sizeofKeyboardEvent ≤ n.toNat) :
    ((keyboard.after (.read n)).At h h) := by
  have hbound := hat.bound
  by_cases hsome : t < h
  · rw [Keyboard.after, hat.read hn hsome]
    exact ⟨hat.head, hat.head, le_rfl, by omega, hbound⟩
  · have hnone : h = t := by
      have horder := hat.order
      omega
    rw [Keyboard.after, hat.read_empty hn hnone]
    exact ⟨hat.head, hnone ▸ hat.tail, le_rfl, by omega, hbound⟩

/-! ### Whole runs -/

theorem Keyboard.At.follows (hat : keyboard.At h t) {a : KeyboardAct} (hv : a.Valid) :
    StepFollows keyboard keyboard.contents a ↔ keyboard.Fits a := by
  have hbound := hat.bound
  cases a with
  | read n => exact hat.read_follows hv
  | intr event =>
    by_cases htype : event.type = 1
    · simp only [Keyboard.Fits, htype, true_imp_iff, hat.head]
      constructor
      · intro hs
        by_contra hmax
        have hnone := hs.contents
        rw [Keyboard.after, hat.intr_overflow htype (by omega), queueAfter, if_pos htype] at hnone
        have hlen := congrArg List.length hnone
        have hlap := hat.lap
        have hsize : BUF_SIZE = 128 := rfl
        simp only [push, List.length_drop, List.length_append, List.length_nil,
          List.length_cons, hat.contents, length_window] at hlen
        omega
      · intro hfits
        refine ⟨rfl, trivial, ?_⟩
        rw [queueAfter, if_pos htype]
        exact hat.intr_contents htype (by omega)
    · simp only [Keyboard.Fits, htype, false_imp_iff, iff_true]
      refine ⟨rfl, trivial, ?_⟩
      rw [queueAfter, if_neg htype]
      simp only [Keyboard.after, keyboardIntr, ne_eq, htype, not_false_eq_true, if_true]
      rfl

theorem Keyboard.At.after (hat : keyboard.At h t) {a : KeyboardAct} (hv : a.Valid)
    (hfits : keyboard.Fits a) : ∃ h' t', (keyboard.after a).At h' t' := by
  cases a with
  | read n => exact ⟨h, h, hat.read_at hv⟩
  | intr event =>
    by_cases htype : event.type = 1
    · have hlt := hfits htype
      rw [hat.head] at hlt
      exact ⟨_, _, (hat.intr htype (by omega)).1⟩
    · refine ⟨h, t, ?_⟩
      simp only [Keyboard.after, keyboardIntr, ne_eq, htype, not_false_eq_true, if_true]
      exact ⟨hat.head, hat.tail, hat.order, hat.lap, hat.bound⟩

theorem Keyboard.At.run (acts : List KeyboardAct) (hat : keyboard.At h t)
    (hv : ∀ a ∈ acts, a.Valid) : Follows keyboard keyboard.contents acts ↔
      AllFit keyboard acts := by
  induction acts generalizing keyboard h t with
  | nil => exact Iff.rfl
  | cons a acts ih =>
    have ha : a.Valid := hv a List.mem_cons_self
    simp only [Follows, AllFit, hat.follows ha]
    apply and_congr_right
    intro hfits
    obtain ⟨h', t', hat'⟩ := hat.after ha hfits
    rw [← ((hat.follows ha).mpr hfits).contents]
    exact ih hat' fun b hb => hv b (List.mem_cons_of_mem _ hb)

/-- The queue is a bounded first-in first-out queue over a run exactly where every read
finds room for all that is pending and the head still on its first lap. -/
theorem keyboard_fifo (buffer : ℤ → KeyboardEvent) (acts : List KeyboardAct)
    (hv : ∀ a ∈ acts, a.Valid) :
    Follows (keyboardInit buffer) [] acts ↔ AllFit (keyboardInit buffer) acts := by
  have hat : (keyboardInit buffer).At 0 0 := ⟨rfl, rfl, le_rfl, by omega, by omega⟩
  exact hat.run acts hv

/-- A key that is pressed and released, with the end of the report between, and another one, in two
reads with room to spare. -/
theorem keyboard_fifo_two_reads : Follows (keyboardInit fun _ => ⟨0, 0, 0⟩) []
    [.intr ⟨1, 30, 1⟩, .intr ⟨0, 0, 0⟩, .intr ⟨1, 30, 0⟩, .read 8, .intr ⟨1, 48, 1⟩, .read 12] := by
  apply (keyboard_fifo _ _ ?_).mpr
  · refine ⟨by decide, by decide, by decide, by decide, by decide, by decide, trivial⟩
  · decide

/-- A read with room for one of two pending events drops the other. -/
theorem keyboard_drops_event : ¬Follows (keyboardInit fun _ => ⟨0, 0, 0⟩) []
    [.intr ⟨1, 30, 1⟩, .intr ⟨1, 30, 0⟩, .read 4, .read 4] := by
  rintro ⟨-, -, hread, -⟩
  have hleft := congrArg List.length hread.contents
  exact absurd hleft (by decide)

end Zrhos.Driver
