import Zrhos.Lib.Ring

/-! The rings of `virtio.h` that a driver shares with its device. -/
namespace Zrhos.Driver

/-- The number of descriptors of a queue. -/
def NUM : ℕ := 64

def VRING_DESC_F_NEXT : ℕ := 1

def VRING_DESC_F_WRITE : ℕ := 2

/-- `idx` counts the entries that the driver has offered. -/
structure VirtqAvail where
  idx : BitVec 16
  ring : ℕ → BitVec 16

/-- `idx` counts the entries that the device has published. -/
structure VirtqUsed where
  idx : BitVec 16
  ring : ℕ → BitVec 32

theorem NUM_dvd : NUM ∣ 2 ^ 16 := ⟨1024, rfl⟩

/-- The entry that a write behind a counter leaves in the slot of an earlier count. -/
theorem update_slot {α : Type} {ring : ℕ → α} {x y : ℕ} {a : α} (hx : x < y)
    (hy : y < x + NUM) : Function.update ring (y % NUM) a (x % NUM) = ring (x % NUM) :=
  Function.update_of_ne (Ring.mod_ne hx hy) _ _

end Zrhos.Driver
