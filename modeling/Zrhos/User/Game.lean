import Zrhos.Driver.Keyboard

/-! The snake game of `game.c`: its globals, the generator and the place of the food. The values
of type `int` are integers, and the coordinates stay within the grid. -/
namespace Zrhos.User
open Driver (KeyboardEvent)

/-- `state_t`. -/
structure Segment where
  direction : ℤ
  x : ℤ
  y : ℤ
  deriving DecidableEq, Repr

/-- The screen in nodes. -/
structure Grid where
  nodesPerLine : ℤ
  linesPerScreen : ℤ
  line : 0 < nodesPerLine ∧ nodesPerLine < 2 ^ 31
  screen : 0 < linesPerScreen ∧ linesPerScreen < 2 ^ 31

/-- The globals. What lies behind the 256 elements of `snake` counts as further elements, and
`snakeLen` tells which are in use. -/
structure Game where
  snake : ℕ → Segment
  snakeLen : ℕ
  foodX : ℤ
  foodY : ℤ
  lcgState : BitVec 32

def snakeSize : ℕ := 256

/-- The globals before `main`. -/
def Game.init : Game := ⟨fun _ => ⟨0, 0, 0⟩, 1, 0, 0, 1⟩

/-- `snake[0].direction = direction` if the event has the code. -/
def steer (event : KeyboardEvent) (code : BitVec 8) (direction : ℤ) (g : Game) : Game :=
  if event.code = code then
    { g with snake := Function.update g.snake 0 { g.snake 0 with direction := direction } }
  else g

/-- `none` if the program exits. -/
def updateState (event : KeyboardEvent) (g : Game) : Option Game :=
  if event.type = 1 then
    if event.code = 1 then none
    else
      let g := steer event 103 0 g
      let g := steer event 106 1 g
      let g := steer event 108 2 g
      let g := steer event 105 3 g
      some g
  else some g

def initSnake (g : Game) : Game :=
  { g with
    snake := Function.update (Function.update g.snake 0 ⟨0, 10, 10⟩) 1 ⟨0, 10, 11⟩
    snakeLen := 2 }

def LCG_A : BitVec 32 := 1664525
def LCG_C : BitVec 32 := 1013904223
def LCG_M : BitVec 32 := 0xFFFFFFFF

/-- The new state of the generator is its result. -/
def rand (lcgState : BitVec 32) : BitVec 32 := (LCG_A * lcgState + LCG_C) &&& LCG_M

/-- The sum and the remainder are those of `uint32_t`. -/
def randRange (min max : ℤ) (lcgState : BitVec 32) : ℤ × BitVec 32 :=
  let r := rand lcgState
  ((BitVec.ofInt 32 min + r % BitVec.ofInt 32 (max - min + 1)).toInt, r)

/-- `can` of `random_food`. -/
def can (g : Game) (x y : ℤ) : Bool :=
  (List.range g.snakeLen).all fun i => !((g.snake i).x == x && (g.snake i).y == y)

/-- The loop of `random_food`, at most `fuel` rounds. -/
def randomFoodLoop (x y : ℤ) : ℕ → Game → Option Game
  | 0, _ => none
  | fuel + 1, g =>
    if can g x y then some { g with foodX := x, foodY := y }
    else randomFoodLoop x y fuel g

def randomFood (grid : Grid) (fuel : ℕ) (g : Game) : Option Game :=
  let (x, lcgState) := randRange 0 (grid.nodesPerLine - 1) g.lcgState
  let (y, lcgState) := randRange 0 (grid.linesPerScreen - 1) lcgState
  randomFoodLoop x y fuel { g with lcgState := lcgState }

/-- `snake[i] = snake[i-1]` for `i` from `n` down to 1. -/
def shiftSnake : ℕ → (ℕ → Segment) → ℕ → Segment
  | 0, snake => snake
  | i + 1, snake => shiftSnake i (Function.update snake (i + 1) (snake i))

/-- The four branches for the head. The bound of every direction is the one of a line. -/
def moveHead (grid : Grid) (s : Segment) : Segment :=
  let s := if s.direction = 0 then
      if s.y = 0 then { s with y := grid.nodesPerLine - 1 } else { s with y := s.y - 1 }
    else s
  let s := if s.direction = 1 then
      if s.x = grid.nodesPerLine - 1 then { s with x := 0 } else { s with x := s.x + 1 }
    else s
  let s := if s.direction = 2 then
      if s.y = grid.nodesPerLine - 1 then { s with y := 0 } else { s with y := s.y + 1 }
    else s
  if s.direction = 3 then
    if s.x = 0 then { s with x := grid.nodesPerLine - 1 } else { s with x := s.x - 1 }
  else s

/-- `none` if `random_food` does not come back. -/
def updateSnake (grid : Grid) (fuel : ℕ) (g : Game) : Option Game :=
  let last := g.snake (g.snakeLen - 1)
  let snake := shiftSnake (g.snakeLen - 1) g.snake
  let g := { g with snake := Function.update snake 0 (moveHead grid (snake 0)) }
  if (g.snake 0).x = g.foodX ∧ (g.snake 0).y = g.foodY then
    let g := { g with snakeLen := g.snakeLen + 1 }
    let g := { g with snake := Function.update g.snake (g.snakeLen - 1) last }
    randomFood grid fuel g
  else some g

/-! ### Where the food goes -/

/-- A cell of the grid. -/
def Grid.Inside (grid : Grid) (x y : ℤ) : Prop :=
  (0 ≤ x ∧ x < grid.nodesPerLine) ∧ 0 ≤ y ∧ y < grid.linesPerScreen

instance (grid : Grid) (x y : ℤ) : Decidable (grid.Inside x y) :=
  inferInstanceAs (Decidable (_ ∧ _))

def Game.Occupied (g : Game) (x y : ℤ) : Prop :=
  ∃ i < g.snakeLen, (g.snake i).x = x ∧ (g.snake i).y = y

/-- The next state of the generator. -/
def lcg (s : ℕ) : ℕ := (1664525 * s + 1013904223) % 2 ^ 32

/-- The only cell that the food can get: the next two numbers of the generator. -/
def candidate (grid : Grid) (g : Game) : ℤ × ℤ :=
  (lcg g.lcgState.toNat % grid.nodesPerLine, lcg (lcg g.lcgState.toNat) % grid.linesPerScreen)

/-- The food lies on a free cell of the grid, and the snake is where it was. -/
structure FoodPlaced (grid : Grid) (g g' : Game) : Prop where
  inside : grid.Inside g'.foodX g'.foodY
  free : ¬ g'.Occupied g'.foodX g'.foodY
  snake : g'.snake = g.snake
  snakeLen : g'.snakeLen = g.snakeLen

variable {grid : Grid} {g g' : Game} {fuel : ℕ} {x y : ℤ}

theorem can_iff : can g x y = true ↔ ¬ g.Occupied x y := by
  unfold can Game.Occupied
  rw [List.all_eq_true]
  constructor
  · rintro h ⟨i, hi, hx, hy⟩
    have hfree := h i (List.mem_range.mpr hi)
    simp [hx, hy] at hfree
  · intro h i hi
    have hfree : ¬ (g.snake i).x = x ∨ ¬ (g.snake i).y = y :=
      not_and_or.mp fun hhere => h ⟨i, List.mem_range.mp hi, hhere⟩
    simpa using hfree

theorem rand_toNat (s : BitVec 32) : (rand s).toNat = lcg s.toNat := by
  have hA : LCG_A.toNat = 1664525 := by decide
  have hC : LCG_C.toNat = 1013904223 := by decide
  have hM : LCG_M = BitVec.allOnes 32 := by decide
  rw [rand, hM, BitVec.and_allOnes, BitVec.toNat_add, BitVec.toNat_mul, Nat.mod_add_mod, hA, hC,
    lcg]

/-- Between zero and the largest `int` the arithmetic of `uint32_t` does not wrap around. -/
theorem randRange_eq {n : ℤ} (hn : 0 < n ∧ n < 2 ^ 31) (s : BitVec 32) :
    randRange 0 (n - 1) s = (lcg s.toNat % n, rand s) := by
  have hcount : (BitVec.ofInt 32 (n - 1 - 0 + 1)).toNat = n.toNat := by
    rw [sub_zero, sub_add_cancel, BitVec.toNat_ofInt, Int.emod_eq_of_lt hn.1.le (by omega)]
  have hrest : (rand s % BitVec.ofInt 32 (n - 1 - 0 + 1)).toNat = lcg s.toNat % n.toNat := by
    rw [BitVec.toNat_umod, hcount, rand_toNat]
  have hlt : lcg s.toNat % n.toNat < n.toNat := Nat.mod_lt _ (by omega)
  have hzero : BitVec.ofInt 32 0 = 0#32 := rfl
  rw [randRange, hzero, BitVec.zero_add, BitVec.toInt_eq_toNat_of_lt (by omega), hrest,
    Int.natCast_mod, Int.toNat_of_nonneg hn.1.le]

/-- A round that finds the cell taken changes nothing, so that all rounds are the same. -/
theorem randomFoodLoop_eq : randomFoodLoop x y fuel g =
    if 0 < fuel ∧ can g x y = true then some { g with foodX := x, foodY := y } else none := by
  induction fuel with
  | zero => rw [if_neg fun h => lt_irrefl 0 h.1, randomFoodLoop]
  | succ fuel ih =>
    unfold randomFoodLoop
    by_cases hcan : can g x y = true
    · rw [if_pos hcan, if_pos ⟨Nat.succ_pos fuel, hcan⟩]
    · rw [if_neg hcan, ih, if_neg fun h => hcan h.2, if_neg fun h => hcan h.2]

theorem randomFood_eq : randomFood grid fuel g =
    randomFoodLoop (candidate grid g).1 (candidate grid g).2 fuel
      { g with lcgState := rand (rand g.lcgState) } := by
  rw [randomFood, randRange_eq grid.line]
  dsimp only
  rw [randRange_eq grid.screen, rand_toNat, candidate]

theorem randomFood_eq_some : randomFood grid fuel g = some g' ↔
    (0 < fuel ∧ ¬ g.Occupied (candidate grid g).1 (candidate grid g).2) ∧
      { g with
        lcgState := rand (rand g.lcgState)
        foodX := (candidate grid g).1
        foodY := (candidate grid g).2 } = g' := by
  rw [randomFood_eq, randomFoodLoop_eq, Option.ite_none_right_eq_some, Option.some.injEq, can_iff,
    Game.Occupied, Game.Occupied]

theorem candidate_inside (grid : Grid) (g : Game) :
    grid.Inside (candidate grid g).1 (candidate grid g).2 := by
  have hline := grid.line.1
  have hscreen := grid.screen.1
  exact ⟨⟨Int.emod_nonneg _ hline.ne', Int.emod_lt_of_pos _ hline⟩,
    Int.emod_nonneg _ hscreen.ne', Int.emod_lt_of_pos _ hscreen⟩

theorem randomFood_placed (h : randomFood grid fuel g = some g') : FoodPlaced grid g g' := by
  obtain ⟨⟨-, hfree⟩, rfl⟩ := randomFood_eq_some.mp h
  exact ⟨candidate_inside grid g, hfree, rfl, rfl⟩

/-- `random_food` comes back exactly if the first cell that it draws is free, as it draws no
other one; then the food lies there. -/
theorem random_food_iff (grid : Grid) (g : Game) :
    ((∃ fuel g', randomFood grid fuel g = some g' ∧ FoodPlaced grid g g') ↔
      ¬ g.Occupied (candidate grid g).1 (candidate grid g).2) ∧
    ((∃ fuel g', randomFood grid fuel g = some g') ↔
      ¬ g.Occupied (candidate grid g).1 (candidate grid g).2) := by
  have hends (hfree : ¬ g.Occupied (candidate grid g).1 (candidate grid g).2) :
      ∃ g', randomFood grid 1 g = some g' :=
    ⟨_, randomFood_eq_some.mpr ⟨⟨Nat.one_pos, hfree⟩, rfl⟩⟩
  constructor
  · constructor
    · rintro ⟨fuel, g', h, -⟩
      exact (randomFood_eq_some.mp h).1.2
    · intro hfree
      obtain ⟨g', h⟩ := hends hfree
      exact ⟨1, g', h, randomFood_placed h⟩
  · constructor
    · rintro ⟨fuel, g', h⟩
      exact (randomFood_eq_some.mp h).1.2
    · intro hfree
      exact ⟨1, hends hfree⟩

/-- A snake on the cell that the generator names next, on a grid with free cells: the rounds go
on for ever. -/
theorem random_food_hangs :
    let grid : Grid := ⟨40, 25, by decide, by decide⟩
    let g : Game := { Game.init with snake := fun _ => ⟨0, 28, 17⟩ }
    grid.Inside 0 0 ∧ ¬ g.Occupied 0 0 ∧ ∀ fuel, randomFood grid fuel g = none := by
  intro grid g
  have hcell : candidate grid g = (28, 17) := by decide
  have htaken : g.Occupied (candidate grid g).1 (candidate grid g).2 := by
    rw [hcell]
    exact ⟨0, Nat.one_pos, rfl, rfl⟩
  refine ⟨by decide, ?_, fun fuel => ?_⟩
  · rintro ⟨i, -, hx, -⟩
    have hcolumn : (28 : ℤ) = 0 := hx
    exact absurd hcolumn (by decide)
  · rw [Option.eq_none_iff_forall_ne_some]
    intro g' h
    exact (randomFood_eq_some.mp h).1.2 htaken

end Zrhos.User
