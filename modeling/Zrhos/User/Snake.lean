import Zrhos.User.Game
import Zrhos.Lib.Steps

/-! Where the snake of `game.c` is drawn, and the runs in which it stays on the screen. -/
namespace Zrhos.User
open Driver (KeyboardEvent)
open Steps

def nodeSize : ℕ := 32

/-- A screen by its size in pixels, with at least 12 nodes in both directions. The size of its
frame buffer is an `int` too. -/
structure Screen where
  width : ℤ
  height : ℤ
  wide : 12 ≤ width / nodeSize ∧ width < 2 ^ 31
  high : 12 ≤ height / nodeSize ∧ height < 2 ^ 31
  buffer : width * height * 4 < 2 ^ 31

theorem nodes_of_int {pixels : ℤ} (h : 12 ≤ pixels / nodeSize ∧ pixels < 2 ^ 31) :
    0 < pixels / nodeSize ∧ pixels / nodeSize < 2 ^ 31 := by
  obtain ⟨hmany, hint⟩ := h
  simp only [nodeSize] at *
  omega

/-- `nodes_per_line` and `lines_per_screen` as `main` sets them. -/
def Screen.grid (info : Screen) : Grid where
  nodesPerLine := info.width / nodeSize
  linesPerScreen := info.height / nodeSize
  line := nodes_of_int info.wide
  screen := nodes_of_int info.high

/-! ### Drawing -/

/-- A byte stored in `buf`: the index and the value. -/
abbrev Store := ℤ × ℕ

/-- The four stores for the pixel at the index `i`. -/
def pixel (i : ℤ) (b g r a : ℕ) : List Store := [(i, b), (i + 1, g), (i + 2, r), (i + 3, a)]

def drawNode (info : Screen) (x y : ℤ) (b g r a : ℕ) : List Store :=
  (List.range nodeSize).flatMap fun j : ℕ => (List.range nodeSize).flatMap fun k : ℕ =>
    pixel ((y * nodeSize + j) * info.width * 4 + (x * nodeSize + k) * 4) b g r a

def drawSnake (info : Screen) (g : Game) : List Store :=
  (List.range g.snakeLen).flatMap fun i => drawNode info (g.snake i).x (g.snake i).y 0 0 0 255

def drawFood (info : Screen) (g : Game) : List Store := drawNode info g.foodX g.foodY 255 0 0 255

/-- The stores of `draw_screen` in front of the `write`. -/
def drawScreen (info : Screen) (g : Game) : List Store :=
  ((List.range info.height.toNat).flatMap fun i : ℕ =>
    (List.range info.width.toNat).flatMap fun j : ℕ =>
      pixel (i * info.width * 4 + j * 4) 255 255 255 255) ++ drawSnake info g ++ drawFood info g

/-- An index of the frame buffer. -/
def Screen.InFrame (info : Screen) (i : ℤ) : Prop := 0 ≤ i ∧ i < info.width * info.height * 4

/-! ### Runs -/

/-- An event that `main` has read, or a step of the snake. -/
inductive Turn where
  | key (event : KeyboardEvent)
  | tick
  deriving DecidableEq, Repr

/-- A turn in which `random_food` takes at most `fuel` rounds. -/
def turn (grid : Grid) (fuel : ℕ) (g : Game) : Turn → Option Game
  | .key event => updateState event g
  | .tick => updateSnake grid fuel g

/-- The game when `main` enters its loop. -/
def start (grid : Grid) (fuel : ℕ) : Option Game := randomFood grid fuel (initSnake .init)

/-- The snake and the food are on the screen, the snake is in its array, and what is drawn is
in the frame buffer. -/
structure OnScreen (info : Screen) (g : Game) : Prop where
  snake : ∀ i < g.snakeLen, info.grid.Inside (g.snake i).x (g.snake i).y
  food : info.grid.Inside g.foodX g.foodY
  snakeLen : g.snakeLen ≤ snakeSize
  drawn : ∀ st ∈ drawScreen info g, info.InFrame st.1

/-- The head moves onto the food. -/
def Eats (grid : Grid) (g : Game) : Prop :=
  (moveHead grid (g.snake 0)).x = g.foodX ∧ (moveHead grid (g.snake 0)).y = g.foodY

instance (grid : Grid) (g : Game) : Decidable (Eats grid g) :=
  inferInstanceAs (Decidable (_ ∧ _))

/-- The steps that do not leave the screen: none over the top or the bottom of a screen that is
wider than it is high, and no bite by a snake that fills its array. -/
def Keeps (grid : Grid) (g : Game) : Turn → Prop
  | .key _ => True
  | .tick =>
    ((g.snake 0).direction = 0 → (g.snake 0).y = 0 → grid.nodesPerLine ≤ grid.linesPerScreen) ∧
      ((g.snake 0).direction = 2 → (g.snake 0).y = grid.linesPerScreen - 1 →
        grid.nodesPerLine ≤ grid.linesPerScreen) ∧
      (g.snakeLen = snakeSize → ¬ Eats grid g)

instance (grid : Grid) (g : Game) (a : Turn) : Decidable (Keeps grid g a) := by
  unfold Keeps
  cases a <;> infer_instance

variable {info : Screen} {grid : Grid} {g g' : Game} {fuel : ℕ} {x y : ℤ} {s : Segment}

/-! ### What is drawn -/

theorem pixel_inFrame {row column : ℤ} (hr : 0 ≤ row ∧ row < info.height)
    (hc : 0 ≤ column ∧ column < info.width) {b gr r a : ℕ} {st : Store}
    (h : st ∈ pixel (row * info.width * 4 + column * 4) b gr r a) : info.InFrame st.1 := by
  have hrow : 0 ≤ row * info.width := mul_nonneg hr.1 (by omega)
  have hnext : (row + 1) * info.width ≤ info.height * info.width :=
    mul_le_mul_of_nonneg_right (by omega) (by omega)
  rw [add_mul, one_mul, mul_comm info.height] at hnext
  unfold Screen.InFrame
  simp only [pixel, List.mem_cons, List.not_mem_nil, or_false] at h
  rcases h with rfl | rfl | rfl | rfl <;> dsimp only <;> omega

theorem drawNode_inFrame (h : info.grid.Inside x y) {b gr r a : ℕ} :
    ∀ st ∈ drawNode info x y b gr r a, info.InFrame st.1 := by
  intro st hst
  obtain ⟨j, hj, hst⟩ := List.mem_flatMap.mp hst
  obtain ⟨k, hk, hst⟩ := List.mem_flatMap.mp hst
  rw [List.mem_range] at hj hk
  obtain ⟨⟨hx, hx'⟩, hy, hy'⟩ := h
  refine pixel_inFrame ?_ ?_ hst <;> simp only [Screen.grid, nodeSize] at * <;> omega

theorem drawScreen_inFrame (hsnake : ∀ i < g.snakeLen, info.grid.Inside (g.snake i).x (g.snake i).y)
    (hfood : info.grid.Inside g.foodX g.foodY) : ∀ st ∈ drawScreen info g, info.InFrame st.1 := by
  intro st hst
  rcases List.mem_append.mp hst with hst | hst
  · rcases List.mem_append.mp hst with hst | hst
    · obtain ⟨i, hi, hst⟩ := List.mem_flatMap.mp hst
      obtain ⟨j, hj, hst⟩ := List.mem_flatMap.mp hst
      rw [List.mem_range] at hi hj
      exact pixel_inFrame (by omega) (by omega) hst
    · obtain ⟨i, hi, hst⟩ := List.mem_flatMap.mp hst
      exact drawNode_inFrame (hsnake i (List.mem_range.mp hi)) st hst
  · exact drawNode_inFrame hfood st hst

/-! ### What a turn does -/

theorem shiftSnake_eq (n : ℕ) (snake : ℕ → Segment) (j : ℕ) :
    shiftSnake n snake j = if 0 < j ∧ j ≤ n then snake (j - 1) else snake j := by
  induction n generalizing snake with
  | zero => rw [shiftSnake, if_neg (by omega)]
  | succ n ih =>
    rw [shiftSnake, ih]
    by_cases hj : 0 < j ∧ j ≤ n
    · rw [if_pos hj, if_pos (by omega), Function.update_of_ne (by omega)]
    · rw [if_neg hj]
      by_cases hlast : j = n + 1
      · subst hlast
        rw [Function.update_self, if_pos (by omega), Nat.add_sub_cancel]
      · rw [Function.update_of_ne hlast, if_neg (by omega)]

theorem moveHead_up (h : s.direction = 0) :
    moveHead grid s = { s with y := if s.y = 0 then grid.nodesPerLine - 1 else s.y - 1 } := by
  unfold moveHead
  split_ifs <;> simp_all

theorem moveHead_right (h : s.direction = 1) :
    moveHead grid s = { s with x := if s.x = grid.nodesPerLine - 1 then 0 else s.x + 1 } := by
  unfold moveHead
  split_ifs <;> simp_all

theorem moveHead_down (h : s.direction = 2) :
    moveHead grid s = { s with y := if s.y = grid.nodesPerLine - 1 then 0 else s.y + 1 } := by
  unfold moveHead
  split_ifs <;> simp_all

theorem moveHead_left (h : s.direction = 3) :
    moveHead grid s = { s with x := if s.x = 0 then grid.nodesPerLine - 1 else s.x - 1 } := by
  unfold moveHead
  split_ifs <;> simp_all

theorem moveHead_other (h0 : s.direction ≠ 0) (h1 : s.direction ≠ 1) (h2 : s.direction ≠ 2)
    (h3 : s.direction ≠ 3) : moveHead grid s = s := by
  simp only [moveHead, h0, h1, h2, h3, ↓reduceIte]

/-- The head stays on a screen that is not wider than high, and on a wider one as long as it
does not leave over the top or the bottom. -/
theorem moveHead_inside (hin : grid.Inside s.x s.y) (hline : s.y < grid.nodesPerLine)
    (htop : s.direction = 0 → s.y = 0 → grid.nodesPerLine ≤ grid.linesPerScreen)
    (hbottom : s.direction = 2 → s.y = grid.linesPerScreen - 1 →
      grid.nodesPerLine ≤ grid.linesPerScreen) :
    grid.Inside (moveHead grid s).x (moveHead grid s).y ∧
      (moveHead grid s).y < grid.nodesPerLine := by
  obtain ⟨⟨hx, hx'⟩, hy, hy'⟩ := hin
  unfold Grid.Inside
  by_cases h0 : s.direction = 0
  · have htop := htop h0
    rw [moveHead_up h0]
    dsimp only
    split_ifs <;> omega
  by_cases h1 : s.direction = 1
  · rw [moveHead_right h1]
    dsimp only
    split_ifs <;> omega
  by_cases h2 : s.direction = 2
  · have hbottom := hbottom h2
    rw [moveHead_down h2]
    dsimp only
    split_ifs <;> omega
  by_cases h3 : s.direction = 3
  · rw [moveHead_left h3]
    dsimp only
    split_ifs <;> omega
  · rw [moveHead_other h0 h1 h2 h3]
    exact ⟨⟨⟨hx, hx'⟩, hy, hy'⟩, hline⟩

/-- A wider screen is left over the top and the bottom. -/
theorem moveHead_leaves (hwide : grid.linesPerScreen < grid.nodesPerLine)
    (h : s.direction = 0 ∧ s.y = 0 ∨ s.direction = 2 ∧ s.y = grid.linesPerScreen - 1) :
    grid.linesPerScreen ≤ (moveHead grid s).y := by
  rcases h with ⟨hd, hy⟩ | ⟨hd, hy⟩
  · rw [moveHead_up hd]
    dsimp only
    rw [if_pos hy]
    omega
  · rw [moveHead_down hd]
    dsimp only
    rw [if_neg (by omega)]
    omega

/-- What a keyboard event leaves as it is. -/
structure SameCells (g g' : Game) : Prop where
  snakeLen : g'.snakeLen = g.snakeLen
  food : g'.foodX = g.foodX ∧ g'.foodY = g.foodY
  snake : ∀ i, (g'.snake i).x = (g.snake i).x ∧ (g'.snake i).y = (g.snake i).y

theorem SameCells.refl (g : Game) : SameCells g g := ⟨rfl, ⟨rfl, rfl⟩, fun _ => ⟨rfl, rfl⟩⟩

theorem SameCells.steer (h : SameCells g g') (event : KeyboardEvent) (code : BitVec 8)
    (direction : ℤ) : SameCells g (steer event code direction g') := by
  unfold User.steer
  split_ifs
  · refine ⟨h.snakeLen, h.food, fun i => ?_⟩
    by_cases hi : i = 0
    · subst hi
      simpa only [Function.update_self] using h.snake 0
    · simpa only [Function.update_of_ne hi] using h.snake i
  · exact h

theorem updateState_cells {event : KeyboardEvent} (h : updateState event g = some g') :
    SameCells g g' := by
  unfold updateState at h
  split_ifs at h
  · cases h
    exact ((((SameCells.refl g).steer event 103 0).steer event 106 1).steer event 108 2).steer
      event 105 3
  · cases h
    exact SameCells.refl g

/-- What a step of the snake leaves: every segment where the one in front of it was, and a
further one behind a snake that has eaten. -/
structure Moved (grid : Grid) (g g' : Game) : Prop where
  head : g'.snake 0 = moveHead grid (g.snake 0)
  body : ∀ i, i + 1 < g'.snakeLen → g'.snake (i + 1) = g.snake i
  rest : Eats grid g ∧ g'.snakeLen = g.snakeLen + 1 ∧ grid.Inside g'.foodX g'.foodY ∨
    ¬ Eats grid g ∧ g'.snakeLen = g.snakeLen ∧ g'.foodX = g.foodX ∧ g'.foodY = g.foodY

theorem updateSnake_moved (hlen : 0 < g.snakeLen) (h : updateSnake grid fuel g = some g') :
    Moved grid g g' := by
  have hfront : shiftSnake (g.snakeLen - 1) g.snake 0 = g.snake 0 := by
    rw [shiftSnake_eq, if_neg (by omega)]
  have hshift (i : ℕ) (hi : i + 1 < g.snakeLen) :
      shiftSnake (g.snakeLen - 1) g.snake (i + 1) = g.snake i := by
    rw [shiftSnake_eq, if_pos (by omega), Nat.add_sub_cancel]
  unfold updateSnake at h
  simp only [hfront, Function.update_self] at h
  split_ifs at h with heat
  · have hplaced := randomFood_placed h
    have hsnake := hplaced.snake
    have hcount := hplaced.snakeLen
    dsimp only at hsnake hcount
    rw [Nat.add_sub_cancel] at hsnake
    refine ⟨?_, fun i hi => ?_, .inl ⟨heat, hcount, hplaced.inside⟩⟩
    · rw [hsnake, Function.update_of_ne (by omega), Function.update_self]
    · rw [hsnake]
      by_cases hlast : i + 1 = g.snakeLen
      · rw [hlast, Function.update_self, ← hlast, Nat.add_sub_cancel]
      · rw [Function.update_of_ne hlast, Function.update_of_ne (by omega), hshift i (by omega)]
  · cases h
    refine ⟨?_, fun i hi => ?_, .inr ⟨heat, rfl, rfl, rfl⟩⟩
    · dsimp only
      rw [Function.update_self]
    · dsimp only
      rw [Function.update_of_ne (by omega)]
      exact hshift i hi

/-! ### What holds along a run -/

/-- The invariant: besides, the head is in a line that the wrap-around knows. -/
structure Sound (grid : Grid) (g : Game) : Prop where
  snake : ∀ i < g.snakeLen, grid.Inside (g.snake i).x (g.snake i).y
  food : grid.Inside g.foodX g.foodY
  snakeLen : 0 < g.snakeLen ∧ g.snakeLen ≤ snakeSize
  line : (g.snake 0).y < grid.nodesPerLine

theorem Sound.onScreen (h : Sound info.grid g) : OnScreen info g :=
  ⟨h.snake, h.food, h.snakeLen.2, drawScreen_inFrame h.snake h.food⟩

theorem Sound.key (h : Sound grid g) (hsame : SameCells g g') : Sound grid g' := by
  refine ⟨fun i hi => ?_, ?_, ?_, ?_⟩
  · rw [(hsame.snake i).1, (hsame.snake i).2]
    exact h.snake i (hsame.snakeLen ▸ hi)
  · rw [hsame.food.1, hsame.food.2]
    exact h.food
  · rw [hsame.snakeLen]
    exact h.snakeLen
  · rw [(hsame.snake 0).2]
    exact h.line

theorem Sound.tick (h : Sound grid g) (hk : Keeps grid g .tick) (hm : Moved grid g g') :
    Sound grid g' := by
  obtain ⟨htop, hbottom, hfull⟩ := hk
  obtain ⟨hhead, hline⟩ := moveHead_inside (h.snake 0 h.snakeLen.1) h.line htop hbottom
  have hcount : g'.snakeLen ≤ g.snakeLen + 1 := by
    rcases hm.rest with ⟨-, hlen, -⟩ | ⟨-, hlen, -⟩ <;> omega
  refine ⟨fun i hi => ?_, ?_, ?_, hm.head ▸ hline⟩
  · cases i with
    | zero =>
      rw [hm.head]
      exact hhead
    | succ i =>
      rw [hm.body i hi]
      exact h.snake i (by omega)
  · rcases hm.rest with ⟨-, -, hfood⟩ | ⟨-, -, hx, hy⟩
    · exact hfood
    · rw [hx, hy]
      exact h.food
  · have hlen := h.snakeLen
    rcases hm.rest with ⟨heat, hlen', -⟩ | ⟨-, hlen', -⟩
    · have hroom : g.snakeLen ≠ snakeSize := fun hf => hfull hf heat
      omega
    · omega

theorem Sound.turn {a : Turn} (h : Sound grid g) (hk : Keeps grid g a)
    (hs : turn grid fuel g a = some g') : Sound grid g' := by
  cases a with
  | key event => exact h.key (updateState_cells hs)
  | tick => exact h.tick hk (updateSnake_moved h.snakeLen.1 hs)

/-- Every other step leaves the screen or the array. -/
theorem Sound.keeps {a : Turn} (h : Sound info.grid g) (hs : User.turn info.grid fuel g a = some g')
    (hon : OnScreen info g') : Keeps info.grid g a := by
  cases a with
  | key event => trivial
  | tick =>
    have hm := updateSnake_moved h.snakeLen.1 hs
    have hlen := hon.snakeLen
    have hpos : 0 < g'.snakeLen := by
      rcases hm.rest with ⟨-, hlen', -⟩ | ⟨-, hlen', -⟩ <;> have := h.snakeLen.1 <;> omega
    have hhead := (hon.snake 0 hpos).2.2
    rw [hm.head] at hhead
    refine ⟨fun hd hy => ?_, fun hd hy => ?_, fun hfull heat => ?_⟩
    · by_contra hwide
      exact absurd (moveHead_leaves (not_le.mp hwide) (.inl ⟨hd, hy⟩)) (not_le.mpr hhead)
    · by_contra hwide
      exact absurd (moveHead_leaves (not_le.mp hwide) (.inr ⟨hd, hy⟩)) (not_le.mpr hhead)
    · rcases hm.rest with ⟨-, hlen', -⟩ | ⟨hno, -⟩
      · omega
      · exact hno heat

theorem start_sound (info : Screen) (h : start info.grid fuel = some g) : Sound info.grid g := by
  have hplaced := randomFood_placed h
  have hline : 12 ≤ info.grid.nodesPerLine := info.wide.1
  have hscreen : 12 ≤ info.grid.linesPerScreen := info.high.1
  have hlen : g.snakeLen = 2 := hplaced.snakeLen
  have hhead : g.snake 0 = ⟨0, 10, 10⟩ := by rw [hplaced.snake]; rfl
  have htail : g.snake 1 = ⟨0, 10, 11⟩ := by rw [hplaced.snake]; rfl
  refine ⟨fun i hi => ?_, hplaced.inside, ?_, ?_⟩
  · rw [hlen] at hi
    unfold Grid.Inside
    interval_cases i
    · rw [hhead]
      dsimp only
      omega
    · rw [htail]
      dsimp only
      omega
  · rw [hlen]
    decide
  · rw [hhead]
    dsimp only
    omega

/-- As long as no step goes over the top or the bottom of a screen that is wider than high, and
no snake of 256 segments eats, the snake and the food stay on the screen, the snake in its array
and the drawing in the frame buffer. The first step that does one of these things leaves
them. -/
theorem snake_stays_on_screen {g₀ : Game} (hstart : start info.grid fuel = some g₀)
    (hr : Reached (turn info.grid fuel) (Keeps info.grid) g₀ g) :
    OnScreen info g ∧ ∀ a g', turn info.grid fuel g a = some g' →
      (OnScreen info g' ↔ Keeps info.grid g a) := by
  have hsound : Sound info.grid g :=
    hr.invariant (start_sound info hstart) fun _ _ _ h hk hs => h.turn hk hs
  refine ⟨hsound.onScreen, fun a g' hs => ⟨hsound.keeps hs, fun hk => ?_⟩⟩
  exact (hsound.turn hk hs).onScreen

/-- A screen of 40 by 25 nodes. -/
def landscape : Screen := ⟨1280, 800, by decide, by decide, by decide⟩

theorem snake_stays_on_landscape : ∃ g₀ g, start landscape.grid 1 = some g₀ ∧
    after (turn landscape.grid 1) (Keeps landscape.grid) g₀ [.key ⟨1, 106, 1⟩, .tick] = some g ∧
      OnScreen landscape g := by
  have hrun : ((start landscape.grid 1).bind fun g₀ =>
      after (turn landscape.grid 1) (Keeps landscape.grid) g₀
        [.key ⟨1, 106, 1⟩, .tick]).isSome = true := by decide +kernel
  obtain ⟨g, hg⟩ := Option.isSome_iff_exists.mp hrun
  obtain ⟨g₀, hstart, hafter⟩ := Option.bind_eq_some_iff.mp hg
  exact ⟨g₀, g, hstart, hafter, (snake_stays_on_screen hstart (reached_after hafter)).1⟩

/-- Without any key the snake goes up from line 10, and its eleventh step takes it from line 0
to line 39 of the 25. -/
theorem snake_leaves_landscape : ∃ g₀ g, start landscape.grid 1 = some g₀ ∧
    after (turn landscape.grid 1) anyStep g₀ (List.replicate 11 .tick) = some g ∧
      ¬ OnScreen landscape g := by
  have hrun : ((start landscape.grid 1).bind fun g₀ =>
      (after (turn landscape.grid 1) anyStep g₀ (List.replicate 11 .tick)).map fun g =>
        (g.snakeLen, (g.snake 0).y)) = some (2, 39) := by decide +kernel
  obtain ⟨g₀, hstart, hmap⟩ := Option.bind_eq_some_iff.mp hrun
  obtain ⟨g, hafter, hg⟩ := Option.map_eq_some_iff.mp hmap
  obtain ⟨hlen, hy⟩ := Prod.mk.inj hg
  refine ⟨g₀, g, hstart, hafter, fun hon => ?_⟩
  have hline : (g.snake 0).y < 25 := (hon.snake 0 (by omega)).2.2
  omega

end Zrhos.User
