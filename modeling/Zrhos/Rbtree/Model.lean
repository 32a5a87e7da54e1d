import Zrhos.Lib.RedBlack

/-! The red-black trees of `rbtree.c`: the nodes by their addresses, each field a function of
the address. Loops take fuel: `fuel` those that go along a path, `rounds` those that come by
nodes one after the other. -/
namespace Zrhos.Rbtree
open RedBlack

/-- The fields of all `rb_node`s, those of the head node included. -/
structure Mem where
  parent : ℕ → ℕ
  child : Side → ℕ → ℕ
  color : ℕ → Color
  isnil : ℕ → Bool

namespace Mem

abbrev left (m : Mem) (p : ℕ) : ℕ := m.child .left p

abbrev right (m : Mem) (p : ℕ) : ℕ := m.child .right p

def setParent (m : Mem) (p v : ℕ) : Mem := { m with parent := Function.update m.parent p v }

def setChild (m : Mem) (d : Side) (p v : ℕ) : Mem :=
  { m with child := Function.update m.child d (Function.update (m.child d) p v) }

def setColor (m : Mem) (p : ℕ) (c : Color) : Mem :=
  { m with color := Function.update m.color p c }

def setIsnil (m : Mem) (p : ℕ) (b : Bool) : Mem :=
  { m with isnil := Function.update m.isnil p b }

end Mem

/-! ### Neighbours -/

/-- `node_min` and `node_max`: as far down as one gets on a side. -/
def nodeEnd (d : Side) (m : Mem) : ℕ → ℕ → Option ℕ
  | 0, _ => none
  | fuel + 1, node =>
    if m.isnil (m.child d node) then some node else nodeEnd d m fuel (m.child d node)

def nodeMin := nodeEnd .left

def nodeMax := nodeEnd .right

/-- The loop of `node_prev` and `node_next`: up while the node is the child on side `d`. Gives
the last node and its parent. -/
def climb (d : Side) (m : Mem) : ℕ → ℕ → Option (ℕ × ℕ)
  | 0, _ => none
  | fuel + 1, node =>
    let parent := m.parent node
    if ¬ m.isnil parent ∧ node = m.child d parent then climb d m fuel parent
    else some (node, parent)

def nodePrev (m : Mem) (fuel node : ℕ) : Option ℕ :=
  if m.isnil node then some (m.right node)
  else if m.isnil (m.left node) then
    (climb .left m fuel node).map fun (node, parent) => if m.isnil node then node else parent
  else nodeMax m fuel (m.left node)

def nodeNext (m : Mem) (fuel node : ℕ) : Option ℕ :=
  if m.isnil (m.right node) then (climb .right m fuel node).map Prod.snd
  else nodeMin m fuel (m.right node)

/-! ### Rotations -/

/-- `impl_rotate_left` and `impl_rotate_right`. -/
def rotate (d : Side) (m : Mem) (head node : ℕ) : Mem :=
  let root := m.child d.flip node
  let m := m.setChild d.flip node (m.child d root)
  let m := if m.isnil (m.child d root) then m else m.setParent (m.child d root) node
  let m := m.setParent root (m.parent node)
  let m :=
    if node = m.parent head then m.setParent head root
    else if node = m.child d (m.parent node) then m.setChild d (m.parent node) root
    else m.setChild d.flip (m.parent node) root
  let m := m.setChild d root node
  m.setParent node root

def rotateLeft := rotate .left

def rotateRight := rotate .right

/-! ### Bounds -/

/-- The loop of `impl_lbnd` and `impl_ubnd`; `after node` says that the bound lies behind the
node. -/
def bound (after : ℕ → Bool) (m : Mem) : ℕ → ℕ → ℕ → Option ℕ
  | 0, _, _ => none
  | fuel + 1, parent, node =>
    if m.isnil node then some parent
    else if after node then bound after m fuel parent (m.right node)
    else bound after m fuel node (m.left node)

/-- The compare function of the user, on addresses. -/
abbrev Comp := ℕ → ℕ → Bool

def lbnd (comp : Comp) (m : Mem) (head fuel val : ℕ) : Option ℕ :=
  bound (fun node => comp node val) m fuel head (m.parent head)

def ubnd (comp : Comp) (m : Mem) (head fuel val : ℕ) : Option ℕ :=
  bound (fun node => !comp val node) m fuel head (m.parent head)

/-- The first loop of `impl_eqrange`, with `begin` and `end`. -/
def eqrangeLoop (comp : Comp) (m : Mem) (val : ℕ) : ℕ → ℕ → ℕ → ℕ → Option (ℕ × ℕ)
  | 0, _, _, _ => none
  | fuel + 1, first, last, node =>
    if m.isnil node then some (first, last)
    else if comp node val then eqrangeLoop comp m val fuel first last (m.right node)
    else
      let last := if m.isnil last ∧ comp val node then node else last
      eqrangeLoop comp m val fuel node last (m.left node)

/-- `impl_eqrange`; its second loop is that of `impl_ubnd`. -/
def eqrange (comp : Comp) (m : Mem) (head fuel val : ℕ) : Option (ℕ × ℕ) :=
  (eqrangeLoop comp m val fuel head head (m.parent head)).bind fun (first, last) =>
    let node := if m.isnil last then m.parent head else m.left last
    (bound (fun node => !comp val node) m fuel last node).map fun last => (first, last)

/-! ### `rb_erase` -/

structure Tree where
  mem : Mem
  head : ℕ
  size : ℕ

/-- A round of the loop of `rb_erase_node` where `fixnode` is the child of `fixparent` on side
`d`, in three parts. The last one colors the sibling `pnode` and turns it up. -/
def eraseTurn (d : Side) (m : Mem) (head fixparent pnode : ℕ) : Mem :=
  let m := m.setColor pnode (m.color fixparent)
  let m := m.setColor fixparent .BLACK
  let m := m.setColor (m.child d.flip pnode) .BLACK
  rotate d m head fixparent

/-- The round once the sibling is not red: the memory, `fixnode`, and whether the loop goes
on. -/
def eraseBlack (d : Side) (m : Mem) (head fixnode fixparent pnode : ℕ) : Mem × ℕ × Bool :=
  if m.isnil pnode then (m, fixparent, true)
  else if m.color (m.child d pnode) = .BLACK ∧ m.color (m.child d.flip pnode) = .BLACK then
    (m.setColor pnode .RED, fixparent, true)
  else if m.color (m.child d.flip pnode) = .BLACK then
    let m := m.setColor (m.child d pnode) .BLACK
    let m := m.setColor pnode .RED
    let m := rotate d.flip m head pnode
    (eraseTurn d m head fixparent (m.child d.flip fixparent), fixnode, false)
  else (eraseTurn d m head fixparent pnode, fixnode, false)

def eraseRound (d : Side) (m : Mem) (head fixnode fixparent : ℕ) : Mem × ℕ × Bool :=
  let pnode := m.child d.flip fixparent
  if m.color pnode = .RED then
    let m := m.setColor pnode .BLACK
    let m := m.setColor fixparent .RED
    let m := rotate d m head fixparent
    eraseBlack d m head fixnode fixparent (m.child d.flip fixparent)
  else eraseBlack d m head fixnode fixparent pnode

/-- The loop of `rb_erase_node`, with the assignment behind it. -/
def eraseFix (head : ℕ) : ℕ → Mem → ℕ → ℕ → Option Mem
  | 0, _, _, _ => none
  | fuel + 1, m, fixnode, fixparent =>
    if fixnode ≠ m.parent head ∧ m.color fixnode = .BLACK then
      let d := if fixnode = m.left fixparent then Side.left else Side.right
      match eraseRound d m head fixnode fixparent with
      | (m, fixnode, true) => eraseFix head fuel m fixnode (m.parent fixnode)
      | (m, fixnode, false) => some (m.setColor fixnode .BLACK)
    else some (m.setColor fixnode .BLACK)

/-- `rb_erase_node` where it puts another node below the parent of the erased one. -/
def relink (m : Mem) (head erased node : ℕ) : Mem :=
  if m.parent head = erased then m.setParent head node
  else if m.left (m.parent erased) = erased then m.setChild .left (m.parent erased) node
  else m.setChild .right (m.parent erased) node

/-- The new first or last node, where the erased one was it. -/
def unlinkEnd (d : Side) (m : Mem) (head fuel erased fixnode fixparent : ℕ) : Option Mem :=
  if m.child d head = erased then
    if m.isnil fixnode then some (m.setChild d head fixparent)
    else (nodeEnd d m fuel fixnode).map fun v => m.setChild d head v
  else some m

def hoist (m : Mem) (head erased fixnode : ℕ) : Mem :=
  let fixparent := m.parent erased
  let m := if m.isnil fixnode then m else m.setParent fixnode fixparent
  relink m head erased fixnode

/-- `rb_erase_node` where the node has a child at most: `fixnode` takes its place. Gives the
memory and `fixparent`. -/
def unlinkOne (m : Mem) (head fuel erased fixnode : ℕ) : Option (Mem × ℕ) :=
  let fixparent := m.parent erased
  let m := hoist m head erased fixnode
  (unlinkEnd .left m head fuel erased fixnode fixparent).bind fun m =>
    (unlinkEnd .right m head fuel erased fixnode fixparent).map fun m => (m, fixparent)

/-- `rb_erase_node` where the node has two children, up to the place of the erased node: `pnode`,
the next one, gets its children, and `fixnode` the place of `pnode`. Gives the memory and
`fixparent`. -/
def moveNext (m : Mem) (erased pnode fixnode : ℕ) : Mem × ℕ :=
  let m := m.setParent (m.left erased) pnode
  let m := m.setChild .left pnode (m.left erased)
  if pnode = m.right erased then (m, pnode)
  else
    let fixparent := m.parent pnode
    let m := if m.isnil fixnode then m else m.setParent fixnode fixparent
    let m := m.setChild .left fixparent fixnode
    let m := m.setChild .right pnode (m.right erased)
    let m := m.setParent (m.right erased) pnode
    (m, fixparent)

def unlinkTwo (m : Mem) (head erased pnode fixnode : ℕ) : Mem × ℕ :=
  let (m, fixparent) := moveNext m erased pnode fixnode
  let m := relink m head erased pnode
  let m := m.setParent pnode (m.parent erased)
  let tmp := m.color pnode
  let m := m.setColor pnode (m.color erased)
  let m := m.setColor erased tmp
  (m, fixparent)

/-- `rb_erase_node` once the node is out of the links. -/
def eraseFinish (fuel : ℕ) (rb : Tree) (erased : ℕ) (m : Mem) (fixnode fixparent : ℕ) :
    Option Tree :=
  (if m.color erased = .BLACK then eraseFix rb.head fuel m fixnode fixparent else some m).map
    fun m => ⟨m, rb.head, rb.size - 1⟩

/-- `rb_erase_node`: the tree and the node behind the erased one. -/
def eraseNode (fuel : ℕ) (rb : Tree) (erased : ℕ) : Option (Tree × ℕ) :=
  let m := rb.mem
  (nodeNext m fuel erased).bind fun node =>
    let rb' :=
      if m.isnil (m.left erased) then
        let fixnode := m.right erased
        (unlinkOne m rb.head fuel erased fixnode).bind fun (m, fixparent) =>
          eraseFinish fuel rb erased m fixnode fixparent
      else if m.isnil (m.right erased) then
        let fixnode := m.left erased
        (unlinkOne m rb.head fuel erased fixnode).bind fun (m, fixparent) =>
          eraseFinish fuel rb erased m fixnode fixparent
      else
        let fixnode := m.right node
        let (m, fixparent) := unlinkTwo m rb.head erased node fixnode
        eraseFinish fuel rb erased m fixnode fixparent
    rb'.map fun rb => (rb, node)

/-! ### `rb_insert` -/

/-- A round of the loop of `impl_node_insert` where the parent is the child of its parent on
side `d`: the memory and `pnode`. -/
def insertRound (d : Side) (m : Mem) (head pnode : ℕ) : Mem × ℕ :=
  let pos := m.child d.flip (m.parent (m.parent pnode))
  if m.color pos = .RED then
    let m := m.setColor (m.parent pnode) .BLACK
    let m := m.setColor pos .BLACK
    let m := m.setColor (m.parent (m.parent pnode)) .RED
    (m, m.parent (m.parent pnode))
  else
    let (m, pnode) :=
      if pnode = m.child d.flip (m.parent pnode) then
        (rotate d m head (m.parent pnode), m.parent pnode)
      else (m, pnode)
    let m := m.setColor (m.parent pnode) .BLACK
    let m := m.setColor (m.parent (m.parent pnode)) .RED
    (rotate d.flip m head (m.parent (m.parent pnode)), pnode)

/-- The loop of `impl_node_insert`, with the assignment behind it. -/
def insertFix (head : ℕ) : ℕ → Mem → ℕ → Option Mem
  | 0, _, _ => none
  | fuel + 1, m, pnode =>
    if m.color (m.parent pnode) = .RED then
      let d := if m.parent pnode = m.left (m.parent (m.parent pnode)) then Side.left
        else Side.right
      let (m, pnode) := insertRound d m head pnode
      insertFix head fuel m pnode
    else some (m.setColor (m.parent head) .BLACK)

/-- `impl_node_insert` in front of its loop: the node hangs below `pos`. -/
def hangNode (m : Mem) (head node pos : ℕ) (addleft : Bool) : Mem :=
  let m := m.setParent node pos
  if pos = head then
    let m := m.setParent head node
    let m := m.setChild .left head node
    m.setChild .right head node
  else if addleft then
    let m := m.setChild .left pos node
    if pos = m.left head then m.setChild .left head node else m
  else
    let m := m.setChild .right pos node
    if pos = m.right head then m.setChild .right head node else m

def implNodeInsert (fuel : ℕ) (rb : Tree) (node pos : ℕ) (addleft : Bool) : Option Tree :=
  (insertFix rb.head fuel (hangNode rb.mem rb.head node pos addleft) node).map fun m =>
    ⟨m, rb.head, rb.size + 1⟩

/-- The loop of `rb_insert_node`: `position` and `addleft`. -/
def descend (goleft : ℕ → Bool) (m : Mem) : ℕ → ℕ → Bool → ℕ → Option (ℕ × Bool)
  | 0, _, _, _ => none
  | fuel + 1, position, addleft, res =>
    if m.isnil res then some (position, addleft)
    else
      let addleft := goleft res
      descend goleft m fuel res addleft (if addleft then m.left res else m.right res)

/-- `rb_insert_node` as `rb_insert` calls it (`left` is 0): the tree, the node that is in it, and
`*out`. -/
def insertNode (comp : Comp) (multi : Bool) (fuel : ℕ) (rb : Tree) (node : ℕ) :
    Option (Tree × ℕ × Bool) :=
  let m := rb.mem
  (descend (fun res => comp node res) m fuel rb.head true (m.parent rb.head)).bind
    fun (position, addleft) =>
      let add := (implNodeInsert fuel rb node position addleft).map fun rb => (rb, node, true)
      if multi then add
      else if addleft ∧ position = m.left rb.head then add
      else
        let pos := if addleft then nodePrev m fuel position else some position
        pos.bind fun pos => if comp pos node then add else some (rb, pos, false)

def nodeInit (m : Mem) (node head : ℕ) : Mem :=
  let m := m.setParent node head
  let m := m.setChild .left node head
  let m := m.setChild .right node head
  let m := m.setColor node .RED
  m.setIsnil node false

def headInit (m : Mem) (head : ℕ) : Mem :=
  let m := m.setParent head head
  let m := m.setChild .left head head
  let m := m.setChild .right head head
  let m := m.setColor head .BLACK
  m.setIsnil head true

def rbInsert (comp : Comp) (multi : Bool) (fuel : ℕ) (rb : Tree) (node : ℕ) :
    Option (Tree × ℕ × Bool) :=
  insertNode comp multi fuel { rb with mem := nodeInit rb.mem node rb.head } node

/-! ### The rest of the interface -/

def rbInit (m : Mem) (head : ℕ) : Tree := ⟨headInit m head, head, 0⟩

def rbClear (rb : Tree) : Tree := ⟨headInit rb.mem rb.head, rb.head, 0⟩

def rbErase := eraseNode

def rbFind (comp : Comp) (rb : Tree) (fuel val : ℕ) : Option ℕ :=
  (lbnd comp rb.mem rb.head fuel val).map fun fr =>
    if fr = rb.head ∨ comp val fr then rb.head else fr

/-- The loop of `rb_clear_free`, with the nodes that are freed. `freef` works on the fields of the
nodes and on whatever else it has, of type `σ`. -/
def clearLoop {σ : Type} (freef : σ → Mem → ℕ → σ × Mem) (fuel : ℕ) :
    ℕ → σ → Tree → ℕ → List ℕ → Option (σ × Tree × List ℕ)
  | 0, _, _, _, _ => none
  | rounds + 1, s, rb, node, freed =>
    if node = rb.head then some (s, rb, freed)
    else
      (nodeNext rb.mem fuel node).bind fun next =>
        (eraseNode fuel rb node).bind fun (rb, _) =>
          let (s, m) := freef s rb.mem node
          clearLoop freef fuel rounds s { rb with mem := m } next (freed ++ [node])

def rbClearFree {σ : Type} (freef : σ → Mem → ℕ → σ × Mem) (fuel rounds : ℕ) (s : σ) (rb : Tree) :
    Option (σ × Tree × List ℕ) :=
  if rb.size = 0 then some (s, rb, [])
  else (clearLoop freef fuel rounds s rb (rb.mem.left rb.head) []).map fun (s, rb, freed) =>
    (s, rbClear rb, freed)

/-- The loop of `rb_erase_range` and `rb_erase_rgcnt`. -/
def eraseLoop (fuel : ℕ) (stop : ℕ) : ℕ → Tree → ℕ → ℕ → Option (Tree × ℕ × ℕ)
  | 0, _, _, _ => none
  | rounds + 1, rb, start, dist =>
    if start = stop then some (rb, start, dist)
    else (eraseNode fuel rb start).bind fun (rb, start) =>
      eraseLoop fuel stop rounds rb start (dist + 1)

def rbEraseRange (fuel rounds : ℕ) (rb : Tree) (start stop : ℕ) : Option (Tree × ℕ) :=
  if start = rb.mem.left rb.head ∧ stop = rb.head then
    let rb := rbClear rb
    some (rb, rb.mem.left rb.head)
  else (eraseLoop fuel stop rounds rb start 0).map fun (rb, start, _) => (rb, start)

def rbEraseRgcnt (fuel rounds : ℕ) (rb : Tree) (start stop : ℕ) : Option (Tree × ℕ) :=
  if start = rb.mem.left rb.head ∧ stop = rb.head then some (rbClear rb, rb.size)
  else (eraseLoop fuel stop rounds rb start 0).map fun (rb, _, dist) => (rb, dist)

def rbEraseVal (comp : Comp) (fuel rounds : ℕ) (rb : Tree) (val : ℕ) : Option (Tree × ℕ) :=
  (eqrange comp rb.mem rb.head fuel val).bind fun (first, last) =>
    rbEraseRgcnt fuel rounds rb first last

/-- The loop of `rb_dist`. -/
def distLoop (m : Mem) (fuel stop : ℕ) : ℕ → ℕ → ℕ → Option ℕ
  | 0, _, _ => none
  | rounds + 1, start, dist =>
    if start = stop then some dist
    else (nodeNext m fuel start).bind fun start => distLoop m fuel stop rounds start (dist + 1)

def rbDist (fuel rounds : ℕ) (rb : Tree) (start stop : ℕ) : Option ℕ :=
  if start = rb.mem.left rb.head ∧ stop = rb.head then some rb.size
  else distLoop rb.mem fuel stop rounds start 0

def rbVcnt (comp : Comp) (fuel rounds : ℕ) (rb : Tree) (val : ℕ) : Option ℕ :=
  (eqrange comp rb.mem rb.head fuel val).bind fun (first, last) => rbDist fuel rounds rb first last

end Zrhos.Rbtree
