import Zrhos.Lib.Steps
import Zrhos.Lib.Ring

/-! The line discipline of `console.c`: three 32-bit indices into a ring of 128 bytes, and
the reference line editor that keeps its lines whole. -/
namespace Zrhos.Driver
open Steps Ring

def INPUT_BUF_SIZE : ℕ := 128

/-- Control-x. -/
def ctrl (x : Char) : BitVec 8 := BitVec.ofNat 8 (x.toNat - 64)

def newline : BitVec 8 := 10

def carriageReturn : BitVec 8 := 13

def delete : BitVec 8 := 127

structure Cons where
  buf : ℕ → BitVec 8
  r : BitVec 32
  w : BitVec 32
  e : BitVec 32

/-- The loop of control-U; the fuel is the distance of the two indices. -/
def killLine : ℕ → Cons → Cons
  | 0, cons => cons
  | k + 1, cons =>
    if cons.e ≠ cons.w ∧ cons.buf ((cons.e - 1).toNat % INPUT_BUF_SIZE) ≠ newline then
      killLine k { cons with e := cons.e - 1 }
    else cons

/-- `console_intr`, without the echo, the process list and the wakeup. -/
def consoleIntr (cons : Cons) (c : BitVec 8) : Cons :=
  if c = ctrl 'P' then cons
  else if c = ctrl 'U' then killLine (cons.e - cons.w).toNat cons
  else if c = ctrl 'H' ∨ c = delete then
    if cons.e ≠ cons.w then { cons with e := cons.e - 1 } else cons
  else if c ≠ 0 ∧ (cons.e - cons.r).toNat < INPUT_BUF_SIZE then
    let c := if c = carriageReturn then newline else c
    let cons := { cons with
      buf := Function.update cons.buf (cons.e.toNat % INPUT_BUF_SIZE) c
      e := cons.e + 1 }
    if c = newline ∨ c = ctrl 'D' ∨ (cons.e - cons.r).toNat = INPUT_BUF_SIZE then
      { cons with w := cons.e }
    else cons
  else cons

/-- How a stretch of a read ends: the reader goes to sleep, finds itself killed, or leaves
the loop. -/
inductive Place where
  | asleep
  | killed
  | ended
  deriving DecidableEq, Repr

/-- What is left of `n`, and the bytes copied out. -/
structure Outcome where
  n : ℕ
  bytes : List (BitVec 8)
  place : Place
  deriving DecidableEq, Repr

/-- The loop of `console_read` up to its end or its next sleep; `writable` tells whether the
copy of a byte reaches its place in the buffer of the reader. -/
def consoleRead (killed : Bool) (writable : ℕ → Bool) (target : ℕ) : ℕ → Cons → Cons × Outcome
  | 0, cons => (cons, ⟨0, [], .ended⟩)
  | n + 1, cons =>
    if cons.r = cons.w then (cons, ⟨n + 1, [], if killed then .killed else .asleep⟩)
    else
      let c := cons.buf (cons.r.toNat % INPUT_BUF_SIZE)
      let cons := { cons with r := cons.r + 1 }
      if c = ctrl 'D' then
        (if n + 1 < target then { cons with r := cons.r - 1 } else cons, ⟨n + 1, [], .ended⟩)
      else if !writable (target - (n + 1)) then (cons, ⟨n + 1, [], .ended⟩)
      else if c = newline then (cons, ⟨n, [c], .ended⟩)
      else
        let (cons, o) := consoleRead killed writable target n cons
        (cons, { o with bytes := c :: o.bytes })

/-! ### The reference line editor -/

/-- The bytes committed so far, how many of them readers have taken, and the line that is
still open to erasing. -/
structure Editor where
  stream : List (BitVec 8)
  taken : ℕ
  line : List (BitVec 8)
  deriving DecidableEq, Repr

namespace Editor

def unread (ed : Editor) : List (BitVec 8) := ed.stream.drop ed.taken

/-- The room that committed and open bytes take together. -/
def held (ed : Editor) : ℕ := ed.unread.length + ed.line.length

def commit (ed : Editor) : Editor := { ed with stream := ed.stream ++ ed.line, line := [] }

/-- A character that is not erased, ignored or dropped. -/
def insert (ed : Editor) (c : BitVec 8) : Editor :=
  let ed := { ed with line := ed.line ++ [c] }
  if c = newline ∨ c = ctrl 'D' ∨ ed.held = INPUT_BUF_SIZE then ed.commit else ed

def intr (ed : Editor) (c : BitVec 8) : Editor :=
  if c = ctrl 'P' ∨ c = 0 then ed
  else if c = ctrl 'U' then { ed with line := [] }
  else if c = ctrl 'H' ∨ c = delete then { ed with line := ed.line.dropLast }
  else if ed.held = INPUT_BUF_SIZE then ed
  else ed.insert (if c = carriageReturn then newline else c)

def next (ed : Editor) : Editor := { ed with taken := ed.taken + 1 }

/-- A read takes up to `n` bytes of one line. The end-of-file mark ends it, and is taken by
a read that has delivered nothing. -/
def read (killed : Bool) (target : ℕ) : ℕ → Editor → Editor × Outcome
  | 0, ed => (ed, ⟨0, [], .ended⟩)
  | n + 1, ed =>
    match ed.unread with
    | [] => (ed, ⟨n + 1, [], if killed then .killed else .asleep⟩)
    | c :: _ =>
      if c = ctrl 'D' then (if n + 1 < target then ed else ed.next, ⟨n + 1, [], .ended⟩)
      else if c = newline then (ed.next, ⟨n, [c], .ended⟩)
      else
        let (ed, o) := read killed target n ed.next
        (ed, { o with bytes := c :: o.bytes })

end Editor

/-! ### Readers -/

/-- A task asleep in a read. -/
structure Reader where
  target : ℕ
  n : ℕ
  deriving DecidableEq, Repr

/-- An input buffer, the readers asleep on it, the bytes delivered so far to any reader and
the reads that have ended, with their results. -/
structure Session (B : Type) where
  input : B
  reader : ℕ → Option Reader
  delivered : List (BitVec 8)
  ended : List (ℕ × ℤ)

inductive ConsoleAct where
  | intr (c : BitVec 8)
  | read (i n : ℕ) (killed : Bool)
  | resume (i : ℕ) (killed : Bool)

def INT_MAX : ℕ := 2 ^ 31 - 1

namespace Session

variable {B : Type}

/-- The session after a stretch of a read of reader `i`. -/
def finish (s : Session B) (i target : ℕ) (x : B × Outcome) : Session B :=
  { input := x.1
    reader := Function.update s.reader i
      (if x.2.place = .asleep then some ⟨target, x.2.n⟩ else none)
    delivered := s.delivered ++ x.2.bytes
    ended := match x.2.place with
      | .asleep => s.ended
      | .killed => s.ended ++ [(i, -1)]
      | .ended => s.ended ++ [(i, (target : ℤ) - x.2.n)] }

/-- Every action is a stretch of code under `cons.lock`. -/
def step (intr : B → BitVec 8 → B) (read : Bool → ℕ → ℕ → B → B × Outcome) (s : Session B) :
    ConsoleAct → Option (Session B)
  | .intr c => some { s with input := intr s.input c }
  | .read i n killed =>
    if s.reader i = none ∧ 0 < n ∧ n ≤ INT_MAX then
      some (s.finish i n (read killed n n s.input))
    else none
  | .resume i killed =>
    match s.reader i with
    | none => none
    | some x => some (s.finish i x.target (read killed x.target x.n s.input))

end Session

/-- The console with readers whose buffers are writable. -/
def consoleStep : Session Cons → ConsoleAct → Option (Session Cons) :=
  Session.step consoleIntr fun killed => consoleRead killed fun _ => true

def editorStep : Session Editor → ConsoleAct → Option (Session Editor) :=
  Session.step Editor.intr Editor.read

def consoleInit (buf : ℕ → BitVec 8) : Session Cons := ⟨⟨buf, 0, 0, 0⟩, fun _ => none, [], []⟩

def editorInit : Session Editor := ⟨⟨[], 0, []⟩, fun _ => none, [], []⟩

/-! ### The ring holds what the editor holds -/

theorem INPUT_BUF_SIZE_dvd : INPUT_BUF_SIZE ∣ 2 ^ 32 := ⟨2 ^ 25, rfl⟩

/-- The indices count the bytes that are taken, committed and entered. -/
structure Holds (cons : Cons) (ed : Editor) : Prop where
  r : cons.r = BitVec.ofNat 32 ed.taken
  w : cons.w = BitVec.ofNat 32 ed.stream.length
  e : cons.e = BitVec.ofNat 32 (ed.stream.length + ed.line.length)
  taken_le : ed.taken ≤ ed.stream.length
  held_le : ed.held ≤ INPUT_BUF_SIZE
  buf : window INPUT_BUF_SIZE cons.buf ed.taken ed.held = ed.unread ++ ed.line

/-- Between two characters no newline is open to erasing. -/
structure Shows (cons : Cons) (ed : Editor) : Prop extends Holds cons ed where
  line : newline ∉ ed.line

variable {cons : Cons} {ed : Editor} {c : BitVec 8} {k : ℕ}

namespace Holds

theorem length_unread (h : Holds cons ed) : ed.taken + ed.unread.length = ed.stream.length := by
  have hle := h.taken_le
  rw [Editor.unread, List.length_drop]
  omega

theorem entered (h : Holds cons ed) :
    ed.stream.length + ed.line.length = ed.taken + ed.held := by
  have hlen := h.length_unread
  rw [Editor.held]
  omega

/-- No distance between two indices comes near the wrap. -/
theorem held_lt (h : Holds cons ed) : ed.unread.length + ed.line.length < 2 ^ 32 :=
  h.held_le.trans_lt (by decide)

theorem e_sub_r (h : Holds cons ed) : (cons.e - cons.r).toNat = ed.held := by
  have hlt := h.held_lt
  have hentered := h.entered
  rw [h.e, h.r, toNat_sub_ofNat (by omega) (by rw [hentered, Editor.held]; omega)]
  omega

theorem w_sub_r (h : Holds cons ed) : (cons.w - cons.r).toNat = ed.unread.length := by
  have hlt := h.held_lt
  have hlen := h.length_unread
  rw [h.w, h.r, toNat_sub_ofNat (by omega) (by omega)]
  omega

theorem e_sub_w (h : Holds cons ed) : (cons.e - cons.w).toNat = ed.line.length := by
  have hlt := h.held_lt
  rw [h.e, h.w, toNat_sub_ofNat (by omega) (by omega)]
  omega

theorem r_eq_w (h : Holds cons ed) : cons.r = cons.w ↔ ed.unread = [] := by
  have hlt := h.held_lt
  have hlen := h.length_unread
  rw [h.r, h.w, ofNat_inj h.taken_le (by omega), ← List.length_eq_zero_iff]
  omega

theorem e_eq_w (h : Holds cons ed) : cons.e = cons.w ↔ ed.line = [] := by
  have hlt := h.held_lt
  rw [h.e, h.w, eq_comm, ofNat_inj (by omega) (by omega), ← List.length_eq_zero_iff]
  omega

/-- The bytes of the open line in the ring. -/
theorem line_byte (h : Holds cons ed) (hk : k < ed.line.length) :
    cons.buf ((ed.stream.length + k) % INPUT_BUF_SIZE) = ed.line[k] := by
  have hin : ed.unread.length + k < ed.held := by
    rw [Editor.held]
    omega
  have hbyte : (window INPUT_BUF_SIZE cons.buf ed.taken ed.held)[ed.unread.length + k]? =
      some (cons.buf ((ed.taken + (ed.unread.length + k)) % INPUT_BUF_SIZE)) :=
    window_getElem? hin
  rw [h.buf, List.getElem?_append_right (by omega), Nat.add_sub_cancel_left,
    List.getElem?_eq_getElem hk, ← Nat.add_assoc, h.length_unread] at hbyte
  exact (Option.some.inj hbyte).symm

/-- The indices show a shorter open line. -/
theorem shrink (h : Holds cons ed) {line : List (BitVec 8)} (hline : line <+: ed.line) :
    Holds { cons with e := BitVec.ofNat 32 (ed.stream.length + line.length) }
      { ed with line := line } := by
  have hlen := hline.length_le
  have hheld : Editor.held { ed with line := line } ≤ ed.held := Nat.add_le_add_left hlen _
  constructor
  case r => exact h.r
  case w => exact h.w
  case e => rfl
  case taken_le => exact h.taken_le
  case held_le => exact hheld.trans h.held_le
  case buf =>
    change window INPUT_BUF_SIZE cons.buf ed.taken _ = ed.unread ++ line
    rw [← window_take hheld, h.buf]
    obtain ⟨rest, hrest⟩ := hline
    rw [← hrest, ← List.append_assoc]
    exact List.take_left' (by rw [List.length_append]; rfl)

/-- A character goes to the end of the open line. -/
theorem store (h : Holds cons ed) (hroom : ed.held < INPUT_BUF_SIZE) :
    Holds { cons with
      buf := Function.update cons.buf (cons.e.toNat % INPUT_BUF_SIZE) c
      e := cons.e + 1 } { ed with line := ed.line ++ [c] } := by
  have hheld : Editor.held { ed with line := ed.line ++ [c] } = ed.held + 1 := by
    rw [Editor.held, List.length_append, Editor.held]
    rfl
  have hslot : cons.e.toNat % INPUT_BUF_SIZE = (ed.taken + ed.held) % INPUT_BUF_SIZE := by
    rw [h.e, slot_ofNat INPUT_BUF_SIZE_dvd, h.entered]
  constructor
  case r => exact h.r
  case w => exact h.w
  case e =>
    rw [List.length_append, ← Nat.add_assoc, BitVec.ofNat_add, ← h.e]
    rfl
  case taken_le => exact h.taken_le
  case held_le =>
    rw [hheld]
    exact hroom
  case buf =>
    rw [hheld, hslot]
    dsimp only
    rw [window_push hroom, h.buf, List.append_assoc]
    rfl

/-- Committing leaves no open line. -/
theorem commit (h : Holds cons ed) : Shows { cons with w := cons.e } ed.commit := by
  have hunread : ed.commit.unread = ed.unread ++ ed.line := by
    rw [Editor.unread, Editor.commit, List.drop_append_of_le_length h.taken_le]
    rfl
  have hheld : ed.commit.held = ed.held := by
    rw [Editor.held, hunread, List.length_append]
    rfl
  constructor
  case line => exact List.not_mem_nil
  constructor
  case r => exact h.r
  case w =>
    rw [h.e, Editor.commit, List.length_append]
  case e =>
    rw [h.e, Editor.commit, List.length_append]
    rfl
  case taken_le =>
    have hle := h.taken_le
    rw [Editor.commit, List.length_append]
    dsimp only
    omega
  case held_le =>
    rw [hheld]
    exact h.held_le
  case buf =>
    rw [hheld, hunread]
    exact h.buf.trans (List.append_nil _).symm

/-- A reader takes the first of the bytes that wait. -/
theorem take (h : Holds cons ed) {rest : List (BitVec 8)} (hunread : ed.unread = c :: rest) :
    cons.buf (cons.r.toNat % INPUT_BUF_SIZE) = c ∧ ed.next.unread = rest ∧
      Holds { cons with r := cons.r + 1 } ed.next := by
  have hnext : ed.next.unread = rest := by
    have hdrop : ed.stream.drop (ed.taken + 1) = (ed.stream.drop ed.taken).drop 1 :=
      List.drop_drop.symm
    rw [Editor.unread, Editor.next, hdrop]
    change ed.unread.drop 1 = rest
    rw [hunread]
    rfl
  have hheld : ed.held = ed.next.held + 1 := by
    rw [Editor.held, Editor.held, hnext, hunread, List.length_cons]
    change rest.length + 1 + ed.line.length = rest.length + ed.line.length + 1
    omega
  have hbuf := h.buf
  rw [hheld, window_cons, hunread, List.cons_append, List.cons.injEq] at hbuf
  have hslot : cons.r.toNat % INPUT_BUF_SIZE = ed.taken % INPUT_BUF_SIZE := by
    rw [h.r, slot_ofNat INPUT_BUF_SIZE_dvd]
  refine ⟨by rw [hslot, hbuf.1], hnext, ?_⟩
  constructor
  case r =>
    rw [h.r, Editor.next, BitVec.ofNat_add]
    rfl
  case w => exact h.w
  case e => exact h.e
  case taken_le =>
    have hlen := h.length_unread
    rw [hunread, List.length_cons] at hlen
    change ed.taken + 1 ≤ ed.stream.length
    omega
  case held_le =>
    have hle := h.held_le
    omega
  case buf =>
    rw [hnext]
    exact hbuf.2

end Holds

namespace Shows

theorem mono (h : Shows cons ed) {cons' : Cons} {line : List (BitVec 8)}
    (hholds : Holds cons' { ed with line := line }) (hline : line <+: ed.line) :
    Shows cons' { ed with line := line } := ⟨hholds, fun hmem => h.line (hline.subset hmem)⟩

/-- Control-U erases the open line, and stops there. -/
theorem killLine_line (h : Shows cons ed) (hk : k ≤ ed.line.length) :
    killLine k { cons with e := BitVec.ofNat 32 (ed.stream.length + k) } =
      { cons with e := cons.w } := by
  have hlt := h.held_lt
  induction k with
  | zero =>
    rw [killLine, add_zero, ← h.w]
  | succ k ih =>
    have hne : BitVec.ofNat 32 (ed.stream.length + (k + 1)) ≠ cons.w := by
      rw [h.w, ne_eq, eq_comm, ofNat_inj (by omega) (by omega)]
      omega
    have hpred : BitVec.ofNat 32 (ed.stream.length + (k + 1)) - 1 =
        BitVec.ofNat 32 (ed.stream.length + k) := by
      rw [← Nat.add_assoc, BitVec.ofNat_add]
      exact BitVec.add_sub_cancel _ _
    have hbyte : cons.buf ((BitVec.ofNat 32 (ed.stream.length + k)).toNat % INPUT_BUF_SIZE) ≠
        newline := by
      rw [slot_ofNat INPUT_BUF_SIZE_dvd, h.line_byte (by omega)]
      exact fun he => h.line (he ▸ List.getElem_mem _)
    rw [killLine, if_pos ⟨hne, by rw [hpred]; exact hbyte⟩]
    simp only [hpred]
    exact ih (by omega)

theorem kill (h : Shows cons ed) :
    Shows (killLine (cons.e - cons.w).toNat cons) { ed with line := [] } := by
  have hkill := h.killLine_line le_rfl
  rw [← h.e] at hkill
  change killLine ed.line.length cons = _ at hkill
  have hw : cons.w = BitVec.ofNat 32 (ed.stream.length + ([] : List (BitVec 8)).length) := h.w
  have hshrink := h.shrink (List.nil_prefix : [] <+: ed.line)
  rw [← hw] at hshrink
  rw [h.e_sub_w, hkill]
  exact h.mono hshrink List.nil_prefix

theorem backspace (h : Shows cons ed) :
    Shows (if cons.e ≠ cons.w then { cons with e := cons.e - 1 } else cons)
      { ed with line := ed.line.dropLast } := by
  split_ifs with hne
  · obtain ⟨m, hm⟩ : ∃ m, ed.line.length = m + 1 := by
      refine Nat.exists_eq_add_one.mpr (List.length_pos_iff.mpr fun hnil => hne ?_)
      exact h.e_eq_w.mpr hnil
    have hpred : cons.e - 1 =
        BitVec.ofNat 32 (ed.stream.length + ed.line.dropLast.length) := by
      rw [h.e, List.length_dropLast, hm, ← Nat.add_assoc, BitVec.ofNat_add]
      exact BitVec.add_sub_cancel _ _
    rw [hpred]
    exact h.mono (h.shrink (List.dropLast_prefix _)) (List.dropLast_prefix _)
  · have hnil : ed.line = [] := h.e_eq_w.mp (not_not.mp hne)
    rw [hnil, List.dropLast_nil, ← hnil]
    exact h

/-- The editor does with a character what `console_intr` does. -/
theorem intr (h : Shows cons ed) : Shows (consoleIntr cons c) (ed.intr c) := by
  unfold consoleIntr Editor.intr
  by_cases hp : c = ctrl 'P'
  · rw [if_pos hp, if_pos (.inl hp)]
    exact h
  rw [if_neg hp]
  by_cases hu : c = ctrl 'U'
  · rw [if_pos hu, if_neg (by rw [hu]; decide), if_pos hu]
    exact h.kill
  rw [if_neg hu]
  by_cases hh : c = ctrl 'H' ∨ c = delete
  · have hzero : ¬(c = ctrl 'P' ∨ c = 0) := by
      rcases hh with rfl | rfl <;> decide
    rw [if_pos hh, if_neg hzero, if_neg hu, if_pos hh]
    exact h.backspace
  rw [if_neg hh, h.e_sub_r]
  by_cases hzero : c = 0
  · rw [if_neg (fun hc => hc.1 hzero), if_pos (.inr hzero)]
    exact h
  rw [if_neg (show ¬(c = ctrl 'P' ∨ c = 0) from not_or.mpr ⟨hp, hzero⟩), if_neg hu, if_neg hh]
  by_cases hfull : ed.held = INPUT_BUF_SIZE
  · rw [if_neg (fun hc => hc.2.ne hfull), if_pos hfull]
    exact h
  have hroom : ed.held < INPUT_BUF_SIZE := lt_of_le_of_ne h.held_le hfull
  rw [if_pos ⟨hzero, hroom⟩, if_neg hfull]
  dsimp only [Editor.insert]
  generalize (if c = carriageReturn then newline else c) = d
  have hstore : Holds _ { ed with line := ed.line ++ [d] } := h.store hroom
  rw [hstore.e_sub_r]
  split_ifs with hcommit
  · exact hstore.commit
  · refine ⟨hstore, fun hmem => ?_⟩
    rcases List.mem_append.mp hmem with hold | hnew
    · exact h.line hold
    · exact hcommit (.inl (List.mem_singleton.mp hnew).symm)

/-- A read takes from the ring what the editor gives it. -/
theorem read (h : Shows cons ed) (killed : Bool) (target n : ℕ) :
    (consoleRead killed (fun _ => true) target n cons).2 = (ed.read killed target n).2 ∧
      Shows (consoleRead killed (fun _ => true) target n cons).1
        (ed.read killed target n).1 := by
  induction n generalizing cons ed with
  | zero => exact ⟨rfl, h⟩
  | succ n ih =>
    unfold consoleRead Editor.read
    cases hunread : ed.unread with
    | nil =>
      rw [if_pos (h.r_eq_w.mpr hunread)]
      exact ⟨rfl, h⟩
    | cons c rest =>
      have hne : cons.r ≠ cons.w := by
        rw [ne_eq, h.r_eq_w, hunread]
        exact List.cons_ne_nil c rest
      obtain ⟨hc, -, htake⟩ := h.take hunread
      have hnext : Shows { cons with r := cons.r + 1 } ed.next := ⟨htake, h.line⟩
      have hback : cons.r + 1 - 1 = cons.r := BitVec.add_sub_cancel _ _
      rw [if_neg hne]
      simp only [hc, hback, Bool.not_true, Bool.false_eq_true, if_false]
      split_ifs with hd hpartial hnl
      · exact ⟨rfl, h⟩
      · exact ⟨rfl, hnext⟩
      · exact ⟨rfl, hnext⟩
      · obtain ⟨hsame, hshows⟩ := ih hnext
        exact ⟨by rw [hsame], hshows⟩

end Shows

/-! ### What readers get -/

/-- The stream as readers see it. -/
def visible (l : List (BitVec 8)) : List (BitVec 8) := l.filter (· ≠ ctrl 'D')

namespace Editor

theorem take_next {rest : List (BitVec 8)} (hunread : ed.unread = c :: rest) :
    ed.stream.take ed.next.taken = ed.stream.take ed.taken ++ [c] := by
  have hget : ed.stream[ed.taken]? = some c := by
    have hhead := congrArg List.head? hunread
    rwa [unread, List.head?_drop] at hhead
  obtain ⟨hlt, hc⟩ := List.getElem?_eq_some_iff.mp hget
  rw [next, ← hc]
  exact (List.take_concat_get' _ _ hlt).symm

/-- A read takes no end-of-file mark for its reader. -/
theorem read_spec (ed : Editor) (killed : Bool) (target n : ℕ) :
    (ed.read killed target n).1.stream = ed.stream ∧
      (ed.read killed target n).1.line = ed.line ∧
      visible (ed.stream.take (ed.read killed target n).1.taken) =
        visible (ed.stream.take ed.taken) ++ (ed.read killed target n).2.bytes := by
  induction n generalizing ed with
  | zero => exact ⟨rfl, rfl, (List.append_nil _).symm⟩
  | succ n ih =>
    unfold read
    cases hunread : ed.unread with
    | nil => exact ⟨rfl, rfl, (List.append_nil _).symm⟩
    | cons c rest =>
      have htake := take_next hunread
      dsimp only
      split_ifs with hd hpartial hnl
      · exact ⟨rfl, rfl, (List.append_nil _).symm⟩
      · refine ⟨rfl, rfl, ?_⟩
        rw [htake, hd]
        simp [visible]
      · refine ⟨rfl, rfl, ?_⟩
        rw [htake]
        simp [visible, hd]
      · obtain ⟨hstream, hline, hbytes⟩ := @ih ed.next
        refine ⟨hstream, hline, ?_⟩
        change visible (ed.stream.take _) = visible (ed.stream.take ed.next.taken) ++ _ at hbytes
        rw [hbytes, htake]
        simp [visible, hd]

/-- A read ends at the end-of-file mark behind data, and leaves the mark. -/
theorem read_until_mark (killed : Bool) {d rest : List (BitVec 8)} {target n : ℕ}
    (hunread : ed.unread = d ++ ctrl 'D' :: rest) (hd : ∀ x ∈ d, x ≠ ctrl 'D' ∧ x ≠ newline)
    (hn : d.length < n) (hle : n ≤ target) (hsome : d ≠ [] ∨ n < target) :
    ∃ ed' : Editor, ed'.unread = ctrl 'D' :: rest ∧
      ed.read killed target n = (ed', ⟨n - d.length, d, .ended⟩) := by
  induction d generalizing n ed with
  | nil =>
    obtain ⟨m, rfl⟩ : ∃ m, n = m + 1 := ⟨n - 1, by rw [List.length_nil] at hn; omega⟩
    have hlt : m + 1 < target := hsome.resolve_left (not_not.mpr rfl)
    rw [List.nil_append] at hunread
    refine ⟨ed, hunread, ?_⟩
    simp only [read, hunread, if_true, if_pos hlt, List.length_nil, Nat.sub_zero]
  | cons c d ih =>
    obtain ⟨m, rfl⟩ : ∃ m, n = m + 1 := ⟨n - 1, by rw [List.length_cons] at hn; omega⟩
    obtain ⟨hc, hnl⟩ := hd c List.mem_cons_self
    rw [List.length_cons] at hn
    have hnext : ed.next.unread = d ++ ctrl 'D' :: rest := by
      have hdrop : ed.stream.drop (ed.taken + 1) = (ed.stream.drop ed.taken).drop 1 :=
        List.drop_drop.symm
      rw [unread, next, hdrop]
      change ed.unread.drop 1 = _
      rw [hunread]
      rfl
    obtain ⟨ed', hmark, hread⟩ := ih (n := m) hnext
      (fun x hx => hd x (List.mem_cons_of_mem c hx)) (by omega) (by omega) (.inr (by omega))
    refine ⟨ed', hmark, ?_⟩
    rw [List.cons_append] at hunread
    simp only [read, hunread, hc, hnl, if_false, hread, List.length_cons, Nat.add_sub_add_right]

/-- A read that finds the mark first takes it and returns nothing. -/
theorem read_mark {rest : List (BitVec 8)} {killed : Bool} {n : ℕ}
    (hunread : ed.unread = ctrl 'D' :: rest) (hn : 0 < n) :
    ed.read killed n n = (ed.next, ⟨n, [], .ended⟩) := by
  obtain ⟨m, rfl⟩ : ∃ m, n = m + 1 := ⟨n - 1, by omega⟩
  simp only [read, hunread, if_true, lt_irrefl, if_false]

end Editor

/-! ### Whole runs -/

/-- The console and the reference after the same actions. -/
structure Agree (s : Session Cons) (t : Session Editor) : Prop where
  input : Shows s.input t.input
  reader : s.reader = t.reader
  delivered : s.delivered = t.delivered
  ended : s.ended = t.ended
  visible : t.delivered = visible (t.input.stream.take t.input.taken)

theorem Agree.finish {s : Session Cons} {t : Session Editor} (h : Agree s t) (killed : Bool)
    (i target n : ℕ) :
    Agree (s.finish i target (consoleRead killed (fun _ => true) target n s.input))
      (t.finish i target (t.input.read killed target n)) := by
  obtain ⟨hsame, hshows⟩ := h.input.read killed target n
  obtain ⟨hstream, -, hbytes⟩ := t.input.read_spec killed target n
  constructor
  case input => exact hshows
  case reader =>
    dsimp only [Session.finish]
    rw [hsame, h.reader]
  case delivered =>
    dsimp only [Session.finish]
    rw [hsame, h.delivered]
  case ended =>
    dsimp only [Session.finish]
    rw [hsame, h.ended]
  case visible =>
    dsimp only [Session.finish]
    rw [hstream, hbytes, h.visible]

theorem intr_stream (ed : Editor) (c : BitVec 8) :
    (ed.intr c).taken = ed.taken ∧ ed.stream <+: (ed.intr c).stream := by
  have hinsert (d : BitVec 8) : (ed.insert d).taken = ed.taken ∧
      ed.stream <+: (ed.insert d).stream := by
    dsimp only [Editor.insert]
    split_ifs
    · exact ⟨rfl, List.prefix_append _ _⟩
    · exact ⟨rfl, List.prefix_rfl⟩
  unfold Editor.intr
  split_ifs
  · exact ⟨rfl, List.prefix_rfl⟩
  · exact ⟨rfl, List.prefix_rfl⟩
  · exact ⟨rfl, List.prefix_rfl⟩
  · exact ⟨rfl, List.prefix_rfl⟩
  · exact hinsert _
  · exact hinsert _

theorem Agree.step {s s' : Session Cons} {t : Session Editor} (a : ConsoleAct) (h : Agree s t)
    (hs : consoleStep s a = some s') : ∃ t', editorStep t a = some t' ∧ Agree s' t' := by
  cases a with
  | intr c =>
    cases hs
    refine ⟨_, rfl, ?_⟩
    obtain ⟨htaken, rest, hstream⟩ := intr_stream t.input c
    constructor
    case input => exact h.input.intr
    case reader => exact h.reader
    case delivered => exact h.delivered
    case ended => exact h.ended
    case visible =>
      change t.delivered = _
      rw [h.visible]
      dsimp only
      rw [htaken, ← hstream, List.take_append_of_le_length h.input.taken_le]
  | read i n killed =>
    unfold consoleStep Session.step at hs
    unfold editorStep Session.step
    dsimp only at hs ⊢
    rw [h.reader] at hs
    split_ifs at hs ⊢ with hok
    cases hs
    exact ⟨_, rfl, h.finish killed i n n⟩
  | resume i killed =>
    unfold consoleStep Session.step at hs
    unfold editorStep Session.step
    dsimp only at hs ⊢
    rw [h.reader] at hs
    cases hreader : t.reader i with
    | none =>
      rw [hreader] at hs
      cases hs
    | some x =>
      rw [hreader] at hs
      cases hs
      exact ⟨_, rfl, h.finish killed i x.target x.n⟩

theorem Agree.init (buf : ℕ → BitVec 8) : Agree (consoleInit buf) editorInit where
  input := ⟨⟨rfl, rfl, rfl, le_rfl, Nat.zero_le _, rfl⟩, List.not_mem_nil⟩
  reader := rfl
  delivered := rfl
  ended := rfl
  visible := rfl

/-- After any actions the indices are in order and at most the ring apart, readers have got
a prefix of what the reference editor has committed, with the results of the reference, and
an end-of-file mark behind data ends the read of the data and gives the next read nothing. -/
theorem console_line_discipline (buf : ℕ → BitVec 8) (acts : List ConsoleAct)
    (s : Session Cons) (ha : after consoleStep anyStep (consoleInit buf) acts = some s) :
    (s.input.w - s.input.r).toNat ≤ (s.input.e - s.input.r).toNat ∧
    (s.input.e - s.input.r).toNat ≤ INPUT_BUF_SIZE ∧
    ∃ t, after editorStep anyStep editorInit acts = some t ∧
      s.delivered <+: visible t.input.stream ∧ s.delivered = t.delivered ∧ s.ended = t.ended ∧
      ∀ d rest killed n, t.input.unread = d ++ ctrl 'D' :: rest →
        (∀ x ∈ d, x ≠ ctrl 'D' ∧ x ≠ newline) → d ≠ [] → d.length < n →
        ∃ cons, consoleRead killed (fun _ => true) n n s.input =
            (cons, ⟨n - d.length, d, .ended⟩) ∧
          ∀ m, 0 < m → ∃ cons', consoleRead killed (fun _ => true) m m cons =
            (cons', ⟨m, [], .ended⟩) := by
  obtain ⟨t, ht, hagree⟩ := after_simulates (Agree.init buf) (fun _ _ a _ => Agree.step a) ha
  have hshows := hagree.input
  refine ⟨?_, ?_, t, ht, ?_, hagree.delivered, hagree.ended, ?_⟩
  · rw [hshows.w_sub_r, hshows.e_sub_r]
    exact Nat.le_add_right _ _
  · rw [hshows.e_sub_r]
    exact hshows.held_le
  · rw [hagree.delivered, hagree.visible]
    exact (List.take_prefix _ _).filter _
  · intro d rest killed n hunread hd hsome hn
    obtain ⟨ed, hmark, hread⟩ := Editor.read_until_mark killed hunread hd hn le_rfl
      (.inl hsome)
    obtain ⟨hsame, hnext⟩ := hshows.read killed n n
    rw [hread] at hsame hnext
    refine ⟨_, Prod.ext rfl hsame, fun m hm => ?_⟩
    have hend := (hnext.read killed m m).1
    rw [Editor.read_mark hmark hm] at hend
    exact ⟨_, Prod.ext rfl hend⟩

/-- A line, then a mark, for a reader that has been asleep. -/
theorem console_line_discipline_hi : ∃ s, after consoleStep anyStep (consoleInit fun _ => 0)
    [.read 0 9 false, .intr 104, .intr 105, .intr (ctrl 'D'), .resume 0 false] = some s ∧
      s.delivered = [104, 105] ∧ ∃ t : Session Editor, s.delivered <+: visible t.input.stream := by
  have hrun : (after consoleStep anyStep (consoleInit fun _ => 0)
      [.read 0 9 false, .intr 104, .intr 105, .intr (ctrl 'D'), .resume 0 false]).map
        Session.delivered = some [104, 105] := by decide
  obtain ⟨s, hs, hdelivered⟩ := Option.map_eq_some_iff.mp hrun
  obtain ⟨-, -, t, -, hprefix, -⟩ := console_line_discipline _ _ s hs
  exact ⟨s, hs, hdelivered, t, hprefix⟩

end Zrhos.Driver
