import Zrhos.Platform
import Zrhos.Lib.Chain

/-! Semaphores of `lock.c`, over any interleaving of `lm_P` and `lm_V`. A critical section
under `sem->lk` is one step; the task that goes to sleep in it still holds its own lock,
which the scheduler releases in a later step. -/
namespace Zrhos.Sync
open LinkedList

/-- The states of a task, as far as `lock.c` and the scheduler look at them. -/
inductive TaskState where
  | RUNNING
  | RUNNABLE
  | SLEEPING
  | DEAD
  | USED
  | ZOMBIE
  deriving DecidableEq, Repr

structure TaskList where
  task : ℕ
  next : ℕ
  prev : ℕ
  deriving DecidableEq, Repr

/-- A number in a variable of type `int`, which wraps around. -/
def int32 (x : ℤ) : ℤ := x.bmod (2 ^ 32)

theorem int32_eq {x : ℤ} (h : -2 ^ 31 ≤ x) (h' : x < 2 ^ 31) : int32 x = x := by
  unfold int32
  exact Int.bmod_eq_of_le (by omega) (by omega)

structure Semophore where
  value : ℤ
  head : ℕ
  tail : ℕ
  deriving DecidableEq, Repr

/-- One semaphore, the `task_list` records in memory with the addresses that `lm_P` has
allocated and `lm_V` not yet freed, and the state and lock of each task. -/
structure Machine where
  sem : Semophore
  node : ℕ → TaskList
  own : List ℕ
  state : ℕ → TaskState
  lock : ℕ → Bool

/-- `sem->tail` keeps the value `garbage` that the memory happened to hold. -/
def lmSemInit (m : Machine) (value : ℤ) (garbage : ℕ) : Machine :=
  { m with sem := ⟨value, 0, garbage⟩ }

/-- `lm_P` up to the switch to the scheduler; `tl` is what `mem_malloc` returns. -/
def lmP (m : Machine) (t tl : ℕ) : Machine :=
  let sem : Semophore := { m.sem with value := int32 (m.sem.value - 1) }
  if sem.value < 0 then
    let node := Function.update m.node tl ⟨t, sem.head, 0⟩
    let old := sem.head
    let (node, sem) :=
      if old ≠ 0 then (Function.update node old { node old with prev := tl }, sem)
      else (node, { sem with tail := tl })
    { sem := { sem with head := tl }
      node := node
      own := tl :: m.own
      state := Function.update m.state t .SLEEPING
      lock := Function.update m.lock t true }
  else { m with sem := sem }

/-- The task that `lm_V` is going to wake. -/
def waiter (m : Machine) : ℕ := (m.node m.sem.tail).task

/-- `mem_free` may leave anything in the record. -/
def lmV (m : Machine) (junk : TaskList) : Machine :=
  let sem : Semophore := { m.sem with value := int32 (m.sem.value + 1) }
  if sem.value ≤ 0 then
    let tl := sem.tail
    let prev := (m.node tl).prev
    let t := (m.node tl).task
    let sem := { sem with tail := prev }
    let (node, sem) :=
      if prev = 0 then (m.node, { sem with head := 0 })
      else (Function.update m.node prev { m.node prev with next := 0 }, sem)
    { m with
      sem := sem
      node := Function.update node tl junk
      own := m.own.erase tl
      state := Function.update m.state t .RUNNABLE }
  else { m with sem := sem }

/-! ### Runs -/

/-- The machine with its history: operations begun, done and let through, the tasks that
are in `lm_P` and when they came, and the tasks between `lm_P` and `lm_V`. -/
structure World where
  m : Machine
  begun : ℕ
  done : ℕ
  passed : ℕ
  inP : Finset ℕ
  arrived : ℕ → ℕ
  inside : Finset ℕ

inductive Act where
  | P (t tl : ℕ)
  | V (t : ℕ) (junk : TaskList)
  | release (t : ℕ)
  | run (t : ℕ)
  | yield (t : ℕ)
  | resume (t : ℕ)
  | other (state : ℕ → TaskState) (node : ℕ → TaskList)

/-- The world after a critical section of `lm_P`. -/
def afterP (w : World) (t tl : ℕ) : World :=
  if int32 (w.m.sem.value - 1) < 0 then
    { w with
      m := lmP w.m t tl
      begun := w.begun + 1
      inP := insert t w.inP
      arrived := Function.update w.arrived t w.begun }
  else
    { w with
      m := lmP w.m t tl
      begun := w.begun + 1
      passed := w.passed + 1
      inside := insert t w.inside }

def afterV (w : World) (t : ℕ) (junk : TaskList) : World :=
  { w with
    m := lmV w.m junk
    done := w.done + 1
    inside := w.inside.erase t }

/-- The scheduler runs runnable tasks whose lock is free; `lm_V` waits for the lock of the
task it wakes; a task in `lm_P` returns once it runs again. `lm_V` is called from anywhere:
`exit` does so as a zombie. Other code leaves the tasks in `lm_P` and their records alone. -/
inductive Step : World → Act → World → Prop where
  | P {w : World} {t tl : ℕ} : t < NTASK → w.m.state t = .RUNNING → t ∉ w.inP → tl ≠ 0 →
      tl ∉ w.m.own → Step w (.P t tl) (afterP w t tl)
  | V {w : World} {t : ℕ} {junk : TaskList} :
      (int32 (w.m.sem.value + 1) ≤ 0 → w.m.lock (waiter w.m) = false) →
      Step w (.V t junk) (afterV w t junk)
  | release {w : World} {t : ℕ} : w.m.lock t = true →
      Step w (.release t) { w with m := { w.m with lock := Function.update w.m.lock t false } }
  | run {w : World} {t : ℕ} : w.m.state t = .RUNNABLE → w.m.lock t = false →
      Step w (.run t) { w with m := { w.m with state := Function.update w.m.state t .RUNNING } }
  | yield {w : World} {t : ℕ} : w.m.state t = .RUNNING →
      Step w (.yield t) { w with m := { w.m with state := Function.update w.m.state t .RUNNABLE } }
  | resume {w : World} {t : ℕ} : t ∈ w.inP → w.m.state t = .RUNNING →
      Step w (.resume t) { w with
        passed := w.passed + 1
        inP := w.inP.erase t
        inside := insert t w.inside }
  | other {w : World} {state : ℕ → TaskState} {node : ℕ → TaskList} :
      (∀ t ∈ w.inP, state t = w.m.state t) → (∀ a ∈ w.m.own, node a = w.m.node a) →
      Step w (.other state node) { w with m := { w.m with state := state, node := node } }

inductive Run (meets : World → Act → Prop) : World → World → Prop where
  | refl {w : World} : Run meets w w
  | tail {w₀ w w' : World} {a : Act} : Run meets w₀ w → meets w a → Step w a w' → Run meets w₀ w'

/-- A semaphore that `lm_sem_init` has just set up. -/
structure Fresh (v : ℤ) (w : World) : Prop where
  init : ∃ m garbage, w.m = lmSemInit m v garbage
  own : w.m.own = []
  begun : w.begun = 0
  done : w.done = 0
  passed : w.passed = 0
  inP : w.inP = ∅
  inside : w.inside = ∅

/-- No `lm_V` finds the largest value of an `int`. -/
def Fits (w : World) : Act → Prop
  | .V _ _ => w.m.sem.value < 2 ^ 31 - 1
  | _ => True

/-- `lm_P` and `lm_V` in pairs: a task enters when it is outside and leaves when it is
inside. -/
def Paired (w : World) : Act → Prop
  | .P t _ => t ∉ w.inside
  | .V t _ => t ∈ w.inside
  | _ => True

/-! ### The invariant -/

def next (m : Machine) (a : ℕ) : ℕ := (m.node a).next
def prev (m : Machine) (a : ℕ) : ℕ := (m.node a).prev
def task (m : Machine) (a : ℕ) : ℕ := (m.node a).task

/-- The wait list in memory, from `head` to `tail` and back; an empty list leaves `tail`
alone. -/
structure WaitList (m : Machine) (ns : List ℕ) : Prop where
  forward : Seg (next m) m.sem.head ns 0
  backward : ns ≠ [] → Seg (prev m) m.sem.tail ns.reverse 0
  ne_null : ∀ a ∈ ns, a ≠ 0
  nodup : ns.Nodup
  owned : ∀ a ∈ ns, a ∈ m.own

/-- The semaphore that started with `v` and has the records `ns` on its list, the newest
first. -/
structure SemOk (v : ℤ) (w : World) (ns : List ℕ) : Prop where
  list : WaitList w.m ns
  asleep : ∀ a ∈ ns, w.m.state (task w.m a) = .SLEEPING ∧ task w.m a ∈ w.inP
  order : ns.Pairwise fun a b => w.arrived (task w.m b) < w.arrived (task w.m a)
  recent : ∀ a ∈ ns, w.arrived (task w.m a) < w.begun
  length : (ns.length : ℤ) = max 0 (-w.m.sem.value)
  value : w.m.sem.value = v + w.done - w.begun
  below : w.m.sem.value < 2 ^ 31
  begun : w.passed + w.inP.card = w.begun
  tasks : w.inP ⊆ Finset.range NTASK

variable {v : ℤ} {w w' : World} {m : Machine} {ns : List ℕ} {t tl : ℕ} {junk : TaskList}

theorem Fresh.ok (h : Fresh v w) (hv : 0 ≤ v) (hlt : v < 2 ^ 31) : SemOk v w [] := by
  obtain ⟨⟨m, garbage, hm⟩, -, hb, hd, hp, hi, -⟩ := h
  refine ⟨⟨?_, fun hne => absurd rfl hne, by simp, List.nodup_nil, by simp⟩, by simp,
    List.Pairwise.nil, by simp, ?_, ?_, ?_, ?_, by simp [hi]⟩
  · rw [hm]
    rfl
  · rw [hm]
    change (0 : ℤ) = max 0 (-v)
    omega
  · rw [hm, hb, hd]
    change v = v + 0 - 0
    omega
  · rw [hm]
    exact hlt
  · rw [hp, hi, hb]
    rfl

/-! ### The wait list under `lm_P` and `lm_V` -/

theorem lmP_pass (h : ¬ int32 (m.sem.value - 1) < 0) :
    lmP m t tl = { m with sem := { m.sem with value := int32 (m.sem.value - 1) } } := if_neg h

/-- What a blocking `lm_P` leaves behind. -/
structure Enqueued (m m' : Machine) (t tl : ℕ) : Prop where
  value : m'.sem.value = int32 (m.sem.value - 1)
  head : m'.sem.head = tl
  tail : m'.sem.tail = if m.sem.head ≠ 0 then m.sem.tail else tl
  own : m'.own = tl :: m.own
  state : m'.state = Function.update m.state t .SLEEPING
  task : Sync.task m' = Function.update (Sync.task m) tl t
  next : Sync.next m' = Function.update (Sync.next m) tl m.sem.head
  prev : m.sem.head ≠ tl → Sync.prev m' =
    if m.sem.head ≠ 0 then Function.update (Function.update (Sync.prev m) tl 0) m.sem.head tl
    else Function.update (Sync.prev m) tl 0

theorem lmP_block (h : int32 (m.sem.value - 1) < 0) (hne : m.sem.head ≠ tl) :
    Enqueued m (lmP m t tl) t tl := by
  unfold lmP
  simp only [h, ↓reduceIte]
  by_cases hh : m.sem.head = 0
  · simp only [hh, ne_eq, not_true_eq_false, ↓reduceIte]
    have hfield (f : TaskList → ℕ) : (fun a => f (Function.update m.node tl ⟨t, 0, 0⟩ a)) =
        Function.update (fun a => f (m.node a)) tl (f ⟨t, 0, 0⟩) := Function.comp_update f m.node tl _
    exact ⟨rfl, rfl, by simp [hh], rfl, rfl, hfield TaskList.task,
      by rw [hh]; exact hfield TaskList.next, fun _ => by simp [hh]; exact hfield TaskList.prev⟩
  · simp only [hh, ne_eq, not_false_eq_true, ↓reduceIte, Function.update_of_ne hne]
    have hfield (f : TaskList → ℕ) (x : TaskList) :
        (fun a => f (Function.update (Function.update m.node tl ⟨t, m.sem.head, 0⟩) m.sem.head x a)) =
        Function.update (Function.update (fun a => f (m.node a)) tl (f ⟨t, m.sem.head, 0⟩))
          m.sem.head (f x) := by
      funext a
      by_cases ha : a = m.sem.head
      · rw [ha, Function.update_self, Function.update_self]
      · rw [Function.update_of_ne ha, Function.update_of_ne ha]
        by_cases hl : a = tl
        · rw [hl, Function.update_self, Function.update_self]
        · rw [Function.update_of_ne hl, Function.update_of_ne hl]
    have hsame (f : ℕ → ℕ) (x : ℕ) : Function.update (Function.update f tl x) m.sem.head
        (f m.sem.head) = Function.update f tl x := by
      rw [← Function.update_of_ne hne x f, Function.update_eq_self]
    exact ⟨rfl, rfl, by simp [hh], rfl, rfl, (hfield TaskList.task _).trans (hsame _ _),
      (hfield TaskList.next _).trans (hsame _ _), fun _ => by
        rw [if_pos hh]
        exact hfield TaskList.prev _⟩

/-- The new record goes to the front of the list. -/
theorem WaitList.push (h : WaitList m ns) {m' : Machine} (he : Enqueued m m' t tl)
    (h0 : tl ≠ 0) (hf : tl ∉ m.own) : WaitList m' (tl :: ns) := by
  have hnot : tl ∉ ns := fun hm => hf (h.owned tl hm)
  have hnext : ∀ a ∈ ns, next m' a = next m a := fun a ha => by
    rw [he.next, Function.update_of_ne (by rintro rfl; exact hnot ha)]
  refine ⟨⟨he.head, ?_⟩, fun _ => ?_, ?_, List.nodup_cons.mpr ⟨hnot, h.nodup⟩, ?_⟩
  · rw [he.next, Function.update_self, ← he.next]
    exact h.forward.congr hnext
  · rw [List.reverse_cons]
    cases ns with
    | nil =>
      have hh : m.sem.head = 0 := h.forward
      rw [he.tail, he.prev (by rw [hh]; exact h0.symm)]
      simp [hh]
    | cons x xs =>
      have hh : m.sem.head = x := h.forward.1
      have hx0 : m.sem.head ≠ 0 := hh ▸ h.ne_null x List.mem_cons_self
      have hxl : m.sem.head ≠ tl := by
        rw [hh]
        rintro rfl
        exact hnot List.mem_cons_self
      have hback := h.backward (List.cons_ne_nil x xs)
      rw [List.reverse_cons] at hback ⊢
      have hnd := h.nodup
      have hxr : x ∉ xs.reverse := by
        rw [List.mem_reverse]
        exact (List.nodup_cons.mp hnd).1
      rw [he.tail, if_pos hx0, he.prev hxl, if_pos hx0, hh]
      refine seg_append.mpr ⟨tl, ?_, rfl, ?_⟩
      · refine Seg.update_last ?_ hxr (q := 0)
        refine hback.congr fun a ha => Function.update_of_ne ?_ _ _
        rintro rfl
        refine hnot ?_
        simpa [or_comm] using ha
      · rw [Function.update_of_ne (hh ▸ hxl.symm), Function.update_self]
        rfl
  · intro a ha
    rcases List.mem_cons.mp ha with rfl | ha
    · exact h0
    · exact h.ne_null a ha
  · intro a ha
    rw [he.own]
    rcases List.mem_cons.mp ha with rfl | ha
    · exact List.mem_cons_self
    · exact List.mem_cons_of_mem _ (h.owned a ha)

/-- What a waking `lm_V` leaves behind, for the last record `tl` of the list `ms ++ [tl]`. -/
structure Dequeued (m m' : Machine) (ms : List ℕ) (tl : ℕ) : Prop where
  value : m'.sem.value = int32 (m.sem.value + 1)
  own : m'.own = m.own.erase tl
  state : m'.state = Function.update m.state (task m tl) .RUNNABLE
  tasks : ∀ a ∈ ms, task m' a = task m a
  list : WaitList m' ms

theorem lmV_pass (h : ¬ int32 (m.sem.value + 1) ≤ 0) :
    lmV m junk = { m with sem := { m.sem with value := int32 (m.sem.value + 1) } } := if_neg h

theorem lmV_wake {ms : List ℕ} (hv : int32 (m.sem.value + 1) ≤ 0) (h : WaitList m (ms ++ [tl])) :
    Dequeued m (lmV m junk) ms tl ∧ m.sem.tail = tl := by
  have hback := h.backward (by simp)
  rw [List.reverse_append, List.reverse_singleton, List.singleton_append] at hback
  obtain ⟨htail, hback⟩ := hback
  obtain ⟨hms, -, hdisj⟩ := List.nodup_append.mp h.nodup
  have hnot (a : ℕ) (ha : a ∈ ms) : a ≠ tl := fun he => hdisj a ha tl (by simp) he
  have hown (a : ℕ) (ha : a ∈ ms) : a ∈ m.own.erase tl :=
    (List.mem_erase_of_ne (hnot a ha)).mpr (h.owned a (List.mem_append_left _ ha))
  have hnull (a : ℕ) (ha : a ∈ ms) : a ≠ 0 := h.ne_null a (List.mem_append_left _ ha)
  refine ⟨?_, htail⟩
  unfold lmV
  simp only [hv, htail, ↓reduceIte]
  rcases ms.eq_nil_or_concat with rfl | ⟨ks, k, rfl⟩
  · have hp : (m.node tl).prev = 0 := hback
    simp only [hp, ↓reduceIte]
    exact ⟨rfl, rfl, rfl, by simp, rfl, fun hne => absurd rfl hne, by simp, List.nodup_nil, by simp⟩
  · rw [List.concat_eq_append] at *
    rw [List.reverse_append, List.reverse_singleton, List.singleton_append] at hback
    have hp : (m.node tl).prev = k := hback.1
    have hk : k ∈ ks ++ [k] := by simp
    have hk0 : k ≠ 0 := hnull k hk
    have hkl : k ≠ tl := hnot k hk
    simp only [hp, hk0, ↓reduceIte]
    have hnode (a : ℕ) (ha : a ∈ ks ++ [k]) :
        Function.update (Function.update m.node k { m.node k with next := 0 }) tl junk a =
          Function.update m.node k { m.node k with next := 0 } a :=
      Function.update_of_ne (hnot a ha) _ _
    have hsame (f : TaskList → ℕ) (hf : f { m.node k with next := 0 } = f (m.node k)) (a : ℕ)
        (ha : a ∈ ks ++ [k]) :
        f (Function.update (Function.update m.node k { m.node k with next := 0 }) tl junk a) =
          f (m.node a) := by
      rw [hnode a ha]
      by_cases hak : a = k
      · rw [hak, Function.update_self, hf]
      · rw [Function.update_of_ne hak]
    refine ⟨rfl, rfl, rfl, hsame TaskList.task rfl, ⟨?_, fun _ => ?_, hnull, hms, hown⟩⟩
    · obtain ⟨q, hseg, -⟩ := seg_append.mp h.forward
      have hkks : k ∉ ks := fun hm => (List.nodup_append.mp hms).2.2 k hm k (by simp) rfl
      refine (hseg.update_last hkks (v := 0)).congr fun a ha => ?_
      change (Function.update (Function.update m.node k { m.node k with next := 0 }) tl junk a).next = _
      rw [hnode a ha]
      by_cases hak : a = k
      · rw [hak, Function.update_self, Function.update_self]
      · rw [Function.update_of_ne hak, Function.update_of_ne hak]
        rfl
    · rw [List.reverse_append, List.reverse_singleton, List.singleton_append]
      refine Seg.congr ⟨rfl, hback.2⟩ fun a ha => hsame TaskList.prev rfl a ?_
      simpa [or_comm] using ha

/-! ### Steps -/

/-- Sleeping tasks in `lm_P` are not the one a step moves. -/
theorem SemOk.task_ne (h : SemOk v w ns) {a : ℕ} (ha : a ∈ ns) (ht : w.m.state t ≠ .SLEEPING) :
    task w.m a ≠ t := by
  rintro rfl
  exact ht (h.asleep a ha).1

/-- Changes of the state of tasks that do not sleep on the semaphore. -/
theorem SemOk.restate (h : SemOk v w ns) {state : ℕ → TaskState} {lock : ℕ → Bool}
    (hs : ∀ a ∈ ns, state (task w.m a) = w.m.state (task w.m a)) :
    SemOk v { w with m := { w.m with state := state, lock := lock } } ns :=
  ⟨⟨h.list.forward, h.list.backward, h.list.ne_null, h.list.nodup, h.list.owned⟩,
    fun a ha => ⟨(hs a ha).trans (h.asleep a ha).1, (h.asleep a ha).2⟩, h.order, h.recent,
    h.length, h.value, h.below, h.begun, h.tasks⟩

/-- The tasks on the list are in `lm_P`. -/
theorem SemOk.waiting_le (h : SemOk v w ns) : ns.length ≤ w.inP.card := by
  have hnd : (ns.map (task w.m)).Nodup := by
    refine (List.pairwise_map.mpr (h.order.imp fun {a b} hab he => ?_))
    rw [he] at hab
    exact lt_irrefl _ hab
  rw [← List.length_map (task w.m), ← List.toFinset_card_of_nodup hnd]
  refine Finset.card_le_card fun t ht => ?_
  obtain ⟨a, ha, rfl⟩ := List.mem_map.mp (List.mem_toFinset.mp ht)
  exact (h.asleep a ha).2

/-- There are not as many tasks as values of an `int`. -/
theorem SemOk.neg_le (h : SemOk v w ns) : -(NTASK : ℤ) ≤ w.m.sem.value := by
  have hle := h.waiting_le
  have hcard := Finset.card_le_card h.tasks
  rw [Finset.card_range] at hcard
  have hlen := h.length
  omega

theorem SemOk.down (h : SemOk v w ns) : int32 (w.m.sem.value - 1) = w.m.sem.value - 1 := by
  have hge := h.neg_le
  have hlt := h.below
  have hn : (NTASK : ℤ) = 1010 := rfl
  exact int32_eq (by omega) (by omega)

theorem SemOk.up (h : SemOk v w ns) (hfit : Fits w (.V t junk)) :
    int32 (w.m.sem.value + 1) = w.m.sem.value + 1 := by
  have hge := h.neg_le
  have hlt : w.m.sem.value < 2 ^ 31 - 1 := hfit
  have hn : (NTASK : ℤ) = 1010 := rfl
  exact int32_eq (by omega) (by omega)

theorem SemOk.P (h : SemOk v w ns) (hn : t < NTASK) (ht : w.m.state t = .RUNNING) (hin : t ∉ w.inP)
    (h0 : tl ≠ 0) (hf : tl ∉ w.m.own) : ∃ ns', SemOk v (afterP w t tl) ns' := by
  have hrun : w.m.state t ≠ .SLEEPING := by
    rw [ht]
    decide
  have hlen := h.length
  have hval := h.value
  have hlt := h.below
  have hdown := h.down
  unfold afterP
  split_ifs with hb
  · have hhead : w.m.sem.head ≠ tl := by
      cases ns with
      | nil => exact fun he => h0 (he.symm.trans h.list.forward)
      | cons x xs =>
        intro he
        refine hf (h.list.owned tl ?_)
        rw [← he, h.list.forward.1]
        exact List.mem_cons_self
    have he := lmP_block (t := t) hb hhead
    have hnot : tl ∉ ns := fun hm => hf (h.list.owned tl hm)
    have htask (a : ℕ) (ha : a ∈ ns) : task (lmP w.m t tl) a = task w.m a := by
      rw [he.task, Function.update_of_ne (by rintro rfl; exact hnot ha)]
    have hself : task (lmP w.m t tl) tl = t := by rw [he.task, Function.update_self]
    refine ⟨tl :: ns, h.list.push he h0 hf, ?_, ?_, ?_, ?_, ?_, ?_, ?_, ?_⟩
    · intro a ha
      dsimp only
      rw [he.state]
      rcases List.mem_cons.mp ha with rfl | ha
      · rw [hself, Function.update_self]
        exact ⟨rfl, Finset.mem_insert_self _ _⟩
      · rw [htask a ha, Function.update_of_ne (h.task_ne ha hrun)]
        exact ⟨(h.asleep a ha).1, Finset.mem_insert_of_mem (h.asleep a ha).2⟩
    · dsimp only
      refine List.pairwise_cons.mpr ⟨fun b hb' => ?_, h.order.imp_of_mem fun {a b} ha hb' hab => ?_⟩
      · rw [hself, htask b hb', Function.update_self, Function.update_of_ne (h.task_ne hb' hrun)]
        exact h.recent b hb'
      · rw [htask a ha, htask b hb', Function.update_of_ne (h.task_ne ha hrun),
          Function.update_of_ne (h.task_ne hb' hrun)]
        exact hab
    · intro a ha
      dsimp only
      rcases List.mem_cons.mp ha with rfl | ha
      · rw [hself, Function.update_self]
        exact Nat.lt_succ_self _
      · rw [htask a ha, Function.update_of_ne (h.task_ne ha hrun)]
        exact (h.recent a ha).trans (Nat.lt_succ_self _)
    · dsimp only
      rw [he.value, hdown, List.length_cons]
      push_cast
      omega
    · dsimp only
      rw [he.value, hdown]
      push_cast
      omega
    · dsimp only
      rw [he.value, hdown]
      omega
    · have := h.begun
      dsimp only
      rw [Finset.card_insert_of_notMem hin]
      omega
    · exact Finset.insert_subset (Finset.mem_range.mpr hn) h.tasks
  · rw [lmP_pass hb, hdown]
    refine ⟨ns, ⟨h.list.forward, h.list.backward, h.list.ne_null, h.list.nodup, h.list.owned⟩,
      h.asleep, h.order, fun a ha => (h.recent a ha).trans (Nat.lt_succ_self _), ?_, ?_, ?_, ?_,
      h.tasks⟩
    · dsimp only
      omega
    · dsimp only
      push_cast
      omega
    · dsimp only
      omega
    · have := h.begun
      dsimp only
      omega

/-- `lm_V` without waiters, or on the task that came first. -/
theorem SemOk.V (h : SemOk v w ns) (hfit : Fits w (.V t junk)) :
    (0 ≤ w.m.sem.value ∧ SemOk v (afterV w t junk) ns ∧ (lmV w.m junk).state = w.m.state) ∨
      ∃ ms tl, ns = ms ++ [tl] ∧ w.m.sem.value < 0 ∧ waiter w.m = task w.m tl ∧
        SemOk v (afterV w t junk) ms ∧
        (lmV w.m junk).state = Function.update w.m.state (task w.m tl) .RUNNABLE := by
  have hlen := h.length
  have hval := h.value
  have hlt : w.m.sem.value < 2 ^ 31 - 1 := hfit
  have hup := h.up hfit
  by_cases hv : int32 (w.m.sem.value + 1) ≤ 0
  · right
    obtain ⟨ms, tl, rfl⟩ : ∃ ms tl, ns = ms ++ [tl] := by
      rcases ns.eq_nil_or_concat with rfl | ⟨ms, tl, rfl⟩
      · simp only [List.length_nil, Nat.cast_zero] at hlen
        omega
      · exact ⟨ms, tl, List.concat_eq_append⟩
    obtain ⟨hd, htail⟩ := lmV_wake hv h.list
    have hmem (a : ℕ) (ha : a ∈ ms) : a ∈ ms ++ [tl] := List.mem_append_left _ ha
    have horder := h.order
    rw [List.pairwise_append] at horder
    obtain ⟨hpair, -, hlast⟩ := horder
    have hne (a : ℕ) (ha : a ∈ ms) : task w.m a ≠ task w.m tl := fun he => by
      have := hlast a ha tl (by simp)
      rw [he] at this
      omega
    refine ⟨ms, tl, rfl, by omega, by rw [waiter, htail]; rfl, ⟨hd.list, fun a ha => ?_,
      hpair.imp_of_mem fun {a b} ha hb hab => ?_, fun a ha => ?_, ?_, ?_, ?_, h.begun, h.tasks⟩,
      hd.state⟩
    · dsimp only [afterV]
      rw [hd.tasks a ha, hd.state, Function.update_of_ne (hne a ha)]
      exact h.asleep a (hmem a ha)
    · dsimp only [afterV]
      rwa [hd.tasks a ha, hd.tasks b hb]
    · dsimp only [afterV]
      rw [hd.tasks a ha]
      exact h.recent a (hmem a ha)
    · dsimp only [afterV]
      rw [hd.value, hup]
      rw [List.length_append, List.length_singleton] at hlen
      push_cast at hlen
      omega
    · dsimp only [afterV]
      rw [hd.value, hup]
      push_cast
      omega
    · dsimp only [afterV]
      rw [hd.value, hup]
      omega
  · left
    rw [afterV, lmV_pass hv, hup]
    refine ⟨by omega, ⟨⟨h.list.forward, h.list.backward, h.list.ne_null, h.list.nodup,
      h.list.owned⟩, h.asleep, h.order, h.recent, ?_, ?_, ?_, h.begun, h.tasks⟩, rfl⟩
    · dsimp only
      omega
    · dsimp only
      push_cast
      omega
    · dsimp only
      omega

theorem SemOk.resume (h : SemOk v w ns) (hin : t ∈ w.inP) (ht : w.m.state t = .RUNNING) :
    SemOk v { w with
      passed := w.passed + 1
      inP := w.inP.erase t
      inside := insert t w.inside } ns := by
  refine ⟨h.list, fun a ha => ⟨(h.asleep a ha).1, ?_⟩, h.order, h.recent, h.length, h.value,
    h.below, ?_, (Finset.erase_subset _ _).trans h.tasks⟩
  · refine Finset.mem_erase.mpr ⟨h.task_ne ha ?_, (h.asleep a ha).2⟩
    rw [ht]
    decide
  · have := h.begun
    have := Finset.card_erase_add_one hin
    dsimp only
    omega

theorem SemOk.step {a : Act} (h : SemOk v w ns) (hfit : Fits w a) (hs : Step w a w') :
    ∃ ns', SemOk v w' ns' := by
  cases hs with
  | P hn ht hin h0 hf => exact h.P hn ht hin h0 hf
  | V hl =>
    rcases h.V hfit with ⟨-, h', -⟩ | ⟨ms, tl, -, -, -, h', -⟩
    · exact ⟨ns, h'⟩
    · exact ⟨ms, h'⟩
  | release hl => exact ⟨ns, h.restate fun _ _ => rfl⟩
  | @run t ht hl =>
    refine ⟨ns, h.restate fun a ha => Function.update_of_ne (h.task_ne ha ?_) _ _⟩
    rw [ht]
    decide
  | @yield t ht =>
    refine ⟨ns, h.restate fun a ha => Function.update_of_ne (h.task_ne ha ?_) _ _⟩
    rw [ht]
    decide
  | resume hin ht => exact ⟨ns, h.resume hin ht⟩
  | @other state node hst hnode =>
    have hsame (a : ℕ) (ha : a ∈ ns) : node a = w.m.node a := hnode a (h.list.owned a ha)
    have htask (a : ℕ) (ha : a ∈ ns) : (node a).task = task w.m a := by rw [hsame a ha]; rfl
    refine ⟨ns, ⟨h.list.forward.congr fun a ha => ?_, fun hne => (h.list.backward hne).congr
      fun a ha => ?_, h.list.ne_null, h.list.nodup, h.list.owned⟩, fun a ha => ?_,
      h.order.imp_of_mem fun {a b} ha hb hab => ?_, fun a ha => ?_, h.length, h.value, h.below,
      h.begun, h.tasks⟩
    · exact congrArg TaskList.next (hsame a ha)
    · exact congrArg TaskList.prev (hsame a (List.mem_reverse.mp ha))
    · change state (node a).task = .SLEEPING ∧ (node a).task ∈ w.inP
      rw [htask a ha, hst _ (h.asleep a ha).2]
      exact h.asleep a ha
    · change w.arrived (node b).task < w.arrived (node a).task
      rwa [htask a ha, htask b hb]
    · change w.arrived (node a).task < w.begun
      rw [htask a ha]
      exact h.recent a ha

theorem Run.semOk {w₀ : World} (hv : 0 ≤ v) (hlt : v < 2 ^ 31) (h₀ : Fresh v w₀)
    (h : Run Fits w₀ w) : ∃ ns, SemOk v w ns := by
  induction h with
  | refl => exact ⟨[], h₀.ok hv hlt⟩
  | tail _ hfit hs ih =>
    obtain ⟨ns, hns⟩ := ih
    exact hns.step hfit hs

/-! ### Counting the operations let through -/

theorem SemOk.passed_le (h : SemOk v w ns) :
    (w.begun : ℤ) - ns.length ≤ v + w.done ∧ (w.passed : ℤ) ≤ v + w.done := by
  have hle := h.waiting_le
  have hlen := h.length
  have hval := h.value
  have hbegun := h.begun
  omega

/-- In a run of pairs, the tasks inside are the operations let through and not undone. -/
structure PairOk (w : World) : Prop where
  count : w.passed = w.done + w.inside.card
  apart : Disjoint w.inP w.inside

theorem PairOk.step {a : Act} (h : PairOk w) (hp : Paired w a) (hs : Step w a w') : PairOk w' := by
  obtain ⟨hc, hd⟩ := h
  cases hs with
  | @P t tl hn ht hin h0 hf =>
    have hout : t ∉ w.inside := hp
    unfold afterP
    split_ifs
    · exact ⟨hc, Finset.disjoint_insert_left.mpr ⟨hout, hd⟩⟩
    · refine ⟨?_, Finset.disjoint_insert_right.mpr ⟨hin, hd⟩⟩
      dsimp only
      rw [Finset.card_insert_of_notMem hout, hc]
      omega
  | @V t junk hl =>
    have hmem : t ∈ w.inside := hp
    refine ⟨?_, hd.mono_right (Finset.erase_subset _ _)⟩
    have := Finset.card_erase_add_one hmem
    dsimp only [afterV]
    omega
  | release hl => exact ⟨hc, hd⟩
  | run ht hl => exact ⟨hc, hd⟩
  | yield ht => exact ⟨hc, hd⟩
  | @resume t hin ht =>
    have hout : t ∉ w.inside := Finset.disjoint_left.mp hd hin
    refine ⟨?_, ?_⟩
    · dsimp only
      rw [Finset.card_insert_of_notMem hout, hc]
      omega
    · refine Finset.disjoint_insert_right.mpr ⟨Finset.notMem_erase _ _, ?_⟩
      exact hd.mono_left (Finset.erase_subset _ _)
  | other hst hnode => exact ⟨hc, hd⟩

/-- A pair never finds more than the one unit there was. -/
theorem SemOk.fits {a : Act} (h : SemOk 1 w ns) (hpair : PairOk w) : Fits w a := by
  have hval := h.value
  have hbegun := h.begun
  have hcount := hpair.count
  cases a with
  | V t junk =>
    change w.m.sem.value < 2 ^ 31 - 1
    omega
  | _ => trivial

theorem Run.paired {w₀ : World} (h₀ : Fresh 1 w₀) (h : Run Paired w₀ w) :
    PairOk w ∧ ∃ ns, SemOk 1 w ns := by
  induction h with
  | refl => exact ⟨⟨by rw [h₀.passed, h₀.done, h₀.inside]; rfl, by simp [h₀.inside]⟩, [],
      h₀.ok (by decide) (by decide)⟩
  | tail _ hp hs ih =>
    obtain ⟨hpair, ns, hns⟩ := ih
    exact ⟨hpair.step hp hs, hns.step (hns.fits hpair) hs⟩

/-- The state of a semaphore in any run in which its value stays an `int`: it counts the
operations, the wait list holds the sleeping tasks, and `lm_V` wakes the one that has waited
longest. With one unit and paired operations at most one task is inside. -/
theorem semaphore_correct {w₀ : World} (hv : 0 ≤ v) (hlt : v < 2 ^ 31) (h₀ : Fresh v w₀) :
    (∀ w, Run Fits w₀ w → ∃ ns, WaitList w.m ns ∧
      w.m.sem.value = v + w.done - w.begun ∧ (ns.length : ℤ) = max 0 (-w.m.sem.value) ∧
      (∀ a ∈ ns, w.m.state (task w.m a) = .SLEEPING) ∧
      (∀ t junk w', Fits w (.V t junk) → Step w (.V t junk) w' →
        (0 ≤ w.m.sem.value → w'.m.state = w.m.state) ∧
        (w.m.sem.value < 0 → ∃ a ∈ ns,
          (∀ b ∈ ns, b ≠ a → w.arrived (task w.m a) < w.arrived (task w.m b)) ∧
          w'.m.state = Function.update w.m.state (task w.m a) .RUNNABLE)) ∧
      (w.begun : ℤ) - ns.length ≤ v + w.done ∧ (w.passed : ℤ) ≤ v + w.done) ∧
    (v = 1 → ∀ w, Run Paired w₀ w → w.inside.card ≤ 1) := by
  refine ⟨fun w hr => ?_, fun h1 w hr => ?_⟩
  · obtain ⟨ns, h⟩ := hr.semOk hv hlt h₀
    refine ⟨ns, h.list, h.value, h.length, fun a ha => (h.asleep a ha).1,
      fun t junk w' hfit hs => ?_, h.passed_le⟩
    cases hs with
    | V hl =>
      rcases h.V hfit with ⟨hpos, -, hst⟩ | ⟨ms, tl, rfl, hneg, -, -, hst⟩
      · exact ⟨fun _ => hst, fun hneg => absurd hneg (not_lt.mpr hpos)⟩
      · refine ⟨fun hpos => absurd hneg (not_lt.mpr hpos), fun _ => ⟨tl, by simp, fun b hb hne => ?_,
          hst⟩⟩
        have hb : b ∈ ms := by
          rcases List.mem_append.mp hb with hb | hb
          · exact hb
          · exact absurd (List.mem_singleton.mp hb) hne
        exact (List.pairwise_append.mp h.order).2.2 b hb tl (by simp)
  · subst h1
    obtain ⟨hpair, ns, h⟩ := hr.paired h₀
    have hcount := hpair.count
    have hle := h.passed_le.2
    omega

/-- A semaphore with `v` units and running tasks. -/
def semaphoreOf (v : ℤ) : World where
  m := lmSemInit ⟨⟨0, 0, 0⟩, fun _ => ⟨0, 0, 0⟩, [], fun _ => .RUNNING, fun _ => false⟩ v 77
  begun := 0
  done := 0
  passed := 0
  inP := ∅
  arrived _ := 0
  inside := ∅

theorem semaphoreOf_fresh (v : ℤ) : Fresh v (semaphoreOf v) :=
  ⟨⟨_, _, rfl⟩, rfl, rfl, rfl, rfl, rfl, rfl⟩

abbrev binary : World := semaphoreOf 1

/-- One task is inside, two wait, and `lm_V` wakes the one that has waited longer. -/
theorem binary_waiter : ∃ w w', Run Fits binary w ∧ w.m.sem.value = -2 ∧
    Step w (.V 1 ⟨0, 0, 0⟩) w' ∧ w'.m.state 2 = .RUNNABLE ∧ w'.m.state 3 = .SLEEPING ∧
    ∃ ns, WaitList w.m ns ∧ (ns.length : ℤ) = 2 ∧
      ∃ a ∈ ns, w'.m.state = Function.update w.m.state (task w.m a) .RUNNABLE := by
  obtain ⟨w₁, hw₁⟩ : ∃ w, w = afterP binary 1 100 := ⟨_, rfl⟩
  obtain ⟨w₂, hw₂⟩ : ∃ w, w = afterP w₁ 2 200 := ⟨_, rfl⟩
  obtain ⟨w₃, hw₃⟩ : ∃ w, w = afterP w₂ 3 300 := ⟨_, rfl⟩
  obtain ⟨w₄, hw₄⟩ : ∃ w, w = { w₃ with m := { w₃.m with lock := Function.update w₃.m.lock 2 false } } :=
    ⟨_, rfl⟩
  have h₁ : Step binary (.P 1 100) w₁ := hw₁ ▸ .P (by decide) rfl (by decide) (by decide) (by decide)
  have h₂ : Step w₁ (.P 2 200) w₂ := by
    subst hw₁ hw₂
    exact .P (by decide) rfl (by decide) (by decide) (by decide)
  have h₃ : Step w₂ (.P 3 300) w₃ := by
    subst hw₁ hw₂ hw₃
    exact .P (by decide) rfl (by decide) (by decide) (by decide)
  have h₄ : Step w₃ (.release 2) w₄ := by
    subst hw₁ hw₂ hw₃ hw₄
    exact .release rfl
  have hr : Run Fits binary w₄ :=
    (((Run.refl.tail (a := .P 1 100) trivial h₁).tail (a := .P 2 200) trivial h₂).tail
      (a := .P 3 300) trivial h₃).tail (a := .release 2) trivial h₄
  have hv : Step w₄ (.V 1 ⟨0, 0, 0⟩) (afterV w₄ 1 ⟨0, 0, 0⟩) := .V fun _ => by
    subst hw₁ hw₂ hw₃ hw₄
    rfl
  have hvalue : w₄.m.sem.value = -2 := by
    subst hw₁ hw₂ hw₃ hw₄
    rfl
  have hfit : Fits w₄ (.V 1 ⟨0, 0, 0⟩) := by
    change w₄.m.sem.value < 2 ^ 31 - 1
    rw [hvalue]
    decide
  obtain ⟨ns, hlist, -, hlen, -, hwake, -⟩ :=
    (semaphore_correct (by decide) (by decide) (semaphoreOf_fresh 1)).1 w₄ hr
  obtain ⟨a, ha, -, hstate⟩ := (hwake 1 _ _ hfit hv).2 (by rw [hvalue]; decide)
  refine ⟨w₄, _, hr, hvalue, hv, ?_, ?_, ns, hlist, by rw [hlen, hvalue]; rfl, a, ha, hstate⟩
  · subst hw₁ hw₂ hw₃ hw₄
    rfl
  · subst hw₁ hw₂ hw₃ hw₄
    rfl

/-- With as many units as an `int` holds, the first `lm_V` makes the value negative. -/
theorem largest_value_wraps : ¬ ∀ (v : ℤ) (w₀ w : World), 0 ≤ v → v < 2 ^ 31 → Fresh v w₀ →
    Run (fun _ _ => True) w₀ w → w.m.sem.value = v + w.done - w.begun := by
  intro h
  have hstep : Step (semaphoreOf (2 ^ 31 - 1)) (.V 1 ⟨0, 0, 0⟩)
      (afterV (semaphoreOf (2 ^ 31 - 1)) 1 ⟨0, 0, 0⟩) := .V fun _ => rfl
  have hvalue := h _ _ _ (by decide) (by decide) (semaphoreOf_fresh (2 ^ 31 - 1))
    (.tail .refl trivial hstep)
  exact absurd hvalue (by decide)

end Zrhos.Sync
