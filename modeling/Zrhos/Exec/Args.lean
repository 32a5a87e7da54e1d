import Zrhos.Exec.Elf

/-! The arguments of a new program: strings, their addresses and the registers that `exec`
sets up, against what `main(argc, argv)` is promised. -/
namespace Zrhos.Exec
open Mmap OrderedSet Overlay

variable {κ : Type} {cnt : Counters κ} {f : File} {k k' : Kern κ} {a : Alloc κ} {old im : Image}
  {ps : List ℕ} {mem : ℕ → ℕ → ℕ} {tf tf' : Trapframe} {L : List Page}
  {trampoline highLevel sp : ℕ} {argv : List (List ℕ)} {ustack : List ℕ}

/-! ### What is promised -/

/-- The room `n` bytes take on a stack that stays aligned to 16 bytes. -/
def round16 (n : ℕ) : ℕ := (n + 15) / 16 * 16

/-- The room of the strings and of an array with `u` more pointers. -/
def need (u : ℕ) (argv : List (List ℕ)) : ℕ :=
  (argv.map fun arg => round16 (arg.length + 1)).sum + round16 ((u + argv.length + 1) * 8)

/-- Argument lists that fit in the two pages. -/
structure Fits (argv : List (List ℕ)) : Prop where
  count : argv.length < MAXARG
  noNul : ∀ arg ∈ argv, 0 ∉ arg
  room : need 0 argv ≤ 2 * PGSIZE

/-- Bytes that the task may read and write. -/
def ShowsBytes (k : Kern κ) (im : Image) (a : ℕ) (bs : List ℕ) : Prop :=
  ∀ i (h : i < bs.length), Shows k im ELF_PROG_FLAG_WRITE (a + i) (bs.get ⟨i, h⟩)

/-- The strings at `addrs` with their lengths, and the array. -/
def ranges (sp : ℕ) (addrs : List ℕ) (argv : List (List ℕ)) : List (ℕ × ℕ) :=
  ((addrs.zip argv).map fun p => (p.1, p.2.length + 1)) ++ [(sp, (argv.length + 1) * 8)]

structure ArgsPassed (k : Kern κ) (im : Image) (tf : Trapframe) (argv : List (List ℕ)) :
    Prop where
  count : tf TF_A0 = argv.length
  array : tf TF_A1 = tf TF_SP
  aligned : tf TF_SP % 16 = 0
  inside : VA_USERSTACK ≤ tf TF_SP ∧ tf TF_SP < VA_USERSTACK + 2 * PGSIZE
  memory : ∃ addrs : List ℕ, addrs.length = argv.length ∧ (∀ a ∈ addrs, a < WORD) ∧
    (∀ j a, (addrs ++ [0])[j]? = some a → ShowsBytes k im (tf TF_SP + 8 * j) (wordBytes a)) ∧
    (∀ p ∈ addrs.zip argv, ShowsBytes k im p.1 (p.2 ++ [0])) ∧
    (ranges (tf TF_SP) addrs argv).Pairwise fun p q => p.1 + p.2 ≤ q.1 ∨ q.1 + q.2 ≤ p.1

/-- Nothing that the pages need is given back that the arguments are copied to. -/
def ArgsSpared (given : List ℕ) (im : Image) (argv : List (List ℕ)) : Prop :=
  ∀ a b, argByte argv a = some b → Spared given im (vpn a)

/-! ### Where the arguments are -/

/-- The addresses of the strings. -/
def addresses : List (List ℕ) → ℕ → List ℕ
  | [], _ => []
  | arg :: args, sp =>
    let sp := pushDown sp (arg.length + 1)
    sp :: addresses args sp

theorem addresses_length : (addresses argv sp).length = argv.length := by
  induction argv generalizing sp with
  | nil => rfl
  | cons arg args ih => rw [addresses, List.length_cons, ih, List.length_cons]

theorem addresses_lt {a : ℕ} (h : a ∈ addresses argv sp) : a < WORD := by
  induction argv generalizing sp with
  | nil => cases h
  | cons arg args ih =>
    rcases List.mem_cons.mp h with rfl | h
    · exact (Nat.sub_le _ _).trans_lt (Nat.mod_lt _ (by decide))
    · exact ih h

theorem pushes_eq : pushes argv sp ustack =
    ((addresses argv sp).zip argv).map (fun p => (p.1, p.2 ++ [0])) ++
      [(stackPointer argv sp ustack, (ustack ++ addresses argv sp ++ [0]).flatMap wordBytes)] := by
  induction argv generalizing sp ustack with
  | nil =>
    simp only [pushes, addresses, stackPointer, List.zip_nil_right, List.map_nil, List.nil_append,
      List.append_nil, List.flatMap_append, List.flatMap_singleton]
  | cons arg args ih =>
    rw [pushes, ih, addresses, stackPointer, List.zip_cons_cons, List.map_cons, List.cons_append,
      List.append_assoc ustack [_]]
    rfl

/-- The strings and the array take the ranges that were pushed. -/
theorem ranges_eq : ranges (stackPointer argv sp []) (addresses argv sp) argv =
    (pushes argv sp []).map fun p => (p.1, p.2.length) := by
  rw [pushes_eq, List.nil_append, ranges, List.map_append, List.map_map, List.map_singleton,
    flatMap_wordBytes_length, List.length_append, List.length_singleton, addresses_length]
  congr 1
  refine List.map_congr_left fun q _ => ?_
  simp only [Function.comp_apply, List.length_append, List.length_singleton]

/-- A string at its address is one of the copies. -/
theorem string_pushed {q : ℕ × List ℕ} (hq : q ∈ (addresses argv sp).zip argv) :
    (q.1, q.2 ++ [0]) ∈ pushes argv sp [] := by
  rw [pushes_eq]
  exact List.mem_append_left _ (List.mem_map_of_mem (f := fun p => (p.1, p.2 ++ [0])) hq)

theorem array_pushed : (stackPointer argv sp [], (addresses argv sp ++ [0]).flatMap wordBytes) ∈
    pushes argv sp [] := by
  rw [pushes_eq]
  exact List.mem_append_right _ List.mem_cons_self

theorem pushDown_eq {n : ℕ} (hsp : sp % 16 = 0) (hw : sp < WORD) (hn : round16 n ≤ sp) :
    pushDown sp n = sp - round16 n ∧ pushDown sp n % 16 = 0 ∧ n ≤ round16 n := by
  have hle : n ≤ round16 n := by
    unfold round16
    omega
  obtain ⟨hmod, hdown, hup⟩ := pushDown_spec (show n ≤ sp by omega) hw
  refine ⟨?_, hmod, hle⟩
  unfold round16 at *
  omega

theorem need_cons (u : ℕ) (arg : List ℕ) (args : List (List ℕ)) :
    need u (arg :: args) = round16 (arg.length + 1) + need (u + 1) args := by
  simp only [need, List.map_cons, List.sum_cons, List.length_cons]
  rw [show u + (args.length + 1) + 1 = u + 1 + args.length + 1 by omega]
  omega

/-- Each copy lies below the ones before it. -/
theorem pushes_spec (hsp : sp % 16 = 0) (hw : sp < WORD) (hroom : need ustack.length argv ≤ sp) :
    stackPointer argv sp ustack = sp - need ustack.length argv ∧
    stackPointer argv sp ustack % 16 = 0 ∧ (pushes argv sp ustack).Pairwise Apart ∧
    ∀ p ∈ pushes argv sp ustack, stackPointer argv sp ustack ≤ p.1 ∧ p.1 + p.2.length ≤ sp := by
  induction argv generalizing sp ustack with
  | nil =>
    have hneed : need ustack.length [] = round16 ((ustack.length + 1) * 8) := by
      simp [need]
    rw [hneed] at hroom ⊢
    obtain ⟨heq, hmod, hle⟩ := pushDown_eq hsp hw hroom
    refine ⟨heq, hmod, List.pairwise_singleton _ _, fun p hp => ?_⟩
    obtain rfl := List.mem_singleton.mp hp
    rw [array_length]
    refine ⟨le_rfl, ?_⟩
    rw [heq]
    omega
  | cons arg args ih =>
    rw [need_cons] at hroom ⊢
    obtain ⟨heq, hmod, hle⟩ := pushDown_eq (n := arg.length + 1) hsp hw (by omega)
    have hlen : (ustack ++ [pushDown sp (arg.length + 1)]).length = ustack.length + 1 := by
      rw [List.length_append, List.length_singleton]
    have hroom' : need (ustack ++ [pushDown sp (arg.length + 1)]).length args ≤
        pushDown sp (arg.length + 1) := by
      rw [hlen]
      omega
    obtain ⟨hptr, hmod', hapart, hin⟩ := ih hmod (by omega) hroom'
    rw [hlen] at hptr
    rw [stackPointer, pushes]
    refine ⟨by rw [hptr, heq]; omega, hmod', List.pairwise_cons.mpr ⟨fun p hp => ?_, hapart⟩,
      fun p hp => ?_⟩
    · exact Or.inr (hin p hp).2
    · rcases List.mem_cons.mp hp with rfl | hp
      · rw [List.length_append, List.length_singleton]
        omega
      · have := hin p hp
        omega

/-! ### Words -/

theorem wordBytes_injective {x y : ℕ} (hx : x < WORD) (hy : y < WORD)
    (h : wordBytes x = wordBytes y) : x = y := by
  have hdigit (i : ℕ) (hi : i < 8) : x / 256 ^ i % 256 = y / 256 ^ i % 256 :=
    List.map_inj_left.mp h i (List.mem_range.mpr hi)
  have h0 := hdigit 0 (by decide)
  have h1 := hdigit 1 (by decide)
  have h2 := hdigit 2 (by decide)
  have h3 := hdigit 3 (by decide)
  have h4 := hdigit 4 (by decide)
  have h5 := hdigit 5 (by decide)
  have h6 := hdigit 6 (by decide)
  have h7 := hdigit 7 (by decide)
  simp only [WORD] at hx hy
  norm_num at h0 h1 h2 h3 h4 h5 h6 h7 hx hy
  omega

/-- The bytes of one word of an array. -/
theorem flatMap_wordBytes_get {xs : List ℕ} {j i a : ℕ} (hj : xs[j]? = some a) (hi : i < 8) :
    (xs.flatMap wordBytes)[8 * j + i]? = (wordBytes a)[i]? := by
  induction xs generalizing j with
  | nil => cases hj
  | cons x xs ih =>
    have hlen := wordBytes_length x
    rw [List.flatMap_cons]
    cases j with
    | zero =>
      cases hj
      rw [Nat.mul_zero, Nat.zero_add, List.getElem?_append_left (by omega)]
    | succ j =>
      rw [List.getElem?_append_right (by omega), hlen,
        show 8 * (j + 1) + i - 8 = 8 * j + i by omega]
      exact ih hj

/-! ### The bytes on the stack -/

theorem Made.stack_page (hm : Made f argv k ps a im L mem) {va : ℕ}
    (hva : VA_USERSTACK ≤ va ∧ va < VA_USERSTACK + 2 * PGSIZE) :
    ∃ x ∈ L, vpn va = x.v ∧ x.perm = flags2perm ELF_PROG_FLAG_WRITE ∧
      x.v * PGSIZE + va % PGSIZE = va := by
  have hslot : (vpn va, flags2perm ELF_PROG_FLAG_WRITE) ∈ f.slots := by
    apply List.mem_append_right
    apply List.mem_map.mpr
    have hround : pgRoundUp (2 * PGSIZE) / PGSIZE = 2 := by decide
    have hbase : VA_USERSTACK = 33554430 * PGSIZE := by decide
    rw [hround, hbase]
    rw [hbase] at hva
    refine ⟨va / PGSIZE - 33554430, List.mem_range.mpr ?_, ?_⟩
    · simp only [PGSIZE] at *
      omega
    · refine Prod.ext ?_ rfl
      simp only [vpn, PGSIZE] at *
      omega
  rw [← hm.slots] at hslot
  obtain ⟨x, hx, hxe⟩ := List.mem_map.mp hslot
  obtain ⟨hv, hperm⟩ := Prod.mk.inj hxe
  refine ⟨x, hx, hv.symm, hperm, ?_⟩
  have hlt : va < 2 ^ 39 := hva.2.trans (by decide)
  rw [hv, vpn_of_lt hlt]
  exact Nat.div_add_mod' _ _

theorem Fits.pushes (h : Fits argv) :
    stackPointer argv (VA_USERSTACK + 2 * PGSIZE) [] = VA_USERSTACK + 2 * PGSIZE - need 0 argv ∧
    stackPointer argv (VA_USERSTACK + 2 * PGSIZE) [] % 16 = 0 ∧
    (pushes argv (VA_USERSTACK + 2 * PGSIZE) []).Pairwise Apart ∧
    ∀ p ∈ pushes argv (VA_USERSTACK + 2 * PGSIZE) [],
      stackPointer argv (VA_USERSTACK + 2 * PGSIZE) [] ≤ p.1 ∧
      p.1 + p.2.length ≤ VA_USERSTACK + 2 * PGSIZE := by
  apply pushes_spec
  · decide
  · decide
  · exact h.room.trans (by decide)

/-- A byte that was copied is there as long as its page is spared. -/
theorem shows_push (hm : Made f argv k ps a im L mem)
    (hfreed : Freed (givenBack cnt a old ++ ps) ⟨mem, a⟩ k') (hfit : Fits argv) {p : ℕ × List ℕ}
    (hp : p ∈ pushes argv (VA_USERSTACK + 2 * PGSIZE) []) {i : ℕ} (hi : i < p.2.length) (b : ℕ) :
    Shows k' im ELF_PROG_FLAG_WRITE (p.1 + i) b ↔
      Spared (givenBack cnt a old) im (vpn (p.1 + i)) ∧ p.2.get ⟨i, hi⟩ = b := by
  have hroom := hfit.room
  obtain ⟨hptr, -, hapart, hin⟩ := hfit.pushes
  have hbounds := hin p hp
  obtain ⟨x, hx, hv, hperm, haddr⟩ := hm.stack_page
    (show VA_USERSTACK ≤ p.1 + i ∧ p.1 + i < VA_USERSTACK + 2 * PGSIZE by omega)
  have hoff : (p.1 + i) % PGSIZE < PGSIZE := Nat.mod_lt _ (by decide)
  have hbyte := hm.copied x hx _ hoff (p.2.get ⟨i, hi⟩) (by
    rw [haddr]
    exact layAll_inside hapart hp hi)
  rw [hm.shows_iff hfreed hx hv hperm, hv, hbyte]

theorem argByte_some {a b : ℕ} (h : argByte argv a = some b) :
    ∃ p ∈ pushes argv (VA_USERSTACK + 2 * PGSIZE) [], ∃ i < p.2.length, a = p.1 + i := by
  by_contra hnone
  push Not at hnone
  have hout : argByte argv a = none := by
    apply layAll_outside
    intro p hp
    by_contra hin
    exact hnone p hp (a - p.1) (by omega) (by omega)
  rw [hout] at h
  cases h

/-- The array in memory, word by word. -/
theorem shows_word (hm : Made f argv k ps a im L mem)
    (hfreed : Freed (givenBack cnt a old ++ ps) ⟨mem, a⟩ k') (hfit : Fits argv)
    {j x i : ℕ} (hj : (addresses argv (VA_USERSTACK + 2 * PGSIZE) ++ [0])[j]? = some x)
    (hi : i < 8) (b : ℕ) :
    Shows k' im ELF_PROG_FLAG_WRITE
        (stackPointer argv (VA_USERSTACK + 2 * PGSIZE) [] + 8 * j + i) b ↔
      Spared (givenBack cnt a old) im
        (vpn (stackPointer argv (VA_USERSTACK + 2 * PGSIZE) [] + 8 * j + i)) ∧
      (wordBytes x)[i]? = some b := by
  have hlen := wordBytes_length x
  have hget := flatMap_wordBytes_get hj hi
  have hlt : 8 * j + i <
      ((addresses argv (VA_USERSTACK + 2 * PGSIZE) ++ [0]).flatMap wordBytes).length := by
    by_contra hge
    rw [List.getElem?_eq_none (not_lt.mp hge), List.getElem?_eq_getElem (by omega)] at hget
    cases hget
  have hpush := shows_push hm hfreed hfit array_pushed hlt b
  rw [List.getElem?_eq_getElem hlt] at hget
  rw [Nat.add_assoc, hpush, ← hget, Option.some_inj]
  rfl

/-- The registers after `exec`. -/
theorem exec_registers {entry : ℕ}
    (htf : tf' = ((((tf.set TF_A1 sp).set TF_A0 argv.length).memset 8).set TF_EPC entry).set
      TF_SP sp) : tf' TF_A0 = argv.length ∧ tf' TF_A1 = sp ∧ tf' TF_SP = sp := by
  rw [htf]
  exact ⟨rfl, rfl, rfl⟩

/-- The words in memory name the addresses that were pushed. -/
theorem addresses_unique (hm : Made f argv k ps a im L mem)
    (hfreed : Freed (givenBack cnt a old ++ ps) ⟨mem, a⟩ k') (hfit : Fits argv)
    {addrs : List ℕ} (hlen : addrs.length = argv.length) (hword : ∀ x ∈ addrs, x < WORD)
    (hwords : ∀ j x, (addrs ++ [0])[j]? = some x → ShowsBytes k' im
      (stackPointer argv (VA_USERSTACK + 2 * PGSIZE) [] + 8 * j) (wordBytes x)) :
    addrs = addresses argv (VA_USERSTACK + 2 * PGSIZE) := by
  refine List.ext_getElem (hlen.trans addresses_length.symm) fun j hj hj' => ?_
  refine wordBytes_injective (hword _ (List.getElem_mem hj))
    (addresses_lt (List.getElem_mem hj')) ?_
  refine List.ext_getElem? fun i => ?_
  have hx : (addrs ++ [0])[j]? = some addrs[j] := by
    rw [List.getElem?_append_left hj, List.getElem?_eq_getElem hj]
  have hy : (addresses argv (VA_USERSTACK + 2 * PGSIZE) ++ [0])[j]? =
      some (addresses argv (VA_USERSTACK + 2 * PGSIZE))[j] := by
    rw [List.getElem?_append_left hj', List.getElem?_eq_getElem hj']
  by_cases hi : i < 8
  · have hi' : i < (wordBytes addrs[j]).length := by rwa [wordBytes_length]
    have hshow := hwords j _ hx i hi'
    rw [((shows_word hm hfreed hfit hy hi _).mp hshow).2, List.getElem?_eq_getElem hi']
    rfl
  · rw [List.getElem?_eq_none (by rw [wordBytes_length]; omega),
      List.getElem?_eq_none (by rw [wordBytes_length]; omega)]

/-- Where all copies are seen, the pages they are on are spared. -/
theorem argsSpared_of_shows (hm : Made f argv k ps a im L mem)
    (hfreed : Freed (givenBack cnt a old ++ ps) ⟨mem, a⟩ k') (hfit : Fits argv)
    (hwords : ∀ j x, (addresses argv (VA_USERSTACK + 2 * PGSIZE) ++ [0])[j]? = some x →
      ShowsBytes k' im (stackPointer argv (VA_USERSTACK + 2 * PGSIZE) [] + 8 * j) (wordBytes x))
    (hstrings : ∀ q ∈ (addresses argv (VA_USERSTACK + 2 * PGSIZE)).zip argv,
      ShowsBytes k' im q.1 (q.2 ++ [0])) : ArgsSpared (givenBack cnt a old) im argv := by
  intro va b hab
  obtain ⟨p, hp, i, hi, rfl⟩ := argByte_some hab
  have hp' := hp
  rw [pushes_eq, List.nil_append, List.mem_append] at hp'
  rcases hp' with hp' | hp'
  · obtain ⟨q, hq, rfl⟩ := List.mem_map.mp hp'
    exact ((shows_push hm hfreed hfit hp hi _).mp (hstrings q hq i hi)).1
  · obtain rfl := List.mem_singleton.mp hp'
    rw [flatMap_wordBytes_length] at hi
    have hj := List.getElem?_eq_getElem
      (show i / 8 < (addresses argv (VA_USERSTACK + 2 * PGSIZE) ++ [0]).length by omega)
    have hmod : i % 8 < 8 := Nat.mod_lt _ (by decide)
    have hshow := hwords _ _ hj (i % 8) (by rwa [wordBytes_length])
    have hspared := ((shows_word hm hfreed hfit hj hmod _).mp hshow).1
    rwa [Nat.add_assoc, Nat.div_add_mod] at hspared

theorem sh_fits : Fits [[115, 104]] where
  count := by decide
  noNul := by decide
  room := by decide

end Zrhos.Exec
