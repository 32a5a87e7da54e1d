import Zrhos.Lib.Numeral
import Mathlib.Data.List.TakeWhile

/-! `itoa` and `vsprintf` of `klib.c`. A format and the strings it prints are the bytes in
front of their terminators, the output is the memory at `out`. -/
namespace Zrhos.Klib
open Numeral

def ch (c : Char) : ℕ := c.toNat

/-- `*p++ = c` for the characters of a text. -/
def putText (out : ℕ → ℕ) (p : ℕ) : List ℕ → ℕ → ℕ
  | [] => out
  | c :: text => putText (Function.update out p c) (p + 1) text

/-- The digit loop into a scratch array with `room` bytes left, which it may not overrun:
the last digit first. -/
def digitLoop (base : ℕ) : ℕ → ℕ → Option (List ℕ)
  | 0, i => if 0 < i then none else some []
  | room + 1, i =>
    if 0 < i then
      let n := i % base
      (digitLoop base room (i / base)).map fun buf =>
        (if n < 10 then n + ch '0' else n + ch 'a' - 10) :: buf
    else some []

/-- `-i` of an `int`: the least one has no negative, and stays as it is. -/
def negInt (i : ℤ) : ℤ := if i = -2 ^ 31 then i else -i

/-- The memory and the position of the terminator. -/
def itoa (out : ℕ → ℕ) (a : ℕ) (i : ℤ) : Option (ℕ → ℕ) :=
  let finish (text : List ℕ) : ℕ → ℕ :=
    Function.update (putText out a text) (a + text.length) 0
  if i = 0 then some (finish [ch '0'])
  else if 0 < i then (digitLoop 10 1024 i.toNat).map fun buf => finish buf.reverse
  else
    let i := negInt i
    if i < 0 then some (finish ("-214748364".toList.map ch))
    else (digitLoop 10 1023 i.toNat).map fun buf => finish (buf ++ [ch '-']).reverse

/-- `while (*pout != 0) pout++`, in a text of at most `fuel` characters. -/
def skipText (out : ℕ → ℕ) : ℕ → ℕ → Option ℕ
  | 0, _ => none
  | fuel + 1, p => if out p = 0 then some p else skipText out fuel (p + 1)

/-- An element of a `va_list`: a word in a register or on the stack, or a word that points
to a string. -/
inductive Arg where
  | word (w : BitVec 64)
  | string (s : List ℕ)

/-- `va_arg(ap, int)`. -/
def argInt (w : BitVec 64) : ℤ := (w.setWidth 32).toInt

def strcpy (out : ℕ → ℕ) (dst : ℕ) (src : List ℕ) : ℕ → ℕ :=
  let text := src.takeWhile (· ≠ 0)
  Function.update (putText out dst text) (dst + text.length) 0

/-- The loop of `vsprintf`; `none` if it reads behind the format or its arguments, or
overruns a scratch array. -/
def vsprintfLoop : List ℕ → List Arg → (ℕ → ℕ) → ℕ → Option (ℕ → ℕ)
  | [], _, out, pout => some (Function.update out pout 0)
  | c :: p, ap, out, pout =>
    if c = 0 then some (Function.update out pout 0)
    else if c = ch '%' then
      match p with
      | [] => none
      | d :: p =>
        if d = 0 then none
        else if d = ch 'd' then
          match ap with
          | .word w :: ap => do
            let out ← itoa out pout (argInt w)
            let pout ← skipText out 1024 pout
            vsprintfLoop p ap out pout
          | _ => none
        else if d = ch 's' then
          match ap with
          | .string s :: ap => do
            let out := strcpy out pout s
            let pout ← skipText out (s.length + 1) pout
            vsprintfLoop p ap out pout
          | _ => none
        else if d = ch 'p' then
          match ap with
          | .word w :: ap => do
            let out := putText out pout [ch '0', ch 'x']
            let buf ← digitLoop 16 64 w.toNat
            vsprintfLoop p ap (putText out (pout + 2) buf.reverse) (pout + 2 + buf.length)
          | _ => none
        else vsprintfLoop p ap out pout
    else vsprintfLoop p ap (Function.update out pout c) (pout + 1)

def vsprintf (out : ℕ → ℕ) (pout : ℕ) (fmt : List ℕ) (ap : List Arg) : Option (ℕ → ℕ) :=
  vsprintfLoop fmt ap out pout

/-! ### What the conversions print -/

/-- A piece of a format, with the argument that it takes. An unknown conversion prints
nothing. -/
inductive Piece where
  | lit (c : ℕ)
  | dec (w : BitVec 64)
  | str (s : List ℕ)
  | hex (w : BitVec 64)
  | unknown

/-- The pieces of a format, if the format does not end inside a conversion and the arguments
fit. -/
def pieces : List ℕ → List Arg → Option (List Piece)
  | [], _ => some []
  | c :: p, ap =>
    if c = 0 then some []
    else if c = ch '%' then
      match p with
      | [] => none
      | d :: p =>
        if d = 0 then none
        else if d = ch 'd' then
          match ap with
          | .word w :: ap => (pieces p ap).map (.dec w :: ·)
          | _ => none
        else if d = ch 's' then
          match ap with
          | .string s :: ap => (pieces p ap).map (.str s :: ·)
          | _ => none
        else if d = ch 'p' then
          match ap with
          | .word w :: ap => (pieces p ap).map (.hex w :: ·)
          | _ => none
        else (pieces p ap).map (.unknown :: ·)
    else (pieces p ap).map (.lit c :: ·)

/-- The decimal numeral of an integer. -/
def decimal (i : ℤ) : List ℕ :=
  if i < 0 then ch '-' :: numeral 10 i.natAbs else numeral 10 i.natAbs

def hexadecimal (n : ℕ) : List ℕ := ch '0' :: ch 'x' :: numeral 16 n

/-- The text that a piece stands for. -/
def Piece.text : Piece → List ℕ
  | .lit c => [c]
  | .dec w => decimal (argInt w)
  | .str s => s.takeWhile (· ≠ 0)
  | .hex w => hexadecimal w.toNat
  | .unknown => []

def textOf (ps : List Piece) : List ℕ := ps.flatMap Piece.text

/-- The pieces that come out as they should: not the least integer and not the null
pointer. -/
def Piece.Printable : Piece → Prop
  | .dec w => argInt w ≠ -2 ^ 31
  | .hex w => w ≠ 0
  | _ => True

/-- A text with its terminator. -/
def putString (out : ℕ → ℕ) (p : ℕ) (text : List ℕ) : ℕ → ℕ := putText out p (text ++ [0])

/-- What `itoa` writes. -/
def itoaText (i : ℤ) : List ℕ := if i = -2 ^ 31 then "-214748364".toList.map ch else decimal i

/-- What `vsprintf` writes for a piece. -/
def Piece.printed : Piece → List ℕ
  | .dec w => itoaText (argInt w)
  | .hex w => ch '0' :: ch 'x' :: (if w = 0 then [] else numeral 16 w.toNat)
  | p => p.text

variable {out : ℕ → ℕ} {p q : ℕ} {text text' : List ℕ} {i : ℤ} {w : BitVec 64}
  {base room n : ℕ}

/-! ### Texts in memory -/

theorem putText_append :
    putText out p (text ++ text') = putText (putText out p text) (p + text.length) text' := by
  induction text generalizing out p with
  | nil => rfl
  | cons c text ih =>
    rw [List.cons_append, putText, putText, ih, List.length_cons, Nat.add_right_comm, Nat.add_assoc]

theorem putText_outside (h : q < p ∨ p + text.length ≤ q) : putText out p text q = out q := by
  induction text generalizing out p with
  | nil => rfl
  | cons c text ih =>
    rw [List.length_cons] at h
    rw [putText, ih (by omega), Function.update_of_ne (by omega)]

theorem putText_inside {k : ℕ} (h : k < text.length) :
    putText out p text (p + k) = text.get ⟨k, h⟩ := by
  induction text generalizing out p k with
  | nil => exact absurd h (Nat.not_lt_zero k)
  | cons c text ih =>
    cases k with
    | zero =>
      rw [putText, putText_outside (by omega)]
      exact Function.update_self _ _ _
    | succ k =>
      rw [putText, ← Nat.add_assoc, Nat.add_right_comm, ih (Nat.lt_of_succ_lt_succ h)]
      rfl

theorem update_putText (c : ℕ) :
    Function.update (putText out p text) (p + text.length) c = putText out p (text ++ [c]) := by
  rw [putText_append]
  rfl

/-- The terminator of the text in front is overwritten. -/
theorem putString_update (c : ℕ) :
    putString (Function.update out p c) p text = putString out p text := by
  unfold putString
  cases text with
  | nil => exact Function.update_idem _ _ _
  | cons d text => simp only [List.cons_append, putText, Function.update_idem]

theorem putString_append :
    putString (putString out p text) (p + text.length) text' =
      putString out p (text ++ text') := by
  have hend : putString out p text =
      Function.update (putText out p text) (p + text.length) 0 := (update_putText 0).symm
  rw [hend, putString_update, putString, putString, List.append_assoc]
  exact putText_append.symm

theorem putString_head (c : ℕ) : putString out p (c :: text) p = c := by
  have hin : 0 < (c :: text ++ [0]).length := Nat.succ_pos _
  exact putText_inside hin

/-- Texts without zeros are what lies in front of the first terminator. -/
theorem putString_injective (h : 0 ∉ text) (h' : 0 ∉ text')
    (he : putString out p text = putString out p text') : text = text' := by
  induction text generalizing out p text' with
  | nil =>
    cases text' with
    | nil => rfl
    | cons c text' =>
      have h0 : (0 : ℕ) = c :=
        (Function.update_self p 0 out).symm.trans ((congrFun he p).trans (putString_head c))
      exact absurd (h0 ▸ List.mem_cons_self) h'
  | cons c text ih =>
    cases text' with
    | nil =>
      have h0 : c = (0 : ℕ) :=
        (putString_head c).symm.trans ((congrFun he p).trans (Function.update_self p 0 out))
      exact absurd (h0 ▸ List.mem_cons_self) h
    | cons c' text' =>
      have hc := congrFun he p
      rw [putString_head, putString_head] at hc
      subst hc
      rw [ih (fun hm => h (List.mem_cons_of_mem _ hm)) (fun hm => h' (List.mem_cons_of_mem _ hm)) he]

/-! ### Digits -/

theorem digitLoop_eq {k : ℕ} (hb : 1 < base) (h : n < base ^ k) (hroom : k ≤ room) :
    digitLoop base room n = some ((Nat.digits base n).map digitChar) := by
  induction room generalizing n k with
  | zero =>
    obtain rfl := Nat.le_zero.mp hroom
    obtain rfl : n = 0 := Nat.lt_one_iff.mp h
    simp [digitLoop]
  | succ room ih =>
    unfold digitLoop
    split_ifs with hn
    · cases k with
      | zero => exact absurd (Nat.lt_one_iff.mp h) hn.ne'
      | succ k =>
        have hdiv : n / base < base ^ k := by
          rw [Nat.div_lt_iff_lt_mul (by omega)]
          exact h
        rw [ih hdiv (Nat.le_of_succ_le_succ hroom), Nat.digits_def' hb hn]
        rfl
    · obtain rfl : n = 0 := by omega
      simp

theorem numeral_of_pos (h : 0 < n) :
    ((Nat.digits base n).map digitChar).reverse = numeral base n :=
  (numeral_of_ne_zero (Nat.pos_iff_ne_zero.mp h)).symm

theorem itoa_eq (h : -2 ^ 31 ≤ i ∧ i < 2 ^ 31) :
    itoa out p i = some (putString out p (itoaText i)) := by
  have hfinish (text : List ℕ) :
      Function.update (putText out p text) (p + text.length) 0 = putString out p text :=
    update_putText 0
  unfold itoa itoaText decimal negInt
  dsimp only
  by_cases hzero : i = 0
  · subst hzero
    rw [if_pos rfl, hfinish]
    rfl
  by_cases hpos : 0 < i
  · have hsmall : i.toNat < 10 ^ 10 := by omega
    rw [if_neg hzero, if_pos hpos, digitLoop_eq (by decide) hsmall (by decide), Option.map_some,
      hfinish, numeral_of_pos (by omega), if_neg (by omega), if_neg (by omega)]
    congr 3
    omega
  by_cases hmin : i = -2 ^ 31
  · subst hmin
    rw [if_neg hzero, if_neg hpos, if_pos rfl, if_pos (by decide), hfinish, if_pos rfl]
  · have hsmall : (-i).toNat < 10 ^ 10 := by omega
    rw [if_neg hzero, if_neg hpos, if_neg hmin, if_neg (by omega),
      digitLoop_eq (by decide) hsmall (by decide), Option.map_some, hfinish, List.reverse_append,
      numeral_of_pos (by omega), if_neg hmin, if_pos (by omega)]
    congr 3
    have habs : (-i).toNat = i.natAbs := by omega
    rw [habs]
    rfl

/-! ### The text of a format -/

theorem skipText_eq (out : ℕ → ℕ) (p : ℕ) {fuel : ℕ} (h : 0 ∉ text) (hfuel : text.length < fuel) :
    skipText (putString out p text) fuel p = some (p + text.length) := by
  induction text generalizing out p fuel with
  | nil =>
    obtain ⟨fuel, rfl⟩ := Nat.exists_eq_succ_of_ne_zero (Nat.pos_iff_ne_zero.mp hfuel)
    have hend : putString out p [] p = 0 := Function.update_self _ _ _
    rw [skipText, if_pos hend]
    rfl
  | cons c text ih =>
    rw [List.length_cons] at hfuel
    obtain ⟨fuel, rfl⟩ := Nat.exists_eq_succ_of_ne_zero (show fuel ≠ 0 by omega)
    have hc : c ≠ 0 := fun hc => h (hc ▸ List.mem_cons_self)
    rw [skipText, putString_head, if_neg hc]
    have hrest := ih (Function.update out p c) (p + 1) (fun hm => h (List.mem_cons_of_mem _ hm))
      (show text.length < fuel by omega)
    rw [List.length_cons, Nat.add_comm text.length, ← Nat.add_assoc]
    exact hrest

theorem zero_not_mem_decimal : 0 ∉ decimal i := by
  have hnum : 0 ∉ numeral 10 i.natAbs := fun h => absurd (le_of_mem_numeral h) (by decide)
  unfold decimal
  split_ifs
  · rw [List.mem_cons]
    rintro (h | h)
    · cases h
    · exact hnum h
  · exact hnum

theorem zero_not_mem_itoaText : 0 ∉ itoaText i := by
  unfold itoaText
  split_ifs
  · decide
  · exact zero_not_mem_decimal

theorem length_itoaText (h : -2 ^ 31 ≤ i ∧ i < 2 ^ 31) : (itoaText i).length < 1024 := by
  have hdigits : (Nat.digits 10 i.natAbs).length ≤ 10 :=
    (Nat.digits_length_le_iff (by decide) _).mpr (by omega)
  have hnum : (numeral 10 i.natAbs).length ≤ 10 := by
    unfold numeral
    split_ifs
    · decide
    · simpa using hdigits
  unfold itoaText decimal
  split_ifs
  · decide
  · rw [List.length_cons]
    omega
  · omega

theorem argInt_range (w : BitVec 64) : -2 ^ 31 ≤ argInt w ∧ argInt w < 2 ^ 31 :=
  ⟨BitVec.le_toInt _, BitVec.toInt_lt⟩

theorem putString_putText (text text' : List ℕ) :
    putString (putText out p text) (p + text.length) text' = putString out p (text ++ text') := by
  rw [putString, putString, List.append_assoc]
  exact putText_append.symm

theorem strcpy_eq (s : List ℕ) : strcpy out p s = putString out p (s.takeWhile (· ≠ 0)) :=
  update_putText 0

theorem zero_not_mem_takeWhile (s : List ℕ) : 0 ∉ s.takeWhile (· ≠ 0) := by
  intro h
  simpa using List.mem_takeWhile_imp h

theorem length_takeWhile (s : List ℕ) : (s.takeWhile (· ≠ 0)).length < s.length + 1 :=
  Nat.lt_succ_of_le (List.takeWhile_sublist _).length_le

/-- `vsprintf` writes what its conversions write, one behind the other. -/
theorem vsprintfLoop_eq {fmt : List ℕ} {ap : List Arg} {ps : List Piece}
    (h : pieces fmt ap = some ps) :
    vsprintfLoop fmt ap out p = some (putString out p (ps.flatMap Piece.printed)) := by
  induction fmt, ap using pieces.induct generalizing ps out p with
  | case1 ap =>
    cases h
    rfl
  | case2 fmt ap =>
    unfold pieces at h
    cases h
    unfold vsprintfLoop
    rfl
  | case3 ap hc => simp [pieces, hc] at h
  | case4 ap fmt hc => simp [pieces, hc] at h
  | case5 fmt w ap hc hd ih =>
    simp only [pieces, hc, hd, ↓reduceIte] at h
    obtain ⟨rest, hrest, rfl⟩ := Option.map_eq_some_iff.mp h
    have hskip := skipText_eq out p zero_not_mem_itoaText (length_itoaText (argInt_range w))
    simp only [vsprintfLoop, hc, hd, ↓reduceIte, itoa_eq (argInt_range w), hskip, ih hrest,
      Option.bind_eq_bind, Option.bind_some]
    rw [putString_append]
    rfl
  | case6 ap fmt hap hc hd => simp [pieces, hc, hd] at h
  | case7 fmt s ap hc hs hd ih =>
    simp only [pieces, hc, hs, hd, ↓reduceIte] at h
    obtain ⟨rest, hrest, rfl⟩ := Option.map_eq_some_iff.mp h
    have hskip := skipText_eq out p (zero_not_mem_takeWhile s) (length_takeWhile s)
    simp only [vsprintfLoop, hc, hs, hd, ↓reduceIte, strcpy_eq, hskip, ih hrest,
      Option.bind_eq_bind, Option.bind_some]
    rw [putString_append]
    rfl
  | case8 ap fmt hap hc hs hd => simp [pieces, hc, hs, hd] at h
  | case9 fmt w ap hc hp hd hs ih =>
    simp only [pieces, hc, hp, hd, hs, ↓reduceIte] at h
    obtain ⟨rest, hrest, rfl⟩ := Option.map_eq_some_iff.mp h
    have hsmall : w.toNat < 16 ^ 16 := w.isLt
    simp only [vsprintfLoop, hc, hp, hd, hs, ↓reduceIte, ih hrest, Option.bind_eq_bind,
      Option.bind_some, digitLoop_eq (by decide) hsmall (show 16 ≤ 64 by decide)]
    have hdigits : ((Nat.digits 16 w.toNat).map digitChar).reverse =
        if w = 0 then [] else numeral 16 w.toNat := by
      split_ifs with hw
      · subst hw
        rfl
      · apply numeral_of_pos
        have hne : w.toNat ≠ 0 := fun h0 => hw (BitVec.eq_of_toNat_eq h0)
        omega
    rw [← List.length_reverse, hdigits]
    have htwo : p + 2 = p + [ch '0', ch 'x'].length := rfl
    rw [htwo, putString_putText, putString_putText]
    rfl
  | case10 ap fmt hap hc hp hd hs => simp [pieces, hc, hp, hd, hs] at h
  | case11 ap d fmt h0 hd hs hp hc ih =>
    simp only [pieces, hc, h0, hp, hd, hs, ↓reduceIte] at h
    obtain ⟨rest, hrest, rfl⟩ := Option.map_eq_some_iff.mp h
    simp only [vsprintfLoop, hc, h0, hp, hd, hs, ↓reduceIte, ih hrest]
    rfl
  | case12 c fmt ap h0 hc ih =>
    unfold pieces at h
    rw [if_neg h0, if_neg hc] at h
    obtain ⟨rest, hrest, rfl⟩ := Option.map_eq_some_iff.mp h
    unfold vsprintfLoop
    rw [if_neg h0, if_neg hc, ih hrest]
    rfl

/-! ### Which formats come out right -/

theorem Piece.printed_of_printable {x : Piece} (h : x.Printable) : x.printed = x.text := by
  cases x with
  | dec w => exact if_neg h
  | hex w =>
    have hw : w ≠ 0 := h
    rw [Piece.printed, if_neg hw]
    rfl
  | lit c => rfl
  | str s => rfl
  | unknown => rfl

/-- The last digit of the least integer and the zero of the null pointer are lost. -/
theorem Piece.printed_shorter {x : Piece} (h : ¬ x.Printable) :
    x.printed.length < x.text.length := by
  cases x with
  | dec w =>
    have hw : argInt w = -2 ^ 31 := not_not.mp h
    have htext : (decimal (-2 ^ 31)).length = 11 := by
      simp [decimal, numeral]
    rw [Piece.printed, Piece.text, hw, htext, itoaText, if_pos rfl]
    decide
  | hex w =>
    have hw : w = 0 := not_not.mp h
    subst hw
    have hpos : 0 < (numeral 16 (0 : BitVec 64).toNat).length := numeral_length_pos
    simp only [Piece.printed, Piece.text, hexadecimal, ↓reduceIte, List.length_cons,
      List.length_nil]
    omega
  | lit c => exact absurd trivial h
  | str s => exact absurd trivial h
  | unknown => exact absurd trivial h

theorem Piece.printed_length_le (x : Piece) : x.printed.length ≤ x.text.length := by
  by_cases h : x.Printable
  · rw [Piece.printed_of_printable h]
  · exact (Piece.printed_shorter h).le

theorem flatMap_printed_length_le (ps : List Piece) :
    (ps.flatMap Piece.printed).length ≤ (textOf ps).length := by
  induction ps with
  | nil => exact le_rfl
  | cons x ps ih =>
    have hx := x.printed_length_le
    simp only [textOf, List.flatMap_cons, List.length_append] at ih ⊢
    omega

theorem flatMap_printed_eq_iff (ps : List Piece) :
    ps.flatMap Piece.printed = textOf ps ↔ ∀ x ∈ ps, x.Printable := by
  induction ps with
  | nil => simp [textOf]
  | cons x ps ih =>
    rw [List.forall_mem_cons, ← ih, textOf, List.flatMap_cons, List.flatMap_cons]
    constructor
    · intro h
      have hx : x.Printable := by
        by_contra hx
        have hhead := Piece.printed_shorter hx
        have htail := flatMap_printed_length_le ps
        have hlen := congrArg List.length h
        simp only [List.length_append] at hlen
        rw [textOf] at htail
        omega
      rw [Piece.printed_of_printable hx] at h
      exact ⟨hx, List.append_cancel_left h⟩
    · rintro ⟨hx, hps⟩
      rw [Piece.printed_of_printable hx, hps]
      rfl

theorem zero_not_mem_text (x : Piece) (hx : x ≠ .lit 0) : 0 ∉ x.text ∧ 0 ∉ x.printed := by
  have hnum (n : ℕ) : 0 ∉ numeral 16 n := fun h => absurd (le_of_mem_numeral h) (by decide)
  cases x with
  | lit c =>
    have hc : c ≠ 0 := fun h0 => hx (h0 ▸ rfl)
    have hmem : 0 ∉ [c] := by simpa using hc.symm
    exact ⟨hmem, hmem⟩
  | dec w => exact ⟨zero_not_mem_decimal, zero_not_mem_itoaText⟩
  | str s => exact ⟨zero_not_mem_takeWhile s, zero_not_mem_takeWhile s⟩
  | hex w =>
    constructor
    · simpa [Piece.text, hexadecimal, ch] using hnum w.toNat
    · by_cases hw : w = 0
      · subst hw
        decide
      · rw [Piece.printed, if_neg hw]
        simpa [ch] using hnum w.toNat
  | unknown => exact ⟨List.not_mem_nil, List.not_mem_nil⟩

theorem pieces_ne_zero {fmt : List ℕ} {ap : List Arg} {ps : List Piece}
    (h : pieces fmt ap = some ps) : ∀ x ∈ ps, x ≠ .lit 0 := by
  fun_induction pieces fmt ap generalizing ps <;> grind [Option.map_eq_some_iff]

theorem zero_not_mem_flatMap {ps : List Piece} (h : ∀ x ∈ ps, x ≠ .lit 0) :
    0 ∉ textOf ps ∧ 0 ∉ ps.flatMap Piece.printed := by
  constructor
  · intro h0
    obtain ⟨x, hx, hmem⟩ := List.mem_flatMap.mp h0
    exact (zero_not_mem_text x (h x hx)).1 hmem
  · intro h0
    obtain ⟨x, hx, hmem⟩ := List.mem_flatMap.mp h0
    exact (zero_not_mem_text x (h x hx)).2 hmem

theorem vsprintf_iff {fmt : List ℕ} {ap : List Arg} {ps : List Piece}
    (h : pieces fmt ap = some ps) (out : ℕ → ℕ) (pout : ℕ) :
    vsprintf out pout fmt ap = some (putString out pout (textOf ps)) ↔
      ∀ x ∈ ps, x.Printable := by
  obtain ⟨htext, hprinted⟩ := zero_not_mem_flatMap (pieces_ne_zero h)
  rw [vsprintf, vsprintfLoop_eq h, ← flatMap_printed_eq_iff]
  constructor
  · intro he
    exact putString_injective hprinted htext (Option.some.inj he)
  · intro he
    rw [he]

theorem itoa_iff (out : ℕ → ℕ) (a : ℕ) (i : BitVec 32) :
    itoa out a i.toInt = some (putString out a (decimal i.toInt)) ↔ i.toInt ≠ -2 ^ 31 := by
  have hrange : -2 ^ 31 ≤ i.toInt ∧ i.toInt < 2 ^ 31 := ⟨BitVec.le_toInt _, BitVec.toInt_lt⟩
  rw [itoa_eq hrange]
  constructor
  · intro he hmin
    have htext := putString_injective zero_not_mem_itoaText zero_not_mem_decimal
      (Option.some.inj he)
    have hshort : itoaText i.toInt ≠ decimal i.toInt := by
      rw [hmin]
      simp [itoaText, decimal, numeral, ch]
    exact hshort htext
  · intro hmin
    rw [itoaText, if_neg hmin]

/-- The integer that a decimal text means. -/
def intValue (text : List ℕ) : ℤ :=
  if text.head? = some (ch '-') then -(value 10 text.tail : ℤ) else value 10 text

theorem intValue_decimal (i : ℤ) : intValue (decimal i) = i := by
  unfold intValue decimal
  split_ifs with hneg hhead hhead
  · rw [List.tail_cons, value_numeral]
    omega
  · exact absurd rfl hhead
  · have hmem : ch '-' ∈ numeral 10 i.natAbs := List.mem_of_mem_head? hhead
    exact absurd (le_of_mem_numeral hmem) (by decide)
  · rw [value_numeral]
    omega

/-- `itoa` prints every integer but the least one, and `vsprintf` every format without that
integer and without the null pointer: the text of each piece in its place, with the
terminator behind it. The texts are numerals without leading zeros that mean their
numbers. -/
theorem formats_iff (out : ℕ → ℕ) (a : ℕ) :
    (∀ i : BitVec 32,
      itoa out a i.toInt = some (putString out a (decimal i.toInt)) ↔ i.toInt ≠ -2 ^ 31) ∧
    (∀ fmt ap ps, pieces fmt ap = some ps →
      (vsprintf out a fmt ap = some (putString out a (textOf ps)) ↔
        ∀ x ∈ ps, x.Printable)) ∧
    (∀ i, intValue (decimal i) = i) ∧
    ∀ base n, value base (numeral base n) = n ∧ numeral base n ≠ [] ∧
      (n ≠ 0 → (numeral base n).head? ≠ some (ch '0')) := by
  refine ⟨itoa_iff out a, ?_, intValue_decimal, ?_⟩
  · intro fmt ap ps h
    exact vsprintf_iff h out a
  · intro base n
    exact ⟨value_numeral, numeral_ne_nil, head_numeral⟩

theorem formats_iff_seven :
    (∃ ps, pieces ("n=%d".toList.map ch) [.word 7] = some ps ∧ ∀ x ∈ ps, x.Printable) ∧
      vsprintf (fun _ => 1) 5 ("n=%d".toList.map ch) [.word 7] =
        some (putString (fun _ => 1) 5 ("n=7".toList.map ch)) := by
  have hp : pieces ("n=%d".toList.map ch) [.word 7] =
      some [.lit (ch 'n'), .lit (ch '='), .dec 7] := rfl
  have hall : ∀ x ∈ [Piece.lit (ch 'n'), .lit (ch '='), .dec 7], x.Printable := by
    simp [Piece.Printable, argInt]
  have htext : textOf [.lit (ch 'n'), .lit (ch '='), .dec 7] = "n=7".toList.map ch := by
    simp [textOf, Piece.text, decimal, argInt, numeral, digitChar, ch]
  refine ⟨⟨_, hp, hall⟩, ?_⟩
  rw [← htext]
  exact ((formats_iff (fun _ => 1) 5).2.1 _ _ _ hp).mpr hall

/-- The least integer loses its last digit, the null pointer has no digit. -/
theorem formats_lose_digits :
    itoa (fun _ => 1) 0 (BitVec.intMin 32).toInt ≠
      some (putString (fun _ => 1) 0 (decimal (BitVec.intMin 32).toInt)) ∧
    vsprintf (fun _ => 1) 0 ("%p".toList.map ch) [.word 0] ≠
      some (putString (fun _ => 1) 0 (hexadecimal 0)) := by
  constructor
  · intro he
    exact (itoa_iff _ _ _).mp he (by decide)
  · intro he
    have hp : pieces ("%p".toList.map ch) [.word 0] = some [.hex 0] := rfl
    exact (vsprintf_iff hp (fun _ => 1) 0).mp he _ List.mem_cons_self rfl

end Zrhos.Klib
