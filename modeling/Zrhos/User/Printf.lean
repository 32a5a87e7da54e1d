import Zrhos.Klib.Format

/-! `vprintf` of `ulib.c`. The output is the characters that `putc` hands to `write`, one at a
time and all for the descriptor of the call. -/
namespace Zrhos.User
open Numeral
open Klib (ch Arg argInt decimal)

def digits : List ℕ := "0123456789ABCDEF".toList.map ch

/-- The digit loop of `printint`, at most `fuel` rounds. The buffer holds what stands in front
of the index, and the index is its length. -/
def printintLoop (base : ℕ) : ℕ → List ℕ → ℕ → List ℕ
  | 0, buf, _ => buf
  | fuel + 1, buf, x =>
    let buf := buf ++ [digits.getD (x % base) 0]
    if x / base ≠ 0 then printintLoop base fuel buf (x / base) else buf

/-- What `printint` stores in front of the largest index that it reaches. The negation is the
one of `int`, and the conversion to `uint64_t` extends the sign. -/
def printintBuf (xx : BitVec 32) (base : ℕ) (sgn : Bool) : List ℕ :=
  let neg := sgn && xx.slt 0
  let x : BitVec 64 := if neg then (-xx).signExtend 64 else xx.signExtend 64
  let buf := printintLoop base 64 [] x.toNat
  if neg then buf ++ [ch '-'] else buf

def sizeofBuf : ℕ := 16

/-- `none` if it stores behind the end of its buffer. -/
def printint (xx : BitVec 32) (base : ℕ) (sgn : Bool) : Option (List ℕ) :=
  let buf := printintBuf xx base sgn
  if buf.length ≤ sizeofBuf then some buf.reverse else none

def printptrLoop : ℕ → BitVec 64 → List ℕ
  | 0, _ => []
  | n + 1, x => digits.getD (x >>> (8 * 8 - 4)).toNat 0 :: printptrLoop n (x <<< 4)

def printptr (x : BitVec 64) : List ℕ := ch '0' :: ch 'x' :: printptrLoop (8 * 2) x

/-- `va_arg` of an integer type. -/
def vaArg : List Arg → Option (BitVec 64 × List Arg)
  | .word w :: ap => some (w, ap)
  | _ => none

/-- `va_arg(ap, char*)`, with `"(null)"` in the place of the null pointer. -/
def vaString : List Arg → Option (List ℕ × List Arg)
  | .string s :: ap => some (s.takeWhile (· ≠ 0), ap)
  | .word w :: ap => if w = 0 then some ("(null)".toList.map ch, ap) else none
  | [] => none

/-- The branches for the character behind a `%`. -/
def conversion (c : ℕ) (ap : List Arg) : Option (List ℕ × List Arg) :=
  if c = ch 'd' then do
    let (w, ap) ← vaArg ap
    let text ← printint (w.setWidth 32) 10 true
    return (text, ap)
  else if c = ch 'l' then do
    let (w, ap) ← vaArg ap
    let text ← printint (w.setWidth 32) 10 false
    return (text, ap)
  else if c = ch 'x' then do
    let (w, ap) ← vaArg ap
    let text ← printint (w.setWidth 32) 16 false
    return (text, ap)
  else if c = ch 'p' then do
    let (w, ap) ← vaArg ap
    return (printptr w, ap)
  else if c = ch 's' then vaString ap
  else if c = ch 'c' then do
    let (w, ap) ← vaArg ap
    return ([w.toNat % 256], ap)
  else if c = ch '%' then return ([c], ap)
  else return ([ch '%', c], ap)

/-- The loop of `vprintf`; `none` if it reads behind its arguments, follows a wild pointer or
overruns a buffer. -/
def vprintfLoop : List ℕ → ℕ → List Arg → Option (List ℕ)
  | [], _, _ => some []
  | c :: fmt, state, ap =>
    if c = 0 then some []
    else if state = 0 then
      if c = ch '%' then vprintfLoop fmt (ch '%') ap
      else (vprintfLoop fmt 0 ap).map (c :: ·)
    else if state = ch '%' then do
      let (text, ap) ← conversion c ap
      let rest ← vprintfLoop fmt 0 ap
      return text ++ rest
    else vprintfLoop fmt state ap

def vprintf (fmt : List ℕ) (ap : List Arg) : Option (List ℕ) := vprintfLoop fmt 0 ap

/-! ### What the conversions should print -/

/-- A piece of a format with the argument that it takes. `verbatim` is what has no numeral. -/
inductive Piece where
  | verbatim (text : List ℕ)
  | d (w : BitVec 64)
  | l (w : BitVec 64)
  | x (w : BitVec 64)
  | p (w : BitVec 64)

/-- The piece for the character behind a `%`, if the arguments fit. -/
def pieceOf (c : ℕ) (ap : List Arg) : Option (Piece × List Arg) :=
  if c = ch 'd' then (vaArg ap).map fun (w, ap) => (.d w, ap)
  else if c = ch 'l' then (vaArg ap).map fun (w, ap) => (.l w, ap)
  else if c = ch 'x' then (vaArg ap).map fun (w, ap) => (.x w, ap)
  else if c = ch 'p' then (vaArg ap).map fun (w, ap) => (.p w, ap)
  else if c = ch 's' then (vaString ap).map fun (s, ap) => (.verbatim s, ap)
  else if c = ch 'c' then (vaArg ap).map fun (w, ap) => (.verbatim [w.toNat % 256], ap)
  else if c = ch '%' then some (.verbatim [c], ap)
  else some (.verbatim [ch '%', c], ap)

/-- The pieces of a format. A `%` at its end stands for nothing. -/
def pieces : List ℕ → List Arg → Option (List Piece)
  | [], _ => some []
  | c :: fmt, ap =>
    if c = 0 then some []
    else if c = ch '%' then
      match fmt with
      | [] => some []
      | c :: fmt =>
        if c = 0 then some []
        else (pieceOf c ap).bind fun (x, ap) => (pieces fmt ap).map (x :: ·)
    else (pieces fmt ap).map (.verbatim [c] :: ·)

/-- The text that a piece stands for. -/
def Piece.text : Piece → List ℕ
  | .verbatim text => text
  | .d w => decimal (argInt w)
  | .l w => numeral 10 w.toNat
  | .x w => numeralIn upperChar 16 (w.setWidth 32).toNat
  | .p w => ch '0' :: ch 'x' :: fixedIn upperChar 16 16 w.toNat

def textOf (ps : List Piece) : List ℕ := ps.flatMap Piece.text

/-- The numbers that come out as they should: for `%d` all but the least one, for `%l` and `%x`
those that an `int` can hold. -/
def Piece.Printable : Piece → Prop
  | .d w => argInt w ≠ -2 ^ 31
  | .l w => w.toNat < 2 ^ 31
  | .x w => (w.setWidth 32).toNat < 2 ^ 31
  | _ => True

/-- What `vprintf` prints for a piece. -/
def Piece.printed : Piece → Option (List ℕ)
  | .verbatim text => some text
  | .d w => printint (w.setWidth 32) 10 true
  | .l w => printint (w.setWidth 32) 10 false
  | .x w => printint (w.setWidth 32) 16 false
  | .p w => some (printptr w)

def printedText : List Piece → Option (List ℕ)
  | [] => some []
  | x :: ps => do
    let text ← x.printed
    let rest ← printedText ps
    return text ++ rest

variable {fmt text : List ℕ} {ap : List Arg} {ps : List Piece} {xx : BitVec 32} {w : BitVec 64}
  {base fuel c : ℕ}

/-! ### The pieces in their order -/

/-- A conversion that takes a word and prints its piece. -/
theorem word_conversion (piece : BitVec 64 → Piece) (ap : List Arg) :
    (do
      let (w, ap) ← vaArg ap
      let text ← (piece w).printed
      return (text, ap)) =
    ((vaArg ap).map fun (w, ap) => (piece w, ap)).bind fun r =>
      r.1.printed.map fun text => (text, r.2) := by
  cases vaArg ap with
  | none => rfl
  | some r =>
    obtain ⟨w, ap⟩ := r
    simp only [Option.map_some, Option.bind_eq_bind, Option.bind_some]
    cases (piece w).printed <;> rfl

theorem conversion_eq (c : ℕ) (ap : List Arg) :
    conversion c ap = (pieceOf c ap).bind fun r => r.1.printed.map fun text => (text, r.2) := by
  unfold conversion pieceOf
  split_ifs
  case pos => exact word_conversion .d ap
  case pos => exact word_conversion .l ap
  case pos => exact word_conversion .x ap
  case pos => exact word_conversion .p ap
  case pos => cases vaString ap <;> rfl
  case pos => exact word_conversion (fun w => .verbatim [w.toNat % 256]) ap
  case pos => rfl
  case neg => rfl

/-- `vprintf` prints what its pieces print, one behind the other. -/
theorem vprintf_eq (h : pieces fmt ap = some ps) : vprintf fmt ap = printedText ps := by
  unfold vprintf
  induction fmt, ap using pieces.induct generalizing ps with
  | case1 ap =>
    cases h
    rfl
  | case2 fmt ap =>
    unfold pieces at h
    cases h
    unfold vprintfLoop
    rfl
  | case3 ap hc =>
    simp only [pieces, hc, ↓reduceIte, Option.some.injEq] at h
    subst h
    simp only [vprintfLoop, hc, ↓reduceIte]
    rfl
  | case4 ap fmt hc =>
    simp only [pieces, hc, ↓reduceIte, Option.some.injEq] at h
    subst h
    simp only [vprintfLoop, hc, ↓reduceIte]
    rfl
  | case5 ap c fmt hc hpercent ih =>
    simp only [pieces, hc, hpercent, ↓reduceIte] at h
    obtain ⟨⟨x, ap'⟩, hx, hrest⟩ := Option.bind_eq_some_iff.mp h
    obtain ⟨rest, hps, rfl⟩ := Option.map_eq_some_iff.mp hrest
    simp only [vprintfLoop, hc, hpercent, ↓reduceIte, conversion_eq, hx, Option.bind_some,
      printedText]
    cases hprinted : x.printed with
    | none => rfl
    | some text =>
      simp only [Option.map_some, Option.bind_eq_bind, Option.bind_some, ih ap' hps]
  | case6 c fmt ap hc hpercent ih =>
    unfold pieces at h
    simp only [hc, hpercent, ↓reduceIte] at h
    obtain ⟨rest, hps, rfl⟩ := Option.map_eq_some_iff.mp h
    simp only [vprintfLoop, hc, hpercent, ↓reduceIte, ih hps, printedText, Piece.printed]
    cases printedText rest <;> rfl

/-! ### Digits -/

theorem digits_getD {d : ℕ} (h : d < 16) : digits.getD d 0 = upperChar d := by
  interval_cases d <;> rfl

/-- The loop ends within its rounds, with the digits in the buffer from the last one on. -/
theorem printintLoop_eq (hb : 1 < base) (hb' : base ≤ 16) {x : ℕ} (h : x < base ^ fuel)
    (hfuel : 0 < fuel) (buf : List ℕ) :
    printintLoop base fuel buf x = buf ++ (numeralIn upperChar base x).reverse := by
  induction fuel generalizing x buf with
  | zero => exact absurd hfuel (lt_irrefl 0)
  | succ fuel ih =>
    have hdigit : digits.getD (x % base) 0 = upperChar (x % base) :=
      digits_getD ((Nat.mod_lt x (by omega)).trans_le hb')
    unfold printintLoop
    dsimp only
    rw [hdigit]
    by_cases hx : x < base
    · rw [Nat.div_eq_of_lt hx, if_neg (not_not.mpr rfl), numeralIn_of_lt hx, Nat.mod_eq_of_lt hx]
      rfl
    · have hge : base ≤ x := not_lt.mp hx
      have hdiv : x / base ≠ 0 := (Nat.div_pos hge (by omega)).ne'
      have hsmall : x / base < base ^ fuel := by
        rw [Nat.div_lt_iff_lt_mul (by omega)]
        exact h
      have hleft : 0 < fuel := by
        by_contra h0
        obtain rfl : fuel = 0 := by omega
        exact hdiv (Nat.lt_one_iff.mp hsmall)
      rw [if_pos hdiv, ih hsmall hleft, numeralIn_of_le hb hge, List.reverse_append,
        List.append_assoc]
      rfl

theorem printintBuf_eq (hb : 1 < base) (hb' : base ≤ 16) (sgn : Bool) :
    printintBuf xx base sgn =
      if sgn = true ∧ xx.toInt < 0 then
        (numeralIn upperChar base ((-xx).signExtend 64).toNat).reverse ++ [ch '-']
      else (numeralIn upperChar base (xx.signExtend 64).toNat).reverse := by
  have hfits (x : BitVec 64) : x.toNat < base ^ 64 :=
    x.isLt.trans_le (Nat.pow_le_pow_left hb 64)
  have hneg : (sgn && xx.slt 0) = decide (sgn = true ∧ xx.toInt < 0) := by
    cases sgn <;> simp [BitVec.slt]
  unfold printintBuf
  simp only [hneg, printintLoop_eq hb hb' (hfits _) (by decide), List.nil_append,
    decide_eq_true_eq]
  split_ifs <;> rfl

/-! ### The value that is printed -/

theorem toInt_range (xx : BitVec 32) : -2 ^ 31 ≤ xx.toInt ∧ xx.toInt < 2 ^ 31 :=
  ⟨BitVec.le_toInt xx, BitVec.toInt_lt⟩

theorem toNat_widen (xx : BitVec 32) : (xx.signExtend 64).toNat =
    if xx.toInt < 0 then (2 ^ 64 + xx.toInt).toNat else xx.toInt.toNat := by
  have hkept : (xx.signExtend 64).toInt = xx.toInt := BitVec.toInt_signExtend_of_le (by decide)
  have hbound := (xx.signExtend 64).isLt
  rw [BitVec.toInt_eq_toNat_cond] at hkept
  split_ifs at hkept ⊢ <;> omega

theorem toInt_neg (h : xx.toInt ≠ -2 ^ 31) : (-xx).toInt = -xx.toInt := by
  have hrange := toInt_range xx
  rw [BitVec.toInt_neg]
  exact Int.bmod_eq_of_le (by omega) (by omega)

theorem printintBuf_signed (h : xx.toInt ≠ -2 ^ 31) :
    printintBuf xx 10 true = (decimal xx.toInt).reverse := by
  have hrange := toInt_range xx
  rw [printintBuf_eq (by decide) (by decide), decimal, toNat_widen, toNat_widen, toInt_neg h,
    ← numeral_eq_upper (by decide) le_rfl, ← numeral_eq_upper (by decide) le_rfl]
  by_cases hneg : xx.toInt < 0
  · have habs : (-xx.toInt).toNat = xx.toInt.natAbs := by omega
    rw [if_pos ⟨rfl, hneg⟩, if_pos hneg, if_neg (by omega), habs, List.reverse_cons]
  · have habs : xx.toInt.toNat = xx.toInt.natAbs := by omega
    rw [if_neg fun h => hneg h.2, if_neg hneg, if_neg hneg, habs]

theorem printintBuf_unsigned (h : 0 ≤ xx.toInt) :
    printintBuf xx 10 false = (numeral 10 xx.toInt.toNat).reverse := by
  rw [printintBuf_eq (by decide) (by decide), if_neg fun h => Bool.false_ne_true h.1, toNat_widen,
    if_neg (not_lt.mpr h), ← numeral_eq_upper (by decide) le_rfl]

theorem printintBuf_hex :
    printintBuf xx 16 false = (numeralIn upperChar 16 (xx.signExtend 64).toNat).reverse := by
  rw [printintBuf_eq (by decide) (by decide), if_neg fun h => Bool.false_ne_true h.1]

/-! ### The index -/

theorem index_signed : (printintBuf xx 10 true).length ≤ sizeofBuf ↔ xx.toInt ≠ -2 ^ 31 := by
  constructor
  · intro h hmin
    obtain rfl : xx = BitVec.intMin 32 := BitVec.eq_of_toInt_eq hmin
    exact absurd h (by decide)
  · intro h
    have hrange := toInt_range xx
    have hsmall : (numeral 10 xx.toInt.natAbs).length ≤ 10 := by
      rw [numeral_eq_upper (by decide) le_rfl, length_numeralIn_le (by decide) (by decide)]
      omega
    rw [printintBuf_signed h, List.length_reverse, decimal, sizeofBuf]
    split_ifs
    · rw [List.length_cons]
      omega
    · omega

theorem index_unsigned : (printintBuf xx 10 false).length ≤ sizeofBuf ↔ 0 ≤ xx.toInt := by
  have hrange := toInt_range xx
  rw [printintBuf_eq (by decide) (by decide), if_neg fun h => Bool.false_ne_true h.1,
    List.length_reverse, length_numeralIn_le (by decide) (by decide), toNat_widen, sizeofBuf]
  split_ifs <;> omega

theorem index_hex : (printintBuf xx 16 false).length ≤ sizeofBuf := by
  rw [printintBuf_hex, List.length_reverse, length_numeralIn_le (by decide) (by decide)]
  exact (xx.signExtend 64).isLt

theorem printint_eq {sgn : Bool} (h : printintBuf xx base sgn = text.reverse)
    (hfits : (printintBuf xx base sgn).length ≤ sizeofBuf) :
    printint xx base sgn = some text := by
  unfold printint
  dsimp only
  rw [if_pos hfits, h, List.reverse_reverse]

/-! ### A piece against its text -/

theorem argInt_eq (w : BitVec 64) : argInt w = (w.setWidth 32).toInt := rfl

theorem printint_signed (h : argInt w ≠ -2 ^ 31) :
    printint (w.setWidth 32) 10 true = some (decimal (argInt w)) :=
  printint_eq (printintBuf_signed h) (index_signed.mpr h)

theorem printint_unsigned (h : 0 ≤ argInt w) :
    printint (w.setWidth 32) 10 false = some (numeral 10 (argInt w).toNat) :=
  printint_eq (printintBuf_unsigned h) (index_unsigned.mpr h)

theorem printint_hex : printint xx 16 false =
    some (numeralIn upperChar 16 (xx.signExtend 64).toNat) :=
  printint_eq printintBuf_hex index_hex

theorem printint_overrun {sgn : Bool} (h : ¬ (printintBuf xx base sgn).length ≤ sizeofBuf) :
    printint xx base sgn = none := if_neg h

/-- The first digit of `x` stands at the top of the word. -/
theorem top_digit (x : BitVec 64) : (x >>> (8 * 8 - 4)).toNat = x.toNat / 16 ^ 15 := by
  rw [BitVec.toNat_ushiftRight, Nat.shiftRight_eq_div_pow]
  rfl

/-- The digits that a shift moves out of the word do not matter. -/
theorem kept_digit (a m : ℕ) : a % 16 ^ 16 * m / 16 ^ 15 % 16 = a * m / 16 ^ 15 % 16 := by
  rw [← Nat.mod_mul_right_div_self, ← Nat.mod_mul_right_div_self, ← pow_succ, Nat.mod_mul_mod]

theorem printptrLoop_eq {n : ℕ} (hn : n ≤ 16) (x : BitVec 64) : printptrLoop n x =
    (List.range n).map fun i => upperChar (x.toNat * 16 ^ i / 16 ^ 15 % 16) := by
  induction n generalizing x with
  | zero => rfl
  | succ n ih =>
    have hx := x.isLt
    have hfirst : x.toNat / 16 ^ 15 < 16 := by omega
    rw [printptrLoop, ih (by omega), top_digit, digits_getD hfirst, List.range_succ_eq_map,
      List.map_cons, List.map_map, pow_zero, mul_one, Nat.mod_eq_of_lt hfirst]
    congr 1
    apply List.map_congr_left
    intro i _
    have hshift : (x <<< 4).toNat = x.toNat * 16 % 16 ^ 16 := by
      rw [BitVec.toNat_shiftLeft, Nat.shiftLeft_eq]
      rfl
    have hnext : 16 ^ i.succ = 16 * 16 ^ i := pow_succ' 16 i
    rw [Function.comp_apply, hshift, kept_digit, hnext, ← mul_assoc]

theorem printptr_eq (x : BitVec 64) :
    printptr x = ch '0' :: ch 'x' :: fixedIn upperChar 16 16 x.toNat := by
  rw [printptr, printptrLoop_eq (by decide)]
  congr 2
  apply List.ext_getElem
  · rw [length_fixedIn, List.length_map, List.length_range]
  · intro i hi hi'
    rw [length_fixedIn] at hi'
    have hplace : 16 ^ 15 = 16 ^ (15 - i) * 16 ^ i := by
      rw [← pow_add, Nat.sub_add_cancel (by omega)]
    simp only [fixedIn, List.getElem_reverse, List.getElem_map, List.getElem_range,
      List.length_map, List.length_range]
    rw [hplace, Nat.mul_div_mul_right _ _ (Nat.pow_pos (by decide))]

/-- The extended sign of a `%x` comes out as eight digits in front of the numeral. -/
theorem hex_negative (h : xx.toInt < 0) :
    numeralIn upperChar 16 (xx.signExtend 64).toNat =
      List.replicate 8 (ch 'F') ++ numeralIn upperChar 16 xx.toNat := by
  have hrange := toInt_range xx
  have hvalue : 2 ^ 31 ≤ xx.toNat ∧ xx.toNat < 2 ^ 32 ∧ xx.toInt = xx.toNat - 2 ^ 32 := by
    have hcond := BitVec.toInt_eq_toNat_cond xx
    split_ifs at hcond <;> omega
  have hle : (Nat.digits 16 xx.toNat).length ≤ 8 :=
    (Nat.digits_length_le_iff (by decide) _).mpr (by omega)
  have hge : ¬ (Nat.digits 16 xx.toNat).length ≤ 7 :=
    fun h => absurd ((Nat.digits_length_le_iff (by decide) _).mp h) (by omega)
  have hlength : (Nat.digits 16 xx.toNat).length = 8 := by omega
  have hsum : (xx.signExtend 64).toNat =
      xx.toNat + 16 ^ (Nat.digits 16 xx.toNat).length * (2 ^ 32 - 1) := by
    rw [toNat_widen, if_pos h, hlength]
    omega
  have hsign : numeralIn upperChar 16 (2 ^ 32 - 1) = List.replicate 8 (ch 'F') := by
    simp [numeralIn, upperChar, ch]
  rw [hsum, numeralIn_append (by decide) (by decide) (by omega), hsign]

/-- The argument of `%l` loses its upper half. -/
theorem argInt_cond (w : BitVec 64) : argInt w =
    if w.toNat % 2 ^ 32 < 2 ^ 31 then ((w.toNat % 2 ^ 32 : ℕ) : ℤ)
    else (w.toNat % 2 ^ 32 : ℕ) - 2 ^ 32 := by
  rw [argInt_eq, BitVec.toInt_eq_toNat_cond, BitVec.toNat_setWidth]
  split_ifs <;> omega

theorem nonneg_iff : 0 ≤ xx.toInt ↔ xx.toNat < 2 ^ 31 := by
  have hlt := xx.isLt
  rw [BitVec.toInt_eq_toNat_cond]
  split_ifs <;> omega

namespace Piece

/-- A `%x` whose argument has the sign bit set. -/
def Signed : Piece → Prop
  | .x w => ¬ (w.setWidth 32).toNat < 2 ^ 31
  | _ => False

variable {x : Piece} {out : List ℕ}

theorem printed_of_printable (h : x.Printable) : x.printed = some x.text := by
  cases x with
  | verbatim text => rfl
  | d w => exact printint_signed h
  | l w =>
    have hlt : w.toNat < 2 ^ 31 := h
    have hvalue := argInt_cond w
    rw [Nat.mod_eq_of_lt (by omega), if_pos hlt] at hvalue
    rw [printed, printint_unsigned (by omega), hvalue]
    rfl
  | x w =>
    have hlt : (w.setWidth 32).toNat < 2 ^ 31 := h
    have hpos := nonneg_iff.mpr hlt
    have hvalue : (w.setWidth 32).toInt = (w.setWidth 32).toNat :=
      BitVec.toInt_eq_toNat_of_lt (by omega)
    rw [printed, printint_hex, text, toNat_widen, if_neg (not_lt.mpr hpos), hvalue,
      Int.toNat_natCast]
  | p w => exact congrArg some (printptr_eq w)

theorem printed_x_signed {w : BitVec 64} (h : (Piece.x w).Signed) :
    (Piece.x w).printed = some (List.replicate 8 (ch 'F') ++ (Piece.x w).text) := by
  have hneg : (w.setWidth 32).toInt < 0 := not_le.mp fun h0 => h (nonneg_iff.mp h0)
  rw [printed, printint_hex, hex_negative hneg]
  rfl

theorem printed_l (h : (Piece.l w).printed = some out) :
    0 ≤ argInt w ∧ out = numeral 10 (argInt w).toNat := by
  by_cases hpos : 0 ≤ argInt w
  · rw [printed, printint_unsigned hpos] at h
    exact ⟨hpos, (Option.some.inj h).symm⟩
  · rw [printed, printint_overrun fun hfits => hpos (index_unsigned.mp hfits)] at h
    cases h

theorem F_not_mem_decimal (n : ℕ) : ch 'F' ∉ numeral 10 n := by
  intro h
  rw [numeral_eq_upper (by decide) le_rfl] at h
  have hchar : ∀ d < 10, ch 'F' ≠ upperChar d := by decide
  obtain h | ⟨d, hd, h⟩ := mem_numeralIn h
  · exact hchar 0 (by decide) h
  · exact hchar d (Nat.digits_lt_base (by decide) hd) h

/-- No piece loses an `F`, and a signed one gets some. -/
theorem count_le (h : x.printed = some out) :
    x.text.count (ch 'F') ≤ out.count (ch 'F') ∧
      (x.Signed → x.text.count (ch 'F') < out.count (ch 'F')) := by
  by_cases hx : x.Printable
  · rw [printed_of_printable hx] at h
    obtain rfl := Option.some.inj h
    refine ⟨le_rfl, fun hs => ?_⟩
    cases x with
    | x w => exact absurd hx hs
    | _ => exact absurd hs id
  · cases x with
    | verbatim text => exact absurd trivial hx
    | p w => exact absurd trivial hx
    | d w =>
      rw [printed, printint_overrun fun hfits => hx (index_signed.mp hfits)] at h
      cases h
    | l w =>
      rw [text, List.count_eq_zero_of_not_mem (F_not_mem_decimal _)]
      exact ⟨Nat.zero_le _, fun hs => absurd hs id⟩
    | x w =>
      rw [printed_x_signed hx] at h
      obtain rfl := Option.some.inj h
      have hmore : (List.replicate 8 (ch 'F')).count (ch 'F') = 8 := by decide
      rw [List.count_append, hmore]
      omega

/-- Without a sign in front the text can only be too short. -/
theorem length_le (h : x.printed = some out) (hs : ¬ x.Signed) :
    out.length ≤ x.text.length := by
  by_cases hx : x.Printable
  · rw [printed_of_printable hx] at h
    obtain rfl := Option.some.inj h
    exact le_rfl
  · cases x with
    | verbatim text => exact absurd trivial hx
    | p w => exact absurd trivial hx
    | d w =>
      rw [printed, printint_overrun fun hfits => hx (index_signed.mp hfits)] at h
      cases h
    | l w =>
      obtain ⟨hpos, rfl⟩ := printed_l h
      have hvalue := argInt_cond w
      rw [text, numeral_eq_upper (by decide) le_rfl, numeral_eq_upper (by decide) le_rfl]
      apply length_numeralIn_mono (by decide)
      split_ifs at hvalue <;> omega
    | x w => exact absurd hx hs

theorem printable_of_text (h : x.printed = some x.text) : x.Printable := by
  cases x with
  | verbatim text => trivial
  | p w => trivial
  | d w =>
    by_contra hx
    rw [printed, printint_overrun fun hfits => hx (index_signed.mp hfits)] at h
    cases h
  | l w =>
    obtain ⟨hpos, heq⟩ := printed_l h
    rw [text, numeral_eq_upper (by decide) le_rfl, numeral_eq_upper (by decide) le_rfl] at heq
    have hsame := numeralIn_injective upperValue_upperChar heq
    have hrange : argInt w < 2 ^ 31 := (toInt_range _).2
    change w.toNat < 2 ^ 31
    omega
  | x w =>
    by_contra hx
    exact lt_irrefl _ ((count_le h).2 hx)

end Piece

/-! ### A format against its text -/

theorem printedText_cons {x : Piece} {out : List ℕ} (h : printedText (x :: ps) = some out) :
    ∃ head rest, x.printed = some head ∧ printedText ps = some rest ∧ out = head ++ rest := by
  obtain ⟨head, hhead, hmore⟩ := Option.bind_eq_some_iff.mp h
  obtain ⟨rest, hrest, heq⟩ := Option.bind_eq_some_iff.mp hmore
  exact ⟨head, rest, hhead, hrest, (Option.some.inj heq).symm⟩

theorem textOf_cons (x : Piece) (ps : List Piece) : textOf (x :: ps) = x.text ++ textOf ps :=
  List.flatMap_cons

theorem printedText_count {out : List ℕ} (h : printedText ps = some out) :
    (textOf ps).count (ch 'F') ≤ out.count (ch 'F') ∧
      ((∃ x ∈ ps, x.Signed) → (textOf ps).count (ch 'F') < out.count (ch 'F')) := by
  induction ps generalizing out with
  | nil =>
    refine ⟨Nat.zero_le _, ?_⟩
    rintro ⟨x, hx, -⟩
    cases hx
  | cons x ps ih =>
    obtain ⟨head, rest, hhead, hrest, rfl⟩ := printedText_cons h
    obtain ⟨hle, hlt⟩ := Piece.count_le hhead
    obtain ⟨hle', hlt'⟩ := ih hrest
    rw [textOf_cons, List.count_append, List.count_append]
    refine ⟨Nat.add_le_add hle hle', ?_⟩
    rintro ⟨y, hy, hs⟩
    rcases List.mem_cons.mp hy with rfl | hy
    · exact Nat.add_lt_add_of_lt_of_le (hlt hs) hle'
    · exact Nat.add_lt_add_of_le_of_lt hle (hlt' ⟨y, hy, hs⟩)

theorem printedText_length {out : List ℕ} (h : printedText ps = some out)
    (hs : ∀ x ∈ ps, ¬ x.Signed) : out.length ≤ (textOf ps).length := by
  induction ps generalizing out with
  | nil =>
    cases h
    exact le_rfl
  | cons x ps ih =>
    rw [List.forall_mem_cons] at hs
    obtain ⟨head, rest, hhead, hrest, rfl⟩ := printedText_cons h
    rw [textOf_cons, List.length_append, List.length_append]
    exact Nat.add_le_add (Piece.length_le hhead hs.1) (ih hrest hs.2)

theorem printable_of_textOf (h : printedText ps = some (textOf ps))
    (hs : ∀ x ∈ ps, ¬ x.Signed) : ∀ x ∈ ps, x.Printable := by
  induction ps with
  | nil => exact List.forall_mem_nil _
  | cons x ps ih =>
    rw [List.forall_mem_cons] at hs ⊢
    obtain ⟨head, rest, hhead, hrest, heq⟩ := printedText_cons h
    have hlen := Piece.length_le hhead hs.1
    have hlen' := printedText_length hrest hs.2
    have hsum := congrArg List.length heq
    rw [textOf_cons, List.length_append, List.length_append] at hsum
    rw [textOf_cons] at heq
    obtain ⟨rfl, rfl⟩ := List.append_inj heq (by omega)
    exact ⟨Piece.printable_of_text hhead, ih hrest hs.2⟩

theorem printedText_of_printable (h : ∀ x ∈ ps, x.Printable) :
    printedText ps = some (textOf ps) := by
  induction ps with
  | nil => rfl
  | cons x ps ih =>
    rw [List.forall_mem_cons] at h
    rw [printedText, Piece.printed_of_printable h.1, ih h.2]
    rfl

theorem printedText_iff : printedText ps = some (textOf ps) ↔ ∀ x ∈ ps, x.Printable := by
  constructor
  · intro h
    apply printable_of_textOf h
    intro x hx hs
    exact lt_irrefl _ ((printedText_count h).2 ⟨x, hx, hs⟩)
  · exact printedText_of_printable

/-- `vprintf` prints every format whose `%d` arguments are not the least integer and whose `%l`
and `%x` arguments have no bit from the sign bit on, and only those: the text of each piece in
its place. The index of `printint` leaves the buffer for the least integer with a sign and for
the negative ones in unsigned decimal notation. The texts are numerals that mean their
numbers, for `%p` of 16 digits and else without leading zeros. -/
theorem vprintf_faithful_iff (fmt : List ℕ) (ap : List Arg) (xx : BitVec 32) :
    (∀ ps, pieces fmt ap = some ps →
      (vprintf fmt ap = some (textOf ps) ↔ ∀ x ∈ ps, x.Printable)) ∧
    ((printintBuf xx 10 true).length ≤ sizeofBuf ↔ xx.toInt ≠ -2 ^ 31) ∧
    ((printintBuf xx 10 false).length ≤ sizeofBuf ↔ 0 ≤ xx.toInt) ∧
    (printintBuf xx 16 false).length ≤ sizeofBuf ∧
    (∀ i, Klib.intValue (decimal i) = i) ∧
    (∀ base n, valueIn upperValue base (numeralIn upperChar base n) = n ∧
      numeralIn upperChar base n ≠ [] ∧
      (n ≠ 0 → (numeralIn upperChar base n).head? ≠ some (ch '0'))) ∧
    (∀ n, numeral 10 n = numeralIn upperChar 10 n) ∧
    ∀ x : BitVec 64, (fixedIn upperChar 16 16 x.toNat).length = 16 ∧
      valueIn upperValue 16 (fixedIn upperChar 16 16 x.toNat) = x.toNat := by
  refine ⟨?_, index_signed, index_unsigned, index_hex, Klib.intValue_decimal, ?_,
    fun _ => numeral_eq_upper (by decide) le_rfl, ?_⟩
  · intro ps h
    rw [vprintf_eq h]
    exact printedText_iff
  · intro base n
    exact ⟨valueIn_numeralIn upperValue_upperChar, numeralIn_ne_nil,
      head_numeralIn upperValue_upperChar⟩
  · intro x
    refine ⟨length_fixedIn, ?_⟩
    rw [valueIn_fixedIn upperValue_upperChar]
    exact Nat.mod_eq_of_lt x.isLt

theorem vprintf_faithful_iff_seven :
    vprintf ("n=%d".toList.map ch) [.word 7] = some ("n=7".toList.map ch) := by
  have hp : pieces ("n=%d".toList.map ch) [.word 7] =
      some [.verbatim [ch 'n'], .verbatim [ch '='], .d 7] := rfl
  have hall : ∀ x ∈ [Piece.verbatim [ch 'n'], .verbatim [ch '='], .d 7], x.Printable := by
    simp [Piece.Printable, argInt]
  have htext : textOf [.verbatim [ch 'n'], .verbatim [ch '='], .d 7] = "n=7".toList.map ch := by
    simp [textOf, Piece.text, decimal, argInt, numeral, digitChar, ch]
  rw [← htext]
  exact ((vprintf_faithful_iff _ _ 0).1 _ hp).mpr hall

/-- `%l` loses the upper half of its argument, `%x` gets a sign in front, and the least integer
needs 21 bytes of the 16. -/
theorem vprintf_misprints :
    vprintf ("%l".toList.map ch) [.word 0x100000000] = some ("0".toList.map ch) ∧
    vprintf ("%l".toList.map ch) [.word 0x100000000] ≠ some (numeral 10 0x100000000) ∧
    vprintf ("%x".toList.map ch) [.word 0x80000000] = some ("FFFFFFFF80000000".toList.map ch) ∧
    vprintf ("%x".toList.map ch) [.word 0x80000000] ≠ some (numeralIn upperChar 16 0x80000000) ∧
    (printintBuf (BitVec.intMin 32) 10 true).length = 21 := by
  have hl : vprintf ("%l".toList.map ch) [.word 0x100000000] = some ("0".toList.map ch) := by decide
  have hx : vprintf ("%x".toList.map ch) [.word 0x80000000] =
      some ("FFFFFFFF80000000".toList.map ch) := by decide
  refine ⟨hl, ?_, hx, ?_, by decide⟩
  · rw [hl]
    simp [numeral, digitChar, ch]
  · rw [hx]
    simp [numeralIn, upperChar, ch]

end Zrhos.User
