import Zrhos.Shell.Model

/-! The command language: the tokens of a line and the commands they derive. -/
namespace Zrhos.Shell
open Sysfile (O_RDONLY O_WRONLY O_CREATE O_TRUNC)

/-! ### Tokens -/

inductive RedirOp where
  | input
  | output
  | append
  deriving DecidableEq, Repr

inductive Tok (ω : Type) where
  | word (w : ω)
  | redir (op : RedirOp)
  | bar
  | amp
  | semi
  | lpar
  | rpar
  deriving DecidableEq, Repr

/-- The token at the head of the bytes, which do not begin with white space, and the bytes
behind it. -/
def firstToken (c : ℕ) (cs : List ℕ) : Tok (List ℕ) × List ℕ :=
  if c = BAR then (.bar, cs)
  else if c = LPAR then (.lpar, cs)
  else if c = RPAR then (.rpar, cs)
  else if c = SEMI then (.semi, cs)
  else if c = AMP then (.amp, cs)
  else if c = LESS then (.redir .input, cs)
  else if c = MORE then
    if cs.head? = some MORE then (.redir .append, cs.tail) else (.redir .output, cs)
  else (.word (c :: cs.takeWhile isLetter), cs.dropWhile isLetter)

theorem firstToken_length (c : ℕ) (cs : List ℕ) : (firstToken c cs).2.length ≤ cs.length := by
  unfold firstToken
  split_ifs <;> simp [(List.dropWhile_sublist _).length_le]

/-- The token sequence of a line. -/
def tokens : List ℕ → List (Tok (List ℕ))
  | [] => []
  | c :: cs =>
    if isWhite c then tokens cs else (firstToken c cs).1 :: tokens (firstToken c cs).2
  termination_by bytes => bytes.length
  decreasing_by
    · exact Nat.lt_succ_self _
    · exact Nat.lt_succ_of_le (firstToken_length c cs)

/-! ### Commands -/

def Cmd.map {ω ω' : Type} (f : ω → ω') : Cmd ω → Cmd ω'
  | .exec argv => .exec (argv.map f)
  | .redir cmd file mode fd => .redir (cmd.map f) (f file) mode fd
  | .pipe left right => .pipe (left.map f) (right.map f)
  | .list left right => .list (left.map f) (right.map f)
  | .back cmd => .back (cmd.map f)

/-- All strings of a command are in `P`. -/
def Cmd.All {ω : Type} (P : ω → Prop) : Cmd ω → Prop
  | .exec argv => ∀ w ∈ argv, P w
  | .redir cmd file _ _ => cmd.All P ∧ P file
  | .pipe left right | .list left right => left.All P ∧ right.All P
  | .back cmd => cmd.All P

theorem Cmd.addArg_map {ω ω' : Type} (f : ω → ω') (c : Cmd ω) (w : ω) :
    (c.addArg w).map f = (c.map f).addArg (f w) := by
  induction c with
  | exec argv => simp [Cmd.addArg, Cmd.map]
  | redir cmd file mode fd ih => simp [Cmd.addArg, Cmd.map, ih]
  | pipe left right | list left right | back cmd => rfl

theorem Cmd.All.addArg {ω : Type} {P : ω → Prop} {c : Cmd ω} {w : ω} (hc : c.All P) (hw : P w) :
    (c.addArg w).All P := by
  induction c with
  | exec argv =>
    intro x hx
    rcases List.mem_append.mp hx with h | h
    · exact hc x h
    · exact List.mem_singleton.mp h ▸ hw
  | redir cmd file mode fd ih => exact ⟨ih hc.1, hc.2⟩
  | pipe left right | list left right | back cmd => exact hc

/-! ### Derivations -/

def RedirOp.mode : RedirOp → ℕ
  | input => O_RDONLY
  | output => O_WRONLY ||| O_CREATE ||| O_TRUNC
  | append => O_WRONLY ||| O_CREATE

def RedirOp.fd : RedirOp → ℕ
  | input => 0
  | output | append => 1

structure Redir (ω : Type) where
  op : RedirOp
  file : ω

variable {ω : Type}

def Redir.toks (r : Redir ω) : List (Tok ω) := [.redir r.op, .word r.file]

def Redir.wrap (cmd : Cmd ω) (r : Redir ω) : Cmd ω := .redir cmd r.file r.op.mode r.op.fd

/-- Redirections are wrapped around the command from left to right. -/
def wrapAll (cmd : Cmd ω) (rs : List (Redir ω)) : Cmd ω := rs.foldl Redir.wrap cmd

/-- A word with the redirections behind it. -/
structure Arg (ω : Type) where
  word : ω
  redirs : List (Redir ω)

def Arg.toks (a : Arg ω) : List (Tok ω) := .word a.word :: a.redirs.flatMap Redir.toks

inductive Nonterminal where
  | line
  | pipe
  | exec

/-- `line = pipe '&'* [';' line]`, `pipe = exec ['|' pipe]` and
`exec = '(' line ')' redir*` or `redir* (word redir*)*` with at most 9 words, each with the
command it stands for. -/
inductive Derives : Nonterminal → List (Tok ω) → Cmd ω → Prop where
  | last {ts : List (Tok ω)} {c : Cmd ω} (n : ℕ) : Derives .pipe ts c →
      Derives .line (ts ++ List.replicate n .amp) (Cmd.back^[n] c)
  | seq {ts us : List (Tok ω)} {c d : Cmd ω} (n : ℕ) : Derives .pipe ts c → Derives .line us d →
      Derives .line (ts ++ List.replicate n .amp ++ .semi :: us) (.list (Cmd.back^[n] c) d)
  | one {ts : List (Tok ω)} {c : Cmd ω} : Derives .exec ts c → Derives .pipe ts c
  | bar {ts us : List (Tok ω)} {c d : Cmd ω} : Derives .exec ts c → Derives .pipe us d →
      Derives .pipe (ts ++ .bar :: us) (.pipe c d)
  | block {ts : List (Tok ω)} {c : Cmd ω} (rs : List (Redir ω)) : Derives .line ts c →
      Derives .exec (.lpar :: ts ++ .rpar :: rs.flatMap Redir.toks) (wrapAll c rs)
  | words (rs : List (Redir ω)) (args : List (Arg ω)) : args.length ≤ 9 →
      Derives .exec (rs.flatMap Redir.toks ++ args.flatMap Arg.toks)
        (wrapAll (.exec (args.map Arg.word)) (rs ++ args.flatMap Arg.redirs))

theorem wrapAll_append (c : Cmd ω) (rs us : List (Redir ω)) :
    wrapAll c (rs ++ us) = wrapAll (wrapAll c rs) us := List.foldl_append ..

theorem wrapAll_addArg (argv : List ω) (rs : List (Redir ω)) (w : ω) :
    (wrapAll (.exec argv) rs).addArg w = wrapAll (.exec (argv ++ [w])) rs := by
  induction rs using List.reverseRecOn with
  | nil => rfl
  | append_singleton rs r ih =>
    simp only [wrapAll, List.foldl_append, List.foldl_cons, List.foldl_nil] at ih ⊢
    simp only [Redir.wrap, Cmd.addArg, ih]

end Zrhos.Shell
