import Zrhos.Sysfile.Calls

/-! The parser of `sh.c`. A position in the line is its offset; `malloc` does not fail. -/
namespace Zrhos.Shell
open Sysfile (O_RDONLY O_WRONLY O_CREATE O_TRUNC)

def MAXARGS : ℕ := 10

/-! ### Characters -/

def BAR : ℕ := 124
def LPAR : ℕ := 40
def RPAR : ℕ := 41
def SEMI : ℕ := 59
def AMP : ℕ := 38
def LESS : ℕ := 60
def MORE : ℕ := 62
def PLUS : ℕ := 43

/-- The letter `a`, the code of a word. -/
def WORD : ℕ := 97

/-- Blank, tab, carriage return, newline and vertical tab. -/
def whitespace : List ℕ := [32, 9, 13, 10, 11]

def symbols : List ℕ := [LESS, BAR, MORE, AMP, SEMI, LPAR, RPAR]

/-- `strchr` of `ulib.c` does not find the NUL at the end of the string. -/
def strchr (s : List ℕ) (c : ℕ) : Bool := c ∈ s

def isWhite (c : ℕ) : Bool := strchr whitespace c

def isLetter (c : ℕ) : Bool := !strchr whitespace c && !strchr symbols c

/-- A line without the NUL at its end. -/
structure CmdLine where
  bytes : List ℕ
  nonzero : 0 ∉ bytes

namespace CmdLine

variable (l : CmdLine)

def byte (s : ℕ) : ℕ := l.bytes.getD s 0

def es : ℕ := l.bytes.length

/-- A loop that moves `s` on while the byte there is in `p`, at most `n` times. -/
def skipLoop (p : ℕ → Bool) : ℕ → ℕ → ℕ
  | 0, s => s
  | n + 1, s => if p (l.byte s) then skipLoop p n (s + 1) else s

def skip (p : ℕ → Bool) (s : ℕ) : ℕ := l.skipLoop p (l.es - s) s

/-! ### Tokens -/

/-- The `switch` of `gettoken`: the code of the token at `s` and its end. -/
def scan (s : ℕ) : ℕ × ℕ :=
  let c := l.byte s
  if c = 0 then (0, s)
  else if c ∈ [BAR, LPAR, RPAR, SEMI, AMP, LESS] then (c, s + 1)
  else if c = MORE then if l.byte (s + 1) = MORE then (PLUS, s + 2) else (MORE, s + 1)
  else (WORD, l.skip isLetter s)

/-- What `gettoken` answers: the code, the beginning `q` and the end `eq` of the token, and
the new position. -/
structure Got where
  tok : ℕ
  q : ℕ
  eq : ℕ
  ps : ℕ

def gettoken (s : ℕ) : Got :=
  let q := l.skip isWhite s
  let r := l.scan q
  ⟨r.1, q, r.2, l.skip isWhite r.2⟩

/-- The answer of `peek` and the new position. -/
def peek (s : ℕ) (toks : List ℕ) : Bool × ℕ :=
  let s := l.skip isWhite s
  (l.byte s ≠ 0 && strchr toks (l.byte s), s)

end CmdLine

/-! ### Commands -/

/-- The beginning and the end of a string in the line. -/
abbrev Span := ℕ × ℕ

/-- `ω` are the strings in the command. -/
inductive Cmd (ω : Type) where
  | exec (argv : List ω)
  | redir (cmd : Cmd ω) (file : ω) (mode fd : ℕ)
  | pipe (left right : Cmd ω)
  | list (left right : Cmd ω)
  | back (cmd : Cmd ω)
  deriving DecidableEq, Repr

/-- A store to the `argv` of the command that the redirections are wrapped around. -/
def Cmd.addArg {ω : Type} : Cmd ω → ω → Cmd ω
  | .exec argv, w => .exec (argv ++ [w])
  | .redir cmd file mode fd, w => .redir (cmd.addArg w) file mode fd
  | cmd, _ => cmd

/-- The `switch` of `parseredirs`. -/
def Cmd.redirect {ω : Type} (cmd : Cmd ω) (tok : ℕ) (w : ω) : Cmd ω :=
  if tok = LESS then .redir cmd w O_RDONLY 0
  else if tok = MORE then .redir cmd w (O_WRONLY ||| O_CREATE ||| O_TRUNC) 1
  else if tok = PLUS then .redir cmd w (O_WRONLY ||| O_CREATE) 1
  else cmd

inductive Panic where
  | missingFile
  | parseblock
  | missingParen
  | badSyntax
  | tooManyArgs
  deriving DecidableEq, Repr

/-- `fuel` stands for a parser that has not come to its end yet. -/
inductive Halt where
  | panic (why : Panic)
  | fuel
  deriving DecidableEq, Repr

/-- A command and the position behind it. -/
abbrev Parsed := Except Halt (Cmd Span × ℕ)

namespace CmdLine

variable (l : CmdLine)

def parseredirs : ℕ → Cmd Span → ℕ → Parsed
  | 0, _, _ => .error .fuel
  | n + 1, cmd, s =>
    let p := l.peek s [LESS, MORE]
    if p.1 then
      let t := l.gettoken p.2
      let f := l.gettoken t.ps
      if f.tok ≠ WORD then .error (.panic .missingFile)
      else parseredirs n (cmd.redirect t.tok (f.q, f.eq)) f.ps
    else .ok (cmd, p.2)

/-- The loop of `parseexec` that reads the arguments; `argc` of them have been read. -/
def parseargs : ℕ → ℕ → Cmd Span → ℕ → Parsed
  | 0, _, _, _ => .error .fuel
  | n + 1, argc, ret, s =>
    let p := l.peek s [BAR, RPAR, AMP, SEMI]
    if p.1 then .ok (ret, p.2)
    else
      let t := l.gettoken p.2
      if t.tok = 0 then .ok (ret, t.ps)
      else if t.tok ≠ WORD then .error (.panic .badSyntax)
      else if argc + 1 ≥ MAXARGS then .error (.panic .tooManyArgs)
      else do
        let r ← l.parseredirs (l.es + 1) (ret.addArg (t.q, t.eq)) t.ps
        parseargs n (argc + 1) r.1 r.2

/-- The loop of `parseline` over `&`. -/
def parseback : ℕ → Cmd Span → ℕ → Parsed
  | 0, _, _ => .error .fuel
  | n + 1, cmd, s =>
    let p := l.peek s [AMP]
    if p.1 then parseback n (.back cmd) (l.gettoken p.2).ps else .ok (cmd, p.2)

mutual

def parseline : ℕ → ℕ → Parsed
  | 0, _ => .error .fuel
  | n + 1, s => do
    let r ← parsepipe n s
    let r ← l.parseback (l.es + 1) r.1 r.2
    let p := l.peek r.2 [SEMI]
    if p.1 then
      let right ← parseline n (l.gettoken p.2).ps
      return (.list r.1 right.1, right.2)
    else return (r.1, p.2)

def parsepipe : ℕ → ℕ → Parsed
  | 0, _ => .error .fuel
  | n + 1, s => do
    let r ← parseexec n s
    let p := l.peek r.2 [BAR]
    if p.1 then
      let right ← parsepipe n (l.gettoken p.2).ps
      return (.pipe r.1 right.1, right.2)
    else return (r.1, p.2)

def parseexec : ℕ → ℕ → Parsed
  | 0, _ => .error .fuel
  | n + 1, s =>
    let p := l.peek s [LPAR]
    if p.1 then parseblock n p.2
    else do
      let r ← l.parseredirs (l.es + 1) (.exec []) p.2
      l.parseargs (l.es + 1) 0 r.1 r.2

def parseblock : ℕ → ℕ → Parsed
  | 0, _ => .error .fuel
  | n + 1, s =>
    let p := l.peek s [LPAR]
    if !p.1 then .error (.panic .parseblock)
    else do
      let r ← parseline n (l.gettoken p.2).ps
      let p := l.peek r.2 [RPAR]
      if !p.1 then .error (.panic .missingParen)
      else l.parseredirs (l.es + 1) r.1 (l.gettoken p.2).ps

end

end CmdLine

/-! ### The end of the strings -/

/-- The bytes of the line's memory by their offset. -/
abbrev Buf := ℕ → ℕ

/-- A NUL behind the string. -/
def Buf.cut (buf : Buf) (w : Span) : Buf := Function.update buf w.2 0

def nulterminate : Cmd Span → Buf → Buf
  | .exec argv, buf => argv.foldl Buf.cut buf
  | .redir cmd file _ _, buf => (nulterminate cmd buf).cut file
  | .pipe left right, buf => nulterminate right (nulterminate left buf)
  | .list left right, buf => nulterminate right (nulterminate left buf)
  | .back cmd, buf => nulterminate cmd buf

/-- The command and the line as `parsecmd` leaves it. -/
def CmdLine.parsecmd (l : CmdLine) : Except Halt (Cmd Span × Buf) := do
  let r ← l.parseline (4 * l.es + 4) 0
  let p := l.peek r.2 []
  if p.2 ≠ l.es then .error (.panic .badSyntax)
  else return (r.1, nulterminate r.1 l.byte)

end Zrhos.Shell
