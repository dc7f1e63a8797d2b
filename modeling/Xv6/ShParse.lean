import Xv6.ShToken

/-!
# The shell parser

`parsecmd` and the functions it calls share a cursor into the line and
build a tree whose words are pairs of pointers. `nulterminate` then writes
a NUL at the end of each word, so that a word can be read as a string.

The functions recurse into each other and each has a loop, so they take
a number of calls and rounds; `Stop.spin` is running out of it, which
`parsecmd` never does.
-/

namespace Xv6.Sh

open ByteVec (Byte)

def O_RDONLY : Nat := 0x000
def O_WRONLY : Nat := 0x001
def O_CREATE : Nat := 0x200
def O_TRUNC : Nat := 0x400

abbrev MAXARGS : Nat := 10

inductive Panic where
  | malformed
  | missingFile
  | parseblock
  | missingParen
  | tooManyArgs
deriving DecidableEq

def Panic.message : Panic → String
  | .malformed => "syntax"
  | .missingFile => "missing file for redirection"
  | .parseblock => "parseblock"
  | .missingParen => "syntax - missing )"
  | .tooManyArgs => "too many args"

inductive Stop where
  | panic (p : Panic)
  | spin
deriving DecidableEq

/-- `struct cmd`; `argv` has the pointers of `argv` and `eargv`. -/
inductive Cmd where
  | exec (argv : List (Nat × Nat))
  | redir (cmd : Cmd) (file efile : Nat) (mode fd : Nat)
  | pipe (left right : Cmd)
  | list (left right : Cmd)
  | back (cmd : Cmd)
deriving DecidableEq

/-- `cmd->argv[argc] = q; cmd->eargv[argc] = eq;` where `cmd` is the node
that the redirections of `ret` are around. -/
def Cmd.addArg : Cmd → Nat → Nat → Cmd
  | .exec argv, q, eq => .exec (argv ++ [(q, eq)])
  | .redir c file efile mode fd, q, eq => .redir (c.addArg q eq) file efile mode fd
  | c, _, _ => c

/-- The mode and descriptor of a redirection. -/
def Sym.redir? : Sym → Option (Nat × Nat)
  | .lt => some (O_RDONLY, 0)
  | .gt => some (O_WRONLY ||| O_CREATE ||| O_TRUNC, 1)
  | .gtgt => some (O_WRONLY ||| O_CREATE, 1)
  | _ => none

section Parser

variable (line : List Byte)

def parseredirs : Nat → Cmd → Nat → Except Stop (Cmd × Nat)
  | 0, _, _ => .error .spin
  | n + 1, cmd, ps =>
      let (more, ps) := peek line ps [0x3c, 0x3e]
      if more then
        let tok := gettoken line ps
        let g := gettoken line tok.ps
        if g.ret ≠ .word then .error (.panic .missingFile)
        else
          match tok.ret with
          | .sym k =>
              match k.redir? with
              | some (mode, fd) => parseredirs n (.redir cmd g.q g.eq mode fd) g.ps
              | none => parseredirs n cmd g.ps
          | _ => parseredirs n cmd g.ps
      else .ok (cmd, ps)

/-- The loop of `parseexec`. -/
def parseargs : Nat → Cmd → Nat → Nat → Except Stop (Cmd × Nat)
  | 0, _, _, _ => .error .spin
  | n + 1, ret, argc, ps =>
      let (stop, ps) := peek line ps [0x7c, 0x29, 0x26, 0x3b]
      if stop then .ok (ret, ps)
      else
        let g := gettoken line ps
        if g.ret = .nul then .ok (ret, g.ps)
        else if g.ret ≠ .word then .error (.panic .malformed)
        else if MAXARGS ≤ argc + 1 then .error (.panic .tooManyArgs)
        else do
          let (ret, ps) ← parseredirs line n (ret.addArg g.q g.eq) g.ps
          parseargs n ret (argc + 1) ps

/-- The loop of `parseline`. -/
def parsebacks : Nat → Cmd → Nat → Except Stop (Cmd × Nat)
  | 0, _, _ => .error .spin
  | n + 1, cmd, ps =>
      let (more, ps) := peek line ps [0x26]
      if more then parsebacks n (.back cmd) (gettoken line ps).ps else .ok (cmd, ps)

mutual

def parseline : Nat → Nat → Except Stop (Cmd × Nat)
  | 0, _ => .error .spin
  | n + 1, ps => do
      let (cmd, ps) ← parsepipe n ps
      let (cmd, ps) ← parsebacks line n cmd ps
      let (more, ps) := peek line ps [0x3b]
      if more then do
        let (right, ps) ← parseline n (gettoken line ps).ps
        .ok (.list cmd right, ps)
      else .ok (cmd, ps)

def parsepipe : Nat → Nat → Except Stop (Cmd × Nat)
  | 0, _ => .error .spin
  | n + 1, ps => do
      let (cmd, ps) ← parseexec n ps
      let (more, ps) := peek line ps [0x7c]
      if more then do
        let (right, ps) ← parsepipe n (gettoken line ps).ps
        .ok (.pipe cmd right, ps)
      else .ok (cmd, ps)

def parseblock : Nat → Nat → Except Stop (Cmd × Nat)
  | 0, _ => .error .spin
  | n + 1, ps =>
      let (opened, ps) := peek line ps [0x28]
      if opened then do
        let (cmd, ps) ← parseline n (gettoken line ps).ps
        let (closed, ps) := peek line ps [0x29]
        if closed then parseredirs line n cmd (gettoken line ps).ps
        else .error (.panic .missingParen)
      else .error (.panic .parseblock)

def parseexec : Nat → Nat → Except Stop (Cmd × Nat)
  | 0, _ => .error .spin
  | n + 1, ps =>
      let (opened, ps) := peek line ps [0x28]
      if opened then parseblock n ps
      else do
        let (ret, ps) ← parseredirs line n (.exec []) ps
        parseargs line n ret 0 ps

end

end Parser

/-- What `nulterminate` leaves of the buffer. -/
def nulterminate : Cmd → List Byte → List Byte
  | .exec argv, buf => argv.foldl (fun buf a => buf.set a.2 0) buf
  | .redir c _ efile _ _, buf => (nulterminate c buf).set efile 0
  | .pipe l r, buf | .list l r, buf => nulterminate r (nulterminate l buf)
  | .back c, buf => nulterminate c buf

/-- The string that starts a buffer. -/
def cstr (buf : List Byte) : List Byte := buf.takeWhile (· ≠ 0)

/-- The command, and the buffer its pointers point into. -/
def parsecmd (buf : List Byte) : Except Stop (Cmd × List Byte) := do
  let line := cstr buf
  let es := line.length
  let (cmd, s) ← parseline line (4 * es + 4) 0
  let (_, s) := peek line s []
  if s ≠ es then .error (.panic .malformed) else .ok (cmd, nulterminate cmd buf)

end Xv6.Sh
