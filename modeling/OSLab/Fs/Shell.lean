import OSLab.Fs.File

/-!
# Making a file system and running commands (`fs/mktestfs.c`, `fs/testfs.c`)

A step is one command line, already split into a command and its arguments. A command
that aborts ends the program, so it is no step.
-/

namespace OSLab.Fs

open Prog

/-- `testfs_init_super_block`, with the empty hash table it creates. -/
def initFs (dev : Device) : Option Testfs :=
  (testfsInitSuperBlock dev).map fun sb => ⟨sb, [], 0⟩

/-- `testfs_close_super_block`: the device it leaves. -/
def closeFs (s : Testfs) : Option Device :=
  match (do inodeHashDestroy; onSb testfsCloseSuperBlock) s with
  | none => none
  | some (_, s') => some s'.sb.dev

/-- The empty file system `mktestfs` lays out first. -/
def layOut : Prog SuperBlock Unit := do
  testfsMakeInodeFreemap
  testfsMakeBlockFreemap
  testfsMakeInodeBlocks
  testfsCloseSuperBlock

/-- `mktestfs` for a size in MB between 1 and 8192: the device it makes. -/
def mktestfs (fsSizeMb : ℕ) : Option Device :=
  let maxFsBlocks := fsSizeMb * 2 ^ 20 / blockSize
  if fsSizeMb < 1 ∨ blockFreemapSize * blockSize * 8 * blockSize / 2 ^ 20 < fsSizeMb then none
  else
    match testfsMakeSuperBlock maxFsBlocks with
    | none => none
    | some sb => match layOut sb with
      | none => none
      | some (_, sb) => match initFs sb.dev with
        | none => none
        | some s => match testfsMakeRootDir s with
          | none => none
          | some (_, s) => closeFs s

/-- The start of `testfs`: open the device and make the root the current directory. -/
def mount (dev : Device) : Option Testfs :=
  match initFs dev with
  | none => none
  | some s => match testfsGetInode 0 s with
    | none => none
    | some (_, s) => some { s with curDir := 0 }

/-- The end of `testfs`. -/
def unmount : Prog Testfs Unit := do
  let s ← getState
  testfsPutInode s.curDir

/-- The commands of `cmdtable` that use the file system. -/
inductive Cmd
  | cd
  | pwd
  | ls
  | lsr
  | create
  | stat
  | rm
  | mkdir
  | read
  | write
  | fsstat
  deriving DecidableEq, Repr

def cmdFsstat (args : List CString) : Prog Testfs Reply := do
  match args with
  | [] => do
    let s ← getState
    return (0, printString "nr of allocated inodes = " ++ printInt s.sb.sb.usedInodeCount ++
      [newline] ++ printString "nr of allocated blocks = " ++ printInt s.sb.sb.usedBlockCount ++
      [newline])
  | _ => return (-einval, [])

/-- A command and its arguments. -/
structure Command where
  cmd : Cmd
  args : List CString

/-- The function of a command; `fuel` is for the recursion of `pwd`, `ls` and `lsr`. -/
def Command.run (fuel : ℕ) (c : Command) : Prog Testfs Reply :=
  match c.cmd with
  | .cd => cmdCd c.args
  | .pwd => cmdPwd fuel c.args
  | .ls => cmdLs fuel c.args
  | .lsr => cmdLsr fuel c.args
  | .create => cmdCreate c.args
  | .stat => cmdStat c.args
  | .rm => cmdRm c.args
  | .mkdir => cmdMkdir c.args
  | .read => cmdRead c.args
  | .write => cmdWrite c.args
  | .fsstat => cmdFsstat c.args

/-- A command with the reply it gives. -/
structure Event where
  command : Command
  reply : Reply

/-- One command, run to its end. -/
def step (s : Testfs) (e : Event) (t : Testfs) : Prop :=
  ∃ fuel, e.command.run fuel s = some (e.reply, t)

end OSLab.Fs
