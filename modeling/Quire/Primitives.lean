import Quire.Secret

namespace Quire.Primitives

inductive Cmd where
  | shell (command : String)
  | argv (program : String) (args : List String)
  deriving DecidableEq, Repr

def Cmd.program : Cmd → String
  | .shell _ => "sh"
  | .argv program _ => program

-- The form shown in events and logs.
def Cmd.display : Cmd → String
  | .shell command => command
  | .argv program args => args.foldl (fun shown arg => shown ++ ", \"" ++ arg ++ "\"") ("[\"" ++ program ++ "\"") ++ "]"

structure ShOpts where
  env : List (String × String)
  deriving DecidableEq, Repr

structure ShOutput where
  exit : Int
  stdout : String
  stderr : String
  cmd : String
  deriving DecidableEq, Repr

inductive RuntimeError where
  | secret (error : Secret.Error)
  | lua (error : String)
  | commandSpawnFailed (program cwd source : String)
  | git (error : String)
  | logWriteFailed (path source : String)
  deriving DecidableEq, Repr

-- The table a job reads under `quire/push`.
structure PushOutputs where
  sha : String
  ref : String
  pushedAt : String
  deriving DecidableEq, Repr

-- What a run-fn does from here to its end: which primitive it calls next, what
-- it does for every answer, and the VM and the result it ends with. An error
-- that it catches is an answer like any other.
inductive Conduct (Vm Failure : Type) where
  | done (vm : Vm) (result : Except Failure Unit)
  | sh (cmd : Cmd) (opts : ShOpts) (next : Except RuntimeError ShOutput → Conduct Vm Failure)
  | secret (name : String) (next : Except RuntimeError String → Conduct Vm Failure)
  | jobs (name : String) (next : Except String (Option PushOutputs) → Conduct Vm Failure)

inductive RunFn (Vm : Type) where
  | lua (call : Vm → Conduct Vm String)
  | rust (call : Vm → Conduct Vm RuntimeError)

-- A call of the `quire.ci` module by the script, with its source line.
inductive RegisterCall (Vm : Type) where
  | job (id : String) (inputs : List String) (runFn : Vm → Conduct Vm String) (line : Nat)
  | image (name : String) (line : Nat)

-- The Lua VM as the program uses it. `runtimeTable` says whether
-- package.loaded["quire.ci"].runtime is there and a table. A script can change
-- that, and it can make the install fail.
structure Lua (Vm : Type) where
  new : Except String Vm
  eval : Vm → String → String → Except String (List (RegisterCall Vm) × Vm)
  install : Vm → Option Vm
  runtimeTable : Vm → Bool

end Quire.Primitives
