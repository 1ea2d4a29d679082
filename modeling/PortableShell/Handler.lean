import PortableShell.Ansi
import PortableShell.History
import PortableShell.Registry
import PortableShell.Transport

set_option relaxedAutoImplicit false
set_option autoImplicit false

/-!
# Application handlers

The public functions that a handler or completion provider may call while the shell waits for
it, and the call itself.

## Main definitions

* `PortableShell.shStop`, `shSetEchoEnabled` — `sh_stop` and `sh_set_echo_enabled`.
* `PortableShell.runCall` — one use of the API by application code.
* `PortableShell.callHandler`, `callProvider` — the calls through the function pointers.
* `PortableShell.ShellStep` — what application code can do to a shell.
-/

namespace PortableShell

variable {ω : Type} (env : Env ω)

/-- What `sh_stop` does to the shell before it flushes. -/
def Shell.stopped (s : Shell) : Shell := { s with started := false, ansi := shAnsiReset s.ansi }

/-- `sh_stop`. -/
def shStop (st : Sys ω) : Sys ω × Status := shFlush env (st.modify Shell.stopped)

/-- `sh_set_echo_enabled`. -/
def shSetEchoEnabled (s : Shell) (enabled : Bool) : Shell := { s with echoEnabled := enabled }

/-- What application code can see of a shell. -/
def viewOf (s : Shell) : View where
  echoEnabled := s.echoEnabled
  historyCapacity := shHistoryCapacity s
  history := (List.range (shHistoryCount s)).filterMap (shHistoryGetNewest s)

/-- One use of the API by application code. -/
def runCall (st : Sys ω) : ApiCall ω → Sys ω
  | .write data =>
    { st with
      io := (backendWrite env st.sh.cfg st.io data).1
      trace := st.trace ++ [.handlerWrite data] }
  | .flush => (shFlush env st).1
  | .historyClear => shHistoryClear st
  | .setEchoEnabled enabled => st.modify (shSetEchoEnabled · enabled)
  | .registerCommands commands => st.modify fun s => (shRegisterCommands s commands).1
  | .registerCommandSets sets => st.modify fun s => (shRegisterCommandSets s sets).1
  | .start => (shStart env st).1
  | .stop => (shStop env st).1
  | .effect f => { st with io := f st.io }

/-- The uses of the API by application code, in order. -/
def runCalls (st : Sys ω) (calls : List (ApiCall ω)) : Sys ω := calls.foldl (runCall env) st

/-- `cmd->handler(shell, argc, argv, ctx)`. -/
def callHandler (st : Sys ω) (fn : Ptr) (argv : List CStr) (ctx : Option Ptr) : Sys ω × Status :=
  let r := env.handler fn (viewOf st.sh) st.io argv ctx
  (runCalls env (st.emit (.handler fn argv ctx)) r.1, r.2)

/-- `cmd->completion(shell, arg_index, index, ctx)`. -/
def callProvider (st : Sys ω) (fn : Ptr) (argIndex index : ℕ) (ctx : Option Ptr) :
    Sys ω × Option CStr :=
  let r := env.completion fn (viewOf st.sh) st.io argIndex index ctx
  (runCalls env st r.1, r.2)

/-! ## What application code does to a shell -/

/-- The changes of the shell that the API functions make. -/
inductive ShellStep : Shell → Shell → Prop
  | clear (s : Shell) : ShellStep s s.clearHistory
  | echo (s : Shell) (enabled : Bool) : ShellStep s (shSetEchoEnabled s enabled)
  | commands (s : Shell) (l : CArray Cmd) : ShellStep s (shRegisterCommands s l).1
  | commandSets (s : Shell) (l : CArray CommandSet) : ShellStep s (shRegisterCommandSets s l).1
  | started (s : Shell) (b : Bool) : ShellStep s (s.setStarted b)
  | stopped (s : Shell) : ShellStep s s.stopped

end PortableShell
