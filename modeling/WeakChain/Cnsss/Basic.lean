import WeakChain.Core.Bytes

/-!
# What every consensus shares

The endpoints of the network, the commands that are agreed on, and the executor interface
`IForConsensusExecutable` through which a consensus runs a command.  The interface takes the command
by reference: `execute(string & cmd)` may rewrite it, so a call leaves behind a new executor state,
the command as it is now, and a reply.
-/

namespace WeakChain

/-- The string that names a node. -/
abbrev Endpoint := Bytes

/-- A command, as the executors and the consensus pass it around. -/
abbrev Cmd := Bytes

/-- What a call of `execute(string & cmd)` leaves behind. -/
structure ExecOut (X : Type*) where
  /-- The executor after the call. -/
  state : X
  /-- The command, possibly rewritten through the reference. -/
  cmd : Cmd
  /-- The returned string. -/
  reply : Bytes

/-- An executor with states `X`. -/
structure IForConsensusExecutable (X : Type*) where
  /-- `string execute(string & cmd)`. -/
  execute : X → Cmd → ExecOut X

namespace IForConsensusExecutable

variable {X : Type*} (E : IForConsensusExecutable X)

/-- Run a list of commands: the executor afterwards, and the commands as it left them. -/
def executeAll : X → List Cmd → X × List Cmd
  | x, [] => (x, [])
  | x, c :: cs =>
    let r := E.execute x c
    let t := executeAll r.state cs
    (t.1, r.cmd :: t.2)

theorem executeAll_append (x : X) (cs ds : List Cmd) :
    E.executeAll x (cs ++ ds) =
      ((E.executeAll (E.executeAll x cs).1 ds).1,
        (E.executeAll x cs).2 ++ (E.executeAll (E.executeAll x cs).1 ds).2) := by
  induction cs generalizing x with
  | nil => rfl
  | cons c cs ih => simp [executeAll, ih]

/-- A deterministic executor leaves behind a prefix for a prefix. -/
theorem executeAll_prefix (x : X) {cs ds : List Cmd} (h : cs <+: ds) :
    (E.executeAll x cs).2 <+: (E.executeAll x ds).2 := by
  obtain ⟨t, rfl⟩ := h
  rw [executeAll_append]
  exact List.prefix_append _ _

end IForConsensusExecutable

/-- `mock::Executable`: it logs the command and leaves it alone. -/
def mockExecutable : IForConsensusExecutable Unit where
  execute _ cmd := ⟨(), cmd, ascii "OK"⟩

end WeakChain
