import CaceProofs.Library.Runs
import CaceProofs.Source.CaceMutex

/-!
# What can happen to an agent

A call of the application, a step, or a message that a channel delivers.
-/
namespace CaceProofs.Source.Cace

inductive Event where
  | distributeValue (name : Name) (value : Bytes) (type : Int) (strategy : AcceptStrategy)
  | distributeVariable (variablePtr : VariablePtr)
  | addVariable (var : ConsensusVariable) (distribute : Bool)
  | writeVariable (variablePtr : VariablePtr) (agentID : Int)
  | requestVariable (name : Name) (agentID : Int)
  | pNoBlock (name : Name) (strict : Bool) (robots : List Int)
  | v (name : Name)
  | agentEngangement (id : Int) (sendBeliveUpdates : Bool)
  | step
  | handle (m : Message)
  deriving DecidableEq, Repr

/-- What one event does to the agent. -/
def exec (r : Readings) (c : Cace) : Event → Except Fault Cace
  | .distributeValue name value type strategy =>
    .ok (CaceSpace.distributeValue r c name value type strategy)
  | .distributeVariable variablePtr => .ok (CaceSpace.distributeVariable r c variablePtr)
  | .addVariable var distribute => .ok (CaceSpace.addVariable r c var distribute)
  | .writeVariable variablePtr agentID => .ok (CaceSpace.writeVariable r c variablePtr agentID)
  | .requestVariable name agentID => .ok (CaceSpace.requestVariable r c name agentID)
  | .pNoBlock name strict robots => .ok (CaceMutex.pNoBlock r c name strict robots).1
  | .v name => .ok (CaceMutex.v r c name).1
  | .agentEngangement id sendBeliveUpdates => .ok (c.agentEngangement r id sendBeliveUpdates)
  | .step => c.step r
  | .handle m => .ok (c.handle r m)

/-- An event together with what the environment supplies while it runs. -/
def Next (c : Cace) (e : Readings × Event) (c' : Cace) : Prop :=
  c.exec e.1 e.2 = .ok c'

/-- The runs of one agent. -/
abbrev Runs (start : Cace) : List (Cace × Readings × Event) → Cace → Prop :=
  Library.Run Next start

/-- Runs a list of events. -/
def play (c : Cace) (events : List (Readings × Event)) :
    Option (List (Cace × Readings × Event) × Cace) :=
  Library.play (fun c e => (c.exec e.1 e.2).toOption) [] c events

theorem play_runs {c c' : Cace} {events : List (Readings × Event)}
    {trace : List (Cace × Readings × Event)} (played : c.play events = some (trace, c')) :
    c.Runs trace c' ∧ trace.map Prod.snd = events := by
  refine Library.play_run ?_ .nil played
  intro s e s' done
  unfold Next
  cases result : s.exec e.1 e.2 with
  | ok c => simpa [result, Except.toOption] using done
  | error fault => simp [result, Except.toOption] at done

/-- Nothing is queued, no job runs, and the observation begins here. -/
structure Idle (c : Cace) : Prop where
  commands : c.commands = []
  believeNotifications : c.believeNotifications = []
  shortAcks : c.shortAcks = []
  writeAcknowledges : c.writeAcknowledges = []
  jobs : c.jobs = []
  history : c.history = []

/-- An agent as its constructor leaves it, up to the clock: nothing is stored, queued or
known, and the own ID is on the blacklist and in the variable space. -/
structure Fresh (c : Cace) : Prop extends c.Idle where
  store : c.store = []
  activeRobots : c.activeRobots = []
  ownListed : c.ownID ∈ c.agentBlacklist
  spaceOwnID : c.spaceOwnID = c.ownID

theorem construct_fresh (id : Int) (quiet : Bool) (maxCommandRetrys : Int) :
    (construct id quiet maxCommandRetrys).Fresh :=
  ⟨⟨rfl, rfl, rfl, rfl, rfl, rfl⟩, rfl, rfl, List.mem_singleton_self _, rfl⟩

end CaceProofs.Source.Cace
