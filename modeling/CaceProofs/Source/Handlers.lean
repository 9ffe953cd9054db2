import CaceProofs.Source.Jobs

/-!
# Receiving, engagement and the step

The handlers of CaceCommunication, `CVariableStore::sendBelieveUpdates`,
`Cace::agentEngangement` and `Cace::step`.
-/
namespace CaceProofs.Source.Cace

/-- `isBlacklisted` -/
def isBlacklisted (c : Cace) (agentID : Int) : Bool :=
  c.agentBlacklist.contains agentID

/-- The test on the receivers: broadcast, or the own ID as an int16. -/
def addressed (c : Cace) (receiverID : List Int) : Bool :=
  receiverID.contains broadcastID || receiverID.contains (toShort c.ownID)

/-- `getLocalScopeString` without its first slash, as `agentEngangement` passes it on. -/
def scopeString (c : Cace) : Name :=
  let scope := c.localScope.flatMap fun s => s ++ ['/']
  if scope.getLast? = some '/' then scope else scope ++ ['/']

/-- `lastKnownUpdateTime`: the age of the first proposal of the robot. -/
def lastKnownUpdateTime (cv : ConsensusVariable) (id : Int) : Nat :=
  ((cv.proposals.find? fun v => v.robotID == id).map Believe.lamportAge).getD 0

/-- One pass of the loop of `CVariableStore::sendBelieveUpdates`. -/
def sendBelieveUpdate (r : Readings) (id : Int) (currentScope : Name) (lamportTime : Nat)
    (c : Cace) (e : Name × ConsensusVariable) : Cace :=
  if e.2.getScope.isPrefixOf currentScope && e.2.hasValue then
    if lastKnownUpdateTime e.2 id < e.2.lamportAge ∧ .fireAndForget < e.2.strategy then
      let (c, job) := BelieveNotificationJob.construct r c (.stored e.1) [id] lamportTime
      c.appendJob (.believeNotification job)
    else c
  else c

/-- `CVariableStore::sendBelieveUpdates` -/
def sendBelieveUpdates (r : Readings) (c : Cace) (id : Int) (currentScope : Name)
    (lamportTime : Nat) : Cace :=
  c.store.foldl (sendBelieveUpdate r id currentScope lamportTime) c

/-- `Cace::agentEngangement` -/
def agentEngangement (r : Readings) (c : Cace) (id : Int) (sendBeliveUpdates : Bool) : Cace :=
  if id = c.ownID then c
  else if c.activeRobots.contains id then c
  else
    let c := { c with activeRobots := c.activeRobots ++ [id] }
    if sendBeliveUpdates then c.sendBelieveUpdates r id c.scopeString c.lamportTime.time else c

/-- `Cace::changeScopeAndRestoreConsistency` -/
def changeScopeAndRestoreConsistency (r : Readings) (c : Cace) (localScope : List Name) : Cace :=
  let c := { c with localScope := localScope }
  let scope := c.scopeString
  c.activeRobots.foldl (fun c id => c.sendBelieveUpdates r id scope c.lamportTime.time) c

/-- A variable request does not touch the clock; an unknown variable is answered with
an empty one. -/
def handleCaceVariableRequest (c : Cace) (cvr : CaceVariableRequest) : Cace :=
  if c.isBlacklisted cvr.senderID then c
  else
    let c := c.observe (.received (.variableRequest cvr))
    if c.addressed cvr.receiverID then
      match c.getVariable cvr.variableName with
      | some cv => c.sendCaceResponse cv cvr.msgID cvr.senderID
      | none =>
        let cv := { Believe.construct cvr.variableName .noDistribution 0 c.ownID 0 0 0 with
          proposals := [] }
        c.sendCaceResponse cv cvr.msgID cvr.senderID
    else c

def handleCaceResponse (r : Readings) (c : Cace) (cc : CaceCommand) : Cace :=
  if c.isBlacklisted cc.senderID then c
  else
    let c := (c.observe (.received (.response cc))).updateLamportTime cc.lamportTime
    if c.addressed cc.receiverID then
      let cv := Believe.construct cc.variableName ⟨cc.level⟩ cc.validityTime cc.senderID
        cc.decissionTime cc.lamportTime (toShort cc.type)
      let cv :=
        if cc.value.isEmpty then cv
        else { cv.setValue cc.value with arrivalTime := r.localTime }
      { c with responses := c.responses ++ [{ cv with proposals := [] }] }
    else c

def handleCaceWrite (r : Readings) (c : Cace) (cc : CaceCommand) : Cace :=
  if c.isBlacklisted cc.senderID then c
  else
    let c := (c.observe (.received (.write cc))).updateLamportTime cc.lamportTime
    if c.addressed cc.receiverID then
      let (c, job) := WriteAckJob.construct r c [] c.lamportTime.time cc
      c.appendJob (.writeAck job)
    else c

def handleCaceWriteAck (c : Cace) (ca : CaceShortAck) : Cace :=
  if c.isBlacklisted ca.senderID then c
  else
    let c := (c.observe (.received (.writeAck ca))).updateLamportTime ca.lamportTime
    if c.addressed ca.receiverID then
      { c with writeAcknowledges := c.writeAcknowledges ++ [ca] }
    else c

/-- What the handler gets: that of the quiet module overwrites the time stamp with one
more than the clock and then calls the handler below. -/
def stampedCommand (c : Cace) (cc : CaceCommand) : CaceCommand :=
  if c.quiet then { cc with lamportTime := c.lamportTime.tick.time } else cc

def handleCaceCommand (r : Readings) (c : Cace) (cc : CaceCommand) : Cace :=
  if c.isBlacklisted cc.senderID then c
  else
    let c := (c.observe (.received (.command cc))).updateLamportTime cc.lamportTime
    if c.addressed cc.receiverID then
      let (c, job) :=
        CommandAcknowledgeJob.construct r c c.activeRobots c.lamportTime.time cc
      c.appendJob (.commandAcknowledge job)
    else c

/-- The quiet module overwrites this time stamp too. -/
def stampedAcknowledge (c : Cace) (ca : CaceAcknowledge) : CaceAcknowledge :=
  if c.quiet then { ca with lamportTime := c.lamportTime.tick.time } else ca

def handleCaceAcknowledge (r : Readings) (c : Cace) (ca : CaceAcknowledge) : Cace :=
  if c.isBlacklisted ca.senderID then c
  else
    let c := (c.observe (.received (.acknowledge ca))).updateLamportTime ca.lamportTime
    if c.addressed ca.receiverID then
      let (c, job) := ShortAckJob.construct r c [] c.lamportTime.time ca
      c.appendJob (.shortAck job)
    else c

def handleCaceBelieveNotification (c : Cace) (cbn : CaceBelieveNotification) : Cace :=
  if c.isBlacklisted cbn.senderID then c
  else
    let c := (c.observe (.received (.believeNotification cbn))).updateLamportTime cbn.lamportTime
    if c.addressed cbn.receiverID then
      { c with believeNotifications := c.believeNotifications ++ [cbn] }
    else c

def handleCaceShortAck (c : Cace) (sa : CaceShortAck) : Cace :=
  if c.isBlacklisted sa.senderID then c
  else
    let c := (c.observe (.received (.shortAck sa))).updateLamportTime sa.lamportTime
    if c.addressed sa.receiverID then { c with shortAcks := c.shortAcks ++ [sa] } else c

/-- `addTimeMessage` only feeds the resend estimate, which is part of the readings. -/
def handleCaceTime (r : Readings) (c : Cace) (ct : CaceTime) : Cace :=
  if c.isBlacklisted ct.senderID then c
  else
    let c := (c.observe (.received (.time ct))).updateLamportTime ct.lamportTime
    if c.activeRobots.contains ct.senderID then c
    else c.agentEngangement r ct.senderID true

/-- The handler that the channel of the message is bound to. -/
def handle (r : Readings) (c : Cace) : Message → Cace
  | .command m => c.handleCaceCommand r (c.stampedCommand m)
  | .acknowledge m => c.handleCaceAcknowledge r (c.stampedAcknowledge m)
  | .shortAck m => c.handleCaceShortAck m
  | .believeNotification m => c.handleCaceBelieveNotification m
  | .time m => c.handleCaceTime r m
  | .variableRequest m => c.handleCaceVariableRequest m
  | .write m => c.handleCaceWrite r m
  | .writeAck m => c.handleCaceWriteAck m
  | .response m => c.handleCaceResponse r m

/-- `step`: a job for each arrived command. -/
def acceptCommands (r : Readings) (c : Cace) : Cace :=
  c.commands.foldl
    (fun c cc =>
      let (c, job) := CommandAcknowledgeJob.construct r c c.activeRobots c.lamportTime.time cc
      c.appendJob (.commandAcknowledge job))
    { c with commands := [] }

/-- `step`: a job for each arrived notification. -/
def acceptNotifications (r : Readings) (c : Cace) : Cace :=
  c.believeNotifications.foldl
    (fun c cbn =>
      let (c, job) := BelieveAcknowledgeJob.construct r c [cbn.senderID] c.lamportTime.time cbn
      c.appendJob (.believeAcknowledge job))
    { c with believeNotifications := [] }

/-- `clearAllMessageLists` -/
def clearAllMessageLists (c : Cace) : Cace :=
  { c with commands := [], writeAcknowledges := [], shortAcks := [], believeNotifications := [] }

/-- `Cace::step` -/
def step (r : Readings) (c : Cace) : Except Fault Cace :=
  match ((c.acceptCommands r).acceptNotifications r).processJobs r with
  | .error fault => .error fault
  | .ok c =>
    let c := { c with agentsToRemove := [] }
    let c := if c.quietMode && c.jobs.isEmpty then c.clearAllMessageLists else c
    .ok (c.invalidate r.distributedTime)

end CaceProofs.Source.Cace
