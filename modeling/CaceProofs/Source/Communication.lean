import CaceProofs.Source.State

/-!
# Sending

The send functions of CaceCommunication. An `At` in a name marks the overload that
takes the time stamp; the other one increments the clock and stamps with it. The
parameters for a message ID and a receiver are shorts. The quiet module overrides the
sends of commands, acknowledges, short acknowledges and notifications with nothing.
-/
namespace CaceProofs.Source.Cace

def publish (c : Cace) (m : Message) (transmission : Transmission) : Cace :=
  c.observe (.published m transmission)

/-- A send that the quiet module overrides. -/
def publishUnlessQuiet (c : Cace) (m : Message) (transmission : Transmission) : Cace :=
  if c.quiet then c else c.publish m transmission

/-- The CaceCommand that the command, response and write channels fill from a variable. -/
def commandMessage (c : Cace) (cv : ConsensusVariable) (msgID : Int) (value : Bytes)
    (receiver : Int) (lamportTime : Nat) : CaceCommand where
  senderID := toShort c.ownID
  receiverID := [toShort receiver]
  variableName := cv.name
  value := value
  decissionTime := cv.decissionTime
  validityTime := cv.validityTime
  level := toShort cv.strategy.code
  msgID := toShort msgID
  lamportTime := lamportTime
  type := toTypeTag cv.type

def sendCaceCommandAt (c : Cace) (cv : ConsensusVariable) (msgID : Int) (value : Bytes)
    (receiver : Int) (lamportTime : Nat) (transmission : Transmission) : Cace :=
  c.publishUnlessQuiet (.command (c.commandMessage cv msgID value receiver lamportTime))
    transmission

def sendCaceCommand (c : Cace) (cv : ConsensusVariable) (msgID : Int) (value : Bytes)
    (receiver : Int) : Cace :=
  let c := c.tickLamportTime
  c.sendCaceCommandAt cv msgID value receiver c.lamportTime.time .first

def sendCaceResponseAt (c : Cace) (cv : ConsensusVariable) (msgID receiver : Int)
    (lamportTime : Nat) : Cace :=
  c.publish (.response (c.commandMessage cv msgID cv.val receiver lamportTime)) .first

def sendCaceResponse (c : Cace) (cv : ConsensusVariable) (msgID receiver : Int) : Cace :=
  let c := c.tickLamportTime
  c.sendCaceResponseAt cv msgID receiver c.lamportTime.time

def sendWriteCommandAt (c : Cace) (cv : ConsensusVariable) (msgID receiver : Int)
    (lamportTime : Nat) (transmission : Transmission) : Cace :=
  c.publish (.write (c.commandMessage cv msgID cv.val receiver lamportTime)) transmission

/-- A write is resent through this overload as well, hence the argument. -/
def sendWriteCommand (c : Cace) (cv : ConsensusVariable) (msgID receiver : Int)
    (transmission : Transmission) : Cace :=
  let c := c.tickLamportTime
  c.sendWriteCommandAt cv msgID receiver c.lamportTime.time transmission

def sendCaceAcknowledgeAt (c : Cace) (name : Name) (value : Bytes) (messageID receiver type : Int)
    (lamportTime : Nat) (transmission : Transmission) : Cace :=
  c.publishUnlessQuiet
    (.acknowledge
      { senderID := toShort c.ownID
        receiverID := [toShort receiver]
        variableName := name
        value := value
        msgID := toShort messageID
        lamportTime := lamportTime
        type := toTypeTag type })
    transmission

def sendCaceAcknowledge (c : Cace) (name : Name) (value : Bytes)
    (messageID receiver type : Int) : Cace :=
  let c := c.tickLamportTime
  c.sendCaceAcknowledgeAt name value messageID receiver type c.lamportTime.time .first

def sendCaceBelieveNotificationAt (c : Cace) (cv : ConsensusVariable) (receiverID msgID : Int)
    (lamportTime : Nat) (transmission : Transmission) : Cace :=
  c.publishUnlessQuiet
    (.believeNotification
      { senderID := toShort c.ownID
        receiverID := [toShort receiverID]
        variableName := cv.name
        value := cv.val
        decissionTime := cv.decissionTime
        validityTime := cv.validityTime
        level := toShort cv.strategy.code
        msgID := toShort msgID
        lamportTime := lamportTime
        type := toTypeTag cv.type })
    transmission

def sendCaceBelieveNotification (c : Cace) (cv : ConsensusVariable) (receiverID msgID : Int) :
    Cace :=
  let c := c.tickLamportTime
  c.sendCaceBelieveNotificationAt cv receiverID msgID c.lamportTime.time .first

def sendCaceShortAckAt (c : Cace) (name : Name) (messageID receiver : Int) (lamportTime : Nat) :
    Cace :=
  c.publishUnlessQuiet
    (.shortAck
      { senderID := toShort c.ownID
        receiverID := [toShort receiver]
        variableName := name
        msgID := toShort messageID
        lamportTime := lamportTime })
    .first

def sendCaceShortAck (c : Cace) (name : Name) (messageID receiver : Int) : Cace :=
  let c := c.tickLamportTime
  c.sendCaceShortAckAt name messageID receiver c.lamportTime.time

/-- The overload without a time stamp sends on the channel of the short acknowledges. -/
def sendCaceWriteAck (c : Cace) (name : Name) (messageID receiver : Int) : Cace :=
  let c := c.tickLamportTime
  c.sendCaceShortAckAt name messageID receiver c.lamportTime.time

/-- Both modules increment the clock here, and no time stamp is sent. -/
def sendCaceVariableRequestAt (c : Cace) (receiverID msgID : Int) (name : Name)
    (transmission : Transmission) : Cace :=
  c.tickLamportTime.publish
    (.variableRequest
      { senderID := toShort c.ownID
        receiverID := [toShort receiverID]
        variableName := name
        msgID := toShort msgID })
    transmission

def sendCaceVariableRequest (c : Cace) (receiverID msgID : Int) (name : Name) : Cace :=
  c.sendCaceVariableRequestAt receiverID msgID name .first

/-- `getCaceShortAcksAndRemove` -/
def getCaceShortAcksAndRemove (c : Cace) (msgID : Int) : List CaceShortAck × Cace :=
  (c.shortAcks.filter fun sa => sa.msgID == msgID,
    { c with shortAcks := c.shortAcks.filter fun sa => sa.msgID != msgID })

/-- `getWriteAcknowledgesAndRemove` -/
def getWriteAcknowledgesAndRemove (c : Cace) (msgID : Int) : List CaceShortAck × Cace :=
  (c.writeAcknowledges.filter fun sa => sa.msgID == msgID,
    { c with writeAcknowledges := c.writeAcknowledges.filter fun sa => sa.msgID != msgID })

end CaceProofs.Source.Cace
