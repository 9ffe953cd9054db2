import CaceProofs.Library.ListIterator
import CaceProofs.Source.Communication

/-!
# Taking acknowledges out of their queues

The two functions of CaceCommunication with their iterators, which `Cace`'s own versions
leave out: where an iterator is stepped back from `begin()` the run ends with a fault.
`fuel` bounds the passes of the loop.
-/
namespace CaceProofs.Source.CaceCommunication
open Library

def getWriteAcknowledgesAndRemove (c : Cace) (msgID : Int) (fuel : Nat) :
    Except IteratorFault (List CaceShortAck × Cace) :=
  (takeIf (fun sa => sa.msgID == msgID) fuel c.writeAcknowledges).map fun taken =>
    (taken.1, { c with writeAcknowledges := taken.2 })

def getCaceShortAcksAndRemove (c : Cace) (msgID : Int) (fuel : Nat) :
    Except IteratorFault (List CaceShortAck × Cace) :=
  (takeIf (fun sa => sa.msgID == msgID) fuel c.shortAcks).map fun taken =>
    (taken.1, { c with shortAcks := taken.2 })

end CaceProofs.Source.CaceCommunication
