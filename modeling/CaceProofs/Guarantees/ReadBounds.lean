import CaceProofs.Guarantees.DeferredUpdates
import CaceProofs.Guarantees.Expiry
import CaceProofs.Guarantees.RoundTrip
import CaceProofs.Library.Grammar
import CaceProofs.Source.ValueText

/-!
# Reading a received value

Tag and bytes of a message are stored as they come. Which bytes the readers of serialize.h get
through is a format of lengths; an agent adopts a value without a look at it, so a variable
that was adopted can be read exactly where the sender has kept to the format.
-/
namespace CaceProofs.Guarantees
open Source Library

section Format

mutual

/-- The bytes of some value of the type: the lengths are right. -/
def Spells : CType → Bytes → Prop
  | .scalar s, val => val.length = s.sizeof
  | .string, val =>
    ∃ count chars, val = count ++ chars ∧ count.length = 8 ∧ chars.length = wordValue count
  | .vector t, val | .list t, val =>
    ∃ count elements, val = count ++ elements ∧ count.length = 8 ∧
      ∃ items : List Bytes, elements = items.flatten ∧ items.length = wordValue count ∧
        ∀ item ∈ items, Spells t item
  | .tuple ts, val => SpellsAll ts val

/-- The bytes of some components. -/
def SpellsAll : Components → Bytes → Prop
  | .last t, val => Spells t val
  | .cons t ts, val => ∃ first rest, val = first ++ rest ∧ Spells t first ∧ SpellsAll ts rest

end

/-- A reader that begins with a count. -/
theorem counted_recognises {α : Type} {next : UInt64 → StateT Bytes Option α}
    {format : Nat → Bytes → Prop} (after : ∀ size : UInt64, Recognises (next size)
      (format size.toNat)) :
    Recognises (do let size : UInt64 ← Scalar.sizeT.deserializeHelper; next size) fun val =>
      ∃ count elements, val = count ++ elements ∧ count.length = 8 ∧
        format (wordValue count) elements := by
  have word : ∀ count : { xs : Bytes // xs.length = 8 },
      (UInt64.ofNat (wordValue count.1)).toNat = wordValue count.1 := by
    intro count
    have small := wordValue_lt count.1
    rw [count.2] at small
    exact UInt64.toNat_ofNat_of_lt' small
  have begins : (do let size : UInt64 ← Scalar.sizeT.deserializeHelper; next size) =
      (take 8 >>= fun count => next (UInt64.ofNat (wordValue count.1))) := by
    unfold Scalar.deserializeHelper
    simp only [bind_assoc, pure_bind]
    rfl
  rw [begins]
  exact @Recognises.take_bind UInt8 α 8 _ (fun count => format (wordValue count)) fun count => by
    have rest := after (UInt64.ofNat (wordValue count.1))
    rwa [word count] at rest

mutual

/-- The reader of a type takes off the bytes of its values, and no others. -/
theorem deserializeHelper_recognises : (t : CType) → Recognises (deserializeHelper t) (Spells t)
  | .scalar s => Recognises.take s.ofMemory
  | .string => by
    have chars : ∀ size : UInt64, Recognises
        (do if size = 0 then return [] else times Scalar.char.deserializeHelper size.toNat)
        fun val : Bytes => val.length = size.toNat := by
      intro size
      have items := (Recognises.times (Recognises.take Scalar.char.ofMemory) size.toNat).congr
        fun _ => singles_iff
      split
      next empty =>
        rw [empty] at items ⊢
        exact items
      next => exact items
    exact @counted_recognises _ _ (fun n chars => chars.length = n) chars
  | .vector t | .list t =>
    @counted_recognises _ _ (fun n elements => ∃ items : List Bytes, elements = items.flatten ∧
      items.length = n ∧ ∀ item ∈ items, Spells t item) fun size =>
        Recognises.times (deserializeHelper_recognises t) size.toNat
  | .tuple ts => deserializeTuple_recognises ts

theorem deserializeTuple_recognises : (ts : Components) →
    Recognises (deserializeTuple ts) (SpellsAll ts)
  | .last t => deserializeHelper_recognises t
  | .cons t ts =>
    Recognises.seq Prod.mk (deserializeHelper_recognises t) (deserializeTuple_recognises ts)

end

theorem deserialize_isSome_iff (t : CType) (val : Bytes) :
    (deserialize t val).isSome ↔ ∃ spelled, spelled <+: val ∧ Spells t spelled :=
  (deserializeHelper_recognises t).run'_isSome val

end Format

section Reads

/-- The overloads of `getValue`, and the template at a type of the application. -/
def overloads (t : CType) : List Overload :=
  [.double, .int, .long, .string, .doubleList, .intList, .stringList, .custom t]

/-- The value can be read: every reader comes to its end within the bytes. -/
structure InBounds (t : CType) (b : Believe) : Prop where
  getValue : ∀ o ∈ overloads t, ∀ out, (o.getValue b out).isSome
  valueAsString : b.valueAsString.isSome

/-- The bytes begin with a value of the type that the tag stands for, if it stands for one. -/
def WellFormed (t : CType) (type : Int) (val : Bytes) : Prop :=
  ∀ o ∈ overloads t, o.tag = type → ∃ spelled, spelled <+: val ∧ Spells o.ctype spelled

variable {b : Believe} {t : CType}

theorem getValue_isSome_iff (o : Overload) (out : o.Value) :
    (o.getValue b out).isSome ↔
      (o.tag = b.type → ∃ spelled, spelled <+: b.val ∧ Spells o.ctype spelled) := by
  rw [getValue_eq, Believe.getTyped, ← deserialize_isSome_iff]
  by_cases tag : b.type = o.tag
  · rw [if_pos tag]
    cases deserialize o.ctype b.val <;> simp [tag]
  · rw [if_neg tag]
    simp [Ne.symm tag]

theorem isSome_ite {α : Type} {p : Prop} [Decidable p] {a b : Option α} (first : a.isSome)
    (second : b.isSome) : (if p then a else b).isSome := by
  split
  · exact first
  · exact second

/-- The text is made of what one overload reads. -/
theorem valueAsString_isSome (reads : ∀ o ∈ overloads t, ∀ out, (o.getValue b out).isSome) :
    b.valueAsString.isSome := by
  have value : ∀ o ∈ overloads t, ∀ out, ∃ read, o.getValue b out = some read :=
    fun o member out => Option.isSome_iff_exists.mp (reads o member out)
  obtain ⟨d, double⟩ := value .double (by simp [overloads]) ⟨List.replicate 8 0, rfl⟩
  obtain ⟨i, int⟩ := value .int (by simp [overloads]) (0 : Int32)
  obtain ⟨l, long⟩ := value .long (by simp [overloads]) (0 : Int64)
  obtain ⟨s, string⟩ := value .string (by simp [overloads]) ([] : Bytes)
  obtain ⟨ds, doubles⟩ := value .doubleList (by simp [overloads]) ([] : List CDouble)
  obtain ⟨is, ints⟩ := value .intList (by simp [overloads]) ([] : List Int32)
  obtain ⟨ss, strings⟩ := value .stringList (by simp [overloads]) ([] : List Bytes)
  simp only [Overload.getValue] at double int long string doubles ints strings
  unfold Believe.valueAsString
  rw [double, int, long, string, doubles, ints, strings]
  repeat' apply isSome_ite
  all_goals rfl

theorem scalar_nonempty (s : Scalar) : Nonempty s.Value :=
  ⟨s.ofMemory ⟨List.replicate s.sizeof 0, List.length_replicate⟩⟩

mutual

theorem value_nonempty : (t : CType) → Nonempty t.Value
  | .scalar s => scalar_nonempty s
  | .string | .vector _ | .list _ => ⟨[]⟩
  | .tuple ts => values_nonempty ts

theorem values_nonempty : (ts : Components) → Nonempty ts.Value
  | .last t => value_nonempty t
  | .cons t ts => by
    obtain ⟨first⟩ := value_nonempty t
    obtain ⟨rest⟩ := values_nonempty ts
    exact ⟨(first, rest)⟩

end

theorem inBounds_iff : InBounds t b ↔ WellFormed t b.type b.val := by
  constructor
  · intro bounds o member
    obtain ⟨out⟩ := value_nonempty o.ctype
    exact (getValue_isSome_iff o out).mp (bounds.getValue o member out)
  · intro formed
    have reads : ∀ o ∈ overloads t, ∀ out, (o.getValue b out).isSome := fun o member out =>
      (getValue_isSome_iff o out).mpr (formed o member)
    exact ⟨reads, valueAsString_isSome reads⟩

end Reads

section Adoption

/-- An agent handles a message and its update runs: in the handler or, in safe step mode, in the
first pass of the job. -/
inductive Handles (r : Readings) (c : Cace) : ProposalUpdate → Cace → Prop
  | command {cc : CaceCommand} (reaches : accepts c (.command (c.stampedCommand cc)) = true)
      (direct : c.safeStepMode = false) :
      Handles r c (commandUpdate r c.ownID (c.stampedCommand cc)) (c.handle r (.command cc))
  | acknowledge {ca : CaceAcknowledge}
      (reaches : accepts c (.acknowledge (c.stampedAcknowledge ca)) = true)
      (direct : c.safeStepMode = false) :
      Handles r c (acknowledgeUpdate r c.ownID (c.stampedAcknowledge ca))
        (c.handle r (.acknowledge ca))
  | commandJob {j : CommandAcknowledgeJob} (due : j.attempts = 0)
      (deferred : c.safeStepMode = true) :
      Handles r c (commandUpdate r c.ownID j.command) (j.process r c).1
  | acknowledgeJob {j : ShortAckJob} (due : j.attempts = 0) (deferred : c.safeStepMode = true) :
      Handles r c (acknowledgeUpdate r c.ownID j.ack) (j.process r c).1

variable {r : Readings} {c d : Cace} {u : ProposalUpdate}

/-- The tests that both handlers begin with. -/
theorem filtered_view {m : Message} {receivers : List Int} {t : Nat} {c' : Cace}
    (reaches : accepts c m = true) (fields : m.receiverID = some receivers)
    (acted : view c' = StoreView.absorb c.ownID (view c) m) :
    view (if c.isBlacklisted m.senderID then c
      else if ((c.observe (.received m)).updateLamportTime t).addressed receivers then c'
      else (c.observe (.received m)).updateLamportTime t) = view (applyMessage r c m) := by
  obtain ⟨passes, here⟩ : c.isBlacklisted m.senderID = false ∧ c.addressed receivers = true := by
    simpa [accepts, fields] using reaches
  rw [passes, view_applyMessage]
  change view (if c.addressed receivers = true then _ else _) = _
  rw [if_pos here]
  exact acted

theorem handleCaceCommand_view {cc : CaceCommand} (reaches : accepts c (.command cc) = true)
    (direct : c.safeStepMode = false) :
    view (c.handleCaceCommand r cc) = view (applyMessage r c (.command cc)) := by
  let received := (c.observe (.received (.command cc))).updateLamportTime cc.lamportTime
  have started := (commandAcknowledge_starts r received c.activeRobots received.lamportTime.time
    cc).absorbs
  rw [show received.safeStepMode = false from direct] at started
  apply filtered_view reaches rfl
  exact ((received_absorbs c (.command cc) cc.lamportTime).trans started).view

theorem handleCaceAcknowledge_view {ca : CaceAcknowledge}
    (reaches : accepts c (.acknowledge ca) = true) (direct : c.safeStepMode = false) :
    view (c.handleCaceAcknowledge r ca) = view (applyMessage r c (.acknowledge ca)) := by
  let received := (c.observe (.received (.acknowledge ca))).updateLamportTime ca.lamportTime
  have started := (shortAck_starts r received [] received.lamportTime.time ca).absorbs
  rw [show received.safeStepMode = false from direct] at started
  apply filtered_view reaches rfl
  exact ((received_absorbs c (.acknowledge ca) ca.lamportTime).trans started).view

/-- Handler or job, the variables are those that the update leaves, up to arrival times. -/
theorem handles_view (handles : Handles r c u d) : view d = view (c.updateVariable u) := by
  cases handles with
  | command reaches direct => exact handleCaceCommand_view reaches direct
  | acknowledge reaches direct => exact handleCaceAcknowledge_view reaches direct
  | @commandJob j due deferred =>
    have absorbs := commandAcknowledge_absorbs r c j
    have now : dueIn c (.commandAcknowledge j) = [.command j.command] := by
      simp [dueIn, Job.due, due, deferred]
    rw [now] at absorbs
    exact absorbs.view.trans (view_applyMessage r c (.command j.command)).symm
  | @acknowledgeJob j due deferred =>
    have absorbs := answer_absorbs c (.shortAck j) rfl (shortAckAnswer_absorbs r c j.ack)
    have now : dueIn c (.shortAck j) = [.acknowledge j.ack] := by
      simp [dueIn, Job.due, due, deferred]
    rw [now] at absorbs
    exact absorbs.view.trans (view_applyMessage r c (.acknowledge j.ack)).symm

theorem handles_stored (handles : Handles r c u d) :
    ∃ cv, d.getVariable u.variableName = some cv ∧
      cv.timeless = (updated u (c.getVariable u.variableName)).timeless := by
  have same := congrFun (handles_view handles) u.variableName
  unfold view at same
  rw [getVariable_updateVariable, if_pos rfl, Option.map_some] at same
  exact Option.map_eq_some_iff.mp same

/-- The update adopts that proposal. At an election level an unknown variable gets a bid of the
agent's own instead. -/
def Adopts (u : ProposalUpdate) (old : Option ConsensusVariable) (w : Believe) : Prop :=
  Expiry.adopts u old = some w ∧ (old = none → u.own.strategy.acceptFunction ≠ .election)

/-- The proposal is the record of that report. -/
def Records (w : Believe) (report : Report) : Prop :=
  w.robotID = report.senderID ∧ w.val = report.value ∧ w.type = report.type

/-- The tag of a variable that adopts a proposal: tag 0 leaves the one it had. -/
def tagAfter (type : Int) (old : Option ConsensusVariable) : Int :=
  if type ≠ 0 then type else (old.map fun cv => cv.type).getD 0

/-- An unknown variable: the value is commanded, and there is one proposal. -/
theorem updated_created (plain : u.own.strategy.acceptFunction ≠ .election) :
    (updated u none).val = u.value ∧ (updated u none).type = u.type := by
  obtain ⟨-, val, type, -⟩ := u.co_records
  have commanded : touched (some u.value) u.own = u.own.setValue u.value := if_neg plain
  have accepted : (updated u none).toBelieve =
      ((contest (prefers u.own.strategy.acceptFunction) u.own [u.co]).map
        (touched (some u.value) u.own).update).getD (touched (some u.value) u.own) :=
    congrArg ConsensusVariable.toBelieve (acceptProposals_eq (some u.value) ⟨u.own, [u.co]⟩)
  rw [accepted, commanded]
  cases won : contest (prefers u.own.strategy.acceptFunction) u.own [u.co] with
  | none => exact ⟨rfl, u.own_unset.2⟩
  | some w =>
    obtain rfl := List.mem_singleton.mp (contest_mem won)
    refine ⟨val, ?_⟩
    change (if u.co.type ≠ 0 then u.co.type else u.own.type) = u.type
    rw [type, u.own_unset.2, ite_self]

/-- A known variable: its own belief is updated with the winner. -/
theorem updated_recorded {cv : ConsensusVariable} {w : Believe}
    (won : Expiry.adopts u (some cv) = some w) :
    (updated u (some cv)).val = w.val ∧
      (updated u (some cv)).type = if w.type ≠ 0 then w.type else cv.type := by
  cases found : cv.recordProposal u.senderID u.lamportTime u.overwrite (u.fresh cv.toBelieve) with
  | none => simp [Expiry.adopts, found] at won
  | some recorded =>
    simp only [Expiry.adopts, found] at won
    have plain : recorded.strategy.acceptFunction ≠ .election := by
      intro election
      have nobody : contest (prefers .election) recorded.toBelieve recorded.proposals = none :=
        contest_never fun _ _ => rfl
      rw [election, nobody] at won
      cases won
    have untouched : touched none recorded.toBelieve = recorded.toBelieve := if_neg plain
    have same := recordProposal_own found
    simp only [updated, found]
    rw [acceptProposals_eq, untouched, won, ← same]
    exact ⟨rfl, rfl⟩

theorem adopted_keeps {old : Option ConsensusVariable} {w : Believe} (adopted : Adopts u old w) :
    (updated u old).val = w.val ∧ (updated u old).type = tagAfter w.type old := by
  obtain ⟨won, level⟩ := adopted
  cases old with
  | none =>
    obtain rfl := Option.some.inj won
    obtain ⟨-, val, type, -⟩ := u.co_records
    obtain ⟨sameVal, sameType⟩ := updated_created (level rfl)
    refine ⟨sameVal.trans val.symm, ?_⟩
    rw [sameType, type]
    unfold tagAfter
    split
    · rfl
    next untagged => simpa using untagged
  | some cv => exact updated_recorded won

/-- The variable of which an agent adopts a value can be read, with every overload, the
template and as text, if and only if the bytes that came begin with a well-formed value of the
type that came, or of the one before where none came. Nothing else is asked of a value. -/
theorem adopted_readable_iff {w : Believe} {report : Report} (handles : Handles r c u d)
    (adopted : Adopts u (c.getVariable u.variableName) w) (records : Records w report)
    (t : CType) :
    ∃ cv, d.getVariable u.variableName = some cv ∧ cv.val = report.value ∧
      (InBounds t cv.toBelieve ↔
        WellFormed t (tagAfter report.type (c.getVariable u.variableName)) report.value) := by
  obtain ⟨-, value, type⟩ := records
  obtain ⟨cv, stored, same⟩ := handles_stored handles
  obtain ⟨keepsVal, keepsType⟩ := adopted_keeps adopted
  have val : cv.val = report.value := by
    have kept : cv.val = (updated u (c.getVariable u.variableName)).val :=
      congrArg (fun cv => cv.val) same
    rw [kept, keepsVal, value]
  have tag : cv.type = tagAfter report.type (c.getVariable u.variableName) := by
    have kept : cv.type = (updated u (c.getVariable u.variableName)).type :=
      congrArg (fun cv => cv.type) same
    rw [kept, keepsType, type]
  refine ⟨cv, stored, val, ?_⟩
  rw [inBounds_iff, val, tag]

/-- A command for an integer, from robot 2 to everyone. -/
def integerCommand (value : Bytes) : CaceCommand where
  senderID := 2
  receiverID := [0]
  variableName := ['x']
  value := value
  decissionTime := 0
  validityTime := longMax
  level := 70
  msgID := 1
  lamportTime := 3
  type := typeCInt

/-- Agent 1, which knows of no variable, after that command. -/
def toldInteger (value : Bytes) : Cace :=
  (Cace.construct 1 false 1).handle .zero (.command (integerCommand value))

theorem toldInteger_handles (value : Bytes) :
    Handles .zero (Cace.construct 1 false 1)
      (commandUpdate .zero 1 (integerCommand value)) (toldInteger value) :=
  .command rfl rfl

theorem toldInteger_adopts (value : Bytes) :
    Adopts (commandUpdate .zero 1 (integerCommand value)) none
      (commandUpdate .zero 1 (integerCommand value)).co :=
  ⟨rfl, fun _ => show AcceptStrategy.acceptFunction ⟨70⟩ ≠ .election by decide⟩

/-- An integer of four bytes. -/
theorem adopted_readable_integer :
    ∃ cv, (toldInteger [7, 0, 0, 0]).getVariable ['x'] = some cv ∧ cv.val = [7, 0, 0, 0] ∧
      InBounds testTuple cv.toBelieve := by
  have records : Records (commandUpdate .zero 1 (integerCommand [7, 0, 0, 0])).co
      (commandUpdate .zero 1 (integerCommand [7, 0, 0, 0])).toReport := ⟨rfl, rfl, rfl⟩
  obtain ⟨cv, stored, val, readable⟩ := adopted_readable_iff (toldInteger_handles [7, 0, 0, 0])
    (toldInteger_adopts [7, 0, 0, 0]) records testTuple
  refine ⟨cv, stored, val, readable.mpr ?_⟩
  intro o member tag
  simp only [overloads, List.mem_cons, List.not_mem_nil, or_false] at member
  rcases member with rfl | rfl | rfl | rfl | rfl | rfl | rfl | rfl
  case inr.inl => exact ⟨[7, 0, 0, 0], List.prefix_rfl, rfl⟩
  all_goals exact absurd tag (by decide)

/-- An integer of one byte is adopted all the same: neither `getValue` nor `valueAsString` gets
through. -/
theorem adopted_readable_truncated :
    ∃ cv, (toldInteger [7]).getVariable ['x'] = some cv ∧ cv.val = [7] ∧
      cv.getInt 0 = none ∧ cv.valueAsString = none ∧ ¬InBounds testTuple cv.toBelieve := by
  have read : ((toldInteger [7]).getVariable ['x']).map (fun cv => (cv.val, (cv.getInt 0).isNone,
      cv.valueAsString.isNone)) = some ([7], true, true) := by decide +kernel
  obtain ⟨cv, stored, reads⟩ := Option.map_eq_some_iff.mp read
  obtain ⟨val, int, text⟩ := by simpa only [Prod.mk.injEq, Option.isNone_iff_eq_none] using reads
  refine ⟨cv, stored, val, int, text, fun bounds => ?_⟩
  simpa [text] using bounds.valueAsString

end Adoption

end CaceProofs.Guarantees
