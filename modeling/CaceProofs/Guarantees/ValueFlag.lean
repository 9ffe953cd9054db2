import CaceProofs.Guarantees.BeliefUpdates
import CaceProofs.Guarantees.RoundTrip
import CaceProofs.Library.Runs

/-!
# The flag of a value

`hasValue` is kept beside the bytes. Every writer sets it by what it writes, except the template
for custom types; so the two agree for as long as that one is used on variables with a value
only, and `sendBelieveUpdates`, which reads the flag, passes over a variable where they do not.
-/
namespace CaceProofs.Guarantees
open Source Library

section Writer

mutual

/-- The writer fails where the format does not fit. -/
theorem serializer_needsRoom : (t : CType) → (obj : t.Value) →
    NeedsRoom (serializer t obj) (encoding t obj)
  | .scalar s, obj => by
    rw [serializer, encoding]
    exact NeedsRoom.put _
  | .string, obj => by
    rw [serializer, encoding, counted]
    have chars : NeedsRoom (List.forM obj Scalar.char.serializer) obj := by
      have each := NeedsRoom.forM (fun c (_ : c ∈ (obj : Bytes)) => Scalar.serializer_puts .char c)
        fun c _ => NeedsRoom.put _
      rwa [chars_flatMap] at each
    exact NeedsRoom.seq (Scalar.serializer_puts .sizeT _) (NeedsRoom.put _) chars
  | .vector t, obj | .list t, obj => by
    rw [serializer, encoding, counted]
    apply NeedsRoom.seq (Scalar.serializer_puts .sizeT _) (NeedsRoom.put _)
    exact NeedsRoom.forM (fun cur _ => serializer_puts t cur) fun cur _ =>
      serializer_needsRoom t cur
  | .tuple ts, obj => by
    rw [serializer, encoding]
    exact serializeTuple_needsRoom ts obj

theorem serializeTuple_needsRoom : (ts : Components) → (obj : ts.Value) →
    NeedsRoom (serializeTuple ts obj) (encodings ts obj)
  | .last t, obj => by
    rw [serializeTuple, encodings]
    exact serializer_needsRoom t obj
  | .cons t ts, obj => by
    rw [serializeTuple, encodings]
    exact NeedsRoom.seq (serializer_puts t obj.1) (serializer_needsRoom t obj.1)
      (serializeTuple_needsRoom ts obj.2)

end

/-- A value that was written did fit. -/
theorem serialize_fits {t : CType} {obj : t.Value} {val : Bytes}
    (written : serialize t obj [] = some val) : (encoding t obj).length < 2 ^ 64 := by
  by_contra large
  simp only [serialize] at written
  generalize UInt64.ofNat (List.length ([] : Bytes)) + getSize t obj = size at written
  have word := size.toNat_lt
  have failed := serializer_needsRoom t obj
    (Cursor.seek (resize [] size.toNat) (UInt64.ofNat (List.length ([] : Bytes))).toNat)
    (by simp [Cursor.seek, resize]; omega)
  rw [failed] at written
  cases written

end Writer

section Flag

/-- A variable says that it has a value exactly if there are bytes of one. -/
def Flagged (b : Believe) : Prop :=
  b.hasValue = true ↔ b.val ≠ []

/-- What the flag needs of a call: the template for custom types is used on a variable that
says it has a value already. -/
def Preset (b : Believe) : ValueCall → Prop
  | .typed call => setsHasValue call.overload = true ∨ b.hasValue = true
  | .setValue _ | .update _ | .copy => True

variable {b b' : Believe}

theorem setTyped_serializes {t : CType} {type : Int} {value : t.Value}
    (set : b.setTyped t type value = some b') : ∃ val, serialize t value [] = some val := by
  obtain ⟨val, written, -⟩ := Option.bind_eq_some_iff.mp set
  exact ⟨val, written⟩

/-- A `setValue` that returns has written its argument. -/
theorem setValue_serializes {o : Overload} {value : o.Value} (set : o.setValue b value = some b') :
    ∃ val, serialize o.ctype value [] = some val := by
  cases o with
  | custom t =>
    obtain ⟨val, written, -⟩ := Option.bind_eq_some_iff.mp set
    exact ⟨val, written⟩
  | _ => exact setTyped_serializes set

theorem setCall_run {call : SetCall} (set : call.run b = some b') :
    b' = assigned call.overload b call.value := by
  obtain ⟨val, written⟩ := setValue_serializes set
  exact Option.some_injective _ (set.symm.trans (setValue_eq _ _ _ (serialize_fits written)))

theorem isEmpty_flag (val : Bytes) : (!val.isEmpty) = true ↔ val ≠ [] := by
  cases val <;> simp

/-- One call: the flag and the bytes agree after it if it was preset, and only then. -/
theorem flagged_run_iff {call : ValueCall} (ran : call.run b = some b') (flagged : Flagged b) :
    Flagged b' ↔ Preset b call := by
  cases call with
  | setValue value =>
    obtain rfl := Option.some_injective _ ran
    exact iff_of_true (isEmpty_flag value) trivial
  | typed call =>
    obtain rfl := setCall_run ran
    have bytes : encoding call.overload.ctype call.value ≠ [] :=
      List.ne_nil_of_length_pos (encoding_pos _ _)
    simp [Flagged, Preset, assigned, bytes, or_comm]
  | update v =>
    obtain rfl := Option.some_injective _ ran
    exact iff_of_true (isEmpty_flag v.val) trivial
  | copy =>
    obtain rfl := Option.some_injective _ ran
    exact iff_of_true flagged trivial

end Flag

section Updates

/-- The variable may be sent, its scope is found, and the robot is not known to have it: that
is all but the flag that `sendBelieveUpdates` asks. -/
def Qualifies (c : Cace) (id : Int) (cv : ConsensusVariable) : Prop :=
  cv.getScope.isPrefixOf c.scopeString = true ∧ .fireAndForget < cv.strategy ∧
    Cace.lastKnownUpdateTime cv id < cv.lamportAge

/-- Wherever the variable is stored and has a value, a robot that joins is told of it. -/
def Included (b : Believe) : Prop :=
  b.val ≠ [] → ∀ (r : Readings) (c : Cace) (id : Int) (e : Name × ConsensusVariable),
    e ∈ c.store → e.2.toBelieve = b → id ≠ c.ownID → id ∉ c.activeRobots → Qualifies c id e.2 →
      ∃ sent, Appends c (c.agentEngangement r id true) sent ∧ (.stored e.1, [id]) ∈ sent

theorem included_of_flagged {b : Believe} (flagged : Flagged b) : Included b := by
  intro given r c id e stored same other joins qualifies
  refine ⟨_, joining_appends c other joins, ?_⟩
  have valued : e.2.hasValue = true := by
    rw [same]
    exact flagged.mpr given
  have sends : sendsUpdate c.scopeString id e = true := by
    simp [sendsUpdate, valued, qualifies.1, qualifies.2.1, qualifies.2.2]
  exact List.mem_map.mpr ⟨e, List.mem_filter.mpr ⟨stored, sends⟩, rfl⟩

end Updates

section Histories

/-- A call that returns; a failed assertion ends the run. -/
def CallReturns (b : Believe) (call : ValueCall) (b' : Believe) : Prop :=
  call.run b = some b'

theorem told_run_iff (b : Believe) (call : ValueCall) (b' : Believe) (ran : CallReturns b call b')
    (holds : Flagged b ∧ Included b) : Flagged b' ∧ Included b' ↔ Preset b call := by
  have step := flagged_run_iff ran holds.1
  constructor
  · intro holds'
    exact step.mp holds'.1
  · intro preset
    have flagged := step.mpr preset
    exact ⟨flagged, included_of_flagged flagged⟩

/-- In every state of a variable, from its construction through whatever calls, the flag says
whether there are bytes and joining robots are told of it, if and only if the template for
custom types was used on a variable that said it has a value already, each time it was used. -/
theorem value_flag_iff (name : Name) (strategy : AcceptStrategy) (validityTime : Nat)
    (robotID : Int) (decissionTime lamportAge : Nat) (type : Int) {b : Believe}
    {trace : List (Believe × ValueCall)}
    (run : Run CallReturns (Believe.construct name strategy validityTime robotID decissionTime lamportAge
      type) trace b) :
    ((∀ p ∈ trace, Flagged p.1 ∧ Included p.1) ∧ Flagged b ∧ Included b) ↔
      ∀ p ∈ trace, Preset p.1 p.2 := by
  have unset : Flagged (Believe.construct name strategy validityTime robotID decissionTime
      lamportAge type) := by
    simp [Flagged, Believe.construct]
  exact Run.everywhere_iff told_run_iff run ⟨unset, included_of_flagged unset⟩

/-- A variable that was never given a value. -/
def unvalued : Believe :=
  Believe.construct ['a', '/', 'x'] .threeWayHandShake longMax 1 0 3 0

def tested : testTuple.Value :=
  let twenty : CDouble := ⟨[0, 0, 0, 0, 0, 0, 52, 64], rfl⟩
  (10, twenty, [115, 116, 114, 105, 110, 103], [1, 2])

/-- The tuple over an integer: the flag was set before. -/
theorem value_flag_kept :
    ∃ trace b, Run CallReturns unvalued trace b ∧ b.val = encoding testTuple tested ∧
      (∀ p ∈ trace, Flagged p.1 ∧ Included p.1) ∧ Flagged b ∧ Included b := by
  have first : CallReturns unvalued (.typed ⟨.int, (1 : Int32)⟩) (assigned .int unvalued (1 : Int32)) :=
    setValue_eq .int _ _ (by decide)
  have second : CallReturns (assigned .int unvalued (1 : Int32)) (.typed ⟨.custom testTuple, tested⟩)
      (assigned (.custom testTuple) (assigned .int unvalued (1 : Int32)) tested) :=
    setValue_eq (.custom testTuple) _ _ (by decide)
  refine ⟨_, _, (Run.nil.step first).step second, rfl, ?_⟩
  apply (value_flag_iff ['a', '/', 'x'] .threeWayHandShake longMax 1 0 3 0
    ((Run.nil.step first).step second)).mpr
  simp [Preset, setsHasValue, assigned]

/-- The tuple as the first value: there are bytes of it, the flag says there are not, and the
robot that joins is not told. -/
theorem value_flag_first :
    ∃ trace b, Run CallReturns unvalued trace b ∧ b.val = encoding testTuple tested ∧
      b.hasValue = false ∧ ¬Flagged b ∧ ¬Included b := by
  have only : CallReturns unvalued (.typed ⟨.custom testTuple, tested⟩)
      (assigned (.custom testTuple) unvalued tested) :=
    setValue_eq (.custom testTuple) _ _ (by decide)
  have given : (assigned (.custom testTuple) unvalued tested).val ≠ [] := by decide
  refine ⟨_, _, Run.nil.step only, rfl, rfl, fun flagged => ?_, fun included => ?_⟩
  · cases flagged.mpr given
  · let holder : Cace := { scopedAgent ['a', '/', 'x'] with
      store := [(['a', '/', 'x'], ⟨assigned (.custom testTuple) unvalued tested, []⟩)] }
    obtain ⟨sent, appended, told⟩ := included given .zero holder 2
      (['a', '/', 'x'], ⟨assigned (.custom testTuple) unvalued tested, []⟩) (by simp [holder]) rfl
      (by decide) (by decide) (by unfold Qualifies; decide)
    have joined := @joining_appends .zero 2 holder (by decide) (by decide)
    obtain rfl := appends_unique appended joined
    revert told
    decide

end Histories

end CaceProofs.Guarantees
