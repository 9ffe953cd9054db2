import CaceProofs.Guarantees.Acceptance
import CaceProofs.Source.Accessors
import CaceProofs.Source.Election

/-!
# Round trips of typed values

The format of a value is a function of its type and contents alone: scalars as they are in
memory, sequences behind their length, tuples one component after the other. `get_size`, the
writer and the reader of serialize.h are three readings of that format.
-/
namespace CaceProofs.Guarantees
open Source Library

section Format

/-- A sequence: the number of its elements in eight bytes, and then the elements. -/
def counted (count : Nat) (elements : Bytes) : Bytes :=
  (Scalar.sizeT.toMemory (UInt64.ofNat count)).1 ++ elements

mutual

/-- The bytes of a value. -/
def encoding : (t : CType) → t.Value → Bytes
  | .scalar s, obj => (s.toMemory obj).1
  | .string, (obj : Bytes) => counted obj.length obj
  | .vector t, (obj : List t.Value) => counted obj.length (obj.flatMap fun cur => encoding t cur)
  | .list t, (obj : List t.Value) => counted obj.length (obj.flatMap fun cur => encoding t cur)
  | .tuple ts, obj => encodings ts obj

/-- The bytes of a tuple's components. -/
def encodings : (ts : Components) → ts.Value → Bytes
  | .last t, obj => encoding t obj
  | .cons t ts, (obj : t.Value × ts.Value) => encoding t obj.1 ++ encodings ts obj.2

end

theorem length_counted (count : Nat) (elements : Bytes) :
    (counted count elements).length = 8 + elements.length := by
  rw [counted, List.length_append, (Scalar.sizeT.toMemory _).2]
  rfl

end Format

section Memory

/-- A scalar survives being copied to memory and back. -/
theorem ofMemory_toMemory (s : Scalar) (obj : s.Value) : s.ofMemory (s.toMemory obj) = obj := by
  cases s with
  | char =>
    have fits : UInt8.toNat obj < (2 ^ 8) ^ 1 := UInt8.toNat_lt obj
    change UInt8.ofNat (wordValue (wordBytes 1 (UInt8.toNat obj)).1) = obj
    rw [wordValue_wordBytes_of_lt fits, UInt8.ofNat_toNat]
  | int =>
    have fits : (Int32.toBitVec obj).toNat < (2 ^ 8) ^ 4 := (Int32.toBitVec obj).isLt
    change Int32.ofBitVec (BitVec.ofNat 32 (wordValue (wordBytes 4 (Int32.toBitVec obj).toNat).1))
      = obj
    rw [wordValue_wordBytes_of_lt fits, BitVec.ofNat_toNat]
    simp
  | long =>
    have fits : (Int64.toBitVec obj).toNat < (2 ^ 8) ^ 8 := (Int64.toBitVec obj).isLt
    change Int64.ofBitVec (BitVec.ofNat 64 (wordValue (wordBytes 8 (Int64.toBitVec obj).toNat).1))
      = obj
    rw [wordValue_wordBytes_of_lt fits, BitVec.ofNat_toNat]
    simp
  | sizeT =>
    have fits : UInt64.toNat obj < (2 ^ 8) ^ 8 := UInt64.toNat_lt obj
    change UInt64.ofNat (wordValue (wordBytes 8 (UInt64.toNat obj)).1) = obj
    rw [wordValue_wordBytes_of_lt fits, UInt64.ofNat_toNat]
  | double => rfl
  | plain size => rfl

theorem sizeof_pos (s : Scalar) : 0 < s.sizeof := by
  cases s with
  | plain size => exact size.2
  | _ => decide

theorem Scalar.serializer_puts (s : Scalar) (obj : s.Value) :
    Puts (s.serializer obj) (s.toMemory obj).1 :=
  Puts.put _

theorem Scalar.deserializeHelper_yields (s : Scalar) (obj : s.Value) :
    Yields s.deserializeHelper (s.toMemory obj).1 obj := by
  have copied : Yields s.deserializeHelper (s.toMemory obj).1 (s.ofMemory (s.toMemory obj)) :=
    Yields.map (Yields.take (s.toMemory obj)) s.ofMemory
  rwa [ofMemory_toMemory] at copied

/-- A byte for a char. -/
theorem chars_flatMap (obj : Bytes) :
    (obj.flatMap fun c => (Scalar.char.toMemory c).1) = obj := by
  induction obj with
  | nil => rfl
  | cons c obj ih =>
    have byte : (Scalar.char.toMemory c).1 = [c] := by
      change [UInt8.ofNat (UInt8.toNat c)] = [c]
      rw [UInt8.ofNat_toNat]
    rw [List.flatMap_cons, ih, byte, List.singleton_append]

end Memory

section Writer

/-- The loop of `get_size` over the elements of a sequence. -/
theorem foldl_size {α : Type} {size : α → UInt64} {encode : α → Bytes} (obj : List α)
    (each : ∀ cur ∈ obj, size cur = UInt64.ofNat (encode cur).length) (acc : Nat) :
    obj.foldl (fun acc cur => acc + size cur) (UInt64.ofNat acc)
      = UInt64.ofNat (acc + (obj.flatMap encode).length) := by
  induction obj generalizing acc with
  | nil => rfl
  | cons cur obj ih =>
    have rest := ih (fun cur' member => each cur' (List.mem_cons_of_mem cur member))
    rw [List.foldl_cons, each cur List.mem_cons_self, ← UInt64.ofNat_add, rest,
      List.flatMap_cons, List.length_append, Nat.add_assoc]

mutual

/-- `get_size` is the length of the format, in the arithmetic of `size_t`. -/
theorem getSize_eq : (t : CType) → (obj : t.Value) →
    getSize t obj = UInt64.ofNat (encoding t obj).length
  | .scalar s, obj => by
    rw [getSize, encoding, (s.toMemory obj).2]
  | .string, obj => by
    rw [getSize, encoding, length_counted, UInt64.ofNat_add]
    simp
  | .vector t, obj | .list t, obj => by
    rw [getSize, encoding, length_counted]
    exact foldl_size obj (fun cur _ => getSize_eq t cur) 8
  | .tuple ts, obj => by
    rw [getSize, encoding]
    exact getTupleSize_eq ts obj

theorem getTupleSize_eq : (ts : Components) → (obj : ts.Value) →
    getTupleSize ts obj = UInt64.ofNat (encodings ts obj).length
  | .last t, obj => by
    rw [getTupleSize, encodings]
    exact getSize_eq t obj
  | .cons t ts, obj => by
    rw [getTupleSize, encodings, List.length_append, UInt64.ofNat_add, getSize_eq t obj.1,
      getTupleSize_eq ts obj.2]

end

mutual

/-- The writer writes the format. -/
theorem serializer_puts : (t : CType) → (obj : t.Value) →
    Puts (serializer t obj) (encoding t obj)
  | .scalar s, obj => by
    rw [serializer, encoding]
    exact Scalar.serializer_puts s obj
  | .string, obj => by
    rw [serializer, encoding, counted]
    have chars : Puts (List.forM obj Scalar.char.serializer) obj := by
      have each := Puts.forM fun c (_ : c ∈ (obj : Bytes)) => Scalar.serializer_puts .char c
      rwa [chars_flatMap] at each
    exact Puts.seq (Scalar.serializer_puts .sizeT _) chars
  | .vector t, obj | .list t, obj => by
    rw [serializer, encoding, counted]
    exact Puts.seq (Scalar.serializer_puts .sizeT _) (Puts.forM fun cur _ => serializer_puts t cur)
  | .tuple ts, obj => by
    rw [serializer, encoding]
    exact serializeTuple_puts ts obj

theorem serializeTuple_puts : (ts : Components) → (obj : ts.Value) →
    Puts (serializeTuple ts obj) (encodings ts obj)
  | .last t, obj => by
    rw [serializeTuple, encodings]
    exact serializer_puts t obj
  | .cons t ts, obj => by
    rw [serializeTuple, encodings]
    exact Puts.seq (serializer_puts t obj.1) (serializeTuple_puts ts obj.2)

end

end Writer

section Reader

mutual

/-- Every type has at least one byte to its value. -/
theorem encoding_pos : (t : CType) → (obj : t.Value) → 0 < (encoding t obj).length
  | .scalar s, obj => by
    rw [encoding, (s.toMemory obj).2]
    exact sizeof_pos s
  | .string, obj | .vector t, obj | .list t, obj => by
    rw [encoding, length_counted]
    omega
  | .tuple ts, obj => by
    rw [encoding]
    exact encodings_pos ts obj

theorem encodings_pos : (ts : Components) → (obj : ts.Value) → 0 < (encodings ts obj).length
  | .last t, obj => by
    rw [encodings]
    exact encoding_pos t obj
  | .cons t ts, obj => by
    rw [encodings, List.length_append]
    have first := encoding_pos t obj.1
    omega

end

/-- The reader's loop gets the count back if it fits a `size_t`. -/
theorem counted_yields {α : Type} {read : StateT Bytes Option α} {encode : α → Bytes}
    {obj : List α} (fits : obj.length < 2 ^ 64)
    (each : ∀ cur ∈ obj, Yields read (encode cur) cur) :
    Yields (do
        let size : UInt64 ← Scalar.sizeT.deserializeHelper
        times read size.toNat)
      (counted obj.length (obj.flatMap encode)) obj := by
  refine Yields.bind (Scalar.deserializeHelper_yields .sizeT _) ?_
  have size : (UInt64.ofNat obj.length).toNat = obj.length := UInt64.toNat_ofNat_of_lt' fits
  rw [size]
  exact Yields.times each

/-- The elements of a sequence that fits are few enough to be counted, and each one fits. -/
theorem counted_fits {α : Type} {encode : α → Bytes} {obj : List α}
    (pos : ∀ cur ∈ obj, 0 < (encode cur).length)
    (fits : (counted obj.length (obj.flatMap encode)).length < 2 ^ 64) :
    obj.length < 2 ^ 64 ∧ ∀ cur ∈ obj, (encode cur).length < 2 ^ 64 := by
  rw [length_counted] at fits
  have elements := length_le_flatMap obj pos
  refine ⟨by omega, fun cur member => ?_⟩
  have element : (encode cur).length ≤ (obj.flatMap encode).length :=
    length_le_flatMap_of_mem member
  omega

mutual

/-- The reader takes the format off the stream, whatever follows it. -/
theorem deserializeHelper_yields : (t : CType) → (obj : t.Value) →
    (encoding t obj).length < 2 ^ 64 → Yields (deserializeHelper t) (encoding t obj) obj
  | .scalar s, obj, _ => by
    rw [deserializeHelper, encoding]
    exact Scalar.deserializeHelper_yields s obj
  | .string, obj, fits => by
    rw [encoding] at fits ⊢
    rw [deserializeHelper]
    refine Yields.bind (Scalar.deserializeHelper_yields .sizeT _) ?_
    have count : obj.length < 2 ^ 64 := by
      rw [length_counted] at fits
      omega
    have size : (UInt64.ofNat obj.length).toNat = obj.length := UInt64.toNat_ofNat_of_lt' count
    by_cases empty : UInt64.ofNat obj.length = 0
    · -- The early return; the loop would do the same.
      have none : obj = [] := by
        rw [empty] at size
        exact List.eq_nil_of_length_eq_zero size.symm
      rw [if_pos empty, none]
      exact Yields.nothing []
    · rw [if_neg empty, size]
      have each := Yields.times fun c (_ : c ∈ obj) => Scalar.deserializeHelper_yields .char c
      rwa [chars_flatMap] at each
  | .vector t, obj, fits | .list t, obj, fits => by
    rw [encoding] at fits ⊢
    rw [deserializeHelper]
    have elements := counted_fits (fun cur _ => encoding_pos t cur) fits
    exact counted_yields elements.1 fun cur member =>
      deserializeHelper_yields t cur (elements.2 cur member)
  | .tuple ts, obj, fits => by
    rw [encoding] at fits ⊢
    rw [deserializeHelper]
    exact deserializeTuple_yields ts obj fits

theorem deserializeTuple_yields : (ts : Components) → (obj : ts.Value) →
    (encodings ts obj).length < 2 ^ 64 → Yields (deserializeTuple ts) (encodings ts obj) obj
  | .last t, obj, fits => by
    rw [encodings] at fits ⊢
    rw [deserializeTuple]
    exact deserializeHelper_yields t obj fits
  | .cons t ts, obj, fits => by
    rw [encodings] at fits ⊢
    rw [deserializeTuple]
    rw [List.length_append] at fits
    have first := deserializeHelper_yields t obj.1 (by omega)
    have rest := deserializeTuple_yields ts obj.2 (by omega)
    exact Yields.bind first (Yields.map rest fun rest => (obj.1, rest))

end

end Reader

section Stream

/-- `serialize` appends the format to the stream; its assertion holds. -/
theorem serialize_eq (t : CType) (obj : t.Value) (res : Bytes)
    (fits : res.length + (encoding t obj).length < 2 ^ 64) :
    serialize t obj res = some (res ++ encoding t obj) := by
  have offset : (UInt64.ofNat res.length).toNat = res.length :=
    UInt64.toNat_ofNat_of_lt' (by change _ < 2 ^ 64; omega)
  have total : (UInt64.ofNat res.length + getSize t obj).toNat
      = res.length + (encoding t obj).length := by
    rw [getSize_eq, ← UInt64.ofNat_add]
    exact UInt64.toNat_ofNat_of_lt' fits
  have start : Cursor.seek (resize res (res.length + (encoding t obj).length)) res.length
      = ⟨res, List.replicate (encoding t obj).length 0⟩ := by
    have kept : res.take (res.length + (encoding t obj).length) = res :=
      List.take_of_length_le (Nat.le_add_right _ _)
    simp [Cursor.seek, resize, kept]
  have written := serializer_puts t obj ⟨res, List.replicate (encoding t obj).length 0⟩ (by simp)
  unfold serialize
  simp only [offset, total, start, written]
  simp [Cursor.buffer]

theorem deserialize_encoding (t : CType) (obj : t.Value)
    (fits : (encoding t obj).length < 2 ^ 64) : deserialize t (encoding t obj) = some obj := by
  have read := deserializeHelper_yields t obj fits []
  rw [List.append_nil] at read
  rw [deserialize, StateT.run'_eq, read]
  rfl

end Stream

section Overloads

variable {b : Believe}

/-- The custom template is the one that says nothing about `hasValue`. -/
def setsHasValue : Overload → Bool
  | .custom _ => false
  | _ => true

theorem setTyped_eq (t : CType) (type : Int) (this : Believe) (value : t.Value)
    (fits : (encoding t value).length < 2 ^ 64) :
    this.setTyped t type value =
      some { this with val := encoding t value, hasValue := true, type := type } := by
  have bytes := serialize_eq t value [] (by rwa [List.length_nil, Nat.zero_add])
  rw [Believe.setTyped, bytes]
  rfl

/-- The variable after a `setValue`. -/
def assigned (o : Overload) (this : Believe) (value : o.Value) : Believe :=
  { this with
    val := encoding o.ctype value
    hasValue := this.hasValue || setsHasValue o
    type := o.tag }

theorem setValue_eq (o : Overload) (this : Believe) (value : o.Value)
    (fits : (encoding o.ctype value).length < 2 ^ 64) :
    o.setValue this value = some (assigned o this value) := by
  unfold assigned
  cases o with
  | custom t =>
    have bytes := serialize_eq t value [] (by rwa [List.length_nil, Nat.zero_add])
    change this.setCustom t value = _
    unfold Believe.setCustom
    rw [bytes]
    simp [setsHasValue, Overload.tag, Overload.ctype]
  | _ => exact (setTyped_eq _ _ this value fits).trans (by simp [setsHasValue]; rfl)

theorem getValue_eq (o : Overload) (this : Believe) (out : o.Value) :
    o.getValue this out = this.getTyped o.ctype o.tag out := by
  cases o <;> rfl

/-- The matching `getValue` returns true and the value; the overloads for another tag
return false and leave the output as it is. -/
structure ReadsBack (o : Overload) (value : o.Value) (b : Believe) : Prop where
  same : ∀ out, o.getValue b out = some (value, true)
  other : ∀ o' : Overload, o'.tag ≠ o.tag → ∀ out, o'.getValue b out = some (out, false)

theorem readsBack_of_encoding {o : Overload} {value : o.Value} (type : b.type = o.tag)
    (val : b.val = encoding o.ctype value) (fits : (encoding o.ctype value).length < 2 ^ 64) :
    ReadsBack o value b where
  same out := by
    rw [getValue_eq, Believe.getTyped, if_pos type, val, deserialize_encoding _ _ fits]
    rfl
  other o' different out := by
    rw [getValue_eq, Believe.getTyped, if_neg fun same => different (same.symm.trans type)]
    rfl

/-- The bytes that the argument of a call takes. -/
def encodedSize (call : SetCall) : Nat :=
  (encoding call.overload.ctype call.value).length

/-- The calls one after the other; only the last one is left. -/
theorem setValues_readsBack (this : Believe) (earlier : List SetCall) (last : SetCall)
    (fits : ∀ call ∈ earlier ++ [last], encodedSize call < 2 ^ 64) :
    ∃ b, (earlier ++ [last]).foldlM (fun b call => SetCall.run call b) this = some b ∧
      ReadsBack last.overload last.value b := by
  induction earlier generalizing this with
  | nil =>
    have fitting := fits last (by simp)
    refine ⟨assigned last.overload this last.value, ?_, readsBack_of_encoding rfl rfl fitting⟩
    rw [List.nil_append, List.foldlM_cons, SetCall.run, setValue_eq _ this _ fitting]
    rfl
  | cons call earlier ih =>
    have fitting := fits call (by simp)
    obtain ⟨b, rest, reads⟩ := ih (assigned call.overload this call.value) fun call' member =>
      fits call' (List.mem_cons_of_mem call member)
    refine ⟨b, ?_, reads⟩
    rw [List.cons_append, List.foldlM_cons, SetCall.run, setValue_eq _ this _ fitting]
    exact rest

end Overloads

section Readings

/-- Reading a scalar takes as many bytes as it has. -/
theorem deserialize_scalar (s : Scalar) (val : Bytes) (enough : s.sizeof ≤ val.length) :
    deserialize (.scalar s) val =
      some (s.ofMemory ⟨val.take s.sizeof, List.length_take_of_le enough⟩) := by
  have read : Yields s.deserializeHelper (val.take s.sizeof)
      (s.ofMemory ⟨val.take s.sizeof, List.length_take_of_le enough⟩) :=
    Yields.map (Yields.take ⟨val.take s.sizeof, List.length_take_of_le enough⟩) s.ofMemory
  have whole := read (val.drop s.sizeof)
  rw [List.take_append_drop] at whole
  rw [deserialize, deserializeHelper, StateT.run'_eq, whole]
  rfl

/-- The reading of a mutex's belief is that of `getValue(int* out)`. -/
theorem getInt_getValueInt (b : Believe) (out : Int32) (enough : 4 ≤ b.val.length) :
    (b.getInt out).map (fun read => read.1.toInt) = some (b.getValueInt out.toInt) := by
  unfold Believe.getInt Believe.getTyped Believe.getValueInt
  by_cases tag : b.type = typeCInt
  · rw [if_pos tag, if_pos tag, deserialize_scalar .int _ enough]
    change some (BitVec.ofNat 32 (wordValue (b.val.take 4))).toInt = _
    rw [BitVec.toInt_ofNat']
    rfl
  · rw [if_neg tag, if_neg tag]
    rfl

/-- The reading of a bid is that of `getValue(double* out)`. -/
theorem getDouble_getValueDouble (b : Believe) (out : CDouble) (enough : 8 ≤ b.val.length) :
    (b.getDouble out).map (fun read => deserializeDouble read.1.bytes)
      = some (b.getValueDouble (deserializeDouble out.bytes)) := by
  unfold Believe.getDouble Believe.getTyped Believe.getValueDouble
  by_cases tag : b.type = typeCDouble
  · rw [if_pos tag, if_pos tag, deserialize_scalar .double _ enough]
    change some (deserializeDouble (b.val.take 8)) = _
    have bits : doubleBits (b.val.take 8) = doubleBits b.val := by
      unfold doubleBits
      rw [List.take_take, Nat.min_self]
    unfold deserializeDouble
    rw [bits]
  · rw [if_neg tag, if_neg tag]
    rfl

end Readings

section CaceSpace

variable (r : Readings) (c : Cace) (name : Name) (strategy : AcceptStrategy)

/-- The encoder of `distributeValue(string, int, acceptStrategy)` is the one of serialize.h. -/
theorem intBytes_encoding (value : Int32) :
    Believe.intBytes value.toInt = encoding (.scalar .int) value := by
  have word : (value.toInt % 2 ^ 32).toNat = value.toBitVec.toNat := by
    have small := value.toBitVec.isLt
    rw [Int32.toInt, BitVec.toInt_eq_toNat_cond]
    split <;> omega
  change Believe.intBytes value.toInt = (wordBytes 4 value.toBitVec.toNat).1
  simp only [Believe.intBytes, word, wordBytes, Nat.div_div_eq_div_mul, ← Nat.pow_add]

/-- The variable in the store has the value and the tag of the call. -/
theorem distributeValue_stored (value : Bytes) (type : Int) :
    ∃ cv, (CaceSpace.distributeValue r c name value type strategy).getVariable name = some cv ∧
      cv.val = value ∧ cv.type = type := by
  refine ⟨decided r c name value type strategy (c.getVariable name), ?_, ?_⟩
  · rw [distributeValue_getVariable, getVariable_decideValue, if_pos rfl]
  · unfold decided
    cases c.getVariable name <;> exact ⟨rfl, rfl⟩

theorem distributeDouble_readsBack (value : CDouble) :
    ∃ cv, (CaceSpace.distributeDouble r c name value strategy).getVariable name = some cv ∧
      ReadsBack .double value cv.toBelieve := by
  obtain ⟨cv, stored, val, type⟩ := distributeValue_stored r c name strategy value.bytes typeCDouble
  refine ⟨cv, stored, readsBack_of_encoding type (val.trans rfl) ?_⟩
  exact lt_of_eq_of_lt value.size (by decide)

theorem distributeInt_readsBack (value : Int32) :
    ∃ cv, (CaceSpace.distributeInt r c name value.toInt strategy).getVariable name = some cv ∧
      ReadsBack .int value cv.toBelieve := by
  obtain ⟨cv, stored, val, type⟩ :=
    distributeValue_stored r c name strategy (Believe.intBytes value.toInt) typeCInt
  refine ⟨cv, stored, readsBack_of_encoding type (val.trans (intBytes_encoding value)) ?_⟩
  exact lt_of_eq_of_lt (Scalar.int.toMemory value).2 (by decide)

/-- After any calls of the typed `setValue`, on whatever variable, the `getValue` that matches
the last one returns true and its argument, and the overloads for another tag return false and
change nothing. The two encoders of `CaceSpace` write what these overloads of `getValue` read. -/
theorem typed_values_round_trip (this : Believe) (earlier : List SetCall) (last : SetCall)
    (fits : ∀ call ∈ earlier ++ [last], encodedSize call < 2 ^ 64)
    (double : CDouble) (int : Int32) :
    (∃ b, (earlier ++ [last]).foldlM (fun b call => SetCall.run call b) this = some b ∧
      ReadsBack last.overload last.value b) ∧
    (∃ cv, (CaceSpace.distributeDouble r c name double strategy).getVariable name = some cv ∧
      ReadsBack .double double cv.toBelieve) ∧
    ∃ cv, (CaceSpace.distributeInt r c name int.toInt strategy).getVariable name = some cv ∧
      ReadsBack .int int cv.toBelieve := by
  refine ⟨?_, ?_, ?_⟩
  · exact setValues_readsBack this earlier last fits
  · exact distributeDouble_readsBack r c name strategy double
  · exact distributeInt_readsBack r c name strategy int

/-- `tuple<int, double, string, vector<int>>`, of the test of these overloads. -/
def testTuple : CType :=
  .tuple (.cons (.scalar .int) (.cons (.scalar .double) (.cons .string
    (.last (.vector (.scalar .int))))))

theorem typed_values_round_trip_test :
    let twenty : CDouble := ⟨[0, 0, 0, 0, 0, 0, 52, 64], rfl⟩
    let tpl : testTuple.Value := (10, twenty, [115, 116, 114, 105, 110, 103], [1, 2])
    let c := Cace.construct 1 false 1
    (∃ b, [⟨.double, twenty⟩, ⟨.stringList, [[65], [66]]⟩, ⟨.custom testTuple, tpl⟩].foldlM
        (fun b call => SetCall.run call b) (default : Believe) = some b ∧
      ReadsBack (.custom testTuple) tpl b) ∧
    (∃ cv, (CaceSpace.distributeDouble .zero c ['x'] twenty .threeWayHandShake).getVariable ['x']
        = some cv ∧ ReadsBack .double twenty cv.toBelieve) ∧
    ∃ cv, (CaceSpace.distributeInt .zero c ['x'] (-7) .threeWayHandShake).getVariable ['x']
        = some cv ∧ ReadsBack .int (-7 : Int32) cv.toBelieve := by
  intro twenty tpl c
  have fits : ∀ call ∈ [⟨.double, twenty⟩, ⟨.stringList, [[65], [66]]⟩] ++
      [(⟨.custom testTuple, tpl⟩ : SetCall)], encodedSize call < 2 ^ 64 := by
    intro call member
    simp only [List.mem_append, List.mem_cons, List.not_mem_nil, or_false] at member
    rcases member with (rfl | rfl) | rfl <;> decide
  exact typed_values_round_trip .zero c ['x'] .threeWayHandShake default _ _ fits twenty (-7)

end CaceSpace

end CaceProofs.Guarantees
