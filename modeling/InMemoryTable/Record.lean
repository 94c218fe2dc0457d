import InMemoryTable.Error

/-! Records: the key that a record type exposes, and the serialization of
records to bytes. -/
namespace InMemoryTable

class TableRecord (T : Type) (K : outParam Type) where
  key : T → K

/-- `bincode` on a record type. Either call may fail with a message; what was
serialized deserializes to the same record. -/
structure Bincode (T : Type) where
  serialize : T → Except String (List UInt8)
  deserialize : List UInt8 → Except String T
  deserialize_serialize : ∀ {record bytes}, serialize record = .ok bytes →
    deserialize bytes = .ok record

namespace Bincode
variable {T : Type} (self : Bincode T)

/-- `bincode::serialize` with the error that the table reports. -/
def encode (record : T) : Except InMemoryTableError (List UInt8) :=
  match self.serialize record with
  | .error message => .error (.serializationError message)
  | .ok bytes => .ok bytes

/-- `bincode::deserialize` with the error that the table reports. -/
def decode (data : List UInt8) : Except InMemoryTableError T :=
  match self.deserialize data with
  | .error message => .error (.deserializationError message)
  | .ok record => .ok record

theorem decode_encode {record : T} {bytes : List UInt8} (encoded : self.encode record = .ok bytes) :
    self.decode bytes = .ok record := by
  unfold encode at encoded
  cases serialized : self.serialize record with
  | error message => simp [serialized] at encoded
  | ok serializedBytes =>
    simp only [serialized, Except.ok.injEq] at encoded
    subst encoded
    simp only [decode, self.deserialize_serialize serialized]

/-- Records of two bytes, the key and a value. -/
def twoBytes : Bincode (UInt8 × UInt8) where
  serialize record := .ok [record.1, record.2]
  deserialize
    | key :: value :: _ => .ok (key, value)
    | _ => .error "io error: unexpected end of file"
  deserialize_serialize := by
    intro record bytes serialized
    cases serialized
    rfl

end Bincode

instance : TableRecord (UInt8 × UInt8) UInt8 where
  key := Prod.fst

end InMemoryTable
