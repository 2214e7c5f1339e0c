import RecordQuery.Attribute.Coercion
import RecordQuery.Instance.Basic
import RecordQuery.Loading.Envelope
import RecordQuery.Query.Basic

/-!
# Loading by a query

A record is read along the projection of a query: every selected column and every joined
relationship must be there, and nothing else is looked at.
-/

namespace RecordQuery.Query

/-- The entry of a record that a field is read from. -/
def required (m : Model) (field externalName : String) (record : Payload.Entries) :
    Except Error Payload :=
  match record.lookup externalName with
  | some p => .ok p
  | none => .error (.payloadMismatch m.name field .missingFromRecord)

/-- The slot of one selected column. -/
def loadColumn (m : Model) (record : Payload.Entries) (f : Field) :
    Except Error (String × Slot Instance) := do
  let raw ← required m f.name f.attr.externalName record
  return (f.name, .value (← f.attr.coercePayload m.name f.name raw))

mutual

def loadRecord : Query → Payload → Except Error Instance
  | ⟨root, columns, joins, _, _, _, _, _⟩, p => do
    let record ← p.record root.name
    let scalars ← (fieldsOf root columns).mapM (loadColumn root record)
    let related ← loadJoins root record joins
    return .ofSlots root (scalars ++ related)

/-- The slots of the joined relationships. -/
def loadJoins (m : Model) (record : Payload.Entries) :
    List (Join Query) → Except Error (List (String × Slot Instance))
  | [] => return []
  | ⟨field, attr, query⟩ :: rest => do
    let raw ← required m field attr.externalName record
    let slot : Slot Instance ←
      if attr.isMany then do
        let records ← raw.records m.name field
        pure (.many (← records.mapM fun r => loadRecord query r))
      else
        match raw with
        | .null => if attr.nullable then pure (.one none) else throw (.notNullable m.name field)
        | .mapping entries => do pure (.one (some (← loadRecord query (.mapping entries))))
        | other => throw (Payload.mismatch m.name field .singleRecord other)
    return (field, slot) :: (← loadJoins m record rest)

end

/-- One instance for each record. A query that counts has no records. -/
def load (q : Query) (records : List Payload) : Except Error (List Instance) :=
  if q.count then .error (.countNotLoadable q.root.name) else records.mapM q.loadRecord

/-- The instances of a whole response. -/
def loadResponse (q : Query) (response : Payload) : Except Error (List Instance) := do
  q.load (← response.responseRecords q.root.name)

/-- The number of matches that a response states. -/
def total (q : Query) (response : Payload) : Except Error Nat := response.total q.root.name

end RecordQuery.Query
