import RecordQuery.Attribute.Coercion
import RecordQuery.Instance.Record
import RecordQuery.Loading.Envelope

/-!
# Loading by type

A record that names its type is read by the schema of that object: every scalar field must be
there, and a relationship is read when the record has it. A related record may name its own type;
otherwise it has the one that the relationship leads to.
-/

namespace RecordQuery

/-- The object name that a record states. -/
def Payload.recordType? (p : Payload) : Option String :=
  match (p.get? Instance.metadataKey).bind (·.get? Instance.typeKey) with
  | some (.string name) => some name
  | _ => none

namespace Registry

/-- The model of a related record. -/
def modelOf (r : Registry) (target : Model) (p : Payload) : Except Error Model :=
  match p.recordType? with
  | some name => r.byObjectName name
  | none => .ok target

mutual

/-- Reads a record by the schema of a model. -/
def loadAs (r : Registry) : Payload → Model → Except Error Instance
  | .mapping entries, m => do
    let slots ← m.schema.fields.mapM fun f => loadSlot r entries m f
    return { model := m, slots, changed := m.schema.fields.map fun _ => false }
  | other, m => throw (Payload.mismatch m.name "" .record other)

/-- The slot of a field, from the entry with its external name. -/
def loadSlot (r : Registry) :
    List (String × Payload) → Model → Field → Except Error (Slot Instance)
  | [], m, f =>
    if f.attr.isRelation then return .unset
    else throw (.payloadMismatch m.name f.name .missingFromRecord)
  | (key, p) :: rest, m, f =>
    if key ≠ f.attr.externalName then loadSlot r rest m f
    else if !f.attr.isRelation then
      return .value (← f.attr.coercePayload m.name f.name p)
    else do
      let target ← m.related f.name
      if f.attr.isMany then return .many (← loadMany r p target m f)
      else
        match p with
        | .null =>
          if f.attr.nullable then return .one none else throw (.notNullable m.name f.name)
        | other => return .one (some (← loadAs r other (← r.modelOf target other)))

/-- The related records of a one-to-many relationship. -/
def loadMany (r : Registry) : Payload → Model → Model → Field → Except Error (List Instance)
  | .null, _, _, _ => return []
  | .list items, target, _, _ => loadAll r items target
  | .mapping entries, target, m, f => loadEnvelope r entries target m f
  | other, _, m, f => throw (Payload.mismatch m.name f.name .recordList other)

/-- The records in the entry of an envelope. -/
def loadEnvelope (r : Registry) :
    List (String × Payload) → Model → Model → Field → Except Error (List Instance)
  | [], _, m, f => throw (Payload.mismatch m.name f.name .recordList (.mapping []))
  | (key, p) :: rest, target, m, f =>
    if key ≠ Payload.recordsKey then loadEnvelope r rest target m f
    else
      match p with
      | .list items => loadAll r items target
      | _ => throw (Payload.mismatch m.name f.name .recordList (.mapping []))

def loadAll (r : Registry) : List Payload → Model → Except Error (List Instance)
  | [], _ => return []
  | p :: rest, target => do
    let x ← loadAs r p (← r.modelOf target p)
    return x :: (← loadAll r rest target)

end

/-- Reads a record by the type that it names. -/
def loadRecord (r : Registry) (p : Payload) : Except Error Instance := do
  match p.recordType? with
  | some name => r.loadAs p (← r.byObjectName name)
  | none => throw (.payloadMismatch "" Instance.metadataKey .noRecordType)

/-- Reads a list of records, or the list in an envelope. -/
def loadRecords (r : Registry) (p : Payload) : Except Error (List Instance) := do
  (← p.records "" Payload.recordsKey).mapM r.loadRecord

end Registry

end RecordQuery
