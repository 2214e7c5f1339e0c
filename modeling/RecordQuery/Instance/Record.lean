import RecordQuery.Attribute.Coercion
import RecordQuery.Instance.Basic

/-!
# Records of instances

An instance as a payload. Its entries have the external names of the fields; one more entry names
the type of the record.
-/

namespace RecordQuery.Instance

/-- The key of the entry about the record itself. -/
def metadataKey : String := "attributes"

/-- The key of the object name inside that entry. -/
def typeKey : String := "type"

def metadata (m : Model) : Payload := .mapping [(typeKey, .string m.objectName)]

mutual

/-- The mapping of the type entry and of every slot that is set. -/
def toRecord : Instance → Payload
  | ⟨m, slots, _⟩ =>
    .mapping (Payload.Entries.ofList ((metadataKey, metadata m) :: slotEntries m.schema.fields slots))

def slotEntries : List Field → List (Slot Instance) → List (String × Payload)
  | f :: fields, .value v :: slots =>
    (f.attr.externalName, v.toPayload) :: slotEntries fields slots
  | f :: fields, .one none :: slots => (f.attr.externalName, .null) :: slotEntries fields slots
  | f :: fields, .one (some x) :: slots =>
    (f.attr.externalName, toRecord x) :: slotEntries fields slots
  | f :: fields, .many xs :: slots =>
    (f.attr.externalName, .list (toRecords xs)) :: slotEntries fields slots
  | _ :: fields, .unset :: slots => slotEntries fields slots
  | _, _ => []

def toRecords : List Instance → List Payload
  | [] => []
  | x :: rest => toRecord x :: toRecords rest

end

/-- The entries of the scalar fields that changed. -/
def changeEntries : List Field → List (Slot Instance) → List Bool → List (String × Payload)
  | f :: fields, .value v :: slots, true :: flags =>
    (f.attr.externalName, v.toPayload) :: changeEntries fields slots flags
  | _ :: fields, _ :: slots, _ :: flags => changeEntries fields slots flags
  | _, _, _ => []

/-- The changed scalar fields by external name. -/
def changes (x : Instance) : Payload :=
  .mapping (Payload.Entries.ofList (changeEntries x.model.schema.fields x.slots x.changed))

end RecordQuery.Instance
