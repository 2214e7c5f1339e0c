import RecordQuery.Error
import RecordQuery.Payload.Basic

/-!
# Envelopes

The shapes in which records come: a mapping for one record, and for several a list, a mapping
that has the list under a key, or null for none.
-/

namespace RecordQuery.Payload

def recordsKey : String := "records"

def totalKey : String := "totalSize"

def mismatch (schema field : String) (expected : Expected) (found : Payload) : Error :=
  .payloadMismatch schema field (.shape expected found.shape)

/-- The entries of a record. -/
def record (schema : String) : Payload → Except Error Entries
  | mapping entries => .ok entries
  | other => .error (mismatch schema "" .record other)

/-- The records of a one-to-many relationship. -/
def records (schema field : String) : Payload → Except Error (List Payload)
  | null => .ok []
  | list items => .ok items
  | mapping entries =>
    match entries.lookup recordsKey with
    | some (list items) => .ok items
    | _ => .error (mismatch schema field .recordList (mapping entries))
  | other => .error (mismatch schema field .recordList other)

/-- The records of a whole response. -/
def responseRecords (schema : String) : Payload → Except Error (List Payload)
  | list items => .ok items
  | mapping entries =>
    match entries.lookup recordsKey with
    | some (list items) => .ok items
    | some other => .error (mismatch schema recordsKey .list other)
    | none => .error (.payloadMismatch schema recordsKey .missingFromResponse)
  | other => .error (mismatch schema recordsKey .response other)

/-- The entry of a mapping; nothing else has entries. -/
def get? (key : String) : Payload → Option Payload
  | mapping entries => entries.lookup key
  | _ => none

/-- The number of matches that a response states. -/
def total (schema : String) (p : Payload) : Except Error Nat :=
  match p.get? totalKey with
  | some (integer (.ofNat n)) => .ok n
  | _ => .error (.payloadMismatch schema totalKey .noTotal)

end RecordQuery.Payload
