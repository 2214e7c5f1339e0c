import RecordQuery.Binary64.Basic

/-!
# Payloads

The structured data that records are exchanged in. A mapping lists its entries by ascending key,
without repetition.
-/

namespace RecordQuery

inductive Payload where
  | null
  | boolean (b : Bool)
  | integer (n : Int)
  | float (x : Binary64)
  | string (s : String)
  | list (items : List Payload)
  | mapping (entries : List (String × Payload))

/-- What a payload is at its top. -/
inductive Shape where
  | null
  | boolean
  | number
  | string
  | list
  | mapping
deriving DecidableEq

def Shape.name : Shape → String
  | null => "null"
  | boolean => "boolean"
  | number => "number"
  | string => "string"
  | list => "list"
  | mapping => "mapping"

namespace Payload

def shape : Payload → Shape
  | null => .null
  | boolean _ => .boolean
  | integer _ => .number
  | float _ => .number
  | string _ => .string
  | list _ => .list
  | mapping _ => .mapping

abbrev Entries := List (String × Payload)

namespace Entries

/-- Sets the entry of `key`, in place of an earlier one. -/
def insert (key : String) (value : Payload) : Entries → Entries
  | [] => [(key, value)]
  | (k, v) :: rest =>
    if key < k then (key, value) :: (k, v) :: rest
    else if key = k then (key, value) :: rest
    else (k, v) :: insert key value rest

/-- Later entries of the list win over earlier ones with the same key. -/
def ofList (entries : List (String × Payload)) : Entries :=
  entries.foldl (fun acc e => insert e.1 e.2 acc) []

theorem lookup_cons (key other : String) (value : Payload) (entries : Entries) :
    ((key, value) :: entries : Entries).lookup other =
      if other = key then some value else entries.lookup other := by
  by_cases same : other = key
  · rw [if_pos same, same, List.lookup_cons_self]
  · have different : (other == key) = false := beq_false_of_ne same
    rw [if_neg same, List.lookup_cons, different]

/-- Setting an entry changes what is found under its key and nothing else. -/
theorem lookup_insert (key other : String) (value : Payload) (entries : Entries) :
    (insert key value entries).lookup other =
      if other = key then some value else entries.lookup other := by
  induction entries with
  | nil => rw [insert, lookup_cons]
  | cons entry rest ih =>
    obtain ⟨k, v⟩ := entry
    by_cases below : key < k
    · rw [insert, if_pos below, lookup_cons]
    · by_cases found : key = k
      · subst found
        rw [insert, if_neg below, if_pos rfl]
        simp only [lookup_cons]
        split <;> rfl
      · rw [insert, if_neg below, if_neg found]
        simp only [lookup_cons, ih]
        by_cases h : other = key
        · subst h
          rw [if_neg found, if_pos rfl, if_pos rfl]
        · rw [if_neg h, if_neg h]

end Entries

end Payload

end RecordQuery
