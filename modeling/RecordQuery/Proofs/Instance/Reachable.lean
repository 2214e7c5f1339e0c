import RecordQuery.Proofs.Loading.Record
import RecordQuery.Proofs.Query.Joining

/-!
# Reachable instances

The instances that can be made: new ones, those with given values, those loaded by a query, whatever
is assigned to them in any order, and the related instances that are read out of them. All of them
are typed.
-/

namespace RecordQuery.Instance

inductive Reachable : Instance → Prop
  | new {m : Model} (built : m.registry.Built) : Reachable (new m)
  | ofValues {m : Model} {values : List (String × Value)} {x : Instance}
      (built : m.registry.Built) (step : ofValues m values = .ok x) : Reachable x
  | set {x next : Instance} {field : String} {v : Value} (start : Reachable x)
      (step : x.set field v = .ok next) : Reachable next
  | setOne {x next : Instance} {field : String} {related : Option Instance} (start : Reachable x)
      (held : ∀ y ∈ related, Reachable y) (step : x.setOne field related = .ok next) :
      Reachable next
  | setMany {x next : Instance} {field : String} {related : List Instance} (start : Reachable x)
      (held : ∀ y ∈ related, Reachable y) (step : x.setMany field related = .ok next) :
      Reachable next
  | resetChanges {x : Instance} (start : Reachable x) : Reachable x.resetChanges
  | load {q : Query} {records : List Payload} {xs : List Instance} {x : Instance}
      (query : q.Reachable) (step : q.load records = .ok xs) (mem : x ∈ xs) : Reachable x
  | one {x y : Instance} {field : String} (start : Reachable x)
      (step : x.one field = .ok (some y)) : Reachable y
  | many {x y : Instance} {field : String} {ys : List Instance} (start : Reachable x)
      (step : x.many field = .ok ys) (mem : y ∈ ys) : Reachable y

variable {x y : Instance} {field : String}

theorem Typed.one (h : x.Typed) (step : x.one field = .ok (some y)) : y.Typed := by
  obtain ⟨f, s, cell, mem⟩ := one_related h.here.width step
  exact (h.fits cell).below y mem

theorem Typed.many {ys : List Instance} (h : x.Typed) (step : x.many field = .ok ys)
    (mem : y ∈ ys) : y.Typed := by
  obtain ⟨f, cell⟩ := many_related h.here.width step
  exact (h.fits cell).below y mem

theorem Reachable.typed (h : x.Reachable) : x.Typed := by
  induction h with
  | new built => exact typed_new built
  | ofValues built step => exact typed_ofValues built step
  | set _ step ih => exact ih.set step
  | setOne _ _ step ih held => exact ih.setOne held step
  | setMany _ _ step ih held => exact ih.setMany held step
  | resetChanges _ ih => exact ih.resetChanges
  | load query step mem =>
    obtain ⟨_, loaded⟩ := Query.load_eq_ok.mp step
    obtain ⟨p, _, record⟩ := Outcome.mem_of_mapM loaded mem
    exact (query.wellFormed.loadRecord_typed p _ record).1
  | one _ step ih => exact ih.one step
  | many _ step mem ih => exact ih.many step mem

end RecordQuery.Instance
