import RecordQuery.Proofs.Instance.Reachable
import RecordQuery.Proofs.Loading.ByType

/-!
# Obtained instances

The instances that can be obtained in any way, loading by type included: made anew, called to assign
their fields, loaded, and read out of others. A record may name another type than its relationship
leads to, so these instances are formed but need not be typed.
-/

namespace RecordQuery

namespace Instance

inductive Obtained : Instance → Prop
  | new {m : Model} (built : m.registry.Built) : Obtained (new m)
  | ofValues {m : Model} {values : List (String × Value)} {x : Instance}
      (built : m.registry.Built) (step : ofValues m values = .ok x) : Obtained x
  | call {c : Call} {x next : Instance} (start : Obtained x) (handed : ∀ y ∈ c.handed, Obtained y)
      (step : c.apply x = .ok next) : Obtained next
  | load {q : Query} {records : List Payload} {xs : List Instance} {x : Instance}
      (query : q.Reachable) (step : q.load records = .ok xs) (mem : x ∈ xs) : Obtained x
  | loadRecord {r : Registry} {p : Payload} {x : Instance} (built : r.Built)
      (step : r.loadRecord p = .ok x) : Obtained x
  | loadRecords {r : Registry} {p : Payload} {xs : List Instance} {x : Instance} (built : r.Built)
      (step : r.loadRecords p = .ok xs) (mem : x ∈ xs) : Obtained x
  | one {x y : Instance} {field : String} (start : Obtained x)
      (step : x.one field = .ok (some y)) : Obtained y
  | many {x y : Instance} {field : String} {ys : List Instance} (start : Obtained x)
      (step : x.many field = .ok ys) (mem : y ∈ ys) : Obtained y

theorem Reachable.obtained {x : Instance} (h : x.Reachable) : x.Obtained := by
  induction h with
  | new built => exact .new built
  | ofValues built step => exact .ofValues built step
  | @set _ _ field v _ step ih => exact .call (c := .set field v) ih (fun _ hy => nomatch hy) step
  | @setOne _ _ field related _ _ step ih held =>
    exact .call (c := .setOne field related) ih (fun y hy => held y (Option.mem_toList.mp hy)) step
  | @setMany _ _ field related _ _ step ih held =>
    exact .call (c := .setMany field related) ih held step
  | resetChanges _ ih => exact .call (c := .resetChanges) ih (fun _ hy => nomatch hy) rfl
  | load query step mem => exact .load query step mem
  | one _ step ih => exact .one ih step
  | many _ step mem ih => exact .many ih step mem

theorem Obtained.formed {x : Instance} (h : x.Obtained) : x.Formed := by
  induction h with
  | new built => exact (typed_new built).formed
  | ofValues built step => exact (typed_ofValues built step).formed
  | call _ _ step ih handed => exact ih.assigns (Call.apply_assigns step) handed
  | load query step mem => exact (Reachable.load query step mem).typed.formed
  | loadRecord built step => exact Registry.loadRecord_formed built step
  | loadRecords built step mem =>
    obtain ⟨records, _, loaded⟩ := Registry.loadRecords_eq_ok.mp step
    obtain ⟨p, _, record⟩ := Outcome.mem_of_mapM loaded mem
    exact Registry.loadRecord_formed built record
  | one _ step ih =>
    obtain ⟨f, s, cell, mem⟩ := one_related ih.here.width step
    exact ih.related cell mem
  | many _ step mem ih =>
    obtain ⟨f, cell⟩ := many_related ih.here.width step
    exact ih.related cell mem

end Instance

end RecordQuery
