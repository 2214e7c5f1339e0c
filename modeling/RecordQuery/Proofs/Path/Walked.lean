import RecordQuery.Proofs.Schema.Built
import RecordQuery.Path

/-!
# Walked paths

A path belongs to a registry when it was made by following declared relationships from one of its
models. A path with no hop then names a scalar field of its root and carries the attribute declared
for it.
-/

namespace RecordQuery

/-- A relationship path made step by step from a model of a built registry. -/
inductive RelationPath.Walked : RelationPath → Prop
  | start {m : Model} {field : String} {p : RelationPath} (built : m.registry.Built)
      (step : m.relationAt field = .ok p) : Walked p
  | onward {p next : RelationPath} {field : String} (walked : Walked p)
      (step : p.relationAt field = .ok next) : Walked next

/-- An attribute path made from a model directly or at the end of a relationship path. -/
inductive AttributePath.Walked : AttributePath → Prop
  | direct {m : Model} {field : String} {p : AttributePath} (built : m.registry.Built)
      (step : m.attributeAt field = .ok p) : Walked p
  | beyond {r : RelationPath} {field : String} {p : AttributePath} (walked : r.Walked)
      (step : r.attributeAt field = .ok p) : Walked p

namespace Attribute

theorem isRelation_eq_false {a : Attribute} {k : Kind} (h : a.content = .scalar k) :
    a.isRelation = false := by
  rw [isRelation, target?, h]
  rfl

end Attribute

namespace AttributePath

variable {p : AttributePath}

@[simp] theorem toAttribute_isRelation (p : AttributePath) :
    p.toAttribute.isRelation = false := rfl

/-- A path to an attribute ends at a scalar field and keeps all of its declaration. -/
theorem through_eq_ok {root owner : Model} {hops : List Hop} {field : String} :
    through root hops owner field = .ok p ↔
      p.root = root ∧ p.hops = hops ∧ p.owner = owner ∧ p.field = field ∧
        owner.attr field = .ok p.toAttribute := by
  constructor
  · intro h
    rw [through, Outcome.bind_eq_ok] at h
    obtain ⟨⟨externalName, nullable, content⟩, declared, h⟩ := h
    cases content with
    | scalar kind =>
      obtain rfl := Outcome.pure_eq_ok.mp h
      exact ⟨rfl, rfl, rfl, rfl, declared⟩
    | relation target many => exact absurd h Outcome.throw_ne_ok
  · rintro ⟨rfl, rfl, rfl, rfl, declared⟩
    rw [through, declared, Outcome.ok_bind]
    rfl

theorem Walked.declared (walked : p.Walked) (direct : p.isDirect = true) :
    p.root.attributeAt p.field = .ok p := by
  cases walked with
  | direct _ step =>
    obtain ⟨rfl, _, _, rfl, _⟩ := through_eq_ok.mp step
    exact step
  | beyond _ step =>
    obtain ⟨_, hops, _⟩ := through_eq_ok.mp step
    rw [isDirect, hops, RelationPath.hops, List.isEmpty_iff] at direct
    exact absurd direct (List.append_ne_nil_of_right_ne_nil _ (List.cons_ne_nil _ _))

/-- A directly named attribute is a field of the schema. -/
theorem mem_fields_of_attributeAt {m : Model} {field : String}
    (h : m.attributeAt field = .ok p) :
    p.root = m ∧ p.isDirect = true ∧ p.field = field ∧
      ⟨p.field, p.toAttribute⟩ ∈ m.schema.fields := by
  obtain ⟨root, hops, _, rfl, declared⟩ := through_eq_ok.mp h
  refine ⟨root, ?_, rfl, Schema.attr_eq_ok declared⟩
  rw [isDirect, hops]
  rfl

end AttributePath

end RecordQuery
