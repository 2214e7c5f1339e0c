import RecordQuery.Proofs.Instance.Typed
import RecordQuery.Proofs.Schema.Resolved

/-!
# Formed instances

An instance is formed when every slot suits the attribute of its field and related instances are of
the same registry, at every depth. Formed is less than typed: a related instance may be of another
model than its relationship leads to, as it can be when it was loaded by type.
-/

namespace RecordQuery.Instance

/-- The instance itself is formed, whatever the related instances are like. -/
structure Regular (x : Instance) : Prop where
  built : x.model.registry.Built
  width : x.slots.length = x.model.schema.fields.length
  flags : x.changed.length = x.model.schema.fields.length
  suits : ∀ f s, (f, s) ∈ x.cells → s.Suits f.attr
  registry : ∀ f s, (f, s) ∈ x.cells → ∀ y ∈ s.related, y.model.registry = x.model.registry

inductive Formed : Instance → Prop
  | intro {x : Instance} (here : x.Regular)
      (below : ∀ f s, (f, s) ∈ x.cells → ∀ y ∈ s.related, Formed y) : Formed x

variable {x next y : Instance} {f : Field} {s : Slot Instance} {held : List Instance}

theorem Formed.here (h : x.Formed) : x.Regular := by
  cases h
  assumption

theorem Formed.related (h : x.Formed) (cell : (f, s) ∈ x.cells) (mem : y ∈ s.related) :
    y.Formed := by
  cases h with
  | intro _ below => exact below f s cell y mem

theorem Formed.within (h : x.Formed) (inside : y.Within x) : y.Formed := by
  induction inside with
  | refl => exact h
  | related cell mem _ ih => exact ih (h.related cell mem)

theorem Regular.valid (h : x.Regular) : x.model.schema.Valid := h.built.valid _ x.model.mem

theorem Regular.cells_once (h : x.Regular) : (x.cells.map Prod.fst).Nodup :=
  Instance.cells_once h.valid h.width

theorem Regular.value {v : Value} (h : x.Regular) (cell : (f, .value v) ∈ x.cells) :
    f.attr.isRelation = false ∧ f.attr.Holds v := h.suits _ _ cell

theorem Sound.regular (h : x.Sound) : x.Regular where
  built := h.built
  width := h.width
  flags := h.flags
  suits := h.suits
  registry := by
    intro f s cell y mem
    obtain ⟨_, _, _, registry⟩ := Model.related_eq_ok (h.targets f s cell y mem)
    exact registry

theorem Typed.formed (h : x.Typed) : x.Formed := by
  induction h with
  | intro here _ ih => exact .intro here.regular ih

/-- A related instance that is given has to be of the model that the relationship leads to, and so
it is of the same registry. -/
theorem Regular.assigns (h : x.Regular) (step : Assigns x held next) : next.Regular where
  built := step.model ▸ h.built
  width := by rw [step.width, step.model, h.width]
  flags := by rw [step.flags, step.model, h.flags]
  suits := by
    intro f s cell
    rcases step.cells f s cell with old | placed
    · exact h.suits f s old
    · exact placed.suits
  registry := by
    intro f s cell y mem
    rw [step.model]
    rcases step.cells f s cell with old | placed
    · exact h.registry f s old y mem
    · obtain ⟨_, _, _, registry⟩ := Model.related_eq_ok (placed.targets y mem)
      exact registry

theorem Formed.assigns (h : x.Formed) (step : Assigns x held next)
    (formed : ∀ y ∈ held, y.Formed) : next.Formed := by
  refine .intro (h.here.assigns step) fun f s cell y mem => ?_
  rcases step.cells f s cell with old | placed
  · exact h.related old mem
  · exact formed y (placed.given y mem)

end RecordQuery.Instance
