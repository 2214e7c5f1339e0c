import RecordQuery.Proofs.Instance.Assigned

/-!
# Typed instances

An instance is typed when every slot suits the attribute of its field, related instances belong to
the model that their relationship leads to, and this goes on inside them. Making instances and
assigning fields gives typed instances only.
-/

namespace RecordQuery

namespace Instance

/-- The instance itself is typed, whatever the related instances are like. -/
structure Sound (x : Instance) : Prop where
  built : x.model.registry.Built
  width : x.slots.length = x.model.schema.fields.length
  flags : x.changed.length = x.model.schema.fields.length
  suits : ∀ f s, (f, s) ∈ x.cells → s.Suits f.attr
  targets : ∀ f s, (f, s) ∈ x.cells → ∀ y ∈ s.related, x.model.related f.name = .ok y.model

inductive Typed : Instance → Prop
  | intro {x : Instance} (here : x.Sound)
      (below : ∀ f s, (f, s) ∈ x.cells → ∀ y ∈ s.related, Typed y) : Typed x

/-- An instance is inside another when it is the instance itself or is inside a related one. -/
inductive Within : Instance → Instance → Prop
  | refl {x : Instance} : Within x x
  | related {x y z : Instance} {f : Field} {s : Slot Instance} (cell : (f, s) ∈ x.cells)
      (mem : z ∈ s.related) (below : Within y z) : Within y x

/-- A slot that a typed instance of the model may have for a field. -/
structure Fits (m : Model) (f : Field) (s : Slot Instance) : Prop where
  suits : s.Suits f.attr
  targets : ∀ y ∈ s.related, m.related f.name = .ok y.model
  below : ∀ y ∈ s.related, y.Typed

variable {x next y : Instance} {m : Model} {field : String} {f : Field} {s : Slot Instance}
  {v : Value}

theorem Typed.here (h : x.Typed) : x.Sound := by
  cases h
  assumption

theorem Sound.valid (h : x.Sound) : x.model.schema.Valid := h.built.valid _ x.model.mem

theorem Sound.cells_once (h : x.Sound) : (x.cells.map Prod.fst).Nodup :=
  Instance.cells_once h.valid h.width

theorem Sound.cell_slotFor (h : x.Sound) (mem : f ∈ x.model.schema.fields) :
    (f, x.slotFor f) ∈ x.cells := Instance.cell_slotFor h.width h.valid.fields_nodup mem

theorem Typed.fits (h : x.Typed) (cell : (f, s) ∈ x.cells) : Fits x.model f s := by
  cases h with
  | intro here below => exact ⟨here.suits f s cell, here.targets f s cell, below f s cell⟩

theorem Typed.within (h : x.Typed) (inside : y.Within x) : y.Typed := by
  induction inside with
  | refl => exact h
  | related cell mem _ ih => exact ih ((h.fits cell).below _ mem)

theorem fits_unset : Fits m f .unset where
  suits := trivial
  targets := fun _ hy => nomatch hy
  below := fun _ hy => nomatch hy

theorem fits_value (scalar : f.attr.isRelation = false) (holds : f.attr.Holds v) :
    Fits m f (.value v) where
  suits := ⟨scalar, holds⟩
  targets := fun _ hy => nomatch hy
  below := fun _ hy => nomatch hy

theorem fits_none (relation : f.attr.isRelation = true) (single : f.attr.isMany = false)
    (nullable : f.attr.nullable = true) : Fits m f (.one none) where
  suits := ⟨relation, single, nullable⟩
  targets := fun _ hy => nomatch hy
  below := fun _ hy => nomatch hy

theorem fits_one (relation : f.attr.isRelation = true) (single : f.attr.isMany = false)
    (target : m.related f.name = .ok y.model) (typed : y.Typed) : Fits m f (.one (some y)) where
  suits := ⟨relation, single⟩
  targets := fun _ hz => List.mem_singleton.mp hz ▸ target
  below := fun _ hz => List.mem_singleton.mp hz ▸ typed

theorem fits_many {ys : List Instance} (relation : f.attr.isRelation = true)
    (many : f.attr.isMany = true)
    (all : ∀ y ∈ ys, m.related f.name = .ok y.model ∧ y.Typed) : Fits m f (.many ys) where
  suits := ⟨relation, many⟩
  targets := fun y hy => (all y hy).1
  below := fun y hy => (all y hy).2

/-! ### New instances -/

theorem typed_of_cells (built : x.model.registry.Built)
    (width : x.slots.length = x.model.schema.fields.length)
    (flags : x.changed.length = x.model.schema.fields.length)
    (fits : ∀ f s, (f, s) ∈ x.cells → Fits x.model f s) : x.Typed :=
  .intro
    { built, width, flags
      suits := fun f s cell => (fits f s cell).suits
      targets := fun f s cell => (fits f s cell).targets }
    fun f s cell => (fits f s cell).below

theorem typed_ofSlots {assigned : List (String × Slot Instance)} (built : m.registry.Built)
    (fits : ∀ f ∈ m.schema.fields, ∀ s, (f.name, s) ∈ assigned → Fits m f s) :
    (ofSlots m assigned).Typed := by
  apply typed_of_cells built (by simp [ofSlots]) (by simp [ofSlots])
  intro f s cell
  obtain ⟨mem, rfl⟩ := mem_cells_ofSlots.mp cell
  cases found : assigned.lookup f.name with
  | none => exact fits_unset
  | some s =>
    obtain ⟨before, after, rfl, _⟩ := List.lookup_eq_some_iff.mp found
    exact fits f mem s (List.mem_append_right _ List.mem_cons_self)

theorem typed_new (built : m.registry.Built) : (new m).Typed :=
  typed_ofSlots built fun _ _ _ h => nomatch h

/-! ### Assignments -/

theorem Placed.fits {held : List Instance} (placed : Placed m held f s)
    (typed : ∀ y ∈ held, y.Typed) : Fits m f s where
  suits := placed.suits
  targets := placed.targets
  below := fun y hy => typed y (placed.given y hy)

theorem Typed.assigns {held : List Instance} (h : x.Typed) (step : Assigns x held next)
    (typed : ∀ y ∈ held, y.Typed) : next.Typed := by
  refine typed_of_cells ?_ ?_ ?_ fun f s cell => ?_
  · rw [step.model]
    exact h.here.built
  · rw [step.width, step.model, h.here.width]
  · rw [step.flags, step.model, h.here.flags]
  · rw [step.model]
    rcases step.cells f s cell with old | placed
    · exact h.fits old
    · exact placed.fits typed

theorem Typed.set (h : x.Typed) (step : x.set field v = .ok next) : next.Typed :=
  h.assigns (set_assigns step) fun _ hy => nomatch hy

theorem Typed.setOne {related : Option Instance} (h : x.Typed) (held : ∀ y ∈ related, y.Typed)
    (step : x.setOne field related = .ok next) : next.Typed :=
  h.assigns (setOne_assigns step) fun y hy => held y (Option.mem_toList.mp hy)

theorem Typed.setMany {related : List Instance} (h : x.Typed) (held : ∀ y ∈ related, y.Typed)
    (step : x.setMany field related = .ok next) : next.Typed :=
  h.assigns (setMany_assigns step) held

theorem Typed.resetChanges (h : x.Typed) : x.resetChanges.Typed :=
  h.assigns (resetChanges_assigns x) fun _ hy => nomatch hy

theorem typed_ofValues {values : List (String × Value)} (built : m.registry.Built)
    (step : ofValues m values = .ok x) : x.Typed := by
  have start : (new m).Typed ∧ (new m).model = m := ⟨typed_new built, rfl⟩
  refine (Outcome.foldlM_invariant (P := fun x => x.Typed ∧ x.model = m) start ?_ step).1
  rintro ⟨name, v⟩ _ x next ⟨typed, rfl⟩ step
  obtain ⟨⟨k, w⟩, accepted, step⟩ := Outcome.bind_eq_ok.mp step
  obtain rfl := Outcome.pure_eq_ok.mp step
  obtain ⟨f, at_k, _, scalar, holds⟩ := accept_eq_ok accepted
  have assigned : Assigns x [] (x.put k (.value w)) :=
    put_assigns at_k (placed_value scalar holds)
  exact ⟨typed.assigns assigned fun _ hy => (nomatch hy), rfl⟩

end Instance

end RecordQuery
