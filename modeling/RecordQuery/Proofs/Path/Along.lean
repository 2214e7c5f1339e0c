import RecordQuery.Proofs.Path.Walked

/-!
# Paths along field names

A path can be made by following field names from a model, one relationship after another. Where the
hops of a path are declared relationships, following their fields gives back the hops.
-/

namespace RecordQuery

namespace Model

/-- The scalar field at the end of relationships that are followed one after another. -/
def attributeAlong (m : Model) : List String → String → Except Error AttributePath
  | [], field => m.attributeAt field
  | first :: rest, field => do
    let start ← m.relationAt first
    let path ← rest.foldlM RelationPath.relationAt start
    path.attributeAt field

/-- The relationship at the end of others that are followed one after another. -/
def relationAlong (m : Model) : List String → String → Except Error RelationPath
  | [], field => m.relationAt field
  | first :: rest, field => do
    let start ← m.relationAt first
    let path ← rest.foldlM RelationPath.relationAt start
    path.relationAt field

/-- The relationship is declared with the names and the arity of the hop. -/
structure Declares (m : Model) (hop : Hop) (target : Model) : Prop where
  attr : ∃ a, m.attr hop.field = .ok a ∧ a.isRelation = true ∧
    hop = ⟨hop.field, a.externalName, a.isMany⟩
  related : m.related hop.field = .ok target

/-- Every hop is declared by the model that the hops before it lead to. -/
inductive Leads : Model → List Hop → Model → Prop
  | here {m : Model} : Leads m [] m
  | cross {m next target : Model} {hop : Hop} {hops : List Hop} (declared : m.Declares hop next)
      (onward : Leads next hops target) : Leads m (hop :: hops) target

variable {m root target target' owner : Model} {hop hop' : Hop} {hops hops' parents : List Hop}
  {field : String} {p : RelationPath}

theorem Declares.through (h : m.Declares hop target) :
    RelationPath.through root parents m hop.field = .ok ⟨root, parents, hop, target⟩ := by
  obtain ⟨⟨a, declared, relation, same⟩, related⟩ := h
  rw [RelationPath.through, declared, Outcome.ok_bind, relation, related]
  simp only [Bool.not_true, Bool.false_eq_true, if_false, Outcome.ok_bind, ← same]
  rfl

/-- One field declares one relationship. -/
theorem Declares.unique (h : m.Declares hop target) (h' : m.Declares hop' target')
    (same : hop.field = hop'.field) : hop = hop' ∧ target = target' := by
  obtain ⟨⟨a, declared, _, names⟩, related⟩ := h
  obtain ⟨⟨b, declared', _, names'⟩, related'⟩ := h'
  rw [same, declared'] at declared
  obtain rfl := Except.ok.inj declared
  rw [same, related'] at related
  refine ⟨?_, (Except.ok.inj related).symm⟩
  rw [names, names', same]

/-- The fields determine where declared relationships lead. -/
theorem Leads.unique (h : m.Leads hops target) (h' : m.Leads hops' target')
    (same : hops.map Hop.field = hops'.map Hop.field) : target = target' := by
  induction h generalizing hops' with
  | here =>
    obtain rfl := List.map_eq_nil_iff.mp same.symm
    cases h'
    rfl
  | cross declared _ ih =>
    cases h' with
    | here => cases same
    | cross declared' onward' =>
      obtain ⟨first, rest⟩ := List.cons.inj same
      obtain ⟨_, rfl⟩ := declared.unique declared' first
      exact ih onward' rest

theorem Leads.append (h : m.Leads parents owner) (onward : owner.Leads hops target) :
    m.Leads (parents ++ hops) target := by
  induction h with
  | here => exact onward
  | cross declared _ ih => exact .cross declared (ih onward)

theorem Leads.foldlM (h : p.target.Leads hops owner) :
    ∃ path, (hops.map Hop.field).foldlM RelationPath.relationAt p = .ok path ∧
      path.root = p.root ∧ path.hops = p.hops ++ hops ∧ path.target = owner := by
  generalize start : p.target = m at h
  induction h generalizing p with
  | here => exact ⟨p, rfl, rfl, (List.append_nil _).symm, start⟩
  | @cross m next target hop hops declared _ ih =>
    have step : p.relationAt hop.field = .ok ⟨p.root, p.hops, hop, next⟩ := by
      rw [RelationPath.relationAt, start]
      exact declared.through
    obtain ⟨path, run, root, inner, target⟩ := ih (p := ⟨p.root, p.hops, hop, next⟩) rfl
    refine ⟨path, ?_, root, ?_, target⟩
    · rw [List.map_cons, List.foldlM_cons, step, Outcome.ok_bind, run]
    · rw [inner, RelationPath.hops, List.append_assoc]
      rfl

/-- The fields of declared hops lead to the end of the hops, on which what comes next is put. -/
theorem Leads.attributeAlong (h : m.Leads hops owner) :
    m.attributeAlong (hops.map Hop.field) field = AttributePath.through m hops owner field := by
  cases h with
  | here => rfl
  | cross declared onward =>
    obtain ⟨path, run, root, inner, rfl⟩ := onward.foldlM (p := ⟨m, [], _, _⟩)
    rw [List.map_cons, Model.attributeAlong, relationAt, declared.through, Outcome.ok_bind, run,
      Outcome.ok_bind, RelationPath.attributeAt, root, inner]
    rfl

theorem Leads.relationAlong (h : m.Leads hops owner) :
    m.relationAlong (hops.map Hop.field) field = RelationPath.through m hops owner field := by
  cases h with
  | here => rfl
  | cross declared onward =>
    obtain ⟨path, run, root, inner, rfl⟩ := onward.foldlM (p := ⟨m, [], _, _⟩)
    rw [List.map_cons, Model.relationAlong, relationAt, declared.through, Outcome.ok_bind, run,
      Outcome.ok_bind, RelationPath.relationAt, root, inner]
    rfl

end Model

namespace RelationPath

variable {p : RelationPath}

/-- A path is told apart by where it starts, its hops and where it leads. -/
theorem eq_of_hops {q : RelationPath} (root : p.root = q.root) (hops : p.hops = q.hops)
    (target : p.target = q.target) : p = q := by
  obtain ⟨parents, last⟩ := List.append_inj' hops rfl
  cases p
  cases q
  cases last
  simp_all

/-- A path goes on over a declared relationship. -/
theorem through_eq_ok {root owner : Model} {parents : List Hop} {field : String} :
    through root parents owner field = .ok p ↔
      p.root = root ∧ p.parents = parents ∧ p.last.field = field ∧
        owner.Declares p.last p.target := by
  constructor
  · intro h
    rw [through, Outcome.bind_eq_ok] at h
    obtain ⟨a, declared, h⟩ := h
    obtain ⟨relation, h⟩ := Outcome.check_eq_ok.mp h
    obtain ⟨target, related, h⟩ := Outcome.bind_eq_ok.mp h
    obtain rfl := Outcome.pure_eq_ok.mp h
    exact ⟨rfl, rfl, rfl, ⟨a, declared, by simpa using relation, rfl⟩, related⟩
  · rintro ⟨rfl, rfl, rfl, declared⟩
    exact declared.through

/-- The hops of a walked path are declared relationships, each of the model before it. -/
theorem Walked.declares (walked : p.Walked) :
    ∃ owner, p.root.Leads p.parents owner ∧ owner.Declares p.last p.target := by
  induction walked with
  | @start m field p _ step =>
    obtain ⟨root, parents, _, declared⟩ := through_eq_ok.mp step
    refine ⟨m, ?_, declared⟩
    rw [root, parents]
    exact .here
  | @onward p next field _ step ih =>
    obtain ⟨owner, leads, last⟩ := ih
    obtain ⟨root, parents, _, declared⟩ := through_eq_ok.mp step
    refine ⟨p.target, ?_, declared⟩
    rw [root, parents, hops]
    exact leads.append (.cross last .here)

theorem Walked.leads (walked : p.Walked) : p.root.Leads p.hops p.target := by
  obtain ⟨owner, leads, last⟩ := walked.declares
  exact leads.append (.cross last .here)

end RelationPath

end RecordQuery
