import RecordQuery.Proofs.Loading.Fields
import RecordQuery.Proofs.Query.Selection

/-!
# The walk through a statement

A statement is walked depth first: the selected columns of a query come before what its joins add. A
single-valued join is walked through where it stands. At a one-to-many join the walk stops, as
another statement begins there.
-/

namespace RecordQuery

/-- What the walk meets, with the joins that lead to it: a column, or a one-to-many join. -/
inductive Visit where
  | column (path : List (Join Query)) (f : Field)
  | source (path : List (Join Query)) (j : Join Query)

namespace Visit

def isColumn : Visit → Bool
  | column _ _ => true
  | source _ _ => false

def under (j : Join Query) : Visit → Visit
  | column path f => column (j :: path) f
  | source path k => source (j :: path) k

/-- The joins that lead to the query that it belongs to. -/
def path : Visit → List (Join Query)
  | column path _ => path
  | source path _ => path

/-- It is a selected column or a one-to-many join of the query. -/
def BelongsTo (q : Query) : Visit → Prop
  | column _ f => f ∈ q.selected
  | source _ j => j ∈ q.joins ∧ j.attr.isMany = true

/-- The fields that lead to it. -/
def place : Visit → List String
  | column path f => path.map Join.field ++ [f.name]
  | source path j => path.map Join.field ++ [j.field]

/-- What stands in the select list for it, after the names of a path. -/
def item (names : List String) : Visit → Fragment
  | column path f => .path (names ++ path.map (·.attr.externalName) ++ [f.attr.externalName])
  | source path j =>
    let here := names ++ path.map (·.attr.externalName) ++ [j.attr.externalName]
    (Query.statementFrom (.path here) j.query).parens

variable {q : Query} {j k : Join Query} {v w : Visit} {names : List String}
  {path : List (Join Query)}

@[simp] theorem isColumn_under : (v.under j).isColumn = v.isColumn := by cases v <;> rfl

@[simp] theorem path_under : (v.under j).path = j :: v.path := by cases v <;> rfl

@[simp] theorem belongsTo_under : (v.under j).BelongsTo q ↔ v.BelongsTo q := by cases v <;> rfl

@[simp] theorem place_under : (v.under j).place = j.field :: v.place := by cases v <;> rfl

theorem item_under : (v.under j).item names = v.item (names ++ [j.attr.externalName]) := by
  cases v <;> simp [under, item]

theorem under_inj (same : v.under j = w.under k) : v = w ∧ j = k := by
  cases v <;> cases w <;> simp_all [under]

theorem exists_under (along : v.path = j :: path) : ∃ w : Visit, v = w.under j ∧ w.path = path := by
  cases v with
  | column _ f =>
    obtain rfl := along
    exact ⟨.column path f, rfl, rfl⟩
  | source _ k =>
    obtain rfl := along
    exact ⟨.source path k, rfl, rfl⟩

end Visit

namespace Query

mutual

def walk : Query → List Visit
  | ⟨root, columns, joins, _, _, _, _, _⟩ =>
    (fieldsOf root columns).map (.column []) ++ walkJoins joins

def walkJoins : List (Join Query) → List Visit
  | [] => []
  | ⟨field, attr, query⟩ :: rest =>
    let j : Join Query := ⟨field, attr, query⟩
    (if attr.isMany then [.source [] j] else (walk query).map (Visit.under j)) ++ walkJoins rest

end

def walkJoin (j : Join Query) : List Visit :=
  if j.attr.isMany then [.source [] j] else j.query.walk.map (Visit.under j)

/-- The query is reached over these joins, one inside the other. -/
def At (q : Query) : List (Join Query) → Query → Prop
  | [], sub => sub = q
  | j :: path, sub => j ∈ q.joins ∧ At j.query path sub

/-- The joins stay in the statement that they start in. -/
def Stays (path : List (Join Query)) : Prop := ∀ j ∈ path, j.attr.isMany = false

/-- A statement begins where the joins lead. -/
def Opens (path : List (Join Query)) : Prop := ∀ j ∈ path.getLast?, j.attr.isMany = true

variable {q s sub : Query} {j : Join Query} {f : Field} {v : Visit} {names : List String}
  {path inner outer : List (Join Query)} {joins : List (Join Query)}

theorem walkJoins_eq (joins : List (Join Query)) : walkJoins joins = joins.flatMap walkJoin := by
  induction joins with
  | nil => rw [walkJoins, List.flatMap_nil]
  | cons j rest ih => rw [walkJoins, List.flatMap_cons, ih, walkJoin]

theorem walk_eq (q : Query) :
    q.walk = q.selected.map (.column []) ++ q.joins.flatMap walkJoin := by
  obtain ⟨root, columns, joins, filter, order, limit, offset, count⟩ := q
  rw [walk, walkJoins_eq]
  rfl

/-! ### What is met -/

theorem mem_walkJoin : v ∈ walkJoin j ↔ j.attr.isMany = true ∧ v = .source [] j ∨
    j.attr.isMany = false ∧ ∃ w ∈ j.query.walk, w.under j = v := by
  rw [walkJoin]
  cases j.attr.isMany <;> simp

/-- A visit belongs to the query itself, or is one of a single-valued join. -/
theorem mem_walk : v ∈ q.walk ↔ v.path = [] ∧ v.BelongsTo q ∨
    ∃ j ∈ q.joins, j.attr.isMany = false ∧ ∃ w ∈ j.query.walk, w.under j = v := by
  rw [walk_eq]
  simp only [List.mem_append, List.mem_map, List.mem_flatMap, mem_walkJoin, and_or_left, exists_or,
    ← or_assoc]
  refine or_congr_left ?_
  cases v with
  | column path f =>
    simp only [Visit.column.injEq, reduceCtorEq, and_false, exists_false, or_false]
    constructor
    · rintro ⟨_, mem, rfl, rfl⟩
      exact ⟨rfl, mem⟩
    · rintro ⟨rfl, mem⟩
      exact ⟨f, mem, rfl, rfl⟩
  | source path j =>
    simp only [reduceCtorEq, and_false, exists_false, false_or, Visit.source.injEq]
    constructor
    · rintro ⟨_, mem, many, rfl, rfl⟩
      exact ⟨rfl, mem, many⟩
    · rintro ⟨rfl, mem, many⟩
      exact ⟨j, mem, many, rfl, rfl⟩

@[simp] theorem stays_cons : Stays (j :: path) ↔ j.attr.isMany = false ∧ Stays path :=
  List.forall_mem_cons

/-- The walk meets exactly what belongs to the queries that stay in the statement. -/
theorem mem_walk_iff : v ∈ q.walk ↔ ∃ sub, q.At v.path sub ∧ Stays v.path ∧ v.BelongsTo sub := by
  generalize along : v.path = path
  induction path generalizing q v with
  | nil =>
    rw [mem_walk]
    constructor
    · rintro (⟨_, here⟩ | ⟨j, _, _, w, _, rfl⟩)
      · exact ⟨q, rfl, List.forall_mem_nil _, here⟩
      · rw [Visit.path_under] at along
        cases along
    · rintro ⟨_, rfl, _, here⟩
      exact .inl ⟨along, here⟩
  | cons j path ih =>
    obtain ⟨w, rfl, inner⟩ := Visit.exists_under along
    simp only [At, stays_cons, Visit.belongsTo_under]
    rw [mem_walk]
    constructor
    · rintro (⟨none, _⟩ | ⟨k, joined, single, u, inside, same⟩)
      · rw [along] at none
        cases none
      · obtain ⟨rfl, rfl⟩ := Visit.under_inj same
        obtain ⟨sub, below, stays, here⟩ := (ih inner).mp inside
        exact ⟨sub, ⟨joined, below⟩, ⟨single, stays⟩, here⟩
    · rintro ⟨sub, ⟨joined, below⟩, ⟨single, stays⟩, here⟩
      exact .inr ⟨j, joined, single, w, (ih inner).mpr ⟨sub, below, stays, here⟩, rfl⟩

/-! ### Once only -/

theorem Consistent.reads_names_nodup (here : q.Consistent) : (q.reads.map Field.name).Nodup := by
  have names := here.built.valid _ q.root.mem
  refine List.Nodup.map_on (fun f hf g hg => ?_) ?_
  · exact names.eq_of_name (here.reads_fields hf) (here.reads_fields hg)
  · refine List.nodup_append.mpr ⟨here.selected_nodup, ?_, ?_⟩
    · refine .of_map Field.name ?_
      rw [List.map_map]
      exact here.joins_distinct
    · intro f selected g joined same
      obtain ⟨j, mem, rfl⟩ := List.mem_map.mp joined
      exact here.join_unselected mem (same ▸ selected)

theorem places_walkJoin_head {place : List String} (mem : place ∈ (walkJoin j).map Visit.place) :
    place.head? = some j.field := by
  obtain ⟨v, met, rfl⟩ := List.mem_map.mp mem
  rw [walkJoin] at met
  split at met
  · rw [List.mem_singleton.mp met]
    rfl
  · obtain ⟨w, _, rfl⟩ := List.mem_map.mp met
    rw [Visit.place_under]
    rfl

/-- The walk meets nothing twice: no two visits are at the end of the same fields. -/
theorem WellFormed.places_nodup (h : q.WellFormed) : (q.walk.map Visit.place).Nodup := by
  induction h with
  | @intro q here _ ih =>
    -- The first field of a place is that of a column or of a join, and these all differ.
    have names := here.reads_names_nodup
    rw [reads, List.map_append, List.map_map, List.nodup_append] at names
    obtain ⟨columns, joins, apart⟩ := names
    rw [walk_eq, List.map_append, List.map_map, List.map_flatMap, List.nodup_append]
    refine ⟨?_, ?_, ?_⟩
    · have single : Visit.place ∘ .column [] = (fun name => [name]) ∘ Field.name := rfl
      rw [single, ← List.map_map]
      exact columns.map List.singleton_injective
    · rw [List.nodup_flatMap]
      refine ⟨fun j mem => ?_, ?_⟩
      · rw [walkJoin]
        split
        · exact List.nodup_singleton _
        · have heads : Visit.place ∘ Visit.under j = List.cons j.field ∘ Visit.place :=
            funext fun v => Visit.place_under
          rw [List.map_map, heads, ← List.map_map]
          exact (ih j mem).map List.cons_injective
      · refine (List.pairwise_map.mp joins).imp fun different => ?_
        intro place left right
        have same := (places_walkJoin_head left).symm.trans (places_walkJoin_head right)
        exact different (Option.some.inj same)
    · intro a left b right same
      obtain ⟨f, mem, rfl⟩ := List.mem_map.mp left
      obtain ⟨j, joined, inside⟩ := List.mem_flatMap.mp right
      have head := places_walkJoin_head inside
      rw [← same] at head
      exact apart _ (List.mem_map_of_mem mem) _ (List.mem_map_of_mem joined) (Option.some.inj head)

/-! ### The select list -/

theorem projectJoins_eq (names : List String) (joins : List (Join Query)) :
    projectJoins names joins =
      ⟨joins.flatMap fun j =>
          if j.attr.isMany then [] else (project (names ++ [j.attr.externalName]) j.query).columns,
        joins.flatMap fun j =>
          let here := names ++ [j.attr.externalName]
          if j.attr.isMany then [Fragment.parens (statementFrom (.path here) j.query)]
          else (project here j.query).subselects⟩ := by
  induction joins with
  | nil => rw [projectJoins, List.flatMap_nil, List.flatMap_nil]
  | cons j rest ih =>
    obtain ⟨field, attr, query⟩ := j
    rw [projectJoins, ih, Projection.append, List.flatMap_cons, List.flatMap_cons]
    cases attr.isMany <;> rfl

/-- The plain columns and the subselects of a select list are those that the walk meets, each kind
in the order of the walk. -/
theorem WellFormed.project_walk (h : q.WellFormed) : ∀ names : List String, project names q =
    ⟨(q.walk.filter Visit.isColumn).map (Visit.item names),
      (q.walk.filter (!·.isColumn)).map (Visit.item names)⟩ := by
  induction h with
  | @intro q _ _ ih =>
    intro names
    have columns (j) (mem : j ∈ q.joins) :
        (if j.attr.isMany then [] else (project (names ++ [j.attr.externalName]) j.query).columns) =
          ((walkJoin j).filter Visit.isColumn).map (Visit.item names) := by
      rw [walkJoin]
      cases j.attr.isMany with
      | true => rfl
      | false =>
        simp [ih j mem, List.filter_map, Function.comp_def, Visit.item_under]
    have subselects (j) (mem : j ∈ q.joins) :
        (if j.attr.isMany then
          [Fragment.parens (statementFrom (.path (names ++ [j.attr.externalName])) j.query)]
        else (project (names ++ [j.attr.externalName]) j.query).subselects) =
          ((walkJoin j).filter (!·.isColumn)).map (Visit.item names) := by
      rw [walkJoin]
      cases j.attr.isMany with
      | true => simp [Visit.isColumn, Visit.item]
      | false =>
        simp [ih j mem, List.filter_map, Function.comp_def, Visit.item_under]
    rw [project_eq, projectJoins_eq, Projection.append, walk_eq]
    simp only [List.flatMap_congr columns, List.flatMap_congr subselects]
    simp [List.filter_append, List.filter_flatMap, List.map_flatMap, List.filter_map,
      Function.comp_def, Visit.isColumn, Visit.item, columnItems]

end Query

end RecordQuery
