import RecordQuery.Query.Statement
import RecordQuery.Proofs.Text.Quoting
import RecordQuery.Proofs.Sample

/-!
# String operands stay inside their quotes

Two statements that differ in one string operand are the same text up to its opening quote and from
its closing quote on. This holds for the text of fragments that differ in one literal, and the
fragments of two such queries do.
-/

namespace RecordQuery

/-! ### Fragments that differ in one string -/

/-- The one fragment has the string `s` where the other has `t`. -/
def Fragment.Differ (s t : String) (f g : Fragment) : Prop :=
  ∃ before after : Fragment, f = before ++ .literal (.string s) :: after ∧
    g = before ++ .literal (.string t) :: after

namespace Fragment

variable {s t : String} {f g : Fragment}

theorem differ_literal (s t : String) :
    Differ s t [.literal (.string s)] [.literal (.string t)] := ⟨[], [], rfl, rfl⟩

theorem Differ.behind (h : Differ s t f g) (left : Fragment) :
    Differ s t (left ++ f) (left ++ g) := by
  obtain ⟨before, after, rfl, rfl⟩ := h
  exact ⟨left ++ before, after, by simp, by simp⟩

theorem Differ.before (h : Differ s t f g) (right : Fragment) :
    Differ s t (f ++ right) (g ++ right) := by
  obtain ⟨before, after, rfl, rfl⟩ := h
  exact ⟨before, after ++ right, by simp, by simp⟩

theorem Differ.cons (h : Differ s t f g) (c : Chunk) : Differ s t (c :: f) (c :: g) := h.behind [c]

theorem Differ.parens (h : Differ s t f g) : Differ s t f.parens g.parens :=
  (h.cons .leftParen).before [.rightParen]

theorem Differ.parensIf (h : Differ s t f g) (needed : Bool) :
    Differ s t (f.parensIf needed) (g.parensIf needed) := by
  cases needed with
  | false => exact h
  | true => exact h.parens

theorem Differ.separated (h : Differ s t f g) (separator : Chunk) (left right : List Fragment) :
    Differ s t (separated separator (left ++ f :: right))
      (separated separator (left ++ g :: right)) := by
  induction left with
  | nil =>
    cases right with
    | nil => exact h
    | cons next rest => exact h.before _
  | cons first left ih =>
    cases left with
    | nil => exact (ih.cons separator).behind first
    | cons second left => exact (ih.cons separator).behind first

end Fragment

/-! ### Their text -/

namespace Chunk

theorem spaced_literal_left (v w : Value) (c : Chunk) :
    (literal v).spaced c = (literal w).spaced c := by
  cases c with
  | token t =>
    cases t with
    | punctuation p => cases p <;> rfl
    | keyword => rfl
    | relation => rfl
  | _ => rfl

theorem spaced_literal_right (v w : Value) (c : Chunk) :
    c.spaced (literal v) = c.spaced (literal w) := by
  cases c with
  | token t =>
    cases t with
    | punctuation p => cases p <;> rfl
    | keyword => rfl
    | relation => rfl
  | _ => rfl

end Chunk

namespace Fragment

theorem write_cons (c d : Chunk) (rest : Fragment) :
    (write (c :: d :: rest)).toList =
      c.text.toList ++ ((if c.spaced d then " " else "").toList ++ (write (d :: rest)).toList) := by
  rw [write, String.toList_append, String.toList_append, List.append_assoc]

theorem toList_text_literal (v : Value) : (Chunk.literal v).text.toList = v.literalText :=
  String.toList_ofList

/-- The text on both sides of a literal does not depend on it. -/
theorem write_around (before after : Fragment) : ∃ left right : List Char, ∀ v : Value,
    (write (before ++ .literal v :: after)).toList = left ++ v.literalText ++ right := by
  induction before with
  | nil =>
    cases after with
    | nil => exact ⟨[], [], fun v => by simp [write, toList_text_literal]⟩
    | cons next rest =>
      refine ⟨[], (if (Chunk.literal .null).spaced next then " " else "").toList ++
        (write (next :: rest)).toList, fun v => ?_⟩
      rw [List.nil_append, write_cons, toList_text_literal, Chunk.spaced_literal_left v .null]
      rfl
  | cons first before ih =>
    obtain ⟨left, right, written⟩ := ih
    cases before with
    | nil =>
      refine ⟨first.text.toList ++ ((if first.spaced (.literal .null) then " " else "").toList ++
        left), right, fun v => ?_⟩
      have inner := written v
      rw [List.nil_append] at inner
      rw [List.cons_append, List.nil_append, write_cons, inner,
        Chunk.spaced_literal_right v .null]
      simp only [List.append_assoc]
    | cons second before =>
      refine ⟨first.text.toList ++ ((if first.spaced second then " " else "").toList ++ left),
        right, fun v => ?_⟩
      have inner := written v
      rw [List.cons_append] at inner
      rw [List.cons_append, List.cons_append, write_cons, inner]
      simp only [List.append_assoc]

/-- The texts agree up to the opening quote and from the closing quote on. -/
theorem Differ.write {s t : String} {f g : Fragment} (h : Differ s t f g) :
    ∃ left right : List Char,
      f.write.toList = left ++ Text.Quoted.quote s.toList ++ right ∧
        g.write.toList = left ++ Text.Quoted.quote t.toList ++ right := by
  obtain ⟨before, after, rfl, rfl⟩ := h
  obtain ⟨left, right, written⟩ := write_around before after
  exact ⟨left, right, written (.string s), written (.string t)⟩

end Fragment

/-! ### Conditions that differ in one string -/

mutual

inductive Condition.Differ (s t : String) : Condition → Condition → Prop
  | operand {path : AttributePath} {comparator : Comparator} {a b : Operand}
      (inner : Operand.Differ s t a b) :
      Condition.Differ s t (.compare path comparator a) (.compare path comparator b)
  | child {kind : Junction} {left right : List Condition} {c d : Condition}
      (inner : Condition.Differ s t c d) :
      Condition.Differ s t (.junction kind (left ++ c :: right))
        (.junction kind (left ++ d :: right))
  | not {c d : Condition} (inner : Condition.Differ s t c d) : Condition.Differ s t (.not c) (.not d)

inductive Operand.Differ (s t : String) : Operand → Operand → Prop
  | literal : Operand.Differ s t (.literal (.string s)) (.literal (.string t))
  | element {left right : List Value} :
      Operand.Differ s t (.list (left ++ .string s :: right)) (.list (left ++ .string t :: right))
  | subquery {column : AttributePath} {chosen : Bool} {c d : Condition}
      (inner : Condition.Differ s t c d) :
      Operand.Differ s t (.subquery (.selecting column chosen (some c)))
        (.subquery (.selecting column chosen (some d)))

end

mutual

/-- The string is one that the statement of the query shows: a joined query adds its own filter to
the statement when it is read as a list, and a counting query has no joins in its statement. -/
inductive Query.Differ (s t : String) : Query → Query → Prop
  | filter {q : Query} {c d : Condition} (inner : Condition.Differ s t c d) :
      Query.Differ s t { q with filter := some c } { q with filter := some d }
  | joins {q : Query} {js ks : List (Join Query)} (listing : q.count = false)
      (inner : Query.JoinsDiffer s t js ks) :
      Query.Differ s t { q with joins := js } { q with joins := ks }

inductive Query.JoinsDiffer (s t : String) : List (Join Query) → List (Join Query) → Prop
  | many {left right : List (Join Query)} {field : String} {attr : Attribute} {q r : Query}
      (many : attr.isMany = true) (inner : Query.Differ s t q r) :
      Query.JoinsDiffer s t (left ++ ⟨field, attr, q⟩ :: right) (left ++ ⟨field, attr, r⟩ :: right)
  | single {left right : List (Join Query)} {field : String} {attr : Attribute} {q : Query}
      {js ks : List (Join Query)} (single : attr.isMany = false)
      (inner : Query.JoinsDiffer s t js ks) :
      Query.JoinsDiffer s t (left ++ ⟨field, attr, { q with joins := js }⟩ :: right)
        (left ++ ⟨field, attr, { q with joins := ks }⟩ :: right)

end

/-! ### Their fragments differ in that string -/

section

variable {s t : String}

theorem Condition.Differ.isJunction {c d : Condition} (h : Condition.Differ s t c d) :
    c.isJunction = d.isJunction := by
  cases h <;> rfl

theorem Condition.Differ.isComparison {c d : Condition} (h : Condition.Differ s t c d) :
    c.isComparison = d.isComparison := by
  cases h <;> rfl

theorem Condition.parts_append (left right : List Condition) :
    Condition.parts (left ++ right) = Condition.parts left ++ Condition.parts right := by
  induction left with
  | nil => rfl
  | cons c left ih => simp only [List.cons_append, Condition.parts, ih]

mutual

theorem Condition.Differ.fragment : ∀ {c d : Condition}, Condition.Differ s t c d →
    Fragment.Differ s t c.fragment d.fragment
  | _, _, .operand inner => inner.fragment.behind _
  | _, _, .child inner => by
    simp only [Condition.fragment, Condition.parts_append, Condition.parts, inner.isJunction]
    exact (inner.fragment.parensIf _).separated _ _ _
  | _, _, .not inner => by
    simp only [Condition.fragment, inner.isComparison]
    exact (inner.fragment.parensIf _).cons _

theorem Operand.Differ.fragment : ∀ {a b : Operand}, Operand.Differ s t a b →
    Fragment.Differ s t a.fragment b.fragment
  | _, _, .literal => Fragment.differ_literal s t
  | _, _, .element => by
    simp only [Operand.fragment, Fragment.values, List.map_append, List.map_cons]
    exact ((Fragment.differ_literal s t).separated _ _ _).parens
  | _, _, .subquery inner => ((inner.fragment.cons _).behind _).parens

end

/-- The two lists of items differ in one subselect, in which the strings stand. -/
def Query.Projection.Differ (s t : String) (p r : Query.Projection) : Prop :=
  p.columns = r.columns ∧ ∃ (left right : List Fragment) (f g : Fragment),
    p.subselects = left ++ f :: right ∧ r.subselects = left ++ g :: right ∧ Fragment.Differ s t f g

namespace Query

theorem Projection.Differ.behind {p r : Projection} (h : p.Differ s t r) (q : Projection) :
    (q.append p).Differ s t (q.append r) := by
  obtain ⟨columns, left, right, f, g, hp, hr, differ⟩ := h
  refine ⟨?_, q.subselects ++ left, right, f, g, ?_, ?_, differ⟩
  · simp only [Projection.append, columns]
  · simp only [Projection.append, hp, List.append_assoc]
  · simp only [Projection.append, hr, List.append_assoc]

theorem Projection.Differ.before {p r : Projection} (h : p.Differ s t r) (q : Projection) :
    (p.append q).Differ s t (r.append q) := by
  obtain ⟨columns, left, right, f, g, hp, hr, differ⟩ := h
  refine ⟨?_, left, right ++ q.subselects, f, g, ?_, ?_, differ⟩
  · simp only [Projection.append, columns]
  · simp only [Projection.append, hp, List.append_assoc, List.cons_append]
  · simp only [Projection.append, hr, List.append_assoc, List.cons_append]

theorem Projection.Differ.fragment {p r : Projection} (h : p.Differ s t r) :
    Fragment.Differ s t p.fragment r.fragment := by
  obtain ⟨columns, left, right, f, g, hp, hr, differ⟩ := h
  simp only [Projection.fragment, columns, hp, hr, ← List.append_assoc]
  exact differ.separated _ _ _

theorem Projection.append_assoc (p q r : Projection) :
    (p.append q).append r = p.append (q.append r) := by
  simp only [Projection.append, List.append_assoc]

theorem projectJoins_append (path : List String) (left right : List (Join Query)) :
    projectJoins path (left ++ right) =
      (projectJoins path left).append (projectJoins path right) := by
  induction left with
  | nil => simp only [List.nil_append, projectJoins, Projection.append]
  | cons j left ih =>
    obtain ⟨field, attr, query⟩ := j
    simp only [List.cons_append, projectJoins, ih, Projection.append_assoc]

/-- The clauses after the source differ where their conditions do. -/
theorem clauses_differ {c d : Condition} (inner : Condition.Differ s t c d) (order : List SortKey)
    (limit offset : Option Nat) :
    Fragment.Differ s t (clauses (some c) order limit offset)
      (clauses (some d) order limit offset) :=
  (((inner.fragment.cons _).before _).before _).before _

mutual

theorem Differ.statementFrom : ∀ {q r : Query}, Query.Differ s t q r → ∀ source : Fragment,
    Fragment.Differ s t (q.statementFrom source) (r.statementFrom source)
  | _, _, .filter (q := q) inner, source => by
    rw [Query.statementFrom, Query.statementFrom]
    exact (clauses_differ inner q.order q.limit q.offset).behind _
  | _, _, .joins (q := q) listing inner, source => by
    have items := (inner.projectJoins [q.root.objectName]).behind
      ⟨columnItems [q.root.objectName] (fieldsOf q.root q.columns), []⟩
    simp only [Query.statementFrom, listing]
    exact ((items.fragment.cons _).before _).before _

theorem JoinsDiffer.projectJoins : ∀ {js ks : List (Join Query)}, Query.JoinsDiffer s t js ks →
    ∀ path : List String, (Query.projectJoins path js).Differ s t (Query.projectJoins path ks)
  | _, _, @JoinsDiffer.many _ _ _ _ _ attr q r many inner, path => by
    let source := Fragment.path (path ++ [attr.externalName])
    have subselect : Projection.Differ s t ⟨[], [(q.statementFrom source).parens]⟩
        ⟨[], [(r.statementFrom source).parens]⟩ :=
      ⟨rfl, [], [], _, _, rfl, rfl, (inner.statementFrom source).parens⟩
    simp only [projectJoins_append, Query.projectJoins, many, if_true]
    exact (subselect.before _).behind _
  | _, _, @JoinsDiffer.single _ _ _ _ _ attr q _ _ single inner, path => by
    have differ := (inner.projectJoins (path ++ [attr.externalName])).behind
      ⟨columnItems (path ++ [attr.externalName]) (fieldsOf q.root q.columns), []⟩
    simp only [projectJoins_append, Query.projectJoins, single]
    exact (differ.before _).behind _

end

theorem Differ.root {q r : Query} (h : Query.Differ s t q r) : q.root = r.root := by
  cases h <;> rfl

theorem Differ.text {q r : Query} (h : Query.Differ s t q r) :
    ∃ left right : List Char, q.text.toList = left ++ Text.Quoted.quote s.toList ++ right ∧
      r.text.toList = left ++ Text.Quoted.quote t.toList ++ right := by
  have fragments := h.statementFrom [.name q.root.objectName]
  have same : r.fragment = r.statementFrom [.name q.root.objectName] := by
    rw [h.root, Query.fragment]
  rw [Query.text, Query.text, same]
  exact fragments.write

end Query

end

/-- A quoted string is read to its closing quote and no further, whatever it holds and whatever
follows, and what is read stands for the string again. So different strings are quoted differently,
and statements that differ in one string operand differ between the quotes of that operand only. -/
theorem Query.operand_quoted :
    (∀ s t : List Char, Text.Quoted.read? (Text.Quoted.quote s ++ t) =
        some (Text.Quoted.encode s, t) ∧
      Text.Quoted.decode (Text.Quoted.encode s) = some s) ∧
    Function.Injective Text.Quoted.quote ∧
    ∀ {s t : String} {q r : Query}, Query.Differ s t q r → ∃ left right : List Char,
      q.text.toList = left ++ Text.Quoted.quote s.toList ++ right ∧
        r.text.toList = left ++ Text.Quoted.quote t.toList ++ right :=
  ⟨fun s t => ⟨Text.Quoted.read?_quote s t, Text.Quoted.decode_encode s⟩,
    Text.Quoted.quote_injective, fun differ => differ.text⟩

theorem Query.operand_quoted_nested :
    Query.Differ "u1" "it's" (Sample.accountsWithNamed "u1") (Sample.accountsWithNamed "it's") ∧
      ∃ left right : List Char,
        (Sample.accountsWithNamed "u1").text.toList =
          left ++ Text.Quoted.quote "u1".toList ++ right ∧
        (Sample.accountsWithNamed "it's").text.toList =
          left ++ Text.Quoted.quote "it's".toList ++ right := by
  have differ : Query.Differ "u1" "it's" (Sample.accountsWithNamed "u1")
      (Sample.accountsWithNamed "it's") :=
    .joins rfl (@Query.JoinsDiffer.many _ _ [] [] _ _ _ _ rfl (.filter (.operand .literal)))
  exact ⟨differ, Query.operand_quoted.2.2 differ⟩

end RecordQuery
