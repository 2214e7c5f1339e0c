import Mathlib.Data.List.Forall2

/-!
# Outcomes

When a computation that may fail with an error succeeds: what a sequence, a check or a walk through
a list has done once it is over. Later proofs take operations apart through these names and do not
open `Except` themselves.
-/

namespace RecordQuery.Outcome

universe u v

variable {ε : Type u} {α β : Type v}

theorem bind_eq_ok {x : Except ε α} {f : α → Except ε β} {b : β} :
    x >>= f = .ok b ↔ ∃ a, x = .ok a ∧ f a = .ok b := by
  cases x with
  | error e => simp [bind, Except.bind]
  | ok a => simp [bind, Except.bind]

@[simp] theorem ok_bind {a : α} {f : α → Except ε β} : (Except.ok a : Except ε α) >>= f = f a := rfl

@[simp] theorem pure_eq_ok {a b : α} : (pure a : Except ε α) = .ok b ↔ a = b := by
  simp [pure, Except.pure]

@[simp] theorem throw_ne_ok {e : ε} {a : α} : (throw e : Except ε α) ≠ .ok a := by
  simp [throw, throwThe, MonadExceptOf.throw]

theorem bind_eq_error {x : Except ε α} {f : α → Except ε β} {e : ε} :
    x >>= f = .error e ↔ x = .error e ∨ ∃ a, x = .ok a ∧ f a = .error e := by
  cases x with
  | error e => simp [bind, Except.bind]
  | ok a => simp [bind, Except.bind]

@[simp] theorem pure_ne_error {a : α} {e : ε} : (pure a : Except ε α) ≠ .error e := by
  simp [pure, Except.pure]

theorem exists_error {x : Except ε α} : (∃ e, x = .error e) ↔ ∀ a, x ≠ .ok a := by
  cases x <;> simp

/-- A check lets the rest go on exactly when it finds nothing to refuse. -/
theorem check_eq_ok {c : Prop} [Decidable c] {e : ε} {f : PUnit → Except ε β} {b : β} :
    (if c then throw e >>= f else f ⟨⟩) = .ok b ↔ ¬ c ∧ f ⟨⟩ = .ok b := by
  by_cases hc : c
  · simp [hc, bind_eq_ok]
  · simp [hc]

/-- A result that is given after a check is the one given, and the check has passed. -/
theorem after_eq_ok {x : Except ε PUnit} {b c : β} :
    (x >>= fun _ => pure b) = .ok c ↔ x = .ok ⟨⟩ ∧ c = b := by
  rw [bind_eq_ok]
  simp only [pure_eq_ok, eq_comm (a := b)]
  exact ⟨fun ⟨_, passed, same⟩ => ⟨passed, same⟩, fun ⟨passed, same⟩ => ⟨_, passed, same⟩⟩

/-- A walk through a list succeeds exactly when every step of it does. -/
theorem forM_eq_ok {f : α → Except ε PUnit} {xs : List α} :
    xs.forM f = .ok ⟨⟩ ↔ ∀ x ∈ xs, f x = .ok ⟨⟩ := by
  induction xs with
  | nil => simp [List.forM]
  | cons x xs ih =>
    rw [List.forM, bind_eq_ok]
    constructor
    · rintro ⟨⟨⟩, first, rest⟩ y hy
      rcases List.mem_cons.mp hy with rfl | hy
      · exact first
      · exact ih.mp rest y hy
    · intro all
      refine ⟨⟨⟩, all x List.mem_cons_self, ?_⟩
      exact ih.mpr fun y hy => all y (List.mem_cons_of_mem _ hy)

/-- A place in a list is at its head or behind it. -/
theorem exists_place_cons {P : List α → α → List α → Prop} {x : α} {xs : List α} :
    (∃ before y after, x :: xs = before ++ y :: after ∧ P before y after) ↔
      P [] x xs ∨ ∃ before y after, xs = before ++ y :: after ∧ P (x :: before) y after := by
  constructor
  · rintro ⟨_ | ⟨first, before⟩, y, after, split, here⟩
    · obtain ⟨rfl, rfl⟩ := List.cons.inj split
      exact .inl here
    · obtain ⟨rfl, rfl⟩ := List.cons.inj split
      exact .inr ⟨before, y, after, rfl, here⟩
  · rintro (here | ⟨before, y, after, rfl, later⟩)
    · exact ⟨[], x, xs, rfl, here⟩
    · exact ⟨x :: before, y, after, rfl, later⟩

/-- A walk through a list fails with the error of the first step that fails. -/
theorem forM_eq_error {f : α → Except ε PUnit} {xs : List α} {e : ε} :
    xs.forM f = .error e ↔ ∃ before x after, xs = before ++ x :: after ∧
      (∀ y ∈ before, f y = .ok ⟨⟩) ∧ f x = .error e := by
  induction xs with
  | nil => simp [List.forM]
  | cons x xs ih =>
    rw [List.forM, bind_eq_error, ih, exists_place_cons]
    simp only [List.forall_mem_cons]
    constructor
    · rintro (here | ⟨⟨⟩, first, before, z, after, split, passed, failed⟩)
      · exact .inl ⟨List.forall_mem_nil _, here⟩
      · exact .inr ⟨before, z, after, split, ⟨first, passed⟩, failed⟩
    · rintro (⟨_, here⟩ | ⟨before, z, after, split, ⟨first, passed⟩, failed⟩)
      · exact .inl here
      · exact .inr ⟨⟨⟩, first, before, z, after, split, passed, failed⟩

/-- What holds at the start and is kept by every step holds at the end of a fold. -/
theorem foldlM_invariant {P : β → Prop} {f : β → α → Except ε β} {xs : List α} {b c : β}
    (start : P b) (step : ∀ a ∈ xs, ∀ b c, P b → f b a = .ok c → P c)
    (run : xs.foldlM f b = .ok c) : P c := by
  induction xs generalizing b with
  | nil =>
    simp only [List.foldlM_nil, pure_eq_ok] at run
    exact run ▸ start
  | cons x xs ih =>
    rw [List.foldlM_cons, bind_eq_ok] at run
    obtain ⟨next, first, rest⟩ := run
    refine ih (step x List.mem_cons_self b next start first) ?_ rest
    exact fun a ha => step a (List.mem_cons_of_mem _ ha)

/-- A map over a list succeeds exactly when every element of it does. -/
theorem mapM_eq_ok {f : α → Except ε β} {xs : List α} {ys : List β} :
    xs.mapM f = .ok ys ↔ List.Forall₂ (fun x y => f x = .ok y) xs ys := by
  induction xs generalizing ys with
  | nil =>
    rw [List.mapM_nil, pure_eq_ok, List.forall₂_nil_left_iff]
    exact eq_comm
  | cons x xs ih =>
    rw [List.mapM_cons, bind_eq_ok]
    constructor
    · intro h
      obtain ⟨y, first, run⟩ := h
      obtain ⟨rest, others, run⟩ := bind_eq_ok.mp run
      obtain rfl := pure_eq_ok.mp run
      exact .cons first (ih.mp others)
    · intro h
      rcases h with _ | ⟨first, others⟩
      exact ⟨_, first, bind_eq_ok.mpr ⟨_, ih.mpr others, pure_eq_ok.mpr rfl⟩⟩

theorem mem_of_mapM {f : α → Except ε β} {xs : List α} {ys : List β} {y : β}
    (run : xs.mapM f = .ok ys) (mem : y ∈ ys) : ∃ x ∈ xs, f x = .ok y := by
  have steps := mapM_eq_ok.mp run
  clear run
  induction steps with
  | nil => cases mem
  | cons first _ ih =>
    rcases List.mem_cons.mp mem with rfl | mem
    · exact ⟨_, List.mem_cons_self, first⟩
    · obtain ⟨x, hx, step⟩ := ih mem
      exact ⟨x, List.mem_cons_of_mem _ hx, step⟩

theorem exists_of_mapM {f : α → Except ε β} {xs : List α} {ys : List β} {x : α}
    (run : xs.mapM f = .ok ys) (mem : x ∈ xs) : ∃ y ∈ ys, f x = .ok y := by
  have steps := mapM_eq_ok.mp run
  clear run
  induction steps with
  | nil => cases mem
  | cons first _ ih =>
    rcases List.mem_cons.mp mem with rfl | mem
    · exact ⟨_, List.mem_cons_self, first⟩
    · obtain ⟨y, hy, step⟩ := ih mem
      exact ⟨y, List.mem_cons_of_mem _ hy, step⟩

theorem mapM_ok {f : α → Except ε β} {g : α → β} {xs : List α}
    (all : ∀ x ∈ xs, f x = .ok (g x)) : xs.mapM f = .ok (xs.map g) := by
  rw [mapM_eq_ok, List.forall₂_map_right_iff, List.forall₂_same]
  exact all

theorem mapM_congr {f g : α → Except ε β} {xs : List α} (same : ∀ x ∈ xs, f x = g x) :
    xs.mapM f = xs.mapM g := by
  induction xs with
  | nil => rfl
  | cons x xs ih =>
    rw [List.mapM_cons, List.mapM_cons, same x List.mem_cons_self,
      ih fun y hy => same y (List.mem_cons_of_mem _ hy)]

/-- An error of a map over a list is that of one element. -/
theorem error_of_mapM {f : α → Except ε β} {xs : List α} {e : ε} (run : xs.mapM f = .error e) :
    ∃ x ∈ xs, f x = .error e := by
  induction xs with
  | nil => exact absurd run pure_ne_error
  | cons x xs ih =>
    rw [List.mapM_cons, bind_eq_error] at run
    rcases run with here | ⟨y, _, run⟩
    · exact ⟨x, List.mem_cons_self, here⟩
    · rcases bind_eq_error.mp run with later | ⟨ys, _, done⟩
      · obtain ⟨z, mem, step⟩ := ih later
        exact ⟨z, List.mem_cons_of_mem _ mem, step⟩
      · exact absurd done pure_ne_error

/-- Two maps over a list that give the same at every element give the same, whatever the errors. -/
theorem mapM_agree {f g : α → Except ε β} {xs : List α} {ys : List β}
    (agree : ∀ x ∈ xs, ∀ y, f x = .ok y ↔ g x = .ok y) :
    xs.mapM f = .ok ys ↔ xs.mapM g = .ok ys := by
  rw [mapM_eq_ok, mapM_eq_ok]
  induction xs generalizing ys with
  | nil => simp only [List.forall₂_nil_left_iff]
  | cons x xs ih =>
    simp only [List.forall₂_cons_left_iff, agree x List.mem_cons_self,
      ih fun y hy => agree y (List.mem_cons_of_mem _ hy)]

theorem exists_mapM_eq_ok {f : α → Except ε β} {xs : List α} :
    (∃ ys, xs.mapM f = .ok ys) ↔ ∀ x ∈ xs, ∃ y, f x = .ok y := by
  constructor
  · intro h x mem
    obtain ⟨ys, run⟩ := h
    obtain ⟨y, _, step⟩ := exists_of_mapM run mem
    exact ⟨y, step⟩
  · intro all
    induction xs with
    | nil => exact ⟨[], rfl⟩
    | cons x xs ih =>
      obtain ⟨y, first⟩ := all x List.mem_cons_self
      obtain ⟨ys, others⟩ := ih fun z mem => all z (List.mem_cons_of_mem _ mem)
      exact ⟨y :: ys, mapM_eq_ok.mpr (.cons first (mapM_eq_ok.mp others))⟩

/-- A map over a list fails with the error of the first element that fails. -/
theorem mapM_eq_error {f : α → Except ε β} {xs : List α} {e : ε} :
    xs.mapM f = .error e ↔ ∃ before x after, xs = before ++ x :: after ∧
      (∀ y ∈ before, ∃ z, f y = .ok z) ∧ f x = .error e := by
  induction xs with
  | nil => simp [pure, Except.pure]
  | cons x xs ih =>
    rw [List.mapM_cons, bind_eq_error]
    simp only [bind_eq_error, pure_ne_error, and_false, exists_false, or_false, ih,
      exists_place_cons, List.forall_mem_cons]
    constructor
    · rintro (here | ⟨y, first, before, z, after, split, passed, failed⟩)
      · exact .inl ⟨List.forall_mem_nil _, here⟩
      · exact .inr ⟨before, z, after, split, ⟨⟨y, first⟩, passed⟩, failed⟩
    · rintro (⟨_, here⟩ | ⟨before, z, after, split, ⟨⟨y, first⟩, passed⟩, failed⟩)
      · exact .inl here
      · exact .inr ⟨y, first, before, z, after, split, passed, failed⟩

theorem mapM_zip_congr {f : α → Except ε β} {xs ys : List α} (length : xs.length = ys.length)
    (same : ∀ x y, (x, y) ∈ xs.zip ys → f x = f y) : xs.mapM f = ys.mapM f := by
  have results := List.forall₂_iff_zip.mpr ⟨length, fun mem => same _ _ mem⟩
  clear same length
  induction results with
  | nil => rfl
  | cons first _ ih => rw [List.mapM_cons, List.mapM_cons, first, ih]

end RecordQuery.Outcome
