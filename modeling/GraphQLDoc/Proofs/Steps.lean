import Mathlib.Data.List.Basic
import Mathlib.Data.List.Forall2

/-!
# Steps that can fail

Building, reading and resolving are steps in `Except`. These lemmas say when a step that is made of
others succeeds, and with which failure it ends.

* `bind_eq_ok`, `bind_eq_error`, `map_eq_ok`, `map_eq_error`: one step after another.
* `mapM_eq_ok_iff`, `mapM_eq_ok`, `mem_of_mapM`, `exists_of_mapM_eq_ok`: the same step for every
  item of a list.
* `exists_of_mem_forall₂`, `exists_mem_iff_of_forall₂`: an item of one list and what it is related
  to in the other.
* `exists_forall₂_iff`, `exists_forall₂_of_comp`: lists that are related to given ones.
* `eq_none_iff_of_rel`, `exists_of_rel_some`: values that may be missing, and what they are related
  to.
* `forall₂_imp_of_mem`, `forall₂_congr_of_mem`, `rel_congr_of_mem`: relations that follow from each
  other for what is there.
* `forall₂_iff_map_eq`, `rel_iff_map_eq`: what has a property and the same image under a function.
* `failure?`: the failure that a step ends with. Of several steps it is the first one
  (`failure?_bind`, `failure?_mapM`).
* `Decides`: the results and the failures of a step, as two predicates.
* `Agree`: two steps with related results, or with the same failure.
-/

namespace GraphQLDoc

variable {ε α β : Type}

/-! ## One step after another -/

theorem bind_eq_ok {x : Except ε α} {f : α → Except ε β} {b : β} :
    x >>= f = .ok b ↔ ∃ a, x = .ok a ∧ f a = .ok b := by
  cases x with
  | error e => exact ⟨fun h => (nomatch h), fun ⟨_, h, _⟩ => (nomatch h)⟩
  | ok a => exact ⟨fun h => ⟨a, rfl, h⟩, fun ⟨_, e, h⟩ => Except.ok.inj e ▸ h⟩

theorem bind_eq_error {x : Except ε α} {f : α → Except ε β} {e : ε} :
    x >>= f = .error e ↔ x = .error e ∨ ∃ a, x = .ok a ∧ f a = .error e := by
  cases x with
  | error d =>
    constructor
    · exact fun h => .inl (congrArg Except.error (Except.error.inj h))
    · rintro (h | ⟨_, h, _⟩)
      · exact congrArg Except.error (Except.error.inj h)
      · exact nomatch h
  | ok a =>
    constructor
    · exact fun h => .inr ⟨a, rfl, h⟩
    · rintro (h | ⟨_, e, h⟩)
      · exact nomatch h
      · exact Except.ok.inj e ▸ h

theorem map_eq_ok {x : Except ε α} {f : α → β} {b : β} :
    x.map f = .ok b ↔ ∃ a, x = .ok a ∧ f a = b := by
  cases x with
  | error e => exact ⟨fun h => (nomatch h), fun ⟨_, h, _⟩ => (nomatch h)⟩
  | ok a => exact ⟨fun h => ⟨a, rfl, Except.ok.inj h⟩, fun ⟨_, e, h⟩ => by rw [e, ← h]; rfl⟩

theorem map_eq_error {x : Except ε α} {f : α → β} {e : ε} :
    x.map f = .error e ↔ x = .error e := by
  cases x with
  | error d =>
    exact ⟨fun h => congrArg _ (Except.error.inj h), fun h => congrArg _ (Except.error.inj h)⟩
  | ok a => exact ⟨fun h => (nomatch h), fun h => (nomatch h)⟩

/-! ## One step for every item -/

theorem exists_of_mem_forall₂ {R : α → β → Prop} {l : List α} {m : List β} {a : α}
    (h : List.Forall₂ R l m) (ha : a ∈ l) : ∃ b ∈ m, R a b := by
  induction h with
  | nil => exact absurd ha List.not_mem_nil
  | cons first _ ih =>
    rcases List.mem_cons.mp ha with rfl | ha
    · exact ⟨_, List.mem_cons_self, first⟩
    · obtain ⟨b, hb, hr⟩ := ih ha
      exact ⟨b, List.mem_cons_of_mem _ hb, hr⟩

/-- An item with a property, found by what the items are related to. -/
theorem exists_mem_iff_of_forall₂ {R : α → β → Prop} {P : α → Prop} {Q : β → Prop} {l : List α}
    {m : List β} (h : List.Forall₂ R l m) (same : ∀ a ∈ l, ∀ b, R a b → (P a ↔ Q b)) :
    (∃ a ∈ l, P a) ↔ ∃ b ∈ m, Q b := by
  induction h with
  | nil => simp
  | cons first _ ih =>
    obtain ⟨here, later⟩ := List.forall_mem_cons.mp same
    rw [List.exists_mem_cons_iff, List.exists_mem_cons_iff, here _ first, ih later]

theorem exists_forall₂_iff {R : α → β → Prop} {l : List α} :
    (∃ m, List.Forall₂ R l m) ↔ ∀ a ∈ l, ∃ b, R a b := by
  constructor
  · rintro ⟨m, h⟩ a ha
    obtain ⟨b, -, hr⟩ := exists_of_mem_forall₂ h ha
    exact ⟨b, hr⟩
  · intro h
    induction l with
    | nil => exact ⟨[], .nil⟩
    | cons x xs ih =>
      obtain ⟨⟨first, hfirst⟩, rest⟩ := List.forall_mem_cons.mp h
      obtain ⟨more, hmore⟩ := ih rest
      exact ⟨first :: more, .cons hfirst hmore⟩

/-- Items of two lists that are related by way of the items of a third one. -/
theorem exists_forall₂_of_comp {γ : Type} {R : α → γ → Prop} {S : β → γ → Prop} {l : List α}
    {m : List β} (h : List.Forall₂ (fun a b => ∃ c, R a c ∧ S b c) l m) :
    ∃ n, List.Forall₂ R l n ∧ List.Forall₂ S m n := by
  induction h with
  | nil => exact ⟨[], .nil, .nil⟩
  | cons first _ ih =>
    obtain ⟨c, hr, hs⟩ := first
    obtain ⟨n, left, right⟩ := ih
    exact ⟨c :: n, .cons hr left, .cons hs right⟩

theorem forall₂_imp_of_mem {R S : α → β → Prop} {l : List α} {m : List β}
    (imp : ∀ a ∈ l, ∀ b ∈ m, R a b → S a b) (h : List.Forall₂ R l m) : List.Forall₂ S l m := by
  induction h with
  | nil => exact .nil
  | cons first _ ih =>
    refine .cons (imp _ List.mem_cons_self _ List.mem_cons_self first) (ih fun a ha b hb => ?_)
    exact imp a (List.mem_cons_of_mem _ ha) b (List.mem_cons_of_mem _ hb)

theorem forall₂_congr_of_mem {R S : α → β → Prop} {l : List α} {m : List β}
    (h : ∀ a ∈ l, ∀ b ∈ m, (R a b ↔ S a b)) : List.Forall₂ R l m ↔ List.Forall₂ S l m :=
  ⟨forall₂_imp_of_mem fun a ha b hb => (h a ha b hb).mp,
    forall₂_imp_of_mem fun a ha b hb => (h a ha b hb).mpr⟩

theorem rel_congr_of_mem {R S : α → β → Prop} {x : Option α} {y : Option β}
    (h : ∀ a ∈ x, ∀ b ∈ y, (R a b ↔ S a b)) : Option.Rel R x y ↔ Option.Rel S x y := by
  cases x with
  | none => cases y <;> simp
  | some a =>
    cases y with
    | none => exact iff_of_false nofun nofun
    | some b => rw [Option.rel_some_some, Option.rel_some_some, h a rfl b rfl]

theorem forall₂_iff_map_eq {p : α → Prop} {f : α → β} {l m : List α} :
    List.Forall₂ (fun a b => p a ∧ p b ∧ f a = f b) l m ↔
      (∀ a ∈ l, p a) ∧ (∀ b ∈ m, p b) ∧ l.map f = m.map f := by
  induction l generalizing m with
  | nil => cases m <;> simp
  | cons a l ih =>
    cases m with
    | nil => simp
    | cons b m =>
      rw [List.forall₂_cons, ih, List.forall_mem_cons, List.forall_mem_cons, List.map_cons,
        List.map_cons, List.cons.injEq]
      grind

theorem rel_iff_map_eq {p : α → Prop} {f : α → β} {x y : Option α} :
    Option.Rel (fun a b => p a ∧ p b ∧ f a = f b) x y ↔
      (∀ a ∈ x, p a) ∧ (∀ b ∈ y, p b) ∧ x.map f = y.map f := by
  cases x <;> cases y <;> simp

theorem rel_or {R : α → β → Prop} {x x' : Option α} {y y' : Option β} (h : Option.Rel R x y)
    (h' : Option.Rel R x' y') : Option.Rel R (x.or x') (y.or y') := by
  cases h with
  | none => exact h'
  | some related => exact .some related

theorem eq_none_iff_of_rel {R : α → β → Prop} {x : Option α} {y : Option β}
    (h : Option.Rel R x y) : x = none ↔ y = none := by
  cases h <;> simp

theorem exists_of_rel_some {R : α → β → Prop} {a : α} {y : Option β}
    (h : Option.Rel R (some a) y) : ∃ b, y = some b ∧ R a b := by
  cases h with
  | some related => exact ⟨_, rfl, related⟩

variable {l : List α} {step other : α → Except ε β}

theorem mapM_congr (h : ∀ x ∈ l, step x = other x) : l.mapM step = l.mapM other := by
  induction l with
  | nil => rfl
  | cons x xs ih =>
    obtain ⟨first, rest⟩ := List.forall_mem_cons.mp h
    rw [List.mapM_cons, List.mapM_cons, first, ih rest]

theorem mapM_eq_ok_iff {results : List β} :
    l.mapM step = .ok results ↔ List.Forall₂ (fun a b => step a = .ok b) l results := by
  induction l generalizing results with
  | nil => exact ⟨fun h => Except.ok.inj h ▸ .nil, fun h => by cases h; rfl⟩
  | cons x xs ih =>
    rw [List.mapM_cons, bind_eq_ok]
    constructor
    · rintro ⟨first, hfirst, h⟩
      obtain ⟨rest, hrest, h⟩ := bind_eq_ok.mp h
      cases h
      exact .cons hfirst (ih.mp hrest)
    · intro h
      cases h with
      | cons hfirst hrest => exact ⟨_, hfirst, bind_eq_ok.mpr ⟨_, ih.mpr hrest, rfl⟩⟩

theorem mem_of_mapM {results : List β} {b : β} (h : l.mapM step = .ok results)
    (hb : b ∈ results) : ∃ a ∈ l, step a = .ok b :=
  exists_of_mem_forall₂ (R := fun b a => step a = .ok b) (mapM_eq_ok_iff.mp h).flip hb

theorem exists_of_mapM_eq_ok {results : List β} (h : l.mapM step = .ok results) :
    ∀ a ∈ l, ∃ b, step a = .ok b :=
  exists_forall₂_iff.mp ⟨results, mapM_eq_ok_iff.mp h⟩

theorem mapM_eq_ok {γ : Type} {items : List γ} (source : γ → α) (result : γ → β)
    (h : ∀ x ∈ items, step (source x) = .ok (result x)) :
    (items.map source).mapM step = .ok (items.map result) := by
  induction items with
  | nil => rfl
  | cons x xs ih =>
    obtain ⟨first, rest⟩ := List.forall_mem_cons.mp h
    rw [List.map_cons, List.mapM_cons, first, ih rest]
    rfl

/-! ## The first failure -/

/-- How a step fails, if it does. -/
def failure? : Except ε α → Option ε
  | .error e => some e
  | .ok _ => none

theorem failure?_eq_some_iff {x : Except ε α} {e : ε} : failure? x = some e ↔ x = .error e := by
  cases x <;> simp [failure?]

theorem failure?_eq_none_iff {x : Except ε α} : failure? x = none ↔ ∃ a, x = .ok a := by
  cases x <;> simp [failure?]

theorem failure?_map (x : Except ε α) (f : α → β) : failure? (x.map f) = failure? x := by
  cases x <;> rfl

theorem failure?_bind_pure (x : Except ε α) (f : α → β) :
    failure? (x >>= fun a => pure (f a)) = failure? x := by
  cases x <;> rfl

/-- A second step can fail only after the first one has succeeded. -/
theorem failure?_bind {x : Except ε α} {f : α → Except ε β} {later : Option ε}
    (h : ∀ a, x = .ok a → failure? (f a) = later) :
    failure? (x >>= f) = (failure? x).or later := by
  cases x with
  | error e => rfl
  | ok a => exact h a rfl

theorem failure?_mapM (l : List α) (step : α → Except ε β) :
    failure? (l.mapM step) = l.findSome? fun a => failure? (step a) := by
  induction l with
  | nil => rfl
  | cons x xs ih =>
    rw [List.mapM_cons, failure?_bind fun b _ => failure?_bind_pure (xs.mapM step) (b :: ·), ih,
      List.findSome?_cons]
    cases failure? (step x) <;> rfl

theorem exists_of_mapM_eq_error {e : ε} (h : l.mapM step = .error e) :
    ∃ a ∈ l, step a = .error e := by
  rw [← failure?_eq_some_iff, failure?_mapM] at h
  obtain ⟨a, ha, failed⟩ := List.exists_of_findSome?_eq_some h
  exact ⟨a, ha, failure?_eq_some_iff.mp failed⟩

theorem findSome?_congr {f g : α → Option β} {l : List α} (h : ∀ x ∈ l, f x = g x) :
    l.findSome? f = l.findSome? g := by
  rw [← List.head?_filterMap, List.filterMap_congr h, List.head?_filterMap]

/-! ## Results and failures -/

/-- The step succeeds with the results in `R` and fails with the errors in `F`. -/
structure Decides (x : Except ε α) (R : α → Prop) (F : ε → Prop) : Prop where
  ok : ∀ a, x = .ok a ↔ R a
  error : ∀ e, x = .error e ↔ F e

theorem Decides.of_total {x : Except ε α} {R : α → Prop} {F : ε → Prop}
    (ok : ∀ a, R a → x = .ok a) (error : ∀ e, F e → x = .error e)
    (total : (∃ a, R a) ∨ ∃ e, F e) : Decides x R F := by
  obtain ⟨a, ha⟩ | ⟨e, he⟩ := total
  · have result := ok a ha
    refine ⟨fun b => ⟨fun h => ?_, ok b⟩, fun e => ⟨fun h => ?_, error e⟩⟩
    · exact Except.ok.inj (result.symm.trans h) ▸ ha
    · exact nomatch result.symm.trans h
  · have result := error e he
    refine ⟨fun a => ⟨fun h => ?_, ok a⟩, fun d => ⟨fun h => ?_, error d⟩⟩
    · exact nomatch result.symm.trans h
    · exact Except.error.inj (result.symm.trans h) ▸ he

/-- The second step decides on what the first one gives, unless that one has failed. -/
theorem Decides.bind {x : Except ε α} {f : α → Except ε β} {R : α → Prop} {F : ε → Prop}
    {S : α → β → Prop} {G : α → ε → Prop} (h : Decides x R F)
    (later : ∀ a, R a → Decides (f a) (S a) (G a)) :
    Decides (x >>= f) (fun b => ∃ a, R a ∧ S a b) fun e => F e ∨ ∃ a, R a ∧ G a e where
  ok b := by
    simp only [bind_eq_ok, h.ok]
    exact exists_congr fun a => and_congr_right fun ha => (later a ha).ok b
  error e := by
    simp only [bind_eq_error, h.ok, h.error]
    exact or_congr_right (exists_congr fun a => and_congr_right fun ha => (later a ha).error e)

theorem Decides.exists_error_iff {x : Except ε α} {R : α → Prop} {F : ε → Prop}
    (h : Decides x R F) : (∃ e, F e) ↔ ∀ a, ¬R a := by
  simp only [← h.ok, ← h.error]
  cases x with
  | error e => exact ⟨fun _ _ ok => (nomatch ok), fun _ => ⟨e, rfl⟩⟩
  | ok a => exact ⟨fun ⟨_, failed⟩ => (nomatch failed), fun none => absurd rfl (none a)⟩

/-! ## Related outcomes -/

/-- Both steps succeed with related results, or both fail in the same way. -/
inductive Agree (R : α → β → Prop) : Except ε α → Except ε β → Prop
  | ok {a : α} {b : β} (related : R a b) : Agree R (.ok a) (.ok b)
  | error (e : ε) : Agree R (.error e) (.error e)

namespace Agree

variable {α' β' : Type} {R : α → β → Prop} {S : α' → β' → Prop} {x : Except ε α} {y : Except ε β}

theorem bind {f : α → Except ε α'} {g : β → Except ε β'} (h : Agree R x y)
    (later : ∀ a b, R a b → Agree S (f a) (g b)) : Agree S (x >>= f) (y >>= g) := by
  cases h with
  | ok related => exact later _ _ related
  | error e => exact .error e

theorem mapM {l : List α} {m : List β} {f : α → Except ε α'} {g : β → Except ε β'}
    (h : List.Forall₂ R l m) (each : ∀ a b, R a b → Agree S (f a) (g b)) :
    Agree (List.Forall₂ S) (l.mapM f) (m.mapM g) := by
  induction h with
  | nil => exact .ok .nil
  | cons first _ ih =>
    rw [List.mapM_cons, List.mapM_cons]
    exact (each _ _ first).bind fun _ _ here => ih.bind fun _ _ later => .ok (.cons here later)

end Agree

end GraphQLDoc
