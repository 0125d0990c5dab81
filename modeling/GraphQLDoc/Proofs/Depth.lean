import GraphQLDoc.Field
import GraphQLDoc.Proofs.Steps
import GraphQLDoc.Selection
import Mathlib.Logic.Relation

/-!
# Properties at every depth

Values, JSON values and fields are trees. What is required of every node of a tree is stated once
for all of them, by the list of what stands directly below a node.

* `Within`, `Everywhere`: standing at any depth of a tree, and holding at every depth of it.
* `Within.exists_related`: trees of one shape, and what stands at the same place of both.
* `tree_induction`: induction from what is below to what is above.
* `mem_preorder_iff`: a list of a tree, depth first, and what stands in the tree.
* `Value.children`, `Json.children`: the values directly inside a value. Those directly below a
  field are its `subfields`.
* `Selection.builtFields`: the fields that a selection takes as they are.
-/

namespace GraphQLDoc

section Trees

variable {α : Type} (children : α → List α)

/-- `y` is `x`, or it stands below `x` at any depth. -/
def Within (y x : α) : Prop := Relation.ReflTransGen (fun a b => b ∈ children a) x y

/-- `p` holds of `x` and of everything below it. -/
def Everywhere (p : α → Prop) (x : α) : Prop := ∀ y, Within children y x → p y

variable {children} {p q : α → Prop} {x : α}

theorem everywhere_iff :
    Everywhere children p x ↔ p x ∧ ∀ y ∈ children x, Everywhere children p y := by
  constructor
  · intro h
    exact ⟨h x .refl, fun y hy z hz => h z (Relation.ReflTransGen.head hy hz)⟩
  · rintro ⟨here, deeper⟩ y hy
    rcases Relation.ReflTransGen.cases_head hy with rfl | ⟨z, hz, hy⟩
    · exact here
    · exact deeper z hz y hy

/-- Something inside a tree is at its top or below it. -/
theorem exists_within_iff :
    (∃ y, Within children y x ∧ p y) ↔ p x ∨ ∃ y ∈ children x, ∃ z, Within children z y ∧ p z := by
  constructor
  · rintro ⟨y, hy, here⟩
    rcases Relation.ReflTransGen.cases_head hy with rfl | ⟨z, hz, hy⟩
    · exact .inl here
    · exact .inr ⟨z, hz, y, hy, here⟩
  · rintro (here | ⟨y, hy, z, hz, deeper⟩)
    · exact ⟨x, .refl, here⟩
    · exact ⟨z, .head hy hz, deeper⟩

theorem everywhere_of_no_children (h : children x = []) : Everywhere children p x ↔ p x := by
  rw [everywhere_iff, h]
  simp

namespace Everywhere

theorem here (h : Everywhere children p x) : p x := h x .refl

theorem of_mem (h : Everywhere children p x) {y : α} (hy : y ∈ children x) :
    Everywhere children p y :=
  (everywhere_iff.mp h).2 y hy

theorem and (hp : Everywhere children p x) (hq : Everywhere children q x) :
    Everywhere children (fun y => p y ∧ q y) x := fun y hy => ⟨hp y hy, hq y hy⟩

theorem imp (h : Everywhere children p x) (hpq : ∀ y, p y → q y) : Everywhere children q x :=
  fun y hy => hpq y (h y hy)

end Everywhere

/-- Two trees that match at the top and, wherever they match, in what is directly below: what stands
in the first one has its match in the second. -/
theorem Within.exists_related {β : Type} {below : β → List β} {R : α → β → Prop} {y : α} {b : β}
    (hy : Within children y x) (step : ∀ a b, R a b → List.Forall₂ R (children a) (below b))
    (h : R x b) : ∃ c, Within below c b ∧ R y c := by
  induction hy with
  | refl => exact ⟨b, .refl, h⟩
  | tail _ hz ih =>
    obtain ⟨c, hc, hr⟩ := ih
    obtain ⟨d, hd, hr⟩ := exists_of_mem_forall₂ (step _ _ hr) hz
    exact ⟨d, hc.tail hd, hr⟩

/-- Induction on trees, where what is below is smaller. -/
theorem tree_induction [SizeOf α] {motive : α → Prop}
    (smaller : ∀ {x y}, y ∈ children x → sizeOf y < sizeOf x)
    (step : ∀ x, (∀ y ∈ children x, motive y) → motive x) (x : α) : motive x :=
  step x fun y _ => tree_induction smaller step y
termination_by sizeOf x
decreasing_by exact smaller ‹_›

/-- A list of what stands in a tree, depth first, holds exactly what stands within it. -/
theorem mem_preorder_iff [SizeOf α] {preorder : α → List α} {y : α}
    (smaller : ∀ {x y}, y ∈ children x → sizeOf y < sizeOf x)
    (depthFirst : ∀ x, preorder x = x :: (children x).flatMap preorder) :
    y ∈ preorder x ↔ Within children y x := by
  induction x using tree_induction smaller with
  | step x ih =>
    have within : Within children y x ↔ y = x ∨ ∃ z ∈ children x, Within children y z := by
      simpa only [exists_eq_right'] using @exists_within_iff _ children (y = ·) x
    rw [depthFirst, List.mem_cons, List.mem_flatMap, within]
    exact or_congr_right (exists_congr fun z => and_congr_right fun hz => ih z hz)

end Trees

theorem sizeOf_lt_of_mem_values {α : Type} [SizeOf α] {entries : Entries α} {x : α}
    (h : x ∈ entries.map Prod.snd) : sizeOf x < sizeOf entries := by
  obtain ⟨⟨key, y⟩, hm, rfl⟩ := List.mem_map.mp h
  have := List.sizeOf_lt_of_mem hm
  simp only [Prod.mk.sizeOf_spec] at *
  omega

/-! ## Values -/

namespace Value

/-- The values directly inside a value. -/
def children : Value → List Value
  | .list items => items
  | .object entries => entries.map Prod.snd
  | _ => []

abbrev Within (w v : Value) : Prop := GraphQLDoc.Within children w v

abbrev Everywhere (p : Value → Prop) (v : Value) : Prop := GraphQLDoc.Everywhere children p v

theorem sizeOf_lt_of_mem_children {v w : Value} (h : w ∈ v.children) : sizeOf w < sizeOf v := by
  cases v with
  | list items =>
    have : sizeOf w < sizeOf items := List.sizeOf_lt_of_mem h
    simp only [list.sizeOf_spec]
    omega
  | object entries =>
    have : sizeOf w < sizeOf entries := sizeOf_lt_of_mem_values h
    simp only [object.sizeOf_spec]
    omega
  | _ => exact absurd h List.not_mem_nil

@[elab_as_elim]
theorem induction {motive : Value → Prop}
    (step : ∀ v, (∀ w ∈ v.children, motive w) → motive v) (v : Value) : motive v :=
  tree_induction sizeOf_lt_of_mem_children step v

end Value

/-! ## JSON values -/

namespace Json

/-- The values directly inside a JSON value. -/
def children : Json → List Json
  | .array items => items
  | .object members => members.map Prod.snd
  | _ => []

abbrev Within (k j : Json) : Prop := GraphQLDoc.Within children k j

abbrev Everywhere (p : Json → Prop) (j : Json) : Prop := GraphQLDoc.Everywhere children p j

theorem sizeOf_lt_of_mem_children {j k : Json} (h : k ∈ j.children) : sizeOf k < sizeOf j := by
  cases j with
  | array items =>
    have : sizeOf k < sizeOf items := List.sizeOf_lt_of_mem h
    simp only [array.sizeOf_spec]
    omega
  | object members =>
    have : sizeOf k < sizeOf members := sizeOf_lt_of_mem_values h
    simp only [object.sizeOf_spec]
    omega
  | _ => exact absurd h List.not_mem_nil

@[elab_as_elim]
theorem induction {motive : Json → Prop}
    (step : ∀ j, (∀ k ∈ j.children, motive k) → motive j) (j : Json) : motive j :=
  tree_induction sizeOf_lt_of_mem_children step j

end Json

/-! ## Fields -/

namespace Field

abbrev Within (g f : Field) : Prop := GraphQLDoc.Within subfields g f

abbrev Everywhere (p : Field → Prop) (f : Field) : Prop := GraphQLDoc.Everywhere subfields p f

theorem sizeOf_lt_of_mem_subfields {f g : Field} (h : g ∈ f.subfields) : sizeOf g < sizeOf f := by
  have := List.sizeOf_lt_of_mem h
  cases f
  simp only [mk.sizeOf_spec] at *
  omega

@[elab_as_elim]
theorem induction {motive : Field → Prop}
    (step : ∀ f, (∀ g ∈ f.subfields, motive g) → motive f) (f : Field) : motive f :=
  tree_induction sizeOf_lt_of_mem_subfields step f

/-- The values of a field's arguments. -/
def values (f : Field) : List Value := f.arguments.map Prod.snd

/-- The names of some fields, in their order. -/
def names (fields : List Field) : List String := fields.map name

@[simp] theorem names_nil : names [] = [] := rfl

@[simp] theorem names_cons (f : Field) (fields : List Field) :
    names (f :: fields) = f.name :: names fields := rfl

@[simp] theorem names_append (fields more : List Field) :
    names (fields ++ more) = names fields ++ names more := List.map_append

end Field

/-! ## Selections -/

namespace Selection

mutual

/-- The fields that a selection takes as they are, at any depth. -/
def builtFields : Selection → List Field
  | .leaf _ => []
  | .several items => builtFieldsOfItems items
  | .under _ s => builtFields s
  | .built f => [f]

/-- The fields that several selections take as they are. -/
def builtFieldsOfItems : List Selection → List Field
  | [] => []
  | s :: rest => builtFields s ++ builtFieldsOfItems rest

end

end Selection

end GraphQLDoc
