import GraphQLDoc.Proofs.FragmentNames
import GraphQLDoc.Proofs.Spreading

/-!
# The order of spreads

The fragments of a field are listed level by level: each subfield drops the names that are repeated
below it, and then the field drops those that its subfields share. What is left is the list of all
spreads from top to bottom, where each name stands at its first occurrence only.

* `Field.preorder`: a field and everything selected below it, depth first.
* `Field.addNames_allSpreads`: names dropped below would have been dropped above.
* `Field.allSpreads_eq_eraseDups`: the fragments of a field, in their order.
* `Field.allSpreads_in_preorder`: all of this, for fields that can be built.
-/

namespace GraphQLDoc

namespace Field

mutual

/-- The field and all fields below it. What stands below a subfield comes before the next one. -/
def preorder : Field → List Field
  | f@⟨_, _, subfields, _⟩ => f :: preorderOfAll subfields

/-- Some siblings and all fields below them. -/
def preorderOfAll : List Field → List Field
  | [] => []
  | f :: fs => preorder f ++ preorderOfAll fs

end

variable {f g : Field} {fields : List Field} {n : String}

theorem preorderOfAll_eq_flatMap (fields : List Field) :
    preorderOfAll fields = fields.flatMap preorder := by
  induction fields with
  | nil => rfl
  | cons f fs ih => rw [preorderOfAll, ih, List.flatMap_cons]

theorem preorder_eq (f : Field) : f.preorder = f :: f.subfields.flatMap preorder := by
  cases f
  rw [preorder, preorderOfAll_eq_flatMap]

theorem mem_preorder : g ∈ f.preorder ↔ g.Within f :=
  mem_preorder_iff sizeOf_lt_of_mem_subfields preorder_eq

/-- The spreads of a field and of the fields below it, each as often as it occurs. -/
theorem flatMap_spreads_preorder (f : Field) :
    f.preorder.flatMap spreads =
      f.spreads ++ f.subfields.flatMap fun g => g.preorder.flatMap spreads := by
  rw [preorder_eq, List.flatMap_cons, List.flatMap_assoc]

/-! ## The names that are left -/

theorem gatherSpreads_eq (listed : ∀ g ∈ fields, ∀ names,
      addNames names g.allSpreads = addNames names (g.preorder.flatMap spreads))
    (names : List String) :
    gatherSpreads names fields =
      addNames names (fields.flatMap fun g => g.preorder.flatMap spreads) := by
  induction fields generalizing names with
  | nil => rfl
  | cons g gs ih =>
    obtain ⟨here, others⟩ := List.forall_mem_cons.mp listed
    rw [gatherSpreads, here, ih others, List.flatMap_cons, addNames_append]

/-- A name that is repeated below a field would be dropped above it as well. So it makes no
difference that each field drops its repetitions first. -/
theorem addNames_allSpreads (f : Field) (names : List String) :
    addNames names f.allSpreads = addNames names (f.preorder.flatMap spreads) := by
  induction f using Field.induction generalizing names with
  | step f ih =>
    rw [allSpreads_eq, gatherSpreads_eq ih, addNames_addNames, flatMap_spreads_preorder,
      addNames_append]

/-- The spreads of the field itself are listed as they are. Below it, repetitions do no harm. -/
theorem allSpreads_eq_eraseDups (h : f.spreads.Nodup) :
    f.allSpreads = (f.preorder.flatMap spreads).eraseDups := by
  rw [allSpreads_eq, gatherSpreads_eq fun g _ => addNames_allSpreads g,
    addNames_eq_eraseDups_append h, flatMap_spreads_preorder]

theorem mem_allSpreads_iff_within :
    n ∈ f.allSpreads ↔ ∃ g : Field, g.Within f ∧ n ∈ g.spreads := by
  have same : n ∈ addNames [] f.allSpreads ↔ n ∈ addNames [] (f.preorder.flatMap spreads) := by
    rw [addNames_allSpreads]
  simp only [mem_addNames, List.not_mem_nil, false_or, List.mem_flatMap, mem_preorder] at same
  exact same

/-- A field that can be built lists the fragments that are spread in it and below, depth first, and
each of them where it occurs first. So no name is listed twice, the names are those that are spread
at any depth, and a field of the same shape with the same spreads lists the same ones, whatever the
names and the arguments are in both. -/
theorem allSpreads_in_preorder (hf : f.Reachable) :
    f.allSpreads = (f.preorder.flatMap spreads).eraseDups ∧ f.allSpreads.Nodup ∧
      (∀ n, n ∈ f.allSpreads ↔ ∃ g : Field, g.Within f ∧ n ∈ g.spreads) ∧
      ∀ g, SpreadsAlike f g → g.allSpreads = f.allSpreads := by
  have distinct := hf.wellFormed.here.spreads
  exact ⟨allSpreads_eq_eraseDups distinct, nodup_allSpreads distinct,
    fun n => mem_allSpreads_iff_within, fun g alike => alike.allSpreads.symm⟩

/-- The field `z{...C}`. -/
def sampleInner : Field := { leaf "z" with spreads := ["C"] }

/-- The field `y{z{...C},...B}`. -/
def sampleMiddle : Field := { leaf "y" with subfields := [sampleInner], spreads := ["B"] }

/-- The field `x{...B,...A}`. -/
def samplePair : Field := { leaf "x" with spreads := ["B", "A"] }

/-- The field `root{x{...B,...A},y{z{...C},...B},...A}`. -/
def sampleNested : Field :=
  { leaf "root" with subfields := [samplePair, sampleMiddle], spreads := ["A"] }

/-- The field `start(first:1){y{...B,...A},x{z{...C},...B},...A}`. -/
def sampleRenamed : Field :=
  { sampleNested with
    name := "start"
    arguments := [("first", .number (.int 1))]
    subfields := [{ samplePair with name := "y" }, { sampleMiddle with name := "x" }] }

theorem reachable_sampleNested : sampleNested.Reachable := by
  have pair : (leaf "x").spread ["B", "A"] = .ok samplePair := rfl
  have inner : (leaf "z").spread ["C"] = .ok sampleInner := rfl
  have built : ∀ b ∈ (Selection.built sampleInner).builtFields, b.Reachable :=
    List.forall_mem_singleton.mpr ((reachable_leaf (by decide)).spread inner)
  have bare : (leaf "y").select (.built sampleInner) = .ok { sampleMiddle with spreads := [] } := rfl
  have middle : ({ sampleMiddle with spreads := [] } : Field).spread ["B"] = .ok sampleMiddle := rfl
  have both : ∀ b ∈ (Selection.several [.built samplePair, .built sampleMiddle]).builtFields,
      b.Reachable :=
    List.forall_mem_cons.mpr ⟨(reachable_leaf (by decide)).spread pair,
      List.forall_mem_singleton.mpr (((reachable_leaf (by decide)).select built bare).spread middle)⟩
  have selected : (leaf "root").select (.several [.built samplePair, .built sampleMiddle]) =
      .ok { sampleNested with spreads := [] } := rfl
  have root : ({ sampleNested with spreads := [] } : Field).spread ["A"] = .ok sampleNested := rfl
  exact ((reachable_leaf (by decide)).select both selected).spread root

theorem allSpreads_in_preorder_sampleNested :
    sampleNested.Reachable ∧
      sampleNested.preorder.flatMap spreads = ["A", "B", "A", "B", "C"] ∧
      sampleNested.allSpreads = ["A", "B", "C"] ∧ "C" ∈ sampleNested.allSpreads ∧
      SpreadsAlike sampleNested sampleRenamed ∧ sampleRenamed.allSpreads = ["A", "B", "C"] := by
  obtain ⟨listed, -, all, renamed⟩ := allSpreads_in_preorder reachable_sampleNested
  have order : sampleNested.preorder.flatMap spreads = ["A", "B", "A", "B", "C"] := by decide
  have names : sampleNested.allSpreads = ["A", "B", "C"] := by
    rw [listed, order]
    decide
  have deep : sampleInner.Within sampleNested :=
    .head (List.mem_cons_of_mem _ List.mem_cons_self) (.single List.mem_cons_self)
  have inner : SpreadsAlike sampleInner sampleInner := .node rfl .nil
  have alike : SpreadsAlike sampleNested sampleRenamed :=
    .node rfl (.cons (.node rfl .nil) (.cons (.node rfl (.cons inner .nil)) .nil))
  exact ⟨reachable_sampleNested, order, names, (all "C").mpr ⟨_, deep, List.mem_cons_self⟩, alike,
    (renamed _ alike).trans names⟩

end Field

end GraphQLDoc
