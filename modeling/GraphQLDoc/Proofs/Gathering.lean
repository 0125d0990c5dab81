import GraphQLDoc.Proofs.Chains
import GraphQLDoc.Proofs.Siblings

/-!
# The fragments of merged fields

Merging moves spreads about in a tree, but it keeps all of them and takes none from elsewhere. So a
merged field needs what the two fields need, and its document can be printed if theirs can.

* `Field.mem_allSpreads`: the names spread in a field are its own and those of its subfields.
* `Field.mem_allSpreads_merge`, `Field.mem_allSpreads_joinAll`: the names spread after a merge.
* `Declarations.needs_gathered`, `Declarations.acyclic_gathered`: what a field needs that spreads
  the names of two others.
* `Field.select_gathers_spreads`: a field with a selection spreads what the field and the selection
  spread on their own, and the same holds of documents.
-/

namespace GraphQLDoc

namespace Field

variable {f g : Field} {n : String}

theorem mem_gatherSpreads {names : List String} {fields : List Field} :
    n ∈ gatherSpreads names fields ↔ n ∈ names ∨ ∃ g ∈ fields, n ∈ g.allSpreads := by
  induction fields generalizing names with
  | nil => simp [gatherSpreads]
  | cons g gs ih => rw [gatherSpreads, ih, mem_addNames, List.exists_mem_cons_iff, or_assoc]

theorem mem_allSpreads :
    n ∈ f.allSpreads ↔ n ∈ f.spreads ∨ ∃ g ∈ f.subfields, n ∈ g.allSpreads := by
  cases f
  exact mem_gatherSpreads

/-- Merging loses no spread and invents none. -/
theorem mem_allSpreads_merge :
    n ∈ (merge f g).allSpreads ↔ n ∈ f.allSpreads ∨ n ∈ g.allSpreads := by
  induction g using Field.induction generalizing f with
  | step g ih =>
    have below : (∃ x ∈ joinAll f.subfields g.subfields, n ∈ x.allSpreads) ↔
        (∃ x ∈ f.subfields, n ∈ x.allSpreads) ∨ ∃ x ∈ g.subfields, n ∈ x.allSpreads :=
      exists_mem_joinAll fun y hy x _ => ih y hy
    rw [mem_allSpreads, spreads_merge, subfields_merge, mem_addNames, below,
      mem_allSpreads (f := f), mem_allSpreads (f := g), or_or_or_comm]

theorem mem_allSpreads_joinAll {fields : List Field} :
    n ∈ { f with subfields := joinAll f.subfields fields }.allSpreads ↔
      n ∈ f.allSpreads ∨ ∃ g ∈ fields, n ∈ g.allSpreads := by
  have below : (∃ x ∈ joinAll f.subfields fields, n ∈ x.allSpreads) ↔
      (∃ x ∈ f.subfields, n ∈ x.allSpreads) ∨ ∃ x ∈ fields, n ∈ x.allSpreads :=
    exists_mem_joinAll fun _ _ _ _ => mem_allSpreads_merge
  rw [mem_allSpreads, below, mem_allSpreads (f := f), or_assoc]

end Field

/-! ## What a merged field needs -/

namespace Declarations

section Gathered

variable {ds : Declarations} {f g r : Field}
  (gathered : ∀ n, n ∈ r.allSpreads ↔ n ∈ f.allSpreads ∨ n ∈ g.allSpreads)

include gathered

theorem needs_gathered (n : String) : ds.Needs r n ↔ ds.Needs f n ∨ ds.Needs g n := by
  simp only [Needs, gathered, or_and_right, exists_or]

theorem acyclic_gathered : ds.Acyclic r ↔ ds.Acyclic f ∧ ds.Acyclic g := by
  simp only [Acyclic, needs_gathered gathered, or_imp, forall_and]

theorem exists_document_gathered (hf : ds.Acyclic f) (hg : ds.Acyclic g) :
    (∃ text, ds.document (.field r) = .ok text) ↔
      (∃ text, ds.document (.field f) = .ok text) ∧ ∃ text, ds.document (.field g) = .ok text := by
  have hr : ds.Acyclic r := (acyclic_gathered gathered).mpr ⟨hf, hg⟩
  rw [exists_document_iff hr, exists_document_iff hf, exists_document_iff hg]
  simp only [Sendable.root, needs_gathered gathered, or_imp, forall_and]

end Gathered

end Declarations

/-! ## Selecting -/

namespace Field

/-- A selection without empty names is taken by a field, and by a new field of the same name. The
first result spreads exactly the fragments that the field spread before or that the second result
spreads, at any depth. If neither of these two needs a fragment that spreads itself, the first
result needs none either, and its document can be printed exactly if the documents of both can. -/
theorem select_gathers_spreads {f : Field} (hf : f.Reachable) {s : Selection}
    (given : "" ∉ s.givenNames) :
    ∃ r g, f.select s = .ok r ∧ (named f.name >>= fun p => p.select s) = .ok g ∧
      (∀ n, n ∈ r.allSpreads ↔ n ∈ f.allSpreads ∨ n ∈ g.allSpreads) ∧
      ∀ ds : Declarations, ds.Acyclic f → ds.Acyclic g → ds.Acyclic r ∧
        ((∃ text, ds.document (.field r) = .ok text) ↔
          (∃ text, ds.document (.field f) = .ok text) ∧
            ∃ text, ds.document (.field g) = .ok text) := by
  have selected : ∀ p : Field,
      p.select s = .ok { p with subfields := joinAll p.subfields s.denoted } := fun p => by
    rw [select_eq, if_neg given]
  have start : (named f.name >>= fun p => p.select s) = (leaf f.name).select s := by
    rw [hf.wellFormed.here.named_eq_ok]
    rfl
  have gathered : ∀ n,
      n ∈ { f with subfields := joinAll f.subfields s.denoted }.allSpreads ↔ n ∈ f.allSpreads ∨
        n ∈ { leaf f.name with subfields := joinAll [] s.denoted }.allSpreads := fun n => by
    have alone : n ∈ { leaf f.name with subfields := joinAll [] s.denoted }.allSpreads ↔
        n ∈ (leaf f.name).allSpreads ∨ ∃ g ∈ s.denoted, n ∈ g.allSpreads := mem_allSpreads_joinAll
    have bare : n ∉ (leaf f.name).allSpreads := List.not_mem_nil
    rw [mem_allSpreads_joinAll, alone, or_iff_right bare]
  exact ⟨_, _, selected f, start.trans (selected _), gathered, fun ds hf hg =>
    ⟨(Declarations.acyclic_gathered gathered).mpr ⟨hf, hg⟩,
      Declarations.exists_document_gathered gathered hf hg⟩⟩

/-- The field `q{child{...Frag}}`. -/
def sampleParent : Field := { leaf "q" with subfields := [Declarations.sampleChild] }

/-- The selection `id,child{...Outer}` with a built field. -/
def sampleAddition : Selection :=
  .several [.leaf "id", .built { leaf "child" with spreads := ["Outer"] }]

theorem select_gathers_spreads_sampleParent :
    sampleParent.Reachable ∧ "" ∉ sampleAddition.givenNames ∧
      ∃ r, sampleParent.select sampleAddition = .ok r ∧
        names r.subfields = ["id", "child"] ∧ "Frag" ∈ r.allSpreads ∧ "Outer" ∈ r.allSpreads ∧
        Declarations.sampleDeclarations.Acyclic r ∧
        ∃ text, Declarations.sampleDeclarations.document (.field r) = .ok text := by
  have spread : (leaf "child").spread ["Frag"] = .ok Declarations.sampleChild := rfl
  have child : ∀ b ∈ (Selection.built Declarations.sampleChild).builtFields, b.Reachable :=
    List.forall_mem_singleton.mpr ((reachable_leaf (by decide)).spread spread)
  have built : (leaf "q").select (.built Declarations.sampleChild) = .ok sampleParent := rfl
  have parent : sampleParent.Reachable := (reachable_leaf (by decide)).select child built
  have given : "" ∉ sampleAddition.givenNames := by decide
  obtain ⟨r, g, hr, hg, spreads, documents⟩ := select_gathers_spreads parent given
  cases hg
  obtain ⟨acyclic, printed⟩ := documents Declarations.sampleDeclarations
    (Declarations.acyclic_sampleDeclarations _) (Declarations.acyclic_sampleDeclarations _)
  refine ⟨parent, given, r, hr, ?_, (spreads _).mpr (.inl (by decide)),
    (spreads _).mpr (.inr (by decide)), acyclic, printed.mpr ⟨⟨_, rfl⟩, ⟨_, rfl⟩⟩⟩
  cases hr
  rfl

end Field

end GraphQLDoc
