import GraphQLDoc.Field

/-!
# Merging fields

Fields of one name are one selection, so adding a field to its siblings merges it with the sibling
of its name. The merged field stands last.

* `Field.merge`: one field merged onto another of the same name. Arguments are overlaid, fragments
  are added, and subfields are added one by one in the same way.
* `Field.join`: a field added to its siblings. `Field.joinAll` adds several, one after the other.
-/

namespace GraphQLDoc

namespace Field

/-- The siblings with a field added, where `onto` merges it onto the sibling of its name. -/
def place (siblings : List Field) (g : Field) (onto : Field → Field) : List Field :=
  match siblings.find? fun f => f.name == g.name with
  | some f => siblings.eraseP (fun f => f.name == g.name) ++ [onto f]
  | none => siblings ++ [g]

mutual

/-- The second field merged onto the first. -/
def merge (f : Field) : Field → Field
  | ⟨_, arguments, subfields, spreads⟩ =>
    { name := f.name
      arguments := Entries.extend f.arguments arguments
      subfields := joinAll f.subfields subfields
      spreads := addNames f.spreads spreads }

/-- The siblings with several fields added. -/
def joinAll (siblings : List Field) : List Field → List Field
  | [] => siblings
  | g :: gs => joinAll (place siblings g fun f => merge f g) gs

end

/-- The siblings with one field added. -/
def join (siblings : List Field) (g : Field) : List Field := place siblings g fun f => merge f g

theorem joinAll_eq_foldl (siblings fields : List Field) :
    joinAll siblings fields = fields.foldl join siblings := by
  induction fields generalizing siblings with
  | nil => rw [joinAll, List.foldl_nil]
  | cons g gs ih => rw [joinAll, ih, List.foldl_cons, join]

theorem joinAll_append (siblings first second : List Field) :
    joinAll siblings (first ++ second) = joinAll (joinAll siblings first) second := by
  simp only [joinAll_eq_foldl, List.foldl_append]

@[simp] theorem name_merge (f g : Field) : (merge f g).name = f.name := by
  cases g
  rfl

theorem arguments_merge (f g : Field) :
    (merge f g).arguments = Entries.extend f.arguments g.arguments := by
  cases g
  rfl

theorem subfields_merge (f g : Field) :
    (merge f g).subfields = joinAll f.subfields g.subfields := by
  cases g
  rfl

theorem spreads_merge (f g : Field) : (merge f g).spreads = addNames f.spreads g.spreads := by
  cases g
  rfl

end Field

end GraphQLDoc
