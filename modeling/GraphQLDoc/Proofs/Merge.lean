import GraphQLDoc.Proofs.Depth
import GraphQLDoc.Proofs.Entries

/-!
# Laws of merging

Siblings whose names differ are a map from names to fields, and adding a field to them is setting
an entry that then moves to the end. Fields that are `Unambiguous` at every depth keep to this, so
their merges are known entry by entry and in order.

* `joinAll_eq`: what several fields make of their new siblings, and in which order.
* `lookup_joinAll`: the same by name.
* `exists_mem_joinAll`: what is found in the siblings after fields have been added to them.
* `everywhere_merge`: what holds at every depth of two fields, and is kept by merging two nodes,
  holds at every depth of their merge.
* `joinAll_joinAll`, `merge_assoc`: merging first what is merged later changes nothing.
-/

namespace GraphQLDoc

namespace Field

/-! ## Siblings by name -/

/-- The first field of a name. -/
def lookup (fields : List Field) (name : String) : Option Field :=
  fields.find? fun f => f.name == name

theorem subfield?_eq_lookup (f : Field) (name : String) :
    f.subfield? name = lookup f.subfields name := rfl

theorem lookup_append (fields more : List Field) (name : String) :
    lookup (fields ++ more) name = (lookup fields name).or (lookup more name) := List.find?_append

theorem lookup_eq_none_iff {fields : List Field} {name : String} :
    lookup fields name = none ↔ name ∉ names fields := by
  simp only [lookup, names, List.find?_eq_none, List.mem_map, beq_iff_eq, not_exists, not_and]

theorem mem_of_lookup {fields : List Field} {name : String} {f : Field}
    (h : lookup fields name = some f) : f ∈ fields := List.mem_of_find?_eq_some h

theorem name_of_lookup {fields : List Field} {name : String} {f : Field}
    (h : lookup fields name = some f) : f.name = name := by
  simpa using List.find?_some h

theorem lookup_of_mem {fields : List Field} (distinct : (names fields).Nodup) {f : Field}
    (h : f ∈ fields) : lookup fields f.name = some f := by
  induction fields with
  | nil => exact absurd h List.not_mem_nil
  | cons g gs ih =>
    obtain ⟨fresh, distinct⟩ := List.nodup_cons.mp distinct
    rcases List.mem_cons.mp h with rfl | h
    · simp [lookup]
    · have hne : g.name ≠ f.name := fun e => fresh (e ▸ List.mem_map_of_mem h)
      simpa [lookup, hne] using ih distinct h

/-- Dropping siblings of other names. -/
theorem lookup_filter {fields : List Field} {p : String → Bool} {name : String}
    (h : p name = true) : lookup (fields.filter fun f => p f.name) name = lookup fields name := by
  unfold lookup
  rw [List.find?_filter]
  congr 1
  funext f
  by_cases hf : f.name = name
  · simp [hf, h]
  · simp [hf]

/-- Changing siblings without renaming them. -/
theorem lookup_map {fields : List Field} {step : Field → Field}
    (h : ∀ f, (step f).name = f.name) (name : String) :
    lookup (fields.map step) name = (lookup fields name).map step := by
  unfold lookup
  rw [List.find?_map]
  congr 2
  funext f
  simp [h]

theorem names_filter (fields : List Field) (p : String → Bool) :
    names (fields.filter fun f => p f.name) = (names fields).filter p := by
  unfold names
  rw [List.filter_map]
  rfl

/-! ## Adding one field -/

/-- The field that stands in place of `g` once it is added to its siblings. -/
def mergeInto (siblings : List Field) (g : Field) : Field :=
  match lookup siblings g.name with
  | some f => merge f g
  | none => g

@[simp] theorem name_mergeInto (siblings : List Field) (g : Field) :
    (mergeInto siblings g).name = g.name := by
  unfold mergeInto
  cases h : lookup siblings g.name with
  | none => rfl
  | some f => exact (name_merge f g).trans (name_of_lookup h)

theorem names_map_mergeInto (siblings fields : List Field) :
    names (fields.map (mergeInto siblings)) = names fields := by
  simp [names]

theorem eraseP_eq_filter {fields : List Field} (distinct : (names fields).Nodup) (name : String) :
    (fields.eraseP fun f => f.name == name) = fields.filter fun f => f.name ≠ name := by
  induction fields with
  | nil => rfl
  | cons f fs ih =>
    obtain ⟨fresh, distinct⟩ := List.nodup_cons.mp distinct
    by_cases h : f.name = name
    · have others : ∀ g ∈ fs, g.name ≠ name := fun g hg e =>
        fresh (h ▸ e ▸ List.mem_map_of_mem hg)
      rw [List.eraseP_cons_of_pos (by simpa using h), List.filter_cons_of_neg (by simpa using h)]
      exact (List.filter_eq_self.mpr fun g hg => by simpa using others g hg).symm
    · rw [List.eraseP_cons_of_neg (by simpa using h), List.filter_cons_of_pos (by simpa using h),
        ih distinct]

theorem join_eq {siblings : List Field} (distinct : (names siblings).Nodup) (g : Field) :
    join siblings g = (siblings.filter fun f => f.name ≠ g.name) ++ [mergeInto siblings g] := by
  unfold join place mergeInto lookup
  cases h : siblings.find? fun f => f.name == g.name with
  | some f => exact congrArg (· ++ _) (eraseP_eq_filter distinct g.name)
  | none =>
    have others : ∀ f ∈ siblings, f.name ≠ g.name := by
      simpa using List.find?_eq_none.mp h
    exact congrArg (· ++ _) (List.filter_eq_self.mpr fun f hf => by simpa using others f hf).symm

theorem names_join {siblings : List Field} (distinct : (names siblings).Nodup) (g : Field) :
    names (join siblings g) = (names siblings).filter (· ≠ g.name) ++ [g.name] := by
  rw [join_eq distinct, names_append, names_filter siblings fun n => n ≠ g.name, names_cons,
    name_mergeInto, names_nil]

theorem nodup_names_join {siblings : List Field} (distinct : (names siblings).Nodup) (g : Field) :
    (names (join siblings g)).Nodup := by
  rw [names_join distinct]
  refine List.nodup_append.mpr ⟨distinct.filter _, by simp, fun n hn m hm => ?_⟩
  rw [List.mem_singleton.mp hm]
  simpa using (List.mem_filter.mp hn).2

theorem lookup_join {siblings : List Field} (distinct : (names siblings).Nodup) (g : Field)
    (name : String) :
    lookup (join siblings g) name =
      if g.name = name then some (mergeInto siblings g) else lookup siblings name := by
  rw [join_eq distinct, lookup_append]
  split
  · next same =>
    have dropped : lookup (siblings.filter fun f => f.name ≠ g.name) name = none := by
      rw [lookup_eq_none_iff, names_filter siblings fun n => n ≠ g.name]
      simp [same]
    rw [dropped, Option.none_or]
    simp [lookup, same]
  · next other =>
    have absent : lookup [mergeInto siblings g] name = none := by
      simpa [lookup_eq_none_iff] using Ne.symm other
    rw [absent, Option.or_none,
      lookup_filter (p := fun n => n ≠ g.name) (by simpa using Ne.symm other)]

/-! ## Adding several fields -/

theorem joinAll_cons (siblings : List Field) (g : Field) (gs : List Field) :
    joinAll siblings (g :: gs) = joinAll (join siblings g) gs := rfl

theorem nodup_names_joinAll {siblings : List Field} (distinct : (names siblings).Nodup)
    (fields : List Field) : (names (joinAll siblings fields)).Nodup := by
  induction fields generalizing siblings with
  | nil => exact distinct
  | cons g gs ih => exact ih (nodup_names_join distinct g)

/-- Siblings that are merged move behind those that are not, in the order of the added fields. -/
theorem joinAll_eq {siblings fields : List Field} (distinct : (names siblings).Nodup)
    (hf : (names fields).Nodup) :
    joinAll siblings fields =
      (siblings.filter fun f => f.name ∉ names fields) ++ fields.map (mergeInto siblings) := by
  induction fields generalizing siblings with
  | nil =>
    rw [joinAll, List.map_nil, List.append_nil]
    exact (List.filter_eq_self.mpr fun _ _ => rfl).symm
  | cons g gs ih =>
    obtain ⟨fresh, rest⟩ : g.name ∉ names gs ∧ (names gs).Nodup := List.nodup_cons.mp hf
    -- `g` is not added again, so it stays behind the siblings that were there.
    have kept : ((join siblings g).filter fun f => f.name ∉ names gs) =
        (siblings.filter fun f => f.name ∉ names (g :: gs)) ++ [mergeInto siblings g] := by
      rw [join_eq distinct, List.filter_append, List.filter_filter]
      congr 1
      · apply List.filter_congr
        intro f _
        simp [not_or, Bool.and_comm]
      · rw [List.filter_cons_of_pos (by simpa using fresh), List.filter_nil]
    have merged : gs.map (mergeInto (join siblings g)) = gs.map (mergeInto siblings) := by
      apply List.map_congr_left
      intro f hf
      have hne : f.name ≠ g.name := fun e => fresh (e ▸ List.mem_map_of_mem hf)
      rw [mergeInto, lookup_join distinct, if_neg (Ne.symm hne), mergeInto]
    rw [joinAll_cons, ih (nodup_names_join distinct g) rest, kept, merged, List.map_cons,
      List.append_assoc, List.singleton_append]

/-- Fields whose names differ are their own siblings. -/
theorem joinAll_nil {fields : List Field} (h : (names fields).Nodup) :
    joinAll [] fields = fields := by
  have none : (names ([] : List Field)).Nodup := List.nodup_nil
  have alone : mergeInto [] = id := rfl
  rw [joinAll_eq none h, alone, List.map_id, List.filter_nil, List.nil_append]

theorem names_joinAll {siblings fields : List Field} (distinct : (names siblings).Nodup)
    (hf : (names fields).Nodup) :
    names (joinAll siblings fields) =
      (names siblings).filter (· ∉ names fields) ++ names fields := by
  rw [joinAll_eq distinct hf, names_append, names_filter siblings fun n => n ∉ names fields,
    names_map_mergeInto]

theorem lookup_joinAll {siblings fields : List Field} (distinct : (names siblings).Nodup)
    (hf : (names fields).Nodup) (name : String) :
    lookup (joinAll siblings fields) name =
      Option.merge merge (lookup siblings name) (lookup fields name) := by
  rw [joinAll_eq distinct hf, lookup_append, lookup_map (name_mergeInto siblings)]
  cases h : lookup fields name with
  | some g =>
    have dropped : lookup (siblings.filter fun f => f.name ∉ names fields) name = none := by
      have listed : name ∈ names fields := name_of_lookup h ▸ List.mem_map_of_mem (mem_of_lookup h)
      rw [lookup_eq_none_iff, names_filter siblings fun n => n ∉ names fields]
      exact fun hm => by simpa [listed] using (List.mem_filter.mp hm).2
    rw [dropped, Option.none_or, Option.map_some, mergeInto, name_of_lookup h]
    cases lookup siblings name <;> rfl
  | none =>
    have absent : decide (name ∉ names fields) = true := by
      simpa using lookup_eq_none_iff.mp h
    rw [lookup_filter (p := fun n => n ∉ names fields) absent, Option.map_none, Option.or_none,
      Option.merge_none_right]

/-! ## Every depth -/

theorem mem_join {siblings : List Field} {g x : Field} (h : x ∈ join siblings g) :
    x ∈ siblings ∨ x = g ∨ ∃ f ∈ siblings, x = merge f g := by
  unfold join place at h
  split at h
  · next f hf =>
    rcases List.mem_append.mp h with h | h
    · exact .inl (List.mem_of_mem_eraseP h)
    · exact .inr (.inr ⟨f, List.mem_of_find?_eq_some hf, List.mem_singleton.mp h⟩)
  · rcases List.mem_append.mp h with h | h
    · exact .inl h
    · exact .inr (.inl (List.mem_singleton.mp h))

theorem forall_mem_joinAll {P : Field → Prop} {siblings fields : List Field}
    (step : ∀ g ∈ fields, ∀ f, P f → P (merge f g)) (hs : ∀ f ∈ siblings, P f)
    (hf : ∀ g ∈ fields, P g) : ∀ x ∈ joinAll siblings fields, P x := by
  induction fields generalizing siblings with
  | nil => exact hs
  | cons g gs ih =>
    refine ih (fun y hy => step y (List.mem_cons_of_mem _ hy)) (fun x hx => ?_)
      fun y hy => hf y (List.mem_cons_of_mem _ hy)
    rcases mem_join hx with hx | rfl | ⟨f, hm, rfl⟩
    · exact hs x hx
    · exact hf _ List.mem_cons_self
    · exact step g List.mem_cons_self f (hs f hm)

/-- A merged field has a property that either of the two fields gives it, so adding fields loses
nothing and invents nothing. -/
theorem exists_mem_join {P : Field → Prop} {siblings : List Field} {g : Field}
    (step : ∀ f, f.name = g.name → (P (merge f g) ↔ P f ∨ P g)) :
    (∃ x ∈ join siblings g, P x) ↔ (∃ x ∈ siblings, P x) ∨ P g := by
  unfold join place
  cases found : siblings.find? fun f => f.name == g.name with
  | none => simp [or_and_right, exists_or]
  | some f =>
    obtain ⟨same, before, after, rfl, others⟩ := List.find?_eq_some_iff_append.mp found
    have dropped : (f :: after).eraseP (fun x => x.name == g.name) = after :=
      List.eraseP_cons_of_pos same
    rw [List.eraseP_append_right _ fun x hx => by simpa using others x hx, dropped]
    simp only [List.mem_append, List.mem_cons, List.not_mem_nil, or_false, or_and_right, exists_or,
      exists_eq_left, step f (beq_iff_eq.mp same)]
    grind

theorem exists_mem_joinAll {P : Field → Prop} {siblings fields : List Field}
    (step : ∀ g ∈ fields, ∀ f, f.name = g.name → (P (merge f g) ↔ P f ∨ P g)) :
    (∃ x ∈ joinAll siblings fields, P x) ↔ (∃ x ∈ siblings, P x) ∨ ∃ x ∈ fields, P x := by
  induction fields generalizing siblings with
  | nil => simp [joinAll]
  | cons g gs ih =>
    obtain ⟨first, rest⟩ := List.forall_mem_cons.mp step
    rw [joinAll_cons, ih rest, exists_mem_join first, List.exists_mem_cons_iff, or_assoc]

section Everywhere

variable {p : Field → Prop} (hp : ∀ f g, p f → p g → p (merge f g))

include hp

/-- A property of single nodes that merging two nodes keeps. -/
theorem everywhere_merge {f g : Field} (hf : f.Everywhere p) (hg : g.Everywhere p) :
    (merge f g).Everywhere p := by
  induction g using Field.induction generalizing f with
  | step g ih =>
    refine everywhere_iff.mpr ⟨hp f g hf.here hg.here, ?_⟩
    rw [subfields_merge]
    refine forall_mem_joinAll (P := Field.Everywhere p) ?_ (fun x hx => hf.of_mem hx)
      fun x hx => hg.of_mem hx
    exact fun y hy x hx => ih y hy hx (hg.of_mem hy)

theorem everywhere_join {siblings : List Field} {g : Field}
    (hs : ∀ f ∈ siblings, f.Everywhere p) (hg : g.Everywhere p) :
    ∀ f ∈ join siblings g, f.Everywhere p := by
  intro x hx
  rcases mem_join hx with hx | rfl | ⟨f, hm, rfl⟩
  · exact hs x hx
  · exact hg
  · exact everywhere_merge hp (hs f hm) hg

theorem everywhere_joinAll {siblings fields : List Field}
    (hs : ∀ f ∈ siblings, f.Everywhere p) (hf : ∀ f ∈ fields, f.Everywhere p) :
    ∀ f ∈ joinAll siblings fields, f.Everywhere p :=
  forall_mem_joinAll (fun g hg _ h => everywhere_merge hp h (hf g hg)) hs hf

end Everywhere

/-! ## Merging in another order -/

/-- Neither the names below the field nor the keys of its arguments are repeated. -/
structure Unambiguous (f : Field) : Prop where
  subfields : (names f.subfields).Nodup
  arguments : (Entries.keys f.arguments).Nodup

theorem merge_eq (f g : Field) :
    merge f g =
      { name := f.name
        arguments := Entries.extend f.arguments g.arguments
        subfields := joinAll f.subfields g.subfields
        spreads := addNames f.spreads g.spreads } := by
  cases g
  rfl

theorem Unambiguous.merge {f g : Field} (hf : f.Unambiguous) : (Field.merge f g).Unambiguous := by
  rw [merge_eq]
  exact ⟨nodup_names_joinAll hf.subfields _, Entries.nodup_keys_extend hf.arguments _⟩

/-- A field that is merged into the upper siblings first, and with them into the lower ones. -/
theorem mergeInto_mergeInto {lower upper : List Field} {g : Field}
    (hl : (names lower).Nodup) (hu : (names upper).Nodup)
    (assoc : ∀ f₁ ∈ lower, ∀ f₂ ∈ upper, merge (merge f₁ f₂) g = merge f₁ (merge f₂ g)) :
    mergeInto lower (mergeInto upper g) = mergeInto (joinAll lower upper) g := by
  rw [mergeInto, name_mergeInto, mergeInto, mergeInto, lookup_joinAll hl hu]
  cases h₁ : lookup lower g.name with
  | none => cases lookup upper g.name <;> rfl
  | some f₁ =>
    cases h₂ : lookup upper g.name with
    | none => rfl
    | some f₂ => exact (assoc f₁ (mem_of_lookup h₁) f₂ (mem_of_lookup h₂)).symm

theorem joinAll_join {lower upper : List Field} {g : Field}
    (hl : (names lower).Nodup) (hu : (names upper).Nodup)
    (assoc : ∀ f₁ ∈ lower, ∀ f₂ ∈ upper, merge (merge f₁ f₂) g = merge f₁ (merge f₂ g)) :
    joinAll lower (join upper g) = join (joinAll lower upper) g := by
  rw [joinAll_eq hl (nodup_names_join hu g), join_eq (nodup_names_joinAll hl upper),
    joinAll_eq hl hu, join_eq hu, names_append, names_filter upper fun n => n ≠ g.name,
    List.map_append, List.map_singleton, mergeInto_mergeInto hl hu assoc, joinAll_eq hl hu,
    List.filter_append, ← List.append_assoc]
  congr 2
  · rw [List.filter_filter]
    apply List.filter_congr
    intro f _
    by_cases h : f.name = g.name <;> simp [h]
  · rw [List.filter_map]
    congr 2
    funext f
    simp

/-- Fields may be merged among themselves before they are added. -/
theorem joinAll_joinAll {lower upper fields : List Field} (hl : (names lower).Nodup)
    (hu : (names upper).Nodup) (eu : ∀ f ∈ upper, f.Everywhere Unambiguous)
    (ef : ∀ f ∈ fields, f.Everywhere Unambiguous)
    (assoc : ∀ g ∈ fields, ∀ f₁ ∈ lower, ∀ f₂ : Field, f₂.Everywhere Unambiguous →
      merge (merge f₁ f₂) g = merge f₁ (merge f₂ g)) :
    joinAll lower (joinAll upper fields) = joinAll (joinAll lower upper) fields := by
  induction fields generalizing upper with
  | nil => rfl
  | cons g gs ih =>
    have eg : g.Everywhere Unambiguous := ef g List.mem_cons_self
    have above : ∀ f ∈ join upper g, f.Everywhere Unambiguous :=
      everywhere_join (fun _ _ h _ => h.merge) eu eg
    rw [joinAll_cons, ih (nodup_names_join hu g) above
      (fun f hf => ef f (List.mem_cons_of_mem _ hf))
      fun f hf => assoc f (List.mem_cons_of_mem _ hf), joinAll_cons]
    rw [joinAll_join hl hu fun f₁ h₁ f₂ h₂ => assoc g List.mem_cons_self f₁ h₁ f₂ (eu f₂ h₂)]

/-- Merging is associative, in contents and in order. -/
theorem merge_assoc {f g h : Field} (hf : f.Everywhere Unambiguous)
    (hg : g.Everywhere Unambiguous) (hh : h.Everywhere Unambiguous) :
    merge (merge f g) h = merge f (merge g h) := by
  induction h using Field.induction generalizing f g with
  | step h ih =>
    have below : joinAll (joinAll f.subfields g.subfields) h.subfields =
        joinAll f.subfields (joinAll g.subfields h.subfields) := by
      refine (joinAll_joinAll hf.here.subfields hg.here.subfields (fun _ hx => hg.of_mem hx)
        (fun _ hx => hh.of_mem hx) fun x hx f₁ h₁ f₂ e₂ => ?_).symm
      exact ih x hx (hf.of_mem h₁) e₂ (hh.of_mem hx)
    rw [merge_eq (merge f g) h, merge_eq f (merge g h), name_merge, arguments_merge,
      arguments_merge, subfields_merge, subfields_merge, spreads_merge, spreads_merge, below,
      Entries.extend_extend _ hg.here.arguments, addNames_addNames]

end Field

end GraphQLDoc
