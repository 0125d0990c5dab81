import GraphQLDoc.Proofs.Depth
import GraphQLDoc.Proofs.Settling

/-!
# How fragments spread

Declarations spread further fragments, so they form a graph with the fragment names as its nodes.
Where it has no cycle, all ways end, and what is missing on one of them is the only reason to fail.

* `Field.nodup_allSpreads`: no name is listed twice among those that a field spreads.
* `Field.SpreadsAlike`: fields that differ in names and arguments only list the same fragments.
* `Declarations.Spreads`, `Declarations.Needs`: the edges of the graph, and the names that can be
  reached from a field.
* `Declarations.Acyclic`: no name that a field needs comes again below itself. `Acyclic.induction`
  goes from the declarations that a field spreads to the field.
* `Declarations.failure?_expand`: what is missing on one level, and below it.
* `Declarations.needs_of_mem_neededWithin`: nothing is listed that is not needed.
* `Declarations.Lacks`: the needed names that are not declared. Only these make the listing fail
  (`neededBy_fails_iff`), and one of them is reported (`neededBy_eq_error`).
* `Declarations.exists_document_iff`: when a document can be printed.
-/

namespace GraphQLDoc

namespace Field

theorem nodup_gatherSpreads {names : List String} (h : names.Nodup) (fields : List Field) :
    (gatherSpreads names fields).Nodup := by
  induction fields generalizing names with
  | nil => exact h
  | cons f fs ih => exact ih (nodup_addNames h f.allSpreads)

theorem allSpreads_eq (f : Field) : f.allSpreads = gatherSpreads f.spreads f.subfields := by
  cases f
  rfl

theorem nodup_allSpreads {f : Field} (h : f.spreads.Nodup) : f.allSpreads.Nodup := by
  rw [allSpreads_eq]
  exact nodup_gatherSpreads h _

theorem gatherSpreads_congr {fields fields' : List Field}
    (h : List.Forall₂ (fun g g' => g.allSpreads = g'.allSpreads) fields fields')
    (names : List String) : gatherSpreads names fields = gatherSpreads names fields' := by
  induction h generalizing names with
  | nil => rfl
  | cons first _ ih => rw [gatherSpreads, gatherSpreads, first, ih]

/-- The fields have one shape, and they spread the same fragments at each place of it. Their names
and arguments may differ. -/
inductive SpreadsAlike : Field → Field → Prop
  | node {f g : Field} (spreads : f.spreads = g.spreads)
    (subfields : List.Forall₂ SpreadsAlike f.subfields g.subfields) : SpreadsAlike f g

theorem SpreadsAlike.allSpreads {f g : Field} (h : SpreadsAlike f g) :
    f.allSpreads = g.allSpreads := by
  induction f using Field.induction generalizing g with
  | step f ih =>
    obtain ⟨spreads, subfields⟩ := h
    have below := forall₂_imp_of_mem (fun x hx _ _ => ih x hx) subfields
    rw [allSpreads_eq, allSpreads_eq, spreads, gatherSpreads_congr below]

end Field

namespace Declarations

variable {ds : Declarations} {f d : Field} {n m : String}

/-- The declaration of the first fragment spreads the second. -/
def Spreads (ds : Declarations) (n m : String) : Prop := ∃ d, ds.get? n = some d ∧ m ∈ d.allSpreads

/-- The field spreads the fragment, directly or through declarations. -/
def Needs (ds : Declarations) (f : Field) (n : String) : Prop :=
  ∃ m ∈ f.allSpreads, Relation.ReflTransGen ds.Spreads m n

/-- No fragment that the field needs spreads itself, directly or through others. -/
def Acyclic (ds : Declarations) (f : Field) : Prop :=
  ∀ n, ds.Needs f n → ¬Relation.TransGen ds.Spreads n n

theorem needs_of_mem (h : n ∈ f.allSpreads) : ds.Needs f n := ⟨n, h, .refl⟩

theorem Needs.of_declaration (hn : n ∈ f.allSpreads) (hd : ds.get? n = some d)
    (h : ds.Needs d m) : ds.Needs f m := by
  obtain ⟨k, hk, through⟩ := h
  exact ⟨n, hn, .head ⟨d, hd, hk⟩ through⟩

/-- What holds of the spread names, and passes on from each name to those that its declaration
spreads, holds of all needed names. -/
theorem Needs.induction {p : String → Prop} (h : ds.Needs f n) (start : ∀ m ∈ f.allSpreads, p m)
    (step : ∀ k m, p k → ds.Spreads k m → p m) : p n := by
  obtain ⟨m, hm, through⟩ := h
  induction through with
  | refl => exact start m hm
  | tail _ hstep ih => exact step _ _ ih hstep

/-- Nothing comes again below itself if all spreads lead to a lower rank. -/
theorem acyclic_of_rank (rank : String → Nat) (h : ∀ n m, ds.Spreads n m → rank m < rank n)
    (f : Field) : ds.Acyclic f := by
  have lower : ∀ n m, Relation.TransGen ds.Spreads n m → rank m < rank n := by
    intro n m through
    induction through with
    | single hstep => exact h _ _ hstep
    | tail _ hstep ih => exact Nat.lt_trans (h _ _ hstep) ih
  exact fun n _ again => Nat.lt_irrefl _ (lower n n again)

theorem Acyclic.declaration (h : ds.Acyclic f) (hn : n ∈ f.allSpreads)
    (hd : ds.get? n = some d) : ds.Acyclic d := fun m hm => h m (.of_declaration hn hd hm)

/-! ## Levels -/

/-- All ways through declarations end on fewer levels than these. -/
def EndsWithin (ds : Declarations) : Nat → Field → Prop
  | 0, _ => False
  | levels + 1, f => ∀ n ∈ f.allSpreads, ∀ d, ds.get? n = some d → ds.EndsWithin levels d

/-- A way that led to the field has used up names. They differ, so no more than are declared can be
used up before the way ends. -/
theorem endsWithin_of_way {levels : Nat} {way : List String} (distinct : way.Nodup)
    (declared : ∀ p ∈ way, p ∈ ds.byName.keys)
    (above : ∀ p ∈ way, ∀ n ∈ f.allSpreads, Relation.TransGen ds.Spreads p n)
    (acyclic : ds.Acyclic f) (room : ds.size < levels + way.length) : ds.EndsWithin levels f := by
  induction levels generalizing f way with
  | zero =>
    have few : way.length ≤ ds.byName.keys.length :=
      (List.subperm_of_subset distinct declared).length_le
    rw [Entries.keys, List.length_map] at few
    rw [size] at room
    omega
  | succ levels ih =>
    intro n hn d hd
    have fresh : n ∉ way := fun again => acyclic n (needs_of_mem hn) (above n again n hn)
    have longer : (n :: way).Nodup := List.nodup_cons.mpr ⟨fresh, distinct⟩
    refine ih longer ?_ ?_ (acyclic.declaration hn hd) ?_
    · exact List.forall_mem_cons.mpr ⟨Entries.mem_keys_of_get? hd, declared⟩
    · refine List.forall_mem_cons.mpr ⟨fun m hm => .single ⟨d, hd, hm⟩, fun p hp m hm => ?_⟩
      exact (above p hp n hn).tail ⟨d, hd, hm⟩
    · rw [List.length_cons]
      omega

theorem Acyclic.endsWithin (h : ds.Acyclic f) : ds.EndsWithin (ds.size + 1) f := by
  have start : ([] : List String).Nodup := List.nodup_nil
  exact endsWithin_of_way start (List.forall_mem_nil _) (List.forall_mem_nil _) h
    (Nat.lt_succ_self _)

/-- What holds of a field if it holds of all declarations that the field spreads, holds of every
field without a cycle below it. -/
@[elab_as_elim]
theorem Acyclic.induction {motive : Field → Prop} (h : ds.Acyclic f)
    (step : ∀ f, ds.Acyclic f →
      (∀ n ∈ f.allSpreads, ∀ d, ds.get? n = some d → motive d) → motive f) : motive f := by
  have all : ∀ levels f, ds.Acyclic f → ds.EndsWithin levels f → motive f := by
    intro levels
    induction levels with
    | zero => exact fun _ _ never => never.elim
    | succ levels ih =>
      exact fun f hf ends => step f hf fun n hn d hd =>
        ih d (hf.declaration hn hd) (ends n hn d hd)
  exact all _ f h h.endsWithin

/-! ## What one level finds -/

theorem failure?_getAll (ds : Declarations) (names : List String) :
    failure? (ds.getAll names) =
      (names.find? fun n => !ds.contains n).map .undeclaredFragment := by
  induction names with
  | nil => rfl
  | cons name names ih =>
    rw [getAll, List.find?_cons, contains]
    cases ds.get? name with
    | none => rfl
    | some d => exact (failure?_bind_pure (ds.getAll names) (d :: ·)).trans ih

theorem declared_of_getAll {names : List String} {declarations : List Field}
    (h : ds.getAll names = .ok declarations) :
    ∀ n ∈ names, ∃ d, ds.get? n = some d := by
  have complete : failure? (ds.getAll names) = none := failure?_eq_none_iff.mpr ⟨_, h⟩
  rw [failure?_getAll, Option.map_eq_none_iff, List.find?_eq_none] at complete
  intro n hn
  have declared := complete n hn
  rw [contains, Bool.not_eq_true, Bool.not_eq_false', Option.isSome_iff_exists] at declared
  exact declared

/-- What a field spreads is looked up before anything is found below it, and then one name follows
the other. -/
theorem failure?_expand (ds : Declarations) (below : Field → Except Error (List Field))
    (f : Field) :
    failure? (ds.expand below f) =
      ((f.allSpreads.find? fun n => !ds.contains n).map .undeclaredFragment).or
        (f.allSpreads.findSome? fun n => (ds.get? n).bind fun d => failure? (below d)) := by
  rw [expand, failure?_bind, failure?_getAll]
  intro declarations found
  rw [failure?_bind_pure, failure?_mapM, eq_filterMap_of_getAll found, ← List.head?_filterMap,
    List.filterMap_filterMap, List.head?_filterMap]
  simp only [failure?_bind_pure]

/-! ## What is listed -/

theorem mem_expand {below : Field → Except Error (List Field)} {listed : List Field}
    (h : ds.expand below f = .ok listed) (hd : d ∈ listed) :
    ∃ n ∈ f.allSpreads, ∃ declaration, ds.get? n = some declaration ∧
      (d = declaration ∨ ∃ needed, below declaration = .ok needed ∧ d ∈ needed) := by
  obtain ⟨declarations, found, h⟩ := bind_eq_ok.mp h
  obtain ⟨parts, hparts, h⟩ := bind_eq_ok.mp h
  cases h
  obtain ⟨part, hpart, hd⟩ := List.mem_flatten.mp hd
  obtain ⟨declaration, hdeclaration, hstep⟩ := mem_of_mapM hparts hpart
  obtain ⟨needed, hneeded, hstep⟩ := bind_eq_ok.mp hstep
  cases hstep
  obtain ⟨n, hn, found⟩ := mem_of_getAll found hdeclaration
  refine ⟨n, hn, declaration, found, (List.mem_cons.mp hd).imp_right fun hd => ?_⟩
  exact ⟨needed, hneeded, hd⟩

/-- Whatever is listed is the declaration of a fragment that the field needs. -/
theorem needs_of_mem_neededWithin {levels : Nat} {listed : List Field}
    (h : ds.neededWithin levels f = .ok listed) (hd : d ∈ listed) :
    ∃ n, ds.Needs f n ∧ ds.get? n = some d := by
  induction levels generalizing f listed with
  | zero => exact nomatch h
  | succ levels ih =>
    rw [neededWithin_succ] at h
    obtain ⟨n, hn, declaration, found, rfl | ⟨needed, hneeded, hd⟩⟩ := mem_expand h hd
    · exact ⟨n, needs_of_mem hn, found⟩
    · obtain ⟨m, needs, hd⟩ := ih hneeded hd
      exact ⟨m, needs.of_declaration hn found, hd⟩

theorem neededBy_of_isLeaf (ds : Declarations) (h : f.isLeaf = true) : ds.neededBy f = .ok [] := by
  obtain ⟨name, arguments, subfields, spreads⟩ := f
  obtain ⟨rfl, rfl⟩ : subfields = [] ∧ spreads = [] := by simpa [Field.isLeaf] using h
  rfl

/-! ## What is missing -/

/-- The field needs the fragment, and it is not declared. -/
def Lacks (ds : Declarations) (f : Field) (n : String) : Prop := ds.Needs f n ∧ ds.get? n = none

theorem needs_iff :
    ds.Needs f n ↔
      n ∈ f.allSpreads ∨ ∃ m ∈ f.allSpreads, ∃ d, ds.get? m = some d ∧ ds.Needs d n := by
  constructor
  · rintro ⟨m, hm, through⟩
    rcases Relation.ReflTransGen.cases_head through with rfl | ⟨k, ⟨d, hd, hk⟩, deeper⟩
    · exact .inl hm
    · exact .inr ⟨m, hm, d, hd, k, hk, deeper⟩
  · rintro (hn | ⟨m, hm, d, hd, deeper⟩)
    · exact needs_of_mem hn
    · exact deeper.of_declaration hm hd

/-- What is missing is spread by the field itself, or it is missing for one of the declarations. -/
theorem expand_eq_error {below : Field → Except Error (List Field)} {e : Error}
    (h : ds.expand below f = .error e) :
    (∃ n ∈ f.allSpreads, ds.get? n = none ∧ e = .undeclaredFragment n) ∨
      ∃ n ∈ f.allSpreads, ∃ d, ds.get? n = some d ∧ below d = .error e := by
  rw [← failure?_eq_some_iff, failure?_expand, Option.or_eq_some_iff] at h
  obtain first | ⟨-, later⟩ := h
  · obtain ⟨n, found, rfl⟩ := Option.map_eq_some_iff.mp first
    have missing := List.find?_some found
    exact .inl ⟨n, List.mem_of_find?_eq_some found, by simpa [contains] using missing, rfl⟩
  · obtain ⟨n, hn, failed⟩ := List.exists_of_findSome?_eq_some later
    obtain ⟨d, hd, failed⟩ := Option.bind_eq_some_iff.mp failed
    exact .inr ⟨n, hn, d, hd, failure?_eq_some_iff.mp failed⟩

theorem declared_of_expand_eq_ok {below : Field → Except Error (List Field)} {listed : List Field}
    (h : ds.expand below f = .ok listed) :
    ∀ n ∈ f.allSpreads, ∃ d needed, ds.get? n = some d ∧ below d = .ok needed := by
  obtain ⟨declarations, found, h⟩ := bind_eq_ok.mp h
  obtain ⟨parts, hparts, -⟩ := bind_eq_ok.mp h
  intro n hn
  obtain ⟨d, declared⟩ := declared_of_getAll found n hn
  have hd : d ∈ declarations := by
    rw [eq_filterMap_of_getAll found]
    exact List.mem_filterMap.mpr ⟨n, hn, declared⟩
  obtain ⟨_, h⟩ := exists_of_mapM_eq_ok hparts d hd
  obtain ⟨needed, hneeded, -⟩ := bind_eq_ok.mp h
  exact ⟨d, needed, declared, hneeded⟩

/-- The only reason to fail is that a needed fragment is not declared. -/
theorem neededBy_eq_error (acyclic : ds.Acyclic f) {e : Error} (h : ds.neededBy f = .error e) :
    ∃ n, ds.Lacks f n ∧ e = .undeclaredFragment n := by
  revert h
  refine acyclic.induction fun f acyclic ih h => ?_
  rw [neededBy_eq] at h
  obtain ⟨n, hn, missing, e⟩ | ⟨n, hn, d, hd, failed⟩ := expand_eq_error h
  · exact ⟨n, ⟨needs_of_mem hn, missing⟩, e⟩
  · obtain ⟨m, ⟨needs, missing⟩, e⟩ := ih n hn d hd failed
    exact ⟨m, ⟨needs.of_declaration hn hd, missing⟩, e⟩

theorem declared_of_neededBy_eq_ok (acyclic : ds.Acyclic f) {needed : List Field}
    (h : ds.neededBy f = .ok needed) (needs : ds.Needs f n) : ∃ d, ds.get? n = some d := by
  suffices all : ∀ needed, ds.neededBy f = .ok needed → ds.Needs f n → ∃ d, ds.get? n = some d from
    all needed h needs
  refine acyclic.induction fun f acyclic ih needed h needs => ?_
  rw [neededBy_eq] at h
  have declared := declared_of_expand_eq_ok h
  obtain hn | ⟨m, hm, d, hd, deeper⟩ := needs_iff.mp needs
  · obtain ⟨d, -, hd, -⟩ := declared n hn
    exact ⟨d, hd⟩
  · obtain ⟨d', listed, hd', found⟩ := declared m hm
    cases Option.some.inj (hd.symm.trans hd')
    exact ih m hm d hd _ found deeper

theorem neededBy_fails_iff (acyclic : ds.Acyclic f) :
    (∃ e, ds.neededBy f = .error e) ↔ ∃ n, ds.Lacks f n := by
  constructor
  · rintro ⟨e, h⟩
    obtain ⟨n, lacks, -⟩ := neededBy_eq_error acyclic h
    exact ⟨n, lacks⟩
  · rintro ⟨n, needs, missing⟩
    cases h : ds.neededBy f with
    | error e => exact ⟨e, rfl⟩
    | ok needed =>
      obtain ⟨d, hd⟩ := declared_of_neededBy_eq_ok acyclic h needs
      exact nomatch missing.symm.trans hd

/-! ## Documents -/

theorem document_eq_ok_iff {x : Sendable} {text : String} :
    ds.document x = .ok text ↔ ∃ declarations, ds.neededBy x.root = .ok declarations ∧
      text = String.ofList (x.chars ++ declarations.flatMap Field.chars) := by
  rw [document, bind_eq_ok]
  refine exists_congr fun declarations => and_congr_right fun _ => ?_
  exact ⟨fun h => (Except.ok.inj h).symm, fun h => congrArg Except.ok h.symm⟩

/-- Where no fragment spreads itself, only a missing declaration keeps a document from print. -/
theorem exists_document_iff {x : Sendable} (acyclic : ds.Acyclic x.root) :
    (∃ text, ds.document x = .ok text) ↔ ∀ n, ds.Needs x.root n → ∃ d, ds.get? n = some d := by
  constructor
  · rintro ⟨text, h⟩ n hn
    obtain ⟨needed, found, -⟩ := document_eq_ok_iff.mp h
    exact declared_of_neededBy_eq_ok acyclic found hn
  · intro declared
    cases found : ds.neededBy x.root with
    | ok needed => exact ⟨_, document_eq_ok_iff.mpr ⟨needed, found, rfl⟩⟩
    | error e =>
      obtain ⟨n, ⟨hn, missing⟩, -⟩ := neededBy_eq_error acyclic found
      obtain ⟨d, hd⟩ := declared n hn
      exact nomatch missing.symm.trans hd

end Declarations

end GraphQLDoc
