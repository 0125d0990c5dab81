import GraphQLDoc.Proofs.Chains
import GraphQLDoc.Proofs.Collapsing

/-!
# Declarations that matter

A document depends on the declarations that are needed, and of these only on the last one of each
name. How they came to be declared plays no role.

* `Declarations.Change`, `Declarations.ofChanges`: the ways to declare fragments, and what a history
  of them leads to.
* `Declarations.stored`: what a history stores, in order. `Declarations.get?_ofChanges`: the last
  declaration of a name counts, whichever way it was stored.
* `Declarations.neededWithin_congr`: declarations that agree on the needed names list the same.
* `Declarations.SameFor`: declarations that cannot be told apart by what is sent.
* `Declarations.same_of_last_needed`: histories that agree on the last declarations of needed names.
-/

namespace GraphQLDoc

namespace Declarations

/-! ## Histories -/

/-- One way to declare fragments. -/
inductive Change where
  /-- One declaration more. -/
  | insert (name : String) (declaration : Field)
  /-- Several declarations more, one after the other. -/
  | extend (entries : List (String × Field))
  /-- New declarations in place of all that were there. -/
  | ofList (entries : List (String × Field))

/-- The declarations after a change. -/
def Change.apply (ds : Declarations) : Change → Declarations
  | .insert name declaration => ds.insert name declaration
  | .extend entries => ds.extend entries
  | .ofList entries => Declarations.ofList entries

/-- The declarations after several changes, starting with none. -/
def ofChanges (history : List Change) : Declarations := history.foldl Change.apply empty

/-- What is stored after a change, replaced declarations included, if `earlier` was before. -/
def Change.stored (earlier : List (String × Field)) : Change → List (String × Field)
  | .insert name declaration => earlier ++ [(name, declaration)]
  | .extend entries => earlier ++ entries
  | .ofList entries => entries

/-- All that several changes store, in order and with what is replaced later. -/
def stored (history : List Change) : List (String × Field) := history.foldl Change.stored []

theorem byName_extend (ds : Declarations) (entries : List (String × Field)) :
    (ds.extend entries).byName = ds.byName.extend entries := by
  induction entries generalizing ds with
  | nil => rfl
  | cons entry entries ih => exact ih (ds.insert entry.1 entry.2)

/-- However a declaration is stored, it is put in the place of older ones. -/
theorem byName_apply {ds : Declarations} {earlier : List (String × Field)}
    (h : ds.byName = Entries.ofList earlier) (change : Change) :
    (change.apply ds).byName = Entries.ofList (change.stored earlier) := by
  cases change with
  | insert name declaration =>
    rw [Change.apply, Change.stored, insert, h, Entries.ofList, Entries.ofList,
      Entries.extend_append]
    rfl
  | extend entries =>
    rw [Change.apply, Change.stored, byName_extend, h, Entries.ofList, Entries.ofList,
      Entries.extend_append]
  | ofList entries => exact byName_extend empty entries

theorem byName_ofChanges (history : List Change) :
    (ofChanges history).byName = Entries.ofList (stored history) := by
  have run : ∀ (ds : Declarations) (earlier : List (String × Field)),
      ds.byName = Entries.ofList earlier →
        (history.foldl Change.apply ds).byName =
          Entries.ofList (history.foldl Change.stored earlier) := by
    induction history with
    | nil => exact fun _ _ h => h
    | cons change history ih => exact fun ds earlier h => ih _ _ (byName_apply h change)
  exact run empty [] rfl

/-- The last declaration of a name counts. -/
theorem get?_ofChanges (history : List Change) (n : String) :
    (ofChanges history).get? n = Entries.lastOf? (stored history) n := by
  rw [get?, byName_ofChanges]
  exact (Entries.collapses_ofList (stored history)).values n

/-! ## Agreement on what is needed -/

variable {ds ds' : Declarations} {f : Field} {n m : String}

/-- Both declare the names that the field needs in the same way. -/
def AgreeBelow (ds ds' : Declarations) (f : Field) : Prop :=
  ∀ n, ds.Needs f n → ds'.get? n = ds.get? n

theorem Spreads.congr (h : ds'.get? n = ds.get? n) : ds'.Spreads n m ↔ ds.Spreads n m := by
  rw [Spreads, Spreads, h]

theorem Needs.tail (h : ds.Needs f n) (spread : ds.Spreads n m) : ds.Needs f m := by
  obtain ⟨k, hk, through⟩ := h
  exact ⟨k, hk, through.tail spread⟩

namespace AgreeBelow

variable (agree : ds.AgreeBelow ds' f)

include agree

theorem declaration {d : Field} (hn : n ∈ f.allSpreads) (hd : ds.get? n = some d) :
    ds.AgreeBelow ds' d := fun m hm => agree m (.of_declaration hn hd hm)

/-- What is needed by the one is needed by the other, as all ways start at the field. -/
theorem needs_iff : ds'.Needs f n ↔ ds.Needs f n := by
  constructor
  · intro h
    refine h.induction (fun m hm => needs_of_mem hm) fun k m hk spread => ?_
    exact hk.tail ((Spreads.congr (agree k hk)).mp spread)
  · intro h
    have both : ds.Needs f n ∧ ds'.Needs f n :=
      h.induction (p := fun m => ds.Needs f m ∧ ds'.Needs f m)
        (fun m hm => ⟨needs_of_mem hm, needs_of_mem hm⟩) fun k m hk spread =>
          ⟨hk.1.tail spread, hk.2.tail ((Spreads.congr (agree k hk.1)).mpr spread)⟩
    exact both.2

theorem acyclic (h : ds.Acyclic f) : ds'.Acyclic f := by
  intro n hn again
  have needed : ds.Needs f n := agree.needs_iff.mp hn
  have way : ∀ m, Relation.TransGen ds'.Spreads n m →
      ds.Needs f m ∧ Relation.TransGen ds.Spreads n m := by
    intro m through
    induction through with
    | single spread =>
      have same := (Spreads.congr (agree n needed)).mp spread
      exact ⟨needed.tail same, .single same⟩
    | tail _ spread ih =>
      have same := (Spreads.congr (agree _ ih.1)).mp spread
      exact ⟨ih.1.tail same, ih.2.tail same⟩
  exact h n needed (way n again).2

end AgreeBelow

theorem getAll_congr {names : List String} (h : ∀ n ∈ names, ds'.get? n = ds.get? n) :
    ds'.getAll names = ds.getAll names := by
  induction names with
  | nil => rfl
  | cons n names ih =>
    obtain ⟨first, rest⟩ := List.forall_mem_cons.mp h
    rw [getAll, getAll, first, ih rest]

theorem neededWithin_congr (levels : Nat) (agree : ds.AgreeBelow ds' f) :
    ds'.neededWithin levels f = ds.neededWithin levels f := by
  induction levels generalizing f with
  | zero => rfl
  | succ levels ih =>
    have level : ds'.getAll f.allSpreads = ds.getAll f.allSpreads :=
      getAll_congr fun n hn => agree n (needs_of_mem hn)
    have same : ds'.neededWithin (levels + 1) f = ds.expand (ds'.neededWithin levels) f := by
      rw [neededWithin_succ, expand, level, expand]
    rw [same, neededWithin_succ]
    exact expand_congr fun n hn d hd => ih (agree.declaration hn hd)

/-- The numbers of declarations may differ, and with them the limits on levels, but neither limit
plays a role. -/
theorem neededBy_congr (agree : ds.AgreeBelow ds' f) : ds'.neededBy f = ds.neededBy f := by
  calc ds'.neededBy f
    _ = ds'.neededWithin (max (ds.size + 1) (ds'.size + 1)) f :=
      (neededWithin_eq_neededBy (Nat.le_max_right _ _) f).symm
    _ = ds.neededWithin (max (ds.size + 1) (ds'.size + 1)) f := neededWithin_congr _ agree
    _ = ds.neededBy f := neededWithin_eq_neededBy (Nat.le_max_left _ _) f

/-! ## Documents -/

/-- What is sent cannot tell the declarations apart: neither needs a fragment that spreads itself,
and they give the same list and the same text, or the same failure. -/
structure SameFor (ds ds' : Declarations) (x : Sendable) : Prop where
  acyclic : ds'.Acyclic x.root
  needed : ds'.neededBy x.root = ds.neededBy x.root
  document : ds'.document x = ds.document x

variable {x : Sendable} {history other : List Change}

theorem AgreeBelow.sameFor (agree : ds.AgreeBelow ds' x.root) (acyclic : ds.Acyclic x.root) :
    ds.SameFor ds' x := by
  have needed : ds'.neededBy x.root = ds.neededBy x.root := neededBy_congr agree
  exact ⟨agree.acyclic acyclic, needed, by rw [document, needed, document]⟩

theorem agreeBelow_ofChanges
    (last : ∀ n, (ofChanges history).Needs f n →
      Entries.lastOf? (stored other) n = Entries.lastOf? (stored history) n) :
    (ofChanges history).AgreeBelow (ofChanges other) f := fun n hn => by
  rw [get?_ofChanges, get?_ofChanges, last n hn]

/-- Dropping an entry does not matter to its name if the name comes again, nor to other names. -/
theorem lastOf?_of_dropped {before after : List (String × Field)} {d : Field}
    (h : n ∈ Entries.keys after ∨ m ≠ n) :
    Entries.lastOf? (before ++ after) m = Entries.lastOf? (before ++ (n, d) :: after) m := by
  rw [Entries.lastOf?_append, Entries.lastOf?_append, Entries.lastOf?_cons]
  by_cases same : n = m
  · subst same
    have again : n ∈ Entries.keys after := h.resolve_right fun other => other rfl
    obtain ⟨e, he⟩ := Option.ne_none_iff_exists'.mp fun none =>
      Entries.lastOf?_eq_none_iff.mp none again
    rw [he]
    rfl
  · rw [if_neg same, Option.or_none]

/-- If no needed fragment spreads itself, only the last declarations of needed fragments matter: a
history that stores the same ones as the last of their names, or none where the other stores none,
leads to the same lists, texts and failures. So the order in which different names are declared does
not matter, and neither do declarations that are replaced later or that are not needed. -/
theorem same_of_last_needed (acyclic : (ofChanges history).Acyclic x.root) :
    (∀ other, (∀ n, (ofChanges history).Needs x.root n →
        Entries.lastOf? (stored other) n = Entries.lastOf? (stored history) n) →
      (ofChanges history).SameFor (ofChanges other) x) ∧
    (∀ other, (∀ n, (stored other).filter (fun entry => entry.1 = n) =
        (stored history).filter fun entry => entry.1 = n) →
      (ofChanges history).SameFor (ofChanges other) x) ∧
    ∀ other before after n d, stored history = before ++ (n, d) :: after →
      stored other = before ++ after →
      n ∈ Entries.keys after ∨ ¬(ofChanges history).Needs x.root n →
      (ofChanges history).SameFor (ofChanges other) x := by
  have main : ∀ other, (∀ n, (ofChanges history).Needs x.root n →
        Entries.lastOf? (stored other) n = Entries.lastOf? (stored history) n) →
      (ofChanges history).SameFor (ofChanges other) x :=
    fun other last => (agreeBelow_ofChanges last).sameFor acyclic
  refine ⟨main, fun other reordered => main other fun n _ => ?_, ?_⟩
  · rw [Entries.lastOf?, reordered, Entries.lastOf?]
  · intro other before after n d whole dropped idle
    refine main other fun m hm => ?_
    rw [whole, dropped]
    exact lastOf?_of_dropped (idle.imp_right fun unneeded e => unneeded (e ▸ hm))

/-- A history that declares `Frag` twice and `Extra` without need. -/
def sampleHistory : List Change :=
  [.insert "Frag" sampleOuter, .extend [("Outer", sampleOuter), ("Extra", sampleChild)],
    .insert "Frag" sampleFrag]

/-- The query `query{q{...Outer,...Frag}}`. -/
def sampleQuery : Sendable := .operation (.query sampleRoot)

theorem same_of_last_needed_sampleHistory :
    (ofChanges [.ofList [("Frag", sampleFrag), ("Outer", sampleOuter)]]).Acyclic
        sampleQuery.root ∧
      (ofChanges sampleHistory).Acyclic sampleQuery.root ∧
      (ofChanges sampleHistory).neededBy sampleRoot = .ok [sampleOuter, sampleFrag, sampleFrag] ∧
      (ofChanges sampleHistory).SameFor
        (ofChanges [.extend [("Outer", sampleOuter), ("Extra", sampleChild)],
          .insert "Frag" sampleFrag]) sampleQuery := by
  have acyclic : (ofChanges [.ofList [("Frag", sampleFrag), ("Outer", sampleOuter)]]).Acyclic
      sampleQuery.root := acyclic_sampleDeclarations sampleRoot
  have needed : ∀ n, sampleDeclarations.Needs sampleRoot n → n = "Outer" ∨ n = "Frag" := by
    intro n hn
    have start : ∀ m ∈ sampleRoot.allSpreads, m = "Outer" ∨ m = "Frag" :=
      List.forall_mem_cons.mpr ⟨.inl rfl, List.forall_mem_singleton.mpr (.inr rfl)⟩
    exact hn.induction start fun k m _ spread =>
      .inr (eq_of_spreads_sampleDeclarations spread).2
  obtain ⟨last, -, -⟩ := same_of_last_needed acyclic
  have reached := last sampleHistory fun n hn => by
    rcases needed n hn with rfl | rfl <;> rfl
  obtain ⟨-, -, dropped⟩ := same_of_last_needed reached.acyclic
  refine ⟨acyclic, reached.acyclic, reached.needed.trans rfl, dropped _ [] _ "Frag" sampleOuter
    rfl rfl (.inl ?_)⟩
  decide

end Declarations

end GraphQLDoc
