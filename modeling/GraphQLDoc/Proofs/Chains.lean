import GraphQLDoc.Proofs.Reachable
import GraphQLDoc.Proofs.Spreading
import Mathlib.Data.Set.Card

/-!
# Spread chains

A chain starts with a fragment that a field spreads, and goes on with one that the declaration of
the last fragment spreads. A fragment is needed once for each chain that leads to it.

* `Declarations.Chain`, `Declarations.Precedes`: the chains from a field, and their depth-first
  order.
* `Declarations.DepthFirst`: a list of all chains in this order.
* `Declarations.neededBy_eq_ok_of_acyclic`: the declarations that a field needs, chain by chain.
* `Declarations.neededBy_lists_chains`: the same in full, with what it means for single
  declarations.
-/

namespace GraphQLDoc

namespace Declarations

variable {ds : Declarations} {f d : Field} {n m : String} {c c' : List String}

/-- The names follow each other by spreads, from the field on. -/
inductive Chain (ds : Declarations) : Field → List String → Prop
  | single {f : Field} {n : String} (h : n ∈ f.allSpreads) : Chain ds f [n]
  | cons {f d : Field} {n : String} {c : List String} (h : n ∈ f.allSpreads)
      (hd : ds.get? n = some d) (hc : Chain ds d c) : Chain ds f (n :: c)

/-- The declaration of the last name of a chain. -/
def target? (ds : Declarations) (c : List String) : Option Field := c.getLast?.bind ds.get?

/-- The first chain comes before the second one in depth-first order: a chain before those that
continue it, and otherwise in the order in which one field spreads the first names that differ. -/
inductive Precedes (ds : Declarations) : Field → List String → List String → Prop
  | continued {f : Field} {n : String} {c : List String} : Precedes ds f [] (n :: c)
  | earlier {f : Field} {n m : String} {c c' : List String} (h : [n, m].Sublist f.allSpreads) :
      Precedes ds f (n :: c) (m :: c')
  | deeper {f d : Field} {n : String} {c c' : List String} (hd : ds.get? n = some d)
      (h : Precedes ds d c c') : Precedes ds f (n :: c) (n :: c')

/-- The list holds all chains from the field, in depth-first order. -/
structure DepthFirst (ds : Declarations) (f : Field) (chains : List (List String)) : Prop where
  complete : ∀ c, c ∈ chains ↔ ds.Chain f c
  ordered : chains.Pairwise (ds.Precedes f)

/-! ## Chains -/

theorem Chain.ne_nil (h : ds.Chain f c) : c ≠ [] := by
  cases h <;> exact List.cons_ne_nil _ _

theorem chain_cons_iff :
    ds.Chain f (n :: c) ↔
      n ∈ f.allSpreads ∧ (c = [] ∨ ∃ d, ds.get? n = some d ∧ ds.Chain d c) := by
  constructor
  · intro h
    cases h with
    | single h => exact ⟨h, .inl rfl⟩
    | cons h hd hc => exact ⟨h, .inr ⟨_, hd, hc⟩⟩
  · rintro ⟨h, rfl | ⟨d, hd, hc⟩⟩
    · exact .single h
    · exact .cons h hd hc

theorem getLast?_cons_of_ne_nil (h : c ≠ []) : (n :: c).getLast? = c.getLast? := by
  obtain ⟨m, c, rfl⟩ := List.exists_cons_of_ne_nil h
  exact List.getLast?_cons_cons

theorem target?_single (ds : Declarations) (n : String) : ds.target? [n] = ds.get? n := rfl

theorem target?_cons (h : c ≠ []) : ds.target? (n :: c) = ds.target? c := by
  rw [target?, getLast?_cons_of_ne_nil h, target?]

/-- The last names of chains are the names that are needed. -/
theorem needs_iff_chain : ds.Needs f n ↔ ∃ c, ds.Chain f c ∧ c.getLast? = some n := by
  constructor
  · rintro ⟨m, hm, through⟩
    induction through using Relation.ReflTransGen.head_induction_on generalizing f with
    | refl => exact ⟨[n], .single hm, rfl⟩
    | head hstep _ ih =>
      obtain ⟨d, hd, hk⟩ := hstep
      obtain ⟨c, hc, last⟩ := ih hk
      exact ⟨_ :: c, .cons hm hd hc, (getLast?_cons_of_ne_nil hc.ne_nil).trans last⟩
  · rintro ⟨c, hc, last⟩
    induction hc with
    | single h => exact Option.some.inj last ▸ needs_of_mem h
    | cons h hd hc ih =>
      rw [getLast?_cons_of_ne_nil hc.ne_nil] at last
      exact .of_declaration h hd (ih last)

/-! ## Order -/

/-- Nothing is spread twice by one field. -/
def SpreadsOnce (ds : Declarations) (f : Field) : Prop :=
  f.allSpreads.Nodup ∧ ∀ n d, ds.get? n = some d → d.allSpreads.Nodup

theorem SpreadsOnce.declaration (h : ds.SpreadsOnce f) (hd : ds.get? n = some d) :
    ds.SpreadsOnce d := ⟨h.2 n d hd, h.2⟩

theorem Precedes.ne (h : ds.Precedes f c c') (once : ds.SpreadsOnce f) : c ≠ c' := by
  induction h with
  | continued => exact (List.cons_ne_nil _ _).symm
  | earlier h =>
    rintro same
    rw [(List.cons.inj same).1] at h
    exact List.nodup_iff_sublist.mp once.1 _ h
  | deeper hd _ ih => exact fun same => ih (once.declaration hd) (List.cons.inj same).2

theorem DepthFirst.nodup {chains : List (List String)} (h : ds.DepthFirst f chains)
    (once : ds.SpreadsOnce f) : chains.Nodup := h.ordered.imp fun before => before.ne once

/-! ## Listing -/

/-- The chains that start with a name: the name alone, and those that go on below it. -/
def chainsFrom (below : String → List (List String)) (n : String) : List (List String) :=
  [n] :: (below n).map (n :: ·)

variable {names : List String} {declaration : String → Field}
  {below : String → List (List String)} {needed : String → List Field}

theorem mem_chainsFrom :
    c ∈ chainsFrom below n ↔ ∃ rest, c = n :: rest ∧ (rest = [] ∨ rest ∈ below n) := by
  constructor
  · intro h
    rcases List.mem_cons.mp h with rfl | h
    · exact ⟨[], rfl, .inl rfl⟩
    · obtain ⟨rest, hrest, rfl⟩ := List.mem_map.mp h
      exact ⟨rest, rfl, .inr hrest⟩
  · rintro ⟨rest, rfl, rfl | hrest⟩
    · exact List.mem_cons_self
    · exact List.mem_cons_of_mem _ (List.mem_map_of_mem hrest)

section Listing

variable (declared : ∀ n ∈ f.allSpreads, ds.get? n = some (declaration n))
  (listed : ∀ n ∈ f.allSpreads, ds.DepthFirst (declaration n) (below n))

include declared listed

theorem mem_flatMap_chainsFrom (c : List String) :
    c ∈ f.allSpreads.flatMap (chainsFrom below) ↔ ds.Chain f c := by
  cases c with
  | nil => simpa [chainsFrom] using fun h => Chain.ne_nil h rfl
  | cons n c =>
    have first : n :: c ∈ f.allSpreads.flatMap (chainsFrom below) ↔
        n ∈ f.allSpreads ∧ (c = [] ∨ c ∈ below n) := by
      rw [List.mem_flatMap]
      constructor
      · rintro ⟨k, hk, h⟩
        obtain ⟨rest, e, h⟩ := mem_chainsFrom.mp h
        cases e
        exact ⟨hk, h⟩
      · rintro ⟨hn, h⟩
        exact ⟨n, hn, mem_chainsFrom.mpr ⟨c, rfl, h⟩⟩
    rw [first, chain_cons_iff]
    refine and_congr_right fun hn => or_congr_right ?_
    rw [(listed n hn).complete, declared n hn]
    exact ⟨fun h => ⟨_, rfl, h⟩, fun ⟨_, e, h⟩ => Option.some.inj e ▸ h⟩

theorem pairwise_flatMap_chainsFrom :
    (f.allSpreads.flatMap (chainsFrom below)).Pairwise (ds.Precedes f) := by
  refine List.pairwise_flatMap.mpr ⟨fun n hn => List.pairwise_cons.mpr ⟨fun c hc => ?_, ?_⟩, ?_⟩
  · obtain ⟨c', hc', rfl⟩ := List.mem_map.mp hc
    obtain ⟨m, c'', rfl⟩ := List.exists_cons_of_ne_nil (((listed n hn).complete c').mp hc').ne_nil
    exact .deeper (declared n hn) .continued
  · exact List.pairwise_map.mpr ((listed n hn).ordered.imp fun h => .deeper (declared n hn) h)
  · refine List.pairwise_iff_forall_sublist.mpr fun {n m} h c hc c' hc' => ?_
    obtain ⟨rest, rfl, -⟩ := mem_chainsFrom.mp hc
    obtain ⟨rest', rfl, -⟩ := mem_chainsFrom.mp hc'
    exact .earlier h

end Listing

theorem getAll_eq_ok (declared : ∀ n ∈ names, ds.get? n = some (declaration n)) :
    ds.getAll names = .ok (names.map declaration) := by
  induction names with
  | nil => rfl
  | cons n names ih =>
    obtain ⟨first, rest⟩ := List.forall_mem_cons.mp declared
    rw [getAll, first, ih rest]
    rfl

theorem expand_eq_ok {step : Field → Except Error (List Field)}
    (declared : ∀ n ∈ f.allSpreads, ds.get? n = some (declaration n))
    (known : ∀ n ∈ f.allSpreads, step (declaration n) = .ok (needed n)) :
    ds.expand step f = .ok (f.allSpreads.flatMap fun n => declaration n :: needed n) := by
  have parts : ((f.allSpreads.map declaration).mapM fun d => do
      let needed ← step d
      return d :: needed) = .ok (f.allSpreads.map fun n => declaration n :: needed n) :=
    mapM_eq_ok declaration _ fun n hn => by
      rw [known n hn]
      rfl
  rw [List.flatMap_def]
  unfold expand
  rw [getAll_eq_ok declared]
  exact congrArg (fun parts : Except Error (List (List Field)) => parts.map List.flatten) parts

theorem map_target?_flatMap
    (declared : ∀ n ∈ names, ds.get? n = some (declaration n))
    (nonempty : ∀ n ∈ names, ∀ c ∈ below n, c ≠ [])
    (targets : ∀ n ∈ names, (below n).map ds.target? = (needed n).map some) :
    (names.flatMap (chainsFrom below)).map ds.target? =
      (names.flatMap fun n => declaration n :: needed n).map some := by
  rw [List.map_flatMap, List.map_flatMap]
  refine List.flatMap_congr fun n hn => ?_
  rw [chainsFrom, List.map_cons, List.map_cons, target?_single, declared n hn, List.map_map,
    ← targets n hn]
  congr 1
  exact List.map_congr_left fun c hc => target?_cons (nonempty n hn c hc)

/-- Where no needed fragment spreads itself and all are declared, the declarations are those that
the chains lead to, in depth-first order. -/
theorem neededBy_eq_ok_of_acyclic (acyclic : ds.Acyclic f) (once : ds.SpreadsOnce f)
    (declared : ∀ n, ds.Needs f n → ∃ d, ds.get? n = some d) :
    ∃ chains needed, ds.neededBy f = .ok needed ∧ ds.DepthFirst f chains ∧
      chains.map ds.target? = needed.map some := by
  revert once declared
  refine acyclic.induction fun f acyclic ih once declared => ?_
  have found : ∀ n, ∃ d, n ∈ f.allSpreads → ds.get? n = some d := by
    intro n
    by_cases hn : n ∈ f.allSpreads
    · obtain ⟨d, hd⟩ := declared n (needs_of_mem hn)
      exact ⟨d, fun _ => hd⟩
    · exact ⟨default, fun h => absurd h hn⟩
  choose declaration declared' using found
  have deeper : ∀ n, ∃ chains needed, n ∈ f.allSpreads →
      ds.neededBy (declaration n) = .ok needed ∧ ds.DepthFirst (declaration n) chains ∧
        chains.map ds.target? = needed.map some := by
    intro n
    by_cases hn : n ∈ f.allSpreads
    · have hd := declared' n hn
      obtain ⟨chains, needed, law⟩ := ih n hn _ hd (once.declaration hd)
        fun m hm => declared m (.of_declaration hn hd hm)
      exact ⟨chains, needed, fun _ => law⟩
    · exact ⟨[], [], fun h => absurd h hn⟩
  choose below needed law using deeper
  have listed : ∀ n ∈ f.allSpreads, ds.DepthFirst (declaration n) (below n) :=
    fun n hn => (law n hn).2.1
  refine ⟨_, _, ?_, ⟨mem_flatMap_chainsFrom declared' listed,
    pairwise_flatMap_chainsFrom declared' listed⟩,
    map_target?_flatMap declared' (fun n hn c hc => ?_) fun n hn => (law n hn).2.2⟩
  · rw [neededBy_eq]
    exact expand_eq_ok declared' fun n hn => (law n hn).1
  · exact (((listed n hn).complete c).mp hc).ne_nil

/-! ## Single declarations -/

variable {chains : List (List String)} {declarations : List Field}

theorem getElem?_eq_some_iff (same : chains.map ds.target? = declarations.map some) {i : Nat} :
    declarations[i]? = some d ↔ ∃ c, chains[i]? = some c ∧ ds.target? c = some d := by
  have entry : (chains.map ds.target?)[i]? = (declarations.map some)[i]? := by rw [same]
  rw [List.getElem?_map, List.getElem?_map] at entry
  cases hc : chains[i]? with
  | none =>
    cases hd : declarations[i]? with
    | none => simp
    | some d' => simp [hc, hd] at entry
  | some c =>
    cases hd : declarations[i]? with
    | none => simp [hc, hd] at entry
    | some d' =>
      rw [hc, hd] at entry
      simp [Option.some.inj entry]

/-- Counting the entries of a list that is paired with one that repeats nothing. -/
theorem encard_positions (distinct : chains.Nodup)
    (same : chains.map ds.target? = declarations.map some) (d : Field) :
    {i : Nat | declarations[i]? = some d}.encard =
      {c | c ∈ chains ∧ ds.target? c = some d}.encard := by
  have image : {c | c ∈ chains ∧ ds.target? c = some d} =
      (fun i : Nat => (chains[i]?).getD []) '' {i : Nat | declarations[i]? = some d} := by
    ext c
    simp only [Set.mem_ofPred_eq, Set.mem_image, getElem?_eq_some_iff same]
    constructor
    · rintro ⟨hc, target⟩
      obtain ⟨i, hi⟩ := List.mem_iff_getElem?.mp hc
      exact ⟨i, ⟨c, hi, target⟩, by rw [hi, Option.getD_some]⟩
    · rintro ⟨i, ⟨c', hi, target⟩, rfl⟩
      rw [hi, Option.getD_some]
      exact ⟨List.mem_of_getElem? hi, target⟩
  have injective : Set.InjOn (fun i : Nat => (chains[i]?).getD [])
      {i | declarations[i]? = some d} := by
    intro i hi j hj e
    obtain ⟨c, hc, -⟩ := (getElem?_eq_some_iff same).mp hi
    obtain ⟨c', hc', -⟩ := (getElem?_eq_some_iff same).mp hj
    dsimp only at e
    rw [hc, hc', Option.getD_some, Option.getD_some] at e
    have inside : i < chains.length := (List.getElem?_eq_some_iff.mp hc).1
    exact (List.getElem?_inj inside distinct).mp (by rw [hc, hc', e])
  rw [image, injective.encard_image]

theorem mem_iff_needs (h : ds.DepthFirst f chains)
    (same : chains.map ds.target? = declarations.map some) :
    d ∈ declarations ↔ ∃ n, ds.Needs f n ∧ ds.get? n = some d := by
  have listed : d ∈ declarations ↔ some d ∈ chains.map ds.target? := by simp [same]
  rw [listed, List.mem_map]
  constructor
  · rintro ⟨c, hc, target⟩
    obtain ⟨n, last, hd⟩ := Option.bind_eq_some_iff.mp target
    exact ⟨n, needs_iff_chain.mpr ⟨c, (h.complete c).mp hc, last⟩, hd⟩
  · rintro ⟨n, needs, hd⟩
    obtain ⟨c, hc, last⟩ := needs_iff_chain.mp needs
    exact ⟨c, (h.complete c).mpr hc, by rw [target?, last, Option.bind_some, hd]⟩

/-! ## All chains -/

theorem spreadsOnce_of_reachable (hf : f.Reachable)
    (built : ∀ n d, ds.get? n = some d → d.Reachable) : ds.SpreadsOnce f :=
  ⟨Field.nodup_allSpreads hf.wellFormed.here.spreads,
    fun n d hd => Field.nodup_allSpreads (built n d hd).wellFormed.here.spreads⟩

/-- If no fragment that a field needs spreads itself and each is declared, the declarations that the
field needs are found, on however many levels one looks beyond the number of declarations. There is
one entry for each chain, the declaration of its last fragment, and chains are in depth-first order.
So exactly the declarations of needed fragments are listed, each as often as chains lead to it. -/
theorem neededBy_lists_chains {root : Field} (hr : root.Reachable)
    (built : ∀ n d, ds.get? n = some d → d.Reachable) (acyclic : ds.Acyclic root)
    (declared : ∀ n, ds.Needs root n → ds.contains n = true) :
    ∃ (chains : List (List String)) (needed : List Field), ds.neededBy root = .ok needed ∧
      (∀ levels, ds.size < levels → ds.neededWithin levels root = .ok needed) ∧
      chains.Nodup ∧ (∀ c, c ∈ chains ↔ ds.Chain root c) ∧ chains.Pairwise (ds.Precedes root) ∧
      chains.map ds.target? = needed.map some ∧
      (∀ d, d ∈ needed ↔ ∃ n, ds.Needs root n ∧ ds.get? n = some d) ∧
      ∀ d, {i : Nat | needed[i]? = some d}.encard =
        {c | ds.Chain root c ∧ ds.target? c = some d}.encard := by
  have once := spreadsOnce_of_reachable hr built
  obtain ⟨chains, needed, found, all, targets⟩ := neededBy_eq_ok_of_acyclic acyclic once
    fun n hn => Option.isSome_iff_exists.mp (declared n hn)
  have distinct : chains.Nodup := all.nodup once
  refine ⟨chains, needed, found, fun levels enough => ?_, distinct, all.complete, all.ordered,
    targets, fun d => mem_iff_needs all targets, fun d => ?_⟩
  · rw [← found]
    exact neededWithin_eq_neededBy enough root
  · rw [encard_positions distinct targets]
    simp only [all.complete]

/-- The declaration `fragment Frag on Type{g}`. -/
def sampleFrag : Field := { Field.leaf "fragment Frag on Type" with subfields := [Field.leaf "g"] }

/-- The field `child{...Frag}`. -/
def sampleChild : Field := { Field.leaf "child" with spreads := ["Frag"] }

/-- The declaration `fragment Outer on Type{child{...Frag}}`. -/
def sampleOuter : Field := { Field.leaf "fragment Outer on Type" with subfields := [sampleChild] }

def sampleDeclarations : Declarations := ofList [("Frag", sampleFrag), ("Outer", sampleOuter)]

/-- The field `q{...Outer,...Frag}`. -/
def sampleRoot : Field := { Field.leaf "q" with spreads := ["Outer", "Frag"] }

theorem reachable_sampleRoot : sampleRoot.Reachable := by
  have spread : (Field.leaf "q").spread ["Outer", "Frag"] = .ok sampleRoot := rfl
  exact (Field.reachable_leaf (by decide)).spread spread

theorem reachable_sampleDeclarations (n : String) (d : Field)
    (h : sampleDeclarations.get? n = some d) : d.Reachable := by
  have frag : sampleFrag.Reachable := by
    have bare : Field.declaration "Frag" "Type" = .ok (.leaf "fragment Frag on Type") := rfl
    have selected : (Field.leaf "fragment Frag on Type").select (.leaf "g") = .ok sampleFrag := rfl
    exact (Field.Reachable.declaration bare).select (List.forall_mem_nil _) selected
  have outer : sampleOuter.Reachable := by
    have spread : (Field.leaf "child").spread ["Frag"] = .ok sampleChild := rfl
    have child : ∀ b ∈ (Selection.built sampleChild).builtFields, b.Reachable :=
      List.forall_mem_singleton.mpr ((Field.reachable_leaf (by decide)).spread spread)
    have bare : Field.declaration "Outer" "Type" = .ok (.leaf "fragment Outer on Type") := rfl
    have selected : (Field.leaf "fragment Outer on Type").select (.built sampleChild) =
        .ok sampleOuter := rfl
    exact (Field.Reachable.declaration bare).select child selected
  have all : ∀ entry ∈ sampleDeclarations.byName, entry.2.Reachable :=
    List.forall_mem_cons.mpr ⟨frag, List.forall_mem_singleton.mpr outer⟩
  exact all (n, d) (Entries.mem_of_get? h)

theorem eq_of_spreads_sampleDeclarations {n m : String} (h : sampleDeclarations.Spreads n m) :
    n = "Outer" ∧ m = "Frag" := by
  obtain ⟨d, hd, hm⟩ := h
  have listed : (n, d) ∈ [("Frag", sampleFrag), ("Outer", sampleOuter)] := Entries.mem_of_get? hd
  rcases List.mem_cons.mp listed with e | listed
  · cases e
    exact absurd hm List.not_mem_nil
  · cases List.mem_singleton.mp listed
    exact ⟨rfl, List.mem_singleton.mp hm⟩

theorem acyclic_sampleDeclarations (f : Field) : sampleDeclarations.Acyclic f := by
  refine acyclic_of_rank (fun n => if n = "Outer" then 1 else 0) (fun n m h => ?_) f
  obtain ⟨rfl, rfl⟩ := eq_of_spreads_sampleDeclarations h
  decide

theorem neededBy_lists_chains_sampleRoot :
    sampleRoot.Reachable ∧ sampleDeclarations.Acyclic sampleRoot ∧
      (∀ n, sampleDeclarations.Needs sampleRoot n → sampleDeclarations.contains n = true) ∧
      ∃ chains : List (List String), chains.Nodup ∧ ["Outer", "Frag"] ∈ chains ∧
        ["Frag"] ∈ chains ∧ chains.Pairwise (sampleDeclarations.Precedes sampleRoot) ∧
        chains.map sampleDeclarations.target? =
          [some sampleOuter, some sampleFrag, some sampleFrag] := by
  have acyclic := acyclic_sampleDeclarations sampleRoot
  have start : ∀ n ∈ sampleRoot.allSpreads, sampleDeclarations.contains n = true :=
    List.forall_mem_cons.mpr ⟨rfl, List.forall_mem_singleton.mpr rfl⟩
  have declared : ∀ n, sampleDeclarations.Needs sampleRoot n →
      sampleDeclarations.contains n = true := fun n hn => hn.induction start fun k m _ h => by
    obtain ⟨-, rfl⟩ := eq_of_spreads_sampleDeclarations h
    rfl
  obtain ⟨chains, needed, found, -, distinct, all, ordered, targets, -⟩ :=
    neededBy_lists_chains reachable_sampleRoot reachable_sampleDeclarations acyclic declared
  have inner : sampleDeclarations.Chain sampleOuter ["Frag"] := .single List.mem_cons_self
  have nested : sampleDeclarations.Chain sampleRoot ["Outer", "Frag"] :=
    .cons List.mem_cons_self rfl inner
  have direct : sampleDeclarations.Chain sampleRoot ["Frag"] :=
    .single (List.mem_cons_of_mem _ List.mem_cons_self)
  cases found
  exact ⟨reachable_sampleRoot, acyclic, declared, chains, distinct, (all _).mpr nested,
    (all _).mpr direct, ordered, targets⟩

end Declarations

end GraphQLDoc
