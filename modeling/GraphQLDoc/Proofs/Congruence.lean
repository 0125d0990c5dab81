import GraphQLDoc.Proofs.Chains
import GraphQLDoc.Proofs.Overlaying
import GraphQLDoc.Proofs.Siblings

/-!
# Equal fields are built upon alike

Equality of fields does not see the order of arguments, but every building step goes through lists
in their order. None of them lets that order come out in anything that equality sees: equal fields
that take equal steps are equal again, and they need equal declarations.

* `Arguments.equal_extend`, `Field.Twins.merge`: arguments and fields merged onto equal ones.
* `Selection.equal`: equality of selections, where built fields are compared as fields.
  `Selection.denoted_twins`: equal selections stand for equal fields.
* `Field.allSpreads_of_equal`, `Declarations.EqualByName.neededBy`: equal fields spread the same
  fragments and need equal declarations.
* `Field.equal_congr`: every step on equal fields.
-/

namespace GraphQLDoc

/-! ## Merging equal fields -/

theorem Arguments.equal_extend {a a' b b' : Arguments} (ha : (Entries.keys a).Nodup)
    (ha' : (Entries.keys a').Nodup) (hb : (Entries.keys b).Nodup) (hb' : (Entries.keys b').Nodup)
    (same : a.equal a' = true) (upper : b.equal b' = true) :
    Arguments.equal (Entries.extend a b) (Entries.extend a' b') = true := by
  rw [equal_iff (Entries.nodup_keys_extend ha b) (Entries.nodup_keys_extend ha' b')]
  intro key
  rw [Entries.get?_extend a hb, Entries.get?_extend a' hb']
  exact rel_or ((equal_iff hb hb').mp upper key) ((equal_iff ha ha').mp same key)

namespace Field

variable {f f' g g' : Field} {siblings siblings' fields fields' : List Field}

/-- Equal fields that repeat neither names nor keys at any depth. -/
structure Twins (f g : Field) : Prop where
  left : f.Everywhere Unambiguous
  right : g.Everywhere Unambiguous
  equal : f.equal g = true

theorem Twins.name (h : Twins f g) : f.name = g.name := (equal_iff.mp h.equal).1

theorem Twins.subfields (h : Twins f g) : List.Forall₂ Twins f.subfields g.subfields := by
  have pairs := equalAll_iff.mp (equal_iff.mp h.equal).2.2.1
  exact forall₂_imp_of_mem (fun x hx y hy => .mk (h.left.of_mem hx) (h.right.of_mem hy)) pairs

theorem names_of_twins (h : List.Forall₂ Twins fields fields') : names fields = names fields' := by
  induction h with
  | nil => rfl
  | cons first _ ih => rw [names_cons, names_cons, first.name, ih]

theorem lookup_twins (h : List.Forall₂ Twins siblings siblings') (name : String) :
    Option.Rel Twins (lookup siblings name) (lookup siblings' name) := by
  induction h with
  | nil => exact .none
  | @cons f f' _ _ first _ ih =>
    rw [lookup, lookup, List.find?_cons, List.find?_cons, first.name]
    cases f'.name == name with
    | true => exact .some first
    | false => exact ih

/-- The added fields are merged onto fields that are twins as well, so they take the same places. -/
theorem join_twins (distinct : (names siblings).Nodup)
    (hs : List.Forall₂ Twins siblings siblings') (hg : Twins g g')
    (merging : ∀ f f', Twins f f' → Twins (merge f g) (merge f' g')) :
    List.Forall₂ Twins (join siblings g) (join siblings' g') := by
  have distinct' : (names siblings').Nodup := names_of_twins hs ▸ distinct
  have others : List.Forall₂ Twins (siblings.filter fun f => f.name ≠ g.name)
      (siblings'.filter fun f => f.name ≠ g'.name) :=
    List.rel_filter (fun f f' (h : Twins f f') => by simp [h.name, hg.name]) hs
  have last : Twins (mergeInto siblings g) (mergeInto siblings' g') := by
    have found := lookup_twins hs g.name
    rw [mergeInto, mergeInto, ← hg.name]
    cases h : lookup siblings g.name with
    | none =>
      rw [(eq_none_iff_of_rel found).mp h]
      exact hg
    | some f =>
      obtain ⟨f', h', twins⟩ := exists_of_rel_some (h ▸ found)
      rw [h']
      exact merging f f' twins
  rw [join_eq distinct, join_eq distinct']
  exact List.rel_append others (.cons last .nil)

theorem joinAll_twins (distinct : (names siblings).Nodup)
    (hs : List.Forall₂ Twins siblings siblings') (hf : List.Forall₂ Twins fields fields')
    (merging : ∀ g ∈ fields, ∀ g', Twins g g' → ∀ f f', Twins f f' →
      Twins (merge f g) (merge f' g')) :
    List.Forall₂ Twins (joinAll siblings fields) (joinAll siblings' fields') := by
  induction hf generalizing siblings siblings' with
  | nil => exact hs
  | @cons g g' _ _ first _ ih =>
    obtain ⟨here, later⟩ := List.forall_mem_cons.mp merging
    exact ih (nodup_names_join distinct g) (join_twins distinct hs first (here g' first)) later

theorem Twins.merge (hf : Twins f f') (hg : Twins g g') :
    Twins (Field.merge f g) (Field.merge f' g') := by
  induction g using Field.induction generalizing f f' g' with
  | step g ih =>
    have below := joinAll_twins hf.left.here.subfields hf.subfields hg.subfields
      fun x hx x' twins y y' onto => ih x hx onto twins
    obtain ⟨name, arguments, -, spreads⟩ := equal_iff.mp hf.equal
    obtain ⟨-, arguments', -, spreads'⟩ := equal_iff.mp hg.equal
    refine ⟨everywhere_merge (fun _ _ h _ => h.merge) hf.left hg.left,
      everywhere_merge (fun _ _ h _ => h.merge) hf.right hg.right, equal_iff.mpr ?_⟩
    rw [merge_eq, merge_eq]
    refine ⟨name, ?_, equalAll_iff.mpr (below.imp fun _ _ => Twins.equal), ?_⟩
    · exact Arguments.equal_extend hf.left.here.arguments hf.right.here.arguments
        hg.left.here.arguments hg.right.here.arguments arguments arguments'
    · rw [spreads, spreads']

theorem Twins.joinAll (distinct : (names siblings).Nodup)
    (hs : List.Forall₂ Twins siblings siblings') (hf : List.Forall₂ Twins fields fields') :
    List.Forall₂ Twins (Field.joinAll siblings fields) (Field.joinAll siblings' fields') :=
  joinAll_twins distinct hs hf fun _ _ _ hg _ _ onto => onto.merge hg

theorem twins_nested (name : String) (h : List.Forall₂ Twins fields fields') :
    Twins (nested name fields) (nested name fields') := by
  have left : ∀ g ∈ fields, g.Everywhere Unambiguous := fun g hg =>
    (exists_of_mem_forall₂ h hg).elim fun _ twin => twin.2.left
  have right : ∀ g ∈ fields', g.Everywhere Unambiguous := fun g hg =>
    (exists_of_mem_forall₂ (R := fun g f => Twins f g) h.flip hg).elim fun _ twin => twin.2.right
  have none : (names ([] : List Field)).Nodup := List.nodup_nil
  have below := Twins.joinAll none .nil h
  exact ⟨everywhere_unambiguous_nested name left, everywhere_unambiguous_nested name right,
    equal_iff.mpr ⟨rfl, rfl, equalAll_iff.mpr (below.imp fun _ _ => Twins.equal), rfl⟩⟩

end Field

/-! ## Equal selections -/

namespace Selection

mutual

/-- Equality of selections. -/
def equal : Selection → Selection → Bool
  | .leaf n, .leaf m => n == m
  | .several items, .several others => equalItems items others
  | .under n s, .under m t => n == m && equal s t
  | .built f, .built g => f == g
  | _, _ => false

/-- Equality of selections, one by one. -/
def equalItems : List Selection → List Selection → Bool
  | [], [] => true
  | s :: ss, t :: ts => equal s t && equalItems ss ts
  | _, _ => false

end

instance : BEq Selection := ⟨equal⟩

mutual

theorem givenNames_of_equal : ∀ {s t : Selection}, s.equal t = true → s.givenNames = t.givenNames
  | .leaf n, .leaf m, h => by
    rw [givenNames, givenNames, beq_iff_eq.mp h]
  | .several items, .several others, h => givenNamesOfItems_of_equal h
  | .under n s, .under m t, h => by
    obtain ⟨name, below⟩ := Bool.and_eq_true_iff.mp h
    rw [givenNames, givenNames, beq_iff_eq.mp name, givenNames_of_equal below]
  | .built f, .built g, h => rfl

theorem givenNamesOfItems_of_equal : ∀ {ss ts : List Selection},
    equalItems ss ts = true → givenNamesOfItems ss = givenNamesOfItems ts
  | [], [], _ => rfl
  | s :: ss, t :: ts, h => by
    obtain ⟨first, rest⟩ := Bool.and_eq_true_iff.mp h
    rw [givenNamesOfItems, givenNamesOfItems, givenNames_of_equal first,
      givenNamesOfItems_of_equal rest]

end

mutual

theorem denoted_twins : ∀ {s t : Selection}, s.equal t = true →
    (∀ b ∈ s.builtFields, b.Everywhere Field.Unambiguous) →
    (∀ b ∈ t.builtFields, b.Everywhere Field.Unambiguous) →
      List.Forall₂ Field.Twins s.denoted t.denoted
  | .leaf n, .leaf m, h, _, _ => by
    rw [denoted, denoted, beq_iff_eq.mp h]
    exact .cons (Field.twins_nested m .nil) .nil
  | .several items, .several others, h, hs, ht => denotedByItems_twins h hs ht
  | .under n s, .under m t, h, hs, ht => by
    obtain ⟨name, below⟩ := Bool.and_eq_true_iff.mp h
    rw [denoted, denoted, beq_iff_eq.mp name]
    exact .cons (Field.twins_nested m (denoted_twins below hs ht)) .nil
  | .built f, .built g, h, hs, ht =>
    .cons ⟨List.forall_mem_singleton.mp hs, List.forall_mem_singleton.mp ht, h⟩ .nil

theorem denotedByItems_twins : ∀ {ss ts : List Selection}, equalItems ss ts = true →
    (∀ b ∈ builtFieldsOfItems ss, b.Everywhere Field.Unambiguous) →
    (∀ b ∈ builtFieldsOfItems ts, b.Everywhere Field.Unambiguous) →
      List.Forall₂ Field.Twins (denotedByItems ss) (denotedByItems ts)
  | [], [], _, _, _ => .nil
  | s :: ss, t :: ts, h, hs, ht => by
    obtain ⟨first, rest⟩ := Bool.and_eq_true_iff.mp h
    obtain ⟨hs, hss⟩ := List.forall_mem_append.mp hs
    obtain ⟨ht, hts⟩ := List.forall_mem_append.mp ht
    exact List.rel_append (denoted_twins first hs ht) (denotedByItems_twins rest hss hts)

end

end Selection

/-! ## Steps on equal fields -/

namespace Field

variable {f f' : Field}

theorem Reachable.twins (hf : f.Reachable) (hf' : f'.Reachable) (same : f.equal f' = true) :
    Twins f f' := ⟨hf.wellFormed.unambiguous, hf'.wellFormed.unambiguous, same⟩

theorem Twins.select {s t : Selection} (h : Twins f f') (same : s.equal t = true)
    (hs : ∀ b ∈ s.builtFields, b.Everywhere Unambiguous)
    (ht : ∀ b ∈ t.builtFields, b.Everywhere Unambiguous) :
    Agree (fun g g' => g.equal g' = true) (f.select s) (f'.select t) := by
  rw [select_eq, select_eq, Selection.givenNames_of_equal same]
  split
  · exact .error _
  · obtain ⟨name, arguments, -, spreads⟩ := equal_iff.mp h.equal
    have below := Twins.joinAll h.left.here.subfields h.subfields
      (Selection.denoted_twins same hs ht)
    exact .ok (equal_iff.mpr
      ⟨name, arguments, equalAll_iff.mpr (below.imp fun _ _ => Twins.equal), spreads⟩)

theorem spread_agree (same : f.equal f' = true) (names : List String) :
    Agree (fun g g' => g.equal g' = true) (f.spread names) (f'.spread names) := by
  obtain ⟨name, arguments, subfields, spreads⟩ := equal_iff.mp same
  rw [spread, spread, spreads]
  cases spreadNames f'.spreads names with
  | error e => exact .error e
  | ok _ => exact .ok (equal_iff.mpr ⟨name, arguments, subfields, rfl⟩)

theorem keys_givenEntries_sublist (entries : List (String × Option Value)) :
    (Entries.keys (givenEntries entries)).Sublist (Entries.keys entries) := by
  induction entries with
  | nil => exact .slnil
  | cons entry entries ih =>
    obtain ⟨key, v⟩ := entry
    cases v with
    | none => exact ih.cons key
    | some v => exact ih.cons_cons key

variable {a a' : List (String × Option Value)}

/-- Nothing is repeated, so nothing is replaced. -/
theorem setArguments_eq_ok_iff_of_nodup {g : Field} (distinct : (Entries.keys a).Nodup) :
    f.setArguments a = .ok g ↔ Arguments.firstFault (givenEntries a) = none ∧
      g = { f with arguments := Entries.extend f.arguments (givenEntries a) } := by
  rw [setArguments_eq_ok_iff_extend,
    Entries.ofList_of_nodup (distinct.sublist (keys_givenEntries_sublist a))]

/-- The same entries have a fault in either order, though not the same first one. -/
theorem firstFault_givenEntries_perm (order : a.Perm a') :
    Arguments.firstFault (givenEntries a) = none ↔
      Arguments.firstFault (givenEntries a') = none := by
  have given : (givenEntries a).Perm (givenEntries a') := order.filterMap _
  simp only [Arguments.firstFault_eq_none_iff, Entries.keys, (given.map Prod.fst).mem_iff,
    given.mem_iff]

theorem Twins.setArguments {g g' : Field} (h : Twins f f') (distinct : (Entries.keys a).Nodup)
    (order : a.Perm a') (maps : ∀ key v, (key, some v) ∈ a → v.Everywhere Value.KeysDistinct)
    (hg : f.setArguments a = .ok g) (hg' : f'.setArguments a' = .ok g') :
    g.equal g' = true := by
  have distinct' : (Entries.keys a').Nodup := (order.map Prod.fst).nodup_iff.mp distinct
  obtain ⟨faultless, rfl⟩ := (setArguments_eq_ok_iff_of_nodup distinct).mp hg
  obtain ⟨-, rfl⟩ := (setArguments_eq_ok_iff_of_nodup distinct').mp hg'
  obtain ⟨-, values⟩ := Arguments.firstFault_eq_none_iff.mp faultless
  have given : (givenEntries a).Perm (givenEntries a') := order.filterMap _
  have keys := distinct.sublist (keys_givenEntries_sublist a)
  have keys' := distinct'.sublist (keys_givenEntries_sublist a')
  have upper : Arguments.equal (givenEntries a) (givenEntries a') = true := by
    refine Arguments.equal_of_get? keys keys' (Entries.get?_perm keys given) fun entry he => ?_
    exact Value.equal_self (maps _ _ (mem_givenEntries.mp he))
      ((values entry he).imp fun _ => Value.Faultless.comparable)
  obtain ⟨name, arguments, subfields, spreads⟩ := equal_iff.mp h.equal
  exact equal_iff.mpr ⟨name, Arguments.equal_extend h.left.here.arguments h.right.here.arguments
    keys keys' arguments upper, subfields, spreads⟩

/-! ## Equal fields spread alike -/

theorem spreadsAlike_of_equal (same : f.equal f' = true) : SpreadsAlike f f' := by
  induction f using Field.induction generalizing f' with
  | step f ih =>
    obtain ⟨-, -, subfields, spreads⟩ := equal_iff.mp same
    exact .node spreads (forall₂_imp_of_mem (fun g hg g' _ => ih g hg) (equalAll_iff.mp subfields))

theorem allSpreads_of_equal (same : f.equal f' = true) : f.allSpreads = f'.allSpreads :=
  (spreadsAlike_of_equal same).allSpreads

end Field

namespace Declarations

variable {ds ds' : Declarations} {f f' : Field}

/-- Both declare the same names, and with equal declarations. -/
def EqualByName (ds ds' : Declarations) : Prop :=
  ∀ n, Option.Rel (fun d d' : Field => d.equal d' = true) (ds.get? n) (ds'.get? n)

theorem EqualByName.getAll (h : ds.EqualByName ds') (names : List String) :
    Agree (List.Forall₂ fun d d' : Field => d.equal d' = true) (ds.getAll names)
      (ds'.getAll names) := by
  induction names with
  | nil => exact .ok .nil
  | cons n names ih =>
    have declared := h n
    rw [Declarations.getAll, Declarations.getAll]
    generalize ds.get? n = found, ds'.get? n = found' at declared ⊢
    cases declared with
    | none => exact .error _
    | some same => exact ih.bind fun _ _ rest => .ok (.cons same rest)

/-- All declarations that one level finds are equal, so their next levels are equal as well. -/
theorem EqualByName.neededWithin (h : ds.EqualByName ds') (same : f.equal f' = true)
    (levels : Nat) :
    Agree (List.Forall₂ fun d d' : Field => d.equal d' = true) (ds.neededWithin levels f)
      (ds'.neededWithin levels f') := by
  induction levels generalizing f f' with
  | zero => exact .error _
  | succ levels ih =>
    rw [neededWithin_succ, neededWithin_succ, expand, expand, Field.allSpreads_of_equal same]
    refine (h.getAll f'.allSpreads).bind fun found found' equal => ?_
    refine (Agree.mapM equal fun d d' here => ?_).bind fun _ _ lists =>
      .ok (List.rel_flatten lists)
    exact (ih here).bind fun _ _ deeper => .ok (.cons here deeper)

/-- The limits on levels may differ, but neither of them plays a role. -/
theorem EqualByName.neededBy (h : ds.EqualByName ds') (same : f.equal f' = true) :
    Agree (List.Forall₂ fun d d' : Field => d.equal d' = true) (ds.neededBy f)
      (ds'.neededBy f') := by
  have enough := h.neededWithin same (max (ds.size + 1) (ds'.size + 1))
  rwa [neededWithin_eq_neededBy (Nat.le_max_left _ _),
    neededWithin_eq_neededBy (Nat.le_max_right _ _)] at enough

end Declarations

/-! ## All steps -/

namespace Field

/-- Equal fields cannot be told apart by building on. Equal selections and the same fragment names
give equal fields, or they are refused in the same way. Arguments in any order are taken by both
fields or by none, and give equal fields. Both fields spread the same fragments in the same order,
and with equal declarations they need equal ones, or lack the same. -/
theorem equal_congr {f f' : Field} (hf : f.Reachable) (hf' : f'.Reachable)
    (same : (f == f') = true) :
    (∀ s s' : Selection, (s == s') = true → (∀ b ∈ s.builtFields, b.Reachable) →
      (∀ b ∈ s'.builtFields, b.Reachable) →
        Agree (fun g g' => g == g') (f.select s) (f'.select s')) ∧
    (∀ a a' : List (String × Option Value), a.Perm a' → (a.map Prod.fst).Nodup →
      (∀ key v, (key, some v) ∈ a → v.Everywhere Value.KeysDistinct) →
        ((∃ g, f.setArguments a = .ok g) ↔ ∃ g', f'.setArguments a' = .ok g') ∧
        ∀ g g', f.setArguments a = .ok g → f'.setArguments a' = .ok g' → (g == g') = true) ∧
    (∀ names, Agree (fun g g' => g == g') (f.spread names) (f'.spread names)) ∧
    f.allSpreads = f'.allSpreads ∧
    ∀ ds ds' : Declarations, ds.EqualByName ds' → ds.Acyclic f →
      Agree (List.Forall₂ fun d d' => d == d') (ds.neededBy f) (ds'.neededBy f') := by
  have twins : Twins f f' := hf.twins hf' same
  refine ⟨fun s s' equal built built' => ?_, fun a a' order distinct maps => ⟨?_, ?_⟩,
    spread_agree same, allSpreads_of_equal same, fun ds ds' h _ => h.neededBy same⟩
  · exact twins.select equal (fun b hb => (built b hb).wellFormed.unambiguous)
      fun b hb => (built' b hb).wellFormed.unambiguous
  · have distinct' : (Entries.keys a').Nodup := (order.map Prod.fst).nodup_iff.mp distinct
    simp only [setArguments_eq_ok_iff_of_nodup distinct, setArguments_eq_ok_iff_of_nodup distinct',
      exists_and_left, exists_eq, and_true, firstFault_givenEntries_perm order]
  · exact fun g g' => twins.setArguments distinct order maps

/-- Entries of the form `by:{..},none,max:7`, where `none` has no value. -/
def sampleEntries (entries : List (String × Value)) : List (String × Option Value) :=
  [("by", some (.object entries)), ("none", none), ("max", some (.number (.int 7)))]

/-- The field `q(by:{a:true,b:"x"},max:7){...Outer}`. -/
def sampleForward : Field :=
  { leaf "q" with
    arguments := givenEntries (sampleEntries [("a", .boolean true), ("b", .string "x")])
    spreads := ["Outer"] }

/-- The field `q(max:7,by:{b:"x",a:true}){...Outer}`. -/
def sampleBackward : Field :=
  { leaf "q" with
    arguments := givenEntries (sampleEntries [("b", .string "x"), ("a", .boolean true)]).reverse
    spreads := ["Outer"] }

theorem keysDistinct_sampleEntries {j : Json} {entries : List (String × Value)}
    (h : Value.ofJson j = .ok (.object entries)) :
    ∀ key v, (key, some v) ∈ sampleEntries entries → v.Everywhere Value.KeysDistinct := by
  intro key v hv
  have inside : v = .object entries ∨ v = .number (.int 7) := by
    simp only [sampleEntries, List.mem_cons, Prod.mk.injEq, Option.some.injEq, reduceCtorEq,
      List.not_mem_nil, and_false, or_false, false_or] at hv
    exact hv.imp And.right And.right
  rcases inside with rfl | rfl
  · exact Value.keysDistinct_ofJson h
  · exact (Value.everywhere_of_no_children rfl).mpr trivial

theorem reachable_sampleForward : sampleForward.Reachable := by
  have given : (leaf "q").setArguments
      (sampleEntries [("a", .boolean true), ("b", .string "x")]) =
        .ok { sampleForward with spreads := [] } := rfl
  have spread : { sampleForward with spreads := [] }.spread ["Outer"] = .ok sampleForward := rfl
  refine ((reachable_leaf (by decide)).setArguments ?_ given).spread spread
  exact keysDistinct_sampleEntries (j := .object [("a", .bool true), ("b", .string "x")]) rfl

theorem reachable_sampleBackward : sampleBackward.Reachable := by
  have given : (leaf "q").setArguments
      (sampleEntries [("b", .string "x"), ("a", .boolean true)]).reverse =
        .ok { sampleBackward with spreads := [] } := rfl
  have spread : { sampleBackward with spreads := [] }.spread ["Outer"] = .ok sampleBackward := rfl
  refine ((reachable_leaf (by decide)).setArguments (fun key v hv => ?_) given).spread spread
  exact keysDistinct_sampleEntries (j := .object [("b", .string "x"), ("a", .bool true)]) rfl key v
    (List.mem_reverse.mp hv)

/-- The fragments of `Declarations.sampleDeclarations`, declared in the other order. -/
def sampleRedeclared : Declarations :=
  .ofList [("Outer", Declarations.sampleOuter), ("Frag", Declarations.sampleFrag)]

theorem equal_congr_sampleForward :
    sampleForward.Reachable ∧ sampleBackward.Reachable ∧
      (sampleForward == sampleBackward) = true ∧
      ∃ g g' h h', sampleForward.select (.under "best" (.built sampleForward)) = .ok g ∧
        sampleBackward.select (.under "best" (.built sampleBackward)) = .ok g' ∧
        (g == g') = true ∧
        sampleForward.setArguments (sampleEntries []) = .ok h ∧
        sampleBackward.setArguments (sampleEntries []).reverse = .ok h' ∧
        (h == h') = true ∧
        Entries.keys h.arguments = ["by", "max"] ∧ Entries.keys h'.arguments = ["max", "by"] ∧
        Agree (List.Forall₂ fun d d' => d == d')
          (Declarations.sampleDeclarations.neededBy sampleForward)
          (sampleRedeclared.neededBy sampleBackward) := by
  have forward := reachable_sampleForward
  have backward := reachable_sampleBackward
  have same : (sampleForward == sampleBackward) = true := rfl
  obtain ⟨selected, given, -, -, needed⟩ := equal_congr forward backward same
  have equal : (Selection.under "best" (.built sampleForward) ==
      .under "best" (.built sampleBackward)) = true := rfl
  have below := selected _ _ equal (List.forall_mem_singleton.mpr forward)
    (List.forall_mem_singleton.mpr backward)
  have arguments := (given (sampleEntries []) _ (List.reverse_perm _).symm (by decide)
    (keysDistinct_sampleEntries (j := .object []) rfl)).2 _ _ rfl rfl
  have declared : Declarations.sampleDeclarations.EqualByName sampleRedeclared := by
    intro n
    have distinct : sampleRedeclared.byName.keys.Nodup := by decide
    have found : sampleRedeclared.get? n = Declarations.sampleDeclarations.get? n :=
      Entries.get?_perm distinct (.swap _ _ []) n
    rw [found]
    cases hd : Declarations.sampleDeclarations.get? n with
    | none => exact .none
    | some d =>
      have declaration := Declarations.reachable_sampleDeclarations n d hd
      exact .some (equal_self declaration.wellFormed)
  refine ⟨forward, backward, same, _, _, _, _, rfl, rfl, ?_, rfl, rfl, arguments, rfl, rfl,
    needed _ _ declared (Declarations.acyclic_sampleDeclarations _)⟩
  cases below with
  | ok related => exact related

end Field

end GraphQLDoc
