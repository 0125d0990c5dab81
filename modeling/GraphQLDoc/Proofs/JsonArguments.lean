import GraphQLDoc.Proofs.Converting
import GraphQLDoc.Proofs.Faults

/-!
# Arguments from JSON

The members of an object are converted first and validated afterwards. So null at some depth is
found before any empty key, and numbers cannot be faulty, as those of JSON are finite.

* `Json.given`, `Json.NullInside`, `Json.Unnamed`: the members that count, and what is wrong with
  members.
* `Arguments.ofMembers_eq_error_iff`: conversion is stopped by null alone.
* `Arguments.firstFault_of_denotes`: the one fault that is left to validation.
* `Field.setArgumentsJson_eq_error_iff`: which JSON values are refused, and with which error.
* `Field.setArgumentsJson_outcome`: the same, and the field that results from the others.
-/

namespace GraphQLDoc

namespace Json

/-! ## Members -/

/-- The members that are not null themselves. Only these become arguments. -/
def given (members : List (String × Json)) : List (String × Json) :=
  members.filter fun member => !member.2.isNull

/-- Null stands inside the value of a member, at any depth below it. -/
def NullInside (members : List (String × Json)) : Prop :=
  ∃ member ∈ members, ∃ k ∈ member.2.children, null.Within k

/-- A member has an empty key, or so has one of an object that stands in the members. -/
def Unnamed (members : List (String × Json)) : Prop :=
  ∃ inner, (object inner).Within (.object members) ∧ "" ∈ Entries.keys inner

variable {members : List (String × Json)}

theorem mem_given {member : String × Json} :
    member ∈ given members ↔ member ∈ members ∧ member.2 ≠ .null := by
  rw [given, List.mem_filter]
  cases member.2 <;> simp [isNull]

theorem null_within_given_iff : null.Within (.object (given members)) ↔ NullInside members := by
  constructor
  · intro h
    obtain same | ⟨k, hk, h⟩ := Relation.ReflTransGen.cases_head h
    · exact nomatch same
    · obtain ⟨member, hm, rfl⟩ := List.mem_map.mp hk
      obtain ⟨hm, other⟩ := mem_given.mp hm
      obtain same | ⟨i, hi, h⟩ := Relation.ReflTransGen.cases_head h
      · exact absurd same other
      · exact ⟨member, hm, i, hi, h⟩
  · rintro ⟨member, hm, i, hi, h⟩
    have other : member.2 ≠ .null := fun same => List.not_mem_nil (same ▸ hi : i ∈ null.children)
    have child : member.2 ∈ (object (given members)).children :=
      List.mem_map_of_mem (mem_given.mpr ⟨hm, other⟩)
    exact .head child (.head hi h)

theorem keysDistinct_given (maps : (object members).Everywhere KeysDistinct) :
    (object (given members)).Everywhere KeysDistinct := by
  refine everywhere_iff.mpr ⟨maps.here.sublist (List.filter_sublist.map _), fun k hk => ?_⟩
  obtain ⟨member, hm, rfl⟩ := List.mem_map.mp hk
  exact maps.of_mem (List.mem_map_of_mem (mem_given.mp hm).1)

end Json

/-! ## Conversion and validation -/

namespace Arguments

variable {members : List (String × Json)} {args : Arguments} {e : Error}

theorem denotes_of_ofMembers (maps : (Json.object members).Everywhere Json.KeysDistinct)
    (h : ofMembers members = .ok args) :
    (Json.object (Json.given members)).Denotes (.object args) := by
  obtain ⟨entries, converted, rfl⟩ := map_eq_ok.mp h
  exact Value.denotes_of_ofJson (Json.keysDistinct_given maps)
    (map_eq_ok.mpr ⟨entries, converted, rfl⟩)

theorem ofMembers_eq_error_iff (maps : (Json.object members).Everywhere Json.KeysDistinct) :
    ofMembers members = .error e ↔ Json.NullInside members ∧ e = .nestedNull := by
  have whole : ofMembers members = .error e ↔
      Value.ofJson (.object (Json.given members)) = .error e := by
    rw [Value.ofJson, ofMembers, ← Json.given, map_eq_error, map_eq_error]
  rw [whole, Value.ofJson_eq_error_iff (Json.keysDistinct_given maps),
    Json.null_within_given_iff, and_comm]

theorem firstFault_eq_none_of_denotes (h : (Json.object members).Denotes (.object args)) :
    args.firstFault = none ↔ ¬Json.Unnamed members := by
  have whole : args.firstFault = none ↔ (Value.object args).Everywhere Value.Faultless :=
    @Value.firstFault_eq_none_iff "" (.object args)
  rw [whole, h.everywhere_faultless_iff, Json.Unnamed, not_exists]
  simp only [not_and]

/-- Of values from JSON only the keys can be faulty. -/
theorem firstFault_of_denotes (h : (Json.object members).Denotes (.object args)) :
    args.firstFault = some e ↔ Json.Unnamed members ∧ e = .unnamedArgument := by
  have kind : ∀ {d}, args.firstFault = some d → d = .unnamedArgument := by
    intro d hd
    obtain ⟨before, site, after, sites, -, fault⟩ := firstFault_eq_some_iff.mp hd
    have listed : site ∈ (Value.object args).sites "" := by
      rw [Value.sites, ← Arguments.sites, sites]
      exact List.mem_append_right _ List.mem_cons_self
    cases site with
    | name key =>
      rw [Site.fault?, Option.ite_none_right_eq_some] at fault
      exact (Option.some.inj fault.2).symm
    | number key n =>
      obtain ⟨k, -, hk⟩ := h.exists_within_value (Value.within_of_mem_sites listed)
      cases hk with
      | number hn =>
        rw [Site.fault?, if_pos hn.isFinite] at fault
        exact nomatch fault
  have none := firstFault_eq_none_of_denotes h
  constructor
  · intro hd
    exact ⟨by_contra fun named => (nomatch hd.symm.trans (none.mpr named)), kind hd⟩
  · rintro ⟨unnamed, rfl⟩
    obtain ⟨d, hd⟩ := Option.ne_none_iff_exists'.mp fun fine => none.mp fine unnamed
    exact kind hd ▸ hd

end Arguments

namespace Field

variable {f g : Field} {j : Json} {members : List (String × Json)} {e : Error}

theorem setArgumentsJson_object_eq_error_iff
    (maps : (Json.object members).Everywhere Json.KeysDistinct) :
    f.setArgumentsJson (.object members) = .error e ↔
      Json.NullInside members ∧ e = .nestedNull ∨
      ¬Json.NullInside members ∧ Json.Unnamed (Json.given members) ∧ e = .unnamedArgument := by
  rw [setArgumentsJson, bind_eq_error, Arguments.ofMembers_eq_error_iff maps]
  refine or_congr_right ⟨?_, ?_⟩
  · rintro ⟨args, converted, refused⟩
    have denotes := Arguments.denotes_of_ofMembers maps converted
    have fault := (Arguments.firstFault_of_denotes denotes).mp (overlay_eq_error_iff.mp refused)
    exact ⟨fun inside => denotes.not_null_within (Json.null_within_given_iff.mpr inside), fault⟩
  · rintro ⟨complete, unnamed⟩
    cases converted : Arguments.ofMembers members with
    | error d => exact absurd ((Arguments.ofMembers_eq_error_iff maps).mp converted).1 complete
    | ok args =>
      have denotes := Arguments.denotes_of_ofMembers maps converted
      have fault := (Arguments.firstFault_of_denotes denotes).mpr unnamed
      exact ⟨args, rfl, overlay_eq_error_iff.mpr fault⟩

theorem setArgumentsJson_eq_error_iff (maps : j.Everywhere Json.KeysDistinct) :
    f.setArgumentsJson j = .error e ↔
      ((∀ members, j ≠ .object members) ∧ e = .argumentsNotObject j) ∨
      ∃ members, j = .object members ∧
        (Json.NullInside members ∧ e = .nestedNull ∨
          ¬Json.NullInside members ∧ Json.Unnamed (Json.given members) ∧ e = .unnamedArgument) := by
  cases j with
  | object members =>
    rw [setArgumentsJson_object_eq_error_iff maps]
    simp
  | _ => simp [setArgumentsJson, eq_comm]

theorem denotes_of_setArgumentsJson (maps : j.Everywhere Json.KeysDistinct)
    (h : f.setArgumentsJson j = .ok g) :
    ∃ members args, j = .object members ∧
      (Json.object (Json.given members)).Denotes (.object args) ∧
      g = { f with arguments := Entries.extend f.arguments args } := by
  obtain ⟨members, args, rfl, converted, laid⟩ := setArgumentsJson_eq_ok_iff.mp h
  have denotes := Arguments.denotes_of_ofMembers maps converted
  exact ⟨members, args, rfl, denotes, (overlay_eq_ok_iff.mp laid).2⟩

/-- A JSON value is refused as arguments exactly if it is not an object, or null stands inside a
member, or an empty key somewhere in the members that are not null themselves. Null inside counts
before every empty key, wherever the two stand, and nothing else is reported, least of all about a
number. Otherwise the members that are not null are laid over the arguments in their order, and each
has the value that it stands for. -/
theorem setArgumentsJson_outcome (f : Field) {j : Json} (maps : j.Everywhere Json.KeysDistinct) :
    ((∃ e, f.setArgumentsJson j = .error e) ↔
      (∀ members, j ≠ .object members) ∨ ∃ members, j = .object members ∧
        (Json.NullInside members ∨ Json.Unnamed (Json.given members))) ∧
    (∀ e, f.setArgumentsJson j = .error e ↔
      ((∀ members, j ≠ .object members) ∧ e = .argumentsNotObject j) ∨
      ∃ members, j = .object members ∧
        (Json.NullInside members ∧ e = .nestedNull ∨
          ¬Json.NullInside members ∧ Json.Unnamed (Json.given members) ∧
            e = .unnamedArgument)) ∧
    (∀ e, f.setArgumentsJson j = .error e → e.kind = .invalidArgument ∧
      e.message ∈ ["Arguments must be an object", "Received null for a nested argument value",
        "Argument names must not be empty"]) ∧
    ∀ g, f.setArgumentsJson j = .ok g → ∃ members args, j = .object members ∧
      (Json.object (Json.given members)).Denotes (.object args) ∧
      g = { f with arguments := Entries.extend f.arguments args } := by
  refine ⟨?_, fun e => setArgumentsJson_eq_error_iff maps, fun e h => ?_, fun g =>
    denotes_of_setArgumentsJson maps⟩
  · simp only [setArgumentsJson_eq_error_iff maps]
    constructor
    · rintro ⟨e, ⟨other, -⟩ | ⟨members, same, ⟨inside, -⟩ | ⟨-, unnamed, -⟩⟩⟩
      · exact .inl other
      · exact .inr ⟨members, same, .inl inside⟩
      · exact .inr ⟨members, same, .inr unnamed⟩
    · rintro (other | ⟨members, same, faulty⟩)
      · exact ⟨_, .inl ⟨other, rfl⟩⟩
      · by_cases inside : Json.NullInside members
        · exact ⟨_, .inr ⟨members, same, .inl ⟨inside, rfl⟩⟩⟩
        · exact ⟨_, .inr ⟨members, same, .inr ⟨inside, faulty.resolve_left inside, rfl⟩⟩⟩
  · obtain ⟨-, rfl⟩ | ⟨members, -, ⟨-, rfl⟩ | ⟨-, -, rfl⟩⟩ :=
      (setArgumentsJson_eq_error_iff maps).mp h
    · exact ⟨rfl, List.mem_cons_self⟩
    · exact ⟨rfl, List.mem_cons_of_mem _ List.mem_cons_self⟩
    · exact ⟨rfl, List.mem_cons_of_mem _ (List.mem_cons_of_mem _ List.mem_cons_self)⟩

/-- The members `"":null,"above":9223372036854775808,"ids":[-1,true]`. -/
def sampleAbove : List (String × Json) :=
  [("", .null), ("above", .number (.int 0x8000000000000000 (by decide))),
    ("ids", .array [.number (.int (-1) (by decide)), .bool true])]

/-- The members `"":true,"after":[null]`. -/
def sampleHoles : List (String × Json) := [("", .bool true), ("after", .array [.null])]

theorem setArgumentsJson_outcome_sampleAbove :
    (Json.object sampleAbove).Everywhere Json.KeysDistinct ∧
      (Json.object sampleHoles).Everywhere Json.KeysDistinct ∧
      (∃ g x, (leaf "page").setArgumentsJson (.object sampleAbove) = .ok g ∧
        RoundsTo ((0x8000000000000000 : ℕ) : ℚ) x ∧ g.arguments =
          [("above", .number (.float x)), ("ids", .list [.number (.int (-1)), .boolean true])]) ∧
      (leaf "page").setArgumentsJson (.object sampleHoles) = .error .nestedNull := by
  have flat : ∀ {k : Json}, k.children = [] → k.KeysDistinct → k.Everywhere Json.KeysDistinct :=
    fun none h => (everywhere_of_no_children none).mpr h
  have above : (Json.object sampleAbove).Everywhere Json.KeysDistinct := by
    have distinct : (Entries.keys sampleAbove).Nodup := by decide
    refine everywhere_iff.mpr ⟨distinct, List.forall_mem_cons.mpr ⟨flat rfl trivial,
      List.forall_mem_cons.mpr ⟨flat rfl trivial, List.forall_mem_singleton.mpr ?_⟩⟩⟩
    exact everywhere_iff.mpr ⟨trivial, List.forall_mem_cons.mpr ⟨flat rfl trivial,
      List.forall_mem_singleton.mpr (flat rfl trivial)⟩⟩
  have holes : (Json.object sampleHoles).Everywhere Json.KeysDistinct := by
    have distinct : (Entries.keys sampleHoles).Nodup := by decide
    refine everywhere_iff.mpr ⟨distinct, List.forall_mem_cons.mpr ⟨flat rfl trivial,
      List.forall_mem_singleton.mpr ?_⟩⟩
    exact everywhere_iff.mpr ⟨trivial, List.forall_mem_singleton.mpr (flat rfl trivial)⟩
  refine ⟨above, holes, ?_, ?_⟩
  · obtain ⟨-, -, -, results⟩ := setArgumentsJson_outcome (leaf "page") above
    obtain ⟨members, args, same, denotes, laid⟩ := results _ rfl
    cases same
    cases denotes with
    | object keys values =>
      have distinct : (Entries.keys args).Nodup := by
        rw [keys]
        decide
      have whole := (congrArg arguments laid).trans (Entries.ofList_of_nodup distinct)
      subst whole
      have first : (Json.number (.int 0x8000000000000000 (by decide))).Denotes
          (.number (.float (Binary64.ofNat 0x8000000000000000))) := by
        cases values with
        | cons first _ => exact first
      cases first with
      | number h =>
        cases h with
        | large _ rounds => exact ⟨_, _, rfl, rounds, rfl⟩
  · obtain ⟨-, refused, -⟩ := setArgumentsJson_outcome (leaf "page") holes
    have inside : Json.NullInside sampleHoles :=
      ⟨_, List.mem_cons_of_mem _ List.mem_cons_self, .null, List.mem_cons_self, .refl⟩
    exact (refused _).mpr (.inr ⟨_, rfl, .inl ⟨inside, rfl⟩⟩)

end Field

end GraphQLDoc
