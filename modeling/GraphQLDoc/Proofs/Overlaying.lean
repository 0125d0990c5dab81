import GraphQLDoc.Proofs.Equality
import GraphQLDoc.Proofs.Faults

/-!
# Arguments over arguments

Arguments that are set lie over those that a field has. Setting some and then others comes to
setting all of them at once, and the order of the two only shows in the order of keys.

* `Entries.extend_ofList`: entries may repeat keys when they are laid over a map.
* `Arguments.firstFault_extend`: a map without faults over another one has none either.
* `Field.setArguments_twice_eq_ok_iff`: two steps, as to when they succeed and with which field.
* `Field.setArguments_overlays`: the keys and values of the field that results, two steps in one,
  and two steps in either order.
-/

namespace GraphQLDoc

theorem Entries.extend_ofList {α : Type} (entries others : Entries α) :
    entries.extend (ofList others) = entries.extend others := by
  have none : (keys ([] : Entries α)).Nodup := List.nodup_nil
  exact extend_extend entries none others

theorem Arguments.firstFault_extend {args others : Arguments} (h : args.firstFault = none)
    (h' : others.firstFault = none) : firstFault (Entries.extend args others) = none := by
  obtain ⟨named, values⟩ := firstFault_eq_none_iff.mp h
  obtain ⟨named', values'⟩ := firstFault_eq_none_iff.mp h'
  refine firstFault_eq_none_iff.mpr ⟨fun empty => ?_, fun entry he => ?_⟩
  · rw [Entries.keys_extend, mem_addNames] at empty
    exact empty.elim named named'
  · exact (Entries.mem_extend he).elim (values entry) (values' entry)

namespace Field

variable {f g h : Field} {a b : List (String × Option Value)}

theorem setArguments_eq_ok_iff_extend :
    f.setArguments a = .ok g ↔
      Arguments.firstFault (Entries.ofList (givenEntries a)) = none ∧
        g = { f with arguments := Entries.extend f.arguments (givenEntries a) } := by
  rw [setArguments_eq_ok_iff, Entries.extend_ofList]

theorem setArguments_twice_eq_ok_iff :
    (f.setArguments a >>= fun h => h.setArguments b) = .ok g ↔
      Arguments.firstFault (Entries.ofList (givenEntries a)) = none ∧
      Arguments.firstFault (Entries.ofList (givenEntries b)) = none ∧
      g = { f with arguments :=
        Entries.extend (Entries.extend f.arguments (givenEntries a)) (givenEntries b) } := by
  simp only [bind_eq_ok, setArguments_eq_ok_iff_extend]
  constructor
  · rintro ⟨_, ⟨ha, rfl⟩, hb, rfl⟩
    exact ⟨ha, hb, rfl⟩
  · rintro ⟨ha, hb, rfl⟩
    exact ⟨_, ⟨ha, rfl⟩, hb, rfl⟩

/-- A fault that the first step does not have is not brought in by the second one. -/
theorem setArguments_append
    (two : (f.setArguments a >>= fun h => h.setArguments b) = .ok g) :
    f.setArguments (a ++ b) = .ok g := by
  obtain ⟨ha, hb, rfl⟩ := setArguments_twice_eq_ok_iff.mp two
  have whole : Entries.ofList (givenEntries (a ++ b)) =
      Entries.extend (Entries.ofList (givenEntries a)) (Entries.ofList (givenEntries b)) := by
    rw [Entries.extend_ofList, givenEntries_append, Entries.ofList, Entries.extend_append,
      Entries.ofList]
  refine setArguments_eq_ok_iff_extend.mpr ⟨whole ▸ Arguments.firstFault_extend ha hb, ?_⟩
  rw [givenEntries_append, Entries.extend_append]

/-- The values that result do not depend on the order of two steps that share no key. -/
theorem get?_extend_comm (args : Arguments)
    (apart : ∀ key v w, (key, some v) ∈ a → (key, some w) ∉ b) (key : String) :
    Entries.get? (Entries.extend (Entries.extend args (givenEntries a)) (givenEntries b)) key =
      Entries.get? (Entries.extend (Entries.extend args (givenEntries b)) (givenEntries a))
        key := by
  simp only [Entries.get?_extend_lastOf?]
  cases ha : Entries.lastOf? (givenEntries a) key with
  | none => rfl
  | some v =>
    cases hb : Entries.lastOf? (givenEntries b) key with
    | none => rfl
    | some w =>
      have inA := mem_givenEntries.mp (Entries.mem_of_lastOf? ha)
      have inB := mem_givenEntries.mp (Entries.mem_of_lastOf? hb)
      exact absurd inB (apart key v w inA)

theorem setArguments_twice_equal (hf : f.Reachable)
    (apart : ∀ key v w, (key, some v) ∈ a → (key, some w) ∉ b)
    (maps : ∀ key v, (key, some v) ∈ a ++ b → v.Everywhere Value.KeysDistinct)
    (hg : (f.setArguments a >>= fun x => x.setArguments b) = .ok g)
    (hh : (f.setArguments b >>= fun x => x.setArguments a) = .ok h) : (g == h) = true := by
  have mapsA : ∀ key v, (key, some v) ∈ a → v.Everywhere Value.KeysDistinct := fun key v hv =>
    maps key v (List.mem_append_left b hv)
  have mapsB : ∀ key v, (key, some v) ∈ b → v.Everywhere Value.KeysDistinct := fun key v hv =>
    maps key v (List.mem_append_right a hv)
  have sound : g.Sound := by
    obtain ⟨x, first, second⟩ := bind_eq_ok.mp hg
    exact ((hf.setArguments mapsA first).setArguments mapsB second).wellFormed.here
  have distinct := hf.wellFormed.here.arguments.distinct
  obtain ⟨-, -, rfl⟩ := setArguments_twice_eq_ok_iff.mp hg
  obtain ⟨-, -, rfl⟩ := setArguments_twice_eq_ok_iff.mp hh
  have subfields : equalAll f.subfields f.subfields = true :=
    equalAll_self fun x hx => equal_self (hf.wellFormed.of_mem hx)
  refine equal_iff.mpr ⟨rfl, ?_, subfields, rfl⟩
  exact Arguments.equal_of_get?
    (Entries.nodup_keys_extend (Entries.nodup_keys_extend distinct _) _)
    (Entries.nodup_keys_extend (Entries.nodup_keys_extend distinct _) _)
    (get?_extend_comm f.arguments apart) sound.values_equal_self

/-- A field keeps its arguments in their order when more are set, and the new keys follow where they
are first given a value. A key has the last value that it is given, as a whole, and its old value if
it is given none. What two steps make, one step with the entries of both makes as well. Steps that
share no key can be taken in either order: both ways succeed or neither does, and the fields are
equal. -/
theorem setArguments_overlays (hf : f.Reachable) (a b : List (String × Option Value)) :
    (∀ g, f.setArguments a = .ok g →
      (Entries.keys g.arguments).Nodup ∧
      Entries.keys g.arguments = Entries.keys f.arguments ++
        ((Entries.keys (givenEntries a)).filter (· ∉ Entries.keys f.arguments)).eraseDups ∧
      (∀ key, Entries.get? g.arguments key =
        (Entries.lastOf? (givenEntries a) key).or (Entries.get? f.arguments key)) ∧
      g.name = f.name ∧ g.subfields = f.subfields ∧ g.spreads = f.spreads) ∧
    (∀ g, (f.setArguments a >>= fun x => x.setArguments b) = .ok g →
      f.setArguments (a ++ b) = .ok g) ∧
    ((∀ key v w, (key, some v) ∈ a → (key, some w) ∉ b) →
      ((∃ g, (f.setArguments a >>= fun x => x.setArguments b) = .ok g) ↔
        ∃ h, (f.setArguments b >>= fun x => x.setArguments a) = .ok h) ∧
      ((∀ key v, (key, some v) ∈ a ++ b → v.Everywhere Value.KeysDistinct) →
        ∀ g h, (f.setArguments a >>= fun x => x.setArguments b) = .ok g →
          (f.setArguments b >>= fun x => x.setArguments a) = .ok h → (g == h) = true)) := by
  have distinct := hf.wellFormed.here.arguments.distinct
  refine ⟨fun g hg => ?_, fun _ => setArguments_append, fun apart => ⟨?_, fun maps _ _ =>
    setArguments_twice_equal hf apart maps⟩⟩
  · obtain ⟨-, rfl⟩ := setArguments_eq_ok_iff_extend.mp hg
    exact ⟨Entries.nodup_keys_extend distinct _, Entries.keys_extend_eraseDups _ _,
      Entries.get?_extend_lastOf? _ _, rfl, rfl, rfl⟩
  · simp only [setArguments_twice_eq_ok_iff]
    exact ⟨fun ⟨_, ha, hb, _⟩ => ⟨_, hb, ha, rfl⟩, fun ⟨_, hb, ha, _⟩ => ⟨_, ha, hb, rfl⟩⟩

/-- The arguments `first:1,filter:"all",first:2`, with no value for `after`. -/
def samplePage : List (String × Option Value) :=
  [("first", some (.number (.int 1))), ("after", none), ("filter", some (.string "all")),
    ("first", some (.number (.int 2)))]

/-- The argument `since:"May"`, with no value for `after`. -/
def sampleSince : List (String × Option Value) := [("since", some (.string "May")), ("after", none)]

theorem setArguments_overlays_sampleUser :
    sampleUser.Reachable ∧
      (∃ g, sampleUser.setArguments samplePage = .ok g ∧
        Entries.keys g.arguments = ["filter", "first"] ∧
        Entries.get? g.arguments "filter" = some (.string "all") ∧
        Entries.get? g.arguments "first" = some (.number (.int 2))) ∧
      ∃ g h, sampleUser.setArguments (samplePage ++ sampleSince) = .ok g ∧
        (sampleUser.setArguments sampleSince >>= fun x => x.setArguments samplePage) = .ok h ∧
        (g == h) = true ∧ Entries.keys g.arguments = ["filter", "first", "since"] ∧
        Entries.keys h.arguments = ["filter", "since", "first"] := by
  have apart : ∀ key v w, (key, some v) ∈ samplePage → (key, some w) ∉ sampleSince := by
    intro key v w ha hb
    simp only [samplePage, sampleSince, List.mem_cons, Prod.mk.injEq] at ha hb
    grind
  have maps : ∀ key v, (key, some v) ∈ samplePage ++ sampleSince →
      v.Everywhere Value.KeysDistinct := by
    intro key v hv
    have flat : v.children = [] ∧ v.KeysDistinct := by
      simp only [samplePage, sampleSince, List.cons_append, List.nil_append, List.mem_cons,
        List.not_mem_nil, Prod.mk.injEq, Option.some.injEq, reduceCtorEq, and_false, or_false,
        false_or] at hv
      obtain ⟨-, rfl⟩ | ⟨-, rfl⟩ | ⟨-, rfl⟩ | ⟨-, rfl⟩ := hv <;> exact ⟨rfl, trivial⟩
    exact (Value.everywhere_of_no_children flat.1).mpr flat.2
  obtain ⟨one, two, either⟩ := setArguments_overlays reachable_sampleUser samplePage sampleSince
  obtain ⟨-, order, values, -⟩ := one _ rfl
  exact ⟨reachable_sampleUser, ⟨_, rfl, order.trans rfl, (values "filter").trans rfl,
    (values "first").trans rfl⟩, _, _, two _ rfl, rfl, (either apart).2 maps _ _ rfl rfl, rfl, rfl⟩

end Field

end GraphQLDoc
