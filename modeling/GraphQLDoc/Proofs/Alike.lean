import GraphQLDoc.Proofs.Decoding

/-!
# Texts and the trees that they come from

* `Value.Alike`, `Field.Alike`: trees that differ in the variants of their leaves only, and in none
  that are written differently.
* `field?_text`, `operation?_text`: whole texts are read back.
* `text_decodable`: the same for numbers as decimals, and what equal texts have in common.
-/

namespace GraphQLDoc

mutual

/-- The values differ in the variants of their leaves at most, and leaves are written alike. -/
def Value.Alike : Value → Value → Prop
  | .string s, .string t => s = t
  | .string s, .instant t => s.toList = t.chars
  | .instant s, .string t => s.chars = t.toList
  | .instant s, .instant t => s.chars = t.chars
  | .number m, .number n => m.chars = n.chars
  | .boolean a, .boolean b => a = b
  | .enum a, .enum b => a = b
  | .list items, .list others => Value.AlikeItems items others
  | .object entries, .object others => Value.AlikeEntries entries others
  | _, _ => False

def Value.AlikeItems : List Value → List Value → Prop
  | [], [] => True
  | v :: vs, w :: ws => v.Alike w ∧ Value.AlikeItems vs ws
  | _, _ => False

/-- Alike, entry by entry, under the same keys in the same order. -/
def Value.AlikeEntries : List (String × Value) → List (String × Value) → Prop
  | [], [] => True
  | (key, v) :: rest, (other, w) :: others =>
    key = other ∧ v.Alike w ∧ Value.AlikeEntries rest others
  | _, _ => False

end

mutual

/-- The fields differ in the leaves of their arguments at most, and these are written alike. -/
def Field.Alike : Field → Field → Prop
  | ⟨name, arguments, subfields, spreads⟩, g =>
    name = g.name ∧ Value.AlikeEntries arguments g.arguments ∧
      Field.AlikeAll subfields g.subfields ∧ spreads = g.spreads

def Field.AlikeAll : List Field → List Field → Prop
  | [], [] => True
  | f :: fs, g :: gs => f.Alike g ∧ Field.AlikeAll fs gs
  | _, _ => False

end

mutual

theorem Value.alike_of_literal : ∀ {v w : Value},
    v.literal Number.chars = w.literal Number.chars → v.Alike w
  | .string s, w, h => by
    cases w with
    | string t => exact Literal.string.inj h
    | instant t =>
      have same : s = String.ofList t.chars := Literal.string.inj h
      exact same ▸ String.toList_ofList
    | _ => exact nomatch h
  | .instant s, w, h => by
    cases w with
    | string t =>
      have same : String.ofList s.chars = t := Literal.string.inj h
      exact same ▸ String.toList_ofList.symm
    | instant t => exact String.ofList_injective (Literal.string.inj h)
    | _ => exact nomatch h
  | .number m, w, h => by
    cases w with
    | number n => exact Literal.number.inj h
    | _ => exact nomatch h
  | .boolean a, w, h => by
    cases w with
    | boolean b => exact Literal.boolean.inj h
    | _ => exact nomatch h
  | .enum a, w, h => by
    cases w with
    | enum b => exact Literal.enum.inj h
    | _ => exact nomatch h
  | .list items, w, h => by
    cases w with
    | list others => exact Value.alikeItems_of_literals (Literal.list.inj h)
    | _ => exact nomatch h
  | .object entries, w, h => by
    cases w with
    | object others => exact Value.alikeEntries_of_literals (Literal.object.inj h)
    | _ => exact nomatch h

theorem Value.alikeItems_of_literals : ∀ {vs ws : List Value},
    Value.literals Number.chars vs = Value.literals Number.chars ws → Value.AlikeItems vs ws
  | [], [], _ => trivial
  | [], _ :: _, h => nomatch h
  | _ :: _, [], h => nomatch h
  | _ :: _, _ :: _, h =>
    ⟨Value.alike_of_literal (List.cons.inj h).1, Value.alikeItems_of_literals (List.cons.inj h).2⟩

theorem Value.alikeEntries_of_literals : ∀ {entries others : List (String × Value)},
    Value.entryLiterals Number.chars entries = Value.entryLiterals Number.chars others →
      Value.AlikeEntries entries others
  | [], [], _ => trivial
  | [], _ :: _, h => nomatch h
  | _ :: _, [], h => nomatch h
  | (_, _) :: _, (_, _) :: _, h => by
    obtain ⟨first, rest⟩ := List.cons.inj h
    obtain ⟨key, literal⟩ := Prod.mk.inj first
    exact ⟨key, Value.alike_of_literal literal, Value.alikeEntries_of_literals rest⟩

end

mutual

theorem Field.alike_of_outline : ∀ {f g : Field},
    f.outline Number.chars = g.outline Number.chars → f.Alike g
  | ⟨_, _, _, _⟩, ⟨_, _, _, _⟩, h => by
    obtain ⟨name, arguments, subfields, spreads⟩ := Outline.mk.inj h
    exact ⟨name, Value.alikeEntries_of_literals arguments, Field.alikeAll_of_outlines subfields,
      spreads⟩

theorem Field.alikeAll_of_outlines : ∀ {fs gs : List Field},
    Field.outlines Number.chars fs = Field.outlines Number.chars gs → Field.AlikeAll fs gs
  | [], [], _ => trivial
  | [], _ :: _, h => nomatch h
  | _ :: _, [], h => nomatch h
  | _ :: _, _ :: _, h =>
    ⟨Field.alike_of_outline (List.cons.inj h).1, Field.alikeAll_of_outlines (List.cons.inj h).2⟩

end

/-! ## Whole texts -/

section Texts

variable {ν : Type} {number? : List Char → Option ν} {number : Number → ν}
  (hn : ReadsNumbers number? number)

include hn

theorem field?_text {f : Field} (hf : f.Reachable) (legible : f.Everywhere Field.Legible) :
    Reader.field? number? f.text = some (f.outline number) := by
  unfold Reader.field? Field.text
  rw [String.toList_ofList]
  exact Reader.whole_of_reads (Reader.reads_field hn legible hf.wellFormed (Nat.le_refl _))

theorem operation?_text {o : Operation} (ho : o.root.Reachable)
    (legible : o.root.Everywhere Field.Legible) :
    Reader.operation? number? o.text = some (o.type, o.root.outline number) := by
  unfold Reader.operation? Operation.text
  rw [String.toList_ofList]
  exact Reader.whole_of_reads (Reader.reads_operation hn legible ho.wellFormed (Nat.le_refl _))

end Texts

/-- Reading the text of a field or of an operation consumes it and gives back all that was written:
names, keys, values, subfields and fragments in their order, with each number as the decimal that is
written for it and each instant as the string between its quotes. So equal texts come from trees
that differ in the variants of leaves only. -/
theorem text_decodable :
    (∀ f : Field, f.Reachable → f.Everywhere Field.Legible →
      Reader.field? number? f.text = some (f.outline Number.value)) ∧
    (∀ o : Operation, o.root.Reachable → o.root.Everywhere Field.Legible →
      Reader.operation? number? o.text = some (o.type, o.root.outline Number.value)) ∧
    (∀ f g : Field, f.Reachable → f.Everywhere Field.Legible →
      g.Reachable → g.Everywhere Field.Legible → f.text = g.text → f.Alike g) ∧
    ∀ o p : Operation, o.root.Reachable → o.root.Everywhere Field.Legible →
      p.root.Reachable → p.root.Everywhere Field.Legible → o.text = p.text →
        o.type = p.type ∧ o.root.Alike p.root := by
  have exact : ReadsNumbers number? Number.value := fun _ finite => Number.number?_chars finite
  -- For equal texts it is enough to keep the spelling of numbers.
  have spelled : ReadsNumbers some Number.chars := fun _ _ => rfl
  refine ⟨fun f hf legible => field?_text exact hf legible,
    fun o ho legible => operation?_text exact ho legible, fun f g hf lf hg lg same => ?_,
    fun o p ho lo hp lp same => ?_⟩
  · have first := field?_text spelled hf lf
    rw [same, field?_text spelled hg lg] at first
    exact Field.alike_of_outline (Option.some.inj first).symm
  · have first := operation?_text spelled ho lo
    rw [same, operation?_text spelled hp lp] at first
    obtain ⟨type, outline⟩ := Prod.mk.inj (Option.some.inj first)
    exact ⟨type.symm, Field.alike_of_outline outline.symm⟩

theorem Field.legible_leaf {name : String} (h : isName name = true) :
    (leaf name).Everywhere Legible :=
  everywhere_iff.mpr ⟨⟨h, List.forall_mem_nil _, List.forall_mem_nil _⟩, List.forall_mem_nil _⟩

theorem Field.legible_sampleUser : sampleUser.Everywhere Legible := by
  have name : (leaf "name").Everywhere Legible := legible_leaf (by decide)
  have title : (leaf "title").Everywhere Legible := legible_leaf (by decide)
  have posts : { leaf "posts" with subfields := [leaf "title"] }.Everywhere Legible := by
    refine everywhere_iff.mpr ⟨⟨by decide, ?_, ?_⟩, List.forall_mem_singleton.mpr title⟩
    · exact List.forall_mem_nil _
    · exact List.forall_mem_nil _
  have filter : sampleFilter.Everywhere Value.Legible :=
    everywhere_sampleFilter (List.forall_mem_singleton.mpr (by decide)) trivial
  refine everywhere_iff.mpr ⟨⟨by decide, ?_, ?_⟩, ?_⟩
  · exact List.forall_mem_singleton.mpr (by decide)
  · exact List.forall_mem_singleton.mpr filter
  · exact List.forall_mem_cons.mpr ⟨name, List.forall_mem_singleton.mpr posts⟩

/-- The field `at` with one argument. -/
def Field.sampleAt (v : Value) : Field := { leaf "at" with arguments := [("time", v)] }

theorem Field.legible_sampleAt {v : Value} (h : v.Everywhere Value.Legible) :
    (sampleAt v).Everywhere Legible := by
  have name : isName "at" = true := by decide
  have key : isName "time" = true := by decide
  refine everywhere_iff.mpr ⟨⟨name, ?_, ?_⟩, List.forall_mem_nil _⟩
  · exact List.forall_mem_singleton.mpr key
  · exact List.forall_mem_singleton.mpr h

/-- The start of 1970. -/
def Instant.sample : Instant := ⟨0, 0, .inl (by decide)⟩

theorem text_decodable_samples :
    Field.sampleUser.Reachable ∧ Field.sampleUser.Everywhere Field.Legible ∧
      Reader.field? number? Field.sampleUser.text =
        some (Field.sampleUser.outline Number.value) ∧
      Reader.operation? number? (Operation.query Field.sampleUser).text =
        some (.query, Field.sampleUser.outline Number.value) ∧
      (Field.sampleAt (.string "1970-01-01T00:00:00.000Z")).Alike
        (Field.sampleAt (.instant .sample)) := by
  obtain ⟨fields, operations, -, alike⟩ := text_decodable
  have scalar : ∀ {v : Value} {p : Value → Prop}, v.children = [] → p v → v.Everywhere p :=
    fun flat h => (Value.everywhere_of_no_children flat).mpr h
  have reachable : ∀ {v : Value}, v.children = [] → v.KeysDistinct → v.Faultless →
      (Field.sampleAt v).Reachable :=
    fun flat distinct faultless => Field.reachable_of_argument (by decide) (by decide)
      (scalar flat distinct) (scalar flat faultless)
  have user := Field.reachable_sampleUser
  have legible := Field.legible_sampleUser
  refine ⟨user, legible, fields _ user legible, operations (.query _) user legible, ?_⟩
  have both := alike (.query (Field.sampleAt (.string "1970-01-01T00:00:00.000Z")))
    (.query (Field.sampleAt (.instant .sample)))
    (reachable rfl trivial trivial) (Field.legible_sampleAt (scalar rfl trivial))
    (reachable rfl trivial trivial) (Field.legible_sampleAt (scalar rfl trivial)) (by decide)
  exact both.2

end GraphQLDoc
