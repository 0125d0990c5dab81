import GraphQLDoc.Proofs.Acceptance
import Mathlib.Logic.Relation

/-!
# Spellings of a response

A body can be spelled in many ways. It is an object or an array, an object has its members in any
order and may have more of them, and an error is an object or an array as well. All of this is lost
in reading, and so is what is wrong with a body that is not accepted: it has the same fault in every
spelling.

* `Response.RespellsEntry`, `Response.Respells`: one change of the spelling.
* `Response.messageOfEntry_respelled`, `Response.ofBody_respelled`: one change makes no difference.
* `Response.ofJson_respelled`: neither do any number of changes.
-/

namespace GraphQLDoc

namespace Response

/-- The second entry of an error list spells the first one in another way. -/
inductive RespellsEntry : Json → Json → Prop
  /-- The members in another order. -/
  | order {members others : List (String × Json)} (distinct : (Entries.keys members).Nodup)
      (h : members.Perm others) : RespellsEntry (.object members) (.object others)
  /-- One more member. -/
  | extra {before after : List (String × Json)} {key : String} {j : Json} (h : key ≠ "message") :
      RespellsEntry (.object (before ++ after)) (.object (before ++ (key, j) :: after))
  /-- An array with nothing but the message, whether it is a text or not. -/
  | item {members : List (String × Json)} {j : Json} (h : Entries.get? members "message" = some j) :
      RespellsEntry (.object members) (.array [j])

/-- The second body spells the first one in another way. -/
inductive Respells : Json → Json → Prop
  /-- An object in place of an array of both parts. -/
  | both (data errors : Json) :
      Respells (.array [data, errors]) (.object [("data", data), ("errors", errors)])
  /-- An object in place of an array of the data. -/
  | data (data : Json) : Respells (.array [data]) (.object [("data", data)])
  /-- An object in place of an array without any part. -/
  | empty : Respells (.array []) (.object [])
  /-- The members in another order. -/
  | order {members others : List (String × Json)} (distinct : (Entries.keys members).Nodup)
      (h : members.Perm others) : Respells (.object members) (.object others)
  /-- One more member. -/
  | extra {before after : List (String × Json)} {key : String} {j : Json} (data : key ≠ "data")
      (errors : key ≠ "errors") :
      Respells (.object (before ++ after)) (.object (before ++ (key, j) :: after))
  /-- Another spelling of one entry of the error list. -/
  | entry {before after : List (String × Json)} {front back : List Json} {entry other : Json}
      (h : RespellsEntry entry other) :
      Respells (.object (before ++ ("errors", .array (front ++ entry :: back)) :: after))
        (.object (before ++ ("errors", .array (front ++ other :: back)) :: after))

/-! ## One change -/

section Members

variable {before after : List (String × Json)} {key name : String} {j : Json}

/-- A member is found past one of another name. -/
theorem get?_extra (h : key ≠ name) :
    Entries.get? (before ++ (key, j) :: after) name = Entries.get? (before ++ after) name := by
  rw [Entries.get?_append, Entries.get?_append, Entries.get?, if_neg h]

/-- An earlier member of the same name hides a member. -/
theorem get?_middle :
    Entries.get? (before ++ (key, j) :: after) key = (Entries.get? before key).or (some j) := by
  rw [Entries.get?_append, Entries.get?_cons_self]

end Members

theorem messageOfEntry_respelled {entry other : Json} (h : RespellsEntry entry other) :
    messageOfEntry entry = messageOfEntry other := by
  cases h with
  | order distinct h => rw [messageOfEntry, messageOfEntry, Entries.get?_perm distinct h]
  | extra h => rw [messageOfEntry, messageOfEntry, get?_extra h]
  | @item members j h =>
    have keyed : messageOfEntry (.object members) = messageOfJson j := by
      rw [messageOfEntry, h]
    have listed : messageOfEntry (.array [j]) = messageOfJson j := bind_pure _
    rw [keyed, listed]

theorem messagesOfEntries_congr {entry other : Json} (front back : List Json)
    (h : messageOfEntry entry = messageOfEntry other) :
    messagesOfEntries (front ++ entry :: back) = messagesOfEntries (front ++ other :: back) := by
  induction front with
  | nil => rw [List.nil_append, List.nil_append, messagesOfEntries, messagesOfEntries, h]
  | cons j front ih =>
    rw [List.cons_append, List.cons_append, messagesOfEntries, messagesOfEntries, ih]

theorem ofBody_array_of_short {items : List Json} (h : items.length ≤ 2) :
    ofBody (.array items) = ofParts items[0]? items[1]? := by
  simp only [ofBody, if_pos h, bind_pure]

theorem ofBody_object_congr {members others : List (String × Json)}
    (data : Entries.get? members "data" = Entries.get? others "data")
    (errors : Entries.get? members "errors" = Entries.get? others "errors") :
    ofBody (.object members) = ofBody (.object others) := by
  rw [ofBody, ofBody, data, errors]

theorem ofBody_respelled {body other : Json} (h : Respells body other) :
    ofBody body = ofBody other := by
  cases h with
  | both data errors => exact ofBody_array_of_short (Nat.le_refl 2)
  | data data => exact ofBody_array_of_short (Nat.le_succ 1)
  | empty => exact ofBody_array_of_short (Nat.zero_le 2)
  | order distinct h =>
    exact ofBody_object_congr (Entries.get?_perm distinct h _) (Entries.get?_perm distinct h _)
  | extra data errors => exact ofBody_object_congr (get?_extra data).symm (get?_extra errors).symm
  | @entry before after front back entry other h =>
    have same : messagesOfErrors (.array (front ++ entry :: back)) =
        messagesOfErrors (.array (front ++ other :: back)) :=
      congrArg (Except.map some) (messagesOfEntries_congr front back (messageOfEntry_respelled h))
    have key : "errors" ≠ "data" := by decide
    rw [ofBody, ofBody, get?_extra key, get?_extra key, get?_middle, get?_middle]
    cases Entries.get? before "errors" with
    | some earlier => rfl
    | none =>
      rw [Option.none_or, Option.none_or, ofParts, ofParts, Option.getD_some, Option.getD_some,
        same]

/-! ## Any number of changes -/

/-- Reading does not depend on the spelling: bodies that lead to each other by changes of the
spelling, in either direction, give the same response or the same fault. -/
theorem ofJson_respelled {body other : Json} (h : Relation.EqvGen Respells body other) :
    ofJson body = ofJson other := by
  induction h with
  | rel body other h => rw [ofJson, ofJson, ofBody_respelled h]
  | refl body => rfl
  | symm body other _ ih => exact ih.symm
  | trans body other third _ _ first second => exact first.trans second

/-- The body `{"errors":[{"code":1,"message":null}],"data":true}`. -/
def sampleUnreadable : Json :=
  .object [
    ("errors", .array [.object [("code", .number (.int 1 (by decide))), ("message", .null)]]),
    ("data", .bool true)]

theorem ofJson_respelled_samples :
    Relation.EqvGen Respells sampleFailures
        (.array [.null, .array [.array [.string "a"], .array [.string "b"]]]) ∧
      ofJson (.array [.null, .array [.array [.string "a"], .array [.string "b"]]]) =
        ofJson sampleFailures ∧
      Relation.EqvGen Respells sampleUnreadable (.array [.bool true, .array [.array [.null]]]) ∧
      ofJson (.array [.bool true, .array [.array [.null]]]) =
        .error (.malformedResponse (.wrongType .message .null)) := by
  -- The entries first, then the order of the members, and at last the names of the members.
  have spelled : ∀ (data : Json) (entries : List Json), Relation.EqvGen Respells
      (.object [("errors", .array entries), ("data", data)]) (.array [data, .array entries]) :=
    fun data entries => by
      have distinct : ["errors", "data"].Nodup := by decide
      exact .trans _ _ _ (.rel _ _ (.order distinct (.swap _ _ _)))
        (.symm _ _ (.rel _ _ (.both data (.array entries))))
  have failures : Relation.EqvGen Respells sampleFailures
      (.array [.null, .array [.array [.string "a"], .array [.string "b"]]]) :=
    .trans _ _ _ (.rel _ _ (@Respells.entry [] _ [] _ _ _ (.item rfl))) (spelled _ _)
  have unreadable : Relation.EqvGen Respells sampleUnreadable
      (.array [.bool true, .array [.array [.null]]]) :=
    .trans _ _ _ (.rel _ _ (@Respells.entry [] _ [] _ _ _ (.item rfl))) (spelled _ _)
  exact ⟨failures, (ofJson_respelled failures).symm, unreadable,
    (ofJson_respelled unreadable).symm.trans rfl⟩

end Response

end GraphQLDoc
