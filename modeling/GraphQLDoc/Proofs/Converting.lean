import GraphQLDoc.Proofs.Integers
import GraphQLDoc.Proofs.Values

/-!
# What JSON values stand for

The argument value that a JSON value stands for is given by a relation, and the conversion is
measured against it. Null stands for nothing, and that is all that can go wrong.

* `Json.KeysDistinct`: the members of an object form a map.
* `Json.Number.Denotes`, `Json.Denotes`: the number and the value that JSON stands for.
* `Json.Denotes.exists_within`, `Json.Denotes.exists_within_value`: what stands inside a JSON value
  denotes what stands inside its value.
* `Value.denotes_of_ofJson`, `Value.ofJson_eq_error_iff`: results and failures of the conversion.
-/

namespace GraphQLDoc

namespace Json

/-! ## The relation -/

/-- The members of an object form a map, so no key is repeated. -/
def KeysDistinct : Json → Prop
  | object members => (Entries.keys members).Nodup
  | _ => True

/-- An integer of 64 bits with a sign stands for itself, a larger one for the nearest double, and a
double for itself. -/
inductive Number.Denotes : Json.Number → GraphQLDoc.Number → Prop
  | int {n : Int} {fits} {i : Int64} (same : i.toInt = n) : Denotes (.int n fits) (.int i)
  | large {n : Nat} {fits} {x : Binary64} (large : 2 ^ 63 ≤ n) (rounds : RoundsTo n x) :
    Denotes (.int n fits) (.float x)
  | float {x : Binary64} {finite} : Denotes (.float x finite) (.float x)

/-- A value stands for one of the same shape. Nothing stands for an instant or a constant, and null
stands for nothing. -/
inductive Denotes : Json → Value → Prop
  | bool (b : Bool) : Denotes (.bool b) (.boolean b)
  | number {n : Json.Number} {m : GraphQLDoc.Number} (h : n.Denotes m) :
    Denotes (.number n) (.number m)
  | string (s : String) : Denotes (.string s) (.string s)
  | array {items : List Json} {values : List Value} (h : List.Forall₂ Denotes items values) :
    Denotes (.array items) (.list values)
  | object {members : List (String × Json)} {entries : List (String × Value)}
    (keys : Entries.keys entries = Entries.keys members)
    (values : List.Forall₂ Denotes (members.map Prod.snd) (entries.map Prod.snd)) :
    Denotes (.object members) (.object entries)

variable {j k : Json} {v w : Value}

theorem Number.Denotes.isFinite {n : Json.Number} {m : GraphQLDoc.Number} (h : n.Denotes m) :
    m.isFinite = true := by
  cases h with
  | int => rfl
  | large _ rounds => exact rounds.isFinite
  | @float x finite => exact finite

namespace Denotes

theorem children (h : j.Denotes v) : List.Forall₂ Denotes j.children v.children := by
  cases h with
  | array h => exact h
  | object _ values => exact values
  | _ => exact .nil

theorem exists_within (h : j.Denotes v) (hk : k.Within j) : ∃ w, w.Within v ∧ k.Denotes w :=
  hk.exists_related (fun _ _ => children) h

theorem exists_within_value (h : j.Denotes v) (hw : w.Within v) :
    ∃ k : Json, k.Within j ∧ k.Denotes w :=
  hw.exists_related (R := flip Denotes) (fun _ _ h => (children h).flip) h

theorem not_null_within (h : j.Denotes v) : ¬null.Within j := by
  intro hn
  obtain ⟨w, -, hw⟩ := h.exists_within hn
  cases hw

/-- Keys are the only thing about the value that can be faulty. -/
theorem everywhere_faultless_iff (h : j.Denotes v) :
    v.Everywhere Value.Faultless ↔
      ∀ members, (Json.object members).Within j → "" ∉ Entries.keys members := by
  constructor
  · intro faultless members hm
    obtain ⟨w, hw, hd⟩ := h.exists_within hm
    cases hd with
    | object keys _ => exact keys ▸ faultless _ hw
  · intro named w hw
    obtain ⟨k, hk, hd⟩ := h.exists_within_value hw
    cases hd with
    | number hn => exact hn.isFinite
    | object keys _ =>
      have listed := named _ hk
      rwa [← keys] at listed
    | _ => trivial

end Denotes

end Json

/-! ## The conversion -/

theorem Number.denotes_ofJson (n : Json.Number) : n.Denotes (Number.ofJson n) := by
  cases n with
  | float x finite => exact .float
  | int n fits =>
    rw [ofJson]
    split
    · next small =>
      refine .int (Int64.toInt_ofInt_of_le fits.1 ?_)
      unfold maxInt at small
      omega
    · next large =>
      unfold maxInt at large
      obtain ⟨k, rfl⟩ := Int.eq_ofNat_of_zero_le (show 0 ≤ n by omega)
      exact .large (by omega) (roundsTo_ofNat (by omega))

namespace Value

variable {j : Json} {v : Value} {e : Error}

/-- What a JSON value is converted to is what it stands for. -/
theorem denotes_of_ofJson (maps : j.Everywhere Json.KeysDistinct) (h : ofJson j = .ok v) :
    j.Denotes v := by
  induction j using Json.induction generalizing v with
  | step j ih =>
    have below : ∀ {values : List Value}, ofItems j.children = .ok values →
        List.Forall₂ Json.Denotes j.children values := by
      intro values hv
      rw [ofItems_eq_mapM, mapM_eq_ok_iff] at hv
      have each := (List.forall₂_and_left _ _).mpr
        ⟨fun k hk v => ih k hk (maps.of_mem hk) (v := v), hv⟩
      exact each.imp fun k v both => both.1 v both.2
    cases j with
    | null => cases h
    | bool b =>
      cases h
      exact .bool b
    | number n =>
      cases h
      exact .number (Number.denotes_ofJson n)
    | string s =>
      cases h
      exact .string s
    | array items =>
      obtain ⟨values, hv, rfl⟩ := map_eq_ok.mp h
      exact .array (below hv)
    | object members =>
      obtain ⟨entries, he, rfl⟩ := map_eq_ok.mp h
      rw [ofMembers_eq_map] at he
      obtain ⟨values, hv, rfl⟩ := map_eq_ok.mp he
      have values' := below hv
      have length : (Entries.keys members).length = values.length := by
        rw [← values'.length_eq]
        simp [Json.children, Entries.keys]
      have keys : Entries.keys ((Entries.keys members).zip values) = Entries.keys members :=
        List.map_fst_zip length.le
      rw [Entries.ofList_of_nodup (keys.symm ▸ maps.here)]
      refine .object keys ?_
      rwa [List.map_snd_zip length.ge]

theorem ofJson_eq_error (h : ofJson j = .error e) : e = .nestedNull ∧ Json.null.Within j := by
  induction j using Json.induction with
  | step j ih =>
    have below : ofItems j.children = .error e → e = .nestedNull ∧ Json.null.Within j := by
      intro h
      rw [ofItems_eq_mapM] at h
      obtain ⟨k, hk, failed⟩ := exists_of_mapM_eq_error h
      obtain ⟨same, deep⟩ := ih k hk failed
      exact ⟨same, .head hk deep⟩
    cases j with
    | null => exact ⟨(Except.error.inj h).symm, .refl⟩
    | array items => exact below (map_eq_error.mp h)
    | object members =>
      have h := map_eq_error.mp h
      rw [ofMembers_eq_map] at h
      exact below (map_eq_error.mp h)
    | _ => exact nomatch h

/-- Null is the only obstacle. -/
theorem ofJson_eq_error_iff (maps : j.Everywhere Json.KeysDistinct) :
    ofJson j = .error e ↔ e = .nestedNull ∧ Json.null.Within j := by
  refine ⟨ofJson_eq_error, fun ⟨same, hn⟩ => ?_⟩
  cases h : ofJson j with
  | error d => rw [same, (ofJson_eq_error h).1]
  | ok v => exact absurd hn (denotes_of_ofJson maps h).not_null_within

end Value

end GraphQLDoc
