import GraphQLDoc.Document
import GraphQLDoc.Proofs.Entries
import GraphQLDoc.Proofs.Steps
import Mathlib.Data.List.Perm.Subperm

/-!
# How many levels are enough

The search for declarations is cut off at a number of levels, one more than there are declarations.
No search is cut off too early: what this many levels do not settle, no number of levels settles.
This holds of all declarations, with cycles and without.

* `Declarations.expand`: one level, with what is given for each declaration on it.
* `Settled`: an outcome that is there, and that stays as it is.
* `Declarations.settled_neededWithin`: an outcome stays the same on more levels.
* `Declarations.exists_late_declaration`: what one more level changes, it changes for a declaration
  that is spread. So the names on the way to it differ (`Declarations.exists_way_of_late`).
* `Declarations.neededWithin_eq_neededBy`: more levels than declarations change nothing.
* `Declarations.neededBy_eq`: the recursion of `neededBy` without levels.
* `Declarations.neededBy_eq_cyclicFragments_iff`: the search has no end exactly if it is cut off on
  every number of levels.
-/

namespace GraphQLDoc

/-- If the first step has an outcome, the second one has the same. -/
def Settled {α : Type} (x y : Except Error α) : Prop := x ≠ .error .cyclicFragments → y = x

namespace Settled

variable {α β : Type} {x y : Except Error α} {f g : α → Except Error β}

theorem bind (h : Settled x y) (later : ∀ a, Settled (f a) (g a)) :
    Settled (x >>= f) (y >>= g) := by
  intro outcome
  cases x with
  | error e =>
    have failed : y = .error e := h fun endless => outcome (endless ▸ rfl)
    rw [failed]
    rfl
  | ok a =>
    have result : y = .ok a := h nofun
    rw [result]
    exact later a outcome

theorem mapM (each : ∀ a, Settled (f a) (g a)) (l : List α) : Settled (l.mapM f) (l.mapM g) := by
  induction l with
  | nil => exact fun _ => rfl
  | cons a l ih =>
    rw [List.mapM_cons, List.mapM_cons]
    exact (each a).bind fun b => ih.bind fun bs _ => rfl

end Settled

namespace Declarations

variable {ds : Declarations} {f d : Field} {levels more : Nat}

/-! ## One level -/

/-- The declarations that a field spreads, each followed by what is given for it. -/
def expand (ds : Declarations) (below : Field → Except Error (List Field)) (f : Field) :
    Except Error (List Field) := do
  let declarations ← ds.getAll f.allSpreads
  let parts ← declarations.mapM fun declaration => do
    let needed ← below declaration
    return declaration :: needed
  return parts.flatten

theorem neededWithin_succ (levels : Nat) (f : Field) :
    ds.neededWithin (levels + 1) f = ds.expand (ds.neededWithin levels) f := rfl

theorem eq_filterMap_of_getAll {names : List String} {declarations : List Field}
    (h : ds.getAll names = .ok declarations) : declarations = names.filterMap ds.get? := by
  induction names generalizing declarations with
  | nil => exact (Except.ok.inj h).symm
  | cons name names ih =>
    unfold getAll at h
    split at h
    · exact nomatch h
    · next d found =>
      obtain ⟨rest, hrest, h⟩ := bind_eq_ok.mp h
      rw [List.filterMap_cons_some found, ← ih hrest]
      exact (Except.ok.inj h).symm

theorem mem_of_getAll {names : List String} {declarations : List Field}
    (h : ds.getAll names = .ok declarations) (hd : d ∈ declarations) :
    ∃ n ∈ names, ds.get? n = some d := by
  rw [eq_filterMap_of_getAll h] at hd
  exact List.mem_filterMap.mp hd

theorem expand_congr {below other : Field → Except Error (List Field)}
    (h : ∀ n ∈ f.allSpreads, ∀ d, ds.get? n = some d → below d = other d) :
    ds.expand below f = ds.expand other f := by
  unfold expand
  cases hds : ds.getAll f.allSpreads with
  | error e => rfl
  | ok declarations =>
    refine congrArg (fun parts : Except Error (List (List Field)) => parts.map List.flatten) ?_
    refine mapM_congr fun d hd => ?_
    obtain ⟨n, hn, found⟩ := mem_of_getAll hds hd
    rw [h n hn d found]

theorem settled_expand {below other : Field → Except Error (List Field)}
    (h : ∀ d, Settled (below d) (other d)) : Settled (ds.expand below f) (ds.expand other f) := by
  have each : ∀ d, Settled (below d >>= fun needed => pure (d :: needed))
      (other d >>= fun needed => pure (d :: needed)) := fun d => (h d).bind fun _ _ => rfl
  have same : Settled (ds.getAll f.allSpreads) (ds.getAll f.allSpreads) := fun _ => rfl
  exact same.bind fun declarations => (Settled.mapM each declarations).bind fun _ _ => rfl

theorem settled_neededWithin (h : levels ≤ more) (f : Field) :
    Settled (ds.neededWithin levels f) (ds.neededWithin more f) := by
  induction levels generalizing more f with
  | zero => exact fun outcome => absurd rfl outcome
  | succ levels ih =>
    obtain ⟨more, rfl⟩ : ∃ k, more = k + 1 := ⟨more - 1, by omega⟩
    exact settled_expand fun d => ih (Nat.le_of_succ_le_succ h) d

/-! ## One more level -/

/-- The field is settled by one more level than this, and not before. -/
def Late (ds : Declarations) (levels : Nat) (f : Field) : Prop :=
  ds.neededWithin (levels + 1) f ≠ ds.neededWithin levels f

theorem Late.open_before (h : ds.Late levels f) :
    ds.neededWithin levels f = .error .cyclicFragments := by
  by_contra outcome
  exact h (settled_neededWithin (Nat.le_succ levels) f outcome)

/-- A field is settled once. -/
theorem Late.unique (h : ds.Late levels f) (h' : ds.Late more f) : levels = more := by
  have order : ∀ {a b : Nat}, ds.Late a f → ds.Late b f → b ≤ a := by
    intro a b first second
    by_contra later
    have outcome : ds.neededWithin (a + 1) f ≠ .error .cyclicFragments :=
      fun again => first (again.trans first.open_before.symm)
    have settled := settled_neededWithin (Nat.lt_of_not_le later) f outcome
    exact outcome (settled.symm.trans second.open_before)
  exact Nat.le_antisymm (order h' h) (order h h')

theorem exists_late_declaration (h : ds.Late (levels + 1) f) :
    ∃ n ∈ f.allSpreads, ∃ d, ds.get? n = some d ∧ ds.Late levels d := by
  by_contra! none
  refine h (expand_congr fun n hn d hd => ?_)
  exact not_not.mp (none n hn d hd)

/-- The names on the way to what was settled last differ, as each is settled on a level of its
own. -/
theorem exists_way_of_late (h : ds.Late levels f) :
    ∃ way : List String, way.Nodup ∧ way.length = levels ∧
      ∀ n ∈ way, ∃ d, ds.get? n = some d ∧ ∃ k < levels, ds.Late k d := by
  induction levels generalizing f with
  | zero => exact ⟨[], List.nodup_nil, rfl, List.forall_mem_nil _⟩
  | succ levels ih =>
    obtain ⟨n, -, d, hd, late⟩ := exists_late_declaration h
    obtain ⟨way, distinct, length, behind⟩ := ih late
    have fresh : n ∉ way := by
      intro again
      obtain ⟨d', hd', k, less, late'⟩ := behind n again
      cases Option.some.inj (hd.symm.trans hd')
      exact absurd (late.unique late') (Nat.ne_of_gt less)
    refine ⟨n :: way, List.nodup_cons.mpr ⟨fresh, distinct⟩, congrArg Nat.succ length,
      List.forall_mem_cons.mpr ⟨⟨d, hd, levels, Nat.lt_succ_self _, late⟩, fun m hm => ?_⟩⟩
    obtain ⟨d', hd', k, less, late'⟩ := behind m hm
    exact ⟨d', hd', k, Nat.lt_succ_of_lt less, late'⟩

theorem Late.le_size (h : ds.Late levels f) : levels ≤ ds.size := by
  obtain ⟨way, distinct, length, declared⟩ := exists_way_of_late h
  have keys : way ⊆ ds.byName.keys := fun n hn =>
    let ⟨_, hd, _⟩ := declared n hn
    Entries.mem_keys_of_get? hd
  have few := (List.subperm_of_subset distinct keys).length_le
  rw [Entries.keys, List.length_map] at few
  rw [← length]
  exact few

/-! ## All levels -/

/-- One level more than there are declarations is enough, whatever they are. -/
theorem neededWithin_eq_neededBy (enough : ds.size < levels) (f : Field) :
    ds.neededWithin levels f = ds.neededBy f := by
  induction enough with
  | refl => rfl
  | step enough ih =>
    rw [← ih]
    by_contra late
    exact absurd (Late.le_size late) (Nat.not_le.mpr enough)

/-- The declarations that a field needs are those that it spreads, each followed by those that it
needs in turn. -/
theorem neededBy_eq (ds : Declarations) (f : Field) :
    ds.neededBy f = ds.expand ds.neededBy f := by
  have more : ds.neededWithin (ds.size + 2) f = ds.neededBy f :=
    neededWithin_eq_neededBy (Nat.lt_add_of_pos_right (by decide)) f
  rw [← more, neededWithin_succ]
  rfl

/-- What some number of levels settles is what is found. -/
theorem neededBy_eq_of_neededWithin {x : Except Error (List Field)}
    (h : ds.neededWithin levels f = x) (outcome : x ≠ .error .cyclicFragments) :
    ds.neededBy f = x := by
  have enough : ds.size < max levels (ds.size + 1) := by omega
  rw [← neededWithin_eq_neededBy enough, ← h]
  exact settled_neededWithin (Nat.le_max_left _ _) f (h ▸ outcome)

/-- Following the fragments has no end. Otherwise there is a result or a name without a declaration
on some number of levels, and it is found. -/
theorem neededBy_eq_cyclicFragments_iff :
    ds.neededBy f = .error .cyclicFragments ↔
      ∀ levels, ds.neededWithin levels f = .error .cyclicFragments := by
  constructor
  · intro endless levels
    by_contra outcome
    exact outcome ((neededBy_eq_of_neededWithin rfl outcome).symm.trans endless)
  · exact fun endless => endless (ds.size + 1)

end Declarations

end GraphQLDoc
