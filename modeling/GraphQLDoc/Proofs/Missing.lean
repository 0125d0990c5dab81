import GraphQLDoc.Proofs.Spreading

/-!
# Which missing fragment is reported

Names are looked up level by level on the way down: all names that a field spreads come before
anything that their declarations spread, and then one declaration follows the other. So the order is
neither that of the chains nor by distance.

* `Declarations.LooksUp`: the names that are looked up for a field, in their order.
* `Declarations.failure?_neededBy`: the first name in this order that has no declaration.
* `Declarations.neededBy_reports_first_missing`: when the listing of declarations fails, and with
  which name. A name that the field spreads itself is found missing whatever the rest looks like.
-/

namespace GraphQLDoc

namespace Declarations

variable {ds : Declarations} {f : Field} {n : String} {order : List String}

/-- The names that are looked up for a field: those that it spreads, and then for each of them in
turn those that are looked up for its declaration. Nothing stands below a name that has none. -/
inductive LooksUp (ds : Declarations) : Field → List String → Prop
  | mk {f : Field} (below : String → List String)
    (declared : ∀ n ∈ f.allSpreads, ∀ d, ds.get? n = some d → LooksUp ds d (below n))
    (missing : ∀ n ∈ f.allSpreads, ds.get? n = none → below n = []) :
    LooksUp ds f (f.allSpreads ++ f.allSpreads.flatMap below)

/-- Without cycles the look-ups come to an end. -/
theorem Acyclic.exists_looksUp (h : ds.Acyclic f) : ∃ order, ds.LooksUp f order := by
  refine h.induction fun f _ ih => ?_
  have deeper : ∀ n, ∃ names,
      (∀ d, n ∈ f.allSpreads → ds.get? n = some d → ds.LooksUp d names) ∧
        (ds.get? n = none → names = []) := by
    intro n
    by_cases declared : ∃ d, n ∈ f.allSpreads ∧ ds.get? n = some d
    · obtain ⟨d, hn, hd⟩ := declared
      obtain ⟨names, h⟩ := ih n hn d hd
      refine ⟨names, fun d' _ hd' => ?_, fun missing => nomatch missing.symm.trans hd⟩
      exact Option.some.inj (hd.symm.trans hd') ▸ h
    · exact ⟨[], fun d hn hd => absurd ⟨d, hn, hd⟩ declared, fun _ => rfl⟩
  choose below law using deeper
  exact ⟨_, .mk below (fun n hn d hd => (law n).1 d hn hd) fun n _ => (law n).2⟩

/-- What is looked up is what is needed. -/
theorem LooksUp.mem_iff (h : ds.LooksUp f order) : n ∈ order ↔ ds.Needs f n := by
  induction h with
  | @mk f below declared missing ih =>
    rw [List.mem_append, List.mem_flatMap, needs_iff]
    refine or_congr_right (exists_congr fun m => and_congr_right fun hm => ?_)
    cases hd : ds.get? m with
    | none => simp [missing m hm hd]
    | some d =>
      rw [ih m hm d hd]
      simp

/-- The listing fails for the first name in the order of look-ups that is not declared. -/
theorem failure?_neededBy (acyclic : ds.Acyclic f) (h : ds.LooksUp f order) :
    failure? (ds.neededBy f) = (order.find? fun n => !ds.contains n).map .undeclaredFragment := by
  induction h with
  | @mk f below declared missing ih =>
    rw [neededBy_eq, failure?_expand, List.find?_append, Option.map_or, List.find?_flatMap,
      List.map_findSome?]
    refine congrArg _ (findSome?_congr fun n hn => ?_)
    cases hd : ds.get? n with
    | none => simp [missing n hn hd]
    | some d => exact ih n hn d hd (acyclic.declaration hn hd)

/-- The field's own names are looked up on its own level. -/
theorem neededWithin_eq_error_of_spread {levels : Nat}
    (first : (f.allSpreads.find? fun m => !ds.contains m) = some n) :
    ds.neededWithin (levels + 1) f = .error (.undeclaredFragment n) := by
  rw [← failure?_eq_some_iff, neededWithin_succ, failure?_expand, first]
  rfl

/-- If no fragment that a field needs spreads itself, the listing of the declarations that it needs
ends on any number of levels beyond that of the declarations. It fails exactly if a needed fragment
has no declaration, and always for that reason. The fragment that is reported is the first one in
the order of look-ups. If the field spreads a fragment that is not declared, there need not be an
end to the others: the first such fragment is reported in any case, after one level. -/
theorem neededBy_reports_first_missing (ds : Declarations) (root : Field) :
    (ds.Acyclic root →
      (∀ levels, ds.size < levels → ds.neededWithin levels root = ds.neededBy root) ∧
      ((∃ e, ds.neededBy root = .error e) ↔ ∃ n, ds.Needs root n ∧ ds.contains n = false) ∧
      (∃ order, ds.LooksUp root order) ∧
      ∀ order, ds.LooksUp root order → (∀ n, n ∈ order ↔ ds.Needs root n) ∧
        ∀ e, ds.neededBy root = .error e ↔
          ∃ n, (order.find? fun m => !ds.contains m) = some n ∧ e = .undeclaredFragment n) ∧
    ∀ n, (root.allSpreads.find? fun m => !ds.contains m) = some n →
      ds.neededBy root = .error (.undeclaredFragment n) ∧
      ∀ levels, 0 < levels → ds.neededWithin levels root = .error (.undeclaredFragment n) := by
  refine ⟨fun acyclic => ⟨fun levels enough => ?_, ?_, acyclic.exists_looksUp,
    fun order looked => ⟨fun n => looked.mem_iff, fun e => ?_⟩⟩, fun n first => ⟨?_, ?_⟩⟩
  · exact neededWithin_eq_neededBy enough root
  · simp only [neededBy_fails_iff acyclic, Lacks, contains, Option.isSome_eq_false_iff,
      Option.isNone_iff_eq_none]
  · rw [← failure?_eq_some_iff, failure?_neededBy acyclic looked, Option.map_eq_some_iff]
    simp only [eq_comm]
  · exact neededWithin_eq_error_of_spread first
  · rintro (_ | levels) positive
    · exact absurd positive (Nat.lt_irrefl 0)
    · exact neededWithin_eq_error_of_spread first

/-- The field of a name that spreads some fragments and has nothing else. -/
def sampleSpreading (name : String) (spreads : List String) : Field :=
  { Field.leaf name with spreads := spreads }

/-- The declarations `fragment A on T{...C,...D}` and `fragment C on T{...E}`. -/
def sampleGaps : Declarations :=
  ofList [("A", sampleSpreading "fragment A on T" ["C", "D"]),
    ("C", sampleSpreading "fragment C on T" ["E"])]

/-- The declaration `fragment Loop on T{...Loop}`. -/
def sampleLoop : Declarations := ofList [("Loop", sampleSpreading "fragment Loop on T" ["Loop"])]

theorem acyclic_sampleGaps (f : Field) : sampleGaps.Acyclic f := by
  refine acyclic_of_rank (fun n => if n = "A" then 2 else if n = "C" then 1 else 0)
    (fun n m ⟨d, hd, hm⟩ => ?_) f
  have listed : (n, d) ∈ [("A", sampleSpreading "fragment A on T" ["C", "D"]),
    ("C", sampleSpreading "fragment C on T" ["E"])] := Entries.mem_of_get? hd
  rcases List.mem_cons.mp listed with e | listed
  · cases e
    rcases List.mem_cons.mp hm with rfl | hm
    · decide
    · cases List.mem_singleton.mp hm
      decide
  · cases List.mem_singleton.mp listed
    cases List.mem_singleton.mp hm
    decide

/-- `D` comes before `E`, though `E` stands below `C` and `C` comes before `D`. -/
theorem looksUp_sampleGaps :
    sampleGaps.LooksUp (sampleSpreading "q" ["A"]) ["A", "C", "D", "E"] := by
  have c : sampleGaps.LooksUp (sampleSpreading "fragment C on T" ["E"]) ["E"] :=
    .mk (fun _ => []) (List.forall_mem_singleton.mpr fun d hd => nomatch hd)
      (List.forall_mem_singleton.mpr fun _ => rfl)
  have a : sampleGaps.LooksUp (sampleSpreading "fragment A on T" ["C", "D"]) ["C", "D", "E"] := by
    refine .mk (fun n => if n = "C" then ["E"] else [])
      (List.forall_mem_cons.mpr ⟨fun d hd => ?_, List.forall_mem_singleton.mpr fun d hd => ?_⟩)
      (List.forall_mem_cons.mpr ⟨fun hn => ?_, List.forall_mem_singleton.mpr fun _ => rfl⟩)
    · cases hd
      exact c
    · exact nomatch hd
    · exact nomatch hn
  refine .mk (fun _ => ["C", "D", "E"]) (List.forall_mem_singleton.mpr fun d hd => ?_)
    (List.forall_mem_singleton.mpr fun hn => nomatch hn)
  cases hd
  exact a

theorem neededBy_reports_first_missing_samples :
    sampleGaps.Acyclic (sampleSpreading "q" ["A"]) ∧
      sampleGaps.LooksUp (sampleSpreading "q" ["A"]) ["A", "C", "D", "E"] ∧
      sampleGaps.neededBy (sampleSpreading "q" ["A"]) = .error (.undeclaredFragment "D") ∧
      (∃ n, sampleGaps.Needs (sampleSpreading "q" ["A"]) n ∧ sampleGaps.contains n = false) ∧
      ∀ levels, 0 < levels → sampleLoop.neededWithin levels (sampleSpreading "q" ["Loop", "D"]) =
        .error (.undeclaredFragment "D") := by
  have acyclic := acyclic_sampleGaps (sampleSpreading "q" ["A"])
  obtain ⟨ends, -⟩ := neededBy_reports_first_missing sampleGaps (sampleSpreading "q" ["A"])
  obtain ⟨-, fails, -, reported⟩ := ends acyclic
  obtain ⟨-, first⟩ := reported _ looksUp_sampleGaps
  have failed := (first (.undeclaredFragment "D")).mpr ⟨"D", rfl, rfl⟩
  obtain ⟨-, looping⟩ :=
    neededBy_reports_first_missing sampleLoop (sampleSpreading "q" ["Loop", "D"])
  obtain ⟨-, soon⟩ := looping "D" rfl
  exact ⟨acyclic, looksUp_sampleGaps, failed, fails.mp ⟨_, failed⟩, soon⟩

end Declarations

end GraphQLDoc
