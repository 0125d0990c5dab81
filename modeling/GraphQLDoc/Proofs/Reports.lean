import GraphQLDoc.Proofs.Quoting
import GraphQLDoc.Response.Fault

/-!
# Quoted texts in reports

A report on a malformed response quotes the string that stands in a wrong place. All characters of
the quotation are seen, and the report tells the string and the place.

* `Json.isHidden_eq_false_of_mem_describe_string`: hidden characters are not shown as they are.
* `Reader.reported`: one character of a quoted text. `Reader.reported_reportEscape` reads back every
  spelling, so the quotation tells where it ends (`eq_of_reported_append_eq`).
* `Response.Fault.explain_string_inj`: the whole report.
-/

namespace GraphQLDoc

/-! ## Characters that are seen -/

theorem isHidden_eq_false_of_ascii {c : Char} (h : 32 ≤ c.toNat ∧ c.toNat < 127) :
    isHidden c = false := by
  by_contra hidden
  rw [Bool.not_eq_false, isHidden_iff_of_ascii (by omega)] at hidden
  omega

/-- The texts that escapes are made of can be looked through one by one. -/
theorem isHidden_eq_false_of_mem_ascii {text : List Char}
    (ascii : (text.all fun e => 32 ≤ e.toNat && e.toNat < 127) = true) {d : Char} (h : d ∈ text) :
    isHidden d = false := by
  have range := List.all_eq_true.mp ascii d h
  rw [Bool.and_eq_true, decide_eq_true_eq, decide_eq_true_eq] at range
  exact isHidden_eq_false_of_ascii range

theorem exists_digitChar_of_mem_toDigits {n : Nat} {d : Char} (h : d ∈ Nat.toDigits 16 n) :
    ∃ m : Fin 16, d = Nat.digitChar m := by
  induction n using Nat.strongRecOn with
  | ind n ih =>
    rw [Nat.toDigits_eq_if (by decide)] at h
    split at h
    · next small => exact ⟨⟨n, small⟩, List.mem_singleton.mp h⟩
    · next large =>
      rcases List.mem_append.mp h with h | h
      · exact ih (n / 16) (Nat.div_lt_self (by omega) (by decide)) h
      · exact ⟨⟨n % 16, Nat.mod_lt _ (by decide)⟩, List.mem_singleton.mp h⟩

theorem isHidden_eq_false_of_mem_toDigits {n : Nat} {d : Char} (h : d ∈ Nat.toDigits 16 n) :
    isHidden d = false := by
  have all : ∀ m : Fin 16, 32 ≤ (Nat.digitChar m).toNat ∧ (Nat.digitChar m).toNat < 127 := by
    decide
  obtain ⟨m, rfl⟩ := exists_digitChar_of_mem_toDigits h
  exact isHidden_eq_false_of_ascii (all m)

/-- A character that is not seen is given by characters that are. -/
theorem isHidden_eq_false_of_mem_reportEscape {c d : Char} (h : d ∈ reportEscape c) :
    isHidden d = false := by
  unfold reportEscape at h
  split_ifs at h with _ _ _ _ _ _ hidden
  · exact isHidden_eq_false_of_mem_ascii rfl h
  · exact isHidden_eq_false_of_mem_ascii rfl h
  · exact isHidden_eq_false_of_mem_ascii rfl h
  · exact isHidden_eq_false_of_mem_ascii rfl h
  · exact isHidden_eq_false_of_mem_ascii rfl h
  · exact isHidden_eq_false_of_mem_ascii rfl h
  · have parts : d ∈ ['\\', 'u', '\x7b'] ++ (Nat.toDigits 16 c.toNat ++ ['\x7d']) := h
    rcases List.mem_append.mp parts with opening | behind
    · exact isHidden_eq_false_of_mem_ascii rfl opening
    · exact (List.mem_append.mp behind).elim isHidden_eq_false_of_mem_toDigits
        (isHidden_eq_false_of_mem_ascii rfl)
  · exact List.mem_singleton.mp h ▸ Bool.eq_false_iff.mpr hidden

theorem Json.toList_describe_string (s : String) :
    (Json.string s).describe.toList =
      "string ".toList ++ '"' :: (s.toList.flatMap reportEscape ++ ['"']) :=
  String.toList_append.trans (congrArg _ String.toList_ofList)

theorem Json.isHidden_eq_false_of_mem_describe_string {s : String} {d : Char}
    (h : d ∈ (Json.string s).describe.toList) : isHidden d = false := by
  have start : "string ".toList ++ ['"'] = "string \"".toList := rfl
  rw [toList_describe_string, List.append_cons, start, List.mem_append, List.mem_append] at h
  rcases h with h | h | h
  · exact isHidden_eq_false_of_mem_ascii rfl h
  · obtain ⟨c, -, hd⟩ := List.mem_flatMap.mp h
    exact isHidden_eq_false_of_mem_reportEscape hd
  · exact isHidden_eq_false_of_mem_ascii rfl h

namespace Reader

/-! ## Reading quotations -/

/-- The number that hexadecimal digits stand for. -/
def hexValue? (ds : List Char) : Option Nat :=
  ds.foldlM (fun n d => (hexDigit? d).map (16 * n + ·)) 0

theorem hexValue?_toDigits (n : Nat) : hexValue? (Nat.toDigits 16 n) = some n := by
  induction n using Nat.strongRecOn with
  | ind n ih =>
    rw [Nat.toDigits_eq_if (by decide)]
    split
    · next small => simp [hexValue?, hexDigit?_digitChar small]
    · next large =>
      have before := ih (n / 16) (Nat.div_lt_self (by omega) (by decide))
      have last := hexDigit?_digitChar (Nat.mod_lt n (show 0 < 16 by decide))
      rw [hexValue?] at before ⊢
      rw [List.foldlM_append, before]
      simp [last, Nat.div_add_mod]

/-- One character of a quotation. A quote ends it. -/
def reported : Reader Char
  | '\\' :: 'u' :: '\x7b' :: text =>
    match text.span (· != '\x7d') with
    | (ds, _ :: rest) => (hexValue? ds).map fun n => (Char.ofNat n, rest)
    | (_, []) => none
  | '\\' :: '0' :: rest => some ('\x00', rest)
  | '\\' :: c :: rest => (shortEscape? c).map fun d => (d, rest)
  | c :: rest => if c = '"' then none else some (c, rest)
  | [] => none

theorem reported_code (c : Char) (rest : List Char) :
    reported ('\\' :: 'u' :: '\x7b' :: (Nat.toDigits 16 c.toNat ++ '\x7d' :: rest)) =
      some (c, rest) := by
  have inside : ∀ d ∈ Nat.toDigits 16 c.toNat, (d != '\x7d') = true := by
    have all : ∀ m : Fin 16, (Nat.digitChar m != '\x7d') = true := by decide
    intro d hd
    obtain ⟨m, rfl⟩ := exists_digitChar_of_mem_toDigits hd
    exact all m
  have ends : ∀ d ∈ ('\x7d' :: rest).head?, (d != '\x7d') = false := by simp
  rw [reported, span_append inside ends]
  simp [hexValue?_toDigits]

theorem reported_cons {c : Char} (quote : c ≠ '"') (backslash : c ≠ '\\') (rest : List Char) :
    reported (c :: rest) = some (c, rest) := by
  unfold reported
  split
  · next e => exact absurd (List.cons.inj e).1 backslash
  · next e => exact absurd (List.cons.inj e).1 backslash
  · next e => exact absurd (List.cons.inj e).1 backslash
  · next e =>
    cases e
    exact if_neg quote
  · next e => exact nomatch e

/-- Every spelling of a character is read back. -/
theorem reported_reportEscape (c : Char) (rest : List Char) :
    reported (reportEscape c ++ rest) = some (c, rest) := by
  unfold reportEscape
  split_ifs with h₁ h₂ h₃ h₄ h₅ h₆ hidden
  · subst h₁
    rfl
  · subst h₂
    rfl
  · subst h₃
    rfl
  · subst h₄
    rfl
  · subst h₅
    rfl
  · subst h₆
    rfl
  · rw [List.cons_append, List.cons_append, List.cons_append, List.append_assoc]
    exact reported_code c rest
  · exact reported_cons h₁ h₂ rest

/-- A soft hyphen. -/
example : reportEscape '\u00ad' = ['\\', 'u', '\x7b', 'a', 'd', '\x7d'] := by decide +kernel

end Reader

/-- The quotation tells the text, and where it ends. -/
theorem eq_of_reported_append_eq {a b r s : List Char}
    (h : a.flatMap reportEscape ++ '"' :: r = b.flatMap reportEscape ++ '"' :: s) :
    a = b ∧ r = s := by
  have other : ∀ (c : Char) (text rest : List Char), reportEscape c ++ text ≠ '"' :: rest := by
    intro c text rest same
    have read := Reader.reported_reportEscape c text
    rw [same] at read
    exact nomatch read
  induction a generalizing b with
  | nil =>
    cases b with
    | nil => exact ⟨rfl, (List.cons.inj h).2⟩
    | cons d ds =>
      rw [List.flatMap_cons, List.append_assoc] at h
      exact absurd h.symm (other d _ r)
  | cons c cs ih =>
    cases b with
    | nil =>
      rw [List.flatMap_cons, List.append_assoc] at h
      exact absurd h (other c _ s)
    | cons d ds =>
      rw [List.flatMap_cons, List.flatMap_cons, List.append_assoc, List.append_assoc] at h
      have read := Reader.reported_reportEscape c (cs.flatMap reportEscape ++ '"' :: r)
      rw [h, Reader.reported_reportEscape] at read
      obtain ⟨rfl, behind⟩ := Prod.mk.inj (Option.some.inj read)
      obtain ⟨rfl, rests⟩ := ih behind.symm
      exact ⟨rfl, rests⟩

theorem Response.Part.expected_injective : Function.Injective Response.Part.expected := by
  intro p q same
  cases p <;> cases q <;> first | rfl | exact absurd same (by decide)

theorem Response.Fault.toList_explain_string (p : Response.Part) (s : String) :
    (wrongType p (.string s)).explain.toList =
      "invalid type: ".toList ++ ("string ".toList ++ '"' :: (s.toList.flatMap reportEscape ++
        '"' :: (", expected ".toList ++ p.expected.toList))) := by
  have parts : (wrongType p (.string s)).explain =
      "invalid type: " ++ (Json.string s).describe ++ ", expected " ++ p.expected := rfl
  rw [parts, String.toList_append, String.toList_append, String.toList_append,
    Json.toList_describe_string]
  simp only [List.append_assoc, List.cons_append, List.nil_append]

/-- The report tells the string and the place where it stands. -/
theorem Response.Fault.explain_string_inj {p q : Response.Part} {a b : String} :
    (wrongType p (.string a)).explain = (wrongType q (.string b)).explain ↔ p = q ∧ a = b := by
  refine ⟨fun same => ?_, fun ⟨parts, texts⟩ => by rw [parts, texts]⟩
  have chars := congrArg String.toList same
  rw [toList_explain_string, toList_explain_string] at chars
  have quoted := List.append_cancel_left (List.append_cancel_left chars)
  obtain ⟨texts, rests⟩ := eq_of_reported_append_eq (List.cons.inj quoted).2
  have places : p.expected = q.expected := String.toList_inj.mp (List.append_cancel_left rests)
  exact ⟨Response.Part.expected_injective places, String.toList_inj.mp texts⟩

end GraphQLDoc
