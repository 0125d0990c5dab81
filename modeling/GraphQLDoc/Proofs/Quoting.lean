import GraphQLDoc.Instant
import GraphQLDoc.Proofs.Numerals
import GraphQLDoc.Text.Quoted
import Mathlib.Tactic.SplitIfs

/-!
# Reading string literals

The reader knows all escapes of JSON, whichever of them are used for writing.

* `Reader.character`: one character inside a literal, however it is spelled.
* `Reader.string`: a whole literal. `Reader.string_quoted` reads back the literal of any text, no
  matter what comes after it.
* `quoted_chars_instant`: the literal of an instant needs no escapes.
-/

namespace GraphQLDoc

namespace Reader

/-! ## Escapes -/

def hexDigit? (c : Char) : Option Nat :=
  if c.isDigit then some (c.toNat - '0'.toNat)
  else if 'a' ≤ c ∧ c ≤ 'f' then some (10 + c.toNat - 'a'.toNat)
  else if 'A' ≤ c ∧ c ≤ 'F' then some (10 + c.toNat - 'A'.toNat)
  else none

/-- A number of four hexadecimal digits. -/
def codeUnit : Reader Nat
  | a :: b :: c :: d :: rest => do
    let a ← hexDigit? a
    let b ← hexDigit? b
    let c ← hexDigit? c
    let d ← hexDigit? d
    return (((a * 16 + b) * 16 + c) * 16 + d, rest)
  | _ => none

/-- The character of one code unit, or of two in a row if the first is no character. -/
def unicode : Reader Char := fun text => do
  let (high, rest) ← codeUnit text
  if high.isValidChar then return (Char.ofNat high, rest)
  match rest with
  | '\\' :: 'u' :: rest =>
    let (low, rest) ← codeUnit rest
    if high < 0xDC00 ∧ 0xDC00 ≤ low ∧ low < 0xE000 then
      return (Char.ofNat (0x10000 + (high - 0xD800) * 0x400 + (low - 0xDC00)), rest)
    none
  | _ => none

/-- The character that a letter stands for after a backslash. -/
def shortEscape? : Char → Option Char
  | '"' => some '"'
  | '\\' => some '\\'
  | '/' => some '/'
  | 'b' => some '\x08'
  | 'f' => some '\x0c'
  | 'n' => some '\n'
  | 'r' => some '\r'
  | 't' => some '\t'
  | _ => none

/-- What stands after a backslash. -/
def escaped : Reader Char
  | 'u' :: rest => unicode rest
  | c :: rest => (shortEscape? c).map fun d => (d, rest)
  | [] => none

/-- One character of a literal. Control characters must be escaped, and a quote ends the literal. -/
def character : Reader Char
  | '\\' :: rest => escaped rest
  | c :: rest => if c = '"' ∨ c.toNat < 32 then none else some (c, rest)
  | [] => none

/-! ## Literals -/

/-- The characters up to the closing quote. The number bounds how many there are. -/
def stringBody : Nat → Reader (List Char)
  | 0, _ => none
  | _ + 1, '"' :: rest => some ([], rest)
  | n + 1, text =>
    match character text with
    | some (c, rest) => (stringBody n rest).map fun (cs, rest) => (c :: cs, rest)
    | none => none

/-- A string literal. -/
def string : Reader (List Char)
  | '"' :: text => stringBody text.length text
  | _ => none

theorem hexDigit?_digitChar {n : Nat} (h : n < 16) : hexDigit? (Nat.digitChar n) = some n := by
  have all : ∀ n : Fin 16, hexDigit? (Nat.digitChar n) = some n.val := by decide
  exact all ⟨n, h⟩

theorem codeUnit_of_lt {n : Nat} (h : n < 256) (rest : List Char) :
    codeUnit ('0' :: '0' :: Nat.digitChar (n / 16) :: Nat.digitChar (n % 16) :: rest) =
      some (n, rest) := by
  have zero : hexDigit? '0' = some 0 := rfl
  have value : (0 * 16 + 0) * 16 + n / 16 = n / 16 := by omega
  simp only [codeUnit, zero, hexDigit?_digitChar (show n / 16 < 16 by omega),
    hexDigit?_digitChar (show n % 16 < 16 by omega), Option.bind_eq_bind, Option.bind_some]
  rw [value, Nat.div_add_mod']
  rfl

theorem character_cons {c : Char} (quote : c ≠ '"') (backslash : c ≠ '\\')
    (printable : 32 ≤ c.toNat) (rest : List Char) :
    character (c :: rest) = some (c, rest) := by
  unfold character
  split
  · next e =>
    cases e
    exact absurd rfl backslash
  · next e =>
    cases e
    exact if_neg (not_or.mpr ⟨quote, Nat.not_lt.mpr printable⟩)
  · next e => exact nomatch e

/-- Every spelling of a character is read back. -/
theorem character_escape (c : Char) (rest : List Char) :
    character (escape c ++ rest) = some (c, rest) := by
  unfold escape
  split_ifs with h₁ h₂ h₃ h₄ h₅ h₆ h₇ control
  · subst h₁
    rfl
  · subst h₂
    rfl
  · subst h₃
    rfl
  · subst h₄
    rfl
  · subst h₅
    rfl
  · subst h₆
    rfl
  · subst h₇
    rfl
  · have code := codeUnit_of_lt (show c.toNat < 256 by omega) rest
    have valid : c.toNat.isValidChar := .inl (by omega)
    have read : unicode ('0' :: '0' :: Nat.digitChar (c.toNat / 16) ::
        Nat.digitChar (c.toNat % 16) :: rest) = some (c, rest) := by
      rw [unicode, code]
      simp [valid]
    exact read
  · exact character_cons h₁ h₂ (Nat.le_of_not_lt control) rest

/-- A quote that is not escaped is no character of the literal. -/
theorem stringBody_of_character {text rest : List Char} {c : Char}
    (h : character text = some (c, rest)) (n : Nat) :
    stringBody (n + 1) text = (stringBody n rest).map fun (cs, rest) => (c :: cs, rest) := by
  have inside : ∀ after, text = '"' :: after → False := by
    rintro after rfl
    exact nomatch h
  rw [stringBody, h]
  exact inside

theorem stringBody_escape {text : List Char} {n : Nat} (h : text.length < n) (rest : List Char) :
    stringBody n (text.flatMap escape ++ '"' :: rest) = some (text, rest) := by
  induction text generalizing n with
  | nil =>
    obtain ⟨n, rfl⟩ := Nat.exists_eq_add_one.mpr h
    rfl
  | cons c cs ih =>
    obtain ⟨n, rfl⟩ := Nat.exists_eq_add_one.mpr (Nat.zero_lt_of_lt h)
    rw [List.flatMap_cons, List.append_assoc, stringBody_of_character (character_escape c _),
      ih (Nat.lt_of_succ_lt_succ h)]
    rfl

theorem length_le_length_escape (text : List Char) :
    text.length ≤ (text.flatMap escape).length := by
  induction text with
  | nil => exact Nat.le_refl 0
  | cons c cs ih =>
    have one : 1 ≤ (escape c).length := by
      unfold escape
      split_ifs <;> simp
    rw [List.flatMap_cons, List.length_append, List.length_cons]
    omega

/-- The literal of a text ends where it ends, whatever comes after it. -/
theorem string_quoted (text rest : List Char) :
    string (quoted text ++ rest) = some (text, rest) := by
  have long := length_le_length_escape text
  rw [quoted, List.cons_append, List.append_assoc, List.singleton_append]
  refine stringBody_escape ?_ rest
  rw [List.length_append, List.length_cons]
  omega

end Reader

/-! ## Texts without escapes -/

theorem escape_of_printable {c : Char} (quote : c ≠ '"') (backslash : c ≠ '\\')
    (printable : 32 ≤ c.toNat) : escape c = [c] := by
  have other : ∀ d : Char, d.toNat < 32 → c ≠ d := by
    rintro d control rfl
    omega
  rw [escape, if_neg quote, if_neg backslash, if_neg (other _ (by decide)),
    if_neg (other _ (by decide)), if_neg (other _ (by decide)), if_neg (other _ (by decide)),
    if_neg (other _ (by decide)), if_neg (Nat.not_lt.mpr printable)]

theorem isDigit_of_mem_padded {width n : Nat} {c : Char} (h : c ∈ padded width n) :
    c.isDigit = true := by
  rcases List.mem_append.mp h with h | h
  · exact List.eq_of_mem_replicate h ▸ rfl
  · exact isDigit_of_mem_digits h

theorem escape_of_isDigit {c : Char} (h : c.isDigit = true) : escape c = [c] := by
  have digit := (Char.isDigit_iff_toNat.mp h).1
  refine escape_of_printable ?_ ?_ (Nat.le_trans (by decide) digit)
  · rintro rfl
    exact nomatch h
  · rintro rfl
    exact nomatch h

/-- A text that no character is escaped in. -/
def Plain (text : List Char) : Prop := text.flatMap escape = text

theorem Plain.append {text more : List Char} (h : Plain text) (hm : Plain more) :
    Plain (text ++ more) := by
  rw [Plain, List.flatMap_append, h, hm]

theorem Plain.cons {c : Char} {text : List Char} (hc : escape c = [c]) (h : Plain text) :
    Plain (c :: text) := by
  rw [Plain, List.flatMap_cons, hc, h, List.singleton_append]

theorem plain_digits {text : List Char} (h : ∀ c ∈ text, c.isDigit = true) : Plain text := by
  induction text with
  | nil => rfl
  | cons c cs ih =>
    obtain ⟨first, others⟩ := List.forall_mem_cons.mp h
    exact .cons (escape_of_isDigit first) (ih others)

theorem plain_padded (width n : Nat) : Plain (padded width n) :=
  plain_digits fun _ => isDigit_of_mem_padded

theorem plain_yearChars (year : Int) : Plain (Date.yearChars year) := by
  unfold Date.yearChars
  split
  · exact .cons rfl (plain_padded _ _)
  · split
    · exact .cons rfl (plain_padded _ _)
    · exact plain_padded _ _

theorem plain_chars_instant (t : Instant) : Plain t.chars := by
  have hyphen : escape '-' = ['-'] := rfl
  have colon : escape ':' = [':'] := rfl
  have point : escape '.' = ['.'] := rfl
  have day := Plain.cons hyphen (plain_padded 2 t.date.day)
  have month := Plain.cons hyphen ((plain_padded 2 t.date.month).append day)
  have date : Plain t.date.chars := (plain_yearChars t.date.year).append month
  have milliseconds : Plain (padded 3 t.millisecond ++ ['Z']) :=
    (plain_padded 3 t.millisecond).append (.cons rfl rfl)
  have seconds := (plain_padded 2 t.second).append (.cons point milliseconds)
  have minutes := (plain_padded 2 t.minute).append (.cons colon seconds)
  have hours := (plain_padded 2 t.hour).append (.cons colon minutes)
  exact date.append (.cons rfl hours)

theorem quoted_chars_instant (t : Instant) : quoted t.chars = '"' :: (t.chars ++ ['"']) := by
  rw [quoted, plain_chars_instant]

end GraphQLDoc
