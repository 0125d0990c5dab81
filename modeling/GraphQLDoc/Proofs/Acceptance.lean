import GraphQLDoc.Proofs.Values
import GraphQLDoc.Response
import Mathlib.Data.List.Forall2

/-!
# Accepted responses

A body is a response if its errors can be read, whatever its data are. Relations say which bodies
hold which responses and what is wrong with the others, and reading follows them in both cases.

* `Response.HasParts`: the data and the errors that a body gives, in either of its two forms.
* `Response.Reports`, `Response.ListsErrors`: the message of an error, and those of all errors.
  `Response.Holds`: the response in a body.
* `Response.EntryFault`, `Response.ErrorsFault`, `Response.BodyFault`: the fault that is reported.
* `Response.decides_ofBody`, `Response.ofJson_eq_ok_iff`: reading gives just these.
* `Response.acceptance`: the accepted bodies, what is read from them, and the fault of any other.
-/

namespace GraphQLDoc

namespace Response

/-! ## Bodies that hold a response -/

/-- The body gives these data and these errors, if any. -/
inductive HasParts : Json → Option Json → Option Json → Prop
  | object (members : List (String × Json)) :
      HasParts (.object members) (Entries.get? members "data") (Entries.get? members "errors")
  | array (items : List Json) : HasParts (.array items) items[0]? items[1]?

/-- The entry of an error list reports the message. -/
inductive Reports : Json → String → Prop
  | member {members : List (String × Json)} {message : String}
      (h : Entries.get? members "message" = some (.string message)) :
      Reports (.object members) message
  | item (message : String) : Reports (.array [.string message]) message

/-- The errors of a body are a list with these messages, or there is no list. -/
inductive ListsErrors : Option Json → Option (List String) → Prop
  | missing : ListsErrors none none
  | null : ListsErrors (some .null) none
  | entries {entries : List Json} {messages : List String}
      (h : List.Forall₂ Reports entries messages) :
      ListsErrors (some (.array entries)) (some messages)

/-- The body holds the response. -/
structure Holds (body : Json) (response : Response) : Prop where
  parts : ∃ data errors, HasParts body data errors ∧ response.data = data.getD .null ∧
    ListsErrors errors response.errors
  short : ∀ items, body = .array items → items.length ≤ 2

/-- All reported messages. -/
def messages (response : Response) : List String := response.errors.getD []

/-! ## Faults -/

/-- The entry reports nothing, for this reason. -/
inductive EntryFault : Json → Fault → Prop
  | wrongType {entry : Json} (object : ∀ members, entry ≠ .object members)
      (array : ∀ items, entry ≠ .array items) : EntryFault entry (.wrongType .entry entry)
  | noMessage {members : List (String × Json)} (h : Entries.get? members "message" = none) :
      EntryFault (.object members) .noMessage
  | member {members : List (String × Json)} {j : Json}
      (h : Entries.get? members "message" = some j) (other : ∀ s, j ≠ .string s) :
      EntryFault (.object members) (.wrongType .message j)
  | empty : EntryFault (.array []) .emptyEntry
  | item {j : Json} {more : List Json} (other : ∀ s, j ≠ .string s) :
      EntryFault (.array (j :: more)) (.wrongType .message j)
  | long {message : String} {more : List Json} (h : more ≠ []) :
      EntryFault (.array (.string message :: more)) (.longEntry (more.length + 1))

/-- The errors are no list of errors, for this reason. Of several entries that report nothing the
first one counts. -/
inductive ErrorsFault : Option Json → Fault → Prop
  | wrongType {j : Json} (null : j ≠ .null) (array : ∀ entries, j ≠ .array entries) :
      ErrorsFault (some j) (.wrongType .errors j)
  | entry {before after : List Json} {entry : Json} {fault : Fault}
      (reported : ∀ e ∈ before, ∃ message, Reports e message) (h : EntryFault entry fault) :
      ErrorsFault (some (.array (before ++ entry :: after))) fault

/-- The body holds no response, for this reason. Its length only counts if its errors are fine. -/
inductive BodyFault : Json → Fault → Prop
  | wrongType {body : Json} (object : ∀ members, body ≠ .object members)
      (array : ∀ items, body ≠ .array items) : BodyFault body (.wrongType .body body)
  | errors {body : Json} {data errors : Option Json} {fault : Fault}
      (parts : HasParts body data errors) (h : ErrorsFault errors fault) : BodyFault body fault
  | long {items : List Json} {messages : Option (List String)} (h : 2 < items.length)
      (listed : ListsErrors items[1]? messages) : BodyFault (.array items) (.longBody items.length)

variable {body entry j : Json} {entries : List Json} {data errors : Option Json}
  {response : Response} {message : String} {fault : Fault}

/-! ## Reading -/

theorem messageOfJson_of_other (other : ∀ s, j ≠ .string s) :
    messageOfJson j = .error (.wrongType .message j) := by
  cases j with
  | string s => exact absurd rfl (other s)
  | _ => rfl

theorem decides_messageOfEntry (entry : Json) :
    Decides (messageOfEntry entry) (Reports entry) (EntryFault entry) := by
  refine .of_total (fun message h => ?_) (fun fault h => ?_) ?_
  · cases h with
    | member h => simp [messageOfEntry, h, messageOfJson]
    | item => rfl
  · cases h with
    | wrongType object array =>
      cases entry with
      | object members => exact absurd rfl (object members)
      | array items => exact absurd rfl (array items)
      | _ => rfl
    | noMessage h => simp [messageOfEntry, h]
    | member h other => simp [messageOfEntry, h, messageOfJson_of_other other]
    | empty => rfl
    | item other =>
      rw [messageOfEntry, messageOfJson_of_other other]
      rfl
    | @long message more h =>
      obtain ⟨j, more, rfl⟩ := List.exists_cons_of_ne_nil h
      rfl
  · cases entry with
    | object members =>
      cases h : Entries.get? members "message" with
      | none => exact .inr ⟨_, .noMessage h⟩
      | some j =>
        by_cases string : ∃ s, j = .string s
        · obtain ⟨s, rfl⟩ := string
          exact .inl ⟨s, .member h⟩
        · exact .inr ⟨_, .member h (not_exists.mp string)⟩
    | array items =>
      cases items with
      | nil => exact .inr ⟨_, .empty⟩
      | cons j more =>
        by_cases string : ∃ s, j = .string s
        · obtain ⟨s, rfl⟩ := string
          cases more with
          | nil => exact .inl ⟨s, .item s⟩
          | cons => exact .inr ⟨_, .long (List.cons_ne_nil _ _)⟩
        · exact .inr ⟨_, .item (not_exists.mp string)⟩
    | _ => exact .inr ⟨_, .wrongType (fun _ h => nomatch h) fun _ h => nomatch h⟩

theorem messagesOfEntries_eq_mapM (entries : List Json) :
    messagesOfEntries entries = entries.mapM messageOfEntry := by
  induction entries with
  | nil => rfl
  | cons entry entries ih => rw [messagesOfEntries, ih, List.mapM_cons]

theorem messagesOfEntries_eq_ok_iff {messages : List String} :
    messagesOfEntries entries = .ok messages ↔ List.Forall₂ Reports entries messages := by
  rw [messagesOfEntries_eq_mapM, mapM_eq_ok_iff]
  simp only [(decides_messageOfEntry _).ok]

/-- The fault of a list is that of its first entry that reports nothing. -/
theorem messagesOfEntries_eq_error_iff :
    messagesOfEntries entries = .error fault ↔
      ∃ before entry after, entries = before ++ entry :: after ∧
        (∀ e ∈ before, ∃ message, Reports e message) ∧ EntryFault entry fault := by
  rw [← failure?_eq_some_iff, messagesOfEntries_eq_mapM, failure?_mapM, List.findSome?_eq_some_iff]
  simp only [failure?_eq_some_iff, failure?_eq_none_iff, (decides_messageOfEntry _).ok,
    (decides_messageOfEntry _).error, and_comm]

theorem decides_messagesOfErrors (errors : Option Json) :
    Decides (messagesOfErrors (errors.getD .null)) (ListsErrors errors) (ErrorsFault errors) := by
  refine .of_total (fun messages h => ?_) (fun fault h => ?_) ?_
  · cases h with
    | missing => rfl
    | null => rfl
    | entries h => exact congrArg (Except.map some) (messagesOfEntries_eq_ok_iff.mpr h)
  · cases h with
    | @wrongType j null array =>
      cases j with
      | null => exact absurd rfl null
      | array entries => exact absurd rfl (array entries)
      | _ => rfl
    | @entry before after entry _ reported h =>
      have first : messagesOfEntries (before ++ entry :: after) = .error fault :=
        messagesOfEntries_eq_error_iff.mpr ⟨before, entry, after, rfl, reported, h⟩
      exact congrArg (Except.map some) first
  · cases errors with
    | none => exact .inl ⟨_, .missing⟩
    | some j =>
      cases j with
      | null => exact .inl ⟨_, .null⟩
      | array entries =>
        cases h : messagesOfEntries entries with
        | ok messages => exact .inl ⟨_, .entries (messagesOfEntries_eq_ok_iff.mp h)⟩
        | error fault =>
          obtain ⟨before, entry, after, rfl, reported, bad⟩ := messagesOfEntries_eq_error_iff.mp h
          exact .inr ⟨fault, .entry reported bad⟩
      | _ => exact .inr ⟨_, .wrongType (fun h => nomatch h) fun _ h => nomatch h⟩

theorem exists_listsErrors_iff :
    (∃ messages, ListsErrors errors messages) ↔
      errors = none ∨ errors = some .null ∨ ∃ entries, errors = some (.array entries) ∧
        ∀ entry ∈ entries, ∃ message, Reports entry message := by
  constructor
  · rintro ⟨messages, h⟩
    cases h with
    | missing => exact .inl rfl
    | null => exact .inr (.inl rfl)
    | entries h => exact .inr (.inr ⟨_, rfl, exists_forall₂_iff.mp ⟨_, h⟩⟩)
  · rintro (rfl | rfl | ⟨entries, rfl, reported⟩)
    · exact ⟨none, .missing⟩
    · exact ⟨none, .null⟩
    · obtain ⟨messages, h⟩ := exists_forall₂_iff.mpr reported
      exact ⟨some messages, .entries h⟩

/-! ## Reading bodies -/

theorem ofParts_eq_ok_iff :
    ofParts data errors = .ok response ↔
      response.data = data.getD .null ∧ ListsErrors errors response.errors := by
  rw [ofParts, bind_eq_ok]
  simp only [(decides_messagesOfErrors errors).ok]
  constructor
  · rintro ⟨messages, listed, h⟩
    cases h
    exact ⟨rfl, listed⟩
  · rintro ⟨same, listed⟩
    exact ⟨response.errors, listed, by rw [← same]; rfl⟩

theorem ofParts_eq_error_iff : ofParts data errors = .error fault ↔ ErrorsFault errors fault := by
  rw [ofParts, bind_eq_error, (decides_messagesOfErrors errors).error]
  exact ⟨fun h => h.elim id fun ⟨_, _, h⟩ => (nomatch h), .inl⟩

/-- Reading gives the response that the body holds, and otherwise the fault. -/
theorem decides_ofBody (body : Json) : Decides (ofBody body) (Holds body) (BodyFault body) := by
  refine .of_total (fun response h => ?_) (fun fault h => ?_) ?_
  · obtain ⟨⟨data, errors, parts, content⟩, short⟩ := h
    have read := ofParts_eq_ok_iff.mpr content
    cases parts with
    | object members => exact read
    | array items => exact bind_eq_ok.mpr ⟨response, read, if_pos (short items rfl)⟩
  · cases h with
    | wrongType object array =>
      cases body with
      | object members => exact absurd rfl (object members)
      | array items => exact absurd rfl (array items)
      | _ => rfl
    | @errors _ data errors _ parts h =>
      have read : ofParts data errors = .error fault := ofParts_eq_error_iff.mpr h
      cases parts with
      | object members => exact read
      | array items => exact bind_eq_error.mpr (.inl read)
    | @long items messages h listed =>
      have read : ofParts items[0]? items[1]? = .ok ⟨items[0]?.getD .null, messages⟩ :=
        ofParts_eq_ok_iff.mpr ⟨rfl, listed⟩
      exact bind_eq_error.mpr (.inr ⟨_, read, if_neg (Nat.not_le_of_lt h)⟩)
  · cases body with
    | object members =>
      cases read : ofParts (Entries.get? members "data") (Entries.get? members "errors") with
      | ok response =>
        exact .inl ⟨response, ⟨_, _, .object members, ofParts_eq_ok_iff.mp read⟩,
          fun _ h => nomatch h⟩
      | error fault => exact .inr ⟨fault, .errors (.object members) (ofParts_eq_error_iff.mp read)⟩
    | array items =>
      cases read : ofParts items[0]? items[1]? with
      | ok response =>
        have content := ofParts_eq_ok_iff.mp read
        by_cases short : items.length ≤ 2
        · refine .inl ⟨response, ⟨_, _, .array items, content⟩, fun others h => ?_⟩
          exact Json.array.inj h ▸ short
        · exact .inr ⟨_, .long (Nat.lt_of_not_le short) content.2⟩
      | error fault => exact .inr ⟨fault, .errors (.array items) (ofParts_eq_error_iff.mp read)⟩
    | _ => exact .inr ⟨_, .wrongType (fun _ h => nomatch h) fun _ h => nomatch h⟩

theorem ofJson_eq_ok_iff : ofJson body = .ok response ↔ Holds body response := by
  rw [← (decides_ofBody body).ok, ofJson]
  cases ofBody body <;> simp [Except.mapError]

theorem ofJson_eq_error_iff {e : Error} :
    ofJson body = .error e ↔ ∃ fault, e = .malformedResponse fault ∧ BodyFault body fault := by
  simp only [← (decides_ofBody body).error, ofJson]
  cases ofBody body <;> simp [Except.mapError, eq_comm]

/-! ## Outcomes -/

theorem outcome_of_silent (h : response.messages = []) : response.outcome = .ok response.data := by
  unfold outcome
  split
  · next found => simp [messages, found] at h
  · rfl

theorem outcome_of_messages (h : response.messages ≠ []) :
    response.outcome = .error (.failedRequest response.messages) := by
  unfold outcome
  split
  · next found => simp [messages, found]
  · next other =>
    cases found : response.errors with
    | none => simp [messages, found] at h
    | some all =>
      obtain ⟨message, rest, rfl⟩ : ∃ message rest, all = message :: rest :=
        List.exists_cons_of_ne_nil (by simpa [messages, found] using h)
      exact absurd found (other message rest)

theorem outcome_eq_ok_iff : response.outcome = .ok response.data ↔ response.messages = [] := by
  by_cases h : response.messages = []
  · exact ⟨fun _ => h, outcome_of_silent⟩
  · rw [outcome_of_messages h]
    exact ⟨fun e => (nomatch e), fun e => absurd e h⟩

/-- A body is accepted exactly if it is an object, or an array of at most two items, and if it gives
no errors, null, or a list whose entries all report a message. Its response has the data, null if
there are none, and the messages in order. Without messages it comes to the data, and otherwise to
an error with all messages. A body that is not accepted has a fault, which is the one reported. -/
theorem acceptance (body : Json) :
    ((∃ r, ofJson body = .ok r) ↔ ∃ data errors, HasParts body data errors ∧
      (∀ items, body = .array items → items.length ≤ 2) ∧
      (errors = none ∨ errors = some .null ∨ ∃ entries, errors = some (.array entries) ∧
        ∀ entry ∈ entries, ∃ message, Reports entry message)) ∧
    (∀ r, ofJson body = .ok r →
      (∃ data errors, HasParts body data errors ∧ r.data = data.getD .null ∧
        ListsErrors errors r.errors) ∧
      (r.outcome = .ok r.data ↔ r.messages = []) ∧
      (r.messages ≠ [] → ∃ e, r.outcome = .error e ∧ e.kind = .response ∧
        e.message = ". ".intercalate r.messages ∧ e.context = none)) ∧
    ∀ e, ofJson body = .error e ↔ ∃ fault, e = .malformedResponse fault ∧ BodyFault body fault := by
  refine ⟨?_, fun r h => ?_, fun e => ofJson_eq_error_iff⟩
  · simp only [ofJson_eq_ok_iff, ← exists_listsErrors_iff]
    constructor
    · rintro ⟨r, ⟨data, errors, parts, -, listed⟩, short⟩
      exact ⟨data, errors, parts, short, _, listed⟩
    · rintro ⟨data, errors, parts, short, messages, listed⟩
      exact ⟨⟨data.getD .null, messages⟩, ⟨data, errors, parts, rfl, listed⟩, short⟩
  · refine ⟨(ofJson_eq_ok_iff.mp h).parts, outcome_eq_ok_iff, fun failed => ?_⟩
    exact ⟨_, outcome_of_messages failed, rfl, rfl, rfl⟩

/-- The body `{"errors":[{"message":"a","path":[]},["b"]],"data":null}`. -/
def sampleFailures : Json :=
  .object [
    ("errors", .array [
      .object [("message", .string "a"), ("path", .array [])],
      .array [.string "b"]]),
    ("data", .null)]

theorem acceptance_sampleFailures :
    (∃ r e, ofJson sampleFailures = .ok r ∧ r.messages = ["a", "b"] ∧ r.outcome = .error e ∧
      e.message = "a. b") ∧
    ofJson (.array [.null, .array [.array [.string "a"], .array []], .null]) =
      .error (.malformedResponse .emptyEntry) := by
  constructor
  · obtain ⟨accepts, content, -⟩ := acceptance sampleFailures
    have reported : ∀ entry ∈ [Json.object [("message", .string "a"), ("path", .array [])],
        .array [.string "b"]], ∃ message, Reports entry message :=
      List.forall_mem_cons.mpr ⟨⟨_, .member rfl⟩, List.forall_mem_singleton.mpr ⟨_, .item _⟩⟩
    obtain ⟨r, read⟩ := accepts.mpr
      ⟨_, _, .object _, fun _ h => (nomatch h), .inr (.inr ⟨_, rfl, reported⟩)⟩
    obtain ⟨-, -, failure⟩ := content r read
    have both : ofJson sampleFailures = .ok ⟨.null, some ["a", "b"]⟩ := rfl
    cases Except.ok.inj (read.symm.trans both)
    obtain ⟨e, outcome, -, message, -⟩ := failure (by decide)
    exact ⟨_, e, read, rfl, outcome, message.trans (by decide)⟩
  · obtain ⟨-, -, failure⟩ :=
      acceptance (.array [.null, .array [.array [.string "a"], .array []], .null])
    have bad :
        ErrorsFault (some (.array ([.array [.string "a"]] ++ .array [] :: []))) .emptyEntry :=
      .entry (List.forall_mem_singleton.mpr ⟨_, .item _⟩) .empty
    exact (failure _).mpr ⟨_, rfl, .errors (.array _) bad⟩

end Response

end GraphQLDoc
