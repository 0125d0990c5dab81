import GraphQLDoc.Client
import GraphQLDoc.Proofs.Acceptance
import GraphQLDoc.Proofs.Chains

/-!
# Sending

A client asks the service once, or not at all if a fragment is missing. A transport that keeps a
record of its requests shows what reaches it, whatever its effects are and whatever it delivers.

* `Transport.recording`: the transport with a record of what it was asked for.
* `Client.request_eq`: the request, made from the declarations that are needed.
* `Client.receive`, `Client.run_send_recording`: the request joins the record, and the body that is
  delivered for it is unwrapped.
* `Client.unwrap_eq_ok`, `Client.unwrap_eq_error_iff`: what comes of a body.
* `Client.send_at_most_once`: all of this for a client with complete settings.
-/

namespace GraphQLDoc

variable {m : Type → Type} [Monad m]

/-- The transport, with a record of all requests that it is asked for. -/
def Transport.recording (transport : Transport m) : Transport (StateT (List Request) m) :=
  fun request => ExceptT.mk do
    modify (· ++ [request])
    StateT.lift (transport request).run

theorem Transport.run_recording [LawfulMonad m] (transport : Transport m) (request : Request)
    (earlier : List Request) :
    (transport.recording request).run.run earlier =
      (fun delivered => (delivered, earlier ++ [request])) <$> (transport request).run := by
  simp [recording]

theorem Declarations.document_eq (ds : Declarations) (x : Sendable) :
    ds.document x =
      (ds.neededBy x.root).map fun needed => x.text ++ String.join (needed.map Field.text) := by
  have joined : ∀ needed : List Field, String.ofList (x.chars ++ needed.flatMap Field.chars) =
      x.text ++ String.join (needed.map Field.text) := by
    intro needed
    refine String.toList_inj.mp ?_
    simp [Sendable.text, List.flatMap, Function.comp_def, Field.text]
  simp only [← joined]
  rfl

namespace Client

variable {client : Client} {settings : Settings} {fragments : Declarations} {x : Sendable}
  {body : Json} {response : Response}

theorem ofSettings_eq_ok (h : ofSettings settings fragments = .ok client) :
    client.settings = settings ∧ client.fragments = fragments := by
  unfold ofSettings at h
  split at h
  · exact nomatch h
  · cases h
    exact ⟨rfl, rfl⟩

/-! ## Requests -/

/-- The request that carries what is sent, followed by these declarations. -/
def requestWith (client : Client) (x : Sendable) (needed : List Field) : Request where
  uri := client.settings.uri
  token := client.settings.token
  query := x.text ++ String.join (needed.map Field.text)

theorem request_eq (client : Client) (x : Sendable) :
    client.request x = (client.fragments.neededBy x.root).map (client.requestWith x) := by
  rw [request, Declarations.document_eq]
  cases client.fragments.neededBy x.root <;> rfl

theorem request_eq_ok_iff {r : Request} :
    client.request x = .ok r ↔
      ∃ needed, client.fragments.neededBy x.root = .ok needed ∧
        client.requestWith x needed = r := by
  rw [request_eq, map_eq_ok]

theorem request_eq_error_iff {e : Error} :
    client.request x = .error e ↔ client.fragments.neededBy x.root = .error e := by
  rw [request_eq]
  cases client.fragments.neededBy x.root <;> simp [Except.map]

/-! ## Deliveries -/

/-- What comes of a delivery. A failure of the transport stays as it is. -/
def receive (client : Client) : Except Error Json → Except Error Json
  | .error e => .error e
  | .ok body => client.unwrap body

theorem run_send [LawfulMonad m] (client : Client) (transport : Transport m) (x : Sendable) :
    (client.send transport x).run =
      match client.request x with
      | .error e => pure (.error e)
      | .ok request => client.receive <$> (transport request).run := by
  rw [send, ExceptT.run_bind]
  cases client.request x with
  | error e => simp
  | ok request =>
    simp only [ExceptT.run_mk, pure_bind, ExceptT.run_bind, map_eq_pure_bind]
    refine bind_congr fun delivered => ?_
    cases delivered with
    | error e => rfl
    | ok body => rfl

theorem run_send_recording [LawfulMonad m] (client : Client) (transport : Transport m)
    (x : Sendable) (earlier : List Request) :
    (client.send transport.recording x).run.run earlier =
      match client.request x with
      | .error e => pure (.error e, earlier)
      | .ok request =>
        (fun delivered => (client.receive delivered, earlier ++ [request])) <$>
          (transport request).run := by
  rw [run_send]
  cases client.request x with
  | error e => rfl
  | ok request => simp [Transport.run_recording]

/-! ## Responses -/

theorem unwrap_eq_ok (holds : Response.Holds body response) (silent : response.messages = []) :
    client.unwrap body =
      .ok (if client.settings.flat then response.data.flattenConnections else response.data) := by
  have data := Response.outcome_of_silent silent
  exact bind_eq_ok.mpr ⟨_, Response.ofJson_eq_ok_iff.mpr holds, bind_eq_ok.mpr ⟨_, data, rfl⟩⟩

theorem unwrap_eq_error_iff {e : Error} :
    client.unwrap body = .error e ↔
      (∃ fault, e = .malformedResponse fault ∧ Response.BodyFault body fault) ∨
        ∃ r, Response.Holds body r ∧ r.messages ≠ [] ∧ e = .failedRequest r.messages := by
  rw [unwrap, bind_eq_error, Response.ofJson_eq_error_iff]
  refine or_congr_right (exists_congr fun r => ?_)
  rw [Response.ofJson_eq_ok_iff]
  refine and_congr_right fun _ => ?_
  by_cases silent : r.messages = []
  · rw [Response.outcome_of_silent silent]
    exact ⟨fun h => (nomatch h), fun h => absurd silent h.1⟩
  · rw [Response.outcome_of_messages silent]
    exact ⟨fun h => ⟨silent, (Except.error.inj h).symm⟩, fun h => h.2 ▸ rfl⟩

theorem unwrap_fails_iff :
    (∃ e, client.unwrap body = .error e ∧ e.kind = .response) ↔
      (∀ r, ¬Response.Holds body r) ∨ ∃ r, Response.Holds body r ∧ r.messages ≠ [] := by
  simp only [← (Response.decides_ofBody body).exists_error_iff, unwrap_eq_error_iff]
  constructor
  · rintro ⟨e, ⟨fault, -, bad⟩ | ⟨r, holds, failed, -⟩, -⟩
    · exact .inl ⟨fault, bad⟩
    · exact .inr ⟨r, holds, failed⟩
  · rintro (⟨fault, bad⟩ | ⟨r, holds, failed⟩)
    · exact ⟨_, .inl ⟨fault, rfl, bad⟩, rfl⟩
    · exact ⟨_, .inr ⟨r, holds, failed, rfl⟩, rfl⟩

/-- There is at most one request, whatever the transport does. There is none if a fragment that is
needed has no declaration, and then one such fragment is reported. Otherwise the request carries the
address, the token and the text of what is sent, followed by the declarations that it needs. A
failure of the transport stays as it is. A body fails if it holds no response or if its response has
messages, and otherwise it comes to the data, without connections if the settings ask for it. -/
theorem send_at_most_once (accepted : ofSettings settings fragments = .ok client) (x : Sendable)
    (acyclic : fragments.Acyclic x.root) :
    (∃ requests : List Request, requests.length ≤ 1 ∧
      (requests = [] ↔ ∃ n, fragments.Lacks x.root n) ∧
      (∀ r ∈ requests, r.uri = settings.uri ∧ r.token = settings.token ∧
        ∃ needed, fragments.neededBy x.root = .ok needed ∧
          r.query = x.text ++ String.join (needed.map Field.text)) ∧
      ∀ {m : Type → Type} [Monad m] [LawfulMonad m] (transport : Transport m)
        (earlier : List Request), ∃ result : m (Except Error Json),
          (client.send transport.recording x).run.run earlier =
            (fun e => (e, earlier ++ requests)) <$> result ∧
          (requests = [] → ∃ n, fragments.Lacks x.root n ∧
            result = pure (.error (.undeclaredFragment n))) ∧
          ∀ r ∈ requests, result = client.receive <$> (transport r).run) ∧
    ∀ body,
      ((∃ e, client.unwrap body = .error e ∧ e.kind = .response) ↔
        (∀ r, ¬Response.Holds body r) ∨ ∃ r, Response.Holds body r ∧ r.messages ≠ []) ∧
      ∀ r, Response.Holds body r → r.messages = [] → client.unwrap body =
        .ok (if settings.flat then r.data.flattenConnections else r.data) := by
  obtain ⟨rfl, rfl⟩ := ofSettings_eq_ok accepted
  refine ⟨?_, fun body => ⟨unwrap_fails_iff, fun r => unwrap_eq_ok⟩⟩
  have missing := Declarations.neededBy_fails_iff acyclic
  cases made : client.request x with
  | error e =>
    have failed := request_eq_error_iff.mp made
    obtain ⟨n, lacks, rfl⟩ := Declarations.neededBy_eq_error acyclic failed
    refine ⟨[], Nat.zero_le _, iff_of_true rfl ⟨n, lacks⟩, List.forall_mem_nil _, ?_⟩
    intro m _ _ transport earlier
    refine ⟨pure (.error (.undeclaredFragment n)), ?_, fun _ => ⟨n, lacks, rfl⟩,
      List.forall_mem_nil _⟩
    rw [run_send_recording, made, map_pure, List.append_nil]
  | ok request =>
    obtain ⟨needed, found, rfl⟩ := request_eq_ok_iff.mp made
    have none_missing : ¬∃ n, client.fragments.Lacks x.root n := by
      rw [← missing, found]
      exact fun ⟨_, h⟩ => nomatch h
    refine ⟨[client.requestWith x needed], Nat.le_refl _,
      iff_of_false (List.cons_ne_nil _ _) none_missing,
      List.forall_mem_singleton.mpr ⟨rfl, rfl, needed, found, rfl⟩, ?_⟩
    intro m _ _ transport earlier
    refine ⟨_, ?_, fun h => (nomatch h), List.forall_mem_singleton.mpr rfl⟩
    rw [run_send_recording, made, Functor.map_map]

def sampleSettings : Settings := { uri := "uri", token := "token", flat := true }

/-- The connection `{"edges":[{"node":"v"}]}`. -/
def sampleConnection : Json := .object [("edges", .array [.object [("node", .string "v")]])]

/-- The transport that always delivers a body with these data. -/
def sampleTransport : Transport Id := fun _ => pure (.object [("data", sampleConnection)])

theorem send_at_most_once_samples :
    (∃ client, ofSettings sampleSettings Declarations.sampleDeclarations = .ok client ∧
      ∃ request : Request, request.uri = "uri" ∧ request.token = "token" ∧
        request.query = "q{...Outer,...Frag}fragment Outer on Type{child{...Frag}}" ++
          "fragment Frag on Type{g}fragment Frag on Type{g}" ∧
        (client.send sampleTransport.recording (.field Declarations.sampleRoot)).run.run [] =
          pure (.ok (.array [.string "v"]), [request])) ∧
    ∃ client, ofSettings sampleSettings Declarations.empty = .ok client ∧
      ∃ n, Declarations.empty.Lacks Declarations.sampleRoot n ∧
        (client.send sampleTransport.recording (.field Declarations.sampleRoot)).run.run [] =
          pure (.error (.undeclaredFragment n), []) := by
  constructor
  · have acyclic := Declarations.acyclic_sampleDeclarations Declarations.sampleRoot
    have accepted : ofSettings sampleSettings Declarations.sampleDeclarations = .ok ⟨_, _, rfl⟩ :=
      rfl
    refine ⟨_, accepted, ?_⟩
    obtain ⟨⟨requests, few, missing, carried, runs⟩, bodies⟩ :=
      send_at_most_once accepted (.field Declarations.sampleRoot) acyclic
    have none_missing : ¬∃ n, Declarations.sampleDeclarations.Lacks Declarations.sampleRoot n := by
      rw [← Declarations.neededBy_fails_iff acyclic]
      exact fun ⟨_, failed⟩ => nomatch failed
    obtain ⟨request, rfl⟩ : ∃ request, requests = [request] := by
      have some_request : requests ≠ [] := fun h => none_missing (missing.mp h)
      obtain ⟨request, more, rfl⟩ := List.exists_cons_of_ne_nil some_request
      exact ⟨request, by simpa using few⟩
    obtain ⟨uri, token, needed, found, query⟩ := carried request List.mem_cons_self
    cases found
    refine ⟨request, uri, token, query.trans (by decide), ?_⟩
    obtain ⟨result, run, -, delivered⟩ := runs sampleTransport []
    rw [run, delivered request List.mem_cons_self]
    have holds : Response.Holds (.object [("data", sampleConnection)]) ⟨sampleConnection, none⟩ :=
      ⟨⟨_, _, .object _, rfl, .missing⟩, fun _ h => nomatch h⟩
    obtain ⟨-, data⟩ := bodies _
    exact congrArg (fun outcome => (outcome, [request])) (data _ holds rfl)
  · have acyclic : Declarations.empty.Acyclic Declarations.sampleRoot :=
      Declarations.acyclic_of_rank (fun _ => 0) (fun n m ⟨d, hd, _⟩ => nomatch hd) _
    have accepted : ofSettings sampleSettings Declarations.empty = .ok ⟨_, _, rfl⟩ := rfl
    refine ⟨_, accepted, ?_⟩
    obtain ⟨⟨requests, -, missing, -, runs⟩, -⟩ :=
      send_at_most_once accepted (.field Declarations.sampleRoot) acyclic
    have lacks : Declarations.empty.Lacks Declarations.sampleRoot "Outer" :=
      ⟨Declarations.needs_of_mem List.mem_cons_self, rfl⟩
    cases missing.mpr ⟨_, lacks⟩
    obtain ⟨result, run, unsent, -⟩ := runs sampleTransport []
    obtain ⟨n, lacks, rfl⟩ := unsent rfl
    exact ⟨n, lacks, run⟩

end Client

end GraphQLDoc
