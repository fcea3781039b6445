import LlmGateway.GatewayCorrelation
import LlmGateway.GatewayTools
import LlmGateway.McpDownstream
import Mathlib.Logic.Relation

namespace LlmGateway.Gateway

open Json (Members Reader Low Distinct reread joined dumps defaultSeparators)
open McpDownstream (CallLog Entry serve paramOf)

/-- Where the handler of a request stands: at the await of client.post, after
it, or at its end. -/
inductive Phase
  | waiting
  | replied (reply : Except TransportError Upstream)
  | done (result : Except Unhandled Response)

def Phase.ended : Phase → Bool
  | done _ => true
  | waiting | replied _ => false

/-- A client's request, and what the gateway has under way to the downstream
for it. -/
structure Exchange where
  header : Option Text
  body : Bytes
  flight : Option Post
  phase : Phase

/-- The gateway with any number of clients, and the downstream's log. -/
structure Network where
  exchanges : List Exchange
  log : CallLog

section Network

variable (rt : Runtime) (config : GatewayConfig) (srv : McpDownstream.Runtime)

/-- The handler up to its only await. -/
def accept (header : Option Text) (body : Bytes) : Exchange :=
  let outcome := proxy rt config (fun _ => .error .other) header body
  match outcome.posts with
  | [] => ⟨header, body, none, .done outcome.result⟩
  | post :: _ => ⟨header, body, some post, .waiting⟩

/-- The handler after the await. -/
def Exchange.resume (x : Exchange) (reply : Except TransportError Upstream) : Exchange :=
  { x with phase := .done (proxy rt config (fun _ => reply) x.header x.body).result }

/-- The downstream answers; nobody may be waiting for it any more. -/
def Exchange.served (x : Exchange) (upstream : Upstream) : Exchange :=
  { x with
    flight := none
    phase := match x.phase with
      | .waiting => .replied (.ok upstream)
      | phase => phase }

/-- One step of one of the parties. A post or a reply may be lost, and a client
of the connection may give up while its post is still under way. -/
inductive Step : Network → Network → Prop
  | arrive (N : Network) (header : Option Text) (body : Bytes) :
      Step N { N with exchanges := N.exchanges ++ [accept rt config header body] }
  | serve (N : Network) (i : Nat) (x : Exchange) (post : Post) :
      N.exchanges[i]? = some x → x.flight = some post →
      Step N ⟨N.exchanges.set i (x.served (serve srv N.log post).1), (serve srv N.log post).2⟩
  | lose (N : Network) (i : Nat) (x : Exchange) :
      N.exchanges[i]? = some x → Step N { N with exchanges := N.exchanges.set i { x with flight := none } }
  | fail (N : Network) (i : Nat) (x : Exchange) (e : TransportError) :
      N.exchanges[i]? = some x → ¬ x.phase.ended →
      Step N { N with exchanges := N.exchanges.set i { x with phase := .replied (.error e) } }
  | resume (N : Network) (i : Nat) (x : Exchange) (reply : Except TransportError Upstream) :
      N.exchanges[i]? = some x → x.phase = .replied reply →
      Step N { N with exchanges := N.exchanges.set i (x.resume rt config reply) }

def Network.init : Network := ⟨[], .empty⟩

def Reachable (N : Network) : Prop := Relation.ReflTransGen (Step rt config srv) .init N

end Network

section Posts

variable {rt : Runtime} {config : GatewayConfig} {header : Option Text} {body : Bytes}

/-- Whatever the downstream answers does not change what it was sent. -/
theorem proxy_posts_eq (d d' : Post → Except TransportError Upstream) :
    (proxy rt config d header body).posts = (proxy rt config d' header body).posts := by
  by_cases hnone : (proxy rt config d header body).posts = []
  · by_cases hnone' : (proxy rt config d' header body).posts = []
    · rw [hnone, hnone']
    · obtain ⟨principal, payload, method, h⟩ := admits_of_posts hnone'
      obtain ⟨content, -, hposts⟩ := forward_posts rt config d principal payload method
      rw [h.posts, hposts] at hnone
      cases hnone
  · obtain ⟨principal, payload, method, h⟩ := admits_of_posts hnone
    obtain ⟨content, hcontent, hposts⟩ := forward_posts rt config d principal payload method
    obtain ⟨content', hcontent', hposts'⟩ := forward_posts rt config d' principal payload method
    rw [h.posts, h.posts, hposts, hposts', Option.some.inj (hcontent.symm.trans hcontent')]

end Posts

section Serve

variable {srv : McpDownstream.Runtime} {config : GatewayConfig} {reader : Reader} {payload : Members} {method : Text}

/-- The gateway's own credential. -/
def credential (config : GatewayConfig) : Option Text :=
  match config.downstreamToken with
  | none | some [] => none
  | some token => some (str "Bearer " ++ token)

theorem lookup_forwardHeaders (config : GatewayConfig) :
    (forwardHeaders config).lookup (str "authorization") = credential config := by
  rw [forwardHeaders, credential]
  cases config.downstreamToken with
  | none => rfl
  | some token =>
      cases token with
      | nil => rfl
      | cons c token => rfl

/-- The entry that a request leaves in the downstream's log. -/
def entryOf (config : GatewayConfig) (payload : Members) (method : Text) : Entry :=
  ⟨.str (joined method), ((nameOf payload).map reread).getD .null, credential config⟩

theorem get?_reread_distinct {ms : Members} {key : Text} (hkey : Low key) (h : Distinct (.dict ms)) :
    ∃ ms' : Members, reread (.dict ms) = .dict ms' ∧ ms'.get? key = (ms.get? key).map reread := by
  rw [Distinct] at h
  exact Json.get?_reread hkey h.1

theorem reread_dict (ms : Members) : ∃ ms' : Members, reread (.dict ms) = .dict ms' := by
  rw [reread, Json.mapText, Json.resolve]
  exact ⟨_, rfl⟩

theorem paramOf_reread {ms' : Members} {key : Text} (hkey : Low key) (h : Distinct (.dict payload))
    (hread : reread (.dict payload) = .dict ms') : paramOf ms' key = (paramOf payload key).map reread := by
  obtain ⟨ms, hms, hparams⟩ := get?_reread_distinct (Low.of_ascii (by decide : (str "params").all isAscii)) h
  obtain rfl : ms = ms' := by simpa [hms] using hread
  rw [paramOf, paramOf, hparams]
  cases hv : payload.get? (str "params") with
  | none => rfl
  | some v =>
      rw [Option.map_some]
      cases v with
      | dict params =>
          obtain ⟨params', hparams', hget⟩ := get?_reread_distinct hkey (distinct_of_get? h hv)
          rw [hparams']
          exact hget
      | null | bool _ | int _ | float _ | str _ | list _ =>
          rw [reread, Json.mapText, Json.resolve]
          rfl

theorem isNotification_reread {ms' : Members} (h : Distinct (.dict payload)) (hread : reread (.dict payload) = .dict ms') :
    JsonRpc.isNotification ms' = JsonRpc.isNotification payload := by
  obtain ⟨ms, hms, hid⟩ := get?_reread_distinct (Low.of_ascii (by decide : (str "id").all isAscii)) h
  obtain rfl : ms = ms' := by simpa [hms] using hread
  have hmem : str "id" ∈ Members.keys ms ↔ str "id" ∈ Members.keys payload := by
    rw [← not_iff_not, ← Json.get?_eq_none_iff, ← Json.get?_eq_none_iff, hid, Option.map_eq_none_iff]
  rw [JsonRpc.isNotification, JsonRpc.isNotification, List.contains_eq_mem, List.contains_eq_mem]
  simp only [hmem]

/-- What the downstream answers to the post for a payload. -/
def answerOf (srv : McpDownstream.Runtime) (payload : Members) (method : Text) : Except Unhandled Response :=
  if JsonRpc.isNotification payload then .ok Response.noContent
  else
    McpDownstream.respond srv (reread (requestId payload)) (.str (joined method))
      (((nameOf payload).map reread).getD .null) (((paramOf payload (str "arguments")).map reread).getD (.dict []))

/-- What the downstream makes of a post: it reads what was judged, with pairs of
surrogates joined. -/
theorem serve_post {content : Bytes} (hsrv : srv.json = reader.decoder) (hdistinct : Distinct (.dict payload))
    (hknows : reader.Knows (.dict payload)) (hnamed : payload.get? (str "method") = some (.str method))
    (hcontent : Utf8.encode (dumps defaultSeparators (.dict payload)) = some content) (log : CallLog) :
    (serve srv log (postOf config content)).2 = log.record (entryOf config payload method) ∧
      (serve srv log (postOf config content)).1 = McpDownstream.reply srv (answerOf srv payload method) := by
  obtain ⟨ms, hms⟩ := reread_dict payload
  have hload := Reader.loadsBytes_dumps Json.spaced_default Json.printed_default hknows hcontent
  rw [hms] at hload
  have hget {key : Text} (hkey : Low key) : ms.get? key = (payload.get? key).map reread := by
    obtain ⟨ms', hms', h⟩ := get?_reread_distinct hkey hdistinct
    obtain rfl : ms' = ms := by simpa [hms'] using hms
    exact h
  have hmethod : ms.get? (str "method") = some (.str (joined method)) := by
    rw [hget (.of_ascii (by decide)), hnamed, Option.map_some, reread, Json.mapText, Json.resolve]
  have hname : paramOf ms (str "name") = (nameOf payload).map reread :=
    paramOf_reread (.of_ascii (by decide)) hdistinct hms
  have harguments : paramOf ms (str "arguments") = (paramOf payload (str "arguments")).map reread :=
    paramOf_reread (.of_ascii (by decide)) hdistinct hms
  have hheader : (postOf config content).headers.lookup (str "authorization") = credential config :=
    lookup_forwardHeaders config
  have hid : (ms.get? (str "id")).getD .null = reread (requestId payload) := by
    rw [hget (.of_ascii (by decide)), requestId]
    cases payload.get? (str "id") with
    | none =>
        rw [Option.getD_none, reread, Json.mapText, Json.resolve]
        rfl
    | some id => rfl
  have hendpoint : McpDownstream.mcpEndpoint srv log (credential config) content =
      (answerOf srv payload method, log.record (entryOf config payload method)) := by
    simp only [McpDownstream.mcpEndpoint, hsrv, hload, hmethod, hname, harguments, hid,
      isNotification_reread hdistinct hms, Option.getD_some, entryOf, answerOf]
    split <;> rfl
  change McpDownstream.mcpEndpoint srv log (credential config) (postOf config content).content = _ at hendpoint
  rw [serve, hheader, hendpoint]
  exact ⟨rfl, rfl⟩

end Serve

section Run

variable {rt : Runtime} {config : GatewayConfig} {srv : McpDownstream.Runtime} {reader : Reader} {N N' : Network}
  {x x' : Exchange} {i : Nat} {served : List Nat} {entry : Entry}

def Entered (rt : Runtime) (config : GatewayConfig) (x : Exchange) (entry : Entry) : Prop :=
  ∃ principal payload method, Admits rt config x.header x.body principal payload method ∧
    entry = entryOf config payload method

/-- What is under way for an exchange is its own. -/
structure Coherent (rt : Runtime) (config : GatewayConfig) (srv : McpDownstream.Runtime) (x : Exchange) : Prop where
  flight : ∀ post, x.flight = some post → ∃ principal payload method content,
    Admits rt config x.header x.body principal payload method ∧
      Utf8.encode (dumps defaultSeparators (.dict payload)) = some content ∧ post = postOf config content
  replied : ∀ upstream, x.phase = .replied (.ok upstream) → ∃ principal payload method,
    Admits rt config x.header x.body principal payload method ∧
      upstream = McpDownstream.reply srv (answerOf srv payload method)
  done : ∀ result, x.phase = .done result → ∃ reply : Except TransportError Upstream,
    result = (proxy rt config (fun _ => reply) x.header x.body).result ∧
      ∀ upstream, reply = .ok upstream → ∃ principal payload method,
        Admits rt config x.header x.body principal payload method ∧
          upstream = McpDownstream.reply srv (answerOf srv payload method)

theorem coherent_accept (header : Option Text) (body : Bytes) : Coherent rt config srv (accept rt config header body) := by
  by_cases hnone : (proxy rt config (fun _ => .error .other) header body).posts = []
  · have haccept : accept rt config header body =
        ⟨header, body, none, .done (proxy rt config (fun _ => .error .other) header body).result⟩ := by
      simp only [accept, hnone]
    rw [haccept]
    refine ⟨fun post h => ?_, fun upstream h => ?_, fun result h => ⟨.error .other, ?_, fun upstream h => ?_⟩⟩
    · cases h
    · cases h
    · cases h
      rfl
    · cases h
  · obtain ⟨principal, payload, method, h⟩ := admits_of_posts hnone
    obtain ⟨content, hcontent, hposts⟩ := forward_posts rt config (fun _ => .error .other) principal payload method
    rw [← h.posts] at hposts
    have haccept : accept rt config header body = ⟨header, body, some (postOf config content), .waiting⟩ := by
      simp only [accept, hposts]
    rw [haccept]
    refine ⟨fun post hpost => ?_, fun upstream h => ?_, fun result h => ?_⟩
    · cases hpost
      exact ⟨principal, payload, method, content, h, hcontent, rfl⟩
    · cases h
    · cases h

/-- The entries of the log stand for the exchanges that were served, one for
each of them, in the order of service. -/
structure Accounted (rt : Runtime) (config : GatewayConfig) (srv : McpDownstream.Runtime) (N : Network)
    (served : List Nat) : Prop where
  nodup : served.Nodup
  count : N.log.count = N.log.entries.length
  entries : List.Forall₂ (fun i entry => ∃ x, N.exchanges[i]? = some x ∧ x.flight = none ∧ Entered rt config x entry)
    served N.log.entries
  coherent : ∀ (i : Nat) (x : Exchange), N.exchanges[i]? = some x → Coherent rt config srv x

theorem accounted_init : Accounted rt config srv .init [] := by
  refine ⟨List.nodup_nil, rfl, .nil, fun i x h => ?_⟩
  cases h

theorem exists_of_forall₂ {α β : Type} {R : α → β → Prop} {as : List α} {bs : List β} (h : List.Forall₂ R as bs)
    {a : α} (ha : a ∈ as) : ∃ b, R a b := by
  induction h with
  | nil => cases ha
  | cons hab _ ih =>
      rcases List.mem_cons.mp ha with rfl | ha
      · exact ⟨_, hab⟩
      · exact ih ha

theorem Accounted.not_mem (h : Accounted rt config srv N served) (hx : N.exchanges[i]? = some x) {post : Post}
    (hflight : x.flight = some post) : i ∉ served := by
  intro hi
  obtain ⟨entry, y, hy, hnone, -⟩ := exists_of_forall₂ h.entries hi
  rw [hx] at hy
  cases hy
  rw [hflight] at hnone
  cases hnone

/-- An exchange that goes on under the same request keeps its entry. -/
theorem entries_set {log : List Entry} (h : List.Forall₂ (fun i entry =>
      ∃ x, N.exchanges[i]? = some x ∧ x.flight = none ∧ Entered rt config x entry) served log)
    (hx : N.exchanges[i]? = some x) (hheader : x'.header = x.header) (hbody : x'.body = x.body)
    (hflight : x.flight = none → x'.flight = none) :
    List.Forall₂ (fun j entry => ∃ y, (N.exchanges.set i x')[j]? = some y ∧ y.flight = none ∧ Entered rt config y entry)
      served log := by
  apply h.imp
  rintro j entry ⟨y, hy, hnone, hentered⟩
  rw [List.getElem?_set]
  by_cases hij : i = j
  · subst hij
    rw [hx] at hy
    cases hy
    rw [if_pos rfl, if_pos (List.getElem?_eq_some_iff.mp hx).1]
    refine ⟨x', rfl, hflight hnone, ?_⟩
    rw [Entered, hheader, hbody]
    exact hentered
  · rw [if_neg hij]
    exact ⟨y, hy, hnone, hentered⟩

theorem coherent_set (h : ∀ (i : Nat) (x : Exchange), N.exchanges[i]? = some x → Coherent rt config srv x) (hx' : Coherent rt config srv x') :
    ∀ (j : Nat) (y : Exchange), (N.exchanges.set i x')[j]? = some y → Coherent rt config srv y := by
  intro j y hy
  rw [List.getElem?_set] at hy
  split at hy
  · split at hy
    · cases hy
      exact hx'
    · cases hy
  · exact h j y hy

/-- Any step keeps the account, and only the service of a post extends it. -/
theorem accounted_step (hrt : rt.json = reader.decoder) (hsrv : srv.json = reader.decoder)
    (h : Accounted rt config srv N served) (hstep : Step rt config srv N N') :
    ∃ served', Accounted rt config srv N' served' := by
  cases hstep with
  | arrive header body =>
      refine ⟨served, h.nodup, h.count, h.entries.imp ?_, ?_⟩
      · rintro i entry ⟨x, hx, hrest⟩
        exact ⟨x, by rw [List.getElem?_append_left (List.getElem?_eq_some_iff.mp hx).1, hx], hrest⟩
      · intro i x hx
        rcases List.mem_append.mp (List.mem_of_getElem? hx) with hold | hnew
        · obtain ⟨j, hj⟩ := List.mem_iff_getElem?.mp hold
          exact h.coherent j x hj
        · rw [List.mem_singleton.mp hnew]
          exact coherent_accept header body
  | serve i x post hx hflight =>
      have hcoherent := h.coherent i x hx
      obtain ⟨principal, payload, method, content, hadmits, hcontent, rfl⟩ := hcoherent.flight post hflight
      have hload : reader.decoder.loadsBytes x.body = .ok (.dict payload) := by rw [← hrt, hadmits.object]
      obtain ⟨hlog, hreply⟩ := @serve_post srv config reader _ _ _ hsrv (distinct_of_loadsBytes hadmits.object)
        (Reader.knows_loadsBytes hload) hadmits.named hcontent N.log
      have hx' : Coherent rt config srv (x.served (serve srv N.log (postOf config content)).1) := by
        refine ⟨fun post hpost => ?_, fun upstream hup => ?_, fun result hdone => ?_⟩
        · cases hpost
        · rw [Exchange.served] at hup
          cases hphase : x.phase with
          | waiting =>
              simp only [hphase, hreply] at hup
              cases hup
              exact ⟨principal, payload, method, hadmits, rfl⟩
          | replied reply =>
              simp only [hphase] at hup
              exact hcoherent.replied upstream (hphase.trans hup)
          | done result =>
              simp only [hphase] at hup
              cases hup
        · rw [Exchange.served] at hdone
          cases hphase : x.phase with
          | waiting =>
              simp only [hphase] at hdone
              cases hdone
          | replied reply =>
              simp only [hphase] at hdone
              cases hdone
          | done result' =>
              simp only [hphase] at hdone
              exact hcoherent.done result (hphase.trans hdone)
      refine ⟨served ++ [i], ?_, ?_, ?_, coherent_set h.coherent hx'⟩
      · rw [List.nodup_append]
        exact ⟨h.nodup, List.nodup_singleton i, fun a ha b hb => by
          rintro rfl
          exact h.not_mem hx hflight (List.mem_singleton.mp hb ▸ ha)⟩
      · rw [hlog, CallLog.record, List.length_append, h.count]
        rfl
      · have hentries := entries_set h.entries hx (rfl : (x.served (serve srv N.log (postOf config content)).1).header = _)
          rfl fun _ => rfl
        rw [hlog]
        refine List.rel_append hentries (.cons ?_ .nil)
        exact ⟨_, List.getElem?_set_self (List.getElem?_eq_some_iff.mp hx).1, rfl, principal, payload, method, hadmits, rfl⟩
  | lose i x hx =>
      have hcoherent := h.coherent i x hx
      refine ⟨served, h.nodup, h.count, entries_set h.entries hx rfl rfl fun _ => rfl, coherent_set h.coherent ?_⟩
      refine ⟨fun post hpost => ?_, hcoherent.replied, hcoherent.done⟩
      cases hpost
  | fail i x e hx hended =>
      have hcoherent := h.coherent i x hx
      refine ⟨served, h.nodup, h.count, entries_set h.entries hx rfl rfl id, coherent_set h.coherent ?_⟩
      refine ⟨hcoherent.flight, fun upstream hup => ?_, fun result hdone => ?_⟩
      · cases hup
      · cases hdone
  | resume i x reply hx hphase =>
      have hcoherent := h.coherent i x hx
      refine ⟨served, h.nodup, h.count, entries_set h.entries hx rfl rfl id, coherent_set h.coherent ?_⟩
      refine ⟨hcoherent.flight, fun upstream hup => ?_, fun result hdone => ?_⟩
      · cases hup
      · cases hdone
        refine ⟨reply, rfl, fun upstream hup => ?_⟩
        rw [hup] at hphase
        exact hcoherent.replied upstream hphase

theorem accounted_of_reachable (hrt : rt.json = reader.decoder) (hsrv : srv.json = reader.decoder)
    (h : Reachable rt config srv N) : ∃ served, Accounted rt config srv N served := by
  induction h with
  | refl => exact ⟨[], accounted_init⟩
  | tail _ hstep ih =>
      obtain ⟨served, h⟩ := ih
      exact accounted_step hrt hsrv h hstep

end Run

section Results

variable {rt : Runtime} {config : GatewayConfig} {srv : McpDownstream.Runtime} {reader : Reader} {N : Network}
  {x : Exchange} {principal : Principal} {payload : Members} {method : Text} {response : Response}

/-- A call of a tool under a role that is not admin names a tool for everybody. -/
theorem entryOf_unprivileged (h : Admits rt config x.header x.body principal payload method)
    (hrole : principal.role ≠ adminRole) (hcall : (entryOf config payload method).method = .str (str "tools/call")) :
    ∃ name : Text, (entryOf config payload method).tool = .str name ∧ name ≠ [] ∧ ¬ adminToolPrefix <+: name := by
  have hmethod : method = str "tools/call" :=
    (Json.joined_eq_iff (.of_ascii (by decide))).mp (Json.str.inj hcall)
  have hallowed := h.allowed
  rw [hmethod] at hallowed
  obtain ⟨name, hname, hne, hprefix⟩ := unprivileged_of_allow hrole hallowed
  refine ⟨joined name, ?_, ?_, ?_⟩
  · rw [entryOf, hname, Option.map_some, reread, Json.mapText, Json.resolve]
    rfl
  · rwa [Ne, Json.joined_eq_nil_iff]
  · rwa [Json.prefix_joined_iff (.of_ascii (by decide))]

/-- Whatever the interleaving, each entry of the downstream's log stands for one
admitted request and no request has two. The entry has the gateway's credential
and says what was judged, and a tool that it calls is one its sender may call. -/
theorem log_admitted (hrt : rt.json = reader.decoder) (hsrv : srv.json = reader.decoder) (h : Reachable rt config srv N) :
    ∃ served : List Nat, served.Nodup ∧ N.log.count = served.length ∧
      List.Forall₂ (fun i entry => ∃ x principal payload method, N.exchanges[i]? = some x ∧
        Admits rt config x.header x.body principal payload method ∧ entry.authorization = credential config ∧
        entry.method = .str (joined method) ∧ entry.tool = ((nameOf payload).map reread).getD .null ∧
        (principal.role ≠ adminRole → entry.method = .str (str "tools/call") →
          ∃ name : Text, entry.tool = .str name ∧ name ≠ [] ∧ ¬ adminToolPrefix <+: name)) served N.log.entries := by
  obtain ⟨served, haccount⟩ := accounted_of_reachable hrt hsrv h
  refine ⟨served, haccount.nodup, by rw [haccount.count, haccount.entries.length_eq], haccount.entries.imp ?_⟩
  rintro i entry ⟨x, hx, -, principal, payload, method, hadmits, rfl⟩
  exact ⟨x, principal, payload, method, hx, hadmits, rfl, rfl, rfl, fun hrole => entryOf_unprivileged hadmits hrole⟩

/-- An answer with the id, or with what pydantic makes of it. -/
def Carries (srv : McpDownstream.Runtime) (id : Json) (response : Response) : Prop :=
  ∃ (members : Members) (id' : Json), response.content = .json (.dict members) ∧
    members.get? (str "id") = some id' ∧ (id' = id ∨ srv.validateId id = some id')

theorem success_carries {id result : Json} (h : McpDownstream.success id result = .ok response) :
    Carries srv id response := by
  obtain ⟨-, rfl⟩ := Response.ofJson_eq_ok.mp h
  exact ⟨_, id, rfl, rfl, Or.inl rfl⟩

theorem respond_carries {id method tool arguments : Json}
    (h : McpDownstream.respond srv id method tool arguments = .ok response) : Carries srv id response := by
  have hnotFound (h : McpDownstream.notFound srv id method = .ok response) : Carries srv id response := by
    rw [McpDownstream.notFound, JsonRpc.errorResponse] at h
    cases hid : srv.validateId id with
    | none =>
        simp only [hid] at h
        cases h
    | some id' =>
        simp only [hid] at h
        obtain ⟨-, rfl⟩ := Response.ofJson_eq_ok.mp h
        exact ⟨_, id', rfl, rfl, Or.inr hid⟩
  cases method with
  | str name =>
      rw [McpDownstream.respond] at h
      split at h
      · exact success_carries h
      split at h
      · exact success_carries h
      split at h
      · exact success_carries h
      · exact hnotFound h
  | null | bool _ | int _ | float _ | list _ | dict _ => exact hnotFound h

theorem Admits.unique {header : Option Text} {body : Bytes} {principal' : Principal} {payload' : Members} {method' : Text}
    (h : Admits rt config header body principal payload method)
    (h' : Admits rt config header body principal' payload' method') : payload' = payload ∧ method' = method := by
  have hobject := h'.object
  rw [h.object] at hobject
  cases hobject
  have hnamed := h'.named
  rw [h.named] at hnamed
  cases hnamed
  exact ⟨rfl, rfl⟩

/-- How a request with an id is answered: the gateway says that the downstream
cannot be reached, or it relays what the downstream answered to this request. -/
inductive Answered (rt : Runtime) (config : GatewayConfig) (srv : McpDownstream.Runtime) (principal : Principal)
    (payload : Members) (method : Text) (response : Response) : Prop
  | unreachable (id : Json) (hid : rt.validateId (requestId payload) = some id)
      (h : response = ⟨200, [], .json (.dict (errorMembers id JsonRpc.internalError
        (str "Downstream MCP server is unreachable") none))⟩)
  | relayed (hcarries : ∀ answer, answerOf srv payload method = .ok answer → Carries srv (reread (requestId payload)) answer)
      (h : relay rt config (McpDownstream.reply srv (answerOf srv payload method)) principal method = .ok response)

/-- Whatever the interleaving, an admitted request is answered with what the
downstream made of this very request, and a notification with nothing. -/
theorem answered_own (hrt : rt.json = reader.decoder) (hsrv : srv.json = reader.decoder) (h : Reachable rt config srv N)
    (hx : x ∈ N.exchanges) (hdone : x.phase = .done (.ok response))
    (hadmits : Admits rt config x.header x.body principal payload method) :
    if JsonRpc.isNotification payload then response = Response.noContent
    else Answered rt config srv principal payload method response := by
  obtain ⟨served, haccount⟩ := accounted_of_reachable hrt hsrv h
  obtain ⟨i, hi⟩ := List.mem_iff_getElem?.mp hx
  obtain ⟨reply, hresult, hreply⟩ := (haccount.coherent i x hi).done _ hdone
  have hauth := authenticate_eq_ok.mpr ⟨hadmits.token, hadmits.role⟩
  have hforward : (proxy rt config (fun _ => reply) x.header x.body).result =
      (forward rt config (fun _ => reply) principal payload method).result := by
    simp only [proxy, hauth, hadmits.object, hadmits.named, classify, hadmits.allowed]
  obtain ⟨content, hcontent, -⟩ := forward_posts rt config (fun _ => reply) principal payload method
  rw [hforward, forward_result hcontent] at hresult
  cases reply with
  | error e =>
      cases e with
      | other => cases hresult
      | httpError =>
          simp only at hresult
          split at hresult
          · next hn =>
              rw [if_pos hn]
              exact Except.ok.inj hresult
          · next hn =>
              rw [if_neg hn]
              rw [rpcError_eq] at hresult
              cases hid : rt.validateId (requestId payload) with
              | none =>
                  rw [hid] at hresult
                  cases hresult
              | some id =>
                  rw [hid] at hresult
                  exact .unreachable id hid (Response.ofJson_eq_ok.mp hresult.symm).2
  | ok upstream =>
      obtain ⟨principal', payload', method', hadmits', hupstream⟩ := hreply upstream rfl
      obtain ⟨rfl, rfl⟩ := hadmits.unique hadmits'
      simp only at hresult
      split at hresult
      · next hn =>
          rw [if_pos hn]
          exact Except.ok.inj hresult
      · next hn =>
          rw [if_neg hn]
          refine .relayed (fun answer hanswer => ?_) (by rw [← hupstream, ← hresult])
          rw [answerOf, if_neg hn] at hanswer
          exact respond_carries hanswer

end Results

section Viewer

/-- A viewer's call of a tool for everybody. -/
def orderCall : Members :=
  [(str "id", .int 7), (str "method", .str (str "tools/call")),
    (str "params", .dict [(str "name", .str (str "get_order_status"))])]

def readerRuntime : Runtime := { viewerRuntime with json := Reader.integers.decoder }

theorem readerRuntime_json : readerRuntime.json = Reader.integers.decoder := rfl

def mockServer : McpDownstream.Runtime where
  json := Reader.integers.decoder
  validateId := some
  format _ := []
  render v := (Utf8.encode (dumps Json.compactSeparators v)).getD []

theorem orderCall_admitted : Admits readerRuntime viewerConfig (some (str "bearer tok_viewer"))
    (written (.dict orderCall)) ⟨str "tok_viewer", str "viewer"⟩ orderCall (str "tools/call") := by
  refine ⟨rfl, rfl, ?_, rfl, rfl⟩
  have hencode := Json.encode_printed (Json.printed_dumps Json.printed_default (.dict orderCall))
  have hwritten : written (.dict orderCall) = Utf8.asciiBytes (dumps defaultSeparators (.dict orderCall)) := by
    rw [written, hencode, Option.getD_some]
  rw [hwritten]
  exact Reader.loadsBytes_dumps Json.spaced_default Json.printed_default (by rfl) hencode

theorem orderCall_run : ∃ (N : Network) (x : Exchange) (response : Response), Reachable readerRuntime viewerConfig mockServer N ∧
    N.log.count = 1 ∧ x ∈ N.exchanges ∧ x.phase = .done (.ok response) ∧ x.header = some (str "bearer tok_viewer") ∧
      x.body = written (.dict orderCall) := by
  obtain ⟨content, hcontent, hposts⟩ := forward_posts readerRuntime viewerConfig (fun _ => .error .other)
    ⟨str "tok_viewer", str "viewer"⟩ orderCall (str "tools/call")
  rw [← orderCall_admitted.posts] at hposts
  have haccept : accept readerRuntime viewerConfig (some (str "bearer tok_viewer")) (written (.dict orderCall)) =
      ⟨some (str "bearer tok_viewer"), written (.dict orderCall), some (postOf viewerConfig content), .waiting⟩ := by
    simp only [accept, hposts]
  let x : Exchange :=
    ⟨some (str "bearer tok_viewer"), written (.dict orderCall), some (postOf viewerConfig content), .waiting⟩
  let served := serve mockServer .empty (postOf viewerConfig content)
  have harrive : Reachable readerRuntime viewerConfig mockServer ⟨[x], .empty⟩ := by
    have hstep := @Step.arrive readerRuntime viewerConfig mockServer .init
      (some (str "bearer tok_viewer")) (written (.dict orderCall))
    rw [haccept] at hstep
    exact .tail .refl hstep
  have hserve : Reachable readerRuntime viewerConfig mockServer ⟨[x.served served.1], served.2⟩ :=
    harrive.tail (.serve _ 0 x _ rfl rfl)
  have hresume : Reachable readerRuntime viewerConfig mockServer
      ⟨[(x.served served.1).resume readerRuntime viewerConfig (.ok served.1)], served.2⟩ :=
    hserve.tail (.resume _ 0 _ (.ok served.1) rfl rfl)
  have hauth := authenticate_eq_ok.mpr ⟨orderCall_admitted.token, orderCall_admitted.role⟩
  have hresult : (proxy readerRuntime viewerConfig (fun _ => .ok served.1) (some (str "bearer tok_viewer"))
      (written (.dict orderCall))).result = relay readerRuntime viewerConfig served.1 ⟨str "tok_viewer", str "viewer"⟩
        (str "tools/call") := by
    simp only [proxy, hauth, orderCall_admitted.object, orderCall_admitted.named, classify, orderCall_admitted.allowed,
      forward_result hcontent]
    rfl
  obtain ⟨hlog, -⟩ := @serve_post mockServer viewerConfig Reader.integers _ _ _ rfl
    (distinct_of_loadsBytes orderCall_admitted.object) (by rfl) orderCall_admitted.named hcontent .empty
  refine ⟨_, _, _, hresume, ?_, List.mem_singleton.mpr rfl, congrArg Phase.done (hresult.trans rfl), rfl, rfl⟩
  change served.2.count = 1
  rw [hlog]
  rfl

theorem log_admitted_viewer : ∃ (N : Network) (served : List Nat),
    Reachable readerRuntime viewerConfig mockServer N ∧ N.log.count = 1 ∧ N.log.count = served.length := by
  obtain ⟨N, x, response, hreach, hcount, -⟩ := orderCall_run
  obtain ⟨served, -, hlength, -⟩ := log_admitted readerRuntime_json rfl hreach
  exact ⟨N, served, hreach, hcount, hlength⟩

theorem answered_own_viewer : ∃ response, Answered readerRuntime viewerConfig mockServer ⟨str "tok_viewer", str "viewer"⟩
    orderCall (str "tools/call") response := by
  obtain ⟨N, x, response, hreach, -, hx, hdone, hheader, hbody⟩ := orderCall_run
  have hadmits := orderCall_admitted
  rw [← hheader, ← hbody] at hadmits
  exact ⟨response, answered_own readerRuntime_json rfl hreach hx hdone hadmits⟩

end Viewer

end LlmGateway.Gateway
