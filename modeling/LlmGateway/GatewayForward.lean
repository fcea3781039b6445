import LlmGateway.Gateway

namespace LlmGateway.Gateway

open Json (Members Decoder Duplicates dumps defaultSeparators resolve)

variable {rt : Runtime} {config : GatewayConfig} {downstream : Post → Except TransportError Upstream}
variable {header : Option Text} {body : Bytes} {principal : Principal} {payload : Members} {method : Text}

/-- params.name of a request, if it has one. -/
def nameOf (payload : Members) : Option Json :=
  match payload.get? (str "params") with
  | some (.dict params) => Members.get? params (str "name")
  | _ => none

/-- The name of a tool that every principal may call. -/
def Unprivileged (name : Option Json) : Prop :=
  ∃ n : Text, name = some (.str n) ∧ n ≠ [] ∧ ¬ adminToolPrefix <+: n

/-- The request is the object payload with this method, it was sent under a
token of this principal, and decide allows it. -/
structure Admits (rt : Runtime) (config : GatewayConfig) (header : Option Text) (body : Bytes)
    (principal : Principal) (payload : Members) (method : Text) : Prop where
  token : parseBearer rt.unicode header = .ok principal.tokenId
  role : config.tokens.lookup principal.tokenId = some principal.role
  object : rt.json.loadsBytes body = .ok (.dict payload)
  named : payload.get? (str "method") = some (.str method)
  allowed : decide principal method ((payload.get? (str "params")).getD .null) = .allow

section Policy

theorem unprivileged_of_allow (hrole : principal.role ≠ adminRole)
    (h : decide principal (str "tools/call") ((payload.get? (str "params")).getD .null) = .allow) :
    Unprivileged (nameOf payload) := by
  unfold decide at h
  rw [if_neg (not_not_intro rfl)] at h
  cases hp : payload.get? (str "params") with
  | none => rw [hp] at h; cases h
  | some params =>
      rw [hp] at h
      cases params with
      | dict params =>
          rw [nameOf, hp]
          cases hn : Members.get? params (str "name") with
          | none => simp only [Option.getD_some, hn] at h; cases h
          | some name =>
              simp only [Option.getD_some, hn] at h
              cases name with
              | str name =>
                  cases name with
                  | nil => cases h
                  | cons c name =>
                      simp only at h
                      split at h
                      · cases h
                      · next hadmin =>
                          refine ⟨c :: name, hn, List.cons_ne_nil c name, fun hpre => hadmin ?_⟩
                          simp [isAdminTool, List.isPrefixOf_iff_prefix.mpr hpre, Principal.isAdmin, hrole]
              | null | bool _ | int _ | float _ | list _ | dict _ => cases h
      | null | bool _ | int _ | float _ | str _ | list _ => cases h

end Policy

section Auth

theorem authenticate_eq_ok : authenticate rt.unicode header config.tokens = .ok principal ↔
    parseBearer rt.unicode header = .ok principal.tokenId ∧
      config.tokens.lookup principal.tokenId = some principal.role := by
  obtain ⟨tokenId, role⟩ := principal
  unfold authenticate
  cases parseBearer rt.unicode header with
  | error e => exact iff_of_false (fun h => by cases h) fun h => by cases h.1
  | ok token =>
      constructor
      · intro h
        cases hrole : config.tokens.lookup token with
        | none => simp only [hrole] at h; cases h
        | some role' =>
            simp only [hrole] at h
            cases h
            exact ⟨rfl, hrole⟩
      · rintro ⟨h1, h2⟩
        cases h1
        simp only [h2]

end Auth

section Forward

/-- What the gateway sends for a payload. -/
def postOf (config : GatewayConfig) (content : Bytes) : Post :=
  ⟨config.downstreamUrl, content, forwardHeaders config, config.requestTimeout⟩

theorem forward_posts (rt : Runtime) (config : GatewayConfig) (downstream : Post → Except TransportError Upstream)
    (principal : Principal)
    (payload : Members) (method : Text) : ∃ content, Utf8.encode (dumps defaultSeparators (.dict payload)) = some content ∧
    (forward rt config downstream principal payload method).posts = [postOf config content] := by
  have hprinted := Json.printed_dumps Json.printed_default (.dict payload)
  obtain ⟨content, hcontent⟩ := Option.isSome_iff_exists.mp (Utf8.encode_isSome (Json.scalar_of_printed hprinted))
  refine ⟨content, hcontent, ?_⟩
  rw [forward, hcontent]
  rfl

theorem Admits.posts (h : Admits rt config header body principal payload method) :
    (proxy rt config downstream header body).posts =
      (forward rt config downstream principal payload method).posts := by
  have hauth := authenticate_eq_ok.mpr ⟨h.token, h.role⟩
  simp only [proxy, hauth, h.object, h.named, classify, h.allowed]

/-- The gateway contacts the downstream on one path only. -/
theorem admits_of_posts (h : (proxy rt config downstream header body).posts ≠ []) :
    ∃ principal payload method, Admits rt config header body principal payload method := by
  rw [proxy] at h
  cases hauth : authenticate rt.unicode header config.tokens with
  | error e => rw [hauth] at h; exact absurd rfl h
  | ok principal =>
      simp only [hauth] at h
      obtain ⟨htoken, hrole⟩ := authenticate_eq_ok.mp hauth
      cases hload : rt.json.loadsBytes body with
      | error e => rw [hload] at h; cases e <;> exact absurd rfl h
      | ok value =>
          simp only [hload] at h
          cases value with
          | dict payload =>
              simp only at h
              cases hmethod : Members.get? payload (str "method") with
              | none => simp only [hmethod] at h; exact absurd rfl h
              | some method =>
                  simp only [hmethod] at h
                  cases method with
                  | str method =>
                      simp only [classify] at h
                      cases hdecide : decide principal method ((Members.get? payload (str "params")).getD .null) with
                      | allow => exact ⟨principal, payload, method, htoken, hrole, hload, hmethod, hdecide⟩
                      | deny code message data =>
                          simp only [hdecide] at h
                          split at h <;> exact absurd rfl h
                  | null | bool _ | int _ | float _ | list _ | dict _ => exact absurd rfl h
          | null | bool _ | int _ | float _ | str _ | list _ => exact absurd rfl h

end Forward

section Reading

/-- What the json module reads from what it wrote for a value that it had read,
under any rule for duplicate members. -/
theorem resolve_round_trip {value : Json} {content : Bytes} (rule : Duplicates)
    (hvalue : rt.json.loadsBytes body = .ok value) (hround : rt.json.parseBytes content = .ok value) :
    (rt.json.parseBytes content).map (resolve rule) = .ok value := by
  rw [Decoder.loadsBytes] at hvalue
  cases hparse : rt.json.parseBytes body with
  | error e => rw [hparse] at hvalue; cases hvalue
  | ok source =>
      rw [hparse] at hvalue
      cases hvalue
      rw [hround, Except.map, Json.resolve_of_distinct rule _ (Json.distinct_resolve .last source)]

end Reading

/-- The downstream is contacted at most once, exactly for the requests that are
admitted, and reads there what was judged. -/
theorem proxy_forwards_admitted (rt : Runtime) (config : GatewayConfig)
    (downstream : Post → Except TransportError Upstream) (header : Option Text) (body : Bytes)
    (hround : ∀ value content, rt.json.loadsBytes body = .ok value →
      Utf8.encode (dumps defaultSeparators value) = some content → rt.json.parseBytes content = .ok value) :
    (proxy rt config downstream header body).posts.length ≤ 1 ∧
    ((proxy rt config downstream header body).posts.length = 1 ↔
      ∃ principal payload method, Admits rt config header body principal payload method) ∧
    ∀ post ∈ (proxy rt config downstream header body).posts, ∃ principal payload method,
      Admits rt config header body principal payload method ∧
      ∀ rule, ∃ sent : Members, (rt.json.parseBytes post.content).map (resolve rule) = .ok (.dict sent) ∧
        sent.get? (str "method") = some (.str method) ∧ nameOf sent = nameOf payload ∧
        (principal.role ≠ adminRole → method = str "tools/call" → Unprivileged (nameOf sent)) := by
  by_cases hnone : (proxy rt config downstream header body).posts = []
  · rw [hnone]
    refine ⟨by simp, iff_of_false (by simp) ?_, fun post hpost => absurd hpost List.not_mem_nil⟩
    rintro ⟨principal, payload, method, h⟩
    obtain ⟨content, -, hposts⟩ := forward_posts rt config downstream principal payload method
    rw [h.posts, hposts] at hnone
    exact absurd hnone (List.cons_ne_nil _ _)
  · obtain ⟨principal, payload, method, h⟩ := admits_of_posts hnone
    obtain ⟨content, hcontent, hposts⟩ := forward_posts rt config downstream principal payload method
    rw [h.posts, hposts]
    refine ⟨Nat.le_refl 1, iff_of_true rfl ⟨principal, payload, method, h⟩, fun post hpost => ?_⟩
    rw [List.mem_singleton.mp hpost]
    refine ⟨principal, payload, method, h, fun rule => ⟨payload, ?_, h.named, rfl, ?_⟩⟩
    · exact resolve_round_trip rule h.object (hround _ content h.object hcontent)
    · rintro hrole rfl
      exact unprivileged_of_allow hrole h.allowed

section Viewer

/-- A viewer's call of a tool that the body names before it names another. -/
def twiceNamed : Json :=
  .dict [(str "method", .str (str "tools/call")),
    (str "params", .dict [(str "name", .str (str "admin_x")), (str "name", .str (str "get"))])]

def onceNamed : Members :=
  [(str "method", .str (str "tools/call")), (str "params", .dict [(str "name", .str (str "get"))])]

def written (value : Json) : Bytes := (Utf8.encode (dumps defaultSeparators value)).getD []

def viewerRuntime : Runtime where
  unicode := .ascii
  repr t := t
  validateId := some
  json :=
    { parse := fun _ => .error .jsonDecodeError
      parseBytes := fun x =>
        if x = written twiceNamed then .ok twiceNamed
        else if x = written (.dict onceNamed) then .ok (.dict onceNamed)
        else .error .jsonDecodeError
      integral := fun _ => none }

def viewerConfig : GatewayConfig where
  downstreamUrl := str "http://127.0.0.1:8200/mcp"
  downstreamToken := none
  tokens := [(str "tok_admin", str "admin"), (str "tok_viewer", str "viewer")]
  filterToolList := false
  requestTimeout := ⟨str "10.0", by decide⟩

theorem proxy_forwards_admitted_viewer :
    (proxy viewerRuntime viewerConfig (fun _ => .error .httpError) (some (str "bearer tok_viewer"))
      (written twiceNamed)).posts.length = 1 := by
  have hload : viewerRuntime.json.loadsBytes (written twiceNamed) = .ok (.dict onceNamed) := rfl
  have hround : ∀ value content, viewerRuntime.json.loadsBytes (written twiceNamed) = .ok value →
      Utf8.encode (dumps defaultSeparators value) = some content →
      viewerRuntime.json.parseBytes content = .ok value := by
    intro value content hvalue hcontent
    cases hload.symm.trans hvalue
    cases (show Utf8.encode (dumps defaultSeparators (.dict onceNamed)) = some (written (.dict onceNamed)) from
      rfl).symm.trans hcontent
    rfl
  refine (proxy_forwards_admitted viewerRuntime viewerConfig (fun _ => .error .httpError)
    (some (str "bearer tok_viewer")) (written twiceNamed) hround).2.1.mpr
    ⟨⟨str "tok_viewer", str "viewer"⟩, onceNamed, str "tools/call", ?_⟩
  exact ⟨rfl, rfl, hload, rfl, rfl⟩

end Viewer

end LlmGateway.Gateway
