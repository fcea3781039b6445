import LlmGateway.GatewayCorrelation

namespace LlmGateway.Gateway

open Json (Members Distinct)
open Response (Renderable)

variable {rt : Runtime} {config : GatewayConfig} {upstream : Upstream} {principal : Principal} {body : Json}
variable {members inner ms : Members} {tools : List Json} {key : Text} {old value : Json}

section Exchange

/-- The members with the value of one key exchanged. -/
structure Exchanged (ms : Members) (key : Text) (value : Json) (ms' : Members) : Prop where
  keys : ms'.keys = ms.keys
  value : ms'.get? key = some value
  other : ∀ k, k ≠ key → ms'.get? k = ms.get? k

theorem exchanged_set (value : Json) (h : ms.get? key = some old) : Exchanged ms key value (ms.set key value) :=
  ⟨Members.keys_set_of_mem value (Members.mem_keys_of_get? h), Members.get?_set_self ms key value,
    fun _ hk => Members.get?_set_of_ne value hk⟩

theorem renderable_dict : Renderable (.dict ms) ↔ ∀ m ∈ ms, Utf8.scalar m.1 ∧ Renderable m.2 := by
  rw [Renderable, Json.every, Json.every, Json.everyMember_iff, Json.everyMember_iff]
  constructor
  · exact fun h m hm => ⟨(h.2 m hm).1, (h.1 m hm).2, (h.2 m hm).2⟩
  · exact fun h => ⟨fun m hm => ⟨rfl, (h m hm).2.1⟩, fun m hm => ⟨(h m hm).1, (h m hm).2.2⟩⟩

theorem renderable_list : Renderable (.list tools) ↔ ∀ tool ∈ tools, Renderable tool := by
  rw [Renderable, Json.every, Json.every, Json.everyItem_iff, Json.everyItem_iff]
  exact ⟨fun h tool ht => ⟨h.1 tool ht, h.2 tool ht⟩, fun h => ⟨fun tool ht => (h tool ht).1, fun tool ht => (h tool ht).2⟩⟩

/-- All members but those of one key can be rendered. -/
def RenderableBut (key : Text) (ms : Members) : Prop := ∀ m ∈ ms, m.1 ≠ key → Utf8.scalar m.1 ∧ Renderable m.2

theorem renderable_set (hnodup : ms.keys.Nodup) (hkey : ms.get? key = some old) (hscalar : Utf8.scalar key) :
    Renderable (.dict (ms.set key value)) ↔ RenderableBut key ms ∧ Renderable value := by
  simp only [renderable_dict, Members.mem_set_iff value hnodup (Members.mem_keys_of_get? hkey), RenderableBut]
  constructor
  · intro h
    exact ⟨fun m hm hne => h m (Or.inl ⟨hm, hne⟩), (h _ (Or.inr rfl)).2⟩
  · rintro ⟨hothers, hvalue⟩ m (⟨hm, hne⟩ | rfl)
    · exact hothers m hm hne
    · exact ⟨hscalar, hvalue⟩

theorem distinct_of_loadsBytes {x : Bytes} (h : rt.json.loadsBytes x = .ok value) : Distinct value := by
  rw [Json.Decoder.loadsBytes] at h
  cases hparse : rt.json.parseBytes x with
  | error e =>
      rw [hparse] at h
      cases h
  | ok source =>
      rw [hparse] at h
      cases h
      exact Json.distinct_resolve .last source

theorem distinct_of_get? (h : Distinct (.dict ms)) (hget : ms.get? key = some value) : Distinct value := by
  rw [Distinct] at h
  exact Json.distinctMembers_iff.mp h.2 _ (Members.mem_of_get? hget)

end Exchange

section Tools

def Decision.isDeny : Decision → Bool
  | .allow => false
  | .deny _ _ _ => true

/-- An entry with a name that decide refuses to call. -/
def isRefused (principal : Principal) : Json → Bool
  | .dict tool =>
    match Members.get? tool (str "name") with
    | some (.str name) => (decide principal (str "tools/call") (.dict [(str "name", .str name)])).isDeny
    | _ => false
  | _ => false

/-- An entry with the empty name, which decide takes for no name. -/
def isNameless : Json → Bool
  | .dict tool =>
    match Members.get? tool (str "name") with
    | some (.str name) => name = []
    | _ => false
  | _ => false

theorem isDeny_decide (principal : Principal) (name : Text) :
    (decide principal (str "tools/call") (.dict [(str "name", .str name)])).isDeny =
      (name = [] || isAdminTool name && !principal.isAdmin) := by
  have hname : Members.get? [(str "name", .str name)] (str "name") = some (.str name) := rfl
  rw [decide, if_neg (fun h => h rfl)]
  simp only [hname, Option.getD_some]
  cases name with
  | nil => rfl
  | cons c name =>
      have hne : Decidable.decide (c :: name = []) = false := rfl
      rw [hne, Bool.false_or]
      dsimp only
      cases isAdminTool (c :: name) && !principal.isAdmin <;> rfl

theorem isRefused_eq (principal : Principal) (tool : Json) :
    isRefused principal tool = (isNameless tool || isHidden tool && !principal.isAdmin) := by
  cases tool with
  | dict tool =>
      simp only [isRefused, isNameless, isHidden]
      cases hname : Members.get? tool (str "name") with
      | none => rfl
      | some name =>
          cases name with
          | str name => exact isDeny_decide principal name
          | _ => rfl
  | _ => rfl

theorem not_isHidden_of_isNameless {tool : Json} (h : isNameless tool) : isHidden tool = false := by
  cases tool with
  | dict tool =>
      simp only [isNameless, isHidden] at h ⊢
      cases hname : Members.get? tool (str "name") with
      | none => rfl
      | some name =>
          rw [hname] at h
          cases name with
          | str name =>
              have hempty : name = [] := of_decide_eq_true h
              rw [hempty]
              rfl
          | _ => rfl
  | _ => rfl

theorem visibleTools_eq (tools : List Json) (principal : Principal) :
    visibleTools tools principal = tools.filter fun tool => !(isHidden tool && !principal.isAdmin) := by
  rw [visibleTools]
  cases principal.isAdmin <;> simp

/-- The two checks agree on a list in which every name says something. -/
theorem visibleTools_eq_iff (tools : List Json) (principal : Principal) :
    visibleTools tools principal = tools.filter (fun tool => !isRefused principal tool) ↔
      ∀ tool ∈ tools, isNameless tool = false := by
  rw [visibleTools_eq]
  constructor
  · intro h tool htool
    by_contra hname
    rw [Bool.not_eq_false] at hname
    have hvisible : tool ∈ tools.filter fun tool => !(isHidden tool && !principal.isAdmin) :=
      List.mem_filter.mpr ⟨htool, by simp [not_isHidden_of_isNameless hname]⟩
    rw [h, List.mem_filter, isRefused_eq, hname] at hvisible
    cases hvisible.2
  · intro h
    apply List.filter_congr
    intro tool htool
    rw [isRefused_eq, h tool htool, Bool.false_or]

end Tools

section Filter

mutual

/-- Some object in the value has a name with the prefix. -/
def offers : Json → Bool
  | .list items => offersItems items
  | .dict members => isHidden (.dict members) || offersMembers members
  | _ => false

def offersItems : List Json → Bool
  | [] => false
  | v :: vs => offers v || offersItems vs

def offersMembers : Members → Bool
  | [] => false
  | (_, v) :: ms => offers v || offersMembers ms

end

structure HasTools (body : Json) (members inner : Members) (tools : List Json) : Prop where
  body_eq : body = .dict members
  result : members.get? (str "result") = some (.dict inner)
  tools : inner.get? (str "tools") = some (.list tools)

theorem HasTools.toolsOf_eq (h : HasTools body members inner tools) : toolsOf body = .ok (.list tools) := by
  obtain ⟨rfl, hresult, hlist⟩ := h
  simp only [toolsOf, hresult, hlist, Option.getD_some]

/-- The value in the body of a response. -/
def delivered (rt : Runtime) (response : Response) : Option Json :=
  match response.content with
  | .empty => none
  | .json value => some value
  | .raw content => (rt.json.loadsBytes content).toOption

/-- How an answer to tools/list is to be relayed. -/
structure Filtered (rt : Runtime) (upstream : Upstream) (principal : Principal) (body : Json)
    (result : Except Unhandled Response) : Prop where
  handled : ∃ response, result = .ok response
  listed : ∀ response members inner tools, result = .ok response → HasTools body members inner tools →
    response.status = upstream.statusCode ∧ ∃ members' inner', delivered rt response = some (.dict members') ∧
      Exchanged members (str "result") (.dict inner') members' ∧
      Exchanged inner (str "tools") (.list (tools.filter fun tool => !isRefused principal tool)) inner'
  withheld : ∀ response value, result = .ok response → (∀ members inner tools, ¬ HasTools body members inner tools) →
    principal.isAdmin = false → delivered rt response = some value → offers value = false

def Withholds (principal : Principal) (body : Json) : Prop := principal.isAdmin = true ∨ offers body = false

/-- The answers that the gateway relays so. -/
def Filterable (principal : Principal) (body : Json) : Prop :=
  match body with
  | .dict members =>
    match (Members.get? members (str "result")).getD (.dict []) with
    | .dict inner =>
      match (Members.get? inner (str "tools")).getD .null with
      | .list tools =>
        (∀ tool ∈ tools, isNameless tool = false) ∧ RenderableBut (str "result") members ∧
          RenderableBut (str "tools") inner ∧
          ∀ tool ∈ tools, Renderable tool ∨ isHidden tool = true ∧ principal.isAdmin = false
      | _ => Withholds principal body
    | _ => False
  | _ => Withholds principal body

theorem not_filtered_error (e : Unhandled) : ¬ Filtered rt upstream principal body (.error e) := by
  intro h
  obtain ⟨response, hresponse⟩ := h.handled
  cases hresponse

/-- A body without a list of tools is relayed as it is. -/
theorem filtered_raw_iff (hload : rt.json.loadsBytes upstream.content = .ok body)
    (hnone : ∀ tools, toolsOf body ≠ .ok (.list tools)) :
    Filtered rt upstream principal body (.ok ⟨upstream.statusCode, [], .raw upstream.content⟩) ↔
      Withholds principal body := by
  have hdelivered : delivered rt ⟨upstream.statusCode, [], .raw upstream.content⟩ = some body := by
    simp only [delivered, hload]
    rfl
  have hlacks (members inner : Members) (tools : List Json) : ¬ HasTools body members inner tools :=
    fun h => hnone tools h.toolsOf_eq
  rw [Withholds, ← Bool.not_eq_false, ← imp_iff_not_or]
  constructor
  · intro h hadmin
    exact h.withheld _ body rfl hlacks hadmin hdelivered
  · intro h
    refine ⟨⟨_, rfl⟩, fun _ members inner tools _ htools => absurd htools (hlacks members inner tools), ?_⟩
    intro response value hresponse _ hadmin hvalue
    cases hresponse
    rw [hdelivered] at hvalue
    cases hvalue
    exact h hadmin

theorem renderable_withTools (hdistinct : Distinct body) (htools : HasTools body members inner tools) {tools' : List Json} :
    Renderable (withTools body tools') ↔
      RenderableBut (str "result") members ∧ RenderableBut (str "tools") inner ∧ ∀ tool ∈ tools', Renderable tool := by
  obtain ⟨rfl, hresult, hlist⟩ := htools
  have hinner := distinct_of_get? hdistinct hresult
  rw [Distinct] at hdistinct hinner
  simp only [withTools, hresult]
  rw [renderable_set hdistinct.1 hresult (by decide), renderable_set hinner.1 hlist (by decide), renderable_list]

theorem renderable_visibleTools : (∀ tool ∈ visibleTools tools principal, Renderable tool) ↔
    ∀ tool ∈ tools, Renderable tool ∨ isHidden tool = true ∧ principal.isAdmin = false := by
  rw [visibleTools_eq]
  simp only [List.mem_filter, Bool.not_eq_true', Bool.and_eq_false_iff, Bool.not_eq_false', and_imp]
  constructor
  · intro h tool htool
    by_cases hhidden : isHidden tool = true ∧ principal.isAdmin = false
    · exact Or.inr hhidden
    · rw [not_and, Bool.not_eq_false] at hhidden
      cases hcase : isHidden tool with
      | false => exact Or.inl (h tool htool (Or.inl hcase))
      | true => exact Or.inl (h tool htool (Or.inr (hhidden hcase)))
  · rintro h tool htool hvisible
    refine (h tool htool).resolve_right ?_
    rintro ⟨hhidden, hadmin⟩
    rcases hvisible with hvisible | hvisible
    · exact Bool.noConfusion (hhidden.symm.trans hvisible)
    · exact Bool.noConfusion (hvisible.symm.trans hadmin)

/-- A list of tools is relayed without those that decide refuses. -/
theorem filtered_tools_iff (hdistinct : Distinct body) (htools : HasTools body members inner tools) :
    Filtered rt upstream principal body
        (Response.ofJson (withTools body (visibleTools tools principal)) upstream.statusCode []) ↔
      (∀ tool ∈ tools, isNameless tool = false) ∧ RenderableBut (str "result") members ∧
        RenderableBut (str "tools") inner ∧
        ∀ tool ∈ tools, Renderable tool ∨ isHidden tool = true ∧ principal.isAdmin = false := by
  rw [← renderable_visibleTools, ← renderable_withTools hdistinct htools, ← visibleTools_eq_iff tools principal]
  obtain ⟨rfl, hresult, hlist⟩ := htools
  have hwith (shown : List Json) : withTools (.dict members) shown = .dict
      (members.set (str "result") (.dict (inner.set (str "tools") (.list shown)))) := by
    simp only [withTools, hresult]
  constructor
  · intro h
    obtain ⟨response, hresponse⟩ := h.handled
    obtain ⟨hrender, hjson⟩ := Response.ofJson_eq_ok.mp hresponse
    obtain ⟨-, members', inner', hvalue, houter, hinner⟩ :=
      h.listed response members inner tools hresponse ⟨rfl, hresult, hlist⟩
    refine ⟨?_, hrender⟩
    rw [hjson, delivered, hwith] at hvalue
    cases hvalue
    have hset := houter.value.symm.trans (Members.get?_set_self _ _ _)
    cases hset
    have hshown := hinner.value.symm.trans (Members.get?_set_self _ _ _)
    exact (Json.list.inj (Option.some.inj hshown)).symm
  · rintro ⟨hshown, hrender⟩
    have hok := Response.ofJson_eq_ok.mpr ⟨hrender, (rfl : (⟨upstream.statusCode, [], .json _⟩ : Response) = _)⟩
    rw [hok]
    refine ⟨⟨_, rfl⟩, ?_, fun _ _ _ hnone => absurd ⟨rfl, hresult, hlist⟩ (hnone members inner tools)⟩
    rintro response members' inner' tools' hresponse ⟨hbody, hresult', hlist'⟩
    cases hbody
    cases hresult.symm.trans hresult'
    cases hlist.symm.trans hlist'
    cases hresponse
    refine ⟨rfl, _, _, congrArg some (hwith _), exchanged_set _ hresult, ?_⟩
    rw [hshown]
    exact exchanged_set _ hlist

theorem relay_list (hfilter : config.filterToolList = true) (hload : rt.json.loadsBytes upstream.content = .ok body) :
    relay rt config upstream principal (str "tools/list") =
      match toolsOf body with
      | .error e => .error e
      | .ok (.list tools) => Response.ofJson (withTools body (visibleTools tools principal)) upstream.statusCode []
      | .ok _ => .ok ⟨upstream.statusCode, [], .raw upstream.content⟩ := by
  simp only [relay, hfilter, hload]
  rfl

/-- The list that a principal is shown agrees with the calls that it may make
exactly for these answers. -/
theorem filtered_iff (rt : Runtime) (config : GatewayConfig) (upstream : Upstream) (principal : Principal) (body : Json)
    (hfilter : config.filterToolList = true) (hload : rt.json.loadsBytes upstream.content = .ok body) :
    Filtered rt upstream principal body (relay rt config upstream principal (str "tools/list")) ↔
      Filterable principal body := by
  rw [relay_list hfilter hload]
  have hdistinct := distinct_of_loadsBytes hload
  cases body with
  | dict members =>
      simp only [toolsOf, Filterable]
      cases hresult : Members.get? members (str "result") with
      | none =>
          have hempty : Members.get? [] (str "tools") = none := rfl
          exact filtered_raw_iff hload fun tools => by simp [toolsOf, hresult, hempty]
      | some result =>
          cases result with
          | dict inner =>
              simp only [Option.getD_some]
              cases htools : Members.get? inner (str "tools") with
              | none => exact filtered_raw_iff hload fun tools => by simp [toolsOf, hresult, htools]
              | some value =>
                  cases value with
                  | list tools => exact filtered_tools_iff hdistinct ⟨rfl, hresult, htools⟩
                  | _ => exact filtered_raw_iff hload fun tools => by simp [toolsOf, hresult, htools]
          | _ => exact iff_of_false (not_filtered_error _) id
  | _ => exact filtered_raw_iff hload fun tools => by simp [toolsOf]

def filteringConfig : GatewayConfig := { viewerConfig with filterToolList := true }

/-- A downstream whose answers are all this value. -/
def answering (answer : Json) : Runtime :=
  { typedRuntime with json := { typedRuntime.json with
      parseBytes := fun x => if x = written answer then .ok answer else .error .jsonDecodeError } }

def listAnswer (answer : Json) : Upstream := ⟨200, some (str "application/json"), written answer⟩

def viewer : Principal := ⟨str "tok_viewer", str "viewer"⟩

/-- What a viewer is answered. -/
def viewerList (answer : Json) : Except Unhandled Response :=
  relay (answering answer) filteringConfig (listAnswer answer) viewer (str "tools/list")

theorem loadsBytes_answering {answer : Json} (h : Distinct answer) :
    (answering answer).json.loadsBytes (listAnswer answer).content = .ok answer := by
  have hparse : (answering answer).json.parseBytes (listAnswer answer).content = .ok answer := by
    simp [answering, listAnswer]
  rw [Json.Decoder.loadsBytes, hparse, Except.map, Json.resolve_of_distinct .last answer h]

def named (name : Text) : Json := .dict [(str "name", .str name)]

def listOf (tools : Json) : Json := .dict [(str "result", .dict [(str "tools", tools)])]

theorem distinct_singleton (key : Text) (h : Distinct value) : Distinct (.dict [(key, value)]) := by
  rw [Distinct]
  exact ⟨List.nodup_singleton key, h, trivial⟩

theorem distinct_named (name : Text) : Distinct (named name) := distinct_singleton _ (by trivial)

theorem distinct_listOf {tools : Json} (h : Distinct tools) : Distinct (listOf tools) :=
  distinct_singleton _ (distinct_singleton _ h)

def twoTools : Json := listOf (.list [named (str "admin_reset_key"), named (str "search_docs")])

theorem filtered_twoTools : Filtered (answering twoTools) (listAnswer twoTools) viewer twoTools (viewerList twoTools) := by
  have hdistinct : Distinct twoTools := distinct_listOf ⟨distinct_named _, distinct_named _, trivial⟩
  apply (filtered_iff (answering twoTools) filteringConfig (listAnswer twoTools) viewer twoTools rfl
    (loadsBytes_answering hdistinct)).mpr
  refine ⟨by decide, ?_, ?_, ?_⟩
  · intro m hm hne
    exact absurd (congrArg Prod.fst (List.mem_singleton.mp hm)) hne
  · intro m hm hne
    exact absurd (congrArg Prod.fst (List.mem_singleton.mp hm)) hne
  · intro tool htool
    rcases List.mem_pair.mp htool with rfl | rfl
    · exact Or.inr ⟨by decide, by decide⟩
    · exact Or.inl ⟨by decide, by decide⟩

def nullResult : Json := .dict [(str "result", .null)]

def mappedTools : Json := listOf (.dict [(str "reset", named (str "admin_reset_key"))])

def namelessTool : Json := listOf (.list [named []])

/-- A null result is an exception, tools that are no list are relayed as they
are, and so is a tool with the empty name. -/
theorem not_filtered :
    ¬ Filtered (answering nullResult) (listAnswer nullResult) viewer nullResult (viewerList nullResult) ∧
      ¬ Filtered (answering mappedTools) (listAnswer mappedTools) viewer mappedTools (viewerList mappedTools) ∧
      ¬ Filtered (answering namelessTool) (listAnswer namelessTool) viewer namelessTool (viewerList namelessTool) := by
  have hnull : Distinct nullResult := distinct_singleton _ trivial
  have hmapped : Distinct mappedTools := distinct_listOf (distinct_singleton _ (distinct_named _))
  have hnameless : Distinct namelessTool := distinct_listOf ⟨distinct_named _, trivial⟩
  refine ⟨?_, ?_, ?_⟩
  · rw [viewerList, relay_list rfl (loadsBytes_answering hnull)]
    exact not_filtered_error .attributeError
  · rw [viewerList, relay_list rfl (loadsBytes_answering hmapped)]
    intro h
    have hwithholds := (filtered_raw_iff (loadsBytes_answering hmapped) fun tools h => by cases h).mp h
    rcases hwithholds with hadmin | hoffers
    · exact absurd hadmin (by decide)
    · exact absurd hoffers (by decide)
  · rw [viewerList, relay_list rfl (loadsBytes_answering hnameless)]
    intro h
    have hnames := ((filtered_tools_iff hnameless ⟨rfl, rfl, rfl⟩).mp h).1
    exact absurd (hnames (named []) List.mem_cons_self) (by decide)

end Filter

end LlmGateway.Gateway
