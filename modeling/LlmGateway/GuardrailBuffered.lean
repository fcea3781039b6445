import LlmGateway.GatewayTools
import LlmGateway.GuardrailRewrite
import LlmGateway.JsonReread
import LlmGateway.RouterApp

namespace LlmGateway.Guardrail

open Sse Redactor Utf8
open Gateway (Exchanged exchanged_set)
open Json (Members Decoder)
open Response (Renderable)
open Router (RequestId)

variable {U : Unicode} {json : Decoder} {requestId : RequestId} {payload choice : Members} {items : List Json} {v w : Json}
  {content : Bytes} {status : Int}

section Masked

variable (U) in
/-- A choice and what is made of it: the content of its message is redacted,
if it is a string, and nothing else changes. -/
inductive MaskedChoice : Json → Json → Prop
  | kept {choice : Members} (h : choiceContent choice = none) : MaskedChoice (.dict choice) (.dict choice)
  | masked {choice choice' message message' : Members} {text : Text} (hm : choice.get? (str "message") = some (.dict message))
      (hc : message.get? (str "content") = some (.str text)) (outer : Exchanged choice (str "message") (.dict message') choice')
      (inner : Exchanged message (str "content") (.str (redact U text)) message') : MaskedChoice (.dict choice) (.dict choice')

variable (U) in
/-- A payload and what is made of it: every choice is masked. -/
inductive Masked : Members → Members → Prop
  | kept {payload : Members} (h : ∀ items, payload.get? (str "choices") ≠ some (.list items)) : Masked payload payload
  | masked {payload payload' : Members} {items items' : List Json} (hc : payload.get? (str "choices") = some (.list items))
      (outer : Exchanged payload (str "choices") (.list items') payload') (h : List.Forall₂ (MaskedChoice U) items items') :
      Masked payload payload'

/-- The loop over the choices gets through. -/
def Loops (payload : Members) : Prop :=
  ∀ choices, payload.get? (str "choices") = some choices →
    elements choices = some [] ∨ ∃ items, choices = .list items ∧ ∀ v ∈ items, ∃ choice, v = .dict choice

theorem redactChoice_kept (h : choiceContent choice = none) : redactChoice U (.dict choice) = .ok (.dict choice) := by
  rw [choiceContent] at h
  rw [redactChoice]
  split
  · next message hm =>
      simp only [hm] at h
      split
      · next text hc =>
          simp only [hc] at h
          cases h
      · rfl
  · rfl

theorem maskedChoice_of_ok (h : redactChoice U v = .ok w) : MaskedChoice U v w := by
  cases v with
  | dict choice =>
      cases hcontent : choiceContent choice with
      | none =>
          rw [redactChoice_kept hcontent] at h
          cases h
          exact .kept hcontent
      | some text =>
          obtain ⟨message, hm, hc⟩ := choiceContent_eq_some hcontent
          simp only [redactChoice, hm, hc] at h
          cases h
          exact .masked hm hc (exchanged_set _ hm) (exchanged_set _ hc)
  | null | bool _ | int _ | float _ | str _ | list _ => cases h

theorem mapM_forall₂ {α β ε : Type} {f : α → Except ε β} {as : List α} {bs : List β} (h : as.mapM f = .ok bs) :
    List.Forall₂ (fun a b => f a = .ok b) as bs := by
  obtain ⟨bs', hbs', hall⟩ := mapM_ok (mapM_eq_ok_iff.mp ⟨bs, h⟩)
  rw [h] at hbs'
  cases hbs'
  exact hall

theorem redactPayload_list (hc : payload.get? (str "choices") = some (.list items)) (h : redactPayload U (.dict payload) = .ok v) :
    ∃ items', v = .dict (payload.set (str "choices") (.list items')) ∧
      List.Forall₂ (fun v w => redactChoice U v = .ok w) items items' := by
  simp only [redactPayload, hc] at h
  split at h
  · cases h
  · next items' hitems =>
      cases h
      exact ⟨items', rfl, mapM_forall₂ hitems⟩

theorem redactPayload_kept (hc : ∀ items, payload.get? (str "choices") ≠ some (.list items))
    (h : redactPayload U (.dict payload) = .ok v) : v = .dict payload := by
  rw [redactPayload] at h
  split at h
  · exact (Except.ok.inj h).symm
  · next items hitems => exact absurd hitems (hc items)
  · split at h
    · cases h
    · exact (Except.ok.inj h).symm
    · cases h

theorem masked_of_ok (h : redactPayload U (.dict payload) = .ok v) : ∃ payload', v = .dict payload' ∧ Masked U payload payload' := by
  by_cases hc : ∃ items, payload.get? (str "choices") = some (.list items)
  · obtain ⟨items, hc⟩ := hc
    obtain ⟨items', rfl, hall⟩ := redactPayload_list hc h
    exact ⟨_, rfl, .masked hc (exchanged_set _ hc) (hall.imp fun _ _ => maskedChoice_of_ok)⟩
  · have hkept := not_exists.mp hc
    exact ⟨payload, redactPayload_kept hkept h, .kept hkept⟩

theorem redactChoice_ok_iff : (∃ w, redactChoice U v = .ok w) ↔ ∃ choice, v = .dict choice := by
  constructor
  · rintro ⟨w, h⟩
    cases maskedChoice_of_ok h with
    | kept h => exact ⟨_, rfl⟩
    | masked hm hc outer inner => exact ⟨_, rfl⟩
  · rintro ⟨choice, rfl⟩
    obtain ⟨choice', h⟩ := @redactChoice_dict U choice
    exact ⟨_, h⟩

theorem loops_list (hc : payload.get? (str "choices") = some (.list items)) :
    Loops payload ↔ ∀ v ∈ items, ∃ choice, v = .dict choice := by
  constructor
  · intro h
    rcases h _ hc with hempty | ⟨items', heq, hitems⟩
    · cases hempty
      exact fun v hv => absurd hv List.not_mem_nil
    · cases heq
      exact hitems
  · intro h choices hchoices
    rw [hc] at hchoices
    cases hchoices
    exact Or.inr ⟨items, rfl, h⟩

/-- The loop gets through if there is nothing to loop over, or objects only. -/
theorem redactPayload_ok_iff : (∃ v, redactPayload U (.dict payload) = .ok v) ↔ Loops payload := by
  cases hc : payload.get? (str "choices") with
  | none => simp [redactPayload, Loops, hc]
  | some choices =>
      cases choices with
      | list items =>
          have hloop : (∃ ws, items.mapM (redactChoice U) = .ok ws) ↔ ∀ v ∈ items, ∃ choice, v = .dict choice := by
            rw [mapM_eq_ok_iff]
            exact forall₂_congr fun v _ => redactChoice_ok_iff
          rw [loops_list hc, ← hloop]
          cases hws : items.mapM (redactChoice U) <;> simp [redactPayload, hc, hws]
      | null | bool _ | int _ | float _ => simp [redactPayload, Loops, hc, elements]
      | str s => cases s <;> simp [redactPayload, Loops, hc, elements]
      | dict ms => cases ms <;> simp [redactPayload, Loops, hc, elements]

end Masked

section Rendering

variable {okFloat : FloatRepr → Bool} {okText : Text → Bool} {ms : Members} {key : Text} {old : Json}

theorem everyMember_set_eq (hget : ms.get? key = some old) (hsame : v.every okFloat okText = old.every okFloat okText) :
    Json.everyMember okFloat okText (ms.set key v) = Json.everyMember okFloat okText ms := by
  induction ms with
  | nil => cases hget
  | cons m ms ih =>
      obtain ⟨k, value⟩ := m
      rw [Members.set]
      by_cases hk : k = key
      · subst hk
        have hold : value = old := by
          rw [Json.get?_cons_self] at hget
          exact Option.some.inj hget
        rw [if_pos rfl, Json.everyMember, Json.everyMember, hsame, hold]
      · rw [Json.get?_cons_of_ne hk] at hget
        rw [if_neg hk, Json.everyMember, Json.everyMember, ih hget]

variable (hT : ∀ s, okText (redact U s) = okText s)
include hT

theorem every_redactChoice_eq (h : redactChoice U v = .ok w) : w.every okFloat okText = v.every okFloat okText := by
  cases v with
  | dict choice =>
      cases hcontent : choiceContent choice with
      | none =>
          rw [redactChoice_kept hcontent] at h
          cases h
          rfl
      | some text =>
          obtain ⟨message, hm, hc⟩ := choiceContent_eq_some hcontent
          simp only [redactChoice, hm, hc] at h
          cases h
          rw [Json.every, Json.every]
          refine everyMember_set_eq hm ?_
          rw [Json.every, Json.every]
          refine everyMember_set_eq hc ?_
          rw [Json.every, Json.every, hT]
  | null | bool _ | int _ | float _ | str _ | list _ => cases h

theorem every_choices_eq {vs ws : List Json} (h : List.Forall₂ (fun v w => redactChoice U v = .ok w) vs ws) :
    (Json.list ws).every okFloat okText = (Json.list vs).every okFloat okText := by
  rw [Json.every, Json.every]
  induction h with
  | nil => rfl
  | cons hr _ ih => rw [Json.everyItem, Json.everyItem, every_redactChoice_eq hT hr, ih]

theorem every_redactPayload_eq (h : redactPayload U (.dict payload) = .ok v) :
    v.every okFloat okText = (Json.dict payload).every okFloat okText := by
  by_cases hc : ∃ items, payload.get? (str "choices") = some (.list items)
  · obtain ⟨items, hc⟩ := hc
    obtain ⟨items', rfl, hall⟩ := redactPayload_list hc h
    rw [Json.every, Json.every]
    exact everyMember_set_eq hc (every_choices_eq hT hall)
  · rw [redactPayload_kept (not_exists.mp hc) h]

end Rendering

section Answers

theorem renderable_redactPayload (h : redactPayload U (.dict payload) = .ok v) : Renderable v ↔ Renderable (.dict payload) := by
  rw [Renderable, Renderable, every_redactPayload_eq (fun _ => rfl) h, every_redactPayload_eq scalar_redact h]

variable (json) in
/-- A reply that the buffered path has an answer to. -/
def Answerable (reply : Reply Bytes) : Prop :=
  match reply with
  | .failed => True
  | .response status content =>
    400 ≤ status ∨ ∃ payload, json.loadsBytes content = .ok (.dict payload) ∧ Loops payload ∧ Renderable (.dict payload)

theorem unavailable_eq : unavailable requestId.text = .ok (Router.envelope .upstreamUnavailable requestId none) :=
  Response.ofJson_eq_ok.mpr ⟨Router.renderable_toResponse .upstreamUnavailable requestId none, rfl⟩

/-- The answer to a payload that can be read, looped over and rendered: it is
masked, in all its choices, and nothing else of it changes. -/
theorem proxyBuffered_masks (U : Unicode) (json : Decoder) (requestId : Text) (hstatus : status < 400)
    (hload : json.loadsBytes content = .ok (.dict payload)) (hloops : Loops payload) (hrender : Renderable (.dict payload)) :
    ∃ payload', proxyBuffered U json requestId (.response status content) = .ok ⟨200, [], .json (.dict payload')⟩ ∧
      Masked U payload payload' := by
  obtain ⟨v, hv⟩ := @redactPayload_ok_iff U payload |>.mpr hloops
  obtain ⟨payload', rfl, hmasked⟩ := masked_of_ok hv
  refine ⟨payload', ?_, hmasked⟩
  rw [proxyBuffered, if_neg (not_le.mpr hstatus), hload]
  dsimp only
  rw [hv]
  exact Response.ofJson_eq_ok.mpr ⟨(renderable_redactPayload hv).mpr hrender, rfl⟩

/-- The bytes of a value, as JSONResponse writes it. -/
def written (v : Json) : Bytes := asciiBytes (Json.dumps Json.compactSeparators v)

theorem loadsBytes_written {reader : Json.Reader} (hknows : reader.Knows v) (hreread : Json.reread v = v) :
    reader.decoder.loadsBytes (written v) = .ok v := by
  have hread := Json.Reader.loadsBytes_dumps Json.spaced_compact Json.printed_compact hknows
    (Json.encode_printed (Json.printed_dumps Json.printed_compact v))
  rwa [hreread] at hread

/-- Two choices, of which the second has an address in its message. -/
def twoChoices : Members :=
  [(str "choices", .list [.dict [(str "index", .int 0)],
    .dict [(str "message", .dict [(str "content", .str (str "to jo@ex.org"))])]])]

theorem proxyBuffered_masks_two : ∃ payload', proxyBuffered .ascii Json.Reader.integers.decoder (str "a1")
    (.response 200 (written (.dict twoChoices))) = .ok ⟨200, [], .json (.dict payload')⟩ ∧ Masked .ascii twoChoices payload' := by
  have hloops : Loops twoChoices := by
    intro choices h
    cases h
    refine Or.inr ⟨_, rfl, ?_⟩
    simp
  exact proxyBuffered_masks .ascii Json.Reader.integers.decoder (str "a1") (by decide) (loadsBytes_written rfl rfl) hloops ⟨rfl, rfl⟩

theorem proxyBuffered_ok_iff (reply : Reply Bytes) :
    (∃ response, proxyBuffered U json requestId.text reply = .ok response) ↔ Answerable json reply := by
  cases reply with
  | failed => exact iff_of_true ⟨_, unavailable_eq⟩ trivial
  | response status content =>
      rw [proxyBuffered, Answerable]
      by_cases hstatus : 400 ≤ status
      · rw [if_pos hstatus]
        exact iff_of_true ⟨_, unavailable_eq⟩ (Or.inl hstatus)
      rw [if_neg hstatus, or_iff_right hstatus]
      cases hload : json.loadsBytes content with
      | error e => simp
      | ok v =>
          cases v with
          | dict payload =>
              constructor
              · rintro ⟨response, h⟩
                refine ⟨payload, rfl, ?_⟩
                cases hv : redactPayload U (.dict payload) with
                | error e =>
                    simp only [hv] at h
                    cases h
                | ok v =>
                    simp only [hv] at h
                    exact ⟨redactPayload_ok_iff.mp ⟨v, hv⟩, (renderable_redactPayload hv).mp (Response.ofJson_eq_ok.mp h).1⟩
              · rintro ⟨payload', heq, hloops, hrender⟩
                cases heq
                obtain ⟨v, hv⟩ := @redactPayload_ok_iff U payload |>.mpr hloops
                refine ⟨⟨200, [], .json v⟩, ?_⟩
                simp only [hv]
                exact Response.ofJson_eq_ok.mpr ⟨(renderable_redactPayload hv).mpr hrender, rfl⟩
          | null | bool _ | int _ | float _ | str _ | list _ => simp [redactPayload]

end Answers

end LlmGateway.Guardrail
