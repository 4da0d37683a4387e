import WarmCompile.Proofs.Client.Consistent

/-!
Calls that share a connection are never mixed up: whatever overtakes what, each one that ends is
returned the outcome of its own request.
-/

namespace WarmCompile

open Actor (called endingsOf)
open Multiplexer (requestOf idOf)

namespace Conversation

variable {κ ω : Type} {service : Service κ ω} {capacity : Nat} {w : ω}
  {keeper : List (Actor.Event ω)} {o : Outbound} {r : Response}

/-- What a call is returned whose message goes to the keeper under the letter's number: a ping its
own text, any other call the reply to its own message, or word that the keeper has stopped without
serving it. -/
inductive Returned (service : Service κ ω) (capacity : Nat) (w : ω)
    (keeper : List (Actor.Event ω)) (letter : Nat) : Call → Except CallError Reply → Prop where
  | pong (p : PingParams) : Returned service capacity w keeper letter (.ping p)
      (.ok (.ping ⟨p.message.getD "pong"⟩))
  | answer {params : Call} {message : Message} {before after : List (Turn ω)} {answer : Answer}
    (hm : params.message? = some message)
    (hturns : (Actor.spawn capacity w).turns service keeper =
      before ++ .handle ⟨letter, message⟩ :: after)
    (hreply : service.reply (service.state (none, w) before) (.handle ⟨letter, message⟩) =
      [(letter, .answered answer)])
    (hended : endingsOf letter ((Actor.spawn capacity w).run service keeper).2 =
      [.answered answer]) :
    Returned service capacity w keeper letter params (.ok answer.toReply)
  | gone {params : Call} {message : Message} (hm : params.message? = some message)
    (hcalled : ⟨letter, message⟩ ∈ called keeper)
    (hnot : ⟨letter, message⟩ ∉ lettersOf ((Actor.spawn capacity w).turns service keeper))
    (hstopped : ((Actor.spawn capacity w).run service keeper).1.isStopped = true)
    (hended : endingsOf letter ((Actor.spawn capacity w).run service keeper).2 = [.gone]) :
    Returned service capacity w keeper letter params (.error (.rpc (-32000) goneText))

theorem Returned.error_eq {letter : Nat} {params : Call} {e : CallError}
    (h : Returned service capacity w keeper letter params (.error e)) :
    e = .rpc (-32000) goneText := by
  cases h with
  | gone => rfl

/-- An answer is returned as it was meant: neither its text nor its kind gets lost. -/
theorem Answers.returned {letter : Nat} (h : Answers service capacity w keeper letter o r)
    (hnum : ((called keeper).map (·.call)).Nodup) :
    Returned service capacity w keeper letter o.params (r.extract o.params.method) := by
  cases h with
  | ping hm =>
    cases hparams : o.params with
    | ping p =>
      rw [Request.respond_ping none hparams]
      exact .pong p
    | _ =>
      rw [hparams] at hm
      cases hm
  | told hm hcalled hended =>
    rename_i message ending
    by_cases hserved : ⟨letter, message⟩ ∈ lettersOf ((Actor.spawn capacity w).turns service keeper)
    · obtain ⟨t, ht, hl⟩ := List.mem_filterMap.1 hserved
      cases t with
      | edit change => cases hl
      | handle l =>
        cases hl
        obtain ⟨before, after, hturns⟩ := List.append_of_mem ht
        obtain ⟨answer, hreply, hone⟩ := Actor.endingsOf_served hnum hturns
        have hanswered := Actor.mem_endingsOf.2 hended
        rw [hone, List.mem_singleton] at hanswered
        have hextract : Response.extract o.params.method ⟨idOf o.call, .ok answer.toReply⟩ =
            .ok answer.toReply := if_pos (Service.method_of_reply hm hreply)
        rw [hanswered, Request.respond_answered hm, requestOf, hextract]
        exact .answer hm hturns hreply hone
    · obtain ⟨rfl, hone, hstopped⟩ :=
        Actor.gone_of_ended hnum hcalled (Call.message_ne_disconnect hm) hserved hended
      rw [Request.respond_gone hm]
      exact .gone hm hcalled hserved hstopped hone

/-- No two calls share a number, a request or a letter, and each call that ends is returned the
outcome of its own request. -/
structure Routed (service : Service κ ω) (capacity : Nat) (w : ω) (events : List (Event ω))
    (keeper : List (Actor.Event ω)) (tasks : List Task) (s : Conversation κ ω) : Prop where
  kept : (Actor.spawn capacity w).run service keeper = (s.actor, s.ended)
  calls : ((called keeper).map (·.call)).Nodup
  letters : (tasks.map (·.call)).Nodup
  ids : (tasks.map (·.request.id)).Nodup
  numbers : ((Conversation.issued events).map (·.call)).Nodup
  once : (s.results.map (·.1)).Nodup
  returned : ∀ n result, (n, result) ∈ s.results → ∃ params letter,
    ⟨n, params⟩ ∈ Conversation.issued events ∧ ⟨letter, requestOf ⟨n, params⟩⟩ ∈ tasks ∧
    Returned service capacity w keeper letter params (result >>= Response.extract params.method)
  /-- Once nothing is under way, every call has a result. -/
  complete : s.Idle → (s.results.map (·.1)).Perm ((Conversation.issued events).map (·.call))
  /-- The one error that a call is ever returned. -/
  errors : ∀ n result params e, (n, result) ∈ s.results → ⟨n, params⟩ ∈ Conversation.issued events →
    result >>= Response.extract params.method = .error e → e = .rpc (-32000) goneText

/-- Whatever calls are made together, and however they, the tasks, the writer and the keeper get
ahead of one another, none of them is returned what is another's. -/
theorem routed_of_run (service : Service κ ω) (capacity : Nat) (w : ω) (events : List (Event ω)) :
    Routed service capacity w events ((opened capacity w).keeperEvents service events)
      ((opened capacity w).tasks service events) ((opened capacity w).run service events) := by
  obtain ⟨read, ⟨unread, returning, h, hc⟩, htasks⟩ := agrees_of_run service capacity w events
  have hreturned : ∀ n result, (n, result) ∈ ((opened capacity w).run service events).results →
      ∃ params letter, ⟨n, params⟩ ∈ Conversation.issued events ∧
      ⟨letter, requestOf ⟨n, params⟩⟩ ∈ (opened capacity w).tasks service events ∧
      Returned service capacity w ((opened capacity w).keeperEvents service events) letter params
        (result >>= Response.extract params.method) := by
    intro n result hresult
    obtain ⟨letter, ⟨call, params⟩, r, ho, rfl, rfl, hr⟩ := h.results _ hresult
    refine ⟨params, letter, h.sending.issued_of_read _ ho, ?_, hr.returned h.keeping.numbers⟩
    rw [htasks]
    exact List.mem_map_of_mem ho
  refine ⟨h.keeping.run, h.keeping.numbers, ?_, ?_, h.sending.numbers_nodup,
    h.sending.finished_nodup, hreturned, h.all_finished hc,
    fun n result params e hresult ho he => ?_⟩
  · rw [htasks, List.map_map]
    exact h.serving.letters
  · rw [htasks, List.map_map]
    exact h.sending.ids_nodup
  · obtain ⟨params', letter, ho', -, hreturned⟩ := hreturned n result hresult
    have hsame : (⟨n, params⟩ : Outbound) = ⟨n, params'⟩ :=
      List.inj_on_of_nodup_map h.sending.numbers_nodup ho ho' rfl
    cases hsame
    rw [he] at hreturned
    exact hreturned.error_eq

end Conversation

end WarmCompile
