import WarmCompile.Proofs.Client.Multiplexed
import WarmCompile.Proofs.Session.Outcome

/-!
The front's side of a conversation: each request that is read has a letter's number of its own,
under which its task puts its message to the keeper and learns how that call has ended.
-/

namespace WarmCompile

open Actor (Endings called endingsOf)
open Multiplexer (requestOf idOf)

theorem Call.message_ne_disconnect {params : Call} {message : Message}
    (h : params.message? = some message) : message ≠ .disconnect := by
  cases params with
  | ping p => cases h
  | _ => exact fun hd => Message.noConfusion ((Option.some.inj h).trans hd)

/-- A message is answered in its own kind. -/
theorem Service.method_of_reply {κ ω : Type} {service : Service κ ω} {s : Option (Session κ) × ω}
    {params : Call} {l : Letter} {answer : Answer} (h : params.message? = some l.message)
    (hreply : service.reply s (.handle l) = [(l.call, .answered answer)]) :
    answer.toReply.method = params.method := by
  have hanswer := (answer_of_reply hreply).2
  cases params with
  | ping p => cases h
  | init p =>
    have hm : l.message = .init p := (Option.some.inj h).symm
    simp only [hm, handle] at hanswer
    split at hanswer <;> (cases hanswer; rfl)
  | compile p =>
    have hm : l.message = .compile p.fileName := (Option.some.inj h).symm
    simp only [hm, handle] at hanswer
    split at hanswer <;> (cases hanswer; rfl)

namespace Request

variable (r : Request) (ending : Option Ending)

theorem respond_id : (r.respond ending).id = r.id := by
  unfold respond
  split <;> rfl

theorem respond_fits : (r.respond ending).Fits := by
  intro e he
  unfold respond at he
  split at he
  · cases he
  · cases he
  · cases he
    exact ⟨by decide, by decide⟩

variable {r} {message : Message}

theorem respond_answered (hm : r.call.message? = some message) (answer : Answer) :
    r.respond (some (.answered answer)) = ⟨r.id, .ok answer.toReply⟩ := by
  unfold respond
  cases hcall : r.call with
  | ping p =>
    rw [hcall] at hm
    cases hm
  | _ => rfl

theorem respond_gone (hm : r.call.message? = some message) :
    r.respond (some .gone) = .rpc r.id Response.sessionGone goneText := by
  unfold respond
  cases hcall : r.call with
  | ping p =>
    rw [hcall] at hm
    cases hm
  | _ => rfl

theorem respond_ping {p : PingParams} (hcall : r.call = .ping p) :
    r.respond ending = ⟨r.id, .ok (.ping ⟨p.message.getD "pong"⟩)⟩ := by
  simp only [respond, hcall, PingResult.replyTo]
  cases p.message <;> rfl

end Request

namespace Conversation

variable {κ ω : Type}

/-! ### Responses that are due -/

section

variable (service : Service κ ω) (capacity : Nat) (w : ω) (keeper : List (Actor.Event ω))

/-- What a request that was read under the letter's number can be answered: a ping at once, and any
other one as its call to the keeper has ended. -/
inductive Answers (letter : Nat) (o : Outbound) : Response → Prop where
  | ping (hm : o.params.message? = none) : Answers letter o ((requestOf o).respond none)
  | told {message : Message} {ending : Ending} (hm : o.params.message? = some message)
    (hcalled : ⟨letter, message⟩ ∈ called keeper)
    (hended : (letter, ending) ∈ ((Actor.spawn capacity w).run service keeper).2) :
    Answers letter o ((requestOf o).respond (some ending))

def Due (read : List (Nat × Outbound)) (r : Response) : Prop :=
  ∃ letter o, (letter, o) ∈ read ∧ Answers service capacity w keeper letter o r

end

variable {service : Service κ ω} {capacity : Nat} {w : ω} {keeper : List (Actor.Event ω)}
  {letter : Nat} {o : Outbound} {r : Response} {read : List (Nat × Outbound)}

namespace Answers

theorem id_eq (h : Answers service capacity w keeper letter o r) : r.id = idOf o.call := by
  cases h with
  | ping hm => exact Request.respond_id _ _
  | told hm hcalled hended => exact Request.respond_id _ _

theorem fits (h : Answers service capacity w keeper letter o r) : r.Fits := by
  cases h with
  | ping hm => exact Request.respond_fits _ _
  | told hm hcalled hended => exact Request.respond_fits _ _

theorem concat (h : Answers service capacity w keeper letter o r) (e : Actor.Event ω) :
    Answers service capacity w (keeper ++ [e]) letter o r := by
  cases h with
  | ping hm => exact .ping hm
  | told hm hcalled hended =>
    refine .told hm ?_ ?_
    · rw [called, List.filterMap_append]
      exact List.mem_append_left _ hcalled
    · rw [Actor.run_concat]
      exact List.mem_append_left _ hended

end Answers

namespace Due

theorem fits (h : Due service capacity w keeper read r) : r.Fits := by
  obtain ⟨letter, o, -, hr⟩ := h
  exact hr.fits

theorem concat (h : Due service capacity w keeper read r) (e : Actor.Event ω) :
    Due service capacity w (keeper ++ [e]) read r := by
  obtain ⟨letter, o, ho, hr⟩ := h
  exact ⟨letter, o, ho, hr.concat e⟩

theorem readLine (h : Due service capacity w keeper read r) (x : Nat × Outbound) :
    Due service capacity w keeper (read ++ [x]) r := by
  obtain ⟨letter, o, ho, hr⟩ := h
  exact ⟨letter, o, List.mem_append_left _ ho, hr⟩

end Due

/-! ### What is owed -/

/-- Each request that has been read is under way as a task or as a response, or its call has
ended. -/
def Owed (read : List (Nat × Outbound)) (tasks : List Task) (outbox returning : List Response)
    (finished : List Nat) : Prop :=
  (read.map fun x => idOf x.2.call).Perm (tasks.map (·.request.id) ++ outbox.map (·.id) ++
    returning.map (·.id) ++ finished.map idOf)

namespace Owed

variable {tasks : List Task} {outbox returning : List Response} {finished : List Nat} {call : Nat}

theorem line (h : Owed read tasks outbox returning finished) (letter : Nat) (o : Outbound) :
    Owed (read ++ [(letter, o)]) (tasks ++ [⟨letter, requestOf o⟩]) outbox returning finished := by
  refine List.perm_iff_count.2 fun id => ?_
  have hid := h.count_eq id
  simp only [List.map_append, List.count_append, List.map_cons, List.map_nil, requestOf]
    at hid ⊢
  omega

theorem done (h : Owed read tasks outbox returning finished) {p : Task → Bool} {t : Task}
    (ht : tasks.find? p = some t) (hr : r.id = t.request.id) :
    Owed read (tasks.eraseP p) (outbox ++ [r]) returning finished := by
  obtain ⟨hp, before, after, rfl, hbefore⟩ := List.find?_eq_some_iff_append.1 ht
  have hnot : ∀ t' ∈ before, ¬ p t' = true := by simpa using hbefore
  rw [List.eraseP_append_right _ hnot, List.eraseP_cons, hp, cond_true]
  refine List.perm_iff_count.2 fun id => ?_
  have hid := h.count_eq id
  simp only [List.map_append, List.count_append, List.map_cons, List.map_nil, List.count_cons, hr,
    List.count_nil] at hid ⊢
  omega

theorem write (h : Owed read tasks (r :: outbox) returning finished) :
    Owed read tasks outbox (returning ++ [r]) finished := by
  refine List.perm_iff_count.2 fun id => ?_
  have hid := h.count_eq id
  simp only [List.map_append, List.count_append, List.map_cons, List.map_nil, List.count_cons,
    List.count_nil] at hid ⊢
  omega

theorem result (h : Owed read tasks outbox (r :: returning) finished) (hr : r.id = idOf call) :
    Owed read tasks outbox returning (finished ++ [call]) := by
  refine List.perm_iff_count.2 fun id => ?_
  have hid := h.count_eq id
  simp only [List.map_append, List.count_append, List.map_cons, List.map_nil, List.count_cons, hr,
    List.count_nil] at hid ⊢
  omega

/-- A call has not ended whose response is on its way. -/
theorem not_finished (h : Owed read tasks outbox (r :: returning) finished)
    (hids : (read.map fun x => idOf x.2.call).Nodup) (hr : r.id = idOf call) :
    call ∉ finished := by
  intro hmem
  have hone := List.nodup_iff_count_le_one.1 (h.nodup_iff.1 hids) (idOf call)
  have hpos := List.count_pos_iff.2 (List.mem_map_of_mem (f := idOf) hmem)
  simp only [List.count_append, List.map_cons, List.count_cons, hr, beq_self_eq_true, if_true]
    at hone
  omega

end Owed

/-! ### Tasks -/

/-- The connection is open, the letters' numbers differ and are those of lines read so far, and each
task is there for a request that was read. -/
structure Serving (read : List (Nat × Outbound)) (calls : Nat) (c : Connection) : Prop where
  opened : c.ended = false
  heard : c.deaf = false
  whole : c.failed = false
  letters : (read.map (·.1)).Nodup
  below : ∀ x ∈ read, x.1 < calls
  tasks : ∀ t ∈ c.tasks, ∃ o, (t.call, o) ∈ read ∧ t.request = requestOf o

namespace Serving

variable {calls : Nat} {c : Connection}

theorem opened_empty : Serving [] 0 .opened :=
  ⟨rfl, rfl, rfl, .nil, nofun, nofun⟩

theorem fresh (h : Serving read calls c) : calls ∉ read.map (·.1) := by
  intro hm
  obtain ⟨x, hx, he⟩ := List.mem_map.1 hm
  exact absurd (h.below x hx) (he ▸ Nat.lt_irrefl _)

theorem eq_of_letter (h : Serving read calls c) {o' : Outbound} (ho : (letter, o) ∈ read)
    (ho' : (letter, o') ∈ read) : o = o' :=
  congrArg (·.2) (List.inj_on_of_nodup_map h.letters ho ho' rfl)

/-- A request's line begins a task. -/
theorem step_line (h : Serving read calls c) (o : Outbound) :
    c.step (.line calls (some o.line)) =
      { c with count := c.count + 1, tasks := c.tasks ++ [⟨calls, requestOf o⟩] } := by
  simp only [Connection.step, h.opened, Outbound.line, Request.ofLine_compact, Connection.read]
  rfl

theorem line (h : Serving read calls c) (o : Outbound) :
    Serving (read ++ [(calls, o)]) (calls + 1) (c.step (.line calls (some o.line))) := by
  rw [h.step_line]
  refine ⟨h.opened, h.heard, h.whole, ?_, fun x hx => ?_, fun t ht => ?_⟩
  · rw [List.map_append]
    exact h.letters.append (List.nodup_singleton _)
      (List.disjoint_singleton.2 h.fresh)
  · rcases List.mem_append.1 hx with hx | hx
    · exact Nat.lt_succ_of_lt (h.below x hx)
    · exact (List.mem_singleton.1 hx) ▸ Nat.lt_succ_self calls
  · rcases List.mem_append.1 ht with ht | ht
    · obtain ⟨o', ho', hrequest⟩ := h.tasks t ht
      exact ⟨o', List.mem_append_left _ ho', hrequest⟩
    · rw [List.mem_singleton.1 ht]
      exact ⟨o, List.mem_append_right _ List.mem_cons_self, rfl⟩

theorem calls_succ (h : Serving read calls c) : Serving read (calls + 1) c :=
  { h with below := fun x hx => Nat.lt_succ_of_lt (h.below x hx) }

/-- A task that is done leaves its response to be written. -/
theorem step_done (h : Serving read calls c) {t : Task} {ending : Option Ending}
    (ht : c.tasks.find? (·.call == t.call) = some t) :
    c.step (.done t.call ending) = { c with
      tasks := c.tasks.eraseP (·.call == t.call)
      outbox := c.outbox ++ [t.request.respond ending] } := by
  simp only [Connection.step, ht, Connection.post, h.whole]
  rfl

theorem done (h : Serving read calls c) {t : Task} {ending : Option Ending}
    (ht : c.tasks.find? (·.call == t.call) = some t) :
    Serving read calls (c.step (.done t.call ending)) := by
  rw [h.step_done ht]
  exact { h with tasks := fun t' ht' => h.tasks t' (List.mem_of_mem_eraseP ht') }

end Serving

/-! ### The keeper and those who call it -/

/-- What the keeper has been through: no two callers have the same number, be they of the connection
or from elsewhere, and a task's call is about its own request. -/
structure Keeping (service : Service κ ω) (capacity : Nat) (w : ω)
    (keeper : List (Actor.Event ω)) (read : List (Nat × Outbound)) (calls : Nat)
    (asked : List Nat) (actor : Actor κ ω) (ended : Endings) : Prop where
  run : (Actor.spawn capacity w).run service keeper = (actor, ended)
  numbers : ((called keeper).map (·.call)).Nodup
  below : ∀ l ∈ called keeper, l.call < calls
  own : ∀ l ∈ called keeper, ∀ o, (l.call, o) ∈ read →
    l.call ∈ asked ∧ o.params.message? = some l.message

namespace Keeping

variable {calls : Nat} {asked : List Nat} {actor : Actor κ ω} {ended : Endings}

theorem spawn : Keeping service capacity w [] [] 0 [] (.spawn capacity w) [] :=
  ⟨rfl, .nil, nofun, nofun⟩

theorem run_step (h : Keeping service capacity w keeper read calls asked actor ended)
    (e : Actor.Event ω) : (Actor.spawn capacity w).run service (keeper ++ [e]) =
      ((actor.step service e).1, ended ++ (actor.step service e).2) := by
  rw [Actor.run_concat, h.run]

/-- A call under a number that no call has had. -/
theorem call (h : Keeping service capacity w keeper read calls asked actor ended) {l : Letter}
    {calls' : Nat} {asked' : List Nat} (hcalls : calls ≤ calls') (hasked : asked ⊆ asked')
    (hfresh : l.call ∉ (called keeper).map (·.call)) (hbelow : l.call < calls')
    (hown : ∀ o, (l.call, o) ∈ read → l.call ∈ asked' ∧ o.params.message? = some l.message) :
    Keeping service capacity w (keeper ++ [.call l]) read calls' asked'
      (actor.step service (.call l)).1 (ended ++ (actor.step service (.call l)).2) := by
  have hcalled : called (keeper ++ [.call l]) = called keeper ++ [l] := List.filterMap_append
  refine ⟨h.run_step _, ?_, fun l' hl' => ?_, fun l' hl' o ho => ?_⟩
  · rw [hcalled, List.map_append]
    exact h.numbers.append (List.nodup_singleton _) (List.disjoint_singleton.2 hfresh)
  · rw [hcalled] at hl'
    rcases List.mem_append.1 hl' with hl' | hl'
    · exact Nat.lt_of_lt_of_le (h.below l' hl') hcalls
    · exact (List.mem_singleton.1 hl') ▸ hbelow
  · rw [hcalled] at hl'
    rcases List.mem_append.1 hl' with hl' | hl'
    · obtain ⟨hin, hm⟩ := h.own l' hl' o ho
      exact ⟨hasked hin, hm⟩
    · obtain rfl := List.mem_singleton.1 hl'
      exact hown o ho

theorem step (h : Keeping service capacity w keeper read calls asked actor ended)
    {e : Actor.Event ω} (he : called [e] = []) :
    Keeping service capacity w (keeper ++ [e]) read calls asked
      (actor.step service e).1 (ended ++ (actor.step service e).2) := by
  have hcalled : called (keeper ++ [e]) = called keeper :=
    List.filterMap_append.trans (by rw [← called, ← called, he, List.append_nil])
  exact ⟨h.run_step e, by rw [hcalled]; exact h.numbers, by rw [hcalled]; exact h.below,
    by rw [hcalled]; exact h.own⟩

/-- A line that is read has a number that no call has had. -/
theorem line (h : Keeping service capacity w keeper read calls asked actor ended) (o : Outbound) :
    Keeping service capacity w keeper (read ++ [(calls, o)]) (calls + 1) asked actor ended := by
  refine { h with
    below := fun l hl => Nat.lt_succ_of_lt (h.below l hl)
    own := fun l hl o' ho' => ?_ }
  rcases List.mem_append.1 ho' with ho' | ho'
  · exact h.own l hl o' ho'
  · have hcall : l.call = calls := congrArg (·.1) (List.mem_singleton.1 ho')
    exact absurd (h.below l hl) (hcall ▸ Nat.lt_irrefl _)

/-- The ending of a task's call is an answer to its own request. -/
theorem answers (h : Keeping service capacity w keeper read calls asked actor ended)
    (ho : (letter, o) ∈ read) {message : Message} (hm : o.params.message? = some message)
    {ending : Ending} (hended : (letter, ending) ∈ ended) :
    Answers service capacity w keeper letter o ((requestOf o).respond (some ending)) := by
  have hrun : (letter, ending) ∈ ((Actor.spawn capacity w).run service keeper).2 := by
    rwa [h.run]
  obtain ⟨l, hl, rfl⟩ := Actor.called_of_ended hrun
  obtain rfl : message = l.message := Option.some.inj (hm.symm.trans (h.own l hl o ho).2)
  exact .told hm hl hrun

end Keeping

end Conversation

end WarmCompile
