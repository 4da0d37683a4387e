import Mathlib.Data.List.Perm.Basic
import WarmCompile.Proofs.Client.Answered

/-!
What holds all along a conversation: both sides agree on which request has been read under which
letter's number, and every response on its way is due to one of them.
-/

namespace WarmCompile

open Actor (called)
open Multiplexer (requestOf idOf)

namespace Conversation

variable {κ ω : Type}

/-- The sides of a conversation agree on what has been read, and whatever is on its way back is due
to a request that was. -/
structure Consistent (service : Service κ ω) (capacity : Nat) (w : ω) (issued : List Outbound)
    (keeper : List (Actor.Event ω)) (read : List (Nat × Outbound)) (unread : List Outbound)
    (returning : List Response) (s : Conversation κ ω) : Prop where
  sending : Sending issued read unread s.client (s.results.map (·.1))
  serving : Serving read s.calls s.connection
  keeping : Keeping service capacity w keeper read s.calls s.asked s.actor s.ended
  owed : Owed read s.connection.tasks s.connection.outbox returning (s.results.map (·.1))
  outbox : ∀ r ∈ s.connection.outbox, Due service capacity w keeper read r
  returning : ∀ r ∈ returning, Due service capacity w keeper read r
  results : ∀ x ∈ s.results, ∃ letter o r, (letter, o) ∈ read ∧ o.call = x.1 ∧ x.2 = .ok r ∧
    Answers service capacity w keeper letter o r

/-- The bytes on their way are those of the requests that have not been read, and of the responses
that have not been delivered. -/
structure Carried (unread : List Outbound) (returning : List Response) (s : Conversation κ ω) :
    Prop where
  upward : s.inbound.begun ++ s.upward = (unread.map Outbound.line).flatMap Lines.frame
  downward : s.outbound.begun ++ s.downward = (returning.map Response.toLine).flatMap Lines.frame

variable {service : Service κ ω} {capacity : Nat} {w : ω} {issued unread : List Outbound}
  {keeper : List (Actor.Event ω)} {read : List (Nat × Outbound)} {returning : List Response}
  {s : Conversation κ ω} {o : Outbound} {r : Response}

theorem readLine_line (h : Serving read s.calls s.connection) (o : Outbound) :
    s.readLine (some o.line) = { s with
      connection := { s.connection with
        count := s.connection.count + 1
        tasks := s.connection.tasks ++ [⟨s.calls, requestOf o⟩] }
      calls := s.calls + 1 } := by
  rw [Conversation.readLine, serve, h.step_line]

theorem write_nil (houtbox : s.connection.outbox = []) : s.write = s := by
  simp [Conversation.write, serve, Connection.step, houtbox]

theorem write_cons {outbox : List Response} (hdeaf : s.connection.deaf = false)
    (houtbox : s.connection.outbox = r :: outbox) : s.write = { s with
      connection := { s.connection with outbox, sent := s.connection.sent ++ [r] }
      downward := s.downward ++ Lines.frame r.toLine } := by
  simp [Conversation.write, serve, Connection.step, houtbox, hdeaf]

theorem consistent_opened :
    Consistent service capacity w [] [] [] [] [] (opened capacity w : Conversation κ ω) :=
  ⟨sending_start, .opened_empty, .spawn, .refl _, nofun, nofun, nofun⟩

theorem carried_opened : Carried [] [] (opened capacity w : Conversation κ ω) :=
  ⟨rfl, rfl⟩

namespace Consistent

theorem issue (h : Consistent service capacity w issued keeper read unread returning s)
    (params : Call) : Consistent service capacity w (issued ++ [⟨issued.length + 1, params⟩]) keeper
      read unread returning (s.multiplex (.issue params)) := by
  rw [multiplex_issue params h.sending.ended]
  exact { h with sending := h.sending.issue params }

theorem overtake (h : Consistent service capacity w issued keeper read unread returning s)
    (n : Nat) :
    Consistent service capacity w issued keeper read unread returning (s.overtake n) := by
  refine { h with sending := h.sending.overtake ?_ }
  cases hn : s.client.queue[n]? with
  | none =>
    rw [List.eraseIdx_of_length_le (List.getElem?_eq_none_iff.1 hn)]
    exact .refl _
  | some o =>
    obtain ⟨hlt, rfl⟩ := List.getElem?_eq_some_iff.1 hn
    exact List.getElem_cons_eraseIdx_perm hlt

theorem register (h : Consistent service capacity w issued keeper read unread returning s)
    (hqueue : s.client.queue = o :: queue) : Consistent service capacity w issued keeper
      read (unread ++ [o]) returning (s.multiplex .register) := by
  rw [multiplex_register h.sending.ended h.sending.deaf hqueue]
  exact { h with sending := h.sending.register hqueue }

theorem readLine (h : Consistent service capacity w issued keeper read (o :: unread) returning s) :
    Consistent service capacity w issued keeper (read ++ [(s.calls, o)]) unread returning
      (s.readLine (some o.line)) where
  sending := h.sending.readLine s.calls
  serving := h.serving.line o
  keeping := h.keeping.line o
  owed := by
    rw [readLine_line h.serving]
    exact h.owed.line s.calls o
  outbox := by
    rw [readLine_line h.serving]
    exact fun r hr => (h.outbox r hr).readLine _
  returning := fun r hr => (h.returning r hr).readLine _
  results := fun x hx => by
    obtain ⟨letter, o', r, ho', hrest⟩ := h.results x hx
    exact ⟨letter, o', r, List.mem_append_left _ ho', hrest⟩

/-- The keeper takes a step. -/
theorem keep (h : Consistent service capacity w issued keeper read unread returning s)
    (e : Actor.Event ω) {calls : Nat} {asked : List Nat}
    (hserving : Serving read calls s.connection)
    (hkeeping : Keeping service capacity w (keeper ++ [e]) read calls asked
      (s.actor.step service e).1 (s.ended ++ (s.actor.step service e).2)) :
    Consistent service capacity w issued (keeper ++ [e]) read unread returning
      { s.keep service e with calls, asked } where
  sending := h.sending
  serving := hserving
  keeping := hkeeping
  owed := h.owed
  outbox := fun r hr => (h.outbox r hr).concat e
  returning := fun r hr => (h.returning r hr).concat e
  results := fun x hx => by
    obtain ⟨letter, o, r, ho, hcall, hx, hr⟩ := h.results x hx
    exact ⟨letter, o, r, ho, hcall, hx, hr.concat e⟩

theorem ask (h : Consistent service capacity w issued keeper read unread returning s)
    (call : Nat) : Consistent service capacity w issued (keeper ++ s.heard (.ask call)) read unread
      returning (s.ask service call) := by
  unfold Conversation.ask
  cases hl : s.letter? call with
  | none => simpa only [heard, hl, Option.toList_none, List.map_nil, List.append_nil] using h
  | some l =>
    simp only [heard, hl, Option.toList_some, List.map_cons, List.map_nil]
    unfold letter? at hl
    split at hl
    · cases hl
    rename_i t ht
    split at hl
    · cases hl
    rename_i hnot
    obtain ⟨message, hm, rfl⟩ := Option.map_eq_some_iff.1 hl
    obtain ⟨o, ho, hrequest⟩ := h.serving.tasks t (List.mem_of_find?_eq_some ht)
    have hcall : t.call = call := by simpa using List.find?_some ht
    rw [hcall] at ho
    rw [hrequest] at hm
    refine h.keep _ h.serving (h.keeping.call (Nat.le_refl _) (List.subset_cons_self _ _) ?_
      (h.serving.below _ ho) fun o' ho' => ?_)
    · intro hcalled
      obtain ⟨l, hmem, rfl⟩ := List.mem_map.1 hcalled
      exact hnot (h.keeping.own l hmem o ho).1
    · rw [h.serving.eq_of_letter ho' ho]
      exact ⟨List.mem_cons_self, hm⟩

theorem attend (h : Consistent service capacity w issued keeper read unread returning s)
    (e : Actor.Event ω) : Consistent service capacity w issued (keeper ++ s.heard (.keeper e)) read
      unread returning (s.attend service e) := by
  have hother : called [e] = [] → Consistent service capacity w issued (keeper ++ [e]) read unread
      returning (s.keep service e) := fun he => h.keep e h.serving (h.keeping.step he)
  cases e with
  | call l =>
    refine h.keep _ h.serving.calls_succ (h.keeping.call (Nat.le_succ _) (List.Subset.refl _) ?_
      (Nat.lt_succ_self _) fun o ho => ?_)
    · intro hcalled
      obtain ⟨l', hl', hcall⟩ := List.mem_map.1 hcalled
      exact absurd (h.keeping.below l' hl') (hcall ▸ Nat.lt_irrefl _)
    · exact absurd (List.mem_map_of_mem ho) h.serving.fresh
  | _ => exact hother rfl

/-- A task has its response from the ending of its own call. -/
theorem finish (h : Consistent service capacity w issued keeper read unread returning s)
    (call : Nat) :
    Consistent service capacity w issued keeper read unread returning (s.finish call) := by
  have hdone : ∀ {t : Task} {ending : Option Ending},
      s.connection.tasks.find? (·.call == t.call) = some t →
      Due service capacity w keeper read (t.request.respond ending) →
      Consistent service capacity w issued keeper read unread returning
        (s.serve (.done t.call ending)) := by
    intro t ending ht hdue
    have hserving : Serving read s.calls (s.connection.step (.done t.call ending)) :=
      h.serving.done ht
    have howed := h.owed.done ht (Request.respond_id t.request ending)
    rw [h.serving.step_done ht] at hserving
    rw [serve, h.serving.step_done ht]
    refine { h with serving := hserving, owed := howed, outbox := fun r hr => ?_ }
    rcases List.mem_append.1 hr with hr | hr
    · exact h.outbox r hr
    · exact (List.mem_singleton.1 hr) ▸ hdue
  unfold Conversation.finish
  split
  · exact h
  rename_i t ht
  obtain ⟨o, ho, hrequest⟩ := h.serving.tasks t (List.mem_of_find?_eq_some ht)
  have hcall : t.call = call := by simpa using List.find?_some ht
  subst hcall
  split
  · rename_i hm
    rw [hrequest] at hm
    exact hdone ht ⟨t.call, o, ho, hrequest ▸ .ping hm⟩
  · rename_i message ending hm hlookup
    rw [hrequest] at hm
    obtain ⟨before, after, hended, -⟩ := List.lookup_eq_some_iff.1 hlookup
    have hin : (t.call, ending) ∈ s.ended := hended ▸ List.mem_append_right _ List.mem_cons_self
    exact hdone ht ⟨t.call, o, ho, hrequest ▸ h.keeping.answers ho hm hin⟩
  · exact h

/-- A response that arrives goes to the call that bears its id, which is the one it is due to. -/
theorem line (h : Consistent service capacity w issued keeper read unread (r :: returning) s) :
    Consistent service capacity w issued keeper read unread returning
      (s.multiplex (.line (some r.toLine))) := by
  obtain ⟨letter, o, ho, hr⟩ := h.returning r List.mem_cons_self
  have hpending : o.call ∈ s.client.pending := by
    have hread : o.call ∈ (read.map (·.2) ++ unread).map (·.call) :=
      List.mem_map_of_mem (List.mem_append_left _ (List.mem_map_of_mem ho))
    exact (List.mem_append.1 (h.sending.pending.mem_iff.1 hread)).resolve_right
      (h.owed.not_finished h.sending.ids_nodup hr.id_eq)
  have hfind : s.client.pending.find? (idOf · == r.id) = some o.call := by
    cases hfind : s.client.pending.find? (idOf · == r.id) with
    | none =>
      have hnot := List.find?_eq_none.1 hfind o.call hpending
      exact absurd (beq_iff_eq.2 hr.id_eq.symm) hnot
    | some call =>
      have hid : idOf call = r.id := by simpa using List.find?_some hfind
      rw [Multiplexer.idOf_injective (hid.trans hr.id_eq)]
  rw [multiplex_line h.sending.ended hr.fits, hfind]
  refine { h with
    sending := ?_
    owed := ?_
    returning := fun r hr => h.returning r (List.mem_cons_of_mem _ hr)
    results := fun x hx => ?_ }
  · rw [List.map_append]
    exact h.sending.result hpending
  · rw [List.map_append]
    exact h.owed.result hr.id_eq
  · rcases List.mem_append.1 hx with hx | hx
    · exact h.results x hx
    · rw [List.mem_singleton.1 hx]
      exact ⟨letter, o, r, ho, rfl, rfl, hr⟩

end Consistent

/-! ### The bytes on their way -/

theorem Carried.register (hc : Carried unread returning s) {queue : List Outbound}
    (hended : s.client.ended = false) (hdeaf : s.client.deaf = false)
    (hqueue : s.client.queue = o :: queue) :
    Carried (unread ++ [o]) returning (s.multiplex .register) := by
  rw [multiplex_register hended hdeaf hqueue]
  refine { hc with upward := ?_ }
  rw [← List.append_assoc, hc.upward, List.map_append, List.flatMap_append]
  simp

theorem Carried.line (hc : Carried unread returning s) (hended : s.client.ended = false)
    (hr : r.Fits) : Carried unread returning (s.multiplex (.line (some r.toLine))) := by
  rw [multiplex_line hended hr]
  split
  · exact hc
  · exact ⟨hc.upward, hc.downward⟩

theorem Consistent.write (h : Consistent service capacity w issued keeper read unread returning s)
    (hc : Carried unread returning s) : ∃ returning',
      Consistent service capacity w issued keeper read unread returning' s.write ∧
      Carried unread returning' s.write := by
  cases houtbox : s.connection.outbox with
  | nil =>
    rw [write_nil houtbox]
    exact ⟨returning, h, hc⟩
  | cons r outbox =>
    have hall := h.outbox
    have howed := h.owed
    rw [houtbox] at hall howed
    rw [write_cons h.serving.heard houtbox]
    refine ⟨returning ++ [r], { h with
      serving := { h.serving with }
      owed := howed.write
      outbox := fun r hr => hall r (List.mem_cons_of_mem _ hr)
      returning := fun r' hr' => ?_ }, { hc with downward := ?_ }⟩
    · rcases List.mem_append.1 hr' with hr' | hr'
      · exact h.returning r' hr'
      · exact (List.mem_singleton.1 hr') ▸ hall r List.mem_cons_self
    · rw [← List.append_assoc, hc.downward, List.map_append, List.flatMap_append]
      simp

/-- The task of a request that was read. -/
def taskOf (x : Nat × Outbound) : Task := ⟨x.1, requestOf x.2⟩

/-- Whole lines are read one after the other, and each begins a task. -/
theorem Consistent.foldl_readLine {front : List Outbound} {s' : Conversation κ ω}
    (hs' : (front.map fun o => some o.line).foldl Conversation.readLine s = s')
    (h : Consistent service capacity w issued keeper read (front ++ unread) returning s)
    (hc : Carried unread returning s) : ∃ more,
      Consistent service capacity w issued keeper (read ++ more) unread returning s' ∧
      Carried unread returning s' ∧
      s'.connection.tasks = s.connection.tasks ++ more.map taskOf := by
  induction front generalizing read s with
  | nil =>
    subst hs'
    exact ⟨[], by rwa [List.append_nil], hc, (List.append_nil _).symm⟩
  | cons o front ih =>
    obtain ⟨more, hafter, hcafter, htasks⟩ := ih hs' h.readLine ⟨hc.upward, hc.downward⟩
    rw [List.append_assoc] at hafter
    refine ⟨_, hafter, hcafter, ?_⟩
    rw [htasks, readLine_line h.serving, List.append_assoc, List.map_append]
    rfl

theorem Consistent.receive
    (h : Consistent service capacity w issued keeper read unread returning s)
    (hc : Carried unread returning s) (n : Nat) : ∃ more unread',
      Consistent service capacity w issued keeper (read ++ more) unread' returning (s.receive n) ∧
      Carried unread' returning (s.receive n) ∧ s.begun (.up n : Event ω) = more.map taskOf := by
  obtain ⟨front, unread, rfl, hfed, hkept⟩ :=
    Lines.feed_texts (fun o _ => o.unbroken) hc.upward n
  have hreceive : (front.map fun o => some o.line).foldl Conversation.readLine
      { s with upward := s.upward.drop n, inbound := (s.inbound.feed (s.upward.take n)).2 } =
      s.receive n := by
    change _ = (s.inbound.feed (s.upward.take n)).1.foldl Conversation.readLine _
    rw [hfed]
    rfl
  obtain ⟨more, hafter, hcafter, htasks⟩ :=
    Consistent.foldl_readLine hreceive { h with } ⟨hkept, hc.downward⟩
  refine ⟨more, unread, hafter, hcafter, ?_⟩
  rw [begun, htasks, List.drop_left]

/-- Whole lines are delivered one after the other. -/
theorem Consistent.foldl_line {front : List Response} {s' : Conversation κ ω}
    (hs' : (front.map fun r => some r.toLine).foldl (fun s line => s.multiplex (.line line)) s = s')
    (h : Consistent service capacity w issued keeper read unread (front ++ returning) s)
    (hc : Carried unread returning s) :
      Consistent service capacity w issued keeper read unread returning s' ∧
      Carried unread returning s' := by
  induction front generalizing s with
  | nil =>
    subst hs'
    exact ⟨h, hc⟩
  | cons r front ih =>
    obtain ⟨letter, o, -, hr⟩ := h.returning r List.mem_cons_self
    exact ih hs' h.line (hc.line h.sending.ended hr.fits)

theorem Consistent.deliver
    (h : Consistent service capacity w issued keeper read unread returning s)
    (hc : Carried unread returning s) (n : Nat) : ∃ returning',
      Consistent service capacity w issued keeper read unread returning' (s.deliver n) ∧
      Carried unread returning' (s.deliver n) := by
  obtain ⟨front, returning, rfl, hfed, hkept⟩ :=
    Lines.feed_texts (fun r hr => (h.returning r hr).fits.unbroken) hc.downward n
  have hdeliver : (front.map fun r => some r.toLine).foldl
      (fun s line => s.multiplex (.line line))
      { s with
        downward := s.downward.drop n
        outbound := (s.outbound.feed (s.downward.take n)).2 } = s.deliver n := by
    change _ = (s.outbound.feed (s.downward.take n)).1.foldl _ _
    rw [hfed]
    rfl
  exact ⟨returning, Consistent.foldl_line hdeliver { h with } ⟨hc.upward, hkept⟩⟩

/-! ### Nothing under way -/

/-- Nothing is under way: all that was issued has gone out, been read and been answered. -/
structure Idle (s : Conversation κ ω) : Prop where
  queue : s.client.queue = []
  upward : s.inbound.begun ++ s.upward = []
  tasks : s.connection.tasks = []
  outbox : s.connection.outbox = []
  downward : s.outbound.begun ++ s.downward = []

/-- Then no call is still without a result. -/
theorem Consistent.all_finished
    (h : Consistent service capacity w issued keeper read unread returning s)
    (hc : Carried unread returning s) (hidle : s.Idle) :
    (s.results.map (·.1)).Perm (issued.map (·.call)) := by
  obtain rfl := Lines.frames_eq_nil (hc.upward.symm.trans hidle.upward)
  obtain rfl := Lines.frames_eq_nil (hc.downward.symm.trans hidle.downward)
  have hread : (read.map (·.2.call)).Perm (s.results.map (·.1)) := by
    refine (List.map_perm_map_iff fun _ _ => Multiplexer.idOf_injective).1 ?_
    have howed := h.owed
    rw [Owed, hidle.tasks, hidle.outbox] at howed
    rwa [List.map_map]
  have hplaced := h.sending.placed
  rw [hidle.queue, List.append_nil, List.append_nil] at hplaced
  have hissued := hplaced.map (·.call)
  rw [List.map_map] at hissued
  exact hread.symm.trans hissued.symm

/-! ### Runs -/

theorem Carried.ask (hc : Carried unread returning s) (service : Service κ ω) (call : Nat) :
    Carried unread returning (s.ask service call) := by
  unfold Conversation.ask
  split
  · exact hc
  · exact ⟨hc.upward, hc.downward⟩

theorem Carried.finish (hc : Carried unread returning s) (call : Nat) :
    Carried unread returning (s.finish call) := by
  unfold Conversation.finish
  split
  · exact hc
  split
  · exact ⟨hc.upward, hc.downward⟩
  · exact ⟨hc.upward, hc.downward⟩
  · exact hc

theorem issued_issue (events : List (Event ω)) (params : Call) :
    Conversation.issued (events ++ [.issue params]) =
      Conversation.issued events ++ [⟨(Conversation.issued events).length + 1, params⟩] := by
  simp [Conversation.issued, issuing, List.mapIdx_append]

theorem issued_other (events : List (Event ω)) {e : Event ω} (he : issuing e = []) :
    Conversation.issued (events ++ [e]) = Conversation.issued events := by
  simp only [Conversation.issued, List.flatMap_append, List.flatMap_singleton, he, List.append_nil]

/-- The sides agree after the events: the keeper has been through its own, and this is what has been
read. -/
def Agrees (service : Service κ ω) (capacity : Nat) (w : ω) (events : List (Event ω))
    (keeper : List (Actor.Event ω)) (read : List (Nat × Outbound)) (s : Conversation κ ω) : Prop :=
  ∃ unread returning,
    Consistent service capacity w (Conversation.issued events) keeper read unread returning s ∧
    Carried unread returning s

variable {events : List (Event ω)} {e : Event ω}

/-- Most events neither issue a call nor begin a task, and the keeper does not hear of them. -/
theorem Agrees.quiet (h : Agrees service capacity w events keeper read (s.step service e))
    (hissue : issuing e = []) (hheard : s.heard e = []) (hbegun : s.begun e = []) :
    ∃ more, Agrees service capacity w (events ++ [e]) (keeper ++ s.heard e) (read ++ more)
      (s.step service e) ∧ s.begun e = more.map taskOf := by
  refine ⟨[], ?_, hbegun⟩
  rwa [Agrees, issued_other events hissue, hheard, List.append_nil, List.append_nil]

theorem Agrees.step (h : Agrees service capacity w events keeper read s) (e : Event ω) :
    ∃ more, Agrees service capacity w (events ++ [e]) (keeper ++ s.heard e) (read ++ more)
      (s.step service e) ∧ s.begun e = more.map taskOf := by
  obtain ⟨unread, returning, h, hc⟩ := h
  cases e with
  | issue params =>
    refine ⟨[], ⟨unread, returning, ?_, ?_⟩, rfl⟩
    · have hheard : s.heard (.issue params : Event ω) = [] := rfl
      rw [issued_issue, hheard, List.append_nil, List.append_nil]
      exact h.issue params
    · rw [Conversation.step, multiplex_issue params h.sending.ended]
      exact ⟨hc.upward, hc.downward⟩
  | overtake n =>
    exact Agrees.quiet ⟨unread, returning, h.overtake n, hc.upward, hc.downward⟩ rfl rfl rfl
  | register =>
    refine Agrees.quiet ?_ rfl rfl rfl
    cases hqueue : s.client.queue with
    | nil =>
      rw [Conversation.step, multiplex_register_nil h.sending.ended hqueue]
      exact ⟨unread, returning, h, hc⟩
    | cons o queue =>
      exact ⟨unread ++ [o], returning, h.register hqueue,
        hc.register h.sending.ended h.sending.deaf hqueue⟩
  | up n =>
    obtain ⟨more, unread', hafter, hcafter, hbegun⟩ := h.receive hc n
    refine ⟨more, ⟨unread', returning, ?_, hcafter⟩, hbegun⟩
    have hheard : s.heard (.up n : Event ω) = [] := rfl
    rw [issued_other events rfl, hheard, List.append_nil]
    exact hafter
  | ask call =>
    refine ⟨[], ⟨unread, returning, ?_, hc.ask service call⟩, rfl⟩
    rw [issued_other events rfl, List.append_nil]
    exact h.ask call
  | keeper e =>
    refine ⟨[], ⟨unread, returning, ?_, ?_⟩, rfl⟩
    · rw [issued_other events rfl, List.append_nil]
      exact h.attend e
    · cases e <;> exact ⟨hc.upward, hc.downward⟩
  | done call => exact Agrees.quiet ⟨unread, returning, h.finish call, hc.finish call⟩ rfl rfl rfl
  | write =>
    obtain ⟨returning', hafter⟩ := h.write hc
    exact Agrees.quiet ⟨unread, returning', hafter⟩ rfl rfl rfl
  | down n =>
    obtain ⟨returning', hafter⟩ := h.deliver hc n
    exact Agrees.quiet ⟨unread, returning', hafter⟩ rfl rfl rfl

theorem agrees_of_run (service : Service κ ω) (capacity : Nat) (w : ω) (events : List (Event ω)) :
    ∃ read, Agrees service capacity w events ((opened capacity w).keeperEvents service events) read
        ((opened capacity w).run service events) ∧
      (opened capacity w).tasks service events = read.map taskOf := by
  induction events using List.reverseRecOn with
  | nil => exact ⟨[], ⟨[], [], consistent_opened, carried_opened⟩, rfl⟩
  | append_singleton events e ih =>
    obtain ⟨read, h, htasks⟩ := ih
    obtain ⟨more, hafter, hbegun⟩ := h.step e
    rw [run_concat, keeperEvents, notes_concat]
    refine ⟨read ++ more, hafter, ?_⟩
    rw [tasks, notes_concat, ← tasks, htasks, hbegun, List.map_append]

end Conversation

end WarmCompile
