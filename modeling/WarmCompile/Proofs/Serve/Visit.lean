import WarmCompile.Proofs.Client.Consistent
import WarmCompile.Proofs.Notes
import WarmCompile.Proofs.Serve.Matched
import WarmCompile.Proofs.Wire.Stream

/-!
A front and whoever connects to it. The peer sends lines as it likes, may stop reading and may hang
up; the tasks of the connection, its writer, the keeper and callers from elsewhere go on beside it.
Of the state of a conversation, the client has no part in this.
-/

namespace WarmCompile.Conversation

variable {κ ω : Type}

/-- What can happen, in any order. -/
inductive Visit (ω : Type) where
  /-- A line is read, if it is text. -/
  | line (text : Option String)
  /-- The input ends. -/
  | close
  /-- The peer stops reading. -/
  | hangUp
  | ask (call : Nat)
  /-- The keeper and its callers go on; a call here is one from elsewhere. -/
  | keeper (e : Actor.Event ω)
  | done (call : Nat)
  | write

namespace Visit

/-- Nothing is read after the event. -/
def ends : Visit ω → Bool
  | .line none | .close => true
  | _ => false

def line? : Visit ω → Option String
  | .line text => text
  | _ => none

/-- The lines that come in before the input ends, blank ones left out. -/
def lines (events : List (Visit ω)) : List String :=
  ((events.takeWhile (!·.ends)).filterMap line?).filter fun line => !(Text.trimmed line).isEmpty

end Visit

/-- As long as the input goes on, a task waits for the end of its call. -/
def visit (service : Service κ ω) (s : Conversation κ ω) : Visit ω → Conversation κ ω
  | .line text => s.readLine text
  | .close => s.serve .close
  | .hangUp => s.serve .hangUp
  | .ask call => s.ask service call
  | .keeper (.leave call) =>
    if call ∈ s.asked ∧ s.connection.ended = false then s else s.keep service (.leave call)
  | .keeper e => s.attend service e
  | .done call => s.finish call
  | .write => s.write

/-- The keeper's part of a step; no task whose call may still end takes it back. -/
theorem visit_keeper (service : Service κ ω) (s : Conversation κ ω) (e : Actor.Event ω) :
    s.visit service (.keeper e) = s ∨ ∃ e' calls, s.calls ≤ calls ∧
      s.visit service (.keeper e) = { s.keep service e' with calls } ∧
      ∀ call ∈ s.asked, call ∈ Actor.left [e'] → s.connection.ended = true := by
  cases e with
  | call l =>
    exact .inr ⟨.call ⟨s.calls, l.message⟩, s.calls + 1, Nat.le_succ _, rfl, fun _ _ => nofun⟩
  | leave call =>
    by_cases hwaits : call ∈ s.asked ∧ s.connection.ended = false
    · exact .inl (if_pos hwaits)
    · refine .inr ⟨.leave call, s.calls, Nat.le_refl _, if_neg hwaits, fun call' hasked hleft => ?_⟩
      obtain rfl := List.mem_singleton.1 hleft
      exact Bool.of_not_eq_false fun hopen => hwaits ⟨hasked, hopen⟩
  | enter call => exact .inr ⟨.enter call, s.calls, Nat.le_refl _, rfl, fun _ _ => nofun⟩
  | take => exact .inr ⟨.take, s.calls, Nat.le_refl _, rfl, fun _ _ => nofun⟩
  | finish => exact .inr ⟨.finish, s.calls, Nat.le_refl _, rfl, fun _ _ => nofun⟩
  | cancel => exact .inr ⟨.cancel, s.calls, Nat.le_refl _, rfl, fun _ _ => nofun⟩
  | desert => exact .inr ⟨.desert, s.calls, Nat.le_refl _, rfl, fun _ _ => nofun⟩
  | edit change => exact .inr ⟨.edit change, s.calls, Nat.le_refl _, rfl, fun _ _ => nofun⟩

def visitAll (service : Service κ ω) (s : Conversation κ ω) (events : List (Visit ω)) :
    Conversation κ ω :=
  events.foldl (visit service) s

theorem visitAll_concat (service : Service κ ω) (s : Conversation κ ω) (events : List (Visit ω))
    (e : Visit ω) :
    s.visitAll service (events ++ [e]) = (s.visitAll service events).visit service e := by
  simp only [visitAll, List.foldl_append, List.foldl_cons, List.foldl_nil]

variable {service : Service κ ω} {s s' : Conversation κ ω} {events : List (Visit ω)} {e : Visit ω}
  {read lost : List Inquiry} {replies : List (Inquiry × Response)}
  {begun : List (Inquiry × Task)} {c c' : Connection} {call : Nat}

/-! ### What is heard -/

namespace Visit

/-- The line that comes in with an event, unless it is blank. -/
def inquiring (e : Visit ω) : List String :=
  e.line?.toList.filter fun line => !(Text.trimmed line).isEmpty

theorem inquiring_of_ends (h : e.ends = true) : e.inquiring = [] := by
  cases e with
  | line text =>
    cases text with
    | none => rfl
    | some line => cases h
  | _ => rfl

theorem lines_cons (e : Visit ω) (events : List (Visit ω)) :
    lines (e :: events) = if e.ends then [] else e.inquiring ++ lines events := by
  unfold lines inquiring
  rw [List.takeWhile_cons]
  cases e.ends with
  | true => rfl
  | false =>
    cases hline : e.line? with
    | none => simp [hline]
    | some line => cases hblank : (Text.trimmed line).isEmpty <;> simp [hline, hblank]

theorem lines_concat (events : List (Visit ω)) (e : Visit ω) : lines (events ++ [e]) =
    if events.any (·.ends) then lines events else lines events ++ e.inquiring := by
  induction events with
  | nil =>
    rw [List.nil_append, lines_cons]
    cases hends : e.ends with
    | true => exact (inquiring_of_ends hends).symm
    | false => exact List.append_nil _
  | cons x events ih =>
    rw [List.cons_append, lines_cons, lines_cons, ih, List.any_cons]
    cases x.ends with
    | true => rfl
    | false => cases events.any (·.ends) <;> simp

end Visit

open Visit (lines)

/-- The lines that have been read are the first ones of those that came in; they are all of them
unless a response could not be written. -/
structure Heard (events : List (Visit ω)) (read : List Inquiry) (c : Connection) : Prop where
  first : read.map (·.line) <+: lines events
  reading : c.ended = false → events.any (·.ends) = false ∧ read.map (·.line) = lines events
  ceased : c.ended = true →
    (events.any (·.ends) = true ∧ read.map (·.line) = lines events) ∨ c.failed = true

namespace Heard

theorem opened : Heard ([] : List (Visit ω)) [] .opened :=
  ⟨List.prefix_rfl, fun _ => ⟨rfl, rfl⟩, nofun⟩

theorem lines_eq (h : Heard events read c) (hwhole : c.failed = false) :
    read.map (·.line) = lines events := by
  cases hended : c.ended with
  | false => exact (h.reading hended).2
  | true => exact ((h.ceased hended).resolve_right fun hf => nomatch hwhole.symm.trans hf).2

/-- Once no more is read, it makes no difference what comes in. -/
theorem ignore (h : Heard events read c) (hended : c.ended = true) (e : Visit ω)
    (hended' : c'.ended = true) (hfailed : c.failed = true → c'.failed = true) :
    Heard (events ++ [e]) read c' where
  first := by
    rw [Visit.lines_concat]
    split
    · exact h.first
    · exact h.first.trans (List.prefix_append _ _)
  reading := fun hopen => nomatch hended'.symm.trans hopen
  ceased := by
    intro _
    refine (h.ceased hended).imp (fun hover => ?_) hfailed
    rw [List.any_append, hover.1, Visit.lines_concat, if_pos hover.1]
    exact ⟨rfl, hover.2⟩

/-- As long as the input goes on, the lines that come in are read. -/
theorem take (h : Heard events read c) (hopen : c.ended = false) {more : List Inquiry}
    (hmore : more.map (·.line) = e.inquiring) (hends : c'.ended = false → e.ends = false)
    (hover : c'.ended = true → e.ends = true ∨ c'.failed = true) :
    Heard (events ++ [e]) (read ++ more) c' := by
  obtain ⟨hany, hread⟩ := h.reading hopen
  have hlines : (read ++ more).map (·.line) = lines (events ++ [e]) := by
    rw [List.map_append, hread, hmore, Visit.lines_concat, hany]
    rfl
  constructor
  case first => exact hlines ▸ List.prefix_rfl
  case reading =>
    intro hopen'
    refine ⟨?_, hlines⟩
    rw [List.any_append, hany, List.any_cons, hends hopen']
    rfl
  case ceased =>
    intro hended'
    refine (hover hended').imp_left fun he => ⟨?_, hlines⟩
    rw [List.any_append, List.any_cons, he, Bool.true_or, Bool.or_true]

theorem aside (h : Heard events read c) (hends : e.ends = false) (hline : e.line? = none)
    (hended : c'.ended = c.ended) (hfailed : c.failed = true → c'.failed = true) :
    Heard (events ++ [e]) read c' := by
  cases hopen : c.ended with
  | true => exact h.ignore hopen e (hended.trans hopen) hfailed
  | false =>
    have hnone : ([] : List Inquiry).map (·.line) = e.inquiring := by
      rw [Visit.inquiring, hline]
      rfl
    have htake : Heard (events ++ [e]) (read ++ []) c' := h.take hopen hnone (fun _ => hends)
      fun hended' => nomatch hopen.symm.trans (hended.symm.trans hended')
    rwa [List.append_nil] at htake

theorem close (h : Heard events read c) (hends : e.ends = true) :
    Heard (events ++ [e]) read c.close := by
  cases hopen : c.ended with
  | true => exact h.ignore hopen e rfl id
  | false =>
    have hnone : ([] : List Inquiry).map (·.line) = e.inquiring :=
      (Visit.inquiring_of_ends hends).symm
    have htake : Heard (events ++ [e]) (read ++ []) c.close :=
      h.take hopen hnone nofun fun _ => .inl hends
    rwa [List.append_nil] at htake

theorem line (h : Heard events read c) (text : Option String) :
    Heard (events ++ [.line text]) (read ++ c.taken (.line call text))
      (c.step (.line call text)) := by
  cases hopen : c.ended with
  | true =>
    have hsame : c.step (.line call text) = c := by simp [Connection.step, hopen]
    have hnone : c.taken (.line call text) = [] := by
      cases text <;> simp [Connection.taken, hopen]
    rw [hsame, hnone, List.append_nil]
    exact h.ignore hopen _ hopen id
  | false =>
    cases text with
    | none =>
      have hclose : c.step (.line call none) = c.close := by simp [Connection.step, hopen]
      rw [hclose]
      exact (List.append_nil read).symm ▸ h.close rfl
    | some line =>
      have hmore : (c.taken (.line call (some line))).map (·.line) =
          (Visit.line (some line) : Visit ω).inquiring := by
        simp only [Connection.taken, hopen, Inquiry.ofLine, Visit.inquiring, Visit.line?]
        cases hblank : (Text.trimmed line).isEmpty <;> simp [hblank]
      refine h.take hopen hmore (fun _ => rfl) fun hended' => .inr ?_
      rw [(c.keeps_line call (some line)).failed]
      exact ((Connection.ended_line hended').resolve_left fun hover =>
        Bool.false_ne_true (hopen.symm.trans hover)).resolve_left (Option.some_ne_none line)

end Heard

/-! ### What is read -/

/-- The inquiry that is read with an event. -/
def reading (s : Conversation κ ω) : Visit ω → List Inquiry
  | .line text => s.connection.taken (.line s.calls text)
  | _ => []

/-- All that are read along a run. -/
def inquiries (service : Service κ ω) (s : Conversation κ ω) (events : List (Visit ω)) :
    List Inquiry :=
  notesOf (visit service) reading s events

theorem inquiries_concat (service : Service κ ω) (s : Conversation κ ω) (events : List (Visit ω))
    (e : Visit ω) : s.inquiries service (events ++ [e]) =
      s.inquiries service events ++ (s.visitAll service events).reading e :=
  notesOf_concat _ _ _ _ _

/-- A task is done that is a ping, or whose call to the keeper has ended. -/
theorem finish_cases (s : Conversation κ ω) (call : Nat) : s.finish call = s ∨
    ∃ t ending, s.connection.tasks.find? (·.call == call) = some t ∧
      s.finish call = s.serve (.done call ending) ∧
      (t.request.call.message? = none ∧ ending = none ∨
        ∃ message told, t.request.call.message? = some message ∧ ending = some told ∧
          (call, told) ∈ s.ended) := by
  unfold finish
  cases ht : s.connection.tasks.find? (·.call == call) with
  | none => exact .inl rfl
  | some t =>
    dsimp only
    cases hm : t.request.call.message? with
    | none => exact .inr ⟨t, none, rfl, rfl, .inl ⟨hm, rfl⟩⟩
    | some message =>
      cases hlookup : s.ended.lookup call with
      | none => exact .inl rfl
      | some told =>
        obtain ⟨before, after, hended, -⟩ := List.lookup_eq_some_iff.1 hlookup
        have hmem : (call, told) ∈ s.ended := by
          rw [hended]
          exact List.mem_append_right _ List.mem_cons_self
        exact .inr ⟨t, some told, rfl, rfl, .inr ⟨message, told, hm, rfl, hmem⟩⟩

theorem Heard.visit (h : Heard events read s.connection) (service : Service κ ω) (e : Visit ω) :
    Heard (events ++ [e]) (read ++ s.reading e) (s.visit service e).connection := by
  cases e with
  | line text => exact h.line text
  | close => exact (List.append_nil read).symm ▸ h.close rfl
  | hangUp => exact (List.append_nil read).symm ▸ h.aside rfl rfl rfl id
  | ask call =>
    have hsame : (s.visit service (.ask call)).connection = s.connection := by
      simp only [Conversation.visit, Conversation.ask]
      split <;> rfl
    rw [hsame]
    exact (List.append_nil read).symm ▸ h.aside rfl rfl rfl id
  | keeper e =>
    have hsame : (s.visit service (.keeper e)).connection = s.connection := by
      rcases s.visit_keeper service e with hsame | ⟨e', calls, -, hkeep, -⟩
      · rw [hsame]
      · rw [hkeep]
        rfl
    rw [hsame]
    exact (List.append_nil read).symm ▸ h.aside rfl rfl rfl id
  | done call =>
    have hdone : Heard (events ++ [.done call]) read (s.finish call).connection := by
      rcases s.finish_cases call with hsame | ⟨t, ending, -, hdone, -⟩
      · rw [hsame]
        exact h.aside rfl rfl rfl id
      · rw [hdone]
        exact h.aside rfl rfl (s.connection.ended_done call ending)
          (s.connection.keeps_done call ending).failed.trans
    exact (List.append_nil read).symm ▸ hdone
  | write =>
    obtain ⟨hended, hfailed, -⟩ := s.connection.write_cases
    exact (List.append_nil read).symm ▸ h.aside rfl rfl hended hfailed

/-- Lines and responses are matched, by what the keeper has told its callers so far. -/
def Paired (read : List Inquiry) (s : Conversation κ ω) : Prop :=
  ∃ replies begun lost, s.connection.Matched (fun call ending => (call, ending) ∈ s.ended)
    read replies begun lost

namespace Paired

theorem opened (capacity : Nat) (w : ω) : Paired [] (opened capacity w : Conversation κ ω) :=
  ⟨[], [], [], Connection.matched_opened⟩

/-- What the keeper tells its callers changes nothing in what has been said. -/
theorem aside (h : Paired read s) (hconnection : s'.connection = s.connection)
    (hended : s.ended ⊆ s'.ended) : Paired read s' := by
  obtain ⟨replies, begun, lost, hmatched⟩ := h
  refine ⟨replies, begun, lost, ?_⟩
  rw [hconnection]
  exact hmatched.mono fun _ _ hold => hended hold

theorem done (h : Paired read s) (call : Nat) : Paired read (s.finish call) := by
  rcases s.finish_cases call with hsame | ⟨t, ending, ht, hdone, hwhy⟩
  · rw [hsame]
    exact h
  · rw [hdone]
    obtain ⟨replies, begun, lost, hmatched⟩ := h
    refine hmatched.done ht fun line hline => ?_
    rcases hwhy with ⟨hm, rfl⟩ | ⟨message, told, hm, rfl, htold⟩
    · exact .plain hline hm
    · exact .told hline hm htold

/-- An event with which no line is read. -/
theorem quiet (h : Paired read s') (hquiet : s.reading e = []) :
    Paired (read ++ s.reading e) s' := by
  rw [hquiet, List.append_nil]
  exact h

theorem visit (h : Paired read s) (service : Service κ ω) (e : Visit ω) :
    Paired (read ++ s.reading e) (s.visit service e) := by
  cases e with
  | line text =>
    obtain ⟨replies, begun, lost, hmatched⟩ := h
    exact hmatched.line s.calls text
  | close =>
    obtain ⟨replies, begun, lost, hmatched⟩ := h
    have hclose : Paired read (s.serve .close) := ⟨replies, [], _, hmatched.close⟩
    exact hclose.quiet rfl
  | hangUp =>
    obtain ⟨replies, begun, lost, hmatched⟩ := h
    have hhangUp : Paired read (s.serve .hangUp) := ⟨replies, begun, lost, { hmatched with }⟩
    exact hhangUp.quiet rfl
  | ask call =>
    refine Paired.quiet ?_ rfl
    simp only [Conversation.visit, Conversation.ask]
    split
    · exact h
    · exact h.aside rfl (List.subset_append_left _ _)
  | keeper e =>
    refine Paired.quiet ?_ rfl
    rcases s.visit_keeper service e with hsame | ⟨e', calls, -, hkeep, -⟩
    · rw [hsame]
      exact h
    · rw [hkeep]
      exact h.aside rfl (List.subset_append_left _ _)
  | done call => exact (h.done call).quiet rfl
  | write =>
    obtain ⟨replies, begun, lost, hmatched⟩ := h
    obtain ⟨replies', lost', hmatched'⟩ := hmatched.write
    have hwrite : Paired read s.write := ⟨replies', begun, lost', hmatched'⟩
    exact hwrite.quiet rfl

end Paired

theorem paired_of_run (service : Service κ ω) (capacity : Nat) (w : ω) (events : List (Visit ω)) :
    Paired ((opened capacity w).inquiries service events)
      ((opened capacity w).visitAll service events) := by
  induction events using List.reverseRecOn with
  | nil => exact .opened capacity w
  | append_singleton events e ih =>
    rw [visitAll_concat, inquiries_concat]
    exact ih.visit service e

/-! ### What is written -/

/-- Lines and responses are matched, the responses are what the peer gets, and only a peer that does
not read keeps one from being written. -/
structure Visited (events : List (Visit ω)) (s : Conversation κ ω) : Prop where
  matched : ∃ read replies begun lost, s.connection.Matched
    (fun call ending => (call, ending) ∈ s.ended) read replies begun lost ∧
      Heard events read s.connection
  hung : s.connection.deaf = true ∨ s.connection.failed = true → .hangUp ∈ events
  written : s.downward = Response.stream s.connection.sent

theorem write_deaf {r : Response} {outbox : List Response} (hdeaf : s.connection.deaf = true)
    (houtbox : s.connection.outbox = r :: outbox) : s.write = { s with
      connection := { s.connection with failed := true, outbox := [] } } := by
  simp [Conversation.write, serve, Connection.step, houtbox, hdeaf]

/-- What does not write. -/
theorem visit_keeps (service : Service κ ω) (s : Conversation κ ω) {e : Visit ω}
    (hhangUp : e ≠ .hangUp) (hwrite : e ≠ .write) :
    s.connection.Keeps (s.visit service e).connection ∧
      (s.visit service e).downward = s.downward := by
  cases e with
  | line text => exact ⟨s.connection.keeps_line s.calls text, rfl⟩
  | close => exact ⟨s.connection.keeps_close, rfl⟩
  | hangUp => exact absurd rfl hhangUp
  | ask call =>
    simp only [visit, ask]
    split <;> exact ⟨s.connection.keeps_refl, rfl⟩
  | keeper e =>
    rcases s.visit_keeper service e with hsame | ⟨e', calls, -, hkeep, -⟩
    · rw [hsame]
      exact ⟨s.connection.keeps_refl, rfl⟩
    · rw [hkeep]
      exact ⟨s.connection.keeps_refl, rfl⟩
  | done call =>
    rw [visit]
    rcases s.finish_cases call with hsame | ⟨t, ending, -, hdone, -⟩
    · rw [hsame]
      exact ⟨s.connection.keeps_refl, rfl⟩
    · rw [hdone]
      exact ⟨s.connection.keeps_done call ending, rfl⟩
  | write => exact absurd rfl hwrite

namespace Visited

theorem ceased (h : Visited events s) (hended : s.connection.ended = true) :
    s.connection.tasks = [] := by
  obtain ⟨⟨read, replies, begun, lost, hmatched, -⟩, -, -⟩ := h
  rw [← hmatched.tasks, hmatched.ceased hended]
  rfl

theorem opened (capacity : Nat) (w : ω) : Visited [] (opened capacity w : Conversation κ ω) :=
  ⟨⟨[], [], [], [], Connection.matched_opened, .opened⟩, nofun, rfl⟩

theorem hung_write (h : Visited events s)
    (hlost : s.write.connection.deaf = true ∨ s.write.connection.failed = true) :
    .hangUp ∈ events := by
  cases houtbox : s.connection.outbox with
  | nil =>
    rw [write_nil houtbox] at hlost
    exact h.hung hlost
  | cons r outbox =>
    cases hdeaf : s.connection.deaf with
    | true => exact h.hung (.inl hdeaf)
    | false =>
      rw [write_cons hdeaf houtbox] at hlost
      exact h.hung hlost

theorem written_write (h : Visited events s) :
    s.write.downward = Response.stream s.write.connection.sent := by
  cases houtbox : s.connection.outbox with
  | nil =>
    rw [write_nil houtbox]
    exact h.written
  | cons r outbox =>
    cases hdeaf : s.connection.deaf with
    | true =>
      rw [write_deaf hdeaf houtbox]
      exact h.written
    | false =>
      rw [write_cons hdeaf houtbox, Response.stream, List.flatMap_append, h.written,
        Response.stream]
      simp

theorem step (h : Visited events s) (service : Service κ ω) (e : Visit ω) :
    Visited (events ++ [e]) (s.visit service e) := by
  constructor
  case matched =>
    obtain ⟨read, replies, begun, lost, hmatched, hheard⟩ := h.matched
    have hpaired : Paired read s := ⟨replies, begun, lost, hmatched⟩
    obtain ⟨replies', begun', lost', hmatched'⟩ := hpaired.visit service e
    exact ⟨_, replies', begun', lost', hmatched', hheard.visit service e⟩
  case hung =>
    intro hlost
    by_cases hhangUp : e = .hangUp
    · exact List.mem_append_right _ (List.mem_singleton.2 hhangUp.symm)
    · apply List.mem_append_left
      by_cases hwrite : e = .write
      · subst hwrite
        exact h.hung_write hlost
      · obtain ⟨hkeeps, -⟩ := s.visit_keeps service hhangUp hwrite
        rw [hkeeps.deaf, hkeeps.failed] at hlost
        exact h.hung hlost
  case written =>
    by_cases hhangUp : e = .hangUp
    · subst hhangUp
      exact h.written
    · by_cases hwrite : e = .write
      · subst hwrite
        exact h.written_write
      · obtain ⟨hkeeps, hdownward⟩ := s.visit_keeps service hhangUp hwrite
        rw [hdownward, hkeeps.sent]
        exact h.written

end Visited

theorem visited_of_run (service : Service κ ω) (capacity : Nat) (w : ω) (events : List (Visit ω)) :
    Visited events ((opened capacity w).visitAll service events) := by
  induction events using List.reverseRecOn with
  | nil => exact .opened capacity w
  | append_singleton events e ih =>
    rw [visitAll_concat]
    exact ih.step service e

end WarmCompile.Conversation
