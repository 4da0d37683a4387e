import WarmCompile.Proofs.Serve.Attended

/-!
A front answers every line of a peer once, and under the id of the line.
-/

namespace WarmCompile.Conversation

variable {κ ω : Type} {service : Service κ ω} {s : Conversation κ ω} {events : List (Visit ω)}

/-- Nothing that goes on by itself gets anywhere. -/
def Rests (service : Service κ ω) (s : Conversation κ ω) : Prop :=
  ∀ e : Visit ω, e.Inner → s.visit service e = s

/-- All that happens goes on by itself and gets somewhere. -/
def Works (service : Service κ ω) (s : Conversation κ ω) : List (Visit ω) → Prop
  | [] => True
  | e :: events =>
    e.Inner ∧ s.visit service e ≠ s ∧ (s.visit service e).Works service events

theorem Works.length_le (h : s.Works service events) : events.length ≤ s.weight := by
  induction events generalizing s with
  | nil => exact Nat.zero_le _
  | cons e events ih =>
    obtain ⟨hinner, hmoves, hrest⟩ := h
    have hlt := (visit_weight_lt service s hinner).resolve_left hmoves
    exact Nat.lt_of_le_of_lt (ih hrest) hlt

theorem Attended.idle_of_rests (h : Attended s) (hrests : s.Rests service) :
    s.connection.tasks = [] ∧ s.connection.outbox = [] := by
  apply Classical.byContradiction
  intro hbusy
  obtain ⟨e, he, hlt⟩ := h.progress service (Classical.not_and_iff_not_or_not.1 hbusy)
  exact absurd (hrests e he ▸ hlt) (Nat.lt_irrefl _)

/-- Each line has a response of its own, which goes by the line's id. -/
abbrev Answer (lines : List String) (responses : List Response) : Prop :=
  List.Forall₂ (fun line r => Incoming.GoesBy line r.id) lines responses

theorem answer_of_replies {told : Nat → Ending → Prop} {replies : List (Inquiry × Response)}
    {responses : List Response} (hresponses : replies.map (·.2) = responses)
    (hdue : ∀ y ∈ replies, y.1.Reply told y.2) :
    Answer ((replies.map (·.1)).map (·.line)) responses := by
  rw [← hresponses, List.map_map, Answer, List.forall₂_map_left_iff, List.forall₂_map_right_iff,
    List.forall₂_same]
  exact fun y hy => (hdue y hy).goesBy

/-- How a front serves a peer. -/
structure Served (service : Service κ ω) (events : List (Visit ω)) (s : Conversation κ ω) :
    Prop where
  /-- Of the lines that come in the first ones are read, blank ones apart, and the responses are to
  as many of these. -/
  matched : ∃ read answered unanswered, read <+: Visit.lines events ∧
    s.connection.count = read.length ∧ read.Perm (answered ++ unanswered) ∧
    Answer answered (s.connection.sent ++ s.connection.outbox)
  /-- The peer gets the responses that are sent. -/
  written : s.downward = Response.stream s.connection.sent
  writable : .hangUp ∉ events → s.connection.failed = false
  /-- As long as responses can be written, every line is read and counted. -/
  counted : s.connection.failed = false →
    s.connection.served = .ok (Visit.lines events).length
  /-- When nothing is under way, every line has its response. -/
  complete : .hangUp ∉ events → (∀ e ∈ events, e.ends = false) →
    s.connection.tasks = [] → s.connection.outbox = [] →
    ∃ answered, (Visit.lines events).Perm answered ∧ Answer answered s.connection.sent
  /-- However tasks, writer and keeper go on, they come to rest. -/
  bounded : ∀ more, s.Works service more → more.length ≤ s.weight
  idle : s.Rests service → s.connection.tasks = [] ∧ s.connection.outbox = []

/-- Every line is answered once and under its id, whatever comes in, whatever the session is, and in
whatever order the tasks are done. -/
theorem served_of_run (service : Service κ ω) (capacity : Nat) (w : ω) (events : List (Visit ω)) :
    Served service events ((opened capacity w).visitAll service events) := by
  obtain ⟨⟨read, replies, begun, lost, hmatched, hheard⟩, hhung, hwritten⟩ :=
    visited_of_run service capacity w events
  have hattended := attended_of_run service capacity w events
  generalize (opened capacity w).visitAll service events = s at *
  have hanswer := answer_of_replies hmatched.responses hmatched.due
  have hlines := hmatched.perm.map (·.line)
  rw [List.map_append, List.map_append, List.append_assoc] at hlines
  have hwritable : .hangUp ∉ events → s.connection.failed = false := by
    intro hnever
    apply Bool.of_not_eq_true
    intro hfailed
    exact hnever (hhung (.inr hfailed))
  constructor
  case matched =>
    refine ⟨read.map (·.line), _, _, hheard.first, ?_, hlines, hanswer⟩
    rw [hmatched.count, List.length_map]
  case written => exact hwritten
  case writable => exact hwritable
  case counted =>
    intro hwhole
    rw [Connection.served, hwhole, ← hheard.lines_eq hwhole, List.length_map, hmatched.count]
    rfl
  case complete =>
    intro hnever hends htasks houtbox
    have hwhole := hwritable hnever
    have hopen : s.connection.ended = false := by
      apply Bool.of_not_eq_true
      intro hover
      obtain ⟨hany, -⟩ := (hheard.ceased hover).resolve_right fun hf => nomatch hwhole.symm.trans hf
      obtain ⟨e, he, hend⟩ := List.any_eq_true.1 hany
      exact nomatch (hends e he).symm.trans hend
    have hbegun : begun = [] := List.map_eq_nil_iff.1 (hmatched.tasks.trans htasks)
    rw [hbegun, hmatched.whole hopen hwhole, hheard.lines_eq hwhole] at hlines
    rw [houtbox, List.append_nil] at hanswer
    exact ⟨_, by simpa using hlines, hanswer⟩
  case bounded =>
    intro more
    exact Works.length_le
  case idle => exact hattended.idle_of_rests

end WarmCompile.Conversation
