import WarmCompile.Proofs.Session.Outcome
import WarmCompile.Proofs.Session.Quiet

/-!
A project compile that fails is seen by its caller alone: the run without it answers every other
message in the same way and ends in the same session.
-/

namespace WarmCompile

namespace Service

variable {κ ω : Type} {service : Service κ ω} {s : Option (Session κ) × ω} {t : Turn ω}
  {turns : List (Turn ω)}

theorem reply_eq_nil_or_singleton (service : Service κ ω) (s : Option (Session κ) × ω)
    (t : Turn ω) : service.reply s t = [] ∨ ∃ x, service.reply s t = [x] := by
  cases t with
  | handle l =>
    cases h : (service.handle s.1 s.2 l.message).1 with
    | none => exact .inl (by simp only [reply, h]; rfl)
    | some answer => exact .inr ⟨_, by simp only [reply, h]; rfl⟩
  | edit change => exact .inl rfl

/-- Each reply is that of one turn. -/
theorem turn_of_replies {earlier later : Actor.Endings} {x : Nat × Ending}
    (h : service.replies s turns = earlier ++ x :: later) :
    ∃ before t after, turns = before ++ t :: after ∧ service.replies s before = earlier ∧
      service.reply (service.state s before) t = [x] ∧
      service.replies (service.advance (service.state s before) t) after = later := by
  induction turns generalizing s earlier with
  | nil => simp [replies] at h
  | cons t turns ih =>
    have hother : ∀ {front}, service.reply s t ++ front = earlier →
        service.replies (service.advance s t) turns = front ++ x :: later →
        ∃ before u after, t :: turns = before ++ u :: after ∧
          service.replies s before = earlier ∧ service.reply (service.state s before) u = [x] ∧
          service.replies (service.advance (service.state s before) u) after = later := by
      intro front hfront hrest
      obtain ⟨before, u, after, rfl, hbefore, hx, hafter⟩ := ih hrest
      exact ⟨t :: before, u, after, rfl, by rw [replies, hbefore, hfront], hx, hafter⟩
    rw [replies] at h
    rcases reply_eq_nil_or_singleton service s t with hnone | ⟨y, hy⟩
    · rw [hnone, List.nil_append] at h
      exact hother (by rw [hnone, List.nil_append]) h
    · rw [hy] at h
      cases earlier with
      | nil =>
        obtain ⟨rfl, rfl⟩ := List.cons.inj h
        exact ⟨[], t, turns, rfl, rfl, hy, rfl⟩
      | cons z earlier =>
        obtain ⟨rfl, hrest⟩ := List.cons.inj h
        exact hother (by rw [hy]; rfl) hrest

end Service

namespace Actor

variable {κ ω : Type} {service : Service κ ω} {a : Actor κ ω} {events events' : List (Event ω)}
  {before after ts : List (Turn ω)} {l : Letter}

/-! ### Any messages can be served -/

theorem run_append_fst :
    (a.run service (events ++ events')).1 = ((a.run service events).1.run service events').1 := by
  rw [run_fst, run_fst, run_fst, List.foldl_append]

theorem turns_append : a.turns service (events ++ events') =
    a.turns service events ++ (a.run service events).1.turns service events' := by
  rw [run_fst]
  induction events generalizing a with
  | nil => rfl
  | cons e events ih =>
    change a.completing e ++ (a.step service e).1.turns service (events ++ events') = _
    rw [ih, ← List.append_assoc]
    rfl

/-- One caller at a time, and the keeper waited for. -/
def eventsOf : Turn ω → List (Event ω)
  | .handle l => [.call l, .enter l.call, .take, .finish]
  | .edit change => [.edit change]

/-- A keeper with nothing to do. -/
structure Ready (a : Actor κ ω) : Prop where
  roomy : 0 < a.mailbox.capacity
  queue : a.mailbox.queue = []
  waiting : a.mailbox.waiting = []
  opened : a.mailbox.closed = false
  idle : a.current = none
  cancelled : a.cancelled = false

theorem ready_spawn (capacity : Nat) (w : ω) : (spawn capacity w : Actor κ ω).Ready :=
  ⟨Nat.lt_of_lt_of_le Nat.one_pos (Nat.le_max_right capacity 1), rfl, rfl, rfl, rfl, rfl⟩

theorem Ready.take (h : a.Ready) (service : Service κ ω) (hl : l.message ≠ .disconnect) :
    a.turns service [.call l, .enter l.call, .take] = [] ∧
      (a.run service [.call l, .enter l.call, .take]).1 = { a with current := some l } := by
  obtain ⟨⟨capacity, queue, waiting, closed⟩, session, current, cancelled, deserted, absent, w⟩ := a
  obtain ⟨hroomy, rfl, rfl, rfl, rfl, rfl⟩ := h
  have henter : Mailbox.enter ⟨capacity, [], [l], false⟩ (fun l' => l'.call == l.call) =
      some (l, ⟨capacity, [l], [], false⟩) := by
    have hroom : 0 < capacity := hroomy
    simp [Mailbox.enter, Mailbox.hasRoom, hroom]
  refine ⟨rfl, ?_⟩
  simp only [run_fst, List.foldl_cons, List.foldl_nil, step, isStopped, Bool.false_eq_true,
    if_false, Mailbox.await, List.nil_append, henter]
  simp [takeNext, isStopped, Mailbox.take, hl]

theorem Ready.turn (h : a.Ready) (service : Service κ ω) {t : Turn ω}
    (ht : ∀ l ∈ t.letter?, l.message ≠ .disconnect) :
    a.turns service (eventsOf t) = [t] ∧ (a.run service (eventsOf t)).1.Ready := by
  cases t with
  | edit change => exact ⟨rfl, h.roomy, h.queue, h.waiting, h.opened, h.idle, h.cancelled⟩
  | handle l =>
    obtain ⟨hturns, htaken⟩ := h.take service (ht l rfl)
    have hevents : eventsOf (.handle l : Turn ω) =
      [.call l, .enter l.call, .take] ++ [.finish] := rfl
    rw [hevents, turns_append, run_append_fst, hturns, htaken]
    exact ⟨rfl, h.roomy, h.queue, h.waiting, h.opened, rfl, h.cancelled⟩

theorem Ready.serve (h : a.Ready) (service : Service κ ω)
    (hts : ∀ l ∈ lettersOf ts, l.message ≠ .disconnect) :
    a.turns service (ts.flatMap eventsOf) = ts ∧ (a.run service (ts.flatMap eventsOf)).1.Ready := by
  induction ts generalizing a with
  | nil => exact ⟨rfl, h⟩
  | cons t ts ih =>
    have hfirst : ∀ l ∈ t.letter?, l.message ≠ .disconnect := fun l hl =>
      hts l (List.mem_filterMap.2 ⟨t, List.mem_cons_self, hl⟩)
    have hrest : ∀ l ∈ lettersOf ts, l.message ≠ .disconnect := fun l hl => by
      obtain ⟨u, hu, hl⟩ := List.mem_filterMap.1 hl
      exact hts l (List.mem_filterMap.2 ⟨u, List.mem_cons_of_mem _ hu, hl⟩)
    obtain ⟨hturn, hready⟩ := h.turn service hfirst
    obtain ⟨hturns, hready⟩ := ih hready hrest
    rw [List.flatMap_cons, turns_append, run_append_fst, hturn, hturns]
    exact ⟨rfl, hready⟩

/-! ### Where a message is served -/

theorem completing_cases (a : Actor κ ω) (e : Event ω) :
    a.completing e = [] ∨
      (∃ l, e = .finish ∧ a.current = some l ∧ a.completing e = [.handle l]) ∨
      ∃ change, a.completing e = [.edit change] := by
  cases e with
  | finish =>
    cases hc : a.current with
    | none => exact .inl (by simp only [completing, hc]; rfl)
    | some l => exact .inr (.inl ⟨l, rfl, rfl, by simp only [completing, hc]; rfl⟩)
  | edit change => exact .inr (.inr ⟨change, rfl⟩)
  | _ => exact .inl rfl

theorem finish_of_turns (h : a.turns service events = before ++ .handle l :: after) :
    ∃ first rest, events = first ++ .finish :: rest ∧ a.turns service first = before ∧
      (a.run service first).1.current = some l := by
  induction events generalizing a before with
  | nil => simp [turns, notes] at h
  | cons e events ih =>
    have hlater : ∀ {front}, a.completing e ++ front = before →
        (a.step service e).1.turns service events = front ++ .handle l :: after →
        ∃ first rest, e :: events = first ++ .finish :: rest ∧
          a.turns service first = before ∧ (a.run service first).1.current = some l := by
      intro front hfront hrest
      obtain ⟨first, rest, rfl, hfirst, hcurrent⟩ := ih hrest
      refine ⟨e :: first, rest, rfl, ?_, ?_⟩
      · rw [← hfront, ← hfirst]
        rfl
      · rw [run_fst] at hcurrent ⊢
        exact hcurrent
    change a.completing e ++ (a.step service e).1.turns service events = _ at h
    rcases a.completing_cases e with hnone | ⟨l', rfl, hcurrent, hdone⟩ | ⟨change, hedit⟩
    · rw [hnone, List.nil_append] at h
      exact hlater (by rw [hnone, List.nil_append]) h
    · rw [hdone] at h
      cases before with
      | nil =>
        obtain ⟨hl, -⟩ := List.cons.inj h
        cases hl
        exact ⟨[], events, rfl, rfl, hcurrent⟩
      | cons u before =>
        obtain ⟨rfl, hrest⟩ := List.cons.inj h
        exact hlater (by rw [hdone]; rfl) hrest
    · rw [hedit] at h
      cases before with
      | nil => cases (List.cons.inj h).1
      | cons u before =>
        obtain ⟨rfl, hrest⟩ := List.cons.inj h
        exact hlater (by rw [hedit]; rfl) hrest

theorem finish_of_same (service : Service κ ω) (hcurrent : a.current = some l)
    (hsame : service.advance (a.session, a.world) (.handle l) = (a.session, a.world)) :
    (a.step service .finish).1 = { a with current := none } := by
  obtain ⟨hsession, hworld⟩ := Prod.mk.inj hsame
  simp only [step, finishCurrent, hcurrent]
  rw [hsession, hworld]

/-- The message `l` has come to nothing: but for its own answer, the run without it is the same. -/
structure Traceless (service : Service κ ω) (capacity : Nat) (w : ω) (events : List (Event ω))
    (before : List (Turn ω)) (l : Letter) (after : List (Turn ω)) (earlier later : Endings) :
    Prop where
  turns : (spawn capacity w).turns service events = before ++ .handle l :: after
  answered : earlier.map (·.1) = (lettersOf before).map (·.call) ∧
    later.map (·.1) = (lettersOf after).map (·.call)
  /-- The keeper puts the message aside, stays open and keeps all that it had. -/
  serving : ∃ first rest, events = first ++ .finish :: rest ∧
    (spawn capacity w).turns service first = before ∧
    ((spawn capacity w).run service (first ++ [.finish])).1 =
      { ((spawn capacity w).run service first).1 with current := none } ∧
    ((spawn capacity w).run service (first ++ [.finish])).1.isStopped = false
  /-- Any run that serves the other messages alone gives the same answers and the same session. -/
  deleted : ∀ capacity' events',
    (spawn capacity' w).turns service events' = before ++ after →
    ((spawn capacity' w).run service events').2.filter (·.2.isAnswer) = earlier ++ later ∧
    ((spawn capacity' w).run service events').1.session =
      ((spawn capacity w).run service events).1.session ∧
    ((spawn capacity' w).run service events').1.world =
      ((spawn capacity w).run service events).1.world
  possible : ∃ events', (spawn capacity w).turns service events' = before ++ after

/-- Whichever project compile fails in a run, and however it fails, it leaves no trace. -/
theorem traceless_of_failed_init (service : Service κ ω) (hquiet : service.backend.Quiet)
    (capacity : Nat) (w : ω) (events : List (Event ω)) {earlier later : Endings} {call : Nat}
    {text : String}
    (hfail : ((spawn capacity w).run service events).2.filter (·.2.isAnswer) =
      earlier ++ (call, .answered (.init (.error text))) :: later) :
    ∃ before l after, l.call = call ∧ (∃ params, l.message = .init params) ∧
      Traceless service capacity w events before l after earlier later := by
  have horderly := orderly_of_run service capacity w events
  have hstate : _ = service.state (none, w) _ := state_of_run service (spawn capacity w) events
  rw [answers_of_run] at hfail
  change service.replies (none, w) _ = _ at hfail
  obtain ⟨before, t, after, hturns, hearlier, hreply, hlater⟩ := Service.turn_of_replies hfail
  cases t with
  | edit change => cases hreply
  | handle l =>
    obtain ⟨hcall, hinit, hsame⟩ := Service.advance_of_failed hquiet hreply
    rw [hsame] at hlater
    have hrequests : ∀ l' ∈ lettersOf (before ++ after), l'.message ≠ .disconnect := by
      intro l' hl'
      refine horderly.requests l' (List.mem_append_left _ ?_)
      rw [hturns, lettersOf_append, List.mem_append]
      exact (List.mem_append.1 (lettersOf_append ▸ hl')).imp_right (List.mem_cons_of_mem l)
    have hfinal : service.state (none, w) (before ++ after) =
        service.state (none, w) (before ++ .handle l :: after) := by
      rw [Service.state_append, Service.state_append]
      exact (congrArg (service.state · after) hsame).symm
    refine ⟨before, l, after, hcall, hinit, hturns, ⟨?_, ?_⟩, ?_, ?_, ?_⟩
    · rw [← hearlier]
      exact Service.replies_calls fun l' hl' =>
        hrequests l' (lettersOf_append ▸ List.mem_append_left _ hl')
    · rw [← hlater]
      exact Service.replies_calls fun l' hl' =>
        hrequests l' (lettersOf_append ▸ List.mem_append_right _ hl')
    · obtain ⟨first, rest, rfl, hfirst, hcurrent⟩ := finish_of_turns hturns
      have hopen : ((spawn capacity w).run service first).1.isStopped = false := by
        refine Bool.eq_false_iff.2 fun hstopped => ?_
        have hidle := ((orderly_of_run service capacity w first).stopped hstopped).1
        exact absurd (hidle.symm.trans hcurrent) (by simp)
      have hkept : _ = service.state (none, w) _ := state_of_run service (spawn capacity w) first
      rw [hfirst] at hkept
      have hdone := finish_of_same service hcurrent (by rw [hkept]; exact hsame)
      refine ⟨first, rest, rfl, hfirst, by rw [run_concat]; exact hdone, ?_⟩
      rw [run_concat]
      exact (congrArg isStopped hdone).trans hopen
    · intro capacity' events' hturns'
      have hstate' : _ = service.state (none, w) _ :=
        state_of_run service (spawn capacity' w) events'
      rw [hturns', hfinal, ← hturns, ← hstate] at hstate'
      obtain ⟨hsession, hworld⟩ := Prod.mk.inj hstate'
      refine ⟨?_, hsession, hworld⟩
      rw [answers_of_run, hturns', Service.replies_append]
      exact congrArg₂ _ hearlier hlater
    · exact ⟨_, ((ready_spawn capacity w).serve service hrequests).1⟩

deriving instance DecidableEq for Answer

deriving instance DecidableEq for Ending

/-- A project is compiled, then one that is not there, then an edited file of the first. -/
def detour : List (Turn (List (String × String))) :=
  [.handle ⟨1, .init ⟨"/p/P.fsproj", "/lib"⟩⟩, .handle ⟨2, .init ⟨"/p/Q.fsproj", "/lib"⟩⟩,
    .edit fun files => ("/p/A.fs", "2") :: files, .handle ⟨3, .compile "/p/./A.fs"⟩]

def home : List (String × String) :=
  [("/p/P.fsproj", "<Project><Compile Include=\"A.fs\"/></Project>"), ("/p/A.fs", "1")]

theorem traceless_of_failed_init_detour :
    let earlier := [(1, .answered (.init (.ok (⟨"/p/P.fsproj", ["/p/A.fs"], defaultDefines, none,
      [], []⟩, .ofList [("/p/A.fs", "1")]))))]
    let later := [(3, .answered (.compile (.ok (.ofList [("/p/A.fs", "2")]))))]
    echoService.backend.Quiet ∧
    ((spawn 1 home).run echoService (detour.flatMap eventsOf)).2.filter (·.2.isAnswer) =
      earlier ++ (2, .answered (.init (.error "Project file not found: /p/Q.fsproj"))) :: later ∧
    ∃ before l after, l.call = 2 ∧ (∃ params, l.message = .init params) ∧
      Traceless echoService 1 home (detour.flatMap eventsOf) before l after earlier later := by
  have hquiet : echoService.backend.Quiet := Compiler.quiet_backend fun _ _ => rfl
  have hfail : ((spawn 1 home).run echoService (detour.flatMap eventsOf)).2.filter (·.2.isAnswer) =
      [(1, .answered (.init (.ok (⟨"/p/P.fsproj", ["/p/A.fs"], defaultDefines, none,
        [], []⟩, .ofList [("/p/A.fs", "1")]))))] ++
      (2, .answered (.init (.error "Project file not found: /p/Q.fsproj"))) ::
      [(3, .answered (.compile (.ok (.ofList [("/p/A.fs", "2")]))))] := by decide +kernel
  exact ⟨hquiet, hfail, traceless_of_failed_init echoService hquiet 1 home _ hfail⟩

end Actor

end WarmCompile
