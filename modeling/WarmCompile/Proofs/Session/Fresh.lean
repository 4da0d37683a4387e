import WarmCompile.Proofs.Session.Invisible

/-!
A project compile that succeeds starts afresh: whatever the runs before it, the same messages from
there on, over the same surroundings, are answered in the same way.
-/

namespace WarmCompile

variable {κ ω : Type}

namespace Service

variable {service : Service κ ω} {s : Option (Session κ) × ω} {turns : List (Turn ω)}

/-- The messages that are handled, each with the surroundings it finds. -/
def seen (service : Service κ ω) (s : Option (Session κ) × ω) : List (Turn ω) → List (Message × ω)
  | [] => []
  | .handle l :: turns =>
    (l.message, s.2) :: service.seen (service.advance s (.handle l)) turns
  | .edit change :: turns => service.seen (service.advance s (.edit change)) turns

/-- The session that comes of messages, each over surroundings of its own. -/
def sessionAfter (service : Service κ ω) (session : Option (Session κ))
    (seen : List (Message × ω)) : Option (Session κ) :=
  seen.foldl (fun session x => (service.handle session x.2 x.1).2.1) session

def answersTo (service : Service κ ω) (session : Option (Session κ)) :
    List (Message × ω) → List Answer
  | [] => []
  | (message, w) :: seen =>
    (service.handle session w message).1.toList ++
      service.answersTo (service.handle session w message).2.1 seen

/-- Between two messages nothing but the surroundings changes. -/
theorem state_eq_sessionAfter :
    (service.state s turns).1 = service.sessionAfter s.1 (service.seen s turns) := by
  induction turns generalizing s with
  | nil => rfl
  | cons t turns ih =>
    cases t with
    | handle l => exact ih (s := service.advance s (.handle l))
    | edit change => exact ih (s := service.advance s (.edit change))

theorem replies_eq_answersTo : (service.replies s turns).map (·.2) =
    (service.answersTo s.1 (service.seen s turns)).map .answered := by
  induction turns generalizing s with
  | nil => rfl
  | cons t turns ih =>
    cases t with
    | handle l =>
      have hfirst : (service.reply s (.handle l)).map (·.2) =
          (service.handle s.1 s.2 l.message).1.toList.map .answered := by
        simp only [reply]
        cases (service.handle s.1 s.2 l.message).1 <;> rfl
      have hrest := ih (s := service.advance s (.handle l))
      rw [replies, List.map_append, hfirst, hrest, seen, answersTo, List.map_append]
      rfl
    | edit change => exact ih (s := service.advance s (.edit change))

/-- A session that has been built owes nothing to the one it replaces. -/
theorem handle_of_built {session : Option (Session κ)} {w : ω} {message : Message}
    {built : ResolvedProject × Output}
    (h : (service.handle session w message).1 = some (.init (.ok built)))
    (session' : Option (Session κ)) :
    service.handle session' w message = service.handle session w message := by
  cases message with
  | init params =>
    simp only [handle] at h ⊢
    split at h
    · rfl
    · cases h
  | compile path =>
    simp only [handle] at h
    split at h <;> cases h
  | disconnect => cases h

/-- Sessions make no difference to what follows a project compile that succeeds. -/
theorem after_built {session : Option (Session κ)} {message : Message} {w : ω}
    {built : ResolvedProject × Output}
    (h : (service.handle session w message).1 = some (.init (.ok built)))
    (session' : Option (Session κ)) (seen : List (Message × ω)) :
    service.answersTo session' ((message, w) :: seen) =
        service.answersTo session ((message, w) :: seen) ∧
      service.sessionAfter session' ((message, w) :: seen) =
        service.sessionAfter session ((message, w) :: seen) := by
  have hsame := handle_of_built h session'
  refine ⟨?_, ?_⟩
  · rw [answersTo, answersTo, hsame]
  · rw [sessionAfter, sessionAfter, List.foldl_cons, List.foldl_cons, hsame]

/-! ### What the messages find -/

/-- The messages, each with what the edits ahead of it have made of the surroundings. -/
def edited (w : ω) : List (Turn ω) → List (Message × ω)
  | [] => []
  | .handle l :: turns => (l.message, w) :: edited w turns
  | .edit change :: turns => edited (change w) turns

theorem world_of_handle (hquiet : service.backend.Quiet) (session : Option (Session κ)) (w : ω)
    (message : Message) : (service.handle session w message).2.2 = w := by
  cases message with
  | init params =>
    have hworld := Session.world_of_build hquiet params w
    simp only [handle]
    split <;> (rename_i hbuild; rw [hbuild] at hworld; exact hworld)
  | compile path =>
    cases session with
    | none => rfl
    | some s => exact hquiet.compileFile _ _ _
  | disconnect => rfl

/-- Where compiling leaves the surroundings as they are, messages find what the edits made. -/
theorem seen_eq_edited (hquiet : service.backend.Quiet) :
    service.seen s turns = edited s.2 turns := by
  induction turns generalizing s with
  | nil => rfl
  | cons t turns ih =>
    cases t with
    | handle l =>
      have hworld : (service.advance s (.handle l)).2 = s.2 := world_of_handle hquiet _ _ _
      rw [seen, edited, ih, hworld]
    | edit change => exact ih (s := service.advance s (.edit change))

end Service

namespace Actor

variable {service : Service κ ω} {capacity capacity' : Nat} {w w' : ω}
  {events events' : List (Event ω)} {before before' after after' : List (Turn ω)} {l l' : Letter}
  {earlier earlier' later later' : Endings}

/-- A run that comes to the message `l` with `earlier` answered, and from there answers `later`. -/
structure Comes (service : Service κ ω) (capacity : Nat) (w : ω) (events : List (Event ω))
    (before : List (Turn ω)) (l : Letter) (after : List (Turn ω)) (earlier later : Endings) :
    Prop where
  turns : (spawn capacity w).turns service events = before ++ .handle l :: after
  answers : ((spawn capacity w).run service events).2.filter (·.2.isAnswer) = earlier ++ later
  earlier : earlier.map (·.1) = (lettersOf before).map (·.call)
  later : later.map (·.1) = (lettersOf (.handle l :: after)).map (·.call)

theorem comes_of_turns
    (hturns : (spawn capacity w).turns service events = before ++ .handle l :: after) :
    Comes service capacity w events before l after (service.replies (none, w) before)
      (service.replies (service.state (none, w) before) (.handle l :: after)) := by
  have hserved := (orderly_of_run service capacity w events).requests
  rw [hturns, lettersOf_append] at hserved
  have hanswers : _ = service.replies (none, w) _ := answers_of_run service (spawn capacity w) events
  refine ⟨hturns, ?_, ?_, ?_⟩
  · rw [hanswers, hturns, Service.replies_append]
  · exact Service.replies_calls fun l' hl' =>
      hserved l' (List.mem_append_left _ (List.mem_append_left _ hl'))
  · exact Service.replies_calls fun l' hl' =>
      hserved l' (List.mem_append_left _ (List.mem_append_right _ hl'))

/-- The answers of a run are those of its turns. -/
theorem Comes.later_eq (h : Comes service capacity w events before l after earlier later) :
    later = service.replies (service.state (none, w) before) (.handle l :: after) := by
  have hturns := comes_of_turns h.turns
  have hlength : earlier.length = (service.replies (none, w) before).length := by
    rw [← List.length_map (·.1), h.earlier, ← hturns.earlier, List.length_map]
  exact (List.append_inj (h.answers.symm.trans hturns.answers) hlength).2

theorem Comes.handle_of_head (h : Comes service capacity w events before l after earlier later)
    {answer : Answer} (hanswer : later.head? = some (l.call, .answered answer)) :
    (service.handle (service.state (none, w) before).1 (service.state (none, w) before).2
      l.message).1 = some answer := by
  have hrequest : l.message ≠ .disconnect := by
    refine (orderly_of_run service capacity w events).requests l (List.mem_append_left _ ?_)
    rw [h.turns, lettersOf_append]
    exact List.mem_append_right _ List.mem_cons_self
  obtain ⟨answer', hreply⟩ :=
    Service.reply_of_request service (service.state (none, w) before) hrequest
  rw [h.later_eq, Service.replies, hreply] at hanswer
  simp only [List.cons_append, List.head?_cons, Option.some.injEq, Prod.mk.injEq,
    Ending.answered.injEq, true_and] at hanswer
  subst hanswer
  simpa [Service.reply] using hreply

/-- Two runs, however they differ up to a project compile that succeeds, answer that message and
all later ones in the same way, and end in the same session, if each of these messages finds the
same surroundings in both. -/
theorem answers_eq_of_built (hrun : Comes service capacity w events before l after earlier later)
    (hrun' : Comes service capacity' w' events' before' l' after' earlier' later')
    (hsame : service.seen (service.state (none, w) before) (.handle l :: after) =
      service.seen (service.state (none, w') before') (.handle l' :: after'))
    {built : ResolvedProject × Output}
    (hbuilt : later.head? = some (l.call, .answered (.init (.ok built)))) :
    later'.map (·.2) = later.map (·.2) ∧
      ((spawn capacity' w').run service events').1.session =
        ((spawn capacity w).run service events).1.session := by
  have hstate : _ = service.state (none, w) _ := state_of_run service (spawn capacity w) events
  have hstate' : _ = service.state (none, w') _ :=
    state_of_run service (spawn capacity' w') events'
  rw [hrun.turns, Service.state_append] at hstate
  rw [hrun'.turns, Service.state_append] at hstate'
  have hfirst := hrun.handle_of_head hbuilt
  obtain ⟨hanswers, hkept⟩ := Service.after_built hfirst (service.state (none, w') before').1
    (service.seen (service.advance (service.state (none, w) before) (.handle l)) after)
  refine ⟨?_, ?_⟩
  · rw [hrun.later_eq, hrun'.later_eq, Service.replies_eq_answersTo, Service.replies_eq_answersTo,
      ← hsame, Service.seen, hanswers]
  · have hsession := congrArg Prod.fst hstate
    have hsession' := congrArg Prod.fst hstate'
    rw [Service.state_eq_sessionAfter] at hsession hsession'
    refine hsession'.trans (Eq.trans ?_ hsession.symm)
    rw [← hsame, Service.seen, hkept]

def shelf : List (String × String) :=
  [("/p/P.fsproj", "<Project><Compile Include=\"A.fs\"/><Compile Include=\"B.fs\"/></Project>"),
    ("/p/A.fs", "1"), ("/p/B.fs", "1")]

/-- The project is compiled, and then a file edited that the session does not look at again. -/
def stale : List (Turn (List (String × String))) :=
  [.handle ⟨1, .init ⟨"/p/P.fsproj", "/lib"⟩⟩, .edit fun files => ("/p/B.fs", "2") :: files]

def touched : List (Turn (List (String × String))) :=
  [.edit fun files => ("/p/A.fs", "3") :: files, .handle ⟨3, .compile "/p/A.fs"⟩]

/-- The same to a session that is the first; the edit is another, and makes the same of the files. -/
def untouched : List (Turn (List (String × String))) :=
  [.edit fun _ => ("/p/A.fs", "3") :: ("/p/B.fs", "2") :: shelf, .handle ⟨8, .compile "/p/A.fs"⟩]

theorem answers_eq_of_built_shelf :
    let message := Message.init ⟨"/p/P.fsproj", "/lib"⟩
    let events := (stale ++ .handle ⟨2, message⟩ :: touched).flatMap eventsOf
    let events' := (.handle ⟨7, message⟩ :: untouched).flatMap eventsOf
    let w := ("/p/B.fs", "2") :: shelf
    let project : ResolvedProject :=
      ⟨"/p/P.fsproj", ["/p/A.fs", "/p/B.fs"], defaultDefines, none, [], []⟩
    ∃ earlier later later',
      Comes echoService 1 shelf events stale ⟨2, message⟩ touched earlier later ∧
      Comes echoService 2 w events' [] ⟨7, message⟩ untouched [] later' ∧
      echoService.seen (echoService.state (none, shelf) stale) (.handle ⟨2, message⟩ :: touched) =
        echoService.seen (none, w) (.handle ⟨7, message⟩ :: untouched) ∧
      later.map (·.2) = [
        .answered (.init (.ok (project, .ofList [("/p/A.fs", "1"), ("/p/B.fs", "2")]))),
        .answered (.compile (.ok (.ofList [("/p/A.fs", "3")])))] ∧
      later'.map (·.2) = later.map (·.2) ∧
      ((spawn 2 w).run echoService events').1.session =
        ((spawn 1 shelf).run echoService events).1.session := by
  intro message events events' w project
  have hquiet : echoService.backend.Quiet := Compiler.quiet_backend fun _ _ => rfl
  have hrun : Comes echoService 1 shelf events stale ⟨2, message⟩ touched _ _ :=
    comes_of_turns ((ready_spawn 1 shelf).serve echoService (by decide)).1
  have hrun' : Comes echoService 2 w events' [] ⟨7, message⟩ untouched _ _ :=
    comes_of_turns ((ready_spawn 2 w).serve echoService (by decide)).1
  have hsame : echoService.seen (echoService.state (none, shelf) stale)
      (.handle ⟨2, message⟩ :: touched) =
      echoService.seen (none, w) (.handle ⟨7, message⟩ :: untouched) := by
    rw [Service.seen_eq_edited hquiet, Service.seen_eq_edited hquiet]
    decide +kernel
  have hlater : (echoService.replies (echoService.state (none, shelf) stale)
      (.handle ⟨2, message⟩ :: touched)).map (·.2) = [
        .answered (.init (.ok (project, .ofList [("/p/A.fs", "1"), ("/p/B.fs", "2")]))),
        .answered (.compile (.ok (.ofList [("/p/A.fs", "3")])))] := by decide +kernel
  have hbuilt : (echoService.replies (echoService.state (none, shelf) stale)
      (.handle ⟨2, message⟩ :: touched)).head? = some (2, .answered (.init (.ok (project,
        .ofList [("/p/A.fs", "1"), ("/p/B.fs", "2")])))) := by decide +kernel
  obtain ⟨hanswers, hsession⟩ := answers_eq_of_built hrun hrun' hsame hbuilt
  exact ⟨_, _, _, hrun, hrun', hsame, hlater, hanswers, hsession⟩

end Actor

end WarmCompile
