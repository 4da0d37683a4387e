import WarmCompile.Proofs.Serve.Attended
import WarmCompile.Proofs.Session.Scene

/-!
Failures are told on the level on which they arise: a line that is no request and a keeper that has
stopped are errors of the response, and everything that goes wrong in a session is a result.
-/

namespace WarmCompile

/-! ### A keeper that has stopped -/

namespace Actor

variable {κ ω : Type} {service : Service κ ω} {a a' : Actor κ ω} {e : Event ω} {more : Endings}
  {capacity : Nat} {w : ω} {events : List (Event ω)}

theorem Effect.of_stopped (h : Effect service a e a' more) (hclosed : a.mailbox.closed = true)
    (hidle : a.current = none) :
    a'.mailbox.closed = true ∧ a'.current = none ∧ more.filter (·.2.isAnswer) = [] := by
  have hanswers := h.answers
  cases h with
  | finish l hcurrent => exact nomatch hidle.symm.trans hcurrent
  | take l queue hopen => exact nomatch hopen.symm.trans hclosed
  | stop halted queue hopen => exact nomatch hopen.symm.trans hclosed
  | pass hcurrent =>
    refine ⟨hclosed, hidle, hanswers.trans ?_⟩
    simp only [completing, hcurrent]
    rfl
  | _ => exact ⟨hclosed, hidle, hanswers⟩

/-- It answers nobody any more, whoever else comes. -/
theorem answers_of_stopped (hstopped : ((spawn capacity w).run service events).1.isStopped = true)
    (more : List (Event ω)) :
    ((spawn capacity w).run service (events ++ more)).2.filter (·.2.isAnswer) =
      ((spawn capacity w).run service events).2.filter (·.2.isAnswer) := by
  have hstays : ((spawn capacity w).run service (events ++ more)).1.mailbox.closed = true ∧
      ((spawn capacity w).run service (events ++ more)).1.current = none ∧
      ((spawn capacity w).run service (events ++ more)).2.filter (·.2.isAnswer) =
        ((spawn capacity w).run service events).2.filter (·.2.isAnswer) := by
    induction more using List.reverseRecOn with
    | nil =>
      rw [List.append_nil]
      exact ⟨hstopped, ((orderly_of_run service capacity w events).stopped hstopped).1, rfl⟩
    | append_singleton more e ih =>
      obtain ⟨hclosed, hidle, hsame⟩ := ih
      obtain ⟨hclosed', hidle', hnone⟩ := (effect_step service _ e).of_stopped hclosed hidle
      rw [← List.append_assoc, run_concat]
      refine ⟨hclosed', hidle', ?_⟩
      rw [List.filter_append, hsame, hnone, List.append_nil]
  exact hstays.2.2

end Actor

/-! ### What a session reports -/

namespace Service

variable {κ ω : Type}

/-- What whoever asks a session gets to know: a failure of any kind is a result that bears the
failure's message, and a success is one that holds what has come of it. -/
inductive Reports (service : Service κ ω) (session : Option (Session κ)) (w : ω) :
    Call → Reply → Prop where
  | refused (params : InitParams) (e : CompileError)
    (hconfig : ProjectConfig.ofInit params.project params.library = .error e) :
    Reports service session w (.init params) (.init (.error e.message))
  | uncracked (params : InitParams) (config : ProjectConfig) (f : Failure) (w' : ω)
    (hconfig : ProjectConfig.ofInit params.project params.library = .ok config)
    (hcrack : service.backend.crack config w = (.error f, w')) :
    Reports service session w (.init params) (.init (.error f.message))
  | unmade (params : InitParams) (config : ProjectConfig) (project : ResolvedProject) (f : Failure)
    (w₁ w' : ω) (hconfig : ProjectConfig.ofInit params.project params.library = .ok config)
    (hcrack : service.backend.crack config w = (.ok project, w₁))
    (hcreate : service.backend.createChecker project w₁ = (.error f, w')) :
    Reports service session w (.init params) (.init (.error f.message))
  | unbuilt (params : InitParams) (config : ProjectConfig) (project : ResolvedProject)
    (checker : κ) (f : Failure) (w₁ w₂ : ω) (b : Workbench κ ω)
    (hconfig : ProjectConfig.ofInit params.project params.library = .ok config)
    (hcrack : service.backend.crack config w = (.ok project, w₁))
    (hcreate : service.backend.createChecker project w₁ = (.ok checker, w₂))
    (hcompile : service.backend.compileProject ⟨service.resolver, config, project⟩
      ⟨.ofFiles project.sourceFiles, checker, w₂⟩ = (.error f, b)) :
    Reports service session w (.init params) (.init (.error f.message))
  | built (params : InitParams) (config : ProjectConfig) (project : ResolvedProject)
    (checker : κ) (output : Output) (w₁ w₂ : ω) (b : Workbench κ ω)
    (hconfig : ProjectConfig.ofInit params.project params.library = .ok config)
    (hcrack : service.backend.crack config w = (.ok project, w₁))
    (hcreate : service.backend.createChecker project w₁ = (.ok checker, w₂))
    (hcompile : service.backend.compileProject ⟨service.resolver, config, project⟩
      ⟨.ofFiles project.sourceFiles, checker, w₂⟩ = (.ok output, b)) :
    Reports service session w (.init params) (.init (.success ⟨project, output⟩))
  | idle (params : CompileParams) (hnone : session = none) :
    Reports service session w (.compile params) (.compile (.error noSession))
  | uncompiled (params : CompileParams) (s : Session κ) (f : Failure) (b : Workbench κ ω)
    (hsome : session = some s)
    (hcompile : service.backend.compileFile (s.job service) (Path.normalize params.fileName)
      ⟨.ofFiles s.sources, s.checker, w⟩ = (.error f, b)) :
    Reports service session w (.compile params) (.compile (.error f.message))
  | compiled (params : CompileParams) (s : Session κ) (output : Output) (b : Workbench κ ω)
    (hsome : session = some s)
    (hcompile : service.backend.compileFile (s.job service) (Path.normalize params.fileName)
      ⟨.ofFiles s.sources, s.checker, w⟩ = (.ok output, b)) :
    Reports service session w (.compile params) (.compile (.success ⟨output⟩))

variable {service : Service κ ω} {session session' : Option (Session κ)} {w w' : ω}
  {scene : Scene κ} {params : Call} {message : Message} {answer : Answer}

theorem Plays.reports (h : service.Plays session w scene session' w')
    (hm : params.message? = some scene.message) (hanswer : scene.answer = some answer) :
    service.Reports session w params answer.toReply := by
  cases params with
  | ping p => cases hm
  | init p =>
    cases h with
    | refused p e hconfig =>
      cases hm
      cases hanswer
      exact .refused p e hconfig
    | uncracked p config f w' hconfig hcrack =>
      cases hm
      cases hanswer
      exact .uncracked p config f w' hconfig hcrack
    | unmade p config project f w₁ w' hconfig hcrack hcreate =>
      cases hm
      cases hanswer
      exact .unmade p config project f w₁ w' hconfig hcrack hcreate
    | failed p config project checker f w₁ w₂ b hconfig hcrack hcreate hcompile =>
      cases hm
      cases hanswer
      exact .unbuilt p config project checker f w₁ w₂ b hconfig hcrack hcreate hcompile
    | opened p config project checker output w₁ w₂ b hconfig hcrack hcreate hcompile =>
      cases hm
      cases hanswer
      exact .built p config project checker output w₁ w₂ b hconfig hcrack hcreate hcompile
    | _ => cases hm
  | compile p =>
    cases h with
    | idle path hnone =>
      cases hm
      cases hanswer
      exact .idle p hnone
    | compiled path s result b hsome hcompile =>
      cases hm
      cases hanswer
      cases result with
      | error f => exact .uncompiled p s f b hsome hcompile
      | ok output => exact .compiled p s output b hsome hcompile
    | _ => cases hm

theorem reports_of_handle (hm : params.message? = some message)
    (hanswer : (service.handle session w message).1 = some answer) :
    service.Reports session w params answer.toReply := by
  obtain ⟨scene, session', w', rfl, hplays⟩ := exists_plays service session w message
  rw [hplays.handled] at hanswer
  exact hplays.reports hm hanswer

end Service

/-! ### Lines and messages -/

namespace Incoming

variable {line : String}

theorem parse_of_request {q : Request} (h : ofLine line = .request q) :
    Request.parse (Text.trimmed line) = .ok q := by
  simp only [ofLine] at h
  split at h
  · cases h
  · split at h
    · rename_i hparse
      cases h
      exact hparse
    · cases h

theorem parse_of_refused {r : Response} (h : ofLine line = .refused r) :
    ∃ fault text, Request.parse (Text.trimmed line) = .error fault ∧
      r = .rpc (idOf (Text.trimmed line)) Response.parseError text := by
  simp only [ofLine] at h
  split at h
  · cases h
  · split at h
    · cases h
    · rename_i fault hparse
      exact ⟨fault, _, hparse, (refused.inj h).symm⟩

end Incoming

theorem Call.method_ne_ping {params : Call} {message : Message}
    (h : params.message? = some message) : params.method ≠ .ping := by
  cases params with
  | ping p => cases h
  | _ => exact nofun

/-! ### Whom the keeper is asked for -/

/-- The message that an inquiry puts to the keeper. -/
def Inquiry.Asks (x : Inquiry) (message : Message) : Prop :=
  ∃ q, Incoming.ofLine x.line = .request q ∧ q.call.message? = some message

theorem Inquiry.Asks.eq {x : Inquiry} {message : Message} {q : Request} (h : x.Asks message)
    (hq : Incoming.ofLine x.line = .request q) : q.call.message? = some message := by
  obtain ⟨q', hq', hm⟩ := h
  obtain rfl := Incoming.request.inj (hq.symm.trans hq')
  exact hm

namespace Conversation

open Actor (called endingsOf)

variable {κ ω : Type} {service : Service κ ω} {capacity : Nat} {w : ω}
  {keeper : List (Actor.Event ω)} {s : Conversation κ ω} {read : List Inquiry} {x : Inquiry}
  {r : Response}

/-- What the keeper and those who call it go through with an event. -/
def attending (s : Conversation κ ω) : Visit ω → List (Actor.Event ω)
  | .ask call => (s.letter? call).toList.map .call
  | .keeper (.call l) => [.call ⟨s.calls, l.message⟩]
  | .keeper (.leave call) =>
    if call ∈ s.asked ∧ s.connection.ended = false then [] else [.leave call]
  | .keeper e => [e]
  | _ => []

/-- All that they go through along a run. -/
def attended (service : Service κ ω) (s : Conversation κ ω) (events : List (Visit ω)) :
    List (Actor.Event ω) :=
  notesOf (visit service) attending s events

theorem attended_concat (service : Service κ ω) (s : Conversation κ ω) (events : List (Visit ω))
    (e : Visit ω) : s.attended service (events ++ [e]) =
      s.attended service events ++ (s.visitAll service events).attending e :=
  notesOf_concat _ _ _ _ _

theorem reading_line (s : Conversation κ ω) (text : Option String) :
    s.reading (.line text) = [] ∨ ∃ line, s.reading (.line text) = [⟨s.calls, line⟩] := by
  simp only [reading]
  cases text with
  | none => exact .inl rfl
  | some line =>
    simp only [Connection.taken, Inquiry.ofLine]
    split
    · exact .inl rfl
    · split
      · exact .inl rfl
      · exact .inr ⟨line, rfl⟩

/-- The inquiries have numbers of their own, and a call that goes by the number of one is about what
that one asks. -/
structure Consulted (service : Service κ ω) (capacity : Nat) (w : ω)
    (keeper : List (Actor.Event ω)) (read : List Inquiry) (s : Conversation κ ω) : Prop where
  keeping : Keeping service capacity w keeper [] s.calls s.asked s.actor s.ended
  numbers : (read.map (·.call)).Nodup
  below : ∀ x ∈ read, x.call < s.calls
  own : ∀ l ∈ called keeper, ∀ x ∈ read, x.call = l.call → x.call ∈ s.asked ∧ x.Asks l.message

namespace Consulted

theorem opened (service : Service κ ω) (capacity : Nat) (w : ω) :
    Consulted service capacity w [] [] (opened capacity w) :=
  ⟨.spawn, .nil, nofun, nofun⟩

theorem line (h : Consulted service capacity w keeper read s) (text : Option String) :
    Consulted service capacity w keeper (read ++ s.reading (.line text)) (s.readLine text) := by
  have hlater : Consulted service capacity w keeper read (s.readLine text) := by
    constructor
    case keeping =>
      exact { h.keeping with
        below := fun l hl => Nat.lt_succ_of_lt (h.keeping.below l hl)
        own := fun _ _ _ => nofun }
    case numbers => exact h.numbers
    case below =>
      intro x hx
      exact Nat.lt_succ_of_lt (h.below x hx)
    case own => exact h.own
  rcases s.reading_line text with hnone | ⟨line, hone⟩
  · rw [hnone, List.append_nil]
    exact hlater
  · rw [hone]
    constructor
    case keeping => exact hlater.keeping
    case numbers =>
      rw [List.map_append]
      apply h.numbers.append (List.nodup_singleton _)
      apply List.disjoint_singleton.2
      intro hold
      obtain ⟨x, hx, hcall⟩ := List.mem_map.1 hold
      exact Nat.lt_irrefl _ (hcall ▸ h.below x hx)
    case below =>
      intro x hx
      rcases List.mem_append.1 hx with hx | hx
      · exact hlater.below x hx
      · exact List.mem_singleton.1 hx ▸ Nat.lt_succ_self _
    case own =>
      intro l hl x hx hcall
      rcases List.mem_append.1 hx with hx | hx
      · exact h.own l hl x hx hcall
      · rw [List.mem_singleton.1 hx] at hcall
        exact absurd (h.keeping.below l hl) (hcall ▸ Nat.lt_irrefl _)

theorem serve (h : Consulted service capacity w keeper read s) (e : Connection.Event) :
    Consulted service capacity w keeper read (s.serve e) :=
  { h with keeping := { h.keeping with } }

/-- A call that does not go by the number of an inquiry, or is about what that one asks. -/
theorem call (h : Consulted service capacity w keeper read s) {l : Letter} {calls : Nat}
    {asked : List Nat} (hcalls : s.calls ≤ calls) (hasked : s.asked ⊆ asked)
    (hfresh : l.call ∉ (called keeper).map (·.call)) (hbelow : l.call < calls)
    (hown : ∀ x ∈ read, x.call = l.call → x.call ∈ asked ∧ x.Asks l.message) :
    Consulted service capacity w (keeper ++ [.call l]) read
      { s.keep service (.call l) with calls, asked } where
  keeping := h.keeping.call hcalls hasked hfresh hbelow fun _ => nofun
  numbers := h.numbers
  below := fun x hx => Nat.lt_of_lt_of_le (h.below x hx) hcalls
  own := by
    intro l' hl' x hx hcall
    have hcalled : called (keeper ++ [.call l]) = called keeper ++ [l] := List.filterMap_append
    rw [hcalled] at hl'
    rcases List.mem_append.1 hl' with hold | hnew
    · exact (h.own l' hold x hx hcall).imp_left fun hin => hasked hin
    · rw [List.mem_singleton.1 hnew] at hcall ⊢
      exact hown x hx hcall

theorem keep (h : Consulted service capacity w keeper read s) {e : Actor.Event ω}
    (he : called [e] = []) :
    Consulted service capacity w (keeper ++ [e]) read (s.keep service e) where
  keeping := h.keeping.step he
  numbers := h.numbers
  below := h.below
  own := by
    have hcalled : called (keeper ++ [e]) = called keeper :=
      List.filterMap_append.trans (by rw [← called, ← called, he, List.append_nil])
    rw [hcalled]
    exact h.own

/-- A task asks for the inquiry that it is there for, and it asks once. -/
theorem ask (h : Consulted service capacity w keeper read s) (hpaired : Paired read s)
    (call : Nat) : Consulted service capacity w (keeper ++ s.attending (.ask call)) read
      (s.ask service call) := by
  simp only [attending, Conversation.ask]
  cases hl : s.letter? call with
  | none =>
    rw [Option.toList_none, List.map_nil, List.append_nil]
    exact h
  | some l =>
    obtain ⟨t, ht, hcall, hunasked, hletter, hm⟩ := letter?_eq_some hl
    obtain ⟨replies, begun, lost, hmatched⟩ := hpaired
    rw [← hmatched.tasks] at ht
    obtain ⟨⟨x, t'⟩, hbegun, rfl⟩ := List.mem_map.1 ht
    obtain ⟨hx, hrequest⟩ := hmatched.asking _ hbegun
    have hread : x ∈ read := by
      apply hmatched.perm.mem_iff.2
      apply List.mem_append_left
      exact List.mem_append_right _ (List.mem_map_of_mem hbegun)
    have hnumber : x.call = l.call := by rw [hletter, ← hcall, hx]
    have hnot : l.call ∉ s.asked := by
      intro hasked
      rw [hletter, ← hcall] at hasked
      simp [unasked, hasked] at hunasked
    refine h.call (Nat.le_refl _) (List.subset_cons_self _ _) ?_ ?_ ?_
    · intro hmem
      obtain ⟨l', hl', hsame⟩ := List.mem_map.1 hmem
      have hasked := (h.own l' hl' x hread (hnumber.trans hsame.symm)).1
      exact hnot (hnumber ▸ hasked)
    · exact hnumber ▸ h.below x hread
    · intro y hy hsame
      obtain rfl := List.inj_on_of_nodup_map h.numbers hy hread (hsame.trans hnumber.symm)
      exact ⟨by rw [hsame, hletter]; exact List.mem_cons_self, t'.request, hrequest, hm⟩

theorem attend (h : Consulted service capacity w keeper read s) (e : Actor.Event ω) :
    Consulted service capacity w (keeper ++ s.attending (.keeper e)) read
      (s.visit service (.keeper e)) := by
  cases e with
  | call l =>
    refine h.call (Nat.le_succ _) (List.Subset.refl _) ?_ (Nat.lt_succ_self _) ?_
    · intro hmem
      obtain ⟨l', hl', hsame⟩ := List.mem_map.1 hmem
      exact Nat.lt_irrefl _ (hsame ▸ h.keeping.below l' hl')
    · intro x hx hsame
      exact absurd (h.below x hx) (hsame ▸ Nat.lt_irrefl _)
  | leave call =>
    simp only [attending, visit]
    split
    · rw [List.append_nil]
      exact h
    · exact h.keep rfl
  | _ => exact h.keep rfl

theorem visit (h : Consulted service capacity w keeper read s) (hpaired : Paired read s)
    (e : Visit ω) : Consulted service capacity w (keeper ++ s.attending e) (read ++ s.reading e)
      (s.visit service e) := by
  have hquiet {s' : Conversation κ ω} (h' : Consulted service capacity w keeper read s')
      (hattending : s.attending e = []) (hreading : s.reading e = []) :
      Consulted service capacity w (keeper ++ s.attending e) (read ++ s.reading e) s' := by
    rw [hattending, hreading, List.append_nil, List.append_nil]
    exact h'
  cases e with
  | line text => exact (List.append_nil keeper).symm ▸ h.line text
  | ask call => exact (List.append_nil read).symm ▸ h.ask hpaired call
  | keeper e => exact (List.append_nil read).symm ▸ h.attend e
  | close => exact hquiet (h.serve .close) rfl rfl
  | hangUp => exact hquiet (h.serve .hangUp) rfl rfl
  | done call =>
    have hdone : Consulted service capacity w keeper read (s.finish call) := by
      rcases s.finish_cases call with hsame | ⟨t, ending, -, hdone, -⟩
      · rw [hsame]
        exact h
      · rw [hdone]
        exact h.serve _
    exact hquiet hdone rfl rfl
  | write => exact hquiet { h.serve .write with } rfl rfl

end Consulted

theorem consulted_of_run (service : Service κ ω) (capacity : Nat) (w : ω)
    (events : List (Visit ω)) :
    Consulted service capacity w ((opened capacity w).attended service events)
      ((opened capacity w).inquiries service events)
      ((opened capacity w).visitAll service events) := by
  induction events using List.reverseRecOn with
  | nil => exact .opened service capacity w
  | append_singleton events e ih =>
    rw [visitAll_concat, attended_concat, inquiries_concat]
    exact ih.visit (paired_of_run service capacity w events) e

/-! ### Levels -/

section

variable (service : Service κ ω) (capacity : Nat) (w : ω) (keeper : List (Actor.Event ω))

/-- The keeper has stopped without an answer to the call, and will not answer it whatever comes. -/
def Unheard (call : Nat) : Prop :=
  ((Actor.spawn capacity w).run service keeper).1.isStopped = true ∧
    ∀ more answer, (call, Ending.answered answer) ∉
      ((Actor.spawn capacity w).run service (keeper ++ more)).2

/-- What a request is granted: a ping what it brings along, whatever the keeper does, and any other
one what the session reports in its turn, which is how its call ends. -/
inductive Granted (call : Nat) : Call → Reply → Prop where
  | ping (p : PingParams) : Granted call (.ping p) (.ping (PingResult.replyTo p))
  | served {params : Call} {message : Message} {answer : Answer} {before after : List (Turn ω)}
    (hm : params.message? = some message)
    (hturns : (Actor.spawn capacity w).turns service keeper =
      before ++ .handle ⟨call, message⟩ :: after)
    (hended : endingsOf call ((Actor.spawn capacity w).run service keeper).2 = [.answered answer])
    (hreports : service.Reports (service.state (none, w) before).1
      (service.state (none, w) before).2 params answer.toReply) :
    Granted call params answer.toReply

/-- The level on which a response answers an inquiry. -/
structure Leveled (x : Inquiry) (r : Response) : Prop where
  refused : (∃ text, r.body = .error (.rpc Response.parseError text)) ↔
    ∃ fault, Request.parse (Text.trimmed x.line) = .error fault
  gone : (∃ text, r.body = .error (.rpc Response.sessionGone text)) ↔
    ∃ q, Request.parse (Text.trimmed x.line) = .ok q ∧ q.call.method ≠ .ping ∧
      Unheard service capacity w keeper x.call
  granted : ∀ q, Request.parse (Text.trimmed x.line) = .ok q →
    (q.call.method = .ping ∨ ¬ Unheard service capacity w keeper x.call) →
    ∃ reply, r = ⟨q.id, .ok reply⟩ ∧ reply.method = q.call.method ∧
      Granted service capacity w keeper x.call q.call reply

end

namespace Leveled

variable {q : Request} {reply : Reply}

theorem of_refused (h : Incoming.ofLine x.line = .refused r) :
    Leveled service capacity w keeper x r := by
  obtain ⟨fault, text, hparse, rfl⟩ := Incoming.parse_of_refused h
  constructor
  case refused => exact ⟨fun _ => ⟨fault, hparse⟩, fun _ => ⟨text, rfl⟩⟩
  case gone =>
    constructor
    · rintro ⟨text', hbody⟩
      cases hbody
    · rintro ⟨q, hq, -⟩
      cases hparse.symm.trans hq
  case granted =>
    intro q hq
    cases hparse.symm.trans hq

theorem of_reply (hq : Request.parse (Text.trimmed x.line) = .ok q)
    (hheard : q.call.method = .ping ∨ ¬ Unheard service capacity w keeper x.call)
    (hmethod : reply.method = q.call.method)
    (hgranted : Granted service capacity w keeper x.call q.call reply) :
    Leveled service capacity w keeper x ⟨q.id, .ok reply⟩ := by
  constructor
  case refused =>
    constructor
    · rintro ⟨text, hbody⟩
      cases hbody
    · rintro ⟨fault, hfault⟩
      cases hq.symm.trans hfault
  case gone =>
    constructor
    · rintro ⟨text, hbody⟩
      cases hbody
    · rintro ⟨q', hq', hping, hunheard⟩
      cases hq.symm.trans hq'
      exact absurd hunheard (hheard.resolve_left hping)
  case granted =>
    intro q' hq' _
    cases hq.symm.trans hq'
    exact ⟨reply, rfl, hmethod, hgranted⟩

theorem of_gone (hq : Request.parse (Text.trimmed x.line) = .ok q) (hping : q.call.method ≠ .ping)
    (hunheard : Unheard service capacity w keeper x.call) :
    Leveled service capacity w keeper x (.rpc q.id Response.sessionGone goneText) := by
  constructor
  case refused =>
    constructor
    · rintro ⟨text, hbody⟩
      cases hbody
    · rintro ⟨fault, hfault⟩
      cases hq.symm.trans hfault
  case gone => exact ⟨fun _ => ⟨q, hq, hping, hunheard⟩, fun _ => ⟨goneText, rfl⟩⟩
  case granted =>
    intro q' hq' hheard
    cases hq.symm.trans hq'
    exact (hheard.elim hping (absurd hunheard)).elim

end Leveled

namespace Consulted

variable {q : Request} {message : Message} {ending : Ending}

/-- A call to the keeper ends with the answer of its own turn, or because the keeper has stopped. -/
theorem leveled_told (h : Consulted service capacity w keeper read s) (hx : x ∈ read)
    (hline : Incoming.ofLine x.line = .request q) (hm : q.call.message? = some message)
    (htold : (x.call, ending) ∈ s.ended) :
    Leveled service capacity w keeper x (q.respond (some ending)) := by
  have hq := Incoming.parse_of_request hline
  have hrun : (x.call, ending) ∈ ((Actor.spawn capacity w).run service keeper).2 := by
    rwa [h.keeping.run]
  obtain ⟨l, hl, hcall⟩ := Actor.called_of_ended hrun
  obtain ⟨-, hasks⟩ := h.own l hl x hx hcall.symm
  obtain rfl : message = l.message := Option.some.inj (hm.symm.trans (hasks.eq hline))
  have hnumbers := h.keeping.numbers
  rw [← hcall] at hrun
  by_cases hserved : l ∈ lettersOf ((Actor.spawn capacity w).turns service keeper)
  · obtain ⟨turn, hturn, hletter⟩ := List.mem_filterMap.1 hserved
    obtain ⟨before, after, hturns⟩ := List.append_of_mem hturn
    cases turn with
    | edit change => cases hletter
    | handle l' =>
      obtain rfl := Option.some.inj hletter
      obtain ⟨answer, hreply, hendings⟩ := Actor.endingsOf_served hnumbers hturns
      have hin := Actor.mem_endingsOf.2 hrun
      rw [hendings, List.mem_singleton] at hin
      subst hin
      rw [Request.respond_answered hm]
      have hanswer := (Service.answer_of_reply hreply).2
      have hmethod := Service.method_of_reply hm hreply
      have hgranted : Granted service capacity w keeper x.call q.call answer.toReply := by
        rw [← hcall]
        exact .served hm hturns hendings (Service.reports_of_handle hm hanswer)
      refine .of_reply hq (.inr fun hunheard => ?_) hmethod hgranted
      have hnever := hunheard.2 [] answer
      rw [List.append_nil, ← hcall] at hnever
      exact hnever hrun
  · obtain ⟨rfl, hendings, hstopped⟩ :=
      Actor.gone_of_ended hnumbers hl (Call.message_ne_disconnect hm) hserved hrun
    rw [Request.respond_gone hm]
    apply Leveled.of_gone hq (Call.method_ne_ping hm)
    refine ⟨hstopped, fun more answer hmem => ?_⟩
    have hanswered : (l.call, Ending.answered answer) ∈
        ((Actor.spawn capacity w).run service (keeper ++ more)).2.filter (·.2.isAnswer) :=
      List.mem_filter.2 ⟨hcall ▸ hmem, rfl⟩
    rw [Actor.answers_of_stopped hstopped] at hanswered
    have hin := Actor.mem_endingsOf.2 (List.mem_of_mem_filter hanswered)
    rw [hendings, List.mem_singleton] at hin
    cases hin

theorem leveled (h : Consulted service capacity w keeper read s) (hx : x ∈ read)
    (hreply : x.Reply (fun call ending => (call, ending) ∈ s.ended) r) :
    Leveled service capacity w keeper x r := by
  cases hreply with
  | refused hline => exact .of_refused hline
  | @plain q hline hm =>
    obtain ⟨id, params⟩ := q
    cases params with
    | ping p => exact .of_reply (Incoming.parse_of_request hline) (.inl rfl) rfl (.ping p)
    | _ => cases hm
  | told hline hm htold => exact h.leveled_told hx hline hm htold

end Consulted

/-- How a front answers a peer. -/
structure Reported (service : Service κ ω) (capacity : Nat) (w : ω) (events : List (Visit ω))
    (s : Conversation κ ω) : Prop where
  /-- The keeper has been through this, with its callers from elsewhere. -/
  run : (Actor.spawn capacity w).run service ((opened capacity w).attended service events) =
    (s.actor, s.ended)
  distinct : (((opened capacity w).inquiries service events).map (·.call)).Nodup
  /-- Each response is to an inquiry of its own, and on the right level. -/
  responses : ∃ (replies : List (Inquiry × Response)) (unanswered : List Inquiry),
    ((opened capacity w).inquiries service events).Perm (replies.map (·.1) ++ unanswered) ∧
    replies.map (·.2) = s.connection.sent ++ s.connection.outbox ∧
    ∀ y ∈ replies, Leveled service capacity w ((opened capacity w).attended service events) y.1 y.2
  /-- A ping is done whatever the keeper does, and whatever calls to it have ended. -/
  pings : ∀ call t p, s.connection.tasks.find? (·.call == call) = some t →
    t.request.call = .ping p → ∀ (actor : Actor κ ω) ended,
    ({ s with actor, ended }.finish call).connection = s.connection.step (.done call none)

/-- Whatever comes in, whatever the session is and however the keeper goes on or stops, each failure
is told on its own level. -/
theorem reported_of_run (service : Service κ ω) (capacity : Nat) (w : ω)
    (events : List (Visit ω)) :
    Reported service capacity w events ((opened capacity w).visitAll service events) := by
  have hconsulted := consulted_of_run service capacity w events
  obtain ⟨replies, begun, lost, hmatched⟩ := paired_of_run service capacity w events
  constructor
  case run => exact hconsulted.keeping.run
  case distinct => exact hconsulted.numbers
  case responses =>
    have hperm := hmatched.perm
    rw [List.append_assoc] at hperm
    refine ⟨replies, _, hperm, hmatched.responses, fun y hy => ?_⟩
    have hread : y.1 ∈ (opened capacity w).inquiries service events :=
      hperm.mem_iff.2 (List.mem_append_left _ (List.mem_map_of_mem hy))
    exact hconsulted.leveled hread (hmatched.due y hy)
  case pings =>
    intro call t p ht hcall actor ended
    have hm : t.request.call.message? = none := by rw [hcall]; rfl
    simp only [finish, ht, hm]
    rfl

end Conversation

end WarmCompile
