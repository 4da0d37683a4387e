import WarmCompile.Proofs.Notes
import WarmCompile.Proofs.Session.Fresh
import WarmCompile.Proofs.Session.Scene

/-!
What replies have told of the files of a session. A file is compiled along with another one when its
content is not the one last told, be there somebody to be told or not: what has been told to a
caller who had gone is not told to another.
-/

namespace WarmCompile

/-! ### Ledgers -/

/-- Which content of a file was last told of: by any reply, and by one that was received. -/
structure Ledger where
  told : String → Option String
  received : String → Option String

namespace Ledger

def empty : Ledger :=
  ⟨fun _ => none, fun _ => none⟩

/-- A reply tells of files what has been read of them. -/
def tell (g : Ledger) (out : Output) (held : Table String) (taken : Bool) : Ledger where
  told path := if (out.find? path).isSome then held.find? path else g.told path
  received path := if taken && (out.find? path).isSome then held.find? path else g.received path

/-- The ledger behind an answer; a project compile that succeeds begins a new one. -/
def after (g : Ledger) (answer : Option Answer) (held : Table String) (taken : Bool) : Ledger :=
  match answer with
  | some (.init (.ok (_, out))) => empty.tell out held taken
  | some (.compile (.ok out)) => g.tell out held taken
  | _ => g

theorem tell_taken {g : Ledger} (h : g.received = g.told) (out : Output) (held : Table String) :
    (g.tell out held true).received = (g.tell out held true).told := by
  simp only [tell, h, Bool.true_and]

theorem after_taken {g : Ledger} (h : g.received = g.told) {answer : Option Answer}
    {held : Table String} :
    (g.after answer held true).received = (g.after answer held true).told := by
  unfold after
  split
  · exact tell_taken rfl _ _
  · exact tell_taken h _ _
  · exact h

end Ledger

namespace Service

variable {κ ω : Type}

/-- The sources as they are read for a message. -/
def readings (service : Service κ ω) (s : Option (Session κ) × ω) : Message → Table String
  | .init params =>
    match ProjectConfig.ofInit params.project params.library with
    | .error _ => .empty
    | .ok config =>
      match service.backend.crack config s.2 with
      | (.error _, _) => .empty
      | (.ok project, w) =>
        match service.backend.createChecker project w with
        | (.error _, _) => .empty
        | (.ok checker, w) =>
          (service.backend.compileProject ⟨service.resolver, config, project⟩
            ⟨.ofFiles project.sourceFiles, checker, w⟩).2.sources.held
  | .compile path =>
    match s.1 with
    | none => .empty
    | some session =>
      (service.backend.compileFile (session.job service) (Path.normalize path)
        ⟨.ofFiles session.sources, session.checker, s.2⟩).2.sources.held
  | .disconnect => .empty

theorem readings_init {service : Service κ ω} {session : Option (Session κ)} {params : InitParams}
    {config : ProjectConfig} {project : ResolvedProject} {checker : κ} {w w₁ w₂ : ω}
    {result : Except Failure Output} {b : Workbench κ ω}
    (hconfig : ProjectConfig.ofInit params.project params.library = .ok config)
    (hcrack : service.backend.crack config w = (.ok project, w₁))
    (hcreate : service.backend.createChecker project w₁ = (.ok checker, w₂))
    (hcompile : service.backend.compileProject ⟨service.resolver, config, project⟩
      ⟨.ofFiles project.sourceFiles, checker, w₂⟩ = (result, b)) :
    service.readings (session, w) (.init params) = b.sources.held := by
  simp only [readings, hconfig, hcrack, hcreate, hcompile]

theorem readings_compile {service : Service κ ω} {s : Session κ} {path : String} {w : ω}
    {result : Except Failure Output} {b : Workbench κ ω}
    (hcompile : service.backend.compileFile (s.job service) (Path.normalize path)
      ⟨.ofFiles s.sources, s.checker, w⟩ = (result, b)) :
    service.readings (some s, w) (.compile path) = b.sources.held := by
  simp only [readings, hcompile]

theorem session_of_compile {service : Service κ ω} {session : Option (Session κ)} {w : ω}
    {path : String} {out : Output}
    (h : (service.handle session w (.compile path)).1 = some (.compile (.ok out))) :
    ∃ s, session = some s := by
  cases session with
  | none => cases h
  | some s => exact ⟨s, rfl⟩

/-- The contents that are read in a turn. -/
def contentsOf (service : Service κ ω) (s : Option (Session κ) × ω) : Turn ω → List String
  | .handle l => (service.readings s l.message).entries.map (·.2)
  | .edit _ => []

def contents (service : Service κ ω) (s : Option (Session κ) × ω) (turns : List (Turn ω)) :
    List String :=
  notesOf service.advance service.contentsOf s turns

/-- A turn in the books; the mark says whether the caller was still there at its end. -/
def enter (service : Service κ ω) (s : Option (Session κ) × ω) (g : Ledger) :
    Turn ω × Bool → Ledger
  | (.handle l, taken) =>
    g.after (service.handle s.1 s.2 l.message).1 (service.readings s l.message) taken
  | (.edit _, _) => g

/-- The books behind turns. -/
def ledger (service : Service κ ω) (w : ω) (turns : List (Turn ω × Bool)) : Ledger :=
  (turns.foldl (fun x t => (service.advance x.1 t.1, service.enter x.1 x.2 t))
    ((none, w), .empty)).2

theorem contents_append (service : Service κ ω) (s : Option (Session κ) × ω)
    (turns turns' : List (Turn ω)) : service.contents s (turns ++ turns') =
      service.contents s turns ++ service.contents (service.state s turns) turns' :=
  notesOf_append _ _ _ _ _

theorem contents_concat (service : Service κ ω) (s : Option (Session κ) × ω)
    (turns : List (Turn ω)) (t : Turn ω) : service.contents s (turns ++ [t]) =
      service.contents s turns ++ service.contentsOf (service.state s turns) t :=
  notesOf_concat _ _ _ _ _

theorem ledger_concat (service : Service κ ω) (w : ω) (turns : List (Turn ω × Bool))
    (t : Turn ω × Bool) : service.ledger w (turns ++ [t]) =
      service.enter (service.state (none, w) (turns.map (·.1))) (service.ledger w turns) t := by
  have hstate (x : (Option (Session κ) × ω) × Ledger) :
      (turns.foldl (fun x t => (service.advance x.1 t.1, service.enter x.1 x.2 t)) x).1 =
        service.state x.1 (turns.map (·.1)) := by
    induction turns generalizing x with
    | nil => rfl
    | cons t turns ih => exact ih _
  simp only [ledger, List.foldl_append, List.foldl_cons, List.foldl_nil, hstate]

/-- While every caller is there, what has been told has been received. -/
theorem received_eq_told (service : Service κ ω) (w : ω) {turns : List (Turn ω × Bool)}
    (htaken : ∀ t ∈ turns, t.2 = true) :
    (service.ledger w turns).received = (service.ledger w turns).told := by
  induction turns using List.reverseRecOn with
  | nil => rfl
  | append_singleton turns t ih =>
    have hrest := ih fun t' ht' => htaken t' (List.mem_append_left _ ht')
    have hlast := htaken t (List.mem_append_right _ (List.mem_singleton_self t))
    rw [ledger_concat]
    rcases t with ⟨turn, taken⟩
    cases hlast
    cases turn with
    | handle l => exact Ledger.after_taken hrest
    | edit change => exact hrest

end Service

/-! ### What a fingerprint stands for -/

section

variable {δ ω : Type} {c : Compiler δ ω} {resolver : PathResolver}
  {contents : List String} {session session' : Option (Session (Table δ))} {g : Ledger}
  {w w' : ω} {scene : Scene (Table δ)}

/-- Each fingerprint of a session is that of the content that was last told of, whoever received
it. -/
structure Tracked (c : Compiler δ ω) (contents : List String)
    (session : Option (Session (Table δ))) (g : Ledger) : Prop where
  sources : ∀ s, session = some s → s.sources = s.project.sourceFiles
  fingerprints : ∀ s, session = some s → ∀ path,
    s.checker.find? path = (g.told path).map c.digest
  known : ∀ path content, g.told path = some content → content ∈ contents

theorem tracked_none (c : Compiler δ ω) : Tracked c [] none .empty where
  sources := by
    intro s hs
    cases hs
  fingerprints := by
    intro s hs
    cases hs
  known := by
    intro path content hg
    cases hg

theorem Tracked.mono (h : Tracked c contents session g) (more : List String) :
    Tracked c (contents ++ more) session g :=
  { h with known := fun path content hg => List.mem_append_left _ (h.known path content hg) }

open Compiler in
theorem Tracked.told {job : Job} {due : String → String → Bool} {paths : List String}
    {r r' : SourceReader} {done : List Delivered} {known : Table δ}
    (hd : c.Delivery job due paths r r' done) (taken : Bool)
    (hknown : ∀ path, known.find? path = (g.told path).map c.digest) {s : Session (Table δ)}
    (hsources : s.sources = s.project.sourceFiles) (hchecker : s.checker = c.record known done)
    (hcontents : ∀ path content, g.told path = some content → content ∈ contents) :
    Tracked c (contents ++ r'.held.entries.map (·.2)) (some s)
      (g.tell (outputOf done) r'.held taken) where
  sources := by
    rintro _ ⟨⟩
    exact hsources
  fingerprints := by
    rintro _ ⟨⟩ path
    rw [hchecker, hd.find?_record_eq, hknown, Ledger.tell]
    dsimp only
    split <;> rfl
  known := by
    intro path content hg
    simp only [Ledger.tell] at hg
    split at hg
    · exact List.mem_append_right _ (List.mem_map_of_mem (Table.find?_eq_some_iff.1 hg))
    · exact List.mem_append_left _ (hcontents path content hg)

open Compiler in
theorem Tracked.played [DecidableEq δ] (h : Tracked c contents session g)
    (hp : Service.Plays ⟨c.backend, resolver⟩ session w scene session' w') (taken : Bool) :
    let held := Service.readings ⟨c.backend, resolver⟩ (session, w) scene.message
    Tracked c (contents ++ held.entries.map (·.2)) session' (g.after scene.answer held taken) := by
  intro held
  cases hp with
  | opened params config project checker output w₁ w₂ b hconfig hcrack hcreate hcompile =>
    have hheld : held = b.sources.held := Service.readings_init hconfig hcrack hcreate hcompile
    cases hcreate
    obtain ⟨done, hd, rfl, hchecker⟩ := compile_of_ok (of_failing_ok hcompile)
    rw [hheld]
    exact .told hd taken (fun _ => rfl) rfl hchecker
      fun path content hg => (Option.some_ne_none content hg.symm).elim
  | compiled path s result b hsome hcompile =>
    subst hsome
    have hheld : held = b.sources.held := Service.readings_compile hcompile
    cases result with
    | error f =>
      -- A compile that fails tells nobody anything, and leaves every fingerprint as it was.
      obtain ⟨e, he⟩ := of_failing_error hcompile
      have hsame : ({ s with checker := b.checker } : Session (Table δ)) = s := by
        rw [checker_of_compileFile_error he]
      rw [hsame]
      exact h.mono _
    | ok output =>
      obtain ⟨done, hd, rfl, hchecker⟩ := compileFile_of_ok (of_failing_ok hcompile)
      rw [hheld]
      exact .told hd taken (h.fingerprints s rfl) (h.sources s rfl) hchecker h.known
  | _ => exact h.mono _

theorem tracked_of_turns [DecidableEq δ] (w : ω) (turns : List (Turn ω × Bool)) :
    let service : Service (Table δ) ω := ⟨c.backend, resolver⟩
    Tracked c (service.contents (none, w) (turns.map (·.1)))
      (service.state (none, w) (turns.map (·.1))).1 (service.ledger w turns) := by
  intro service
  induction turns using List.reverseRecOn with
  | nil => exact tracked_none c
  | append_singleton turns t ih =>
    rw [List.map_append, service.ledger_concat, Service.state_append]
    simp only [List.map_cons, List.map_nil, service.contents_concat]
    cases t with
    | mk turn taken =>
      cases turn with
      | handle l =>
        exact ih.played (Service.plays_scene service _ _ l.message) taken
      | edit change => exact ih.mono []

end

/-! ### What goes out with a file compile -/

/-- The code of what is read goes out for the files that are due, and for no others. -/
def Tells (emission : String → String → Except CompileError String) (files : List String)
    (held : Table String) (out : Output) (due : String → String → Prop) : Prop :=
  ∀ file ∈ files, ∃ content, held.find? file = some content ∧
    (due file content → ∃ code, emission file content = .ok code ∧ out.find? file = some code) ∧
    (¬ due file content → out.find? file = none)

/-- The code of what is read goes out for every file that was something else, or nothing, to those
who have received. -/
def Complete (emission : String → String → Except CompileError String) (files : List String)
    (held : Table String) (out : Output) (received : String → Option String) : Prop :=
  ∀ file ∈ files, ∀ content, held.find? file = some content → received file ≠ some content →
    ∃ code, emission file content = .ok code ∧ out.find? file = some code

/-- What a reply tells of that the file compile `path` has brought about. -/
structure Updated (emission : String → String → Except CompileError String) (files : List String)
    (held : Table String) (out : Output) (g : Ledger) (path : String) : Prop where
  /-- The file asked for, and those that are not what was last told of, whoever has received it. -/
  tells : Tells emission files held out fun file content =>
    file = path ∨ g.told file ≠ some content
  /-- Something is missing as soon as one of the other files is what was last told of, but not what
  was last received. -/
  complete_iff : Complete emission files held out g.received ↔
    ∀ file ∈ files, ∀ content, held.find? file = some content → file ≠ path →
      g.told file = some content → g.received file = some content

section

variable {emission : String → String → Except CompileError String} {files : List String}
  {held : Table String} {out : Output} {due : String → String → Prop}
  {received : String → Option String} {g : Ledger} {path : String}

theorem Tells.complete_iff (h : Tells emission files held out due) :
    Complete emission files held out received ↔
      ∀ file ∈ files, ∀ content, held.find? file = some content → ¬ due file content →
        received file = some content := by
  constructor
  · intro hcomplete file hfile content hheld hnot
    apply Classical.byContradiction
    intro hmissed
    obtain ⟨code, -, hout⟩ := hcomplete file hfile content hheld hmissed
    obtain ⟨content', hheld', -, hquiet⟩ := h file hfile
    obtain rfl := Option.some.inj (hheld.symm.trans hheld')
    cases (hquiet hnot).symm.trans hout
  · intro hreceived file hfile content hheld hmissed
    obtain ⟨content', hheld', htold, -⟩ := h file hfile
    obtain rfl := Option.some.inj (hheld.symm.trans hheld')
    apply htold
    apply Classical.byContradiction
    intro hnot
    exact hmissed (hreceived file hfile content hheld hnot)

theorem updated_of_tells (h : Tells emission files held out fun file content =>
    file = path ∨ g.told file ≠ some content) : Updated emission files held out g path where
  tells := h
  complete_iff := by
    simp only [h.complete_iff, not_or, not_not, and_imp]

theorem Updated.complete (h : Updated emission files held out g path)
    (hreceived : g.received = g.told) : Complete emission files held out g.received :=
  h.complete_iff.2 fun _ _ _ _ _ htold => by rw [hreceived, htold]

end

section

variable {δ ω : Type} [DecidableEq δ] {c : Compiler δ ω} {resolver : PathResolver}
  {contents : List String} {session : Option (Session (Table δ))} {g : Ledger} {w : ω}
  {emission : Job → String → String → Except CompileError String}

open Compiler in
theorem Tracked.isStale_iff {s : Session (Table δ)} {more : List String} {file content : String}
    (h : Tracked c contents (some s) g) (hfree : c.CollisionFree (contents ++ more))
    (hread : content ∈ more) :
    c.isStale s.checker file content = true ↔ g.told file ≠ some content := by
  rw [isStale, bne_iff_ne, h.fingerprints s rfl]
  apply not_congr
  constructor
  · intro hdigest
    -- Both contents have been read, so their fingerprints would tell them apart.
    obtain ⟨last, hlast, hsame⟩ := Option.map_eq_some_iff.1 hdigest
    have hknown : last ∈ contents ++ more := List.mem_append_left _ (h.known file last hlast)
    rw [hlast, hfree last hknown content (List.mem_append_right _ hread) hsame]
  · intro htold
    rw [htold]
    rfl

open Compiler in
/-- A file compile tells of the file asked for, and of the files whose content is not the one last
told of. -/
theorem Tracked.tells {s : Session (Table δ)} {path : String} {out : Output}
    (h : Tracked c contents (some s) g)
    (hemit : ∀ job, job.resolver = resolver → c.Emits job (emission job))
    (hfree : c.CollisionFree (contents ++
      (Service.readings ⟨c.backend, resolver⟩ (some s, w) (.compile path)).entries.map (·.2)))
    (hok : (Service.handle ⟨c.backend, resolver⟩ (some s) w (.compile path)).1 =
      some (.compile (.ok out))) :
    Tells (emission (s.job ⟨c.backend, resolver⟩)) s.project.sourceFiles
      (Service.readings ⟨c.backend, resolver⟩ (some s, w) (.compile path)) out
      fun file content => file = Path.normalize path ∨ g.told file ≠ some content := by
  intro file hfile
  rcases hcompile : c.backend.compileFile (s.job ⟨c.backend, resolver⟩) (Path.normalize path)
    ⟨.ofFiles s.sources, s.checker, w⟩ with ⟨result, b⟩
  have hplays : Service.Plays ⟨c.backend, resolver⟩ (some s) w _ _ _ :=
    .compiled path s result b rfl hcompile
  have hread : Service.readings ⟨c.backend, resolver⟩ (some s, w) (.compile path) =
      b.sources.held := Service.readings_compile hcompile
  rw [hplays.handled] at hok
  rw [hread] at hfree ⊢
  cases result with
  | error f => cases hok
  | ok output =>
    cases hok
    obtain ⟨done, hd, rfl, -⟩ := compileFile_of_ok (of_failing_ok hcompile)
    obtain ⟨content, hheld, htold, hquiet⟩ := hd.find?_outputOf_iff (hemit _ rfl) hfile
    have hdue : (file == Path.normalize path || c.isStale s.checker file content) = true ↔
        file = Path.normalize path ∨ g.told file ≠ some content := by
      rw [Bool.or_eq_true, beq_iff_eq,
        h.isStale_iff hfree (List.mem_map_of_mem (Table.find?_eq_some_iff.1 hheld))]
    refine ⟨content, hheld, ?_, ?_⟩
    · intro h
      exact htold (hdue.2 h)
    · intro hnot
      apply hquiet
      rw [← Bool.not_eq_true]
      exact fun hstale => hnot (hdue.1 hstale)

end

/-! ### Callers that go away -/

namespace Actor

variable {κ ω : Type}

/-- The turn that is completed with an event, and whether its caller is there to receive the
reply. -/
def heeding (a : Actor κ ω) : Event ω → List (Turn ω × Bool)
  | .finish => (a.current.map fun l => (.handle l, !a.absent.contains l.call)).toList
  | .edit change => [(.edit change, true)]
  | _ => []

def heeded (service : Service κ ω) (a : Actor κ ω) (events : List (Event ω)) :
    List (Turn ω × Bool) :=
  notes heeding service a events

theorem turns_eq_heeded (service : Service κ ω) (a : Actor κ ω) (events : List (Event ω)) :
    (a.heeded service events).map (·.1) = a.turns service events := by
  have hnote (a : Actor κ ω) (e : Event ω) : (a.heeding e).map (·.1) = a.completing e := by
    cases e with
    | finish => cases hc : a.current <;> simp [heeding, completing, hc]
    | _ => rfl
  induction events generalizing a with
  | nil => rfl
  | cons e events ih =>
    have hrest := ih (a.step service e).1
    simp only [heeded, turns, notes, List.map_append, hnote] at hrest ⊢
    rw [hrest]

theorem Effect.absent {service : Service κ ω} {a a' : Actor κ ω} {e : Event ω} {more : Endings}
    (h : Effect service a e a' more) : a'.absent = (left [e]).reverse ++ a.absent := by
  cases h <;> rfl

theorem absent_of_run (service : Service κ ω) (capacity : Nat) (w : ω) (events : List (Event ω)) :
    ((spawn capacity w).run service events).1.absent = (left events).reverse := by
  induction events using List.reverseRecOn with
  | nil => rfl
  | append_singleton events e ih =>
    rw [run_concat, (effect_step service _ e).absent, ih]
    simp only [left, List.filterMap_append, List.reverse_append]

/-- A caller that never leaves receives the reply. -/
theorem heeded_of_stayed {service : Service κ ω} {capacity : Nat} {w : ω}
    {events : List (Event ω)} {t : Turn ω × Bool}
    (h : t ∈ (spawn capacity w).heeded service events)
    (hstayed : ∀ l, t.1 = .handle l → l.call ∉ left events) : t.2 = true := by
  induction events using List.reverseRecOn with
  | nil => cases h
  | append_singleton events e ih =>
    have hearlier (l : Letter) (hl : t.1 = .handle l) : l.call ∉ left events := by
      intro hleft
      apply hstayed l hl
      rw [left, List.filterMap_append]
      exact List.mem_append_left _ hleft
    rw [heeded, notes_concat, List.mem_append] at h
    rcases h with h | h
    · exact ih h hearlier
    · cases e with
      | finish =>
        obtain ⟨l, -, rfl⟩ := Option.map_eq_some_iff.1 (Option.mem_toList.1 h)
        simpa [absent_of_run] using hearlier l rfl
      | edit change =>
        obtain rfl := List.mem_singleton.1 h
        rfl
      | _ => cases h

section

variable {δ ω : Type} [DecidableEq δ] {c : Compiler δ ω} {resolver : PathResolver}
  {emission : Job → String → String → Except CompileError String}

/-- In every run, a file compile that succeeds tells of the files that are not what was last told
of. So it keeps back what has been told to callers who had gone; as long as nobody goes, nothing is
missing. -/
theorem updated_of_run (capacity : Nat) (w : ω) (events : List (Event ω))
    (hemit : ∀ job, job.resolver = resolver → c.Emits job (emission job))
    (hfree : c.CollisionFree (Service.contents ⟨c.backend, resolver⟩ (none, w)
      ((spawn capacity w).turns ⟨c.backend, resolver⟩ events)))
    {before after : List (Turn ω × Bool)} {l : Letter} {taken : Bool}
    (hheeded : (spawn capacity w).heeded ⟨c.backend, resolver⟩ events =
      before ++ (.handle l, taken) :: after)
    {path : String} (hmessage : l.message = .compile path) {out : Output}
    (hok : (l.call, .answered (.compile (.ok out))) ∈ Service.reply ⟨c.backend, resolver⟩
      (Service.state ⟨c.backend, resolver⟩ (none, w) (before.map (·.1))) (.handle l)) :
    let service : Service (Table δ) ω := ⟨c.backend, resolver⟩
    let found := service.state (none, w) (before.map (·.1))
    let held := service.readings found l.message
    let books := service.ledger w before
    ∃ s, found.1 = some s ∧
      Updated (emission (s.job service)) s.project.sourceFiles held out books
        (Path.normalize path) ∧
      ((∀ l' ∈ lettersOf (before.map (·.1)), l'.call ∉ left events) →
        Complete (emission (s.job service)) s.project.sourceFiles held out books.received) := by
  intro service found held books
  have hturns := turns_eq_heeded service (spawn capacity w) events
  rw [hheeded, List.map_append, List.map_cons] at hturns
  have htracked : Tracked c _ found.1 books := tracked_of_turns w before
  have hhandle : (service.handle found.1 found.2 (.compile path)).1 =
      some (.compile (.ok out)) := by
    simpa [Service.reply, hmessage] using hok
  obtain ⟨s, hs⟩ := Service.session_of_compile hhandle
  have hheld : held = service.readings (some s, found.2) (.compile path) := by
    rw [← hs, ← hmessage]
  rw [← hturns, service.contents_append] at hfree
  have hread : c.CollisionFree (service.contents (none, w) (before.map (·.1)) ++
      (service.readings (some s, found.2) (.compile path)).entries.map (·.2)) := by
    rw [← hheld]
    exact hfree.mono (List.append_subset.2 ⟨List.subset_append_left _ _,
      List.subset_append_of_subset_right _ (List.subset_append_left _ _)⟩)
  rw [hs] at htracked hhandle
  have hupdated := updated_of_tells (htracked.tells hemit hread hhandle)
  rw [← hheld] at hupdated
  refine ⟨s, hs, hupdated, ?_⟩
  intro hstayed
  apply hupdated.complete
  apply service.received_eq_told w
  intro t ht
  have hmem : t ∈ (spawn capacity w).heeded service events := by
    rw [hheeded]
    exact List.mem_append_left _ ht
  apply heeded_of_stayed hmem
  intro l' hl'
  exact hstayed l' (List.mem_filterMap.2 ⟨t.1, List.mem_map_of_mem ht, by rw [hl']; rfl⟩)

/-- The project is compiled and the file `/p/B.fs` edited. The caller of the next file compile goes
away while it is in hand; another caller then waits for the same compile. -/
def forsaken : List (Event (List (String × String))) :=
  [.call ⟨1, .init ⟨"/p/P.fsproj", "/lib"⟩⟩, .enter 1, .take, .finish,
    .edit fun files => ("/p/B.fs", "2") :: files,
    .call ⟨2, .compile "/p/A.fs"⟩, .enter 2, .take, .leave 2, .finish,
    .call ⟨3, .compile "/p/A.fs"⟩, .enter 3, .take, .finish]

/-- The turns ahead of the last one. -/
def beforehand : List (Turn (List (String × String)) × Bool) :=
  [(.handle ⟨1, .init ⟨"/p/P.fsproj", "/lib"⟩⟩, true),
    (.edit fun files => ("/p/B.fs", "2") :: files, true), (.handle ⟨2, .compile "/p/A.fs"⟩, false)]

theorem heeded_forsaken : (spawn 1 shelf).heeded echoService forsaken =
    beforehand ++ [(.handle ⟨3, .compile "/p/A.fs"⟩, true)] := by
  rfl

theorem compile_forsaken :
    let found := echoService.state (none, shelf) (beforehand.map (·.1))
    found.1.map (·.project.sourceFiles) = some ["/p/A.fs", "/p/B.fs"] ∧
    (echoService.readings found (.compile "/p/A.fs")).find? "/p/B.fs" = some "2" ∧
    (echoService.ledger shelf beforehand).received "/p/B.fs" = some "1" ∧
    echoService.reply found (.handle ⟨3, .compile "/p/A.fs"⟩) =
      [(3, .answered (.compile (.ok (.ofList [("/p/A.fs", "1")]))))] := by
  decide +kernel

theorem updated_of_run_forsaken :
    let emission (job : Job) := Compiler.echo.emissionOf job fun inv =>
      (Compiler.echo.host.run inv []).1
    let found := echoService.state (none, shelf) (beforehand.map (·.1))
    (∀ job, job.resolver = .plain → Compiler.echo.Emits job (emission job)) ∧
    Compiler.echo.CollisionFree (echoService.contents (none, shelf)
      ((spawn 1 shelf).turns echoService forsaken)) ∧
    (3, .answered (.compile (.ok (.ofList [("/p/A.fs", "1")])))) ∈
      echoService.reply found (.handle ⟨3, .compile "/p/A.fs"⟩) ∧
    ∃ s, found.1 = some s ∧ Updated (emission (s.job echoService)) s.project.sourceFiles
      (echoService.readings found (.compile "/p/A.fs")) (.ofList [("/p/A.fs", "1")])
      (echoService.ledger shelf beforehand) "/p/A.fs" := by
  intro emission found
  have hemit (job : Job) (hjob : job.resolver = .plain) :
      Compiler.echo.Emits job (emission job) := by
    apply Compiler.emits_of_deterministic
    · intro path
      rw [hjob]
      rfl
    · exact fun _ _ => rfl
  have hfree : Compiler.echo.CollisionFree (echoService.contents (none, shelf)
      ((spawn 1 shelf).turns echoService forsaken)) := by
    have htwo : Compiler.echo.CollisionFree ["1", "2"] := by decide +kernel
    apply htwo.mono
    rw [← turns_eq_heeded, heeded_forsaken]
    decide +kernel
  have hreply : (3, .answered (.compile (.ok (.ofList [("/p/A.fs", "1")])))) ∈
      echoService.reply found (.handle ⟨3, .compile "/p/A.fs"⟩) := by
    rw [compile_forsaken.2.2.2]
    exact List.mem_singleton_self _
  obtain ⟨s, hs, hupdated, -⟩ :=
    updated_of_run 1 shelf forsaken hemit hfree heeded_forsaken rfl hreply
  exact ⟨hemit, hfree, hreply, s, hs, hupdated⟩

/-- The caller of the last compile receives its reply, and does not learn of the edited file: its
new code went out to the caller who had gone. -/
theorem not_complete_forsaken :
    let emission (job : Job) := Compiler.echo.emissionOf job fun inv =>
      (Compiler.echo.host.run inv []).1
    let found := echoService.state (none, shelf) (beforehand.map (·.1))
    (spawn 1 shelf).heeded echoService forsaken =
      beforehand ++ [(.handle ⟨3, .compile "/p/A.fs"⟩, true)] ∧
    ∃ s out, found.1 = some s ∧
      (3, .answered (.compile (.ok out))) ∈
        echoService.reply found (.handle ⟨3, .compile "/p/A.fs"⟩) ∧
      ¬ Complete (emission (s.job echoService)) s.project.sourceFiles
        (echoService.readings found (.compile "/p/A.fs")) out
        (echoService.ledger shelf beforehand).received := by
  intro emission found
  obtain ⟨hfiles, hheld, hreceived, hreply⟩ := compile_forsaken
  obtain ⟨s, hs, hsources⟩ := Option.map_eq_some_iff.1 hfiles
  refine ⟨heeded_forsaken, s, _, hs, hreply ▸ List.mem_singleton_self _, ?_⟩
  intro hcomplete
  obtain ⟨code, -, hout⟩ := hcomplete "/p/B.fs" (by rw [hsources]; decide) "2" hheld
    (by rw [hreceived]; decide)
  cases hout

end

end Actor

end WarmCompile
