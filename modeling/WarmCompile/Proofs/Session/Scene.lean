import WarmCompile.Proofs.Session.Noted

/-!
Scenes: what each message comes to, with the calls of the backend that are made for it. A run is
told by its scenes, and taking note of the calls changes nothing in it.
-/

namespace WarmCompile

variable {κ ω : Type}

/-- What one message comes to. -/
structure Scene (κ : Type) where
  message : Message
  calls : List (BackendCall κ)
  answer : Option Answer

/-- Whether a project compile has succeeded and a session has come of it. -/
def Scene.opens (scene : Scene κ) : Bool :=
  match scene.answer with
  | some (.init (.ok _)) => true
  | _ => false

namespace Service

variable {service : Service κ ω} {session : Option (Session κ)} {w : ω} {m : Message}

def scene (service : Service κ ω) (s : Option (Session κ) × ω) (m : Message) : Scene κ where
  message := m
  calls := (service.noted.handle s.1 (s.2, []) m).2.2.2
  answer := (service.handle s.1 s.2 m).1

def scenes (service : Service κ ω) (s : Option (Session κ) × ω) : List (Turn ω) → List (Scene κ)
  | [] => []
  | .handle l :: turns =>
    service.scene s l.message :: service.scenes (service.advance s (.handle l)) turns
  | .edit change :: turns => service.scenes (service.advance s (.edit change)) turns

/-- All that can be played, from a session and its surroundings to those behind it. -/
inductive Plays (service : Service κ ω) (session : Option (Session κ)) (w : ω) :
    Scene κ → Option (Session κ) → ω → Prop where
  | refused (params : InitParams) (e : CompileError)
    (hconfig : ProjectConfig.ofInit params.project params.library = .error e) :
    Plays service session w ⟨.init params, [], some (.init (.error (Failure.error e).message))⟩
      session w
  | uncracked (params : InitParams) (config : ProjectConfig) (f : Failure) (w' : ω)
    (hconfig : ProjectConfig.ofInit params.project params.library = .ok config)
    (hcrack : service.backend.crack config w = (.error f, w')) :
    Plays service session w
      ⟨.init params, [.crack config (.error f)], some (.init (.error f.message))⟩ session w'
  | unmade (params : InitParams) (config : ProjectConfig) (project : ResolvedProject) (f : Failure)
    (w₁ w' : ω) (hconfig : ProjectConfig.ofInit params.project params.library = .ok config)
    (hcrack : service.backend.crack config w = (.ok project, w₁))
    (hcreate : service.backend.createChecker project w₁ = (.error f, w')) :
    Plays service session w
      ⟨.init params, [.crack config (.ok project), .createChecker project (.error f)],
        some (.init (.error f.message))⟩ session w'
  | failed (params : InitParams) (config : ProjectConfig) (project : ResolvedProject)
    (checker : κ) (f : Failure) (w₁ w₂ : ω) (b : Workbench κ ω)
    (hconfig : ProjectConfig.ofInit params.project params.library = .ok config)
    (hcrack : service.backend.crack config w = (.ok project, w₁))
    (hcreate : service.backend.createChecker project w₁ = (.ok checker, w₂))
    (hcompile : service.backend.compileProject ⟨service.resolver, config, project⟩
      ⟨.ofFiles project.sourceFiles, checker, w₂⟩ = (.error f, b)) :
    Plays service session w
      ⟨.init params, [.crack config (.ok project), .createChecker project (.ok checker),
        .compileProject ⟨service.resolver, config, project⟩ (.ofFiles project.sourceFiles) checker
          (.error f)], some (.init (.error f.message))⟩ session b.world
  | opened (params : InitParams) (config : ProjectConfig) (project : ResolvedProject)
    (checker : κ) (output : Output) (w₁ w₂ : ω) (b : Workbench κ ω)
    (hconfig : ProjectConfig.ofInit params.project params.library = .ok config)
    (hcrack : service.backend.crack config w = (.ok project, w₁))
    (hcreate : service.backend.createChecker project w₁ = (.ok checker, w₂))
    (hcompile : service.backend.compileProject ⟨service.resolver, config, project⟩
      ⟨.ofFiles project.sourceFiles, checker, w₂⟩ = (.ok output, b)) :
    Plays service session w
      ⟨.init params, [.crack config (.ok project), .createChecker project (.ok checker),
        .compileProject ⟨service.resolver, config, project⟩ (.ofFiles project.sourceFiles) checker
          (.ok output)], some (.init (.ok (project, output)))⟩
      (some ⟨config, project, b.checker, output, project.sourceFiles⟩) b.world
  | idle (path : String) (hnone : session = none) :
    Plays service session w ⟨.compile path, [], some (.compile (.error noSession))⟩ session w
  | compiled (path : String) (s : Session κ) (result : Except Failure Output) (b : Workbench κ ω)
    (hsome : session = some s)
    (hcompile : service.backend.compileFile (s.job service) (Path.normalize path)
      ⟨.ofFiles s.sources, s.checker, w⟩ = (result, b)) :
    Plays service session w
      ⟨.compile path, [.compileFile (s.job service) (Path.normalize path) (.ofFiles s.sources)
        s.checker result], some (.compile (result.mapError Failure.message))⟩
      (some { s with checker := b.checker }) b.world
  | disconnect : Plays service session w ⟨.disconnect, [], none⟩ session w

section

variable {scene : Scene κ} {session' : Option (Session κ)} {w' : ω}

open Backend in
theorem Plays.noted (h : service.Plays session w scene session' w')
    (notes : List (BackendCall κ)) : service.noted.handle session (w, notes) scene.message =
      (scene.answer, session', w', notes ++ scene.calls) := by
  cases h with
  | refused params e hconfig =>
    simp only [handle, Session.build, hconfig, List.append_nil]
  | uncracked params config f w' hconfig hcrack =>
    simp only [handle, Session.build, hconfig, Service.noted, noted_crack hcrack]
  | unmade params config project f w₁ w' hconfig hcrack hcreate =>
    simp only [handle, Session.build, hconfig, Service.noted, noted_crack hcrack,
      noted_createChecker hcreate, List.append_assoc, List.cons_append, List.nil_append]
  | failed params config project checker f w₁ w₂ b hconfig hcrack hcreate hcompile =>
    simp only [handle, Session.build, hconfig, Service.noted, noted_crack hcrack,
      noted_createChecker hcreate, noted_compileProject hcompile, List.append_assoc,
      List.cons_append, List.nil_append]
  | opened params config project checker output w₁ w₂ b hconfig hcrack hcreate hcompile =>
    simp only [handle, Session.build, hconfig, Service.noted, noted_crack hcrack,
      noted_createChecker hcreate, noted_compileProject hcompile, List.append_assoc,
      List.cons_append, List.nil_append]
  | idle path hnone =>
    subst hnone
    rw [List.append_nil]
    rfl
  | compiled path s result b hsome hcompile =>
    subst hsome
    have hnoted : service.noted.backend.compileFile (s.job service.noted) (Path.normalize path)
        ⟨.ofFiles s.sources, s.checker, w, notes⟩ = _ := noted_compileFile hcompile
    simp only [handle, Session.compile, hnoted]
    rfl
  | disconnect =>
    rw [List.append_nil]
    rfl

theorem Plays.handled (h : service.Plays session w scene session' w') :
    service.handle session w scene.message = (scene.answer, session', w') := by
  cases h with
  | refused params e hconfig => simp only [handle, Session.build, hconfig]
  | uncracked params config f w' hconfig hcrack => simp only [handle, Session.build, hconfig, hcrack]
  | unmade params config project f w₁ w' hconfig hcrack hcreate =>
    simp only [handle, Session.build, hconfig, hcrack, hcreate]
  | failed params config project checker f w₁ w₂ b hconfig hcrack hcreate hcompile =>
    simp only [handle, Session.build, hconfig, hcrack, hcreate, hcompile]
  | opened params config project checker output w₁ w₂ b hconfig hcrack hcreate hcompile =>
    simp only [handle, Session.build, hconfig, hcrack, hcreate, hcompile]
  | idle path hnone =>
    subst hnone
    rfl
  | compiled path s result b hsome hcompile =>
    subst hsome
    simp only [handle, Session.compile, hcompile]
  | disconnect => rfl

theorem Plays.scene_eq (h : service.Plays session w scene session' w') :
    service.scene (session, w) scene.message = scene := by
  have hcalls := congrArg (fun r => r.2.2.2) (h.noted [])
  have hanswer := congrArg Prod.fst h.handled
  exact congrArg₂ (Scene.mk scene.message) hcalls hanswer

end

theorem exists_plays (service : Service κ ω) (session : Option (Session κ)) (w : ω)
    (m : Message) : ∃ scene session' w', scene.message = m ∧
      service.Plays session w scene session' w' := by
  cases m with
  | init params =>
    cases hconfig : ProjectConfig.ofInit params.project params.library with
    | error e => exact ⟨_, _, _, rfl, .refused params e hconfig⟩
    | ok config =>
      rcases hcrack : service.backend.crack config w with ⟨f | project, w₁⟩
      · exact ⟨_, _, _, rfl, .uncracked params config f w₁ hconfig hcrack⟩
      · rcases hcreate : service.backend.createChecker project w₁ with ⟨f | checker, w₂⟩
        · exact ⟨_, _, _, rfl, .unmade params config project f w₁ w₂ hconfig hcrack hcreate⟩
        · rcases hcompile : service.backend.compileProject ⟨service.resolver, config, project⟩
            ⟨.ofFiles project.sourceFiles, checker, w₂⟩ with ⟨f | output, b⟩
          · exact ⟨_, _, _, rfl, .failed params config project checker f w₁ w₂ b hconfig hcrack
              hcreate hcompile⟩
          · exact ⟨_, _, _, rfl, .opened params config project checker output w₁ w₂ b hconfig
              hcrack hcreate hcompile⟩
  | compile path =>
    cases session with
    | none => exact ⟨_, _, _, rfl, .idle path rfl⟩
    | some s =>
      rcases hcompile : service.backend.compileFile (s.job service) (Path.normalize path)
        ⟨.ofFiles s.sources, s.checker, w⟩ with ⟨result, b⟩
      exact ⟨_, _, _, rfl, .compiled path s result b rfl hcompile⟩
  | disconnect => exact ⟨_, _, _, rfl, .disconnect⟩

/-- Every message is such a scene. -/
theorem plays_scene (service : Service κ ω) (session : Option (Session κ)) (w : ω)
    (m : Message) : service.Plays session w (service.scene (session, w) m)
      (service.handle session w m).2.1 (service.handle session w m).2.2 := by
  obtain ⟨scene, session', w', rfl, h⟩ := exists_plays service session w m
  rw [h.scene_eq, h.handled]
  exact h

/-- For a file compile the session asks its backend once, for the folded path. -/
theorem calls_of_compile (service : Service κ ω) (s : Session κ) (w : ω) (path : String) :
    ∃ result, (service.scene (some s, w) (.compile path)).calls =
      [.compileFile (s.job service) (Path.normalize path) (.ofFiles s.sources) s.checker result] := by
  rcases hcompile : service.backend.compileFile (s.job service) (Path.normalize path)
    ⟨.ofFiles s.sources, s.checker, w⟩ with ⟨result, b⟩
  have hplays := Plays.compiled path s result b rfl hcompile
  exact ⟨result, congrArg Scene.calls hplays.scene_eq⟩

theorem handle_noted (service : Service κ ω) (session : Option (Session κ)) (w : ω)
    (notes : List (BackendCall κ)) (m : Message) :
    service.noted.handle session (w, notes) m =
      ((service.handle session w m).1, (service.handle session w m).2.1,
        (service.handle session w m).2.2, notes ++ (service.scene (session, w) m).calls) := by
  obtain ⟨scene, session', w', rfl, h⟩ := exists_plays service session w m
  rw [h.scene_eq, h.handled]
  exact h.noted notes

/-- Taking note of the calls changes neither the session nor the system. -/
theorem state_noted (service : Service κ ω) (session : Option (Session κ)) (w : ω)
    (notes : List (BackendCall κ)) (turns : List (Turn ω)) :
    service.noted.state (session, w, notes) (turns.map .noted) =
      ((service.state (session, w) turns).1, (service.state (session, w) turns).2,
        notes ++ (service.scenes (session, w) turns).flatMap (·.calls)) := by
  induction turns generalizing session w notes with
  | nil => simp only [state, scenes, List.map_nil, List.foldl_nil, List.flatMap_nil, List.append_nil]
  | cons t turns ih =>
    cases t with
    | handle l =>
      have h : service.noted.advance (session, w, notes) (.handle l) = _ :=
        congrArg Prod.snd (handle_noted service session w notes l.message)
      have hrest := ih (service.handle session w l.message).2.1
        (service.handle session w l.message).2.2
        (notes ++ (service.scene (session, w) l.message).calls)
      rw [List.append_assoc] at hrest
      exact (congrArg (fun s => service.noted.state s (turns.map .noted)) h).trans hrest
    | edit change => exact ih session (change w) notes

theorem calls_eq_scenes (service : Service κ ω) (w : ω) (turns : List (Turn ω)) :
    service.calls w turns = (service.scenes (none, w) turns).flatMap (·.calls) := by
  unfold calls
  rw [state_noted]
  rfl

theorem messages_scenes (service : Service κ ω) (s : Option (Session κ) × ω)
    (turns : List (Turn ω)) :
    (service.scenes s turns).map (·.message) = (lettersOf turns).map (·.message) := by
  induction turns generalizing s with
  | nil => rfl
  | cons t turns ih =>
    cases t with
    | handle l => exact congrArg (l.message :: ·) (ih _)
    | edit change => exact ih _

theorem answers_scenes (service : Service κ ω) (s : Option (Session κ) × ω)
    (turns : List (Turn ω)) :
    (service.replies s turns).map (·.2) =
      (service.scenes s turns).filterMap fun scene => scene.answer.map Ending.answered := by
  induction turns generalizing s with
  | nil => rfl
  | cons t turns ih =>
    cases t with
    | handle l =>
      rw [replies, List.map_append, ih, scenes, List.filterMap_cons]
      simp only [reply, scene]
      cases (service.handle s.1 s.2 l.message).1 <;> rfl
    | edit change => exact ih _

/-- Each scene is that of one turn. -/
theorem turn_of_scenes {s : Option (Session κ) × ω} {turns : List (Turn ω)}
    {scene : Scene κ} (h : scene ∈ service.scenes s turns) :
    ∃ before l after, turns = before ++ .handle l :: after ∧
      scene = service.scene (service.state s before) l.message := by
  induction turns generalizing s with
  | nil => cases h
  | cons t turns ih =>
    have hlater : ∀ {s'}, service.advance s t = s' → scene ∈ service.scenes s' turns →
        ∃ before l after, t :: turns = before ++ .handle l :: after ∧
          scene = service.scene (service.state s before) l.message := by
      rintro _ rfl hrest
      obtain ⟨before, l, after, rfl, hscene⟩ := ih hrest
      exact ⟨t :: before, l, after, rfl, hscene⟩
    cases t with
    | handle l =>
      rcases List.mem_cons.1 h with hscene | hrest
      · exact ⟨[], l, turns, rfl, hscene⟩
      · exact hlater rfl hrest
    | edit change => exact hlater rfl h

end Service

end WarmCompile
