import WarmCompile.Proofs.Session.Marked
import WarmCompile.Proofs.Session.Outcome

/-!
Sessions are never mixed up: whatever succeeds, fails or breaks off in a run, each compile works on a
configuration, a project, a checker and sources that belong together, and a checker serves the one
session it was made for until that session is replaced.
-/

namespace WarmCompile

variable {κ ω : Type}

/-- The checker that a call has made. -/
def BackendCall.made? : BackendCall κ → Option κ
  | .createChecker _ (.ok checker) => some checker
  | _ => none

/-- The checker that a call works on. -/
def BackendCall.used? : BackendCall κ → Option κ
  | .compileProject _ _ checker _ => some checker
  | .compileFile _ _ _ checker _ => some checker
  | _ => none

namespace Scene

/-- The marks of the checkers that are made. -/
def made (scene : Scene (Marked κ)) : List Nat :=
  scene.calls.filterMap fun call => call.made?.map (·.mark)

/-- A session is opened with what was cracked and made for it. -/
structure OpensWith (scene : Scene κ) (job : Job) (checker : κ) (output : Output) : Prop where
  calls : scene.calls = [.crack job.config (.ok job.project),
    .createChecker job.project (.ok checker),
    .compileProject job (.ofFiles job.project.sourceFiles) checker (.ok output)]
  answer : scene.answer = some (.init (.ok (job.project, output)))

/-- The last session that was opened is that of a job, with the checker of a mark. -/
def Latest (past : List (Scene (Marked κ))) (job : Job) (mark : Nat) : Prop :=
  ∃ front opening back checker output, past = front ++ opening :: back ∧
    opening.OpensWith job checker output ∧ checker.mark = mark ∧ ∀ s ∈ back, s.opens = false

/-- What is compiled belongs together, and to the last session opened before. -/
structure Fits (past : List (Scene (Marked κ))) (scene : Scene (Marked κ)) : Prop where
  project : ∀ job reader checker result, .compileProject job reader checker result ∈ scene.calls →
    scene.calls = [.crack job.config (.ok job.project), .createChecker job.project (.ok checker),
      .compileProject job reader checker result] ∧ reader = .ofFiles job.project.sourceFiles
  file : ∀ job path reader checker result,
    .compileFile job path reader checker result ∈ scene.calls →
    Latest past job checker.mark ∧ reader = .ofFiles job.project.sourceFiles
  refused : ∀ path, scene.message = .compile path →
    ((scene.calls = [] ∧ scene.answer = some (.compile (.error noSession))) ↔
      ∀ s ∈ past, s.opens = false)

end Scene

open Scene

section

variable {past : List (Scene (Marked κ))} {scene : Scene (Marked κ)} {n n' : Nat}

structure Marks (past : List (Scene (Marked κ))) (n : Nat) : Prop where
  below : ∀ mark ∈ past.flatMap made, mark < n
  nodup : (past.flatMap made).Nodup

theorem Marks.step (h : Marks past n)
    (hscene : scene.made = [] ∧ n' = n ∨ scene.made = [n] ∧ n' = n + 1) :
    Marks (past ++ [scene]) n' := by
  have hmade : (past ++ [scene]).flatMap made = past.flatMap made ++ scene.made := by simp
  rcases hscene with ⟨hnone, rfl⟩ | ⟨hone, rfl⟩
  · rw [hnone, List.append_nil] at hmade
    exact ⟨hmade ▸ h.below, hmade ▸ h.nodup⟩
  · refine ⟨fun mark hmark => ?_, ?_⟩
    · rw [hmade, hone, List.mem_append, List.mem_singleton] at hmark
      rcases hmark with hmark | rfl
      · exact Nat.lt_succ_of_lt (h.below mark hmark)
      · exact Nat.lt_succ_self mark
    · rw [hmade, hone]
      refine List.nodup_append.2 ⟨h.nodup, List.nodup_singleton n, ?_⟩
      intro mark hmark m hm hsame
      obtain rfl := List.mem_singleton.1 hm
      exact absurd (h.below mark hmark) (hsame ▸ Nat.lt_irrefl m)

theorem Scene.Latest.extend {job : Job} {mark : Nat} (h : Latest past job mark)
    (hquiet : scene.opens = false) : Latest (past ++ [scene]) job mark := by
  obtain ⟨front, opening, back, checker, output, rfl, hopening, hmark, hback⟩ := h
  refine ⟨front, opening, back ++ [scene], checker, output, by simp, hopening, hmark, ?_⟩
  intro s hs
  rcases List.mem_append.1 hs with hs | hs
  · exact hback s hs
  · exact (List.mem_singleton.1 hs) ▸ hquiet

theorem Scene.OpensWith.opens {job : Job} {checker : Marked κ} {output : Output}
    (h : scene.OpensWith job checker output) : scene.opens = true := by
  unfold Scene.opens
  rw [h.answer]

open BackendCall

theorem Scene.fits_of_unused (hmessage : ∀ path, scene.message ≠ .compile path)
    (hunused : ∀ call ∈ scene.calls, call.used? = none) : scene.Fits past := by
  refine ⟨?_, ?_, ?_⟩
  · intro job reader checker result hmem
    cases hunused _ hmem
  · intro job path reader checker result hmem
    cases hunused _ hmem
  · exact fun path hpath => absurd hpath (hmessage path)

theorem Scene.fits_of_project (job : Job) {checker : Marked κ} {result : Except Failure Output}
    (hmessage : ∀ path, scene.message ≠ .compile path)
    (hcalls : scene.calls = [.crack job.config (.ok job.project),
      .createChecker job.project (.ok checker),
      .compileProject job (.ofFiles job.project.sourceFiles) checker result]) :
    scene.Fits past := by
  refine ⟨?_, ?_, ?_⟩
  · intro job' reader checker' result' hmem
    have hthird := hmem
    simp only [hcalls, List.mem_cons, List.not_mem_nil, or_false, false_or, reduceCtorEq] at hthird
    obtain ⟨rfl, rfl, rfl, rfl⟩ := compileProject.inj hthird
    exact ⟨hcalls, rfl⟩
  · intro job' path reader checker' result' hmem
    simp [hcalls] at hmem
  · exact fun path hpath => absurd hpath (hmessage path)

end

namespace Service

open BackendCall

variable {service : Service κ ω} {past : List (Scene (Marked κ))} {scene : Scene (Marked κ)}
  {session session' : Option (Session (Marked κ))} {w : ω} {n : Nat} {w' : ω × Nat}

/-- A session is there if and only if one was opened, and it is the last one. -/
def Current (service : Service κ ω) (past : List (Scene (Marked κ))) :
    Option (Session (Marked κ)) → Prop
  | none => ∀ s ∈ past, s.opens = false
  | some s => Latest past (s.job service.marked) s.checker.mark ∧ s.sources = s.project.sourceFiles

open Backend in
theorem Plays.made (h : service.marked.Plays session (w, n) scene session' w') :
    scene.made = [] ∧ w'.2 = n ∨ scene.made = [n] ∧ w'.2 = n + 1 := by
  cases h with
  | refused params e hconfig => exact .inl ⟨rfl, rfl⟩
  | uncracked params config f w' hconfig hcrack =>
    exact .inl ⟨rfl, (crack_of_marked hcrack).2⟩
  | unmade params config project f w₁ w' hconfig hcrack hcreate =>
    have hsame := (createChecker_of_marked_error hcreate).2
    exact .inl ⟨rfl, hsame.trans (crack_of_marked hcrack).2⟩
  | failed params config project checker f w₁ w₂ b hconfig hcrack hcreate hcompile =>
    obtain ⟨-, hmark, hmore⟩ := createChecker_of_marked_ok hcreate
    obtain ⟨-, -, hsame⟩ := compileProject_of_marked hcompile
    rw [(crack_of_marked hcrack).2] at hmark hmore
    exact .inr ⟨congrArg ([·]) hmark, hsame.trans hmore⟩
  | opened params config project checker output w₁ w₂ b hconfig hcrack hcreate hcompile =>
    obtain ⟨-, hmark, hmore⟩ := createChecker_of_marked_ok hcreate
    obtain ⟨-, -, hsame⟩ := compileProject_of_marked hcompile
    rw [(crack_of_marked hcrack).2] at hmark hmore
    exact .inr ⟨congrArg ([·]) hmark, hsame.trans hmore⟩
  | idle path hnone => exact .inl ⟨rfl, rfl⟩
  | compiled path s result b hsome hcompile =>
    exact .inl ⟨rfl, (compileFile_of_marked hcompile).2.2⟩
  | disconnect => exact .inl ⟨rfl, rfl⟩

theorem Current.extend (h : service.Current past session) (hquiet : scene.opens = false) :
    service.Current (past ++ [scene]) session := by
  cases session with
  | none =>
    intro s hs
    rcases List.mem_append.1 hs with hs | hs
    · exact h s hs
    · exact (List.mem_singleton.1 hs) ▸ hquiet
  | some s => exact ⟨h.1.extend hquiet, h.2⟩

open Backend in
theorem Current.step (hcurrent : service.Current past session)
    (h : service.marked.Plays session (w, n) scene session' w') :
    service.Current (past ++ [scene]) session' := by
  cases h with
  | opened params config project checker output w₁ w₂ b hconfig hcrack hcreate hcompile =>
    obtain ⟨-, hmark, -⟩ := compileProject_of_marked hcompile
    exact ⟨⟨past, _, [], checker, output, rfl, ⟨rfl, rfl⟩, hmark.symm, nofun⟩, rfl⟩
  | compiled path s result b hsome hcompile =>
    subst hsome
    obtain ⟨-, hmark, -⟩ := compileFile_of_marked hcompile
    obtain ⟨hlatest, hsources⟩ := hcurrent
    rw [← hmark] at hlatest
    exact ⟨hlatest.extend rfl, hsources⟩
  | _ => exact hcurrent.extend rfl

theorem Current.fits (hcurrent : service.Current past session)
    (h : service.marked.Plays session (w, n) scene session' w') : scene.Fits past := by
  cases h with
  | refused params e hconfig => exact fits_of_unused (fun _ => nofun) (by simp)
  | uncracked params config f w' hconfig hcrack => exact fits_of_unused (fun _ => nofun) (by simp [used?])
  | unmade params config project f w₁ w' hconfig hcrack hcreate =>
    exact fits_of_unused (fun _ => nofun) (by simp [used?])
  | failed params config project checker f w₁ w₂ b hconfig hcrack hcreate hcompile =>
    exact fits_of_project ⟨service.resolver, config, project⟩ (fun _ => nofun) rfl
  | opened params config project checker output w₁ w₂ b hconfig hcrack hcreate hcompile =>
    exact fits_of_project ⟨service.resolver, config, project⟩ (fun _ => nofun) rfl
  | idle path hnone =>
    subst hnone
    refine ⟨?_, ?_, fun path' _ => ⟨fun _ => hcurrent, fun _ => ⟨rfl, rfl⟩⟩⟩
    · intro job reader checker result hmem
      exact absurd hmem List.not_mem_nil
    · intro job path' reader checker result hmem
      exact absurd hmem List.not_mem_nil
  | compiled path s result b hsome hcompile =>
    subst hsome
    obtain ⟨hlatest, hsources⟩ := hcurrent
    refine ⟨?_, ?_, ?_⟩
    · intro job reader checker result' hmem
      simp at hmem
    · intro job path' reader checker result' hmem
      rw [List.mem_singleton] at hmem
      obtain ⟨rfl, rfl, rfl, rfl, rfl⟩ := BackendCall.compileFile.inj hmem
      exact ⟨hlatest, congrArg SourceReader.ofFiles hsources⟩
    · intro path' _
      refine ⟨fun hnone => absurd hnone.1 (List.cons_ne_nil _ _), fun hnone => ?_⟩
      obtain ⟨front, opening, back, made, output, rfl, hopening, -, -⟩ := hlatest
      have hclosed := hnone opening (List.mem_append_right _ List.mem_cons_self)
      exact absurd (hclosed.symm.trans hopening.opens) Bool.false_ne_true
  | disconnect => exact fits_of_unused (fun _ => nofun) (by simp)

/-- What every scene of a run adds, from a session that is the last one opened on. -/
theorem fits_of_scenes (hcurrent : service.Current past session) (hmarks : Marks past n)
    (turns : List (Turn ω)) :
    Marks (past ++ service.marked.scenes (session, w, n) (turns.map .marked))
      (service.marked.state (session, w, n) (turns.map .marked)).2.2 ∧
    ∀ earlier scene later,
      service.marked.scenes (session, w, n) (turns.map .marked) = earlier ++ scene :: later →
      scene.Fits (past ++ earlier) := by
  induction turns generalizing past session w n with
  | nil =>
    refine ⟨?_, ?_⟩
    · rw [List.map_nil, scenes, List.append_nil]
      exact hmarks
    · intro earlier scene later hsplit
      simp [scenes] at hsplit
  | cons t turns ih =>
    cases t with
    | handle l =>
      have hplays := plays_scene service.marked session (w, n) l.message
      obtain ⟨hall, hfits⟩ := ih (w := (service.marked.handle session (w, n) l.message).2.2.1)
        (hcurrent.step hplays) (hmarks.step hplays.made)
      refine ⟨?_, ?_⟩
      · rw [List.append_assoc] at hall
        exact hall
      · intro earlier scene later hsplit
        cases earlier with
        | nil =>
          obtain ⟨rfl, -⟩ := List.cons.inj hsplit
          rw [List.append_nil]
          exact hcurrent.fits hplays
        | cons first earlier =>
          obtain ⟨rfl, hrest⟩ := List.cons.inj hsplit
          have hscene := hfits earlier scene later hrest
          rw [List.append_assoc] at hscene
          exact hscene
    | edit change => exact ih (w := change w) hcurrent hmarks

end Service

/-- In scenes that are not mixed up, a checker that has been made is used for files alone, by the
session that was opened with it, and no longer once another one has been opened. -/
structure Unmixed (scenes : List (Scene (Marked κ))) : Prop where
  fits : ∀ earlier scene later, scenes = earlier ++ scene :: later → scene.Fits earlier
  marks : (scenes.flatMap made).Nodup
  retired : ∀ earlier maker between user later,
    scenes = earlier ++ maker :: (between ++ user :: later) → ∀ mark ∈ maker.made,
    ∀ call ∈ user.calls, ∀ checker, call.used? = some checker → checker.mark = mark →
    maker.opens = true ∧ ∀ s ∈ between, s.opens = false

section

variable {earlier front later back : List (Scene (Marked κ))} {maker opening : Scene (Marked κ)}
  {mark : Nat}

/-- Where marks do not repeat, the scene that has made one is the only one. -/
theorem eq_of_made (hnodup : ((earlier ++ maker :: later).flatMap made).Nodup)
    (hsplit : earlier ++ maker :: later = front ++ opening :: back) (hmaker : mark ∈ maker.made)
    (hopening : mark ∈ opening.made) : maker = opening ∧ later = back := by
  rcases List.append_eq_append_iff.1 hsplit with ⟨more, rfl, hmore⟩ | ⟨more, rfl, hmore⟩
  · cases more with
    | nil => exact List.cons.inj hmore
    | cons s more =>
      obtain ⟨rfl, hlater⟩ := List.cons.inj hmore
      change later = more ++ opening :: back at hlater
      subst hlater
      rw [List.flatMap_append, List.flatMap_cons, List.flatMap_append, List.flatMap_cons] at hnodup
      have hrest := (List.nodup_append.1 (List.nodup_append.1 hnodup).2.1).2.2
      exact absurd rfl (hrest mark hmaker mark
        (List.mem_append_right _ (List.mem_append_left _ hopening)))
  · cases more with
    | nil =>
      obtain ⟨rfl, rfl⟩ := List.cons.inj hmore
      exact ⟨rfl, rfl⟩
    | cons s more =>
      obtain ⟨rfl, hback⟩ := List.cons.inj hmore
      change back = more ++ maker :: later at hback
      subst hback
      rw [List.append_assoc, List.flatMap_append, List.cons_append, List.flatMap_cons,
        List.flatMap_append, List.flatMap_cons] at hnodup
      have hrest := (List.nodup_append.1 (List.nodup_append.1 hnodup).2.1).2.2
      exact absurd rfl (hrest mark hopening mark
        (List.mem_append_right _ (List.mem_append_left _ hmaker)))

theorem Scene.OpensWith.mem_made {job : Job} {checker : Marked κ} {output : Output}
    (h : opening.OpensWith job checker output) : checker.mark ∈ opening.made := by
  refine List.mem_filterMap.2 ⟨.createChecker job.project (.ok checker), ?_, rfl⟩
  rw [h.calls]
  exact List.mem_cons_of_mem _ List.mem_cons_self

end

theorem unmixed_of_fits {scenes : List (Scene (Marked κ))}
    (hfits : ∀ earlier scene later, scenes = earlier ++ scene :: later → scene.Fits earlier)
    (hmarks : (scenes.flatMap made).Nodup) : Unmixed scenes := by
  refine ⟨hfits, hmarks, ?_⟩
  rintro earlier maker between user later rfl mark hmark call hcall checker hused rfl
  have hsplit : earlier ++ maker :: (between ++ user :: later) =
      (earlier ++ maker :: between) ++ user :: later := by simp
  have huser := hfits _ _ _ hsplit
  cases call with
  | crack config result => cases hused
  | createChecker project result => cases hused
  | compileProject job reader checker' result =>
    cases hused
    have hown : checker.mark ∈ user.made := by
      refine List.mem_filterMap.2 ⟨.createChecker job.project (.ok checker), ?_, rfl⟩
      rw [(huser.project job reader checker result hcall).1]
      exact List.mem_cons_of_mem _ List.mem_cons_self
    rw [List.flatMap_append, List.flatMap_cons, List.flatMap_append, List.flatMap_cons] at hmarks
    have hrest := (List.nodup_append.1 (List.nodup_append.1 hmarks).2.1).2.2
    exact absurd rfl (hrest _ hmark _ (List.mem_append_right _ (List.mem_append_left _ hown)))
  | compileFile job path reader checker' result =>
    cases hused
    obtain ⟨⟨front, opening, back, made', output, hpast, hopening, hsame, hback⟩, -⟩ :=
      huser.file job path reader checker result hcall
    have hboth : ((earlier ++ maker :: between).flatMap made).Nodup := by
      rw [hsplit, List.flatMap_append] at hmarks
      exact (List.nodup_append.1 hmarks).1
    obtain ⟨rfl, rfl⟩ := eq_of_made hboth hpast hmark (hsame ▸ hopening.mem_made)
    exact ⟨hopening.opens, hback⟩

namespace Actor

/-- The messages that a keeper serves, with the calls that are made for each. -/
def scenes (service : Service κ ω) (capacity : Nat) (w : ω) (events : List (Event ω)) :
    List (Scene (Marked κ)) :=
  service.marked.scenes (none, w, 0) (((spawn capacity w).turns service events).map .marked)

/-- Sessions are never mixed up, whatever the backend and however a run goes. -/
theorem unmixed_of_run (service : Service κ ω) (capacity : Nat) (w : ω)
    (events : List (Event ω)) :
    (scenes service capacity w events).map (·.message) =
      (lettersOf ((spawn capacity w).turns service events)).map (·.message) ∧
    ((scenes service capacity w events).flatMap (·.calls)).map .unmarked =
      Actor.calls service capacity w events ∧
    ((scenes service capacity w events).filterMap fun s => s.answer.map Ending.answered) =
      (((spawn capacity w).run service events).2.filter (·.2.isAnswer)).map (·.2) ∧
    Unmixed (scenes service capacity w events) := by
  have hplain := Service.scenes_marked service none w 0 ((spawn capacity w).turns service events)
  change (scenes service capacity w events).map .unmarked = service.scenes (none, w) _ at hplain
  have hcurrent : service.Current [] none := fun s hs => absurd hs List.not_mem_nil
  obtain ⟨hmarks, hfits⟩ := Service.fits_of_scenes (w := w) hcurrent ⟨nofun, List.nodup_nil⟩
    ((spawn capacity w).turns service events)
  refine ⟨?_, ?_, ?_, unmixed_of_fits hfits hmarks.nodup⟩
  · rw [scenes, Service.messages_scenes, lettersOf_marked]
  · rw [calls_of_run, Service.calls_eq_scenes, ← hplain, List.flatMap_map, List.map_flatMap]
    rfl
  · rw [answers_of_run]
    change _ = (service.replies (none, w) _).map _
    rw [Service.answers_scenes, ← hplain, List.filterMap_map]
    rfl

end Actor

end WarmCompile
