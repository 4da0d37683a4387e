import WarmCompile.Proofs.Session.Noted

/-!
However callers, mailbox and keeper are interleaved, a run serves messages one at a time in the
order in which they got into the mailbox, up to where the keeper stops.
-/

namespace WarmCompile

def Ending.isAnswer : Ending → Bool
  | .answered _ => true
  | _ => false

namespace Actor

variable {κ ω : Type} {service : Service κ ω} {a a' : Actor κ ω} {e : Event ω} {more : Endings}
  {events : List (Event ω)}

/-! ### The session and its surroundings -/

theorem Effect.state (h : Effect service a e a' more) :
    (a'.session, a'.world) = service.state (a.session, a.world) (a.completing e) := by
  cases h with
  | finish l hcurrent =>
    simp only [completing, hcurrent]
    rfl
  | pass hcurrent =>
    simp only [completing, hcurrent]
    rfl
  | _ => rfl

theorem Effect.answers (h : Effect service a e a' more) :
    more.filter (·.2.isAnswer) = service.replies (a.session, a.world) (a.completing e) := by
  cases h with
  | enter call l before after hwaiting hentering =>
    unfold endingOnEntry
    split <;> rfl
  | stop halted queue hopen hidle hqueue hhalted hwhy =>
    refine List.filter_eq_nil_iff.2 fun x hx => ?_
    obtain ⟨l, -, rfl⟩ := List.mem_map.1 hx
    exact Bool.false_ne_true
  | finish l hcurrent =>
    simp only [completing, hcurrent]
    simp only [Option.map_some, Option.toList_some, Service.replies, List.append_nil]
    refine List.filter_eq_self.2 fun x hx => ?_
    obtain ⟨answer, -, rfl⟩ := Option.map_eq_some_iff.1 (Option.mem_toList.1 hx)
    rfl
  | pass hcurrent =>
    simp only [completing, hcurrent]
    rfl
  | _ => rfl

theorem turns_concat (service : Service κ ω) (a : Actor κ ω) (events : List (Event ω))
    (e : Event ω) : a.turns service (events ++ [e]) =
      a.turns service events ++ (a.run service events).1.completing e :=
  notes_concat _ _ _ _ _

theorem entered_concat (service : Service κ ω) (a : Actor κ ω) (events : List (Event ω))
    (e : Event ω) : a.entered service (events ++ [e]) =
      a.entered service events ++ (a.run service events).1.entering e :=
  notes_concat _ _ _ _ _

/-- A run does to the session and its surroundings what its turns do one after the other. -/
theorem state_of_run (service : Service κ ω) (a : Actor κ ω) (events : List (Event ω)) :
    ((a.run service events).1.session, (a.run service events).1.world) =
      service.state (a.session, a.world) (a.turns service events) := by
  induction events using List.reverseRecOn with
  | nil => rfl
  | append_singleton events e ih =>
    rw [run_concat, turns_concat, Service.state_append, ← ih]
    exact (effect_step service _ e).state

theorem answers_of_run (service : Service κ ω) (a : Actor κ ω) (events : List (Event ω)) :
    (a.run service events).2.filter (·.2.isAnswer) =
      service.replies (a.session, a.world) (a.turns service events) := by
  induction events using List.reverseRecOn with
  | nil => rfl
  | append_singleton events e ih =>
    rw [run_concat, turns_concat, Service.replies_append, ← state_of_run, List.filter_append, ih,
      (effect_step service _ e).answers]

theorem changesOf_turns (service : Service κ ω) (a : Actor κ ω) (events : List (Event ω)) :
    changesOf (a.turns service events) = edits events := by
  induction events using List.reverseRecOn with
  | nil => rfl
  | append_singleton events e ih =>
    rw [turns_concat, changesOf, List.filterMap_append, ← changesOf, ih, edits, edits,
      List.filterMap_append]
    congr 1
    cases e with
    | finish =>
      simp only [completing]
      cases (a.run service events).1.current <;> rfl
    | _ => rfl

/-! ### The order of the messages -/

/-- The messages that got into the mailbox are those served, then the one in hand and those in the
mailbox; a keeper that has stopped was cancelled, or had come to the end or to a disconnect. -/
structure Orderly (order served : List Letter) (a : Actor κ ω) : Prop where
  requests : ∀ l ∈ served ++ a.current.toList, l.message ≠ .disconnect
  pending : a.mailbox.closed = false → order = served ++ a.current.toList ++ a.mailbox.queue
  stopped : a.mailbox.closed = true → a.current = none ∧ a.mailbox.queue = [] ∧
    a.mailbox.waiting = [] ∧ ∃ rest, order = served ++ rest ∧
      (a.cancelled = true ∨ ∀ l ∈ rest.head?, l.message = .disconnect)

theorem orderly_spawn (capacity : Nat) (w : ω) :
    Orderly [] [] (spawn capacity w : Actor κ ω) :=
  ⟨nofun, fun _ => rfl, nofun⟩

theorem Orderly.served_first {order served : List Letter} (ho : Orderly order served a) :
    served <+: order := by
  cases hc : a.mailbox.closed with
  | false => exact ⟨_, (List.append_assoc ..).symm.trans (ho.pending hc).symm⟩
  | true =>
    obtain ⟨-, -, -, rest, horder, -⟩ := ho.stopped hc
    exact ⟨rest, horder.symm⟩

theorem Orderly.step {order served : List Letter} (ho : Orderly order served a)
    (h : Effect service a e a' more) :
    Orderly (order ++ a.entering e) (served ++ lettersOf (a.completing e)) a' := by
  obtain ⟨hrequests, hpending, hstopped⟩ := ho
  cases h with
  | await l hopen =>
    simp only [entering, completing, lettersOf, List.filterMap_nil, List.append_nil]
    exact ⟨hrequests, hpending, fun hc => absurd (hopen.symm.trans hc) Bool.false_ne_true⟩
  | enter call l before after hwaiting hentering =>
    rw [hentering]
    simp only [completing, lettersOf, List.filterMap_nil, List.append_nil]
    refine ⟨hrequests, fun hopen => ?_, fun hclosed => ?_⟩
    · rw [hpending hopen, List.append_assoc]
    · obtain ⟨-, -, hnone, -⟩ := hstopped hclosed
      exact absurd (hnone.symm.trans hwaiting) (by simp)
  | stay call hentering =>
    rw [hentering]
    simp only [completing, lettersOf, List.filterMap_nil, List.append_nil]
    exact ⟨hrequests, hpending, hstopped⟩
  | leave call =>
    simp only [entering, completing, lettersOf, List.filterMap_nil, List.append_nil]
    refine ⟨hrequests, hpending, fun hclosed => ?_⟩
    obtain ⟨hcurrent, hqueue, hwaiting, hrest⟩ := hstopped hclosed
    exact ⟨hcurrent, hqueue, by simp only [hwaiting, List.filter_nil], hrest⟩
  | take l queue hopen hidle hqueue hl =>
    simp only [entering, completing, lettersOf, List.filterMap_nil, List.append_nil]
    refine ⟨fun l' hl' => ?_, fun _ => ?_, fun hc => ?_⟩
    · rcases List.mem_append.1 hl' with hl' | hl'
      · exact hrequests l' (List.mem_append_left _ hl')
      · exact (List.mem_singleton.1 hl') ▸ hl
    · rw [hpending hopen, hidle, hqueue]
      simp
    · exact absurd (hopen.symm.trans hc) Bool.false_ne_true
  | stop halted queue hopen hidle hqueue hhalted hwhy =>
    simp only [entering, completing, lettersOf, List.filterMap_nil, List.append_nil]
    refine ⟨hrequests, fun hc => absurd hc.symm Bool.false_ne_true,
      fun _ => ⟨hidle, rfl, rfl, a.mailbox.queue, ?_, ?_⟩⟩
    · rw [hpending hopen, hidle]
      simp
    · rcases hwhy with hcancelled | hnone | hsome
      · exact .inl hcancelled
      · exact .inr (by simp [hnone])
      · obtain ⟨d, tail, rfl⟩ := List.exists_cons_of_ne_nil hsome
        refine .inr fun l hl => hhalted l ?_
        rw [hqueue] at hl
        exact (Option.some.inj hl) ▸ List.mem_cons_self
  | finish l hcurrent =>
    have hserved : lettersOf (a.completing .finish) = [l] := by
      simp only [completing, hcurrent]
      rfl
    rw [hserved]
    simp only [entering, List.append_nil]
    refine ⟨?_, fun hopen => ?_, fun hclosed => ?_⟩
    · rw [hcurrent] at hrequests
      simpa using hrequests
    · rw [hpending hopen, hcurrent]
      simp
    · exact absurd ((hstopped hclosed).1.symm.trans hcurrent) (by simp)
  | pass hcurrent =>
    simp only [entering, completing, hcurrent, lettersOf, Option.map_none, Option.toList_none,
      List.filterMap_nil, List.append_nil]
    exact ⟨hrequests, hpending, hstopped⟩
  | cancel =>
    simp only [entering, completing, lettersOf, List.filterMap_nil, List.append_nil]
    refine ⟨hrequests, hpending, fun hclosed => ?_⟩
    obtain ⟨hcurrent, hqueue, hwaiting, rest, horder, -⟩ := hstopped hclosed
    exact ⟨hcurrent, hqueue, hwaiting, rest, horder, .inl rfl⟩
  | _ =>
    simp only [entering, completing, lettersOf, List.filterMap_cons, Turn.letter?,
      List.filterMap_nil, List.append_nil]
    exact ⟨hrequests, hpending, hstopped⟩

theorem orderly_of_run (service : Service κ ω) (capacity : Nat) (w : ω)
    (events : List (Event ω)) :
    Orderly ((spawn capacity w).entered service events)
      (lettersOf ((spawn capacity w).turns service events))
      ((spawn capacity w).run service events).1 := by
  induction events using List.reverseRecOn with
  | nil => exact orderly_spawn capacity w
  | append_singleton events e ih =>
    rw [run_concat, entered_concat, turns_concat, lettersOf, List.filterMap_append]
    exact ih.step (effect_step service _ e)

theorem Effect.cancelled (h : Effect service a e a' more) (hc : a'.cancelled = true) :
    a.cancelled = true ∨ e = .cancel := by
  cases h with
  | cancel => exact .inr rfl
  | _ => exact .inl hc

theorem cancelled_of_run (service : Service κ ω) (capacity : Nat) (w : ω)
    (events : List (Event ω)) (h : ((spawn capacity w).run service events).1.cancelled = true) :
    .cancel ∈ events := by
  induction events using List.reverseRecOn with
  | nil => exact absurd h Bool.false_ne_true
  | append_singleton events e ih =>
    rw [run_concat] at h
    rcases (effect_step service _ e).cancelled h with h | rfl
    · exact List.mem_append_left _ (ih h)
    · exact List.mem_append_right _ List.mem_cons_self

end Actor

end WarmCompile
