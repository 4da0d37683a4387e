import Mathlib.Data.List.Nodup
import WarmCompile.Proofs.Compile.Incremental
import WarmCompile.Proofs.Session.Linear

/-!
What becomes of each call: one that is served has the reply of its turn, and every other one learns
that the keeper is gone, once the keeper is.
-/

namespace WarmCompile

def Ending.isGone : Ending → Bool
  | .gone => true
  | _ => false

def Ending.isSent : Ending → Bool
  | .sent => true
  | _ => false

namespace Actor

variable {κ ω : Type} {service : Service κ ω} {a a' : Actor κ ω} {e : Event ω} {more : Endings}
  {events : List (Event ω)}

theorem Effect.sent (h : Effect service a e a' more) :
    more.filter (·.2.isSent) =
      ((a.entering e).filter (·.message = .disconnect)).map fun l => (l.call, .sent) := by
  cases h with
  | enter call l before after hwaiting hentering =>
    rw [hentering]
    unfold endingOnEntry
    by_cases hl : l.message = .disconnect
    · simp [hl, Ending.isSent]
    · simp [hl]
  | stay call hentering =>
    rw [hentering]
    rfl
  | stop halted queue hopen hidle hqueue hhalted hwhy =>
    refine List.filter_eq_nil_iff.2 fun x hx => ?_
    obtain ⟨l, -, rfl⟩ := List.mem_map.1 hx
    exact Bool.false_ne_true
  | finish l hcurrent =>
    refine List.filter_eq_nil_iff.2 fun x hx => ?_
    obtain ⟨answer, -, rfl⟩ := Option.map_eq_some_iff.1 (Option.mem_toList.1 hx)
    exact Bool.false_ne_true
  | _ => rfl

theorem sent_of_run (service : Service κ ω) (a : Actor κ ω) (events : List (Event ω)) :
    (a.run service events).2.filter (·.2.isSent) =
      ((a.entered service events).filter (·.message = .disconnect)).map
        fun l => (l.call, .sent) := by
  induction events using List.reverseRecOn with
  | nil => rfl
  | append_singleton events e ih =>
    rw [run_concat, entered_concat, List.filter_append, List.filter_append, List.map_append, ih,
      (effect_step service _ e).sent]

/-- The messages that a keeper has to do with. -/
def held (a : Actor κ ω) : List Letter :=
  a.current.toList ++ a.mailbox.queue ++ a.mailbox.waiting

/-- A step moves each message to one place: it is served, still held, taken back by its caller,
dropped, or a disconnect that stops the keeper or comes too late for that. -/
theorem Effect.filed (h : Effect service a e a' more) :
    ∃ withdrawn dropped halted, (called [e] ++ a.held).Perm
        (lettersOf (a.completing e) ++ a'.held ++ withdrawn ++ dropped ++ halted) ∧
      (∀ l ∈ withdrawn, l.call ∈ left [e]) ∧
      (more.filter (·.2.isGone) = dropped.map fun l => (l.call, .gone)) ∧
      ∀ l ∈ halted, l.message = .disconnect := by
  cases h with
  | await l hopen =>
    refine ⟨[], [], [], List.perm_iff_count.2 fun x => ?_, nofun, rfl, nofun⟩
    simp only [called, held, lettersOf, completing, List.filterMap_cons, List.filterMap_nil,
      List.count_append, List.count_cons, List.count_nil]
    omega
  | refuse l hclosed =>
    refine ⟨[], [l], [], List.perm_iff_count.2 fun x => ?_, nofun, rfl, nofun⟩
    simp only [called, held, lettersOf, completing, List.filterMap_cons, List.filterMap_nil,
      List.count_append, List.count_cons, List.count_nil]
    omega
  | enter call l before after hwaiting hentering =>
    refine ⟨[], [], [], List.perm_iff_count.2 fun x => ?_, nofun, ?_, nofun⟩
    · simp only [called, held, lettersOf, completing, hwaiting, List.filterMap_cons,
        List.filterMap_nil, List.count_append, List.count_cons, List.count_nil]
      omega
    · unfold endingOnEntry
      split <;> rfl
  | leave call =>
    refine ⟨a.mailbox.waiting.filter (·.call == call), [], [],
      List.perm_iff_count.2 fun x => ?_, fun l hl => ?_, rfl, nofun⟩
    · have hx := (List.filter_append_perm (·.call == call) a.mailbox.waiting).count_eq x
      simp only [called, held, lettersOf, completing, List.filterMap_cons, List.filterMap_nil,
        List.count_append, List.count_nil] at hx ⊢
      omega
    · have hc : l.call = call := by simpa using (List.mem_filter.1 hl).2
      exact hc ▸ List.mem_cons_self
  | take l queue hopen hidle hqueue hl =>
    refine ⟨[], [], [], List.perm_iff_count.2 fun x => ?_, nofun, rfl, nofun⟩
    simp only [called, held, lettersOf, completing, hidle, hqueue, Option.toList_none,
      Option.toList_some, List.filterMap_cons, List.filterMap_nil, List.count_append,
      List.count_cons, List.count_nil]
    omega
  | stop halted queue hopen hidle hqueue hhalted hwhy =>
    refine ⟨[], queue.filter (·.message ≠ .disconnect) ++ a.mailbox.waiting,
      halted ++ queue.filter fun l => !decide (l.message ≠ .disconnect),
      List.perm_iff_count.2 fun x => ?_, nofun, List.filter_eq_self.2 fun x hx => ?_,
      fun l hl => ?_⟩
    · have hx := (List.filter_append_perm (·.message ≠ .disconnect) queue).count_eq x
      simp only [called, held, lettersOf, completing, hidle, hqueue, Option.toList_none,
        List.filterMap_cons, List.filterMap_nil, List.count_append, List.count_nil] at hx ⊢
      omega
    · obtain ⟨l, -, rfl⟩ := List.mem_map.1 hx
      rfl
    · rcases List.mem_append.1 hl with hl | hl
      · exact hhalted l hl
      · simpa using (List.mem_filter.1 hl).2
  | finish l hcurrent =>
    refine ⟨[], [], [], List.perm_iff_count.2 fun x => ?_, nofun, ?_, nofun⟩
    · simp only [called, held, lettersOf, completing, hcurrent, Option.map_some,
        Option.toList_some, Option.toList_none, List.filterMap_cons, List.filterMap_nil,
        Turn.letter?, List.count_append, List.count_nil]
      omega
    · refine List.filter_eq_nil_iff.2 fun x hx => ?_
      obtain ⟨answer, -, rfl⟩ := Option.map_eq_some_iff.1 (Option.mem_toList.1 hx)
      exact Bool.false_ne_true
  | pass hcurrent =>
    refine ⟨[], [], [], List.perm_iff_count.2 fun x => ?_, nofun, rfl, nofun⟩
    simp only [called, held, lettersOf, completing, hcurrent, Option.map_none, Option.toList_none,
      List.filterMap_cons, List.filterMap_nil, List.count_append, List.count_nil]
    omega
  | edit change =>
    refine ⟨[], [], [], List.perm_iff_count.2 fun x => ?_, nofun, rfl, nofun⟩
    simp only [called, held, lettersOf, completing, List.filterMap_cons, List.filterMap_nil,
      Turn.letter?, List.count_append, List.count_nil]
    omega
  | _ =>
    refine ⟨[], [], [], List.perm_iff_count.2 fun x => ?_, nofun, rfl, nofun⟩
    simp only [called, held, lettersOf, completing, List.filterMap_cons, List.filterMap_nil,
      List.count_append, List.count_nil]
    omega

theorem Effect.entering_waits (h : Effect service a e a' more) :
    ∀ l ∈ a.entering e, l ∈ a.mailbox.waiting := by
  intro l hl
  cases h with
  | enter call l' before after hwaiting hentering =>
    rw [hentering, List.mem_singleton] at hl
    rw [hl, hwaiting]
    exact List.mem_append_right _ List.mem_cons_self
  | stay call hentering =>
    rw [hentering] at hl
    cases hl
  | _ => cases hl

theorem Effect.gone_of_open (h : Effect service a e a' more) (hopen : a'.mailbox.closed = false) :
    a.mailbox.closed = false ∧ more.filter (·.2.isGone) = [] := by
  cases h with
  | refuse l hclosed => exact absurd (hopen.symm.trans hclosed) Bool.false_ne_true
  | enter call l before after hwaiting hentering =>
    refine ⟨hopen, ?_⟩
    unfold endingOnEntry
    split <;> rfl
  | stop => cases hopen
  | finish l hcurrent =>
    refine ⟨hopen, List.filter_eq_nil_iff.2 fun x hx => ?_⟩
    obtain ⟨answer, -, rfl⟩ := Option.map_eq_some_iff.1 (Option.mem_toList.1 hx)
    exact Bool.false_ne_true
  | _ => exact ⟨hopen, rfl⟩

/-- The messages of all calls, each in the place it has come to along a run. -/
structure Filed (service : Service κ ω) (capacity : Nat) (w : ω) (events : List (Event ω))
    (withdrawn dropped halted : List Letter) : Prop where
  perm : (called events).Perm (lettersOf ((spawn capacity w).turns service events) ++
    ((spawn capacity w).run service events).1.held ++ withdrawn ++ dropped ++ halted)
  entered : ∀ l ∈ (spawn capacity w).entered service events, l ∈ called events
  withdrawn : ∀ l ∈ withdrawn, l.call ∈ left events
  dropped : ((spawn capacity w).run service events).2.filter (·.2.isGone) =
    dropped.map fun l => (l.call, .gone)
  halted : ∀ l ∈ halted, l.message = .disconnect

theorem filed_of_run (service : Service κ ω) (capacity : Nat) (w : ω)
    (events : List (Event ω)) :
    ∃ withdrawn dropped halted, Filed service capacity w events withdrawn dropped halted := by
  induction events using List.reverseRecOn with
  | nil => exact ⟨[], [], [], .refl _, nofun, nofun, rfl, nofun⟩
  | append_singleton events e ih =>
    obtain ⟨withdrawn, dropped, halted, hf⟩ := ih
    have heffect := effect_step service ((spawn capacity w).run service events).1 e
    obtain ⟨withdrawn', dropped', halted', hperm, hwithdrawn, hdropped, hhalted⟩ := heffect.filed
    have hcalled : called (events ++ [e]) = called events ++ called [e] := List.filterMap_append
    have hleft : left (events ++ [e]) = left events ++ left [e] := List.filterMap_append
    refine ⟨withdrawn ++ withdrawn', dropped ++ dropped', halted ++ halted', ?_, ?_, ?_, ?_, ?_⟩
    · refine List.perm_iff_count.2 fun x => ?_
      have hx := hf.perm.count_eq x
      have hx' := hperm.count_eq x
      rw [hcalled, turns_concat, lettersOf, List.filterMap_append, run_concat]
      simp only [List.count_append, lettersOf] at hx hx' ⊢
      omega
    · intro l hl
      rw [entered_concat] at hl
      rw [hcalled]
      refine List.mem_append_left _ ?_
      rcases List.mem_append.1 hl with hl | hl
      · exact hf.entered l hl
      · have hwaits := heffect.entering_waits l hl
        refine hf.perm.mem_iff.2 ?_
        simp only [List.mem_append, held]
        exact .inl (.inl (.inl (.inr (.inr hwaits))))
    · intro l hl
      rw [hleft]
      rcases List.mem_append.1 hl with hl | hl
      · exact List.mem_append_left _ (hf.withdrawn l hl)
      · exact List.mem_append_right _ (hwithdrawn l hl)
    · rw [run_concat, List.filter_append, hf.dropped, hdropped, List.map_append]
    · intro l hl
      rcases List.mem_append.1 hl with hl | hl
      · exact hf.halted l hl
      · exact hhalted l hl

/-! ### The endings of one call -/

def endingsOf (call : Nat) (ended : Endings) : List Ending :=
  (ended.filter (·.1 == call)).map (·.2)

theorem endingsOf_append (call : Nat) (ended ended' : Endings) :
    endingsOf call (ended ++ ended') = endingsOf call ended ++ endingsOf call ended' := by
  rw [endingsOf, List.filter_append, List.map_append, endingsOf, endingsOf]

theorem mem_endingsOf {call : Nat} {ending : Ending} {ended : Endings} :
    ending ∈ endingsOf call ended ↔ (call, ending) ∈ ended := by
  simp [endingsOf]

theorem endingsOf_eq_nil {call : Nat} {ended : Endings} (h : call ∉ ended.map (·.1)) :
    endingsOf call ended = [] := by
  refine List.map_eq_nil_iff.2 (List.filter_eq_nil_iff.2 fun x hx hc => h ?_)
  exact (beq_iff_eq.1 hc) ▸ List.mem_map_of_mem hx

theorem endingsOf_eq_singleton {call : Nat} {ending : Ending} {ended : Endings}
    (hnodup : (ended.map (·.1)).Nodup) (h : (call, ending) ∈ ended) :
    endingsOf call ended = [ending] := by
  induction ended with
  | nil => cases h
  | cons x ended ih =>
    rw [List.map_cons, List.nodup_cons] at hnodup
    rcases List.mem_cons.1 h with rfl | h
    · have hnone := endingsOf_eq_nil hnodup.1
      unfold endingsOf at hnone ⊢
      rw [List.filter_cons_of_pos (by simp), List.map_cons, hnone]
    · have hne : ¬ (x.1 == call) = true := by
        intro hc
        exact hnodup.1 ((beq_iff_eq.1 hc) ▸ List.mem_map_of_mem h)
      have hrest := ih hnodup.2 h
      unfold endingsOf at hrest ⊢
      rw [List.filter_cons, if_neg hne, hrest]

theorem perm_filter_kinds (ended : Endings) :
    ended.Perm (ended.filter (·.2.isAnswer) ++ (ended.filter (·.2.isSent) ++
      ended.filter (·.2.isGone))) := by
  induction ended with
  | nil => exact .nil
  | cons x ended ih =>
    obtain ⟨call, ending⟩ := x
    cases ending with
    | answered answer => exact ih.cons _
    | sent => exact (ih.cons _).trans List.perm_middle.symm
    | gone =>
      refine (ih.cons _).trans (List.perm_middle.symm.trans ?_)
      exact List.perm_middle.symm.append_left _

theorem endingsOf_perm (call : Nat) (ended : Endings) :
    (endingsOf call ended).Perm (endingsOf call (ended.filter (·.2.isAnswer)) ++
      (endingsOf call (ended.filter (·.2.isSent)) ++
        endingsOf call (ended.filter (·.2.isGone)))) := by
  rw [← endingsOf_append, ← endingsOf_append]
  exact ((perm_filter_kinds ended).filter _).map _

/-! ### Runs -/

section

variable {service : Service κ ω} {capacity : Nat} {w : ω} {events : List (Event ω)}
  {withdrawn dropped halted : List Letter} {l : Letter}

theorem Filed.called_of_served (hf : Filed service capacity w events withdrawn dropped halted)
    (hl : l ∈ lettersOf ((spawn capacity w).turns service events)) : l ∈ called events := by
  refine hf.perm.mem_iff.2 ?_
  simp only [List.mem_append]
  exact .inl (.inl (.inl (.inl hl)))

theorem Filed.called_of_dropped (hf : Filed service capacity w events withdrawn dropped halted)
    (hl : l ∈ dropped) : l ∈ called events := by
  refine hf.perm.mem_iff.2 ?_
  simp only [List.mem_append]
  exact .inl (.inr hl)

/-- Nothing ends that was not called. -/
theorem called_of_ended {call : Nat} {ending : Ending}
    (h : (call, ending) ∈ ((spawn capacity w).run service events).2) :
    ∃ l ∈ called events, l.call = call := by
  obtain ⟨withdrawn, dropped, halted, hf⟩ := filed_of_run service capacity w events
  rcases List.mem_append.1 ((perm_filter_kinds _).mem_iff.1 h) with h | h
  · have hserved := fun l hl => (orderly_of_run service capacity w events).requests l
      (List.mem_append_left _ hl)
    rw [answers_of_run] at h
    have hcall := List.mem_map_of_mem (f := (·.1)) h
    rw [Service.replies_calls hserved] at hcall
    obtain ⟨l, hl, rfl⟩ := List.mem_map.1 hcall
    exact ⟨l, hf.called_of_served hl, rfl⟩
  rcases List.mem_append.1 h with h | h
  · rw [sent_of_run] at h
    obtain ⟨l, hl, hpair⟩ := List.mem_map.1 h
    exact ⟨l, hf.entered l (List.mem_of_mem_filter hl), congrArg (·.1) hpair⟩
  · rw [hf.dropped] at h
    obtain ⟨l, hl, hpair⟩ := List.mem_map.1 h
    exact ⟨l, hf.called_of_dropped hl, congrArg (·.1) hpair⟩

theorem replies_nodup (hserved : ∀ l ∈ lettersOf ((spawn capacity w).turns service events),
      l.message ≠ .disconnect)
    (hf : Filed service capacity w events withdrawn dropped halted)
    (hnum : ((called events).map (·.call)).Nodup) :
    ((service.replies (none, w) ((spawn capacity w).turns service events)).map (·.1)).Nodup := by
  rw [Service.replies_calls hserved]
  have hall := (hf.perm.map (·.call)).nodup_iff.1 hnum
  simp only [List.map_append, List.append_assoc] at hall
  exact List.Nodup.of_append_left hall

theorem Filed.not_sent (hf : Filed service capacity w events withdrawn dropped halted)
    (hnum : ((called events).map (·.call)).Nodup) (hl : l ∈ called events)
    (hrequest : l.message ≠ .disconnect) :
    endingsOf l.call (((spawn capacity w).run service events).2.filter (·.2.isSent)) = [] := by
  refine endingsOf_eq_nil fun hm => ?_
  rw [sent_of_run, List.map_map] at hm
  obtain ⟨l', hl', hcall⟩ := List.mem_map.1 hm
  obtain ⟨horder, hdisconnect⟩ := List.mem_filter.1 hl'
  have he := List.inj_on_of_nodup_map hnum (hf.entered l' horder) hl hcall
  exact hrequest (he ▸ of_decide_eq_true hdisconnect)

theorem Filed.not_gone (hf : Filed service capacity w events withdrawn dropped halted)
    (hnum : ((called events).map (·.call)).Nodup) (hl : l ∈ called events)
    (hdropped : l ∉ dropped) :
    endingsOf l.call (((spawn capacity w).run service events).2.filter (·.2.isGone)) = [] := by
  refine endingsOf_eq_nil fun hm => ?_
  rw [hf.dropped, List.map_map] at hm
  obtain ⟨l', hl', hcall⟩ := List.mem_map.1 hm
  have he := List.inj_on_of_nodup_map hnum (hf.called_of_dropped hl') hl hcall
  exact hdropped (he ▸ hl')

theorem Filed.nodup (hf : Filed service capacity w events withdrawn dropped halted)
    (hnum : ((called events).map (·.call)).Nodup) (l : Letter) :
    (lettersOf ((spawn capacity w).turns service events)).count l + dropped.count l ≤ 1 := by
  have hall := hf.perm.nodup_iff.1 (List.Nodup.of_map _ hnum)
  have hcount := List.nodup_iff_count_le_one.1 hall l
  simp only [List.count_append] at hcount
  omega

theorem gone_of_open (service : Service κ ω) (capacity : Nat) (w : ω) (events : List (Event ω))
    (hopen : ((spawn capacity w).run service events).1.mailbox.closed = false) :
    ((spawn capacity w).run service events).2.filter (·.2.isGone) = [] := by
  induction events using List.reverseRecOn with
  | nil => rfl
  | append_singleton events e ih =>
    rw [run_concat] at hopen ⊢
    obtain ⟨hbefore, hnone⟩ := (effect_step service _ e).gone_of_open hopen
    rw [List.filter_append, ih hbefore, hnone, List.append_nil]

theorem calls_of_run (service : Service κ ω) (capacity : Nat) (w : ω)
    (events : List (Event ω)) : Actor.calls service capacity w events =
      service.calls w ((spawn capacity w).turns service events) := by
  have halike : Alike (spawn capacity w : Actor κ ω) (spawn capacity (w, [])) :=
    ⟨rfl, rfl, rfl, rfl⟩
  have hstate := state_of_run service.noted (spawn capacity (w, [])) (events.map .noted)
  rw [halike.turns service] at hstate
  exact congrArg (fun s => s.2.2) hstate

theorem endingsOf_served (hnum : ((called events).map (·.call)).Nodup)
    {before after : List (Turn ω)}
    (hturns : (spawn capacity w).turns service events = before ++ .handle l :: after) :
    ∃ answer, service.reply (service.state (none, w) before) (.handle l) =
        [(l.call, .answered answer)] ∧
      endingsOf l.call ((spawn capacity w).run service events).2 = [.answered answer] := by
  obtain ⟨withdrawn, dropped, halted, hf⟩ := filed_of_run service capacity w events
  have hserved := fun l hl => (orderly_of_run service capacity w events).requests l
    (List.mem_append_left _ hl)
  have hmem : l ∈ lettersOf ((spawn capacity w).turns service events) := by
    refine List.mem_filterMap.2 ⟨.handle l, ?_, rfl⟩
    rw [hturns]
    exact List.mem_append_right _ List.mem_cons_self
  have hrequest := hserved l hmem
  have hcalled := hf.called_of_served hmem
  have hdropped : l ∉ dropped := by
    intro hd
    have h := hf.nodup hnum l
    have hpos := List.count_pos_iff.2 hmem
    have hpos' := List.count_pos_iff.2 hd
    omega
  obtain ⟨answer, hreply⟩ := Service.reply_of_request service
    (service.state (none, w) before) hrequest
  have hin : (l.call, Ending.answered answer) ∈
      service.replies (none, w) ((spawn capacity w).turns service events) := by
    rw [hturns, Service.replies_append, Service.replies, hreply]
    exact List.mem_append_right _ (List.mem_append_left _ List.mem_cons_self)
  refine ⟨answer, hreply, List.perm_singleton.1 ?_⟩
  refine (endingsOf_perm l.call _).trans (.of_eq ?_)
  rw [answers_of_run, hf.not_sent hnum hcalled hrequest, hf.not_gone hnum hcalled hdropped]
  simp only [List.append_nil]
  exact endingsOf_eq_singleton (replies_nodup hserved hf hnum) hin

theorem Filed.dropped_nodup (hf : Filed service capacity w events withdrawn dropped halted)
    (hnum : ((called events).map (·.call)).Nodup) : (dropped.map (·.call)).Nodup := by
  have hall := (hf.perm.map (·.call)).nodup_iff.1 hnum
  simp only [List.map_append] at hall
  exact List.Nodup.of_append_right (List.Nodup.of_append_left hall)

/-- A request that is not served ends in no other way than by being dropped. -/
theorem Filed.unserved_perm (hf : Filed service capacity w events withdrawn dropped halted)
    (hnum : ((called events).map (·.call)).Nodup) (hl : l ∈ called events)
    (hrequest : l.message ≠ .disconnect)
    (hnot : l ∉ lettersOf ((spawn capacity w).turns service events)) :
    (endingsOf l.call ((spawn capacity w).run service events).2).Perm
      (endingsOf l.call (dropped.map fun l => (l.call, .gone))) := by
  have hserved := fun l hl => (orderly_of_run service capacity w events).requests l
    (List.mem_append_left _ hl)
  have hanswers : endingsOf l.call
      (((spawn capacity w).run service events).2.filter (·.2.isAnswer)) = [] := by
    refine endingsOf_eq_nil fun hm => hnot ?_
    rw [answers_of_run, show (spawn capacity w : Actor κ ω).session = none from rfl,
      show (spawn capacity w : Actor κ ω).world = w from rfl,
      Service.replies_calls hserved] at hm
    obtain ⟨l', hl', hcall⟩ := List.mem_map.1 hm
    have he := List.inj_on_of_nodup_map hnum (hf.called_of_served hl') hl hcall
    exact he ▸ hl'
  have hendings := endingsOf_perm l.call ((spawn capacity w).run service events).2
  rwa [hanswers, hf.not_sent hnum hl hrequest, hf.dropped, List.nil_append, List.nil_append]
    at hendings

theorem Filed.endingsOf_dropped (hf : Filed service capacity w events withdrawn dropped halted)
    (hnum : ((called events).map (·.call)).Nodup) (hl : l ∈ dropped) :
    endingsOf l.call (dropped.map fun l => (l.call, Ending.gone)) = [.gone] := by
  refine endingsOf_eq_singleton ?_ (List.mem_map_of_mem hl)
  rw [List.map_map]
  exact hf.dropped_nodup hnum

theorem endingsOf_unserved (hnum : ((called events).map (·.call)).Nodup)
    (hl : l ∈ called events) (hrequest : l.message ≠ .disconnect)
    (hnot : l ∉ lettersOf ((spawn capacity w).turns service events))
    (hstays : l.call ∉ left events) :
    endingsOf l.call ((spawn capacity w).run service events).2 =
      if ((spawn capacity w).run service events).1.isStopped then [.gone] else [] := by
  obtain ⟨withdrawn, dropped, halted, hf⟩ := filed_of_run service capacity w events
  have hendings := hf.unserved_perm hnum hl hrequest hnot
  split
  · rename_i hstopped
    obtain ⟨hcurrent, hqueue, hwaiting, -⟩ :=
      (orderly_of_run service capacity w events).stopped hstopped
    have hdropped : l ∈ dropped := by
      have hplace := hf.perm.mem_iff.1 hl
      simp only [List.mem_append, held, hcurrent, hqueue, hwaiting, Option.toList_none,
        List.not_mem_nil, or_false] at hplace
      rcases hplace with ((hplace | hplace) | hplace) | hplace
      · exact absurd hplace hnot
      · exact absurd (hf.withdrawn l hplace) hstays
      · exact hplace
      · exact absurd (hf.halted l hplace) hrequest
    rw [hf.endingsOf_dropped hnum hdropped] at hendings
    exact List.perm_singleton.1 hendings
  · rename_i hopen
    rw [← hf.dropped, gone_of_open service capacity w events (Bool.eq_false_iff.2 hopen)]
      at hendings
    exact hendings.eq_nil

/-- If a request has ended that is not served, then because the keeper has stopped. -/
theorem gone_of_ended (hnum : ((called events).map (·.call)).Nodup)
    (hl : l ∈ called events) (hrequest : l.message ≠ .disconnect)
    (hnot : l ∉ lettersOf ((spawn capacity w).turns service events)) {ending : Ending}
    (hended : (l.call, ending) ∈ ((spawn capacity w).run service events).2) :
    ending = .gone ∧ endingsOf l.call ((spawn capacity w).run service events).2 = [.gone] ∧
      ((spawn capacity w).run service events).1.isStopped = true := by
  obtain ⟨withdrawn, dropped, halted, hf⟩ := filed_of_run service capacity w events
  have hendings := hf.unserved_perm hnum hl hrequest hnot
  have hmem := hendings.mem_iff.1 (mem_endingsOf.2 hended)
  obtain ⟨l', hl', hpair⟩ := List.mem_map.1 (mem_endingsOf.1 hmem)
  obtain ⟨hcall, rfl⟩ := Prod.mk.inj hpair
  rw [← hcall, hf.endingsOf_dropped hnum hl', hcall] at hendings
  refine ⟨rfl, List.perm_singleton.1 hendings, ?_⟩
  -- A keeper that goes on drops nothing.
  refine Bool.of_not_eq_false fun hopen => ?_
  have hnone := gone_of_open service capacity w events hopen
  rw [hf.dropped, List.map_eq_nil_iff] at hnone
  rw [hnone] at hl'
  cases hl'

theorem served_eq_takeWhile (hcancel : .cancel ∉ events)
    (hstopped : ((spawn capacity w).run service events).1.isStopped) :
    lettersOf ((spawn capacity w).turns service events) =
      ((spawn capacity w).entered service events).takeWhile (·.message ≠ .disconnect) := by
  have horderly := orderly_of_run service capacity w events
  obtain ⟨-, -, -, rest, horder, hwhy⟩ := horderly.stopped hstopped
  have hhead := hwhy.resolve_left fun hc => hcancel (cancelled_of_run service capacity w events hc)
  have hserved : ∀ l ∈ lettersOf ((spawn capacity w).turns service events),
      decide (l.message ≠ .disconnect) = true := by
    intro l hl
    exact decide_eq_true (horderly.requests l (List.mem_append_left _ hl))
  rw [horder, List.takeWhile_append_of_pos hserved]
  cases rest with
  | nil => simp
  | cons d rest => simp [hhead d rfl]

/-- What can be seen of a run is what comes of serving the first of the messages that got into the
mailbox one at a time. -/
structure Serial (service : Service κ ω) (capacity : Nat) (w : ω) (events : List (Event ω)) :
    Prop where
  order : lettersOf ((spawn capacity w).turns service events) <+:
    (spawn capacity w).entered service events
  requests : ∀ l ∈ lettersOf ((spawn capacity w).turns service events), l.message ≠ .disconnect
  edits : changesOf ((spawn capacity w).turns service events) = Actor.edits events
  state : (((spawn capacity w).run service events).1.session,
      ((spawn capacity w).run service events).1.world) =
    service.state (none, w) ((spawn capacity w).turns service events)
  calls : Actor.calls service capacity w events =
    service.calls w ((spawn capacity w).turns service events)
  answers : ((spawn capacity w).run service events).2.filter (·.2.isAnswer) =
    service.replies (none, w) ((spawn capacity w).turns service events)
  /-- A request that is served ends with the reply of its own turn, and with nothing else. -/
  served : ∀ before l after,
    (spawn capacity w).turns service events = before ++ .handle l :: after →
    ∃ answer, service.reply (service.state (none, w) before) (.handle l) =
        [(l.call, .answered answer)] ∧
      endingsOf l.call ((spawn capacity w).run service events).2 = [.answered answer]
  /-- Any other request whose caller stays to the end learns that the keeper is gone as soon as it
  is. -/
  unserved : ∀ l ∈ called events, l.message ≠ .disconnect →
    l ∉ lettersOf ((spawn capacity w).turns service events) → l.call ∉ left events →
    endingsOf l.call ((spawn capacity w).run service events).2 =
      if ((spawn capacity w).run service events).1.isStopped then [.gone] else []
  /-- Where nobody cancels, the messages served are those ahead of the first disconnect. -/
  complete : .cancel ∉ events → ((spawn capacity w).run service events).1.isStopped →
    lettersOf ((spawn capacity w).turns service events) =
      ((spawn capacity w).entered service events).takeWhile (·.message ≠ .disconnect)

/-- Every run is serial, whatever the capacity and however the events are interleaved, if each call
has a number of its own. -/
theorem serial_of_run (service : Service κ ω) (capacity : Nat) (w : ω) (events : List (Event ω))
    (hnum : ((called events).map (·.call)).Nodup) : Serial service capacity w events where
  order := (orderly_of_run service capacity w events).served_first
  requests l hl := (orderly_of_run service capacity w events).requests l
    (List.mem_append_left _ hl)
  edits := changesOf_turns service (spawn capacity w) events
  state := state_of_run service (spawn capacity w) events
  calls := calls_of_run service capacity w events
  answers := answers_of_run service (spawn capacity w) events
  served _ _ _ hturns := endingsOf_served hnum hturns
  unserved _ hl hrequest hnot hstays := endingsOf_unserved hnum hl hrequest hnot hstays
  complete hcancel hstopped := served_eq_takeWhile hcancel hstopped

end

def echoService : Service (Table Digest.Words) (List (String × String)) :=
  ⟨Compiler.echo.backend, .plain⟩

/-- The keeper stops at a disconnect while one caller waits for room, and another comes after. -/
def burst : List (Event (List (String × String))) :=
  [.call ⟨1, .init ⟨"", "/lib"⟩⟩, .call ⟨2, .disconnect⟩, .call ⟨3, .compile "/p/A.fs"⟩,
    .enter 1, .take, .enter 2, .finish, .take, .call ⟨4, .compile "/p/B.fs"⟩]

theorem serial_of_run_burst :
    ((called burst).map (·.call)).Nodup ∧ Serial echoService 0 [] burst ∧
    lettersOf ((spawn 0 []).turns echoService burst) = [⟨1, .init ⟨"", "/lib"⟩⟩] ∧
    endingsOf 3 ((spawn 0 []).run echoService burst).2 = [.gone] ∧
    endingsOf 4 ((spawn 0 []).run echoService burst).2 = [.gone] :=
  ⟨by decide, serial_of_run echoService 0 [] burst (by decide), rfl, rfl, rfl⟩

end Actor

end WarmCompile
