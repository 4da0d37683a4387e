import WarmCompile.Proofs.Session.Outcome

/-!
A keeper gets on: left to themselves, callers and keeper come to rest, and then no message is held
any more.
-/

namespace WarmCompile.Actor

variable {κ ω : Type} {service : Service κ ω} {a a' : Actor κ ω} {e : Event ω} {more : Endings}

/-- What goes on by itself: a sender gets in, and the keeper takes up a message and handles it. -/
def Event.Inner : Event ω → Prop
  | .enter _ | .take | .finish => True
  | _ => False

/-- How much there is left to do at most. -/
def weight (a : Actor κ ω) : Nat :=
  3 * a.mailbox.waiting.length + 2 * a.mailbox.queue.length + a.current.toList.length +
    if a.mailbox.closed then 0 else 1

/-- A mailbox has room for a message, and a keeper that has stopped does not hold any. -/
structure Tidy (a : Actor κ ω) : Prop where
  room : 0 < a.mailbox.capacity
  empty : a.mailbox.closed = true → a.mailbox.queue = [] ∧ a.mailbox.waiting = []

theorem tidy_spawn (capacity : Nat) (w : ω) : (spawn capacity w : Actor κ ω).Tidy :=
  ⟨Nat.lt_of_lt_of_le Nat.one_pos (Nat.le_max_right _ _), nofun⟩

theorem Effect.tidy (h : Effect service a e a' more) (ha : a.Tidy) : a'.Tidy := by
  obtain ⟨hroom, hempty⟩ := ha
  cases h with
  | await l hopen => exact ⟨hroom, fun hclosed => nomatch hopen.symm.trans hclosed⟩
  | enter call l before after hwaiting hentering =>
    refine ⟨hroom, fun hclosed => ?_⟩
    have hnone := (hempty hclosed).2
    rw [hwaiting] at hnone
    exact absurd hnone (by simp)
  | leave call =>
    refine ⟨hroom, fun hclosed => ?_⟩
    obtain ⟨hqueue, hwaiting⟩ := hempty hclosed
    exact ⟨hqueue, by simp only [hwaiting, List.filter_nil]⟩
  | take l queue hopen => exact ⟨hroom, fun hclosed => nomatch hopen.symm.trans hclosed⟩
  | stop => exact ⟨hroom, fun _ => ⟨rfl, rfl⟩⟩
  | _ => exact ⟨hroom, hempty⟩

/-- A message that is neither taken back nor a disconnect stays held until its call ends. -/
theorem Effect.kept (h : Effect service a e a' more) {l : Letter} (hl : l ∈ called [e] ++ a.held)
    (hmessage : l.message ≠ .disconnect) (hleft : l.call ∉ left [e]) :
    l ∈ a'.held ∨ ∃ ending, (l.call, ending) ∈ more := by
  obtain ⟨withdrawn, dropped, halted, hperm, hwithdrawn, hdropped, hhalted⟩ := h.filed
  have hplace := hperm.mem_iff.1 hl
  simp only [List.mem_append] at hplace
  rcases hplace with (((hserved | hheld) | hgone) | hgone) | hgone
  · refine .inr ?_
    cases h with
    | finish l' hcurrent =>
      obtain rfl : l = l' := by simpa [completing, hcurrent, lettersOf, Turn.letter?] using hserved
      obtain ⟨answer, hreply⟩ := service.reply_of_request (a.session, a.world) hmessage
      rw [hreply]
      exact ⟨_, List.mem_cons_self⟩
    | pass hcurrent =>
      rw [completing, hcurrent] at hserved
      cases hserved
    | _ => cases hserved
  · exact .inl hheld
  · exact absurd (hwithdrawn l hgone) hleft
  · have hmem : (l.call, Ending.gone) ∈ more.filter (·.2.isGone) := by
      rw [hdropped]
      exact List.mem_map.2 ⟨l, hgone, rfl⟩
    exact .inr ⟨_, List.mem_of_mem_filter hmem⟩
  · exact absurd (hhalted l hgone) hmessage

/-! ### Coming to rest -/

/-- What goes on by itself gets somewhere or does nothing. -/
theorem Effect.weight_lt (h : Effect service a e a' more) (he : e.Inner) :
    (a' = a ∧ more = []) ∨ a'.weight < a.weight := by
  cases h with
  | stay | rest | pass => exact .inl ⟨rfl, rfl⟩
  | enter call l before after hwaiting hentering =>
    refine .inr ?_
    simp only [weight, hwaiting, List.length_append, List.length_cons, List.length_nil]
    omega
  | take l queue hopen hidle hqueue hl =>
    refine .inr ?_
    simp only [weight, hidle, hqueue, Option.toList_some, Option.toList_none, List.length_cons,
      List.length_nil]
    omega
  | stop halted queue hopen hidle hqueue hhalted hwhy =>
    refine .inr ?_
    simp only [weight, hopen, hidle, List.length_nil, Option.toList_none, if_true,
      Bool.false_eq_true, if_false]
    omega
  | finish l hcurrent =>
    refine .inr ?_
    simp only [weight, hcurrent, Option.toList_some, Option.toList_none, List.length_cons,
      List.length_nil]
    omega
  | _ => cases he

theorem Effect.weight_call {l : Letter} (h : Effect service a (.call l) a' more) :
    a'.weight ≤ a.weight + 3 := by
  cases h with
  | await =>
    simp only [weight, List.length_append, List.length_singleton]
    omega
  | refuse => exact Nat.le_add_right _ _

/-- A keeper that holds a message can get on. -/
theorem Tidy.progress (h : a.Tidy) (service : Service κ ω) (hheld : a.held ≠ []) :
    ∃ e : Event ω, e.Inner ∧ (a.step service e).1.weight < a.weight := by
  cases hcurrent : a.current with
  | some l =>
    refine ⟨.finish, trivial, ?_⟩
    simp only [step, finishCurrent, hcurrent, weight, Option.toList_some, Option.toList_none,
      List.length_cons, List.length_nil]
    omega
  | none =>
    have hopen : a.mailbox.closed = false := by
      refine Bool.eq_false_iff.2 fun hclosed => hheld ?_
      obtain ⟨hqueue, hwaiting⟩ := h.empty hclosed
      rw [held, hcurrent, hqueue, hwaiting]
      rfl
    cases hqueue : a.mailbox.queue with
    | cons l queue =>
      refine ⟨.take, trivial, ?_⟩
      have hmoved : (a.step service .take).1 ≠ a := by
        refine fun hsame => absurd (congrArg (·.mailbox.queue) hsame) ?_
        simp only [step, takeNext, isStopped, hopen, hcurrent, Mailbox.take, hqueue, Bool.false_or,
          Option.isSome_none, Bool.false_eq_true, if_false]
        split
        · simp [stop, Mailbox.close]
        · split <;> simp [stop, Mailbox.close]
      exact ((effect_step service a .take).weight_lt trivial).resolve_left fun hs => hmoved hs.1
    | nil =>
      cases hwaiting : a.mailbox.waiting with
      | nil =>
        refine absurd ?_ hheld
        rw [held, hcurrent, hqueue, hwaiting]
        rfl
      | cons l waiting =>
        refine ⟨.enter l.call, trivial, ?_⟩
        have henter : a.mailbox.enter (·.call == l.call) =
            some (l, { a.mailbox with queue := [l], waiting }) := by
          simp [Mailbox.enter, Mailbox.hasRoom, hqueue, hwaiting, h.room]
        simp only [step, henter, weight, hqueue, hwaiting, List.length_cons, List.length_nil]
        omega

end WarmCompile.Actor
