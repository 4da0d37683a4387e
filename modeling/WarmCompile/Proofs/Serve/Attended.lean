import WarmCompile.Proofs.Serve.Visit
import WarmCompile.Proofs.Session.Progress

/-!
Nobody who visits a front is left waiting: tasks, writer and keeper come to rest, and then every
task is done and every response is out.
-/

namespace WarmCompile.Conversation

variable {κ ω : Type} {service : Service κ ω} {s : Conversation κ ω} {call : Nat} {t : Task}

/-- What goes on by itself, without the peer and without new callers. -/
def Visit.Inner : Visit ω → Prop
  | .ask _ | .done _ | .write => True
  | .keeper e => e.Inner
  | _ => False

/-- A task that has not put its message to the keeper. -/
def unasked (asked : List Nat) (t : Task) : Bool :=
  !asked.contains t.call && t.request.call.message?.isSome

/-- How much there is left to do at most. -/
def weight (s : Conversation κ ω) : Nat :=
  s.actor.weight + 4 * s.connection.tasks.countP (unasked s.asked) +
    2 * s.connection.tasks.length + s.connection.outbox.length

/-- The keeper owes every task that has asked it an ending. -/
structure Attended (s : Conversation κ ω) : Prop where
  tidy : s.actor.Tidy
  tasks : ∀ t ∈ s.connection.tasks, t.call < s.calls
  asked : ∀ call ∈ s.asked, call < s.calls
  kept : ∀ t ∈ s.connection.tasks, t.call ∈ s.asked →
    (∃ ending, (t.call, ending) ∈ s.ended) ∨
      ∃ l ∈ s.actor.held, l.call = t.call ∧ l.message ≠ .disconnect

/-- What a task has to put to the keeper is its own request. -/
theorem letter?_eq_some {l : Letter} (h : s.letter? call = some l) :
    ∃ t ∈ s.connection.tasks, t.call = call ∧ unasked s.asked t = true ∧ l.call = call ∧
      t.request.call.message? = some l.message := by
  unfold letter? at h
  split at h
  · cases h
  · rename_i t ht
    split at h
    · cases h
    · rename_i hnot
      obtain ⟨message, hm, rfl⟩ := Option.map_eq_some_iff.1 h
      have hcall : t.call = call := by simpa using List.find?_some ht
      refine ⟨t, List.mem_of_find?_eq_some ht, hcall, ?_, rfl, hm⟩
      simp [unasked, hm, hcall, hnot]

namespace Attended

theorem opened (capacity : Nat) (w : ω) : Attended (opened capacity w : Conversation κ ω) :=
  ⟨Actor.tidy_spawn capacity w, nofun, nofun, nofun⟩

/-- A task that goes on waiting is still owed an ending after a step of the keeper. -/
theorem keep (h : Attended s) (service : Service κ ω) (e : Actor.Event ω) {calls : Nat}
    {asked : List Nat} (hcalls : s.calls ≤ calls)
    (hasked : ∀ call ∈ asked, call ∈ s.asked ∨
      call < calls ∧ ∃ l ∈ Actor.called [e], l.call = call ∧ l.message ≠ .disconnect)
    (hleft : ∀ t ∈ s.connection.tasks, t.call ∈ asked → t.call ∉ Actor.left [e]) :
    Attended { s.keep service e with calls, asked } := by
  have heffect := Actor.effect_step service s.actor e
  constructor
  case tidy => exact heffect.tidy h.tidy
  case tasks =>
    intro t ht
    exact Nat.lt_of_lt_of_le (h.tasks t ht) hcalls
  case asked =>
    intro call hcall
    rcases hasked call hcall with hold | ⟨hlt, -⟩
    · exact Nat.lt_of_lt_of_le (h.asked call hold) hcalls
    · exact hlt
  case kept =>
    intro t ht hcall
    have howed : (∃ ending, (t.call, ending) ∈ s.ended) ∨
        ∃ l ∈ Actor.called [e] ++ s.actor.held, l.call = t.call ∧ l.message ≠ .disconnect := by
      rcases hasked t.call hcall with hold | ⟨-, l, hl, hrest⟩
      · exact (h.kept t ht hold).imp_right fun ⟨l, hl, hrest⟩ =>
          ⟨l, List.mem_append_right _ hl, hrest⟩
      · exact .inr ⟨l, List.mem_append_left _ hl, hrest⟩
    rcases howed with ⟨ending, hending⟩ | ⟨l, hl, heq, hmessage⟩
    · exact .inl ⟨ending, List.mem_append_left _ hending⟩
    · rcases heffect.kept hl hmessage (heq ▸ hleft t ht hcall) with hheld | ⟨ending, hending⟩
      · exact .inr ⟨l, hheld, heq, hmessage⟩
      · exact .inl ⟨ending, List.mem_append_right _ (heq ▸ hending)⟩

theorem keeper (h : Attended s) (hover : s.connection.ended = true → s.connection.tasks = [])
    (service : Service κ ω) (e : Actor.Event ω) : Attended (s.visit service (.keeper e)) := by
  rcases s.visit_keeper service e with hsame | ⟨e', calls, hcalls, hkeep, hleft⟩
  · rw [hsame]
    exact h
  · rw [hkeep]
    refine h.keep service e' hcalls (fun _ => .inl) fun t ht hasked hmem => ?_
    have hnone := hover (hleft t.call hasked hmem)
    exact absurd ht (hnone ▸ List.not_mem_nil)

theorem ask (h : Attended s) (service : Service κ ω) (call : Nat) :
    Attended (s.ask service call) := by
  unfold Conversation.ask
  cases hl : s.letter? call with
  | none => exact h
  | some l =>
    obtain ⟨t, ht, hcall, -, hletter, hm⟩ := letter?_eq_some hl
    have hmessage := Call.message_ne_disconnect hm
    refine h.keep service (.call l) (Nat.le_refl _) (fun call' hcall' => ?_) fun _ _ _ => nofun
    rcases List.mem_cons.1 hcall' with rfl | hold
    · exact .inr ⟨hcall ▸ h.tasks t ht, l, List.mem_cons_self, hletter, hmessage⟩
    · exact .inl hold

/-- An event of the connection begins no task, or one under the next number. -/
theorem serve (h : Attended s) (e : Connection.Event) {calls : Nat} (hcalls : s.calls ≤ calls)
    (htasks : ∀ t ∈ (s.connection.step e).tasks,
      t ∈ s.connection.tasks ∨ t.call = s.calls ∧ s.calls < calls) :
    Attended { s.serve e with calls } := by
  constructor
  case tidy => exact h.tidy
  case tasks =>
    intro t ht
    rcases htasks t ht with hold | ⟨hnew, hlt⟩
    · exact Nat.lt_of_lt_of_le (h.tasks t hold) hcalls
    · exact hnew ▸ hlt
  case asked =>
    intro call hasked
    exact Nat.lt_of_lt_of_le (h.asked call hasked) hcalls
  case kept =>
    intro t ht hasked
    rcases htasks t ht with hold | ⟨hnew, -⟩
    · exact h.kept t hold hasked
    · exact absurd (h.asked t.call hasked) (hnew ▸ Nat.lt_irrefl _)

theorem finish (h : Attended s) (call : Nat) : Attended (s.finish call) := by
  have hdone (ending : Option Ending) : Attended (s.serve (.done call ending)) :=
    h.serve _ (Nat.le_refl _) fun t ht => .inl (s.connection.tasks_done call ending ht)
  rcases s.finish_cases call with hsame | ⟨t, ending, -, hfinish, -⟩
  · rw [hsame]
    exact h
  · rw [hfinish]
    exact hdone ending

theorem write (h : Attended s) : Attended s.write := by
  obtain ⟨-, -, htasks⟩ := s.connection.write_cases
  obtain ⟨htidy, htask, hasked, hkept⟩ :=
    h.serve .write (Nat.le_refl _) fun t ht => .inl (htasks ▸ ht)
  exact ⟨htidy, htask, hasked, hkept⟩

theorem step (h : Attended s) (hover : s.connection.ended = true → s.connection.tasks = [])
    (service : Service κ ω) (e : Visit ω) : Attended (s.visit service e) := by
  cases e with
  | line text =>
    exact h.serve _ (Nat.le_succ _) fun t ht =>
      (Connection.tasks_line ht).imp_right fun hcall => ⟨hcall, Nat.lt_succ_self _⟩
  | close => exact h.serve .close (Nat.le_refl _) nofun
  | hangUp => exact h.serve .hangUp (Nat.le_refl _) fun t ht => .inl ht
  | ask call => exact h.ask service call
  | keeper e => exact h.keeper hover service e
  | done call => exact h.finish call
  | write => exact h.write

end Attended

theorem attended_of_run (service : Service κ ω) (capacity : Nat) (w : ω)
    (events : List (Visit ω)) : Attended ((opened capacity w).visitAll service events) := by
  induction events using List.reverseRecOn with
  | nil => exact .opened capacity w
  | append_singleton events e ih =>
    rw [visitAll_concat]
    exact ih.step (visited_of_run service capacity w events).ceased service e

/-! ### Coming to rest -/

theorem countP_unasked_lt {tasks : List Task} {asked : List Nat} (ht : t ∈ tasks)
    (hunasked : unasked asked t = true) :
    tasks.countP (unasked (t.call :: asked)) < tasks.countP (unasked asked) := by
  have hmono (ts : List Task) :
      ts.countP (unasked (t.call :: asked)) ≤ ts.countP (unasked asked) := by
    refine List.countP_mono_left fun t' _ h => ?_
    simp only [unasked, List.contains_cons, Bool.not_or, Bool.and_eq_true] at h ⊢
    exact ⟨h.1.2, h.2⟩
  have hasked : unasked (t.call :: asked) t = false := by simp [unasked]
  obtain ⟨before, after, rfl⟩ := List.append_of_mem ht
  have hbefore := hmono before
  have hafter := hmono after
  simp only [List.countP_append, List.countP_cons, hasked, hunasked, Bool.false_eq_true, if_false,
    if_true]
  omega

theorem ask_weight_lt {l : Letter} (service : Service κ ω) (hl : s.letter? call = some l) :
    (s.ask service call).weight < s.weight := by
  obtain ⟨t, ht, rfl, hunasked, -, -⟩ := letter?_eq_some hl
  have hactor := (Actor.effect_step service s.actor (.call l)).weight_call
  have htasks := countP_unasked_lt ht hunasked
  simp only [ask, hl, weight, Conversation.keep]
  omega

theorem done_weight_lt (ht : s.connection.tasks.find? (·.call == call) = some t)
    (ending : Option Ending) : (s.serve (.done call ending)).weight < s.weight := by
  have hmem := List.mem_of_find?_eq_some ht
  have hlength := List.length_eraseP_of_mem hmem (List.find?_some ht)
  have hpos := List.length_pos_of_mem hmem
  have hcount : (s.connection.tasks.eraseP (·.call == call)).countP (unasked s.asked) ≤
      s.connection.tasks.countP (unasked s.asked) := List.eraseP_sublist.countP_le
  simp only [weight, serve, Connection.step, ht, Connection.post]
  split
  · dsimp only
    omega
  · simp only [List.length_append, List.length_singleton]
    omega

theorem write_weight_lt {r : Response} {outbox : List Response}
    (houtbox : s.connection.outbox = r :: outbox) : s.write.weight < s.weight := by
  cases hdeaf : s.connection.deaf with
  | true =>
    simp only [write_deaf hdeaf houtbox, weight, houtbox, List.length_cons, List.length_nil]
    omega
  | false =>
    simp only [write_cons hdeaf houtbox, weight, houtbox, List.length_cons]
    omega

theorem visit_inner (service : Service κ ω) (s : Conversation κ ω) {e : Actor.Event ω}
    (he : e.Inner) : s.visit service (.keeper e) = s.keep service e := by
  cases e with
  | enter | take | finish => rfl
  | _ => cases he

/-- What goes on by itself gets somewhere or does nothing. -/
theorem visit_weight_lt (service : Service κ ω) (s : Conversation κ ω) {e : Visit ω}
    (he : e.Inner) : s.visit service e = s ∨ (s.visit service e).weight < s.weight := by
  cases e with
  | ask call =>
    cases hl : s.letter? call with
    | none => exact .inl (by simp only [visit, ask, hl])
    | some l => exact .inr (ask_weight_lt service hl)
  | keeper e =>
    rw [visit_inner service s he]
    rcases (Actor.effect_step service s.actor e).weight_lt he with ⟨hactor, hmore⟩ | hlt
    · refine .inl ?_
      have hstep : s.actor.step service e = (s.actor, []) := Prod.ext hactor hmore
      simp only [Conversation.keep, hstep, List.append_nil]
    · refine .inr ?_
      simp only [weight, Conversation.keep]
      omega
  | done call =>
    simp only [visit, finish]
    split
    · exact .inl rfl
    · rename_i ht
      split
      · exact .inr (done_weight_lt ht _)
      · exact .inr (done_weight_lt ht _)
      · exact .inl rfl
  | write =>
    cases houtbox : s.connection.outbox with
    | nil => exact .inl (write_nil houtbox)
    | cons r outbox => exact .inr (write_weight_lt houtbox)
  | _ => cases he

theorem Attended.progress (h : Attended s) (service : Service κ ω)
    (hbusy : s.connection.tasks ≠ [] ∨ s.connection.outbox ≠ []) :
    ∃ e : Visit ω, e.Inner ∧ (s.visit service e).weight < s.weight := by
  cases houtbox : s.connection.outbox with
  | cons r outbox => exact ⟨.write, trivial, write_weight_lt houtbox⟩
  | nil =>
    obtain ⟨t, tasks, htasks⟩ :=
      List.exists_cons_of_ne_nil (hbusy.resolve_right fun hout => hout houtbox)
    have ht : s.connection.tasks.find? (·.call == t.call) = some t := by
      rw [htasks]
      exact List.find?_cons_of_pos (beq_self_eq_true _)
    cases hm : t.request.call.message? with
    | none =>
      refine ⟨.done t.call, trivial, ?_⟩
      simp only [visit, Conversation.finish, ht, hm]
      exact done_weight_lt ht none
    | some message =>
      by_cases hasked : t.call ∈ s.asked
      · rcases h.kept t (List.mem_of_find?_eq_some ht) hasked with ⟨ending, hending⟩ | ⟨l, hl, -⟩
        · refine ⟨.done t.call, trivial, ?_⟩
          cases hlookup : s.ended.lookup t.call with
          | none =>
            have hnone := List.lookup_eq_none_iff.1 hlookup (t.call, ending) hending
            exact absurd rfl (bne_iff_ne.1 hnone)
          | some ending' =>
            simp only [visit, Conversation.finish, ht, hm, hlookup]
            exact done_weight_lt ht _
        · obtain ⟨e, he, hlt⟩ := h.tidy.progress service (List.ne_nil_of_mem hl)
          refine ⟨.keeper e, he, ?_⟩
          rw [visit_inner service s he]
          simp only [weight, Conversation.keep]
          omega
      · have hl : s.letter? t.call = some ⟨t.call, message⟩ := by
          simp only [letter?, ht, if_neg hasked, hm, Option.map_some]
        exact ⟨.ask t.call, trivial, ask_weight_lt service hl⟩

end WarmCompile.Conversation
