import Mathlib.Data.List.Perm.Basic
import WarmCompile.Proofs.Client.Answered
import WarmCompile.Proofs.Wire.Id
import WarmCompile.Serve.Connection

/-!
Lines and responses of one connection: what is read and what is written stay matched, whatever comes
in and in whatever order the tasks are done.
-/

namespace WarmCompile

/-- A line that asks for a response, under its number. -/
structure Inquiry where
  call : Nat
  line : String
  deriving DecidableEq

/-- What an inquiry can be answered: that it is no request, or what becomes of its call. -/
inductive Inquiry.Reply (told : Nat → Ending → Prop) (x : Inquiry) : Response → Prop where
  | refused {r : Response} (h : Incoming.ofLine x.line = .refused r) : Reply told x r
  | plain {q : Request} (h : Incoming.ofLine x.line = .request q) (hm : q.call.message? = none) :
    Reply told x (q.respond none)
  | told {q : Request} {message : Message} {ending : Ending}
    (h : Incoming.ofLine x.line = .request q) (hm : q.call.message? = some message)
    (htold : told x.call ending) : Reply told x (q.respond (some ending))

variable {told told' : Nat → Ending → Prop} {x : Inquiry} {r : Response} {call : Nat}

namespace Inquiry

theorem Reply.goesBy (h : x.Reply told r) : Incoming.GoesBy x.line r.id := by
  cases h with
  | refused h => exact .of_refused h
  | plain h => exact Request.respond_id _ _ ▸ .of_request h
  | told h => exact Request.respond_id _ _ ▸ .of_request h

theorem Reply.mono (h : x.Reply told r)
    (hmono : ∀ call ending, told call ending → told' call ending) : x.Reply told' r := by
  cases h with
  | refused h => exact .refused h
  | plain h hm => exact .plain h hm
  | told h hm htold => exact .told h hm (hmono _ _ htold)

/-- The inquiry that a line makes, unless it is blank. -/
def ofLine (call : Nat) (line : String) : List Inquiry :=
  if (Text.trimmed line).isEmpty then [] else [⟨call, line⟩]

end Inquiry

namespace Connection

variable {c : Connection}

/-- The inquiry that is read with an event. -/
def taken (c : Connection) : Event → List Inquiry
  | .line call (some line) => if c.ended then [] else Inquiry.ofLine call line
  | _ => []

/-! ### What an event leaves as it is -/

/-- Nothing has been written, or tried to be. -/
structure Keeps (c c' : Connection) : Prop where
  sent : c'.sent = c.sent
  deaf : c'.deaf = c.deaf
  failed : c'.failed = c.failed

theorem keeps_refl (c : Connection) : c.Keeps c :=
  ⟨rfl, rfl, rfl⟩

theorem keeps_close (c : Connection) : c.Keeps c.close :=
  ⟨rfl, rfl, rfl⟩

theorem keeps_post (c : Connection) (r : Response) : c.Keeps (c.post r) := by
  unfold post
  split <;> exact ⟨rfl, rfl, rfl⟩

@[simp]
theorem post_ended (c : Connection) (r : Response) : (c.post r).ended = c.ended := by
  unfold post
  split <;> rfl

@[simp]
theorem post_tasks (c : Connection) (r : Response) : (c.post r).tasks = c.tasks := by
  unfold post
  split <;> rfl

/-- A line has no part in what has been written. -/
theorem keeps_line (c : Connection) (call : Nat) (text : Option String) :
    c.Keeps (c.step (.line call text)) := by
  unfold step
  dsimp only
  split
  · exact c.keeps_refl
  · cases text with
    | none => exact c.keeps_close
    | some line =>
      simp only [read]
      split
      · exact c.keeps_refl
      · split
        · exact ⟨rfl, rfl, rfl⟩
        · exact { keeps_post _ _ with }
      · exact ⟨rfl, rfl, rfl⟩

theorem ended_line {text : Option String} (h : (c.step (.line call text)).ended = true) :
    c.ended = true ∨ text = none ∨ c.failed = true := by
  unfold step at h
  dsimp only at h
  split at h
  · exact .inl h
  · cases text with
    | none => exact .inr (.inl rfl)
    | some line =>
      simp only [read] at h
      split at h
      · exact .inl h
      · split at h
        · exact .inr (.inr ‹_›)
        · rw [post_ended] at h
          exact .inl h
      · exact .inl h

/-- A line begins no task but its own. -/
theorem tasks_line {text : Option String} {t : Task}
    (h : t ∈ (c.step (.line call text)).tasks) : t ∈ c.tasks ∨ t.call = call := by
  unfold step at h
  dsimp only at h
  split at h
  · exact .inl h
  · cases text with
    | none => cases h
    | some line =>
      simp only [read] at h
      split at h
      · exact .inl h
      · split at h
        · cases h
        · rw [post_tasks] at h
          exact .inl h
      · exact (List.mem_append.1 h).imp_right fun h => congrArg Task.call (List.mem_singleton.1 h)

theorem keeps_done (c : Connection) (call : Nat) (ending : Option Ending) :
    c.Keeps (c.step (.done call ending)) := by
  unfold step
  dsimp only
  split
  · exact c.keeps_refl
  · exact { keeps_post _ _ with }

theorem ended_done (c : Connection) (call : Nat) (ending : Option Ending) :
    (c.step (.done call ending)).ended = c.ended := by
  unfold step
  dsimp only
  split
  · rfl
  · exact post_ended _ _

theorem tasks_done (c : Connection) (call : Nat) (ending : Option Ending) :
    (c.step (.done call ending)).tasks ⊆ c.tasks := by
  unfold step
  dsimp only
  split
  · exact List.Subset.refl _
  · rw [post_tasks]
    exact List.eraseP_subset

theorem write_cases (c : Connection) : (c.step .write).ended = c.ended ∧
    (c.failed = true → (c.step .write).failed = true) ∧ (c.step .write).tasks = c.tasks := by
  unfold step
  dsimp only
  split
  · exact ⟨rfl, id, rfl⟩
  · split
    · exact ⟨rfl, fun _ => rfl, rfl⟩
    · exact ⟨rfl, id, rfl⟩

/-! ### Matching -/

/-- Each inquiry that has been read has a response, or a task is there for it, or it never gets a
response because the input has ended or a response could not be written. -/
structure Matched (told : Nat → Ending → Prop) (read : List Inquiry)
    (replies : List (Inquiry × Response)) (begun : List (Inquiry × Task)) (lost : List Inquiry)
    (c : Connection) : Prop where
  count : c.count = read.length
  perm : read.Perm (replies.map (·.1) ++ begun.map (·.1) ++ lost)
  responses : replies.map (·.2) = c.sent ++ c.outbox
  due : ∀ y ∈ replies, y.1.Reply told y.2
  tasks : begun.map (·.2) = c.tasks
  asking : ∀ y ∈ begun, y.2.call = y.1.call ∧ Incoming.ofLine y.1.line = .request y.2.request
  ceased : c.ended = true → begun = []
  whole : c.ended = false → c.failed = false → lost = []

variable {read lost : List Inquiry} {replies : List (Inquiry × Response)}
  {begun : List (Inquiry × Task)}

theorem matched_opened : Matched told [] [] [] [] .opened :=
  ⟨rfl, .refl _, rfl, nofun, rfl, nofun, fun _ => rfl, fun _ _ => rfl⟩

namespace Matched

theorem mono (h : Matched told read replies begun lost c)
    (hmono : ∀ call ending, told call ending → told' call ending) :
    Matched told' read replies begun lost c :=
  { h with due := fun y hy => (h.due y hy).mono hmono }

theorem close (h : Matched told read replies begun lost c) :
    Matched told read replies [] (begun.map (·.1) ++ lost) c.close where
  count := h.count
  perm := by
    rw [List.map_nil, List.append_nil, ← List.append_assoc]
    exact h.perm
  responses := h.responses
  due := h.due
  tasks := rfl
  asking := nofun
  ceased := fun _ => rfl
  whole := nofun

theorem line_request (h : Matched told read replies begun lost c) (hopen : c.ended = false)
    {line : String} {q : Request} (hq : Incoming.ofLine line = .request q) :
    Matched told (read ++ [⟨call, line⟩]) replies (begun ++ [(⟨call, line⟩, ⟨call, q⟩)]) lost
      (c.read call (.request q)) where
  count := by
    rw [List.length_append, ← h.count]
    rfl
  perm := by
    apply List.perm_iff_count.2
    intro x
    have hx := h.perm.count_eq x
    simp only [List.map_append, List.count_append, List.map_cons, List.map_nil] at hx ⊢
    omega
  responses := h.responses
  due := h.due
  tasks := by
    rw [List.map_append, h.tasks]
    rfl
  asking := by
    intro y hy
    rcases List.mem_append.1 hy with hy | hy
    · exact h.asking y hy
    · cases List.mem_singleton.1 hy
      exact ⟨rfl, hq⟩
  ceased := fun hended => nomatch hopen.symm.trans hended
  whole := h.whole

theorem line_refused (h : Matched told read replies begun lost c) (hopen : c.ended = false)
    {line : String} (hr : Incoming.ofLine line = .refused r) :
    ∃ replies begun lost, Matched told (read ++ [⟨call, line⟩]) replies begun lost
      (c.read call (.refused r)) := by
  have hcount : c.count + 1 = (read ++ [(⟨call, line⟩ : Inquiry)]).length := by
    rw [List.length_append, ← h.count]
    rfl
  cases hfailed : c.failed with
  | true =>
    refine ⟨replies, [], ⟨call, line⟩ :: (begun.map (·.1) ++ lost), ?_⟩
    simp only [Connection.read, hfailed, if_true]
    constructor
    case count => exact hcount
    case perm =>
      apply List.perm_iff_count.2
      intro x
      have hx := h.perm.count_eq x
      simp only [List.count_append, List.count_cons, List.count_nil, List.map_nil] at hx ⊢
      omega
    case responses => exact h.responses
    case due => exact h.due
    case tasks => rfl
    case asking =>
      intro y hy
      exact absurd hy List.not_mem_nil
    case ceased =>
      intro _
      rfl
    case whole =>
      intro hopen'
      exact absurd hopen' Bool.noConfusion
  | false =>
    refine ⟨replies ++ [(⟨call, line⟩, r)], begun, lost, ?_⟩
    simp only [Connection.read, hfailed, Bool.false_eq_true, if_false, post]
    constructor
    case count => exact hcount
    case perm =>
      apply List.perm_iff_count.2
      intro x
      have hx := h.perm.count_eq x
      simp only [List.map_append, List.count_append, List.map_cons, List.map_nil] at hx ⊢
      omega
    case responses =>
      rw [List.map_append, h.responses, List.append_assoc]
      rfl
    case due =>
      intro y hy
      rcases List.mem_append.1 hy with hy | hy
      · exact h.due y hy
      · cases List.mem_singleton.1 hy
        exact .refused hr
    case tasks => exact h.tasks
    case asking => exact h.asking
    case ceased =>
      intro hended
      exact absurd (hopen.symm.trans hended) Bool.false_ne_true
    case whole =>
      intro _ _
      exact h.whole hopen hfailed

theorem line (h : Matched told read replies begun lost c) (call : Nat) (text : Option String) :
    ∃ replies begun lost, Matched told (read ++ c.taken (.line call text)) replies begun lost
      (c.step (.line call text)) := by
  cases hopen : c.ended with
  | true =>
    refine ⟨replies, begun, lost, ?_⟩
    cases text with
    | none => simpa [step, taken, hopen] using h
    | some line => simpa [step, taken, hopen] using h
  | false =>
    cases text with
    | none =>
      refine ⟨replies, [], begun.map (·.1) ++ lost, ?_⟩
      simpa [step, taken, hopen] using h.close
    | some line =>
      simp only [step, taken, hopen, Bool.false_eq_true, if_false, Inquiry.ofLine]
      have hblank : Incoming.ofLine line = .blank ↔ _ := Incoming.ofLine_eq_blank
      cases hline : Incoming.ofLine line with
      | blank =>
        rw [if_pos (hblank.1 hline), List.append_nil]
        exact ⟨replies, begun, lost, h⟩
      | refused r =>
        rw [if_neg fun hb => Incoming.noConfusion (hline.symm.trans (hblank.2 hb))]
        exact h.line_refused hopen hline
      | request q =>
        rw [if_neg fun hb => Incoming.noConfusion (hline.symm.trans (hblank.2 hb))]
        exact ⟨_, _, _, h.line_request hopen hline⟩

/-- A task that is done makes room for its response, if that can still be written. -/
theorem done (h : Matched told read replies begun lost c) {t : Task} {ending : Option Ending}
    (ht : c.tasks.find? (·.call == call) = some t)
    (hreply : ∀ line, Incoming.ofLine line = .request t.request →
      (⟨call, line⟩ : Inquiry).Reply told (t.request.respond ending)) :
    ∃ replies begun lost, Matched told read replies begun lost (c.step (.done call ending)) := by
  obtain ⟨hcall, before, after, hsplit, hbefore⟩ := List.find?_eq_some_iff_append.1 ht
  have hnot : ∀ t' ∈ before, ¬ (t'.call == call) = true := by simpa using hbefore
  have herase : c.tasks.eraseP (·.call == call) = before ++ after := by
    rw [hsplit, List.eraseP_append_right _ hnot, List.eraseP_cons, hcall, cond_true]
  have htasks := h.tasks
  rw [hsplit] at htasks
  obtain ⟨before', rest, rfl, rfl, hrest⟩ := List.map_eq_append_iff.1 htasks
  obtain ⟨⟨x, t'⟩, after', rfl, rfl, rfl⟩ := List.map_eq_cons_iff.1 hrest
  obtain ⟨hx, hrequest⟩ := h.asking (x, t') (List.mem_append_right _ List.mem_cons_self)
  have hasking : ∀ y ∈ before' ++ after',
      y.2.call = y.1.call ∧ Incoming.ofLine y.1.line = .request y.2.request := by
    intro y hy
    apply h.asking
    exact List.mem_append.2 ((List.mem_append.1 hy).imp_right (List.mem_cons_of_mem _))
  have hceased : c.ended = true → before' ++ after' = [] := by
    intro hended
    exact absurd (h.ceased hended) (by simp)
  simp only [step, ht, herase]
  cases hfailed : c.failed with
  | true =>
    refine ⟨replies, before' ++ after', x :: lost, ?_⟩
    simp only [post, if_true]
    constructor
    case count => exact h.count
    case perm =>
      apply List.perm_iff_count.2
      intro y
      have hy := h.perm.count_eq y
      simp only [List.map_append, List.map_cons, List.count_append, List.count_cons] at hy ⊢
      omega
    case responses => exact h.responses
    case due => exact h.due
    case tasks => exact List.map_append
    case asking => exact hasking
    case ceased => exact hceased
    case whole =>
      intro _ hwhole
      exact absurd hwhole Bool.noConfusion
  | false =>
    refine ⟨replies ++ [(x, t'.request.respond ending)], before' ++ after', lost, ?_⟩
    simp only [post, Bool.false_eq_true, if_false]
    constructor
    case count => exact h.count
    case perm =>
      apply List.perm_iff_count.2
      intro y
      have hy := h.perm.count_eq y
      simp only [List.map_append, List.map_cons, List.map_nil, List.count_append,
        List.count_cons, List.count_nil] at hy ⊢
      omega
    case responses =>
      rw [List.map_append, h.responses, List.append_assoc]
      rfl
    case due =>
      intro y hy
      rcases List.mem_append.1 hy with hy | hy
      · exact h.due y hy
      · cases List.mem_singleton.1 hy
        have hxcall : x.call = call := hx.symm.trans (beq_iff_eq.1 hcall)
        have hr := hreply x.line hrequest
        rwa [← hxcall] at hr
    case tasks => exact List.map_append
    case asking => exact hasking
    case ceased => exact hceased
    case whole =>
      intro hopen _
      exact h.whole hopen hfailed

theorem write (h : Matched told read replies begun lost c) :
    ∃ replies lost, Matched told read replies begun lost (c.step .write) := by
  cases houtbox : c.outbox with
  | nil => exact ⟨replies, lost, by simpa only [step, houtbox] using h⟩
  | cons r outbox =>
    have hresponses := h.responses
    rw [houtbox] at hresponses
    cases hdeaf : c.deaf with
    | true =>
      obtain ⟨written, unwritten, rfl, hwritten, -⟩ := List.map_eq_append_iff.1 hresponses
      refine ⟨written, unwritten.map (·.1) ++ lost, ?_⟩
      simp only [step, houtbox, hdeaf, if_true]
      constructor
      case count => exact h.count
      case perm =>
        apply List.perm_iff_count.2
        intro y
        have hy := h.perm.count_eq y
        simp only [List.map_append, List.count_append] at hy ⊢
        omega
      case responses => rw [hwritten, List.append_nil]
      case due =>
        intro y hy
        exact h.due y (List.mem_append_left _ hy)
      case tasks => exact h.tasks
      case asking => exact h.asking
      case ceased => exact h.ceased
      case whole =>
        intro _ hwhole
        exact absurd hwhole Bool.noConfusion
    | false =>
      refine ⟨replies, lost, ?_⟩
      simp only [step, houtbox, hdeaf, Bool.false_eq_true, if_false]
      refine { h with responses := ?_ }
      rw [hresponses, List.append_assoc]
      rfl

end Matched

end Connection

end WarmCompile
