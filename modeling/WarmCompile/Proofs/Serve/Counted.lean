import Mathlib.Algebra.GroupWithZero.Nat
import Mathlib.Data.List.Nodup
import WarmCompile.Proofs.Notes
import WarmCompile.Proofs.Serve.Matched
import WarmCompile.Serve.Front

/-!
What a front counts. A connection is counted when it is let go, and what was read from it is lost if
one of its responses could not be written.
-/

namespace WarmCompile

namespace Connection

variable {c : Connection}

/-- Nothing goes on any more. -/
def isDone (c : Connection) : Bool :=
  c.ended && c.outbox.isEmpty

/-- What is under way or has been written is there for a line that was read. -/
structure Covered (c : Connection) : Prop where
  room : c.tasks.length + c.outbox.length + c.sent.length ≤ c.count
  failed : c.failed = true → 0 < c.count

theorem covered_opened : Covered .opened :=
  ⟨Nat.le_refl _, nofun⟩

theorem Covered.post (h : Covered c) (hroom : c.tasks.length + c.outbox.length + c.sent.length <
    c.count) (r : Response) : Covered (c.post r) := by
  unfold Connection.post
  split
  · exact h
  · refine ⟨?_, h.failed⟩
    simp only [List.length_append, List.length_singleton]
    omega

theorem Covered.close (h : Covered c) : Covered c.close := by
  refine ⟨?_, h.failed⟩
  have hroom := h.room
  simp only [Connection.close, List.length_nil]
  omega

theorem Covered.read (h : Covered c) (call : Nat) (incoming : Incoming) :
    Covered (c.read call incoming) := by
  have hroom := h.room
  have hmore : Covered { c with count := c.count + 1 } :=
    ⟨Nat.le_succ_of_le hroom, fun _ => Nat.succ_pos _⟩
  cases incoming with
  | blank => exact h
  | refused r =>
    simp only [Connection.read]
    split
    · exact hmore.close
    · exact hmore.post (Nat.lt_succ_of_le hroom) r
  | request q =>
    refine ⟨?_, fun _ => Nat.succ_pos _⟩
    simp only [Connection.read, List.length_append, List.length_singleton]
    omega

theorem Covered.step (h : Covered c) (e : Event) : Covered (c.step e) := by
  have hroom := h.room
  cases e with
  | line call text =>
    simp only [Connection.step]
    split
    · exact h
    · split
      · exact h.close
      · exact h.read call _
  | close => exact h.close
  | done call ending =>
    simp only [Connection.step]
    split
    · exact h
    · rename_i t ht
      have hlength := List.length_eraseP_of_mem (List.mem_of_find?_eq_some ht) (List.find?_some ht)
      have hpos := List.length_pos_of_mem (List.mem_of_find?_eq_some ht)
      apply Covered.post
      · refine ⟨?_, h.failed⟩
        dsimp only
        omega
      · dsimp only
        omega
  | write =>
    simp only [Connection.step]
    split
    · exact h
    · rename_i r outbox houtbox
      rw [houtbox, List.length_cons] at hroom
      split
      · refine ⟨?_, fun _ => ?_⟩
        · simp only [List.length_nil]
          omega
        · dsimp only
          omega
      · refine ⟨?_, h.failed⟩
        simp only [List.length_append, List.length_singleton]
        omega
  | hangUp => exact ⟨h.room, h.failed⟩

theorem count_step (c : Connection) (e : Event) :
    (c.step e).count = c.count + (c.taken e).length := by
  cases e with
  | line call text =>
    cases text with
    | none =>
      simp only [step, taken]
      split <;> rfl
    | some line =>
      simp only [step, taken, Inquiry.ofLine]
      split
      · rfl
      · cases hline : Incoming.ofLine line with
        | blank =>
          rw [if_pos (Incoming.ofLine_eq_blank.1 hline)]
          rfl
        | refused r =>
          rw [if_neg (mt Incoming.ofLine_eq_blank.2 (by simp [hline]))]
          simp only [read, post]
          split <;> rfl
        | request q =>
          rw [if_neg (mt Incoming.ofLine_eq_blank.2 (by simp [hline]))]
          rfl
  | close => rfl
  | done call ending =>
    simp only [step, taken, post]
    split
    · rfl
    · split <;> rfl
  | write =>
    simp only [step, taken]
    split
    · rfl
    · split <;> rfl
  | hangUp => rfl

theorem heard_step {e : Event} (h : c.deaf = false ∧ c.failed = false) (he : e ≠ .hangUp) :
    (c.step e).deaf = false ∧ (c.step e).failed = false := by
  cases e with
  | line call text =>
    have hkeeps := c.keeps_line call text
    rw [hkeeps.deaf, hkeeps.failed]
    exact h
  | close => exact h
  | done call ending =>
    have hkeeps := c.keeps_done call ending
    rw [hkeeps.deaf, hkeeps.failed]
    exact h
  | write =>
    simp only [step, h.1, Bool.false_eq_true, if_false]
    split
    · exact h
    · exact ⟨rfl, h.2⟩
  | hangUp => exact absurd rfl he

/-- One connection comes of the other by some events. -/
def Reaches (c c' : Connection) : Prop :=
  ∃ events, c' = c.run events

theorem Reaches.refl (c : Connection) : c.Reaches c :=
  ⟨[], rfl⟩

theorem Reaches.run {c c' : Connection} (h : c.Reaches c') (events : List Event) :
    c.Reaches (c'.run events) := by
  obtain ⟨before, rfl⟩ := h
  exact ⟨before ++ events, List.foldl_append.symm⟩

end Connection

namespace Front

variable {κ ω : Type}

/-! ### Runs -/

/-- What can happen to connections, in any order. A connection goes by a name as long as it is
there. -/
inductive Event where
  | connect (name : String)
  | peer (name : String) (e : Connection.Event)
  /-- A connection is let go on which nothing goes on any more. -/
  | collect (name : String)

def step (f : Front κ ω) : Event → Front κ ω
  | .connect name => if (f.peer? name).isSome then f else f.connect name
  | .peer name e => f.serve name [e]
  | .collect name =>
    if (f.peer? name).any (·.connection.isDone) then f.collect name else f

def run (f : Front κ ω) (events : List Event) : Front κ ω :=
  events.foldl step f

theorem run_concat (f : Front κ ω) (events : List Event) (e : Event) :
    f.run (events ++ [e]) = (f.run events).step e := by
  simp only [run, List.foldl_append, List.foldl_cons, List.foldl_nil]

/-- The request that is read with an event. -/
def reading (f : Front κ ω) : Event → List Inquiry
  | .peer name e => ((f.peer? name).map fun p => p.connection.taken e).getD []
  | _ => []

/-- The connection that is let go with an event. -/
def leaving (f : Front κ ω) : Event → List Connection
  | .collect name => ((f.peer? name).toList.map (·.connection)).filter (·.isDone)
  | _ => []

/-- All requests that are read along a run, on whatever connection. -/
def requests (f : Front κ ω) (events : List Event) : List Inquiry :=
  notesOf step reading f events

/-- All connections that are let go along a run. -/
def left (f : Front κ ω) (events : List Event) : List Connection :=
  notesOf step leaving f events

theorem requests_concat (f : Front κ ω) (events : List Event) (e : Event) :
    f.requests (events ++ [e]) = f.requests events ++ (f.run events).reading e :=
  notesOf_concat _ _ _ _ _

theorem left_concat (f : Front κ ω) (events : List Event) (e : Event) :
    f.left (events ++ [e]) = f.left events ++ (f.run events).leaving e :=
  notesOf_concat _ _ _ _ _

/-! ### One step -/

variable {f : Front κ ω} {p : Peer} {name : String}

/-- All that a step does: a connection is new, goes on by itself, or is let go. -/
inductive Effect (f : Front κ ω) : Event → Front κ ω → Prop where
  | connect (name : String) (hfree : name ∉ f.peers.map (·.name)) :
    Effect f (.connect name) { f with peers := f.peers ++ [⟨name, .empty, .opened⟩] }
  | peer (name : String) (e : Connection.Event) (before after : List Peer) (p : Peer)
    (hname : p.name = name) (hpeers : f.peers = before ++ p :: after)
    (hreading : f.reading (.peer name e) = p.connection.taken e) :
    Effect f (.peer name e)
      { f with peers := before ++ { p with connection := p.connection.step e } :: after }
  | collect (name : String) (before after : List Peer) (p : Peer) (hname : p.name = name)
    (hpeers : f.peers = before ++ p :: after) (hdone : p.connection.isDone = true)
    (hleaving : f.leaving (.collect name) = [p.connection]) :
    Effect f (.collect name)
      { f with
        peers := before ++ after
        total := f.total + p.connection.served.toOption.getD 0 }
  | rest (e : Event) (hreading : f.reading e = []) (hleaving : f.leaving e = []) : Effect f e f

theorem peers_split (hnames : (f.peers.map (·.name)).Nodup) (h : f.peer? name = some p) :
    ∃ before after, f.peers = before ++ p :: after ∧ p.name = name ∧
      (∀ q ∈ before, q.name ≠ name) ∧ ∀ q ∈ after, q.name ≠ name := by
  obtain ⟨hname, before, after, hpeers, hbefore⟩ := List.find?_eq_some_iff_append.1 h
  obtain rfl : p.name = name := beq_iff_eq.1 hname
  refine ⟨before, after, hpeers, rfl, fun q hq => by simpa using hbefore q hq, fun q hq he => ?_⟩
  rw [hpeers, List.map_append, List.map_cons] at hnames
  have hrest := (List.nodup_append.1 hnames).2.1
  exact (List.nodup_cons.1 hrest).1 (he ▸ List.mem_map_of_mem hq)

theorem setPeer_split {before after : List Peer} (hpeers : f.peers = before ++ p :: after)
    (hbefore : ∀ q ∈ before, q.name ≠ p.name) (hafter : ∀ q ∈ after, q.name ≠ p.name)
    (c : Connection) : f.setPeer { p with connection := c } =
      { f with peers := before ++ { p with connection := c } :: after } := by
  have hsame (qs : List Peer) (hqs : ∀ q ∈ qs, q.name ≠ p.name) :
      (qs.map fun q => if q.name = p.name then { p with connection := c } else q) = qs := by
    calc (qs.map fun q => if q.name = p.name then { p with connection := c } else q)
      _ = qs.map id := List.map_congr_left fun q hq => if_neg (hqs q hq)
      _ = qs := List.map_id qs
  simp only [setPeer, hpeers, List.map_append, List.map_cons, hsame before hbefore,
    hsame after hafter, if_true]

theorem filter_split {before after : List Peer} (hpeers : f.peers = before ++ p :: after)
    (hbefore : ∀ q ∈ before, q.name ≠ p.name) (hafter : ∀ q ∈ after, q.name ≠ p.name) :
    f.peers.filter (·.name != p.name) = before ++ after := by
  have hkept (qs : List Peer) (hqs : ∀ q ∈ qs, q.name ≠ p.name) :
      qs.filter (·.name != p.name) = qs :=
    List.filter_eq_self.2 fun q hq => bne_iff_ne.2 (hqs q hq)
  have hgone : (p :: after).filter (·.name != p.name) = after.filter (·.name != p.name) :=
    List.filter_cons_of_neg (by simp)
  rw [hpeers, List.filter_append, hgone, hkept before hbefore, hkept after hafter]

theorem effect_step (hnames : (f.peers.map (·.name)).Nodup) (e : Event) : Effect f e (f.step e) := by
  cases e with
  | connect name =>
    simp only [step]
    split
    · exact .rest _ rfl rfl
    · rename_i hfree
      apply Effect.connect
      intro hmem
      obtain ⟨q, hq, rfl⟩ := List.mem_map.1 hmem
      apply hfree
      rw [peer?, List.find?_isSome]
      exact ⟨q, hq, beq_self_eq_true _⟩
  | peer name e =>
    simp only [step, serve]
    cases h : f.peer? name with
    | none => exact .rest _ (by simp only [reading, h, Option.map_none, Option.getD_none]) rfl
    | some p =>
      obtain ⟨before, after, hpeers, rfl, hbefore, hafter⟩ := peers_split hnames h
      dsimp only
      rw [setPeer_split hpeers hbefore hafter]
      exact .peer _ e before after p rfl hpeers
        (by simp only [reading, h, Option.map_some, Option.getD_some])
  | collect name =>
    simp only [step]
    cases h : f.peer? name with
    | none => exact .rest _ rfl (by simp only [leaving, h]; rfl)
    | some p =>
      cases hdone : p.connection.isDone with
      | false =>
        rw [Option.any_some, hdone]
        exact .rest _ rfl (by simp [leaving, h, hdone])
      | true =>
        obtain ⟨before, after, hpeers, rfl, hbefore, hafter⟩ := peers_split hnames h
        have hcollect : f.collect p.name = { f with
            peers := before ++ after
            total := f.total + p.connection.served.toOption.getD 0 } := by
          simp only [collect, h, filter_split hpeers hbefore hafter]
        rw [Option.any_some, hdone, if_pos rfl, hcollect]
        exact .collect _ before after p rfl hpeers hdone (by simp [leaving, h, hdone])

variable {f' : Front κ ω} {e : Event} {events : List Event} {read : List Inquiry}
  {left : List Connection}

/-- What holds of a new connection and is kept by its events holds of all that are there, and of
those that are let go. -/
theorem Effect.forall_connections (h : Effect f e f') {P : Connection → Prop} (hopened : P .opened)
    (hstep : ∀ name e' c, e = .peer name e' → P c → P (c.step e'))
    (hpeers : ∀ p ∈ f.peers, P p.connection) :
    (∀ p ∈ f'.peers, P p.connection) ∧ ∀ c ∈ f.leaving e, P c := by
  cases h with
  | connect name hfree =>
    refine ⟨fun p hp => ?_, nofun⟩
    rcases List.mem_append.1 hp with hp | hp
    · exact hpeers p hp
    · rw [List.mem_singleton.1 hp]
      exact hopened
  | peer name e' before after p hname hsplit hreading =>
    rw [hsplit] at hpeers
    refine ⟨fun q hq => ?_, nofun⟩
    rcases List.mem_append.1 hq with hq | hq
    · exact hpeers q (List.mem_append_left _ hq)
    · rcases List.mem_cons.1 hq with rfl | hq
      · exact hstep name e' p.connection rfl
          (hpeers p (List.mem_append_right _ List.mem_cons_self))
      · exact hpeers q (List.mem_append_right _ (List.mem_cons_of_mem _ hq))
  | collect name before after p hname hsplit hdone hleaving =>
    rw [hsplit] at hpeers
    constructor
    · intro q hq
      apply hpeers
      exact List.mem_append.2 ((List.mem_append.1 hq).imp_right (List.mem_cons_of_mem _))
    · rw [hleaving]
      intro c hc
      rw [List.mem_singleton.1 hc]
      exact hpeers p (List.mem_append_right _ List.mem_cons_self)
  | rest e hreading hleaving =>
    refine ⟨hpeers, ?_⟩
    rw [hleaving]
    nofun

/-! ### The books -/

/-- What has been counted is what connections reported that were let go, and each request that was
read stands in the count of its connection. -/
structure Booked (read : List Inquiry) (left : List Connection) (f : Front κ ω) : Prop where
  names : (f.peers.map (·.name)).Nodup
  total : f.total = (left.map fun c => c.served.toOption.getD 0).sum
  count : read.length = (left.map (·.count)).sum + (f.peers.map (·.connection.count)).sum

theorem booked_around (a : Actor κ ω) : Booked [] [] (around a) :=
  ⟨.nil, rfl, rfl⟩

theorem Booked.step (h : Booked read left f) (he : Effect f e f') :
    Booked (read ++ f.reading e) (left ++ f.leaving e) f' := by
  obtain ⟨hnames, htotal, hcount⟩ := h
  cases he with
  | connect name hfree =>
    refine ⟨?_, ?_, ?_⟩
    · rw [List.map_append]
      exact hnames.append (List.nodup_singleton _) (List.disjoint_singleton.2 hfree)
    · simpa [leaving] using htotal
    · simpa [reading, leaving, Connection.opened] using hcount
  | peer name e' before after p hname hsplit hreading =>
    rw [hsplit] at hnames hcount
    refine ⟨?_, ?_, ?_⟩
    · simpa using hnames
    · simpa [leaving] using htotal
    · have hstep := p.connection.count_step e'
      rw [hreading]
      simp only [leaving, List.length_append, List.map_append, List.map_cons, List.sum_append,
        List.sum_cons, List.append_nil] at hcount ⊢
      omega
  | collect name before after p hname hsplit hdone hleaving =>
    rw [hsplit] at hnames hcount
    rw [hleaving]
    refine ⟨?_, ?_, ?_⟩
    · refine List.Nodup.sublist ?_ hnames
      rw [List.map_append, List.map_append, List.map_cons]
      exact List.Sublist.append_left (List.sublist_cons_self _ _) _
    · simp only [htotal, List.map_append, List.sum_append, List.map_cons, List.map_nil,
        List.sum_cons, List.sum_nil, Nat.add_zero]
    · simp only [reading, List.append_nil, List.map_append, List.map_cons, List.map_nil,
        List.sum_append, List.sum_cons, List.sum_nil] at hcount ⊢
      omega
  | rest e hreading hleaving =>
    rw [hreading, hleaving, List.append_nil, List.append_nil]
    exact ⟨hnames, htotal, hcount⟩

theorem booked_of_run (a : Actor κ ω) (events : List Event) :
    Booked ((around a).requests events) ((around a).left events) ((around a).run events) := by
  induction events using List.reverseRecOn with
  | nil => exact booked_around a
  | append_singleton events e ih =>
    rw [requests_concat, left_concat, run_concat]
    exact ih.step (effect_step ih.names e)

theorem forall_connections_of_run (a : Actor κ ω) (events : List Event) {P : Connection → Prop}
    (hopened : P .opened) (hstep : ∀ name e c, .peer name e ∈ events → P c → P (c.step e)) :
    (∀ p ∈ ((around a).run events).peers, P p.connection) ∧ ∀ c ∈ (around a).left events, P c := by
  induction events using List.reverseRecOn with
  | nil => exact ⟨nofun, nofun⟩
  | append_singleton events e ih =>
    obtain ⟨hpeers, hleft⟩ := ih fun name e' c he => hstep name e' c (List.mem_append_left _ he)
    have heffect := effect_step (booked_of_run a events).names e
    obtain ⟨hpeers', hleaving⟩ := heffect.forall_connections hopened
      (fun name e' c he => hstep name e' c (he ▸ List.mem_append_right _ List.mem_cons_self)) hpeers
    rw [run_concat, left_concat]
    refine ⟨hpeers', fun c hc => ?_⟩
    rcases List.mem_append.1 hc with hc | hc
    · exact hleft c hc
    · exact hleaving c hc

/-! ### Totals -/

/-- The requests of the connections that could not write. -/
def lost (left : List Connection) : Nat :=
  ((left.filter (·.failed)).map (·.count)).sum

theorem served_add_lost (left : List Connection) :
    (left.map fun c => c.served.toOption.getD 0).sum + lost left = (left.map (·.count)).sum := by
  induction left with
  | nil => rfl
  | cons c left ih =>
    rw [List.map_cons, List.map_cons, List.sum_cons, List.sum_cons]
    cases hfailed : c.failed with
    | true =>
      have hlost : lost (c :: left) = c.count + lost left := by
        rw [lost, List.filter_cons_of_pos hfailed]
        rfl
      have hserved : c.served.toOption.getD 0 = 0 := by
        simp [Connection.served, hfailed, Except.toOption]
      omega
    | false =>
      have hlost : lost (c :: left) = lost left := by
        rw [lost, List.filter_cons_of_neg (Bool.eq_false_iff.1 hfailed)]
        rfl
      have hserved : c.served.toOption.getD 0 = c.count := by
        simp [Connection.served, hfailed, Except.toOption]
      omega

theorem lost_eq_zero (hcovered : ∀ c ∈ left, c.Covered) :
    lost left = 0 ↔ ∀ c ∈ left, c.failed = false := by
  rw [lost, List.sum_eq_zero_iff_forall_eq_nat]
  constructor
  · intro hnone c hc
    apply Bool.of_not_eq_true
    intro hfailed
    have hzero := hnone c.count (List.mem_map_of_mem (List.mem_filter.2 ⟨hc, hfailed⟩))
    exact absurd ((hcovered c hc).failed hfailed) (hzero ▸ Nat.lt_irrefl 0)
  · intro hwhole n hn
    obtain ⟨c, hc, rfl⟩ := List.mem_map.1 hn
    obtain ⟨hc, hfailed⟩ := List.mem_filter.1 hc
    exact absurd ((hwhole c hc).symm.trans hfailed) Bool.false_ne_true

/-- How many of the requests of all connections that came and went are counted. -/
structure Tallied (events : List Event) (read : List Inquiry) (left : List Connection)
    (total : Nat) : Prop where
  books : total + lost left = read.length
  /-- Each request is counted once unless a response on its connection could not be written. -/
  whole : total = read.length ↔ ∀ c ∈ left, c.failed = false
  /-- While all peers read on, nothing is lost. -/
  heard : (∀ name, .peer name .hangUp ∉ events) → total = read.length

theorem tallied_of_run (a : Actor κ ω) (events : List Event)
    (hover : ((around a).run events).peers = []) :
    Tallied events ((around a).requests events) ((around a).left events)
      ((around a).run events).total := by
  obtain ⟨-, htotal, hcount⟩ := booked_of_run a events
  obtain ⟨-, hcovered⟩ := forall_connections_of_run a events Connection.covered_opened
    fun _ e _ _ h => h.step e
  have hlost := served_add_lost ((around a).left events)
  rw [hover, List.map_nil, List.sum_nil, Nat.add_zero] at hcount
  rw [← htotal, ← hcount] at hlost
  have hwhole : ((around a).run events).total = ((around a).requests events).length ↔
      ∀ c ∈ (around a).left events, c.failed = false := by
    rw [← lost_eq_zero hcovered]
    omega
  refine ⟨hlost, hwhole, fun hheard => hwhole.2 fun c hc => ?_⟩
  obtain ⟨-, hsteady⟩ := forall_connections_of_run (P := fun c => c.deaf = false ∧ c.failed = false)
    a events ⟨rfl, rfl⟩ fun name e c he h =>
      Connection.heard_step h fun hhangUp => hheard name (hhangUp ▸ he)
  exact (hsteady c hc).2

/-- Of two peers that send a ping each, one hangs up before its response is written. -/
def abandoned : List Event :=
  [.connect "a", .connect "b", .peer "a" (.line 0 (some "\x7b\"id\":\"\",\"method\":\"ping\"\x7d")),
    .peer "b" (.line 1 (some "\x7b\"id\":\"\",\"method\":\"ping\"\x7d")),
    .peer "a" (.line 2 (some " ")), .peer "a" (.done 0 none), .peer "b" (.done 1 none),
    .peer "a" .hangUp, .peer "b" .write, .peer "a" .write, .peer "b" .close, .collect "b",
    .peer "a" .close, .collect "a"]

/-- Both requests have been read and both connections have been let go, but one is counted. -/
theorem abandoned_uncounted :
    ((around (.spawn 1 () : Actor Unit Unit)).run abandoned).peers.isEmpty = true ∧
    ((around (.spawn 1 () : Actor Unit Unit)).requests abandoned).length = 2 ∧
    ((around (.spawn 1 () : Actor Unit Unit)).run abandoned).total = 1 := by
  decide +kernel

theorem tallied_of_run_abandoned :
    ((around (.spawn 1 () : Actor Unit Unit)).run abandoned).peers = [] ∧
    Tallied abandoned ((around (.spawn 1 () : Actor Unit Unit)).requests abandoned)
      ((around (.spawn 1 () : Actor Unit Unit)).left abandoned)
      ((around (.spawn 1 () : Actor Unit Unit)).run abandoned).total := by
  have hover : ((around (.spawn 1 () : Actor Unit Unit)).run abandoned).peers = [] :=
    List.isEmpty_iff.1 (by decide +kernel)
  exact ⟨hover, tallied_of_run _ abandoned hover⟩

/-! ### Orders -/

/-- The connections by their names. -/
def connections (f : Front κ ω) : List (String × Connection) :=
  f.peers.map fun p => (p.name, p.connection)

theorem connections_setPeer (f : Front κ ω) (p : Peer) : (f.setPeer p).connections =
    f.connections.map fun q => if q.1 = p.name then (p.name, p.connection) else q := by
  simp only [connections, setPeer, List.map_map]
  apply List.map_congr_left
  intro q _
  simp only [Function.comp]
  split <;> rfl

theorem connections_serve (hnames : (f.peers.map (·.name)).Nodup) (name : String)
    (events : List Connection.Event) : (f.serve name events).connections =
      f.connections.map fun q => if q.1 = name then (q.1, q.2.run events) else q := by
  have hsame (qs : List Peer) (hqs : ∀ q ∈ qs, q.name ≠ name) :
      ((qs.map fun p => (p.name, p.connection)).map fun q =>
        if q.1 = name then (q.1, q.2.run events) else q) = qs.map fun p => (p.name, p.connection) := by
    rw [List.map_map]
    exact List.map_congr_left fun q hq => if_neg (hqs q hq)
  unfold serve
  cases h : f.peer? name with
  | none =>
    have hother : ∀ q ∈ f.peers, q.name ≠ name := by
      intro q hq hname
      exact List.find?_eq_none.1 h q hq (beq_iff_eq.2 hname)
    exact (hsame f.peers hother).symm
  | some p =>
    obtain ⟨before, after, hpeers, rfl, hbefore, hafter⟩ := peers_split hnames h
    simp only [connections, setPeer_split hpeers hbefore hafter, hpeers, List.map_append,
      List.map_cons, if_true] at hsame ⊢
    rw [hsame before hbefore, hsame after hafter]

/-- Events of one connection are events of the front, one after the other. -/
theorem connections_run_peer (hnames : (f.peers.map (·.name)).Nodup) (name : String)
    (events : List Connection.Event) : (f.run (events.map (.peer name))).connections =
      f.connections.map fun q => if q.1 = name then (q.1, q.2.run events) else q := by
  induction events generalizing f with
  | nil =>
    have hsame : ∀ q ∈ f.connections,
        (if q.1 = name then (q.1, q.2.run []) else q) = id q := fun q _ => ite_self q
    exact ((List.map_congr_left hsame).trans (List.map_id _)).symm
  | cons e events ih =>
    have hserve := connections_serve hnames name [e]
    have hkept : ((f.serve name [e]).peers.map (·.name)) = f.peers.map (·.name) := by
      have hfst := congrArg (List.map Prod.fst) hserve
      simp only [connections, List.map_map] at hfst
      refine hfst.trans (List.map_congr_left fun q _ => ?_)
      simp only [Function.comp]
      split <;> rfl
    refine (ih (f := f.serve name [e]) (hkept ▸ hnames)).trans ?_
    rw [hserve, List.map_map]
    apply List.map_congr_left
    intro q _
    simp only [Function.comp]
    by_cases hname : q.1 = name
    · simp only [if_pos hname]
      rfl
    · simp only [if_neg hname]

theorem exists_run_of_setPeer (hnames : (f.peers.map (·.name)).Nodup) (hp : f.peer? name = some p)
    {c : Connection} (hc : p.connection.Reaches c) (lines : Lines) {g : Front κ ω}
    (hpeers : g.peers = f.peers) (htotal : g.total = f.total) : ∃ events,
    (g.setPeer ⟨p.name, lines, c⟩).connections = (f.run events).connections ∧
      (g.setPeer ⟨p.name, lines, c⟩).total = f.total := by
  obtain ⟨events, rfl⟩ := hc
  obtain ⟨before, after, hsplit, rfl, hbefore, hafter⟩ := peers_split hnames hp
  have hsame : g.connections = f.connections := by rw [connections, hpeers, connections]
  refine ⟨events.map (.peer p.name), ?_, htotal⟩
  rw [connections_setPeer, connections_run_peer hnames, hsame]
  apply List.map_congr_left
  intro q hq
  obtain ⟨q', hq', rfl⟩ := List.mem_map.1 hq
  dsimp only
  split
  · rename_i hname
    rw [hsplit] at hq'
    rcases List.mem_append.1 hq' with hq' | hq'
    · exact absurd hname (hbefore q' hq')
    · rcases List.mem_cons.1 hq' with rfl | hq'
      · rfl
      · exact absurd hname (hafter q' hq')
  · rfl

/-- Whatever comes in, what a front makes of it at once is one of the orders in which it can
happen. -/
theorem exists_run_of_hear (hnames : (f.peers.map (·.name)).Nodup) (service : Service κ ω)
    (name : String) (bytes : List UInt8) : ∃ events,
    (f.hear service name bytes).connections = (f.run events).connections ∧
      (f.hear service name bytes).total = f.total := by
  unfold hear
  cases h : f.peer? name with
  | none => exact ⟨[], rfl, rfl⟩
  | some p =>
    unfold readLines
    dsimp only
    generalize f.actor.after service _ = told
    exact exists_run_of_setPeer hnames h (((Connection.Reaches.refl _).run _ |>.run _).run _) _ rfl
      rfl

theorem exists_run_of_flush (hnames : (f.peers.map (·.name)).Nodup) (name : String) : ∃ events,
    (f.flush name).connections = (f.run events).connections ∧ (f.flush name).total = f.total := by
  unfold flush
  cases h : f.peer? name with
  | none => exact ⟨[], rfl, rfl⟩
  | some p => exact exists_run_of_setPeer hnames h ((Connection.Reaches.refl _).run _) _ rfl rfl

theorem exists_run_of_closeInput (hnames : (f.peers.map (·.name)).Nodup) (name : String) :
    ∃ events, (f.closeInput name).connections = (f.run events).connections ∧
      (f.closeInput name).total = f.total := by
  unfold closeInput
  cases h : f.peer? name with
  | none => exact ⟨[], rfl, rfl⟩
  | some p =>
    exact exists_run_of_setPeer hnames h ((Connection.Reaches.refl _).run _ |>.run _) _ rfl rfl

end Front

end WarmCompile
