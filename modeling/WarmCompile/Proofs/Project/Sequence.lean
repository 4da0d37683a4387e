import WarmCompile.Proofs.Markup.Content
import WarmCompile.Proofs.Project.Document

/-!
Reading one content behind another. What a content adds to a document does not depend on what is
there already, but for a property that has been left open: an element without content begins one,
and nothing ends it until the next property begins.
-/

namespace WarmCompile

namespace Document

open Markup (Content Event Recut Stream scanFrom)

/-! ### One document behind another -/

def join (d e : Document) : Document where
  compileItems := d.compileItems ++ e.compileItems
  references := d.references ++ e.references
  defines := addNew d.defines e.defines
  targetFramework := d.targetFramework <|> e.targetFramework
  otherFlags := d.otherFlags ++ e.otherFlags

theorem join_empty (d : Document) : d.join empty = d := by
  cases d with
  | mk compileItems references defines framework flags =>
    cases framework <;> simp [join, empty, addNew]

theorem join_assoc (d e f : Document) : (d.join e).join f = d.join (e.join f) := by
  simp only [join, List.append_assoc, addNew_addNew]
  cases d.targetFramework <;> rfl

/-- A property adds what it adds to the empty document. -/
theorem apply_eq_join (d : Document) (property : Property) (value : List Char) :
    d.apply property value = d.join (empty.apply property value) := by
  cases d with
  | mk compileItems references defines framework flags =>
    cases property <;> cases framework <;>
      simp [apply, join, empty, addNew, addNew_addNew]

/-! ### Runs -/

variable {dir : String} {s s' : Reading} {es es' : List Event} {d : Document}

theorem run_append (s : Reading) (es es' : List Event) :
    Reading.run dir s (es ++ es') = Reading.run dir s es >>= (Reading.run dir · es') := by
  induction es generalizing s with
  | nil => rfl
  | cons e es ih => simp only [List.cons_append, Reading.run, ih, bind_assoc]

/-- It makes no difference where texts are cut. -/
theorem run_recut (h : Recut es es') : ∀ s, Reading.run dir s es = Reading.run dir s es' := by
  have happend : ∀ (s : Reading) x y, (s.append x).append y = s.append (x ++ y) := by
    intro s x y
    simp only [Reading.append, Option.map_map, Function.comp_def, List.append_assoc]
  induction h with
  | refl => exact fun s => rfl
  | trans _ _ ih ih' => exact fun s => (ih s).trans (ih' s)
  | cons e _ ih => exact fun s => congrArg (s.step dir e >>= ·) (funext ih)
  | nothing es =>
    intro s
    change _ = Reading.run dir (s.append []) es
    simp [Reading.append]
  | pieces x y es =>
    intro s
    change Reading.run dir (s.append (x ++ y)) es = Reading.run dir ((s.append x).append y) es
    rw [happend]

/-! ### Tags -/

/-- The property a tag begins. -/
def begun? : Event → Option Property
  | .opening tag | .empty tag => Property.ofName? (Markup.localName (Markup.tagName tag))
  | _ => none

def closed? : Event → Option Property
  | .closing name => Property.ofName? (Markup.localName name)
  | _ => none

/-- The property whose value is being collected behind an event. -/
def pending (current : Option Property) (e : Event) : Option Property :=
  begun? e <|> if closed? e = current then none else current

theorem pending_of_none {current : Option Property} {e : Event} (hbegun : begun? e = none)
    (hclosed : closed? e = none) : pending current e = current := by
  rw [pending, hbegun, hclosed]
  cases current <;> rfl

/-- No item is a property. -/
theorem property_of_item {name : List Char} {item : Item} (h : Item.ofName? name = some item) :
    Property.ofName? name = none := by
  unfold Item.ofName? at h
  split at h
  · subst name
    rfl
  · split at h
    · subst name
      rfl
    · cases h

/-- A tag begins a property, or adds what does not depend on what was read. -/
theorem opened_cases (dir : String) (tag : List Char) :
    (∃ p, begun? (.opening tag) = some p ∧
      ∀ s : Reading, s.opened dir tag = .ok ⟨s.document, some (p, [])⟩) ∨
    begun? (.opening tag) = none ∧ ((∃ f, ∀ s : Reading, s.opened dir tag = .error f) ∨
      ∃ item : Document, ∀ s : Reading,
        s.opened dir tag = .ok ⟨s.document.join item, s.current⟩) := by
  unfold Reading.opened begun?
  dsimp only
  generalize Markup.localName (Markup.tagName tag) = name
  cases hitem : Item.ofName? name with
  | some item =>
    refine .inr ⟨property_of_item hitem, ?_⟩
    cases includeOf name tag with
    | error f => exact .inl ⟨f, fun s => rfl⟩
    | ok path =>
      refine .inr ?_
      cases item with
      | compile =>
        refine ⟨⟨[Path.resolve dir path], [], [], none, []⟩, fun s => ?_⟩
        cases hframework : s.document.targetFramework <;>
          simp [bind, Except.bind, pure, Except.pure, join, addNew, hframework]
      | reference =>
        refine ⟨⟨[], [Path.resolve dir path], [], none, []⟩, fun s => ?_⟩
        cases hframework : s.document.targetFramework <;>
          simp [bind, Except.bind, pure, Except.pure, join, addNew, hframework]
  | none =>
    cases Property.ofName? name with
    | some p => exact .inl ⟨p, rfl, fun s => rfl⟩
    | none => exact .inr ⟨rfl, .inr ⟨empty, fun s => by rw [join_empty]⟩⟩

theorem step_of_begun {e : Event} {p : Property} (h : begun? e = some p) (s : Reading) :
    s.step dir e = .ok ⟨s.document, some (p, [])⟩ := by
  have hopened : ∀ {tag}, begun? (.opening tag) = some p →
      s.opened dir tag = .ok ⟨s.document, some (p, [])⟩ := by
    intro tag htag
    obtain ⟨q, hq, hok⟩ | ⟨hnone, -⟩ := opened_cases dir tag
    · cases htag.symm.trans hq
      exact hok s
    · cases htag.symm.trans hnone
  cases e with
  | opening tag => exact hopened h
  | empty tag => exact hopened h
  | text | reference | closing | aside => cases h

theorem closed_of_ne {s : Reading} {name : List Char}
    (h : closed? (.closing name) ≠ s.current.map (·.1)) : s.closed name = s := by
  unfold Reading.closed
  split
  · rename_i p value hcurrent
    rw [hcurrent] at h
    exact if_neg h
  · rfl

theorem closed_of_eq {name value : List Char} {p : Property}
    (h : closed? (.closing name) = some p) :
    (⟨d, some (p, value)⟩ : Reading).closed name = ⟨d.apply p value, none⟩ :=
  if_pos h

/-- What is being collected is told by the events alone. -/
theorem step_pending {e : Event} (h : s.step dir e = .ok s') :
    s'.current.map (·.1) = pending (s.current.map (·.1)) e := by
  have hopened : ∀ {tag}, s.opened dir tag = .ok s' →
      s'.current.map (·.1) = pending (s.current.map (·.1)) (.opening tag) := by
    intro tag h
    obtain ⟨p, hp, hok⟩ | ⟨hnone, ⟨f, herror⟩ | ⟨item, hok⟩⟩ := opened_cases dir tag
    · cases (hok s).symm.trans h
      rw [pending, hp]
      rfl
    · cases (herror s).symm.trans h
    · cases (hok s).symm.trans h
      exact (pending_of_none hnone rfl).symm
  have happend : ∀ cs, (s.append cs).current.map (·.1) = s.current.map (·.1) := by
    intro cs
    simp [Reading.append, Function.comp_def]
  cases e with
  | opening tag => exact hopened h
  | empty tag => exact hopened h
  | text cs =>
    cases h
    exact (happend cs).trans (pending_of_none rfl rfl).symm
  | reference name =>
    rw [pending_of_none rfl rfl]
    simp only [Reading.step, Reading.referred] at h
    split at h
    · cases h
      rfl
    · split at h
      · cases h
      · cases h
      · cases h
        exact happend _
  | closing name =>
    cases h
    by_cases hclosed : closed? (.closing name) = s.current.map (·.1)
    · rw [pending, if_pos hclosed]
      obtain ⟨d, _ | ⟨p, value⟩⟩ := s
      · rfl
      · rw [closed_of_eq hclosed]
        rfl
    · rw [closed_of_ne hclosed, pending, if_neg hclosed]
      rfl
  | aside =>
    cases h
    exact (pending_of_none rfl rfl).symm

theorem run_pending (h : Reading.run dir s es = .ok s') :
    s'.current.map (·.1) = es.foldl pending (s.current.map (·.1)) := by
  induction es generalizing s with
  | nil =>
    cases h
    rfl
  | cons e es ih =>
    obtain ⟨s₁, hstep, h⟩ := bind_eq_ok.1 h
    rw [List.foldl_cons, ← step_pending hstep]
    exact ih h

/-! ### Reading behind a document -/

/-- The same reading, with a document ahead of what it has read. -/
def Reading.under (d : Document) (s : Reading) : Reading :=
  ⟨d.join s.document, s.current⟩

theorem step_under (d : Document) (s : Reading) (e : Event) :
    (s.under d).step dir e = (s.step dir e).map (Reading.under d) := by
  have hopened : ∀ tag, (s.under d).opened dir tag = (s.opened dir tag).map (Reading.under d) := by
    intro tag
    obtain ⟨p, -, hok⟩ | ⟨-, ⟨f, herror⟩ | ⟨item, hok⟩⟩ := opened_cases dir tag
    · rw [hok, hok]
      rfl
    · rw [herror, herror]
      rfl
    · rw [hok, hok]
      simp only [Reading.under, Except.map, join_assoc]
  cases e with
  | opening tag => exact hopened tag
  | empty tag => exact hopened tag
  | text cs => rfl
  | reference name =>
    obtain ⟨e, _ | ⟨p, value⟩⟩ := s
    · rfl
    · simp only [Reading.step, Reading.referred, Reading.under]
      cases Markup.resolve name with
      | error f => rfl
      | ok c => cases c <;> rfl
  | closing name =>
    refine congrArg Except.ok ?_
    by_cases hclosed : closed? (.closing name) = s.current.map (·.1)
    · obtain ⟨e, _ | ⟨p, value⟩⟩ := s
      · rfl
      · rw [closed_of_eq hclosed]
        change (⟨d.join e, some (p, value)⟩ : Reading).closed name = _
        rw [closed_of_eq hclosed, apply_eq_join, join_assoc, ← apply_eq_join]
        rfl
    · rw [closed_of_ne hclosed, closed_of_ne (s := s.under d) hclosed]
  | aside => rfl

theorem run_under (dir : String) (d : Document) (s : Reading) (es : List Event) :
    Reading.run dir (s.under d) es = (Reading.run dir s es).map (Reading.under d) := by
  induction es generalizing s with
  | nil => rfl
  | cons e es ih =>
    rw [Reading.run, Reading.run, step_under]
    cases s.step dir e with
    | error f => rfl
    | ok s₁ => exact ih s₁

/-! ### Reading behind a property that was left open -/

/-- A reference that stands for a character. -/
def Resolves (name : List Char) : Prop :=
  ∃ c, Markup.resolve name = .ok (some c)

/-- The events ahead of the first tag of a property. -/
def ahead (es : List Event) : List Event :=
  es.takeWhile fun e => (begun? e).isNone

/-- Ahead of the first tag of a property there is no end of one. -/
def Orderly (es : List Event) : Prop :=
  ∀ e ∈ ahead es, closed? e = none

theorem ahead_cons {e : Event} (h : begun? e = none) : ahead (e :: es) = e :: ahead es :=
  List.takeWhile_cons_of_pos (by simp [h])

theorem ahead_eq_nil {e : Event} {p : Property} (h : begun? e = some p) : ahead (e :: es) = [] :=
  List.takeWhile_cons_of_neg (by simp [h])

/-- One step beside the same step with a property left open. -/
theorem step_left_open (dir : String) {e : Event} (hbegun : begun? e = none)
    (hclosed : closed? e = none) (d : Document) (p : Property) (value : List Char) :
    (∃ f, ∀ current, (⟨d, current⟩ : Reading).step dir e = .error f) ∨
    (∃ name f, e = .reference name ∧ ¬ Resolves name ∧
      (⟨d, some (p, value)⟩ : Reading).step dir e = .error f) ∨
    (∀ name, e = .reference name → Resolves name) ∧ ∃ d' value',
      (⟨d, none⟩ : Reading).step dir e = .ok ⟨d', none⟩ ∧
      (⟨d, some (p, value)⟩ : Reading).step dir e = .ok ⟨d', some (p, value')⟩ := by
  have hopened : ∀ {tag}, begun? (.opening tag) = none →
      (∃ f, ∀ current, (⟨d, current⟩ : Reading).opened dir tag = .error f) ∨
      ∃ d' value', (⟨d, none⟩ : Reading).opened dir tag = .ok ⟨d', none⟩ ∧
        (⟨d, some (p, value)⟩ : Reading).opened dir tag = .ok ⟨d', some (p, value')⟩ := by
    intro tag htag
    obtain ⟨q, hq, -⟩ | ⟨-, ⟨f, herror⟩ | ⟨item, hok⟩⟩ := opened_cases dir tag
    · cases htag.symm.trans hq
    · exact .inl ⟨f, fun current => herror _⟩
    · exact .inr ⟨d.join item, value, hok _, hok _⟩
  have hother : ∀ {e : Event}, (∀ name, e ≠ .reference name) →
      ∀ name, e = .reference name → Resolves name := fun h name he => absurd he (h name)
  cases e with
  | opening tag =>
    exact (hopened hbegun).imp_right fun h => .inr ⟨hother (by simp), h⟩
  | empty tag =>
    exact (hopened hbegun).imp_right fun h => .inr ⟨hother (by simp), h⟩
  | text cs => exact .inr (.inr ⟨hother (by simp), d, value ++ cs, rfl, rfl⟩)
  | reference name =>
    cases hresolve : Markup.resolve name with
    | error f =>
      refine .inr (.inl ⟨name, .number f, rfl, ?_, ?_⟩)
      · rintro ⟨c, hc⟩
        cases hresolve.symm.trans hc
      · simp [Reading.step, Reading.referred, hresolve]
    | ok c =>
      cases c with
      | none =>
        refine .inr (.inl ⟨name, .unknownEntity name, rfl, ?_, ?_⟩)
        · rintro ⟨c, hc⟩
          cases hresolve.symm.trans hc
        · simp [Reading.step, Reading.referred, hresolve]
      | some c =>
        refine .inr (.inr ⟨?_, d, value ++ [c], rfl, ?_⟩)
        · rintro _ ⟨⟩
          exact ⟨c, hresolve⟩
        · simp [Reading.step, Reading.referred, Reading.append, hresolve]
  | closing name =>
    have hne : ∀ {current : Option (Property × List Char)},
        (⟨d, current⟩ : Reading).step dir (.closing name) = .ok ⟨d, current⟩ := by
      intro current
      cases current with
      | none => rfl
      | some q =>
        refine congrArg Except.ok (closed_of_ne ?_)
        rw [hclosed]
        exact (Option.some_ne_none _).symm
    exact .inr (.inr ⟨hother (by simp), d, value, hne, hne⟩)
  | aside => exact .inr (.inr ⟨hother (by simp), d, value, rfl, rfl⟩)

/-- A property that was left open changes nothing if the references ahead of the next property can
be resolved. -/
theorem run_left_open (horderly : Orderly es)
    (hresolves : ∀ name, .reference name ∈ ahead es → Resolves name) (d : Document) (p : Property)
    (value : List Char) : (Reading.run dir ⟨d, some (p, value)⟩ es).map (·.document) =
      (Reading.run dir ⟨d, none⟩ es).map (·.document) := by
  induction es generalizing d value with
  | nil => rfl
  | cons e es ih =>
    cases hbegun : begun? e with
    | some q => rw [Reading.run, Reading.run, step_of_begun hbegun, step_of_begun hbegun]
    | none =>
      rw [Orderly, ahead_cons hbegun, List.forall_mem_cons] at horderly
      rw [ahead_cons hbegun] at hresolves
      obtain ⟨f, herror⟩ | ⟨name, f, rfl, hname, -⟩ | ⟨-, d', value', hok, hok'⟩ :=
        step_left_open dir hbegun horderly.1 d p value
      · rw [Reading.run, Reading.run, herror, herror]
      · exact absurd (hresolves name List.mem_cons_self) hname
      · rw [Reading.run, Reading.run, hok, hok']
        exact ih horderly.2 (fun name hname => hresolves name (List.mem_cons_of_mem _ hname)) d'
          value'

/-- Otherwise nothing can be read. -/
theorem run_left_open_error {name : List Char} (horderly : Orderly es)
    (hmem : .reference name ∈ ahead es) (hname : ¬ Resolves name) (d : Document) (p : Property)
    (value : List Char) : ∃ f, Reading.run dir ⟨d, some (p, value)⟩ es = .error f := by
  induction es generalizing d value with
  | nil => cases hmem
  | cons e es ih =>
    cases hbegun : begun? e with
    | some q =>
      rw [ahead_eq_nil hbegun] at hmem
      cases hmem
    | none =>
      rw [Orderly, ahead_cons hbegun, List.forall_mem_cons] at horderly
      rw [ahead_cons hbegun] at hmem
      obtain ⟨f, herror⟩ | ⟨-, f, -, -, herror⟩ | ⟨hresolves, d', value', -, hok⟩ :=
        step_left_open dir hbegun horderly.1 d p value
      · exact ⟨f, by rw [Reading.run, herror]; rfl⟩
      · exact ⟨f, by rw [Reading.run, herror]; rfl⟩
      · obtain rfl | hmem := List.mem_cons.1 hmem
        · exact absurd (hresolves name rfl) hname
        · rw [Reading.run, hok]
          exact ih horderly.2 hmem d' value'

/-! ### Content -/

theorem closed_closing (t : Markup.Tag) :
    closed? (.closing t.name.chars) = begun? (.opening t.render) := by
  rw [begun?, t.tagName_render]
  rfl

/-- What is left open behind a content. -/
def leftOpen (c : Content) : Option Property :=
  c.events.foldl pending none

theorem orderly_append (c : Content) (h : Orderly es) : Orderly (c.events ++ es) := by
  have hcons : ∀ {e : Event} {es : List Event}, (begun? e = none → closed? e = none ∧ Orderly es) →
      Orderly (e :: es) := by
    intro e es h
    cases hbegun : begun? e with
    | some p =>
      rw [Orderly, ahead_eq_nil hbegun]
      exact List.forall_mem_nil _
    | none =>
      rw [Orderly, ahead_cons hbegun, List.forall_mem_cons]
      exact h hbegun
  induction c generalizing es with
  | nil => exact h
  | text run rest ih => exact hcons fun _ => ⟨rfl, ih h⟩
  | reference name rest ih => exact hcons fun _ => ⟨rfl, ih h⟩
  | comment c rest ih => exact hcons fun _ => ⟨rfl, ih h⟩
  | empty tag rest ih => exact hcons fun _ => ⟨rfl, ih h⟩
  | element tag children gap rest ihchildren ihrest =>
    rw [Content.events, List.cons_append, List.append_assoc, List.cons_append]
    refine hcons fun hbegun => ⟨rfl, ?_⟩
    exact ihchildren (hcons fun _ => ⟨(closed_closing tag).trans hbegun, ihrest h⟩)

theorem orderly_events (c : Content) : Orderly c.events := by
  have hnil : Orderly [] := List.forall_mem_nil _
  simpa using orderly_append c hnil

theorem leftOpen_of_run {c : Content} (h : Reading.run dir ⟨empty, none⟩ c.events = .ok s) :
    leftOpen c = s.current.map (·.1) :=
  (run_pending h).symm

/-- Behind a content whose properties have content of their own nothing is left open that was not
left open ahead of it. -/
theorem pending_of_filled (c : Content)
    (h : ∀ tag, .empty tag ∈ c.events → begun? (.empty tag) = none) (current : Option Property) :
    c.events.foldl pending current = none ∨ c.events.foldl pending current = current := by
  induction c generalizing current with
  | nil => exact .inr rfl
  | text run rest ih =>
    rw [Content.events, List.foldl_cons, pending_of_none rfl rfl]
    exact ih (fun tag htag => h tag (List.mem_cons_of_mem _ htag)) current
  | reference name rest ih =>
    rw [Content.events, List.foldl_cons, pending_of_none rfl rfl]
    exact ih (fun tag htag => h tag (List.mem_cons_of_mem _ htag)) current
  | comment c rest ih =>
    rw [Content.events, List.foldl_cons, pending_of_none rfl rfl]
    exact ih (fun tag htag => h tag (List.mem_cons_of_mem _ htag)) current
  | empty tag rest ih =>
    rw [Content.events, List.foldl_cons, pending_of_none (h _ List.mem_cons_self) rfl]
    exact ih (fun tag htag => h tag (List.mem_cons_of_mem _ htag)) current
  | element tag children gap rest ihchildren ihrest =>
    have hchildren := ihchildren fun tag htag =>
      h tag (List.mem_cons_of_mem _ (List.mem_append_left _ htag))
    have hrest := ihrest fun tag htag =>
      h tag (List.mem_cons_of_mem _ (List.mem_append_right _ (List.mem_cons_of_mem _ htag)))
    rw [Content.events, List.foldl_cons, List.foldl_append, List.foldl_cons]
    cases hbegun : begun? (.opening tag.render) with
    | some p =>
      have hopen : pending current (.opening tag.render) = some p := by
        rw [pending, hbegun]
        rfl
      have hended : pending (children.events.foldl pending (some p))
          (.closing tag.name.chars) = none := by
        rw [pending, closed_closing, hbegun]
        obtain hx | hx := hchildren (some p)
        · rw [hx]
          rfl
        · rw [hx, if_pos rfl]
          rfl
      rw [hopen, hended]
      exact .inl ((hrest none).elim id id)
    | none =>
      rw [pending_of_none hbegun rfl, pending_of_none rfl ((closed_closing tag).trans hbegun)]
      obtain hx | hx := hchildren current
      · rw [hx]
        exact .inl ((hrest none).elim id id)
      · rw [hx]
        exact hrest current

theorem leftOpen_of_filled (c : Content)
    (h : ∀ tag, .empty tag ∈ c.events → begun? (.empty tag) = none) : leftOpen c = none :=
  (pending_of_filled c h none).elim id id

/-! ### Parsing -/

/-- Reads the rest of a document. -/
def Reading.finish (dir : String) (s : Reading) (stream : Stream) :
    Except DocumentFault Reading := do
  let s ← Reading.run dir s stream.events
  match stream.fault with
  | some f => .error (.markup f)
  | none => return s

theorem parse_eq_finish (text dir : String) :
    parse text dir = (Reading.finish dir ⟨empty, none⟩ (Markup.scan text)).map (·.document) := by
  rw [parse, Reading.finish]
  cases Reading.run dir ⟨empty, none⟩ (Markup.scan text).events with
  | error f => rfl
  | ok s =>
    cases (Markup.scan text).fault <;> rfl

theorem finish_of_begins {stream rest : Stream} (h : stream.Begins es rest) :
    Reading.finish dir s stream = Reading.run dir s es >>= (Reading.finish dir · rest) := by
  rw [Reading.finish, run_recut h.events, run_append, h.fault, bind_assoc]
  rfl

theorem finish_of_step {stream rest : Stream} {e : Event} (h : stream.Begins [e] rest)
    (hstep : s.step dir e = .ok s') :
    Reading.finish dir s stream = Reading.finish dir s' rest := by
  rw [finish_of_begins h, Reading.run, hstep]
  rfl

/-- A project file with some content. -/
def wrapped (content : List Char) : String :=
  "<Project>" ++ String.ofList content ++ "</Project>"

/-- The tag at the beginning of a project file. -/
def rootTag : Markup.Tag :=
  ⟨⟨⟨"Project".toList, List.all_eq_true.1 rfl⟩, List.cons_ne_nil _ _⟩, [], .none⟩

theorem parse_wrapped_eq_finish (content : List Char) (dir : String) :
    parse (wrapped content) dir = (Reading.finish dir ⟨empty, none⟩
      (scanFrom ["Project".toList] 9 (content ++ "</Project>".toList))).map (·.document) := by
  have htext : (wrapped content).toList =
      '<' :: (rootTag.render ++ '>' :: (content ++ "</Project>".toList)) := by
    have hcontent : (String.ofList content).toList = content := String.toList_ofList
    rw [wrapped, String.toList_append, String.toList_append, hcontent, List.append_assoc]
    rfl
  have hroot : (Markup.scan (wrapped content)).Begins [.opening "Project".toList]
      (scanFrom ["Project".toList] 9 (content ++ "</Project>".toList)) := by
    rw [Markup.scan, htext]
    exact Markup.begins_opening rootTag
  rw [parse_eq_finish, finish_of_step hroot rfl]

/-- The end of a project file changes nothing. -/
theorem finish_rootEnd (dir : String) (s : Reading) (offset : Nat) :
    Reading.finish dir s (scanFrom ["Project".toList] offset "</Project>".toList) = .ok s := by
  have hend : (scanFrom ["Project".toList] offset "</Project>".toList).Begins
      [.closing "Project".toList] ⟨[], none⟩ := by
    rw [← Markup.scanFrom_nil]
    exact Markup.begins_closing rootTag.name .none
  have hname : Property.ofName? (Markup.localName "Project".toList) = none := rfl
  have hclosed : s.closed "Project".toList = s := by
    unfold Reading.closed
    split
    · rw [hname, if_neg (Option.some_ne_none _).symm]
    · rfl
  rw [finish_of_step hend (congrArg Except.ok hclosed)]
  rfl

theorem parse_wrapped (c : Content) (dir : String) : parse (wrapped c.render) dir =
    (Reading.run dir ⟨empty, none⟩ c.events).map (·.document) := by
  rw [parse_wrapped_eq_finish, finish_of_begins c.begins_render]
  cases Reading.run dir ⟨empty, none⟩ c.events with
  | error f => rfl
  | ok s => exact congrArg _ (finish_rootEnd dir s _)

/-- What is read behind a document is added to it. -/
theorem run_behind (dir : String) (s : Reading) (es : List Event) :
    (Reading.run dir s es).map (·.document) =
      ((Reading.run dir ⟨empty, s.current⟩ es).map (·.document)).map s.document.join := by
  have hunder : Reading.under s.document ⟨empty, s.current⟩ = s := by
    rw [Reading.under, join_empty]
  have hrun := run_under dir s.document ⟨empty, s.current⟩ es
  rw [hunder] at hrun
  rw [hrun]
  cases Reading.run dir ⟨empty, s.current⟩ es <;> rfl

theorem nodup_defines_of_parse {c : Content} (h : parse (wrapped c.render) dir = .ok d) :
    d.defines.Nodup := by
  rw [parse_wrapped] at h
  have hjoin := run_behind dir ⟨empty, none⟩ c.events
  rw [h] at hjoin
  have hdefines : d.defines = addNew [] d.defines :=
    congrArg defines (Except.ok.inj hjoin)
  rw [hdefines]
  exact nodup_addNew List.nodup_nil

variable {a b : Content}

/-- Where nothing is left open, or nothing is looked at that cannot be resolved, one content is read
as if there were none ahead of it. -/
theorem parse_append
    (h : leftOpen a = none ∨ ∀ name, .reference name ∈ ahead b.events → Resolves name) :
    parse (wrapped (a.render ++ b.render)) dir = do
      let d ← parse (wrapped a.render) dir
      let e ← parse (wrapped b.render) dir
      return d.join e := by
  rw [← Content.render_append, parse_wrapped, parse_wrapped, parse_wrapped, Content.events_append,
    run_append]
  cases hfirst : Reading.run dir ⟨empty, none⟩ a.events with
  | error f => rfl
  | ok s =>
    have hsecond : (Reading.run dir ⟨empty, s.current⟩ b.events).map (·.document) =
        (Reading.run dir ⟨empty, none⟩ b.events).map (·.document) := by
      cases hcurrent : s.current with
      | none => rfl
      | some q =>
        obtain hopen | hresolves := h
        · rw [leftOpen_of_run hfirst, hcurrent] at hopen
          cases hopen
        · exact run_left_open (orderly_events b) hresolves _ _ _
    change (Reading.run dir s b.events).map (·.document) = _
    rw [run_behind, hsecond]
    cases Reading.run dir ⟨empty, none⟩ b.events <;> rfl

/-- Otherwise nothing is read. -/
theorem parse_append_error {name : List Char} (hopen : leftOpen a ≠ none)
    (hmem : .reference name ∈ ahead b.events) (hname : ¬ Resolves name) :
    ∃ f, parse (wrapped (a.render ++ b.render)) dir = .error f := by
  rw [← Content.render_append, parse_wrapped, Content.events_append, run_append]
  cases hfirst : Reading.run dir ⟨empty, none⟩ a.events with
  | error f => exact ⟨f, rfl⟩
  | ok s =>
    rw [leftOpen_of_run hfirst] at hopen
    obtain ⟨d, _ | ⟨p, value⟩⟩ := s
    · exact absurd rfl hopen
    · obtain ⟨f, herror⟩ : ∃ f, Reading.run dir ⟨d, some (p, value)⟩ b.events = .error f :=
        run_left_open_error (orderly_events b) hmem hname d p value
      exact ⟨f, congrArg (Except.map _) herror⟩

/-- A project file with one content behind another. It is read if and only if both are, unless the
first leaves a property open and the second refers to what is not known ahead of its first property;
and it says what the first says, followed by what the second adds. Only an element without content
leaves a property open. -/
theorem parse_sequence (a b : Content) (dir : String) :
    ((∃ d, parse (wrapped (a.render ++ b.render)) dir = .ok d) ↔
      (∃ d, parse (wrapped a.render) dir = .ok d) ∧ (∃ d, parse (wrapped b.render) dir = .ok d) ∧
        (leftOpen a = none ∨ ∀ name, .reference name ∈ ahead b.events → Resolves name)) ∧
    (∀ d, parse (wrapped (a.render ++ b.render)) dir = .ok d → ∃ d₁ d₂,
      parse (wrapped a.render) dir = .ok d₁ ∧ parse (wrapped b.render) dir = .ok d₂ ∧
      d.compileItems = d₁.compileItems ++ d₂.compileItems ∧
      d.references = d₁.references ++ d₂.references ∧
      d.defines = d₁.defines ++ d₂.defines.filter (· ∉ d₁.defines) ∧
      d.targetFramework = (d₁.targetFramework <|> d₂.targetFramework) ∧
      d.otherFlags = d₁.otherFlags ++ d₂.otherFlags) ∧
    ((∀ tag, .empty tag ∈ a.events → begun? (.empty tag) = none) → leftOpen a = none) := by
  have hcases : (leftOpen a = none ∨ ∀ name, .reference name ∈ ahead b.events → Resolves name) ∨
      ∃ f, parse (wrapped (a.render ++ b.render)) dir = .error f := by
    by_cases hopen : leftOpen a = none
    · exact .inl (.inl hopen)
    · by_cases hresolves : ∀ name, .reference name ∈ ahead b.events → Resolves name
      · exact .inl (.inr hresolves)
      · push Not at hresolves
        obtain ⟨name, hmem, hname⟩ := hresolves
        exact .inr (parse_append_error hopen hmem hname)
  have hparts : ∀ d, parse (wrapped (a.render ++ b.render)) dir = .ok d →
      (leftOpen a = none ∨ ∀ name, .reference name ∈ ahead b.events → Resolves name) ∧
      ∃ d₁ d₂, parse (wrapped a.render) dir = .ok d₁ ∧ parse (wrapped b.render) dir = .ok d₂ ∧
        d₁.join d₂ = d := by
    intro d hd
    obtain h | ⟨f, herror⟩ := hcases
    · rw [parse_append h] at hd
      obtain ⟨d₁, hfirst, hd⟩ := bind_eq_ok.1 hd
      obtain ⟨d₂, hsecond, hd⟩ := bind_eq_ok.1 hd
      exact ⟨h, d₁, d₂, hfirst, hsecond, Except.ok.inj hd⟩
    · cases herror.symm.trans hd
  refine ⟨⟨?_, ?_⟩, ?_, leftOpen_of_filled a⟩
  · rintro ⟨d, hd⟩
    obtain ⟨h, d₁, d₂, hfirst, hsecond, -⟩ := hparts d hd
    exact ⟨⟨d₁, hfirst⟩, ⟨d₂, hsecond⟩, h⟩
  · rintro ⟨⟨d₁, hfirst⟩, ⟨d₂, hsecond⟩, h⟩
    refine ⟨d₁.join d₂, ?_⟩
    rw [parse_append h, hfirst, hsecond]
    rfl
  · intro d hd
    obtain ⟨-, d₁, d₂, hfirst, hsecond, rfl⟩ := hparts d hd
    exact ⟨d₁, d₂, hfirst, hsecond, rfl, rfl, addNew_of_nodup (nodup_defines_of_parse hsecond), rfl,
      rfl⟩

/-- A property without content. -/
def unfilled : Content :=
  .empty ⟨⟨⟨"DefineConstants".toList, List.all_eq_true.1 rfl⟩, by simp⟩, [], .none⟩ .nil

/-- An element that is no property, around a reference to what is not known. -/
def remark : Content :=
  .element ⟨⟨⟨"Note".toList, List.all_eq_true.1 rfl⟩, by simp⟩, [], .none⟩
    (.reference ⟨"nope".toList, List.all_eq_true.1 rfl⟩ .nil) .none .nil

theorem not_compositional_unfilled :
    wrapped (unfilled.render ++ remark.render) =
      "<Project><DefineConstants/><Note>&nope;</Note></Project>" ∧
    (∃ d, parse (wrapped unfilled.render) "/p" = .ok d) ∧
    (∃ d, parse (wrapped remark.render) "/p" = .ok d) ∧
    parse (wrapped (unfilled.render ++ remark.render)) "/p" =
      .error (.unknownEntity "nope".toList) :=
  ⟨by decide +kernel, ⟨empty, by decide +kernel⟩, ⟨empty, by decide +kernel⟩, by decide +kernel⟩

end Document

end WarmCompile
