import Mathlib.Data.List.Infix
import WarmCompile.Markup.Scan

/-!
Well-formed content written out as text, and the events it is cut into. Texts that meet become one,
so the events are told up to where texts are cut.
-/

namespace WarmCompile.Markup

open Text (bytes)

/-! ### Content -/

/-- Characters of one kind. -/
structure Run (kind : Char → Bool) where
  chars : List Char
  all : ∀ c ∈ chars, kind c = true

def Run.none {kind : Char → Bool} : Run kind :=
  ⟨[], List.forall_mem_nil _⟩

@[simp]
theorem Run.chars_none {kind : Char → Bool} : (none : Run kind).chars = [] :=
  rfl

def isNameChar (c : Char) : Bool :=
  !isBlank c && !"\"'<>/=!?&".toList.contains c

structure Name extends Run isNameChar where
  ne_nil : chars ≠ []

structure Attribute where
  gap : Run isBlank
  gap_ne_nil : gap.chars ≠ []
  key : Name
  ahead : Run isBlank
  behind : Run isBlank
  quote : Char
  isQuote : quote = '"' ∨ quote = '\''
  value : Run (· != quote)

/-- What stands between the brackets of a tag, less the slash of an empty one. -/
structure Tag where
  name : Name
  attributes : List Attribute
  gap : Run isBlank

def isReferenceChar (c : Char) : Bool :=
  isText c && c != ';'

structure Comment where
  chars : List Char
  closed : ¬ "--".toList <:+: chars ++ ['-']

/-- A sequence of what can stand in an element. -/
inductive Content where
  | nil
  | text (run : Run isText) (rest : Content)
  | reference (name : Run isReferenceChar) (rest : Content)
  | comment (comment : Comment) (rest : Content)
  | empty (tag : Tag) (rest : Content)
  | element (tag : Tag) (children : Content) (gap : Run isBlank) (rest : Content)

def Attribute.render (a : Attribute) : List Char :=
  a.gap.chars ++ (a.key.chars ++ (a.ahead.chars ++
    '=' :: (a.behind.chars ++ a.quote :: (a.value.chars ++ [a.quote]))))

def Tag.render (t : Tag) : List Char :=
  t.name.chars ++ (t.attributes.flatMap Attribute.render ++ t.gap.chars)

namespace Content

def append : Content → Content → Content
  | nil, b => b
  | text run rest, b => text run (rest.append b)
  | reference name rest, b => reference name (rest.append b)
  | comment c rest, b => comment c (rest.append b)
  | empty tag rest, b => empty tag (rest.append b)
  | element tag children gap rest, b => element tag children gap (rest.append b)

instance : Append Content := ⟨append⟩

def render : Content → List Char
  | nil => []
  | text run rest => run.chars ++ rest.render
  | reference name rest => '&' :: (name.chars ++ ';' :: rest.render)
  | comment c rest => '<' :: '!' :: '-' :: '-' :: (c.chars ++ '-' :: '-' :: '>' :: rest.render)
  | empty tag rest => '<' :: (tag.render ++ '/' :: '>' :: rest.render)
  | element tag children gap rest => '<' :: (tag.render ++ '>' :: (children.render ++
      '<' :: '/' :: (tag.name.chars ++ (gap.chars ++ '>' :: rest.render))))

def events : Content → List Event
  | nil => []
  | text run rest => .text run.chars :: rest.events
  | reference name rest => .reference name.chars :: rest.events
  | comment _ rest => .aside :: rest.events
  | empty tag rest => .empty tag.render :: rest.events
  | element tag children _ rest =>
    .opening tag.render :: (children.events ++ .closing tag.name.chars :: rest.events)

theorem events_append (a b : Content) : (a ++ b).events = a.events ++ b.events := by
  change (a.append b).events = _
  induction a with
  | nil => rfl
  | text run rest ih => exact congrArg _ ih
  | reference name rest ih => exact congrArg _ ih
  | comment c rest ih => exact congrArg _ ih
  | empty tag rest ih => exact congrArg _ ih
  | element tag children gap rest _ ih =>
    simp only [append, events, ih, List.append_assoc, List.cons_append]

theorem render_append (a b : Content) : (a ++ b).render = a.render ++ b.render := by
  change (a.append b).render = _
  induction a with
  | nil => rfl
  | text run rest ih => simp only [append, render, ih, List.append_assoc]
  | reference name rest ih => simp only [append, render, ih, List.append_assoc, List.cons_append]
  | comment c rest ih => simp only [append, render, ih, List.append_assoc, List.cons_append]
  | empty tag rest ih => simp only [append, render, ih, List.append_assoc, List.cons_append]
  | element tag children gap rest _ ih =>
    simp only [append, render, ih, List.append_assoc, List.cons_append]

end Content

/-! ### Events with texts cut up -/

/-- The same events, with texts cut into pieces. -/
inductive Recut : List Event → List Event → Prop where
  | refl (es : List Event) : Recut es es
  | trans {es es' es'' : List Event} : Recut es es' → Recut es' es'' → Recut es es''
  | cons {es es' : List Event} (e : Event) : Recut es es' → Recut (e :: es) (e :: es')
  | nothing (es : List Event) : Recut es (.text [] :: es)
  | pieces (x y : List Char) (es : List Event) :
    Recut (.text (x ++ y) :: es) (.text x :: .text y :: es)

/-- A stream begins with some events, up to where texts are cut, and goes on like another. -/
structure Stream.Begins (s : Stream) (es : List Event) (rest : Stream) : Prop where
  events : Recut s.events (es ++ rest.events)
  fault : s.fault = rest.fault

theorem Stream.Begins.trans {s rest rest' : Stream} {es es' : List Event}
    (h : s.Begins es rest) (h' : rest.Begins es' rest') : s.Begins (es ++ es') rest' := by
  refine ⟨h.events.trans ?_, h.fault.trans h'.fault⟩
  rw [List.append_assoc]
  generalize es = ahead
  induction ahead with
  | nil => exact h'.events
  | cons e ahead ih => exact .cons e ih

theorem Stream.begins_cons (e : Event) (s : Stream) : (s.cons e).Begins [e] s :=
  ⟨.refl _, rfl⟩

/-! ### Tags -/

theorem bytes_append (x y : List Char) : bytes (x ++ y) = bytes x + bytes y := by
  induction x with
  | nil => simp [bytes]
  | cons c x ih => simp only [List.cons_append, bytes, ih, Nat.add_assoc]

section

variable {c : Char} {x y rest : List Char}

theorem isNameChar_iff : isNameChar c = true ↔
    isBlank c = false ∧ c ∉ "\"'<>/=!?&".toList := by
  simp [isNameChar]

theorem isBlank_iff : isBlank c = true ↔ c ∈ [' ', '\r', '\n', '\t'] := by
  simp [isBlank, or_assoc]

/-- Text that closes no tag, and every quote it opens. -/
def Balanced (x : List Char) : Prop :=
  ∀ rest, splitTag none (x ++ rest) = (splitTag none rest).map fun (t, r) => (x ++ t, r)

theorem Balanced.append (hx : Balanced x) (hy : Balanced y) : Balanced (x ++ y) := by
  intro rest
  rw [List.append_assoc, hx, hy, Option.map_map]
  simp [Function.comp_def]

theorem balanced_of_plain (h : ∀ c ∈ x, c ∉ ['"', '\'', '>']) : Balanced x := by
  intro rest
  induction x with
  | nil => simp
  | cons c x ih =>
    have hc := h c List.mem_cons_self
    simp only [List.mem_cons, List.not_mem_nil, or_false, not_or] at hc
    rw [List.cons_append, splitTag, if_neg hc.2.2, if_neg (not_or.2 ⟨hc.1, hc.2.1⟩),
      ih fun c hc => h c (List.mem_cons_of_mem _ hc), Option.map_map]
    rfl

theorem balanced_blanks (gap : Run isBlank) : Balanced gap.chars := by
  refine balanced_of_plain fun c hc hquote => ?_
  obtain h | h | h | h : c = ' ' ∨ c = '\r' ∨ c = '\n' ∨ c = '\t' := by
    simpa using isBlank_iff.1 (gap.all c hc)
  all_goals
    subst h
    exact absurd hquote (by decide)

theorem Name.balanced (n : Name) : Balanced n.chars := by
  refine balanced_of_plain fun c hc hquote => (isNameChar_iff.1 (n.all c hc)).2 ?_
  simp only [List.mem_cons, List.not_mem_nil, or_false] at hquote
  rcases hquote with rfl | rfl | rfl <;> decide

theorem balanced_quoted {q : Char} (hq : q = '"' ∨ q = '\'') (value : Run (· != q)) :
    Balanced (q :: (value.chars ++ [q])) := by
  intro rest
  have hvalue : ∀ x : List Char, (∀ c ∈ x, (c != q) = true) →
      splitTag (some q) (x ++ q :: rest) =
        (splitTag none rest).map fun (t, r) => (x ++ q :: t, r) := by
    intro x hx
    induction x with
    | nil => simp [splitTag]
    | cons c x ih =>
      rw [List.cons_append, splitTag, if_neg (bne_iff_ne.1 (hx c List.mem_cons_self)),
        ih fun c hc => hx c (List.mem_cons_of_mem _ hc), Option.map_map]
      rfl
  have hclose : q ≠ '>' := by
    rcases hq with rfl | rfl <;> decide
  rw [List.cons_append, List.append_assoc, List.singleton_append, splitTag, if_neg hclose,
    if_pos hq, hvalue _ value.all, Option.map_map]
  simp [Function.comp_def]

theorem Attribute.balanced (a : Attribute) : Balanced a.render := by
  have hequals : Balanced ['='] := balanced_of_plain (by simp)
  have h := (balanced_blanks a.gap).append (a.key.balanced.append ((balanced_blanks a.ahead).append
    (hequals.append ((balanced_blanks a.behind).append (balanced_quoted a.isQuote a.value)))))
  exact h

theorem Tag.balanced (t : Tag) : Balanced t.render := by
  refine t.name.balanced.append (.append ?_ (balanced_blanks t.gap))
  induction t.attributes with
  | nil => exact balanced_of_plain (List.forall_mem_nil _)
  | cons a attributes ih => exact a.balanced.append ih

/-- A tag does not end like an empty one. -/
theorem Tag.getLast?_render (t : Tag) : t.render.getLast? ≠ some '/' := by
  have happend : ∀ {x y : List Char}, x.getLast? ≠ some '/' → y.getLast? ≠ some '/' →
      (x ++ y).getLast? ≠ some '/' := by
    intro x y hx hy
    rw [List.getLast?_append]
    cases hlast : y.getLast? with
    | none => exact hx
    | some c => exact fun h => hy (hlast.trans h)
  refine happend ?_ (happend ?_ ?_)
  · intro h
    exact (isNameChar_iff.1 (t.name.all _ (List.mem_of_getLast? h))).2 (by decide)
  · induction t.attributes with
    | nil => exact (Option.some_ne_none _).symm
    | cons a attributes ih =>
      refine happend ?_ ih
      have hquote : a.render.getLast? = some a.quote := by
        simp [Attribute.render, List.getLast?_append, List.getLast?_cons]
      rw [hquote]
      rcases a.isQuote with h | h <;> simp [h]
  · intro h
    exact absurd (t.gap.all _ (List.mem_of_getLast? h)) (by decide)

theorem Tag.tagName_render (t : Tag) : tagName t.render = t.name.chars := by
  have hname : ∀ c ∈ t.name.chars, (!isBlank c) = true := fun c hc => by
    rw [(isNameChar_iff.1 (t.name.all c hc)).1]
    rfl
  rw [tagName, Tag.render, List.takeWhile_append_of_pos hname]
  have hblank : ∀ {c : Char} {x : List Char}, isBlank c = true →
      (c :: x).takeWhile (!isBlank ·) = [] := fun h => by
    rw [List.takeWhile_cons, h]
    rfl
  cases hattributes : t.attributes with
  | nil =>
    cases hgap : t.gap.chars with
    | nil => simp
    | cons c gap =>
      rw [List.flatMap_nil, List.nil_append,
        hblank (t.gap.all c (hgap ▸ List.mem_cons_self)), List.append_nil]
  | cons a attributes =>
    obtain ⟨c, gap, hgap⟩ := List.exists_cons_of_ne_nil a.gap_ne_nil
    rw [List.flatMap_cons, Attribute.render, hgap, List.cons_append, List.cons_append,
      List.cons_append, hblank (a.gap.all c (hgap ▸ List.mem_cons_self)), List.append_nil]

theorem endName_append (n : Name) (gap : Run isBlank) :
    endName (n.chars ++ gap.chars) = n.chars := by
  have hgap : ∀ c ∈ gap.chars.reverse, isBlank c = true := fun c hc =>
    gap.all c (List.mem_reverse.1 hc)
  obtain ⟨c, x, hreverse⟩ := List.exists_cons_of_ne_nil (List.reverse_ne_nil_iff.2 n.ne_nil)
  have hc : isBlank c = false :=
    (isNameChar_iff.1 (n.all c (List.mem_reverse.1 (hreverse ▸ List.mem_cons_self)))).1
  have hdrop : ((n.chars ++ gap.chars).reverse.dropWhile isBlank).reverse = n.chars := by
    rw [List.reverse_append, List.dropWhile_append_of_pos hgap, hreverse, List.dropWhile_cons, hc,
      if_neg Bool.false_ne_true, ← hreverse, List.reverse_reverse]
  rw [endName, hdrop]
  split
  · rename_i h
    exact absurd h n.ne_nil
  · rfl

end

/-! ### Constructs -/

section

variable {stack : List (List Char)} {offset : Nat} {r x rest : List Char}

theorem splitMarkup_tag (t : Tag) (h : splitTag none (t.render ++ r) = some (x, rest)) :
    splitMarkup (t.render ++ r) = .ok (.tag x, rest) := by
  obtain ⟨c, name, hname⟩ := List.exists_cons_of_ne_nil t.name.ne_nil
  have hc := (isNameChar_iff.1 (t.name.all c (hname ▸ List.mem_cons_self))).2
  have hrender : t.render ++ r =
      c :: (name ++ (t.attributes.flatMap Attribute.render ++ t.gap.chars) ++ r) := by
    rw [Tag.render, hname]
    rfl
  rw [hrender] at h ⊢
  unfold splitMarkup
  split
  · rename_i heq
    exact absurd (List.cons_eq_cons.1 heq).1 (by rintro rfl; exact hc (by decide))
  · rename_i heq
    exact absurd (List.cons_eq_cons.1 heq).1 (by rintro rfl; exact hc (by decide))
  · rename_i heq
    exact absurd (List.cons_eq_cons.1 heq).1 (by rintro rfl; exact hc (by decide))
  · rw [h]

theorem splitMarkup_opening (t : Tag) : splitMarkup (t.render ++ '>' :: rest) =
    .ok (.tag t.render, rest) := by
  refine splitMarkup_tag t ?_
  rw [t.balanced]
  simp [splitTag]

theorem splitMarkup_empty (t : Tag) : splitMarkup (t.render ++ '/' :: '>' :: rest) =
    .ok (.tag (t.render ++ ['/']), rest) := by
  refine splitMarkup_tag t ?_
  rw [t.balanced]
  simp [splitTag]

theorem splitMarkup_closing (n : Name) (gap : Run isBlank) :
    splitMarkup ('/' :: (n.chars ++ (gap.chars ++ '>' :: rest))) =
      .ok (.endTag (n.chars ++ gap.chars), rest) := by
  have hsplit : splitTag none (n.chars ++ (gap.chars ++ '>' :: rest)) =
      some (n.chars ++ gap.chars, rest) := by
    rw [← List.append_assoc, n.balanced.append (balanced_blanks gap)]
    simp [splitTag]
  simp only [splitMarkup, hsplit]

/-- Text is read up to a bracket where it ends, if it does not end at an earlier one. -/
theorem splitWhen_append {ends : List Char → Bool} {seen x : List Char}
    (hopen : ∀ y z, x = y ++ '>' :: z → ends (y.reverse ++ seen) = false)
    (hend : ends (x.reverse ++ seen) = true) :
    splitWhen ends seen (x ++ '>' :: rest) = some (seen.reverse ++ x, rest) := by
  induction x generalizing seen with
  | nil => simp [splitWhen, show ends seen = true from hend]
  | cons c x ih =>
    have hmore : ¬ (c = '>' ∧ ends seen = true) := by
      rintro ⟨rfl, h⟩
      exact Bool.false_ne_true ((hopen [] x rfl).symm.trans h)
    rw [List.cons_append, splitWhen, if_neg hmore, ih (fun y z h => ?_) (by simpa using hend)]
    · simp
    · simpa using hopen (c :: y) z (by rw [h]; rfl)

/-- No bracket inside of a comment ends it. -/
theorem Comment.not_ends (c : Comment) {y z : List Char}
    (h : '-' :: (c.chars ++ ['-', '-']) = y ++ '>' :: z) :
    (3 < (y.reverse ++ ['-']).length && "--".toList.isPrefixOf (y.reverse ++ ['-'])) = false := by
  rw [Bool.and_eq_false_iff, decide_eq_false_iff_not, ← Bool.not_eq_true,
    List.isPrefixOf_iff_prefix, ← not_and_or, ← List.reverse_cons]
  rintro ⟨hlength, hdashes⟩
  obtain ⟨front, hfront⟩ : ['-', '-'] <:+ '-' :: y := List.reverse_prefix.1 hdashes
  -- The first two dashes stand ahead of the comment, so these two stand in it.
  obtain ⟨inner, rfl⟩ : ∃ inner, y = '-' :: (inner ++ ['-', '-']) := by
    match front, hfront with
    | [], hfront => simp [← hfront] at hlength
    | [_], hfront => simp [← (List.cons_eq_cons.1 hfront).2] at hlength
    | _ :: d :: inner, hfront =>
      obtain ⟨-, rfl⟩ := List.cons_eq_cons.1 hfront
      obtain ⟨rfl, -⟩ := List.cons_eq_cons.1 h
      exact ⟨inner, rfl⟩
  refine c.closed ⟨inner, ('>' :: z).dropLast, ?_⟩
  have hinner : c.chars ++ ['-', '-'] = inner ++ ['-', '-'] ++ '>' :: z :=
    (List.cons_eq_cons.1 h).2
  have hlast := congrArg List.dropLast hinner
  rw [List.dropLast_append_of_ne_nil (List.cons_ne_nil _ _),
    List.dropLast_append_of_ne_nil (List.cons_ne_nil _ _)] at hlast
  exact hlast.symm

theorem splitMarkup_comment (c : Comment) :
    splitMarkup ('!' :: '-' :: '-' :: (c.chars ++ '-' :: '-' :: '>' :: rest)) =
      .ok (.aside, rest) := by
  have hsplit : splitWhen (fun seen => 3 < seen.length && "--".toList.isPrefixOf seen) ['-']
      ('-' :: (c.chars ++ ['-', '-']) ++ '>' :: rest) =
        some ('-' :: '-' :: (c.chars ++ ['-', '-']), rest) :=
    splitWhen_append (fun y z => c.not_ends) (by simp)
  have hshape : '-' :: (c.chars ++ ['-', '-']) ++ '>' :: rest =
      '-' :: (c.chars ++ '-' :: '-' :: '>' :: rest) := by simp
  rw [hshape] at hsplit
  simp only [splitMarkup, splitDeclaration, hsplit]
  simp

/-! ### Scanning -/

theorem scanFrom_nil : scanFrom stack offset [] = ⟨[], none⟩ := by
  rw [scanFrom]

/-- How a construct is scanned, told by what it is split into. -/
theorem scanFrom_markup {piece : Piece} (h : splitMarkup r = .ok (piece, rest)) :
    scanFrom stack offset ('<' :: r) =
      let behind := offset + (bytes ('<' :: r) - bytes rest)
      match piece with
      | .aside => (scanFrom stack behind rest).cons .aside
      | .tag content =>
        (scanFrom (openTag stack content).2 behind rest).cons (openTag stack content).1
      | .endTag content =>
        match close stack (endName content) with
        | .error cause => ⟨[], some ⟨offset, cause⟩⟩
        | .ok stack => (scanFrom stack behind rest).cons (.closing (endName content)) := by
  rw [scanFrom, if_pos rfl]
  split
  · rename_i hsplit
    cases h.symm.trans hsplit
  · rename_i hsplit
    cases h.symm.trans hsplit
    cases piece <;> rfl

theorem scanFrom_reference (h : splitReference ['&', '<'] r = some (x, rest)) :
    scanFrom stack offset ('&' :: r) =
      (scanFrom stack (offset + bytes x + 2) rest).cons (.reference x) := by
  rw [scanFrom, if_neg (by decide), if_pos rfl]
  split
  · rename_i hsplit
    cases h.symm.trans hsplit
  · rename_i hsplit
    cases h.symm.trans hsplit
    rfl

theorem scanFrom_openReference (h : splitReference ['&', '<'] r = none) :
    scanFrom stack offset ('&' :: r) = ⟨[], some ⟨offset, .openReference⟩⟩ := by
  rw [scanFrom, if_neg (by decide), if_pos rfl]
  split
  · rfl
  · rename_i hsplit
    cases h.symm.trans hsplit

theorem scanFrom_text {c : Char} (hc : isText c = true) :
    scanFrom stack offset (c :: r) =
      (scanFrom stack (offset + bytes (c :: r.takeWhile isText)) (r.dropWhile isText)).cons
        (.text (c :: r.takeWhile isText)) := by
  simp only [isText, Bool.and_eq_true, bne_iff_ne, ne_eq] at hc
  rw [scanFrom, if_neg hc.1, if_neg hc.2]

/-- A text that meets another makes one text with it. -/
theorem begins_text (run : Run isText) : (scanFrom stack offset (run.chars ++ rest)).Begins
    [.text run.chars] (scanFrom stack (offset + bytes run.chars) rest) := by
  obtain ⟨x, hx⟩ := run
  cases x with
  | nil => exact ⟨.nothing _, rfl⟩
  | cons c x =>
    have hmore : ∀ d ∈ x, isText d = true := fun d hd => hx d (List.mem_cons_of_mem c hd)
    change (scanFrom stack offset (c :: (x ++ rest))).Begins _ _
    rw [scanFrom_text (hx c List.mem_cons_self), List.takeWhile_append_of_pos hmore,
      List.dropWhile_append_of_pos hmore]
    cases rest with
    | nil =>
      rw [List.takeWhile_nil, List.dropWhile_nil, List.append_nil]
      exact Stream.begins_cons _ _
    | cons d rest =>
      by_cases hd : isText d = true
      · rw [List.takeWhile_cons_of_pos hd, List.dropWhile_cons_of_pos hd, scanFrom_text hd,
          ← List.cons_append, bytes_append, ← Nat.add_assoc]
        exact ⟨.pieces _ _ _, rfl⟩
      · rw [List.takeWhile_cons_of_neg hd, List.dropWhile_cons_of_neg hd, List.append_nil]
        exact Stream.begins_cons _ _

theorem splitReference_eq_some_iff {stops name t : List Char} :
    splitReference stops t = some (name, rest) ↔
      t = name ++ ';' :: rest ∧ ∀ d ∈ name, d ≠ ';' ∧ d ∉ stops := by
  constructor
  · intro h
    induction t generalizing name with
    | nil => cases h
    | cons c t ih =>
      rw [splitReference] at h
      split at h
      · rename_i hend
        cases h
        exact ⟨hend ▸ rfl, List.forall_mem_nil _⟩
      · rename_i hend
        split at h
        · cases h
        · rename_i hstop
          obtain ⟨⟨more, tail⟩, hsplit, hcons⟩ := Option.map_eq_some_iff.1 h
          cases hcons
          obtain ⟨rfl, hmore⟩ := ih hsplit
          exact ⟨rfl, List.forall_mem_cons.2 ⟨⟨hend, hstop⟩, hmore⟩⟩
  · rintro ⟨rfl, h⟩
    induction name with
    | nil => simp [splitReference]
    | cons d name ih =>
      obtain ⟨⟨hend, hstop⟩, hname⟩ := List.forall_mem_cons.1 h
      rw [List.cons_append, splitReference, if_neg hend, if_neg hstop, ih hname]
      rfl

theorem begins_reference (name : Run isReferenceChar) :
    (scanFrom stack offset ('&' :: (name.chars ++ ';' :: rest))).Begins
      [.reference name.chars] (scanFrom stack (offset + bytes name.chars + 2) rest) := by
  have hname : ∀ c ∈ name.chars, c ≠ ';' ∧ c ∉ ['&', '<'] := by
    intro c hc
    have hplain := name.all c hc
    simp only [isReferenceChar, isText, Bool.and_eq_true, bne_iff_ne, ne_eq] at hplain
    simp [hplain]
  rw [scanFrom_reference (splitReference_eq_some_iff.2 ⟨rfl, hname⟩)]
  exact Stream.begins_cons _ _

theorem begins_comment (c : Comment) :
    (scanFrom stack offset
        ('<' :: '!' :: '-' :: '-' :: (c.chars ++ '-' :: '-' :: '>' :: rest))).Begins [.aside]
      (scanFrom stack (offset + (bytes c.chars + 7)) rest) := by
  have hbytes : bytes ('<' :: '!' :: '-' :: '-' :: (c.chars ++ '-' :: '-' :: '>' :: rest)) =
      bytes rest + (bytes c.chars + 7) := by
    simp +arith [bytes, bytes_append, Char.utf8Size]
  rw [scanFrom_markup (splitMarkup_comment c), hbytes, Nat.add_sub_cancel_left]
  exact Stream.begins_cons _ _

theorem begins_empty (t : Tag) :
    (scanFrom stack offset ('<' :: (t.render ++ '/' :: '>' :: rest))).Begins
      [.empty t.render] (scanFrom stack (offset + (bytes t.render + 3)) rest) := by
  have hbytes : bytes ('<' :: (t.render ++ '/' :: '>' :: rest)) =
      bytes rest + (bytes t.render + 3) := by
    simp +arith [bytes, bytes_append, Char.utf8Size]
  have hopen : openTag stack (t.render ++ ['/']) = (.empty t.render, stack) := by
    rw [openTag, if_pos List.getLast?_concat, List.dropLast_concat]
  rw [scanFrom_markup (splitMarkup_empty t), hbytes, Nat.add_sub_cancel_left]
  dsimp only
  rw [hopen]
  exact Stream.begins_cons _ _

theorem begins_opening (t : Tag) :
    (scanFrom stack offset ('<' :: (t.render ++ '>' :: rest))).Begins [.opening t.render]
      (scanFrom (t.name.chars :: stack) (offset + (bytes t.render + 2)) rest) := by
  have hbytes : bytes ('<' :: (t.render ++ '>' :: rest)) = bytes rest + (bytes t.render + 2) := by
    simp +arith [bytes, bytes_append, Char.utf8Size]
  have hopen : openTag stack t.render = (.opening t.render, t.name.chars :: stack) := by
    rw [openTag, if_neg t.getLast?_render, t.tagName_render]
  rw [scanFrom_markup (splitMarkup_opening t), hbytes, Nat.add_sub_cancel_left]
  dsimp only
  rw [hopen]
  exact Stream.begins_cons _ _

theorem begins_closing (n : Name) (gap : Run isBlank) :
    (scanFrom (n.chars :: stack) offset
        ('<' :: '/' :: (n.chars ++ (gap.chars ++ '>' :: rest)))).Begins [.closing n.chars]
      (scanFrom stack (offset + (bytes n.chars + bytes gap.chars + 3)) rest) := by
  have hbytes : bytes ('<' :: '/' :: (n.chars ++ (gap.chars ++ '>' :: rest))) =
      bytes rest + (bytes n.chars + bytes gap.chars + 3) := by
    simp +arith [bytes, bytes_append, Char.utf8Size]
  have hclose : close (n.chars :: stack) n.chars = .ok stack := if_pos rfl
  rw [scanFrom_markup (splitMarkup_closing n gap), hbytes, Nat.add_sub_cancel_left]
  dsimp only
  rw [endName_append, hclose]
  exact Stream.begins_cons _ _

/-- Content makes the events it consists of, whatever follows it. -/
theorem Content.begins_render (c : Content) : (scanFrom stack offset (c.render ++ rest)).Begins
    c.events (scanFrom stack (offset + bytes c.render) rest) := by
  induction c generalizing stack offset rest with
  | nil => exact ⟨.refl _, rfl⟩
  | text run more ih =>
    rw [render, List.append_assoc, bytes_append, ← Nat.add_assoc]
    exact (begins_text run).trans ih
  | reference name more ih =>
    have hbytes : offset + bytes (reference name more).render =
        offset + bytes name.chars + 2 + bytes more.render := by
      simp +arith [render, bytes, bytes_append, Char.utf8Size]
    rw [hbytes, render, List.cons_append, List.append_assoc]
    exact (begins_reference name).trans ih
  | comment c more ih =>
    have hbytes : offset + bytes (comment c more).render =
        offset + (bytes c.chars + 7) + bytes more.render := by
      simp +arith [render, bytes, bytes_append, Char.utf8Size]
    rw [hbytes, render]
    simp only [List.cons_append, List.append_assoc]
    exact (begins_comment c).trans ih
  | empty tag more ih =>
    have hbytes : offset + bytes (empty tag more).render =
        offset + (bytes tag.render + 3) + bytes more.render := by
      simp +arith [render, bytes, bytes_append, Char.utf8Size]
    rw [hbytes, render, List.cons_append, List.append_assoc]
    exact (begins_empty tag).trans ih
  | element tag children gap more ihchildren ihmore =>
    have hbytes : offset + bytes (element tag children gap more).render =
        offset + (bytes tag.render + 2) + bytes children.render +
          (bytes tag.name.chars + bytes gap.chars + 3) + bytes more.render := by
      simp +arith [render, bytes, bytes_append, Char.utf8Size]
    rw [hbytes, render]
    simp only [List.cons_append, List.append_assoc]
    exact (begins_opening tag).trans (ihchildren.trans ((begins_closing tag.name gap).trans ihmore))

end

end WarmCompile.Markup
