import WarmCompile.Proofs.Markup.Escaping
import WarmCompile.Proofs.Project.Sequence

/-!
One text as an attribute and as the text of a property. An attribute is unescaped as a whole; the
text of a property comes as texts and references, one by one. Both make the same of it.
-/

namespace WarmCompile

namespace Document

open Markup (Event Escaping scanFrom unescapeFrom splitReference)
open Text (bytes)

/-! ### Texts of properties -/

/-- A text is read as `value`, whatever was read ahead of it and whatever follows. -/
def Collects (t value : List Char) : Prop :=
  ∃ es, (∀ stack offset rest, (scanFrom stack offset (t ++ rest)).Begins es
      (scanFrom stack (offset + bytes t) rest)) ∧
    ∀ dir d p before, Reading.run dir ⟨d, some (p, before)⟩ es =
      .ok ⟨d, some (p, before ++ value)⟩

/-- No document can be read in which this text stands ahead of a tag. -/
def Fails (t : List Char) : Prop :=
  ∀ dir d p before stack offset rest, ∃ f,
    Reading.finish dir ⟨d, some (p, before)⟩ (scanFrom stack offset (t ++ '<' :: rest)) = .error f

/-- A text collects what it is unescaped to, and fails where it cannot be unescaped. -/
def Follows (t : List Char) : Except Markup.ValueFault (List Char) → Prop
  | .ok value => Collects t value
  | .error _ => Fails t

section

variable {c : Char} {e : Event} {name t x rest : List Char}
  {result : Except Markup.ValueFault (List Char)}

/-- One more character ahead of a text. -/
theorem Follows.piece
    (hscan : ∀ {stack offset rest}, (scanFrom stack offset (x ++ rest)).Begins [e]
      (scanFrom stack (offset + bytes x) rest))
    (hstep : ∀ {dir d p before}, (⟨d, some (p, before)⟩ : Reading).step dir e =
      .ok ⟨d, some (p, before ++ [c])⟩)
    (h : Follows t result) : Follows (x ++ t) (result.map (c :: ·)) := by
  cases result with
  | error f =>
    intro dir d p before stack offset rest
    rw [List.append_assoc, finish_of_step hscan hstep]
    exact h dir d p _ _ _ rest
  | ok value =>
    obtain ⟨es, hes, hrun⟩ := h
    refine ⟨e :: es, fun stack offset rest => ?_, fun dir d p before => ?_⟩
    · rw [List.append_assoc, Markup.bytes_append, ← Nat.add_assoc]
      exact hscan.trans (hes stack _ rest)
    · rw [Reading.run, hstep]
      change Reading.run dir ⟨d, some (p, before ++ [c])⟩ es = _
      rw [hrun, List.append_assoc]
      rfl

theorem Follows.literal (hc : Markup.isText c = true) (h : Follows t result) :
    Follows (c :: t) (result.map (c :: ·)) :=
  h.piece (x := [c]) (Markup.begins_text ⟨[c], List.forall_mem_singleton.2 hc⟩) rfl

theorem Follows.reference (hname : ∀ d ∈ name, Markup.isReferenceChar d = true)
    (hresolve : Markup.resolve name = .ok (some c)) (h : Follows t result) :
    Follows ('&' :: (name ++ ';' :: t)) (result.map (c :: ·)) := by
  have hbytes : bytes ('&' :: (name ++ [';'])) = bytes name + 2 := by
    simp +arith [bytes, Markup.bytes_append, Char.utf8Size]
  have hpiece := h.piece (x := '&' :: (name ++ [';'])) (c := c) (e := .reference name)
    (by
      intro stack offset rest
      rw [hbytes, List.cons_append, List.append_assoc]
      exact Markup.begins_reference ⟨name, hname⟩)
    (by simp [Reading.step, Reading.referred, Reading.append, hresolve])
  rwa [List.cons_append, List.append_assoc] at hpiece

theorem fails_unresolved (hname : ∀ d ∈ name, Markup.isReferenceChar d = true)
    (hresolve : ¬ Resolves name) : Fails ('&' :: (name ++ ';' :: t)) := by
  intro dir d p before stack offset rest
  have hscan : (scanFrom stack offset ('&' :: (name ++ ';' :: (t ++ '<' :: rest)))).Begins
      [.reference name] (scanFrom stack (offset + bytes name + 2) (t ++ '<' :: rest)) :=
    Markup.begins_reference ⟨name, hname⟩
  have herror : ∃ f, (⟨d, some (p, before)⟩ : Reading).step dir (.reference name) = .error f := by
    obtain ⟨f, h⟩ | ⟨_, f, -, -, h⟩ | ⟨h, -⟩ :=
      step_left_open dir (e := .reference name) rfl rfl d p before
    · exact ⟨f, h _⟩
    · exact ⟨f, h⟩
    · exact absurd (h name rfl) hresolve
  obtain ⟨f, herror⟩ := herror
  refine ⟨f, ?_⟩
  rw [List.cons_append, List.append_assoc]
  rw [List.cons_append, finish_of_begins hscan, Reading.run, herror]
  rfl

theorem fails_open (h : '<' ∉ t) (hopen : splitReference ['&'] t = none) : Fails ('&' :: t) := by
  intro dir d p before stack offset rest
  rw [List.cons_append, Markup.scanFrom_openReference (Markup.splitReference_ahead h hopen)]
  exact ⟨_, rfl⟩

theorem follows_unescapeFrom (size offset : Nat) (h : '<' ∉ t) :
    Follows t (unescapeFrom size offset t) := by
  induction hlength : t.length using Nat.strong_induction_on generalizing t offset with
  | _ n ih =>
    subst hlength
    cases t with
    | nil =>
      rw [unescapeFrom]
      exact ⟨[], fun stack offset rest => ⟨.refl _, rfl⟩, fun dir d p before => by
        rw [List.append_nil]
        rfl⟩
    | cons c t =>
      obtain ⟨hc, ht⟩ := not_or.1 (mt List.mem_cons.2 h)
      by_cases hamp : c = '&'
      · subst hamp
        cases hsplit : splitReference ['&'] t with
        | none =>
          rw [Markup.unescapeFrom_open hsplit]
          exact fails_open ht hsplit
        | some split =>
          obtain ⟨name, more⟩ := split
          have hshort := Markup.length_lt_of_splitReference hsplit
          rw [Markup.unescapeFrom_reference hsplit]
          obtain ⟨rfl, hplain⟩ := Markup.splitReference_eq_some_iff.1 hsplit
          have hname : ∀ d ∈ name, Markup.isReferenceChar d = true := by
            intro d hd
            have htag : d ≠ '<' := fun h => ht (h ▸ List.mem_append_left _ hd)
            simpa [Markup.isReferenceChar, Markup.isText, htag, and_comm] using hplain d hd
          cases hresolve : Markup.resolve name with
          | error f =>
            refine fails_unresolved hname ?_
            rintro ⟨c, hc⟩
            cases hresolve.symm.trans hc
          | ok resolved =>
            cases resolved with
            | none =>
              refine fails_unresolved hname ?_
              rintro ⟨c, hc⟩
              cases hresolve.symm.trans hc
            | some c =>
              have hmore : '<' ∉ more := fun h =>
                ht (List.mem_append_right _ (List.mem_cons_of_mem _ h))
              exact (ih _ (Nat.lt_succ_of_lt hshort) _ hmore rfl).reference hname hresolve
      · rw [Markup.unescapeFrom_literal hamp]
        have htext : Markup.isText c = true := by
          simp [Markup.isText, Ne.symm hc, hamp]
        exact (ih _ (Nat.lt_succ_self _) _ ht rfl).literal htext

end

/-! ### Whole documents -/

/-- An element with a text in it. -/
def filled (tag : Markup.Tag) (t : List Char) : List Char :=
  '<' :: (tag.render ++ '>' :: (t ++ '<' :: '/' :: (tag.name.chars ++ ['>'])))

section

variable {tag : Markup.Tag} {p : Property} {t value : List Char}

/-- A document is read up to its only property. -/
theorem parse_filled (h : begun? (.opening tag.render) = some p) (t : List Char) (dir : String) :
    ∃ offset, parse (wrapped (filled tag t)) dir =
      (Reading.finish dir ⟨empty, some (p, [])⟩ (scanFrom [tag.name.chars, "Project".toList] offset
        (t ++ '<' :: '/' :: (tag.name.chars ++ '>' :: "</Project>".toList)))).map (·.document) := by
  have hfilled : filled tag t ++ "</Project>".toList = '<' :: (tag.render ++ '>' :: (t ++
      '<' :: '/' :: (tag.name.chars ++ '>' :: "</Project>".toList))) := by
    simp [filled]
  exact ⟨_, by rw [parse_wrapped_eq_finish, hfilled,
    finish_of_step (Markup.begins_opening tag) (step_of_begun h _)]⟩

theorem Collects.applied (hcollects : Collects t value)
    (h : begun? (.opening tag.render) = some p) (dir : String) :
    parse (wrapped (filled tag t)) dir = .ok (empty.apply p value) := by
  obtain ⟨offset, hparse⟩ := parse_filled h t dir
  obtain ⟨es, hes, hrun⟩ := hcollects
  have hend : ∀ offset rest, (scanFrom [tag.name.chars, "Project".toList] offset
      ('<' :: '/' :: (tag.name.chars ++ '>' :: rest))).Begins [.closing tag.name.chars]
      (scanFrom ["Project".toList] (offset + (bytes tag.name.chars + bytes [] + 3)) rest) :=
    fun offset rest => Markup.begins_closing tag.name .none
  have hclosed : (⟨empty, some (p, value)⟩ : Reading).step dir (.closing tag.name.chars) =
      .ok ⟨empty.apply p value, none⟩ :=
    congrArg Except.ok (closed_of_eq ((closed_closing tag).trans h))
  rw [hparse, finish_of_begins (hes _ _ _), hrun]
  change (Reading.finish dir ⟨empty, some (p, value)⟩ _).map _ = _
  rw [finish_of_step (hend _ _) hclosed, finish_rootEnd]
  rfl

theorem Fails.applied (hfails : Fails t) (h : begun? (.opening tag.render) = some p)
    (dir : String) : ∃ f, parse (wrapped (filled tag t)) dir = .error f := by
  obtain ⟨offset, hparse⟩ := parse_filled h t dir
  obtain ⟨f, hf⟩ := hfails dir empty p [] [tag.name.chars, "Project".toList] offset
    ('/' :: (tag.name.chars ++ '>' :: "</Project>".toList))
  exact ⟨f, by rw [hparse, hf]; rfl⟩

theorem includeOf_render (item : List Char) (h : tag.value? "Include".toList = some t) :
    includeOf item tag.render = match Markup.unescape t with
      | .error f => .error (.value f)
      | .ok value =>
        if '*' ∈ value then .error (.wildcard (String.ofList value))
        else .ok (String.ofList value) := by
  have hfound := tag.attribute?_render "Include".toList
  rw [h] at hfound
  cases hvalue : Markup.unescape t with
  | error f => simp only [includeOf, hfound, hvalue]
  | ok value => simp only [includeOf, hfound, hvalue]

/-- A text that stands for `value`: as the attribute of an item, where the value must not be a
wildcard, and in a property, wherever it stands. -/
structure Decoded (t value : List Char) : Prop where
  included : ∀ item (tag : Markup.Tag), tag.value? "Include".toList = some t →
    includeOf item tag.render =
      if '*' ∈ value then .error (.wildcard (String.ofList value)) else .ok (String.ofList value)
  collected : Collects t value
  applied : ∀ (tag : Markup.Tag) p, begun? (.opening tag.render) = some p → ∀ dir,
    parse (wrapped (filled tag t)) dir = .ok (empty.apply p value)

/-- A text that stands for nothing in either place. -/
structure Refused (t : List Char) : Prop where
  included : ∀ item (tag : Markup.Tag), tag.value? "Include".toList = some t →
    ∃ f, includeOf item tag.render = .error (.value f)
  collected : Fails t
  applied : ∀ (tag : Markup.Tag) p, begun? (.opening tag.render) = some p → ∀ dir,
    ∃ f, parse (wrapped (filled tag t)) dir = .error f

theorem decoded_of_unescape (h : '<' ∉ t) (hvalue : Markup.unescape t = .ok value) :
    Decoded t value := by
  have hfollows := follows_unescapeFrom (bytes t) 0 h
  rw [show unescapeFrom (bytes t) 0 t = .ok value from hvalue] at hfollows
  refine ⟨fun item tag htag => ?_, hfollows, fun tag p hp => hfollows.applied hp⟩
  rw [includeOf_render item htag, hvalue]

theorem refused_of_unescape {f : Markup.ValueFault} (h : '<' ∉ t)
    (hvalue : Markup.unescape t = .error f) : Refused t := by
  have hfollows := follows_unescapeFrom (bytes t) 0 h
  rw [show unescapeFrom (bytes t) 0 t = .error f from hvalue] at hfollows
  refine ⟨fun item tag htag => ⟨f, ?_⟩, hfollows, fun tag p hp => hfollows.applied hp⟩
  rw [includeOf_render item htag, hvalue]

/-- Attributes of items and texts of properties are decoded alike: a text stands for one value in
both or for none in either. However a text without NUL is written, the value is that text; and a
reference to NUL stands for nothing. -/
theorem decoded_alike (h : '<' ∉ t) : ((∃ value, Decoded t value) ∨ Refused t) ∧
    (∀ value, Escaping value t → '\x00' ∉ value → Decoded t value) ∧
    ∀ value, Escaping value t → '\x00' ∉ t → '\x00' ∈ value → Refused t := by
  refine ⟨?_, fun value ht hvalue => ?_, fun value ht hnul hvalue => ?_⟩
  · cases hresult : Markup.unescape t with
    | ok value => exact .inl ⟨value, decoded_of_unescape h hresult⟩
    | error f => exact .inr (refused_of_unescape h hresult)
  · exact decoded_of_unescape h (ht.unescapeFrom hvalue)
  · obtain ⟨f, hf⟩ := ht.unescapeFrom_error hnul hvalue 0
    exact refused_of_unescape h hf

/-- A character in each way to write it. -/
def mixed : List Char :=
  "&lt;A&#x2f;&#066;&gt;".toList

theorem decoded_alike_mixed : '<' ∉ mixed ∧ Escaping "<A/B>".toList mixed ∧
    '\x00' ∉ "<A/B>".toList ∧ Decoded mixed "<A/B>".toList := by
  have hopen : '<' ∉ mixed := by decide
  have hnul : '\x00' ∉ "<A/B>".toList := by decide
  have hslash : Markup.Reference "#x2f".toList '/' :=
    have h : Markup.Numeral 16 (['2'] ++ ['f']) (16 * 2 + 15) :=
      .more (.digit ⟨by decide, .inl rfl⟩) ⟨by decide, .inl rfl⟩
    .hexadecimal h
  have hletter : Markup.Reference "#066".toList 'B' :=
    have h : Markup.Numeral 10 (['0'] ++ ['6'] ++ ['6']) (10 * (10 * 0 + 6) + 6) :=
      .more (.more (.digit ⟨by decide, .inl rfl⟩) ⟨by decide, .inl rfl⟩) ⟨by decide, .inl rfl⟩
    .decimal h
  have hwritten : Escaping "<A/B>".toList mixed :=
    .reference .lt (.literal (by decide)
      (.reference hslash (.reference hletter (.reference .gt .nil))))
  exact ⟨hopen, hwritten, hnul, (decoded_alike hopen).2.1 _ hwritten hnul⟩

/-- A reference to NUL stands for nothing, though it could be written for it. -/
theorem refused_nul : Escaping ['\x00'] "&#0;".toList ∧ '<' ∉ "&#0;".toList ∧
    '"' ∉ "&#0;".toList ∧ '\x00' ∉ "&#0;".toList ∧
    parse "<Project><Compile Include=\"&#0;\"/></Project>" "/p" = .error (.value (.number .zero)) ∧
    parse "<Project><OtherFlags>&#0;</OtherFlags></Project>" "/p" = .error (.number .zero) := by
  have hzero : Markup.Reference "#0".toList '\x00' :=
    have h : Markup.Numeral 10 ['0'] 0 := .digit ⟨by decide, .inl rfl⟩
    .decimal h
  have hwritten : Escaping ['\x00'] "&#0;".toList := .reference hzero .nil
  exact ⟨hwritten, by decide, by decide, by decide, by decide +kernel, by decide +kernel⟩

end

end Document

end WarmCompile
