import WarmCompile.Markup.Attribute
import WarmCompile.Markup.Reference
import WarmCompile.Proofs.Except
import WarmCompile.Proofs.Markup.Content

/-!
Looking up an attribute of a well-formed tag, and texts in which characters are written as
references.
-/

namespace WarmCompile.Markup

open Text (bytes)

/-! ### Attributes -/

section

variable {rest : List Char}

/-- What is read up to the first character of another kind. -/
theorem span_append (rest : List Char) {p : Char → Bool} {x : List Char} {c : Char}
    (hx : ∀ d ∈ x, p d = true) (hc : p c = false) : (x ++ c :: rest).takeWhile p = x ∧
      (x ++ c :: rest).dropWhile p = c :: rest := by
  rw [List.takeWhile_append_of_pos hx, List.dropWhile_append_of_pos hx, List.takeWhile_cons,
    List.dropWhile_cons, hc]
  simp

theorem dropWhile_isBlank (gap : Run isBlank) (rest : List Char) :
    (gap.chars ++ rest).dropWhile isBlank = rest.dropWhile isBlank :=
  List.dropWhile_append_of_pos gap.all

theorem Name.dropWhile_isBlank (n : Name) :
    (n.chars ++ rest).dropWhile isBlank = n.chars ++ rest := by
  obtain ⟨c, name, hname⟩ := List.exists_cons_of_ne_nil n.ne_nil
  have hc := (isNameChar_iff.1 (n.all c (hname ▸ List.mem_cons_self))).1
  rw [hname, List.cons_append, List.dropWhile_cons, hc, if_neg Bool.false_ne_true]

theorem splitKey_append (n : Name) (ahead : Run isBlank) (rest : List Char) :
    splitKey (n.chars ++ (ahead.chars ++ '=' :: rest)) = (n.chars, ahead.chars ++ '=' :: rest) := by
  obtain ⟨c, name, hname⟩ := List.exists_cons_of_ne_nil n.ne_nil
  have hkey : ∀ d ∈ name, (d != '=' && !isBlank d) = true := by
    intro d hd
    obtain ⟨hblank, hplain⟩ := isNameChar_iff.1 (n.all d (hname ▸ List.mem_cons_of_mem c hd))
    have hequals : d ≠ '=' := by
      rintro rfl
      exact hplain (by decide)
    simp [hblank, hequals]
  have hend : ∃ d more, ahead.chars ++ '=' :: rest = d :: more ∧
      (d != '=' && !isBlank d) = false := by
    cases hahead : ahead.chars with
    | nil => exact ⟨'=', rest, rfl, by simp⟩
    | cons d gap =>
      exact ⟨d, gap ++ '=' :: rest, rfl, by simp [ahead.all d (hahead ▸ List.mem_cons_self)]⟩
  obtain ⟨d, more, hmore, hd⟩ := hend
  obtain ⟨htake, hdrop⟩ := span_append more hkey hd
  rw [hname, hmore, List.cons_append, splitKey, htake, hdrop]

theorem splitValue_append (a : Attribute) (size : Nat) (rest : List Char) :
    splitValue size (a.ahead.chars ++
      '=' :: (a.behind.chars ++ a.quote :: (a.value.chars ++ a.quote :: rest))) =
      .ok (a.value.chars, rest) := by
  have hquote : isBlank a.quote = false := by
    rcases a.isQuote with h | h <;> rw [h] <;> decide
  have hequals : ∀ more, ('=' :: more).dropWhile isBlank = '=' :: more := fun more => rfl
  have hopen : ∀ more, (a.quote :: more).dropWhile isBlank = a.quote :: more := by
    intro more
    rw [List.dropWhile_cons, hquote, if_neg Bool.false_ne_true]
  obtain ⟨htake, hdrop⟩ := span_append rest (c := a.quote) a.value.all (by simp)
  simp only [splitValue, dropWhile_isBlank, hequals, hopen]
  rw [if_pos a.isQuote, htake, hdrop]

theorem findFrom_render (name : List Char) (size : Nat) (a : Attribute) (n : Nat) :
    findFrom name size (n + 1) (a.render ++ rest) =
      if a.key.chars = name then .ok (some a.value.chars) else findFrom name size n rest := by
  have hrender : a.render ++ rest = a.gap.chars ++ (a.key.chars ++ (a.ahead.chars ++
      '=' :: (a.behind.chars ++ a.quote :: (a.value.chars ++ a.quote :: rest)))) := by
    simp only [Attribute.render, List.append_assoc, List.cons_append, List.nil_append]
  have hkey := splitKey_append a.key a.ahead
    (a.behind.chars ++ a.quote :: (a.value.chars ++ a.quote :: rest))
  have hvalue := splitValue_append a size rest
  obtain ⟨c, key, hcons⟩ := List.exists_cons_of_ne_nil a.key.ne_nil
  rw [hrender, findFrom, dropWhile_isBlank, a.key.dropWhile_isBlank]
  rw [hcons] at hkey ⊢
  simp only [List.cons_append] at hkey ⊢
  rw [hkey]
  dsimp only
  rw [hvalue]
  rfl

end

/-- The value of the first attribute with a name. -/
def Tag.value? (t : Tag) (name : List Char) : Option (List Char) :=
  (t.attributes.find? fun a => a.key.chars = name).map (·.value.chars)

theorem Tag.attribute?_render (t : Tag) (name : List Char) :
    attribute? name t.render = .ok (t.value? name) := by
  have hfind : ∀ (attributes : List Attribute) (size n : Nat), attributes.length < n →
      findFrom name size n (attributes.flatMap Attribute.render ++ t.gap.chars) =
        .ok ((attributes.find? fun a => a.key.chars = name).map (·.value.chars)) := by
    intro attributes size
    induction attributes with
    | nil =>
      rintro (_ | n) hn
      · exact absurd hn (Nat.not_lt_zero _)
      · have hblank := Markup.dropWhile_isBlank t.gap []
        rw [List.append_nil] at hblank
        rw [List.flatMap_nil, List.nil_append, findFrom, hblank]
        rfl
    | cons a attributes ih =>
      rintro (_ | n) hn
      · exact absurd hn (Nat.not_lt_zero _)
      · rw [List.flatMap_cons, List.append_assoc, findFrom_render]
        by_cases hkey : a.key.chars = name
        · rw [if_pos hkey, List.find?_cons_of_pos (by simpa using hkey)]
          rfl
        · rw [if_neg hkey, List.find?_cons_of_neg (by simpa using hkey)]
          exact ih n (Nat.lt_of_succ_lt_succ hn)
  have hlength : t.attributes.length < t.render.length + 1 := by
    have hattributes : t.attributes.length ≤ (t.attributes.flatMap Attribute.render).length := by
      induction t.attributes with
      | nil => exact Nat.zero_le _
      | cons a attributes ih =>
        have ha := List.length_pos_iff.2 a.gap_ne_nil
        simp only [List.flatMap_cons, List.length_append, List.length_cons, Attribute.render]
        omega
    simp only [Tag.render, List.length_append]
    omega
  rw [attribute?, t.tagName_render]
  nth_rewrite 3 [Tag.render]
  rw [List.drop_left]
  exact hfind t.attributes _ _ hlength

/-! ### Numerals -/

/-- A digit in either case. -/
def IsDigit (base : Nat) (c : Char) (d : Nat) : Prop :=
  d < base ∧ (c = d.digitChar ∨ c = d.digitChar.toUpper)

/-- The numerals of a number, with any zeros ahead. -/
inductive Numeral (base : Nat) : List Char → Nat → Prop where
  | digit {c : Char} {d : Nat} (h : IsDigit base c d) : Numeral base [c] d
  | more {ds : List Char} {n : Nat} {c : Char} {d : Nat} (ahead : Numeral base ds n)
    (h : IsDigit base c d) : Numeral base (ds ++ [c]) (base * n + d)

section

variable {base n d : Nat} {c : Char} {ds : List Char}

theorem IsDigit.digitIn? (hbase : base ≤ 16) (h : IsDigit base c d) :
    Markup.digitIn? base c = some d := by
  obtain ⟨hd, hc⟩ := h
  have hall : ∀ d : Fin 16, Markup.digitIn? 16 d.val.digitChar = some d.val ∧
      Markup.digitIn? 16 d.val.digitChar.toUpper = some d.val := by decide
  obtain ⟨hlower, hupper⟩ := hall ⟨d, Nat.lt_of_lt_of_le hd hbase⟩
  have hsixteen : Markup.digitIn? 16 c = some d := by
    rcases hc with rfl | rfl
    · exact hlower
    · exact hupper
  obtain ⟨hvalue, -⟩ := Option.filter_eq_some_iff.1 hsixteen
  exact Option.filter_eq_some_iff.2 ⟨hvalue, decide_eq_true hd⟩

theorem continueNumber_append (base n : Nat) (x y : List Char) :
    continueNumber base n (x ++ y) = continueNumber base n x >>= (continueNumber base · y) := by
  induction x generalizing n with
  | nil => rfl
  | cons c x ih =>
    rw [List.cons_append, continueNumber, continueNumber]
    split
    · rfl
    · split
      · rfl
      · exact ih _

theorem Numeral.continueNumber (hbase : 0 < base) (hbase' : base ≤ 16) (h : Numeral base ds n)
    (hn : n < 0x100000000) : Markup.continueNumber base 0 ds = .ok n := by
  have hone : ∀ {n d c}, IsDigit base c d → base * n + d < 0x100000000 →
      Markup.continueNumber base n [c] = .ok (base * n + d) := by
    intro n d c hd hlt
    rw [Markup.continueNumber, hd.digitIn? hbase']
    dsimp only
    rw [if_neg (Nat.not_le.2 hlt)]
    rfl
  induction h with
  | digit hd => simpa using hone (n := 0) hd (by simpa using hn)
  | @more ds n c d ahead hd ih =>
    have hle : n ≤ base * n := Nat.le_mul_of_pos_left n hbase
    rw [continueNumber_append, ih (by omega)]
    exact hone hd hn

/-- A numeral begins with a digit. -/
theorem Numeral.exists_cons (h : Numeral base ds n) :
    ∃ c d r, ds = c :: r ∧ IsDigit base c d := by
  induction h with
  | @digit c d hd => exact ⟨c, d, [], rfl, hd⟩
  | @more ds n c d ahead hd ih =>
    obtain ⟨c', d', r, rfl, hd'⟩ := ih
    exact ⟨c', d', r ++ [c], rfl, hd'⟩

theorem IsDigit.isAlphanum (hbase : base ≤ 16) (h : IsDigit base c d) : c.isAlphanum = true := by
  have hall : ∀ d : Fin 16, d.val.digitChar.isAlphanum = true ∧
      d.val.digitChar.toUpper.isAlphanum = true := by decide
  obtain ⟨hd, rfl | rfl⟩ := h
  · exact (hall ⟨d, Nat.lt_of_lt_of_le hd hbase⟩).1
  · exact (hall ⟨d, Nat.lt_of_lt_of_le hd hbase⟩).2

theorem Numeral.isAlphanum (hbase : base ≤ 16) (h : Numeral base ds n) :
    ∀ c ∈ ds, c.isAlphanum = true := by
  induction h with
  | digit hd => exact List.forall_mem_singleton.2 (hd.isAlphanum hbase)
  | more ahead hd ih =>
    exact List.forall_mem_append.2 ⟨ih, List.forall_mem_singleton.2 (hd.isAlphanum hbase)⟩

theorem Numeral.numberOf (hbase : 0 < base) (hbase' : base ≤ 16) (h : Numeral base ds n)
    (hn : n < 0x100000000) : Markup.numberOf base ds = .ok n := by
  obtain ⟨c, d, r, rfl, hd⟩ := h.exists_cons
  have hsign : ¬ (c = '+' ∨ c = '-') := by
    have hletter := hd.isAlphanum hbase'
    rintro (rfl | rfl) <;> exact absurd hletter (by decide)
  rw [Markup.numberOf, if_neg hsign]
  exact h.continueNumber hbase hbase' hn

end

/-! ### References -/

/-- What can stand between `&` and `;` for a character. -/
inductive Reference : List Char → Char → Prop where
  | lt : Reference "lt".toList '<'
  | gt : Reference "gt".toList '>'
  | amp : Reference "amp".toList '&'
  | apos : Reference "apos".toList '\''
  | quot : Reference "quot".toList '"'
  | decimal {ds : List Char} {c : Char} (h : Numeral 10 ds c.toNat) : Reference ('#' :: ds) c
  | hexadecimal {ds : List Char} {c : Char} (h : Numeral 16 ds c.toNat) :
    Reference ('#' :: 'x' :: ds) c

/-- Ways to write a text: each character as it is, where markup allows it, or as a reference. -/
inductive Escaping : List Char → List Char → Prop where
  | nil : Escaping [] []
  | literal {c : Char} {value t : List Char} (h : c ∉ ['<', '&', '"']) (more : Escaping value t) :
    Escaping (c :: value) (c :: t)
  | reference {c : Char} {name value t : List Char} (h : Reference name c)
    (more : Escaping value t) : Escaping (c :: value) ('&' :: (name ++ ';' :: t))

section

variable {c : Char} {name value t rest : List Char}

/-- The number of a character is accepted for it, unless it is NUL. -/
theorem accepted (c : Char) :
    (if c.toNat = 0 then .error .zero
      else if c.toNat.isValidChar then .ok (Char.ofNat c.toNat)
      else .error (.noCharacter c.toNat)) =
      if c = '\x00' then Except.error NumberFault.zero else .ok c := by
  have hzero : c.toNat = 0 ↔ c = '\x00' := Char.toNat_inj (d := '\x00')
  have hvalid : c.toNat.isValidChar := c.valid
  simp only [hzero, if_pos hvalid, Char.ofNat_toNat]

theorem characterOf_hexadecimal {ds : List Char} (h : numberOf 16 ds = .ok c.toNat) :
    characterOf ('x' :: ds) = if c = '\x00' then .error .zero else .ok c := by
  simp only [characterOf, h]
  exact accepted c

theorem characterOf_decimal {ds : List Char} (hhead : ds.head? ≠ some 'x')
    (h : numberOf 10 ds = .ok c.toNat) :
    characterOf ds = if c = '\x00' then .error .zero else .ok c := by
  unfold characterOf
  split
  · exact absurd rfl hhead
  · rw [h]
    exact accepted c

/-- A reference stands for its character, but none stands for NUL. -/
theorem Reference.resolve (h : Reference name c) :
    Markup.resolve name = if c = '\x00' then .error .zero else .ok (some c) := by
  have hsmall : c.toNat < 0x100000000 := c.val.toNat_lt
  have hnumber : ∀ {ds}, (characterOf ds = if c = '\x00' then .error .zero else .ok c) →
      Markup.resolve ('#' :: ds) = if c = '\x00' then .error .zero else .ok (some c) := by
    intro ds h
    rw [Markup.resolve, h]
    split <;> rfl
  cases h with
  | lt | gt | amp | apos | quot => rfl
  | @decimal ds _ h =>
    have hhead : ds.head? ≠ some 'x' := by
      obtain ⟨d, v, r, rfl, hd, hdigit⟩ := h.exists_cons
      have hall : ∀ v : Fin 10, v.val.digitChar ≠ 'x' ∧ v.val.digitChar.toUpper ≠ 'x' := by decide
      obtain ⟨hlower, hupper⟩ := hall ⟨v, hd⟩
      rcases hdigit with rfl | rfl
      · exact fun h => hlower (Option.some.inj h)
      · exact fun h => hupper (Option.some.inj h)
    exact hnumber (characterOf_decimal hhead (h.numberOf (by decide) (by decide) hsmall))
  | hexadecimal h =>
    exact hnumber (characterOf_hexadecimal (h.numberOf (by decide) (by decide) hsmall))

/-- No character of a reference ends it or begins another. -/
theorem Reference.plain (h : Reference name c) : ∀ d ∈ name, d ≠ ';' ∧ d ∉ ['&'] := by
  have hletters : ∀ {ds : List Char}, (∀ d ∈ ds, d.isAlphanum = true) →
      ∀ d ∈ ds, d ≠ ';' ∧ d ∉ ['&'] := by
    intro ds hds d hd
    have hletter := hds d hd
    refine ⟨?_, fun hmem => ?_⟩
    · rintro rfl
      exact absurd hletter (by decide)
    · obtain rfl := List.mem_singleton.1 hmem
      exact absurd hletter (by decide)
  cases h with
  | lt | gt | amp | apos | quot => exact hletters (List.all_eq_true.1 rfl)
  | decimal h =>
    exact List.forall_mem_cons.2 ⟨by decide, hletters (h.isAlphanum (by decide))⟩
  | hexadecimal h =>
    exact List.forall_mem_cons.2 ⟨by decide, List.forall_mem_cons.2
      ⟨by decide, hletters (h.isAlphanum (by decide))⟩⟩

end

/-! ### Whole values -/

section

variable {size offset : Nat} {c : Char} {name value t rest : List Char}

/-- What is not closed ahead of a tag is not closed by it. -/
theorem splitReference_ahead (h : '<' ∉ t) (hopen : splitReference ['&'] t = none) :
    splitReference ['&', '<'] (t ++ '<' :: rest) = none := by
  induction t with
  | nil => simp [splitReference]
  | cons c t ih =>
    obtain ⟨hc, ht⟩ := not_or.1 (mt List.mem_cons.2 h)
    rw [splitReference] at hopen
    rw [List.cons_append, splitReference]
    split at hopen
    · cases hopen
    · rename_i hend
      rw [if_neg hend]
      by_cases hstop : c ∈ ['&']
      · rw [if_pos (List.mem_cons.2 (.inl (List.mem_singleton.1 hstop)))]
      · rw [if_neg hstop] at hopen
        rw [if_neg (by simpa [Ne.symm hc] using hstop), ih ht (Option.map_eq_none_iff.1 hopen)]
        rfl

theorem unescapeFrom_literal (h : c ≠ '&') : unescapeFrom size offset (c :: t) =
    (unescapeFrom size (offset + c.utf8Size) t).map (c :: ·) := by
  rw [unescapeFrom, if_neg h]
  cases unescapeFrom size (offset + c.utf8Size) t <;> rfl

theorem unescapeFrom_open (h : splitReference ['&'] t = none) :
    unescapeFrom size offset ('&' :: t) = .error (.unterminated offset size) := by
  rw [unescapeFrom, if_pos rfl]
  split
  · rfl
  · rename_i hsplit
    cases h.symm.trans hsplit

theorem unescapeFrom_reference (h : splitReference ['&'] t = some (name, rest)) :
    unescapeFrom size offset ('&' :: t) =
      match resolve name with
      | .error f => .error (.number f)
      | .ok none => .error (.unknown (offset + 1) (offset + 1 + bytes name) name)
      | .ok (some d) => (unescapeFrom size (offset + bytes name + 2) rest).map (d :: ·) := by
  rw [unescapeFrom, if_pos rfl]
  split
  · rename_i hsplit
    cases h.symm.trans hsplit
  · rename_i hsplit
    cases h.symm.trans hsplit
    cases resolve name with
    | error f => rfl
    | ok d =>
      cases d with
      | none => rfl
      | some d => cases unescapeFrom size (offset + bytes name + 2) rest <;> rfl

/-- A way to write a text is read as the text. -/
theorem Escaping.unescapeFrom (h : Escaping value t) (hvalue : '\x00' ∉ value) :
    Markup.unescapeFrom size offset t = .ok value := by
  induction h generalizing offset with
  | nil => rw [Markup.unescapeFrom]
  | @literal c value t hc more ih =>
    have hamp : c ≠ '&' := by
      rintro rfl
      exact hc (by decide)
    rw [unescapeFrom_literal hamp, ih fun h => hvalue (List.mem_cons_of_mem c h)]
    rfl
  | @reference c name value t hname more ih =>
    obtain ⟨hc, hmore⟩ := not_or.1 (mt List.mem_cons.2 hvalue)
    rw [unescapeFrom_reference (splitReference_eq_some_iff.2 ⟨rfl, hname.plain⟩), hname.resolve,
      if_neg (Ne.symm hc)]
    dsimp only
    rw [ih hmore]
    rfl

/-- There is no way to write NUL other than as it is. -/
theorem Escaping.unescapeFrom_error (h : Escaping value t) (ht : '\x00' ∉ t)
    (hvalue : '\x00' ∈ value) (offset : Nat) :
    ∃ f, Markup.unescapeFrom size offset t = .error f := by
  induction h generalizing offset with
  | nil => cases hvalue
  | @literal c value t hc more ih =>
    have hamp : c ≠ '&' := by
      rintro rfl
      exact hc (by decide)
    obtain ⟨hnul, hmore⟩ := not_or.1 (mt List.mem_cons.2 ht)
    obtain ⟨f, hf⟩ := ih hmore ((List.mem_cons.1 hvalue).resolve_left hnul) (offset + c.utf8Size)
    rw [unescapeFrom_literal hamp, hf]
    exact ⟨f, rfl⟩
  | @reference c name value t hname more ih =>
    rw [unescapeFrom_reference (splitReference_eq_some_iff.2 ⟨rfl, hname.plain⟩), hname.resolve]
    by_cases hc : c = '\x00'
    · rw [if_pos hc]
      exact ⟨_, rfl⟩
    · have hmore : '\x00' ∉ t := fun h =>
        ht (List.mem_cons_of_mem _ (List.mem_append_right _ (List.mem_cons_of_mem _ h)))
      obtain ⟨f, hf⟩ := ih hmore ((List.mem_cons.1 hvalue).resolve_left (Ne.symm hc))
        (offset + bytes name + 2)
      rw [if_neg hc]
      dsimp only
      rw [hf]
      exact ⟨f, rfl⟩

end

end WarmCompile.Markup
