import WarmCompile.Json.Skip
import WarmCompile.Json.Read
import WarmCompile.Proofs.Json.Token

/-!
The compact text of a value is read as that value, whatever comes behind it. This holds of every
value whose numbers are whole and whose brackets are not nested too deep.
-/

namespace WarmCompile.Json

/-- A value that can be read again: whole numbers of 64 bits, and at most so many brackets around
any part. -/
inductive Legible : Nat → Json → Prop where
  | null {d : Nat} : Legible d .null
  | bool {d : Nat} (b : Bool) : Legible d (.bool b)
  | number {d : Nat} {n : Number} (h : n.Whole) : Legible d (.number n)
  | text {d : Nat} (s : String) : Legible d (.text s)
  | list {d : Nat} {items : List Json} (h : ∀ j ∈ items, Legible d j) : Legible (d + 1) (.list items)
  | object {d : Nat} {ms : List (String × Json)} (h : ∀ m ∈ ms, Legible d m.2) :
    Legible (d + 1) (.object ms)

theorem Legible.mono {d d' : Nat} {j : Json} (h : Legible d j) (hd : d ≤ d') : Legible d' j := by
  induction h generalizing d' with
  | null => exact .null
  | bool b => exact .bool b
  | number h => exact .number h
  | text s => exact .text s
  | list h ih =>
    obtain ⟨d', rfl⟩ := Nat.exists_eq_succ_of_ne_zero (Nat.ne_zero_of_lt hd)
    exact .list fun j hj => ih j hj (Nat.le_of_succ_le_succ hd)
  | object h ih =>
    obtain ⟨d', rfl⟩ := Nat.exists_eq_succ_of_ne_zero (Nat.ne_zero_of_lt hd)
    exact .object fun m hm => ih m hm (Nat.le_of_succ_le_succ hd)

variable {d n : Nat} {j : Json} {items : List Json} {ms : List (String × Json)}
  {rest : List Char}

/-! ### How a printed value begins -/

theorem skipBlank_cons {c : Char} (hc : isBlank c = false) (r : List Char) :
    skipBlank (c :: r) = c :: r :=
  List.dropWhile_cons_of_neg (by simp [hc])

/-- No blank, and no bracket that closes a list. -/
def Begins (cs : List Char) : Prop :=
  ∃ c r, cs = c :: r ∧ isBlank c = false ∧ c ≠ ']'

theorem begins_toDigits (n : Nat) : Begins (Nat.toDigits 10 n) := by
  cases hds : Nat.toDigits 10 n with
  | nil => exact absurd hds Nat.toDigits_ne_nil
  | cons c r =>
    have hdigit : isDigit c = true := isDigit_of_mem_toDigits c (hds ▸ List.mem_cons_self)
    refine ⟨c, r, rfl, Bool.eq_false_iff.2 fun hblank => ?_, ?_⟩
    · simp only [isBlank, Bool.or_eq_true, beq_iff_eq] at hblank
      rcases hblank with ((rfl | rfl) | rfl) | rfl <;> exact absurd hdigit (by decide)
    · rintro rfl
      exact absurd hdigit (by decide)

theorem Legible.begins (h : Legible d j) : Begins j.print := by
  cases h with
  | null => exact ⟨'n', _, rfl, rfl, by decide⟩
  | bool b => cases b <;> exact ⟨_, _, rfl, rfl, by decide⟩
  | @number _ n h =>
    cases n with
    | natural n => exact begins_toDigits n
    | negative n => exact ⟨'-', _, rfl, rfl, by decide⟩
    | real bits => exact h.elim
  | text s => exact ⟨'"', _, rfl, rfl, by decide⟩
  | list h => exact ⟨'[', _, rfl, rfl, by decide⟩
  | object h => exact ⟨'\x7b', _, rfl, rfl, by decide⟩

theorem ends_printItems (items : List Json) (rest : List Char) :
    Ends (printItems false items ++ rest) := by
  cases items with
  | nil => exact fun c hc => .inr (.inl (Option.some.inj hc).symm)
  | cons j js => exact fun c hc => .inl (Option.some.inj hc).symm

theorem ends_printMembers (ms : List (String × Json)) (rest : List Char) :
    Ends (printMembers false ms ++ rest) := by
  cases ms with
  | nil => exact fun c hc => .inr (.inr (Option.some.inj hc).symm)
  | cons m ms => exact fun c hc => .inl (Option.some.inj hc).symm

/-! ### Scalars -/

variable {list object : List Char → Except Fault (Parsed Json)}

theorem readWith_text (s : String) (rest : List Char) :
    readWith list object ((Json.text s).print ++ rest) = .ok (.text s, rest) := by
  have hcons : (Json.text s).print ++ rest = '"' :: ((quote s).tail ++ rest) := rfl
  rw [hcons, readWith, skipBlank_cons rfl]
  simp only [readString_quote]
  rfl

theorem readWith_toDigits {n : Nat} (hn : n < 0x10000000000000000) (hrest : Ends rest) :
    readWith list object (Nat.toDigits 10 n ++ rest) = .ok (.number (.natural n), rest) := by
  have hread := readNumber_toDigits hn false hrest
  cases hds : Nat.toDigits 10 n with
  | nil => exact absurd hds Nat.toDigits_ne_nil
  | cons c r =>
    have hdigit : isDigit c = true := isDigit_of_mem_toDigits c (hds ▸ List.mem_cons_self)
    obtain ⟨c', r', hcons, hblank, -⟩ := begins_toDigits n
    obtain ⟨rfl, -⟩ := List.cons.inj (hds.symm.trans hcons)
    rw [hds, List.cons_append] at hread
    rw [List.cons_append, readWith, skipBlank_cons hblank]
    split <;> rename_i heq <;> cases heq
    case h_9 => simp [hdigit, hread, bind, Except.bind, pure, Except.pure]
    all_goals exact absurd hdigit (by decide)

theorem readWith_number {n : Number} (h : n.Whole) (hrest : Ends rest) :
    readWith list object ((Json.number n).print ++ rest) = .ok (.number n, rest) := by
  cases n with
  | natural n => exact readWith_toDigits h hrest
  | negative n =>
    obtain ⟨hpos, hle⟩ := h
    have hread := readNumber_toDigits (n := n) (by omega) true hrest
    rw [if_neg (by decide), if_neg (by omega)] at hread
    have hcons : (Json.number (.negative n)).print ++ rest = '-' :: (Nat.toDigits 10 n ++ rest) :=
      rfl
    rw [hcons, readWith, skipBlank_cons rfl]
    simp only [hread]
    rfl
  | real bits => exact h.elim

/-! ### Lists and objects -/

theorem nextItem_begins {cs : List Char} (h : Begins cs) (first : Bool) :
    nextItem first ((if first then [] else [',']) ++ cs) = .ok (true, cs) := by
  obtain ⟨c, r, rfl, hblank, hclose⟩ := h
  cases first with
  | true =>
    rw [if_pos rfl, List.nil_append, nextItem, skipBlank_cons hblank]
    split
    · rename_i heq
      cases heq
    · rename_i heq
      exact absurd (List.cons.inj heq).1 hclose
    · rename_i heq
      cases heq
      rfl
  | false =>
    have hmark : skipBlank (',' :: c :: r) = ',' :: c :: r := rfl
    rw [if_neg Bool.false_ne_true, List.singleton_append, nextItem, hmark]
    split
    · rename_i heq
      cases heq
    · rename_i heq
      exact absurd (List.cons.inj heq).1 (by decide)
    rename_i heq
    cases heq
    rw [if_neg Bool.false_ne_true, if_pos rfl, skipBlank_cons hblank]
    split
    · rename_i heq
      cases heq
    · rename_i heq
      exact absurd (List.cons.inj heq).1 hclose
    · rfl

/-- Printed items are read one after the other, up to the bracket. -/
theorem readItems_print {item : List Char → Except Fault (Parsed Json)}
    (hbegins : ∀ j ∈ items, Begins j.print)
    (hitem : ∀ j ∈ items, ∀ rest, Ends rest → item (j.print ++ rest) = .ok (j, rest))
    (hn : items.length < n) (first : Bool) (rest : List Char) :
    readItems item n first (printItems first items ++ rest) = .ok (items, ']' :: rest) := by
  induction items generalizing n first with
  | nil =>
    obtain ⟨n, rfl⟩ := Nat.exists_eq_succ_of_ne_zero (Nat.ne_zero_of_lt hn)
    rfl
  | cons j js ih =>
    obtain ⟨n, rfl⟩ := Nat.exists_eq_succ_of_ne_zero (Nat.ne_zero_of_lt hn)
    have hhere : Begins (j.print ++ (printItems false js ++ rest)) := by
      obtain ⟨c, r, hcons, hc⟩ := hbegins j List.mem_cons_self
      exact ⟨c, r ++ (printItems false js ++ rest), by rw [hcons, List.cons_append], hc⟩
    have hread := hitem j List.mem_cons_self _ (ends_printItems js rest)
    have hlater := ih (fun j hj => hbegins j (List.mem_cons_of_mem _ hj))
      (fun j hj => hitem j (List.mem_cons_of_mem _ hj)) (Nat.lt_of_succ_lt_succ hn) false
    rw [printItems, List.append_assoc, List.append_assoc, readItems, nextItem_begins hhere]
    simp only [bind, Except.bind, if_true, hread, hlater]
    rfl

theorem length_le_printItems (hbegins : ∀ j ∈ items, Begins j.print) (first : Bool) :
    items.length ≤ (printItems first items).length := by
  induction items generalizing first with
  | nil => exact Nat.zero_le _
  | cons j js ih =>
    obtain ⟨c, r, hcons, -⟩ := hbegins j List.mem_cons_self
    have hlater := ih (fun j hj => hbegins j (List.mem_cons_of_mem _ hj)) false
    rw [printItems, List.length_append, List.length_append, hcons, List.length_cons,
      List.length_cons]
    omega

/-- The members are taken in one after the other, each as it is printed. -/
inductive Takes {σ : Type} (member : σ → String → List Char → Except Fault (Parsed σ)) :
    σ → List (String × Json) → σ → Prop where
  | nil {s : σ} : Takes member s [] s
  | cons {s s' s'' : σ} {key : String} {j : Json} {ms : List (String × Json)}
    (hfirst : ∀ rest, Ends rest → member s key (':' :: (j.print ++ rest)) = .ok (s', rest))
    (hlater : Takes member s' ms s'') : Takes member s ((key, j) :: ms) s''

theorem nextKey_print (key : String) (first : Bool) (r : List Char) :
    nextKey first ((if first then [] else [',']) ++ (quote key ++ r)) =
      .ok (true, (quote key).tail ++ r) := by
  cases first <;> rfl

theorem readMembers_print {σ : Type} {member : σ → String → List Char → Except Fault (Parsed σ)}
    {s s' : σ} (h : Takes member s ms s') (hn : ms.length < n) (first : Bool)
    (rest : List Char) :
    readMembers member n first s (printMembers first ms ++ rest) = .ok (s', '\x7d' :: rest) := by
  induction h generalizing n first with
  | nil =>
    obtain ⟨n, rfl⟩ := Nat.exists_eq_succ_of_ne_zero (Nat.ne_zero_of_lt hn)
    rfl
  | @cons s s₁ s' key j ms hfirst hlater ih =>
    obtain ⟨n, rfl⟩ := Nat.exists_eq_succ_of_ne_zero (Nat.ne_zero_of_lt hn)
    have hread := hfirst _ (ends_printMembers ms rest)
    have hmore := ih (Nat.lt_of_succ_lt_succ hn) false
    rw [printMembers, List.append_assoc, List.append_assoc, List.append_assoc, readMembers,
      nextKey_print]
    simp only [bind, Except.bind, if_true, readString_quote, List.cons_append, hread, hmore]

theorem length_le_printMembers (ms : List (String × Json)) (first : Bool) :
    ms.length ≤ (printMembers first ms).length := by
  induction ms generalizing first with
  | nil => exact Nat.zero_le _
  | cons m ms ih =>
    obtain ⟨key, j⟩ := m
    have hlater := ih false
    rw [printMembers, List.length_append, List.length_append, List.length_cons, List.length_cons]
    omega

/-! ### Values -/

/-- Takes in a member in front of those taken in before. -/
def readMember (d : Nat) (taken : List (String × Json)) (key : String) (cs : List Char) :
    Except Fault (Parsed (List (String × Json))) := do
  let (v, cs) ← readValue d (← readColon cs)
  return ((key, v) :: taken, cs)

theorem readValue_list (d : Nat) (items : List Json) (rest : List Char) :
    readValue (d + 1) ((Json.list items).print ++ rest) = closeList do
      let r := printItems true items ++ rest
      let (items, r) ← readItems (readValue d) (r.length + 1) true r
      return (.list items, r) :=
  rfl

theorem readValue_object (d : Nat) (ms : List (String × Json)) (rest : List Char) :
    readValue (d + 1) ((Json.object ms).print ++ rest) = closeObject do
      let r := printMembers true ms ++ rest
      let (ms, r) ← readMembers (readMember d) (r.length + 1) true [] r
      return (.object ms.reverse, r) :=
  rfl

theorem takes_readMember (hread : ∀ m ∈ ms, ∀ rest, Ends rest →
      readValue d (m.2.print ++ rest) = .ok (m.2, rest)) (taken : List (String × Json)) :
    Takes (readMember d) taken ms (ms.reverse ++ taken) := by
  induction ms generalizing taken with
  | nil => exact .nil
  | cons m ms ih =>
    obtain ⟨key, j⟩ := m
    have hlater := ih (fun m hm => hread m (List.mem_cons_of_mem _ hm)) ((key, j) :: taken)
    rw [List.reverse_cons, List.append_assoc]
    refine .cons (fun rest hrest => ?_) hlater
    have hcolon : readColon (':' :: (j.print ++ rest)) = .ok (j.print ++ rest) := rfl
    simp only [readMember, bind, Except.bind, hcolon, hread (key, j) List.mem_cons_self rest hrest]
    rfl

/-- A printed value is read as what it is. -/
theorem readValue_print (h : Legible d j) (hrest : Ends rest) :
    readValue d (j.print ++ rest) = .ok (j, rest) := by
  induction h generalizing rest with
  | @null d => cases d <;> rfl
  | @bool d b => cases d <;> cases b <;> rfl
  | @number d n h => cases d <;> exact readWith_number h hrest
  | @text d s => cases d <;> exact readWith_text s rest
  | @list d items h ih =>
    have hlength := length_le_printItems (fun j hj => (h j hj).begins) true
    have hitems := readItems_print (n := (printItems true items ++ rest).length + 1)
      (fun j hj => (h j hj).begins) (fun j hj rest => ih j hj)
      (by rw [List.length_append]; omega) true rest
    rw [readValue_list]
    simp only [bind, Except.bind, hitems]
    rfl
  | @object d ms h ih =>
    have hlength := length_le_printMembers ms true
    have htakes := takes_readMember (fun m hm rest => ih m hm) []
    have hmembers := readMembers_print (n := (printMembers true ms ++ rest).length + 1) htakes
      (by rw [List.length_append]; omega) true rest
    rw [readValue_object]
    simp only [bind, Except.bind, hmembers, List.append_nil, pure, Except.pure,
      List.reverse_reverse]
    rfl

theorem parse_compact (h : Legible depthLimit j) : parse j.compact = .ok j := by
  have hread := readValue_print h ends_nil
  rw [List.append_nil] at hread
  simp only [parse, compact, String.toList_ofList, hread]
  rfl

/-! ### The characters of a printed value -/

theorem le_of_mem_escapeChar {c x : Char} (hx : x ∈ escapeChar c) : ' ' ≤ x := by
  rcases escapeChar_cases c with ⟨e, -, he, -, hc⟩ | ⟨hcontrol, hc⟩ | ⟨-, -, hplain, hc⟩
  · rw [hc, List.mem_cons, List.mem_singleton] at hx
    rcases hx with rfl | rfl
    · decide
    · exact he
  · have hhex : ∀ n < 16, ' ' ≤ hexDigit n := by decide
    have hn : c.toNat < 0x20 := hcontrol
    simp only [hc, List.mem_cons, List.not_mem_nil, or_false] at hx
    rcases hx with rfl | rfl | rfl | rfl | rfl | rfl
    · decide
    · decide
    · decide
    · decide
    · exact hhex _ (by omega)
    · exact hhex _ (by omega)
  · rw [hc, List.mem_singleton] at hx
    exact hx ▸ hplain

theorem le_of_mem_quote {s : String} {x : Char} (hx : x ∈ quote s) : ' ' ≤ x := by
  simp only [quote, List.cons_append, List.mem_cons, List.mem_append, List.mem_flatMap,
    List.not_mem_nil, or_false] at hx
  rcases hx with rfl | ⟨c, -, hx⟩ | rfl
  · decide
  · exact le_of_mem_escapeChar hx
  · decide

theorem le_of_mem_toDigits {n : Nat} {x : Char} (hx : x ∈ Nat.toDigits 10 n) : ' ' ≤ x := by
  have hdigit := isDigit_of_mem_toDigits x hx
  simp only [isDigit, Bool.and_eq_true, decide_eq_true_eq] at hdigit
  exact Char.le_trans (by decide) hdigit.1

theorem le_of_mem_printItems {x : Char} (hitems : ∀ j ∈ items, ∀ x ∈ j.print, ' ' ≤ x)
    (first : Bool) (hx : x ∈ printItems first items) : ' ' ≤ x := by
  induction items generalizing first with
  | nil => exact (List.mem_singleton.1 hx) ▸ by decide
  | cons j js ih =>
    simp only [printItems, List.mem_append] at hx
    rcases hx with (hx | hx) | hx
    · cases first with
      | true => cases hx
      | false => exact (List.mem_singleton.1 hx) ▸ by decide
    · exact hitems j List.mem_cons_self x hx
    · exact ih (fun j hj => hitems j (List.mem_cons_of_mem _ hj)) false hx

theorem le_of_mem_printMembers {x : Char} (hms : ∀ m ∈ ms, ∀ x ∈ m.2.print, ' ' ≤ x)
    (first : Bool) (hx : x ∈ printMembers first ms) : ' ' ≤ x := by
  induction ms generalizing first with
  | nil => exact (List.mem_singleton.1 hx) ▸ by decide
  | cons m ms ih =>
    obtain ⟨key, j⟩ := m
    simp only [printMembers, List.mem_append, List.mem_cons] at hx
    rcases hx with ((hx | hx) | rfl | hx) | hx
    · cases first with
      | true => cases hx
      | false => exact (List.mem_singleton.1 hx) ▸ by decide
    · exact le_of_mem_quote hx
    · decide
    · exact hms (key, j) List.mem_cons_self x hx
    · exact ih (fun m hm => hms m (List.mem_cons_of_mem _ hm)) false hx

theorem le_of_mem_word {word : List Char} (h : word.all (' ' ≤ ·) = true) :
    ∀ x ∈ word, ' ' ≤ x := by
  intro x hx
  exact of_decide_eq_true (List.all_eq_true.1 h x hx)

/-- No control character stands in a printed value, whatever texts it holds. -/
theorem le_of_mem_print (h : Legible d j) : ∀ x ∈ j.print, ' ' ≤ x := by
  induction h with
  | null => exact le_of_mem_word (by decide)
  | bool b => cases b <;> exact le_of_mem_word (by decide)
  | @number _ n h =>
    cases n with
    | natural n => exact fun x hx => le_of_mem_toDigits hx
    | negative n =>
      intro x hx
      rcases List.mem_cons.1 hx with rfl | hx
      · decide
      · exact le_of_mem_toDigits hx
    | real bits => exact h.elim
  | text s => exact fun x hx => le_of_mem_quote hx
  | list h ih =>
    intro x hx
    rcases List.mem_cons.1 hx with rfl | hx
    · decide
    · exact le_of_mem_printItems ih true hx
  | object h ih =>
    intro x hx
    rcases List.mem_cons.1 hx with rfl | hx
    · decide
    · exact le_of_mem_printMembers ih true hx

theorem getLast?_printMembers (ms : List (String × Json)) (first : Bool) :
    (printMembers first ms).getLast? = some '\x7d' := by
  induction ms generalizing first with
  | nil => rfl
  | cons m ms ih =>
    obtain ⟨key, j⟩ := m
    rw [printMembers, List.getLast?_append, ih false]
    rfl

end WarmCompile.Json
