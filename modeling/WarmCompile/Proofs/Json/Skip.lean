import Mathlib.Data.List.DropRight
import Mathlib.Data.List.Infix
import WarmCompile.Json.Skip
import WarmCompile.Proofs.Json.Taken

/-!
A value that can be read can be skipped, and what stands behind it is the same.
-/

namespace WarmCompile.Json

variable {d n : Nat} {first : Bool} {cs rest : List Char} {j : Json}

/-! ### What stands ahead of an item or a key -/

theorem skipBlank_suffix (cs : List Char) : skipBlank cs <:+ cs :=
  List.dropWhile_suffix _

theorem skipBlank_skipBlank (cs : List Char) : skipBlank (skipBlank cs) = skipBlank cs :=
  List.dropWhile_idempotent isBlank cs

theorem nextItem_end (h : nextItem first cs = .ok (false, rest)) :
    skipBlank cs = rest ∧ ∃ r, rest = ']' :: r := by
  unfold nextItem at h
  split at h
  · cases h
  · rename_i hblank
    cases h
    exact ⟨hblank, _, rfl⟩
  · split at h
    · cases h
    · split at h
      · split at h <;> cases h
      · cases h

/-- Ahead of the first item there may be blanks, ahead of any other a comma as well. -/
theorem nextItem_more (h : nextItem first cs = .ok (true, rest)) :
    (∃ c r, rest = c :: r ∧ c ≠ ']') ∧
    if first then skipBlank cs = rest
    else ∃ r, skipBlank cs = ',' :: r ∧ skipBlank r = rest := by
  unfold nextItem at h
  split at h
  · cases h
  · cases h
  · rename_i c r hne hblank
    split at h
    · rename_i hfirst
      cases h
      exact ⟨⟨c, r, rfl, hne⟩, by rw [hfirst]; exact hblank⟩
    · rename_i hfirst
      split at h
      · rename_i hcomma
        split at h
        · cases h
        · cases h
        · rename_i front hnil hend
          cases h
          refine ⟨?_, by rw [if_neg hfirst]; exact ⟨r, hcomma ▸ hblank, rfl⟩⟩
          cases hfront : skipBlank r with
          | nil => exact absurd hfront hnil
          | cons c' r' => exact ⟨c', r', rfl, fun hc => hend r' (hc ▸ hfront)⟩
      · cases h

theorem nextKey_end (h : nextKey first cs = .ok (false, rest)) :
    skipBlank cs = rest ∧ ∃ r, rest = '\x7d' :: r := by
  unfold nextKey at h
  split at h
  · cases h
  · rename_i hblank
    cases h
    exact ⟨hblank, _, rfl⟩
  · split at h
    · split at h <;> cases h
    · split at h
      · split at h <;> cases h
      · cases h

theorem nextKey_more (h : nextKey first cs = .ok (true, rest)) :
    if first then skipBlank cs = '"' :: rest
    else ∃ r, skipBlank cs = ',' :: r ∧ skipBlank r = '"' :: rest := by
  unfold nextKey at h
  split at h
  · cases h
  · cases h
  · rename_i c r hne hblank
    split at h
    · rename_i hfirst
      split at h
      · rename_i hmark
        cases h
        rw [if_pos hfirst, hblank, hmark]
      · cases h
    · rename_i hfirst
      rw [if_neg hfirst]
      split at h
      · rename_i hcomma
        split at h
        · cases h
        · rename_i hquote
          cases h
          exact ⟨r, hcomma ▸ hblank, hquote⟩
        · cases h
        · cases h
      · cases h

/-! ### Words, quoted texts and numbers -/

theorem readWord_suffix {word : List Char} (h : readWord word cs = .ok rest) : rest <:+ cs := by
  induction word generalizing cs with
  | nil =>
    cases h
    exact List.suffix_refl _
  | cons c word ih =>
    cases cs with
    | nil => cases h
    | cons c' cs =>
      unfold readWord at h
      split at h
      · exact (ih h).trans (List.suffix_cons _ _)
      · cases h

theorem of_readHex {n : Nat} (h : readHex cs = .ok (n, rest)) :
    ∃ a b c d, cs = a :: b :: c :: d :: rest ∧ (hexDigits? [a, b, c, d]).isSome = true := by
  unfold readHex at h
  split at h
  · rename_i a b c d r
    split at h
    · rename_i hdigits
      cases h
      exact ⟨a, b, c, d, rfl, by rw [hdigits]; rfl⟩
    · cases h
  · split at h <;> cases h

theorem skipString_of_readHex {n : Nat} (h : readHex cs = .ok (n, rest)) :
    skipString ('\\' :: 'u' :: cs) = skipString rest := by
  obtain ⟨a, b, c, d, rfl, hdigits⟩ := of_readHex h
  rw [skipString]
  exact if_pos hdigits

theorem of_readTrail {lead : Nat} {c : Char} (h : readTrail lead cs = .ok (c, rest)) :
    ∃ n r, cs = '\\' :: 'u' :: r ∧ readHex r = .ok (n, rest) := by
  revert h
  fun_cases readTrail lead cs with
  | case3 r =>
    intro h
    obtain ⟨⟨n, r'⟩, hhex, h⟩ := bind_eq_ok.1 h
    dsimp only at h
    generalize isTrailSurrogate n = trail at h
    cases trail with
    | false => cases h
    | true =>
      have hrest : r' = rest := congrArg Prod.snd (Except.ok.inj h)
      exact ⟨n, r, rfl, hrest ▸ hhex⟩
  | _ =>
    intro h
    cases h

/-- An escape that makes sense is skipped like any other. -/
theorem skipString_of_readEscape {c : Char} (h : readEscape cs = .ok (c, rest)) :
    skipString ('\\' :: cs) = skipString rest := by
  unfold readEscape at h
  split at h
  · cases h
  · rename_i c' r
    split at h
    · rename_i hu
      subst hu
      unfold readUnicode at h
      obtain ⟨⟨n, r'⟩, hhex, h⟩ := bind_eq_ok.1 h
      rw [skipString_of_readHex hhex]
      dsimp only at h
      split at h
      · cases h
      · split at h
        · obtain ⟨n', r'', rfl, hhex'⟩ := of_readTrail h
          exact skipString_of_readHex hhex'
        · cases h
          rfl
    · rename_i hu
      split at h
      · rename_i hshort
        cases h
        rw [skipString]
        · rw [hshort]
          rfl
        · exact hu
      · cases h

theorem skipString_suffix (h : skipString cs = .ok rest) : rest <:+ cs := by
  induction hlength : cs.length using Nat.strongRecOn generalizing cs with
  | ind n ih =>
    have hmore : ∀ {front r : List Char}, cs = front ++ r → front ≠ [] →
        skipString r = .ok rest → rest <:+ cs := by
      intro front r hcs hne hr
      have hfront := List.length_pos_iff.2 hne
      have hcount := congrArg List.length hcs
      rw [List.length_append] at hcount
      exact (ih _ (by omega) hr rfl).trans (hcs ▸ List.suffix_append front r)
    rw [skipString.eq_def] at h
    split at h
    · cases h
    · cases h
      exact List.suffix_cons _ _
    · cases h
    · split at h
      · split at h
        · rename_i a b c d r _
          exact hmore (rfl : _ = ['\\', 'u', a, b, c, d] ++ r) nofun h
        · cases h
      · split at h <;> cases h
    · rename_i c r _
      split at h
      · exact hmore (rfl : _ = ['\\', c] ++ r) nofun h
      · cases h
    · rename_i c r _ _ _ _
      split at h
      · cases h
      · exact hmore (rfl : _ = [c] ++ r) nofun h

theorem skipString_of_readText {s : List Char} (h : readText cs = .ok (s, rest)) :
    skipString cs = .ok rest := by
  induction hlength : cs.length using Nat.strongRecOn generalizing cs s with
  | ind n ih =>
    rw [readText.eq_def] at h
    split at h
    · cases h
    · cases h
      rfl
    · rename_i r
      split at h
      · cases h
      · rename_i c r' hescape
        split at h
        · cases h
        · rename_i hrest
          cases h
          rw [skipString_of_readEscape hescape]
          have hless := length_lt_of_readEscape hescape
          exact ih _ (by rw [← hlength, List.length_cons]; omega) hrest rfl
    · rename_i c r hmark hslash
      split at h
      · cases h
      · rename_i hplain
        split at h
        · cases h
        · rename_i hrest
          cases h
          rw [skipString]
          · rw [if_neg hplain]
            exact ih _ (by rw [← hlength, List.length_cons]; omega) hrest rfl
          · exact hmark
          · exact fun hc _ => hslash hc
          · exact fun _ hc _ => hslash hc
          · exact fun _ _ hc _ => hslash hc

theorem readDigits_suffix (cs : List Char) : (readDigits cs).2 <:+ cs :=
  List.dropWhile_suffix _

theorem of_readReal {negative : Bool} {m : Nat} {e : Int} {n : Number}
    (h : readReal negative m e cs = .ok (n, rest)) : cs = rest := by
  unfold readReal at h
  split at h
  · cases h
    rfl
  · cases h

/-- What follows the sign of a power, if it has one. -/
def withoutSign : List Char → List Char
  | '+' :: r | '-' :: r => r
  | r => r

theorem withoutSign_suffix (cs : List Char) : withoutSign cs <:+ cs := by
  unfold withoutSign
  split
  · exact List.suffix_cons _ _
  · exact List.suffix_cons _ _
  · exact List.suffix_refl _

theorem skipPower_eq_ok : skipPower cs = .ok rest ↔
    (readDigits (withoutSign cs)).1.isEmpty = false ∧ (readDigits (withoutSign cs)).2 = rest := by
  have hdigits : skipPower cs = if (readDigits (withoutSign cs)).1.isEmpty then
      failNext .invalidNumber (readDigits (withoutSign cs)).2
    else .ok (readDigits (withoutSign cs)).2 := rfl
  rw [hdigits]
  cases (readDigits (withoutSign cs)).1.isEmpty with
  | true => exact ⟨nofun, fun h => nomatch h.1⟩
  | false => simp

theorem skipPower_suffix (h : skipPower cs = .ok rest) : rest <:+ cs := by
  obtain ⟨-, rfl⟩ := skipPower_eq_ok.1 h
  exact (readDigits_suffix _).trans (withoutSign_suffix cs)

theorem readDigits_of_isDigit {c : Char} (hc : isDigit c = true) (r : List Char) :
    readDigits (c :: r) = (c :: (readDigits r).1, (readDigits r).2) := by
  rw [readDigits, List.takeWhile_cons_of_pos hc, List.dropWhile_cons_of_pos hc]
  rfl

theorem skipPower_of_readPower {negative : Bool} {m : Nat} {e : Int} {n : Number}
    (h : readPower negative m e cs = .ok (n, rest)) : skipPower cs = .ok rest := by
  rw [skipPower_eq_ok]
  unfold readPower at h
  split at h
  rename_i down front hsign
  have hfront : withoutSign cs = front := by
    split at hsign
    · cases hsign
      rfl
    · cases hsign
      rfl
    · rename_i hplus hminus
      cases hsign
      exact withoutSign.eq_3 cs hplus hminus
  rw [hfront]
  split at h
  · cases h
  · rename_i c r
    split at h
    · rename_i hdigit
      rw [readDigits_of_isDigit hdigit]
      refine ⟨rfl, ?_⟩
      rw [readDigits_of_isDigit hdigit] at h
      dsimp only at h
      split at h
      · exact of_readReal h
      · split at h
        · cases h
        · cases h
          rfl
    · cases h

/-- What may follow the digits behind a point. -/
def skipScale : List Char → Except Fault (List Char)
  | 'e' :: r | 'E' :: r => skipPower r
  | r => .ok r

theorem skipFraction_eq (cs : List Char) : skipFraction cs =
    if (readDigits cs).1.isEmpty then failNext .invalidNumber (readDigits cs).2
    else skipScale (readDigits cs).2 :=
  rfl

theorem skipScale_suffix (h : skipScale cs = .ok rest) : rest <:+ cs := by
  unfold skipScale at h
  split at h
  · exact (skipPower_suffix h).trans (List.suffix_cons _ _)
  · exact (skipPower_suffix h).trans (List.suffix_cons _ _)
  · cases h
    exact List.suffix_refl _

theorem skipFraction_of_readFraction {negative : Bool} {m dropped : Nat} {n : Number}
    (h : readFraction negative m dropped cs = .ok (n, rest)) : skipFraction cs = .ok rest := by
  rw [skipFraction_eq]
  unfold readFraction at h
  dsimp only at h
  split at h
  · split at h <;> cases h
  · rename_i hdigits
    rw [if_neg hdigits]
    split at h
    · rename_i hrest
      rw [hrest]
      exact skipPower_of_readPower h
    · rename_i hrest
      rw [hrest]
      exact skipPower_of_readPower h
    · rename_i hsmall hlarge
      rw [skipScale.eq_3 _ hsmall hlarge, of_readReal h]

theorem skipFraction_suffix (h : skipFraction cs = .ok rest) : rest <:+ cs := by
  rw [skipFraction_eq] at h
  split at h
  · cases h
  · exact (skipScale_suffix h).trans (readDigits_suffix cs)

/-- What may follow the whole part of a number. -/
def skipTail : List Char → Except Fault (List Char)
  | '.' :: r => skipFraction r
  | 'e' :: r | 'E' :: r => skipPower r
  | r => .ok r

theorem skipNumber_cons (c : Char) (r : List Char) : skipNumber (c :: r) =
    if !isDigit c then failNext .invalidNumber (c :: r)
    else if c = '0' ∧ (r.head?.any isDigit) then failNext .invalidNumber r
    else skipTail (readDigits (c :: r)).2 :=
  rfl

theorem skipTail_suffix (h : skipTail cs = .ok rest) : rest <:+ cs := by
  unfold skipTail at h
  split at h
  · exact (skipFraction_suffix h).trans (List.suffix_cons _ _)
  · exact (skipPower_suffix h).trans (List.suffix_cons _ _)
  · exact (skipPower_suffix h).trans (List.suffix_cons _ _)
  · cases h
    exact List.suffix_refl _

theorem skipNumber_of_readNumber {negative : Bool} {n : Number}
    (h : readNumber negative cs = .ok (n, rest)) : skipNumber cs = .ok rest := by
  unfold readNumber at h
  split at h
  · cases h
  · rename_i c r
    rw [skipNumber_cons]
    split at h
    · cases h
    · rename_i hdigit
      split at h
      · cases h
      · rename_i hzero
        rw [if_neg hdigit, if_neg hzero]
        dsimp only at h
        split at h
        · rename_i hrest
          rw [hrest]
          exact skipFraction_of_readFraction h
        · rename_i hrest
          rw [hrest]
          exact skipPower_of_readPower h
        · rename_i hrest
          rw [hrest]
          exact skipPower_of_readPower h
        · rename_i hpoint hsmall hlarge
          rw [skipTail.eq_4 _ hpoint hsmall hlarge]
          split at h
          · rw [of_readReal h]
          · split at h
            · cases h
              rfl
            · split at h
              · rw [of_readReal h]
              · cases h
                rfl

theorem length_lt_of_skipNumber (h : skipNumber cs = .ok rest) : rest.length < cs.length := by
  cases cs with
  | nil => cases h
  | cons c r =>
    rw [skipNumber_cons] at h
    split at h
    · cases h
    · rename_i hdigit
      split at h
      · cases h
      · have hmore : (readDigits (c :: r)).2 <:+ r := by
          rw [readDigits_of_isDigit (by simpa using hdigit)]
          exact readDigits_suffix r
        exact Nat.lt_succ_of_le ((skipTail_suffix h).trans hmore).length_le

/-! ### Whole values -/

/-- More than the steps that skipping can take from here. -/
def Skipping.room : Skipping → List Char → Nat
  | .value, cs => 2 * cs.length
  | .inside _, cs => 2 * cs.length + 1

/-- Skipping gets from one place to another, and no step goes beyond the room that it takes up. -/
def Skips (a : Skipping) (frames : List Frame) (cs : List Char) (a' : Skipping)
    (frames' : List Frame) (rest : List Char) : Prop :=
  ∃ k, k + a'.room rest ≤ a.room cs ∧
    ∀ n, skipFrom (n + k) a frames cs = skipFrom n a' frames' rest

section

variable {a a' a'' : Skipping} {frames frames' frames'' : List Frame} {r r' : List Char}

theorem Skips.step (hstep : ∀ n, skipFrom (n + 1) a frames cs = skipFrom n a' frames' rest)
    (hroom : a'.room rest < a.room cs) : Skips a frames cs a' frames' rest :=
  ⟨1, by omega, hstep⟩

theorem Skips.trans (h : Skips a frames cs a' frames' r)
    (h' : Skips a' frames' r a'' frames'' rest) : Skips a frames cs a'' frames'' rest := by
  obtain ⟨k, hroom, hsteps⟩ := h
  obtain ⟨k', hroom', hsteps'⟩ := h'
  refine ⟨k' + k, by omega, fun n => ?_⟩
  rw [← Nat.add_assoc, hsteps, hsteps']

/-- A scalar is skipped in one step. -/
theorem skips_scalar {front : List Char} {x : Except Fault (List Char)}
    (hblank : skipBlank cs = front) (hx : x = .ok rest) (hless : rest.length < front.length)
    (hstep : ∀ n, skipFrom (n + 1) .value frames cs = x >>= skipFrom n (.inside true) frames) :
    Skips .value frames cs (.inside true) frames rest := by
  refine .step (fun n => ?_) ?_
  · rw [hstep, hx]
    rfl
  · have hfront := (skipBlank_suffix cs).length_le
    rw [hblank] at hfront
    simp only [Skipping.room]
    omega

theorem skipString_of_readString {s : String} (h : readString cs = .ok (s, rest)) :
    skipString cs = .ok rest := by
  unfold readString at h
  split at h
  · cases h
  · rename_i hread
    cases h
    exact skipString_of_readText hread

theorem readColon_suffix (h : readColon cs = .ok rest) : rest <:+ cs := by
  have hblank := skipBlank_suffix cs
  unfold readColon at h
  split at h
  · cases h
  · rename_i hcolon
    cases h
    exact (List.suffix_cons _ _).trans (hcolon ▸ hblank)
  · cases h

theorem skipKey_of_readString {key : String} (hblank : skipBlank cs = '"' :: r)
    (hkey : readString r = .ok (key, r')) (hcolon : readColon r' = .ok rest) :
    skipKey cs = .ok rest ∧ rest.length < cs.length := by
  have hstring := skipString_of_readString hkey
  have hless := (skipBlank_suffix cs).length_le
  have hless' := (skipString_suffix hstring).length_le
  have hless'' := (readColon_suffix hcolon).length_le
  rw [hblank, List.length_cons] at hless
  refine ⟨?_, by omega⟩
  simp only [skipKey, hblank, hstring]
  exact hcolon

theorem readValue_skipBlank (d : Nat) (cs : List Char) :
    readValue d (skipBlank cs) = readValue d cs := by
  cases d with
  | zero => simp only [readValue, readWith, skipBlank_skipBlank]
  | succ d => simp only [readValue, readWith, skipBlank_skipBlank]

theorem skips_of_items {js : List Json}
    (hvalue : ∀ {cs j rest} frames, readValue d cs = .ok (j, rest) →
      Skips .value frames cs (.inside true) frames rest)
    (h : Items d n first cs js r) (hend : skipBlank r = ']' :: rest) :
    Skips (.inside !first) (.list :: frames) cs (.inside true) frames rest := by
  induction h with
  | @nil n first cs r h =>
    obtain ⟨hblank, r', rfl⟩ := nextItem_end h
    obtain rfl : r' = rest := (List.cons.inj hend).2
    have hless := (skipBlank_suffix cs).length_le
    rw [hblank, List.length_cons] at hless
    refine .step (fun n => ?_) ?_
    · simp only [skipFrom, hblank]
    · simp only [Skipping.room]
      omega
  | @cons n first cs r r₁ rest j js hnext hread hmore ih =>
    obtain ⟨⟨c, r', rfl, hc⟩, hahead⟩ := nextItem_more hnext
    have hless := (skipBlank_suffix cs).length_le
    have hfront : ∃ front, readValue d front = .ok (j, r₁) ∧
        Skips (.inside !first) (.list :: frames) cs .value (.list :: frames) front := by
      cases first with
      | true =>
        rw [if_pos rfl] at hahead
        rw [hahead] at hless
        refine ⟨c :: r', hread, .step (fun n => ?_) ?_⟩
        · rw [skipFrom, hahead]
          split
          · rename_i heq
            cases heq
          · rename_i heq
            exact absurd (List.cons.inj heq).1 hc
          · rename_i heq
            cases heq
            rfl
        · simp only [Skipping.room]
          omega
      | false =>
        obtain ⟨r₀, hcomma, hblank⟩ := hahead
        rw [hcomma, List.length_cons] at hless
        refine ⟨r₀, by rw [← readValue_skipBlank, hblank, hread], .step (fun n => ?_) ?_⟩
        · rw [skipFrom, hcomma]
          rfl
        · simp only [Skipping.room]
          omega
    obtain ⟨front, hfront, hskips⟩ := hfront
    exact hskips.trans ((hvalue (.list :: frames) hfront).trans (ih hend))

theorem skips_of_members {ms : List (String × Json)}
    (hvalue : ∀ {cs j rest} frames, readValue d cs = .ok (j, rest) →
      Skips .value frames cs (.inside true) frames rest)
    (h : Members d n first cs ms r) (hend : skipBlank r = '\x7d' :: rest) :
    Skips (.inside !first) (.object :: frames) cs (.inside true) frames rest := by
  induction h with
  | @nil n first cs r h =>
    obtain ⟨hblank, r', rfl⟩ := nextKey_end h
    obtain rfl : r' = rest := (List.cons.inj hend).2
    have hless := (skipBlank_suffix cs).length_le
    rw [hblank, List.length_cons] at hless
    refine .step (fun n => ?_) ?_
    · simp only [skipFrom, hblank]
    · simp only [Skipping.room]
      omega
  | @cons n first cs r r₁ r₂ rest key j ms hnext hkey hread hmore ih =>
    obtain ⟨front, hcolon, hread⟩ := bind_eq_ok.1 hread
    have hahead := nextKey_more hnext
    have hless := (skipBlank_suffix cs).length_le
    have hfront :
        Skips (.inside !first) (.object :: frames) cs .value (.object :: frames) front := by
      cases first with
      | true =>
        rw [if_pos rfl] at hahead
        have hquote : skipBlank ('"' :: r) = '"' :: r := rfl
        obtain ⟨hskip, hshorter⟩ := skipKey_of_readString hquote hkey hcolon
        rw [hahead] at hless
        refine .step (fun n => ?_) ?_
        · rw [skipFrom, hahead]
          exact congrArg (· >>= skipFrom n .value (.object :: frames)) hskip
        · simp only [Skipping.room]
          omega
      | false =>
        obtain ⟨r₀, hcomma, hquote⟩ := hahead
        obtain ⟨hskip, hshorter⟩ := skipKey_of_readString hquote hkey hcolon
        rw [hcomma, List.length_cons] at hless
        refine .step (fun n => ?_) ?_
        · rw [skipFrom, hcomma]
          exact congrArg (· >>= skipFrom n .value (.object :: frames)) hskip
        · simp only [Skipping.room]
          omega
    exact hfront.trans ((hvalue (.object :: frames) hread).trans (ih hend))

/-- A bracket is passed in one step. -/
theorem skips_open {c : Char} {frame : Frame} (hblank : skipBlank cs = c :: r)
    (hstep : ∀ n, skipFrom (n + 1) .value frames cs =
      skipFrom n (.inside false) (frame :: frames) r) :
    Skips .value frames cs (.inside false) (frame :: frames) r := by
  have hless := (skipBlank_suffix cs).length_le
  rw [hblank, List.length_cons] at hless
  refine .step hstep ?_
  simp only [Skipping.room]
  omega

/-- From a value that can be read, skipping gets behind it, whatever brackets are open. -/
theorem skips_of_readValue (frames : List Frame) (h : readValue d cs = .ok (j, rest)) :
    Skips .value frames cs (.inside true) frames rest := by
  induction d using Nat.strong_induction_on generalizing cs j rest frames with
  | _ d ih =>
    have hvalue := value_of_readValue h
    generalize hblank : skipBlank cs = front at hvalue
    cases hvalue with
    | null hword =>
      have hless := Nat.lt_succ_of_le (readWord_suffix hword).length_le
      exact skips_scalar hblank hword hless fun n => by rw [skipFrom, hblank]; rfl
    | yes hword =>
      have hless := Nat.lt_succ_of_le (readWord_suffix hword).length_le
      exact skips_scalar hblank hword hless fun n => by rw [skipFrom, hblank]; rfl
    | no hword =>
      have hless := Nat.lt_succ_of_le (readWord_suffix hword).length_le
      exact skips_scalar hblank hword hless fun n => by rw [skipFrom, hblank]; rfl
    | text hread =>
      have hstring := skipString_of_readString hread
      have hless := Nat.lt_succ_of_le (skipString_suffix hstring).length_le
      exact skips_scalar hblank hstring hless fun n => by rw [skipFrom, hblank]; rfl
    | below hread =>
      have hnumber := skipNumber_of_readNumber hread
      have hless := Nat.lt_succ_of_lt (length_lt_of_skipNumber hnumber)
      exact skips_scalar hblank hnumber hless fun n => by rw [skipFrom, hblank]; rfl
    | @number c r rest n hdigit hread =>
      have hnumber := skipNumber_of_readNumber hread
      refine skips_scalar hblank hnumber (length_lt_of_skipNumber hnumber) fun n => ?_
      rw [skipFrom, hblank]
      split <;> rename_i heq <;> cases heq
      case h_9 => rw [if_pos hdigit]
      all_goals exact absurd hdigit (by decide)
    | list hd hitems hend =>
      refine (skips_open hblank fun n => ?_).trans
        (skips_of_items (fun frames h => ih _ (by omega) frames h) hitems hend)
      rw [skipFrom, hblank]
      rfl
    | object hd hmembers hend =>
      refine (skips_open hblank fun n => ?_).trans
        (skips_of_members (fun frames h => ih _ (by omega) frames h) hmembers hend)
      rw [skipFrom, hblank]
      rfl

/-- What stands behind a value is the same whether it is read or skipped. -/
theorem skipValue_of_readValue (h : readValue d cs = .ok (j, rest)) :
    skipValue cs = .ok rest := by
  obtain ⟨k, hroom, hsteps⟩ := skips_of_readValue [] h
  simp only [Skipping.room] at hroom
  obtain ⟨n, hn⟩ : ∃ n, 2 * cs.length + 2 = n + 1 + k := ⟨2 * cs.length + 1 - k, by omega⟩
  rw [skipValue, hn, hsteps]
  rfl

end

end WarmCompile.Json
