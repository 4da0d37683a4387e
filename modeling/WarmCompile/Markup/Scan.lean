import WarmCompile.Markup.Event

/-!
Cutting a text into events.
-/

namespace WarmCompile.Markup

open Text (bytes)

/-- A tag up to its closing bracket; brackets in quotes do not close it. -/
def splitTag (quote : Option Char) : List Char → Option (List Char × List Char)
  | [] => none
  | c :: r =>
    match quote with
    | some q => (splitTag (if c = q then none else some q) r).map fun (t, rest) => (c :: t, rest)
    | none =>
      if c = '>' then some ([], r)
      else
        (splitTag (if c = '"' ∨ c = '\'' then some c else none) r).map fun (t, rest) =>
          (c :: t, rest)

/-- Text up to the first closing bracket before which `ends` holds of what was read. -/
def splitWhen (ends : List Char → Bool) (seen : List Char) : List Char →
    Option (List Char × List Char)
  | [] => none
  | c :: r =>
    if c = '>' ∧ ends seen then some (seen.reverse, r) else splitWhen ends (c :: seen) r

/-- Text up to the bracket that closes the declaration around it. -/
def splitNested (depth : Nat) : List Char → Option (List Char × List Char)
  | [] => none
  | c :: r =>
    if c = '>' then
      match depth with
      | 0 => some ([], r)
      | d + 1 => (splitNested d r).map fun (t, rest) => (c :: t, rest)
    else
      (splitNested (if c = '<' then depth + 1 else depth) r).map fun (t, rest) => (c :: t, rest)

theorem length_lt_of_splitTag {q : Option Char} {cs t r : List Char}
    (h : splitTag q cs = some (t, r)) : r.length < cs.length := by
  induction cs generalizing q t r with
  | nil => simp [splitTag] at h
  | cons c cs ih =>
    simp only [splitTag] at h
    split at h
    · obtain ⟨p, hp, e⟩ := Option.map_eq_some_iff.1 h
      have := ih (t := p.1) (r := p.2) hp
      simp only [Prod.mk.injEq] at e
      simp only [List.length_cons, ← e.2]; omega
    · split at h
      · cases h; simp
      · obtain ⟨p, hp, e⟩ := Option.map_eq_some_iff.1 h
        have := ih (t := p.1) (r := p.2) hp
        simp only [Prod.mk.injEq] at e
        simp only [List.length_cons, ← e.2]; omega

theorem length_lt_of_splitWhen {ends : List Char → Bool} {seen cs t r : List Char}
    (h : splitWhen ends seen cs = some (t, r)) : r.length < cs.length := by
  induction cs generalizing seen with
  | nil => simp [splitWhen] at h
  | cons c cs ih =>
    simp only [splitWhen] at h
    split at h
    · cases h; simp
    · have := ih h
      simp only [List.length_cons]; omega

theorem length_lt_of_splitNested {d : Nat} {cs t r : List Char}
    (h : splitNested d cs = some (t, r)) : r.length < cs.length := by
  induction cs generalizing d t r with
  | nil => simp [splitNested] at h
  | cons c cs ih =>
    simp only [splitNested] at h
    split at h
    · split at h
      · cases h; simp
      · obtain ⟨p, hp, e⟩ := Option.map_eq_some_iff.1 h
        have := ih (t := p.1) (r := p.2) hp
        simp only [Prod.mk.injEq] at e
        simp only [List.length_cons, ← e.2]; omega
    · obtain ⟨p, hp, e⟩ := Option.map_eq_some_iff.1 h
      have := ih (t := p.1) (r := p.2) hp
      simp only [Prod.mk.injEq] at e
      simp only [List.length_cons, ← e.2]; omega

/-- A name up to its semicolon, if nothing in `stops` comes first. -/
def splitReference (stops : List Char) : List Char → Option (List Char × List Char)
  | [] => none
  | c :: r =>
    if c = ';' then some ([], r)
    else if c ∈ stops then none
    else (splitReference stops r).map fun (t, rest) => (c :: t, rest)

theorem length_lt_of_splitReference {stops cs t r : List Char}
    (h : splitReference stops cs = some (t, r)) : r.length < cs.length := by
  induction cs generalizing t r with
  | nil => simp [splitReference] at h
  | cons c cs ih =>
    simp only [splitReference] at h
    split at h
    · cases h; simp
    · split at h
      · cases h
      · obtain ⟨p, hp, e⟩ := Option.map_eq_some_iff.1 h
        have := ih (t := p.1) (r := p.2) hp
        simp only [Prod.mk.injEq] at e
        simp only [List.length_cons, ← e.2]; omega

/-- One construct between angle brackets. -/
inductive Piece where
  | tag (content : List Char)
  | endTag (content : List Char)
  | aside
  deriving DecidableEq, Repr

def lower (cs : List Char) : List Char :=
  cs.map Char.toLower

/-- What follows `<!`: a section, a comment or a document type. -/
def splitDeclaration : List Char → Option (Except Cause (List Char × List Char))
  | '[' :: r =>
    some (match splitWhen (fun seen => "]]".toList.isPrefixOf seen) ['['] r with
      | some (t, rest) =>
        if "[CDATA[".toList.isPrefixOf t then .ok (t, rest) else .error .openSection
      | none => .error .openSection)
  | '-' :: r =>
    some (match splitWhen (fun seen => 3 < seen.length && "--".toList.isPrefixOf seen) ['-'] r with
      | some (t, rest) => if "--".toList.isPrefixOf t then .ok (t, rest) else .error .openComment
      | none => .error .openComment)
  | c :: r =>
    if c = 'D' ∨ c = 'd' then
      some (match splitNested 0 (c :: r) with
        | some (t, rest) =>
          if "doctype".toList.isPrefixOf (lower t) then .ok (t, rest) else .error .openDoctype
        | none => .error .openDoctype)
    else none
  | [] => none

/-- A construct behind its opening bracket. A fault lies at the bracket, but for a document type
without a name it lies where that ends. -/
def splitMarkup : List Char → Except Fault (Piece × List Char)
  | '!' :: r =>
    match splitDeclaration r with
    | none => .error ⟨0, .unknownMarkup⟩
    | some (.error cause) => .error ⟨0, cause⟩
    | some (.ok (t, rest)) =>
      if (t.head?.any fun c => c == 'D' || c == 'd') && (t.drop 7).all isBlank then
        .error ⟨bytes t + 2, .namelessDoctype⟩
      else .ok (.aside, rest)
  | '?' :: r =>
    match splitWhen (fun seen => seen.head? == some '?') ['?'] r with
    | some (t, rest) =>
      if t.length < 2 then .error ⟨0, .openInstruction⟩ else .ok (.aside, rest)
    | none => .error ⟨0, .openInstruction⟩
  | '/' :: r =>
    match splitTag none r with
    | some (t, rest) => .ok (.endTag t, rest)
    | none => .error ⟨0, .openTag⟩
  | r =>
    match splitTag none r with
    | some (t, rest) => .ok (.tag t, rest)
    | none => .error ⟨0, .openTag⟩

/-- Blanks behind the name of an end tag do not count, unless there is nothing else. -/
def endName (content : List Char) : List Char :=
  match (content.reverse.dropWhile isBlank).reverse with
  | [] => content
  | name => name

/-- An end tag closes the innermost open element. -/
def close (stack : List (List Char)) (name : List Char) : Except Cause (List (List Char)) :=
  match stack with
  | [] => .error (.strayEnd name)
  | top :: below => if top = name then .ok below else .error (.wrongEnd top name)

/-- A tag as an event, with the elements open behind it. -/
def openTag (stack : List (List Char)) (content : List Char) : Event × List (List Char) :=
  if content.getLast? = some '/' then (.empty content.dropLast, stack)
  else (.opening content, tagName content :: stack)

theorem length_lt_of_splitMarkup {cs r : List Char} {p : Piece} (h : splitMarkup cs = .ok (p, r)) :
    r.length < cs.length := by
  unfold splitMarkup at h
  split at h
  · rename_i s
    split at h
    · cases h
    · cases h
    · rename_i t rest hd
      have hl : rest.length < s.length := by
        unfold splitDeclaration at hd
        split at hd
        · simp only [Option.some.injEq] at hd
          split at hd
          · rename_i hs
            split at hd
            · cases hd
              have := length_lt_of_splitWhen hs
              simp only [List.length_cons]; omega
            · cases hd
          · cases hd
        · simp only [Option.some.injEq] at hd
          split at hd
          · rename_i hs
            split at hd
            · cases hd
              have := length_lt_of_splitWhen hs
              simp only [List.length_cons]; omega
            · cases hd
          · cases hd
        · split at hd
          · simp only [Option.some.injEq] at hd
            split at hd
            · rename_i hs
              split at hd
              · cases hd
                exact length_lt_of_splitNested hs
              · cases hd
            · cases hd
          · cases hd
        · cases hd
      split at h
      · cases h
      · cases h; simp only [List.length_cons]; omega
  · split at h
    · rename_i hs
      split at h
      · cases h
      · cases h
        have := length_lt_of_splitWhen hs
        simp only [List.length_cons]; omega
    · cases h
  · split at h
    · rename_i hs
      cases h
      have := length_lt_of_splitTag hs
      simp only [List.length_cons]; omega
    · cases h
  · split at h
    · rename_i hs
      cases h
      exact length_lt_of_splitTag hs
    · cases h

def isText (c : Char) : Bool :=
  c != '<' && c != '&'

/-- The events of a text that stands so many bytes into the document, inside the elements of
`stack`. -/
def scanFrom (stack : List (List Char)) (offset : Nat) (cs : List Char) : Stream :=
  match cs with
  | [] => ⟨[], none⟩
  | c :: r =>
    if c = '<' then
      match h : splitMarkup r with
      | .error f => ⟨[], some ⟨offset + f.position, f.cause⟩⟩
      | .ok (piece, rest) =>
        have : rest.length < r.length := length_lt_of_splitMarkup h
        let behind := offset + (bytes (c :: r) - bytes rest)
        match piece with
        | .aside => (scanFrom stack behind rest).cons .aside
        | .tag content =>
          let (e, stack) := openTag stack content
          (scanFrom stack behind rest).cons e
        | .endTag content =>
          match close stack (endName content) with
          | .error cause => ⟨[], some ⟨offset, cause⟩⟩
          | .ok stack => (scanFrom stack behind rest).cons (.closing (endName content))
    else if c = '&' then
      match h : splitReference ['&', '<'] r with
      | none => ⟨[], some ⟨offset, .openReference⟩⟩
      | some (name, rest) =>
        have : rest.length < r.length := length_lt_of_splitReference h
        (scanFrom stack (offset + bytes name + 2) rest).cons (.reference name)
    else
      have : (r.dropWhile isText).length ≤ r.length :=
        (List.dropWhile_sublist isText).length_le
      let run := c :: r.takeWhile isText
      (scanFrom stack (offset + bytes run) (r.dropWhile isText)).cons (.text run)
  termination_by cs.length

/-- The text behind a byte order mark. -/
def behindMark : List Char → List Char
  | '\uFEFF' :: r => r
  | r => r

/-- The events of a document. -/
def scan (text : String) : Stream :=
  scanFrom [] 0 (behindMark text.toList)

end WarmCompile.Markup
