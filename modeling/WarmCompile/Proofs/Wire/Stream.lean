import WarmCompile.Proofs.Wire.Request
import WarmCompile.Proofs.Wire.Response

/-!
A stream of messages: however its bytes are cut on their way, the same lines are read from it, and
the messages that went onto it come back in their order.
-/

namespace WarmCompile

namespace Lines

/-- Bytes that come in two pieces are read as if they had come in one. -/
theorem feed_append (s : Lines) (x y : List UInt8) :
    s.feed (x ++ y) =
      ((s.feed x).1 ++ ((s.feed x).2.feed y).1, ((s.feed x).2.feed y).2) := by
  induction hn : (s.begun ++ x).length using Nat.strongRecOn generalizing s x with
  | ind n ih =>
    subst hn
    by_cases hfeed : lineFeed ∈ s.begun ++ x
    · obtain ⟨p, q, hsplit, hp⟩ := List.eq_append_cons_of_mem hfeed
      have hwhole : s.begun ++ (x ++ y) = p ++ lineFeed :: (q ++ y) := by
        rw [← List.append_assoc, hsplit, List.append_assoc, List.cons_append]
      have hshorter : (empty.begun ++ q).length < (s.begun ++ x).length := by
        simp only [hsplit, empty, List.nil_append, List.length_append, List.length_cons]
        omega
      rw [feed_of_append hp hsplit, feed_of_append hp hwhole, ih _ hshorter empty q rfl]
      rfl
    · rw [feed_of_not_mem hfeed]
      simp only [feed, List.append_assoc, List.nil_append]

/-- The lines that end in pieces that come one after the other. -/
def feedAll (s : Lines) : List (List UInt8) → List (Option String) × Lines
  | [] => ([], s)
  | piece :: pieces =>
    let (lines, rest) := s.feed piece
    let (more, rest) := rest.feedAll pieces
    (lines ++ more, rest)

theorem feedAll_cons (s : Lines) (piece : List UInt8) (pieces : List (List UInt8)) :
    s.feedAll (piece :: pieces) = s.feed (piece :: pieces).flatten := by
  induction pieces generalizing s piece with
  | nil => simp [feedAll]
  | cons next pieces ih =>
    change ((s.feed piece).1 ++ ((s.feed piece).2.feedAll (next :: pieces)).1,
      ((s.feed piece).2.feedAll (next :: pieces)).2) = _
    rw [ih, ← feed_append, ← List.flatten_cons]

/-- From the start of a stream, the cuts make no difference. -/
theorem feedAll_empty (pieces : List (List UInt8)) :
    empty.feedAll pieces = empty.feed pieces.flatten := by
  cases pieces with
  | nil => rfl
  | cons piece pieces => exact feedAll_cons empty piece pieces

/-- Whole lines are read as they are, and nothing is left over. -/
theorem feed_flatMap_frame {lines : List String} (hlines : ∀ line ∈ lines, Unbroken line) :
    empty.feed (lines.flatMap frame) = (lines.map some, empty) := by
  induction lines with
  | nil => rfl
  | cons line lines ih =>
    have hline := hlines line List.mem_cons_self
    have hbytes : empty.begun ++ (line :: lines).flatMap frame =
        line.toUTF8.toList ++ lineFeed :: lines.flatMap frame := by
      rw [List.flatMap_cons, frame, List.append_assoc]
      rfl
    rw [feed_of_append hline.not_mem hbytes, hline.decode_eq,
      ih fun line hl => hlines line (List.mem_cons_of_mem _ hl)]
    rfl

/-- Texts that went onto a stream are read from it in whatever pieces it comes. -/
theorem feedAll_texts {α : Type} {items : List α} {text : α → String}
    (hitems : ∀ a ∈ items, Unbroken (text a)) {pieces : List (List UInt8)}
    (hpieces : pieces.flatten = items.flatMap fun a => frame (text a)) :
    empty.feedAll pieces = (items.map fun a => some (text a), empty) := by
  have hlines : ∀ line ∈ items.map text, Unbroken line := by
    intro line hline
    obtain ⟨a, ha, rfl⟩ := List.mem_map.1 hline
    exact hitems a ha
  have hframes : (items.flatMap fun a => frame (text a)) = (items.map text).flatMap frame := by
    rw [List.flatMap_map]
  rw [feedAll_empty, hpieces, hframes, feed_flatMap_frame hlines, List.map_map]
  rfl

end Lines

namespace Request

/-- Requests as they go onto a stream, each on a line of its own. -/
def stream (requests : List Request) : List UInt8 :=
  requests.flatMap fun r => Lines.frame r.toJson.compact

/-- Requests are read from their stream as they were, in whatever pieces it comes: every line is
taken for its request, none for a blank one or for something to refuse, and nothing is left over. -/
theorem taken_stream {requests : List Request} {pieces : List (List UInt8)}
    (hpieces : pieces.flatten = stream requests) :
    (Lines.empty.feedAll pieces).1.map (·.map fun line => parse (Text.trimmed line)) =
        requests.map (some <| .ok ·) ∧
      (Lines.empty.feedAll pieces).1.map (·.map Incoming.ofLine) =
        requests.map (some <| .request ·) ∧
      (Lines.empty.feedAll pieces).2.last? = none := by
  rw [Lines.feedAll_texts (fun r _ => r.unbroken_compact) hpieces, List.map_map, List.map_map]
  refine ⟨?_, ?_, rfl⟩
  · apply List.map_congr_left
    intro r _
    have hparse : parse (Text.trimmed r.toJson.compact) = .ok r := by
      rw [r.trimmed_compact, r.parse_compact]
    exact congrArg some hparse
  · apply List.map_congr_left
    intro r _
    exact congrArg some r.ofLine_compact

/-- Ids of blanks alone, breaks and marks in the texts, and members that are left out. -/
def bundle : List Request :=
  [⟨"  ", .ping ⟨none⟩⟩, ⟨"\n", .ping ⟨some "\r\n"⟩⟩, ⟨"", .ping ⟨some ""⟩⟩,
    ⟨"\t\x00", .init ⟨"\"project\"", "\\\n"⟩⟩, ⟨"é😀\u2028", .compile ⟨"\x7b\"id\":1\x7d"⟩⟩,
    ⟨"\n", .compile ⟨"\x7f\r"⟩⟩]

theorem taken_stream_bundle :
    ([(stream bundle).take 7, [], (stream bundle).drop 7] : List _).flatten = stream bundle ∧
    (Lines.empty.feedAll [(stream bundle).take 7, [], (stream bundle).drop 7]).1.map
        (·.map fun line => parse (Text.trimmed line)) = bundle.map (some <| .ok ·) ∧
    (Lines.empty.feedAll [(stream bundle).take 7, [], (stream bundle).drop 7]).1.map
        (·.map Incoming.ofLine) = bundle.map (some <| .request ·) ∧
    (Lines.empty.feedAll [(stream bundle).take 7, [], (stream bundle).drop 7]).2.last? = none := by
  have hpieces : ([(stream bundle).take 7, [], (stream bundle).drop 7] : List _).flatten =
      stream bundle := by simp
  exact ⟨hpieces, taken_stream hpieces⟩

end Request

namespace Response

/-- Responses as they go onto a stream, each on a line of its own. -/
def stream (responses : List Response) : List UInt8 :=
  responses.flatMap fun r => Lines.frame r.toLine

/-- Responses are read from their stream as they were, in whatever pieces it comes, and nothing is
left over. -/
theorem parse_stream {responses : List Response} (hfits : ∀ r ∈ responses, r.Fits)
    {pieces : List (List UInt8)} (hpieces : pieces.flatten = stream responses) :
    (Lines.empty.feedAll pieces).1.map (·.map parse) = responses.map (some <| .ok ·) ∧
      (Lines.empty.feedAll pieces).2.last? = none := by
  rw [Lines.feedAll_texts (fun r hr => (hfits r hr).unbroken) hpieces, List.map_map]
  refine ⟨?_, rfl⟩
  apply List.map_congr_left
  intro r hr
  exact congrArg some (hfits r hr).parse_toLine

/-- Every kind of error and of result, with breaks, marks and controls among the texts. -/
def jumble : List Response :=
  [⟨"a\n\r", .error (.rpc (-0x80000000) "\"\r\n")⟩, ⟨"\\", .error .noResult⟩,
    ⟨"", .error (.encoding "\x00\x7f")⟩, ⟨"\r", .error (.io "\x7b\x7d")⟩,
    ⟨"é😀", .error (.connection "\n")⟩, ⟨"id", .error (.framing "\x7b\"error\":1\x7d")⟩,
    ⟨"\"error\"", .ok (.ping ⟨"\x1f\u2028"⟩)⟩,
    ⟨"5", .ok (.init (.success ⟨⟨"/p\n", ["\\"], [], some "\t", [""], ["\r"]⟩,
      .ofList [("/p\n/A.fs", "1;\n"), ("\"", "\r\n")]⟩))⟩,
    ⟨"6", .ok (.init (.error "\r"))⟩, ⟨"7", .ok (.compile (.success ⟨.ofList [("type", "error")]⟩))⟩,
    ⟨"8", .ok (.compile (.error "No active session\n"))⟩]

theorem parse_stream_jumble :
    (∀ r ∈ jumble, r.Fits) ∧
    ([(stream jumble).take 5, [], (stream jumble).drop 5] : List _).flatten = stream jumble ∧
    (Lines.empty.feedAll [(stream jumble).take 5, [], (stream jumble).drop 5]).1.map (·.map parse) =
      jumble.map (some <| .ok ·) ∧
    (Lines.empty.feedAll [(stream jumble).take 5, [], (stream jumble).drop 5]).2.last? = none := by
  have hfits : ∀ r ∈ jumble, r.Fits := by
    intro r hr e he
    simp only [jumble, List.mem_cons, List.not_mem_nil, or_false] at hr
    rcases hr with rfl | rfl | rfl | rfl | rfl | rfl | rfl | rfl | rfl | rfl | rfl <;> cases he
    · exact ⟨by decide, by decide⟩
    all_goals trivial
  have hpieces : ([(stream jumble).take 5, [], (stream jumble).drop 5] : List _).flatten =
      stream jumble := by simp
  exact ⟨hfits, hpieces, parse_stream hfits hpieces⟩

end Response

end WarmCompile
