import OnePass.Proofs.Munch

/-!
# Positions of what is read

Whatever is read stands at its first character, with the line and the column counted from the
text in front of it.  For a token, a number that is too large and a character that begins nothing,
that is the first one of its own text; for a comment that is never closed, it is the slash that
opens it; the end of the input is behind the last character.

## Main definitions

* `Marks` — a token or a scan error stands at the first character of what it is about.

## Main results

* `Transcript.marks` — what is to be reported of pieces that fit is reported where they begin.
* `read_placed` — **positions are exact**.
-/

namespace OnePass

/-- A token or a scan error stands at the first character of what it is about. -/
inductive Marks (source : List Char) : Reading → Prop
  | token {front text after : List Char} {kind : Token.Kind} (h : Stands text (.token kind))
      (hsource : source = front ++ text ++ after) : Marks source (.ok ⟨kind, .behind front⟩)
  | number {front text after : List Char} (h : IsNumeral text)
      (hsource : source = front ++ text ++ after) :
      Marks source (.error ⟨.behind front, .numberOutOfRange (String.ofList text)⟩)
  | character {front after : List Char} {c : Char} (hsource : source = front ++ c :: after) :
      Marks source (.error ⟨.behind front, .unexpectedCharacter c⟩)
  | comment {front after : List Char} (hsource : source = front ++ '/' :: '*' :: after) :
      Marks source (.error ⟨.behind front, .unterminatedComment⟩)
  | endOfInput : Marks source (.ok ⟨.endOfInput, .behind source⟩)

namespace Piece.Fits

variable {text front after : List Char}

/-- A piece that is a token begins with the first character of what stands for it, so it is reported
there. -/
theorem marks_token {kind : Token.Kind} (h : Fits ⟨.token kind, text⟩ after) :
    Marks (front ++ text ++ after) (.ok ⟨kind, .behind front⟩) := by
  cases h with
  | lexeme hstands => exact .token hstands rfl

/-- A piece that is a fault begins with the first character of what is wrong. -/
theorem marks_fault {fault : ScanFault} (h : Fits ⟨.fault fault, text⟩ after) :
    Marks (front ++ text ++ after) (.error ⟨.behind front, fault⟩) := by
  cases h with
  | lexeme hstands =>
    -- what stands for something is a token, or else a number that is too large
    cases hstands with
    | outOfRange hnumeral => exact .number hnumeral rfl
  | unterminated => exact .comment (List.append_nil _)
  | unexpected => exact .character (List.append_assoc ..)

end Piece.Fits

/-- What is to be reported of pieces that fit is reported where they begin.  The text in front of a
piece is that of all pieces before it. -/
theorem Transcript.marks {front text : List Char} {pieces : List Piece} {rs : List Reading}
    (h : Transcript front pieces rs) (hpieces : Partition pieces text) :
    ∀ r ∈ rs, Marks (front ++ text) r := by
  induction h generalizing text with
  | endOfInput front =>
    cases hpieces
    intro r hr
    rw [List.mem_singleton.mp hr, List.append_nil]
    exact .endOfInput
  | blank _ ih =>
    cases hpieces with
    | cons _ hrest =>
      rw [← List.append_assoc]
      exact ih hrest
  | token _ ih =>
    cases hpieces with
    | cons hfits hrest =>
      rw [← List.append_assoc]
      exact List.forall_mem_cons.mpr ⟨hfits.marks_token, ih hrest⟩
  | fault _ ih =>
    cases hpieces with
    | cons hfits hrest =>
      rw [← List.append_assoc]
      exact List.forall_mem_cons.mpr ⟨hfits.marks_fault, ih hrest⟩

/-- **Positions are exact.**  Every token and every scan error stands at the first character of
what it is about, and the end of the input behind the last character, with line and column counted
from the text in front.  What is read is what is to be reported of the pieces of the source, each at
the position counted from the pieces before it; a cursor that is asked again and again gives the
same; and every position is behind the ones before. -/
theorem read_placed (source : String) :
    (∀ r ∈ read source, Marks source.toList r) ∧
    (∃ pieces, Partition pieces source.toList ∧ Transcript [] pieces (read source)) ∧
    (∀ n, ((Cursor.start source).after n).next.1 =
      (read source)[n]?.getD (.ok ⟨.endOfInput, .behind source.toList⟩)) ∧
    (read source).Pairwise fun r s => Reading.position r < Reading.position s := by
  have hpartition := partition_cut source.toList
  have htranscript : Transcript [] (Piece.cut source.toList) (read source) :=
    hpartition.transcript_iff.mpr rfl
  exact ⟨htranscript.marks hpartition, ⟨_, hpartition, htranscript⟩, read_after source,
    pairwise_read source⟩

example : (read "/* ü\n */ß 1").map Reading.position = [⟨2, 4⟩, ⟨2, 6⟩, ⟨2, 7⟩] := by decide

end OnePass
