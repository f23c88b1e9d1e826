import Mathlib.Data.List.DropRight
import Mathlib.Data.List.Induction
import Mathlib.Data.Prod.Lex
import OnePass.Token.Lexeme

/-!
# Reading a source

A cursor cuts one piece off the text, reports it and goes on behind it.  For proofs it is
easier to have all pieces of a text at once, and what is read of them: a cursor that is asked
again and again reads the pieces of its text one after the other, and then the end of the
input for ever.  The end of the input is read nowhere else.

The position of a cursor is kept up to date character by character.  It can as well be counted
from the text in front of it: the line feeds in it give the line, and the characters behind the
last of them give the column.

Grouping what is read by token loses nothing, so a source whose lexemes carry no scan errors
is read into its tokens alone.

## Main definitions

* `Position.behind` — the position behind a text, by counting.
* `Piece.cut` — all pieces of a text.
* `Piece.readings` — what is read of pieces.
* `Cursor.Answers` — what asking a cursor once can come to.
* `sourceTokens`, `sourceKinds` — the tokens of a source, and what they are.
* `Scans` — a source is read without scan errors.

## Main results

* `Position.past_start` — positions that are kept up to date are the counted ones.
* `Cursor.answers_next` — a cursor reads the next piece that is no blank, or the end.
* `Cursor.next_after` — **asking again and again gives all that is there to be read**.
* `read_eq_readings` — a source is read piece by piece.
* `exists_read_eq` — **the end of the input is read last, and only there**.
* `scans_iff` — a source is read without scan errors exactly if its lexemes carry none.
* `pairwise_read` — **everything stands behind what is read before it**.
-/

namespace OnePass

/-! ### Positions -/

namespace Position

/-- Positions come in the order of the source: by line, and by column within a line. -/
instance : PartialOrder Position :=
  PartialOrder.lift (fun p => toLex (p.line, p.column)) fun p q h => by
    cases p
    cases q
    simpa using h

theorem lt_iff {p q : Position} :
    p < q ↔ p.line < q.line ∨ p.line = q.line ∧ p.column < q.column := Prod.Lex.toLex_lt_toLex

theorem lt_next (p : Position) (c : Char) : p < p.next c := by
  rw [lt_iff, next]
  split
  · exact .inl (Nat.lt_succ_self _)
  · exact .inr ⟨rfl, Nat.lt_succ_self _⟩

theorem le_past (p : Position) (text : List Char) : p ≤ p.past text := by
  induction text generalizing p with
  | nil => exact le_refl p
  | cons c text ih =>
    rw [past_cons]
    exact (lt_next p c).le.trans (ih _)

theorem lt_past (p : Position) {text : List Char} (h : text ≠ []) : p < p.past text := by
  cases text with
  | nil => exact absurd rfl h
  | cons c text =>
    rw [past_cons]
    exact (lt_next p c).trans_le (le_past _ _)

/-- The position behind a text at the beginning of a source: every line feed in it ends a line,
and the characters behind the last one stand on the line that is not ended yet. -/
def behind (text : List Char) : Position :=
  ⟨1 + text.count '\n', 1 + (text.rtakeWhile (· != '\n')).length⟩

theorem behind_concat (text : List Char) (c : Char) :
    behind (text ++ [c]) = (behind text).next c := by
  unfold behind next
  -- a line feed begins a line, and any other character goes on the one that is there
  split
  · next h =>
    subst h
    rw [List.count_append, List.rtakeWhile_concat_neg _ _ _ (by decide)]
    rfl
  · next h =>
    rw [List.count_append, List.rtakeWhile_concat_pos (· != '\n') text c (bne_iff_ne.mpr h),
      List.length_append, List.count_singleton, if_neg (by simpa using h)]
    rfl

/-- Positions that are kept up to date are the counted ones, if counting begins where the source
does. -/
theorem past_start (text : List Char) : start.past text = behind text := by
  induction text using List.reverseRecOn with
  | nil => rfl
  | append_singleton text c ih => rw [past_append, ih, behind_concat, past_cons, past_nil]

theorem behind_append (front text : List Char) :
    behind (front ++ text) = (behind front).past text := by
  rw [← past_start, past_append, past_start]

end Position

/-! ### The pieces of a text -/

namespace Piece

/-- The pieces of a text, in order, each cut off in front of what is left. -/
def cut : List Char → List Piece
  | [] => []
  | c :: rest => (first c rest).1 :: cut (first c rest).2
termination_by text => text.length
decreasing_by exact Nat.lt_succ_of_le (length_first_snd_le c rest)

@[simp] theorem cut_nil : cut [] = [] := by rw [cut]

theorem cut_cons (c : Char) (rest : List Char) :
    cut (c :: rest) = (first c rest).1 :: cut (first c rest).2 := by rw [cut]

/-- The texts of the pieces, in order, are the text they are cut from. -/
theorem flatMap_text_cut (text : List Char) : (cut text).flatMap Piece.text = text := by
  fun_induction cut text with
  | case1 => rfl
  | case2 c rest ih => rw [List.flatMap_cons, ih, first_text_append]

/-- What holds of the first piece of any text holds of all pieces of a text, as each is the first
one of what was left. -/
theorem forall_mem_cut {P : Piece → Prop} (h : ∀ c rest, P (first c rest).1)
    (text : List Char) : ∀ piece ∈ cut text, P piece := by
  fun_induction cut text with
  | case1 => exact List.forall_mem_nil _
  | case2 c rest ih => exact List.forall_mem_cons.mpr ⟨h c rest, ih⟩

theorem kind_symbol_ne (c : Char) (rest : List Char) :
    (symbol c rest).1.kind ≠ .token .endOfInput := by
  unfold symbol
  split <;> simp

theorem wordKind_ne (word : String) : wordKind word ≠ .endOfInput := by
  unfold wordKind
  split
  · simp
  split
  · simp
  split <;> simp

theorem numberKind_ne (digits : List Char) : numberKind digits ≠ .token .endOfInput := by
  unfold numberKind
  dsimp only
  split <;> simp

/-- No text stands for the end of the input, so it is never read in front of the end. -/
theorem kind_first_ne (c : Char) (rest : List Char) :
    (first c rest).1.kind ≠ .token .endOfInput := by
  -- blanks, numbers, words, comments and symbols, in the order they are tried
  unfold first
  split
  · simp
  split
  · exact numberKind_ne _
  split
  · simp [wordKind_ne]
  split
  · simp
  · unfold blockComment
    split <;> simp
  · exact kind_symbol_ne _ _

/-! ### What is read of pieces -/

/-- What is read of pieces, the first of which stands at `p`.  Of a blank nothing is read. -/
def readings (p : Position) : List Piece → List Reading
  | [] => []
  | piece :: rest => (piece.reading? p).toList ++ readings (p.past piece.text) rest

/-- Pieces are read one after the other, those behind others where the others end. -/
theorem readings_append (p : Position) (pieces pieces' : List Piece) :
    readings p (pieces ++ pieces') =
      readings p pieces ++ readings (p.past (pieces.flatMap text)) pieces' := by
  induction pieces generalizing p with
  | nil => rfl
  | cons piece rest ih =>
    rw [List.cons_append, readings, readings, ih, List.flatMap_cons, Position.past_append,
      List.append_assoc]

/-- At most one thing is read of each piece, so there is no more to read than there are pieces. -/
theorem length_readings_le (p : Position) (pieces : List Piece) :
    (readings p pieces).length ≤ pieces.length := by
  induction pieces generalizing p with
  | nil => exact Nat.le_refl _
  | cons piece rest ih =>
    have hrest := ih (p.past piece.text)
    rw [readings, List.length_append, List.length_cons]
    cases piece.reading? p <;> simp <;> omega

theorem kind_ne_of_mem_readings {pieces : List Piece}
    (h : ∀ piece ∈ pieces, piece.kind ≠ .token .endOfInput) {p : Position} {t : Token}
    (ht : .ok t ∈ readings p pieces) : t.kind ≠ .endOfInput := by
  induction pieces generalizing p with
  | nil => exact absurd ht List.not_mem_nil
  | cons piece rest ih =>
    obtain ⟨hpiece, hrest⟩ := List.forall_mem_cons.mp h
    rcases List.mem_append.mp ht with ht | ht
    · rintro hkind
      -- only a piece that is a token is read as one, and as that one
      rw [Option.mem_toList] at ht
      unfold reading? at ht
      split at ht
      · cases ht
      · next kind hk =>
        simp only [Option.some.injEq, Except.ok.injEq] at ht
        subst ht
        exact hpiece (hk.trans (congrArg _ hkind))
      · simp at ht
    · exact ih hrest ht

/-- Nothing in a text is read as the end of the input, which therefore tells that there is nothing
left. -/
theorem kind_ne_of_mem_readings_cut {text : List Char} {p : Position} {t : Token}
    (h : .ok t ∈ readings p (cut text)) : t.kind ≠ .endOfInput :=
  kind_ne_of_mem_readings (forall_mem_cut kind_first_ne text) h

end Piece

/-! ### The cursor -/

namespace Cursor

/-- What is there to be read in front of the end of the input, told from the pieces of the text. -/
def readings (cursor : Cursor) : List Reading :=
  Piece.readings cursor.position (Piece.cut cursor.text)

/-- The position behind the last character, where the end of the input is read. -/
def final (cursor : Cursor) : Position := cursor.position.past cursor.text

/-- What asking a cursor once can come to: something is read, and all that is there behind it
is left to be read, or else the end of the input is reached. -/
inductive Answers (cursor : Cursor) : Reading × Cursor → Prop
  | reading {r : Reading} {after : Cursor} (hreadings : cursor.readings = r :: after.readings)
      (hfinal : after.final = cursor.final) (hlt : after.text.length < cursor.text.length) :
      Answers cursor (r, after)
  | endOfInput (hreadings : cursor.readings = []) :
      Answers cursor (.ok ⟨.endOfInput, cursor.final⟩, ⟨cursor.final, []⟩)

theorem readings_nil (p : Position) : readings ⟨p, []⟩ = [] := by
  rw [readings, Piece.cut_nil]
  rfl

theorem answers_nextWithin {bound : List Char} {cursor : Cursor}
    (h : cursor.text.length ≤ bound.length) : cursor.Answers (cursor.nextWithin bound) := by
  induction bound generalizing cursor with
  | nil =>
    obtain ⟨p, text⟩ := cursor
    obtain rfl : text = [] := List.length_eq_zero_iff.mp (Nat.le_zero.mp h)
    exact .endOfInput (readings_nil p)
  | cons _ bound ih =>
    obtain ⟨p, - | ⟨c, rest⟩⟩ := cursor
    · exact .endOfInput (readings_nil p)
    -- one piece is cut off, and the cursor stands behind it
    let after : Cursor := ⟨p.past (Piece.first c rest).1.text, (Piece.first c rest).2⟩
    have hreadings : readings ⟨p, c :: rest⟩ =
        ((Piece.first c rest).1.reading? p).toList ++ after.readings := by
      rw [readings, Piece.cut_cons]
      rfl
    have hfinal : after.final = final ⟨p, c :: rest⟩ := by
      rw [final, ← Position.past_append, Piece.first_text_append]
      rfl
    have hle : after.text.length ≤ rest.length := Piece.length_first_snd_le c rest
    unfold nextWithin
    dsimp only
    cases hr : (Piece.first c rest).1.reading? p with
    | some r =>
      rw [hr] at hreadings
      exact .reading hreadings hfinal (Nat.lt_succ_of_le hle)
    | none =>
      -- a blank is passed over, and what is read behind it is what is read next
      rw [hr] at hreadings
      have hafter := ih (hle.trans (Nat.le_of_succ_le_succ h))
      generalize nextWithin bound after = answer at hafter ⊢
      cases hafter with
      | reading hreadings' hfinal' hlt =>
        exact .reading (hreadings.trans hreadings') (hfinal'.trans hfinal)
          (hlt.trans (Nat.lt_succ_of_le hle))
      | endOfInput hreadings' =>
        rw [hfinal]
        exact .endOfInput (hreadings.trans hreadings')

/-- A cursor reads the next piece that is no blank, or the end of the input.  Its bound is the text
it has, which is enough. -/
theorem answers_next (cursor : Cursor) : cursor.Answers cursor.next :=
  answers_nextWithin (Nat.le_refl _)

/-- Asking until the end of the input gives all that is there to be read, behind what has been read
before. -/
theorem readOnto_eq {bound : List Char} (cursor : Cursor)
    (h : cursor.text.length ≤ bound.length) (done : List Reading) :
    cursor.readOnto done bound =
      done.reverse ++ (cursor.readings ++ [.ok ⟨.endOfInput, cursor.final⟩]) := by
  induction bound generalizing cursor done with
  | nil =>
    obtain ⟨p, text⟩ := cursor
    obtain rfl : text = [] := List.length_eq_zero_iff.mp (Nat.le_zero.mp h)
    rw [readings_nil]
    exact List.reverse_cons
  | cons _ bound ih =>
    have hanswers := cursor.answers_next
    unfold readOnto
    generalize cursor.next = answer at hanswers ⊢
    cases hanswers with
    | @reading r after hreadings hfinal hlt =>
      -- what is read of a piece is not the end of the input, so the loop goes on
      have hne : ∀ p, r ≠ .ok ⟨.endOfInput, p⟩ := by
        rintro p rfl
        exact Piece.kind_ne_of_mem_readings_cut (hreadings.symm ▸ List.mem_cons_self) rfl
      split
      · next p _ heq => exact absurd (Prod.mk.inj heq).1 (hne p)
      · next heq =>
        obtain ⟨rfl, rfl⟩ := Prod.mk.inj heq
        have hafter := ih after (Nat.le_of_lt_succ (hlt.trans_le h)) (r :: done)
        rw [hafter, hreadings, hfinal, List.reverse_cons, List.append_assoc]
        rfl
    | endOfInput hreadings =>
      rw [hreadings]
      exact List.reverse_cons

/-- The cursor after it was asked a number of times, whatever it answered. -/
def after (cursor : Cursor) : Nat → Cursor
  | 0 => cursor
  | n + 1 => cursor.next.2.after n

/-- **Asking again and again gives all that is there to be read**, and then the end of the input
for ever. -/
theorem next_after (cursor : Cursor) (n : Nat) :
    (cursor.after n).next.1 = cursor.readings[n]?.getD (.ok ⟨.endOfInput, cursor.final⟩) := by
  induction n generalizing cursor with
  | zero =>
    have hanswers := cursor.answers_next
    unfold after
    generalize cursor.next = answer at hanswers ⊢
    cases hanswers with
    | reading hreadings => rw [hreadings]; rfl
    | endOfInput hreadings => rw [hreadings]; rfl
  | succ n ih =>
    have hanswers := cursor.answers_next
    unfold after
    generalize cursor.next = answer at hanswers ⊢
    cases hanswers with
    | reading hreadings hfinal => rw [ih, hreadings, hfinal]; rfl
    | endOfInput hreadings =>
      -- at the end of the input the cursor stays where it is
      rw [ih, hreadings, readings_nil]
      rfl

end Cursor

/-! ### The end of the input -/

/-- The end of the input, which is behind the last character of the source. -/
def endReading (source : String) : Reading := .ok ⟨.endOfInput, .behind source.toList⟩

/-- A source is read piece by piece, and then its end. -/
theorem read_eq_readings (source : String) :
    read source = Piece.readings .start (Piece.cut source.toList) ++ [endReading source] := by
  rw [endReading, ← Position.past_start]
  exact Cursor.readOnto_eq (.start source) (Nat.le_refl _) []

/-- A cursor that is asked again and again reads a source, and then its end for ever.  So asking too
often does no harm. -/
theorem read_after (source : String) (n : Nat) :
    ((Cursor.start source).after n).next.1 = (read source)[n]?.getD (endReading source) := by
  have hlast : .ok ⟨.endOfInput, (Cursor.start source).final⟩ = endReading source := by
    rw [endReading, ← Position.past_start]
    rfl
  have hread : read source = (Cursor.start source).readings ++ [endReading source] :=
    read_eq_readings source
  rw [Cursor.next_after, hread, hlast, List.getElem?_append]
  split
  · rfl
  · -- behind all that is there to be read, both give the end of the input
    next hn =>
    rw [List.getElem?_eq_none (Nat.not_lt.mp hn), List.getElem?_singleton]
    split <;> rfl

/-- The end of the input is read last, and only there. -/
theorem exists_read_eq (source : String) : ∃ (front : List Reading) (p : Position),
    read source = front ++ [.ok ⟨.endOfInput, p⟩] ∧ ∀ t, .ok t ∈ front → t.kind ≠ .endOfInput :=
  ⟨_, _, read_eq_readings source, fun _ => Piece.kind_ne_of_mem_readings_cut⟩

/-! ### Lexemes -/

/-- What is read as a lexeme: scan errors, and then the token behind them. -/
def Lexeme.readings (l : Lexeme) : List Reading := l.errors.map .error ++ [.ok l.token]

namespace Lexeme

/-- Grouping readings keeps the tokens, and their order. -/
theorem map_token_group (readings : List Reading) :
    (group readings).map token = readings.filterMap Except.toOption := by
  -- this holds for any errors that wait for their token
  suffices h : ∀ errors, (groupOnto errors [] readings).map token =
      readings.filterMap Except.toOption from h []
  induction readings with
  | nil => intro errors; rfl
  | cons reading rest ih =>
    intro errors
    cases reading with
    | error e => exact ih (e :: errors)
    | ok token =>
      rw [groupOnto, groupOnto_eq_append]
      simp [ih, Except.toOption]

/-- If a token comes last, grouping loses nothing. -/
theorem flatMap_readings_group (front : List Reading) (t : Token) :
    (group (front ++ [.ok t])).flatMap readings = front ++ [.ok t] := by
  suffices h : ∀ errors, (groupOnto errors [] (front ++ [.ok t])).flatMap readings =
      errors.reverse.map .error ++ front ++ [.ok t] by simpa [group] using h []
  induction front with
  | nil => intro errors; simp [groupOnto, readings]
  | cons reading rest ih =>
    intro errors
    cases reading with
    | error e => simpa [groupOnto] using ih (e :: errors)
    | ok token =>
      rw [List.cons_append, groupOnto, groupOnto_eq_append]
      simp [ih, readings]

end Lexeme

/-- The tokens of a source, the end of the input last. -/
def sourceTokens (source : String) : List Token := (lexemes source).map Lexeme.token

/-- What these tokens are, without their positions. -/
def sourceKinds (source : String) : List Token.Kind := (lexemes source).map fun l => l.token.kind

theorem map_kind_sourceTokens (source : String) :
    (sourceTokens source).map Token.kind = sourceKinds source := by
  simp [sourceTokens, sourceKinds]

/-- A source ends where its input does, and nowhere else: the last token is the end of the input,
and it is the only one. -/
theorem sourceTokens_eq (source : String) : ∃ (front : List Token) (p : Position),
    sourceTokens source = front ++ [⟨.endOfInput, p⟩] ∧ ∀ t ∈ front, t.kind ≠ .endOfInput := by
  obtain ⟨front, p, hread, hfront⟩ := exists_read_eq source
  refine ⟨front.filterMap Except.toOption, p, ?_, ?_⟩
  · rw [sourceTokens, lexemes, Lexeme.map_token_group, hread, List.filterMap_append]
    rfl
  · intro t ht
    obtain ⟨reading, hmem, hsome⟩ := List.mem_filterMap.mp ht
    cases reading with
    | error e => simp [Except.toOption] at hsome
    | ok t' =>
      obtain rfl : t' = t := by simpa [Except.toOption] using hsome
      exact hfront t' hmem

theorem sourceKinds_eq (source : String) :
    ∃ front, sourceKinds source = front ++ [.endOfInput] ∧ .endOfInput ∉ front := by
  obtain ⟨front, p, htokens, hfront⟩ := sourceTokens_eq source
  refine ⟨front.map Token.kind, ?_, ?_⟩
  · rw [← map_kind_sourceTokens, htokens, List.map_append]
    rfl
  · intro hmem
    obtain ⟨t, ht, hkind⟩ := List.mem_map.mp hmem
    exact hfront t ht hkind

theorem getLast?_sourceKinds (source : String) :
    (sourceKinds source).getLast? = some .endOfInput := by
  obtain ⟨front, hkinds, -⟩ := sourceKinds_eq source
  simp [hkinds]

/-- The source is read without scan errors, into the given tokens. -/
def Scans (source : String) (tokens : List Token) : Prop := read source = tokens.map .ok

/-- A source is read without scan errors exactly if its lexemes carry none. -/
theorem scans_iff {source : String} {tokens : List Token} :
    Scans source tokens ↔ lexemes source = tokens.map fun t => ⟨[], t⟩ := by
  constructor
  · intro h
    -- without errors every lexeme is a token by itself
    have hgroup (tokens : List Token) :
        Lexeme.group (tokens.map .ok) = tokens.map fun t => ⟨[], t⟩ := by
      induction tokens with
      | nil => rfl
      | cons t ts ih =>
        rw [List.map_cons, Lexeme.group, Lexeme.groupOnto, Lexeme.groupOnto_eq_append]
        exact congrArg (_ :: ·) ih
    rw [lexemes, h, hgroup]
  · intro h
    obtain ⟨front, p, hread, -⟩ := exists_read_eq source
    have hreadings := Lexeme.flatMap_readings_group front ⟨.endOfInput, p⟩
    rw [← hread] at hreadings
    have hlexemes : Lexeme.group (read source) = _ := h
    rw [Scans, ← hreadings, hlexemes]
    simp [List.flatMap_map, Lexeme.readings, ← List.map_eq_flatMap]

theorem Scans.sourceKinds_eq {source : String} {tokens : List Token} (h : Scans source tokens) :
    sourceKinds source = tokens.map Token.kind := by
  rw [sourceKinds, scans_iff.mp h, List.map_map]
  rfl

/-! ### The order of what is read -/

/-- Where a token or a scan error stands. -/
def Reading.position : Reading → Position
  | .ok t => t.position
  | .error e => e.position

/-- A piece is read where it stands, be it a token or a fault. -/
theorem Piece.position_of_reading? {p : Position} {piece : Piece} {r : Reading}
    (h : piece.reading? p = some r) : Reading.position r = p := by
  unfold reading? at h
  split at h
  · cases h
  · exact Option.some.inj h ▸ rfl
  · exact Option.some.inj h ▸ rfl

/-- Pieces that take up some text are read one behind the other, and all of them in front of
what stands behind their text. -/
theorem Piece.pairwise_readings {pieces : List Piece} (h : ∀ piece ∈ pieces, piece.text ≠ [])
    (p : Position) :
    (∀ r ∈ readings p pieces, p ≤ Reading.position r ∧
      Reading.position r < p.past (pieces.flatMap text)) ∧
    (readings p pieces).Pairwise fun r s => Reading.position r < Reading.position s := by
  induction pieces generalizing p with
  | nil => exact ⟨fun r hr => absurd hr List.not_mem_nil, .nil⟩
  | cons piece rest ih =>
    obtain ⟨hpiece, hrest⟩ := List.forall_mem_cons.mp h
    obtain ⟨hbetween, hpairwise⟩ := ih hrest (p.past piece.text)
    rw [readings, List.flatMap_cons, Position.past_append]
    have hlt := p.lt_past hpiece
    -- at most one thing is read before the rest, and it stands at `p`
    cases hread : piece.reading? p with
    | none =>
      exact ⟨fun r hr => ⟨hlt.le.trans (hbetween r hr).1, (hbetween r hr).2⟩, hpairwise⟩
    | some r =>
      have hposition := position_of_reading? hread
      refine ⟨List.forall_mem_cons.mpr ⟨⟨hposition.ge, ?_⟩, fun s hs => ?_⟩, ?_⟩
      · rw [hposition]
        exact hlt.trans_le (Position.le_past _ _)
      · exact ⟨hlt.le.trans (hbetween s hs).1, (hbetween s hs).2⟩
      · refine List.pairwise_cons.mpr ⟨fun s hs => ?_, hpairwise⟩
        rw [hposition]
        exact hlt.trans_le (hbetween s hs).1

/-- **Everything stands behind what is read before it.**  So no two readings have the same
position. -/
theorem pairwise_read (source : String) :
    (read source).Pairwise fun r s => Reading.position r < Reading.position s := by
  obtain ⟨hbetween, hpairwise⟩ := Piece.pairwise_readings
    (Piece.forall_mem_cut Piece.text_first_ne source.toList) .start
  rw [Piece.flatMap_text_cut, Position.past_start] at hbetween
  rw [read_eq_readings]
  refine List.pairwise_append.mpr ⟨hpairwise, List.pairwise_singleton _ _, fun r hr s hs => ?_⟩
  rw [List.mem_singleton.mp hs]
  exact (hbetween r hr).2

/-- Every token stands behind the ones read before it, whatever errors are between them. -/
theorem pairwise_sourceTokens (source : String) :
    (sourceTokens source).Pairwise fun t u => t.position < u.position := by
  rw [sourceTokens, lexemes, Lexeme.map_token_group]
  refine (pairwise_read source).filterMap _ fun r s hlt t ht u hu => ?_
  cases r with
  | error e => cases ht
  | ok t' =>
    cases s with
    | error e => cases hu
    | ok u' =>
      obtain rfl := Option.some.inj ht
      obtain rfl := Option.some.inj hu
      exact hlt

end OnePass
