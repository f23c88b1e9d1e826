import Mathlib.Data.List.Infix
import OnePass.Proofs.Positions

/-!
# White space separates

No token has white space in it, so what stands in front of white space is read as if the source
ended there.  A line feed ends line comments too, and only a comment that is never closed goes on
behind it: two texts with a line feed between them are read one after the other.

Tokens that are written with white space between them are read again as they are.  Comments may
stand there as well, provided that white space comes first; without it, a slash would become part
of the comment behind it.

## Main definitions

* `Token.Kind.spelling`, `Token.Kind.Writable` — how tokens are written, and which can be.
* `Filling`, `Separator` — white space and comments, and those that begin with white space.
* `write` — tokens with separators between them.
* `Piece.solid` — what a text falls into besides blanks.
* `Reading.down` — what is read, some lines further down.

## Main results

* `Piece.Fits.append_blank` — a piece that fits also fits in front of white space.
* `Piece.cut_newline` — in front of a line feed, a text falls into the pieces it has by itself.
* `read_join` — **texts with a line feed between them are read one after the other**.
* `scans_write` — **what is written is read again**.
-/

namespace OnePass

/-! ### In front of white space -/

/-- White space is no part of a word, so a word ends in front of it. -/
theorem IsSpace.isWordPart_eq_false {c : Char} (h : IsSpace c) : Piece.isWordPart c = false := by
  rcases h with rfl | rfl | rfl | rfl <;> decide

theorem Symbol.not_isSpace_of_mem {s : Symbol} : ∀ c ∈ s.chars, ¬ IsSpace c := by
  have hall : s.chars.all (fun c => !Piece.isBlank c) = true := by cases s <;> rfl
  intro c hc hspace
  have hblank := List.all_eq_true.mp hall c hc
  rw [isBlank_iff.mpr hspace] at hblank
  cases hblank

namespace Stands

variable {text : List Char} {kind : Piece.Kind} {c : Char}

/-- Nothing that stands for something has white space in it, be it a number, a word or a symbol. -/
theorem not_mem_of_isSpace (h : Stands text kind) (hc : IsSpace c) : c ∉ text := by
  intro hmem
  obtain ⟨hdigit, hstart⟩ := hc.not_isDigit
  rcases h.shape with hnumeral | hword | ⟨s, rfl, -⟩
  · rw [hnumeral.2 c hmem] at hdigit
    cases hdigit
  · cases text with
    | nil => exact hword
    | cons d rest =>
      obtain ⟨hhead, hparts⟩ := isWord_cons.mp hword
      rcases List.mem_cons.mp hmem with rfl | hmem
      · rw [hhead] at hstart
        cases hstart
      · have hpart := hparts c hmem
        rw [hc.isWordPart_eq_false] at hpart
        cases hpart
  · exact Symbol.not_isSpace_of_mem c hmem hc

/-- No token opens a comment.  A slash that begins one is not read as a symbol in front of it. -/
theorem not_opensComment (h : Stands text kind) : ¬ OpensComment text := by
  intro hopens
  obtain ⟨tail, rfl⟩ : ∃ tail, text = '/' :: tail := by
    rcases hopens with ⟨tail, rfl⟩ | ⟨tail, rfl⟩ <;> exact ⟨_, rfl⟩
  -- what begins with a slash can only be a symbol, and none of them opens a comment
  obtain ⟨s, hs, -⟩ := h.exists_symbol (by decide) (by decide)
  rw [OpensComment, ← hs] at hopens
  cases s <;> exact absurd hopens (by decide)

end Stands

/-- What has no `c` in it and stands at the front ends before the `c`. -/
theorem prefix_of_not_mem {c : Char} {text front rest : List Char} (h : text <+: front ++ c :: rest)
    (hc : c ∉ text) : text <+: front := by
  rcases List.prefix_or_prefix_of_prefix h (List.prefix_append front _) with hfront | ⟨tail, rfl⟩
  · exact hfront
  · -- whatever the text has behind the front begins with `c`
    rcases List.prefix_cons_iff.mp ((List.prefix_append_right_inj front).mp h) with
      rfl | ⟨t, rfl, -⟩
    · rw [List.append_nil]
    · exact absurd (List.mem_append_right _ List.mem_cons_self) hc

/-- A comment that white space ends is opened before it. -/
theorem OpensComment.of_append_blank {c : Char} {front rest : List Char}
    (h : OpensComment (front ++ c :: rest)) (hc : IsSpace c) : OpensComment front := by
  -- the marks that open a comment are no white space
  have hslash : c ≠ '/' := by rcases hc with rfl | rfl | rfl | rfl <;> decide
  have hstar : c ≠ '*' := by rcases hc with rfl | rfl | rfl | rfl <;> decide
  rcases h with h | h
  · exact .inl (prefix_of_not_mem h (by simp [hslash]))
  · exact .inr (prefix_of_not_mem h (by simp [hslash, hstar]))

namespace Piece

/-- A token by itself fits, since there is no longer text that could be cut off. -/
theorem fits_of_stands {text : List Char} {kind : Kind} (h : Stands text kind) :
    Fits ⟨kind, text⟩ [] := by
  refine .lexeme h ?_ fun text' kind' _ hfront => ?_
  · rw [List.append_nil]
    exact h.not_opensComment
  · rw [List.append_nil] at hfront
    exact hfront.length_le

/-- A piece that fits also fits in front of white space, unless it is a comment that goes on. -/
theorem Fits.append_blank {piece : Piece} {after : List Char} {c : Char} (h : piece.Fits after)
    (hc : IsSpace c) (hkind : c = '\n' ∨ piece.kind ≠ .blank)
    (hclosed : piece.kind ≠ .fault .unterminatedComment) (rest : List Char) :
    piece.Fits (after ++ c :: rest) := by
  cases h with
  | @blank text after hblank =>
    cases hblank with
    | space hspace => exact .blank (.space hspace _)
    | block hbody => exact .blank (.block hbody _)
    | line hbody hafter =>
      -- the comment goes on up to the next line feed
      obtain rfl : c = '\n' := hkind.resolve_right fun hne => hne rfl
      refine .blank (.line hbody (.inr ?_))
      rcases hafter with rfl | hafter
      · exact ⟨rest, rfl⟩
      · exact hafter.trans (List.prefix_append _ _)
  | @lexeme text after kind hstands hopens hlongest =>
    refine .lexeme hstands ?_ fun text' kind' h' hfront => ?_
    · rw [← List.append_assoc]
      exact fun hopens' => hopens (hopens'.of_append_blank hc)
    · -- no token reaches over the white space, so there is no longer one than before
      rw [← List.append_assoc] at hfront
      exact hlongest text' kind' h' (prefix_of_not_mem hfront (h'.not_mem_of_isSpace hc))
  | unterminated => exact absurd rfl hclosed
  | unexpected hspace hopens hnone =>
    refine .unexpected hspace (fun hopens' => ?_) fun text kind h' hfront => ?_
    · rw [← List.cons_append] at hopens'
      exact hopens (hopens'.of_append_blank hc)
    · rw [← List.cons_append] at hfront
      exact hnone text kind h' (prefix_of_not_mem hfront (h'.not_mem_of_isSpace hc))

end Piece

/-! ### Line by line -/

/-- The position some lines further down. -/
def Position.down (lines : Nat) (p : Position) : Position := ⟨p.line + lines, p.column⟩

/-- The same token or scan error some lines further down. -/
def Reading.down (lines : Nat) : Reading → Reading
  | .ok t => .ok ⟨t.kind, t.position.down lines⟩
  | .error e => .error ⟨e.position.down lines, e.fault⟩

theorem Position.past_down (lines : Nat) (p : Position) (text : List Char) :
    (p.down lines).past text = (p.past text).down lines := by
  induction text generalizing p with
  | nil => rfl
  | cons c text ih =>
    have hnext : (p.down lines).next c = (p.next c).down lines := by
      unfold next down
      split
      · rw [Nat.add_right_comm]
      · rfl
    rw [past_cons, past_cons, hnext, ih]

/-- Behind a line feed, the first line of a source is as many lines further down as there are line
feeds. -/
theorem Position.behind_next (text : List Char) :
    (behind text).next '\n' = start.down (1 + text.count '\n') :=
  congrArg (mk · 1) (Nat.add_comm _ _)

theorem Piece.reading?_down (lines : Nat) (p : Position) (piece : Piece) :
    piece.reading? (p.down lines) = (piece.reading? p).map (Reading.down lines) := by
  unfold reading?
  split <;> rfl

/-- Further down, the same is read further down: columns begin anew on every line. -/
theorem Piece.readings_down (lines : Nat) (p : Position) (pieces : List Piece) :
    readings (p.down lines) pieces = (readings p pieces).map (Reading.down lines) := by
  induction pieces generalizing p with
  | nil => rfl
  | cons piece rest ih =>
    rw [readings, readings, Position.past_down, ih, reading?_down, List.map_append]
    cases piece.reading? p <;> rfl

namespace Piece

/-- Every fault is read as an error, somewhere behind the beginning. -/
theorem exists_error_mem {piece : Piece} {pieces : List Piece} {fault : ScanFault}
    (hmem : piece ∈ pieces) (hkind : piece.kind = .fault fault) (p : Position) :
    ∃ q, .error ⟨q, fault⟩ ∈ readings p pieces := by
  induction pieces generalizing p with
  | nil => cases hmem
  | cons piece' rest ih =>
    rw [readings]
    rcases List.mem_cons.mp hmem with rfl | hmem
    · refine ⟨p, List.mem_append_left _ ?_⟩
      rw [reading?, hkind]
      exact List.mem_singleton_self _
    · obtain ⟨q, hq⟩ := ih hmem (p.past piece'.text)
      exact ⟨q, List.mem_append_right _ hq⟩

/-- In front of a line feed, a text falls into the pieces it falls into by itself, if it does not
end in an open comment. -/
theorem cut_newline {text : List Char}
    (hclosed : ∀ piece ∈ cut text, piece.kind ≠ .fault .unterminatedComment) (rest : List Char) :
    cut (text ++ '\n' :: rest) = cut text ++ ⟨.blank, ['\n']⟩ :: cut rest := by
  have hspace : IsSpace '\n' := .inr (.inr (.inr rfl))
  suffices h : ∀ {pieces text}, Partition pieces text →
      (∀ piece ∈ pieces, piece.kind ≠ .fault .unterminatedComment) →
      Partition (pieces ++ ⟨.blank, ['\n']⟩ :: cut rest) (text ++ '\n' :: rest) from
    (partition_iff.mp (h (partition_cut text) hclosed)).symm
  -- the pieces of the text one by one, with the line feed and the rest always behind them
  intro pieces text h
  induction h with
  | nil => exact fun _ => .cons (.blank (.space hspace rest)) (partition_cut rest)
  | cons hfits _ ih =>
    intro hclosed
    obtain ⟨hhead, htail⟩ := List.forall_mem_cons.mp hclosed
    have hcons := Partition.cons (hfits.append_blank hspace (.inl rfl) hhead rest) (ih htail)
    rwa [← List.append_assoc] at hcons

end Piece

/-- **Texts with a line feed between them are read one after the other.**  If every comment in the
first one is closed, what is read is what is read of the first one alone, up to its end, and then
what is read of the second one alone, as many lines further down as there are line feeds before. -/
theorem read_join {a : String} (h : ∀ p, .error ⟨p, .unterminatedComment⟩ ∉ read a) (b : String) :
    ∃ front p, read a = front ++ [.ok ⟨.endOfInput, p⟩] ∧
      read (a ++ "\n" ++ b) = front ++ (read b).map (Reading.down (1 + a.toList.count '\n')) := by
  have hread := read_eq_readings a
  refine ⟨_, _, hread, ?_⟩
  -- a comment that is not closed would have been read as an error
  have hclosed : ∀ piece ∈ Piece.cut a.toList, piece.kind ≠ .fault .unterminatedComment := by
    intro piece hmem hkind
    obtain ⟨q, hq⟩ := Piece.exists_error_mem hmem hkind .start
    exact h q (hread ▸ List.mem_append_left _ hq)
  have htext : (a ++ "\n" ++ b).toList = a.toList ++ '\n' :: b.toList := by simp
  let lines := 1 + a.toList.count '\n'
  have hend : endReading (a ++ "\n" ++ b) = Reading.down lines (endReading b) := by
    rw [endReading, htext, Position.behind_append, Position.past_cons, Position.behind_next,
      Position.past_down, Position.past_start]
    rfl
  calc read (a ++ "\n" ++ b)
      = Piece.readings .start (Piece.cut a.toList ++ ⟨.blank, ['\n']⟩ :: Piece.cut b.toList) ++
          [endReading (a ++ "\n" ++ b)] := by
        rw [read_eq_readings, htext, Piece.cut_newline hclosed]
    _ = Piece.readings .start (Piece.cut a.toList) ++
          (Piece.readings (Position.start.down lines) (Piece.cut b.toList) ++
            [Reading.down lines (endReading b)]) := by
        rw [Piece.readings_append, Piece.flatMap_text_cut, Position.past_start, List.append_assoc,
          hend, ← Position.behind_next]
        rfl
    _ = Piece.readings .start (Piece.cut a.toList) ++ (read b).map (Reading.down lines) := by
        rw [read_eq_readings b, List.map_append, Piece.readings_down]
        rfl

/-- A first line that ends in a comment and in the middle of what could be longer symbols. -/
def firstLines : String := "x <\n& // /* y"

theorem read_join_comment :
    (∀ p, .error ⟨p, .unterminatedComment⟩ ∉ read firstLines) ∧ ∃ front p,
      read firstLines = front ++ [.ok ⟨.endOfInput, p⟩] ∧
      read (firstLines ++ "\n" ++ "= /* z") =
        front ++ (read "= /* z").map (Reading.down (1 + firstLines.toList.count '\n')) := by
  have hread : read firstLines = [.ok ⟨.identifier "x", ⟨1, 1⟩⟩, .ok ⟨.symbol .less, ⟨1, 3⟩⟩,
      .ok ⟨.symbol .amp, ⟨2, 1⟩⟩, .ok ⟨.endOfInput, ⟨2, 10⟩⟩] := by decide
  have hclosed : ∀ p, .error ⟨p, .unterminatedComment⟩ ∉ read firstLines := by
    rw [hread]
    simp
  exact ⟨hclosed, read_join hclosed _⟩

/-! ### Writing tokens -/

namespace Token.Kind

/-- The text of a token: the spelling of a word or a symbol, a name, or the digits of a number. -/
def spelling : Token.Kind → List Char
  | .identifier name => name.toList
  | .keyword word => word.spelling.toList
  | .symbol mark => mark.spelling.toList
  | .number value => (toString value).toList
  | .boolean value => (if value then "true" else "false").toList
  | .endOfInput => []

/-- A token that can be written: a name is a word without a meaning of its own, and a number is
small enough. -/
def Writable : Token.Kind → Prop
  | .identifier name =>
    IsWord name.toList ∧ name ≠ "true" ∧ name ≠ "false" ∧ ∀ k : Keyword, name ≠ k.spelling
  | .number value => value ≤ 2147483647
  | .endOfInput => False
  | _ => True

/-- The text of a token stands for it.  For a number this is that digits are read as they are
written. -/
theorem Writable.stands {k : Token.Kind} (h : k.Writable) : Stands k.spelling (.token k) := by
  cases k with
  | identifier name =>
    obtain ⟨hword, htrue, hfalse, hkeyword⟩ := h
    have hstands := Stands.identifier hword (mt String.toList_inj.mp htrue)
      (mt String.toList_inj.mp hfalse) fun k => mt String.toList_inj.mp (hkeyword k)
    rwa [String.ofList_toList] at hstands
  | keyword word => exact .keyword word
  | symbol mark =>
    rw [spelling, Symbol.spelling, String.toList_ofList]
    exact .symbol mark
  | number value =>
    have hdigits : (toString value).toList = Nat.toDigits 10 value := Nat.toList_repr
    have hvalue : decimal (Nat.toDigits 10 value) = value := by
      rw [← ofDigitChars_eq_decimal, Nat.ofDigitChars_ten_toDigits]
    have hnumeral : IsNumeral (Nat.toDigits 10 value) :=
      ⟨Nat.toDigits_ne_nil, fun d hd => Nat.isDigit_of_mem_toDigits (by decide) (by decide) hd⟩
    have hstands := Stands.number hnumeral (hvalue.trans_le h)
    rwa [hvalue, ← hdigits] at hstands
  | boolean value => exact .boolean value
  | endOfInput => exact h.elim

end Token.Kind

/-- White space and comments in any order.  A line comment has the line feed that ends it. -/
inductive Filling : List Char → Prop
  | nil : Filling []
  | space {c : Char} {rest : List Char} (hc : IsSpace c) (h : Filling rest) :
      Filling (c :: rest)
  | line {body rest : List Char} (hbody : '\n' ∉ body) (h : Filling rest) :
      Filling ('/' :: '/' :: (body ++ '\n' :: rest))
  | block {body rest : List Char} (hbody : ¬ ['*', '/'] <:+: body ++ ['*']) (h : Filling rest) :
      Filling ('/' :: '*' :: (body ++ '*' :: '/' :: rest))

/-- What is written between two tokens: white space, and then any filling.  Without the white space
a slash could open a comment. -/
structure Separator where
  /-- The white space it begins with. -/
  head : Char
  /-- All that comes behind. -/
  tail : List Char
  isSpace_head : IsSpace head
  filling_tail : Filling tail

/-- Writes tokens one after the other, with separators between them and none at the ends. -/
def write (separators : Nat → Separator) : List Token.Kind → List Char
  | [] => []
  | [k] => k.spelling
  | k :: k' :: ks => k.spelling ++ (separators 0).head :: ((separators 0).tail ++
      write (fun n => separators (n + 1)) (k' :: ks))

namespace Piece

/-- What a text falls into besides blanks.  For a text that can be read this is its tokens. -/
def solid (text : List Char) : List Kind := ((cut text).map kind).filter (· != .blank)

theorem solid_nil : solid [] = [] := by
  rw [solid, cut_nil]
  rfl

theorem cut_append {piece : Piece} {after : List Char} (h : piece.Fits after) :
    cut (piece.text ++ after) = piece :: cut after :=
  (partition_iff.mp (.cons h (partition_cut after))).symm

theorem solid_blank {text after : List Char} (h : Blank text after) :
    solid (text ++ after) = solid after := by
  rw [solid, cut_append (.blank h)]
  rfl

theorem solid_token {text after : List Char} {k : Token.Kind} (h : Fits ⟨.token k, text⟩ after) :
    solid (text ++ after) = .token k :: solid after := by
  rw [solid, cut_append h]
  rfl

theorem solid_space {c : Char} (hc : IsSpace c) (rest : List Char) :
    solid (c :: rest) = solid rest := solid_blank (.space hc rest)

/-- A filling adds blanks only, so it can be left out of account. -/
theorem solid_filling {text : List Char} (h : Filling text) (rest : List Char) :
    solid (text ++ rest) = solid rest := by
  induction h with
  | nil => rfl
  | space hc _ ih => exact (solid_space hc _).trans ih
  | @line body text hbody _ ih =>
    calc solid ('/' :: '/' :: (body ++ '\n' :: text) ++ rest)
        = solid ('/' :: '/' :: body ++ '\n' :: (text ++ rest)) := by simp
      _ = solid ('\n' :: (text ++ rest)) := solid_blank (.line hbody (.inr ⟨text ++ rest, rfl⟩))
      _ = solid (text ++ rest) := solid_space (.inr (.inr (.inr rfl))) _
      _ = solid rest := ih
  | @block body text hbody _ ih =>
    calc solid ('/' :: '*' :: (body ++ '*' :: '/' :: text) ++ rest)
        = solid ('/' :: '*' :: (body ++ ['*', '/']) ++ (text ++ rest)) := by simp
      _ = solid (text ++ rest) := solid_blank (.block hbody _)
      _ = solid rest := ih

/-- In front of white space, the text of a token is cut off as this token. -/
theorem solid_spelling_append {k : Token.Kind} (hk : k.Writable) {c : Char} (hc : IsSpace c)
    (rest : List Char) : solid (k.spelling ++ c :: rest) = .token k :: solid rest := by
  have hfits := (fits_of_stands hk.stands).append_blank hc (.inr (by simp)) (by simp) rest
  exact (solid_token hfits).trans (congrArg (_ :: ·) (solid_space hc rest))

/-- What is written falls into the tokens and blanks, and into nothing else. -/
theorem solid_write {kinds : List Token.Kind} (h : ∀ k ∈ kinds, k.Writable)
    (separators : Nat → Separator) : solid (write separators kinds) = kinds.map .token := by
  induction kinds generalizing separators with
  | nil => exact solid_nil
  | cons k kinds ih =>
    obtain ⟨hk, hkinds⟩ := List.forall_mem_cons.mp h
    cases kinds with
    | nil =>
      have hsolid := solid_token (fits_of_stands hk.stands)
      rwa [List.append_nil, solid_nil] at hsolid
    | cons k' ks =>
      -- the token ends with the white space, and the filling behind it is passed over
      rw [write, solid_spelling_append hk (separators 0).isSpace_head,
        solid_filling (separators 0).filling_tail, ih hkinds]
      rfl

/-- Pieces that are tokens and blanks are read as the tokens, wherever they stand. -/
theorem readings_eq_ok {pieces : List Piece} {kinds : List Token.Kind}
    (h : (pieces.map kind).filter (· != .blank) = kinds.map .token) (p : Position) :
    ∃ tokens : List Token, readings p pieces = tokens.map .ok ∧ tokens.map Token.kind = kinds := by
  induction pieces generalizing kinds p with
  | nil =>
    obtain rfl := List.map_eq_nil_iff.mp h.symm
    exact ⟨[], rfl, rfl⟩
  | cons piece rest ih =>
    obtain ⟨kind, text⟩ := piece
    rw [readings]
    cases kind with
    | blank => exact ih h _
    | token k =>
      cases kinds with
      | nil => cases h
      | cons k' kinds =>
        obtain ⟨hk, hkinds⟩ := List.cons.inj h
        obtain rfl := Kind.token.inj hk
        obtain ⟨tokens, hreadings, rfl⟩ := ih hkinds (p.past text)
        exact ⟨⟨k, p⟩ :: tokens, congrArg (_ :: ·) hreadings, rfl⟩
    | fault fault =>
      -- a fault would be left over besides the blanks
      cases kinds with
      | nil => cases h
      | cons k kinds => cases (List.cons.inj h).1

end Piece

/-- **What is written is read again.**  Tokens that are written with separators between them are
read without a scan error as these tokens and the end of the input. -/
theorem scans_write {kinds : List Token.Kind} (h : ∀ k ∈ kinds, k.Writable)
    (separators : Nat → Separator) :
    ∃ tokens, Scans (String.ofList (write separators kinds)) tokens ∧
      tokens.map Token.kind = kinds ++ [.endOfInput] := by
  obtain ⟨tokens, hreadings, hkinds⟩ :=
    Piece.readings_eq_ok (Piece.solid_write h separators) .start
  refine ⟨tokens ++ [⟨.endOfInput, .behind (write separators kinds)⟩], ?_, ?_⟩
  · rw [Scans, read_eq_readings, endReading, String.toList_ofList, hreadings, List.map_append]
    rfl
  · rw [List.map_append, hkinds]
    rfl

/-- Tokens that would be read otherwise without anything between them. -/
def crowdedKinds : List Token.Kind :=
  [.keyword .while, .identifier "while_1", .symbol .less, .symbol .equal, .symbol .slash,
    .symbol .star, .number 2147483647, .boolean true]

/-- A separator with both kinds of comments, and with the marks of each inside the other, where they
mean nothing. -/
def crowdedSeparator : Separator where
  head := '\t'
  tail := '/' :: '*' :: ("/ ü // **".toList ++ '*' :: '/' ::
    '/' :: '/' :: (" */ '".toList ++ '\n' :: []))
  isSpace_head := .inr (.inl rfl)
  filling_tail := .block (by decide) (.line (by decide) .nil)

theorem scans_write_crowded :
    (∀ k ∈ crowdedKinds, k.Writable) ∧ ∃ tokens,
      Scans (String.ofList (write (fun _ => crowdedSeparator) crowdedKinds)) tokens ∧
      tokens.map Token.kind = crowdedKinds ++ [.endOfInput] := by
  have hname : (Token.Kind.identifier "while_1").Writable :=
    ⟨by decide, by decide, by decide, fun k => by cases k <;> decide⟩
  have hnumber : (Token.Kind.number 2147483647).Writable := Nat.le_refl _
  have hkinds : ∀ k ∈ crowdedKinds, k.Writable := by
    simp only [crowdedKinds, List.forall_mem_cons]
    exact ⟨trivial, hname, trivial, trivial, trivial, trivial, hnumber, trivial,
      List.forall_mem_nil _⟩
  exact ⟨hkinds, scans_write hkinds _⟩

end OnePass
