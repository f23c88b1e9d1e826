import Mathlib.Data.List.Induction
import Mathlib.Data.List.TakeWhile
import Mathlib.Data.Nat.Digits.Defs
import OnePass.Proofs.Reading

/-!
# Maximal munch

Which texts are tokens can be said without a scanner: the symbols, the words, and the runs of
digits.  So can how a source is to be cut: at every place stands a blank if there is one, or else
the longest text that is a token.  There is one way only to cut a source like this.  What is to be
reported of the pieces can be said as well: nothing of blanks, and of everything else what it is
and where it begins.  Nothing here looks at how a cursor goes about it, and all of it together is
what a cursor does.

## Main definitions

* `Stands` — what a text is by itself.
* `Blank` — white space, and comments up to where they end.
* `Piece.Fits` — a piece is what the text from there on begins with.
* `Partition` — a source cut into pieces each of which fits.
* `Transcript` — what is to be reported of pieces, piece by piece.

## Main results

* `fits_first` — what is cut off fits.
* `Piece.Fits.first_eq` — **only one piece fits**.
* `transcript_iff` — there is one thing to report of pieces, and it is what is read of them.
* `read_munches` — **a source is read by maximal munch**.
-/

namespace OnePass

/-! ### What a text stands for -/

/-- The number that a run of digits denotes, in base ten with the first digit first. -/
def decimal (digits : List Char) : Nat :=
  Nat.ofDigits 10 (digits.reverse.map fun d => d.toNat - '0'.toNat)

/-- Digits, and at least one. -/
def IsNumeral (text : List Char) : Prop := text ≠ [] ∧ ∀ d ∈ text, d.isDigit = true

/-- Letters, digits and underscores, of which the first is no digit.  There is at least one. -/
def IsWord : List Char → Prop
  | [] => False
  | c :: rest => (c.isAlpha = true ∨ c = '_') ∧ ∀ d ∈ rest, d.isAlphanum = true ∨ d = '_'

/-- White space: space, tab, carriage return and line feed. -/
def IsSpace (c : Char) : Prop := c = ' ' ∨ c = '\t' ∨ c = '\r' ∨ c = '\n'

/-- What a text is by itself, if it is no blank: a symbol, a word, which may be one of those
with a meaning, or a number, which may be too large. -/
inductive Stands : List Char → Piece.Kind → Prop
  | symbol (s : Symbol) : Stands s.chars (.token (.symbol s))
  | boolean (b : Bool) : Stands (if b then "true" else "false").toList (.token (.boolean b))
  | keyword (k : Keyword) : Stands k.spelling.toList (.token (.keyword k))
  | identifier {text : List Char} (hword : IsWord text) (htrue : text ≠ "true".toList)
      (hfalse : text ≠ "false".toList) (hkeyword : ∀ k : Keyword, text ≠ k.spelling.toList) :
      Stands text (.token (.identifier (String.ofList text)))
  | number {text : List Char} (hnumeral : IsNumeral text) (hvalue : decimal text ≤ 2147483647) :
      Stands text (.token (.number (decimal text)))
  | outOfRange {text : List Char} (hnumeral : IsNumeral text)
      (hvalue : 2147483647 < decimal text) :
      Stands text (.fault (.numberOutOfRange (String.ofList text)))

/-- The digits of a numeral can be taken from the left. -/
theorem ofDigitChars_eq_decimal (digits : List Char) :
    Nat.ofDigitChars 10 digits 0 = decimal digits := by
  induction digits using List.reverseRecOn with
  | nil => rfl
  | append_singleton digits d ih =>
    rw [decimal, List.reverse_append, List.reverse_singleton, List.singleton_append, List.map_cons,
      Nat.ofDigits_cons, ← decimal, ← ih, Nat.ofDigitChars, List.foldl_append]
    exact Nat.add_comm _ _

/-! ### The first character tells -/

/-- Words are what the cursor takes for words, told character by character. -/
theorem isWord_cons {c : Char} {rest : List Char} : IsWord (c :: rest) ↔
    Piece.isWordStart c = true ∧ ∀ d ∈ rest, Piece.isWordPart d = true := by
  simp only [IsWord, Piece.isWordStart, Piece.isWordPart, Bool.or_eq_true, beq_iff_eq]

/-- Whether a text is a word can be tested character by character. -/
instance : DecidablePred IsWord
  | [] => .isFalse id
  | c :: rest =>
    decidable_of_iff ((Piece.isWordStart c && rest.all Piece.isWordPart) = true)
      (by rw [isWord_cons, Bool.and_eq_true, List.all_eq_true])

theorem isBlank_iff {c : Char} : Piece.isBlank c = true ↔ IsSpace c := by
  simp only [Piece.isBlank, IsSpace, Bool.or_eq_true, beq_iff_eq]
  tauto

/-- A digit begins no word.  The ranges of digits and letters do not meet. -/
theorem isWordStart_eq_false_of_isDigit {c : Char} (h : c.isDigit = true) :
    Piece.isWordStart c = false := by
  have hne : c ≠ '_' := by
    rintro rfl
    exact absurd h (by decide)
  have h9 : '9'.val.toNat = 57 := rfl
  have hA : 'A'.val.toNat = 65 := rfl
  have ha : 'a'.val.toNat = 97 := rfl
  have hdigit : ('0'.val ≤ c.val && c.val ≤ '9'.val) = true := h
  have hstart : Piece.isWordStart c = ((decide ('A'.val ≤ c.val ∧ c.val ≤ 'Z'.val) ||
    ('a'.val ≤ c.val && c.val ≤ 'z'.val)) || c == '_') := rfl
  simp only [Bool.and_eq_true, decide_eq_true_eq, UInt32.le_iff_toNat_le] at hdigit
  simp only [hstart, Bool.or_eq_false_iff, Bool.and_eq_false_iff, decide_eq_false_iff_not,
    UInt32.le_iff_toNat_le, beq_eq_false_iff_ne, ne_eq, hne, not_false_eq_true, and_true]
  omega

/-- White space begins neither numbers nor words. -/
theorem IsSpace.not_isDigit {c : Char} (h : IsSpace c) :
    c.isDigit = false ∧ Piece.isWordStart c = false := by
  rcases h with rfl | rfl | rfl | rfl <;> decide

/-- Symbols begin like nothing else, so their first character tells that they are none of the
others. -/
theorem Symbol.head_chars {s : Symbol} {c : Char} {text : List Char} (h : s.chars = c :: text) :
    c.isDigit = false ∧ Piece.isWordStart c = false ∧ ¬ IsSpace c := by
  rw [← isBlank_iff]
  cases s <;> obtain ⟨rfl, rfl⟩ := List.cons.inj h <;> decide

/-- No number is a word. -/
theorem IsWord.not_isNumeral {text : List Char} (h : IsWord text) : ¬ IsNumeral text := by
  rintro ⟨hne, hdigits⟩
  cases text with
  | nil => exact hne rfl
  | cons c rest =>
    have hc := isWordStart_eq_false_of_isDigit (hdigits c List.mem_cons_self)
    exact Bool.false_ne_true (hc.symm.trans (isWord_cons.mp h).1)

theorem Keyword.isWord_spelling (k : Keyword) : IsWord k.spelling.toList := by
  cases k <;> decide

theorem isWord_boolean (b : Bool) : IsWord (if b then "true" else "false").toList := by
  cases b <;> decide

namespace Stands

variable {text : List Char} {kind : Piece.Kind} {c : Char}

/-- A text is a number, a word, or a symbol.  Words with a meaning are words. -/
theorem shape (h : Stands text kind) :
    IsNumeral text ∨ IsWord text ∨ ∃ s : Symbol, text = s.chars ∧ kind = .token (.symbol s) := by
  cases h with
  | symbol s => exact .inr (.inr ⟨s, rfl, rfl⟩)
  | boolean b => exact .inr (.inl (isWord_boolean b))
  | keyword k => exact .inr (.inl k.isWord_spelling)
  | identifier hword => exact .inr (.inl hword)
  | number hnumeral => exact .inl hnumeral
  | outOfRange hnumeral => exact .inl hnumeral

theorem ne_nil (h : Stands text kind) : text ≠ [] := by
  rintro rfl
  rcases h.shape with h | h | ⟨s, h, -⟩
  · exact h.1 rfl
  · exact h
  · cases s <;> cases h

/-- What begins with a digit is a number. -/
theorem isNumeral (h : Stands (c :: text) kind) (hc : c.isDigit = true) :
    IsNumeral (c :: text) := by
  rcases h.shape with h | h | ⟨s, h, -⟩
  · exact h
  · have hstart := isWordStart_eq_false_of_isDigit hc
    exact absurd (hstart.symm.trans (isWord_cons.mp h).1) Bool.false_ne_true
  · rw [(Symbol.head_chars h.symm).1] at hc
    cases hc

/-- What begins with a letter is a word. -/
theorem isWord (h : Stands (c :: text) kind) (hc : Piece.isWordStart c = true) :
    IsWord (c :: text) := by
  rcases h.shape with h | h | ⟨s, h, -⟩
  · rw [isWordStart_eq_false_of_isDigit (h.2 c List.mem_cons_self)] at hc
    cases hc
  · exact h
  · rw [(Symbol.head_chars h.symm).2.1] at hc
    cases hc

/-- Whatever else it begins with, it is a symbol. -/
theorem exists_symbol (h : Stands (c :: text) kind) (hdigit : c.isDigit = false)
    (hstart : Piece.isWordStart c = false) :
    ∃ s : Symbol, s.chars = c :: text ∧ kind = .token (.symbol s) := by
  rcases h.shape with h | h | ⟨s, h, hkind⟩
  · rw [h.2 c List.mem_cons_self] at hdigit
    cases hdigit
  · rw [(isWord_cons.mp h).1] at hstart
    cases hstart
  · exact ⟨s, h.symm, hkind⟩

/-- What stands for something does not begin with white space. -/
theorem not_isSpace (h : Stands (c :: text) kind) : ¬ IsSpace c := by
  intro hspace
  obtain ⟨hdigit, hstart⟩ := hspace.not_isDigit
  obtain ⟨s, hs, -⟩ := h.exists_symbol hdigit hstart
  exact (Symbol.head_chars hs).2.2 hspace

end Stands

/-- Numbers are told by their value: up to the largest one they are tokens. -/
theorem stands_iff_of_isNumeral {text : List Char} {kind : Piece.Kind} (h : IsNumeral text) :
    Stands text kind ↔ kind = Piece.numberKind text := by
  have hnot : ¬ IsWord text := fun hword => hword.not_isNumeral h
  have hsymbol (s : Symbol) : text ≠ s.chars := by
    rintro rfl
    cases s <;> exact absurd (h.2 _ List.mem_cons_self) (by decide)
  simp only [Piece.numberKind, ofDigitChars_eq_decimal]
  constructor
  · intro hstands
    cases hstands with
    | symbol s => exact absurd rfl (hsymbol s)
    | boolean b => exact absurd (isWord_boolean b) hnot
    | keyword k => exact absurd k.isWord_spelling hnot
    | identifier hword => exact absurd hword hnot
    | number _ hvalue => exact (if_pos hvalue).symm
    | outOfRange _ hvalue => exact (if_neg (Nat.not_le.mpr hvalue)).symm
  · rintro rfl
    split
    · next hvalue => exact .number h hvalue
    · next hvalue => exact .outOfRange h (Nat.not_le.mp hvalue)

theorem wordKind_spelling (k : Keyword) : Piece.wordKind k.spelling = .keyword k := by
  cases k <;> decide

/-- Words are told by their full text, in the order in which it is looked up. -/
theorem stands_iff_of_isWord {text : List Char} {kind : Piece.Kind} (h : IsWord text) :
    Stands text kind ↔ kind = .token (Piece.wordKind (String.ofList text)) := by
  -- texts are compared as lists of characters here, and as strings there
  have heq (word : String) : String.ofList text = word ↔ text = word.toList := by
    constructor
    · rintro rfl
      exact String.toList_ofList.symm
    · rintro rfl
      exact String.ofList_toList
  constructor
  · intro hstands
    cases hstands with
    | symbol s => cases s <;> exact absurd (isWord_cons.mp h).1 (by decide)
    | boolean b => cases b <;> rfl
    | keyword k => rw [String.ofList_toList, wordKind_spelling]
    | identifier _ htrue hfalse hkeyword =>
      have hnone : Keyword.ofWord? (String.ofList text) = none := by
        cases hword : Keyword.ofWord? (String.ofList text) with
        | none => rfl
        | some k =>
          exact absurd ((heq _).mp (Keyword.ofWord?_eq_some_iff.mp hword).symm) (hkeyword k)
      rw [Piece.wordKind, if_neg (mt (heq _).mp htrue), if_neg (mt (heq _).mp hfalse), hnone]
    | number hnumeral => exact absurd hnumeral h.not_isNumeral
    | outOfRange hnumeral => exact absurd hnumeral h.not_isNumeral
  · rintro rfl
    unfold Piece.wordKind
    split
    · next hword => exact (heq _).mp hword ▸ .boolean true
    · next htrue =>
      split
      · next hword => exact (heq _).mp hword ▸ .boolean false
      · next hfalse =>
        split
        · next k hword =>
          exact (heq _).mp (Keyword.ofWord?_eq_some_iff.mp hword).symm ▸ .keyword k
        · next hnone =>
          refine .identifier h (mt (heq _).mpr htrue) (mt (heq _).mpr hfalse) fun k hk => ?_
          rw [(heq _).mpr hk, Keyword.ofWord?_spelling] at hnone
          cases hnone

/-- A text stands for one thing only, since its first character tells the shape and the shape the
rest. -/
theorem Stands.unique {text : List Char} {kind kind' : Piece.Kind} (h : Stands text kind)
    (h' : Stands text kind') : kind = kind' := by
  rcases h.shape with hnumeral | hword | ⟨s, rfl, hs⟩
  · rw [(stands_iff_of_isNumeral hnumeral).mp h, (stands_iff_of_isNumeral hnumeral).mp h']
  · rw [(stands_iff_of_isWord hword).mp h, (stands_iff_of_isWord hword).mp h']
  · obtain ⟨c, tail, hchars⟩ := List.exists_cons_of_ne_nil h.ne_nil
    obtain ⟨hdigit, hstart, -⟩ := s.head_chars hchars
    rw [hchars] at h'
    obtain ⟨s', hs', hkind'⟩ := h'.exists_symbol hdigit hstart
    obtain rfl := Symbol.chars_injective (hchars.trans hs'.symm)
    rw [hs, hkind']

/-! ### What a text begins with -/

/-- A comment begins here, of either kind. -/
def OpensComment (text : List Char) : Prop := ['/', '/'] <+: text ∨ ['/', '*'] <+: text

/-- White space, or a comment: up to the end of its line, which is not part of it, or up to and
with the first `*/` behind its opening. -/
inductive Blank : List Char → List Char → Prop
  | space {c : Char} (hc : IsSpace c) (after : List Char) : Blank [c] after
  | line {body after : List Char} (hbody : '\n' ∉ body) (hafter : after = [] ∨ ['\n'] <+: after) :
      Blank ('/' :: '/' :: body) after
  | block {body : List Char} (hbody : ¬ ['*', '/'] <:+: body ++ ['*']) (after : List Char) :
      Blank ('/' :: '*' :: (body ++ ['*', '/'])) after

/-- The piece is what a text begins with, given what follows the piece in it.  A blank comes first;
where there is none, the longest text that stands for something; and where there is no such text
either, one character. -/
inductive Piece.Fits : Piece → List Char → Prop
  | blank {text after : List Char} (h : Blank text after) : Fits ⟨.blank, text⟩ after
  | lexeme {text after : List Char} {kind : Piece.Kind} (h : Stands text kind)
      (hopens : ¬ OpensComment (text ++ after))
      (hlongest : ∀ text' kind', Stands text' kind' → text' <+: text ++ after →
        text'.length ≤ text.length) : Fits ⟨kind, text⟩ after
  | unterminated {rest : List Char} (h : ¬ ['*', '/'] <:+: rest) :
      Fits ⟨.fault .unterminatedComment, '/' :: '*' :: rest⟩ []
  | unexpected {c : Char} {after : List Char} (hspace : ¬ IsSpace c)
      (hopens : ¬ OpensComment (c :: after))
      (hnone : ∀ text kind, Stands text kind → ¬ text <+: c :: after) :
      Fits ⟨.fault (.unexpectedCharacter c), [c]⟩ after

/-- The pieces, one behind the other, make up the text, and each of them fits what is behind it. -/
inductive Partition : List Piece → List Char → Prop
  | nil : Partition [] []
  | cons {piece : Piece} {pieces : List Piece} {after : List Char} (h : piece.Fits after)
      (hrest : Partition pieces after) : Partition (piece :: pieces) (piece.text ++ after)

theorem not_opensComment {c : Char} {rest : List Char} (hc : c ≠ '/') :
    ¬ OpensComment (c :: rest) := by
  rintro (h | h) <;> exact hc (List.cons_prefix_cons.mp h).1.symm

theorem Stands.exists_cons {text rest : List Char} {kind : Piece.Kind} {c : Char}
    (h : Stands text kind) (hp : text <+: c :: rest) :
    ∃ tail, text = c :: tail ∧ tail <+: rest := by
  rcases List.prefix_cons_iff.mp hp with rfl | h'
  · exact absurd rfl h.ne_nil
  · exact h'

/-- A run of characters is no longer than the longest run, which is where the cursor stops. -/
theorem length_le_length_takeWhile {p : Char → Bool} {run rest : List Char} (h : run <+: rest)
    (hrun : ∀ d ∈ run, p d = true) : run.length ≤ (rest.takeWhile p).length := by
  obtain ⟨rest, rfl⟩ := h
  rw [List.takeWhile_append_of_pos hrun, List.length_append]
  exact Nat.le_add_right _ _

namespace Piece

variable {c : Char} {rest : List Char}

/-! ### What is cut off fits -/

/-- A run of characters of one class is cut off whole.  It is the longest text that stands there
if all that stands there and begins with `c` goes on with characters of that class. -/
theorem fits_run {p : Char → Bool} {kind : Kind} (hstands : Stands (c :: rest.takeWhile p) kind)
    (hslash : c ≠ '/')
    (hclass : ∀ tail kind', Stands (c :: tail) kind' → ∀ d ∈ tail, p d = true) :
    Fits ⟨kind, c :: rest.takeWhile p⟩ (rest.dropWhile p) := by
  have htext : c :: rest.takeWhile p ++ rest.dropWhile p = c :: rest :=
    congrArg (c :: ·) List.takeWhile_append_dropWhile
  refine .lexeme hstands ?_ fun text' kind' h hp => ?_
  · rw [htext]
    exact not_opensComment hslash
  · rw [htext] at hp
    obtain ⟨tail, rfl, htail⟩ := h.exists_cons hp
    exact Nat.succ_le_succ (length_le_length_takeWhile htail (hclass tail kind' h))

/-- A number is cut off with all of its digits.  What is longer would have a digit more. -/
theorem fits_number (hc : c.isDigit = true) : Fits
    ⟨numberKind (c :: rest.takeWhile Char.isDigit), c :: rest.takeWhile Char.isDigit⟩
    (rest.dropWhile Char.isDigit) := by
  have hnumeral : IsNumeral (c :: rest.takeWhile Char.isDigit) := by
    refine ⟨List.cons_ne_nil _ _, fun d hd => ?_⟩
    rcases List.mem_cons.mp hd with rfl | hd
    · exact hc
    · exact List.mem_takeWhile_imp hd
  refine fits_run ((stands_iff_of_isNumeral hnumeral).mpr rfl) ?_ fun tail kind' h d hd => ?_
  · rintro rfl
    exact absurd hc (by decide)
  · -- any other text that stands here is a number too, so its digits are among these
    exact (h.isNumeral hc).2 d (List.mem_cons_of_mem _ hd)

/-- A word is cut off with all of its letters, also if a shorter one has a meaning. -/
theorem fits_word (hc : isWordStart c = true) : Fits
    ⟨.token (wordKind (String.ofList (c :: rest.takeWhile isWordPart))),
      c :: rest.takeWhile isWordPart⟩ (rest.dropWhile isWordPart) := by
  have hword : IsWord (c :: rest.takeWhile isWordPart) :=
    isWord_cons.mpr ⟨hc, fun d hd => List.mem_takeWhile_imp hd⟩
  refine fits_run ((stands_iff_of_isWord hword).mpr rfl) ?_ fun tail kind' h => ?_
  · rintro rfl
    exact absurd hc (by decide)
  · exact (isWord_cons.mp (h.isWord hc)).2

/-- A comment to the end of the line is cut off without that end. -/
theorem fits_line : Fits ⟨.blank, '/' :: '/' :: rest.takeWhile (· != '\n')⟩
    (rest.dropWhile (· != '\n')) := by
  refine .blank (.line ?_ ?_)
  · intro hmem
    simpa using List.mem_takeWhile_imp (p := (· != '\n')) hmem
  · cases hdrop : rest.dropWhile (· != '\n') with
    | nil => exact .inl rfl
    | cons d after =>
      have hd : (d != '\n') = false := by
        simpa [hdrop] using List.head?_dropWhile_not (· != '\n') rest
      obtain rfl : d = '\n' := by simpa using hd
      exact .inr (List.cons_prefix_cons.mpr ⟨rfl, List.nil_prefix⟩)

/-- A comment ends at the first `*/`, or not at all.  The star of the opening does not count for its
end. -/
theorem splitComment_cases (seen text : List Char) :
    (∃ body after, text = body ++ '*' :: '/' :: after ∧ ¬ ['*', '/'] <:+: body ++ ['*'] ∧
      splitComment seen text = some (seen.reverse ++ body ++ ['*', '/'], after)) ∨
    ¬ ['*', '/'] <:+: text ∧ splitComment seen text = none := by
  fun_induction splitComment seen text with
  | case1 => exact .inr ⟨by simp, rfl⟩
  | case2 seen rest => exact .inl ⟨[], rest, rfl, by decide, by simp⟩
  | case3 seen c rest hnot ih =>
    rcases ih with ⟨body, after, rfl, hbody, hsplit⟩ | ⟨hends, hnone⟩
    · refine .inl ⟨c :: body, after, rfl, ?_, by simpa using hsplit⟩
      rw [List.cons_append, List.infix_cons_iff]
      rintro (hp | hp)
      · -- an end one earlier would have been the first
        obtain ⟨rfl, tail, htail⟩ := List.cons_prefix_cons.mp hp
        cases body with
        | nil => cases htail
        | cons d body =>
          obtain ⟨rfl, -⟩ := List.cons.inj htail
          exact hnot _ rfl rfl
      · exact hbody hp
    · refine .inr ⟨?_, hnone⟩
      rw [List.infix_cons_iff]
      rintro (hp | hp)
      · obtain ⟨rfl, after, hafter⟩ := List.cons_prefix_cons.mp hp
        exact hnot after rfl hafter.symm
      · exact hends hp

/-- A comment in the middle of a text is a blank if it ends, and a fault if it does not. -/
theorem fits_blockComment (rest : List Char) :
    (blockComment rest).1.Fits (blockComment rest).2 := by
  unfold blockComment
  rcases splitComment_cases [] rest with ⟨body, after, -, hbody, hsplit⟩ | ⟨hends, hnone⟩
  · rw [hsplit]
    exact .blank (.block hbody after)
  · rw [hnone]
    exact .unterminated hends

/-- A symbol that is read stands there, and no other one that stands there is longer. -/
theorem fits_of_scan? {s : Symbol} {longer : Bool} {text after : List Char}
    (hscan : Symbol.scan? c rest.head? = some (s, longer)) (hchars : text = s.chars)
    (htext : text ++ after = c :: rest) (hdigit : c.isDigit = false)
    (hstart : isWordStart c = false) (hopens : ¬ OpensComment (c :: rest)) :
    Fits ⟨.token (.symbol s), text⟩ after := by
  refine .lexeme (hchars ▸ .symbol s) (htext ▸ hopens) fun text' kind' h hp => ?_
  rw [htext] at hp
  obtain ⟨tail, rfl, -⟩ := h.exists_cons hp
  obtain ⟨s', hs', -⟩ := h.exists_symbol hdigit hstart
  obtain ⟨t, _, hscan', hlength⟩ := Symbol.exists_scan? (hs' ▸ hp)
  obtain ⟨rfl, -⟩ := Prod.mk.inj (Option.some.inj (hscan'.symm.trans hscan))
  rwa [hchars, ← hs']

/-- Where neither a blank nor a number nor a word begins, there is a symbol or nothing. -/
theorem fits_symbol (hspace : ¬ IsSpace c) (hdigit : c.isDigit = false)
    (hstart : isWordStart c = false) (hopens : ¬ OpensComment (c :: rest)) :
    (symbol c rest).1.Fits (symbol c rest).2 := by
  unfold symbol
  split
  · next s hscan =>
    exact fits_of_scan? hscan (Symbol.chars_of_scan? hscan).symm rfl hdigit hstart hopens
  · next s hscan =>
    have hchars : c :: rest.take 1 = s.chars := by
      rw [Symbol.chars_of_scan? hscan]
      cases rest <;> rfl
    exact fits_of_scan? hscan hchars (congrArg (c :: ·) (List.take_append_drop 1 rest)) hdigit
      hstart hopens
  · next hnone =>
    -- a symbol that stands there would have been read
    refine .unexpected hspace hopens fun text kind h hp => ?_
    obtain ⟨tail, rfl, -⟩ := h.exists_cons hp
    obtain ⟨s, hs, -⟩ := h.exists_symbol hdigit hstart
    obtain ⟨s', longer, hscan, -⟩ := Symbol.exists_scan? (hs ▸ hp)
    rw [hscan] at hnone
    cases hnone

/-- **What is cut off fits.**  The cases are those of the cursor, in its order. -/
theorem fits_first (c : Char) (rest : List Char) : (first c rest).1.Fits (first c rest).2 := by
  unfold first
  split
  · next hblank => exact .blank (.space (isBlank_iff.mp hblank) rest)
  split
  · next hdigit => exact fits_number hdigit
  split
  · next hstart => exact fits_word hstart
  next hblank hdigit hstart =>
    split
    · exact fits_line
    · exact fits_blockComment _
    · next hline hblock =>
      refine fits_symbol (mt isBlank_iff.mpr hblank) (by simpa using hdigit)
        (by simpa using hstart) ?_
      rintro (hopens | hopens)
      · obtain ⟨rfl, after, hafter⟩ := List.cons_prefix_cons.mp hopens
        exact hline after rfl hafter.symm
      · obtain ⟨rfl, after, hafter⟩ := List.cons_prefix_cons.mp hopens
        exact hblock after rfl hafter.symm

/-! ### Only one piece fits -/

/-- A comment is cut off at its first end, however much has been seen before. -/
theorem splitComment_append_end {body : List Char} (h : ¬ ['*', '/'] <:+: body ++ ['*'])
    (seen after : List Char) : splitComment seen (body ++ '*' :: '/' :: after) =
      some (seen.reverse ++ body ++ ['*', '/'], after) := by
  induction body generalizing seen with
  | nil => simp [splitComment]
  | cons d body ih =>
    have hbody : ¬ ['*', '/'] <:+: body ++ ['*'] := fun hends =>
      h (List.infix_cons_iff.mpr (.inr hends))
    rw [List.cons_append, splitComment, ih hbody]
    · simp
    · -- the end is not here already, since it would be inside of the body
      rintro tail rfl htail
      refine h (List.infix_cons_iff.mpr (.inl ?_))
      cases body with
      | nil => cases htail
      | cons d body =>
        obtain ⟨rfl, -⟩ := List.cons.inj htail
        exact ⟨_, rfl⟩

theorem Fits.ne_nil {piece : Piece} {after : List Char} (h : piece.Fits after) :
    piece.text ≠ [] := by
  rcases h with h | h | - | -
  · cases h <;> exact List.cons_ne_nil _ _
  · exact h.ne_nil
  · exact List.cons_ne_nil _ _
  · exact List.cons_ne_nil _ _

theorem first_line (rest : List Char) : first '/' ('/' :: rest) =
    (⟨.blank, '/' :: '/' :: rest.takeWhile (· != '\n')⟩, rest.dropWhile (· != '\n')) := rfl

theorem first_block (rest : List Char) : first '/' ('*' :: rest) = blockComment rest := rfl

/-- Where a blank begins, it is what is cut off. -/
theorem first_of_blank {text after : List Char} (h : Blank text after)
    (htext : text ++ after = c :: rest) : first c rest = (⟨.blank, text⟩, after) := by
  cases h with
  | space hc =>
    obtain ⟨rfl, rfl⟩ := List.cons.inj htext
    exact if_pos (isBlank_iff.mpr hc)
  | @line body after hbody hafter =>
    obtain ⟨rfl, hrest⟩ := List.cons.inj htext
    obtain rfl : rest = '/' :: (body ++ after) := hrest.symm
    have hrun : ∀ d ∈ body, (d != '\n') = true := by
      intro d hd
      rw [bne_iff_ne]
      rintro rfl
      exact hbody hd
    -- the line ends where the text ends, or at the first line feed
    obtain ⟨htake, hdrop⟩ :
        after.takeWhile (· != '\n') = [] ∧ after.dropWhile (· != '\n') = after := by
      rcases hafter with rfl | ⟨tail, rfl⟩
      · exact ⟨rfl, rfl⟩
      · exact ⟨rfl, rfl⟩
    rw [first_line, List.takeWhile_append_of_pos hrun, List.dropWhile_append_of_pos hrun, htake,
      hdrop, List.append_nil]
  | @block body hbody after =>
    obtain ⟨rfl, hrest⟩ := List.cons.inj htext
    obtain rfl : rest = '*' :: (body ++ '*' :: '/' :: after) := by simpa using hrest.symm
    rw [first_block, blockComment, splitComment_append_end hbody]
    rfl

/-- A comment that does not end takes the rest of the text. -/
theorem first_of_unterminated {text : List Char} (h : ¬ ['*', '/'] <:+: text) :
    first '/' ('*' :: text) = (⟨.fault .unterminatedComment, '/' :: '*' :: text⟩, []) := by
  rcases splitComment_cases [] text with ⟨body, after, rfl, -, -⟩ | ⟨-, hnone⟩
  · exact absurd ⟨body, after, by simp⟩ h
  · rw [first_block, blockComment, hnone]

/-- Where no blank begins, a piece is the longest text that stands for something, or there is none
and the piece is one character. -/
theorem Fits.cases_of_not_blank {piece : Piece} {after : List Char} (h : piece.Fits after)
    (htext : piece.text ++ after = c :: rest) (hspace : ¬ IsSpace c)
    (hopens : ¬ OpensComment (c :: rest)) :
    (Stands piece.text piece.kind ∧ ∀ text' kind', Stands text' kind' → text' <+: c :: rest →
      text'.length ≤ piece.text.length) ∨
    (piece = ⟨.fault (.unexpectedCharacter c), [c]⟩ ∧
      ∀ text' kind', Stands text' kind' → ¬ text' <+: c :: rest) := by
  cases h with
  | blank h =>
    cases h with
    | space hc =>
      obtain ⟨rfl, -⟩ := List.cons.inj htext
      exact absurd hc hspace
    | line => exact absurd (.inl ⟨_, htext⟩) hopens
    | block => exact absurd (.inr ⟨_, htext⟩) hopens
  | lexeme h _ hlongest =>
    rw [← htext]
    exact .inl ⟨h, hlongest⟩
  | unterminated => exact absurd (.inr ⟨_, htext⟩) hopens
  | unexpected _ _ hnone =>
    obtain ⟨rfl, rfl⟩ := List.cons.inj htext
    exact .inr ⟨rfl, hnone⟩

/-- Where no blank begins, what fits is what is cut off. -/
theorem first_eq_of_not_blank {piece : Piece} {after : List Char} (h : piece.Fits after)
    (htext : piece.text ++ after = c :: rest) (hspace : ¬ IsSpace c)
    (hopens : ¬ OpensComment (c :: rest)) : first c rest = (piece, after) := by
  have htext' := first_text_append c rest
  have hfront : piece.text <+: c :: rest := ⟨after, htext⟩
  have hfront' : (first c rest).1.text <+: c :: rest := ⟨_, htext'⟩
  have hpiece : (first c rest).1 = piece := by
    rcases (fits_first c rest).cases_of_not_blank htext' hspace hopens with
      ⟨hstands', hlongest'⟩ | ⟨heq', hnone'⟩
    · rcases h.cases_of_not_blank htext hspace hopens with ⟨hstands, hlongest⟩ | ⟨-, hnone⟩
      · -- both are the longest, hence equally long, hence the same
        have hlength := Nat.le_antisymm (hlongest _ _ hstands' hfront')
          (hlongest' _ _ hstands hfront)
        have hsame := (List.prefix_of_prefix_length_le hfront' hfront hlength.le).eq_of_length
          hlength
        rw [hsame] at hstands'
        generalize (first c rest).1 = piece' at *
        obtain ⟨kind, text⟩ := piece
        obtain ⟨kind', text'⟩ := piece'
        obtain rfl : text' = text := hsame
        exact congrArg (Piece.mk · text') (hstands'.unique hstands)
      · exact absurd hfront' (hnone _ _ hstands')
    · rcases h.cases_of_not_blank htext hspace hopens with ⟨hstands, -⟩ | ⟨heq, -⟩
      · exact absurd hfront (hnone' _ _ hstands)
      · rw [heq', heq]
  rw [← hpiece] at htext
  exact Prod.ext hpiece (List.append_cancel_left (htext'.trans htext.symm))

/-- **Only one piece fits**, and it is the one that is cut off. -/
theorem Fits.first_eq {piece : Piece} {after : List Char} (h : piece.Fits after)
    (htext : piece.text ++ after = c :: rest) : first c rest = (piece, after) := by
  cases h with
  | blank h => exact first_of_blank h htext
  | unterminated h =>
    obtain ⟨rfl, hrest⟩ := List.cons.inj htext
    obtain rfl := (List.append_nil _).symm.trans hrest
    exact first_of_unterminated h
  | lexeme h hopens hlongest =>
    obtain ⟨tail, rfl, -⟩ := h.exists_cons ⟨after, htext⟩
    exact first_eq_of_not_blank (.lexeme h hopens hlongest) htext h.not_isSpace (htext ▸ hopens)
  | unexpected hspace hopens hnone =>
    obtain ⟨rfl, rfl⟩ := List.cons.inj htext
    exact first_eq_of_not_blank (.unexpected hspace hopens hnone) rfl hspace hopens

end Piece

/-! ### Only one partition -/

/-- The pieces that a text is cut into are a partition of it. -/
theorem partition_cut (text : List Char) : Partition (Piece.cut text) text := by
  fun_induction Piece.cut text with
  | case1 => exact .nil
  | case2 c rest ih =>
    have hcons := Partition.cons (Piece.fits_first c rest) ih
    rwa [Piece.first_text_append] at hcons

/-- **There is one way to cut a text**, and it is the cursor's. -/
theorem partition_iff {pieces : List Piece} {text : List Char} :
    Partition pieces text ↔ pieces = Piece.cut text := by
  constructor
  · intro h
    induction h with
    | nil => exact Piece.cut_nil.symm
    | @cons piece pieces after hfits _ ih =>
      obtain ⟨c, tail, hpiece⟩ := List.exists_cons_of_ne_nil hfits.ne_nil
      have htext : piece.text ++ after = c :: (tail ++ after) := by rw [hpiece, List.cons_append]
      rw [htext, Piece.cut_cons, hfits.first_eq htext, ih]
  · rintro rfl
    exact partition_cut text

/-- Every piece takes at least one character, so there are not more pieces than characters. -/
theorem Partition.length_le {pieces : List Piece} {text : List Char} (h : Partition pieces text) :
    pieces.length ≤ text.length := by
  induction h with
  | nil => exact Nat.le_refl _
  | cons hfits _ ih =>
    have hpos := List.length_pos_iff.mpr hfits.ne_nil
    rw [List.length_cons, List.length_append]
    omega

/-! ### What is to be reported -/

/-- What is to be reported of pieces that stand behind the text `front`: of a blank nothing, of a
token that it is this token, of a fault that it is this fault, each where it begins, and when there
are no more pieces, the end of the input. -/
inductive Transcript : (front : List Char) → List Piece → List Reading → Prop
  | endOfInput (front : List Char) : Transcript front [] [.ok ⟨.endOfInput, .behind front⟩]
  | blank {front text : List Char} {pieces : List Piece} {readings : List Reading}
      (h : Transcript (front ++ text) pieces readings) :
      Transcript front (⟨.blank, text⟩ :: pieces) readings
  | token {front text : List Char} {kind : Token.Kind} {pieces : List Piece}
      {readings : List Reading} (h : Transcript (front ++ text) pieces readings) :
      Transcript front (⟨.token kind, text⟩ :: pieces) (.ok ⟨kind, .behind front⟩ :: readings)
  | fault {front text : List Char} {fault : ScanFault} {pieces : List Piece}
      {readings : List Reading} (h : Transcript (front ++ text) pieces readings) :
      Transcript front (⟨.fault fault, text⟩ :: pieces) (.error ⟨.behind front, fault⟩ :: readings)

/-- What is read of pieces, and then the end of the input, is to be reported of them. -/
theorem transcript_readings (front : List Char) (pieces : List Piece) :
    Transcript front pieces (Piece.readings (.behind front) pieces ++
      [.ok ⟨.endOfInput, .behind (front ++ pieces.flatMap Piece.text)⟩]) := by
  induction pieces generalizing front with
  | nil =>
    rw [List.flatMap_nil, List.append_nil]
    exact .endOfInput front
  | cons piece pieces ih =>
    obtain ⟨kind, text⟩ := piece
    -- the next piece begins behind this one, blank or not
    have hrest := ih (front ++ text)
    rw [Position.behind_append front text, List.append_assoc] at hrest
    cases kind with
    | blank => exact .blank hrest
    | token kind => exact .token hrest
    | fault fault => exact .fault hrest

/-- There is one thing only to report of pieces, as each of them says how the report goes on. -/
theorem Transcript.unique {front : List Char} {pieces : List Piece} {rs rs' : List Reading}
    (h : Transcript front pieces rs) (h' : Transcript front pieces rs') : rs = rs' := by
  induction h generalizing rs' with
  | endOfInput => cases h'; rfl
  | blank _ ih => cases h' with | blank h' => exact ih h'
  | token _ ih => cases h' with | token h' => rw [ih h']
  | fault _ ih => cases h' with | fault h' => rw [ih h']

/-- There is one thing to report of pieces, and it is what is read of them. -/
theorem transcript_iff {front : List Char} {pieces : List Piece} {rs : List Reading} :
    Transcript front pieces rs ↔ rs = Piece.readings (.behind front) pieces ++
      [.ok ⟨.endOfInput, .behind (front ++ pieces.flatMap Piece.text)⟩] := by
  constructor
  · exact fun h => h.unique (transcript_readings front pieces)
  · rintro rfl
    exact transcript_readings front pieces

/-- What is read of a source is what is to be reported of the pieces it is to be cut into. -/
theorem Partition.transcript_iff {pieces : List Piece} {source : String}
    (h : Partition pieces source.toList) {rs : List Reading} :
    Transcript [] pieces rs ↔ rs = read source := by
  obtain rfl := partition_iff.mp h
  rw [OnePass.transcript_iff, Piece.flatMap_text_cut, read_eq_readings]
  rfl

/-- **A source is read by maximal munch.**  There is one way to cut it into pieces that fit, and
what is read is what is to be reported of these pieces.  The end of the input comes last and nowhere
else, after at most one reading for every character.  A cursor that is asked again and again gives
the same, and the end of the input again whenever there is nothing left. -/
theorem read_munches (source : String) :
    (∃! pieces, Partition pieces source.toList) ∧
    (∀ pieces readings, Partition pieces source.toList →
      (Transcript [] pieces readings ↔ readings = read source)) ∧
    (∃ front, read source = front ++ [endReading source] ∧ ∀ p, .ok ⟨.endOfInput, p⟩ ∉ front) ∧
    (read source).length ≤ source.length + 1 ∧
    ∀ n, ((Cursor.start source).after n).next.1 = (read source)[n]?.getD (endReading source) := by
  have hread := read_eq_readings source
  refine ⟨⟨_, partition_cut _, fun _ => partition_iff.mp⟩, fun _ _ h => h.transcript_iff,
    ⟨_, hread, fun p hp => ?_⟩, ?_, read_after source⟩
  · exact Piece.kind_ne_of_mem_readings_cut hp rfl
  · have hlength := (partition_cut source.toList).length_le
    rw [String.length_toList] at hlength
    rw [hread, List.length_append]
    exact Nat.succ_le_succ ((Piece.length_readings_le _ _).trans hlength)

example : read "=2147483648a!/***/==" =
    [.ok ⟨.symbol .equal, ⟨1, 1⟩⟩, .error ⟨⟨1, 2⟩, .numberOutOfRange "2147483648"⟩,
      .ok ⟨.identifier "a", ⟨1, 12⟩⟩, .error ⟨⟨1, 13⟩, .unexpectedCharacter '!'⟩,
      .ok ⟨.symbol .equalEqual, ⟨1, 19⟩⟩, .ok ⟨.endOfInput, ⟨1, 21⟩⟩] := by
  decide

end OnePass
