import OnePass.Program.Listing
import OnePass.Proofs.Munch

/-!
# What a listing tells

A listing is text in lines.  It can be cut up again: lines end at line feeds, methods at
closing braces, and within a line every part ends at a mark that does not occur in it.  So a
listing tells the program, if the name of the program has no line feed and all other names
are words.  What it does not tell is where labels were, and whether a number that is loaded
was meant as a truth value.

## Main definitions

* `Program.Legible` — names that a listing can hold.
* `Program.shown` — a program as far as its listing shows it.
* `Program.lines` — the lines of a listing.

## Main results

* `cut_inj` — **a text is cut at the first mark**.
* `Instruction.shown_eq_of_text` — what is shown of an instruction is all of it, but for truth
  values.
* `Program.listing_eq_iff` — **a listing tells the program**.
-/

namespace OnePass

/-! ### What a listing shows -/

/-- An operation as it is shown.  A truth value is loaded as a number, so the listing does not tell
which of the two was meant. -/
def Operation.shown : Operation → Operation
  | .loadBool value => .loadInt (if value then 1 else 0)
  | operation => operation

/-- An instruction as it is shown. -/
def Instruction.shown : Instruction → Instruction
  | .plain operation => .plain operation.shown
  | .branch target => .branch target
  | .branchIfFalse target => .branchIfFalse target

/-- A method as it is shown, which is without its labels.  Where they were is told by the branches
alone. -/
def Method.shown (m : Method) : Method :=
  { m with code := m.code.map Instruction.shown, labels := #[] }

/-- A program as it is shown. -/
def Program.shown (p : Program) : Program := { p with methods := p.methods.map Method.shown }

/-- The names in a method are words, as all names that come from a source are. -/
structure Method.Legible (m : Method) : Prop where
  name : IsWord m.name.toList
  parameters : ∀ p ∈ m.parameters, ∀ name ∈ p.name, IsWord name.toList
  locals : ∀ v ∈ m.locals, IsWord v.name.toList

/-- The name of a program takes one line, and all other names are words.  The name of a program
stands at the end of its line, so it may have any other characters. -/
structure Program.Legible (p : Program) : Prop where
  name : '\n' ∉ p.name.toList
  methods : ∀ m ∈ p.methods, m.Legible

/-! ### Cutting texts -/

/-- **A text is cut at the first mark.**  What comes behind begins with the mark, if it is not
empty. -/
theorem cut_inj {α : Type} {x : α} {xs ys rest rest' : List α} (hxs : x ∉ xs) (hys : x ∉ ys)
    (hrest : ∀ y ∈ rest.head?, y = x) (hrest' : ∀ y ∈ rest'.head?, y = x)
    (h : xs ++ rest = ys ++ rest') : xs = ys ∧ rest = rest' := by
  -- if one of the texts ended before the other, the mark would be in that
  induction xs generalizing ys with
  | nil =>
    cases ys with
    | nil => exact ⟨rfl, h⟩
    | cons y ys =>
      rw [List.nil_append] at h
      have hy := hrest y (by rw [h]; rfl)
      exact absurd (hy ▸ List.mem_cons_self) hys
  | cons a xs ih =>
    cases ys with
    | nil =>
      rw [List.nil_append] at h
      have ha := hrest' a (by rw [← h]; rfl)
      exact absurd (ha ▸ List.mem_cons_self) hxs
    | cons b ys =>
      obtain ⟨rfl, htail⟩ := List.cons.inj h
      obtain ⟨rfl, hrest⟩ := ih (fun hx => hxs (.tail _ hx)) (fun hx => hys (.tail _ hx)) htail
      exact ⟨rfl, hrest⟩

/-- The same where the mark is there, and is left out of what follows. -/
theorem cut_cons_inj {α : Type} {x : α} {xs ys rest rest' : List α} (hxs : x ∉ xs) (hys : x ∉ ys)
    (h : xs ++ x :: rest = ys ++ x :: rest') : xs = ys ∧ rest = rest' := by
  obtain ⟨hxs, hrest⟩ := cut_inj hxs hys (by simp) (by simp) h
  exact ⟨hxs, (List.cons.inj hrest).2⟩

/-- Texts one after the other, with a mark behind each of them, can be told apart.  This is how a
listing is cut into lines. -/
theorem flatMap_concat_inj {α : Type} {x : α} {lines lines' : List (List α)}
    (hlines : ∀ line ∈ lines, x ∉ line) (hlines' : ∀ line ∈ lines', x ∉ line)
    (h : lines.flatMap (· ++ [x]) = lines'.flatMap (· ++ [x])) : lines = lines' := by
  induction lines generalizing lines' with
  | nil =>
    cases lines' with
    | nil => rfl
    | cons line lines' => simp at h
  | cons line lines ih =>
    cases lines' with
    | nil => simp at h
    | cons line' lines' =>
      obtain ⟨hfirst, hrest⟩ := List.forall_mem_cons.mp hlines
      obtain ⟨hfirst', hrest'⟩ := List.forall_mem_cons.mp hlines'
      simp only [List.flatMap_cons, List.append_assoc, List.singleton_append] at h
      obtain ⟨rfl, htail⟩ := cut_cons_inj hfirst hfirst' h
      rw [ih hrest hrest' htail]

/-- A list in a listing, item by item: every item but the first has a comma and a blank before
it. -/
theorem intercalate_cons (item : List Char) (items : List (List Char)) :
    [',', ' '].intercalate (item :: items) = item ++ items.flatMap ([',', ' '] ++ ·) := by
  induction items generalizing item with
  | nil => simp
  | cons next items ih => simp [ih]

/-- What follows an item begins with a comma. -/
theorem head?_flatMap_comma {items : List (List Char)} :
    ∀ y ∈ (items.flatMap ([',', ' '] ++ ·)).head?, y = ',' := by
  cases items <;> simp

/-- A list of at least one item tells them all, if they have no commas. -/
theorem intercalate_cons_inj {item item' : List Char} {items items' : List (List Char)}
    (hitems : ∀ t ∈ item :: items, ',' ∉ t) (hitems' : ∀ t ∈ item' :: items', ',' ∉ t)
    (h : item ++ items.flatMap ([',', ' '] ++ ·) = item' ++ items'.flatMap ([',', ' '] ++ ·)) :
    item :: items = item' :: items' := by
  induction items generalizing item item' items' with
  | nil =>
    obtain ⟨rfl, htail⟩ := cut_inj (hitems _ (.head _)) (hitems' _ (.head _)) head?_flatMap_comma
      head?_flatMap_comma h
    -- nothing is left of one list, so nothing may be left of the other
    cases items' with
    | nil => rfl
    | cons next' items' => simp at htail
  | cons next items ih =>
    obtain ⟨rfl, htail⟩ := cut_inj (hitems _ (.head _)) (hitems' _ (.head _)) head?_flatMap_comma
      head?_flatMap_comma h
    cases items' with
    | nil => simp at htail
    | cons next' items' =>
      have hnext : next ++ items.flatMap ([',', ' '] ++ ·) =
          next' ++ items'.flatMap ([',', ' '] ++ ·) := by simpa using htail
      rw [ih (fun t ht => hitems t (.tail _ ht)) (fun t ht => hitems' t (.tail _ ht)) hnext]

/-- A list tells its items, if they are not empty and have no commas.  An empty item could not be
told from none at all. -/
theorem intercalate_inj {items items' : List (List Char)}
    (hitems : ∀ t ∈ items, t ≠ [] ∧ ',' ∉ t) (hitems' : ∀ t ∈ items', t ≠ [] ∧ ',' ∉ t)
    (h : [',', ' '].intercalate items = [',', ' '].intercalate items') : items = items' := by
  cases items with
  | nil =>
    cases items' with
    | nil => rfl
    | cons item' items' =>
      rw [intercalate_cons] at h
      exact absurd (List.append_eq_nil_iff.mp h.symm).1 (hitems' _ (.head _)).1
  | cons item items =>
    cases items' with
    | nil =>
      rw [intercalate_cons] at h
      exact absurd (List.append_eq_nil_iff.mp h).1 (hitems _ (.head _)).1
    | cons item' items' =>
      rw [intercalate_cons, intercalate_cons] at h
      exact intercalate_cons_inj (fun t ht => (hitems t ht).2) (fun t ht => (hitems' t ht).2) h

/-- A list has no other characters than its items, commas and blanks. -/
theorem notMem_intercalate {c : Char} {items : List (List Char)} (hc : c ≠ ',' ∧ c ≠ ' ')
    (hitems : ∀ item ∈ items, c ∉ item) : c ∉ [',', ' '].intercalate items := by
  cases items with
  | nil => exact List.not_mem_nil
  | cons item items =>
    rw [intercalate_cons, List.mem_append, not_or]
    refine ⟨hitems item (.head _), fun hmem => ?_⟩
    obtain ⟨next, hnext, hmem⟩ := List.mem_flatMap.mp hmem
    rcases List.mem_append.mp hmem with hmem | hmem
    · simp [hc] at hmem
    · exact hitems next (.tail _ hnext) hmem

/-- A blank and a text, if there is one. -/
def spaced (tail : Option String) : List Char := tail.elim [] fun text => ' ' :: text.toList

theorem notMem_spaced {c : Char} {tail : Option String} (hc : c ≠ ' ')
    (htail : ∀ text ∈ tail, c ∉ text.toList) : c ∉ spaced tail := by
  cases tail with
  | none => exact List.not_mem_nil
  | some text => exact fun hmem => (List.mem_cons.mp hmem).elim hc (htail text rfl)

/-- A text without blanks can be told from what follows behind a blank, and whether anything
follows. -/
theorem append_spaced_inj {xs ys : List Char} {tail tail' : Option String} (hxs : ' ' ∉ xs)
    (hys : ' ' ∉ ys) (h : xs ++ spaced tail = ys ++ spaced tail') : xs = ys ∧ tail = tail' := by
  have hhead (tail : Option String) : ∀ y ∈ (spaced tail).head?, y = ' ' := by
    cases tail <;> simp [spaced]
  obtain ⟨hxs, htail⟩ := cut_inj hxs hys (hhead tail) (hhead tail') h
  refine ⟨hxs, ?_⟩
  cases tail <;> cases tail' <;> simp [spaced, String.toList_inj] at htail ⊢
  exact htail

/-! ### Numbers -/

/-- What is no digit is not in a number. -/
theorem notMem_repr {c : Char} (hc : c.isDigit = false) (n : Nat) : c ∉ n.repr.toList := by
  rw [Nat.toList_repr]
  intro hmem
  rw [Nat.isDigit_of_mem_toDigits (by decide) (by decide) hmem] at hc
  cases hc

/-- Numbers are written without leading zeros, and differently if they differ. -/
theorem repr_inj {m n : Nat} (h : m.repr = n.repr) : m = n := by
  have hdigits : Nat.toDigits 10 m = Nat.toDigits 10 n := by
    rw [← Nat.toList_repr, h, Nat.toList_repr]
  rw [← Nat.ofDigitChars_ten_toDigits (n := m), hdigits, Nat.ofDigitChars_ten_toDigits]

theorem notMem_toString {c : Char} (hc : c.isDigit = false) (hminus : c ≠ '-') (n : Int) :
    c ∉ (toString n).toList := by
  cases n with
  | ofNat n => exact notMem_repr hc n
  | negSucc n =>
    show c ∉ ("-" ++ (n + 1).repr).toList
    rw [String.toList_append, List.mem_append, not_or]
    exact ⟨by simpa using hminus, notMem_repr hc _⟩

/-- A minus sign tells negative numbers from the others. -/
theorem toString_int_inj {m n : Int} (h : toString m = toString n) : m = n := by
  -- no natural number is written with a minus sign
  have hminus (a b : Nat) : Nat.repr a ≠ "-" ++ (b + 1).repr := by
    intro heq
    have hmem : '-' ∈ a.repr.toList := by
      rw [heq, String.toList_append]
      exact List.mem_append_left _ (.head _)
    exact notMem_repr (by decide) a hmem
  cases m with
  | ofNat m =>
    cases n with
    | ofNat n => exact congrArg Int.ofNat (repr_inj h)
    | negSucc n => exact absurd h (hminus m n)
  | negSucc m =>
    cases n with
    | ofNat n => exact absurd h.symm (hminus n m)
    | negSucc n =>
      have hlist : ("-" ++ (m + 1).repr).toList = ("-" ++ (n + 1).repr).toList :=
        congrArg String.toList h
      rw [String.toList_append, String.toList_append] at hlist
      have hrepr := String.toList_inj.mp (List.append_cancel_left hlist)
      exact congrArg Int.negSucc (Nat.succ.inj (repr_inj hrepr))

theorem toList_padded (n : Nat) : (Text.padded n).toList =
    List.replicate (4 - (Nat.toDigits 10 n).length) '0' ++ Nat.toDigits 10 n :=
  String.toList_ofList

/-- Padding with zeros gives a numeral again. -/
theorem isNumeral_padded (n : Nat) : IsNumeral (Text.padded n).toList := by
  rw [toList_padded]
  refine ⟨fun h => Nat.toDigits_ne_nil (List.append_eq_nil_iff.mp h).2, fun d hd => ?_⟩
  rcases List.mem_append.mp hd with hd | hd
  · rw [List.eq_of_mem_replicate hd]
    rfl
  · exact Nat.isDigit_of_mem_toDigits (by decide) (by decide) hd

/-- Leading zeros do not count, so an offset can be read from its padded form. -/
theorem ofDigitChars_padded (n : Nat) : Nat.ofDigitChars 10 (Text.padded n).toList 0 = n := by
  have hzeros (k : Nat) (digits : List Char) :
      Nat.ofDigitChars 10 (List.replicate k '0' ++ digits) 0 = Nat.ofDigitChars 10 digits 0 := by
    induction k with
    | zero => rfl
    | succ k ih => rwa [List.replicate_succ, List.cons_append, Nat.ofDigitChars_cons]
  rw [toList_padded, hzeros, Nat.ofDigitChars_ten_toDigits]

theorem padded_inj {m n : Nat} (h : Text.padded m = Text.padded n) : m = n := by
  rw [← ofDigitChars_padded m, h, ofDigitChars_padded]

/-! ### Names and types -/

/-- What is no part of words is in none.  Every character that begins a word may also stand inside
of one. -/
theorem IsWord.notMem {text : List Char} (h : IsWord text) {c : Char}
    (hc : Piece.isWordPart c = false) : c ∉ text := by
  cases text with
  | nil => exact List.not_mem_nil
  | cons first rest =>
    obtain ⟨hstart, hrest⟩ := isWord_cons.mp h
    intro hmem
    have hpart : Piece.isWordPart c = true := by
      rcases List.mem_cons.mp hmem with rfl | hmem
      · rw [Piece.isWordStart, Bool.or_eq_true] at hstart
        rw [Piece.isWordPart, Bool.or_eq_true]
        exact hstart.imp_left fun halpha => Bool.or_eq_true_iff.mpr (.inl halpha)
      · exact hrest c hmem
    rw [hpart] at hc
    cases hc

/-- Types that are written alike are the same. -/
theorem Ty.spelling_inj {a b : Ty} (h : a.spelling = b.spelling) : a = b := by
  cases a <;> cases b <;> simp [spelling] at h <;> rfl

/-- Types are written without blanks, commas and line feeds. -/
theorem Ty.notMem_spelling (type : Ty) {c : Char} (hc : c ∈ [' ', ',', '\n']) :
    c ∉ type.spelling.toList := by
  simp only [List.mem_cons, List.not_mem_nil, or_false] at hc
  rcases hc with rfl | rfl | rfl <;> cases type <;> decide

theorem Ty.spelling_ne_nil (type : Ty) : type.spelling.toList ≠ [] := by
  cases type <;> decide

namespace Parameter

/-- A parameter is written as its type, with its name behind a blank if it has one. -/
theorem toList_text (p : Parameter) :
    p.text.toList = p.type.spelling.toList ++ spaced p.name := by
  obtain ⟨type, _ | name⟩ := p
  · simp [text, spaced]
  · show (type.spelling ++ " " ++ name).toList = _
    simp [spaced]

/-- A parameter takes no comma and no line feed, so it can stand in a list on one line. -/
theorem notMem_text {p : Parameter} (hp : ∀ name ∈ p.name, IsWord name.toList) {c : Char}
    (hc : c ∈ [',', '\n']) : c ∉ p.text.toList := by
  have hne : c ≠ ' ' ∧ Piece.isWordPart c = false := by
    simp only [List.mem_cons, List.not_mem_nil, or_false] at hc
    rcases hc with rfl | rfl <;> decide
  rw [toList_text, List.mem_append, not_or]
  exact ⟨p.type.notMem_spelling (.tail _ hc),
    notMem_spaced hne.1 fun name hname => (hp name hname).notMem hne.2⟩

/-- What is shown of a parameter is all of it: the type ends at the first blank. -/
theorem text_inj {p q : Parameter} (h : p.text = q.text) : p = q := by
  have htext := congrArg String.toList h
  rw [toList_text, toList_text] at htext
  obtain ⟨htype, hname⟩ := append_spaced_inj (p.type.notMem_spelling (.head _))
    (q.type.notMem_spelling (.head _)) htext
  obtain ⟨type, name⟩ := p
  obtain ⟨type', name'⟩ := q
  obtain rfl := Ty.spelling_inj (String.toList_inj.mp htype)
  obtain rfl : name = name' := hname
  rfl

theorem text_ne_nil (p : Parameter) : p.text.toList ≠ [] := by
  rw [toList_text]
  exact fun h => p.type.spelling_ne_nil (List.append_eq_nil_iff.mp h).1

variable {ps qs : List Parameter} (hps : ∀ p ∈ ps, ∀ name ∈ p.name, IsWord name.toList)
include hps

/-- Parameters in a list with commas take one line. -/
theorem notMem_intercalate_text :
    '\n' ∉ [',', ' '].intercalate (ps.map fun p => p.text.toList) := by
  refine notMem_intercalate (by decide) fun item hitem => ?_
  obtain ⟨p, hp, rfl⟩ := List.mem_map.mp hitem
  exact notMem_text (hps p hp) (.tail _ (.head _))

/-- Parameters can be told from a list with commas. -/
theorem intercalate_text_inj (hqs : ∀ q ∈ qs, ∀ name ∈ q.name, IsWord name.toList)
    (h : [',', ' '].intercalate (ps.map fun p => p.text.toList) =
      [',', ' '].intercalate (qs.map fun q => q.text.toList)) : ps = qs := by
  have hitems {ps : List Parameter} (hps : ∀ p ∈ ps, ∀ name ∈ p.name, IsWord name.toList) :
      ∀ t ∈ ps.map fun p => p.text.toList, t ≠ [] ∧ ',' ∉ t := by
    intro t ht
    obtain ⟨p, hp, rfl⟩ := List.mem_map.mp ht
    exact ⟨p.text_ne_nil, notMem_text (hps p hp) (.head _)⟩
  have hmap := intercalate_inj (hitems hps) (hitems hqs) h
  exact (List.map_inj_right fun _ _ heq => text_inj (String.toList_inj.mp heq)).mp hmap

end Parameter

/-- A local variable is shown like a parameter with its name. -/
def Variable.parameter (v : Variable) : Parameter := ⟨v.type, some v.name⟩

theorem Method.Legible.words_parameters {m : Method} (hm : m.Legible) :
    ∀ p ∈ m.parameters.toList, ∀ name ∈ p.name, IsWord name.toList := fun p hp =>
  hm.parameters p (Array.mem_toList_iff.mp hp)

theorem Method.Legible.words_locals {m : Method} (hm : m.Legible) :
    ∀ p ∈ m.locals.toList.map Variable.parameter, ∀ name ∈ p.name, IsWord name.toList := by
  intro p hp name hname
  obtain ⟨v, hv, rfl⟩ := List.mem_map.mp hp
  obtain rfl := Option.some.inj hname
  exact hm.locals v (Array.mem_toList_iff.mp hv)

theorem Variable.parameter_inj {v w : Variable} (h : v.parameter = w.parameter) : v = w := by
  obtain ⟨name, type⟩ := v
  obtain ⟨name', type'⟩ := w
  cases h
  rfl

/-! ### Instructions -/

/-- The words that instructions begin with.  Some operations share one, and are told apart by what
follows it. -/
inductive Opcode
  | constant | loadLocal | loadArg | storeLocal
  | unary (op : UnaryOp)
  | additive (op : AdditiveOp)
  | multiplicative (op : MultiplicativeOp)
  | compare (op : ComparisonOp)
  | call | convert | branch | branchIfFalse | ret | pop
  deriving DecidableEq, Repr

namespace Opcode

/-- The text of an opcode. -/
def word : Opcode → String
  | .constant => "ldc.i4"
  | .loadLocal => "ldloc"
  | .loadArg => "ldarg"
  | .storeLocal => "stloc"
  | .unary op => op.mnemonic
  | .additive op => op.mnemonic
  | .multiplicative op => op.mnemonic
  | .compare op => op.mnemonic
  | .call => "call"
  | .convert => "conv"
  | .branch => "br"
  | .branchIfFalse => "brfalse"
  | .ret => "ret"
  | .pop => "pop"

/-- All opcodes, to check them one by one. -/
def all : List Opcode :=
  [.constant, .loadLocal, .loadArg, .storeLocal, .unary .negate, .additive .add, .additive .sub,
    .additive .or, .additive .orElse, .additive .xor, .multiplicative .mul, .multiplicative .div,
    .multiplicative .rem, .multiplicative .and, .multiplicative .andAlso, .compare .less,
    .compare .lessEqual, .compare .equal, .compare .notEqual, .compare .greaterEqual,
    .compare .greater, .call, .convert, .branch, .branchIfFalse, .ret, .pop]

theorem mem_all (o : Opcode) : o ∈ all := by
  cases o with
  | unary op => cases op; decide
  | additive op => cases op <;> decide
  | multiplicative op => cases op <;> decide
  | compare op => cases op <;> decide
  | _ => decide

/-- The opcode with a given text. -/
def ofWord? (word : String) : Option Opcode := all.find? (·.word == word)

/-- Every opcode is read back from its text. -/
theorem ofWord?_word (o : Opcode) : ofWord? o.word = some o := by
  have hall : (all.all fun o => ofWord? o.word == some o) = true := by decide
  exact beq_iff_eq.mp (List.all_eq_true.mp hall o o.mem_all)

theorem word_inj {o o' : Opcode} (h : o.word = o'.word) : o = o' := by
  have hsome := ofWord?_word o
  rw [h, ofWord?_word] at hsome
  exact (Option.some.inj hsome).symm

/-- Opcodes are written without blanks and line feeds, so they end where the operand begins. -/
theorem notMem_word (o : Opcode) {c : Char} (hc : c ∈ [' ', '\n']) : c ∉ o.word.toList := by
  have hall : (all.all fun o => [' ', '\n'].all fun c => decide (c ∉ o.word.toList)) = true := by
    decide
  exact of_decide_eq_true (List.all_eq_true.mp (List.all_eq_true.mp hall o o.mem_all) c hc)

end Opcode

namespace LocalSlot

theorem toList_text (slot : LocalSlot) :
    slot.text.toList = slot.method.repr.toList ++ ':' :: slot.index.repr.toList := by
  show (slot.method.repr ++ ":" ++ slot.index.repr).toList = _
  simp

theorem notMem_text (slot : LocalSlot) : '\n' ∉ slot.text.toList := by
  rw [toList_text, List.mem_append, List.mem_cons, not_or, not_or]
  exact ⟨notMem_repr (by decide) _, by decide, notMem_repr (by decide) _⟩

/-- A slot is a method and an index with a colon between them, and both are numbers. -/
theorem text_inj {slot slot' : LocalSlot} (h : slot.text = slot'.text) : slot = slot' := by
  have htext := congrArg String.toList h
  rw [toList_text, toList_text] at htext
  obtain ⟨hmethod, hindex⟩ :=
    cut_cons_inj (notMem_repr (by decide) _) (notMem_repr (by decide) _) htext
  obtain ⟨method, index⟩ := slot
  obtain ⟨method', index'⟩ := slot'
  obtain rfl := repr_inj (String.toList_inj.mp hmethod)
  obtain rfl := repr_inj (String.toList_inj.mp hindex)
  rfl

end LocalSlot

theorem Target.notMem_text (t : Target) : '\n' ∉ t.text.toList := by
  cases t with
  | pending l =>
    show '\n' ∉ ("L" ++ l.repr).toList
    rw [String.toList_append, List.mem_append, not_or]
    exact ⟨by decide, notMem_repr (by decide) l⟩
  | offset n => exact fun hmem => absurd ((isNumeral_padded n).2 _ hmem) (by decide)

/-- A label is not taken for an offset: it begins with a letter, and an offset is a numeral. -/
theorem Target.text_inj {t t' : Target} (h : t.text = t'.text) : t = t' := by
  have hlabel (l n : Nat) : "L" ++ l.repr ≠ Text.padded n := by
    intro heq
    have hmem : 'L' ∈ (Text.padded n).toList := by
      rw [← heq, String.toList_append]
      exact List.mem_append_left _ (.head _)
    exact absurd ((isNumeral_padded n).2 _ hmem) (by decide)
  cases t with
  | pending l =>
    cases t' with
    | offset n => exact absurd h (hlabel l n)
    | pending l' =>
      have hlist : ("L" ++ l.repr).toList = ("L" ++ l'.repr).toList := congrArg String.toList h
      rw [String.toList_append, String.toList_append] at hlist
      exact congrArg pending (repr_inj (String.toList_inj.mp (List.append_cancel_left hlist)))
  | offset n =>
    cases t' with
    | offset n' => exact congrArg offset (padded_inj h)
    | pending l => exact absurd h.symm (hlabel l n)

namespace Instruction

/-- The opcode of an instruction. -/
def opcode : Instruction → Opcode
  | .plain (.loadInt _) => .constant
  | .plain (.loadBool _) => .constant
  | .plain (.loadLocal _) => .loadLocal
  | .plain (.loadArg _) => .loadArg
  | .plain (.storeLocal _) => .storeLocal
  | .plain (.unary op) => .unary op
  | .plain (.additive op) => .additive op
  | .plain (.multiplicative op) => .multiplicative op
  | .plain (.compare op) => .compare op
  | .plain .concat => .call
  | .plain (.convert _ _) => .convert
  | .plain .ret => .ret
  | .plain .pop => .pop
  | .plain .print => .call
  | .branch _ => .branch
  | .branchIfFalse _ => .branchIfFalse

/-- What follows the opcode of an instruction, behind a blank. -/
def operand? : Instruction → Option String
  | .plain (.loadInt value) => some (toString value)
  | .plain (.loadBool value) => some (toString (if value then 1 else 0 : Int))
  | .plain (.loadLocal slot) => some slot.text
  | .plain (.loadArg ordinal) => some ordinal.repr
  | .plain (.storeLocal slot) => some slot.text
  | .plain .concat => some "string::concat"
  | .plain (.convert target source) => some (source.spelling ++ " -> " ++ target.spelling)
  | .plain .print => some "print"
  | .branch target => some target.text
  | .branchIfFalse target => some target.text
  | _ => none

/-- An instruction is written as its opcode and its operand. -/
theorem toList_text (i : Instruction) :
    i.text.toList = i.opcode.word.toList ++ spaced i.operand? := by
  have hstring (s : String) : toString s = s := rfl
  cases i with
  | plain operation =>
    cases operation with
    | loadBool value => cases value <;> rfl
    | _ => simp [text, Operation.text, opcode, operand?, Opcode.word, spaced, hstring]
  | branch target => simp [text, opcode, operand?, Opcode.word, spaced, hstring]
  | branchIfFalse target => simp [text, opcode, operand?, Opcode.word, spaced, hstring]

/-- A conversion tells both of its types: the first one ends at the first blank. -/
theorem conversion_inj {source target source' target' : Ty}
    (h : source.spelling ++ " -> " ++ target.spelling =
      source'.spelling ++ " -> " ++ target'.spelling) :
    source = source' ∧ target = target' := by
  have hlist := congrArg String.toList h
  simp only [String.toList_append, List.append_assoc] at hlist
  have hspaces : " -> ".toList = ' ' :: "-> ".toList := by decide
  rw [hspaces] at hlist
  obtain ⟨hsource, hrest⟩ := cut_cons_inj (source.notMem_spelling (.head _))
    (source'.notMem_spelling (.head _)) hlist
  have htarget := List.append_cancel_left hrest
  exact ⟨Ty.spelling_inj (String.toList_inj.mp hsource),
    Ty.spelling_inj (String.toList_inj.mp htarget)⟩

/-- Opcode and operand tell the operation, but for truth values. -/
theorem shown_eq_of_plain {o o' : Operation} (hopcode : (plain o).opcode = (plain o').opcode)
    (hoperand : (plain o).operand? = (plain o').operand?) : o.shown = o'.shown := by
  -- only the two that load constants and the two that call share their opcodes
  cases o <;> cases o' <;> cases hopcode
  case loadInt.loadInt | loadInt.loadBool | loadBool.loadInt | loadBool.loadBool =>
    exact congrArg Operation.loadInt (toString_int_inj (Option.some.inj hoperand))
  case loadLocal.loadLocal =>
    exact congrArg Operation.loadLocal (LocalSlot.text_inj (Option.some.inj hoperand))
  case loadArg.loadArg => exact congrArg Operation.loadArg (repr_inj (Option.some.inj hoperand))
  case storeLocal.storeLocal =>
    exact congrArg Operation.storeLocal (LocalSlot.text_inj (Option.some.inj hoperand))
  case convert.convert target source target' source' =>
    obtain ⟨rfl, rfl⟩ := conversion_inj (Option.some.inj hoperand)
    rfl
  case concat.print | print.concat => exact absurd (Option.some.inj hoperand) (by decide)
  all_goals rfl

/-- What is shown of an instruction is all of it, but for truth values.  The opcode tells branches
from operations. -/
theorem shown_eq_of_text {i j : Instruction} (h : i.text = j.text) : i.shown = j.shown := by
  have hlist := congrArg String.toList h
  rw [toList_text, toList_text] at hlist
  obtain ⟨hword, hoperand⟩ := append_spaced_inj (i.opcode.notMem_word (.head _))
    (j.opcode.notMem_word (.head _)) hlist
  have hopcode := Opcode.word_inj (String.toList_inj.mp hword)
  cases i with
  | plain o =>
    cases j with
    | plain o' => exact congrArg plain (shown_eq_of_plain hopcode hoperand)
    | branch target => cases o <;> cases hopcode
    | branchIfFalse target => cases o <;> cases hopcode
  | branch target =>
    cases j with
    | plain o' => cases o' <;> cases hopcode
    | branch target' => exact congrArg branch (Target.text_inj (Option.some.inj hoperand))
    | branchIfFalse target' => cases hopcode
  | branchIfFalse target =>
    cases j with
    | plain o' => cases o' <;> cases hopcode
    | branch target' => cases hopcode
    | branchIfFalse target' =>
      exact congrArg branchIfFalse (Target.text_inj (Option.some.inj hoperand))

/-- Instructions that are shown alike have the same text. -/
theorem text_shown (i : Instruction) : i.shown.text = i.text := by
  cases i with
  | plain operation =>
    cases operation with
    | loadBool value => cases value <;> rfl
    | _ => rfl
  | branch target => rfl
  | branchIfFalse target => rfl

theorem notMem_operand (i : Instruction) : ∀ operand ∈ i.operand?, '\n' ∉ operand.toList := by
  intro operand hoperand
  cases i with
  | plain o =>
    cases o <;> cases hoperand
    case plain.loadInt | plain.loadBool => exact notMem_toString (by decide) (by decide) _
    case plain.loadLocal slot | plain.storeLocal slot => exact slot.notMem_text
    case plain.loadArg ordinal => exact notMem_repr (by decide) ordinal
    case plain.convert target source =>
      simp only [String.toList_append, List.mem_append, not_or]
      exact ⟨⟨source.notMem_spelling (.tail _ (.tail _ (.head _))), by decide⟩,
        target.notMem_spelling (.tail _ (.tail _ (.head _)))⟩
    all_goals decide
  | branch target =>
    cases hoperand
    exact target.notMem_text
  | branchIfFalse target =>
    cases hoperand
    exact target.notMem_text

/-- Instructions take one line. -/
theorem notMem_text (i : Instruction) : '\n' ∉ i.text.toList := by
  rw [toList_text, List.mem_append, not_or]
  exact ⟨i.opcode.notMem_word (.tail _ (.head _)), notMem_spaced (by decide) i.notMem_operand⟩

end Instruction

/-! ### Lines -/

namespace Method

/-- The line of a method's return type, name and parameters.  This and the other lines are given
without the line feeds at their ends. -/
def signature (m : Method) : List Char :=
  ".method ".toList ++ (m.returnType.spelling.toList ++ ' ' :: (m.name.toList ++
    '(' :: ([',', ' '].intercalate (m.parameters.toList.map fun p => p.text.toList) ++ [')'])))

/-- The line of a method's locals. -/
def localsText (m : Method) : List Char :=
  "  .locals (".toList ++
    ([',', ' '].intercalate
      ((m.locals.toList.map Variable.parameter).map fun p => p.text.toList) ++ [')'])

/-- A method without locals has no line for them. -/
def localsLines (m : Method) : List (List Char) := if m.locals.isEmpty then [] else [m.localsText]

/-- The line of the instruction at an offset. -/
def codeText (offset : Nat) (i : Instruction) : List Char :=
  "  ".toList ++ ((Text.padded offset).toList ++ (": ".toList ++ i.text.toList))

/-- The lines of instructions, the first of which is at the offset and the others at the offsets
that follow. -/
def codeLines (offset : Nat) : List Instruction → List (List Char)
  | [] => []
  | i :: code => codeText offset i :: codeLines (offset + 1) code

/-- The lines between the braces. -/
def contents (m : Method) : List (List Char) := m.localsLines ++ codeLines 0 m.code.toList

/-- The lines of a method. -/
def lines (m : Method) : List (List Char) := m.signature :: ['{'] :: (m.contents ++ [['}']])

/-- The header of a method is one line. -/
theorem toList_header (m : Method) : m.header.toList = m.signature ++ ['\n'] := by
  show (".method " ++ m.returnType.spelling ++ " " ++ m.name ++ "(" ++
    ", ".intercalate (m.parameters.toList.map Parameter.text) ++ ")\n").toList = _
  unfold signature
  simp only [String.toList_append, String.toList_intercalate, List.map_map, List.append_assoc,
    List.cons_append]
  rfl

/-- There is a line of locals only if there are locals. -/
theorem toList_localsLine (m : Method) :
    m.localsLine.toList = m.localsLines.flatMap (· ++ ['\n']) := by
  unfold localsLine localsLines
  split
  · rfl
  · show ("  .locals (" ++ ", ".intercalate (m.locals.toList.map Variable.text) ++ ")\n").toList = _
    rw [List.flatMap_singleton]
    unfold localsText
    simp only [String.toList_append, String.toList_intercalate, List.map_map, List.append_assoc]
    rfl

theorem toList_codeLine (offset : Nat) (i : Instruction) :
    (codeLine offset i).toList = codeText offset i ++ ['\n'] := by
  show ("  " ++ Text.padded offset ++ ": " ++ i.text ++ "\n").toList = _
  simp [codeText]

/-- The lines of code are numbered from the offset on. -/
theorem flatMap_codeLine (offset : Nat) (code : List Instruction) :
    ((code.zipIdx offset).flatMap fun e => (codeLine e.2 e.1).toList) =
      (codeLines offset code).flatMap (· ++ ['\n']) := by
  induction code generalizing offset with
  | nil => rfl
  | cons i code ih =>
    rw [List.zipIdx_cons, List.flatMap_cons, ih, toList_codeLine, codeLines, List.flatMap_cons]

/-- The listing of a method is its lines, with line feeds behind them. -/
theorem toList_listing (m : Method) : m.listing.toList = m.lines.flatMap (· ++ ['\n']) := by
  show (m.header ++ "\x7b\n" ++ m.localsLine ++
    String.join (m.code.toList.zipIdx.map fun e => codeLine e.2 e.1) ++ "\x7d\n").toList = _
  simp [lines, contents, toList_header, toList_localsLine, String.toList_join, List.flatMap_map,
    ← flatMap_codeLine]

end Method

/-- The lines of a listing.  There is an empty line before each method. -/
def Program.lines (p : Program) : List (List Char) :=
  (".program ".toList ++ p.name.toList) :: p.methods.toList.flatMap fun m => [] :: m.lines

/-- The listing of a program is its lines, with line feeds behind them. -/
theorem Program.toList_listing (p : Program) :
    p.listing.toList = p.lines.flatMap (· ++ ['\n']) := by
  have hstart : (s!".program {p.name}\n").toList =
      (".program ".toList ++ p.name.toList) ++ ['\n'] := by
    show (".program " ++ p.name ++ "\n").toList = _
    simp
  simp only [listing, lines, String.toList_append, String.toList_join, hstart, List.flatMap_cons,
    List.flatMap_map, List.flatMap_assoc, Method.toList_listing]
  rfl

/-! ### Lines that can be told apart -/

namespace Method

variable {m m' : Method}

/-- A line of code begins with two blanks and a digit. -/
theorem codeText_eq (offset : Nat) (i : Instruction) :
    ∃ d rest, codeText offset i = ' ' :: ' ' :: d :: rest ∧ d.isDigit = true := by
  obtain ⟨hne, hdigits⟩ := isNumeral_padded offset
  obtain ⟨d, digits, hpadded⟩ := List.exists_cons_of_ne_nil hne
  refine ⟨d, digits ++ (": ".toList ++ i.text.toList), ?_, hdigits d (hpadded ▸ .head _)⟩
  rw [codeText, hpadded]
  rfl

theorem mem_codeLines {line : List Char} {offset : Nat} {code : List Instruction}
    (h : line ∈ codeLines offset code) : ∃ k i, line = codeText k i := by
  induction code generalizing offset with
  | nil => cases h
  | cons i code ih =>
    rcases List.mem_cons.mp h with rfl | h
    · exact ⟨offset, i, rfl⟩
    · exact ih h

/-- The lines of code tell the instructions.  The offsets are the same on both sides, so they drop
out. -/
theorem shown_eq_of_codeLines {offset : Nat} {code code' : List Instruction}
    (h : codeLines offset code = codeLines offset code') :
    code.map Instruction.shown = code'.map Instruction.shown := by
  induction code generalizing offset code' with
  | nil =>
    cases code' with
    | nil => rfl
    | cons i code' => cases h
  | cons i code ih =>
    cases code' with
    | nil => cases h
    | cons j code' =>
      obtain ⟨hline, hrest⟩ := List.cons.inj h
      -- both lines begin with the same offset
      have htext :=
        List.append_cancel_left (List.append_cancel_left (List.append_cancel_left hline))
      have hshown := Instruction.shown_eq_of_text (String.toList_inj.mp htext)
      rw [List.map_cons, List.map_cons, hshown, ih hrest]

/-- A line of locals is not taken for one of code, since behind the blanks it goes on with a period
and not with a digit. -/
theorem codeText_ne_localsText (offset : Nat) (i : Instruction) :
    codeText offset i ≠ m.localsText := by
  intro h
  obtain ⟨d, rest, htext, hdigit⟩ := codeText_eq offset i
  rw [htext] at h
  obtain ⟨rfl, -⟩ := List.cons.inj (List.cons.inj (List.cons.inj h).2).2
  cases hdigit

theorem codeLines_ne_localsText {code : List Instruction} {rest : List (List Char)} :
    codeLines 0 code ≠ m.localsText :: rest := by
  cases code with
  | nil => exact List.cons_ne_nil _ _ |>.symm
  | cons i code => exact fun h => codeText_ne_localsText 0 i (List.cons.inj h).1

/-- The line of locals tells them. -/
theorem locals_eq_of_localsText (hm : m.Legible) (hm' : m'.Legible)
    (h : m.localsText = m'.localsText) : m.locals = m'.locals := by
  have hlist := List.append_cancel_right (List.append_cancel_left h)
  have hlocals := Parameter.intercalate_text_inj hm.words_locals hm'.words_locals hlist
  exact Array.toList_inj.mp ((List.map_inj_right fun _ _ => Variable.parameter_inj).mp hlocals)

/-- The lines between the braces tell locals and code. -/
theorem contents_inj (hm : m.Legible) (hm' : m'.Legible) (h : m.contents = m'.contents) :
    m.locals = m'.locals ∧ m.code.map Instruction.shown = m'.code.map Instruction.shown := by
  suffices hboth : m.locals = m'.locals ∧ codeLines 0 m.code.toList = codeLines 0 m'.code.toList by
    refine ⟨hboth.1, Array.toList_inj.mp ?_⟩
    rw [Array.toList_map, Array.toList_map]
    exact shown_eq_of_codeLines hboth.2
  -- the first line shows whether there are locals
  unfold contents localsLines at h
  split at h
  · next hempty =>
    split at h
    · next hempty' =>
      rw [Array.isEmpty_iff] at hempty hempty'
      exact ⟨hempty.trans hempty'.symm, h⟩
    · exact absurd h codeLines_ne_localsText
  · split at h
    · exact absurd h.symm codeLines_ne_localsText
    · obtain ⟨hlocals, hcode⟩ := List.cons.inj h
      exact ⟨locals_eq_of_localsText hm hm' hlocals, hcode⟩

/-- The line of a signature tells what is in it: the type ends at the first blank and the name at
the first parenthesis. -/
theorem signature_inj (hm : m.Legible) (hm' : m'.Legible) (h : m.signature = m'.signature) :
    m.returnType = m'.returnType ∧ m.name = m'.name ∧ m.parameters = m'.parameters := by
  have hopen : Piece.isWordPart '(' = false := by decide
  obtain ⟨htype, hrest⟩ := cut_cons_inj (m.returnType.notMem_spelling (.head _))
    (m'.returnType.notMem_spelling (.head _)) (List.append_cancel_left h)
  obtain ⟨hname, hrest⟩ := cut_cons_inj (hm.name.notMem hopen) (hm'.name.notMem hopen) hrest
  have hparameters := Parameter.intercalate_text_inj hm.words_parameters hm'.words_parameters
    (List.append_cancel_right hrest)
  exact ⟨Ty.spelling_inj (String.toList_inj.mp htype), String.toList_inj.mp hname,
    Array.toList_inj.mp hparameters⟩

theorem mem_contents {line : List Char} (h : line ∈ m.contents) :
    line = m.localsText ∨ ∃ k i, line = codeText k i := by
  rcases List.mem_append.mp h with h | h
  · unfold localsLines at h
    split at h
    · cases h
    · exact .inl (List.mem_singleton.mp h)
  · exact .inr (mem_codeLines h)

/-- No line between the braces is the last one, so a method ends at the first line that is a closing
brace. -/
theorem notMem_contents (m : Method) : ['}'] ∉ m.contents := by
  intro h
  rcases mem_contents h with h | ⟨k, i, h⟩
  · cases h
  · cases h

theorem notMem_codeText (offset : Nat) (i : Instruction) : '\n' ∉ codeText offset i := by
  unfold codeText
  simp only [List.mem_append, not_or]
  exact ⟨by decide, fun hmem => absurd ((isNumeral_padded offset).2 _ hmem) (by decide), by decide,
    i.notMem_text⟩

theorem notMem_localsText (hm : m.Legible) : '\n' ∉ m.localsText := by
  unfold localsText
  simp only [List.mem_append, not_or]
  refine ⟨by decide, Parameter.notMem_intercalate_text hm.words_locals, by decide⟩

theorem notMem_signature (hm : m.Legible) : '\n' ∉ m.signature := by
  unfold signature
  simp only [List.mem_append, List.mem_cons, not_or]
  exact ⟨by decide, m.returnType.notMem_spelling (.tail _ (.tail _ (.head _))), by decide,
    hm.name.notMem (by decide), by decide, Parameter.notMem_intercalate_text hm.words_parameters,
    by decide, List.not_mem_nil⟩

/-- Every line of a method is one, that is, there is no line feed in it. -/
theorem notMem_lines (hm : m.Legible) : ∀ line ∈ m.lines, '\n' ∉ line := by
  intro line hline
  simp only [lines, List.mem_cons, List.mem_append, List.not_mem_nil, or_false] at hline
  rcases hline with rfl | rfl | hline | rfl
  · exact notMem_signature hm
  · decide
  · rcases mem_contents hline with rfl | ⟨k, i, rfl⟩
    · exact notMem_localsText hm
    · exact notMem_codeText k i
  · decide

/-- The lines of a method end with it and tell it, whatever follows them. -/
theorem lines_append_inj (hm : m.Legible) (hm' : m'.Legible) {rest rest' : List (List Char)}
    (h : m.lines ++ rest = m'.lines ++ rest') : m.shown = m'.shown ∧ rest = rest' := by
  obtain ⟨hsignature, htail⟩ := List.cons.inj h
  -- the method ends at the first line that is a closing brace
  obtain ⟨hcontents, hrest⟩ : m.contents = m'.contents ∧ rest = rest' := by
    refine cut_cons_inj m.notMem_contents m'.notMem_contents ?_
    simpa using htail
  obtain ⟨htype, hname, hparameters⟩ := signature_inj hm hm' hsignature
  obtain ⟨hlocals, hcode⟩ := contents_inj hm hm' hcontents
  refine ⟨?_, hrest⟩
  rw [shown, shown, hname, htype, hparameters, hlocals, hcode]

theorem codeLines_shown (offset : Nat) (code : List Instruction) :
    codeLines offset (code.map Instruction.shown) = codeLines offset code := by
  induction code generalizing offset with
  | nil => rfl
  | cons i code ih =>
    rw [List.map_cons, codeLines, codeLines, ih, codeText, codeText, i.text_shown]

/-- What is not shown is not in the lines, so two methods that are shown alike have the same
lines. -/
theorem lines_shown (m : Method) : m.shown.lines = m.lines := by
  have hcode : codeLines 0 m.shown.code.toList = codeLines 0 m.code.toList := by
    show codeLines 0 (m.code.map Instruction.shown).toList = _
    rw [Array.toList_map, codeLines_shown]
  show m.signature :: ['{'] ::
    (m.localsLines ++ codeLines 0 m.shown.code.toList ++ [['}']]) = m.lines
  rw [hcode]
  rfl

end Method

/-- The lines of methods tell them, one after the other. -/
theorem map_shown_of_lines {ms ms' : List Method} (hms : ∀ m ∈ ms, m.Legible)
    (hms' : ∀ m ∈ ms', m.Legible)
    (h : (ms.flatMap fun m => [] :: m.lines) = ms'.flatMap fun m => [] :: m.lines) :
    ms.map Method.shown = ms'.map Method.shown := by
  induction ms generalizing ms' with
  | nil =>
    cases ms' with
    | nil => rfl
    | cons m' ms' => cases h
  | cons m ms ih =>
    cases ms' with
    | nil => cases h
    | cons m' ms' =>
      obtain ⟨hm, hrest⟩ := List.forall_mem_cons.mp hms
      obtain ⟨hm', hrest'⟩ := List.forall_mem_cons.mp hms'
      simp only [List.flatMap_cons, List.cons_append, List.cons.injEq, true_and] at h
      obtain ⟨hshown, htail⟩ := Method.lines_append_inj hm hm' h
      rw [List.map_cons, List.map_cons, hshown, ih hrest hrest' htail]

namespace Program

theorem notMem_lines {p : Program} (hp : p.Legible) : ∀ line ∈ p.lines, '\n' ∉ line := by
  intro line hline
  rcases List.mem_cons.mp hline with rfl | hline
  · rw [List.mem_append, not_or]
    exact ⟨by decide, hp.name⟩
  · obtain ⟨m, hm, hline⟩ := List.mem_flatMap.mp hline
    rcases List.mem_cons.mp hline with rfl | hline
    · exact List.not_mem_nil
    · exact Method.notMem_lines (hp.methods m (Array.mem_toList_iff.mp hm)) line hline

theorem lines_shown (p : Program) : p.shown.lines = p.lines := by
  unfold lines shown
  rw [Array.toList_map, List.flatMap_map]
  simp only [Method.lines_shown]

/-- **A listing tells the program.**  Let the names of two programs have no line feeds, and let all
other names in them be words.  Then their listings are equal exactly if the programs have the same
name and, one by one, methods with the same name, return type, parameters, locals and code, where to
load a truth value is the same as to load the number it is shown as. -/
theorem listing_eq_iff {p q : Program} (hp : p.Legible) (hq : q.Legible) :
    p.listing = q.listing ↔ p.shown = q.shown := by
  constructor
  · -- equal listings have equal lines, and those tell the methods one by one
    intro h
    have hlines : p.lines = q.lines := by
      refine flatMap_concat_inj (notMem_lines hp) (notMem_lines hq) ?_
      rw [← toList_listing, h, toList_listing]
    obtain ⟨hname, hmethods⟩ := List.cons.inj hlines
    have hname := String.toList_inj.mp (List.append_cancel_left hname)
    have hshown := map_shown_of_lines (fun m hm => hp.methods m (Array.mem_toList_iff.mp hm))
      (fun m hm => hq.methods m (Array.mem_toList_iff.mp hm)) hmethods
    rw [← Array.toList_map, ← Array.toList_map] at hshown
    rw [shown, shown, hname, Array.toList_inj.mp hshown]
  · -- the lines do not depend on what is not shown
    intro h
    rw [← String.toList_inj, toList_listing, toList_listing, ← lines_shown p, h, lines_shown]

/-- A program with two methods, of which the first loads something.  Its name has marks in it that
the other names may not have. -/
def loading (operation : Operation) : Program where
  name := "a, b (c)"
  methods := #[
    { name := "main", returnType := .void, locals := #[⟨"x_1", .bool⟩, ⟨"y", .ref⟩],
      code := #[.plain operation, .branchIfFalse (.offset 12345), .branch (.pending 7)] },
    { name := "f", returnType := .unknown, parameters := #[⟨.int, some "int"⟩, ⟨.string, none⟩],
      code := #[.plain (.convert .ref .int), .plain .ret] }]

theorem legible_loading (operation : Operation) : (loading operation).Legible where
  name := by
    show '\n' ∉ "a, b (c)".toList
    decide
  methods m hm := by
    have hwords (name : String) (h : name ∈ ["main", "f", "x_1", "y", "int"]) :
        IsWord name.toList := by
      simp only [List.mem_cons, List.not_mem_nil, or_false] at h
      rcases h with rfl | rfl | rfl | rfl | rfl <;> decide
    have hm : m ∈ (loading operation).methods.toList := Array.mem_toList_iff.mpr hm
    simp only [loading, List.mem_cons, List.not_mem_nil, or_false] at hm
    rcases hm with rfl | rfl
    · refine ⟨hwords _ (by simp), by simp, fun v hv => hwords _ ?_⟩
      rcases (by simpa using hv : v = ⟨"x_1", .bool⟩ ∨ v = ⟨"y", .ref⟩) with rfl | rfl <;> simp
    · refine ⟨hwords _ (by simp), fun p hp name hname => hwords _ ?_, by simp⟩
      rcases (by simpa using hp : p = ⟨.int, some "int"⟩ ∨ p = ⟨.string, none⟩) with rfl | rfl <;>
        cases hname
      simp

theorem listing_eq_iff_loading :
    (loading (.loadBool true)).listing = (loading (.loadInt 1)).listing ∧
      (loading (.loadBool true)).listing ≠ (loading (.loadInt 2)).listing :=
  ⟨(listing_eq_iff (legible_loading _) (legible_loading _)).mpr (by decide +kernel),
    mt (listing_eq_iff (legible_loading _) (legible_loading _)).mp (by decide +kernel)⟩

end Program

end OnePass
