import OnePass.Proofs.Typing

/-!
# The operand stack

A check of the types on the operand stack, in one scan over the code of a method.  The
scan follows the order of the code and not the branches: a branch is only allowed where
the stack is empty, and so is a label.

Every method of a program passes the check, if names have their declared types.  The
code of an expression pushes one value of its type, whatever is below it; an assignment
takes its value away again, and can only be used where the stack is empty.

## Main definitions

* `Operation.step?`, `Instruction.step?` — what an instruction does to the types on the stack.
* `Method.wellStacked` — the check.
* `Fragment.Sound` — the code of a fragment starts and ends with an empty stack.

## Main results

* `Expr.runs` — the code of an expression pushes a value of its type.
* `Items.sound` — statements leave the stack empty.
* `wellStacked_of_compile` — **every method passes the check**.
-/

namespace OnePass

/-! ### The check -/

/-- The type of a local variable. -/
def Program.localType? (p : Program) (slot : LocalSlot) : Option Ty :=
  (p.methods[slot.method]?.bind (·.locals[slot.index]?)).map Variable.type

/-- The type of the parameter with an ordinal.  Ordinals are counted from one. -/
def Method.parameterType? (m : Method) : Nat → Option Ty
  | 0 => none
  | k + 1 => m.parameters[k]?.map Parameter.type

/-- Whether the method can return with this stack: without a value if it is `void`, and with
one value of an accepted type otherwise.  The last instruction can also return without a
value. -/
def Method.returns (m : Method) (last : Bool) : List Ty → Bool
  | [] => last || m.returnType = .void
  | [ty] => m.returnType ≠ .void && m.returnType.accepts ty
  | _ => false

/-- The types on the stack after an operation that does not return, the top first, unless it must
not be used here.  What takes a value away without leaving one needs a stack with nothing below. -/
def Operation.step? (p : Program) (m : Method) : Operation → List Ty → Option (List Ty)
  | .loadInt _, stack => some (.int :: stack)
  | .loadBool _, stack => some (.bool :: stack)
  | .loadLocal slot, stack => (p.localType? slot).map (· :: stack)
  | .loadArg ordinal, stack => (m.parameterType? ordinal).map (· :: stack)
  | .storeLocal slot, [ty] => if p.localType? slot = some ty then some [] else none
  | .unary .negate, .int :: stack => some (.int :: stack)
  -- a plus sign between strings is a `concat`
  | .additive op, right :: left :: stack =>
    if op = .add ∧ left = .string then none
    else (Ty.binary? op.symbol left right).map (· :: stack)
  | .concat, right :: left :: stack =>
    if left = .string then (Ty.binary? .plus left right).map (· :: stack) else none
  | .multiplicative op, right :: left :: stack =>
    (Ty.binary? op.symbol left right).map (· :: stack)
  | .compare _, right :: left :: stack =>
    if left = right ∧ left ≠ .void then some (.bool :: stack) else none
  | .convert target source, ty :: stack =>
    if ty = source ∧ target.accepts source then some (target :: stack) else none
  | .pop, [_] => some []
  | .print, [_] => some []
  | _, _ => none

/-- The types on the stack after an instruction.  `last` tells whether it is the last one of its
method. -/
def Instruction.step? (p : Program) (m : Method) (last : Bool) :
    Instruction → List Ty → Option (List Ty)
  | .plain .ret, stack => if m.returns last stack then some [] else none
  | .plain operation, stack => operation.step? p m stack
  | .branch _, [] => some []
  | .branchIfFalse _, [.bool] => some []
  | _, _ => none

/-- The types on the stack after the code that begins at an offset.  Where there is a label the
stack has to be empty, as it is where branches leave for it. -/
def Method.scan? (p : Program) (m : Method) : Nat → List Instruction → List Ty → Option (List Ty)
  | offset, [], stack => if .bound offset ∈ m.labels → stack = [] then some stack else none
  | offset, i :: code, stack =>
    if .bound offset ∈ m.labels → stack = [] then
      (i.step? p m code.isEmpty stack).bind (m.scan? p (offset + 1) code)
    else none

/-- **The check of a method**: its code can be scanned from an empty stack. -/
def Method.wellStacked (p : Program) (m : Method) : Bool := (m.scan? p 0 m.code.toList []).isSome

/-! ### Straight runs -/

/-- The types on the stack after some code, labels apart, none of it the last of its method. -/
def Method.run? (p : Program) (m : Method) : List Instruction → List Ty → Option (List Ty)
  | [], stack => some stack
  | i :: code, stack => (i.step? p m false stack).bind (m.run? p code)

section

variable {p : Program} {m : Method}

/-- Code that follows other code finds the stack as that has left it. -/
theorem Method.run?_append (code code' : List Instruction) (stack : List Ty) :
    m.run? p (code ++ code') stack = (m.run? p code stack).bind (m.run? p code') := by
  induction code generalizing stack with
  | nil => rfl
  | cons i code ih =>
    rw [List.cons_append, run?, run?, Option.bind_assoc]
    exact congrArg _ (funext ih)

/-- Where a method may return before its end it may return at its end. -/
theorem Method.returns_of_false {last : Bool} : ∀ {stack : List Ty},
    m.returns false stack = true → m.returns last stack = true
  | [], h => by
    rw [returns, Bool.false_or] at h
    rw [returns, h, Bool.or_true]
  | [_], h => h

/-- What an instruction may do in the middle of the code it may do at its end. -/
theorem Instruction.step?_of_false {i : Instruction} {last : Bool} {stack stack' : List Ty}
    (h : i.step? p m false stack = some stack') : i.step? p m last stack = some stack' := by
  unfold step? at h ⊢
  split at h
  · split at h
    · next hreturns => rwa [if_pos (Method.returns_of_false hreturns)]
    · cases h
  all_goals exact h

/-- A scan begins with the straight run, if that leaves the stack empty where labels are. -/
theorem Method.scan?_append {code : List Instruction} {stack stack' : List Ty}
    (tail : List Instruction) (hrun : m.run? p code stack = some stack') (offset : Nat)
    (hlabels : ∀ k < code.length, .bound (offset + k) ∈ m.labels →
      m.run? p (code.take k) stack = some []) :
    m.scan? p offset (code ++ tail) stack = m.scan? p (offset + code.length) tail stack' := by
  induction code generalizing stack offset with
  | nil =>
    obtain rfl := Option.some.inj hrun
    rfl
  | cons i code ih =>
    obtain ⟨stack₁, hstep, hrest⟩ := Option.bind_eq_some_iff.mp hrun
    -- the label at the beginning, if there is one, is the case of no code at all
    have hhere : .bound offset ∈ m.labels → stack = [] := fun hlabel =>
      Option.some.inj (hlabels 0 (Nat.succ_pos _) hlabel)
    rw [List.cons_append, scan?, if_pos hhere, Instruction.step?_of_false hstep, Option.bind_some,
      ih hrest]
    · rw [List.length_cons, Nat.add_right_comm, Nat.add_assoc]
    · intro k hk hlabel
      rw [Nat.add_right_comm, Nat.add_assoc] at hlabel
      have hprefix := hlabels (k + 1) (Nat.succ_lt_succ hk) hlabel
      rwa [List.take_succ_cons, run?, hstep, Option.bind_some] at hprefix

/-! ### Expressions -/

/-- What a binding says of a variable is what the program knows of it.  Nothing is said by a name
that is no variable. -/
def Program.Knows (p : Program) : Binding → Prop
  | .variable ty slot => p.localType? slot = some ty
  | .parameter ty slot =>
    ∃ m, p.methods[slot.method]? = some m ∧ m.parameterType? slot.ordinal = some ty
  | .inert => True

/-- The site is in the method of the program, and its names stand for variables of it.  All types
are known, as names have their declared ones. -/
structure Site.Inside (σ : Site) (p : Program) (m : Method) : Prop where
  typing : σ.options.typing = .declared
  valued : σ.Valued
  known : ∀ names ∈ σ.names, ∀ {x : String} {b : Binding}, names x = some b → p.Knows b
  method : p.methods[σ.method]? = some m
  returnType : m.returnType = σ.returnType
  returnType_ne : m.returnType ≠ .unknown

variable {σ : Site}

/-- A name that can be loaded pushes a value of its type. -/
theorem Site.Inside.step?_load (hσ : σ.Inside p m) {x : String} {ty : Ty} {operation : Operation}
    (h : σ.load? x = some (ty, operation)) (stack : List Ty) :
    (Instruction.plain operation).step? p m false stack = some (ty :: stack) := by
  -- the scope in which the name was found says what the program knows
  have hfind {b : Binding} (hb : σ.find? x = some b) : p.Knows b := by
    obtain ⟨names, hnames, hx⟩ := List.exists_of_findSome?_eq_some hb
    exact hσ.known names hnames hx
  unfold load? at h
  split at h
  · next declared slot hb =>
    split at h
    · have hlocal : p.localType? slot = some declared := hfind hb
      rw [variableType, hσ.typing] at h
      cases h
      show (p.localType? slot).map _ = _
      rw [hlocal]
      rfl
    · cases h
  · next declared slot hb =>
    split at h
    · next hmethod =>
      obtain ⟨m', hm', hparameter⟩ := hfind hb
      cases h
      rw [hmethod, hσ.method] at hm'
      obtain rfl := Option.some.inj hm'
      show (m.parameterType? slot.ordinal).map _ = _
      rw [hparameter]
      rfl
    · cases h
  · cases h
  · cases h

/-- A variable that can be stored is in one of the scopes. -/
theorem Site.exists_of_store? {x : String} {ty : Ty} {slot : LocalSlot}
    (h : σ.store? x = some (ty, slot)) : ∃ names ∈ σ.names, names x = some (.variable ty slot) := by
  unfold store? at h
  split at h
  · next declared slot' hb =>
    split at h
    · cases h
      exact List.exists_of_findSome?_eq_some hb
    · cases h
  · cases h

/-- The code of an expression pushes a value of the type.  Code without a value takes away what it
pushes, and needs an empty stack. -/
def Method.Pushes (p : Program) (m : Method) (code : List Operation) (ty : Ty) : Prop :=
  (ty ≠ .void → ∀ stack, m.run? p (code.map .plain) stack = some (ty :: stack)) ∧
  (ty = .void → m.run? p (code.map .plain) [] = some [])

theorem Method.pushes_of_ne {code : List Operation} {ty : Ty} (hne : ty ≠ .void)
    (h : ∀ stack, m.run? p (code.map .plain) stack = some (ty :: stack)) : m.Pushes p code ty :=
  ⟨fun _ => h, fun hvoid => absurd hvoid hne⟩

/-- Two operands and an operation on them, whatever is below them on the stack. -/
theorem Method.run?_binary {cl cr : List Operation} {tl tr ty : Ty} {operation : Operation}
    (hl : m.Pushes p cl tl) (hr : m.Pushes p cr tr) (hltype : tl ≠ .void) (hrtype : tr ≠ .void)
    (h : ∀ stack, (Instruction.plain operation).step? p m false (tr :: tl :: stack) =
      some (ty :: stack)) (stack : List Ty) :
    m.run? p ((cl ++ cr ++ [operation]).map .plain) stack = some (ty :: stack) := by
  rw [List.map_append, List.map_append, run?_append, run?_append, hl.1 hltype, Option.bind_some,
    hr.1 hrtype, Option.bind_some, List.map_singleton, run?, h]
  rfl

/-- An additive operation on two values.  What a plus sign stands for depends on the type to its
left. -/
theorem AdditiveOp.step?_operation (op : AdditiveOp) {left right ty : Ty}
    (h : Ty.binary? op.symbol left right = some ty) (stack : List Ty) :
    (Instruction.plain (op.operation left)).step? p m false (right :: left :: stack) =
      some (ty :: stack) := by
  unfold operation
  split
  · next hconcat =>
    obtain ⟨rfl, rfl⟩ := hconcat
    show (if Ty.string = .string then (Ty.binary? .plus .string right).map _ else none) = _
    rw [if_pos rfl, show Ty.binary? .plus .string right = some ty from h]
    rfl
  · next hconcat =>
    show (if op = .add ∧ left = .string then none else _) = _
    rw [if_neg hconcat, h]
    rfl

/-- The operand of a sign is a number, if its type is known. -/
theorem Ty.unary?_eq_some {operand ty : Ty} (h : Ty.unary? operand = some ty)
    (hne : operand ≠ .unknown) : operand = .int ∧ ty = .int := by
  cases operand <;> simp_all [Ty.unary?]

/-- What has no value is accepted nowhere, if the type that is asked for is known. -/
theorem Ty.accepts_ne_void {target source : Ty} (h : target.accepts source = true)
    (ht : target ≠ .unknown) : source ≠ .void := by
  rintro rfl
  simp [Ty.accepts, ht] at h

/-- **The code of an expression pushes a value of its type.**  By induction on the expression, with
any stack below: the left operand is below while the right one is computed. -/
theorem Expr.runs (hσ : σ.Inside p m) : ∀ {r : Rung} {e : Expr r} {ty : Ty}
    {code : List Operation}, e.lower? σ = some (ty, code) → m.Pushes p code ty
  | _, .number _, _, _, h => by
    obtain ⟨rfl, rfl⟩ := Prod.mk.inj (Option.some.inj h)
    exact Method.pushes_of_ne (by decide) fun _ => rfl
  | _, .boolean _, _, _, h => by
    obtain ⟨rfl, rfl⟩ := Prod.mk.inj (Option.some.inj h)
    exact Method.pushes_of_ne (by decide) fun _ => rfl
  | _, .name _, _, _, h => by
    obtain ⟨operation, hload, rfl⟩ := lower?_name.mp h
    refine Method.pushes_of_ne (Site.load?_ne_void hσ.valued hload) fun stack => ?_
    rw [List.map_singleton, Method.run?, hσ.step?_load hload]
    rfl
  | _, .assign _ value, _, _, h => by
    obtain ⟨found, values, target, slot, hvalue, hstore, haccepts, rfl, rfl⟩ := lower?_assign.mp h
    refine ⟨fun hne => absurd rfl hne, fun _ => ?_⟩
    -- the value is converted to the type of the local, which takes it off the stack
    obtain ⟨names, hnames, hx⟩ := Site.exists_of_store? hstore
    have htarget : target ≠ .unknown := (hσ.valued names hnames hx).2
    have hlocal : p.localType? slot = some target := hσ.known names hnames hx
    have hfound := (runs hσ hvalue).1 (Ty.accepts_ne_void haccepts htarget) []
    have hconvert : (Instruction.plain (.convert target found)).step? p m false [found] =
        some [target] := if_pos ⟨rfl, haccepts⟩
    have hstored : (Instruction.plain (.storeLocal slot)).step? p m false [target] = some [] :=
      if_pos hlocal
    rw [List.map_append, Method.run?_append, hfound, Option.bind_some, List.map_cons, Method.run?,
      hconvert, Option.bind_some, List.map_singleton, Method.run?, hstored]
    rfl
  | _, .factor e, _, _, h => runs hσ (e := e) h
  | _, .product _ _ _, _, _, h => by
    obtain ⟨tl, cl, tr, cr, hl, hr, hty, rfl⟩ := lower?_product.mp h
    obtain ⟨hltype, hty⟩ := Ty.operate?_eq_some.mp hty
    -- an assignment to the right would leave no value, and would not find an empty stack
    have hrtype := Ty.right_ne_void_of_binary? hty (ne_unknown_of_lower? hσ.typing hσ.valued hl)
    refine Method.pushes_of_ne (Ty.binary?_ne_void hty)
      (Method.run?_binary (runs hσ hl) (runs hσ hr) hltype hrtype fun stack => ?_)
    show (Ty.binary? _ tl tr).map _ = _
    rw [hty]
    rfl
  | _, .unsigned e, _, _, h => runs hσ (e := e) h
  | _, .first e, _, _, h => runs hσ (e := e) h
  | _, .signed sign e, _, _, h => by
    obtain ⟨operand, operations, he, hty, rfl⟩ := lower?_signed.mp h
    have hne := ne_unknown_of_lower? hσ.typing hσ.valued he
    obtain ⟨rfl, rfl⟩ := Ty.unary?_eq_some hty hne
    refine Method.pushes_of_ne (by decide) fun stack => ?_
    rw [List.map_append, Method.run?_append, (runs hσ he).1 (by decide), Option.bind_some]
    cases sign <;> rfl
  | _, .sum _ op _, _, _, h => by
    obtain ⟨tl, cl, tr, cr, hl, hr, hty, rfl⟩ := lower?_sum.mp h
    obtain ⟨hltype, hty⟩ := Ty.operate?_eq_some.mp hty
    have hrtype := Ty.right_ne_void_of_binary? hty (ne_unknown_of_lower? hσ.typing hσ.valued hl)
    exact Method.pushes_of_ne (Ty.binary?_ne_void hty)
      (Method.run?_binary (runs hσ hl) (runs hσ hr) hltype hrtype (op.step?_operation hty))
  | _, .single e, _, _, h => runs hσ (e := e) h
  | _, .comparison _ op _, _, _, h => by
    obtain ⟨tl, cl, tr, cr, hl, hr, ⟨hltype, hcomparable⟩, rfl, rfl⟩ := lower?_comparison.mp h
    have hlknown := ne_unknown_of_lower? hσ.typing hσ.valued hl
    have hrknown := ne_unknown_of_lower? hσ.typing hσ.valued hr
    obtain rfl := Ty.eq_of_comparable hcomparable hlknown hrknown
    exact Method.pushes_of_ne (by decide)
      (Method.run?_binary (runs hσ hl) (runs hσ hr) hltype hltype fun _ => if_pos ⟨rfl, hltype⟩)

/-! ### Fragments -/

/-- What the fragment brings stands in the program where the site says: its locals behind those that
are there, and its methods behind those that are there. -/
structure Fragment.Hosted (f : Fragment) (p : Program) (σ : Site) : Prop where
  locals : ∀ {i : Nat} {v : Variable}, f.locals[i]? = some v →
    p.localType? ⟨σ.method, σ.locals + i⟩ = some v.type
  methods : ∀ {j : Nat} {m : Method}, f.methods[j]? = some m → p.methods[σ.methods + j]? = some m

variable {f g : Fragment}

/-- The locals of a method are those of its fragment. -/
theorem Fragment.localType?_of_method {k : MethodId} {name : String} {returnType : Ty}
    {parameters : List Declarator}
    (hm : p.methods[k]? = some (f.method name returnType parameters)) {i : Nat} {v : Variable}
    (hv : f.locals[i]? = some v) : p.localType? ⟨k, i⟩ = some v.type := by
  simp [Program.localType?, hm, Fragment.method, hv]

/-- The first of two fragments stands where both do. -/
theorem Fragment.Hosted.left (h : (f ++ g).Hosted p σ) : f.Hosted p σ where
  locals hv := h.locals <| by
    rwa [append_locals, List.getElem?_append_left (List.getElem?_eq_some_iff.mp hv).1]
  methods hm := h.methods <| by
    rwa [append_methods, List.getElem?_append_left (List.getElem?_eq_some_iff.mp hm).1]

/-- The second one stands behind the first. -/
theorem Fragment.Hosted.right (h : (f ++ g).Hosted p σ) : g.Hosted p (σ.past f) where
  locals {i v} hv := by
    rw [Site.past, Nat.add_assoc]
    exact h.locals (by rwa [append_locals, List.getElem?_append_right (Nat.le_add_right _ _),
      Nat.add_sub_cancel_left])
  methods {j m} hm := by
    rw [Site.past, Nat.add_assoc]
    exact h.methods (by rwa [append_methods, List.getElem?_append_right (Nat.le_add_right _ _),
      Nat.add_sub_cancel_left])

/-- The stack is empty at an offset of the fragment, which may be the one behind its code. -/
def Fragment.EmptyAt (f : Fragment) (p : Program) (m : Method) (start offset : Nat) : Prop :=
  ∃ k ≤ f.code.length, start + k = offset ∧ m.run? p (f.code.take k) [] = some []

/-- The code of the fragment, which stands at an offset of the method, leaves the stack empty, also
where its labels are; and the program knows its variables and methods. -/
structure Fragment.Sound (f : Fragment) (p : Program) (m : Method) (start : Nat) : Prop where
  run : m.run? p f.code [] = some []
  labels : ∀ l ∈ f.labels, f.EmptyAt p m start l
  names : ∀ x ∈ f.names, p.Knows x.2 ∧ x.2.Valued
  methods : ∀ m' ∈ f.methods, m'.wellStacked p = true

namespace Fragment

variable {start offset : Nat}

theorem emptyAt_start : f.EmptyAt p m start start := ⟨0, Nat.zero_le _, rfl, rfl⟩

theorem emptyAt_end (h : m.run? p f.code [] = some []) (hoffset : start + f.code.length = offset) :
    f.EmptyAt p m start offset :=
  ⟨f.code.length, Nat.le_refl _, hoffset, by rwa [List.take_length]⟩

theorem EmptyAt.left (h : f.EmptyAt p m start offset) (g : Fragment) :
    (f ++ g).EmptyAt p m start offset := by
  obtain ⟨k, hk, hoffset, hrun⟩ := h
  refine ⟨k, ?_, hoffset, ?_⟩
  · rw [append_code, List.length_append]
    omega
  · rwa [append_code, List.take_append_of_le_length hk]

/-- Offsets of the second fragment are counted from behind the first. -/
theorem EmptyAt.right (h : g.EmptyAt p m (start + f.code.length) offset)
    (hf : m.run? p f.code [] = some []) : (f ++ g).EmptyAt p m start offset := by
  obtain ⟨k, hk, hoffset, hrun⟩ := h
  refine ⟨f.code.length + k, ?_, by omega, ?_⟩
  · rw [append_code, List.length_append]
    omega
  · rw [append_code, List.take_length_add_append, Method.run?_append, hf, Option.bind_some, hrun]

theorem run?_append (hf : m.run? p f.code [] = some []) (hg : m.run? p g.code [] = some []) :
    m.run? p (f ++ g).code [] = some [] := by
  rw [append_code, Method.run?_append, hf, Option.bind_some, hg]

/-- The labels of a fragment may lie in what comes behind it, as that of a branch over a body
does. -/
theorem sound_append (hrun : m.run? p f.code [] = some [])
    (hlabels : ∀ l ∈ f.labels, (f ++ g).EmptyAt p m start l)
    (hnames : ∀ x ∈ f.names, p.Knows x.2 ∧ x.2.Valued)
    (hmethods : ∀ m' ∈ f.methods, m'.wellStacked p = true)
    (hg : g.Sound p m (start + f.code.length)) : (f ++ g).Sound p m start where
  run := run?_append hrun hg.run
  labels l hl := by
    rcases List.mem_append.mp hl with hl | hl
    · exact hlabels l hl
    · exact (hg.labels l hl).right hrun
  names x hx := by
    rcases List.mem_append.mp hx with hx | hx
    · exact hnames x hx
    · exact hg.names x hx
  methods m' hm := by
    rcases List.mem_append.mp hm with hm | hm
    · exact hmethods m' hm
    · exact hg.methods m' hm

theorem Sound.append (hf : f.Sound p m start) (hg : g.Sound p m (start + f.code.length)) :
    (f ++ g).Sound p m start :=
  sound_append hf.run (fun l hl => (hf.labels l hl).left g) hf.names hf.methods hg

/-- Code without labels and names is sound if it leaves the stack empty. -/
theorem sound_plain {code : List Operation} (h : m.run? p (code.map .plain) [] = some []) :
    (plain code).Sound p m start where
  run := h
  labels := List.forall_mem_nil _
  names := List.forall_mem_nil _
  methods := List.forall_mem_nil _

theorem sound_empty : ({} : Fragment).Sound p m start where
  run := rfl
  labels := List.forall_mem_nil _
  names := List.forall_mem_nil _
  methods := List.forall_mem_nil _

/-- A condition and the branch that takes it away leave the stack empty. -/
theorem run?_condition {code : List Operation} (h : m.Pushes p code .bool) (target : Target)
    (labels : List Nat) :
    m.run? p (jump code (.branchIfFalse target) labels).code [] = some [] := by
  rw [jump, Method.run?_append, h.1 (by decide)]
  rfl

/-- The code of a method passes the check, with the return that may have been added to it. -/
theorem Sound.wellStacked {name : String} {returnType : Ty} {parameters : List Declarator}
    (h : f.Sound p (f.method name returnType parameters) 0) :
    (f.method name returnType parameters).wellStacked p = true := by
  -- every label of the method is one of the fragment
  have hlabels {k : Nat} (hk : .bound k ∈ (f.method name returnType parameters).labels) :
      f.EmptyAt p (f.method name returnType parameters) 0 k := by
    obtain ⟨l, hl, heq⟩ := List.mem_map.mp (List.mem_toArray.mp hk)
    exact LabelState.bound.inj heq ▸ h.labels l hl
  have hscan (tail : List Instruction) := Method.scan?_append tail h.run 0 fun k hk hlabel => by
    obtain ⟨k', -, hk', hrun⟩ := hlabels hlabel
    rwa [Nat.add_left_cancel hk'] at hrun
  show (Method.scan? p _ 0 f.closedCode []).isSome = true
  unfold closedCode
  split
  · rw [← List.append_nil f.code, hscan, Method.scan?, if_pos fun _ => rfl]
    rfl
  · -- the return at the end finds the stack empty
    rw [hscan, Method.scan?, if_pos fun _ => rfl]
    show (Method.scan? p _ _ [] []).isSome = true
    rw [Method.scan?, if_pos fun _ => rfl]
    rfl

end Fragment

/-- A condition is of type `bool`, since no type is unknown. -/
theorem Expr.pushes_condition (hσ : σ.Inside p m) {e : Expr .relation} {code : List Operation}
    (h : e.lowerTo? σ .bool = some code) : m.Pushes p code .bool := by
  obtain ⟨found, he, haccepts⟩ := lowerTo?_eq_some.mp h
  have hknown := ne_unknown_of_lower? hσ.typing hσ.valued he
  have hbool : found = .bool := by
    cases found <;> first | rfl | exact absurd rfl hknown | exact absurd haccepts (by decide)
  exact hbool ▸ runs hσ he

/-- What holds of all names at a site and of those of a fragment holds of all names behind it. -/
theorem Site.forall_names_past {P : Binding → Prop}
    (h : ∀ names ∈ σ.names, ∀ {x : String} {b : Binding}, names x = some b → P b)
    (hf : ∀ x ∈ f.names, P x.2) :
    ∀ names ∈ (σ.past f).names, ∀ {x : String} {b : Binding}, names x = some b → P b := by
  obtain ⟨options, names, method, returnType, locals, offset, methods, loop⟩ := σ
  cases names with
  | nil => exact h
  | cons head names =>
    intro names' hnames' x b hb
    rcases List.mem_cons.mp hnames' with rfl | hnames'
    · rcases Names.mem_of_declareAll hb with hx | hhead
      · exact hf _ hx
      · exact h head (.head _) hhead
    · exact h names' (.tail _ hnames') hb

/-- In the body of a method every name that stands for a variable has a type with values, if
this is so around the method. -/
theorem Site.Valued.body (hσ : σ.Valued) (returnType : Ty) (x : String)
    {parameters : List Declarator} (hvoid : ∀ d ∈ parameters, d.type.ty ≠ .void) :
    (σ.body returnType x parameters).Valued := by
  intro names hnames y b hb
  rcases List.mem_cons.mp hnames with rfl | hnames
  · exact Declarator.valued_of_bindings hvoid hb
  · exact Site.forall_names_past (f := ⟨[(x, .inert)], [], [], [], []⟩) hσ
      (by simp [Binding.Valued]) names hnames hb

namespace Site.Inside

/-- Behind a fragment whose names are known the site is still inside. -/
theorem past (hσ : σ.Inside p m) (hf : ∀ x ∈ f.names, p.Knows x.2 ∧ x.2.Valued) :
    (σ.past f).Inside p m where
  typing := hσ.typing
  valued := Site.forall_names_past hσ.valued fun x hx => (hf x hx).2
  known := Site.forall_names_past hσ.known fun x hx => (hf x hx).1
  method := hσ.method
  returnType := hσ.returnType
  returnType_ne := hσ.returnType_ne

theorem within (hσ : σ.Inside p m) (exits : Exits) : (σ.within exits).Inside p m :=
  ⟨hσ.typing, hσ.valued, hσ.known, hσ.method, hσ.returnType, hσ.returnType_ne⟩

/-- The body of a method of the program is inside that method.  Its parameters are in a scope of
their own, around which are the names of the site. -/
theorem body (hσ : σ.Inside p m) {f : Fragment} {x : String} {returnType : Ty}
    {parameters : List Declarator} (hreturn : returnType ≠ .unknown)
    (hvoid : ∀ d ∈ parameters, d.type.ty ≠ .void)
    (hmethod : p.methods[σ.methods]? = some (f.method x returnType parameters)) :
    (σ.body returnType x parameters).Inside p (f.method x returnType parameters) where
  typing := hσ.typing
  valued := hσ.valued.body returnType x hvoid
  known names hnames y b hb := by
    rcases List.mem_cons.mp hnames with rfl | hnames
    · rcases Names.mem_of_declareAll hb with hb | hnone
      · obtain ⟨⟨d, i⟩, hd, heq⟩ := List.mem_map.mp hb
        obtain ⟨-, rfl⟩ := Prod.mk.inj heq
        refine ⟨_, hmethod, ?_⟩
        have hd := List.mem_zipIdx_iff_getElem?.mp hd
        simp [Method.parameterType?, Fragment.method, hd]
      · cases hnone
    · exact Site.forall_names_past (f := ⟨[(x, .inert)], [], [], [], []⟩) hσ.known
        (by simp [Program.Knows]) names hnames hb
  method := hmethod
  returnType := rfl
  returnType_ne := hreturn

end Site.Inside

/-- Parameters of a header that is well formed have types with values. -/
theorem Declarator.ne_void_of_wellFormed {parameters : List Declarator} {comma : Bool}
    (h : wellFormed parameters comma = true) : ∀ d ∈ parameters, d.type.ty ≠ .void := by
  simp only [wellFormed, Bool.and_eq_true, List.all_eq_true, decide_eq_true_eq] at h
  exact h.1.1.1

/-! ### Statements -/

mutual

/-- Statements leave the stack empty.  The offsets of their labels are counted from the site, and
each of them is shown to be a place where that is so. -/
theorem Stmt.sound : ∀ (t : Stmt) {σ : Site} {f : Fragment} {m : Method}, t.lower? σ = some f →
    σ.Inside p m → f.Hosted p σ → f.Sound p m σ.offset
  | .block items, _, _, _, h, hσ, hf => items.sound h hσ hf
  | .branch condition body, σ, _, m, h, hσ, hf => by
    obtain ⟨code, hcode, g, hg, rfl⟩ := Stmt.lower?_branch.mp h
    have hlength := body.length_code hg
    have hhead : m.run? p (σ.skip code body.size).code [] = some [] :=
      Fragment.run?_condition (Expr.pushes_condition hσ hcode) _ _
    have hbody := body.sound hg (hσ.past (List.forall_mem_nil _)) hf.right
    refine Fragment.sound_append hhead (fun l hl => ?_) (List.forall_mem_nil _)
      (List.forall_mem_nil _) hbody
    -- behind the body
    obtain rfl := List.mem_singleton.mp hl
    apply Fragment.emptyAt_end (Fragment.run?_append hhead hbody.run)
    rw [Fragment.append_code, List.length_append, Site.length_skip]
    omega
  | .choice condition body other, σ, _, m, h, hσ, hf => by
    obtain ⟨code, hcode, g, hg, g', hg', rfl⟩ := Stmt.lower?_choice.mp h
    have hlength := body.length_code hg
    have hlength' := other.length_code hg'
    have hhead : m.run? p (σ.skip code (body.size + 1)).code [] = some [] :=
      Fragment.run?_condition (Expr.pushes_condition hσ hcode) _ _
    -- the body finds the stack empty behind the condition, and the alternative behind the jump
    have hbody := body.sound hg (hσ.past (List.forall_mem_nil _)) hf.left.left.right
    have hfront := Fragment.run?_append hhead hbody.run
    have hmiddle : m.run? p (σ.skip code (body.size + 1) ++ g ++
        (σ.past (σ.skip code (body.size + 1) ++ g)).leap other.size).code [] = some [] :=
      Fragment.run?_append hfront rfl
    have hnames : ∀ x ∈ (σ.skip code (body.size + 1) ++ g ++
        (σ.past (σ.skip code (body.size + 1) ++ g)).leap other.size).names,
        p.Knows x.2 ∧ x.2.Valued := fun x hx =>
      hbody.names x (by simpa [Site.skip, Site.leap, Fragment.jump] using hx)
    have hother := other.sound hg' (hσ.past hnames) hf.right
    refine Fragment.sound_append hmiddle (fun l hl => ?_) hnames
      (fun m' hm' => hbody.methods m' (by simpa [Site.skip, Site.leap] using hm')) hother
    rcases List.mem_append.mp hl with hl | hl
    · rcases List.mem_append.mp hl with hl | hl
      · -- before the alternative
        obtain rfl := List.mem_singleton.mp hl
        apply (Fragment.emptyAt_end hmiddle ?_).left
        simp only [Fragment.append_code, List.length_append, Site.length_skip, Site.length_leap]
        omega
      · exact (((hbody.labels l hl).right hhead).left _).left _
    · -- behind the alternative
      obtain rfl := List.mem_singleton.mp hl
      apply Fragment.emptyAt_end (Fragment.run?_append hmiddle hother.run)
      simp only [Fragment.append_code, List.length_append, Site.length_skip, Site.length_leap,
        Site.past]
      omega
  | .loop condition body, σ, _, m, h, hσ, hf => by
    obtain ⟨code, hcode, g, hg, rfl⟩ := Stmt.lower?_loop.mp h
    have hlength := body.length_code hg
    have hhead : m.run? p (σ.round code body.size).code [] = some [] :=
      Fragment.run?_condition (Expr.pushes_condition hσ hcode) _ _
    have hinside := (hσ.past (f := σ.round code body.size) (List.forall_mem_nil _)).within
      (σ.exits code body.size)
    have hbody := body.sound hg hinside ⟨hf.left.right.locals, hf.left.right.methods⟩
    have hround := Fragment.run?_append hhead hbody.run
    have hrun : m.run? p (σ.round code body.size ++ g ++ σ.again).code [] = some [] :=
      Fragment.run?_append hround rfl
    refine ⟨hrun, fun l hl => ?_, fun x hx => ?_, fun m' hm' => ?_⟩
    · have hl : l ∈ [σ.offset, σ.offset + code.length + 1 + body.size + 1] ++ g.labels := by
        simpa [Site.round, Site.again, Fragment.jump] using hl
      rcases List.mem_append.mp hl with hl | hl
      · rcases List.mem_cons.mp hl with rfl | hl
        · exact Fragment.emptyAt_start
        · -- behind the loop
          obtain rfl := List.mem_singleton.mp hl
          apply Fragment.emptyAt_end hrun
          simp only [Fragment.append_code, List.length_append, Site.length_round, Site.length_again]
          omega
      · exact ((hbody.labels l hl).right hhead).left _
    · exact hbody.names x (by simpa [Site.round, Site.again, Fragment.jump] using hx)
    · exact hbody.methods m' (by simpa [Site.round, Site.again] using hm')
  | .expression e, _, _, _, h, hσ, _ => by
    obtain ⟨ty, code, he, rfl⟩ := Stmt.lower?_expression.mp h
    have hvoid := Expr.eq_void_iff hσ.valued he
    refine Fragment.sound_plain ?_
    -- an assignment has taken its value away, and any other value is popped
    cases hassign : e.isAssign with
    | true => exact (Expr.runs hσ he).2 (hvoid.mpr hassign)
    | false =>
      have hne : ty ≠ .void := fun hty => by simp [hvoid.mp hty] at hassign
      simp only [Bool.false_eq_true, if_false]
      rw [List.map_append, Method.run?_append, (Expr.runs hσ he).1 hne]
      rfl
  | .empty, _, _, _, h, _, _ => by
    cases h
    exact Fragment.sound_empty
  | .print none, _, _, _, h, _, _ => by
    cases h
    exact Fragment.sound_empty
  | .print (some x), _, _, _, h, hσ, _ => by
    obtain ⟨ty, operation, hload, rfl⟩ := Stmt.lower?_print.mp h
    refine Fragment.sound_plain ?_
    rw [List.map_cons, Method.run?, hσ.step?_load hload]
    rfl
  | .bug body, _, _, _, h, hσ, hf => body.sound h hσ hf
  | .ret none, _, _, m, h, hσ, _ => by
    obtain ⟨⟨-, hreturn⟩, rfl⟩ := Stmt.lower?_ret_none.mp h
    have hreturns : m.returns false [] = true := by
      simp [Method.returns, hσ.returnType, hreturn]
    refine Fragment.sound_plain ?_
    show (if m.returns false [] then some [] else none : Option (List Ty)).bind _ = _
    rw [if_pos hreturns]
    rfl
  | .ret (some e), _, _, m, h, hσ, _ => by
    obtain ⟨code, he, ⟨-, hreturn⟩, rfl⟩ := Stmt.lower?_ret_some.mp h
    obtain ⟨found, he, haccepts⟩ := Expr.lowerTo?_eq_some.mp he
    rw [← hσ.returnType] at haccepts hreturn
    have hreturns : m.returns false [found] = true := by simp [Method.returns, hreturn, haccepts]
    have hne := Ty.accepts_ne_void haccepts hσ.returnType_ne
    refine Fragment.sound_plain ?_
    rw [List.map_append, Method.run?_append, (Expr.runs hσ he).1 hne]
    show (if m.returns false [found] then some [] else none : Option (List Ty)).bind _ = _
    rw [if_pos hreturns]
    rfl
  | .leave exit, _, _, _, h, _, _ => by
    obtain ⟨exits, -, -, rfl⟩ := Stmt.lower?_leave.mp h
    exact ⟨rfl, List.forall_mem_nil _, List.forall_mem_nil _, List.forall_mem_nil _⟩

/-- Items leave the stack empty.  A method has no code where it stands, but its own code passes the
check. -/
theorem Item.sound : ∀ (item : Item) {σ : Site} {f : Fragment} {m : Method},
    item.lower? σ = some f → σ.Inside p m → f.Hosted p σ → f.Sound p m σ.offset
  | .field type x, σ, _, _, h, _, hf => by
    obtain ⟨⟨-, hvoid⟩, rfl⟩ := Item.lower?_field.mp h
    have hlocal : p.localType? ⟨σ.method, σ.locals⟩ = some type.ty := hf.locals (i := 0) rfl
    refine ⟨rfl, List.forall_mem_nil _, fun y hy => ?_, List.forall_mem_nil _⟩
    obtain rfl := List.mem_singleton.mp hy
    exact ⟨hlocal, hvoid, type.ty_ne_unknown⟩
  | .method type x parameters comma body, σ, _, _, h, hσ, hf => by
    obtain ⟨g, hg, ⟨-, hformed⟩, rfl⟩ := Item.lower?_method.mp h
    have hvoid := Declarator.ne_void_of_wellFormed hformed
    have hmethod : p.methods[σ.methods]? = some (g.method x type.ty parameters) :=
      hf.methods (j := 0) rfl
    have hhosted : g.Hosted p (σ.body type.ty x parameters) := by
      refine ⟨fun {i v} hv => ?_, fun {j m'} hm' => ?_⟩
      · rw [Site.body, Nat.zero_add]
        exact Fragment.localType?_of_method hmethod hv
      · rw [Site.body, Nat.add_right_comm, Nat.add_assoc]
        exact hf.methods (j := j + 1) hm'
    have hbody := body.sound hg (hσ.body type.ty_ne_unknown hvoid hmethod) hhosted
    refine ⟨rfl, List.forall_mem_nil _, fun y hy => ?_, fun m' hm' => ?_⟩
    · obtain rfl := List.mem_singleton.mp hy
      exact ⟨trivial, trivial⟩
    · rcases List.mem_cons.mp hm' with rfl | hm'
      · exact hbody.wellStacked
      · exact hbody.methods m' hm'
  | .statement t, _, _, _, h, hσ, hf => t.sound h hσ hf

/-- Statement lists leave the stack empty. -/
theorem Items.sound : ∀ (items : Items) {σ : Site} {f : Fragment} {m : Method},
    items.lower? σ = some f → σ.Inside p m → f.Hosted p σ → f.Sound p m σ.offset
  | .nil, _, _, _, h, _, _ => by
    cases h
    exact Fragment.sound_empty
  | .cons item rest, _, _, _, h, hσ, hf => by
    obtain ⟨g, hg, g', hg', rfl⟩ := Items.lower?_cons.mp h
    have hitem := item.sound hg hσ hf.left
    exact hitem.append (rest.sound hg' (hσ.past hitem.names) hf.right)

end

end

/-- Before the first item no name stands for a variable: there are only the predefined types. -/
theorem Site.entry_names {options : Options} {names : Names}
    (hnames : names ∈ (entry options).names)
    {x : String} {b : Binding} (hb : names x = some b) : b = .inert := by
  rcases List.mem_cons.mp hnames with rfl | hnames
  · cases hb
  · obtain rfl := List.mem_singleton.mp hnames
    unfold Names.predefined at hb
    split at hb
    · exact (Option.some.inj hb).symm
    · cases hb

theorem Site.entry_valued (options : Options) : (entry options).Valued := by
  intro names hnames x b hb
  rw [entry_names hnames hb]
  trivial

/-- Every method of the program of a statement list passes the check, the entry method with the
rest. -/
theorem Items.wellStacked_program {options : Options} (htyping : options.typing = .declared)
    {items : Items} {p : Program} (h : items.program? options = some p) :
    ∀ m ∈ p.methods, m.wellStacked p = true := by
  obtain ⟨f, hf, rfl⟩ := Items.program?_eq_some.mp h
  have hinside : (Site.entry options).Inside
      ⟨options.programName, (f.method "main" .void [] :: f.methods).toArray⟩
      (f.method "main" .void []) :=
    { typing := htyping
      valued := Site.entry_valued options
      known := fun names hnames x b hb => by
        rw [Site.entry_names hnames hb]
        trivial
      method := rfl
      returnType := rfl
      returnType_ne := by simp [Fragment.method] }
  have hhosted : f.Hosted ⟨options.programName, (f.method "main" .void [] :: f.methods).toArray⟩
      (.entry options) := by
    refine ⟨fun {i v} hv => ?_, fun {j m} hm => ?_⟩
    · rw [Site.entry, Nat.zero_add]
      exact Fragment.localType?_of_method rfl hv
    · rw [Site.entry, Nat.add_comm, List.getElem?_toArray, List.getElem?_cons_succ]
      exact hm
  have hsound := items.sound hf hinside hhosted
  intro m hm
  rcases List.mem_cons.mp (List.mem_toArray.mp hm) with rfl | hm
  · exact hsound.wellStacked
  · exact hsound.methods m hm

/-- **Every method passes the check**, if names have their declared types: its instructions
find the operands they need on the stack, and statements start and end with an empty one. -/
theorem wellStacked_of_compile {options : Options} (htyping : options.typing = .declared)
    {source : String} {c : Compilation} (h : compile options source = .ok c) :
    ∀ m ∈ c.program.methods, m.wellStacked c.program = true := by
  obtain ⟨items, tokens, -, -, hprogram, -⟩ := compile_eq_ok_iff.mp h
  exact items.wellStacked_program htyping hprogram

/-- A source with operators, branches, labels and returns with a value. -/
def stackSource : String :=
  "string s; ref r;
  int f(int n) { while (n > 1) { if (n == 7) return -n + 2 * n; break; } return n; }
  r = s + s; printf(r);"

theorem wellStacked_of_compile_branches :
    (compile {} stackSource).toOption.isSome = true ∧ ∃ c, compile {} stackSource = .ok c ∧
      ∀ m ∈ c.program.methods, m.wellStacked c.program = true := by
  have hsome : (compile {} stackSource).toOption.isSome = true := by decide +kernel
  obtain ⟨c, hc⟩ := Option.isSome_iff_exists.mp hsome
  exact ⟨hsome, c, eq_ok_of_toOption hc, wellStacked_of_compile rfl (eq_ok_of_toOption hc)⟩

end OnePass
