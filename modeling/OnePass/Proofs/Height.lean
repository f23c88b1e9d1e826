import OnePass.Proofs.Stack

/-!
# The height of the operand stack

A scan over the code of a method that counts the values on the operand stack and knows
nothing of their types.  It fails where an instruction needs more values than are there.

A piece of code takes some values off the stack and leaves others in their place, and two
pieces in a row do so together.  An expression takes nothing and leaves its value, except
that an assignment leaves none.  So where an assignment stands as the right operand of an
operator, one value is missing, and no later code makes up for it: the scan of a method
passes exactly if its body has no such operand.  Declared types rule these out.  With the
older typing a left operand can be of no known type, and then any right operand is
accepted.

## Main definitions

* `height?` — the scan.
* `Method.keepsHeight` — the check of a method.
* `Spends` — what code takes off the stack and what it leaves there.
* `Expr.missing`, `Items.missing` — how many right operands are assignments.

## Main results

* `Spends.append` — what two pieces of code take and leave together.
* `Expr.spends`, `Items.counted` — what expressions and statements take and leave.
* `keepsHeight_iff_of_compile` — **which methods need more values than are there**.
* `operand_missing` — a source with such a method.
* `keepsHeight_of_declared` — with declared types there is none.
-/

namespace OnePass

/-! ### The scan -/

/-- How many values an operation that does not return takes off the stack. -/
def Operation.takes : Operation → Nat
  | .loadInt _ | .loadBool _ | .loadLocal _ | .loadArg _ => 0
  | .storeLocal _ | .unary _ | .convert _ _ | .pop | .print => 1
  | .additive _ | .multiplicative _ | .compare _ | .concat => 2
  | .ret => 0

/-- How many values an operation leaves on the stack. -/
def Operation.leaves : Operation → Nat
  | .loadInt _ | .loadBool _ | .loadLocal _ | .loadArg _ => 1
  | .unary _ | .convert _ _ => 1
  | .additive _ | .multiplicative _ | .compare _ | .concat => 1
  | .storeLocal _ | .pop | .print | .ret => 0

/-- How many values an instruction takes off the stack in a method with the given return type.
A return takes the value of the method, if it has one; the last instruction of a method can
also return without a value. -/
def Instruction.takes (returnType : Ty) (last : Bool) : Instruction → Nat
  | .plain .ret => if returnType = .void ∨ last then 0 else 1
  | .plain operation => operation.takes
  | .branch _ => 0
  | .branchIfFalse _ => 1

/-- How many values an instruction leaves on the stack.  Branches leave none. -/
def Instruction.leaves : Instruction → Nat
  | .plain operation => operation.leaves
  | .branch _ => 0
  | .branchIfFalse _ => 0

/-- The height of the stack after some code, unless it needs more values than are there.
`closing` tells whether the code is the end of its method. -/
def height? (returnType : Ty) (closing : Bool) : List Instruction → Nat → Option Nat
  | [], height => some height
  | i :: code, height =>
    let taken := i.takes returnType (closing && code.isEmpty)
    if taken ≤ height then height? returnType closing code (height - taken + i.leaves) else none

/-- **The check of a method**: from an empty stack, no instruction needs more values than are
there. -/
def Method.keepsHeight (m : Method) : Bool := (height? m.returnType true m.code.toList 0).isSome

/-! ### What code takes and leaves -/

section

variable {returnType : Ty} {closing : Bool}

theorem height?_append (code code' : List Instruction) (height : Nat) :
    height? returnType closing (code ++ code') height =
      (height? returnType (closing && code'.isEmpty) code height).bind
        (height? returnType closing code') := by
  induction code generalizing height with
  | nil => rfl
  | cons i code ih =>
    -- an instruction is the last of both pieces if it is of the first and there is no second
    have hlast : (closing && (code ++ code').isEmpty) =
        ((closing && code'.isEmpty) && code.isEmpty) := by
      cases code <;> simp
    simp only [List.cons_append, height?, hlast]
    split
    · exact ih _
    · rfl

/-- The code needs `takes` values, and leaves `leaves` values in their place.  With fewer values the
scan fails somewhere within it. -/
def Spends (returnType : Ty) (closing : Bool) (code : List Instruction) (takes leaves : Nat) :
    Prop :=
  ∀ height, height? returnType closing code height =
    if takes ≤ height then some (height - takes + leaves) else none

theorem spends_nil : Spends returnType closing [] 0 0 := fun _ => rfl

theorem spends_operation {operation : Operation} (h : operation ≠ .ret) :
    Spends returnType closing [.plain operation] operation.takes operation.leaves := by
  intro height
  cases operation <;> first | rfl | exact absurd rfl h

/-- The return at the end of a method needs nothing, and whatever is on the stack stays there. -/
theorem spends_last_ret : Spends returnType true [.plain .ret] 0 0 := by
  intro height
  simp [height?, Instruction.takes, Instruction.leaves, Operation.leaves]

/-- **What two pieces of code take and leave together.**  The second one first takes what the
first one leaves. -/
theorem Spends.append {code code' : List Instruction} {takes leaves takes' leaves' : Nat}
    (h : Spends returnType (closing && code'.isEmpty) code takes leaves)
    (h' : Spends returnType closing code' takes' leaves') :
    Spends returnType closing (code ++ code') (takes + (takes' - leaves))
      (leaves' + (leaves - takes')) := by
  intro height
  rw [height?_append, h]
  -- the scan fails in the first piece, in the second one, or in neither
  by_cases hfirst : takes ≤ height
  · rw [if_pos hfirst, Option.bind_some, h']
    by_cases hsecond : takes' ≤ height - takes + leaves
    · rw [if_pos hsecond, if_pos (by omega), Option.some.injEq]
      omega
    · rw [if_neg hsecond, if_neg (by omega)]
  · rw [if_neg hfirst, if_neg (by omega)]
    rfl

/-- Operations that do not return do the same at the end of a method and before it, and in a method
of any type. -/
def Operation.Spend (code : List Operation) (takes leaves : Nat) : Prop :=
  ∀ returnType closing, Spends returnType closing (code.map .plain) takes leaves

namespace Operation.Spend

variable {code code' : List Operation} {takes leaves takes' leaves' : Nat}

theorem single {operation : Operation} (h : operation ≠ .ret) :
    Spend [operation] operation.takes operation.leaves := fun _ _ => spends_operation h

theorem append (h : Spend code takes leaves) (h' : Spend code' takes' leaves') :
    Spend (code ++ code') (takes + (takes' - leaves)) (leaves' + (leaves - takes')) := by
  intro returnType closing
  rw [List.map_append]
  exact (h returnType _).append (h' returnType closing)

/-- A value that some code leaves is taken away by the operation behind it. -/
theorem consume (h : Spend code takes 1) {operation : Operation} (hret : operation ≠ .ret)
    (htakes : operation.takes = 1) : Spend (code ++ [operation]) takes operation.leaves := by
  have happend := h.append (single hret)
  rwa [htakes] at happend

/-- Two operands and an operation on them.  The left operand has a value; if the right one has none,
the operation takes another from below. -/
theorem binary {cl cr : List Operation} (hl : Spend cl takes 1) (hr : Spend cr takes' leaves')
    (hle : leaves' ≤ 1) {operation : Operation} (hret : operation ≠ .ret)
    (htakes : operation.takes = 2) (hleaves : operation.leaves = 1) :
    Spend (cl ++ cr ++ [operation]) (takes + takes' + (1 - leaves')) 1 := by
  have happend := (hl.append hr).append (single hret)
  rw [htakes, hleaves] at happend
  have hneeds : takes + (takes' - 1) + (2 - (leaves' + (1 - takes'))) =
      takes + takes' + (1 - leaves') := by omega
  have hleft : 1 + (leaves' + (1 - takes') - 2) = 1 := by omega
  rwa [hneeds, hleft] at happend

end Operation.Spend

end

/-! ### Expressions -/

theorem Site.operation_of_load? {σ : Site} {x : String} {ty : Ty} {operation : Operation}
    (h : σ.load? x = some (ty, operation)) :
    (∃ slot, operation = .loadLocal slot) ∨ ∃ ordinal, operation = .loadArg ordinal := by
  unfold load? at h
  split at h
  · split at h <;> cases h
    exact .inl ⟨_, rfl⟩
  · split at h <;> cases h
    exact .inr ⟨_, rfl⟩
  · cases h
  · cases h

namespace Expr

/-- The number of values an expression leaves.  An assignment stores its value and leaves none. -/
def values {r : Rung} (e : Expr r) : Nat := if e.isAssign then 0 else 1

/-- How many right operands in an expression are assignments, which leave no value. -/
def missing : {r : Rung} → Expr r → Nat
  | _, .number _ => 0
  | _, .boolean _ => 0
  | _, .name _ => 0
  | _, .assign _ value => value.missing
  | _, .factor e => e.missing
  | _, .product left _ right => left.missing + right.missing + (1 - right.values)
  | _, .unsigned e => e.missing
  | _, .signed _ e => e.missing
  | _, .first e => e.missing
  | _, .sum left _ right => left.missing + right.missing + (1 - right.values)
  | _, .single e => e.missing
  | _, .comparison left _ right => left.missing + right.missing + (1 - right.values)

theorem values_le {r : Rung} (e : Expr r) : e.values ≤ 1 := by
  unfold values
  split <;> simp

variable {σ : Site}

theorem values_eq_one (hσ : σ.Valued) {r : Rung} {e : Expr r} {ty : Ty} {code : List Operation}
    (h : e.lower? σ = some (ty, code)) (hne : ty ≠ .void) : e.values = 1 :=
  if_neg (mt (eq_void_iff hσ h).mpr hne)

/-- **An expression leaves its value.**  Each right operand without a value takes one from below
instead. -/
theorem spends (hσ : σ.Valued) : ∀ {r : Rung} {e : Expr r} {ty : Ty} {code : List Operation},
    e.lower? σ = some (ty, code) → Operation.Spend code e.missing e.values
  | _, .number _, _, _, h => by
    obtain ⟨-, rfl⟩ := Prod.mk.inj (Option.some.inj h)
    exact .single (by simp)
  | _, .boolean _, _, _, h => by
    obtain ⟨-, rfl⟩ := Prod.mk.inj (Option.some.inj h)
    exact .single (by simp)
  | _, .name _, _, _, h => by
    obtain ⟨operation, hload, rfl⟩ := lower?_name.mp h
    obtain ⟨slot, rfl⟩ | ⟨ordinal, rfl⟩ := Site.operation_of_load? hload
    · exact .single (by simp)
    · exact .single (by simp)
  | _, .assign _ value, _, _, h => by
    obtain ⟨found, values, target, slot, hvalue, hstore, haccepts, -, rfl⟩ := lower?_assign.mp h
    obtain ⟨names, hnames, hx⟩ := Site.exists_of_store? hstore
    -- what is stored is a value, so the expression behind the equal sign is no assignment
    have hne := Ty.accepts_ne_void haccepts (hσ names hnames hx).2
    have hspends := spends hσ hvalue
    rw [values_eq_one hσ hvalue hne] at hspends
    have hconverted := hspends.consume (show Operation.convert target found ≠ .ret by simp) rfl
    have hstored := hconverted.consume (show Operation.storeLocal slot ≠ .ret by simp) rfl
    rwa [List.append_assoc] at hstored
  | _, .factor e, _, _, h => spends hσ (e := e) h
  | _, .product left op right, _, _, h => by
    obtain ⟨tl, cl, tr, cr, hl, hr, hty, rfl⟩ := lower?_product.mp h
    have hleft := spends hσ hl
    rw [values_eq_one hσ hl (Ty.operate?_eq_some.mp hty).1] at hleft
    exact hleft.binary (spends hσ hr) right.values_le (by simp) rfl rfl
  | _, .unsigned e, _, _, h => spends hσ (e := e) h
  | _, .first e, _, _, h => spends hσ (e := e) h
  | _, .signed sign e, _, _, h => by
    obtain ⟨operand, operations, he, hty, rfl⟩ := lower?_signed.mp h
    have hne : operand ≠ .void := by
      rintro rfl
      cases hty
    have hspends := spends hσ he
    rw [values_eq_one hσ he hne] at hspends
    cases sign with
    | plus => rwa [Sign.operations, List.append_nil]
    | minus => exact hspends.consume (by simp) rfl
  | _, .sum left op right, _, _, h => by
    obtain ⟨tl, cl, tr, cr, hl, hr, hty, rfl⟩ := lower?_sum.mp h
    have hleft := spends hσ hl
    rw [values_eq_one hσ hl (Ty.operate?_eq_some.mp hty).1] at hleft
    unfold AdditiveOp.operation
    split
    · exact hleft.binary (spends hσ hr) right.values_le (by simp) rfl rfl
    · exact hleft.binary (spends hσ hr) right.values_le (by simp) rfl rfl
  | _, .single e, _, _, h => spends hσ (e := e) h
  | _, .comparison left op right, _, _, h => by
    obtain ⟨tl, cl, tr, cr, hl, hr, ⟨hne, -⟩, -, rfl⟩ := lower?_comparison.mp h
    have hleft := spends hσ hl
    rw [values_eq_one hσ hl hne] at hleft
    exact hleft.binary (spends hσ hr) right.values_le (by simp) rfl rfl

/-- An expression that has to be of a type leaves a value, since nothing expects the type of an
assignment. -/
theorem spends_of_lowerTo? (hσ : σ.Valued) {r : Rung} {e : Expr r} {expected : Ty}
    {code : List Operation} (h : e.lowerTo? σ expected = some code) (hne : expected ≠ .unknown) :
    Operation.Spend code e.missing 1 := by
  obtain ⟨found, he, haccepts⟩ := lowerTo?_eq_some.mp h
  rw [← values_eq_one hσ he (Ty.accepts_ne_void haccepts hne)]
  exact spends hσ he

end Expr

/-! ### Statements -/

mutual

/-- How many right operands in the expressions of a statement are assignments.  The bodies of
methods do not count. -/
def Stmt.missing : Stmt → Nat
  | .block items => items.missing
  | .branch condition body => condition.missing + body.missing
  | .choice condition body other => condition.missing + body.missing + other.missing
  | .loop condition body => condition.missing + body.missing
  | .expression e => e.missing
  | .empty => 0
  | .print _ => 0
  | .bug body => body.missing
  | .ret value => (value.map Expr.missing).getD 0
  | .leave _ => 0

/-- The same for an item.  A declaration has no expressions of its own. -/
def Item.missing : Item → Nat
  | .field _ _ => 0
  | .method _ _ _ _ _ => 0
  | .statement s => s.missing

/-- The same for a statement list, item by item. -/
def Items.missing : Items → Nat
  | .nil => 0
  | .cons item rest => item.missing + rest.missing

end

/-- The code of statements takes `missing` values that nobody put there, and leaves nothing.
Only a return at the end of a method leaves its value. -/
def Lacks (returnType : Ty) (code : List Instruction) (missing : Nat) : Prop :=
  ∀ closing, ∃ leaves, Spends returnType closing code missing leaves ∧
    (closing = false → leaves = 0)

namespace Lacks

variable {returnType : Ty} {code code' : List Instruction} {missing missing' : Nat}

theorem of_spends (h : ∀ closing, Spends returnType closing code missing 0) :
    Lacks returnType code missing := fun closing => ⟨0, h closing, fun _ => rfl⟩

theorem nil : Lacks returnType [] 0 := of_spends fun _ => spends_nil

theorem of_operations {operations : List Operation} (h : Operation.Spend operations missing 0) :
    Lacks returnType (operations.map .plain) missing := of_spends (h returnType)

theorem branch (target : Target) : Lacks returnType [.branch target] 0 :=
  of_spends fun _ _ => rfl

/-- A condition and the branch that takes its value off the stack. -/
theorem condition {operations : List Operation} (h : Operation.Spend operations missing 1)
    (target : Target) :
    Lacks returnType (operations.map .plain ++ [.branchIfFalse target]) missing :=
  of_spends fun closing =>
    (h returnType _).append (show Spends returnType closing [.branchIfFalse target] 1 0 from
      fun _ => rfl)

theorem append (h : Lacks returnType code missing) (h' : Lacks returnType code' missing') :
    Lacks returnType (code ++ code') (missing + missing') := by
  intro closing
  obtain ⟨leaves', hspends', hzero'⟩ := h' closing
  cases code' with
  | nil =>
    -- then the first piece is the end of the method
    have hnil := hspends' 0
    split at hnil
    · next hle =>
      obtain ⟨leaves, hspends, hzero⟩ := h closing
      obtain rfl : missing' = 0 := Nat.le_zero.mp hle
      rw [List.append_nil]
      exact ⟨leaves, hspends, hzero⟩
    · cases hnil
  | cons i code' =>
    -- there is code behind the first piece, which leaves nothing for it then
    obtain ⟨leaves, hspends, hzero⟩ := h (closing && (i :: code').isEmpty)
    obtain rfl := hzero (Bool.and_false closing)
    have happend := hspends.append hspends'
    rw [Nat.sub_zero, Nat.zero_sub, Nat.add_zero] at happend
    exact ⟨leaves', happend, hzero'⟩

/-- A return without a value, in a method that has none. -/
theorem ret (h : returnType = .void) : Lacks returnType [.plain .ret] 0 := by
  refine of_spends fun closing height => ?_
  show (if (if returnType = .void ∨ _ then 0 else 1) ≤ height then _ else _) = _
  simp only [h, true_or, if_true]
  rfl

/-- A return with a value.  At the end of a method it is not counted as taken, so it stays. -/
theorem retValue {operations : List Operation} (h : Operation.Spend operations missing 1)
    (hne : returnType ≠ .void) :
    Lacks returnType (operations.map .plain ++ [.plain .ret]) missing := by
  intro closing
  cases closing with
  | false =>
    have hret : Spends returnType false [.plain .ret] 1 0 := by
      intro height
      simp [height?, Instruction.takes, hne, Instruction.leaves, Operation.leaves]
    exact ⟨0, (h returnType _).append hret, fun _ => rfl⟩
  | true =>
    exact ⟨1, (h returnType _).append spends_last_ret, by simp⟩

/-- The code of a method passes the check exactly if nothing is missing.  At most a return is added
to it, and that one needs nothing. -/
theorem keepsHeight {f : Fragment} {name : String} {parameters : List Declarator}
    (h : Lacks returnType f.code missing) :
    (f.method name returnType parameters).keepsHeight = true ↔ missing = 0 := by
  show (height? returnType true f.closedCode 0).isSome = true ↔ _
  have hclosed : ∃ leaves, Spends returnType true f.closedCode missing leaves := by
    unfold Fragment.closedCode
    split
    · obtain ⟨leaves, hspends, -⟩ := h true
      exact ⟨leaves, hspends⟩
    · obtain ⟨leaves, hspends, -⟩ := h false
      have happend := hspends.append spends_last_ret
      rw [Nat.zero_sub, Nat.add_zero] at happend
      exact ⟨_, happend⟩
  obtain ⟨leaves, hspends⟩ := hclosed
  rw [hspends]
  split <;> simp_all

end Lacks

/-- What a fragment needs and declares, and that its methods pass the check exactly if nothing
is missing in their bodies. -/
structure Fragment.Counted (f : Fragment) (returnType : Ty) (missing : Nat) (bodies : List Items) :
    Prop where
  code : Lacks returnType f.code missing
  names : ∀ x ∈ f.names, x.2.Valued
  methods : List.Forall₂ (fun (body : Items) (m : Method) =>
    m.keepsHeight = true ↔ body.missing = 0) bodies f.methods

namespace Fragment.Counted

variable {f g : Fragment} {returnType : Ty} {missing missing' : Nat} {bodies bodies' : List Items}

theorem append (hf : f.Counted returnType missing bodies)
    (hg : g.Counted returnType missing' bodies') :
    (f ++ g).Counted returnType (missing + missing') (bodies ++ bodies') where
  code := hf.code.append hg.code
  names := List.forall_mem_append.mpr ⟨hf.names, hg.names⟩
  methods := List.rel_append hf.methods hg.methods

/-- Code that declares neither names nor methods. -/
theorem of_code {code : List Instruction} (labels : List Nat) (h : Lacks returnType code missing) :
    (⟨[], [], code, labels, []⟩ : Fragment).Counted returnType missing [] :=
  ⟨h, List.forall_mem_nil _, .nil⟩

theorem empty : ({} : Fragment).Counted returnType 0 [] := of_code [] .nil

theorem condition {operations : List Operation} (h : Operation.Spend operations missing 1)
    (target : Target) (labels : List Nat) :
    (jump operations (.branchIfFalse target) labels).Counted returnType missing [] :=
  of_code labels (.condition h target)

theorem leap (target : Target) (labels : List Nat) :
    (jump [] (.branch target) labels).Counted returnType 0 [] := of_code labels (.branch target)

end Fragment.Counted

theorem Site.Valued.past {σ : Site} (hσ : σ.Valued) {f : Fragment}
    (hf : ∀ x ∈ f.names, x.2.Valued) : (σ.past f).Valued := Site.forall_names_past hσ hf

mutual

/-- What a statement needs: as many values as operands are missing in it.  The names around it have
to be of known types, as all declared ones are. -/
theorem Stmt.counted : ∀ (t : Stmt) {σ : Site} {f : Fragment}, t.lower? σ = some f → σ.Valued →
    σ.returnType ≠ .unknown → f.Counted σ.returnType t.missing t.bodies
  | .block items, _, _, h, hσ, hreturn => items.counted h hσ hreturn
  | .branch condition body, σ, _, h, hσ, hreturn => by
    obtain ⟨code, hcode, g, hg, rfl⟩ := Stmt.lower?_branch.mp h
    have hhead : (σ.skip code body.size).Counted σ.returnType condition.missing [] :=
      .condition (Expr.spends_of_lowerTo? hσ hcode (by decide)) _ _
    exact hhead.append (body.counted hg (hσ.past hhead.names) hreturn :)
  | .choice condition body other, σ, _, h, hσ, hreturn => by
    obtain ⟨code, hcode, g, hg, g', hg', rfl⟩ := Stmt.lower?_choice.mp h
    have hhead : (σ.skip code (body.size + 1)).Counted σ.returnType condition.missing [] :=
      .condition (Expr.spends_of_lowerTo? hσ hcode (by decide)) _ _
    -- the condition, the body, the jump over the alternative, and the alternative
    have hfront := hhead.append (body.counted hg (hσ.past hhead.names) hreturn :)
    have hmiddle := hfront.append (g := (σ.past (σ.skip code (body.size + 1) ++ g)).leap other.size)
      (.leap _ _)
    have hother := hmiddle.append (other.counted hg' (hσ.past hmiddle.names) hreturn :)
    rwa [List.append_nil] at hother
  | .loop condition body, σ, _, h, hσ, hreturn => by
    obtain ⟨code, hcode, g, hg, rfl⟩ := Stmt.lower?_loop.mp h
    have hhead : (σ.round code body.size).Counted σ.returnType condition.missing [] :=
      .condition (Expr.spends_of_lowerTo? hσ hcode (by decide)) _ _
    have hround := (hhead.append (body.counted hg (hσ.past hhead.names) hreturn :)).append
      (g := σ.again) (.leap _ _)
    rwa [List.append_nil] at hround
  | .expression e, _, _, h, hσ, _ => by
    obtain ⟨ty, code, he, rfl⟩ := Stmt.lower?_expression.mp h
    have hspends := Expr.spends hσ he
    refine .of_code [] (.of_operations ?_)
    -- only the value of an expression that is no assignment is dropped
    unfold Expr.values at hspends
    split
    · next hassign => rwa [if_pos hassign] at hspends
    · next hassign =>
      rw [if_neg hassign] at hspends
      exact hspends.consume (by simp) rfl
  | .empty, _, _, h, _, _ => by
    cases h
    exact .empty
  | .print none, _, _, h, _, _ => by
    cases h
    exact .empty
  | .print (some x), _, _, h, _, _ => by
    obtain ⟨ty, operation, hload, rfl⟩ := Stmt.lower?_print.mp h
    refine .of_code [] (.of_operations ?_)
    show Operation.Spend ([operation] ++ [.print]) 0 0
    obtain ⟨slot, rfl⟩ | ⟨ordinal, rfl⟩ := Site.operation_of_load? hload
    · exact (Operation.Spend.single (by simp)).consume (by simp) rfl
    · exact (Operation.Spend.single (by simp)).consume (by simp) rfl
  | .bug body, _, _, h, hσ, hreturn => body.counted h hσ hreturn
  | .ret none, _, _, h, _, _ => by
    obtain ⟨⟨-, hvoid⟩, rfl⟩ := Stmt.lower?_ret_none.mp h
    exact .of_code [] (.ret hvoid)
  | .ret (some e), _, _, h, hσ, hreturn => by
    obtain ⟨code, he, ⟨-, hvoid⟩, rfl⟩ := Stmt.lower?_ret_some.mp h
    rw [Fragment.plain, List.map_append]
    exact .of_code [] (.retValue (Expr.spends_of_lowerTo? hσ he hreturn) hvoid)
  | .leave exit, _, _, h, _, _ => by
    obtain ⟨exits, -, -, rfl⟩ := Stmt.lower?_leave.mp h
    exact .leap _ _

theorem Item.counted : ∀ (item : Item) {σ : Site} {f : Fragment}, item.lower? σ = some f →
    σ.Valued → σ.returnType ≠ .unknown → f.Counted σ.returnType item.missing item.bodies
  | .field type x, σ, _, h, _, _ => by
    obtain ⟨⟨-, hvoid⟩, rfl⟩ := Item.lower?_field.mp h
    refine ⟨.nil, fun y hy => ?_, .nil⟩
    obtain rfl := List.mem_singleton.mp hy
    exact ⟨hvoid, type.ty_ne_unknown⟩
  | .method type x parameters comma body, σ, _, h, hσ, _ => by
    obtain ⟨g, hg, ⟨-, hformed⟩, rfl⟩ := Item.lower?_method.mp h
    have hvoid := Declarator.ne_void_of_wellFormed hformed
    -- a body is code of its own, in a method with a return type of its own
    have hbody := body.counted hg (hσ.body type.ty x hvoid) type.ty_ne_unknown
    refine ⟨.nil, fun y hy => ?_, .cons hbody.code.keepsHeight hbody.methods⟩
    obtain rfl := List.mem_singleton.mp hy
    trivial
  | .statement t, _, _, h, hσ, hreturn => t.counted h hσ hreturn

theorem Items.counted : ∀ (items : Items) {σ : Site} {f : Fragment}, items.lower? σ = some f →
    σ.Valued → σ.returnType ≠ .unknown → f.Counted σ.returnType items.missing items.bodies
  | .nil, _, _, h, _, _ => by
    cases h
    exact .empty
  | .cons item rest, _, _, h, hσ, hreturn => by
    obtain ⟨g, hg, g', hg', rfl⟩ := Items.lower?_cons.mp h
    have hitem := item.counted hg hσ hreturn
    exact hitem.append (rest.counted hg' (hσ.past hitem.names) hreturn :)

end

/-! ### Compiled methods -/

/-- **Which methods need more values than are there.**  A source that compiles is the text of a
tree, and its methods are what the tree and the bodies in it stand for.  Each of them passes
the check exactly if no right operand in its body is an assignment. -/
theorem keepsHeight_iff_of_compile {options : Options} {source : String} {c : Compilation}
    (h : compile options source = .ok c) :
    ∃ (items : Items) (tokens : List Token), Writes source items tokens ∧ items.closed = true ∧
      items.program? options = some c.program ∧
      List.Forall₂ (fun (body : Items) (m : Method) => m.keepsHeight = true ↔ body.missing = 0)
        (items :: items.bodies) c.program.methods.toList := by
  obtain ⟨items, tokens, hwrites, hclosed, hprogram, -⟩ := compile_eq_ok_iff.mp h
  refine ⟨items, tokens, hwrites, hclosed, hprogram, ?_⟩
  obtain ⟨f, hf, hp⟩ := Items.program?_eq_some.mp hprogram
  rw [← hp]
  have hcounted := items.counted hf (Site.entry_valued options) (show Ty.void ≠ .unknown by decide)
  exact .cons hcounted.code.keepsHeight hcounted.methods

/-- The program of a sum with an assignment as its right operand: the addition finds one value
on the stack. -/
def shortProgram : Program where
  name := "MyProgram"
  methods := #[
    { name := "main"
      returnType := .void
      locals := #[⟨"x", .int⟩, ⟨"y", .int⟩]
      code := #[.plain .ret] },
    { name := "f"
      returnType := .void
      code := #[.plain (.loadLocal ⟨0, 0⟩), .plain (.loadInt 1), .plain (.convert .int .int),
        .plain (.storeLocal ⟨0, 1⟩), .plain (.additive .add), .plain .pop, .plain .ret] }]

theorem compile_short :
    compile { typing := .legacy } "int x; int y; void f() \x7b x + y = 1; \x7d" =
      .ok ⟨shortProgram, {}⟩ :=
  eq_ok_of_toOption (by decide +kernel)

/-- With the older typing such a sum is accepted, if its left operand is not declared in the
innermost scope, because that operand is then of no known type. -/
theorem operand_missing :
    ∃ c, compile { typing := .legacy } "int x; int y; void f() \x7b x + y = 1; \x7d" = .ok c ∧
      ∃ m ∈ c.program.methods, m.keepsHeight = false :=
  ⟨_, compile_short, shortProgram.methods[1], Array.getElem_mem _, by decide⟩

/-- The criterion tells so from the tree: nothing is missing in the outermost statement list, and
something in the body. -/
theorem keepsHeight_iff_of_compile_short :
    compile { typing := .legacy } "int x; int y; void f() \x7b x + y = 1; \x7d" =
      .ok ⟨shortProgram, {}⟩ ∧
    ∃ (items : Items) (tokens : List Token),
      Writes "int x; int y; void f() \x7b x + y = 1; \x7d" items tokens ∧
      items.program? { typing := .legacy } = some shortProgram ∧
      items.missing = 0 ∧ ∃ body, items.bodies = [body] ∧ body.missing ≠ 0 := by
  obtain ⟨items, tokens, hwrites, -, hprogram, hmethods⟩ := keepsHeight_iff_of_compile compile_short
  refine ⟨compile_short, items, tokens, hwrites, hprogram, ?_⟩
  obtain ⟨hmain, hrest⟩ := List.forall₂_cons.mp hmethods
  obtain ⟨body, bodies, hf, hnil, hbodies⟩ := List.forall₂_cons_right_iff.mp hrest
  obtain rfl := List.forall₂_nil_right_iff.mp hnil
  exact ⟨hmain.mp (by decide), body, hbodies, fun hzero => absurd (hf.mpr hzero) (by decide)⟩

/-! ### Types and heights -/

section

variable {p : Program} {m : Method}

/-- An operation whose types are right has enough values, and leaves as many as it should. -/
theorem Operation.length_step? {operation : Operation} {stack stack' : List Ty}
    (h : operation.step? p m stack = some stack') :
    operation.takes ≤ stack.length ∧
      stack'.length = stack.length - operation.takes + operation.leaves := by
  revert h
  fun_cases operation.step? p m stack <;> grind [takes, leaves, Option.map_eq_some_iff]

/-- The same for an instruction.  A return at the end of a method may leave a value. -/
theorem Instruction.length_step? {i : Instruction} {last : Bool} {stack stack' : List Ty}
    (h : i.step? p m last stack = some stack') :
    i.takes m.returnType last ≤ stack.length ∧
      stack'.length ≤ stack.length - i.takes m.returnType last + i.leaves := by
  unfold step? at h
  split at h
  · -- a return empties the stack of types, so only what it needs is left to show
    split at h
    · next hreturns =>
      obtain rfl := Option.some.inj h
      refine ⟨?_, Nat.zero_le _⟩
      show (if m.returnType = .void ∨ last = true then 0 else 1) ≤ stack.length
      cases stack with
      | nil =>
        rw [Method.returns, Bool.or_eq_true, decide_eq_true_eq] at hreturns
        rw [if_pos hreturns.symm]
        exact Nat.le_refl _
      | cons ty stack => split <;> simp
    · cases h
  · next _ operation hret =>
    obtain ⟨hle, hlength⟩ := Operation.length_step? h
    have htakes : (Instruction.plain operation).takes m.returnType last = operation.takes := by
      cases operation <;> first | rfl | exact absurd rfl hret
    rw [htakes]
    exact ⟨hle, Nat.le_of_eq hlength⟩
  · obtain rfl := Option.some.inj h
    exact ⟨Nat.zero_le _, Nat.zero_le _⟩
  · obtain rfl := Option.some.inj h
    exact ⟨Nat.le_refl _, Nat.zero_le _⟩
  · cases h

theorem Method.height?_of_scan? {code : List Instruction} {offset : Nat} {stack stack' : List Ty}
    (h : m.scan? p offset code stack = some stack') {height : Nat} (hle : stack.length ≤ height) :
    (height? m.returnType true code height).isSome = true := by
  induction code generalizing offset stack height with
  | nil => rfl
  | cons i code ih =>
    rw [scan?, Option.ite_none_right_eq_some] at h
    obtain ⟨stack₁, hstep, hrest⟩ := Option.bind_eq_some_iff.mp h.2
    obtain ⟨htakes, hlength⟩ := i.length_step? hstep
    -- the code behind it is scanned from a stack that has no more values than are counted
    rw [height?, Bool.true_and, if_pos (by omega)]
    exact ih hrest (by omega)

end

/-- The check of the types on the stack is the stricter one: a method that passes it passes the
count of values as well. -/
theorem Method.keepsHeight_of_wellStacked {p : Program} {m : Method}
    (h : m.wellStacked p = true) : m.keepsHeight = true := by
  obtain ⟨stack, hscan⟩ := Option.isSome_iff_exists.mp h
  exact height?_of_scan? hscan (Nat.le_refl _)

/-- **With declared types every method has the values it needs.**  Its types are right all along,
and types on the stack are values. -/
theorem keepsHeight_of_declared {options : Options} (htyping : options.typing = .declared)
    {source : String} {c : Compilation} (h : compile options source = .ok c) :
    ∀ m ∈ c.program.methods, m.keepsHeight = true := by
  obtain ⟨items, tokens, -, -, hprogram, -⟩ := compile_eq_ok_iff.mp h
  intro m hm
  exact Method.keepsHeight_of_wellStacked (Items.wellStacked_program htyping hprogram m hm)

end OnePass
