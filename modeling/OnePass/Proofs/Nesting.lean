import OnePass.Proofs.Patching

/-!
# Methods inside methods

Methods are opened inside each other, and whoever has asked for a label or a parameter
keeps its number, also when its method is no longer the innermost one, or is closed.
Nevertheless methods do not get into each other's way.  A request writes on the innermost
open method and on no other, and a method that is closed stays as it is.

So the code of a method can be told from the requests that were granted while it was the
innermost one: it is what they ask for, one instruction after the other.  A branch goes to
the place where its label was bound, which is counted in these instructions too.

## Main definitions

* `Assembler.share` — the requests that are granted while a method is innermost.
* `Assembler.patched`, `Assembler.returning` — the code that requests ask for, and its last
  return.
* `Assembler.Spares` — a request changes the innermost open method at most.

## Main results

* `Draft.Recounts.grow`, `Assembler.Recounts.effect` — **one request more**, for a method
  and for the assembler.
* `Assembler.methods_stay_apart` — **methods do not disturb each other**.
-/

namespace OnePass

/-! ### Labels and their offsets -/

/-- The target, with its offset in place of a label that has one.  A target that is an offset
already stays. -/
def Target.settle (place : Nat → Option Nat) : Target → Target
  | .pending l => (place l).elim (.pending l) .offset
  | .offset n => .offset n

/-- The instruction, with its offset in place of a label that has one. -/
def Instruction.settle (place : Nat → Option Nat) : Instruction → Instruction
  | .plain operation => .plain operation
  | .branch target => .branch (target.settle place)
  | .branchIfFalse target => .branchIfFalse (target.settle place)

/-- To settle one more label is to redirect the branches that wait for it. -/
theorem Target.redirect_settle {place : Nat → Option Nat} {l : Nat} (hl : place l = none) (o : Nat)
    (t : Target) : (t.settle place).redirect l o =
      t.settle fun k => (place k).or (if k = l then some o else none) := by
  cases t with
  | offset n => rfl
  | pending k =>
    -- the label in question is not settled yet; another one is settled or not as before
    by_cases hk : k = l
    · subst hk
      simp [settle, redirect, hl]
    · cases hplace : place k <;> simp [settle, redirect, hplace, hk]

/-- One more label has its offset. -/
theorem Instruction.redirect_settle {place : Nat → Option Nat} {l : Nat} (hl : place l = none)
    (o : Nat) (i : Instruction) : (i.settle place).redirect l o =
      i.settle fun k => (place k).or (if k = l then some o else none) := by
  cases i with
  | plain operation => rfl
  | branch target => exact congrArg branch (target.redirect_settle hl o)
  | branchIfFalse target => exact congrArg branchIfFalse (target.redirect_settle hl o)

/-! ### What requests ask for -/

namespace Assembler

namespace Call

/-- The instruction that a request asks for.  A branch is asked for with its label, whether that has
been bound or not. -/
def instruction? : Call → Option Instruction
  | .emit operation => some (.plain operation)
  | .loadParameter slot => some (.plain (.loadArg slot.ordinal))
  | .branch label => some (.branch (.pending label.index))
  | .branchIfFalse label => some (.branchIfFalse (.pending label.index))
  | _ => none

/-- The local variable that a request asks for. -/
def local? : Call → Option Variable
  | .declareLocal name type => some ⟨name, type⟩
  | _ => none

/-- The method that a request opens. -/
def opens? : Call → Option Method
  | .declareMethod name type parameters => some (Method.new name type parameters)
  | _ => none

/-- Whether nothing of a request shows in the innermost open method, but for names of parameters.
To open a method shows in the new one. -/
def silent : Call → Bool
  | .declareMethod _ _ _ => true
  | .declareParameter _ _ _ _ => true
  | .returnType => true
  | _ => false

/-- Whether a request is granted, in the state that it is made in. -/
def granted (c : Call) (s : Logged Assembler) : Bool :=
  match c.perform s with
  | .ok _ _ => true
  | .error _ _ => false

end Call

/-- The instructions that requests ask for. -/
def emitted (requests : List Call) : List Instruction := requests.filterMap Call.instruction?

/-- The offset of a label: the number of instructions asked for before it is bound.  Only the first
request to bind it counts, as a second one is refused. -/
def place? (requests : List Call) (label : Label) : Option Nat :=
  (requests.findIdx? (· == .bindLabel label)).map fun k => (emitted (requests.take k)).length

/-- The instructions that requests ask for, with the offsets of labels that are bound by now. -/
def patched (id : MethodId) (requests : List Call) : List Instruction :=
  (emitted requests).map (Instruction.settle fun l => place? requests ⟨id, l⟩)

/-- Code that ends in a return.  If it does not yet, one is added. -/
def returning (code : List Instruction) : List Instruction :=
  if code.getLast? = some (.plain .ret) then code else code ++ [.plain .ret]

/-- The requests of a list that are granted while the method is the innermost open one.  Which
method that is changes on the way. -/
def share (id : MethodId) (s : Logged Assembler) : List Call → List Call
  | [] => []
  | c :: calls =>
    (if s.value.opened.head? = some id ∧ c.granted s then [c] else []) ++ share id (after s c) calls

section

variable {id : MethodId} {requests : List Call} {c : Call}

theorem emitted_append (requests more : List Call) :
    emitted (requests ++ more) = emitted requests ++ emitted more := List.filterMap_append

/-- A label is bound by the requests before, or else by the last one. -/
theorem place?_append_singleton (requests : List Call) (c : Call) (label : Label) :
    place? (requests ++ [c]) label = (place? requests label).or
      (if c = .bindLabel label then some (emitted requests).length else none) := by
  unfold place?
  rw [List.findIdx?_append]
  cases hfind : requests.findIdx? (· == .bindLabel label) with
  | some k =>
    have hlt : k < requests.length := (List.findIdx?_eq_some_iff_findIdx_eq.mp hfind).1
    simp [List.take_append_of_le_length (Nat.le_of_lt hlt)]
  | none => by_cases hc : c = .bindLabel label <;> simp [List.findIdx?_cons, hc]

/-- Only a request to bind a label gives one its offset. -/
theorem place?_append_of_ne (hc : ∀ label, c ≠ .bindLabel label) (label : Label) :
    place? (requests ++ [c]) label = place? requests label := by
  rw [place?_append_singleton, if_neg (hc label), Option.or_none]

/-- A request that binds no label adds its instruction at the end and changes none before. -/
theorem patched_append (hc : ∀ label, c ≠ .bindLabel label) :
    patched id (requests ++ [c]) = patched id requests ++
      (c.instruction?.map (Instruction.settle fun l => place? requests ⟨id, l⟩)).toList := by
  simp only [patched, place?_append_of_ne hc, emitted_append, List.map_append]
  cases hi : c.instruction? <;> simp [emitted, hi]

/-- Binding a label redirects the branches that wait for it, to the end of the code. -/
theorem patched_append_bindLabel {l : Nat} (hl : place? requests ⟨id, l⟩ = none) :
    patched id (requests ++ [.bindLabel ⟨id, l⟩]) =
      (patched id requests).map (Instruction.redirect l (patched id requests).length) := by
  have hemitted : emitted (requests ++ [.bindLabel ⟨id, l⟩]) = emitted requests := by
    rw [emitted_append]
    exact List.append_nil _
  unfold patched
  rw [List.map_map, hemitted, List.length_map]
  refine List.map_congr_left fun i _ => ?_
  rw [Function.comp_apply, Instruction.redirect_settle hl]
  congr 1
  funext k
  rw [place?_append_singleton]
  simp [eq_comm]

end

end Assembler

/-! ### The story of a method -/

open Assembler

/-- The draft is what the requests ask for.  A request to end the method is one of them, if it has
been granted. -/
structure Draft.Recounts (id : MethodId) (requests : List Call) (d : Draft) : Prop where
  code : d.code = if .endMethod ∈ requests then returning (patched id requests)
    else patched id requests
  locals : d.locals = requests.filterMap Call.local?
  length : d.labels.length = requests.count .newLabel
  place : ∀ l, place? requests ⟨id, l⟩ = d.labels[l]?.join

/-- The method is what requests ask for: their instructions, with a return at the end once the
method is closed, their locals, and their labels with the offsets of those that were bound. -/
structure Method.MadeOf (id : MethodId) (requests : List Call) (closed : Bool) (m : Method) :
    Prop where
  code : m.code.toList = if closed then returning (patched id requests) else patched id requests
  locals : m.locals.toList = requests.filterMap Call.local?
  labels : m.labels.toList.map LabelState.offset? =
    (List.range (requests.count .newLabel)).map fun l => place? requests ⟨id, l⟩

/-- A request to end the method is not seen in the rest of what it asks for. -/
theorem Method.MadeOf.of_append_endMethod {id : MethodId} {requests : List Call} {closed : Bool}
    {m : Method} (h : m.MadeOf id (requests ++ [.endMethod]) closed) :
    m.MadeOf id requests closed := by
  have hpatched : patched id (requests ++ [.endMethod]) = patched id requests :=
    (patched_append (by simp)).trans (List.append_nil _)
  obtain ⟨hcode, hlocals, hlabels⟩ := h
  rw [hpatched] at hcode
  refine ⟨hcode, ?_, ?_⟩
  · rw [hlocals, List.filterMap_append]
    exact List.append_nil _
  · simpa [List.count_append, place?_append_of_ne] using hlabels

/-- Neither are several such requests. -/
theorem Method.MadeOf.of_append_ends {id : MethodId} {requests more : List Call} {closed : Bool}
    {m : Method} (hmore : ∀ c ∈ more, c = .endMethod) (h : m.MadeOf id (requests ++ more) closed) :
    m.MadeOf id requests closed := by
  induction more generalizing requests with
  | nil => rwa [List.append_nil] at h
  | cons c more ih =>
    obtain ⟨hc, hrest⟩ := List.forall_mem_cons.mp hmore
    rw [List.append_cons] at h
    have hcons := ih hrest h
    rw [hc] at hcons
    exact hcons.of_append_endMethod

namespace Draft.Recounts

variable {id : MethodId} {requests : List Call} {c : Call} {d d' : Draft}

/-- A method of which only the head has been written is what no requests ask for. -/
theorem new (id : MethodId) (name : String) (type : Ty) (parameters : List Ty) :
    (Method.new name type parameters).draft.Recounts id [] := ⟨rfl, rfl, rfl, fun _ => rfl⟩

/-- A method is made of what its draft recounts. -/
theorem madeOf {m : Method} (h : m.draft.Recounts id requests) :
    m.MadeOf id requests (.endMethod ∈ requests) where
  code := by simpa using h.code
  locals := h.locals
  labels := by
    show m.draft.labels = _
    refine List.ext_getElem ?_ fun l hl hl' => ?_
    · rw [h.length, List.length_map, List.length_range]
    · rw [List.getElem_map (h := hl'), List.getElem_range, h.place, List.getElem?_eq_getElem hl,
        Option.join_some]

/-- The names of the parameters do not count: they may be told while another method is innermost. -/
theorem of_body {m m' : Method} (h : m.draft.Recounts id requests) (hbody : m'.body = m.body) :
    m'.draft.Recounts id requests := by
  obtain ⟨hcode, hlocals, hlabels⟩ := Method.Body.mk.inj hbody
  obtain ⟨code, locals, length, place⟩ := h
  simp only [Method.draft] at code locals length place ⊢
  exact ⟨hcode ▸ code, hlocals ▸ locals, hlabels ▸ length, hlabels ▸ place⟩

/-- One request more that binds no label.  What it adds is given part by part. -/
theorem append (h : d.Recounts id requests) (hopen : .endMethod ∉ requests)
    (hbind : ∀ label, c ≠ .bindLabel label)
    (hcode : d'.code = if c = .endMethod then returning d.code else
      d.code ++ (c.instruction?.map (Instruction.settle fun l => place? requests ⟨id, l⟩)).toList)
    (hlocals : d'.locals = d.locals ++ c.local?.toList)
    (hlength : d'.labels.length = d.labels.length + if c = .newLabel then 1 else 0)
    (hplace : ∀ l : Nat, d'.labels[l]?.join = d.labels[l]?.join) :
    d'.Recounts id (requests ++ [c]) where
  code := by
    rw [hcode, h.code, if_neg hopen, patched_append hbind]
    by_cases hc : c = .endMethod
    · subst hc
      simp [Call.instruction?]
    · simp [hc, hopen, Ne.symm hc]
  locals := by
    rw [hlocals, h.locals, List.filterMap_append]
    cases hc : c.local? <;> simp [hc]
  length := by
    rw [hlength, h.length, List.count_append]
    by_cases hc : c = .newLabel <;> simp [hc]
  place l := by rw [place?_append_of_ne hbind, h.place, hplace]

/-- A request of which nothing shows may be told of the method or not. -/
theorem append_silent (h : d.Recounts id requests) (hopen : .endMethod ∉ requests)
    (hc : c.silent = true) : d.Recounts id (requests ++ [c]) := by
  cases c <;> cases hc <;>
    exact h.append hopen (by simp) (by simp [Call.instruction?]) (by simp [Call.local?]) rfl
      fun _ => rfl

/-- Where a branch to a label goes: to its offset if the requests before have bound it. -/
theorem target_eq (h : d.Recounts id requests) (l : Nat) :
    d.target l = (Target.pending l).settle fun k => place? requests ⟨id, k⟩ := by
  rw [Target.settle, h.place, Draft.target]
  rcases d.labels[l]? with _ | (_ | offset) <;> rfl

/-- A label is bound, and the branches before that are redirected at once. -/
theorem bind (h : d.Recounts id requests) (hopen : .endMethod ∉ requests) {l : Nat}
    (hl : d.labels[l]? = some none) :
    (d.bindLabel l).Recounts id (requests ++ [.bindLabel ⟨id, l⟩]) := by
  have hcode : d.code = patched id requests := by rw [h.code, if_neg hopen]
  have hnone : place? requests ⟨id, l⟩ = none := by rw [h.place, hl, Option.join_some]
  have hlt := (List.getElem?_eq_some_iff.mp hl).1
  refine ⟨?_, ?_, ?_, fun k => ?_⟩
  · have hopen' : .endMethod ∉ requests ++ [.bindLabel ⟨id, l⟩] := by simpa using hopen
    rw [if_neg hopen', patched_append_bindLabel hnone, ← hcode, Draft.bindLabel]
  · rw [List.filterMap_append]
    exact h.locals.trans (List.append_nil _).symm
  · rw [List.count_append, ← h.length]
    exact List.length_set
  · have hlength : (emitted requests).length = d.code.length := by
      rw [hcode, patched, List.length_map]
    rw [place?_append_singleton, Draft.bindLabel, List.getElem?_set]
    -- the label that is bound is at the end of the code, and the others where they were
    by_cases hk : l = k
    · subst hk
      simp [hnone, hlt, hlength]
    · simp [hk, h.place]

/-- **One request more**, whichever it is of those that write on a method. -/
theorem grow (h : d.Recounts id requests) (hopen : .endMethod ∉ requests) {x : c.Answer}
    (hgrows : d.Grows id c x d') : d'.Recounts id (requests ++ [c]) := by
  cases hgrows with
  | emit operation =>
    exact h.append hopen (by simp) (by simp [Call.instruction?, Instruction.settle, add])
      (by simp [Call.local?, add]) rfl fun _ => rfl
  | loadParameter ordinal =>
    exact h.append hopen (by simp) (by simp [Call.instruction?, Instruction.settle, add])
      (by simp [Call.local?, add]) rfl fun _ => rfl
  | declareLocal name type =>
    exact h.append hopen (by simp) (by simp [Call.instruction?, addLocal])
      (by simp [Call.local?, addLocal]) rfl fun _ => rfl
  | returnType => exact h.append_silent hopen rfl
  | newLabel =>
    refine h.append hopen (by simp) (by simp [Call.instruction?, addLabel])
      (by simp [Call.local?, addLabel]) (by simp [addLabel]) fun l => ?_
    -- the new label has no offset, and neither has one that does not exist
    rw [addLabel, List.getElem?_append]
    split
    · rfl
    · next hl =>
      rw [List.getElem?_eq_none (Nat.le_of_not_lt hl)]
      rcases l - d.labels.length with _ | k <;> rfl
  | branch hl =>
    exact h.append hopen (by simp)
      (by simp [Call.instruction?, Instruction.settle, jump, add, h.target_eq])
      (by simp [Call.local?, jump, add]) rfl fun _ => rfl
  | branchIfFalse hl =>
    exact h.append hopen (by simp)
      (by simp [Call.instruction?, Instruction.settle, jump, add, h.target_eq])
      (by simp [Call.local?, jump, add]) rfl fun _ => rfl
  | bindLabel hl => exact h.bind hopen hl
  | endMethod hl =>
    have hcode : d.close.code = returning d.code := by
      unfold close returning
      split <;> rfl
    have hlocals : d.close.locals = d.locals := by
      unfold close
      split <;> rfl
    have hlabels : d.close.labels = d.labels := by
      unfold close
      split <;> rfl
    exact h.append hopen (by simp) (by simpa using hcode) (by simpa [Call.local?] using hlocals)
      (by simp [hlabels]) fun l => by rw [hlabels]

end Draft.Recounts

/-! ### Methods that are spared -/

namespace Assembler

/-- A request changes what is written in the innermost open method at most.  A request that opens a
method adds it behind the others, and no other request adds one. -/
structure Spares (c : Call) (a a' : Assembler) : Prop where
  others : ∀ {id : MethodId} {m : Method}, a.methods[id]? = some m → a.opened.head? ≠ some id →
    ∃ m', a'.methods[id]? = some m' ∧ m'.body = m.body
  opens : ∀ {m : Method}, c.opens? = some m → a'.methods = a.methods.push m
  size : c.opens? = none → a'.methods.size = a.methods.size

/-- The method is closed, and this is written in it. -/
structure Rests (id : MethodId) (body : Method.Body) (a : Assembler) : Prop where
  written : ∃ m, a.methods[id]? = some m ∧ m.body = body
  closed : id ∉ a.opened

section

variable {a a' : Assembler} {c : Call} {x : c.Answer} {id : MethodId}

theorem Spares.size_le (h : Spares c a a') : a.methods.size ≤ a'.methods.size := by
  cases hc : c.opens? with
  | none => exact Nat.le_of_eq (h.size hc).symm
  | some m =>
    rw [h.opens hc, Array.size_push]
    exact Nat.le_succ _

/-- No request writes on a method and opens another one as well. -/
theorem Call.opens?_of_grows {d d' : Draft} (h : d.Grows id c x d') : c.opens? = none := by
  cases h <;> rfl

/-- Another method in the place of the innermost one leaves all others alone. -/
theorem Spares.put {rest : List MethodId} {m m' : Method} (hopened : a.opened = id :: rest)
    (hm : a.methods[id]? = some m) (hgrows : m.Grows id c x m')
    (hmethods : a'.methods = (a.put id m').methods) : Spares c a a' where
  others {k n} hn hk := by
    rw [hopened, List.head?_cons] at hk
    refine ⟨n, ?_, rfl⟩
    rw [hmethods, getElem?_put hm, if_neg fun heq => hk (congrArg some heq.symm), hn]
  opens hc := by
    rw [Call.opens?_of_grows hgrows.draft] at hc
    cases hc
  size _ := by rw [hmethods, size_methods_put]

/-- **Only the innermost open method is written on.**  A name of a parameter may be told for any
method, but that is not part of its body. -/
theorem Effect.spares (h : a.Effect c x a') : Spares c a a' := by
  cases h with
  | opens name type parameters hmethods hopened =>
    refine ⟨fun {id m} hm _ => ⟨m, ?_, rfl⟩, fun hc => ?_, fun hc => (by cases hc)⟩
    · have hlt := (Array.getElem?_eq_some_iff.mp hm).1
      rw [hmethods, Array.getElem?_push, if_neg (Nat.ne_of_lt hlt), hm]
    · cases hc
      exact hmethods
  | @names id m m' name ordinal type hm hbody =>
    refine ⟨fun {k n} hn _ => ?_, fun hc => (by cases hc), fun _ => size_methods_put a id m'⟩
    rw [getElem?_put hm]
    split
    · next heq =>
      rw [heq, hm] at hn
      cases hn
      exact ⟨m', rfl, hbody⟩
    · exact ⟨n, hn, rfl⟩
  | writes hc hopened hm hgrows => exact .put hopened hm hgrows rfl
  | ends hopened hm hgrows => exact .put hopened hm hgrows rfl

/-- A method that is open was open before, or has just been declared.  None that was closed is
opened again. -/
theorem Effect.opened_cases (h : a.Effect c x a') (hid : id ∈ a'.opened) :
    id ∈ a.opened ∨ id = a.methods.size := by
  cases h with
  | opens name type parameters hmethods hopened =>
    rw [hopened] at hid
    exact (List.mem_cons.mp hid).symm
  | names => exact .inl hid
  | writes => exact .inl hid
  | ends hopened =>
    rw [hopened]
    exact .inl (.tail _ hid)

/-- **A method that is closed stays as it is**, since it is not the innermost open one and does not
become it. -/
theorem Effect.rests {body : Method.Body} (h : a.Effect c x a') (hrests : a.Rests id body) :
    a'.Rests id body := by
  obtain ⟨⟨m, hm, hbody⟩, hclosed⟩ := hrests
  have hhead : a.opened.head? ≠ some id := fun hhead => hclosed (List.mem_of_head? hhead)
  obtain ⟨m', hm', hbody'⟩ := h.spares.others hm hhead
  refine ⟨⟨m', hm', hbody'.trans hbody⟩, fun hid => ?_⟩
  rcases h.opened_cases hid with hid | rfl
  · exact hclosed hid
  · exact Nat.lt_irrefl _ (Array.getElem?_eq_some_iff.mp hm).1

/-- A method that is ended is closed.  It was open once only. -/
theorem Effect.rests_of_endMethod (ha : a.Consistent) {closed : Method.Closed}
    (h : a.Effect .endMethod closed a') (hid : a.opened.head? = some id) :
    ∃ m, a'.methods[id]? = some m ∧ a'.Rests id m.body := by
  cases h with
  | writes hc => exact absurd rfl hc
  | @ends _ k rest m m' hopened hm hgrows =>
    rw [hopened, List.head?_cons] at hid
    obtain rfl := Option.some.inj hid
    have hm' : (a.put k m').methods[k]? = some m' := by rw [getElem?_put hm, if_pos rfl]
    have hnodup := ha.nodup
    rw [hopened] at hnodup
    exact ⟨m', hm', ⟨m', hm', rfl⟩, (List.nodup_cons.mp hnodup).1⟩

end

/-! ### The story of a program -/

/-- Every method is what the requests ask for that are told of it.  To end it is told exactly of
those that are closed. -/
structure Recounts (history : MethodId → List Call) (a : Assembler) : Prop where
  consistent : a.Consistent
  drafts : ∀ {id : MethodId} {m : Method}, a.methods[id]? = some m →
    m.draft.Recounts id (history id)
  ended : ∀ {id : MethodId}, .endMethod ∈ history id ↔ id < a.methods.size ∧ id ∉ a.opened
  fresh : ∀ {id : MethodId}, a.methods.size ≤ id → history id = []

namespace Recounts

variable {history : MethodId → List Call} {a a' : Assembler} {c : Call} {x : c.Answer}
  {id : MethodId}

/-- Of the innermost open method no end has been told. -/
theorem unended (h : a.Recounts history) (hid : a.opened.head? = some id) :
    .endMethod ∉ history id := fun hmem => (h.ended.mp hmem).2 (List.mem_of_head? hid)

/-- Nothing is told of a method that has not been declared, so its story is empty when it is. -/
theorem untold (h : a.Recounts history) (hid : a.methods.size ≤ id) :
    history id ++ (if a.opened.head? = some id then [c] else []) = [] := by
  have hhead : a.opened.head? ≠ some id := fun hhead =>
    Nat.not_lt.mpr hid (h.consistent.opened_lt id (List.mem_of_head? hhead))
  rw [h.fresh hid, if_neg hhead, List.append_nil]

/-- A request of which nothing shows is told of the innermost method all the same. -/
theorem draft_silent (h : a.Recounts history) {d : Draft} (hd : d.Recounts id (history id))
    (hc : c.silent = true) :
    d.Recounts id (history id ++ if a.opened.head? = some id then [c] else []) := by
  split
  · next hhead => exact hd.append_silent (h.unended hhead) hc
  · rwa [List.append_nil]

/-- A request that writes on the innermost open method is told of that one, and of no other. -/
theorem draft_put (h : a.Recounts history) {rest : List MethodId} {m m' : Method}
    (hopened : a.opened = id :: rest) (hm : a.methods[id]? = some m) (hgrows : m.Grows id c x m')
    {k : MethodId} {n : Method} (hn : (a.put id m').methods[k]? = some n) :
    n.draft.Recounts k (history k ++ if a.opened.head? = some k then [c] else []) := by
  have hhead : a.opened.head? = some id := by rw [hopened, List.head?_cons]
  rw [getElem?_put hm] at hn
  split at hn
  · next hk =>
    subst hk
    cases hn
    rw [if_pos hhead]
    exact (h.drafts hm).grow (h.unended hhead) hgrows.draft
  · next hk =>
    rw [hhead, if_neg fun heq => hk (Option.some.inj heq).symm, List.append_nil]
    exact h.drafts hn

/-- The draft of every method after one request more, by the effect that the request had. -/
theorem drafts_effect (h : a.Recounts history) (heffect : a.Effect c x a') {m : Method}
    (hm : a'.methods[id]? = some m) :
    m.draft.Recounts id (history id ++ if a.opened.head? = some id then [c] else []) := by
  cases heffect with
  | opens name type parameters hmethods hopened =>
    rw [hmethods, Array.getElem?_push] at hm
    split at hm
    · -- the new method was not there before, so nothing has been told of it
      next hnew =>
      cases hm
      rw [h.untold (Nat.le_of_eq hnew.symm)]
      exact .new id name type parameters
    · exact h.draft_silent (h.drafts hm) rfl
  | names name ordinal type hn hbody =>
    refine h.draft_silent ?_ rfl
    rw [getElem?_put hn] at hm
    split at hm
    · next heq =>
      subst heq
      cases hm
      exact (h.drafts hn).of_body hbody
    · exact h.drafts hm
  | writes hc hopened hn hgrows => exact h.draft_put hopened hn hgrows hm
  | ends hopened hn hgrows => exact h.draft_put hopened hn hgrows hm

/-- A request to end a method is told of the methods that are closed, and of those only. -/
theorem ended_effect (h : a.Recounts history) (heffect : a.Effect c x a') :
    (.endMethod ∈ history id ++ if a.opened.head? = some id then [c] else []) ↔
      id < a'.methods.size ∧ id ∉ a'.opened := by
  have hmem : (.endMethod ∈ history id ++ if a.opened.head? = some id then [c] else []) ↔
      (id < a.methods.size ∧ id ∉ a.opened) ∨ a.opened.head? = some id ∧ c = .endMethod := by
    rw [List.mem_append, h.ended]
    split <;> simp [*, eq_comm]
  rw [hmem]
  cases heffect with
  | opens name type parameters hmethods hopened =>
    rw [hmethods, hopened, Array.size_push, List.mem_cons]
    grind
  | names => simp
  | writes hc => simp [hc]
  | @ends closed k rest m m' hopened hm hgrows =>
    -- a method is open only once, so the one that is ended is not among the rest
    have hnodup := h.consistent.nodup
    have hlt := (Array.getElem?_eq_some_iff.mp hm).1
    show _ ↔ id < (a.put k m').methods.size ∧ id ∉ rest
    rw [hopened] at hnodup
    rw [size_methods_put, hopened, List.head?_cons, List.mem_cons]
    grind

/-- A method is made of what is told of it. -/
theorem madeOf (h : a.Recounts history) {m : Method} (hm : a.methods[id]? = some m) :
    m.MadeOf id (history id) (id ∉ a.opened) := by
  have hlt := (Array.getElem?_eq_some_iff.mp hm).1
  have hended : .endMethod ∈ history id ↔ id ∉ a.opened := h.ended.trans (and_iff_right hlt)
  have hmade := (h.drafts hm).madeOf
  rwa [decide_eq_decide.mpr hended] at hmade

/-- **One request more.**  It is told of the innermost open method, and of no other. -/
theorem effect (h : a.Recounts history) (heffect : a.Effect c x a') :
    a'.Recounts fun id => history id ++ if a.opened.head? = some id then [c] else [] where
  consistent := heffect.consistent h.consistent
  drafts := h.drafts_effect heffect
  ended := h.ended_effect heffect
  fresh hid := h.untold (Nat.le_trans heffect.spares.size_le hid)

end Recounts

/-! ### Runs -/

section

variable {s : Logged Assembler} {c : Call} {calls : List Call}

/-- A request is granted and has its effect, or it is refused and opens no method.  A refused
request leaves everything as it is. -/
theorem after_cases (hs : s.value.Consistent) (hc : c.begins = false) :
    (c.granted s = true ∧ ∃ x, s.value.Effect c x (after s c).value) ∨
      c.granted s = false ∧ c.opens? = none ∧ (after s c).value = s.value := by
  rcases Call.perform_fair (Call.effect hs.linked hc) with
    ⟨x, s', hok, heffect⟩ | ⟨f, s', herror, hvalue, -⟩
  · refine .inl ⟨by rw [Call.granted, hok], x, ?_⟩
    rw [after, hok]
    exact heffect
  · refine .inr ⟨by rw [Call.granted, herror], ?_, ?_⟩
    · -- to open a method is never refused
      cases c with
      | declareMethod name type parameters =>
        obtain ⟨⟨_ | p, opened⟩, log⟩ := s <;> cases herror
      | _ => rfl
    · rw [after, herror]
      exact hvalue

/-- Granted or refused, a request changes the innermost open method at most. -/
theorem after_spares (hs : s.value.Consistent) (hc : c.begins = false) :
    Spares c s.value (after s c).value := by
  rcases after_cases hs hc with ⟨-, x, heffect⟩ | ⟨-, hopens, hvalue⟩
  · exact heffect.spares
  · rw [hvalue]
    exact ⟨fun hm _ => ⟨_, hm, rfl⟩, fun hc => (by rw [hopens] at hc; cases hc), fun _ => rfl⟩

/-- Requests that open no method add none. -/
theorem foldl_after_size (hs : s.value.Consistent) (hcalls : ∀ c ∈ calls, c.begins = false)
    (hopens : ∀ c ∈ calls, c.opens? = none) :
    (calls.foldl after s).value.methods.size = s.value.methods.size := by
  induction calls generalizing s with
  | nil => rfl
  | cons c calls ih =>
    obtain ⟨hc, hcalls⟩ := List.forall_mem_cons.mp hcalls
    obtain ⟨hopen, hopens⟩ := List.forall_mem_cons.mp hopens
    exact (ih (after_keeps hs c).1 hcalls hopens).trans ((after_spares hs hc).size hopen)

/-- A method that is closed stays as it is, whatever is asked for and whether it is granted. -/
theorem foldl_after_rests {id : MethodId} {body : Method.Body} (hs : s.value.Consistent)
    (hrests : s.value.Rests id body) (hcalls : ∀ c ∈ calls, c.begins = false) :
    (calls.foldl after s).value.Rests id body := by
  induction calls generalizing s with
  | nil => exact hrests
  | cons c calls ih =>
    obtain ⟨hc, hcalls⟩ := List.forall_mem_cons.mp hcalls
    refine ih (after_keeps hs c).1 ?_ hcalls
    rcases after_cases hs hc with ⟨-, x, heffect⟩ | ⟨-, -, hvalue⟩
    · exact heffect.rests hrests
    · rwa [hvalue]

/-- A method that has been ended stays as it was then, to the end of the run. -/
theorem body_eq_of_endMethod {id : MethodId} (hs : s.value.Consistent)
    (hhead : s.value.opened.head? = some id) (hgranted : Call.endMethod.granted s = true)
    (hcalls : ∀ c ∈ calls, c.begins = false) :
    ∃ m m', (after s .endMethod).value.methods[id]? = some m ∧
      (calls.foldl after (after s .endMethod)).value.methods[id]? = some m' ∧ m'.body = m.body := by
  rcases after_cases (c := .endMethod) hs rfl with ⟨-, closed, heffect⟩ | ⟨hrefused, -, -⟩
  · obtain ⟨m, hm, hrests⟩ := heffect.rests_of_endMethod hs hhead
    obtain ⟨⟨m', hm', hbody⟩, -⟩ := foldl_after_rests (heffect.consistent hs) hrests hcalls
    exact ⟨m, m', hm, hm', hbody⟩
  · rw [hgranted] at hrefused
    cases hrefused

/-- What is told of the methods after a list of requests: the share that each of them has in it. -/
theorem Recounts.foldl {history : MethodId → List Call} (h : s.value.Recounts history)
    (hcalls : ∀ c ∈ calls, c.begins = false) :
    (calls.foldl after s).value.Recounts fun id => history id ++ share id s calls := by
  induction calls generalizing s history with
  | nil => simpa [share] using h
  | cons c calls ih =>
    obtain ⟨hc, hcalls⟩ := List.forall_mem_cons.mp hcalls
    have hafter : (after s c).value.Recounts fun id => history id ++
        if s.value.opened.head? = some id ∧ c.granted s then [c] else [] := by
      rcases after_cases h.consistent hc with ⟨hgranted, x, heffect⟩ | ⟨hgranted, -, hvalue⟩
      · simpa [hgranted] using h.effect heffect
      · simpa [hgranted, hvalue] using h
    simpa [share] using ih hafter hcalls

/-- The assembler when a program has been started, and then requests have been made.  Whatever was
there before is gone. -/
def begun (s : Logged Assembler) (name : String) (calls : List Call) : Logged Assembler :=
  calls.foldl after (after s (.beginProgram name))

theorem begun_append (s : Logged Assembler) (name : String) (calls more : List Call) :
    begun s name (calls ++ more) = more.foldl after (begun s name calls) := List.foldl_append

/-- At the start of a program there is one method, which is open and of which nothing is told. -/
theorem recounts_begun (s : Logged Assembler) (name : String) :
    (begun s name []).value.Recounts fun _ => [] := by
  have hmethods : (begun s name []).value.methods = #[Method.new "main" .void []] := rfl
  have hopened : (begun s name []).value.opened = [0] := rfl
  obtain ⟨x, a', hok, hconsistent⟩ := beginProgram_keeps s.value name
  obtain ⟨-, rfl⟩ := EStateM.Result.ok.inj hok
  refine ⟨hconsistent, fun {id m} hm => ?_, fun {id} => ?_, fun _ => rfl⟩
  · rw [hmethods] at hm
    obtain rfl : m = Method.new "main" .void [] := by simpa using Array.mem_of_getElem? hm
    exact .new id "main" .void []
  · rw [hmethods, hopened]
    simp

/-- What is told of the methods of a program. -/
theorem recounts_begun_calls (s : Logged Assembler) (name : String)
    (hcalls : ∀ c ∈ calls, c.begins = false) :
    (begun s name calls).value.Recounts fun id => share id (begun s name []) calls :=
  (recounts_begun s name).foldl hcalls

end

/-! ### The program -/

/-- Ending methods is asking for it that often. -/
theorem eq_foldl_of_endMethods {count : Nat} {s s' : Logged Assembler} {x : Unit}
    (h : endMethods count s = .ok x s') : s' = (List.replicate count .endMethod).foldl after s := by
  induction count generalizing s with
  | zero => exact (EStateM.Result.ok.inj h).2.symm
  | succ count ih =>
    cases hend : Call.endMethod.perform s with
    | error f s₁ =>
      simp only [endMethods, bind, EStateM.bind, hend] at h
      cases h
    | ok closed s₁ =>
      simp only [endMethods, bind, EStateM.bind, hend] at h
      rw [List.replicate_succ, List.foldl_cons, after, hend]
      exact ih h

/-- So is finishing a program, with as many requests as methods are open. -/
theorem eq_foldl_of_finish {s s' : Logged Assembler} {p : Program} (h : finish s = .ok p s') :
    s' = (List.replicate s.value.opened.length .endMethod).foldl after s := by
  cases hend : endMethods s.value.opened.length s with
  | error f s₁ =>
    rw [finish_of_error hend] at h
    cases h
  | ok x s₁ =>
    rw [finish_of_ok hend] at h
    cases hprogram : s₁.value.program with
    | none =>
      rw [hprogram] at h
      cases h
    | some program =>
      rw [hprogram] at h
      obtain ⟨-, rfl⟩ := EStateM.Result.ok.inj h
      exact eq_foldl_of_endMethods hend

/-- What is told of a method has been asked for. -/
theorem mem_of_mem_share {id : MethodId} {s : Logged Assembler} {calls : List Call} {c : Call}
    (h : c ∈ share id s calls) : c ∈ calls := by
  induction calls generalizing s with
  | nil => cases h
  | cons c' calls ih =>
    rcases List.mem_append.mp h with h | h
    · split at h
      · exact List.mem_cons.mpr (.inl (List.mem_singleton.mp h))
      · cases h
    · exact .tail _ (ih h)

/-- A program is had by asking to end methods until none is open.  All these requests have to be
granted. -/
theorem exists_ends_of_finish {s s' : Logged Assembler} {p : Program} (hs : s.value.Consistent)
    (h : finish s = .ok p s') : ∃ ends : List Call, (∀ c ∈ ends, c = .endMethod) ∧
      s' = ends.foldl after s ∧ s'.value.opened = [] ∧ s'.value.methods = p.methods := by
  obtain ⟨-, -, hopened, hmethods⟩ := (finish_keeps hs).1 p s' h
  exact ⟨_, fun c hc => List.eq_of_mem_replicate hc, eq_foldl_of_finish h, hopened, hmethods⟩

section

variable {s s' : Logged Assembler} {p : Program} (h : finish s = .ok p s') {id : MethodId}
  {m : Method}
include h

/-- Finishing a program adds no methods. -/
theorem size_methods_of_finish (hs : s.value.Consistent) :
    p.methods.size = s.value.methods.size := by
  obtain ⟨ends, hends, rfl, -, hmethods⟩ := exists_ends_of_finish hs h
  rw [← hmethods]
  exact foldl_after_size hs (fun c hc => hends c hc ▸ rfl) fun c hc => hends c hc ▸ rfl

/-- Of a method that is finished the same is told as before, and it is closed now. -/
theorem madeOf_of_finish {history : MethodId → List Call} (hs : s.value.Recounts history)
    (hm : p.methods[id]? = some m) : m.MadeOf id (history id) true := by
  obtain ⟨ends, hends, rfl, hopened, hmethods⟩ := exists_ends_of_finish hs.consistent h
  have hbegins : ∀ c ∈ ends, c.begins = false := fun c hc => hends c hc ▸ rfl
  have hmade := (hs.foldl hbegins).madeOf (hmethods ▸ hm)
  rw [hopened, decide_eq_true List.not_mem_nil] at hmade
  -- requests to end methods ask for nothing else
  exact hmade.of_append_ends fun c hc => hends c (mem_of_mem_share hc)

/-- A method that is closed already goes into the program as it is, without another return. -/
theorem body_eq_of_finish (hs : s.value.Consistent) (hm : p.methods[id]? = some m)
    (hclosed : id ∉ s.value.opened) : ∃ m₀, s.value.methods[id]? = some m₀ ∧ m.body = m₀.body := by
  have hlt : id < s.value.methods.size :=
    size_methods_of_finish h hs ▸ (Array.getElem?_eq_some_iff.mp hm).1
  have hm₀ := Array.getElem?_eq_getElem hlt
  obtain ⟨ends, hends, rfl, -, hmethods⟩ := exists_ends_of_finish hs h
  have hbegins : ∀ c ∈ ends, c.begins = false := fun c hc => hends c hc ▸ rfl
  obtain ⟨⟨m', hm', hbody⟩, -⟩ := foldl_after_rests hs ⟨⟨_, hm₀, rfl⟩, hclosed⟩ hbegins
  rw [hmethods, hm] at hm'
  cases hm'
  exact ⟨_, hm₀, hbody⟩

end

/-- **Methods do not disturb each other.**  Let a program be started, and let then anything be asked
for but to start another one, with whatever numbers of methods, labels and parameters.

* Each request changes what is written in the innermost open method at most; a request that opens a
  method adds it behind the others and changes none.
* Each method is made of what was asked for and granted while it was innermost.
* Once a method has been ended, what is written in it never changes.
* The methods of the program that is had in the end are made of the same requests, and their code
  ends in a return. -/
theorem methods_stay_apart (s : Logged Assembler) (name : String) (calls : List Call)
    (hcalls : ∀ c ∈ calls, c.begins = false) :
    (∀ before c rest, calls = before ++ c :: rest →
      Spares c (begun s name before).value (begun s name (before ++ [c])).value) ∧
    (∀ (id : MethodId) (m : Method), (begun s name calls).value.methods[id]? = some m →
      m.MadeOf id (share id (begun s name []) calls) (id ∉ (begun s name calls).value.opened)) ∧
    (∀ (before rest : List Call) (id : MethodId), calls = before ++ .endMethod :: rest →
      (begun s name before).value.opened.head? = some id →
      Call.endMethod.granted (begun s name before) = true →
      ∃ m m', (begun s name (before ++ [.endMethod])).value.methods[id]? = some m ∧
        (begun s name calls).value.methods[id]? = some m' ∧ m'.body = m.body) ∧
    ∀ (p : Program) (s' : Logged Assembler), finish (begun s name calls) = .ok p s' →
      p.methods.size = (begun s name calls).value.methods.size ∧
      ∀ (id : MethodId) (m : Method), p.methods[id]? = some m →
        m.MadeOf id (share id (begun s name []) calls) true ∧
        (id ∉ (begun s name calls).value.opened →
          ∃ m₀, (begun s name calls).value.methods[id]? = some m₀ ∧ m.body = m₀.body) := by
  have hstory := recounts_begun_calls s name hcalls
  refine ⟨?_, fun id m hm => hstory.madeOf hm, ?_, fun p s' hp => ?_⟩
  · rintro before c rest rfl
    obtain ⟨hbefore, hc, -⟩ :=
      List.forall_mem_append.mp hcalls |>.imp_right List.forall_mem_cons.mp
    rw [begun_append]
    exact after_spares (recounts_begun_calls s name hbefore).consistent hc
  · rintro before rest id rfl hhead hgranted
    obtain ⟨hbefore, -, hrest⟩ :=
      List.forall_mem_append.mp hcalls |>.imp_right List.forall_mem_cons.mp
    rw [begun_append, begun_append]
    exact body_eq_of_endMethod (recounts_begun_calls s name hbefore).consistent hhead hgranted hrest
  · refine ⟨size_methods_of_finish hp hstory.consistent, fun id m hm => ⟨?_, fun hclosed => ?_⟩⟩
    · exact madeOf_of_finish hp hstory hm
    · exact body_eq_of_finish hp hstory.consistent hm hclosed

/-- Requests for a method inside another one.  In between, the label of the outer method is to be
bound while it is not innermost, and later the inner method is spoken of when it is closed. -/
def nestedCalls : List Call :=
  [.newLabel, .branch ⟨0, 0⟩, .declareMethod "f" .int [.int], .bindLabel ⟨0, 0⟩, .newLabel,
    .branchIfFalse ⟨1, 0⟩, .loadParameter ⟨1, 1⟩, .bindLabel ⟨1, 0⟩, .emit .ret, .endMethod,
    .declareParameter 1 "a" 1 .int, .branch ⟨1, 0⟩, .bindLabel ⟨0, 0⟩, .emit .pop]

theorem methods_stay_apart_nested : ∃ p s' outer inner,
    finish (begun { value := {} } "nested" nestedCalls) = .ok p s' ∧
    p.methods[0]? = some outer ∧ p.methods[1]? = some inner ∧
    outer.code.toList = [.branch (.offset 1), .plain .pop, .plain .ret] ∧
    inner.code.toList = [.branchIfFalse (.offset 2), .plain (.loadArg 1), .plain .ret] := by
  have hsome : (finish.run' (begun { value := {} } "nested" nestedCalls)).isSome = true := by
    decide +kernel
  obtain ⟨p, s', hp⟩ : ∃ p s', finish (begun { value := {} } "nested" nestedCalls) = .ok p s' := by
    cases hfinish : finish (begun { value := {} } "nested" nestedCalls) with
    | ok p s' => exact ⟨p, s', rfl⟩
    | error f s' =>
      unfold EStateM.run' EStateM.run at hsome
      rw [hfinish] at hsome
      cases hsome
  obtain ⟨-, -, -, hprogram⟩ := methods_stay_apart { value := {} } "nested" nestedCalls (by decide)
  obtain ⟨hsize, hmethods⟩ := hprogram p s' hp
  have hsize : p.methods.size = 2 := hsize.trans (by decide +kernel)
  have houter := Array.getElem?_eq_getElem (hsize ▸ Nat.zero_lt_two : 0 < p.methods.size)
  have hinner := Array.getElem?_eq_getElem (hsize ▸ Nat.one_lt_two : 1 < p.methods.size)
  refine ⟨p, s', _, _, hp, houter, hinner, ?_, ?_⟩
  · rw [(hmethods 0 _ houter).1.code]
    decide +kernel
  · rw [(hmethods 1 _ hinner).1.code]
    decide +kernel

end Assembler

end OnePass
