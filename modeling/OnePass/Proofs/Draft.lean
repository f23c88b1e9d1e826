import OnePass.Assembler.Code

/-!
# Drafts of methods

While a method is being written, its labels keep lists of the branches that wait for
them.  A draft is the method without these lists: of each label it only has the
offset, if it is known.  That is enough, since in a method that is written step by step
the lists hold exactly the branches whose target is still the label.

## Main definitions

* `Instruction.redirect l n` — sends a branch that waits for label `l` to offset `n`.
* `waitingFor code l` — the offsets of the branches that wait for label `l`.
* `Draft`, `Method.draft` — a method without its lists of waiting branches.
* `Method.Linked` — the lists are what they should be.

## Main results

* `Method.retarget_waitingFor` — **all waiting branches are redirected**, and none is
  found that is no branch.
* `Method.jump_draft`, `Method.bindLabel_draft`, `Method.close_draft` — what the steps on
  a linked method do to its draft.
-/

namespace OnePass

/-! ### Redirected branches -/

/-- The branches there are: one that is always taken, and one that depends on a value. -/
def Instruction.IsBranch (branch : Target → Instruction) : Prop :=
  branch = .branch ∨ branch = .branchIfFalse

/-- The target with the label `l` replaced by an offset.  Other labels stay. -/
def Target.redirect (l offset : Nat) : Target → Target
  | .pending k => if k = l then .offset offset else .pending k
  | .offset n => .offset n

/-- The instruction with the label `l` replaced by an offset, if it is a branch there. -/
def Instruction.redirect (l offset : Nat) : Instruction → Instruction
  | .plain operation => .plain operation
  | .branch target => .branch (target.redirect l offset)
  | .branchIfFalse target => .branchIfFalse (target.redirect l offset)

@[simp] theorem Target.redirect_offset (l o n : Nat) :
    (Target.offset n).redirect l o = .offset n := rfl

@[simp] theorem Instruction.redirect_plain (l o : Nat) (operation : Operation) :
    (Instruction.plain operation).redirect l o = .plain operation := rfl

theorem Instruction.target?_redirect (l o : Nat) (i : Instruction) :
    (i.redirect l o).target? = i.target?.map (Target.redirect l o) := by
  cases i <;> rfl

/-- A target that is another label stays as it is. -/
theorem Target.redirect_of_ne {l o : Nat} {t : Target} (h : t ≠ .pending l) :
    t.redirect l o = t := by
  cases t with
  | offset n => rfl
  | pending k =>
    have hk : k ≠ l := fun hk => h (by rw [hk])
    simp [Target.redirect, hk]

/-- An instruction that does not wait for the label stays as it is, be it a branch or not. -/
theorem Instruction.redirect_of_ne {l o : Nat} {i : Instruction}
    (h : i.target? ≠ some (.pending l)) : i.redirect l o = i := by
  cases i with
  | plain operation => rfl
  | branch t =>
    have ht : t ≠ .pending l := fun ht => h (by rw [ht]; rfl)
    rw [Instruction.redirect, Target.redirect_of_ne ht]
  | branchIfFalse t =>
    have ht : t ≠ .pending l := fun ht => h (by rw [ht]; rfl)
    rw [Instruction.redirect, Target.redirect_of_ne ht]

/-- Where the label is the target, redirecting is what the assembler does.  The assembler would
overwrite any other target as well. -/
theorem Instruction.retarget?_of_pending {l o : Nat} {i : Instruction}
    (h : i.target? = some (.pending l)) :
    Instruction.retarget? (.offset o) i = some (i.redirect l o) := by
  cases i with
  | plain operation => simp [Instruction.target?] at h
  | branch t =>
    obtain rfl : t = .pending l := by simpa [Instruction.target?] using h
    simp [Instruction.retarget?, Instruction.redirect, Target.redirect]
  | branchIfFalse t =>
    obtain rfl : t = .pending l := by simpa [Instruction.target?] using h
    simp [Instruction.retarget?, Instruction.redirect, Target.redirect]

/-! ### Waiting branches -/

/-- The offsets of the branches that wait for a label, in increasing order. -/
def waitingFor (code : List Instruction) (l : Nat) : List Nat :=
  (List.range code.length).filter fun i =>
    decide (code[i]?.bind Instruction.target? = some (.pending l))

theorem mem_waitingFor {code : List Instruction} {l i : Nat} :
    i ∈ waitingFor code l ↔ code[i]?.bind Instruction.target? = some (.pending l) := by
  simp only [waitingFor, List.mem_filter, List.mem_range, decide_eq_true_eq, and_iff_right_iff_imp]
  intro h
  refine Nat.lt_of_not_le fun hle => ?_
  rw [List.getElem?_eq_none hle] at h
  simp at h

/-- One more instruction adds its own offset, if it waits for the label.  So the list stays in
increasing order. -/
theorem waitingFor_append_singleton (code : List Instruction) (i : Instruction) (l : Nat) :
    waitingFor (code ++ [i]) l =
      waitingFor code l ++ if i.target? = some (.pending l) then [code.length] else [] := by
  rw [waitingFor, List.length_append, List.length_singleton, List.range_succ, List.filter_append]
  congr 1
  · refine List.filter_congr fun k hk => ?_
    rw [List.getElem?_append_left (by simpa using hk)]
  · by_cases h : i.target? = some (.pending l) <;> simp [h]

/-- After a label has got its offset, no branch waits for it, and what waits for another
label still does. -/
theorem waitingFor_map_redirect (code : List Instruction) (l o k : Nat) :
    waitingFor (code.map (Instruction.redirect l o)) k =
      if k = l then [] else waitingFor code k := by
  have htarget (i : Nat) : ((code.map (Instruction.redirect l o))[i]?).bind Instruction.target? =
      (code[i]?.bind Instruction.target?).map (Target.redirect l o) := by
    rw [List.getElem?_map]
    cases code[i]? with
    | none => rfl
    | some instruction => simp [Instruction.target?_redirect]
  unfold waitingFor
  rw [List.length_map]
  split
  · -- the label itself: what waited for it has an offset now
    next hk =>
    subst hk
    rw [List.filter_eq_nil_iff]
    intro i _
    rw [htarget]
    rcases code[i]?.bind Instruction.target? with _ | (j | n)
    · simp
    · by_cases hj : j = k <;> simp [Target.redirect, hj]
    · simp
  · -- another label: no branch has come to wait for it or stopped to
    next hk =>
    refine List.filter_congr fun i _ => ?_
    rw [htarget]
    rcases code[i]?.bind Instruction.target? with _ | (j | n)
    · simp
    · by_cases hj : j = l
      · simp [Target.redirect, hj, Ne.symm hk]
      · simp [Target.redirect, hj]
    · simp

theorem getElem?_setIfInBounds_of_lt {α : Type} {xs : Array α} {i : Nat} (hi : i < xs.size)
    (x : α) (k : Nat) : (xs.setIfInBounds i x)[k]? = if k = i then some x else xs[k]? := by
  rw [Array.getElem?_setIfInBounds]
  by_cases hk : i = k
  · simp [hk, hk ▸ hi]
  · simp [hk, Ne.symm hk]

namespace Method

/-- Redirecting a list of branches changes exactly the instructions in the list.  An offset may be
in it twice, because a branch can be redirected again. -/
theorem retarget_eq_ok {o : Nat} : ∀ {offsets : List Nat} {m : Method},
    (∀ i ∈ offsets, ∃ branch, m.code[i]? = some branch ∧ branch.isBranch) →
      ∃ code, retarget o offsets m = .ok () { m with code } ∧
        ∀ j, code[j]? = if j ∈ offsets then
          m.code[j]?.bind (Instruction.retarget? (.offset o)) else m.code[j]? := by
  -- redirecting to the same offset twice is doing it once
  have hagain (i : Instruction) : (Instruction.retarget? (.offset o) i).bind
      (Instruction.retarget? (.offset o)) = Instruction.retarget? (.offset o) i := by
    cases i <;> rfl
  intro offsets
  induction offsets with
  | nil => intro m _; exact ⟨m.code, rfl, by simp⟩
  | cons i rest ih =>
    intro m h
    obtain ⟨branch, hi, hbranch⟩ := h i (by simp)
    obtain ⟨branch', hbranch'⟩ : ∃ branch',
        Instruction.retarget? (.offset o) branch = some branch' := by
      cases branch with
      | plain operation => simp [Instruction.isBranch, Instruction.target?] at hbranch
      | branch t => exact ⟨_, rfl⟩
      | branchIfFalse t => exact ⟨_, rfl⟩
    have hlt : i < m.code.size := (Array.getElem?_eq_some_iff.mp hi).1
    have hset := getElem?_setIfInBounds_of_lt hlt branch'
    -- the first branch is still one after its change, so the rest can be changed
    have hrest : ∀ k ∈ rest, ∃ b, (m.code.setIfInBounds i branch')[k]? = some b ∧ b.isBranch := by
      intro k hk
      rw [hset]
      by_cases hki : k = i
      · refine ⟨branch', by simp [hki], ?_⟩
        cases branch <;> simp [Instruction.retarget?] at hbranch' <;> subst hbranch' <;> rfl
      · simpa [hki] using h k (by simp [hk])
    obtain ⟨code, hcode, hget⟩ := ih (m := { m with code := m.code.setIfInBounds i branch' }) hrest
    refine ⟨code, ?_, fun j => ?_⟩
    · simp [retarget, hi, hbranch', hcode]
    · rw [hget, hset]
      by_cases hji : j = i
      · subst hji
        have hfix : Instruction.retarget? (.offset o) branch' = some branch' := by
          simpa [hbranch'] using hagain branch
        simp [hi, hbranch', hfix]
      · simp [hji]

/-- **All waiting branches are redirected**, and none is found that is no branch.  The list holds
offsets of branches only, which is what the assembler relies on. -/
theorem retarget_waitingFor (m : Method) (l o : Nat) :
    retarget o (waitingFor m.code.toList l) m =
      .ok () { m with code := m.code.map (Instruction.redirect l o) } := by
  have hbranch : ∀ i ∈ waitingFor m.code.toList l, ∃ b, m.code[i]? = some b ∧ b.isBranch := by
    intro i hi
    rw [mem_waitingFor, Array.getElem?_toList] at hi
    cases hb : m.code[i]? with
    | none => rw [hb] at hi; simp at hi
    | some b =>
      rw [hb, Option.bind_some] at hi
      exact ⟨b, rfl, by simp [Instruction.isBranch, hi]⟩
  obtain ⟨code, hcode, hget⟩ := retarget_eq_ok hbranch (o := o)
  suffices heq : code = m.code.map (Instruction.redirect l o) by rw [hcode, heq]
  refine Array.ext_getElem? fun j => ?_
  rw [hget, Array.getElem?_map]
  simp only [mem_waitingFor, Array.getElem?_toList]
  -- outside of the list no branch waits for the label, so redirecting changes nothing there
  cases hj : m.code[j]? with
  | none => simp
  | some i =>
    rw [Option.bind_some]
    by_cases hi : i.target? = some (.pending l)
    · simp [hi, Instruction.retarget?_of_pending hi]
    · simp [hi, Instruction.redirect_of_ne hi]

end Method

/-! ### Drafts -/

/-- A method whose labels are known by their offsets only.  It is what proofs about code talk
about. -/
structure Draft where
  name : String
  returnType : Ty
  parameters : List Parameter := []
  locals : List Variable := []
  code : List Instruction := []
  /-- The offset of each label, if it has one. -/
  labels : List (Option Nat) := []
  deriving DecidableEq, Repr

/-- A method without its lists of waiting branches, which can be told from its code. -/
def Method.draft (m : Method) : Draft where
  name := m.name
  returnType := m.returnType
  parameters := m.parameters.toList
  locals := m.locals.toList
  code := m.code.toList
  labels := m.labels.toList.map LabelState.offset?

namespace Draft

/-- A method of which only the head has been written.  Its parameters have types, but no names
yet. -/
def new (name : String) (returnType : Ty) (types : List Ty) : Draft where
  name := name
  returnType := returnType
  parameters := types.map fun type => ⟨type, none⟩

/-- A method of which only the head has been written, and its parameters named.  All steps that name
one lead there. -/
def headed (name : String) (returnType : Ty) (parameters : List (String × Ty)) : Draft where
  name := name
  returnType := returnType
  parameters := parameters.map fun p => ⟨p.2, some p.1⟩

/-- Adds an instruction at the end. -/
def add (i : Instruction) (d : Draft) : Draft := { d with code := d.code ++ [i] }

/-- Adds a local variable. -/
def addLocal (v : Variable) (d : Draft) : Draft := { d with locals := d.locals ++ [v] }

/-- Adds a label without an offset. -/
def addLabel (d : Draft) : Draft := { d with labels := d.labels ++ [none] }

/-- Where a branch to a label goes: to its offset, or to the label itself as long as it
has none. -/
def target (d : Draft) (l : Nat) : Target :=
  match d.labels[l]? with
  | some (some offset) => .offset offset
  | _ => .pending l

/-- Adds a branch to a label. -/
def jump (branch : Target → Instruction) (l : Nat) (d : Draft) : Draft :=
  d.add (branch (d.target l))

/-- Gives a label the offset of the next instruction, and sends there what waits for it. -/
def bindLabel (l : Nat) (d : Draft) : Draft :=
  { d with
    code := d.code.map (Instruction.redirect l d.code.length)
    labels := d.labels.set l (some d.code.length) }

/-- Names a parameter, which keeps its type. -/
def nameParameter (name : String) (index : Nat) (type : Ty) (d : Draft) : Draft :=
  { d with parameters := d.parameters.set index ⟨type, some name⟩ }

/-- Ends the code in a return, unless it ends in one already. -/
def close (d : Draft) : Draft :=
  if d.code.getLast? = some (.plain .ret) then d else d.add (.plain .ret)

variable {d : Draft}

/-- A label without an offset is its own target. -/
theorem target_of_none {l : Nat} (hl : d.labels[l]? = some none) : d.target l = .pending l := by
  simp [target, hl]

theorem target_of_some {l offset : Nat} (hl : d.labels[l]? = some (some offset)) :
    d.target l = .offset offset := by
  simp [target, hl]

/-- A label that gets its offset is redirected there, and other labels keep their targets. -/
theorem target_bindLabel {l : Nat} (hl : d.labels[l]? = some none) (k : Nat) :
    (d.bindLabel l).target k = (d.target k).redirect l d.code.length := by
  have hlt := (List.getElem?_eq_some_iff.mp hl).1
  by_cases hk : k = l
  · subst hk
    have hbound : (d.bindLabel k).labels[k]? = some (some d.code.length) := by
      simp [bindLabel, hlt]
    rw [target_of_none hl, target_of_some hbound]
    simp [Target.redirect]
  · -- the offset of another label is not touched
    unfold target
    simp only [bindLabel, List.getElem?_set, Ne.symm hk, if_false]
    split
    · rfl
    · simp [Target.redirect, hk]

end Draft

namespace Method

/-- In a method written step by step, a label that has no offset lists exactly the
branches that wait for it, and every branch that waits does so for such a label. -/
structure Linked (m : Method) : Prop where
  waiting : ∀ {l : Nat} {branches : Array Nat}, m.labels[l]? = some (.waiting branches) →
    branches.toList = waitingFor m.code.toList l
  pending : ∀ {i : Instruction} {l : Nat}, i ∈ m.code → i.target? = some (.pending l) →
    ∃ branches, m.labels[l]? = some (.waiting branches)
  bound : ∀ {l offset : Nat}, m.labels[l]? = some (.bound offset) → offset ≤ m.code.size

/-- A step on a method answers `a`, and leaves a linked method with draft `d`. -/
def Writes {α : Type} (step : Coding α) (m : Method) (a : α) (d : Draft) : Prop :=
  ∃ m', step m = .ok a m' ∧ m'.Linked ∧ m'.draft = d

variable {m : Method}

@[simp] theorem draft_code (m : Method) : m.draft.code = m.code.toList := rfl

@[simp] theorem draft_labels (m : Method) :
    m.draft.labels = m.labels.toList.map LabelState.offset? := rfl

/-- The draft tells of each label whether it exists and whether it has an offset.  Nothing else
about labels decides what a step does. -/
theorem draft_labels_getElem? (m : Method) (l : Nat) :
    m.draft.labels[l]? = m.labels[l]?.map LabelState.offset? := by
  rw [draft_labels, List.getElem?_map, Array.getElem?_toList]

/-- A label without an offset in the draft waits in the method, with a list of branches. -/
theorem exists_waiting {l : Nat} (h : m.draft.labels[l]? = some none) :
    ∃ branches, m.labels[l]? = some (.waiting branches) := by
  rw [draft_labels_getElem?] at h
  obtain ⟨state, hstate, hnone⟩ := Option.map_eq_some_iff.mp h
  cases state with
  | bound offset => simp [LabelState.offset?] at hnone
  | waiting branches => exact ⟨branches, hstate⟩

/-- A label with an offset in the draft has it in the method. -/
theorem labels_of_draft {l offset : Nat} (h : m.draft.labels[l]? = some (some offset)) :
    m.labels[l]? = some (.bound offset) := by
  rw [draft_labels_getElem?] at h
  obtain ⟨state, hstate, hsome⟩ := Option.map_eq_some_iff.mp h
  cases state with
  | waiting branches => simp [LabelState.offset?] at hsome
  | bound n =>
    obtain rfl : n = offset := by simpa [LabelState.offset?] using hsome
    exact hstate

namespace Linked

/-- A new method is linked, as it has neither labels nor code. -/
theorem new (name : String) (returnType : Ty) (parameters : Array Parameter) :
    Linked { name, returnType, parameters } where
  waiting h := by simp at h
  pending h := by simp at h
  bound h := by simp at h

/-- What waits in a draft waits for a label without an offset.  So a draft without such labels has
no branch left to redirect. -/
theorem draft_pending (h : m.Linked) {i : Instruction} {l : Nat} (hi : i ∈ m.draft.code)
    (ht : i.target? = some (.pending l)) : m.draft.labels[l]? = some none := by
  obtain ⟨branches, hl⟩ := h.pending (Array.mem_toList_iff.mp hi) ht
  rw [draft_labels_getElem?, hl]
  rfl

/-- An instruction that waits for nothing keeps a method linked: no list has to be changed. -/
theorem push (h : m.Linked) {i : Instruction} (hi : ∀ l, i.target? ≠ some (.pending l)) :
    Linked { m with code := m.code.push i } where
  waiting {l branches} hl := by
    rw [h.waiting hl, Array.toList_push, waitingFor_append_singleton, if_neg (hi l),
      List.append_nil]
  pending {j l} hj ht := by
    rcases Array.mem_push.mp hj with hj | rfl
    · exact h.pending hj ht
    · exact absurd ht (hi l)
  bound hl := by
    have := h.bound hl
    simp only [Array.size_push]
    omega

/-- No branch waits for a label that is not there yet, so it can begin with an empty list. -/
theorem waitingFor_size (h : m.Linked) : waitingFor m.code.toList m.labels.size = [] := by
  rw [List.eq_nil_iff_forall_not_mem]
  intro i hi
  rw [mem_waitingFor, Array.getElem?_toList] at hi
  obtain ⟨instruction, hget, ht⟩ := Option.bind_eq_some_iff.mp hi
  obtain ⟨branches, hl⟩ := h.pending (Array.mem_of_getElem? hget) ht
  simp at hl

/-- A new label has no branch yet, and the branches of the others stay. -/
theorem pushLabel (h : m.Linked) : Linked { m with labels := m.labels.push (.waiting #[]) } where
  waiting {l branches} hl := by
    rw [Array.getElem?_push] at hl
    split at hl
    · next heq =>
      obtain rfl : #[] = branches := by simpa using hl
      rw [heq, h.waitingFor_size]
    · exact h.waiting hl
  pending {i l} hi ht := by
    obtain ⟨branches, hl⟩ := h.pending hi ht
    have hlt := (Array.getElem?_eq_some_iff.mp hl).1
    exact ⟨branches, by rw [Array.getElem?_push, if_neg (by omega), hl]⟩
  bound {l offset} hl := by
    rw [Array.getElem?_push] at hl
    split at hl
    · simp at hl
    · exact h.bound hl

/-- A branch that waits for a label is noted in its list, at the end since it is the last
instruction. -/
theorem pushWaiting (h : m.Linked) {l : Nat} {branches : Array Nat} {i : Instruction}
    (hl : m.labels[l]? = some (.waiting branches)) (hi : i.target? = some (.pending l)) :
    Linked { m with
      labels := m.labels.setIfInBounds l (.waiting (branches.push m.code.size))
      code := m.code.push i } := by
  have hlabels := getElem?_setIfInBounds_of_lt (Array.getElem?_eq_some_iff.mp hl).1
    (LabelState.waiting (branches.push m.code.size))
  constructor
  · intro k bs hk
    rw [hlabels] at hk
    simp only [Array.toList_push, waitingFor_append_singleton, hi]
    by_cases hkl : k = l
    · -- the label itself: its list grows by the new branch
      subst hkl
      obtain rfl : branches.push m.code.size = bs := by simpa using hk
      simp [h.waiting hl]
    · rw [if_neg hkl] at hk
      simp [h.waiting hk, Ne.symm hkl]
  · intro j k hj ht
    simp only [hlabels]
    by_cases hkl : k = l
    · exact ⟨_, by rw [if_pos hkl]⟩
    · rw [if_neg hkl]
      rcases Array.mem_push.mp hj with hj | rfl
      · exact h.pending hj ht
      · -- the new branch waits for this label and no other
        rw [hi] at ht
        simp only [Option.some.injEq, Target.pending.injEq] at ht
        exact absurd ht.symm hkl
  · intro k offset hk
    rw [hlabels] at hk
    by_cases hkl : k = l
    · rw [if_pos hkl] at hk; simp at hk
    · rw [if_neg hkl] at hk
      have := h.bound hk
      simp only [Array.size_push]
      omega

/-- A label gets the offset of the next instruction, and its branches go there.  After that it has
no list. -/
theorem bind (h : m.Linked) {l : Nat} (hl : l < m.labels.size) :
    Linked { m with
      code := m.code.map (Instruction.redirect l m.code.size)
      labels := m.labels.setIfInBounds l (.bound m.code.size) } := by
  have hlabels := getElem?_setIfInBounds_of_lt hl (LabelState.bound m.code.size)
  constructor
  · intro k bs hk
    rw [hlabels] at hk
    by_cases hkl : k = l
    · rw [if_pos hkl] at hk; simp at hk
    · rw [if_neg hkl] at hk
      simp [waitingFor_map_redirect, hkl, h.waiting hk]
  · intro i k hi ht
    obtain ⟨j, hj, rfl⟩ := Array.mem_map.mp hi
    rw [Instruction.target?_redirect] at ht
    obtain ⟨t, htj, ht⟩ := Option.map_eq_some_iff.mp ht
    -- what still waits after the redirection waited for another label before
    cases t with
    | offset n => simp at ht
    | pending k' =>
      by_cases hk' : k' = l
      · simp [Target.redirect, hk'] at ht
      · obtain rfl : k' = k := by simpa [Target.redirect, hk'] using ht
        obtain ⟨bs, hbs⟩ := h.pending hj htj
        exact ⟨bs, by rw [hlabels, if_neg hk', hbs]⟩
  · intro k offset hk
    rw [hlabels] at hk
    by_cases hkl : k = l
    · rw [if_pos hkl] at hk
      obtain rfl : m.code.size = offset := by simpa using hk
      simp
    · rw [if_neg hkl] at hk
      simpa using h.bound hk

end Linked

/-- A label that keeps waiting looks the same in the draft, however long its list. -/
theorem offset?_set_waiting {l : Nat} {branches : Array Nat}
    (hl : m.labels[l]? = some (.waiting branches)) :
    (m.labels.toList.map LabelState.offset?).set l none =
      m.labels.toList.map LabelState.offset? := by
  refine List.ext_getElem? fun k => ?_
  rw [List.getElem?_set]
  by_cases hk : l = k
  · subst hk
    obtain ⟨hlt, hget⟩ := Array.getElem?_eq_some_iff.mp hl
    simp [hlt, hget, LabelState.offset?]
  · simp [hk]

/-! ### Steps on a method -/

theorem add_draft (h : m.Linked) (operation : Operation) :
    Writes (add (.plain operation)) m () (m.draft.add (.plain operation)) :=
  ⟨_, rfl, h.push (by simp [Instruction.target?]), by simp [draft, Draft.add]⟩

theorem addLocal_draft (h : m.Linked) (v : Variable) :
    Writes (addLocal v) m m.draft.locals.length (m.draft.addLocal v) :=
  ⟨_, rfl, ⟨h.waiting, h.pending, h.bound⟩, by simp [draft, Draft.addLocal]⟩

theorem addLabel_draft (h : m.Linked) :
    Writes addLabel m m.draft.labels.length m.draft.addLabel :=
  ⟨_, by simp [addLabel], h.pushLabel, by simp [draft, Draft.addLabel, LabelState.offset?]⟩

/-- A branch to a label that exists goes where the draft says: to an offset that is known, or to the
label. -/
theorem jump_draft (h : m.Linked) {branch : Target → Instruction}
    (hbranch : ∀ t, (branch t).target? = some t) {l : Nat} (hl : l < m.draft.labels.length) :
    Writes (jump branch l) m () (m.draft.jump branch l) := by
  have hlt : l < m.labels.size := by simpa using hl
  have hdraft := draft_labels_getElem? m l
  cases hstate : m.labels[l]? with
  | none => simp only [Array.getElem?_eq_none_iff] at hstate; omega
  | some state =>
    rw [hstate] at hdraft
    cases state with
    -- the offset is known, so no list changes
    | bound offset =>
      refine ⟨{ m with code := m.code.push (branch (.offset offset)) },
        by simp only [jump, hstate], h.push (by simp [hbranch]), ?_⟩
      rw [Draft.jump, Draft.target_of_some hdraft]
      simp [draft, Draft.add]
    -- the branch is noted, which the draft does not see
    | waiting branches =>
      refine ⟨{ m with
          labels := m.labels.setIfInBounds l (.waiting (branches.push m.code.size))
          code := m.code.push (branch (.pending l)) },
        by simp only [jump, hstate], h.pushWaiting hstate (hbranch _), ?_⟩
      rw [Draft.jump, Draft.target_of_none hdraft]
      simp only [draft, Draft.add, Array.toList_push, Array.toList_setIfInBounds,
        List.map_set, LabelState.offset?, offset?_set_waiting hstate]

/-- A label that has no offset gets the offset of the next instruction, which is also the answer. -/
theorem bindLabel_draft (h : m.Linked) {l : Nat} (hl : m.draft.labels[l]? = some none) :
    Writes (bindLabel l) m m.draft.code.length (m.draft.bindLabel l) := by
  obtain ⟨branches, hstate⟩ := exists_waiting hl
  have hlt : l < m.labels.size := (Array.getElem?_eq_some_iff.mp hstate).1
  refine ⟨{ m with
      code := m.code.map (Instruction.redirect l m.code.size)
      labels := m.labels.setIfInBounds l (.bound m.code.size) }, ?_, h.bind hlt, ?_⟩
  · -- the labels have been changed by then, but not the code
    have hretarget := retarget_waitingFor
      { m with labels := m.labels.setIfInBounds l (.bound m.code.size) } l m.code.size
    simp only at hretarget
    simp [bindLabel, hstate, h.waiting hstate, hretarget]
  · simp [draft, Draft.bindLabel, List.map_set, LabelState.offset?]

/-- A parameter of the given type gets its name.  Parameters are counted from one in the request. -/
theorem nameParameter_draft (h : m.Linked) {name : String} {index : Nat} {type : Ty}
    (htype : m.draft.parameters[index]?.map (·.type) = some type) :
    Writes (nameParameter name (index + 1) type) m () (m.draft.nameParameter name index type) := by
  have htype' : m.parameters[index]?.map (·.type) = some type := by
    simpa [draft] using htype
  refine ⟨{ m with parameters := m.parameters.setIfInBounds index ⟨type, some name⟩ },
    by simp [nameParameter, htype'], ⟨h.waiting, h.pending, h.bound⟩, ?_⟩
  simp [draft, Draft.nameParameter]

/-- A method in which every label has its offset can be ended.  A label without one would be an
error. -/
theorem close_draft (h : m.Linked) (hl : ∀ label ∈ m.draft.labels, label.isSome) :
    Writes close m ⟨m.draft.name, m.draft.close.code.length⟩ m.draft.close := by
  have hnone : m.labels.findIdx? (·.offset?.isNone) = none := by
    rw [Array.findIdx?_eq_none_iff]
    intro state hstate
    have := hl state.offset? (List.mem_map.mpr ⟨state, by simpa using hstate, rfl⟩)
    cases hoffset : state.offset? with
    | none => rw [hoffset] at this; simp at this
    | some offset => rfl
  have hback : m.draft.code.getLast? = m.code.back? := by
    rw [draft_code, Array.getLast?_toList]
  unfold Draft.close
  rw [hback]
  -- only a method that does not end in a return gets one
  by_cases hret : m.code.back? = some (.plain .ret)
  · exact ⟨m, by simp [close, hnone, hret, draft], h, by simp [hret]⟩
  · refine ⟨{ m with code := m.code.push (.plain .ret) }, ?_,
      h.push (by simp [Instruction.target?]), by simp [hret, draft, Draft.add]⟩
    simp [close, hnone, hret, draft, Draft.add]

end Method

end OnePass
