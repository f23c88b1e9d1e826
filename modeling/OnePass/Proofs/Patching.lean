import OnePass.Proofs.Effects

/-!
# Labels and their branches

The assembler can be asked for anything in any order, with numbers that are made up, and
it may refuse.  Whatever is asked for, the lists of waiting branches stay what they
should be, and a branch always goes where its label is: to the label as long as that has
no offset, and to its offset from then on.  A request that is refused changes nothing.

A method is done when it is no longer open: all of its labels have offsets, and its code
ends in a return.  So a program that can be had has no branch that waits.

## Main definitions

* `Draft.Carries` — an instruction is a branch to a label.
* `Assembler.Consistent` — what holds between any two requests.
* `Assembler.afterAll`, `Assembler.Granted` — the assembler after a list of requests, and a
  request of the list that was granted.

## Main results

* `Draft.Follows.bindLabel` — a label that gets its offset takes its branches along.
* `Assembler.Call.fair` — **what every request keeps**.
* `Assembler.refused_leaves_no_trace` — **a request that is refused leaves no trace**.
* `Assembler.labels_patched` — **every branch of a program goes to the offset of its label**.
-/

namespace OnePass

/-! ### Branches follow their labels -/

namespace Draft

/-- The instruction at an offset is a branch to the label, or to where it is. -/
def Carries (d : Draft) (branch : Target → Instruction) (l offset : Nat) : Prop :=
  l < d.labels.length ∧ d.code[offset]? = some (branch (d.target l))

/-- A later draft of the same method: branches go where their labels are, and a label that has its
offset keeps it. -/
structure Follows (d d' : Draft) : Prop where
  carries : ∀ {branch : Target → Instruction} {l offset : Nat}, Instruction.IsBranch branch →
    d.Carries branch l offset → d'.Carries branch l offset
  bound : ∀ {l offset : Nat}, d.labels[l]? = some (some offset) → d'.labels[l]? = some (some offset)

namespace Follows

variable {d d' d'' : Draft}

theorem refl (d : Draft) : d.Follows d := ⟨fun _ h => h, fun h => h⟩

theorem trans (h : d.Follows d') (h' : d'.Follows d'') : d.Follows d'' :=
  ⟨fun hbranch hl => h'.carries hbranch (h.carries hbranch hl), fun hl => h'.bound (h.bound hl)⟩

/-- Only code and labels count, and not locals or names. -/
theorem of_eq (hcode : d'.code = d.code) (hlabels : d'.labels = d.labels) : d.Follows d' where
  carries _ h := by
    unfold Carries target at h ⊢
    rwa [hcode, hlabels]
  bound h := by rwa [hlabels]

/-- More code changes none of the branches before it. -/
theorem add (d : Draft) (i : Instruction) : d.Follows (d.add i) where
  carries {_ _ offset} _ h := by
    have hlt := (List.getElem?_eq_some_iff.mp h.2).1
    refine ⟨h.1, ?_⟩
    show (d.code ++ [i])[offset]? = some _
    rw [List.getElem?_append_left hlt]
    exact h.2
  bound h := h

/-- One more label changes none of the others. -/
theorem addLabel (d : Draft) : d.Follows d.addLabel where
  carries {branch l offset} _ h := by
    have htarget : d.addLabel.target l = d.target l := by
      simp [target, Draft.addLabel, List.getElem?_append_left h.1]
    refine ⟨?_, by rw [htarget]; exact h.2⟩
    simp only [Draft.addLabel, List.length_append]
    exact Nat.lt_add_right _ h.1
  bound {l offset} h := by
    have hlt := (List.getElem?_eq_some_iff.mp h).1
    simpa [Draft.addLabel, List.getElem?_append_left hlt] using h

/-- **A label that gets its offset takes its branches along.**  The branches to other labels are
left where they are. -/
theorem bindLabel {l : Nat} (hl : d.labels[l]? = some none) : d.Follows (d.bindLabel l) where
  carries {branch k offset} hbranch h := by
    have hredirect (t : Target) : (branch t).redirect l d.code.length =
        branch (t.redirect l d.code.length) := by
      rcases hbranch with rfl | rfl <;> rfl
    refine ⟨by simpa [Draft.bindLabel] using h.1, ?_⟩
    rw [target_bindLabel hl, ← hredirect, Draft.bindLabel, List.getElem?_map, h.2]
    rfl
  bound {k offset} h := by
    have hne : l ≠ k := by
      rintro rfl
      cases hl.symm.trans h
    simpa [Draft.bindLabel, List.getElem?_set, hne] using h

end Follows

/-- Whatever is written on a method, its branches go where their labels are. -/
theorem Grows.follows {id : MethodId} {c : Assembler.Call} {x : c.Answer} {d d' : Draft}
    (h : d.Grows id c x d') : d.Follows d' := by
  cases h with
  | emit operation => exact .add d _
  | loadParameter ordinal => exact .add d _
  | declareLocal name type => exact .of_eq rfl rfl
  | returnType => exact .refl d
  | newLabel => exact .addLabel d
  | branch hl => exact .add d _
  | branchIfFalse hl => exact .add d _
  | bindLabel hl => exact .bindLabel hl
  | endMethod hl =>
    unfold close
    split
    · exact .refl d
    · exact .add d _

/-- A branch is written where the code ends, for a label that may have its offset or not. -/
theorem carries_jump {d : Draft} {l : Nat} (hl : l < d.labels.length)
    (branch : Target → Instruction) : (d.jump branch l).Carries branch l d.code.length := by
  refine ⟨hl, ?_⟩
  show (d.code ++ [branch (d.target l)])[d.code.length]? = some _
  rw [List.getElem?_append_right (Nat.le_refl _), Nat.sub_self]
  rfl

/-- A label has the offset that was answered. -/
theorem Grows.bound {id : MethodId} {label : Label} {offset : Nat} {d d' : Draft}
    (h : d.Grows id (.bindLabel label) offset d') :
    label.method = id ∧ d'.labels[label.index]? = some (some offset) := by
  cases h with
  | bindLabel hl => exact ⟨rfl, List.getElem?_set_self (List.getElem?_eq_some_iff.mp hl).1⟩

end Draft

/-! ### Steps that are logged -/

namespace Logged

variable {ε σ α β : Type}

/-- A result without the log, to compare runs that have logged different things. -/
def unlogged : EStateM.Result ε (Logged σ) α → EStateM.Result ε σ α
  | .ok a s => .ok a s.value
  | .error e s => .error e s.value

/-- What the steps do to the value does not depend on the log. -/
def Blind (p : EStateM ε (Logged σ) α) : Prop :=
  ∀ value log log', unlogged (p ⟨value, log⟩) = unlogged (p ⟨value, log'⟩)

namespace Blind

theorem pure (a : α) : Blind (pure a : EStateM ε (Logged σ) α) := fun _ _ _ => rfl

/-- The second step sees nothing of the log that the first one has left. -/
theorem bind {p : EStateM ε (Logged σ) α} {f : α → EStateM ε (Logged σ) β} (hp : Blind p)
    (hf : ∀ a, Blind (f a)) : Blind (p >>= f) := by
  intro value log log'
  have h := hp value log log'
  show unlogged (EStateM.bind p f _) = unlogged (EStateM.bind p f _)
  unfold EStateM.bind
  generalize p ⟨value, log⟩ = r, p ⟨value, log'⟩ = r' at h
  -- both runs of the first step end alike, so two of the four cases remain
  obtain ⟨a, s⟩ | ⟨e, s⟩ := r <;> obtain ⟨b, s'⟩ | ⟨e', s'⟩ := r'
  · obtain ⟨rfl, hvalue⟩ := EStateM.Result.ok.inj h
    obtain ⟨value, log⟩ := s
    obtain ⟨value', log'⟩ := s'
    obtain rfl : value = value' := hvalue
    exact hf a value log log'
  · cases h
  · cases h
  · obtain ⟨rfl, hvalue⟩ := EStateM.Result.error.inj h
    exact congrArg (EStateM.Result.error e) hvalue

/-- The value may be looked at, but not the log beside it. -/
theorem get {f : Logged σ → EStateM ε (Logged σ) α} (hf : ∀ s, Blind (f s))
    (hvalue : ∀ value log log', f ⟨value, log⟩ = f ⟨value, log'⟩) : Blind (get >>= f) := by
  intro value log log'
  show unlogged (f ⟨value, log⟩ ⟨value, log⟩) = unlogged (f ⟨value, log'⟩ ⟨value, log'⟩)
  rw [hvalue value log log']
  exact hf _ value log log'

end Blind

end Logged

/-! ### Methods that are done -/

namespace Method

/-- The method is finished: its labels have offsets, and its code ends in a return. -/
structure Done (m : Method) : Prop where
  bound : ∀ state ∈ m.labels, ∃ offset, state = .bound offset
  returns : m.code.back? = some (.plain .ret)

variable {m m' : Method}

/-- A parameter that gets its name leaves a finished method finished. -/
theorem Done.of_body (hdone : m.Done) (hbody : m'.body = m.body) : m'.Done := by
  obtain ⟨hcode, -, hlabels⟩ := Body.mk.inj hbody
  refine ⟨?_, ?_⟩
  · rw [hlabels]
    exact hdone.bound
  · rw [hcode]
    exact hdone.returns

/-- A method that is ended is done.  That its labels have offsets is what ending it asks for, and
the return is added if it is not there. -/
theorem Grows.done {id : MethodId} {closed : Closed} (h : m.Grows id .endMethod closed m') :
    m'.Done := by
  have hgrows := h.draft
  generalize hd : m'.draft = d' at hgrows
  cases hgrows with
  | endMethod hl =>
    have hlabels : m'.draft.labels = m.draft.labels := by
      rw [hd, Draft.close]
      split <;> rfl
    have hlast : m'.draft.code.getLast? = some (.plain .ret) := by
      rw [hd, Draft.close]
      split
      · assumption
      · exact List.getLast?_concat
    refine ⟨fun state hstate => ?_, by simpa using hlast⟩
    have hmem : state.offset? ∈ m'.draft.labels :=
      List.mem_map.mpr ⟨state, Array.mem_toList_iff.mpr hstate, rfl⟩
    have hsome := hl _ (hlabels ▸ hmem)
    cases state with
    | bound offset => exact ⟨offset, rfl⟩
    | waiting branches => cases hsome

variable (hm : m.Linked)
include hm

/-- In a method that is done no branch waits, since only branches to labels without offsets do. -/
theorem Done.target_ne_pending (hdone : m.Done) {i : Instruction} (hi : i ∈ m.code) (l : Nat) :
    i.target? ≠ some (.pending l) := by
  intro htarget
  obtain ⟨branches, hl⟩ := hm.pending hi htarget
  obtain ⟨offset, hbound⟩ := hdone.bound _ (Array.mem_of_getElem? hl)
  cases hbound

omit hm in
/-- In a method that is done a branch goes to the offset of its label, which it has. -/
theorem Done.branch_eq (hdone : m.Done) {branch : Target → Instruction} {l k : Nat}
    (h : m.draft.Carries branch l k) : ∃ offset, m.labels[l]? = some (.bound offset) ∧
      m.code[k]? = some (branch (.offset offset)) := by
  obtain ⟨hlt, hcode⟩ := h
  have hlt : l < m.labels.size := by simpa using hlt
  obtain ⟨offset, hbound⟩ := hdone.bound m.labels[l] (Array.getElem_mem hlt)
  have hlabel : m.labels[l]? = some (.bound offset) := by
    rw [Array.getElem?_eq_getElem hlt, hbound]
  have hdraft : m.draft.labels[l]? = some (some offset) := by
    rw [draft_labels_getElem?, hlabel]
    rfl
  rw [Draft.target_of_some hdraft] at hcode
  exact ⟨offset, hlabel, by simpa using hcode⟩

end Method

/-! ### What holds between requests -/

namespace Assembler

/-- What holds between any two requests: every method is linked, the open methods are there and
differ, and those that are not open are done. -/
structure Consistent (a : Assembler) : Prop where
  linked : ∀ m ∈ a.methods, m.Linked
  opened_lt : ∀ id ∈ a.opened, id < a.methods.size
  nodup : a.opened.Nodup
  done : ∀ {id : MethodId} {m : Method}, a.methods[id]? = some m → id ∉ a.opened → m.Done

/-- A later state of the same program: every method is still there, and was written on at most. -/
def Follows (a a' : Assembler) : Prop :=
  ∀ (id : MethodId) (m : Method), a.methods[id]? = some m →
    ∃ m', a'.methods[id]? = some m' ∧ m.draft.Follows m'.draft

variable {a a' a'' : Assembler} {id : MethodId} {m m' : Method}

theorem Follows.refl (a : Assembler) : a.Follows a := fun _ m hm => ⟨m, hm, .refl _⟩

theorem Follows.trans (h : a.Follows a') (h' : a'.Follows a'') : a.Follows a'' := by
  intro id m hm
  obtain ⟨m', hm', hfollows⟩ := h id m hm
  obtain ⟨m'', hm'', hfollows'⟩ := h' id m' hm'
  exact ⟨m'', hm'', hfollows.trans hfollows'⟩

/-- Writing on a method keeps the rest.  If the method is closed, what is written has to leave it
done. -/
theorem Consistent.put (ha : a.Consistent) (hm : a.methods[id]? = some m) (hlinked : m'.Linked)
    (hdone : id ∉ a.opened → m'.Done) : (a.put id m').Consistent where
  linked n hn := by
    rw [methods_put] at hn
    rcases Array.mem_or_eq_of_mem_setIfInBounds hn with hn | rfl
    · exact ha.linked n hn
    · exact hlinked
  opened_lt k hk := by
    rw [size_methods_put]
    exact ha.opened_lt k hk
  nodup := ha.nodup
  done {k n} hn hk := by
    rw [getElem?_put hm] at hn
    split at hn
    · next heq =>
      cases hn
      exact hdone (heq ▸ hk)
    · exact ha.done hn hk

theorem Follows.put (hm : a.methods[id]? = some m) (h : m.draft.Follows m'.draft) :
    a.Follows (a.put id m') := by
  intro k n hn
  rw [getElem?_put hm]
  split
  · next heq =>
    rw [heq, hm] at hn
    cases hn
    exact ⟨m', rfl, h⟩
  · exact ⟨n, hn, .refl _⟩

/-- One more method, which is open and has a number of its own. -/
theorem Consistent.push (ha : a.Consistent) (hm : m.Linked)
    (hmethods : a'.methods = a.methods.push m) (hopened : a'.opened = a.methods.size :: a.opened) :
    a'.Consistent where
  linked n hn := by
    rw [hmethods] at hn
    rcases Array.mem_push.mp hn with hn | rfl
    · exact ha.linked n hn
    · exact hm
  opened_lt k hk := by
    rw [hopened] at hk
    rw [hmethods, Array.size_push]
    rcases List.mem_cons.mp hk with rfl | hk
    · exact Nat.lt_succ_self _
    · exact Nat.lt_succ_of_lt (ha.opened_lt k hk)
  nodup := by
    rw [hopened]
    exact List.nodup_cons.mpr ⟨fun hk => Nat.lt_irrefl _ (ha.opened_lt _ hk), ha.nodup⟩
  done {k n} hn hk := by
    rw [hopened, List.mem_cons, not_or] at hk
    rw [hmethods, Array.getElem?_push, if_neg hk.1] at hn
    exact ha.done hn hk.2

theorem Follows.push (hmethods : a'.methods = a.methods.push m) : a.Follows a' := by
  intro k n hn
  have hlt := (Array.getElem?_eq_some_iff.mp hn).1
  refine ⟨n, ?_, .refl _⟩
  rw [hmethods, Array.getElem?_push, if_neg (Nat.ne_of_lt hlt), hn]

/-- The innermost open method is done, so it may be taken from the open ones. -/
theorem Consistent.pop {rest : List MethodId} (ha : a.Consistent) (hopened : a.opened = id :: rest)
    (hm : a.methods[id]? = some m) (hdone : m.Done) : Consistent ⟨a.program, rest⟩ where
  linked := ha.linked
  opened_lt k hk := ha.opened_lt k (hopened ▸ .tail _ hk)
  nodup := by
    have hnodup := ha.nodup
    rw [hopened] at hnodup
    exact (List.nodup_cons.mp hnodup).2
  done {k n} hn hk := by
    by_cases heq : k = id
    · subst heq
      cases hm.symm.trans hn
      exact hdone
    · refine ha.done hn fun hmem => ?_
      rw [hopened] at hmem
      rcases List.mem_cons.mp hmem with hmem | hmem
      · exact heq hmem
      · exact hk hmem

/-! ### Requests -/

namespace Effect

variable {c : Call} {x : c.Answer}

/-- What a request does leaves the assembler consistent. -/
theorem consistent (ha : a.Consistent) (h : a.Effect c x a') : a'.Consistent := by
  cases h with
  | opens name type parameters hmethods hopened =>
    exact ha.push (Method.Linked.new name type _) hmethods hopened
  | names name ordinal type hm hbody =>
    -- the only request for a method that may be closed; what is written in it stays as it is
    exact ha.put hm ((ha.linked _ (Array.mem_of_getElem? hm)).of_body hbody) fun hid =>
      (ha.done hm hid).of_body hbody
  | writes hc hopened hm hgrows =>
    refine ha.put hm hgrows.linked fun hid => absurd ?_ hid
    rw [hopened]
    exact .head _
  | ends hopened hm hgrows =>
    -- the method is done while it is still open, so it may be taken from the open ones
    have hput := ha.put hm hgrows.linked fun _ => hgrows.done
    exact hput.pop hopened (by rw [getElem?_put hm, if_pos rfl]) hgrows.done

/-- What a request does is followed by every branch and every label. -/
theorem follows (h : a.Effect c x a') : a.Follows a' := by
  cases h with
  | opens name type parameters hmethods hopened => exact .push hmethods
  | names name ordinal type hm hbody =>
    obtain ⟨hcode, -, hlabels⟩ := Method.Body.mk.inj hbody
    exact .put hm (.of_eq (congrArg Array.toList hcode)
      (congrArg (fun labels => labels.toList.map LabelState.offset?) hlabels))
  | writes hc hopened hm hgrows => exact .put hm hgrows.draft.follows
  | ends hopened hm hgrows =>
    have hput := Follows.put hm hgrows.draft.follows
    exact hput

end Effect

/-- A label gets the offset that is answered, in the method that it belongs to. -/
theorem bindLabel_keeps (ha : a.Consistent) (label : Label) :
    Fair (bindLabel label) a fun offset a' => a'.Consistent ∧ a.Follows a' ∧
      ∃ m m', a.methods[label.method]? = some m ∧ a'.methods[label.method]? = some m' ∧
        m'.draft.labels[label.index]? = some (some offset) := by
  refine (Call.effect (c := .bindLabel label) ha.linked rfl).mono fun offset a' h =>
    ⟨h.consistent ha, h.follows, ?_⟩
  cases h with
  | writes hc hopened hm hgrows =>
    obtain ⟨rfl, hbound⟩ := hgrows.draft.bound
    exact ⟨_, _, hm, by rw [getElem?_put hm, if_pos rfl], hbound⟩

/-- A new program is consistent, whatever was there before. -/
theorem beginProgram_keeps (a : Assembler) (name : String) :
    ∃ x a', beginProgram name a = .ok x a' ∧ a'.Consistent := by
  have hempty : Consistent ⟨some ⟨name, #[]⟩, []⟩ :=
    ⟨fun _ hm => absurd hm (Array.not_mem_empty _), List.forall_mem_nil _, .nil,
      fun hm => by cases hm⟩
  exact ⟨0, _, rfl, hempty.push (Method.Linked.new "main" .void #[]) rfl rfl⟩

/-- Ending a method finishes it, and leaves the ones around it open. -/
theorem endMethod_keeps (ha : a.Consistent) :
    Fair endMethod a fun _ a' => a'.Consistent ∧ a.Follows a' ∧ a'.opened = a.opened.tail := by
  refine (endMethod_effect ha.linked).mono fun closed a' h => ⟨h.consistent ha, h.follows, ?_⟩
  cases h with
  | writes hc => exact absurd rfl hc
  | ends hopened => rw [hopened, List.tail_cons]

/-- **What every request keeps.**  Only the start of another program does not follow up what was
there. -/
theorem Call.fair (ha : a.Consistent) (c : Call) :
    Fair c.run a fun _ a' => a'.Consistent ∧ (c.begins = false → a.Follows a') := by
  cases hc : c.begins with
  | false =>
    exact (Call.effect ha.linked hc).mono fun _ _ h => ⟨h.consistent ha, fun _ => h.follows⟩
  | true =>
    cases c <;> cases hc
    next name =>
      obtain ⟨x, a', hok, hconsistent⟩ := beginProgram_keeps a name
      exact .inl ⟨x, a', hok, hconsistent, fun h => by cases h⟩

/-! ### Runs -/

/-- A request that is logged ends as it does without the log. -/
theorem Call.perform_fair {c : Call} {s : Logged Assembler} {R : c.Answer → Assembler → Prop}
    (h : Fair c.run s.value R) :
    (∃ x s', c.perform s = .ok x s' ∧ R x s'.value) ∨
      ∃ f s', c.perform s = .error f s' ∧ s'.value = s.value ∧ f ≠ .notABranch := by
  obtain ⟨a, log⟩ := s
  rcases h with ⟨x, a', hok, hR⟩ | ⟨f, herror, hf⟩
  · obtain ⟨log', hperform⟩ := perform_ok hok log
    exact .inl ⟨x, ⟨a', log'⟩, hperform, hR⟩
  · refine .inr ⟨f, ⟨a, log.appendList c.announcement⟩, ?_, rfl, hf⟩
    simp only [perform, bind, EStateM.bind, Logged.record, Logged.silently, herror]

/-- The assembler after a request, granted or not. -/
def after (s : Logged Assembler) (c : Call) : Logged Assembler :=
  match c.perform s with
  | .ok _ s' => s'
  | .error _ s' => s'

/-- The assembler after a list of requests, granted or not. -/
def afterAll (calls : List Call) : Logged Assembler := calls.foldl after { value := {} }

/-- After a request the assembler is consistent, granted or not. -/
theorem after_keeps {s : Logged Assembler} (hs : s.value.Consistent) (c : Call) :
    (after s c).value.Consistent ∧ (c.begins = false → s.value.Follows (after s c).value) := by
  rcases Call.perform_fair (c.fair hs) with ⟨x, s', hok, hR⟩ | ⟨f, s', herror, hvalue, -⟩
  · rw [after, hok]
    exact hR
  · rw [after, herror]
    show s'.value.Consistent ∧ _
    rw [hvalue]
    exact ⟨hs, fun _ => .refl _⟩

/-- So it is after any list of requests, and what was written is followed if no program is
started. -/
theorem foldl_after_keeps {s : Logged Assembler} (hs : s.value.Consistent) (calls : List Call) :
    (calls.foldl after s).value.Consistent ∧
      ((∀ c ∈ calls, c.begins = false) → s.value.Follows (calls.foldl after s).value) := by
  induction calls generalizing s with
  | nil => exact ⟨hs, fun _ => .refl _⟩
  | cons c calls ih =>
    obtain ⟨hafter, hfollows⟩ := after_keeps hs c
    obtain ⟨hall, hfollows'⟩ := ih hafter
    refine ⟨hall, fun hbegins => ?_⟩
    obtain ⟨hc, hcalls⟩ := List.forall_mem_cons.mp hbegins
    exact (hfollows hc).trans (hfollows' hcalls)

/-- **Whatever is asked for, the assembler stays consistent.** -/
theorem consistent_afterAll (calls : List Call) : (afterAll calls).value.Consistent := by
  have hempty : Consistent {} := ⟨fun _ hm => absurd hm (Array.not_mem_empty _),
    List.forall_mem_nil _, .nil, fun hm => by cases hm⟩
  exact (foldl_after_keeps hempty calls).1

/-! ### The log -/

/-- Apart from the log, a call is its step on the program. -/
theorem blind_perform (c : Call) : Logged.Blind c.perform := by
  intro a log log'
  simp only [Call.perform, Bind.bind, EStateM.bind, Logged.record, Logged.silently]
  cases c.run a <;> rfl

theorem blind_endMethods (count : Nat) : Logged.Blind (endMethods count) := by
  induction count with
  | zero => exact .pure ()
  | succ count ih => exact (blind_perform .endMethod).bind fun _ => ih

/-- Whether there is a program, and which one, does not depend on the log. -/
theorem blind_finish : Logged.Blind finish := by
  refine .get (fun s => ?_) fun _ _ _ => rfl
  refine (blind_endMethods _).bind fun _ => .get (fun s => ?_) fun _ _ _ => rfl
  cases s.value.program with
  | none => exact fun _ _ _ => rfl
  | some program => exact .pure program

/-! ### Requests that are refused -/

/-- What a request does has nothing to do with the log, whether it is granted or not. -/
theorem value_after (a : Assembler) (log log' : Array Event) (c : Call) :
    (after ⟨a, log⟩ c).value = (after ⟨a, log'⟩ c).value := by
  have h := blind_perform c a log log'
  unfold after
  generalize c.perform ⟨a, log⟩ = r, c.perform ⟨a, log'⟩ = r' at h
  obtain ⟨x, s⟩ | ⟨f, s⟩ := r <;> obtain ⟨y, s'⟩ | ⟨f', s'⟩ := r'
  · exact (EStateM.Result.ok.inj h).2
  · cases h
  · cases h
  · exact (EStateM.Result.error.inj h).2

/-- Neither has what a list of requests does. -/
theorem value_foldl_after {s s' : Logged Assembler} (h : s.value = s'.value) (calls : List Call) :
    (calls.foldl after s).value = (calls.foldl after s').value := by
  induction calls generalizing s s' with
  | nil => exact h
  | cons c calls ih =>
    apply ih
    obtain ⟨a, log⟩ := s
    obtain ⟨a', log'⟩ := s'
    obtain rfl : a = a' := h
    exact value_after a log log' c

/-- **A request that is refused leaves no trace.**  Let the assembler have been asked for anything,
and let it refuse what it is asked for next, whatever numbers and labels that names.  Then the
program with all its methods is what it was, and so are the methods that are open; and whatever is
asked for later on, the assembler ends up where it would have without the refused request. -/
theorem refused_leaves_no_trace (calls : List Call) (c : Call) {f : Fault} {s : Logged Assembler}
    (h : c.perform (afterAll calls) = .error f s) :
    s.value.program = (afterAll calls).value.program ∧
    s.value.opened = (afterAll calls).value.opened ∧
    ∀ more, (afterAll (calls ++ c :: more)).value = (afterAll (calls ++ more)).value := by
  -- the branches that wait for a label are branches, so no request stops halfway
  have hvalue : s.value = (afterAll calls).value := by
    rcases Call.perform_fair (c.fair (consistent_afterAll calls)) with
      ⟨x, s', hok, -⟩ | ⟨f', s', herror, hvalue, -⟩
    · cases h.symm.trans hok
    · obtain ⟨-, rfl⟩ := EStateM.Result.error.inj (h.symm.trans herror)
      exact hvalue
  have hafter : after (afterAll calls) c = s := by rw [after, h]
  refine ⟨congrArg Assembler.program hvalue, congrArg Assembler.opened hvalue, fun more => ?_⟩
  calc (afterAll (calls ++ c :: more)).value
      = (more.foldl after (after (afterAll calls) c)).value :=
        congrArg Logged.value List.foldl_append
    _ = (more.foldl after (afterAll calls)).value := by
        rw [hafter]
        exact value_foldl_after hvalue more
    _ = (afterAll (calls ++ more)).value := congrArg Logged.value List.foldl_append.symm

/-- Requests after which a branch waits for its label. -/
def waitingCalls : List Call := [.beginProgram "waiting", .newLabel, .branch ⟨0, 0⟩]

theorem refused_leaves_no_trace_waiting : ∃ f s,
    Call.endMethod.perform (afterAll waitingCalls) = .error f s ∧
    s.value.program = (afterAll waitingCalls).value.program ∧
    (afterAll (waitingCalls ++ [.endMethod, .bindLabel ⟨0, 0⟩, .endMethod])).value =
      (afterAll (waitingCalls ++ [.bindLabel ⟨0, 0⟩, .endMethod])).value := by
  have hnone : (Call.endMethod.perform.run' (afterAll waitingCalls)).isNone = true := by
    decide +kernel
  cases hs : Call.endMethod.perform (afterAll waitingCalls) with
  | ok x s =>
    unfold EStateM.run' EStateM.run at hnone
    rw [hs] at hnone
    cases hnone
  | error f s =>
    obtain ⟨hprogram, -, hmore⟩ := refused_leaves_no_trace waitingCalls .endMethod hs
    exact ⟨f, s, rfl, hprogram, hmore [.bindLabel ⟨0, 0⟩, .endMethod]⟩

-- In a method that no requests lead to, a label can be left with its offset and without its
-- branches.
example : ∃ m, Method.bindLabel 0 { name := "", returnType := .void, labels := #[.waiting #[0]] } =
    .error .notABranch m ∧ m.labels = #[.bound 0] := ⟨_, rfl, rfl⟩

/-! ### The program -/

/-- Ending methods finishes them, one after the other from the innermost one on. -/
theorem endMethods_keeps {s : Logged Assembler} (hs : s.value.Consistent) (count : Nat) :
    (∀ x s', endMethods count s = .ok x s' → s'.value.Consistent ∧ s.value.Follows s'.value ∧
      s'.value.opened = s.value.opened.drop count) ∧
    ∀ f s', endMethods count s = .error f s' → f ≠ .notABranch := by
  induction count generalizing s with
  | zero =>
    refine ⟨fun x s' hok => ?_, fun f s' herror => (by cases herror)⟩
    obtain ⟨-, rfl⟩ := EStateM.Result.ok.inj hok
    exact ⟨hs, .refl _, rfl⟩
  | succ count ih =>
    -- the innermost one is ended or the rest is not tried
    rcases Call.perform_fair (c := .endMethod) (endMethod_keeps hs) with
      ⟨closed, s₁, hok₁, hs₁, hfollows, hopened⟩ | ⟨f, s₁, herror, -, hf⟩
    · have heq : endMethods (count + 1) s = endMethods count s₁ := by
        simp only [endMethods, bind, EStateM.bind, hok₁]
      rw [heq]
      refine ⟨fun x s' hok => ?_, (ih hs₁).2⟩
      obtain ⟨hs', hfollows', hopened'⟩ := (ih hs₁).1 x s' hok
      refine ⟨hs', hfollows.trans hfollows', ?_⟩
      rw [hopened', hopened, List.drop_tail]
    · have heq : endMethods (count + 1) s = .error f s₁ := by
        simp only [endMethods, bind, EStateM.bind, herror]
      rw [heq]
      refine ⟨fun x s' hok => (by cases hok), fun f' s' herror' => ?_⟩
      obtain ⟨rfl, -⟩ := EStateM.Result.error.inj herror'
      exact hf

/-- Once all methods are ended, the program is there if one was started. -/
theorem finish_of_ok {s s₁ : Logged Assembler} {x : Unit}
    (h : endMethods s.value.opened.length s = .ok x s₁) :
    finish s = s₁.value.program.elim (.error .noProgram s₁) (.ok · s₁) := by
  unfold finish
  show EStateM.bind (endMethods s.value.opened.length) _ s = _
  unfold EStateM.bind
  rw [h]
  obtain ⟨⟨_ | program, opened⟩, log⟩ := s₁ <;> rfl

theorem finish_of_error {s s₁ : Logged Assembler} {f : Fault}
    (h : endMethods s.value.opened.length s = .error f s₁) : finish s = .error f s₁ := by
  unfold finish
  show EStateM.bind (endMethods s.value.opened.length) _ s = _
  unfold EStateM.bind
  rw [h]

/-- Finishing a program finishes its methods.  Afterwards none is open. -/
theorem finish_keeps {s : Logged Assembler} (hs : s.value.Consistent) :
    (∀ p s', finish s = .ok p s' → s'.value.Consistent ∧ s.value.Follows s'.value ∧
      s'.value.opened = [] ∧ s'.value.methods = p.methods) ∧
    ∀ f s', finish s = .error f s' → f ≠ .notABranch := by
  obtain ⟨hok, herror⟩ := endMethods_keeps hs s.value.opened.length
  cases hend : endMethods s.value.opened.length s with
  | error f s₁ =>
    rw [finish_of_error hend]
    refine ⟨fun p s' h => (by cases h), fun f' s' h => ?_⟩
    obtain ⟨rfl, -⟩ := EStateM.Result.error.inj h
    exact herror f s₁ hend
  | ok x s₁ =>
    obtain ⟨hs₁, hfollows, hopened⟩ := hok x s₁ hend
    rw [finish_of_ok hend]
    cases hprogram : s₁.value.program with
    | none =>
      refine ⟨fun p s' h => (by cases h), fun f' s' h => ?_⟩
      obtain ⟨rfl, -⟩ := EStateM.Result.error.inj h
      simp
    | some program =>
      refine ⟨fun p s' h => ?_, fun f' s' h => (by cases h)⟩
      obtain ⟨rfl, rfl⟩ := EStateM.Result.ok.inj h
      exact ⟨hs₁, hfollows, by rw [hopened, List.drop_length], by simp [methods, hprogram]⟩

/-- The branch that a request asks for, and its label. -/
def Call.jump? : Call → Option ((Target → Instruction) × Label)
  | .branch label => some (.branch, label)
  | .branchIfFalse label => some (.branchIfFalse, label)
  | _ => none

/-- A branch is written for its label, which the innermost open method owns. -/
theorem Call.jump?_carries {c : Call} {branch : Target → Instruction} {label : Label}
    (hc : c.jump? = some (branch, label)) {x : c.Answer} {d d' : Draft} (h : d.Grows id c x d') :
    label.method = id ∧ d'.Carries branch label.index d.code.length := by
  cases h <;> cases hc
  · next hl => exact ⟨rfl, d.carries_jump hl _⟩
  · next hl => exact ⟨rfl, d.carries_jump hl _⟩

/-- A branch that is asked for and granted is written at the end of the code. -/
theorem Call.jump?_keeps (ha : a.Consistent) {c : Call} {branch : Target → Instruction}
    {label : Label} (hc : c.jump? = some (branch, label)) : Instruction.IsBranch branch ∧
      Fair c.run a fun _ a' => ∃ m m', a.methods[label.method]? = some m ∧
        a'.methods[label.method]? = some m' ∧
        m'.draft.Carries branch label.index m.code.size := by
  have hbegins : c.begins = false := by
    cases c with
    | beginProgram => cases hc
    | _ => rfl
  refine ⟨?_, (Call.effect ha.linked hbegins).mono fun x a' h => ?_⟩
  · cases c <;> cases hc
    · exact .inl rfl
    · exact .inr rfl
  · cases h with
    | opens => cases hc
    | names => cases hc
    | writes _ hopened hm hgrows =>
      obtain ⟨rfl, hcarries⟩ := Call.jump?_carries hc hgrows.draft
      exact ⟨_, _, hm, by rw [getElem?_put hm, if_pos rfl], hcarries⟩
    | ends => cases hc

/-- A request of the list was granted at a given state, and no program was started after it.  What
comes before and after it in the list may be refused or not. -/
def Granted (calls : List Call) (c : Call) (x : c.Answer) (s : Logged Assembler) : Prop :=
  ∃ (before rest : List Call) (s' : Logged Assembler), calls = before ++ c :: rest ∧
    s = afterAll before ∧ c.perform s = .ok x s' ∧ ∀ c' ∈ rest, c'.begins = false

theorem Granted.consistent {calls : List Call} {c : Call} {x : c.Answer} {s : Logged Assembler}
    (h : Granted calls c x s) : s.value.Consistent := by
  obtain ⟨before, -, -, -, rfl, -⟩ := h
  exact consistent_afterAll before

/-- What a granted request did to a method is followed up to the end of the list. -/
theorem Granted.follows {calls : List Call} {c : Call} {x : c.Answer} {s : Logged Assembler}
    (h : Granted calls c x s) {R : c.Answer → Assembler → Prop} (hR : Fair c.run s.value R) :
    ∃ a', R x a' ∧ a'.Follows (afterAll calls).value := by
  obtain ⟨before, rest, s', rfl, rfl, hok, hrest⟩ := h
  have hafter : after (afterAll before) c = s' := by rw [after, hok]
  have hs' : s'.value.Consistent := hafter ▸ (after_keeps (consistent_afterAll before) c).1
  refine ⟨s'.value, ?_, ?_⟩
  · rcases Call.perform_fair hR with ⟨y, s'', hok', hy⟩ | ⟨f, s'', herror, -⟩
    · obtain ⟨rfl, rfl⟩ := EStateM.Result.ok.inj (hok.symm.trans hok')
      exact hy
    · cases hok.symm.trans herror
  · have hall : afterAll (before ++ c :: rest) = rest.foldl after s' := by
      rw [← hafter]
      exact List.foldl_append
    rw [hall]
    exact (foldl_after_keeps hs' rest).2 hrest

/-- **Every branch of a program goes to the offset of its label.**  Let the assembler be asked
for anything, and let it refuse what it will.  Then its methods are linked, a request that
is refused changes nothing, and no waiting instruction is ever found that is no branch.  If
the program can be had, no branch waits in it, every label has an offset, every method ends
in a return, a label has the offset that was answered when it was bound, and what was
written for a label, before or after that, is a branch to this offset. -/
theorem labels_patched (calls : List Call) :
    (∀ m ∈ (afterAll calls).value.methods, m.Linked) ∧
    (∀ (c : Call) (f : Fault) (s : Logged Assembler), c.perform (afterAll calls) = .error f s →
      f ≠ .notABranch ∧ s.value = (afterAll calls).value) ∧
    (∀ (f : Fault) (s : Logged Assembler), finish (afterAll calls) = .error f s →
      f ≠ .notABranch) ∧
    ∀ (p : Program) (s : Logged Assembler), finish (afterAll calls) = .ok p s →
      (∀ m ∈ p.methods, m.Linked ∧ m.Done ∧
        ∀ i ∈ m.code, ∀ l, i.target? ≠ some (.pending l)) ∧
      (∀ (label : Label) (offset : Nat) (s₀ : Logged Assembler),
        Granted calls (.bindLabel label) offset s₀ → ∃ m, p.methods[label.method]? = some m ∧
          m.labels[label.index]? = some (.bound offset)) ∧
      ∀ (c : Call) (x : c.Answer) (s₀ : Logged Assembler) (branch : Target → Instruction)
        (label : Label), Granted calls c x s₀ → c.jump? = some (branch, label) →
        ∃ m₀ m offset, s₀.value.methods[label.method]? = some m₀ ∧
          p.methods[label.method]? = some m ∧ m.labels[label.index]? = some (.bound offset) ∧
          m.code[m₀.code.size]? = some (branch (.offset offset)) := by
  have hcalls := consistent_afterAll calls
  obtain ⟨hfinish, herror⟩ := finish_keeps hcalls
  refine ⟨hcalls.linked, fun c f s hc => ?_, herror, fun p s hp => ?_⟩
  · rcases Call.perform_fair (c.fair hcalls) with ⟨x, s', hok, -⟩ | ⟨f', s', herror', hvalue, hf⟩
    · cases hc.symm.trans hok
    · obtain ⟨rfl, rfl⟩ := EStateM.Result.error.inj (hc.symm.trans herror')
      exact ⟨hf, hvalue⟩
  · obtain ⟨hs, hfollows, hopened, hmethods⟩ := hfinish p s hp
    have hdone {id : MethodId} {m : Method} (hm : p.methods[id]? = some m) : m.Done := by
      rw [← hmethods] at hm
      exact hs.done hm (by rw [hopened]; exact List.not_mem_nil)
    refine ⟨fun m hm => ?_, fun label offset s₀ hgranted => ?_,
      fun c x s₀ branch label hgranted hjump => ?_⟩
    · -- no method is open, so all of them are done
      obtain ⟨id, hid⟩ := Array.mem_iff_getElem?.mp hm
      have hlinked : m.Linked := hs.linked m (hmethods ▸ hm)
      exact ⟨hlinked, hdone hid, fun i hi l => (hdone hid).target_ne_pending hlinked hi l⟩
    · have hs₀ := hgranted.consistent
      obtain ⟨a', ⟨-, -, m₀, m', -, hm', hlabel⟩, hfollows'⟩ :=
        hgranted.follows (bindLabel_keeps hs₀ label)
      obtain ⟨m, hm, hdraft⟩ := hfollows'.trans hfollows _ _ hm'
      exact ⟨m, hmethods ▸ hm, Method.labels_of_draft (hdraft.bound hlabel)⟩
    · -- the branch carries its label from the state after the request to the program
      have hs₀ := hgranted.consistent
      obtain ⟨hbranch, hkeeps⟩ := Call.jump?_keeps hs₀ hjump
      obtain ⟨a', ⟨m₀, m', hm₀, hm', hcarries⟩, hfollows'⟩ := hgranted.follows hkeeps
      obtain ⟨m, hm, hdraft⟩ := hfollows'.trans hfollows _ _ hm'
      rw [hmethods] at hm
      obtain ⟨offset, hlabel, hcode⟩ := (hdone hm).branch_eq (hdraft.carries hbranch hcarries)
      exact ⟨m₀, m, offset, hm₀, hm, hlabel, hcode⟩

/-- Requests for a branch to a label that gets its offset later, and some that are refused. -/
def forwardCalls : List Call :=
  [.emit .pop, .beginProgram "forward", .newLabel, .branch ⟨0, 0⟩, .bindLabel ⟨0, 7⟩,
    .bindLabel ⟨0, 0⟩, .bindLabel ⟨0, 0⟩, .branchIfFalse ⟨0, 0⟩]

theorem labels_patched_forward : ∃ p s m offset, finish (afterAll forwardCalls) = .ok p s ∧
    p.methods[0]? = some m ∧ m.labels[0]? = some (.bound offset) ∧
    m.code[0]? = some (.branch (.offset offset)) := by
  have hsome : (finish.run' (afterAll forwardCalls)).isSome = true := by decide +kernel
  obtain ⟨p, s, hp⟩ : ∃ p s, finish (afterAll forwardCalls) = .ok p s := by
    cases hfinish : finish (afterAll forwardCalls) with
    | ok p s => exact ⟨p, s, rfl⟩
    | error f s =>
      unfold EStateM.run' EStateM.run at hsome
      rw [hfinish] at hsome
      cases hsome
  have hgranted : Granted forwardCalls (.branch ⟨0, 0⟩) () (afterAll (forwardCalls.take 3)) :=
    ⟨forwardCalls.take 3, forwardCalls.drop 4, _, rfl, rfl, rfl, by decide⟩
  obtain ⟨-, -, -, hprogram⟩ := labels_patched forwardCalls
  obtain ⟨m₀, m, offset, hm₀, hm, hlabel, hcode⟩ :=
    (hprogram p s hp).2.2 _ _ _ .branch ⟨0, 0⟩ hgranted rfl
  obtain rfl := Option.some.inj hm₀
  exact ⟨p, s, m, offset, hp, hm, hlabel, hcode⟩

end Assembler

end OnePass
