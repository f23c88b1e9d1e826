import Mathlib.Data.List.Induction
import Mathlib.Data.List.Infix
import Mathlib.Data.Nat.Find
import OnePass.Proofs.Unwinding

/-!
# Names by the history of the scopes

The scopes keep a map from names to numbers for every scope that is open.  What the maps
mean can be told by looking back at the calls that have been made: a scope is open if it has been
entered and not been left again, and a name stands for what it was last declared as in the
innermost open scope that declares it.

## Main definitions

* `Scopes.Region` — the scopes of a history, each known by the call that opened it.
* `Scopes.Region.IsOpen`, `Scopes.Region.IsCurrent` — the regions that have not been left, and
  the innermost of them.
* `Scopes.Region.Decides` — the region is the innermost one that declares a name.
* `Scopes.Latest` — the number a name was last declared with in a region.
* `Scopes.Lexical` — what lexical scoping makes of a history.

## Main results

* `Scopes.Tracks.isCurrent_iff` — the region that was opened last is the current one.
* `Scopes.Mirrors.after` — the maps agree with the history after every call.
* `Scopes.afterAll_of_inside` — what is done inside a scope leaves no trace outside of it.
* `Scopes.names_by_history` — **the scopes are lexical scopes**.
-/

namespace OnePass.Scopes

/-! ### Histories -/

/-- The scopes of a history: two that are always there, and those that calls have opened. -/
inductive Region
  | outermost
  | program
  /-- The scope opened by the call of this number; the calls are counted from zero. -/
  | opened (call : Nat)

/-- A region is inside the ones of a lower rank that are open at the same time.  Regions are opened
one after the other, so the number of the call is enough to tell. -/
def Region.rank : Region → Nat
  | .outermost => 0
  | .program => 1
  | .opened call => call + 2

theorem Region.rank_injective {r r' : Region} (h : r.rank = r'.rank) : r = r' := by
  cases r <;> cases r' <;> simp [rank] at h <;> simp [h]

/-- The calls do not leave the scope they begin in: at no time have more scopes been left than
entered. -/
def Call.Inside (calls : List Call) : Prop :=
  ∀ front, front <+: calls → front.count .exit ≤ front.count .enter

instance (calls : List Call) : Decidable (Call.Inside calls) :=
  decidable_of_iff (∀ front ∈ calls.inits, front.count .exit ≤ front.count .enter) (by
    simp only [Call.Inside, List.mem_inits])

namespace Region

/-- The region has been opened, and not been left since.  The two that are always there cannot be
left. -/
def IsOpen (history : List Call) : Region → Prop
  | .outermost => True
  | .program => True
  | .opened i => history[i]? = some .enter ∧ Call.Inside (history.drop (i + 1))

/-- The region is the innermost open one. -/
def IsCurrent (history : List Call) (r : Region) : Prop :=
  r.IsOpen history ∧ ∀ r' : Region, r'.IsOpen history → r'.rank ≤ r.rank

end Region

/-- A call after a history declares a name in a region: a global one in the outermost region, and
any other one in the current region. -/
def Call.DeclaresIn (history : List Call) (c : Call) (name : String) (r : Region) : Prop :=
  c.entity?.map Entity.name = some name ∧ if c.declares then r.IsCurrent history else r = .outermost

/-- The call of number `i` declared the name in the region.  Where it did so depends on the calls
before it. -/
def DeclaredBy (history : List Call) (i : Nat) (name : String) (r : Region) : Prop :=
  ∃ c, history[i]? = some c ∧ c.DeclaresIn (history.take i) name r

/-- The answer of a call that was granted. -/
def answer? {α : Type} : EStateM.Result Fault Scopes α → Option α
  | .ok a _ => some a
  | .error _ _ => none

/-- The number a declaration answers, in the given scopes.  Other calls answer none. -/
def Call.number? (s : Scopes) : Call → Option EntityId
  | .declareGlobal entity => answer? (run (.declareGlobal entity) s)
  | .declareMethod name returnType => answer? (run (.declareMethod name returnType) s)
  | .declareParameter name ty ordinal => answer? (run (.declareParameter name ty ordinal) s)
  | .declareLocal name ty slot => answer? (run (.declareLocal name ty slot) s)
  | _ => none

/-- The last call that declared the name in the region answered with the number.  Names may be
declared again, and then the last time counts. -/
def Latest (history : List Call) (name : String) (r : Region) (id : EntityId) : Prop :=
  ∃ i c, history[i]? = some c ∧ c.DeclaresIn (history.take i) name r ∧
    c.number? (({} : Scopes).afterAll (history.take i)) = some id ∧
    ∀ j, DeclaredBy history j name r → j ≤ i

/-- The region is the innermost open one that declares the name.  There may be others inside of it
that do not. -/
def Region.Decides (history : List Call) (name : String) (r : Region) : Prop :=
  r.IsOpen history ∧ (∃ i, DeclaredBy history i name r) ∧
    ∀ r' : Region, r'.IsOpen history → (∃ i, DeclaredBy history i name r') → r'.rank ≤ r.rank

variable {history : List Call} {openings : List Nat} {s : Scopes}

theorem afterAll_append (s : Scopes) (calls calls' : List Call) :
    s.afterAll (calls ++ calls') = (s.afterAll calls).afterAll calls' := List.foldl_append

/-! ### Regions that are open -/

/-- Calls stay inside of their scope if they did so up to the last one, and it leaves no more than
was entered. -/
theorem Call.inside_concat {calls : List Call} {c : Call} : Call.Inside (calls ++ [c]) ↔
    Call.Inside calls ∧ (calls ++ [c]).count .exit ≤ (calls ++ [c]).count .enter := by
  constructor
  · intro h
    exact ⟨fun front hfront => h front (hfront.trans (List.prefix_append calls [c])),
      h _ (List.prefix_refl _)⟩
  · rintro ⟨h, hlast⟩ front hfront
    rcases List.prefix_concat_iff.mp hfront with rfl | hfront
    · exact hlast
    · exact h front hfront

section

variable (calls : List Call)

theorem Call.count_concat_enter : (calls ++ [Call.enter]).count .enter = calls.count .enter + 1 ∧
    (calls ++ [Call.enter]).count .exit = calls.count .exit := by
  simp

theorem Call.count_concat_exit : (calls ++ [Call.exit]).count .enter = calls.count .enter ∧
    (calls ++ [Call.exit]).count .exit = calls.count .exit + 1 := by
  simp

theorem Call.count_concat_of_stays {c : Call} (hc : c.Stays) :
    (calls ++ [c]).count .enter = calls.count .enter ∧
      (calls ++ [c]).count .exit = calls.count .exit := by
  obtain ⟨hne, hne'⟩ : c ≠ .enter ∧ c ≠ .exit := by
    constructor <;> rintro rfl <;> exact hc
  simp [hne, hne']

end

/-- A call opens a region, or leaves it open unless it is the call that leaves it. -/
theorem Region.isOpen_concat {i : Nat} {c : Call} : (opened i).IsOpen (history ++ [c]) ↔
    (i = history.length ∧ c = .enter) ∨ (opened i).IsOpen history ∧
      (history.drop (i + 1) ++ [c]).count .exit ≤ (history.drop (i + 1) ++ [c]).count .enter := by
  simp only [IsOpen]
  -- the region was opened before this call, by it, or not at all
  rcases Nat.lt_trichotomy i history.length with hi | rfl | hi
  · have hne : i ≠ history.length := Nat.ne_of_lt hi
    rw [List.getElem?_append_left hi, List.drop_append_of_le_length hi, Call.inside_concat]
    simp only [hne, false_and, false_or, and_assoc]
  · have hinside : Call.Inside [] := by
      intro front hfront
      rw [List.prefix_nil.mp hfront]
      exact Nat.le_refl _
    simp [hinside]
  · have hnone : history[i]? = none := List.getElem?_eq_none (Nat.le_of_lt hi)
    have hnone' : (history ++ [c])[i]? = none := List.getElem?_eq_none (by simp; omega)
    have hne : i ≠ history.length := Nat.ne_of_gt hi
    simp [hnone, hnone', hne]

/-- The calls that opened the regions still open, the last one first.  Behind each of them, scopes
have been entered as many times more than left as there are open regions inside. -/
structure Tracks (history : List Call) (openings : List Nat) : Prop where
  mem_iff : ∀ i, i ∈ openings ↔ (Region.opened i).IsOpen history
  sorted : openings.Pairwise (· > ·)
  excess : ∀ k i, openings[k]? = some i →
    (history.drop (i + 1)).count .enter = (history.drop (i + 1)).count .exit + k

namespace Tracks

theorem nil : Tracks [] [] := by
  refine ⟨fun i => ?_, .nil, fun k i h => by simp at h⟩
  simp [Region.IsOpen]

/-- Regions have been opened by calls of the history. -/
theorem lt_length (h : Tracks history openings) {i : Nat} (hi : i ∈ openings) :
    i < history.length := by
  obtain ⟨henter, -⟩ := (h.mem_iff i).mp hi
  exact (List.getElem?_eq_some_iff.mp henter).1

/-- The calls behind an opening, after one more call. -/
theorem drop_concat (h : Tracks history openings) {i : Nat} (hi : i ∈ openings) (c : Call) :
    (history ++ [c]).drop (i + 1) = history.drop (i + 1) ++ [c] :=
  List.drop_append_of_le_length (h.lt_length hi)

/-- One more region is open, inside of all others, and each of those has one more inside. -/
theorem enter (h : Tracks history openings) :
    Tracks (history ++ [.enter]) (history.length :: openings) := by
  refine ⟨fun i => ?_, ?_, fun k i hk => ?_⟩
  · rw [Region.isOpen_concat, List.mem_cons, h.mem_iff]
    constructor
    · rintro (rfl | hi)
      · exact .inl ⟨rfl, rfl⟩
      · obtain ⟨henter, hexit⟩ := Call.count_concat_enter (history.drop (i + 1))
        refine .inr ⟨hi, ?_⟩
        rw [henter, hexit]
        exact Nat.le_succ_of_le (hi.2 _ (List.prefix_refl _))
    · rintro (⟨rfl, -⟩ | ⟨hi, -⟩)
      · exact .inl rfl
      · exact .inr hi
  · exact List.pairwise_cons.mpr ⟨fun i hi => h.lt_length hi, h.sorted⟩
  · cases k with
    | zero =>
      obtain rfl : history.length = i := by simpa using hk
      simp
    | succ k =>
      have hk : openings[k]? = some i := by simpa using hk
      obtain ⟨henter, hexit⟩ := Call.count_concat_enter (history.drop (i + 1))
      rw [h.drop_concat (List.mem_of_getElem? hk), henter, hexit, h.excess k i hk]
      rfl

/-- The innermost region is left.  If there is none but the two that are always there, nothing is
left. -/
theorem exit (h : Tracks history openings) : Tracks (history ++ [.exit]) openings.tail := by
  -- the innermost region is the only one without a surplus of entries behind its opening
  have hsurplus {k i : Nat} (hk : openings[k]? = some i) :
      (history.drop (i + 1) ++ [Call.exit]).count .exit ≤
        (history.drop (i + 1) ++ [Call.exit]).count .enter ↔ 0 < k := by
    obtain ⟨henter, hexit⟩ := Call.count_concat_exit (history.drop (i + 1))
    rw [henter, hexit, h.excess k i hk]
    omega
  refine ⟨fun i => ?_, h.sorted.sublist (List.tail_sublist _), fun k i hk => ?_⟩
  · have hne : ¬ (i = history.length ∧ Call.exit = .enter) := by simp
    rw [Region.isOpen_concat, or_iff_right hne, ← h.mem_iff]
    constructor
    · intro hi
      obtain ⟨k, hk⟩ := List.mem_iff_getElem?.mp hi
      rw [List.getElem?_tail] at hk
      exact ⟨List.mem_of_mem_tail hi, (hsurplus hk).mpr (Nat.succ_pos k)⟩
    · rintro ⟨hi, hle⟩
      obtain ⟨k, hk⟩ := List.mem_iff_getElem?.mp hi
      obtain ⟨k, rfl⟩ := Nat.exists_eq_add_of_lt ((hsurplus hk).mp hle)
      refine List.mem_iff_getElem?.mpr ⟨k, ?_⟩
      rw [List.getElem?_tail]
      simpa using hk
  · rw [List.getElem?_tail] at hk
    obtain ⟨henter, hexit⟩ := Call.count_concat_exit (history.drop (i + 1))
    rw [h.drop_concat (List.mem_of_getElem? hk), henter, hexit, h.excess (k + 1) i hk]
    omega

/-- Other calls neither open a region nor leave one. -/
theorem stay (h : Tracks history openings) {c : Call} (hc : c.Stays) :
    Tracks (history ++ [c]) openings := by
  refine ⟨fun i => ?_, h.sorted, fun k i hk => ?_⟩
  · have hnot : ¬ (i = history.length ∧ c = .enter) := by
      rintro ⟨-, rfl⟩
      exact hc
    obtain ⟨henter, hexit⟩ := Call.count_concat_of_stays (history.drop (i + 1)) hc
    rw [Region.isOpen_concat, or_iff_right hnot, h.mem_iff, henter, hexit]
    exact ⟨fun hi => ⟨hi, hi.2 _ (List.prefix_refl _)⟩, fun hi => hi.1⟩
  · obtain ⟨henter, hexit⟩ := Call.count_concat_of_stays (history.drop (i + 1)) hc
    rw [h.drop_concat (List.mem_of_getElem? hk), henter, hexit]
    exact h.excess k i hk

/-- The region that was opened last is the current one, or that of the program if there is none. -/
theorem isCurrent_iff (h : Tracks history openings) {r : Region} : r.IsCurrent history ↔
    r = (openings.head?.map Region.opened).getD .program := by
  -- it is open, and all others are of a lower rank
  have hinnermost : ((openings.head?.map Region.opened).getD .program).IsCurrent history := by
    cases openings with
    | nil =>
      refine ⟨trivial, fun r' hr' => ?_⟩
      cases r' with
      | opened i => cases (h.mem_iff i).mpr hr'
      | outermost => exact Nat.zero_le _
      | program => exact Nat.le_refl _
    | cons i rest =>
      refine ⟨(h.mem_iff i).mp List.mem_cons_self, fun r' hr' => ?_⟩
      cases r' with
      | opened j =>
        rcases List.mem_cons.mp ((h.mem_iff j).mpr hr') with rfl | hj
        · exact Nat.le_refl _
        · have hlt := (List.pairwise_cons.mp h.sorted).1 j hj
          exact Nat.add_le_add_right (Nat.le_of_lt hlt) 2
      | outermost => exact Nat.zero_le _
      | program => exact Nat.succ_le_succ (Nat.zero_le _)
  constructor
  · intro hr
    exact Region.rank_injective
      (Nat.le_antisymm (hinnermost.2 r hr.1) (hr.2 _ hinnermost.1))
  · rintro rfl
    exact hinnermost

end Tracks

/-! ### Declarations -/

theorem lt_length_of_declaredBy {i : Nat} {name : String} {r : Region}
    (h : DeclaredBy history i name r) : i < history.length := by
  obtain ⟨c, hc, -⟩ := h
  exact (List.getElem?_eq_some_iff.mp hc).1

section

variable {c : Call} {i : Nat} {name : String} {r : Region} {id : EntityId}

/-- Calls that have been made are not changed by further ones, and neither is where they
declared. -/
theorem declaredBy_concat : DeclaredBy (history ++ [c]) i name r ↔
    DeclaredBy history i name r ∨ i = history.length ∧ c.DeclaresIn history name r := by
  rcases Nat.lt_trichotomy i history.length with hi | rfl | hi
  · have hne : i ≠ history.length := Nat.ne_of_lt hi
    simp only [DeclaredBy, List.getElem?_append_left hi,
      List.take_append_of_le_length (Nat.le_of_lt hi), hne, false_and, or_false]
  · simp [DeclaredBy]
  · have hne : i ≠ history.length := Nat.ne_of_gt hi
    refine iff_of_false (fun h => ?_) ?_
    · have hlt := lt_length_of_declaredBy h
      rw [List.length_append, List.length_singleton] at hlt
      omega
    · rintro (h | ⟨rfl, -⟩)
      · exact absurd (lt_length_of_declaredBy h) (Nat.not_lt.mpr (Nat.le_of_lt hi))
      · exact hne rfl

/-- A declaration is the latest one right after it has been made. -/
theorem latest_concat_of_declares (hc : c.DeclaresIn history name r) :
    Latest (history ++ [c]) name r id ↔ c.number? (({} : Scopes).afterAll history) = some id := by
  have hlast : DeclaredBy (history ++ [c]) history.length name r :=
    declaredBy_concat.mpr (.inr ⟨rfl, hc⟩)
  constructor
  · rintro ⟨i, c', hi, hc', hid, hmax⟩
    have hle := hmax _ hlast
    have hlt : i < (history ++ [c]).length := (List.getElem?_eq_some_iff.mp hi).1
    rw [List.length_append, List.length_singleton] at hlt
    obtain rfl : i = history.length := by omega
    obtain rfl : c = c' := by simpa using hi
    simpa using hid
  · intro hid
    refine ⟨history.length, c, by simp, by simpa using hc, by simpa using hid, fun j hj => ?_⟩
    have hlt := lt_length_of_declaredBy hj
    rw [List.length_append, List.length_singleton] at hlt
    omega

/-- Other calls leave the latest declaration what it was, also those that declare the name in
another region. -/
theorem latest_concat_of_not (hc : ¬ c.DeclaresIn history name r) :
    Latest (history ++ [c]) name r id ↔ Latest history name r id := by
  have hdeclared {j : Nat} : DeclaredBy (history ++ [c]) j name r ↔
      DeclaredBy history j name r := by
    rw [declaredBy_concat]
    exact or_iff_left fun h => hc h.2
  constructor
  · rintro ⟨i, c', hi, hc', hid, hmax⟩
    have hlt := lt_length_of_declaredBy (hdeclared.mp ⟨c', hi, hc'⟩)
    rw [List.take_append_of_le_length (Nat.le_of_lt hlt)] at hc' hid
    rw [List.getElem?_append_left hlt] at hi
    exact ⟨i, c', hi, hc', hid, fun j hj => hmax j (hdeclared.mpr hj)⟩
  · rintro ⟨i, c', hi, hc', hid, hmax⟩
    have hlt : i < history.length := (List.getElem?_eq_some_iff.mp hi).1
    refine ⟨i, c', ?_, ?_, ?_, fun j hj => hmax j (hdeclared.mp hj)⟩
    · rwa [List.getElem?_append_left hlt]
    · rwa [List.take_append_of_le_length (Nat.le_of_lt hlt)]
    · rwa [List.take_append_of_le_length (Nat.le_of_lt hlt)]

/-- Every declaration answers with the number of the next entity, whatever the entity is. -/
theorem Call.number?_eq {entity : Entity} (h : c.entity? = some entity) (s : Scopes) :
    c.number? s = some s.entities.size := by
  have hdeclare (entity : Entity) : (s.declare entity).1 = s.entities.size := by
    obtain ⟨entities, outermost, program, nested⟩ := s
    cases nested <;> rfl
  cases c with
  | declareGlobal _ => rfl
  | declareMethod _ _ => exact congrArg some (hdeclare _)
  | declareParameter _ _ _ => exact congrArg some (hdeclare _)
  | declareLocal _ _ _ => exact congrArg some (hdeclare _)
  | _ => cases h

/-- Of the declarations of a name in a region, one is the latest, as there are no more than
calls. -/
theorem exists_latest (h : DeclaredBy history i name r) : ∃ id, Latest history name r id := by
  classical
  have hle {j : Nat} (hj : DeclaredBy history j name r) : j ≤ history.length :=
    Nat.le_of_lt (lt_length_of_declaredBy hj)
  obtain ⟨c, hc, hin⟩ := Nat.findGreatest_spec (P := (DeclaredBy history · name r)) (hle h) h
  obtain ⟨entity, hentity, -⟩ := Option.map_eq_some_iff.mp hin.1
  exact ⟨_, _, c, hc, hin, Call.number?_eq hentity _, fun j hj => Nat.le_findGreatest (hle hj) hj⟩

end

/-! ### Maps -/

/-- The map of a region tells the latest declaration of every name in it, and nothing of other
names. -/
def Region.Holds (history : List Call) (r : Region) (scope : Scope) : Prop :=
  ∀ (name : String) (id : EntityId), scope[name]? = some id ↔ Latest history name r id

namespace Region.Holds

variable {r : Region} {scope : Scope} {c : Call}

/-- A region holds a name if it declares it, however often. -/
theorem isSome_iff (h : r.Holds history scope) {name : String} :
    scope[name]?.isSome = true ↔ ∃ i, DeclaredBy history i name r := by
  rw [Option.isSome_iff_exists]
  constructor
  · rintro ⟨id, hid⟩
    obtain ⟨i, c, hi, hc, -, -⟩ := (h name id).mp hid
    exact ⟨i, c, hi, hc⟩
  · rintro ⟨i, hi⟩
    obtain ⟨id, hid⟩ := exists_latest hi
    exact ⟨id, (h name id).mpr hid⟩

/-- A call that declares nothing in the region leaves its map as it is. -/
theorem keep (h : r.Holds history scope) (hc : ∀ name, ¬ c.DeclaresIn history name r) :
    r.Holds (history ++ [c]) scope := by
  intro name id
  rw [latest_concat_of_not (hc name)]
  exact h name id

/-- A call that declares an entity in the region: its name now has the number of the next entity. -/
theorem insert (h : r.Holds history scope) {entity : Entity} (hentity : c.entity? = some entity)
    (hin : if c.declares then r.IsCurrent history else r = .outermost) :
    r.Holds (history ++ [c])
      (scope.insert entity.name (({} : Scopes).afterAll history).entities.size) := by
  intro name id
  rw [Std.TreeMap.getElem?_insert]
  -- the name may have had a number before, which is replaced
  by_cases hname : entity.name = name
  · have hc : c.DeclaresIn history name r := ⟨by rw [hentity, Option.map_some, hname], hin⟩
    rw [latest_concat_of_declares hc, Call.number?_eq hentity, if_pos (by simp [hname])]
  · have hc : ¬ c.DeclaresIn history name r := by
      rintro ⟨hc, -⟩
      rw [hentity] at hc
      exact hname (Option.some.inj hc)
    rw [latest_concat_of_not hc, if_neg (by simpa using hname)]
    exact h name id

/-- A new region is empty. -/
theorem empty : (Region.opened history.length).Holds (history ++ [.enter]) ∅ := by
  intro name id
  refine iff_of_false (by simp) ?_
  rintro ⟨i, c, hi, hc, -, -⟩
  rcases declaredBy_concat.mp ⟨c, hi, hc⟩ with h | ⟨-, h⟩
  · -- nothing could be declared in it before it was opened
    obtain ⟨c', hc', -, hin⟩ := h
    have hlt : i < history.length := (List.getElem?_eq_some_iff.mp hc').1
    split at hin
    · obtain ⟨⟨henter, -⟩, -⟩ := hin
      have hlt' := (List.getElem?_eq_some_iff.mp henter).1
      rw [List.length_take] at hlt'
      omega
    · cases hin
  · cases h.1

end Region.Holds

/-- The maps of the open scopes agree with the history, each with the region that it is the map
of. -/
structure Mirrors (history : List Call) (openings : List Nat) (s : Scopes) : Prop where
  tracks : Tracks history openings
  nested : List.Forall₂ (fun i scope => (Region.opened i).Holds history scope) openings s.nested
  program : Region.program.Holds history s.program
  outermost : Region.outermost.Holds history s.outermost

namespace Mirrors

/-- A call that declares nothing.  It may still have changed entities in place. -/
theorem keep {c : Call} (h : Mirrors history openings s) (hc : c.Stays) (hnone : c.entity? = none)
    (entities : Array Entity) : Mirrors (history ++ [c]) openings { s with entities } := by
  have hnot (name : String) (r : Region) : ¬ c.DeclaresIn history name r := by
    rintro ⟨hname, -⟩
    rw [hnone] at hname
    cases hname
  exact ⟨h.tracks.stay hc, h.nested.imp fun _ _ hi => hi.keep (hnot · _), h.program.keep (hnot · _),
    h.outermost.keep (hnot · _)⟩

/-- A new scope has an empty map, and declares nothing in the others. -/
theorem enter (h : Mirrors history openings s) :
    Mirrors (history ++ [.enter]) (history.length :: openings) s.enter := by
  have hnot (name : String) (r : Region) : ¬ Call.enter.DeclaresIn history name r := by
    rintro ⟨hname, -⟩
    cases hname
  exact ⟨h.tracks.enter, .cons .empty (h.nested.imp fun _ _ hi => hi.keep (hnot · _)),
    h.program.keep (hnot · _), h.outermost.keep (hnot · _)⟩

/-- The map of the innermost region is gone with the region. -/
theorem exit (h : Mirrors history openings s) :
    Mirrors (history ++ [.exit]) openings.tail { s with nested := s.nested.tail } := by
  have hnot (name : String) (r : Region) : ¬ Call.exit.DeclaresIn history name r := by
    rintro ⟨hname, -⟩
    cases hname
  refine ⟨h.tracks.exit, ?_, h.program.keep (hnot · _), h.outermost.keep (hnot · _)⟩
  obtain ⟨entities, outermost, program, nested⟩ := s
  rcases h.nested with _ | ⟨-, hrest⟩
  · exact .nil
  · exact hrest.imp fun _ _ hi => hi.keep (hnot · _)

/-- A global declaration goes to the outermost region. -/
theorem declareGlobal (h : Mirrors history openings (({} : Scopes).afterAll history))
    (entity : Entity) : Mirrors (history ++ [.declareGlobal entity]) openings
      ((({} : Scopes).afterAll history).declareGlobal entity).2 := by
  have hnot (name : String) {r : Region} (hr : r ≠ .outermost) :
      ¬ (Call.declareGlobal entity).DeclaresIn history name r := fun hin => hr hin.2
  have hstays : (Call.declareGlobal entity).Stays := trivial
  exact ⟨h.tracks.stay hstays, h.nested.imp fun _ _ hi => hi.keep (hnot · (by simp)),
    h.program.keep (hnot · (by simp)), h.outermost.insert rfl rfl⟩

/-- Any other declaration goes to the current region, whose map is the innermost one. -/
theorem declare {c : Call} {entity : Entity}
    (h : Mirrors history openings (({} : Scopes).afterAll history)) (hc : c.Stays)
    (hentity : c.entity? = some entity) (hdeclares : c.declares = true) :
    Mirrors (history ++ [c]) openings ((({} : Scopes).afterAll history).declare entity).2 := by
  -- of the open regions only the current one is declared in
  have hcurrent (r : Region) := h.tracks.isCurrent_iff (r := r)
  have hnot (name : String) {r : Region}
      (hr : r ≠ (openings.head?.map Region.opened).getD .program) :
      ¬ c.DeclaresIn history name r := by
    rintro ⟨-, hin⟩
    rw [if_pos hdeclares] at hin
    exact hr ((hcurrent r).mp hin)
  have hin : if c.declares then
      ((openings.head?.map Region.opened).getD .program).IsCurrent history else
      ((openings.head?.map Region.opened).getD .program) = .outermost := by
    rw [if_pos hdeclares]
    exact (hcurrent _).mpr rfl
  have hinsert {r : Region} {scope : Scope} (hr : r.Holds history scope)
      (hr' : r = (openings.head?.map Region.opened).getD .program) :
      r.Holds (history ++ [c])
        (scope.insert entity.name (({} : Scopes).afterAll history).entities.size) := by
    subst hr'
    exact hr.insert hentity hin
  have hsorted := h.tracks.sorted
  obtain ⟨htracks, hnested, hprogram, houtermost⟩ := h
  generalize ({} : Scopes).afterAll history = s at *
  obtain ⟨entities, outermost, program, nested⟩ := s
  cases hnested with
  | nil =>
    exact ⟨htracks.stay hc, .nil, hinsert hprogram rfl, houtermost.keep (hnot · (by simp))⟩
  | @cons i scope rest scopes hi hrest =>
    refine ⟨htracks.stay hc, .cons (hinsert hi rfl) ?_, hprogram.keep (hnot · (by simp)),
      houtermost.keep (hnot · (by simp))⟩
    -- the regions around the current one have been opened before it
    have hbefore := (List.pairwise_cons.mp hsorted).1
    refine List.forall₂_iff_zip.mpr ⟨hrest.length_eq, fun {j scope'} hmem => ?_⟩
    have hj : j ≠ i := Nat.ne_of_lt (hbefore j (List.of_mem_zip hmem).1)
    exact ((List.forall₂_iff_zip.mp hrest).2 hmem).keep (hnot · (by simpa using hj))

/-- The maps agree with the history after one more call, whether it is granted or not. -/
theorem after (h : Mirrors history openings (({} : Scopes).afterAll history)) (c : Call) :
    ∃ openings', Mirrors (history ++ [c]) openings' ((({} : Scopes).afterAll history).after c) := by
  rcases (({} : Scopes).afterAll history).after_cases c with ⟨rfl, hafter⟩ | ⟨rfl, hafter⟩ |
    ⟨hc, entity, hentity, hdeclares, hafter⟩ |
    ⟨hc, -, ⟨entity, rfl, hafter⟩ | ⟨hnone, entities, -, hafter⟩⟩
  · rw [hafter]
    exact ⟨_, h.enter⟩
  · rw [hafter]
    exact ⟨_, h.exit⟩
  · rw [hafter]
    exact ⟨_, h.declare hc hentity hdeclares⟩
  · rw [hafter]
    exact ⟨_, h.declareGlobal entity⟩
  · rw [hafter]
    exact ⟨_, h.keep hc hnone entities⟩

end Mirrors

/-- The maps agree with every history, by induction on its calls from the first one on. -/
theorem exists_mirrors (history : List Call) :
    ∃ openings, Mirrors history openings (({} : Scopes).afterAll history) := by
  induction history using List.reverseRecOn with
  | nil =>
    have hempty (r : Region) : r.Holds [] ∅ := by
      intro name id
      refine iff_of_false (by simp) ?_
      rintro ⟨i, c, hi, -⟩
      cases hi
    exact ⟨[], .nil, .nil, hempty _, hempty _⟩
  | append_singleton history c ih =>
    obtain ⟨openings, h⟩ := ih
    rw [afterAll_append]
    exact h.after c

/-! ### What a name stands for -/

/-- The open regions, the innermost first.  The two that are always there come last. -/
def regions (openings : List Nat) : List Region := openings.map .opened ++ [.program, .outermost]

theorem Tracks.mem_regions (h : Tracks history openings) {r : Region} :
    r ∈ regions openings ↔ r.IsOpen history := by
  cases r with
  | outermost => simp [regions, Region.IsOpen]
  | program => simp [regions, Region.IsOpen]
  | opened i => simp [regions, h.mem_iff]

/-- They come in the order of their ranks. -/
theorem Tracks.pairwise_regions (h : Tracks history openings) :
    (regions openings).Pairwise (·.rank > ·.rank) := by
  refine List.pairwise_append.mpr ⟨?_, by simp [Region.rank], ?_⟩
  · exact List.pairwise_map.mpr (h.sorted.imp fun hij => Nat.add_lt_add_right hij 2)
  · intro r hr r' hr'
    obtain ⟨i, -, rfl⟩ := List.mem_map.mp hr
    have hr' : r' = .program ∨ r' = .outermost := by simpa using hr'
    rcases hr' with rfl | rfl <;> simp [Region.rank]

theorem Mirrors.chain (h : Mirrors history openings s) :
    List.Forall₂ (Region.Holds history) (regions openings) s.chain :=
  List.rel_append (List.forall₂_map_left_iff.mpr h.nested)
    (.cons h.program (.cons h.outermost .nil))

theorem Mirrors.innermost (h : Mirrors history openings s) :
    ((openings.head?.map Region.opened).getD .program).Holds history s.innermost := by
  obtain ⟨entities, outermost, program, nested⟩ := s
  rcases h.nested with _ | ⟨hi, -⟩
  · exact h.program
  · exact hi

/-- The first map that knows a name is the one of the innermost region that declares it.  The
regions are in order, so the first one is the innermost. -/
theorem findSome?_eq_some_iff {regions : List Region} {scopes : List Scope}
    (h : List.Forall₂ (Region.Holds history) regions scopes)
    (hsorted : regions.Pairwise (·.rank > ·.rank)) {name : String} {id : EntityId} :
    scopes.findSome? (·[name]?) = some id ↔ ∃ r ∈ regions, Latest history name r id ∧
      ∀ r' ∈ regions, (∃ i, DeclaredBy history i name r') → r'.rank ≤ r.rank := by
  induction h with
  | nil => simp
  | @cons r scope regions scopes hr _ ih =>
    obtain ⟨hbelow, hsorted⟩ := List.pairwise_cons.mp hsorted
    rw [List.findSome?_cons]
    rcases hname : scope[name]? with _ | found
    · -- a region that does not declare the name does not count on either side
      have hnot : ¬ ∃ i, DeclaredBy history i name r := by
        rw [← hr.isSome_iff, hname]
        exact Bool.false_ne_true
      have hlatest : ¬ Latest history name r id := by
        rw [← hr name id, hname]
        simp
      rw [ih hsorted]
      simp only [List.exists_mem_cons_iff, List.forall_mem_cons, hlatest, hnot, false_and, false_or,
        false_implies, true_and]
    · have hdeclared : ∃ i, DeclaredBy history i name r := by
        rw [← hr.isSome_iff, hname]
        rfl
      constructor
      · intro hfound
        refine ⟨r, List.mem_cons_self, (hr name id).mp (hname.trans hfound), ?_⟩
        intro r' hr' _
        rcases List.mem_cons.mp hr' with rfl | hr'
        · exact Nat.le_refl _
        · exact Nat.le_of_lt (hbelow r' hr')
      · -- a region further out cannot decide, since this one declares the name and is inside of it
        rintro ⟨r', hr', hlatest, hmax⟩
        rcases List.mem_cons.mp hr' with rfl | hr'
        · exact hname.symm.trans ((hr name id).mpr hlatest)
        · have hle := hmax r List.mem_cons_self hdeclared
          exact absurd (hbelow r' hr') (Nat.not_lt.mpr hle)

/-- Names are looked up as lexical scoping says. -/
theorem Mirrors.resolve?_iff (h : Mirrors history openings s) {name : String} {id : EntityId} :
    s.resolve? name = some id ↔
      ∃ r : Region, r.Decides history name ∧ Latest history name r id := by
  rw [resolve?, findSome?_eq_some_iff h.chain h.tracks.pairwise_regions]
  simp only [h.tracks.mem_regions]
  constructor
  · rintro ⟨r, hopen, hlatest, hmax⟩
    have hdeclared : ∃ i, DeclaredBy history i name r := by
      obtain ⟨i, c, hi, hc, -, -⟩ := hlatest
      exact ⟨i, c, hi, hc⟩
    exact ⟨r, ⟨hopen, hdeclared, hmax⟩, hlatest⟩
  · rintro ⟨r, ⟨hopen, -, hmax⟩, hlatest⟩
    exact ⟨r, hopen, hlatest, hmax⟩

/-- A name is declared here if the region that decides about it is the current one. -/
theorem Mirrors.declaredHere_iff (h : Mirrors history openings s) {name : String} :
    s.declaredHere name = true ↔ ∃ r : Region, r.Decides history name ∧ r.IsCurrent history := by
  rw [declaredHere, Std.TreeMap.contains_eq_isSome_getElem?, h.innermost.isSome_iff]
  constructor
  · intro hdeclared
    have hcurrent := h.tracks.isCurrent_iff.mpr rfl
    exact ⟨_, ⟨hcurrent.1, hdeclared, fun r' hr' _ => hcurrent.2 r' hr'⟩, hcurrent⟩
  · rintro ⟨r, ⟨-, hdeclared, -⟩, hcurrent⟩
    rwa [← h.tracks.isCurrent_iff.mp hcurrent]

/-- The depth is one where no scope is open but that of the program. -/
theorem Mirrors.depth_eq_one_iff (h : Mirrors history openings s) :
    s.depth = 1 ↔ Region.program.IsCurrent history := by
  rw [h.tracks.isCurrent_iff, depth, ← h.nested.length_eq]
  cases openings <;> simp

/-- Only the scope of the program cannot be left. -/
theorem exit_eq_error_iff (s : Scopes) :
    (∃ fault s', Call.exit.run s = .error fault s') ↔ s.depth = 1 := by
  obtain ⟨entities, outermost, program, nested⟩ := s
  cases nested <;> simp [Call.run, exit, depth]

/-! ### What is done inside a scope -/

/-- The calls have only changed scopes that were opened since: one before the first call, and those
entered by the calls. -/
structure Above (s : Scopes) (calls : List Call) (s' : Scopes) : Prop where
  nested : ∃ inner, s'.nested = inner ++ s.nested ∧
    inner.length + calls.count .exit = calls.count .enter + 1
  program : s'.program = s.program
  outermost : s'.outermost = s.outermost

namespace Above

variable {calls : List Call} {s' : Scopes}

theorem enter (h : s.Above calls s') : s.Above (calls ++ [.enter]) s'.enter := by
  obtain ⟨⟨inner, hnested, hlength⟩, hprogram, houtermost⟩ := h
  obtain ⟨henter, hexit⟩ := Call.count_concat_enter calls
  refine ⟨⟨∅ :: inner, congrArg (∅ :: ·) hnested, ?_⟩, hprogram, houtermost⟩
  rw [henter, hexit, List.length_cons]
  omega

theorem exit (h : s.Above calls s') (hinside : Call.Inside (calls ++ [.exit])) :
    s.Above (calls ++ [.exit]) { s' with nested := s'.nested.tail } := by
  obtain ⟨⟨inner, hnested, hlength⟩, hprogram, houtermost⟩ := h
  obtain ⟨henter, hexit⟩ := Call.count_concat_exit calls
  have hle := hinside _ (List.prefix_refl _)
  rw [henter, hexit] at hle
  -- more scopes have been entered than left, so the one that is left is one of them
  cases inner with
  | nil =>
    rw [List.length_nil] at hlength
    omega
  | cons scope inner =>
    refine ⟨⟨inner, congrArg List.tail hnested, ?_⟩, hprogram, houtermost⟩
    rw [List.length_cons] at hlength
    omega

/-- The scope that is declared in is one of those opened since, as not all of them have been
left. -/
theorem declare (h : s.Above calls s') {c : Call} (hc : c.Stays) (hinside : Call.Inside calls)
    (entity : Entity) : s.Above (calls ++ [c]) (s'.declare entity).2 := by
  obtain ⟨⟨inner, hnested, hlength⟩, hprogram, houtermost⟩ := h
  obtain ⟨henter, hexit⟩ := Call.count_concat_of_stays calls hc
  have hle := hinside _ (List.prefix_refl _)
  cases inner with
  | nil =>
    rw [List.length_nil] at hlength
    omega
  | cons scope inner =>
    obtain ⟨entities, outermost, program, nested⟩ := s'
    obtain rfl : nested = scope :: inner ++ s.nested := hnested
    refine ⟨⟨scope.insert entity.name entities.size :: inner, rfl, ?_⟩, hprogram, houtermost⟩
    rw [henter, hexit]
    exact hlength

theorem keep (h : s.Above calls s') {c : Call} (hc : c.Stays) (entities : Array Entity) :
    s.Above (calls ++ [c]) { s' with entities } := by
  obtain ⟨⟨inner, hnested, hlength⟩, hprogram, houtermost⟩ := h
  obtain ⟨henter, hexit⟩ := Call.count_concat_of_stays calls hc
  exact ⟨⟨inner, hnested, by rw [henter, hexit, hlength]⟩, hprogram, houtermost⟩

theorem after {c : Call} (h : s.Above calls s') (hinside : Call.Inside (calls ++ [c]))
    (hlocal : ∀ entity, c ≠ .declareGlobal entity) : s.Above (calls ++ [c]) (s'.after c) := by
  rcases s'.after_cases c with ⟨rfl, hafter⟩ | ⟨rfl, hafter⟩ | ⟨hc, entity, -, -, hafter⟩ |
    ⟨hc, -, ⟨entity, rfl, -⟩ | ⟨-, entities, -, hafter⟩⟩
  · rw [hafter]
    exact h.enter
  · rw [hafter]
    exact h.exit hinside
  · rw [hafter]
    exact h.declare hc (Call.inside_concat.mp hinside).1 entity
  · exact absurd rfl (hlocal entity)
  · rw [hafter]
    exact h.keep hc entities

end Above

/-- **What is done inside a scope leaves no trace outside of it but for new entities.**  The calls
inside may enter further scopes, if they leave them again. -/
theorem afterAll_of_inside (s : Scopes) {inside : List Call} (hinside : Call.Inside inside)
    (hclosed : inside.count .enter = inside.count .exit)
    (hlocal : ∀ entity, .declareGlobal entity ∉ inside) :
    ∃ entities, s.afterAll (.enter :: inside ++ [.exit]) = { s with entities } := by
  have habove : s.Above inside (s.enter.afterAll inside) := by
    clear hclosed
    -- all calls up to each one are inside, so the induction is on the last one
    induction inside using List.reverseRecOn with
    | nil => exact ⟨⟨[∅], rfl, rfl⟩, rfl, rfl⟩
    | append_singleton inside c ih =>
      have hfront : ∀ entity, .declareGlobal entity ∉ inside := fun entity hmem =>
        hlocal entity (List.mem_append_left _ hmem)
      have hc : ∀ entity, c ≠ .declareGlobal entity := by
        rintro entity rfl
        exact hlocal entity (List.mem_append_right _ List.mem_cons_self)
      rw [afterAll_append]
      exact (ih (Call.inside_concat.mp hinside).1 hfront).after hinside hc
  obtain ⟨⟨inner, hnested, hlength⟩, hprogram, houtermost⟩ := habove
  obtain ⟨scope, rfl⟩ : ∃ scope, inner = [scope] := by
    rw [hclosed, Nat.add_comm, Nat.add_right_inj] at hlength
    exact List.length_eq_one_iff.mp hlength
  have hrun : s.afterAll (.enter :: inside ++ [.exit]) = (s.enter.afterAll inside).after .exit :=
    afterAll_append s.enter inside [.exit]
  refine ⟨(s.enter.afterAll inside).entities, ?_⟩
  rw [hrun, after_exit, hnested, hprogram, houtermost]
  rfl

/-! ### Every program's scopes -/

/-- The calls that declare the predefined types, which every history begins with. -/
def opening : List Call := Ty.predefined.map fun p => .declareGlobal (.type p.1 p.2)

theorem afterAll_opening : ({} : Scopes).afterAll opening = initial := rfl

/-- The scopes are what lexical scoping makes of a history.  A declaration that is made globally,
whenever that is, belongs to the outermost region. -/
structure Lexical (history : List Call) (s : Scopes) : Prop where
  /-- A name stands for what it was last declared as in the innermost open region that
  declares it. -/
  resolve? : ∀ name id, s.resolve? name = some id ↔
    ∃ r : Region, r.Decides history name ∧ Latest history name r id
  /-- A name is declared here if that region is the current one. -/
  declaredHere : ∀ name, s.declaredHere name = true ↔
    ∃ r : Region, r.Decides history name ∧ r.IsCurrent history
  one_le_depth : 1 ≤ s.depth
  depth_eq_one : s.depth = 1 ↔ Region.program.IsCurrent history
  /-- A scope can be left unless it is the one of the program. -/
  exit : (∃ fault s', Call.exit.run s = .error fault s') ↔ s.depth = 1
  /-- What is done between entering a scope and leaving it again changes no name, unless
  something is declared globally. -/
  inside : ∀ calls, Call.Inside calls → calls.count .enter = calls.count .exit →
    (∀ entity, .declareGlobal entity ∉ calls) → ∀ name,
      (s.afterAll (.enter :: calls ++ [.exit])).resolve? name = s.resolve? name ∧
      (s.afterAll (.enter :: calls ++ [.exit])).declaredHere name = s.declaredHere name

/-- **The scopes are lexical scopes**, after any calls. -/
theorem names_by_history (calls : List Call) :
    Lexical (opening ++ calls) (initial.afterAll calls) := by
  obtain ⟨openings, h⟩ := exists_mirrors (opening ++ calls)
  rw [afterAll_append, afterAll_opening] at h
  refine ⟨fun name id => h.resolve?_iff, fun name => h.declaredHere_iff,
    Nat.succ_le_succ (Nat.zero_le _), h.depth_eq_one_iff, exit_eq_error_iff _, ?_⟩
  intro inside hinside hclosed hlocal name
  obtain ⟨entities, hafter⟩ := (initial.afterAll calls).afterAll_of_inside hinside hclosed hlocal
  rw [hafter]
  exact ⟨rfl, rfl⟩

/-- A parameter that hides a local of the program, and a method inside the method that hides
both. -/
def shadows : List Call :=
  [.declareParameter "x" .bool 1, .enter, .declareMethod "x" .void, .exit]

theorem names_by_history_shadowed :
    Call.Inside shadows ∧ shadows.count .enter = shadows.count .exit ∧
      (∀ entity, .declareGlobal entity ∉ shadows) ∧
      ((initial.afterAll [.exit, .declareLocal "x" .int ⟨0, 0⟩]).afterAll
        (.enter :: shadows ++ [.exit])).resolve? "x" =
        (initial.afterAll [.exit, .declareLocal "x" .int ⟨0, 0⟩]).resolve? "x" := by
  have hinside : Call.Inside shadows := by decide
  have hlocal (entity : Entity) : .declareGlobal entity ∉ shadows := by simp [shadows]
  have h := names_by_history [.exit, .declareLocal "x" .int ⟨0, 0⟩]
  exact ⟨hinside, rfl, hlocal, (h.inside shadows hinside rfl hlocal "x").1⟩

end OnePass.Scopes
