/-
What a frame answers, told from its history.

A frame is asked for one thing after another (`Operation`). Each operation
is an action taken step by step, and leaves a frame also when it fails: the
one its steps have made so far. So it has to be shown that none fails
halfway.

What is answered can be read off the operations that came before, without
the frame. A scalar has the value it was last set to (`lastSet`). An array
has an origin (`Origin`): the operation that put it there last, or else
the first look at it that could bring it into being. Its length is the one
it got there, whatever length was asked for later, and its contents are the
ones it got there, with all later writes laid over them.

# The argument

What an operation does to one scalar, or to one array, depends on what that
was before and on nothing else in the frame (`scalar?_leaves`,
`array?_leaves`). From these two, by induction on the history, come what
every scalar and every array is (`scalar?_after`, `array?_after`), and that
the operations on the others might as well not have been (`same_after`).
-/
import ExprGraph.Access
import Mathlib.Algebra.Group.Nat.Defs
import Mathlib.Data.List.Induction

namespace ExprGraph

namespace Frame

-- =============================================================== operations

/-- What is done to a frame, step by step. A step that fails keeps what was
done before it. -/
abbrev Action := EStateM Cause Frame

/-- Look at an array. It is there afterwards, with `len` zeros if it was not
there before. -/
def view (array : VarId) (len : Nat) : Action (Array Float) := do
  if ((← get).array? array).isNone then
    let fresh ← ofExcept (zeros len)
    modify fun f => f.putArray array fresh
  match (← get).array? array with
  | some values => return values
  | none => throw (.outOfMemory "frame")

/-- Write elements of one array, one after the other. -/
def setElements (f : Frame) (array : VarId) (writes : List (Nat × Float)) : Frame :=
  writes.foldl (fun f write => f.setElement array write.1 write.2) f

/-- What a frame is asked for. A view comes with what is written through it,
to which slots. -/
inductive Operation where
  | read (var : VarId)
  | scalars
  | set (var : VarId) (value : Float)
  | view (array : VarId) (len : Nat) (writes : List (Nat × Float))
  | snapshot (array : VarId) (len : Nat)
  | put (array : VarId) (values : Array Float)

/-- What is answered. -/
inductive Answer where
  | done
  | scalar (value : Option Float)
  | entries (entries : List (VarId × Float))
  | array (values : Array Float)

/-- Do what is asked for. -/
def Operation.act : Operation → Action Answer
  | .read var => return .scalar ((← get).scalar? var)
  | .scalars => return .entries (← get).scalars.toList
  | .set var value => do
    modify fun f => f.setScalar var value
    return .done
  | .view array len writes => do
    let values ← Frame.view array len
    modify fun f => f.setElements array writes
    return .array values
  | .snapshot array len => return .array (← ofExcept ((← get).snapshot array len))
  | .put array values => do
    modify fun f => f.putArray array values
    return .done

/-- What a frame answers. -/
def answers (f : Frame) (op : Operation) : Except Cause Answer :=
  match op.act.run f with
  | .ok answer _ => .ok answer
  | .error cause _ => .error cause

/-- The frame afterwards, whether the operation failed or not. -/
def leaves (f : Frame) (op : Operation) : Frame :=
  match op.act.run f with
  | .ok _ g => g
  | .error _ g => g

/-- A frame after these operations. -/
def after (history : List Operation) : Frame :=
  history.foldl leaves empty

-- ============================================================ one operation

section Actions

variable (f : Frame) (array : VarId) (len : Nat)

/-- A view is a touch, taken step by step: it fails before the frame was
changed, and what it looks for in the end is there. -/
theorem run_view : (Frame.view array len).run f =
    match f.touch array len with
    | .ok g => .ok ((g.array? array).getD #[]) g
    | .error cause => .error cause f := by
  unfold Frame.view touch
  cases hold : f.array? array with
  | some values => simp [hold]
  | none =>
      cases zeros len with
      | error cause => simp [hold, ofExcept, Except.map]; rfl
      | ok fresh =>
          -- the second look finds what was put there
          simp [hold, ofExcept, Except.map, array?_putArray]

theorem answers_view (writes : List (Nat × Float)) :
    f.answers (.view array len writes) = (f.snapshot array len).map .array := by
  rw [snapshot_eq_touch]
  simp only [answers, Operation.act, EStateM.run_bind, run_view]
  cases f.touch array len <;> rfl

theorem leaves_view (writes : List (Nat × Float)) :
    f.leaves (.view array len writes) =
      match f.touch array len with
      | .ok g => g.setElements array writes
      | .error _ => f := by
  simp only [leaves, Operation.act, EStateM.run_bind, run_view]
  cases f.touch array len <;> rfl

theorem answers_snapshot : f.answers (.snapshot array len) = (f.snapshot array len).map .array := by
  simp only [answers, Operation.act, EStateM.run_bind, EStateM.run_get]
  cases f.snapshot array len <;> rfl

theorem leaves_snapshot : f.leaves (.snapshot array len) = f := by
  simp only [leaves, Operation.act, EStateM.run_bind, EStateM.run_get]
  cases f.snapshot array len <;> rfl

end Actions

theorem after_append (before later : List Operation) :
    after (before ++ later) = later.foldl leaves (after before) :=
  List.foldl_append

-- ================================================================== scalars

/-- The value an operation sets a scalar to. -/
def Operation.sets? (var : VarId) : Operation → Option Float
  | .set other value => if other = var then some value else none
  | _ => none

/-- The value a scalar was set to last. -/
def lastSet (var : VarId) (history : List Operation) : Option Float :=
  (history.filterMap (Operation.sets? var)).getLast?

theorem scalar?_setElements (f : Frame) (array : VarId) (writes : List (Nat × Float))
    (var : VarId) : (f.setElements array writes).scalar? var = f.scalar? var := by
  unfold setElements
  induction writes generalizing f with
  | nil => rfl
  | cons write writes ih => exact (ih _).trans (scalar?_setElement f array var _ _)

/-- An operation does to a scalar what it sets it to, or nothing. -/
theorem scalar?_leaves (f : Frame) (op : Operation) (var : VarId) :
    (f.leaves op).scalar? var = (op.sets? var).or (f.scalar? var) := by
  cases op with
  | read | scalars | put => rfl
  | set other value =>
      refine (scalar?_setScalar f other var value).trans ?_
      simp only [Operation.sets?]
      split <;> rfl
  | snapshot array len => rw [leaves_snapshot]; rfl
  | view array len writes =>
      rw [leaves_view]
      cases htouch : f.touch array len with
      | error cause => rfl
      | ok g => exact (scalar?_setElements g array writes var).trans (scalar?_touch htouch var)

theorem lastSet_concat (var : VarId) (history : List Operation) (op : Operation) :
    lastSet var (history ++ [op]) = (op.sets? var).or (lastSet var history) := by
  unfold lastSet
  rw [List.filterMap_append, List.getLast?_append]
  cases hop : op.sets? var <;> simp [hop]

/-- A scalar is what it was last set to. -/
theorem scalar?_after (var : VarId) (history : List Operation) :
    (after history).scalar? var = lastSet var history := by
  induction history using List.reverseRecOn with
  | nil => rfl
  | append_singleton history op ih =>
      rw [lastSet_concat, ← ih, after_append]
      exact scalar?_leaves _ op var

-- =================================================================== arrays

/-- Lengths of arrays that can be addressed: no more than `2 ^ 63 - 1` bytes,
eight for each element. -/
def Fits (len : Nat) : Prop := 8 * len ≤ 2 ^ 63 - 1

instance (len : Nat) : Decidable (Fits len) :=
  inferInstanceAs (Decidable (8 * len ≤ 2 ^ 63 - 1))

theorem zeros_eq (len : Nat) :
    zeros len =
      if Fits len then .ok (Array.replicate len 0.0) else .error (.outOfMemory "array") := by
  have hfits : len * elementBytes ≤ maxBytes ↔ Fits len := by
    rw [Nat.mul_comm]
    rfl
  simp only [zeros, hfits]

/-- Contents with writes laid over them. A slot that is not there is left
alone. -/
def overwrite (values : Array Float) (writes : List (Nat × Float)) : Array Float :=
  writes.foldl (fun values write => values.setIfInBounds write.1 write.2) values

@[simp]
theorem size_overwrite (values : Array Float) (writes : List (Nat × Float)) :
    (overwrite values writes).size = values.size := by
  unfold overwrite
  induction writes generalizing values with
  | nil => rfl
  | cons write writes ih => exact (ih _).trans Array.size_setIfInBounds

theorem overwrite_append (values : Array Float) (writes writes' : List (Nat × Float)) :
    overwrite values (writes ++ writes') = overwrite (overwrite values writes) writes' :=
  List.foldl_append

theorem array?_setElements (f : Frame) (array : VarId) (writes : List (Nat × Float))
    (other : VarId) :
    (f.setElements array writes).array? other =
      if array = other then (f.array? other).map (overwrite · writes) else f.array? other := by
  unfold setElements
  induction writes generalizing f with
  | nil => simp [overwrite]
  | cons write writes ih =>
      refine (ih _).trans ?_
      rw [array?_setElement]
      split
      · rw [Option.map_map]
        rfl
      · rfl

/-- What is written to an array through a view. -/
def Operation.writesTo (array : VarId) : Operation → List (Nat × Float)
  | .view other _ writes => if other = array then writes else []
  | _ => []

/-- What an array is after an operation, by what it was before. -/
def Operation.turns (array : VarId) : Operation → Option (Array Float) → Option (Array Float)
  | .put other values, old => if other = array then some values else old
  | .view other len writes, old =>
    if other = array then
      (old.or (if Fits len then some (Array.replicate len 0.0) else none)).map (overwrite · writes)
    else old
  | _, old => old

theorem touch_of_absent {f : Frame} {array : VarId} (h : f.array? array = none) (len : Nat) :
    f.touch array len =
      if Fits len then .ok (f.putArray array (Array.replicate len 0.0))
      else .error (.outOfMemory "array") := by
  simp only [touch, h, Option.isSome_none, Bool.false_eq_true, if_false, zeros_eq]
  split <;> rfl

/-- What an operation does to an array depends on that array alone. -/
theorem array?_leaves (f : Frame) (op : Operation) (array : VarId) :
    (f.leaves op).array? array = op.turns array (f.array? array) := by
  cases op with
  | read | scalars | set => rfl
  | put other values => exact array?_putArray f other array values
  | snapshot other len => rw [leaves_snapshot]; rfl
  | view other len writes =>
      rw [leaves_view]
      simp only [Operation.turns]
      by_cases heq : other = array
      · subst heq
        rw [if_pos rfl]
        cases hold : f.array? other with
        | some values =>
            rw [touch_of_isSome (by rw [hold]; rfl)]
            simp only [array?_setElements, if_true, hold, Option.some_or]
        | none =>
            rw [touch_of_absent hold, Option.none_or]
            by_cases hfits : Fits len
            · simp only [if_pos hfits, array?_setElements, array?_putArray, if_true]
            · simp only [if_neg hfits, hold, Option.map_none]
      · rw [if_neg heq]
        cases htouch : f.touch other len with
        | error cause => rfl
        | ok g =>
            simp only [array?_setElements, if_neg heq]
            exact array?_touch_of_ne htouch heq

-- ================================================================== origins

/-- An operation puts an array there, whatever was there before. -/
def Operation.Puts (array : VarId) : Operation → Prop
  | .put other _ => other = array
  | _ => False

/-- An operation brings an array into being that was not there. -/
def Operation.Creates (array : VarId) : Operation → Prop
  | .put other _ => other = array
  | .view other len _ => other = array ∧ Fits len
  | _ => False

instance (array : VarId) : DecidablePred (Operation.Puts array)
  | .put other _ => inferInstanceAs (Decidable (other = array))
  | .read _ | .scalars | .set .. | .view .. | .snapshot .. => inferInstanceAs (Decidable False)

instance (array : VarId) : DecidablePred (Operation.Creates array)
  | .put other _ => inferInstanceAs (Decidable (other = array))
  | .view other len _ => inferInstanceAs (Decidable (other = array ∧ Fits len))
  | .read _ | .scalars | .set .. | .snapshot .. => inferInstanceAs (Decidable False)

/-- The origin of an array in a history, with the contents it got there and
all that was written to it since: the latest operation that put it there,
or, if none has, the first view that could create it. -/
inductive Origin (array : VarId) : List Operation → Array Float → List (Nat × Float) → Prop
  | put {before later : List Operation} {values : Array Float} :
      (∀ op ∈ later, ¬ op.Puts array) →
      Origin array (before ++ .put array values :: later) values
        (later.flatMap (Operation.writesTo array))
  | view {before later : List Operation} {len : Nat} {writes : List (Nat × Float)} :
      Fits len → (∀ op ∈ before, ¬ op.Creates array) → (∀ op ∈ later, ¬ op.Puts array) →
      Origin array (before ++ .view array len writes :: later) (Array.replicate len 0.0)
        (writes ++ later.flatMap (Operation.writesTo array))

section Origins

variable {array : VarId} {f : Frame} {op : Operation} {history : List Operation}

theorem eq_put_of_puts (h : op.Puts array) : ∃ values, op = .put array values := by
  cases op with
  | put other values =>
      cases h
      exact ⟨values, rfl⟩
  | _ => cases h

theorem eq_view_of_creates (h : op.Creates array) (hput : ¬ op.Puts array) :
    ∃ len writes, Fits len ∧ op = .view array len writes := by
  cases op with
  | put other values => exact absurd h hput
  | view other len writes =>
      obtain ⟨rfl, hfits⟩ := h
      exact ⟨len, writes, hfits, rfl⟩
  | _ => cases h

theorem turns_none (h : ¬ op.Creates array) : op.turns array none = none := by
  cases op with
  | read | scalars | set | snapshot => rfl
  | put other values => exact if_neg h
  | view other len writes =>
      simp only [Operation.turns]
      split
      · rename_i heq
        rw [if_neg fun hfits => h ⟨heq, hfits⟩]
        rfl
      · rfl

theorem turns_some (h : ¬ op.Puts array) (values : Array Float) :
    op.turns array (some values) = some (overwrite values (op.writesTo array)) := by
  cases op with
  | read | scalars | set | snapshot => rfl
  | put other values' => exact if_neg h
  | view other len writes =>
      simp only [Operation.turns, Operation.writesTo]
      split <;> rfl

theorem array?_foldl_of_absent (hold : f.array? array = none)
    (h : ∀ op ∈ history, ¬ op.Creates array) : (history.foldl leaves f).array? array = none := by
  induction history generalizing f with
  | nil => exact hold
  | cons op history ih =>
      obtain ⟨hop, hhistory⟩ := List.forall_mem_cons.mp h
      refine ih ?_ hhistory
      rw [array?_leaves, hold, turns_none hop]

theorem array?_foldl_of_held {values : Array Float} (hold : f.array? array = some values)
    (h : ∀ op ∈ history, ¬ op.Puts array) :
    (history.foldl leaves f).array? array
      = some (overwrite values (history.flatMap (Operation.writesTo array))) := by
  induction history generalizing f values with
  | nil => exact hold
  | cons op history ih =>
      obtain ⟨hop, hhistory⟩ := List.forall_mem_cons.mp h
      rw [List.flatMap_cons, overwrite_append]
      refine ih ?_ hhistory
      rw [array?_leaves, hold, turns_some hop]

/-- What no operation has created is not there. -/
theorem array?_after_of_absent (h : ∀ op ∈ history, ¬ op.Creates array) :
    (after history).array? array = none :=
  array?_foldl_of_absent rfl h

/-- An array is what its origin gave it, with all that was written since. -/
theorem Origin.array?_after {start : Array Float} {writes : List (Nat × Float)}
    (h : Origin array history start writes) :
    (after history).array? array = some (overwrite start writes) := by
  cases h with
  | put hlater =>
      rw [after_append, List.foldl_cons]
      refine array?_foldl_of_held ?_ hlater
      rw [array?_leaves]
      exact if_pos rfl
  | view hfits hbefore hlater =>
      rw [after_append, List.foldl_cons, overwrite_append]
      refine array?_foldl_of_held ?_ hlater
      rw [array?_leaves, array?_after_of_absent hbefore]
      simp only [Operation.turns, if_true, if_pos hfits, Option.none_or, Option.map_some]

/-- An origin stays the origin until the array is put there anew. -/
theorem Origin.concat {start : Array Float} {writes : List (Nat × Float)}
    (h : Origin array history start writes) (hop : ¬ op.Puts array) :
    Origin array (history ++ [op]) start (writes ++ op.writesTo array) := by
  have hlast : ∀ {later : List Operation}, (∀ op ∈ later, ¬ op.Puts array) →
      ∀ op' ∈ later ++ [op], ¬ op'.Puts array := fun hlater =>
    List.forall_mem_append.mpr ⟨hlater, List.forall_mem_singleton.mpr hop⟩
  cases h with
  | @put before later _ hlater =>
      have horigin := @Origin.put array before (later ++ [op]) start (hlast hlater)
      rw [List.flatMap_append, List.flatMap_singleton] at horigin
      rwa [List.append_assoc, List.cons_append]
  | @view before later len own hfits hbefore hlater =>
      have horigin := @Origin.view array before (later ++ [op]) len own hfits hbefore (hlast hlater)
      rw [List.flatMap_append, List.flatMap_singleton] at horigin
      rwa [List.append_assoc, List.cons_append, List.append_assoc]

/-- What some operation has created has an origin. -/
theorem exists_origin (h : ∃ op ∈ history, op.Creates array) :
    ∃ start writes, Origin array history start writes := by
  induction history using List.reverseRecOn with
  | nil => simp at h
  | append_singleton history op ih =>
      by_cases hput : op.Puts array
      · obtain ⟨values, rfl⟩ := eq_put_of_puts hput
        exact ⟨values, _, @Origin.put array history [] values (by simp)⟩
      · by_cases hbefore : ∃ op ∈ history, op.Creates array
        · obtain ⟨start, writes, horigin⟩ := ih hbefore
          exact ⟨start, _, horigin.concat hput⟩
        · -- the operation is the first that creates the array, so it is a view
          have hnone : ∀ op ∈ history, ¬ op.Creates array := fun op hop hcreates =>
            hbefore ⟨op, hop, hcreates⟩
          obtain ⟨op', hmem, hcreates⟩ := h
          rcases List.mem_append.mp hmem with hearlier | hlast
          · exact absurd hcreates (hnone op' hearlier)
          · cases List.mem_singleton.mp hlast
            obtain ⟨len, writes, hfits, rfl⟩ := eq_view_of_creates hcreates hput
            exact ⟨_, _, @Origin.view array history [] len writes hfits hnone (by simp)⟩

end Origins

-- ============================================================ independence

/-- What a frame holds a value for. A scalar and an array of one number are
different entries. -/
inductive Entry where
  | scalar (var : VarId)
  | array (var : VarId)
deriving DecidableEq

/-- The entry an operation is for. -/
def Operation.entry? : Operation → Option Entry
  | .read var | .set var _ => some (.scalar var)
  | .view array .. | .snapshot array _ | .put array _ => some (.array array)
  | .scalars => none

/-- Two frames hold the same for an entry. -/
def Same : Entry → Frame → Frame → Prop
  | .scalar var, f, g => f.scalar? var = g.scalar? var
  | .array array, f, g => f.array? array = g.array? array

section Independence

variable {entry : Entry} {f g h : Frame} {op : Operation}

theorem Same.trans (hfg : Same entry f g) (hgh : Same entry g h) : Same entry f h := by
  cases entry <;> exact Eq.trans hfg hgh

/-- An operation does the same to entries that are the same. -/
theorem Same.leaves (hsame : Same entry f g) (op : Operation) :
    Same entry (f.leaves op) (g.leaves op) := by
  cases entry with
  | scalar var =>
      refine (scalar?_leaves f op var).trans (.trans ?_ (scalar?_leaves g op var).symm)
      exact congrArg ((op.sets? var).or ·) hsame
  | array array =>
      refine (array?_leaves f op array).trans (.trans ?_ (array?_leaves g op array).symm)
      exact congrArg (op.turns array) hsame

/-- An operation leaves alone what it is not for. -/
theorem same_leaves (f : Frame) (hop : op.entry? ≠ some entry) : Same entry (f.leaves op) f := by
  cases entry with
  | scalar var =>
      refine (scalar?_leaves f op var).trans ?_
      cases op with
      | set other value =>
          have hne : other ≠ var := fun heq => hop (congrArg (some ∘ Entry.scalar) heq)
          simp only [Operation.sets?, if_neg hne, Option.none_or]
      | _ => rfl
  | array array =>
      refine (array?_leaves f op array).trans ?_
      cases op with
      | view other | put other =>
          have hne : other ≠ array := fun heq => hop (congrArg (some ∘ Entry.array) heq)
          exact if_neg hne
      | _ => rfl

/-- What is answered depends on the entry alone. -/
theorem Same.answers (hsame : Same entry f g) (hop : op.entry? = some entry) :
    f.answers op = g.answers op := by
  cases op with
  | scalars => cases hop
  | set | put => rfl
  | read var =>
      cases hop
      exact congrArg (Except.ok ∘ Answer.scalar) hsame
  | view array len writes =>
      cases hop
      have harray : f.array? array = g.array? array := hsame
      simp only [answers_view, snapshot, harray]
  | snapshot array len =>
      cases hop
      have harray : f.array? array = g.array? array := hsame
      simp only [answers_snapshot, snapshot, harray]

/-- For an entry, a history might as well consist of the operations on it. -/
theorem same_after (entry : Entry) (history : List Operation) :
    Same entry (after history)
      (after (history.filter fun op => op.entry? = some entry)) := by
  induction history using List.reverseRecOn with
  | nil => cases entry <;> rfl
  | append_singleton history op ih =>
      rw [after_append, List.filter_append, List.filter_cons, List.filter_nil]
      by_cases hop : op.entry? = some entry
      · rw [if_pos (by simpa using hop), after_append]
        exact ih.leaves op
      · rw [if_neg (by simpa using hop), List.append_nil]
        exact (same_leaves _ hop).trans ih

end Independence

-- ================================================================= failures

section Failures

variable {f : Frame} {array : VarId}

theorem snapshot_of_held {values : Array Float} (hold : f.array? array = some values) (len : Nat) :
    f.snapshot array len = .ok values := by
  simp only [snapshot, hold]

theorem snapshot_of_absent (hold : f.array? array = none) (len : Nat) :
    f.snapshot array len =
      if Fits len then .ok (Array.replicate len 0.0) else .error (.outOfMemory "array") := by
  simp only [snapshot, hold, zeros_eq]

/-- What is shown of an array is an error only if the array is not there and
is too large. -/
theorem snapshot_eq_error {len : Nat} {cause : Cause} {answer : Array Float → Answer}
    (h : (f.snapshot array len).map answer = .error cause) :
    f.array? array = none ∧ ¬ Fits len ∧ cause = .outOfMemory "array" := by
  cases hold : f.array? array with
  | some values =>
      rw [snapshot_of_held hold] at h
      cases h
  | none =>
      rw [snapshot_of_absent hold] at h
      split at h
      · cases h
      · rename_i htoo
        cases h
        exact ⟨rfl, htoo, rfl⟩

/-- Only what shows an array can fail, and only for want of room. -/
theorem answers_eq_error {op : Operation} {cause : Cause} (h : f.answers op = .error cause) :
    cause = .outOfMemory "array" ∧ ∃ array len, f.array? array = none ∧ ¬ Fits len
      ∧ (op = .snapshot array len ∨ ∃ own, op = .view array len own) := by
  cases op with
  | read | scalars | set | put => cases h
  | snapshot array len =>
      rw [answers_snapshot] at h
      obtain ⟨hold, htoo, hcause⟩ := snapshot_eq_error h
      exact ⟨hcause, array, len, hold, htoo, .inl rfl⟩
  | view array len own =>
      rw [answers_view] at h
      obtain ⟨hold, htoo, hcause⟩ := snapshot_eq_error h
      exact ⟨hcause, array, len, hold, htoo, .inr ⟨own, rfl⟩⟩

/-- An operation that fails leaves the frame as it was. -/
theorem leaves_of_error {op : Operation} {cause : Cause} (h : f.answers op = .error cause) :
    f.leaves op = f := by
  obtain ⟨-, array, len, hold, htoo, rfl | ⟨own, rfl⟩⟩ := answers_eq_error h
  · exact leaves_snapshot f array len
  · rw [leaves_view, touch_of_absent hold, if_neg htoo]

end Failures

-- ================================================================= accesses

section Accesses

variable {f g : Frame} {c : Cell} {value : Float}

/-- A run reads an element through a view of its array. -/
theorem view_of_readCell (h : f.readCell c = .ok (value, g)) :
    f.leaves (.view c.array c.symbol.size []) = g
    ∧ ∃ values, f.answers (.view c.array c.symbol.size []) = .ok (.array values)
      ∧ values[c.slot]? = some value := by
  obtain ⟨htouch, hvalue⟩ := readCell_eq_ok h
  obtain ⟨values, hvalues, hslot⟩ := Option.bind_eq_some_iff.mp hvalue
  refine ⟨?_, values, ?_, hslot⟩
  · rw [leaves_view, htouch]
    rfl
  · rw [answers_view, array?_touch_self htouch, hvalues]
    rfl

/-- A run stores an element through a view of its array. -/
theorem view_of_storeCell {store : Store} (h : f.storeCell c value = .ok (store, g)) :
    f.leaves (.view c.array c.symbol.size [(c.slot, value)]) = g := by
  obtain ⟨f', htouch, -, -, rfl⟩ := storeCell_eq_ok h
  rw [leaves_view, htouch]
  rfl

end Accesses

-- ================================================================ histories

/-- A frame is what its history says, in all it answers. -/
structure Reflects (history : List Operation) (f : Frame) : Prop where
  /-- A scalar has the value it was last set to, if it was set. -/
  scalar : ∀ var, f.answers (.read var) = .ok (.scalar (lastSet var history))
  /-- Those are all the scalars, each listed once. -/
  scalars : ∃ entries, f.answers .scalars = .ok (.entries entries)
    ∧ (entries.map Prod.fst).Nodup
    ∧ ∀ var value, (var, value) ∈ entries ↔ lastSet var history = some value
  /-- An array has an origin, or nothing has created it. -/
  origin : ∀ array, (∃ start writes, Origin array history start writes)
    ∨ ∀ op ∈ history, ¬ op.Creates array
  /-- An array has the length it got at its origin, and the contents it got
  there with all later writes laid over them, whatever length is asked for. -/
  held : ∀ {array start writes}, Origin array history start writes →
    (overwrite start writes).size = start.size
    ∧ ∀ len own, f.answers (.view array len own) = .ok (.array (overwrite start writes))
  /-- An array that nothing has created is seen as zeros, unless it is too
  large to be addressed. -/
  fresh : ∀ array, (∀ op ∈ history, ¬ op.Creates array) → ∀ len own,
    f.answers (.view array len own)
      = if Fits len then .ok (.array (Array.replicate len 0.0)) else .error (.outOfMemory "array")
  /-- A snapshot shows what a view would show, and leaves the frame alone. -/
  snapshot : ∀ array len own, f.answers (.snapshot array len) = f.answers (.view array len own)
    ∧ f.leaves (.snapshot array len) = f
  /-- Operations on other entries make no difference to an answer: it is
  what it would be had they never been. -/
  independent : ∀ {op entry}, op.entry? = some entry →
    f.answers op = (after (history.filter fun op => op.entry? = some entry)).answers op
  /-- An operation fails only on an array that nothing has created and that
  is too large; and then it has changed nothing. -/
  atomic : ∀ {op cause}, f.answers op = .error cause →
    f.leaves op = f ∧ cause = .outOfMemory "array"
    ∧ ∃ array len, ¬ Fits len ∧ (∀ op ∈ history, ¬ op.Creates array)
      ∧ (op = .snapshot array len ∨ ∃ own, op = .view array len own)
  /-- The accesses of runs to elements are views. -/
  accesses : ∀ {c value},
    (∀ {g}, f.readCell c = .ok (value, g) →
      f.leaves (.view c.array c.symbol.size []) = g
      ∧ ∃ values, f.answers (.view c.array c.symbol.size []) = .ok (.array values)
        ∧ values[c.slot]? = some value)
    ∧ ∀ {store g}, f.storeCell c value = .ok (store, g) →
      f.leaves (.view c.array c.symbol.size [(c.slot, value)]) = g

/-- What is not there, nothing has created. -/
theorem not_creates_of_absent {array : VarId} {history : List Operation}
    (hold : (after history).array? array = none) : ∀ op ∈ history, ¬ op.Creates array := by
  intro op hop hcreates
  obtain ⟨start, writes, horigin⟩ := exists_origin ⟨op, hop, hcreates⟩
  rw [horigin.array?_after] at hold
  cases hold

/-- Whatever is done to a frame, in whatever order, the frame reflects it. -/
theorem reflects_after (history : List Operation) : Reflects history (after history) where
  scalar var := congrArg (Except.ok ∘ Answer.scalar) (scalar?_after var history)
  scalars := by
    refine ⟨_, rfl, ?_, fun var value => ?_⟩
    · rw [Std.ExtTreeMap.map_fst_toList_eq_keys]
      exact Std.ExtTreeMap.nodup_keys
    · rw [Std.ExtTreeMap.mem_toList_iff_getElem?_eq_some, ← scalar?_after]
      rfl
  origin array := by
    by_cases hcreated : ∃ op ∈ history, op.Creates array
    · exact .inl (exists_origin hcreated)
    · exact .inr fun op hop hcreates => hcreated ⟨op, hop, hcreates⟩
  held horigin := by
    refine ⟨size_overwrite _ _, fun len own => ?_⟩
    rw [answers_view, snapshot_of_held horigin.array?_after]
    rfl
  fresh array habsent len own := by
    rw [answers_view, snapshot_of_absent (array?_after_of_absent habsent)]
    split <;> rfl
  snapshot array len own :=
    ⟨(answers_snapshot _ array len).trans (answers_view _ array len own).symm,
      leaves_snapshot _ array len⟩
  independent hop := (same_after _ history).answers hop
  atomic h := by
    obtain ⟨hcause, array, len, hold, htoo, hop⟩ := answers_eq_error h
    exact ⟨leaves_of_error h, hcause, array, len, htoo, not_creates_of_absent hold, hop⟩
  accesses := ⟨view_of_readCell, view_of_storeCell⟩

/-- A scalar and an array of one number, an array that is too large, and one
that is put there twice. -/
def mixed : List Operation :=
  [.view ⟨0⟩ 3 [(1, 9.0)], .set ⟨0⟩ 2.5, .view ⟨1⟩ (2 ^ 60) [(0, 1.0)], .put ⟨2⟩ #[1.0, 2.0],
    .view ⟨0⟩ 7 [(0, 4.0)], .put ⟨2⟩ #[5.0]]

/-- After `mixed`, the first array has its first length and both writes, and
the array that was too large is still not there. -/
theorem reflects_after_mixed :
    (after mixed).answers (.read ⟨0⟩) = .ok (.scalar (some 2.5))
    ∧ (after mixed).answers (.view ⟨0⟩ (2 ^ 60) []) = .ok (.array #[4.0, 9.0, 0.0])
    ∧ (after mixed).answers (.view ⟨2⟩ 2 []) = .ok (.array #[5.0])
    ∧ (after mixed).answers (.view ⟨1⟩ (2 ^ 60) []) = .error (.outOfMemory "array")
    ∧ (after mixed).leaves (.view ⟨1⟩ (2 ^ 60) []) = after mixed := by
  have hmixed := reflects_after mixed
  have hwritten : Origin ⟨0⟩ mixed (Array.replicate 3 0.0) [(1, 9.0), (0, 4.0)] :=
    @Origin.view ⟨0⟩ [] _ 3 [(1, 9.0)] (by decide) (by decide) (by decide)
  have hreplaced : Origin ⟨2⟩ mixed #[5.0] [] :=
    @Origin.put ⟨2⟩ (mixed.take 5) [] #[5.0] (by decide)
  have hrefused := (hmixed.fresh ⟨1⟩ (by decide) (2 ^ 60) []).trans (if_neg (by decide))
  exact ⟨hmixed.scalar ⟨0⟩, (hmixed.held hwritten).2 _ _, (hmixed.held hreplaced).2 _ _, hrefused,
    (hmixed.atomic hrefused).1⟩

end Frame

end ExprGraph
