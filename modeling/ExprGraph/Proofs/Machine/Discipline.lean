/-
The stack discipline: what lies on the three stacks when a node is entered
stays there until the node completes, and then one value is added to it
(`stacks_intact`).

# The invariant

A state in which a node is still at work has the node itself in some
phase, with what it holds on top of what was there; or it has a child of
the node at work, on top of what the node will hold short of the child's
value (`Inside`). The nesting is that of the pending entries, so nothing
needs to be said about pending entries as such: a step that starts on a
child nests one level deeper, and one that completes undoes one level.
-/
import ExprGraph.Proofs.Machine.Held

namespace ExprGraph

namespace Machine

variable {s : Setting}

-- ========================================================== the invariant

/-- A node can be in this phase with so many values and frames. A node is
entered with none, even if there is no such node. -/
def Holds (s : Setting) (id : ExprId) (phase values frames : Nat) : Prop :=
  phase = 0 ∧ values = 0 ∧ frames = 0
    ∨ ∃ node, s.program.expr? id = some node ∧ held s node phase = some (values, frames)

theorem Holds.held {id : ExprId} {phase values frames : Nat} {node : Expr}
    (h : Holds s id phase values frames) (hnode : s.program.expr? id = some node) :
    held s node phase = some (values, frames) := by
  rcases h with ⟨rfl, rfl, rfl⟩ | ⟨node', hnode', hheld⟩
  · exact held_zero node
  · rw [hnode] at hnode'
    cases hnode'
    exact hheld

/-- A node that was entered with pending entries `C`, values `D` and
frames `F` is at work. -/
inductive Inside (s : Setting) :
    ExprId → List Pending → Values → List Activation → Machine → Prop where
  | here {id : ExprId} {phase : Nat} {agenda : Agenda} {D : Values} {F F' : List Activation}
      (vs : Values) (fs : List Activation) :
      Holds s id phase vs.length fs.length → SameBelow F F' →
      Inside s id agenda.entries D F ⟨.expr id, phase, agenda, vs ++ D, fs ++ F'⟩
  | under {id child : ExprId} {resume : Nat} {C : List Pending} {D vs : Values}
      {F F' fs : List Activation} {m : Machine} :
      Holds s id resume (vs.length + 1) fs.length → SameBelow F F' →
      Inside s child (⟨resume, .expr id⟩ :: C) (vs ++ D) (fs ++ F') m →
      Inside s id C D F m

/-- The node that was entered with these stacks completes in this step. -/
structure Completes (id : ExprId) (C : List Pending) (D : Values) (F : List Activation)
    (m m' : Machine) : Prop where
  task : m.task = .expr id
  entries : m.agenda.entries = C
  value : ∃ v, m'.values = v :: D
  resumed : C = ⟨m'.phase, m'.task⟩ :: m'.agenda.entries
  frames : SameBelow F m'.frames

section Stacks

variable {id : ExprId} {C : List Pending} {D : Values} {F : List Activation} {m m' : Machine}

theorem Inside.entered (h : m.task = .expr id) (hphase : m.phase = 0) :
    Inside s id m.agenda.entries m.values m.frames m := by
  obtain ⟨task, phase, agenda, values, frames⟩ := m
  cases h
  cases hphase
  exact .here [] [] (.inl ⟨rfl, rfl, rfl⟩) (.refl frames)

theorem tail_suffix_append (fs F : List Activation) : F.tail <:+ (fs ++ F).tail := by
  cases fs with
  | nil => exact List.suffix_refl _
  | cons top fs => exact (List.tail_suffix F).trans (List.suffix_append fs F)

/-- Nothing below the node is gone. -/
theorem Inside.intact (h : Inside s id C D F m) :
    C <:+ m.agenda.entries ∧ D <:+ m.values ∧ F.tail <:+ m.frames.tail
      ∧ F.length ≤ m.frames.length := by
  induction h with
  | here vs fs _ hsame =>
      refine ⟨List.suffix_refl _, List.suffix_append _ _, ?_, ?_⟩
      · rw [← hsame.2]
        exact tail_suffix_append _ _
      · rw [← hsame.1, List.length_append]
        exact Nat.le_add_left _ _
  | under _ hsame _ ih =>
      obtain ⟨hentries, hvalues, hframes, hlength⟩ := ih
      refine ⟨(List.suffix_cons _ _).trans hentries, (List.suffix_append _ _).trans hvalues,
        ?_, ?_⟩
      · rw [← hsame.2]
        exact (tail_suffix_append _ _).trans hframes
      · rw [← hsame.1]
        rw [List.length_append] at hlength
        exact Nat.le_trans (Nat.le_add_left _ _) hlength

/-- Frames that are the same below the top keep the same frames on top of
a part of them. -/
theorem SameBelow.split {fs F F' : List Activation} (h : SameBelow (fs ++ F) F') :
    ∃ fs' F'', F' = fs' ++ F'' ∧ fs'.length = fs.length ∧ SameBelow F F'' := by
  cases fs with
  | nil => exact ⟨[], F', rfl, rfl, h⟩
  | cons top fs =>
      obtain ⟨hlength, htail⟩ := h
      cases F' with
      | nil => cases hlength
      | cons top' F' =>
          have htail : F' = fs ++ F := htail
          exact ⟨top' :: fs, F, by rw [htail]; rfl, rfl, .refl F⟩

/-- A step keeps the node at work, or completes it. -/
theorem Inside.step {stored : Option Store} (h : Inside s id C D F m)
    (hstep : m.step s = .ok (.running m' stored)) :
    Inside s id C D F m' ∨ Completes id C D F m m' := by
  induction h with
  | @here id phase agenda D F F' vs fs hholds hsame =>
      unfold Machine.step at hstep
      cases hnode : s.program.expr? id with
      | none => simp only [hnode] at hstep; cases hstep
      | some node =>
          simp only [hnode] at hstep
          have hturn := turns node (hholds.held hnode) hstep
          cases hturn with
          | @descends child resume agenda' vs' fs' F'' hentries hheld hsame' =>
              have hchild : Inside s child agenda'.entries (vs' ++ D) (fs' ++ F'')
                  ⟨.expr child, 0, agenda', vs' ++ D, fs' ++ F''⟩ :=
                .entered (m := ⟨.expr child, 0, agenda', vs' ++ D, fs' ++ F''⟩) rfl rfl
              rw [hentries] at hchild
              exact .inl (.under (.inr ⟨node, hnode, hheld⟩) (hsame.trans hsame') hchild)
          | completes hentries hsame' =>
              exact .inr ⟨rfl, rfl, ⟨_, rfl⟩, hentries, hsame.trans hsame'⟩
  | @under id child resume C D vs F F' fs m hholds hsame _ ih =>
      rcases ih hstep with hinside | hcompletes
      · exact .inl (.under hholds hsame hinside)
      · obtain ⟨-, -, ⟨v, hvalues⟩, hresumed, hframes⟩ := hcompletes
        obtain ⟨fs', F'', hsplit, hlength, hsame'⟩ := hframes.split
        obtain ⟨task, phase, agenda, values, frames⟩ := m'
        cases hresumed
        cases hvalues
        cases hsplit
        left
        rw [← hlength] at hholds
        exact .here (v :: vs) fs' hholds (hsame.trans hsame')

end Stacks

-- ============================================================= every run

/-- The run gets from `m` to a state without going back to what waited at
`m`: the node entered at `m` has not completed. -/
inductive Within (s : Setting) (m : Machine) : Machine → Prop where
  | refl : Within s m m
  | step {m₁ m₂ : Machine} {stored : Option Store} :
      Within s m m₁ → m₁.step s = .ok (.running m₂ stored) →
      m.agenda.entries.length ≤ m₂.agenda.entries.length → Within s m m₂

theorem Within.inside {id : ExprId} {m m' : Machine} (htask : m.task = .expr id)
    (hphase : m.phase = 0) (h : Within s m m') :
    Inside s id m.agenda.entries m.values m.frames m' := by
  induction h with
  | refl => exact .entered htask hphase
  | step _ hstep hlength ih =>
      rcases ih.step hstep with hinside | hcompletes
      · exact hinside
      · have hresumed := congrArg List.length hcompletes.resumed
        rw [List.length_cons] at hresumed
        omega

/-- From the moment a node is entered until it completes, the pending
entries, the values and all frames but the latest stay where they are.
The step that takes the run back to what waited is a step of the node
itself; it adds one value and takes one pending entry. -/
theorem stacks_intact {id : ExprId} {m m' : Machine} (htask : m.task = .expr id)
    (hphase : m.phase = 0) (h : Within s m m') :
    (m.agenda.entries <:+ m'.agenda.entries ∧ m.values <:+ m'.values
      ∧ m.frames.tail <:+ m'.frames.tail ∧ m.frames.length ≤ m'.frames.length)
    ∧ ∀ m'' stored, m'.step s = .ok (.running m'' stored) →
        m''.agenda.entries.length < m.agenda.entries.length →
        m'.task = .expr id ∧ m'.agenda.entries = m.agenda.entries
          ∧ (∃ v, m''.values = v :: m.values)
          ∧ m.agenda.entries = ⟨m''.phase, m''.task⟩ :: m''.agenda.entries
          ∧ m''.frames.length = m.frames.length ∧ m''.frames.tail = m.frames.tail := by
  have hinside := h.inside htask hphase
  refine ⟨hinside.intact, ?_⟩
  intro m'' stored hstep hshorter
  rcases hinside.step hstep with hstill | hcompletes
  · have hlength := hstill.intact.1.length_le
    omega
  · obtain ⟨htask', hentries, hvalue, hresumed, hframes⟩ := hcompletes
    exact ⟨htask', hentries, hvalue, hresumed, hframes⟩

/-- The negation of one. -/
def negation : Setting where
  program := { arena := { nodes := #[.number 1.0, .unary .neg ⟨0⟩] } }
  entry := Program.entryName

/-- A run in phase `phase` of a node of `negation`. -/
def negating (phase : Nat) (node : UInt32) (waiting : List Pending) (values : Values) :
    Machine :=
  { task := .expr ⟨node⟩, phase, agenda := { entries := waiting }, values }

theorem stacks_intact_negation :
    Within negation (negating 0 1 [⟨1, .entry⟩] [2.0]) (negating 1 1 [⟨1, .entry⟩] [1.0, 2.0])
    ∧ [(2.0 : Float)] <:+ [1.0, 2.0]
    ∧ ∃ m'' v, (negating 1 1 [⟨1, .entry⟩] [1.0, 2.0]).step negation = .ok (.running m'' none)
      ∧ m''.values = [v, 2.0] ∧ [⟨1, .entry⟩] = ⟨m''.phase, m''.task⟩ :: m''.agenda.entries := by
  have hchild : Within negation (negating 0 1 [⟨1, .entry⟩] [2.0])
      (negating 0 0 [⟨1, .expr ⟨1⟩⟩, ⟨1, .entry⟩] [2.0]) := .step .refl rfl (by decide)
  have hback : Within negation (negating 0 1 [⟨1, .entry⟩] [2.0])
      (negating 1 1 [⟨1, .entry⟩] [1.0, 2.0]) := .step hchild rfl (by decide)
  obtain ⟨⟨-, hvalues, -, -⟩, hlast⟩ := stacks_intact rfl rfl hback
  have hstep : (negating 1 1 [⟨1, .entry⟩] [1.0, 2.0]).step negation
      = .ok (.running ⟨.entry, 1, {}, [UnaryOp.neg.eval 1.0, 2.0], []⟩ none) := rfl
  obtain ⟨-, -, ⟨v, hv⟩, hresumed, -⟩ := hlast _ _ hstep (by decide)
  exact ⟨hback, hvalues, _, v, hstep, hv, hresumed⟩

end Machine

end ExprGraph
