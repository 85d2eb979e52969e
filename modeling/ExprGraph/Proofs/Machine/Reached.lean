/-
The states that runs reach.

A run of an interpreter is what its front makes of a call by the host. It
may be refused before the machine has made a step; otherwise it starts in
a state, and reaches the states behind it, each after the stores made on
the way (`Reaches`). An outcome is that of the last state reached, whose
next step ends the run (`Ends.last`). Runs without an end have states as
well, so what is shown of every state reached is shown of them too.
-/
import ExprGraph.Proofs.Machine.Steps

namespace ExprGraph

namespace Machine

variable {s : Setting}

/-- One step more. -/
theorem Steps.snoc {m m' m'' : Machine} {t : List Store} {stored : Option Store}
    (h : Steps s m t m') (hstep : m'.step s = .ok (.running m'' stored)) :
    Steps s m (t ++ stored.toList) m'' := by
  have hlast : Steps s m' (stored.toList ++ []) m'' := .step hstep (.refl m'')
  rw [List.append_nil] at hlast
  exact h.trans hlast

/-- What every step keeps, a stretch of a run keeps. -/
theorem Steps.keeps {P : Machine → Prop}
    (hkeeps : ∀ {m m' : Machine} {stored : Option Store},
      m.step s = .ok (.running m' stored) → P m → P m')
    {m m' : Machine} {t : List Store} (h : Steps s m t m') (hm : P m) : P m' := by
  induction h with
  | refl => exact hm
  | step hstep _ ih => exact ih (hkeeps hstep hm)

/-- The last step of a run: a failure, met in this state, or its value. -/
def Last (s : Setting) (m : Machine) (result : Except Fault Float) : Prop :=
  (∃ cause, m.step s = .error cause ∧ result = .error ⟨cause, m.site⟩)
    ∨ ∃ value, m.step s = .ok (.finished value) ∧ result = .ok value

/-- A run that ends has a last state. -/
theorem last_of_run {steps : Nat} :
    ∀ {m : Machine} {out : Outcome}, m.run s steps [] = some out →
      ∃ m', Steps s m out.stores m' ∧ Last s m' out.result := by
  induction steps with
  | zero => intro m out h; cases h
  | succ steps ih =>
      intro m out h
      cases hstep : m.step s with
      | error cause =>
          rw [run_of_error hstep] at h
          cases h
          exact ⟨m, .refl m, .inl ⟨cause, hstep, rfl⟩⟩
      | ok progress =>
          cases progress with
          | finished value =>
              rw [run_of_finished hstep] at h
              cases h
              exact ⟨m, .refl m, .inr ⟨value, hstep, rfl⟩⟩
          | running m₁ stored =>
              rw [run_of_running hstep, run_stores] at h
              obtain ⟨out₁, hrun, rfl⟩ := Option.map_eq_some_iff.mp h
              obtain ⟨m', hsteps, hlast⟩ := ih hrun
              refine ⟨m', ?_, hlast⟩
              have hall := Steps.step hstep hsteps
              cases stored <;> exact hall

/-- A state whose step goes on is not the last. -/
theorem not_last_of_running {m m' : Machine} {stored : Option Store}
    (h : m.step s = .ok (.running m' stored)) (result : Except Fault Float) :
    ¬Last s m result := by
  rintro (⟨cause, hstep, -⟩ | ⟨value, hstep, -⟩)
  · rw [h] at hstep
    cases hstep
  · rw [h] at hstep
    cases hstep

/-- The stores made on the way to any state are the first of those made on
the way to the last. -/
theorem Steps.prefix_of_last {m m₁ m₂ : Machine} {t t' : List Store}
    {result : Except Fault Float} (h : Steps s m t m₁) (h' : Steps s m t' m₂)
    (hlast : Last s m₂ result) : t <+: t' := by
  induction h generalizing t' with
  | refl => exact List.nil_prefix
  | step hstep _ ih =>
      cases h' with
      | refl => exact absurd hlast (not_last_of_running hstep result)
      | step hstep' h' =>
          rw [hstep] at hstep'
          cases hstep'
          exact (List.prefix_append_right_inj _).mpr (ih h')

/-- The last state of a run ends it. -/
theorem run_of_last {m m' : Machine} {t : List Store} {result : Except Fault Float}
    (h : Steps s m t m') (hlast : Last s m' result) :
    ∃ steps, m.run s steps [] = some ⟨result, t⟩ := by
  induction h with
  | refl m =>
      rcases hlast with ⟨cause, hstep, rfl⟩ | ⟨value, hstep, rfl⟩
      · exact ⟨1, run_of_error hstep 0 []⟩
      · exact ⟨1, run_of_finished hstep 0 []⟩
  | @step m m₁ m₂ stored t hstep _ ih =>
      obtain ⟨steps, hrun⟩ := ih hlast
      refine ⟨steps + 1, ?_⟩
      rw [run_of_running hstep, run_stores, hrun]
      cases stored <;> rfl

end Machine

namespace Interpreter

open Machine

/-- What stays fixed during a run. -/
def setting (i : Interpreter) : Setting := ⟨i.program, i.entry⟩

variable (i : Interpreter) (name : String) (args : List Argument)

-- ================================================================ the start

/-- A call by the host starts a function with its parameters bound. -/
structure Starts (f : Function) (vars : Frame) (m : Machine) : Prop where
  found : i.program.function? name = some f
  bound : i.bindArguments f args = .ok vars
  started : Machine.start i.maxDepth f vars = .ok m

/-- A call by the host that fails before the first step. -/
inductive Refuses : Fault → Prop where
  | undefined : i.program.function? name = none →
      Refuses { cause := .undefinedFunction name }
  | unbound {f : Function} {cause : Cause} : i.program.function? name = some f →
      i.bindArguments f args = .error cause →
      Refuses ⟨cause, { function := some name }⟩
  | unstarted {f : Function} {vars : Frame} {cause : Cause} :
      i.program.function? name = some f → i.bindArguments f args = .ok vars →
      Machine.start i.maxDepth f vars = .error cause →
      Refuses { cause }

/-- The run reaches a state, after these stores. -/
def Reaches (t : List Store) (m : Machine) : Prop :=
  ∃ f vars m₀, i.Starts name args f vars m₀ ∧ Steps i.setting m₀ t m

/-- The run comes to an end. -/
def Ends (out : Outcome) : Prop :=
  ∃ steps, i.execute steps name args = some out

variable {i : Interpreter} {name : String} {args : List Argument}

/-- A run that starts goes on from its first state. -/
theorem Starts.execute_eq {f : Function} {vars : Frame} {m : Machine}
    (h : i.Starts name args f vars m) (steps : Nat) :
    i.execute steps name args = m.run i.setting steps [] := by
  unfold execute
  simp only [h.found, h.bound, h.started]
  rfl

/-- A run that is refused ends there and then. -/
theorem Refuses.execute_eq {fault : Fault} (h : i.Refuses name args fault) (steps : Nat) :
    i.execute steps name args = some ⟨.error fault, []⟩ := by
  unfold execute
  cases h with
  | undefined hfun => simp only [hfun]
  | unbound hfun hargs => simp only [hfun, hargs]
  | unstarted hfun hargs hstart => simp only [hfun, hargs, hstart]

/-- A run starts or is refused. -/
theorem starts_or_refuses (i : Interpreter) (name : String) (args : List Argument) :
    (∃ f vars m, i.Starts name args f vars m) ∨ ∃ fault, i.Refuses name args fault := by
  cases hfun : i.program.function? name with
  | none => exact .inr ⟨_, .undefined hfun⟩
  | some f =>
      cases hargs : i.bindArguments f args with
      | error cause => exact .inr ⟨_, .unbound hfun hargs⟩
      | ok vars =>
          cases hstart : Machine.start i.maxDepth f vars with
          | error cause => exact .inr ⟨_, .unstarted hfun hargs hstart⟩
          | ok m => exact .inl ⟨f, vars, m, hfun, hargs, hstart⟩

-- ================================================================== the end

/-- A run that ends was refused, or ends in the last state it reaches. -/
theorem Ends.last {out : Outcome} (h : i.Ends name args out) :
    (∃ fault, i.Refuses name args fault ∧ out = ⟨.error fault, []⟩)
      ∨ ∃ m, i.Reaches name args out.stores m ∧ Last i.setting m out.result := by
  obtain ⟨steps, hexec⟩ := h
  rcases starts_or_refuses i name args with ⟨f, vars, m, hstarts⟩ | ⟨fault, hrefuses⟩
  · rw [hstarts.execute_eq] at hexec
    obtain ⟨m', hsteps, hlast⟩ := last_of_run hexec
    exact .inr ⟨m', ⟨f, vars, m, hstarts, hsteps⟩, hlast⟩
  · rw [hrefuses.execute_eq] at hexec
    cases hexec
    exact .inl ⟨fault, hrefuses, rfl⟩

/-- A run that is refused ends, with no stores. -/
theorem Refuses.ends {fault : Fault} (h : i.Refuses name args fault) :
    i.Ends name args ⟨.error fault, []⟩ :=
  ⟨0, h.execute_eq 0⟩

/-- A run that reaches a last state ends there. -/
theorem Reaches.ends {t : List Store} {m : Machine} {result : Except Fault Float}
    (h : i.Reaches name args t m) (hlast : Last i.setting m result) :
    i.Ends name args ⟨result, t⟩ := by
  obtain ⟨f, vars, m₀, hstarts, hsteps⟩ := h
  obtain ⟨steps, hrun⟩ := run_of_last hsteps hlast
  exact ⟨steps, by rw [hstarts.execute_eq, hrun]⟩

/-- There is one first state. -/
theorem Starts.unique {f f' : Function} {vars vars' : Frame} {m m' : Machine}
    (h : i.Starts name args f vars m) (h' : i.Starts name args f' vars' m') : m = m' := by
  obtain ⟨hfound, hbound, hstarted⟩ := h
  obtain ⟨hfound', hbound', hstarted'⟩ := h'
  rw [hfound] at hfound'
  cases hfound'
  rw [hbound] at hbound'
  cases hbound'
  rw [hstarted] at hstarted'
  cases hstarted'
  rfl

/-- A run that is refused has none. -/
theorem Refuses.not_starts {fault : Fault} (h : i.Refuses name args fault) {f : Function}
    {vars : Frame} {m : Machine} : ¬i.Starts name args f vars m := by
  rintro ⟨hfound, hbound, hstarted⟩
  cases h with
  | undefined hfun => rw [hfound] at hfun; cases hfun
  | unbound hfun hargs =>
      rw [hfound] at hfun
      cases hfun
      rw [hbound] at hargs
      cases hargs
  | unstarted hfun hargs hstart =>
      rw [hfound] at hfun
      cases hfun
      rw [hbound] at hargs
      cases hargs
      rw [hstarted] at hstart
      cases hstart

/-- It ends in one way only. -/
theorem Refuses.ends_iff {fault : Fault} (h : i.Refuses name args fault) {out : Outcome} :
    i.Ends name args out ↔ out = ⟨.error fault, []⟩ := by
  constructor
  · rintro ⟨steps, hexec⟩
    rw [h.execute_eq] at hexec
    exact (Option.some.inj hexec).symm
  · rintro rfl
    exact h.ends

/-- A run has one end. -/
theorem Ends.unique {out out' : Outcome} (h : i.Ends name args out) (h' : i.Ends name args out') :
    out = out' := by
  rcases starts_or_refuses i name args with ⟨f, vars, m, hstarts⟩ | ⟨fault, hrefuses⟩
  · obtain ⟨steps, hexec⟩ := h
    obtain ⟨steps', hexec'⟩ := h'
    rw [hstarts.execute_eq] at hexec hexec'
    exact run_unique hexec hexec'
  · exact (hrefuses.ends_iff.mp h).trans (hrefuses.ends_iff.mp h').symm

-- ========================================================= every state reached

/-- The state behind a state that is reached is reached. -/
theorem Reaches.step {t : List Store} {m m' : Machine} {stored : Option Store}
    (h : i.Reaches name args t m) (hstep : m.step i.setting = .ok (.running m' stored)) :
    i.Reaches name args (t ++ stored.toList) m' := by
  obtain ⟨f, vars, m₀, hstarts, hsteps⟩ := h
  exact ⟨f, vars, m₀, hstarts, hsteps.snoc hstep⟩

/-- A run that is refused reaches no state. -/
theorem Refuses.not_reaches {fault : Fault} (h : i.Refuses name args fault) {t : List Store}
    {m : Machine} : ¬i.Reaches name args t m :=
  fun ⟨_, _, _, hstarts, _⟩ => h.not_starts hstarts

/-- The states reached are those behind the first. -/
theorem Starts.reaches_iff {f : Function} {vars : Frame} {m₀ : Machine}
    (h : i.Starts name args f vars m₀) {t : List Store} {m : Machine} :
    i.Reaches name args t m ↔ Steps i.setting m₀ t m := by
  constructor
  · rintro ⟨f', vars', m', hstarts, hsteps⟩
    rwa [h.unique hstarts]
  · exact fun hsteps => ⟨f, vars, m₀, h, hsteps⟩

/-- A run ends where its first state leads to a last one. -/
theorem Starts.ends_iff {f : Function} {vars : Frame} {m₀ : Machine}
    (h : i.Starts name args f vars m₀) {out : Outcome} :
    i.Ends name args out ↔ ∃ m, Steps i.setting m₀ out.stores m ∧ Last i.setting m out.result := by
  constructor
  · intro hends
    rcases hends.last with ⟨fault, hrefuses, -⟩ | ⟨m, hreaches, hlast⟩
    · exact absurd h hrefuses.not_starts
    · exact ⟨m, h.reaches_iff.mp hreaches, hlast⟩
  · rintro ⟨m, hsteps, hlast⟩
    exact Reaches.ends ⟨f, vars, m₀, h, hsteps⟩ hlast

theorem Starts.reaches {f : Function} {vars : Frame} {m : Machine}
    (h : i.Starts name args f vars m) : i.Reaches name args [] m :=
  ⟨f, vars, m, h, .refl m⟩

end Interpreter

end ExprGraph
