/-
Calls by the host, one after the other, on one trace.

A call hands each store to the trace as soon as it is made
(`Machine.runOnto`), and the next call finds the trace as this one left it
(`Interpreter.Serves`). Nothing of it gets back into a run: a call comes to
what it comes to alone, whatever the trace is and whatever it holds
(`executeOnto_eq`).

# Reading the lines back

A buffer keeps one text. It can be split where the lines were put together
because no line holds a line feed or ends in a carriage return: the name is
one of the declared names, and the text of a double has neither
(`isLine_line`).
-/
import ExprGraph.Proofs.Decimal.Texts
import ExprGraph.Proofs.Machine.Replay

namespace ExprGraph

-- =================================================================== trace

namespace Trace

/-- Report a store, if there is any use for its line. -/
def emit (t : Trace) (store : Store) : Trace :=
  if t.isSilent then t else t.record store.line

/-- A buffer with what it captured. -/
def buffer (captured : String) : Trace := { sink := .buffer, captured }

theorem isSilent_record (t : Trace) (line : String) : (t.record line).isSilent = t.isSilent := by
  unfold record
  split <;> rfl

/-- Stores may as well be reported all at once. -/
theorem foldl_emit (t : Trace) (stores : List Store) :
    stores.foldl emit t = t.recordAll stores := by
  induction stores generalizing t with
  | nil =>
      unfold recordAll
      split <;> rfl
  | cons store stores ih =>
      rw [List.foldl_cons, ih, emit]
      unfold recordAll
      cases hsilent : t.isSilent with
      | true => rw [if_pos rfl, if_pos hsilent, if_pos rfl]
      | false =>
          have hnot : ¬(t.record store.line).isSilent = true := by
            rw [isSilent_record, hsilent]
            exact Bool.false_ne_true
          rw [if_neg Bool.false_ne_true, if_neg hnot, if_neg Bool.false_ne_true, List.foldl_cons]

end Trace

-- ==================================================================== runs

namespace Machine

/-- Step until the run ends, and report each store to the trace as soon as
it is made. -/
def runOnto (s : Setting) : Nat → Machine → Trace → Option (Except Fault Float × Trace)
  | 0, _, _ => none
  | steps + 1, m, trace =>
    let step := m.report s
    let trace := step.stores.foldl Trace.emit trace
    match located m.site step.result with
    | .error fault => some (.error fault, trace)
    | .ok (.finished value) => some (.ok value, trace)
    | .ok (.running next _) => runOnto s steps next trace

end Machine

/-- A call by the host: of the function that ends a run, or of any. -/
inductive Call where
  | run
  | execute (name : String) (args : List Argument)

/-- The function that is called. -/
def Call.callee (entry : String) : Call → String
  | .run => entry
  | .execute name _ => name

/-- What it is called on. -/
def Call.args : Call → List Argument
  | .run => []
  | .execute _ args => args

namespace Interpreter

open Machine

variable (i : Interpreter)

/-- Run a function on arguments, and report its stores to the trace. -/
def executeOnto (steps : Nat) (name : String) (args : List Argument) (trace : Trace) :
    Option (Except Fault Float × Trace) :=
  match i.program.function? name with
  | none => some (.error { cause := .undefinedFunction name }, trace)
  | some f =>
    match i.bindArguments f args with
    | .error cause => some (.error ⟨cause, { function := some name }⟩, trace)
    | .ok vars =>
      match Machine.start i.maxDepth f vars with
      | .error cause => some (.error { cause }, trace)
      | .ok m => m.runOnto i.setting steps trace

/-- Answer a call. -/
def answer (steps : Nat) (call : Call) (trace : Trace) : Option (Except Fault Float × Trace) :=
  i.executeOnto steps (call.callee i.entry) call.args trace

/-- Calls are answered one after the other on one trace, each to its
end. -/
inductive Serves : Trace → List Call → List (Except Fault Float) → Trace → Prop where
  | nil (trace : Trace) : Serves trace [] [] trace
  | cons {trace trace' trace'' : Trace} {call : Call} {calls : List Call}
      {result : Except Fault Float} {results : List (Except Fault Float)} {steps : Nat} :
      i.answer steps call trace = some (result, trace') → Serves trace' calls results trace'' →
      Serves trace (call :: calls) (result :: results) trace''

/-- What a call comes to on a new trace. -/
def Answers (sink : Sink) (call : Call) (result : Except Fault Float) : Prop :=
  ∃ steps trace, i.answer steps call { sink } = some (result, trace)

variable {i : Interpreter} {name : String} {args : List Argument}

-- ==================================================== runs without a trace

/-- What a run comes to, and what it hands to the trace, are the result and
the stores of the run without a trace. -/
theorem Reaches.runOnto_eq (steps : Nat) :
    ∀ {t : List Store} {m : Machine} (trace : Trace), i.Reaches name args t m →
      m.runOnto i.setting steps trace = (m.run i.setting steps []).map
        fun out => (out.result, out.stores.foldl Trace.emit trace) := by
  induction steps with
  | zero => exact fun _ _ => rfl
  | succ steps ih =>
      intro t m trace h
      have hfaithful := h.faithful
      unfold Reporting.Faithful at hfaithful
      rw [result_report] at hfaithful
      unfold runOnto
      dsimp only
      rw [hfaithful, result_report]
      cases hstep : m.step i.setting with
      | error cause =>
          rw [run_of_error hstep]
          rfl
      | ok progress =>
          cases progress with
          | finished value =>
              rw [run_of_finished hstep]
              rfl
          | running next stored =>
              have hrest := ih (stored.toList.foldl Trace.emit trace) (h.step hstep)
              rw [run_of_running hstep, run_stores, Option.map_map]
              refine hrest.trans (congrArg (Option.map · _) ?_)
              funext out
              cases stored <;> rfl

/-- To report stores as they are made is to run without a trace and report
them afterwards. -/
theorem executeOnto_eq (i : Interpreter) (steps : Nat) (name : String) (args : List Argument)
    (trace : Trace) :
    i.executeOnto steps name args trace = (i.execute steps name args).map
      fun out => (out.result, trace.recordAll out.stores) := by
  simp only [← Trace.foldl_emit]
  rcases starts_or_refuses i name args with ⟨f, vars, m, hstarts⟩ | ⟨fault, hrefuses⟩
  · rw [hstarts.execute_eq, ← hstarts.reaches.runOnto_eq]
    unfold executeOnto
    simp only [hstarts.found, hstarts.bound, hstarts.started]
  · rw [hrefuses.execute_eq]
    unfold executeOnto
    cases hrefuses with
    | undefined hfun => simp only [hfun]; rfl
    | unbound hfun hargs => simp only [hfun, hargs]; rfl
    | unstarted hfun hargs hstart => simp only [hfun, hargs, hstart]; rfl

/-- A call ends on a trace iff it ends without one, and the same way. -/
theorem answer_iff {call : Call} {trace trace' : Trace} {result : Except Fault Float} :
    (∃ steps, i.answer steps call trace = some (result, trace')) ↔
      ∃ out, i.Ends (call.callee i.entry) call.args out
        ∧ out.result = result ∧ trace.recordAll out.stores = trace' := by
  unfold answer
  constructor
  · rintro ⟨steps, h⟩
    rw [executeOnto_eq] at h
    obtain ⟨out, hout, hpair⟩ := Option.map_eq_some_iff.mp h
    obtain ⟨hresult, htrace⟩ := Prod.mk.inj hpair
    exact ⟨out, ⟨steps, hout⟩, hresult, htrace⟩
  · rintro ⟨out, ⟨steps, hout⟩, rfl, rfl⟩
    refine ⟨steps, ?_⟩
    rw [executeOnto_eq, hout]
    rfl

/-- A new trace of any kind makes no difference. -/
theorem answers_iff {call : Call} {out : Outcome}
    (h : i.Ends (call.callee i.entry) call.args out) (sink : Sink)
    (result : Except Fault Float) : i.Answers sink call result ↔ result = out.result := by
  unfold Answers
  constructor
  · rintro ⟨steps, trace, hanswer⟩
    obtain ⟨out', hends, rfl, -⟩ := answer_iff.mp ⟨steps, hanswer⟩
    rw [hends.unique h]
  · rintro rfl
    obtain ⟨steps, hanswer⟩ := answer_iff.mpr ⟨out, h, rfl, rfl⟩
    exact ⟨steps, _, hanswer⟩

-- ================================================================ sessions

/-- A session leaves the stores of its calls in the trace, in order. -/
theorem Serves.outcomes {trace trace' : Trace} {calls : List Call}
    {results : List (Except Fault Float)} (h : i.Serves trace calls results trace') :
    ∃ outs : List Outcome,
      List.Forall₂ (fun call out => i.Ends (call.callee i.entry) call.args out) calls outs
      ∧ results = outs.map (·.result)
      ∧ trace' = trace.recordAll (outs.flatMap (·.stores)) := by
  induction h with
  | nil trace => exact ⟨[], .nil, rfl, Trace.foldl_emit trace []⟩
  | cons hanswer _ ih =>
      obtain ⟨out, hends, rfl, rfl⟩ := answer_iff.mp ⟨_, hanswer⟩
      obtain ⟨outs, houts, rfl, rfl⟩ := ih
      refine ⟨out :: outs, .cons hends houts, rfl, ?_⟩
      rw [List.flatMap_cons, ← Trace.foldl_emit, ← Trace.foldl_emit, ← Trace.foldl_emit,
        List.foldl_append]

/-- Calls that end can be served. -/
theorem serves_of_ends {calls : List Call} (trace : Trace)
    (h : ∀ call ∈ calls, ∃ out, i.Ends (call.callee i.entry) call.args out) :
    ∃ results trace', i.Serves trace calls results trace' := by
  induction calls generalizing trace with
  | nil => exact ⟨[], trace, .nil trace⟩
  | cons call calls ih =>
      obtain ⟨⟨out, hout⟩, hcalls⟩ := List.forall_mem_cons.mp h
      obtain ⟨steps, hanswer⟩ := answer_iff.mpr ⟨out, hout, rfl, rfl⟩
      obtain ⟨results, trace', hserves⟩ := ih (trace.recordAll out.stores) hcalls
      exact ⟨out.result :: results, trace', .cons hanswer hserves⟩

end Interpreter

-- =================================================================== lines

/-- The name of the variable that is written. -/
def Store.name : Store → String
  | .scalar _ name _ | .element _ name _ _ => name

/-- A text that a double ends is one line if what stands in front of it
is. -/
theorem isLine_append {front : List Char} (h : '\n' ∉ front) (value : Float) :
    IsLine (front ++ ' ' :: (Decimal.text value).toList) := by
  have htext : ∀ c, Decimal.isTextChar c = false → c ≠ ' ' →
      c ∉ ' ' :: (Decimal.text value).toList := by
    intro c hc hblank hmem
    rcases List.mem_cons.mp hmem with rfl | hmem
    · exact hblank rfl
    · rw [Decimal.isTextChar_of_mem_text hmem] at hc
      cases hc
  constructor
  · rw [List.mem_append, not_or]
    exact ⟨h, htext '\n' rfl (by decide)⟩
  · intro hlast
    rw [List.getLast?_append_of_ne_nil _ (List.cons_ne_nil _ _)] at hlast
    exact htext '\r' rfl (by decide) (List.mem_of_getLast? hlast)

theorem isLine_line {store : Store} (h : '\n' ∉ store.name.toList) :
    IsLine store.line.toList := by
  cases store with
  | scalar var name value =>
      have htext : (Store.scalar var name value).line = name ++ " = " ++ Decimal.text value := rfl
      have hline : (Store.scalar var name value).line.toList
          = (name.toList ++ [' ', '=']) ++ ' ' :: (Decimal.text value).toList := by
        simp [htext]
      rw [hline]
      refine isLine_append ?_ value
      rw [List.mem_append, not_or]
      exact ⟨h, by decide⟩
  | element array name slot value =>
      have htext : (Store.element array name slot value).line
          = name ++ "[" ++ slot.repr ++ "] = " ++ Decimal.text value := rfl
      have hline : (Store.element array name slot value).line.toList
          = (name.toList ++ '[' :: (Nat.toDigits 10 slot ++ [']', ' ', '=']))
            ++ ' ' :: (Decimal.text value).toList := by
        simp [htext]
      have hslot : '\n' ∉ Nat.toDigits 10 slot := by
        intro hmem
        cases Nat.isDigit_of_mem_toDigits (by decide) (by decide) hmem
      rw [hline]
      refine isLine_append ?_ value
      simp only [List.mem_append, List.mem_cons, not_or]
      exact ⟨h, by decide, hslot, by decide, by decide, by decide, by nofun⟩

namespace Trace

/-- A buffer holds the lines reported to it, each closed by a line feed. -/
theorem foldl_emit_buffer (captured : String) (stores : List Store) :
    ∃ text, stores.foldl emit (buffer captured) = buffer text
      ∧ text.toList = captured.toList ++ (stores.map (·.line.toList)).flatMap (· ++ ['\n']) := by
  induction stores generalizing captured with
  | nil => exact ⟨captured, rfl, (List.append_nil _).symm⟩
  | cons store stores ih =>
      obtain ⟨text, hfold, htext⟩ := ih ((captured ++ store.line).push '\n')
      refine ⟨text, hfold, ?_⟩
      rw [htext, String.toList_push, String.toList_append, List.map_cons, List.flatMap_cons]
      simp only [List.append_assoc]

/-- A buffer gives back what was reported, one entry a store. -/
theorem lines_recordAll {stores : List Store} (h : ∀ store ∈ stores, '\n' ∉ store.name.toList) :
    (Trace.recordAll { sink := .buffer } stores).lines = stores.map Store.line := by
  obtain ⟨text, hfold, htext⟩ := foldl_emit_buffer "" stores
  have hlines : ∀ line ∈ stores.map (·.line.toList), IsLine line := by
    intro line hmem
    obtain ⟨store, hstore, rfl⟩ := List.mem_map.mp hmem
    exact isLine_line (h store hstore)
  rw [← foldl_emit]
  change (stores.foldl emit (buffer "")).lines = _
  rw [hfold]
  show splitLines text.toList [] [] = _
  rw [htext]
  refine (splitLines_lines hlines []).trans ?_
  rw [List.map_map]
  exact List.map_congr_left fun store _ => String.ofList_toList

end Trace

/-- Stores go to declared variables. -/
theorem Store.Shows.declared {p : Program} {f : Frame} {store : Store} (h : store.Shows p f) :
    ∃ sym ∈ p.symbols.entries, sym.name = store.name := by
  cases store with
  | scalar var name value =>
      obtain ⟨⟨sym, hget, hname⟩, -⟩ := h
      exact ⟨sym, Array.mem_of_getElem? hget, hname⟩
  | element array name slot value =>
      obtain ⟨⟨sym, hget, hname, -⟩, -⟩ := h
      exact ⟨sym, Array.mem_of_getElem? hget, hname⟩

theorem Machine.Steps.declared {s : Setting} {m m' : Machine} {t : List Store}
    (h : Steps s m t m') : ∀ store ∈ t, ∃ sym ∈ s.program.symbols.entries, sym.name = store.name := by
  induction h with
  | refl => nofun
  | step hstep _ ih =>
      refine List.forall_mem_append.mpr ⟨fun store hstore => ?_, ih⟩
      rw [Option.mem_toList] at hstore
      subst hstore
      obtain ⟨call, rest, -, hshows⟩ := (change_of_step hstep).shows
      exact hshows.declared

namespace Interpreter

variable {i : Interpreter} {name : String} {args : List Argument}

theorem Ends.declared {out : Outcome} (h : i.Ends name args out) :
    ∀ store ∈ out.stores, ∃ sym ∈ i.program.symbols.entries, sym.name = store.name := by
  rcases h.last with ⟨fault, -, rfl⟩ | ⟨m, ⟨f, vars, m₀, -, hsteps⟩, -⟩
  · nofun
  · exact hsteps.declared

theorem declared_of_ends {calls : List Call} {outs : List Outcome}
    (h : List.Forall₂ (fun call out => i.Ends (call.callee i.entry) call.args out) calls outs) :
    ∀ out ∈ outs, ∀ store ∈ out.stores,
      ∃ sym ∈ i.program.symbols.entries, sym.name = store.name := by
  induction h with
  | nil => nofun
  | cons hends _ ih => exact List.forall_mem_cons.mpr ⟨hends.declared, ih⟩

/-- Sessions are their calls, each by itself: a call comes to what it comes
to on a new trace of any kind, and a buffer gives back the lines of the
stores, call by call, failing calls included. And calls that end can be
served in any order. -/
theorem answers_of_serves (i : Interpreter)
    (hnames : ∀ sym ∈ i.program.symbols.entries, '\n' ∉ sym.name.toList) (calls : List Call) :
    (∀ results trace, i.Serves { sink := .buffer } calls results trace →
      ∃ outs : List Outcome,
        List.Forall₂ (fun call out => i.Ends (call.callee i.entry) call.args out
          ∧ ∀ sink result, i.Answers sink call result ↔ result = out.result) calls outs
        ∧ results = outs.map (·.result)
        ∧ trace.lines = outs.flatMap fun out => out.stores.map Store.line)
    ∧ ((∀ call ∈ calls, ∃ out, i.Ends (call.callee i.entry) call.args out) →
      ∃ results trace, i.Serves { sink := .buffer } calls results trace) := by
  refine ⟨fun results trace h => ?_, serves_of_ends _⟩
  obtain ⟨outs, houts, hresults, rfl⟩ := h.outcomes
  refine ⟨outs, houts.imp fun call out hends => ⟨hends, answers_iff hends⟩, hresults, ?_⟩
  have hall : ∀ store ∈ outs.flatMap (·.stores), '\n' ∉ store.name.toList := by
    intro store hstore
    obtain ⟨out, hout, hmem⟩ := List.mem_flatMap.mp hstore
    obtain ⟨sym, hsym, hname⟩ := declared_of_ends houts out hout store hmem
    exact hname ▸ hnames sym hsym
  rw [Trace.lines_recordAll hall, List.map_flatMap]

/-- `main` is `x = 3; y`, which fails at `y`; `keep(n)` is `result = n`. -/
def faltering : Interpreter where
  program := {
    arena := {
      nodes := #[.number 3.0, .assign (.scalar ⟨0⟩) ⟨0⟩, .var ⟨1⟩, .seq ⟨1⟩ ⟨2⟩, .var ⟨2⟩,
        .assign (.scalar ⟨3⟩) ⟨4⟩] }
    symbols := { entries := #[⟨"x", 1⟩, ⟨"y", 1⟩, ⟨"n", 1⟩, ⟨"result", 1⟩] }
    functions := ((Functions.empty.register ⟨"main", [], ⟨3⟩⟩).2.register
      ⟨"keep", [.scalar ⟨2⟩], ⟨5⟩⟩).2 }

/-- The first and the third call fail, and the lines of their stores are
there. -/
theorem answers_of_serves_faltering :
    (∀ sym ∈ faltering.program.symbols.entries, '\n' ∉ sym.name.toList)
    ∧ ∃ results trace,
      faltering.Serves { sink := .buffer } [.run, .execute "keep" [.scalar 0.5], .run] results trace
      ∧ trace.lines = ["x = 3", "result = 0.5", "x = 3"] := by
  have hnames : ∀ sym ∈ faltering.program.symbols.entries, '\n' ∉ sym.name.toList := by decide
  have hrun : faltering.Ends "main" [] ⟨.error ⟨.uninitialized "y", ⟨some "main", some ⟨2⟩⟩⟩,
      [.scalar ⟨0⟩ "x" 3.0]⟩ := ⟨20, rfl⟩
  have hkeep : faltering.Ends "keep" [.scalar 0.5] ⟨.ok 0.5, [.scalar ⟨3⟩ "result" 0.5]⟩ :=
    ⟨20, rfl⟩
  obtain ⟨hserved, hcomplete⟩ := answers_of_serves faltering hnames
    [.run, .execute "keep" [.scalar 0.5], .run]
  have hends : ∀ call ∈ [.run, .execute "keep" [.scalar 0.5], .run],
      ∃ out, faltering.Ends (Call.callee faltering.entry call) call.args out :=
    List.forall_mem_cons.mpr ⟨⟨_, hrun⟩, List.forall_mem_cons.mpr ⟨⟨_, hkeep⟩,
      List.forall_mem_singleton.mpr ⟨_, hrun⟩⟩⟩
  obtain ⟨results, trace, hserves⟩ := hcomplete hends
  refine ⟨hnames, results, trace, hserves, ?_⟩
  obtain ⟨outs, houts, -, hlines⟩ := hserved results trace hserves
  rcases houts with _ | ⟨⟨hfirst, -⟩, _ | ⟨⟨hsecond, -⟩, _ | ⟨⟨hthird, -⟩, ⟨⟩⟩⟩⟩
  obtain rfl := hfirst.unique hrun
  obtain rfl := hsecond.unique hkeep
  obtain rfl := hthird.unique hrun
  rw [hlines]
  decide +kernel

end Interpreter

end ExprGraph
