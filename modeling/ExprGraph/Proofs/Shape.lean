/-
The shape of a program decides what becomes of it.

Both engines follow the numbers of nodes, and neither looks at them. A
program that mirrors another therefore makes the same runs, and its
functions have the same code (`Mirrors.same_runs_same_code`): equal nodes
may be kept once or many times, under any numbers, with any others between
them.

# Cycles

A run may go round a cycle, and mirrored runs go round together. Lowering
goes no deeper than the arena is large, and arenas of one shape differ in
size, so of code the same is said of bodies without a cycle only.
-/
import ExprGraph.Proofs.Machine.RenamedRuns
import ExprGraph.Proofs.SSA.RenamedCode

namespace ExprGraph.Program

open SSA (Builder Refusal)

/-- A call of a function comes to the same value or failure, by the same
stores, for every entry, limit and number of steps, and a failure is placed
at the image of the node. A function without a cycle has the same code, or
is refused for the same reason at the image of the node. -/
theorem Mirrors.same_runs_same_code {p q : Program} {φ : ExprId → ExprId} (h : p.Mirrors q φ)
    {name : String} {f : Function} (hfound : p.function? name = some f) :
    (∀ entry limit steps args, (⟨q, entry, limit⟩ : Interpreter).execute steps name args
      = ((⟨p, entry, limit⟩ : Interpreter).execute steps name args).map (Outcome.rename φ))
    ∧ (p.Acyclic f.body → ∀ b : Builder, b.buildNamed q name
      = ((b.buildNamed p name).1.mapError (Refusal.rename φ), (b.buildNamed p name).2)) :=
  ⟨Interpreter.execute_rename h hfound, SSA.build_rename h hfound⟩

/-- `result = double(2)`, where `double(x)` is `result = x + x`, and `x` is
there twice. -/
def copied : Program where
  arena := {
    nodes := #[.var ⟨0⟩, .var ⟨0⟩, .binary .add ⟨0⟩ ⟨1⟩, .assign (.scalar ⟨1⟩) ⟨2⟩, .number 2.0,
      .call ⟨0⟩ ⟨0, 1⟩, .assign (.scalar ⟨1⟩) ⟨5⟩]
    lists := #[⟨4⟩] }
  names := Names.ofTexts #["double"]
  symbols := { entries := #[⟨"x", 1⟩, ⟨"result", 1⟩] }
  functions := ((Functions.empty.register ⟨"main", [], ⟨6⟩⟩).2.register
    ⟨"double", [.scalar ⟨0⟩], ⟨3⟩⟩).2

/-- The same, with `x` there once, and with a list, a name and a function
that nothing uses. -/
def merged : Program where
  arena := {
    nodes := #[.var ⟨0⟩, .binary .add ⟨0⟩ ⟨0⟩, .assign (.scalar ⟨1⟩) ⟨1⟩, .number 2.0,
      .call ⟨1⟩ ⟨1, 1⟩, .assign (.scalar ⟨1⟩) ⟨4⟩]
    lists := #[⟨0⟩, ⟨3⟩] }
  names := Names.ofTexts #["spare", "double"]
  symbols := { entries := #[⟨"x", 1⟩, ⟨"result", 1⟩] }
  functions := (((Functions.empty.register ⟨"spare", [], ⟨0⟩⟩).2.register
    ⟨"main", [], ⟨5⟩⟩).2.register ⟨"double", [.scalar ⟨0⟩], ⟨2⟩⟩).2

/-- The first two nodes are one. -/
def merge (id : ExprId) : ExprId := ⟨(id.index - 1).toUInt32⟩

theorem copied_function {key : String} {f : Function} (h : copied.function? key = some f) :
    key = "double" ∧ f = ⟨"double", [.scalar ⟨0⟩], ⟨3⟩⟩ ∨ key = "main" ∧ f = ⟨"main", [], ⟨6⟩⟩ := by
  rcases Functions.register_cases h with hdouble | h
  · exact .inl hdouble
  · rcases Functions.register_cases h with hmain | h
    · exact .inr hmain
    · cases h

theorem copied_used {id : ExprId} (h : copied.Used id) :
    id ∈ [(⟨0⟩ : ExprId), ⟨1⟩, ⟨2⟩, ⟨3⟩, ⟨4⟩, ⟨5⟩, ⟨6⟩] := by
  refine h.induction (fun key f hfound => ?_) fun {low id} hchild hid => ?_
  · rcases copied_function hfound with ⟨-, rfl⟩ | ⟨-, rfl⟩ <;> decide
  · obtain ⟨node, hnode, hmem⟩ := hchild
    have hclosed : ∀ id ∈ [(⟨0⟩ : ExprId), ⟨1⟩, ⟨2⟩, ⟨3⟩, ⟨4⟩, ⟨5⟩, ⟨6⟩],
        ((copied.expr? id).elim [] copied.children)
          ⊆ [(⟨0⟩ : ExprId), ⟨1⟩, ⟨2⟩, ⟨3⟩, ⟨4⟩, ⟨5⟩, ⟨6⟩] := by
      decide
    have hsub := hclosed id hid
    rw [hnode] at hsub
    exact hsub hmem

theorem copied_mirrors : copied.Mirrors merged merge where
  symbols := rfl
  function := fun {key f} hfound => by
    rcases copied_function hfound with ⟨rfl, rfl⟩ | ⟨rfl, rfl⟩ <;> rfl
  undefined := fun {id callee args name} _ hnode hname hnone => by
    -- there is one name only
    have hcallee := (Array.getElem?_eq_some_iff.mp hname).1
    have hzero : callee.index = 0 := Nat.lt_one_iff.mp hcallee
    unfold Names.text? at hname
    rw [hzero] at hname
    cases hname
    cases hnone
  node := fun {id} hused => by
    have hid := copied_used hused
    simp only [List.mem_cons, List.not_mem_nil, or_false] at hid
    rcases hid with rfl | rfl | rfl | rfl | rfl | rfl | rfl
    case inr.inr.inr.inr.inr.inl => exact ⟨_, _, rfl, rfl, .call rfl rfl rfl rfl⟩
    all_goals exact ⟨_, _, rfl, rfl, .plain nofun⟩

/-- The call doubles two, fails at the image of a node if three are all
that may wait, and `double` has the code it has with two nodes for `x`. -/
theorem Mirrors.same_runs_same_code_merged :
    (⟨merged, "main", none⟩ : Interpreter).execute 20 "main" []
      = some ⟨.ok 4.0, [.scalar ⟨1⟩ "result" 4.0, .scalar ⟨1⟩ "result" 4.0]⟩
    ∧ (⟨merged, "main", some 3⟩ : Interpreter).execute 20 "main" []
      = some ⟨.error ⟨.depthLimit 3, ⟨some "double", some ⟨2⟩⟩⟩, []⟩
    ∧ (({} : Builder).buildNamed merged "double").1 = .ok [
        .assign (.temp 0) (.binary .add (.var (.user "x" (some 0))) (.var (.user "x" (some 0)))),
        .assign (.user "result" (some 1)) (.copy (.var (.temp 0)))] := by
  have hmain : copied.function? "main" = some ⟨"main", [], ⟨6⟩⟩ := rfl
  have hdouble : copied.function? "double" = some ⟨"double", [.scalar ⟨0⟩], ⟨3⟩⟩ := rfl
  have hsum : copied.HeightAtMost ⟨2⟩ 1 :=
    .of_children rfl (List.forall_mem_cons.mpr ⟨⟨0, rfl, .of_children rfl nofun⟩,
      List.forall_mem_singleton.mpr ⟨0, rfl, .of_children rfl nofun⟩⟩)
  have hbody : copied.HeightAtMost ⟨3⟩ 2 :=
    .of_children rfl (List.forall_mem_singleton.mpr ⟨1, rfl, hsum⟩)
  obtain ⟨hruns, -⟩ := copied_mirrors.same_runs_same_code hmain
  obtain ⟨-, hcode⟩ := copied_mirrors.same_runs_same_code hdouble
  refine ⟨(hruns _ _ _ _).trans rfl, (hruns _ _ _ _).trans rfl, ?_⟩
  rw [hcode hbody.acyclic]
  unfold Builder.buildNamed Builder.build
  rw [hdouble]
  dsimp only
  rw [SSA.lowerBody_eq_lower]
  rfl

end ExprGraph.Program
