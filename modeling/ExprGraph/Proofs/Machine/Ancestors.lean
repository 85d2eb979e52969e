/-
What waits is the path to the node at work.

Read from the bottom there is the run itself, and then for each call in
progress, the earliest first, the path from the body of its function down
to the node it is at (`Waiting`, `pending_is_path`). That node is the one
at work in the latest call, and in every other the call in progress above
it. So how much waits depends on where the calls are in their bodies, and
on nothing that went before: a call waits on as many nodes as its body is
high, and one that has no cycle and calls nothing needs no more than that,
however often its loops go round.
-/
import ExprGraph.Proofs.Machine.Depth
import ExprGraph.Proofs.Machine.Trail

namespace ExprGraph

namespace Program

variable (p : Program)

/-- The node is a call of this function, by the name it is registered
with. -/
def Calls (call : ExprId) (f : Function) : Prop :=
  ∃ callee args name, p.expr? call = some (.call callee args)
    ∧ p.names.text? callee = some name ∧ p.function? name = some f

/-- No node from `root` down is a call. -/
def CallFree (root : ExprId) : Prop :=
  ∀ id, p.Reachable root id → ∀ callee args, p.expr? id ≠ some (.call callee args)

variable {p : Program} {root : ExprId}

/-- A node that is no call calls nothing if its children do not. -/
theorem CallFree.of_children {node : Expr} (hnode : p.expr? root = some node)
    (hcall : ∀ callee args, node ≠ .call callee args)
    (h : ∀ child ∈ p.children node, p.CallFree child) : p.CallFree root := by
  rintro id ⟨path, hpath⟩ callee args hid
  cases hpath with
  | refl =>
      rw [hnode] at hid
      exact hcall callee args (Option.some.inj hid)
  | down hchild hpath =>
      obtain ⟨node', hnode', hmem⟩ := hchild
      rw [hnode] at hnode'
      cases hnode'
      exact h _ hmem id ⟨_, hpath⟩ callee args hid

end Program

namespace Machine

open Program

/-- What waits below a node, from the bottom: the run, then for each of
these functions in progress, given the latest first, the path from its
body down to the call it waits for, that call included; for the latest,
the path down to the node. -/
inductive Waiting (p : Program) : List Function → List Task → ExprId → Prop where
  | first {f : Function} {path : List ExprId} {id : ExprId} :
      p.Path f.body path id → Waiting p [f] (.entry :: path.map .expr) id
  | further {f : Function} {F : List Function} {tasks : List Task} {call id : ExprId}
      {path : List ExprId} : Waiting p F tasks call → p.Calls call f → p.Path f.body path id →
      Waiting p (f :: F) (tasks ++ .expr call :: path.map .expr) id

section Trails

variable {s : Setting} {p : Program} {f : Function} {F : List Function} {C : List Pending}
  {tasks : List Task} {id low : ExprId} {height : Nat}

theorem Invokes.calls {i : Invocation} (h : Invokes s id i) : s.program.Calls id i.callee := by
  obtain ⟨callee, args, hnode, hresolve⟩ := h
  obtain ⟨hname, hfound, -⟩ := resolve_eq_ok hresolve
  exact ⟨callee, args, i.name, hnode, hname, hfound⟩

/-- A node that goes down to a child waits. -/
theorem Waiting.child (h : Waiting p F tasks id) (hchild : p.IsChild low id) :
    Waiting p F (tasks ++ [.expr id]) low := by
  cases h with
  | @first f path _ hpath =>
      have hlonger := Waiting.first (hpath.snoc hchild)
      rw [List.map_append] at hlonger
      exact hlonger
  | further hbelow hcalls hpath =>
      have hlonger := Waiting.further hbelow hcalls (hpath.snoc hchild)
      rw [List.map_append, ← List.cons_append, ← List.append_assoc] at hlonger
      exact hlonger

/-- A trail, read from the bottom. -/
theorem Trail.waiting (h : Trail s f F C id) :
    Waiting s.program F (C.reverse.map Pending.task) id := by
  induction h with
  | body => exact .first (.refl f.body)
  | child _ hchild _ ih =>
      rw [List.reverse_cons, List.map_append]
      exact ih.child hchild
  | @callee F C call i _ hinvokes ih =>
      rw [List.reverse_cons, List.map_append]
      exact .further ih hinvokes.calls (.refl i.callee.body)

/-- Each function in progress has no more waiting than its body is high,
and the task that entered it. -/
theorem Waiting.length_le (h : Waiting p F tasks id)
    (hheight : ∀ f ∈ F, p.HeightAtMost f.body height) :
    tasks.length ≤ F.length * (height + 1) := by
  induction h with
  | @first f path id hpath =>
      have hpath := hheight f List.mem_cons_self _ _ hpath
      simp only [List.length_cons, List.length_nil, List.length_map]
      omega
  | @further f F tasks call id path _ _ hpath ih =>
      obtain ⟨hf, hF⟩ := List.forall_mem_cons.mp hheight
      have hpath := hf _ _ hpath
      have hbelow := ih hF
      simp only [List.length_append, List.length_cons, List.length_map, Nat.succ_mul]
      omega

theorem Trail.length_le (h : Trail s f F C id)
    (hheight : ∀ g ∈ F, s.program.HeightAtMost g.body height) :
    C.length ≤ F.length * (height + 1) := by
  have hle := h.waiting.length_le hheight
  rwa [List.length_map, List.length_reverse] at hle

/-- In every state of a run, what waits is bounded by the calls in
progress and the height of their bodies. -/
theorem OnTrail.length_le {m : Machine} (h : OnTrail s f m)
    (hheight : ∀ g ∈ m.calls, s.program.HeightAtMost g.body height) :
    m.agenda.entries.length ≤ m.calls.length * (height + 1) := by
  cases h with
  | node _ _ htrail => exact htrail.length_le hheight
  | completed _ _ _ hcalls htrail =>
      rw [hcalls] at hheight ⊢
      have hle := htrail.length_le (List.forall_mem_cons.mp hheight).2
      rw [List.length_cons, Nat.succ_mul]
      omega
  | ended _ _ _ hentries =>
      rw [hentries]
      exact Nat.zero_le _

/-- A function that calls nothing is the only one in progress. -/
theorem Trail.calls_eq (h : Trail s f F C id) (hfree : s.program.CallFree f.body) : F = [f] := by
  induction h with
  | body => rfl
  | child _ _ _ ih => exact ih
  | @callee F C call i htrail hinvokes ih =>
      subst ih
      obtain ⟨g, F', hF, hreach⟩ := htrail.reachable
      cases hF
      obtain ⟨callee, args, hnode, -⟩ := hinvokes
      exact absurd hnode (hfree call hreach callee args)

theorem OnTrail.calls_eq {m : Machine} (h : OnTrail s f m) (hfree : s.program.CallFree f.body) :
    m.calls = [f] := by
  cases h with
  | node _ _ htrail => exact htrail.calls_eq hfree
  | completed _ hinvokes _ _ htrail =>
      obtain rfl := htrail.calls_eq hfree
      obtain ⟨g, F', hF, hreach⟩ := htrail.reachable
      cases hF
      obtain ⟨callee, args, hnode, -⟩ := hinvokes
      exact absurd hnode (hfree _ hreach callee args)
  | ended _ _ hcalls _ => exact hcalls

end Trails

end Machine

namespace Interpreter

open Machine

variable {i : Interpreter} {name : String} {args : List Argument}

/-- A function that calls nothing never has more waiting than its body is
high, and the run itself. -/
theorem staysWithin_of_height {f : Function} {height limit : Nat}
    (hfound : i.program.function? name = some f) (hfree : i.program.CallFree f.body)
    (hheight : i.program.HeightAtMost f.body height) (hlimit : height + 1 ≤ limit) :
    i.StaysWithin limit name args := by
  intro t m hreaches
  obtain ⟨g, hg, htrail⟩ := hreaches.onTrail
  have hsame : some f = some g := hfound.symm.trans hg
  cases hsame
  have hcalls := htrail.calls_eq hfree
  have hheights : ∀ g ∈ m.calls, i.program.HeightAtMost g.body height := by
    rw [hcalls]
    exact List.forall_mem_singleton.mpr hheight
  have hle := htrail.length_le hheights
  rw [hcalls, List.length_singleton, Nat.one_mul] at hle
  exact Nat.le_trans hle hlimit

/-- Whenever a node is entered, what waits is the path to it, through all
calls in progress. It never is more than the calls in progress allow, each
as much as its body is high and one; and a run of a function whose body is
of a height and calls nothing never fails for a limit that is larger. -/
theorem pending_is_path (i : Interpreter) (name : String) (args : List Argument) :
    (∀ t m id, i.Reaches name args t m → m.task = .expr id → m.phase = 0 →
      Waiting i.program (m.frames.map Activation.function)
        (m.agenda.entries.reverse.map Pending.task) id)
    ∧ (∀ t m height, i.Reaches name args t m →
      (∀ call ∈ m.frames, i.program.HeightAtMost call.function.body height) →
      m.agenda.entries.length ≤ m.frames.length * (height + 1))
    ∧ ∀ f height limit, i.program.function? name = some f → i.program.CallFree f.body →
      i.program.HeightAtMost f.body height → height + 1 ≤ limit →
      ∀ n site stores,
        ¬(i.bounded (some limit)).Ends name args ⟨.error ⟨.depthLimit n, site⟩, stores⟩ := by
  refine ⟨fun t m id hreaches htask hphase => ?_, fun t m height hreaches hheight => ?_, ?_⟩
  · obtain ⟨f, -, htrail⟩ := hreaches.onTrail
    cases htrail with
    | node htask' _ htrail =>
        rw [htask] at htask'
        cases htask'
        exact htrail.waiting
    | completed _ _ hphase' =>
        rw [hphase] at hphase'
        cases hphase'
    | ended htask' =>
        rw [htask] at htask'
        cases htask'
  · obtain ⟨f, -, htrail⟩ := hreaches.onTrail
    have hle := htrail.length_le (List.forall_mem_map.mpr hheight)
    rwa [calls, List.length_map] at hle
  · intro f height limit hfound hfree hheight hlimit n site stores hends
    have hwithin : i.StaysWithin limit name args :=
      staysWithin_of_height hfound hfree hheight hlimit
    exact not_ends_of_depthLimit ((hwithin.sameRun.1 _).mp hends)

/-- `result = count(3)`, where `count(n)` is `result = while (n) n--`. -/
def counting : Interpreter where
  program := {
    arena := {
      nodes := #[.var ⟨0⟩, .step .postDec (.scalar ⟨0⟩), .loop ⟨0⟩ ⟨1⟩, .assign (.scalar ⟨1⟩) ⟨2⟩,
        .number 3.0, .call ⟨0⟩ ⟨0, 1⟩, .assign (.scalar ⟨1⟩) ⟨5⟩]
      lists := #[⟨4⟩] }
    names := Names.ofTexts #["count"]
    symbols := { entries := #[⟨"n", 1⟩, ⟨"result", 1⟩] }
    functions := ((Functions.empty.register ⟨"main", [], ⟨6⟩⟩).2.register
      ⟨"count", [.scalar ⟨0⟩], ⟨3⟩⟩).2 }

/-- In the second round of the loop the same waits as in the first: the
run, the path to the call, and the path to the body of the loop. And
`count`, of height two, never fails for a limit of three. -/
theorem pending_is_path_counting :
    (∃ m, counting.Reaches "main" [] [.scalar ⟨0⟩ "n" 2.0] m
      ∧ m.task = .expr ⟨1⟩
      ∧ Waiting counting.program [⟨"count", [.scalar ⟨0⟩], ⟨3⟩⟩, ⟨"main", [], ⟨6⟩⟩]
        [.entry, .expr ⟨6⟩, .expr ⟨5⟩, .expr ⟨3⟩, .expr ⟨2⟩] ⟨1⟩)
    ∧ ∀ n site stores, ¬(counting.bounded (some 3)).Ends "count" [.scalar 1000000.0]
        ⟨.error ⟨.depthLimit n, site⟩, stores⟩ := by
  obtain ⟨hpath, -, -⟩ := pending_is_path counting "main" []
  obtain ⟨-, -, hlimit⟩ := pending_is_path counting "count" [.scalar 1000000.0]
  constructor
  · have hstarts : counting.Starts "main" [] ⟨"main", [], ⟨6⟩⟩ {} _ := ⟨rfl, rfl, rfl⟩
    have hbody := ((((hstarts.reaches.step rfl).step rfl).step rfl).step rfl).step rfl
    have hround := (((hbody.step rfl).step rfl).step rfl).step rfl
    have hagain := ((hround.step rfl).step rfl).step rfl
    exact ⟨_, hagain, rfl, hpath _ _ _ hagain rfl rfl⟩
  · have hcond : counting.program.HeightAtMost ⟨0⟩ 0 := .of_children rfl nofun
    have hstep : counting.program.HeightAtMost ⟨1⟩ 0 := .of_children rfl nofun
    have hloop : counting.program.HeightAtMost ⟨2⟩ 1 :=
      .of_children rfl (List.forall_mem_cons.mpr
        ⟨⟨0, rfl, hcond⟩, List.forall_mem_singleton.mpr ⟨0, rfl, hstep⟩⟩)
    have hheight : counting.program.HeightAtMost ⟨3⟩ 2 :=
      .of_children rfl (List.forall_mem_singleton.mpr ⟨1, rfl, hloop⟩)
    have hcalm : counting.program.CallFree ⟨2⟩ :=
      .of_children rfl nofun (List.forall_mem_cons.mpr
        ⟨.of_children rfl nofun nofun, List.forall_mem_singleton.mpr (.of_children rfl nofun nofun)⟩)
    have hfree : counting.program.CallFree ⟨3⟩ :=
      .of_children rfl nofun (List.forall_mem_singleton.mpr hcalm)
    exact hlimit ⟨"count", [.scalar ⟨0⟩], ⟨3⟩⟩ 2 3 rfl hfree hheight (Nat.le_refl 3)

end Interpreter

end ExprGraph
