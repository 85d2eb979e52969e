/-
Where failures are met.

A failure names the function whose call is in progress and the node at
work, and the node is in the body of that function: it is where the trail
leads (`Trail.inBody`). A call by the host whose arguments do not fit is
refused with the function alone, and so is a run that ends without a
result.

# Two sites of another kind

When a callee ends without a result, its caller is at work again, so the
failure names the callee together with the call, a node of the caller. And
a run for which nothing at all may wait fails before there is a call, with
no site. There are no others (`site_of_fault`).
-/
import ExprGraph.Proofs.Machine.Ancestors
import ExprGraph.Proofs.Machine.Faults

namespace ExprGraph

/-- The node is in the body of a function of this name. -/
def Program.InBody (p : Program) (name : String) (id : ExprId) : Prop :=
  ∃ key f, p.function? key = some f ∧ f.name = name ∧ p.Reachable f.body id

/-- Everything the program refers to is there: nodes, names and lists, and
the functions that its calls name. -/
def Program.resolves (p : Program) : Bool :=
  p.functions.toList.all (fun (_, f) => (p.expr? f.body).isSome)
    && p.arena.nodes.toList.all fun node =>
      (p.children node).all (fun child => (p.expr? child).isSome)
        && match node with
          | .call callee args =>
            (p.arena.list? args).isSome && ((p.names.text? callee).bind p.function?).isSome
          | _ => true

namespace Machine

variable {s : Setting} {m : Machine} {id : ExprId} {cause : Cause}

-- ================================================================= returns

/-- Leaving a call fails if its function has assigned no result, or the
stacks are broken. -/
theorem leave_error (h : m.leave s = .error cause) :
    (∃ f F, m.calls = f :: F ∧ cause = .missingResult f.name) ∨ ∃ breach, cause = .broken breach := by
  obtain ⟨task, phase, agenda, values, frames⟩ := m
  cases frames with
  | nil =>
      cases h
      exact .inr ⟨_, rfl⟩
  | cons top frames =>
      unfold leave at h
      dsimp only at h
      split at h
      · cases h
        exact .inl ⟨top.function, _, rfl, rfl⟩
      · cases values with
        | nil =>
            cases h
            exact .inr ⟨_, rfl⟩
        | cons value values => cases h

theorem produce_error {value : Float} (h : m.produce value = .error cause) :
    ∃ breach, cause = .broken breach := by
  unfold produce complete at h
  split at h
  · cases h
  · cases h
    exact ⟨_, rfl⟩

/-- A call whose callee has completed fails in no other way. -/
theorem returns_error {i : Invocation} (htask : m.task = .expr id) (hinvokes : Invokes s id i)
    (hphase : m.phase = i.callee.arity + 1) (h : m.step s = .error cause) :
    (∃ f F, m.calls = f :: F ∧ cause = .missingResult f.name) ∨ ∃ breach, cause = .broken breach := by
  obtain ⟨callee, args, hnode, hresolve⟩ := hinvokes
  unfold Machine.step at h
  simp only [htask, hnode, stepNode, stepCall, hresolve, ok_bind] at h
  rw [if_neg (Nat.not_lt_of_le (Nat.le_of_eq hphase.symm)), if_pos hphase] at h
  rcases bind_eq_error.mp h with hleave | ⟨⟨result, m₁⟩, -, h⟩
  · exact leave_error hleave
  · dsimp only at h
    split at h
    · cases h
    · rcases bind_eq_error.mp h with hproduce | ⟨m₂, -, h⟩
      · exact .inr (produce_error hproduce)
      · cases h

/-- The references of a call that is made do not dangle. -/
theorem Invokes.not_dangling {i : Invocation} {breach : Breach} (h : Invokes s id i)
    (htask : m.task = .expr id) : ¬Dangling s.program m breach := by
  obtain ⟨callee, args, hnode, hresolve⟩ := h
  obtain ⟨hname, hfound, hlist, harity⟩ := resolve_eq_ok hresolve
  intro hdangling
  cases hdangling with
  | expr htask' hsize =>
      cases htask.symm.trans htask'
      rw [Program.expr?, Arena.get?, Array.getElem?_eq_none hsize] at hnode
      cases hnode
  | name htask' hnode' hsize =>
      cases htask.symm.trans htask'
      cases hnode.symm.trans hnode'
      rw [Names.text?, Array.getElem?_eq_none hsize] at hname
      cases hname
  | args htask' hnode' hsize =>
      cases htask.symm.trans htask'
      cases hnode.symm.trans hnode'
      rw [Arena.list?, if_neg (Nat.not_le_of_lt hsize)] at hlist
      cases hlist
  | params htask' hnode' hname' hfound' hsize =>
      cases htask.symm.trans htask'
      cases hnode.symm.trans hnode'
      cases hname.symm.trans hname'
      cases hfound.symm.trans hfound'
      have hmost : maxArity = 2 ^ 32 - 2 := rfl
      omega

-- =================================================================== sites

/-- The node a trail leads to is in the body of the function called last. -/
theorem Trail.inBody {name : String} {f : Function} {F : List Function} {C : List Pending}
    (hfound : s.program.function? name = some f) (h : Trail s f F C id) :
    ∃ g F', F = g :: F' ∧ s.program.InBody g.name id := by
  obtain ⟨g, F', key, rfl, hkey, hreach⟩ := h.top hfound
  exact ⟨g, F', rfl, key, g, hkey, rfl, hreach⟩

/-- A site names the function called last, and the node at work. -/
theorem site_eq {f : Function} {F : List Function} (h : m.calls = f :: F) :
    m.site = ⟨some f.name, match m.task with | .entry => none | .expr id => some id⟩ := by
  obtain ⟨task, phase, agenda, values, frames⟩ := m
  cases frames with
  | nil => cases h
  | cons top frames =>
      cases h
      rfl

/-- A run is refused for a limit only if nothing may wait. -/
theorem start_error {limit : Option Nat} {f : Function} {vars : Frame}
    (h : Machine.start limit f vars = .error cause) : limit = some 0 ∧ cause = .depthLimit 0 := by
  cases limit with
  | none => cases h
  | some limit =>
      cases limit with
      | zero =>
          cases h
          exact ⟨rfl, rfl⟩
      | succ limit => cases h

end Machine

namespace Interpreter

open Machine

variable {i : Interpreter} {name : String} {args : List Argument}

/-- What is said about the place of a failure: there is a function, and the
node is in its body. -/
theorem site_of_fault {f : Function} {fault : Fault} {stores : List Store}
    (hfound : i.program.function? name = some f)
    (h : i.Ends name args ⟨.error fault, stores⟩) :
    (fault.site.function = none →
      i.maxDepth = some 0 ∧ fault.cause = .depthLimit 0 ∧ fault.site.expr = none)
    ∧ ∀ id, fault.site.expr = some id →
      (∃ g, fault.site.function = some g ∧ i.program.InBody g id)
      ∨ ∃ callee caller, fault.cause = .missingResult callee.name
        ∧ fault.site.function = some callee.name
        ∧ i.program.Calls id callee ∧ i.program.InBody caller id := by
  rcases h.last with ⟨fault, hrefuses, hout⟩ | ⟨m, hreaches, hlast⟩
  · cases hout
    cases hrefuses with
    | undefined hnone => rw [hfound] at hnone; cases hnone
    | unbound => exact ⟨nofun, nofun⟩
    | unstarted _ _ hstart =>
        obtain ⟨hlimit, rfl⟩ := start_error hstart
        exact ⟨fun _ => ⟨hlimit, rfl, rfl⟩, nofun⟩
  · rcases hlast with ⟨cause, hstep, hout⟩ | ⟨value, -, hout⟩
    · cases hout
      obtain ⟨g, hg, htrail⟩ := hreaches.onTrail
      cases htrail with
      | node htask _ htrail =>
          obtain ⟨owner, F, hcalls, hbody⟩ := htrail.inBody hg
          rw [site_eq hcalls, htask]
          refine ⟨nofun, fun id hid => .inl ⟨owner.name, rfl, ?_⟩⟩
          cases hid
          exact hbody
      | completed htask hinvokes hphase hcalls htrail =>
          -- what fails is the callee, but its caller is at work
          rcases returns_error htask hinvokes hphase hstep with ⟨callee, F, hcalls', rfl⟩ | ⟨breach, rfl⟩
          · cases hcalls.symm.trans hcalls'
            obtain ⟨caller, F', -, hbody⟩ := htrail.inBody hg
            rw [site_eq hcalls, htask]
            refine ⟨nofun, fun id hid => .inr ⟨_, caller.name, rfl, rfl, ?_, ?_⟩⟩
            · cases hid
              exact hinvokes.calls
            · cases hid
              exact hbody
          · exact absurd (hreaches.dangling hstep) (hinvokes.not_dangling htask)
      | ended htask _ hcalls _ =>
          rw [site_eq hcalls, htask]
          exact ⟨nofun, nofun⟩
    · cases hout

/-- `result = mute()`, where `mute` does nothing. -/
def muted : Interpreter where
  program := {
    arena := { nodes := #[.empty, .call ⟨0⟩ Span.empty, .assign (.scalar ⟨0⟩) ⟨1⟩] }
    names := Names.ofTexts #["mute"]
    symbols := { entries := #[⟨"result", 1⟩] }
    functions := ((Functions.empty.register ⟨"main", [], ⟨2⟩⟩).2.register ⟨"mute", [], ⟨0⟩⟩).2 }

/-- The call is no node of the callee. -/
theorem not_inBody_muted : ¬muted.program.InBody "mute" ⟨1⟩ := by
  rintro ⟨key, f, hfound, hname, path, hpath⟩
  have hbody : f.body = ⟨0⟩ := by
    rcases Functions.register_cases hfound with ⟨-, rfl⟩ | hfound
    · rfl
    · rcases Functions.register_cases hfound with ⟨-, rfl⟩ | hfound
      · exact absurd hname (by decide)
      · cases hfound
  rw [hbody] at hpath
  cases hpath with
  | down hchild _ =>
      obtain ⟨node, hnode, hmem⟩ := hchild
      cases hnode
      cases hmem

/-- The failure of `mute` is placed at the call, and that is a node of a
caller. -/
theorem site_of_fault_muted : ∃ callee caller, callee.name = "mute"
    ∧ muted.program.Calls ⟨1⟩ callee ∧ muted.program.InBody caller ⟨1⟩ := by
  have hends : muted.Ends "main" [] ⟨.error ⟨.missingResult "mute", ⟨some "mute", some ⟨1⟩⟩⟩, []⟩ :=
    ⟨20, rfl⟩
  obtain ⟨-, hplaced⟩ := site_of_fault rfl hends
  rcases hplaced ⟨1⟩ rfl with ⟨g, hg, hbody⟩ | ⟨callee, caller, -, hcallee, hcalls, hbody⟩
  · cases hg
    exact absurd hbody not_inBody_muted
  · exact ⟨callee, caller, (Option.some.inj hcallee).symm, hcalls, hbody⟩

/-- A site can name a node that is not in the body of the function it
names, and a failure can come without a function. -/
theorem sites_apart_muted : muted.program.resolves = true
    ∧ muted.Ends "main" [] ⟨.error ⟨.missingResult "mute", ⟨some "mute", some ⟨1⟩⟩⟩, []⟩
    ∧ ¬muted.program.InBody "mute" ⟨1⟩
    ∧ (muted.bounded (some 0)).Ends "main" [] ⟨.error ⟨.depthLimit 0, ⟨none, none⟩⟩, []⟩ :=
  ⟨by decide, ⟨20, rfl⟩, not_inBody_muted, ⟨20, rfl⟩⟩

end Interpreter

end ExprGraph
