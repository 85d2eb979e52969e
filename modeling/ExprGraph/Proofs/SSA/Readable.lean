/-
The text of code determines it.

Lines end at line feeds, and the blanks in front of a line only say how
deep it stands. What follows up to the next blank is the variable that the
line defines, or a word that is no variable, and a `(` is only found in a
phi. So a line determines what it says (`Line.head_of_body`).

# Arms

The lines of a branch enclose those of its arms, and nothing else starts or
ends as they do. So the lines of an instruction determine it whatever
follows (`Inst.fold_eq_of_heads`), and those of an arm up to the line that
ends it.
-/
import ExprGraph.Proofs.SSA.TemporaryNumbers
import ExprGraph.Proofs.SSA.WordTexts

namespace ExprGraph.SSA

-- =================================================================== lines

namespace Line

/-- How deep a line stands. -/
def depth : Line → Nat
  | .inst depth _ | .otherwise depth | .close depth => depth

/-- A line without the blanks in front of it. -/
def body : Line → String
  | .inst _ (.assign dest value) => dest.text ++ (" = " ++ value.text)
  | .inst _ (.branch cond _ _) => "if " ++ (cond.text ++ " \x7b")
  | .inst _ (.phi dest sources) =>
    dest.text ++ (" = " ++ ("phi(" ++ (sourcesText sources ++ ")")))
  | .otherwise _ => "\x7d else \x7b"
  | .close _ => "\x7d"

/-- A line is its indentation, its body and the end of the line. -/
theorem text_eq (l : Line) : l.text = indent "" l.depth ++ (l.body ++ "\n") := by
  cases l with
  | inst depth i =>
      cases i with
      | assign dest value => simp only [text, Line.depth, body, String.append_assoc]
      | branch cond thenArm elseArm =>
          simp only [text, Line.depth, body, String.append_assoc]
          rfl
      | phi dest sources =>
          have hword : " = phi(" = " = " ++ "phi(" := rfl
          have hend : ")\n" = ")" ++ "\n" := rfl
          simp only [text, Line.depth, body, hword, hend, String.append_assoc]
  | otherwise depth => rfl
  | close depth => rfl

/-- What a line says. -/
inductive Head where
  | assign (dest : Var) (rhs : Rhs)
  | branch (cond : Operand)
  | phi (dest : Var) (sources : List Var)
  | otherwise
  | close

/-- What a line says, with a minus in front of a number carried out. -/
def head : Line → Head
  | .inst _ (.assign dest rhs) => .assign dest rhs.fold
  | .inst _ (.branch cond _ _) => .branch cond
  | .inst _ (.phi dest sources) => .phi dest sources
  | .otherwise _ => .otherwise
  | .close _ => .close

/-- The variables of a line can be read. -/
def Readable : Line → Prop
  | .inst _ i => i.Over Var.Readable
  | _ => True

variable {x y : Var} {s t : String}

/-- The variable that a line defines stands in front of the first blank. -/
theorem definition_injective (hx : x.Readable) (hy : y.Readable)
    (h : x.text ++ (" = " ++ s) = y.text ++ (" = " ++ t)) : x = y ∧ s = t := by
  have hblank : ∀ {x : Var}, x.Readable → ' ' ∉ x.text.toList := by
    intro x hx hmem
    cases hx.isVarChar_of_mem hmem
  have hlist := congrArg String.toList h
  simp only [String.toList_append] at hlist
  obtain ⟨hdest, hrest⟩ := split_unique (hblank hx) (hblank hy) hlist
  have hsame : s.toList = t.toList := (List.cons.inj (List.cons.inj hrest).2).2
  exact ⟨hx.text_injective hy (String.toList_inj.mp hdest), String.toList_inj.mp hsame⟩

/-- No variable is called `if`. -/
theorem definition_ne_branch (hx : x.Readable) : x.text ++ (" = " ++ s) ≠ "if " ++ t := by
  intro h
  have hblank : ' ' ∉ x.text.toList := fun hmem => by cases hx.isVarChar_of_mem hmem
  have hlist := congrArg String.toList h
  simp only [String.toList_append] at hlist
  have hword : x.text.toList = ['i', 'f'] :=
    (split_unique (y := ['i', 'f']) hblank (by decide) hlist).1
  obtain ⟨c, hc, hmark⟩ := hx.marked
  rw [hword] at hc
  rcases hmark with rfl | rfl
  · exact absurd hc (by decide)
  · exact absurd hc (by decide)

/-- No variable starts with a brace. -/
theorem definition_ne_brace (hx : x.Readable) (ht : t.toList.head? = some '\x7d') :
    x.text ++ s ≠ t := by
  rintro rfl
  rw [String.toList_append] at ht
  cases htext : x.text.toList with
  | nil =>
      obtain ⟨c, hc, -⟩ := hx.marked
      rw [htext] at hc
      cases hc
  | cons c rest =>
      rw [htext, List.cons_append, List.head?_cons, Option.some.injEq] at ht
      have hmem : c ∈ x.text.toList := htext ▸ List.mem_cons_self
      rw [ht] at hmem
      cases hx.isVarChar_of_mem hmem

/-- The head of a branch does not start with a brace. -/
theorem branch_ne_brace (ht : t.toList.head? = some '\x7d') : "if " ++ s ≠ t := by
  rintro rfl
  rw [String.toList_append] at ht
  cases ht

/-- An assignment is no phi, for nothing that is assigned starts with
`phi(`. -/
theorem assign_ne_phi {rhs : Rhs} (hx : x.Readable) (hy : y.Readable)
    (hrhs : rhs.Over Var.Readable) :
    x.text ++ (" = " ++ rhs.text) ≠ y.text ++ (" = " ++ ("phi(" ++ s)) := by
  intro h
  have htext := (definition_injective hx hy h).2
  have hmem : '(' ∈ rhs.text.toList := by
    rw [htext, String.toList_append]
    exact List.mem_append_left _ (by decide)
  exact Rhs.notMem_text hrhs (.inl rfl) hmem

/-- The destination and the sources of a phi can be read off its line. -/
theorem phi_injective {sources sources' : List Var} (hx : x.Readable) (hy : y.Readable)
    (h : ∀ z ∈ sources, z.Readable) (h' : ∀ z ∈ sources', z.Readable)
    (htext : x.text ++ (" = " ++ ("phi(" ++ (sourcesText sources ++ ")")))
      = y.text ++ (" = " ++ ("phi(" ++ (sourcesText sources' ++ ")")))) :
    x = y ∧ sources = sources' := by
  obtain ⟨hdest, hrest⟩ := definition_injective hx hy htext
  rw [String.append_right_inj, String.append_left_inj] at hrest
  exact ⟨hdest, sourcesText_injective h h' hrest⟩

/-- The condition of a branch can be read off its line. -/
theorem branch_injective {cond cond' : Operand} (h : cond.Over Var.Readable)
    (h' : cond'.Over Var.Readable)
    (htext : "if " ++ (cond.text ++ " \x7b") = "if " ++ (cond'.text ++ " \x7b")) :
    cond = cond' := by
  rw [String.append_right_inj, String.append_left_inj] at htext
  exact Operand.text_injective h h' htext

/-- The line between two arms starts with a brace. -/
theorem brace_otherwise (depth : Nat) :
    (Line.otherwise depth).body.toList.head? = some '\x7d' := by
  show "\x7d else \x7b".toList.head? = some '\x7d'
  decide

/-- So does the line behind them. -/
theorem brace_close (depth : Nat) : (Line.close depth).body.toList.head? = some '\x7d' := by
  show "\x7d".toList.head? = some '\x7d'
  decide

/-- These two can be told apart. -/
theorem otherwise_ne_close (depth depth' : Nat) :
    (Line.otherwise depth).body ≠ (Line.close depth').body := by
  show "\x7d else \x7b" ≠ "\x7d"
  decide

/-- No instruction starts with a brace. -/
theorem inst_ne_brace {depth : Nat} {i : Inst} (hi : i.Over Var.Readable)
    (ht : t.toList.head? = some '\x7d') : (Line.inst depth i).body ≠ t := by
  cases i with
  | assign dest rhs => exact definition_ne_brace hi.1 ht
  | branch cond thenArm elseArm => exact branch_ne_brace ht
  | phi dest sources => exact definition_ne_brace hi.1 ht

/-- The first line of an instruction determines what it says. -/
theorem head_of_inst {depth depth' : Nat} {i j : Inst} (hi : i.Over Var.Readable)
    (hj : j.Over Var.Readable) (h : (Line.inst depth i).body = (Line.inst depth' j).body) :
    (Line.inst depth i).head = (Line.inst depth' j).head := by
  cases i with
  | assign x rhs =>
      cases j with
      | assign y rhs' =>
          obtain ⟨hdest, htext⟩ := definition_injective hi.1 hj.1 h
          exact congrArg₂ Head.assign hdest (Rhs.fold_of_text hi.2 hj.2 htext)
      | branch cond' _ _ => exact absurd h (definition_ne_branch hi.1)
      | phi y sources' => exact absurd h (assign_ne_phi hi.1 hj.1 hi.2)
  | branch cond _ _ =>
      cases j with
      | branch cond' _ _ => exact congrArg Head.branch (branch_injective hi.1 hj.1 h)
      | assign y _ | phi y _ => exact absurd h.symm (definition_ne_branch hj.1)
  | phi x sources =>
      cases j with
      | assign y rhs' => exact absurd h.symm (assign_ne_phi hj.1 hi.1 hj.2)
      | branch cond' _ _ => exact absurd h (definition_ne_branch hi.1)
      | phi y sources' =>
          obtain ⟨hdest, hsources⟩ := phi_injective hi.1 hj.1 hi.2 hj.2 h
          exact congrArg₂ Head.phi hdest hsources

/-- A line determines what it says. -/
theorem head_of_body {l l' : Line} (hl : l.Readable) (hl' : l'.Readable)
    (h : l.body = l'.body) : l.head = l'.head := by
  cases l with
  | inst depth i =>
      cases l' with
      | inst depth' j => exact head_of_inst hl hl' h
      | otherwise depth' => exact absurd h (inst_ne_brace hl (brace_otherwise depth'))
      | close depth' => exact absurd h (inst_ne_brace hl (brace_close depth'))
  | otherwise depth =>
      cases l' with
      | inst depth' j => exact absurd h.symm (inst_ne_brace hl' (brace_otherwise depth))
      | otherwise depth' => rfl
      | close depth' => exact absurd h (otherwise_ne_close depth depth')
  | close depth =>
      cases l' with
      | inst depth' j => exact absurd h.symm (inst_ne_brace hl' (brace_close depth))
      | otherwise depth' => exact absurd h.symm (otherwise_ne_close depth' depth)
      | close depth' => rfl

/-- A line is one line. -/
theorem newline_notMem_body {l : Line} (hl : l.Readable) : '\n' ∉ l.body.toList := by
  have hdest : ∀ {x : Var}, x.Readable → '\n' ∉ x.text.toList := by
    intro x hx hmem
    cases hx.isVarChar_of_mem hmem
  cases l with
  | inst depth i =>
      cases i with
      | assign dest rhs =>
          simp only [body, String.toList_append, List.mem_append, not_or]
          exact ⟨hdest hl.1, by decide, Rhs.notMem_text hl.2 (.inr rfl)⟩
      | branch cond _ _ =>
          simp only [body, String.toList_append, List.mem_append, not_or]
          exact ⟨by decide, Operand.notMem_text hl.1 rfl, by decide⟩
      | phi dest sources =>
          simp only [body, String.toList_append, List.mem_append, not_or]
          exact ⟨hdest hl.1, by decide, by decide, newline_notMem_sourcesText hl.2, by decide⟩
  | otherwise depth =>
      show '\n' ∉ "\x7d else \x7b".toList
      decide
  | close depth =>
      show '\n' ∉ "\x7d".toList
      decide

/-- A line starts behind the blanks in front of it. -/
theorem dropWhile_body {l : Line} (hl : l.Readable) :
    l.body.toList.dropWhile (· == ' ') = l.body.toList := by
  have hdest : ∀ {x : Var}, x.Readable → ∀ s : String,
      (x.text ++ s).toList.dropWhile (· == ' ') = (x.text ++ s).toList := by
    intro x hx s
    rw [String.toList_append]
    cases htext : x.text.toList with
    | nil =>
        obtain ⟨c, hc, -⟩ := hx.marked
        rw [htext] at hc
        cases hc
    | cons c rest =>
        have hblank : c ≠ ' ' := by
          rintro rfl
          cases hx.isVarChar_of_mem (htext ▸ List.mem_cons_self)
        exact List.dropWhile_cons_of_neg fun h => hblank (beq_iff_eq.mp h)
  cases l with
  | inst depth i =>
      cases i with
      | assign dest rhs => exact hdest hl.1 _
      | phi dest sources => exact hdest hl.1 _
      | branch cond _ _ =>
          simp only [body, String.toList_append]
          rfl
  | otherwise depth =>
      show "\x7d else \x7b".toList.dropWhile _ = "\x7d else \x7b".toList
      decide
  | close depth =>
      show "\x7d".toList.dropWhile _ = "\x7d".toList
      decide

/-- A line ends at the first newline, for its body has none. -/
theorem toList_text_append (l : Line) (rest : List Char) :
    l.text.toList ++ rest
      = (List.replicate (4 * l.depth) ' ' ++ l.body.toList) ++ '\n' :: rest := by
  simp [text_eq, toList_indent]

/-- The text in front of a line feed determines the line that it ends. -/
theorem head_of_text {l l' : Line} (hl : l.Readable) (hl' : l'.Readable) {rest rest' : List Char}
    (h : l.text.toList ++ rest = l'.text.toList ++ rest') : l.head = l'.head ∧ rest = rest' := by
  have hend : ∀ {l : Line}, l.Readable →
      '\n' ∉ List.replicate (4 * l.depth) ' ' ++ l.body.toList := by
    intro l hl
    rw [List.mem_append, not_or]
    refine ⟨fun hmem => ?_, newline_notMem_body hl⟩
    cases List.eq_of_mem_replicate hmem
  have hstart : ∀ {l : Line}, l.Readable →
      (List.replicate (4 * l.depth) ' ' ++ l.body.toList).dropWhile (· == ' ')
        = l.body.toList := by
    intro l hl
    rw [List.dropWhile_append_of_pos fun c hc => beq_iff_eq.mpr (List.eq_of_mem_replicate hc),
      dropWhile_body hl]
  rw [toList_text_append, toList_text_append] at h
  obtain ⟨hline, hrest⟩ := split_unique (hend hl) (hend hl') h
  have hbody := congrArg (List.dropWhile (· == ' ')) hline
  rw [hstart hl, hstart hl'] at hbody
  exact ⟨head_of_body hl hl' (String.toList_inj.mp hbody), hrest⟩

end Line

/-- The text of some lines is their texts, one behind the other. -/
theorem toList_textOnto (acc : String) (lines : List Line) :
    (textOnto acc lines).toList = acc.toList ++ lines.flatMap fun l => l.text.toList := by
  induction lines generalizing acc with
  | nil => exact (List.append_nil _).symm
  | cons l lines ih =>
      rw [textOnto_cons, ih, String.toList_append, List.flatMap_cons, List.append_assoc]

theorem flatMap_text_ne_nil (l : Line) (lines : List Line) :
    ((l :: lines).flatMap fun l => l.text.toList) ≠ [] := by
  rw [List.flatMap_cons, Line.toList_text_append]
  exact List.append_ne_nil_of_right_ne_nil _ (List.cons_ne_nil _ _)

/-- The text of lines determines what they say, one by one. -/
theorem heads_of_text {lines lines' : List Line} (h : ∀ l ∈ lines, l.Readable)
    (h' : ∀ l ∈ lines', l.Readable)
    (htext : lines.flatMap (fun l => l.text.toList) = lines'.flatMap fun l => l.text.toList) :
    lines.map Line.head = lines'.map Line.head := by
  induction lines generalizing lines' with
  | nil =>
      cases lines' with
      | nil => rfl
      | cons l' lines' => exact absurd htext.symm (flatMap_text_ne_nil l' lines')
  | cons l lines ih =>
      cases lines' with
      | nil => exact absurd htext (flatMap_text_ne_nil l lines)
      | cons l' lines' =>
          obtain ⟨hl, hlines⟩ := List.forall_mem_cons.mp h
          obtain ⟨hl', hlines'⟩ := List.forall_mem_cons.mp h'
          rw [List.flatMap_cons, List.flatMap_cons] at htext
          obtain ⟨hhead, hrest⟩ := Line.head_of_text hl hl' htext
          exact congrArg₂ List.cons hhead (ih hlines hlines' hrest)

-- ==================================================================== code

mutual

/-- The instruction with each minus in front of a number carried out. -/
def Inst.fold : Inst → Inst
  | .assign dest rhs => .assign dest rhs.fold
  | .branch cond thenArm elseArm => .branch cond (foldAll thenArm) (foldAll elseArm)
  | .phi dest sources => .phi dest sources

/-- Code with the negations of numbers carried out. -/
def foldAll : List Inst → List Inst
  | [] => []
  | i :: rest => i.fold :: foldAll rest

end

mutual

/-- The lines of a readable instruction are readable. -/
theorem Inst.readable_lines (depth : Nat) :
    ∀ {i : Inst}, i.Over Var.Readable → ∀ l ∈ i.lines depth, l.Readable
  | .assign .., h => List.forall_mem_singleton.mpr h
  | .phi .., h => List.forall_mem_singleton.mpr h
  | .branch cond thenArm elseArm, h => by
    have hthen := readable_linesAll (depth + 1) h.2.1
    have helse := readable_linesAll (depth + 1) h.2.2
    have hclose : ∀ l ∈ [Line.close depth], l.Readable := List.forall_mem_singleton.mpr trivial
    refine List.forall_mem_cons.mpr ⟨h, List.forall_mem_append.mpr ⟨hthen, ?_⟩⟩
    exact List.forall_mem_cons.mpr ⟨trivial, List.forall_mem_append.mpr ⟨helse, hclose⟩⟩

/-- So are those of readable code. -/
theorem readable_linesAll (depth : Nat) :
    ∀ {code : List Inst}, OverAll Var.Readable code → ∀ l ∈ linesAll depth code, l.Readable
  | [], _ => by nofun
  | i :: rest, h => by
    rw [linesAll]
    exact List.forall_mem_append.mpr ⟨i.readable_lines depth h.1, readable_linesAll depth h.2⟩

end

/-- What follows the lines of an arm, or of all code: a line that ends the
arm, or nothing. -/
def Ends : List Line.Head → Prop
  | [] | .otherwise :: _ | .close :: _ => True
  | _ => False

/-- An instruction does not start with the end of a block. -/
theorem not_ends_lines (depth : Nat) (i : Inst) (code : List Inst) (rest : List Line.Head) :
    ¬ Ends ((linesAll depth (i :: code)).map Line.head ++ rest) := by
  cases i <;> exact id

/-- A branch is its head, the first arm, the line between, the second arm
and the line behind. -/
theorem heads_branch (depth : Nat) (cond : Operand) (thenArm elseArm : List Inst)
    (rest : List Line.Head) :
    ((Inst.branch cond thenArm elseArm).lines depth).map Line.head ++ rest
      = .branch cond :: ((linesAll (depth + 1) thenArm).map Line.head
        ++ .otherwise :: ((linesAll (depth + 1) elseArm).map Line.head ++ .close :: rest)) := by
  simp [Inst.lines, Line.head]

mutual

/-- What its lines say determines an instruction, whatever follows. -/
theorem Inst.fold_eq_of_heads (depth : Nat) : ∀ (i j : Inst) {rest rest' : List Line.Head},
    (i.lines depth).map Line.head ++ rest = (j.lines depth).map Line.head ++ rest' →
      i.fold = j.fold ∧ rest = rest'
  | .assign dest rhs, .assign dest' rhs', _, _, h => by
    obtain ⟨hhead, hrest⟩ := List.cons.inj h
    obtain ⟨hdest, hrhs⟩ := Line.Head.assign.inj hhead
    exact ⟨congrArg₂ Inst.assign hdest hrhs, hrest⟩
  | .phi dest sources, .phi dest' sources', _, _, h => by
    obtain ⟨hhead, hrest⟩ := List.cons.inj h
    obtain ⟨hdest, hsources⟩ := Line.Head.phi.inj hhead
    exact ⟨congrArg₂ Inst.phi hdest hsources, hrest⟩
  | .branch cond thenArm elseArm, .branch cond' thenArm' elseArm', _, _, h => by
    rw [heads_branch, heads_branch] at h
    obtain ⟨hcond, harms⟩ := List.cons.inj h
    obtain ⟨hthen, hotherwise⟩ :=
      foldAll_eq_of_heads (depth + 1) thenArm thenArm' harms trivial trivial
    obtain ⟨helse, hclose⟩ := foldAll_eq_of_heads (depth + 1) elseArm elseArm'
      (List.cons.inj hotherwise).2 trivial trivial
    rw [Inst.fold, Inst.fold, Line.Head.branch.inj hcond, hthen, helse]
    exact ⟨rfl, (List.cons.inj hclose).2⟩
  | .assign .., .branch .., _, _, h | .assign .., .phi .., _, _, h
  | .phi .., .assign .., _, _, h | .phi .., .branch .., _, _, h
  | .branch .., .assign .., _, _, h | .branch .., .phi .., _, _, h => by
    cases (List.cons.inj h).1

/-- Code can be read off the heads of its lines, block by block, up to the
line that ends the block. -/
theorem foldAll_eq_of_heads (depth : Nat) : ∀ (a b : List Inst) {rest rest' : List Line.Head},
    (linesAll depth a).map Line.head ++ rest = (linesAll depth b).map Line.head ++ rest' →
      Ends rest → Ends rest' → foldAll a = foldAll b ∧ rest = rest'
  | [], [], _, _, h, _, _ => ⟨rfl, h⟩
  | [], j :: b, rest, rest', h, hends, _ => by
    have hrest : rest = (linesAll depth (j :: b)).map Line.head ++ rest' := h
    exact absurd (hrest ▸ hends) (not_ends_lines depth j b rest')
  | i :: a, [], rest, rest', h, _, hends => by
    have hrest : (linesAll depth (i :: a)).map Line.head ++ rest = rest' := h
    exact absurd (hrest ▸ hends) (not_ends_lines depth i a rest)
  | i :: a, j :: b, rest, rest', h, hends, hends' => by
    rw [linesAll, linesAll, List.map_append, List.map_append, List.append_assoc,
      List.append_assoc] at h
    obtain ⟨hfirst, hothers⟩ := Inst.fold_eq_of_heads depth i j h
    obtain ⟨hrest, hbehind⟩ := foldAll_eq_of_heads depth a b hothers hends hends'
    exact ⟨congrArg₂ List.cons hfirst hrest, hbehind⟩

end

/-- The text of code determines it, but for whether a minus in front of a
number is its sign. Constants are the same double, zeros with their signs;
those that are no number are one anyway (`Decimal.eq_of_isNaN`). -/
theorem foldAll_of_render {a b : List Inst} (ha : OverAll Var.Readable a)
    (hb : OverAll Var.Readable b) (h : render a = render b) : foldAll a = foldAll b := by
  rw [render_eq_textOnto, render_eq_textOnto] at h
  have hlist := congrArg String.toList h
  rw [toList_textOnto, toList_textOnto] at hlist
  have hheads := heads_of_text (readable_linesAll 0 ha) (readable_linesAll 0 hb)
    (List.append_cancel_left hlist)
  exact (foldAll_eq_of_heads 0 a b (congrArg (· ++ []) hheads) trivial trivial).1

/-- An arm that negates a number, and one that takes the negative number. -/
def minusInArm (rhs : Rhs) : List Inst :=
  [.branch (.var (.user "if_0" (some 0))) [.assign (.temp 0) rhs] [],
    .phi (.user "_x" (some 12)) [.temp 0, .user "x" (some 1)]]

/-- The example is readable for every readable right-hand side. -/
theorem readable_minusInArm {rhs : Rhs} (h : rhs.Over Var.Readable) :
    OverAll Var.Readable (minusInArm rhs) := by
  have hcond : (Var.user "if_0" (some 0)).Readable := ⟨rfl, by decide⟩
  have hdest : (Var.user "_x" (some 12)).Readable := ⟨rfl, by decide⟩
  have hsource : (Var.user "x" (some 1)).Readable := ⟨rfl, by decide⟩
  refine ⟨⟨hcond, ⟨⟨trivial, h⟩, trivial⟩, trivial⟩, ⟨hdest, ?_⟩, trivial⟩
  exact List.forall_mem_cons.mpr ⟨trivial, List.forall_mem_singleton.mpr hsource⟩

theorem foldAll_of_render_minusInArm :
    OverAll Var.Readable (minusInArm (.unary .neg (.const 1.0)))
      ∧ OverAll Var.Readable (minusInArm (.copy (.const (-1.0))))
      ∧ render (minusInArm (.unary .neg (.const 1.0))) = render (minusInArm (.copy (.const (-1.0))))
      ∧ foldAll (minusInArm (.unary .neg (.const 1.0)))
        = foldAll (minusInArm (.copy (.const (-1.0)))) := by
  have htext : render (minusInArm (.unary .neg (.const 1.0)))
      = render (minusInArm (.copy (.const (-1.0)))) := by decide +kernel
  refine ⟨readable_minusInArm trivial, readable_minusInArm trivial, htext, ?_⟩
  exact foldAll_of_render (readable_minusInArm trivial) (readable_minusInArm trivial) htext

end ExprGraph.SSA
