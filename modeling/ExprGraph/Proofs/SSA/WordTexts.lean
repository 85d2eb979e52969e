/-
The texts of what stands on a line determine it.

Whatever is written on a line comes in words, and each word can be told
from the next by a character that it cannot hold (`split_unique`). An
operand holds a `%` or a `_` iff it is a variable, and the version of a
source variable stands behind the last `_`.

One thing cannot be read: whether a minus in front of a number is its sign
or an operator. So computations are compared with such operators carried
out (`Rhs.fold`).
-/
import ExprGraph.Proofs.Decimal.Texts
import ExprGraph.Proofs.SSA.Temporaries
import ExprGraph.SSA.Text
import Std.Data.String.ToNat

namespace ExprGraph.SSA

-- =================================================================== words

/-- Texts that end before the first `c` are one text if they are followed by
it. -/
theorem split_unique {c : Char} {x y z w : List Char} (hx : c ∉ x) (hy : c ∉ y)
    (h : x ++ c :: z = y ++ c :: w) : x = y ∧ z = w := by
  induction x generalizing y with
  | nil =>
      cases y with
      | nil => exact ⟨rfl, (List.cons.inj h).2⟩
      | cons b y =>
          have hhead : c = b := (List.cons.inj h).1
          exact absurd (hhead ▸ List.mem_cons_self) hy
  | cons a x ih =>
      cases y with
      | nil =>
          have hhead : a = c := (List.cons.inj h).1
          exact absurd (hhead ▸ List.mem_cons_self) hx
      | cons b y =>
          obtain ⟨hhead, htail⟩ := List.cons.inj h
          obtain ⟨hxy, hzw⟩ := ih (List.not_mem_of_not_mem_cons hx)
            (List.not_mem_of_not_mem_cons hy) htail
          exact ⟨hhead ▸ congrArg _ hxy, hzw⟩

/-- The characters of variables. -/
def isVarChar (c : Char) : Bool :=
  c.isAlphanum || c == '_' || c == '%'

/-- The characters of operands. -/
def isWordChar (c : Char) : Bool :=
  isVarChar c || c == '-' || c == '.'

-- =============================================================== variables

/-- A letter or `_`, and letters, digits and `_` behind it. -/
def isIdentifier (name : String) : Bool :=
  match name.toList with
  | [] => false
  | c :: rest => (c.isAlpha || c == '_') && rest.all fun c => c.isAlphanum || c == '_'

/-- A source variable carries a version and is named by an identifier. -/
def Var.Readable : Var → Prop
  | .temp _ => True
  | .user name version => version.isSome = true ∧ isIdentifier name = true

/-- What an identifier is made of. -/
theorem isAlphanum_or_underscore {name : String} (h : isIdentifier name = true) {c : Char}
    (hc : c ∈ name.toList) : (c.isAlphanum || c == '_') = true := by
  unfold isIdentifier at h
  cases hname : name.toList with
  | nil =>
      rw [hname] at hc
      cases hc
  | cons first rest =>
      rw [hname] at h hc
      simp only [Bool.and_eq_true, List.all_eq_true] at h
      rcases List.mem_cons.mp hc with rfl | hc
      · rcases Bool.or_eq_true_iff.mp h.1 with halpha | hunder
        · rw [Char.isAlphanum, halpha]
          rfl
        · rw [hunder, Bool.or_true]
      · exact h.2 c hc

/-- A temporary is written with a `%` in front of its number. -/
theorem toList_text_temp (number : Nat) :
    (Var.temp number).text.toList = '%' :: Nat.toDigits 10 number := by
  have htext : (Var.temp number).text = "%" ++ number.repr := rfl
  rw [htext, String.toList_append, Nat.toList_repr]
  rfl

/-- A source variable is written with a `_` in front of its version. -/
theorem toList_text_user (name : String) (version : Nat) :
    (Var.user name (some version)).text.toList
      = name.toList ++ '_' :: Nat.toDigits 10 version := by
  have htext : (Var.user name (some version)).text = name ++ "_" ++ version.repr := rfl
  rw [htext, String.toList_append, String.toList_append, Nat.toList_repr, List.append_assoc]
  rfl

/-- What numbers are made of. -/
theorem isDigit_of_mem {n : Nat} {c : Char} (h : c ∈ Nat.toDigits 10 n) : c.isDigit = true :=
  Nat.isDigit_of_mem_toDigits (by decide) (by decide) h

theorem isVarChar_of_isDigit {c : Char} (h : c.isDigit = true) : isVarChar c = true := by
  rw [isVarChar, Char.isAlphanum, h, Bool.or_true]
  rfl

namespace Var.Readable

variable {x y : Var}

/-- What variables are made of. -/
theorem isVarChar_of_mem (hx : x.Readable) {c : Char} (hc : c ∈ x.text.toList) :
    isVarChar c = true := by
  cases x with
  | temp number =>
      rw [toList_text_temp] at hc
      rcases List.mem_cons.mp hc with rfl | hdigit
      · rfl
      · exact isVarChar_of_isDigit (isDigit_of_mem hdigit)
  | user name version =>
      cases version with
      | none => cases hx.1
      | some version =>
          rw [toList_text_user, List.mem_append, List.mem_cons] at hc
          rcases hc with hname | rfl | hdigit
          · rw [isVarChar, isAlphanum_or_underscore hx.2 hname]
            rfl
          · rfl
          · exact isVarChar_of_isDigit (isDigit_of_mem hdigit)

/-- A variable can be told from a number. -/
theorem marked (hx : x.Readable) : ∃ c ∈ x.text.toList, c = '%' ∨ c = '_' := by
  cases x with
  | temp number =>
      rw [toList_text_temp]
      exact ⟨'%', List.mem_cons_self, .inl rfl⟩
  | user name version =>
      cases version with
      | none => cases hx.1
      | some version =>
          rw [toList_text_user]
          exact ⟨'_', List.mem_append_right _ List.mem_cons_self, .inr rfl⟩

/-- Names have no `%`. -/
theorem percent_notMem {name : String} {version : Nat}
    (h : (Var.user name (some version)).Readable) :
    '%' ∉ (Var.user name (some version)).text.toList := by
  intro hmem
  rw [toList_text_user, List.mem_append, List.mem_cons] at hmem
  rcases hmem with hname | hunder | hdigit
  · cases isAlphanum_or_underscore h.2 hname
  · cases hunder
  · cases isDigit_of_mem hdigit

/-- The `%` tells temporaries from source variables. -/
theorem temp_ne_user {number version : Nat} {name : String}
    (h : (Var.user name (some version)).Readable) :
    (Var.temp number).text ≠ (Var.user name (some version)).text := by
  intro htext
  have hmem : '%' ∈ (Var.temp number).text.toList := by
    rw [toList_text_temp]
    exact List.mem_cons_self
  exact percent_notMem h (htext ▸ hmem)

/-- The number of a temporary can be read. -/
theorem temp_injective {a b : Nat} (h : (Var.temp a).text = (Var.temp b).text) : a = b := by
  have hlist := congrArg String.toList h
  rw [toList_text_temp, toList_text_temp, ← Nat.toList_repr, ← Nat.toList_repr] at hlist
  exact Nat.repr_injective (String.toList_inj.mp (List.cons.inj hlist).2)

/-- The version stands behind the last `_`. -/
theorem user_injective {name other : String} {v w : Nat}
    (h : (Var.user name (some v)).text = (Var.user other (some w)).text) :
    name = other ∧ v = w := by
  have hdigits : ∀ n, '_' ∉ (Nat.toDigits 10 n).reverse := fun n hmem =>
    Nat.underscore_not_in_toDigits (List.mem_reverse.mp hmem)
  have hreverse := congrArg (fun text => text.toList.reverse) h
  simp only [toList_text_user, List.reverse_append, List.reverse_cons, List.append_assoc,
    List.singleton_append] at hreverse
  obtain ⟨hversion, hname⟩ := split_unique (hdigits v) (hdigits w) hreverse
  rw [List.reverse_inj] at hversion hname
  rw [← Nat.toList_repr, ← Nat.toList_repr] at hversion
  exact ⟨String.toList_inj.mp hname, Nat.repr_injective (String.toList_inj.mp hversion)⟩

/-- The text of a variable determines it. -/
theorem text_injective (hx : x.Readable) (hy : y.Readable) (h : x.text = y.text) : x = y := by
  cases x with
  | temp a =>
      cases y with
      | temp b => rw [temp_injective h]
      | user other w =>
          cases w with
          | none => cases hy.1
          | some w => exact absurd h (temp_ne_user hy)
  | user name v =>
      cases v with
      | none => cases hx.1
      | some v =>
          cases y with
          | temp b => exact absurd h.symm (temp_ne_user hx)
          | user other w =>
              cases w with
              | none => cases hy.1
              | some w =>
                  obtain ⟨rfl, rfl⟩ := user_injective h
                  rfl

end Var.Readable

-- ================================================================ operands

/-- What written doubles are made of, operands may be made of. -/
theorem isWordChar_of_isTextChar {c : Char} (h : Decimal.isTextChar c = true) :
    isWordChar c = true := by
  have hothers : ['-', '.', 'N', 'a', 'i', 'n', 'f'].all isWordChar = true := by decide
  rcases Bool.or_eq_true_iff.mp h with hdigit | hother
  · rw [isWordChar, isVarChar_of_isDigit hdigit]
    rfl
  · exact List.all_eq_true.mp hothers c (List.contains_iff_mem.mp hother)

namespace Operand

variable {o o' : Operand}

/-- What operands are made of. -/
theorem isWordChar_of_mem (h : o.Over Var.Readable) {c : Char} (hc : c ∈ o.text.toList) :
    isWordChar c = true := by
  cases o with
  | const value => exact isWordChar_of_isTextChar (Decimal.isTextChar_of_mem_text hc)
  | var x =>
      have hx : x.Readable := h
      rw [isWordChar, hx.isVarChar_of_mem hc]
      rfl

theorem notMem_text (h : o.Over Var.Readable) {c : Char} (hc : isWordChar c = false) :
    c ∉ o.text.toList := by
  intro hmem
  rw [isWordChar_of_mem h hmem] at hc
  cases hc

/-- No number is written like a variable, whatever stands in front. -/
theorem append_ne_number {x : Var} (hx : x.Readable) (front : String) (value : Float) :
    front ++ x.text ≠ Decimal.text value := by
  intro h
  obtain ⟨c, hc, hmark⟩ := hx.marked
  have hmem : c ∈ (Decimal.text value).toList := by
    rw [← h, String.toList_append]
    exact List.mem_append_right _ hc
  have htext := Decimal.isTextChar_of_mem_text hmem
  rcases hmark with rfl | rfl
  · cases htext
  · cases htext

/-- A `%` or a `_` tells variables from numbers. -/
theorem var_ne_number {x : Var} (hx : x.Readable) (value : Float) :
    x.text ≠ Decimal.text value := by
  have h := append_ne_number hx "" value
  rwa [String.empty_append] at h

/-- The text of an operand determines it. -/
theorem text_injective (h : o.Over Var.Readable) (h' : o'.Over Var.Readable)
    (htext : o.text = o'.text) : o = o' := by
  cases o with
  | const value =>
      cases o' with
      | const value' => exact congrArg const (Decimal.text_injective htext)
      | var y => exact absurd htext.symm (var_ne_number h' value)
  | var x =>
      cases o' with
      | const value' => exact absurd htext (var_ne_number h value')
      | var y => exact congrArg var (Var.Readable.text_injective h h' htext)

end Operand

-- ============================================================= computations

namespace Rhs

/-- A minus in front of a number is carried out. -/
def fold : Rhs → Rhs
  | .unary .neg (.const value) => .copy (.const (-value))
  | rhs => rhs

variable {o o' left left' right right' : Operand} {op op' : UnaryOp} {rhs rhs' : Rhs}

theorem toList_text_unary (op : UnaryOp) (o : Operand) :
    (Rhs.unary op o).text.toList = op.symbol.toList ++ o.text.toList :=
  String.toList_append

/-- Operands and operator of a computation are separated by blanks. -/
theorem toList_text_binary (op : BinaryOp) (left right : Operand) :
    (Rhs.binary op left right).text.toList
      = left.text.toList ++ ' ' :: (op.symbol.toList ++ ' ' :: right.text.toList) := by
  have htext : (Rhs.binary op left right).text
      = left.text ++ " " ++ op.symbol ++ " " ++ right.text := rfl
  simp only [htext, String.toList_append, List.append_assoc]
  rfl

/-- A blank tells computations with two operands from others. -/
theorem blank_mem_binary {op : BinaryOp} : ' ' ∈ (Rhs.binary op left right).text.toList := by
  rw [toList_text_binary]
  exact List.mem_append_right _ List.mem_cons_self

theorem blank_notMem_copy (h : o.Over Var.Readable) : ' ' ∉ (Rhs.copy o).text.toList :=
  Operand.notMem_text h rfl

theorem blank_notMem_unary (h : o.Over Var.Readable) : ' ' ∉ (Rhs.unary op o).text.toList := by
  have hsymbol : ' ' ∉ op.symbol.toList := by cases op <;> decide
  rw [toList_text_unary, List.mem_append, not_or]
  exact ⟨hsymbol, Operand.notMem_text h rfl⟩

/-- A sign of a number and a minus that is carried out look alike. -/
theorem fold_of_text_copy_unary (h : o.Over Var.Readable) (h' : o'.Over Var.Readable)
    (htext : (Rhs.copy o).text = (Rhs.unary op o').text) :
    (Rhs.copy o).fold = (Rhs.unary op o').fold := by
  have hlist := congrArg String.toList htext
  rw [toList_text_unary] at hlist
  cases op with
  | not =>
      have hmem : '!' ∈ o.text.toList := by
        change o.text.toList = _ at hlist
        rw [hlist]
        exact List.mem_cons_self
      exact absurd hmem (Operand.notMem_text h rfl)
  | neg =>
      cases o with
      | var x =>
          have hx : x.Readable := h
          have hmem : '-' ∈ x.text.toList := by
            change x.text.toList = _ at hlist
            rw [hlist]
            exact List.mem_cons_self
          cases hx.isVarChar_of_mem hmem
      | const value =>
          cases o' with
          | var y => exact absurd htext.symm (Operand.append_ne_number h' "-" value)
          | const value' =>
              have hneg : value = -value' := Decimal.eq_neg_of_text htext
              exact congrArg (fun v => Rhs.copy (.const v)) hneg

/-- An operator in front of an operand can be told from it. -/
theorem unary_injective (h : o.Over Var.Readable) (h' : o'.Over Var.Readable)
    (htext : (Rhs.unary op o).text = (Rhs.unary op' o').text) : op = op' ∧ o = o' := by
  have hlist := congrArg String.toList htext
  rw [toList_text_unary, toList_text_unary] at hlist
  have hsymbol : op = op' := by
    cases op <;> cases op' <;> first | rfl | cases (List.cons.inj hlist).1
  subst hsymbol
  have hoperand := String.toList_inj.mp (List.append_cancel_left hlist)
  exact ⟨rfl, Operand.text_injective h h' hoperand⟩

/-- Operators with two operands have different texts. -/
theorem symbol_injective {op op' : BinaryOp} (h : op.symbol = op'.symbol) : op = op' := by
  cases op <;> cases op' <;> first | rfl | exact absurd h (by decide)

/-- The two blanks separate the operands from the operator. -/
theorem binary_injective {op op' : BinaryOp} (h : (Rhs.binary op left right).Over Var.Readable)
    (h' : (Rhs.binary op' left' right').Over Var.Readable)
    (htext : (Rhs.binary op left right).text = (Rhs.binary op' left' right').text) :
    Rhs.binary op left right = Rhs.binary op' left' right' := by
  have hsymbol : ∀ op : BinaryOp, ' ' ∉ op.symbol.toList := by
    intro op
    cases op <;> decide
  have hlist := congrArg String.toList htext
  rw [toList_text_binary, toList_text_binary] at hlist
  obtain ⟨hleft, hrest⟩ := split_unique (Operand.notMem_text h.1 rfl)
    (Operand.notMem_text h'.1 rfl) hlist
  obtain ⟨hop, hright⟩ := split_unique (hsymbol op) (hsymbol op') hrest
  rw [symbol_injective (String.toList_inj.mp hop),
    Operand.text_injective h.1 h'.1 (String.toList_inj.mp hleft),
    Operand.text_injective h.2 h'.2 (String.toList_inj.mp hright)]

/-- The text of what is computed determines it, but for what a minus in front
of a number is. -/
theorem fold_of_text (h : rhs.Over Var.Readable) (h' : rhs'.Over Var.Readable)
    (htext : rhs.text = rhs'.text) : rhs.fold = rhs'.fold := by
  cases rhs with
  | copy o =>
      cases rhs' with
      | copy o' => rw [Operand.text_injective h h' htext]
      | unary op' o' => exact fold_of_text_copy_unary h h' htext
      | binary op' left' right' =>
          exact absurd (htext ▸ blank_mem_binary) (blank_notMem_copy h)
  | unary op o =>
      cases rhs' with
      | copy o' => exact (fold_of_text_copy_unary h' h htext.symm).symm
      | unary op' o' =>
          obtain ⟨rfl, rfl⟩ := unary_injective h h' htext
          rfl
      | binary op' left' right' =>
          exact absurd (htext ▸ blank_mem_binary) (blank_notMem_unary h)
  | binary op left right =>
      cases rhs' with
      | copy o' => exact absurd (htext ▸ blank_mem_binary) (blank_notMem_copy h')
      | unary op' o' => exact absurd (htext ▸ blank_mem_binary) (blank_notMem_unary h')
      | binary op' left' right' => rw [binary_injective h h' htext]

/-- Computations are written without parentheses and on one line. -/
theorem notMem_text (h : rhs.Over Var.Readable) {c : Char} (hc : c = '(' ∨ c = '\n') :
    c ∉ rhs.text.toList := by
  have hword : isWordChar c = false := by rcases hc with rfl | rfl <;> rfl
  cases rhs with
  | copy o => exact Operand.notMem_text h hword
  | unary op o =>
      have hsymbol : c ∉ op.symbol.toList := by
        rcases hc with rfl | rfl <;> cases op <;> decide
      rw [toList_text_unary, List.mem_append, not_or]
      exact ⟨hsymbol, Operand.notMem_text h hword⟩
  | binary op left right =>
      have hsymbol : c ∉ op.symbol.toList := by
        rcases hc with rfl | rfl <;> cases op <;> decide
      have hblank : c ≠ ' ' := by rcases hc with rfl | rfl <;> decide
      simp only [toList_text_binary, List.mem_append, List.mem_cons, not_or]
      exact ⟨Operand.notMem_text h.1 hword, hblank, hsymbol, hblank,
        Operand.notMem_text h.2 hword⟩

end Rhs

-- ================================================================= sources

/-- Sources are separated by commas. -/
theorem toList_sourcesText_cons (x y : Var) (sources : List Var) :
    (sourcesText (x :: y :: sources)).toList
      = x.text.toList ++ ',' :: ' ' :: (sourcesText (y :: sources)).toList := by
  unfold sourcesText
  rw [List.map_cons, List.map_cons, String.intercalate_cons_cons, String.toList_append,
    String.toList_append, List.append_assoc]
  rfl

theorem sourcesText_singleton (x : Var) : sourcesText [x] = x.text :=
  String.intercalate_singleton

/-- No variable has a comma in it. -/
theorem Var.Readable.comma_notMem {x : Var} (hx : x.Readable) : ',' ∉ x.text.toList := by
  intro hmem
  cases hx.isVarChar_of_mem hmem

/-- No source is written as nothing. -/
theorem sourcesText_cons_ne_nil {x : Var} (hx : x.Readable) (sources : List Var) :
    sourcesText (x :: sources) ≠ sourcesText [] := by
  obtain ⟨c, hc, -⟩ := hx.marked
  have hmem : c ∈ (sourcesText (x :: sources)).toList := by
    cases sources with
    | nil =>
        rw [sourcesText_singleton]
        exact hc
    | cons y sources =>
        rw [toList_sourcesText_cons]
        exact List.mem_append_left _ hc
  intro htext
  rw [htext] at hmem
  cases hmem

/-- A comma tells one source from more. -/
theorem sourcesText_singleton_ne {x : Var} (hx : x.Readable) (y z : Var) (sources : List Var) :
    sourcesText [x] ≠ sourcesText (y :: z :: sources) := by
  intro htext
  have hmem : ',' ∈ (sourcesText [x]).toList := by
    rw [htext, toList_sourcesText_cons]
    exact List.mem_append_right _ List.mem_cons_self
  rw [sourcesText_singleton] at hmem
  exact hx.comma_notMem hmem

/-- The text of sources determines them. -/
theorem sourcesText_injective {sources sources' : List Var} (h : ∀ x ∈ sources, x.Readable)
    (h' : ∀ x ∈ sources', x.Readable) (htext : sourcesText sources = sourcesText sources') :
    sources = sources' := by
  induction sources generalizing sources' with
  | nil =>
      cases sources' with
      | nil => rfl
      | cons y rest' =>
          exact absurd htext.symm (sourcesText_cons_ne_nil (h' y List.mem_cons_self) rest')
  | cons x rest ih =>
      obtain ⟨hx, hrest⟩ := List.forall_mem_cons.mp h
      cases sources' with
      | nil => exact absurd htext (sourcesText_cons_ne_nil hx rest)
      | cons y rest' =>
          obtain ⟨hy, hrest'⟩ := List.forall_mem_cons.mp h'
          cases rest with
          | nil =>
              cases rest' with
              | nil =>
                  rw [sourcesText_singleton, sourcesText_singleton] at htext
                  rw [hx.text_injective hy htext]
              | cons z rest' => exact absurd htext (sourcesText_singleton_ne hx y z rest')
          | cons w rest =>
              cases rest' with
              | nil => exact absurd htext.symm (sourcesText_singleton_ne hy x w rest)
              | cons z rest' =>
                  have hlist := congrArg String.toList htext
                  rw [toList_sourcesText_cons, toList_sourcesText_cons] at hlist
                  obtain ⟨hfirst, hothers⟩ := split_unique hx.comma_notMem hy.comma_notMem hlist
                  have hsame := String.toList_inj.mp (List.cons.inj hothers).2
                  rw [hx.text_injective hy (String.toList_inj.mp hfirst), ih hrest hrest' hsame]

/-- Sources stand on one line. -/
theorem newline_notMem_sourcesText {sources : List Var} (h : ∀ x ∈ sources, x.Readable) :
    '\n' ∉ (sourcesText sources).toList := by
  have hvar : ∀ {x : Var}, x.Readable → '\n' ∉ x.text.toList := by
    intro x hx hmem
    cases hx.isVarChar_of_mem hmem
  induction sources with
  | nil => exact List.not_mem_nil
  | cons x rest ih =>
      obtain ⟨hx, hrest⟩ := List.forall_mem_cons.mp h
      cases rest with
      | nil =>
          rw [sourcesText_singleton]
          exact hvar hx
      | cons y rest =>
          simp only [toList_sourcesText_cons, List.mem_append, List.mem_cons, not_or]
          exact ⟨hvar hx, by decide, by decide, ih hrest⟩

end ExprGraph.SSA
