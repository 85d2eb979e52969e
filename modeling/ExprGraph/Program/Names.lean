/-
Interned texts: each text gets a number, and the same text the same
number.

The table answers in both directions: the texts in order of their numbers,
and the numbers of the texts it has handed out itself. A table restored
from its texts alone has handed out nothing yet, so its first interning of
a text appends even a text that is present.
-/
import ExprGraph.Expr
import Std.Data.ExtTreeMap

namespace ExprGraph

/-- Texts by number, and the numbers that interning gives back. -/
structure Names where
  texts : Array String := #[]
  known : Std.ExtTreeMap String NameId := ∅

namespace Names

def empty : Names := {}

/-- A table that holds `texts` and knows none of their numbers. -/
def ofTexts (texts : Array String) : Names := { texts }

def size (t : Names) : Nat := t.texts.size

/-- The text with a number. -/
def text? (t : Names) (id : NameId) : Option String :=
  t.texts[id.index]?

/-- The number of a text: the one it was given before, or the next. -/
def intern (t : Names) (text : String) : NameId × Names :=
  match t.known[text]? with
  | some id => (id, t)
  | none =>
    let id : NameId := ⟨t.texts.size.toUInt32⟩
    (id, { texts := t.texts.push text, known := t.known.insert text id })

-- ================================================================= look-up

/-- The numbers that interning gives back are those of the texts. -/
def Sound (t : Names) : Prop :=
  ∀ (text : String) (id : NameId), t.known[text]? = some id → t.text? id = some text

theorem sound_ofTexts (texts : Array String) : (ofTexts texts).Sound := by
  simp [Sound, ofTexts]

/-- A text is found under the number that interning gave. -/
theorem text?_intern_self {t : Names} (sound : t.Sound) (room : t.size < UInt32.size)
    (text : String) : (t.intern text).2.text? (t.intern text).1 = some text := by
  simp only [size] at room
  simp only [intern]
  split
  · exact sound _ _ ‹_›
  · simp [text?, NameId.index, Nat.mod_eq_of_lt room]

/-- Texts interned before keep their numbers. -/
theorem text?_intern_of_some {t : Names} {id : NameId} {old : String} (text : String)
    (h : t.text? id = some old) : (t.intern text).2.text? id = some old := by
  have lt : id.index < t.texts.size := (Array.getElem?_eq_some_iff.mp h).1
  simp only [intern]
  split
  · exact h
  · simpa only [text?, Array.getElem?_push_lt lt, Array.getElem?_eq_getElem lt] using h

theorem sound_intern {t : Names} (sound : t.Sound) (room : t.size < UInt32.size) (text : String) :
    (t.intern text).2.Sound := by
  intro other id h
  cases known : t.known[text]? with
  | some id' =>
    simp only [intern, known] at h ⊢
    exact sound _ _ h
  | none =>
    have self := text?_intern_self sound room text
    have old := fun found => text?_intern_of_some (t := t) text (sound other id found)
    simp only [intern, known, Std.ExtTreeMap.getElem?_insert] at h self old ⊢
    split at h
    · simp_all
    · exact old h

end Names

end ExprGraph
