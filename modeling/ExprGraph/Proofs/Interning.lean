/-
How often a text is in a table of interned texts.

A table is interned into, and now and then written out and read back. What
is written are the texts; the numbers that interning gives back are lost
with it. So the history of a table falls into sessions, and within one
session a text has one number. But a later session knows nothing of the
texts of the earlier ones, present as they are, and gives a text a second
number (`interned_once_a_session`).

The numbers that were handed out stay good for all that: no text ever
moves.
-/
import ExprGraph.Program.Names
import Mathlib.Data.List.Nodup

namespace ExprGraph.Names

-- ================================================================ histories

/-- A table after some interning, written out and read back at times.
`sessions` has the texts interned between two readings, the latest first,
and `handed` the numbers that were given for them. -/
inductive Reached : (sessions : List (List String)) → (handed : List (NameId × String)) →
    Names → Prop
  | fresh : Reached [[]] [] empty
  | interned {now : List String} {past : List (List String)} {handed : List (NameId × String)}
      {t : Names} (text : String) : Reached (now :: past) handed t →
      Reached ((text :: now) :: past) (((t.intern text).1, text) :: handed) (t.intern text).2
  | restored {sessions : List (List String)} {handed : List (NameId × String)} {t : Names} :
      Reached sessions handed t → Reached ([] :: sessions) handed (ofTexts t.texts)

/-- What a table keeps to, whatever its history. -/
structure Keeps (now : List String) (past : List (List String)) (handed : List (NameId × String))
    (t : Names) : Prop where
  sound : t.Sound
  room : t.size ≤ handed.length
  resolves : ∀ {id : NameId} {text : String}, (id, text) ∈ handed → t.text? id = some text
  knows : ∀ {text : String}, text ∈ now → ∃ id, t.known[text]? = some id
  given : ∀ {text : String} {id : NameId}, t.known[text]? = some id →
    text ∈ now ∧ (id, text) ∈ handed
  counts : ∀ text : String,
    t.texts.toList.count text = (now :: past).countP (fun session => decide (text ∈ session))

-- ================================================================= interning

section Interning

variable {t : Names} {text : String}

/-- A text that is known has its id already. -/
theorem intern_of_known {id : NameId} (h : t.known[text]? = some id) : t.intern text = (id, t) := by
  simp [intern, h]

/-- Another text is put at the end of the table. -/
theorem texts_intern_of_unknown (h : t.known[text]? = none) :
    (t.intern text).2.texts = t.texts.push text := by
  simp [intern, h]

/-- Its id is its place there. -/
theorem index_intern_of_unknown (room : t.size < UInt32.size) (h : t.known[text]? = none) :
    (t.intern text).1.index = t.size := by
  have hlt : t.texts.size < UInt32.size := room
  simp [intern, h, NameId.index, size, Nat.mod_eq_of_lt hlt]

/-- It is known from then on, and the others as before. -/
theorem known_intern_of_unknown (h : t.known[text]? = none) (other : String) :
    (t.intern text).2.known[other]?
      = if text = other then some (t.intern text).1 else t.known[other]? := by
  simp [intern, h, Std.ExtTreeMap.getElem?_insert]

end Interning

-- ================================================================== sessions

variable {now : List String} {past : List (List String)} {handed : List (NameId × String)}
  {t : Names} {text : String}

/-- A new table keeps to it. -/
theorem keeps_fresh : Keeps [] [] [] empty where
  sound := sound_ofTexts #[]
  room := Nat.le_refl 0
  resolves := by simp
  knows := by simp
  given := by simp [empty]
  counts := by simp [empty]

/-- What was not interned in this session is not known, whatever the table
holds. -/
theorem Keeps.unknown (h : Keeps now past handed t) (hnew : text ∉ now) :
    t.known[text]? = none := by
  cases hknown : t.known[text]? with
  | none => rfl
  | some id => exact absurd (h.given hknown).1 hnew

/-- A text of the session has its number already. -/
theorem Keeps.intern_again (h : Keeps now past handed t) (hnow : text ∈ now) :
    (t.intern text).2 = t ∧ ((t.intern text).1, text) ∈ handed := by
  obtain ⟨id, hknown⟩ := h.knows hnow
  rw [intern_of_known hknown]
  exact ⟨rfl, (h.given hknown).2⟩

/-- Interning a text once more changes nothing but the record. -/
theorem Keeps.interned_again (h : Keeps now past handed t) (hnow : text ∈ now) :
    Keeps (text :: now) past (((t.intern text).1, text) :: handed) (t.intern text).2 := by
  obtain ⟨hsame, hhanded⟩ := h.intern_again hnow
  have hmem : ∀ {other : String}, other ∈ text :: now ↔ other ∈ now := by
    intro other
    simp only [List.mem_cons, or_iff_right_iff_imp]
    rintro rfl
    exact hnow
  rw [hsame]
  constructor
  · exact h.sound
  · exact Nat.le_succ_of_le h.room
  · intro id other hother
    rcases List.mem_cons.mp hother with heq | hearlier
    · cases heq
      exact h.resolves hhanded
    · exact h.resolves hearlier
  · exact fun hother => h.knows (hmem.mp hother)
  · intro other id hknown
    obtain ⟨hother, hid⟩ := h.given hknown
    exact ⟨hmem.mpr hother, List.mem_cons_of_mem _ hid⟩
  · intro other
    simp only [h.counts, List.countP_cons, hmem]

/-- Interning a text for the first time in a session puts one more string
into the table. -/
theorem Keeps.interned_new (h : Keeps now past handed t) (hroom : t.size < UInt32.size)
    (hnew : text ∉ now) :
    Keeps (text :: now) past (((t.intern text).1, text) :: handed) (t.intern text).2 := by
  have hunknown := h.unknown hnew
  have htexts := texts_intern_of_unknown hunknown
  have hknown := known_intern_of_unknown hunknown
  constructor
  · exact sound_intern h.sound hroom text
  · have hle := h.room
    simp only [size, htexts, Array.size_push, List.length_cons] at hle ⊢
    omega
  · intro id other hother
    rcases List.mem_cons.mp hother with heq | hearlier
    · cases heq
      exact text?_intern_self h.sound hroom text
    · exact text?_intern_of_some text (h.resolves hearlier)
  · intro other hother
    rw [hknown]
    by_cases heq : text = other
    · exact ⟨_, if_pos heq⟩
    · rw [if_neg heq]
      exact h.knows ((List.mem_cons.mp hother).resolve_left (Ne.symm heq))
  · intro other id hother
    rw [hknown] at hother
    by_cases heq : text = other
    · subst heq
      simp only [if_true, Option.some.injEq] at hother
      subst hother
      exact ⟨List.mem_cons_self, List.mem_cons_self⟩
    · rw [if_neg heq] at hother
      obtain ⟨hmem, hid⟩ := h.given hother
      exact ⟨List.mem_cons_of_mem _ hmem, List.mem_cons_of_mem _ hid⟩
  · intro other
    have hcounts := h.counts other
    simp only [htexts, Array.toList_push, List.count_append, List.countP_cons] at hcounts ⊢
    by_cases heq : text = other
    · subst heq
      simp only [hnew, List.mem_cons_self, decide_true, decide_false, List.count_singleton_self,
        if_true] at hcounts ⊢
      simp only [Bool.false_eq_true, if_false] at hcounts
      omega
    · have hmem : other ∈ text :: now ↔ other ∈ now := by simp [Ne.symm heq]
      simp [hmem, hcounts, heq]

/-- Interning keeps to it, as long as the numbers last. -/
theorem Keeps.interned (h : Keeps now past handed t) (hroom : t.size < UInt32.size)
    (text : String) :
    Keeps (text :: now) past (((t.intern text).1, text) :: handed) (t.intern text).2 := by
  by_cases hnow : text ∈ now
  · exact h.interned_again hnow
  · exact h.interned_new hroom hnow

/-- Reading back starts a session. -/
theorem Keeps.restored (h : Keeps now past handed t) :
    Keeps [] (now :: past) handed (ofTexts t.texts) where
  sound := sound_ofTexts _
  room := h.room
  resolves := h.resolves
  knows := by simp
  given := by simp [ofTexts]
  counts := by simpa [ofTexts] using h.counts

/-- Whatever happened to a table, it keeps to its sessions. -/
theorem Reached.keeps {sessions : List (List String)} (h : Reached sessions handed t)
    (hroom : handed.length < UInt32.size) :
    ∃ now past, sessions = now :: past ∧ Keeps now past handed t := by
  induction h with
  | fresh => exact ⟨[], [], rfl, keeps_fresh⟩
  | interned text _ ih =>
      obtain ⟨now, past, heq, hkeeps⟩ := ih (Nat.lt_of_succ_lt hroom)
      cases heq
      have hlt := Nat.lt_of_le_of_lt hkeeps.room (Nat.lt_of_succ_lt hroom)
      exact ⟨_, _, rfl, hkeeps.interned hlt text⟩
  | restored _ ih =>
      obtain ⟨now, past, heq, hkeeps⟩ := ih hroom
      cases heq
      exact ⟨_, _, rfl, hkeeps.restored⟩

/-- Interning gives the number of a text, and the numbers given before
stay good. In one session a text gets one number; each session that interns
it gives it one of its own. -/
theorem interned_once_a_session (h : Reached (now :: past) handed t)
    (hroom : handed.length < UInt32.size) :
    (∀ id text, (id, text) ∈ handed → t.text? id = some text)
    ∧ (∀ text, t.texts.toList.count text
        = (now :: past).countP (fun session => decide (text ∈ session)))
    ∧ (past = [] → t.texts.toList.Nodup ∧ ∀ text ∈ t.texts.toList, text ∈ now)
    ∧ ∀ text, (t.intern text).2.text? (t.intern text).1 = some text
        ∧ (∀ id old, t.text? id = some old → (t.intern text).2.text? id = some old)
        ∧ (text ∈ now → (t.intern text).2 = t ∧ ((t.intern text).1, text) ∈ handed)
        ∧ (text ∉ now → (t.intern text).2.texts = t.texts.push text
          ∧ (t.intern text).1.index = t.size) := by
  obtain ⟨_, _, heq, hkeeps⟩ := h.keeps hroom
  cases heq
  have hlt : t.size < UInt32.size := Nat.lt_of_le_of_lt hkeeps.room hroom
  refine ⟨fun _ _ => hkeeps.resolves, hkeeps.counts, ?_, fun text => ⟨?_, ?_, ?_, ?_⟩⟩
  · rintro rfl
    constructor
    · rw [List.nodup_iff_count_le_one]
      intro text
      rw [hkeeps.counts]
      exact List.countP_le_length
    · intro text hmem
      have hpos := List.count_pos_iff.mpr hmem
      rw [hkeeps.counts, List.countP_pos_iff] at hpos
      simpa using hpos
  · exact text?_intern_self hkeeps.sound hlt text
  · exact fun _ _ => text?_intern_of_some text
  · exact hkeeps.intern_again
  · intro hnew
    have hunknown := hkeeps.unknown hnew
    exact ⟨texts_intern_of_unknown hunknown, index_intern_of_unknown hlt hunknown⟩

/-- Two texts are interned, the table is read back, and the first of them is
interned again: it is there twice, and from then on known. -/
theorem interned_once_a_session_f :
    ∃ t, Reached [["f"], ["g", "f"]] [(⟨2⟩, "f"), (⟨1⟩, "g"), (⟨0⟩, "f")] t
      ∧ t.texts.toList.count "f" = 2 ∧ t.texts.toList.count "g" = 1
      ∧ t.text? ⟨1⟩ = some "g" ∧ (t.intern "f").2 = t := by
  have hreached : Reached [["f"], ["g", "f"]] [(⟨2⟩, "f"), (⟨1⟩, "g"), (⟨0⟩, "f")]
      ((ofTexts ((empty.intern "f").2.intern "g").2.texts).intern "f").2 :=
    .interned "f" (.restored (.interned "g" (.interned "f" .fresh)))
  obtain ⟨hresolves, hcounts, -, hnext⟩ := interned_once_a_session hreached (by decide)
  obtain ⟨-, -, hagain, -⟩ := hnext "f"
  exact ⟨_, hreached, hcounts "f", hcounts "g", hresolves _ _ (by decide),
    (hagain List.mem_cons_self).1⟩

/-- Read back, a table does not know the texts it has. -/
theorem interned_twice :
    ∃ t, Reached [["f"], ["f"]] [(⟨1⟩, "f"), (⟨0⟩, "f")] t
      ∧ t.text? ⟨0⟩ = some "f" ∧ t.text? ⟨1⟩ = some "f" := by
  have hreached : Reached [["f"], ["f"]] [(⟨1⟩, "f"), (⟨0⟩, "f")]
      (((ofTexts (empty.intern "f").2.texts).intern "f").2) :=
    .interned "f" (.restored (.interned "f" .fresh))
  exact ⟨_, hreached, rfl, rfl⟩

end ExprGraph.Names
