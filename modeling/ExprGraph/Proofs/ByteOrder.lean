/-
The order of strings and the order of their bytes.

Strings are compared by code points here, and by bytes where text is bytes
first of all. UTF-8 was made so that this is the same: the first byte tells
how long the encoding of a character is, longer ones stand for greater code
points, and among encodings of one length the earlier bytes carry the
higher digits. Hence two characters that differ are told apart within their
own bytes, whatever follows (`encode_append_lt`).
-/
import Mathlib.Tactic.SplitIfs
import Std.Data.ExtTreeMap

namespace ExprGraph

/-- The bytes of a string. -/
def bytes (s : String) : List UInt8 := s.toUTF8.data.toList

theorem bytes_eq_flatMap (s : String) : bytes s = s.toList.flatMap String.utf8EncodeChar := by
  unfold bytes
  conv => lhs; rw [← String.ofList_toList (s := s)]
  rw [String.toUTF8_eq_toByteArray]
  exact List.toList_data_toByteArray

theorem toNat_lt_of_char (c : Char) : c.val.toNat < 0x110000 := by
  have hvalid := c.valid
  simp only [UInt32.isValidChar, Nat.isValidChar] at hvalid
  omega

/-- Bytes are compared one after the other. -/
theorem ofNat_cons_lt {a b : Nat} (hb : b < 256) (hle : a ≤ b) {u w : List UInt8}
    (htail : a = b → u < w) : UInt8.ofNat a :: u < UInt8.ofNat b :: w := by
  rw [List.cons_lt_cons_iff]
  rcases Nat.lt_or_eq_of_le hle with hlt | rfl
  · left
    rw [UInt8.lt_iff_toNat_lt, UInt8.toNat_ofNat_of_lt' hb,
      UInt8.toNat_ofNat_of_lt' (Nat.lt_trans hlt hb)]
    exact hlt
  · exact .inr ⟨rfl, htail rfl⟩

/-- Two characters are told apart within their bytes. -/
theorem encode_append_lt {c d : Char} (h : c < d) (u w : List UInt8) :
    String.utf8EncodeChar c ++ u < String.utf8EncodeChar d ++ w := by
  have hlt : c.val.toNat < d.val.toNat := h
  have hmax := toNat_lt_of_char d
  simp only [String.utf8EncodeChar]
  generalize c.val.toNat = m at *
  generalize d.val.toNat = n at *
  split_ifs
  -- the first bytes differ, unless there are two or more of them on either side
  all_goals try first | omega | exact ofNat_cons_lt (by omega) (by omega) fun _ => by omega
  · refine ofNat_cons_lt (by omega) (by omega) fun hfirst => ?_
    exact ofNat_cons_lt (by omega) (by omega) fun hlast => by omega
  · refine ofNat_cons_lt (by omega) (by omega) fun hfirst => ?_
    refine ofNat_cons_lt (by omega) (by omega) fun hsecond => ?_
    exact ofNat_cons_lt (by omega) (by omega) fun hlast => by omega
  · refine ofNat_cons_lt (by omega) (by omega) fun hfirst => ?_
    refine ofNat_cons_lt (by omega) (by omega) fun hsecond => ?_
    refine ofNat_cons_lt (by omega) (by omega) fun hthird => ?_
    exact ofNat_cons_lt (by omega) (by omega) fun hlast => by omega

theorem flatMap_encode_lt {a b : List Char} (h : a < b) :
    a.flatMap String.utf8EncodeChar < b.flatMap String.utf8EncodeChar := by
  induction a generalizing b with
  | nil =>
      cases b with
      | nil => exact absurd h (List.lt_irrefl _)
      | cons d b =>
          rw [List.flatMap_cons]
          cases hd : String.utf8EncodeChar d with
          | nil => exact absurd hd String.utf8EncodeChar_ne_nil
          | cons byte bytes => exact List.nil_lt_cons _ _
  | cons c a ih =>
      cases b with
      | nil => cases h
      | cons d b =>
          rw [List.flatMap_cons, List.flatMap_cons]
          rcases List.cons_lt_cons_iff.mp h with hlt | ⟨rfl, hlt⟩
          · exact encode_append_lt hlt _ _
          · exact List.append_left_lt (ih hlt)

/-- Strings in order have their bytes in order. -/
theorem bytes_lt {a b : String} (h : a < b) : bytes a < bytes b := by
  rw [bytes_eq_flatMap, bytes_eq_flatMap]
  exact flatMap_encode_lt h

/-- The keys of a table are in the order of their bytes. -/
theorem pairwise_bytes_keys {α : Type} (table : Std.ExtTreeMap String α) :
    table.keys.Pairwise fun a b => bytes a < bytes b := by
  refine Std.ExtTreeMap.ordered_keys.imp fun {a b} h => ?_
  have hlt : compareOfLessAndEq a b = .lt := h
  exact bytes_lt (compareOfLessAndEq_eq_lt.mp hlt)

end ExprGraph
