import CToGo.Job.Worker

/-!
# Lines of encoded texts

A stream of deliveries is cut into lines at bytes. A line feed and a carriage return are one
byte each, and these bytes occur in the encoding of no other character; so if the stream is
the encoding of a text, its lines are the encodings of the lines of that text.

* `textLines`: the lines of a text, said of its characters.
* `linesOf_toUTF8`: **the lines of an encoded text are the encoded lines of the text.**
-/

namespace CToGo.Job

open String (utf8EncodeChar)

/-! ## Encoded characters -/

/-- The bytes of some characters. -/
def encoded (cs : List Char) : List UInt8 := cs.flatMap utf8EncodeChar

theorem encoded_cons (c : Char) (cs : List Char) :
    encoded (c :: cs) = utf8EncodeChar c ++ encoded cs := List.flatMap_cons

theorem encoded_append (cs ds : List Char) : encoded (cs ++ ds) = encoded cs ++ encoded ds :=
  List.flatMap_append

theorem utf8EncodeChar_of_lt {c : Char} (h : c.toNat < 128) :
    utf8EncodeChar c = [UInt8.ofNat c.toNat] :=
  if_pos (Nat.le_of_lt_succ h)

/-- A character that is not of ASCII is encoded by large bytes only. -/
theorem le_of_mem_utf8EncodeChar {c : Char} (h : 128 ≤ c.toNat) {b : UInt8}
    (hb : b ∈ utf8EncodeChar c) : 128 ≤ b.toNat := by
  have hAscii : ¬ c.val.toNat ≤ 0x7f := Nat.not_le.mpr h
  simp only [utf8EncodeChar, if_neg hAscii] at hb
  split at hb
  · simp only [List.mem_cons, List.not_mem_nil, or_false] at hb
    rcases hb with rfl | rfl <;> simp only [UInt8.toNat_ofNat'] <;> omega
  · split at hb
    · simp only [List.mem_cons, List.not_mem_nil, or_false] at hb
      rcases hb with rfl | rfl | rfl <;> simp only [UInt8.toNat_ofNat'] <;> omega
    · simp only [List.mem_cons, List.not_mem_nil, or_false] at hb
      rcases hb with rfl | rfl | rfl | rfl <;> simp only [UInt8.toNat_ofNat'] <;> omega

/-- The byte of an ASCII character occurs in the encoding of no other character. -/
theorem not_mem_utf8EncodeChar {c d : Char} (hd : d.toNat < 128) (h : c ≠ d) :
    UInt8.ofNat d.toNat ∉ utf8EncodeChar c := by
  intro hMem
  by_cases hc : c.toNat < 128
  · rw [utf8EncodeChar_of_lt hc, List.mem_singleton] at hMem
    have hNat := congrArg UInt8.toNat hMem
    simp only [UInt8.toNat_ofNat'] at hNat
    exact h (Char.toNat_inj.mp (by omega))
  · have hByte := le_of_mem_utf8EncodeChar (Nat.le_of_not_lt hc) hMem
    simp only [UInt8.toNat_ofNat'] at hByte
    omega

/-! ## Pieces -/

theorem splitOn_append_of_not_mem {α : Type} [BEq α] [LawfulBEq α] {sep : α} {xs : List α}
    (h : sep ∉ xs) (ys : List α) :
    (xs ++ ys).splitOn sep = (ys.splitOn sep).modifyHead (xs ++ ·) := by
  induction xs with
  | nil => exact (congrFun List.modifyHead_id _).symm
  | cons x xs ih =>
    obtain ⟨hx, hxs⟩ := not_or.mp (mt List.mem_cons.mpr h)
    rw [List.cons_append, List.splitOn_cons_eq_if_modifyHead, if_neg (by simpa using Ne.symm hx),
      ih hxs, List.modifyHead_modifyHead]
    rfl

/-- Cutting an encoded text at the byte of an ASCII character is cutting the text at that
character. -/
theorem splitOn_encoded (sep : Char) (hSep : sep.toNat < 128) (cs : List Char) :
    (encoded cs).splitOn (UInt8.ofNat sep.toNat) = (cs.splitOn sep).map encoded := by
  induction cs with
  | nil => rfl
  | cons c cs ih =>
    rw [encoded_cons, List.splitOn_cons_eq_if_modifyHead]
    by_cases hc : c = sep
    · subst hc
      rw [utf8EncodeChar_of_lt hSep, List.singleton_append, List.splitOn_cons_eq_if_modifyHead,
        if_pos BEq.rfl, if_pos BEq.rfl, ih]
      rfl
    · -- All bytes of `c` go to the first piece, as `c` itself does.
      rw [splitOn_append_of_not_mem (not_mem_utf8EncodeChar hSep hc), ih,
        if_neg (by simpa using hc)]
      cases cs.splitOn sep with
      | nil => rfl
      | cons piece pieces => simp [encoded_cons]

/-! ## Lines -/

/-- A line without the carriage return at its end. -/
def textWithoutReturn (line : List Char) : List Char :=
  if line.getLast? = some '\r' then line.dropLast else line

/-- The lines of a text. What follows the last line feed is a line unless it is empty, and a
carriage return before a line feed is part of neither line. -/
def textLines (text : String) : List String :=
  let pieces := text.toList.splitOn '\n'
  let last := (pieces.getLast?.filter (· ≠ [])).toList
  (pieces.dropLast.map textWithoutReturn ++ last).map String.ofList

theorem withoutReturn_encoded (line : List Char) :
    withoutReturn (encoded line) = encoded (textWithoutReturn line) := by
  rcases List.eq_nil_or_concat line with rfl | ⟨init, c, rfl⟩
  · rfl
  · rw [List.concat_eq_append, encoded_append]
    by_cases hc : c = '\r'
    · subst hc
      simp [withoutReturn, textWithoutReturn, encoded, utf8EncodeChar]
    · have hLast : (encoded init ++ encoded [c]).getLast? ≠ some 13 := by
        intro hEq
        rw [List.getLast?_append, encoded, List.flatMap_singleton, Option.or_eq_some_iff] at hEq
        rcases hEq with hEq | ⟨hNone, _⟩
        · exact not_mem_utf8EncodeChar (d := '\r') (by decide) hc (List.mem_of_getLast? hEq)
        · exact String.utf8EncodeChar_ne_nil (List.getLast?_eq_none_iff.mp hNone)
      rw [withoutReturn, if_neg hLast, textWithoutReturn, if_neg (by simpa using hc),
        encoded_append]

/-! ## Encoded texts -/

theorem fromUTF8?_toUTF8 (text : String) : String.fromUTF8? text.toUTF8 = some text := by
  rw [String.fromUTF8?, String.toUTF8_eq_toByteArray, dif_pos text.isValidUTF8]
  rfl

theorem toList_eq_data_toList (bytes : ByteArray) : bytes.toList = bytes.data.toList := by
  have hLoop (i : Nat) (read : List UInt8) :
      ByteArray.toList.loop bytes i read = read.reverse ++ bytes.data.toList.drop i := by
    fun_induction ByteArray.toList.loop bytes i read with
    | case1 i read h ih =>
      have hi : i < bytes.data.toList.length := by simpa using h
      rw [ih, List.drop_eq_getElem_cons hi]
      simp [ByteArray.get!, h]
    | case2 i read h =>
      have hi : bytes.data.toList.length ≤ i := by simpa using Nat.le_of_not_lt h
      rw [List.drop_eq_nil_of_le hi, List.append_nil]
  exact hLoop 0 []

theorem toUTF8_ofList (cs : List Char) : (String.ofList cs).toUTF8 = ⟨(encoded cs).toArray⟩ := by
  rw [String.toUTF8_eq_toByteArray, String.toByteArray_ofList]
  exact ByteArray.ext List.data_toByteArray

theorem toList_toUTF8 (text : String) : text.toUTF8.toList = encoded text.toList := by
  have hText := toUTF8_ofList text.toList
  rw [String.ofList_toList] at hText
  rw [toList_eq_data_toList, hText]

theorem filter_map_encoded (last : Option (List Char)) :
    (last.map encoded).filter (· ≠ []) = (last.filter (· ≠ [])).map encoded := by
  cases last with
  | none => rfl
  | some cs => cases cs with
    | nil => rfl
    | cons c cs => simp [Option.filter, encoded]

theorem linesOf_toUTF8 (text : String) :
    linesOf text.toUTF8 = (textLines text).map String.toUTF8 := by
  have hPieces : text.toUTF8.toList.splitOn 10 = (text.toList.splitOn '\n').map encoded := by
    rw [toList_toUTF8]
    exact splitOn_encoded '\n' (by decide) _
  have hWithout : withoutReturn ∘ encoded = encoded ∘ textWithoutReturn :=
    funext withoutReturn_encoded
  have hEncode : String.toUTF8 ∘ String.ofList = (fun bytes => ⟨bytes.toArray⟩) ∘ encoded :=
    funext toUTF8_ofList
  simp only [linesOf, textLines, hPieces, List.getLast?_map, filter_map_encoded]
  rw [← List.map_dropLast, List.map_map, hWithout, ← List.map_map, Option.toList_map,
    ← List.map_append, List.map_map, List.map_map, hEncode]

end CToGo.Job
