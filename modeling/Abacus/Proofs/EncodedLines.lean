-- The bytes of a text fall into lines where the text does, and the bytes of
-- each line read back as the line. This rests on one fact of UTF-8: a byte
-- below 128 is never a part of a longer character.
import Abacus.Text.Lines
import Mathlib.Data.List.Basic

namespace Abacus.Text

/-! ## The bytes of a character -/

/-- A byte below 128 is all there is of its character. -/
theorem utf8EncodeChar_of_low {c : Char} {b : UInt8} (h : b ∈ String.utf8EncodeChar c)
    (low : b.toNat < 128) : c.toNat = b.toNat := by
  have hc : c.val.toNat = c.toNat := rfl
  unfold String.utf8EncodeChar at h
  dsimp only at h
  rw [hc] at h
  split at h
  · obtain rfl := List.mem_singleton.mp h
    rw [UInt8.toNat_ofNat']
    omega
  · -- Each byte of a longer character is 128 or more.
    exfalso
    split at h
    · simp only [List.mem_cons, List.not_mem_nil, or_false] at h
      rcases h with rfl | rfl <;> rw [UInt8.toNat_ofNat'] at low <;> omega
    · split at h
      · simp only [List.mem_cons, List.not_mem_nil, or_false] at h
        rcases h with rfl | rfl | rfl <;> rw [UInt8.toNat_ofNat'] at low <;> omega
      · simp only [List.mem_cons, List.not_mem_nil, or_false] at h
        rcases h with rfl | rfl | rfl | rfl <;> rw [UInt8.toNat_ofNat'] at low <;> omega

theorem eq_newline_of_mem {c : Char} (h : (10 : UInt8) ∈ String.utf8EncodeChar c) : c = '\n' :=
  Char.toNat_inj.mp (utf8EncodeChar_of_low h (by decide))

theorem eq_return_of_mem {c : Char} (h : (13 : UInt8) ∈ String.utf8EncodeChar c) : c = '\r' :=
  Char.toNat_inj.mp (utf8EncodeChar_of_low h (by decide))

/-! ## The bytes of a text -/

theorem encode_cons (c : Char) (t : Text) :
    encode (c :: t) = String.utf8EncodeChar c ++ encode t := rfl

theorem encode_append (s t : Text) : encode (s ++ t) = encode s ++ encode t := by
  unfold encode
  exact List.flatMap_append

theorem isEmpty_encode (t : Text) : (encode t).isEmpty = t.isEmpty := by
  cases t with
  | nil => rfl
  | cons c t => simp [encode_cons]

/-- The bytes of a text read back as the text. -/
theorem decode?_encode (t : Text) : decode? (encode t) = some t := by
  have hbytes : (encode t).toByteArray = t.utf8Encode := rfl
  have hvalid : t.utf8Encode.IsValidUTF8 := ⟨t, rfl⟩
  unfold decode? String.fromUTF8?
  rw [hbytes, dif_pos hvalid, Option.map_some]
  congr 1
  exact String.toList_ofList

/-! ## Lines -/

/-- The bytes of pieces with a mark between them are the bytes of each, with those of the mark
between them. -/
theorem encode_intercalate (mark : Text) (pieces : List Text) :
    encode (mark.intercalate pieces) = (encode mark).intercalate (pieces.map encode) := by
  induction pieces with
  | nil => rfl
  | cons piece rest ih =>
    rcases rest with _ | ⟨next, later⟩
    · simp
    · rw [List.map_cons, List.map_cons, List.intercalate_cons_cons, List.intercalate_cons_cons,
        encode_append, encode_append, ih, List.map_cons]

/-- The bytes of a text fall into pieces where the text does. -/
theorem splitOn_encode (t : Text) : (encode t).splitOn 10 = (t.splitOn '\n').map encode := by
  have hmark : encode ['\n'] = [10] := by decide
  have hjoined : encode t = [10].intercalate ((t.splitOn '\n').map encode) := by
    rw [← hmark, ← encode_intercalate, List.intercalate_splitOn]
  have hfree : ∀ bytes ∈ (t.splitOn '\n').map encode, 10 ∉ bytes := by
    intro bytes hbytes hmem
    obtain ⟨piece, hpiece, rfl⟩ := List.mem_map.mp hbytes
    obtain ⟨c, hc, hbyte⟩ := List.mem_flatMap.mp hmem
    obtain rfl := eq_newline_of_mem hbyte
    exact not_mem_of_mem_splitOn hpiece hc
  have hpieces : (t.splitOn '\n').map encode ≠ [] := by simp [List.splitOn_ne_nil]
  rw [hjoined, List.splitOn_intercalate 10 hfree hpieces]

/-- A return at the end of the bytes is a return at the end of the text. -/
theorem dropReturn_encode (t : Text) : dropReturn 13 (encode t) = encode (dropReturn '\r' t) := by
  rcases List.eq_nil_or_concat' t with rfl | ⟨front, c, rfl⟩
  · rfl
  · have hc : encode [c] = String.utf8EncodeChar c := List.append_nil _
    unfold dropReturn
    rw [encode_append, hc, List.getLast?_append_of_ne_nil _ String.utf8EncodeChar_ne_nil,
      List.getLast?_concat]
    by_cases hret : c = '\r'
    · subst hret
      have hbyte : String.utf8EncodeChar '\r' = [13] := by decide
      rw [hbyte]
      simp
    · have hlast : (String.utf8EncodeChar c).getLast? ≠ some 13 := fun h =>
        hret (eq_return_of_mem (List.mem_of_getLast? h))
      rw [if_neg hlast, if_neg (by simpa using hret), encode_append, hc]

/-- The lines of the bytes are the bytes of the lines. -/
theorem byteLines_encode (t : Text) : byteLines (encode t) = (lines t).map encode := by
  unfold byteLines lines linesAt
  dsimp only
  rw [splitOn_encode, List.map_append, List.map_map, ← List.map_dropLast, List.map_map,
    List.getLast?_map]
  congr 1
  · exact List.map_congr_left fun piece _ => dropReturn_encode piece
  · rcases (t.splitOn '\n').getLast? with _ | piece
    · rfl
    · rw [Option.map_some]
      by_cases h : piece.isEmpty = true
      · simp [Option.filter, isEmpty_encode, h]
      · simp [Option.filter, isEmpty_encode, h]

end Abacus.Text
