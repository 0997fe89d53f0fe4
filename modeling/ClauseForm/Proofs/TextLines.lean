import ClauseForm.Proofs.Splitting
import ClauseForm.Text.Lines

/-!
The lines of a file that was written as text.

In UTF-8 the bytes of a line feed and of a carriage return stand for nothing else.  So the lines of
a written text are its parts between line feeds, whatever other characters there are, and no line of
any file holds a line feed.
-/

namespace ClauseForm.Text

/-- The bytes of characters. -/
def encode (cs : List Char) : List UInt8 := cs.flatMap String.utf8EncodeChar

theorem toList_loop_eq (bytes : ByteArray) (i : Nat) (found : List UInt8) :
    ByteArray.toList.loop bytes i found = found.reverse ++ bytes.data.toList.drop i := by
  fun_induction ByteArray.toList.loop bytes i found with
  | case1 i found hi ih =>
      have hlength : i < bytes.data.toList.length := by simpa using hi
      rw [ih, List.drop_eq_getElem_cons hlength]
      simp [ByteArray.get!, hi]
  | case2 i found hi =>
      rw [List.drop_eq_nil_of_le (by simpa using Nat.le_of_not_lt hi), List.append_nil]

theorem toList_eq_data (bytes : ByteArray) : bytes.toList = bytes.data.toList := by
  rw [ByteArray.toList, toList_loop_eq]
  rfl

theorem toList_toUTF8 (text : String) : text.toUTF8.toList = encode text.toList := by
  rw [toList_eq_data, String.toUTF8_eq_toByteArray, ← String.utf8Encode_toList, List.utf8Encode,
    List.toList_data_toByteArray]
  rfl

theorem fromUTF8?_encode (cs : List Char) :
    String.fromUTF8? ⟨(encode cs).toArray⟩ = some (String.ofList cs) := by
  have hbytes : (⟨(encode cs).toArray⟩ : ByteArray) = (String.ofList cs).toByteArray := by
    rw [String.toByteArray_ofList, List.utf8Encode]
    apply ByteArray.ext
    rw [List.data_toByteArray]
    rfl
  rw [hbytes, String.fromUTF8?, dif_pos (String.isValidUTF8 _)]
  rfl

/-- A byte below 128 stands for the character with that number. -/
theorem toNat_eq_of_mem {c : Char} {b : UInt8} (hb : b ∈ String.utf8EncodeChar c)
    (hlow : b.toNat < 128) : c.toNat = b.toNat := by
  have high : ∀ n : Nat, 128 ≤ n % 256 → b ≠ UInt8.ofNat n := by
    rintro n hn rfl
    rw [UInt8.toNat_ofNat'] at hlow
    omega
  unfold String.utf8EncodeChar at hb
  dsimp only at hb
  split at hb
  · next hascii =>
      rw [List.mem_singleton.mp hb, UInt8.toNat_ofNat']
      exact (Nat.mod_eq_of_lt (Nat.lt_of_le_of_lt hascii (by decide))).symm
  · simp only [apply_ite (b ∈ ·), List.mem_cons, List.not_mem_nil, or_false] at hb
    split at hb
    · rcases hb with hb | hb <;> exact absurd hb (high _ (by omega))
    · split at hb
      · rcases hb with hb | hb | hb <;> exact absurd hb (high _ (by omega))
      · rcases hb with hb | hb | hb | hb <;> exact absurd hb (high _ (by omega))

theorem eq_lineFeed_of_mem {c : Char} (h : 10 ∈ String.utf8EncodeChar c) : c = '\n' :=
  Char.toNat_inj.mp (toNat_eq_of_mem h (by decide))

theorem eq_return_of_mem {c : Char} (h : 13 ∈ String.utf8EncodeChar c) : c = '\r' :=
  Char.toNat_inj.mp (toNat_eq_of_mem h (by decide))

theorem lineFeed_mem_encode {cs : List Char} : 10 ∈ encode cs ↔ '\n' ∈ cs := by
  rw [encode, List.mem_flatMap]
  constructor
  · rintro ⟨c, hc, hbyte⟩
    rwa [← eq_lineFeed_of_mem hbyte]
  · exact fun h => ⟨'\n', h, by decide⟩

/-- A line of text without the carriage return at its end. -/
def withoutReturn (cs : List Char) : List Char :=
  if cs.getLast? = some '\r' then cs.dropLast else cs

theorem dropReturn_encode (cs : List Char) :
    dropReturn (encode cs) = encode (withoutReturn cs) := by
  rcases List.eq_nil_or_concat cs with rfl | ⟨ds, c, rfl⟩
  · rfl
  · have hbytes : encode (ds ++ [c]) = encode ds ++ String.utf8EncodeChar c := by
      rw [encode, List.flatMap_append, List.flatMap_singleton]
      rfl
    rw [List.concat_eq_append, dropReturn, withoutReturn, List.getLast?_concat, hbytes]
    by_cases hc : c = '\r'
    · subst hc
      have hreturn : String.utf8EncodeChar '\r' = [13] := rfl
      simp [hreturn]
    · have hother : (String.utf8EncodeChar c).getLast? ≠ some 13 := fun hlast =>
        hc (eq_return_of_mem (List.mem_of_getLast? hlast))
      simp [hother, hc, hbytes]

/-! ### Lines -/

theorem byteLines_append {line rest : List UInt8} (hline : 10 ∉ line) :
    byteLines (line ++ 10 :: rest) = dropReturn line :: byteLines rest := by
  have hpieces : (line ++ 10 :: rest).splitOnP (· == 10) = line :: rest.splitOnP (· == 10) := by
    apply List.splitOnP_append_cons_of_forall_mem _ _ (by decide)
    exact fun b hb => by simpa using ne_of_mem_of_not_mem hb hline
  have hne : rest.splitOnP (· == 10) ≠ [] := List.splitOnP_ne_nil _ _
  rw [byteLines, byteLines, hpieces, List.dropLast_cons_of_ne_nil hne, List.getLast?_cons]
  obtain ⟨last, hlast⟩ : ∃ last, (rest.splitOnP (· == 10)).getLast? = some last :=
    Option.isSome_iff_exists.mp (List.getLast?_isSome.mpr hne)
  rw [hlast]
  dsimp only [Option.getD_some, List.map_cons]
  split <;> rfl

/-- The first line of a text is what comes before its first line feed. -/
theorem lines_append {line rest : String} (hline : '\n' ∉ line.toList) :
    lines (line ++ "\n" ++ rest).toUTF8 =
      some (String.ofList (withoutReturn line.toList)) :: lines rest.toUTF8 := by
  have hbytes : (line ++ "\n" ++ rest).toUTF8.toList =
      encode line.toList ++ 10 :: rest.toUTF8.toList := by
    rw [toList_toUTF8, toList_toUTF8, String.toList_append, String.toList_append, encode,
      List.flatMap_append, List.flatMap_append, List.append_assoc]
    rfl
  rw [lines, hbytes, byteLines_append (mt lineFeed_mem_encode.mp hline), List.map_cons,
    dropReturn_encode, fromUTF8?_encode]
  rfl

theorem lines_nil : lines "".toUTF8 = [] := by
  rw [lines, toList_toUTF8]
  rfl

/-- The lines of a text whose lines are written one by one, which lose a carriage return at their
end. -/
theorem lines_join {ls : List String} (hls : ∀ l ∈ ls, '\n' ∉ l.toList) :
    lines (String.join (ls.map (· ++ "\n"))).toUTF8 =
      ls.map fun l => some (String.ofList (withoutReturn l.toList)) := by
  induction ls with
  | nil => exact lines_nil
  | cons l ls ih =>
      obtain ⟨hfeed, hrest⟩ := List.forall_mem_cons.mp hls
      rw [List.map_cons, String.join_cons, lines_append hfeed, ih hrest]
      rfl

/-- A text without a line feed is one line, unless it is empty. -/
theorem lines_of_not_mem {cs : List Char} (hcs : '\n' ∉ cs) :
    lines (String.ofList cs).toUTF8 = if encode cs = [] then [] else [some (String.ofList cs)] := by
  have hpieces : (encode cs).splitOnP (· == 10) = [encode cs] := by
    refine List.splitOnP_eq_singleton fun b hb => ?_
    simpa using ne_of_mem_of_not_mem hb (mt lineFeed_mem_encode.mp hcs)
  rw [lines, toList_toUTF8, String.toList_ofList, byteLines, hpieces]
  cases hbytes : encode cs with
  | nil => rfl
  | cons b bytes =>
      change [String.fromUTF8? ⟨(b :: bytes).toArray⟩] = _
      rw [← hbytes, fromUTF8?_encode, if_neg (by simp [hbytes])]

/-- Every line of a text is a text. -/
theorem exists_lines_eq (cs : List Char) :
    ∃ ls : List String, lines (String.ofList cs).toUTF8 = ls.map some := by
  by_cases hfeed : '\n' ∈ cs
  · obtain ⟨line, rest, rfl, hline⟩ := List.eq_append_cons_of_mem hfeed
    have htext : String.ofList (line ++ '\n' :: rest) =
        String.ofList line ++ "\n" ++ String.ofList rest := by
      apply String.toList_injective
      simp
    obtain ⟨ls, hls⟩ := exists_lines_eq rest
    rw [htext, lines_append (by rwa [String.toList_ofList]), hls]
    exact ⟨_ :: ls, rfl⟩
  · rw [lines_of_not_mem hfeed]
    split
    · exact ⟨[], rfl⟩
    · exact ⟨[String.ofList cs], rfl⟩
termination_by cs.length

theorem mem_of_mem_dropReturn {line : List UInt8} {b : UInt8} (h : b ∈ dropReturn line) :
    b ∈ line := by
  unfold dropReturn at h
  split at h
  · exact List.dropLast_subset _ h
  · exact h

/-- No line of a file holds a line feed. -/
theorem lineFeed_not_mem_of_mem_byteLines {bytes line : List UInt8} (h : line ∈ byteLines bytes) :
    10 ∉ line := by
  have hpieces : ∀ piece ∈ bytes.splitOnP (· == 10), 10 ∉ piece := fun piece hpiece hfeed => by
    simpa using not_of_mem_splitOnP hpiece 10 hfeed
  have hended : ∀ line ∈ (bytes.splitOnP (· == 10)).dropLast.map dropReturn, 10 ∉ line := by
    intro line hline
    obtain ⟨piece, hpiece, rfl⟩ := List.mem_map.mp hline
    exact mt mem_of_mem_dropReturn (hpieces piece (List.dropLast_subset _ hpiece))
  unfold byteLines at h
  dsimp only at h
  cases hlast : (bytes.splitOnP (· == 10)).getLast? with
  | none => exact hended line (by simpa [hlast] using h)
  | some last =>
      rw [hlast, Option.getD_some] at h
      split at h
      · exact hended line h
      · rcases List.mem_append.mp h with h | h
        · exact hended line h
        · rw [List.mem_singleton.mp h]
          exact hpieces _ (List.mem_of_getLast? hlast)

/-- No line of text of a file holds a line feed. -/
theorem lineFeed_not_mem_of_mem_lines {file : ByteArray} {text : String}
    (h : some text ∈ lines file) : '\n' ∉ text.toList := by
  obtain ⟨line, hline, htext⟩ := List.mem_map.mp h
  have hbytes : line = encode text.toList := by
    rw [← toList_toUTF8, toList_eq_data, String.toUTF8_eq_toByteArray]
    unfold String.fromUTF8? at htext
    split at htext
    · rw [← Option.some.inj htext]
      rfl
    · contradiction
  rw [← lineFeed_mem_encode, ← hbytes]
  exact lineFeed_not_mem_of_mem_byteLines hline

end ClauseForm.Text
