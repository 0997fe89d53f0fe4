import ClauseForm.File.Dimacs
import ClauseForm.Proofs.Decimal
import ClauseForm.Proofs.Splitting
import ClauseForm.Proofs.TextLines
import ClauseForm.Proofs.Trimming
import ClauseForm.Proofs.UsableLiterals

/-!
Reading back the lines of a file with clauses.

Each line that is written is understood as what it was written for: the comment with a name as
giving the name its index, the line with the counts as nothing, and the line of a clause as the
clause, the empty one included.
-/

namespace ClauseForm

namespace Dimacs

open Text

variable {word rest : List Char} {i : Int} {name : String} {c : Clause} {found : Encoding}

theorem isBlank_of_isGap {d : Char} (hd : isGap d = true) : isBlank d = true := by
  rcases Bool.or_eq_true_iff.mp hd with hd | hd <;> rw [eq_of_beq hd] <;> decide

theorem isGap_eq_false {d : Char} (hd : isBlank d = false) : isGap d = false := by
  rw [Bool.eq_false_iff] at hd ⊢
  exact mt isBlank_of_isGap hd

/-! ### Written integers -/

theorem isBlank_of_part {d : Char} (hd : d = '-' ∨ d.isDigit = true) : isBlank d = false :=
  eq_false_of_part (by decide) (by decide) hd

theorem isBlank_toString : ∀ d ∈ (toString i).toList, isBlank d = false :=
  fun _ hd => isBlank_of_part (mem_toString hd)

theorem lineFeed_not_mem_toString (i : Int) : '\n' ∉ (toString i).toList := fun hfeed => by
  have hother := isBlank_toString _ hfeed
  contradiction

theorem readInt32_toString (hlow : -2147483648 ≤ i) (hhigh : i ≤ 2147483647) :
    readInt32 (toString i).toList = .ok i :=
  readInteger_toString (by decide) (by decide) hlow hhigh

/-! ### Lines -/

/-- A written line holds no line feed and does not begin or end with white space. -/
structure IsLine (line : String) : Prop where
  feed : '\n' ∉ line.toList
  trim_eq : trim line.toList = line.toList

/-- The carriage return that a line may end with is white space. -/
theorem trim_withoutReturn (cs : List Char) : trim (withoutReturn cs) = trim cs := by
  rcases List.eq_nil_or_concat cs with rfl | ⟨ds, c, rfl⟩
  · rfl
  · rw [List.concat_eq_append, withoutReturn, List.getLast?_concat, List.dropLast_concat]
    split
    · next hlast => rw [Option.some.inj hlast, trim_concat_blank (by decide)]
    · rfl

/-- The first piece of a line is cut off at the gap behind it. -/
theorem cut_append (hword : ∀ d ∈ word, isGap d = false)
    (hrest : ∀ d ∈ rest.head?, isGap d = true) :
    cut (word ++ rest) = (word, rest.dropWhile isGap) := by
  have hkept : ∀ d ∈ word, (!isGap d) = true := fun d hd => by simp [hword d hd]
  rw [cut, List.takeWhile_append_of_pos hkept, List.dropWhile_append_of_pos hkept]
  cases rest with
  | nil => simp
  | cons d rest => simp [hrest d rfl]

/-! ### What a line adds -/

variable {text : String} {ds : List Char}

/-- What a line adds depends on the line without the white space at its ends. -/
theorem addLine_congr {other : String} (h : trim text.toList = trim other.toList) :
    addLine found (some text) = addLine found (some other) := by
  simp only [addLine, h]

theorem addLine_of_blank (h : trim text.toList = []) : addLine found (some text) = .ok found := by
  simp only [addLine, h]
  rfl

theorem addLine_of_counts (h : trim text.toList = 'p' :: ds) :
    addLine found (some text) = .ok found := by
  simp only [addLine, h]
  rfl

theorem addLine_of_comment (h : trim text.toList = 'c' :: ds) :
    addLine found (some text) =
      match naming? ('c' :: ds) with
      | none => .ok found
      | some (i, name) => do
        return { found with numbering := ← (found.numbering.insert name i).mapError .naming } := by
  simp only [addLine, h]
  rfl

theorem addLine_of_clause {d : Char} (h : trim text.toList = d :: ds) (hcounts : d ≠ 'p')
    (hcomment : d ≠ 'c') :
    addLine found (some text) = do
      return { found with clauses := found.clauses.push (← readClause (d :: ds)) } := by
  unfold addLine
  dsimp only
  rw [h]
  split <;> simp_all

/-! ### Comments with names -/

/-- A name that a comment can give: there is something to it, and it takes up no further line and
has no white space at its ends. -/
structure IsName (name : String) : Prop where
  nonempty : name.toList ≠ []
  line : IsLine name

theorem toList_nameLine (i : Int) (name : String) :
    s!"c {i} {name}".toList = 'c' :: ' ' :: ((toString i).toList ++ ' ' :: name.toList) := by
  simp only [String.toList_append, List.append_assoc]
  rfl

/-- A line begins and ends with characters that are no white space. -/
theorem IsLine.of_ends {line : String} (first last : Char) (hfeed : '\n' ∉ line.toList)
    (hfirst : line.toList.head? = some first) (hlast : line.toList.getLast? = some last)
    (hblank : isBlank first = false ∧ isBlank last = false) : IsLine line where
  feed := hfeed
  trim_eq := by
    refine trim_eq_self ?_ ?_
    · rw [hfirst]
      rintro _ ⟨rfl⟩
      exact hblank.1
    · rw [hlast]
      rintro _ ⟨rfl⟩
      exact hblank.2

theorem getLast?_append_space {before after : List Char} {last : Char}
    (hlast : after.getLast? = some last) : (before ++ ' ' :: after).getLast? = some last := by
  rw [List.getLast?_append, List.getLast?_cons, hlast]
  rfl

theorem lineFeed_not_mem_nameLine (i : Int) (hname : '\n' ∉ name.toList) :
    '\n' ∉ s!"c {i} {name}".toList := by
  rw [toList_nameLine]
  simp only [List.mem_cons, List.mem_append, not_or]
  exact ⟨by decide, by decide, lineFeed_not_mem_toString i, by decide, hname⟩

/-- What is read of a name in a comment: the name without the white space at its ends, if there is
anything else to it. -/
def nameRead? (name : String) : Option String :=
  if trim name.toList = [] then none else some (String.ofList (trim name.toList))

theorem IsName.nameRead?_eq (hname : IsName name) : nameRead? name = some name := by
  rw [nameRead?, hname.line.trim_eq, if_neg hname.nonempty, String.ofList_toList]

/-- Of the line with a name, the white space at the end of the name is trimmed, and the space in
front of the name if nothing else is left of it. -/
theorem trim_nameLine (i : Int) (name : String) :
    trim s!"c {i} {name}".toList =
      ['c'] ++ ' ' :: ((toString i).toList ++ (' ' :: name.toList).rdropWhile isBlank) := by
  obtain ⟨last, hlast⟩ := Option.isSome_iff_exists.mp (List.getLast?_isSome.mpr (toString_ne_nil i))
  have hfront : trim ('c' :: ' ' :: (toString i).toList) = 'c' :: ' ' :: (toString i).toList := by
    refine trim_eq_self (fun d hd => ?_) fun d hd => ?_
    · obtain rfl := Option.some.inj hd
      decide
    · rw [List.getLast?_cons_cons, List.getLast?_cons, hlast] at hd
      obtain rfl := Option.some.inj hd
      exact isBlank_toString last (List.mem_of_getLast? hlast)
  have hline : s!"c {i} {name}".toList =
      ('c' :: ' ' :: (toString i).toList) ++ ' ' :: name.toList := toList_nameLine i name
  rw [hline, trim_append (List.cons_ne_nil _ _) hfront]
  rfl

theorem isGap_head_rdropWhile (cs : List Char) :
    ∀ d ∈ ((' ' :: cs).rdropWhile isBlank).head?, isGap d = true := by
  intro d hd
  obtain ⟨rest, hrest⟩ := List.rdropWhile_prefix isBlank (' ' :: cs)
  have hfirst := congrArg List.head? hrest
  rw [List.head?_append, hd] at hfirst
  obtain rfl := Option.some.inj hfirst
  rfl

/-- The comment that a name is written in names the index after what is read of the name. -/
theorem naming?_nameLine (hpositive : 0 < i) (hi : i ≤ largestIndex) :
    naming? (trim s!"c {i} {name}".toList) = (nameRead? name).map fun kept => (i, kept) := by
  have hmark : cut (trim s!"c {i} {name}".toList) =
      (['c'], (toString i).toList ++ (' ' :: name.toList).rdropWhile isBlank) := by
    obtain ⟨d, ds, hds⟩ := List.exists_cons_of_ne_nil (toString_ne_nil i)
    have hmem : d ∈ (toString i).toList := by simp only [hds, List.mem_cons_self]
    have hd : isGap d = false := isGap_eq_false (isBlank_toString d hmem)
    have hspace : isGap ' ' = true := rfl
    rw [trim_nameLine, cut_append (List.forall_mem_singleton.mpr (by decide)) (by simp [hspace]),
      List.dropWhile_cons_of_pos hspace, hds, List.cons_append,
      List.dropWhile_cons_of_neg (by simp [hd])]
  have hnumber : cut ((toString i).toList ++ (' ' :: name.toList).rdropWhile isBlank) =
      ((toString i).toList, ((' ' :: name.toList).rdropWhile isBlank).dropWhile isGap) :=
    cut_append (fun d hd => isGap_eq_false (isBlank_toString d hd)) (isGap_head_rdropWhile _)
  have hkept : trim (((' ' :: name.toList).rdropWhile isBlank).dropWhile isGap) =
      trim name.toList := by
    rw [trim_dropWhile fun _ => isBlank_of_isGap, trim_rdropWhile, trim_eq_rdropWhile,
      List.dropWhile_cons_of_pos (by decide), ← trim_eq_rdropWhile]
  have hlow : -2147483648 ≤ i := by omega
  rw [naming?, hmark]
  dsimp only
  rw [hnumber]
  dsimp only
  rw [hkept, readInt32_toString hlow hi, nameRead?]
  by_cases hnil : trim name.toList = []
  · simp [hnil]
  · simp [hnil, hpositive]

/-- The line of a name gives the index what is read of the name, if anything is. -/
theorem addLine_nameLine (found : Encoding) (hpositive : 0 < i) (hi : i ≤ largestIndex) :
    addLine found (some s!"c {i} {name}") =
      match nameRead? name with
      | none => .ok found
      | some kept => do
        return { found with numbering := ← (found.numbering.insert kept i).mapError .naming } := by
  have hcomment := trim_nameLine i name
  have hread : naming? (trim s!"c {i} {name}".toList) =
      (nameRead? name).map fun kept => (i, kept) := naming?_nameLine hpositive hi
  rw [hcomment] at hread
  rw [addLine_of_comment hcomment]
  change (match naming? (['c'] ++ _) with | none => _ | some (index, name) => _) = _
  rw [hread]
  cases nameRead? name <;> rfl

/-! ### The counts -/

theorem toList_countsLine (i : Int) (n : Nat) :
    s!"p cnf {i} {n}".toList =
      "p cnf ".toList ++ (toString i).toList ++ ' ' :: (toString (n : Int)).toList := by
  simp only [String.toList_append, List.append_assoc]
  rfl

theorem isLine_countsLine (i : Int) (n : Nat) : IsLine s!"p cnf {i} {n}" := by
  obtain ⟨last, hlast⟩ :=
    Option.isSome_iff_exists.mp (List.getLast?_isSome.mpr (toString_ne_nil n))
  have htext := toList_countsLine i n
  refine .of_ends 'p' last ?_ (by rw [htext]; rfl) ?_ ⟨by decide, ?_⟩
  · rw [htext]
    simp only [List.mem_cons, List.mem_append, not_or]
    exact ⟨⟨by decide, lineFeed_not_mem_toString i⟩, by decide, lineFeed_not_mem_toString n⟩
  · rw [htext]
    exact getLast?_append_space hlast
  · exact isBlank_toString last (List.mem_of_getLast? hlast)

theorem addLine_countsLine (found : Encoding) (i : Int) (n : Nat) :
    addLine found (some s!"p cnf {i} {n}") = .ok found := by
  have htrim := (isLine_countsLine i n).trim_eq
  exact addLine_of_counts (htrim.trans (toList_countsLine i n))

/-! ### Clauses -/

/-- The pieces of the line of a clause. -/
def clauseWords (c : Clause) : List (List Char) :=
  (c.toList.map fun l => (toString l).toList) ++ [['0']]

theorem toList_clauseLine (c : Clause) :
    (clauseLine c).toList = [' '].intercalate (clauseWords c) := by
  rw [clauseLine, String.toList_intercalate, List.map_append, List.map_map]
  rfl

theorem isBlank_of_mem_clauseWords {piece : List Char} (hpiece : piece ∈ clauseWords c) :
    piece ≠ [] ∧ ∀ d ∈ piece, isBlank d = false := by
  rcases List.mem_append.mp hpiece with hpiece | hpiece
  · obtain ⟨l, -, rfl⟩ := List.mem_map.mp hpiece
    exact ⟨toString_ne_nil l, isBlank_toString⟩
  · rw [List.mem_singleton.mp hpiece]
    exact ⟨List.cons_ne_nil _ _, List.forall_mem_singleton.mpr (by decide)⟩

theorem pieces_clauseLine (c : Clause) : pieces (clauseLine c).toList = clauseWords c := by
  have hsplit : ([' '].intercalate (clauseWords c)).splitOnP isGap = clauseWords c :=
    splitOnP_intercalate rfl (by simp [clauseWords]) fun piece hpiece d hd =>
      isGap_eq_false ((isBlank_of_mem_clauseWords hpiece).2 d hd)
  rw [pieces, toList_clauseLine, hsplit, List.filter_eq_self]
  intro piece hpiece
  simpa using (isBlank_of_mem_clauseWords hpiece).1

/-- Integers are read back from their pieces. -/
theorem mapM_readInt32 {ls : List Int} (hls : ∀ l ∈ ls, Literals.Usable l) :
    ((ls.map fun l => (toString l).toList).mapM fun piece =>
      (readInt32 piece).mapError (Error.literal (String.ofList piece))) = .ok ls := by
  induction ls with
  | nil => rfl
  | cons l ls ih =>
      obtain ⟨hl, hrest⟩ := List.forall_mem_cons.mp hls
      have hsize : (l.natAbs : Int) ≤ 2147483647 := hl.2
      rw [List.map_cons, List.mapM_cons, readInt32_toString (by omega) (by omega), ih hrest]
      rfl

theorem readClause_clauseLine (hc : c.Valid) : readClause (clauseLine c).toList = .ok c := by
  have hlast : (clauseWords c).getLast? = some ['0'] := by simp [clauseWords]
  have hdrop : (clauseWords c).dropLast = c.toList.map fun l => (toString l).toList := by
    simp [clauseWords]
  rw [readClause, pieces_clauseLine, hlast, hdrop]
  rw [if_pos (by decide), mapM_readInt32 hc.usable]
  change (Literals.ofList? c.toList).mapError Error.clause = _
  rw [hc.ofList?_toList]
  rfl

theorem clauseLine_head (c : Clause) :
    ∃ d ds, (clauseLine c).toList = d :: ds ∧ (d = '-' ∨ d.isDigit = true) := by
  rw [toList_clauseLine, clauseWords, intercalate_concat]
  cases c.toList with
  | nil => exact ⟨'0', [], rfl, Or.inr (by decide)⟩
  | cons l ls =>
      obtain ⟨d, ds, hds⟩ := List.exists_cons_of_ne_nil (toString_ne_nil l)
      have hd : d ∈ (toString l).toList := by simp only [hds, List.mem_cons_self]
      rw [List.map_cons, List.flatMap_cons, hds, List.append_assoc, List.append_assoc,
        List.cons_append]
      exact ⟨d, _, rfl, mem_toString hd⟩

theorem isLine_clauseLine (c : Clause) : IsLine (clauseLine c) := by
  obtain ⟨d, ds, hline, hd⟩ := clauseLine_head c
  have hwords : (clauseLine c).toList =
      (c.toList.map fun l => (toString l).toList).flatMap (· ++ [' ']) ++ ['0'] := by
    rw [toList_clauseLine, clauseWords, intercalate_concat]
  refine .of_ends d '0' ?_ (by rw [hline]; rfl) ?_ ⟨?_, by decide⟩
  · rw [hwords]
    simp only [List.mem_append, List.mem_flatMap, List.mem_map, List.mem_singleton, not_or,
      not_exists, not_and]
    refine ⟨?_, by decide⟩
    rintro _ ⟨l, -, rfl⟩
    exact ⟨lineFeed_not_mem_toString l, by decide⟩
  · rw [hwords, List.getLast?_append]
    rfl
  · exact isBlank_of_part hd

/-- A clause is read back from its line. -/
theorem addLine_clauseLine (hc : c.Valid) (found : Encoding) :
    addLine found (some (clauseLine c)) =
      .ok { found with clauses := found.clauses.push c } := by
  obtain ⟨d, ds, hline, hd⟩ := clauseLine_head c
  have htrim := (isLine_clauseLine c).trim_eq
  have hread := readClause_clauseLine hc
  rw [hline] at hread
  rw [addLine_of_clause (htrim.trans hline), hread]
  · rfl
  · rintro rfl
    revert hd
    decide
  · rintro rfl
    revert hd
    decide

end Dimacs

end ClauseForm
