import ClauseForm.File.Formula
import ClauseForm.Proofs.Faults
import ClauseForm.Proofs.Quotation
import ClauseForm.Proofs.Readings
import ClauseForm.Proofs.TextLines
import ClauseForm.Proofs.Trimming

/-!
Reading back files with formulas.

A formula is written on one line for each operand of a conjunction.  Without line feeds in its names
it is read back as the formula without degenerate nodes, since each line is read back as its operand.
A line feed in a name breaks the line between two quotation marks, and the first part of it can not
be read.  `read_write_formula` states both, and that whatever was read from a file is read back from
the file it is written to.
-/

namespace ClauseForm.FormulaFile

open Text Expression

variable {e : Expression} {es : List Expression} {n : Nat}

/-- A formula without quotation marks in its names. -/
structure Writable (e : Expression) : Prop where
  tree : FormulaTree e
  quoteFree : e.QuoteFree

/-- Some name holds a line feed. -/
def Broken (e : Expression) : Prop := ∃ name ∈ e.occurringNames, '\n' ∈ name.toList

theorem Writable.inscribed (h : Writable e) : (e.fold phrase).Inscribed e.occurringNames :=
  inscribed_of_formula h.tree h.quoteFree

theorem Writable.lineFeed_mem_iff (h : Writable e) : '\n' ∈ e.text.toList ↔ Broken e :=
  h.inscribed.spelled.lineFeed_mem_iff

theorem Writable.ofText_eq (h : Writable e) : ofText e.text = .ok e.collapse :=
  ofText_eq_collapse h.tree.wellFormed h.tree.isFormula_eq h.quoteFree

/-! ### Lines -/

/-- The line of a formula is read as what collapsing leaves of it. -/
theorem Writable.readLine_text (h : Writable e) (n : Nat) :
    readLine (some e.text) n = .ok (some e.collapse) := by
  obtain ⟨c, hc, hvisible⟩ := h.inscribed.visible
  have hkept : (trim e.text.toList).isEmpty = false :=
    List.isEmpty_eq_false_iff.mpr (trim_ne_nil hc hvisible)
  rw [readLine, hkept, h.ofText_eq]
  rfl

/-- The part of a line in front of a line feed in a name can not be read. -/
theorem Writable.readLine_broken (h : Writable e) {before after : List Char}
    (htext : e.text.toList = before ++ '\n' :: after) (n : Nat) :
    readLine (some (String.ofList (withoutReturn before))) n = .error (.line n .malformed) := by
  have hodd := h.inscribed.spelled.odd_quotes (Or.inl rfl) htext
  have hsame : (withoutReturn before).count '\x22' = before.count '\x22' := by
    unfold withoutReturn
    split
    · next hlast =>
        obtain ⟨init, rfl⟩ := List.getLast?_eq_some_iff.mp hlast
        simp
    · rfl
  rw [← hsame] at hodd
  have hmem : '\x22' ∈ withoutReturn before := by
    rw [← List.count_pos_iff]
    omega
  have hscan : Token.scan (withoutReturn before) = none := by
    cases hts : Token.scan (withoutReturn before) with
    | none => rfl
    | some ts =>
        have := Token.even_of_scan hts
        omega
  have hkept : (trim (withoutReturn before)).isEmpty = false :=
    List.isEmpty_eq_false_iff.mpr (trim_ne_nil hmem (by decide))
  rw [readLine, String.toList_ofList, hkept, ofText, String.toList_ofList, hscan]
  rfl

/-- Reading numbered lines. -/
def readLines (ls : List (Option String)) (n : Nat) : Except Error (List (Option Expression)) :=
  (ls.zipIdx n).mapM fun (line, number) => readLine line number

theorem readLines_cons (line : Option String) (ls : List (Option String)) (n : Nat) :
    readLines (line :: ls) n = do
      let first ← readLine line n
      let rest ← readLines ls (n + 1)
      return first :: rest := by
  rw [readLines, List.zipIdx_cons, List.mapM_cons]
  rfl

/-- The text of formulas, each on a line. -/
def linesText (es : List Expression) : String := String.join (es.map fun e => e.text ++ "\n")

theorem linesText_cons (e : Expression) (es : List Expression) :
    linesText (e :: es) = e.text ++ "\n" ++ linesText es := by
  rw [linesText, List.map_cons, String.join_cons]
  rfl

/-- The first line is that of the first formula, unless a name in it breaks the line. -/
theorem lines_linesText (he : Writable e) (hwhole : ¬ Broken e) (es : List Expression) :
    lines (linesText (e :: es)).toUTF8 = some e.text :: lines (linesText es).toUTF8 := by
  have hreturn : e.text.toList.getLast? ≠ some '\r' := he.inscribed.spelled.getLast?_ne_return
  have hfeed : '\n' ∉ e.text.toList := mt he.lineFeed_mem_iff.mp hwhole
  rw [linesText_cons, lines_append hfeed, withoutReturn, if_neg hreturn, String.ofList_toList]

/-- Formulas without line feeds in their names are read back line by line. -/
theorem readLines_whole (hes : ∀ e ∈ es, Writable e ∧ ¬ Broken e) (n : Nat) :
    readLines (lines (linesText es).toUTF8) n = .ok (es.map fun e => some e.collapse) := by
  induction es generalizing n with
  | nil =>
      rw [linesText, List.map_nil, String.join_nil, lines_nil]
      rfl
  | cons e es ih =>
      obtain ⟨⟨he, hwhole⟩, hrest⟩ := List.forall_mem_cons.mp hes
      rw [lines_linesText he hwhole, readLines_cons, he.readLine_text, ih hrest]
      rfl

/-- Reading stops at the line that is broken by a name. -/
theorem readLines_broken (hes : ∀ e ∈ es, Writable e) (hbroken : ∃ e ∈ es, Broken e) (n : Nat) :
    ∃ k, readLines (lines (linesText es).toUTF8) n = .error (.line k .malformed) := by
  induction es generalizing n with
  | nil => simp at hbroken
  | cons e es ih =>
      obtain ⟨he, hrest⟩ := List.forall_mem_cons.mp hes
      by_cases hwhole : Broken e
      · obtain ⟨before, after, htext, hbefore⟩ :=
          List.eq_append_cons_of_mem (he.lineFeed_mem_iff.mpr hwhole)
        have hsplit : linesText (e :: es) =
            String.ofList before ++ "\n" ++ (String.ofList after ++ "\n" ++ linesText es) := by
          rw [linesText_cons, ← String.toList_inj]
          simp only [String.toList_append, htext, String.toList_ofList, List.append_assoc]
          rfl
        have hfeed : '\n' ∉ (String.ofList before).toList := by rwa [String.toList_ofList]
        refine ⟨n, ?_⟩
        rw [hsplit, lines_append hfeed, String.toList_ofList, readLines_cons,
          he.readLine_broken htext]
        rfl
      · have hlater : ∃ f ∈ es, Broken f := by
          obtain ⟨f, hf, hbroken⟩ := hbroken
          rcases List.mem_cons.mp hf with rfl | hf
          · exact absurd hbroken hwhole
          · exact ⟨f, hf, hbroken⟩
        obtain ⟨k, hk⟩ := ih hrest hlater (n + 1)
        refine ⟨k, ?_⟩
        rw [lines_linesText he hwhole, readLines_cons, he.readLine_text, hk]
        rfl

/-! ### Files -/

theorem write_eq (e : Expression) : write e = linesText (parts e) := rfl

theorem read_eq (file : ByteArray) :
    read file = (readLines (lines file) 1).map fun found => conjunction (found.filterMap id) := by
  rw [read]
  change ((readLines (lines file) 1) >>= _) = _
  cases readLines (lines file) 1 <;> rfl

/-- A formula is written on a single line unless it is a conjunction. -/
theorem parts_cases (e : Expression) :
    (∃ es, e = node .and es ∧ parts e = es) ∨ e.symbol ≠ .and ∧ parts e = [e] := by
  obtain ⟨s, es⟩ := e
  cases s with
  | and => exact Or.inl ⟨es, rfl, rfl⟩
  | _ => exact Or.inr ⟨Symbol.noConfusion, rfl⟩

theorem Writable.of_mem_parts (h : Writable e) : ∀ part ∈ parts e, Writable part := by
  rcases parts_cases e with ⟨es, rfl, hparts⟩ | ⟨-, hparts⟩
  · rw [hparts]
    cases h.tree with
    | and hes => exact fun part hpart => ⟨hes part hpart, h.quoteFree.operand hpart⟩
  · rw [hparts]
    exact List.forall_mem_singleton.mpr h

theorem broken_iff (e : Expression) : Broken e ↔ ∃ part ∈ parts e, Broken part := by
  rcases parts_cases e with ⟨es, rfl, hparts⟩ | ⟨-, hparts⟩
  · have hnames : (node .and es).occurringNames = es.flatMap occurringNames := by
      rw [occurringNames_node]
      rfl
    rw [hparts, Broken, hnames]
    simp only [List.mem_flatMap, Broken]
    constructor
    · rintro ⟨name, ⟨part, hpart, hname⟩, hfeed⟩
      exact ⟨part, hpart, name, hname, hfeed⟩
    · rintro ⟨part, hpart, name, hname, hfeed⟩
      exact ⟨name, ⟨part, hpart, hname⟩, hfeed⟩
  · rw [hparts]
    simp

/-- The conjunction of what collapsing leaves of the parts is what it leaves of the formula. -/
theorem conjunction_collapse (e : Expression) :
    conjunction ((parts e).map collapse) = e.collapse := by
  rcases parts_cases e with ⟨es, rfl, hparts⟩ | ⟨-, hparts⟩
  · rw [hparts, collapse_node]
    match es.map collapse with
    | [] => rfl
    | [_] => rfl
    | _ :: _ :: _ => rfl
  · rw [hparts]
    rfl

theorem read_write_whole (h : Writable e) (hwhole : ¬ Broken e) :
    read (write e).toUTF8 = .ok e.collapse := by
  have hparts : ∀ part ∈ parts e, Writable part ∧ ¬ Broken part := fun part hpart =>
    ⟨h.of_mem_parts part hpart, fun hbroken => hwhole ((broken_iff e).mpr ⟨part, hpart, hbroken⟩)⟩
  have hfound : ((parts e).map fun part => some part.collapse).filterMap id =
      (parts e).map collapse := by
    rw [List.filterMap_map, ← List.filterMap_eq_map]
    rfl
  rw [read_eq, write_eq, readLines_whole hparts]
  refine congrArg Except.ok ?_
  dsimp only
  rw [hfound, conjunction_collapse]

theorem read_write_broken (h : Writable e) (hbroken : Broken e) :
    ∃ n, read (write e).toUTF8 = .error (.line n .malformed) := by
  obtain ⟨n, hn⟩ := readLines_broken h.of_mem_parts ((broken_iff e).mp hbroken) 1
  refine ⟨n, ?_⟩
  rw [read_eq, write_eq, hn]
  rfl

/-! ### What can be read from a file -/

/-- A name that can stand on a line. -/
def NameOnLine (name : String) : Prop := '\n' ∉ name.toList ∧ '\x22' ∉ name.toList

theorem regular_of_readLine {line : Option String} (hline : ∀ text ∈ line, '\n' ∉ text.toList)
    (h : readLine line n = .ok (some e)) : Regular NameOnLine .formula e := by
  unfold readLine at h
  split at h
  · contradiction
  · next text =>
      split at h
      · cases h
      · split at h
        · next f hread =>
            obtain rfl := Option.some.inj (Except.ok.inj h)
            refine (regular_of_ofText hread).mono fun name hname => ⟨?_, hname.2⟩
            exact fun hfeed => hline text rfl (hname.1.subset hfeed)
        · contradiction

theorem regular_of_readLines {ls : List (Option String)} {found : List (Option Expression)}
    (hls : ∀ line ∈ ls, ∀ text ∈ line, '\n' ∉ text.toList) (h : readLines ls n = .ok found) :
    ∀ e ∈ found.filterMap id, Regular NameOnLine .formula e := by
  induction ls generalizing n found with
  | nil =>
      obtain rfl := Except.ok.inj h
      simp
  | cons line ls ih =>
      obtain ⟨hline, hrest⟩ := List.forall_mem_cons.mp hls
      rw [readLines_cons] at h
      obtain ⟨first, hfirst, h⟩ := except_bind_eq_ok h
      obtain ⟨rest, hfound, h⟩ := except_bind_eq_ok h
      obtain rfl := Except.ok.inj h
      have hlater := ih hrest hfound
      cases first with
      | none => exact hlater
      | some f => exact List.forall_mem_cons.mpr ⟨regular_of_readLine hline hfirst, hlater⟩

theorem regular_conjunction {good : String → Prop} (hes : ∀ e ∈ es, Regular good .formula e) :
    Regular good .formula (conjunction es) := by
  match es with
  | [] => exact regular_truth true
  | [e] => exact hes e List.mem_cons_self
  | d :: e :: es => exact regular_chain (s := .and) (Or.inl rfl) hes

/-- What is read from a file is a formula that can be read, without line feeds in its names. -/
theorem regular_of_read {file : ByteArray} (h : read file = .ok e) :
    Regular NameOnLine .formula e := by
  rw [read_eq] at h
  obtain ⟨found, hfound, rfl⟩ := map_eq_ok h
  refine regular_conjunction (regular_of_readLines ?_ hfound)
  rintro line hline text rfl
  exact lineFeed_not_mem_of_mem_lines hline

/-- A formula without quotation marks in its names is read back from the file it is written to, but
for its degenerate nodes; if a name holds a line feed, the file can not be read at all.  All that is
read from texts and files has no such names, and what was read from a file is read back from the
file it is written to. -/
theorem read_write_formula :
    (∀ e : Expression, e.WellFormed → e.isFormula = true →
      (∀ name ∈ e.names, '\x22' ∉ name.toList) →
      ((∀ name ∈ e.names, '\n' ∉ name.toList) → read (write e).toUTF8 = .ok e.collapse) ∧
        ((∃ name ∈ e.names, '\n' ∈ name.toList) →
          ∃ n, read (write e).toUTF8 = .error (.line n .malformed))) ∧
      (∀ text e, ofText text = .ok e →
        e.WellFormed ∧ e.isFormula = true ∧ ∀ name ∈ e.names, '\x22' ∉ name.toList) ∧
      ∀ file e, read file = .ok e →
        (e.WellFormed ∧ e.isFormula = true ∧ ∀ name ∈ e.names, '\x22' ∉ name.toList) ∧
          read (write e).toUTF8 = .ok e := by
  have hbroken : ∀ e : Expression, Broken e ↔ ∃ name ∈ e.names, '\n' ∈ name.toList := by
    intro e
    simp only [Broken, occurringNames, names, List.mem_eraseDups]
  refine ⟨fun e he hformula hquote => ?_, fun text e h => ?_, fun file e h => ?_⟩
  · have hwritable : Writable e := ⟨formulaTree_iff.mpr ⟨he, hformula⟩, quoteFree_iff.mpr hquote⟩
    refine ⟨fun hfree => read_write_whole hwritable fun h => ?_, fun h => ?_⟩
    · obtain ⟨name, hname, hfeed⟩ := (hbroken e).mp h
      exact hfree name hname hfeed
    · exact read_write_broken hwritable ((hbroken e).mpr h)
  · have hregular := regular_of_ofText h
    exact ⟨hregular.wellFormed, hregular.isFormula,
      quoteFree_iff.mp fun x hx => (hregular.names x hx).2⟩
  · have hregular := regular_of_read h
    have hquote : e.QuoteFree := fun x hx => (hregular.names x hx).2
    have hwritable : Writable e :=
      ⟨formulaTree_iff.mpr ⟨hregular.wellFormed, hregular.isFormula⟩, hquote⟩
    refine ⟨⟨hregular.wellFormed, hregular.isFormula, quoteFree_iff.mp hquote⟩, ?_⟩
    rw [read_write_whole hwritable, collapse_eq_self hregular.nondegenerate]
    rintro ⟨name, hname, hfeed⟩
    obtain ⟨x, hx, rfl⟩ := List.mem_map.mp hname
    exact (hregular.names x hx).1 hfeed

namespace FileWitness

/-- A conjunction with degenerate operands and a carriage return in a name. -/
def sample : Expression :=
  node .and [node .or [literal "a" true], node .not [node .and []], literal "b\rc" true]

/-- A conjunction in which a name of the second operand breaks the line. -/
def broken : Expression :=
  node .and [literal "x" true, node .or [literal "y" true, literal "p\nq" false]]

theorem read_write_formula_sample :
    (sample.WellFormed ∧ sample.isFormula = true ∧ (∀ name ∈ sample.names, '\x22' ∉ name.toList) ∧
      (∀ name ∈ sample.names, '\n' ∉ name.toList) ∧
      read (write sample).toUTF8 =
        .ok (node .and [literal "a" true, node .not [truth true], literal "b\rc" true])) ∧
      (broken.WellFormed ∧ broken.isFormula = true ∧
        (∀ name ∈ broken.names, '\x22' ∉ name.toList) ∧
        (∃ name ∈ broken.names, '\n' ∈ name.toList) ∧
        ∃ n, read (write broken).toUTF8 = .error (.line n .malformed)) ∧
      (ofText sample.text = .ok sample.collapse ∧ sample.collapse.isFormula = true) ∧
      read (write sample.collapse).toUTF8 = .ok sample.collapse := by
  obtain ⟨hwritten, htext, hfile⟩ := read_write_formula
  have hsample : sample.WellFormed := by decide +kernel
  have hquote : ∀ name ∈ sample.names, '\x22' ∉ name.toList := by decide +kernel
  have hfree : ∀ name ∈ sample.names, '\n' ∉ name.toList := by decide +kernel
  have hbroken : broken.WellFormed := by decide +kernel
  have hclean : ∀ name ∈ broken.names, '\x22' ∉ name.toList := by decide +kernel
  have hfeed : ∃ name ∈ broken.names, '\n' ∈ name.toList := by decide +kernel
  have hread := (hwritten sample hsample rfl hquote).1 hfree
  have hparsed : ofText sample.text = .ok sample.collapse :=
    ofText_eq_collapse hsample rfl (quoteFree_iff.mpr hquote)
  refine ⟨⟨hsample, rfl, hquote, hfree, hread.trans ?_⟩,
    ⟨hbroken, rfl, hclean, hfeed, (hwritten broken hbroken rfl hclean).2 hfeed⟩,
    ⟨hparsed, (htext _ _ hparsed).2.1⟩, (hfile _ _ hread).2⟩
  simp [sample, collapse_node, collapseNode, literal, truth]

end FileWitness

end ClauseForm.FormulaFile
