import ClauseForm.Proofs.DimacsRoundTrip

/-!
Which names come back from a written file.

Names are written as they are.  What is read of one that takes up no further line is the name
without the white space at its ends, and nothing if that leaves nothing; the clauses are not
affected then.  `read_of_write` states this, and that the clauses and all names come back exactly if
every name is one that a comment can give.  A name with a line feed can even add an empty clause.
-/

namespace ClauseForm.Dimacs

open Text ClauseForm.Numbering

variable {m n : Numbering} {e : Encoding} {clauses : Clauses} {name : String} {i : Int}

/-! ### What is read of the names -/

theorem mem_namesRead {entries : List (Int × String)} :
    (i, name) ∈ namesRead entries ↔ ∃ raw, (i, raw) ∈ entries ∧ nameRead? raw = some name := by
  simp only [namesRead, List.mem_filterMap, Option.map_eq_some_iff, Prod.mk.injEq]
  constructor
  · rintro ⟨⟨j, raw⟩, hentry, kept, hkept, rfl, rfl⟩
    exact ⟨raw, hentry, hkept⟩
  · rintro ⟨raw, hentry, hkept⟩
    exact ⟨(i, raw), hentry, name, hkept, rfl, rfl⟩

/-- After the comments with names, an index has what was read of its name. -/
theorem nameOf?_of_insertAll_namesRead (hm : m.Valid)
    (h : empty.insertAll (namesRead m.entries) = .ok n) :
    n.Valid ∧ ∀ i, n.nameOf? i = (m.nameOf? i).bind nameRead? := by
  obtain ⟨hn, hentries⟩ := mem_entries_insertAll exact_empty.valid h
  refine ⟨hn, fun i => Option.ext fun name => ?_⟩
  have hfirst : (i, name) ∉ empty.entries := List.not_mem_nil
  rw [hn.nameOf?_eq_some_iff, hentries, or_iff_right hfirst, mem_namesRead,
    Option.bind_eq_some_iff]
  simp only [hm.nameOf?_eq_some_iff]

/-- In the numbering that is read, an index has what was read of its name, and if that is nothing
but the index occurs, its substitute. -/
theorem nameOf?_of_numberingRead (hm : m.Valid) (h : numberingRead clauses m = .ok n) :
    n.nameOf? i = some name ↔
      (m.nameOf? i).bind nameRead? = some name ∨
        (m.nameOf? i).bind nameRead? = none ∧
          ∃ k ∈ clauses.indices, (k : Int) = i ∧ substitute k = name := by
  obtain ⟨first, hfirst, hsecond⟩ := except_bind_eq_ok h
  obtain ⟨hvalid, hname⟩ := nameOf?_of_insertAll_namesRead hm hfirst
  obtain ⟨hn, hentries⟩ := mem_entries_insertAll hvalid hsecond
  rw [hn.nameOf?_eq_some_iff, hentries, mem_substitutes, ← hvalid.nameOf?_eq_some_iff, hname]

/-! ### Reading a written file -/

section

variable (hclauses : ∀ c ∈ clauses.toList, c.Valid) (hm : m.Valid)
  (hmax : m.maxIndex ≤ largestIndex) (hread : read (write ⟨clauses, m⟩).toUTF8 = .ok e)

include hclauses hm hmax hread

/-- If no name takes up a further line, the clauses come back, with what is read of the names. -/
theorem read_of_write_lines (hfeed : ∀ name ∈ m.names, '\n' ∉ name.toList) :
    e.clauses = clauses ∧ numberingRead clauses m = .ok e.numbering := by
  rw [read_write_eq_numberingRead hclauses hm hmax hfeed] at hread
  obtain ⟨numbering, hnumbering, rfl⟩ := map_eq_ok hread
  exact ⟨rfl, mapError_eq_ok hnumbering⟩

/-- If all names are ones that comments can give, they come back. -/
theorem nameOf?_of_read_write (hnames : ∀ name ∈ m.names, IsName name)
    (hname : m.nameOf? i = some name) : e.numbering.nameOf? i = some name := by
  have hmem : name ∈ m.names :=
    List.mem_map_of_mem (hm.nameOf?_eq_some_iff.mp hname)
  obtain ⟨-, hnumbering⟩ := read_of_write_lines hclauses hm hmax hread fun name hname =>
    (hnames name hname).line.feed
  refine (nameOf?_of_numberingRead hm hnumbering).mpr (Or.inl ?_)
  rw [hname, Option.bind_some, (hnames name hmem).nameRead?_eq]

omit hclauses hmax in
/-- Names that come back are ones that comments can give, as all names that are read. -/
theorem isName_of_read_write
    (hnames : ∀ i name, m.nameOf? i = some name → e.numbering.nameOf? i = some name) :
    ∀ name ∈ m.names, IsName name := by
  intro name hname
  obtain ⟨⟨i, _⟩, hentry, rfl⟩ := List.mem_map.mp hname
  obtain ⟨hreadable, -⟩ := readable_of_read hread
  have hback := hnames i _ (hm.nameOf?_eq_some_iff.mpr hentry)
  exact hreadable.names _
    (List.mem_map_of_mem (hreadable.exact.valid.nameOf?_eq_some_iff.mp hback))

/-- What is read from a written file is the clauses and the names exactly if all names are ones that
comments can give: not empty, without a line feed, and without white space at their ends.  If only
no name has a line feed, the clauses come back, each index with its name without the white space at
its ends; the indices that are left without a name get substitutes. -/
theorem read_of_write :
    ((e.clauses = clauses ∧
        ∀ i name, m.nameOf? i = some name → e.numbering.nameOf? i = some name) ↔
      ∀ name ∈ m.names, name ≠ "" ∧ '\n' ∉ name.toList ∧ trim name.toList = name.toList) ∧
    ((∀ name ∈ m.names, '\n' ∉ name.toList) →
      e.clauses = clauses ∧
        ∀ i name, e.numbering.nameOf? i = some name ↔
          (m.nameOf? i).bind nameRead? = some name ∨
            (m.nameOf? i).bind nameRead? = none ∧
              ∃ k ∈ clauses.indices, (k : Int) = i ∧ substitute k = name) := by
  constructor
  · constructor
    · rintro ⟨-, hnames⟩ name hname
      obtain ⟨hne, hfeed, htrim⟩ := isName_of_read_write hm hread hnames name hname
      exact ⟨by simpa using hne, hfeed, htrim⟩
    · intro hgood
      have hnames : ∀ name ∈ m.names, IsName name := by
        intro name hname
        obtain ⟨hne, hfeed, htrim⟩ := hgood name hname
        exact ⟨by simpa using hne, hfeed, htrim⟩
      obtain ⟨hsame, -⟩ := read_of_write_lines hclauses hm hmax hread fun name hname =>
        (hnames name hname).line.feed
      exact ⟨hsame, fun i name => nameOf?_of_read_write hclauses hm hmax hread hnames⟩
  · intro hfeed
    obtain ⟨hsame, hnumbering⟩ := read_of_write_lines hclauses hm hmax hread hfeed
    exact ⟨hsame, fun i name => nameOf?_of_numberingRead hm hnumbering⟩

end

namespace DimacsNamesWitness

/-- A clause with one literal. -/
def positive : Clauses := ⟨[⟨#[1]⟩]⟩

/-- A name with a line feed, behind which stands the line of an empty clause. -/
def twoLined : Numbering := ⟨[(1, "a\n0")], 1⟩

/-- What the file with that name is read as. -/
def misread : Encoding := ⟨⟨[⟨#[]⟩, ⟨#[1]⟩]⟩, ⟨[(1, "a")], 1⟩⟩

theorem valid_positive : ∀ c ∈ positive.toList, c.Valid :=
  List.forall_mem_singleton.mpr ⟨by decide, by decide⟩

theorem read_write_twoLined : read (write ⟨positive, twoLined⟩).toUTF8 = .ok misread := by
  have hlines : write ⟨positive, twoLined⟩ =
      String.join (["c 1 a", "0", "p cnf 1 1", "1 0"].map (· ++ "\n")) := by decide +kernel
  rw [read, hlines, foldlM_lines (by decide +kernel)]
  decide +kernel

/-- Names of which one is blank, one has white space at its ends, and one has it inside only. -/
def padded : Numbering := ⟨[(1, " "), (2, "\ta b "), (3, "c d")], 4⟩

theorem read_of_write_sample :
    twoLined.Valid ∧ read (write ⟨positive, twoLined⟩).toUTF8 = .ok misread ∧
      ¬ (misread.clauses = positive ∧
        ∀ i name, twoLined.nameOf? i = some name → misread.numbering.nameOf? i = some name) ∧
    padded.Valid ∧ ∃ e, read (write ⟨positive, padded⟩).toUTF8 = .ok e ∧ e.clauses = positive ∧
      e.numbering.nameOf? 1 = some "v1" ∧ e.numbering.nameOf? 2 = some "a b" ∧
      e.numbering.nameOf? 3 = some "c d" := by
  have htwo : twoLined.Valid := ⟨by decide, by decide, by decide, by decide⟩
  have hpadded : padded.Valid := ⟨by decide, by decide, by decide, by decide⟩
  refine ⟨htwo, read_write_twoLined, ?_, hpadded, ?_⟩
  · intro h
    obtain ⟨hexact, -⟩ := read_of_write valid_positive htwo (by decide) read_write_twoLined
    exact absurd (hexact.mp h) (by decide +kernel)
  · have hfeed : ∀ name ∈ padded.names, '\n' ∉ name.toList := by decide +kernel
    have hread : read (write ⟨positive, padded⟩).toUTF8 =
        .ok ⟨positive, ⟨[(1, "v1"), (2, "a b"), (3, "c d")], 3⟩⟩ := by
      rw [read_write_eq_numberingRead valid_positive hpadded (by decide) hfeed]
      decide +kernel
    obtain ⟨-, hlines⟩ := read_of_write valid_positive hpadded (by decide) hread
    obtain ⟨hsame, hnames⟩ := hlines hfeed
    refine ⟨_, hread, hsame, (hnames 1 "v1").mpr (Or.inr ?_), (hnames 2 "a b").mpr (Or.inl ?_),
      (hnames 3 "c d").mpr (Or.inl ?_)⟩
    · exact ⟨by decide +kernel, 1, mem_indices.mpr ⟨⟨#[1]⟩, by decide, 1, by decide, rfl⟩, rfl,
        by decide +kernel⟩
    · decide +kernel
    · decide +kernel

/-- A clause and a name whose file is read with an empty clause too, and with another name. -/
theorem read_write_misread :
    (∀ c ∈ positive.toList, c.Valid) ∧ twoLined.Valid ∧ twoLined.maxIndex ≤ largestIndex ∧
      ∃ e, read (write ⟨positive, twoLined⟩).toUTF8 = .ok e ∧ e.clauses ≠ positive ∧
        twoLined.nameOf? 1 = some "a\n0" ∧ e.numbering.nameOf? 1 = some "a" := by
  refine ⟨valid_positive, ⟨by decide, by decide, by decide, by decide⟩, by decide, misread,
    read_write_twoLined, by decide, rfl, rfl⟩

end DimacsNamesWitness

end ClauseForm.Dimacs
