import ClauseForm.Proofs.DimacsRoundTrip

/-!
Comments in a file with clauses may stand anywhere and in any order.

Names are given to indices as the comments come, substitutes are added at the end, and a conflict
shows wherever the second of two entries that do not fit happens to stand.  `read_eq_ok_iff` says
what is read of a text without any order among its comments, failures included, so `read_comments`
follows: a file is read as any other with the same clauses on its lines and the same comments.
-/

namespace ClauseForm.Dimacs

open Text ClauseForm.Numbering

variable {m n : Numbering} {found e : Encoding} {name : String} {i : Int} {ks : List Nat}

/-! ### What a comment names -/

/-- White space between two pieces of a line. -/
def IsSpace (cs : List Char) : Prop := cs ≠ [] ∧ ∀ c ∈ cs, isGap c = true

/-- A comment of the form `c <index> <name>`, with the name up to the white space at its end. -/
def Names (comment : List Char) (i : Int) (name : String) : Prop :=
  ∃ first number second rest : List Char,
    comment = 'c' :: (first ++ number ++ second ++ rest) ∧ IsSpace first ∧ IsSpace second ∧
    (∀ c ∈ number, isGap c = false) ∧ readInt32 number = .ok i ∧ 0 < i ∧
    name.toList = trim rest ∧ name ≠ ""

/-- If something is left of a line, white space stands between it and the first piece. -/
theorem eq_append_of_cut {cs word rest : List Char} (h : cut cs = (word, rest))
    (hrest : rest ≠ []) : ∃ gap, cs = word ++ gap ++ rest ∧ IsSpace gap ∧ ∀ c ∈ word, isGap c = false := by
  obtain ⟨rfl, rfl⟩ := Prod.mk.inj h
  refine ⟨(cs.dropWhile (!isGap ·)).takeWhile isGap, ?_, ⟨?_, fun c => List.mem_takeWhile_imp⟩, ?_⟩
  · rw [List.append_assoc, List.takeWhile_append_dropWhile, List.takeWhile_append_dropWhile]
  · cases hbehind : cs.dropWhile (!isGap ·) with
    | nil => exact absurd (by rw [hbehind]; rfl) hrest
    | cons d ds =>
        have hgap : isGap d = true := by
          have hhead := List.head?_dropWhile_not (!isGap ·) cs
          simpa [hbehind] using hhead
        simp [hgap]
  · exact fun c hc => by simpa using List.mem_takeWhile_imp hc

/-- What is cut off behind a piece is the rest behind the white space. -/
theorem cut_append_space {word gap rest : List Char} (hword : ∀ c ∈ word, isGap c = false)
    (hgap : IsSpace gap) : cut (word ++ (gap ++ rest)) = (word, rest.dropWhile isGap) := by
  obtain ⟨d, ds, rfl⟩ := List.exists_cons_of_ne_nil hgap.1
  have hd : isGap d = true := hgap.2 d List.mem_cons_self
  rw [cut_append hword (by simp [hd]), List.dropWhile_append_of_pos hgap.2]

/-- A comment gives a name to an index if it has the form for that. -/
theorem naming?_eq_some_iff {comment : List Char} :
    naming? comment = some (i, name) ↔ Names comment i name := by
  constructor
  · intro h
    rcases hmark : cut comment with ⟨mark, behind⟩
    rcases hnumber : cut behind with ⟨number, rest⟩
    simp only [naming?, hmark, hnumber] at h
    split at h
    · next hkept =>
        simp only [Bool.and_eq_true, beq_iff_eq, Bool.not_eq_true',
          List.isEmpty_eq_false_iff] at hkept
        obtain ⟨rfl, hname⟩ := hkept
        split at h
        · next index hindex =>
            split at h
            · next hpositive =>
                obtain ⟨rfl, rfl⟩ := Prod.mk.inj (Option.some.inj h)
                have hrest : rest ≠ [] := by
                  rintro rfl
                  exact hname rfl
                obtain ⟨second, rfl, hsecond, hdigits⟩ := eq_append_of_cut hnumber hrest
                obtain ⟨first, rfl, hfirst, -⟩ := eq_append_of_cut hmark (by simp [hrest])
                refine ⟨first, number, second, rest, ?_, hfirst, hsecond, hdigits, hindex,
                  hpositive, String.toList_ofList .., ?_⟩
                · simp
                · simpa using hname
            · contradiction
        · contradiction
    · contradiction
  · rintro ⟨first, number, second, rest, rfl, hfirst, hsecond, hdigits, hindex, hpositive, hname,
      hne⟩
    have hnumber : number ≠ [] := by
      rintro rfl
      have hempty : readInt32 [] = .error .empty := rfl
      rw [hempty] at hindex
      cases hindex
    have hmark : cut ('c' :: (first ++ number ++ second ++ rest)) =
        (['c'], number ++ (second ++ rest)) := by
      obtain ⟨d, ds, rfl⟩ := List.exists_cons_of_ne_nil hnumber
      have hd : isGap d = false := hdigits d List.mem_cons_self
      have hline : 'c' :: (first ++ d :: ds ++ second ++ rest) =
          ['c'] ++ (first ++ (d :: ds ++ (second ++ rest))) := by simp
      rw [hline, cut_append_space (List.forall_mem_singleton.mpr (by decide)) hfirst,
        List.cons_append, List.dropWhile_cons_of_neg (by simp [hd])]
    have hkept : trim (rest.dropWhile isGap) = name.toList := by
      rw [trim_dropWhile fun _ => isBlank_of_isGap, hname]
    have hvisible : name.toList ≠ [] := by simpa using hne
    simp only [naming?, hmark, cut_append_space hdigits hsecond, hkept, hindex, hpositive, if_true]
    simp [hvisible]

/-! ### What the lines add together -/

/-- The lines of a text without the white space at their ends. -/
def contents (text : String) : List (List Char) :=
  (lines text.toUTF8).filterMap fun line => line.map fun l => trim l.toList

/-- A comment is a line that starts with `c`. -/
def isComment (line : List Char) : Bool := line.head? == some 'c'

/-- The line of a clause is neither empty nor a comment nor the line with the counts. -/
def isClauseLine (line : List Char) : Bool :=
  !line.isEmpty && line.head? != some 'c' && line.head? != some 'p'

/-- The comments of a text. -/
def comments (text : String) : List (List Char) := (contents text).filter isComment

/-- The lines of clauses of a text. -/
def clauseLines (text : String) : List (List Char) := (contents text).filter isClauseLine

/-- The indices that some comments name, with the names. -/
def namings (comments : List (List Char)) : List (Int × String) := comments.filterMap naming?

/-- The lines of a text, and what is left of them without the white space at their ends. -/
theorem exists_lines_contents_eq (text : String) : ∃ ls : List String,
    lines text.toUTF8 = ls.map some ∧ contents text = ls.map fun l => trim l.toList := by
  obtain ⟨ls, hls⟩ := exists_lines_eq text.toList
  rw [String.ofList_toList] at hls
  refine ⟨ls, hls, ?_⟩
  rw [contents, hls, List.filterMap_map]
  exact congrFun List.filterMap_eq_map ls

/-- What lines add to what was found before them: their clauses can be read and are added, and their
names can be inserted.  Neither depends on the other. -/
structure Adds (ls : List (List Char)) (found e : Encoding) : Prop where
  clauses : ∃ cs, (ls.filter isClauseLine).mapM readClause = .ok cs ∧
    e.clauses.toList = found.clauses.toList ++ cs
  names : found.numbering.insertAll (namings (ls.filter isComment)) = .ok e.numbering

theorem namings_append (first second : List (List Char)) :
    namings (first ++ second) = namings first ++ namings second :=
  List.filterMap_append

/-- Lines after other lines add to what these have added. -/
theorem adds_append_iff {first second : List (List Char)} :
    Adds (first ++ second) found e ↔ ∃ next, Adds first found next ∧ Adds second next e := by
  constructor
  · rintro ⟨⟨all, hall, hclauses⟩, hnames⟩
    rw [List.filter_append, List.mapM_append] at hall
    rw [List.filter_append, namings_append, insertAll_append] at hnames
    obtain ⟨cs, hcs, hall⟩ := except_bind_eq_ok hall
    obtain ⟨ds, hds, hall⟩ := except_bind_eq_ok hall
    obtain rfl := Except.ok.inj hall
    obtain ⟨n, hn, hnames⟩ := except_bind_eq_ok hnames
    refine ⟨⟨⟨found.clauses.toList ++ cs⟩, n⟩, ⟨⟨cs, hcs, rfl⟩, hn⟩, ⟨ds, hds, ?_⟩, hnames⟩
    rw [hclauses, List.append_assoc]
  · rintro ⟨next, ⟨⟨cs, hcs, hfirst⟩, hn⟩, ⟨ds, hds, hsecond⟩, hnames⟩
    refine ⟨⟨cs ++ ds, ?_, ?_⟩, ?_⟩
    · rw [List.filter_append, List.mapM_append, hcs, hds]
      rfl
    · rw [hsecond, hfirst, List.append_assoc]
    · rw [List.filter_append, namings_append, insertAll_append, hn]
      exact hnames

theorem adds_nil_iff : Adds [] found e ↔ found = e := by
  constructor
  · rintro ⟨⟨cs, hcs, hclauses⟩, hnames⟩
    obtain rfl := Except.ok.inj hcs
    obtain ⟨⟨clauses⟩, numbering⟩ := e
    obtain ⟨⟨before⟩, _⟩ := found
    obtain rfl := Except.ok.inj hnames
    obtain rfl : clauses = before := hclauses.trans (List.append_nil before)
    rfl
  · rintro rfl
    exact ⟨⟨[], rfl, (List.append_nil _).symm⟩, rfl⟩

/-- A line with no clause adds what it names. -/
theorem adds_singleton_iff {line : List Char} (hline : isClauseLine line = false) :
    Adds [line] found e ↔
      found.clauses = e.clauses ∧
        found.numbering.insertAll (namings ([line].filter isComment)) = .ok e.numbering := by
  have hnone : [line].filter isClauseLine = [] := by simp [hline]
  constructor
  · rintro ⟨⟨cs, hcs, hclauses⟩, hnames⟩
    rw [hnone] at hcs
    obtain rfl := Except.ok.inj hcs
    exact ⟨(congrArg Clauses.mk (hclauses.trans (List.append_nil _))).symm, hnames⟩
  · rintro ⟨hclauses, hnames⟩
    exact ⟨⟨[], by rw [hnone]; rfl, by rw [hclauses, List.append_nil]⟩, hnames⟩

/-- A line that names nothing and has no clause adds nothing. -/
theorem adds_singleton_iff_eq {line : List Char} (hline : isClauseLine line = false)
    (hnames : namings ([line].filter isComment) = []) : Adds [line] found e ↔ found = e := by
  rw [adds_singleton_iff hline, hnames]
  constructor
  · rintro ⟨hclauses, hnumbering⟩
    obtain ⟨clauses, numbering⟩ := e
    obtain rfl : found.clauses = clauses := hclauses
    obtain rfl : found.numbering = numbering := Except.ok.inj hnumbering
    rfl
  · rintro rfl
    exact ⟨rfl, rfl⟩

/-- A comment is read if what it names can be inserted. -/
theorem addLine_comment_eq_ok_iff {l : String} {ds : List Char}
    (hline : trim l.toList = 'c' :: ds) :
    addLine found (some l) = .ok e ↔ Adds ['c' :: ds] found e := by
  rw [addLine_of_comment hline]
  cases hnaming : naming? ('c' :: ds) with
  | none =>
      have hnames : namings (['c' :: ds].filter isComment) = [] := List.filterMap_cons_none hnaming
      rw [adds_singleton_iff_eq rfl hnames]
      exact iff_of_eq (Except.ok.injEq ..)
  | some entry =>
      have hnames : namings (['c' :: ds].filter isComment) = [entry] :=
        List.filterMap_cons_some hnaming
      rw [adds_singleton_iff rfl, hnames, insertAll_singleton]
      cases hinsert : found.numbering.insert entry.2 entry.1 with
      | error fault =>
          dsimp only
          rw [hinsert]
          constructor
          · intro h
            cases h
          · rintro ⟨-, hnumbering⟩
            cases hnumbering
      | ok n =>
          dsimp only
          rw [hinsert]
          constructor
          · intro h
            obtain rfl := Except.ok.inj h
            exact ⟨rfl, rfl⟩
          · rintro ⟨hclauses, hnumbering⟩
            obtain ⟨clauses, numbering⟩ := e
            obtain rfl : found.clauses = clauses := hclauses
            obtain rfl : n = numbering := Except.ok.inj hnumbering
            rfl

/-- The line of a clause is read if the clause can be read. -/
theorem addLine_clause_eq_ok_iff {l : String} {d : Char} {ds : List Char}
    (hline : trim l.toList = d :: ds) (hcounts : d ≠ 'p') (hcomment : d ≠ 'c') :
    addLine found (some l) = .ok e ↔ Adds [d :: ds] found e := by
  have hclause : [d :: ds].filter isClauseLine = [d :: ds] := by
    simp [isClauseLine, hcounts, hcomment]
  have hnames : namings ([d :: ds].filter isComment) = [] := by
    simp [isComment, hcomment, namings]
  rw [addLine_of_clause hline hcounts hcomment]
  constructor
  · intro h
    obtain ⟨c, hc, h⟩ := except_bind_eq_ok h
    obtain rfl := Except.ok.inj h
    refine ⟨⟨[c], ?_, rfl⟩, by rw [hnames]; rfl⟩
    rw [hclause, List.mapM_cons, hc]
    rfl
  · rintro ⟨⟨cs, hcs, hclauses⟩, hnumbering⟩
    rw [hclause, List.mapM_cons] at hcs
    rw [hnames] at hnumbering
    obtain ⟨c, hc, hcs⟩ := except_bind_eq_ok hcs
    obtain rfl := Except.ok.inj hcs
    obtain ⟨⟨clauses⟩, numbering⟩ := e
    obtain rfl : clauses = found.clauses.toList ++ [c] := hclauses
    obtain rfl : found.numbering = numbering := Except.ok.inj hnumbering
    rw [hc]
    rfl

/-- A line is read if what it adds can be added. -/
theorem addLine_eq_ok_iff {l : String} :
    addLine found (some l) = .ok e ↔ Adds [trim l.toList] found e := by
  cases hline : trim l.toList with
  | nil =>
      rw [addLine_of_blank hline, adds_singleton_iff_eq rfl rfl, Except.ok.injEq]
  | cons d ds =>
      by_cases hcomment : d = 'c'
      · subst hcomment
        exact addLine_comment_eq_ok_iff hline
      by_cases hcounts : d = 'p'
      · subst hcounts
        rw [addLine_of_counts hline, adds_singleton_iff_eq rfl rfl, Except.ok.injEq]
      · exact addLine_clause_eq_ok_iff hline hcounts hcomment

/-- Lines are read if what they add can be added. -/
theorem foldlM_addLine_eq_ok_iff {ls : List String} :
    (ls.map some).foldlM addLine found = .ok e ↔
      Adds (ls.map fun l => trim l.toList) found e := by
  induction ls generalizing found with
  | nil => exact (iff_of_eq (Except.ok.injEq ..)).trans adds_nil_iff.symm
  | cons l ls ih =>
      rw [List.map_cons, List.map_cons, List.foldlM_cons, ← List.singleton_append, adds_append_iff]
      constructor
      · intro h
        obtain ⟨next, hnext, hrest⟩ := except_bind_eq_ok h
        exact ⟨next, addLine_eq_ok_iff.mp hnext, ih.mp hrest⟩
      · rintro ⟨next, hnext, hrest⟩
        rw [addLine_eq_ok_iff.mpr hnext]
        exact ih.mpr hrest

/-! ### What is read of a text -/

theorem mem_namings {cs : List (List Char)} :
    (i, name) ∈ namings cs ↔ ∃ comment ∈ cs, Names comment i name := by
  simp only [namings, List.mem_filterMap, naming?_eq_some_iff]

/-- What a text says: the clauses on its lines in order, the names in its comments, and substitutes
for the other indices of the clauses.  The largest index is the largest one that has a name. -/
structure Describes (text : String) (e : Encoding) : Prop where
  clauses : (clauseLines text).mapM readClause = .ok e.clauses.toList
  names : ∀ i name, e.numbering.nameOf? i = some name ↔
    (∃ comment ∈ comments text, Names comment i name) ∨
      (∀ comment ∈ comments text, ∀ other, ¬ Names comment i other) ∧
        ∃ k ∈ e.clauses.indices, (k : Int) = i ∧ substitute k = name
  valid : e.numbering.Valid
  greatest : IsGreatest ({0} ∪ {i | e.numbering.Mapped i}) e.numbering.maxIndex

/-- The lines of a text are read if what they add can be added. -/
theorem foldlM_lines_eq_ok_iff {text : String} :
    (lines text.toUTF8).foldlM addLine ⟨.empty, .empty⟩ = .ok found ↔
      (clauseLines text).mapM readClause = .ok found.clauses.toList ∧
        Numbering.empty.insertAll (namings (comments text)) = .ok found.numbering := by
  obtain ⟨ls, hlines, hcontents⟩ := exists_lines_contents_eq text
  rw [hlines, foldlM_addLine_eq_ok_iff, ← hcontents]
  constructor
  · rintro ⟨⟨cs, hcs, hclauses⟩, hnames⟩
    rw [hclauses]
    exact ⟨hcs, hnames⟩
  · rintro ⟨hclauses, hnames⟩
    exact ⟨⟨_, hclauses, rfl⟩, hnames⟩

/-- The indices that occur can be named if the substitutes can be inserted. -/
theorem nameAll_eq_ok_iff :
    nameAll found = .ok e ↔
      found.clauses = e.clauses ∧
        found.numbering.insertAll (substitutes found.numbering e.clauses.indices) =
          .ok e.numbering := by
  rw [nameAll_eq, foldlM_nameIndex (nodup_indices _)]
  constructor
  · intro h
    obtain ⟨grown, hgrown, rfl⟩ := map_eq_ok h
    exact ⟨rfl, mapError_eq_ok hgrown⟩
  · obtain ⟨clauses, numbering⟩ := e
    rintro ⟨rfl, hinsert⟩
    dsimp only at hinsert
    rw [hinsert]
    rfl

theorem read_eq_ok_iff_exists {text : String} :
    read text.toUTF8 = .ok e ↔ ∃ n : Numbering,
      (clauseLines text).mapM readClause = .ok e.clauses.toList ∧
        Numbering.empty.insertAll (namings (comments text)) = .ok n ∧
        n.insertAll (substitutes n e.clauses.indices) = .ok e.numbering := by
  constructor
  · intro h
    obtain ⟨found, hlines, hnamed⟩ := except_bind_eq_ok h
    obtain ⟨hclauses, hnames⟩ := foldlM_lines_eq_ok_iff.mp hlines
    obtain ⟨hsame, hinsert⟩ := nameAll_eq_ok_iff.mp hnamed
    exact ⟨found.numbering, hsame ▸ hclauses, hnames, hinsert⟩
  · rintro ⟨n, hclauses, hnames, hinsert⟩
    have hlines : (lines text.toUTF8).foldlM addLine ⟨.empty, .empty⟩ = .ok ⟨e.clauses, n⟩ :=
      foldlM_lines_eq_ok_iff.mpr ⟨hclauses, hnames⟩
    rw [read, hlines]
    exact nameAll_eq_ok_iff.mpr ⟨rfl, hinsert⟩

/-- The names that comments have given, before the substitutes. -/
theorem nameOf?_of_insertAll_namings {cs : List (List Char)}
    (h : Numbering.empty.insertAll (namings cs) = .ok n) :
    n.nameOf? i = some name ↔ ∃ comment ∈ cs, Names comment i name := by
  obtain ⟨hvalid, hentries⟩ := mem_entries_insertAll exact_empty.valid h
  rw [hvalid.nameOf?_eq_some_iff, hentries, mem_namings]
  exact or_iff_right List.not_mem_nil

theorem mem_substitutes_of_insertAll_namings {cs : List (List Char)}
    (h : Numbering.empty.insertAll (namings cs) = .ok n) {ks : List Nat} :
    (i, name) ∈ substitutes n ks ↔
      (∀ comment ∈ cs, ∀ other, ¬ Names comment i other) ∧
        ∃ k ∈ ks, (k : Int) = i ∧ substitute k = name := by
  rw [mem_substitutes, Option.eq_none_iff_forall_ne_some]
  refine and_congr_left fun _ => ?_
  simp only [ne_eq, nameOf?_of_insertAll_namings h, not_exists, not_and]
  exact ⟨fun hnone comment hc other => hnone other comment hc,
    fun hnone other comment hc => hnone comment hc other⟩

/-- A text is read as what it says, and can be read if it says anything. -/
theorem read_eq_ok_iff {text : String} : read text.toUTF8 = .ok e ↔ Describes text e := by
  constructor
  · intro h
    obtain ⟨n, hclauses, hnames, hinsert⟩ := read_eq_ok_iff_exists.mp h
    have hn : n.Exact := exact_empty.insertAll hnames
    obtain ⟨hvalid, hentries⟩ := mem_entries_insertAll hn.valid hinsert
    have hexact : e.numbering.Exact := hn.insertAll hinsert
    refine ⟨hclauses, fun i name => ?_, hvalid, hexact.greatest⟩
    rw [hvalid.nameOf?_eq_some_iff, hentries, ← hn.valid.nameOf?_eq_some_iff,
      nameOf?_of_insertAll_namings hnames, mem_substitutes_of_insertAll_namings hnames]
  · rintro ⟨hclauses, hnames, hall, hgreatest⟩
    have hexact : e.numbering.Exact := ⟨hall, hgreatest⟩
    have hnamed : ∀ i name, (i, name) ∈ e.numbering.entries ↔ _ := fun i name =>
      hexact.valid.nameOf?_eq_some_iff.symm.trans (hnames i name)
    -- The entries that the text asks for are all in one valid numbering, so none of them conflict.
    obtain ⟨n, hn⟩ : ∃ n, Numbering.empty.insertAll (namings (comments text)) = .ok n := by
      refine exists_insertAll_eq_ok exact_empty.valid hexact.valid (List.nil_subset _) ?_
      rintro ⟨i, name⟩ hentry
      exact (hnamed i name).mpr (Or.inl (mem_namings.mp hentry))
    have hexactn : n.Exact := exact_empty.insertAll hn
    have hpart : ∀ i name, (i, name) ∈ n.entries ↔
        ∃ comment ∈ comments text, Names comment i name := fun i name =>
      hexactn.valid.nameOf?_eq_some_iff.symm.trans (nameOf?_of_insertAll_namings hn)
    obtain ⟨grown, hgrown⟩ : ∃ grown,
        n.insertAll (substitutes n e.clauses.indices) = .ok grown := by
      refine exists_insertAll_eq_ok hexactn.valid hexact.valid ?_ ?_
      · rintro ⟨i, name⟩ hentry
        exact (hnamed i name).mpr (Or.inl ((hpart i name).mp hentry))
      · rintro ⟨i, name⟩ hentry
        exact (hnamed i name).mpr (Or.inr ((mem_substitutes_of_insertAll_namings hn).mp hentry))
    have hsame : grown = e.numbering := by
      refine (hexactn.insertAll hgrown).eq_of_mem_iff hexact ?_
      rintro ⟨i, name⟩
      rw [(mem_entries_insertAll hexactn.valid hgrown).2, hpart,
        mem_substitutes_of_insertAll_namings hn, hnamed]
    exact read_eq_ok_iff_exists.mpr ⟨n, hclauses, hn, hsame ▸ hgrown⟩

/-- What a text says depends on the clauses on its lines and on which comments there are. -/
theorem Describes.congr {s t : String} (h : Describes s e)
    (hclauses : clauseLines s = clauseLines t)
    (hcomments : ∀ comment, comment ∈ comments s ↔ comment ∈ comments t) : Describes t e := by
  refine ⟨hclauses ▸ h.clauses, ?_, h.valid, h.greatest⟩
  simpa only [hcomments] using h.names

/-- What is read of a text is what it says, whatever the order of its comments: two texts with the
same clauses on their lines and the same comments, in any order and at any places, are read as the
same, or neither can be read. -/
theorem read_comments :
    (∀ (text : String) (e : Encoding), read text.toUTF8 = .ok e ↔ Describes text e) ∧
      ∀ s t : String, clauseLines s = clauseLines t → (comments s).Perm (comments t) →
        (∃ e, read s.toUTF8 = .ok e ∧ read t.toUTF8 = .ok e) ∨
          ∃ failure other, read s.toUTF8 = .error failure ∧ read t.toUTF8 = .error other := by
  refine ⟨fun text e => read_eq_ok_iff, fun s t hclauses hcomments => ?_⟩
  have hsame : ∀ e, read s.toUTF8 = .ok e ↔ read t.toUTF8 = .ok e := fun e => by
    rw [read_eq_ok_iff, read_eq_ok_iff]
    exact ⟨fun h => h.congr hclauses fun _ => hcomments.mem_iff,
      fun h => h.congr hclauses.symm fun _ => hcomments.mem_iff.symm⟩
  cases hs : read s.toUTF8 with
  | ok e => exact Or.inl ⟨e, rfl, (hsame e).mp hs⟩
  | error failure =>
      cases ht : read t.toUTF8 with
      | ok e =>
          rw [(hsame e).mpr ht] at hs
          contradiction
      | error other => exact Or.inr ⟨failure, other, rfl, rfl⟩

namespace CommentsWitness

/-- The text of some lines. -/
def ofLines (ls : List String) : String := String.join (ls.map (· ++ "\n"))

theorem contents_ofLines {ls : List String} (hls : ∀ l ∈ ls, '\n' ∉ l.toList) :
    contents (ofLines ls) = ls.map fun l => trim l.toList := by
  rw [contents, ofLines, lines_join hls, List.filterMap_map]
  have hline : ∀ l ∈ ls, ((fun line : Option String => line.map fun l => trim l.toList) ∘
      fun l : String => some (String.ofList (withoutReturn l.toList))) l =
        some (trim l.toList) := fun l _ => by
    rw [Function.comp_apply, Option.map_some, String.toList_ofList, trim_withoutReturn]
  exact (List.filterMap_congr hline).trans (congrFun List.filterMap_eq_map ls)

/-- Two texts with the same comments in another order. -/
def first : List String := ["c 1 a", "-2 0", "c note", "0", "c 3 b"]

def second : List String := ["c 3 b", "", "p cnf 9 9", " c note\t", "-2 0", "0", "c 1 a"]

/-- Two texts with a comment in conflict with a substitute, which stands before the clause in the
one and behind it in the other. -/
def early : List String := ["c 1 v2", "2 0"]

def late : List String := ["2 0", "c 1 v2"]

theorem read_comments_sample :
    (clauseLines (ofLines first) = clauseLines (ofLines second) ∧
      (comments (ofLines first)).Perm (comments (ofLines second)) ∧
      ∃ e, read (ofLines first).toUTF8 = .ok e ∧ read (ofLines second).toUTF8 = .ok e ∧
        e.numbering.entries = [(1, "a"), (2, "v2"), (3, "b")]) ∧
    clauseLines (ofLines early) = clauseLines (ofLines late) ∧
      (comments (ofLines early)).Perm (comments (ofLines late)) ∧
      ∃ failure other, read (ofLines early).toUTF8 = .error failure ∧
        read (ofLines late).toUTF8 = .error other := by
  have hfirst : contents (ofLines first) = _ := contents_ofLines (by decide +kernel)
  have hsecond : contents (ofLines second) = _ := contents_ofLines (by decide +kernel)
  have hearly : contents (ofLines early) = _ := contents_ofLines (by decide +kernel)
  have hlate : contents (ofLines late) = _ := contents_ofLines (by decide +kernel)
  have hread : read (ofLines first).toUTF8 =
      .ok ⟨⟨[⟨#[-2]⟩, ⟨#[]⟩]⟩, ⟨[(1, "a"), (2, "v2"), (3, "b")], 3⟩⟩ := by
    rw [read, ofLines, foldlM_lines (by decide +kernel)]
    decide +kernel
  have hconflict : read (ofLines early).toUTF8 = .error (.naming (.nameTaken "v2")) := by
    rw [read, ofLines, foldlM_lines (by decide +kernel)]
    decide +kernel
  obtain ⟨-, hsame⟩ := read_comments
  have hclauses : clauseLines (ofLines first) = clauseLines (ofLines second) := by
    rw [clauseLines, clauseLines, hfirst, hsecond]
    decide +kernel
  have hcomments : (comments (ofLines first)).Perm (comments (ofLines second)) := by
    rw [comments, comments, hfirst, hsecond]
    decide +kernel
  have hother : clauseLines (ofLines early) = clauseLines (ofLines late) := by
    rw [clauseLines, clauseLines, hearly, hlate]
    decide +kernel
  have hnames : (comments (ofLines early)).Perm (comments (ofLines late)) := by
    rw [comments, comments, hearly, hlate]
    decide +kernel
  refine ⟨⟨hclauses, hcomments, ?_⟩, hother, hnames, ?_⟩
  · rcases hsame _ _ hclauses hcomments with ⟨e, hs, ht⟩ | ⟨_, _, hs, -⟩
    · refine ⟨e, hs, ht, ?_⟩
      obtain rfl := Except.ok.inj (hread.symm.trans hs)
      rfl
    · rw [hread] at hs
      contradiction
  · rcases hsame _ _ hother hnames with ⟨e, hs, -⟩ | hfail
    · rw [hconflict] at hs
      contradiction
    · exact hfail

end CommentsWitness

end ClauseForm.Dimacs
