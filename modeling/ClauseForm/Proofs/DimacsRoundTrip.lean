import ClauseForm.Proofs.DimacsLines
import ClauseForm.Proofs.ExactNumbering
import ClauseForm.Proofs.Faults
import ClauseForm.Proofs.TextLines

/-!
Reading back files with clauses.

Reading a written file gives the clauses and the names again, and names for the indices that had
none.  `read_write` states this for all clauses and all names that a comment can give; what is read
from any file is such a pair, so writing it and reading it back changes nothing.
-/

namespace ClauseForm.Dimacs

open Text ClauseForm.Numbering

variable {m : Numbering} {found e : Encoding} {clauses : Clauses} {name : String} {i : Int}

/-! ### The lines of a written file -/

theorem lineFeed_not_mem_fileLines (hfeed : ∀ name ∈ m.names, '\n' ∉ name.toList) :
    ∀ line ∈ fileLines ⟨clauses, m⟩, '\n' ∉ line.toList := by
  intro line hline
  rw [fileLines, List.mem_append, List.mem_append, List.mem_singleton] at hline
  rcases hline with (hline | rfl) | hline
  · obtain ⟨⟨i, name⟩, hentry, rfl⟩ := List.mem_map.mp hline
    exact lineFeed_not_mem_nameLine i (hfeed name (List.mem_map_of_mem hentry))
  · exact (isLine_countsLine ..).feed
  · obtain ⟨c, -, rfl⟩ := List.mem_map.mp hline
    exact (isLine_clauseLine c).feed

/-- Lines that are written one by one are read as they are: the carriage return that one may end
with is trimmed in any case. -/
theorem foldlM_lines {ls : List String} (hls : ∀ l ∈ ls, '\n' ∉ l.toList) (found : Encoding) :
    (lines (String.join (ls.map (· ++ "\n"))).toUTF8).foldlM addLine found =
      (ls.map some).foldlM addLine found := by
  rw [lines_join hls]
  clear hls
  induction ls generalizing found with
  | nil => rfl
  | cons l ls ih =>
      have hsame : addLine found (some (String.ofList (withoutReturn l.toList))) =
          addLine found (some l) :=
        addLine_congr (by rw [String.toList_ofList, trim_withoutReturn])
      rw [List.map_cons, List.map_cons, List.foldlM_cons, List.foldlM_cons, hsame]
      exact bind_congr ih

/-- The entries whose comments give a name, with what is read of it. -/
def namesRead (entries : List (Int × String)) : List (Int × String) :=
  entries.filterMap fun (i, name) => (nameRead? name).map fun kept => (i, kept)

theorem namesRead_cons (i : Int) (name : String) (entries : List (Int × String)) :
    namesRead ((i, name) :: entries) =
      match nameRead? name with
      | none => namesRead entries
      | some kept => (i, kept) :: namesRead entries := by
  rw [namesRead, List.filterMap_cons]
  dsimp only
  cases nameRead? name <;> rfl

/-- The comments with names insert what is read of them. -/
theorem foldlM_nameLines (found : Encoding) {entries : List (Int × String)}
    (hentries : ∀ entry ∈ entries, 0 < entry.1 ∧ entry.1 ≤ largestIndex) :
    (entries.map fun (i, name) => some s!"c {i} {name}").foldlM addLine found =
      ((found.numbering.insertAll (namesRead entries)).mapError Error.naming).map fun n =>
        { found with numbering := n } := by
  induction entries generalizing found with
  | nil => rfl
  | cons entry entries ih =>
      obtain ⟨i, name⟩ := entry
      obtain ⟨⟨hpositive, hi⟩, hrest⟩ := List.forall_mem_cons.mp hentries
      rw [List.map_cons, List.foldlM_cons, namesRead_cons]
      dsimp only
      rw [addLine_nameLine found hpositive hi]
      cases nameRead? name with
      | none => exact ih _ hrest
      | some kept =>
          dsimp only
          rw [insertAll_cons]
          cases hinsert : found.numbering.insert kept i with
          | error fault => rfl
          | ok grown => exact ih _ hrest

/-- The lines of clauses add these. -/
theorem foldlM_clauseLines {cs : List Clause} (hcs : ∀ c ∈ cs, c.Valid) :
    (cs.map fun c => some (clauseLine c)).foldlM addLine found =
      .ok { found with clauses := ⟨found.clauses.toList ++ cs⟩ } := by
  induction cs generalizing found with
  | nil => simp only [List.append_nil]; rfl
  | cons c cs ih =>
      obtain ⟨hc, hrest⟩ := List.forall_mem_cons.mp hcs
      rw [List.map_cons, List.foldlM_cons, addLine_clauseLine hc]
      exact (ih hrest).trans (by simp [Clauses.push])

theorem fresh_entries (hm : m.Valid) : empty.Fresh m.entries :=
  ⟨fun _ he => hm.positive _ (List.mem_map_of_mem he), hm.indices_nodup, hm.names_nodup,
    fun _ _ => List.not_mem_nil, fun _ _ => List.not_mem_nil⟩

/-- The lines of a written file give back the clauses and what is read of the names. -/
theorem foldlM_fileLines (hclauses : ∀ c ∈ clauses.toList, c.Valid) (hm : m.Valid)
    (hmax : m.maxIndex ≤ largestIndex) :
    ((fileLines ⟨clauses, m⟩).map some).foldlM addLine ⟨.empty, .empty⟩ =
      ((empty.insertAll (namesRead m.entries)).mapError Error.naming).map (⟨clauses, ·⟩) := by
  have hentries : ∀ entry ∈ m.entries, 0 < entry.1 ∧ entry.1 ≤ largestIndex := fun entry he =>
    ⟨hm.positive _ (List.mem_map_of_mem he),
      Int.le_trans (hm.bounded _ (List.mem_map_of_mem he)) hmax⟩
  have hlines : (fileLines ⟨clauses, m⟩).map some =
      (m.entries.map fun (i, name) => some s!"c {i} {name}") ++
        [some s!"p cnf {max (clauses.maxIndex : Int) m.maxIndex} {clauses.size}"] ++
        clauses.toList.map fun c => some (clauseLine c) := by
    simp only [fileLines, List.map_append, List.map_map, List.map_cons, List.map_nil]
    rfl
  have hrest : ∀ n : Numbering,
      ([some s!"p cnf {max (clauses.maxIndex : Int) m.maxIndex} {clauses.size}"] ++
        clauses.toList.map fun c => some (clauseLine c)).foldlM addLine ⟨.empty, n⟩ =
        .ok ⟨clauses, n⟩ := by
    intro n
    rw [List.singleton_append, List.foldlM_cons, addLine_countsLine]
    exact foldlM_clauseLines hclauses
  rw [hlines, List.append_assoc, List.foldlM_append, foldlM_nameLines _ hentries]
  dsimp only
  cases empty.insertAll (namesRead m.entries) with
  | error fault => rfl
  | ok n =>
      dsimp only [Except.mapError, Except.map, bind, Except.bind]
      rw [hrest]

/-! ### Names for the other indices -/

theorem toList_substitute (k : Nat) :
    (substitute k).toList = 'v' :: (toString (k : Int)).toList := by
  simp only [substitute, String.toList_append]
  rfl

theorem substitute_injective : Function.Injective substitute := by
  intro j k h
  have hdigits := congrArg String.toList h
  rw [toList_substitute, toList_substitute, List.cons.injEq, toList_toString_natCast,
    toList_toString_natCast] at hdigits
  rw [← Nat.ofDigitChars_ten_toDigits (n := j), hdigits.2, Nat.ofDigitChars_ten_toDigits]

theorem isName_substitute (k : Nat) : IsName (substitute k) := by
  obtain ⟨last, hlast⟩ :=
    Option.isSome_iff_exists.mp (List.getLast?_isSome.mpr (toString_ne_nil k))
  have htext := toList_substitute k
  refine ⟨by simp [htext], .of_ends 'v' last ?_ (by rw [htext]; rfl) ?_
    ⟨by decide, isBlank_toString last (List.mem_of_getLast? hlast)⟩⟩
  · rw [htext, List.mem_cons, not_or]
    exact ⟨by decide, lineFeed_not_mem_toString k⟩
  · rw [htext, List.getLast?_cons, hlast]
    rfl

/-- The indices without names, each with the name after itself. -/
def substitutes (m : Numbering) (ks : List Nat) : List (Int × String) :=
  (ks.filter fun k : Nat => (m.nameOf? k).isNone).map fun k : Nat => ((k : Int), substitute k)

theorem mem_substitutes {ks : List Nat} :
    (i, name) ∈ substitutes m ks ↔
      m.nameOf? i = none ∧ ∃ k ∈ ks, (k : Int) = i ∧ substitute k = name := by
  simp only [substitutes, List.mem_map, List.mem_filter, Option.isNone_iff_eq_none, Prod.mk.injEq]
  constructor
  · rintro ⟨k, ⟨hk, hnone⟩, rfl, rfl⟩
    exact ⟨hnone, k, hk, rfl, rfl⟩
  · rintro ⟨hnone, k, hk, rfl, rfl⟩
    exact ⟨k, ⟨hk, hnone⟩, rfl, rfl⟩

theorem fresh_substitutes {ks : List Nat} (hks : ks.Nodup) (hpositive : ∀ k ∈ ks, 0 < k)
    (hnew : ∀ k ∈ ks, m.nameOf? k = none → substitute k ∉ m.names) :
    m.Fresh (substitutes m ks) where
  positive := by
    rintro ⟨i, name⟩ hentry
    obtain ⟨-, k, hk, rfl, -⟩ := mem_substitutes.mp hentry
    exact Int.natCast_pos.mpr (hpositive k hk)
  indices_nodup := by
    rw [substitutes, List.map_map]
    exact (hks.filter _).map fun j k h => Int.ofNat.inj h
  names_nodup := by
    rw [substitutes, List.map_map]
    exact (hks.filter _).map substitute_injective
  index_not_mem := by
    rintro ⟨i, name⟩ hentry
    exact nameOf?_eq_none_iff.mp (mem_substitutes.mp hentry).1
  name_not_mem := by
    rintro ⟨i, name⟩ hentry
    obtain ⟨hnone, k, hk, rfl, rfl⟩ := mem_substitutes.mp hentry
    exact hnew k hk hnone

/-- The step of `nameAll` for one index. -/
def nameIndex (m : Numbering) (k : Nat) : Except Error Numbering :=
  if (m.nameOf? k).isSome then .ok m else (m.insert (substitute k) k).mapError .naming

theorem nameAll_eq (found : Encoding) :
    nameAll found =
      (found.clauses.indices.foldlM nameIndex found.numbering).map fun m =>
        { found with numbering := m } := by
  rw [nameAll]
  change Except.bind _ _ = _
  unfold nameIndex
  cases List.foldlM (m := Except Error) _ found.numbering found.clauses.indices <;> rfl

/-- Naming indices inserts the substitutes for those without names. -/
theorem foldlM_nameIndex {ks : List Nat} (hks : ks.Nodup) :
    ks.foldlM nameIndex m = (m.insertAll (substitutes m ks)).mapError Error.naming := by
  induction ks generalizing m with
  | nil => rfl
  | cons k ks ih =>
      obtain ⟨hk, hks⟩ := List.nodup_cons.mp hks
      rw [List.foldlM_cons]
      cases hname : m.nameOf? k with
      | some name =>
          have hskip : substitutes m (k :: ks) = substitutes m ks := by
            rw [substitutes, List.filter_cons_of_neg (by simp [hname]), substitutes]
          rw [hskip, nameIndex, hname]
          exact ih hks
      | none =>
          have hfirst : substitutes m (k :: ks) =
              ((k : Int), substitute k) :: substitutes m ks := by
            rw [substitutes, List.filter_cons_of_pos (by simp [hname]), substitutes, List.map_cons]
          rw [hfirst, insertAll_cons, nameIndex, hname]
          cases hinsert : m.insert (substitute k) k with
          | error fault => rfl
          | ok grown =>
              have hsame : substitutes grown ks = substitutes m ks := by
                refine congrArg (List.map _) (List.filter_congr fun j hj => ?_)
                have hother : (j : Int) ≠ k := fun h => hk (Int.ofNat.inj h ▸ hj)
                rcases insert_cases hinsert with rfl | ⟨-, -, -, rfl⟩
                · rfl
                · rw [Bool.eq_iff_iff, Option.isNone_iff_eq_none, Option.isNone_iff_eq_none,
                    nameOf?_eq_none_iff, nameOf?_eq_none_iff, mem_indices_place, not_or]
                  exact and_iff_right hother
              rw [← hsame]
              exact ih hks

/-! ### Reading what was written -/

theorem mem_indices {k : Nat} :
    k ∈ clauses.indices ↔ ∃ c ∈ clauses.toList, ∃ l ∈ c.toList, l.natAbs = k := by
  simp only [Clauses.indices, List.mem_eraseDups, List.mem_mergeSort, List.mem_map,
    Clauses.literals, List.mem_flatMap]
  constructor
  · rintro ⟨l, ⟨c, hc, hl⟩, hk⟩
    exact ⟨c, hc, l, hl, hk⟩
  · rintro ⟨c, hc, l, hl, hk⟩
    exact ⟨l, ⟨c, hc, hl⟩, hk⟩

theorem nodup_indices (clauses : Clauses) : clauses.indices.Nodup := nodup_eraseDups _

theorem pos_of_mem_indices (hclauses : ∀ c ∈ clauses.toList, c.Valid) :
    ∀ k ∈ clauses.indices, 0 < k := by
  intro k hk
  obtain ⟨c, hc, l, hl, rfl⟩ := mem_indices.mp hk
  exact Int.natAbs_pos.mpr ((hclauses c hc).usable l hl).1

/-- The numbering that is read from a written file: what is read of the names, and substitutes for
the indices that have no name then. -/
def numberingRead (clauses : Clauses) (m : Numbering) : Except Fault Numbering := do
  let n ← empty.insertAll (namesRead m.entries)
  n.insertAll (substitutes n clauses.indices)

/-- A written file in which no name takes up a further line is read as the clauses, with what is
read of the names. -/
theorem read_write_eq_numberingRead (hclauses : ∀ c ∈ clauses.toList, c.Valid) (hm : m.Valid)
    (hmax : m.maxIndex ≤ largestIndex) (hfeed : ∀ name ∈ m.names, '\n' ∉ name.toList) :
    read (write ⟨clauses, m⟩).toUTF8 =
      ((numberingRead clauses m).mapError Error.naming).map (⟨clauses, ·⟩) := by
  rw [read, write, foldlM_lines (lineFeed_not_mem_fileLines hfeed),
    foldlM_fileLines hclauses hm hmax, numberingRead]
  cases empty.insertAll (namesRead m.entries) with
  | error fault => rfl
  | ok n =>
      change nameAll ⟨clauses, n⟩ = _
      rw [nameAll_eq]
      dsimp only
      rw [foldlM_nameIndex (nodup_indices clauses)]
      rfl

theorem namesRead_eq_self (hnames : ∀ name ∈ m.names, IsName name) :
    namesRead m.entries = m.entries := by
  have hkept : ∀ entry ∈ m.entries,
      ((nameRead? entry.2).map fun kept => (entry.1, kept)) = some entry := fun entry he => by
    rw [(hnames _ (List.mem_map_of_mem he)).nameRead?_eq, Option.map_some]
  exact (List.filterMap_congr hkept).trans List.filterMap_some

/-- The names of a numbering, placed from the beginning, and the substitutes for the indices that
have none. -/
def completed (clauses : Clauses) (m : Numbering) : Numbering :=
  (empty.placeAll m.entries).placeAll (substitutes m clauses.indices)

theorem mem_entries_rebuilt {entry : Int × String} :
    entry ∈ (empty.placeAll m.entries).entries ↔ entry ∈ m.entries :=
  mem_entries_placeAll.trans (or_iff_right List.not_mem_nil)

theorem nameOf?_rebuilt (hm : m.Valid) (i : Int) :
    (empty.placeAll m.entries).nameOf? i = m.nameOf? i := by
  ext name
  rw [hm.nameOf?_eq_some_iff, (exact_empty.placeAll (fresh_entries hm)).valid.nameOf?_eq_some_iff,
    mem_entries_rebuilt]

theorem mem_names_rebuilt : name ∈ (empty.placeAll m.entries).names ↔ name ∈ m.names := by
  simp only [Numbering.names, List.mem_map, mem_entries_rebuilt]

variable (hclauses : ∀ c ∈ clauses.toList, c.Valid) (hm : m.Valid)
  (hnew : ∀ k ∈ clauses.indices, m.nameOf? k = none → substitute k ∉ m.names)

include hclauses hm hnew

theorem fresh_completed :
    (empty.placeAll m.entries).Fresh (substitutes m clauses.indices) := by
  have hsame : substitutes (empty.placeAll m.entries) clauses.indices =
      substitutes m clauses.indices := by
    simp only [substitutes, nameOf?_rebuilt hm]
  rw [← hsame]
  refine fresh_substitutes (nodup_indices clauses) (pos_of_mem_indices hclauses) ?_
  intro k hk hnone
  rw [nameOf?_rebuilt hm] at hnone
  rw [mem_names_rebuilt]
  exact hnew k hk hnone

theorem exact_completed : (completed clauses m).Exact :=
  (exact_empty.placeAll (fresh_entries hm)).placeAll (fresh_completed hclauses hm hnew)

theorem nameOf?_completed :
    (completed clauses m).nameOf? i = some name ↔
      m.nameOf? i = some name ∨
        m.nameOf? i = none ∧ ∃ k ∈ clauses.indices, (k : Int) = i ∧ substitute k = name := by
  rw [(exact_completed hclauses hm hnew).valid.nameOf?_eq_some_iff, completed,
    mem_entries_placeAll, mem_entries_rebuilt, mem_substitutes, hm.nameOf?_eq_some_iff]

/-- A written file is read as the clauses, with the names and the substitutes. -/
theorem read_write_eq (hmax : m.maxIndex ≤ largestIndex) (hnames : ∀ name ∈ m.names, IsName name) :
    read (write ⟨clauses, m⟩).toUTF8 = .ok ⟨clauses, completed clauses m⟩ := by
  have hfresh := fresh_completed hclauses hm hnew
  have hsame : substitutes (empty.placeAll m.entries) clauses.indices =
      substitutes m clauses.indices := by
    simp only [substitutes, nameOf?_rebuilt hm]
  rw [← hsame] at hfresh
  have hnumbering : numberingRead clauses m = .ok (completed clauses m) := by
    rw [numberingRead, namesRead_eq_self hnames, insertAll_of_fresh (fresh_entries hm), completed,
      ← hsame]
    exact insertAll_of_fresh hfresh
  rw [read_write_eq_numberingRead hclauses hm hmax fun name hname => (hnames name hname).line.feed,
    hnumbering]
  rfl

omit hclauses hm hnew

/-! ### What can be read -/

/-- What is read from a file: clauses, and names that a comment can give. -/
structure Readable (e : Encoding) : Prop where
  clauses : ∀ c ∈ e.clauses.toList, c.Valid
  exact : e.numbering.Exact
  within : e.numbering.maxIndex ≤ largestIndex
  names : ∀ name ∈ e.numbering.names, IsName name

theorem readable_empty : Readable ⟨.empty, .empty⟩ :=
  ⟨fun _ h => absurd h List.not_mem_nil, exact_empty, by decide,
    fun _ h => absurd h List.not_mem_nil⟩

/-- A further name keeps what was read readable. -/
theorem Readable.insert (h : Readable found) (hname : IsName name) (hi : i ≤ largestIndex)
    {grown : Numbering} (hinsert : found.numbering.insert name i = .ok grown) :
    Readable { found with numbering := grown } := by
  refine ⟨h.clauses, exact_of_grows h.exact (grows_insert h.exact.valid hinsert), ?_, ?_⟩
  · rcases insert_cases hinsert with rfl | ⟨-, -, -, rfl⟩
    · exact h.within
    · exact max_le h.within hi
  · intro other hother
    rcases insert_cases hinsert with rfl | ⟨-, -, -, rfl⟩
    · exact h.names other hother
    · rcases mem_names_place.mp hother with rfl | hother
      · exact hname
      · exact h.names other hother

theorem Readable.push (h : Readable found) {c : Clause} (hc : c.Valid) :
    Readable { found with clauses := found.clauses.push c } :=
  ⟨fun d hd => (List.mem_append.mp hd).elim (h.clauses d) fun hd => List.mem_singleton.mp hd ▸ hc,
    h.exact, h.within, h.names⟩

/-- A comment gives a name that comments can give. -/
theorem isName_of_naming? {comment : List Char} (hfeed : '\n' ∉ comment)
    (h : naming? comment = some (i, name)) : IsName name ∧ i ≤ largestIndex := by
  have hcut : ∀ cs : List Char, (cut cs).2.Sublist cs := fun cs =>
    (List.dropWhile_sublist _).trans (List.dropWhile_sublist _)
  unfold naming? at h
  dsimp only at h
  split at h
  · next hkept =>
      split at h
      · next index hindex =>
          split at h
          · obtain ⟨rfl, rfl⟩ := Prod.mk.inj (Option.some.inj h)
            have hnonempty := (Bool.and_eq_true_iff.mp hkept).2
            have hsub := (trim_sublist (cut (cut comment).2).2).trans ((hcut _).trans (hcut _))
            refine ⟨⟨by simpa using hnonempty, ?_, ?_⟩, ?_⟩
            · rw [String.toList_ofList]
              exact fun hmem => hfeed (hsub.subset hmem)
            · rw [String.toList_ofList]
              exact trim_trim _
            · exact (within_of_readInteger (by decide) (by decide) hindex).2
          · contradiction
      · contradiction
  · contradiction

theorem valid_of_readClause {line : List Char} {c : Clause} (h : readClause line = .ok c) :
    c.Valid := by
  unfold readClause at h
  dsimp only at h
  split at h
  · obtain ⟨literals, -, hbuilt⟩ := except_bind_eq_ok h
    exact Clause.valid_of_ofList? (mapError_eq_ok hbuilt)
  · contradiction

/-- Every line keeps what was read readable. -/
theorem Readable.addLine (h : Readable found) {text : String} (hfeed : '\n' ∉ text.toList)
    (hadd : addLine found (some text) = .ok e) : Readable e := by
  have htrim : '\n' ∉ trim text.toList := fun hmem => hfeed ((trim_sublist _).subset hmem)
  cases hcontent : trim text.toList with
  | nil =>
      rw [addLine_of_blank hcontent] at hadd
      exact Except.ok.inj hadd ▸ h
  | cons d ds =>
      by_cases hcounts : d = 'p'
      · rw [addLine_of_counts (hcontent.trans (by rw [hcounts]))] at hadd
        exact Except.ok.inj hadd ▸ h
      · by_cases hcomment : d = 'c'
        · subst hcomment
          rw [addLine_of_comment hcontent] at hadd
          cases hname : naming? ('c' :: ds) with
          | none =>
              rw [hname] at hadd
              exact Except.ok.inj hadd ▸ h
          | some found =>
              obtain ⟨i, name⟩ := found
              rw [hname] at hadd
              obtain ⟨grown, hinsert, hgrown⟩ := except_bind_eq_ok hadd
              obtain ⟨hgood, hi⟩ := isName_of_naming? (hcontent ▸ htrim) hname
              exact Except.ok.inj hgrown ▸ h.insert hgood hi (mapError_eq_ok hinsert)
        · rw [addLine_of_clause hcontent hcounts hcomment] at hadd
          obtain ⟨c, hc, hpushed⟩ := except_bind_eq_ok hadd
          exact Except.ok.inj hpushed ▸ h.push (valid_of_readClause hc)

/-- What is found on the lines of a file is readable. -/
theorem readable_of_foldlM {ls : List (Option String)}
    (hls : ∀ text, some text ∈ ls → '\n' ∉ text.toList) (h : Readable found)
    (hread : ls.foldlM Dimacs.addLine found = .ok e) : Readable e := by
  induction ls generalizing found with
  | nil => exact Except.ok.inj hread ▸ h
  | cons line ls ih =>
      rw [List.foldlM_cons] at hread
      obtain ⟨next, hadd, hrest⟩ := except_bind_eq_ok hread
      refine ih (fun text htext => hls text (List.mem_cons_of_mem _ htext)) ?_ hrest
      cases line with
      | none => cases hadd
      | some text => exact h.addLine (hls text List.mem_cons_self) hadd

theorem Readable.insertAll (h : Readable found) {entries : List (Int × String)}
    (hentries : ∀ entry ∈ entries, IsName entry.2 ∧ entry.1 ≤ largestIndex) {grown : Numbering}
    (hinsert : found.numbering.insertAll entries = .ok grown) :
    Readable { found with numbering := grown } := by
  induction entries generalizing found with
  | nil => exact Except.ok.inj hinsert ▸ h
  | cons entry entries ih =>
      obtain ⟨⟨hname, hi⟩, hrest⟩ := List.forall_mem_cons.mp hentries
      rw [insertAll_cons] at hinsert
      obtain ⟨next, hnext, hinsert⟩ := except_bind_eq_ok hinsert
      have hfirst : Readable { found with numbering := next } := h.insert hname hi hnext
      have hall := ih hfirst hrest hinsert
      exact hall

/-- Once the substitutes are inserted, all of the indices have names. -/
theorem mem_indices_of_insertAll_substitutes (hm : m.Valid) {ks : List Nat} {grown : Numbering}
    (h : m.insertAll (substitutes m ks) = .ok grown) : ∀ k ∈ ks, (k : Int) ∈ grown.indices := by
  intro k hk
  obtain ⟨-, hentries⟩ := mem_entries_insertAll hm h
  obtain ⟨name, hmem⟩ : ∃ name, ((k : Int), name) ∈ grown.entries := by
    cases hname : m.nameOf? k with
    | some name => exact ⟨name, (hentries _).mpr (Or.inl (hm.nameOf?_eq_some_iff.mp hname))⟩
    | none =>
        have hmem := mem_substitutes.mpr ⟨hname, k, hk, rfl, rfl⟩
        exact ⟨substitute k, (hentries _).mpr (Or.inr hmem)⟩
  exact List.mem_map_of_mem hmem

/-- What is read from a file is readable, and all indices that occur have names. -/
theorem readable_of_read {file : ByteArray} (h : read file = .ok e) :
    Readable e ∧ ∀ k ∈ e.clauses.indices, (k : Int) ∈ e.numbering.indices := by
  obtain ⟨found, hlines, hnamed⟩ := except_bind_eq_ok h
  have hfound := readable_of_foldlM (fun _ => lineFeed_not_mem_of_mem_lines) readable_empty hlines
  rw [nameAll_eq, foldlM_nameIndex (nodup_indices _)] at hnamed
  obtain ⟨grown, hgrown, rfl⟩ := map_eq_ok hnamed
  have hinsert := mapError_eq_ok hgrown
  refine ⟨hfound.insertAll ?_ hinsert,
    mem_indices_of_insertAll_substitutes hfound.exact.valid hinsert⟩
  rintro ⟨i, name⟩ hentry
  obtain ⟨-, k, hk, rfl, rfl⟩ := mem_substitutes.mp hentry
  obtain ⟨c, hc, l, hl, rfl⟩ := mem_indices.mp hk
  exact ⟨isName_substitute _, ((hfound.clauses c hc).usable l hl).2⟩

/-- Writing what was read and reading it back changes nothing. -/
theorem read_write_of_read {file : ByteArray} (h : read file = .ok e) :
    read (write e).toUTF8 = .ok e := by
  obtain ⟨hreadable, hall⟩ := readable_of_read h
  have hvalid := hreadable.exact.valid
  have hnamed : ∀ k ∈ e.clauses.indices, e.numbering.nameOf? k ≠ none := fun k hk hnone =>
    nameOf?_eq_none_iff.mp hnone (hall k hk)
  have hnew : ∀ k ∈ e.clauses.indices, e.numbering.nameOf? k = none →
      substitute k ∉ e.numbering.names := fun k hk hnone => absurd hnone (hnamed k hk)
  have hsame : completed e.clauses e.numbering = e.numbering := by
    refine (exact_completed hreadable.clauses hvalid hnew).eq_of_mem_iff hreadable.exact ?_
    rintro ⟨i, name⟩
    rw [completed, mem_entries_placeAll, mem_entries_rebuilt, mem_substitutes, or_iff_left]
    rintro ⟨hnone, k, hk, rfl, -⟩
    exact hnamed k hk hnone
  have hread := read_write_eq hreadable.clauses hvalid hnew hreadable.within hreadable.names
  rwa [hsame] at hread

/-- Reading a written file gives the clauses again, with the names, and with substitutes as names
for the indices that occur without one.  So writing what was read from any file and reading it back
changes nothing. -/
theorem read_write :
    (∀ (clauses : Clauses) (m : Numbering), (∀ c ∈ clauses.toList, c.Valid) → m.Valid →
      m.maxIndex ≤ largestIndex →
      (∀ name ∈ m.names, name ≠ "" ∧ '\n' ∉ name.toList ∧ trim name.toList = name.toList) →
      (∀ k ∈ clauses.indices, m.nameOf? k = none → substitute k ∉ m.names) →
      ∃ named : Numbering, read (write ⟨clauses, m⟩).toUTF8 = .ok ⟨clauses, named⟩ ∧
        named.Consistent ∧
        (∀ i name, named.nameOf? i = some name ↔
          m.nameOf? i = some name ∨
            m.nameOf? i = none ∧ ∃ k ∈ clauses.indices, (k : Int) = i ∧ substitute k = name) ∧
        IsGreatest ({0} ∪ {i | named.Mapped i}) named.maxIndex) ∧
      ∀ (file : ByteArray) (e : Encoding), read file = .ok e → read (write e).toUTF8 = .ok e := by
  refine ⟨?_, fun file e => read_write_of_read⟩
  intro clauses m hclauses hm hmax hnames hnew
  have hgood : ∀ name ∈ m.names, IsName name := by
    intro name hname
    obtain ⟨hne, hfeed, htrim⟩ := hnames name hname
    exact ⟨by simpa using hne, hfeed, htrim⟩
  have hexact := exact_completed hclauses hm hnew
  exact ⟨completed clauses m, read_write_eq hclauses hm hnew hmax hgood, hexact.valid.consistent,
    fun _ _ => nameOf?_completed hclauses hm hnew, hexact.greatest⟩

namespace DimacsWitness

/-- Three clauses, of which one is empty. -/
def threeClauses : Clauses := ⟨[⟨#[-2, 1]⟩, ⟨#[]⟩, ⟨#[-4, 3, 3]⟩]⟩

/-- A numbering without a name for 3, in which the index 5 was given up. -/
def numbering : Numbering := ⟨[(1, "a"), (2, "b"), (4, "long\tname")], 5⟩

theorem read_write_sample :
    (∀ c ∈ threeClauses.toList, c.Valid) ∧ numbering.Valid ∧ numbering.maxIndex ≤ largestIndex ∧
      (∀ name ∈ numbering.names,
        name ≠ "" ∧ '\n' ∉ name.toList ∧ trim name.toList = name.toList) ∧
      (∀ k ∈ threeClauses.indices, numbering.nameOf? k = none → substitute k ∉ numbering.names) ∧
      ∃ named : Numbering, read (write ⟨threeClauses, numbering⟩).toUTF8 = .ok ⟨threeClauses, named⟩ ∧
        named.nameOf? 3 = some "v3" ∧ named.nameOf? 4 = some "long\tname" ∧
        read (write ⟨threeClauses, named⟩).toUTF8 = .ok ⟨threeClauses, named⟩ := by
  have hclauses : ∀ c ∈ threeClauses.toList, c.Valid := by
    intro c hc
    simp only [threeClauses, List.mem_cons, List.not_mem_nil, or_false] at hc
    rcases hc with rfl | rfl | rfl <;> exact ⟨by decide, by decide⟩
  have hnumbering : numbering.Valid := ⟨by decide, by decide, by decide, by decide⟩
  have hnames : ∀ name ∈ numbering.names,
      name ≠ "" ∧ '\n' ∉ name.toList ∧ trim name.toList = name.toList := by decide +kernel
  have hnew : ∀ k ∈ threeClauses.indices, numbering.nameOf? k = none →
      substitute k ∉ numbering.names := by
    intro k _ _ hk
    have hfirst : ∀ name ∈ numbering.names, name.toList.head? ≠ some 'v' := by decide +kernel
    exact hfirst _ hk (by rw [toList_substitute]; rfl)
  obtain ⟨hwritten, hagain⟩ := read_write
  obtain ⟨named, hread, -, hnamed, -⟩ :=
    hwritten threeClauses numbering hclauses hnumbering (by decide) hnames hnew
  refine ⟨hclauses, hnumbering, by decide, hnames, hnew, named, hread, ?_, ?_, hagain _ _ hread⟩
  · refine (hnamed 3 "v3").mpr (Or.inr ⟨by decide, 3, ?_, rfl, by decide +kernel⟩)
    exact mem_indices.mpr ⟨⟨#[-4, 3, 3]⟩, by decide, 3, by decide, rfl⟩
  · exact (hnamed 4 "long\tname").mpr (Or.inl (by decide))

end DimacsWitness

end ClauseForm.Dimacs
