import EchoAi.Lockstep
import EchoAi.Places
import EchoAi.Tools.SearchIndex

/-!
# The search index stays consistent

Whatever fails while documents are indexed, the index counts the committed documents exactly.

* `Holds`: an index holds these terms, documents and rows of frequencies.
* `Counting`: it does, and the row of the next document counts the tokens seen so far.
* `Counting.addTerm`, `Counting.countTokens`: what a token and the tokens of a document do to it.
* `Stored.indexDocument`: what one call does, whatever fails in it.
* `consistent_run`: after every call of a sequence the index is consistent, and a call that failed
  has kept what was committed.
-/

namespace EchoAi.Search

variable {ix : SearchIndex} {terms : List (List UInt8)} {docs : List CText} {rows : List FreqRow}
  {seen : List (List UInt8)} {doc : CText} {row : FreqRow} {term : List UInt8}

/-! ## What an index holds -/

/-- All tokens of a document are among the terms, and its row has room for all terms and counts
them among the tokens. -/
structure CountsOf (terms : List (List UInt8)) (doc : CText) (row : FreqRow) : Prop where
  known : ∀ token ∈ tokensOf doc.bytes, token ∈ terms
  room : terms.length ≤ row.length
  exact : row.take terms.length = (tally terms (tokensOf doc.bytes)).map some

/-- An index with these terms, documents and rows of frequencies. -/
structure Holds (ix : SearchIndex) (terms : List (List UInt8)) (docs : List CText)
    (rows : List FreqRow) : Prop where
  allTerms : ix.allTerms.take ix.termCount = terms.map some
  termCount : ix.termCount = terms.length
  distinct : terms.Nodup
  documents : ix.documents.take ix.docCount = docs.map some
  docCount : ix.docCount = docs.length
  termFreqs : ix.termFreqs.take ix.docCount = rows.map some
  counted : List.Forall₂ (CountsOf terms) docs rows
  docLengths : ix.docLengths.take ix.docCount = docs.map fun doc => (tokensOf doc.bytes).length

theorem growRow_eq {t : Nat} (h : t ≤ row.length) : growRow t row = row.take t ++ [some 0] := by
  have hlength : (reallocRow row (t + 1)).length = t + 1 := by
    rw [reallocRow, List.length_append, List.length_take, List.length_replicate]
    omega
  have htake : (reallocRow row (t + 1)).take t = row.take t := by
    rw [reallocRow, List.take_append_of_le_length, List.take_take, Nat.min_eq_left (Nat.le_succ t)]
    rw [List.length_take]
    omega
  rw [growRow, List.set_eq_take_append_cons_drop, if_pos (by omega), htake,
    List.drop_of_length_le (Nat.le_of_eq hlength)]

theorem CountsOf.growRow (h : CountsOf terms doc row) :
    CountsOf terms doc (growRow terms.length row) := by
  have hlength : (row.take terms.length).length = terms.length := by
    rw [List.length_take, Nat.min_eq_left h.room]
  rw [growRow_eq h.room]
  refine ⟨h.known, ?_, ?_⟩
  · rw [List.length_append, hlength]
    exact Nat.le_add_right _ _
  · rw [List.take_append_of_le_length (Nat.le_of_eq hlength.symm), List.take_take, Nat.min_self,
      h.exact]

/-- A grown row counts a new term, which its document does not have. -/
theorem CountsOf.growRow_concat (h : CountsOf terms doc row) (hnew : term ∉ terms) :
    CountsOf (terms ++ [term]) doc (Search.growRow terms.length row) := by
  have hlength : (row.take terms.length ++ [some 0]).length = (terms ++ [term]).length := by
    rw [List.length_append, List.length_append, List.length_take, Nat.min_eq_left h.room]
    rfl
  rw [growRow_eq h.room]
  refine ⟨fun token htoken => List.mem_append_left _ (h.known token htoken),
    Nat.le_of_eq hlength.symm, ?_⟩
  rw [← hlength, List.take_length, h.exact,
    tally_concat_label fun hmem => hnew (h.known term hmem), List.map_append]
  rfl

/-- The rows count as before, whichever of them have grown. -/
theorem counts_growRows {rows' : List FreqRow} (h : List.Forall₂ (CountsOf terms) docs rows)
    (hrows : List.Forall₂ (fun row row' => row' = row ∨ row' = growRow terms.length row) rows rows') :
    List.Forall₂ (CountsOf terms) docs rows' := by
  induction h generalizing rows' with
  | nil =>
    cases hrows
    exact List.Forall₂.nil
  | cons hrow _ ih =>
    cases hrows with
    | cons hhead htail =>
      refine List.Forall₂.cons ?_ (ih htail)
      rcases hhead with rfl | rfl
      · exact hrow
      · exact hrow.growRow

/-- The rows that grow, up to a failure. -/
theorem growRows_eq (fail : Nat → Bool) (t i : Nat) (rows : List FreqRow)
    (rest : List (Option FreqRow)) :
    ∃ grown rows', growRows fail t rows.length i (rows.map some ++ rest) =
        (grown, rows'.map some ++ rest) ∧
      List.Forall₂ (fun row row' => row' = row ∨ row' = growRow t row) rows rows' ∧
      (grown = true → rows' = rows.map (growRow t)) := by
  induction rows generalizing i with
  | nil => exact ⟨true, [], rfl, List.Forall₂.nil, fun _ => rfl⟩
  | cons row rows ih =>
    rw [List.length_cons, List.map_cons, List.cons_append, growRows]
    split
    · refine ⟨false, row :: rows, rfl, ?_, nofun⟩
      exact List.forall₂_same.mpr fun row _ => Or.inl rfl
    · obtain ⟨grown, rows', heq, hrows, hall⟩ := ih (i + 1)
      refine ⟨grown, growRow t row :: rows', by rw [heq]; rfl, ?_, fun h => ?_⟩
      · exact List.Forall₂.cons (Or.inr rfl) hrows
      · rw [hall h, List.map_cons]

theorem Holds.findTerm_eq_some (h : Holds ix terms docs rows) {i : Nat}
    (hfind : findTerm ix term = some i) : terms[i]? = some term := by
  rw [findTerm, h.allTerms, List.findIdx?_eq_some_iff_getElem] at hfind
  obtain ⟨hlt, heq, -⟩ := hfind
  rw [List.getElem_map, decide_eq_true_eq, Option.some.injEq] at heq
  rw [List.length_map] at hlt
  rw [List.getElem?_eq_getElem hlt, heq]

theorem Holds.findTerm_eq_none (h : Holds ix terms docs rows) (hfind : findTerm ix term = none) :
    term ∉ terms := by
  rw [findTerm, h.allTerms, List.findIdx?_eq_none_iff] at hfind
  intro hmem
  have hne := hfind (some term) (List.mem_map_of_mem hmem)
  exact absurd rfl (of_decide_eq_false hne)

/-! ## The next document -/

/-- The row of the next document, which counts the tokens seen so far. -/
def ownRow (terms seen : List (List UInt8)) : FreqRow :=
  (tally terms seen).map some ++ List.replicate (maxTokens - terms.length) (some 0)

/-- All arrays have their full size. -/
structure Ready (ix : SearchIndex) : Prop where
  documents : ix.documents.length = maxDocs
  allTerms : ix.allTerms.length = maxTokens
  termFreqs : ix.termFreqs.length = maxDocs
  docLengths : ix.docLengths.length = maxDocs

/-- An index that counts the tokens of the next document. -/
structure Counting (ix : SearchIndex) (content : CText) (terms : List (List UInt8))
    (docs : List CText) (rows : List FreqRow) (seen : List (List UInt8)) : Prop where
  holds : Holds ix terms docs rows
  ready : Ready ix
  fits : terms.length ≤ maxTokens
  content : ix.documents[ix.docCount]? = some (some content)
  row : ix.termFreqs[ix.docCount]? = some (some (ownRow terms seen))
  length : ix.docLengths[ix.docCount]? = some seen.length
  known : ∀ token ∈ seen, token ∈ terms

theorem Holds.length_rows (h : Holds ix terms docs rows) : rows.length = ix.docCount := by
  rw [h.docCount]
  exact h.counted.length_eq.symm

/-- Other rows for the committed documents. -/
theorem Counting.withRows {content : CText} (h : Counting ix content terms docs rows seen)
    {rows' : List FreqRow} (hrows : List.Forall₂ (CountsOf terms) docs rows') :
    Counting { ix with termFreqs := rows'.map some ++ ix.termFreqs.drop ix.docCount } content terms
      docs rows' seen := by
  have hlength : (rows'.map some).length = ix.docCount := by
    rw [List.length_map, h.holds.docCount]
    exact hrows.length_eq.symm
  refine { h with
    holds := { h.holds with termFreqs := ?_, counted := hrows }
    ready := { h.ready with termFreqs := ?_ }, row := ?_ }
  · exact List.take_left' hlength
  · obtain ⟨hlt, -⟩ := List.getElem?_eq_some_iff.mp h.row
    rw [List.length_append, hlength, List.length_drop, ← h.ready.termFreqs]
    omega
  · have hown := h.row
    rw [List.getElem?_append_right (Nat.le_of_eq hlength), hlength, Nat.sub_self,
      List.getElem?_drop, Nat.add_zero]
    exact hown

/-- A new term, once all rows have room for it. -/
theorem Counting.withTerm {content : CText} (h : Counting ix content terms docs rows seen)
    (hnew : term ∉ terms) (hroom : ix.termCount < maxTokens)
    (hrows : List.Forall₂ (CountsOf (terms ++ [term])) docs rows) :
    Counting
      { ix with
        allTerms := ix.allTerms.set ix.termCount (some term), termCount := ix.termCount + 1 }
      content (terms ++ [term]) docs rows seen := by
  have hcount := h.holds.termCount
  refine { h with
    holds := { h.holds with allTerms := ?_, termCount := ?_, distinct := ?_, counted := hrows }
    ready := { h.ready with allTerms := ?_ }, fits := ?_, row := ?_, known := ?_ }
  · rw [List.take_add_one, List.take_set_of_le (Nat.le_refl _), h.holds.allTerms,
      List.getElem?_set_self (by rw [h.ready.allTerms]; exact hroom), List.map_append]
    rfl
  · rw [List.length_append, hcount]
    rfl
  · rw [← List.concat_eq_append]
    exact List.Nodup.concat hnew h.holds.distinct
  · rw [List.length_set, h.ready.allTerms]
  · rw [List.length_append]
    exact hcount ▸ hroom
  · have hleft : maxTokens - terms.length = maxTokens - (terms ++ [term]).length + 1 := by
      rw [List.length_append, List.length_singleton]
      omega
    refine h.row.trans ?_
    rw [ownRow, ownRow, tally_concat_label fun hmem => hnew (h.known term hmem), hleft,
      List.replicate_succ, List.map_append, List.append_assoc]
    rfl
  · exact fun token htoken => List.mem_append_left _ (h.known token htoken)

theorem Counting.addTerm {content : CText} (h : Counting ix content terms docs rows seen)
    (fail : Faults AllocSite) (token : Nat) (term : List UInt8) :
    ∃ terms' rows', Counting (addTerm fail token term ix).2 content terms' docs rows' seen ∧
      terms <+: terms' ∧
      ∀ t, (Search.addTerm fail token term ix).1 = some t → terms'[t]? = some term := by
  cases hfind : findTerm ix term with
  | some i =>
    have hadd : Search.addTerm fail token term ix = (some i, ix) := by
      rw [Search.addTerm, hfind]
    rw [hadd]
    refine ⟨terms, rows, h, List.prefix_rfl, fun t ht => ?_⟩
    rw [← Option.some.inj ht]
    exact h.holds.findTerm_eq_some hfind
  | none =>
    have hnew := h.holds.findTerm_eq_none hfind
    by_cases hfull : maxTokens ≤ ix.termCount ∨ fail (.term token) = true
    · have hadd : Search.addTerm fail token term ix = (none, ix) := by
        simp only [Search.addTerm, hfind]
        rcases hfull with hfull | hfail
        · rw [if_pos hfull]
        · rw [if_pos hfail, ite_self]
      rw [hadd]
      exact ⟨terms, rows, h, List.prefix_rfl, fun _ h => nomatch h⟩
    obtain ⟨hroom, hdup⟩ := not_or.mp hfull
    obtain ⟨grown, rows', heq, hrows, hall⟩ :=
      growRows_eq (fun i => fail (.grow token i)) ix.termCount 0 rows (ix.termFreqs.drop ix.docCount)
    rw [← h.holds.termFreqs, List.take_append_drop, h.holds.length_rows] at heq
    rw [h.holds.termCount] at hrows hall
    have hkept := h.withRows (counts_growRows h.holds.counted hrows)
    cases grown with
    | false =>
      have hadd : Search.addTerm fail token term ix =
          (none, { ix with termFreqs := rows'.map some ++ ix.termFreqs.drop ix.docCount }) := by
        simp only [Search.addTerm, hfind, if_neg hroom, if_neg hdup, heq, Bool.false_eq_true, if_false]
      rw [hadd]
      exact ⟨terms, rows', hkept, List.prefix_rfl, fun _ h => nomatch h⟩
    | true =>
      have hadd : Search.addTerm fail token term ix =
          (some ix.termCount, { ix with
            termFreqs := rows'.map some ++ ix.termFreqs.drop ix.docCount
            allTerms := ix.allTerms.set ix.termCount (some term)
            termCount := ix.termCount + 1 }) := by
        simp only [Search.addTerm, hfind, if_neg hroom, if_neg hdup, heq, if_true]
      have hlabelled : List.Forall₂ (CountsOf (terms ++ [term])) docs rows' := by
        rw [hall rfl, List.forall₂_map_right_iff]
        exact h.holds.counted.imp fun doc row hrow => hrow.growRow_concat hnew
      rw [hadd]
      refine ⟨terms ++ [term], rows', hkept.withTerm hnew (Nat.lt_of_not_le hroom) hlabelled,
        List.prefix_append terms [term], fun t ht => ?_⟩
      rw [← Option.some.inj ht, h.holds.termCount, List.getElem?_concat_length]

/-- An occurrence more in the row of the next document. -/
theorem increment_ownRow (hnodup : terms.Nodup) {t : Nat} (ht : terms[t]? = some term) :
    increment t (ownRow terms seen) = ownRow terms (seen ++ [term]) := by
  obtain ⟨hlt, -⟩ := List.getElem?_eq_some_iff.mp ht
  have hbound : t < ((tally terms seen).map some).length := by
    rw [List.length_map, length_tally]
    exact hlt
  have hmap : ((tally terms seen).modify t (· + 1)).map some =
      ((tally terms seen).map some).modify t (Option.map (· + 1)) := by
    refine map_modify ?_ t
    exact fun _ _ => rfl
  rw [increment, ownRow, modify_append_of_lt hbound, ownRow, tally_concat hnodup ht, hmap]

/-- A token is counted. -/
theorem Counting.counted {content : CText} (h : Counting ix content terms docs rows seen) {t : Nat}
    (ht : terms[t]? = some term) :
    Counting
      { ix with
        termFreqs := ix.termFreqs.modify ix.docCount (Option.map (increment t))
        docLengths := ix.docLengths.modify ix.docCount (· + 1) }
      content terms docs rows (seen ++ [term]) := by
  refine { h with
    holds := { h.holds with termFreqs := ?_, docLengths := ?_ }
    ready := { h.ready with termFreqs := ?_, docLengths := ?_ }
    row := ?_, length := ?_, known := ?_ }
  · rw [List.take_modify, List.modify_eq_self, h.holds.termFreqs]
    exact List.length_take_le _ _
  · rw [List.take_modify, List.modify_eq_self, h.holds.docLengths]
    exact List.length_take_le _ _
  · rw [List.length_modify, h.ready.termFreqs]
  · rw [List.length_modify, h.ready.docLengths]
  · rw [List.getElem?_modify_eq, h.row, ← increment_ownRow h.holds.distinct ht]
    rfl
  · rw [List.getElem?_modify_eq, h.length, List.length_append]
    rfl
  · intro token htoken
    rcases List.mem_append.mp htoken with htoken | htoken
    · exact h.known token htoken
    · rw [List.mem_singleton.mp htoken]
      exact List.mem_of_getElem? ht

theorem Counting.countTokens {content : CText} (h : Counting ix content terms docs rows seen)
    (fail : Faults AllocSite) (token : Nat) (tokens : List (List UInt8)) :
    ∃ terms' rows' seen',
      Counting (countTokens fail ix.docCount token tokens ix).2 content terms' docs rows' seen' ∧
      terms <+: terms' ∧
      ((Search.countTokens fail ix.docCount token tokens ix).1 = true → seen' = seen ++ tokens) := by
  induction tokens generalizing ix terms rows seen token with
  | nil => exact ⟨terms, rows, seen, h, List.prefix_rfl, fun _ => (List.append_nil seen).symm⟩
  | cons term tokens ih =>
    obtain ⟨terms', rows', hadded, hterms, hindex⟩ := h.addTerm fail token term
    have hcount : (Search.addTerm fail token term ix).2.docCount = ix.docCount := by
      rw [hadded.holds.docCount, h.holds.docCount]
    rw [Search.countTokens]
    cases hadd : Search.addTerm fail token term ix with
    | mk found ix' =>
      rw [hadd] at hadded hindex hcount
      cases found with
      | none => exact ⟨terms', rows', seen, hadded, hterms, fun h => nomatch h⟩
      | some t =>
        obtain ⟨terms'', rows'', seen', hdone, hterms', hseen⟩ :=
          ih (hadded.counted (hindex t rfl)) (token + 1)
        rw [← hcount]
        refine ⟨terms'', rows'', seen', hdone, hterms.trans hterms', fun h => ?_⟩
        rw [hseen h, List.append_assoc, List.singleton_append]

/-! ## One call -/

/-- An index between two calls: every array is missing or has its full size. -/
structure Stored (ix : SearchIndex) (terms : List (List UInt8)) (docs : List CText)
    (rows : List FreqRow) : Prop where
  holds : Holds ix terms docs rows
  fits : terms.length ≤ maxTokens
  documents : ix.documents = [] ∨ ix.documents.length = maxDocs
  allTerms : ix.allTerms = [] ∨ ix.allTerms.length = maxTokens
  termFreqs : ix.termFreqs = [] ∨ ix.termFreqs.length = maxDocs
  docLengths : ix.docLengths = [] ∨ ix.docLengths.length = maxDocs

section Allocated

variable {α : Type} {failed : Bool} {fresh xs ys : List α} {n : Nat}

theorem take_allocated (h : allocated failed fresh xs = some ys) (hn : xs = [] → n = 0) :
    ys.take n = xs.take n := by
  cases xs with
  | nil => rw [hn rfl, List.take_zero, List.take_zero]
  | cons x xs => rw [Option.some.inj h]

theorem length_allocated (h : allocated failed fresh xs = some ys)
    (hxs : xs = [] ∨ xs.length = fresh.length) : ys.length = fresh.length := by
  cases xs with
  | nil =>
    rw [allocated] at h
    split at h
    · exact absurd h (by simp)
    · rw [Option.some.inj h]
  | cons x xs => exact Option.some.inj h ▸ hxs.resolve_left (List.cons_ne_nil x xs)

end Allocated

/-- Other arrays that agree on what is committed. -/
theorem Stored.withArrays (h : Stored ix terms docs rows) {documents : List (Option CText)}
    {allTerms : List (Option (List UInt8))} {termFreqs : List (Option FreqRow)}
    {docLengths : List Nat}
    (hdocuments : documents.take ix.docCount = ix.documents.take ix.docCount)
    (hallTerms : allTerms.take ix.termCount = ix.allTerms.take ix.termCount)
    (htermFreqs : termFreqs.take ix.docCount = ix.termFreqs.take ix.docCount)
    (hdocLengths : docLengths.take ix.docCount = ix.docLengths.take ix.docCount)
    (hdocumentsSize : documents = [] ∨ documents.length = maxDocs)
    (hallTermsSize : allTerms = [] ∨ allTerms.length = maxTokens)
    (htermFreqsSize : termFreqs = [] ∨ termFreqs.length = maxDocs)
    (hdocLengthsSize : docLengths = [] ∨ docLengths.length = maxDocs) :
    Stored { ix with documents, allTerms, termFreqs, docLengths } terms docs rows where
  holds := { h.holds with
    allTerms := hallTerms.trans h.holds.allTerms
    documents := hdocuments.trans h.holds.documents
    termFreqs := htermFreqs.trans h.holds.termFreqs
    docLengths := hdocLengths.trans h.holds.docLengths }
  fits := h.fits
  documents := hdocumentsSize
  allTerms := hallTermsSize
  termFreqs := htermFreqsSize
  docLengths := hdocLengthsSize

/-- Where an array is missing nothing is committed. -/
theorem Holds.docCount_of_missing (h : Holds ix terms docs rows)
    (hmissing : ix.documents = [] ∨ ix.termFreqs = [] ∨ ix.docLengths = []) : ix.docCount = 0 := by
  have hnil : docs = [] := by
    rcases hmissing with hmissing | hmissing | hmissing
    · have hdocs := h.documents
      rw [hmissing, List.take_nil] at hdocs
      exact List.map_eq_nil_iff.mp hdocs.symm
    · have hrows := h.termFreqs
      rw [hmissing, List.take_nil] at hrows
      have hcounted := h.counted
      rw [List.map_eq_nil_iff.mp hrows.symm] at hcounted
      exact List.forall₂_nil_right_iff.mp hcounted
    · have hdocs := h.docLengths
      rw [hmissing, List.take_nil] at hdocs
      exact List.map_eq_nil_iff.mp hdocs.symm
  rw [h.docCount, hnil, List.length_nil]

theorem Holds.termCount_of_missing (h : Holds ix terms docs rows) (hmissing : ix.allTerms = []) :
    ix.termCount = 0 := by
  have hterms := h.allTerms
  rw [hmissing, List.take_nil] at hterms
  rw [h.termCount, List.map_eq_nil_iff.mp hterms.symm, List.length_nil]

theorem Stored.ensureArrays (h : Stored ix terms docs rows) (fail : Faults AllocSite) :
    Stored (ensureArrays fail ix).2 terms docs rows ∧
      ((Search.ensureArrays fail ix).1 = true → Ready (Search.ensureArrays fail ix).2) := by
  have hdocs := h.holds.docCount_of_missing
  simp only [Search.ensureArrays]
  cases hdocuments : allocated (fail .documents) (List.replicate maxDocs none) ix.documents with
  | none => exact ⟨h, fun h => nomatch h⟩
  | some documents =>
    have htake₁ := take_allocated hdocuments fun heq => hdocs (Or.inl heq)
    have hsize₁ := length_allocated hdocuments (by rw [List.length_replicate]; exact h.documents)
    rw [List.length_replicate] at hsize₁
    cases hallTerms : allocated (fail .allTerms) (List.replicate maxTokens none) ix.allTerms with
    | none =>
      exact ⟨h.withArrays htake₁ rfl rfl rfl (Or.inr hsize₁) h.allTerms h.termFreqs h.docLengths,
        fun h => nomatch h⟩
    | some allTerms =>
      have htake₂ := take_allocated hallTerms h.holds.termCount_of_missing
      have hsize₂ := length_allocated hallTerms (by rw [List.length_replicate]; exact h.allTerms)
      rw [List.length_replicate] at hsize₂
      cases htermFreqs : allocated (fail .termFreqs) (List.replicate maxDocs none) ix.termFreqs with
      | none =>
        exact ⟨h.withArrays htake₁ htake₂ rfl rfl (Or.inr hsize₁) (Or.inr hsize₂) h.termFreqs
          h.docLengths, fun h => nomatch h⟩
      | some termFreqs =>
        have htake₃ := take_allocated htermFreqs fun heq => hdocs (Or.inr (Or.inl heq))
        have hsize₃ := length_allocated htermFreqs
          (by rw [List.length_replicate]; exact h.termFreqs)
        rw [List.length_replicate] at hsize₃
        cases hdocLengths : allocated (fail .docLengths) (List.replicate maxDocs 0) ix.docLengths with
        | none =>
          exact ⟨h.withArrays htake₁ htake₂ htake₃ rfl (Or.inr hsize₁) (Or.inr hsize₂)
            (Or.inr hsize₃) h.docLengths, fun h => nomatch h⟩
        | some docLengths =>
          have htake₄ := take_allocated hdocLengths fun heq => hdocs (Or.inr (Or.inr heq))
          have hsize₄ := length_allocated hdocLengths
            (by rw [List.length_replicate]; exact h.docLengths)
          rw [List.length_replicate] at hsize₄
          exact ⟨h.withArrays htake₁ htake₂ htake₃ htake₄ (Or.inr hsize₁) (Or.inr hsize₂)
            (Or.inr hsize₃) (Or.inr hsize₄), fun _ => ⟨hsize₁, hsize₂, hsize₃, hsize₄⟩⟩

/-- The next document stands in the arrays with an empty row. -/
theorem Stored.counting (h : Stored ix terms docs rows) (hready : Ready ix)
    (hroom : ix.docCount < maxDocs) (content : CText) :
    Counting
      { ix with
        documents := ix.documents.set ix.docCount (some content)
        termFreqs := ix.termFreqs.set ix.docCount (some (List.replicate maxTokens (some 0)))
        docLengths := ix.docLengths.set ix.docCount 0 }
      content terms docs rows [] where
  holds := { h.holds with
    documents := (List.take_set_of_le (Nat.le_refl _)).trans h.holds.documents
    termFreqs := (List.take_set_of_le (Nat.le_refl _)).trans h.holds.termFreqs
    docLengths := (List.take_set_of_le (Nat.le_refl _)).trans h.holds.docLengths }
  ready := { hready with
    documents := List.length_set.trans hready.documents
    termFreqs := List.length_set.trans hready.termFreqs
    docLengths := List.length_set.trans hready.docLengths }
  fits := h.fits
  content := List.getElem?_set_self (by rw [hready.documents]; exact hroom)
  row := by
    have hempty : List.replicate maxTokens (some 0) = ownRow terms [] := by
      rw [ownRow, tally_nil, List.map_replicate, List.replicate_append_replicate,
        Nat.add_sub_cancel' h.fits]
    rw [← hempty]
    exact List.getElem?_set_self (by rw [hready.termFreqs]; exact hroom)
  length := List.getElem?_set_self (by rw [hready.docLengths]; exact hroom)
  known := nofun

theorem Counting.countsOf_ownRow {content : CText}
    (h : Counting ix content terms docs rows (tokensOf content.bytes)) :
    CountsOf terms content (ownRow terms (tokensOf content.bytes)) where
  known := h.known
  room := by
    rw [ownRow, List.length_append, List.length_map, length_tally]
    exact Nat.le_add_right _ _
  exact := List.take_left' (by rw [List.length_map, length_tally])

/-- The next document is committed when all of its tokens have been counted. -/
theorem Counting.commit {content : CText}
    (h : Counting ix content terms docs rows (tokensOf content.bytes)) :
    Stored { ix with docCount := ix.docCount + 1 } terms (docs ++ [content])
      (rows ++ [ownRow terms (tokensOf content.bytes)]) where
  holds := { h.holds with
    documents := by
      rw [List.take_add_one, h.holds.documents, h.content, List.map_append]
      rfl
    docCount := by rw [h.holds.docCount, List.length_append]; rfl
    termFreqs := by
      rw [List.take_add_one, h.holds.termFreqs, h.row, List.map_append]
      rfl
    counted := List.rel_append h.holds.counted (List.Forall₂.cons h.countsOf_ownRow List.Forall₂.nil)
    docLengths := by
      rw [List.take_add_one, h.holds.docLengths, h.length, List.map_append]
      rfl }
  fits := h.fits
  documents := Or.inr h.ready.documents
  allTerms := Or.inr h.ready.allTerms
  termFreqs := Or.inr h.ready.termFreqs
  docLengths := Or.inr h.ready.docLengths

/-- The next document is taken out again. -/
theorem Counting.abandon {content : CText} (h : Counting ix content terms docs rows seen) :
    Stored
      { ix with
        documents := ix.documents.set ix.docCount none
        termFreqs := ix.termFreqs.set ix.docCount none }
      terms docs rows where
  holds := { h.holds with
    documents := (List.take_set_of_le (Nat.le_refl _)).trans h.holds.documents
    termFreqs := (List.take_set_of_le (Nat.le_refl _)).trans h.holds.termFreqs }
  fits := h.fits
  documents := Or.inr (List.length_set.trans h.ready.documents)
  allTerms := Or.inr h.ready.allTerms
  termFreqs := Or.inr (List.length_set.trans h.ready.termFreqs)
  docLengths := Or.inr h.ready.docLengths

/-- **What one call does**: terms may have been added, and the document is committed just when the
call succeeded. -/
theorem Stored.indexDocument (h : Stored ix terms docs rows) (fail : Faults AllocSite)
    (content : Option CText) :
    ∃ terms' rows',
      Stored (semanticSearchIndexDocument fail content ix).2 terms'
        (if (semanticSearchIndexDocument fail content ix).1 then docs ++ content.toList else docs)
        rows' ∧
      terms <+: terms' := by
  cases content with
  | none =>
    refine ⟨terms, rows, ?_, List.prefix_rfl⟩
    rw [semanticSearchIndexDocument, if_pos rfl, Option.toList_none, List.append_nil]
    exact h
  | some content =>
    simp only [semanticSearchIndexDocument]
    by_cases hfull : maxDocs ≤ ix.docCount
    · rw [if_pos hfull]
      exact ⟨terms, rows, h, List.prefix_rfl⟩
    rw [if_neg hfull]
    obtain ⟨hstored, hready⟩ := h.ensureArrays fail
    cases hensure : Search.ensureArrays fail ix with
    | mk ready ix₁ =>
      rw [hensure] at hstored hready
      have hcount : ix₁.docCount = ix.docCount := by
        rw [hstored.holds.docCount, h.holds.docCount]
      cases ready with
      | false => exact ⟨terms, rows, hstored, List.prefix_rfl⟩
      | true =>
        have hroom : ix₁.docCount < maxDocs := hcount ▸ Nat.lt_of_not_le hfull
        have hstart := hstored.counting (hready rfl) hroom content
        simp only [if_true]
        by_cases hdup : fail .content = true
        · rw [if_pos hdup]
          exact ⟨terms, rows, hstored, List.prefix_rfl⟩
        rw [if_neg hdup]
        by_cases hrow : fail .row = true
        · rw [if_pos hrow]
          refine ⟨terms, rows, hstored.withArrays ?_ rfl rfl rfl ?_ hstored.allTerms hstored.termFreqs
            hstored.docLengths, List.prefix_rfl⟩
          · rw [List.take_set_of_le (Nat.le_refl _), List.take_set_of_le (Nat.le_refl _)]
          · rw [List.length_set, List.length_set]
            exact Or.inr (hready rfl).documents
        rw [if_neg hrow]
        obtain ⟨terms', rows', seen, hdone, hterms, hseen⟩ :=
          hstart.countTokens fail 0 (tokenize content)
        have hsame := hdone.holds.docCount.trans hstored.holds.docCount.symm
        cases hcounted : Search.countTokens fail ix₁.docCount 0 (tokenize content)
            { ix₁ with
              documents := ix₁.documents.set ix₁.docCount (some content)
              termFreqs := ix₁.termFreqs.set ix₁.docCount (some (List.replicate maxTokens (some 0)))
              docLengths := ix₁.docLengths.set ix₁.docCount 0 } with
        | mk counted ix₂ =>
          rw [hcounted] at hdone hseen hsame
          cases counted with
          | false =>
            rw [← hsame]
            exact ⟨terms', rows', hdone.abandon, hterms⟩
          | true =>
            rw [hseen rfl, List.nil_append, tokenize_eq] at hdone
            exact ⟨terms', _, hdone.commit, hterms⟩

/-! ## Sequences of calls -/

/-- The index after some calls, each with what fails in it. -/
def indexAfter (calls : List (Faults AllocSite × Option CText)) : SearchIndex :=
  stateAfter (fun ix call => (semanticSearchIndexDocument call.1 call.2 ix).2) {} calls

theorem stored_empty : Stored {} [] [] [] where
  holds := {
    allTerms := rfl, termCount := rfl, distinct := List.nodup_nil, documents := rfl
    docCount := rfl, termFreqs := rfl, counted := List.Forall₂.nil, docLengths := rfl }
  fits := Nat.zero_le _
  documents := Or.inl rfl
  allTerms := Or.inl rfl
  termFreqs := Or.inl rfl
  docLengths := Or.inl rfl

theorem exists_stored (calls : List (Faults AllocSite × Option CText)) :
    ∃ terms docs rows, Stored (indexAfter calls) terms docs rows := by
  let HasStored : SearchIndex → Prop := fun ix => ∃ terms docs rows, Stored ix terms docs rows
  have hstart : HasStored {} := ⟨[], [], [], stored_empty⟩
  refine stateAfter_invariant hstart ?_ calls
  rintro ix ⟨fail, content⟩ ⟨terms, docs, rows, h⟩
  obtain ⟨terms', rows', h', -⟩ := h.indexDocument fail content
  exact ⟨terms', _, rows', h'⟩

/-- Rows that count the same tokens: the later one has the entries of the earlier one, and nothing
at the terms that have been added. -/
theorem kept_of_countsOf {terms' : List (List UInt8)} {row' : FreqRow} (h : CountsOf terms doc row)
    (h' : CountsOf terms' doc row') (hterms : terms <+: terms') (hdistinct : terms'.Nodup) :
    row'.take terms.length = row.take terms.length ∧
      ∀ t, terms.length ≤ t → t < terms'.length → row'[t]? = some (some 0) := by
  obtain ⟨added, rfl⟩ := hterms
  have hnone : ∀ term ∈ added, term ∉ tokensOf doc.bytes := by
    intro term hadded hmem
    exact List.disjoint_of_nodup_append hdistinct (h.known term hmem) hadded
  have hexact := h'.exact
  rw [tally_append, tally_of_notMem hnone, List.map_append, ← h.exact, List.map_replicate] at hexact
  have hlength : (row.take terms.length).length = terms.length := by
    rw [List.length_take, Nat.min_eq_left h.room]
  constructor
  · have htake := congrArg (List.take terms.length) hexact
    rw [List.take_take, List.length_append, Nat.min_eq_left (Nat.le_add_right _ _),
      List.take_left' hlength] at htake
    exact htake
  · intro t hle hlt
    have hentry := congrArg (fun entries : FreqRow => entries[t]?) hexact
    rw [List.length_append] at hlt
    rw [List.getElem?_take_of_lt (by rw [List.length_append]; exact hlt),
      List.getElem?_append_right (by rw [hlength]; exact hle), List.getElem?_replicate,
      if_pos (by rw [hlength]; omega)] at hentry
    exact hentry

/-- The stored terms are distinct, and every committed document has a row with room for all terms
that counts them among its tokens, and its length is the total. -/
def Consistent (ix : SearchIndex) : Prop :=
  ∃ terms docs rows, Holds ix terms docs rows ∧
    ∀ doc ∈ docs, (tally terms (tokensOf doc.bytes)).sum = (tokensOf doc.bytes).length

/-- What was committed before is as it was; terms that have been added occur nowhere. -/
structure Kept (before after : SearchIndex) : Prop where
  docCount : after.docCount = before.docCount
  documents : after.documents.take after.docCount = before.documents.take before.docCount
  docLengths : after.docLengths.take after.docCount = before.docLengths.take before.docCount
  allTerms : before.allTerms.take before.termCount <+: after.allTerms.take after.termCount
  termFreqs : List.Forall₂
    (fun row row' => ∃ entries entries', row = some entries ∧ row' = some entries' ∧
      entries'.take before.termCount = entries.take before.termCount ∧
      ∀ t, before.termCount ≤ t → t < after.termCount → entries'[t]? = some (some 0))
    (before.termFreqs.take before.docCount) (after.termFreqs.take after.docCount)

theorem known_of_counted (h : List.Forall₂ (CountsOf terms) docs rows) :
    ∀ doc ∈ docs, ∀ token ∈ tokensOf doc.bytes, token ∈ terms := by
  induction h with
  | nil => exact nofun
  | cons hrow _ ih => exact List.forall_mem_cons.mpr ⟨hrow.known, ih⟩

theorem kept_of_counted {terms' : List (List UInt8)} {rows' : List FreqRow}
    (h : List.Forall₂ (CountsOf terms) docs rows) (h' : List.Forall₂ (CountsOf terms') docs rows')
    (hterms : terms <+: terms') (hdistinct : terms'.Nodup) :
    List.Forall₂
      (fun row row' => row'.take terms.length = row.take terms.length ∧
        ∀ t, terms.length ≤ t → t < terms'.length → row'[t]? = some (some 0)) rows rows' := by
  induction h generalizing rows' with
  | nil =>
    cases h'
    exact List.Forall₂.nil
  | cons hrow _ ih =>
    cases h' with
    | cons hrow' hrest =>
      exact List.Forall₂.cons (kept_of_countsOf hrow hrow' hterms hdistinct) (ih hrest)

theorem Stored.consistent (h : Stored ix terms docs rows) : Consistent ix := by
  refine ⟨terms, docs, rows, h.holds, fun doc hdoc => sum_tally h.holds.distinct ?_⟩
  exact known_of_counted h.holds.counted doc hdoc

theorem Stored.kept {ix' : SearchIndex} {terms' : List (List UInt8)} {rows' : List FreqRow}
    (h : Stored ix terms docs rows) (h' : Stored ix' terms' docs rows') (hterms : terms <+: terms') :
    Kept ix ix' where
  docCount := by rw [h.holds.docCount, h'.holds.docCount]
  documents := by rw [h.holds.documents, h'.holds.documents]
  docLengths := by rw [h.holds.docLengths, h'.holds.docLengths]
  allTerms := by
    rw [h.holds.allTerms, h'.holds.allTerms]
    exact hterms.map some
  termFreqs := by
    rw [h.holds.termFreqs, h'.holds.termFreqs, List.forall₂_map_left_iff, List.forall₂_map_right_iff,
      h.holds.termCount, h'.holds.termCount]
    refine (kept_of_counted h.holds.counted h'.holds.counted hterms h'.holds.distinct).imp ?_
    exact fun row row' hkept => ⟨row, row', rfl, rfl, hkept⟩

/-- **The index stays consistent through every failure.** -/
theorem consistent_run (calls : List (Faults AllocSite × Option CText)) (fail : Faults AllocSite)
    (content : Option CText) :
    Consistent (indexAfter calls) ∧ Consistent (indexAfter (calls ++ [(fail, content)])) ∧
      ((semanticSearchIndexDocument fail content (indexAfter calls)).1 = false →
        Kept (indexAfter calls) (indexAfter (calls ++ [(fail, content)]))) := by
  obtain ⟨terms, docs, rows, h⟩ := exists_stored calls
  obtain ⟨terms', rows', h', hterms⟩ := h.indexDocument fail content
  have hafter : indexAfter (calls ++ [(fail, content)]) =
      (semanticSearchIndexDocument fail content (indexAfter calls)).2 := stateAfter_concat calls _
  rw [hafter]
  refine ⟨h.consistent, h'.consistent, fun hfailed => ?_⟩
  rw [hfailed, if_neg Bool.false_ne_true] at h'
  exact h.kept h' hterms

end EchoAi.Search
