import EchoAi.Bytes
import EchoAi.Ctype
import EchoAi.Faults
import EchoAi.Tally

/-!
# The search index

Documents are cut into tokens and kept with a row of frequencies each, one entry for every term.

* `tokenize`: the tokens of a text; `tokenize_eq`: they are its words, the short ones left out.
* `SearchIndex`: the arrays of the index; a missing array is empty, and an entry of a row that was
  never written is missing.
* `addTerm`, `semanticSearchIndexDocument`: what changes the index, under failures of its
  allocations.
-/

namespace EchoAi.Search

/-- `MAX_DOCS` -/
def maxDocs : Nat := 256

/-- `MAX_TOKENS` -/
def maxTokens : Nat := 8192

/-- `MAX_TOKEN_LEN` -/
def maxTokenLen : Nat := 128

/-! ## Tokens -/

/-- The token that ends here is kept when it is long enough. -/
def endToken (kept : List (List UInt8)) (token : List UInt8) : List (List UInt8) :=
  if 0 < token.length then if 3 ≤ token.length then kept ++ [token] else kept else kept

/-- The loop of `tokenize`, with the tokens so far and the one that is being read. -/
def tokenizeFrom (kept : List (List UInt8)) (token : List UInt8) : List UInt8 → List (List UInt8)
  | [] => endToken kept token
  | c :: rest =>
    if maxTokens ≤ kept.length then endToken kept token
    else if isAlnum c then
      tokenizeFrom kept (if token.length < maxTokenLen - 1 then token ++ [toLower c] else token) rest
    else tokenizeFrom (endToken kept token) [] rest

def tokenize (text : CText) : List (List UInt8) := tokenizeFrom [] [] text.bytes

/-- The token of a word. -/
def tokenOf (word : List UInt8) : List UInt8 := (word.map toLower).take (maxTokenLen - 1)

/-- The tokens of a text: its words of three characters and more, cut and in lower case, as many as
there is room for. -/
def tokensOf (text : List UInt8) : List (List UInt8) :=
  (((text.splitOnP fun c => !isAlnum c).filter fun word => 3 ≤ word.length).map tokenOf).take maxTokens

theorem length_tokenOf (word : List UInt8) : (tokenOf word).length = min 127 word.length := by
  rw [tokenOf, List.length_take, List.length_map, maxTokenLen]

/-- One character more of a word, as the loop takes it. -/
theorem tokenOf_concat (word : List UInt8) (c : UInt8) :
    tokenOf (word ++ [c]) =
      if (tokenOf word).length < maxTokenLen - 1 then tokenOf word ++ [toLower c] else tokenOf word := by
  have hlength := length_tokenOf word
  rw [tokenOf, List.map_append, List.map_singleton, List.take_append, ← tokenOf, List.length_map]
  split
  · next h =>
    rw [maxTokenLen] at h ⊢
    have hroom : 128 - 1 - word.length = 128 - 1 - word.length - 1 + 1 := by omega
    rw [hroom, List.take_succ_cons, List.take_nil]
  · next h =>
    rw [maxTokenLen] at h ⊢
    have hfull : 128 - 1 - word.length = 0 := by omega
    rw [hfull, List.take_zero, List.append_nil]

/-- A word that ends is kept as its token when it is long enough. -/
theorem endToken_tokenOf (kept : List (List UInt8)) (word : List UInt8) :
    endToken kept (tokenOf word) =
      kept ++ ([word].filter fun word => 3 ≤ word.length).map tokenOf := by
  have hlength := length_tokenOf word
  rw [endToken]
  by_cases h : 3 ≤ word.length
  · rw [if_pos (by omega), if_pos (by omega), List.filter_cons_of_pos (by simpa using h)]
    rfl
  · rw [List.filter_cons_of_neg (by simpa using h), List.filter_nil, List.map_nil, List.append_nil]
    split
    · rw [if_neg (by omega)]
    · rfl

/-- The loop, with the words that are still to come. -/
theorem tokenizeFrom_eq {kept : List (List UInt8)} {word : List UInt8}
    (hword : ∀ c ∈ word, isAlnum c = true) (hkept : kept.length ≤ maxTokens)
    (hfull : kept.length = maxTokens → word = []) (text : List UInt8) :
    tokenizeFrom kept (tokenOf word) text =
      (kept ++ (((word ++ text).splitOnP fun c => !isAlnum c).filter fun word =>
        3 ≤ word.length).map tokenOf).take maxTokens := by
  have hsep : ∀ c ∈ word, (!isAlnum c) = false := fun c hc => by rw [hword c hc, Bool.not_true]
  induction text generalizing kept word with
  | nil =>
    rw [tokenizeFrom, endToken_tokenOf, List.append_nil, List.splitOnP_eq_singleton hsep]
    refine (List.take_of_length_le ?_).symm
    by_cases h : kept.length = maxTokens
    · rw [hfull h]
      exact hkept.trans' (by simp)
    · have hone := List.length_filter_le (fun word : List UInt8 => decide (3 ≤ word.length)) [word]
      rw [List.length_append, List.length_map]
      rw [List.length_singleton] at hone
      omega
  | cons c rest ih =>
    rw [tokenizeFrom]
    split
    · next h =>
      have hlen : kept.length = maxTokens := Nat.le_antisymm hkept h
      rw [hfull hlen, List.take_append_of_le_length h, ← hlen, List.take_length]
      rfl
    · next h =>
      split
      · next hc =>
        have hword' : ∀ c' ∈ word ++ [c], isAlnum c' = true := by
          intro c' hc'
          rcases List.mem_append.mp hc' with hc' | hc'
          · exact hword c' hc'
          · rw [List.mem_singleton.mp hc', hc]
        rw [← tokenOf_concat, ih hword' hkept (fun heq => absurd heq (by omega))
          (fun c' hc' => by rw [hword' c' hc', Bool.not_true]), List.append_assoc,
          List.singleton_append]
      · next hc =>
        have hstop : (!isAlnum c) = true := by rw [Bool.eq_false_iff.mpr hc, Bool.not_false]
        have hone := List.length_filter_le (fun word : List UInt8 => decide (3 ≤ word.length)) [word]
        have hkept' : (kept ++ ([word].filter fun word => 3 ≤ word.length).map tokenOf).length ≤
            maxTokens := by
          rw [List.length_append, List.length_map]
          rw [List.length_singleton] at hone
          omega
        have hnone : ∀ c' ∈ ([] : List UInt8), isAlnum c' = true := nofun
        have hrest := ih hnone hkept' (fun _ => rfl) nofun
        rw [List.splitOnP_append_cons_of_forall_mem hsep c hstop, endToken_tokenOf]
        refine hrest.trans ?_
        rw [List.append_assoc, ← List.map_append, ← List.filter_append, List.singleton_append,
          List.nil_append]

theorem tokenize_eq (text : CText) : tokenize text = tokensOf text.bytes :=
  @tokenizeFrom_eq [] [] nofun (Nat.zero_le _) (fun _ => rfl) text.bytes

/-! ## The arrays -/

/-- A row of frequencies. -/
abbrev FreqRow := List (Option Nat)

structure SearchIndex where
  documents : List (Option CText) := []
  docCount : Nat := 0
  allTerms : List (Option (List UInt8)) := []
  termCount : Nat := 0
  termFreqs : List (Option FreqRow) := []
  docLengths : List Nat := []
  deriving DecidableEq

/-- What a call allocates; a term is duplicated and the rows are grown for it at a token. -/
inductive AllocSite
  | documents
  | allTerms
  | termFreqs
  | docLengths
  | content
  | row
  | term (token : Nat)
  | grow (token doc : Nat)
  deriving DecidableEq

/-- `realloc` of a row. -/
def reallocRow (row : FreqRow) (n : Nat) : FreqRow :=
  row.take n ++ List.replicate (n - row.length) none

def findTerm (ix : SearchIndex) (term : List UInt8) : Option Nat :=
  (ix.allTerms.take ix.termCount).findIdx? (· = some term)

/-- A row with room for the term, which does not occur in its document. -/
def growRow (t : Nat) (row : FreqRow) : FreqRow := (reallocRow row (t + 1)).set t (some 0)

/-- The rows of the first documents grow one after the other up to the first failure. -/
def growRows (fail : Nat → Bool) (t : Nat) :
    (docs i : Nat) → List (Option FreqRow) → Bool × List (Option FreqRow)
  | 0, _, rows => (true, rows)
  | _ + 1, _, [] => (true, [])
  | docs + 1, i, row :: rows =>
    if fail i then (false, row :: rows)
    else
      let (grown, rest) := growRows fail t docs (i + 1) rows
      (grown, some (growRow t (row.getD [])) :: rest)

def addTerm (fail : Faults AllocSite) (token : Nat) (term : List UInt8) (ix : SearchIndex) :
    Option Nat × SearchIndex :=
  match findTerm ix term with
  | some i => (some i, ix)
  | none =>
    if maxTokens ≤ ix.termCount then (none, ix)
    else if fail (.term token) then (none, ix)
    else
      let t := ix.termCount
      let (grown, rows) := growRows (fun i => fail (.grow token i)) t ix.docCount 0 ix.termFreqs
      if grown then
        (some t, { ix with
          termFreqs := rows, allTerms := ix.allTerms.set t (some term), termCount := t + 1 })
      else (none, { ix with termFreqs := rows })

/-- An array that is allocated at its first use; there is none when that fails. -/
def allocated {α : Type} (failed : Bool) (fresh : List α) : List α → Option (List α)
  | [] => if failed then none else some fresh
  | x :: xs => some (x :: xs)

/-- The backing arrays, as far as they could be allocated. -/
def ensureArrays (fail : Faults AllocSite) (ix : SearchIndex) : Bool × SearchIndex :=
  match allocated (fail .documents) (List.replicate maxDocs none) ix.documents with
  | none => (false, ix)
  | some documents =>
    let ix := { ix with documents }
    match allocated (fail .allTerms) (List.replicate maxTokens none) ix.allTerms with
    | none => (false, ix)
    | some allTerms =>
      let ix := { ix with allTerms }
      match allocated (fail .termFreqs) (List.replicate maxDocs none) ix.termFreqs with
      | none => (false, ix)
      | some termFreqs =>
        let ix := { ix with termFreqs }
        match allocated (fail .docLengths) (List.replicate maxDocs 0) ix.docLengths with
        | none => (false, ix)
        | some docLengths => (true, { ix with docLengths })

/-- One occurrence more at an entry of a row. -/
def increment (t : Nat) (row : FreqRow) : FreqRow := row.modify t (Option.map (· + 1))

/-- The tokens of the document at `idx`, counted one after the other up to the first failure. -/
def countTokens (fail : Faults AllocSite) (idx : Nat) :
    (token : Nat) → List (List UInt8) → SearchIndex → Bool × SearchIndex
  | _, [], ix => (true, ix)
  | token, term :: terms, ix =>
    match addTerm fail token term ix with
    | (some t, ix) =>
      countTokens fail idx (token + 1) terms
        { ix with
          termFreqs := ix.termFreqs.modify idx (Option.map (increment t)),
          docLengths := ix.docLengths.modify idx (· + 1) }
    | (none, ix) => (false, ix)

/-- `semantic_search_index_document`; it returns whether it succeeded. -/
def semanticSearchIndexDocument (fail : Faults AllocSite) (content : Option CText)
    (ix : SearchIndex) : Bool × SearchIndex :=
  match content with
  | none => (true, ix)
  | some content =>
    if maxDocs ≤ ix.docCount then (false, ix)
    else
      let (ready, ix) := ensureArrays fail ix
      if ready then
        let idx := ix.docCount
        if fail .content then (false, ix)
        else
          let ix := { ix with documents := ix.documents.set idx (some content) }
          let tokens := tokenize content
          if fail .row then (false, { ix with documents := ix.documents.set idx none })
          else
            let ix := { ix with
              termFreqs := ix.termFreqs.set idx (some (List.replicate maxTokens (some 0))),
              docLengths := ix.docLengths.set idx 0 }
            let (counted, ix) := countTokens fail idx 0 tokens ix
            if counted then (true, { ix with docCount := ix.docCount + 1 })
            else
              (false, { ix with
                documents := ix.documents.set idx none, termFreqs := ix.termFreqs.set idx none })
      else (false, ix)

end EchoAi.Search
