import EchoAi.Lockstep
import EchoAi.Splitting
import EchoAi.Json.Text
import EchoAi.Tui.PromptStore

/-!
# What the store of prompts keeps

* `Ideal`: the prompts that were appended and the stack of the stash, as lists.
* `fillBuffer_eq`: what the buffer holds, and `entriesWrite_safe_iff`: when it is large enough.
* `entriesLoad_entriesWrite`: what is written safely is loaded again.
* `keeps_iff`: files and lists agree, and no buffer is overrun, just as long as the lines of every
  write fit.
* `latinJson`: a library of JSON on bytes.
-/

namespace EchoAi.PromptStore

/-! ## The lists -/

/-- The last entries, at most `cap` of them. -/
def lastOf {α : Type} (cap : Nat) (xs : List α) : List α := xs.drop (xs.length - cap)

/-- The prompts so far, and the stash with its top at the end. -/
structure Ideal where
  prompts : List Entry
  stash : List Entry
  deriving DecidableEq, Repr

/-- One more entry, unless it repeats the last one. -/
def pushNew (e : Entry) (xs : List Entry) : List Entry :=
  if xs.getLast?.any (·.input = e.input) then xs else xs ++ [e]

/-- The operations. -/
inductive Op where
  | historyAppend (input : CText) (mode : Option CText)
  | stashPush (input : CText)
  | stashPop
  | stashRemove (index : Int)

/-- The entry of a prompt. -/
def newEntry (input : CText) (mode : Option (List UInt8)) : Entry where
  input := input.bytes
  mode := if mode.getD [] = [] then none else mode

/-- The mode of what is stashed. -/
def stashMode : Option (List UInt8) := some (ascii "stash")

/-- The place of an entry of the list of the stash, which begins at its top. -/
def stashPlace (stash : List Entry) (index : Int) : Option Nat :=
  if 0 ≤ index ∧ index < stash.length then some (stash.length - 1 - index.toNat) else none

/-- What an operation gives out, and the lists behind it. -/
def Op.act (cap : Nat) (ideal : Ideal) : Op → Option (List UInt8) × Ideal
  | .historyAppend input mode =>
    (none, { ideal with prompts := pushNew (newEntry input (mode.map CText.bytes)) ideal.prompts })
  | .stashPush input =>
    (none, { ideal with stash := lastOf cap (pushNew (newEntry input stashMode) ideal.stash) })
  | .stashPop =>
    (ideal.stash.getLast?.map Entry.input, { ideal with stash := ideal.stash.dropLast })
  | .stashRemove index =>
    match stashPlace ideal.stash index with
    | none => (none, ideal)
    | some i => (none, { ideal with stash := ideal.stash.eraseIdx i })

/-- The files. -/
structure Store where
  history : List UInt8
  stash : List UInt8
  deriving DecidableEq, Repr

/-- The operation on its file. -/
def Op.outcome (json : ObjectJson) (cap : Nat) (store : Store) : Op → Outcome
  | .historyAppend input mode =>
    PromptStore.historyAppend json store.history input.bytes (mode.map CText.bytes) cap
  | .stashPush input => PromptStore.stashPush json store.stash input.bytes cap
  | .stashPop => PromptStore.stashPop json store.stash
  | .stashRemove index => PromptStore.stashRemove json store.stash index

/-- The files behind an operation. -/
def Op.run (json : ObjectJson) (cap : Nat) (store : Store) (op : Op) : Store :=
  match op with
  | .historyAppend _ _ => { store with history := (op.outcome json cap store).file }
  | _ => { store with stash := (op.outcome json cap store).file }

/-- The files and the lists behind an operation. -/
def stepBoth (json : ObjectJson) (cap : Nat) (s : Store × Ideal) (op : Op) : Store × Ideal :=
  (op.run json cap s.1, (op.act cap s.2).2)

/-- Files and lists behind some operations. -/
def storeAfter (json : ObjectJson) (cap : Nat) (ops : List Op) : Store × Ideal :=
  stateAfter (stepBoth json cap) ({ history := [], stash := [] }, { prompts := [], stash := [] }) ops

/-- An operation is right: the history loads as the last prompts, the stash lists as the stack, what
is given out is right, and the buffer is used safely. -/
structure Right (json : ObjectJson) (cap : Nat) (s : Store × Ideal) (op : Op) : Prop where
  history : historyLoad json (op.run json cap s.1).history =
    lastOf cap ((op.act cap s.2).2.prompts.map Entry.input)
  stash : stashList json (op.run json cap s.1).stash =
    ((op.act cap s.2).2.stash.map Entry.input).reverse
  bound : (op.act cap s.2).2.stash.length ≤ cap
  out : (op.outcome json cap s.1).out = (op.act cap s.2).1
  safe : ∀ w ∈ (op.outcome json cap s.1).written, w.Safe

/-- The entries that an operation writes. -/
def Op.writes (cap : Nat) (ideal : Ideal) : Op → Option (List Entry)
  | .historyAppend input mode =>
    if ideal.prompts.getLast?.any (·.input = input.bytes) then none
    else some (lastOf cap (ideal.prompts ++ [newEntry input (mode.map CText.bytes)]))
  | .stashPush input =>
    if ideal.stash.getLast?.any (·.input = input.bytes) then none
    else some (lastOf cap (ideal.stash ++ [newEntry input stashMode]))
  | .stashPop => if ideal.stash = [] then none else some ideal.stash.dropLast
  | .stashRemove index => (stashPlace ideal.stash index).map ideal.stash.eraseIdx

/-- The lines of the entries, with their newlines. -/
def linesOf (json : ObjectJson) (arr : List Entry) : List UInt8 :=
  arr.flatMap fun e => entryToJson json e ++ [10]

/-- The lines are not longer than the buffer. -/
def Fits (json : ObjectJson) (arr : List Entry) : Prop :=
  (linesOf json arr).length ≤ bufferSize arr

/-! ## The buffer -/

/-- The buffer holds as much of the lines as it has room for. -/
theorem foldl_snprintf {json : ObjectJson} {total : Nat} (arr : List Entry) {done : List UInt8}
    {buf : WriteBuf} (htext : buf.text = done.take (total - 1)) (hpos : buf.pos = done.length) :
    (arr.foldl (fun buf e => buf.snprintf total (entryToJson json e ++ [10])) buf).text =
        (done ++ linesOf json arr).take (total - 1) ∧
      (arr.foldl (fun buf e => buf.snprintf total (entryToJson json e ++ [10])) buf).pos =
        (done ++ linesOf json arr).length := by
  induction arr generalizing done buf with
  | nil =>
    rw [linesOf, List.flatMap_nil, List.append_nil]
    exact ⟨htext, hpos⟩
  | cons e arr ih =>
    have hlines : done ++ linesOf json (e :: arr) =
        (done ++ (entryToJson json e ++ [10])) ++ linesOf json arr := by
      rw [List.append_assoc]
      rfl
    rw [List.foldl_cons, hlines]
    refine ih ?_ ?_
    · generalize entryToJson json e ++ [10] = line
      show (if buf.pos < total then buf.text ++ line.take (total - buf.pos - 1) else buf.text) = _
      rw [htext, hpos, List.take_append]
      split
      · next hlt => rw [show total - done.length - 1 = total - 1 - done.length by omega]
      · next hge => rw [show total - 1 - done.length = 0 by omega, List.take_zero, List.append_nil]
    · show buf.pos + _ = _
      rw [hpos, List.length_append, List.length_append, List.length_append]

theorem overrun_foldl {json : ObjectJson} {total : Nat} (arr : List Entry) {buf : WriteBuf}
    (hoverrun : buf.overrun = false)
    (hfits : buf.pos + (linesOf json arr).length ≤ total) :
    (arr.foldl (fun buf e => buf.snprintf total (entryToJson json e ++ [10])) buf).overrun =
      false := by
  induction arr generalizing buf with
  | nil => exact hoverrun
  | cons e arr ih =>
    rw [linesOf, List.flatMap_cons, List.length_append] at hfits
    rw [List.foldl_cons]
    refine ih ?_ ?_
    · show (buf.overrun || decide (total < buf.pos)) = false
      rw [hoverrun, Bool.false_or]
      exact decide_eq_false (by omega)
    · show buf.pos + _ + (linesOf json arr).length ≤ total
      rw [Nat.add_assoc]
      exact hfits

theorem text_fillBuffer (json : ObjectJson) (total : Nat) (arr : List Entry) :
    (fillBuffer json total arr).text = (linesOf json arr).take (total - 1) :=
  (@foldl_snprintf json total arr [] _ List.take_nil.symm rfl).1

theorem pos_fillBuffer (json : ObjectJson) (total : Nat) (arr : List Entry) :
    (fillBuffer json total arr).pos = (linesOf json arr).length :=
  (@foldl_snprintf json total arr [] _ List.take_nil.symm rfl).2

/-- The buffer is used safely just when the lines fit. -/
theorem safe_entriesWrite_iff {json : ObjectJson} {arr : List Entry} :
    (entriesWrite json arr).Safe ↔ Fits json arr := by
  unfold entriesWrite
  split
  · next hnil =>
    rw [hnil]
    exact iff_of_true ⟨rfl, Nat.le_refl 0⟩ (Nat.zero_le _)
  · constructor
    · intro h
      have hpos := h.2
      rwa [pos_fillBuffer] at hpos
    · intro h
      refine ⟨overrun_foldl arr rfl ?_, ?_⟩
      · rw [Nat.zero_add]
        exact h
      · rw [pos_fillBuffer]
        exact h

/-! ## Writing and loading -/

/-- An entry that the store makes. -/
structure Entry.Clean (e : Entry) : Prop where
  input : 0 ∉ e.input
  mode : ∀ mode ∈ e.mode, mode ≠ [] ∧ 0 ∉ mode

section Inverse

variable {json : ObjectJson} {arr : List Entry} {e : Entry}

/-- The members of an entry are texts of C. -/
theorem noNul_members (he : e.Clean) :
    ∀ m ∈ (ascii "input", e.input) ::
      (if e.mode.getD [] = [] then [] else [(ascii "mode", e.mode.getD [])]),
      0 ∉ m.1 ∧ 0 ∉ m.2 := by
  intro m hm
  rcases List.mem_cons.1 hm with rfl | hm
  · exact ⟨(by decide : 0 ∉ ascii "input"), he.input⟩
  · split at hm
    · exact absurd hm List.not_mem_nil
    · next hmode =>
      rw [List.mem_singleton.1 hm]
      refine ⟨(by decide : 0 ∉ ascii "mode"), ?_⟩
      cases h : e.mode with
      | none => exact List.not_mem_nil
      | some mode => exact (he.mode mode h).2

/-- A line is parsed into the entry that it was written for. -/
theorem entryParse_entryToJson (hjson : json.Inverse) (he : e.Clean) : entryParse json (entryToJson json e) = some e := by
  unfold entryParse entryToJson
  rw [hjson.parse_print _ (noNul_members he)]
  obtain ⟨input, mode⟩ := e
  cases mode with
  | none => rfl
  | some mode =>
    have hmode : ¬(some mode).getD [] = [] := (he.mode mode rfl).1
    rw [if_neg hmode]
    rfl

theorem notMem_entryToJson (hjson : json.Inverse) (he : e.Clean) :
    10 ∉ entryToJson json e ∧ 0 ∉ entryToJson json e :=
  hjson.notMem_print _ (noNul_members he)

/-- The lines of a file. -/
theorem splitOn_linesOf (hjson : json.Inverse) (harr : ∀ e ∈ arr, e.Clean) (rest : List UInt8) :
    (linesOf json arr ++ rest).splitOn 10 = arr.map (entryToJson json) ++ rest.splitOn 10 := by
  induction arr with
  | nil => rfl
  | cons e arr ih =>
    rw [List.forall_mem_cons] at harr
    have hlines : linesOf json (e :: arr) ++ rest =
        entryToJson json e ++ 10 :: (linesOf json arr ++ rest) := by
      rw [linesOf, List.flatMap_cons, List.append_assoc, List.append_assoc]
      rfl
    rw [hlines, List.splitOn_append_cons_self_of_not_mem (notMem_entryToJson hjson harr.1).1,
      ih harr.2]
    rfl

theorem notMem_linesOf (hjson : json.Inverse) (harr : ∀ e ∈ arr, e.Clean) : 0 ∉ linesOf json arr := by
  intro hmem
  obtain ⟨e, he, hmem⟩ := List.mem_flatMap.1 hmem
  rcases List.mem_append.1 hmem with hmem | hmem
  · exact (notMem_entryToJson hjson (harr e he)).2 hmem
  · exact absurd hmem (by decide)

/-- The lines of entries are loaded, and what follows the last of them is not looked at when it is
empty. -/
theorem filterMap_lines (hjson : json.Inverse) (harr : ∀ e ∈ arr, e.Clean) {rest : List (List UInt8)}
    (hrest : ∀ line ∈ rest, line = []) :
    (((arr.map (entryToJson json)) ++ rest).filter (· ≠ [])).filterMap (entryParse json) = arr := by
  have hnil : rest.filter (· ≠ []) = [] := by
    refine List.filter_eq_nil_iff.2 fun line hline => ?_
    rw [hrest line hline]
    decide
  have hall : (arr.map (entryToJson json)).filter (· ≠ []) = arr.map (entryToJson json) := by
    refine List.filter_eq_self.2 fun line hline => ?_
    obtain ⟨e, -, rfl⟩ := List.mem_map.1 hline
    exact decide_eq_true (hjson.print_ne_nil _)
  rw [List.filter_append, hnil, hall, List.append_nil, List.filterMap_map]
  have hparse : ∀ e ∈ arr, (entryParse json ∘ entryToJson json) e = some e :=
    fun e he => entryParse_entryToJson hjson (harr e he)
  rw [List.filterMap_congr hparse, List.filterMap_some]

/-- What is written safely is loaded again. -/
theorem entriesLoad_entriesWrite (hjson : json.Inverse) (harr : ∀ e ∈ arr, e.Clean) (hfits : Fits json arr) :
    entriesLoad json (entriesWrite json arr).file = arr := by
  unfold entriesWrite
  split
  · next hnil =>
    rw [hnil]
    rfl
  next hne =>
  show entriesLoad json (fillBuffer json (bufferSize arr) arr).text = arr
  rw [text_fillBuffer]
  unfold Fits at hfits
  rcases Nat.lt_or_eq_of_le hfits with hlt | heq
  · rw [List.take_of_length_le (by omega), entriesLoad, cString_of_notMem (notMem_linesOf hjson harr)]
    have hsplit := splitOn_linesOf hjson harr []
    rw [List.append_nil] at hsplit
    rw [hsplit]
    exact filterMap_lines hjson harr fun line hline => by simpa using hline
  · -- the newline of the last line has no room
    obtain ⟨init, last, hconcat⟩ := (List.eq_nil_or_concat arr).resolve_left hne
    rw [List.concat_eq_append] at hconcat
    have hlines : linesOf json arr = linesOf json init ++ entryToJson json last ++ [10] := by
      rw [hconcat, linesOf, List.flatMap_append, List.flatMap_singleton, List.append_assoc]
      rfl
    have htake : (linesOf json arr).take (bufferSize arr - 1) =
        linesOf json init ++ entryToJson json last := by
      rw [← heq, hlines, List.length_append, List.length_singleton, Nat.add_sub_cancel,
        List.take_left]
    have hinit : ∀ e ∈ init, e.Clean := fun e he =>
      harr e (hconcat ▸ List.mem_append_left [last] he)
    have hlast : last.Clean := harr last (hconcat ▸ List.mem_append_right init List.mem_cons_self)
    have hnul : 0 ∉ linesOf json init ++ entryToJson json last := by
      intro hmem
      rcases List.mem_append.1 hmem with hmem | hmem
      · exact notMem_linesOf hjson hinit hmem
      · exact (notMem_entryToJson hjson hlast).2 hmem
    have hmap : init.map (entryToJson json) ++ [entryToJson json last] =
        arr.map (entryToJson json) := by
      rw [hconcat, List.map_append, List.map_singleton]
    rw [htake, entriesLoad, cString_of_notMem hnul, splitOn_linesOf hjson hinit,
      List.splitOn_eq_singleton (notMem_entryToJson hjson hlast).1, hmap]
    have hload := @filterMap_lines json arr hjson harr [] nofun
    rwa [List.append_nil] at hload

end Inverse

/-! ## The last entries -/

section LastOf

variable {α β : Type} {cap : Nat} {xs : List α}

theorem length_lastOf_le (cap : Nat) (xs : List α) : (lastOf cap xs).length ≤ cap := by
  rw [lastOf, List.length_drop]
  omega

theorem lastOf_of_length_le (h : xs.length ≤ cap) : lastOf cap xs = xs := by
  rw [lastOf, Nat.sub_eq_zero_of_le h, List.drop_zero]

theorem map_lastOf (f : α → β) (cap : Nat) (xs : List α) :
    (lastOf cap xs).map f = lastOf cap (xs.map f) := by
  rw [lastOf, lastOf, List.map_drop, List.length_map]

theorem getLast?_lastOf (hcap : 0 < cap) (xs : List α) :
    (lastOf cap xs).getLast? = xs.getLast? := by
  rw [lastOf, List.getLast?_drop]
  split
  · next h =>
    have hnil : xs = [] := List.eq_nil_of_length_eq_zero (by omega)
    rw [hnil]
    rfl
  · rfl

/-- The newest are the same, whether the oldest go before or after one more comes. -/
theorem lastOf_lastOf_concat (hcap : 0 < cap) (xs : List α) (x : α) :
    lastOf cap (lastOf cap xs ++ [x]) = lastOf cap (xs ++ [x]) := by
  unfold lastOf
  rcases Nat.le_total xs.length cap with hle | hle
  · rw [Nat.sub_eq_zero_of_le hle, List.drop_zero]
  · have hlen : (xs.drop (xs.length - cap) ++ [x]).length - cap = 1 := by
      rw [List.length_append, List.length_drop, List.length_singleton]
      omega
    have hlen' : (xs ++ [x]).length - cap = xs.length - cap + 1 := by
      rw [List.length_append, List.length_singleton]
      omega
    have hle' : xs.length - cap ≤ xs.length := Nat.sub_le ..
    rw [hlen, hlen', ← List.drop_drop, List.drop_append_of_le_length hle']

end LastOf

/-! ## One step -/

/-- The files load as the lists. -/
structure Agrees (json : ObjectJson) (cap : Nat) (s : Store × Ideal) : Prop where
  history : entriesLoad json s.1.history = lastOf cap s.2.prompts
  stash : entriesLoad json s.1.stash = s.2.stash
  bound : s.2.stash.length ≤ cap
  cleanPrompts : ∀ e ∈ s.2.prompts, e.Clean
  cleanStash : ∀ e ∈ s.2.stash, e.Clean

theorem clean_newEntry (input : CText) {mode : Option (List UInt8)}
    (hmode : ∀ m ∈ mode, 0 ∉ m) : (newEntry input mode).Clean := by
  refine ⟨input.noNul, fun m hm => ?_⟩
  unfold newEntry at hm
  dsimp only at hm
  split at hm
  · exact absurd hm (by simp)
  · next hne =>
    refine ⟨fun hnil => hne ?_, hmode m hm⟩
    rw [hm, hnil]
    rfl

theorem clean_of_mem_lastOf {cap : Nat} {xs : List Entry} (h : ∀ e ∈ xs, e.Clean) :
    ∀ e ∈ lastOf cap xs, e.Clean := fun e he => h e (List.mem_of_mem_drop he)

theorem clean_concat {xs : List Entry} (h : ∀ e ∈ xs, e.Clean) {e : Entry} (he : e.Clean) :
    ∀ e' ∈ xs ++ [e], e'.Clean := by
  intro e' he'
  rcases List.mem_append.1 he' with he' | he'
  · exact h e' he'
  · rw [List.mem_singleton.1 he']
    exact he

/-- What the code appends, seen from the entries that were appended before. -/
theorem historyAppend_eq {json : ObjectJson} {cap : Nat} (hcap : 0 < cap) {file : List UInt8}
    {xs : List Entry} (hload : entriesLoad json file = lastOf cap xs) (input : CText)
    (mode : Option (List UInt8)) :
    historyAppend json file input.bytes mode cap =
      if xs.getLast?.any (·.input = input.bytes) then
        { rc := 0, out := none, written := none, file }
      else Outcome.ofWrite json none (lastOf cap (xs ++ [newEntry input mode])) := by
  unfold historyAppend
  dsimp only
  rw [hload, getLast?_lastOf hcap]
  split
  · rfl
  · have hone : ¬(cap : Int) < 1 := by omega
    rw [if_neg hone, ← lastOf_lastOf_concat hcap]
    refine congrArg (Outcome.ofWrite json none) ?_
    have hstart : ∀ n : Nat, (if (cap : Int) < n then ((n : Int) - cap).toNat else 0) = n - cap := by
      intro n
      split <;> omega
    exact congrArg (List.drop · (lastOf cap xs ++ [newEntry input mode])) (hstart _)

/-- What the code removes, seen from the entries of the stash. -/
theorem stashRemove_eq {json : ObjectJson} {file : List UInt8} {index : Int} :
    stashRemove json file index =
      match stashPlace (entriesLoad json file) index with
      | none => { rc := -1, out := none, written := none, file }
      | some i => Outcome.ofWrite json none ((entriesLoad json file).eraseIdx i) := by
  unfold stashRemove stashPlace
  dsimp only
  by_cases hindex : 0 ≤ index ∧ index < (entriesLoad json file).length
  · rw [if_pos hindex, if_neg (by omega)]
    have hplace : ((entriesLoad json file).length - 1 - index : Int).toNat =
        (entriesLoad json file).length - 1 - index.toNat := by omega
    rw [hplace]
  · rw [if_neg hindex, if_pos (by omega)]

/-- What an operation does: it leaves everything as it is, or it writes the entries that the lists
have for it. -/
theorem step_cases {json : ObjectJson} (hjson : json.Inverse) {cap : Nat} (hcap : 0 < cap)
    {s : Store × Ideal} (h : Agrees json cap s) (op : Op) :
    (op.writes cap s.2 = none ∧ (op.outcome json cap s.1).out = (op.act cap s.2).1 ∧
      (op.outcome json cap s.1).written = none ∧ stepBoth json cap s op = s) ∨
    ∃ arr, op.writes cap s.2 = some arr ∧
      op.outcome json cap s.1 = Outcome.ofWrite json (op.act cap s.2).1 arr ∧
      (Fits json arr → Agrees json cap (stepBoth json cap s op)) := by
  obtain ⟨store, ideal⟩ := s
  have hstash : lastOf cap ideal.stash = ideal.stash := lastOf_of_length_le h.bound
  cases op with
  | historyAppend input mode =>
    have heq := historyAppend_eq hcap h.history input (mode.map CText.bytes)
    by_cases hdup : ideal.prompts.getLast?.any (·.input = input.bytes)
    · have hsame : Op.outcome json cap store (.historyAppend input mode) =
          { rc := 0, out := none, written := none, file := store.history } :=
        heq.trans (if_pos hdup)
      have hact : (Op.act cap ideal (.historyAppend input mode)).2.prompts = ideal.prompts :=
        if_pos hdup
      refine Or.inl ⟨if_pos hdup, by rw [hsame]; rfl, by rw [hsame], ?_⟩
      show (({ store with history := (Op.outcome json cap store (.historyAppend input mode)).file },
        { ideal with prompts := (Op.act cap ideal (.historyAppend input mode)).2.prompts }) :
          Store × Ideal) = (store, ideal)
      rw [hsame, hact]
    · have hnew : Op.outcome json cap store (.historyAppend input mode) = Outcome.ofWrite json none
          (lastOf cap (ideal.prompts ++ [newEntry input (mode.map CText.bytes)])) :=
        heq.trans (if_neg hdup)
      have hact : (Op.act cap ideal (.historyAppend input mode)).2.prompts =
          ideal.prompts ++ [newEntry input (mode.map CText.bytes)] := if_neg hdup
      have hclean : ∀ e ∈ ideal.prompts ++ [newEntry input (mode.map CText.bytes)], e.Clean := by
        refine clean_concat h.cleanPrompts (clean_newEntry input fun m hm => ?_)
        obtain ⟨text, -, rfl⟩ := Option.map_eq_some_iff.1 hm
        exact text.noNul
      refine Or.inr ⟨_, if_neg hdup, hnew, fun hfits => ?_⟩
      refine ⟨?_, h.stash, h.bound, ?_, h.cleanStash⟩
      · show entriesLoad json (Op.outcome json cap store (.historyAppend input mode)).file =
          lastOf cap (Op.act cap ideal (.historyAppend input mode)).2.prompts
        rw [hnew, hact]
        exact entriesLoad_entriesWrite hjson (clean_of_mem_lastOf hclean) hfits
      · show ∀ e ∈ (Op.act cap ideal (.historyAppend input mode)).2.prompts, e.Clean
        rwa [hact]
  | stashPush input =>
    have heq := historyAppend_eq hcap (h.stash.trans hstash.symm) input stashMode
    by_cases hdup : ideal.stash.getLast?.any (·.input = input.bytes)
    · have hsame : Op.outcome json cap store (.stashPush input) =
          { rc := 0, out := none, written := none, file := store.stash } :=
        heq.trans (if_pos hdup)
      have hact : (Op.act cap ideal (.stashPush input)).2.stash = ideal.stash :=
        (congrArg (lastOf cap) (if_pos hdup)).trans hstash
      refine Or.inl ⟨if_pos hdup, by rw [hsame]; rfl, by rw [hsame], ?_⟩
      show (({ store with stash := (Op.outcome json cap store (.stashPush input)).file },
        { ideal with stash := (Op.act cap ideal (.stashPush input)).2.stash }) :
          Store × Ideal) = (store, ideal)
      rw [hsame, hact]
    · have hnew : Op.outcome json cap store (.stashPush input) = Outcome.ofWrite json none
          (lastOf cap (ideal.stash ++ [newEntry input stashMode])) := heq.trans (if_neg hdup)
      have hact : (Op.act cap ideal (.stashPush input)).2.stash =
          lastOf cap (ideal.stash ++ [newEntry input stashMode]) :=
        congrArg (lastOf cap) (if_neg hdup)
      have hclean : ∀ e ∈ lastOf cap (ideal.stash ++ [newEntry input stashMode]), e.Clean := by
        refine clean_of_mem_lastOf (clean_concat h.cleanStash (clean_newEntry input fun m hm => ?_))
        rw [← Option.some.inj hm]
        decide
      refine Or.inr ⟨_, if_neg hdup, hnew, fun hfits => ?_⟩
      refine ⟨h.history, ?_, ?_, h.cleanPrompts, ?_⟩
      · show entriesLoad json (Op.outcome json cap store (.stashPush input)).file =
          (Op.act cap ideal (.stashPush input)).2.stash
        rw [hnew, hact]
        exact entriesLoad_entriesWrite hjson hclean hfits
      · show (Op.act cap ideal (.stashPush input)).2.stash.length ≤ cap
        rw [hact]
        exact length_lastOf_le ..
      · show ∀ e ∈ (Op.act cap ideal (.stashPush input)).2.stash, e.Clean
        rwa [hact]
  | stashPop =>
    have hload : entriesLoad json store.stash = ideal.stash := h.stash
    cases hlast : ideal.stash.getLast? with
    | none =>
      have hnil : ideal.stash = [] := List.getLast?_eq_none_iff.1 hlast
      have hsame : Op.outcome json cap store .stashPop =
          { rc := 0, out := none, written := none, file := store.stash } := by
        show stashPop json store.stash = _
        rw [stashPop, hload, hlast]
      refine Or.inl ⟨if_pos hnil, ?_, by rw [hsame], ?_⟩
      · show _ = ideal.stash.getLast?.map Entry.input
        rw [hsame, hlast]
        rfl
      · show (({ store with stash := (Op.outcome json cap store .stashPop).file },
          { ideal with stash := ideal.stash.dropLast }) : Store × Ideal) = (store, ideal)
        have hdrop : ideal.stash.dropLast = ideal.stash := by
          rw [hnil]
          rfl
        rw [hsame, hdrop]
    | some last =>
      have hne : ideal.stash ≠ [] := by
        intro hnil
        rw [hnil] at hlast
        exact absurd hlast (by simp)
      have hnew : Op.outcome json cap store .stashPop =
          Outcome.ofWrite json (some last.input) ideal.stash.dropLast := by
        show stashPop json store.stash = _
        rw [stashPop, hload, hlast]
      have hclean : ∀ e ∈ ideal.stash.dropLast, e.Clean :=
        fun e he => h.cleanStash e (List.mem_of_mem_dropLast he)
      refine Or.inr ⟨_, if_neg hne, ?_, fun hfits => ⟨h.history, ?_, ?_, h.cleanPrompts, hclean⟩⟩
      · show _ = Outcome.ofWrite json (ideal.stash.getLast?.map Entry.input) _
        rw [hlast]
        exact hnew
      · show entriesLoad json (Op.outcome json cap store .stashPop).file = ideal.stash.dropLast
        rw [hnew]
        exact entriesLoad_entriesWrite hjson hclean hfits
      · show ideal.stash.dropLast.length ≤ cap
        rw [List.length_dropLast]
        exact Nat.le_trans (Nat.sub_le ..) h.bound
  | stashRemove index =>
    have hload : entriesLoad json store.stash = ideal.stash := h.stash
    have hremove := @stashRemove_eq json store.stash index
    rw [hload] at hremove
    cases hplace : stashPlace ideal.stash index with
    | none =>
      have hsame : Op.outcome json cap store (.stashRemove index) =
          { rc := -1, out := none, written := none, file := store.stash } := by
        show stashRemove json store.stash index = _
        rw [hremove, hplace]
      have hact : Op.act cap ideal (.stashRemove index) = (none, ideal) := by
        rw [Op.act, hplace]
      refine Or.inl ⟨?_, by rw [hsame, hact], by rw [hsame], ?_⟩
      · rw [Op.writes, hplace]
        rfl
      · show (({ store with stash := (Op.outcome json cap store (.stashRemove index)).file },
          (Op.act cap ideal (.stashRemove index)).2) : Store × Ideal) = (store, ideal)
        rw [hsame, hact]
    | some i =>
      have hnew : Op.outcome json cap store (.stashRemove index) =
          Outcome.ofWrite json none (ideal.stash.eraseIdx i) := by
        show stashRemove json store.stash index = _
        rw [hremove, hplace]
      have hact : Op.act cap ideal (.stashRemove index) =
          (none, { ideal with stash := ideal.stash.eraseIdx i }) := by
        rw [Op.act, hplace]
      have hclean : ∀ e ∈ ideal.stash.eraseIdx i, e.Clean :=
        fun e he => h.cleanStash e (List.mem_of_mem_eraseIdx he)
      refine Or.inr ⟨_, by rw [Op.writes, hplace]; rfl, by rw [hnew, hact], fun hfits => ?_⟩
      show Agrees json cap ({ store with
        stash := (Op.outcome json cap store (.stashRemove index)).file },
          (Op.act cap ideal (.stashRemove index)).2)
      rw [hnew, hact]
      refine ⟨h.history, entriesLoad_entriesWrite hjson hclean hfits, ?_, h.cleanPrompts, hclean⟩
      show (ideal.stash.eraseIdx i).length ≤ cap
      exact Nat.le_trans (List.length_eraseIdx_le ..) h.bound

theorem right_of_agrees {json : ObjectJson} {cap : Nat} {s : Store × Ideal} {op : Op}
    (h : Agrees json cap (stepBoth json cap s op))
    (hout : (op.outcome json cap s.1).out = (op.act cap s.2).1)
    (hsafe : ∀ w ∈ (op.outcome json cap s.1).written, w.Safe) : Right json cap s op where
  history := by
    rw [← map_lastOf]
    exact congrArg (List.map Entry.input) h.history
  stash := congrArg (fun arr => (arr.map Entry.input).reverse) h.stash
  bound := h.bound
  out := hout
  safe := hsafe

/-- An operation is right just when its lines fit. -/
theorem right_iff {json : ObjectJson} (hjson : json.Inverse) {cap : Nat} (hcap : 0 < cap)
    {s : Store × Ideal} (h : Agrees json cap s) (op : Op) :
    Right json cap s op ↔ ∀ arr ∈ op.writes cap s.2, Fits json arr := by
  rcases step_cases hjson hcap h op with ⟨hwrites, hout, hwritten, hstep⟩ |
    ⟨arr, hwrites, houtcome, hagrees⟩
  · rw [hwrites]
    refine iff_of_true (right_of_agrees ?_ hout ?_) nofun
    · rwa [hstep]
    · rw [hwritten]
      exact nofun
  · rw [hwrites]
    constructor
    · intro hright arr' harr
      have hsafe := hright.safe
      rw [houtcome] at hsafe
      rw [← Option.some.inj harr]
      exact safe_entriesWrite_iff.1 (hsafe _ rfl)
    · intro hfits
      refine right_of_agrees (hagrees (hfits arr rfl)) ?_ ?_
      · rw [houtcome]
        rfl
      · rw [houtcome]
        intro w hw
        rw [← Option.some.inj hw]
        exact safe_entriesWrite_iff.2 (hfits arr rfl)

theorem agrees_stepBoth {json : ObjectJson} (hjson : json.Inverse) {cap : Nat} (hcap : 0 < cap)
    {s : Store × Ideal} (h : Agrees json cap s) (op : Op)
    (hfits : ∀ arr ∈ op.writes cap s.2, Fits json arr) :
    Agrees json cap (stepBoth json cap s op) := by
  rcases step_cases hjson hcap h op with ⟨-, -, -, hstep⟩ | ⟨arr, hwrites, -, hagrees⟩
  · rwa [hstep]
  · exact hagrees (hfits arr hwrites)

/-- The files keep what the lists say, and no buffer is overrun, just as long as the lines of every
write fit. -/
theorem keeps_iff {json : ObjectJson} (hjson : json.Inverse) {cap : Nat} (hcap : 0 < cap)
    (ops : List Op) :
    (∀ front op, front ++ [op] <+: ops → Right json cap (storeAfter json cap front) op) ↔
      ∀ front op, front ++ [op] <+: ops →
        ∀ arr ∈ op.writes cap (storeAfter json cap front).2, Fits json arr := by
  have hstart : Agrees json cap
      ({ history := [], stash := [] }, { prompts := [], stash := [] }) :=
    ⟨(lastOf_of_length_le (Nat.zero_le _)).symm, rfl, Nat.zero_le _, nofun, nofun⟩
  exact stepwise_iff hstart (fun s op h => right_iff hjson hcap h op)
    (fun s op h hfits => agrees_stepBoth hjson hcap h op hfits) ops

/-! ## A library of JSON on bytes -/

/-- A text with one character for each byte. -/
def latin (bs : List UInt8) : String := String.ofList (bs.map fun b => Char.ofNat b.toNat)

/-- The library on bytes that stand for one character each. -/
def latinJson : ObjectJson where
  parse bs :=
    match textCodec.parse (latin bs) with
    | some (.object members) =>
      some (members.map fun m => (ascii m.1, m.2.stringValue.map ascii))
    | _ => none
  print members :=
    ascii (textCodec.print (.object (members.map fun m => (latin m.1, .string (latin m.2)))))

theorem ascii_latin (bs : List UInt8) : ascii (latin bs) = bs := by
  have hchar : ∀ n < 256, (Char.ofNat n).toNat = n := by decide +kernel
  rw [ascii, latin, String.toList_ofList, List.map_map]
  refine (List.map_congr_left fun b _ => ?_).trans (List.map_id bs)
  show UInt8.ofNat (Char.ofNat b.toNat).toNat = b
  rw [hchar b.toNat b.toNat_lt, UInt8.ofNat_toNat]

/-- A character of a line of JSON. -/
def IsLineChar (c : Char) : Prop := c.toNat < 256 ∧ c.toNat ≠ 0 ∧ c.toNat ≠ 10

instance (c : Char) : Decidable (IsLineChar c) := inferInstanceAs (Decidable (_ ∧ _))

theorem isLineChar_of_all {cs : List Char} (h : (cs.all fun c => IsLineChar c) = true) :
    ∀ c ∈ cs, IsLineChar c :=
  fun c hc => of_decide_eq_true (List.all_eq_true.1 h c hc)

theorem isLineChar_printString {bs : List UInt8} (h : 0 ∉ bs) :
    ∀ c ∈ JsonText.printString (latin bs), IsLineChar c := by
  have hall : ∀ n < 256, n ≠ 0 →
      ((JsonText.escapeChar (Char.ofNat n)).all fun c => IsLineChar c) = true := by
    decide +kernel
  have hescape : ∀ n < 256, n ≠ 0 → ∀ c ∈ JsonText.escapeChar (Char.ofNat n), IsLineChar c :=
    fun n hn hzero => isLineChar_of_all (hall n hn hzero)
  intro c hc
  rw [JsonText.printString, latin, String.toList_ofList] at hc
  rcases List.mem_cons.1 hc with rfl | hc
  · decide
  rcases List.mem_append.1 hc with hc | hc
  · rw [List.map_map] at hc
    obtain ⟨escaped, hescaped, hc⟩ := List.mem_flatten.1 hc
    obtain ⟨b, hb, rfl⟩ := List.mem_map.1 hescaped
    refine hescape b.toNat b.toNat_lt (fun hzero => h ?_) c hc
    rwa [← UInt8.toNat_inj.1 (show b.toNat = (0 : UInt8).toNat from hzero)]
  · rw [List.mem_singleton.1 hc]
    decide

theorem isLineChar_printMembers {members : List (List UInt8 × List UInt8)}
    (h : ∀ m ∈ members, 0 ∉ m.1 ∧ 0 ∉ m.2) :
    ∀ c ∈ JsonText.printMembers
      (members.map fun m => (latin m.1, JsonValue.string (latin m.2))), IsLineChar c := by
  induction members with
  | nil => exact isLineChar_of_all (by decide)
  | cons m members ih =>
    rw [List.forall_mem_cons] at h
    intro c hc
    rw [List.map_cons, JsonText.printMembers, JsonText.printValue] at hc
    rcases List.mem_cons.1 hc with rfl | hc
    · decide
    rcases List.mem_append.1 hc with hc | hc
    · exact isLineChar_printString h.1.1 c hc
    rcases List.mem_cons.1 hc with rfl | hc
    · decide
    rcases List.mem_append.1 hc with hc | hc
    · exact isLineChar_printString h.1.2 c hc
    · exact ih h.2 c hc

theorem isLineChar_printValue {members : List (List UInt8 × List UInt8)}
    (h : ∀ m ∈ members, 0 ∉ m.1 ∧ 0 ∉ m.2) :
    ∀ c ∈ JsonText.printValue (.object
      (members.map fun m => (latin m.1, JsonValue.string (latin m.2)))), IsLineChar c := by
  cases members with
  | nil => exact isLineChar_of_all (by decide)
  | cons m members =>
    intro c hc
    have hmembers := isLineChar_printMembers h c
    rw [List.map_cons, JsonText.printMembers] at hmembers
    rw [List.map_cons, JsonText.printValue] at hc
    rcases List.mem_cons.1 hc with rfl | hc
    · decide
    · exact hmembers (List.mem_cons_of_mem _ hc)

theorem latin_ascii_ofList {cs : List Char} (h : ∀ c ∈ cs, IsLineChar c) :
    latin (ascii (String.ofList cs)) = String.ofList cs := by
  rw [latin, ascii, String.toList_ofList, List.map_map]
  refine congrArg String.ofList ((List.map_congr_left fun c hc => ?_).trans (List.map_id cs))
  show Char.ofNat (UInt8.ofNat c.toNat).toNat = c
  rw [UInt8.toNat_ofNat_of_lt' (h c hc).1, Char.ofNat_toNat]

theorem latinJson_parse {bs : List UInt8} {members : List (String × JsonValue)}
    (h : textCodec.parse (latin bs) = some (.object members)) : latinJson.parse bs =
      some (members.map fun m => (ascii m.1, m.2.stringValue.map ascii)) := by
  unfold latinJson
  dsimp only
  rw [h]

theorem mem_print_iff {v : JsonValue} {c : Char} :
    c ∈ (textCodec.print v).toList ↔ c ∈ JsonText.printValue v := by
  show c ∈ (String.ofList (JsonText.printValue v)).toList ↔ _
  rw [String.toList_ofList]

/-- Its lines are parsed again. -/
theorem latinJson_inverse : latinJson.Inverse where
  parse_print members h := by
    have hprint : textCodec.parse (latin (latinJson.print members)) =
        some (.object (members.map fun m => (latin m.1, .string (latin m.2)))) :=
      (congrArg textCodec.parse (latin_ascii_ofList (isLineChar_printValue h))).trans
        (textCodec.parse_print _)
    rw [latinJson_parse hprint, List.map_map]
    refine congrArg some (List.map_congr_left fun m _ => ?_)
    show (ascii (latin m.1), some (ascii (latin m.2))) = _
    rw [ascii_latin, ascii_latin]
  notMem_print members h := by
    have hline : ∀ b ∈ latinJson.print members, b ≠ 10 ∧ b ≠ 0 := by
      intro b hb
      obtain ⟨c, hc, rfl⟩ := List.mem_map.1 hb
      have hchar := isLineChar_printValue h c (mem_print_iff.1 hc)
      have hbyte : (UInt8.ofNat c.toNat).toNat = c.toNat := by
        rw [UInt8.toNat_ofNat']
        exact Nat.mod_eq_of_lt hchar.1
      constructor
      · intro heq
        rw [heq] at hbyte
        exact hchar.2.2 hbyte.symm
      · intro heq
        rw [heq] at hbyte
        exact hchar.2.1 hbyte.symm
    exact ⟨fun hmem => (hline 10 hmem).1 rfl, fun hmem => (hline 0 hmem).2 rfl⟩
  print_ne_nil members := by
    intro hnil
    have hlen := JsonText.length_printValue_pos
      (.object (members.map fun m => (latin m.1, .string (latin m.2))))
    obtain ⟨c, hc⟩ := List.exists_mem_of_length_pos hlen
    have hmem : UInt8.ofNat c.toNat ∈ latinJson.print members :=
      List.mem_map.2 ⟨c, mem_print_iff.2 hc, rfl⟩
    rw [hnil] at hmem
    exact List.not_mem_nil hmem

/-! ## Control characters -/

/-- A prompt of `n` control characters, each of which takes six bytes in a line. -/
def controls (n : Nat) : CText where
  bytes := List.replicate n 1
  noNul hmem := absurd (List.eq_of_mem_replicate hmem) (by decide)

/-- A few of them have room. -/
theorem keeps_controls :
    Right latinJson 1 (storeAfter latinJson 1 []) (.historyAppend (controls 4) none) := by
  refine (keeps_iff latinJson_inverse (by decide) [.historyAppend (controls 4) none]).2
    (fun front op hfront => ?_) [] _ List.prefix_rfl
  rcases List.prefix_concat_iff.1 (show front ++ [op] <+: [] ++ [_] from hfront) with heq | hnil
  · obtain ⟨rfl, hop⟩ := List.append_inj' heq rfl
    obtain rfl := List.singleton_inj.1 hop
    intro arr harr
    rw [← Option.some.inj (show some _ = some arr from harr)]
    unfold Fits
    decide +kernel
  · exact absurd (List.prefix_nil.1 hnil) (by simp)

/-- More of them have not: the line is longer than the buffer. -/
theorem not_keeps_controls :
    ¬∀ json : ObjectJson, json.Inverse → ∀ cap, 0 < cap → ∀ ops front op,
      front ++ [op] <+: ops → Right json cap (storeAfter json cap front) op := by
  intro h
  have hright := h latinJson latinJson_inverse 1 (by decide) [.historyAppend (controls 12) none] []
    (.historyAppend (controls 12) none) List.prefix_rfl
  have hsafe : Fits latinJson [newEntry (controls 12) none] :=
    safe_entriesWrite_iff.1 (hright.safe _ rfl)
  refine absurd hsafe ?_
  unfold Fits
  decide +kernel

end EchoAi.PromptStore
