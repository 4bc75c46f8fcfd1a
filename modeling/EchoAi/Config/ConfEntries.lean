import EchoAi.Config.ConfLoad

/-!
# The entries of the configuration

* `Kept`, `Refused`: the key lines that have an entry, and those that find no place for one.
* `Stray`: a refused key line whose continuation lines go to the entry before it.
* `entries_ofBlocks`: without these every entry is that of its key line.
* `loaded_iff`: the loader reads the grammar just when there are none.
-/

namespace EchoAi.ConfFile

/-! ## The fate of a key line -/

section Fate

variable (fail : Faults ConfAlloc)

/-- The copies for the `n`-th key line are there. -/
def copied (n : Nat) : Bool := !fail (.key n) && !fail (.value n)

/-- How many of the first `n` key lines have all their allocations. -/
def places (n : Nat) : Nat := (List.range n).countP fun m => !fail (.fullKey m) && copied fail m

/-- The `n`-th key line leaves everything as it was: its key could not be put together, or the table
is full. -/
def Refused (n : Nat) : Prop := fail (.fullKey n) = true ∨ maxEntries ≤ places fail n

instance (n : Nat) : Decidable (Refused fail n) := inferInstanceAs (Decidable (_ ∨ _))

/-- The `n`-th key line has an entry. -/
def Kept (n : Nat) : Prop := ¬Refused fail n ∧ copied fail n = true

instance (n : Nat) : Decidable (Kept fail n) := inferInstanceAs (Decidable (_ ∧ _))

/-- The continuation lines of a block for which there is room. -/
def Block.grown (b : Block) : List (List UInt8) :=
  (b.continuations.zipIdx.filter fun text => !fail (.grow (b.number + 1) text.2)).map Prod.fst

/-- The last key line of the part that was not refused, up to the `n`-th, has an entry. -/
def Held (blocks : List Block) (part n : Nat) : Prop :=
  ∃ a ∈ blocks, a.part = part ∧ a.number < n ∧ Kept fail a.number ∧
    ∀ m, a.number < m → m < n → Refused fail m

/-- A refused key line that has continuation lines, when an entry of its part is the last one. -/
def Stray (blocks : List Block) (b : Block) : Prop :=
  Refused fail b.number ∧ b.grown fail ≠ [] ∧ Held fail blocks b.part b.number

/-- The entry of a block that is kept. -/
def Block.stored (b : Block) : Entry :=
  { key := b.storedKey, value := textOf b.value (b.grown fail) }

end Fate

/-- Blocks, the newest first, with their numbers and in the order of their parts. -/
def Ordered : List Block → Prop
  | [] => True
  | b :: older => b.number = older.length ∧ (∀ a ∈ older, a.part ≤ b.part) ∧ Ordered older

theorem Ordered.number_lt {blocks : List Block} (h : Ordered blocks) :
    ∀ b ∈ blocks, b.number < blocks.length := by
  induction blocks with
  | nil => nofun
  | cons b older ih =>
    obtain ⟨hnumber, -, holder⟩ := h
    intro a ha
    rw [List.length_cons]
    rcases List.mem_cons.1 ha with rfl | ha
    · omega
    · have hlt := ih holder a ha
      omega

/-! ## Growing a value -/

section Growing

variable {fail : Faults ConfAlloc}

theorem textOf_concat (value : List UInt8) (texts : List (List UInt8)) (text : List UInt8) :
    textOf value (texts ++ [text]) = textOf value texts ++ 10 :: text := by
  rw [textOf, textOf, List.flatMap_append, List.append_assoc]
  exact congrArg _ (congrArg _ (List.append_nil _))

/-- An entry with further lines. -/
def Entry.extendAll (texts : List (List UInt8)) (e : Entry) : Entry :=
  { e with value := textOf e.value texts }

theorem Entry.extendAll_nil (e : Entry) : e.extendAll [] = e := by
  rw [Entry.extendAll, textOf, List.flatMap_nil, List.append_nil]

theorem Entry.extend_extendAll (texts : List (List UInt8)) (text : List UInt8) (e : Entry) :
    (e.extendAll texts).extend text = e.extendAll (texts ++ [text]) := by
  rw [Entry.extendAll, Entry.extend, Entry.extendAll, textOf_concat]

theorem foldl_grow_of_none {t : Table} (h : t.last = none) (n : Nat)
    (texts : List (List UInt8 × Nat)) :
    texts.foldl (fun t text => t.grow fail n text.2 text.1) t = t := by
  induction texts with
  | nil => rfl
  | cons text texts ih => rw [List.foldl_cons, Table.grow_of_last_none h, ih]

theorem foldl_grow_of_some {t : Table} {i : Nat} (h : t.last = some i) (n : Nat)
    (texts : List (List UInt8 × Nat)) :
    texts.foldl (fun t text => t.grow fail n text.2 text.1) t =
      { t with
        entries := t.entries.modify i
          (Entry.extendAll ((texts.filter fun text => !fail (.grow n text.2)).map Prod.fst)) } := by
  induction texts using List.reverseRecOn with
  | nil =>
    have hid : Entry.extendAll [] = id := funext Entry.extendAll_nil
    rw [List.filter_nil, List.map_nil, hid, List.modify_id]
    rfl
  | append_singleton texts text ih =>
    have hextend (texts : List (List UInt8)) (text : List UInt8) :
        Entry.extend text ∘ Entry.extendAll texts = Entry.extendAll (texts ++ [text]) :=
      funext (Entry.extend_extendAll texts text)
    rw [List.foldl_concat, ih, List.filter_append, List.map_append]
    simp only [Table.grow, h]
    cases hfail : fail (.grow n text.2) with
    | true => simp [hfail]
    | false => simp [hfail, List.modify_modify_eq, hextend]

/-- The continuation lines of a block extend the last entry, if there is one. -/
theorem Table.growAll_eq (b : Block) (t : Table) :
    t.growAll fail b =
      match t.last with
      | none => t
      | some i => { t with entries := t.entries.modify i (Entry.extendAll (b.grown fail)) } := by
  rw [Table.growAll]
  split
  · next h => exact foldl_grow_of_none h _ _
  · next h => exact foldl_grow_of_some h _ _

end Growing

/-! ## The table of the blocks -/

section Tables

variable {fail : Faults ConfAlloc} {blocks older : List Block} {b : Block}

theorem places_succ (n : Nat) :
    places fail (n + 1) = places fail n + (!fail (.fullKey n) && copied fail n).toNat := by
  rw [places, List.range_succ, List.countP_append, List.countP_singleton, ← places]
  cases !fail (.fullKey n) && copied fail n <;> rfl

/-- Once the table is full it stays so. -/
theorem min_places_of_refused {n : Nat} (h : Refused fail n) :
    min maxEntries (places fail (n + 1)) = min maxEntries (places fail n) := by
  rw [places_succ]
  rcases h with hkey | hfull
  · rw [hkey]
    rfl
  · omega

theorem min_places_of_kept {n : Nat} (h : Kept fail n) :
    min maxEntries (places fail (n + 1)) = min maxEntries (places fail n) + 1 := by
  obtain ⟨hkey, hroom⟩ := not_or.1 h.1
  rw [places_succ, h.2, eq_false_of_ne_true hkey]
  show min maxEntries (places fail n + 1) = _
  omega

theorem min_places_of_not_copied {n : Nat} (h : copied fail n = false) :
    min maxEntries (places fail (n + 1)) = min maxEntries (places fail n) := by
  rw [places_succ, h, Bool.and_false]
  rfl

theorem Held.cons (b : Block) {part n : Nat} (h : Held fail older part n) :
    Held fail (b :: older) part n := by
  obtain ⟨a, ha, hrest⟩ := h
  exact ⟨a, List.mem_cons_of_mem b ha, hrest⟩

theorem Stray.cons (b' : Block) (h : Stray fail older b) : Stray fail (b' :: older) b :=
  ⟨h.1, h.2.1, h.2.2.cons b'⟩

/-- The table of some blocks: how many entries it has, and when the last one can be extended. -/
structure Tabled (fail : Faults ConfAlloc) (blocks : List Block) (t : Table) : Prop where
  length : t.entries.length = min maxEntries (places fail blocks.length)
  last : ∀ i, t.last = some i → i + 1 = t.entries.length
  held : ∀ b ∈ blocks.head?, (t.last.isSome ↔ Held fail blocks b.part (b.number + 1))
  unheld : blocks = [] → t.last = none

theorem Table.store_of_refused {n : Nat} {t : Table}
    (hlength : t.entries.length = min maxEntries (places fail n)) (h : Refused fail n)
    (key value : List UInt8) : t.store fail n key value = t := by
  rw [Table.store]
  split
  · rfl
  · next hkey =>
    have hfull : maxEntries ≤ places fail n := h.resolve_left hkey
    rw [if_neg (by omega)]

theorem Table.store_of_kept {n : Nat} {t : Table}
    (hlength : t.entries.length = min maxEntries (places fail n)) (h : Kept fail n)
    (key value : List UInt8) : t.store fail n key value =
      { entries := t.entries ++ [{ key, value }], last := some t.entries.length } := by
  obtain ⟨hkey, hroom⟩ := not_or.1 h.1
  have hcopied := h.2
  rw [copied, Bool.and_eq_true, Bool.not_eq_true', Bool.not_eq_true'] at hcopied
  rw [Table.store, if_neg hkey, if_pos (by omega), hcopied.1, hcopied.2]
  rfl

theorem Table.store_of_not_copied {n : Nat} {t : Table}
    (hlength : t.entries.length = min maxEntries (places fail n)) (h : ¬Refused fail n)
    (hcopied : copied fail n = false) (key value : List UInt8) :
    t.store fail n key value = { t with last := none } := by
  obtain ⟨hkey, hroom⟩ := not_or.1 h
  rw [Table.store, if_neg hkey, if_pos (by omega)]
  rw [copied] at hcopied
  cases hk : fail (.key n) with
  | true => rfl
  | false =>
    cases hv : fail (.value n) with
    | true => rfl
    | false =>
      rw [hk, hv] at hcopied
      exact Bool.noConfusion hcopied

theorem Table.last_growAll (b : Block) (t : Table) : (t.growAll fail b).last = t.last := by
  rw [Table.growAll_eq]
  split <;> rfl

theorem Table.length_growAll (b : Block) (t : Table) :
    (t.growAll fail b).entries.length = t.entries.length := by
  rw [Table.growAll_eq]
  split
  · rfl
  · exact List.length_modify ..

/-- When a block begins, an entry can be extended just when one is held. -/
theorem Tabled.isSome_enter (h : Tabled fail older (Table.ofBlocks fail older))
    (hordered : Ordered (b :: older)) :
    ((Table.ofBlocks fail older).enter b.part older).last.isSome ↔
      Held fail older b.part b.number := by
  obtain ⟨hnumber, hparts, holder⟩ := hordered
  cases older with
  | nil =>
    refine iff_of_false nofun ?_
    rintro ⟨a, ha, -⟩
    exact absurd ha nofun
  | cons c oldest =>
    by_cases hpart : c.part = b.part
    · rw [Table.enter_of_eq hpart, h.held c rfl, hpart, hnumber, List.length_cons, holder.1]
    · rw [Table.enter_of_ne fun a ha => Option.some.inj ha ▸ hpart]
      refine iff_of_false nofun ?_
      rintro ⟨a, ha, hapart, -⟩
      have hle := hparts c List.mem_cons_self
      rcases List.mem_cons.1 ha with rfl | ha
      · exact hpart hapart
      · have hle' := holder.2.1 a ha
        omega

/-- What is held when a block begins is held behind it, when it is refused. -/
theorem held_cons_of_refused (hordered : Ordered (b :: older)) (h : Refused fail b.number) :
    Held fail (b :: older) b.part (b.number + 1) ↔ Held fail older b.part b.number := by
  obtain ⟨hnumber, -, holder⟩ := hordered
  constructor
  · rintro ⟨a, ha, hpart, -, hkept, hrest⟩
    rcases List.mem_cons.1 ha with rfl | ha
    · exact absurd h hkept.1
    · refine ⟨a, ha, hpart, ?_, hkept, fun m hm hmb => hrest m hm (Nat.lt_succ_of_lt hmb)⟩
      rw [hnumber]
      exact holder.number_lt a ha
  · rintro ⟨a, ha, hpart, hlt, hkept, hrest⟩
    refine ⟨a, List.mem_cons_of_mem b ha, hpart, Nat.lt_succ_of_lt hlt, hkept, fun m hm hmb => ?_⟩
    rcases Nat.lt_succ_iff_lt_or_eq.1 hmb with hmb | rfl
    · exact hrest m hm hmb
    · exact h

/-- The table of any blocks. -/
theorem tabled_ofBlocks (fail : Faults ConfAlloc) (hordered : Ordered blocks) :
    Tabled fail blocks (Table.ofBlocks fail blocks) := by
  induction blocks with
  | nil =>
    refine ⟨rfl, fun i hi => ?_, fun b hb => ?_, fun _ => rfl⟩
    · exact absurd hi (Option.some_ne_none i).symm
    · exact absurd hb (Option.some_ne_none b).symm
  | cons b older ih =>
    have htable := ih hordered.2.2
    have hheld := htable.isSome_enter hordered
    have hnumber : b.number = older.length := hordered.1
    have hlength : ((Table.ofBlocks fail older).enter b.part older).entries.length =
        min maxEntries (places fail b.number) := by
      rw [Table.entries_enter, htable.length, hnumber]
    have hlast : ∀ i, ((Table.ofBlocks fail older).enter b.part older).last = some i →
        i + 1 = ((Table.ofBlocks fail older).enter b.part older).entries.length := by
      intro i hi
      rw [Table.entries_enter]
      refine htable.last i ?_
      rw [Table.enter] at hi
      split at hi
      · exact hi
      · exact absurd hi (Option.some_ne_none i).symm
    rw [Table.ofBlocks]
    by_cases hrefused : Refused fail b.number
    · rw [Table.store_of_refused hlength hrefused]
      refine ⟨?_, ?_, fun a ha => ?_, fun hnil => absurd hnil (List.cons_ne_nil b older)⟩
      · rw [Table.length_growAll, hlength, List.length_cons, ← hnumber, min_places_of_refused hrefused]
      · rw [Table.last_growAll, Table.length_growAll]
        exact hlast
      · obtain rfl := Option.some.inj ha
        rw [Table.last_growAll, hheld]
        exact (held_cons_of_refused hordered hrefused).symm
    · cases hcopied : copied fail b.number with
      | true =>
        have hkept : Kept fail b.number := ⟨hrefused, hcopied⟩
        rw [Table.store_of_kept hlength hkept]
        refine ⟨?_, ?_, fun a ha => ?_, fun hnil => absurd hnil (List.cons_ne_nil b older)⟩
        · rw [Table.length_growAll, List.length_append, hlength, List.length_singleton,
            List.length_cons, ← hnumber, min_places_of_kept hkept]
        · intro i hi
          rw [Table.last_growAll] at hi
          rw [Table.length_growAll, List.length_append, ← Option.some.inj hi, List.length_singleton]
        · obtain rfl := Option.some.inj ha
          rw [Table.last_growAll]
          refine iff_of_true rfl ⟨b, List.mem_cons_self, rfl, Nat.lt_succ_self _, hkept,
            fun m hm hmb => ?_⟩
          omega
      | false =>
        rw [Table.store_of_not_copied hlength hrefused hcopied]
        refine ⟨?_, ?_, fun a ha => ?_, fun hnil => absurd hnil (List.cons_ne_nil b older)⟩
        · rw [Table.length_growAll, List.length_cons, ← hnumber, min_places_of_not_copied hcopied]
          exact hlength
        · intro i hi
          rw [Table.last_growAll] at hi
          exact absurd hi (Option.some_ne_none i).symm
        · obtain rfl := Option.some.inj ha
          rw [Table.last_growAll]
          refine iff_of_false Bool.false_ne_true ?_
          rintro ⟨a, ha, -, -, hkept, hrest⟩
          rcases List.mem_cons.1 ha with rfl | ha
          · rw [hkept.2] at hcopied
            exact Bool.noConfusion hcopied
          · refine hrefused (hrest b.number ?_ (Nat.lt_succ_self _))
            rw [hnumber]
            exact hordered.2.2.number_lt a ha

/-! ## The entries -/

/-- The blocks that are kept, the oldest first. -/
def keptOf (fail : Faults ConfAlloc) (blocks : List Block) : List Block :=
  blocks.reverse.filter fun b => Kept fail b.number

theorem keptOf_cons (b : Block) (older : List Block) : keptOf fail (b :: older) =
    keptOf fail older ++ if Kept fail b.number then [b] else [] := by
  rw [keptOf, List.reverse_cons, List.filter_append, ← keptOf, List.filter_singleton]
  by_cases h : Kept fail b.number
  · rw [if_pos h, decide_eq_true h]
    rfl
  · rw [if_neg h, decide_eq_false h]
    rfl

/-- What the block before leaves is there when a block begins. -/
theorem Tabled.length_enter (h : Tabled fail older (Table.ofBlocks fail older))
    (hordered : Ordered (b :: older)) :
    ((Table.ofBlocks fail older).enter b.part older).entries.length =
      min maxEntries (places fail b.number) := by
  rw [Table.entries_enter, h.length, hordered.1]

theorem modify_length_concat {α : Type*} (l : List α) (a : α) (f : α → α) :
    (l ++ [a]).modify l.length f = l ++ [f a] := by
  induction l with
  | nil => rfl
  | cons b l ih => rw [List.cons_append, List.length_cons, List.modify_succ_cons, ih]; rfl

/-- A block that is kept adds its entry. -/
theorem entries_ofBlocks_of_kept (hordered : Ordered (b :: older)) (h : Kept fail b.number) :
    (Table.ofBlocks fail (b :: older)).entries =
      (Table.ofBlocks fail older).entries ++ [b.stored fail] := by
  have hlength := (tabled_ofBlocks fail hordered.2.2).length_enter hordered
  rw [Table.ofBlocks, Table.store_of_kept hlength h, Table.growAll_eq]
  show List.modify (_ ++ [_]) _ _ = _
  rw [modify_length_concat, Table.entries_enter]
  rfl

/-- A block that is refused extends the last entry, if it is held. -/
theorem entries_ofBlocks_of_held (hordered : Ordered (b :: older)) (h : Refused fail b.number)
    (hheld : Held fail older b.part b.number) :
    ∃ i < (Table.ofBlocks fail older).entries.length,
      (Table.ofBlocks fail (b :: older)).entries =
        (Table.ofBlocks fail older).entries.modify i (Entry.extendAll (b.grown fail)) := by
  have htable := tabled_ofBlocks fail hordered.2.2
  obtain ⟨i, hi⟩ := Option.isSome_iff_exists.1 ((htable.isSome_enter hordered).2 hheld)
  refine ⟨i, ?_, ?_⟩
  · have hlast : (Table.ofBlocks fail older).last = some i := by
      rw [Table.enter] at hi
      split at hi
      · exact hi
      · exact absurd hi (Option.some_ne_none i).symm
    have hlt := htable.last i hlast
    omega
  · rw [Table.ofBlocks, Table.store_of_refused (htable.length_enter hordered) h, Table.growAll_eq, hi]
    show List.modify _ _ _ = _
    rw [Table.entries_enter]

/-- Otherwise a block leaves the entries as they are. -/
theorem entries_ofBlocks_of_not_kept (hordered : Ordered (b :: older))
    (h : ¬Kept fail b.number) (hheld : Refused fail b.number → ¬Held fail older b.part b.number) :
    (Table.ofBlocks fail (b :: older)).entries = (Table.ofBlocks fail older).entries := by
  have htable := tabled_ofBlocks fail hordered.2.2
  have hlength := htable.length_enter hordered
  rw [Table.ofBlocks]
  by_cases hrefused : Refused fail b.number
  · have hnone : ((Table.ofBlocks fail older).enter b.part older).last = none := by
      rw [← Option.not_isSome_iff_eq_none, htable.isSome_enter hordered]
      exact hheld hrefused
    rw [Table.store_of_refused hlength hrefused, Table.growAll_eq, hnone]
    exact Table.entries_enter _ _ _
  · have hcopied : copied fail b.number = false := by
      rw [Bool.eq_false_iff]
      exact fun hcopied => h ⟨hrefused, hcopied⟩
    rw [Table.store_of_not_copied hlength hrefused hcopied, Table.growAll_eq]
    exact Table.entries_enter _ _ _

/-- Without stray lines every entry is that of its key line. -/
theorem entries_ofBlocks (hordered : Ordered blocks) (hstray : ∀ b ∈ blocks, ¬Stray fail blocks b) :
    (Table.ofBlocks fail blocks).entries = (keptOf fail blocks).map (Block.stored fail) := by
  induction blocks with
  | nil => rfl
  | cons b older ih =>
    have holder := ih hordered.2.2 fun a ha hs =>
      hstray a (List.mem_cons_of_mem b ha) (hs.cons b)
    rw [keptOf_cons, List.map_append, ← holder]
    by_cases hkept : Kept fail b.number
    · rw [entries_ofBlocks_of_kept hordered hkept, if_pos hkept]
      rfl
    · rw [if_neg hkept, List.map_nil, List.append_nil]
      by_cases hheld : Refused fail b.number ∧ Held fail older b.part b.number
      · obtain ⟨i, -, hentries⟩ := entries_ofBlocks_of_held hordered hheld.1 hheld.2
        have hgrown : b.grown fail = [] := by
          by_contra hgrown
          exact hstray b List.mem_cons_self ⟨hheld.1, hgrown, hheld.2.cons b⟩
        have hid : Entry.extendAll [] = id := funext Entry.extendAll_nil
        rw [hentries, hgrown, hid, List.modify_id]
      · exact entries_ofBlocks_of_not_kept hordered hkept fun hr hh => hheld ⟨hr, hh⟩

/-- The bytes in the values of some entries. -/
def valueSize (entries : List Entry) : Nat := (entries.map fun e => e.value.length).sum

theorem valueSize_append (entries entries' : List Entry) :
    valueSize (entries ++ entries') = valueSize entries + valueSize entries' := by
  rw [valueSize, List.map_append, List.sum_append]
  rfl

theorem valueSize_modify {entries : List Entry} {i : Nat} (hi : i < entries.length)
    {texts : List (List UInt8)} (h : texts ≠ []) :
    valueSize entries < valueSize (entries.modify i (Entry.extendAll texts)) := by
  obtain ⟨front, e, back, hl, -, hmodify⟩ := List.exists_of_modify (Entry.extendAll texts) hi
  rw [hmodify, hl, valueSize_append, valueSize_append]
  obtain ⟨text, rest, rfl⟩ := List.exists_cons_of_ne_nil h
  simp only [valueSize, List.map_cons, List.sum_cons, Entry.extendAll, textOf, List.flatMap_cons,
    List.length_append, List.length_cons]
  omega

/-- A block is not held for those before it. -/
theorem Held.of_cons (hordered : Ordered (b :: older)) {part n : Nat} (hn : n ≤ older.length)
    (h : Held fail (b :: older) part n) : Held fail older part n := by
  obtain ⟨a, ha, hpart, hlt, hrest⟩ := h
  rcases List.mem_cons.1 ha with rfl | ha
  · rw [hordered.1] at hlt
    omega
  · exact ⟨a, ha, hpart, hlt, hrest⟩

/-- A block that is not kept makes no entry shorter. -/
theorem valueSize_le_of_not_kept (hordered : Ordered (b :: older)) (h : ¬Kept fail b.number) :
    valueSize (Table.ofBlocks fail older).entries ≤
      valueSize (Table.ofBlocks fail (b :: older)).entries := by
  by_cases hheld : Refused fail b.number ∧ Held fail older b.part b.number
  · obtain ⟨i, hi, hentries⟩ := entries_ofBlocks_of_held hordered hheld.1 hheld.2
    rw [hentries]
    by_cases hgrown : b.grown fail = []
    · have hid : Entry.extendAll [] = id := funext Entry.extendAll_nil
      rw [hgrown, hid, List.modify_id]
    · exact Nat.le_of_lt (valueSize_modify hi hgrown)
  · rw [entries_ofBlocks_of_not_kept hordered h fun hr hh => hheld ⟨hr, hh⟩]

/-- No entry is shorter than that of its key line. -/
theorem valueSize_le (hordered : Ordered blocks) :
    valueSize ((keptOf fail blocks).map (Block.stored fail)) ≤
      valueSize (Table.ofBlocks fail blocks).entries := by
  induction blocks with
  | nil => exact Nat.le_refl _
  | cons b older ih =>
    have hle := ih hordered.2.2
    rw [keptOf_cons, List.map_append, valueSize_append]
    by_cases hkept : Kept fail b.number
    · rw [entries_ofBlocks_of_kept hordered hkept, if_pos hkept, valueSize_append]
      exact Nat.add_le_add_right hle _
    · rw [if_neg hkept]
      exact Nat.le_trans hle (valueSize_le_of_not_kept hordered hkept)

/-- A stray line makes an entry longer. -/
theorem valueSize_lt (hordered : Ordered blocks) (hstray : ∃ b ∈ blocks, Stray fail blocks b) :
    valueSize ((keptOf fail blocks).map (Block.stored fail)) <
      valueSize (Table.ofBlocks fail blocks).entries := by
  induction blocks with
  | nil =>
    obtain ⟨b, hb, -⟩ := hstray
    exact absurd hb nofun
  | cons b older ih =>
    have holder := hordered.2.2
    have hle := @valueSize_le fail older holder
    obtain ⟨b', hb', hrefused, hgrown, hheld⟩ := hstray
    -- the stray lines are those of the new block, or of one before it
    rcases List.mem_cons.1 hb' with rfl | hb'
    · have hkept : ¬Kept fail b'.number := fun hkept => hkept.1 hrefused
      have hheld' := hheld.of_cons hordered (Nat.le_of_eq hordered.1)
      obtain ⟨i, hi, hentries⟩ := entries_ofBlocks_of_held hordered hrefused hheld'
      rw [keptOf_cons, if_neg hkept, List.append_nil, hentries]
      exact Nat.lt_of_le_of_lt hle (valueSize_modify hi hgrown)
    · have hlt := ih holder ⟨b', hb', hrefused, hgrown,
        hheld.of_cons hordered (Nat.le_of_lt (holder.number_lt b' hb'))⟩
      rw [keptOf_cons, List.map_append, valueSize_append]
      by_cases hkept : Kept fail b.number
      · rw [entries_ofBlocks_of_kept hordered hkept, if_pos hkept, valueSize_append]
        exact Nat.add_lt_add_right hlt _
      · rw [if_neg hkept]
        exact Nat.lt_of_lt_of_le hlt (valueSize_le_of_not_kept hordered hkept)

end Tables

/-! ## The blocks of a file -/

theorem Ordered.read {r : Reading} (h : Ordered r.blocks) (hparts : ∀ b ∈ r.blocks, b.part ≤ r.part)
    (kind : LineKind) :
    Ordered (r.read kind).blocks ∧ ∀ b ∈ (r.read kind).blocks, b.part ≤ (r.read kind).part := by
  cases kind with
  | blank => exact ⟨h, hparts⟩
  | heading name => exact ⟨h, fun b hb => Nat.le_succ_of_le (hparts b hb)⟩
  | key key value =>
    refine ⟨⟨rfl, hparts, h⟩, fun b hb => ?_⟩
    rcases List.mem_cons.1 hb with rfl | hb
    · exact Nat.le_refl _
    · exact hparts b hb
  | continuation text =>
    rw [Reading.read]
    split
    · exact ⟨h, hparts⟩
    · next b older hblocks =>
      rw [hblocks] at h hparts
      split
      · refine ⟨h, fun a ha => ?_⟩
        rcases List.mem_cons.1 ha with rfl | ha
        · exact hparts b List.mem_cons_self
        · exact hparts a (List.mem_cons_of_mem b ha)
      · rw [hblocks]
        exact ⟨h, hparts⟩

theorem ordered_ofLines (lines : List (List UInt8)) :
    Ordered (Reading.ofLines lines).blocks ∧
      ∀ b ∈ (Reading.ofLines lines).blocks, b.part ≤ (Reading.ofLines lines).part := by
  induction lines using List.reverseRecOn with
  | nil => exact ⟨trivial, nofun⟩
  | append_singleton lines line ih =>
    rw [Reading.ofLines, List.foldl_concat]
    exact Ordered.read ih.1 ih.2 (kindOf line)

theorem ordered_blocksOf (content : List UInt8) : Ordered (blocksOf content).reverse := by
  rw [blocksOf, List.reverse_reverse]
  exact (ordered_ofLines _).1

theorem stray_reverse {fail : Faults ConfAlloc} {blocks : List Block} {b : Block} :
    Stray fail blocks.reverse b ↔ Stray fail blocks b := by
  simp only [Stray, Held, List.mem_reverse]

/-! ## Without failures -/

theorem places_none (n : Nat) : places Faults.none n = n := by
  exact (List.countP_eq_length.2 fun _ _ => rfl).trans List.length_range

theorem kept_none_iff {n : Nat} : Kept Faults.none n ↔ n < maxEntries := by
  rw [Kept, Refused, places_none]
  simp [copied]

theorem grown_none (b : Block) : b.grown Faults.none = b.continuations := by
  rw [Block.grown]
  refine (congrArg (List.map Prod.fst) (List.filter_eq_self.2 fun _ _ => rfl)).trans ?_
  exact List.zipIdx_map_fst 0 _

theorem keptOf_none {blocks : List Block} (h : Ordered blocks) :
    keptOf Faults.none blocks = blocks.reverse.take maxEntries := by
  induction blocks with
  | nil => rfl
  | cons b older ih =>
    rw [keptOf_cons, ih h.2.2, List.reverse_cons, List.take_append, List.length_reverse]
    congr 1
    simp only [kept_none_iff, h.1]
    split
    · next hlt => rw [List.take_of_length_le (by rw [List.length_singleton]; omega)]
    · next hge => rw [show maxEntries - older.length = 0 by omega, List.take_zero]

theorem fullKeyOf_take_iff {sectionName key : List UInt8} :
    fullKeyOf (sectionName.take (sectionSize - 1)) key = fullKeyOf sectionName key ↔
      sectionName.length < sectionSize := by
  constructor
  · intro heq
    by_contra hlong
    have hlen := congrArg List.length heq
    have hne : sectionName ≠ [] := by
      rintro rfl
      exact hlong (by decide)
    have hne' : sectionName.take (sectionSize - 1) ≠ [] := by
      rw [ne_eq, List.take_eq_nil_iff, not_or]
      exact ⟨by decide, hne⟩
    rw [fullKeyOf, fullKeyOf, if_neg hne, if_neg hne', List.length_append, List.length_append,
      List.length_take] at hlen
    have hsize : sectionSize = 256 := rfl
    omega
  · intro hshort
    rw [List.take_of_length_le (Nat.le_sub_one_of_lt hshort)]

/-! ## When the grammar is read -/

/-- Some key lines are missing, and some continuation lines of the others. -/
def Missing (entries : List Entry) (blocks : List Block) : Prop :=
  ∃ kept, kept.Sublist blocks ∧ List.Forall₂ (fun e b =>
    e.key = fullKeyOf b.sectionName b.key ∧
      ∃ texts, texts.Sublist b.continuations ∧ e.value = textOf b.value texts) entries kept

theorem grown_sublist (fail : Faults ConfAlloc) (b : Block) :
    (b.grown fail).Sublist b.continuations := by
  have hsub : (b.grown fail).Sublist (b.continuations.zipIdx.map Prod.fst) :=
    List.filter_sublist.map Prod.fst
  rwa [List.zipIdx_map_fst] at hsub

/-- Where all lines fit, the entries are those of the grammar just when the headings of the entries
fit and no continuation line is stray.  Under failures text may be missing, and only stray lines are
added to another entry. -/
theorem confLoad_iff (content : List UInt8) (hnul : 0 ∉ content)
    (hfits : ∀ line ∈ content.splitOn 10, line.length < lineSize) :
    (confLoad Faults.none content = some (entriesOf content) ↔
      (∀ b ∈ (blocksOf content).take maxEntries, b.sectionName.length < sectionSize) ∧
        ∀ b ∈ blocksOf content, ¬Stray Faults.none (blocksOf content) b) ∧
    ∀ fail entries,
      (∀ b ∈ blocksOf content, b.sectionName.length < sectionSize ∧ ¬Stray fail (blocksOf content) b) →
      confLoad fail content = some entries → Missing entries (blocksOf content) := by
  have hordered := ordered_blocksOf content
  constructor
  · rw [confLoad_eq hnul hfits rfl, Option.some_inj, entriesOf]
    have hkept := keptOf_none hordered
    rw [List.reverse_reverse] at hkept
    have hstored : ∀ b : Block, b.stored Faults.none =
        { key := b.storedKey, value := b.entry.value } := fun b => by
      rw [Block.stored, grown_none]
      rfl
    constructor
    · intro heq
      have hstray : ∀ b ∈ blocksOf content, ¬Stray Faults.none (blocksOf content) b := by
        intro b hb hs
        have hlt := valueSize_lt hordered ⟨b, List.mem_reverse.2 hb, stray_reverse.2 hs⟩
        rw [heq, hkept, valueSize, valueSize, List.map_map, List.map_map] at hlt
        refine Nat.lt_irrefl _ (Nat.lt_of_lt_of_le hlt (Nat.le_of_eq ?_))
        refine congrArg List.sum (List.map_congr_left fun a _ => ?_)
        show a.entry.value.length = (a.stored Faults.none).value.length
        rw [hstored]
      refine ⟨fun b hb => ?_, hstray⟩
      rw [entries_ofBlocks hordered fun b hb hs =>
        hstray b (List.mem_reverse.1 hb) (stray_reverse.1 hs), hkept] at heq
      have hentry := List.map_inj_left.1 heq b hb
      rw [hstored] at hentry
      exact fullKeyOf_take_iff.1 (congrArg Entry.key hentry)
    · rintro ⟨hshort, hstray⟩
      rw [entries_ofBlocks hordered fun b hb hs =>
        hstray b (List.mem_reverse.1 hb) (stray_reverse.1 hs), hkept]
      refine List.map_congr_left fun b hb => ?_
      rw [hstored, Block.storedKey, fullKeyOf_take_iff.2 (hshort b hb)]
      rfl
  · intro fail entries hblocks hload
    have hconf : fail .conf = false := by
      cases hconf : fail .conf with
      | false => rfl
      | true =>
        rw [confLoad, hconf] at hload
        exact absurd hload (Option.some_ne_none entries).symm
    rw [confLoad_eq hnul hfits hconf, Option.some_inj] at hload
    subst hload
    rw [entries_ofBlocks hordered fun b hb hs =>
      (hblocks b (List.mem_reverse.1 hb)).2 (stray_reverse.1 hs)]
    refine ⟨keptOf fail (blocksOf content).reverse, ?_, ?_⟩
    · rw [keptOf, List.reverse_reverse]
      exact List.filter_sublist
    · rw [List.forall₂_map_left_iff, List.forall₂_same]
      intro b hb
      rw [keptOf, List.reverse_reverse] at hb
      have hshort := (hblocks b (List.mem_filter.1 hb).1).1
      exact ⟨fullKeyOf_take_iff.2 hshort, b.grown fail, grown_sublist fail b, rfl⟩

/-- A heading, a key line and a continuation line. -/
theorem confLoad_section :
    (confLoad Faults.none (ascii "[s]\na=1\n b") = some (entriesOf (ascii "[s]\na=1\n b")) ↔
      (∀ b ∈ (blocksOf (ascii "[s]\na=1\n b")).take maxEntries, b.sectionName.length < sectionSize) ∧
        ∀ b ∈ blocksOf (ascii "[s]\na=1\n b"),
          ¬Stray Faults.none (blocksOf (ascii "[s]\na=1\n b")) b) ∧
      Missing [⟨ascii "s.a", ascii "1\nb"⟩] (blocksOf (ascii "[s]\na=1\n b")) := by
  have hloads := confLoad_iff (ascii "[s]\na=1\n b") (by decide) (by decide)
  have hblocks : blocksOf (ascii "[s]\na=1\n b") =
      [⟨0, 1, ascii "s", ascii "a", ascii "1", [ascii "b"]⟩] := by decide +kernel
  refine ⟨hloads.1, hloads.2 Faults.none _ ?_ (by decide +kernel)⟩
  intro b hb
  rw [hblocks, List.mem_singleton] at hb
  subst hb
  exact ⟨by decide, fun hs => absurd hs.1 (by decide)⟩

/-- As many key lines as the table has places, and one more, with a line behind it. -/
def fullFile : List UInt8 := (List.replicate 257 (ascii "a=\n")).flatten ++ ascii "b"

/-- A comment that fills the buffer. -/
def fullComment : List UInt8 := 35 :: List.replicate 4094 120

/-- A comment that is longer than the buffer. -/
def longComment : List UInt8 := fullComment ++ ascii "a=b"

theorem notMem_fullComment {c : UInt8} (hhash : c ≠ 35) (hx : c ≠ 120) : c ∉ fullComment := by
  intro hmem
  rcases List.mem_cons.1 hmem with rfl | hmem
  · exact hhash rfl
  · exact hx (List.eq_of_mem_replicate hmem)

theorem confLoad_longComment :
    confLoad Faults.none longComment = some [⟨ascii "a", ascii "b"⟩] := by
  have hnewline : 10 ∉ fullComment := notMem_fullComment (by decide) (by decide)
  have hfull : fullComment.length + 1 = lineSize := by
    rw [fullComment, List.length_cons, List.length_replicate]
    rfl
  have hraw : rawOf fullComment = fullComment := by
    rw [rawOf_line hnewline (notMem_fullComment (by decide) (by decide))]
    exact List.dropWhile_cons_of_neg (by decide)
  have hread : readLine Faults.none {} fullComment = {} := by
    rw [readLine, hraw]
    rfl
  rw [confLoad, longComment, fgetsLines_full hnewline hfull, List.foldl_cons, hread]
  decide +kernel

theorem entriesOf_longComment : entriesOf longComment = [] := by
  have hnewline : 10 ∉ longComment := by
    rw [longComment, List.mem_append, not_or]
    exact ⟨notMem_fullComment (by decide) (by decide), by decide⟩
  have hkind : kindOf longComment = .blank := rfl
  rw [entriesOf, blocksOf, List.splitOn_eq_singleton hnewline, Reading.ofLines, List.foldl_cons,
    hkind]
  rfl

/-- What has been loaded after `k` lines `a=`, one place for each. -/
def afterKeys (k : Nat) : Loading where
  table := { entries := List.replicate k ⟨[97], []⟩, last := if k = 0 then none else some (k - 1) }
  keyLines := k

theorem fgetsLines_key (rest : List UInt8) :
    fgetsLines [] ([97, 61, 10] ++ rest) = [97, 61, 10] :: fgetsLines [] rest := rfl

/-- A line with an empty value is stored, outside of any section. -/
theorem readLine_key (s : Loading) (hs : s.sectionName = []) :
    readLine Faults.none s [97, 61, 10] = { s with
      table := s.table.store Faults.none s.keyLines [97] [], keyLines := s.keyLines + 1
      continuations := 0 } := by
  have hraw : rawOf [97, 61, 10] = [97, 61] := by decide
  rw [readLine, hraw, hs]
  rfl

theorem store_none (t : Table) (i : Nat) (key value : List UInt8) :
    t.store Faults.none i key value = if t.entries.length < maxEntries then
      { entries := t.entries ++ [⟨key, value⟩], last := some t.entries.length } else t := rfl

theorem readLine_afterKeys {k : Nat} (hk : k < maxEntries) :
    readLine Faults.none (afterKeys k) [97, 61, 10] = afterKeys (k + 1) := by
  have hlength : (afterKeys k).table.entries.length < maxEntries := by
    rwa [afterKeys, List.length_replicate]
  rw [readLine_key _ rfl, store_none, if_pos hlength]
  show Loading.mk _ _ _ _ = _
  rw [afterKeys, afterKeys, List.length_replicate, List.replicate_succ']
  rfl

/-- Lines for which there is a place, one after another. -/
theorem foldl_replicate_key {n k : Nat} (h : k + n ≤ maxEntries) (rest : List UInt8) :
    (fgetsLines [] ((List.replicate n [97, 61, 10]).flatten ++ rest)).foldl (readLine Faults.none)
      (afterKeys k) = (fgetsLines [] rest).foldl (readLine Faults.none) (afterKeys (k + n)) := by
  induction n generalizing k with
  | zero => rfl
  | succ n ih =>
    rw [List.replicate_succ, List.flatten_cons, List.append_assoc, fgetsLines_key, List.foldl_cons,
      readLine_afterKeys (by omega), ih (by omega), Nat.add_right_comm]
    rfl

/-- The last entry gets the line behind a key line for which there is no place. -/
theorem confLoad_fullFile : confLoad Faults.none fullFile =
    some ((List.replicate maxEntries ⟨[97], []⟩).modify (maxEntries - 1) (Entry.extend [98])) := by
  have hfile : fullFile =
      (List.replicate maxEntries [97, 61, 10]).flatten ++ ([97, 61, 10] ++ [98]) := by
    have hline : ascii "a=\n" = [97, 61, 10] := by decide
    rw [fullFile, hline, show (257 : Nat) = maxEntries + 1 from rfl, List.replicate_succ',
      List.flatten_append, List.append_assoc]
    rfl
  have hfull : readLine Faults.none (afterKeys maxEntries) [97, 61, 10] =
      { afterKeys maxEntries with keyLines := maxEntries + 1 } := by
    rw [readLine_key _ rfl, store_none, if_neg (by
      rw [afterKeys, List.length_replicate]
      exact Nat.lt_irrefl _)]
    rfl
  have hkeys := @foldl_replicate_key maxEntries 0 (Nat.le_refl _) ([97, 61, 10] ++ [98])
  rw [Nat.zero_add, fgetsLines_key, List.foldl_cons, hfull] at hkeys
  rw [confLoad, if_neg (by decide), hfile]
  exact congrArg (fun s : Loading => some s.table.entries) hkeys

/-- Two key lines, and a line behind the second. -/
def twoKeys : List UInt8 := ascii "a=1\nb=2\nc"

/-- The line behind a key line without a place goes to the entry of another key line, the end of a
long comment is an entry, and so is where the key of an entry cannot be put together. -/
theorem not_loaded :
    confLoad Faults.none fullFile ≠ some (entriesOf fullFile) ∧
      confLoad Faults.none longComment ≠ some (entriesOf longComment) ∧
      confLoad (fun a => decide (a = .fullKey 1)) twoKeys = some [⟨ascii "a", ascii "1\nc"⟩] ∧
      ¬Missing [⟨ascii "a", ascii "1\nc"⟩] (blocksOf twoKeys) := by
  refine ⟨?_, ?_, by decide +kernel, ?_⟩
  · have hvalues : (entriesOf fullFile).all (·.value = []) = true := by decide +kernel
    intro h
    rw [confLoad_fullFile, Option.some.injEq] at h
    have hlast : (⟨[97], [10, 98]⟩ : Entry) ∈ entriesOf fullFile := by
      rw [← h]
      refine List.mem_of_getElem? (i := maxEntries - 1) ?_
      rw [List.getElem?_modify, List.getElem?_replicate]
      rfl
    exact absurd (of_decide_eq_true (List.all_eq_true.1 hvalues _ hlast)) (by decide)
  · rw [confLoad_longComment, entriesOf_longComment]
    exact nofun
  have hblocks : blocksOf twoKeys =
      [⟨0, 0, [], ascii "a", ascii "1", []⟩, ⟨1, 0, [], ascii "b", ascii "2", [ascii "c"]⟩] := by
    decide +kernel
  rintro ⟨kept, hsub, hall⟩
  rw [hblocks] at hsub
  cases hall with
  | cons h hrest =>
    cases hrest
    obtain ⟨hkey, texts, htexts, hvalue⟩ := h
    have hmem := hsub.subset List.mem_cons_self
    rcases List.mem_cons.1 hmem with rfl | hmem
    · rw [List.sublist_nil.1 htexts] at hvalue
      exact absurd hvalue (by decide)
    · rw [List.mem_singleton.1 hmem] at hkey
      exact absurd hkey (by decide)

end EchoAi.ConfFile
