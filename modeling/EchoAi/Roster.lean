import EchoAi.Places
import Mathlib.Data.List.Induction
import Mathlib.Data.List.Nodup

/-!
# Records that items find

An item goes to the first record that it hits, which may learn from it.  An item that hits none
starts a record.

* `Roster`, `Roster.fileAll`: the records of some items.
* `Roster.record`: the record that some items make together.
* `Roster.trace`: the items of each record, with `Roster.map_some_fileAll`.
* `Roster.Known`: every item hits what the items of its owner before it have made.
* `Roster.fileAll_of_known`, `Roster.known_iff_length`: then the records are those of the owners,
  and otherwise there are too many of them.
-/

namespace EchoAi

/-- How an item finds its record, starts one, and what a record learns from it. -/
structure Roster (α β : Type) where
  hits : β → α → Bool
  start : α → β
  learn : β → α → β

/-! ## Owners in the order of their first items -/

section EraseDups

variable {κ : Type} [DecidableEq κ]

theorem eraseDups_concat (ks : List κ) (k : κ) :
    (ks ++ [k]).eraseDups = if k ∈ ks then ks.eraseDups else ks.eraseDups ++ [k] := by
  rw [List.eraseDups_append]
  by_cases hk : k ∈ ks
  · rw [if_pos hk, List.removeAll, List.filter_cons_of_neg (by simpa using hk), List.filter_nil,
      List.eraseDups_nil, List.append_nil]
  · rw [if_neg hk, List.removeAll, List.filter_cons_of_pos (by simpa using hk), List.filter_nil]
    rfl

theorem nodup_eraseDups (ks : List κ) : ks.eraseDups.Nodup := by
  induction ks using List.reverseRecOn with
  | nil => exact List.nodup_nil
  | append_singleton ks k ih =>
    rw [eraseDups_concat]
    split
    · exact ih
    · next hk =>
      rw [← List.concat_eq_append]
      exact ih.concat fun hmem => hk (List.mem_eraseDups.1 hmem)

end EraseDups

namespace Roster

variable {α β κ : Type} (R : Roster α β)

/-- One more item. -/
def file (records : List β) (a : α) : List β :=
  match records.findIdx? (R.hits · a) with
  | some i => records.modify i (R.learn · a)
  | none => records ++ [R.start a]

/-- The records of some items. -/
def fileAll (items : List α) : List β := items.foldl R.file []

theorem fileAll_concat (items : List α) (a : α) :
    R.fileAll (items ++ [a]) = R.file (R.fileAll items) a :=
  List.foldl_concat ..

/-- The record that some items make together. -/
def record : List α → Option β
  | [] => none
  | a :: items => some (items.foldl R.learn (R.start a))

theorem record_concat {items : List α} (h : items ≠ []) (a : α) :
    R.record (items ++ [a]) = (R.record items).map (R.learn · a) := by
  cases items with
  | nil => exact absurd rfl h
  | cons first items => exact congrArg some (List.foldl_concat ..)

/-- The same, with the items of each record instead of what it has learned. -/
def trace : Roster α (List α) where
  hits items a := (R.record items).any (R.hits · a)
  start a := [a]
  learn items a := items ++ [a]

theorem length_file (records : List β) (a : α) :
    (R.file records a).length =
      records.length + if records.any (R.hits · a) then 0 else 1 := by
  unfold file
  rw [← List.findIdx?_isSome]
  split
  · next hfind =>
    rw [hfind, List.length_modify]
    rfl
  · next hfind =>
    rw [hfind, List.length_append]
    rfl

/-! ## The items of each record -/

/-- A property of lists of items that every list of a record has. -/
theorem forall_mem_trace {P : List α → Prop} (hstart : ∀ a, P [a])
    (hlearn : ∀ items a, P items → P (items ++ [a])) (items : List α) :
    ∀ part ∈ R.trace.fileAll items, P part := by
  induction items using List.reverseRecOn with
  | nil => exact fun _ h => absurd h List.not_mem_nil
  | append_singleton items a ih =>
    rw [fileAll_concat, file]
    split
    · exact forall_mem_modify ih (fun part => hlearn part a) _
    · exact List.forall_mem_append.2 ⟨ih, List.forall_mem_singleton.2 (hstart a)⟩

theorem ne_nil_of_mem_trace {items part : List α} (h : part ∈ R.trace.fileAll items) :
    part ≠ [] := by
  refine R.forall_mem_trace (P := (· ≠ [])) (fun _ => List.cons_ne_nil _ _) ?_ items part h
  exact fun part a _ => by simp

/-- A record is made by its items. -/
theorem map_some_fileAll (items : List α) :
    (R.fileAll items).map some = (R.trace.fileAll items).map R.record := by
  induction items using List.reverseRecOn with
  | nil => rfl
  | append_singleton items a ih =>
    have hfind : (R.fileAll items).findIdx? (R.hits · a) =
        (R.trace.fileAll items).findIdx? (R.trace.hits · a) := by
      have hmap := congrArg (List.findIdx? fun r : Option β => r.any (R.hits · a)) ih
      rwa [List.findIdx?_map, List.findIdx?_map] at hmap
    rw [fileAll_concat, fileAll_concat, file, file, hfind]
    split
    · have hlearn : ∀ part ∈ R.trace.fileAll items,
          R.record (R.trace.learn part a) = (R.record part).map (R.learn · a) :=
        fun part hpart => R.record_concat (R.ne_nil_of_mem_trace hpart) a
      have hsome : ∀ r ∈ R.fileAll items, some (R.learn r a) = (some r).map (R.learn · a) :=
        fun _ _ => rfl
      rw [map_modify hsome, map_modify hlearn, ih]
    · rw [List.map_append, List.map_append, ih]
      rfl

theorem length_trace (items : List α) :
    (R.trace.fileAll items).length = (R.fileAll items).length := by
  have h := congrArg List.length (R.map_some_fileAll items)
  rw [List.length_map, List.length_map] at h
  exact h.symm

/-! ## Owners -/

section Owners

variable [DecidableEq κ] (owner : α → κ)

/-- The items of an owner. -/
def itemsOf (items : List α) (k : κ) : List α := items.filter (owner · = k)

/-- What the items of one owner make is hit by its items alone. -/
def Pure (items : List α) : Prop :=
  ∀ k xs, (∀ x ∈ xs, x ∈ items ∧ owner x = k) →
    ∀ a ∈ items, (R.record xs).any (R.hits · a) → owner a = k

/-- Every item hits what the items of its owner before it have made. -/
def Known (items : List α) : Prop :=
  ∀ front a back, items = front ++ a :: back → owner a ∈ front.map owner →
    (R.record (itemsOf owner front (owner a))).any (R.hits · a)

variable {R owner} {items : List α} {a : α}

omit [DecidableEq κ] in
theorem Pure.mono {front : List α} (h : R.Pure owner items) (hsub : front ⊆ items) :
    R.Pure owner front :=
  fun k xs hxs a ha => h k xs (fun x hx => ⟨hsub (hxs x hx).1, (hxs x hx).2⟩) a (hsub ha)

theorem known_nil : R.Known owner [] :=
  fun front _ _ heq => absurd heq (by simp)

theorem known_concat_iff :
    R.Known owner (items ++ [a]) ↔ R.Known owner items ∧ (owner a ∈ items.map owner →
      (R.record (itemsOf owner items (owner a))).any (R.hits · a)) := by
  constructor
  · intro h
    refine ⟨fun front b back heq => h front b (back ++ [a]) ?_, h items a [] rfl⟩
    rw [heq, List.append_assoc]
    rfl
  · rintro ⟨hknown, hlast⟩ front b back heq
    rcases List.eq_nil_or_concat back with rfl | ⟨back', c, rfl⟩
    · obtain ⟨rfl, hb⟩ := List.append_inj' heq rfl
      obtain rfl := List.singleton_inj.1 hb
      exact hlast
    · rw [List.concat_eq_append, ← List.cons_append, ← List.append_assoc] at heq
      exact hknown front b back' (List.append_inj' heq rfl).1

theorem mem_itemsOf {k : κ} {x : α} : x ∈ itemsOf owner items k ↔ x ∈ items ∧ owner x = k := by
  rw [itemsOf, List.mem_filter, decide_eq_true_eq]

theorem itemsOf_concat (k : κ) :
    itemsOf owner (items ++ [a]) k =
      if owner a = k then itemsOf owner items k ++ [a] else itemsOf owner items k := by
  rw [itemsOf, List.filter_append, ← itemsOf]
  split
  · next h => rw [List.filter_cons_of_pos (by simpa using h), List.filter_nil]
  · next h => rw [List.filter_cons_of_neg (by simpa using h), List.filter_nil, List.append_nil]

/-- The items of each owner, in the order of their first items. -/
def ownFiles (owner : α → κ) (items : List α) : List (List α) :=
  (items.map owner).eraseDups.map (itemsOf owner items)

theorem ownFiles_concat_new (h : owner a ∉ items.map owner) :
    ownFiles owner (items ++ [a]) = ownFiles owner items ++ [[a]] := by
  have hnone : itemsOf owner items (owner a) = [] :=
    List.eq_nil_iff_forall_not_mem.2 fun x hx =>
      h ((mem_itemsOf.1 hx).2 ▸ List.mem_map_of_mem (mem_itemsOf.1 hx).1)
  rw [ownFiles, List.map_append, List.map_singleton, eraseDups_concat, if_neg h, List.map_append,
    List.map_singleton, itemsOf_concat, if_pos rfl, hnone, List.nil_append, ownFiles]
  congr 1
  refine List.map_congr_left fun k hk => ?_
  rw [itemsOf_concat, if_neg]
  rintro rfl
  exact h (List.mem_eraseDups.1 hk)

theorem ownFiles_concat_old {i : Nat} (h : (items.map owner).eraseDups[i]? = some (owner a)) :
    ownFiles owner (items ++ [a]) = (ownFiles owner items).modify i (· ++ [a]) := by
  have hmem : owner a ∈ items.map owner := List.mem_eraseDups.1 (List.mem_of_getElem? h)
  rw [ownFiles, List.map_append, List.map_singleton, eraseDups_concat, if_pos hmem, ownFiles]
  refine List.ext_getElem? fun j => ?_
  rw [List.getElem?_modify, List.getElem?_map, List.getElem?_map]
  cases hj : (items.map owner).eraseDups[j]? with
  | none => rfl
  | some k =>
    have hplace : i = j ↔ owner a = k := by
      constructor
      · rintro rfl
        exact Option.some.inj (h.symm.trans hj)
      · rintro rfl
        have hlt := (List.getElem?_eq_some_iff.1 h).1
        exact (List.getElem?_inj hlt (nodup_eraseDups _)).1 (h.trans hj.symm)
    show some (itemsOf owner (items ++ [a]) k) =
      some (if i = j then itemsOf owner items k ++ [a] else itemsOf owner items k)
    rw [itemsOf_concat]
    by_cases hk : owner a = k
    · rw [if_pos hk, if_pos (hplace.2 hk)]
    · rw [if_neg hk, if_neg fun hi => hk (hplace.1 hi)]

omit [DecidableEq κ] in
/-- The list of a record has items of one owner. -/
theorem exists_owner_of_mem_trace (hpure : R.Pure owner items) :
    ∀ part ∈ R.trace.fileAll items, ∃ k, ∀ x ∈ part, x ∈ items ∧ owner x = k := by
  induction items using List.reverseRecOn with
  | nil => exact fun _ h => absurd h List.not_mem_nil
  | append_singleton items a ih =>
    have hold := ih (hpure.mono (List.subset_append_left _ _))
    have hgrow : ∀ part : List α, (∃ k, ∀ x ∈ part, x ∈ items ∧ owner x = k) →
        ∃ k, ∀ x ∈ part, x ∈ items ++ [a] ∧ owner x = k := by
      rintro part ⟨k, hk⟩
      exact ⟨k, fun x hx => ⟨List.mem_append_left _ (hk x hx).1, (hk x hx).2⟩⟩
    have ha : a ∈ items ++ [a] := List.mem_append_right _ List.mem_cons_self
    rw [fileAll_concat, file]
    split
    · next i hfind =>
      intro part hpart
      obtain ⟨j, hj⟩ := List.mem_iff_getElem?.1 hpart
      rw [List.getElem?_modify] at hj
      obtain ⟨part', hpart', rfl⟩ := Option.map_eq_some_iff.1 hj
      obtain ⟨k, hk⟩ := hgrow part' (hold part' (List.mem_of_getElem? hpart'))
      split
      · next hij =>
        obtain ⟨hlt, hhits, -⟩ := List.findIdx?_eq_some_iff_getElem.1 hfind
        have hsame : (R.trace.fileAll items)[i] = part' :=
          Option.some.inj ((List.getElem?_eq_getElem hlt).symm.trans (hij ▸ hpart'))
        rw [hsame] at hhits
        refine ⟨k, List.forall_mem_append.2 ⟨hk, List.forall_mem_singleton.2 ⟨ha, ?_⟩⟩⟩
        exact hpure k part' hk a ha hhits
      · exact ⟨k, hk⟩
    · refine List.forall_mem_append.2 ⟨fun part hpart => hgrow part (hold part hpart), ?_⟩
      exact List.forall_mem_singleton.2 ⟨owner a, List.forall_mem_singleton.2 ⟨ha, rfl⟩⟩

omit [DecidableEq κ] in
/-- An item of a new owner hits no record. -/
theorem any_hits_eq_false (hpure : R.Pure owner (items ++ [a])) (h : owner a ∉ items.map owner) :
    (R.trace.fileAll items).any (R.trace.hits · a) = false := by
  rw [List.any_eq_false]
  intro part hpart hhits
  obtain ⟨k, hk⟩ := exists_owner_of_mem_trace (hpure.mono (List.subset_append_left _ _)) part hpart
  obtain ⟨x, hx⟩ := List.exists_mem_of_ne_nil part (R.ne_nil_of_mem_trace hpart)
  have howner := hpure k part (fun y hy => ⟨List.mem_append_left _ (hk y hy).1, (hk y hy).2⟩) a
    (List.mem_append_right _ List.mem_cons_self) hhits
  refine h ?_
  rw [howner, ← (hk x hx).2]
  exact List.mem_map_of_mem (hk x hx).1

/-- An item hits the items of its owner alone. -/
theorem trace_hits_itemsOf (hpure : R.Pure owner (items ++ [a])) {k : κ}
    (h : R.trace.hits (itemsOf owner items k) a = true) : owner a = k :=
  hpure k _ (fun _ hx => ⟨List.mem_append_left _ (mem_itemsOf.1 hx).1, (mem_itemsOf.1 hx).2⟩) a
    (List.mem_append_right _ List.mem_cons_self) h

/-- When every item hits what it should, the records are those of the owners. -/
theorem trace_of_known (hpure : R.Pure owner items) (h : R.Known owner items) :
    R.trace.fileAll items = ownFiles owner items := by
  induction items using List.reverseRecOn with
  | nil => rfl
  | append_singleton items a ih =>
    obtain ⟨hknown, hlast⟩ := known_concat_iff.1 h
    have hold := ih (hpure.mono (List.subset_append_left _ _)) hknown
    rw [fileAll_concat, file]
    by_cases hseen : owner a ∈ items.map owner
    · obtain ⟨i, hi⟩ := List.mem_iff_getElem?.1 (List.mem_eraseDups.2 hseen)
      have hlt : i < (ownFiles owner items).length := by
        rw [ownFiles, List.length_map]
        exact (List.getElem?_eq_some_iff.1 hi).1
      have hplace : ∀ j (hj : j < (ownFiles owner items).length),
          R.trace.hits (ownFiles owner items)[j] a = true ↔ j = i := by
        intro j hj
        have hj' : j < (items.map owner).eraseDups.length := by
          rwa [ownFiles, List.length_map] at hj
        have hfile : (ownFiles owner items)[j] =
            itemsOf owner items (items.map owner).eraseDups[j] :=
          List.getElem_map ..
        rw [hfile]
        constructor
        · intro hhits
          rw [trace_hits_itemsOf hpure hhits, ← List.getElem?_eq_getElem hj'] at hi
          exact ((List.getElem?_inj hj' (nodup_eraseDups _)).1 hi.symm)
        · rintro rfl
          have howner := Option.some.inj ((List.getElem?_eq_getElem hj').symm.trans hi)
          rw [howner]
          exact hlast hseen
      have hfind : (R.trace.fileAll items).findIdx? (R.trace.hits · a) = some i := by
        rw [hold, List.findIdx?_eq_some_iff_getElem]
        exact ⟨hlt, (hplace i hlt).2 rfl, fun j hji hhits =>
          absurd ((hplace j (by omega)).1 hhits) (by omega)⟩
      rw [hfind, ownFiles_concat_old hi, hold]
      rfl
    · have hnone : (R.trace.fileAll items).findIdx? (R.trace.hits · a) = none := by
        rw [← Option.not_isSome_iff_eq_none, List.findIdx?_isSome, any_hits_eq_false hpure hseen]
        exact Bool.noConfusion
      rw [hnone, ownFiles_concat_new hseen, hold]
      rfl

theorem length_ownFiles (items : List α) :
    (ownFiles owner items).length = (items.map owner).eraseDups.length :=
  List.length_map ..

/-- There are as many records as owners just when every item hits what it should, and never
fewer. -/
theorem length_trace_eq_iff (hpure : R.Pure owner items) :
    (items.map owner).eraseDups.length ≤ (R.trace.fileAll items).length ∧
      ((R.trace.fileAll items).length = (items.map owner).eraseDups.length ↔
        R.Known owner items) := by
  induction items using List.reverseRecOn with
  | nil => exact ⟨Nat.le_refl 0, iff_of_true rfl known_nil⟩
  | append_singleton items a ih =>
    obtain ⟨hle, hiff⟩ := ih (hpure.mono (List.subset_append_left _ _))
    rw [fileAll_concat, length_file, known_concat_iff, ← hiff, List.map_append, List.map_singleton,
      eraseDups_concat]
    by_cases hseen : owner a ∈ items.map owner
    · rw [if_pos hseen]
      by_cases hsame : (R.trace.fileAll items).length = (items.map owner).eraseDups.length
      · have hfiles := trace_of_known (hpure.mono (List.subset_append_left _ _)) (hiff.1 hsame)
        have hhits : (R.trace.fileAll items).any (R.trace.hits · a) = true ↔
            (R.record (itemsOf owner items (owner a))).any (R.hits · a) = true := by
          rw [hfiles, List.any_eq_true]
          constructor
          · rintro ⟨part, hpart, hhits⟩
            obtain ⟨k, -, rfl⟩ := List.mem_map.1 hpart
            rw [trace_hits_itemsOf hpure hhits]
            exact hhits
          · intro hhits
            exact ⟨_, List.mem_map_of_mem (List.mem_eraseDups.2 hseen), hhits⟩
        split
        · next hany => exact ⟨by omega, iff_of_true (by omega) ⟨hsame, fun _ => hhits.1 hany⟩⟩
        · next hany =>
          exact ⟨by omega, iff_of_false (by omega) fun h => hany (hhits.2 (h.2 hseen))⟩
      · have hmore : (items.map owner).eraseDups.length < (R.trace.fileAll items).length :=
          Nat.lt_of_le_of_ne hle fun heq => hsame heq.symm
        exact ⟨by omega, iff_of_false (by omega) fun h => hsame h.1⟩
    · rw [if_neg hseen, any_hits_eq_false hpure hseen, List.length_append, List.length_singleton]
      refine ⟨Nat.add_le_add_right hle 1, ?_⟩
      rw [if_neg Bool.noConfusion, Nat.add_right_cancel_iff]
      exact (and_iff_left fun hold => absurd hold hseen).symm

/-- The records of items of which each hits what it should. -/
theorem fileAll_of_known (hpure : R.Pure owner items) (h : R.Known owner items) :
    (R.fileAll items).map some =
      (items.map owner).eraseDups.map fun k => R.record (itemsOf owner items k) := by
  rw [map_some_fileAll, trace_of_known hpure h, ownFiles, List.map_map]
  rfl

theorem known_iff_length (hpure : R.Pure owner items) :
    R.Known owner items ↔ (R.fileAll items).length = (items.map owner).eraseDups.length := by
  rw [← length_trace, (length_trace_eq_iff hpure).2]

end Owners

end Roster

end EchoAi
