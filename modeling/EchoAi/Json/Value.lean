import Mathlib.Algebra.Group.Int.Defs
import Mathlib.Algebra.Group.Nat.Defs
import Mathlib.Data.List.Basic
import Mathlib.Tactic.Common

/-!
# JSON values

A JSON document as a tree, with the operations a C program performs on such a tree: read a member
by name, add a member at the end, drop the first member of a name, change one in place.

* `sameName`: member names are compared up to letter case, as C libraries for JSON do, so the
  members of an object are a list and a name may occur more than once.
* `member`: the first member of a name; `addMember`, `eraseMember`, `putMember` and their laws
  `member_addMember_*`, `member_eraseMember_ne`, `member_putMember_ne`, `exists_putMember`.
* `children`, `addItem`, `dropChild`: what is hung below an array or an object.
* `ofFields`: an object written from an enumerated set of field names; `member_ofFields` reads it
  back as a lookup in the list of fields.
* `JsonCodec`: a printer, a parser that is its left inverse and the texts that are well formed.
-/

/-- A decimal number `mantissa / 10 ^ scale`, as a JSON text spells it. -/
structure Decimal where
  mantissa : Int
  scale : Nat
  deriving DecidableEq, Repr

namespace Decimal

/-- The number zero. -/
def zero : Decimal := ⟨0, 0⟩

/-- The sign test `0 < x`. -/
def isPositive (x : Decimal) : Bool := decide (0 < x.mantissa)

/-- The number when it is positive, and zero otherwise. -/
def positivePart (x : Decimal) : Decimal := if x.isPositive then x else zero

@[simp] theorem positivePart_positivePart (x : Decimal) :
    x.positivePart.positivePart = x.positivePart := by
  unfold positivePart
  by_cases h : x.isPositive = true
  · rw [if_pos h, if_pos h]
  · rw [if_neg h, ite_self]

/-- The integer part, cut towards zero. -/
def truncate (x : Decimal) : Int := x.mantissa.tdiv (10 ^ x.scale)

/-- `valueint` of a number: its integer part, within the bounds of an `int`. -/
def valueInt (x : Decimal) : Int :=
  if 2147483647 ≤ x.truncate then 2147483647
  else if x.truncate ≤ -2147483648 then -2147483648
  else x.truncate

theorem valueInt_of_int {n : Int} (hlow : -2147483648 ≤ n) (hhigh : n ≤ 2147483647) :
    valueInt ⟨n, 0⟩ = n := by
  have htruncate : (⟨n, 0⟩ : Decimal).truncate = n := by
    rw [truncate]
    exact Int.tdiv_one n
  rw [valueInt, htruncate]
  split
  · omega
  · split <;> omega

/-- Whether the number is whole. -/
def isWhole (x : Decimal) : Bool := decide (x.truncate * 10 ^ x.scale = x.mantissa)

end Decimal

/-- A JSON document. -/
inductive JsonValue where
  | null
  | bool (b : Bool)
  | number (x : Decimal)
  | string (s : String)
  | array (items : List JsonValue)
  | object (members : List (String × JsonValue))
  deriving Repr

namespace JsonValue

/-! ## Reading -/

/-- The text of a string, absent for every other value. -/
def stringValue : JsonValue → Option String
  | .string s => some s
  | _ => none

/-- The number of a number, absent for every other value. -/
def numberValue : JsonValue → Option Decimal
  | .number x => some x
  | _ => none

/-- Whether the value is an array. -/
def isArray : JsonValue → Bool
  | .array _ => true
  | _ => false

/-- The items of an array; the other values have none. -/
def items : JsonValue → List JsonValue
  | .array xs => xs
  | _ => []

/-- Two member names agree when they have the same letters up to case. -/
def sameName (a b : String) : Bool :=
  a.toList.map Char.toLower == b.toList.map Char.toLower

theorem sameName_iff {a b : String} :
    sameName a b = true ↔ a.toList.map Char.toLower = b.toList.map Char.toLower := by
  rw [sameName, beq_iff_eq]

@[simp] theorem sameName_self (a : String) : sameName a a = true := by
  rw [sameName_iff]

theorem sameName_trans {a b c : String} (hab : sameName a b = true) (hbc : sameName b c = true) :
    sameName a c = true := by
  rw [sameName_iff] at hab hbc ⊢
  exact hab.trans hbc

theorem sameName_symm {a b : String} (hab : sameName a b = true) : sameName b a = true := by
  rw [sameName_iff] at hab ⊢
  exact hab.symm

/-- The first member of a list whose name agrees with `name`. -/
def findMember (ms : List (String × JsonValue)) (name : String) : Option JsonValue :=
  (ms.find? fun m => sameName m.1 name).map Prod.snd

/-- The first member of an object whose name agrees with `name`; no other value has members. -/
def member (j : JsonValue) (name : String) : Option JsonValue :=
  match j with
  | .object ms => findMember ms name
  | _ => none

@[simp] theorem member_object (ms : List (String × JsonValue)) (name : String) :
    (JsonValue.object ms).member name = findMember ms name := rfl

@[simp] theorem findMember_nil (name : String) : findMember [] name = none := rfl

theorem findMember_cons_of_same {m : String × JsonValue} {ms : List (String × JsonValue)}
    {name : String} (h : sameName m.1 name = true) : findMember (m :: ms) name = some m.2 := by
  simp only [findMember, List.find?_cons, h, Option.map_some]

theorem findMember_cons_of_other {m : String × JsonValue} {ms : List (String × JsonValue)}
    {name : String} (h : sameName m.1 name = false) :
    findMember (m :: ms) name = findMember ms name := by
  simp only [findMember, List.find?_cons, h]

theorem findMember_pair_self (name : String) (v : JsonValue) (ms : List (String × JsonValue)) :
    findMember ((name, v) :: ms) name = some v :=
  findMember_cons_of_same (m := (name, v)) (sameName_self name)

theorem findMember_pair_of_other {other name : String} (h : sameName other name = false)
    (v : JsonValue) (ms : List (String × JsonValue)) :
    findMember ((other, v) :: ms) name = findMember ms name :=
  findMember_cons_of_other (m := (other, v)) h

/-- A list searched after another one is reached when the first has no such member. -/
theorem findMember_append (ms ns : List (String × JsonValue)) (name : String) :
    findMember (ms ++ ns) name = (findMember ms name).or (findMember ns name) := by
  induction ms with
  | nil => rw [List.nil_append, findMember_nil, Option.none_or]
  | cons m ms ih =>
    rw [List.cons_append]
    cases h : sameName m.1 name with
    | true => rw [findMember_cons_of_same h, findMember_cons_of_same h, Option.some_or]
    | false => rw [findMember_cons_of_other h, findMember_cons_of_other h, ih]

/-! ## Adding a member -/

/-- The object with one more member at its end.  An array takes the value as one more item, since its
items are printed without their names; what is hung below any other value is not printed. -/
def addMember (j : JsonValue) (name : String) (v : JsonValue) : JsonValue :=
  match j with
  | .object ms => .object (ms ++ [(name, v)])
  | .array xs => .array (xs ++ [v])
  | other => other

theorem member_addMember_self {ms : List (String × JsonValue)} {name : String}
    (h : findMember ms name = none) (v : JsonValue) :
    ((JsonValue.object ms).addMember name v).member name = some v := by
  rw [addMember, member_object, findMember_append, h, Option.none_or]
  exact findMember_pair_self name v []

theorem member_addMember_ne (j : JsonValue) {name other : String}
    (h : sameName name other = false) (v : JsonValue) :
    (j.addMember name v).member other = j.member other := by
  cases j with
  | object ms =>
    rw [addMember, member_object, findMember_append, findMember_pair_of_other h, findMember_nil,
      Option.or_none, member_object]
  | _ => rfl

/-! ## Dropping a member -/

/-- The object without its first member of a name. -/
def eraseMember (j : JsonValue) (name : String) : JsonValue :=
  match j with
  | .object ms => .object (ms.eraseP fun m => sameName m.1 name)
  | other => other

theorem findMember_eraseP_ne (ms : List (String × JsonValue)) {name other : String}
    (h : sameName name other = false) :
    findMember (ms.eraseP fun m => sameName m.1 name) other = findMember ms other := by
  induction ms with
  | nil => rfl
  | cons m ms ih =>
    cases hm : sameName m.1 name with
    | true =>
      have hother : sameName m.1 other = false := by
        rw [Bool.eq_false_iff]
        intro hm'
        rw [sameName_trans (sameName_symm hm) hm'] at h
        exact Bool.noConfusion h
      rw [List.eraseP_cons_of_pos (by simpa using hm), findMember_cons_of_other hother]
    | false =>
      rw [List.eraseP_cons_of_neg (by simpa using hm)]
      cases hm' : sameName m.1 other with
      | true => rw [findMember_cons_of_same hm', findMember_cons_of_same hm']
      | false => rw [findMember_cons_of_other hm', findMember_cons_of_other hm', ih]

theorem member_eraseMember_ne (j : JsonValue) {name other : String}
    (h : sameName name other = false) :
    (j.eraseMember name).member other = j.member other := by
  cases j with
  | object ms => exact findMember_eraseP_ne ms h
  | _ => rfl

/-! ## Replacing a member in place -/

/-- The list with the value of its first member of a name replaced. -/
def replaceFirst (name : String) (v : JsonValue) :
    List (String × JsonValue) → List (String × JsonValue)
  | [] => []
  | m :: ms => if sameName m.1 name then (m.1, v) :: ms else m :: replaceFirst name v ms

theorem findMember_replaceFirst_self {ms : List (String × JsonValue)} {name : String}
    (h : (findMember ms name).isSome = true) (v : JsonValue) :
    findMember (replaceFirst name v ms) name = some v := by
  induction ms with
  | nil => exact absurd h (by simp)
  | cons m ms ih =>
    cases hm : sameName m.1 name with
    | true =>
      have hm' : sameName (m.1, v).1 name = true := hm
      rw [replaceFirst, if_pos hm, findMember_cons_of_same hm']
    | false =>
      rw [findMember_cons_of_other hm] at h
      rw [replaceFirst, if_neg (by simp [hm]), findMember_cons_of_other hm, ih h]

theorem findMember_replaceFirst_ne (ms : List (String × JsonValue)) {name other : String}
    (h : sameName name other = false) (v : JsonValue) :
    findMember (replaceFirst name v ms) other = findMember ms other := by
  induction ms with
  | nil => rfl
  | cons m ms ih =>
    cases hm : sameName m.1 name with
    | true =>
      have hother : sameName m.1 other = false := by
        rw [Bool.eq_false_iff]
        intro hm'
        rw [sameName_trans (sameName_symm hm) hm'] at h
        exact Bool.noConfusion h
      have hother' : sameName (m.1, v).1 other = false := hother
      rw [replaceFirst, if_pos hm, findMember_cons_of_other hother',
        findMember_cons_of_other hother]
    | false =>
      rw [replaceFirst, if_neg (by simp [hm])]
      cases hm' : sameName m.1 other with
      | true => rw [findMember_cons_of_same hm', findMember_cons_of_same hm']
      | false => rw [findMember_cons_of_other hm', findMember_cons_of_other hm', ih]

/-- The object in which a member has the given value: in place when it is there, at the end when it
is not. -/
def putMember (j : JsonValue) (name : String) (v : JsonValue) : JsonValue :=
  match j with
  | .object ms =>
    if (findMember ms name).isSome then .object (replaceFirst name v ms)
    else .object (ms ++ [(name, v)])
  | other => other.addMember name v

theorem exists_putMember (ms : List (String × JsonValue)) (name : String) (v : JsonValue) :
    ∃ ms', (JsonValue.object ms).putMember name v = .object ms' ∧ findMember ms' name = some v := by
  rw [putMember]
  split
  · next h => exact ⟨_, rfl, findMember_replaceFirst_self h v⟩
  · next h =>
    rw [Option.isSome_iff_ne_none, not_not] at h
    exact ⟨_, rfl, member_addMember_self h v⟩

theorem member_putMember_ne (j : JsonValue) {name other : String}
    (h : sameName name other = false) (v : JsonValue) :
    (j.putMember name v).member other = j.member other := by
  cases j with
  | object ms =>
    rw [putMember]
    split
    · exact findMember_replaceFirst_ne ms h v
    · exact member_addMember_ne (.object ms) h v
  | _ => rfl

theorem eraseP_replaceFirst (ms : List (String × JsonValue)) {name other : String}
    (h : sameName name other = false) (v : JsonValue) :
    (replaceFirst name v ms).eraseP (fun m => sameName m.1 other) =
      replaceFirst name v (ms.eraseP fun m => sameName m.1 other) := by
  induction ms with
  | nil => rfl
  | cons m ms ih =>
    cases hm : sameName m.1 name with
    | true =>
      have hother : sameName m.1 other = false := by
        rw [Bool.eq_false_iff]
        intro hm'
        rw [sameName_trans (sameName_symm hm) hm'] at h
        exact Bool.noConfusion h
      rw [replaceFirst, if_pos hm, List.eraseP_cons_of_neg (by simpa using hother),
        List.eraseP_cons_of_neg (by simpa using hother), replaceFirst, if_pos hm]
    | false =>
      rw [replaceFirst, if_neg (by simp [hm])]
      cases hm' : sameName m.1 other with
      | true => rw [List.eraseP_cons_of_pos (by simpa using hm'),
          List.eraseP_cons_of_pos (by simpa using hm')]
      | false =>
        rw [List.eraseP_cons_of_neg (by simpa using hm'),
          List.eraseP_cons_of_neg (by simpa using hm'), ih, replaceFirst, if_neg (by simp [hm])]

/-- Dropping a member of one name and putting one of another name commute. -/
theorem eraseMember_putMember (ms : List (String × JsonValue)) {name other : String}
    (h : sameName name other = false) (v : JsonValue) :
    ((JsonValue.object ms).putMember name v).eraseMember other =
      ((JsonValue.object ms).eraseMember other).putMember name v := by
  have hother : sameName other name = false := by
    rw [Bool.eq_false_iff]
    intro h'
    rw [sameName_symm h'] at h
    exact Bool.noConfusion h
  rw [eraseMember, putMember, putMember, findMember_eraseP_ne ms hother]
  split
  · exact congrArg JsonValue.object (eraseP_replaceFirst ms h v)
  · refine congrArg JsonValue.object ?_
    rw [List.eraseP_append]
    split
    · rfl
    · next hany =>
      rw [List.eraseP_cons_of_neg (by simpa using h), List.eraseP_nil, List.eraseP_of_forall_not]
      exact fun m hm hsame => hany (List.any_eq_true.mpr ⟨m, hm, hsame⟩)

/-! ## Children -/

/-- The items of an array and the values of an object. -/
def children : JsonValue → List JsonValue
  | array xs => xs
  | object ms => ms.map Prod.snd
  | _ => []

/-- Whether a value prints what is hung below it. -/
def isContainer : JsonValue → Bool
  | array _ => true
  | object _ => true
  | _ => false

/-- The array with one more item at its end.  An object takes it as a member without a name. -/
def addItem (j v : JsonValue) : JsonValue :=
  match j with
  | .array xs => .array (xs ++ [v])
  | .object ms => .object (ms ++ [("", v)])
  | other => other

/-- The value without its `i`-th child. -/
def dropChild (j : JsonValue) (i : Nat) : JsonValue :=
  match j with
  | .array xs => .array (xs.eraseIdx i)
  | .object ms => .object (ms.eraseIdx i)
  | other => other

theorem children_addItem {j : JsonValue} (h : j.isContainer = true) (v : JsonValue) :
    (j.addItem v).children = j.children ++ [v] ∧ (j.addItem v).isContainer = true := by
  cases j with
  | array xs => exact ⟨rfl, rfl⟩
  | object ms =>
    refine ⟨?_, rfl⟩
    rw [addItem, children, List.map_append]
    rfl
  | _ => exact Bool.noConfusion h

theorem children_dropChild (j : JsonValue) (i : Nat) :
    (j.dropChild i).children = j.children.eraseIdx i ∧
      (j.dropChild i).isContainer = j.isContainer := by
  cases j with
  | object ms =>
    refine ⟨?_, rfl⟩
    rw [dropChild, children, children, List.eraseIdx_eq_take_drop_succ,
      List.eraseIdx_eq_take_drop_succ, List.map_append, List.map_take, List.map_drop]
  | _ => exact ⟨rfl, rfl⟩

/-! ## Objects with enumerated field names -/

section Fields

variable {κ : Type} [DecidableEq κ] (name : κ → String)

/-- The object whose members are the given fields, in order. -/
def ofFields (fs : List (κ × JsonValue)) : JsonValue :=
  .object (fs.map fun f => (name f.1, f.2))

variable {name}

/-- A member of an object of fields is the first field of that key, as long as distinct keys have
names that differ in more than letter case. -/
theorem member_ofFields (hname : ∀ k k', sameName (name k) (name k') = true → k = k')
    (fs : List (κ × JsonValue)) (k : κ) : (ofFields name fs).member (name k) = fs.lookup k := by
  rw [ofFields, member_object]
  induction fs with
  | nil => rfl
  | cons f fs ih =>
    obtain ⟨k', v⟩ := f
    rw [List.map_cons, List.lookup_cons]
    by_cases hk : k = k'
    · subst hk
      rw [findMember_pair_self, beq_self_eq_true]
    · have hne : sameName (name k') (name k) = false := by
        rw [Bool.eq_false_iff]
        exact fun h => hk (hname _ _ h).symm
      rw [findMember_pair_of_other hne, ih, beq_false_of_ne hk]

/-- The fields whose value is there. -/
def presentFields (fs : List (κ × Option JsonValue)) : List (κ × JsonValue) :=
  fs.filterMap fun f => f.2.map fun v => (f.1, v)

theorem lookup_eq_none_of_not_mem {β : Type} {fs : List (κ × β)} {k : κ}
    (h : k ∉ fs.map Prod.fst) : fs.lookup k = none := by
  rw [List.lookup_eq_none_iff]
  intro f hf
  rw [bne_iff_ne]
  rintro rfl
  exact h (List.mem_map_of_mem hf)

/-- Leaving out the absent fields changes no lookup, as long as every key stands once. -/
theorem lookup_presentFields {fs : List (κ × Option JsonValue)} (h : (fs.map Prod.fst).Nodup)
    (k : κ) : (presentFields fs).lookup k = (fs.lookup k).join := by
  induction fs with
  | nil => rfl
  | cons f fs ih =>
    obtain ⟨k', v⟩ := f
    rw [List.map_cons, List.nodup_cons] at h
    have hrest := ih h.2
    rw [List.lookup_cons]
    by_cases hk : k = k'
    · subst hk
      rw [beq_self_eq_true]
      cases v with
      | some v =>
        change List.lookup k ((k, v) :: presentFields fs) = _
        rw [List.lookup_cons, beq_self_eq_true]
        rfl
      | none =>
        change List.lookup k (presentFields fs) = _
        rw [hrest, lookup_eq_none_of_not_mem h.1]
        rfl
    · rw [beq_false_of_ne hk]
      cases v with
      | some v =>
        change List.lookup k ((k', v) :: presentFields fs) = _
        rw [List.lookup_cons, beq_false_of_ne hk]
        exact hrest
      | none => exact hrest

end Fields

end JsonValue

/-! ## Printing and parsing -/

/-- A printer of JSON values and a parser of JSON texts that undoes it.  The parser accepts every
well-formed text (it may accept more: a parser that stops after one value ignores what follows),
the printer writes well-formed texts only, the two empty containers are read as such, and a container
that is not empty needs more than its two brackets. -/
structure JsonCodec where
  parse : String → Option JsonValue
  print : JsonValue → String
  wellFormed : String → Bool
  parse_print : ∀ v, parse (print v) = some v
  wellFormed_print : ∀ v, wellFormed (print v) = true
  parse_of_wellFormed : ∀ t, wellFormed t = true → ∃ v, parse t = some v
  parse_emptyObject : parse "\x7b\x7d" = some (.object [])
  parse_emptyArray : parse "[]" = some (.array [])
  two_lt_print_object : ∀ m ms, 2 < (print (.object (m :: ms))).utf8ByteSize
  two_lt_print_array : ∀ v vs, 2 < (print (.array (v :: vs))).utf8ByteSize

namespace JsonCodec

variable (codec : JsonCodec)

/-- Empty containers are printed as their two brackets, and leaving items of an array out makes its
text no longer. -/
structure Compact : Prop where
  print_emptyObject : codec.print (.object []) = "\x7b\x7d"
  print_emptyArray : codec.print (.array []) = "[]"
  print_sublist : ∀ xs ys : List JsonValue, xs.Sublist ys →
    (codec.print (.array xs)).utf8ByteSize ≤ (codec.print (.array ys)).utf8ByteSize

/-- Printing loses nothing. -/
theorem print_injective {v w : JsonValue} (h : codec.print v = codec.print w) : v = w := by
  have hv := codec.parse_print v
  rw [h, codec.parse_print w] at hv
  exact (Option.some.inj hv).symm

/-- A text that is not well formed is not the print of any value; in particular a string is never
printed as its own text when that text is no JSON. -/
theorem print_ne_of_not_wellFormed {t : String} (h : codec.wellFormed t = false) (v : JsonValue) :
    codec.print v ≠ t := by
  intro hv
  rw [← hv, codec.wellFormed_print] at h
  exact Bool.noConfusion h

end JsonCodec
