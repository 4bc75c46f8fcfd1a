import EchoAi.Bytes
import EchoAi.Ctype
import EchoAi.Splitting
import EchoAi.Server.HttpParse

/-!
# The callback of the login

The browser comes back to the login with a request, and the server reads it byte by byte.

* `urlDecodeExact`, `validateCallbackHeaders`, `parseCallbackQuery`, `parseCallbackRequest`: the
  parser.
* `Encodes`, `IsField`, `HeaderLine`, `IsCallbackRequest`: the grammar of the request.
* `urlDecodeExact_eq_some_iff`, `validateCallbackHeaders_iff`, `queryLoop_iff`: each part of the
  parser accepts its part of the grammar.
* `parseCallbackRequest_iff`: so does the parser, within the limits that it has.

Memory does not run out.
-/

namespace EchoAi.Callback

/-! ## Percent-encodings -/

/-- `hex_value` -/
def hexValue (c : UInt8) : Option Nat :=
  if 48 ≤ c ∧ c ≤ 57 then some (c.toNat - 48)
  else if 97 ≤ c ∧ c ≤ 102 then some (c.toNat - 97 + 10)
  else if 65 ≤ c ∧ c ≤ 70 then some (c.toNat - 65 + 10)
  else none

/-- A byte that no text of the callback has. -/
def isControl (c : UInt8) : Bool := c < 32 || c = 127

/-- The loop of `url_decode_exact`. -/
def decodeLoop : List UInt8 → Option (List UInt8)
  | [] => some []
  | c :: raw =>
    if c = 37 then
      match raw with
      | high :: low :: raw =>
        match hexValue high, hexValue low with
        | some high, some low =>
          let c := UInt8.ofNat (high <<< 4 ||| low)
          if isControl c then none else (decodeLoop raw).map (c :: ·)
        | _, _ => none
      | _ => none
    else
      let c := if c = 43 then 32 else c
      if isControl c then none else (decodeLoop raw).map (c :: ·)

/-- `url_decode_exact` -/
def urlDecodeExact (raw : List UInt8) : Option (List UInt8) :=
  if raw = [] then none else decodeLoop raw

/-- A percent-encoding, and the text that it stands for. -/
inductive Encodes : (raw text : List UInt8) → Prop
  | nil : Encodes [] []
  | plain {c : UInt8} {raw text : List UInt8} (hpercent : c ≠ 37) (hplus : c ≠ 43)
      (hc : isControl c = false) (h : Encodes raw text) : Encodes (c :: raw) (c :: text)
  | plus {raw text : List UInt8} (h : Encodes raw text) : Encodes (43 :: raw) (32 :: text)
  | hex {high low : UInt8} {a b : Nat} {raw text : List UInt8} (hhigh : hexValue high = some a)
      (hlow : hexValue low = some b) (hc : isControl (UInt8.ofNat (16 * a + b)) = false)
      (h : Encodes raw text) :
      Encodes (37 :: high :: low :: raw) (UInt8.ofNat (16 * a + b) :: text)

theorem hexValue_lt {c : UInt8} {n : Nat} (h : hexValue c = some n) : n < 16 := by
  unfold hexValue at h
  split at h
  · next hc =>
    rw [UInt8.le_iff_toNat_le, UInt8.le_iff_toNat_le] at hc
    have hdigit : c.toNat ≤ 57 := hc.2
    rw [← Option.some.inj h]
    omega
  split at h
  · next hc =>
    rw [UInt8.le_iff_toNat_le, UInt8.le_iff_toNat_le] at hc
    have hdigit : c.toNat ≤ 102 := hc.2
    rw [← Option.some.inj h]
    omega
  split at h
  · next hc =>
    rw [UInt8.le_iff_toNat_le, UInt8.le_iff_toNat_le] at hc
    have hdigit : c.toNat ≤ 70 := hc.2
    rw [← Option.some.inj h]
    omega
  · exact absurd h (by simp)

/-- The two digits do not overlap. -/
theorem shiftLeft_or {a b : Nat} (hb : b < 16) : a <<< 4 ||| b = 16 * a + b := by
  rw [Nat.shiftLeft_eq, Nat.mul_comm]
  exact (Nat.two_pow_add_eq_or_of_lt hb a).symm

theorem encodes_of_decodeLoop {raw text : List UInt8} (h : decodeLoop raw = some text) :
    Encodes raw text := by
  fun_induction decodeLoop raw generalizing text with
  | case1 =>
    rw [← Option.some.inj h]
    exact .nil
  | case2 | case4 | case5 | case6 => exact absurd h (by simp)
  | case3 high low raw a b hlow hhigh c hc =>
    rename_i ih
    obtain ⟨rest, hrest, rfl⟩ := Option.map_eq_some_iff.1 h
    have hbyte : c = UInt8.ofNat (16 * a + b) :=
      congrArg UInt8.ofNat (shiftLeft_or (hexValue_lt hlow))
    rw [hbyte] at hc ⊢
    exact .hex hhigh hlow (Bool.eq_false_iff.2 hc) (ih hrest)
  | case7 b raw hpercent c hc =>
    rename_i ih
    obtain ⟨rest, hrest, rfl⟩ := Option.map_eq_some_iff.1 h
    by_cases hplus : b = 43
    · have hbyte : c = 32 := if_pos hplus
      rw [hbyte, hplus]
      exact .plus (ih hrest)
    · have hbyte : c = b := if_neg hplus
      rw [hbyte] at hc ⊢
      exact .plain hpercent hplus (Bool.eq_false_iff.2 hc) (ih hrest)

theorem Encodes.decodeLoop_eq {raw text : List UInt8} (h : Encodes raw text) :
    decodeLoop raw = some text := by
  induction h with
  | nil => rfl
  | plain hpercent hplus hc _ ih =>
    rw [decodeLoop.eq_def]
    simp only [if_neg hpercent, if_neg hplus, hc, Bool.false_eq_true, if_false, ih, Option.map_some]
  | plus _ ih =>
    rw [decodeLoop.eq_def]
    show (decodeLoop _).map (32 :: ·) = _
    rw [ih, Option.map_some]
  | hex hhigh hlow hc _ ih =>
    rw [decodeLoop.eq_def]
    simp only [if_true, hhigh, hlow, shiftLeft_or (hexValue_lt hlow), hc, Bool.false_eq_true,
      if_false, ih, Option.map_some]

theorem Encodes.nil_iff {raw text : List UInt8} (h : Encodes raw text) : raw = [] ↔ text = [] := by
  cases h <;> simp

/-- The encodings of nonempty texts are decoded, and nothing else. -/
theorem urlDecodeExact_eq_some_iff {raw text : List UInt8} :
    urlDecodeExact raw = some text ↔ Encodes raw text ∧ text ≠ [] := by
  unfold urlDecodeExact
  constructor
  · intro h
    split at h
    · exact absurd h (by simp)
    · next hraw =>
      have hencodes := encodes_of_decodeLoop h
      exact ⟨hencodes, fun hnil => hraw (hencodes.nil_iff.2 hnil)⟩
  · rintro ⟨h, hne⟩
    rw [if_neg fun hnil => hne (h.nil_iff.1 hnil)]
    exact h.decodeLoop_eq

/-! ## Header lines -/

/-- `bytes_find` -/
def bytesFind (data needle : List UInt8) : Option Nat := firstInfix needle data

/-- The bytes of header names besides letters and digits. -/
def nameMarks : List UInt8 := ascii "!#$%&'*+-.^_`|~"

/-- `valid_header_name` -/
def validHeaderName (name : List UInt8) : Bool :=
  name ≠ [] && name.all fun c => isAlnum c || nameMarks.contains c

/-- `name_equal` -/
def nameEqual (name : List UInt8) (wanted : String) : Bool := sameIgnoringCase name (ascii wanted)

/-- `host_value_valid` -/
def hostValueValid (value : List UInt8) : Bool :=
  let value := strip isBlankOrTab value
  value == ascii "127.0.0.1:1455" || sameIgnoringCase value (ascii "localhost:1455")

/-- A byte that no value of a header has. -/
def isForbidden (c : UInt8) : Bool := (c < 32 && c ≠ 9) || c = 127

/-- `validate_callback_headers`, with the count of the hosts so far. -/
def validateCallbackHeaders (hostCount : Nat) (headers : List UInt8) : Bool :=
  match _ : bytesFind headers crlf with
  | none => false
  | some lineLen =>
    if lineLen = 0 then headers.length = 2 && hostCount == 1
    else
      match splitFirst 58 (headers.take lineLen) with
      | none => false
      | some (name, value) =>
        if !validHeaderName name then false
        else if nameEqual name "content-length" || nameEqual name "transfer-encoding" then false
        else
          let isHost := nameEqual name "host"
          let hostCount := if isHost then hostCount + 1 else hostCount
          if isHost && (1 < hostCount || !hostValueValid value) then false
          else if value.any isForbidden then false
          else validateCallbackHeaders hostCount (headers.drop (lineLen + 2))
termination_by headers.length
decreasing_by
  have hle := firstInfix_le (show firstInfix crlf headers = some lineLen from ‹_›)
  have hcrlf : crlf.length = 2 := rfl
  rw [List.length_drop]
  omega

/-! ## Query fields -/

/-- `OAuthCallback` -/
structure OAuthCallback where
  code : Option (List UInt8)
  state : Option (List UInt8)
  denial : Option (List UInt8)
  deriving DecidableEq, Repr

/-- `OAUTH_QUERY_FIELDS_MAX` -/
def oauthQueryFieldsMax : Nat := 16

/-- `callback_set_field` -/
def callbackSetField (callback : OAuthCallback) (names : List (List UInt8))
    (name value : List UInt8) : Option OAuthCallback :=
  if name ∈ names then none
  else if name = ascii "code" then some { callback with code := some value }
  else if name = ascii "state" then some { callback with state := some value }
  else if name = ascii "error" then some { callback with denial := some value }
  else some callback

/-- The decoded name and value of a part of the query. -/
def decodeField (part : List UInt8) : Option (List UInt8 × List UInt8) :=
  match splitFirst 61 part with
  | none => none
  | some (name, value) =>
    if name = [] then none
    else
      match urlDecodeExact name, urlDecodeExact value with
      | some name, some value => some (name, value)
      | _, _ => none

/-- The loop of `parse_callback_query`, with the names so far. -/
def queryLoop (names : List (List UInt8)) (callback : OAuthCallback) (query : List UInt8) :
    Option OAuthCallback :=
  if _ : query = [] then some callback
  else if oauthQueryFieldsMax ≤ names.length then none
  else
    match decodeField (query.takeWhile (· ≠ 38)) with
    | none => none
    | some (name, value) =>
      match callbackSetField callback names name value with
      | none => none
      | some callback =>
        match _ : query.dropWhile (· ≠ 38) with
        | [] => some callback
        | [_] => none
        | _ :: rest => queryLoop (names ++ [name]) callback rest
termination_by query.length
decreasing_by
  rename_i hrest
  have hle := length_dropWhile_le (· ≠ 38) query
  rw [hrest, List.length_cons] at hle
  exact hle

/-- `parse_callback_query` -/
def parseCallbackQuery (query : List UInt8) : Option OAuthCallback :=
  match queryLoop [] { code := none, state := none, denial := none } query with
  | none => none
  | some callback =>
    if callback.state.isNone then none
    else if callback.code.isSome = callback.denial.isSome then none
    else some callback

/-! ## The request -/

/-- `OAUTH_REQUEST_MAX` -/
def oauthRequestMax : Nat := 8192

/-- `OPENAI_CALLBACK_PATH` -/
def openaiCallbackPath : List UInt8 := ascii "/auth/callback"

/-- `parse_callback_request` -/
def parseCallbackRequest (request : List UInt8) : Option OAuthCallback :=
  if request = [] ∨ oauthRequestMax < request.length then none
  else if 0 ∈ request then none
  else if (bytesFind request crlfcrlf).map (· + 4) ≠ some request.length then none
  else
    match bytesFind request crlf with
    | none => none
    | some lineLen =>
      match splitFirst 32 (request.take lineLen) with
      | none => none
      | some (method, line) =>
        if method ≠ ascii "GET" then none
        else
          match splitFirst 32 line with
          | none => none
          | some (target, version) =>
            if 32 ∈ version ∨ version ≠ ascii "HTTP/1.1" then none
            else if ¬openaiCallbackPath ++ ascii "?" <+: target then none
            else if 35 ∈ target then none
            else if !validateCallbackHeaders 0 (request.drop (lineLen + 2)) then none
            else parseCallbackQuery (target.drop (openaiCallbackPath.length + 1))

/-! ## The grammar -/

/-- A line of the header. -/
structure HeaderLine where
  name : List UInt8
  value : List UInt8
  deriving DecidableEq, Repr

/-- The line without its end. -/
def HeaderLine.text (line : HeaderLine) : List UInt8 := line.name ++ 58 :: line.value

def HeaderLine.bytes (line : HeaderLine) : List UInt8 := line.text ++ crlf

def HeaderLine.isHost (line : HeaderLine) : Bool := nameEqual line.name "host"

/-- A line that a callback may have. -/
structure HeaderLine.Allowed (line : HeaderLine) : Prop where
  name : validHeaderName line.name = true
  noLength : nameEqual line.name "content-length" = false
  noEncoding : nameEqual line.name "transfer-encoding" = false
  host : line.isHost = true → hostValueValid line.value = true
  value : ∀ c ∈ line.value, isForbidden c = false

/-- A part of the query, and the name and value that it encodes. -/
def IsField (part : List UInt8) (field : List UInt8 × List UInt8) : Prop :=
  ∃ name value, part = name ++ 61 :: value ∧ 61 ∉ name ∧ Encodes name field.1 ∧ field.1 ≠ [] ∧
    Encodes value field.2 ∧ field.2 ≠ []

/-- A query, and its fields. -/
structure IsQuery (query : List UInt8) (fields : List (List UInt8 × List UInt8)) : Prop where
  noSpace : 32 ∉ query
  noFragment : 35 ∉ query
  parts : List.Forall₂ IsField (query.splitOn 38) fields
  distinct : (fields.map Prod.fst).Nodup
  state : ascii "state" ∈ fields.map Prod.fst
  answer : ascii "code" ∈ fields.map Prod.fst ↔ ascii "error" ∉ fields.map Prod.fst

/-- The first line of the request. -/
def requestLine (query : List UInt8) : List UInt8 :=
  ascii "GET" ++ 32 :: (openaiCallbackPath ++ ascii "?" ++ query ++ 32 :: ascii "HTTP/1.1")

/-- The request with this query and this header. -/
def requestBytes (query : List UInt8) (headers : List HeaderLine) : List UInt8 :=
  requestLine query ++ crlf ++ (headers.flatMap HeaderLine.bytes ++ crlf)

/-- A complete request for the callback, with the fields of its query. -/
def IsCallbackRequest (request : List UInt8) (fields : List (List UInt8 × List UInt8)) : Prop :=
  ∃ query headers, request = requestBytes query headers ∧
    (∀ line ∈ headers, line.Allowed) ∧ headers.countP HeaderLine.isHost = 1 ∧ IsQuery query fields

/-- What the fields hand on. -/
def callbackOf (fields : List (List UInt8 × List UInt8)) : OAuthCallback where
  code := fields.lookup (ascii "code")
  state := fields.lookup (ascii "state")
  denial := fields.lookup (ascii "error")

/-! ## The parser of the header -/

theorem bytesFind_eq {data needle : List UInt8} {n : Nat} (h : bytesFind data needle = some n) :
    data = data.take n ++ needle ++ data.drop (n + needle.length) := by
  obtain ⟨rest, hrest⟩ := isPrefix_of_firstInfix h
  have hdrop : data.drop (n + needle.length) = rest := by
    rw [← List.drop_drop, ← hrest, List.drop_left]
  rw [hdrop, List.append_assoc, hrest, List.take_append_drop]

/-- A line without a carriage return ends where the next end of a line is. -/
theorem bytesFind_line {line : List UInt8} (h : 13 ∉ line) (rest : List UInt8) :
    bytesFind (line ++ crlf ++ rest) crlf = some line.length := by
  have hhead : firstInfix crlf (crlf ++ rest) = some 0 :=
    if_pos (List.prefix_append crlf rest)
  rw [bytesFind, List.append_assoc, firstInfix_append_of_notMem rfl h, hhead, Option.map_some,
    Nat.zero_add]

/-- The bytes of a name are no controls. -/
theorem of_mem_name {name : List UInt8} (h : validHeaderName name = true) {c : UInt8}
    (hc : c ∈ name) : c ≠ 0 ∧ c ≠ 13 ∧ c ≠ 58 := by
  have hall := List.all_eq_true.1 (Bool.and_eq_true_iff.1 h).2 c hc
  refine ⟨?_, ?_, ?_⟩ <;>
  · rintro rfl
    exact absurd hall (by decide +kernel)

namespace HeaderLine

variable {line : HeaderLine}

/-- An allowed line neither ends the request nor the header. -/
theorem Allowed.of_mem_text (h : line.Allowed) {c : UInt8} (hc : c ∈ line.text) :
    c ≠ 0 ∧ c ≠ 13 := by
  rcases List.mem_append.1 hc with hc | hc
  · have hname := of_mem_name h.name hc
    exact ⟨hname.1, hname.2.1⟩
  rcases List.mem_cons.1 hc with rfl | hc
  · decide
  · have hvalue := h.value c hc
    constructor <;>
    · rintro rfl
      exact absurd hvalue (by decide)

theorem Allowed.notMem_text (h : line.Allowed) : 13 ∉ line.text :=
  fun hmem => (h.of_mem_text hmem).2 rfl

theorem Allowed.notMem_name (h : line.Allowed) : 58 ∉ line.name :=
  fun hmem => (of_mem_name h.name hmem).2.2 rfl

end HeaderLine

/-- What the loop does with a line that it has found. -/
theorem validateCallbackHeaders_of_find {hostCount lineLen : Nat} {headers : List UInt8}
    {line : HeaderLine} (hfind : bytesFind headers crlf = some lineLen)
    (hline : splitFirst 58 (headers.take lineLen) = some (line.name, line.value)) :
    validateCallbackHeaders hostCount headers = true ↔
      line.Allowed ∧ (line.isHost = true → hostCount = 0) ∧
        validateCallbackHeaders (hostCount + if line.isHost then 1 else 0)
          (headers.drop (lineLen + 2)) = true := by
  have hlen : lineLen ≠ 0 := by
    rintro rfl
    rw [List.take_zero] at hline
    exact absurd hline (by simp [splitFirst])
  have hstep : validateCallbackHeaders hostCount headers =
      if !validHeaderName line.name then false
      else if nameEqual line.name "content-length" || nameEqual line.name "transfer-encoding" then
        false
      else
        let hostCount := if line.isHost then hostCount + 1 else hostCount
        if line.isHost && (1 < hostCount || !hostValueValid line.value) then false
        else if line.value.any isForbidden then false
        else validateCallbackHeaders hostCount (headers.drop (lineLen + 2)) := by
    rw [validateCallbackHeaders.eq_def]
    split
    · next hnone =>
      rw [hfind] at hnone
      exact absurd hnone (by simp)
    · next found hfound =>
      have heq : found = lineLen := Option.some.inj (hfound.symm.trans hfind)
      subst heq
      rw [if_neg hlen, hline]
      rfl
  rw [hstep]
  cases hname : validHeaderName line.name with
  | false =>
    exact iff_of_false Bool.false_ne_true fun h => Bool.false_ne_true (hname.symm.trans h.1.name)
  | true =>
  cases hlength : nameEqual line.name "content-length" with
  | true =>
    exact iff_of_false Bool.false_ne_true fun h =>
      Bool.false_ne_true (h.1.noLength.symm.trans hlength)
  | false =>
  cases hencoding : nameEqual line.name "transfer-encoding" with
  | true =>
    exact iff_of_false Bool.false_ne_true fun h =>
      Bool.false_ne_true (h.1.noEncoding.symm.trans hencoding)
  | false =>
  cases hvalue : line.value.any isForbidden with
  | true =>
    refine iff_of_false ?_ fun h => ?_
    · intro h
      simp only [Bool.not_true, Bool.false_eq_true, Bool.or_self, if_true, ite_self] at h
    · obtain ⟨c, hc, hforbidden⟩ := List.any_eq_true.1 hvalue
      exact Bool.false_ne_true ((h.1.value c hc).symm.trans hforbidden)
  | false =>
  have hallowed : ∀ c ∈ line.value, isForbidden c = false := by
    intro c hc
    exact Bool.eq_false_iff.2 fun hforbidden =>
      Bool.false_ne_true (hvalue.symm.trans (List.any_eq_true.2 ⟨c, hc, hforbidden⟩))
  cases hhost : line.isHost with
  | false =>
    constructor
    · intro h
      exact ⟨⟨hname, hlength, hencoding, fun h => absurd (hhost.symm.trans h) Bool.false_ne_true,
        hallowed⟩, nofun, h⟩
    · exact fun h => h.2.2
  | true =>
    cases hvalid : hostValueValid line.value with
    | false =>
      refine iff_of_false ?_ fun h => ?_
      · intro h
        simp at h
      · exact Bool.false_ne_true (hvalid.symm.trans (h.1.host hhost))
    | true =>
      by_cases hfirst : hostCount = 0
      · rw [hfirst]
        constructor
        · intro h
          exact ⟨⟨hname, hlength, hencoding, fun _ => hvalid, hallowed⟩, fun _ => rfl, h⟩
        · exact fun h => h.2.2
      · refine iff_of_false ?_ fun h => hfirst (h.2.1 rfl)
        have hmany : 1 < hostCount + 1 := by omega
        intro h
        simp [hmany] at h

/-- A header is accepted when its lines are allowed and one of them is a host. -/
theorem validateCallbackHeaders_iff {hostCount : Nat} {headers : List UInt8} :
    validateCallbackHeaders hostCount headers = true ↔
      ∃ lines : List HeaderLine, headers = lines.flatMap HeaderLine.bytes ++ crlf ∧
        (∀ line ∈ lines, line.Allowed) ∧ hostCount + lines.countP HeaderLine.isHost = 1 := by
  constructor
  · intro h
    obtain ⟨n, hn⟩ : ∃ n, headers.length = n := ⟨_, rfl⟩
    induction n using Nat.strong_induction_on generalizing hostCount headers with
    | _ n ih =>
      have hunfold := h
      rw [validateCallbackHeaders.eq_def] at hunfold
      split at hunfold
      · exact absurd hunfold Bool.false_ne_true
      next lineLen hfind =>
      have hcut := bytesFind_eq hfind
      split at hunfold
      · next hzero =>
        rw [Bool.and_eq_true_iff, decide_eq_true_eq, beq_iff_eq] at hunfold
        rw [hzero, List.take_zero, List.nil_append] at hcut
        have hrest : (headers.drop (0 + crlf.length)).length = 0 := by
          rw [List.length_drop, hunfold.1]
          rfl
        refine ⟨[], ?_, nofun, ?_⟩
        · rw [hcut, List.eq_nil_of_length_eq_zero hrest]
          rfl
        · rw [hunfold.2]
          rfl
      · next hpos =>
        cases hline : splitFirst 58 (headers.take lineLen) with
        | none =>
          rw [hline] at hunfold
          exact absurd hunfold Bool.false_ne_true
        | some cut =>
          have hstep := (@validateCallbackHeaders_of_find hostCount lineLen headers
            ⟨cut.1, cut.2⟩ hfind hline).1 h
          obtain ⟨hallowed, hfirst, hrest⟩ := hstep
          have hle := firstInfix_le (show firstInfix crlf headers = some lineLen from hfind)
          have hcrlf : crlf.length = 2 := rfl
          obtain ⟨lines, hbytes, hall, hcount⟩ := ih _ (by rw [List.length_drop]; omega) hrest rfl
          refine ⟨⟨cut.1, cut.2⟩ :: lines, ?_, List.forall_mem_cons.2 ⟨hallowed, hall⟩, ?_⟩
          · have htext : headers.take lineLen = HeaderLine.text ⟨cut.1, cut.2⟩ :=
              (splitFirst_eq_some_iff.1 hline).1
            rw [List.flatMap_cons, List.append_assoc, ← hbytes, HeaderLine.bytes, ← htext]
            exact hcut
          · rw [List.countP_cons]
            omega
  · rintro ⟨lines, rfl, hallowed, hcount⟩
    induction lines generalizing hostCount with
    | nil =>
      have hfind : bytesFind crlf crlf = some 0 := by decide
      show validateCallbackHeaders hostCount crlf = true
      rw [validateCallbackHeaders.eq_def]
      split
      · next hnone =>
        rw [hfind] at hnone
        exact absurd hnone (by simp)
      · next lineLen hlineLen =>
        rw [if_pos (Option.some.inj (hlineLen.symm.trans hfind)), Bool.and_eq_true_iff, beq_iff_eq]
        exact ⟨rfl, hcount⟩
    | cons line lines ih =>
      rw [List.forall_mem_cons] at hallowed
      rw [List.countP_cons] at hcount
      have hcut : (line :: lines).flatMap HeaderLine.bytes ++ crlf =
          line.text ++ crlf ++ (lines.flatMap HeaderLine.bytes ++ crlf) := by
        rw [List.flatMap_cons, List.append_assoc, HeaderLine.bytes]
      have htake : (line.text ++ crlf ++ (lines.flatMap HeaderLine.bytes ++ crlf)).take
          line.text.length = line.text := by
        rw [List.append_assoc, List.take_left]
      have hdrop : (line.text ++ crlf ++ (lines.flatMap HeaderLine.bytes ++ crlf)).drop
          (line.text.length + 2) = lines.flatMap HeaderLine.bytes ++ crlf :=
        List.drop_left' (List.length_append ..)
      have hline : splitFirst 58 ((line.text ++ crlf ++ (lines.flatMap HeaderLine.bytes ++
          crlf)).take line.text.length) = some (line.name, line.value) := by
        rw [htake]
        exact splitFirst_eq_some_iff.2 ⟨rfl, hallowed.1.notMem_name⟩
      rw [hcut, validateCallbackHeaders_of_find (bytesFind_line hallowed.1.notMem_text _) hline,
        hdrop]
      refine ⟨hallowed.1, fun hhost => ?_, ih hallowed.2 ?_⟩
      · rw [if_pos hhost] at hcount
        omega
      · omega

/-! ## The parser of the query -/

theorem not_isField_nil (field : List UInt8 × List UInt8) : ¬IsField [] field := by
  rintro ⟨name, value, hcut, -⟩
  exact absurd hcut.symm (by simp)

/-- A part is decoded when it is a field. -/
theorem decodeField_eq_some_iff {part : List UInt8} {field : List UInt8 × List UInt8} :
    decodeField part = some field ↔ IsField part field := by
  constructor
  · intro h
    unfold decodeField at h
    split at h
    · exact absurd h (by simp)
    next name value hcut =>
    obtain ⟨rfl, hname⟩ := splitFirst_eq_some_iff.1 hcut
    split at h
    · exact absurd h (by simp)
    split at h
    · next name' value' hname' hvalue' =>
      obtain ⟨hencname, hnename⟩ := urlDecodeExact_eq_some_iff.1 hname'
      obtain ⟨hencvalue, hnevalue⟩ := urlDecodeExact_eq_some_iff.1 hvalue'
      rw [← Option.some.inj h]
      exact ⟨name, value, rfl, hname, hencname, hnename, hencvalue, hnevalue⟩
    · exact absurd h (by simp)
  · rintro ⟨name, value, rfl, hname, hencname, hnename, hencvalue, hnevalue⟩
    rw [decodeField, splitFirst_eq_some_iff.2 ⟨rfl, hname⟩]
    dsimp only
    rw [if_neg fun hnil => hnename (hencname.nil_iff.1 hnil),
      urlDecodeExact_eq_some_iff.2 ⟨hencname, hnename⟩,
      urlDecodeExact_eq_some_iff.2 ⟨hencvalue, hnevalue⟩]

/-- The value of a key after one more field. -/
def pick (key : List UInt8) (old : Option (List UInt8)) (field : List UInt8 × List UInt8) :
    Option (List UInt8) :=
  if field.1 = key then some field.2 else old

/-- A field of any name, set where its name says. -/
def setField (callback : OAuthCallback) (field : List UInt8 × List UInt8) : OAuthCallback where
  code := pick (ascii "code") callback.code field
  state := pick (ascii "state") callback.state field
  denial := pick (ascii "error") callback.denial field

/-- A new name is set. -/
theorem callbackSetField_eq (callback : OAuthCallback) (names : List (List UInt8))
    (field : List UInt8 × List UInt8) :
    callbackSetField callback names field.1 field.2 =
      if field.1 ∈ names then none else some (setField callback field) := by
  unfold callbackSetField setField pick
  split
  · rfl
  split
  · next hcode =>
    rw [hcode]
    rfl
  next hcode =>
  split
  · next hstate =>
    rw [hstate]
    rfl
  next hstate =>
  split <;> rfl

/-- With different names, a value is the one of its name. -/
theorem foldl_pick {key : List UInt8} (old : Option (List UInt8)) :
    ∀ {fields : List (List UInt8 × List UInt8)}, (fields.map Prod.fst).Nodup →
      fields.foldl (pick key) old = (fields.lookup key).or old
  | [], _ => rfl
  | (name, value) :: fields, h => by
    rw [List.map_cons, List.nodup_cons] at h
    rw [List.foldl_cons, foldl_pick _ h.2, pick]
    by_cases hkey : name = key
    · have hnone : fields.lookup key = none := by
        rw [List.lookup_eq_none_iff]
        intro field hfield
        have hne : key ≠ field.1 := by
          intro heq
          exact h.1 (List.mem_map.2 ⟨field, hfield, heq.symm.trans hkey.symm⟩)
        exact bne_iff_ne.2 hne
      have hsome : ((name, value) :: fields).lookup key = some value := by
        rw [hkey, List.lookup_cons_self]
      rw [if_pos hkey, hnone, hsome]
      rfl
    · have hother : ((name, value) :: fields).lookup key = fields.lookup key := by
        rw [List.lookup_cons, beq_false_of_ne (Ne.symm hkey)]
      rw [if_neg hkey, hother]

theorem foldl_setField (callback : OAuthCallback) (fields : List (List UInt8 × List UInt8)) :
    fields.foldl setField callback =
      { code := fields.foldl (pick (ascii "code")) callback.code
        state := fields.foldl (pick (ascii "state")) callback.state
        denial := fields.foldl (pick (ascii "error")) callback.denial } := by
  induction fields generalizing callback with
  | nil => rfl
  | cons field fields ih =>
    rw [List.foldl_cons, ih]
    rfl

/-- The loop at the last part of a query. -/
theorem queryLoop_last {names : List (List UInt8)} {callback : OAuthCallback} {part : List UInt8}
    (hpart : 38 ∉ part) (hne : part ≠ []) :
    queryLoop names callback part =
      if oauthQueryFieldsMax ≤ names.length then none
      else (decodeField part).bind fun field =>
        (callbackSetField callback names field.1 field.2).bind fun callback => some callback := by
  rw [queryLoop.eq_def, dif_neg hne, takeWhile_ne_of_notMem hpart]
  split
  · rfl
  cases decodeField part with
  | none => rfl
  | some field =>
    show _ = (callbackSetField callback names field.1 field.2).bind _
    dsimp only
    cases callbackSetField callback names field.1 field.2 with
    | none => rfl
    | some callback =>
      dsimp only
      split
      · rfl
      · next c h =>
        rw [dropWhile_ne_of_notMem hpart] at h
        exact absurd h (by simp)
      · next h =>
        rw [dropWhile_ne_of_notMem hpart] at h
        exact absurd h (by simp)

/-- The loop at another part of a query. -/
theorem queryLoop_cut {names : List (List UInt8)} {callback : OAuthCallback} {part : List UInt8}
    (hpart : 38 ∉ part) (rest : List UInt8) :
    queryLoop names callback (part ++ 38 :: rest) =
      if oauthQueryFieldsMax ≤ names.length then none
      else (decodeField part).bind fun field =>
        (callbackSetField callback names field.1 field.2).bind fun callback =>
          if rest = [] then none else queryLoop (names ++ [field.1]) callback rest := by
  have hne : part ++ 38 :: rest ≠ [] := by simp
  rw [queryLoop.eq_def, dif_neg hne, takeWhile_ne_append_cons hpart]
  split
  · rfl
  cases decodeField part with
  | none => rfl
  | some field =>
    show _ = (callbackSetField callback names field.1 field.2).bind _
    dsimp only
    cases callbackSetField callback names field.1 field.2 with
    | none => rfl
    | some callback =>
      show _ = if rest = [] then none else queryLoop (names ++ [field.1]) callback rest
      dsimp only
      split
      · next h =>
        rw [dropWhile_ne_append_cons hpart] at h
        exact absurd h (by simp)
      · next c h =>
        rw [dropWhile_ne_append_cons hpart, List.cons.injEq] at h
        rw [if_pos h.2]
      · next c more hmore h =>
        rw [dropWhile_ne_append_cons hpart, List.cons.injEq] at h
        rw [h.2, if_neg hmore]

/-- One part: it is a field, and its name is new. -/
theorem bind_decodeField_iff {names : List (List UInt8)} {callback result : OAuthCallback}
    {part : List UInt8} {next : List UInt8 × List UInt8 → OAuthCallback → Option OAuthCallback} :
    ((decodeField part).bind fun field =>
      (callbackSetField callback names field.1 field.2).bind (next field)) = some result ↔
      ∃ field, IsField part field ∧ field.1 ∉ names ∧
        next field (setField callback field) = some result := by
  rw [Option.bind_eq_some_iff]
  refine exists_congr fun field => ?_
  rw [decodeField_eq_some_iff, callbackSetField_eq]
  refine and_congr_right fun _ => ?_
  split
  · next hmem => exact iff_of_false (by simp) fun h => h.1 hmem
  · next hmem => exact ⟨fun h => ⟨hmem, h⟩, fun h => h.2⟩

/-- The loop takes the parts of a query when they are fields of different names, and not too many
of them. -/
theorem queryLoop_iff {names : List (List UInt8)} {callback result : OAuthCallback}
    {query : List UInt8} (hquery : query ≠ []) :
    queryLoop names callback query = some result ↔
      ∃ fields, List.Forall₂ IsField (query.splitOn 38) fields ∧
        names.length + fields.length ≤ oauthQueryFieldsMax ∧
        (∀ field ∈ fields, field.1 ∉ names) ∧ (fields.map Prod.fst).Nodup ∧
        result = fields.foldl setField callback := by
  induction query using splitOn_induction (38 : UInt8) generalizing names callback with
  | last part hpart =>
    rw [List.splitOn_eq_singleton hpart, queryLoop_last hpart hquery]
    constructor
    · intro h
      split at h
      · exact absurd h (by simp)
      obtain ⟨field, hfield, hnew, hresult⟩ := bind_decodeField_iff.1 h
      refine ⟨[field], .cons hfield .nil, ?_, ?_, List.nodup_singleton _,
        (Option.some.inj hresult).symm⟩
      · rw [List.length_singleton]
        omega
      · exact List.forall_mem_singleton.2 hnew
    · rintro ⟨fields, hfields, hlen, hnew, -, rfl⟩
      cases hfields with
      | cons hfield hnil =>
      cases hnil
      rw [List.length_singleton] at hlen
      rw [if_neg (by omega), bind_decodeField_iff]
      exact ⟨_, hfield, hnew _ List.mem_cons_self, rfl⟩
  | cut part rest hpart ih =>
    rw [List.splitOn_append_cons_self_of_not_mem hpart, queryLoop_cut hpart]
    constructor
    · intro h
      split at h
      · exact absurd h (by simp)
      obtain ⟨field, hfield, hnew, hrest⟩ := bind_decodeField_iff.1 h
      split at hrest
      · exact absurd hrest (by simp)
      next hne =>
      obtain ⟨fields, hfields, hlen, hnews, hdistinct, hresult⟩ := (ih hne).1 hrest
      rw [List.length_append, List.length_singleton] at hlen
      refine ⟨field :: fields, .cons hfield hfields, ?_, ?_, ?_, hresult⟩
      · rw [List.length_cons]
        omega
      · refine List.forall_mem_cons.2 ⟨hnew, fun other hother hmem => ?_⟩
        exact hnews other hother (List.mem_append_left _ hmem)
      · rw [List.map_cons, List.nodup_cons]
        refine ⟨fun hmem => ?_, hdistinct⟩
        obtain ⟨other, hother, heq⟩ := List.mem_map.1 hmem
        exact hnews other hother (List.mem_append_right _ (List.mem_singleton.2 heq))
    · rintro ⟨fields, hfields, hlen, hnew, hdistinct, rfl⟩
      cases hfields with
      | @cons _ field _ fields hfield hfields =>
      rw [List.length_cons] at hlen
      rw [List.map_cons, List.nodup_cons] at hdistinct
      rw [List.forall_mem_cons] at hnew
      rw [if_neg (by omega), bind_decodeField_iff]
      refine ⟨field, hfield, hnew.1, ?_⟩
      have hne : rest ≠ [] := by
        rintro rfl
        rw [List.splitOn_nil] at hfields
        cases hfields with
        | cons hnil _ => exact not_isField_nil _ hnil
      rw [if_neg hne, ih hne]
      refine ⟨fields, hfields, ?_, ?_, hdistinct.2, rfl⟩
      · rw [List.length_append, List.length_singleton]
        omega
      · intro other hother hmem
        rcases List.mem_append.1 hmem with hmem | hmem
        · exact hnew.2 other hother hmem
        · rw [List.mem_singleton] at hmem
          exact hdistinct.1 (List.mem_map.2 ⟨other, hother, hmem⟩)

theorem lookup_isSome_iff_mem {key : List UInt8} {fields : List (List UInt8 × List UInt8)} :
    (fields.lookup key).isSome = true ↔ key ∈ fields.map Prod.fst := by
  rw [List.lookup_isSome_iff, List.mem_map]
  exact exists_congr fun field => and_congr_right fun _ => ⟨fun h => (beq_iff_eq.1 h).symm,
    fun h => beq_iff_eq.2 h.symm⟩

/-- There is one of the two answers. -/
theorem answer_iff {fields : List (List UInt8 × List UInt8)} :
    ¬(callbackOf fields).code.isSome = (callbackOf fields).denial.isSome ↔
      (ascii "code" ∈ fields.map Prod.fst ↔ ascii "error" ∉ fields.map Prod.fst) := by
  rw [← lookup_isSome_iff_mem, ← lookup_isSome_iff_mem, ← ne_eq, ← Bool.eq_not_iff,
    Bool.eq_iff_iff, Bool.not_eq_true', Bool.not_eq_true]
  rfl

/-- A query is accepted when it has fields, not too many of them, and hands on their values. -/
theorem parseCallbackQuery_iff {query : List UInt8} {callback : OAuthCallback}
    (hspace : 32 ∉ query) (hfragment : 35 ∉ query) :
    parseCallbackQuery query = some callback ↔
      ∃ fields, IsQuery query fields ∧ fields.length ≤ oauthQueryFieldsMax ∧
        callback = callbackOf fields := by
  have hcallback : ∀ {fields : List (List UInt8 × List UInt8)}, (fields.map Prod.fst).Nodup →
      fields.foldl setField { code := none, state := none, denial := none } =
        callbackOf fields := by
    intro fields hdistinct
    rw [foldl_setField, foldl_pick _ hdistinct, foldl_pick _ hdistinct, foldl_pick _ hdistinct,
      Option.or_none, Option.or_none, Option.or_none]
    rfl
  by_cases hquery : query = []
  · refine iff_of_false ?_ ?_
    · rw [hquery, parseCallbackQuery, queryLoop]
      exact nofun
    · rintro ⟨fields, hfields, -, -⟩
      have hparts := hfields.parts
      rw [hquery, List.splitOn_nil] at hparts
      cases hparts with
      | cons hnil _ => exact not_isField_nil _ hnil
  constructor
  · intro h
    unfold parseCallbackQuery at h
    split at h
    · exact absurd h (by simp)
    next result hloop =>
    obtain ⟨fields, hparts, hlen, -, hdistinct, rfl⟩ := (queryLoop_iff hquery).1 hloop
    rw [hcallback hdistinct] at h
    split at h
    · exact absurd h (by simp)
    next hstate =>
    split at h
    · exact absurd h (by simp)
    next hanswer =>
    refine ⟨fields, ⟨hspace, hfragment, hparts, hdistinct, ?_, ?_⟩, by simpa using hlen,
      (Option.some.inj h).symm⟩
    · rw [← lookup_isSome_iff_mem, ← Option.not_isNone, Bool.not_eq_true']
      exact Bool.eq_false_iff.2 hstate
    · exact answer_iff.1 hanswer
  · rintro ⟨fields, hfields, hlen, rfl⟩
    have hloop := (@queryLoop_iff [] { code := none, state := none, denial := none } _ _ hquery).2
      ⟨fields, hfields.parts, by simpa using hlen, fun _ _ => List.not_mem_nil, hfields.distinct,
        rfl⟩
    rw [parseCallbackQuery, hloop, hcallback hfields.distinct]
    dsimp only
    rw [if_neg (answer_iff.2 hfields.answer), if_neg]
    · have hstate := lookup_isSome_iff_mem.2 hfields.state
      rw [← Option.not_isNone, Bool.not_eq_true'] at hstate
      exact Bool.eq_false_iff.1 hstate

/-! ## The parser of the request -/

/-- The bytes of an encoding are no controls. -/
theorem Encodes.of_mem {raw text : List UInt8} (h : Encodes raw text) {c : UInt8} (hc : c ∈ raw) :
    c ≠ 0 ∧ c ≠ 13 := by
  induction h with
  | nil => exact absurd hc List.not_mem_nil
  | plain _ _ hcontrol _ ih =>
    rcases List.mem_cons.1 hc with rfl | hc
    · constructor <;>
      · rintro rfl
        exact absurd hcontrol (by decide)
    · exact ih hc
  | plus _ ih =>
    rcases List.mem_cons.1 hc with rfl | hc
    · decide
    · exact ih hc
  | hex hhigh hlow _ _ ih =>
    rcases List.mem_cons.1 hc with rfl | hc
    · decide
    rcases List.mem_cons.1 hc with rfl | hc
    · constructor <;>
      · rintro rfl
        exact absurd hhigh (by simp [hexValue])
    rcases List.mem_cons.1 hc with rfl | hc
    · constructor <;>
      · rintro rfl
        exact absurd hlow (by simp [hexValue])
    · exact ih hc

theorem IsField.of_mem {part : List UInt8} {field : List UInt8 × List UInt8}
    (h : IsField part field) {c : UInt8} (hc : c ∈ part) : c ≠ 0 ∧ c ≠ 13 := by
  obtain ⟨name, value, rfl, -, hname, -, hvalue, -⟩ := h
  rcases List.mem_append.1 hc with hc | hc
  · exact hname.of_mem hc
  rcases List.mem_cons.1 hc with rfl | hc
  · decide
  · exact hvalue.of_mem hc

theorem IsQuery.of_mem {query : List UInt8} {fields : List (List UInt8 × List UInt8)}
    (h : IsQuery query fields) {c : UInt8} (hc : c ∈ query) : c ≠ 0 ∧ c ≠ 13 := by
  have hparts := h.parts
  clear h
  induction query using splitOn_induction (38 : UInt8) generalizing fields with
  | last part hpart =>
    rw [List.splitOn_eq_singleton hpart] at hparts
    cases hparts with
    | cons hfield _ => exact hfield.of_mem hc
  | cut part rest hpart ih =>
    rw [List.splitOn_append_cons_self_of_not_mem hpart] at hparts
    cases hparts with
    | cons hfield hrest =>
    rcases List.mem_append.1 hc with hc | hc
    · exact hfield.of_mem hc
    rcases List.mem_cons.1 hc with rfl | hc
    · decide
    · exact ih hc hrest

/-- The first line of a request for the callback is just a line. -/
theorem IsQuery.of_mem_requestLine {query : List UInt8} {fields : List (List UInt8 × List UInt8)}
    (h : IsQuery query fields) {c : UInt8} (hc : c ∈ requestLine query) : c ≠ 0 ∧ c ≠ 13 := by
  have hfront : ∀ c ∈ ascii "GET" ++ 32 :: (openaiCallbackPath ++ ascii "?"), c ≠ 0 ∧ c ≠ 13 :=
    List.forall_mem_append.2 ⟨forall_mem_ascii (by decide), List.forall_mem_cons.2 ⟨by decide,
      List.forall_mem_append.2 ⟨forall_mem_ascii (by decide), forall_mem_ascii (by decide)⟩⟩⟩
  have hback : ∀ c ∈ (32 :: ascii "HTTP/1.1" : List UInt8), c ≠ 0 ∧ c ≠ 13 :=
    List.forall_mem_cons.2 ⟨by decide, forall_mem_ascii (by decide)⟩
  have hcut : requestLine query = ascii "GET" ++ 32 :: (openaiCallbackPath ++ ascii "?") ++
      query ++ 32 :: ascii "HTTP/1.1" := by
    simp only [requestLine, List.append_assoc, List.cons_append]
  rw [hcut] at hc
  rcases List.mem_append.1 hc with hc | hc
  · rcases List.mem_append.1 hc with hc | hc
    · exact hfront c hc
    · exact h.of_mem hc
  · exact hback c hc

/-- The end of a line that is not the end of the header. -/
theorem firstInfix_crlf_append {xs : List UInt8} (h : xs.head? ≠ some 13) :
    firstInfix crlfcrlf (crlf ++ xs) = (firstInfix crlfcrlf xs).map (· + 2) := by
  have hreturn : ¬crlfcrlf <+: 13 :: 10 :: xs := by
    rintro ⟨rest, hrest⟩
    have hxs : 13 :: 10 :: rest = xs := (List.cons.inj (List.cons.inj hrest).2).2
    exact h (by rw [← hxs]; rfl)
  have hnewline : ¬crlfcrlf <+: 10 :: xs := by
    rintro ⟨rest, hrest⟩
    exact absurd (List.cons.inj hrest).1 (by decide)
  show firstInfix crlfcrlf (13 :: 10 :: xs) = _
  rw [firstInfix, if_neg hreturn, firstInfix, if_neg hnewline, Option.map_map]
  rfl

/-- The header ends with the request. -/
theorem bytesFind_header {headers : List HeaderLine} (hallowed : ∀ line ∈ headers, line.Allowed)
    {line : List UInt8} (hline : 13 ∉ line) :
    bytesFind (line ++ crlf ++ (headers.flatMap HeaderLine.bytes ++ crlf)) crlfcrlf =
      some (line.length + (headers.flatMap HeaderLine.bytes).length) := by
  rw [bytesFind, List.append_assoc, firstInfix_append_of_notMem rfl hline]
  induction headers generalizing line with
  | nil =>
    have hhead : firstInfix crlfcrlf (crlf ++ crlf) = some 0 := by decide
    show (firstInfix crlfcrlf (crlf ++ crlf)).map (· + line.length) = _
    rw [hhead, Option.map_some, Nat.zero_add]
    rfl
  | cons first rest ih =>
    rw [List.forall_mem_cons] at hallowed
    have htext := hallowed.1.notMem_text
    have hhead : (first.text ++ (crlf ++ (rest.flatMap HeaderLine.bytes ++ crlf))).head? ≠
        some 13 := by
      rw [List.head?_append_of_ne_nil _ (by simp [HeaderLine.text])]
      exact fun h => htext (List.mem_of_mem_head? h)
    rw [List.flatMap_cons, HeaderLine.bytes, List.append_assoc, List.append_assoc,
      firstInfix_crlf_append hhead, firstInfix_append_of_notMem rfl htext, ih hallowed.2 htext,
      Option.map_some, Option.map_some, List.length_append, List.length_append, Option.some_inj]
    have hcrlf : crlf.length = 2 := rfl
    omega

theorem IsQuery.zero_notMem_requestBytes {query : List UInt8}
    {fields : List (List UInt8 × List UInt8)} (h : IsQuery query fields)
    {headers : List HeaderLine} (hallowed : ∀ line ∈ headers, line.Allowed) :
    0 ∉ requestBytes query headers := by
  intro hmem
  rcases List.mem_append.1 hmem with hmem | hmem
  · rcases List.mem_append.1 hmem with hmem | hmem
    · exact (h.of_mem_requestLine hmem).1 rfl
    · exact absurd hmem (by decide)
  rcases List.mem_append.1 hmem with hmem | hmem
  · obtain ⟨line, hline, hmem⟩ := List.mem_flatMap.1 hmem
    rcases List.mem_append.1 hmem with hmem | hmem
    · exact ((hallowed line hline).of_mem_text hmem).1 rfl
    · exact absurd hmem (by decide)
  · exact absurd hmem (by decide)

/-- In a request for the callback that is not too long, the query decides. -/
theorem parseCallbackRequest_requestBytes {query : List UInt8} {headers : List HeaderLine}
    {fields : List (List UInt8 × List UInt8)} (hallowed : ∀ line ∈ headers, line.Allowed)
    (hhost : headers.countP HeaderLine.isHost = 1) (hquery : IsQuery query fields)
    (hlen : (requestBytes query headers).length ≤ oauthRequestMax) :
    parseCallbackRequest (requestBytes query headers) = parseCallbackQuery query := by
  have hreturn : 13 ∉ requestLine query := fun hmem => (hquery.of_mem_requestLine hmem).2 rfl
  have hlength : (requestBytes query headers).length =
      (requestLine query).length + (headers.flatMap HeaderLine.bytes).length + 4 := by
    have hcrlf : crlf.length = 2 := rfl
    rw [requestBytes, List.length_append, List.length_append, List.length_append]
    omega
  have hnul := hquery.zero_notMem_requestBytes hallowed
  have hend : (bytesFind (requestBytes query headers) crlfcrlf).map (· + 4) =
      some (requestBytes query headers).length := by
    rw [hlength, requestBytes, bytesFind_header hallowed hreturn]
    rfl
  have hfind : bytesFind (requestBytes query headers) crlf = some (requestLine query).length :=
    bytesFind_line hreturn _
  have htake : (requestBytes query headers).take (requestLine query).length =
      requestLine query := by
    rw [requestBytes, List.append_assoc, List.take_left]
  have hdrop : (requestBytes query headers).drop ((requestLine query).length + 2) =
      headers.flatMap HeaderLine.bytes ++ crlf := List.drop_left' (List.length_append ..)
  have hmethod : splitFirst 32 (requestLine query) = some (ascii "GET",
      openaiCallbackPath ++ ascii "?" ++ query ++ 32 :: ascii "HTTP/1.1") :=
    splitFirst_eq_some_iff.2 ⟨rfl, by decide⟩
  have hspace : 32 ∉ openaiCallbackPath ++ ascii "?" ++ query :=
    fun hmem => (List.mem_append.1 hmem).elim (by decide) hquery.noSpace
  have hfragment : 35 ∉ openaiCallbackPath ++ ascii "?" ++ query :=
    fun hmem => (List.mem_append.1 hmem).elim (by decide) hquery.noFragment
  have htarget : splitFirst 32 (openaiCallbackPath ++ ascii "?" ++ query ++
      32 :: ascii "HTTP/1.1") = some (openaiCallbackPath ++ ascii "?" ++ query,
        ascii "HTTP/1.1") := splitFirst_eq_some_iff.2 ⟨rfl, hspace⟩
  have hheaders : validateCallbackHeaders 0 (headers.flatMap HeaderLine.bytes ++ crlf) = true :=
    validateCallbackHeaders_iff.2 ⟨headers, rfl, hallowed, by rw [hhost]⟩
  have hrest : (openaiCallbackPath ++ ascii "?" ++ query).drop (openaiCallbackPath.length + 1) =
      query := List.drop_left' (List.length_append ..)
  have hversion : ¬(32 ∈ ascii "HTTP/1.1" ∨ ascii "HTTP/1.1" ≠ ascii "HTTP/1.1") := by decide
  have hlimits : ¬(requestBytes query headers = [] ∨
      oauthRequestMax < (requestBytes query headers).length) := by
    rintro (hnil | hlong)
    · rw [hnil] at hlength
      exact absurd hlength (by simp)
    · omega
  rw [parseCallbackRequest, if_neg hlimits, if_neg hnul, if_neg (not_not.2 hend), hfind]
  dsimp only
  rw [htake, hmethod]
  dsimp only
  rw [if_neg (not_not.2 rfl), htarget]
  dsimp only
  rw [if_neg hversion, if_neg (not_not.2 (List.prefix_append _ query)), if_neg hfragment, hdrop,
    hheaders, if_neg (by decide), hrest]

/-- A request is accepted when it is one for the callback, within the limits of the parser, and
hands on the values of its fields. -/
theorem parseCallbackRequest_iff (request : List UInt8) (callback : OAuthCallback) :
    parseCallbackRequest request = some callback ↔
      ∃ fields, IsCallbackRequest request fields ∧ request.length ≤ oauthRequestMax ∧
        fields.length ≤ oauthQueryFieldsMax ∧ callback = callbackOf fields := by
  constructor
  · intro h
    unfold parseCallbackRequest at h
    split at h
    · exact absurd h (by simp)
    next hlimits =>
    split at h
    · exact absurd h (by simp)
    split at h
    · exact absurd h (by simp)
    split at h
    · exact absurd h (by simp)
    next lineLen hfind =>
    split at h
    · exact absurd h (by simp)
    next method line hmethod =>
    split at h
    · exact absurd h (by simp)
    next hget =>
    split at h
    · exact absurd h (by simp)
    next target version htarget =>
    split at h
    · exact absurd h (by simp)
    next hversion =>
    split at h
    · exact absurd h (by simp)
    next hpath =>
    split at h
    · exact absurd h (by simp)
    next hfragment =>
    split at h
    · exact absurd h (by simp)
    next hheaders =>
    obtain ⟨hline, -⟩ := splitFirst_eq_some_iff.1 hmethod
    obtain ⟨rfl, hspace⟩ := splitFirst_eq_some_iff.1 htarget
    obtain ⟨query, rfl⟩ := not_not.1 hpath
    have hvalid : validateCallbackHeaders 0 (request.drop (lineLen + 2)) = true := by
      simpa using hheaders
    obtain ⟨headers, hbytes, hallowed, hhost⟩ := validateCallbackHeaders_iff.1 hvalid
    have hdrop : (openaiCallbackPath ++ ascii "?" ++ query).drop (openaiCallbackPath.length + 1) =
        query := List.drop_left' (List.length_append ..)
    rw [hdrop] at h
    obtain ⟨fields, hquery, hmany, hcallback⟩ :=
      (parseCallbackQuery_iff (fun hmem => hspace (List.mem_append_right _ hmem))
        fun hmem => hfragment (List.mem_append_right _ hmem)).1 h
    refine ⟨fields, ⟨query, headers, ?_, hallowed, ?_, hquery⟩, ?_, hmany, hcallback⟩
    · have hcut := bytesFind_eq hfind
      have hcrlf : crlf.length = 2 := rfl
      rw [hcrlf, hbytes, hline, not_not.1 hget, not_not.1 (not_or.1 hversion).2] at hcut
      exact hcut
    · rwa [Nat.zero_add] at hhost
    · exact Nat.le_of_not_lt (not_or.1 hlimits).2
  · rintro ⟨fields, ⟨query, headers, rfl, hallowed, hhost, hquery⟩, hlen, hmany, rfl⟩
    rw [parseCallbackRequest_requestBytes hallowed hhost hquery hlen]
    exact (parseCallbackQuery_iff hquery.noSpace hquery.noFragment).2 ⟨fields, hquery, hmany, rfl⟩

/-! ## Too many fields -/

/-- A query with more fields than the parser has room for. -/
def crowdedQuery : List UInt8 :=
  ascii "state=s&code=c&a=1&b=1&d=1&e=1&f=1&g=1&h=1&i=1&j=1&k=1&l=1&m=1&n=1&o=1&p=1"

def crowdedFields : List (List UInt8 × List UInt8) :=
  (ascii "state", ascii "s") :: (ascii "code", ascii "c") ::
    (ascii "abdefghijklmnop").map fun c => ([c], ascii "1")

/-- The usual header. -/
def crowdedHeaders : List HeaderLine := [{ name := ascii "Host", value := ascii " localhost:1455" }]

theorem forall₂_isField {parts : List (List UInt8)} {fields : List (List UInt8 × List UInt8)}
    (h : parts.map decodeField = fields.map some) : List.Forall₂ IsField parts fields := by
  rw [← List.forall₂_eq_eq_eq, List.forall₂_map_left_iff, List.forall₂_map_right_iff] at h
  exact h.imp fun _ _ => decodeField_eq_some_iff.1

/-- A request with seventeen fields is not accepted, whatever they are. -/
theorem not_accepts_crowded :
    ¬∀ request callback, parseCallbackRequest request = some callback ↔
      ∃ fields, IsCallbackRequest request fields ∧ callback = callbackOf fields := by
  intro h
  have hallowed : ∀ line ∈ crowdedHeaders, line.Allowed := by
    refine List.forall_mem_singleton.2 ⟨?_, ?_, ?_, fun _ => ?_, ?_⟩ <;> decide +kernel
  have hquery : IsQuery crowdedQuery crowdedFields := by
    rw [crowdedQuery, ascii_ofList]
    exact ⟨by decide +kernel, by decide +kernel, forall₂_isField (by decide +kernel),
      by decide +kernel, by decide +kernel, by decide +kernel⟩
  have haccepted := (h (requestBytes crowdedQuery crowdedHeaders) (callbackOf crowdedFields)).2
    ⟨crowdedFields, ⟨crowdedQuery, crowdedHeaders, rfl, hallowed, by decide +kernel, hquery⟩, rfl⟩
  have hrejected : parseCallbackRequest (requestBytes crowdedQuery crowdedHeaders) = none := by
    rw [crowdedQuery, ascii_ofList]
    decide +kernel
  rw [hrejected] at haccepted
  exact absurd haccepted (by simp)

end EchoAi.Callback
