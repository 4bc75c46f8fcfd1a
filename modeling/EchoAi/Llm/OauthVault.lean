import EchoAi.Json.Wire
import Mathlib.Data.FinEnum

/-!
# The vault of the OAuth manager

What the token endpoint answers is read, stored as a JSON text and read again after a restart.

* `TokenText`: a value that `json_string_field` lets through.
* `tokenSetParse`, `credentialsJson`, `storedCredentialsParse`: reading an answer, storing and
  reading what was stored; `jwtMetadata`: what an id token says.
* `CJsonLib`: the JSON library, as far as the vault depends on it; `latinJson`: one such library.
* `storedSize`: the size of what is stored; `reloads_iff`: it is read again just when it is not
  longer than an answer may be.

Texts are the bytes of C strings.  Memory does not run out.
-/

namespace EchoAi.OauthVault

/-! ## The library -/

/-- A JSON value; a number that is not finite is absent. -/
inductive CJson where
  | null
  | bool (b : Bool)
  | number (x : Option Decimal)
  | string (s : List UInt8)
  | array (items : List CJson)
  | object (members : List (List UInt8 × CJson))

/-- `cJSON_IsObject` -/
def CJson.isObject : CJson → Bool
  | .object _ => true
  | _ => false

/-- `cJSON_GetObjectItemCaseSensitive` -/
def CJson.exactMember (j : CJson) (name : String) : Option CJson :=
  match j with
  | .object ms => (ms.find? fun m => m.1 = ascii name).map Prod.snd
  | _ => none

/-- What is added to an object before it is printed. -/
inductive Field where
  | string (s : List UInt8)
  | number (n : Int)

/-- The field as a value. -/
def Field.value : Field → CJson
  | .string s => .string s
  | .number n => .number (some ⟨n, 0⟩)

/-- A byte that is no control character between quotes. -/
def escapeByte (b : UInt8) : List UInt8 := if b = 34 ∨ b = 92 then [92, b] else [b]

/-- A text without control characters in quotes. -/
def quoted (s : List UInt8) : List UInt8 := 34 :: (s.flatMap escapeByte ++ [34])

/-- The text of a field. -/
def Field.text (numberText : Int → List UInt8) : Field → List UInt8
  | .string s => quoted s
  | .number n => numberText n

/-- The text of a member. -/
def memberText (numberText : Int → List UInt8) (m : List UInt8 × Field) : List UInt8 :=
  quoted m.1 ++ 58 :: m.2.text numberText

/-- The text of further members. -/
def membersText (numberText : Int → List UInt8) (ms : List (List UInt8 × Field)) : List UInt8 :=
  ms.flatMap fun m => 44 :: memberText numberText m

/-- The text of an object, without white space. -/
def objectText (numberText : Int → List UInt8) : List (List UInt8 × Field) → List UInt8
  | [] => [123, 125]
  | m :: ms => 123 :: (memberText numberText m ++ (membersText numberText ms ++ [125]))

/-- No control character. -/
def Plain (s : List UInt8) : Prop := ∀ b ∈ s, 32 ≤ b

/-- The field is a plain text or a whole number that a double holds. -/
def Field.Exact : Field → Prop
  | .string s => Plain s
  | .number n => -2 ^ 53 ≤ n ∧ n ≤ 2 ^ 53

/-- The members have plain names and exact fields. -/
def Exact (ms : List (List UInt8 × Field)) : Prop := ∀ m ∈ ms, Plain m.1 ∧ m.2.Exact

/-- A JSON library: a parser of one value with nothing behind it, and a printer of an object, that
puts a backslash in front of quotes and backslashes and whose texts are read as what was printed. -/
structure CJsonLib where
  parse : List UInt8 → Option CJson
  print : List (List UInt8 × Field) → List UInt8
  numberText : Int → List UInt8
  print_eq : ∀ ms, Exact ms → print ms = objectText numberText ms
  parse_print : ∀ ms, Exact ms →
    parse (print ms) = some (.object (ms.map fun m => (m.1, m.2.value)))

/-! ## Fields -/

/-- `OAUTH_VALUE_MAX` -/
def valueMax : Nat := 262144

/-- `OAUTH_RESPONSE_MAX` -/
def responseMax : Nat := 1048576

/-- A text that may be a token. -/
structure TokenText where
  bytes : List UInt8
  ne_nil : bytes ≠ []
  length_le : bytes.length ≤ valueMax
  plain : ∀ b ∈ bytes, 32 ≤ b
  deriving DecidableEq

/-- The checks of `json_string_field` on a string. -/
def tokenText (s : List UInt8) : Option TokenText :=
  if h : s ≠ [] ∧ s.length ≤ valueMax ∧ ∀ b ∈ s, 32 ≤ b then some ⟨s, h.1, h.2.1, h.2.2⟩ else none

/-- `json_string_field`: it fails, or there is no such field, or there is one. -/
def jsonStringField (object : CJson) (name : String) (required : Bool) :
    Option (Option TokenText) :=
  match object.exactMember name with
  | none => if required then none else some none
  | some (.string s) => (tokenText s).map some
  | some _ => none

/-- `json_keys_are_unique` -/
def jsonKeysAreUnique : CJson → Bool
  | .object ms => decide (ms.map Prod.fst).Nodup
  | _ => false

/-! ## Id tokens -/

/-- `base64url_value` -/
def base64urlValue (b : UInt8) : Option Nat :=
  if 65 ≤ b ∧ b ≤ 90 then some (b.toNat - 65)
  else if 97 ≤ b ∧ b ≤ 122 then some (b.toNat - 97 + 26)
  else if 48 ≤ b ∧ b ≤ 57 then some (b.toNat - 48 + 52)
  else if b = 45 then some 62
  else if b = 95 then some 63
  else none

/-- The three bytes of four digits. -/
def decodedBytes (a b c d : Nat) : List UInt8 :=
  let value := a * 2 ^ 18 + b * 2 ^ 12 + c * 2 ^ 6 + d
  [UInt8.ofNat (value / 2 ^ 16), UInt8.ofNat (value / 2 ^ 8), UInt8.ofNat value]

/-- The loop of `base64url_decode`. -/
def decodeQuads : List UInt8 → Option (List UInt8)
  | [] => some []
  | [_] => none
  | [a, b] => do return (decodedBytes (← base64urlValue a) (← base64urlValue b) 0 0).take 1
  | [a, b, c] => do
    return (decodedBytes (← base64urlValue a) (← base64urlValue b) (← base64urlValue c) 0).take 2
  | a :: b :: c :: d :: input => do
    let bytes := decodedBytes (← base64urlValue a) (← base64urlValue b) (← base64urlValue c)
      (← base64urlValue d)
    return bytes ++ (← decodeQuads input)

/-- `base64url_decode` -/
def base64urlDecode (input : List UInt8) : Option (List UInt8) :=
  if input.length = 0 ∨ input.length % 4 = 1 ∨ valueMax < input.length then none
  else decodeQuads input

section Model

variable (lib : CJsonLib)

/-- `jwt_payload_json` -/
def jwtPayloadJson (jwt : List UInt8) : Option CJson :=
  if valueMax < jwt.length then none
  else
    match jwt.splitOn 46 with
    | [header, encoded, signature] =>
      if header = [] ∨ encoded = [] ∨ signature = [] then none
      else do
        let decoded ← base64urlDecode encoded
        guard (0 ∉ decoded)
        (lib.parse decoded).filter fun json => json.isObject && jsonKeysAreUnique json
    | _ => none

/-- `jwt_metadata`: the account and the plan. -/
def jwtMetadata (jwt : List UInt8) : Option (Option TokenText × Option TokenText) := do
  let payload ← jwtPayloadJson lib jwt
  let account ← jsonStringField payload "chatgpt_account_id" false
  match payload.exactMember "https://api.openai.com/auth" with
  | none => return (account, none)
  | some claims =>
    guard (claims.isObject && jsonKeysAreUnique claims)
    let nestedAccount ← jsonStringField claims "chatgpt_account_id" false
    let plan ← jsonStringField claims "chatgpt_plan_type" false
    return (account.or nestedAccount, plan)

/-- `exact_json_object` -/
def exactJsonObject (data : List UInt8) : Option CJson :=
  if responseMax < data.length then none else (lib.parse data).filter CJson.isObject

/-! ## Credentials -/

/-- `OAuthCredentials`, as they are accepted. -/
structure OAuthCredentials where
  accessToken : TokenText
  refreshToken : TokenText
  accountId : Option TokenText
  planType : Option TokenText
  expiresAt : Int
  deriving DecidableEq

/-- The whole number of a member, within bounds. -/
def wholeMember (json : CJson) (name : String) (low high : Int) : Option Int :=
  match json.exactMember name with
  | some (.number (some x)) =>
    if x.isWhole ∧ low ≤ x.truncate ∧ x.truncate ≤ high then some x.truncate else none
  | _ => none

/-- What an id token says, if there is one. -/
def metadataOf : Option TokenText → Option (Option TokenText × Option TokenText)
  | none => some (none, none)
  | some idToken => jwtMetadata lib idToken.bytes

/-- `token_set_parse` -/
def tokenSetParse (data : List UInt8) (existingRefresh existingAccount existingPlan :
    Option TokenText) (now : Int) : Option OAuthCredentials := do
  let json ← exactJsonObject lib data
  guard (jsonKeysAreUnique json)
  let access ← jsonStringField json "access_token" true
  let refresh ← jsonStringField json "refresh_token" false
  let seconds ← wholeMember json "expires_in" 1 31536000
  let idToken ← jsonStringField json "id_token" false
  let metadata ← metadataOf lib idToken
  let expiresAt := if now ≤ 2 ^ 63 - 1 - seconds then now + seconds else 0
  let accessToken ← access
  let refreshToken ← refresh.or existingRefresh
  guard (now < expiresAt)
  return {
    accessToken
    refreshToken
    accountId := metadata.1.or existingAccount
    planType := metadata.2.or existingPlan
    expiresAt }

/-- The member of a text that may be absent. -/
def optionalField (name : String) (value : Option TokenText) : List (List UInt8 × Field) :=
  value.toList.map fun t => (ascii name, .string t.bytes)

/-- The members of stored credentials. -/
def credentialFields (c : OAuthCredentials) : List (List UInt8 × Field) :=
  [(ascii "access_token", .string c.accessToken.bytes),
    (ascii "refresh_token", .string c.refreshToken.bytes),
    (ascii "expires_at", .number c.expiresAt)] ++
    optionalField "account_id" c.accountId ++ optionalField "plan_type" c.planType

/-- `credentials_json` -/
def credentialsJson (c : OAuthCredentials) : List UInt8 := lib.print (credentialFields c)

/-- `stored_credentials_parse` -/
def storedCredentialsParse (data : List UInt8) : Option OAuthCredentials := do
  let json ← exactJsonObject lib data
  guard (jsonKeysAreUnique json)
  let access ← jsonStringField json "access_token" true
  let refresh ← jsonStringField json "refresh_token" true
  let accountId ← jsonStringField json "account_id" false
  let planType ← jsonStringField json "plan_type" false
  let value ← wholeMember json "expires_at" 0 (2 ^ 63)
  let accessToken ← access
  let refreshToken ← refresh
  -- the greatest number that is let through is no `time_t`
  return {
    accessToken
    refreshToken
    accountId
    planType
    expiresAt := value.bmod (2 ^ 64) }

/-! ## What an answer brings -/

/-- A text that an answer brings. -/
def offered (response : List UInt8) (name : String) : Option TokenText := do
  let json ← exactJsonObject lib response
  (← jsonStringField json name false)

/-- The account and the plan that the id token of an answer brings. -/
def offeredMetadata (response : List UInt8) : Option TokenText × Option TokenText :=
  (metadataOf lib (offered lib response "id_token")).getD (none, none)

/-- The seconds that an answer brings. -/
def offeredSeconds (response : List UInt8) : Int :=
  ((exactJsonObject lib response).bind fun json =>
    wholeMember json "expires_in" 1 31536000).getD 0

/-- The length of a text with a backslash in front of each quote and backslash. -/
def escapedLength (t : TokenText) : Nat :=
  t.bytes.length + t.bytes.countP fun b => b = 34 ∨ b = 92

/-- What a text that may be absent takes, with its name. -/
def optionalSize (overhead : Nat) (value : Option TokenText) : Nat :=
  (value.map fun t => overhead + escapedLength t).getD 0

/-- The size of what is stored behind an answer: its own texts, or else those from before. -/
def storedSize (response : List UInt8) (existingRefresh existingAccount existingPlan :
    Option TokenText) (now : Int) : Nat :=
  optionalSize 17 (offered lib response "access_token") +
    optionalSize 19 ((offered lib response "refresh_token").or existingRefresh) +
    (lib.numberText (now + offeredSeconds lib response)).length +
    optionalSize 16 ((offeredMetadata lib response).1.or existingAccount) +
    optionalSize 15 ((offeredMetadata lib response).2.or existingPlan) + 16

end Model

/-! ## Reading what was stored -/

section Stored

variable {lib : CJsonLib} {c : OAuthCredentials}

theorem tokenText_bytes (t : TokenText) : tokenText t.bytes = some t := by
  rw [tokenText, dif_pos ⟨t.ne_nil, t.length_le, t.plain⟩]

theorem plain_ascii {s : String} (h : (ascii s).all (32 ≤ ·) = true) : Plain (ascii s) := by
  intro b hb
  exact of_decide_eq_true (List.all_eq_true.1 h b hb)

/-- A text that may be absent is stored under a plain name. -/
theorem exact_optionalField {name : String} (h : (ascii name).all (32 ≤ ·) = true)
    (value : Option TokenText) : Exact (optionalField name value) := by
  intro m hm
  obtain ⟨t, -, rfl⟩ := List.mem_map.1 hm
  exact ⟨plain_ascii h, t.plain⟩

theorem exact_credentialFields (hlow : -2 ^ 53 ≤ c.expiresAt) (hhigh : c.expiresAt ≤ 2 ^ 53) :
    Exact (credentialFields c) := by
  intro m hm
  rw [credentialFields, List.mem_append, List.mem_append] at hm
  rcases hm with (hm | hm) | hm
  · rw [List.mem_cons, List.mem_cons, List.mem_singleton] at hm
    rcases hm with rfl | rfl | rfl
    · exact ⟨plain_ascii (by decide), c.accessToken.plain⟩
    · exact ⟨plain_ascii (by decide), c.refreshToken.plain⟩
    · exact ⟨plain_ascii (by decide), hlow, hhigh⟩
  · exact exact_optionalField (by decide) _ m hm
  · exact exact_optionalField (by decide) _ m hm

/-- What the library makes of stored credentials. -/
def storedObject (c : OAuthCredentials) : CJson :=
  .object ((credentialFields c).map fun m => (m.1, m.2.value))

/-- The names in stored credentials. -/
def storedNames (account plan : Bool) : List (List UInt8) :=
  [ascii "access_token", ascii "refresh_token", ascii "expires_at"] ++
    (if account then [ascii "account_id"] else []) ++ if plan then [ascii "plan_type"] else []

theorem nodup_storedNames : ∀ account plan, (storedNames account plan).Nodup := by decide

theorem jsonKeysAreUnique_storedObject (c : OAuthCredentials) :
    jsonKeysAreUnique (storedObject c) = true := by
  have hkeys : ((credentialFields c).map fun m => (m.1, m.2.value)).map Prod.fst =
      storedNames c.accountId.isSome c.planType.isSome := by
    obtain ⟨access, refresh, account, plan, expiresAt⟩ := c
    cases account <;> cases plan <;> rfl
  rw [storedObject, jsonKeysAreUnique, hkeys]
  exact decide_eq_true (nodup_storedNames _ _)

theorem accessToken_storedObject (c : OAuthCredentials) :
    (storedObject c).exactMember "access_token" = some (.string c.accessToken.bytes) := rfl

theorem refreshToken_storedObject (c : OAuthCredentials) :
    (storedObject c).exactMember "refresh_token" = some (.string c.refreshToken.bytes) := rfl

theorem expiresAt_storedObject (c : OAuthCredentials) :
    (storedObject c).exactMember "expires_at" = some (.number (some ⟨c.expiresAt, 0⟩)) := rfl

theorem accountId_storedObject (c : OAuthCredentials) :
    (storedObject c).exactMember "account_id" = c.accountId.map fun t => .string t.bytes := by
  obtain ⟨access, refresh, account, plan, expiresAt⟩ := c
  cases account <;> cases plan <;> rfl

theorem planType_storedObject (c : OAuthCredentials) :
    (storedObject c).exactMember "plan_type" = c.planType.map fun t => .string t.bytes := by
  obtain ⟨access, refresh, account, plan, expiresAt⟩ := c
  cases account <;> cases plan <;> rfl

/-- A text that was stored is read again. -/
theorem jsonStringField_of_bytes {j : CJson} {name : String} {t : TokenText}
    (h : j.exactMember name = some (.string t.bytes)) (required : Bool) :
    jsonStringField j name required = some (some t) := by
  rw [jsonStringField, h]
  exact congrArg (Option.map some) (tokenText_bytes t)

theorem jsonStringField_of_map {j : CJson} {name : String} {value : Option TokenText}
    (h : j.exactMember name = value.map fun t => .string t.bytes) :
    jsonStringField j name false = some value := by
  cases value with
  | none =>
    rw [jsonStringField, h]
    rfl
  | some t => exact jsonStringField_of_bytes h false

/-- A whole number is read again. -/
theorem wholeMember_of_int {j : CJson} {name : String} {n low high : Int}
    (h : j.exactMember name = some (.number (some ⟨n, 0⟩))) (hlow : low ≤ n) (hhigh : n ≤ high) :
    wholeMember j name low high = some n := by
  have htruncate : (⟨n, 0⟩ : Decimal).truncate = n := by
    rw [Decimal.truncate]
    exact Int.tdiv_one n
  have hwhole : (⟨n, 0⟩ : Decimal).isWhole = true := by
    rw [Decimal.isWhole, htruncate, decide_eq_true_eq]
    exact Int.mul_one n
  rw [wholeMember, h]
  dsimp only
  rw [htruncate, if_pos ⟨hwhole, hlow, hhigh⟩]

theorem exactJsonObject_of_short {data : List UInt8} {ms : List (List UInt8 × CJson)}
    (hshort : data.length ≤ responseMax) (hparse : lib.parse data = some (.object ms)) :
    exactJsonObject lib data = some (.object ms) := by
  rw [exactJsonObject, if_neg (Nat.not_lt.2 hshort), hparse]
  rfl

/-- **Stored credentials are read again** when their text is not longer than an answer may be. -/
theorem storedCredentialsParse_iff (hlow : 0 ≤ c.expiresAt) (hhigh : c.expiresAt ≤ 2 ^ 53) :
    storedCredentialsParse lib (credentialsJson lib c) = some c ↔
      (credentialsJson lib c).length ≤ responseMax := by
  constructor
  · intro h
    by_contra hlong
    rw [storedCredentialsParse, exactJsonObject, if_pos (Nat.lt_of_not_le hlong)] at h
    exact absurd h.symm (Option.some_ne_none c)
  · intro hshort
    have hexact := exact_credentialFields (c := c) (by omega) hhigh
    have hobject : exactJsonObject lib (credentialsJson lib c) = some (storedObject c) :=
      exactJsonObject_of_short hshort (lib.parse_print _ hexact)
    have hbmod : c.expiresAt.bmod (2 ^ 64) = c.expiresAt := by
      rw [Int.bmod_eq_of_le] <;> omega
    rw [storedCredentialsParse, hobject, Option.bind_eq_bind, Option.bind_some,
      jsonKeysAreUnique_storedObject, jsonStringField_of_bytes (accessToken_storedObject c),
      jsonStringField_of_bytes (refreshToken_storedObject c),
      jsonStringField_of_map (accountId_storedObject c),
      jsonStringField_of_map (planType_storedObject c),
      wholeMember_of_int (expiresAt_storedObject c) hlow (by omega)]
    show some (OAuthCredentials.mk _ _ _ _ (c.expiresAt.bmod (2 ^ 64))) = some c
    rw [hbmod]

end Stored

/-! ## The size of what is stored -/

section Size

variable {lib : CJsonLib} {c : OAuthCredentials}

theorem length_flatMap_escapeByte (s : List UInt8) :
    (s.flatMap escapeByte).length = s.length + s.countP fun b => b = 34 ∨ b = 92 := by
  induction s with
  | nil => rfl
  | cons b s ih =>
    rw [List.flatMap_cons, List.length_append, ih, List.length_cons, List.countP_cons, escapeByte]
    split
    · next h =>
      rw [if_pos (decide_eq_true h), List.length_cons, List.length_singleton]
      omega
    · next h =>
      rw [if_neg fun hd => h (of_decide_eq_true hd), List.length_singleton]
      omega

theorem length_quoted (s : List UInt8) :
    (quoted s).length = s.length + (s.countP fun b => b = 34 ∨ b = 92) + 2 := by
  rw [quoted, List.length_cons, List.length_append, length_flatMap_escapeByte,
    List.length_singleton]

theorem length_memberText (numberText : Int → List UInt8) (name : List UInt8) (f : Field) :
    (memberText numberText (name, f)).length =
      (quoted name).length + (f.text numberText).length + 1 := by
  rw [memberText, List.length_append, List.length_cons, Nat.add_assoc]

theorem length_text_string (numberText : Int → List UInt8) (t : TokenText) :
    ((Field.string t.bytes).text numberText).length = escapedLength t + 2 :=
  length_quoted t.bytes

/-- What a text that may be absent takes as a further member. -/
theorem length_membersText_optionalField (numberText : Int → List UInt8) (name : String)
    (value : Option TokenText) : (membersText numberText (optionalField name value)).length =
      optionalSize ((quoted (ascii name)).length + 4) value := by
  cases value with
  | none => rfl
  | some t =>
    show (44 :: memberText numberText (ascii name, .string t.bytes) ++ []).length = _
    rw [List.append_nil, List.length_cons, length_memberText, length_text_string, optionalSize]
    show _ = (quoted (ascii name)).length + 4 + escapedLength t
    omega

/-- **The size of stored credentials.** -/
theorem length_credentialsJson (hlow : 0 ≤ c.expiresAt) (hhigh : c.expiresAt ≤ 2 ^ 53) :
    (credentialsJson lib c).length = 17 + escapedLength c.accessToken +
      (19 + escapedLength c.refreshToken) + (lib.numberText c.expiresAt).length +
      optionalSize 16 c.accountId + optionalSize 15 c.planType + 16 := by
  have hexact := exact_credentialFields (c := c) (by omega) hhigh
  have haccount : (membersText lib.numberText (optionalField "account_id" c.accountId)).length =
      optionalSize 16 c.accountId := length_membersText_optionalField _ _ _
  have hplan : (membersText lib.numberText (optionalField "plan_type" c.planType)).length =
      optionalSize 15 c.planType := length_membersText_optionalField _ _ _
  have haccess : (quoted (ascii "access_token")).length = 14 := by decide
  have hrefresh : (quoted (ascii "refresh_token")).length = 15 := by decide
  have hexpires : (quoted (ascii "expires_at")).length = 12 := by decide
  rw [credentialsJson, lib.print_eq _ hexact]
  show (123 :: (memberText lib.numberText (ascii "access_token", .string c.accessToken.bytes) ++
    (membersText lib.numberText (([(ascii "refresh_token", .string c.refreshToken.bytes),
      (ascii "expires_at", .number c.expiresAt)] ++ optionalField "account_id" c.accountId) ++
      optionalField "plan_type" c.planType) ++ [125]))).length = _
  rw [membersText, List.flatMap_append, List.flatMap_append, List.length_cons, List.length_append,
    List.length_append, List.length_append, List.length_append, List.length_singleton]
  rw [membersText] at haccount hplan
  rw [haccount, hplan, List.flatMap_cons, List.flatMap_cons, List.flatMap_nil, List.append_nil,
    List.length_append, List.length_cons, List.length_cons, length_memberText, length_memberText,
    length_memberText, length_text_string, length_text_string, haccess, hrefresh, hexpires,
    show (Field.number c.expiresAt).text lib.numberText = lib.numberText c.expiresAt from rfl]
  omega

end Size

/-! ## Credentials of an answer -/

section Answer

variable {lib : CJsonLib} {data : List UInt8}
  {existingRefresh existingAccount existingPlan : Option TokenText} {now : Int}
  {c : OAuthCredentials}

theorem jsonStringField_false_of_true {j : CJson} {name : String} {value : Option TokenText}
    (h : jsonStringField j name true = some value) : jsonStringField j name false = some value := by
  rw [jsonStringField] at h ⊢
  cases hmember : j.exactMember name with
  | none =>
    rw [hmember] at h
    exact absurd h.symm (Option.some_ne_none value)
  | some x =>
    rw [hmember] at h
    cases x <;> exact h

theorem wholeMember_bounds {j : CJson} {name : String} {low high n : Int}
    (h : wholeMember j name low high = some n) : low ≤ n ∧ n ≤ high := by
  rw [wholeMember] at h
  split at h
  · split at h
    · next x _ hbounds =>
      obtain rfl := Option.some.inj h
      exact hbounds.2
    · exact absurd h.symm (Option.some_ne_none n)
  · exact absurd h.symm (Option.some_ne_none n)

/-- What the credentials of an answer are made of. -/
theorem of_tokenSetParse (h : tokenSetParse lib data existingRefresh existingAccount existingPlan
    now = some c) (hlow : 0 ≤ now) (hhigh : now ≤ 2 ^ 50) :
    offered lib data "access_token" = some c.accessToken ∧
      (offered lib data "refresh_token").or existingRefresh = some c.refreshToken ∧
      (offeredMetadata lib data).1.or existingAccount = c.accountId ∧
      (offeredMetadata lib data).2.or existingPlan = c.planType ∧
      now + offeredSeconds lib data = c.expiresAt ∧
      1 ≤ offeredSeconds lib data ∧ offeredSeconds lib data ≤ 31536000 := by
  simp only [tokenSetParse, Option.bind_eq_bind, Option.bind_eq_some_iff] at h
  obtain ⟨json, hjson, -, -, access, haccess, refresh, hrefresh, seconds, hseconds, idToken,
    hidToken, metadata, hmetadata, accessToken, rfl, refreshToken, hrefreshToken, -, -, hc⟩ := h
  obtain rfl := Option.some.inj hc
  have hbounds := wholeMember_bounds hseconds
  have hoffered : offeredSeconds lib data = seconds := by
    rw [offeredSeconds, hjson, Option.bind_some, hseconds, Option.getD_some]
  have hid : offered lib data "id_token" = idToken := by
    rw [offered, hjson, Option.bind_eq_bind, Option.bind_some, hidToken]
    rfl
  have hmeta : offeredMetadata lib data = metadata := by
    rw [offeredMetadata, hid, hmetadata, Option.getD_some]
  refine ⟨?_, ?_, ?_, ?_, ?_, ?_, ?_⟩
  · rw [offered, hjson, Option.bind_eq_bind, Option.bind_some,
      jsonStringField_false_of_true haccess]
    rfl
  · rw [offered, hjson, Option.bind_eq_bind, Option.bind_some, hrefresh]
    exact hrefreshToken
  · rw [hmeta]
  · rw [hmeta]
  · dsimp only
    rw [hoffered, if_pos (by omega)]
  · rw [hoffered]
    exact hbounds.1
  · rw [hoffered]
    exact hbounds.2

/-- **Credentials can be read again** after they are stored just when their text, with a backslash
in front of each quote and backslash, is not longer than an answer may be. -/
theorem reloads_iff (h : tokenSetParse lib data existingRefresh existingAccount existingPlan now =
    some c) (hlow : 0 ≤ now) (hhigh : now ≤ 2 ^ 50) :
    storedCredentialsParse lib (credentialsJson lib c) = some c ↔
      storedSize lib data existingRefresh existingAccount existingPlan now ≤ responseMax := by
  obtain ⟨haccess, hrefresh, haccount, hplan, hexpires, hone, hyear⟩ :=
    of_tokenSetParse h hlow hhigh
  have hpositive : 0 ≤ c.expiresAt := by omega
  have hexact : c.expiresAt ≤ 2 ^ 53 := by omega
  rw [storedCredentialsParse_iff hpositive hexact, length_credentialsJson hpositive hexact,
    storedSize, haccess, hrefresh, haccount, hplan, hexpires]
  rfl

end Answer

/-! ## A library -/

section Latin

/-- The character of a byte. -/
def byteChar (b : UInt8) : Char := Char.ofNat b.toNat

/-- A text with a character for each byte. -/
def latin (s : List UInt8) : String := String.ofList (s.map byteChar)

mutual

/-- A value whose characters are bytes. -/
def ofValue : JsonValue → CJson
  | .null => .null
  | .bool b => .bool b
  | .number x => .number (some x)
  | .string s => .string (ascii s)
  | .array items => .array (ofItems items)
  | .object members => .object (ofMembers members)

/-- The items of an array. -/
def ofItems : List JsonValue → List CJson
  | [] => []
  | v :: vs => ofValue v :: ofItems vs

/-- The members of an object. -/
def ofMembers : List (String × JsonValue) → List (List UInt8 × CJson)
  | [] => []
  | (k, v) :: ms => (ascii k, ofValue v) :: ofMembers ms

end

/-- A field whose bytes are characters. -/
def Field.toValue : Field → JsonValue
  | .string s => .string (latin s)
  | .number n => .number ⟨n, 0⟩

/-- A member whose bytes are characters. -/
def toMember (m : List UInt8 × Field) : String × JsonValue := (latin m.1, m.2.toValue)

/-- A whole number as it is printed. -/
def latinNumber (n : Int) : List UInt8 :=
  (JsonText.printNumber ⟨n, 0⟩).map fun c => UInt8.ofNat c.toNat

theorem ofNat_byteChar (b : UInt8) : UInt8.ofNat (byteChar b).toNat = b := by
  have hall : ∀ n < 256, UInt8.ofNat (byteChar (UInt8.ofNat n)).toNat = UInt8.ofNat n := by
    decide +kernel
  have hb := hall b.toNat b.toNat_lt
  rwa [UInt8.ofNat_toNat] at hb

theorem ascii_latin (s : List UInt8) : ascii (latin s) = s := by
  rw [ascii, latin, String.toList_ofList, List.map_map]
  exact (List.map_congr_left fun b _ => ofNat_byteChar b).trans (List.map_id s)

theorem map_byteChar_escapeByte {b : UInt8} (h : 32 ≤ b) :
    (escapeByte b).map byteChar = JsonText.escapeChar (byteChar b) := by
  have hall : ∀ n < 256, 32 ≤ n → (escapeByte (UInt8.ofNat n)).map byteChar =
      JsonText.escapeChar (byteChar (UInt8.ofNat n)) := by decide +kernel
  have hb := hall b.toNat b.toNat_lt h
  rwa [UInt8.ofNat_toNat] at hb

/-- A plain text is printed with a character for each byte. -/
theorem map_byteChar_quoted {s : List UInt8} (h : Plain s) :
    (quoted s).map byteChar = JsonText.printString (latin s) := by
  have hescape : (s.flatMap escapeByte).map byteChar =
      ((s.map byteChar).map JsonText.escapeChar).flatten := by
    rw [List.map_flatMap, List.map_map]
    exact congrArg List.flatten
      (List.map_congr_left fun b hb => map_byteChar_escapeByte (h b hb))
  rw [quoted, List.map_cons, List.map_append, hescape, JsonText.printString, latin,
    String.toList_ofList]
  rfl

theorem map_byteChar_latinNumber (n : Int) :
    (latinNumber n).map byteChar = JsonText.printNumber ⟨n, 0⟩ := by
  rw [latinNumber, List.map_map]
  refine (List.map_congr_left fun c hc => ?_).trans (List.map_id _)
  have hsmall : c.toNat < 256 := by
    rw [JsonText.printNumber, if_pos rfl, List.append_nil, List.mem_append] at hc
    rcases hc with hsign | hdigit
    · split at hsign
      · obtain rfl := List.mem_singleton.1 hsign
        decide
      · exact absurd hsign List.not_mem_nil
    · have hdigit := JsonText.isDigit_of_mem_printNat hdigit
      rw [Char.isDigit, Bool.and_eq_true, decide_eq_true_eq, decide_eq_true_eq] at hdigit
      exact Nat.lt_of_le_of_lt hdigit.2 (by decide)
  show Char.ofNat (UInt8.ofNat c.toNat).toNat = c
  rw [UInt8.toNat_ofNat_of_lt' hsmall, Char.ofNat_toNat]

theorem map_byteChar_memberText {m : List UInt8 × Field} (h : Plain m.1 ∧ m.2.Exact) :
    (memberText latinNumber m).map byteChar =
      JsonText.printString (latin m.1) ++ ':' :: JsonText.printValue m.2.toValue := by
  rw [memberText, List.map_append, map_byteChar_quoted h.1, List.map_cons]
  obtain ⟨name, f⟩ := m
  cases f with
  | string s =>
    show _ ++ byteChar 58 :: (quoted s).map byteChar = _
    rw [map_byteChar_quoted h.2, Field.toValue, JsonText.printValue]
    rfl
  | number n =>
    show _ ++ byteChar 58 :: (latinNumber n).map byteChar = _
    rw [map_byteChar_latinNumber, Field.toValue, JsonText.printValue]
    rfl

theorem map_byteChar_membersText {ms : List (List UInt8 × Field)} (h : Exact ms) :
    (membersText latinNumber ms ++ [125]).map byteChar =
      JsonText.printMembers (ms.map toMember) := by
  induction ms with
  | nil =>
    rw [List.map_nil, JsonText.printMembers]
    rfl
  | cons m ms ih =>
    rw [membersText, List.flatMap_cons, List.append_assoc, List.map_append, List.map_cons,
      map_byteChar_memberText (h m List.mem_cons_self), List.map_cons, toMember,
      JsonText.printMembers, ← ih fun m' hm' => h m' (List.mem_cons_of_mem m hm'), membersText,
      List.cons_append, List.append_assoc, List.cons_append]
    rfl

/-- An object is printed with a character for each byte. -/
theorem latin_objectText {ms : List (List UInt8 × Field)} (h : Exact ms) :
    latin (objectText latinNumber ms) = textCodec.print (.object (ms.map toMember)) := by
  refine congrArg String.ofList ?_
  cases ms with
  | nil =>
    rw [List.map_nil, JsonText.printValue]
    rfl
  | cons m ms =>
    rw [objectText, List.map_cons, List.map_append,
      map_byteChar_memberText (h m List.mem_cons_self),
      map_byteChar_membersText fun m' hm' => h m' (List.mem_cons_of_mem m hm'), List.map_cons,
      toMember, JsonText.printValue, List.append_assoc, List.cons_append]
    rfl

theorem ofMembers_toMember (ms : List (List UInt8 × Field)) :
    ofMembers (ms.map toMember) = ms.map fun m => (m.1, m.2.value) := by
  induction ms with
  | nil => rw [List.map_nil, ofMembers, List.map_nil]
  | cons m ms ih =>
    obtain ⟨name, f⟩ := m
    rw [List.map_cons, toMember, ofMembers, ih, ascii_latin, List.map_cons]
    cases f with
    | string s => rw [Field.toValue, ofValue, ascii_latin, Field.value]
    | number n => rw [Field.toValue, ofValue, Field.value]

/-- A library that reads a byte as a character. -/
def latinJson : CJsonLib where
  parse s :=
    if textCodec.wellFormed (latin s) then (textCodec.parse (latin s)).map ofValue else none
  print := objectText latinNumber
  numberText := latinNumber
  print_eq _ _ := rfl
  parse_print ms h := by
    rw [latin_objectText h, if_pos (textCodec.wellFormed_print _), textCodec.parse_print,
      Option.map_some, ofValue, ofMembers_toMember]

/-! ## Quotes -/

/-- A token that consists of quotes. -/
def quotes (n : Nat) (h : 0 < n ∧ n ≤ valueMax) : TokenText where
  bytes := List.replicate n 34
  ne_nil := by
    rw [Ne, List.replicate_eq_nil_iff]
    exact Nat.ne_of_gt h.1
  length_le := by
    rw [List.length_replicate]
    exact h.2
  plain b hb := by
    rw [(List.mem_replicate.1 hb).2]
    decide

/-- The members of an answer with two tokens. -/
def answerFields (access refresh : TokenText) : List (List UInt8 × Field) :=
  [(ascii "access_token", .string access.bytes), (ascii "refresh_token", .string refresh.bytes),
    (ascii "expires_in", .number 1)]

/-- An answer with two tokens. -/
def answer (access refresh : TokenText) : List UInt8 :=
  latinJson.print (answerFields access refresh)

theorem exact_answerFields (access refresh : TokenText) : Exact (answerFields access refresh) := by
  intro m hm
  rw [answerFields, List.mem_cons, List.mem_cons, List.mem_singleton] at hm
  rcases hm with rfl | rfl | rfl
  · exact ⟨plain_ascii (by decide), access.plain⟩
  · exact ⟨plain_ascii (by decide), refresh.plain⟩
  · exact ⟨plain_ascii (by decide), by decide, by decide⟩

/-- The credentials of an answer with two tokens. -/
theorem tokenSetParse_answer {access refresh : TokenText} {now : Int}
    (hshort : (answer access refresh).length ≤ responseMax) (hhigh : now ≤ 2 ^ 50) :
    tokenSetParse latinJson (answer access refresh) none none none now =
      some ⟨access, refresh, none, none, now + 1⟩ := by
  have hparse := exactJsonObject_of_short hshort (latinJson.parse_print _
    (exact_answerFields access refresh))
  have hunique : jsonKeysAreUnique (.object ((answerFields access refresh).map fun m =>
      (m.1, m.2.value))) = true :=
    decide_eq_true (show [ascii "access_token", ascii "refresh_token", ascii "expires_in"].Nodup by
      decide)
  have haccess : jsonStringField (.object ((answerFields access refresh).map fun m =>
      (m.1, m.2.value))) "access_token" true = some (some access) := jsonStringField_of_bytes rfl _
  have hrefresh : jsonStringField (.object ((answerFields access refresh).map fun m =>
      (m.1, m.2.value))) "refresh_token" false = some (some refresh) :=
    jsonStringField_of_bytes rfl _
  have hseconds : wholeMember (.object ((answerFields access refresh).map fun m =>
      (m.1, m.2.value))) "expires_in" 1 31536000 = some 1 :=
    wholeMember_of_int rfl (by decide) (by decide)
  have hid : jsonStringField (.object ((answerFields access refresh).map fun m =>
      (m.1, m.2.value))) "id_token" false = some none := rfl
  have hlate : now ≤ 2 ^ 63 - 1 - 1 := by omega
  have hafter : now < now + 1 := by omega
  rw [tokenSetParse, hparse, Option.bind_eq_bind, Option.bind_some, hunique, haccess, hrefresh,
    hseconds, hid]
  show (guard (now < if now ≤ 2 ^ 63 - 1 - 1 then now + 1 else 0) : Option Unit).bind _ = _
  rw [if_pos hlate, guard, if_pos hafter]
  rfl

/-- The size of an answer with two tokens. -/
theorem length_answer (access refresh : TokenText) :
    (answer access refresh).length = 53 + escapedLength access + escapedLength refresh := by
  have haccess : (quoted (ascii "access_token")).length = 14 := by decide
  have hrefresh : (quoted (ascii "refresh_token")).length = 15 := by decide
  have hseconds : (44 :: memberText latinNumber (ascii "expires_in", .number 1)).length = 15 := by
    decide
  show (123 :: (memberText latinNumber (ascii "access_token", .string access.bytes) ++
    (44 :: memberText latinNumber (ascii "refresh_token", .string refresh.bytes) ++
      (44 :: memberText latinNumber (ascii "expires_in", .number 1) ++ []) ++ [125]))).length = _
  rw [List.length_cons, List.length_append, List.length_append, List.length_append,
    List.length_append, List.length_cons, length_memberText, length_memberText,
    length_text_string, length_text_string, haccess, hrefresh, hseconds, List.length_nil,
    List.length_singleton]
  omega

theorem escapedLength_quotes (n : Nat) (h : 0 < n ∧ n ≤ valueMax) :
    escapedLength (quotes n h) = 2 * n := by
  show (List.replicate n (34 : UInt8)).length + (List.replicate n 34).countP _ = _
  rw [List.length_replicate, List.countP_replicate, if_pos (by decide)]
  omega

/-- Credentials of short tokens are read again. -/
theorem reloads_iff_short : storedCredentialsParse latinJson (credentialsJson latinJson
      ⟨quotes 1 (by decide), quotes 1 (by decide), none, none, 1700000000 + 1⟩) =
        some ⟨quotes 1 (by decide), quotes 1 (by decide), none, none, 1700000000 + 1⟩ ↔
      storedSize latinJson (answer (quotes 1 (by decide)) (quotes 1 (by decide))) none none none
        1700000000 ≤ responseMax :=
  reloads_iff (tokenSetParse_answer (by rw [length_answer, escapedLength_quotes]; decide)
    (by decide)) (by decide) (by decide)

/-- An answer that is just not too long. -/
theorem not_reloads_of_escapedLength {access refresh : TokenText}
    (h : escapedLength access + escapedLength refresh = 1048522) :
    tokenSetParse latinJson (answer access refresh) none none none 1700000000 =
      some ⟨access, refresh, none, none, 1700000000 + 1⟩ ∧
    storedCredentialsParse latinJson (credentialsJson latinJson
      ⟨access, refresh, none, none, 1700000000 + 1⟩) = none := by
  have hmax : responseMax = 1048576 := rfl
  refine ⟨tokenSetParse_answer ?_ (by decide), ?_⟩
  · rw [length_answer, hmax]
    omega
  · have hnumber : (latinJson.numberText (1700000000 + 1)).length = 10 := by decide +kernel
    have hlength := @length_credentialsJson latinJson
      ⟨access, refresh, none, none, 1700000000 + 1⟩
      (show (0 : Int) ≤ 1700000000 + 1 by decide) (show (1700000000 + 1 : Int) ≤ 2 ^ 53 by decide)
    have hlong : responseMax < (credentialsJson latinJson
        ⟨access, refresh, none, none, 1700000000 + 1⟩).length := by
      rw [hlength, hnumber, hmax]
      dsimp only
      omega
    rw [storedCredentialsParse, exactJsonObject, if_pos hlong]
    rfl

/-- Two long tokens. -/
theorem not_reloads_quotes :
    tokenSetParse latinJson (answer (quotes 262144 (by decide)) (quotes 262117 (by decide)))
        none none none 1700000000 =
      some ⟨quotes 262144 (by decide), quotes 262117 (by decide), none, none, 1700000000 + 1⟩ ∧
    storedCredentialsParse latinJson (credentialsJson latinJson
      ⟨quotes 262144 (by decide), quotes 262117 (by decide), none, none, 1700000000 + 1⟩) =
        none := by
  refine not_reloads_of_escapedLength ?_
  rw [escapedLength_quotes, escapedLength_quotes]

end Latin

end EchoAi.OauthVault
