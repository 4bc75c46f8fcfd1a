import EchoAi.Bytes
import EchoAi.Ctype
import EchoAi.Splitting
import EchoAi.Server.HttpParse

/-!
# The token gates

* `middlewareHasValidToken`, `middlewareHasValidWsToken`, `middlewareCheckUnlockQuery`: the gates.
* `firstHeader`, `WsHolds`, `QueryHolds`: who holds the token.
* `hasValidToken_iff`, `hasValidWsToken_iff`: the gates of the headers let in just those.
* `gates_iff`: the gate of the query does unless the first `token=` of the query is not the one.

Texts are the bytes of C strings.  No argument is absent.
-/

namespace EchoAi.Middleware

/-! ## The gates -/

/-- `token_equals`; `CRYPTO_memcmp` compares all bytes. -/
def tokenEquals (a token : List UInt8) : Bool := a.length == token.length && a == token

/-- A line without the carriage return before its newline. -/
def chomp (line : List UInt8) : List UInt8 :=
  if line.getLast? = some 13 then line.dropLast else line

/-- The value of a line, if it has the name. -/
def lineValue (name line : List UInt8) : Option (List UInt8) :=
  let line := chomp line
  if 58 ∈ line ∧ (line.takeWhile (· ≠ 58)).length = name.length ∧ startsIgnoringCase line name then
    some (strip isBlankOrTab ((line.dropWhile (· ≠ 58)).drop 1))
  else none

/-- The loop of `header_value`, behind the bytes of a line. -/
def headerScan (name : List UInt8) : (line headers : List UInt8) → Option (List UInt8)
  | line, [] => lineValue name line
  | line, c :: rest =>
    if c = 10 then
      match lineValue name line with
      | some value => some value
      | none => headerScan name [] rest
    else headerScan name (line ++ [c]) rest

/-- `header_value` -/
def headerValue (headers name : List UInt8) : Option (List UInt8) := headerScan name [] headers

/-- `middleware_has_valid_token` -/
def middlewareHasValidToken (headers token : List UInt8) : Bool :=
  match headerValue headers (ascii "X-Unlock-Token") with
  | none => false
  | some value => tokenEquals value token

/-- The prefix of the subprotocol that has the token. -/
def wsPrefix : List UInt8 := ascii "echo-ai-token-"

/-- An item of the subprotocols is the one with the token. -/
def wsItem (item token : List UInt8) : Bool :=
  wsPrefix.isPrefixOf item && tokenEquals (item.drop wsPrefix.length) token

/-- What separates the items. -/
def isSeparator (c : UInt8) : Bool := isBlankOrTab c || c = 44

/-- The next item is shorter than what there is. -/
theorem length_next_lt {value : List UInt8} (h : value ≠ []) :
    ((value.dropWhile isSeparator).dropWhile (· ≠ 44)).length < value.length := by
  obtain ⟨c, rest, rfl⟩ := List.exists_cons_of_ne_nil h
  refine Nat.lt_succ_of_le ?_
  cases hc : isSeparator c with
  | true =>
    rw [List.dropWhile_cons_of_pos hc]
    exact Nat.le_trans (length_dropWhile_le _ _) (length_dropWhile_le _ _)
  | false =>
    have hcomma : c ≠ 44 := by
      rintro rfl
      exact Bool.noConfusion hc
    rw [List.dropWhile_cons_of_neg (by simp [hc]), List.dropWhile_cons_of_pos (by simp [hcomma])]
    exact length_dropWhile_le _ _

/-- The loop of `middleware_has_valid_ws_token`. -/
def wsScan (token value : List UInt8) : Bool :=
  if _ : value = [] then false
  else
    let item := value.dropWhile isSeparator
    let text := (item.takeWhile (· ≠ 44)).rdropWhile isBlankOrTab
    if wsItem text token then true else wsScan token (item.dropWhile (· ≠ 44))
termination_by value.length
decreasing_by exact length_next_lt ‹_›

/-- `middleware_has_valid_ws_token` -/
def middlewareHasValidWsToken (headers token : List UInt8) : Bool :=
  match headerValue headers (ascii "Sec-WebSocket-Protocol") with
  | none => false
  | some value => wsScan token value

/-- `ServerState` -/
inductive ServerState where
  | locked
  | setup
  | unlocked
  deriving DecidableEq, Repr

/-- What the gates read of the `ServerContext`. -/
structure ServerContext where
  state : ServerState
  unlockToken : Option (List UInt8)
  deriving DecidableEq, Repr

/-- `"token="` -/
def tokenEq : List UInt8 := ascii "token="

/-- `middleware_check_unlock_query` -/
def middlewareCheckUnlockQuery (ctx : ServerContext) (query : List UInt8) : Bool :=
  match ctx.unlockToken with
  | none => false
  | some token =>
    if ctx.state ≠ .unlocked then false
    else if token = ascii "noop" then true
    else if query = [] then false
    else
      match firstInfix tokenEq query with
      | none => false
      | some i =>
        let value := (query.drop (i + tokenEq.length)).takeWhile (· ≠ 38)
        if value = [] then false else tokenEquals value token

/-! ## Who holds the token -/

/-- The value of the first header with a name, in any case, without the blanks around it. -/
def firstHeader (headers name : List UInt8) : Option (List UInt8) :=
  (((headers.splitOn 10).map chomp).find? fun line =>
    58 ∈ line ∧ sameIgnoringCase (line.takeWhile (· ≠ 58)) name).map fun line =>
      strip isBlankOrTab ((line.dropWhile (· ≠ 58)).drop 1)

/-- An item of the first list of subprotocols is the prefix with the token. -/
def WsHolds (headers token : List UInt8) : Prop :=
  ∃ value, firstHeader headers (ascii "Sec-WebSocket-Protocol") = some value ∧
    ∃ item ∈ value.splitOn 44, strip isBlankOrTab item = wsPrefix ++ token

/-- The first parameter named `token` has the token as its value. -/
def QueryHolds (query token : List UInt8) : Prop :=
  ((query.splitOn 38).find? fun param => param.takeWhile (· ≠ 61) = ascii "token") =
    some (tokenEq ++ token)

instance (query token : List UInt8) : Decidable (QueryHolds query token) :=
  inferInstanceAs (Decidable (_ = _))

/-- The first `token=` of some parameters stands in one of them, in front of a text that ends there. -/
def StandsFirst (params : List (List UInt8)) (text : List UInt8) : Prop :=
  ∃ before param after front, params = before ++ param :: after ∧
    (∀ p ∈ before, ¬tokenEq <:+: p) ∧ param = front ++ tokenEq ++ text ∧
    ¬tokenEq <:+: front ++ tokenEq.dropLast

/-- The token stands behind the first `token=`, and is not what the first parameter named `token`
has. -/
def Intrudes (query token : List UInt8) : Prop :=
  StandsFirst (query.splitOn 38) token ∧ ¬QueryHolds query token

/-- The first parameter named `token` has the token, and another text stands behind the first
`token=`. -/
def ShutsOut (query token : List UInt8) : Prop :=
  QueryHolds query token ∧ ∃ text ≠ token, StandsFirst (query.splitOn 38) text

/-- The first parameter with `token=` in it is the first one named `token`. -/
def Leading (query : List UInt8) : Prop :=
  ((query.splitOn 38).find? fun param => tokenEq <:+: param) =
    (query.splitOn 38).find? fun param => param.takeWhile (· ≠ 61) = ascii "token"

/-! ## The headers -/

section Headers

variable {headers name line : List UInt8}

theorem startsIgnoringCase_iff (h : (line.takeWhile (· ≠ 58)).length = name.length) :
    startsIgnoringCase line name = sameIgnoringCase (line.takeWhile (· ≠ 58)) name := by
  rw [Bool.eq_iff_iff, startsIgnoringCase, sameIgnoringCase, List.isPrefixOf_iff_prefix, beq_iff_eq]
  have hprefix : (line.takeWhile (· ≠ 58)).map toLower <+: line.map toLower :=
    (List.takeWhile_prefix _).map toLower
  constructor
  · intro hname
    refine (List.prefix_of_prefix_length_le hname hprefix ?_).eq_of_length ?_ |>.symm
    · rw [List.length_map, List.length_map, h]
    · rw [List.length_map, List.length_map, h]
  · intro heq
    rw [← heq]
    exact hprefix

theorem lineValue_eq (name line : List UInt8) : lineValue name line =
    if 58 ∈ chomp line ∧ sameIgnoringCase ((chomp line).takeWhile (· ≠ 58)) name then
      some (strip isBlankOrTab (((chomp line).dropWhile (· ≠ 58)).drop 1))
    else none := by
  rw [lineValue]
  refine if_congr (and_congr_right fun _ => ?_) rfl rfl
  constructor
  · rintro ⟨hlength, hname⟩
    rwa [startsIgnoringCase_iff hlength] at hname
  · intro hname
    have hlength : ((chomp line).takeWhile (· ≠ 58)).length = name.length := by
      have hmap := congrArg List.length (beq_iff_eq.1 hname)
      rwa [List.length_map, List.length_map] at hmap
    exact ⟨hlength, (startsIgnoringCase_iff hlength).trans hname⟩

/-- The loop finds the first line with the name. -/
theorem headerScan_eq (headers : List UInt8) {line : List UInt8} (hline : 10 ∉ line) :
    headerScan name line headers = ((line ++ headers).splitOn 10).findSome? (lineValue name) := by
  induction headers generalizing line with
  | nil =>
    rw [headerScan, List.append_nil, List.splitOn_eq_singleton hline, List.findSome?_singleton]
  | cons c rest ih =>
    rw [headerScan]
    split
    · next hnewline =>
      subst hnewline
      rw [List.splitOn_append_cons_self_of_not_mem hline, List.findSome?_cons, ih List.not_mem_nil,
        List.nil_append]
      cases lineValue name line <;> rfl
    · next hnewline =>
      have hmore : 10 ∉ line ++ [c] := by
        rw [List.mem_append, List.mem_singleton, not_or]
        exact ⟨hline, fun heq => hnewline heq.symm⟩
      rw [ih hmore, List.append_assoc, List.singleton_append]

/-- The code's header is the first one. -/
theorem headerValue_eq (headers name : List UInt8) :
    headerValue headers name = firstHeader headers name := by
  rw [headerValue, headerScan_eq headers List.not_mem_nil, List.nil_append, firstHeader]
  induction headers.splitOn 10 with
  | nil => rfl
  | cons line lines ih =>
    rw [List.findSome?_cons, lineValue_eq, List.map_cons, ih]
    by_cases hname : 58 ∈ chomp line ∧ sameIgnoringCase ((chomp line).takeWhile (· ≠ 58)) name
    · rw [if_pos hname, List.find?_cons, decide_eq_true hname]
      rfl
    · rw [if_neg hname, List.find?_cons, decide_eq_false hname]

theorem tokenEquals_iff {a token : List UInt8} : tokenEquals a token = true ↔ a = token := by
  rw [tokenEquals, Bool.and_eq_true, beq_iff_eq, beq_iff_eq]
  exact and_iff_right_of_imp fun h => congrArg List.length h

/-- The gate of the header. -/
theorem hasValidToken_iff (headers token : List UInt8) :
    middlewareHasValidToken headers token = true ↔
      firstHeader headers (ascii "X-Unlock-Token") = some token := by
  rw [middlewareHasValidToken, headerValue_eq]
  cases firstHeader headers (ascii "X-Unlock-Token") with
  | none => exact iff_of_false nofun nofun
  | some value => exact tokenEquals_iff.trans Option.some_inj.symm

end Headers

/-! ## The items of the subprotocol -/

section Items

variable {token value : List UInt8}

theorem wsItem_iff {item : List UInt8} : wsItem item token = true ↔ item = wsPrefix ++ token := by
  rw [wsItem, Bool.and_eq_true, List.isPrefixOf_iff_prefix, tokenEquals_iff]
  constructor
  · rintro ⟨⟨rest, rfl⟩, hrest⟩
    rw [List.drop_left] at hrest
    rw [hrest]
  · rintro rfl
    exact ⟨List.prefix_append _ _, List.drop_left⟩

/-- An item of a list, without the blanks around it. -/
def HasItem (target value : List UInt8) : Prop :=
  ∃ item ∈ value.splitOn 44, strip isBlankOrTab item = target

variable {target : List UInt8}

theorem hasItem_nil (htarget : target ≠ []) : ¬HasItem target [] := by
  rintro ⟨item, hitem, hstrip⟩
  rw [List.splitOn_nil, List.mem_singleton] at hitem
  rw [hitem] at hstrip
  exact htarget hstrip.symm

theorem hasItem_cut {text : List UInt8} (htext : 44 ∉ text) (rest : List UInt8) :
    HasItem target (text ++ 44 :: rest) ↔ strip isBlankOrTab text = target ∨ HasItem target rest := by
  rw [HasItem, List.splitOn_append_cons_self_of_not_mem htext, List.exists_mem_cons_iff]
  rfl

/-- A separator in front makes no difference. -/
theorem hasItem_cons (htarget : target ≠ []) {c : UInt8} (hc : isSeparator c = true)
    (value : List UInt8) : HasItem target (c :: value) ↔ HasItem target value := by
  rw [isSeparator, Bool.or_eq_true] at hc
  rcases hc with hblank | hcomma
  · have hcomma : c ≠ 44 := by
      rintro rfl
      exact Bool.noConfusion hblank
    have hstrip : ∀ item, strip isBlankOrTab (c :: item) = strip isBlankOrTab item := fun item => by
      rw [strip, List.dropWhile_cons_of_pos hblank, ← strip]
    obtain ⟨first, rest, hsplit⟩ := List.exists_cons_of_ne_nil (List.splitOn_ne_nil 44 value)
    rw [HasItem, HasItem, List.splitOn_cons_eq_if_modifyHead, if_neg (by simpa using hcomma), hsplit,
      List.modifyHead_cons, List.exists_mem_cons_iff, List.exists_mem_cons_iff, hstrip]
  · obtain rfl : c = 44 := of_decide_eq_true hcomma
    refine (@hasItem_cut target [] List.not_mem_nil value).trans (or_iff_right fun hnil => ?_)
    exact htarget hnil.symm

theorem hasItem_dropWhile (htarget : target ≠ []) (value : List UInt8) :
    HasItem target (value.dropWhile isSeparator) ↔ HasItem target value := by
  induction value with
  | nil => rfl
  | cons c value ih =>
    cases hc : isSeparator c with
    | true => rw [List.dropWhile_cons_of_pos hc, ih, hasItem_cons htarget hc]
    | false => rw [List.dropWhile_cons_of_neg (by simp [hc])]

/-- An item without blanks in front is the first one, or a later one. -/
theorem hasItem_takeWhile (htarget : target ≠ []) (value : List UInt8) :
    HasItem target value ↔ strip isBlankOrTab (value.takeWhile (· ≠ 44)) = target ∨
      HasItem target (value.dropWhile (· ≠ 44)) := by
  have htext : 44 ∉ value.takeWhile (· ≠ 44) := fun hmem => by
    have hne := List.mem_takeWhile_imp hmem
    simp at hne
  have hvalue := List.takeWhile_append_dropWhile (p := fun c : UInt8 => decide (c ≠ 44)) (l := value)
  cases hrest : value.dropWhile (· ≠ 44) with
  | nil =>
    rw [hrest, List.append_nil] at hvalue
    rw [or_iff_left (hasItem_nil htarget), hvalue, HasItem, List.splitOn_eq_singleton (hvalue ▸ htext)]
    exact ⟨fun ⟨item, hitem, h⟩ => List.mem_singleton.1 hitem ▸ h,
      fun h => ⟨value, List.mem_singleton_self value, h⟩⟩
  | cons c rest =>
    have hcomma : c = 44 := by
      have hc := eq_false_of_dropWhile_eq_cons hrest
      simpa using hc
    rw [hrest, hcomma] at hvalue
    rw [← hvalue, hcomma, hasItem_cut htext, hvalue]
    exact or_congr_right (hasItem_cons htarget rfl rest).symm

/-- Behind the separators there are no blanks in front of an item. -/
theorem strip_takeWhile_dropWhile (value : List UInt8) :
    strip isBlankOrTab ((value.dropWhile isSeparator).takeWhile (· ≠ 44)) =
      ((value.dropWhile isSeparator).takeWhile (· ≠ 44)).rdropWhile isBlankOrTab := by
  rw [strip]
  cases hitem : value.dropWhile isSeparator with
  | nil => rfl
  | cons c rest =>
    have hc := eq_false_of_dropWhile_eq_cons hitem
    rw [isSeparator, Bool.or_eq_false_iff, decide_eq_false_iff_not] at hc
    rw [List.takeWhile_cons_of_pos (by simp [hc.2]), List.dropWhile_cons_of_neg (by simp [hc.1])]

/-- The loop finds the item, if it is there. -/
theorem wsScan_iff (token value : List UInt8) :
    wsScan token value = true ↔ HasItem (wsPrefix ++ token) value := by
  have htarget : wsPrefix ++ token ≠ [] := fun h => absurd (List.append_eq_nil_iff.1 h).1 (by decide)
  have hcut : ∀ value, HasItem (wsPrefix ++ token) value ↔
      ((value.dropWhile isSeparator).takeWhile (· ≠ 44)).rdropWhile isBlankOrTab = wsPrefix ++ token ∨
        HasItem (wsPrefix ++ token) ((value.dropWhile isSeparator).dropWhile (· ≠ 44)) := fun value => by
    rw [← hasItem_dropWhile htarget value, hasItem_takeWhile htarget, strip_takeWhile_dropWhile]
  fun_induction wsScan token value with
  | case1 => exact iff_of_false nofun (hasItem_nil htarget)
  | case2 value hne item text hitem =>
    rw [hcut value]
    exact iff_of_true rfl (Or.inl (wsItem_iff.1 hitem))
  | case3 value hne item text hitem ih =>
    refine ih.trans ?_
    rw [hcut value]
    exact (or_iff_right fun heq => hitem (wsItem_iff.2 heq)).symm

/-- The gate of the subprotocol. -/
theorem hasValidWsToken_iff (headers token : List UInt8) :
    middlewareHasValidWsToken headers token = true ↔ WsHolds headers token := by
  rw [middlewareHasValidWsToken, headerValue_eq, WsHolds]
  cases firstHeader headers (ascii "Sec-WebSocket-Protocol") with
  | none => exact iff_of_false nofun fun ⟨_, h, _⟩ => absurd h nofun
  | some value =>
    refine (wsScan_iff token value).trans ⟨fun h => ⟨value, rfl, h⟩, ?_⟩
    rintro ⟨_, hvalue, h⟩
    rwa [← Option.some.inj hvalue] at h

end Items

/-! ## The query -/

section Query

variable {query text token : List UInt8}

/-- What the gate compares. -/
def behindToken (query : List UInt8) : Option (List UInt8) :=
  (firstInfix tokenEq query).map fun i => (query.drop (i + tokenEq.length)).takeWhile (· ≠ 38)

theorem tokenEq_ne_nil : tokenEq ≠ [] := by decide

/-- In a parameter. -/
theorem firstInfix_tokenEq_iff {param : List UInt8} {i : Nat} :
    (firstInfix tokenEq param = some i ∧ param.drop (i + tokenEq.length) = text) ↔
      ∃ front, param = front ++ tokenEq ++ text ∧ front.length = i ∧
        ¬tokenEq <:+: front ++ tokenEq.dropLast := by
  rw [firstInfix_eq_some_iff tokenEq_ne_nil]
  constructor
  · rintro ⟨⟨front, rest, rfl, rfl, hfirst⟩, htext⟩
    rw [← List.length_append, List.drop_left] at htext
    exact ⟨front, by rw [htext], rfl, hfirst⟩
  · rintro ⟨front, rfl, rfl, hfirst⟩
    refine ⟨⟨front, text, rfl, rfl, hfirst⟩, ?_⟩
    rw [← List.length_append, List.drop_left]

theorem standsFirst_cons_of_mem {param : List UInt8} (h : tokenEq <:+: param)
    (params : List (List UInt8)) : StandsFirst (param :: params) text ↔
      ∃ front, param = front ++ tokenEq ++ text ∧ ¬tokenEq <:+: front ++ tokenEq.dropLast := by
  constructor
  · rintro ⟨before, p, after, front, hsplit, hbefore, hp, hstand⟩
    cases before with
    | nil =>
      rw [(List.cons.inj hsplit).1]
      exact ⟨front, hp, hstand⟩
    | cons b before =>
      refine absurd ?_ (hbefore b List.mem_cons_self)
      rwa [← (List.cons.inj hsplit).1]
  · rintro ⟨front, hp, hstand⟩
    exact ⟨[], param, params, front, rfl, nofun, hp, hstand⟩

theorem standsFirst_cons_of_notMem {param : List UInt8} (h : ¬tokenEq <:+: param)
    (params : List (List UInt8)) : StandsFirst (param :: params) text ↔ StandsFirst params text := by
  constructor
  · rintro ⟨before, p, after, front, hsplit, hbefore, hp, hstand⟩
    cases before with
    | nil =>
      refine absurd ⟨front, text, ?_⟩ h
      rw [(List.cons.inj hsplit).1, hp]
    | cons b before =>
      exact ⟨before, p, after, front, (List.cons.inj hsplit).2,
        fun q hq => hbefore q (List.mem_cons_of_mem b hq), hp, hstand⟩
  · rintro ⟨before, p, after, front, rfl, hbefore, hp, hstand⟩
    refine ⟨param :: before, p, after, front, rfl, fun q hq => ?_, hp, hstand⟩
    rcases List.mem_cons.1 hq with rfl | hq
    · exact h
    · exact hbefore q hq

/-- In the parameter that has it, the gate finds what stands behind the first `token=`. -/
theorem behindToken_of_mem {param rest : List UInt8} (hparam : 38 ∉ param)
    (h : tokenEq <:+: param) (hrest : rest = [] ∨ ∃ more, rest = 38 :: more) :
    behindToken (param ++ rest) = some text ↔
      ∃ front, param = front ++ tokenEq ++ text ∧ ¬tokenEq <:+: front ++ tokenEq.dropLast := by
  obtain ⟨i, hi⟩ := exists_firstInfix_iff.2 h
  have hle := firstInfix_le hi
  have hnot : 38 ∉ param.drop (i + tokenEq.length) := fun hmem => hparam (List.mem_of_mem_drop hmem)
  have hvalue : ((param ++ rest).drop (i + tokenEq.length)).takeWhile (· ≠ 38) =
      param.drop (i + tokenEq.length) := by
    rw [List.drop_append_of_le_length hle]
    rcases hrest with rfl | ⟨more, rfl⟩
    · rw [List.append_nil, takeWhile_ne_of_notMem hnot]
    · exact takeWhile_ne_append_cons hnot more
  rw [behindToken, firstInfix_of_isPrefix (List.prefix_append param rest) hi, Option.map_some,
    Option.some_inj, hvalue]
  constructor
  · intro htext
    obtain ⟨front, hp, -, hstand⟩ := firstInfix_tokenEq_iff.1 ⟨hi, htext⟩
    exact ⟨front, hp, hstand⟩
  · rintro ⟨front, hp, hstand⟩
    obtain ⟨hfirst, htext⟩ := firstInfix_tokenEq_iff.2 ⟨front, hp, rfl, hstand⟩
    rw [hi] at hfirst
    rwa [Option.some.inj hfirst]

/-- The gate finds what stands behind the first `token=`. -/
theorem behindToken_iff (query text : List UInt8) :
    behindToken query = some text ↔ StandsFirst (query.splitOn 38) text := by
  induction query using splitOn_induction (38 : UInt8) with
  | last param hparam =>
    rw [List.splitOn_eq_singleton hparam]
    by_cases h : tokenEq <:+: param
    · rw [standsFirst_cons_of_mem h, ← behindToken_of_mem hparam h (Or.inl rfl), List.append_nil]
    · have hnone : firstInfix tokenEq param = none := by
        by_contra hsome
        exact h (exists_firstInfix_iff.1 (Option.ne_none_iff_exists'.1 hsome))
      rw [standsFirst_cons_of_notMem h, behindToken, hnone]
      refine iff_of_false nofun ?_
      rintro ⟨before, p, after, front, hsplit, -⟩
      exact absurd hsplit (by simp)
  | cut param rest hparam ih =>
    rw [List.splitOn_append_cons_self_of_not_mem hparam]
    by_cases h : tokenEq <:+: param
    · rw [standsFirst_cons_of_mem h, ← behindToken_of_mem hparam h (Or.inr ⟨rest, rfl⟩)]
    · rw [standsFirst_cons_of_notMem h, ← ih, behindToken, behindToken,
        firstInfix_append_cons tokenEq_ne_nil (by decide) h, Option.map_map]
      have hdrop : ∀ i, (param ++ 38 :: rest).drop (i + (param.length + 1) + tokenEq.length) =
          rest.drop (i + tokenEq.length) := fun i => by
        rw [show i + (param.length + 1) + tokenEq.length =
          param.length + ((i + tokenEq.length) + 1) by omega, ← List.drop_drop, List.drop_left,
          List.drop_succ_cons]
      simp only [Function.comp_def, hdrop]

/-- The gate of the query lets in who stands behind the first `token=`, or everyone. -/
theorem checkUnlockQuery_iff (query : List UInt8) (htoken : token ≠ []) :
    middlewareCheckUnlockQuery { state := .unlocked, unlockToken := some token } query = true ↔
      token = ascii "noop" ∨ StandsFirst (query.splitOn 38) token := by
  rw [← behindToken_iff, middlewareCheckUnlockQuery, behindToken]
  dsimp only
  rw [if_neg (not_not_intro rfl)]
  split
  · next hnoop => exact iff_of_true rfl (Or.inl hnoop)
  · next hnoop =>
    rw [or_iff_right hnoop]
    split
    · next hquery =>
      subst hquery
      exact iff_of_false Bool.false_ne_true (Option.some_ne_none token).symm
    · cases firstInfix tokenEq query with
      | none => exact iff_of_false Bool.false_ne_true (Option.some_ne_none token).symm
      | some i =>
        rw [Option.map_some, Option.some_inj]
        dsimp only
        split
        · next hempty =>
          rw [hempty]
          exact iff_of_false Bool.false_ne_true fun h => htoken h.symm
        · exact tokenEquals_iff

theorem standsFirst_unique {params : List (List UInt8)} {text' : List UInt8}
    (h : StandsFirst params text) (h' : StandsFirst params text') : text = text' := by
  induction params with
  | nil =>
    obtain ⟨before, p, after, front, hsplit, -⟩ := h
    exact absurd hsplit (by simp)
  | cons param params ih =>
    by_cases hparam : tokenEq <:+: param
    · rw [standsFirst_cons_of_mem hparam] at h h'
      obtain ⟨front, hp, hstand⟩ := h
      obtain ⟨front', hp', hstand'⟩ := h'
      obtain ⟨hfirst, rfl⟩ := firstInfix_tokenEq_iff.2 ⟨front, hp, rfl, hstand⟩
      obtain ⟨hfirst', rfl⟩ := firstInfix_tokenEq_iff.2 ⟨front', hp', rfl, hstand'⟩
      rw [hfirst] at hfirst'
      rw [Option.some.inj hfirst']
    · rw [standsFirst_cons_of_notMem hparam] at h h'
      exact ih h h'

/-- The parameter of the holder has `token=` in it. -/
theorem exists_standsFirst {params : List (List UInt8)} (h : ∃ param ∈ params, tokenEq <:+: param) :
    ∃ text, StandsFirst params text := by
  induction params with
  | nil =>
    obtain ⟨param, hparam, -⟩ := h
    exact absurd hparam nofun
  | cons param params ih =>
    by_cases hparam : tokenEq <:+: param
    · obtain ⟨i, hi⟩ := exists_firstInfix_iff.2 hparam
      obtain ⟨front, hp, -, hstand⟩ := firstInfix_tokenEq_iff.1 ⟨hi, rfl⟩
      exact ⟨_, (standsFirst_cons_of_mem hparam params).2 ⟨front, hp, hstand⟩⟩
    · obtain ⟨p, hp, hin⟩ := h
      rcases List.mem_cons.1 hp with rfl | hp
      · exact absurd hin hparam
      · obtain ⟨text, htext⟩ := ih ⟨p, hp, hin⟩
        exact ⟨text, (standsFirst_cons_of_notMem hparam params).2 htext⟩

/-- The two ways in which the gate is wrong. -/
theorem standsFirst_iff_holds : (StandsFirst (query.splitOn 38) token ↔ QueryHolds query token) ↔
    ¬Intrudes query token ∧ ¬ShutsOut query token := by
  constructor
  · intro h
    refine ⟨fun hin => hin.2 (h.1 hin.1), fun hout => ?_⟩
    obtain ⟨hholds, text, hne, hstands⟩ := hout
    exact hne (standsFirst_unique hstands (h.2 hholds))
  · rintro ⟨hin, hout⟩
    constructor
    · intro hstands
      by_contra hholds
      exact hin ⟨hstands, hholds⟩
    · intro hholds
      obtain ⟨text, htext⟩ := @exists_standsFirst (query.splitOn 38)
        ⟨_, List.mem_of_find?_eq_some hholds, (List.prefix_append tokenEq token).isInfix⟩
      by_contra hstands
      exact hout ⟨hholds, text, fun heq => hstands (heq ▸ htext), htext⟩

theorem find?_of_standsFirst {params : List (List UInt8)} (h : StandsFirst params text) :
    ∃ front, (params.find? fun param => tokenEq <:+: param) = some (front ++ tokenEq ++ text) ∧
      ¬tokenEq <:+: front ++ tokenEq.dropLast := by
  obtain ⟨before, param, after, front, rfl, hbefore, rfl, hstand⟩ := h
  refine ⟨front, ?_, hstand⟩
  have hin : tokenEq <:+: front ++ tokenEq ++ text := ⟨front, text, rfl⟩
  rw [List.find?_append, List.find?_eq_none.2 fun p hp => by simpa using hbefore p hp,
    Option.none_or, List.find?_cons, decide_eq_true hin]

/-- A parameter named `token` that has a value begins with `token=`. -/
theorem prefix_of_name {param : List UInt8} (hvalue : 61 ∈ param)
    (hname : param.takeWhile (· ≠ 61) = ascii "token") : tokenEq <+: param := by
  have hparam := List.takeWhile_append_dropWhile (p := fun c : UInt8 => decide (c ≠ 61)) (l := param)
  cases hrest : param.dropWhile (· ≠ 61) with
  | nil =>
    rw [hrest, List.append_nil] at hparam
    rw [← hparam] at hvalue
    have hne := List.mem_takeWhile_imp hvalue
    simp at hne
  | cons c rest =>
    have hc : c = 61 := by
      have hc := eq_false_of_dropWhile_eq_cons hrest
      simpa using hc
    rw [hrest, hc, hname] at hparam
    exact ⟨rest, hparam⟩

/-- Where the first `token=` is the one of the parameter named `token`, no one intrudes and no one is
shut out. -/
theorem holds_of_leading (h : Leading query) : ¬Intrudes query token ∧ ¬ShutsOut query token := by
  have hparam : ∀ text, StandsFirst (query.splitOn 38) text → QueryHolds query text := by
    intro text hstands
    obtain ⟨front, hfind, hstand⟩ := find?_of_standsFirst hstands
    rw [h] at hfind
    have hname : (front ++ tokenEq ++ text).takeWhile (· ≠ 61) = ascii "token" := by
      simpa using List.find?_some hfind
    have hlead := prefix_of_name (List.mem_append_left text (List.mem_append_right front
      (show (61 : UInt8) ∈ tokenEq by decide))) hname
    cases front with
    | nil => exact hfind
    | cons c front =>
      -- a parameter with the name begins with what should stand behind its first byte
      refine absurd (List.IsPrefix.isInfix ?_) hstand
      refine @List.prefix_of_prefix_length_le _ _ ((c :: front) ++ tokenEq.dropLast) _ hlead ?_ ?_
      · rw [List.append_assoc]
        exact (List.prefix_append_right_inj _).2
          ((List.dropLast_prefix tokenEq).trans (List.prefix_append tokenEq text))
      · rw [List.length_append, List.length_dropLast, List.length_cons]
        omega
  refine ⟨fun hin => hin.2 (hparam token hin.1), ?_⟩
  rintro ⟨hholds, text, hne, hstands⟩
  have hsame := (hparam text hstands).symm.trans hholds
  exact hne (List.append_cancel_left (Option.some.inj hsame))

end Query

/-! ## The gates together -/

/-- The gates of the headers let in just the holder of the token.  So does the gate of the query,
unless someone intrudes or the holder is shut out; the token `noop` opens it. -/
theorem gates_iff (token : List UInt8) (htoken : token ≠ []) (headers query : List UInt8) :
    (middlewareHasValidToken headers token = true ↔
        firstHeader headers (ascii "X-Unlock-Token") = some token) ∧
      (middlewareHasValidWsToken headers token = true ↔ WsHolds headers token) ∧
      ((middlewareCheckUnlockQuery { state := .unlocked, unlockToken := some token } query = true ↔
          QueryHolds query token) ↔
        if token = ascii "noop" then QueryHolds query token
        else ¬Intrudes query token ∧ ¬ShutsOut query token) := by
  refine ⟨hasValidToken_iff headers token, hasValidWsToken_iff headers token, ?_⟩
  rw [checkUnlockQuery_iff query htoken]
  split
  · next hnoop => exact ⟨fun h => h.1 (Or.inl hnoop), fun h => iff_of_true (Or.inl hnoop) h⟩
  · next hnoop =>
    rw [or_iff_right hnoop]
    exact standsFirst_iff_holds

/-- A page of events with its token. -/
theorem gates_events :
    (middlewareHasValidToken (ascii "x-unlock-token: \tk7 \r\n") (ascii "k7") = true ↔
        firstHeader (ascii "x-unlock-token: \tk7 \r\n") (ascii "X-Unlock-Token") =
          some (ascii "k7")) ∧
      ¬Intrudes (ascii "id=1&token=k7") (ascii "k7") := by
  have hgates := gates_iff (ascii "k7") (by decide)
    (ascii "x-unlock-token: \tk7 \r\n") (ascii "id=1&token=k7")
  have hquery : middlewareCheckUnlockQuery
      { state := .unlocked, unlockToken := some (ascii "k7") } (ascii "id=1&token=k7") = true := by
    decide
  have hholds : QueryHolds (ascii "id=1&token=k7") (ascii "k7") := by
    decide
  exact ⟨hgates.1, (hgates.2.2.1 (iff_of_true hquery hholds)).1⟩

/-- A parameter of another name lets in, and it shuts out. -/
theorem not_gates_otherName :
    (middlewareCheckUnlockQuery { state := .unlocked, unlockToken := some (ascii "k7") }
          (ascii "mytoken=k7") = true ∧ ¬QueryHolds (ascii "mytoken=k7") (ascii "k7")) ∧
      middlewareCheckUnlockQuery { state := .unlocked, unlockToken := some (ascii "k7") }
          (ascii "mytoken=a&token=k7") = false ∧ QueryHolds (ascii "mytoken=a&token=k7") (ascii "k7") := by
  decide

end EchoAi.Middleware
