import EchoAi.Safety.Network

/-!
# The host of a URL

What a URL that the policy accepts looks like.

* `IsAuthority`, `IsHost`: the authority of a URL and the host of an authority, by their places.
* `inetAton`, `LocalNotation`: the spellings of an address, and the hosts that name this machine or a
  private one.
* `LocalQuad`: the spellings among them that the policy knows.
* `accepts_readsHost`: what is accepted is a URL whose host is allowed, and not known as local.
-/

namespace EchoAi.UrlPolicy

/-! ## Authority and host -/

/-- The authority stands between the scheme and the first of `/`, `?` and `#`. -/
def IsAuthority (url authority : List UInt8) : Prop :=
  ∃ scheme after, url = scheme ++ authority ++ after ∧
    (sameIgnoringCase scheme (ascii "https://") ∨ sameIgnoringCase scheme (ascii "http://")) ∧
    (∀ c ∈ authority, c ≠ 47 ∧ c ≠ 63 ∧ c ≠ 35) ∧ ∀ c ∈ after.head?, c = 47 ∨ c = 63 ∨ c = 35

/-- The host stands in brackets at the front of the authority, or in front of the first colon. -/
def IsHost (authority host : List UInt8) : Prop :=
  (∃ after, authority = 91 :: host ++ 93 :: after ∧ 93 ∉ host) ∨
    authority.head? ≠ some 91 ∧ 58 ∉ host ∧ ∃ port, authority = host ++ port ∧
      ∀ c ∈ port.head?, c = 58

/-- The host is an entry that is not empty, or ends in a dot and such an entry. -/
def AllowedBy (entries : Entries) (host : List UInt8) : Prop :=
  ∃ allowed, some allowed ∈ entries ∧ allowed ≠ [] ∧
    (sameIgnoringCase host allowed ∨
      ∃ front back, host = front ++ 46 :: back ∧ sameIgnoringCase back allowed)

/-- An `http` or `https` URL without user information, whose host is allowed by the list if it has
entries, and is not one of the hosts `shut`. -/
def ReadsHost (cfg : SafetyPolicy) (shut : List UInt8 → Prop) (url : List UInt8) : Prop :=
  ∃ authority host, IsAuthority url authority ∧ 64 ∉ authority ∧ IsHost authority host ∧
    (cfg.lists .allowedDomains ≠ [] → AllowedBy (cfg.lists .allowedDomains) host) ∧ ¬shut host

/-! ## Spellings of an address -/

/-- A digit of a number in C. -/
def digitValue (c : UInt8) : Option Nat :=
  if isDigit c then some (c.toNat - 48)
  else if 97 ≤ c ∧ c ≤ 102 then some (c.toNat - 87)
  else if 65 ≤ c ∧ c ≤ 70 then some (c.toNat - 55)
  else none

/-- The number of some digits. -/
def numberOf (radix : Nat) (digits : List UInt8) : Option Nat :=
  if digits = [] then none
  else digits.foldlM (fun n c => (digitValue c).bind fun d =>
    if d < radix then some (n * radix + d) else none) 0

/-- A part of an address: hexadecimal behind `0x`, octal behind `0`, and decimal otherwise. -/
def partValue : List UInt8 → Option Nat
  | 48 :: c :: digits =>
    if c = 120 ∨ c = 88 then numberOf 16 digits else numberOf 8 (c :: digits)
  | digits => numberOf 10 digits

/-- `inet_aton`, for a text without blanks. -/
def inetAton (text : List UInt8) : Option Nat :=
  match (text.splitOn 46).mapM partValue with
  | some [a] => if a < 2 ^ 32 then some a else none
  | some [a, b] => if a < 256 ∧ b < 2 ^ 24 then some (a * 2 ^ 24 + b) else none
  | some [a, b, c] =>
    if a < 256 ∧ b < 256 ∧ c < 2 ^ 16 then some (a * 2 ^ 24 + b * 2 ^ 16 + c) else none
  | some [a, b, c, d] =>
    if a < 256 ∧ b < 256 ∧ c < 256 ∧ d < 256 then
      some (a * 2 ^ 24 + b * 2 ^ 16 + c * 2 ^ 8 + d)
    else none
  | _ => none

/-- A loopback, private or link-local address by its first two bytes. -/
def IsLocal (a b : Nat) : Prop :=
  a = 127 ∨ a = 10 ∨ (a = 172 ∧ 16 ≤ b ∧ b ≤ 31) ∨ (a = 192 ∧ b = 168) ∨ (a = 169 ∧ b = 254)

/-- The host names this machine or a private one in any notation. -/
def LocalNotation (host : List UInt8) : Prop :=
  (∃ n, inetAton host = some n ∧ IsLocal (n / 2 ^ 24) (n / 2 ^ 16 % 256)) ∨
    sameIgnoringCase host (ascii "localhost") ∨ sameIgnoringCase host (ascii "localhost.")

/-- The number of decimal digits. -/
def decimalValue (digits : List UInt8) : Nat :=
  digits.foldl (fun n c => n * 10 + (c.toNat - 48)) 0

/-- A part of a dotted quad. -/
def IsByte (part : List UInt8) : Prop :=
  part ≠ [] ∧ (∀ c ∈ part, isDigit c = true) ∧ decimalValue part ≤ 255

/-- The host names this machine or a private one, with four decimal numbers or the plain name. -/
def LocalQuad (host : List UInt8) : Prop :=
  (∃ p q r s, host = p ++ 46 :: (q ++ 46 :: (r ++ 46 :: s)) ∧ IsByte p ∧ IsByte q ∧ IsByte r ∧
    IsByte s ∧ IsLocal (decimalValue p) (decimalValue q)) ∨
    sameIgnoringCase host (ascii "localhost")

/-! ## Reading -/

section Reading

variable {url authority host : List UInt8}

theorem exists_scheme {scheme : List UInt8} (h : startsIgnoringCase url scheme = true) :
    sameIgnoringCase (url.take scheme.length) scheme = true := by
  rw [startsIgnoringCase, List.isPrefixOf_iff_prefix, List.prefix_iff_eq_take, List.length_map] at h
  rw [sameIgnoringCase, beq_iff_eq, List.map_take, ← h]

theorem isAuthority_of_rest {scheme : List UInt8} (h : startsIgnoringCase url scheme = true)
    (hscheme : scheme = ascii "https://" ∨ scheme = ascii "http://") :
    IsAuthority url ((url.drop scheme.length).takeWhile fun c => decide (c ≠ 47 ∧ c ≠ 63 ∧ c ≠ 35)) := by
  refine ⟨url.take scheme.length,
    (url.drop scheme.length).dropWhile fun c => decide (c ≠ 47 ∧ c ≠ 63 ∧ c ≠ 35), ?_, ?_, ?_, ?_⟩
  · rw [List.append_assoc, List.takeWhile_append_dropWhile, List.take_append_drop]
  · have hsame := exists_scheme h
    rcases hscheme with rfl | rfl
    · exact Or.inl hsame
    · exact Or.inr hsame
  · intro c hc
    have hall := List.mem_takeWhile_imp hc
    exact of_decide_eq_true hall
  · intro c hc
    have hnot := List.head?_dropWhile_not (fun c : UInt8 => decide (c ≠ 47 ∧ c ≠ 63 ∧ c ≠ 35))
      (url.drop scheme.length)
    rw [Option.mem_def.1 hc] at hnot
    simp only [decide_eq_false_iff_not, not_and_or, not_not] at hnot
    exact hnot

theorem isAuthority_of_urlAuthority (h : urlAuthority url = some authority) :
    IsAuthority url authority := by
  rw [urlAuthority] at h
  obtain ⟨text, htext, rfl⟩ := Option.map_eq_some_iff.1 h
  split at htext
  · next hhttps =>
    obtain rfl := Option.some.inj htext
    exact isAuthority_of_rest hhttps (Or.inl rfl)
  · split at htext
    · next hhttp =>
      obtain rfl := Option.some.inj htext
      exact isAuthority_of_rest hhttp (Or.inr rfl)
    · exact absurd htext (by simp)

theorem isHost_of_authorityHost (h : authorityHost authority = some host) : IsHost authority host := by
  unfold authorityHost at h
  split at h
  · next rest =>
    split at h
    · next hclose =>
      obtain rfl := Option.some.inj h
      obtain ⟨front, back, rfl, hfront⟩ := List.eq_append_cons_of_mem hclose
      have htake : (front ++ 93 :: back).takeWhile (fun c => decide (c ≠ 93)) = front := by
        have hall : ∀ c ∈ front, decide (c ≠ 93) = true :=
          fun c hc => decide_eq_true fun heq => hfront (heq ▸ hc)
        rw [List.takeWhile_append_of_pos hall, List.takeWhile_cons_of_neg (by decide),
          List.append_nil]
      rw [htake]
      exact Or.inl ⟨back, rfl, hfront⟩
    · exact absurd h (by simp)
  · next hbracket =>
    obtain rfl := Option.some.inj h
    refine Or.inr ⟨fun hhead => ?_, fun hmem => ?_, authority.dropWhile (fun c => decide (c ≠ 58)),
      List.takeWhile_append_dropWhile.symm, fun c hc => ?_⟩
    · obtain ⟨rest, rfl⟩ := List.head?_eq_some_iff.1 hhead
      exact hbracket rest rfl
    · exact absurd (List.mem_takeWhile_imp hmem) (by decide)
    · have hnot := List.head?_dropWhile_not (fun c : UInt8 => decide (c ≠ 58)) authority
      rw [Option.mem_def.1 hc] at hnot
      simpa using hnot

theorem takeWhile_eq_of {p : UInt8 → Bool} {front back : List UInt8} (hfront : ∀ c ∈ front, p c = true)
    (hback : ∀ c ∈ back.head?, p c = false) : (front ++ back).takeWhile p = front := by
  rw [List.takeWhile_append_of_pos hfront]
  cases back with
  | nil => rw [List.takeWhile_nil, List.append_nil]
  | cons c back =>
    rw [List.takeWhile_cons_of_neg (by rw [hback c rfl]; exact Bool.false_ne_true), List.append_nil]

theorem startsIgnoringCase_append {scheme pre : List UInt8} (h : sameIgnoringCase scheme pre = true)
    (rest : List UInt8) : startsIgnoringCase (scheme ++ rest) pre = true := by
  rw [startsIgnoringCase, List.isPrefixOf_iff_prefix, List.map_append, ← beq_iff_eq.1 h]
  exact List.prefix_append _ _

theorem length_of_sameIgnoringCase {a b : List UInt8} (h : sameIgnoringCase a b = true) :
    a.length = b.length := by
  have hlength := congrArg List.length (beq_iff_eq.1 h)
  rwa [List.length_map, List.length_map] at hlength

/-- A URL has one authority. -/
theorem IsAuthority.urlAuthority_eq (h : IsAuthority url authority) :
    urlAuthority url = some authority := by
  obtain ⟨scheme, after, rfl, hscheme, hauthority, hafter⟩ := h
  have htake : (authority ++ after).takeWhile (fun c => decide (c ≠ 47 ∧ c ≠ 63 ∧ c ≠ 35)) =
      authority := by
    refine takeWhile_eq_of (fun c hc => decide_eq_true (hauthority c hc)) fun c hc => ?_
    refine decide_eq_false fun hnot => ?_
    rcases hafter c hc with rfl | rfl | rfl
    · exact hnot.1 rfl
    · exact hnot.2.1 rfl
    · exact hnot.2.2 rfl
  rw [List.append_assoc, urlAuthority]
  rcases hscheme with hsame | hsame
  · have hlength : scheme.length = 8 := length_of_sameIgnoringCase hsame
    rw [if_pos (startsIgnoringCase_append hsame _), Option.map_some, List.drop_left' hlength, htake]
  · have hlength : scheme.length = 7 := length_of_sameIgnoringCase hsame
    have hother : ¬startsIgnoringCase (scheme ++ (authority ++ after)) (ascii "https://") = true := by
      intro hstarts
      have hplain := startsIgnoringCase_append hsame (authority ++ after)
      rw [startsIgnoringCase, List.isPrefixOf_iff_prefix] at hstarts hplain
      exact absurd (List.prefix_of_prefix_length_le hplain hstarts (by decide)) (by decide)
    rw [if_neg hother, if_pos (startsIgnoringCase_append hsame _), Option.map_some,
      List.drop_left' hlength, htake]

/-- An authority has one host. -/
theorem IsHost.authorityHost_eq (h : IsHost authority host) : authorityHost authority = some host := by
  rcases h with ⟨after, rfl, hclose⟩ | ⟨hbracket, hcolon, port, rfl, hport⟩
  · have htake : (host ++ 93 :: after).takeWhile (fun c => decide (c ≠ 93)) = host :=
      takeWhile_eq_of (fun c hc => decide_eq_true fun heq => hclose (heq ▸ hc))
        (fun c hc => decide_eq_false (not_not.2 (Option.some.inj hc).symm))
    rw [List.cons_append, authorityHost,
      if_pos (List.mem_append_right _ List.mem_cons_self), htake]
  · have htake : (host ++ port).takeWhile (fun c => decide (c ≠ 58)) = host :=
      takeWhile_eq_of (fun c hc => decide_eq_true fun heq => hcolon (heq ▸ hc))
        (fun c hc => decide_eq_false (not_not.2 (hport c hc)))
    unfold authorityHost
    split
    · next heq =>
      rw [heq] at hbracket
      exact absurd rfl hbracket
    · rw [htake]

theorem allowedBy_of_any {entries : Entries}
    (h : entries.any (fun allowed => allowedHost (allowed.getD []) host) = true) :
    AllowedBy entries host := by
  obtain ⟨entry, hentry, hallowed⟩ := List.any_eq_true.1 h
  rw [allowedHost, Bool.and_eq_true, decide_eq_true_eq] at hallowed
  obtain ⟨hne, hhost⟩ := hallowed
  cases entry with
  | none => exact absurd rfl hne
  | some allowed =>
    refine ⟨allowed, hentry, hne, ?_⟩
    rw [Option.getD_some, Bool.or_eq_true] at hhost
    rcases hhost with hsame | hbelow
    · exact Or.inl hsame
    · rw [Bool.and_eq_true, Bool.and_eq_true, decide_eq_true_eq, beq_iff_eq] at hbelow
      obtain ⟨⟨hlength, hdot⟩, hsame⟩ := hbelow
      obtain ⟨hplace, hget⟩ := List.getElem?_eq_some_iff.1 hdot
      refine Or.inr ⟨host.take (host.length - allowed.length - 1),
        host.drop (host.length - allowed.length), ?_, hsame⟩
      have hnext : host.length - allowed.length - 1 + 1 = host.length - allowed.length := by omega
      have hdrop := List.drop_eq_getElem_cons hplace
      rw [hget, hnext] at hdrop
      rw [← hdrop, List.take_append_drop]

/-- A number of a dotted quad is scanned. -/
theorem scanUnsigned_append {part rest : List UInt8} (h : IsByte part)
    (hrest : ∀ c ∈ rest.head?, isDigit c = false) :
    scanUnsigned (part ++ rest) = some (decimalValue part, rest) := by
  obtain ⟨hne, hdigits, hbyte⟩ := h
  have htake : (part ++ rest).takeWhile isDigit = part := by
    rw [List.takeWhile_append_of_pos hdigits]
    cases rest with
    | nil => rw [List.takeWhile_nil, List.append_nil]
    | cons c rest =>
      rw [List.takeWhile_cons_of_neg (by rw [hrest c rfl]; exact Bool.false_ne_true), List.append_nil]
  obtain ⟨c, tail, rfl⟩ := List.exists_cons_of_ne_nil hne
  have hc := hdigits c List.mem_cons_self
  have hspace : isSpace c = false := by
    simp only [isDigit, decide_eq_true_eq] at hc
    simp only [isSpace, decide_eq_false_iff_not, not_or, not_and_or, UInt8.not_le]
    exact ⟨fun heq => by subst heq; exact absurd hc.1 (by decide), Or.inr (by grind)⟩
  have hdrop : ((c :: tail) ++ rest).dropWhile isSpace = (c :: tail) ++ rest := by
    rw [List.cons_append, List.dropWhile_cons_of_neg (by rw [hspace]; exact Bool.false_ne_true)]
  have hsign (d : UInt8) (hd : isDigit d = false) : c ≠ d := by
    rintro rfl
    exact absurd (hc.symm.trans hd) (by decide)
  rw [scanUnsigned, hdrop]
  have hminus : ∀ rest', (c :: tail) ++ rest = 45 :: rest' → False :=
    fun _ heq => hsign 45 (by decide) (List.cons.inj heq).1
  have hplus : ∀ rest', (c :: tail) ++ rest = 43 :: rest' → False :=
    fun _ heq => hsign 43 (by decide) (List.cons.inj heq).1
  have hvalue : (c :: tail).foldl (fun n c => n * 10 + (c.toNat - 48)) 0 = decimalValue (c :: tail) := rfl
  have hsmall : ¬2 ^ 64 ≤ decimalValue (c :: tail) := by omega
  split
  next negative text hsigned =>
    split at hsigned
    · next heq => exact (hminus _ heq).elim
    · next heq => exact (hplus _ heq).elim
    obtain ⟨rfl, rfl⟩ := Prod.mk.inj hsigned
    simp only [htake, if_neg hne, hvalue, if_neg hsmall, Bool.false_eq_true, if_false, List.drop_left]
    rw [Nat.mod_eq_of_lt (by omega)]

theorem scanDotted_quad {p q r s : List UInt8} (hp : IsByte p) (hq : IsByte q) (hr : IsByte r)
    (hs : IsByte s) :
    scanDotted (p ++ 46 :: (q ++ 46 :: (r ++ 46 :: s))) =
      some (decimalValue p, decimalValue q, decimalValue r, decimalValue s) := by
  have hdot (rest : List UInt8) : ∀ c ∈ (46 :: rest).head?, isDigit c = false := by
    intro c hc
    rw [← Option.some.inj hc]
    decide
  have hlast := @scanUnsigned_append s [] hs nofun
  rw [List.append_nil] at hlast
  rw [scanDotted]
  simp only [Option.bind_eq_bind, scanUnsigned_append hp (hdot _), scanUnsigned_append hq (hdot _),
    scanUnsigned_append hr (hdot _), hlast, Option.bind_some, List.head?_cons, List.tail_cons, if_true]

/-- A host that is known as local is turned away. -/
theorem turnedAway_of_localQuad (h : LocalQuad host) : (localHost host || privateDotted host) = true := by
  rcases h with ⟨p, q, r, s, rfl, hp, hq, hr, hs, hlocal⟩ | hname
  · have hprivate : privateDotted (p ++ 46 :: (q ++ 46 :: (r ++ 46 :: s))) = true := by
      rw [privateDotted, scanDotted_quad hp hq hr hs]
      simp only [hp.2.2, hq.2.2, hr.2.2, hs.2.2, decide_true, Bool.and_self, Bool.true_and,
        Bool.or_eq_true, Bool.and_eq_true, beq_iff_eq, decide_eq_true_eq]
      rw [IsLocal] at hlocal
      omega
    rw [hprivate, Bool.or_true]
  · simp only [localHost, hname, Bool.true_or]

end Reading

/-- **What the policy accepts** is a URL whose host is read from its place and allowed, and is not
known as local. -/
theorem accepts_readsHost (cfg : SafetyPolicy) (url : List UInt8) (hmode : cfg.mode ≠ .unrestricted)
    (h : safetyCheckUrl cfg url = true) : ReadsHost cfg LocalQuad url := by
  rw [safetyCheckUrl, if_neg hmode] at h
  split at h
  · exact absurd h Bool.false_ne_true
  cases hauthority : urlAuthority url with
  | none =>
    rw [hauthority] at h
    exact absurd h Bool.false_ne_true
  | some authority =>
    rw [hauthority] at h
    dsimp only at h
    split at h
    · exact absurd h Bool.false_ne_true
    next hplain =>
      cases hhost : authorityHost authority with
      | none =>
        rw [hhost] at h
        exact absurd h Bool.false_ne_true
      | some host =>
        rw [hhost] at h
        dsimp only at h
        split at h
        · exact absurd h Bool.false_ne_true
        split at h
        · exact absurd h Bool.false_ne_true
        next hopen =>
          refine ⟨authority, host, isAuthority_of_urlAuthority hauthority, fun hmem => ?_,
            isHost_of_authorityHost hhost, fun hentries => ?_, fun hlocal => ?_⟩
          · exact hplain (Bool.or_eq_true_iff.2 (Or.inr (List.contains_iff_mem.2 hmem)))
          · rw [if_neg hentries] at h
            exact allowedBy_of_any h
          · exact hopen (turnedAway_of_localQuad hlocal)

/-- The policy as it is created; its list of domains is empty. -/
def openPolicy : SafetyPolicy := {}

/-- A URL with a port. -/
theorem accepts_readsHost_port :
    ReadsHost openPolicy LocalQuad (ascii "http://example.org:80/") :=
  accepts_readsHost openPolicy (ascii "http://example.org:80/") (by decide) (by decide +kernel)

/-- The loopback address written as one number is accepted. -/
theorem not_readsHost_number : ¬∀ (cfg : SafetyPolicy) (url : List UInt8), cfg.mode ≠ .unrestricted →
    cfg.allowNetwork = true → safetyCheckUrl cfg url = true → ReadsHost cfg LocalNotation url := by
  intro h
  obtain ⟨authority, host, hauthority, -, hhost, -, hshut⟩ :=
    h openPolicy (ascii "http://2130706433/") (by decide) rfl (by decide +kernel)
  have hread : urlAuthority (ascii "http://2130706433/") = some (ascii "2130706433") := by
    decide +kernel
  obtain rfl := Option.some.inj (hauthority.urlAuthority_eq.symm.trans hread)
  have hplain : authorityHost (ascii "2130706433") = some (ascii "2130706433") := by decide +kernel
  obtain rfl := Option.some.inj (hhost.authorityHost_eq.symm.trans hplain)
  exact hshut (Or.inl ⟨2130706433, by decide +kernel, Or.inl (by decide)⟩)

end EchoAi.UrlPolicy
