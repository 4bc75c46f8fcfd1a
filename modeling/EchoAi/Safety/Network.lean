import EchoAi.Safety.LoadConf

/-!
# The network policy

* `safetyCheckUrl`: whether a URL may be fetched at all.
* `safetyCheckSocketAddress`: whether a connection to an address may be opened.
* `SockAddr.isPublic`: the addresses that are public under the policy.
-/

namespace EchoAi

/-! ## URLs -/

/-- `%u` of `sscanf`: the number, and what stands behind it. -/
def scanUnsigned (text : List UInt8) : Option (Nat × List UInt8) :=
  let text := text.dropWhile isSpace
  let (negative, text) :=
    match text with
    | 45 :: rest => (true, rest)
    | 43 :: rest => (false, rest)
    | _ => (false, text)
  let digits := text.takeWhile isDigit
  if digits = [] then none
  else
    let n : Nat := digits.foldl (fun n c => n * 10 + (c.toNat - 48)) 0
    -- `strtoul` saturates, and the result is stored as an `unsigned int`
    let long := if 2 ^ 64 ≤ n then 2 ^ 64 - 1 else if negative then (2 ^ 64 - n) % 2 ^ 64 else n
    some (long % 2 ^ 32, text.drop digits.length)

/-- `sscanf` of a host with `"%u.%u.%u.%u%c"` when it yields four numbers. -/
def scanDotted (host : List UInt8) : Option (Nat × Nat × Nat × Nat) := do
  let (a, rest) ← scanUnsigned host
  let rest ← if rest.head? = some 46 then some rest.tail else none
  let (b, rest) ← scanUnsigned rest
  let rest ← if rest.head? = some 46 then some rest.tail else none
  let (c, rest) ← scanUnsigned rest
  let rest ← if rest.head? = some 46 then some rest.tail else none
  let (d, rest) ← scanUnsigned rest
  if rest = [] then some (a, b, c, d) else none

/-- The authority of an `http` or `https` URL. -/
def urlAuthority (url : List UInt8) : Option (List UInt8) :=
  let authority :=
    if startsIgnoringCase url (ascii "https://") then some (url.drop 8)
    else if startsIgnoringCase url (ascii "http://") then some (url.drop 7)
    else none
  authority.map fun text => text.takeWhile fun c => c ≠ 47 ∧ c ≠ 63 ∧ c ≠ 35

/-- The host of an authority: what stands in brackets, or in front of the colon. -/
def authorityHost (authority : List UInt8) : Option (List UInt8) :=
  match authority with
  | 91 :: rest => if 93 ∈ rest then some (rest.takeWhile (· ≠ 93)) else none
  | _ => some (authority.takeWhile (· ≠ 58))

/-- The names and prefixes of hosts that are never fetched. -/
def localHost (host : List UInt8) : Bool :=
  sameIgnoringCase host (ascii "localhost") ||
    (decide (10 < host.length) &&
      sameIgnoringCase (host.drop (host.length - 10)) (ascii ".localhost")) ||
    sameIgnoringCase host (ascii "::1") || sameIgnoringCase host (ascii "0:0:0:0:0:0:0:1") ||
    startsIgnoringCase host (ascii "fc") || startsIgnoringCase host (ascii "fd") ||
    startsIgnoringCase host (ascii "fe80:")

/-- A private address in dotted form. -/
def privateDotted (host : List UInt8) : Bool :=
  match scanDotted host with
  | none => false
  | some (a, b, c, d) =>
    (decide (a ≤ 255) && decide (b ≤ 255) && decide (c ≤ 255) && decide (d ≤ 255)) &&
      (a == 10 || a == 127 || a == 0 || (a == 169 && b == 254) || (a == 192 && b == 168) ||
        (a == 172 && decide (16 ≤ b) && decide (b ≤ 31)))

/-- A host is an allowed domain or lies below one. -/
def allowedHost (allowed host : List UInt8) : Bool :=
  allowed ≠ [] &&
    (sameIgnoringCase host allowed ||
      (decide (allowed.length < host.length) &&
        host[host.length - allowed.length - 1]? == some 46 &&
          sameIgnoringCase (host.drop (host.length - allowed.length)) allowed))

/-- `safety_check_url`. -/
def safetyCheckUrl (cfg : SafetyPolicy) (url : List UInt8) : Bool :=
  if cfg.mode = .unrestricted then true
  else if !cfg.allowNetwork then false
  else
    match urlAuthority url with
    | none => false
    | some authority =>
      if authority = [] || authority.contains 64 then false
      else
        match authorityHost authority with
        | none => false
        | some host =>
          if host.length = 0 || decide (256 ≤ host.length) then false
          else if localHost host || privateDotted host then false
          else if cfg.lists .allowedDomains = [] then true
          else (cfg.lists .allowedDomains).any fun allowed => allowedHost (allowed.getD []) host

/-! ## Addresses -/

/-- A socket address. -/
inductive SockAddr where
  /-- an IPv4 address, its four bytes -/
  | inet (a b c d : UInt8)
  | inet6 (bytes : Vector UInt8 16)
  | other
  deriving DecidableEq, Repr

/-- `ipv4_is_public`, of the first two bytes. -/
def ipv4IsPublic (a b : UInt8) : Bool :=
  !(a == 0 || a == 10 || a == 127 || decide (224 ≤ a) || (a == 100 && decide (64 ≤ b ∧ b ≤ 127)) ||
    (a == 169 && b == 254) || (a == 172 && decide (16 ≤ b ∧ b ≤ 31)) ||
    (a == 192 && (b == 0 || b == 168)) || (a == 198 && (b == 18 || b == 19)))

/-- Whether an IPv6 address is public; a mapped IPv4 address is when that one is. -/
def ipv6IsPublic (bytes : Vector UInt8 16) : Bool :=
  let unspecified := bytes.toList.all (· == 0)
  let loopback := (bytes.toList.take 15).all (· == 0) && bytes[15] == 1
  let linkLocal := bytes[0] == 0xFE && (bytes[1] &&& 0xC0) == 0x80
  let multicast := bytes[0] == 0xFF
  let uniqueLocal := (bytes[0] &&& 0xFE) == 0xFC
  let mapped := (bytes.toList.take 10).all (· == 0) && bytes[10] == 0xFF && bytes[11] == 0xFF
  if unspecified || loopback || linkLocal || multicast || uniqueLocal then false
  else if mapped then ipv4IsPublic bytes[12] bytes[13]
  else true

/-- The addresses that are public under the policy. -/
def SockAddr.isPublic : SockAddr → Bool
  | .inet a b _ _ => ipv4IsPublic a b
  | .inet6 bytes => ipv6IsPublic bytes
  | .other => false

/-- `safety_check_socket_address`. -/
def safetyCheckSocketAddress (cfg : SafetyPolicy) (address : SockAddr) : Bool :=
  if cfg.mode = .unrestricted then true else address.isPublic

theorem safetyCheckSocketAddress_eq {cfg : SafetyPolicy} (hmode : cfg.mode ≠ .unrestricted)
    (address : SockAddr) : safetyCheckSocketAddress cfg address = address.isPublic :=
  if_neg hmode

end EchoAi
