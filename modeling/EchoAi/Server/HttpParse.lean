import EchoAi.Bytes
import EchoAi.Splitting

/-!
# Requests that come in chunks

The server collects the bytes of a request and tries to parse them after every chunk.

* `CharArray`: a text in an array of fixed capacity.
* `parseContentLength`: the length of the body, from the header lines.
* `RequestHead`, `Client`: what the header says, and with it the bytes and the body.
* `readRequestLine`, `readHeader`, `parseHttp`, `clientAppend`: one attempt, and one more chunk.
* `feedChunks`: chunk after chunk, until an attempt ends it.

Memory does not run out.
-/

namespace EchoAi

/-! ## Limits and texts -/

/-- `MAX_HTTP_HEADER_SIZE`. -/
def maxHttpHeaderSize : Nat := 16384

/-- `MAX_HTTP_BODY_SIZE`. -/
def maxHttpBodySize : Nat := 10485760

/-- `SIZE_MAX`. -/
def maxSizeT : Nat := 2 ^ 64 - 1

/-- A text in an array of `cap` bytes, with its NUL. -/
structure CharArray (cap : Nat) where
  text : List UInt8
  fits : text.length < cap
  deriving DecidableEq, Repr

/-- A text copied into an array, if there is room for it. -/
def CharArray.copy? (cap : Nat) (text : List UInt8) : Option (CharArray cap) :=
  if fits : text.length < cap then some { text, fits } else none

/-- The end of a line. -/
def crlf : List UInt8 := [13, 10]

/-- The end of a header. -/
def crlfcrlf : List UInt8 := [13, 10, 13, 10]

/-- A list up to the first `sep`, and behind it. -/
def splitFirst (sep : UInt8) (bs : List UInt8) : Option (List UInt8 × List UInt8) :=
  if sep ∈ bs then some (bs.takeWhile (· ≠ sep), (bs.dropWhile (· ≠ sep)).tail) else none

theorem splitFirst_eq_some_iff {sep : UInt8} {bs item rest : List UInt8} :
    splitFirst sep bs = some (item, rest) ↔ bs = item ++ sep :: rest ∧ sep ∉ item := by
  unfold splitFirst
  constructor
  · intro h
    split at h
    · next hsep =>
      obtain ⟨item', rest', rfl, hitem⟩ := List.eq_append_cons_of_mem hsep
      rw [takeWhile_ne_append_cons hitem, dropWhile_ne_append_cons hitem, List.tail_cons,
        Option.some.injEq, Prod.mk.injEq] at h
      rw [← h.1, ← h.2]
      exact ⟨rfl, hitem⟩
    · exact absurd h (by simp)
  · rintro ⟨rfl, hitem⟩
    rw [if_pos (List.mem_append_right item List.mem_cons_self), takeWhile_ne_append_cons hitem,
      dropWhile_ne_append_cons hitem, List.tail_cons]

/-! ## The length of the body -/

/-- A line, and the bytes from its end on.  The last byte of the header belongs to no line. -/
def headerLine : List UInt8 → List UInt8 × List UInt8
  | b :: c :: bs =>
    if b = 13 ∧ c = 10 then ([], b :: c :: bs)
    else ((b :: (headerLine (c :: bs)).1), (headerLine (c :: bs)).2)
  | bs => ([], bs)

/-- A letter in lower case. -/
def lowerByte (b : UInt8) : UInt8 := if 65 ≤ b ∧ b ≤ 90 then b + 32 else b

/-- `strncasecmp` on the whole of two texts. -/
def sameHeaderName (name : List UInt8) (other : String) : Bool :=
  name.map lowerByte == (ascii other).map lowerByte

def isBlankOrTab (b : UInt8) : Bool := b = 32 || b = 9

def isDigitByte (b : UInt8) : Bool := decide (48 ≤ b ∧ b ≤ 57)

/-- The digits at the front of a value, and what follows; nothing when the number overflows. -/
def parseSize (parsed : Nat) : List UInt8 → Option (Nat × List UInt8)
  | [] => some (parsed, [])
  | b :: bs =>
    if isDigitByte b then
      let digit := b.toNat - 48
      if (maxSizeT - digit) / 10 < parsed then none else parseSize (parsed * 10 + digit) bs
    else some (parsed, b :: bs)

/-- The value of a `Content-Length` line. -/
def contentLengthValue (value : List UInt8) : Option Nat :=
  match value.dropWhile isBlankOrTab with
  | [] => none
  | p :: ps =>
    match parseSize 0 (p :: ps) with
    | none => none
    | some (parsed, rest) =>
      if rest.dropWhile isBlankOrTab ≠ [] ∨ maxHttpBodySize < parsed then none else some parsed

/-- What a line does to the length found so far. -/
def contentLengthLine (found : Option Nat) (line : List UInt8) : Option (Option Nat) :=
  match splitFirst ':'.toUInt8 line with
  | none => some found
  | some (name, value) =>
    if name.length = 14 ∧ sameHeaderName name "Content-Length" then
      if found.isSome then none else (contentLengthValue value).map some
    else if name.length = 17 ∧ sameHeaderName name "Transfer-Encoding" then none
    else some found

/-- The loop of `parse_content_length`.  Every line but the last takes two bytes at least, so fuel
for each byte is enough. -/
def contentLengthLoop : (fuel : Nat) → (found : Option Nat) → (bs : List UInt8) → Option (Option Nat)
  | 0, found, _ => some found
  | fuel + 1, found, bs =>
    if bs = [] then some found
    else
      match contentLengthLine found (headerLine bs).1 with
      | none => none
      | some found =>
        match (headerLine bs).2 with
        | _ :: _ :: rest => contentLengthLoop fuel found rest
        | _ => some found

/-- `parse_content_length`. -/
def parseContentLength (header : List UInt8) : Option Nat :=
  (contentLengthLoop header.length none header).map (·.getD 0)

/-! ## The header -/

/-- What the header of a request says. -/
structure RequestHead where
  method : CharArray 16 := ⟨[], by decide⟩
  path : CharArray 1024 := ⟨[], by decide⟩
  query : CharArray 512 := ⟨[], by decide⟩
  headers : CharArray 4096 := ⟨[], by decide⟩
  contentLength : Nat := 0
  headerLen : Nat := 0
  headersDone : Bool := false
  deriving DecidableEq, Repr

/-- A connection with the bytes that came and the body. -/
structure Client extends RequestHead where
  buf : List UInt8 := []
  body : Option (List UInt8) := none
  deriving DecidableEq, Repr

/-- The path of a request, with its query. -/
def readPath (head : RequestHead) (target : List UInt8) : Except RequestHead RequestHead :=
  match splitFirst '?'.toUInt8 target with
  | some (path, query) =>
    match CharArray.copy? 1024 path with
    | none => .error head
    | some path =>
      match CharArray.copy? 512 query with
      | none => .error { head with path }
      | some query => .ok { head with path, query }
  | none =>
    match CharArray.copy? 1024 target with
    | none => .error head
    | some path => .ok { head with path }

/-- The request line: its method and its path. -/
def readRequestLine (head : RequestHead) (line : List UInt8) : Except RequestHead RequestHead :=
  match splitFirst ' '.toUInt8 line with
  | none => .error head
  | some (method, rest) =>
    match splitFirst ' '.toUInt8 rest with
    | none => .error head
    | some (target, _) =>
      if method = [] then .error head
      else
        match CharArray.copy? 16 method with
        | none => .error head
        | some method => readPath { head with method } target

/-- The part of `parse_http` behind the search for the end of the header; an error leaves what was
written so far. -/
def readHeader (head : RequestHead) (data : List UInt8) (headerEnd : Nat) :
    Except RequestHead RequestHead :=
  let header := data.take (headerEnd + 4)
  if maxHttpHeaderSize < headerEnd + 4 then .error head
  else
    match CharArray.copy? 4096 header with
    | none => .error head
    | some headers =>
      match firstInfix crlf (cString data) with
      | none => .error head
      | some requestLineEnd =>
        if headerEnd < requestLineEnd then .error head
        else
          match readRequestLine head (data.take requestLineEnd) with
          | .error head => .error head
          | .ok head =>
            match parseContentLength header with
            | none => .error { head with headers }
            | some contentLength =>
              .ok { head with headers, contentLength, headerLen := headerEnd + 4, headersDone := true }

/-! ## Attempts and chunks -/

/-- What an attempt finds: the request is not all there, it is refused, or it is complete. -/
inductive Verdict where
  | more
  | refused
  | complete
  deriving DecidableEq, Repr

/-- The part of `parse_http` about the body. -/
def parseBody (client : Client) : Verdict × Client :=
  if client.buf.length - client.headerLen < client.contentLength then (.more, client)
  else if 0 < client.contentLength ∧ client.body = none then
    (.complete,
      { client with body := some ((client.buf.drop client.headerLen).take client.contentLength) })
  else (.complete, client)

/-- `parse_http`. -/
def parseHttp (client : Client) : Verdict × Client :=
  if client.headersDone then parseBody client
  else
    match firstInfix crlfcrlf (cString client.buf) with
    | none => (if maxHttpHeaderSize < client.buf.length then .refused else .more, client)
    | some headerEnd =>
      match readHeader client.toRequestHead client.buf headerEnd with
      | .error head => (.refused, { client with toRequestHead := head })
      | .ok head => parseBody { client with toRequestHead := head }

/-- `client_append`. -/
def clientAppend (client : Client) (data : List UInt8) : Option Client :=
  if maxSizeT - client.buf.length - 1 < data.length then none
  else if maxHttpHeaderSize + maxHttpBodySize + 1 < client.buf.length + data.length + 1 then none
  else some { client with buf := client.buf ++ data }

/-- Chunk after chunk, with an attempt behind each, until one ends it. -/
def feedChunks (client : Client) : List (List UInt8) → Verdict × Client
  | [] => (.more, client)
  | chunk :: chunks =>
    match clientAppend client chunk with
    | none => (.refused, client)
    | some client =>
      match parseHttp client with
      | (.more, client) => feedChunks client chunks
      | done => done

/-! ## More bytes -/

/-- The place of the blank line behind the header. -/
def headerEnd? (bytes : List UInt8) : Option Nat := firstInfix crlfcrlf (cString bytes)

theorem headerEnd?_append {p : List UInt8} {i : Nat} (h : headerEnd? p = some i) (q : List UInt8) :
    headerEnd? (p ++ q) = some i :=
  firstInfix_of_isPrefix (cString_isPrefix p q) h

theorem headerEnd?_le {p : List UInt8} {i : Nat} (h : headerEnd? p = some i) :
    i + 4 ≤ p.length :=
  (firstInfix_le h).trans (cString_isPrefix_self p).length_le

/-- A blank line that comes later ends behind the bytes that came before. -/
theorem lt_of_headerEnd? {p q : List UInt8} {i : Nat} (hnone : headerEnd? p = none)
    (h : headerEnd? (p ++ q) = some i) : p.length < i + 4 := by
  by_cases hnul : 0 ∈ p
  · rw [headerEnd?, cString_append_of_mem hnul, ← headerEnd?, hnone] at h
    exact absurd h (by simp)
  · have hlt := lt_of_firstInfix (cString_isPrefix p q) hnone h
    rwa [cString_of_notMem hnul] at hlt

/-- The header is read the same when more bytes came. -/
theorem readHeader_append (head : RequestHead) {p : List UInt8} {i : Nat}
    (h : headerEnd? p = some i) (q : List UInt8) :
    readHeader head (p ++ q) i = readHeader head p i := by
  have hlen := headerEnd?_le h
  have hpat : crlf <+: (cString p).drop i :=
    List.IsPrefix.trans (by decide) (isPrefix_of_firstInfix h)
  obtain ⟨r, hr, hline⟩ := exists_firstInfix hpat
  have hline' := firstInfix_of_isPrefix (cString_isPrefix p q) hline
  have hheader : (p ++ q).take (i + 4) = p.take (i + 4) := List.take_append_of_le_length hlen
  have hrequest : (p ++ q).take r = p.take r := List.take_append_of_le_length (by omega)
  simp only [readHeader, hline, hline', hheader, hrequest]

/-- A header that was read says where it ends and what it is. -/
theorem of_readHeader {head head' : RequestHead} {data : List UInt8} {i : Nat}
    (h : readHeader head data i = .ok head') :
    head'.headersDone = true ∧ head'.headerLen = i + 4 ∧
      head'.headers.text = data.take (i + 4) ∧ i + 4 ≤ maxHttpHeaderSize := by
  simp only [readHeader] at h
  split at h
  · exact absurd h (by simp)
  next hsize =>
  split at h
  · exact absurd h (by simp)
  next headers hcopy =>
  have hheaders : headers.text = data.take (i + 4) := by
    rw [CharArray.copy?] at hcopy
    split at hcopy
    · rw [← Option.some.inj hcopy]
    · exact absurd hcopy (by simp)
  split at h
  · exact absurd h (by simp)
  split at h
  · exact absurd h (by simp)
  split at h
  · exact absurd h (by simp)
  split at h
  · exact absurd h (by simp)
  rw [← Except.ok.inj h]
  exact ⟨rfl, rfl, hheaders, by omega⟩

/-- A client that has the bytes `p` and no attempt behind it. -/
def Client.fresh (p : List UInt8) : Client := { buf := p }

theorem parseHttp_fresh (p : List UInt8) :
    parseHttp (Client.fresh p) =
      match headerEnd? p with
      | none => (if maxHttpHeaderSize < p.length then .refused else .more, Client.fresh p)
      | some i =>
        match readHeader {} p i with
        | .error head => (.refused, { toRequestHead := head, buf := p })
        | .ok head => parseBody { toRequestHead := head, buf := p } := rfl

/-- What a handler reads of a request. -/
def Client.request (client : Client) : RequestHead × Option (List UInt8) :=
  (client.toRequestHead, client.body)

/-- An attempt that waits for more leaves the client so that the next attempt goes on as if all
bytes had come at once. -/
theorem parseHttp_of_more {p : List UInt8} {client : Client}
    (h : parseHttp (Client.fresh p) = (.more, client)) (q : List UInt8) :
    client.buf = p ∧
      parseHttp { client with buf := p ++ q } = parseHttp (Client.fresh (p ++ q)) := by
  rw [parseHttp_fresh] at h
  cases hend : headerEnd? p with
  | none =>
    rw [hend] at h
    rw [← (Prod.mk.inj h).2]
    exact ⟨rfl, rfl⟩
  | some i =>
    rw [hend] at h
    cases hread : readHeader {} p i with
    | error head =>
      simp only [hread] at h
      exact absurd (Prod.mk.inj h).1 (by decide)
    | ok head =>
      simp only [hread, parseBody] at h
      have hclient : client = { toRequestHead := head, buf := p } := by
        split at h
        · exact (Prod.mk.inj h).2.symm
        · split at h
          · exact absurd (Prod.mk.inj h).1 (by decide)
          · exact absurd (Prod.mk.inj h).1 (by decide)
      rw [hclient, parseHttp_fresh, headerEnd?_append hend q]
      simp only [readHeader_append _ hend q, hread]
      refine ⟨trivial, ?_⟩
      rw [parseHttp, if_pos (of_readHeader hread).1]

/-- An attempt that ends the request finds the same when more bytes come. -/
theorem parseHttp_of_done {p : List UInt8} {v : Verdict} {client : Client}
    (h : parseHttp (Client.fresh p) = (v, client)) (hv : v ≠ .more) (q : List UInt8) :
    (parseHttp (Client.fresh (p ++ q))).1 = v ∧
      (v = .complete → (parseHttp (Client.fresh (p ++ q))).2.request = client.request) := by
  rw [parseHttp_fresh] at h ⊢
  cases hend : headerEnd? p with
  | none =>
    rw [hend] at h
    obtain ⟨hverdict, -⟩ := Prod.mk.inj h
    have hlong : maxHttpHeaderSize < p.length := by
      by_contra hshort
      rw [if_neg hshort] at hverdict
      exact hv hverdict.symm
    rw [if_pos hlong] at hverdict
    rw [← hverdict]
    refine ⟨?_, fun hcomplete => absurd hcomplete (by decide)⟩
    cases hlater : headerEnd? (p ++ q) with
    | none =>
      show (if maxHttpHeaderSize < (p ++ q).length then Verdict.refused else .more) = .refused
      rw [if_pos (by rw [List.length_append]; omega)]
    | some i =>
      -- the header is longer than what had come, and that was too long already
      have hlt := lt_of_headerEnd? hend hlater
      have hread : readHeader {} (p ++ q) i = .error {} := by
        simp only [readHeader]
        rw [if_pos (by omega)]
      simp only [hread]
  | some i =>
    rw [hend] at h
    rw [headerEnd?_append hend q]
    simp only [readHeader_append _ hend q]
    cases hread : readHeader {} p i with
    | error head =>
      simp only [hread] at h
      rw [← (Prod.mk.inj h).1]
      exact ⟨rfl, fun hcomplete => absurd hcomplete (by decide)⟩
    | ok head =>
      simp only [hread, parseBody] at h ⊢
      obtain ⟨-, hheaderLen, -⟩ := of_readHeader hread
      have hlen := headerEnd?_le hend
      split at h
      · exact absurd (Prod.mk.inj h).1.symm hv
      next hall =>
      have hall' : ¬(p ++ q).length - head.headerLen < head.contentLength := by
        rw [List.length_append]
        omega
      have hbody : ((p ++ q).drop head.headerLen).take head.contentLength =
          (p.drop head.headerLen).take head.contentLength := by
        rw [List.drop_append_of_le_length (by omega), List.take_append_of_le_length]
        rw [List.length_drop]
        omega
      rw [if_neg hall', hbody]
      split at h
      · next hpos =>
        rw [if_pos hpos, ← (Prod.mk.inj h).1, ← (Prod.mk.inj h).2]
        exact ⟨rfl, fun _ => rfl⟩
      · next hpos =>
        rw [if_neg hpos, ← (Prod.mk.inj h).1, ← (Prod.mk.inj h).2]
        exact ⟨rfl, fun _ => rfl⟩

/-! ## Chunks -/

theorem clientAppend_of_le {client : Client} {data : List UInt8}
    (h : client.buf.length + data.length ≤ maxHttpHeaderSize + maxHttpBodySize) :
    clientAppend client data = some { client with buf := client.buf ++ data } := by
  have hsize : ¬maxSizeT - client.buf.length - 1 < data.length := by
    simp only [maxHttpHeaderSize, maxHttpBodySize, maxSizeT] at h ⊢
    omega
  rw [clientAppend, if_neg hsize, if_neg (by omega)]

/-- Feeding chunk after chunk ends like one attempt at all the bytes. -/
theorem feedChunks_eq (chunks : List (List UInt8)) {p : List UInt8} {client : Client}
    (hmore : parseHttp (Client.fresh p) = (.more, client))
    (hlen : (p ++ chunks.flatten).length ≤ maxHttpHeaderSize + maxHttpBodySize) :
    (feedChunks client chunks).1 = (parseHttp (Client.fresh (p ++ chunks.flatten))).1 ∧
      ((feedChunks client chunks).1 = .complete → (feedChunks client chunks).2.request =
        (parseHttp (Client.fresh (p ++ chunks.flatten))).2.request) := by
  induction chunks generalizing p client with
  | nil =>
    rw [List.flatten_nil, List.append_nil, hmore]
    exact ⟨rfl, fun _ => rfl⟩
  | cons chunk chunks ih =>
    rw [List.flatten_cons, ← List.append_assoc] at hlen ⊢
    obtain ⟨hbuf, hnext⟩ := parseHttp_of_more hmore chunk
    have happend : clientAppend client chunk = some { client with buf := p ++ chunk } := by
      rw [clientAppend_of_le, hbuf]
      rw [hbuf, ← List.length_append]
      exact (List.prefix_append (p ++ chunk) chunks.flatten).length_le.trans hlen
    rw [feedChunks, happend]
    simp only [hnext]
    cases hattempt : parseHttp (Client.fresh (p ++ chunk)) with
    | mk v client' =>
      cases v with
      | more => exact ih hattempt hlen
      | refused =>
        obtain ⟨hsame, -⟩ := parseHttp_of_done hattempt (by decide) chunks.flatten
        rw [hsame]
        exact ⟨rfl, fun hcomplete => Verdict.noConfusion hcomplete⟩
      | complete =>
        obtain ⟨hsame, hrequest⟩ := parseHttp_of_done hattempt (by decide) chunks.flatten
        rw [hsame]
        exact ⟨rfl, fun _ => (hrequest rfl).symm⟩

/-- A complete request: its header ends with the first blank line, and its body are the bytes behind
it, as many as the content length says. -/
theorem of_parseHttp_complete {bytes : List UInt8} {client : Client}
    (h : parseHttp (Client.fresh bytes) = (.complete, client)) :
    ∃ i, headerEnd? bytes = some i ∧ client.headers.text = bytes.take (i + 4) ∧
      client.body.getD [] = (bytes.drop (i + 4)).take client.contentLength ∧
        (client.body.getD []).length = client.contentLength := by
  rw [parseHttp_fresh] at h
  cases hend : headerEnd? bytes with
  | none =>
    rw [hend] at h
    have hverdict := (Prod.mk.inj h).1
    split at hverdict
    · exact absurd hverdict (by decide)
    · exact absurd hverdict (by decide)
  | some i =>
    rw [hend] at h
    cases hread : readHeader {} bytes i with
    | error head =>
      simp only [hread] at h
      exact absurd (Prod.mk.inj h).1 (by decide)
    | ok head =>
      obtain ⟨-, hheaderLen, hheaders, -⟩ := of_readHeader hread
      simp only [hread, parseBody] at h
      split at h
      · exact absurd (Prod.mk.inj h).1 (by decide)
      next hall =>
      have hlength : ((bytes.drop (i + 4)).take head.contentLength).length =
          head.contentLength := by
        rw [List.length_take, List.length_drop]
        omega
      refine ⟨i, rfl, ?_⟩
      split at h
      · rw [← (Prod.mk.inj h).2, ← hheaderLen] at *
        exact ⟨hheaders, rfl, hlength⟩
      · next hpos =>
        have hzero : head.contentLength = 0 := by
          simp only [and_true] at hpos
          omega
        rw [← (Prod.mk.inj h).2]
        refine ⟨hheaders, ?_, ?_⟩
        · show [] = _
          rw [hzero, List.take_zero]
        · exact hzero.symm

/-- Two ways of cutting the same bytes into chunks end alike: with the same verdict, with the same
request when it is complete, and then with the body that stands behind the blank line. -/
theorem feedChunks_congr {bytes : List UInt8} {cs ds : List (List UInt8)}
    (hcs : cs.flatten = bytes) (hds : ds.flatten = bytes)
    (hlen : bytes.length ≤ maxHttpHeaderSize + maxHttpBodySize) :
    (feedChunks {} cs).1 = (feedChunks {} ds).1 ∧
      ((feedChunks {} cs).1 = .complete →
        (feedChunks {} cs).2.request = (feedChunks {} ds).2.request ∧
          ∃ i, headerEnd? bytes = some i ∧
            (feedChunks {} cs).2.headers.text = bytes.take (i + 4) ∧
            (feedChunks {} cs).2.body.getD [] =
              (bytes.drop (i + 4)).take (feedChunks {} cs).2.contentLength ∧
            ((feedChunks {} cs).2.body.getD []).length =
              (feedChunks {} cs).2.contentLength) := by
  have hstart : parseHttp (Client.fresh []) = (.more, {}) := by decide
  have hwhole : ∀ chunks : List (List UInt8), chunks.flatten = bytes →
      (feedChunks {} chunks).1 = (parseHttp (Client.fresh bytes)).1 ∧
        ((feedChunks {} chunks).1 = .complete → (feedChunks {} chunks).2.request =
          (parseHttp (Client.fresh bytes)).2.request) := by
    rintro chunks rfl
    exact feedChunks_eq chunks hstart hlen
  obtain ⟨hverdict, hrequest⟩ := hwhole cs hcs
  obtain ⟨hverdict', hrequest'⟩ := hwhole ds hds
  refine ⟨hverdict.trans hverdict'.symm, fun hcomplete => ?_⟩
  have hsame := hrequest hcomplete
  refine ⟨hsame.trans (hrequest' (by rw [hverdict', ← hverdict, hcomplete])).symm, ?_⟩
  obtain ⟨hhead, hbody⟩ := Prod.mk.inj hsame
  have hdone : parseHttp (Client.fresh bytes) =
      (.complete, (parseHttp (Client.fresh bytes)).2) :=
    Prod.ext (hverdict.symm.trans hcomplete) rfl
  rw [hhead, hbody]
  exact of_parseHttp_complete hdone

/-- A request cut inside the blank line behind its header. -/
theorem feedChunks_congr_get :
    let request := ascii "POST /a?b HTTP/1.1\r\nContent-Length: 2\r\n\r\nhi"
    (feedChunks {} [request]).1 = (feedChunks {} [request.take 40, request.drop 40]).1 ∧
      (feedChunks {} [request]).1 = .complete := by
  refine ⟨?_, by decide +kernel⟩
  refine (@feedChunks_congr _ [_] [_, _] rfl ?_ ?_).1
  · decide +kernel
  · decide +kernel

end EchoAi
