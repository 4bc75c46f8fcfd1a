import EchoAi.Browser.Cdp

/-!
# What comes over the pipes

Whatever the calls, the reader and the browser do, and in whichever order:

* `messages`: the messages of a stream of bytes, however it is cut.
* `handled_eq_messages`: the reader handles the messages that have come, each once and in order.
* `answers_match`: a call is answered with a message that has its number, and nobody else is.
* `look_answers`: a call that waits finds the first message with its number, unless others have
  driven it out.
* `messages_sent`: commands arrive whole when they are not written at the same time.
-/

namespace EchoAi.Cdp

variable {J : WireJson} {wild : Decimal → Int} {t t' : Transport} {event : Event}

/-- A run of the calls and the reader. -/
abbrev Run (J : WireJson) (wild : Decimal → Int) (t : Transport) : Prop :=
  Runs (step J wild) (fun _ _ => True) start t

/-- What every move keeps holds in every run. -/
theorem Run.invariant {I : Transport → Prop} (h : Run J wild t) (hstart : I start)
    (hmove : ∀ t event t', I t → Move J wild t event t' → I t') : I t :=
  Runs.invariant hstart (fun _ _ _ _ hI hstep => hmove _ _ _ hI (move_of_step hstep)) h

/-! ## The stream -/

/-- The messages of a stream: what stands in front of each NUL. -/
def messages (stream : List UInt8) : List (List UInt8) := (stream.splitOn 0).dropLast

theorem messages_of_notMem {bs : List UInt8} (h : 0 ∉ bs) : messages bs = [] := by
  rw [messages, List.splitOn_eq_singleton h]
  rfl

theorem messages_append_cons {line : List UInt8} (h : 0 ∉ line) (bs : List UInt8) :
    messages (line ++ 0 :: bs) = line :: messages bs := by
  rw [messages, List.splitOn_append_cons_self_of_not_mem h, List.dropLast_cons_of_ne_nil]
  · rfl
  · exact List.splitOn_ne_nil 0 bs

/-- Lines with a NUL behind each. -/
theorem messages_flatMap {lines : List (List UInt8)} (h : ∀ line ∈ lines, 0 ∉ line)
    (bs : List UInt8) :
    messages (lines.flatMap (· ++ [0]) ++ bs) = lines ++ messages bs := by
  induction lines with
  | nil => rfl
  | cons line lines ih =>
    have hrest := ih fun l hl => h l (List.mem_cons_of_mem line hl)
    rw [List.flatMap_cons, List.append_assoc, List.append_assoc, List.singleton_append,
      messages_append_cons (h line List.mem_cons_self), hrest, List.cons_append]

theorem eq_false_of_imp {b c : Bool} (h : b = true → c = true) (hc : c = false) : b = false :=
  Bool.eq_false_iff.mpr fun hb => Bool.eq_false_iff.mp hc (h hb)

/-- The bytes that were read are the lines that were handled and the line that has begun. -/
structure Framed (t : Transport) : Prop where
  received : t.received = t.handled.flatMap (· ++ [0]) ++ t.client.lineBuf
  lines : ∀ line ∈ t.handled, 0 ∉ line
  open_line : t.reader ≠ .framing → t.client.dead = false → 0 ∉ t.client.lineBuf

@[simp] theorem keep_lineBuf (c : CdpClient) (line : List UInt8) :
    (keep J wild c line).lineBuf = c.lineBuf := by
  rw [keep]
  cases messageId J wild line <;> rfl

@[simp] theorem keep_dead (c : CdpClient) (line : List UInt8) :
    (keep J wild c line).dead = c.dead := by
  rw [keep]
  cases messageId J wild line <;> rfl

theorem Framed.move (h : Framed t) (hmove : Move J wild t event t') : Framed t' := by
  obtain ⟨hreceived, hlines, hopen⟩ := h
  cases hmove with
  | stays => exact ⟨hreceived, hlines, hopen⟩
  | opens => exact ⟨hreceived, hlines, hopen⟩
  | writes => exact ⟨hreceived, hlines, hopen⟩
  | ends _ _ _ dead _ _ hdead =>
    exact ⟨hreceived, hlines, fun hreader halive => hopen hreader (eq_false_of_imp hdead halive)⟩
  | takes => exact ⟨hreceived, hlines, hopen⟩
  | turns _ reader dead hreader hstop hdead =>
    refine ⟨hreceived, hlines, fun _ halive => ?_⟩
    by_cases hframing : t.reader = .framing
    · exact (hstop hframing).resolve_right (Bool.eq_false_iff.mp halive)
    · exact hopen hframing (eq_false_of_imp hdead halive)
  | receives _ chunk hpolling =>
    refine ⟨?_, hlines, fun hreader => absurd rfl hreader⟩
    rw [hreceived, List.append_assoc]
  | handles _ line rest hframing hbuf hline =>
    refine ⟨?_, ?_, fun hreader => absurd hframing hreader⟩
    · rw [hreceived, hbuf, List.flatMap_append, List.flatMap_singleton, List.append_assoc,
        List.append_assoc, List.singleton_append]
    · simpa [or_imp, forall_and] using And.intro hlines hline
  | closes => exact ⟨hreceived, hlines, fun _ halive => absurd halive (by simp)⟩

theorem Run.framed (h : Run J wild t) : Framed t :=
  h.invariant ⟨rfl, by simp [start], by simp [start]⟩ fun _ _ _ => Framed.move

/-! ## A short exchange -/

/-- A library that knows the texts of one command and its answer. -/
def shortJson : WireJson where
  parse bs := if bs = ascii "\x7b\"id\":0\x7d" then some (.object [("id", .number ⟨0, 0⟩)]) else none
  print _ := some "\x7b\"id\":0,\"method\":\"m\"\x7d"

/-- One command, which is answered. -/
def shortExchange : List Event :=
  [.call ⟨"m", none, none⟩, .write 0 10, .write 0 12, .check,
    .receive (ascii "\x7b\"id\"") true, .frame true, .check, .receive (ascii ":0\x7d" ++ [0]) true,
    .frame true]

theorem run_shortExchange : ∃ t, Run shortJson (fun _ => 0) t ∧
    (t.client.dead, t.handled, t.calls.map (fun call => (call.id, call.phase))) =
      (false, [ascii "\x7b\"id\":0\x7d"], [(0, .waiting)]) :=
  exists_runs_of_foldlM _ _ _ _ shortExchange _ (by decide +kernel)

/-- **However the stream of the browser is cut into reads, the reader has handled its messages in
order, each of them once: some of them at any time, and all that have come when it is back at its
loop and the connection is not dead.** -/
theorem handled_eq_messages (h : Run J wild t) :
    t.handled <+: messages t.received ∧
      (t.reader ≠ .framing → t.client.dead = false → t.handled = messages t.received) := by
  obtain ⟨hreceived, hlines, hopen⟩ := h.framed
  rw [hreceived, messages_flatMap hlines]
  refine ⟨List.prefix_append _ _, fun hreader halive => ?_⟩
  rw [messages_of_notMem (hopen hreader halive), List.append_nil]

theorem handled_shortExchange : ∃ t, Run shortJson (fun _ => 0) t ∧
    t.handled = [ascii "\x7b\"id\":0\x7d"] ∧ t.handled <+: messages t.received ∧
      (t.reader ≠ .framing → t.client.dead = false → t.handled = messages t.received) := by
  obtain ⟨t, hrun, hview⟩ := run_shortExchange
  exact ⟨t, hrun, (Prod.mk.inj (Prod.mk.inj hview).2).1, handled_eq_messages hrun⟩

/-! ## Answers -/

/-- The messages that calls were answered with. -/
def answers (calls : List Call) : List (Int × CdpPending) :=
  calls.filterMap fun call => call.answer?.map fun json => (call.id, ⟨call.id, json⟩)

theorem mem_answers {calls : List Call} {id : Int} {e : CdpPending} :
    (id, e) ∈ answers calls ↔
      ∃ call ∈ calls, ∃ json, call.answer? = some json ∧ call.id = id ∧ ⟨id, json⟩ = e := by
  simp only [answers, List.mem_filterMap, Option.map_eq_some_iff, Prod.mk.injEq]
  constructor
  · rintro ⟨call, hmem, json, hanswer, rfl, he⟩
    exact ⟨call, hmem, json, hanswer, rfl, he⟩
  · rintro ⟨call, hmem, json, hanswer, rfl, he⟩
    exact ⟨call, hmem, json, hanswer, rfl, he⟩

/-- The calls have their places as numbers, and the messages that the reader kept are accounted
for. -/
structure Matched (J : WireJson) (wild : Decimal → Int) (t : Transport) : Prop where
  next : t.client.nextId = t.calls.length
  ids : ∀ (i : Nat) (call : Call), t.calls[i]? = some call → call.id = i
  accounts : Mailbox.Accounts maxPending (numbered J wild t.handled) t.client.pending
    (answers t.calls)

theorem answer?_of_not_returned {call : Call} (h : call.phase = .writing ∨ call.phase = .waiting) :
    call.answer? = none := by
  rcases h with h | h <;> rw [Call.answer?, h]

theorem answers_set {calls : List Call} {i : Nat} {old new : Call} (hcall : calls[i]? = some old)
    (hold : old.answer? = none) (hnew : new.answer? = none) :
    answers (calls.set i new) = answers calls :=
  filterMap_set_of_eq hcall (by simp only [hold, hnew, Option.map_none])

theorem answer?_ite (p : Prop) [Decidable p] (command : Command) (id : Int) (off : Nat)
    {a b : Phase} (ha : a = .writing) (hb : b = .waiting ∨ b = .returned none) :
    ({ command, id, off, phase := if p then a else b } : Call).answer? = none := by
  rcases hb with rfl | rfl <;> split_ifs <;> simp [Call.answer?, ha]

theorem numbered_concat (lines : List (List UInt8)) (line : List UInt8) :
    numbered J wild (lines ++ [line]) =
      numbered J wild lines ++ ((messageId J wild line).map (⟨·, line⟩)).toList := by
  rw [numbered, List.filterMap_append]
  cases hid : messageId J wild line <;> simp [numbered, hid]

theorem Matched.move (h : Matched J wild t) (hmove : Move J wild t event t') : Matched J wild t' := by
  obtain ⟨hnext, hids, haccounts⟩ := h
  cases hmove with
  | stays => exact ⟨hnext, hids, haccounts⟩
  | opens command halive =>
    refine ⟨?_, ?_, ?_⟩
    · rw [List.length_append, List.length_singleton, Nat.cast_add, ← hnext]
      rfl
    · exact forall_getElem?_concat hids hnext
    · have hnone : answers [{
          command, id := t.client.nextId, off := 0,
          phase := if (commandLine J command t.client.nextId).isSome then Phase.writing
            else .returned none }] = [] := by
        rw [answers, List.filterMap_cons, answer?_ite _ _ _ _ rfl (Or.inr rfl)]
        rfl
      have hconcat : ∀ call, answers (t.calls ++ [call]) = answers t.calls ++ answers [call] :=
        fun call => List.filterMap_append
      rw [hconcat, hnone, List.append_nil]
      exact haccounts
  | writes _ i call n hcall hphase hn hle =>
    refine ⟨by rw [List.length_set]; exact hnext, forall_getElem?_set hids (hids i call hcall), ?_⟩
    rw [answers_set hcall (answer?_of_not_returned (Or.inl hphase))
      (answer?_ite _ _ _ _ rfl (Or.inl rfl))]
    exact haccounts
  | ends _ i call dead hcall hphase hdead =>
    refine ⟨by rw [List.length_set]; exact hnext, forall_getElem?_set hids (hids i call hcall), ?_⟩
    rw [answers_set hcall (answer?_of_not_returned (hphase.imp_left And.left)) rfl]
    exact haccounts
  | takes _ i call e hcall hphase hfind =>
    refine ⟨by rw [List.length_set]; exact hnext, forall_getElem?_set hids (hids i call hcall), ?_⟩
    have hid : e.id = call.id := by simpa using List.find?_some hfind
    have hnew : ({ call with phase := .returned (some e.json) } : Call).answer?.map
        (fun json => (call.id, (⟨call.id, json⟩ : CdpPending))) = some (call.id, e) := by
      rw [← hid]
      rfl
    have hold : call.answer?.map (fun json => (call.id, (⟨call.id, json⟩ : CdpPending))) = none := by
      rw [answer?_of_not_returned (Or.inr hphase)]
      rfl
    exact (haccounts.take hfind call.id).perm (filterMap_set_perm hcall hold hnew).symm
  | turns => exact ⟨hnext, hids, haccounts⟩
  | receives => exact ⟨hnext, hids, haccounts⟩
  | handles _ line rest _ _ _ =>
    cases hid : messageId J wild line with
    | none =>
      have hkeep : keep J wild t.client line = t.client := by rw [keep, hid]; rfl
      refine ⟨by rw [hkeep]; exact hnext, hids, ?_⟩
      rw [hkeep, numbered_concat, hid, Option.map_none, Option.toList_none, List.append_nil]
      exact haccounts
    | some id =>
      have hkeep : keep J wild t.client line = cdpStoreResponse t.client id line := by
        rw [keep, hid]
        rfl
      refine ⟨by rw [hkeep]; exact hnext, hids, ?_⟩
      rw [hkeep, numbered_concat, hid]
      exact haccounts.deposit ⟨id, line⟩
  | closes => exact ⟨hnext, hids, haccounts⟩

theorem Run.matched (h : Run J wild t) : Matched J wild t :=
  h.invariant ⟨rfl, by simp [start], Mailbox.Accounts.nil _⟩ fun _ _ _ => Matched.move

theorem mem_numbered {lines : List (List UInt8)} {e : CdpPending} :
    e ∈ numbered J wild lines ↔ e.json ∈ lines ∧ messageId J wild e.json = some e.id := by
  obtain ⟨id, json⟩ := e
  simp only [numbered, List.mem_filterMap, Option.map_eq_some_iff, CdpPending.mk.injEq]
  constructor
  · rintro ⟨line, hmem, id', hid, rfl, rfl⟩
    exact ⟨hmem, hid⟩
  · rintro ⟨hmem, hid⟩
    exact ⟨json, hmem, id, hid, rfl, rfl⟩

/-- **Whatever the calls and the reader do between each other: every call has a number of its own,
each is answered with a message of the browser that has this number, and no message is given out
twice or kept after it was given out.** -/
theorem answers_match (h : Run J wild t) :
    (∀ (i : Nat) (call : Call), t.calls[i]? = some call → call.id = i) ∧
      (∀ call ∈ t.calls, ∀ line, call.answer? = some line →
        line ∈ t.handled ∧ messageId J wild line = some call.id) ∧
      (t.client.pending.map (·.json) ++ t.calls.filterMap Call.answer?).Subperm t.handled := by
  obtain ⟨hnext, hids, haccounts⟩ := h.matched
  have hsub := haccounts.subperm
  refine ⟨hids, fun call hmem line hanswer => ?_, ?_⟩
  · have hin : (⟨call.id, line⟩ : CdpPending) ∈ (answers t.calls).map Prod.snd :=
      List.mem_map.mpr ⟨(call.id, ⟨call.id, line⟩),
        mem_answers.mpr ⟨call, hmem, line, hanswer, rfl, rfl⟩, rfl⟩
    exact mem_numbered.mp (hsub.subset (List.mem_append_right _ hin))
  · obtain ⟨part, hperm, hpart⟩ := hsub
    have hjson : ((t.client.pending ++ (answers t.calls).map Prod.snd).map (·.json)).Subperm
        ((numbered J wild t.handled).map (·.json)) := ⟨_, hperm.map _, hpart.map _⟩
    have hanswers : ((answers t.calls).map Prod.snd).map (·.json) =
        t.calls.filterMap Call.answer? := by
      rw [answers, List.map_map, List.map_filterMap]
      congr 1
      funext call
      cases call.answer? <;> rfl
    have hnumbered : ((numbered J wild t.handled).map (·.json)).Sublist t.handled := by
      rw [numbered, List.map_filterMap]
      induction t.handled with
      | nil => exact List.Sublist.refl _
      | cons line lines ih =>
        rw [List.filterMap_cons]
        cases messageId J wild line with
        | none => exact ih.cons line
        | some id => exact ih.cons_cons line
    rw [List.map_append, hanswers] at hjson
    exact hjson.trans hnumbered.subperm

theorem answers_shortExchange : ∃ t, Run shortJson (fun _ => 0) t ∧
    t.calls.filterMap Call.answer? = [ascii "\x7b\"id\":0\x7d"] ∧
      (∀ (i : Nat) (call : Call), t.calls[i]? = some call → call.id = i) ∧
      (∀ call ∈ t.calls, ∀ line, call.answer? = some line →
        line ∈ t.handled ∧ messageId shortJson (fun _ => 0) line = some call.id) ∧
      (t.client.pending.map (·.json) ++ t.calls.filterMap Call.answer?).Subperm t.handled := by
  obtain ⟨t, hrun, hview⟩ := exists_runs_of_foldlM (step shortJson fun _ => 0) (fun _ _ => True)
    (fun t => t.calls.filterMap Call.answer?) start (shortExchange ++ [.look 0])
    [ascii "\x7b\"id\":0\x7d"] (by decide +kernel)
  exact ⟨t, hrun, hview, answers_match hrun⟩

/-- **A call that waits takes the first message with its number when it looks, unless 32 numbered
messages have come behind it.** -/
theorem look_answers (h : Run J wild t) {i : Nat} {call : Call} {line : List UInt8}
    {before after : List (List UInt8)} (hcall : t.calls[i]? = some call)
    (hwait : call.phase = .waiting) (halive : t.client.dead = false)
    (hhandled : t.handled = before ++ line :: after) (hid : messageId J wild line = some call.id)
    (hfirst : ∀ l ∈ before, messageId J wild l ≠ some call.id)
    (hfew : (numbered J wild after).length < maxPending) :
    ∃ t', step J wild t (.look i) = some t' ∧
      (t'.calls[i]?).bind Call.answer? = some line := by
  obtain ⟨hnext, hids, haccounts⟩ := h.matched
  have hnumbered : numbered J wild t.handled =
      numbered J wild before ++ ⟨call.id, line⟩ :: numbered J wild after := by
    rw [hhandled, numbered, List.filterMap_append, List.filterMap_cons, hid]
    rfl
  have hfind : t.client.pending.find? (·.id = call.id) = some ⟨call.id, line⟩ := by
    refine haccounts.find?_eq hnumbered hfew (decide_eq_true rfl) ?_ ?_
    · intro e he
      obtain ⟨hmem, hnum⟩ := mem_numbered.mp he
      refine decide_eq_false fun heq => hfirst e.json hmem ?_
      rw [hnum, heq]
    · intro k e he
      obtain ⟨other, hmem, json, hanswer, rfl, rfl⟩ := mem_answers.mp he
      refine decide_eq_false fun heq => ?_
      -- A call with the same number is the same call, which waits.
      obtain ⟨j, hj⟩ := List.mem_iff_getElem?.mp hmem
      have hij : j = i := by
        have hj' := hids j other hj
        have hi' := hids i call hcall
        have hnum : other.id = call.id := heq
        omega
      rw [hij, hcall] at hj
      obtain rfl := Option.some.inj hj
      rw [answer?_of_not_returned (Or.inr hwait)] at hanswer
      exact absurd hanswer (by simp)
  refine ⟨{ t with
    client := { t.client with pending := t.client.pending.eraseP (·.id = call.id) }
    calls := t.calls.set i { call with phase := .returned (some line) } }, ?_, ?_⟩
  · rw [step, hcall, Option.bind_some, callStep, if_pos hwait, halive]
    simp only [Bool.false_eq_true, if_false, hfind]
  · have hlt := (List.getElem?_eq_some_iff.mp hcall).1
    rw [List.getElem?_set_self hlt]
    rfl

theorem look_shortExchange : ∃ t t', Run shortJson (fun _ => 0) t ∧
    step shortJson (fun _ => 0) t (.look 0) = some t' ∧
      (t'.calls[0]?).bind Call.answer? = some (ascii "\x7b\"id\":0\x7d") := by
  obtain ⟨t, hrun, hview⟩ := run_shortExchange
  simp only [Prod.mk.injEq] at hview
  obtain ⟨halive, hhandled, hcalls⟩ := hview
  obtain ⟨call, rest, hcall, hids, -⟩ := List.map_eq_cons_iff.mp hcalls
  rw [Prod.mk.injEq] at hids
  have hget : t.calls[0]? = some call := by rw [hcall]; rfl
  have hid : messageId shortJson (fun _ => 0) (ascii "\x7b\"id\":0\x7d") = some call.id := by
    rw [hids.1]
    decide +kernel
  have hfirst : t.handled = [] ++ ascii "\x7b\"id\":0\x7d" :: [] := hhandled
  obtain ⟨t', hstep, hanswer⟩ :=
    look_answers hrun hget hids.2 halive hfirst hid (by simp) (by decide)
  exact ⟨t, t', hrun, hstep, hanswer⟩

/-! ## Commands -/

/-- What is written of a call. -/
def Call.written (J : WireJson) (call : Call) : List UInt8 := (call.framed J).take call.off

/-- Whether a call is written to its end. -/
def Call.isWritten (J : WireJson) (call : Call) : Prop := call.off = (call.framed J).length

instance (call : Call) : Decidable (call.isWritten J) := inferInstanceAs (Decidable (_ = _))

/-- Nobody calls while somebody writes. -/
def OneWriter (t : Transport) : Event → Prop
  | .call _ => ∀ call ∈ t.calls, call.phase ≠ .writing
  | _ => True

instance (t : Transport) (event : Event) : Decidable (OneWriter t event) :=
  match event with
  | .call _ => inferInstanceAs (Decidable (∀ call ∈ t.calls, call.phase ≠ .writing))
  | .write _ _ | .writeFails _ | .look _ | .timeOut _ | .check | .quiet | .readFails | .receive _ _
  | .frame _ | .close => inferInstanceAs (Decidable True)

/-- The pipe holds what is written of the calls, of which only the last may not be at its end. -/
structure Sent (J : WireJson) (calls : List Call) (sent : List UInt8) (dead : Bool) : Prop where
  sent : sent = calls.flatMap (Call.written J)
  le : ∀ call ∈ calls, call.off ≤ (call.framed J).length
  whole : ∀ (i : Nat) (call : Call), calls[i]? = some call → i + 1 < calls.length → call.isWritten J
  ended : ∀ (i : Nat) (call : Call), calls[i]? = some call → call.phase ≠ .writing →
    dead = true ∨ call.isWritten J

variable {calls : List Call} {sent : List UInt8} {dead : Bool}

theorem framed_eq {call new : Call} (hcommand : new.command = call.command) (hid : new.id = call.id) :
    new.framed J = call.framed J := by
  rw [Call.framed, Call.framed, Call.line, Call.line, hcommand, hid]

/-- A call goes on, and writes nothing. -/
theorem Sent.set {i : Nat} {call : Call} {phase : Phase} {dead' : Bool} (h : Sent J calls sent dead)
    (hcall : calls[i]? = some call) (hdead : dead = true → dead' = true)
    (hended : dead' = true ∨ call.isWritten J) :
    Sent J (calls.set i { call with phase }) sent dead' := by
  obtain ⟨hsent, hle, hwhole, hold⟩ := h
  have hsame : (calls.set i { call with phase }).map (Call.written J) = calls.map (Call.written J) := by
    have hset := filterMap_set_of_eq (f := some ∘ Call.written J) (a := { call with phase }) hcall rfl
    rwa [List.filterMap_eq_map] at hset
  refine ⟨?_, forall_mem_set hle (hle call (List.mem_of_getElem? hcall)), ?_, ?_⟩
  · rw [hsent, List.flatMap_def, List.flatMap_def, hsame]
  · rw [List.length_set]
    exact forall_getElem?_set hwhole (hwhole i call hcall)
  · exact forall_getElem?_set (fun j other hj hphase => (hold j other hj hphase).imp_left hdead)
      fun _ => hended

/-- The call that has begun last writes. -/
theorem Sent.write {i n : Nat} {call : Call} {phase : Phase} (h : Sent J calls sent dead)
    (hcall : calls[i]? = some call) (hn : 0 < n) (hle : call.off + n ≤ (call.framed J).length)
    (hphase : phase ≠ .writing → call.off + n = (call.framed J).length) :
    Sent J (calls.set i { call with off := call.off + n, phase })
      (sent ++ ((call.framed J).drop call.off).take n) dead := by
  obtain ⟨hsent, hlen, hwhole, hold⟩ := h
  have hlt := (List.getElem?_eq_some_iff.mp hcall).1
  have hlast : i + 1 = calls.length := by
    by_contra hne
    have hwritten : call.off = (call.framed J).length := hwhole i call hcall (by omega)
    omega
  have hcalls : calls = calls.take i ++ [call] := by
    conv_lhs => rw [← List.take_append_drop i calls, List.drop_eq_getElem_cons hlt]
    rw [List.drop_eq_nil_of_le (by omega), (List.getElem?_eq_some_iff.mp hcall).2]
  refine ⟨?_, forall_mem_set hlen hle, ?_, ?_⟩
  · have hset : ∀ new, calls.set i new = calls.take i ++ [new] := by
      intro new
      rw [List.set_eq_take_append_cons_drop, if_pos hlt, List.drop_eq_nil_of_le (by omega)]
    rw [hset, List.flatMap_append, hsent]
    conv_lhs => rw [hcalls, List.flatMap_append]
    rw [List.flatMap_singleton, List.flatMap_singleton, List.append_assoc]
    congr 1
    exact List.take_add.symm
  · rw [List.length_set]
    refine forall_getElem?_set hwhole fun hbefore => ?_
    omega
  · exact forall_getElem?_set hold fun hended => Or.inr (hphase hended)

theorem Sent.open {command : Command} {id : Int} {phase : Phase} (h : Sent J calls sent false)
    (hidle : ∀ call ∈ calls, call.phase ≠ .writing)
    (hphase : phase ≠ .writing → commandLine J command id = none) :
    Sent J (calls ++ [{ command, id, off := 0, phase }]) sent false := by
  obtain ⟨hsent, hle, hwhole, hold⟩ := h
  have hwritten : ∀ (i : Nat) (call : Call), calls[i]? = some call → call.isWritten J :=
    fun i call hcall => (hold i call hcall (hidle call (List.mem_of_getElem? hcall))).resolve_left (by simp)
  refine ⟨?_, ?_, ?_, ?_⟩
  · rw [hsent, List.flatMap_append, List.flatMap_singleton]
    exact (List.append_nil _).symm
  · simpa [or_imp, forall_and] using hle
  · rw [List.length_append, List.length_singleton]
    refine forall_getElem?_concat (fun i call hcall _ => hwritten i call hcall) fun hlt => ?_
    omega
  · refine forall_getElem?_concat (fun i call hcall _ => Or.inr (hwritten i call hcall))
      fun hended => Or.inr ?_
    rw [Call.isWritten, Call.framed, Call.line, hphase hended]
    rfl

theorem Sent.move (h : Sent J t.calls t.sent t.client.dead) (hone : OneWriter t event)
    (hmove : Move J wild t event t') : Sent J t'.calls t'.sent t'.client.dead := by
  cases hmove with
  | stays => exact h
  | opens command halive =>
    rw [halive] at h
    have hphase : (if (commandLine J command t.client.nextId).isSome then Phase.writing
        else .returned none) ≠ .writing → commandLine J command t.client.nextId = none := by
      intro hne
      cases hline : commandLine J command t.client.nextId with
      | none => rfl
      | some line => exact absurd (by rw [hline]; rfl) hne
    have hopen := h.open hone hphase
    rw [← halive] at hopen
    exact hopen
  | writes _ i call n hcall hphase hn hle =>
    refine h.write hcall hn hle fun hended => ?_
    by_contra hne
    exact hended (if_pos (by omega))
  | ends _ i call dead hcall hphase hdead =>
    refine h.set hcall hdead ?_
    rcases hphase with ⟨-, hdead'⟩ | hwait
    · exact Or.inl hdead'
    · exact (h.ended i call hcall (by simp [hwait])).imp_left hdead
  | takes _ i call e hcall hwait hfind =>
    exact h.set hcall id (h.ended i call hcall (by simp [hwait]))
  | turns _ reader dead _ _ hdead =>
    exact ⟨h.sent, h.le, h.whole,
      fun i call hcall hphase => (h.ended i call hcall hphase).imp_left hdead⟩
  | receives => exact h
  | handles => exact ⟨h.sent, h.le, h.whole, by simpa using h.ended⟩
  | closes => exact ⟨h.sent, h.le, h.whole, fun i call hcall hphase => Or.inl rfl⟩

theorem noNul_line {call : Call} {line : List UInt8} (h : call.line J = some line) : 0 ∉ line := by
  obtain ⟨text, -, rfl⟩ := Option.map_eq_some_iff.mp h
  exact noNul_cString _

/-- What is on the pipe of calls that are written to their ends. -/
theorem flatMap_written {calls : List Call} (h : ∀ call ∈ calls, call.isWritten J) :
    calls.flatMap (Call.written J) = (calls.filterMap (Call.line J)).flatMap (· ++ [0]) := by
  induction calls with
  | nil => rfl
  | cons call calls ih =>
    have hcall : call.written J = call.framed J := by
      rw [Call.written, h call List.mem_cons_self, List.take_length]
    rw [List.flatMap_cons, hcall, ih fun c hc => h c (List.mem_cons_of_mem call hc),
      List.filterMap_cons, Call.framed]
    cases call.line J <;> rfl

/-- A command that is not written to its end is no message yet. -/
theorem messages_written {call : Call} (hle : call.off ≤ (call.framed J).length)
    (h : ¬call.isWritten J) : messages (call.written J) = [] := by
  refine messages_of_notMem fun hmem => ?_
  rw [Call.isWritten] at h
  rw [Call.written] at hmem
  cases hline : call.line J with
  | none =>
    rw [Call.framed, hline] at hmem
    simp at hmem
  | some line =>
    have hframed : call.framed J = line ++ [0] := by rw [Call.framed, hline]; rfl
    rw [hframed, List.length_append, List.length_singleton] at hle h
    rw [hframed, List.take_append_of_le_length (by omega)] at hmem
    exact noNul_line hline (List.mem_of_mem_take hmem)

/-- **When nobody calls while somebody writes, the browser receives whole commands in the order of
their numbers: those that are written to their ends, which is all of them while the connection lives
and nobody writes.** -/
theorem messages_sent (h : Runs (step J wild) OneWriter start t) :
    messages t.sent = (t.calls.filter (fun call => call.isWritten J)).filterMap (Call.line J) ∧
      (t.client.dead = false → (∀ call ∈ t.calls, call.phase ≠ .writing) →
        messages t.sent = t.calls.filterMap (Call.line J)) := by
  obtain ⟨hsent, hle, hwhole, hended⟩ : Sent J t.calls t.sent t.client.dead := by
    refine Runs.invariant (I := fun t => Sent J t.calls t.sent t.client.dead) ?_ ?_ h
    · exact ⟨rfl, by simp [start], by simp [start], by simp [start]⟩
    · exact fun _ _ _ hok hI hstep => hI.move hok (move_of_step hstep)
  have hall : messages t.sent =
      (t.calls.filter (fun call => call.isWritten J)).filterMap (Call.line J) := by
    rcases List.eq_nil_or_concat t.calls with hnil | ⟨init, last, hcalls⟩
    · rw [hsent, hnil]
      rfl
    · rw [List.concat_eq_append] at hcalls
      have hinit : ∀ call ∈ init, call.isWritten J := by
        intro call hmem
        obtain ⟨i, hi⟩ := List.mem_iff_getElem?.mp hmem
        have hlt := (List.getElem?_eq_some_iff.mp hi).1
        refine hwhole i call ?_ ?_
        · rw [hcalls, List.getElem?_append_left hlt, hi]
        · rw [hcalls, List.length_append, List.length_singleton]
          omega
      have hlines : ∀ line ∈ init.filterMap (Call.line J), 0 ∉ line := by
        intro line hmem
        obtain ⟨call, -, hline⟩ := List.mem_filterMap.mp hmem
        exact noNul_line hline
      have hfilter : init.filter (fun call => call.isWritten J) = init :=
        List.filter_eq_self.mpr fun call hmem => decide_eq_true (hinit call hmem)
      rw [hsent, hcalls, List.flatMap_append, flatMap_written hinit, messages_flatMap hlines,
        List.filter_append, List.filterMap_append, hfilter, List.flatMap_singleton]
      congr 1
      by_cases hlast : last.isWritten J
      · have hone : ∀ call ∈ [last], call.isWritten J := by simpa using hlast
        have hnul : ∀ line ∈ [last].filterMap (Call.line J), 0 ∉ line := by
          intro line hmem
          obtain ⟨call, -, hline⟩ := List.mem_filterMap.mp hmem
          exact noNul_line hline
        have heq := messages_flatMap hnul []
        rw [List.append_nil, ← flatMap_written hone, List.flatMap_singleton] at heq
        rw [heq, List.filter_cons_of_pos (by simpa using hlast)]
        exact List.append_nil _
      · rw [messages_written (hle last (hcalls ▸ List.mem_append_right init List.mem_cons_self)) hlast,
          List.filter_cons_of_neg (by simpa using hlast)]
        rfl
  refine ⟨hall, fun halive hidle => ?_⟩
  have hwritten : t.calls.filter (fun call => call.isWritten J) = t.calls := by
    refine List.filter_eq_self.mpr fun call hmem => decide_eq_true ?_
    obtain ⟨i, hi⟩ := List.mem_iff_getElem?.mp hmem
    exact (hended i call hi (hidle call hmem)).resolve_left (by simp [halive])
  rw [hall, hwritten]

theorem messages_shortExchange : ∃ t, Runs (step shortJson fun _ => 0) OneWriter start t ∧
    messages t.sent = [ascii "\x7b\"id\":0,\"method\":\"m\"\x7d"] ∧
      messages t.sent =
        (t.calls.filter (fun call => call.isWritten shortJson)).filterMap (Call.line shortJson) ∧
      (t.client.dead = false → (∀ call ∈ t.calls, call.phase ≠ .writing) →
        messages t.sent = t.calls.filterMap (Call.line shortJson)) := by
  obtain ⟨t, hrun, hview⟩ := exists_runs_of_foldlM (step shortJson fun _ => 0) OneWriter
    (fun t => messages t.sent) start shortExchange
    [ascii "\x7b\"id\":0,\"method\":\"m\"\x7d"] (by decide +kernel)
  exact ⟨t, hrun, hview, messages_sent hrun⟩

end EchoAi.Cdp
