import EchoAi.Llm.OauthSystem

/-!
# Credentials after a logout

Logins and refreshes go on while others stop them, and each checks under the lock whether it still may
keep what it has got.

* `StaysOut`: no credentials of a login or refresh that began before a completed lifecycle operation.
* `Orderly`: no login begins while a lifecycle operation is under way, and no generation comes back
  while an operation carries it.
* `Guarded`: what such steps keep; `Gentle` is what most sections do to the state.
* `staysOut_of_runs`: after orderly runs the log has the law, one refresh at most is in its exchange,
  and so is one login at most that nothing has superseded.
-/

namespace EchoAi.Oauth

/-! ## What an operation is about -/

/-- Whether a callback thread is in its network exchange, or still may get there. -/
def CallbackPhase.mayExchange : CallbackPhase → Bool
  | .starting => true
  | .serving => true
  | .exchanging => true
  | _ => false

/-- The same of the start of a device login, up to its transaction. -/
def DevicePhase.mayExchange : DevicePhase → Bool
  | .asking => true
  | .asked _ _ => true
  | _ => false

/-- The same of a poll, up to its release. -/
def PollPhase.mayExchange : PollPhase → Bool
  | .asking => true
  | .slowing => true
  | .releasing => true
  | .exchanging => true
  | _ => false

namespace Op

/-- The login and the generation that an operation of a login carries. -/
def flight : Op → Option (Nat × UInt64)
  | .callback login generation _ => some (login, generation)
  | .deviceStart login generation _ => some (login, generation)
  | .poll login generation _ => some (login, generation)
  | _ => none

/-- The number of a refresh. -/
def refreshing : Op → Option Nat
  | .refresh number _ _ => some number
  | _ => none

/-- Whether it is a lifecycle operation. -/
def lifecycle : Op → Bool
  | .stopping _ _ => true
  | .attaching _ => true
  | _ => false

/-- Whether it is a lifecycle operation that has dropped the session. -/
def attached : Op → Bool
  | .attaching _ => true
  | _ => false

/-- Whether an operation of this generation is in its network exchange, or still may get there. -/
def holds (generation : UInt64) : Op → Bool
  | .callback _ own phase => own = generation && phase.mayExchange
  | .deviceStart _ own phase => own = generation && phase.mayExchange
  | .poll _ own phase => own = generation && phase.mayExchange
  | _ => false

/-- Whether a login is in its network exchange. -/
def loginExchanging : Op → Bool
  | .callback _ _ .exchanging => true
  | .deviceStart _ _ .asking => true
  | .poll _ _ .asking => true
  | .poll _ _ .exchanging => true
  | _ => false

/-- Whether a refresh is. -/
def refreshExchanging : Op → Bool
  | .refresh _ _ .exchanging => true
  | _ => false

/-- A login in its exchange that nothing has superseded holds its generation. -/
theorem holds_of_loginExchanging {op : Op} {login : Nat} {generation : UInt64}
    (h : op.loginExchanging = true) (hflight : op.flight = some (login, generation)) :
    op.holds generation = true := by
  cases op with
  | callback n g phase =>
    obtain ⟨rfl, rfl⟩ := Prod.mk.inj (Option.some.inj hflight)
    have hphase : phase.mayExchange = true := by
      cases phase <;> first | rfl | exact absurd h (by simp [loginExchanging])
    rw [holds, hphase, Bool.and_true, decide_eq_true rfl]
  | deviceStart n g phase =>
    obtain ⟨rfl, rfl⟩ := Prod.mk.inj (Option.some.inj hflight)
    have hphase : phase.mayExchange = true := by
      cases phase <;> first | rfl | exact absurd h (by simp [loginExchanging])
    rw [holds, hphase, Bool.and_true, decide_eq_true rfl]
  | poll n g phase =>
    obtain ⟨rfl, rfl⟩ := Prod.mk.inj (Option.some.inj hflight)
    have hphase : phase.mayExchange = true := by
      cases phase <;> first | rfl | exact absurd h (by simp [loginExchanging])
    rw [holds, hphase, Bool.and_true, decide_eq_true rfl]
  | _ => exact absurd h (by simp [loginExchanging])

/-- What holds a generation carries it. -/
theorem exists_flight_of_holds {op : Op} {generation : UInt64} (h : op.holds generation = true) :
    ∃ login, op.flight = some (login, generation) := by
  cases op with
  | callback n g phase =>
    have hown := of_decide_eq_true (Bool.and_eq_true_iff.1 h).1
    exact ⟨n, by rw [flight, hown]⟩
  | deviceStart n g phase =>
    have hown := of_decide_eq_true (Bool.and_eq_true_iff.1 h).1
    exact ⟨n, by rw [flight, hown]⟩
  | poll n g phase =>
    have hown := of_decide_eq_true (Bool.and_eq_true_iff.1 h).1
    exact ⟨n, by rw [flight, hown]⟩
  | _ => exact absurd h (by simp [holds])

end Op

/-- Whether there is a transaction of a device login that no poll is working on. -/
def Manager.freeDevice (m : Manager) : Bool := m.device.any fun d => !d.pollInProgress

/-! ## The law and the condition -/

/-- Whether no lifecycle operation was completed since a login or refresh began. -/
def Clean (log : List Note) (number : Nat) : Prop :=
  ¬[Note.began number, Note.completed].Sublist log

/-- The law: credentials that come after a completed lifecycle operation began after it. -/
def StaysOut (past : List Note) (entry : Note) : Prop :=
  ∀ number, entry = .persisted number ∨ entry = .installed number → Clean past number

/-- Whether no operation of a login carries the next generation. -/
def Unused (st : System) : Prop :=
  ∀ op ∈ st.ops, ∀ login, op.flight ≠ some (login, nextGeneration st.manager.generation)

/-- No login begins while a lifecycle operation is under way, and no generation comes back while an
operation carries it. -/
def Orderly (st : System) : Event → Prop
  | .advance _ (.beginCallback _ _ _) => st.manager.lifecycleBusy = false ∧ Unused st
  | .advance _ (.beginDevice _) => st.manager.lifecycleBusy = false ∧ Unused st
  | .stop _ => Unused st
  | _ => True

theorem clean_append {log more : List Note} {number : Nat} (h : Clean log number)
    (hmore : Note.completed ∉ more) : Clean (log ++ more) number := by
  intro hsub
  obtain ⟨front, rest, heq, hfront, hrest⟩ := List.sublist_append_iff.1 hsub
  rcases List.eq_nil_or_concat rest with rfl | ⟨init, last, rfl⟩
  · rw [List.append_nil] at heq
    exact h (heq ▸ hfront)
  · have hlast : last = Note.completed := by
      have hend := congrArg List.getLast? heq
      rw [List.concat_eq_append, ← List.append_assoc, List.getLast?_concat] at hend
      exact (Option.some.inj hend).symm
    subst hlast
    exact hmore (hrest.subset (by simp))

/-- A login or refresh that begins now. -/
theorem clean_began {log : List Note} {number : Nat} (h : Note.began number ∉ log) :
    Clean (log ++ [.began number]) number := by
  intro hsub
  obtain ⟨front, rest, heq, hfront, hrest⟩ := List.sublist_append_iff.1 hsub
  cases front with
  | nil =>
    rw [List.nil_append] at heq
    have hlength := hrest.length_le
    rw [← heq] at hlength
    exact absurd hlength (by simp)
  | cons entry front =>
    obtain rfl : Note.began number = entry := (List.cons.inj heq).1
    exact h (hfront.subset List.mem_cons_self)

/-! ## What the sections keep -/

/-- What every step of an orderly run keeps. -/
structure Guarded (st : System) : Prop where
  law : Lawful StaysOut st.log
  numbers : ∀ number, Note.began number ∈ st.log → number < st.log.length
  current : ∀ op ∈ st.ops, ∀ number, op.flight = some (number, st.manager.generation) →
    number = st.login ∧ Clean st.log number
  device : st.manager.device.isSome = true → Clean st.log st.login
  refreshing : ∀ op ∈ st.ops, ∀ number, op.refreshing = some number → Clean st.log number
  refreshes : st.ops.countP (fun op => op.refreshing.isSome) = st.manager.refreshInProgress.toNat
  lifecycles : st.ops.countP Op.lifecycle = st.manager.lifecycleBusy.toNat
  busy : st.manager.lifecycleBusy = true → st.manager.device = none ∧
    ∀ op ∈ st.ops, ∀ number, op.flight ≠ some (number, st.manager.generation)
  attached : ∀ op ∈ st.ops, op.attached = true →
    st.manager.session = none ∧ st.manager.refreshInProgress = false
  slots : st.ops.countP (Op.holds st.manager.generation) + st.manager.freeDevice.toNat ≤ 1

/-- A manager that keeps what the guards are about; a device login can only end. -/
structure Mild (m m' : Manager) : Prop where
  generation : m'.generation = m.generation
  lifecycleBusy : m'.lifecycleBusy = m.lifecycleBusy
  session : m'.session = m.session
  refreshInProgress : m'.refreshInProgress = m.refreshInProgress
  device : m'.device.isSome = true → m.device.isSome = true
  freeDevice : m'.freeDevice = true → m.freeDevice = true

/-- An operation that goes on without a new part. -/
structure Fades (op op' : Op) : Prop where
  flight : op'.flight = none ∨ op'.flight = op.flight
  refreshing : op'.refreshing = op.refreshing
  lifecycle : op'.lifecycle = op.lifecycle
  attached : op'.attached = op.attached
  holds : ∀ generation, op'.holds generation = true → op.holds generation = true

/-- What most sections do to the state. -/
structure Gentle (st : System) (op : Op) (mv : Move) : Prop where
  generation : mv.manager.generation = st.manager.generation
  lifecycleBusy : mv.manager.lifecycleBusy = st.manager.lifecycleBusy
  session : mv.manager.session = st.manager.session
  login : mv.login = st.login
  spawned : mv.spawned = none
  device : mv.manager.device.isSome = true → st.manager.device.isSome = true ∨
    ∃ number, op.flight = some (number, st.manager.generation)
  flight : mv.op.flight = none ∨ mv.op.flight = op.flight
  refreshing : mv.op.refreshing = op.refreshing ∧
      mv.manager.refreshInProgress = st.manager.refreshInProgress ∨
    op.refreshing.isSome = true ∧ mv.op.refreshing = none ∧ mv.manager.refreshInProgress = false
  lifecycle : mv.op.lifecycle = op.lifecycle
  attached : mv.op.attached = op.attached
  slots : (mv.op.holds st.manager.generation).toNat + mv.manager.freeDevice.toNat ≤
    (op.holds st.manager.generation).toNat + st.manager.freeDevice.toNat
  notes : ∀ entry ∈ mv.notes, entry ≠ .completed ∧ ∀ number, entry ≠ .began number ∧
    (entry = .persisted number ∨ entry = .installed number → Clean st.log number)

/-- A gentle section keeps the guards. -/
theorem Guarded.gentle {st : System} {i : Nat} {op : Op} {mv : Move} (h : Guarded st)
    (hop : st.ops[i]? = some op) (hmv : Gentle st op mv) :
    Guarded (st.behind (st.ops.set i mv.op) mv) := by
  have hmem : op ∈ st.ops := List.mem_of_getElem? hop
  have hcompleted : Note.completed ∉ mv.notes := fun hmem => (hmv.notes _ hmem).1 rfl
  have hclean : ∀ number, Clean st.log number → Clean (st.log ++ mv.notes) number :=
    fun number hnumber => clean_append hnumber hcompleted
  have hcurrent : ∀ number, mv.op.flight = some (number, st.manager.generation) →
      op.flight = some (number, st.manager.generation) := by
    intro number hflight
    rcases hmv.flight with hnone | hsame
    · exact absurd (hnone.symm.trans hflight) (by simp)
    · exact hsame ▸ hflight
  rw [System.behind_of_spawned hmv.spawned]
  refine ⟨?_, ?_, ?_, ?_, ?_, ?_, ?_, ?_, ?_, ?_⟩
  · refine h.law.extend fun past entry rest heq number hentry => ?_
    have hentries : ∀ a ∈ past ++ entry :: rest, a ∈ mv.notes := fun a ha => heq ▸ ha
    have hin : entry ∈ mv.notes := hentries entry (by simp)
    refine clean_append (((hmv.notes entry hin).2 number).2 hentry) fun hpast => ?_
    exact hcompleted (hentries _ (List.mem_append_left _ hpast))
  · intro number hbegan
    have hlength : st.log.length ≤ (st.log ++ mv.notes).length := by
      rw [List.length_append]
      omega
    rcases List.mem_append.1 hbegan with hbegan | hbegan
    · exact Nat.lt_of_lt_of_le (h.numbers number hbegan) hlength
    · exact absurd rfl ((hmv.notes _ hbegan).2 number).1
  · rw [hmv.generation, hmv.login]
    refine forall_mem_set (fun op hop number hflight => ?_) fun number hflight => ?_
    · exact (h.current op hop number hflight).imp id (hclean number)
    · exact (h.current op hmem number (hcurrent number hflight)).imp id (hclean number)
  · intro hdevice
    show Clean (st.log ++ mv.notes) mv.login
    rw [hmv.login]
    refine hclean _ ?_
    rcases hmv.device hdevice with hold | ⟨number, hflight⟩
    · exact h.device hold
    · obtain ⟨rfl, hnumber⟩ := h.current op hmem number hflight
      exact hnumber
  · refine forall_mem_set (fun op hop number hnumber => ?_) fun number hnumber => ?_
    · exact hclean number (h.refreshing op hop number hnumber)
    · rcases hmv.refreshing with ⟨hsame, -⟩ | ⟨-, hnone, -⟩
      · exact hclean number (h.refreshing op hmem number (hsame ▸ hnumber))
      · exact absurd (hnone.symm.trans hnumber) (by simp)
  · have hcount := countP_set_add (p := fun op => op.refreshing.isSome) (a := mv.op) hop
    have hrefreshes := h.refreshes
    show (st.ops.set i mv.op).countP (fun op => op.refreshing.isSome) =
      mv.manager.refreshInProgress.toNat
    rcases hmv.refreshing with ⟨hsame, hprogress⟩ | ⟨hold, hnone, hprogress⟩
    · rw [hsame] at hcount
      rw [hprogress]
      omega
    · have hle : st.manager.refreshInProgress.toNat ≤ 1 := Bool.toNat_le _
      rw [hold, hnone] at hcount
      rw [hprogress]
      simp only [Bool.toNat_true, Option.isSome_none, Bool.toNat_false] at hcount ⊢
      omega
  · have hcount := countP_set_add (p := Op.lifecycle) (a := mv.op) hop
    have hlifecycles := h.lifecycles
    rw [hmv.lifecycle] at hcount
    show (st.ops.set i mv.op).countP Op.lifecycle = mv.manager.lifecycleBusy.toNat
    rw [hmv.lifecycleBusy]
    omega
  · intro hbusy
    obtain ⟨hnone, hflights⟩ := h.busy (hmv.lifecycleBusy ▸ hbusy)
    constructor
    · cases hdevice : mv.manager.device with
      | none => rfl
      | some d =>
        rcases hmv.device (by rw [hdevice]; rfl) with hold | ⟨number, hflight⟩
        · rw [hnone] at hold
          exact absurd hold (by simp)
        · exact absurd hflight (hflights op hmem number)
    · show ∀ op ∈ st.ops.set i mv.op, ∀ number, op.flight ≠ some (number, mv.manager.generation)
      rw [hmv.generation]
      exact forall_mem_set hflights fun number hflight =>
        hflights op hmem number (hcurrent number hflight)
  · have hprogress : st.manager.refreshInProgress = false → mv.manager.refreshInProgress = false := by
      intro hfalse
      rcases hmv.refreshing with ⟨-, hsame⟩ | ⟨-, -, hnone⟩
      · exact hsame.trans hfalse
      · exact hnone
    have hkept : ∀ op ∈ st.ops, op.attached = true →
        mv.manager.session = none ∧ mv.manager.refreshInProgress = false := fun op hop hattached =>
      (h.attached op hop hattached).imp hmv.session.trans hprogress
    exact forall_mem_set hkept fun hattached => hkept op hmem (hmv.attached ▸ hattached)
  · have hcount := countP_set_add (p := Op.holds st.manager.generation) (a := mv.op) hop
    have hslots := h.slots
    have hmove := hmv.slots
    show (st.ops.set i mv.op).countP (Op.holds mv.manager.generation) +
      mv.manager.freeDevice.toNat ≤ 1
    rw [hmv.generation]
    omega

/-! ## Sections that keep the guards -/

namespace Mild

variable {m : Manager}

theorem refl (m : Manager) : Mild m m := ⟨rfl, rfl, rfl, rfl, id, id⟩

theorem setErrorLocked (m : Manager) (message : String) : Mild m (m.setErrorLocked message) :=
  ⟨rfl, rfl, rfl, rfl, id, id⟩

theorem setErrorOf (m : Manager) (generation : UInt64) (message : String) :
    Mild m (m.setErrorOf generation message) := by
  rw [Manager.setErrorOf]
  split
  · exact setErrorLocked m message
  · exact refl m

/-- Where there is no transaction of a device login. -/
theorem of_device {m' : Manager} (hgeneration : m'.generation = m.generation)
    (hbusy : m'.lifecycleBusy = m.lifecycleBusy) (hsession : m'.session = m.session)
    (hrefresh : m'.refreshInProgress = m.refreshInProgress) (hdevice : m'.device = none) :
    Mild m m' where
  generation := hgeneration
  lifecycleBusy := hbusy
  session := hsession
  refreshInProgress := hrefresh
  device h := by
    rw [hdevice] at h
    exact absurd h Bool.false_ne_true
  freeDevice h := by
    rw [Manager.freeDevice, hdevice] at h
    exact absurd h Bool.false_ne_true

theorem clearPendingSensitiveLocked (m : Manager) : Mild m m.clearPendingSensitiveLocked :=
  of_device rfl rfl rfl rfl rfl

theorem callbackPublishFailure (m : Manager) (generation : UInt64) :
    Mild m (m.callbackPublishFailure generation) := by
  rw [Manager.callbackPublishFailure]
  split
  · exact ⟨rfl, rfl, rfl, rfl, id, id⟩
  · exact refl m

theorem callbackFinish (m : Manager) (generation : UInt64) (timedOut : Bool) :
    Mild m (m.callbackFinish generation timedOut) := by
  rw [Manager.callbackFinish]
  split
  · dsimp only
    split <;> exact of_device rfl rfl rfl rfl rfl
  · exact refl m

theorem deviceStartFailed (m : Manager) (generation : UInt64) (message : String) :
    Mild m (m.deviceStartFailed generation message) := by
  rw [Manager.deviceStartFailed]
  split
  · exact of_device rfl rfl rfl rfl rfl
  · exact refl m

theorem devicePollFinished (m : Manager) (generation : UInt64) (result : DeviceResult) :
    Mild m (m.devicePollFinished generation result) := by
  rw [Manager.devicePollFinished]
  split
  · dsimp only
    split
    · exact of_device rfl rfl rfl rfl rfl
    · split <;> exact of_device rfl rfl rfl rfl rfl
  · exact refl m

theorem deviceSlowDown (m : Manager) (generation : UInt64) (now : Nat) :
    Mild m (m.deviceSlowDown generation now) := by
  rw [Manager.deviceSlowDown]
  split
  · refine ⟨rfl, rfl, rfl, rfl, fun h => ?_, fun h => ?_⟩
    · rwa [Option.isSome_map] at h
    · cases hdevice : m.device with
      | none =>
        rw [Manager.freeDevice, hdevice] at h
        exact absurd h Bool.false_ne_true
      | some d =>
        have hsame : (Manager.slowDown d now).pollInProgress = d.pollInProgress := by
          rw [Manager.slowDown]
          split <;> rfl
        rw [Manager.freeDevice, hdevice, Option.map_some, Option.any_some, hsame] at h
        rw [Manager.freeDevice, hdevice]
        exact h
  · exact refl m

theorem startCleanup (m : Manager) : Mild m m.startCleanup := of_device rfl rfl rfl rfl rfl

end Mild

namespace Fades

theorem callback {login : Nat} {generation : UInt64} {phase phase' : CallbackPhase}
    (h : phase'.mayExchange = true → phase.mayExchange = true) :
    Fades (.callback login generation phase) (.callback login generation phase') :=
  ⟨Or.inr rfl, rfl, rfl, rfl, fun _ hholds => Bool.and_eq_true_iff.2
    ((Bool.and_eq_true_iff.1 hholds).imp id h)⟩

theorem deviceStart {login : Nat} {generation : UInt64} {phase phase' : DevicePhase}
    (h : phase'.mayExchange = true → phase.mayExchange = true) :
    Fades (.deviceStart login generation phase) (.deviceStart login generation phase') :=
  ⟨Or.inr rfl, rfl, rfl, rfl, fun _ hholds => Bool.and_eq_true_iff.2
    ((Bool.and_eq_true_iff.1 hholds).imp id h)⟩

theorem poll {login : Nat} {generation : UInt64} {phase phase' : PollPhase}
    (h : phase'.mayExchange = true → phase.mayExchange = true) :
    Fades (.poll login generation phase) (.poll login generation phase') :=
  ⟨Or.inr rfl, rfl, rfl, rfl, fun _ hholds => Bool.and_eq_true_iff.2
    ((Bool.and_eq_true_iff.1 hholds).imp id h)⟩

/-- The end of an operation that is no refresh and no lifecycle operation. -/
theorem ended {op : Op} (hrefreshing : op.refreshing = none) (hlifecycle : op.lifecycle = false)
    (hattached : op.attached = false) : Fades op .ended :=
  ⟨Or.inl rfl, hrefreshing.symm, hlifecycle.symm, hattached.symm,
    fun _ hholds => absurd hholds Bool.false_ne_true⟩

end Fades

/-- An entry that the law is not about. -/
def Quiet (entry : Note) : Prop :=
  entry ≠ .completed ∧ ∀ number, entry ≠ .began number ∧ entry ≠ .persisted number ∧
    entry ≠ .installed number

/-- A mild section of an operation that fades. -/
theorem Mild.gentle {st : System} {op : Op} {mv : Move} (hm : Mild st.manager mv.manager)
    (hop : Fades op mv.op) (hlogin : mv.login = st.login) (hspawned : mv.spawned = none)
    (hnotes : ∀ entry ∈ mv.notes, entry ≠ .completed ∧ ∀ number, entry ≠ .began number ∧
      (entry = .persisted number ∨ entry = .installed number → Clean st.log number)) :
    Gentle st op mv where
  generation := hm.generation
  lifecycleBusy := hm.lifecycleBusy
  session := hm.session
  login := hlogin
  spawned := hspawned
  device h := Or.inl (hm.device h)
  flight := hop.flight
  refreshing := Or.inl ⟨hop.refreshing, hm.refreshInProgress⟩
  lifecycle := hop.lifecycle
  attached := hop.attached
  slots := Nat.add_le_add (toNat_le_toNat (hop.holds st.manager.generation))
    (toNat_le_toNat hm.freeDevice)
  notes := hnotes

theorem gentle_move {st : System} {op op' : Op} {m : Manager} {notes : List Note}
    (hm : Mild st.manager m) (hop : Fades op op') (hnotes : ∀ entry ∈ notes, Quiet entry) :
    Gentle st op (st.move m op' notes) :=
  hm.gentle hop rfl rfl fun entry hentry => (hnotes entry hentry).imp id fun hquiet number =>
    ⟨(hquiet number).1, fun hkept => absurd hkept (not_or.2 (hquiet number).2)⟩

/-- Credentials that are kept are those of a number that is clean. -/
theorem notes_of_keep {st : System} {number : Nat} {staged : Credentials} {ok : Bool} {mv : Move}
    (h : st.keep number staged ok = some mv) (hclean : Clean st.log number) :
    Mild st.manager mv.manager ∧ mv.login = st.login ∧ mv.spawned = none ∧ mv.op = .ended ∧
      ∀ entry ∈ mv.notes, entry ≠ .completed ∧ ∀ n, entry ≠ .began n ∧
        (entry = .persisted n ∨ entry = .installed n → Clean st.log n) := by
  rw [System.keep] at h
  split at h
  · exact absurd h (by simp)
  split at h
  · rw [← Option.some.inj h]
    refine ⟨⟨rfl, rfl, rfl, rfl, id, id⟩, rfl, rfl, rfl, fun entry hentry => ?_⟩
    rcases List.mem_cons.1 hentry with rfl | hentry
    · refine ⟨by simp, fun n => ⟨by simp, fun hkept => ?_⟩⟩
      obtain rfl := Note.persisted.inj (hkept.resolve_right (by simp))
      exact hclean
    · obtain rfl := List.mem_singleton.1 hentry
      refine ⟨by simp, fun n => ⟨by simp, fun hkept => ?_⟩⟩
      obtain rfl := Note.installed.inj (hkept.resolve_left (by simp))
      exact hclean
  · exact absurd h (by simp)

/-- Credentials of a login whose generation is the current one, or none. -/
theorem gentle_completeCallbackTokens {st : System} {op complete failed : Op} {number : Nat}
    {generation : UInt64} (staged : Credentials) (ok : Bool)
    (hclean : generation = st.manager.generation → Clean st.log number) (hcomplete : Fades op complete)
    (hfailed : Fades op failed) :
    Gentle st op (st.completeCallbackTokens number generation staged ok complete failed) := by
  rw [System.completeCallbackTokens]
  split
  · next hcurrent =>
    split
    · next kept hkept =>
      obtain ⟨hmild, hlogin, hspawned, -, hnotes⟩ :=
        notes_of_keep hkept (hclean hcurrent.1.symm)
      exact Mild.gentle hmild hcomplete hlogin hspawned hnotes
    · exact gentle_move (Mild.setErrorLocked _ _) hfailed (by simp)
  · exact gentle_move (Mild.refl _) hfailed (by simp)

theorem gentle_callbackMove {st : System} {login : Nat} {generation : UInt64}
    {phase : CallbackPhase} {input : Input} {mv : Move}
    (hclean : generation = st.manager.generation → Clean st.log login)
    (hmv : st.callbackMove login generation phase input = some mv) :
    Gentle st (.callback login generation phase) mv := by
  rw [System.callbackMove.eq_def] at hmv
  split at hmv
  · dsimp only at hmv
    split at hmv
    · rw [← Option.some.inj hmv]
      exact gentle_move ⟨rfl, rfl, rfl, rfl, id, id⟩ (Fades.callback fun _ => rfl) (by simp)
    · rw [← Option.some.inj hmv]
      exact gentle_move (Mild.refl _) (Fades.callback fun _ => rfl) (by simp)
  · rw [← Option.some.inj hmv]
    exact gentle_move (Mild.callbackPublishFailure _ _) (Fades.callback nofun) (by simp)
  · rw [← Option.some.inj hmv]
    exact gentle_move (Mild.refl _) (Fades.callback nofun) (by simp)
  · rw [← Option.some.inj hmv]
    refine gentle_move ?_ (Fades.callback fun _ => rfl) (by simp)
    split
    · exact Mild.refl _
    · exact Mild.setErrorOf _ _ _
  · rw [← Option.some.inj hmv]
    exact gentle_move (Mild.setErrorOf _ _ _) (Fades.callback fun _ => rfl) (by simp)
  · rw [← Option.some.inj hmv, System.processCallback]
    dsimp only
    split
    · split
      · exact gentle_move (Mild.of_device rfl rfl rfl rfl rfl) (Fades.callback nofun) (by simp)
      · exact gentle_move (Mild.clearPendingSensitiveLocked _) (Fades.callback fun _ => rfl) (by simp)
    · exact gentle_move (Mild.setErrorLocked _ _) (Fades.callback fun _ => rfl) (by simp)
  · rw [← Option.some.inj hmv]
    exact gentle_move (Mild.refl _) (Fades.callback fun _ => rfl) (by simp)
  · rw [← Option.some.inj hmv]
    exact gentle_move (Mild.refl _) (Fades.callback nofun) (by simp)
  · rw [← Option.some.inj hmv]
    exact gentle_completeCallbackTokens _ _ hclean (Fades.callback nofun) (Fades.callback nofun)
  · rw [← Option.some.inj hmv]
    exact gentle_move (Mild.setErrorOf _ _ _) (Fades.callback nofun) (by simp)
  · rw [← Option.some.inj hmv]
    exact gentle_move (Mild.callbackFinish _ _ _) (Fades.ended rfl rfl rfl) (by simp)
  · exact absurd hmv (by simp)

theorem gentle_deviceStartMove {st : System} {login : Nat} {generation : UInt64}
    {phase : DevicePhase} {input : Input} {mv : Move}
    (hmv : st.deviceStartMove login generation phase input = some mv) :
    Gentle st (.deviceStart login generation phase) mv := by
  rw [System.deviceStartMove.eq_def] at hmv
  split at hmv
  · rw [← Option.some.inj hmv]
    exact gentle_move (Mild.refl _) (Fades.deviceStart fun _ => rfl) (by simp)
  · dsimp only at hmv
    split at hmv
    · next r now hcurrent =>
      -- The operation gives its place to the transaction.
      have hflight : (Op.deviceStart login generation (.asked r now)).flight =
          some (login, st.manager.generation) := by rw [hcurrent.1]; rfl
      have hholds : (Op.deviceStart login generation (.asked r now)).holds st.manager.generation =
          true := by
        rw [hcurrent.1]
        exact Bool.and_eq_true_iff.2 ⟨decide_eq_true rfl, rfl⟩
      rw [← Option.some.inj hmv]
      refine ⟨rfl, rfl, rfl, rfl, rfl, fun _ => Or.inr ⟨login, hflight⟩, Or.inr rfl,
        Or.inl ⟨rfl, rfl⟩, rfl, rfl, ?_, nofun⟩
      have hnone : (Op.deviceStart login generation .finishing).holds st.manager.generation =
          false := Bool.and_false _
      show ((Op.deviceStart login generation .finishing).holds st.manager.generation).toNat +
        true.toNat ≤ _
      rw [hnone, hholds, Bool.toNat_true, Bool.toNat_false]
      omega
    · rw [← Option.some.inj hmv]
      exact gentle_move (Mild.refl _) (Fades.deviceStart nofun) (by simp)
  · rw [← Option.some.inj hmv]
    exact gentle_move (Mild.deviceStartFailed _ _ _) (Fades.deviceStart nofun) (by simp)
  · rw [← Option.some.inj hmv]
    exact gentle_move ⟨rfl, rfl, rfl, rfl, id, id⟩ (Fades.ended rfl rfl rfl) (by simp)
  · exact absurd hmv (by simp)

/-- A poll that ends gives its place back to the transaction. -/
theorem gentle_devicePollReleased {st : System} {login : Nat} {generation : UInt64}
    (notes : List Note) (hnotes : ∀ entry ∈ notes, Quiet entry) :
    Gentle st (.poll login generation .releasing)
      (st.move (st.manager.devicePollReleased generation) .ended notes) := by
  by_cases hcurrent : st.manager.generation = generation
  · have hdevice : (st.manager.devicePollReleased generation).device =
        st.manager.device.map fun d => { d with pollInProgress := false } := if_pos hcurrent
    have hholds : (Op.poll login generation .releasing).holds st.manager.generation = true := by
      rw [hcurrent]
      exact Bool.and_eq_true_iff.2 ⟨decide_eq_true rfl, rfl⟩
    refine ⟨rfl, rfl, rfl, rfl, rfl, fun h => Or.inl ?_, Or.inl rfl, Or.inl ⟨rfl, rfl⟩, rfl, rfl, ?_,
      fun entry hentry => (hnotes entry hentry).imp id fun hquiet number =>
        ⟨(hquiet number).1, fun hkept => absurd hkept (not_or.2 (hquiet number).2)⟩⟩
    · have h : (st.manager.devicePollReleased generation).device.isSome = true := h
      rwa [hdevice, Option.isSome_map] at h
    · have hone := Bool.toNat_le (st.manager.devicePollReleased generation).freeDevice
      show false.toNat + (st.manager.devicePollReleased generation).freeDevice.toNat ≤ _
      rw [hholds, Bool.toNat_true, Bool.toNat_false]
      omega
  · have hsame : (st.manager.devicePollReleased generation).device = st.manager.device :=
      if_neg hcurrent
    refine gentle_move ⟨rfl, rfl, rfl, rfl, fun h => hsame ▸ h, fun h => ?_⟩
      (Fades.ended rfl rfl rfl) hnotes
    rwa [Manager.freeDevice, hsame] at h

theorem gentle_pollMove {st : System} {i login : Nat} {generation : UInt64} {phase : PollPhase}
    {input : Input} {mv : Move} (hclean : generation = st.manager.generation → Clean st.log login)
    (hmv : st.pollMove i login generation phase input = some mv) :
    Gentle st (.poll login generation phase) mv := by
  rw [System.pollMove.eq_def] at hmv
  split at hmv
  · rw [← Option.some.inj hmv]
    exact gentle_move (Mild.devicePollFinished _ _ _) (Fades.ended rfl rfl rfl) (by simp)
  · rw [← Option.some.inj hmv]
    exact gentle_move (Mild.refl _) (Fades.poll fun _ => rfl) (by simp)
  · rw [← Option.some.inj hmv]
    refine gentle_move (Mild.deviceSlowDown _ _ _) (Fades.poll fun _ => rfl) ?_
    intro entry hentry
    split at hentry
    · obtain ⟨d, -, rfl⟩ := Option.map_eq_some_iff.1 (Option.mem_toList.1 hentry)
      exact ⟨nofun, fun _ => ⟨nofun, nofun, nofun⟩⟩
    · exact absurd hentry List.not_mem_nil
  · rw [← Option.some.inj hmv]
    exact gentle_devicePollReleased _ (by simp [Quiet])
  · rw [← Option.some.inj hmv]
    exact gentle_move (Mild.refl _) (Fades.poll fun _ => rfl) (by simp)
  · rw [← Option.some.inj hmv]
    exact gentle_move (Mild.refl _) (Fades.poll nofun) (by simp)
  · rw [← Option.some.inj hmv]
    exact gentle_completeCallbackTokens _ _ hclean (Fades.poll nofun) (Fades.poll nofun)
  · rw [← Option.some.inj hmv]
    exact gentle_move (Mild.devicePollFinished _ _ _) (Fades.poll nofun) (by simp)
  · rw [← Option.some.inj hmv]
    exact gentle_move ⟨rfl, rfl, rfl, rfl, id, id⟩ (Fades.ended rfl rfl rfl) (by simp [Quiet])
  · exact absurd hmv (by simp)

/-- The end of a refresh behind a mild change of the manager. -/
theorem gentle_refreshFinished {st : System} {number : Nat} {generation : UInt64}
    {phase : RefreshPhase} {m : Manager} {result : TokenResult} {mv : Move}
    (hm : Mild st.manager m) (hmanager : mv.manager = m.refreshFinished result)
    (hop : mv.op = .ended) (hlogin : mv.login = st.login) (hspawned : mv.spawned = none)
    (hnotes : ∀ entry ∈ mv.notes, entry ≠ .completed ∧ ∀ n, entry ≠ .began n ∧
      (entry = .persisted n ∨ entry = .installed n → Clean st.log n)) :
    Gentle st (.refresh number generation phase) mv where
  generation := by rw [hmanager]; exact hm.generation
  lifecycleBusy := by rw [hmanager]; exact hm.lifecycleBusy
  session := by rw [hmanager]; exact hm.session
  login := hlogin
  spawned := hspawned
  device h := by
    rw [hmanager] at h
    exact Or.inl (hm.device h)
  flight := by rw [hop]; exact Or.inl rfl
  refreshing := by
    rw [hmanager, hop]
    exact Or.inr ⟨rfl, rfl, rfl⟩
  lifecycle := by rw [hop]; rfl
  attached := by rw [hop]; rfl
  slots := by
    rw [hmanager, hop]
    exact Nat.add_le_add_left (toNat_le_toNat hm.freeDevice) 0
  notes := hnotes

theorem gentle_refreshMove {st : System} {number : Nat} {generation : UInt64}
    {phase : RefreshPhase} {input : Input} {mv : Move} (hclean : Clean st.log number)
    (hmv : st.refreshMove number generation phase input = some mv) :
    Gentle st (.refresh number generation phase) mv := by
  rw [System.refreshMove.eq_def] at hmv
  split at hmv
  · rw [← Option.some.inj hmv]
    refine gentle_move (Mild.refl _) ⟨Or.inl ?_, ?_, ?_, ?_, ?_⟩ (by simp)
    all_goals
      split
      all_goals first | rfl | exact fun _ h => h
  · dsimp only at hmv
    split at hmv
    · rw [← Option.some.inj hmv]
      exact gentle_refreshFinished (Mild.refl _) rfl rfl rfl rfl (by simp [System.move])
    · split at hmv
      · rw [← Option.some.inj hmv]
        split
        · next kept hkept =>
          obtain ⟨hmild, hlogin, hspawned, hop, hnotes⟩ := notes_of_keep hkept hclean
          exact gentle_refreshFinished hmild rfl hop hlogin hspawned hnotes
        · exact gentle_refreshFinished (Mild.setErrorLocked _ _) rfl rfl rfl rfl
            (by simp [System.move])
      · rw [← Option.some.inj hmv]
        have hcleared : Mild st.manager (st.manager.clearCredentialsLocked.setErrorLocked
            "OpenAI credentials are no longer valid") := ⟨rfl, rfl, rfl, rfl, id, id⟩
        split
        · exact gentle_refreshFinished hcleared rfl rfl rfl rfl (by simp [System.move])
        · split
          · exact gentle_refreshFinished hcleared rfl rfl rfl rfl (by simp [System.move])
          · exact gentle_refreshFinished (Mild.setErrorLocked _ _) rfl rfl rfl rfl
              (by simp [System.move])
      · rw [← Option.some.inj hmv]
        exact gentle_refreshFinished (Mild.refl _) rfl rfl rfl rfl (by simp [System.move])
  · exact absurd hmv (by simp)

/-- `openai_oauth_start` when its login has begun. -/
theorem gentle_startMove {st : System} {op : Op} {mv : Move}
    (hmv : st.startMove op .go = some mv) : Gentle st op mv := by
  rw [System.startMove.eq_def] at hmv
  split at hmv
  · next heq => exact absurd heq nofun
  · dsimp only at hmv
    split at hmv
    · split at hmv
      · rw [← Option.some.inj hmv]
        exact gentle_move (Mild.refl _) (Fades.ended rfl rfl rfl) (by simp)
      · rw [← Option.some.inj hmv]
        exact gentle_move ⟨rfl, rfl, rfl, rfl, id, id⟩
          ⟨Or.inl rfl, rfl, rfl, rfl, fun _ hholds => hholds⟩ (by simp)
    · exact absurd hmv (by simp)
  · split at hmv
    · rw [← Option.some.inj hmv]
      exact gentle_move (Mild.startCleanup _) (Fades.ended rfl rfl rfl) (by simp)
    · exact absurd hmv (by simp)
  · exact absurd hmv (by simp)

/-! ## Sections that begin or complete something -/

theorem not_holds_of_forall {ops : List Op} {generation : UInt64}
    (h : ∀ op ∈ ops, ∀ login, op.flight ≠ some (login, generation)) :
    ops.countP (Op.holds generation) = 0 := by
  rw [List.countP_eq_zero]
  intro op hop hholds
  obtain ⟨login, hflight⟩ := Op.exists_flight_of_holds hholds
  exact h op hop login hflight

theorem Op.lifecycle_of_attached {op : Op} (h : op.attached = true) : op.lifecycle = true := by
  cases op <;> first | rfl | exact absurd h Bool.false_ne_true

theorem Guarded.began_notMem {st : System} (h : Guarded st) : Note.began st.log.length ∉ st.log :=
  fun hmem => absurd (h.numbers _ hmem) (Nat.lt_irrefl _)

theorem Guarded.numbers_append {st : System} (h : Guarded st) {more : List Note}
    (hmore : ∀ entry ∈ more, ∀ number, entry = .began number → number = st.log.length) :
    ∀ number, Note.began number ∈ st.log ++ more → number < (st.log ++ more).length := by
  intro number hmem
  rw [List.length_append]
  rcases List.mem_append.1 hmem with hmem | hmem
  · have := h.numbers number hmem
    omega
  · have hnumber := hmore _ hmem number rfl
    have hpos := List.length_pos_of_mem hmem
    omega

/-- An operation that is no part of anything yet. -/
def Op.Plain (op : Op) : Prop :=
  op.refreshing = none ∧ op.lifecycle = false ∧ op.attached = false

/-- A login that begins, or one whose thread is not created. -/
structure Begins (st : System) (mv : Move) : Prop where
  generation : mv.manager.generation = nextGeneration st.manager.generation
  lifecycleBusy : mv.manager.lifecycleBusy = st.manager.lifecycleBusy
  session : mv.manager.session = st.manager.session
  refreshInProgress : mv.manager.refreshInProgress = st.manager.refreshInProgress
  device : mv.manager.device = none
  plain : ∀ op ∈ mv.op :: mv.spawned.toList, op.Plain
  flight : ∀ op ∈ mv.op :: mv.spawned.toList, ∀ number generation,
    op.flight = some (number, generation) →
      number = mv.login ∧ number = st.log.length ∧ mv.notes = [.began st.log.length]
  holds : (mv.op :: mv.spawned.toList).countP
    (Op.holds (nextGeneration st.manager.generation)) ≤ 1
  notes : mv.notes = [] ∨ mv.notes = [.began st.log.length]

theorem Guarded.begins {st : System} {i : Nat} {op : Op} {mv : Move} (h : Guarded st)
    (hop : st.ops[i]? = some op) (hplain : op.Plain) (hidle : st.manager.lifecycleBusy = false)
    (hunused : Unused st) (hmv : Begins st mv) : Guarded (st.behind (st.ops.set i mv.op) mv) := by
  have hentries : ∀ entry ∈ mv.notes, entry = .began st.log.length := by
    intro entry hentry
    rcases hmv.notes with hnone | hone
    · exact absurd hentry (by rw [hnone]; exact List.not_mem_nil)
    · rw [hone] at hentry
      exact List.mem_singleton.1 hentry
  have hcompleted : Note.completed ∉ mv.notes := fun hmem => Note.noConfusion (hentries _ hmem)
  have hmem : ∀ op' ∈ st.ops.set i mv.op ++ mv.spawned.toList,
      op' ∈ st.ops ∨ op' ∈ mv.op :: mv.spawned.toList := by
    intro op' hop'
    rcases List.mem_append.1 hop' with hop' | hop'
    · rcases List.mem_or_eq_of_mem_set hop' with hop' | rfl
      · exact Or.inl hop'
      · exact Or.inr List.mem_cons_self
    · exact Or.inr (List.mem_cons_of_mem _ hop')
  have hcount : ∀ p : Op → Bool, p op = false → (∀ op' ∈ mv.op :: mv.spawned.toList, p op' = false) →
      (st.ops.set i mv.op ++ mv.spawned.toList).countP p = st.ops.countP p := by
    intro p hold hnew
    have hset := countP_set_add (p := p) (a := mv.op) hop
    have hspawned : mv.spawned.toList.countP p = 0 :=
      List.countP_eq_zero.2 fun op' hop' => by simp [hnew op' (List.mem_cons_of_mem _ hop')]
    rw [hold, hnew mv.op List.mem_cons_self] at hset
    rw [List.countP_append, hspawned]
    exact hset
  refine ⟨?_, h.numbers_append fun entry hentry number heq => ?_, ?_, ?_, ?_, ?_, ?_, ?_, ?_, ?_⟩
  · refine h.law.append fun entry hentry past number hkept => ?_
    rw [hentries entry hentry] at hkept
    exact absurd hkept (by simp)
  · exact (Note.began.inj ((hentries entry hentry).symm.trans heq)).symm
  · intro op' hop' number hflight
    have hflight : op'.flight = some (number, nextGeneration st.manager.generation) :=
      hmv.generation ▸ hflight
    rcases hmem op' hop' with hold | hnew
    · exact absurd hflight (hunused op' hold number)
    · obtain ⟨hlogin, hnumber, hnotes⟩ := hmv.flight op' hnew number _ hflight
      refine ⟨hlogin, ?_⟩
      show Clean (st.log ++ mv.notes) number
      rw [hnotes, hnumber]
      exact clean_began h.began_notMem
  · intro hdevice
    have hdevice : mv.manager.device.isSome = true := hdevice
    rw [hmv.device] at hdevice
    exact absurd hdevice Bool.false_ne_true
  · intro op' hop' number hnumber
    rcases hmem op' hop' with hold | hnew
    · exact clean_append (h.refreshing op' hold number hnumber) hcompleted
    · rw [(hmv.plain op' hnew).1] at hnumber
      exact absurd hnumber (by simp)
  · show (st.ops.set i mv.op ++ mv.spawned.toList).countP (fun op => op.refreshing.isSome) =
      mv.manager.refreshInProgress.toNat
    rw [hmv.refreshInProgress, ← h.refreshes]
    exact hcount _ (by rw [hplain.1]; rfl) fun op' hop' => by rw [(hmv.plain op' hop').1]; rfl
  · show (st.ops.set i mv.op ++ mv.spawned.toList).countP Op.lifecycle =
      mv.manager.lifecycleBusy.toNat
    rw [hmv.lifecycleBusy, ← h.lifecycles]
    exact hcount _ hplain.2.1 fun op' hop' => (hmv.plain op' hop').2.1
  · intro hbusy
    exact absurd ((hmv.lifecycleBusy.trans hidle).symm.trans hbusy) Bool.false_ne_true
  · intro op' hop' hattached
    rcases hmem op' hop' with hold | hnew
    · exact (h.attached op' hold hattached).imp hmv.session.trans hmv.refreshInProgress.trans
    · exact absurd ((hmv.plain op' hnew).2.2.symm.trans hattached) Bool.false_ne_true
  · have hfree : mv.manager.freeDevice = false := by rw [Manager.freeDevice, hmv.device]; rfl
    have hnone : st.ops.countP (Op.holds (nextGeneration st.manager.generation)) = 0 :=
      not_holds_of_forall hunused
    have hset := countP_set_add (p := Op.holds (nextGeneration st.manager.generation))
      (a := mv.op) hop
    have hholds := hmv.holds
    show (st.ops.set i mv.op ++ mv.spawned.toList).countP (Op.holds mv.manager.generation) +
      mv.manager.freeDevice.toNat ≤ 1
    have hone : (mv.op :: mv.spawned.toList).countP
        (Op.holds (nextGeneration st.manager.generation)) =
        (mv.op.holds (nextGeneration st.manager.generation)).toNat +
          mv.spawned.toList.countP (Op.holds (nextGeneration st.manager.generation)) := by
      rw [← List.singleton_append, List.countP_append, ← List.nil_append [mv.op], countP_concat,
        List.countP_nil, Nat.zero_add]
    rw [hfree, hmv.generation, List.countP_append, Bool.toNat_false]
    omega

/-- A lifecycle operation that is completed. -/
structure Completes (st : System) (mv : Move) : Prop where
  idle : st.manager.refreshInProgress = false
  generation : mv.manager.generation = st.manager.generation
  lifecycleBusy : mv.manager.lifecycleBusy = false
  refreshInProgress : mv.manager.refreshInProgress = st.manager.refreshInProgress
  device : mv.manager.device.isSome = true → st.manager.device.isSome = true
  op : mv.op = .ended
  spawned : mv.spawned = none
  notes : mv.notes = [.completed]

theorem Guarded.completes {st : System} {i : Nat} {op : Op} {mv : Move} (h : Guarded st)
    (hop : st.ops[i]? = some op) (hlifecycle : op.lifecycle = true) (hmv : Completes st mv) :
    Guarded (st.behind (st.ops.set i mv.op) mv) := by
  have hset := countP_set_add (p := Op.lifecycle) (a := mv.op) hop
  have hpos : 0 < st.ops.countP Op.lifecycle :=
    List.countP_pos_iff.2 ⟨op, List.mem_of_getElem? hop, hlifecycle⟩
  have hcount := h.lifecycles
  have hended : mv.op.lifecycle = false := by rw [hmv.op]; rfl
  have hbusy : st.manager.lifecycleBusy = true := by
    cases hbusy : st.manager.lifecycleBusy with
    | true => rfl
    | false =>
      rw [hbusy, Bool.toNat_false] at hcount
      omega
  rw [hbusy, Bool.toNat_true] at hcount
  rw [hlifecycle, hended, Bool.toNat_true, Bool.toNat_false] at hset
  have hleft : (st.ops.set i mv.op).countP Op.lifecycle = 0 := by omega
  obtain ⟨hnone, hflights⟩ := h.busy hbusy
  have hdevice : mv.manager.device = none := by
    cases hdevice : mv.manager.device with
    | none => rfl
    | some d =>
      have hsome := hmv.device (by rw [hdevice]; rfl)
      rw [hnone] at hsome
      exact absurd hsome Bool.false_ne_true
  have hstill : ∀ op' ∈ st.ops.set i mv.op, ∀ number,
      op'.flight ≠ some (number, st.manager.generation) :=
    forall_mem_set hflights fun number hflight => by
      rw [hmv.op] at hflight
      exact absurd hflight nofun
  have hrefreshes : st.ops.countP (fun op => op.refreshing.isSome) = 0 := by
    rw [h.refreshes, hmv.idle]
    rfl
  have hquiet : ∀ op' ∈ st.ops.set i mv.op, op'.refreshing.isSome = false :=
    forall_mem_set (fun op' hop' => Bool.eq_false_iff.2 (List.countP_eq_zero.1 hrefreshes op' hop'))
      (by rw [hmv.op]; rfl)
  rw [System.behind_of_spawned hmv.spawned]
  refine ⟨?_, h.numbers_append fun entry hentry number heq => ?_, ?_, ?_, ?_, ?_, ?_, ?_, ?_, ?_⟩
  · refine h.law.append fun entry hentry past number hkept => ?_
    rw [hmv.notes] at hentry
    rw [List.mem_singleton.1 hentry] at hkept
    exact absurd hkept (by simp)
  · rw [hmv.notes] at hentry
    exact Note.noConfusion ((List.mem_singleton.1 hentry).symm.trans heq)
  · intro op' hop' number hflight
    exact absurd (hmv.generation ▸ hflight) (hstill op' hop' number)
  · intro hsome
    exact absurd (hdevice ▸ hsome : (none : Option PendingDevice).isSome = true) Bool.false_ne_true
  · intro op' hop' number hnumber
    have hfalse := hquiet op' hop'
    rw [hnumber] at hfalse
    exact absurd hfalse.symm Bool.false_ne_true
  · show (st.ops.set i mv.op).countP (fun op => op.refreshing.isSome) =
      mv.manager.refreshInProgress.toNat
    rw [hmv.refreshInProgress, hmv.idle]
    exact List.countP_eq_zero.2 fun op' hop' => by simp [hquiet op' hop']
  · show (st.ops.set i mv.op).countP Op.lifecycle = mv.manager.lifecycleBusy.toNat
    rw [hmv.lifecycleBusy]
    exact hleft
  · intro hstillBusy
    exact absurd (hmv.lifecycleBusy.symm.trans hstillBusy) Bool.false_ne_true
  · intro op' hop' hattached
    exact absurd (Op.lifecycle_of_attached hattached) (List.countP_eq_zero.1 hleft op' hop')
  · have hfree : mv.manager.freeDevice = false := by rw [Manager.freeDevice, hdevice]; rfl
    show (st.ops.set i mv.op).countP (Op.holds mv.manager.generation) + mv.manager.freeDevice.toNat ≤ 1
    rw [hfree, hmv.generation, not_holds_of_forall hstill]
    exact Nat.zero_le 1

/-- `openai_oauth_attach_session` drops the session when nothing is under way any more. -/
theorem Guarded.detach {st : System} {i : Nat} {kind : Lifecycle} {thread session : Option Nat}
    (h : Guarded st) (hop : st.ops[i]? = some (.stopping kind thread))
    (hidle : st.manager.refreshInProgress = false) :
    Guarded (st.behind (st.ops.set i (.attaching session))
      (st.move st.manager.detach (.attaching session) [])) := by
  have hnoFlight : (Op.attaching session).flight = none := rfl
  rw [System.behind_of_spawned rfl]
  refine ⟨?_, ?_, ?_, ?_, ?_, ?_, ?_, ?_, ?_, ?_⟩
  · exact (List.append_nil st.log).symm ▸ h.law
  · exact (List.append_nil st.log).symm ▸ h.numbers
  · refine forall_mem_set (fun op hop number hflight => ?_) fun number hflight => absurd hflight nofun
    exact (h.current op hop number hflight).imp id fun hclean => clean_append hclean List.not_mem_nil
  · exact fun hdevice => clean_append (h.device hdevice) List.not_mem_nil
  · refine forall_mem_set (fun op hop number hnumber => ?_) fun number hnumber => absurd hnumber nofun
    exact clean_append (h.refreshing op hop number hnumber) List.not_mem_nil
  · have hset := countP_set_add (p := fun op => op.refreshing.isSome) (a := Op.attaching session) hop
    exact (Nat.add_right_cancel hset).trans h.refreshes
  · have hset := countP_set_add (p := Op.lifecycle) (a := Op.attaching session) hop
    exact (Nat.add_right_cancel hset).trans h.lifecycles
  · intro hbusy
    obtain ⟨hnone, hflights⟩ := h.busy hbusy
    exact ⟨hnone, forall_mem_set hflights fun number hflight => absurd hflight nofun⟩
  · exact fun op _ _ => ⟨rfl, hidle⟩
  · have hset := countP_set_add (p := Op.holds st.manager.generation) (a := Op.attaching session) hop
    have hslots := h.slots
    show (st.ops.set i (.attaching session)).countP (Op.holds st.manager.generation) +
      st.manager.freeDevice.toNat ≤ 1
    rw [Nat.add_right_cancel hset]
    exact hslots

/-- An operation that joins the others under the generation there is. -/
structure Joins (st : System) (mv : Move) : Prop where
  generation : mv.manager.generation = st.manager.generation
  lifecycleBusy : mv.manager.lifecycleBusy = st.manager.lifecycleBusy
  session : mv.manager.session = st.manager.session
  login : mv.login = st.login
  spawned : mv.spawned = none
  device : mv.manager.device.isSome = true → st.manager.device.isSome = true
  flight : ∀ number generation, mv.op.flight = some (number, generation) →
    number = st.login ∧ generation = st.manager.generation ∧ st.manager.device.isSome = true
  refreshing : mv.op.refreshing = none ∧
      mv.manager.refreshInProgress = st.manager.refreshInProgress ∧
      (∀ entry ∈ mv.notes, Quiet entry) ∨
    mv.op.refreshing = some st.log.length ∧ st.manager.refreshInProgress = false ∧
      mv.manager.refreshInProgress = true ∧ st.manager.session.isSome = true ∧
      mv.notes = [.began st.log.length]
  lifecycle : mv.op.lifecycle = false
  slots : (mv.op.holds st.manager.generation).toNat + mv.manager.freeDevice.toNat ≤
    st.manager.freeDevice.toNat

theorem Guarded.joins {st : System} {mv : Move} (h : Guarded st) (hmv : Joins st mv) :
    Guarded (st.behind (st.ops ++ [mv.op]) mv) := by
  have hentries : ∀ entry ∈ mv.notes, Quiet entry ∨ entry = .began st.log.length := by
    intro entry hentry
    rcases hmv.refreshing with ⟨-, -, hquiet⟩ | ⟨-, -, -, -, hone⟩
    · exact Or.inl (hquiet entry hentry)
    · rw [hone] at hentry
      exact Or.inr (List.mem_singleton.1 hentry)
  have hcompleted : Note.completed ∉ mv.notes := by
    intro hmem
    rcases hentries _ hmem with hquiet | hbegan
    · exact hquiet.1 rfl
    · exact Note.noConfusion hbegan
  have hclean : ∀ number, Clean st.log number → Clean (st.log ++ mv.notes) number :=
    fun number hnumber => clean_append hnumber hcompleted
  have hall : ∀ {q : Op → Prop}, (∀ op ∈ st.ops, q op) → q mv.op → ∀ op ∈ st.ops ++ [mv.op], q op := by
    intro q hold hnew op hop
    rcases List.mem_append.1 hop with hop | hop
    · exact hold op hop
    · exact (List.mem_singleton.1 hop) ▸ hnew
  rw [System.behind_of_spawned hmv.spawned]
  refine ⟨?_, h.numbers_append fun entry hentry number heq => ?_, ?_, ?_, ?_, ?_, ?_, ?_, ?_, ?_⟩
  · refine h.law.append fun entry hentry past number hkept => ?_
    rcases hentries entry hentry with hquiet | rfl
    · exact absurd hkept (not_or.2 (hquiet.2 number).2)
    · exact absurd hkept (by simp)
  · rcases hentries entry hentry with hquiet | hbegan
    · exact absurd heq (hquiet.2 number).1
    · exact (Note.began.inj (hbegan.symm.trans heq)).symm
  · rw [hmv.generation, hmv.login]
    refine hall (fun op hop number hflight => ?_) fun number hflight => ?_
    · exact (h.current op hop number hflight).imp id (hclean number)
    · obtain ⟨rfl, -, hdevice⟩ := hmv.flight number _ hflight
      exact ⟨rfl, hclean _ (h.device hdevice)⟩
  · intro hdevice
    show Clean (st.log ++ mv.notes) mv.login
    rw [hmv.login]
    exact hclean _ (h.device (hmv.device hdevice))
  · refine hall (fun op hop number hnumber => hclean number (h.refreshing op hop number hnumber))
      fun number hnumber => ?_
    rcases hmv.refreshing with ⟨hnone, -, -⟩ | ⟨hsome, -, -, -, hnotes⟩
    · exact absurd (hnone.symm.trans hnumber) (by simp)
    · obtain rfl := Option.some.inj (hsome.symm.trans hnumber)
      show Clean (st.log ++ mv.notes) _
      rw [hnotes]
      exact clean_began h.began_notMem
  · show (st.ops ++ [mv.op]).countP (fun op => op.refreshing.isSome) =
      mv.manager.refreshInProgress.toNat
    rw [countP_concat, h.refreshes]
    rcases hmv.refreshing with ⟨hnone, hsame, -⟩ | ⟨hsome, hfalse, htrue, -, -⟩
    · rw [hnone, hsame]
      rfl
    · rw [hsome, hfalse, htrue]
      rfl
  · show (st.ops ++ [mv.op]).countP Op.lifecycle = mv.manager.lifecycleBusy.toNat
    rw [countP_concat, h.lifecycles, hmv.lifecycle, hmv.lifecycleBusy]
    rfl
  · intro hbusy
    obtain ⟨hnone, hflights⟩ := h.busy (hmv.lifecycleBusy ▸ hbusy)
    have hnoDevice : ¬st.manager.device.isSome = true := by rw [hnone]; exact Bool.false_ne_true
    constructor
    · cases hdevice : mv.manager.device with
      | none => rfl
      | some d => exact absurd (hmv.device (by rw [hdevice]; rfl)) hnoDevice
    · show ∀ op ∈ st.ops ++ [mv.op], ∀ number, op.flight ≠ some (number, mv.manager.generation)
      rw [hmv.generation]
      exact hall hflights fun number hflight => hnoDevice (hmv.flight number _ hflight).2.2
  · refine hall (fun op hop hattached => ?_) fun hattached => ?_
    · obtain ⟨hsession, hprogress⟩ := h.attached op hop hattached
      refine ⟨hmv.session.trans hsession, ?_⟩
      rcases hmv.refreshing with ⟨-, hsame, -⟩ | ⟨-, -, -, hsome, -⟩
      · exact hsame.trans hprogress
      · rw [hsession] at hsome
        exact absurd hsome Bool.false_ne_true
    · exact absurd (hmv.lifecycle.symm.trans (Op.lifecycle_of_attached hattached)) Bool.false_ne_true
  · have hslots := h.slots
    have hmove := hmv.slots
    show (st.ops ++ [mv.op]).countP (Op.holds mv.manager.generation) + mv.manager.freeDevice.toNat ≤ 1
    rw [hmv.generation, countP_concat]
    omega

/-- A lifecycle operation that begins supersedes what is under way. -/
theorem Guarded.stop {st : System} {kind : Lifecycle} {mv : Move} (h : Guarded st)
    (hunused : Unused st) (hmv : st.stop kind = some mv) :
    Guarded (st.behind (st.ops ++ [mv.op]) mv) := by
  rw [System.stop] at hmv
  split at hmv
  case isFalse => exact absurd hmv (by simp)
  next hcan =>
  have hidle : st.manager.lifecycleBusy = false := by
    cases kind <;> simp_all [System.canStop]
  let m : Manager := { st.manager with lifecycleBusy := true }.cancelCallbackLocked
  obtain ⟨thread, m', htaken⟩ : ∃ thread m', m.takeCallbackThreadLocked = (thread, m') := ⟨_, _, rfl⟩
  have hm' : m'.generation = nextGeneration st.manager.generation ∧ m'.lifecycleBusy = true ∧
      m'.session = st.manager.session ∧ m'.refreshInProgress = st.manager.refreshInProgress ∧
      m'.device = none := by
    rw [Manager.takeCallbackThreadLocked] at htaken
    split at htaken
    · rw [← (Prod.mk.inj htaken).2]
      exact ⟨rfl, rfl, rfl, rfl, rfl⟩
    · rw [← (Prod.mk.inj htaken).2]
      exact ⟨rfl, rfl, rfl, rfl, rfl⟩
  obtain ⟨hgeneration, hbusy, hsession, hprogress, hdevice⟩ := hm'
  have hmv : mv = st.move m' (.stopping kind thread) [.stopped] := by
    rw [← Option.some.inj hmv]
    exact congrArg (fun taken : Option Nat × Manager =>
      st.move taken.2 (.stopping kind taken.1) [.stopped]) htaken
  have hflights : ∀ op ∈ st.ops ++ [Op.stopping kind thread], ∀ number,
      op.flight ≠ some (number, nextGeneration st.manager.generation) := by
    intro op hop number
    rcases List.mem_append.1 hop with hop | hop
    · exact hunused op hop number
    · rw [List.mem_singleton.1 hop]
      exact nofun
  have hclean : ∀ number, Clean st.log number → Clean (st.log ++ [.stopped]) number :=
    fun number hnumber => clean_append hnumber (by simp)
  rw [hmv, System.behind_of_spawned rfl]
  refine ⟨?_, h.numbers_append (by simp [System.move]), ?_, ?_, ?_, ?_, ?_, ?_, ?_, ?_⟩
  · exact h.law.append (by simp [System.move, StaysOut])
  · intro op hop number hflight
    exact absurd (hgeneration ▸ hflight) (hflights op hop number)
  · intro hsome
    exact absurd (hdevice ▸ hsome : (none : Option PendingDevice).isSome = true) Bool.false_ne_true
  · intro op hop number hnumber
    rcases List.mem_append.1 hop with hop | hop
    · exact hclean number (h.refreshing op hop number hnumber)
    · rw [List.mem_singleton.1 hop] at hnumber
      exact absurd hnumber nofun
  · show (st.ops ++ [Op.stopping kind thread]).countP (fun op => op.refreshing.isSome) =
      m'.refreshInProgress.toNat
    rw [countP_concat, h.refreshes, hprogress]
    rfl
  · show (st.ops ++ [Op.stopping kind thread]).countP Op.lifecycle = m'.lifecycleBusy.toNat
    rw [countP_concat, h.lifecycles, hbusy, hidle]
    rfl
  · exact fun _ => ⟨hdevice, fun op hop number hflight =>
      hflights op hop number (hgeneration ▸ hflight)⟩
  · intro op hop hattached
    rcases List.mem_append.1 hop with hop | hop
    · exact (h.attached op hop hattached).imp hsession.trans hprogress.trans
    · rw [List.mem_singleton.1 hop] at hattached
      exact absurd hattached Bool.false_ne_true
  · have hfree : m'.freeDevice = false := by rw [Manager.freeDevice, hdevice]; rfl
    show (st.ops ++ [Op.stopping kind thread]).countP (Op.holds m'.generation) +
      m'.freeDevice.toNat ≤ 1
    rw [hfree, hgeneration, not_holds_of_forall hflights]
    exact Nat.zero_le 1

/-! ## Orderly runs -/

/-- The beginning of a browser login. -/
theorem begins_startMove {st : System} {thread : Option Nat} {loginId : String}
    {callback : PendingCallback} {created : Bool} {mv : Move}
    (hmv : st.startMove (.starting thread) (.beginCallback loginId callback created) = some mv) :
    Gentle st (.starting thread) mv ∨ Begins st mv := by
  rw [System.startMove] at hmv
  split at hmv
  case isFalse => exact absurd hmv (by simp)
  dsimp only at hmv
  split at hmv
  · split at hmv
    · rw [← Option.some.inj hmv]
      refine Or.inr ⟨rfl, rfl, rfl, rfl, rfl, ?_, ?_, ?_, Or.inr rfl⟩
      · intro op hop
        rcases List.mem_cons.1 hop with rfl | hop
        · exact ⟨rfl, rfl, rfl⟩
        · rw [List.mem_singleton.1 hop]
          exact ⟨rfl, rfl, rfl⟩
      · intro op hop number generation hflight
        rcases List.mem_cons.1 hop with rfl | hop
        · exact absurd hflight nofun
        · rw [List.mem_singleton.1 hop] at hflight
          obtain ⟨rfl, -⟩ := Prod.mk.inj (Option.some.inj hflight)
          exact ⟨rfl, rfl, rfl⟩
      · show [Op.waiting, .callback st.log.length _ .starting].countP _ ≤ 1
        rw [List.countP_cons_of_neg Bool.false_ne_true]
        exact List.countP_le_length
    · rw [← Option.some.inj hmv]
      refine Or.inr ⟨rfl, rfl, rfl, rfl, rfl, ?_, ?_, Nat.zero_le 1, Or.inl rfl⟩
      · intro op hop
        rw [List.mem_singleton.1 hop]
        exact ⟨rfl, rfl, rfl⟩
      · intro op hop number generation hflight
        rw [List.mem_singleton.1 hop] at hflight
        exact absurd hflight nofun
  · rw [← Option.some.inj hmv]
    exact Or.inl (gentle_move (Mild.refl _) (Fades.ended rfl rfl rfl) (by simp))

/-- The beginning of a device login. -/
theorem begins_deviceStartingMove {st : System} {thread : Option Nat} {loginId : String} {mv : Move}
    (hmv : st.deviceStartingMove thread (.beginDevice loginId) = some mv) :
    Gentle st (.deviceStarting thread) mv ∨ Begins st mv := by
  rw [System.deviceStartingMove] at hmv
  split at hmv
  case isFalse => exact absurd hmv (by simp)
  dsimp only at hmv
  split at hmv
  · rw [← Option.some.inj hmv]
    refine Or.inr ⟨rfl, rfl, rfl, rfl, rfl, ?_, ?_, List.countP_le_length, Or.inr rfl⟩
    · intro op hop
      rw [List.mem_singleton.1 hop]
      exact ⟨rfl, rfl, rfl⟩
    · intro op hop number generation hflight
      rw [List.mem_singleton.1 hop] at hflight
      obtain ⟨rfl, -⟩ := Prod.mk.inj (Option.some.inj hflight)
      exact ⟨rfl, rfl, rfl⟩
  · rw [← Option.some.inj hmv]
    exact Or.inl (gentle_move (Mild.refl _) (Fades.ended rfl rfl rfl) (by simp))

/-- The end of a lifecycle operation, or the middle of `openai_oauth_attach_session`. -/
theorem completes_stopMove {st : System} {kind : Lifecycle} {thread : Option Nat} {input : Input}
    {mv : Move} (hmv : st.stopMove kind thread input = some mv) :
    Completes st mv ∨ st.manager.refreshInProgress = false ∧
      ∃ session, mv = st.move st.manager.detach (.attaching session) [] := by
  rw [System.stopMove.eq_def] at hmv
  split at hmv
  case h_2 => exact absurd hmv (by simp)
  dsimp only at hmv
  split at hmv
  case isFalse => exact absurd hmv (by simp)
  next hguard =>
  have hidle : st.manager.refreshInProgress = false := Bool.eq_false_iff.2 hguard.2.1
  split at hmv
  · rw [← Option.some.inj hmv]
    exact Or.inl ⟨hidle, rfl, rfl, rfl, id, rfl, rfl, rfl⟩
  · split at hmv
    · split at hmv
      · rw [← Option.some.inj hmv]
        exact Or.inl ⟨hidle, rfl, rfl, rfl, fun h => absurd h Bool.false_ne_true, rfl, rfl, rfl⟩
      · rw [← Option.some.inj hmv]
        exact Or.inl ⟨hidle, rfl, rfl, rfl, fun h => absurd h Bool.false_ne_true, rfl, rfl, rfl⟩
    · rw [← Option.some.inj hmv]
      exact Or.inl ⟨hidle, rfl, rfl, rfl, fun h => absurd h Bool.false_ne_true, rfl, rfl, rfl⟩
  · rw [← Option.some.inj hmv]
    exact Or.inr ⟨hidle, _, rfl⟩

/-- The end of `openai_oauth_attach_session`. -/
theorem completes_attachMove {st : System} {session : Option Nat} {input : Input} {mv : Move}
    (hidle : st.manager.refreshInProgress = false) (hmv : st.attachMove session input = some mv) :
    Completes st mv := by
  rw [System.attachMove.eq_def] at hmv
  split at hmv
  case h_2 => exact absurd hmv (by simp)
  obtain ⟨loaded, rfl⟩ : ∃ loaded,
      mv = st.move (st.manager.attachFinished session loaded) .ended [.completed] :=
    ⟨_, (Option.some.inj hmv).symm⟩
  have hmanager : (st.manager.attachFinished session loaded).generation = st.manager.generation ∧
      (st.manager.attachFinished session loaded).lifecycleBusy = false ∧
      (st.manager.attachFinished session loaded).refreshInProgress =
        st.manager.refreshInProgress ∧
      (st.manager.attachFinished session loaded).device = st.manager.device := by
    rw [Manager.attachFinished]
    split
    · exact ⟨rfl, rfl, rfl, rfl⟩
    · split <;> exact ⟨rfl, rfl, rfl, rfl⟩
  obtain ⟨hgeneration, hbusy, hprogress, hdevice⟩ := hmanager
  exact ⟨hidle, hgeneration, hbusy, hprogress, fun h => hdevice ▸ h, rfl, rfl, rfl⟩

/-- `openai_oauth_device_poll` works on the transaction there is. -/
theorem joins_openaiOauthDevicePoll {st : System} {loginId : String} {now : Nat} {mv : Move}
    (hmv : st.openaiOauthDevicePoll loginId now = some mv) : Joins st mv := by
  rw [System.openaiOauthDevicePoll] at hmv
  split at hmv
  · exact absurd hmv (by simp)
  next d hdevice =>
  have hsome : st.manager.device.isSome = true := by rw [hdevice]; rfl
  split at hmv
  · exact absurd hmv (by simp)
  split at hmv
  · rw [← Option.some.inj hmv]
    refine ⟨rfl, rfl, rfl, rfl, rfl, id, fun number generation hflight => ?_,
      Or.inl ⟨rfl, rfl, nofun⟩, rfl, ?_⟩
    · obtain ⟨rfl, rfl⟩ := Prod.mk.inj (Option.some.inj hflight)
      exact ⟨rfl, rfl, hsome⟩
    · show (decide (st.manager.generation = st.manager.generation) && false).toNat + _ ≤ _
      rw [Bool.and_false, Bool.toNat_false, Nat.zero_add]
      exact Nat.le_refl _
  split at hmv
  · exact absurd hmv (by simp)
  next hfree =>
  have hidle : d.pollInProgress = false := Bool.eq_false_iff.2 fun h => hfree (Or.inl h)
  rw [← Option.some.inj hmv]
  refine ⟨rfl, rfl, rfl, rfl, rfl, fun _ => hsome, fun number generation hflight => ?_,
    Or.inl ⟨rfl, rfl, by simp [System.move, Quiet]⟩, rfl, ?_⟩
  · obtain ⟨rfl, rfl⟩ := Prod.mk.inj (Option.some.inj hflight)
    exact ⟨rfl, rfl, hsome⟩
  · show (decide (st.manager.generation = st.manager.generation) && true).toNat + false.toNat ≤
      st.manager.freeDevice.toNat
    rw [decide_eq_true rfl, Manager.freeDevice, hdevice, Option.any_some, hidle]
    exact Nat.le_refl 1

/-- A refresh joins when no other is under way. -/
theorem joins_getAccessToken {st : System} {request : TokenRequest} {now : Nat} {mv : Move}
    (hmv : st.getAccessToken request now = some mv) : Joins st mv := by
  rw [System.getAccessToken] at hmv
  split at hmv
  case h_2 => exact absurd hmv (by simp)
  next session credentials hsession hcredentials =>
  split at hmv
  · exact absurd hmv (by simp)
  next hguard =>
  have hidle : st.manager.refreshInProgress = false :=
    Bool.eq_false_iff.2 fun h => hguard (Or.inr (Or.inr (Or.inl h)))
  rw [← Option.some.inj hmv]
  refine ⟨rfl, rfl, rfl, rfl, rfl, id, fun number generation hflight => absurd hflight nofun,
    Or.inr ⟨rfl, hidle, rfl, by rw [hsession]; rfl, rfl⟩, rfl, ?_⟩
  show 0 + st.manager.freeDevice.toNat ≤ st.manager.freeDevice.toNat
  exact Nat.le_of_eq (Nat.zero_add _)

/-- The start of a login reaps the thread before. -/
theorem joins_reap {st : System} {op : Option Nat → Op} {mv : Move}
    (hplain : ∀ thread, (op thread).Plain ∧ (op thread).flight = none ∧
      (op thread).holds st.manager.generation = false)
    (hmv : st.reap op = some mv) : Joins st mv := by
  obtain ⟨⟨thread, m⟩, hreap, rfl⟩ := Option.map_eq_some_iff.1 hmv
  rw [Manager.reapPreviousCallback] at hreap
  split at hreap
  · exact absurd hreap (by simp)
  have hm : Mild st.manager m := by
    have htaken := Option.some.inj hreap
    rw [Manager.takeCallbackThreadLocked] at htaken
    split at htaken
    · rw [← (Prod.mk.inj htaken).2]
      exact ⟨rfl, rfl, rfl, rfl, id, id⟩
    · rw [← (Prod.mk.inj htaken).2]
      exact Mild.refl _
  obtain ⟨⟨hrefreshing, hlifecycle, -⟩, hflight, hholds⟩ := hplain thread
  refine ⟨hm.generation, hm.lifecycleBusy, hm.session, rfl, rfl, hm.device,
    fun number generation hsome => absurd (hflight.symm.trans hsome) nofun,
    Or.inl ⟨hrefreshing, hm.refreshInProgress, nofun⟩, hlifecycle, ?_⟩
  show ((op thread).holds st.manager.generation).toNat + m.freeDevice.toNat ≤ _
  rw [hholds, Bool.toNat_false, Nat.zero_add]
  exact toNat_le_toNat hm.freeDevice

/-- One step of an orderly run keeps the guards. -/
theorem Guarded.step {st st' : System} {event : Event} (h : Guarded st) (hok : Orderly st event)
    (hstep : st.step event = some st') : Guarded st' := by
  cases event with
  | advance i input =>
    obtain ⟨op, hop, hstep⟩ := Option.bind_eq_some_iff.1 hstep
    obtain ⟨mv, hmv, hstep⟩ := Option.bind_eq_some_iff.1 hstep
    rw [← Option.some.inj hstep]
    have hmem : op ∈ st.ops := List.mem_of_getElem? hop
    have hclean : ∀ login generation, op.flight = some (login, generation) →
        generation = st.manager.generation → Clean st.log login := fun login generation hflight heq =>
      (h.current op hmem login (heq ▸ hflight)).2
    cases op with
    | callback login generation phase =>
      exact h.gentle hop (gentle_callbackMove (hclean login generation rfl) hmv)
    | deviceStart login generation phase => exact h.gentle hop (gentle_deviceStartMove hmv)
    | poll login generation phase =>
      exact h.gentle hop (gentle_pollMove (hclean login generation rfl) hmv)
    | refresh number generation phase =>
      exact h.gentle hop (gentle_refreshMove (h.refreshing _ hmem number rfl) hmv)
    | stopping kind thread =>
      rcases completes_stopMove hmv with hdone | ⟨hidle, session, rfl⟩
      · exact h.completes hop rfl hdone
      · exact h.detach hop hidle
    | attaching session =>
      exact h.completes hop rfl (completes_attachMove (h.attached _ hmem rfl).2 hmv)
    | deviceStarting thread =>
      cases input with
      | beginDevice loginId =>
        rcases begins_deviceStartingMove hmv with hgentle | hbegins
        · exact h.gentle hop hgentle
        · exact h.begins hop ⟨rfl, rfl, rfl⟩ hok.1 hok.2 hbegins
      | _ => exact absurd hmv nofun
    | starting thread =>
      cases input with
      | beginCallback loginId callback created =>
        rcases begins_startMove hmv with hgentle | hbegins
        · exact h.gentle hop hgentle
        · exact h.begins hop ⟨rfl, rfl, rfl⟩ hok.1 hok.2 hbegins
      | _ => exact absurd hmv nofun
    | waiting =>
      cases input with
      | go => exact h.gentle hop (gentle_startMove hmv)
      | _ => exact absurd hmv nofun
    | cleaning thread =>
      cases input with
      | go => exact h.gentle hop (gentle_startMove hmv)
      | _ => exact absurd hmv nofun
    | ended =>
      cases input with
      | go => exact h.gentle hop (gentle_startMove hmv)
      | _ => exact absurd hmv nofun
  | start =>
    obtain ⟨mv, hmv, rfl⟩ := Option.map_eq_some_iff.1 hstep
    exact h.joins (joins_reap (fun _ => ⟨⟨rfl, rfl, rfl⟩, rfl, rfl⟩) hmv)
  | deviceStart =>
    obtain ⟨mv, hmv, rfl⟩ := Option.map_eq_some_iff.1 hstep
    exact h.joins (joins_reap (fun _ => ⟨⟨rfl, rfl, rfl⟩, rfl, rfl⟩) hmv)
  | poll loginId now =>
    obtain ⟨mv, hmv, rfl⟩ := Option.map_eq_some_iff.1 hstep
    exact h.joins (joins_openaiOauthDevicePoll hmv)
  | refresh request now =>
    obtain ⟨mv, hmv, rfl⟩ := Option.map_eq_some_iff.1 hstep
    exact h.joins (joins_getAccessToken hmv)
  | stop kind =>
    obtain ⟨mv, hmv, rfl⟩ := Option.map_eq_some_iff.1 hstep
    exact h.stop hok hmv

/-- A manager with nothing under way. -/
structure Fresh (st : System) : Prop where
  ops : st.ops = []
  log : st.log = []
  lifecycleBusy : st.manager.lifecycleBusy = false
  refreshInProgress : st.manager.refreshInProgress = false
  device : st.manager.device = none

theorem Fresh.guarded {st : System} (h : Fresh st) : Guarded st where
  law := h.log ▸ lawful_nil
  numbers number hmem := absurd (h.log ▸ hmem) List.not_mem_nil
  current op hop := absurd (h.ops ▸ hop) List.not_mem_nil
  device hsome := by
    rw [h.device] at hsome
    exact absurd hsome Bool.false_ne_true
  refreshing op hop := absurd (h.ops ▸ hop) List.not_mem_nil
  refreshes := by rw [h.ops, h.refreshInProgress]; rfl
  lifecycles := by rw [h.ops, h.lifecycleBusy]; rfl
  busy hbusy := absurd (h.lifecycleBusy.symm.trans hbusy) Bool.false_ne_true
  attached op hop := absurd (h.ops ▸ hop) List.not_mem_nil
  slots := by
    rw [h.ops, Manager.freeDevice, h.device]
    exact Nat.zero_le 1

/-- One refresh at most is in its exchange, and one login at most that nothing has superseded. -/
def SingleFlight (st : System) : Prop :=
  st.ops.countP Op.refreshExchanging ≤ 1 ∧
    st.ops.countP (fun op => op.loginExchanging &&
      op.flight.any fun flight => flight.2 = st.manager.generation) ≤ 1

theorem Guarded.singleFlight {st : System} (h : Guarded st) : SingleFlight st := by
  constructor
  · have hle : st.ops.countP Op.refreshExchanging ≤
        st.ops.countP (fun op => op.refreshing.isSome) := by
      refine List.countP_mono_left fun op _ hexchanging => ?_
      cases op <;> first | rfl | exact absurd hexchanging Bool.false_ne_true
    have hone := Bool.toNat_le st.manager.refreshInProgress
    have hrefreshes := h.refreshes
    omega
  · have hle : st.ops.countP (fun op => op.loginExchanging &&
        op.flight.any fun flight => flight.2 = st.manager.generation) ≤
        st.ops.countP (Op.holds st.manager.generation) := by
      refine List.countP_mono_left fun op _ hexchanging => ?_
      obtain ⟨hlogin, hany⟩ := Bool.and_eq_true_iff.1 hexchanging
      obtain ⟨⟨login, generation⟩, hflight, hcurrent⟩ := (Option.any_eq_true _ _).1 hany
      obtain rfl : generation = st.manager.generation := of_decide_eq_true hcurrent
      exact Op.holds_of_loginExchanging hlogin hflight
    have hslots := h.slots
    omega

/-- **Credentials of a login or refresh that began before a completed logout, cancel or attach are
not kept afterwards.**  One refresh at most is in its exchange, and so is one login at most that
nothing has superseded. -/
theorem staysOut_of_runs {start last : System} (hfresh : Fresh start)
    (h : Runs System.step Orderly start last) :
    Lawful StaysOut last.log ∧ SingleFlight last := by
  have hguarded : Guarded last := h.invariant hfresh.guarded
    fun st event st' hok hst hstep => hst.step hok hstep
  exact ⟨hguarded.law, hguarded.singleFlight⟩

/-! ## Three runs -/

instance (st : System) : Decidable (Unused st) :=
  decidable_of_iff (∀ op ∈ st.ops,
      op.flight.all fun flight => flight.2 ≠ nextGeneration st.manager.generation) <| by
    refine forall₂_congr fun op _ => ?_
    rw [Option.all_eq_true]
    refine ⟨fun h login heq => of_decide_eq_true (h _ heq) rfl, fun h flight heq => ?_⟩
    exact decide_eq_true fun hsame => h flight.1 (by rw [heq, ← hsame])

instance (st : System) : ∀ event, Decidable (Orderly st event)
  | .advance _ (.beginCallback _ _ _) => inferInstanceAs (Decidable (_ ∧ _))
  | .advance _ (.beginDevice _) => inferInstanceAs (Decidable (_ ∧ _))
  | .stop _ => inferInstanceAs (Decidable (Unused st))
  | .start => isTrue trivial
  | .deviceStart => isTrue trivial
  | .poll _ _ => isTrue trivial
  | .refresh _ _ => isTrue trivial
  | .advance _ .go => isTrue trivial
  | .advance _ (.listened _) => isTrue trivial
  | .advance _ (.leave _) => isTrue trivial
  | .advance _ .unread => isTrue trivial
  | .advance _ (.request _) => isTrue trivial
  | .advance _ (.exchange _ _) => isTrue trivial
  | .advance _ (.registered _ _ _) => isTrue trivial
  | .advance _ (.polled _ _) => isTrue trivial
  | .advance _ (.clock _) => isTrue trivial
  | .advance _ (.storage _) => isTrue trivial

/-- A manager with a session. -/
def withSession : System := { manager := { session := some 0 } }

/-- Credentials of an answer. -/
def granted : Credentials := { accessToken := "access", refreshToken := "refresh" }

/-- A browser login by the operation `thread` until its code is exchanged. -/
def loginEvents (starter thread : Nat) : List Event :=
  [.advance starter (.beginCallback "login" ⟨"state", "verifier", "challenge"⟩ true),
    .advance thread (.listened true), .advance thread (.request (some { state := "state" }))]

/-- The answer to the exchange, and its credentials are kept. -/
def grantEvents (thread : Nat) : List Event :=
  [.advance thread (.exchange (.answered 200 true) (some granted)), .advance thread (.storage true)]

/-- A login, and a logout behind it. -/
theorem staysOut_logout : ∃ last, (Lawful StaysOut last.log ∧ SingleFlight last) ∧
    last.log = [.began 0, .persisted 0, .installed 0, .stopped, .completed] := by
  obtain ⟨last, hrun, hlog⟩ := exists_runs_of_foldlM System.step Orderly System.log withSession
    (.start :: loginEvents 0 1 ++ grantEvents 1 ++
      [.advance 1 .go, .stop .logout, .advance 2 (.storage true)])
    [.began 0, .persisted 0, .installed 0, .stopped, .completed] (by decide +kernel)
  exact ⟨last, staysOut_of_runs ⟨rfl, rfl, rfl, rfl, rfl⟩ hrun, hlog⟩

/-- A login whose start has reaped the thread before a logout begins installs its credentials behind
the logout; and a login and a refresh are in their exchanges at the same time. -/
theorem not_staysOut_racingStart :
    (∃ last, Runs System.step (fun _ _ => True) withSession last ∧ ¬Lawful StaysOut last.log) ∧
      ∃ last, Runs System.step (fun _ _ => True)
        { manager := { session := some 0, credentials := some granted } } last ∧
        last.ops.countP (fun op => op.loginExchanging || op.refreshExchanging) = 2 := by
  constructor
  · obtain ⟨last, hrun, hlog⟩ := exists_runs_of_foldlM System.step (fun _ _ => True) System.log
      withSession ([.start, .stop .logout] ++ loginEvents 0 2 ++ [.advance 1 (.storage true)] ++
        grantEvents 2)
      [.stopped, .began 1, .completed, .persisted 1, .installed 1] (by decide +kernel)
    refine ⟨last, hrun, fun hlaw => ?_⟩
    rw [hlog] at hlaw
    refine hlaw [.stopped, .began 1, .completed] (.persisted 1) [.installed 1] rfl 1 (Or.inl rfl) ?_
    decide
  · exact exists_runs_of_foldlM System.step (fun _ _ => True)
      (fun last => last.ops.countP fun op => op.loginExchanging || op.refreshExchanging)
      { manager := { session := some 0, credentials := some granted } }
      (.start :: loginEvents 0 1 ++ [.refresh .ifDue 0]) 2 (by decide +kernel)

end EchoAi.Oauth
