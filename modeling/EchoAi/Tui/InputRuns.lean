import EchoAi.Lockstep
import EchoAi.Tui.Input

/-!
# Runs of the prompt

What the history holds after any operations, and where a walk through it ends.

* `Right`, `Keeps`: the history holds the last prompts; the step loses no copy for it.
* `right_iff_keeps`: a step of the code does what it should just when it loses no copy.
* `Returns`: so many steps back and forward end at the text that was being typed.
* `faithful_iff`: runs are faithful just when no copy is lost: none for the history, and none of the
  text that a walk comes back to.
-/

namespace EchoAi.Prompt

/-! ## The history -/

theorem newest_eq (history : Ring (Option (List UInt8))) :
    newest history = history.contents.getLast? := by
  rw [newest, List.getLast?_eq_getElem?, Ring.length_contents]
  split
  · next hzero =>
    refine (List.getElem?_eq_none ?_).symm
    rw [Ring.length_contents]
    omega
  · next hpos =>
    rw [Ring.getElem?_contents _ (by omega), ← Nat.add_sub_assoc (by omega)]

/-- The history holds the last of the prompts that were recorded, without repetitions. -/
def Holds (historyCap : Nat) (s : Session) : Prop :=
  ∃ inp, s.input = some inp ∧ inp.history.slots.length = historyCap ∧
    inp.history.contents = (recent historyCap s.prompts).map some

/-- A step reads no empty slot, and behind it the history holds the last prompts. -/
def Right (historyCap : Nat) (s : Session) (op : Op) : Prop := Holds historyCap (step s op)

/-- A step loses no copy of a new entry of the history. -/
def Keeps (s : Session) (op : Op) : Prop :=
  ∀ inp ∈ s.input, op.act = .submit → op.fail .entry = true →
    inp.buf = [] ∨ op.fail .out = true ∨ inp.history.slots = [] ∨
      inp.history.contents.getLast? = some (some inp.buf)

section Editor

variable {fail : Faults AllocSite} {inp : TuiInput}

theorem history_insert (text : List UInt8) :
    (tuiInputInsert fail inp text).2.history = inp.history := by
  rw [tuiInputInsert]
  split
  · rfl
  · split
    · rfl
    · dsimp only
      split <;> rfl

theorem history_backspace : (tuiInputBackspace inp).2.history = inp.history := by
  rw [tuiInputBackspace]
  split <;> rfl

theorem history_delete : (tuiInputDelete inp).2.history = inp.history := by
  rw [tuiInputDelete]
  split <;> rfl

theorem history_move (steps : Int) : (tuiInputMove inp steps).history = inp.history := by
  rw [tuiInputMove]
  induction steps.natAbs with
  | zero => rfl
  | succ n ih =>
    rw [Function.iterate_succ_apply', moveOne]
    split <;> exact ih

theorem history_deleteWord : (tuiInputDeleteWord inp).2.history = inp.history := by
  rw [tuiInputDeleteWord]
  split <;> rfl

theorem history_setText (text : Option (List UInt8)) :
    (tuiInputSetText fail inp text).2.history = inp.history := by
  rw [tuiInputSetText]
  split <;> rfl

theorem history_showEntry (entry : Option (List UInt8)) :
    (showEntry fail inp entry).2.history = inp.history := by
  have htext := @history_setText fail inp entry
  rw [showEntry]
  split
  next rc inp' heq =>
    rw [heq] at htext
    split <;> exact htext

theorem history_historyBack : (tuiInputHistoryBack fail inp).2.history = inp.history := by
  rw [tuiInputHistoryBack]
  split
  · rfl
  · split
    · exact history_showEntry _
    · split
      · rfl
      · exact history_showEntry _

theorem history_historyForward : (tuiInputHistoryForward fail inp).2.history = inp.history := by
  rw [tuiInputHistoryForward]
  split
  · rfl
  · split
    · have hshow := @history_showEntry fail inp inp.draft
      split
      next shown inp' heq =>
        rw [heq] at hshow
        split <;> exact hshow
    · exact history_showEntry _

end Editor

/-- Only a submission changes the history. -/
theorem history_stepOn {inp : TuiInput} {op : Op} (h : op.act ≠ .submit) :
    ∃ inp', stepOn inp op = some inp' ∧ inp'.history = inp.history := by
  rw [stepOn]
  split
  · exact ⟨_, rfl, history_insert _⟩
  · exact ⟨_, rfl, history_backspace⟩
  · exact ⟨_, rfl, history_delete⟩
  · exact ⟨_, rfl, history_move _⟩
  · exact ⟨_, rfl, rfl⟩
  · exact ⟨_, rfl, rfl⟩
  · exact ⟨_, rfl, rfl⟩
  · exact ⟨_, rfl, history_deleteWord⟩
  · exact ⟨_, rfl, history_setText _⟩
  · next hact => exact absurd hact h
  · exact ⟨_, rfl, history_historyBack⟩
  · exact ⟨_, rfl, history_historyForward⟩
  · exact ⟨_, rfl, rfl⟩

/-- A line that repeats the newest entry is not pushed, and another one is. -/
theorem historyPush_eq {history : Ring (Option (List UInt8))} {entries : List (List UInt8)}
    (hentries : history.contents = entries.map some) (h : history.slots ≠ []) (fails : Bool)
    (line : List UInt8) :
    historyPush fails history line = some (if entries.getLast? = some line then history
      else history.remember (copied fails line) h) := by
  have hnewest : newest history = entries.getLast?.map some := by
    rw [newest_eq, hentries, List.getLast?_map]
  rw [historyPush, dif_neg h, hnewest]
  cases entries.getLast? with
  | none => rfl
  | some last =>
    show (if last = line then some history else _) = _
    by_cases heq : last = line
    · rw [if_pos heq, if_pos (congrArg some heq)]
    · rw [if_neg heq, if_neg fun hsome => heq (Option.some.inj hsome)]

theorem map_rtake {α β : Type*} (f : α → β) (n : Nat) (xs : List α) :
    (xs.rtake n).map f = (xs.map f).rtake n := by
  rw [List.rtake, List.rtake, List.map_drop, List.length_map]

section Submit

variable {historyCap : Nat} {s : Session} {op : Op} {inp : TuiInput}

/-- An operation that records nothing and leaves the history. -/
theorem right_of_history_eq (hinput : s.input = some inp) {inp' : TuiInput}
    (hstep : stepOn inp op = some inp') (hsame : inp'.history = inp.history)
    (hrecent : recent historyCap (s.prompts ++ recorded inp op) = recent historyCap s.prompts)
    (h : Holds historyCap s) : Right historyCap s op := by
  obtain ⟨_, hinp, hcap, hcontents⟩ := h
  obtain rfl := Option.some.inj (hinput.symm.trans hinp)
  have hnext : step s op = { input := stepOn inp op, prompts := s.prompts ++ recorded inp op } := by
    rw [step, hinput]
  rw [Right, hnext]
  refine ⟨inp', hstep, ?_, ?_⟩
  · rw [hsame, hcap]
  · rw [hsame, hcontents, hrecent]

/-- A submission whose line is new to the history. -/
theorem right_submit_iff (h : Holds historyCap s) (hinput : s.input = some inp)
    (hact : op.act = .submit) (hbuf : inp.buf ≠ []) (hout : op.fail .out = false)
    (hslots : inp.history.slots ≠ []) (hnew : inp.history.contents.getLast? ≠ some (some inp.buf)) :
    Right historyCap s op ↔ op.fail .entry = false := by
  obtain ⟨_, hinp, hcap, hcontents⟩ := h
  obtain rfl := Option.some.inj (hinput.symm.trans hinp)
  have hpos : 0 < historyCap := hcap ▸ List.length_pos_iff.2 hslots
  have hlast : (recent historyCap s.prompts).getLast? ≠ some inp.buf := by
    intro heq
    rw [hcontents, List.getLast?_map, heq] at hnew
    exact hnew rfl
  have hstep : stepOn inp op = some { tuiInputClear inp with
      history := inp.history.remember (copied (op.fail .entry) inp.buf) hslots
      walking := false
      draft := none } := by
    rw [stepOn, hact]
    dsimp only
    rw [tuiInputSubmit, if_neg hbuf, hout, if_neg Bool.false_ne_true,
      historyPush_eq hcontents hslots, if_neg hlast]
    rfl
  have hnext : step s op = { input := stepOn inp op, prompts := s.prompts ++ recorded inp op } := by
    rw [step, hinput]
  rw [Right, hnext]
  cases hentry : op.fail .entry with
  | false =>
    refine iff_of_true ⟨_, hstep, ?_, ?_⟩ rfl
    · exact (Ring.length_slots_remember _ _).trans hcap
    · show (inp.history.remember (copied (op.fail .entry) inp.buf) hslots).contents =
        (recent historyCap (s.prompts ++ recorded inp op)).map some
      rw [recorded, if_pos ⟨hact, hbuf, hout, hentry⟩, recent_concat hpos, if_neg hlast, map_rtake,
        Ring.contents_remember, hcap, hcontents, hentry, List.map_append]
      rfl
  | true =>
    refine iff_of_false ?_ (by decide)
    rintro ⟨inp', hinp', -, hcontents'⟩
    obtain rfl := Option.some.inj (hstep.symm.trans hinp')
    -- the newest slot is empty
    have hempty : (inp.history.remember (copied (op.fail .entry) inp.buf) hslots).contents.getLast? =
        some none := by
      rw [Ring.contents_remember, hcap, getLast?_rtake hpos, List.getLast?_concat, hentry]
      rfl
    have hfull := congrArg List.getLast? hcontents'
    rw [hempty, List.getLast?_map] at hfull
    cases hnone : (recent historyCap (s.prompts ++ recorded inp op)).getLast? with
    | none =>
      rw [hnone] at hfull
      exact absurd hfull (by simp)
    | some last =>
      rw [hnone] at hfull
      exact absurd hfull (by simp)

/-- A submission that pushes nothing. -/
theorem right_submit_of_kept (h : Holds historyCap s) (hinput : s.input = some inp)
    (hact : op.act = .submit) (hkept : inp.buf = [] ∨ op.fail .out = true ∨
      inp.history.slots = [] ∨ inp.history.contents.getLast? = some (some inp.buf)) :
    Right historyCap s op := by
  have hholds := h
  obtain ⟨_, hinp, hcap, hcontents⟩ := h
  obtain rfl := Option.some.inj (hinput.symm.trans hinp)
  have hstep : ∀ shown, tuiInputSubmit op.fail inp = some shown → stepOn inp op = some shown.2 := by
    intro shown hshown
    rw [stepOn, hact]
    dsimp only
    rw [hshown]
    rfl
  have hnone : inp.buf = [] ∨ op.fail .out = true → Right historyCap s op := by
    intro hor
    have hsubmit : tuiInputSubmit op.fail inp = some (none, inp) := by
      rw [tuiInputSubmit]
      rcases hor with hbuf | hout
      · rw [if_pos hbuf]
      · rw [if_pos hout, ite_self]
    refine right_of_history_eq hinput (hstep _ hsubmit) rfl ?_ hholds
    rw [recorded, if_neg, List.append_nil]
    rintro ⟨-, hbuf, hout, -⟩
    rcases hor with h | h
    · exact hbuf h
    · rw [h] at hout
      exact absurd hout (by decide)
  by_cases hbuf : inp.buf = []
  · exact hnone (Or.inl hbuf)
  by_cases hout : op.fail .out = true
  · exact hnone (Or.inr hout)
  have hpush : historyPush (op.fail .entry) inp.history inp.buf = some inp.history ∧
      recent historyCap (s.prompts ++ [inp.buf]) = recent historyCap s.prompts := by
    by_cases hslots : inp.history.slots = []
    · rw [historyPush, dif_pos hslots, ← hcap, hslots]
      exact ⟨rfl, by rw [recent, recent, List.length_nil, List.rtake_zero, List.rtake_zero]⟩
    · have hlast : inp.history.contents.getLast? = some (some inp.buf) := by
        rcases hkept with h | h | h | h
        · exact absurd h hbuf
        · exact absurd h hout
        · exact absurd h hslots
        · exact h
      have hlast' : (recent historyCap s.prompts).getLast? = some inp.buf := by
        rw [hcontents, List.getLast?_map] at hlast
        obtain ⟨last, hlast, heq⟩ := Option.map_eq_some_iff.1 hlast
        rw [hlast, Option.some.inj heq]
      rw [historyPush_eq hcontents hslots, if_pos hlast',
        recent_concat (hcap ▸ List.length_pos_iff.2 hslots), if_pos hlast']
      exact ⟨rfl, rfl⟩
  have hsubmit : tuiInputSubmit op.fail inp = some (some inp.buf, { tuiInputClear inp with
      walking := false
      draft := none }) := by
    rw [tuiInputSubmit, if_neg hbuf, if_neg hout, hpush.1]
    rfl
  refine right_of_history_eq hinput (hstep _ hsubmit) rfl ?_ hholds
  rw [recorded]
  split
  · exact hpush.2
  · rw [List.append_nil]

end Submit

/-- A step of the code does what it should just when it loses no copy. -/
theorem right_iff_keeps {historyCap : Nat} {s : Session} {op : Op} (h : Holds historyCap s) :
    Right historyCap s op ↔ Keeps s op := by
  obtain ⟨inp, hinput, -, -⟩ := id h
  by_cases hact : op.act = .submit
  · by_cases hkept : inp.buf = [] ∨ op.fail .out = true ∨ inp.history.slots = [] ∨
        inp.history.contents.getLast? = some (some inp.buf)
    · refine iff_of_true (right_submit_of_kept h hinput hact hkept) fun inp' hinp' _ _ => ?_
      obtain rfl := Option.some.inj (hinput.symm.trans hinp')
      exact hkept
    · simp only [not_or] at hkept
      obtain ⟨hbuf, hout, hslots, hnew⟩ := hkept
      rw [right_submit_iff h hinput hact hbuf (Bool.eq_false_iff.2 hout) hslots hnew]
      constructor
      · intro hentry inp' _ _ hfail
        rw [hentry] at hfail
        exact absurd hfail Bool.false_ne_true
      · intro hkeeps
        refine Bool.eq_false_iff.2 fun hentry => ?_
        rcases hkeeps inp hinput hact hentry with h | h | h | h
        · exact hbuf h
        · exact hout h
        · exact hslots h
        · exact hnew h
  · obtain ⟨inp', hstep, hsame⟩ := @history_stepOn inp op hact
    refine iff_of_true (right_of_history_eq hinput hstep hsame ?_ h) fun _ _ hsubmit =>
      absurd hsubmit hact
    rw [recorded, if_neg fun hrec => hact hrec.1, List.append_nil]

theorem holds_start (historyCap : Nat) : Holds historyCap (Session.start historyCap) := by
  refine ⟨_, rfl, List.length_replicate, ?_⟩
  rw [show (Session.start historyCap).prompts = [] from rfl, recent_nil]
  exact Ring.contents_empty _

/-! ## A walk and its way back -/

/-- A walk that shows the entry `j` behind the newest, with the draft that it comes back to. -/
structure Walking (history : Ring (Option (List UInt8))) (draft : Option (List UInt8)) (j : Nat)
    (inp : TuiInput) : Prop where
  history_eq : inp.history = history
  walking : inp.walking = true
  walk_eq : inp.historyWalk = j
  draft_eq : inp.draft = draft
  fits : (draft.getD []).length < inp.cap

section Walks

variable {fail : Faults AllocSite} {inp : TuiInput} {history : Ring (Option (List UInt8))}
  {draft : Option (List UInt8)} {j : Nat}

theorem Walking.setText (h : Walking history draft j inp) (text : Option (List UInt8)) :
    Walking history draft j (tuiInputSetText fail inp text).2 := by
  rw [tuiInputSetText]
  split
  · exact h
  · next cap hcap _ =>
    exact ⟨h.history_eq, h.walking, h.walk_eq, h.draft_eq, h.fits.trans_le hcap.1⟩

theorem Walking.showEntry (h : Walking history draft j inp) (entry : Option (List UInt8)) :
    Walking history draft j (showEntry fail inp entry).2 := by
  have htext := @Walking.setText fail _ _ _ _ h entry
  rw [Prompt.showEntry]
  split
  next rc inp' heq =>
    rw [heq] at htext
    split <;> exact htext

/-- The first step back keeps the text as the draft. -/
theorem walking_back_first (hwalking : inp.walking = false) (hcount : 0 < inp.history.count) :
    Walking inp.history (copied (fail .draft) inp.buf) 0 (tuiInputHistoryBack fail inp).2 := by
  rw [tuiInputHistoryBack, if_neg (Nat.ne_of_gt hcount), hwalking, if_pos Bool.false_ne_true]
  apply Walking.showEntry
  refine ⟨rfl, rfl, rfl, rfl, ?_⟩
  show ((copied (fail .draft) inp.buf).getD []).length < inp.cap
  rw [copied]
  split
  · exact Nat.zero_lt_of_lt inp.fits
  · exact inp.fits

theorem Walking.back (h : Walking history draft j inp) (hj : j + 1 < history.count) :
    Walking history draft (j + 1) (tuiInputHistoryBack fail inp).2 := by
  have hcount : inp.history.count = history.count := by rw [h.history_eq]
  rw [tuiInputHistoryBack, hcount, if_neg (by omega), h.walking, if_neg (by simp), h.walk_eq,
    if_neg (by omega)]
  apply Walking.showEntry
  exact ⟨h.history_eq, rfl, rfl, h.draft_eq, h.fits⟩

theorem Walking.forward (h : Walking history draft (j + 1) inp) :
    Walking history draft j (tuiInputHistoryForward fail inp).2 := by
  rw [tuiInputHistoryForward, h.walking, if_neg (by simp), h.walk_eq,
    if_neg (Nat.succ_ne_zero j)]
  apply Walking.showEntry
  exact ⟨h.history_eq, rfl, rfl, h.draft_eq, h.fits⟩

/-- The last step forward shows the draft, for which the buffer has always room. -/
theorem Walking.forward_last (h : Walking history draft 0 inp) :
    (tuiInputHistoryForward fail inp).2.buf = draft.getD [] := by
  have hgrow : growBuffer (fail .growth) inp.cap ((draft.getD []).length + 1)
      (Nat.zero_lt_of_lt inp.fits) = some ⟨inp.cap, Nat.le_refl _, h.fits⟩ :=
    dif_pos (Nat.succ_le_of_lt h.fits)
  rw [tuiInputHistoryForward, h.walking, if_neg (by simp), if_pos h.walk_eq, Prompt.showEntry,
    tuiInputSetText, h.draft_eq]
  dsimp only
  rw [hgrow]
  rfl

end Walks

section Sessions

variable {s : Session} {inp : TuiInput} {history : Ring (Option (List UInt8))}
  {draft : Option (List UInt8)}

theorem input_step (hinput : s.input = some inp) (op : Op) : (step s op).input = stepOn inp op := by
  rw [step, hinput]

/-- Steps back go on to older entries. -/
theorem walking_backs {first : Op} {backs : List Op} (hinput : s.input = some inp)
    (hwalking : inp.walking = false) (hfirst : first.act = .historyBack)
    (hbacks : ∀ op ∈ backs, op.act = .historyBack) (hcount : backs.length < inp.history.count) :
    ∃ inp', (stateAfter step s (first :: backs)).input = some inp' ∧
      Walking inp.history (copied (first.fail .draft) inp.buf) backs.length inp' := by
  induction backs using List.reverseRecOn with
  | nil =>
    refine ⟨_, ?_, walking_back_first hwalking hcount⟩
    show (step s first).input = _
    rw [input_step hinput, stepOn, hfirst]
  | append_singleton backs op ih =>
    rw [List.length_append, List.length_singleton] at hcount
    obtain ⟨inp', hinp', hwalk⟩ := ih (fun op' hmem => hbacks op' (List.mem_append_left _ hmem))
      (by omega)
    refine ⟨(tuiInputHistoryBack op.fail inp').2, ?_, ?_⟩
    · rw [← List.cons_append, stateAfter_concat, input_step hinp', stepOn,
        hbacks op (List.mem_append_right _ List.mem_cons_self)]
    · rw [List.length_append, List.length_singleton]
      exact hwalk.back hcount

/-- As many steps forward come back to the draft. -/
theorem buf_of_forwards {j : Nat} {forwards : List Op} (hinput : s.input = some inp)
    (hwalk : Walking history draft j inp) (hforwards : ∀ op ∈ forwards, op.act = .historyForward)
    (hlength : forwards.length = j + 1) :
    (stateAfter step s forwards).input.map TuiInput.buf = some (draft.getD []) := by
  induction j generalizing s inp forwards with
  | zero =>
    obtain ⟨op, rfl⟩ := List.length_eq_one_iff.1 hlength
    show (step s op).input.map TuiInput.buf = _
    rw [input_step hinput, stepOn, hforwards op List.mem_cons_self]
    exact congrArg some hwalk.forward_last
  | succ j ih =>
    obtain ⟨op, forwards, rfl⟩ := List.exists_cons_of_length_eq_add_one hlength
    have hop := hforwards op List.mem_cons_self
    refine @ih (step s op) (tuiInputHistoryForward op.fail inp).2 forwards ?_ hwalk.forward
      (fun op' hmem => hforwards op' (List.mem_cons_of_mem op hmem)) (Nat.succ.inj hlength)
    rw [input_step hinput, stepOn, hop]

end Sessions

/-! ## Runs -/

/-- In a run, `k` steps back and `k` steps forward, from a state without a walk. -/
structure Walk (historyCap : Nat) (ops front backs forwards : List Op) (inp : TuiInput) :
    Prop where
  within : front ++ (backs ++ forwards) <+: ops
  input_eq : (stateAfter step (Session.start historyCap) front).input = some inp
  notWalking : inp.walking = false
  back : ∀ op ∈ backs, op.act = .historyBack
  forward : ∀ op ∈ forwards, op.act = .historyForward
  length_eq : backs.length = forwards.length
  length_le : backs.length ≤ inp.history.count

/-- A run is faithful when the history always holds the last prompts, and walks return to the text
that was being typed. -/
def Faithful (historyCap : Nat) (ops : List Op) : Prop :=
  (∀ front op, front ++ [op] <+: ops →
      Right historyCap (stateAfter step (Session.start historyCap) front) op) ∧
    ∀ front backs forwards inp, Walk historyCap ops front backs forwards inp →
      (stateAfter step (Session.start historyCap) (front ++ (backs ++ forwards))).input.map
        TuiInput.buf = some inp.buf

/-- No copy is lost: none for the history, and none of a text that a walk comes back to. -/
def KeepsCopies (historyCap : Nat) (ops : List Op) : Prop :=
  (∀ front op, front ++ [op] <+: ops →
      Keeps (stateAfter step (Session.start historyCap) front) op) ∧
    ∀ front backs forwards inp, Walk historyCap ops front backs forwards inp →
      ∀ first ∈ backs.head?, inp.buf = [] ∨ first.fail .draft = false

/-- A walk returns just when it lost no draft. -/
theorem returns_iff {historyCap : Nat} {ops front backs forwards : List Op} {inp : TuiInput}
    (h : Walk historyCap ops front backs forwards inp) :
    (stateAfter step (Session.start historyCap) (front ++ (backs ++ forwards))).input.map
        TuiInput.buf = some inp.buf ↔
      ∀ first ∈ backs.head?, inp.buf = [] ∨ first.fail .draft = false := by
  have hlength := h.length_eq
  cases backs with
  | nil =>
    obtain rfl := List.eq_nil_of_length_eq_zero hlength.symm
    rw [List.append_nil, List.append_nil, h.input_eq]
    exact iff_of_true rfl (by simp)
  | cons first backs =>
    have hbacks := fun op hmem => h.back op (List.mem_cons_of_mem first hmem)
    obtain ⟨inp', hinp', hwalk⟩ := walking_backs h.input_eq h.notWalking
      (h.back first List.mem_cons_self) hbacks h.length_le
    have hbuf := buf_of_forwards hinp' hwalk h.forward (by rw [← hlength, List.length_cons])
    have hsplit : stateAfter step (Session.start historyCap) (front ++ (first :: backs ++ forwards))
        = stateAfter step (stateAfter step (stateAfter step (Session.start historyCap) front)
          (first :: backs)) forwards := by
      rw [stateAfter, List.foldl_append, List.foldl_append]
      rfl
    rw [hsplit, hbuf, Option.some_inj, copied]
    cases hfail : first.fail .draft with
    | false => exact iff_of_true rfl fun _ hmem => Or.inr (Option.some.inj hmem ▸ hfail)
    | true =>
      constructor
      · intro hnil _ _
        exact Or.inl hnil.symm
      · intro hkept
        rcases hkept first rfl with hnil | hkeep
        · exact hnil.symm
        · rw [hfail] at hkeep
          exact absurd hkeep (by decide)

/-- Runs are faithful just when no copy is lost. -/
theorem faithful_iff (historyCap : Nat) (ops : List Op) :
    Faithful historyCap ops ↔ KeepsCopies historyCap ops := by
  have hhistory := @stepwise_iff Session Op step (Session.start historyCap) (Holds historyCap)
    (Right historyCap) Keeps (holds_start historyCap) (fun _ _ h => right_iff_keeps h)
    (fun _ _ h hkeeps => (right_iff_keeps h).2 hkeeps) ops
  refine and_congr hhistory ?_
  refine forall_congr' fun front => forall_congr' fun backs => forall_congr' fun forwards =>
    forall_congr' fun inp => forall_congr' fun h => returns_iff h

/-- The copy of a prompt for the history fails.  The next submission compares with the empty slot. -/
theorem not_faithful_lost :
    ¬Faithful 2 [⟨.insert [97], Faults.none⟩, ⟨.submit, fun site => site = .entry⟩,
      ⟨.insert [98], Faults.none⟩, ⟨.submit, Faults.none⟩] := by
  intro h
  obtain ⟨inp, hinp, -⟩ := h.1 [⟨.insert [97], Faults.none⟩, ⟨.submit, fun site => site = .entry⟩,
    ⟨.insert [98], Faults.none⟩] ⟨.submit, Faults.none⟩ List.prefix_rfl
  have hnone : (stateAfter step (Session.start 2) [⟨.insert [97], Faults.none⟩,
      ⟨.submit, fun site => site = .entry⟩, ⟨.insert [98], Faults.none⟩,
      ⟨.submit, Faults.none⟩]).input.isNone = true := by decide +kernel
  have hsome : (stateAfter step (Session.start 2) [⟨.insert [97], Faults.none⟩,
      ⟨.submit, fun site => site = .entry⟩, ⟨.insert [98], Faults.none⟩,
      ⟨.submit, Faults.none⟩]).input = some inp := hinp
  rw [hsome] at hnone
  exact absurd hnone Bool.false_ne_true

end EchoAi.Prompt
