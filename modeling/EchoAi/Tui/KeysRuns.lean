import EchoAi.Lockstep
import EchoAi.Places
import EchoAi.Tui.Keys

/-!
# Bindings mean what they say

What the keymap holds after any registrations and bindings, and what strokes then come to.

* `Means`: the alternatives of a command are those of its text, and their strokes come to it.
* `Playable`: the alternatives that the dispatch looks for: one key, or the leader and one key.
* `Meets`: a step takes the alternatives from the text, and all of them are playable.
* `means_of_sound`: what a keymap that was made so means.
* `faithful_of_meets`: so in runs of such steps every binding means what it says.
-/

namespace EchoAi.Keys

/-! ## What a binding says -/

/-- The same key; the leader token is the leader key, whatever its modifiers. -/
def SameKey (a b : TuiKeyStroke) : Prop := a = b ∨ a.id = keyidLeader ∧ b.id = keyidLeader

/-- An alternative begins with another one, or equals it. -/
def BeginsWith (alt pre : List TuiKeyStroke) : Prop :=
  pre.length ≤ alt.length ∧ List.Forall₂ SameKey pre (alt.take pre.length)

/-- No other command that is enabled has the alternative, or a beginning of it. -/
def Unrivalled (km : TuiKeymap) (b : TuiKeyBinding) (alt : List TuiKeyStroke) : Prop :=
  ∀ b' ∈ km.bindings, b'.enabled = true → b'.name ≠ b.name → ∀ pre ∈ b'.alts, ¬BeginsWith alt pre

/-- The stroke that is fed for one of an alternative. -/
def played (km : TuiKeymap) (s : TuiKeyStroke) : TuiKeyStroke :=
  if s.id = keyidLeader then km.leader else s

/-- What strokes come to, each at its time. -/
def feed (km : TuiKeymap) : (strokes : List (TuiKeyStroke × UInt64)) → List TuiKeymapResult
  | [] => []
  | (s, now) :: strokes =>
    (tuiKeymapDispatch km s now).1 :: feed (tuiKeymapDispatch km s now).2 strokes

/-- Within the timeout of the leader, the strokes of an alternative come to the command with the last
one, and to none before. -/
def Plays (km : TuiKeymap) (name : List UInt8) (alt : List TuiKeyStroke) : Prop :=
  ∀ times : List UInt64, times.length = alt.length →
    (∀ first ∈ times.head?, ∀ now ∈ times.tail, now < first + km.leaderTimeout) →
    ∃ before, feed km ((alt.map (played km)).zip times) = before ++ [.cmd name] ∧
      ∀ result ∈ before, ∀ name', result ≠ .cmd name'

/-- The alternatives of every command are those of its text; and where it is enabled and has no
rival, those that do not begin with the leader key itself come to it. -/
structure Means (km : TuiKeymap) : Prop where
  parsed : ∀ b ∈ km.bindings, tuiKeyParse b.keys = some b.alts
  plays : ∀ b ∈ km.bindings, b.enabled = true → ∀ alt ∈ b.alts, Unrivalled km b alt →
    alt.head? ≠ some km.leader → Plays km b.name alt

/-! ## Registrations and bindings -/

/-- An operation on the keymap. -/
inductive Op where
  | register (b : TuiKeyBinding)
  | bind (name keys : List UInt8)
  | disable (name : List UInt8)
  | setLeader (spec : List UInt8)
  | setLeaderTimeout (ms : UInt64)

/-- One operation. -/
def step (km : TuiKeymap) : Op → TuiKeymap
  | .register b => (tuiKeymapRegister km b).2
  | .bind name keys => (tuiKeymapBind km name keys).2
  | .disable name => (tuiKeymapDisable km name).2
  | .setLeader spec => (tuiKeymapSetLeader km spec).2
  | .setLeaderTimeout ms => tuiKeymapSetLeaderTimeout km ms

/-- The texts fit their fields. -/
def Op.Fits : Op → Prop
  | .register b => b.name.length < 48 ∧ b.desc.length < 96 ∧ b.keys.length < 64
  | .bind _ keys => keys.length < 64
  | _ => True

instance : (op : Op) → Decidable op.Fits
  | .register _ => inferInstanceAs (Decidable (_ ∧ _ ∧ _))
  | .bind _ _ => inferInstanceAs (Decidable (_ < _))
  | .disable _ | .setLeader _ | .setLeaderTimeout _ => inferInstanceAs (Decidable True)

/-- One key, or the leader and one key; the key is not the leader. -/
def Playable (alt : List TuiKeyStroke) : Prop :=
  (∃ s, alt = [s] ∧ s.id ≠ keyidLeader) ∨
    ∃ first s, alt = [first, s] ∧ first.id = keyidLeader ∧ s.id ≠ keyidLeader

/-- All alternatives of a text are playable. -/
def Playing (keys : List UInt8) : Prop :=
  ∀ alts ∈ tuiKeyParse keys, ∀ alt ∈ alts, Playable alt

/-- The alternatives of the text of a step are playable, and a binding that is registered again comes
with the alternatives of its text. -/
def Meets (km : TuiKeymap) : Op → Prop
  | .register b =>
    Playing b.keys ∧ ((bindingIndex km b.name).isSome → tuiKeyParse b.keys = some b.alts)
  | .bind _ keys => Playing keys
  | _ => True

/-- In every state of a run each binding means what it says. -/
def Faithful (ops : List Op) : Prop :=
  ∀ front, front <+: ops → Means (stateAfter step tuiKeymapCreate front)

/-! ## Keymaps that are made of texts -/

/-- Every command has the alternatives of its text, all of them playable. -/
structure Sound (km : TuiKeymap) : Prop where
  parsed : ∀ b ∈ km.bindings, tuiKeyParse b.keys = some b.alts ∧ ∀ alt ∈ b.alts, Playable alt
  leader : Normalized km.leader ∧ km.leader.id ≠ keyidLeader
  unarmed : km.leaderArmed = false

theorem sound_create : Sound tuiKeymapCreate where
  parsed := fun b hb => absurd hb (by simp [tuiKeymapCreate])
  leader := by
    unfold Normalized
    decide
  unarmed := rfl

theorem copyField_of_lt {cap : Nat} {src : List UInt8} (h : src.length < cap) :
    copyField cap src = src := List.take_of_length_le (by omega)

theorem Sound.modify {km : TuiKeymap} (h : Sound km) (idx : Nat) {change : TuiKeyBinding → TuiKeyBinding}
    (hchange : ∀ b, tuiKeyParse b.keys = some b.alts ∧ (∀ alt ∈ b.alts, Playable alt) →
      tuiKeyParse (change b).keys = some (change b).alts ∧ ∀ alt ∈ (change b).alts, Playable alt) :
    Sound { km with bindings := km.bindings.modify idx change } :=
  ⟨forall_mem_modify h.parsed hchange idx, h.leader, h.unarmed⟩

/-- A step that takes the alternatives from the text leaves such a keymap. -/
theorem Sound.step {km : TuiKeymap} {op : Op} (h : Sound km) (hfits : op.Fits)
    (hmeets : Meets km op) : Sound (step km op) := by
  cases op with
  | register b =>
    obtain ⟨hplaying, hagain⟩ := hmeets
    show Sound (tuiKeymapRegister km b).2
    rw [tuiKeymapRegister]
    split
    · next idx hidx =>
      have hparsed : tuiKeyParse b.keys = some b.alts := hagain (by rw [hidx]; rfl)
      exact h.modify idx fun _ _ => ⟨hparsed, hplaying b.alts hparsed⟩
    · split
      · exact h
      · split
        · exact h
        · next alts hparsed =>
          refine ⟨fun b' hb' => ?_, h.leader, h.unarmed⟩
          rcases List.mem_append.1 hb' with hb' | hb'
          · exact h.parsed b' hb'
          · rw [List.mem_singleton.1 hb']
            refine ⟨?_, hplaying alts hparsed⟩
            show tuiKeyParse (copyField 64 b.keys) = some alts
            rw [copyField_of_lt hfits.2.2, hparsed]
  | bind name keys =>
    show Sound (tuiKeymapBind km name keys).2
    rw [tuiKeymapBind]
    split
    · exact h
    · next idx _ =>
      split
      · exact h.modify idx fun _ hb => hb
      · split
        · exact h
        · next alts hparsed =>
          refine h.modify idx fun _ _ => ⟨?_, hmeets alts hparsed⟩
          show tuiKeyParse (copyField 64 keys) = some alts
          rw [copyField_of_lt hfits, hparsed]
  | disable name =>
    show Sound (tuiKeymapDisable km name).2
    rw [tuiKeymapDisable]
    split
    · exact h
    · next idx _ => exact h.modify idx fun _ hb => hb
  | setLeader spec =>
    show Sound (tuiKeymapSetLeader km spec).2
    rw [tuiKeymapSetLeader]
    split
    · next stroke hparsed =>
      split
      · exact h
      · next hid =>
        refine ⟨h.parsed, ⟨?_, hid⟩, h.unarmed⟩
        exact normalized_of_tuiKeyParse hparsed _ List.mem_cons_self _ List.mem_cons_self
    · exact h
  | setLeaderTimeout ms => exact ⟨h.parsed, h.leader, h.unarmed⟩

/-! ## What strokes come to -/

section Dispatch

variable {km : TuiKeymap} {b : TuiKeyBinding} {p : List TuiKeyStroke → Bool}

/-- The command that is found has such an alternative, and there is one if any command has. -/
theorem exists_commandOf {alt : List TuiKeyStroke} (hb : b ∈ km.bindings) (henabled : b.enabled = true)
    (halt : alt ∈ b.alts) (hp : p alt = true) :
    ∃ found, commandOf km p = some found ∧ found ∈ km.bindings ∧ found.enabled = true ∧
      ∃ alt' ∈ found.alts, p alt' = true := by
  have hhas : (b.enabled && b.alts.any p) = true := by
    rw [henabled, Bool.true_and]
    exact List.any_eq_true.2 ⟨alt, halt, hp⟩
  obtain ⟨found, hfound⟩ : ∃ found, commandOf km p = some found :=
    Option.isSome_iff_exists.1 (List.find?_isSome.2 ⟨b, hb, hhas⟩)
  rw [commandOf] at hfound
  have hfinds := List.find?_some hfound
  rw [Bool.and_eq_true, List.any_eq_true] at hfinds
  exact ⟨found, hfound, List.mem_of_find?_eq_some hfound, hfinds.1, hfinds.2⟩

theorem tuiKeymapLeaderExpired_of_unarmed (h : km.leaderArmed = false) (now : UInt64) :
    tuiKeymapLeaderExpired km now = km := by
  rw [tuiKeymapLeaderExpired, h, if_neg (by simp)]

/-- A stroke that no leader comes before. -/
theorem dispatch_of_unarmed (h : km.leaderArmed = false) {s : TuiKeyStroke} (hs : Normalized s)
    (now : UInt64) : tuiKeymapDispatch km s now = dispatchFresh km s now := by
  rw [tuiKeymapDispatch, normalize_of_normalized hs, tuiKeymapLeaderExpired_of_unarmed h, h,
    if_neg Bool.false_ne_true]

/-- One key comes to its command. -/
theorem plays_single (hkm : Sound km) (hb : b ∈ km.bindings) (henabled : b.enabled = true)
    {s : TuiKeyStroke} (hs : Normalized s) (hid : s.id ≠ keyidLeader) (halt : [s] ∈ b.alts)
    (hrival : Unrivalled km b [s]) (hleader : s ≠ km.leader) : Plays km b.name [s] := by
  intro times hlength _
  obtain ⟨now, rfl⟩ := List.length_eq_one_iff.1 hlength
  obtain ⟨found, hfound, hmem, hfoundEnabled, alt', halt', hsingle⟩ :=
    @exists_commandOf km b (isSingle s) [s] hb henabled halt (decide_eq_true rfl)
  have hname : found.name = b.name := by
    by_contra hne
    obtain rfl : alt' = [s] := of_decide_eq_true hsingle
    exact hrival found hmem hfoundEnabled hne [s] halt'
      ⟨Nat.le_refl _, List.Forall₂.cons (Or.inl rfl) List.Forall₂.nil⟩
  refine ⟨[], ?_, fun result hresult => absurd hresult (by simp)⟩
  show [(tuiKeymapDispatch km (played km s) now).1] = [] ++ [.cmd b.name]
  rw [played, if_neg hid, dispatch_of_unarmed hkm.unarmed hs, dispatchFresh, if_neg hleader, hfound]
  show [TuiKeymapResult.cmd found.name] = [] ++ [TuiKeymapResult.cmd b.name]
  rw [hname]
  rfl

/-- The leader and one key come to their command. -/
theorem plays_chord (hkm : Sound km) (hb : b ∈ km.bindings) (henabled : b.enabled = true)
    {first s : TuiKeyStroke} (hfirst : first.id = keyidLeader) (hs : Normalized s)
    (hid : s.id ≠ keyidLeader) (halt : [first, s] ∈ b.alts) (hrival : Unrivalled km b [first, s]) :
    Plays km b.name [first, s] := by
  intro times hlength hwithin
  obtain ⟨now, later, rfl⟩ := List.length_eq_two.1 hlength
  have hlater : later < now + km.leaderTimeout := hwithin now rfl later List.mem_cons_self
  have hcompletes : completesChord s [first, s] = true := by
    rw [completesChord, hfirst, decide_eq_true rfl, decide_eq_true rfl]
    rfl
  obtain ⟨found, hfound, hmem, hfoundEnabled, alt', halt', hchord⟩ :=
    @exists_commandOf km b (completesChord s) [first, s] hb henabled halt hcompletes
  have hname : found.name = b.name := by
    by_contra hne
    unfold completesChord at hchord
    split at hchord
    · next first' second =>
      rw [Bool.and_eq_true, decide_eq_true_eq, decide_eq_true_eq] at hchord
      refine hrival found hmem hfoundEnabled hne _ halt' ⟨Nat.le_refl _, ?_⟩
      exact List.Forall₂.cons (Or.inr ⟨hchord.1, hfirst⟩)
        (List.Forall₂.cons (Or.inl hchord.2) List.Forall₂.nil)
    · exact absurd hchord Bool.false_ne_true
  let armed : TuiKeymap :=
    { km with leaderArmed := true, leaderDeadline := now + km.leaderTimeout }
  have hpress : tuiKeymapDispatch km km.leader now = (.leader, armed) := by
    rw [dispatch_of_unarmed hkm.unarmed hkm.leader.1, dispatchFresh, if_pos rfl]
  have hexpired : tuiKeymapLeaderExpired armed later = armed :=
    if_neg fun h => absurd (UInt64.lt_of_lt_of_le hlater h.2) (UInt64.lt_irrefl later)
  have hnext : (tuiKeymapDispatch armed s later).1 = .cmd b.name := by
    have hsame : commandOf armed (completesChord s) = some found := hfound
    rw [tuiKeymapDispatch, normalize_of_normalized hs, hexpired, if_pos rfl, hsame]
    exact congrArg _ hname
  refine ⟨[.leader], ?_, fun result hresult name' => ?_⟩
  · show [(tuiKeymapDispatch km (played km first) now).1,
      (tuiKeymapDispatch (tuiKeymapDispatch km (played km first) now).2 (played km s) later).1] = _
    rw [played, if_pos hfirst, hpress, played, if_neg hid, hnext]
    rfl
  · rw [List.mem_singleton.1 hresult]
    exact fun h => nomatch h

end Dispatch

/-- A keymap that is made of texts means what they say. -/
theorem means_of_sound {km : TuiKeymap} (h : Sound km) : Means km where
  parsed := fun b hb => (h.parsed b hb).1
  plays := by
    intro b hb henabled alt halt hrival hleader
    obtain ⟨hparsed, hplayable⟩ := h.parsed b hb
    have hnormalized := normalized_of_tuiKeyParse hparsed alt halt
    rcases hplayable alt halt with ⟨s, rfl, hid⟩ | ⟨first, s, rfl, hfirst, hid⟩
    · exact plays_single h hb henabled (hnormalized s List.mem_cons_self) hid halt hrival
        fun heq => hleader (congrArg some heq)
    · exact plays_chord h hb henabled hfirst
        (hnormalized s (List.mem_cons_of_mem first List.mem_cons_self)) hid halt hrival

/-- In a run whose steps take the alternatives from the texts, each a key or the leader and a key,
every binding means what it says. -/
theorem faithful_of_meets (ops : List Op) (hfits : ∀ op ∈ ops, op.Fits)
    (hmeets : ∀ front op, front ++ [op] <+: ops →
      Meets (stateAfter step tuiKeymapCreate front) op) : Faithful ops := by
  intro front hfront
  refine means_of_sound (@stateAfter_invariant_of TuiKeymap Op step tuiKeymapCreate Sound
    (fun km op => op.Fits ∧ Meets km op) sound_create
    (fun _ _ h hstep => h.step hstep.1 hstep.2) front fun front' op hop => ⟨?_, ?_⟩)
  · exact hfits op ((hop.trans hfront).subset (List.mem_append_right _ List.mem_cons_self))
  · exact hmeets front' op (hop.trans hfront)

/-- A binding as callers pass it, with the text of its keys only. -/
def textBinding (name keys : String) : TuiKeyBinding where
  name := ascii name
  category := []
  desc := []
  keys := ascii keys
  enabled := false
  alts := []

/-- A command with a key and a chord, which then has another key. -/
theorem faithful_of_meets_session :
    Faithful [.register (textBinding "session.list" "ctrl+l,leader+l"),
      .bind (ascii "session.list") (ascii "f2")] := by
  have hplaying : ∀ alts ∈ tuiKeyParse (ascii "ctrl+l,leader+l"), ∀ alt ∈ alts, Playable alt := by
    intro alts halts alt halt
    obtain rfl : [[{ emptyStroke with id := 108, ctrl := true }],
        [{ emptyStroke with id := 1 }, { emptyStroke with id := 108 }]] = alts :=
      Option.some.inj (Eq.trans (by decide +kernel) (Option.mem_def.1 halts))
    rcases List.mem_pair.1 halt with rfl | rfl
    · exact Or.inl ⟨_, rfl, by decide⟩
    · exact Or.inr ⟨_, _, rfl, rfl, by decide⟩
  have hbound : ∀ alts ∈ tuiKeyParse (ascii "f2"), ∀ alt ∈ alts, Playable alt := by
    intro alts halts alt halt
    obtain rfl : [[{ emptyStroke with id := 18 }]] = alts :=
      Option.some.inj (Eq.trans (by decide +kernel) (Option.mem_def.1 halts))
    rw [List.mem_singleton.1 halt]
    exact Or.inl ⟨_, rfl, by decide⟩
  refine faithful_of_meets _ (by decide +kernel) (forall_steps_cons.2 ⟨⟨hplaying, ?_⟩, ?_⟩)
  · exact fun h => absurd h (by decide)
  · exact forall_steps_cons.2 ⟨hbound, forall_steps_nil⟩

/-- A command that is registered again has no alternatives, and a chord of two keys comes to
nothing. -/
theorem not_faithful_again :
    (∃ ops : List Op, (∀ op ∈ ops, op.Fits) ∧ ¬Faithful ops) ∧
      ¬Faithful [.register (textBinding "save" "ctrl+k ctrl+s")] := by
  refine ⟨⟨[.register (textBinding "save" "ctrl+k"), .register (textBinding "save" "ctrl+s")],
    by decide +kernel, fun h => ?_⟩, fun h => ?_⟩
  · have hparsed := (h _ List.prefix_rfl).parsed { textBinding "save" "ctrl+s" with enabled := true }
      (by decide +kernel)
    exact absurd hparsed (by decide +kernel)
  · have hplays := (h _ List.prefix_rfl).plays
      { textBinding "save" "ctrl+k ctrl+s" with
        enabled := true
        alts := [[{ emptyStroke with id := 107, ctrl := true },
          { emptyStroke with id := 115, ctrl := true }]] }
      (by decide +kernel) rfl _ List.mem_cons_self (fun b' hb' _ hne => ?_) (by decide +kernel)
      [0, 0] rfl (fun first hfirst now hnow => ?_)
    · obtain ⟨before, hfeed, -⟩ := hplays
      have hlast := congrArg List.getLast? hfeed
      rw [List.getLast?_concat] at hlast
      exact absurd hlast (by decide +kernel)
    · have hname : ∀ b' ∈ (stateAfter step tuiKeymapCreate
          [.register (textBinding "save" "ctrl+k ctrl+s")]).bindings, b'.name = ascii "save" := by
        decide +kernel
      exact absurd (hname b' hb') hne
    · obtain rfl := Option.some.inj hfirst
      obtain rfl := List.mem_singleton.mp hnow
      decide +kernel

end EchoAi.Keys
