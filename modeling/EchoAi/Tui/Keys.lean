import EchoAi.Bytes
import EchoAi.Ctype
import EchoAi.Splitting

/-!
# Keys and commands

Texts such as `ctrl+c,leader+q` say which keys are for a command.

* `tuiKeyParse`: the alternatives of a text, each a sequence of strokes.
* `TuiKeymap`, `tuiKeymapRegister`, `tuiKeymapBind`: the commands and their keys.
* `tuiKeymapDispatch`: one stroke, which may be the leader or follow it.
* `normalized_of_tuiKeyParse`: every stroke that is parsed is normalized.

Texts are the bytes of C strings.  The modifiers that `<leader>` leaves unset are those of no key
pressed; no function reads them.
-/

namespace EchoAi.Keys

/-! ## Strokes -/

/-- `TuiKeyStroke`, with its modifiers as truth values. -/
structure TuiKeyStroke where
  id : UInt32
  ctrl : Bool
  shift : Bool
  alt : Bool
  «meta» : Bool
  super : Bool
  deriving DecidableEq, Repr

/-- `TUI_KEYID_LEADER` -/
def keyidLeader : UInt32 := 1

/-- `TUI_KEYID_F1` -/
def keyidF1 : UInt32 := 17

/-- `TUI_KEYMAP_MAX_BINDINGS` -/
def keymapMaxBindings : Nat := 128

/-- `TUI_KEYSEQ_MAX_ALT` -/
def keyseqMaxAlt : Nat := 4

/-- `TUI_KEYSEQ_MAX_KEYS` -/
def keyseqMaxKeys : Nat := 4

/-- A stroke before its key is known. -/
def emptyStroke : TuiKeyStroke where
  id := 0
  ctrl := false
  shift := false
  alt := false
  «meta» := false
  super := false

/-- `tui_key_stroke_normalize` -/
def tuiKeyStrokeNormalize (s : TuiKeyStroke) : TuiKeyStroke :=
  if 65 ≤ s.id ∧ s.id ≤ 90 then
    let s := { s with id := s.id - 65 + 97 }
    if s.ctrl then s else { s with shift := true }
  else s

/-- A stroke that is normalized has no capital letter. -/
def Normalized (s : TuiKeyStroke) : Prop := ¬(65 ≤ s.id ∧ s.id ≤ 90)

theorem normalize_of_normalized {s : TuiKeyStroke} (h : Normalized s) :
    tuiKeyStrokeNormalize s = s := if_neg h

theorem normalized_normalize (s : TuiKeyStroke) : Normalized (tuiKeyStrokeNormalize s) := by
  have hlower : 65 ≤ s.id ∧ s.id ≤ 90 → ¬(65 ≤ s.id - 65 + 97 ∧ s.id - 65 + 97 ≤ 90) := by
    rintro ⟨hle, hge⟩ ⟨-, hlow⟩
    have hle' : (65 : UInt32).toNat ≤ s.id.toNat := hle
    have hge' : s.id.toNat ≤ (90 : UInt32).toNat := hge
    have hlow' : (s.id - 65 + 97).toNat ≤ (90 : UInt32).toNat := hlow
    rw [UInt32.toNat_add, UInt32.toNat_sub_of_le _ _ hle] at hlow'
    simp only [UInt32.reduceToNat] at hle' hge' hlow'
    omega
  rw [tuiKeyStrokeNormalize]
  split
  · next hupper =>
    dsimp only
    split
    · exact hlower hupper
    · exact hlower hupper
  · next hother => exact hother

/-! ## Parsing -/

/-- The table of `name_to_keyid`. -/
def keyNames : List (String × UInt32) :=
  [("enter", 2), ("return", 2), ("esc", 3), ("escape", 3), ("tab", 4), ("backspace", 5),
    ("del", 6), ("delete", 6), ("insert", 7), ("ins", 7), ("home", 8), ("end", 9), ("pgup", 10),
    ("pageup", 10), ("pgdown", 11), ("pagedown", 11), ("up", 12), ("down", 13), ("left", 14),
    ("right", 15), ("space", 16), ("scrollup", 29), ("scrolldown", 30)]

/-- `name_to_keyid` -/
def nameToKeyid (name : List UInt8) : Option UInt32 :=
  match keyNames.find? fun entry => name = ascii entry.1 with
  | some entry => some entry.2
  | none =>
    if name.head? = some 102 ∨ name.head? = some 70 then
      match strtolWhole name.tail with
      | some n => if 1 ≤ n ∧ n ≤ 12 then some (keyidF1 + UInt32.ofNat (n.toNat - 1)) else none
      | none => none
    else none

/-- `parse_key_token` -/
def parseKeyToken (tok : List UInt8) : Option UInt32 :=
  if tok = [] then none
  else if tok = ascii "leader" ∨ tok = ascii "<leader>" then some keyidLeader
  else if tok = ascii "<" then none
  else if 24 ≤ tok.length then none
  else
    match nameToKeyid (tok.map toLower) with
    | some kid => some kid
    | none =>
      match tok with
      | [c] => some c.toUInt32
      | _ => none

/-- The texts between the separators, as `strtok_r` finds them. -/
def strtok (sep : UInt8) (text : List UInt8) : List (List UInt8) :=
  (text.splitOn sep).filter (· ≠ [])

/-- What a modifier does to the stroke whose key follows. -/
def modifierOf (mod : List UInt8) : Option (TuiKeyStroke → TuiKeyStroke) :=
  if mod = ascii "ctrl" then some fun cur => { cur with ctrl := true }
  else if mod = ascii "shift" then some fun cur => { cur with shift := true }
  else if mod = ascii "alt" then some fun cur => { cur with alt := true }
  else if mod = ascii "meta" then some fun cur => { cur with «meta» := true }
  else if mod = ascii "super" then some fun cur => { cur with super := true }
  else none

/-- The loop of `parse_stroke_run` over the parts between the `+`. -/
def strokesOf (cap : Nat) : (parts : List (List UInt8)) → (cur : TuiKeyStroke) →
    (keys : List TuiKeyStroke) → Option (List TuiKeyStroke)
  | [], _, keys => if keys = [] then none else some keys
  | tok :: parts, cur, keys =>
    if 24 ≤ tok.length then none
    else
      match modifierOf (tok.map toLower) with
      | some press => strokesOf cap parts (press cur) keys
      | none =>
        match parseKeyToken tok with
        | none => none
        | some id =>
          if cap ≤ keys.length then none
          else strokesOf cap parts emptyStroke (keys ++ [tuiKeyStrokeNormalize { cur with id }])

/-- `parse_stroke_run` -/
def parseStrokeRun (run : List UInt8) (cap : Nat) : Option (List TuiKeyStroke) :=
  if ascii "<leader>" <+: run ∧ run.length ≠ 8 then
    if cap < 2 then none
    else
      match parseStrokeRun (run.drop 8) (cap - 1) with
      | none => none
      | some keys => some ({ emptyStroke with id := keyidLeader } :: keys)
  else if 64 ≤ run.length then none
  else
    let parts := strtok 43 run
    if 8 < parts.length then none
    else if parts = [] then none
    else strokesOf cap parts emptyStroke []
termination_by cap

/-- The loop of `tui_key_parse` over the chords of an alternative. -/
def chordsOf : (toks : List (List UInt8)) → (keys : List TuiKeyStroke) →
    Option (List TuiKeyStroke)
  | [], keys => some keys
  | tok :: toks, keys =>
    match parseStrokeRun tok keyseqMaxKeys with
    | none => none
    | some run =>
      if keyseqMaxKeys < keys.length + run.length then none else chordsOf toks (keys ++ run)

/-- The loop of `tui_key_parse` over the alternatives. -/
def alternativesOf : (toks : List (List UInt8)) → (alts : List (List TuiKeyStroke)) →
    Option (List (List TuiKeyStroke))
  | [], alts => some alts
  | tok :: toks, alts =>
    if keyseqMaxAlt ≤ alts.length then some alts
    else
      let s := strip isSpace tok
      if s = [] then alternativesOf toks alts
      else
        match chordsOf (strtok 32 s) [] with
        | none => none
        | some keys => if keys = [] then none else alternativesOf toks (alts ++ [keys])

/-- `tui_key_parse` -/
def tuiKeyParse (spec : List UInt8) : Option (List (List TuiKeyStroke)) :=
  if 256 ≤ spec.length then none
  else
    match alternativesOf (strtok 44 spec) [] with
    | none => none
    | some alts => if alts = [] then none else some alts

section Parsed

variable {keys out : List TuiKeyStroke}

theorem normalized_of_strokesOf {cap : Nat} {parts : List (List UInt8)} {cur : TuiKeyStroke}
    (hkeys : ∀ s ∈ keys, Normalized s) (h : strokesOf cap parts cur keys = some out) :
    ∀ s ∈ out, Normalized s := by
  induction parts generalizing cur keys with
  | nil =>
    rw [strokesOf] at h
    split at h
    · exact absurd h (by simp)
    · rwa [← Option.some.inj h]
  | cons tok parts ih =>
    rw [strokesOf] at h
    split at h
    · exact absurd h (by simp)
    · split at h
      · exact ih hkeys h
      · split at h
        · exact absurd h (by simp)
        · split at h
          · exact absurd h (by simp)
          · refine ih (fun s hs => ?_) h
            rcases List.mem_append.1 hs with hs | hs
            · exact hkeys s hs
            · rw [List.mem_singleton.1 hs]
              exact normalized_normalize _

theorem normalized_of_parseStrokeRun {run : List UInt8} {cap : Nat}
    (h : parseStrokeRun run cap = some out) : ∀ s ∈ out, Normalized s := by
  fun_induction parseStrokeRun run cap generalizing out with
  | case1 => exact absurd h (by simp)
  | case2 => exact absurd h (by simp)
  | case3 run cap _ _ keys hkeys ih =>
    rw [← Option.some.inj h]
    intro s hs
    rcases List.mem_cons.1 hs with rfl | hs
    · exact (by decide : ¬(65 ≤ keyidLeader ∧ keyidLeader ≤ 90))
    · exact ih hkeys s hs
  | case4 => exact absurd h (by simp)
  | case5 => exact absurd h (by simp)
  | case6 => exact absurd h (by simp)
  | case7 => exact normalized_of_strokesOf (fun s hs => absurd hs (by simp)) h

theorem normalized_of_chordsOf {toks : List (List UInt8)} (hkeys : ∀ s ∈ keys, Normalized s)
    (h : chordsOf toks keys = some out) : ∀ s ∈ out, Normalized s := by
  induction toks generalizing keys with
  | nil => exact Option.some.inj h ▸ hkeys
  | cons tok toks ih =>
    rw [chordsOf] at h
    split at h
    · exact absurd h (by simp)
    · next run hrun =>
      split at h
      · exact absurd h (by simp)
      · refine ih (fun s hs => ?_) h
        rcases List.mem_append.1 hs with hs | hs
        · exact hkeys s hs
        · exact normalized_of_parseStrokeRun hrun s hs

theorem normalized_of_alternativesOf {toks : List (List UInt8)} {alts out : List (List TuiKeyStroke)}
    (halts : ∀ alt ∈ alts, ∀ s ∈ alt, Normalized s) (h : alternativesOf toks alts = some out) :
    ∀ alt ∈ out, ∀ s ∈ alt, Normalized s := by
  induction toks generalizing alts with
  | nil => exact Option.some.inj h ▸ halts
  | cons tok toks ih =>
    rw [alternativesOf] at h
    split at h
    · exact Option.some.inj h ▸ halts
    · dsimp only at h
      split at h
      · exact ih halts h
      · split at h
        · exact absurd h (by simp)
        · next keys hkeys =>
          split at h
          · exact absurd h (by simp)
          · refine ih (fun alt halt => ?_) h
            rcases List.mem_append.1 halt with halt | halt
            · exact halts alt halt
            · rw [List.mem_singleton.1 halt]
              exact normalized_of_chordsOf (fun s hs => absurd hs (by simp)) hkeys

/-- Every stroke that is parsed is normalized. -/
theorem normalized_of_tuiKeyParse {spec : List UInt8} {alts : List (List TuiKeyStroke)}
    (h : tuiKeyParse spec = some alts) : ∀ alt ∈ alts, ∀ s ∈ alt, Normalized s := by
  rw [tuiKeyParse] at h
  split at h
  · exact absurd h (by simp)
  · split at h
    · exact absurd h (by simp)
    · next out hout =>
      split at h
      · exact absurd h (by simp)
      · rw [← Option.some.inj h]
        exact normalized_of_alternativesOf (fun alt halt => absurd halt (by simp)) hout

end Parsed

/-! ## The keymap -/

/-- `TuiKeyBinding` -/
structure TuiKeyBinding where
  name : List UInt8
  category : List UInt8
  desc : List UInt8
  keys : List UInt8
  enabled : Bool
  alts : List (List TuiKeyStroke)
  deriving DecidableEq, Repr

/-- `TuiKeymap`; the text of the leader is for display only. -/
structure TuiKeymap where
  bindings : List TuiKeyBinding
  leader : TuiKeyStroke
  leaderTimeout : UInt64
  leaderArmed : Bool
  leaderDeadline : UInt64
  deriving DecidableEq, Repr

/-- `tui_keymap_create`: the leader is `ctrl+x`. -/
def tuiKeymapCreate : TuiKeymap where
  bindings := []
  leader := { emptyStroke with id := 120, ctrl := true }
  leaderTimeout := 2000
  leaderArmed := false
  leaderDeadline := 0

/-- `copy_field` -/
def copyField (cap : Nat) (src : List UInt8) : List UInt8 := src.take (cap - 1)

/-- `binding_index` -/
def bindingIndex (km : TuiKeymap) (name : List UInt8) : Option Nat :=
  km.bindings.findIdx? fun b => b.name = name

/-- `tui_keymap_register` -/
def tuiKeymapRegister (km : TuiKeymap) (b : TuiKeyBinding) : Int × TuiKeymap :=
  match bindingIndex km b.name with
  | some idx =>
    -- the binding as it was passed: its text is not parsed
    (0, { km with bindings := km.bindings.modify idx fun dst => { b with enabled := dst.enabled } })
  | none =>
    if keymapMaxBindings ≤ km.bindings.length then (-1, km)
    else
      match tuiKeyParse b.keys with
      | none => (-1, km)
      | some alts =>
        (0, { km with bindings := km.bindings ++ [
          { name := copyField 48 b.name
            category := copyField 24 b.category
            desc := copyField 96 b.desc
            keys := copyField 64 b.keys
            enabled := true
            alts }] })

/-- `tui_keymap_bind` -/
def tuiKeymapBind (km : TuiKeymap) (name keys : List UInt8) : Int × TuiKeymap :=
  match bindingIndex km name with
  | none => (-1, km)
  | some idx =>
    if keys = [] ∨ keys = ascii "none" then
      (0, { km with bindings := km.bindings.modify idx fun b => { b with enabled := false } })
    else
      match tuiKeyParse keys with
      | none => (-1, km)
      | some alts =>
        (0, { km with bindings := km.bindings.modify idx fun b =>
          { b with keys := copyField 64 keys, alts, enabled := true } })

/-- `tui_keymap_disable` -/
def tuiKeymapDisable (km : TuiKeymap) (name : List UInt8) : Int × TuiKeymap :=
  match bindingIndex km name with
  | none => (-1, km)
  | some idx =>
    (0, { km with bindings := km.bindings.modify idx fun b => { b with enabled := false } })

/-- `tui_keymap_set_leader` -/
def tuiKeymapSetLeader (km : TuiKeymap) (spec : List UInt8) : Int × TuiKeymap :=
  match tuiKeyParse spec with
  | some [[stroke]] => if stroke.id = keyidLeader then (-1, km) else (0, { km with leader := stroke })
  | _ => (-1, km)

/-- `tui_keymap_set_leader_timeout` -/
def tuiKeymapSetLeaderTimeout (km : TuiKeymap) (ms : UInt64) : TuiKeymap :=
  { km with leaderTimeout := if 0 < ms then ms else 1 }

/-! ## Dispatch -/

/-- What a stroke comes to. -/
inductive TuiKeymapResult where
  | cmd (name : List UInt8)
  | leader
  | nomatch
  deriving DecidableEq, Repr

/-- `tui_keymap_leader_expired` -/
def tuiKeymapLeaderExpired (km : TuiKeymap) (now : UInt64) : TuiKeymap :=
  if km.leaderArmed ∧ km.leaderDeadline ≤ now then { km with leaderArmed := false } else km

/-- An alternative that a stroke behind the leader completes. -/
def completesChord (norm : TuiKeyStroke) (alt : List TuiKeyStroke) : Bool :=
  match alt with
  | [first, second] => first.id = keyidLeader && second = norm
  | _ => false

/-- An alternative of one stroke. -/
def isSingle (norm : TuiKeyStroke) (alt : List TuiKeyStroke) : Bool := alt = [norm]

/-- The first command that is enabled and has such an alternative. -/
def commandOf (km : TuiKeymap) (p : List TuiKeyStroke → Bool) : Option TuiKeyBinding :=
  km.bindings.find? fun b => b.enabled && b.alts.any p

/-- The end of `tui_keymap_dispatch`, where no leader is armed. -/
def dispatchFresh (km : TuiKeymap) (norm : TuiKeyStroke) (now : UInt64) :
    TuiKeymapResult × TuiKeymap :=
  if norm = km.leader then
    (.leader, { km with leaderArmed := true, leaderDeadline := now + km.leaderTimeout })
  else
    match commandOf km (isSingle norm) with
    | some b => (.cmd b.name, km)
    | none => (.nomatch, km)

/-- `tui_keymap_dispatch` -/
def tuiKeymapDispatch (km : TuiKeymap) (stroke : TuiKeyStroke) (now : UInt64) :
    TuiKeymapResult × TuiKeymap :=
  let norm := tuiKeyStrokeNormalize stroke
  let km := tuiKeymapLeaderExpired km now
  if km.leaderArmed then
    match commandOf km (completesChord norm) with
    | some b => (.cmd b.name, { km with leaderArmed := false })
    | none => dispatchFresh { km with leaderArmed := false } norm now
  else dispatchFresh km norm now

end EchoAi.Keys
