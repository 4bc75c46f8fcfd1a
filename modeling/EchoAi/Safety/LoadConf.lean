import EchoAi.Faults
import EchoAi.Safety.Command

/-!
# Loading the safety policy

* `confGet`, `confGetInt`: what the configuration has under a key.
* `parseCsv`, `safetyLoadFromConf`: the loading, under any failing allocations.
* `Exact`: every field is the one of the configuration, or the one before the call.
* `Loaded`, `Incomplete`: what a call that succeeds leaves, and one that fails.
* `loaded_safetyLoadFromConf`: these are all calls whose copies of the entries succeed.

A list is what lies below its count; an entry whose copy failed is absent.
-/

namespace EchoAi

/-! ## The configuration -/

/-- The entries of a configuration. -/
abbrev Conf := List (String × List UInt8)

/-- `conf_get`. -/
def confGet (conf : Conf) (key : String) : Option (List UInt8) :=
  (conf.find? fun entry => entry.1 == key).map Prod.snd

/-- The number of a text, or the default where it is no `int`. -/
def intOf (val : List UInt8) (default : Int) : Int :=
  match strtolWhole val with
  | none => default
  | some n => if 2 ^ 31 - 1 < n ∨ n < -2 ^ 31 then default else n

/-- `conf_get_int`. -/
def confGetInt (conf : Conf) (key : String) (default : Int) : Int :=
  match confGet conf key with
  | none => default
  | some val => intOf val default

/-- An `int` as a `size_t`. -/
def sizeOfInt (n : Int) : Nat := (n % 2 ^ 64).toNat

/-! ## The policy -/

/-- The lists of a policy. -/
inductive ListKey where
  | allowedCommands
  | blockedCommands
  | allowedExtensions
  | blockedExtensions
  | blockedPaths
  | allowedDomains
  | requireApprovalFor
  deriving DecidableEq, Repr

/-- All lists, in the order in which they are loaded. -/
def ListKey.all : List ListKey :=
  [.allowedCommands, .blockedCommands, .allowedExtensions, .blockedExtensions, .blockedPaths,
    .allowedDomains, .requireApprovalFor]

theorem ListKey.mem_all (k : ListKey) : k ∈ ListKey.all := by
  cases k <;> decide

/-- The key of a list in the configuration. -/
def ListKey.key : ListKey → String
  | .allowedCommands => "safety.allowed_commands"
  | .blockedCommands => "safety.blocked_commands"
  | .allowedExtensions => "safety.allowed_extensions"
  | .blockedExtensions => "safety.blocked_extensions"
  | .blockedPaths => "safety.blocked_paths"
  | .allowedDomains => "safety.allowed_domains"
  | .requireApprovalFor => "safety.require_approval_for"

/-- The entries of a list. -/
abbrev Entries := List (Option (List UInt8))

/-- The whole policy. -/
structure SafetyPolicy where
  workspace : Option (List UInt8) := none
  mode : SafetyMode := .restricted
  lists : ListKey → Entries := fun _ => []
  allowNetwork : Bool := true
  maxFileSize : Nat := 10485760
  maxExecutionTime : Int := 300
  auditLogPath : Option (List UInt8) := none
  readRequiresApproval : Int := 0
  readSizeThreshold : Nat := 1048576
  webFetchMaxChars : Nat := 25000

/-! ## Loading -/

/-- The allocations of a list. -/
inductive ListAlloc where
  | items
  | grow (capacity : Nat)
  | item (i : Nat)
  | result
  | entry (i : Nat)
  deriving DecidableEq, Repr

/-- The allocations of a call. -/
inductive LoadAlloc where
  | workspace
  | list (k : ListKey) (alloc : ListAlloc)
  | defaults
  | default (i : Nat)
  | auditLogPath
  deriving DecidableEq, Repr

/-- The loop of `str_split`: an item that cannot be allocated is left out. -/
def splitLoop (fail : Faults ListAlloc) : (capacity i : Nat) → (kept : List (List UInt8)) →
    List (List UInt8) → List (List UInt8)
  | _, _, kept, [] => kept
  | capacity, i, kept, item :: rest =>
    let full := decide (capacity ≤ kept.length)
    if full && fail (.grow capacity) then []
    else
      splitLoop fail (if full then capacity * 2 else capacity) (i + 1)
        (if fail (.item i) then kept else kept ++ [item]) rest

/-- `parse_csv`. -/
def parseCsv (fail : Faults ListAlloc) (val : List UInt8) : Option Entries :=
  if val = [] then none
  else
    let arr := if fail .items then [] else splitLoop fail 8 0 [] (strSplit val 44)
    if arr = [] ∨ fail .result then none
    else some (arr.mapIdx fun i item => if fail (.entry i) then none else some (strTrim item))

/-- A text of the policy, and whether its copy failed. -/
def loadText (failed : Bool) (v old : Option (List UInt8)) : Bool × Option (List UInt8) :=
  match v with
  | none => (false, old)
  | some v => if failed then (true, old) else (false, some v)

/-- A list of the policy, and whether it could not be parsed; `parse_csv` has cleared its count. -/
def loadList (fail : Faults ListAlloc) (v : Option (List UInt8)) (old : Entries) :
    Bool × Entries :=
  match v with
  | none => (false, old)
  | some v =>
    if v = [] then (false, [])
    else
      match parseCsv fail v with
      | none => (true, [])
      | some entries => (false, entries)

/-- The tools that need approval when the list is empty. -/
def defaultApprovals : List (List UInt8) :=
  [ascii "bash", ascii "write_file", ascii "edit", ascii "git", ascii "python_execute",
    ascii "delegate"]

/-- The default list where none is there, and whether it could not be allocated. -/
def loadDefaults (fail : Faults LoadAlloc) (entries : Entries) : Bool × Entries :=
  if entries = [] then
    if fail .defaults || (List.range defaultApprovals.length).any (fun i => fail (.default i)) then
      (true, [])
    else (false, defaultApprovals.map some)
  else (false, entries)

/-- The mode that a text names. -/
def modeOf (v : List UInt8) : Option SafetyMode :=
  if v = ascii "approve_all" then some .approveAll
  else if v = ascii "unrestricted" then some .unrestricted
  else if v = ascii "restricted" then some .restricted
  else none

/-- Whether a text is `true` or `1`. -/
def flagOf (v : List UInt8) : Bool := v = ascii "true" ∨ v = ascii "1"

/-- The lists of the policy, each with whether it failed. -/
def loadedList (fail : Faults LoadAlloc) (conf : Conf) (cfg : SafetyPolicy) (k : ListKey) :
    Bool × Entries :=
  let loaded := loadList (fail.within (.list k)) (confGet conf k.key) (cfg.lists k)
  if k = .requireApprovalFor then
    let filled := loadDefaults fail loaded.2
    (loaded.1 || filled.1, filled.2)
  else loaded

/-- `safety_load_from_conf`: whether it succeeds, and the policy it leaves. -/
def safetyLoadFromConf (fail : Faults LoadAlloc) (conf : Conf) (cfg : SafetyPolicy) :
    Bool × SafetyPolicy :=
  let workspace := loadText (fail .workspace) (confGet conf "safety.workspace") cfg.workspace
  let auditLogPath :=
    loadText (fail .auditLogPath) (confGet conf "safety.audit_log_path") cfg.auditLogPath
  let failed := workspace.1 || ListKey.all.any (fun k => (loadedList fail conf cfg k).1) ||
    auditLogPath.1
  (!failed,
    { workspace := workspace.2
      mode := ((confGet conf "safety.mode").bind modeOf).getD cfg.mode
      lists := fun k => (loadedList fail conf cfg k).2
      allowNetwork := (confGet conf "safety.allow_network").elim true flagOf
      maxFileSize := sizeOfInt (confGetInt conf "safety.max_file_size" 10485760)
      maxExecutionTime := confGetInt conf "safety.max_execution_time" 300
      auditLogPath := auditLogPath.2
      readRequiresApproval := confGetInt conf "safety.read_requires_approval" 0
      readSizeThreshold := sizeOfInt (confGetInt conf "safety.read_size_threshold" 1048576)
      webFetchMaxChars := sizeOfInt (confGetInt conf "safety.web_fetch_max_chars" 25000) })

/-! ## What a call leaves -/

/-- The entries that a text stands for. -/
def configured (v : List UInt8) : Entries :=
  if v = [] then [] else (strSplit v 44).map fun item => some (strTrim item)

/-- The default list in place of an empty one. -/
def orDefaults (k : ListKey) (entries : Entries) : Entries :=
  if k = .requireApprovalFor ∧ entries = [] then defaultApprovals.map some else entries

/-- Every field is the one of the configuration, or else the one before the call. -/
structure Exact (conf : Conf) (cfg after : SafetyPolicy) : Prop where
  workspace : after.workspace = (confGet conf "safety.workspace").or cfg.workspace
  mode : after.mode = ((confGet conf "safety.mode").bind modeOf).getD cfg.mode
  lists : ∀ k, after.lists k = (confGet conf k.key).elim (cfg.lists k) configured
  allowNetwork : after.allowNetwork =
    (confGet conf "safety.allow_network").elim cfg.allowNetwork flagOf
  maxFileSize : after.maxFileSize =
    (confGet conf "safety.max_file_size").elim cfg.maxFileSize fun v =>
      sizeOfInt (intOf v 10485760)
  maxExecutionTime : after.maxExecutionTime =
    (confGet conf "safety.max_execution_time").elim cfg.maxExecutionTime fun v => intOf v 300
  auditLogPath : after.auditLogPath = (confGet conf "safety.audit_log_path").or cfg.auditLogPath
  readRequiresApproval : after.readRequiresApproval =
    (confGet conf "safety.read_requires_approval").elim cfg.readRequiresApproval fun v => intOf v 0
  readSizeThreshold : after.readSizeThreshold =
    (confGet conf "safety.read_size_threshold").elim cfg.readSizeThreshold fun v =>
      sizeOfInt (intOf v 1048576)
  webFetchMaxChars : after.webFetchMaxChars =
    (confGet conf "safety.web_fetch_max_chars").elim cfg.webFetchMaxChars fun v =>
      sizeOfInt (intOf v 25000)

/-- Every text and list is the one of the configuration or else the one before the call, with the
default approvals in place of none; every number that is configured is the configured one. -/
structure Loaded (conf : Conf) (cfg after : SafetyPolicy) : Prop where
  workspace : after.workspace = (confGet conf "safety.workspace").or cfg.workspace
  mode : after.mode = ((confGet conf "safety.mode").bind modeOf).getD cfg.mode
  lists : ∀ k, after.lists k = orDefaults k ((confGet conf k.key).elim (cfg.lists k) configured)
  auditLogPath : after.auditLogPath = (confGet conf "safety.audit_log_path").or cfg.auditLogPath
  allowNetwork : ∀ v, confGet conf "safety.allow_network" = some v → after.allowNetwork = flagOf v
  maxFileSize : ∀ v, confGet conf "safety.max_file_size" = some v →
    after.maxFileSize = sizeOfInt (intOf v 10485760)
  maxExecutionTime : ∀ v, confGet conf "safety.max_execution_time" = some v →
    after.maxExecutionTime = intOf v 300
  readRequiresApproval : ∀ v, confGet conf "safety.read_requires_approval" = some v →
    after.readRequiresApproval = intOf v 0
  readSizeThreshold : ∀ v, confGet conf "safety.read_size_threshold" = some v →
    after.readSizeThreshold = sizeOfInt (intOf v 1048576)
  webFetchMaxChars : ∀ v, confGet conf "safety.web_fetch_max_chars" = some v →
    after.webFetchMaxChars = sizeOfInt (intOf v 25000)

/-- Every text is the one of the configuration or the one before the call, and every list is one of
these, or empty, or the default approvals. -/
structure Incomplete (conf : Conf) (cfg after : SafetyPolicy) : Prop where
  workspace : after.workspace = cfg.workspace ∨
    after.workspace = (confGet conf "safety.workspace").or cfg.workspace
  mode : after.mode = ((confGet conf "safety.mode").bind modeOf).getD cfg.mode
  lists : ∀ k, after.lists k = [] ∨ (k = .requireApprovalFor ∧
      after.lists k = defaultApprovals.map some) ∨
    after.lists k = (confGet conf k.key).elim (cfg.lists k) configured
  auditLogPath : after.auditLogPath = cfg.auditLogPath ∨
    after.auditLogPath = (confGet conf "safety.audit_log_path").or cfg.auditLogPath

/-- Without failing copies the loop of the split keeps every item, or gives up on all of them. -/
theorem splitLoop_eq {fail : Faults ListAlloc} (hitems : ∀ i, fail (.item i) = false)
    (capacity i : Nat) (kept items : List (List UInt8)) :
    splitLoop fail capacity i kept items = kept ++ items ∨
      (splitLoop fail capacity i kept items = [] ∧ ∃ capacity, fail (.grow capacity) = true) := by
  induction items generalizing capacity i kept with
  | nil => exact Or.inl (List.append_nil kept).symm
  | cons item rest ih =>
    rw [splitLoop]
    split
    · next hgrow =>
      rw [Bool.and_eq_true] at hgrow
      exact Or.inr ⟨rfl, capacity, hgrow.2⟩
    · rw [hitems i, if_neg Bool.false_ne_true]
      have hrest := ih (if decide (capacity ≤ kept.length) = true then capacity * 2 else capacity)
        (i + 1) (kept ++ [item])
      rwa [List.append_assoc, List.singleton_append] at hrest

theorem strSplit_ne_nil (val : List UInt8) (delimiter : UInt8) : strSplit val delimiter ≠ [] :=
  List.splitOnP_ne_nil _ val

/-- Without failing copies a list is parsed as it is configured, or not at all. -/
theorem parseCsv_eq {fail : Faults ListAlloc} {val : List UInt8} (hval : val ≠ [])
    (hcopies : ∀ i, fail (.item i) = false ∧ fail (.entry i) = false) :
    parseCsv fail val = some (configured val) ∨
      (parseCsv fail val = none ∧ ∃ alloc, fail alloc = true) := by
  rw [parseCsv, if_neg hval, configured, if_neg hval]
  cases hstart : fail .items with
  | true => exact Or.inr ⟨rfl, _, hstart⟩
  | false =>
    obtain hkept | ⟨hnone, capacity, hgrow⟩ :=
      splitLoop_eq (fun i => (hcopies i).1) 8 0 [] (strSplit val 44)
    · dsimp only
      rw [if_neg Bool.false_ne_true, hkept, List.nil_append]
      cases hresult : fail .result with
      | true => exact Or.inr ⟨if_pos (Or.inr rfl), _, hresult⟩
      | false =>
        refine Or.inl ((if_neg ?_).trans (congrArg some ?_))
        · rintro (hnone | hfalse)
          · exact strSplit_ne_nil val 44 hnone
          · exact absurd hfalse Bool.false_ne_true
        · refine List.ext_getElem (by simp) fun i hi hi' => ?_
          rw [List.getElem_mapIdx, List.getElem_map, (hcopies i).2, if_neg Bool.false_ne_true]
    · dsimp only
      rw [if_neg Bool.false_ne_true, hnone]
      exact Or.inr ⟨if_pos (Or.inl rfl), _, hgrow⟩

/-- A list that is loaded, or could not be parsed and is empty. -/
theorem loadList_eq {fail : Faults ListAlloc} (v : Option (List UInt8)) (old : Entries)
    (hcopies : ∀ i, fail (.item i) = false ∧ fail (.entry i) = false) :
    loadList fail v old = (false, v.elim old configured) ∨
      (loadList fail v old = (true, []) ∧ ∃ alloc, fail alloc = true) := by
  cases v with
  | none => exact Or.inl rfl
  | some v =>
    rw [loadList]
    split
    · next hempty => exact Or.inl (by rw [hempty]; rfl)
    · next hsome =>
      obtain hparsed | ⟨hnone, halloc⟩ := parseCsv_eq hsome hcopies
      · exact Or.inl (by rw [hparsed]; rfl)
      · exact Or.inr ⟨by rw [hnone], halloc⟩

theorem loadText_eq (failed : Bool) (v old : Option (List UInt8)) :
    loadText failed v old = (false, v.or old) ∨
      (loadText failed v old = (true, old) ∧ failed = true) := by
  cases v with
  | none => exact Or.inl rfl
  | some v =>
    cases failed with
    | false => exact Or.inl rfl
    | true => exact Or.inr ⟨rfl, rfl⟩

theorem loadDefaults_eq (fail : Faults LoadAlloc) (entries : Entries) :
    loadDefaults fail entries = (false, orDefaults .requireApprovalFor entries) ∨
      (loadDefaults fail entries = (true, []) ∧ ∃ alloc, fail alloc = true) := by
  rw [loadDefaults, orDefaults]
  split
  · next hempty =>
    split
    · next hfail =>
      rw [Bool.or_eq_true, List.any_eq_true] at hfail
      obtain hall | ⟨i, -, hone⟩ := hfail
      · exact Or.inr ⟨rfl, _, hall⟩
      · exact Or.inr ⟨rfl, _, hone⟩
    · exact Or.inl (by rw [if_pos ⟨rfl, hempty⟩])
  · next hsome => exact Or.inl (by rw [if_neg fun h => hsome h.2])

/-- No copy of an entry fails. -/
def CopiesSucceed (fail : Faults LoadAlloc) : Prop :=
  ∀ k i, fail (.list k (.item i)) = false ∧ fail (.list k (.entry i)) = false

/-- One list of the policy. -/
theorem loadedList_eq {fail : Faults LoadAlloc} (hcopies : CopiesSucceed fail) (conf : Conf)
    (cfg : SafetyPolicy) (k : ListKey) :
    loadedList fail conf cfg k =
        (false, orDefaults k ((confGet conf k.key).elim (cfg.lists k) configured)) ∨
      ((loadedList fail conf cfg k).1 = true ∧ (∃ alloc, fail alloc = true) ∧
        ((loadedList fail conf cfg k).2 = [] ∨
          k = .requireApprovalFor ∧ (loadedList fail conf cfg k).2 = defaultApprovals.map some)) := by
  have hlist := @loadList_eq (fail.within (.list k)) (confGet conf k.key) (cfg.lists k)
    fun i => hcopies k i
  by_cases hk : k = .requireApprovalFor
  · have hloaded : loadedList fail conf cfg k =
        ((loadList (fail.within (.list k)) (confGet conf k.key) (cfg.lists k)).1 ||
          (loadDefaults fail (loadList (fail.within (.list k)) (confGet conf k.key)
            (cfg.lists k)).2).1,
          (loadDefaults fail (loadList (fail.within (.list k)) (confGet conf k.key)
            (cfg.lists k)).2).2) := if_pos hk
    rw [hloaded]
    obtain hparsed | ⟨hfailed, alloc, halloc⟩ := hlist
    · rw [hparsed]
      obtain hfilled | ⟨hnone, halloc⟩ :=
        loadDefaults_eq fail ((confGet conf k.key).elim (cfg.lists k) configured)
      · rw [hfilled, hk]
        exact Or.inl rfl
      · rw [hnone]
        exact Or.inr ⟨rfl, halloc, Or.inl rfl⟩
    · rw [hfailed]
      refine Or.inr ⟨rfl, ⟨_, halloc⟩, ?_⟩
      obtain hfilled | ⟨hnone, -⟩ := loadDefaults_eq fail []
      · rw [hfilled]
        exact Or.inr ⟨hk, rfl⟩
      · rw [hnone]
        exact Or.inl rfl
  · have hloaded : loadedList fail conf cfg k =
        loadList (fail.within (.list k)) (confGet conf k.key) (cfg.lists k) := if_neg hk
    rw [hloaded]
    obtain hparsed | ⟨hfailed, alloc, halloc⟩ := hlist
    · rw [hparsed, orDefaults, if_neg fun h => hk h.1]
      exact Or.inl rfl
    · rw [hfailed]
      exact Or.inr ⟨rfl, ⟨_, halloc⟩, Or.inl rfl⟩

/-- **Loading the policy.**  When no copy of an entry fails, a call that succeeds leaves the policy of
the configuration, and one that fails has met a failing allocation and leaves an incomplete one. -/
theorem loaded_safetyLoadFromConf {fail : Faults LoadAlloc} (hcopies : CopiesSucceed fail)
    (conf : Conf) (cfg : SafetyPolicy) :
    ((safetyLoadFromConf fail conf cfg).1 = true →
      Loaded conf cfg (safetyLoadFromConf fail conf cfg).2) ∧
    ((safetyLoadFromConf fail conf cfg).1 = false →
      (∃ alloc, fail alloc = true) ∧ Incomplete conf cfg (safetyLoadFromConf fail conf cfg).2) := by
  have hworkspace := loadText_eq (fail .workspace) (confGet conf "safety.workspace") cfg.workspace
  have haudit := loadText_eq (fail .auditLogPath) (confGet conf "safety.audit_log_path")
    cfg.auditLogPath
  have hlists := loadedList_eq hcopies conf cfg
  have hget : ∀ {key : String} {v : List UInt8} (default : Int), confGet conf key = some v →
      confGetInt conf key default = intOf v default := by
    intro key v default hv
    rw [confGetInt, hv]
  have hok : (safetyLoadFromConf fail conf cfg).1 =
      !((loadText (fail .workspace) (confGet conf "safety.workspace") cfg.workspace).1 ||
        ListKey.all.any (fun k => (loadedList fail conf cfg k).1) ||
          (loadText (fail .auditLogPath) (confGet conf "safety.audit_log_path")
            cfg.auditLogPath).1) := rfl
  constructor
  · intro hsuccess
    rw [hok, Bool.not_eq_true', Bool.or_eq_false_iff, Bool.or_eq_false_iff,
      List.any_eq_false] at hsuccess
    obtain ⟨⟨hw, hk⟩, ha⟩ := hsuccess
    refine ⟨?_, rfl, fun k => ?_, ?_, fun v hv => ?_, fun v hv => ?_, fun v hv => ?_,
      fun v hv => ?_, fun v hv => ?_, fun v hv => ?_⟩
    · obtain hloaded | ⟨hfailed, -⟩ := hworkspace
      · exact congrArg Prod.snd hloaded
      · rw [hfailed] at hw
        exact absurd hw (by simp)
    · obtain hloaded | ⟨hfailed, -⟩ := hlists k
      · exact congrArg Prod.snd hloaded
      · exact absurd hfailed (hk k (ListKey.mem_all k))
    · obtain hloaded | ⟨hfailed, -⟩ := haudit
      · exact congrArg Prod.snd hloaded
      · rw [hfailed] at ha
        exact absurd ha (by simp)
    · show (confGet conf "safety.allow_network").elim true flagOf = flagOf v
      rw [hv]
      rfl
    · exact congrArg sizeOfInt (hget 10485760 hv)
    · exact hget 300 hv
    · exact hget 0 hv
    · exact congrArg sizeOfInt (hget 1048576 hv)
    · exact congrArg sizeOfInt (hget 25000 hv)
  · intro hfailure
    rw [hok, Bool.not_eq_false', Bool.or_eq_true, Bool.or_eq_true, List.any_eq_true] at hfailure
    refine ⟨?_, ?_, rfl, fun k => ?_, ?_⟩
    · obtain (hw | ⟨k, -, hk⟩) | ha := hfailure
      · obtain hloaded | ⟨-, halloc⟩ := hworkspace
        · rw [hloaded] at hw
          exact absurd hw (by simp)
        · exact ⟨_, halloc⟩
      · obtain hloaded | ⟨-, halloc, -⟩ := hlists k
        · rw [hloaded] at hk
          exact absurd hk (by simp)
        · exact halloc
      · obtain hloaded | ⟨-, halloc⟩ := haudit
        · rw [hloaded] at ha
          exact absurd ha (by simp)
        · exact ⟨_, halloc⟩
    · obtain hloaded | ⟨hfailed, -⟩ := hworkspace
      · exact Or.inr (congrArg Prod.snd hloaded)
      · exact Or.inl (congrArg Prod.snd hfailed)
    · obtain hloaded | ⟨-, -, hempty | hdefault⟩ := hlists k
      · have hlist : (safetyLoadFromConf fail conf cfg).2.lists k =
            orDefaults k ((confGet conf k.key).elim (cfg.lists k) configured) :=
          congrArg Prod.snd hloaded
        rw [hlist, orDefaults]
        split
        · next hdefault => exact Or.inr (Or.inl ⟨hdefault.1, rfl⟩)
        · exact Or.inr (Or.inr rfl)
      · exact Or.inl hempty
      · exact Or.inr (Or.inl hdefault)
    · obtain hloaded | ⟨hfailed, -⟩ := haudit
      · exact Or.inr (congrArg Prod.snd hloaded)
      · exact Or.inl (congrArg Prod.snd hfailed)

/-- A configuration with a workspace and a list of blocked commands. -/
def exampleConf : Conf :=
  [("safety.workspace", ascii "/w"), ("safety.blocked_commands", ascii "curl, wget"),
    ("safety.audit_log_path", ascii "/a")]

/-- It is loaded when no allocation fails. -/
theorem loaded_exampleConf : Loaded exampleConf {} (safetyLoadFromConf Faults.none exampleConf {}).2 :=
  (loaded_safetyLoadFromConf (fun _ _ => ⟨rfl, rfl⟩) exampleConf {}).1 (by decide +kernel)

/-- The last copy of a call fails: the policy is no longer the one before. -/
theorem not_exact_or_unchanged : ¬ ∀ (fail : Faults LoadAlloc) (conf : Conf) (cfg : SafetyPolicy),
    ((safetyLoadFromConf fail conf cfg).1 = true →
      Exact conf cfg (safetyLoadFromConf fail conf cfg).2) ∧
    ((safetyLoadFromConf fail conf cfg).1 = false → (safetyLoadFromConf fail conf cfg).2 = cfg) := by
  intro h
  have hsame := (h (· == .auditLogPath) exampleConf {}).2 (by decide +kernel)
  have hworkspace := congrArg SafetyPolicy.workspace hsame
  exact absurd hworkspace (by decide +kernel)

end EchoAi
