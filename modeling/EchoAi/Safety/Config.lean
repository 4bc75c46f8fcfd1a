import EchoAi.Bytes

/-!
# The safety policy

* `SafetyMode`, `SafetyConfig`: how strict the policy is, and the parts of it that the checks of
  commands, paths and tools read.
* `safetyNeedsApproval`: whether a tool has to be approved by the user; `safetyAllowToolAlways`: that
  it need not be from now on.
-/

namespace EchoAi

/-- How strict the policy is. -/
inductive SafetyMode where
  | restricted
  | approveAll
  | unrestricted
  deriving DecidableEq, Repr

/-- The policy: its workspace, its mode and the tools that need approval. -/
structure SafetyConfig where
  workspace : Option (List UInt8) := none
  mode : SafetyMode := .restricted
  requireApprovalFor : List String := []
  deriving DecidableEq, Repr

/-- `safety_needs_approval`. -/
def safetyNeedsApproval : (cfg : Option SafetyConfig) → (toolName : Option String) → Bool
  | some cfg, some toolName =>
    match cfg.mode with
    | .approveAll => true
    | .unrestricted => false
    | .restricted => cfg.requireApprovalFor.contains toolName
  | _, _ => true

/-- `safety_allow_tool_always`: the tool is taken from the list. -/
def safetyAllowToolAlways (cfg : SafetyConfig) (toolName : String) : SafetyConfig :=
  { cfg with requireApprovalFor := cfg.requireApprovalFor.erase toolName }

end EchoAi
