import Raksha.Common.Utils
import Mathlib.Data.Finset.Insert
import Mathlib.Data.Finset.Erase

/-!
# The ambient policy checker

`frontends/ambient/policy_checker.{h,cc}`. The checker stores the data flow edges that it has
accepted and the settings of the users; a Souffle program judges them.
-/

namespace Raksha.Ambient
open Raksha.Common

inductive Node
  | unknown
  | smartMicrophone
  | demoApplication
  | demoApplicationASR
  | demoApplicationAudioStore
deriving DecidableEq

inductive User
  | unknown
  | owner
  | guest
deriving DecidableEq

inductive Settings
  | unknown
  | streaming
  | asr
  | recording
deriving DecidableEq

abbrev DataFlowEdge : Type := String × String
abbrev SettingsMap : Type := FlatHashMap Settings Bool

def getSettingsName : Settings → Checked String
  | .asr => .ok "ASR"
  | .streaming => .ok "Streaming"
  | .recording => .ok "Recording"
  | .unknown => .error "Unknown settings"

def getSettings (name : String) : Checked Settings :=
  if name = "ASR" then .ok .asr
  else if name = "Streaming" then .ok .streaming
  else if name = "Recording" then .ok .recording
  else .error "Unknown settings"

def getUserName : User → Checked String
  | .owner => .ok "OwnerUser"
  | .guest => .ok "GuestUser"
  | .unknown => .error "Unknown user"

def getDataConnectionName : Node → Bool → Checked String
  | .smartMicrophone, inBound =>
    if inBound then .error "No inbound connections for SmartMicrophone"
    else .ok "R.mic_audio_stream_out"
  | .demoApplication, inBound =>
    .ok (if inBound then "R.app_audio_stream_in" else "R.app_audio_stream_out")
  | .demoApplicationASR, inBound =>
    if inBound then .ok "R.asr_audio_stream_in"
    else .error "No outbound connections for ASR application."
  | .demoApplicationAudioStore, inBound =>
    if inBound then .ok "R.store_audio_stream_in"
    else .error "No outbound connections for ASR application."
  | .unknown, _ => .error "Unknown node"

/-- A fact of `disallowedUsage`. -/
structure DisallowedUsage where
  dataConsumer : String
  usage : String
  owner : String
  tag : String

/-- The Souffle program: what it derives from the facts of `edge` and `says_isEnabled`. -/
structure PolicyProgram where
  disallowedUsage : Finset DataFlowEdge → Finset (String × String) → List DisallowedUsage
  saysCanSayIsEnabled :
    Finset DataFlowEdge → Finset (String × String) → List (String × String × String)

def allSettings : SettingsMap :=
  .ofPairs [(.asr, true), (.streaming, true), (.recording, true)]

structure PolicyChecker where
  edges : Finset DataFlowEdge := ∅
  userSettings : FlatHashMap User SettingsMap := .ofPairs [(.owner, allSettings), (.guest, allSettings)]

namespace PolicyChecker

def addEdge (checker : PolicyChecker) (src tgt : String) : PolicyChecker :=
  { checker with edges := insert (src, tgt) checker.edges }

def isEdgePresent (checker : PolicyChecker) (src tgt : String) : Bool := (src, tgt) ∈ checker.edges

def removeEdge (checker : PolicyChecker) (src tgt : String) : PolicyChecker :=
  { checker with edges := checker.edges.erase (src, tgt) }

/-- The settings that `UpdateSettings` inserts. -/
def enabledSettings (userSettings : FlatHashMap User SettingsMap) : List (User × Settings) :=
  userSettings.entries.flatMap fun user =>
    (user.2.entries.filter fun setting => setting.2).map fun setting => (user.1, setting.1)

def updateSettings (userSettings : FlatHashMap User SettingsMap) :
    Checked (Finset (String × String)) := do
  let facts ← (enabledSettings userSettings).mapM fun setting => do
    return (← getUserName setting.1, ← getSettingsName setting.2)
  return facts.toFinset

def disallowedUsageText (output : DisallowedUsage) : String :=
  " '" ++ output.usage ++ "' for '" ++ output.tag ++ "' of '" ++ output.owner ++ "'\n"

section

variable (program : PolicyProgram)

def validatePolicyCompliance (checker : PolicyChecker) : Checked (Bool × String) := do
  let settings ← updateSettings checker.userSettings
  let disallowedUsage := program.disallowedUsage checker.edges settings
  if disallowedUsage = [] then return (true, "Success")
  return (false, "Disallowed Usages:\n" ++ String.join (disallowedUsage.map disallowedUsageText))

/-- The program is run on no facts here. -/
def canUserChangeSettingNamed (user settingName : String) : Bool :=
  (program.saysCanSayIsEnabled ∅ ∅).any fun output =>
    output.1 = "SystemSettingsManager" ∧ output.2.1 = user ∧ output.2.2 = settingName

def canUserChangeSetting (user : User) (setting : Settings) : Checked Bool := do
  return canUserChangeSettingNamed program (← getUserName user) (← getSettingsName setting)

def availableSettingsNamed (user : String) : List String :=
  ((program.saysCanSayIsEnabled ∅ ∅).filter fun output =>
    output.1 = "SystemSettingsManager" ∧ output.2.1 = user).map fun output => output.2.2

def availableSettings (user : User) : Checked (List Settings) := do
  (availableSettingsNamed program (← getUserName user)).mapM getSettings

/-- `user_settings_[user][setting] = value`. -/
def setSetting (checker : PolicyChecker) (user : User) (setting : Settings) (value : Bool) :
    PolicyChecker :=
  { checker with
    userSettings := checker.userSettings.insertOrAssign user
      (((checker.userSettings.lookup user).getD ∅).insertOrAssign setting value) }

def changeSetting (checker : PolicyChecker) (user : User) (setting : Settings) (value : Bool) :
    Checked (Bool × PolicyChecker) := do
  let userName ← getUserName user
  let settingsName ← getSettingsName setting
  if canUserChangeSettingNamed program userName settingsName then
    check (user = .owner ∨ user = .guest) "user == User::kOwner || user == User::kGuest"
    return (true, checker.setSetting user setting value)
  else return (false, checker)

/-- `AddIfValidEdge` for the names of the connections. -/
def addIfValidEdge (checker : PolicyChecker) (src tgt : String) :
    Checked ((Bool × String) × PolicyChecker) := do
  let edgeAlreadyInContext := checker.isEdgePresent src tgt
  let checker := if edgeAlreadyInContext then checker else checker.addEdge src tgt
  let result ← checker.validatePolicyCompliance program
  if !result.1 && !edgeAlreadyInContext then return (result, checker.removeEdge src tgt)
  return (result, checker)

/-- `IsValidEdge` for the names of the connections. -/
def isValidEdge (checker : PolicyChecker) (src tgt : String) :
    Checked ((Bool × String) × PolicyChecker) := do
  let checker := checker.addEdge src tgt
  let result ← checker.validatePolicyCompliance program
  return (result, checker.removeEdge src tgt)

def addIfValidEdgeOfNodes (checker : PolicyChecker) (source target : Node) :
    Checked ((Bool × String) × PolicyChecker) := do
  checker.addIfValidEdge program (← getDataConnectionName source false)
    (← getDataConnectionName target true)

def isValidEdgeOfNodes (checker : PolicyChecker) (source target : Node) :
    Checked ((Bool × String) × PolicyChecker) := do
  checker.isValidEdge program (← getDataConnectionName source false)
    (← getDataConnectionName target true)

end

end PolicyChecker

end Raksha.Ambient
