import Raksha.Ambient.AcceptedEdges
import Raksha.Souffle.ConfidentialityTags

/-!
# The policy of the ambient checker

`frontends/ambient/multimic.dl` and `disallowed_usage.dl` with the rules of `taint.dl` and of the
files that it includes. The program has no operations, and nobody claims that an edge is missing,
owns a path or a tag, or says what it will do, so the rules over these facts are left out.
-/

namespace Raksha.Ambient
open Datalog
open Raksha.Souffle (Symbol Principal AccessPath Tag StartsWithMember arbitraryComputation)

def ownerUser : Principal := "OwnerUser"
def guestUser : Principal := "GuestUser"
def systemSettingsManager : Principal := "SystemSettingsManager"
def demoApplication : Principal := "DemoApplication"
def demoApplicationAudioOut : AccessPath := "R.DemoApplication.audioOut"
def rawAudio : Tag := "RawAudio"
def streaming : Symbol := "Streaming"

def principals : List Principal :=
  ["DemoApplication", "DemoApplicationASR", "DemoApplicationAudioStore", "GuestUser", "OwnerUser",
    "SystemSettingsManager"]

def accessPaths : List AccessPath :=
  ["R.DemoApplication.audioIn", "R.DemoApplication.audioOut", "R.DemoApplicationASR.audio",
    "R.DemoApplicationAudioStore.audio", "R.SmartMicrophone.audio"]

/-- `isUsage`. -/
def usages : List Symbol := ["ASR", "Streaming", "Recording"]

/-- `cat("Does", usage)`. -/
def doesTag (usage : Symbol) : Tag := "Does" ++ usage

/-- `cat("Allow", usage)`. -/
def allowTag (usage : Symbol) : Tag := "Allow" ++ usage

def tags : List Tag := usages.map allowTag ++ usages.map doesTag ++ [rawAudio]

/-- The edges inside the devices and applications. -/
def multimicEdges : List (AccessPath × AccessPath) :=
  [("R.app_audio_stream_in", "R.DemoApplication.audioIn"),
    ("R.DemoApplication.audioOut", "R.app_audio_stream_out"),
    ("R.DemoApplication.audioIn", "R.DemoApplication.audioOut"),
    ("R.asr_audio_stream_in", "R.DemoApplicationASR.audio"),
    ("R.store_audio_stream_in", "R.DemoApplicationAudioStore.audio"),
    ("R.SmartMicrophone.audio", "R.mic_audio_stream_out")]

/-- The applications, where they use audio and what for. -/
def consumers : List (Principal × AccessPath × Symbol) :=
  [("DemoApplication", "R.DemoApplication.audioIn", "Streaming"),
    ("DemoApplicationASR", "R.DemoApplicationASR.audio", "ASR"),
    ("DemoApplicationAudioStore", "R.DemoApplicationAudioStore.audio", "Recording")]

/-- Where both users have raw audio. -/
def rawSources : List AccessPath := ["R.DemoApplication.audioOut", "R.SmartMicrophone.audio"]

inductive SaysAtom
  | isPrincipal (principal : Principal)
  | isAccessPath (path : AccessPath)
  | isTag (tag : Tag)
  | resolvedEdge (owner : Principal) (src tgt : AccessPath)
  | saysIsPrincipal (speaker principal : Principal)
  | saysIsAccessPath (speaker : Principal) (path : AccessPath)
  | saysIsTag (speaker : Principal) (tag : Tag)
  | saysHasTag (speaker : Principal) (path : AccessPath) (owner : Principal) (tag : Tag)
  | saysRemoveTag (speaker : Principal) (path : AccessPath) (owner : Principal) (tag : Tag)
  | saysCanSayHasTag (speaker delegatee : Principal) (path : AccessPath) (owner : Principal)
      (tag : Tag)
  | saysCanSayRemoveTag (speaker delegatee : Principal) (path : AccessPath) (owner : Principal)
      (tag : Tag)
  | saysCanSayIsEnabled (speaker delegatee : Principal) (usage : Symbol)
  | saysHasPreference (speaker : Principal) (usage : Symbol) (tag : Tag)
  | saysIsEnabled (speaker : Principal) (usage : Symbol)

section

variable (edges : Finset DataFlowEdge) (settings : Finset (String × String))

def IsEdge (src tgt : AccessPath) : Prop := (src, tgt) ∈ multimicEdges ∨ (src, tgt) ∈ edges

open SaysAtom in
/-- The rules of the relations below `mayHaveTag`. They depend on each other: who speaks is a
principal, principals see the edges, and everybody names all paths that edges lead to. -/
inductive SaysRule : RuleSet SaysAtom
  -- taint.dl, dataflow_graph.dl
  | principal {principal owner : Principal} {path : AccessPath} {tag : Tag} :
      SaysRule (isPrincipal principal) [saysHasTag principal path owner tag]
  | edge {principal : Principal} {src tgt : AccessPath} : IsEdge edges src tgt →
      SaysRule (resolvedEdge principal src tgt) [isPrincipal principal]
  | edgeSource {owner : Principal} {src tgt : AccessPath} :
      SaysRule (isAccessPath src) [resolvedEdge owner src tgt]
  | edgeTarget {owner : Principal} {src tgt : AccessPath} :
      SaysRule (isAccessPath tgt) [resolvedEdge owner src tgt]
  | arbitraryPath : SaysRule (isAccessPath arbitraryComputation) []
  | taggedPath {speaker owner : Principal} {path : AccessPath} {tag : Tag} :
      SaysRule (isAccessPath path) [saysHasTag speaker path owner tag]
  | usedTag {speaker owner : Principal} {path : AccessPath} {tag : Tag} :
      SaysRule (isTag tag) [saysHasTag speaker path owner tag]
  | everybodysPath {principal : Principal} {path : AccessPath} :
      SaysRule (saysIsAccessPath principal path) [isPrincipal principal, isAccessPath path]
  | everybodysTag {principal : Principal} {tag : Tag} :
      SaysRule (saysIsTag principal tag) [isPrincipal principal, isTag tag]
  | everybodysPrincipal {principal other : Principal} :
      SaysRule (saysIsPrincipal principal other) [isPrincipal principal, isPrincipal other]
  -- the facts of multimic.dl
  | statedPath {speaker : Principal} {path : AccessPath} : speaker ∈ principals →
      path ∈ accessPaths → SaysRule (saysIsAccessPath speaker path) []
  | statedTag {speaker : Principal} {tag : Tag} : speaker ∈ principals → tag ∈ tags →
      SaysRule (saysIsTag speaker tag) []
  | statedPrincipal {speaker principal : Principal} : speaker ∈ principals →
      principal ∈ principals → SaysRule (saysIsPrincipal speaker principal) []
  | ownerChanges {usage : Symbol} : usage ∈ usages →
      SaysRule (saysCanSayIsEnabled systemSettingsManager ownerUser usage) []
  | guestRawAudio {path : AccessPath} : path ∈ rawSources →
      SaysRule (saysHasTag guestUser path guestUser rawAudio) []
  | ownerRawAudio {path : AccessPath} : path ∈ rawSources →
      SaysRule (saysHasTag ownerUser path ownerUser rawAudio) []
  -- the rules of multimic.dl
  | guestDelegatesTags {path : AccessPath} {tag : Tag} :
      SaysRule (saysCanSayHasTag guestUser systemSettingsManager path guestUser tag)
        [saysIsAccessPath guestUser path, saysIsTag guestUser tag]
  | ownerDelegatesTags {path : AccessPath} {usage : Symbol} : usage ∈ usages →
      SaysRule (saysCanSayHasTag ownerUser systemSettingsManager path ownerUser (doesTag usage))
        [saysIsAccessPath ownerUser path]
  | managerDelegatesTags {application owner : Principal} {path : AccessPath} {usage : Symbol} :
      (application, path, usage) ∈ consumers →
      SaysRule (saysCanSayHasTag systemSettingsManager application path owner (doesTag usage))
        [saysIsPrincipal systemSettingsManager owner]
  | guestDelegatesRemoval {path : AccessPath} {tag : Tag} :
      SaysRule (saysCanSayRemoveTag guestUser systemSettingsManager path guestUser tag)
        [saysIsAccessPath guestUser path, saysIsTag guestUser tag]
  | ownerDelegatesRemoval {path : AccessPath} {tag : Tag} :
      SaysRule (saysCanSayRemoveTag ownerUser systemSettingsManager path ownerUser tag)
        [saysIsAccessPath ownerUser path, saysIsTag ownerUser tag]
  | managerDelegatesRemoval {owner : Principal} :
      SaysRule (saysCanSayRemoveTag systemSettingsManager demoApplication demoApplicationAudioOut
        owner (doesTag streaming)) [saysIsPrincipal systemSettingsManager owner]
  | preference {usage : Symbol} : usage ∈ usages →
      SaysRule (saysHasPreference ownerUser usage rawAudio) [saysIsEnabled ownerUser usage]
  | consumes {application owner : Principal} {path : AccessPath} {usage : Symbol} :
      (application, path, usage) ∈ consumers →
      SaysRule (saysHasTag application path owner (doesTag usage))
        [saysIsPrincipal application owner]
  | guestAccepts {path : AccessPath} {tag : Tag} {x : Principal} :
      SaysRule (saysHasTag guestUser path guestUser tag)
        [saysHasTag x path guestUser tag, saysCanSayHasTag guestUser x path guestUser tag]
  | ownerAllows {path : AccessPath} {usage : Symbol} : usage ∈ usages →
      SaysRule (saysHasTag ownerUser path ownerUser (allowTag usage))
        [saysHasPreference ownerUser usage rawAudio,
          saysHasTag ownerUser path ownerUser rawAudio, saysIsAccessPath ownerUser path]
  | ownerAccepts {path : AccessPath} {usage : Symbol} {x : Principal} : usage ∈ usages →
      SaysRule (saysHasTag ownerUser path ownerUser (doesTag usage))
        [saysHasTag x path ownerUser (doesTag usage),
          saysCanSayHasTag ownerUser x path ownerUser (doesTag usage)]
  | managerAccepts {application owner x : Principal} {path : AccessPath} {usage : Symbol} :
      (application, path, usage) ∈ consumers →
      SaysRule (saysHasTag systemSettingsManager path owner (doesTag usage))
        [saysHasTag x path owner (doesTag usage),
          saysCanSayHasTag systemSettingsManager x path owner (doesTag usage)]
  | guestAllows {path : AccessPath} {usage : Symbol} : usage ∈ usages →
      SaysRule (saysHasTag systemSettingsManager path guestUser (allowTag usage))
        [saysIsAccessPath systemSettingsManager path]
  | managerEnables {usage : Symbol} {x : Principal} : usage ∈ usages →
      SaysRule (saysIsEnabled systemSettingsManager usage)
        [saysIsEnabled x usage, saysCanSayIsEnabled systemSettingsManager x usage]
  | applicationRemoves {owner : Principal} :
      SaysRule (saysRemoveTag demoApplication demoApplicationAudioOut owner (doesTag streaming))
        [saysIsPrincipal demoApplication owner]
  | guestRemoves {path : AccessPath} {tag : Tag} {x : Principal} :
      SaysRule (saysRemoveTag guestUser path guestUser tag)
        [saysRemoveTag x path guestUser tag, saysCanSayRemoveTag guestUser x path guestUser tag]
  | ownerRemoves {path : AccessPath} {tag : Tag} {x : Principal} :
      SaysRule (saysRemoveTag ownerUser path ownerUser tag)
        [saysRemoveTag x path ownerUser tag, saysCanSayRemoveTag ownerUser x path ownerUser tag]
  | managerRemoves {owner x : Principal} :
      SaysRule (saysRemoveTag systemSettingsManager demoApplicationAudioOut owner
        (doesTag streaming))
        [saysRemoveTag x demoApplicationAudioOut owner (doesTag streaming),
          saysCanSayRemoveTag systemSettingsManager x demoApplicationAudioOut owner
            (doesTag streaming)]
  -- the facts that `UpdateSettings` inserts
  | enabled {user usage : String} : (user, usage) ∈ settings →
      SaysRule (saysIsEnabled user usage) []

def Derived (atom : SaysAtom) : Prop := Derivable (SaysRule edges settings) atom

/-- `hasTag(path, owner, tag)`. -/
def HasTag (path : AccessPath) (owner : Principal) (tag : Tag) : Prop :=
  Derived edges settings (.saysHasTag owner path owner tag)

/-- `removeTag(path, owner, tag)`. -/
def RemoveTag (path : AccessPath) (owner : Principal) (tag : Tag) : Prop :=
  Derived edges settings (.saysRemoveTag owner path owner tag)

inductive MayHaveTag : AccessPath → Principal → Tag → Prop
  | hasTag {tgt : AccessPath} {owner : Principal} {tag : Tag} :
      HasTag edges settings tgt owner tag → MayHaveTag tgt owner tag
  | propagated {src tgt : AccessPath} {owner : Principal} {tag : Tag} :
      Derived edges settings (.resolvedEdge owner src tgt) → MayHaveTag src owner tag →
      ¬ RemoveTag edges settings tgt owner tag → MayHaveTag tgt owner tag
  | member {base member : AccessPath} {owner : Principal} {tag : Tag} :
      Derived edges settings (.isAccessPath base) → Derived edges settings (.isAccessPath member) →
      MayHaveTag member owner tag → StartsWithMember base member → MayHaveTag base owner tag

/-- `disallowedUsage`. -/
def Disallows (output : DisallowedUsage) : Prop :=
  ∃ owner, ∃ usage ∈ usages, ∃ path, MayHaveTag edges settings path owner rawAudio ∧
    MayHaveTag edges settings path owner (doesTag usage) ∧
    ¬ MayHaveTag edges settings path owner (allowTag usage) ∧
    output = ⟨owner, usage, owner, rawAudio⟩

end

/-- The compiled program. The order in which it lists the facts of a relation is its own. -/
structure IsMultimic (program : PolicyProgram) : Prop where
  disallowedUsage : ∀ edges settings output,
    output ∈ program.disallowedUsage edges settings ↔ Disallows edges settings output
  saysCanSayIsEnabled : ∀ edges settings speaker delegatee usage,
    (speaker, delegatee, usage) ∈ program.saysCanSayIsEnabled edges settings ↔
      Derived edges settings (.saysCanSayIsEnabled speaker delegatee usage)

end Raksha.Ambient
