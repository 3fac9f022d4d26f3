import Raksha.Ambient.MultimicVerdict

/-!
# Runs of the public calls

The public functions of the checker take nodes. For edges between nodes the policy comes down to
the settings of the owner: every application that an edge leads into must be switched on. Edges
that comply stop doing so only when the owner switches a setting off.
-/

namespace Raksha.Ambient
open Raksha.Common
open Raksha.Souffle (Symbol AccessPath StartsWithMember arbitraryComputation)

/-- What the application does with audio. -/
def Node.usage : Node → Option Settings
  | .demoApplication => some .streaming
  | .demoApplicationASR => some .asr
  | .demoApplicationAudioStore => some .recording
  | _ => none

/-- The names of the connections of two nodes. -/
def Connects (source target : Node) (edge : DataFlowEdge) : Prop :=
  getDataConnectionName source false = .ok edge.1 ∧ getDataConnectionName target true = .ok edge.2

def Connected (edges : Finset DataFlowEdge) : Prop :=
  ∀ edge ∈ edges, ∃ source target, Connects source target edge

/-! ### What flows between nodes -/

def multimicPaths : List AccessPath :=
  arbitraryComputation :: multimicEdges.flatMap fun edge => [edge.1, edge.2]

theorem multimicPaths_noMember :
    ∀ base ∈ multimicPaths, ∀ member ∈ multimicPaths, ¬ StartsWithMember base member := by
  unfold StartsWithMember
  decide +kernel

theorem sends {source : Node} {name : String} (h : getDataConnectionName source false = .ok name) :
    name ∈ multimicPaths ∧ (∃ src ∈ rawSources, (src, name) ∈ multimicEdges) ∧
      ∀ consumer ∈ consumers, consumer.2.1 ≠ name := by
  cases source with
  | smartMicrophone =>
    cases h
    exact ⟨by decide, ⟨"R.SmartMicrophone.audio", by decide, by decide⟩, by decide⟩
  | demoApplication =>
    cases h
    exact ⟨by decide, ⟨"R.DemoApplication.audioOut", by decide, by decide⟩, by decide⟩
  | _ => cases h

theorem receives {target : Node} {name : String}
    (h : getDataConnectionName target true = .ok name) :
    name ∈ multimicPaths ∧ (∀ consumer ∈ consumers, consumer.2.1 ≠ name) ∧
      ∃ setting usage application audio, target.usage = some setting ∧
        getSettingsName setting = .ok usage ∧ (application, audio, usage) ∈ consumers ∧
        (name, audio) ∈ multimicEdges := by
  cases target with
  | demoApplication =>
    cases h
    exact ⟨by decide, by decide, .streaming, _, "DemoApplication", "R.DemoApplication.audioIn", rfl,
      rfl, by decide, by decide⟩
  | demoApplicationASR =>
    cases h
    exact ⟨by decide, by decide, .asr, _, "DemoApplicationASR", "R.DemoApplicationASR.audio", rfl,
      rfl, by decide, by decide⟩
  | demoApplicationAudioStore =>
    cases h
    exact ⟨by decide, by decide, .recording, _, "DemoApplicationAudioStore",
      "R.DemoApplicationAudioStore.audio", rfl, rfl, by decide, by decide⟩
  | _ => cases h

/-- An application gets audio through the connection of its node only, and keeps what it does with
it to itself. -/
theorem consumers_receive {application : String} {audio : AccessPath} {usage : Symbol}
    (h : (application, audio, usage) ∈ consumers) :
    ∃ target setting name, target.usage = some setting ∧ getSettingsName setting = .ok usage ∧
      getDataConnectionName target true = .ok name ∧ audio ∉ rawSources ∧ name ∉ rawSources ∧
      (∀ edge ∈ multimicEdges, edge.2 = audio → edge.1 = name) ∧
      (∀ edge ∈ multimicEdges, edge.2 ≠ name) ∧
      ∀ edge ∈ multimicEdges, edge.1 = audio → RemovesUsage usage edge.2 := by
  simp only [consumers, List.mem_cons, List.not_mem_nil, or_false] at h
  unfold RemovesUsage
  rcases h with h | h | h
  · cases h
    exact ⟨.demoApplication, .streaming, _, rfl, rfl, rfl, by decide, by decide, by decide,
      by decide, by decide⟩
  · cases h
    exact ⟨.demoApplicationASR, .asr, _, rfl, rfl, rfl, by decide, by decide, by decide,
      by decide, by decide⟩
  · cases h
    exact ⟨.demoApplicationAudioStore, .recording, _, rfl, rfl, rfl, by decide, by decide,
      by decide, by decide, by decide⟩

section

variable {edges : Finset DataFlowEdge}

theorem isEdge_mem_multimicPaths (hconnected : Connected edges) {src tgt : AccessPath}
    (h : IsEdge edges src tgt) : src ∈ multimicPaths ∧ tgt ∈ multimicPaths := by
  rcases h with hmultimic | hedge
  · have hall : ∀ edge ∈ multimicEdges, edge.1 ∈ multimicPaths ∧ edge.2 ∈ multimicPaths := by decide
    exact hall _ hmultimic
  · obtain ⟨source, target, hsource, htarget⟩ := hconnected _ hedge
    exact ⟨(sends hsource).1, (receives htarget).1⟩

theorem isPath_mem_multimicPaths (hconnected : Connected edges) {path : AccessPath}
    (h : IsPath edges path) : path ∈ multimicPaths := by
  rcases h with rfl | ⟨src, tgt, hedge, rfl | rfl⟩
  · exact List.mem_cons_self ..
  · exact (isEdge_mem_multimicPaths hconnected hedge).1
  · exact (isEdge_mem_multimicPaths hconnected hedge).2

/-- Between nodes, no path is a member of another. -/
theorem tagFlow_iff_of_connected (hconnected : Connected edges) (removes : AccessPath → Prop)
    (src tgt : AccessPath) :
    TagFlow edges removes src tgt ↔ IsEdge edges src tgt ∧ ¬ removes tgt := by
  refine or_iff_left ?_
  rintro ⟨htgt, hsrc, hmember⟩
  exact multimicPaths_noMember _ (isPath_mem_multimicPaths hconnected htgt) _
    (isPath_mem_multimicPaths hconnected hsrc) hmember

theorem usageAt_consumers (hconnected : Connected edges) {usage : Symbol} {path : AccessPath}
    (h : UsageAt edges usage path) : ∃ application, (application, path, usage) ∈ consumers := by
  obtain ⟨application, src, hconsumer, hflow⟩ := h
  induction hflow with
  | refl => exact ⟨application, hconsumer⟩
  | @tail mid tgt _ hstep ih =>
    obtain ⟨application', hmid⟩ := ih
    obtain ⟨hedge, hkept⟩ := (tagFlow_iff_of_connected hconnected _ _ _).mp hstep
    obtain ⟨-, -, -, -, -, -, -, -, -, -, hremoved⟩ := consumers_receive hmid
    rcases hedge with hmultimic | hedge
    · exact absurd (hremoved _ hmultimic rfl) hkept
    · obtain ⟨source, target, hsource, -⟩ := hconnected _ hedge
      exact absurd rfl ((sends hsource).2.2 _ hmid)

theorem rawAudioAt_inv (hconnected : Connected edges) {path : AccessPath}
    (h : RawAudioAt edges path) (hsource : path ∉ rawSources) :
    ∃ src, RawAudioAt edges src ∧ IsEdge edges src path := by
  obtain ⟨src, hsrc, hflow⟩ := h
  rcases hflow.cases_tail with rfl | ⟨mid, hflow, hstep⟩
  · exact absurd hsrc hsource
  · exact ⟨mid, ⟨src, hsrc, hflow⟩, ((tagFlow_iff_of_connected hconnected _ _ _).mp hstep).1⟩

/-- Raw audio meets a usage exactly when an edge leads into the application. -/
theorem overheard_iff_of_connected (hconnected : Connected edges) (usage : Symbol) :
    Overheard edges usage ↔ ∃ edge ∈ edges, ∃ source target setting,
      Connects source target edge ∧ target.usage = some setting ∧
      getSettingsName setting = .ok usage := by
  constructor
  · rintro ⟨path, hraw, husage⟩
    obtain ⟨application, hconsumer⟩ := usageAt_consumers hconnected husage
    obtain ⟨target, setting, name, hsetting, hname, htarget, haudio, hnone, hinside, hnames, -⟩ :=
      consumers_receive hconsumer
    have hconnection : RawAudioAt edges name := by
      obtain ⟨src, hsrc, hedge | hedge⟩ := rawAudioAt_inv hconnected hraw haudio
      · rwa [← hinside _ hedge rfl]
      · obtain ⟨_, target', -, htarget'⟩ := hconnected _ hedge
        exact absurd rfl ((receives htarget').2.1 _ hconsumer)
    obtain ⟨src, -, hedge | hedge⟩ := rawAudioAt_inv hconnected hconnection hnone
    · exact absurd rfl (hnames _ hedge)
    · obtain ⟨source, -, hsource, -⟩ := hconnected _ hedge
      exact ⟨_, hedge, source, target, setting, ⟨hsource, htarget⟩, hsetting, hname⟩
  · rintro ⟨edge, hedge, source, target, setting, ⟨hsource, htarget⟩, hsetting, hname⟩
    obtain ⟨-, ⟨src, hsrc, hout⟩, -⟩ := sends hsource
    obtain ⟨-, -, setting', usage', application, audio, hsetting', hname', hconsumer, hin⟩ :=
      receives htarget
    cases hsetting.symm.trans hsetting'
    cases hname.symm.trans hname'
    have hstep : ∀ {src tgt : AccessPath}, IsEdge edges src tgt →
        TagFlow edges (fun _ => False) src tgt := fun h => .inl ⟨h, not_false⟩
    refine ⟨audio, ⟨src, hsrc, ?_⟩, ⟨application, audio, hconsumer, .refl⟩⟩
    exact ((Relation.ReflTransGen.single (hstep (.inl hout))).tail (hstep (.inr hedge))).tail
      (hstep (.inl hin))

end

namespace PolicyChecker

variable {program : PolicyProgram} {checker checker' : PolicyChecker}

/-- The owner has switched on what the application does. -/
def Permits (checker : PolicyChecker) (target : Node) : Prop :=
  ∃ setting, target.usage = some setting ∧ checker.setting? .owner setting = some true

/-- Every edge leads into an application that is switched on. -/
def Permitted (checker : PolicyChecker) : Prop :=
  ∀ edge ∈ checker.edges, ∀ source target, Connects source target edge → checker.Permits target

theorem compliant_iff_permitted (hconnected : Connected checker.edges) :
    checker.Compliant ↔ checker.Permitted := by
  constructor
  · intro hcompliant edge hedge source target hconnects
    obtain ⟨-, -, setting, usage, -, -, hsetting, hname, -, -⟩ := receives hconnects.2
    refine ⟨setting, hsetting, (hcompliant setting usage hname).resolve_right (not_not.mpr ?_)⟩
    exact (overheard_iff_of_connected hconnected usage).mpr
      ⟨edge, hedge, source, target, setting, hconnects, hsetting, hname⟩
  · intro hpermitted setting usage hname
    refine or_iff_not_imp_right.mpr fun hoverheard => ?_
    obtain ⟨edge, hedge, source, target, setting', hconnects, hsetting, hname'⟩ :=
      (overheard_iff_of_connected hconnected usage).mp (not_not.mp hoverheard)
    obtain ⟨setting'', hsetting', hon⟩ := hpermitted edge hedge source target hconnects
    cases hsetting.symm.trans hsetting'
    rwa [getSettingsName_inj hname hname']

theorem permitted_addEdge_iff {source target : Node} {src tgt : String}
    (hsource : getDataConnectionName source false = .ok src)
    (htarget : getDataConnectionName target true = .ok tgt) :
    (checker.addEdge src tgt).Permitted ↔ checker.Permitted ∧ checker.Permits target := by
  have hinsert : ∀ edge, edge ∈ (checker.addEdge src tgt).edges ↔
      edge = (src, tgt) ∨ edge ∈ checker.edges := fun edge => Finset.mem_insert
  constructor
  · intro h
    refine ⟨fun edge hedge => h edge ((hinsert edge).mpr (.inr hedge)), ?_⟩
    exact h (src, tgt) ((hinsert _).mpr (.inl rfl)) source target ⟨hsource, htarget⟩
  · rintro ⟨hpermitted, setting, hsetting, hon⟩ edge hedge source' target' hconnects
    rcases (hinsert edge).mp hedge with rfl | hedge
    · have hsame : target' = target := by
        have hnames : getDataConnectionName target' true = getDataConnectionName target true :=
          hconnects.2.trans htarget.symm
        cases target <;> cases target' <;> simp [getDataConnectionName] at hnames htarget ⊢
      exact hsame ▸ ⟨setting, hsetting, hon⟩
    · exact hpermitted edge hedge source' target' hconnects

/-! ### Reachable checkers -/

/-- The public functions take nodes. -/
def Public (c : Call) : Prop :=
  ∀ src tgt, c = .addIfValidEdge src tgt ∨ c = .isValidEdge src tgt →
    ∃ source target, Connects source target (src, tgt)

theorem changeSetting_named {user : User} {setting : Settings} {value changed : Bool}
    (h : checker.changeSetting program user setting value = .ok (changed, checker')) :
    (∃ name, getUserName user = .ok name) ∧ ∃ name, getSettingsName setting = .ok name := by
  simp only [changeSetting, Checked.bind_eq_ok] at h
  obtain ⟨userName, huser, settingsName, hsetting, -⟩ := h
  exact ⟨⟨userName, huser⟩, settingsName, hsetting⟩

theorem named_start : ({} : PolicyChecker).Named := by
  intro user setting hvalue
  refine ⟨?_, ?_⟩
  · cases user with
    | unknown => exact absurd rfl hvalue
    | owner => exact ⟨_, rfl⟩
    | guest => exact ⟨_, rfl⟩
  · cases setting with
    | unknown => cases user <;> exact absurd rfl hvalue
    | streaming => exact ⟨_, rfl⟩
    | asr => exact ⟨_, rfl⟩
    | recording => exact ⟨_, rfl⟩

theorem Named.call (hnamed : checker.Named) {c : Call} {reply : Reply}
    (h : checker.call program c = .ok (reply, checker')) : checker'.Named := by
  rcases call_spec h with ⟨src, tgt, valid, reason, -, -, rfl⟩ | ⟨src, tgt, -, rfl⟩ |
    ⟨user, setting, value, changed, rfl, -, rfl⟩ | ⟨-, -, -, rfl⟩
  · split
    · exact hnamed
    · exact hnamed
  · exact hnamed
  · simp only [PolicyChecker.call, Checked.bind_eq_ok] at h
    obtain ⟨result, hchange, -⟩ := h
    split
    · intro other otherSetting hvalue
      rw [setting?_setSetting] at hvalue
      split at hvalue
      · next hsame =>
        obtain ⟨rfl, rfl⟩ := hsame
        exact changeSetting_named hchange
      · exact hnamed other otherSetting hvalue
    · exact hnamed
  · exact hnamed

theorem Run.named {history : List (Call × Reply)} (h : Run program history checker) :
    checker.Named := by
  induction h with
  | start => exact named_start
  | step _ hcall ih => exact ih.call hcall

theorem Run.connected {history : List (Call × Reply)} (h : Run program history checker)
    (hpublic : ∀ event ∈ history, Public event.1) : Connected checker.edges := by
  induction h with
  | start => exact fun edge hedge => absurd hedge (Finset.notMem_empty edge)
  | @step history checker checker' c reply _ hcall ih =>
    have hconnected := ih fun event hevent => hpublic event (List.mem_append_left _ hevent)
    have hc : Public c := hpublic (c, reply) (List.mem_append_right _ (List.mem_singleton_self _))
    rcases call_spec hcall with ⟨src, tgt, valid, reason, rfl, -, rfl⟩ | ⟨src, tgt, -, rfl⟩ |
      ⟨user, setting, value, changed, -, -, rfl⟩ | ⟨-, -, -, rfl⟩
    · cases valid with
      | true =>
        intro edge hedge
        rcases Finset.mem_insert.mp hedge with rfl | hedge
        · exact hc src tgt (.inl rfl)
        · exact hconnected edge hedge
      | false => exact hconnected
    · exact fun edge hedge => hconnected edge (Finset.mem_of_mem_erase hedge)
    · cases changed <;> exact hconnected
    · exact hconnected

theorem Run.permitted_iff {history : List (Call × Reply)} (h : Run program history checker)
    (hpublic : ∀ event ∈ history, Public event.1) : checker.Compliant ↔ checker.Permitted :=
  compliant_iff_permitted (h.connected hpublic)

theorem Run.permitted_addEdge_iff {history : List (Call × Reply)} (h : Run program history checker)
    (hpublic : ∀ event ∈ history, Public event.1) {source target : Node} {src tgt : String}
    (hsource : getDataConnectionName source false = .ok src)
    (htarget : getDataConnectionName target true = .ok tgt) :
    (checker.addEdge src tgt).Compliant ↔ checker.Permitted ∧ checker.Permits target := by
  have hconnected : Connected (checker.addEdge src tgt).edges := by
    intro edge hedge
    rcases Finset.mem_insert.mp hedge with rfl | hedge
    · exact ⟨source, target, hsource, htarget⟩
    · exact h.connected hpublic edge hedge
  rw [compliant_iff_permitted hconnected, PolicyChecker.permitted_addEdge_iff hsource htarget]

/-! ### A run

The microphone is connected to speech recognition, which the owner then switches off. -/

def switchesOff (setting : Settings) : Call × Reply :=
  (.changeSetting .owner setting false, .flag true)

def connectsAsr (reason : String) : Call × Reply :=
  (.addIfValidEdge microphoneToAsr.1 microphoneToAsr.2, .verdict true reason)

def asrSwitchedOff : PolicyChecker :=
  (({} : PolicyChecker).addEdge microphoneToAsr.1 microphoneToAsr.2).setSetting .owner .asr false

theorem compliant_of_allSettings (h : checker.userSettings = ({} : PolicyChecker).userSettings) :
    checker.Compliant := by
  intro setting usage hname
  refine .inl ?_
  rw [setting?, h]
  cases setting with
  | unknown => cases hname
  | _ => rfl

theorem asrSwitchedOff_run :
    ∃ reason, Run multimicProgram [connectsAsr reason, switchesOff .asr] asrSwitchedOff := by
  obtain ⟨verdict, reason, hadd, hverdict⟩ := addIfValidEdge_verdict multimicProgram_isMultimic
    named_start microphoneToAsr.1 microphoneToAsr.2
  obtain rfl := hverdict.mpr (compliant_of_allSettings rfl)
  have hcan : canUserChangeSettingNamed multimicProgram "OwnerUser" "ASR" = true :=
    (canUserChangeSettingNamed_iff multimicProgram_isMultimic _ _).mpr ⟨rfl, by decide⟩
  have hconnected : Run multimicProgram [connectsAsr reason]
      (({} : PolicyChecker).addEdge microphoneToAsr.1 microphoneToAsr.2) := by
    refine Run.start.step ?_
    simp only [PolicyChecker.call, Checked.bind_eq_ok, Checked.pure_eq_ok]
    exact ⟨_, hadd, rfl⟩
  refine ⟨reason, hconnected.step ?_⟩
  simp only [PolicyChecker.call, changeSetting, Checked.bind_eq_ok, Checked.pure_eq_ok]
  refine ⟨(true, asrSwitchedOff), ⟨"OwnerUser", rfl, "ASR", rfl, ?_⟩, rfl⟩
  rw [if_pos hcan]
  rfl

theorem asrSwitchedOff_not_compliant : ¬ asrSwitchedOff.Compliant := by
  intro hcompliant
  rcases hcompliant .asr "ASR" rfl with hon | hsilent
  · rw [asrSwitchedOff, setting?_setSetting, if_pos ⟨rfl, rfl⟩] at hon
    cases hon
  · exact hsilent overheard_microphoneToAsr

theorem asrSwitchedOff_public (reason : String) :
    ∀ event ∈ [connectsAsr reason, switchesOff .asr], Public event.1 := by
  simp only [List.mem_cons, List.not_mem_nil, or_false]
  rintro event (rfl | rfl) src tgt hcall
  · have hnames : microphoneToAsr = (src, tgt) := by
      rcases hcall with hcall | hcall
      · exact Prod.ext (Call.addIfValidEdge.inj hcall).1 (Call.addIfValidEdge.inj hcall).2
      · cases hcall
    exact ⟨.smartMicrophone, .demoApplicationASR, hnames ▸ ⟨rfl, rfl⟩⟩
  · rcases hcall with hcall | hcall <;> cases hcall

/-! ### The answers in a run -/

/-- In every run of public calls, the answers are what the settings of the owner make of the
stored edges. -/
theorem Run.verdicts (hprogram : IsMultimic program) {history : List (Call × Reply)}
    (h : Run program history checker) (hpublic : ∀ event ∈ history, Public event.1) :
    (∃ verdict reason, checker.validatePolicyCompliance program = .ok (verdict, reason) ∧
      (verdict = true ↔ checker.Permitted)) ∧
    ∀ source target src tgt, getDataConnectionName source false = .ok src →
      getDataConnectionName target true = .ok tgt →
      (∃ verdict reason, checker.addIfValidEdgeOfNodes program source target =
          .ok ((verdict, reason), if verdict then checker.addEdge src tgt else checker) ∧
        (verdict = true ↔ checker.Permitted ∧ checker.Permits target)) ∧
      ∃ verdict reason, checker.isValidEdgeOfNodes program source target =
          .ok ((verdict, reason), checker.removeEdge src tgt) ∧
        (verdict = true ↔ checker.Permitted ∧ checker.Permits target) := by
  refine ⟨?_, fun source target src tgt hsource htarget => ⟨?_, ?_⟩⟩
  · rw [← h.permitted_iff hpublic]
    exact validatePolicyCompliance_spec hprogram h.named
  · rw [← h.permitted_addEdge_iff hpublic hsource htarget, addIfValidEdgeOfNodes, hsource, htarget]
    exact addIfValidEdge_verdict hprogram h.named src tgt
  · rw [← h.permitted_addEdge_iff hpublic hsource htarget, isValidEdgeOfNodes, hsource, htarget]
    exact isValidEdge_verdict hprogram h.named src tgt

theorem asrSwitchedOff_verdict :
    ∃ reason, asrSwitchedOff.validatePolicyCompliance multimicProgram = .ok (false, reason) := by
  obtain ⟨reason, hrun⟩ := asrSwitchedOff_run
  have hpublic := asrSwitchedOff_public reason
  obtain ⟨verdict, message, hvalid, hverdict⟩ :=
    (Run.verdicts multimicProgram_isMultimic hrun hpublic).1
  have hnot : verdict ≠ true := fun htrue =>
    asrSwitchedOff_not_compliant ((hrun.permitted_iff hpublic).mpr (hverdict.mp htrue))
  rw [Bool.eq_false_iff.mpr hnot] at hvalid
  exact ⟨message, hvalid⟩

/-! ### Who spoils compliance -/

theorem Overheard.mono {edges edges' : Finset DataFlowEdge} (h : edges ⊆ edges') {usage : Symbol}
    (hoverheard : Overheard edges usage) : Overheard edges' usage := by
  have hedge : ∀ {src tgt}, IsEdge edges src tgt → IsEdge edges' src tgt :=
    fun hedge => hedge.imp_right (@h _)
  have hpath : ∀ {path}, IsPath edges path → IsPath edges' path := by
    rintro path (rfl | ⟨src, tgt, hmem, hends⟩)
    · exact .inl rfl
    · exact .inr ⟨src, tgt, hedge hmem, hends⟩
  have hflow : ∀ removes src tgt,
      TagFlow edges removes src tgt → TagFlow edges' removes src tgt := by
    rintro removes src tgt (⟨hmem, hkept⟩ | ⟨htgt, hsrc, hmember⟩)
    · exact .inl ⟨hedge hmem, hkept⟩
    · exact .inr ⟨hpath htgt, hpath hsrc, hmember⟩
  obtain ⟨path, ⟨src, hsrc, hraw⟩, application, start, hconsumer, husage⟩ := hoverheard
  exact ⟨path, ⟨src, hsrc, Relation.ReflTransGen.mono (hflow _) _ _ hraw⟩, application, start,
    hconsumer, Relation.ReflTransGen.mono (hflow _) _ _ husage⟩

/-- What a call does to edges that comply. -/
theorem Compliant.call (hprogram : IsMultimic program) (hnamed : checker.Named)
    (hcompliant : checker.Compliant) {c : Call} {reply : Reply}
    (h : checker.call program c = .ok (reply, checker')) :
    checker'.Compliant ∨ ∃ setting, (c, reply) = switchesOff setting := by
  rcases call_spec h with ⟨src, tgt, valid, reason, rfl, rfl, rfl⟩ | ⟨src, tgt, -, rfl⟩ |
    ⟨user, setting, value, changed, rfl, rfl, rfl⟩ | ⟨-, -, -, rfl⟩
  · cases valid with
    | false => exact .inl hcompliant
    | true =>
      obtain ⟨verdict, reason', hadd, hverdict⟩ := addIfValidEdge_verdict hprogram hnamed src tgt
      simp only [PolicyChecker.call, hadd, Checked.bind_eq_ok, Checked.pure_eq_ok,
        Except.ok.injEq, exists_eq_left', Prod.mk.injEq, Reply.verdict.injEq] at h
      exact .inl (hverdict.mp h.1.1)
  · refine .inl fun setting usage hname => (hcompliant setting usage hname).imp_right ?_
    exact mt (Overheard.mono (Finset.erase_subset _ _))
  · by_cases hoff : user = .owner ∧ value = false ∧ changed = true
    · obtain ⟨rfl, rfl, rfl⟩ := hoff
      exact .inr ⟨setting, rfl⟩
    · refine .inl ?_
      split
      · next hchanged =>
        intro other usage hname
        refine (hcompliant other usage hname).imp_left fun hon => ?_
        rw [setting?_setSetting]
        split
        · next hsame =>
          have hvalue : value ≠ false := fun hvalue => hoff ⟨hsame.1.symm, hvalue, hchanged⟩
          rw [Bool.eq_true_of_not_eq_false hvalue]
        · exact hon
      · exact hcompliant
  · exact .inl hcompliant

/-- When the stored edges do not comply, the owner has switched off a setting while they did, and
they have not complied since. -/
theorem Run.exists_switchesOff (hprogram : IsMultimic program) {history : List (Call × Reply)}
    (h : Run program history checker) (hnot : ¬ checker.Compliant) :
    ∃ before setting middle, before ++ [switchesOff setting] <+: history ∧
      Run program before middle ∧ middle.Compliant ∧
      ∀ later after, before ++ [switchesOff setting] <+: later → later <+: history →
        Run program later after → ¬ after.Compliant := by
  induction h with
  | start => exact absurd (compliant_of_allSettings rfl) hnot
  | @step history checker checker' c reply hrun hcall ih =>
    have hfull : Run program (history ++ [(c, reply)]) checker' := hrun.step hcall
    by_cases hcompliant : checker.Compliant
    · obtain ⟨setting, hevent⟩ := (hcompliant.call hprogram hrun.named hcall).resolve_left hnot
      refine ⟨history, setting, checker, hevent ▸ List.prefix_refl _, hrun, hcompliant, ?_⟩
      intro later after hlonger hshorter hlater
      rw [← hevent] at hlonger
      cases List.IsPrefix.eq_of_length_le hlonger hshorter.length_le
      rwa [hfull.unique hlater]
    · obtain ⟨before, setting, middle, hprefix, hbefore, hmiddle, hsince⟩ := ih hcompliant
      refine ⟨before, setting, middle, hprefix.trans (List.prefix_append _ _), hbefore, hmiddle, ?_⟩
      intro later after hlonger hshorter hlater
      rcases List.prefix_concat_iff.mp hshorter with rfl | hshorter
      · rwa [hfull.unique hlater]
      · exact hsince later after hlonger hshorter hlater

theorem asrSwitchedOff_blamed : ∃ reason before setting middle,
    before ++ [switchesOff setting] <+: [connectsAsr reason, switchesOff .asr] ∧
      Run multimicProgram before middle ∧ middle.Compliant := by
  obtain ⟨reason, hrun⟩ := asrSwitchedOff_run
  obtain ⟨before, setting, middle, hprefix, hbefore, hmiddle, -⟩ :=
    Run.exists_switchesOff multimicProgram_isMultimic hrun asrSwitchedOff_not_compliant
  exact ⟨reason, before, setting, middle, hprefix, hbefore, hmiddle⟩

end PolicyChecker

end Raksha.Ambient
