import Raksha.Ambient.Multimic

/-!
# The verdict of the ambient checker

The policy objects exactly to a usage that the owner has switched off and that meets raw audio
somewhere, whatever the edges are. It never objects on behalf of a guest.
-/

namespace Raksha.Ambient
open Datalog
open Raksha.Common
open Raksha.Souffle (Symbol Principal AccessPath Tag StartsWithMember arbitraryComputation)

/-! ### What flows where -/

section

variable (edges : Finset DataFlowEdge)

def IsPath (path : AccessPath) : Prop :=
  path = arbitraryComputation ∨ ∃ src tgt, IsEdge edges src tgt ∧ (path = src ∨ path = tgt)

/-- A tag moves along an edge to a path that does not remove it, and from a member to its base. -/
def TagFlow (removes : AccessPath → Prop) (src tgt : AccessPath) : Prop :=
  IsEdge edges src tgt ∧ ¬ removes tgt ∨
    IsPath edges tgt ∧ IsPath edges src ∧ StartsWithMember tgt src

def RemovesUsage (usage : Symbol) (path : AccessPath) : Prop :=
  usage = streaming ∧ path = demoApplicationAudioOut

def RawAudioAt (path : AccessPath) : Prop :=
  ∃ src ∈ rawSources, Relation.ReflTransGen (TagFlow edges fun _ => False) src path

def UsageAt (usage : Symbol) (path : AccessPath) : Prop :=
  ∃ application src, (application, src, usage) ∈ consumers ∧
    Relation.ReflTransGen (TagFlow edges (RemovesUsage usage)) src path

/-- Raw audio meets the usage. -/
def Overheard (usage : Symbol) : Prop :=
  ∃ path, RawAudioAt edges path ∧ UsageAt edges usage path

end

/-! ### The meaning of the relations -/

section

variable {edges : Finset DataFlowEdge} {settings : Finset (String × String)}

/-- Who may tag a path with a tag. -/
inductive Tagged (edges : Finset DataFlowEdge) (settings : Finset (String × String)) :
    Principal → AccessPath → Principal → Tag → Prop
  | raw {user : Principal} {path : AccessPath} : user = ownerUser ∨ user = guestUser →
      path ∈ rawSources → Tagged edges settings user path user rawAudio
  | does {speaker owner application : Principal} {path : AccessPath} {usage : Symbol} :
      (application, path, usage) ∈ consumers →
      Tagged edges settings speaker path owner (doesTag usage)
  | guestAllows {speaker : Principal} {path : AccessPath} {usage : Symbol} : usage ∈ usages →
      IsPath edges path → Tagged edges settings speaker path guestUser (allowTag usage)
  | ownerAllows {path : AccessPath} {usage : Symbol} : usage ∈ usages → path ∈ rawSources →
      (ownerUser, usage) ∈ settings →
      Tagged edges settings ownerUser path ownerUser (allowTag usage)

def SaysAtom.Meaning (edges : Finset DataFlowEdge) (settings : Finset (String × String)) :
    SaysAtom → Prop
  | .isAccessPath path => IsPath edges path
  | .resolvedEdge _ src tgt => IsEdge edges src tgt
  | .saysIsAccessPath _ path => IsPath edges path
  | .saysHasTag speaker path owner tag => Tagged edges settings speaker path owner tag
  | .saysRemoveTag _ path _ tag => path = demoApplicationAudioOut ∧ tag = doesTag streaming
  | .saysCanSayIsEnabled speaker delegatee usage =>
      speaker = systemSettingsManager ∧ delegatee = ownerUser ∧ usage ∈ usages
  | .saysHasPreference speaker usage _ => speaker = ownerUser ∧ (ownerUser, usage) ∈ settings
  | .saysIsEnabled speaker usage => speaker = systemSettingsManager ∨ (speaker, usage) ∈ settings
  | _ => True

theorem isPath_of_mem {path : AccessPath} (h : path ∈ accessPaths) : IsPath edges path := by
  have hedges : ∀ path ∈ accessPaths, ∃ edge ∈ multimicEdges, path = edge.1 ∨ path = edge.2 := by
    decide
  obtain ⟨edge, hedge, hpath⟩ := hedges path h
  exact .inr ⟨edge.1, edge.2, .inl hedge, hpath⟩

theorem rawSources_mem {path : AccessPath} (h : path ∈ rawSources) : path ∈ accessPaths := by
  have hall : ∀ path ∈ rawSources, path ∈ accessPaths := by decide
  exact hall path h

theorem consumers_mem {application : Principal} {path : AccessPath} {usage : Symbol}
    (h : (application, path, usage) ∈ consumers) :
    application ∈ principals ∧ path ∈ accessPaths ∧ usage ∈ usages := by
  have hall : ∀ consumer ∈ consumers, consumer.1 ∈ principals ∧ consumer.2.1 ∈ accessPaths ∧
      consumer.2.2 ∈ usages := by decide
  exact hall _ h

theorem Tagged.isPath {speaker owner : Principal} {path : AccessPath} {tag : Tag}
    (h : Tagged edges settings speaker path owner tag) : IsPath edges path := by
  cases h with
  | raw _ hpath => exact isPath_of_mem (rawSources_mem hpath)
  | does hconsumer => exact isPath_of_mem (consumers_mem hconsumer).2.1
  | guestAllows _ hpath => exact hpath
  | ownerAllows _ hpath => exact isPath_of_mem (rawSources_mem hpath)

theorem doesTag_ne_rawAudio (usage : Symbol) : doesTag usage ≠ rawAudio := by
  intro h
  have hchars := congrArg (fun tag => tag.toList.head?) h
  simp [doesTag, rawAudio, String.toList_append] at hchars

theorem allowTag_ne_rawAudio (usage : Symbol) : allowTag usage ≠ rawAudio := by
  intro h
  have hchars := congrArg (fun tag => tag.toList.head?) h
  simp [allowTag, rawAudio, String.toList_append] at hchars

theorem doesTag_ne_allowTag (usage usage' : Symbol) : doesTag usage ≠ allowTag usage' := by
  intro h
  have hchars := congrArg (fun tag => tag.toList.head?) h
  simp [doesTag, allowTag, String.toList_append] at hchars

theorem doesTag_inj {usage usage' : Symbol} (h : doesTag usage = doesTag usage') :
    usage = usage' := by
  have hchars := congrArg String.toList h
  rw [doesTag, doesTag, String.toList_append, String.toList_append] at hchars
  exact String.toList_inj.mp (List.append_cancel_left hchars)

theorem allowTag_inj {usage usage' : Symbol} (h : allowTag usage = allowTag usage') :
    usage = usage' := by
  have hchars := congrArg String.toList h
  rw [allowTag, allowTag, String.toList_append, String.toList_append] at hchars
  exact String.toList_inj.mp (List.append_cancel_left hchars)

theorem saysRule_meaning {head : SaysAtom} {premises : List SaysAtom}
    (hrule : SaysRule edges settings head premises)
    (h : ∀ p ∈ premises, p.Meaning edges settings) : head.Meaning edges settings := by
  cases hrule with
  | edge hedge => exact hedge
  | @edgeSource owner src tgt =>
    have hedge : IsEdge edges src tgt := h _ (List.mem_cons_self ..)
    exact .inr ⟨src, tgt, hedge, .inl rfl⟩
  | @edgeTarget owner src tgt =>
    have hedge : IsEdge edges src tgt := h _ (List.mem_cons_self ..)
    exact .inr ⟨src, tgt, hedge, .inr rfl⟩
  | arbitraryPath => exact .inl rfl
  | @taggedPath speaker owner path tag =>
    have htagged : Tagged edges settings speaker path owner tag := h _ (List.mem_cons_self ..)
    exact htagged.isPath
  | @everybodysPath principal path =>
    have hpath : IsPath edges path := h (.isAccessPath path) (by simp)
    exact hpath
  | statedPath _ hpath => exact isPath_of_mem hpath
  | ownerChanges husage => exact ⟨rfl, rfl, husage⟩
  | guestRawAudio hpath => exact .raw (.inr rfl) hpath
  | ownerRawAudio hpath => exact .raw (.inl rfl) hpath
  | @preference usage husage =>
    have henabled : ownerUser = systemSettingsManager ∨ (ownerUser, usage) ∈ settings :=
      h _ (List.mem_cons_self ..)
    exact ⟨rfl, henabled.resolve_left (by decide)⟩
  | consumes hconsumer => exact .does hconsumer
  | @guestAccepts path tag x =>
    have htagged : Tagged edges settings x path guestUser tag := h _ (List.mem_cons_self ..)
    generalize howner : guestUser = owner at htagged
    cases htagged with
    | raw _ hpath =>
      subst howner
      exact .raw (.inr rfl) hpath
    | does hconsumer => exact .does hconsumer
    | guestAllows husage hpath => exact .guestAllows husage hpath
    | ownerAllows => exact absurd howner (by decide)
  | @ownerAllows path usage husage =>
    have hpreference : ownerUser = ownerUser ∧ (ownerUser, usage) ∈ settings :=
      h _ (List.mem_cons_self ..)
    have hraw : Tagged edges settings ownerUser path ownerUser rawAudio :=
      h _ (List.mem_cons_of_mem _ (List.mem_cons_self ..))
    refine .ownerAllows husage ?_ hpreference.2
    generalize htag : rawAudio = tag at hraw
    generalize howner : ownerUser = owner at hraw
    cases hraw with
    | raw _ hpath => exact hpath
    | does => exact absurd htag.symm (doesTag_ne_rawAudio _)
    | guestAllows => exact absurd htag.symm (allowTag_ne_rawAudio _)
    | ownerAllows => exact absurd htag.symm (allowTag_ne_rawAudio _)
  | @ownerAccepts path usage x husage =>
    have htagged : Tagged edges settings x path ownerUser (doesTag usage) :=
      h _ (List.mem_cons_self ..)
    generalize htag : doesTag usage = tag at htagged ⊢
    generalize howner : ownerUser = owner at htagged
    cases htagged with
    | raw => exact absurd htag (doesTag_ne_rawAudio _)
    | does hconsumer => exact .does hconsumer
    | guestAllows => exact absurd htag (doesTag_ne_allowTag _ _)
    | ownerAllows => exact absurd htag (doesTag_ne_allowTag _ _)
  | managerAccepts hconsumer => exact .does hconsumer
  | guestAllows husage =>
    have hpath : IsPath edges _ := h _ (List.mem_cons_self ..)
    exact .guestAllows husage hpath
  | managerEnables => exact .inl rfl
  | applicationRemoves => exact ⟨rfl, rfl⟩
  | @guestRemoves path tag x =>
    have hremoved : path = demoApplicationAudioOut ∧ tag = doesTag streaming :=
      h (.saysRemoveTag x path guestUser tag) (List.mem_cons_self ..)
    exact hremoved
  | @ownerRemoves path tag x =>
    have hremoved : path = demoApplicationAudioOut ∧ tag = doesTag streaming :=
      h (.saysRemoveTag x path ownerUser tag) (List.mem_cons_self ..)
    exact hremoved
  | managerRemoves => exact ⟨rfl, rfl⟩
  | enabled hmem => exact .inr hmem
  | _ => trivial

theorem Derived.meaning {atom : SaysAtom} (h : Derived edges settings atom) :
    atom.Meaning edges settings :=
  Derivable.least (fun _ _ hrule hpremises => saysRule_meaning hrule hpremises) h

/-! ### What is derived -/

theorem derived_isPrincipal {principal : Principal}
    (h : principal = ownerUser ∨ principal = guestUser) :
    Derived edges settings (.isPrincipal principal) := by
  have hsource : "R.SmartMicrophone.audio" ∈ rawSources := by decide
  rcases h with rfl | rfl
  · exact .step .principal (.fact (.ownerRawAudio hsource))
  · exact .step .principal (.fact (.guestRawAudio hsource))

theorem derived_resolvedEdge {principal : Principal}
    (h : principal = ownerUser ∨ principal = guestUser) {src tgt : AccessPath}
    (hedge : IsEdge edges src tgt) : Derived edges settings (.resolvedEdge principal src tgt) :=
  .step (.edge hedge) (derived_isPrincipal h)

theorem derived_isAccessPath {path : AccessPath} (h : IsPath edges path) :
    Derived edges settings (.isAccessPath path) := by
  rcases h with rfl | ⟨src, tgt, hedge, rfl | rfl⟩
  · exact .fact .arbitraryPath
  · exact .step .edgeSource (derived_resolvedEdge (.inl rfl) hedge)
  · exact .step .edgeTarget (derived_resolvedEdge (.inl rfl) hedge)

theorem derived_does {owner application : Principal} {path : AccessPath} {usage : Symbol}
    (howner : owner ∈ principals) (h : (application, path, usage) ∈ consumers) :
    Derived edges settings (.saysHasTag systemSettingsManager path owner (doesTag usage)) := by
  obtain ⟨happlication, -, -⟩ := consumers_mem h
  have hmanager : systemSettingsManager ∈ principals := by decide
  exact .step₂ (.managerAccepts h)
    (.step (.consumes h) (.fact (.statedPrincipal happlication howner)))
    (.step (.managerDelegatesTags h) (.fact (.statedPrincipal hmanager howner)))

theorem hasTag_ownerUser_iff (path : AccessPath) (tag : Tag) :
    HasTag edges settings path ownerUser tag ↔
      tag = rawAudio ∧ path ∈ rawSources ∨
      (∃ application usage, tag = doesTag usage ∧ (application, path, usage) ∈ consumers) ∨
      ∃ usage ∈ usages, tag = allowTag usage ∧ path ∈ rawSources ∧
        (ownerUser, usage) ∈ settings := by
  have howner : ownerUser ∈ principals := by decide
  constructor
  · intro h
    have htagged : Tagged edges settings ownerUser path ownerUser tag := h.meaning
    generalize heq : ownerUser = owner at htagged
    cases htagged with
    | raw _ hpath => exact .inl ⟨rfl, hpath⟩
    | does hconsumer => exact .inr (.inl ⟨_, _, rfl, hconsumer⟩)
    | guestAllows => exact absurd heq (by decide)
    | ownerAllows husage hpath hsetting =>
      exact .inr (.inr ⟨_, husage, rfl, hpath, hsetting⟩)
  · rintro (⟨rfl, hpath⟩ | ⟨application, usage, rfl, hconsumer⟩ |
      ⟨usage, husage, rfl, hpath, hsetting⟩)
    · exact .fact (.ownerRawAudio hpath)
    · obtain ⟨-, hpath, husage⟩ := consumers_mem hconsumer
      exact .step₂ (.ownerAccepts husage) (derived_does howner hconsumer)
        (.step (.ownerDelegatesTags husage) (.fact (.statedPath howner hpath)))
    · have hpreference : Derived edges settings (.saysHasPreference ownerUser usage rawAudio) :=
        .step (.preference husage) (.fact (.enabled hsetting))
      have hraw : Derived edges settings (.saysHasTag ownerUser path ownerUser rawAudio) :=
        .fact (.ownerRawAudio hpath)
      have hpath' : Derived edges settings (.saysIsAccessPath ownerUser path) :=
        .fact (.statedPath howner (rawSources_mem hpath))
      refine .intro (.ownerAllows husage) ?_
      intro premise hpremise
      simp only [List.mem_cons, List.not_mem_nil, or_false] at hpremise
      rcases hpremise with rfl | rfl | rfl
      · exact hpreference
      · exact hraw
      · exact hpath'

theorem hasTag_guestUser_allow {path : AccessPath} (hpath : IsPath edges path) {usage : Symbol}
    (husage : usage ∈ usages) : HasTag edges settings path guestUser (allowTag usage) := by
  have hguest : guestUser ∈ principals := by decide
  have htags : ∀ usage ∈ usages, allowTag usage ∈ tags := by decide
  have hstated : "R.SmartMicrophone.audio" ∈ accessPaths := by decide
  have hmanager : Derived edges settings (.isPrincipal systemSettingsManager) :=
    .step .principal (.step (.guestAllows husage) (.fact (.statedPath (by decide) hstated)))
  have hpath' : Derived edges settings (.isAccessPath path) := derived_isAccessPath hpath
  have hsaid : Derived edges settings
      (.saysHasTag systemSettingsManager path guestUser (allowTag usage)) :=
    .step (.guestAllows husage) (.step₂ .everybodysPath hmanager hpath')
  have hdelegated : Derived edges settings
      (.saysCanSayHasTag guestUser systemSettingsManager path guestUser (allowTag usage)) :=
    .step₂ .guestDelegatesTags
      (.step₂ .everybodysPath (derived_isPrincipal (.inr rfl)) hpath')
      (.fact (.statedTag hguest (htags usage husage)))
  exact .step₂ .guestAccepts hsaid hdelegated

theorem removeTag_ownerUser_iff (path : AccessPath) (tag : Tag) :
    RemoveTag edges settings path ownerUser tag ↔
      path = demoApplicationAudioOut ∧ tag = doesTag streaming := by
  constructor
  · intro h
    exact h.meaning
  · rintro ⟨rfl, rfl⟩
    have howner : ownerUser ∈ principals := by decide
    have hmanager : systemSettingsManager ∈ principals := by decide
    have happlication : demoApplication ∈ principals := by decide
    have hpath : demoApplicationAudioOut ∈ accessPaths := by decide
    have htag : doesTag streaming ∈ tags := by decide
    have hremoved : Derived edges settings
        (.saysRemoveTag systemSettingsManager demoApplicationAudioOut ownerUser
          (doesTag streaming)) :=
      .step₂ .managerRemoves
        (.step .applicationRemoves (.fact (.statedPrincipal happlication howner)))
        (.step .managerDelegatesRemoval (.fact (.statedPrincipal hmanager howner)))
    exact .step₂ .ownerRemoves hremoved
      (.step₂ .ownerDelegatesRemoval (.fact (.statedPath howner hpath))
        (.fact (.statedTag howner htag)))

/-! ### Tags that may be on a path -/

theorem mayHaveTag_iff {owner : Principal} (howner : owner = ownerUser ∨ owner = guestUser)
    (path : AccessPath) (tag : Tag) : MayHaveTag edges settings path owner tag ↔
      ∃ src, HasTag edges settings src owner tag ∧
        Relation.ReflTransGen (TagFlow edges fun tgt => RemoveTag edges settings tgt owner tag)
          src path := by
  constructor
  · intro h
    induction h with
    | hasTag h => exact ⟨_, h, .refl⟩
    | propagated hedge _ hkept ih =>
      obtain ⟨src, hsrc, hflow⟩ := ih howner
      exact ⟨src, hsrc, hflow.tail (.inl ⟨hedge.meaning, hkept⟩)⟩
    | member hbase hmember _ hstarts ih =>
      obtain ⟨src, hsrc, hflow⟩ := ih howner
      exact ⟨src, hsrc, hflow.tail (.inr ⟨hbase.meaning, hmember.meaning, hstarts⟩)⟩
  · rintro ⟨src, hsrc, hflow⟩
    induction hflow with
    | refl => exact .hasTag hsrc
    | tail _ hstep ih =>
      rcases hstep with ⟨hedge, hkept⟩ | ⟨hbase, hmember, hstarts⟩
      · exact .propagated (derived_resolvedEdge howner hedge) ih hkept
      · exact .member (derived_isAccessPath hbase) (derived_isAccessPath hmember) ih hstarts

theorem tagFlow_congr {removes removes' : AccessPath → Prop}
    (h : ∀ path, removes path ↔ removes' path) :
    TagFlow edges removes = TagFlow edges removes' := by
  rw [funext fun path => propext (h path)]

theorem removeTag_ownerUser_never {tag : Tag} (htag : tag ≠ doesTag streaming) (path : AccessPath) :
    RemoveTag edges settings path ownerUser tag ↔ False := by
  rw [removeTag_ownerUser_iff]
  exact ⟨fun h => htag h.2, False.elim⟩

theorem mayHaveTag_rawAudio_iff (path : AccessPath) :
    MayHaveTag edges settings path ownerUser rawAudio ↔ RawAudioAt edges path := by
  rw [mayHaveTag_iff (.inl rfl),
    tagFlow_congr (removeTag_ownerUser_never (doesTag_ne_rawAudio streaming).symm)]
  refine exists_congr fun src => and_congr_left fun _ => ?_
  rw [hasTag_ownerUser_iff]
  constructor
  · rintro (⟨-, hsrc⟩ | ⟨application, usage, htag, -⟩ | ⟨usage, -, htag, -⟩)
    · exact hsrc
    · exact absurd htag.symm (doesTag_ne_rawAudio _)
    · exact absurd htag.symm (allowTag_ne_rawAudio _)
  · intro hsrc
    exact .inl ⟨rfl, hsrc⟩

theorem mayHaveTag_does_iff (path : AccessPath) (usage : Symbol) :
    MayHaveTag edges settings path ownerUser (doesTag usage) ↔ UsageAt edges usage path := by
  have hremoves : ∀ path, RemoveTag edges settings path ownerUser (doesTag usage) ↔
      RemovesUsage usage path := by
    intro path
    rw [removeTag_ownerUser_iff, RemovesUsage, and_comm]
    exact and_congr_left fun _ => ⟨doesTag_inj, congrArg doesTag⟩
  rw [mayHaveTag_iff (.inl rfl), tagFlow_congr hremoves, UsageAt, exists_comm]
  refine exists_congr fun src => ?_
  rw [hasTag_ownerUser_iff, exists_and_right]
  refine and_congr_left fun _ => ⟨?_, ?_⟩
  · rintro (⟨htag, -⟩ | ⟨application, usage', htag, hconsumer⟩ | ⟨usage', -, htag, -⟩)
    · exact absurd htag (doesTag_ne_rawAudio _)
    · obtain rfl := doesTag_inj htag
      exact ⟨application, hconsumer⟩
    · exact absurd htag (doesTag_ne_allowTag _ _)
  · rintro ⟨application, hconsumer⟩
    exact .inr (.inl ⟨application, usage, rfl, hconsumer⟩)

theorem mayHaveTag_allow_iff (path : AccessPath) {usage : Symbol} (husage : usage ∈ usages) :
    MayHaveTag edges settings path ownerUser (allowTag usage) ↔
      (ownerUser, usage) ∈ settings ∧ RawAudioAt edges path := by
  rw [mayHaveTag_iff (.inl rfl),
    tagFlow_congr (removeTag_ownerUser_never (doesTag_ne_allowTag streaming usage).symm),
    RawAudioAt, ← exists_and_left]
  refine exists_congr fun src => ?_
  rw [← and_assoc]
  refine and_congr_left fun _ => ?_
  rw [hasTag_ownerUser_iff]
  constructor
  · rintro (⟨htag, -⟩ | ⟨application, usage', htag, -⟩ | ⟨usage', -, htag, hsrc, hsetting⟩)
    · exact absurd htag (allowTag_ne_rawAudio _)
    · exact absurd htag.symm (doesTag_ne_allowTag _ _)
    · obtain rfl := allowTag_inj htag
      exact ⟨hsetting, hsrc⟩
  · rintro ⟨hsetting, hsrc⟩
    exact .inr (.inr ⟨usage, husage, rfl, hsrc, hsetting⟩)

theorem MayHaveTag.isPath {path : AccessPath} {owner : Principal} {tag : Tag}
    (h : MayHaveTag edges settings path owner tag) : IsPath edges path := by
  cases h with
  | hasTag h => exact Tagged.isPath h.meaning
  | propagated hedge => exact .inr ⟨_, _, hedge.meaning, .inr rfl⟩
  | member hbase => exact hbase.meaning

theorem MayHaveTag.user {path : AccessPath} {owner : Principal}
    (h : MayHaveTag edges settings path owner rawAudio) :
    owner = ownerUser ∨ owner = guestUser := by
  generalize htag : rawAudio = tag at h
  induction h with
  | hasTag h =>
    have htagged : Tagged edges settings _ _ _ _ := h.meaning
    cases htagged with
    | raw huser => exact huser
    | does => exact absurd htag.symm (doesTag_ne_rawAudio _)
    | guestAllows => exact absurd htag.symm (allowTag_ne_rawAudio _)
    | ownerAllows => exact absurd htag.symm (allowTag_ne_rawAudio _)
  | propagated _ _ _ ih => exact ih htag
  | member _ _ _ _ ih => exact ih htag

/-- Only the owner's audio is ever objected to, where it meets a usage that is switched off. -/
theorem disallows_iff (output : DisallowedUsage) : Disallows edges settings output ↔
    ∃ usage ∈ usages, (ownerUser, usage) ∉ settings ∧ Overheard edges usage ∧
      output = ⟨ownerUser, usage, ownerUser, rawAudio⟩ := by
  constructor
  · rintro ⟨owner, usage, husage, path, hraw, hdoes, hallow, rfl⟩
    rcases hraw.user with rfl | rfl
    · rw [mayHaveTag_rawAudio_iff] at hraw
      rw [mayHaveTag_does_iff] at hdoes
      rw [mayHaveTag_allow_iff path husage] at hallow
      exact ⟨usage, husage, fun hsetting => hallow ⟨hsetting, hraw⟩, ⟨path, hraw, hdoes⟩, rfl⟩
    · exact absurd (.hasTag (hasTag_guestUser_allow hraw.isPath husage)) hallow
  · rintro ⟨usage, husage, hsetting, ⟨path, hraw, hdoes⟩, rfl⟩
    refine ⟨ownerUser, usage, husage, path, (mayHaveTag_rawAudio_iff path).mpr hraw,
      (mayHaveTag_does_iff path usage).mpr hdoes, ?_, rfl⟩
    rw [mayHaveTag_allow_iff path husage]
    exact fun hallow => hsetting hallow.1

theorem saysCanSayIsEnabled_iff (speaker delegatee : Principal) (usage : Symbol) :
    Derived edges settings (.saysCanSayIsEnabled speaker delegatee usage) ↔
      speaker = systemSettingsManager ∧ delegatee = ownerUser ∧ usage ∈ usages := by
  constructor
  · intro h
    exact h.meaning
  · rintro ⟨rfl, rfl, husage⟩
    exact .fact (.ownerChanges husage)

/-- What the policy objects to and who may change a setting, whatever the edges are. -/
theorem IsMultimic.outputs_iff {program : PolicyProgram} (hprogram : IsMultimic program)
    (edges : Finset DataFlowEdge) (settings : Finset (String × String)) :
    (∀ output, output ∈ program.disallowedUsage edges settings ↔
      ∃ usage ∈ usages, (ownerUser, usage) ∉ settings ∧ Overheard edges usage ∧
        output = ⟨ownerUser, usage, ownerUser, rawAudio⟩) ∧
    ∀ speaker delegatee usage,
      (speaker, delegatee, usage) ∈ program.saysCanSayIsEnabled edges settings ↔
        speaker = systemSettingsManager ∧ delegatee = ownerUser ∧ usage ∈ usages := by
  refine ⟨fun output => ?_, fun speaker delegatee usage => ?_⟩
  · rw [hprogram.disallowedUsage, disallows_iff]
  · rw [hprogram.saysCanSayIsEnabled, saysCanSayIsEnabled_iff]

end

open Classical in
/-- A program that computes the policy. -/
noncomputable def multimicProgram : PolicyProgram where
  disallowedUsage edges settings :=
    (usages.filter fun usage => (ownerUser, usage) ∉ settings ∧ Overheard edges usage).map
      fun usage => ⟨ownerUser, usage, ownerUser, rawAudio⟩
  saysCanSayIsEnabled _ _ := usages.map fun usage => (systemSettingsManager, ownerUser, usage)

theorem multimicProgram_isMultimic : IsMultimic multimicProgram where
  disallowedUsage edges settings output := by
    simp only [multimicProgram, List.mem_map, List.mem_filter, decide_eq_true_eq, disallows_iff]
    constructor
    · rintro ⟨usage, ⟨husage, hsetting, hoverheard⟩, rfl⟩
      exact ⟨usage, husage, hsetting, hoverheard, rfl⟩
    · rintro ⟨usage, husage, hsetting, hoverheard, rfl⟩
      exact ⟨usage, ⟨husage, hsetting, hoverheard⟩, rfl⟩
  saysCanSayIsEnabled edges settings speaker delegatee usage := by
    simp only [multimicProgram, List.mem_map, Prod.mk.injEq, saysCanSayIsEnabled_iff]
    constructor
    · rintro ⟨_, husage, rfl, rfl, rfl⟩
      exact ⟨rfl, rfl, husage⟩
    · rintro ⟨rfl, rfl, husage⟩
      exact ⟨usage, husage, rfl, rfl, rfl⟩

/-- The microphone feeds speech recognition. -/
def microphoneToAsr : DataFlowEdge := ("R.mic_audio_stream_out", "R.asr_audio_stream_in")

theorem overheard_microphoneToAsr : Overheard {microphoneToAsr} "ASR" := by
  have hflow : ∀ {src tgt}, IsEdge {microphoneToAsr} src tgt →
      TagFlow {microphoneToAsr} (fun _ => False) src tgt := fun h => .inl ⟨h, not_false⟩
  have hout : TagFlow {microphoneToAsr} (fun _ => False) "R.SmartMicrophone.audio"
      "R.mic_audio_stream_out" := hflow (.inl (by decide))
  have hedge : TagFlow {microphoneToAsr} (fun _ => False) "R.mic_audio_stream_out"
      "R.asr_audio_stream_in" := hflow (.inr (Finset.mem_singleton_self _))
  have hin : TagFlow {microphoneToAsr} (fun _ => False) "R.asr_audio_stream_in"
      "R.DemoApplicationASR.audio" := hflow (.inl (by decide))
  have hraw : RawAudioAt {microphoneToAsr} "R.DemoApplicationASR.audio" :=
    ⟨"R.SmartMicrophone.audio", by decide,
      ((Relation.ReflTransGen.single hout).tail hedge).tail hin⟩
  exact ⟨"R.DemoApplicationASR.audio", hraw, "DemoApplicationASR", "R.DemoApplicationASR.audio",
    by decide, .refl⟩

theorem multimicProgram_outputs :
    ⟨ownerUser, "ASR", ownerUser, rawAudio⟩ ∈ multimicProgram.disallowedUsage {microphoneToAsr} ∅ ∧
      ("SystemSettingsManager", "GuestUser", "ASR") ∉ multimicProgram.saysCanSayIsEnabled ∅ ∅ := by
  refine ⟨?_, ?_⟩
  · exact ((multimicProgram_isMultimic.outputs_iff {microphoneToAsr} ∅).1 _).mpr
      ⟨"ASR", by decide, Finset.notMem_empty _, overheard_microphoneToAsr, rfl⟩
  · rw [(multimicProgram_isMultimic.outputs_iff ∅ ∅).2]
    decide

/-! ### The verdict -/

theorem getSettingsName_inj {setting setting' : Settings} {name : String}
    (h : getSettingsName setting = .ok name) (h' : getSettingsName setting' = .ok name) :
    setting = setting' := by
  have hnames := h.trans h'.symm
  cases setting <;> cases setting' <;> simp [getSettingsName] at hnames h ⊢

theorem getUserName_owner_iff (user : User) : getUserName user = .ok ownerUser ↔ user = .owner := by
  cases user <;> simp [getUserName, ownerUser]

theorem mem_usages_iff (usage : Symbol) :
    usage ∈ usages ↔ ∃ setting, getSettingsName setting = .ok usage := by
  simp only [usages, List.mem_cons, List.not_mem_nil, or_false]
  constructor
  · rintro (rfl | rfl | rfl)
    · exact ⟨.asr, rfl⟩
    · exact ⟨.streaming, rfl⟩
    · exact ⟨.recording, rfl⟩
  · rintro ⟨setting, hname⟩
    cases setting with
    | unknown => cases hname
    | streaming => exact .inr (.inl (Except.ok.inj hname).symm)
    | asr => exact .inl (Except.ok.inj hname).symm
    | recording => exact .inr (.inr (Except.ok.inj hname).symm)

namespace PolicyChecker

/-- No usage that the owner has switched off meets raw audio. -/
def Compliant (checker : PolicyChecker) : Prop :=
  ∀ setting usage, getSettingsName setting = .ok usage →
    checker.setting? .owner setting = some true ∨ ¬ Overheard checker.edges usage

/-- Only users and settings that have names have values. -/
def Named (checker : PolicyChecker) : Prop :=
  ∀ user setting, checker.setting? user setting ≠ none →
    (∃ name, getUserName user = .ok name) ∧ ∃ name, getSettingsName setting = .ok name

variable {program : PolicyProgram} {checker checker' : PolicyChecker}

theorem mem_enabledSettings_iff (user : User) (setting : Settings) :
    (user, setting) ∈ enabledSettings checker.userSettings ↔
      checker.setting? user setting = some true := by
  have hnone : (∅ : SettingsMap).lookup setting = none := AList.lookup_empty setting
  simp only [enabledSettings, List.mem_flatMap, List.mem_map, List.mem_filter, setting?]
  constructor
  · rintro ⟨⟨user', settingsMap⟩, huser, ⟨setting', value⟩, ⟨hsetting, hvalue⟩, heq⟩
    cases heq
    rw [AList.mem_lookup_iff.mpr huser, Option.getD_some, AList.mem_lookup_iff.mpr hsetting]
    exact congrArg some hvalue
  · intro h
    cases huser : checker.userSettings.lookup user with
    | none =>
      rw [huser, Option.getD_none, hnone] at h
      cases h
    | some settingsMap =>
      rw [huser, Option.getD_some] at h
      exact ⟨⟨user, settingsMap⟩, AList.mem_lookup_iff.mp huser, ⟨setting, true⟩,
        ⟨AList.mem_lookup_iff.mp h, rfl⟩, rfl⟩

theorem mem_updateSettings_iff {facts : Finset (String × String)}
    (h : updateSettings checker.userSettings = .ok facts) {setting : Settings} {usage : String}
    (hname : getSettingsName setting = .ok usage) :
    (ownerUser, usage) ∈ facts ↔ checker.setting? .owner setting = some true := by
  simp only [updateSettings, Checked.bind_eq_ok, Checked.pure_eq_ok] at h
  obtain ⟨names, hnames, rfl⟩ := h
  have hsame : (∃ enabled ∈ enabledSettings checker.userSettings, enabled = (.owner, setting)) ↔
      ∃ named ∈ names, named = (ownerUser, usage) := by
    refine exists_mem_iff_of_forall₂ (Checked.mapM_eq_ok hnames) ?_
    rintro ⟨user, setting'⟩ ⟨userName, settingName⟩ hnamed
    simp only [Checked.bind_eq_ok, Checked.pure_eq_ok, Prod.mk.injEq] at hnamed
    obtain ⟨_, huser, _, hsetting, rfl, rfl⟩ := hnamed
    rw [Prod.mk.injEq, Prod.mk.injEq]
    constructor
    · rintro ⟨rfl, rfl⟩
      exact ⟨Except.ok.inj (huser.symm.trans rfl), Except.ok.inj (hsetting.symm.trans hname)⟩
    · rintro ⟨rfl, rfl⟩
      exact ⟨(getUserName_owner_iff user).mp huser, getSettingsName_inj hsetting hname⟩
  rw [List.mem_toFinset, ← mem_enabledSettings_iff]
  simpa only [exists_eq_right] using hsame.symm

theorem Named.updateSettings (h : checker.Named) :
    ∃ facts, updateSettings checker.userSettings = .ok facts := by
  have hnames : ∀ enabled ∈ enabledSettings checker.userSettings, ∃ named,
      (do return (← getUserName enabled.1, ← getSettingsName enabled.2) : Checked _) =
        .ok named := by
    rintro ⟨user, setting⟩ henabled
    have hvalue := (mem_enabledSettings_iff user setting).mp henabled
    obtain ⟨⟨userName, huser⟩, settingName, hsetting⟩ := h user setting (by simp [hvalue])
    refine ⟨(userName, settingName), ?_⟩
    simp only [huser, hsetting]
    rfl
  obtain ⟨names, hmap⟩ := Checked.mapM_of hnames
  refine ⟨names.toFinset, ?_⟩
  simp only [PolicyChecker.updateSettings, Checked.bind_eq_ok, Checked.pure_eq_ok]
  exact ⟨names, hmap, rfl⟩

theorem disallowedUsage_eq_nil_iff (hprogram : IsMultimic program)
    {facts : Finset (String × String)} (hfacts : updateSettings checker.userSettings = .ok facts) :
    program.disallowedUsage checker.edges facts = [] ↔ checker.Compliant := by
  rw [List.eq_nil_iff_forall_not_mem]
  constructor
  · intro hnone setting usage hname
    rw [or_iff_not_imp_left, ← mem_updateSettings_iff hfacts hname]
    intro hsetting hoverheard
    exact hnone _ ((hprogram.disallowedUsage _ _ _).mpr (disallows_iff _ |>.mpr
      ⟨usage, (mem_usages_iff usage).mpr ⟨setting, hname⟩, hsetting, hoverheard, rfl⟩))
  · intro hcompliant output houtput
    obtain ⟨usage, husage, hsetting, hoverheard, -⟩ :=
      (disallows_iff output).mp ((hprogram.disallowedUsage _ _ _).mp houtput)
    obtain ⟨setting, hname⟩ := (mem_usages_iff usage).mp husage
    rcases hcompliant setting usage hname with hon | hsilent
    · exact hsetting ((mem_updateSettings_iff hfacts hname).mpr hon)
    · exact hsilent hoverheard

theorem validatePolicyCompliance_spec (hprogram : IsMultimic program) (hnamed : checker.Named) :
    ∃ verdict reason, checker.validatePolicyCompliance program = .ok (verdict, reason) ∧
      (verdict = true ↔ checker.Compliant) := by
  obtain ⟨facts, hfacts⟩ := hnamed.updateSettings
  rw [← disallowedUsage_eq_nil_iff hprogram hfacts]
  simp only [validatePolicyCompliance, Checked.bind_eq_ok]
  by_cases hnone : program.disallowedUsage checker.edges facts = []
  · exact ⟨true, _, ⟨facts, hfacts, if_pos hnone⟩, by simp only [hnone]⟩
  · have hverdict : (false = true) ↔ program.disallowedUsage checker.edges facts = [] := by
      simp only [Bool.false_eq_true, hnone]
    exact ⟨false, _, ⟨facts, hfacts, if_neg hnone⟩, hverdict⟩

theorem addEdge_named (hnamed : checker.Named) (src tgt : String) :
    (checker.addEdge src tgt).Named := hnamed

/-- An edge is added exactly when the policy has no objection afterwards. -/
theorem addIfValidEdge_verdict (hprogram : IsMultimic program) (hnamed : checker.Named)
    (src tgt : String) :
    ∃ verdict reason, checker.addIfValidEdge program src tgt =
        .ok ((verdict, reason), if verdict then checker.addEdge src tgt else checker) ∧
      (verdict = true ↔ (checker.addEdge src tgt).Compliant) := by
  obtain ⟨verdict, reason, hvalid, hverdict⟩ :=
    validatePolicyCompliance_spec hprogram (addEdge_named hnamed src tgt)
  have hsame : (if checker.isEdgePresent src tgt then checker else checker.addEdge src tgt) =
      checker.addEdge src tgt := by
    split
    · next hpresent =>
      rw [addEdge, Finset.insert_eq_of_mem (decide_eq_true_iff.mp hpresent)]
    · rfl
  obtain ⟨after, hadd⟩ : ∃ after, checker.addIfValidEdge program src tgt =
      .ok ((verdict, reason), after) := by
    simp only [addIfValidEdge, hsame, Checked.bind_eq_ok]
    by_cases hremove : (!verdict && !checker.isEdgePresent src tgt) = true
    · exact ⟨_, _, hvalid, if_pos hremove⟩
    · exact ⟨_, _, hvalid, if_neg hremove⟩
  exact ⟨verdict, reason, addIfValidEdge_spec hadd ▸ hadd, hverdict⟩

theorem isValidEdge_verdict (hprogram : IsMultimic program) (hnamed : checker.Named)
    (src tgt : String) :
    ∃ verdict reason, checker.isValidEdge program src tgt =
        .ok ((verdict, reason), checker.removeEdge src tgt) ∧
      (verdict = true ↔ (checker.addEdge src tgt).Compliant) := by
  obtain ⟨verdict, reason, hvalid, hverdict⟩ :=
    validatePolicyCompliance_spec hprogram (addEdge_named hnamed src tgt)
  obtain ⟨after, hask⟩ : ∃ after, checker.isValidEdge program src tgt =
      .ok ((verdict, reason), after) := by
    simp only [isValidEdge, Checked.bind_eq_ok]
    exact ⟨_, _, hvalid, rfl⟩
  exact ⟨verdict, reason, isValidEdge_spec hask ▸ hask, hverdict⟩

/-- Only the owner may change a setting. -/
theorem canUserChangeSettingNamed_iff (hprogram : IsMultimic program) (user settingName : String) :
    canUserChangeSettingNamed program user settingName = true ↔
      user = ownerUser ∧ settingName ∈ usages := by
  rw [canUserChangeSettingNamed, List.any_eq_true]
  simp only [decide_eq_true_eq, Prod.exists, hprogram.saysCanSayIsEnabled,
    saysCanSayIsEnabled_iff]
  constructor
  · rintro ⟨_, _, _, ⟨-, rfl, husage⟩, -, rfl, rfl⟩
    exact ⟨rfl, husage⟩
  · rintro ⟨rfl, husage⟩
    exact ⟨_, _, _, ⟨rfl, rfl, husage⟩, rfl, rfl, rfl⟩

end PolicyChecker

end Raksha.Ambient
