import Raksha.Ambient.PolicyChecker

/-!
# Runs of the ambient policy checker

The stored edges are those that have been accepted, and the settings are those that have been
changed, for as long as nobody asks `IsValidEdge` about an edge that is stored: the question is
answered by adding the edge and removing it again.
-/

namespace Raksha.Ambient
open Raksha.Common

inductive Call
  | addIfValidEdge (src tgt : String)
  | isValidEdge (src tgt : String)
  | validatePolicyCompliance
  | canUserChangeSetting (user : User) (setting : Settings)
  | availableSettings (user : User)
  | changeSetting (user : User) (setting : Settings) (value : Bool)

inductive Reply
  | verdict (valid : Bool) (reason : String)
  | flag (value : Bool)
  | settings (available : List Settings)

namespace PolicyChecker

section

variable (program : PolicyProgram)

def call (checker : PolicyChecker) : Call → Checked (Reply × PolicyChecker)
  | .addIfValidEdge src tgt => do
    let (result, checker) ← checker.addIfValidEdge program src tgt
    return (.verdict result.1 result.2, checker)
  | .isValidEdge src tgt => do
    let (result, checker) ← checker.isValidEdge program src tgt
    return (.verdict result.1 result.2, checker)
  | .validatePolicyCompliance => do
    let result ← checker.validatePolicyCompliance program
    return (.verdict result.1 result.2, checker)
  | .canUserChangeSetting user setting => do
    return (.flag (← canUserChangeSetting program user setting), checker)
  | .availableSettings user => do
    return (.settings (← availableSettings program user), checker)
  | .changeSetting user setting value => do
    let (changed, checker) ← checker.changeSetting program user setting value
    return (.flag changed, checker)

/-- The checker after the calls with these replies. -/
inductive Run : List (Call × Reply) → PolicyChecker → Prop
  | start : Run [] {}
  | step {history : List (Call × Reply)} {checker checker' : PolicyChecker} {c : Call}
      {reply : Reply} (before : Run history checker)
      (h : checker.call program c = .ok (reply, checker')) :
      Run (history ++ [(c, reply)]) checker'

end

/-! ### What a call does -/

def setting? (checker : PolicyChecker) (user : User) (setting : Settings) : Option Bool :=
  ((checker.userSettings.lookup user).getD ∅).lookup setting

def Accepts (edge : DataFlowEdge) (event : Call × Reply) : Prop :=
  event.1 = .addIfValidEdge edge.1 edge.2 ∧ ∃ reason, event.2 = .verdict true reason

def settingAfter (user : User) (setting : Settings) (old : Option Bool) :
    Call × Reply → Option Bool
  | (.changeSetting user' setting' value, .flag true) =>
    if user = user' ∧ setting = setting' then some value else old
  | _ => old

variable {program : PolicyProgram} {checker checker' : PolicyChecker}

@[simp] theorem setting?_setSetting (user user' : User) (setting setting' : Settings)
    (value : Bool) : (checker.setSetting user' setting' value).setting? user setting =
      if user = user' ∧ setting = setting' then some value else checker.setting? user setting := by
  simp only [setting?, setSetting, FlatHashMap.lookup_insertOrAssign]
  by_cases huser : user = user'
  · subst huser
    simp only [↓reduceIte, Option.getD_some, FlatHashMap.lookup_insertOrAssign, true_and]
  · simp only [huser, ↓reduceIte, false_and]

/-- An edge is kept when it is valid; an edge that was there stays there. -/
theorem addIfValidEdge_spec {src tgt : String} {result : Bool × String}
    (h : checker.addIfValidEdge program src tgt = .ok (result, checker')) :
    checker' = if result.1 then checker.addEdge src tgt else checker := by
  have hpresent : checker.isEdgePresent src tgt = true ↔ (src, tgt) ∈ checker.edges := by
    rw [isEdgePresent, decide_eq_true_iff]
  simp only [addIfValidEdge, Checked.bind_eq_ok] at h
  obtain ⟨verdict, -, h⟩ := h
  by_cases hin : (src, tgt) ∈ checker.edges
  · have hadd : checker.addEdge src tgt = checker := by
      rw [addEdge, Finset.insert_eq_of_mem hin]
    simp only [hpresent.mpr hin, Bool.not_true, Bool.and_false, Bool.false_eq_true, ↓reduceIte,
      Checked.pure_eq_ok, Prod.mk.injEq] at h
    obtain ⟨-, rfl⟩ := h
    rw [hadd, ite_self]
  · have habsent : checker.isEdgePresent src tgt = false := by
      rw [Bool.eq_false_iff, ne_eq, hpresent]
      exact hin
    have hremove : (checker.addEdge src tgt).removeEdge src tgt = checker := by
      rw [addEdge, removeEdge, Finset.erase_insert hin]
    simp only [habsent, Bool.not_false, Bool.and_true, Bool.false_eq_true, ↓reduceIte,
      hremove, Bool.not_eq_true'] at h
    split at h <;> simp only [Checked.pure_eq_ok, Prod.mk.injEq] at h <;> obtain ⟨rfl, rfl⟩ := h
    · next hinvalid => rw [hinvalid, if_neg Bool.false_ne_true]
    · next hvalid => rw [if_pos (Bool.not_eq_false _ ▸ hvalid)]

theorem isValidEdge_spec {src tgt : String} {result : Bool × String}
    (h : checker.isValidEdge program src tgt = .ok (result, checker')) :
    checker' = checker.removeEdge src tgt := by
  simp only [isValidEdge, Checked.bind_eq_ok, Checked.pure_eq_ok, Prod.mk.injEq] at h
  obtain ⟨-, -, -, rfl⟩ := h
  rw [addEdge, removeEdge, removeEdge, Finset.erase_insert_eq_erase]

theorem changeSetting_spec {user : User} {setting : Settings} {value changed : Bool}
    (h : checker.changeSetting program user setting value = .ok (changed, checker')) :
    checker' = if changed then checker.setSetting user setting value else checker := by
  simp only [changeSetting, Checked.bind_eq_ok] at h
  obtain ⟨userName, -, settingsName, -, h⟩ := h
  split at h
  · simp only [Checked.bind_eq_ok, Checked.pure_eq_ok, Prod.mk.injEq] at h
    obtain ⟨-, -, rfl, rfl⟩ := h
    rfl
  · cases h
    rfl

theorem call_spec {c : Call} {reply : Reply} (h : checker.call program c = .ok (reply, checker')) :
    (∃ src tgt valid reason, c = .addIfValidEdge src tgt ∧ reply = .verdict valid reason ∧
      checker' = if valid then checker.addEdge src tgt else checker) ∨
    (∃ src tgt, c = .isValidEdge src tgt ∧ checker' = checker.removeEdge src tgt) ∨
    (∃ user setting value changed, c = .changeSetting user setting value ∧ reply = .flag changed ∧
      checker' = if changed then checker.setSetting user setting value else checker) ∨
    ((∀ src tgt, c ≠ .addIfValidEdge src tgt) ∧ (∀ src tgt, c ≠ .isValidEdge src tgt) ∧
      (∀ user setting value, c ≠ .changeSetting user setting value) ∧ checker' = checker) := by
  cases c with
  | addIfValidEdge src tgt =>
    simp only [call, Checked.bind_eq_ok, Checked.pure_eq_ok, Prod.mk.injEq] at h
    obtain ⟨⟨result, checker₁⟩, hadd, rfl, rfl⟩ := h
    exact .inl ⟨src, tgt, result.1, result.2, rfl, rfl, addIfValidEdge_spec hadd⟩
  | isValidEdge src tgt =>
    simp only [call, Checked.bind_eq_ok, Checked.pure_eq_ok, Prod.mk.injEq] at h
    obtain ⟨⟨result, checker₁⟩, hask, -, rfl⟩ := h
    exact .inr (.inl ⟨src, tgt, rfl, isValidEdge_spec hask⟩)
  | changeSetting user setting value =>
    simp only [call, Checked.bind_eq_ok, Checked.pure_eq_ok, Prod.mk.injEq] at h
    obtain ⟨⟨changed, checker₁⟩, hchange, rfl, rfl⟩ := h
    exact .inr (.inr (.inl ⟨user, setting, value, changed, rfl, rfl, changeSetting_spec hchange⟩))
  | _ =>
    simp only [call, Checked.bind_eq_ok, Checked.pure_eq_ok, Prod.mk.injEq] at h
    obtain ⟨-, -, -, rfl⟩ := h
    refine .inr (.inr (.inr ⟨?_, ?_, ?_, rfl⟩)) <;> intros <;> exact Call.noConfusion

/-! ### Histories -/

/-- The stored edges are the accepted ones, and the settings are the initial ones with the changes
that were made. -/
structure Records (history : List (Call × Reply)) (checker : PolicyChecker) : Prop where
  edges : ∀ edge, edge ∈ checker.edges ↔ ∃ event ∈ history, Accepts edge event
  settings : ∀ user setting, checker.setting? user setting =
    history.foldl (settingAfter user setting) (({} : PolicyChecker).setting? user setting)

/-- The call only asks about an edge, or fails to add one. -/
def Declines (event : Call × Reply) : Prop :=
  (∃ src tgt, event.1 = .isValidEdge src tgt) ∨
    ∃ src tgt reason, event = (.addIfValidEdge src tgt, .verdict false reason)

/-- The call does not ask about a stored edge. -/
def AsksNew (checker : PolicyChecker) (c : Call) : Prop :=
  ∀ src tgt, c = .isValidEdge src tgt → (src, tgt) ∉ checker.edges

theorem Records.start : Records [] {} := by
  refine ⟨fun edge => ?_, fun _ _ => rfl⟩
  simp

theorem removeEdge_of_notMem {src tgt : String} (h : (src, tgt) ∉ checker.edges) :
    checker.removeEdge src tgt = checker := by
  rw [removeEdge, Finset.erase_eq_of_notMem h]

/-- What one call leaves unchanged, unless it asks about a stored edge. -/
theorem call_declined {c : Call} {reply : Reply}
    (h : checker.call program c = .ok (reply, checker')) (hnew : AsksNew checker c)
    (hdeclines : Declines (c, reply)) : checker' = checker := by
  rcases hdeclines with ⟨src, tgt, hc⟩ | ⟨src, tgt, reason, hevent⟩
  · rcases call_spec h with ⟨_, _, _, _, hadd, -⟩ | ⟨src', tgt', hask, rfl⟩ |
      ⟨_, _, _, _, hchange, -⟩ | ⟨-, -, -, rfl⟩
    · exact Call.noConfusion (hc.symm.trans hadd)
    · exact removeEdge_of_notMem (hnew src' tgt' hask)
    · exact Call.noConfusion (hc.symm.trans hchange)
    · rfl
  · obtain ⟨rfl, rfl⟩ := Prod.mk.inj hevent
    rcases call_spec h with ⟨_, _, _, _, -, hreply, rfl⟩ | ⟨_, _, hask, -⟩ |
      ⟨_, _, _, _, hchange, -⟩ | ⟨-, -, -, rfl⟩
    · obtain ⟨rfl, -⟩ := Reply.verdict.inj hreply
      rw [if_neg Bool.false_ne_true]
    · exact Call.noConfusion hask
    · exact Call.noConfusion hchange
    · rfl

theorem Records.step {history : List (Call × Reply)} {c : Call} {reply : Reply}
    (hrecords : Records history checker) (h : checker.call program c = .ok (reply, checker'))
    (hnew : AsksNew checker c) : Records (history ++ [(c, reply)]) checker' := by
  have haccepts : ∀ edge, (∃ event ∈ history ++ [(c, reply)], Accepts edge event) ↔
      edge ∈ checker.edges ∨ Accepts edge (c, reply) := by
    intro edge
    simp only [List.mem_append, List.mem_singleton, or_and_right, exists_or, exists_eq_left]
    rw [hrecords.edges edge]
  have hsettings : ∀ user setting, (history ++ [(c, reply)]).foldl (settingAfter user setting)
      (({} : PolicyChecker).setting? user setting) =
        settingAfter user setting (checker.setting? user setting) (c, reply) := by
    intro user setting
    rw [List.foldl_append, ← hrecords.settings, List.foldl_cons, List.foldl_nil]
  rcases call_spec h with ⟨src, tgt, valid, reason, rfl, rfl, rfl⟩ | ⟨src, tgt, rfl, rfl⟩ |
    ⟨user, setting, value, changed, rfl, rfl, rfl⟩ | ⟨hadd, hask, hchange, rfl⟩
  · refine ⟨fun edge => ?_, fun user setting => ?_⟩
    · rw [haccepts edge]
      cases valid with
      | true =>
        simp only [↓reduceIte, addEdge, Finset.mem_insert, Accepts, Call.addIfValidEdge.injEq,
          Reply.verdict.injEq, true_and, exists_eq', and_true]
        rw [or_comm, Prod.ext_iff, @eq_comm _ src, @eq_comm _ tgt]
      | false =>
        simp only [Bool.false_eq_true, ↓reduceIte, Accepts, Reply.verdict.injEq, false_and,
          exists_false, and_false, or_false]
    · rw [hsettings]
      cases valid <;> rfl
  · rw [removeEdge_of_notMem (hnew src tgt rfl)]
    refine ⟨fun edge => ?_, fun user setting => ?_⟩
    · rw [haccepts edge]
      simp only [Accepts, reduceCtorEq, false_and, or_false]
    · rw [hsettings]
      rfl
  · refine ⟨fun edge => ?_, fun other otherSetting => ?_⟩
    · rw [haccepts edge]
      cases changed <;> simp only [Accepts, reduceCtorEq, false_and, or_false] <;> rfl
    · rw [hsettings]
      cases changed with
      | true => exact setting?_setSetting other user otherSetting setting value
      | false => rfl
  · refine ⟨fun edge => ?_, fun user setting => ?_⟩
    · rw [haccepts edge]
      simp only [Accepts, hadd, false_and, or_false]
    · rw [hsettings]
      cases c with
      | changeSetting user setting value => exact absurd rfl (hchange user setting value)
      | _ => rfl

/-! ### Runs -/

theorem Run.concat_inv {history : List (Call × Reply)} {event : Call × Reply}
    (h : Run program (history ++ [event]) checker') :
    ∃ checker, Run program history checker ∧
      checker.call program event.1 = .ok (event.2, checker') := by
  generalize hall : history ++ [event] = all at h
  cases h with
  | start => exact absurd hall (List.append_ne_nil_of_right_ne_nil _ (List.cons_ne_nil _ _))
  | step before hcall =>
    obtain ⟨rfl, hevent⟩ := List.append_inj' hall rfl
    cases hevent
    exact ⟨_, before, hcall⟩

theorem Run.unique {history : List (Call × Reply)} (h : Run program history checker)
    (h' : Run program history checker') : checker' = checker := by
  induction h generalizing checker' with
  | start =>
    generalize hall : ([] : List (Call × Reply)) = all at h'
    cases h' with
    | start => rfl
    | step _ _ => exact absurd hall.symm (List.append_ne_nil_of_right_ne_nil _ (List.cons_ne_nil _ _))
  | step before hcall ih =>
    obtain ⟨middle, hmiddle, hcall'⟩ := h'.concat_inv
    cases ih hmiddle
    cases hcall.symm.trans hcall'
    rfl

theorem Run.of_prefix {history before : List (Call × Reply)} (h : Run program history checker)
    (hbefore : before <+: history) : ∃ checker', Run program before checker' := by
  induction h with
  | start =>
    rw [List.prefix_nil.mp hbefore]
    exact ⟨_, .start⟩
  | step hrun hcall ih =>
    rcases List.prefix_concat_iff.mp hbefore with rfl | hbefore
    · exact ⟨_, hrun.step hcall⟩
    · exact ih hbefore

/-- After every call of the run, the checker is what the calls before have made of it, and an edge
that was not accepted has not changed it. -/
structure Faithful (program : PolicyProgram) (history : List (Call × Reply)) : Prop where
  records : ∀ before checker, before <+: history → Run program before checker →
    Records before checker
  declined : ∀ before event checker checker', before ++ [event] <+: history →
    Run program before checker → checker.call program event.1 = .ok (event.2, checker') →
    Declines event → checker' = checker

/-- No call of the run asks about an edge that is stored then. -/
def AsksNoStored (program : PolicyProgram) (history : List (Call × Reply)) : Prop :=
  ∀ before event checker, before ++ [event] <+: history → Run program before checker →
    AsksNew checker event.1

theorem Run.records {history : List (Call × Reply)} (h : Run program history checker)
    (hnew : AsksNoStored program history) : Records history checker := by
  induction h with
  | start => exact .start
  | @step history checker _ c reply hrun hcall ih =>
    refine Records.step (ih ?_) hcall (hnew history (c, reply) checker (List.prefix_refl _) hrun)
    exact fun before event middle hbefore =>
      hnew before event middle (hbefore.trans (List.prefix_append _ _))

/-- Exactly the questions about stored edges spoil a run. -/
theorem faithful_iff {history : List (Call × Reply)} (h : Run program history checker) :
    Faithful program history ↔ AsksNoStored program history := by
  constructor
  · rintro hfaithful before ⟨c, reply⟩ middle hbefore hmiddle src tgt rfl hstored
    obtain ⟨after, hafter⟩ := h.of_prefix hbefore
    obtain ⟨middle', hmiddle', hcall⟩ := hafter.concat_inv
    cases hmiddle.unique hmiddle'
    have hsame : after = middle :=
      hfaithful.declined before _ middle after hbefore hmiddle hcall (.inl ⟨src, tgt, rfl⟩)
    rcases call_spec hcall with ⟨_, _, _, _, hadd, -⟩ | ⟨src', tgt', hask, hremoved⟩ |
      ⟨_, _, _, _, hchange, -⟩ | ⟨-, hask, -⟩
    · exact Call.noConfusion hadd
    · cases hask
      rw [← hsame, hremoved] at hstored
      exact Finset.notMem_erase _ _ hstored
    · exact Call.noConfusion hchange
    · exact hask src tgt rfl
  · intro hnew
    refine ⟨?_, ?_⟩
    · intro before middle hbefore hmiddle
      exact hmiddle.records fun before' event checker' hbefore' =>
        hnew before' event checker' (hbefore'.trans hbefore)
    · intro before event middle after hbefore hmiddle hcall
      exact call_declined hcall (hnew before event middle hbefore hmiddle)

/-- A program that objects to nothing and lets nobody change a setting. -/
def permissiveProgram : PolicyProgram where
  disallowedUsage _ _ := []
  saysCanSayIsEnabled _ _ := []

def microphoneToApp : Call := .addIfValidEdge "R.mic_audio_stream_out" "R.app_audio_stream_in"
def asksMicrophoneToApp : Call := .isValidEdge "R.mic_audio_stream_out" "R.app_audio_stream_in"
def success : Reply := .verdict true "Success"

/-- Asking before adding does no harm. -/
theorem askedFirst_faithful :
    Faithful permissiveProgram [(asksMicrophoneToApp, success), (microphoneToApp, success)] := by
  have hrun : Run permissiveProgram [(asksMicrophoneToApp, success), (microphoneToApp, success)] _ :=
    (Run.start.step rfl).step rfl
  refine (faithful_iff hrun).mpr ?_
  intro before event checker hbefore hchecker src tgt hevent
  have hcases : before = [] ∨ event = (microphoneToApp, success) := by
    rcases List.prefix_concat_iff.mp (show before ++ [event] <+:
      [(asksMicrophoneToApp, success)] ++ [(microphoneToApp, success)] from hbefore) with heq | hbefore
    · exact .inr (List.singleton_inj.mp (List.append_inj' heq rfl).2)
    · rcases List.prefix_concat_iff.mp (show before ++ [event] <+:
        [] ++ [(asksMicrophoneToApp, success)] from hbefore) with heq | hbefore
      · exact .inl (List.append_inj' heq rfl).1
      · exact absurd (List.prefix_nil.mp hbefore) (by simp)
  rcases hcases with rfl | rfl
  · rw [Run.start.unique hchecker]
    exact Finset.notMem_empty _
  · cases hevent

/-- The question removes the edge that was accepted before it. -/
theorem askedEdge_forgotten :
    ∃ checker, Run permissiveProgram [(microphoneToApp, success), (asksMicrophoneToApp, success)]
        checker ∧
      checker.edges = ∅ ∧
      ¬ Records [(microphoneToApp, success), (asksMicrophoneToApp, success)] checker := by
  refine ⟨_, (Run.start.step rfl).step rfl, rfl, fun hrecords => ?_⟩
  have hstored := (hrecords.edges ("R.mic_audio_stream_out", "R.app_audio_stream_in")).mpr
    ⟨_, List.mem_cons_self .., rfl, "Success", rfl⟩
  exact Finset.notMem_empty _ hstored

end PolicyChecker

end Raksha.Ambient
