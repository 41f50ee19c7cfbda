import AvSync.Proofs.Persistence
import AvSync.StoreRuns

/-!
# The logs of several rooms

A log file takes the appends to every room name that is spelt like its own once the characters
which a file name does not keep are replaced (`loadOps_appendCalls`), so a room reads back its own
operations exactly when no other such name is in use (`loadOps_eq_appendedTo_iff`).
-/

namespace AvSync.Persistence

open Framing

open AvSync.SessionStore (stemFor)

variable {C : WireCodec} {room : String} {calls : List (String × TaggedOperation)}

/-- The operations of the calls whose room name has the same stem. -/
def sharedWith (room : String) (calls : List (String × TaggedOperation)) : List TaggedOperation :=
  (calls.filter (stemFor ·.1 = stemFor room)).map (·.2)

/-- A room's own operations are all those of its stem exactly when no other name has it. -/
theorem sharedWith_eq_appendedTo_iff :
    sharedWith room calls = appendedTo room calls ↔
      ∀ call ∈ calls, stemFor call.1 = stemFor room → call.1 = room := by
  unfold sharedWith appendedTo
  have hown : ∀ call : String × TaggedOperation,
      (decide (call.1 = room) && decide (stemFor call.1 = stemFor room)) = decide (call.1 = room) :=
    fun call => by by_cases h : call.1 = room <;> simp [h]
  have hsub : calls.filter (·.1 = room) =
      (calls.filter (stemFor ·.1 = stemFor room)).filter (·.1 = room) := by
    simp only [List.filter_filter, hown]
  constructor
  · intro h call hcall hstem
    have hlen := congrArg List.length h
    rw [List.length_map, List.length_map, hsub] at hlen
    have := List.length_filter_eq_length_iff.mp hlen.symm call
      (List.mem_filter.mpr ⟨hcall, by simpa using hstem⟩)
    simpa using this
  · intro h
    rw [hsub]
    refine congrArg (List.map Prod.snd) (List.filter_eq_self.mpr fun call hcall => ?_).symm
    obtain ⟨hmem, hstem⟩ := List.mem_filter.mp hcall
    simpa using h call hmem (by simpa using hstem)

namespace SessionStore

variable {store : SessionStore}

theorem sharedWith_cons (call : String × TaggedOperation)
    (calls : List (String × TaggedOperation)) :
    sharedWith room (call :: calls) =
      (if stemFor call.1 = stemFor room then [call.2] else []) ++ sharedWith room calls := by
  unfold sharedWith
  by_cases h : stemFor call.1 = stemFor room <;> simp [h]

/-- Appends to an unbounded store write behind the log of their stem, and rotate nothing. -/
theorem dir_appendCalls (room : String) :
    ∀ {calls : List (String × TaggedOperation)} {store : SessionStore}, store.limits = none →
      (∀ call ∈ calls, C.Encodes (2 ^ 32) call.2) →
      (store.appendCalls C calls).dir[pathFor room]?.getD [] =
          store.dir[pathFor room]?.getD [] ++ C.log (sharedWith room calls) ∧
        (store.appendCalls C calls).dir[rotatedPathFor room]? = store.dir[rotatedPathFor room]?
  | [], _, _, _ => ⟨(List.append_nil _).symm, rfl⟩
  | call :: calls, store, hl, h => by
    obtain ⟨hop, hops⟩ := List.forall_mem_cons.mp h
    have hnone : ∀ limits, store.limits = some limits →
        store.isFull call.1 limits (C.record call.2) = false := by
      rw [hl]
      exact fun _ h => by cases h
    have hdir := dir_appendOp hnone hop
    obtain ⟨h₁, h₂⟩ := dir_appendCalls room (limits_appendOp.trans hl) hops
    rw [hdir, BTreeMap.getElem?_insert_if] at h₁ h₂
    rw [if_neg (pathFor_ne_rotatedPathFor _ _)] at h₂
    refine ⟨?_, h₂⟩
    rw [sharedWith_cons]
    show (SessionStore.appendCalls C _ calls).dir[pathFor room]?.getD [] = _
    rw [h₁]
    by_cases hstem : stemFor call.1 = stemFor room
    · have hpath := pathFor_eq_iff.mpr hstem
      rw [if_pos hpath, if_pos hstem, hpath, Option.getD_some, List.append_assoc]
      rfl
    · rw [if_neg (mt pathFor_eq_iff.mp hstem), if_neg hstem]
      rfl

theorem loadOps_appendCalls (h : ∀ call ∈ calls, C.Encodes (2 ^ 32) call.2) :
    ((openInner ∅ none).appendCalls C calls).loadOps C room = sharedWith room calls := by
  have hlimits : (openInner ∅ none).limits = none := rfl
  obtain ⟨h₁, h₂⟩ := dir_appendCalls room hlimits h
  have hops : ∀ op ∈ sharedWith room calls, C.Encodes (2 ^ 32) op := by
    intro op hop
    obtain ⟨call, hcall, rfl⟩ := List.mem_map.mp hop
    exact h call (List.mem_filter.mp hcall).1
  have hread := readFrames_log hops []
  have hnew : (openInner ∅ none).dir[pathFor room]?.getD [] = [] := rfl
  have hrotated : (openInner ∅ none).dir[rotatedPathFor room]? = none := rfl
  rw [hnew, List.nil_append] at h₁
  rw [loadOps, h₂, hrotated]
  unfold readFrames at hread ⊢
  rw [h₁]
  simpa using hread

end SessionStore

end AvSync.Persistence
