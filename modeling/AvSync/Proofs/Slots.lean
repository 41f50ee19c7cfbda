import AvSync.Lib.Overwrite
import AvSync.Proofs.Edits
import AvSync.Proofs.Fresh
import AvSync.Proofs.LocalRuns
import AvSync.Redone

/-!
# Slots

A session holds its registers in slots. An operation that finds its targets and is newer than the
session sets the slots it writes, and no other (`Slot.reg_exec`).
-/

namespace AvSync

/-! ## Registers -/

/-- The registers of a clip. -/
inductive ClipReg where
  | alive
  | startFrame
  | durationFrames
  | field (φ : Field)

namespace ClipReg

abbrev Value : ClipReg → Type
  | alive => Bool
  | startFrame | durationFrames => UInt64
  | field φ => φ.Value

def reg : (ρ : ClipReg) → ClipCrdt → LwwReg ρ.Value
  | alive, c => c.alive
  | startFrame, c => c.startFrame
  | durationFrames, c => c.durationFrames
  | field φ, c => φ.reg c

/-- What a write to a record sets in a register. -/
def get : (ρ : ClipReg) → ClipWrite → Option ρ.Value
  | alive, w => w.alive
  | startFrame, w => w.startFrame
  | durationFrames, w => w.durationFrames
  | field .name, w => w.name
  | field .source, w => w.source
  | field .color, w => w.color
  | field .gain, w => w.gain
  | field .muted, w => w.muted
  | field .locked, w => w.locked
  | field .orderHint, w => w.orderHint
  | field .track, w => w.track

variable {c : ClipCrdt} {w : ClipWrite} {t : OpTag}

theorem reg_write (ρ : ClipReg) : ρ.reg (c.write w t) = (ρ.reg c).setOption (ρ.get w) t := by
  rcases ρ with _ | _ | _ | φ
  · rfl
  · rfl
  · rfl
  · cases φ <;> rfl

theorem reg_fromInsert (ρ : ClipReg) (x : ClipId) (r : TrackId) (d : ClipData) (p : UInt64) :
    ∃ v, ρ.get (TimelineOperation.clipWrite (.insertClip x r d p)) = some v ∧
      ρ.reg (.fromInsert r d p t) = ⟨v, t⟩ := by
  rcases ρ with _ | _ | _ | φ
  · exact ⟨_, rfl, rfl⟩
  · exact ⟨_, rfl, rfl⟩
  · exact ⟨_, rfl, rfl⟩
  · cases φ <;> exact ⟨_, rfl, rfl⟩

theorem reg_mem_tags (ρ : ClipReg) (c : ClipCrdt) : (ρ.reg c).tag ∈ c.tags := by
  rcases ρ with _ | _ | _ | φ
  · simp [reg, ClipCrdt.tags]
  · simp [reg, ClipCrdt.tags]
  · simp [reg, ClipCrdt.tags]
  · cases φ <;> simp [reg, Field.reg, ClipCrdt.tags]

end ClipReg

/-- The registers of a track. -/
inductive TrackReg where
  | alive
  | name
  | kind
  | volumeDb
  | muted
  | solo
  | orderHint

namespace TrackReg

abbrev Value : TrackReg → Type
  | name => String
  | kind => TrackKind
  | volumeDb => F32
  | alive | muted | solo => Bool
  | orderHint => UInt64

def reg : (ρ : TrackReg) → TrackCrdt → LwwReg ρ.Value
  | alive, r => r.alive
  | name, r => r.name
  | kind, r => r.kind
  | volumeDb, r => r.volumeDb
  | muted, r => r.muted
  | solo, r => r.solo
  | orderHint, r => r.orderHint

def get : (ρ : TrackReg) → TrackWrite → Option ρ.Value
  | alive, w => w.alive
  | name, w => w.name
  | kind, w => w.kind
  | volumeDb, w => w.volumeDb
  | muted, w => w.muted
  | solo, w => w.solo
  | orderHint, w => w.orderHint

variable {r : TrackCrdt} {w : TrackWrite} {t : OpTag}

theorem reg_write (ρ : TrackReg) : ρ.reg (r.write w t) = (ρ.reg r).setOption (ρ.get w) t := by
  cases ρ <;> rfl

theorem reg_fromInsert (ρ : TrackReg) (x : TrackId) (d : TrackData) (p : UInt64) :
    ∃ v, ρ.get (TimelineOperation.trackWrite (.insertTrack x d p)) = some v ∧
      ρ.reg (.fromInsert d p t) = ⟨v, t⟩ := by
  cases ρ <;> exact ⟨_, rfl, rfl⟩

theorem reg_mem_tags (ρ : TrackReg) (r : TrackCrdt) : (ρ.reg r).tag ∈ r.tags := by
  cases ρ <;> simp [reg, TrackCrdt.tags]

end TrackReg

/-- The registers of the session metadata. -/
inductive MetadataReg where
  | name
  | sampleRate
  | tempoBpm
  | tsNumerator
  | tsDenominator

namespace MetadataReg

abbrev Value : MetadataReg → Type
  | name => String
  | sampleRate | tsNumerator | tsDenominator => UInt32
  | tempoBpm => F64

def reg : (ρ : MetadataReg) → SessionMetadataState → LwwReg ρ.Value
  | name, m => m.name
  | sampleRate, m => m.sampleRate
  | tempoBpm, m => m.tempoBpm
  | tsNumerator, m => m.tsNumerator
  | tsDenominator, m => m.tsDenominator

def get : (ρ : MetadataReg) → SessionMetadataUpdate → Option ρ.Value
  | name, u => u.name
  | sampleRate, u => u.sampleRate
  | tempoBpm, u => u.tempoBpm
  | tsNumerator, u => u.timeSignatureNumerator
  | tsDenominator, u => u.timeSignatureDenominator

variable {m : SessionMetadataState} {u : SessionMetadataUpdate} {t : OpTag}

theorem reg_update (ρ : MetadataReg) :
    ρ.reg (m.update u t) = (ρ.reg m).setOption (ρ.get u) t := by
  cases ρ <;> rfl

theorem reg_mem_tags (ρ : MetadataReg) (s : Session) :
    (ρ.reg s.metadata).tag ∈ s.sessionMetadataTags := by
  cases ρ <;> simp [reg, Session.sessionMetadataTags]

end MetadataReg

/-! ## Slots -/

/-- A place for a value in a session. -/
inductive Slot where
  | clip (x : ClipId) (ρ : ClipReg)
  | track (t : TrackId) (ρ : TrackReg)
  | envelope (κ : TargetId ×ₗ EnvelopeType)
  | metadata (ρ : MetadataReg)

namespace Slot

abbrev Value : Slot → Type
  | clip _ ρ => ρ.Value
  | track _ ρ => ρ.Value
  | envelope _ => List EnvelopePoint
  | metadata ρ => ρ.Value

/-- A track record before its insert. -/
def blankTrack : TrackCrdt :=
  .fromInsert (.new "") 0 .initial

/-- The register in the slot. That of a record which is not there is unwritten. -/
def reg : (σ : Slot) → Session → LwwReg σ.Value
  | clip x ρ, s => ρ.reg (s.clips[x]?.getD (.fromSplit .initial))
  | track t ρ, s => ρ.reg (s.tracks[t]?.getD blankTrack)
  | envelope κ, s => s.envelopes.envelopes[κ]?.getD (.newInitial [])
  | metadata ρ, s => ρ.reg s.metadata

/-- The value that an operation sets in the slot. -/
def writes : (σ : Slot) → TimelineOperation → Option σ.Value
  | clip x ρ, op =>
    match op with
    | .splitClip _ _ n => if n = x then ρ.get { alive := some true } else none
    | op => if op.editedClip = some x then ρ.get op.clipWrite else none
  | track t ρ, op => if op.editedTrack = some t then ρ.get op.trackWrite else none
  | envelope κ, op =>
    match op with
    | .updateEnvelope y k points => if toLex (y, k) = κ then some points else none
    | _ => none
  | metadata ρ, op =>
    match op with
    | .updateSessionMetadata u => ρ.get u
    | _ => none

end Slot

namespace Session

variable {s : Session} {o : TaggedOperation} {op : TimelineOperation}

/-- The targets of `op` are there, and if it is a split, its child belongs to it or is not there. -/
structure Takes (s : Session) (op : TimelineOperation) : Prop where
  targets : s.HasTargets op
  split : ∀ {p f n}, op = .splitClip p f n → p ≠ n ∧
    ∀ d, s.clips[n]? = some d → d.originClaim = some ⟨p, f⟩

theorem Takes.exec_split (h : s.Takes o.operation) {p f n} (hop : o.operation = .splitClip p f n) :
    s.exec o = s.splitOff p f n o.tag := by
  have hp : p ∈ s.clips := h.targets (.clip p) (by rw [hop]; exact List.mem_cons_self)
  have hown : Owned [o] s := by
    rintro o' ho' p' f' n' hop' - d hd
    obtain rfl := List.mem_singleton.mp ho'
    cases hop.symm.trans hop'
    exact ⟨(h.split hop).2 d hd, hp⟩
  rcases hown.split (List.mem_singleton_self o) hop with ⟨he, -⟩ | ⟨-, hn, -⟩ | ⟨-, -, -, he⟩
  · exact absurd he (h.split hop).1
  · exact absurd hp hn
  · exact he

theorem envelopes_exec (h : s.HasTargets o.operation) (κ : TargetId ×ₗ EnvelopeType) :
    (s.exec o).envelopes.envelopes[κ]? =
      ((Slot.envelope κ).writes o.operation).elim s.envelopes.envelopes[κ]? fun points =>
        some ((s.envelopes.envelopes[κ]?.getD (.newInitial [])).set points o.tag) := by
  have hstep := exec_step s o
  generalize s.exec o = s' at hstep ⊢
  rcases hstep with hs | ⟨hop, -⟩ | ⟨hop, -⟩ | @⟨c, f, n, hop⟩ | ⟨-, hf⟩
  · rcases o.operation with _ | _ | _ | _ | _ | _ | _ | _ | _ | ⟨y, k, points⟩ | _
    case updateEnvelope =>
      simp only [writeOp, setEnvelope, EnvelopeStore.set, BTreeMap.getElem?_insert_if, Slot.writes]
      split_ifs with hκ
      · rw [hκ]
        rfl
      · rfl
    all_goals rfl
  · rw [hop]
    rfl
  · rw [hop]
    rfl
  · rw [hop]
    have hstep := applySplit_step s c f n o.tag
    generalize s.applySplit c f n o.tag = r at hstep ⊢
    rcases hstep with _ | _ | _ | _ | _ | _ <;> rfl
  · exact absurd (succeeds_of_hasTargets h) hf

theorem metadata_exec (h : s.HasTargets o.operation) (ρ : MetadataReg) :
    ρ.reg (s.exec o).metadata =
      (ρ.reg s.metadata).setOption ((Slot.metadata ρ).writes o.operation) o.tag := by
  have hstep := exec_step s o
  generalize s.exec o = s' at hstep ⊢
  rcases hstep with hs | ⟨hop, -⟩ | ⟨hop, -⟩ | @⟨c, f, n, hop⟩ | ⟨-, hf⟩
  · rcases o.operation with _ | _ | _ | _ | _ | _ | _ | _ | _ | _ | u
    case updateSessionMetadata => exact ρ.reg_update
    all_goals rfl
  · rw [hop]
    rfl
  · rw [hop]
    rfl
  · rw [hop]
    have hstep := applySplit_step s c f n o.tag
    generalize s.applySplit c f n o.tag = r at hstep ⊢
    rcases hstep with _ | _ | _ | _ | _ | _ <;> rfl
  · exact absurd (succeeds_of_hasTargets h) hf

end Session

namespace Slot

variable {s : Session} {o : TaggedOperation}

theorem tag_lt (h : s.Newest o.tag) (σ : Slot) : (σ.reg s).tag < o.tag := by
  have hinit : OpTag.initial < o.tag := lt_of_le_of_ne (OpTag.initial_le _) h.ne_initial.symm
  rcases σ with ⟨x, ρ⟩ | ⟨t, ρ⟩ | κ | ρ
  · rcases hx : s.clips[x]? with _ | c
    · have : (ρ.reg (.fromSplit .initial)).tag = .initial := by
        rcases ρ with _ | _ | _ | φ
        · rfl
        · rfl
        · rfl
        · cases φ <;> rfl
      rwa [reg, hx, Option.getD_none, this]
    · rw [reg, hx, Option.getD_some]
      exact h.clip hx _ (ρ.reg_mem_tags c)
  · rcases ht : s.tracks[t]? with _ | r
    · have : (ρ.reg blankTrack).tag = .initial := by cases ρ <;> rfl
      rwa [reg, ht, Option.getD_none, this]
    · rw [reg, ht, Option.getD_some]
      exact (Session.tagsIn_iff.mpr h).tracks t r ht _ (ρ.reg_mem_tags r)
  · rcases hκ : s.envelopes.envelopes[κ]? with _ | r
    · rwa [reg, hκ]
    · rw [reg, hκ, Option.getD_some]
      exact (Session.tagsIn_iff.mpr h).envelopes κ r hκ
  · exact (Session.tagsIn_iff.mpr h).metadata _ (ρ.reg_mem_tags s)

theorem reg_revived {k : Claim} {t : OpTag} {v : Option ClipCrdt} (ρ : ClipReg)
    (hlt : (ρ.reg (v.getD (.fromSplit .initial))).tag < t) :
    ρ.reg ((v.map (·.revive t)).getD (Session.childRecord k t)) =
      (ρ.get { alive := some true }).elim (ρ.reg (v.getD (.fromSplit .initial)))
        fun a => ⟨a, t⟩ := by
  rcases v with _ | c
  · rcases ρ with _ | _ | _ | φ
    · rfl
    · rfl
    · rfl
    · cases φ <;> rfl
  · rcases ρ with _ | _ | _ | φ
    · exact LwwReg.set_of_lt true hlt
    · rfl
    · rfl
    · cases φ <;> rfl

/-- The slots after an operation that finds its targets and is newer than the session. -/
theorem reg_exec (h : s.Newest o.tag) (ht : s.Takes o.operation) (σ : Slot) :
    σ.reg (s.exec o) = (σ.writes o.operation).elim (σ.reg s) fun v => ⟨v, o.tag⟩ := by
  have hlt := tag_lt h σ
  rcases σ with ⟨x, ρ⟩ | ⟨t, ρ⟩ | κ | ρ
  · by_cases hsplit : o.operation.IsSplit
    · obtain ⟨p, f, n, hop⟩ := TimelineOperation.isSplit_iff.mp hsplit
      rw [reg, ht.exec_split hop, Session.clips_splitOff, hop, writes]
      split_ifs with hn hp
      · rw [Option.getD_some]
        exact reg_revived ρ hlt
      · subst hp
        rw [Option.elim_none, reg]
        rcases s.clips[p]? with _ | c
        · rfl
        · rw [Option.map_some, Option.getD_some, Option.getD_some, ClipCrdt.recordSplit_eq]
          rcases ρ with _ | _ | _ | φ
          · rfl
          · rfl
          · rfl
          · cases φ <;> rfl
      · rfl
    · rw [reg, Session.clips_exec hsplit]
      have hwrites : (clip x ρ).writes o.operation =
          if o.operation.editedClip = some x then ρ.get o.operation.clipWrite else none := by
        rcases hop : o.operation with _ | _ | _ | _ | _ | _ | _ | _ | _ | _ | _
        case splitClip => exact absurd (by rw [hop]; trivial) hsplit
        all_goals rfl
      rw [hwrites]
      split_ifs with hedit
      · rcases hx : s.clips[x]? with _ | c
        · -- only an insert edits a clip that is not there
          have hmem : x ∉ s.clips := BTreeMap.not_mem_iff.mpr hx
          rcases hop : o.operation with ⟨y, r, d, p⟩ | _ | _ | _ | _ | _ | _ | _ | _ | _ | _ <;>
            rw [hop] at hedit <;> cases hedit
          · obtain ⟨v, hv, hreg⟩ := ρ.reg_fromInsert (t := o.tag) x r d p
            rw [hv, Session.clipStep, hop]
            exact hreg
          all_goals exact absurd (ht.targets (.clip x) (by rw [hop]; exact List.mem_cons_self)) hmem
        · rw [reg, hx, Option.getD_some] at hlt
          rw [Session.clipStep_some, Option.getD_some, ρ.reg_write, LwwReg.setOption_of_lt hlt, reg,
            hx, Option.getD_some]
      · rfl
  · rw [reg, Session.tracks_exec, writes]
    split_ifs with hedit
    · rcases hx : s.tracks[t]? with _ | r
      · have hmem : t ∉ s.tracks := BTreeMap.not_mem_iff.mpr hx
        rcases hop : o.operation with _ | _ | _ | _ | _ | _ | ⟨y, d, p⟩ | _ | _ | _ | _ <;>
          rw [hop] at hedit <;> cases hedit
        · obtain ⟨v, hv, hreg⟩ := ρ.reg_fromInsert (t := o.tag) t d p
          rw [hv, Session.trackStep, hop]
          exact hreg
        all_goals exact absurd (ht.targets (.track t) (by rw [hop]; exact List.mem_cons_self)) hmem
      · rw [reg, hx, Option.getD_some] at hlt
        rw [Session.trackStep_some, Option.getD_some, ρ.reg_write, LwwReg.setOption_of_lt hlt, reg,
          hx, Option.getD_some]
    · rfl
  · rw [reg, Session.envelopes_exec ht.targets]
    rcases hw : (envelope κ).writes o.operation with _ | points
    · rfl
    · exact LwwReg.set_of_lt points hlt
  · rw [reg, Session.metadata_exec ht.targets]
    exact LwwReg.setOption_of_lt hlt _

end Slot

end AvSync
