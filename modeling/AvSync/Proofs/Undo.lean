import AvSync.Proofs.LocalRuns

/-!
# Replaying what one user did

The log of a run of one user, delivered in any order, gives the view of the run as long as no
insert of the run, the undo of a delete, writes to a split child (`run_replicated`). Where one
does, a replica that sees the insert first makes the clip a root.
-/

namespace AvSync

namespace TimelineCrdt

variable {peer : PeerId} {c c' : TimelineCrdt} {op : TimelineOperation}
  {inv : Option TimelineOperation} {k : Call} {l : List TaggedOperation}

/-- A call of the user on which replicas agree: it inserts no split child, and creates nothing a
buffered operation waits for. -/
structure Replicates (c : TimelineCrdt) (k : Call) : Prop where
  user : c.UserCall k
  ticks : c.Ticks k
  unblocks : c.UnblocksNone k
  roots : c.InsertsRoots k

/-- A run of one user that inserts no split child. -/
structure RootRun (peer : PeerId) (c : TimelineCrdt) : Prop extends LocalRun peer c where
  not_inserted : ∀ o ∈ c.operationLog, ∀ o' ∈ c.operationLog, ∀ {x f n r d p},
    o.operation = .splitClip x f n → o'.operation ≠ .insertClip n r d p
  missing : ∀ o ∈ c.pending, c.session.Misses o.operation

theorem missing_stamp (h : ∀ o ∈ c.pending, c.session.Misses o.operation)
    (hu : ∀ o ∈ c.pending, ∀ r ∈ o.operation.requiredTargets, ¬c.session.Creates op r) :
    ∀ o ∈ (c.stamp op inv).2.pending, (c.stamp op inv).2.session.Misses o.operation := by
  intro o ho
  rw [stamp_session]
  rw [stamp_pending] at ho
  split_ifs at ho with hok
  · refine ⟨fun ht => (h o ho).1 fun r hr => ?_, (h o ho).2⟩
    exact (Session.hasTarget_exec.mp (ht r hr)).resolve_right (hu o ho r hr)
  · rw [Session.misses_exec_of_fails hok]
    rcases List.mem_append.mp ho with ho | ho
    · exact h o ho
    · obtain rfl := List.mem_singleton.mp ho
      exact Session.misses_of_fails hok

namespace RootRun

theorem new (peer : PeerId) : RootRun peer (.new peer) where
  toLocalRun := .new peer
  not_inserted _ ho := absurd ho List.not_mem_nil
  missing _ ho := absurd ho List.not_mem_nil

variable (h : RootRun peer c)

include h

theorem not_child {n : ClipId} (hn : n ∈ c.session.clips) (hp : c.session.parentOf n = none)
    {o : TaggedOperation} (ho : o ∈ c.operationLog) {x f} : o.operation ≠ .splitClip x f n := by
  intro hop
  obtain ⟨d, hd⟩ := BTreeMap.mem_iff.mp hn
  by_cases hxn : x = n
  · -- a split of a clip into itself introduces nothing, so another operation did
    subst hxn
    have hx : (Session.new.replay c.operationLog).HasTarget (.clip x) := h.session_eq ▸ hn
    obtain ⟨o', ho', hop', hself⟩ := Session.introduced_of_replay hx
    rcases hop₁ : o'.operation with y | _ | _ | ⟨y, g, m⟩ | _ | _ | _ | _ | _ | _ | _ <;>
      rw [hop₁] at hop' <;> cases hop'
    · exact h.not_inserted o ho o' ho' hop hop₁
    · obtain ⟨rfl, rfl⟩ := h.claim_eq o ho o' ho' hop hop₁
      exact hself _ _ hop₁
  · have hclaim := (h.owned o ho hop hxn d hd).1
    have hlink := Session.linked_replay c.operationLog n d (h.session_eq ▸ hd)
    rw [hclaim] at hlink
    rw [Session.parentOf_eq_some.mpr ⟨d, _, hd, hlink, rfl⟩] at hp
    cases hp

theorem not_inserted_stamp (hs : c.Sound op)
    (hr : ∀ x r d p, op = .insertClip x r d p → c.session.parentOf x = none) :
    ∀ o ∈ c.operationLog ++ [c.tagNext op], ∀ o' ∈ c.operationLog ++ [c.tagNext op],
      ∀ {x f n r d p}, o.operation = .splitClip x f n → o'.operation ≠ .insertClip n r d p := by
  intro o ho o' ho' x f n r d p hop hop'
  rcases List.mem_append.mp ho with ho | ho <;> rcases List.mem_append.mp ho' with ho' | ho'
  · exact h.not_inserted o ho o' ho' hop hop'
  · obtain rfl := List.mem_singleton.mp ho'
    have hop' : op = .insertClip n r d p := hop'
    rcases hs (.clip n) (by rw [hop']; rfl) with hu | ⟨hn | ⟨y, g, hy⟩, -⟩
    · exact hu o ho (by rw [hop]; rfl)
    · exact h.not_child hn (hr _ _ _ _ hop') ho hop
    · cases hop'.symm.trans hy
  · obtain rfl := List.mem_singleton.mp ho
    have hop : op = .splitClip x f n := hop
    rcases hs (.clip n) (by rw [hop]; rfl) with hu | ⟨-, hl⟩
    · exact hu o' ho' (by rw [hop']; rfl)
    · obtain ⟨o₁, ho₁, hop₁⟩ := hl (by rw [hop]; trivial)
      exact h.not_inserted o₁ ho₁ o' ho' (hop₁.trans hop) hop'
  · obtain rfl := List.mem_singleton.mp ho
    obtain rfl := List.mem_singleton.mp ho'
    cases hop.symm.trans hop'

theorem call (hP : c.Replicates k) (hk : c.call k = some c') : RootRun peer c' := by
  rcases userCall_cases hP.user hk with ⟨op, inv, h₀, h₁, hop, hc'⟩ | ⟨-, rfl⟩
  swap
  · exact h
  refine ⟨h.toLocalRun.call hP.user hP.ticks hk, ?_, ?_⟩ <;> rw [hc']
  · simp only [stamp_log]
    exact h.not_inserted_stamp (h.toLocalRun.sound hP.user hop)
      fun x r d p hx => hP.roots x r d p (hx ▸ hop)
  · exact missing_stamp (c := { c with history := h₀ }) h.missing (hP.unblocks op hop)

end RootRun

namespace LocalLog

theorem nodup (h : LocalLog peer c) : (c.operationLog.map (·.opId)).Nodup := by
  refine List.pairwise_map.mpr (h.sorted.imp_of_mem fun {a b} ha hb hlt he => ?_)
  rw [(h.stamped a ha).1, (h.stamped b hb).1, OperationId.mk.injEq] at he
  exact absurd hlt (he.1 ▸ lt_irrefl _)

theorem opSet_stamped (h : LocalLog peer c) : OpSet.Stamped ⟨c.operationLog, h.nodup⟩ :=
  fun o ho => (h.stamped o ho).1

theorem view (h : LocalLog peer c) : ∃ v, c.view = some v := h.forest.materialize

end LocalLog

/-- A replica that takes in the log of such a run, in any order and with any duplicates, ends with
the view of the run. -/
theorem run_replicated (peer q : PeerId) (calls : List Call)
    (hP : engine.Along (fun c k => ∀ c₀, c = some c₀ → c₀.Replicates k) (some (new peer)) calls)
    (hc : afterCalls peer calls = some c) (hl : ∀ o, o ∈ l ↔ o ∈ c.operationLog) :
    ∃ v, c.view = some v ∧ (replica q l).view = some v := by
  have h : RootRun peer c :=
    run_inv (I := RootRun peer) (fun c k c' h hP hk => h.call hP hk) (.new peer) hP hc
  have hone : OneOwner c.operationLog := ⟨h.claim_eq, h.not_inserted⟩
  obtain ⟨att, t, hatt, hlog⟩ :=
    OpSet.Delivers.trace (D := ⟨c.operationLog, h.nodup⟩) hl q
  obtain ⟨heq, -, -⟩ := Session.replay_eq_of_oneOwner hone h.opSet_stamped.tagsDistinct
    h.nodup.of_map (fun o ho => ho) hatt h.perm (t.perm.trans hlog)
    (fun o ho => h.session_eq ▸ h.missing o ho) fun o ho => t.session_eq ▸ t.missing o ho
  obtain ⟨v, hv⟩ := h.view
  refine ⟨v, hv, ?_⟩
  rw [TimelineCrdt.view, t.session_eq, ← heq, ← h.session_eq]
  exact hv

/-- A clip is split, which is undone and done again; then the clip is deleted, which is undone. -/
def undoneCalls : List Call :=
  [.applyLocal (.insertTrack ⟨1⟩ (.new "t") 0),
    .applyLocal (.insertClip ⟨1⟩ ⟨1⟩ (.new "c" 0 1000) 0),
    .applyLocal (.splitClip ⟨1⟩ 400 ⟨2⟩), .undo, .redo, .applyLocal (.deleteClip ⟨1⟩), .undo]

theorem undoneCalls_replicated :
    ∃ c, afterCalls ⟨1⟩ undoneCalls = some c ∧
      ∃ v, c.view = some v ∧ (replica ⟨2⟩ c.operationLog.reverse).view = some v := by
  have hP : engine.Along (fun c k => ∀ c₀, c = some c₀ → c₀.Replicates k) (some (new ⟨1⟩))
      undoneCalls := by
    refine ⟨?_, ?_, ?_, ?_, ?_, ?_, ?_, trivial⟩
    all_goals
      rintro c ⟨⟩
      refine ⟨by decide +kernel, by decide +kernel, fun op h o ho => absurd ho List.not_mem_nil,
        fun x r d p h => ?_⟩
      cases h
    · decide +kernel
    · decide +kernel
  exact ⟨_, rfl, run_replicated ⟨1⟩ ⟨2⟩ undoneCalls hP rfl fun o => List.mem_reverse⟩

/-- A clip is split, its right piece is deleted and brought back, and the clip is moved. -/
def reinsertCalls : List Call :=
  [.applyLocal (.insertTrack ⟨1⟩ (.new "t") 0),
    .applyLocal (.insertClip ⟨1⟩ ⟨1⟩ (.new "c" 0 1000) 0),
    .applyLocal (.splitClip ⟨1⟩ 400 ⟨2⟩), .applyLocal (.deleteClip ⟨2⟩), .undo,
    .applyLocal (.moveClip ⟨1⟩ ⟨1⟩ 100 0)]

theorem reinsertCalls_user :
    engine.Along (fun c k => ∀ c₀, c = some c₀ → c₀.UserCall k) (some (new ⟨1⟩)) reinsertCalls := by
  refine ⟨?_, ?_, ?_, ?_, ?_, ?_, trivial⟩
  all_goals
    rintro c ⟨⟩
    decide +kernel

/-- Where the insert that brings the piece back arrives before the split, the piece is a root and
does not follow the move. -/
theorem reinsertCalls_not_replicated :
    engine.Along (fun c k => ∀ c₀, c = some c₀ → c₀.UserCall k) (some (new ⟨1⟩)) reinsertCalls ∧
      ∃ c l, afterCalls ⟨1⟩ reinsertCalls = some c ∧ l.Perm c.operationLog ∧
        (replica ⟨2⟩ l).view ≠ c.view := by
  have hperm : ∀ a b c d e f : TaggedOperation, [a, b, e, c, d, f].Perm [a, b, c, d, e, f] := by
    intro a b c d e f
    have h : ([c, d] ++ e :: [f]).Perm (e :: ([c, d] ++ [f])) := List.perm_middle
    exact .cons a (.cons b h.symm)
  refine ⟨reinsertCalls_user, _, _, rfl, hperm _ _ _ _ _ _, fun h => ?_⟩
  exact absurd (congrArg (Option.map (·.clips)) h) (by decide +kernel)

end TimelineCrdt

end AvSync
