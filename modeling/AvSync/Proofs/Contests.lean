import AvSync.Proofs.Ownership

/-!
# Replicas of a set with shared children

Whatever a replica has attempted, its claims and its liveness registers come from operations of
the set (`Board`). Once it has taken in the whole set, the smallest claim owns each child
(`Fed.claimOf_eq`), an item on display belongs to its place, and no liveness register is older
than what must have written it. Where the set settles liveness and split points, two replicas
agree (`agreed_of_settled`).
-/

namespace AvSync

namespace TimelineOperation

/-- The claim a split makes, and the child it names. -/
def claimAndChild : TimelineOperation → Option (Claim × ClipId)
  | splitClip c f n => some (⟨c, f⟩, n)
  | _ => none

theorem isSplit_iff_claim {op : TimelineOperation} :
    op.IsSplit ↔ ∃ (k : Claim) (n : ClipId), op = .splitClip k.clip k.offset n := by
  rw [isSplit_iff]
  exact ⟨fun ⟨c, f, n, h⟩ => ⟨⟨c, f⟩, n, h⟩, fun ⟨k, n, h⟩ => ⟨k.clip, k.offset, n, h⟩⟩

theorem claim_eq {k k' : Claim} {n n' : ClipId}
    (h : splitClip k.clip k.offset n = splitClip k'.clip k'.offset n') : k = k' ∧ n = n' := by
  rcases k with ⟨c, f⟩
  rcases k' with ⟨c', f'⟩
  cases h
  exact ⟨rfl, rfl⟩

end TimelineOperation

namespace ClipCrdt

/-- The parent link is that of the claim. -/
def ClaimLinked (c : ClipCrdt) : Prop := c.parent = c.originClaim.map fun k => ⟨k.clip, k.offset⟩

end ClipCrdt

namespace Session

variable {s : Session} {o : TaggedOperation}

/-- What one operation brings about and the others keep holds after a run in which it applies. -/
theorem replay_of_applied {I P : Session → Prop} :
    ∀ {l : List TaggedOperation} {s : Session}, (∀ s, ∀ b ∈ l, I s → I (s.exec b)) →
      (∀ s, ∀ b ∈ l, I s → P s → P (s.exec b)) → I s → o ∈ s.applied l →
      (∀ s, I s → s.Succeeds o → P (s.exec o)) → P (s.replay l)
  | [], _, _, _, _, ho, _ => absurd ho List.not_mem_nil
  | b :: l, s, hI, hP, hs, ho, hest => by
    have hI' : ∀ s, ∀ b ∈ l, I s → I (s.exec b) := fun s b hb => hI s b (List.mem_cons_of_mem _ hb)
    have hP' : ∀ s, ∀ b ∈ l, I s → P s → P (s.exec b) :=
      fun s b hb => hP s b (List.mem_cons_of_mem _ hb)
    have hb := hI s b List.mem_cons_self hs
    have hrest : o ∈ (s.exec b).applied l → P ((s.exec b).replay l) :=
      fun ho => replay_of_applied hI' hP' hb ho hest
    by_cases hsb : s.Succeeds b
    · simp only [applied, hsb, if_true, List.mem_cons] at ho
      rcases ho with rfl | ho
      · exact (Machine.run_inv (M := machine) (I := fun s : Session => I s ∧ P s)
          (fun s b hb h => ⟨hI' s b hb h.1, hP' s b hb h.1 h.2⟩) ⟨hb, hest s hs hsb⟩).2
      · exact hrest ho
    · simp only [applied, hsb, if_false] at ho
      exact hrest ho

/-- Every parent link is that of the clip's claim. -/
def ClaimLinked (s : Session) : Prop :=
  ∀ (x : ClipId) (c : ClipCrdt), s.clips[x]? = some c → c.ClaimLinked

theorem ClaimLinked.modifyClip (h : s.ClaimLinked) {φ : ClipCrdt → ClipCrdt}
    (hφ : ∀ c, c.ClaimLinked → (φ c).ClaimLinked) (x : ClipId) :
    (s.modifyClip x φ).ClaimLinked := by
  intro y d hd
  rw [clips_modifyClip] at hd
  split_ifs at hd
  · obtain ⟨c, hc, rfl⟩ := Option.map_eq_some_iff.mp hd
    exact hφ c (h y c hc)
  · exact h y d hd

theorem ClaimLinked.exec (h : s.ClaimLinked) : (s.exec o).ClaimLinked := by
  by_cases hsplit : o.operation.IsSplit
  · obtain ⟨c, f, n, hop⟩ := TimelineOperation.isSplit_iff.mp hsplit
    have hrec : ∀ d : ClipCrdt, d.ClaimLinked → (d.recordSplit f n).ClaimLinked := fun d hd => by
      rw [ClipCrdt.recordSplit_eq]
      exact hd
    have hdrop : ∀ (g : UInt64) (d : ClipCrdt), d.ClaimLinked → (d.dropSplit g n).ClaimLinked := by
      intro g d hd
      unfold ClipCrdt.dropSplit
      split_ifs
      · exact hd
      · exact hd
    have hrev : ∀ d : ClipCrdt, d.ClaimLinked → (d.revive o.tag).ClaimLinked := fun _ hd => hd
    have hlink : ∀ d : ClipCrdt, d.ClaimLinked → (d.link ⟨c, f⟩).ClaimLinked := fun _ _ => rfl
    simp only [Session.exec, hop, apply]
    have hstep := applySplit_step s c f n o.tag
    generalize s.applySplit c f n o.tag = r at hstep ⊢
    rcases hstep with _ | _ | _ | ⟨-, -, -⟩ | _ | _
    · exact h
    · exact h
    · exact h
    · intro y d hd
      rw [clips_setClip] at hd
      split_ifs at hd
      · exact Option.some.inj hd ▸ rfl
      · exact h.modifyClip hrec c y d hd
    · exact (h.modifyClip hrev n).modifyClip hrec c
    · exact (((h.modifyClip (hdrop _) _).modifyClip hlink n).modifyClip hrev n).modifyClip hrec c
  · intro y d hd
    rcases clip_exec_of_not_split hsplit hd with ⟨e, he, rfl | ⟨-, rfl⟩⟩ | ⟨-, r, a, p, -, rfl⟩
    · exact h y d he
    · exact h y e he
    · rfl

end Session

namespace OpSet

open TimelineCrdt Session

variable {D : OpSet} {s : Session} {c c' : TimelineCrdt} {att : List TaggedOperation}
  {o : TaggedOperation} {k j : Claim} {n m x : ClipId}

theorem SharedIds.ne (H : D.SharedIds) (h : D.Claims k n) : k.clip ≠ n := by
  rintro rfl
  obtain ⟨r, d, p, hins⟩ := H.parent_inserted h
  exact H.child_not_inserted h hins

/-- The claims of a session come from the set, and so do its liveness registers. -/
structure Board (D : OpSet) (s : Session) : Prop where
  linked : s.ClaimLinked
  claims : ∀ n k, s.claimOf n = some k → D.Claims k n
  owned : ∀ k n, D.Claims k n → n ∈ s.clips → s.claimOf n ≠ none
  sound : s.auction.Sound
  alive : ∀ x a, s.aliveOf x = some a →
    ∃ o ∈ D.ops, o.operation.liveness x = some a.value ∧ o.tag = a.tag

namespace Board

theorem new (D : OpSet) : Board D .new := by
  constructor <;> intro x <;> intros <;>
    simp_all [Session.new, claimOf, aliveOf, Session.auction, pointOf]

theorem auction_exec (H : D.SharedIds) (h : Board D s) (ho : o ∈ D.ops)
    (hop : o.operation = .splitClip k.clip k.offset n) :
    (s.exec o).auction = s.auction.bid k n (decide (k.clip ∈ s.clips)) :=
  auction_exec_split hop (H.ne ⟨o, ho, hop⟩) (h.owned k n ⟨o, ho, hop⟩)

/-- An owner has been one before, or the operation is a split that makes its claim. -/
theorem claimOf_exec (H : D.SharedIds) (h : Board D s) (ho : o ∈ D.ops)
    (hk : (s.exec o).claimOf n = some k) :
    s.claimOf n = some k ∨ o.operation = .splitClip k.clip k.offset n := by
  by_cases hsplit : o.operation.IsSplit
  · obtain ⟨j, m, hop⟩ := TimelineOperation.isSplit_iff_claim.mp hsplit
    have hbid : (s.auction.bid j m (decide (j.clip ∈ s.clips))).owner n = some k := by
      rw [← h.auction_exec H ho hop]
      exact hk
    rcases Auction.owner_of_bid hbid with hold | ⟨rfl, rfl⟩
    · exact Or.inl hold
    · exact Or.inr hop
  · have hsame : (s.exec o).claimOf n = s.claimOf n :=
      congrFun (congrArg Auction.owner (auction_exec_of_not_split hsplit)) n
    exact Or.inl (hsame.symm.trans hk)

theorem claimOf_mono (H : D.SharedIds) (h : Board D s) (ho : o ∈ D.ops)
    (hk : s.claimOf n = some k) : ∃ k' ≤ k, (s.exec o).claimOf n = some k' := by
  by_cases hsplit : o.operation.IsSplit
  · obtain ⟨j, m, hop⟩ := TimelineOperation.isSplit_iff_claim.mp hsplit
    have := Auction.owner_bid_le (a := s.auction) (k := j) (n := m)
      (b := decide (j.clip ∈ s.clips)) hk
    rw [← h.auction_exec H ho hop] at this
    exact this
  · have hsame : (s.exec o).claimOf n = s.claimOf n :=
      congrFun (congrArg Auction.owner (auction_exec_of_not_split hsplit)) n
    exact ⟨k, le_rfl, hsame.trans hk⟩

theorem exec (H : D.SharedIds) (h : Board D s) (ho : o ∈ D.ops) : Board D (s.exec o) where
  linked := h.linked.exec
  claims n k hk := by
    rcases h.claimOf_exec H ho hk with hk | hop
    · exact h.claims n k hk
    · exact ⟨o, ho, hop⟩
  owned k n hk hn := by
    rcases hv : s.claimOf n with _ | k₀
    · have hnew := (mem_exec.mp hn).resolve_left fun hn => h.owned k n hk hn hv
      rcases hop : o.operation with _ | _ | _ | ⟨c, f, m⟩ | _ | _ | _ | _ | _ | _ | _ <;>
        rw [hop] at hnew <;> try exact hnew.elim
      case insertClip =>
        obtain rfl : _ = n := hnew
        exact absurd ⟨o, ho, hop⟩ (H.child_not_inserted hk)
      case splitClip =>
        obtain ⟨rfl, hc⟩ := hnew
        obtain ⟨k₁, -, hk₁⟩ := Auction.owner_bid_self s.auction ⟨c, f⟩ m
        have hbid := h.auction_exec (k := ⟨c, f⟩) H ho hop
        rw [decide_eq_true hc] at hbid
        rw [← hbid] at hk₁
        exact fun hnone => by cases hnone.symm.trans hk₁
    · obtain ⟨k₁, -, hk₁⟩ := h.claimOf_mono H ho hv
      rw [hk₁]
      exact Option.some_ne_none k₁
  sound := by
    by_cases hsplit : o.operation.IsSplit
    · obtain ⟨k, n, hop⟩ := TimelineOperation.isSplit_iff_claim.mp hsplit
      rw [h.auction_exec H ho hop]
      exact h.sound.bid
    · rw [auction_exec_of_not_split hsplit]
      exact h.sound
  alive x a ha := by
    rcases aliveOf_of_exec ha with ha | ha
    · exact h.alive x a ha
    · exact ⟨o, ho, ha⟩

theorem replay (H : D.SharedIds) (h : Board D s) {l : List TaggedOperation}
    (hl : ∀ o ∈ l, o ∈ D.ops) : Board D (s.replay l) :=
  Machine.run_inv (M := machine) (fun _ o ho h => h.exec H (hl o ho)) h

end Board

/-! ## What a replica holds -/

/-- `c` is fed with operations of the set, and has attempted `att`. -/
structure Fed (D : OpSet) (c : TimelineCrdt) (att : List TaggedOperation) : Prop where
  trace : Trace c att
  att_mem : ∀ o ∈ att, o ∈ D.ops
  log_mem : ∀ o ∈ c.operationLog, o ∈ D.ops

theorem Owns.le_owner (h : D.Owns k n) (hs : Board D s) {k₀ : Claim}
    (hk : s.claimOf n = some k₀) : k ≤ k₀ := h.2 k₀ (hs.claims n k₀ hk)

theorem finite_claims (D : OpSet) : {p : Claim × ClipId | D.Claims p.1 p.2}.Finite := by
  refine (List.finite_toSet (D.ops.filterMap (·.operation.claimAndChild))).subset ?_
  rintro ⟨k, n⟩ ⟨o, ho, hop⟩
  refine List.mem_filterMap.mpr ⟨o, ho, ?_⟩
  rw [hop]
  rfl

/-- Some claim on a child is the smallest. -/
theorem Claims.exists_owner (h : D.Claims k n) : ∃ k₀, D.Owns k₀ n := by
  obtain ⟨⟨k₀, n₀⟩, ⟨hk₀, rfl⟩, hmin⟩ := Set.exists_min_image
    {p : Claim × ClipId | D.Claims p.1 p.2 ∧ p.2 = n} Prod.fst
    (D.finite_claims.subset fun p hp => hp.1) ⟨(k, n), h, rfl⟩
  exact ⟨k₀, hk₀, fun k' hk' => hmin (k', _) ⟨hk', rfl⟩⟩

theorem Claims.exists_least (h : D.Claims k n) :
    ∃ m, D.Claims k m ∧ ∀ n', D.Claims k n' → m ≤ n' := by
  obtain ⟨⟨k₀, m⟩, ⟨hm, rfl⟩, hmin⟩ := Set.exists_min_image
    {p : Claim × ClipId | D.Claims p.1 p.2 ∧ p.1 = k} Prod.snd
    (D.finite_claims.subset fun p hp => hp.1) ⟨(k, n), h, rfl⟩
  exact ⟨m, hm, fun n' hn' => hmin (_, n') ⟨hn', rfl⟩⟩

namespace Fed

variable (H : D.SharedIds) (F : Fed D c att)

include F in
/-- What is logged and finds its targets has been applied. -/
theorem mem_applied (ho : o ∈ c.operationLog) (ht : c.session.HasTargets o.operation) :
    o ∈ Session.new.applied att := by
  rcases List.mem_append.mp (F.trace.perm.mem_iff.mpr ho) with h | h
  · exact h
  · exact absurd ht (F.trace.missing o h).1

include F in
theorem mem_of_insert (ho : o ∈ c.operationLog) {r d p} (hop : o.operation = .insertClip x r d p) :
    x ∈ c.session.clips := by
  have happ : o ∈ Session.new.applied att := F.mem_applied ho fun r hr => by
    rw [hop] at hr
    exact absurd hr List.not_mem_nil
  rw [F.trace.session_eq]
  refine replay_of_applied (I := fun _ => True) (P := fun s => x ∈ s.clips)
    (fun _ _ _ _ => trivial) (fun s b _ _ h => mem_exec.mpr (Or.inl h)) trivial happ fun s _ _ => ?_
  rw [mem_exec, hop]
  exact Or.inr rfl

include H F

theorem board : Board D c.session := by
  rw [F.trace.session_eq]
  exact (Board.new D).replay H F.att_mem

/-- The owner of a child is no larger than the claim of a split that is there. -/
theorem claimOf_le (ho : o ∈ c.operationLog) (hop : o.operation = .splitClip k.clip k.offset n)
    (hk : k.clip ∈ c.session.clips) : ∃ k' ≤ k, c.session.claimOf n = some k' := by
  have hoD := F.log_mem o ho
  have happ : o ∈ Session.new.applied att := F.mem_applied ho fun r hr => by
    rw [hop] at hr
    exact List.mem_singleton.mp hr ▸ hk
  rw [F.trace.session_eq]
  refine replay_of_applied (I := Board D) (P := fun s => ∃ k' ≤ k, s.claimOf n = some k')
    (fun s b hb h => h.exec H (F.att_mem b hb)) (fun s b hb h hP => ?_) (.new D) happ
    fun s h hs => ?_
  · obtain ⟨k₁, hk₁, hn⟩ := hP
    obtain ⟨k₂, hk₂, hn'⟩ := h.claimOf_mono H (F.att_mem b hb) hn
    exact ⟨k₂, hk₂.trans hk₁, hn'⟩
  · have hbid := h.auction_exec H hoD hop
    have howner : (s.exec o).claimOf n =
        (s.auction.bid k n (decide (k.clip ∈ s.clips))).owner n := by
      rw [← hbid]
      rfl
    rw [howner]
    rcases hv : s.claimOf n with _ | k₀
    · have hc : k.clip ∈ s.clips := parent_mem_of_succeeds hop (H.ne ⟨o, hoD, hop⟩) hs
        fun k₀ hk₀ => by cases hv.symm.trans hk₀
      rw [decide_eq_true hc]
      exact Auction.owner_bid_self s.auction k n
    · exact ⟨min k k₀, min_le_left k k₀, Auction.owner_bid_of_some hv⟩

theorem mem_of_split (ho : o ∈ c.operationLog) (hop : o.operation = .splitClip k.clip k.offset n)
    (hk : k.clip ∈ c.session.clips) : n ∈ c.session.clips := by
  obtain ⟨k', -, hk'⟩ := F.claimOf_le H ho hop hk
  obtain ⟨child, hn, -⟩ := Option.bind_eq_some_iff.mp hk'
  exact BTreeMap.mem_iff.mpr ⟨child, hn⟩

/-- A liveness register is no older than an operation that wrote it, if the owner does not change
hands afterwards. -/
theorem aliveOf_ge (ho : o ∈ c.operationLog) (ht : c.session.HasTargets o.operation) {v : Bool}
    (hv : o.operation.liveness x = some v)
    (hw : ∀ k : Claim, o.operation = .splitClip k.clip k.offset x → D.Owns k x) :
    ∃ a, c.session.aliveOf x = some a ∧ o.tag ≤ a.tag := by
  rw [F.trace.session_eq]
  refine replay_of_applied (I := Board D)
    (P := fun s => ∃ a, s.aliveOf x = some a ∧ o.tag ≤ a.tag)
    (fun s b hb h => h.exec H (F.att_mem b hb)) (fun s b hb h hP => ?_) (.new D)
    (F.mem_applied ho ht) fun s h hs => ?_
  · obtain ⟨a, ha, hle⟩ := hP
    obtain ⟨a', ha', hle'⟩ := aliveOf_mono (o := b) ha
    exact ⟨a', ha', hle.trans hle'⟩
  · refine aliveOf_exec_ge hs hv fun p f hop => ?_
    have hown : D.Owns ⟨p, f⟩ x := hw ⟨p, f⟩ hop
    exact ⟨H.ne hown.1, fun k₀ hk₀ => hown.le_owner h hk₀⟩

/-- The smallest item of a place is on display there. -/
theorem pointOf_eq (ho : o ∈ c.operationLog) (hop : o.operation = .splitClip k.clip k.offset n)
    (hk : k.clip ∈ c.session.clips) (hown : D.Owns k n) (hmin : ∀ m, D.Claims k m → n ≤ m) :
    c.session.pointOf k = some n := by
  have hoD := F.log_mem o ho
  have happ : o ∈ Session.new.applied att := F.mem_applied ho fun r hr => by
    rw [hop] at hr
    exact List.mem_singleton.mp hr ▸ hk
  rw [F.trace.session_eq]
  refine replay_of_applied (I := Board D) (P := fun s => s.auction.point k = some n)
    (fun s b hb h => h.exec H (F.att_mem b hb)) (fun s b hb h hP => ?_) (.new D) happ
    fun s h hs => ?_
  · have hb := F.att_mem b hb
    by_cases hsplit : b.operation.IsSplit
    · obtain ⟨k', n', hop'⟩ := TimelineOperation.isSplit_iff_claim.mp hsplit
      rw [h.auction_exec H hb hop']
      refine Auction.point_bid_of_le hP (fun hn => ?_) fun hk' => ?_
      · exact hown.2 k' (hn ▸ ⟨b, hb, hop'⟩)
      · exact hmin n' (hk' ▸ ⟨b, hb, hop'⟩)
    · rw [auction_exec_of_not_split hsplit]
      exact hP
  · have hw : s.auction.Wins k n := fun k₀ hk₀ => hown.le_owner h hk₀
    have hc := parent_mem_of_succeeds hop (H.ne hown.1) hs hw
    rw [h.auction_exec H hoD hop, decide_eq_true hc]
    exact Auction.point_bid_self hw fun m hm => hmin m (h.claims m k (h.sound k m hm))

/-! ## Replicas that hold the whole set -/

variable (full : ∀ o ∈ D.ops, o ∈ c.operationLog)

include full

theorem parent_mem (hk : D.Claims k n) : k.clip ∈ c.session.clips := by
  obtain ⟨r, d, p, o, ho, hop⟩ := H.parent_inserted hk
  exact F.mem_of_insert (full o ho) hop

theorem claimOf_eq (hk : D.Owns k n) : c.session.claimOf n = some k := by
  obtain ⟨o, ho, hop⟩ := hk.1
  obtain ⟨k', hle, hk'⟩ := F.claimOf_le H (full o ho) hop (F.parent_mem H full hk.1)
  rw [hk', le_antisymm hle (hk.le_owner (F.board H) hk')]

theorem ownedBy (hk : D.Owns k n) : c.session.OwnedBy k n := by
  obtain ⟨child, hn, hc⟩ := Option.bind_eq_some_iff.mp (F.claimOf_eq H full hk)
  refine ⟨child, hn, hc, ?_⟩
  have hlink := (F.board H).linked n child hn
  rw [ClipCrdt.ClaimLinked, hc, Option.map_some] at hlink
  exact hlink

/-- What is on display at a place is owned there. -/
theorem owns_of_pointOf (hn : c.session.pointOf k = some n) : D.Owns k n := by
  have hk := (F.board H).sound k n hn
  obtain ⟨k₀, hk₀⟩ := Claims.exists_owner ((F.board H).claims n k hk)
  have := F.claimOf_eq H full hk₀
  exact Option.some.inj (this.symm.trans hk) ▸ hk₀

/-- Where the set settles a split point, the smallest owned child is on display, if any. -/
theorem pointOf_eq_some_iff (hk : D.PointSettled k) :
    c.session.pointOf k = some n ↔ D.Owns k n ∧ ∀ m, D.Claims k m → n ≤ m := by
  have hleast : ∀ {m}, D.Owns k m → (∀ n', D.Claims k n' → m ≤ n') →
      c.session.pointOf k = some m := by
    intro m hown hmin
    obtain ⟨o, ho, hop⟩ := hown.1
    exact F.pointOf_eq H (full o ho) hop (F.parent_mem H full hown.1) hown hmin
  constructor
  · intro hn
    have hown := F.owns_of_pointOf H full hn
    obtain ⟨m, hm, hmin⟩ := hown.1.exists_least
    have hm' : D.Owns k m := by
      by_contra hlost
      obtain ⟨n', hn', hlt⟩ := hk m hm hlost n hown
      exact absurd hlt (hmin n' hn'.1).not_gt
    obtain rfl := Option.some.inj (hn.symm.trans (hleast hm' hmin))
    exact ⟨hown, hmin⟩
  · exact fun h => hleast h.1 h.2

/-! ## Liveness -/

omit full in
theorem alive_of_undeleted (hd : ¬D.Has (.deleteClip x)) {a : LwwReg Bool}
    (ha : c.session.aliveOf x = some a) : a.value = true := by
  obtain ⟨o, ho, hv, -⟩ := (F.board H).alive x a ha
  rcases TimelineOperation.liveness_cases hv with ⟨-, -, -, -, h⟩ | ⟨-, -, -, h⟩ | ⟨hop, -⟩
  · exact h
  · exact h
  · exact absurd ⟨o, ho, hop⟩ hd

/-- A split of the owner that is newer than the deletes keeps the child alive. -/
theorem alive_of_owned (ho : o ∈ D.ops) (hop : o.operation = .splitClip k.clip k.offset x)
    (hown : D.Owns k x) (hnew : ∀ d ∈ D.ops, d.operation = .deleteClip x → d.tag < o.tag)
    {a : LwwReg Bool} (ha : c.session.aliveOf x = some a) : a.value = true := by
  have ht : c.session.HasTargets o.operation := fun r hr => by
    rw [hop] at hr
    exact List.mem_singleton.mp hr ▸ F.parent_mem H full hown.1
  obtain ⟨a', ha', hle⟩ := F.aliveOf_ge H (full o ho) ht (v := true) (x := x)
    (by rw [hop]; exact if_pos rfl) fun k' hop' => by
      rw [← (TimelineOperation.claim_eq (hop.symm.trans hop')).1]
      exact hown
  obtain rfl := Option.some.inj (ha.symm.trans ha')
  obtain ⟨b, hb, hv, htag⟩ := (F.board H).alive x a ha
  rcases TimelineOperation.liveness_cases hv with ⟨-, -, -, -, h⟩ | ⟨-, -, -, h⟩ | ⟨hop', -⟩
  · exact h
  · exact h
  · exact absurd (htag ▸ hnew b hb hop') hle.not_gt

/-- A delete that is newer than the splits of the child leaves it dead. -/
theorem dead_of_deleted (hx : D.Claims k x) (ho : o ∈ D.ops) (hop : o.operation = .deleteClip x)
    (hnew : ∀ b ∈ D.ops, ∀ k : Claim, b.operation = .splitClip k.clip k.offset x → b.tag < o.tag)
    {a : LwwReg Bool} (ha : c.session.aliveOf x = some a) : a.value = false := by
  have hmem : x ∈ c.session.clips := by
    obtain ⟨child, hchild, -⟩ := Option.map_eq_some_iff.mp ha
    exact BTreeMap.mem_iff.mpr ⟨child, hchild⟩
  have ht : c.session.HasTargets o.operation := fun r hr => by
    rw [hop] at hr
    exact List.mem_singleton.mp hr ▸ hmem
  obtain ⟨a', ha', hle⟩ := F.aliveOf_ge H (full o ho) ht (v := false) (x := x)
    (by rw [hop]; exact if_pos rfl) fun k' hop' => by cases hop.symm.trans hop'
  obtain rfl := Option.some.inj (ha.symm.trans ha')
  obtain ⟨b, hb, hv, htag⟩ := (F.board H).alive x a ha
  rcases TimelineOperation.liveness_cases hv with ⟨r, d, p, hop', -⟩ | ⟨p, f, hop', -⟩ | ⟨-, h⟩
  · exact absurd ⟨b, hb, hop'⟩ (H.child_not_inserted hx)
  · exact absurd (htag ▸ hnew b hb ⟨p, f⟩ hop') hle.not_gt
  · exact h

/-- The liveness of a clip that no split names is that of its newest insert or delete. -/
theorem aliveOf_ge_of_unclaimed (hx : ∀ k, ¬D.Claims k x) (ho : o ∈ D.ops) {v : Bool}
    (hv : o.operation.liveness x = some v) {a : LwwReg Bool} (ha : c.session.aliveOf x = some a) :
    o.tag ≤ a.tag := by
  have hmem : x ∈ c.session.clips := by
    obtain ⟨child, hchild, -⟩ := Option.map_eq_some_iff.mp ha
    exact BTreeMap.mem_iff.mpr ⟨child, hchild⟩
  have ht : c.session.HasTargets o.operation := by
    intro r hr
    rcases TimelineOperation.liveness_cases hv with ⟨_, _, _, hop, -⟩ | ⟨p, f, hop, -⟩ | ⟨hop, -⟩
    · rw [hop] at hr
      exact absurd hr List.not_mem_nil
    · exact absurd ⟨o, ho, hop⟩ (hx ⟨p, f⟩)
    · rw [hop] at hr
      exact List.mem_singleton.mp hr ▸ hmem
  obtain ⟨a', ha', hle⟩ := F.aliveOf_ge H (full o ho) ht hv fun k hop =>
    absurd ⟨o, ho, hop⟩ (hx k)
  exact Option.some.inj (ha'.symm.trans ha) ▸ hle

end Fed

/-! ## Two replicas -/

section

variable {att' : List TaggedOperation} (H : D.SharedIds) (F : Fed D c att) (F' : Fed D c' att')
  (full : ∀ o ∈ D.ops, o ∈ c.operationLog) (full' : ∀ o ∈ D.ops, o ∈ c'.operationLog)

include H F F' full full'

theorem alive_eq_of_settled (hx : D.LivenessSettled x) {a a' : LwwReg Bool}
    (ha : c.session.aliveOf x = some a) (ha' : c'.session.aliveOf x = some a') :
    a.value = a'.value := by
  by_cases hclaim : ∃ k, D.Claims k x
  · obtain ⟨k, hk⟩ := hclaim
    rcases hx with hd | ⟨ho, hop, hown, hnew⟩ | ⟨ho, hop, hnew⟩
    · rw [F.alive_of_undeleted H hd ha, F'.alive_of_undeleted H hd ha']
    · rw [F.alive_of_owned H full ho hop hown hnew ha,
        F'.alive_of_owned H full' ho hop hown hnew ha']
    · rw [F.dead_of_deleted H full hk ho hop hnew ha, F'.dead_of_deleted H full' hk ho hop hnew ha']
  · have hclaim := not_exists.mp hclaim
    obtain ⟨o, ho, hv, ht⟩ := (F.board H).alive x a ha
    obtain ⟨o', ho', hv', ht'⟩ := (F'.board H).alive x a' ha'
    have hle := F.aliveOf_ge_of_unclaimed H full hclaim ho' hv' ha
    have hle' := F'.aliveOf_ge_of_unclaimed H full' hclaim ho hv ha'
    have heq : o.tag = o'.tag := le_antisymm (ht'.symm ▸ hle') (ht.symm ▸ hle)
    have hoo : o = o' := by
      by_contra hne
      exact H.stamped.tag_ne ho ho' hne heq
    subst hoo
    exact Option.some.inj (hv.symm.trans hv')

/-- What splits do not decide is the same on both. -/
theorem bare_eq : c.session.bare = c'.session.bare := by
  have hperm : ∀ {c : TimelineCrdt} {att : List TaggedOperation}, Fed D c att →
      (∀ o ∈ D.ops, o ∈ c.operationLog) → (Session.new.applied att ++ c.pending).Perm D.ops := by
    intro c att F full
    refine F.trace.perm.trans ?_
    exact (List.perm_ext_iff_of_nodup F.trace.nodup.of_map D.nodup).mpr fun o =>
      ⟨F.log_mem o, full o⟩
  have hwait : ∀ {c : TimelineCrdt} {att : List TaggedOperation} (_ : Fed D c att),
      (∀ o ∈ D.ops, o ∈ c.operationLog) → ∀ o ∈ c.pending,
        ¬(bareMachine.run Session.new.bare (Session.new.applied att)).Ready o.operation := by
    intro c att F full o ho hready
    rw [← (bare_replay att .new).1, ready_bare, ← F.trace.session_eq] at hready
    have hmiss := (F.trace.missing o ho).1
    rcases hready.split_or_hasTargets with hsplit | ht
    · obtain ⟨k, n, hop⟩ := TimelineOperation.isSplit_iff_claim.mp hsplit
      refine hmiss fun r hr => ?_
      rw [hop] at hr
      exact List.mem_singleton.mp hr ▸
        F.parent_mem H full ⟨o, F.log_mem o (F.trace.mem_log_pending ho), hop⟩
    · exact hmiss ht
  have C := bare_confluent H.stamped.tagsDistinct fun o ho b hb {p f n r d q} hop hop' =>
    H.child_not_inserted (k := ⟨p, f⟩) ⟨o, ho, hop⟩ ⟨b, hb, hop'⟩
  have hrun := C.run_eq (fun o ho => (hperm F full).mem_iff.mp ho)
    ((hperm F full).nodup_iff.mpr D.nodup) ((hperm F full).trans (hperm F' full').symm)
    (bare_replay att .new).2 (bare_replay att' .new).2 trivial (hwait F full) (hwait F' full')
  rw [F.trace.session_eq, F'.trace.session_eq, (bare_replay att .new).1,
    (bare_replay att' .new).1, hrun.1]

theorem claimOf_congr (x : ClipId) : c.session.claimOf x = c'.session.claimOf x := by
  by_cases hclaim : ∃ k, D.Claims k x
  · obtain ⟨k, hk⟩ := hclaim
    obtain ⟨k₀, hk₀⟩ := hk.exists_owner
    rw [F.claimOf_eq H full hk₀, F'.claimOf_eq H full' hk₀]
  · have hnone : ∀ {s : Session}, Board D s → s.claimOf x = none := fun hs =>
      Option.eq_none_iff_forall_ne_some.mpr fun k hk => hclaim ⟨k, hs.claims x k hk⟩
    rw [hnone (F.board H), hnone (F'.board H)]

theorem parent_eq {d d' : ClipCrdt} (hd : c.session.clips[x]? = some d)
    (hd' : c'.session.clips[x]? = some d') : d.parent = d'.parent := by
  have hclaim := claimOf_congr H F F' full full' x
  rw [claimOf, claimOf, hd, hd', Option.bind_some, Option.bind_some] at hclaim
  rw [(F.board H).linked x d hd, (F'.board H).linked x d' hd', hclaim]

theorem splits_eq_of_settled (hpoint : ∀ k, D.PointSettled k) {d d' : ClipCrdt}
    (hd : c.session.clips[x]? = some d) (hd' : c'.session.clips[x]? = some d') :
    d.splits = d'.splits := by
  ext1 f
  have hpt : c.session.pointOf ⟨x, f⟩ = d.splits[f]? := by rw [pointOf, hd, Option.bind_some]
  have hpt' : c'.session.pointOf ⟨x, f⟩ = d'.splits[f]? := by rw [pointOf, hd', Option.bind_some]
  rw [← hpt, ← hpt']
  refine Option.ext fun n => ?_
  exact (F.pointOf_eq_some_iff H full (hpoint _)).trans
    (F'.pointOf_eq_some_iff H full' (hpoint _)).symm

/-- Where the set settles liveness and split points, the replicas agree. -/
theorem agreed_of_settled (hlive : ∀ n, D.LivenessSettled n) (hpoint : ∀ k, D.PointSettled k)
    (hforest : c.session.Forest) : D.Agreed c c' := by
  have hbare := bare_eq H F F' full full'
  have hclips : ∀ x : ClipId, c.session.clips[x]?.map (·.bare) =
      c'.session.clips[x]?.map (·.bare) := by
    intro x
    rw [← clips_bare, ← clips_bare, hbare]
  have hboth : ∀ {x : ClipId} {β : Type} (g : ClipCrdt → β),
      (∀ d d', c.session.clips[x]? = some d → c'.session.clips[x]? = some d' → d.bare = d'.bare →
        g d = g d') → c.session.clips[x]?.map g = c'.session.clips[x]?.map g := by
    intro x β g hg
    have hx := hclips x
    rcases hd : c.session.clips[x]? with _ | d <;> rcases hd' : c'.session.clips[x]? with _ | d' <;>
      rw [hd, hd'] at hx
    · cases hx
    · cases hx
    · exact congrArg some (hg d d' hd hd' (Option.some.inj hx))
  have halive : ∀ {x : ClipId} {d d'}, c.session.clips[x]? = some d →
      c'.session.clips[x]? = some d' → d.alive.value = d'.alive.value := fun hd hd' =>
    alive_eq_of_settled H F F' full full' (hlive _) (congrArg (Option.map _) hd)
      (congrArg (Option.map _) hd')
  have hparent : ∀ {x : ClipId} {d d'}, c.session.clips[x]? = some d →
      c'.session.clips[x]? = some d' → d.parent = d'.parent := parent_eq H F F' full full'
  have hsplits : ∀ {x : ClipId} {d d'}, c.session.clips[x]? = some d →
      c'.session.clips[x]? = some d' → d.splits = d'.splits :=
    splits_eq_of_settled H F F' full full' hpoint
  have halike : Alike c.session c'.session := by
    refine ⟨congrArg (·.metadata) hbare, congrArg (·.tracks) hbare, congrArg (·.envelopes) hbare,
      fun x => hboth _ fun d d' hd hd' hb => ?_⟩
    exact ClipCrdt.shown_eq_of_bare hb (hparent hd hd') (halive hd hd') (hsplits hd hd')
  obtain ⟨v, hv⟩ := hforest.materialize
  exact {
    view := ⟨v, hv, halike.materialize_eq.symm.trans hv⟩
    owner := fun k n hk => ⟨F.ownedBy H full hk, F'.ownedBy H full' hk⟩
    alive := fun x => hboth _ fun d d' hd hd' _ => halive hd hd'
    parent := fun x => hboth _ fun d d' hd hd' _ => hparent hd hd'
    splits := fun x => hboth _ fun d d' hd hd' _ => hsplits hd hd' }

end

end OpSet

end AvSync
