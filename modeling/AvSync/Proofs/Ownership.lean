import AvSync.Lib.Auction
import AvSync.Ownership
import AvSync.Proofs.Bare
import AvSync.Proofs.Convergence

/-!
# Who owns a child

The claims of the clips and their split points are an auction, in which a split is a bid of its
claim for its child (`auction_exec_split`).
-/

namespace AvSync

namespace TimelineOperation

theorem liveness_cases {op : TimelineOperation} {x : ClipId} {v : Bool}
    (h : op.liveness x = some v) :
    (∃ r d p, op = .insertClip x r d p ∧ v = true) ∨ (∃ c f, op = .splitClip c f x ∧ v = true) ∨
      op = .deleteClip x ∧ v = false := by
  have hite : ∀ {y : ClipId} {w : Bool}, (if y = x then some w else none) = some v →
      y = x ∧ v = w := by
    intro y w hy
    split_ifs at hy with hyx
    exact ⟨hyx, (Option.some.inj hy).symm⟩
  rcases op with _ | _ | _ | _ | _ | _ | _ | _ | _ | _ | _
  case insertClip =>
    obtain ⟨rfl, hv⟩ := hite h
    exact Or.inl ⟨_, _, _, rfl, hv⟩
  case splitClip =>
    obtain ⟨rfl, hv⟩ := hite h
    exact Or.inr (Or.inl ⟨_, _, rfl, hv⟩)
  case deleteClip =>
    obtain ⟨rfl, hv⟩ := hite h
    exact Or.inr (Or.inr ⟨rfl, hv⟩)
  all_goals cases h

end TimelineOperation

namespace Session

variable {s : Session} {o : TaggedOperation} {ops : List TaggedOperation} {k j : Claim}
  {n m x y : ClipId}

/-- The claims and the split points of a session. -/
def auction (s : Session) : Auction Claim ClipId := ⟨s.claimOf, s.pointOf⟩

/-! ## What a split does to the claims -/

theorem claimOf_modifyClip {φ : ClipCrdt → ClipCrdt} : (s.modifyClip x φ).claimOf y =
    if x = y then s.clips[y]?.bind fun c => (φ c).originClaim else s.claimOf y := by
  unfold claimOf
  rw [clips_modifyClip]
  split_ifs
  · rw [Option.bind_map]
    rfl
  · rfl

theorem pointOf_modifyClip {φ : ClipCrdt → ClipCrdt} : (s.modifyClip x φ).pointOf j =
    if x = j.clip then s.clips[j.clip]?.bind fun c => (φ c).splits[j.offset]?
    else s.pointOf j := by
  unfold pointOf
  rw [clips_modifyClip]
  split_ifs
  · rw [Option.bind_map]
    rfl
  · rfl

theorem auction_modifyClip {φ : ClipCrdt → ClipCrdt} (hk : ∀ c, (φ c).originClaim = c.originClaim)
    (hs : ∀ c, (φ c).splits = c.splits) : (s.modifyClip x φ).auction = s.auction := by
  refine Auction.ext (funext fun y => claimOf_modifyClip.trans ?_)
    (funext fun j => pointOf_modifyClip.trans ?_)
  · simp only [hk]
    exact ite_self _
  · simp only [hs]
    exact ite_self _

theorem auction_recordSplit (hk : k.clip ∈ s.clips) (n : ClipId) :
    (s.modifyClip k.clip (·.recordSplit k.offset n)).auction = s.auction.record k n := by
  obtain ⟨c, hc⟩ := BTreeMap.mem_iff.mp hk
  refine Auction.ext (funext fun y => claimOf_modifyClip.trans ?_)
    (funext fun j => pointOf_modifyClip.trans ?_)
  · have hclaim : ∀ c : ClipCrdt, (c.recordSplit k.offset n).originClaim = c.originClaim :=
      fun c => by rw [ClipCrdt.recordSplit_eq]
    simp only [hclaim]
    exact ite_self _
  · rw [Auction.point_record]
    rcases j with ⟨x, f⟩
    rcases k with ⟨c', f'⟩
    by_cases hx : c' = x
    · subst hx
      have hpoint : s.pointOf ⟨c', f'⟩ = c.splits[f']? := by
        rw [pointOf, hc, Option.bind_some]
      simp only [hc, Option.bind_some, if_true, ClipCrdt.splits_recordSplit, Claim.mk.injEq,
        true_and, auction, hpoint, eq_comm (a := f)]
      split_ifs with hf
      · rcases c.splits[f']? <;> rfl
      · rw [pointOf, hc, Option.bind_some]
    · simp only [hx, Ne.symm hx, if_false, Claim.mk.injEq, false_and]
      rfl

theorem auction_dropSplit (k : Claim) (n : ClipId) :
    (s.modifyClip k.clip (·.dropSplit k.offset n)).auction = s.auction.release k n := by
  refine Auction.ext (funext fun y => claimOf_modifyClip.trans ?_)
    (funext fun j => pointOf_modifyClip.trans ?_)
  · have hclaim : ∀ c : ClipCrdt, (c.dropSplit k.offset n).originClaim = c.originClaim :=
      fun c => by unfold ClipCrdt.dropSplit; split_ifs <;> rfl
    simp only [hclaim]
    exact ite_self _
  · rw [Auction.point_release]
    rcases j with ⟨x, f⟩
    rcases k with ⟨c', f'⟩
    by_cases hx : c' = x
    · subst hx
      simp only [if_true, Claim.mk.injEq, true_and, auction, pointOf]
      rcases s.clips[c']? with _ | c
      · simp only [Option.bind_none, reduceCtorEq, and_false, if_false]
      · simp only [Option.bind_some, ClipCrdt.dropSplit]
        by_cases hn : c.splits[f']? = some n
        · simp only [hn, if_true, and_true, BTreeMap.getElem?_erase_if, eq_comm (a := f')]
        · simp only [hn, if_false, and_false]
    · simp only [hx, Ne.symm hx, if_false, Claim.mk.injEq, false_and]
      rfl

theorem auction_link (hn : n ∈ s.clips) (k : Claim) :
    (s.modifyClip n (·.link k)).auction = s.auction.award k n := by
  obtain ⟨c, hc⟩ := BTreeMap.mem_iff.mp hn
  refine Auction.ext (funext fun y => claimOf_modifyClip.trans ?_)
    (funext fun j => pointOf_modifyClip.trans (ite_self _))
  change _ = Function.update s.claimOf n (some k) y
  by_cases hy : n = y
  · rw [if_pos hy, ← hy, hc, Function.update_self]
    rfl
  · rw [if_neg hy, Function.update_of_ne (Ne.symm hy)]

theorem auction_childRecord (hn : n ∉ s.clips) (k : Claim) (t : OpTag) :
    (s.setClip n (childRecord k t)).auction = s.auction.award k n := by
  refine Auction.ext (funext fun y => ?_) (funext fun j => ?_)
  · change ((s.setClip n (childRecord k t)).clips[y]?).bind _ =
      Function.update s.claimOf n (some k) y
    rw [clips_setClip]
    by_cases hy : n = y
    · rw [if_pos hy, ← hy, Function.update_self]
      rfl
    · rw [if_neg hy, Function.update_of_ne (Ne.symm hy)]
      rfl
  · change ((s.setClip n (childRecord k t)).clips[j.clip]?).bind _ = s.clips[j.clip]?.bind _
    rw [clips_setClip]
    split_ifs with hj
    · rw [← hj, BTreeMap.not_mem_iff.mp hn]
      simp [childRecord, ClipCrdt.link, ClipCrdt.fromSplit]
    · rfl

theorem auction_exec_of_not_split (h : ¬o.operation.IsSplit) : (s.exec o).auction = s.auction := by
  have hclip : ∀ (y : ClipId) {β : Type} (g : ClipCrdt → Option β),
      (∀ c w t, g (c.write w t) = g c) → (∀ r d p t, g (.fromInsert r d p t) = none) →
      (s.exec o).clips[y]?.bind g = s.clips[y]?.bind g := by
    intro y β g hw hi
    rw [clips_exec h]
    split_ifs
    · rcases hy : s.clips[y]? with _ | c
      · unfold clipStep
        split
        · exact hi _ _ _ _
        · rfl
      · rw [clipStep_some]
        exact hw c _ _
    · rfl
  refine Auction.ext (funext fun y => ?_) (funext fun j => ?_)
  · exact hclip y _ (fun _ _ _ => rfl) fun _ _ _ _ => rfl
  · exact hclip j.clip _ (fun _ _ _ => rfl) fun _ _ _ _ => by simp [ClipCrdt.fromInsert]

/-- A split is a bid of its claim for its child, open if the parent is there. -/
theorem auction_exec_split (hop : o.operation = .splitClip k.clip k.offset n) (hkn : k.clip ≠ n)
    (hn : n ∈ s.clips → s.claimOf n ≠ none) :
    (s.exec o).auction = s.auction.bid k n (decide (k.clip ∈ s.clips)) := by
  have hrec : ∀ {s' : Session}, (∀ y, y ∈ s'.clips ↔ y ∈ s.clips) →
      (s'.modifyClip k.clip (·.recordSplit k.offset n)).auction =
        if k.clip ∈ s.clips then s'.auction.record k n else s'.auction := by
    intro s' hs'
    split_ifs with hk
    · exact auction_recordSplit ((hs' _).mpr hk) n
    · rw [modifyClip_of_not_mem (mt (hs' _).mp hk)]
  have hnone : n ∉ s.clips → s.auction.owner n = none := fun h => by
    change s.claimOf n = none
    rw [claimOf, BTreeMap.not_mem_iff.mp h, Option.bind_none]
  have hsome : ∀ {c : ClipCrdt} {k₀}, s.clips[n]? = some c → c.originClaim = some k₀ →
      s.auction.owner n = some k₀ := by
    intro c k₀ hc hk
    change s.claimOf n = _
    rw [claimOf, hc, Option.bind_some, hk]
  have hrev : ∀ s' : Session, (s'.modifyClip n (·.revive o.tag)).auction = s'.auction :=
    fun s' => auction_modifyClip (fun _ => rfl) fun _ => rfl
  simp only [exec, hop, apply]
  have hstep := applySplit_step s k.clip k.offset n o.tag
  generalize s.applySplit k.clip k.offset n o.tag = r at hstep ⊢
  rcases hstep with h | ⟨-, hc, hk, hlt⟩ | ⟨-, hc, hk⟩ | ⟨-, hc, hk⟩ | ⟨-, hc, hk⟩ |
    ⟨-, hc, hk, hlt⟩
  · exact absurd h hkn
  · simp only [Auction.bid, hsome hc hk, hlt, if_true]
  · simp only [Auction.bid, hnone hc, hk, decide_false, Bool.false_eq_true, if_false]
  · have hrecord := auction_recordSplit hk n
    rw [auction_childRecord (by rwa [mem_modifyClip]), hrecord]
    simp only [Auction.bid, hnone hc, hk, decide_true, if_true]
    rfl
  · rename_i child
    have hown : s.auction.owner n = some k := by
      rcases hk' : child.originClaim with _ | k₀
      · have := hn (BTreeMap.mem_iff.mpr ⟨_, hc⟩)
        rw [claimOf, hc, Option.bind_some, hk'] at this
        exact absurd rfl this
      · rw [hk', Option.getD_some] at hk
        exact hsome hc (hk'.trans (congrArg some hk))
    rw [hrec (fun y => mem_modifyClip), hrev]
    simp only [Auction.bid, hown, lt_irrefl, if_false, decide_eq_true_eq]
  · have hmem : n ∈ s.clips := BTreeMap.mem_iff.mpr ⟨_, hc⟩
    rw [hrec (fun y => by simp only [mem_modifyClip]), hrev, auction_link (by simpa using hmem),
      auction_dropSplit]
    simp only [Auction.bid, hsome hc hk, hlt, hlt.not_gt, if_true, if_false, decide_eq_true_eq]

/-- A split that applies, and does not lose the child, finds its parent. -/
theorem parent_mem_of_succeeds {c f} (hop : o.operation = .splitClip c f n) (hcn : c ≠ n)
    (hs : s.Succeeds o) (hw : ∀ k₀, s.claimOf n = some k₀ → ⟨c, f⟩ ≤ k₀) : c ∈ s.clips := by
  simp only [Succeeds, hop, apply] at hs
  have hstep := applySplit_step s c f n o.tag
  generalize s.applySplit c f n o.tag = r at hstep hs
  rcases hstep with h | ⟨-, hn, hk, hlt⟩ | ⟨-, hn, hc⟩ | ⟨-, hn, hc⟩ | ⟨-, hn, hk⟩ |
    ⟨-, hn, hk, hlt⟩
  · exact absurd h hcn
  · exact absurd hlt (hw _ (by rw [claimOf, hn, Option.bind_some, hk])).not_gt
  · cases hs
  · exact hc
  · exact succeeds_clipReply.mp hs
  · exact succeeds_clipReply.mp hs

/-! ## Liveness -/

theorem aliveOf_modifyClip {φ : ClipCrdt → ClipCrdt} : (s.modifyClip x φ).aliveOf y =
    if x = y then s.clips[y]?.map fun c => (φ c).alive else s.aliveOf y := by
  unfold aliveOf
  rw [clips_modifyClip]
  split_ifs
  · rw [Option.map_map]
    rfl
  · rfl

theorem aliveOf_modifyClip_of_eq {φ : ClipCrdt → ClipCrdt} (h : ∀ c, (φ c).alive = c.alive) :
    (s.modifyClip x φ).aliveOf = s.aliveOf := by
  funext y
  rw [aliveOf_modifyClip]
  simp only [h]
  exact ite_self _

/-- A split leaves the liveness of clips alone, or it writes that of its child. -/
theorem aliveOf_exec_split {c f} (hop : o.operation = .splitClip c f n) :
    ((s.exec o).aliveOf = s.aliveOf ∧
      (c = n ∨ ¬s.Succeeds o ∨ ∃ k₀, s.claimOf n = some k₀ ∧ k₀ < ⟨c, f⟩)) ∨
    (s.exec o).aliveOf =
      Function.update s.aliveOf n (some ((s.aliveOf n).elim ⟨true, o.tag⟩ (·.set true o.tag))) := by
  have hrec : ∀ d : ClipCrdt, (d.recordSplit f n).alive = d.alive :=
    fun d => by rw [ClipCrdt.recordSplit_eq]
  have hdrop : ∀ (d : ClipCrdt) (g : UInt64), (d.dropSplit g n).alive = d.alive :=
    fun d g => by unfold ClipCrdt.dropSplit; split_ifs <;> rfl
  have hlink : ∀ d : ClipCrdt, (d.link ⟨c, f⟩).alive = d.alive := fun _ => rfl
  have hrev : ∀ {s' : Session} {child : ClipCrdt}, s'.aliveOf = s.aliveOf →
      s.clips[n]? = some child → (s'.modifyClip n (·.revive o.tag)).aliveOf =
        Function.update s.aliveOf n
          (some ((s.aliveOf n).elim ⟨true, o.tag⟩ (·.set true o.tag))) := by
    intro s' child hs' hn
    funext y
    rw [aliveOf_modifyClip]
    by_cases hy : n = y
    · subst hy
      have hmap : s'.clips[n]?.map (fun c => (c.revive o.tag).alive) =
          (s'.aliveOf n).map (·.set true o.tag) := by
        rw [aliveOf, Option.map_map]
        rfl
      rw [if_pos rfl, Function.update_self, hmap, hs', aliveOf, hn]
      rfl
    · rw [if_neg hy, Function.update_of_ne (Ne.symm hy), hs']
  simp only [Succeeds, exec, hop, apply]
  have hstep := applySplit_step s c f n o.tag
  generalize s.applySplit c f n o.tag = r at hstep ⊢
  rcases hstep with h | ⟨-, hn, hk, hlt⟩ | ⟨-, hn, hc⟩ | ⟨-, hn, hc⟩ | ⟨-, hn, hk⟩ |
    ⟨-, hn, hk, hlt⟩
  · exact Or.inl ⟨rfl, Or.inl h⟩
  · refine Or.inl ⟨rfl, Or.inr (Or.inr ⟨_, ?_, hlt⟩)⟩
    rw [claimOf, hn, Option.bind_some, hk]
  · exact Or.inl ⟨rfl, Or.inr (Or.inl (by simp))⟩
  · refine Or.inr (funext fun y => ?_)
    by_cases hy : n = y
    · subst hy
      rw [Function.update_self, aliveOf, clips_setClip, if_pos rfl, aliveOf,
        BTreeMap.not_mem_iff.mp hn]
      rfl
    · rw [Function.update_of_ne (Ne.symm hy), aliveOf, clips_setClip, if_neg hy]
      exact congrFun (aliveOf_modifyClip_of_eq hrec) y
  · refine Or.inr ?_
    rw [aliveOf_modifyClip_of_eq hrec]
    exact hrev rfl hn
  · refine Or.inr ?_
    rw [aliveOf_modifyClip_of_eq hrec]
    refine hrev ?_ hn
    rw [aliveOf_modifyClip_of_eq hlink, aliveOf_modifyClip_of_eq fun d => hdrop d _]

theorem liveness_eq_of_edited (h : ¬o.operation.IsSplit) (hx : o.operation.editedClip = some x) :
    o.operation.liveness x = o.operation.clipWrite.alive := by
  rcases hop : o.operation with y | _ | y | _ | _ | _ | _ | _ | _ | _ | _ <;>
    rw [hop] at h hx <;> cases hx
  case insertClip => exact if_pos rfl
  case deleteClip => exact if_pos rfl
  all_goals rfl

/-- A register that an operation leaves behind was there before, or the operation wrote it. -/
theorem aliveOf_of_exec {a : LwwReg Bool} (h : (s.exec o).aliveOf x = some a) :
    s.aliveOf x = some a ∨ o.operation.liveness x = some a.value ∧ o.tag = a.tag := by
  have hset : ∀ (r : LwwReg Bool) (v : Bool), r.set v o.tag = a →
      r = a ∨ some v = some a.value ∧ o.tag = a.tag := by
    intro r v hr
    unfold LwwReg.set at hr
    split_ifs at hr
    · exact Or.inr (hr ▸ ⟨rfl, rfl⟩)
    · exact Or.inl hr
  by_cases hsplit : o.operation.IsSplit
  · obtain ⟨c, f, n, hop⟩ := TimelineOperation.isSplit_iff.mp hsplit
    rcases aliveOf_exec_split (s := s) hop with ⟨he, -⟩ | he
    · exact Or.inl (he ▸ h)
    · rw [he] at h
      by_cases hy : x = n
      · subst hy
        rw [Function.update_self, Option.some.injEq] at h
        have hlive : o.operation.liveness x = some true := by
          rw [hop]
          exact if_pos rfl
        rw [hlive]
        rcases hx : s.aliveOf x with _ | r
        · rw [hx] at h
          exact Or.inr (h ▸ ⟨rfl, rfl⟩)
        · rw [hx] at h
          exact (hset r true h).imp_left (congrArg some)
      · rw [Function.update_of_ne hy] at h
        exact Or.inl h
  · obtain ⟨d, hd, hda⟩ := Option.map_eq_some_iff.mp h
    rcases clip_exec_of_not_split hsplit hd with ⟨e, he, hde⟩ | ⟨-, r, p, q, hop, hdi⟩
    · have hold : s.aliveOf x = some e.alive := congrArg (Option.map _) he
      rcases hde with rfl | ⟨hedit, rfl⟩
      · exact Or.inl (hold.trans (congrArg some hda))
      · rw [liveness_eq_of_edited hsplit hedit, hold]
        rcases hw : o.operation.clipWrite.alive with _ | v
        · refine Or.inl (congrArg some (Eq.trans ?_ hda))
          simp only [ClipCrdt.write, hw, LwwReg.setOption]
        · refine (hset e.alive v (Eq.trans ?_ hda)).imp_left (congrArg some)
          simp only [ClipCrdt.write, hw, LwwReg.setOption]
    · rw [hop, ← hda, hdi]
      exact Or.inr ⟨if_pos rfl, rfl⟩

theorem aliveOf_mono {a : LwwReg Bool} (h : s.aliveOf x = some a) :
    ∃ a', (s.exec o).aliveOf x = some a' ∧ a.tag ≤ a'.tag := by
  by_cases hsplit : o.operation.IsSplit
  · obtain ⟨c, f, n, hop⟩ := TimelineOperation.isSplit_iff.mp hsplit
    rcases aliveOf_exec_split (s := s) hop with ⟨he, -⟩ | he
    · exact ⟨a, he ▸ h, le_rfl⟩
    · rw [he]
      by_cases hy : x = n
      · subst hy
        rw [Function.update_self, h]
        exact ⟨_, rfl, (LwwReg.tag_set a true o.tag).symm ▸ le_max_left _ _⟩
      · rw [Function.update_of_ne hy]
        exact ⟨a, h, le_rfl⟩
  · obtain ⟨c, hc, rfl⟩ := Option.map_eq_some_iff.mp h
    rw [aliveOf, clips_exec hsplit, hc]
    split_ifs
    · rw [clipStep_some]
      exact ⟨_, rfl, LwwReg.tag_le_setOption _ _ _⟩
    · exact ⟨_, rfl, le_rfl⟩

/-- An operation that writes the liveness of a clip, and does not lose it, leaves no older tag. -/
theorem aliveOf_exec_ge {v : Bool} (hs : s.Succeeds o) (hv : o.operation.liveness x = some v)
    (hw : ∀ c f, o.operation = .splitClip c f x →
      c ≠ x ∧ ∀ k₀, s.claimOf x = some k₀ → ⟨c, f⟩ ≤ k₀) :
    ∃ a, (s.exec o).aliveOf x = some a ∧ o.tag ≤ a.tag := by
  have hwrite : ∀ (c : ClipCrdt) (w : Bool), o.operation.clipWrite.alive = some w →
      o.tag ≤ (c.write o.operation.clipWrite o.tag).alive.tag := by
    intro c w h
    simp only [ClipCrdt.write, h, LwwReg.setOption, LwwReg.tag_set]
    exact le_max_right _ _
  rcases TimelineOperation.liveness_cases hv with ⟨r, d, p, hop, -⟩ | ⟨c, f, hop, -⟩ | ⟨hop, -⟩
  · rw [aliveOf, clips_exec_insert hop, if_pos rfl]
    rcases s.clips[x]? with _ | c
    · exact ⟨_, rfl, le_rfl⟩
    · exact ⟨_, rfl, hwrite c true (by rw [hop]; rfl)⟩
  · rcases aliveOf_exec_split (s := s) hop with ⟨-, h | h | ⟨k₀, hk, hlt⟩⟩ | he
    · exact absurd h (hw c f hop).1
    · exact absurd hs h
    · exact absurd hlt ((hw c f hop).2 k₀ hk).not_gt
    · rw [he, Function.update_self]
      rcases s.aliveOf x with _ | a
      · exact ⟨_, rfl, le_rfl⟩
      · exact ⟨_, rfl, (LwwReg.tag_set a true o.tag).symm ▸ le_max_right _ _⟩
  · have hx : x ∈ s.clips := by
      have hr := ready_of_succeeds hs
      rw [hop] at hr
      exact hr (.clip x) List.mem_cons_self
    obtain ⟨c, hc⟩ := BTreeMap.mem_iff.mp hx
    rw [aliveOf, clips_exec (by rw [hop]; exact id), if_pos (by rw [hop]; rfl), hc, clipStep_some]
    exact ⟨_, rfl, hwrite c false (by rw [hop]; rfl)⟩

end Session

end AvSync
