import AvSync.Loopback

/-!
# Engines on any transport

A medium is whatever carries the messages of several engines: the state their transports share, and
what may happen to it between their calls. It may lose, repeat, reorder and delay what it carries,
and split or fail sends in any way, as long as it does not make operations up.
-/

namespace AvSync

/-- A transport for each peer, over a shared state, and what else may happen to that state. What a
peer sends is for the peers of its own group. -/
structure Medium (σ ε γ : Type) where
  host : PeerId → Host σ
  happen : ε → σ → σ
  group : PeerId → γ
  /-- The operation is on its way to a peer of the group. -/
  Holds : σ → γ → TaggedOperation → Prop

namespace Medium

variable {σ ε γ : Type} (M : Medium σ ε γ) (I : σ → Prop)

/-- From `t` to `t'`, no operation has set out. -/
def Keeps (t t' : σ) : Prop := I t' ∧ ∀ g o, M.Holds t' g o → M.Holds t g o

/-- From `t` to `t'`, the operations of `l` may have set out to the group of `p`. -/
def Passes (p : PeerId) (l : List TaggedOperation) (t t' : σ) : Prop :=
  I t' ∧ ∀ g o, M.Holds t' g o → M.Holds t g o ∨ M.group p = g ∧ o ∈ l

/-- In the states that come up, which `I` describes, only operations that have been sent to a group
are on their way to it, and only those arrive. -/
structure Honest : Prop where
  sendTo : ∀ {t p q m}, I t → M.Passes I p m.contents t ((M.host p).sendTo q m t).2
  broadcast : ∀ {t p m}, I t → M.Passes I p m.contents t ((M.host p).broadcast m t).2
  tryRecv : ∀ {t p}, I t → M.Keeps I t ((M.host p).tryRecv t).2
  received : ∀ {t p q m o}, I t → ((M.host p).tryRecv t).1 = .ok (some (q, m)) →
    o ∈ m.contents → M.Holds t (M.group p) o
  nowMs : ∀ {t p}, I t → M.Keeps I t ((M.host p).nowMs t).2
  happen : ∀ {t a}, I t → M.Keeps I t (M.happen a t)

end Medium

/-- Engines on a medium. The transport an engine holds is the medium as it was when it was called
last. -/
structure Ensemble (σ : Type) where
  medium : σ
  engines : PeerId → SyncEngine σ

/-- A call to an entry point of an engine. -/
inductive EnsembleCall where
  | applyLocal (operation : TimelineOperation)
  | processMessages
  | handlePeerJoin (peer : PeerId)
  | flushOfflineQueue
  | requestSnapshot

def EnsembleCall.event {σ : Type} : EnsembleCall → EngineEvent σ
  | .applyLocal operation => .applyLocal operation
  | .processMessages => .processMessages
  | .handlePeerJoin peer => .handlePeerJoin peer
  | .flushOfflineQueue => .flushOfflineQueue
  | .requestSnapshot => .requestSnapshot

inductive EnsembleEvent (ε : Type) where
  | call (p : PeerId) (a : EnsembleCall)
  | happen (a : ε)

/-- The local edit that is made. -/
def EnsembleEvent.edit {ε : Type} : EnsembleEvent ε → Option (PeerId × TimelineOperation)
  | .call p (.applyLocal operation) => some (p, operation)
  | _ => none

def NetEvent.edit : NetEvent → Option (PeerId × TimelineOperation)
  | .create p operation => some (p, operation)
  | .deliver .. => none

namespace Ensemble

variable {σ ε γ : Type}

/-- Engines on fresh timelines. -/
def new (t : σ) (config : PeerId → EngineConfig) : Ensemble σ :=
  ⟨t, fun p => .withConfig (.new p) t (config p)⟩

variable (M : Medium σ ε γ) (E : Ensemble σ)

/-- The engine of `p`, on the medium as it is. -/
def engine (p : PeerId) : SyncEngine σ := { E.engines p with transport := E.medium }

def step : EnsembleEvent ε → Ensemble σ
  | .call p a =>
    let e := (E.engine p).step (M.host p) a.event
    ⟨e.transport, Function.update E.engines p e⟩
  | .happen a => { E with medium := M.happen a E.medium }

/-- A call that returns. -/
def Enabled : EnsembleEvent ε → Prop
  | .call p (.applyLocal operation) =>
    ((E.engine p).applyLocal (M.host p) operation).isSome
  | _ => True

def machine : Machine (Ensemble σ) (EnsembleEvent ε) := ⟨step M, Enabled M⟩

/-- A local edit finds its targets and the Lamport counter below its maximum, and what it brings in
has an id that nothing has used. -/
def EditsOwn : EnsembleEvent ε → Prop
  | .call p (.applyLocal operation) =>
    (E.engines p).crdt.session.HasTargets operation ∧
      (∀ r, operation.introduced = some r → ∀ q, (E.engines q).crdt.Unused r) ∧
        (E.engines p).crdt.lamport.counter < u64Max
  | _ => True

/-- The timelines of the engines are the replicas of the net. -/
def Refines (N : Net) : Prop := ∀ p, (E.engines p).crdt = N.replica p

end Ensemble

/-- A fabric whose links fail and come back. -/
def Fabric.medium : Medium Fabric (PeerId × Bool) Unit where
  host := Fabric.host
  happen a f := { f with failSends := Function.update f.failSends a.1 a.2 }
  group _ := ()
  Holds f _ o := ∃ p, ∃ m ∈ f.inbox p, o ∈ m.2.contents

end AvSync
