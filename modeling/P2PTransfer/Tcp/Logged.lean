import P2PTransfer.Lib.Log
import P2PTransfer.Tcp.Session

/-!
# Sessions whose loops keep a log

The loops of a session may write down what is wanted of their steps. Their logs begin with
the loops.

## Main definitions

- `Opening.logged`, `Admission.logged` — the two sides with their logs
- `OpenPhase.unlogged`, `AdmitPhase.unlogged` — where a side is, without its log
-/

namespace P2PTransfer

open Transition

variable {C : Primitives} {σ τ α β γ : Type}

def OpenPhase.unlogged : OpenPhase C (σ × List γ) → OpenPhase C σ
  | .hello => .hello
  | .awaitHello => .awaitHello
  | .metadata key => .metadata key
  | .awaitReply key => .awaitReply key
  | .running s => .running s.1
  | .failed e => .failed e

def AdmitPhase.unlogged : AdmitPhase C (τ × List γ) → AdmitPhase C τ
  | .awaitHello => .awaitHello
  | .hello key => .hello key
  | .awaitMetadata key => .awaitMetadata key
  | .asking key m => .asking key m
  | .replying key m => .replying key m
  | .running s => .running s.1
  | .failed e => .failed e

namespace Opening

/-- A sender whose loop begins with the log `first s`. -/
def logged (O : Opening C σ) (first : σ → List γ) : Opening C (σ × List γ) where
  secret := O.secret
  metadata := O.metadata
  start key f := (O.start key f).map fun s => (s, first s)

theorem logged_hear (O : Opening C σ) (first : σ → List γ) (f : Frame C) :
    ((O.logged first).hear f).unlogged = O.hear f := by
  unfold hear
  split
  · split <;> rfl
  · rfl

theorem logged_answered (O : Opening C σ) (first : σ → List γ) (key : C.Key) (f : Frame C) :
    ((O.logged first).answered key f).unlogged = O.answered key f := by
  simp only [answered, logged]
  cases hs : O.start key f <;> simp [OpenPhase.unlogged]

theorem logged_shows (O : Opening C σ) (first : σ → List γ) (P : Party σ α (Frame C))
    (log : σ → α → σ → List γ) :
    ((O.logged first).party (P.logged log)).Shows (O.party P) OpenPhase.unlogged where
  step p a := by
    cases p with
    | running s =>
      cases a with
      | body a =>
        have hstep := (Party.logged_shows P log).step s a
        simp only [party, Opening.step, OpenPhase.unlogged, ← hstep, Option.map_map]
        rfl
      | _ => rfl
    | awaitHello =>
      cases a with
      | serverHello f => exact congrArg some (O.logged_hear first f)
      | _ => rfl
    | awaitReply key =>
      cases a with
      | reply f => exact congrArg some (O.logged_answered first key f)
      | _ => rfl
    | _ => cases a <;> rfl
  recvs a := by cases a <;> rfl
  sends p a := by cases p <;> cases a <;> rfl
  hangup a := by cases a <;> rfl
  closed p := by cases p <;> rfl

end Opening

namespace Admission

/-- A receiver whose loop begins with the log `first s`. -/
def logged (A : Admission C τ) (first : τ → List γ) : Admission C (τ × List γ) where
  secret := A.secret
  asks := A.asks
  reply := A.reply
  start key m := (A.start key m, first (A.start key m))
  complaint := A.complaint

theorem logged_hear (A : Admission C τ) (first : τ → List γ) (f : Frame C) :
    ((A.logged first).hear f).unlogged = A.hear f := by
  unfold hear
  split
  · split <;> rfl
  · rfl

theorem logged_announced (A : Admission C τ) (first : τ → List γ) (key : C.Key) (f : Frame C) :
    ((A.logged first).announced key f).unlogged = A.announced key f := by
  unfold announced
  split
  · split
    · show AdmitPhase.unlogged (if A.asks then _ else _) = if A.asks then _ else _
      split <;> rfl
    · rfl
  · rfl

theorem logged_shows (A : Admission C τ) (first : τ → List γ) (Q : Party τ β (Frame C))
    (log : τ → β → τ → List γ) :
    ((A.logged first).party (Q.logged log)).Shows (A.party Q) AdmitPhase.unlogged where
  step p b := by
    cases p with
    | running s =>
      cases b with
      | body b =>
        have hstep := (Party.logged_shows Q log).step s b
        simp only [party, Admission.step, AdmitPhase.unlogged, ← hstep, Option.map_map]
        rfl
      | _ => rfl
    | awaitHello =>
      cases b with
      | clientHello f => exact congrArg some (A.logged_hear first f)
      | _ => rfl
    | awaitMetadata key =>
      cases b with
      | metadata f => exact congrArg some (A.logged_announced first key f)
      | _ => rfl
    | asking key m =>
      cases b with
      | answer accepted => cases accepted <;> rfl
      | _ => rfl
    | _ => cases b <;> rfl
  recvs b := by cases b <;> rfl
  sends p b := by cases p <;> cases b <;> rfl
  hangup b := by cases b <;> rfl
  closed p := by cases p <;> rfl

end Admission

/-- The runs of a session are those of the session with logs, without the logs. -/
theorem Session.reach_logged (O : Opening C σ) (A : Admission C τ) (P : Party σ α (Frame C))
    (Q : Party τ β (Frame C)) (first : σ → List γ) (first' : τ → List γ)
    (log : σ → α → σ → List γ) (log' : τ → β → τ → List γ)
    {n : Net (OpenPhase C σ) (AdmitPhase C τ) (Frame C)}
    (h : ((O.party P).link (A.party Q)).Reach (fun _ _ => True) (Session.start C σ τ) n) :
    ∃ m, (((O.logged first).party (P.logged log)).link
        ((A.logged first').party (Q.logged log'))).Reach (fun _ _ => True)
      (Session.start C (σ × List γ) (τ × List γ)) m ∧
      m.view OpenPhase.unlogged AdmitPhase.unlogged = n := by
  have hstart : Session.start C σ τ = (Session.start C (σ × List γ) (τ × List γ)).view
    OpenPhase.unlogged AdmitPhase.unlogged := rfl
  rw [hstart] at h
  exact (O.logged_shows first P log).reach (A.logged_shows first' Q log') h

end P2PTransfer
